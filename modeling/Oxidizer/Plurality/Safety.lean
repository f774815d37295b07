import Oxidizer.Plurality.Steps
/-!
# The pool is safe under concurrent frees

The steps that change a count, and then every step of the system: each slot is
in one place at every moment, values are dropped once, and the pool is torn
down once, when nobody can reach it any more.
-/

namespace Plurality

open Lib List Alloc

namespace Pool
variable {ι : Type} [Fintype ι] {c : Config} {s : Pool ι} {l : List Nat} {place : Nat → Option (Place ι)}

/-! ## Counts -/

variable (h : s.InvAt c l place)
include h

variable {slot : Nat}

theorem InvAt.knows_store {a : Place ι} (hat : s.Holds c l a slot) (hfree : a ≠ .free)
    (hmine : a ≠ .alloc) (value : Nat) : (s.store slot value).Knows c l s.alloc := by
  have hk := h.knows
  have hlist : ∀ i ∈ l, (s.store slot value).word i = s.word i := by
    intro i hi
    refine if_neg ?_
    rintro rfl
    exact hfree (h.only hat (b := .free) hi)
  have halloc : ∀ i ∈ s.alloc.slots c.chunk_size, (s.store slot value).word i = s.word i := by
    intro i hi
    refine if_neg ?_
    rintro rfl
    exact hmine (h.only hat (b := .alloc) hi)
  cases ha : s.alloc with
  | pop_cas again head next =>
    rw [ha] at hk
    exact ⟨hk.1, (hlist head hk.1).trans hk.2⟩
  | publish chunks =>
    rw [ha] at hk
    refine ⟨hk.1, hk.2.1, fun i hi hi' => (if_neg ?_).trans (hk.2.2 i hi hi')⟩
    have hslot := h.below hat
    rw [total, ← hk.1] at hslot
    omega
  | splice_load base | splice_link base head =>
    rw [ha] at hk halloc
    exact ⟨hk.1, fun i hi hi' => (halloc i (mem_range'_1.mpr ⟨hi, by omega⟩)).trans (hk.2 i hi hi')⟩
  | splice_cas base head =>
    rw [ha] at hk halloc
    refine ⟨hk.1, fun i hi hi' => (halloc i (mem_range'_1.mpr ⟨hi, by omega⟩)).trans (hk.2.1 i hi hi'), ?_⟩
    have hsize := hk.1
    exact (halloc _ (mem_range'_1.mpr (by omega))).trans hk.2.2
  | marked slot' =>
    rw [ha] at hk halloc
    exact (halloc slot' (mem_singleton.mpr rfl)).trans hk
  | _ =>
    rw [ha] at hk
    exact hk

theorem InvAt.recounts {handles handles' : Nat} (ho : s.owner slot = some ⟨.arc, handles⟩)
    (hpos : 0 < handles') : ((s.store slot handles').owned slot (some ⟨.arc, handles'⟩)).InvAt c l place := by
  have hat : s.Holds c l .owned slot := by
    show (s.owner slot).isSome
    rw [ho]
    rfl
  have hother : ∀ {a : Place ι} {i : Nat}, a ≠ .owned → s.Holds c l a i → (s.store slot handles').word i = s.word i := by
    intro a i ha hi
    refine if_neg ?_
    rintro rfl
    exact ha (h.only hi hat)
  have hsome : ∀ i, ((s.owned slot (some ⟨.arc, handles'⟩)).owner i).isSome ↔ (s.owner i).isSome := by
    intro i
    rw [owned_owner]
    split
    · rename_i hi
      rw [hi, ho]
      exact Iff.rfl
    · exact Iff.rfl
  refine ⟨h.chain.congr fun i hi => hother (a := .free) nofun hi, h.once, fun pl i => ?_, h.slots, h.fits,
    fun i k hi => ?_, ?_, h.teardown, fun hr => ?_, fun i => ?_, ?_, fun p i kind head hp => ?_, h.frames⟩
  · rw [← h.held]
    cases pl with
    | owned => exact hsome i
    | _ => exact Iff.rfl
  · change (s.owned slot _).owner i = _ at hi
    rw [owned_owner] at hi
    split at hi
    · cases hi
      exact ⟨if_pos ‹_›, hpos⟩
    · obtain ⟨hw, hk⟩ := h.counted i k hi
      exact ⟨(if_neg ‹_›).trans hw, hk⟩
  · have hsum := sum_owned c s (h.below hat) (some ⟨.arc, handles'⟩)
    rw [ho] at hsum
    have hpre := h.refcount
    show s.pool_refcount = (if s.alloc.running then 1 else 0) +
      ∑ i ∈ Finset.range (s.total c), owner_refs ((s.owned slot (some ⟨.arc, handles'⟩)).owner i) + ∑ p, (s.calls p).refs
    rw [Nat.add_right_cancel hsum]
    exact hpre
  · obtain ⟨hown, hcalls⟩ := h.borrow hr
    refine ⟨fun i o hi => ?_, hcalls⟩
    rw [owned_owner] at hi
    split at hi
    · cases hi
      exact nofun
    · exact hown i o hi
  · have hiff : ((s.store slot handles').owned slot (some ⟨.arc, handles'⟩)).HasValue i ↔ s.HasValue i :=
      or_congr (hsome i) Iff.rfl
    rw [hiff]
    exact h.values i
  · exact h.knows_store hat nofun nofun handles'
  · change s.calls p = _ at hp
    exact (hother (a := .transit p) nofun ⟨kind, by rw [hp]; rfl⟩).trans (h.linked p i kind head hp)

section
variable [DecidableEq ι]

variable {p : ι}

theorem InvAt.drops_value {slot : Nat} {kind : Kind} (hp : s.calls p = .drop_value slot kind) :
    ({ s with dropped := fun i => if i = slot then s.dropped i + 1 else s.dropped i }.moved p (.load_head slot kind)).InvAt
      c l place := by
  have hat : s.Holds c l (.transit p) slot := ⟨kind, by rw [hp]; rfl⟩
  have htr : ∀ p', ((s.moved p (.load_head slot kind)).calls p').transit = (s.calls p').transit := by
    intro p'
    rw [moved_calls]
    split
    · rename_i he
      rw [he, hp]
      rfl
    · rfl
  refine ⟨h.chain, h.once, fun pl i => ?_, h.slots, h.fits, h.counted, ?_, ?_, fun hr => ?_, fun i => ?_, h.knows,
    fun p' i k head hp' => ?_, h.frames⟩
  · rw [← h.held]
    cases pl with
    | transit p' =>
      show (∃ k, ((s.moved p (.load_head slot kind)).calls p').transit = some (i, k)) ↔ _
      rw [htr]
      rfl
    | _ => exact Iff.rfl
  · have hmoved := refs_moved c s p (.load_head slot kind)
    rw [hp] at hmoved
    exact h.refcount.trans (Nat.add_right_cancel hmoved).symm
  · have hmoved := teardowns_moved s p (.load_head slot kind)
    rw [hp] at hmoved
    exact (Nat.add_right_cancel hmoved).trans h.teardown
  · obtain ⟨hown, hcalls⟩ := h.borrow hr
    refine ⟨hown, fun p' i => ?_⟩
    show ((s.moved p (.load_head slot kind)).calls p').transit ≠ _
    rw [htr]
    exact hcalls p' i
  · have hval := h.values i
    by_cases hi : i = slot
    · subst hi
      -- this call was the only one with a value in the slot
      have hno : ¬ (s.moved p (.load_head i kind)).HasValue i := by
        rintro (hsome | ⟨p', k, hp'⟩)
        · exact absurd (h.only hat (b := .owned) hsome) nofun
        · rw [moved_calls] at hp'
          split at hp'
          · cases hp'
          · rename_i hne
            have := h.only hat (b := .transit p') ⟨k, by rw [hp']; rfl⟩
            exact hne (Place.transit.inj this).symm
      refine ⟨fun hx => absurd hx hno, fun _ => ?_⟩
      show s.written i = if i = i then s.dropped i + 1 else s.dropped i
      rw [if_pos rfl]
      exact hval.1 (.inr ⟨p, kind, hp⟩)
    · have hiff : (s.moved p (.load_head slot kind)).HasValue i ↔ s.HasValue i := by
        refine or_congr Iff.rfl ⟨?_, ?_⟩
        · rintro ⟨p', k, hp'⟩
          rw [moved_calls] at hp'
          split at hp'
          · cases hp'
          · exact ⟨p', k, hp'⟩
        · rintro ⟨p', k, hp'⟩
          refine ⟨p', k, ?_⟩
          rw [moved_calls, if_neg]
          · exact hp'
          · rintro rfl
            rw [hp] at hp'
            cases hp'
            exact hi rfl
      show ((s.moved p (.load_head slot kind)).HasValue i → s.written i = (if i = slot then s.dropped i + 1 else s.dropped i) + 1) ∧
        (¬ (s.moved p (.load_head slot kind)).HasValue i → s.written i = if i = slot then s.dropped i + 1 else s.dropped i)
      rw [hiff, if_neg hi]
      exact hval
  · change (s.moved p (.load_head slot kind)).calls p' = _ at hp'
    rw [moved_calls] at hp'
    split at hp'
    · cases hp'
    · exact h.linked p' i k head hp'

theorem InvAt.call_ends {call : Call} (hold : (s.calls p).transit = none)
    (hnew : call.transit = none) (refcount torn : Nat) (hrefs : refcount + (s.calls p).refs = s.pool_refcount + call.refs)
    (htear : torn + (s.teardowns - s.torn + call.tearing) = (s.calls p).tearing + if refcount = 0 then 1 else 0) :
    ({ s with pool_refcount := refcount, torn := torn }.moved p call).InvAt c l place := by
  have hno : ∀ q : Call, q.transit = none → ∀ i k, q ≠ .drop_value i k := by
    rintro q hq i k rfl
    cases hq
  refine ⟨h.chain, h.once, fun pl i => ?_, h.slots, h.fits, h.counted, ?_, ?_, fun hr => ?_, fun i => ?_, h.knows,
    fun p' i k head hp' => ?_, h.frames⟩
  · rw [← h.held]
    cases pl with
    | transit p' =>
      show (∃ k, ((s.moved p call).calls p').transit = some (i, k)) ↔ ∃ k, (s.calls p').transit = some (i, k)
      rw [moved_calls]
      split
      · rename_i he
        rw [he, hold, hnew]
      · rfl
    | _ => exact Iff.rfl
  · have hmoved := refs_moved c s p call
    have hpre := h.refcount
    show refcount = refs c (s.moved p call)
    omega
  · have hmoved := teardowns_moved s p call
    have hpre : s.teardowns = s.torn + (s.alloc.tearing + ∑ p, (s.calls p).tearing) := Nat.add_assoc _ _ _
    have hpost : (s.moved p call).teardowns = s.torn + (s.alloc.tearing + ∑ p', ((s.moved p call).calls p').tearing) :=
      Nat.add_assoc _ _ _
    show torn + s.alloc.tearing + ∑ p', ((s.moved p call).calls p').tearing = if refcount = 0 then 1 else 0
    omega
  · obtain ⟨hown, hcalls⟩ := h.borrow hr
    refine ⟨hown, fun p' i => ?_⟩
    rw [moved_calls]
    split
    · rw [hnew]
      exact nofun
    · exact hcalls p' i
  · have hiff := hasValue_moved (hno _ hold) (hno _ hnew) i
    show ((s.moved p call).HasValue i → _) ∧ (¬ (s.moved p call).HasValue i → _)
    rw [hiff]
    exact h.values i
  · change (s.moved p call).calls p' = _ at hp'
    rw [moved_calls] at hp'
    split at hp'
    · rw [hp'] at hnew
      cases hnew
    · exact h.linked p' i k head hp'

/-- `pool_refcount.fetch_sub`: who gives up the last reference tears the pool down. -/
theorem InvAt.releases (hp : s.calls p = .release) :
    ({ s with pool_refcount := s.pool_refcount - 1 }.moved p (if s.pool_refcount = 1 then .teardown else .returned)).InvAt
      c l place := by
  have hpos := h.refs_pos_call (p := p) (by rw [hp]; exact Nat.one_pos)
  have hno := h.no_teardown hpos
  have htorn : s.torn ≤ s.teardowns := by
    unfold teardowns
    omega
  refine h.call_ends (by rw [hp]; rfl) (by split <;> rfl) _ s.torn ?_ ?_
  · rw [hp]
    split <;> simp only [Call.refs] <;> omega
  · rw [hp]
    split <;> simp only [Call.tearing] <;> split <;> omega

theorem InvAt.tears_down (hp : s.calls p = .teardown) :
    ({ s with torn := s.torn + 1 }.moved p .returned).InvAt c l place := by
  have htear := le_sum Finset.univ Call.tearing s.calls (Finset.mem_univ p)
  have hpre := h.teardown
  have hsum : s.teardowns = s.torn + s.alloc.tearing + ∑ p, (s.calls p).tearing := rfl
  refine h.call_ends (by rw [hp]; rfl) rfl s.pool_refcount _ ?_ ?_
  · rw [hp]
    rfl
  · rw [hp]
    simp only [Call.tearing]
    omega

end

theorem InvAt.tears_down_pool (ha : s.alloc = .teardown) :
    ({ s with torn := s.torn + 1, alloc := .gone } : Pool ι).InvAt c l place := by
  refine ⟨h.chain, h.once, fun pl i => ?_, h.slots, h.fits, h.counted, ?_, ?_, fun _ => h.borrow (by rw [ha]; rfl), h.values,
    trivial, h.linked, h.frames⟩
  · rw [← h.held]
    cases pl with
    | alloc =>
      show i ∈ [] ↔ i ∈ s.alloc.slots c.chunk_size
      rw [ha]
      exact Iff.rfl
    | _ => exact Iff.rfl
  · have hpre := h.refcount
    rw [refs, ha] at hpre
    exact hpre
  · have hpre := h.teardown
    rw [teardowns, ha] at hpre
    exact hpre

theorem InvAt.drops_pool (ha : s.alloc = .idle) (hborrow : s.Unborrowed) :
    ({ s with pool_refcount := s.pool_refcount - 1, alloc := if s.pool_refcount = 1 then .teardown else .gone } : Pool ι).InvAt
      c l place := by
  have hpos := h.refs_pos (by rw [ha]; rfl)
  have hno := h.no_teardown hpos
  have hpre := h.refcount
  rw [teardowns, ha] at hno
  rw [refs, ha] at hpre
  refine ⟨h.chain, h.once, fun pl i => ?_, h.slots, h.fits, h.counted, ?_, ?_, fun _ => hborrow, h.values, ?_, h.linked, h.frames⟩
  · rw [← h.held]
    cases pl with
    | alloc =>
      show i ∈ (if s.pool_refcount = 1 then Alloc.teardown else Alloc.gone).slots c.chunk_size ↔ i ∈ s.alloc.slots c.chunk_size
      rw [ha]
      split <;> exact Iff.rfl
    | _ => exact Iff.rfl
  · show s.pool_refcount - 1 = (if (if s.pool_refcount = 1 then Alloc.teardown else Alloc.gone).running then 1 else 0) +
      ∑ i ∈ Finset.range (s.total c), owner_refs (s.owner i) + ∑ p, (s.calls p).refs
    change s.pool_refcount = 1 + _ + _ at hpre
    have hrun : (if s.pool_refcount = 1 then Alloc.teardown else Alloc.gone).running = false := by split <;> rfl
    rw [hrun]
    simp only [Bool.false_eq_true, if_false]
    omega
  · show s.torn + (if s.pool_refcount = 1 then Alloc.teardown else Alloc.gone).tearing + ∑ p, (s.calls p).tearing =
      if s.pool_refcount - 1 = 0 then 1 else 0
    split
    · rw [if_pos (by omega)]
      change s.torn + 1 + _ = 1
      omega
    · rw [if_neg (by omega)]
      exact hno
  · show Knows c _ l (if s.pool_refcount = 1 then Alloc.teardown else Alloc.gone)
    split <;> trivial

/-! ## Every step -/

theorem InvAt.stores {a : Place ι} (hat : s.Holds c l a slot) (hfree : a ≠ .free)
    (howned : a ≠ .owned) (hcas : ∀ p kind head, s.calls p ≠ .cas_head slot kind head) (value : Nat)
    (hk : (s.store slot value).Knows c l s.alloc) : (s.store slot value).InvAt c l place := by
  refine h.rewords (fun i hi => if_neg ?_) (fun i handles hi => if_neg ?_) (fun p i kind head hp => if_neg ?_) hk
  · rintro rfl
    exact hfree (h.only hat (b := .free) hi)
  · rintro rfl
    rw [h.unowned howned hat] at hi
    cases hi
  · rintro rfl
    exact hcas p kind head hp

theorem InvAt.not_cas (hat : s.Holds c l .alloc slot) (p : ι) (kind : Kind) (head : Nat) :
    s.calls p ≠ .cas_head slot kind head := by
  intro hp
  exact absurd (h.only hat (b := .transit p) ⟨kind, by rw [hp]; rfl⟩) nofun

theorem InvAt.alloc_steps (ok : Bool) : ∃ l' place', (s.alloc_step c ok).InvAt c l' place' := by
  have hk := h.knows
  -- a step that only moves the thread on
  have moves : ∀ pc : Alloc, pc.slots c.chunk_size = s.alloc.slots c.chunk_size → pc.running = s.alloc.running →
      pc.tearing = s.alloc.tearing → s.Knows c l pc → ∃ l' place', ({ s with alloc := pc } : Pool ι).InvAt c l' place' :=
    fun pc hs hr ht hk' => ⟨l, place, h.alloc_moves pc hs hr ht hk' h.frames⟩
  unfold alloc_step
  cases ha : s.alloc with
  | idle | popped _ | gone => exact ⟨l, place, h⟩
  | pop_load again =>
    rw [ha] at moves
    dsimp only
    split
    · cases again
      · exact moves .grow rfl rfl rfl trivial
      · exact moves .idle rfl rfl rfl trivial
    · obtain ⟨rest, hl⟩ := h.cons_of_head ‹_›
      exact moves _ rfl rfl rfl (show s.free_head ∈ l from hl ▸ mem_cons_self)
  | pop_link again head =>
    rw [ha] at moves hk
    exact moves _ rfl rfl rfl ⟨hk, rfl⟩
  | pop_cas again head next =>
    dsimp only
    split
    · rename_i hcond
      rw [← hcond.1] at ha ⊢
      exact h.pops ha
    · rw [ha] at moves
      exact moves _ rfl rfl rfl trivial
  | grow =>
    rw [ha] at moves
    dsimp only
    split
    · exact moves _ rfl rfl rfl trivial
    · exact moves _ rfl rfl rfl trivial
  | allocate | reserve =>
    rw [ha] at moves
    cases ok
    · exact moves (.pop_load true) rfl rfl rfl trivial
    · exact moves _ rfl rfl rfl trivial
  | recheck =>
    rw [ha] at moves
    dsimp only
    split
    · exact moves _ rfl rfl rfl trivial
    · exact moves _ rfl rfl rfl ⟨rfl, by omega⟩
  | install chunks =>
    rw [ha] at hk
    obtain ⟨rfl, hcap⟩ := hk
    let word : Nat → Nat := fun i => if s.chunks_allocated * c.chunk_size ≤ i ∧
      i < s.chunks_allocated * c.chunk_size + c.chunk_size then i + 1 else s.word i
    have hkeep : ∀ {a : Place ι} {i : Nat}, s.Holds c l a i → word i = s.word i := by
      intro a i hi
      have hlt : i < s.chunks_allocated * c.chunk_size := h.below hi
      exact if_neg (by omega)
    have hwords : ({ s with word := word } : Pool ι).InvAt c l place := by
      refine h.rewords (fun i hi => hkeep (a := .free) hi) (fun i handles hi => ?_) (fun p i kind head hp => ?_) ?_
      · exact hkeep (a := .owned) (show (s.owner i).isSome by rw [hi]; rfl)
      · exact hkeep (a := .transit p) ⟨kind, by rw [hp]; rfl⟩
      · rw [ha]
        exact ⟨rfl, hcap⟩
    exact ⟨l, place, hwords.alloc_moves (.publish s.chunks_allocated) (congrArg (Alloc.slots c.chunk_size) ha).symm
      (congrArg Alloc.running ha).symm (congrArg Alloc.tearing ha).symm ⟨rfl, hcap, fun i hi hi' => if_pos ⟨hi, hi'⟩⟩ h.frames⟩
  | publish chunks =>
    rw [ha] at hk
    dsimp only
    have hsize := c.nonempty
    split
    · refine ⟨l, h.publishes ha rfl rfl rfl ⟨‹_›, fun i hi hi' => hk.2.2 i hi (by omega)⟩⟩
    · refine ⟨l, h.publishes ha ?_ rfl rfl trivial⟩
      rw [show c.chunk_size = 1 by omega]
      rfl
  | splice_load base =>
    rw [ha] at moves hk
    exact moves _ rfl rfl rfl hk
  | splice_link base head =>
    rw [ha] at hk
    obtain ⟨hsize, hword⟩ := hk
    have hat : s.Holds c l .alloc (base + c.chunk_size - 1) := by
      show _ ∈ s.alloc.slots c.chunk_size
      rw [ha]
      exact mem_range'_1.mpr (by omega)
    have hkeep : ∀ i, base ≤ i → i + 1 < base + c.chunk_size → (s.store (base + c.chunk_size - 1) head).word i = i + 1 :=
      fun i hi hi' => (if_neg (by omega)).trans (hword i hi hi')
    have hstored := h.stores hat nofun nofun (h.not_cas hat) head (by rw [ha]; exact ⟨hsize, hkeep⟩)
    exact ⟨l, place, hstored.alloc_moves (.splice_cas base head) (congrArg (Alloc.slots c.chunk_size) ha).symm
      (congrArg Alloc.running ha).symm (congrArg Alloc.tearing ha).symm ⟨hsize, hkeep, if_pos rfl⟩ h.frames⟩
  | splice_cas base head =>
    dsimp only
    split
    · rename_i hcond
      rw [← hcond.1] at ha
      exact h.splices ha
    · rw [ha] at moves hk
      exact moves _ rfl rfl rfl ⟨hk.1, hk.2.1⟩
  | marked slot =>
    rw [ha] at hk
    exact ⟨l, h.occupies (by rw [ha]; rfl) (by rw [ha]; rfl) .arc fun _ => hk⟩
  | teardown => exact ⟨l, place, h.tears_down_pool ha⟩

theorem InvAt.occupy (ha : s.alloc = .popped slot) (kind : Kind) :
    ∃ l' place', (s.occupy slot kind).InvAt c l' place' := by
  have hslots : s.alloc.slots c.chunk_size = [slot] := by
    rw [ha]
    rfl
  have hrun : s.alloc.running = true := by
    rw [ha]
    rfl
  cases kind with
  | box => exact ⟨l, h.occupies hslots hrun .box nofun⟩
  | alloc => exact ⟨l, h.occupies hslots hrun .alloc nofun⟩
  | arc =>
    have hat : s.Holds c l .alloc slot := by
      show slot ∈ s.alloc.slots c.chunk_size
      rw [hslots]
      exact mem_singleton.mpr rfl
    have hstored := h.stores hat nofun nofun (h.not_cas hat) 1 (by rw [ha]; trivial)
    exact ⟨l, place, hstored.alloc_moves (.marked slot) (congrArg (Alloc.slots c.chunk_size) ha).symm
      (congrArg Alloc.running ha).symm (congrArg Alloc.tearing ha).symm (if_pos rfl) h.frames⟩

section
variable [DecidableEq ι]

theorem InvAt.drop_handle {p : ι} (hp : s.calls p = .returned) {slot : Nat} {o : Owner}
    (ho : s.owner slot = some o) : ∃ l' place', (s.drop_handle p slot o).InvAt c l' place' := by
  obtain ⟨kind, handles⟩ := o
  have hlast := h.last_dropped hp ho
  cases kind with
  | box | alloc => exact ⟨l, hlast⟩
  | arc =>
    obtain ⟨hword, hpos⟩ := h.counted slot handles ho
    unfold Pool.drop_handle
    dsimp only
    split
    · refine ⟨l, place, ?_⟩
      rw [hword]
      exact h.recounts ho (by omega)
    · obtain ⟨place', hinv⟩ := hlast
      have hat : ((s.owned slot none).moved p (.drop_value slot .arc)).Holds c l (.transit p) slot :=
        ⟨.arc, by rw [moved_calls, if_pos rfl]; rfl⟩
      refine ⟨l, place', hinv.stores hat nofun nofun ?_ _ (hinv.knows_store hat nofun nofun _)⟩
      intro p' kind head hp'
      rw [moved_calls] at hp'
      split at hp'
      · cases hp'
      · exact absurd (h.only (a := .owned) (b := .transit p') (show (s.owner slot).isSome by rw [ho]; rfl)
          ⟨kind, by rw [show s.calls p' = _ from hp']; rfl⟩) nofun

theorem InvAt.call_steps (p : ι) (ok : Bool) : ∃ l' place', (s.call_step p ok).InvAt c l' place' := by
  unfold call_step
  cases hp : s.calls p with
  | returned => exact ⟨l, place, h⟩
  | drop_value slot kind => exact ⟨l, place, h.drops_value hp⟩
  | load_head slot kind =>
    refine ⟨l, place, h.call_moves (by rw [hp]; rfl) (by rw [hp]; rfl) (by rw [hp]; rfl) ?_ nofun nofun⟩
    rw [hp]
    exact nofun
  | store_link slot kind head =>
    have hat : s.Holds c l (.transit p) slot := ⟨kind, by rw [hp]; rfl⟩
    have hstored : (s.store slot head).InvAt c l place := by
      refine h.stores hat nofun nofun ?_ head (h.knows_store hat nofun nofun head)
      intro p' k head' hp'
      have heq := h.only hat (b := .transit p') ⟨k, by rw [hp']; rfl⟩
      cases heq
      cases hp.symm.trans hp'
    · refine ⟨l, place, hstored.call_moves ?_ ?_ ?_ ?_ nofun ?_⟩
      · exact (congrArg Call.transit hp).symm
      · exact (congrArg Call.refs hp).symm
      · exact (congrArg Call.tearing hp).symm
      · intro i k he
        cases (show s.calls p = _ from he).symm.trans hp
      · intro slot' k head' he
        cases he
        exact if_pos rfl
  | cas_head slot kind head =>
    dsimp only
    split
    · rename_i hcond
      rw [← hcond.1] at hp
      exact ⟨slot :: l, h.pushes hp⟩
    · refine ⟨l, place, h.call_moves (by rw [hp]; rfl) (by rw [hp]; rfl) (by rw [hp]; rfl) ?_ nofun nofun⟩
      rw [hp]
      exact nofun
  | release => exact ⟨l, place, h.releases hp⟩
  | teardown => exact ⟨l, place, h.tears_down hp⟩

omit h

theorem inv_of_reachable (h : (system c ι).Reachable s) : ∃ l place, s.InvAt c l place := by
  refine Lts.Reachable.inv (L := system c ι) (fun s => ∃ l place, s.InvAt c l place) ?_ ?_ h
  · rintro s ⟨hhead, hchunks, hrefs, halloc, hframes, howner, hcalls, hwritten, hdropped, htorn⟩
    have htotal : s.total c = 0 := by unfold total; rw [hchunks, Nat.zero_mul]
    have hsum : ∀ f : Call → Nat, f .returned = 0 → ∑ p, f (s.calls p) = 0 := by
      intro f hf
      apply Finset.sum_eq_zero
      intro p _
      rw [hcalls, hf]
    refine ⟨[], fun _ => none, hhead, nodup_nil, fun pl i => ?_, fun i => ?_, ?_, fun i k hi => ?_, ?_, ?_, fun hr => ?_,
      fun i => ?_, ?_, fun p i k head hp => ?_, ?_⟩
    · refine ⟨fun hi => ?_, nofun⟩
      cases pl with
      | owned =>
        change (s.owner i).isSome at hi
        rw [howner] at hi
        cases hi
      | free => cases hi
      | transit p =>
        obtain ⟨kind, hk⟩ := hi
        rw [hcalls] at hk
        cases hk
      | alloc =>
        change i ∈ s.alloc.slots c.chunk_size at hi
        rw [halloc] at hi
        cases hi
    · rw [htotal]
      exact ⟨fun hx => absurd rfl hx, nofun⟩
    · rw [hchunks]
      exact Nat.zero_le _
    · rw [howner] at hi
      cases hi
    · unfold refs
      rw [htotal, halloc, hsum _ rfl, hrefs]
      rfl
    · unfold teardowns
      rw [htorn, halloc, hsum _ rfl, hrefs]
      rfl
    · rw [halloc] at hr
      cases hr
    · refine ⟨fun hx => ?_, fun _ => by rw [hwritten, hdropped]⟩
      rcases hx with hsome | ⟨p, kind, hp⟩
      · rw [howner] at hsome
        cases hsome
      · rw [hcalls] at hp
        cases hp
    · rw [halloc]
      trivial
    · rw [hcalls] at hp
      cases hp
    · rw [hframes]
      exact nofun
  · rintro s a s' - ⟨l, place, hinv⟩ hstep
    cases a with
    | alloc_slot =>
      obtain ⟨ha, rfl⟩ := hstep
      exact ⟨l, place, hinv.alloc_moves (.pop_load false) (by rw [ha]; rfl) (by rw [ha]; rfl) (by rw [ha]; rfl) trivial
        hinv.frames⟩
    | alloc ok =>
      obtain ⟨-, -, rfl⟩ := hstep
      exact hinv.alloc_steps ok
    | occupy kind =>
      obtain ⟨slot, ha, rfl⟩ := hstep
      exact hinv.occupy ha kind
    | enter =>
      obtain ⟨ha, rfl⟩ := hstep
      refine ⟨l, place, hinv.alloc_moves .idle ?_ ?_ ?_ trivial ?_⟩
      · rcases ha with ha | ha <;> exact (congrArg (slots c.chunk_size) ha).symm
      · rcases ha with ha | ha <;> exact (congrArg running ha).symm
      · rcases ha with ha | ha <;> exact (congrArg tearing ha).symm
      · intro pc hpc
        rcases mem_cons.mp hpc with rfl | hpc
        · exact ha
        · exact hinv.frames pc hpc
    | leave =>
      obtain ⟨pc, rest, ha, hs, rfl⟩ := hstep
      have hpc : pc = .allocate ∨ pc = .reserve := hinv.frames pc (by rw [hs]; exact mem_cons_self)
      have hrest : ∀ pc' ∈ rest, pc' = .allocate ∨ pc' = .reserve := fun pc' hpc' =>
        hinv.frames pc' (by rw [hs]; exact mem_cons_of_mem _ hpc')
      rcases hpc with rfl | rfl
      · exact ⟨l, place, hinv.alloc_moves .allocate (by rw [ha]; rfl) (by rw [ha]; rfl) (by rw [ha]; rfl) trivial hrest⟩
      · exact ⟨l, place, hinv.alloc_moves .reserve (by rw [ha]; rfl) (by rw [ha]; rfl) (by rw [ha]; rfl) trivial hrest⟩
    | drop_pool =>
      obtain ⟨ha, -, hborrow, rfl⟩ := hstep
      exact ⟨l, place, hinv.drops_pool ha hborrow⟩
    | clone slot =>
      obtain ⟨handles, ho, -, rfl⟩ := hstep
      rw [(hinv.counted slot handles ho).1]
      exact ⟨l, place, hinv.recounts ho (Nat.succ_pos _)⟩
    | drop p slot =>
      obtain ⟨o, ho, hp, rfl⟩ := hstep
      exact hinv.drop_handle hp ho
    | call p ok =>
      obtain ⟨-, rfl⟩ := hstep
      exact hinv.call_steps p ok

/-! ## The pool -/

omit [DecidableEq ι] in
/-- Without references nobody is left: no allocation, no call before its teardown, and no `Pool`. -/
theorem InvAt.unreferenced (h : s.InvAt c l place) (hzero : s.pool_refcount = 0) :
    s.alloc.running = false ∧ (∀ i, s.owner i = none) ∧ ∀ p, s.calls p = .returned ∨ s.calls p = .teardown := by
  have hrefs := h.refcount
  rw [hzero, refs] at hrefs
  have hrun : s.alloc.running = false := by
    by_contra hne
    rw [Bool.not_eq_false] at hne
    rw [hne, if_pos rfl] at hrefs
    omega
  obtain ⟨hown, hcalls⟩ := h.borrow hrun
  refine ⟨hrun, fun i => ?_, fun p => ?_⟩
  · cases ho : s.owner i with
    | none => rfl
    | some o =>
      have hlt : i < s.total c := h.below (a := .owned) (show (s.owner i).isSome by rw [ho]; rfl)
      have hle := le_sum (Finset.range (s.total c)) owner_refs s.owner (Finset.mem_range.mpr hlt)
      rw [ho] at hle
      change o.kind.refs ≤ _ at hle
      have hkind := hown i o ho
      cases hk : o.kind with
      | alloc => exact absurd hk hkind
      | box | arc =>
        rw [hk] at hle
        change 1 ≤ _ at hle
        omega
  · have hle := le_sum Finset.univ Call.refs s.calls (Finset.mem_univ p)
    have hfree : ∀ slot kind, (s.calls p).transit = some (slot, kind) → (s.calls p).refs = kind.refs → False := by
      intro slot kind ht hr
      rw [hr] at hle
      cases kind with
      | alloc => exact hcalls p slot ht
      | box | arc =>
        change 1 ≤ _ at hle
        omega
    cases hp : s.calls p with
    | returned => exact .inl rfl
    | teardown => exact .inr rfl
    | release =>
      rw [hp] at hle
      change 1 ≤ _ at hle
      omega
    | drop_value slot kind | load_head slot kind | store_link slot kind _ | cas_head slot kind _ =>
      rw [hp] at hfree
      exact (hfree slot kind rfl rfl).elim

/-- Every slot is in one place, the free list is a list, values are dropped once, and the pool is torn down once:
when its handles are gone, and with no step left that could reach it. -/
theorem pool_safe (h : (system c ι).Reachable s) :
    (∃ l : List Nat, Links s.word s.free_head l ∧ l.Nodup ∧ (∀ i, i < s.total c → ∃! place, s.Holds c l place i) ∧
      ∀ place i, s.Holds c l place i → i < s.total c) ∧
    (∀ i, (s.HasValue i → s.written i = s.dropped i + 1) ∧ (¬ s.HasValue i → s.written i = s.dropped i)) ∧
    s.torn ≤ 1 ∧
    (s.torn = 1 → s.alloc = .gone ∧ (∀ i, s.owner i = none) ∧ (∀ p, s.calls p = .returned) ∧
      ∀ a s', ¬ (system c ι).step s a s') ∧
    (s.alloc = .gone → (∀ i, s.owner i = none) → (∀ p, s.calls p = .returned) → s.torn = 1) := by
  obtain ⟨l, place, hinv⟩ := inv_of_reachable h
  have hdown := hinv.teardown
  have hsum : s.teardowns = s.torn + s.alloc.tearing + ∑ p, (s.calls p).tearing := rfl
  refine ⟨⟨l, hinv.chain, hinv.once, fun i hi => ?_, fun a i hi => hinv.below hi⟩, hinv.values, ?_, fun htorn => ?_,
    fun halloc howner hcalls => ?_⟩
  · obtain ⟨a, ha⟩ := Option.ne_none_iff_exists'.mp ((hinv.slots i).mpr hi)
    have hat := (hinv.held a i).mpr ha
    exact ⟨a, hat, fun b hb => hinv.only hb hat⟩
  · rw [hsum] at hdown
    split at hdown <;> omega
  · have hzero : s.pool_refcount = 0 := by
      by_contra hne
      rw [if_neg hne] at hdown
      omega
    rw [if_pos hzero] at hdown
    obtain ⟨hrun, howner, hcalls⟩ := hinv.unreferenced hzero
    have halloc : s.alloc = .gone := by
      cases ha : s.alloc with
      | gone => rfl
      | teardown =>
        rw [ha] at hsum
        change _ = _ + 1 + _ at hsum
        omega
      | _ =>
        rw [ha] at hrun
        cases hrun
    have hreturned : ∀ p, s.calls p = .returned := by
      intro p
      refine (hcalls p).resolve_right fun hp => ?_
      have hle := le_sum Finset.univ Call.tearing s.calls (Finset.mem_univ p)
      rw [hp] at hle
      change 1 ≤ _ at hle
      omega
    refine ⟨halloc, howner, hreturned, fun a s' hstep => ?_⟩
    -- every action needs a handle, a running call or the `Pool`
    cases a with
    | alloc_slot | drop_pool => cases halloc.symm.trans hstep.1
    | alloc ok => exact hstep.1 (by rw [halloc]; simp)
    | occupy kind =>
      obtain ⟨slot, ha, -⟩ := hstep
      cases halloc.symm.trans ha
    | enter => exact hstep.1.elim (fun ha => by cases halloc.symm.trans ha) fun ha => by cases halloc.symm.trans ha
    | leave =>
      obtain ⟨pc, rest, ha, -⟩ := hstep
      cases halloc.symm.trans ha
    | clone slot =>
      obtain ⟨handles, ho, -⟩ := hstep
      cases (howner slot).symm.trans ho
    | drop p slot =>
      obtain ⟨o, ho, -⟩ := hstep
      cases (howner slot).symm.trans ho
    | call p ok => exact hstep.1 (hreturned p)
  · have hcall : ∀ f : Call → Nat, f .returned = 0 → ∑ p, f (s.calls p) = 0 := by
      intro f hf
      apply Finset.sum_eq_zero
      intro p _
      rw [hcalls, hf]
    have hrefs := hinv.refcount
    have howners : ∑ i ∈ Finset.range (s.total c), owner_refs (s.owner i) = 0 := by
      apply Finset.sum_eq_zero
      intro i _
      rw [howner]
      rfl
    rw [refs, halloc, howners, hcall _ rfl] at hrefs
    change s.pool_refcount = 0 at hrefs
    rw [hsum, halloc, hcall _ rfl, if_pos hrefs] at hdown
    exact hdown

end

omit h

/-- A pool of one slot, before anything is allocated. -/
def fresh : Pool Unit :=
  ⟨FREE_END, fun _ => 0, 0, 1, .idle, [], fun _ => none, fun _ => .returned, fun _ => 0, fun _ => 0, 0⟩

def one_slot : Config := ⟨1, some 1, Nat.le_refl 1, by rintro max ⟨⟩; decide⟩

/-- A `Box` is allocated and outlives its `Pool`; its drop tears the pool down, and nothing can follow. -/
theorem pool_safe_box : ∃ s : Pool Unit, (system one_slot Unit).Reachable s ∧ s.written 0 = 1 ∧ s.dropped 0 = 1 ∧ s.torn = 1 ∧
    ∀ a s', ¬ (system one_slot Unit).step s a s' := by
  have grows : ∀ s : Pool Unit, (system one_slot Unit).Reachable s → s.alloc ∉ [idle, gone] →
      (∀ slot, s.alloc ≠ .popped slot) → (system one_slot Unit).Reachable (s.alloc_step one_slot true) := fun s h h1 h2 =>
    h.step (show (system one_slot Unit).step s (.alloc true) _ from ⟨h1, h2, rfl⟩)
  have calls : ∀ s : Pool Unit, (system one_slot Unit).Reachable s → s.calls () ≠ .returned →
      (system one_slot Unit).Reachable (s.call_step () true) := fun s h h1 =>
    h.step (show (system one_slot Unit).step s (.call () true) _ from ⟨h1, rfl⟩)
  have h0 : (system one_slot Unit).Reachable fresh :=
    ⟨[], .init ⟨rfl, rfl, rfl, rfl, rfl, fun _ => rfl, fun _ => rfl, fun _ => rfl, fun _ => rfl, rfl⟩⟩
  have h1 := h0.step (show (system one_slot Unit).step fresh .alloc_slot _ from ⟨rfl, rfl⟩)
  -- the list is empty, so the pool grows by its one chunk
  have h2 := grows _ (grows _ (grows _ (grows _ (grows _ (grows _ (grows _ h1 (by decide) nofun) (by decide) nofun)
    (by decide) nofun) (by decide) nofun) (by decide) nofun) (by decide) nofun) (by decide) nofun
  have h3 := h2.step (show (system one_slot Unit).step _ (.occupy .box) _ from ⟨0, rfl, rfl⟩)
  have h4 := h3.step (show (system one_slot Unit).step _ .drop_pool _ from ⟨rfl, rfl, ⟨fun i o ho => ?_, nofun⟩, rfl⟩)
  · have h5 := h4.step (show (system one_slot Unit).step _ (.drop () 0) _ from ⟨_, rfl, rfl, rfl⟩)
    have h6 := calls _ (calls _ (calls _ (calls _ (calls _ (calls _ h5 nofun) nofun) nofun) nofun) nofun) nofun
    obtain ⟨-, -, -, hend, -⟩ := pool_safe h6
    exact ⟨_, h6, rfl, rfl, rfl, (hend rfl).2.2.2⟩
  · change (if i = 0 then some (Owner.mk .box 1) else none) = some o at ho
    split at ho
    · cases ho
      exact nofun
    · cases ho

end Pool

end Plurality
