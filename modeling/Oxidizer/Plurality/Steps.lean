import Oxidizer.Plurality.Slots
/-!
# Every step keeps the slots in their places

First what a step leaves alone: the allocating thread or a call moves on with
the slots it has, or words are written that nobody reads. Then the steps that
carry a slot to another place, and those that change a count.
-/

namespace Plurality

open Lib List

namespace Pool
variable {ι : Type} [Fintype ι] {c : Config} {s : Pool ι} {l : List Nat} {place : Nat → Option (Place ι)}

/-! ## What the invariant says -/

variable (h : s.InvAt c l place)
include h

variable {a : Place ι} {i : Nat}

theorem InvAt.place_of (hi : s.Holds c l a i) : place i = some a :=
  (h.held a i).mp hi

theorem InvAt.only {b : Place ι} (ha : s.Holds c l a i) (hb : s.Holds c l b i) : a = b :=
  Option.some.inj ((h.place_of ha).symm.trans (h.place_of hb))

theorem InvAt.below (hi : s.Holds c l a i) : i < s.total c :=
  (h.slots i).mp (by rw [h.place_of hi]; exact Option.some_ne_none a)

theorem InvAt.unowned (ha : a ≠ .owned) (hi : s.Holds c l a i) :
    s.owner i = none := by
  by_contra hne
  exact ha (h.only hi (b := .owned) (Option.isSome_iff_ne_none.mpr hne))

theorem InvAt.cons_of_head (hne : s.free_head ≠ FREE_END) : ∃ rest, l = s.free_head :: rest := by
  cases l with
  | nil => exact absurd h.chain hne
  | cons slot rest => exact ⟨rest, by rw [h.chain.1]⟩

theorem InvAt.refs_pos (hrun : s.alloc.running = true) : 0 < s.pool_refcount := by
  rw [h.refcount, refs, hrun, if_pos rfl]
  omega

theorem InvAt.refs_pos_call {p : ι} (hp : 0 < (s.calls p).refs) : 0 < s.pool_refcount := by
  have := le_sum Finset.univ Call.refs s.calls (Finset.mem_univ p)
  rw [h.refcount, refs]
  omega

theorem InvAt.no_teardown (hpos : 0 < s.pool_refcount) : s.teardowns = 0 := by
  rw [h.teardown, if_neg (by omega)]

/-! ## What a step leaves alone -/

theorem InvAt.alloc_moves (pc : Alloc) (hslots : pc.slots c.chunk_size = s.alloc.slots c.chunk_size)
    (hrun : pc.running = s.alloc.running) (htear : pc.tearing = s.alloc.tearing) (hk : s.Knows c l pc) {frames : List Alloc}
    (hf : ∀ pc ∈ frames, pc = .allocate ∨ pc = .reserve) :
    ({ s with alloc := pc, suspended := frames } : Pool ι).InvAt c l place := by
  refine ⟨h.chain, h.once, fun pl i => ?_, h.slots, h.fits, h.counted, ?_, ?_, ?_, h.values, hk, h.linked, hf⟩
  · rw [← h.held]
    cases pl with
    | alloc =>
      show i ∈ pc.slots c.chunk_size ↔ i ∈ s.alloc.slots c.chunk_size
      rw [hslots]
    | _ => exact Iff.rfl
  · show s.pool_refcount = (if pc.running then 1 else 0) + _ + _
    rw [hrun]
    exact h.refcount
  · show s.torn + pc.tearing + _ = _
    rw [htear]
    exact h.teardown
  · show pc.running = false → _
    rw [hrun]
    exact h.borrow

theorem InvAt.rewords {word : Nat → Nat} (hl : ∀ i ∈ l, word i = s.word i)
    (hcount : ∀ i handles, s.owner i = some ⟨.arc, handles⟩ → word i = s.word i)
    (hcas : ∀ p i kind head, s.calls p = .cas_head i kind head → word i = s.word i)
    (hk : ({ s with word := word } : Pool ι).Knows c l s.alloc) : ({ s with word := word } : Pool ι).InvAt c l place := by
  refine ⟨h.chain.congr hl, h.once, fun pl i => ?_, h.slots, h.fits, fun i handles hi => ?_, h.refcount, h.teardown, h.borrow,
    h.values, hk, fun p i kind head hp => ?_, h.frames⟩
  · rw [← h.held]
    cases pl <;> exact Iff.rfl
  · show word i = handles ∧ _
    rw [hcount i handles hi]
    exact h.counted i handles hi
  · show word i = head
    rw [hcas p i kind head hp]
    exact h.linked p i kind head hp

section
variable [DecidableEq ι]

omit [Fintype ι] h in
theorem moved_calls (s : Pool ι) (p : ι) (call : Call) (p' : ι) :
    (s.moved p call).calls p' = if p' = p then call else s.calls p' := rfl

omit h in
theorem sum_moved (s : Pool ι) (f : Call → Nat) (p : ι) (call : Call) :
    ∑ p', f ((s.moved p call).calls p') + f (s.calls p) = ∑ p', f (s.calls p') + f call :=
  sum_set Finset.univ f s.calls (Finset.mem_univ p) call

omit h in
theorem refs_moved (c : Config) (s : Pool ι) (p : ι) (call : Call) :
    (s.moved p call).refs c + (s.calls p).refs = s.refs c + call.refs := by
  have hsum := sum_moved s Call.refs p call
  show (if s.alloc.running then 1 else 0) + ∑ i ∈ Finset.range (s.total c), owner_refs (s.owner i) +
    ∑ p', ((s.moved p call).calls p').refs + _ = _
  unfold refs
  omega

omit h in
theorem teardowns_moved (s : Pool ι) (p : ι) (call : Call) :
    (s.moved p call).teardowns + (s.calls p).tearing = s.teardowns + call.tearing := by
  have hsum := sum_moved s Call.tearing p call
  show s.torn + s.alloc.tearing + ∑ p', ((s.moved p call).calls p').tearing + _ = _
  unfold teardowns
  omega

omit [Fintype ι] h in
theorem hasValue_moved {p : ι} {call : Call} (hold : ∀ i kind, s.calls p ≠ .drop_value i kind)
    (hnew : ∀ i kind, call ≠ .drop_value i kind) (i : Nat) : (s.moved p call).HasValue i ↔ s.HasValue i := by
  refine or_congr Iff.rfl ⟨?_, ?_⟩
  · rintro ⟨p', kind, hp'⟩
    rw [moved_calls] at hp'
    split at hp'
    · exact absurd hp' (hnew i kind)
    · exact ⟨p', kind, hp'⟩
  · rintro ⟨p', kind, hp'⟩
    refine ⟨p', kind, ?_⟩
    rw [moved_calls, if_neg]
    · exact hp'
    · rintro rfl
      exact hold i kind hp'

theorem InvAt.call_moves {p : ι} {call : Call} (htransit : call.transit = (s.calls p).transit)
    (hrefs : call.refs = (s.calls p).refs) (htear : call.tearing = (s.calls p).tearing)
    (hold : ∀ i kind, s.calls p ≠ .drop_value i kind) (hnew : ∀ i kind, call ≠ .drop_value i kind)
    (hlink : ∀ slot kind head, call = .cas_head slot kind head → s.word slot = head) :
    (s.moved p call).InvAt c l place := by
  have htr : ∀ p', ((s.moved p call).calls p').transit = (s.calls p').transit := by
    intro p'
    rw [moved_calls]
    split
    · rename_i hp
      rw [htransit, hp]
    · rfl
  refine ⟨h.chain, h.once, fun pl i => ?_, h.slots, h.fits, h.counted, ?_, ?_, fun hrun => ?_, fun i => ?_, h.knows,
    fun p' slot kind head hp' => ?_, h.frames⟩
  · rw [← h.held]
    cases pl with
    | transit p' =>
      show (∃ kind, ((s.moved p call).calls p').transit = some (i, kind)) ↔ _
      rw [htr]
      rfl
    | _ => exact Iff.rfl
  · have hsum := refs_moved c s p call
    rw [hrefs] at hsum
    exact h.refcount.trans (Nat.add_right_cancel hsum).symm
  · have hsum := teardowns_moved s p call
    rw [htear] at hsum
    exact (Nat.add_right_cancel hsum).trans h.teardown
  · obtain ⟨hown, hcall⟩ := h.borrow hrun
    refine ⟨hown, fun p' slot => ?_⟩
    rw [htr]
    exact hcall p' slot
  · rw [hasValue_moved hold hnew]
    exact h.values i
  · rw [moved_calls] at hp'
    split at hp'
    · exact hlink slot kind head hp'
    · exact h.linked p' slot kind head hp'

end

/-! ## A slot goes to another place -/

/-- The exchange of `pop_free` goes through: the head is still the one whose link was read. -/
theorem InvAt.pops {again : Bool} {next : Nat} (ha : s.alloc = .pop_cas again s.free_head next) :
    ∃ l' place', ({ s with free_head := next, alloc := .popped s.free_head } : Pool ι).InvAt c l' place' := by
  have hk := h.knows
  rw [ha] at hk
  obtain ⟨hmem, hnext⟩ := hk
  cases l with
  | nil => cases hmem
  | cons slot rest =>
    obtain ⟨hhead, hrest⟩ := h.chain
    rw [hhead] at hnext ⊢
    have hfree : place slot = some .free := h.place_of (a := .free) mem_cons_self
    have hnodup := nodup_cons.mp h.once
    have hrefs := h.refcount
    rw [refs, ha] at hrefs
    have htear := h.teardown
    rw [teardowns, ha] at htear
    refine ⟨rest, fun i => if i = slot then some .alloc else place i, ?_⟩
    refine ⟨hnext ▸ hrest, hnodup.2, ?_, relocate_slots h.slots hfree, h.fits, h.counted, hrefs, htear, nofun, h.values,
      trivial, h.linked, h.frames⟩
    · refine relocate h.held hfree (mem_singleton.mpr rfl) (fun pl hpl hi => ?_) fun i hi pl => ?_
      · cases pl with
        | owned | transit p => exact ⟨nofun, hi⟩
        | free => exact absurd hi hnodup.1
        | alloc => exact absurd rfl hpl
      · cases pl with
        | owned | transit p => exact Iff.rfl
        | free =>
          show i ∈ rest ↔ i ∈ slot :: rest
          rw [mem_cons]
          exact ⟨.inr, fun h => h.resolve_left hi⟩
        | alloc =>
          show i ∈ [slot] ↔ i ∈ s.alloc.slots c.chunk_size
          rw [ha, mem_singleton]
          exact ⟨fun h => absurd h hi, nofun⟩

/-- `chunks_allocated.store`: the slots of the new chunk are the allocating thread's. -/
theorem InvAt.publishes {chunks : Nat} (ha : s.alloc = .publish chunks) {pc : Alloc}
    (hpc : pc.slots c.chunk_size = List.range' (chunks * c.chunk_size) c.chunk_size) (hrun : pc.running = true)
    (htear : pc.tearing = 0) (hk : ({ s with chunks_allocated := chunks + 1, alloc := pc } : Pool ι).Knows c l pc) :
    ∃ place', ({ s with chunks_allocated := chunks + 1, alloc := pc } : Pool ι).InvAt c l place' := by
  have hknows := h.knows
  rw [ha] at hknows
  obtain ⟨rfl, hcap, -⟩ := hknows
  have htotal : ({ s with chunks_allocated := s.chunks_allocated + 1, alloc := pc } : Pool ι).total c =
      s.total c + c.chunk_size := Nat.succ_mul _ _
  -- the slots of the new chunk were nobody's
  have hnone : ∀ i, s.total c ≤ i → place i = none := by
    intro i hi
    by_contra hne
    exact absurd ((h.slots i).mp hne) (by omega)
  have hempty : ∀ pl i, s.total c ≤ i → ¬ s.Holds c l pl i := by
    intro pl i hi hpl
    rw [h.held, hnone i hi] at hpl
    cases hpl
  have hslots : ∀ i, i ∈ pc.slots c.chunk_size ↔ s.total c ≤ i ∧ i < s.total c + c.chunk_size := by
    intro i
    rw [hpc, mem_range'_1]
    rfl
  refine ⟨fun i => if s.total c ≤ i ∧ i < s.total c + c.chunk_size then some .alloc else place i, ?_⟩
  refine ⟨h.chain, h.once, fun pl i => ?_, fun i => ?_, Nat.succ_le_of_lt hcap, h.counted, ?_, ?_, fun hr => ?_, h.values, hk,
    h.linked, h.frames⟩
  · by_cases hi : s.total c ≤ i ∧ i < s.total c + c.chunk_size
    · rw [if_pos hi]
      cases pl with
      | alloc => exact ⟨fun _ => rfl, fun _ => (hslots i).mpr hi⟩
      | owned => exact ⟨fun hx => absurd hx (hempty .owned i hi.1), nofun⟩
      | free => exact ⟨fun hx => absurd hx (hempty .free i hi.1), nofun⟩
      | transit p => exact ⟨fun hx => absurd hx (hempty (.transit p) i hi.1), nofun⟩
    · rw [if_neg hi, ← h.held]
      cases pl with
      | alloc =>
        show i ∈ pc.slots c.chunk_size ↔ i ∈ s.alloc.slots c.chunk_size
        rw [hslots, ha]
        exact ⟨fun hx => absurd hx hi, nofun⟩
      | _ => exact Iff.rfl
  · rw [htotal]
    by_cases hi : s.total c ≤ i ∧ i < s.total c + c.chunk_size
    · rw [if_pos hi]
      simpa using hi.2
    · rw [if_neg hi, h.slots]
      omega
  · have hpre := h.refcount
    rw [refs, ha] at hpre
    have hsum : ∑ i ∈ Finset.range (s.total c + c.chunk_size), owner_refs (s.owner i) =
        ∑ i ∈ Finset.range (s.total c), owner_refs (s.owner i) := by
      symm
      apply Finset.sum_subset (Finset.range_mono (Nat.le_add_right _ _))
      intro i _ hi
      have hge : s.total c ≤ i := by simpa using hi
      have : s.owner i = none := by simpa [Holds] using hempty .owned i hge
      rw [this]
      rfl
    rw [refs, htotal]
    rw [hsum, hrun]
    exact hpre
  · have hpre := h.teardown
    rw [teardowns, ha] at hpre
    show s.torn + pc.tearing + _ = _
    rw [htear]
    exact hpre
  · exact absurd (hrun.symm.trans hr) nofun

/-- The exchange of `splice_chain` goes through: all slots of the chunk but the first are free. -/
theorem InvAt.splices {base : Nat} (ha : s.alloc = .splice_cas base s.free_head) :
    ∃ l' place', ({ s with free_head := base + 1, alloc := .popped base } : Pool ι).InvAt c l' place' := by
  have hk := h.knows
  rw [ha] at hk
  obtain ⟨hsize, hword, hlast⟩ := hk
  obtain ⟨k, hk⟩ : ∃ k, c.chunk_size = k + 2 := ⟨c.chunk_size - 2, by omega⟩
  have hmine : ∀ i, s.Holds c l .alloc i ↔ base ≤ i ∧ i < base + c.chunk_size := by
    intro i
    show i ∈ s.alloc.slots c.chunk_size ↔ _
    rw [ha]
    exact mem_range'_1
  have hnew : ∀ i, i ∈ List.range' (base + 1) (k + 1) ↔ base < i ∧ i < base + c.chunk_size := by
    intro i
    rw [mem_range'_1]
    omega
  have hrefs := h.refcount
  rw [refs, ha] at hrefs
  have htear := h.teardown
  rw [teardowns, ha] at htear
  refine ⟨List.range' (base + 1) (k + 1) ++ l,
    fun i => if base < i ∧ i < base + c.chunk_size then some .free else place i, ?_⟩
  refine ⟨?_, ?_, fun pl i => ?_, fun i => ?_, h.fits, h.counted, hrefs, htear, nofun, h.values, trivial, h.linked, h.frames⟩
  · refine h.chain.range' (base + 1) k (fun i hi hi' => hword i (by omega) (by omega)) ?_
    rw [← hlast]
    congr 1
    omega
  · apply List.Nodup.append nodup_range' h.once
    intro i hi hl
    have := h.only (a := .alloc) (b := .free) ((hmine i).mpr (by have := (hnew i).mp hi; omega)) hl
    cases this
  · by_cases hi : base < i ∧ i < base + c.chunk_size
    · rw [if_pos hi]
      have hat : s.Holds c l .alloc i := (hmine i).mpr (by omega)
      cases pl with
      | owned => exact ⟨fun hx => absurd (h.only hat (b := .owned) hx) nofun, nofun⟩
      | free => exact ⟨fun _ => rfl, fun _ => mem_append_left _ ((hnew i).mpr hi)⟩
      | transit p => exact ⟨fun hx => absurd (h.only hat (b := .transit p) hx) nofun, nofun⟩
      | alloc =>
        refine ⟨fun hx => ?_, nofun⟩
        have : i = base := mem_singleton.mp hx
        omega
    · rw [if_neg hi, ← h.held]
      cases pl with
      | owned | transit p => exact Iff.rfl
      | free =>
        show i ∈ List.range' (base + 1) (k + 1) ++ l ↔ i ∈ l
        rw [mem_append, hnew]
        exact ⟨fun hx => hx.resolve_left hi, .inr⟩
      | alloc =>
        rw [hmine]
        show i ∈ [base] ↔ _
        rw [mem_singleton]
        omega
  · by_cases hi : base < i ∧ i < base + c.chunk_size
    · rw [if_pos hi]
      have := h.below (a := .alloc) ((hmine i).mpr (by omega))
      exact ⟨fun _ => this, fun _ => nofun⟩
    · rw [if_neg hi]
      exact h.slots i

omit [Fintype ι] h in
theorem owned_owner (s : Pool ι) (slot : Nat) (o : Option Owner) (i : Nat) :
    (s.owned slot o).owner i = if i = slot then o else s.owner i := rfl

omit [Fintype ι] h in
theorem sum_owned (c : Config) (s : Pool ι) {slot : Nat} (hslot : slot < s.total c) (o : Option Owner) :
    ∑ i ∈ Finset.range (s.total c), owner_refs ((s.owned slot o).owner i) + owner_refs (s.owner slot) =
      ∑ i ∈ Finset.range (s.total c), owner_refs (s.owner i) + owner_refs o :=
  sum_set (Finset.range (s.total c)) owner_refs s.owner (Finset.mem_range.mpr hslot) o

/-- The slot of the allocating thread becomes an allocation, with the references that its handles hold. -/
theorem InvAt.occupies {slot : Nat} (hslots : s.alloc.slots c.chunk_size = [slot])
    (hrun : s.alloc.running = true) (kind : Kind) (hcount : kind = .arc → s.word slot = 1) :
    ∃ place', ({ (s.owned slot (some ⟨kind, 1⟩)).write slot with
      pool_refcount := s.pool_refcount + kind.refs, alloc := .idle } : Pool ι).InvAt c l place' := by
  have hat : s.Holds c l .alloc slot := by
    show slot ∈ s.alloc.slots c.chunk_size
    rw [hslots]
    exact mem_singleton.mpr rfl
  have hnone := h.unowned (a := .alloc) nofun hat
  have hpos := h.refs_pos hrun
  have htear : s.alloc.tearing = 0 := by
    cases ha : s.alloc <;> first | rfl | (rw [ha] at hrun; cases hrun)
  refine ⟨fun i => if i = slot then some .owned else place i, ?_⟩
  refine ⟨h.chain, h.once, ?_, relocate_slots h.slots (h.place_of hat), h.fits, fun i handles hi => ?_, ?_, ?_, nofun,
    fun i => ?_, trivial, h.linked, h.frames⟩
  · refine relocate h.held (h.place_of hat) ?_ (fun pl hpl hi => ?_) fun i hi pl => ?_
    · show ((s.owned slot _).owner slot).isSome
      rw [owned_owner, if_pos rfl]
      rfl
    · cases pl with
      | owned => exact absurd rfl hpl
      | free | transit p => exact ⟨nofun, hi⟩
      | alloc => cases hi
    · cases pl with
      | owned =>
        show ((s.owned slot _).owner i).isSome ↔ _
        rw [owned_owner, if_neg hi]
        rfl
      | free | transit p => exact Iff.rfl
      | alloc =>
        show i ∈ [] ↔ i ∈ s.alloc.slots c.chunk_size
        rw [hslots, mem_singleton]
        exact ⟨nofun, fun h => absurd h hi⟩
  · change (s.owned slot _).owner i = _ at hi
    rw [owned_owner] at hi
    split at hi
    · rename_i he
      cases hi
      rw [he]
      exact ⟨hcount rfl, Nat.one_pos⟩
    · exact h.counted i handles hi
  · have hsum := sum_owned c s (h.below hat) (some ⟨kind, 1⟩)
    have hpre := h.refcount
    rw [hnone] at hsum
    rw [refs, hrun] at hpre
    show s.pool_refcount + kind.refs = 1 + ∑ i ∈ Finset.range (s.total c), owner_refs ((s.owned slot (some ⟨kind, 1⟩)).owner i) +
      ∑ p, (s.calls p).refs
    change _ + 0 = _ + kind.refs at hsum
    simp only [if_true] at hpre
    omega
  · have hpre := h.no_teardown hpos
    rw [teardowns, htear] at hpre
    show s.torn + 0 + _ = if s.pool_refcount + kind.refs = 0 then 1 else 0
    rw [if_neg (by omega)]
    exact hpre
  · have hval := h.values i
    by_cases hi : i = slot
    · subst hi
      have hno : ¬ s.HasValue i := by
        rintro (hsome | ⟨p, kind', hp⟩)
        · exact absurd (h.only hat (b := .owned) hsome) nofun
        · exact absurd (h.only hat (b := .transit p) ⟨kind', by rw [hp]; rfl⟩) nofun
      refine ⟨fun _ => ?_, fun hx => absurd (.inl ?_) hx⟩
      · show (if i = i then s.written i + 1 else s.written i) = s.dropped i + 1
        rw [if_pos rfl, hval.2 hno]
      · show ((s.owned i _).owner i).isSome
        rw [owned_owner, if_pos rfl]
        rfl
    · have hsame : s.HasValue i ↔ ({ (s.owned slot (some ⟨kind, 1⟩)).write slot with
          pool_refcount := s.pool_refcount + kind.refs, alloc := .idle } : Pool ι).HasValue i := by
        refine or_congr ?_ Iff.rfl
        show _ ↔ ((s.owned slot _).owner i).isSome
        rw [owned_owner, if_neg hi]
      rw [← hsame]
      show (_ → (if i = slot then s.written i + 1 else s.written i) = _) ∧ (_ → (if i = slot then s.written i + 1 else s.written i) = _)
      rw [if_neg hi]
      exact hval

section
variable [DecidableEq ι]

/-- The last handle of an allocation is dropped: its slot is in the call, with the value still in it. -/
theorem InvAt.last_dropped {p : ι} (hp : s.calls p = .returned) {slot : Nat} {o : Owner}
    (ho : s.owner slot = some o) : ∃ place', ((s.owned slot none).moved p (.drop_value slot o.kind)).InvAt c l place' := by
  have hat : s.Holds c l .owned slot := by
    show (s.owner slot).isSome
    rw [ho]
    rfl
  have hslot := h.below hat
  refine ⟨fun i => if i = slot then some (.transit p) else place i, ?_⟩
  refine ⟨h.chain, h.once, ?_, relocate_slots h.slots (h.place_of hat), h.fits, fun i handles hi => ?_, ?_, ?_, fun hr => ?_,
    fun i => ?_, h.knows, fun p' i kind head hp' => ?_, h.frames⟩
  · refine relocate h.held (h.place_of hat) ⟨o.kind, ?_⟩ (fun pl hpl hi => ?_) fun i hi pl => ?_
    · rw [moved_calls, if_pos rfl]
      rfl
    · cases pl with
      | owned =>
        change ((s.owned slot none).owner slot).isSome at hi
        rw [owned_owner, if_pos rfl] at hi
        cases hi
      | free | alloc => exact ⟨nofun, hi⟩
      | transit p' =>
        obtain ⟨kind, hk⟩ := hi
        rw [moved_calls, if_neg fun he => hpl (by rw [he])] at hk
        exact ⟨nofun, kind, hk⟩
    · cases pl with
      | owned =>
        show ((s.owned slot none).owner i).isSome ↔ _
        rw [owned_owner, if_neg hi]
        rfl
      | free | alloc => exact Iff.rfl
      | transit p' =>
        show (∃ kind, ((s.owned slot none).moved p _ |>.calls p').transit = some (i, kind)) ↔ _
        rw [moved_calls]
        split
        · rename_i he
          refine ⟨fun ⟨kind, hk⟩ => ?_, fun ⟨kind, hk⟩ => ?_⟩
          · cases hk
            exact absurd rfl hi
          · rw [he, hp] at hk
            cases hk
        · exact Iff.rfl
  · change (s.owned slot none).owner i = _ at hi
    rw [owned_owner] at hi
    split at hi
    · cases hi
    · exact h.counted i handles hi
  · have hmoved := refs_moved c (s.owned slot none) p (.drop_value slot o.kind)
    have hsum := sum_owned c s hslot none
    have hpre := h.refcount
    rw [show (s.owned slot none).calls p = .returned from hp] at hmoved
    rw [ho] at hsum
    change _ + o.kind.refs = _ + 0 at hsum
    change _ + 0 = _ + o.kind.refs at hmoved
    show s.pool_refcount = _
    rw [← Nat.add_zero (refs c _), hmoved, hpre]
    show refs c s = (if s.alloc.running then 1 else 0) +
      ∑ i ∈ Finset.range (s.total c), owner_refs ((s.owned slot none).owner i) + ∑ p, (s.calls p).refs + o.kind.refs
    unfold refs
    omega
  · have hmoved := teardowns_moved (s.owned slot none) p (.drop_value slot o.kind)
    rw [show (s.owned slot none).calls p = .returned from hp] at hmoved
    exact (Nat.add_right_cancel hmoved).trans h.teardown
  · obtain ⟨hown, hcall⟩ := h.borrow hr
    refine ⟨fun i o' hi => ?_, fun p' i => ?_⟩
    · change (s.owned slot none).owner i = _ at hi
      rw [owned_owner] at hi
      split at hi
      · cases hi
      · exact hown i o' hi
    · rw [moved_calls]
      split
      · intro hk
        exact hown slot o ho (Prod.mk.inj (Option.some.inj hk)).2
      · exact hcall p' i
  · have hiff : ((s.owned slot none).moved p (.drop_value slot o.kind)).HasValue i ↔ s.HasValue i := by
      by_cases hi : i = slot
      · subst hi
        refine ⟨fun _ => .inl hat, fun _ => .inr ⟨p, o.kind, ?_⟩⟩
        rw [moved_calls, if_pos rfl]
      · refine or_congr ?_ ⟨?_, ?_⟩
        · show ((s.owned slot none).owner i).isSome ↔ _
          rw [owned_owner, if_neg hi]
        · rintro ⟨p', kind, hp'⟩
          rw [moved_calls] at hp'
          split at hp'
          · cases hp'
            exact absurd rfl hi
          · exact ⟨p', kind, hp'⟩
        · rintro ⟨p', kind, hp'⟩
          refine ⟨p', kind, ?_⟩
          rw [moved_calls, if_neg]
          · exact hp'
          · rintro rfl
            rw [hp] at hp'
            cases hp'
    rw [hiff]
    exact h.values i
  · rw [moved_calls] at hp'
    split at hp'
    · cases hp'
    · exact h.linked p' i kind head hp'

/-- The exchange of a push goes through: the slot is the head of the list, and the call has its reference left. -/
theorem InvAt.pushes {p : ι} {slot : Nat} {kind : Kind}
    (hp : s.calls p = .cas_head slot kind s.free_head) :
    ∃ place', ({ s with free_head := slot }.moved p (if kind = Kind.alloc then .returned else .release)).InvAt c (slot :: l) place' := by
  generalize hcall : (if kind = Kind.alloc then Call.returned else Call.release) = call
  have htransit : call.transit = none := by
    rw [← hcall]
    split <;> rfl
  have hrefs : call.refs = kind.refs := by
    rw [← hcall]
    cases kind <;> rfl
  have htear : call.tearing = 0 := by
    rw [← hcall]
    split <;> rfl
  have hnew : ∀ i k, call ≠ .drop_value i k := by
    intro i k he
    rw [he] at htransit
    cases htransit
  have hat : s.Holds c l (.transit p) slot := ⟨kind, by rw [hp]; rfl⟩
  have hword : s.word slot = s.free_head := h.linked p slot kind s.free_head hp
  have hnot : slot ∉ l := fun hl => absurd (h.only hat (b := .free) hl) nofun
  refine ⟨fun i => if i = slot then some .free else place i, ?_⟩
  refine ⟨⟨rfl, hword ▸ h.chain⟩, nodup_cons.mpr ⟨hnot, h.once⟩, ?_, relocate_slots h.slots (h.place_of hat), h.fits,
    h.counted, ?_, ?_, fun hr => ?_, fun i => ?_, ?_, fun p' i k head hp' => ?_, h.frames⟩
  · refine relocate h.held (h.place_of hat) mem_cons_self (fun pl hpl hi => ?_) fun i hi pl => ?_
    · cases pl with
      | owned | alloc => exact ⟨nofun, hi⟩
      | free => exact absurd rfl hpl
      | transit p' =>
        obtain ⟨k, hk⟩ := hi
        rw [moved_calls] at hk
        split at hk
        · rw [htransit] at hk
          cases hk
        · rename_i hne
          exact ⟨fun he => hne (Place.transit.inj he), k, hk⟩
    · cases pl with
      | owned | alloc => exact Iff.rfl
      | free =>
        show i ∈ slot :: l ↔ i ∈ l
        rw [mem_cons]
        exact ⟨fun hx => hx.resolve_left hi, .inr⟩
      | transit p' =>
        show (∃ k, (({ s with free_head := slot }.moved p call).calls p').transit = some (i, k)) ↔ _
        rw [moved_calls]
        split
        · rename_i he
          refine ⟨fun ⟨k, hk⟩ => ?_, fun ⟨k, hk⟩ => ?_⟩
          · rw [htransit] at hk
            cases hk
          · rw [he, hp] at hk
            cases hk
            exact absurd rfl hi
        · exact Iff.rfl
  · have hmoved := refs_moved c { s with free_head := slot } p call
    rw [show ({ s with free_head := slot } : Pool ι).calls p = _ from hp, hrefs] at hmoved
    exact h.refcount.trans (Nat.add_right_cancel hmoved).symm
  · have hmoved := teardowns_moved { s with free_head := slot } p call
    rw [show ({ s with free_head := slot } : Pool ι).calls p = _ from hp, htear] at hmoved
    exact (Nat.add_right_cancel hmoved).trans h.teardown
  · obtain ⟨hown, hcalls⟩ := h.borrow hr
    refine ⟨hown, fun p' i => ?_⟩
    rw [moved_calls]
    split
    · rw [htransit]
      exact nofun
    · exact hcalls p' i
  · have hiff := hasValue_moved (s := { s with free_head := slot }) (p := p)
      (fun i k he => by rw [show ({ s with free_head := slot } : Pool ι).calls p = _ from hp] at he; cases he) hnew i
    rw [hiff]
    exact h.values i
  · -- the allocating thread's head is still on the list
    have hk := h.knows
    cases ha : s.alloc with
    | pop_link again head =>
      rw [ha] at hk
      exact mem_cons_of_mem _ hk
    | pop_cas again head next =>
      rw [ha] at hk
      exact ⟨mem_cons_of_mem _ hk.1, hk.2⟩
    | _ =>
      rw [ha] at hk
      exact hk
  · rw [moved_calls] at hp'
    split at hp'
    · rw [hp'] at htransit
      cases htransit
    · exact h.linked p' i k head hp'

end

end Pool

end Plurality
