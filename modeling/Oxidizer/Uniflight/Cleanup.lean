import Oxidizer.Uniflight.Flights
/-!
# What stays in the map

A call removes a dead entry of its key at the end of its body, and nowhere
else. A call that is dropped, or unwinds, never gets there: if it is the last
one on its key, its entry stays behind with a reference to a dead cell.
-/

namespace Uniflight

open Lib List World

variable {K T : Type} [DecidableEq K]

/-- Every entry is under a key with an outstanding call. -/
def World.Tidy (w : World K T) : Prop := ∀ key ∈ w.entries, w.outstanding key = true

/-- Another call on the key of call `i` is outstanding. -/
def World.Accompanied (w : World K T) (i : Nat) : Prop :=
  ∀ call, w.calls[i]? = some call →
    ∃ (j : Nat) (other : Call K T), j ≠ i ∧ w.calls[j]? = some other ∧ other.key = call.key ∧ other.stage.ended = false

/-- The `Arc` of a call that was dropped or unwinds goes only while another call on its key is outstanding. -/
def LeavesCompany (w : World K T) : Action K T → Prop
  | .release i => w.Accompanied i
  | _ => True

/-- The keys that outstanding calls are on, each once. -/
def World.live_keys (w : World K T) : List K :=
  ((w.calls.filter fun call => !call.stage.ended).map Call.key).dedup

variable {w : World K T} {key : K}

theorem World.mem_live_keys : key ∈ w.live_keys ↔ w.outstanding key = true := by
  unfold live_keys outstanding
  simp only [mem_dedup, mem_map, mem_filter, any_eq_true, Bool.and_eq_true, beq_iff_eq]
  constructor
  · rintro ⟨call, ⟨hm, he⟩, hk⟩
    exact ⟨call, hm, hk, he⟩
  · rintro ⟨call, hm, hk, he⟩
    exact ⟨call, ⟨hm, he⟩, hk⟩

/-- A tidy map has no more entries than keys with outstanding calls. -/
theorem World.Tidy.size_le (h : w.Tidy) : w.entries.keys.length ≤ w.live_keys.length := by
  refine List.Subperm.length_le (subperm_of_subset w.entries.nodupKeys ?_)
  intro key hk
  exact mem_live_keys.mpr (h key (AList.mem_keys.mpr hk))

/-! ## Steps -/

variable {i : Nat} {call : Call K T}

theorem outstanding_set_of_ne {call' : Call K T} (hi : w.calls[i]? = some call)
    (hk : call.key ≠ key) (ho : w.outstanding key = true) : (w.set i call').outstanding key = true := by
  obtain ⟨j, x, hj, hx, he⟩ := World.outstanding_iff.mp ho
  have hij : i ≠ j := by
    rintro rfl
    rw [hi] at hj
    cases hj
    exact hk hx
  exact World.outstanding_iff.mpr ⟨j, x, by simp only [World.set, getElem?_set_ne hij]; exact hj, hx, he⟩

theorem outstanding_set {w' : World K T} {stage : Stage T} {cell : Option Nat}
    (hi : w.calls[i]? = some call) (hcalls : w'.calls = w.calls.set i ⟨call.key, stage, cell, call.alone⟩)
    (he : stage.ended = false) (ho : w.outstanding key = true) : w'.outstanding key = true := by
  rw [outstanding_iff, hcalls]
  by_cases hk : call.key = key
  · exact ⟨i, _, getElem?_set_self (List.getElem?_eq_some_iff.mp hi).1, hk, he⟩
  · exact outstanding_iff.mp (outstanding_set_of_ne hi hk ho)

theorem Stage.not_ended_of_underway {s : Stage T} (h : s.underway = true) : s.ended = false := by
  cases s <;> first | rfl | cases h

theorem returned_tidy (hinv : w.Inv) (h : w.Tidy)
    (r : Except LeaderPanicked T) (hi : w.calls[i]? = some call) :
    ((w.set i { call with stage := .returned r }).remove_if call.key).Tidy := by
  intro key hmem
  have hcalls : ((w.set i { call with stage := .returned r }).remove_if call.key).outstanding key =
      (w.set i { call with stage := .returned r }).outstanding key := by
    unfold outstanding
    rw [remove_if_calls]
  rw [hcalls]
  unfold remove_if at hmem
  by_cases hk : call.key = key
  · subst hk
    split at hmem
    · rename_i c hl
      split at hmem
      · -- somebody holds the cell under the key, so it is a call on the key
        rename_i halive
        obtain ⟨j, x, hj, hh, hx⟩ := alive_iff.mp halive
        refine outstanding_iff.mpr ⟨j, x, hj, ?_, Stage.not_ended_of_holds hh⟩
        rcases getElem?_set_cases hj with ⟨-, rfl⟩ | ⟨-, hj⟩
        · cases hh
        · obtain ⟨cell, hcell, hck⟩ := hinv.cell j x c hj hx
          obtain ⟨cell', hcell', hck'⟩ := hinv.entry _ c hl
          rw [hcell] at hcell'
          cases hcell'
          exact hck.symm.trans hck'
      · exact absurd rfl (AList.mem_erase.mp hmem).1
    · rename_i hl
      have := AList.lookup_isSome.mpr hmem
      rw [hl] at this
      cases this
  · have hmem' : key ∈ w.entries := by
      split at hmem
      · split at hmem
        · exact hmem
        · exact (AList.mem_erase.mp hmem).2
      · exact hmem
    exact outstanding_set_of_ne hi hk (h key hmem')

theorem leavesCompany_of_ne {a : Action K T} (ha : ∀ k, a ≠ .release k) : LeavesCompany w a := by
  cases a with
  | release i => exact absurd rfl (ha i)
  | _ => trivial

/-- A step from a tidy map leaves a tidy map exactly if it leaves no key without company. -/
theorem tidy_step {w' : World K T} {a : Action K T} (hinv : w.Inv) (h : w.Tidy) (hs : w.step a = some w') :
    w'.Tidy ↔ LeavesCompany w a := by
  cases step_cases hs with
  | execute key =>
    refine iff_of_true (fun k hk => ?_) trivial
    obtain ⟨i, call, hi, hcall⟩ := World.outstanding_iff.mp (h k hk)
    refine World.outstanding_iff.mpr ⟨i, call, ?_, hcall⟩
    rw [getElem?_append_left (List.getElem?_eq_some_iff.mp hi).1]
    exact hi
  | misses i call hi hstage | leads i call c cell hi | finishes i ending call c cell hi | drops i call c cell hi =>
    exact iff_of_true (fun k hk => outstanding_set hi rfl rfl (h k hk)) trivial
  | joins _ i call c hi ha =>
    exact iff_of_true (fun k hk => outstanding_set hi rfl rfl (h k hk)) (leavesCompany_of_ne ha)
  | creates i call hi hstage =>
    refine iff_of_true (fun k hk => ?_) trivial
    rcases (AList.mem_insert _).mp hk with rfl | hk
    · exact outstanding_set hi rfl rfl (World.outstanding_iff.mpr ⟨i, call, hi, rfl, by rw [hstage]; rfl⟩)
    · exact outstanding_set hi rfl rfl (h k hk)
  | moves _ i call stage hi ha _ hu =>
    exact iff_of_true (fun k hk => outstanding_set hi rfl (Stage.not_ended_of_underway hu) (h k hk)) (leavesCompany_of_ne ha)
  | returns i call r hi hstage => exact iff_of_true (returned_tidy hinv h r hi) trivial
  | releases i call hi hstage =>
    constructor
    · intro ht x hx
      rw [hi] at hx
      cases hx
      -- the call holds its cell, so there is an entry under its key
      obtain ⟨c, -, hl⟩ := hinv.holder i call hi (by rw [hstage]; rfl)
      have hmem : call.key ∈ w.entries := AList.lookup_isSome.mp (by rw [hl]; rfl)
      obtain ⟨j, x, hj, hx, he⟩ := World.outstanding_iff.mp (ht call.key hmem)
      rcases getElem?_set_cases hj with ⟨-, rfl⟩ | ⟨hne, hj⟩
      · cases he
      · exact ⟨j, x, hne, hj, hx, he⟩
    · intro hc k hk
      by_cases hkey : call.key = k
      · obtain ⟨j, x, hne, hj, hx, he⟩ := hc call hi
        refine World.outstanding_iff.mpr ⟨j, x, ?_, hx.trans hkey, he⟩
        simp only [World.set, getElem?_set_ne (Ne.symm hne)]
        exact hj
      · exact outstanding_set_of_ne hi hkey (h k hk)

/-- In every run in which a call that was dropped or unwinds lets go of its
cell only while another call on its key is outstanding, a key without
outstanding calls has no entry and the map has at most as many entries as there
are keys with outstanding calls. A step that lets go without company breaks
this wherever it held. -/
theorem no_stale_entries :
    (∀ w : World K T, ((merger K T).limit LeavesCompany).Reachable w →
      (∀ key, w.outstanding key = false → w.entries.lookup key = none) ∧
      w.entries.keys.length ≤ w.live_keys.length) ∧
    (∀ (w : World K T) a w', (merger K T).Reachable w → (∀ key, w.outstanding key = false → w.entries.lookup key = none) →
      w.step a = some w' →
      ((∀ key, w'.outstanding key = false → w'.entries.lookup key = none) ↔ LeavesCompany w a)) := by
  have htidy : ∀ w : World K T, w.Tidy ↔ ∀ key, w.outstanding key = false → w.entries.lookup key = none := by
    intro w
    refine forall_congr' fun key => ?_
    rw [← AList.lookup_isSome, ← Option.not_isSome_iff_eq_none, ← Bool.not_eq_true]
    exact not_imp_not.symm
  constructor
  · intro w hr
    have ht : w.Tidy := by
      refine hr.inv World.Tidy ?_ ?_
      · rintro w rfl key hk
        exact absurd hk (AList.notMem_empty key)
      · rintro w a w' hreach h ⟨hs, hok⟩
        exact (tidy_step (reachable_inv hreach.of_limit) h hs).mpr hok
    exact ⟨(htidy w).mp ht, ht.size_le⟩
  · intro w a w' hr h hs
    rw [← htidy]
    exact tidy_step (reachable_inv hr) ((htidy w).mpr h) hs

/-- A follower is dropped while the leader runs, which leaves no entry when it is done. -/
theorem no_stale_entries_follower : ∃ w : World Nat Nat, ((merger Nat Nat).limit LeavesCompany).Reachable w ∧
    w.outstanding 1 = false ∧ w.entries.lookup 1 = none ∧ w.entries.keys.length ≤ w.live_keys.length := by
  have h : ((merger Nat Nat).limit LeavesCompany).Reachable .new := ⟨[], .init rfl⟩
  have h := h.step (a := Action.execute 1) ⟨rfl, trivial⟩
  have h := h.step (a := Action.get_or_create_cell 0) ⟨rfl, trivial⟩
  have h := h.step (a := Action.insert_or_get_existing 0) ⟨rfl, trivial⟩
  have h := h.step (a := Action.execute 1) ⟨rfl, trivial⟩
  have h := h.step (a := Action.get_or_create_cell 1) ⟨rfl, trivial⟩
  have h := h.step (a := Action.call_func 0) ⟨rfl, trivial⟩
  have h := h.step (a := Action.cancel 1) ⟨rfl, trivial⟩
  have h := h.step (a := Action.release 1) ⟨rfl, by rintro _ ⟨⟩; exact ⟨0, _, by decide, rfl, rfl, rfl⟩⟩
  have h := h.step (a := Action.lead 0) ⟨rfl, trivial⟩
  have h := h.step (a := Action.finish 0 (.value 7)) ⟨rfl, trivial⟩
  have h := h.step (a := Action.drop_cell 0) ⟨rfl, trivial⟩
  have h := h.step (a := Action.remove_if 0) ⟨rfl, trivial⟩
  exact ⟨_, h, rfl, (no_stale_entries.1 _ h).1 1 rfl, (no_stale_entries.1 _ h).2⟩

/-- A leader returns while a follower that has not been polled again is there; then the follower is dropped. -/
def followerDropped : List (Action Nat Nat) :=
  [.execute 1, .get_or_create_cell 0, .insert_or_get_existing 0, .execute 1, .get_or_create_cell 1, .call_func 0,
    .call_func 1, .lead 0, .finish 0 (.value 7), .drop_cell 0, .remove_if 0, .cancel 1, .release 1]

/-- The entry of the completed cell stays in the map after both calls have ended. -/
theorem follower_dropped_leaves_entry : ∃ w, (merger Nat Nat).Run followerDropped w ∧ w.outstanding 1 = false ∧
    w.entries.lookup 1 = some 0 ∧ w.alive 0 = false ∧ w.live_keys = [] ∧ w.entries.keys.length = 1 := by
  have h0 : (merger Nat Nat).Run [] .new := .init rfl
  exact ⟨_, h0.foldlM (fun _ _ _ h => h) followerDropped rfl, rfl, rfl, rfl, rfl, rfl⟩

end Uniflight
