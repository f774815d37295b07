import Oxidizer.Uniflight.Model
/-!
# One flight per key

A call that holds a cell finds it under its key: entries are only replaced or
removed once nobody holds their cell. So the calls on a key that hold a cell
at all hold the same one, and the cell lets one of their functions run at a
time. What a call returns is the value its cell kept, which the function of
some call on the same cell produced. A call that was alone on its key when it
started shares its cell with no call before it.
-/

namespace Uniflight

open Lib List World

variable {K T : Type} [DecidableEq K]

variable {i j : Nat}

theorem getElem?_set_cases {α : Type} {l : List α} {a x : α} (h : (l.set i a)[j]? = some x) :
    (j = i ∧ x = a) ∨ (j ≠ i ∧ l[j]? = some x) := by
  rw [getElem?_set] at h
  by_cases hij : i = j
  · rw [if_pos hij] at h
    split at h
    · cases h; exact .inl ⟨hij.symm, rfl⟩
    · cases h
  · rw [if_neg hij] at h
    exact .inr ⟨Ne.symm hij, h⟩

theorem getElem?_append_cases {α : Type} {l : List α} {a x : α} (h : (l ++ [a])[i]? = some x) :
    l[i]? = some x ∨ (i = l.length ∧ x = a) := by
  rw [getElem?_append] at h
  split at h
  · exact .inl h
  · obtain ⟨hi, rfl⟩ := List.getElem?_eq_some_iff.mp h
    rw [length_singleton] at hi
    exact .inr ⟨by omega, by simp⟩

/-! ## The invariant -/

structure World.Inv (w : World K T) : Prop where
  entry : ∀ k c, w.entries.lookup k = some c → ∃ cell, w.cells[c]? = some cell ∧ cell.key = k
  start : ∀ (i : Nat) call, w.calls[i]? = some call → call.stage = .lookup ∨ call.stage = .insert → call.cell = none
  cell : ∀ (i : Nat) call c, w.calls[i]? = some call → call.cell = some c →
    ∃ cell, w.cells[c]? = some cell ∧ cell.key = call.key
  /-- the cell a call holds is the one under its key -/
  holder : ∀ (i : Nat) call, w.calls[i]? = some call → call.stage.holds = true →
    ∃ c, call.cell = some c ∧ w.entries.lookup call.key = some c
  running : ∀ (i : Nat) call, w.calls[i]? = some call → call.stage = .running →
    ∃ c cell, call.cell = some c ∧ w.cells[c]? = some cell ∧ cell.initialiser = some i ∧ cell.value = none
  result : ∀ (i : Nat) call r, w.calls[i]? = some call → call.stage.result = some r →
    ∃ c cell j, call.cell = some c ∧ w.cells[c]? = some cell ∧ cell.value = some (r, j)
  producer : ∀ (c : Nat) cell r j, w.cells[c]? = some cell → cell.value = some (r, j) →
    ∃ call, w.calls[j]? = some call ∧ call.cell = some c

theorem World.inv_new : (World.new : World K T).Inv := by
  constructor <;> simp [new]

variable {w : World K T}

variable {c : Nat}

theorem World.alive_iff :
    w.alive c = true ↔ ∃ (i : Nat) (call : Call K T), w.calls[i]? = some call ∧ call.stage.holds = true ∧ call.cell = some c := by
  unfold alive
  rw [any_eq_true]
  constructor
  · rintro ⟨call, hm, hc⟩
    obtain ⟨i, hi⟩ := getElem?_of_mem hm
    rw [Bool.and_eq_true, beq_iff_eq] at hc
    exact ⟨i, call, hi, hc⟩
  · rintro ⟨i, call, hi, hh, hc⟩
    exact ⟨call, mem_of_getElem? hi, by rw [Bool.and_eq_true, beq_iff_eq]; exact ⟨hh, hc⟩⟩

variable {key : K}

theorem World.outstanding_iff : w.outstanding key = true ↔
    ∃ (i : Nat) (call : Call K T), w.calls[i]? = some call ∧ call.key = key ∧ call.stage.ended = false := by
  unfold outstanding
  rw [any_eq_true]
  constructor
  · rintro ⟨call, hm, hc⟩
    obtain ⟨i, hi⟩ := getElem?_of_mem hm
    rw [Bool.and_eq_true, beq_iff_eq, Bool.not_eq_true'] at hc
    exact ⟨i, call, hi, hc⟩
  · rintro ⟨i, call, hi, hk, he⟩
    exact ⟨call, mem_of_getElem? hi, by rw [Bool.and_eq_true, beq_iff_eq, Bool.not_eq_true']; exact ⟨hk, he⟩⟩

theorem World.live_cell_eq_some :
    w.live_cell key = some c ↔ w.entries.lookup key = some c ∧ w.alive c = true := by
  unfold live_cell
  cases w.entries.lookup key with
  | none => simp
  | some c' =>
    simp only [Option.some.injEq]
    split
    · rename_i ha
      simp only [Option.some.injEq]
      exact ⟨fun he => ⟨he, he ▸ ha⟩, fun he => he.1⟩
    · rename_i ha
      simp only [reduceCtorEq, false_iff, not_and]
      exact fun he => he ▸ ha

namespace World.Inv
variable {w : World K T}

variable (h : w.Inv)
include h

variable {i : Nat} {call : Call K T}

theorem live_of_holds (hi : w.calls[i]? = some call)
    (hh : call.stage.holds = true) : ∃ c, call.cell = some c ∧ w.live_cell call.key = some c := by
  obtain ⟨c, hc, hl⟩ := h.holder i call hi hh
  exact ⟨c, hc, live_cell_eq_some.mpr ⟨hl, alive_iff.mpr ⟨i, call, hi, hh, hc⟩⟩⟩

/-! ## One change at a time -/

theorem started (key : K) (alone : Bool) :
    World.Inv { w with calls := w.calls ++ [⟨key, .lookup, none, alone⟩] } := by
  refine ⟨h.entry, ?_, ?_, ?_, ?_, ?_, ?_⟩
  · intro i call hi hs
    rcases getElem?_append_cases hi with hi | ⟨-, rfl⟩
    · exact h.start i call hi hs
    · rfl
  · intro i call c hi hc
    rcases getElem?_append_cases hi with hi | ⟨-, rfl⟩
    · exact h.cell i call c hi hc
    · cases hc
  · intro i call hi hh
    rcases getElem?_append_cases hi with hi | ⟨-, rfl⟩
    · exact h.holder i call hi hh
    · cases hh
  · intro i call hi hs
    rcases getElem?_append_cases hi with hi | ⟨-, rfl⟩
    · exact h.running i call hi hs
    · cases hs
  · intro i call r hi hr
    rcases getElem?_append_cases hi with hi | ⟨-, rfl⟩
    · exact h.result i call r hi hr
    · cases hr
  · intro c cell r j hcell hv
    obtain ⟨call, hj, hc⟩ := h.producer c cell r j hcell hv
    refine ⟨call, ?_, hc⟩
    rw [getElem?_append_left (List.getElem?_eq_some_iff.mp hj).1]
    exact hj

theorem set {call' : Call K T} (hi : w.calls[i]? = some call) (hkey : call'.key = call.key)
    (hkeep : call'.cell = call.cell ∨ call.cell = none)
    (hstart : call'.stage = .lookup ∨ call'.stage = .insert → call'.cell = none)
    (hcell : ∀ c, call'.cell = some c → ∃ cell, w.cells[c]? = some cell ∧ cell.key = call.key)
    (hholder : call'.stage.holds = true → ∃ c, call'.cell = some c ∧ w.entries.lookup call.key = some c)
    (hrunning : call'.stage = .running →
      ∃ c cell, call'.cell = some c ∧ w.cells[c]? = some cell ∧ cell.initialiser = some i ∧ cell.value = none)
    (hresult : ∀ r, call'.stage.result = some r →
      ∃ c cell j, call'.cell = some c ∧ w.cells[c]? = some cell ∧ cell.value = some (r, j)) :
    (w.set i call').Inv := by
  refine ⟨h.entry, ?_, ?_, ?_, ?_, ?_, ?_⟩
  · intro j x hj hs
    rcases getElem?_set_cases hj with ⟨-, rfl⟩ | ⟨-, hj⟩
    · exact hstart hs
    · exact h.start j x hj hs
  · intro j x c hj hc
    rcases getElem?_set_cases hj with ⟨-, rfl⟩ | ⟨-, hj⟩
    · rw [hkey]; exact hcell c hc
    · exact h.cell j x c hj hc
  · intro j x hj hh
    rcases getElem?_set_cases hj with ⟨-, rfl⟩ | ⟨-, hj⟩
    · rw [hkey]; exact hholder hh
    · exact h.holder j x hj hh
  · intro j x hj hs
    rcases getElem?_set_cases hj with ⟨rfl, rfl⟩ | ⟨-, hj⟩
    · exact hrunning hs
    · exact h.running j x hj hs
  · intro j x r hj hr
    rcases getElem?_set_cases hj with ⟨-, rfl⟩ | ⟨-, hj⟩
    · exact hresult r hr
    · exact h.result j x r hj hr
  · intro c cell r j hc hv
    obtain ⟨x, hj, hx⟩ := h.producer c cell r j hc hv
    by_cases hij : i = j
    · subst hij
      rw [hi] at hj
      cases hj
      refine ⟨call', by simp [World.set, (List.getElem?_eq_some_iff.mp hi).1], ?_⟩
      rcases hkeep with hk | hk
      · rw [hk]; exact hx
      · rw [hk] at hx; cases hx
    · exact ⟨x, by simp only [World.set, getElem?_set_ne hij]; exact hj, hx⟩

variable {c : Nat} {cell : Cell K T}

theorem set_cell {cell' : Cell K T} (hc : w.cells[c]? = some cell)
    (hkey : cell'.key = cell.key) (hkeep : ∀ x, cell.value = some x → cell'.value = some x)
    (hidle : ∀ (i : Nat) call, w.calls[i]? = some call → call.stage = .running → call.cell ≠ some c)
    (hproducer : ∀ r j, cell'.value = some (r, j) → ∃ call, w.calls[j]? = some call ∧ call.cell = some c) :
    (w.set_cell c cell').Inv := by
  have hget : ∀ {d : Nat} {x : Cell K T}, w.cells[d]? = some x →
      ∃ y, (w.set_cell c cell').cells[d]? = some y ∧ y.key = x.key ∧ ∀ v, x.value = some v → y.value = some v := by
    intro d x hd
    by_cases hcd : c = d
    · subst hcd
      rw [hc] at hd
      cases hd
      exact ⟨cell', by simp [World.set_cell, (List.getElem?_eq_some_iff.mp hc).1], hkey, hkeep⟩
    · exact ⟨x, by simp only [World.set_cell, getElem?_set_ne hcd]; exact hd, rfl, fun v hv => hv⟩
  refine ⟨?_, h.start, ?_, h.holder, ?_, ?_, ?_⟩
  · intro k d hl
    obtain ⟨x, hx, hk⟩ := h.entry k d hl
    obtain ⟨y, hy, hyk, -⟩ := hget hx
    exact ⟨y, hy, hyk.trans hk⟩
  · intro i call d hi hd
    obtain ⟨x, hx, hk⟩ := h.cell i call d hi hd
    obtain ⟨y, hy, hyk, -⟩ := hget hx
    exact ⟨y, hy, hyk.trans hk⟩
  · intro i call hi hs
    obtain ⟨d, x, hd, hx, hrest⟩ := h.running i call hi hs
    have hcd : c ≠ d := fun he => hidle i call hi hs (he ▸ hd)
    exact ⟨d, x, hd, by simp only [World.set_cell, getElem?_set_ne hcd]; exact hx, hrest⟩
  · intro i call r hi hr
    obtain ⟨d, x, j, hd, hx, hv⟩ := h.result i call r hi hr
    obtain ⟨y, hy, -, hyv⟩ := hget hx
    exact ⟨d, y, j, hd, hy, hyv _ hv⟩
  · intro d x r j hx hv
    rcases getElem?_set_cases hx with ⟨rfl, rfl⟩ | ⟨-, hx⟩
    · exact hproducer r j hv
    · exact h.producer d x r j hx hv

theorem created {key : K} (hl : w.live_cell key = none) :
    World.Inv { w with entries := w.entries.insert key w.cells.length, cells := w.cells ++ [Cell.new key] } := by
  have hget : ∀ {d : Nat} {x : Cell K T}, w.cells[d]? = some x → (w.cells ++ [Cell.new key])[d]? = some x := by
    intro d x hd
    rw [getElem?_append_left (List.getElem?_eq_some_iff.mp hd).1]
    exact hd
  refine ⟨?_, h.start, ?_, ?_, ?_, ?_, ?_⟩
  · intro k c hlk
    by_cases hk : k = key
    · subst hk
      rw [AList.lookup_insert] at hlk
      cases hlk
      exact ⟨Cell.new k, by simp, rfl⟩
    · rw [AList.lookup_insert_ne hk] at hlk
      obtain ⟨x, hx, hkx⟩ := h.entry k c hlk
      exact ⟨x, hget hx, hkx⟩
  · intro i call c hi hc
    obtain ⟨x, hx, hk⟩ := h.cell i call c hi hc
    exact ⟨x, hget hx, hk⟩
  · -- nobody on the key holds a cell: it would be alive
    intro i call hi hh
    obtain ⟨c, hc, hlk⟩ := h.holder i call hi hh
    refine ⟨c, hc, ?_⟩
    by_cases hk : call.key = key
    · obtain ⟨c', -, hlive⟩ := h.live_of_holds hi hh
      rw [hk, hl] at hlive
      cases hlive
    · rw [AList.lookup_insert_ne hk]
      exact hlk
  · intro i call hi hs
    obtain ⟨c, x, hc, hx, hrest⟩ := h.running i call hi hs
    exact ⟨c, x, hc, hget hx, hrest⟩
  · intro i call r hi hr
    obtain ⟨c, x, j, hc, hx, hv⟩ := h.result i call r hi hr
    exact ⟨c, x, j, hc, hget hx, hv⟩
  · intro c x r j hx hv
    rcases getElem?_append_cases hx with hx | ⟨-, rfl⟩
    · exact h.producer c x r j hx hv
    · cases hv

/-- The conditional removal takes no entry a call still needs. -/
theorem remove_if (key : K) : (w.remove_if key).Inv := by
  unfold World.remove_if
  split
  · split
    · exact h
    · rename_i c hlk hdead
      refine ⟨?_, h.start, h.cell, ?_, h.running, h.result, h.producer⟩
      · intro k c' hl'
        by_cases hk : k = key
        · subst hk
          rw [AList.lookup_erase] at hl'
          cases hl'
        · rw [AList.lookup_erase_ne hk] at hl'
          exact h.entry k c' hl'
      · intro i call hi hh
        obtain ⟨c', hc, hl'⟩ := h.holder i call hi hh
        refine ⟨c', hc, ?_⟩
        by_cases hk : call.key = key
        · rw [hk, hlk] at hl'
          cases hl'
          exact absurd (World.alive_iff.mpr ⟨i, call, hi, hh, hc⟩) hdead
        · rw [AList.lookup_erase_ne hk]
          exact hl'
  · exact h

theorem moved {stage : Stage T} (hi : w.calls[i]? = some call)
    (hh : call.stage.holds = true) (hu : stage.underway = true)
    (hv : ∀ r, stage.result = some r → call.stage.result = some r ∨
      ∃ c cell j, call.cell = some c ∧ w.cells[c]? = some cell ∧ cell.value = some (r, j)) :
    (w.set i { call with stage }).Inv := by
  refine h.set hi rfl (.inl rfl) ?_ (fun c hc => h.cell i call c hi hc) (fun _ => h.holder i call hi hh) ?_ ?_
  · rintro (hs | hs) <;> simp only at hs <;> rw [hs] at hu <;> cases hu
  · intro hs
    simp only at hs
    rw [hs] at hu
    cases hu
  · intro r hr
    rcases hv r hr with hr | hr
    · exact h.result i call r hi hr
    · exact hr

theorem initialiser (hi : w.calls[i]? = some call)
    (hs : call.stage = .running) (hc : call.cell = some c) (hcell : w.cells[c]? = some cell) :
    cell.initialiser = some i ∧ cell.value = none := by
  obtain ⟨d, x, hd, hx, hrest⟩ := h.running i call hi hs
  rw [hc] at hd
  cases hd
  rw [hcell] at hx
  cases hx
  exact hrest

theorem idle_without {call' : Call K T}
    (hi : w.calls[i]? = some call) (hs : call.stage = .running) (hc : call.cell = some c)
    (hcell : w.cells[c]? = some cell) (hu : call'.stage.underway = true) :
    ∀ (j : Nat) x, (w.set i call').calls[j]? = some x → x.stage = .running → x.cell ≠ some c := by
  intro j x hj hx hxc
  rcases getElem?_set_cases hj with ⟨-, rfl⟩ | ⟨hne, hj⟩
  · rw [hx] at hu
    cases hu
  · have hinit := (h.initialiser hj hx hxc hcell).1
    rw [(h.initialiser hi hs hc hcell).1] at hinit
    cases hinit
    exact hne rfl

theorem finished (ending : Ending T)
    (hi : w.calls[i]? = some call) (hc : call.cell = some c) (hcell : w.cells[c]? = some cell)
    (hs : call.stage = .running) :
    ((w.set i { call with stage := .read ending.result }).set_cell c
      { cell with value := some (ending.result, i), initialiser := none }).Inv := by
  -- the call lets go of the initialiser, the cell gets its value, the call reads it
  let waiting : Call K T := { call with stage := .waiting }
  let cell' : Cell K T := { cell with value := some (ending.result, i), initialiser := none }
  have hw1 : (w.set i waiting).Inv := h.moved hi (by rw [hs]; rfl) rfl (fun r hr => by cases hr)
  have hget : (w.set i waiting).calls[i]? = some waiting := by
    simp [World.set, (List.getElem?_eq_some_iff.mp hi).1]
  have hw2 : ((w.set i waiting).set_cell c cell').Inv := by
    refine hw1.set_cell hcell rfl ?_ (h.idle_without hi hs hc hcell rfl) ?_
    · intro x hx
      rw [(h.initialiser hi hs hc hcell).2] at hx
      cases hx
    · intro r j hv
      cases hv
      exact ⟨waiting, hget, hc⟩
  have hcell' : ((w.set i waiting).set_cell c cell').cells[c]? = some cell' := by
    simp [World.set_cell, World.set, (List.getElem?_eq_some_iff.mp hcell).1]
  have hw3 : (((w.set i waiting).set_cell c cell').set i { waiting with stage := .read ending.result }).Inv := by
    refine hw2.moved hget rfl rfl (fun r hr => .inr ?_)
    cases hr
    exact ⟨c, cell', i, hc, hcell', rfl⟩
  have heq : ((w.set i waiting).set_cell c cell').set i { waiting with stage := .read ending.result } =
      (w.set i { call with stage := .read ending.result }).set_cell c cell' := by
    simp only [World.set, World.set_cell, set_set, waiting]
  exact heq ▸ hw3

/-! ## Steps -/

theorem step {a : Action K T} {w' : World K T} (hs : w.step a = some w') : w'.Inv := by
  cases step_cases hs with
  | execute key => exact h.started key _
  | misses i call hi hstage =>
    have hnone := h.start i call hi (.inl hstage)
    exact h.set hi rfl (.inl rfl) (fun _ => hnone) (fun c hc => h.cell i call c hi hc) (fun hh => by cases hh)
      (fun hr => by cases hr) (fun r hr => by cases hr)
  | joins _ i call c hi _ hstage hl =>
    have hlk := (World.live_cell_eq_some.mp hl).1
    refine h.set hi rfl (.inr (h.start i call hi hstage)) (fun hb => by rcases hb with hb | hb <;> cases hb) ?_
      (fun _ => ⟨c, rfl, hlk⟩) (fun hr => by cases hr) (fun r hr => by cases hr)
    intro c' hc'
    cases hc'
    exact h.entry _ _ hlk
  | creates i call hi hstage hl =>
    let call' : Call K T := { call with stage := .ready, cell := some w.cells.length }
    have hset : (World.set { w with entries := w.entries.insert call.key w.cells.length,
                                    cells := w.cells ++ [Cell.new call.key] } i call').Inv := by
      refine (h.created hl).set hi rfl (.inr (h.start i call hi (.inr hstage)))
        (fun hb => by rcases hb with hb | hb <;> cases hb) ?_ (fun _ => ⟨_, rfl, AList.lookup_insert _⟩)
        (fun hr => by cases hr) (fun r hr => by cases hr)
      intro c' hc'
      cases hc'
      exact ⟨Cell.new call.key, by simp, rfl⟩
    exact hset
  | moves _ i call stage hi _ hh hu hv => exact h.moved hi hh hu hv
  | leads i call c cell hi hc hcell hstage hvalue hinit =>
    have hw : (w.set_cell c { cell with initialiser := some i }).Inv := by
      refine h.set_cell hcell rfl (fun x hx => hx) ?_ (fun r j hv => h.producer c cell r j hcell hv)
      intro j x hj hx hxc
      have := (h.initialiser hj hx hxc hcell).1
      rw [hinit] at this
      cases this
    have hget : (w.set_cell c { cell with initialiser := some i }).cells[c]? = some { cell with initialiser := some i } := by
      simp [World.set_cell, (List.getElem?_eq_some_iff.mp hcell).1]
    exact hw.set hi rfl (.inl rfl) (fun hb => by rcases hb with hb | hb <;> cases hb) (fun d hd => hw.cell i call d hi hd)
      (fun _ => hw.holder i call hi (by rw [hstage]; rfl)) (fun _ => ⟨c, _, hc, hget, rfl, hvalue⟩) (fun r hr => by cases hr)
  | finishes i ending call c cell hi hc hcell hstage => exact h.finished ending hi hc hcell hstage
  | drops i call c cell hi hc hcell hstage =>
    have hw : (w.set i { call with stage := .releasing }).Inv :=
      h.moved hi (by rw [hstage]; rfl) rfl (fun r hr => by cases hr)
    refine hw.set_cell hcell rfl (fun x hx => hx) ?_ (fun r j hv => hw.producer c cell r j hcell hv)
    exact h.idle_without hi hstage hc hcell rfl
  | returns i call r hi hstage =>
    have hw : (w.set i { call with stage := .returned r }).Inv :=
      h.set hi rfl (.inl rfl) (fun hb => by rcases hb with hb | hb <;> cases hb) (fun c hc => h.cell i call c hi hc)
        (fun hh => by cases hh) (fun hr => by cases hr)
        (fun r' hr' => h.result i call r' hi (by rw [hstage]; exact hr'))
    exact hw.remove_if call.key
  | releases i call hi hstage =>
    exact h.set hi rfl (.inl rfl) (fun hb => by rcases hb with hb | hb <;> cases hb) (fun c hc => h.cell i call c hi hc)
      (fun hh => by cases hh) (fun hr => by cases hr) (fun r hr => by cases hr)

end World.Inv

theorem reachable_inv (hr : (merger K T).Reachable w) : w.Inv := by
  refine hr.inv World.Inv ?_ ?_
  · rintro w rfl
    exact inv_new
  · intro w a w' _ h hs
    exact h.step hs

/-! ## Calls that start alone -/

@[simp] theorem World.remove_if_calls (w : World K T) (key : K) : (w.remove_if key).calls = w.calls := by
  unfold remove_if
  split
  · split <;> rfl
  · rfl

@[simp] theorem World.remove_if_cells (w : World K T) (key : K) : (w.remove_if key).cells = w.cells := by
  unfold remove_if
  split
  · split <;> rfl
  · rfl

theorem Stage.not_ended_of_holds {s : Stage T} (h : s.holds = true) : s.ended = false := by
  cases s <;> first | rfl | cases h

variable {w w' : World K T} {a : Action K T}

/-- What a step does to the calls: one starts, or one that has not ended
changes, and the cell it may obtain is live or new. -/
theorem step_calls (hs : w.step a = some w') :
    (∃ key, w'.calls = w.calls ++ [⟨key, .lookup, none, !w.outstanding key⟩]) ∨
    (∃ i call call', w.calls[i]? = some call ∧ w'.calls = w.calls.set i call' ∧ call'.key = call.key ∧
      call'.alone = call.alone ∧ call.stage.ended = false ∧
      ∀ c, call'.cell = some c → call.cell = some c ∨ w.live_cell call.key = some c ∨ c = w.cells.length) := by
  cases step_cases hs with
  | execute key => exact .inl ⟨key, rfl⟩
  | misses i call hi hstage | releases i call hi hstage | leads i call c cell hi hc hcell hstage
  | finishes i ending call c cell hi hc hcell hstage | drops i call c cell hi hc hcell hstage =>
    exact .inr ⟨i, call, _, hi, rfl, rfl, rfl, by rw [hstage]; rfl, fun c hc => .inl hc⟩
  | joins _ i call c hi _ hstage hl =>
    refine .inr ⟨i, call, _, hi, rfl, rfl, rfl, ?_, fun c' hc' => .inr (.inl ?_)⟩
    · rcases hstage with hstage | hstage <;> rw [hstage] <;> rfl
    · cases hc'; exact hl
  | creates i call hi hstage hl =>
    refine .inr ⟨i, call, _, hi, rfl, rfl, rfl, by rw [hstage]; rfl, fun c' hc' => .inr (.inr ?_)⟩
    cases hc'
    rfl
  | moves _ i call stage hi _ hh =>
    exact .inr ⟨i, call, _, hi, rfl, rfl, rfl, Stage.not_ended_of_holds hh, fun c hc => .inl hc⟩
  | returns i call r hi hstage =>
    exact .inr ⟨i, call, _, hi, remove_if_calls _ _, rfl, rfl, by rw [hstage]; rfl, fun c hc => .inl hc⟩

/-- Every call on the key before one that started alone has ended, and its cell is nobody's from then on. -/
def World.Apart (w : World K T) : Prop :=
  ∀ (i : Nat) ci, w.calls[i]? = some ci → ci.alone = true →
    ∀ (j : Nat) cj, j < i → w.calls[j]? = some cj → cj.key = ci.key →
      cj.stage.ended = true ∧ ∀ (h : Nat) ch c, i ≤ h → w.calls[h]? = some ch → cj.cell = some c → ch.cell ≠ some c

theorem World.Inv.same_key (h : w.Inv) {ci cj : Call K T} (hi : w.calls[i]? = some ci)
    (hj : w.calls[j]? = some cj) (hci : ci.cell = some c) (hcj : cj.cell = some c) : ci.key = cj.key := by
  obtain ⟨x, hx, hkx⟩ := h.cell i ci c hi hci
  obtain ⟨y, hy, hky⟩ := h.cell j cj c hj hcj
  rw [hx] at hy
  cases hy
  exact hkx.symm.trans hky

theorem World.Apart.obtainable (hp : w.Apart) (hinv : w.Inv) {ci cj : Call K T}
    (hi : w.calls[i]? = some ci) (ha : ci.alone = true) (hlt : j < i) (hj : w.calls[j]? = some cj)
    (hkey : cj.key = ci.key) (hc : w.live_cell key = some c ∨ c = w.cells.length) : cj.cell ≠ some c := by
  intro hcj
  rcases hc with hlive | rfl
  · obtain ⟨m, cm, hm, hh, hcm⟩ := alive_iff.mp (live_cell_eq_some.mp hlive).2
    by_cases hmi : m < i
    · -- a holder before `i` has not ended
      have hkm : cm.key = ci.key := (hinv.same_key hm hj hcm hcj).trans hkey
      have hended := (hp i ci hi ha m cm hmi hm hkm).1
      rw [Stage.not_ended_of_holds hh] at hended
      cases hended
    · exact (hp i ci hi ha j cj hlt hj hkey).2 m cm c (Nat.not_lt.mp hmi) hm hcj hcm
  · obtain ⟨x, hx, -⟩ := hinv.cell j cj _ hj hcj
    exact Nat.lt_irrefl _ (List.getElem?_eq_some_iff.mp hx).1

theorem World.Apart.step (hp : w.Apart) (hinv : w.Inv) (hs : w.step a = some w') :
    w'.Apart := by
  intro i ci hi ha j cj hlt hj hkey
  rcases step_calls hs with ⟨key, hcalls⟩ | ⟨n, call, call', hn, hcalls, hkeep, halone, hend, hcell⟩
  · rw [hcalls] at hi hj
    have hjold : w.calls[j]? = some cj := by
      rcases getElem?_append_cases hj with hj | ⟨rfl, -⟩
      · exact hj
      · have := (List.getElem?_eq_some_iff.mp hi).1
        simp only [length_append, length_singleton] at this
        omega
    have hnew : ∀ (h : Nat) ch c, w.calls.length ≤ h → w'.calls[h]? = some ch → ch.cell ≠ some c := by
      intro h ch c hle hh
      rw [hcalls] at hh
      rcases getElem?_append_cases hh with hh | ⟨-, rfl⟩
      · exact absurd (List.getElem?_eq_some_iff.mp hh).1 (Nat.not_lt.mpr hle)
      · exact fun hc => by cases hc
    rcases getElem?_append_cases hi with hi | ⟨rfl, rfl⟩
    · obtain ⟨hended, hcells⟩ := hp i ci hi ha j cj hlt hjold hkey
      refine ⟨hended, fun h ch c hle hh hc => ?_⟩
      by_cases hb : h < w.calls.length
      · rw [hcalls, getElem?_append_left hb] at hh
        exact hcells h ch c hle hh hc
      · exact hnew h ch c (Nat.not_lt.mp hb) hh
    · refine ⟨?_, fun h ch c hle hh _ => hnew h ch c hle hh⟩
      by_contra hend
      have hout := outstanding_iff.mpr ⟨j, cj, hjold, hkey, (Bool.not_eq_true _).mp hend⟩
      rw [hout] at ha
      cases ha
  · have hold : ∀ {m : Nat} {x : Call K T}, w'.calls[m]? = some x → ∃ y, w.calls[m]? = some y ∧ y.key = x.key ∧
        y.alone = x.alone ∧ (x = y ∨ (m = n ∧ x = call' ∧ y = call)) := by
      intro m x hm
      rw [hcalls] at hm
      rcases getElem?_set_cases hm with ⟨rfl, rfl⟩ | ⟨-, hm⟩
      · exact ⟨call, hn, hkeep.symm, halone.symm, .inr ⟨rfl, rfl, rfl⟩⟩
      · exact ⟨x, hm, rfl, rfl, .inl rfl⟩
    obtain ⟨ci, hi, hkci, haci, -⟩ := hold hi
    obtain ⟨cj', hj', hkcj, -, hsame⟩ := hold hj
    have hkey' : cj'.key = ci.key := by rw [hkcj, hkci, hkey]
    obtain ⟨hended, hcells⟩ := hp i ci hi (haci.trans ha) j cj' hlt hj' hkey'
    rcases hsame with rfl | ⟨rfl, -, rfl⟩
    · refine ⟨hended, fun h ch c hle hh hc hch => ?_⟩
      obtain ⟨ch', hh', -, -, hsame⟩ := hold hh
      rcases hsame with rfl | ⟨-, rfl, rfl⟩
      · exact hcells h ch c hle hh' hc hch
      · rcases hcell c hch with hch | hobt
        · exact hcells h _ c hle hh' hc hch
        · exact hp.obtainable hinv hi (haci.trans ha) hlt hj' hkey' hobt hc
    · rw [hend] at hended
      cases hended

theorem reachable_apart (hr : (merger K T).Reachable w) : w.Apart := by
  refine hr.inv World.Apart ?_ ?_
  · rintro w rfl i ci hi
    cases hi
  · intro w a w' hreach h hs
    exact h.step (reachable_inv hreach) hs

/-! ## Values and the functions that produced them -/

theorem step_values (hs : w.step a = some w') {cell : Cell K T}
    {r : Except LeaderPanicked T} (hc : w'.cells[c]? = some cell) (hv : cell.value = some (r, j)) :
    (∃ cell', w.cells[c]? = some cell' ∧ cell'.value = some (r, j)) ∨
    ∃ ending, a = .finish j ending ∧ ending.result = r := by
  cases step_cases hs with
  | execute | misses | joins | moves | releases => exact .inl ⟨cell, hc, hv⟩
  | creates i call hi hstage hl =>
    rcases getElem?_append_cases hc with hc | ⟨-, rfl⟩
    · exact .inl ⟨cell, hc, hv⟩
    · cases hv
  | leads i call d x hi hd hx | drops i call d x hi hd hx =>
    rcases getElem?_set_cases hc with ⟨rfl, rfl⟩ | ⟨-, hc⟩
    · exact .inl ⟨x, hx, hv⟩
    · exact .inl ⟨cell, hc, hv⟩
  | finishes i ending call d x hi hd hx =>
    rcases getElem?_set_cases hc with ⟨rfl, rfl⟩ | ⟨-, hc⟩
    · cases hv
      exact .inr ⟨ending, rfl, rfl⟩
    · exact .inl ⟨cell, hc, hv⟩
  | returns i call r' hi hstage =>
    rw [remove_if_cells] at hc
    exact .inl ⟨cell, hc, hv⟩

theorem run_produced {as : List (Action K T)} (hr : (merger K T).Run as w) :
    ∀ (c : Nat) cell r j, w.cells[c]? = some cell → cell.value = some (r, j) →
      ∃ ending, Action.finish j ending ∈ as ∧ ending.result = r := by
  induction hr with
  | init h =>
    cases h
    intro c cell r j hc
    cases hc
  | step hr hs ih =>
    intro c cell r j hc hv
    rcases step_values hs hc hv with ⟨cell', hc', hv'⟩ | ⟨ending, rfl, hres⟩
    · obtain ⟨ending, hm, hres⟩ := ih c cell' r j hc' hv'
      exact ⟨ending, mem_append_left _ hm, hres⟩
    · exact ⟨ending, mem_append_right _ mem_cons_self, hres⟩

/-- In every run: at most one function of a key runs at a time; calls that
returned from the same cell returned the same; what a call returned is what
the function of a call on the same key ended with, as initialiser of the cell
that both obtained. For a call that started alone on its key, that is its own
function or the function of a call that started later. -/
theorem single_flight {as : List (Action K T)} {w : World K T} (hr : (merger K T).Run as w) :
    (∀ (i j : Nat) ci cj, w.calls[i]? = some ci → w.calls[j]? = some cj → ci.key = cj.key → ci.stage = .running →
      cj.stage = .running → i = j) ∧
    (∀ (i j : Nat) ci cj r r', w.calls[i]? = some ci → w.calls[j]? = some cj → ci.cell = cj.cell →
      ci.stage = .returned r → cj.stage = .returned r' → r = r') ∧
    (∀ (i : Nat) ci r, w.calls[i]? = some ci → ci.stage = .returned r →
      ∃ (j : Nat) (cj : Call K T) (ending : Ending T), w.calls[j]? = some cj ∧ cj.key = ci.key ∧ cj.cell = ci.cell ∧
        cj.cell ≠ none ∧ .finish j ending ∈ as ∧ ending.result = r ∧ (ci.alone = true → i ≤ j)) := by
  have hinv := reachable_inv hr.reachable
  have hresult : ∀ {i : Nat} {ci : Call K T} {r}, w.calls[i]? = some ci → ci.stage = .returned r →
      ∃ c cell j, ci.cell = some c ∧ w.cells[c]? = some cell ∧ cell.value = some (r, j) := by
    intro i ci r hi hs
    exact hinv.result i ci r hi (by rw [hs]; rfl)
  refine ⟨?_, ?_, ?_⟩
  · intro i j ci cj hi hj hkey hsi hsj
    obtain ⟨c, hci, hli⟩ := hinv.holder i ci hi (by rw [hsi]; rfl)
    obtain ⟨c', hcj, hlj⟩ := hinv.holder j cj hj (by rw [hsj]; rfl)
    -- both hold the cell under their key, and it has one initialiser
    rw [hkey, hlj] at hli
    cases hli
    obtain ⟨cell, hcell, -⟩ := hinv.cell i ci c hi hci
    have hinit := (hinv.initialiser hi hsi hci hcell).1
    rw [(hinv.initialiser hj hsj hcj hcell).1] at hinit
    cases hinit
    rfl
  · intro i j ci cj r r' hi hj hsame hsi hsj
    obtain ⟨c, cell, p, hci, hcell, hv⟩ := hresult hi hsi
    obtain ⟨c', cell', p', hcj, hcell', hv'⟩ := hresult hj hsj
    rw [hsame, hcj] at hci
    cases hci
    rw [hcell] at hcell'
    cases hcell'
    rw [hv] at hv'
    cases hv'
    rfl
  · intro i ci r hi hs
    obtain ⟨c, cell, j, hci, hcell, hv⟩ := hresult hi hs
    obtain ⟨cj, hj, hcj⟩ := hinv.producer c cell r j hcell hv
    obtain ⟨ending, hm, hres⟩ := run_produced hr c cell r j hcell hv
    have hkey := hinv.same_key hj hi hcj hci
    refine ⟨j, cj, ending, hj, hkey, hcj.trans hci.symm, by rw [hcj]; simp, hm, hres, fun ha => ?_⟩
    by_contra hlt
    exact (reachable_apart hr.reachable i ci hi ha j cj (Nat.not_le.mp hlt) hj hkey).2 i ci c (Nat.le_refl i) hi hcj hci

/-- A first call on a key gets a new cell; a second call joins it before the
first is polled, leads, and ends with 7; then the first is polled. -/
def overtaken : List (Action Nat Nat) :=
  [.execute 1, .get_or_create_cell 0, .insert_or_get_existing 0, .execute 1, .get_or_create_cell 1, .call_func 1,
    .lead 1, .finish 1 (.value 7), .call_func 0, .read 0, .drop_cell 0, .remove_if 0]

theorem overtaken_run : ∃ w, (merger Nat Nat).Run overtaken w ∧
    w.calls = [⟨1, .returned (.ok 7), some 0, true⟩, ⟨1, .read (.ok 7), some 0, false⟩] := by
  have h0 : (merger Nat Nat).Run [] .new := .init rfl
  exact ⟨_, h0.foldlM (fun _ _ _ h => h) overtaken rfl, rfl⟩

/-- The first call returns a value of the cell that it shares with the second. -/
theorem single_flight_overtaken : ∃ w, (merger Nat Nat).Run overtaken w ∧
    ∃ (j : Nat) (cj : Call Nat Nat) (ending : Ending Nat), w.calls[j]? = some cj ∧ cj.key = 1 ∧ cj.cell = some 0 ∧
      cj.cell ≠ none ∧ .finish j ending ∈ overtaken ∧ ending.result = .ok 7 ∧ (true = true → 0 ≤ j) := by
  obtain ⟨w, hr, hw⟩ := overtaken_run
  exact ⟨w, hr, (single_flight hr).2.2 0 ⟨1, .returned (.ok 7), some 0, true⟩ (.ok 7) (by rw [hw]; rfl) rfl⟩

/-- A call that starts with no other call on its key outstanding, and returns,
need not run its own function: here it never leads. -/
theorem lone_call_overtaken : ∃ as w, (merger Nat Nat).Run as w ∧
    w.calls[0]? = some ⟨1, .returned (.ok 7), some 0, true⟩ ∧ Action.lead 0 ∉ as ∧
    Action.finish 1 (.value 7) ∈ as := by
  obtain ⟨w, hr, hw⟩ := overtaken_run
  exact ⟨overtaken, w, hr, by rw [hw]; rfl, by simp [overtaken], by simp [overtaken]⟩

end Uniflight
