import Mathlib
/-!
# Runs of a labelled transition system

A system is its initial states and its steps, each under a label that says
who did what. `Run as s` is a run from an initial state through the labels
`as` to `s`; interleavings of several parties are orders of their labels. An
invariant is proved once per step and holds after every run.
-/

namespace Lib

/-- A labelled transition system over states `σ` and labels `α`. -/
structure Lts (σ α : Type) where
  init : σ → Prop
  step : σ → α → σ → Prop

namespace Lts
variable {σ α : Type}

/-- Runs from an initial state: the labels in order, and the state reached. -/
inductive Run (L : Lts σ α) : List α → σ → Prop where
  | init {s : σ} (h : L.init s) : Run L [] s
  | step {as : List α} {s s' : σ} {a : α} (h : Run L as s) (hs : L.step s a s') : Run L (as ++ [a]) s'

def Reachable (L : Lts σ α) (s : σ) : Prop := ∃ as, L.Run as s

/-- The same system, held to the steps that meet a condition. -/
def limit (L : Lts σ α) (ok : σ → α → Prop) : Lts σ α where
  init := L.init
  step s a s' := L.step s a s' ∧ ok s a

variable {L : Lts σ α}

variable {s : σ}

theorem Run.reachable {as : List α} (h : L.Run as s) : L.Reachable s := ⟨as, h⟩

theorem Reachable.step {s' : σ} {a : α} (h : L.Reachable s) (hs : L.step s a s') : L.Reachable s' := by
  obtain ⟨as, hr⟩ := h
  exact ⟨as ++ [a], hr.step hs⟩

/-- The same step over and over. -/
theorem Reachable.iterate {a : α} {f : σ → σ} {ok : σ → Prop} (h : L.Reachable s) (hstep : ∀ s, ok s → L.step s a (f s))
    (n : Nat) (hok : ∀ k < n, ok (f^[k] s)) : L.Reachable (f^[n] s) := by
  induction n with
  | zero => exact h
  | succ n ih =>
    rw [Function.iterate_succ_apply']
    exact (ih fun k hk => hok k (by omega)).step (hstep _ (hok n (by omega)))

theorem Run.foldlM {exec : σ → α → Option σ} (hexec : ∀ s a s', exec s a = some s' → L.step s a s') {as : List α}
    (bs : List α) {s' : σ} (h : L.Run as s) (hrun : bs.foldlM exec s = some s') : L.Run (as ++ bs) s' := by
  induction bs generalizing as s with
  | nil => cases hrun; rw [List.append_nil]; exact h
  | cons b bs ih =>
    obtain ⟨t, hb, hrest⟩ := Option.bind_eq_some_iff.mp hrun
    have hrun' := ih (h.step (hexec s b t hb)) hrest
    rw [List.append_assoc] at hrun'
    exact hrun'

/-- What holds initially and is kept by every step from a reachable state holds in every reachable state. -/
theorem Reachable.inv (I : σ → Prop) (h0 : ∀ s, L.init s → I s)
    (hstep : ∀ s a s', L.Reachable s → I s → L.step s a s' → I s') (h : L.Reachable s) : I s := by
  obtain ⟨as, hr⟩ := h
  induction hr with
  | init h => exact h0 _ h
  | step hr hs ih => exact hstep _ _ _ hr.reachable ih hs

theorem Reachable.of_limit {ok : σ → α → Prop} (h : (L.limit ok).Reachable s) : L.Reachable s := by
  refine Reachable.inv (L := L.limit ok) L.Reachable (fun s h0 => ⟨[], .init h0⟩) ?_ h
  rintro s a s' - hr ⟨hs, -⟩
  exact hr.step hs

end Lts

/-! ## Parties -/

/-- Of parties of which one at most is the holder, no other holds while one does. -/
theorem others_without {ι β : Type} {f : ι → β} {p q : ι} {holder : Option ι} (holds : β → Bool)
    (held : ∀ q, holder = some q ↔ holds (f q) = true) (hp : holds (f p) = true) (hq : q ≠ p) : holds (f q) = false := by
  cases hheld : holds (f q) with
  | false => rfl
  | true => exact absurd (Option.some.inj (((held q).mpr hheld).symm.trans ((held p).mpr hp))) hq

end Lib
