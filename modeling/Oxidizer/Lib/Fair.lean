import Oxidizer.Lib.Runs
/-!
# Infinite runs under weak fairness

A trace is an infinite run. It is fair to its parties when none of them can
stand enabled for ever without a step. Two rules follow: a party that stays
enabled moves, and a rank that never rises and falls at every step of a ready
party leaves, from some point on, no party ready. A path that comes back to
where it started gives a trace that repeats it, and one that comes to rest a
trace that stays there.
-/

namespace Lib.Lts

open Nat
variable {σ α ι : Type} {L : Lts σ α}

structure Trace (L : Lts σ α) (s : ℕ → σ) (a : ℕ → α) : Prop where
  start : L.Reachable (s 0)
  step : ∀ n, L.step (s n) (a n) (s (n + 1))

theorem Trace.reachable {s : ℕ → σ} {a : ℕ → α} (h : L.Trace s a) (n : ℕ) : L.Reachable (s n) := by
  induction n with
  | zero => exact h.start
  | succ n ih => exact ih.step (h.step n)

/-- No party is enabled for ever without a move. -/
def Fair (enabled : σ → ι → Prop) (moves : ι → α) (s : ℕ → σ) (a : ℕ → α) : Prop :=
  ∀ p n, ∃ m ≥ n, a m = moves p ∨ ¬enabled (s m) p

section
variable {enabled : σ → ι → Prop} {moves : ι → α} {s : ℕ → σ} {a : ℕ → α} {p : ι} {n : ℕ}

theorem Fair.eventually (hfair : Fair enabled moves s a) (P : σ → Prop) (hP : P (s n))
    (henabled : ∀ m ≥ n, P (s m) → enabled (s m) p) (hstay : ∀ m ≥ n, P (s m) → a m ≠ moves p → P (s (m + 1))) :
    ∃ m ≥ n, P (s m) ∧ a m = moves p := by
  by_contra hnone
  have hne : ∀ m ≥ n, P (s m) → a m ≠ moves p := fun m hm hPm heq => hnone ⟨m, hm, hPm, heq⟩
  have halways : ∀ m ≥ n, P (s m) := by
    intro m hm
    induction m, hm using le_induction with
    | base => exact hP
    | succ m hm ih => exact hstay m hm ih (hne m hm ih)
  obtain ⟨m, hm, h | h⟩ := hfair p n
  · exact hne m hm (halways m hm) h
  · exact h (henabled m hm (halways m hm))

/-- A rank that does not rise stays the same from some point on. -/
theorem settles_rank (rank : ℕ → ℕ) {N : ℕ} (hle : ∀ n ≥ N, rank (n + 1) ≤ rank n) :
    ∃ M ≥ N, ∀ n ≥ M, rank (n + 1) = rank n := by
  obtain ⟨M, hM, hmin⟩ := WellFounded.has_min (measure rank).wf {n | n ≥ N} ⟨N, le_refl N⟩
  refine ⟨M, hM, fun n hn => ?_⟩
  have hfrom : ∀ m ≥ M, rank m ≤ rank M := by
    intro m hm
    induction m, hm using le_induction with
    | base => exact le_refl _
    | succ m hm ih => exact (hle m (hM.trans hm)).trans ih
  have hleast : ∀ m ≥ M, rank m = rank M := fun m hm =>
    Nat.le_antisymm (hfrom m hm) (Nat.le_of_not_lt (hmin m (hM.trans hm)))
  rw [hleast (n + 1) (hn.trans (le_succ n)), hleast n hn]

/-- Where every step of a ready party lowers a rank that never rises, no party is ready in the end. -/
theorem Fair.settles (hfair : Fair enabled moves s a) (rank : σ → ℕ) (ready : σ → ι → Prop) {N : ℕ}
    (henabled : ∀ m p, ready (s m) p → enabled (s m) p)
    (hle : ∀ n ≥ N, rank (s (n + 1)) ≤ rank (s n))
    (hstay : ∀ n ≥ N, ∀ p, ready (s n) p → rank (s (n + 1)) = rank (s n) → ready (s (n + 1)) p)
    (hdrop : ∀ n ≥ N, ∀ p, ready (s n) p → a n = moves p → rank (s (n + 1)) < rank (s n)) :
    ∃ M ≥ N, ∀ n ≥ M, rank (s (n + 1)) = rank (s n) ∧ ∀ p, ¬ready (s n) p := by
  obtain ⟨M, hM, hconst⟩ := settles_rank (fun n => rank (s n)) hle
  refine ⟨M, hM, fun n hn => ⟨hconst n hn, fun p hready => ?_⟩⟩
  obtain ⟨m, hm, hready', hmove⟩ := hfair.eventually (ready · p) hready (fun m _ => henabled m p)
    fun m hm h _ => hstay m (hM.trans (hn.trans hm)) p h (hconst m (hn.trans hm))
  exact absurd (hconst m (hn.trans hm)) (hdrop m (hM.trans (hn.trans hm)) p hready' hmove).ne

end

/-! ## Loops -/

/-- The same system, started in one state. -/
def start (L : Lts σ α) (x : σ) : Lts σ α := { L with init := (· = x) }

theorem Run.states {x y : σ} {as : List α} (h : (L.start x).Run as y) :
    ∃ f : ℕ → σ, f 0 = x ∧ f as.length = y ∧ ∀ i (hi : i < as.length), L.step (f i) (as.get ⟨i, hi⟩) (f (i + 1)) := by
  induction h with
  | init h => exact ⟨fun _ => x, rfl, h.symm, fun i hi => absurd hi (Nat.not_lt_zero i)⟩
  | @step as y y' b _ hs ih =>
    obtain ⟨f, h0, hlast, hf⟩ := ih
    refine ⟨fun i => if i ≤ as.length then f i else y', by simp [h0], by simp, fun i hi => ?_⟩
    have hi' : i ≤ as.length := by simpa using le_of_lt_succ (by simpa using hi)
    simp only [if_pos hi']
    rcases Nat.lt_or_eq_of_le hi' with h | rfl
    · rw [if_pos (succ_le_of_lt h)]
      simpa [List.getElem_append_left h] using hf i h
    · rw [if_neg (not_succ_le_self _), hlast]
      have hs' : L.step y b y' := hs
      simpa using hs'

theorem Run.stay {x y : σ} {as : List α} (h : (L.start x).Run as y) {b : α} (hb : L.step y b y) :
    ∃ (s : ℕ → σ) (a : ℕ → α), s 0 = x ∧ (∀ n, L.step (s n) (a n) (s (n + 1))) ∧ ∀ n ≥ as.length, s n = y ∧ a n = b := by
  obtain ⟨f, h0, hlast, hf⟩ := h.states
  refine ⟨fun n => f (min n as.length), fun n => as.getD n b, by simp [h0], fun n => ?_, fun n hn => ?_⟩
  · rcases Nat.lt_or_ge n as.length with hn | hn
    · simpa [min_eq_left hn.le, min_eq_left (succ_le_of_lt hn), hn] using hf n hn
    · simpa [min_eq_right hn, min_eq_right (hn.trans (le_succ n)), hlast, hn] using hb
  · exact ⟨by simp [min_eq_right hn, hlast], List.getD_eq_default _ _ hn⟩

theorem Run.loop {x : σ} {as : List α} (h : (L.start x).Run as x) (hne : as ≠ []) :
    ∃ (s : ℕ → σ) (a : ℕ → α), s 0 = x ∧ (∀ n, L.step (s n) (a n) (s (n + 1))) ∧ ∀ b ∈ as, ∀ n, ∃ m ≥ n, a m = b := by
  obtain ⟨f, h0, hlast, hf⟩ := h.states
  have hpos : 0 < as.length := List.length_pos_of_ne_nil hne
  refine ⟨fun n => f (n % as.length), fun n => as.get ⟨n % as.length, mod_lt n hpos⟩, by simp [h0], ?_, ?_⟩
  · intro n
    have hstep := hf (n % as.length) (mod_lt n hpos)
    -- the state after the last label is the one before the first
    have hnext : f ((n + 1) % as.length) = f (n % as.length + 1) := by
      rcases Nat.lt_or_eq_of_le (succ_le_of_lt (mod_lt n hpos)) with h | h
      · rw [add_mod, mod_eq_of_lt (show 1 < as.length by omega), mod_eq_of_lt h]
      · have hwrap : (n + 1) % as.length = 0 := by rw [← mod_add_mod, ← succ_eq_add_one, h, mod_self]
        rw [hwrap, h0, ← succ_eq_add_one, h, hlast]
    simpa only [hnext] using hstep
  · intro b hb n
    obtain ⟨i, hi⟩ := List.mem_iff_get.mp hb
    refine ⟨i + as.length * n, ?_, ?_⟩
    · exact (Nat.le_mul_of_pos_left n hpos).trans (Nat.le_add_left _ _)
    · simp only [add_mul_mod_self_left, mod_eq_of_lt i.isLt]
      exact hi

end Lib.Lts
