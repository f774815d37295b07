import Oxidizer.Performables.Exclusion
import Oxidizer.Performables.NativeLock
/-!
# `try_write` on a lock that no one holds

`try_write` compares the word with exact values, and `WAITERS` is a bit of the word that
does not say that the lock is held. The last reader of a native lock leaves the bit alone
in the word until it clears it. The asynchronous lock tries the word with and without the
bit, which may be cleared between the two.
-/

namespace Performables

open Lib

section
variable {ι : Type}

theorem NativeLock.Inv.free {s : NativeLock ι} (inv : NativeLock.Inv s) (hr : s.readers = 0) (hw : s.writers = 0)
    (hclear : ∀ q, s.threads q ≠ .clear) : s.state = 0 := by
  obtain ⟨hle, ⟨-, howners, -⟩ | ⟨hone, -⟩⟩ := inv.counts
  · have hlt : s.state < NativeLock.WAITERS := by
      by_contra hbit
      obtain ⟨q, hq⟩ := inv.alone (Nat.not_lt.mp hbit) (howners.trans hr)
      exact hclear q hq
    rw [hr, NativeLock.owners, Nat.mod_eq_of_lt hlt] at howners
    exact howners
  · rw [hw] at hone
    cases hone

theorem Lock.Owned.free {s : Lock ι} (h : Lock.Owned s) (hw : s.writer = none) (hr : s.reading = []) :
    s.word = ⟨false, s.word.waiters, 0⟩ := by
  have hlocked := h.locked
  have hcount := h.count
  cases hword : s.word
  simp_all

variable [DecidableEq ι]

/-- When `try_write` gives up, there is a guard, unless a reader of a native lock has yet to clear the `WAITERS` bit or
the bit of an asynchronous lock was cleared since the first comparison. -/
theorem try_write_fails_when_held :
    (∀ (s : NativeLock ι) (p : ι) (spurious : Bool), (NativeLock.system ι).Reachable s →
      s.threads p = .try_write .once → (s.step p spurious).writers = s.writers →
      (∀ q, s.threads q ≠ .clear) → 0 < s.readers ∨ 0 < s.writers) ∧
    ∀ (s : Lock ι) (p : ι) (seen : Lock.Word), (Lock.system ι).Reachable s → s.rw = true → (s.parties p).shared = false →
      (s.parties p).pc = .cas .once seen → ((s.step p).parties p).pc = .done →
      (seen.waiters = true → s.word.waiters = true) → s.writer ≠ none ∨ s.reading ≠ [] := by
  constructor
  · intro s p spurious h hpc hfail hclear
    by_contra hno
    obtain ⟨hr, hw⟩ : s.readers = 0 ∧ s.writers = 0 := by omega
    have hfree := (NativeLock.Inv.reachable h).free hr hw hclear
    rw [NativeLock.step, hpc] at hfail
    simp [hfree, NativeLock.goto] at hfail
  · intro s p seen h hrw hshared hpc hdone hbit
    have inv := Lock.Inv.reachable h
    by_contra hno
    obtain ⟨hw, hr⟩ := not_or.mp hno
    have hword := inv.owned.free (not_not.mp hw) (not_not.mp hr)
    have hseen := (inv.queued.ok p).seen seen (by rw [hpc]; rfl)
    obtain ⟨locked, waiters, readers⟩ := seen
    simp [Lock.acquirable, hshared] at hseen
    obtain ⟨rfl, rfl⟩ := hseen
    simp only [Lock.step, hpc] at hdone
    split at hdone
    · simp [hshared, Lock.acquired] at hdone
    · next hne =>
      -- the word has not the bit that was looked for: it was looked for without it, and is with it from now on
      have hother : waiters = false ∧ s.word.waiters = true := by
        cases waiters <;> cases hw : s.word.waiters <;> simp_all
      rw [hother.2] at hword
      simp [hword, hother.1, hrw, hshared, Lock.retries] at hdone

/-- A `try_write` that fails on each lock: while another thread reads, and when another party has taken the word since. -/
theorem try_write_fails_when_held_runs :
    (∃ s : NativeLock (Fin 2), (NativeLock.system (Fin 2)).Reachable s ∧ s.threads 1 = .try_write .once ∧
      (s.step 1 false).threads 1 = .idle ∧ (0 < s.readers ∨ 0 < s.writers)) ∧
    ∃ s : Lock (Fin 2), (Lock.system (Fin 2)).Reachable s ∧ s.rw = true ∧ (s.parties 1).pc = .cas .once ⟨false, false, 0⟩ ∧
      ((s.step 1).parties 1).pc = .done ∧ (s.writer ≠ none ∨ s.reading ≠ []) := by
  constructor
  · have h : (NativeLock.system (Fin 2)).Reachable ⟨0, fun _ => .idle, 0, 0⟩ := ⟨[], .init ⟨rfl, fun _ => rfl, rfl, rfl⟩⟩
    have h := h.step (a := NativeLock.Action.call (0 : Fin 2) true false) ⟨rfl, rfl⟩
    have h := h.iterate (a := NativeLock.Action.step (0 : Fin 2) false) (f := (NativeLock.step · 0 false))
      (fun _ (_ : True) => rfl) 2 (by simp)
    have h := h.step (a := NativeLock.Action.call (1 : Fin 2) false false) ⟨rfl, rfl⟩
    exact ⟨_, h, rfl, rfl, try_write_fails_when_held.1 _ 1 false h rfl rfl (by decide)⟩
  · have h : (Lock.system (Fin 2)).Reachable
        ⟨true, 7, ⟨false, false, 0⟩, false, none, [], fun _ => ⟨.fresh, false, false, true, false, false⟩, none, []⟩ :=
      ⟨[], .init ⟨by decide, rfl, rfl, rfl, rfl, rfl, rfl, fun _ => rfl⟩⟩
    have h := h.step (a := Lock.Action.try_acquire (1 : Fin 2) false) ⟨rfl, nofun, rfl⟩
    have h := h.step (a := Lock.Action.future (0 : Fin 2) false) ⟨rfl, nofun, rfl⟩
    have h := h.step (a := Lock.Action.poll (0 : Fin 2)) ⟨rfl, rfl⟩
    have h := h.step (a := Lock.Action.step (0 : Fin 2)) ⟨trivial, rfl⟩
    exact ⟨_, h, rfl, rfl, rfl, try_write_fails_when_held.2 _ 1 _ h rfl rfl rfl rfl nofun⟩

/-! ## A free lock that is not taken -/

namespace NativeLock

/-- A reader drops its guard while a writer sleeps, and has yet to clear the bit: there is no guard before, during and
after the `try_write` of another thread, which gives up. -/
theorem try_write_fails_on_free_lock : ∃ s : NativeLock Nat, (system Nat).Reachable s ∧ s.threads 2 = .idle ∧
    s.readers = 0 ∧ s.writers = 0 ∧
    let called := s.call 2 false false
    let ended := called.step 2 false
    called.threads 2 = .try_write .once ∧ called.readers = 0 ∧ called.writers = 0 ∧
      ended.threads 2 = .idle ∧ ended.readers = 0 ∧ ended.writers = 0 := by
  have hrun : (waiting_run ++ [Action.read_unlock 0]).foldlM exec unused = some _ := rfl
  exact ⟨_, (Lts.Run.foldlM exec_step _ (.init ⟨rfl, fun _ => rfl, rfl, rfl⟩) hrun).reachable, rfl, rfl, rfl, rfl, rfl, rfl,
    rfl, rfl, rfl⟩

end NativeLock

end

end Performables
