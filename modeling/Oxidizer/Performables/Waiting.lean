import Oxidizer.Performables.Condvar
/-!
# Waits of the condition variable

The invariant of the runs in which a wait that is notified leaves the queue
before it sees the notification. A wait between two polls is in the queue, or was
taken from it to be woken. The queue is in the order of the generations, so that
the waits a notification is for come before all that are newer.
-/

namespace Performables

open Lib List

namespace Condvar
variable {ι : Type}

def Pc.holds : Pc ι → Bool
  | .retry | .enqueue | .dequeue | .popping _ | .taking _ _ => true
  | _ => false

/-- The waiter was popped and its waker not taken yet. -/
def Taken (s : Condvar ι) (w : ι) : Prop := ∃ p registered, (s.waits p).pc = .taking registered w

/-- What is true of a wait, by where it is. -/
def Wait.Ok (t : Wait ι) (listed woken taken : Prop) : Prop :=
  match t.pc with
  | .fresh => ¬listed ∧ t.guard = false ∧ t.has_waiter = false ∧ t.notified = false
  | .suspended =>
    t.guard = true ∧ ¬listed ∧ t.has_waiter = false ∧ t.notified = false ∨ t.guard = false ∧ t.notified = true ∧ ¬listed ∨
      t.guard = false ∧ t.notified = false ∧ t.has_waiter = true ∧ t.active = true ∧ (t.waker = true ∨ woken) ∧
        (listed ∨ woken ∨ taken)
  | .check | .register =>
    t.guard = false ∧ t.notified = false ∧ (t.has_waiter = true → t.active = true) ∧ (listed → t.has_waiter = true)
  | .state | .lock | .retry | .enqueue =>
    t.guard = false ∧ t.notified = false ∧ t.has_waiter = true ∧ t.active = true ∧ (t.waker = true ∨ woken)
  | .dequeue => t.guard = false ∧ t.notified = false ∧ t.has_waiter = true ∧ t.active = true
  | .recancel => t.guard = false ∧ ¬listed
  | .relock => t.guard = false ∧ t.notified = true ∧ ¬listed
  | .cancel => t.active = false
  | _ => ¬listed

structure Inv (s : Condvar ι) : Prop where
  holder : ∀ p, s.holder = some p ↔ (s.waits p).pc.holds = true
  nodup : s.waiters.Nodup
  sorted : s.waiters.Pairwise fun a b => (s.waits a).generation ≤ (s.waits b).generation
  ok : ∀ p, (s.waits p).Ok (p ∈ s.waiters) (Woken s p) (Taken s p)
  older : ∀ p, (s.waits p).generation ≤ s.generation
  last : ∀ p, (s.waits p).pc = .enqueue → ∀ a ∈ s.waiters, (s.waits a).generation ≤ (s.waits p).generation

variable {s s' : Condvar ι} {p q w : ι}

theorem Inv.unique (inv : Inv s) (hp : (s.waits p).pc.holds = true) (hq : (s.waits q).pc.holds = true) : q = p :=
  Option.some.inj (((inv.holder q).mpr hq).symm.trans ((inv.holder p).mpr hp))

theorem Inv.entry (inv : Inv s) (hw : w ∈ s.waiters) : (s.waits w).registered = true ∨ (s.waits w).pc = .cancel := by
  have hok := inv.ok w
  cases hpc : (s.waits w).pc <;> simp only [Wait.Ok, hpc] at hok <;> simp_all [Wait.registered]

/-! ## What a step changes -/

variable [DecidableEq ι]

section
variable (s : Condvar ι) (p q : ι) (t : Wait ι) (pc : Pc ι)

@[simp, grind =] theorem set_waits : (s.set p t).waits q = if q = p then t else s.waits q := rfl

@[simp, grind =] theorem goto_waits : (s.goto p pc).waits q = if q = p then { s.waits p with pc } else s.waits q := rfl

@[simp, grind =] theorem set_generation : (s.set p t).generation = s.generation := rfl

@[simp, grind =] theorem goto_generation : (s.goto p pc).generation = s.generation := rfl

@[simp, grind =] theorem set_made : (s.set p t).made = s.made := rfl

@[simp, grind =] theorem goto_made : (s.goto p pc).made = s.made := rfl

@[simp, grind =] theorem set_waiters : (s.set p t).waiters = s.waiters := rfl

@[simp, grind =] theorem goto_waiters : (s.goto p pc).waiters = s.waiters := rfl

@[simp, grind =] theorem set_holder : (s.set p t).holder = s.holder := rfl

@[simp, grind =] theorem goto_holder : (s.goto p pc).holder = s.holder := rfl

theorem step_generation : (s.step p).generation = s.generation := by
  unfold step
  grind

theorem step_keeps : ((s.step p).waits q).generation = (s.waits q).generation ∧
    ((s.step p).waits q).guard = (s.waits q).guard ∧
    ((s.waits q).notified = true → ((s.step p).waits q).notified = true) ∧
    ((s.waits q).woken = true → ((s.step p).waits q).woken = true) := by
  unfold step
  grind -ring -linarith

end

/-- Of the others, a step changes what a popper changes of the wait that it has popped. -/
theorem step_other (h : q ≠ p) : ((s.step p).waits q).pc = (s.waits q).pc ∧
    ((s.step p).waits q).active = (s.waits q).active ∧ ((s.step p).waits q).notified = (s.waits q).notified ∧
    ((s.step p).waits q).has_waiter = (s.waits q).has_waiter := by
  unfold step
  grind -ring -linarith

theorem Woken.step (h : Woken s w) : Woken (s.step p) w := by
  rcases h with hw | ⟨q, registered, hq⟩
  · exact .inl ((step_keeps s p w).2.2.2 hw)
  · by_cases hqp : q = p
    · -- the wake on its way has come
      subst hqp
      refine .inl ?_
      simp only [Condvar.step, hq]
      grind
    · exact .inr ⟨q, registered, (step_other hqp).1.trans hq⟩

/-! ## Steps -/

section
variable (inv : Inv s)
include inv

theorem Inv.step_holder (h : s.Enabled p) (q : ι) :
    (s.step p).holder = some q ↔ ((s.step p).waits q).pc.holds = true := by
  have hp := inv.holder p
  have hq := inv.holder q
  cases hpc : (s.waits p).pc <;> simp only [Enabled, hpc] at h <;> simp only [Condvar.step, hpc] <;>
    grind -ring -linarith [Pc.holds]

theorem Inv.step_nodup : (s.step p).waiters.Nodup := by
  have hnodup := inv.nodup
  unfold Condvar.step
  grind -ring -linarith [Nodup.erase]

theorem Inv.step_sorted : (s.step p).waiters.Pairwise fun a b => (s.waits a).generation ≤ (s.waits b).generation := by
  have hsorted := inv.sorted
  have hlast := inv.last p
  unfold Condvar.step
  grind -ring [Pairwise.sublist, erase_sublist]

theorem Inv.step_last (h : s.Enabled p) (hq : ((s.step p).waits q).pc = .enqueue) (a : ι) (ha : a ∈ (s.step p).waiters) :
    (s.waits a).generation ≤ (s.waits q).generation := by
  have hholder := inv.holder
  have hlast := inv.last
  -- at the second look at the generation no one in the queue is newer
  have hle := inv.older a
  cases hpc : (s.waits p).pc <;> simp only [Enabled, hpc] at h <;> simp only [Condvar.step, hpc] at hq ha <;>
    grind -ring [Pc.holds, mem_of_mem_erase]

theorem Inv.step_other_ok (hq : q ≠ p) :
    ((s.step p).waits q).Ok (q ∈ (s.step p).waiters) (Woken (s.step p) q) (Taken (s.step p) q) := by
  have hok := inv.ok q
  obtain ⟨hpc, hactive, hnotified, hwaiter⟩ := step_other hq (s := s)
  have hguard := (step_keeps s p q).2.1
  have hwoken : Woken s q → Woken (s.step p) q := .step
  have hlisted : (q ∈ (s.step p).waiters ↔ q ∈ s.waiters) ∨
      q ∉ (s.step p).waiters ∧ (Taken (s.step p) q ∨ (s.waits q).active = false) := by
    have hnodup := inv.nodup
    by_cases hpop : ∃ registered, (s.waits p).pc = .popping registered
    · obtain ⟨registered, hpop⟩ := hpop
      have htaken : ((s.step p).waits p).pc = .taking registered q → Taken (s.step p) q := fun h => ⟨p, registered, h⟩
      simp only [Condvar.step, hpop] at htaken ⊢
      grind -ring -linarith
    · unfold Condvar.step
      grind -ring -linarith
  have hwaker : ((s.step p).waits q).waker = (s.waits q).waker ∨ ((s.waits q).waker = true → Woken (s.step p) q) := by
    by_cases hpop : ∃ registered, (s.waits p).pc = .taking registered q
    · obtain ⟨registered, hpop⟩ := hpop
      refine .inr fun hw => .inr ⟨p, registered, ?_⟩
      simp [Condvar.step, hpop, hw]
    · unfold Condvar.step
      grind -ring -linarith
  -- a popped waiter is woken, or its wait was woken before
  have htaken : Taken s q → Taken (s.step p) q ∨ ((s.waits q).waker = true → Woken (s.step p) q) := by
    rintro ⟨r, registered, h⟩
    by_cases hr : r = p
    · subst hr
      refine .inr fun hw => .inr ⟨r, registered, ?_⟩
      simp [Condvar.step, h, hw]
    · exact .inl ⟨r, registered, (step_other hr).1.trans h⟩
  cases hpcq : (s.waits q).pc <;> rw [hpcq] at hpc <;> simp only [Wait.Ok, hpcq] at hok <;>
    simp only [Wait.Ok, hpc, hguard, hnotified, hwaiter, hactive] <;> grind -ring -linarith

theorem Inv.step_ok (h : s.Enabled p)
    (hprompt : (s.waits p).pc = .check → s.generation = (s.waits p).generation ∨ p ∉ s.waiters) :
    ((s.step p).waits p).Ok (p ∈ (s.step p).waiters) (Woken (s.step p) p) (Taken (s.step p) p) := by
  have hok := inv.ok p
  have hwoken : Woken s p → Woken (s.step p) p := .step
  have hout : p ∉ s.waiters.erase p := inv.nodup.not_mem_erase
  generalize Woken (s.step p) p = woken' at *
  generalize Taken (s.step p) p = taken' at *
  cases hpc : (s.waits p).pc <;> simp only [Wait.Ok, Enabled, hpc] at hok h <;> simp only [Wait.Ok, Condvar.step, hpc] <;>
    grind -ring -linarith

theorem Inv.step (h : s.Enabled p)
    (hprompt : (s.waits p).pc = .check → s.generation = (s.waits p).generation ∨ p ∉ s.waiters) : Inv (s.step p) := by
  have hgen := fun q => (step_keeps s p q).1
  refine ⟨inv.step_holder h, inv.step_nodup, by simpa only [hgen] using inv.step_sorted, fun q => ?_, fun q => ?_,
    fun q hq a ha => ?_⟩
  · by_cases hq : q = p
    · rw [hq]
      exact inv.step_ok h hprompt
    · exact inv.step_other_ok hq
  · rw [hgen, step_generation]
    exact inv.older q
  · rw [hgen, hgen]
    exact inv.step_last h hq a ha

/-! ## Calls -/

/-- A call changes one party, which is not yet waiting or between two polls. -/
theorem Inv.call {t : Wait ι} (waits : ∀ q, s'.waits q = if q = p then t else s.waits q)
    (same : s'.waiters = s.waiters ∧ s'.holder = s.holder) (gen : s.generation ≤ s'.generation) (free : t.pc.holds = false)
    (hpc : (s.waits p).pc = .fresh ∧ t.generation ≤ s'.generation ∨
      (s.waits p).pc = .suspended ∧ t.generation = (s.waits p).generation)
    (ok : t.Ok (p ∈ s.waiters) (Woken s' p) (Taken s' p)) : Inv s' := by
  have hout : (s.waits p).pc = .fresh → p ∉ s.waiters := by
    intro h
    have hok := inv.ok p
    simp only [Wait.Ok, h] at hok
    exact hok.1
  have hgen : ∀ a ∈ s.waiters, (s'.waits a).generation = (s.waits a).generation := by grind
  refine ⟨fun q => ?_, by rw [same.1]; exact inv.nodup, ?_, fun q => ?_, fun q => ?_, fun q hq a ha => ?_⟩
  · have := inv.holder q
    grind [Pc.holds]
  · rw [same.1]
    refine inv.sorted.imp_of_mem fun {a b} ha hb h => ?_
    rwa [hgen a ha, hgen b hb]
  · rw [same.1]
    by_cases hq : q = p
    · subst hq
      rwa [waits, if_pos rfl]
    · have hok := inv.ok q
      have hwoken : Woken s q → Woken s' q := by
        unfold Woken
        grind
      have htaken : Taken s q → Taken s' q := by
        unfold Taken
        grind
      rw [waits, if_neg hq]
      cases hpcq : (s.waits q).pc <;> simp only [Wait.Ok, hpcq] at hok ⊢ <;> grind
  · have := inv.older q
    grind
  · have := inv.last q
    grind [Pc.holds]

theorem Inv.wait_async (hpc : (s.waits p).pc = .fresh) : Inv (s.wait_async p) := by
  have hok := inv.ok p
  simp only [Wait.Ok, hpc] at hok
  exact inv.call (set_waits _ p · _) ⟨rfl, rfl⟩ le_rfl rfl (.inl ⟨hpc, le_rfl⟩) (.inl ⟨rfl, hok.1, hok.2.2⟩)

theorem Inv.notify_one (hpc : (s.waits p).pc = .fresh) (hwrap : s.generation + 1 < 2 ^ 64) : Inv (s.notify_one p) := by
  have hok := inv.ok p
  simp only [Wait.Ok, hpc] at hok
  have hgen : (s.notify_one p).generation = s.generation + 1 := Nat.mod_eq_of_lt hwrap
  have hle := inv.older p
  exact inv.call (goto_waits _ p · _) ⟨rfl, rfl⟩ (by omega) rfl (.inl ⟨hpc, by dsimp only; omega⟩) hok.1

theorem Inv.poll (hpc : (s.waits p).pc = .suspended) : Inv (s.poll p) := by
  have hok := inv.ok p
  simp only [Wait.Ok, hpc] at hok
  refine inv.call (set_waits _ p · _) ⟨rfl, rfl⟩ le_rfl (by dsimp only; split <;> rfl) (.inr ⟨hpc, rfl⟩) ?_
  cases hn : (s.waits p).notified <;> simp [Wait.Ok] <;> grind

theorem Inv.drop (hpc : (s.waits p).pc = .suspended) : Inv (s.drop p) := by
  have hok := inv.ok p
  simp only [Wait.Ok, hpc] at hok
  refine inv.call (set_waits _ p · _) ⟨rfl, rfl⟩ le_rfl (by dsimp only; split <;> rfl) (.inr ⟨hpc, rfl⟩) ?_
  cases hw : (s.waits p).has_waiter <;> simp [Wait.Ok]
  grind

end

end Condvar

end Performables
