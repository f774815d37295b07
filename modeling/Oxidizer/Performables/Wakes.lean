import Oxidizer.Performables.Channel
/-!
# Waiters, wakes and credits

The invariant of the channel. A wait queue that somebody is in, or is about to
enter after the second look, is busy. While a side is open and busy, each value
to receive (each free place to send to) is backed by a task of its own: one that
is going to look at the channel for that side, because it was popped, or one
that is going to pop a waiter. While a side is closed and busy, some task has
its `wake_all` before it.
-/

namespace Performables

open QueueState

/-! ## What a task holds -/

namespace Op
variable {ι α : Type}

/-- The wait queue whose lock the task holds. -/
def holds : Op ι α → Option Side
  | .retry call | .enqueue call | .dequeue call => some call.side
  | .popping _ _ side _ _ | .taking _ _ _ side _ _ | .unlocking _ side _ _ => some side
  | _ => none

/-- With the lock taken to enqueue. -/
def marks : Op ι α → Option Side
  | .retry call | .enqueue call | .dequeue call => some call.side
  | _ => none

def enqueues : Op ι α → Option Side
  | .enqueue call => some call.side
  | _ => none

def parks : Op ι α → Option Side
  | .pending call => some call.side
  | _ => none

/-- The queue that the waiter of the task may be in. -/
def waits : Op ι α → Option Side
  | .check call | .register call | .lock call | .retry call | .enqueue call | .dequeue call | .pending call
  | .deactivate call _ | .cancel call _ => some call.side
  | _ => none

def keeps : Op ι α → Bool
  | .lock _ | .retry _ | .enqueue _ | .dequeue _ | .pending _ | .deactivate _ _ | .cancel _ _ => true
  | _ => false

def armed : Op ι α → Bool
  | .lock _ | .retry _ | .enqueue _ | .pending _ => true
  | _ => false

def cancels : Op ι α → Bool
  | .cancel _ _ => true
  | _ => false

/-- The task is going to look at the channel for this side, or to pass on what it was woken for. -/
def looks : Op ι α → Option Side
  | .attempt call _ | .check call | .register call | .lock call | .retry call | .dequeue call | .pending call
  | .deactivate call _ | .cancel call _ | .recheck call _ => some call.side
  | _ => none

/-- The task is going to pop a waiter of this side. -/
def notifies : Op ι α → Option Side
  | .notify side _ | .pop side _ | .popping _ _ side _ _ => some side
  | _ => none

/-- The wakers that were taken and not yet woken. -/
def wakers : Op ι α → List (ι × Nat)
  | .popping _ wakers _ _ _ | .taking _ _ wakers _ _ _ | .unlocking wakers _ _ _ | .wake wakers _ _ => wakers
  | _ => []

def takes : Op ι α → Option ι
  | .taking r _ _ _ _ _ => some r
  | _ => none

/-- The queues with a `wake_all` to come or going on. -/
def sweeps : Op ι α → List Side
  | .popping all _ side sides _ | .taking _ all _ side sides _ => if all then side :: sides else sides
  | .unlocking _ _ sides _ | .wake _ sides _ => sides
  | _ => []

/-- The task keeps the locks it has, and has nobody to wake. -/
def Still (op op' : Op ι α) : Prop :=
  op'.holds = op.holds ∧ op'.marks = op.marks ∧ op.wakers = [] ∧ op.takes = none ∧ op.sweeps = []

theorem Still.of {op op' : Op ι α}
    (h : (op'.holds, op'.marks, op.wakers, op.takes, op.sweeps) = (op.holds, op.marks, [], none, [])) : op.Still op' := by
  simpa [Still] using h

attribute [grind =] waits.eq_def keeps.eq_def cancels.eq_def enqueues.eq_def armed.eq_def parks.eq_def

end Op

/-- One task alone: what it is in, whether a wake for its last poll is on its way, and whether it was just popped. -/
structure Task.Ok {ι α : Type} (t : Task ι α) (queued : Side → Prop) (alert popped : Prop) : Prop where
  listed : ∀ side, queued side → t.op.waits = some side ∧ t.has_waiter = true ∧ t.token = false
  unused : t.op.waits = none → t.has_waiter = false
  kept : t.op.keeps = true → t.has_waiter = true
  active : t.op.waits.isSome = true → t.op.cancels = false → t.has_waiter = true → t.active = true
  looked : t.op.enqueues.isSome = true → t.token = false
  armed : t.op.armed = true → t.waker = some t.polls ∨ alert
  parked : ∀ side, t.op.parks = some side → queued side ∨ alert ∨ popped

variable {ι α : Type} {t : Task ι α}

theorem Task.Ok.mono {queued queued' : Side → Prop} {alert alert' popped popped' : Prop}
    (h : t.Ok queued alert popped) (hq : ∀ side, queued' side ↔ queued side) (ha : alert → alert')
    (hp : popped → popped' ∨ alert') : t.Ok queued' alert' popped' where
  listed side hside := h.listed side ((hq side).mp hside)
  unused := h.unused
  kept := h.kept
  active := h.active
  looked := h.looked
  armed harm := (h.armed harm).imp_right ha
  parked side hpark := by
    have := h.parked side hpark
    have := hq side
    tauto

theorem Task.Ok.away {queued : Side → Prop} {alert popped : Prop} (hop : t.op.waits = none)
    (hw : t.has_waiter = false) (hq : ∀ side, ¬queued side) : t.Ok queued alert popped := by
  refine ⟨fun side h => absurd h (hq side), fun _ => hw, ?_, ?_, ?_, ?_, ?_⟩ <;>
    cases h : t.op <;> simp_all [Op.waits, Op.keeps, Op.enqueues, Op.armed, Op.parks]

/-- The task stands for one value to receive, or one place to send to. -/
def Task.Credit {ι α : Type} (side : Side) (t : Task ι α) : Prop :=
  t.token = true ∧ t.op.looks = some side ∨ t.op.notifies = some side

theorem Task.Credit.of_eq {side : Side} {t' : Task ι α} (h : t.Credit side) (token : t'.token = t.token)
    (looks : t'.op.looks = t.op.looks) (notifies : t'.op.notifies = t.op.notifies) : t'.Credit side := by
  unfold Task.Credit at *
  rwa [token, looks, notifies]

/-- How many calls of a side can go through. -/
def QueueState.resource {α : Type} (s : QueueState α) : Side → Nat
  | .send => s.capacity.elim 0 (· - s.values.length)
  | .receive => s.values.length

namespace Channel
variable {ι α : Type}

def Alert (s : Channel ι α) (p : ι) : Prop :=
  (s.tasks p).woken = true ∨ ∃ p', (p, (s.tasks p).polls) ∈ (s.tasks p').op.wakers

def Popped (s : Channel ι α) (p : ι) : Prop := ∃ p', (s.tasks p').op.takes = some p

def Busy (s : Channel ι α) (side : Side) : Prop :=
  s.waiters side ≠ [] ∨ ∃ p, (s.tasks p).op.enqueues = some side

/-- At least this many tasks have a credit. -/
def Backed (s : Channel ι α) (side : Side) (n : Nat) : Prop :=
  ∃ F : Finset ι, n ≤ F.card ∧ ∀ p ∈ F, (s.tasks p).Credit side

def TaskOk (s : Channel ι α) (p : ι) : Prop := (s.tasks p).Ok (fun side => p ∈ s.waiters side) (s.Alert p) (s.Popped p)

structure Inv (s : Channel ι α) : Prop where
  hold : ∀ side p, s.holder side = some p ↔ (s.tasks p).op.holds = some side
  hint : ∀ side, s.waiters side ≠ [] → s.has_waiters side = true
  mark : ∀ side p, (s.tasks p).op.marks = some side → s.has_waiters side = true
  nodup : ∀ side, (s.waiters side).Nodup
  task : ∀ p, s.TaskOk p
  swept : ∀ side, s.state.is_closed side = true → s.Busy side → ∃ p, side ∈ (s.tasks p).op.sweeps
  backed : ∀ side, s.state.is_closed side = false → s.Busy side → s.Backed side (s.state.resource side)
  bounded : s.Busy .send → s.state.capacity ≠ none

/-! ## Credits change hands -/

variable {s s' : Channel ι α}

theorem Backed.trade {side : Side} {n m : Nat} (lose gain : Finset ι)
    (kept : ∀ p ∉ lose, (s.tasks p).Credit side → (s'.tasks p).Credit side)
    (gained : ∀ p ∈ gain, ¬(s.tasks p).Credit side ∧ (s'.tasks p).Credit side)
    (le : m + lose.card ≤ n + gain.card) (h : s.Backed side n) : s'.Backed side m := by
  classical
  obtain ⟨F, hn, hF⟩ := h
  refine ⟨(F \ lose) ∪ gain, ?_, ?_⟩
  · have hdisj : Disjoint (F \ lose) gain := by
      rw [Finset.disjoint_left]
      intro p hp hg
      exact (gained p hg).1 (hF p (Finset.mem_sdiff.mp hp).1)
    have hcard := Finset.le_card_sdiff lose F
    rw [Finset.card_union_of_disjoint hdisj]
    omega
  · intro p hp
    rcases Finset.mem_union.mp hp with hp | hp
    · obtain ⟨hp, hl⟩ := Finset.mem_sdiff.mp hp
      exact kept p hl (hF p hp)
    · exact (gained p hp).2

theorem Backed.zero (s : Channel ι α) (side : Side) : s.Backed side 0 := ⟨∅, Nat.le_refl _, by simp⟩

theorem Backed.keep {side : Side} {n : Nat}
    (kept : ∀ p, (s.tasks p).Credit side → (s'.tasks p).Credit side) (h : s.Backed side n) : s'.Backed side n :=
  h.trade ∅ ∅ (fun p _ => kept p) (by simp) (by simp)

/-! ## Steps that change one task -/

variable [DecidableEq ι]

@[simp] theorem set_tasks (s : Channel ι α) (p p' : ι) (t : Task ι α) :
    (s.set p t).tasks p' = if p' = p then t else s.tasks p' := rfl

omit [DecidableEq ι] in
theorem Inv.log (inv : s.Inv) (events : List (Event ι α)) : (s.log events).Inv := { inv with }

omit [DecidableEq ι] in
theorem not_complete {state : QueueState α} {side : Side} (h : state.wait_complete side = false) :
    state.is_closed side = false ∧ state.resource side = 0 ∧ (side = .send → state.capacity ≠ none) := by
  cases side
  · cases hc : state.capacity <;>
      simp_all [wait_complete, is_closed, resource, has_send_capacity]
  · simp_all [wait_complete, is_closed, resource]

/-- What is to be shown of a task that moves to `t`: a wake on its way to its last poll is one still. -/
def OkAt (s : Channel ι α) (p : ι) (t : Task ι α) (queued : Side → Prop) : Prop :=
  ∀ alert : Prop, (t.polls = (s.tasks p).polls → t.woken = (s.tasks p).woken → s.Alert p → alert) →
    t.Ok queued alert (s.Popped p)

variable {p : ι} {t : Task ι α}

theorem Inv.advance (inv : s.Inv) (tasks : s'.tasks = (s.set p t).tasks)
    (members : ∀ side p', p' ≠ p → (p' ∈ s'.waiters side ↔ p' ∈ s.waiters side))
    (hold : ∀ side p', s'.holder side = some p' ↔ (s'.tasks p').op.holds = some side)
    (hint : ∀ side, s'.waiters side ≠ [] → s'.has_waiters side = true)
    (mark : ∀ side p', (s'.tasks p').op.marks = some side → s'.has_waiters side = true)
    (nodup : ∀ side, (s'.waiters side).Nodup)
    (wakers : (s.tasks p).op.wakers ⊆ t.op.wakers) (takes : (s.tasks p).op.takes = none)
    (capacity : s'.state.capacity = s.state.capacity)
    (opened : ∀ side, s'.state.is_closed side = false → s.state.is_closed side = false)
    (busy : ∀ side, s'.Busy side → s.Busy side ∨ s'.state.wait_complete side = false)
    (swept : ∀ side, s'.state.is_closed side = true → s'.Busy side → s.Busy side →
      side ∈ t.op.sweeps ∨ s.state.is_closed side = true ∧ side ∉ (s.tasks p).op.sweeps)
    (backed : ∀ side, s'.state.is_closed side = false → s'.Busy side → s.Backed side (s.state.resource side) →
      s'.Backed side (s'.state.resource side))
    (ok : s.OkAt p t fun side => p ∈ s'.waiters side) : s'.Inv := by
  have hother : ∀ p', p' ≠ p → s'.tasks p' = s.tasks p' := fun p' hp' => by simp [tasks, hp']
  have hown : s'.tasks p = t := by simp [tasks]
  have halert : ∀ p', (p' = p → t.polls = (s.tasks p).polls ∧ t.woken = (s.tasks p).woken) →
      s.Alert p' → s'.Alert p' := by
    intro p' hp' h
    have hkeep : (s'.tasks p').polls = (s.tasks p').polls ∧ (s'.tasks p').woken = (s.tasks p').woken := by
      by_cases hpp : p' = p
      · subst hpp
        rw [hown]
        exact hp' rfl
      · simp [hother p' hpp]
    rcases h with h | ⟨r, hr⟩
    · exact .inl (hkeep.2.trans h)
    · refine .inr ⟨r, ?_⟩
      rw [hkeep.1]
      by_cases hrp : r = p
      · subst hrp
        rw [hown]
        exact wakers hr
      · rwa [hother r hrp]
  have hpopped : ∀ p', s.Popped p' → s'.Popped p' := by
    rintro p' ⟨r, hr⟩
    refine ⟨r, ?_⟩
    by_cases hrp : r = p
    · subst hrp
      simp [takes] at hr
    · rwa [hother r hrp]
  refine ⟨hold, hint, mark, nodup, ?_, ?_, ?_, ?_⟩
  · intro p'
    by_cases hp : p' = p
    · subst hp
      have hok := ok (s'.Alert p') (fun h1 h2 => halert p' fun _ => ⟨h1, h2⟩)
      rw [TaskOk, hown]
      exact hok.mono (fun _ => Iff.rfl) id (fun h => .inl (hpopped p' h))
    · rw [TaskOk, hother p' hp]
      exact (inv.task p').mono (fun side => members side p' hp) (halert p' fun h => absurd h hp)
        (fun h => .inl (hpopped p' h))
  · intro side hc hb
    rcases busy side hb with hb' | hb'
    · rcases swept side hc hb hb' with hs | ⟨hs, hno⟩
      · exact ⟨p, by rwa [hown]⟩
      · obtain ⟨r, hr⟩ := inv.swept side hs hb'
        by_cases hrp : r = p
        · exact absurd (hrp ▸ hr) hno
        · exact ⟨r, by rwa [hother r hrp]⟩
    · simp [(not_complete hb').1] at hc
  · intro side hc hb
    rcases busy side hb with hb' | hb'
    · exact backed side hc hb (inv.backed side (opened side hc) hb')
    · rw [(not_complete hb').2.1]
      exact Backed.zero _ _
  · intro hb
    rcases busy .send hb with hb' | hb'
    · rw [capacity]
      exact inv.bounded hb'
    · exact (not_complete hb').2.2 rfl

theorem Inv.moves (inv : s.Inv) {state : QueueState α} {op : Op ι α} (hop : (s.tasks p).op = op)
    (still : op.Still t.op) (capacity : state.capacity = s.state.capacity)
    (opened : ∀ side, state.is_closed side = false → s.state.is_closed side = false)
    (shut : ∀ side, state.is_closed side = true → s.Busy side → side ∈ t.op.sweeps ∨ s.state.is_closed side = true)
    (enqueues : ∀ side, t.op.enqueues = some side → state.wait_complete side = false)
    (backed : ∀ side, state.is_closed side = false → s.Busy side → s.Backed side (s.state.resource side) →
      (s.set p t).Backed side (state.resource side))
    (ok : s.OkAt p t fun side => p ∈ s.waiters side) :
    ({ s with state }.set p t).Inv := by
  subst hop
  obtain ⟨holds, marks, wakers, takes, sweeps⟩ := still
  have hbusy : ∀ side, (s.set p t).Busy side → s.Busy side ∨ state.wait_complete side = false := by
    rintro side (h | ⟨r, hr⟩)
    · exact .inl (.inl h)
    · by_cases hrp : r = p
      · subst hrp
        exact .inr (enqueues side (by simpa using hr))
      · exact .inl (.inr ⟨r, by simpa [hrp] using hr⟩)
  refine inv.advance (p := p) (t := t) rfl (fun _ _ _ => Iff.rfl) ?_ inv.hint ?_ inv.nodup (by simp [wakers]) takes capacity
    opened hbusy (fun side hc _ hb => (shut side hc hb).imp_right fun h => ⟨h, by simp [sweeps]⟩) ?_ ok
  · intro side p'
    have := inv.hold side p'
    by_cases hp : p' = p
    · subst hp
      simpa [Channel.set, holds] using this
    · simpa [Channel.set, hp] using this
  · intro side p' h
    apply inv.mark side p'
    by_cases hp : p' = p
    · subst hp
      simpa [marks] using h
    · simpa [hp] using h
  · intro side hc hb hback
    rcases hbusy side hb with hb' | hb'
    · exact backed side hc hb' hback
    · change Backed _ side (state.resource side)
      rw [(not_complete hb').2.1]
      exact Backed.zero _ _

theorem Inv.local (inv : s.Inv) {op : Op ι α} (hop : (s.tasks p).op = op) (still : op.Still t.op)
    (enqueues : ∀ side, t.op.enqueues = some side → s.state.wait_complete side = false)
    (credit : ∀ side, (s.tasks p).Credit side →
      t.Credit side ∨ s.state.is_closed side = true ∨ s.state.resource side = 0 ∨ ¬s.Busy side)
    (ok : s.OkAt p t fun side => p ∈ s.waiters side) :
    (s.set p t).Inv := by
  refine inv.moves hop still rfl (fun _ h => h) (fun _ h _ => .inr h) enqueues ?_ ok
  intro side hopen hbusy hback
  by_cases hzero : s.state.resource side = 0
  · rw [hzero]
    exact Backed.zero _ _
  · refine hback.keep fun p' hp' => ?_
    rw [set_tasks]
    split
    · next h =>
      subst h
      rcases credit side hp' with h | h | h | h
      · exact h
      · simp [hopen] at h
      · exact absurd h hzero
      · exact absurd hbusy h
    · exact hp'

theorem Inv.goes_on (inv : s.Inv) {op : Op ι α} (hop : (s.tasks p).op = op)
    (still : op.Still t.op)
    (same : (t.op.enqueues, t.token, t.op.looks, t.op.notifies) = (none, (s.tasks p).token, op.looks, op.notifies))
    (ok : s.OkAt p t fun side => p ∈ s.waiters side) :
    (s.set p t).Inv := by
  subst hop
  simp only [Prod.mk.injEq] at same
  obtain ⟨enqueues, token, looks, notifies⟩ := same
  refine inv.local rfl still ?_ (fun side h => .inl (h.of_eq token looks notifies)) ok
  rw [enqueues]
  nofun

end Channel

end Performables
