import Oxidizer.Lib.Runs
/-!
# The asynchronous condition variable

A wait releases its mutex at its first poll and puts its waiter into the wait
queue, unless the generation has moved since the wait was made. A notification
moves the generation and then takes one waiter from the queue. Each party is a
call of `notify_one` or one `CondvarWait`; the lock of the wait queue is held
across several steps, and what happens outside of it is a step of its own: the
generation, the waker of a waiter, its flag `active` and the making of the queue.

The mutex is free or held. A waiter is named by its wait, and is in the queue or
not: the index it keeps is the way it is removed.
-/

namespace Performables

open Lib

namespace Condvar

/-- Where a party is. A call of `wake_one` carries the waits that were registered when its notification was made. -/
inductive Pc (ι : Type) where
  | fresh
  /-- a future between two polls -/
  | suspended
  /-- in `poll`, before the generation is read -/
  | check
  /-- before the waker is registered -/
  | register
  /-- before the wait queue is there for certain -/
  | state
  /-- before the lock of the queue in `enqueue_if_needed` -/
  | lock
  /-- with the lock, before the generation is read again -/
  | retry
  /-- with the lock, after it was the same -/
  | enqueue
  /-- with the lock, after it was not -/
  | dequeue
  /-- before the lock of the queue in the `cancel` of a poll -/
  | recancel
  /-- before the mutex is tried -/
  | relock
  /-- returned with the guard -/
  | completed
  | released
  /-- in `drop`, before the lock of the queue in `cancel` -/
  | cancel
  /-- in `wake_one`, before the queue is looked for -/
  | get (registered : ι → Bool)
  /-- before it is looked for under the lock of its making -/
  | init (registered : ι → Bool)
  /-- before the lock of the queue -/
  | pop (registered : ι → Bool)
  /-- with the lock, before `pop_front` -/
  | popping (registered : ι → Bool)
  /-- with the lock, before the waker of the popped waiter is taken -/
  | taking (registered : ι → Bool) (w : ι)
  /-- before the waker is woken, if there was one -/
  | wake (registered : ι → Bool) (w : ι) (waker : Bool)
  /-- returned from `wake_one`, with the waiter that it took from the queue and whether it woke a waker of it -/
  | ended (registered : ι → Bool) (popped : Option (ι × Bool))
  | done

/-- A party with its waiter. `woken` is a wake since the last poll. -/
structure Wait (ι : Type) where
  pc : Pc ι
  generation : Nat
  guard : Bool
  has_waiter : Bool
  notified : Bool
  active : Bool
  waker : Bool
  woken : Bool

/-- The first poll has released the mutex, and the wait has neither completed nor been dropped. -/
def Wait.registered {ι : Type} (t : Wait ι) : Bool :=
  !t.guard && match t.pc with
    | .suspended | .check | .register | .state | .lock | .retry | .enqueue | .dequeue | .recancel | .relock => true
    | _ => false

end Condvar

open Condvar in
structure Condvar (ι : Type) where
  generation : Nat
  mutex : Option ι
  /-- the wait queue has been made -/
  made : Bool
  holder : Option ι
  waiters : List ι
  waits : ι → Wait ι

namespace Condvar
variable {ι : Type} [DecidableEq ι]

def set (s : Condvar ι) (p : ι) (t : Wait ι) : Condvar ι :=
  { s with waits := fun p' => if p' = p then t else s.waits p' }

def goto (s : Condvar ι) (p : ι) (pc : Pc ι) : Condvar ι := s.set p { s.waits p with pc }

def step (s : Condvar ι) (p : ι) : Condvar ι :=
  let t := s.waits p
  match t.pc with
  | .fresh | .suspended | .released | .ended _ _ | .done => s
  | .check =>
    if s.generation = t.generation then s.goto p .register else s.set p { t with pc := .relock, notified := true }
  | .register =>
    s.set p { t with pc := .state, has_waiter := true, active := !t.has_waiter || t.active, waker := true }
  | .state => { s with made := true }.goto p .lock
  | .lock => { s with holder := some p }.goto p .retry
  | .retry => s.goto p (if s.generation = t.generation then .enqueue else .dequeue)
  | .enqueue =>
    { s with waiters := if p ∈ s.waiters then s.waiters else s.waiters ++ [p], holder := none }.goto p .suspended
  | .dequeue =>
    { s with waiters := s.waiters.erase p, holder := none }.set p
      { t with pc := .recancel, has_waiter := false, active := false, waker := false }
  | .recancel =>
    { s with waiters := s.waiters.erase p }.set p { t with pc := .relock, notified := true, active := false, waker := false }
  | .relock =>
    if s.mutex = none then { s with mutex := some p }.set p { t with pc := .completed, has_waiter := false }
    else s.goto p .suspended
  | .completed => { s with mutex := none }.goto p .released
  | .cancel =>
    { s with waiters := s.waiters.erase p }.set p
      { t with pc := if p ∈ s.waiters then .done else .get fun _ => false, waker := false }
  | .get registered => s.goto p (if s.made then .pop registered else .init registered)
  | .init registered => s.goto p (if s.made then .pop registered else .ended registered none)
  | .pop registered => { s with holder := some p }.goto p (.popping registered)
  | .popping registered =>
    match s.waiters with
    | [] => { s with holder := none }.goto p (.ended registered none)
    | w :: waiters =>
      -- a waiter that is no longer active is skipped
      if (s.waits w).active then { s with waiters }.goto p (.taking registered w) else { s with waiters }
  | .taking registered w =>
    ({ s with holder := none }.set w { s.waits w with waker := false }).goto p (.wake registered w (s.waits w).waker)
  | .wake registered w waker =>
    (s.set w { s.waits w with woken := (s.waits w).woken || waker }).goto p (.ended registered (some (w, waker)))

/-- A party can take a step, if the lock that the step needs is free. -/
def Enabled (s : Condvar ι) (p : ι) : Prop :=
  match (s.waits p).pc with
  | .fresh | .suspended | .released | .ended _ _ | .done => False
  | .lock | .recancel | .cancel | .pop _ => s.holder = none
  | _ => True

inductive Action (ι : Type) where
  /-- the mutex is locked and its guard given to `wait_async` -/
  | wait_async (p : ι)
  | poll (p : ι)
  | drop (p : ι)
  | notify_one (p : ι)
  | step (p : ι)

def wait_async (s : Condvar ι) (p : ι) : Condvar ι :=
  { s with mutex := some p }.set p { s.waits p with pc := .suspended, generation := s.generation, guard := true }

def poll (s : Condvar ι) (p : ι) : Condvar ι :=
  let t := s.waits p
  { s with mutex := if t.guard then none else s.mutex }.set p
    { t with pc := if t.notified then .relock else .check, guard := false, woken := false }

/-- A drop begins: a waiter is no longer active, and a guard is dropped. -/
def drop (s : Condvar ι) (p : ι) : Condvar ι :=
  let t := s.waits p
  { s with mutex := if t.guard then none else s.mutex }.set p
    { t with pc := if t.has_waiter then .cancel else .done, guard := false, active := false }

def notify_one (s : Condvar ι) (p : ι) : Condvar ι :=
  { s with generation := (s.generation + 1) % 2 ^ 64 }.goto p (.get fun w => (s.waits w).registered)

def system (ι : Type) [DecidableEq ι] : Lts (Condvar ι) (Action ι) where
  init s := s.generation = 0 ∧ s.mutex = none ∧ s.made = false ∧ s.holder = none ∧ s.waiters = [] ∧
    ∀ p, s.waits p = ⟨.fresh, 0, false, false, false, false, false, false⟩
  step s a s' :=
    match a with
    | .wait_async p => (s.waits p).pc = .fresh ∧ s.mutex = none ∧ s' = s.wait_async p
    | .poll p => (s.waits p).pc = .suspended ∧ s' = s.poll p
    | .drop p => (s.waits p).pc = .suspended ∧ s' = s.drop p
    | .notify_one p => (s.waits p).pc = .fresh ∧ s' = s.notify_one p
    | .step p => s.Enabled p ∧ s' = s.step p

/-! ## What a notification does -/

/-- The waker of the last poll was woken, or is about to be. -/
def Woken (s : Condvar ι) (w : ι) : Prop :=
  (s.waits w).woken = true ∨ ∃ p registered, (s.waits p).pc = .wake registered w true

/-- The wait does not stay: it has seen a notification or is in a poll that will, or it is going to be polled. -/
def Alert (s : Condvar ι) (w : ι) : Prop :=
  (s.waits w).notified = true ∨ Woken s w ∨
    (s.waits w).pc ≠ .suspended ∧ (s.waits w).pc ≠ .enqueue ∧ (s.waits w).generation ≠ s.generation

/-- The wait has completed, was dropped or is ready. -/
def Settled (s : Condvar ι) (w : ι) : Prop := (s.waits w).registered = false ∨ Alert s w

/-- What a call of `notify_one` has done when it is over: if a wait that was registered when it was made has not been made
ready, then the call took the waiter of one that was registered as well, and woke it unless that one was ready. -/
def Delivers (s : Condvar ι) : Prop :=
  ∀ p registered popped, (s.waits p).pc = .ended registered popped → ∀ w₀, registered w₀ = true → Settled s w₀ ∨
    ∃ w waker, popped = some (w, waker) ∧ registered w = true ∧ (waker = true ∨ Settled s w)

/-- No entry of a completed wait is in the queue. -/
def Unlinks (s : Condvar ι) : Prop := ∀ w ∈ s.waiters, (s.waits w).registered = true ∨ (s.waits w).pc = .cancel

/-- A poll does not find the generation moved while its waiter is still in the queue, and the generation does not
wrap around. -/
def Prompt (s : Condvar ι) : Action ι → Prop
  | .step p => (s.waits p).pc = .check → s.generation = (s.waits p).generation ∨ p ∉ s.waiters
  | .notify_one _ => s.generation + 1 < 2 ^ 64
  | _ => True

end Condvar

end Performables
