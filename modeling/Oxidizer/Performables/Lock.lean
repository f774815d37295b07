import Oxidizer.Lib.Runs
/-!
# The asynchronous mutex and read-write lock

Both locks are one word and a wait queue that is made when it is first needed. A
`Mutex` wakes one waiter when it is unlocked, and a waiter that was woken and is
dropped passes its turn on; an `RwLock` wakes them all. `rw` says which lock it is.

The word is modelled by its fields: whether it is held exclusively (`LOCKED` or
`WRITER`), the `WAITERS` bit and the count of readers, of which `READERS` is the
largest that does not reach the bits. Every access to the word is a step, also
those made under the lock of the wait queue, and so is every access to a waiter
that another party may touch. A party is one attempt to acquire the lock, from the
first call to the release of its guard. `writer` and `reading` are who holds the
lock; no step reads them.
-/

namespace Performables

open Lib

namespace Lock

structure Word where
  locked : Bool
  waiters : Bool
  readers : Nat
deriving DecidableEq

/-- Where `try_acquire` is called from: a `try_` method, the first lines of `poll`, or the retry under the queue's lock. -/
inductive Site where
  | once
  | poll
  | retry
deriving DecidableEq

inductive Pc (ι : Type) where
  | fresh
  /-- in `try_acquire`, before the word is loaded -/
  | load (site : Site)
  /-- before the word is compared with `seen` and exchanged -/
  | cas (site : Site) (seen : Word)
  /-- in `poll_registered`, before the waker is registered -/
  | register
  /-- before the wait queue is made, if it is not there -/
  | state
  /-- in `enqueue_if_needed_marked`, before the lock -/
  | lock
  /-- before `WAITERS` is set -/
  | mark
  /-- the retry failed: before the waiter is queued and the lock given back -/
  | push
  /-- the retry succeeded: before the waiter is taken out of the queue -/
  | dequeue
  /-- before `WAITERS` is cleared, the queue being empty -/
  | clear_acquired
  /-- a future between its calls -/
  | rest
  /-- in `cancel_marked`, before the waiter is deactivated -/
  | cancel (acquired : Bool)
  /-- before the lock and the removal from the queue -/
  | remove (acquired : Bool)
  | clear_cancel (acquired removed : Bool)
  /-- before the waker is discarded -/
  | discard (acquired removed : Bool)
  /-- in `drop` of a mutex's future, before the word is loaded -/
  | inspect
  /-- a guard -/
  | held
  /-- in `wake_one_marked` or `wake_all_marked`, before the wait queue is looked up -/
  | find (all : Bool)
  /-- before it is looked up again under the initialization lock -/
  | init (all : Bool)
  | lock_wake (all : Bool)
  /-- before the next waiter is popped -/
  | pop (all : Bool) (wakers : List ι)
  /-- before the waker of an active waiter is taken -/
  | take (all : Bool) (wakers : List ι) (w : ι)
  | clear_wake (wakers : List ι)
  | wake (wakers : List ι)
  | done

/-- A party with its waiter. -/
structure Party (ι : Type) where
  pc : Pc ι
  shared : Bool
  has_waiter : Bool
  active : Bool
  waker : Bool
  /-- its task has been woken since its last poll began -/
  woken : Bool

end Lock

open Lock in
structure Lock (ι : Type) where
  rw : Bool
  /-- `READERS` -/
  max : Nat
  word : Word
  made : Bool
  holder : Option ι
  queue : List ι
  parties : ι → Performables.Lock.Party ι
  writer : Option ι
  reading : List ι

namespace Lock
variable {ι : Type} [DecidableEq ι]

def set (s : Lock ι) (p : ι) (t : Party ι) : Lock ι :=
  { s with parties := fun p' => if p' = p then t else s.parties p' }

def goto (s : Lock ι) (p : ι) (pc : Pc ι) : Lock ι := s.set p { s.parties p with pc }

def acquirable (s : Lock ι) (shared : Bool) (w : Word) : Bool :=
  !w.locked && if shared then w.readers != s.max else w.readers == 0

def acquire (shared : Bool) (w : Word) : Word :=
  if shared then { w with readers := w.readers + 1 } else { w with locked := true }

/-- Where an attempt starts: `try_acquire_write` of a read-write lock does not load the word. -/
def attempt (s : Lock ι) (shared : Bool) (site : Site) : Pc ι :=
  if s.rw && !shared then .cas site ⟨false, false, 0⟩ else .load site

/-- What an attempt goes on with when it has found `current`: `try_acquire_write` tries `WAITERS` once. -/
def retries (s : Lock ι) (shared : Bool) (seen current : Word) : Bool :=
  if s.rw && !shared then seen == ⟨false, false, 0⟩ && current == ⟨false, true, 0⟩ else s.acquirable shared current

def failed : Site → Pc ι
  | .once => .done
  | .poll => .register
  | .retry => .push

def acquired (t : Party ι) : Site → Pc ι
  | .once => .held
  | .poll => if t.has_waiter then .cancel true else .held
  | .retry => .dequeue

def step (s : Lock ι) (p : ι) : Lock ι :=
  let t := s.parties p
  match t.pc with
  | .fresh | .rest | .held | .done => s
  | .load site => s.goto p (if s.acquirable t.shared s.word then .cas site s.word else failed site)
  | .cas site seen =>
    if s.word = seen then
      { s with
        word := acquire t.shared s.word
        writer := if t.shared then s.writer else some p
        reading := if t.shared then p :: s.reading else s.reading }.goto p (acquired t site)
    else s.goto p (if s.retries t.shared seen s.word then .cas site s.word else failed site)
  | .register => s.set p { t with pc := .state, has_waiter := true, active := !t.has_waiter || t.active, waker := true }
  | .state => { s with made := true }.goto p .lock
  | .lock => { s with holder := some p }.goto p .mark
  | .mark => { s with word := { s.word with waiters := true } }.goto p (s.attempt t.shared .retry)
  | .push => { s with queue := if p ∈ s.queue then s.queue else s.queue ++ [p], holder := none }.goto p .rest
  | .dequeue =>
    { s with
      queue := s.queue.erase p
      holder := if s.queue.erase p = [] then s.holder else none }.set p
      { t with pc := if s.queue.erase p = [] then .clear_acquired else .held, has_waiter := false, active := false,
               waker := false }
  | .clear_acquired => { s with word := { s.word with waiters := false }, holder := none }.goto p .held
  | .cancel acquired => s.set p { t with pc := .remove acquired, active := false }
  | .remove acquired =>
    { s with
      queue := s.queue.erase p
      holder := if s.queue.erase p = [] then some p else none }.goto p
      (if s.queue.erase p = [] then .clear_cancel acquired (decide (p ∈ s.queue)) else .discard acquired (decide (p ∈ s.queue)))
  | .clear_cancel acquired removed =>
    { s with word := { s.word with waiters := false }, holder := none }.goto p (.discard acquired removed)
  | .discard acquired removed =>
    s.set p { t with pc := if acquired then .held else if removed || s.rw then .done else .inspect, waker := false,
                     has_waiter := !acquired && !(removed || s.rw) }
  | .inspect => s.set p { t with pc := if s.word.locked then .done else .find false, has_waiter := false }
  | .find all => s.goto p (if s.made then .lock_wake all else .init all)
  | .init all =>
    if s.made then s.goto p (.lock_wake all)
    else { s with word := { s.word with waiters := false } }.goto p .done
  | .lock_wake all => { s with holder := some p }.goto p (.pop all [])
  | .pop all wakers =>
    match s.queue with
    | [] => s.goto p (.clear_wake wakers)
    | w :: queue =>
      -- a waiter that is no longer active is skipped
      if (s.parties w).active then { s with queue }.goto p (.take all wakers w) else { s with queue }
  | .take all wakers w =>
    let taken := if (s.parties w).waker then wakers ++ [w] else wakers
    let s := s.set w { s.parties w with waker := false }
    if all then s.goto p (.pop all taken)
    else if s.queue = [] then s.goto p (.clear_wake taken)
    else { s with holder := none }.goto p (.wake taken)
  | .clear_wake wakers => { s with word := { s.word with waiters := false }, holder := none }.goto p (.wake wakers)
  | .wake [] => s.goto p .done
  | .wake (w :: wakers) => (s.set w { s.parties w with woken := true }).goto p (.wake wakers)

/-- A party can take a step, if the lock that the step needs is free. -/
def Enabled (s : Lock ι) (p : ι) : Prop :=
  match (s.parties p).pc with
  | .fresh | .rest | .held | .done => False
  | .lock | .remove _ | .lock_wake _ => s.holder = none
  | _ => True

inductive Action (ι : Type) where
  /-- `try_lock`, `try_read` or `try_write` -/
  | try_acquire (p : ι) (shared : Bool)
  /-- a future is made -/
  | future (p : ι) (shared : Bool)
  | poll (p : ι)
  | drop (p : ι)
  | release (p : ι)
  | step (p : ι)

def try_acquire (s : Lock ι) (p : ι) (shared : Bool) : Lock ι :=
  s.set p { s.parties p with pc := s.attempt shared .once, shared }

def future (s : Lock ι) (p : ι) (shared : Bool) : Lock ι := s.set p { s.parties p with pc := .rest, shared }

def poll (s : Lock ι) (p : ι) : Lock ι :=
  let t := s.parties p
  s.set p { t with pc := s.attempt t.shared .poll, woken := false }

def drop (s : Lock ι) (p : ι) : Lock ι :=
  let t := s.parties p
  s.goto p (if t.has_waiter then .cancel false else .done)

/-- A guard is dropped: `unlock`, `unlock_read` or `unlock_write` up to the waking of waiters. -/
def release (s : Lock ι) (p : ι) : Lock ι :=
  if (s.parties p).shared then
    { s with word := { s.word with readers := s.word.readers - 1 }, reading := s.reading.erase p }.goto p
      (if s.word.readers = 1 ∧ s.word.waiters then .find s.rw else .done)
  else
    { s with word := { s.word with locked := false }, writer := none }.goto p
      (if s.word.waiters then .find s.rw else .done)

def system (ι : Type) [DecidableEq ι] : Lts (Lock ι) (Action ι) where
  init s := 0 < s.max ∧ s.word = ⟨false, false, 0⟩ ∧ s.made = false ∧ s.holder = none ∧ s.queue = [] ∧ s.writer = none ∧
    s.reading = [] ∧ ∀ p, s.parties p = ⟨.fresh, false, false, true, false, false⟩
  step s a s' :=
    match a with
    | .try_acquire p shared => (s.parties p).pc = .fresh ∧ (shared = true → s.rw = true) ∧ s' = s.try_acquire p shared
    | .future p shared => (s.parties p).pc = .fresh ∧ (shared = true → s.rw = true) ∧ s' = s.future p shared
    | .poll p => (s.parties p).pc = .rest ∧ s' = s.poll p
    | .drop p => (s.parties p).pc = .rest ∧ s' = s.drop p
    | .release p => (s.parties p).pc = .held ∧ s' = s.release p
    | .step p => s.Enabled p ∧ s' = s.step p

/-! ## What the locks promise -/

/-- No operation is in progress and every wake that was delivered has been polled. -/
def Quiet (s : Lock ι) : Prop :=
  ∀ p, match (s.parties p).pc with
    | .fresh | .held | .done => True
    | .rest => (s.parties p).woken = false
    | _ => False

def Free (s : Lock ι) : Prop := s.word.locked = false ∧ s.word.readers = 0

structure Sound (s : Lock ι) : Prop where
  /-- an exclusive guard is the only guard -/
  exclusive : ∀ p q, (s.parties p).pc = .held → (s.parties p).shared = false → (s.parties q).pc = .held → q = p
  /-- the count of readers stays below the bits -/
  readers : s.word.readers ≤ s.max
  /-- no acquirer is stranded -/
  free : Quiet s → Free s → s.queue = []
  waiters : Quiet s → (s.word.waiters = true ↔ s.queue ≠ [])

end Lock

end Performables
