import Oxidizer.Lib.Runs
import Oxidizer.Lib.Custody
/-!
# Coalescing notifications

`Notify` keeps one word, which says whether a permit is stored or waits are
queued, and a queue behind a lock. The word is changed with and without the lock,
so each access to it is a step, and so is each access to a waiter's `notified`.

A party is one call of `notify_one`, `try_wait`, `wait` or `wait_timeout`, or one
`NotifyWait` from its making to its drop. A notification is named by the call of
`notify_one` that made it, and is followed from place to place: `token` is the
one a wait was given and has not consumed. A wait that times out or is dropped
carries the one it had on, as if it were its own.
-/

namespace Performables

open Lib

namespace Notify

inductive Word where
  | empty
  | permit
  | waiting
deriving DecidableEq

/-- A blocking wait, with a timeout or without, or a future that is polled or only enabled. -/
inductive How where
  | block (timed : Bool)
  | future (poll : Bool)
deriving DecidableEq

def How.blocks : How → Bool
  | .block _ => true
  | .future _ => false

/-- Where a party is. `ok` says whether a wait that notifies has consumed a notification before. -/
inductive Pc (ι : Type) where
  | fresh
  /-- in `notify_one`, before the word is read -/
  | load (n : ι) (ok : Bool)
  /-- before the word is compared and exchanged -/
  | store (n : ι) (seen : Word) (ok : Bool)
  /-- in `notify_waiter`, before the lock -/
  | lock (n : ι) (ok : Bool)
  | pop (n : ι) (ok : Bool)
  /-- a waiter was popped: before the word is stored if the queue is empty -/
  | empties (n w : ι) (ok : Bool)
  /-- before `notified` of the waiter is set -/
  | assign (n w : ι) (ok : Bool)
  | unlock (w : ι) (ok : Bool)
  | wake (w : ι) (ok : Bool)
  /-- there was no waiter: before the lock is given back -/
  | unlock_none (n : ι) (ok : Bool)
  /-- `try_wait` -/
  | try_take
  /-- before the first try for a permit -/
  | take (how : How)
  /-- in `enqueue`, before the lock -/
  | lock_enqueue (how : How)
  | enqueue_take (how : How)
  /-- a permit was there: before `notified` is set -/
  | receive (how : How)
  /-- before the word is compared with `EMPTY` and exchanged for `WAITING` -/
  | announce (how : How)
  | push (how : How)
  | unlock_enqueue (how : How)
  /-- in the loop of a blocking wait, before `notified` is read -/
  | check (timed : Bool)
  | park (timed : Bool)
  /-- before `notified` is cleared -/
  | consume
  /-- a future between its calls -/
  | rest
  /-- in `enable`, before `notified` is read -/
  | enabled (poll : Bool)
  | register
  /-- before `notified` is read after the waker was registered -/
  | recheck
  /-- in `cancel`, before the lock -/
  | lock_cancel (ok : Bool)
  | remove (ok : Bool)
  /-- before the word is stored, the queue being empty now -/
  | empties_cancel (ok : Bool)
  /-- before `notified` is read -/
  | inspect (ok : Bool)
  | unlock_cancel (n : Option ι) (ok : Bool)
  /-- a wait that consumed a notification -/
  | completed
  /-- any other call at its end -/
  | ended
  /-- the queue was not there -/
  | fault

/-- A party with its waiter. -/
structure Call (ι : Type) where
  pc : Pc ι
  notified : Bool
  /-- the waiter is a thread, or else a task with or without its waker -/
  thread : Bool
  waker : Bool
  woken : Bool
  has_waiter : Bool
  received : Bool
  /-- a call of `notify_one` -/
  issued : Bool
  token : Option ι
  consumed : Option ι
  /-- the order of registration -/
  ticket : Nat

end Notify

open Notify in
structure Notify (ι : Type) where
  word : Word
  made : Bool
  holder : Option ι
  queue : List ι
  calls : ι → Performables.Notify.Call ι
  /-- the notification that the permit is from -/
  stored : Option ι
  /-- those that came to a permit already there -/
  merged : List ι
  clock : Nat

namespace Notify
variable {ι : Type} [DecidableEq ι]

def set (s : Notify ι) (p : ι) (t : Call ι) : Notify ι :=
  { s with calls := fun p' => if p' = p then t else s.calls p' }

def goto (s : Notify ι) (p : ι) (pc : Pc ι) : Notify ι := s.set p { s.calls p with pc }

/-- Where a call goes on after it has notified. -/
def Pc.finish : Bool → Pc ι
  | true => .completed
  | false => .ended

/-- Where a read of the word leads in `notify_from`. -/
def Pc.seen (n : ι) (ok : Bool) : Word → Pc ι
  | .waiting => .lock n ok
  | seen => .store n seen ok

/-- A wait consumes the notification it was given. -/
def Call.consume (t : Call ι) (pc : Pc ι) : Call ι := { t with pc, consumed := t.token, token := none }

def step (s : Notify ι) (p : ι) : Notify ι :=
  let t := s.calls p
  match t.pc with
  | .fresh | .rest | .completed | .ended | .fault => s
  | .load n ok => s.goto p (.seen n ok s.word)
  | .store n seen ok =>
    if s.word = seen then
      { s with
        word := .permit
        stored := if seen = Word.permit then s.stored else some n
        merged := if seen = Word.permit then s.merged ++ [n] else s.merged }.goto p (.finish ok)
    else s.goto p (.seen n ok s.word)
  | .lock n ok => if s.made then { s with holder := some p }.goto p (.pop n ok) else s.goto p .fault
  | .pop n ok =>
    match s.queue with
    | w :: queue => { s with queue }.goto p (.empties n w ok)
    | [] => s.goto p (.unlock_none n ok)
  | .empties n w ok => { s with word := if s.queue = [] then .empty else s.word }.goto p (.assign n w ok)
  | .assign n w ok => (s.set w { s.calls w with notified := true, token := some n }).goto p (.unlock w ok)
  | .unlock w ok => { s with holder := none }.goto p (.wake w ok)
  | .wake w ok =>
    (s.set w { s.calls w with
        woken := (s.calls w).woken || (s.calls w).thread || (s.calls w).waker
        waker := false }).goto p (.finish ok)
  | .unlock_none n ok => { s with holder := none }.goto p (.load n ok)
  | .try_take =>
    if s.word = .permit then
      { s with word := .empty, stored := none }.set p { t with pc := .completed, consumed := s.stored }
    else s.goto p .ended
  | .take how =>
    if s.word = .permit then
      { s with word := .empty, stored := none }.set p
        (if how = How.future false then { t with pc := .rest, received := true, token := s.stored }
         else { t with pc := .completed, consumed := s.stored })
    else s.goto p (.lock_enqueue how)
  | .lock_enqueue how =>
    { s with made := true, holder := some p }.set p
      { t with pc := .enqueue_take how, thread := how.blocks }
  | .enqueue_take how =>
    if s.word = .permit then
      { s with word := .empty, stored := none }.set p { t with pc := .receive how, token := s.stored }
    else s.goto p (.announce how)
  | .receive how => s.set p { t with pc := .unlock_enqueue how, notified := true }
  | .announce how =>
    match s.word with
    | .permit => s.goto p (.enqueue_take how)
    | _ => { s with word := .waiting }.goto p (.push how)
  | .push how =>
    { s with queue := s.queue ++ [p], clock := s.clock + 1 }.set p { t with pc := .unlock_enqueue how, ticket := s.clock }
  | .unlock_enqueue how =>
    { s with holder := none }.set p
      { t with
        pc := match how with
          | .block timed => .check timed
          | .future poll => .enabled poll
        has_waiter := true }
  | .check timed => s.goto p (if t.notified then .consume else .park timed)
  | .park timed => s.goto p (.check timed)
  | .consume => s.set p { t.consume (.lock_cancel true) with notified := false }
  | .enabled poll =>
    match poll with
    | true => if t.notified then s.set p (t.consume .completed) else s.goto p .register
    | false => s.goto p .rest
  | .register => s.set p { t with pc := .recheck, waker := true }
  | .recheck => if t.notified then s.set p (t.consume .completed) else s.goto p .rest
  | .lock_cancel ok => if s.made then { s with holder := some p }.goto p (.remove ok) else s.goto p .fault
  | .remove ok =>
    { s with queue := s.queue.erase p }.goto p
      (if p ∈ s.queue ∧ s.queue.erase p = [] then .empties_cancel ok else .inspect ok)
  | .empties_cancel ok => { s with word := .empty }.goto p (.inspect ok)
  | .inspect ok =>
    if t.notified then s.set p { t with pc := .unlock_cancel t.token ok, token := none }
    else s.goto p (.unlock_cancel none ok)
  | .unlock_cancel n ok => { s with holder := none }.goto p (n.elim (.finish ok) (.load · ok))

/-- A party can take a step, if the lock that the step needs is free. -/
def Enabled (s : Notify ι) (p : ι) : Prop :=
  match (s.calls p).pc with
  | .fresh | .rest | .completed | .ended | .fault => False
  | .lock _ _ | .lock_enqueue _ | .lock_cancel _ => s.holder = none
  | _ => True

inductive Action (ι : Type) where
  | notify_one (p : ι)
  /-- `try_wait`, and `wait_timeout` with no time -/
  | try_wait (p : ι)
  | wait (p : ι) (timed : Bool)
  | wait_async (p : ι)
  /-- a poll of a future, or `enable` -/
  | poll (p : ι) (poll : Bool)
  | drop (p : ι)
  /-- the time of a wait is over -/
  | expire (p : ι)
  | step (p : ι)

def poll (s : Notify ι) (p : ι) (poll : Bool) : Notify ι :=
  let t := s.calls p
  if t.received then
    if poll then s.set p (t.consume .completed) else s
  else s.goto p (if t.has_waiter then .enabled poll else .take (.future poll))

def drop (s : Notify ι) (p : ι) : Notify ι :=
  let t := s.calls p
  if t.has_waiter then s.goto p (.lock_cancel false)
  else if t.received then s.set p { t with pc := t.token.elim .ended (.load · false), token := none }
  else s.goto p .ended

def system (ι : Type) [DecidableEq ι] : Lts (Notify ι) (Action ι) where
  init s := s.word = .empty ∧ s.made = false ∧ s.holder = none ∧ s.queue = [] ∧ s.stored = none ∧ s.merged = [] ∧
    s.clock = 0 ∧ ∀ p, s.calls p = ⟨.fresh, false, false, false, false, false, false, false, none, none, 0⟩
  step s a s' :=
    match a with
    | .notify_one p => (s.calls p).pc = .fresh ∧ s' = s.set p { s.calls p with pc := .load p false, issued := true }
    | .try_wait p => (s.calls p).pc = .fresh ∧ s' = s.goto p .try_take
    | .wait p timed => (s.calls p).pc = .fresh ∧ s' = s.goto p (.take (.block timed))
    | .wait_async p => (s.calls p).pc = .fresh ∧ s' = s.goto p .rest
    | .poll p poll => (s.calls p).pc = .rest ∧ s' = s.poll p poll
    | .drop p => (s.calls p).pc = .rest ∧ s' = s.drop p
    | .expire p => (s.calls p).pc = .park true ∧ s' = s.goto p (.lock_cancel false)
    | .step p => s.Enabled p ∧ s' = s.step p

/-! ## Places of a notification -/

inductive Place (ι : Type) where
  /-- with a call that is going to assign or to store it -/
  | carried (p : ι)
  | stored
  | assigned (w : ι)
  | consumed (w : ι)
  | merged (n : ι)
deriving DecidableEq

def Pc.carries : Pc ι → Option ι
  | .load n _ | .store n _ _ | .lock n _ | .pop n _ | .empties n _ _ | .assign n _ _ | .unlock_none n _ => some n
  | .unlock_cancel n _ => n
  | _ => none

def content (s : Notify ι) : Place ι → Option ι
  | .carried p => (s.calls p).pc.carries
  | .stored => s.stored
  | .assigned w => (s.calls w).token
  | .consumed w => (s.calls w).consumed
  | .merged n => if n ∈ s.merged then some n else none

def Waiting (t : Call ι) : Prop :=
  t.notified = false ∧
    match t.pc with
    | .unlock_enqueue _ | .check _ | .park _ | .enabled _ | .register | .recheck | .lock_cancel false => True
    | .rest => t.has_waiter = true
    | _ => False

/-- Notifications are delivered exactly. -/
structure Exact (s : Notify ι) : Prop where
  /-- every notification is in one place: on its way, stored, assigned to a wait, consumed by one, or merged -/
  custody : Custody s.content fun n => (s.calls n).issued = true
  completed : ∀ p, (s.calls p).pc = .completed → (s.calls p).consumed ≠ none ∧ (s.calls p).token = none
  /-- a wait that timed out or was dropped has passed on what it had -/
  ended : ∀ p, (s.calls p).pc = .ended → (s.calls p).consumed = none ∧ (s.calls p).token = none
  /-- a wait is given a notification before all those that were registered later -/
  order : ∀ p n w ok, (s.calls p).pc = .assign n w ok → Waiting (s.calls w) ∧
    ∀ w', Waiting (s.calls w') → w' ≠ w → (s.calls w).ticket < (s.calls w').ticket
  word : s.holder = none → (s.word = .waiting ↔ s.queue ≠ [])
  queued : s.holder = none → ∀ w, w ∈ s.queue ↔ Waiting (s.calls w)
  permit : s.word = .permit ↔ s.stored ≠ none
  sound : ∀ p, (s.calls p).pc ≠ .fault

end Notify

end Performables
