import Oxidizer.Lib.Runs
/-!
# The queue channel

A bounded or unbounded queue behind a lock, and one queue of waiters for each
side. Calls run in tasks: a call that cannot go on waits for its side, and the
steps of the wait are those of `QueueWait` and of the eager wait queue. A
critical section of the channel is a step. The lock of a wait queue is held
across several: what others do meanwhile to the hint `has_waiters`, to the waker
of a waiter and to its flag `active` happens outside of that lock.

A waiter is named by its task, which has one at a time. Its place in the list of
waiters is its `position`, and `queued` says whether it has one. A waker is the
number of the poll that registered it: a wake counts for the task only if it has
not been polled since, so the future may have moved to another task.
-/

namespace Performables

open Lib

inductive Side where
  | send
  | receive
deriving DecidableEq

def Side.other : Side → Side
  | .send => .receive
  | .receive => .send

inductive Call (α : Type) where
  | send (value : α)
  | receive
deriving DecidableEq

def Call.side {α : Type} : Call α → Side
  | .send _ => .send
  | .receive => .receive

/-- What a call returns. A send that fails gives its value back. -/
inductive Outcome (α : Type) where
  | sent
  | received (value : α)
  | full
  | empty
  | closed
deriving DecidableEq

/-! ## The state under the lock -/

structure QueueState (α : Type) where
  values : List α
  capacity : Option Nat
  senders : Nat
  receivers : Nat
  closed : Bool
deriving DecidableEq

namespace QueueState
variable {α : Type}

def send_is_closed (s : QueueState α) : Bool := s.closed || s.receivers == 0

def receive_is_closed (s : QueueState α) : Bool := s.closed || s.senders == 0

def has_send_capacity (s : QueueState α) : Bool := s.capacity.all (s.values.length < ·)

def is_closed (s : QueueState α) : Side → Bool
  | .send => s.send_is_closed
  | .receive => s.receive_is_closed

def try_send (s : QueueState α) (value : α) : Outcome α × QueueState α :=
  if s.send_is_closed then (.closed, s)
  else if !s.has_send_capacity then (.full, s)
  else (.sent, { s with values := s.values ++ [value] })

def try_receive (s : QueueState α) : Outcome α × QueueState α :=
  match s.values with
  | value :: values => (.received value, { s with values })
  | [] => if s.receive_is_closed then (.closed, s) else (.empty, s)

def attempt (s : QueueState α) : Call α → Outcome α × QueueState α
  | .send value => s.try_send value
  | .receive => s.try_receive

/-- `send_wait_complete` and `receive_wait_complete`. -/
def wait_complete (s : QueueState α) : Side → Bool
  | .send => s.send_is_closed || s.has_send_capacity
  | .receive => !s.values.isEmpty || s.receive_is_closed

end QueueState

/-! ## Tasks -/

/-- `try_send` and `try_recv`, `send_async` and `recv_async`, `send` and `recv`. The last try once before they wait. -/
inductive Mode where
  | once
  | wait
  | block
deriving DecidableEq

/-- What follows a notification: the call tries again, or returns; a cancelled one has no outcome. -/
inductive Next (α : Type) where
  | again (call : Call α)
  | finish (outcome : Option (Outcome α))

/-- Where a task is. -/
inductive Op (ι α : Type) where
  | idle
  /-- before `try_send` or `try_receive` -/
  | attempt (call : Call α) (mode : Mode)
  /-- in `QueueWait::poll`, before the first look at the channel -/
  | check (call : Call α)
  /-- before the waker is registered -/
  | register (call : Call α)
  /-- before the lock of the wait queue in `enqueue_if_needed` -/
  | lock (call : Call α)
  /-- with the lock and the hint set, before the second look -/
  | retry (call : Call α)
  /-- with the lock, after the second look said no -/
  | enqueue (call : Call α)
  /-- with the lock, after the second look said yes -/
  | dequeue (call : Call α)
  | pending (call : Call α)
  /-- in the drop of `QueueWait`, before `deactivate` -/
  | deactivate (call : Call α) (next : Next α)
  /-- before the lock of the wait queue in `cancel` -/
  | cancel (call : Call α) (next : Next α)
  /-- not removed: before the look that decides on a hand-over -/
  | recheck (call : Call α) (next : Next α)
  /-- in `wake_one`, before the hint is read -/
  | notify (side : Side) (next : Next α)
  /-- before the lock of the wait queue in `wake_one` -/
  | pop (side : Side) (next : Next α)
  /-- with the lock, before `pop_front`, in `wake_all` if `all` and else in `wake_one` -/
  | popping (all : Bool) (wakers : List (ι × Nat)) (side : Side) (sides : List Side) (next : Next α)
  /-- with the lock, before the waker of a popped waiter is taken -/
  | taking (r : ι) (all : Bool) (wakers : List (ι × Nat)) (side : Side) (sides : List Side) (next : Next α)
  /-- with the lock, before `wake_one` stores the hint -/
  | unlocking (wakers : List (ι × Nat)) (side : Side) (sides : List Side) (next : Next α)
  /-- before the wakers are woken, and `wake_all` on these queues -/
  | wake (wakers : List (ι × Nat)) (sides : List Side) (next : Next α)
  | returned (outcome : Option (Outcome α))

def Next.op {ι α : Type} : Next α → Op ι α
  | .again call => .attempt call .wait
  | .finish outcome => .returned outcome

/-- The call that goes on after a notification. -/
def Next.call {α : Type} : Next α → Option (Call α)
  | .again call => some call
  | .finish _ => none

def Op.call {ι α : Type} : Op ι α → Option (Call α)
  | .attempt call _ | .check call | .register call | .lock call | .retry call | .enqueue call | .dequeue call
  | .pending call | .deactivate call _ | .cancel call _ | .recheck call _ => some call
  | .notify _ next | .pop _ next | .popping _ _ _ _ next | .taking _ _ _ _ _ next | .unlocking _ _ _ next
  | .wake _ _ next => next.call
  | .idle | .returned _ => none

/-- The lock of a wait queue that the next step of a task needs. -/
def Op.locks {ι α : Type} : Op ι α → Option Side
  | .lock call | .cancel call _ => some call.side
  | .pop side _ => some side
  | .wake [] (side :: _) _ => some side
  | _ => none

/-- A task with its waiter. `polls` counts its polls, `woken` is a wake since the last one; `token` marks a waiter
that was popped and has not looked at the channel since. -/
structure Task (ι α : Type) where
  op : Op ι α
  has_waiter : Bool
  active : Bool
  waker : Option Nat
  polls : Nat
  woken : Bool
  token : Bool

/-- What happened, for the order of the calls. -/
inductive Event (ι α : Type) where
  | invoke (p : ι) (call : Call α)
  /-- the critical section that decides the call -/
  | effect (p : ι) (call : Call α) (outcome : Outcome α)
  | respond (p : ι) (outcome : Outcome α)
  /-- the future is dropped -/
  | abandon (p : ι)
  /-- an endpoint closes the channel, or was the last sender -/
  | shut (side : Side)
  /-- the last receiver discards what is buffered -/
  | discard

inductive Endpoint where
  | close
  | clone_sender
  | clone_receiver
  | drop_sender
  | drop_receiver
deriving DecidableEq

structure Channel (ι α : Type) where
  state : QueueState α
  waiters : Side → List ι
  has_waiters : Side → Bool
  holder : Side → Option ι
  tasks : ι → Task ι α
  history : List (Event ι α)

namespace Channel
variable {ι α : Type} [DecidableEq ι]

def set (s : Channel ι α) (p : ι) (task : Task ι α) : Channel ι α :=
  { s with tasks := fun p' => if p' = p then task else s.tasks p' }

def log (s : Channel ι α) (events : List (Event ι α)) : Channel ι α := { s with history := s.history ++ events }

def line (s : Channel ι α) (side : Side) (waiters : List ι) : Channel ι α :=
  { s with waiters := fun side' => if side' = side then waiters else s.waiters side' }

def hint (s : Channel ι α) (side : Side) (has_waiters : Bool) : Channel ι α :=
  { s with has_waiters := fun side' => if side' = side then has_waiters else s.has_waiters side' }

def hold (s : Channel ι α) (side : Side) (holder : Option ι) : Channel ι α :=
  { s with holder := fun side' => if side' = side then holder else s.holder side' }

/-- `take_waker`, as the wakers to wake. -/
def taken (s : Channel ι α) (p : ι) : List (ι × Nat) := ((s.tasks p).waker.map fun waker => (p, waker)).toList

/-- The critical section of `try_send` or `try_receive`, and where the call goes on. -/
def attempted (s : Channel ι α) (p : ι) (t : Task ι α) (call : Call α) (mode : Mode) : Channel ι α :=
  let decided (s : Channel ι α) (outcome : Outcome α) (op : Op ι α) :=
    (s.log [.effect p call outcome]).set p { t with op, token := false }
  let failed (outcome : Outcome α) :=
    match mode with
    | .once => decided s outcome (.returned (some outcome))
    | .wait => s.set p { t with op := .check call, token := false }
    | .block => s.set p { t with op := .attempt call .wait, token := false }
  match s.state.attempt call with
  | (.sent, state) => decided { s with state } .sent (.notify .receive (.finish (some .sent)))
  | (.received value, state) => decided { s with state } (.received value) (.notify .send (.finish (some (.received value))))
  | (.closed, _) => decided s .closed (.returned (some .closed))
  | (.full, _) => failed .full
  | (.empty, _) => failed .empty

def op_step (s : Channel ι α) (p : ι) : Channel ι α :=
  let t := s.tasks p
  match t.op with
  | .idle | .pending _ => s
  | .attempt call mode => s.attempted p t call mode
  | .check call =>
    if s.state.wait_complete call.side then
      -- ready: the wait is dropped, with its waiter if it has one
      s.set p { t with op := if t.has_waiter then .deactivate call (.again call) else .attempt call .wait }
    else s.set p { t with op := .register call }
  | .register call =>
    s.set p { t with op := .lock call, has_waiter := true, active := !t.has_waiter || t.active, waker := some t.polls }
  | .lock call => ((s.hint call.side true).hold call.side (some p)).set p { t with op := .retry call }
  | .retry call =>
    if s.state.wait_complete call.side then s.set p { t with op := .dequeue call }
    else s.set p { t with op := .enqueue call, token := false }
  | .enqueue call =>
    ((s.line call.side (if p ∈ s.waiters call.side then s.waiters call.side else s.waiters call.side ++ [p])).hold
      call.side none).set p { t with op := .pending call }
  | .dequeue call =>
    let waiters := (s.waiters call.side).erase p
    (((s.line call.side waiters).hint call.side (!waiters.isEmpty && s.has_waiters call.side)).hold call.side none).set p
      { t with op := .attempt call .wait, has_waiter := false, active := false, waker := none }
  | .deactivate call next => s.set p { t with op := .cancel call next, active := false }
  | .cancel call next =>
    let waiters := (s.waiters call.side).erase p
    ((s.line call.side waiters).hint call.side (!waiters.isEmpty && s.has_waiters call.side)).set p
      { t with
        op := if p ∈ s.waiters call.side then next.op else .recheck call next
        has_waiter := false
        waker := none }
  | .recheck call next =>
    s.set p { t with op := if s.state.wait_complete call.side then .notify call.side next else next.op, token := false }
  | .notify side next => s.set p { t with op := if s.has_waiters side then .pop side next else next.op }
  | .pop side next => (s.hold side (some p)).set p { t with op := .popping false [] side [] next }
  | .popping all wakers side sides next =>
    match s.waiters side with
    | [] => ((s.hint side false).hold side none).set p { t with op := .wake wakers sides next }
    | r :: waiters =>
      -- a waiter that is no longer active is skipped
      if (s.tasks r).active then
        ((s.line side waiters).set r { s.tasks r with token := true }).set p
          { t with op := .taking r all wakers side sides next }
      else s.line side waiters
  | .taking r all wakers side sides next =>
    (s.set r { s.tasks r with waker := none }).set p
      { t with op :=
          if all then .popping all (wakers ++ s.taken r) side sides next
          else .unlocking (wakers ++ s.taken r) side sides next }
  | .unlocking wakers side sides next =>
    ((s.hint side (!(s.waiters side).isEmpty)).hold side none).set p { t with op := .wake wakers sides next }
  | .wake ((r, poll) :: wakers) sides next =>
    -- a task that was polled since does not count this wake
    (s.set r { s.tasks r with woken := (s.tasks r).woken || poll == (s.tasks r).polls }).set p
      { t with
        op := .wake wakers sides next
        woken := t.woken || (r, poll) == (p, t.polls) }
  | .wake [] (side :: sides) next => (s.hold side (some p)).set p { t with op := .popping true [] side sides next }
  | .wake [] [] next => s.set p { t with op := next.op }
  | .returned outcome => (s.log (outcome.map (.respond p)).toList).set p { t with op := .idle }

def Unused (s : Channel ι α) (side : Side) : Prop := ∀ p call, (s.tasks p).op.call = some call → call.side ≠ side

def waking (s : Channel ι α) (p : ι) (sides : List Side) : Channel ι α :=
  s.set p { s.tasks p with op := .wake [] sides (.finish none) }

/-- The critical section of an operation on the endpoints, with the queues whose waiters it wakes. -/
def endpoint_step (s : Channel ι α) (p : ι) : Endpoint → Channel ι α
  | .close =>
    if s.state.closed then s.waking p []
    else ({ s with state := { s.state with closed := true } }.log [.shut .send, .shut .receive]).waking p [.send, .receive]
  | .clone_sender => { s with state := { s.state with senders := s.state.senders + 1 } }.waking p []
  | .clone_receiver => { s with state := { s.state with receivers := s.state.receivers + 1 } }.waking p []
  | .drop_sender =>
    if s.state.senders = 1 then
      ({ s with state := { s.state with senders := 0 } }.log [.shut .receive]).waking p [.receive]
    else { s with state := { s.state with senders := s.state.senders - 1 } }.waking p []
  | .drop_receiver =>
    if s.state.receivers = 1 then
      ({ s with state := { s.state with receivers := 0, closed := true, values := [] } }.log [.discard]).waking p [.send]
    else { s with state := { s.state with receivers := s.state.receivers - 1 } }.waking p []

/-- An endpoint exists, and no call borrows it if it is the last one of its side. -/
def Allowed (s : Channel ι α) : Endpoint → Prop
  | .close => True
  | .clone_sender => 0 < s.state.senders
  | .clone_receiver => 0 < s.state.receivers
  | .drop_sender => 0 < s.state.senders ∧ (s.state.senders = 1 → s.Unused .send)
  | .drop_receiver => 0 < s.state.receivers ∧ (s.state.receivers = 1 → s.Unused .receive)

/-- A call needs an endpoint of its side. -/
def Connected (s : Channel ι α) : Side → Prop
  | .send => 0 < s.state.senders
  | .receive => 0 < s.state.receivers

inductive Action (ι α : Type) where
  | call (p : ι) (call : Call α) (mode : Mode)
  | endpoint (p : ι) (e : Endpoint)
  | step (p : ι)
  /-- the executor polls a pending future, woken or not -/
  | poll (p : ι)
  | drop (p : ι)

def system (ι α : Type) [DecidableEq ι] : Lts (Channel ι α) (Action ι α) where
  init s := s.state.values = [] ∧ s.state.capacity ≠ some 0 ∧ s.state.senders = 1 ∧ s.state.receivers = 1 ∧
    s.state.closed = false ∧ (∀ side, s.waiters side = []) ∧ (∀ side, s.has_waiters side = false) ∧
    (∀ side, s.holder side = none) ∧ (∀ p, s.tasks p = ⟨.idle, false, false, none, 0, false, false⟩) ∧ s.history = []
  step s a s' :=
    match a with
    | .call p call mode => (s.tasks p).op = .idle ∧ s.Connected call.side ∧
        s' = (s.log [.invoke p call]).set p
          { s.tasks p with op := .attempt call mode, polls := (s.tasks p).polls + 1, woken := false }
    | .endpoint p e => (s.tasks p).op = .idle ∧ s.Allowed e ∧ s' = s.endpoint_step p e
    | .step p => (∀ side, (s.tasks p).op.locks = some side → s.holder side = none) ∧ s' = s.op_step p
    | .poll p => ∃ call, (s.tasks p).op = .pending call ∧
        s' = s.set p { s.tasks p with op := .check call, polls := (s.tasks p).polls + 1, woken := false }
    | .drop p => ∃ call, (s.tasks p).op = .pending call ∧
        s' = (s.log [.abandon p]).set p { s.tasks p with
          op := if (s.tasks p).has_waiter then .deactivate call (.finish none) else .returned none }

end Channel

end Performables
