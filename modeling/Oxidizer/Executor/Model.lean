import Oxidizer.Lib.Intrusive
import Oxidizer.Lib.Runs
/-!
# The single-threaded executor: the code

A translation of the executor, its tasks and their wakers, as a system of one
owner thread and any number of threads that call wakers. A step is one atomic
operation on shared memory, or a piece of owner code between two of them or
two calls into foreign code. Foreign code on the owner thread (futures, their
destructors, completion targets, hooks) may at any point add tasks, request
shutdown and call wakers, and returns when it likes.

A task is known by its number, and the fields of the tasks are maps from these
numbers; the completion target of an `add` has the number its task gets.
Cloning and dropping wakers moves reference counts only, and a task has
wakers once it has been polled: from then on a waker call may begin at any
time. An allocation may be freed once nothing holds the task. `pending` is the
list that the links of `chain` should form. The parent waker, telemetry and
inspection do not call back. Left out: overflow of the counters, the poll
count in reports, and the drop of an executor that unwinds.
-/

namespace Executor

open Lib

abbrev TaskId := Nat

/-- `schedule_state`: 0, `TASK_ACTIVE`, `TASK_ACTIVE_LOCAL`, `TASK_ACTIVE_REMOTE`. -/
inductive ScheduleState where
  | retired
  | active
  | active_local
  | active_remote
deriving DecidableEq

/-- A cause without an error, one of a contained panic, or an error of the owner's. -/
inductive ShutdownCause where
  | default
  | panic
  | error (n : Nat)
deriving DecidableEq

inductive PanicPolicy where
  | shutdown
  | ignore
deriving DecidableEq

inductive CycleOutcome where
  | again
  | suspend
  | shutdown (cause : ShutdownCause)
deriving DecidableEq

inductive TerminalOutcome where
  | completed
  | panicked (cause : Option ShutdownCause)
  | cancelled (cause : ShutdownCause)
deriving DecidableEq

/-- What has happened to a task and its completion target. -/
inductive TaskEvent where
  | polled
  | future_dropped
  /-- The payload was freed with the allocation, on whatever thread let go of it. -/
  | reclaimed
  | told (outcome : TerminalOutcome)
deriving DecidableEq

/-- Whether the future and the completion target are still there. -/
structure Payload where
  future : Bool
  result_target : Bool
deriving DecidableEq

inductive Site where
  /-- "attempted to poll a task whose future was already dropped" -/
  | poll_finished
  /-- "the result target is present until the task enters a terminal state" -/
  | result_target
  /-- "the task remains active until its poll returns" -/
  | stays_active
  /-- "completed task count cannot exceed live task count" -/
  | live_count
  /-- "a task may be linked only once" -/
  | linked_once
  /-- "remote wakes are drained by their registered executor owner" -/
  | drained_by_owner
  /-- "active tasks are drained at the end of each cycle" -/
  | active_drained
  /-- "active tasks are drained before deciding the next cycle" -/
  | deciding
  /-- The collections are empty where a shutdown is found complete. -/
  | shutdown_complete
  /-- "Executor::execute_cycle cannot be called reentrantly" -/
  | reentrant
deriving DecidableEq

/-- Where a waker call on the owner thread is. -/
inductive LocalPc where
  | begin_notification
  | enqueue
  | wake_parent
deriving DecidableEq

/-- Where a waker call on another thread is. -/
inductive RemotePc where
  | begin_notification
  | try_send
  | clear_notification
  | swap_pending
  | wake_parent
deriving DecidableEq

structure RemoteCall where
  id : Nat
  task : TaskId
  pc : RemotePc
deriving DecidableEq

/-- A call made by foreign code on the owner thread. -/
inductive OwnerCall where
  /-- In `add_task`, inside the `into_future` of the caller. -/
  | into_future (target : TaskId)
  /-- In `add_task`, inside a completion target that was refused or the hook of a created task. -/
  | hook
  | wake (task : TaskId) (pc : LocalPc)
deriving DecidableEq

/-- Why a task ends, and what the executor goes on with. -/
inductive Ending where
  | ready (linked : Bool)
  | panicked (linked : Bool)
  | aborted (cause : ShutdownCause)
  | cancelled (cause : ShutdownCause) (exit : Bool)
deriving DecidableEq

/-- Where the executor is. `exit` tells `Executor::drop` from a cycle. -/
inductive Phase where
  | idle
  | accept_new_tasks
  | drain_swap
  | drain_recv
  | append_wakes
  | clear_notifications (todo : List TaskId)
  | poll_active_tasks
  /-- Inside the `poll` of a future. -/
  | polling (task : TaskId) (linked : Bool)
  /-- Inside the destructor of a future. -/
  | dropping (task : TaskId) (ending : Ending)
  /-- Inside a completion target. -/
  | telling (task : TaskId) (ending : Ending)
  | cancel_if_shutting_down
  | close (cause : ShutdownCause) (exit : Bool)
  | discard (cause : ShutdownCause) (exit : Bool)
  | clear_pending (cause : ShutdownCause) (exit : Bool)
  | collect (cause : ShutdownCause) (exit : Bool)
  | take_pending (cause : ShutdownCause) (exit : Bool)
  | abort_prepared (cause : ShutdownCause) (exit : Bool)
  | cycle_outcome
  | finish_cycle
deriving DecidableEq

structure World where
  /- tasks -/
  state : TaskId → ScheduleState
  payload : TaskId → Option Payload
  poll_count : TaskId → Nat
  /- the executor -/
  new_tasks : List TaskId
  active : List TaskId
  chain : Intrusive.Chain TaskId
  task_count : Nat
  cause : Option ShutdownCause
  panic_policy : PanicPolicy
  /- the context of the owner thread -/
  owner : Bool
  awakened : List TaskId
  executing : Bool
  /- shared with other threads -/
  remote_wakes : List TaskId
  closed : Bool
  remote_wakes_pending : Bool
  /- control: the executor, the calls of foreign code on its thread above and below it, other threads -/
  phase : Phase
  above : List OwnerCall
  below : List OwnerCall
  calls : List RemoteCall
  /- what has happened -/
  next : TaskId
  history : TaskId → List TaskEvent
  woken : TaskId → Bool
  pending : List TaskId
  polled : List TaskId
  outcome : Option CycleOutcome
  parent_woken : Bool
  fault : Option Site

/-- A new executor, registered on its thread. -/
def World.new (policy : PanicPolicy) : World where
  state _ := .retired
  payload _ := none
  poll_count _ := 0
  new_tasks := []
  active := []
  chain := .empty
  task_count := 0
  cause := none
  panic_policy := policy
  owner := true
  awakened := []
  executing := false
  remote_wakes := []
  closed := false
  remote_wakes_pending := false
  phase := .idle
  above := []
  below := []
  calls := []
  next := 0
  history _ := []
  woken _ := false
  pending := []
  polled := []
  outcome := none
  parent_woken := false
  fault := none

namespace World

variable (w : World)

def check (ok : Bool) (site : Site) : World := if ok then w else { w with fault := some site }

def goto (phase : Phase) : World := { w with phase }

def wake_parent : World := { w with parent_woken := true }

/-! ## The wake signal -/

/-- `begin_notification`: the state, and whether the caller has to schedule the task. -/
def begin_notification (t : TaskId) (notification : ScheduleState) : World × Bool :=
  match w.state t with
  | .retired => (w, false)
  | .active =>
    ({ w with state := Function.update w.state t notification, woken := Function.update w.woken t true }, true)
  | .active_local | .active_remote => ({ w with woken := Function.update w.woken t true }, false)

def clear_notification (t : TaskId) : World :=
  if w.state t = .retired then w else { w with state := Function.update w.state t .active }

def retire (t : TaskId) : World :=
  { w with
    state := Function.update w.state t .retired
    awakened := if w.state t = .active_local ∧ w.owner then w.awakened.filter (· ≠ t) else w.awakened }

/-- The next step of a waker call on the owner thread; `rest` are the calls below it. -/
def wake_local (t : TaskId) (rest : List OwnerCall) : LocalPc → World
  | .begin_notification =>
    let r := w.begin_notification t .active_local
    { r.1 with above := if r.2 then .wake t .enqueue :: rest else rest }
  | .enqueue =>
    if w.owner then
      { w with
        awakened := w.awakened ++ [t]
        above := if w.executing then rest else .wake t .wake_parent :: rest }
    else { w.clear_notification t with above := .wake t .wake_parent :: rest }
  | .wake_parent => { w.wake_parent with above := rest }

def set_pc (id : Nat) (pc : RemotePc) : World :=
  { w with calls := w.calls.map fun c => if c.id = id then { c with pc } else c }

def finish_call (id : Nat) : World := { w with calls := w.calls.filter fun c => c.id ≠ id }

/-- The next step of a waker call on another thread. -/
def wake_remote (c : RemoteCall) : World :=
  match c.pc with
  | .begin_notification =>
    let r := w.begin_notification c.task .active_remote
    if r.2 then r.1.set_pc c.id .try_send else r.1.finish_call c.id
  | .try_send =>
    if w.closed then w.set_pc c.id .clear_notification
    else { w.set_pc c.id .swap_pending with remote_wakes := w.remote_wakes ++ [c.task] }
  | .clear_notification => (w.clear_notification c.task).finish_call c.id
  | .swap_pending =>
    let w' := if w.remote_wakes_pending then w.finish_call c.id else w.set_pc c.id .wake_parent
    { w' with remote_wakes_pending := true }
  | .wake_parent => w.wake_parent.finish_call c.id

/-! ## Adding tasks -/

def tell (t : TaskId) (outcome : TerminalOutcome) : World :=
  { w with history := Function.update w.history t (w.history t ++ [.told outcome]) }

/-- `add_task` up to `into_future`, or to the refused completion target. -/
def add_task : World :=
  let w' := { w with next := w.next + 1 }
  match w.cause with
  | some cause => { w'.tell w.next (.cancelled cause) with above := .hook :: w.above }
  | none => { w' with above := .into_future w.next :: w.above }

def register_task (t : TaskId) : World :=
  { w with
    state := Function.update w.state t .active
    payload := Function.update w.payload t (some ⟨true, true⟩)
    new_tasks := w.new_tasks ++ [t]
    task_count := w.task_count + 1 }

def into_future_returns (t : TaskId) (rest : List OwnerCall) : World :=
  match w.cause with
  | some cause => { w.tell t (.cancelled cause) with above := .hook :: rest }
  | none => { w.register_task t with above := .hook :: rest }

def trigger (cause : ShutdownCause) : World :=
  match w.cause with
  | some _ => w
  | none => { w.wake_parent with cause := some cause }

/-! ## Ending a task -/

def take_target (t : TaskId) : World :=
  match w.payload t with
  | some p =>
    { w with payload := Function.update w.payload t (some { p with result_target := false }) }.check p.result_target
      .result_target
  | none => w.check false .result_target

def destroy_pinned (t : TaskId) : World :=
  match w.payload t with
  | some p =>
    if p.future then
      { w with
        payload := Function.update w.payload t (some { p with future := false })
        history := Function.update w.history t (w.history t ++ [.future_dropped]) }
    else w
  | none => w

/-- What is left of the payload goes, and with it a future that is still there. -/
def retire_payload (t : TaskId) : World :=
  let w := w.destroy_pinned t
  { w with payload := Function.update w.payload t none }

def decrement_task_count (count : Nat) : World :=
  { w with task_count := w.task_count - count }.check (count ≤ w.task_count) .live_count

def insert_pending (t : TaskId) : World :=
  { w with chain := w.chain.insert t, pending := w.pending ++ [t] }.check (!(w.chain.links t).linked) .linked_once

def remove_pending (t : TaskId) : World :=
  { w with chain := (w.chain.remove t).2, pending := w.pending.erase t }

def pop_active : World := { w with active := w.active.tail }.check (!w.active.isEmpty) .stays_active

/-- What the executor does once a task has ended. -/
def after (t : TaskId) : Ending → World
  | .ready linked | .panicked linked =>
    let w := w.pop_active
    ((if linked then w.remove_pending t else w).decrement_task_count 1).goto .poll_active_tasks
  | .aborted _ =>
    let w := (w.decrement_task_count 1).remove_pending t
    { w with active := w.active.tail }.goto .poll_active_tasks
  | .cancelled cause exit => w.goto (.abort_prepared cause exit)

/-- `Task::abort` up to the destructor of the future. -/
def abort (t : TaskId) (ending : Ending) : World :=
  let w := w.retire t
  match w.payload t with
  | some _ => (w.take_target t).goto (.dropping t ending)
  | none => w.after t ending

/-- `finish_panicked` once the future is gone. -/
def finish_panicked (t : TaskId) (linked : Bool) : World :=
  let w := w.retire_payload t
  let w := match w.panic_policy with
    | .shutdown => { w with cause := w.cause.or (some .panic) }
    | .ignore => w
  (w.tell t (.panicked w.cause)).goto (.telling t (.panicked linked))

/-- The destructor of a future has returned, or has panicked. -/
def dropped (t : TaskId) (ending : Ending) (panics : Bool) : World :=
  let w := w.destroy_pinned t
  match ending with
  | .ready linked =>
    if panics then ((w.take_target t).retire t).finish_panicked t linked
    else ((((w.retire t).take_target t).retire_payload t).tell t .completed).goto (.telling t (.ready linked))
  | .panicked linked => w.finish_panicked t linked
  | .aborted cause => ((w.retire_payload t).tell t (.cancelled cause)).goto (.telling t ending)
  | .cancelled cause _ => ((w.retire_payload t).tell t (.cancelled cause)).goto (.telling t ending)

/-! ## Polling -/

/-- `Task::poll` up to the code of the future. -/
def poll (t : TaskId) : World :=
  let polling : World :=
    { w with
      poll_count := Function.update w.poll_count t (w.poll_count t + 1)
      woken := Function.update w.woken t false
      history := Function.update w.history t (w.history t ++ [.polled])
      polled := w.polled ++ [t]
      phase := .polling t (w.chain.links t).linked }
  polling.check ((w.payload t).any Payload.future) .poll_finished

inductive PollResult where
  | pending
  | ready
  | panic
deriving DecidableEq

/-- The poll of a future returns, or panics. -/
def poll_returns (t : TaskId) (linked : Bool) : PollResult → World
  | .pending =>
    let w := w.pop_active
    (if linked then w else w.insert_pending t).goto .poll_active_tasks
  | .ready => w.goto (.dropping t (.ready linked))
  | .panic => ((w.take_target t).retire t).goto (.dropping t (.panicked linked))

/-! ## A cycle -/

def accept_new_tasks : World :=
  if w.new_tasks.isEmpty then w.goto .drain_swap
  else ({ w with active := w.new_tasks, new_tasks := w.active }.check w.active.isEmpty .active_drained).goto .drain_swap

/-- The first step of `drain_remote_wakes`. -/
def drain_swap : World :=
  { w with
    remote_wakes_pending := false
    phase := if w.remote_wakes_pending then .drain_recv else .append_wakes }

def drain_recv : World :=
  match w.remote_wakes with
  | [] => w.goto .append_wakes
  | t :: rest =>
    let w := { w with remote_wakes := rest }
    -- `promote_remote_notification`
    if w.state t = .active_remote then
      { w with
        state := Function.update w.state t .active_local
        awakened := w.awakened ++ [t] }.check w.owner .drained_by_owner
    else w

def append_wakes : World :=
  if w.owner then
    { w with active := w.active ++ w.awakened, awakened := [], phase := .clear_notifications w.awakened }
  else w.goto (.clear_notifications [])

def clear_notifications : List TaskId → World
  | [] => w.goto .poll_active_tasks
  | t :: todo => (w.clear_notification t).goto (.clear_notifications todo)

def poll_active_tasks : World :=
  match w.active with
  | [] => w.goto .cancel_if_shutting_down
  | t :: _ =>
    match w.cause with
    | some cause => w.abort t (.aborted cause)
    | none => w.poll t

/-- The rest of `prepare_task_abort` before the pending list is emptied. -/
def collect (cause : ShutdownCause) (exit : Bool) : World :=
  let w := if w.owner then { w with awakened := [] } else w
  let w := w.active.foldl remove_pending w
  { w with active := w.active ++ w.new_tasks, new_tasks := [], phase := .take_pending cause exit }

def take_pending (cause : ShutdownCause) (exit : Bool) : World :=
  match w.chain.pop_front with
  | (some t, chain) => { w with chain, pending := w.pending.tail, active := w.active ++ [t] }
  | (none, chain) => ({ w with chain }.decrement_task_count w.active.length).goto (.abort_prepared cause exit)

/-- `executor_context::unregister`, at the end of `Executor::drop`. -/
def unregister : World :=
  { w with owner := false, awakened := [], executing := false, phase := .idle, above := w.below, below := [] }.check
    (w.new_tasks.isEmpty && w.cause.isSome && w.task_count == 0) .shutdown_complete

def abort_prepared (cause : ShutdownCause) (exit : Bool) : World :=
  match w.active with
  | [] => if exit then w.unregister else w.goto .cycle_outcome
  | t :: rest => { w with active := rest }.abort t (.cancelled cause exit)

def has_work_to_do : Bool :=
  !w.new_tasks.isEmpty || (w.owner && !w.awakened.isEmpty) || w.remote_wakes_pending

def cycle_outcome : World :=
  let outcome := match w.cause with
    | some cause => if w.task_count = 0 then .shutdown cause else if w.has_work_to_do then .again else .suspend
    | none => if w.has_work_to_do then .again else .suspend
  let drained := w.cause.isNone || (w.chain.head.isNone && w.new_tasks.isEmpty)
  ({ w with outcome := some outcome, parent_woken := false, phase := .finish_cycle }.check w.active.isEmpty
    .deciding).check drained .shutdown_complete

/-- The drop of the `CycleGuard`: back to whoever called `execute_cycle`. -/
def finish_cycle : World :=
  { w with executing := false, phase := .idle, above := w.below, below := [] }

def start_cycle : World :=
  { w with executing := true, polled := [], phase := .accept_new_tasks, below := w.above, above := [] }.check
    (!w.executing) .reentrant

/-- `Executor::drop` up to `prepare_task_abort`. -/
def drop_executor : World :=
  let cause := w.cause.getD .default
  { w with cause := some cause, phase := .close cause true, below := w.above, above := [] }

/-- The next step of the executor's own code. -/
def run_phase : Option World :=
  match w.phase with
  | .idle | .polling _ _ | .dropping _ _ | .telling _ _ => none
  | .accept_new_tasks => some w.accept_new_tasks
  | .drain_swap => some w.drain_swap
  | .drain_recv => some w.drain_recv
  | .append_wakes => some w.append_wakes
  | .clear_notifications todo => some (w.clear_notifications todo)
  | .poll_active_tasks => some w.poll_active_tasks
  | .cancel_if_shutting_down =>
    match w.cause with
    | some cause => some (w.goto (.close cause false))
    | none => some (w.goto .cycle_outcome)
  | .close cause exit => some { w with closed := true, phase := .discard cause exit }
  | .discard cause exit =>
    match w.remote_wakes with
    | [] => some (w.goto (.clear_pending cause exit))
    | _ :: rest => some { w with remote_wakes := rest }
  | .clear_pending cause exit => some { w with remote_wakes_pending := false, phase := .collect cause exit }
  | .collect cause exit => some (w.collect cause exit)
  | .take_pending cause exit => some (w.take_pending cause exit)
  | .abort_prepared cause exit => some (w.abort_prepared cause exit)
  | .cycle_outcome => some w.cycle_outcome
  | .finish_cycle => some w.finish_cycle

/-! ## The system -/

/-- Foreign code is running on the owner thread. -/
def foreign : Bool :=
  match w.above with
  | [] =>
    match w.phase with
    | .idle | .polling _ _ | .dropping _ _ | .telling _ _ => true
    | _ => false
  | .wake _ _ :: _ => false
  | _ :: _ => true

def held (t : TaskId) : Bool :=
  w.new_tasks.contains t || w.active.contains t || (w.chain.links t).linked || w.awakened.contains t ||
    w.remote_wakes.contains t || (w.calls.any fun c => c.task == t) ||
    ((w.above ++ w.below).any fun c => match c with | .wake s _ => s == t | _ => false) ||
    match w.phase with
    | .polling s _ | .dropping s _ | .telling s _ => s == t
    | .clear_notifications todo => todo.contains t
    | _ => false

/-- The last reference goes: the allocation is freed, and a payload that is still there with it. -/
def reclaim (t : TaskId) : World :=
  let w := { w with state := Function.update w.state t .retired }
  match w.payload t with
  | some _ =>
    { w with
      payload := Function.update w.payload t none
      history := Function.update w.history t (w.history t ++ [.reclaimed]) }
  | none => w

end World

inductive Action where
  /-- Foreign code on the owner thread. -/
  | add
  | trigger (cause : ShutdownCause)
  | wake (task : TaskId)
  | start_cycle
  | drop_executor
  /-- A call into foreign code returns. -/
  | returns
  | poll_returns (result : World.PollResult)
  | drop_returns (panics : Bool)
  | tell_returns
  /-- The next step of the owner thread in the executor's own code. -/
  | run
  /-- Waker calls on other threads. -/
  | call (id : Nat) (task : TaskId)
  | remote (id : Nat)
  | reclaim (task : TaskId)
deriving DecidableEq

def World.step (w : World) : Action → Option World
  | .add => if w.foreign then some w.add_task else none
  | .trigger cause => if w.foreign then some (w.trigger cause) else none
  | .wake t =>
    if w.foreign ∧ w.owner ∧ 0 < w.poll_count t then some { w with above := .wake t .begin_notification :: w.above } else none
  | .start_cycle => if w.foreign ∧ w.owner ∧ w.phase = .idle then some w.start_cycle else none
  | .drop_executor => if w.foreign ∧ w.owner ∧ w.phase = .idle then some w.drop_executor else none
  | .returns =>
    match w.above with
    | .into_future t :: rest => some (w.into_future_returns t rest)
    | .hook :: rest => some { w with above := rest }
    | _ => none
  | .poll_returns result =>
    match w.phase, w.above with
    | .polling t linked, [] => some (w.poll_returns t linked result)
    | _, _ => none
  | .drop_returns panics =>
    match w.phase, w.above with
    | .dropping t ending, [] => some (w.dropped t ending panics)
    | _, _ => none
  | .tell_returns =>
    match w.phase, w.above with
    | .telling t ending, [] => some (w.after t ending)
    | _, _ => none
  | .run =>
    match w.above with
    | [] => w.run_phase
    | .wake t pc :: rest => some (w.wake_local t rest pc)
    | _ :: _ => none
  | .call id t =>
    if 0 < w.poll_count t ∧ (w.calls.all fun c => c.id ≠ id) then
      some { w with calls := w.calls ++ [⟨id, t, .begin_notification⟩] }
    else none
  | .remote id =>
    match w.calls.find? fun c => c.id = id with
    | some c => some (w.wake_remote c)
    | none => none
  | .reclaim t => if w.held t then none else some (w.reclaim t)

/-- The executor, its owner thread and the threads that wake its tasks; a fault ends it. -/
def system : Lts World Action where
  init w := ∃ policy, w = World.new policy
  step w a w' := w.fault = none ∧ w.step a = some w'

end Executor
