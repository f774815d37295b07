import Oxidizer.Lib.Runs
/-!
# The combining lock

`Combining::with` runs an action on the protected value. A call that finds the
lock free takes the flag; any other appends a node to a queue and waits, and the
one at the head of the queue runs the actions of those behind it. Each atomic
operation is a step, and so are the start and the end of an action.

A node lives on the stack of its call, so it is named by its thread, and a
thread that calls again uses the same name again. `hal::wait` returns once the
word differs from `SLEEPING` and a wake was delivered to it; `hal::wake_one` goes
by address and may come late, when the node belongs to another call.
-/

namespace Rallocator

open Lib

namespace Combining

inductive Status where
  | waiting
  | done
  | head
  | sleeping
deriving DecidableEq

/-- What follows a wake. -/
inductive After (ι : Type) where
  /-- the combiner goes on with the successor -/
  | advance (successor : ι)
  /-- the queue is empty: the flag is cleared -/
  | clear
  /-- the lease is with the successor: the current node is released -/
  | pass (current : ι)
  | finish
deriving DecidableEq

/-- Where a thread is. An action is a function of the value, `τ → ρ × τ`. -/
inductive Pc (ι τ ρ : Type) where
  | idle
  /-- before `last` is read -/
  | enter (action : τ → ρ × τ)
  /-- before the flag is swapped -/
  | flag (action : τ → ρ × τ)
  | fast (action : τ → ρ × τ)
  | fast_run (action : τ → ρ × τ) (value : τ)
  | fast_clear (result : ρ)
  /-- in `attach`, before `last` is swapped -/
  | publish
  /-- no predecessor: before the flag is swapped -/
  | acquire
  /-- before the flag is read again -/
  | spin
  | link (previous : ι)
  /-- in `wait`, with this many reads of the status to go -/
  | wait (left : Nat)
  /-- before the exchange of `WAITING` for `SLEEPING` -/
  | sleep
  /-- in `hal::wait` -/
  | asleep
  /-- before the status is read after `wait` -/
  | woke
  /-- the loop of the combiner -/
  | prefetch (current : ι)
  | invoke (current : ι)
  | run (current : ι) (action : τ → ρ × τ) (value : τ)
  | next (current : ι)
  /-- before `last` is compared and exchanged -/
  | leave (current : ι)
  /-- before the successor's link is read, until it is there -/
  | stalled (current : ι)
  | reload (current : ι)
  /-- in `wake`, before the status is swapped -/
  | wake (node : ι) (status : Status) (after : After ι)
  /-- before `hal::wake_one` -/
  | notify (node : ι) (after : After ι)
  /-- before the flag is cleared -/
  | clear
  /-- before the result is moved out -/
  | finish
  | returned (result : ρ)
  /-- an action taken twice, a null link followed, or a result read that was not written -/
  | fault

def After.pc {ι τ ρ : Type} : After ι → Pc ι τ ρ
  | .advance successor => .prefetch successor
  | .clear => .clear
  | .pass current => .wake current .done .finish
  | .finish => .finish

/-- A thread with the node of its call. `given` is the action of the call and `seen` the values it was run on; `woken`
is a delivery of `wake_one` since the thread went to sleep. -/
structure Thread (ι τ ρ : Type) where
  pc : Pc ι τ ρ
  status : Status
  next : Option ι
  action : Option (τ → ρ × τ)
  result : Option ρ
  woken : Bool
  given : Option (τ → ρ × τ)
  seen : List τ

end Combining

open Combining in
structure Combining (ι τ ρ : Type) where
  flag : Bool
  last : Option ι
  value : τ
  threads : ι → Thread ι τ ρ

namespace Combining
variable {ι τ ρ : Type} [DecidableEq ι]

def on (s : Combining ι τ ρ) (p : ι) (f : Thread ι τ ρ → Thread ι τ ρ) : Combining ι τ ρ :=
  { s with threads := fun p' => if p' = p then f (s.threads p') else s.threads p' }

def goto (s : Combining ι τ ρ) (p : ι) (pc : Pc ι τ ρ) : Combining ι τ ρ := s.on p fun t => { t with pc }

/-- The node of a call that could not take the flag. -/
def prepare (s : Combining ι τ ρ) (p : ι) (action : τ → ρ × τ) : Combining ι τ ρ :=
  s.on p fun t => { t with pc := .publish, status := .waiting, next := none, action := some action, result := none }

def thread_step (s : Combining ι τ ρ) (p : ι) : Combining ι τ ρ :=
  let t := s.threads p
  match t.pc with
  | .idle | .fault => s
  | .enter action => if s.last = none then s.goto p (.flag action) else s.prepare p action
  | .flag action => if s.flag then s.prepare p action else { s with flag := true }.goto p (.fast action)
  | .fast action => s.goto p (.fast_run action s.value)
  | .fast_run action value =>
    { s with value := (action value).2 }.on p fun t =>
      { t with pc := .fast_clear (action value).1, seen := t.seen ++ [value] }
  | .fast_clear result => { s with flag := false }.goto p (.returned result)
  | .publish => { s with last := some p }.goto p (s.last.elim .acquire .link)
  | .acquire => if s.flag then s.goto p .spin else { s with flag := true }.goto p (.prefetch p)
  | .spin => if s.flag then s else s.goto p .acquire
  | .link previous => (s.on previous fun t => { t with next := some p }).goto p (.wait 100)
  | .wait 0 => s.goto p .sleep
  | .wait (left + 1) => if t.status = .waiting then s.goto p (.wait left) else s.goto p .woke
  | .sleep =>
    if t.status = .waiting then s.on p fun t => { t with pc := .asleep, status := .sleeping, woken := false }
    else s.goto p .woke
  | .asleep => s.goto p .woke
  | .woke => if t.status = .done then s.goto p .finish else s.goto p (.prefetch p)
  | .prefetch current => s.goto p (.invoke current)
  | .invoke current =>
    match (s.threads current).action with
    | some action => (s.on current fun t => { t with action := none }).goto p (.run current action s.value)
    | none => s.goto p .fault
  | .run current action value =>
    ({ s with value := (action value).2 }.on current fun t =>
      { t with result := some (action value).1, seen := t.seen ++ [value] }).goto p (.next current)
  | .next current =>
    match (s.threads current).next with
    | some successor => s.goto p (.wake current .done (.advance successor))
    | none => s.goto p (.leave current)
  | .leave current =>
    if s.last = some current then { s with last := none }.goto p (.wake current .done .clear)
    else s.goto p (.stalled current)
  | .stalled current => if (s.threads current).next = none then s else s.goto p (.reload current)
  | .reload current =>
    match (s.threads current).next with
    | some successor => s.goto p (.wake successor .head (.pass current))
    | none => s.goto p .fault
  | .wake node status after =>
    (s.on node fun t => { t with status }).goto p
      (if (s.threads node).status = .sleeping then .notify node after else after.pc)
  | .notify node after => (s.on node fun t => { t with woken := true }).goto p after.pc
  | .clear => { s with flag := false }.goto p .finish
  | .finish => s.goto p (t.result.elim .fault .returned)
  | .returned _ => s.goto p .idle

/-- A thread in a call can take a step unless it sleeps. -/
def Enabled (s : Combining ι τ ρ) (p : ι) : Prop :=
  match (s.threads p).pc with
  | .idle | .fault => False
  | .asleep => (s.threads p).status ≠ .sleeping ∧ (s.threads p).woken = true
  | _ => True

inductive Action (ι τ ρ : Type) where
  | call (p : ι) (action : τ → ρ × τ)
  | step (p : ι)
  /-- something else in the program -/
  | rest

def system (ι τ ρ : Type) [DecidableEq ι] : Lts (Combining ι τ ρ) (Action ι τ ρ) where
  init s := s.flag = false ∧ s.last = none ∧ ∀ p, (s.threads p).pc = .idle
  step s a s' :=
    match a with
    | .call p action => (s.threads p).pc = .idle ∧
        s' = s.on p fun t => { t with pc := .enter action, given := some action, seen := [] }
    | .step p => s.Enabled p ∧ s' = s.thread_step p
    | .rest => s' = s

end Combining

end Rallocator
