import Oxidizer.Lib.Runs
/-!
# Hedged calls

A call starts an attempt, and while it has no output it waits for the first of two things:
an attempt that ends, or a delay. An output that needs no recovery is returned. After any
other output, or the delay, a further attempt starts, if the input can be cloned for it. When
all attempts have started, or been skipped, the rest is awaited.

The call is given by its states at the points where it awaits; a signal says which future
ends. The attempts in flight are in `futs`; an empty set of futures is ready at once.
-/

namespace Hedging

structure Attempt where
  index : Nat
  is_last : Bool
deriving DecidableEq

def saturating_add (a b : Nat) : Nat := min (a + b) (2 ^ 32 - 1)

def Attempt.increment (attempt : Attempt) (max_attempts : Nat) : Option Attempt :=
  let next := saturating_add attempt.index 1
  if next ≥ max_attempts then none else some ⟨next, next == max_attempts - 1⟩

inductive RecoveryKind where
  | unknown
  | retry
  | never
  | unavailable
deriving DecidableEq

structure CloneArgs where
  attempt : Attempt

structure RecoveryArgs where
  clock : Nat
  attempt : Attempt

structure OnExecuteArgs where
  attempt : Attempt
  delay : Nat

structure HedgingDelayArgs where
  attempt : Attempt

/-- The callbacks may change the inputs they get. -/
structure HedgingShared (In Out : Type) where
  max_hedged_attempts : UInt8
  delay_fn : In → HedgingDelayArgs → Nat
  clone_input : In → CloneArgs → Option In × In
  should_recover : Out → RecoveryArgs → RecoveryKind
  on_execute : Option (In → OnExecuteArgs → In)
  handle_unavailable : Bool

/-- An output, with the attempt that has it and the time when it is looked at. -/
structure Completion (Out : Type) where
  attempt : Attempt
  out : Out
  clock : Nat
deriving DecidableEq

/-- Where a call awaits, or how it has ended. -/
inductive Point (Out : Type) where
  /-- `launch(input).await` -/
  | direct
  /-- `select(next, delay_fut).await` -/
  | select (next_attempt : Attempt) (delay : Nat)
  /-- `futs.next().await` after the last attempt -/
  | drain
  | returned (out : Out)
  /-- at least one attempt was launched -/
  | panicked
deriving DecidableEq

structure Call (In Out : Type) where
  input : In
  attempt : Attempt
  total_attempts : Nat
  futs : List Attempt
  last_result : Option Out
  point : Point Out
  /-- every attempt that was launched, with its input -/
  launched : List (Attempt × In)
  /-- every output the call has seen -/
  completed : List (Completion Out)
deriving DecidableEq

/-- What ends while a call awaits. -/
inductive Signal (Out : Type) where
  | completes (completion : Completion Out)
  | delay_expires

def Signal.completion {Out : Type} : Signal Out → Option (Completion Out)
  | .completes completion => some completion
  | .delay_expires => none

namespace HedgingShared

variable {In Out : Type} (h : HedgingShared In Out)

def recovery_kind (out : Out) (args : RecoveryArgs) : Option RecoveryKind :=
  match h.should_recover out args with
  | .unavailable => if h.handle_unavailable then some .unavailable else none
  | .retry => some .retry
  | .never => none
  | .unknown => none

def invoke_on_execute (input : In) (attempt : Attempt) (delay : Nat) : In :=
  match h.on_execute with
  | some on_execute => on_execute input ⟨attempt, delay⟩
  | none => input

def launch_hedging_attempt (c : Call In Out) (attempt : Attempt) (hedging_delay : Nat) : Call In Out :=
  match h.clone_input c.input ⟨attempt⟩ with
  | (some cloned, input) =>
    let cloned := h.invoke_on_execute cloned attempt hedging_delay
    { c with input, futs := c.futs ++ [attempt], launched := c.launched ++ [(attempt, cloned)] }
  | (none, input) => { c with input }

/-- `last_result.expect("at least one attempt was launched")`. -/
def exhausted (c : Call In Out) : Call In Out :=
  match c.last_result with
  | some out => { c with point := .returned out }
  | none => { c with point := .panicked }

/-- `futs.next()` without futures is ready at once. -/
def next (c : Call In Out) (point : Point Out) : Call In Out :=
  if c.futs.isEmpty then exhausted c else { c with point }

/-- The loop of `run_delay_loop`, to where it awaits. -/
def run_delay_loop (c : Call In Out) : Call In Out :=
  match c.attempt.increment c.total_attempts with
  | some next_attempt => next c (.select next_attempt (h.delay_fn c.input ⟨next_attempt⟩))
  | none => next c .drain

def complete (c : Call In Out) (completion : Completion Out) : Call In Out :=
  { c with futs := c.futs.erase completion.attempt, completed := c.completed ++ [completion] }

def resume (c : Call In Out) : Signal Out → Option (Call In Out)
  | .completes completion =>
    match c.point with
    | .direct =>
      if completion.attempt = c.attempt then
        some { c with completed := c.completed ++ [completion], point := .returned completion.out }
      else none
    | .select next_attempt _ =>
      if completion.attempt ∈ c.futs then
        let c := complete c completion
        match h.recovery_kind completion.out ⟨completion.clock, completion.attempt⟩ with
        | none => some { c with point := .returned completion.out }
        | some _ =>
          let c := { c with last_result := some completion.out }
          let c := h.launch_hedging_attempt c next_attempt 0
          some (h.run_delay_loop { c with attempt := next_attempt })
      else none
    | .drain =>
      if completion.attempt ∈ c.futs then
        let c := complete c completion
        match h.recovery_kind completion.out ⟨completion.clock, completion.attempt⟩ with
        | none => some { c with point := .returned completion.out }
        | some _ => some (next { c with last_result := some completion.out } .drain)
      else none
    | _ => none
  | .delay_expires =>
    match c.point with
    | .select next_attempt delay =>
      let c := h.launch_hedging_attempt c next_attempt delay
      some (h.run_delay_loop { c with attempt := next_attempt })
    | _ => none

/-- `run_hedging`, to where it first awaits. -/
def run_hedging (input : In) : Call In Out :=
  let total_attempts := saturating_add h.max_hedged_attempts.toNat 1
  let attempt : Attempt := ⟨0, total_attempts == 1⟩
  match h.clone_input input ⟨attempt⟩ with
  | (none, input) =>
    let input := h.invoke_on_execute input attempt 0
    ⟨input, attempt, total_attempts, [], none, .direct, [(attempt, input)], []⟩
  | (some first_cloned, input) =>
    let first_cloned := h.invoke_on_execute first_cloned attempt 0
    h.run_delay_loop ⟨input, attempt, total_attempts, [attempt], none, .direct, [(attempt, first_cloned)], []⟩

/-- A call, whatever ends in whatever order. -/
def system (input : In) : Lib.Lts (Call In Out) (Signal Out) where
  init c := c = h.run_hedging input
  step c signal c' := h.resume c signal = some c'

end HedgingShared

end Hedging
