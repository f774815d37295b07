import Oxidizer.Hedging.Model
/-!
# Retried calls

A translation of `retry/service.rs`. A call executes the inner service again while the output needs recovery, attempts
are left and there is an input. Left out: `on_retry`, telemetry, and calls that `enable_if` passes on.
-/

namespace Retry

open Hedging

structure RecoveryInfo where
  kind : RecoveryKind
  delay : Option Nat

/-- The callbacks may change what they get; `delays` is the backoff. -/
structure RetryShared (In Out : Type) where
  max_attempts : UInt32
  delays : Nat → Option Nat
  clone_input : In → Attempt → Option RecoveryInfo → Option In × In
  should_recover : Out → Attempt → Nat → RecoveryInfo
  restore_input : Option (Out → Attempt → RecoveryInfo → Option In × Out)
  handle_unavailable : Bool

structure ContinueRetry (In : Type) where
  input : In
  attempt : Attempt
  recovery : RecoveryInfo
  delay : Nat

/-- An output, when it was looked at, and the delay before the next execution. -/
structure Round (Out : Type) where
  attempt : Attempt
  out : Out
  clock : Nat
  delay : Nat

structure Call (In Out : Type) where
  attempt : Attempt
  original_input : Option In
  attempt_input : In
  rounds : List (Round Out)
  /-- what is returned, the last output and its clock -/
  result : Option (Out × Out × Nat)

/-- The outputs that were retried, with the times when they were looked at. -/
def Call.retried {In Out : Type} (c : Call In Out) : List (Out × Nat) := c.rounds.map fun r => (r.out, r.clock)

def first (max_attempts : Nat) : Attempt := ⟨0, max_attempts == 1⟩

namespace RetryShared
variable {In Out : Type} (s : RetryShared In Out)

def is_recoverable (recovery : RecoveryInfo) : Bool :=
  match recovery.kind with
  | .unavailable => s.handle_unavailable
  | .retry => true
  | .never | .unknown => false

def compute_retry_delay (recovery : RecoveryInfo) (drawn : Nat) : Nat :=
  let backoff_delay := (s.delays drawn).getD 0
  recovery.delay.getD backoff_delay

def try_restore_input (original_input : Option In) (out : Out) (attempt : Attempt) (recovery : RecoveryInfo) :
    Option In × Out :=
  if original_input.isSome then (none, out)
  else match s.restore_input with
    | some restore => restore out attempt recovery
    | none => (none, out)

def evaluate_attempt (c : Call In Out) (out : Out) (clock : Nat) : Out ⊕ ContinueRetry In :=
  let recovery := s.should_recover out c.attempt clock
  if !s.is_recoverable recovery then .inl out
  else match c.attempt.increment s.max_attempts.toNat with
    | none => .inl out
    | some next_attempt =>
      -- every round has drawn one delay
      let retry_delay := s.compute_retry_delay recovery c.rounds.length
      let restored := s.try_restore_input c.original_input out c.attempt recovery
      match restored.1 <|> c.original_input with
      | some input => .inr ⟨input, next_attempt, recovery, retry_delay⟩
      | none => .inl restored.2

/-- The head of the loop, to where it awaits the inner service. -/
def round (input : In) (attempt : Attempt) (previous_recovery : Option RecoveryInfo) (rounds : List (Round Out)) :
    Call In Out :=
  match s.clone_input input attempt previous_recovery with
  | (some cloned, input) => ⟨attempt, some input, cloned, rounds, none⟩
  | (none, input) => ⟨attempt, none, input, rounds, none⟩

def resume (c : Call In Out) (out : Out) (clock : Nat) : Call In Out :=
  if c.result.isSome then c
  else match s.evaluate_attempt c out clock with
    | .inl returned => { c with result := some (returned, out, clock) }
    | .inr next => s.round next.input next.attempt next.recovery (c.rounds ++ [⟨c.attempt, out, clock, next.delay⟩])

def execute (input : In) (outputs : List (Out × Nat)) : Call In Out :=
  outputs.foldl (fun c x => s.resume c x.1 x.2) (s.round input (first s.max_attempts.toNat) none [])

/-! ## Every run -/

def Recovers (out : Out) (attempt : Attempt) (clock : Nat) : Prop :=
  s.is_recoverable (s.should_recover out attempt clock) = true

/-- Execution `i` had an output that needs recovery, which came after the delay it asks for or else that of the backoff. -/
def Retried (i : Nat) (r : Round Out) : Prop :=
  r.attempt.index = i ∧ s.Recovers r.out r.attempt r.clock ∧
    r.delay = s.compute_retry_delay (s.should_recover r.out r.attempt r.clock) i

/-- The output needs no recovery, or no attempt is left; or there is no input, and `restore_input` has none either. -/
def Ends (c : Call In Out) (x out : Out) (clock : Nat) : Prop :=
  x = out ∧ (¬ s.Recovers out c.attempt clock ∨ s.max_attempts.toNat ≤ c.attempt.index + 1) ∨
    c.original_input = none ∧ s.Recovers out c.attempt clock ∧
      s.try_restore_input none out c.attempt (s.should_recover out c.attempt clock) = (none, x)

/-- A call that was given `outputs`; it looks at no more of them once it has returned. -/
structure Sound (outputs : List (Out × Nat)) (c : Call In Out) : Prop where
  seen : c.result = none → c.retried = outputs
  index_eq : c.attempt.index = c.rounds.length
  /-- at most `max_attempts` executions, and one in any case -/
  bound : c.attempt.index < max 1 s.max_attempts.toNat
  retried : ∀ i r, c.rounds[i]? = some r → s.Retried i r
  returned : ∀ x out clock, c.result = some (x, out, clock) →
    c.retried ++ [(out, clock)] <+: outputs ∧ s.Ends c x out clock

variable {s} {outputs : List (Out × Nat)} {c : Call In Out}

theorem increment_spec (attempt : Attempt) : match attempt.increment s.max_attempts.toNat with
    | none => s.max_attempts.toNat ≤ attempt.index + 1
    | some next => next.index = attempt.index + 1 ∧ attempt.index + 1 < s.max_attempts.toNat := by
  have hmax := s.max_attempts.toNat_lt
  grind [Attempt.increment, saturating_add]

theorem Sound.evaluate (h : s.Sound outputs c) (out : Out) (clock : Nat) : match s.evaluate_attempt c out clock with
    | .inl x => s.Ends c x out clock
    | .inr next => next.attempt.index = c.attempt.index + 1 ∧ c.attempt.index + 1 < s.max_attempts.toNat ∧
        s.Retried c.rounds.length ⟨c.attempt, out, clock, next.delay⟩ := by
  have hinc := increment_spec (s := s) c.attempt
  have hindex := h.index_eq
  unfold evaluate_attempt Ends Retried Recovers
  grind [try_restore_input]

theorem Sound.resume (h : s.Sound outputs c) (out : Out) (clock : Nat) :
    s.Sound (outputs ++ [(out, clock)]) (s.resume c out clock) := by
  have heval := h.evaluate out clock
  unfold RetryShared.resume
  split
  · rename_i hdone
    refine { h with seen := fun hnone => by simp [hnone] at hdone, returned := fun x y t hr => ?_ }
    obtain ⟨hseen, hends⟩ := h.returned x y t hr
    exact ⟨hseen.trans (List.prefix_append _ _), hends⟩
  · rename_i hopen
    have hseen := h.seen (by simpa using hopen)
    split <;> rename_i next hnext <;> rw [hnext] at heval
    · refine { h with seen := by simp, returned := ?_ }
      rintro _ _ _ ⟨⟩
      exact ⟨by rw [← hseen]; exact List.prefix_rfl, heval⟩
    · obtain ⟨hindex, hmax, hretried⟩ := heval
      have hrounds := h.retried
      unfold round
      split <;> exact ⟨by simp [Call.retried, ← hseen], by simp [hindex, h.index_eq], by simp only; omega, by grind, by simp⟩

/-- Every call executes attempts 0, 1, .. within the limit, each but the last after an output that needs recovery. It
returns for no other reasons than these, after `max_attempts` outputs at the latest. -/
theorem retry_sound (input : In) (outputs : List (Out × Nat)) : s.Sound outputs (s.execute input outputs) := by
  unfold execute
  induction outputs using List.reverseRecOn with
  | nil =>
    simp only [List.foldl_nil, round]
    split <;> exact ⟨fun _ => rfl, rfl, by simp [first], by simp, by simp⟩
  | append_singleton outputs x ih =>
    rw [List.foldl_concat]
    exact ih.resume x.1 x.2

end RetryShared

end Retry
