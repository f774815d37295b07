import Mathlib
/-!
# The circuit breaker engine: the code

A translation of `crates/seatbelt/src/breaker`: the health window
(`health.rs`, `health_eval.rs`), the probe stages (`engine/probing`) and the
state machine behind the engine's lock (`engine/engine_core.rs`). Instants
and durations are nanosecond counts. Floating point enters in two places, and
both are inputs of the model: a failure rate is compared with a threshold by
the `Threshold` of the configuration, which may be any function of the two
counts, and a probing ratio with a random draw by comparing both in units of
`2 ^ -53`. The sum of an instant and a duration may be no `Instant`; `panics`
says which calls panic over it. Left out: telemetry other than the `stats` the
state carries.
-/

namespace Breaker

/-- An `Instant` has 64-bit seconds, the first of them negative. -/
def overflows (now duration : Nat) : Bool := 2 ^ 63 * 1000000000 ≤ now + duration

/-! ## Health -/

inductive ExecutionResult where
  | success
  | failure
  | abandoned
deriving DecidableEq

inductive ExecutionMode where
  | normal
  | probe
deriving DecidableEq

inductive HealthStatus where
  | healthy
  | unhealthy
deriving DecidableEq

/-- Whether `failures / total`, divided in `f64` and rounded to `f32`, reaches a threshold. -/
abbrev Threshold := Nat → Nat → Bool

inductive AbandonedPolicy where
  | ignore
  | as_failures
  | rate_threshold (threshold : Threshold)

def AbandonedPolicy.counts_abandoned_as_failure : AbandonedPolicy → Bool
  | .as_failures => true
  | _ => false

def saturating_add (a b : Nat) : Nat := min (a + b) (2 ^ 32 - 1)

structure ExecutionInfo where
  succeeded : Nat
  failed : Nat
  abandoned : Nat
deriving DecidableEq

namespace ExecutionInfo

def default : ExecutionInfo := ⟨0, 0, 0⟩

def total (info : ExecutionInfo) : Nat := saturating_add (saturating_add info.succeeded info.failed) info.abandoned

def record (info : ExecutionInfo) : ExecutionResult → ExecutionInfo
  | .success => { info with succeeded := saturating_add info.succeeded 1 }
  | .failure => { info with failed := saturating_add info.failed 1 }
  | .abandoned => { info with abandoned := saturating_add info.abandoned 1 }

def subtract (info other : ExecutionInfo) : ExecutionInfo :=
  ⟨info.succeeded - other.succeeded, info.failed - other.failed, info.abandoned - other.abandoned⟩

end ExecutionInfo

structure HealthInfo where
  counts : ExecutionInfo
  status : HealthStatus
deriving DecidableEq

structure HealthEvaluator where
  failure_threshold : Threshold
  min_throughput : Nat
  abandoned_policy : AbandonedPolicy

def evaluate_threshold (failures total min_throughput : Nat) (failure_threshold : Threshold) : HealthStatus :=
  if total = 0 ∨ total < min_throughput then .healthy
  else if failure_threshold failures total then .unhealthy else .healthy

namespace HealthEvaluator

/-- The `(failures, total)` pair the decision is made on. -/
def evaluate_core (ev : HealthEvaluator) (counts : ExecutionInfo) : Nat × Nat :=
  match ev.abandoned_policy with
  | .ignore => (counts.failed, saturating_add counts.succeeded counts.failed)
  | .as_failures => (saturating_add counts.failed counts.abandoned, counts.total)
  | .rate_threshold threshold =>
    match evaluate_threshold counts.abandoned counts.total ev.min_throughput threshold with
    | .unhealthy => (saturating_add counts.failed counts.abandoned, counts.total)
    | .healthy => (counts.failed, saturating_add counts.succeeded counts.failed)

def evaluate (ev : HealthEvaluator) (counts : ExecutionInfo) : HealthInfo :=
  let decision := ev.evaluate_core counts
  ⟨counts, evaluate_threshold decision.1 decision.2 ev.min_throughput ev.failure_threshold⟩

end HealthEvaluator

structure Window where
  counts : ExecutionInfo
  started_at : Nat

/-- Execution results in a sliding window, oldest window first, and their running total. -/
structure HealthMetrics where
  sampling_duration : Nat
  window_duration : Nat
  windows : List Window
  counts : ExecutionInfo
  evaluator : HealthEvaluator

def MIN_SAMPLING_DURATION : Nat := 1000000000
def WINDOW_COUNT : Nat := 10

structure HealthMetricsBuilder where
  sampling_duration : Nat
  failure_threshold : Threshold
  min_throughput : Nat
  abandoned_policy : AbandonedPolicy

namespace HealthMetricsBuilder

def new (sampling_duration : Nat) (failure_threshold : Threshold) (min_throughput : Nat)
    (abandoned_policy : AbandonedPolicy) : HealthMetricsBuilder :=
  ⟨max sampling_duration MIN_SAMPLING_DURATION, failure_threshold, min_throughput, abandoned_policy⟩

def build (b : HealthMetricsBuilder) : HealthMetrics :=
  ⟨b.sampling_duration, b.sampling_duration / WINDOW_COUNT, [], .default,
    ⟨b.failure_threshold, b.min_throughput, b.abandoned_policy⟩⟩

end HealthMetricsBuilder

namespace HealthMetrics

/-- Remove windows that started more than `sampling_duration` ago, keeping the total in step. -/
def drop_expired (now sampling_duration : Nat) : List Window → ExecutionInfo → List Window × ExecutionInfo
  | [], counts => ([], counts)
  | front :: rest, counts =>
    if now - front.started_at > sampling_duration then
      drop_expired now sampling_duration rest (counts.subtract front.counts)
    else (front :: rest, counts)

/-- Add `result` to the newest window, or to a new one if that is too old. -/
def update_current (now window_duration : Nat) (result : ExecutionResult) (windows : List Window) : List Window :=
  match windows.getLast? with
  | some back =>
    if now - back.started_at ≥ window_duration then windows ++ [⟨ExecutionInfo.default.record result, now⟩]
    else windows.dropLast ++ [{ back with counts := back.counts.record result }]
  | none => [⟨ExecutionInfo.default.record result, now⟩]

def record (m : HealthMetrics) (result : ExecutionResult) (now : Nat) : HealthMetrics :=
  let kept := drop_expired now m.sampling_duration m.windows m.counts
  { m with windows := update_current now m.window_duration result kept.1, counts := kept.2.record result }

def health_info (m : HealthMetrics) : HealthInfo := m.evaluator.evaluate m.counts

end HealthMetrics

/-! ## Probing -/

inductive ProbingResult where
  | success
  | failure
  | pending
deriving DecidableEq

inductive AllowProbeResult where
  | accepted
  | rejected
deriving DecidableEq

/-- `probing_ratio` is in units of `2 ^ -53`. -/
structure HealthProbeOptions where
  builder : HealthMetricsBuilder
  probing_ratio : Nat

def HealthProbeOptions.stage_duration (o : HealthProbeOptions) : Nat := o.builder.sampling_duration

inductive ProbeOptions where
  | single_probe (cooldown : Nat) (abandoned_policy : AbandonedPolicy)
  | health_probe (options : HealthProbeOptions)

/-- A list of stages, which `ProbesOptions::new` asserts is not empty. -/
structure ProbesOptions where
  probes : List ProbeOptions
  nonempty : probes ≠ []

structure SingleProbe where
  probe_cooldown : Nat
  abandoned_policy : AbandonedPolicy
  entered_at : Option Nat

namespace SingleProbe

def new (probe_cooldown : Nat) (abandoned_policy : AbandonedPolicy) : SingleProbe :=
  ⟨probe_cooldown, abandoned_policy, none⟩

def allow_probe (p : SingleProbe) (now : Nat) : SingleProbe × AllowProbeResult :=
  match p.entered_at with
  | none => ({ p with entered_at := some now }, .accepted)
  | some entered_at =>
    if now - entered_at > p.probe_cooldown then ({ p with entered_at := some now }, .accepted)
    else (p, .rejected)

def record (p : SingleProbe) (result : ExecutionResult) : ProbingResult :=
  match result with
  | .success => .success
  | .failure => .failure
  | .abandoned => if p.abandoned_policy.counts_abandoned_as_failure then .failure else .pending

end SingleProbe

structure HealthProbe where
  options : HealthProbeOptions
  metrics : HealthMetrics
  fallback_after : Option Nat
  sample_until : Option Nat

namespace HealthProbe

def new (options : HealthProbeOptions) : HealthProbe := ⟨options, options.builder.build, none, none⟩

/-- `draw` is what `rnd.next_f64()` returns, in units of `2 ^ -53`. -/
def allow_probe (p : HealthProbe) (now draw : Nat) : HealthProbe × AllowProbeResult :=
  let sample_until := p.sample_until.getD (now + p.options.stage_duration)
  let fallback_after := p.fallback_after.getD sample_until
  let p := { p with sample_until := some sample_until, fallback_after := some fallback_after }
  if draw < p.options.probing_ratio then (p, .accepted)
  else if now > fallback_after then ({ p with fallback_after := some (now + p.options.stage_duration) }, .accepted)
  else (p, .rejected)

/-- `allow_probe` panics. -/
def panics (p : HealthProbe) (now draw : Nat) : Bool :=
  overflows now p.options.stage_duration && (p.sample_until.isNone ||
    (p.options.probing_ratio ≤ draw && p.fallback_after.any (· < now)))

def keep_sampling (p : HealthProbe) (now : Nat) : Bool :=
  match p.sample_until with
  | none => true
  | some sample_until => now < sample_until

def record (p : HealthProbe) (result : ExecutionResult) (now : Nat) : HealthProbe × ProbingResult :=
  let p := { p with metrics := p.metrics.record result now }
  if p.keep_sampling now then (p, .pending)
  else match p.metrics.health_info.status with
    | .healthy => (p, .success)
    | .unhealthy => (p, .failure)

end HealthProbe

inductive Probe where
  | single (probe : SingleProbe)
  | health (probe : HealthProbe)

namespace Probe

def new : ProbeOptions → Probe
  | .single_probe cooldown abandoned_policy => .single (SingleProbe.new cooldown abandoned_policy)
  | .health_probe options => .health (HealthProbe.new options)

def allow_probe (p : Probe) (now draw : Nat) : Probe × AllowProbeResult :=
  match p with
  | .single probe => let r := probe.allow_probe now; (.single r.1, r.2)
  | .health probe => let r := probe.allow_probe now draw; (.health r.1, r.2)

def panics (p : Probe) (now draw : Nat) : Bool :=
  match p with
  | .single _ => false
  | .health probe => probe.panics now draw

def record (p : Probe) (result : ExecutionResult) (now : Nat) : Probe × ProbingResult :=
  match p with
  | .single probe => (.single probe, probe.record result)
  | .health probe => let r := probe.record result now; (.health r.1, r.2)

end Probe

/-- The stage that runs, and the stages still to come. -/
structure Probes where
  probes : List ProbeOptions
  current : Probe

namespace Probes

def new (options : ProbesOptions) : Probes :=
  ⟨options.probes.tail, .new (options.probes.head options.nonempty)⟩

def allow_probe (p : Probes) (now draw : Nat) : Probes × AllowProbeResult :=
  let allow := p.current.allow_probe now draw
  ({ p with current := allow.1 }, allow.2)

def record (p : Probes) (result : ExecutionResult) (now : Nat) : Probes × ProbingResult :=
  let current := (p.current.record result now).1
  match (p.current.record result now).2 with
  | .success =>
    -- an abandoned execution does not prove that the service recovered
    if result = .abandoned then ({ p with current }, .pending)
    else match p.probes with
      | probe :: probes => (⟨probes, .new probe⟩, .pending)
      | [] => ({ p with current }, .success)
  | .pending => ({ p with current }, .pending)
  | .failure => ({ p with current }, .failure)

end Probes

/-! ## The state machine -/

inductive EnterCircuitResult where
  | accepted (mode : ExecutionMode)
  | rejected
deriving DecidableEq

def EnterCircuitResult.from : AllowProbeResult → EnterCircuitResult
  | .accepted => .accepted .probe
  | .rejected => .rejected

structure Stats where
  probes : ExecutionInfo
  probes_lost : Nat
  executions_lost : Nat
  opened_at : Nat
  re_opened : Nat
  rejected : Nat
deriving DecidableEq

namespace Stats

def inc (n : Nat) : Nat := min (n + 1) (2 ^ 64 - 1)

def new (opened_at : Nat) : Stats := ⟨.default, 0, 0, opened_at, 0, 0⟩

def record_allow_result (s : Stats) (allow : AllowProbeResult) : Stats :=
  if allow ≠ .accepted then { s with rejected := inc s.rejected } else s

def record_probe_execution_result (s : Stats) (result : ExecutionResult) : Stats :=
  { s with probes := s.probes.record result }

end Stats

inductive ExitCircuitResult where
  | unchanged
  | opened (health : HealthInfo)
  | reopened
  | closed (stats : Stats)
deriving DecidableEq

structure EngineOptions where
  break_duration : Nat
  health_metrics_builder : HealthMetricsBuilder
  probes : ProbesOptions

inductive State where
  | closed (health : HealthMetrics)
  | opened (open_until : Nat) (stats : Stats)
  | half_open (probes : Probes) (stats : Stats)

namespace State

def new (settings : EngineOptions) : State := .closed settings.health_metrics_builder.build

def enter (s : State) (now draw : Nat) (settings : EngineOptions) : State × EnterCircuitResult :=
  match s with
  | .closed health => (.closed health, .accepted .normal)
  | .opened open_until stats =>
    if now ≥ open_until then
      let allow := (Probes.new settings.probes).allow_probe now draw
      (.half_open allow.1 (stats.record_allow_result allow.2), .from allow.2)
    else (.opened open_until { stats with rejected := Stats.inc stats.rejected }, .rejected)
  | .half_open probes stats =>
    let allow := probes.allow_probe now draw
    (.half_open allow.1 (stats.record_allow_result allow.2), .from allow.2)

def exit (s : State) (result : ExecutionResult) (mode : ExecutionMode) (now : Nat) (settings : EngineOptions) :
    State × ExitCircuitResult :=
  match s with
  | .closed health =>
    if mode = .probe then (.closed health, .unchanged)
    else
      let health := health.record result now
      match health.health_info.status with
      | .healthy => (.closed health, .unchanged)
      | .unhealthy => (.opened (now + settings.break_duration) (Stats.new now), .opened health.health_info)
  | .opened open_until stats =>
    match mode with
    | .probe => (.opened open_until { stats with probes_lost := Stats.inc stats.probes_lost }, .unchanged)
    | .normal => (.opened open_until { stats with executions_lost := Stats.inc stats.executions_lost }, .unchanged)
  | .half_open probes stats =>
    if mode = .normal then
      (.half_open probes { stats with executions_lost := Stats.inc stats.executions_lost }, .unchanged)
    else
      let stats := stats.record_probe_execution_result result
      match (probes.record result now).2 with
      | .success => (.closed settings.health_metrics_builder.build, .closed stats)
      | .failure =>
        let stats := { stats with re_opened := Stats.inc stats.re_opened }
        (.opened (now + settings.break_duration) stats, .reopened)
      | .pending => (.half_open (probes.record result now).1 stats, .unchanged)

end State

end Breaker
