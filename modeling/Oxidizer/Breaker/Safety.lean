import Oxidizer.Breaker.Model
import Oxidizer.Lib.Runs
/-!
# Transition safety of the circuit breaker

A run is any sequence of `enter` and `exit` calls with times that do not go
back; the engine's lock makes concurrent callers such a sequence. The world
carries two histories next to the state: when the circuit opened or reopened,
and which probe stages have reported success since it last did. The invariant
says that an open circuit stays shut for the whole break, and that a half-open
one runs the stage after exactly those that have reported success.
-/

namespace Breaker

open Lib List State

/-- A call on the engine. `draw` is the random number the call would draw. -/
inductive Call where
  | enter (now draw : Nat)
  | exit (result : ExecutionResult) (mode : ExecutionMode) (now : Nat)

def Call.now : Call → Nat
  | .enter now _ => now
  | .exit _ _ now => now

def State.call (s : State) (settings : EngineOptions) : Call → State
  | .enter now draw => (s.enter now draw settings).1
  | .exit result mode now => (s.exit result mode now settings).1

def State.isClosed : State → Bool
  | .closed _ => true
  | _ => false

def State.isOpen : State → Bool
  | .opened _ _ => true
  | _ => false

def Probe.options : Probe → ProbeOptions
  | .single p => .single_probe p.probe_cooldown p.abandoned_policy
  | .health p => .health_probe p.options

def Probes.stage (settings : EngineOptions) (p : Probes) : Nat := settings.probes.probes.length - (p.probes.length + 1)

/-- The stage whose probe reports success on this call, if one does. An
abandoned execution is no report of success. -/
def State.reports (settings : EngineOptions) (s : State) : Call → Option Nat
  | .exit result .probe now =>
    match s with
    | .half_open probes _ =>
      if (probes.current.record result now).2 = .success ∧ result ≠ .abandoned then some (probes.stage settings) else none
    | _ => none
  | _ => none

/-- The engine, the time of the last call, when the circuit opened, and which
stages have reported success since. -/
structure World where
  state : State
  now : Nat
  opened_at : List Nat
  passed : List Nat

def World.after (settings : EngineOptions) (w : World) (c : Call) : World :=
  let state := w.state.call settings c
  let opens := state.isOpen && !w.state.isOpen
  { state
    now := c.now
    opened_at := if opens then c.now :: w.opened_at else w.opened_at
    passed := if opens then [] else w.passed ++ (w.state.reports settings c).toList }

/-- The call panics, with the lock of the engine, which every later call finds poisoned. -/
def State.panics (settings : EngineOptions) (s : State) : Call → Bool
  | .enter now draw =>
    match s with
    | .closed _ => false
    | .opened open_until _ => open_until ≤ now && (Probes.new settings.probes).current.panics now draw
    | .half_open probes _ => probes.current.panics now draw
  | .exit result mode now => overflows now settings.break_duration && !s.isOpen && (s.exit result mode now settings).1.isOpen

/-- Every sequence of calls with times that do not go back, up to one that panics. -/
def system (settings : EngineOptions) : Lts World Call where
  init w := w = ⟨State.new settings, 0, [], []⟩
  step w c w' := w.now ≤ c.now ∧ w.state.panics settings c = false ∧ w' = w.after settings c

/-! ## What a probe does -/

@[simp] theorem Probe.new_options (o : ProbeOptions) : (Probe.new o).options = o := by
  cases o <;> rfl

@[simp] theorem Probe.allow_probe_options (p : Probe) (now draw : Nat) :
    (p.allow_probe now draw).1.options = p.options := by
  cases p with
  | single p =>
    simp only [Probe.allow_probe, SingleProbe.allow_probe]
    split
    · rfl
    · split <;> rfl
  | health p =>
    simp only [Probe.allow_probe, HealthProbe.allow_probe]
    split
    · rfl
    · split <;> rfl

@[simp] theorem Probe.record_options (p : Probe) (result : ExecutionResult) (now : Nat) :
    (p.record result now).1.options = p.options := by
  cases p with
  | single p => rfl
  | health p =>
    simp only [Probe.record, HealthProbe.record]
    split
    · rfl
    · split <;> rfl

/-- What recording a result does to the stages: the stage goes on, it fails,
or it reports success on a result that was not abandoned, and then the next
stage starts or there is none. -/
theorem Probes.record_cases (p : Probes) (result : ExecutionResult) (now : Nat) :
    (p.record result now = (⟨p.probes, (p.current.record result now).1⟩, .pending) ∧
      ¬ ((p.current.record result now).2 = .success ∧ result ≠ .abandoned)) ∨
    ((p.record result now).2 = .failure ∧ (p.current.record result now).2 = .failure) ∨
    (((p.current.record result now).2 = .success ∧ result ≠ .abandoned) ∧
      ((∃ next rest, p.probes = next :: rest ∧ p.record result now = (⟨rest, .new next⟩, .pending)) ∨
        (p.probes = [] ∧ (p.record result now).2 = .success))) := by
  unfold Probes.record
  cases hr : (p.current.record result now).2 with
  | pending => exact .inl ⟨rfl, by simp⟩
  | failure => exact .inr (.inl ⟨rfl, rfl⟩)
  | success =>
    by_cases ha : result = .abandoned
    · exact .inl ⟨by simp [ha], by simp [ha]⟩
    · refine .inr (.inr ⟨⟨rfl, ha⟩, ?_⟩)
      cases hp : p.probes with
      | nil => exact .inr ⟨rfl, by simp [ha]⟩
      | cons next rest => exact .inl ⟨next, rest, rfl, by simp [ha]⟩

/-! ## What a call does -/

/-- What a call does to the state, case by case. -/
inductive Effect (settings : EngineOptions) : State → Call → State → Prop where
  /-- a call that changes nothing but the statistics of the state it finds, or the metrics of a closed circuit -/
  | closed (health health' : HealthMetrics) (c : Call) : Effect settings (.closed health) c (.closed health')
  | opened (open_until : Nat) (stats stats' : Stats) (c : Call) :
      Effect settings (.opened open_until stats) c (.opened open_until stats')
  | half_open (probes probes' : Probes) (stats stats' : Stats) (c : Call)
      (hp : probes'.probes = probes.probes) (ho : probes'.current.options = probes.current.options)
      (hr : (State.half_open probes stats).reports settings c = none) :
      Effect settings (.half_open probes stats) c (.half_open probes' stats')
  /-- the break is over -/
  | probing (open_until : Nat) (stats stats' : Stats) (now draw : Nat) (probes : Probes) (h : open_until ≤ now)
      (hp : probes.probes = settings.probes.probes.tail)
      (ho : probes.current.options = settings.probes.probes.head settings.probes.nonempty) :
      Effect settings (.opened open_until stats) (.enter now draw) (.half_open probes stats')
  /-- the health verdict opens the circuit -/
  | unhealthy (health : HealthMetrics) (result : ExecutionResult) (now : Nat) (stats : Stats)
      (h : (health.record result now).health_info.status = .unhealthy) :
      Effect settings (.closed health) (.exit result .normal now) (.opened (now + settings.break_duration) stats)
  /-- a probe fails -/
  | failed (probes : Probes) (stats stats' : Stats) (result : ExecutionResult) (now : Nat)
      (h : (probes.record result now).2 = .failure) :
      Effect settings (.half_open probes stats) (.exit result .probe now) (.opened (now + settings.break_duration) stats')
  /-- a stage reports success and the next one starts -/
  | advanced (probes : Probes) (stats stats' : Stats) (result : ExecutionResult) (now : Nat) (next : ProbeOptions)
      (rest : List ProbeOptions) (ha : result ≠ .abandoned) (hp : probes.probes = next :: rest)
      (hr : (State.half_open probes stats).reports settings (.exit result .probe now) = some (probes.stage settings)) :
      Effect settings (.half_open probes stats) (.exit result .probe now) (.half_open ⟨rest, .new next⟩ stats')
  /-- the last stage reports success -/
  | recovered (probes : Probes) (stats : Stats) (result : ExecutionResult) (now : Nat) (health : HealthMetrics)
      (ha : result ≠ .abandoned) (hp : probes.probes = [])
      (hr : (State.half_open probes stats).reports settings (.exit result .probe now) = some (probes.stage settings)) :
      Effect settings (.half_open probes stats) (.exit result .probe now) (.closed health)

theorem effect_of (settings : EngineOptions) (s : State) (c : Call) : Effect settings s c (s.call settings c) := by
  cases c with
  | enter now draw =>
    cases s with
    | closed health => exact .closed ..
    | opened open_until stats =>
      simp only [call, enter]
      split
      · rename_i hnow
        exact .probing _ _ _ _ _ _ hnow rfl (by simp [Probes.allow_probe, Probes.new])
      · exact .opened ..
    | half_open probes stats =>
      exact .half_open _ _ _ _ _ rfl (by simp [Probes.allow_probe]) rfl
  | exit result mode now =>
    cases s with
    | closed health =>
      simp only [call, exit]
      split
      · exact .closed ..
      · rename_i hm
        have hm : mode = .normal := by cases mode <;> simp_all
        subst hm
        split
        · exact .closed ..
        · rename_i hv
          exact .unhealthy _ _ _ _ hv
    | opened open_until stats => cases mode <;> exact .opened ..
    | half_open probes stats =>
      simp only [call, exit]
      split
      · rename_i hm
        exact .half_open _ _ _ _ _ rfl rfl (by rw [hm]; rfl)
      · rename_i hm
        have hm : mode = .probe := by cases mode <;> simp_all
        subst hm
        rcases probes.record_cases result now with ⟨hrec, hno⟩ | ⟨hrec, -⟩ | ⟨hyes, ⟨next, rest, hp, hrec⟩ | ⟨hp, hrec⟩⟩
        · rw [hrec]
          exact .half_open _ _ _ _ _ rfl (by simp) (by simp only [reports, if_neg hno])
        · rw [hrec]
          exact .failed _ _ _ _ _ hrec
        · rw [hrec]
          exact .advanced _ _ _ _ _ _ _ hyes.2 hp (by simp only [reports, if_pos hyes])
        · rw [hrec]
          exact .recovered _ _ _ _ _ hyes.2 hp (by simp only [reports, if_pos hyes])

/-! ## The invariant -/

/-- The stage that runs is the one after those that have reported success. -/
structure AtStage (settings : EngineOptions) (probes : Probes) (passed : List Nat) : Prop where
  stages : settings.probes.probes.drop passed.length = probes.current.options :: probes.probes
  passed_eq : passed = List.range passed.length

variable {settings : EngineOptions}

theorem AtStage.stage_eq {probes : Probes} {passed : List Nat}
    (h : AtStage settings probes passed) : probes.stage settings = passed.length := by
  have hl := congrArg List.length h.stages
  rw [length_drop, length_cons] at hl
  unfold Probes.stage
  omega

def World.Inv (settings : EngineOptions) (w : World) : Prop :=
  match w.state with
  | .closed _ => ∀ t ∈ w.opened_at, t + settings.break_duration ≤ w.now
  | .opened open_until _ => (∀ t ∈ w.opened_at, t + settings.break_duration ≤ open_until) ∧ w.passed = []
  | .half_open probes _ =>
    (∀ t ∈ w.opened_at, t + settings.break_duration ≤ w.now) ∧ AtStage settings probes w.passed

theorem breaks_end {opened_at : List Nat} {last now : Nat} (hle : last ≤ now)
    (h : ∀ t ∈ opened_at, t + settings.break_duration ≤ last) :
    ∀ t ∈ now :: opened_at, t + settings.break_duration ≤ now + settings.break_duration := by
  intro t ht
  rcases mem_cons.mp ht with rfl | ht
  · exact Nat.le_refl _
  · have := h t ht
    omega

variable {w : World}

theorem World.after_inv {c : Call} (ht : w.now ≤ c.now) (h : w.Inv settings) :
    (w.after settings c).Inv settings := by
  have he := effect_of settings w.state c
  obtain ⟨s, now, opened_at, passed⟩ := w
  unfold World.Inv World.after at *
  generalize hs' : s.call settings c = s' at he ⊢
  cases he with
  | closed health health' => exact fun t hm => Nat.le_trans (h t hm) ht
  | opened open_until stats stats' =>
    have hr : (opened open_until stats).reports settings c = none := by cases c with
      | enter => rfl
      | exit result mode now => cases mode <;> rfl
    simpa [isOpen, hr] using h
  | half_open probes probes' stats stats' c hp ho hr =>
    refine ⟨fun t hm => Nat.le_trans (h.1 t hm) ht, ?_⟩
    rw [hr]
    simp only [isOpen, Bool.false_and, Bool.false_eq_true, if_false, Option.toList_none, append_nil]
    exact ⟨by rw [h.2.stages, hp, ho], h.2.passed_eq⟩
  | probing open_until stats stats' now' draw probes hle hp ho =>
    obtain ⟨hbreak, hpassed⟩ := h
    subst hpassed
    refine ⟨fun t hm => Nat.le_trans (hbreak t hm) hle, ?_, rfl⟩
    change settings.probes.probes.drop 0 = _
    rw [hp, ho, drop_zero, cons_head_tail]
  | unhealthy health result now' stats hv =>
    exact ⟨breaks_end ht h, rfl⟩
  | failed probes stats stats' result now' hv =>
    exact ⟨breaks_end ht h.1, rfl⟩
  | advanced probes stats stats' result now' next rest ha hp hr =>
    obtain ⟨hbreak, hat⟩ := h
    refine ⟨fun t hm => Nat.le_trans (hbreak t hm) ht, ?_⟩
    rw [hr, hat.stage_eq]
    simp only [isOpen, Bool.false_and, Bool.false_eq_true, if_false, Option.toList_some]
    refine ⟨?_, ?_⟩
    · have hd := congrArg (List.drop 1) hat.stages
      rw [drop_drop] at hd
      simpa [hp] using hd
    · rw [length_append, length_singleton, range_succ, ← hat.passed_eq]
  | recovered probes stats result now' health ha hp hr =>
    exact fun t hm => Nat.le_trans (h.1 t hm) ht

theorem reachable_inv (hr : (system settings).Reachable w) : w.Inv settings := by
  refine hr.inv (World.Inv settings) ?_ ?_
  · rintro w rfl
    intro t ht
    cases ht
  · rintro w c w' - h ⟨ht, -, rfl⟩
    exact World.after_inv ht h

/-! ## The theorem -/

theorem EnterCircuitResult.from_accepted {allow : AllowProbeResult} {mode : ExecutionMode}
    (h : EnterCircuitResult.from allow = .accepted mode) : mode = .probe := by
  cases allow <;> cases h
  rfl

theorem enter_accepted (h : w.Inv settings) {now draw : Nat} (ht : w.now ≤ now)
    {mode : ExecutionMode} (ha : (w.state.enter now draw settings).2 = .accepted mode) :
    (∀ t ∈ w.opened_at, t + settings.break_duration ≤ now) ∧ (w.state.isClosed = false → mode = .probe) := by
  obtain ⟨s, last, opened_at, passed⟩ := w
  cases s with
  | closed health => exact ⟨fun t hm => Nat.le_trans (h t hm) ht, fun hc => by cases hc⟩
  | opened open_until stats =>
    simp only [enter] at ha
    split at ha
    · rename_i hnow
      exact ⟨fun t hm => Nat.le_trans (h.1 t hm) hnow, fun _ => EnterCircuitResult.from_accepted ha⟩
    · cases ha
  | half_open probes stats =>
    exact ⟨fun t hm => Nat.le_trans (h.1 t hm) ht, fun _ => EnterCircuitResult.from_accepted ha⟩

/-- In every run and for every next call:
no call is accepted before the break of any earlier opening is over, and one
accepted while the circuit is not closed is a probe;
a half-open circuit runs the stage after those that have reported success;
the circuit closes only on a probe result that is not abandoned and with which
every stage has reported success in order since the last opening;
it opens only on an unhealthy verdict of a closed circuit or on a probe failure;
and an abandoned result neither closes it nor advances a stage. -/
theorem transitions_safe (settings : EngineOptions) {w : World} (hr : (system settings).Reachable w) (c : Call)
    (ht : w.now ≤ c.now) :
    (∀ now draw mode, c = .enter now draw → (w.state.enter now draw settings).2 = .accepted mode →
      (∀ t ∈ w.opened_at, t + settings.break_duration ≤ now) ∧ (w.state.isClosed = false → mode = .probe)) ∧
    (∀ probes stats, w.state = .half_open probes stats → w.passed = List.range (probes.stage settings) ∧
      settings.probes.probes.drop (probes.stage settings) = probes.current.options :: probes.probes) ∧
    (w.state.isClosed = false → (w.after settings c).state.isClosed = true →
      ∃ result now, c = .exit result .probe now ∧ result ≠ .abandoned ∧
        (w.after settings c).passed = List.range settings.probes.probes.length) ∧
    (w.state.isOpen = false → (w.after settings c).state.isOpen = true →
      (∃ health result now, w.state = .closed health ∧ c = .exit result .normal now ∧
        (health.record result now).health_info.status = .unhealthy) ∨
      (∃ probes stats result now, w.state = .half_open probes stats ∧ c = .exit result .probe now ∧
        (probes.record result now).2 = .failure)) ∧
    (∀ mode now, c = .exit .abandoned mode now →
      ((w.after settings c).state.isClosed = true → w.state.isClosed = true) ∧
      ∀ probes stats probes' stats', w.state = .half_open probes stats →
        (w.after settings c).state = .half_open probes' stats' → probes'.probes = probes.probes) := by
  have hinv := reachable_inv hr
  have he := effect_of settings w.state c
  refine ⟨?_, ?_, ?_, ?_, ?_⟩
  · rintro now draw mode rfl ha
    exact enter_accepted hinv ht ha
  · intro probes stats hs
    unfold World.Inv at hinv
    rw [hs] at hinv
    have hat := hinv.2
    rw [hat.stage_eq]
    exact ⟨hat.passed_eq, hat.stages⟩
  · intro hc hc'
    obtain ⟨s, last, opened_at, passed⟩ := w
    unfold World.after World.Inv at *
    simp only at hc hc' he hinv ⊢
    generalize s.call settings c = s' at he hc' ⊢
    cases he with
    | closed => cases hc
    | recovered probes stats result now health ha hp hrep =>
      refine ⟨result, now, rfl, ha, ?_⟩
      have hat := hinv.2
      have hl := congrArg List.length hat.stages
      rw [length_drop, length_cons, hp, length_nil] at hl
      rw [hrep, hat.stage_eq]
      simp only [isOpen, Bool.false_and, Bool.false_eq_true, if_false, Option.toList_some]
      rw [show settings.probes.probes.length = passed.length + 1 by omega, range_succ, ← hat.passed_eq]
    | _ => cases hc'
  · intro ho ho'
    change (w.state.call settings c).isOpen = true at ho'
    generalize hs : w.state = s at he ho ho' ⊢
    generalize s.call settings c = s' at he ho'
    cases he with
    | opened => cases ho
    | unhealthy health result now stats hv => exact .inl ⟨health, result, now, rfl, rfl, hv⟩
    | failed probes stats stats' result now hv => exact .inr ⟨probes, stats, result, now, rfl, rfl, hv⟩
    | _ => cases ho'
  · rintro mode now rfl
    change (((w.state.call settings (.exit .abandoned mode now)).isClosed = true → _) ∧
      ∀ probes stats probes' stats', _ → w.state.call settings (.exit .abandoned mode now) = _ → _)
    generalize w.state = s at he ⊢
    generalize s.call settings (.exit .abandoned mode now) = s' at he ⊢
    cases he with
    | closed => exact ⟨fun _ => rfl, fun _ _ _ _ h => by cases h⟩
    | opened => exact ⟨fun h => h, fun _ _ _ _ h => by cases h⟩
    | half_open probes probes' stats stats' _ hp =>
      refine ⟨(fun h => by cases h), ?_⟩
      rintro _ _ _ _ ⟨⟩ ⟨⟩
      exact hp
    | unhealthy => exact ⟨(fun h => by cases h), fun _ _ _ _ h => by cases h⟩
    | failed => exact ⟨(fun h => by cases h), fun _ _ _ _ _ h => by cases h⟩
    | advanced _ _ _ _ _ _ _ ha | recovered _ _ _ _ _ ha => exact absurd rfl ha

/-- Opens on the first failure, for 5 s; a single probe with a cooldown of 2 s closes it again. -/
def quick : EngineOptions :=
  ⟨5000000000, .new 30000000000 (fun failures total => decide (total ≤ 2 * failures)) 1 .ignore,
    ⟨[.single_probe 2000000000 .ignore], List.cons_ne_nil _ _⟩⟩

/-- A failure opens the circuit, the break ends, a probe is let in and succeeds: every stage has then reported success. -/
theorem transitions_safe_recovery :
    let opened := (World.mk (State.new quick) 0 [] []).after quick (.exit .failure .normal 0)
    let probing := opened.after quick (.enter 5000000000 0)
    opened.state.isOpen = true ∧ probing.state.isClosed = false ∧
    ∃ result now, Call.exit .success .probe 5000000001 = .exit result .probe now ∧ result ≠ .abandoned ∧
      (probing.after quick (.exit .success .probe 5000000001)).passed = List.range quick.probes.probes.length := by
  intro opened probing
  have h0 : (system quick).Reachable ⟨new quick, 0, [], []⟩ := ⟨[], .init rfl⟩
  have h1 : (system quick).Reachable opened := h0.step (a := .exit .failure .normal 0) ⟨Nat.le_refl _, rfl, rfl⟩
  have h2 : (system quick).Reachable probing := h1.step (a := .enter 5000000000 0) ⟨by decide, rfl, rfl⟩
  exact ⟨by decide, by decide, (transitions_safe quick h2 _ (by decide)).2.2.1 (by decide) (by decide)⟩

end Breaker
