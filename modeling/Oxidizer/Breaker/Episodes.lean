import Oxidizer.Breaker.Safety
/-!
# Which results a breaker episode sees

An episode is a stretch of time in which the circuit stays closed, open or
half-open. Callers hold a ticket between their `enter` and their `exit`; the
code puts only the mode on it, the model also the episode. A result that is
acted on after the circuit opened in between belongs to an earlier episode:
the two-valued mode cannot tell a probe of this half-open episode from one of
an earlier one, nor a normal execution of this closed episode from one that
started before the outage. Executions shorter than the break cannot be late
in this way.
-/

namespace Breaker

open Lib List

inductive Kind where
  | closed
  | opened
  | half_open
deriving DecidableEq

def State.kind : State → Kind
  | .closed _ => .closed
  | .opened _ _ => .opened
  | .half_open _ _ => .half_open

/-- An accepted execution that has not exited: its mode, and when and in which episode it was accepted. -/
structure Ticket where
  mode : ExecutionMode
  episode : Nat
  openings : Nat
  entered_at : Nat
deriving DecidableEq

/-- The engine with the number of the current episode, the executions in
flight, and the results it acted on, each with the episode it counted in. -/
structure Callers where
  world : World
  episode : Nat
  tickets : List Ticket
  recorded : List (Ticket × Nat)

/-- What a caller does: enter, or exit with the ticket at a place in `tickets`. -/
inductive Action where
  | enter (now draw : Nat)
  | exit (place : Nat) (result : ExecutionResult) (now : Nat)

/-- The engine after a call; an episode ends when the kind of state changes. -/
def Callers.called (settings : EngineOptions) (w : Callers) (c : Call) (tickets : List Ticket)
    (recorded : List (Ticket × Nat)) : Callers :=
  let world := w.world.after settings c
  { world
    episode := if world.state.kind = w.world.state.kind then w.episode else w.episode + 1
    tickets
    recorded }

section
variable {settings : EngineOptions} {w : Callers} {c : Call}

theorem Callers.called_same (hk : (w.world.after settings c).state.kind = w.world.state.kind) (tickets : List Ticket)
    (recorded : List (Ticket × Nat)) :
    w.called settings c tickets recorded = ⟨w.world.after settings c, w.episode, tickets, recorded⟩ := by
  unfold Callers.called
  simp only [if_pos hk]

theorem Callers.called_changed (hk : (w.world.after settings c).state.kind ≠ w.world.state.kind)
    (tickets : List Ticket) (recorded : List (Ticket × Nat)) :
    w.called settings c tickets recorded = ⟨w.world.after settings c, w.episode + 1, tickets, recorded⟩ := by
  unfold Callers.called
  simp only [if_neg hk]

end

/-- The results the engine records: those of normal executions while it is closed, of probes while it is half-open. -/
def ActedOn (s : State) (mode : ExecutionMode) : Prop :=
  (s.kind = .closed ∧ mode = .normal) ∨ (s.kind = .half_open ∧ mode = .probe)

instance (s : State) (mode : ExecutionMode) : Decidable (ActedOn s mode) := inferInstanceAs (Decidable (_ ∨ _))

def Callers.entered (settings : EngineOptions) (w : Callers) (now draw : Nat) : Callers :=
  let w' := w.called settings (.enter now draw) w.tickets w.recorded
  match (w.world.state.enter now draw settings).2 with
  | .accepted mode => { w' with tickets := w.tickets ++ [⟨mode, w'.episode, w'.world.opened_at.length, now⟩] }
  | .rejected => w'

def Callers.exited (settings : EngineOptions) (w : Callers) (place : Nat) (k : Ticket) (result : ExecutionResult)
    (now : Nat) : Callers :=
  w.called settings (.exit result k.mode now) (w.tickets.eraseIdx place)
    (if ActedOn w.world.state k.mode then w.recorded ++ [(k, w.episode)] else w.recorded)

/-- Every interleaving of callers, each exit carrying the mode of its own enter. -/
def callers (settings : EngineOptions) : Lts Callers Action where
  init w := w = ⟨⟨State.new settings, 0, [], []⟩, 0, [], []⟩
  step w a w' :=
    match a with
    | .enter now draw =>
      w.world.now ≤ now ∧ w.world.state.panics settings (.enter now draw) = false ∧ w' = w.entered settings now draw
    | .exit place result now =>
      w.world.now ≤ now ∧ ∃ k, w.tickets[place]? = some k ∧ w.world.state.panics settings (.exit result k.mode now) = false ∧
        w' = w.exited settings place k result now

/-- Every result acted on counted in the episode in which its execution was admitted. -/
def Isolated (w : Callers) : Prop := ∀ r ∈ w.recorded, r.1.episode = r.2

/-- An exit is timely if the circuit has not opened since its `enter`, or if its result is not acted on. -/
def Timely (w : Callers) : Action → Prop
  | .enter _ _ => True
  | .exit place _ _ => ∀ k, w.tickets[place]? = some k →
      k.openings = w.world.opened_at.length ∨ ¬ ActedOn w.world.state k.mode

/-- What the engine's decisions depend on: everything but the statistics. -/
def State.core : State → State
  | .closed health => .closed health
  | .opened open_until _ => .opened open_until (Stats.new 0)
  | .half_open probes _ => .half_open probes (Stats.new 0)

variable {mode : ExecutionMode}

theorem exit_ignored {s : State} (h : ¬ ActedOn s mode) (result : ExecutionResult) (now : Nat)
    (settings : EngineOptions) :
    (s.exit result mode now settings).1.core = s.core ∧ (s.exit result mode now settings).2 = .unchanged := by
  cases s with
  | closed health =>
    cases mode with
    | normal => exact absurd (.inl ⟨rfl, rfl⟩) h
    | probe => exact ⟨rfl, rfl⟩
  | opened open_until stats => cases mode <;> exact ⟨rfl, rfl⟩
  | half_open probes stats =>
    cases mode with
    | normal => exact ⟨rfl, rfl⟩
    | probe => exact absurd (.inr ⟨rfl, rfl⟩) h

/-! ## Tickets over a run -/

/-- What an outstanding ticket says about the engine. -/
structure Ticket.Inv (w : Callers) (k : Ticket) : Prop where
  entered : k.entered_at ≤ w.world.now
  openings_le : k.openings ≤ w.world.opened_at.length
  current : k.openings = w.world.opened_at.length →
    (k.mode = .normal ∧ w.world.state.kind = .closed ∧ k.episode = w.episode) ∨
    (k.mode = .probe ∧ ((w.world.state.kind = .half_open ∧ k.episode = w.episode) ∨ w.world.state.kind = .closed))
  episode_le : k.episode ≤ w.episode
  stale : k.openings < w.world.opened_at.length → k.episode < w.episode
  opened_since : k.openings < w.world.opened_at.length → ∃ t ∈ w.world.opened_at, k.entered_at ≤ t

/-- How a call moves the engine from kind to kind, and what that does to the openings. -/
inductive Move (settings : EngineOptions) (w : World) (c : Call) : Prop where
  | stays (hk : (w.after settings c).state.kind = w.state.kind) (ho : (w.after settings c).opened_at = w.opened_at)
  | opens (hk : w.state.kind ≠ .opened) (hk' : (w.after settings c).state.kind = .opened)
      (ho : (w.after settings c).opened_at = c.now :: w.opened_at)
  | probes (hk : w.state.kind = .opened) (hk' : (w.after settings c).state.kind = .half_open)
      (ho : (w.after settings c).opened_at = w.opened_at)
  | closes (hk : w.state.kind = .half_open) (hk' : (w.after settings c).state.kind = .closed)
      (ho : (w.after settings c).opened_at = w.opened_at)

theorem move_of (settings : EngineOptions) (w : World) (c : Call) : Move settings w c := by
  have he := effect_of settings w.state c
  obtain ⟨s, now, opened_at, passed⟩ := w
  generalize hs : s.call settings c = s' at he
  have hstate : (World.after settings ⟨s, now, opened_at, passed⟩ c).state = s' := hs
  have hopen : (World.after settings ⟨s, now, opened_at, passed⟩ c).opened_at =
      if s'.isOpen && !s.isOpen then c.now :: opened_at else opened_at := by
    simp only [World.after, hs]
  cases he with
  | closed | opened | half_open | advanced => exact .stays (by rw [hstate]; rfl) hopen
  | probing => exact .probes rfl (by rw [hstate]; rfl) hopen
  | unhealthy | failed => exact .opens (by simp [State.kind]) (by rw [hstate]; rfl) hopen
  | recovered => exact .closes rfl (by rw [hstate]; rfl) hopen

variable {settings : EngineOptions}

variable {w : Callers} {k : Ticket}

theorem Ticket.Inv.called (h : k.Inv w) {c : Call}
    (ht : w.world.now ≤ c.now) (tickets : List Ticket) (recorded : List (Ticket × Nat)) :
    k.Inv (w.called settings c tickets recorded) := by
  obtain ⟨h1, h2, h3, h4, h5, h6⟩ := h
  cases move_of settings w.world c with
  | stays hk ho =>
    rw [Callers.called_same hk]
    exact ⟨Nat.le_trans h1 ht, ho ▸ h2, by rw [ho, hk]; exact h3, h4, by rw [ho]; exact h5, by rw [ho]; exact h6⟩
  | opens hk hk' ho =>
    rw [Callers.called_changed (by rw [hk']; exact fun he => hk he.symm)]
    refine ⟨Nat.le_trans h1 ht, ?_, ?_, Nat.le_succ_of_le h4, fun _ => Nat.lt_succ_of_le h4, fun _ => ?_⟩
    · rw [ho]; exact Nat.le_succ_of_le h2
    · intro he
      rw [ho, length_cons] at he
      omega
    · exact ⟨c.now, by rw [ho]; exact mem_cons_self, Nat.le_trans h1 ht⟩
  | probes hk hk' ho =>
    rw [Callers.called_changed (by rw [hk, hk']; decide)]
    refine ⟨Nat.le_trans h1 ht, ho ▸ h2, ?_, Nat.le_succ_of_le h4, ?_, by rw [ho]; exact h6⟩
    · intro he
      rw [ho] at he
      rcases h3 he with ⟨-, hc, -⟩ | ⟨-, ⟨hc, -⟩ | hc⟩ <;> rw [hk] at hc <;> cases hc
    · intro hlt
      rw [ho] at hlt
      exact Nat.lt_succ_of_lt (h5 hlt)
  | closes hk hk' ho =>
    rw [Callers.called_changed (by rw [hk, hk']; decide)]
    refine ⟨Nat.le_trans h1 ht, ho ▸ h2, ?_, Nat.le_succ_of_le h4, ?_, by rw [ho]; exact h6⟩
    · intro he
      rw [ho] at he
      rcases h3 he with ⟨-, hc, -⟩ | ⟨hm, -⟩
      · rw [hk] at hc; cases hc
      · exact .inr ⟨hm, .inr hk'⟩
    · intro hlt
      rw [ho] at hlt
      exact Nat.lt_succ_of_lt (h5 hlt)

variable {now : Nat}

/-- Normal executions are admitted into a closed circuit, probes into a half-open one. -/
theorem enter_kind {s : State} {draw : Nat}
    (ha : (s.enter now draw settings).2 = .accepted mode) :
    (mode = .normal ∧ (s.enter now draw settings).1.kind = .closed) ∨
    (mode = .probe ∧ (s.enter now draw settings).1.kind = .half_open) := by
  cases s with
  | closed health => cases ha; exact .inl ⟨rfl, rfl⟩
  | opened open_until stats =>
    by_cases hnow : now ≥ open_until
    · simp only [State.enter, if_pos hnow] at ha ⊢
      exact .inr ⟨EnterCircuitResult.from_accepted ha, rfl⟩
    · simp only [State.enter, if_neg hnow] at ha
      cases ha
  | half_open probes stats => exact .inr ⟨EnterCircuitResult.from_accepted ha, rfl⟩

theorem Ticket.Inv.admitted {draw : Nat}
    (ha : (w.world.state.enter now draw settings).2 = .accepted mode) (tickets : List Ticket)
    (recorded : List (Ticket × Nat)) :
    Ticket.Inv (w.called settings (.enter now draw) tickets recorded)
      ⟨mode, (w.called settings (.enter now draw) tickets recorded).episode,
        (w.world.after settings (.enter now draw)).opened_at.length, now⟩ := by
  refine ⟨Nat.le_refl _, Nat.le_refl _, fun _ => ?_, Nat.le_refl _, fun h => absurd h (Nat.lt_irrefl _),
    fun h => absurd h (Nat.lt_irrefl _)⟩
  rcases enter_kind ha with ⟨hm, hk⟩ | ⟨hm, hk⟩
  · exact .inl ⟨hm, hk, rfl⟩
  · exact .inr ⟨hm, .inl ⟨hk, rfl⟩⟩

/-- The engine of a run of callers is a run of the engine, and every outstanding ticket says what it should. -/
def Callers.Inv (settings : EngineOptions) (w : Callers) : Prop :=
  (system settings).Reachable w.world ∧ ∀ k ∈ w.tickets, k.Inv w

theorem callers_inv (hr : (callers settings).Reachable w) :
    w.Inv settings := by
  refine hr.inv (Callers.Inv settings) ?_ ?_
  · rintro w rfl
    exact ⟨⟨[], .init rfl⟩, by simp⟩
  · rintro w a w' - ⟨hreach, hk⟩ hs
    cases a with
    | enter now draw =>
      obtain ⟨ht, hreturns, rfl⟩ := hs
      have hreach' : (system settings).Reachable (w.world.after settings (.enter now draw)) :=
        hreach.step (a := .enter now draw) ⟨ht, hreturns, rfl⟩
      unfold Callers.entered
      split
      · rename_i mode ha
        refine ⟨hreach', fun k hm => ?_⟩
        rcases mem_append.mp hm with hm | hm
        · exact (hk k hm).called (c := .enter now draw) ht _ _
        · rw [mem_singleton.mp hm]
          exact Ticket.Inv.admitted ha _ _
      · exact ⟨hreach', fun k hm => (hk k hm).called (c := .enter now draw) ht _ _⟩
    | exit place result now =>
      obtain ⟨ht, k, hget, hreturns, rfl⟩ := hs
      refine ⟨hreach.step (a := .exit result k.mode now) ⟨ht, hreturns, rfl⟩, fun k' hm => ?_⟩
      exact (hk k' (mem_of_mem_eraseIdx hm)).called (c := .exit result k.mode now) ht _ _

/-! ## The theorem -/

/-- An execution that exits less than a break after it entered is not acted on after an opening in between. -/
theorem short_execution (h : w.Inv settings) (hk : k ∈ w.tickets)
    (ha : ActedOn w.world.state k.mode) (ht : w.world.now ≤ now)
    (hs : now < k.entered_at + settings.break_duration) : k.openings = w.world.opened_at.length := by
  obtain ⟨hreach, hticket⟩ := h
  have hki := hticket k hk
  have hbreaks : ∀ t ∈ w.world.opened_at, t + settings.break_duration ≤ w.world.now := by
    have hinv := reachable_inv hreach
    unfold World.Inv at hinv
    rcases ha with ⟨hkind, -⟩ | ⟨hkind, -⟩ <;> cases hst : w.world.state <;> rw [hst] at hkind hinv <;> cases hkind
    · exact hinv
    · exact hinv.1
  by_contra hne
  obtain ⟨t, hm, hle⟩ := hki.opened_since (Nat.lt_of_le_of_ne hki.openings_le hne)
  have := hbreaks t hm
  omega

/-- A result acted on counts in its own episode exactly if the circuit has not opened since its `enter`. -/
theorem episode_iff (h : w.Inv settings) (hk : k ∈ w.tickets)
    (ha : ActedOn w.world.state k.mode) : k.episode = w.episode ↔ k.openings = w.world.opened_at.length := by
  have hki := h.2 k hk
  refine ⟨fun he => Nat.le_antisymm hki.openings_le (Nat.not_lt.mp fun hlt => ?_), fun he => ?_⟩
  · exact absurd he (Nat.ne_of_lt (hki.stale hlt))
  · rcases hki.current he with ⟨-, -, hep⟩ | ⟨hm, ⟨-, hep⟩ | hc⟩
    · exact hep
    · exact hep
    · -- a probe that exits into the closed circuit its episode led to is not acted on
      rcases ha with ⟨-, hn⟩ | ⟨hh, -⟩
      · rw [hm] at hn; cases hn
      · rw [hc] at hh; cases hh

theorem isolated_step {w' : Callers} {a : Action} (h : w.Inv settings) (hi : Isolated w)
    (hs : (callers settings).step w a w') : Isolated w' ↔ Timely w a := by
  cases a with
  | enter now draw =>
    obtain ⟨-, -, rfl⟩ := hs
    have hrec : (w.entered settings now draw).recorded = w.recorded := by
      unfold Callers.entered
      split <;> rfl
    unfold Isolated Timely
    rw [hrec]
    exact iff_of_true hi trivial
  | exit place result now =>
    obtain ⟨-, k, hget, -, rfl⟩ := hs
    have hk : k ∈ w.tickets := mem_of_getElem? hget
    have htimely : Timely w (.exit place result now) ↔
        k.openings = w.world.opened_at.length ∨ ¬ ActedOn w.world.state k.mode := by
      constructor
      · intro ht
        exact ht k hget
      · intro ht k' hget'
        rw [hget] at hget'
        cases hget'
        exact ht
    rw [htimely]
    by_cases ha : ActedOn w.world.state k.mode
    · have hrec : (w.exited settings place k result now).recorded = w.recorded ++ [(k, w.episode)] := if_pos ha
      unfold Isolated
      rw [hrec, or_iff_left (not_not_intro ha), ← episode_iff h hk ha, forall_mem_append, forall_mem_singleton]
      exact and_iff_right hi
    · have hrec : (w.exited settings place k result now).recorded = w.recorded := if_neg ha
      unfold Isolated
      rw [hrec]
      exact iff_of_true hi (.inr ha)

/-- In every run of callers whose exits are all timely, every result acted on
counted in the episode in which it was admitted. An exit that is not timely
breaks this wherever it held; an exit that comes less than a break after its
`enter` is timely; and a result that is not acted on changes no decision. -/
theorem isolated_of_timely (settings : EngineOptions) :
    (∀ w, ((callers settings).limit Timely).Reachable w → Isolated w) ∧
    (∀ w a w', (callers settings).Reachable w → Isolated w → (callers settings).step w a w' →
      (Isolated w' ↔ Timely w a)) ∧
    (∀ w place result now, (callers settings).Reachable w → w.world.now ≤ now →
      (∀ k, w.tickets[place]? = some k → now < k.entered_at + settings.break_duration) →
      Timely w (.exit place result now)) ∧
    (∀ (s : State) (mode : ExecutionMode) (result : ExecutionResult) (now : Nat), ¬ ActedOn s mode →
      (s.exit result mode now settings).1.core = s.core ∧ (s.exit result mode now settings).2 = .unchanged) := by
  refine ⟨fun w hr => ?_, fun w a w' hr hi hs => isolated_step (callers_inv hr) hi hs, ?_, ?_⟩
  · refine hr.inv Isolated ?_ ?_
    · rintro w rfl r hr
      cases hr
    · intro w a w' hreach hi hs
      exact (isolated_step (callers_inv hreach.of_limit) hi hs.1).mpr hs.2
  · intro w place result now hr ht hshort k hget
    by_cases ha : ActedOn w.world.state k.mode
    · exact .inl (short_execution (callers_inv hr) (mem_of_getElem? hget) ha ht (hshort k hget))
    · exact .inr ha
  · intro s mode result now ha
    exact exit_ignored ha result now settings

/-! ## Runs on fixed inputs -/

/-- The step of `callers` an action makes, if it makes one. -/
def Callers.perform (settings : EngineOptions) (w : Callers) : Action → Option Callers
  | .enter now draw =>
    if w.world.now ≤ now ∧ w.world.state.panics settings (.enter now draw) = false then some (w.entered settings now draw)
    else none
  | .exit place result now =>
    w.tickets[place]?.bind fun k =>
      if w.world.now ≤ now ∧ w.world.state.panics settings (.exit result k.mode now) = false then
        some (w.exited settings place k result now)
      else none

theorem Callers.perform_step (w : Callers) (a : Action) (w' : Callers)
    (h : w.perform settings a = some w') : (callers settings).step w a w' := by
  cases a with
  | enter now draw =>
    obtain ⟨⟨ht, hreturns⟩, h⟩ := Option.ite_none_right_eq_some.mp h
    exact ⟨ht, hreturns, (Option.some.inj h).symm⟩
  | exit place result now =>
    obtain ⟨k, hget, h⟩ := Option.bind_eq_some_iff.mp h
    obtain ⟨⟨ht, hreturns⟩, h⟩ := Option.ite_none_right_eq_some.mp h
    exact ⟨ht, k, hget, hreturns, (Option.some.inj h).symm⟩

def Callers.start (settings : EngineOptions) : Callers := ⟨⟨State.new settings, 0, [], []⟩, 0, [], []⟩

theorem Callers.start_run (settings : EngineOptions) : (callers settings).Run [] (.start settings) := .init rfl

/-- An execution enters the closed circuit, fails and opens it; a probe succeeds after the break and closes it. Both results
count in their own episodes. -/
theorem isolated_of_timely_recovery :
    ∃ w, ((callers quick).limit Timely).Reachable w ∧
      w.recorded = [(⟨.normal, 0, 0, 0⟩, 0), (⟨.probe, 2, 1, 6000000000⟩, 2)] ∧ w.world.state.kind = .closed ∧ Isolated w := by
  have h : ((callers quick).limit Timely).Reachable (.start quick) := ⟨[], .init rfl⟩
  have h := h.step (a := Action.enter 0 0) ⟨Callers.perform_step _ _ _ rfl, trivial⟩
  have h := h.step (a := Action.exit 0 .failure 1) ⟨Callers.perform_step _ _ _ rfl, fun k hk => .inl (by cases hk; rfl)⟩
  have h := h.step (a := Action.enter 6000000000 0) ⟨Callers.perform_step _ _ _ rfl, trivial⟩
  have h := h.step (a := Action.exit 0 .success 7000000000) ⟨Callers.perform_step _ _ _ rfl, fun k hk => .inl (by cases hk; rfl)⟩
  exact ⟨_, h, rfl, rfl, (isolated_of_timely quick).1 _ h⟩

/-- Two executions enter, one fails and opens the circuit; the other keeps
running. Two probes enter the half-open circuit, the second after the cooldown;
it fails and reopens the circuit while the first keeps running. A third probe
enters the next half-open episode. -/
def lateResults : List Action :=
  [.enter 0 0, .enter 0 0, .exit 1 .failure 0, .enter 5000000000 0, .enter 8000000000 0,
    .exit 2 .failure 8000000000, .enter 13000000000 0]

/-- After `lateResults` the probe of the first half-open episode (number 2)
succeeds and closes the circuit in the second (number 4), although the probe
of that episode is still running; the execution of the first closed episode
(number 0) then fails, is recorded in the new closed episode (number 5) and
opens the circuit again. -/
theorem late_results_counted :
    ∃ w closed reopened, (callers quick).Reachable w ∧ w.world.state.kind = .half_open ∧ w.episode = 4 ∧
      (callers quick).step w (.exit 1 .success 13000000000) closed ∧ closed.world.state.kind = .closed ∧
      closed.recorded.getLast? = some (⟨.probe, 2, 1, 5000000000⟩, 4) ∧
      (callers quick).step closed (.exit 0 .failure 13000000000) reopened ∧ reopened.world.state.kind = .opened ∧
      reopened.recorded.getLast? = some (⟨.normal, 0, 0, 0⟩, 5) ∧ ¬ Isolated reopened := by
  have hrun := (Callers.start_run quick).foldlM Callers.perform_step lateResults rfl
  refine ⟨_, _, _, hrun.reachable, rfl, rfl, Callers.perform_step _ _ _ rfl, rfl, rfl, Callers.perform_step _ _ _ rfl, rfl, rfl, ?_⟩
  intro hi
  exact absurd (hi (⟨.normal, 0, 0, 0⟩, 5) (by decide)) (by decide)

end Breaker
