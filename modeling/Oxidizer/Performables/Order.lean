import Oxidizer.Performables.Queues
/-!
# The channel as a queue

The calls of a run, in the order of their critical sections, are the calls of a
bounded queue, and that section lies between the start of the call and its
return. When everything has come to rest, nobody waits for what is there.
-/

namespace Performables

open Lib List QueueState Channel Event

/-! ## Bounded queues -/

/-- A bounded queue whose sides can be closed. -/
structure Fifo (α : Type) where
  items : List α
  capacity : Option Nat
  send_closed : Bool
  receive_closed : Bool

/-- What can happen to a queue, with the outcome of a call. -/
inductive Point (α : Type) where
  | call (call : Call α) (outcome : Outcome α)
  | shut (side : Side)
  | discard

namespace Fifo
variable {α : Type}

inductive Step : Fifo α → Point α → Fifo α → Prop where
  | accept {f : Fifo α} {value : α} (opened : f.send_closed = false) (room : ∀ n, f.capacity = some n → f.items.length < n) :
    Step f (.call (.send value) .sent) { f with items := f.items ++ [value] }
  | full {f : Fifo α} {value : α} {n : Nat} (opened : f.send_closed = false) (bound : f.capacity = some n)
    (no_room : n ≤ f.items.length) : Step f (.call (.send value) .full) f
  | refuse {f : Fifo α} {value : α} (closed : f.send_closed = true) : Step f (.call (.send value) .closed) f
  | take {f : Fifo α} {value : α} {items : List α} (first : f.items = value :: items) :
    Step f (.call .receive (.received value)) { f with items }
  | empty {f : Fifo α} (none : f.items = []) (opened : f.receive_closed = false) : Step f (.call .receive .empty) f
  | finish {f : Fifo α} (none : f.items = []) (closed : f.receive_closed = true) : Step f (.call .receive .closed) f
  | shut_send {f : Fifo α} : Step f (.shut .send) { f with send_closed := true }
  | shut_receive {f : Fifo α} : Step f (.shut .receive) { f with receive_closed := true }
  | discard {f : Fifo α} : Step f .discard { f with items := [], send_closed := true, receive_closed := true }

inductive Legal (f : Fifo α) : List (Point α) → Fifo α → Prop where
  | nil : Legal f [] f
  | snoc {points : List (Point α)} {point : Point α} {g g' : Fifo α} (h : Legal f points g) (step : Step g point g') :
    Legal f (points ++ [point]) g'

end Fifo

def Point.accepted {α : Type} : Point α → Option α
  | .call (.send value) .sent => some value
  | _ => none

def Point.received {α : Type} : Point α → Option α
  | .call _ (.received value) => some value
  | _ => none

/-- Values leave in the order they came in, each once; nothing is lost unless it is discarded. -/
theorem Fifo.Legal.order {α : Type} {capacity : Option Nat} {points : List (Point α)} {f : Fifo α}
    (h : Legal ⟨[], capacity, false, false⟩ points f) :
    f.capacity = capacity ∧ (∀ n, capacity = some n → f.items.length ≤ n) ∧
      points.filterMap Point.received ++ f.items <+: points.filterMap Point.accepted ∧
      (.discard ∈ points → f.send_closed = true) ∧
      (.discard ∉ points → points.filterMap Point.accepted = points.filterMap Point.received ++ f.items) := by
  induction h with
  | nil => simp
  | @snoc points point g g' h step ih =>
    obtain ⟨hcap, hlen, hpre, hclosed, heq⟩ := ih
    simp only [filterMap_append, filterMap_cons, filterMap_nil, mem_append, mem_singleton]
    cases step with
    | accept opened room =>
      have hno : Point.discard ∉ points := fun hmem => by simp [hclosed hmem] at opened
      refine ⟨hcap, fun n hn => ?_, ?_, ?_, ?_⟩
      · have := room n (hcap.trans hn)
        simp
        omega
      all_goals simp [Point.accepted, Point.received, heq hno, hno]
    | take first =>
      refine ⟨hcap, fun n hn => ?_, ?_, ?_, ?_⟩
      · have := hlen n hn
        simp only [first, length_cons] at this
        exact Nat.le_of_succ_le this
      all_goals simp_all [Point.accepted, Point.received]
    | discard =>
      refine ⟨hcap, by simp, ?_, by simp, by simp⟩
      simpa [Point.accepted, Point.received] using (prefix_append _ _).trans hpre
    | full | refuse | empty | finish | shut_send | shut_receive =>
      refine ⟨hcap, hlen, ?_, ?_, ?_⟩ <;> simp_all [Point.accepted, Point.received]

/-! ## The calls of a task -/

/-- Where a task is between its calls and in them. -/
inductive Phase (α : Type) where
  | out
  | called (call : Call α)
  | decided (outcome : Outcome α)

def Next.phase {α : Type} : Next α → Phase α
  | .again call => .called call
  | .finish none => .out
  | .finish (some outcome) => .decided outcome

def Op.phase {ι α : Type} : Op ι α → Phase α
  | .idle => .out
  | .attempt call _ | .check call | .register call | .lock call | .retry call | .enqueue call | .dequeue call
  | .pending call => .called call
  | .deactivate _ next | .cancel _ next | .recheck _ next | .notify _ next | .pop _ next | .popping _ _ _ _ next
  | .taking _ _ _ _ _ next | .unlocking _ _ _ next | .wake _ _ next => next.phase
  | .returned none => .out
  | .returned (some outcome) => .decided outcome

theorem Next.phase_op {ι α : Type} (next : Next α) : (next.op : Op ι α).phase = next.phase := by
  rcases next with _ | (_ | _) <;> rfl

def Event.task {ι α : Type} : Event ι α → Option ι
  | .invoke p _ | .effect p _ _ | .respond p _ | .abandon p => some p
  | .shut _ | .discard => none

def Event.point {ι α : Type} : Event ι α → Option (Point α)
  | .effect _ call outcome => some (.call call outcome)
  | .shut side => some (.shut side)
  | .discard => some .discard
  | _ => none

/-- A task starts a call, the call is decided once, and returns what was decided; or it is abandoned undecided. -/
inductive Tracks {ι α : Type} (p : ι) : List (Event ι α) → Phase α → Prop where
  | nil : Tracks p [] .out
  | other {history : List (Event ι α)} {phase : Phase α} {event : Event ι α} (h : Tracks p history phase)
    (other : event.task ≠ some p) : Tracks p (history ++ [event]) phase
  | invoke {history : List (Event ι α)} (h : Tracks p history .out) (call : Call α) :
    Tracks p (history ++ [.invoke p call]) (.called call)
  | effect {history : List (Event ι α)} {call : Call α} (h : Tracks p history (.called call)) (outcome : Outcome α) :
    Tracks p (history ++ [.effect p call outcome]) (.decided outcome)
  | respond {history : List (Event ι α)} {outcome : Outcome α} (h : Tracks p history (.decided outcome)) :
    Tracks p (history ++ [.respond p outcome]) .out
  | abandon {history : List (Event ι α)} {call : Call α} (h : Tracks p history (.called call)) :
    Tracks p (history ++ [.abandon p]) .out

def QueueState.fifo {α : Type} (s : QueueState α) : Fifo α :=
  ⟨s.values, s.capacity, s.send_is_closed, s.receive_is_closed⟩

namespace Channel
variable {ι α : Type}

def points (s : Channel ι α) : List (Point α) := s.history.filterMap Event.point

structure Ordered (s : Channel ι α) : Prop where
  legal : Fifo.Legal ⟨[], s.state.capacity, false, false⟩ s.points s.state.fifo
  tracks : ∀ p, Tracks p s.history (s.tasks p).op.phase
  kept : 0 < s.state.receivers → .discard ∉ s.points

variable [DecidableEq ι] {s : Channel ι α} {p : ι} {call : Call α}

variable {s' : Channel ι α}

variable (h : s.Ordered)
include h

omit [DecidableEq ι] in
theorem Ordered.quiet (history : s'.history = s.history) (state : s'.state = s.state)
    (phase : ∀ p', (s'.tasks p').op.phase = (s.tasks p').op.phase) : s'.Ordered := by
  refine ⟨?_, fun p' => ?_, ?_⟩
  · rw [points, history, state]
    exact h.legal
  · rw [history, phase]
    exact h.tracks p'
  · rw [points, history, state]
    exact h.kept

variable {t : Task ι α}

theorem Ordered.own (tasks : s'.tasks = (s.set p t).tasks)
    (history : s'.history = s.history) (state : s'.state = s.state) (phase : t.op.phase = (s.tasks p).op.phase) :
    s'.Ordered := by
  refine h.quiet history state fun p' => ?_
  rw [tasks, set_tasks]
  split
  · next hp => rw [hp, phase]
  · rfl

theorem Ordered.pair {r : ι} {tr : Task ι α}
    (tasks : s'.tasks = ((s.set r tr).set p t).tasks) (history : s'.history = s.history) (state : s'.state = s.state)
    (phase : t.op.phase = (s.tasks p).op.phase) (op : tr.op = (s.tasks r).op) : s'.Ordered := by
  refine h.quiet history state fun p' => ?_
  rw [tasks, set_tasks]
  split
  · next hp => rw [hp, phase]
  · rw [set_tasks]
    split
    · next hp => rw [hp, op]
    · rfl

theorem tracks_own {event : Event ι α} (hevent : event.task = some p)
    (hown : Tracks p (s.history ++ [event]) t.op.phase) (p' : ι) :
    Tracks p' (s.history ++ [event]) ((s.set p t).tasks p').op.phase := by
  rw [set_tasks]
  split
  · next hp => exact hp ▸ hown
  · next hp =>
    refine (h.tracks p').other ?_
    rw [hevent]
    exact fun heq => hp (Option.some.inj heq).symm

theorem Ordered.decides {mode : Mode} (hop : (s.tasks p).op = .attempt call mode)
    {state : QueueState α} {outcome : Outcome α} (hphase : t.op.phase = .decided outcome)
    (hcap : state.capacity = s.state.capacity) (hrecv : state.receivers = s.state.receivers)
    (hstep : Fifo.Step s.state.fifo (.call call outcome) state.fifo) :
    (({ s with state }.log [.effect p call outcome]).set p t).Ordered := by
  have hpoints : (({ s with state }.log [.effect p call outcome]).set p t).points = s.points ++ [.call call outcome] := by
    simp [points, set, log, point]
  refine ⟨?_, ?_, ?_⟩
  · rw [hpoints]
    change Fifo.Legal ⟨[], state.capacity, false, false⟩ _ state.fifo
    rw [hcap]
    exact h.legal.snoc hstep
  · refine tracks_own (s := s) h rfl ?_
    rw [hphase]
    have := h.tracks p
    rw [hop] at this
    exact this.effect outcome
  · rw [hpoints]
    intro hpos
    have hpos' : 0 < state.receivers := hpos
    have := h.kept (hrecv ▸ hpos')
    simpa using this

theorem Ordered.attempt {mode : Mode} (hop : (s.tasks p).op = .attempt call mode) :
    (s.op_step p).Ordered := by
  simp only [op_step, hop]
  have hquiet : ∀ op : Op ι α, op.phase = .called call → (s.set p { s.tasks p with op, token := false }).Ordered :=
    fun op hphase => h.own rfl rfl rfl (by rw [hop]; exact hphase)
  cases call with
  | send value =>
    simp only [attempted, attempt, try_send]
    by_cases hclosed : s.state.send_is_closed = true
    · simp only [hclosed, if_true]
      exact h.decides hop rfl rfl rfl (.refuse hclosed)
    have hopened : s.state.fifo.send_closed = false := Bool.eq_false_iff.mpr hclosed
    by_cases hfull : s.state.has_send_capacity = true
    · simp only [hclosed, hfull, Bool.not_true, Bool.false_eq_true, if_false]
      refine h.decides hop rfl rfl rfl (.accept hopened fun n hn => ?_)
      have hn' : s.state.capacity = some n := hn
      simpa [has_send_capacity, hn', fifo] using hfull
    · simp only [hclosed, hfull, Bool.not_false, Bool.false_eq_true, if_false, if_true]
      cases mode with
      | once =>
        cases hn : s.state.capacity with
        | none => simp [has_send_capacity, hn] at hfull
        | some n =>
          simp only [has_send_capacity, hn, Option.all_some, decide_eq_true_eq, not_lt] at hfull
          exact h.decides hop rfl rfl rfl (.full hopened hn hfull)
      | wait | block => exact hquiet _ rfl
  | receive =>
    simp only [attempted, attempt, try_receive]
    cases hvalues : s.state.values with
    | cons value values => exact h.decides hop rfl rfl rfl (.take hvalues)
    | nil =>
      by_cases hclosed : s.state.receive_is_closed = true
      · simp only [hclosed, if_true]
        exact h.decides hop rfl rfl rfl (.finish hvalues hclosed)
      · simp only [hclosed, Bool.false_eq_true, if_false]
        cases mode with
        | once => exact h.decides hop rfl rfl rfl (.empty hvalues (Bool.eq_false_iff.mpr hclosed))
        | wait | block => exact hquiet _ rfl

theorem Ordered.op_step (p : ι) : (s.op_step p).Ordered := by
  cases hop : (s.tasks p).op with
  | attempt call mode => exact h.attempt hop
  | returned outcome =>
    simp only [Channel.op_step, hop]
    cases outcome with
    | none =>
      refine h.own (p := p) rfl (append_nil _) rfl ?_
      rw [hop]
      rfl
    | some outcome =>
      refine ⟨?_, tracks_own (s := s) h rfl ?_, ?_⟩
      · simpa [points, Channel.set, Channel.log, filterMap_cons, point] using h.legal
      · have := h.tracks p
        rw [hop] at this
        exact this.respond
      · simpa [points, Channel.set, Channel.log, filterMap_cons, point] using h.kept
  | idle | pending => simpa only [Channel.op_step, hop] using h
  | check call =>
    simp only [Channel.op_step, hop]
    split
    · refine h.own (p := p) rfl rfl rfl ?_
      rw [hop]
      split <;> rfl
    · exact h.own (p := p) rfl rfl rfl (by rw [hop]; rfl)
  | retry call =>
    simp only [Channel.op_step, hop]
    split <;> exact h.own (p := p) rfl rfl rfl (by rw [hop]; rfl)
  | popping all wakers side sides next =>
    simp only [Channel.op_step, hop]
    split
    · exact h.own (p := p) rfl rfl rfl (by rw [hop]; rfl)
    · split
      · exact h.pair (p := p) rfl rfl rfl (by rw [hop]; rfl) rfl
      · exact h.quiet rfl rfl fun _ => rfl
  | taking r all wakers side sides next =>
    simp only [Channel.op_step, hop]
    refine h.pair (p := p) rfl rfl rfl ?_ rfl
    rw [hop]
    split <;> rfl
  | wake wakers sides next =>
    rcases wakers with _ | ⟨⟨r, poll⟩, wakers⟩
    · cases sides <;> simp only [Channel.op_step, hop] <;> refine h.own (p := p) rfl rfl rfl ?_
      · rw [hop]
        exact next.phase_op
      · rw [hop]
        rfl
    · simp only [Channel.op_step, hop]
      exact h.pair (p := p) rfl rfl rfl (by rw [hop]; rfl) rfl
  | cancel call next | recheck call next | notify side next =>
    simp only [Channel.op_step, hop]
    refine h.own (p := p) rfl rfl rfl ?_
    rw [hop]
    split <;> first | rfl | exact next.phase_op
  | register | lock | enqueue | dequeue | deactivate | pop | unlocking =>
    simp only [Channel.op_step, hop]
    exact h.own (p := p) rfl rfl rfl (by rw [hop]; rfl)

theorem Ordered.ends (hop : (s.tasks p).op = .idle) {state : QueueState α} (sides : List Side)
    (events : List (Event ι α)) (htask : ∀ event ∈ events, event.task = none)
    (hcap : state.capacity = s.state.capacity)
    (hlegal : Fifo.Legal ⟨[], s.state.capacity, false, false⟩ (s.points ++ events.filterMap Event.point) state.fifo)
    (hkept : 0 < state.receivers → 0 < s.state.receivers ∧ Point.discard ∉ events.filterMap Event.point) :
    (({ s with state }.log events).waking p sides).Ordered := by
  have hpoints : (({ s with state }.log events).waking p sides).points = s.points ++ events.filterMap point := by
    simp [points, waking, set, log]
  refine ⟨?_, ?_, ?_⟩
  · rw [hpoints]
    change Fifo.Legal ⟨[], state.capacity, false, false⟩ _ state.fifo
    rwa [hcap]
  · intro p'
    have hphase : ((({ s with state }.log events).waking p sides).tasks p').op.phase = (s.tasks p').op.phase := by
      rw [waking, set_tasks]
      split
      · next hp =>
        rw [hp, hop]
        rfl
      · rfl
    rw [hphase]
    change Tracks p' (s.history ++ events) _
    clear hlegal hkept hpoints hphase
    induction events using reverseRecOn with
    | nil => simpa using h.tracks p'
    | append_singleton events event ih =>
      rw [← append_assoc]
      refine (ih fun e he => htask e (by simp [he])).other ?_
      simp [htask event (by simp)]
  · rw [hpoints]
    intro hpos
    obtain ⟨hpos', hno⟩ := hkept hpos
    exact fun hmem => (mem_append.mp hmem).elim (h.kept hpos') hno

theorem Ordered.endpoint (hop : (s.tasks p).op = .idle) {e : Endpoint} (ha : s.Allowed e) :
    (s.endpoint_step p e).Ordered := by
  -- without events the queue is the same
  have hsame : ∀ state : QueueState α, state.fifo = s.state.fifo → state.capacity = s.state.capacity →
      (0 < state.receivers → 0 < s.state.receivers) → (waking { s with state } p []).Ordered := by
    intro state hfifo hcap hrecv
    have := h.ends hop [] [] (by simp) hcap (by simpa [hfifo] using h.legal)
      (fun hpos => ⟨hrecv hpos, by simp⟩)
    simpa [log] using this
  cases e with
  | close =>
    simp only [endpoint_step]
    split
    · exact hsame s.state rfl rfl id
    · refine h.ends hop _ _ (by simp [task]) rfl ?_ ?_
      · simpa [point, filterMap_cons, fifo, send_is_closed,
          receive_is_closed] using (h.legal.snoc .shut_send).snoc .shut_receive
      · exact fun hpos => ⟨hpos, by simp [point]⟩
  | clone_sender =>
    refine hsame _ ?_ rfl id
    have hpos : s.state.senders ≠ 0 := Nat.pos_iff_ne_zero.mp ha
    simp [fifo, send_is_closed, receive_is_closed, hpos]
  | clone_receiver =>
    refine hsame _ ?_ rfl fun _ => ha
    have hpos : s.state.receivers ≠ 0 := Nat.pos_iff_ne_zero.mp ha
    simp [fifo, send_is_closed, receive_is_closed, hpos]
  | drop_sender =>
    simp only [endpoint_step]
    have hpos : s.state.senders ≠ 0 := Nat.pos_iff_ne_zero.mp ha.1
    split
    · refine h.ends hop _ _ (by simp [task]) rfl ?_ ?_
      · simpa [point, filterMap_cons, fifo, send_is_closed, receive_is_closed] using h.legal.snoc .shut_receive
      · exact fun hpos => ⟨hpos, by simp [point]⟩
    · next hone =>
      refine hsame _ ?_ rfl id
      have hmore : s.state.senders - 1 ≠ 0 := by omega
      simp [fifo, send_is_closed, receive_is_closed, beq_false_of_ne hpos, beq_false_of_ne hmore]
  | drop_receiver =>
    simp only [endpoint_step]
    have hpos : s.state.receivers ≠ 0 := Nat.pos_iff_ne_zero.mp ha.1
    split
    · refine h.ends hop _ _ (by simp [task]) rfl ?_ ?_
      · simpa [point, filterMap_cons, fifo, send_is_closed, receive_is_closed] using h.legal.snoc .discard
      · simp
    · next hone =>
      refine hsame _ ?_ rfl fun _ => ha.1
      have hmore : s.state.receivers - 1 ≠ 0 := by omega
      simp [fifo, send_is_closed, receive_is_closed, beq_false_of_ne hpos, beq_false_of_ne hmore]

/-! ## Runs -/

theorem Ordered.step {a : Action ι α} (hs : (system ι α).step s a s') :
    s'.Ordered := by
  cases a with
  | call p call mode =>
    obtain ⟨hop, -, rfl⟩ := hs
    refine ⟨?_, tracks_own (s := s) h rfl ?_, ?_⟩
    · simpa [points, set, log, filterMap_cons, point] using h.legal
    · have := h.tracks p
      rw [hop] at this
      exact this.invoke call
    · simpa [points, set, log, filterMap_cons, point] using h.kept
  | endpoint p e =>
    obtain ⟨hop, ha, rfl⟩ := hs
    exact h.endpoint hop ha
  | step p =>
    obtain ⟨-, rfl⟩ := hs
    exact h.op_step p
  | poll p =>
    obtain ⟨call, hop, rfl⟩ := hs
    exact h.own (p := p) rfl rfl rfl (by rw [hop]; rfl)
  | drop p =>
    obtain ⟨call, hop, rfl⟩ := hs
    refine ⟨?_, tracks_own (s := s) h rfl ?_, ?_⟩
    · simpa [points, set, log, filterMap_cons, point] using h.legal
    · have := h.tracks p
      rw [hop] at this
      split <;> exact this.abandon
    · simpa [points, set, log, filterMap_cons, point] using h.kept

omit h

theorem Inv.op_step (inv : s.Inv) (hfree : ∀ side, (s.tasks p).op.locks = some side → s.holder side = none) :
    (s.op_step p).Inv := by
  cases hop : (s.tasks p).op with
  | idle | pending => simpa only [Channel.op_step, hop] using inv
  | attempt => exact inv.attempt hop
  | check => exact inv.check hop
  | register => exact inv.register hop
  | lock => exact inv.lock hop (hfree _ (by rw [hop]; rfl))
  | retry => exact inv.retry hop
  | enqueue => exact inv.enqueue hop
  | dequeue => exact inv.dequeue hop
  | deactivate => exact inv.deactivate hop
  | cancel => exact inv.cancel hop (hfree _ (by rw [hop]; rfl))
  | recheck => exact inv.recheck hop
  | notify => exact inv.notify hop
  | pop => exact inv.locks (.inl hop) (hfree _ (by rw [hop]; rfl))
  | popping all wakers side sides next =>
    cases hw : s.waiters side with
    | nil => exact inv.popped_last hop hw
    | cons r waiters =>
      cases hr : (s.tasks r).active with
      | false => exact inv.skips hop hw hr
      | true => exact inv.pops hop hw hr
  | taking => exact inv.takes hop
  | unlocking => exact inv.unlocking hop
  | wake wakers sides next =>
    rcases wakers with _ | ⟨⟨r, poll⟩, wakers⟩
    · rcases sides with _ | ⟨side, sides⟩
      · exact inv.woke_all hop
      · exact inv.locks (.inr ⟨_, hop⟩) (hfree _ (by rw [hop]; rfl))
    · exact inv.wakes hop
  | returned => exact inv.returned hop

theorem Inv.step {a : Action ι α} (inv : s.Inv) (hs : (system ι α).step s a s') : s'.Inv := by
  cases a with
  | call p call mode =>
    obtain ⟨hop, -, rfl⟩ := hs
    exact inv.invoke hop mode
  | endpoint p e =>
    obtain ⟨hop, ha, rfl⟩ := hs
    exact inv.endpoint hop ha
  | step p =>
    obtain ⟨hfree, rfl⟩ := hs
    exact inv.op_step hfree
  | poll p =>
    obtain ⟨call, hop, rfl⟩ := hs
    exact inv.poll hop
  | drop p =>
    obtain ⟨call, hop, rfl⟩ := hs
    exact inv.drop hop

theorem init_inv (h : (system ι α).init s) : s.Inv ∧ s.Ordered := by
  obtain ⟨hvalues, -, hsenders, hreceivers, hclosed, hwaiters, hhints, hholders, htasks, hhistory⟩ := h
  have hidle : ∀ side, ¬s.Busy side := by
    simp [Busy, hwaiters, htasks, Op.enqueues]
  refine ⟨⟨?_, ?_, ?_, ?_, fun p => ?_, fun side _ hb => absurd hb (hidle side), fun side _ hb => absurd hb (hidle side),
    fun hb => absurd hb (hidle _)⟩, ?_, fun p => ?_, ?_⟩
  · simp [hholders, htasks, Op.holds]
  · simp [hwaiters]
  · simp [htasks, Op.marks]
  · simp [hwaiters]
  · apply Task.Ok.away
    · simp [htasks, Op.waits]
    · simp [htasks]
    · simp [hwaiters]
  · have hfifo : s.state.fifo = ⟨[], s.state.capacity, false, false⟩ := by
      simp [fifo, send_is_closed, receive_is_closed, hvalues, hsenders, hreceivers, hclosed]
    rw [hfifo, points, hhistory]
    exact .nil
  · rw [hhistory, htasks]
    exact .nil
  · simp [points, hhistory]

theorem inv_of_reachable (h : (system ι α).Reachable s) : s.Inv ∧ s.Ordered :=
  h.inv (fun s => s.Inv ∧ s.Ordered) (fun _ => init_inv) fun _ _ _ _ hinv hs => ⟨hinv.1.step hs, hinv.2.step hs⟩

/-! ## At rest -/

/-- No operation is in progress, and every wake that arrived has been polled. -/
def Quiescent (s : Channel ι α) : Prop :=
  ∀ p, (s.tasks p).op = .idle ∨ ∃ call, (s.tasks p).op = .pending call ∧ (s.tasks p).woken = false

omit [DecidableEq ι] in
theorem Inv.rests (inv : s.Inv) (h : s.Quiescent) (hop : (s.tasks p).op = .pending call) :
    p ∈ s.waiters call.side ∧ (s.tasks p).token = false := by
  have hno : ¬s.Alert p ∧ ¬s.Popped p := by
    refine ⟨?_, ?_⟩
    · rintro (hw | ⟨r, hr⟩)
      · rcases h p with hop' | ⟨_, -, hw'⟩
        · simp [hop] at hop'
        · simp [hw'] at hw
      · rcases h r with hop' | ⟨_, hop', -⟩ <;> simp [hop', Op.wakers] at hr
    · rintro ⟨r, hr⟩
      rcases h r with hop' | ⟨_, hop', -⟩ <;> simp [hop', Op.takes] at hr
  have hparked := (inv.task p).parked call.side (by rw [hop]; rfl)
  have hmem : p ∈ s.waiters call.side := by tauto
  exact ⟨hmem, ((inv.task p).listed _ hmem).2.2⟩

omit [DecidableEq ι] in
theorem Inv.no_lost_wake (inv : s.Inv) (h : s.Quiescent) {side : Side} (hc : s.state.wait_complete side = true) :
    s.waiters side = [] := by
  by_contra hw
  have hbusy : s.Busy side := .inl hw
  cases hclosed : s.state.is_closed side with
  | true =>
    obtain ⟨r, hr⟩ := inv.swept side hclosed hbusy
    rcases h r with hop | ⟨_, hop, -⟩ <;> simp [hop, Op.sweeps] at hr
  | false =>
    obtain ⟨F, hcard, hF⟩ := inv.backed side hclosed hbusy
    have hpos : 0 < s.state.resource side := by
      cases side with
      | send =>
        cases hcap : s.state.capacity with
        | none => exact absurd hcap (inv.bounded hbusy)
        | some n =>
          have hopen : s.state.send_is_closed = false := hclosed
          simp [wait_complete, hopen, has_send_capacity, hcap] at hc
          simpa [resource, hcap, Nat.sub_pos_iff_lt] using hc
      | receive =>
        have hopen : s.state.receive_is_closed = false := hclosed
        simp [wait_complete, hopen] at hc
        exact length_pos_iff.mpr hc
    obtain ⟨r, hr⟩ := Finset.card_pos.mp (hpos.trans_le hcard)
    have hcredit := hF r hr
    rcases h r with hop | ⟨call, hop, -⟩
    · simp [Task.Credit, hop, Op.looks, Op.notifies] at hcredit
    · simp [Task.Credit, hop, Op.looks, Op.notifies, (inv.rests h hop).2] at hcredit

/-- The channel is linearizable to a bounded queue and loses no wake-up: in every reachable state the decided calls are
a legal history of the queue, each decided between its start and its return and abandoned only undecided; values are
received in the order they were accepted, and none is lost while there is a receiver; and at rest every wait is in its
queue and no queue holds a waiter whose side has something for it or is closed. -/
theorem queue_channel_linearizable (h : (system ι α).Reachable s) :
    (Fifo.Legal ⟨[], s.state.capacity, false, false⟩ s.points s.state.fifo ∧
      ∀ p, Tracks p s.history (s.tasks p).op.phase) ∧
    (s.points.filterMap Point.received <+: s.points.filterMap Point.accepted ∧
      (0 < s.state.receivers →
        s.points.filterMap Point.accepted = s.points.filterMap Point.received ++ s.state.values) ∧
      ∀ n, s.state.capacity = some n → s.state.values.length ≤ n) ∧
    (s.Quiescent →
      (∀ side, s.state.wait_complete side = true → s.waiters side = []) ∧
      ∀ p call, (s.tasks p).op = .pending call → p ∈ s.waiters call.side) := by
  obtain ⟨inv, hord⟩ := inv_of_reachable h
  obtain ⟨-, hlen, hpre, -, heq⟩ := hord.legal.order
  refine ⟨⟨hord.legal, hord.tracks⟩, ⟨?_, fun hpos => heq (hord.kept hpos), hlen⟩, fun hq => ⟨?_, ?_⟩⟩
  · exact (prefix_append _ _).trans hpre
  · exact fun side hc => inv.no_lost_wake hq hc
  · exact fun p call hop => (inv.rests hq hop).1

def start (ι : Type) {α : Type} (capacity : Option Nat) : Channel ι α where
  state := ⟨[], capacity, 1, 1, false⟩
  waiters _ := []
  has_waiters _ := false
  holder _ := none
  tasks _ := ⟨.idle, false, false, none, 0, false, false⟩
  history := []

theorem reachable_op_step (h : (system ι α).Reachable s) (p : ι)
    (hfree : ∀ side, (s.tasks p).op.locks = some side → s.holder side = none) : (system ι α).Reachable (s.op_step p) :=
  h.step (show (system ι α).step s (.step p) _ from ⟨hfree, rfl⟩)

/-- A receiver waits on an empty channel. -/
def waiting : Channel (Fin 2) Nat :=
  let s : Channel (Fin 2) Nat := start (Fin 2) (some 1)
  (Nat.iterate (op_step · 0) 6 ((s.log [.invoke 0 .receive]).set 0 ⟨.attempt .receive .wait, false, false, none, 1, false, false⟩))

theorem queue_channel_linearizable_waiting : waiting.Quiescent ∧ waiting.waiters .receive = [0] ∧
    waiting.state.wait_complete .send = true ∧ waiting.waiters .send = [] := by
  have h0 : (system (Fin 2) Nat).Reachable (start (Fin 2) (some 1)) :=
    ⟨[], .init ⟨rfl, by simp [start], rfl, rfl, rfl, fun _ => rfl, fun _ => rfl, fun _ => rfl, fun _ => rfl, rfl⟩⟩
  have h1 := h0.step (show (system (Fin 2) Nat).step _ (.call 0 .receive .wait) _ from ⟨rfl, Nat.one_pos, rfl⟩)
  have h2 := reachable_op_step h1 0 (fun side => by cases side <;> decide)
  have h3 := reachable_op_step h2 0 (fun side => by cases side <;> decide)
  have h4 := reachable_op_step h3 0 (fun side => by cases side <;> decide)
  have h5 := reachable_op_step h4 0 (fun side => by cases side <;> decide)
  have h6 := reachable_op_step h5 0 (fun side => by cases side <;> decide)
  have h7 : (system (Fin 2) Nat).Reachable waiting := reachable_op_step h6 0 (fun side => by cases side <;> decide)
  have hq : waiting.Quiescent := fun p =>
    match p with
    | 0 => .inr ⟨.receive, rfl, rfl⟩
    | 1 => .inl rfl
  exact ⟨hq, rfl, rfl, ((queue_channel_linearizable h7).2.2 hq).1 .send rfl⟩

end Channel

end Performables
