import Oxidizer.Performables.Wakes
/-!
# Steps outside of the wait queues

The critical sections of the channel, and the steps in which a task only reads
the channel or the hint, or changes its own waiter.
-/

namespace Performables

open Op QueueState

namespace Channel
variable {ι α : Type} [DecidableEq ι] {s : Channel ι α} {p : ι} {call : Call α} {next : Next α}

variable (inv : s.Inv)
include inv

theorem Inv.check (hop : (s.tasks p).op = .check call) : (s.op_step p).Inv := by
  obtain ⟨h1, h2, h3, h4, h5, h6, h7⟩ := inv.task p
  simp only [op_step, hop]
  split
  · refine inv.local hop (by split <;> exact .of rfl) ?_ ?_ ?_
    · split <;> simp [enqueues]
    · intro side h
      refine .inl (h.of_eq rfl ?_ ?_) <;> split <;> rw [hop] <;> rfl
    · intro alert ha
      -- without a waiter the task is in no queue
      constructor <;> grind
  · refine inv.goes_on hop (.of rfl) rfl fun alert ha => ?_
    constructor <;> grind

theorem Inv.register (hop : (s.tasks p).op = .register call) : (s.op_step p).Inv := by
  obtain ⟨h1, h2, h3, h4, h5, h6, h7⟩ := inv.task p
  simp only [op_step, hop]
  refine inv.goes_on hop (.of rfl) rfl fun alert ha => ?_
  constructor <;> grind

theorem Inv.retry (hop : (s.tasks p).op = .retry call) : (s.op_step p).Inv := by
  obtain ⟨h1, h2, h3, h4, h5, h6, h7⟩ := inv.task p
  simp only [op_step, hop]
  split
  · refine inv.goes_on hop (.of rfl) rfl fun alert ha => ?_
    constructor <;> grind
  · next hc =>
    have hzero := (not_complete (Bool.eq_false_iff.mpr hc)).2.1
    refine inv.local hop (.of rfl) ?_ ?_ ?_
    · simpa [enqueues] using hc
    · intro side hcred
      simp only [Task.Credit, hop, looks, notifies, Option.some.injEq, reduceCtorEq, or_false] at hcred
      exact .inr (.inr (.inl (hcred.2 ▸ hzero)))
    · intro alert ha
      constructor <;> grind

theorem Inv.deactivate (hop : (s.tasks p).op = .deactivate call next) : (s.op_step p).Inv := by
  obtain ⟨h1, h2, h3, h4, h5, h6, h7⟩ := inv.task p
  simp only [op_step, hop]
  refine inv.goes_on hop (.of rfl) rfl fun alert ha => ?_
  constructor <;> grind

theorem Inv.recheck (hop : (s.tasks p).op = .recheck call next) : (s.op_step p).Inv := by
  obtain ⟨h1, h2, h3, h4, h5, h6, h7⟩ := inv.task p
  simp only [op_step, hop]
  refine inv.local hop ?_ ?_ ?_ ?_
  · split
    · exact .of rfl
    · cases next <;> exact .of rfl
  · split
    · simp [enqueues]
    · cases next <;> simp [enqueues, Next.op]
  · intro side hcred
    simp only [Task.Credit, hop, looks, notifies, Option.some.injEq, reduceCtorEq, or_false] at hcred
    obtain ⟨-, rfl⟩ := hcred
    split
    · exact .inl (.inr rfl)
    · next hc => exact .inr (.inr (.inl (not_complete (Bool.eq_false_iff.mpr hc)).2.1))
  · intro alert ha
    cases next <;> constructor <;>
      grind [Next.op]

omit [DecidableEq ι] in
theorem Inv.not_busy {side : Side} (h : s.has_waiters side = false) : ¬s.Busy side := by
  rintro (hw | ⟨r, hr⟩)
  · simp [inv.hint side hw] at h
  · have hmark : (s.tasks r).op.marks = some side := by
      cases hop : (s.tasks r).op <;> simp_all [enqueues, marks]
    simp [inv.mark side r hmark] at h

theorem Inv.notify {side : Side} (hop : (s.tasks p).op = .notify side next) : (s.op_step p).Inv := by
  obtain ⟨h1, h2, h3, h4, h5, h6, h7⟩ := inv.task p
  simp only [op_step, hop]
  refine inv.local hop ?_ ?_ ?_ ?_
  · split
    · exact .of rfl
    · cases next <;> exact .of rfl
  · split
    · simp [enqueues]
    · cases next <;> simp [enqueues, Next.op]
  · intro side' hcred
    simp only [Task.Credit, hop, looks, notifies, Option.some.injEq, reduceCtorEq, and_false, false_or] at hcred
    subst hcred
    split
    · exact .inl (.inr rfl)
    · next hc => exact .inr (.inr (.inr (inv.not_busy (Bool.eq_false_iff.mpr hc))))
  · intro alert ha
    cases next <;> constructor <;>
      grind [Next.op]

theorem Inv.woke_all (hop : (s.tasks p).op = .wake [] [] next) : (s.op_step p).Inv := by
  obtain ⟨h1, h2, h3, h4, h5, h6, h7⟩ := inv.task p
  simp only [op_step, hop]
  refine inv.local hop (by cases next <;> exact .of rfl) ?_ ?_ ?_
  · cases next <;> simp [enqueues, Next.op]
  · simp [Task.Credit, hop, looks, notifies]
  · intro alert ha
    cases next <;> constructor <;>
      grind [Next.op]

theorem Inv.returned {outcome : Option (Outcome α)} (hop : (s.tasks p).op = .returned outcome) :
    (s.op_step p).Inv := by
  obtain ⟨h1, h2, h3, h4, h5, h6, h7⟩ := inv.task p
  simp only [op_step, hop]
  refine Inv.log (s := s.set p _) ?_ _
  refine inv.local hop (.of rfl) ?_ ?_ ?_
  · simp [enqueues]
  · simp [Task.Credit, hop, looks, notifies]
  · intro alert ha
    constructor <;> grind

theorem Inv.invoke (hop : (s.tasks p).op = .idle) (mode : Mode) : ((s.log [.invoke p call]).set p
    { s.tasks p with op := .attempt call mode, polls := (s.tasks p).polls + 1, woken := false }).Inv := by
  obtain ⟨h1, h2, h3, h4, h5, h6, h7⟩ := inv.task p
  refine Inv.log (s := s.set p _) ?_ _
  refine inv.local hop (.of rfl) ?_ ?_ ?_
  · simp [enqueues]
  · simp [Task.Credit, hop, looks, notifies]
  · intro alert ha
    constructor <;> grind

theorem Inv.poll (hop : (s.tasks p).op = .pending call) : (s.set p
    { s.tasks p with op := .check call, polls := (s.tasks p).polls + 1, woken := false }).Inv := by
  obtain ⟨h1, h2, h3, h4, h5, h6, h7⟩ := inv.task p
  refine inv.goes_on hop (.of rfl) rfl fun alert ha => ?_
  constructor <;> grind

theorem Inv.drop (hop : (s.tasks p).op = .pending call) : ((s.log [.abandon p]).set p
    { s.tasks p with
      op := if (s.tasks p).has_waiter then .deactivate call (.finish none) else .returned none }).Inv := by
  obtain ⟨h1, h2, h3, h4, h5, h6, h7⟩ := inv.task p
  have hwaiter : (s.tasks p).has_waiter = true := h3 (by rw [hop]; rfl)
  rw [if_pos hwaiter]
  refine Inv.log (s := s.set p _) ?_ _
  refine inv.goes_on hop (.of rfl) rfl fun alert ha => ?_
  constructor <;> grind

/-! ## Critical sections -/

variable {mode : Mode}

theorem Inv.fails {op : Op ι α} (hop : (s.tasks p).op = .attempt call mode)
    (hnone : s.state.is_closed call.side = true ∨ s.state.resource call.side = 0)
    (hto : (∃ outcome, op = .returned outcome) ∨ op = .check call ∨ op = .attempt call .wait) :
    (s.set p { s.tasks p with op, token := false }).Inv := by
  obtain ⟨h1, h2, h3, h4, h5, h6, h7⟩ := inv.task p
  refine inv.local hop ?_ ?_ ?_ ?_
  · rcases hto with ⟨outcome, rfl⟩ | rfl | rfl <;> exact .of rfl
  · rcases hto with ⟨outcome, rfl⟩ | rfl | rfl <;> simp [enqueues]
  · intro side hcred
    simp only [Task.Credit, hop, looks, notifies, Option.some.injEq, reduceCtorEq, or_false] at hcred
    obtain ⟨-, rfl⟩ := hcred
    exact .inr (hnone.imp_right .inl)
  · intro alert ha
    rcases hto with ⟨outcome, rfl⟩ | rfl | rfl <;> constructor <;> grind

/-- A call that succeeds uses what its side has one of, and announces one more to the other side. -/
theorem Inv.succeeds {state : QueueState α} {outcome : Option (Outcome α)}
    (hop : (s.tasks p).op = .attempt call mode) (hcap : state.capacity = s.state.capacity)
    (hclosed : ∀ side, state.is_closed side = s.state.is_closed side)
    (hown : state.resource call.side = s.state.resource call.side - 1)
    (hother : state.resource call.side.other ≤ s.state.resource call.side.other + 1) :
    ({ s with state }.set p { s.tasks p with op := .notify call.side.other (.finish outcome), token := false }).Inv := by
  obtain ⟨h1, h2, h3, h4, h5, h6, h7⟩ := inv.task p
  refine inv.moves hop (.of rfl) hcap ?_ ?_ ?_ ?_ ?_
  · exact fun side h => (hclosed side).symm.trans h
  · exact fun side h _ => .inr ((hclosed side).symm.trans h)
  · simp [enqueues]
  · intro side _ _ hback
    by_cases hside : side = call.side
    · subst hside
      by_cases hzero : s.state.resource call.side = 0
      · rw [hown, hzero]
        exact Backed.zero _ _
      · refine hback.trade {p} ∅ (fun p' hp' h => ?_) (by simp) (by simp [hown]; omega)
        simpa [Finset.notMem_singleton.mp hp'] using h
    · have hoth : side = call.side.other := by
        revert hside
        cases side <;> cases call <;> simp [Call.side, Side.other]
      subst hoth
      have hno : ¬(s.tasks p).Credit call.side.other := by
        cases call <;> simp [Task.Credit, hop, looks, notifies, Call.side, Side.other]
      refine hback.trade ∅ {p} (fun p' _ h => ?_) (fun p' hp' => ?_) (by simpa using hother)
      · have hne : p' ≠ p := fun heq => hno (heq ▸ h)
        simpa [hne] using h
      · rw [Finset.mem_singleton.mp hp']
        exact ⟨hno, by simp [Task.Credit, notifies]⟩
  · intro alert ha
    constructor <;> grind

theorem Inv.attempt (hop : (s.tasks p).op = .attempt call mode) : (s.op_step p).Inv := by
  simp only [op_step, hop]
  cases call with
  | send value =>
    simp only [attempted, QueueState.attempt, QueueState.try_send]
    by_cases hclosed : s.state.send_is_closed = true
    · simp only [hclosed, if_true]
      refine Inv.log (s := s.set p _) ?_ _
      exact inv.fails hop (.inl hclosed) (.inl ⟨_, rfl⟩)
    by_cases hfull : s.state.has_send_capacity = true
    · simp only [hclosed, hfull, Bool.not_true, Bool.false_eq_true, if_false]
      refine Inv.log (s := Channel.set _ p _) ?_ _
      refine inv.succeeds hop rfl (fun side => by cases side <;> rfl) ?_ ?_
      · cases hc : s.state.capacity <;> simp [QueueState.resource, Call.side, hc]
        omega
      · simp [QueueState.resource, Call.side, Side.other]
    · simp only [hclosed, hfull, Bool.not_false, Bool.false_eq_true, if_false, if_true]
      have hzero : s.state.resource .send = 0 :=
        (not_complete (by simp [QueueState.wait_complete, hclosed, hfull])).2.1
      cases mode with
      | once =>
        refine Inv.log (s := s.set p _) ?_ _
        exact inv.fails hop (.inr hzero) (.inl ⟨_, rfl⟩)
      | wait => exact inv.fails hop (.inr hzero) (.inr (.inl rfl))
      | block => exact inv.fails hop (.inr hzero) (.inr (.inr rfl))
  | receive =>
    simp only [attempted, QueueState.attempt, QueueState.try_receive]
    cases hvalues : s.state.values with
    | cons value values =>
      refine Inv.log (s := Channel.set _ p _) ?_ _
      refine inv.succeeds hop rfl (fun side => by cases side <;> rfl) ?_ ?_
      · simp [QueueState.resource, Call.side, hvalues]
      · cases hc : s.state.capacity <;> simp [QueueState.resource, Call.side, Side.other, hc, hvalues]
        omega
    | nil =>
      have hzero : s.state.resource .receive = 0 := by simp [QueueState.resource, hvalues]
      by_cases hclosed : s.state.receive_is_closed = true
      · simp only [hclosed, if_true]
        refine Inv.log (s := s.set p _) ?_ _
        exact inv.fails hop (.inl hclosed) (.inl ⟨_, rfl⟩)
      · simp only [hclosed, Bool.false_eq_true, if_false]
        cases mode with
        | once =>
          refine Inv.log (s := s.set p _) ?_ _
          exact inv.fails hop (.inr hzero) (.inl ⟨_, rfl⟩)
        | wait => exact inv.fails hop (.inr hzero) (.inr (.inl rfl))
        | block => exact inv.fails hop (.inr hzero) (.inr (.inr rfl))

theorem Inv.ends (hop : (s.tasks p).op = .idle) (state : QueueState α) (sides : List Side)
    (hcap : state.capacity = s.state.capacity)
    (hopen : ∀ side, state.is_closed side = false →
      s.state.is_closed side = false ∧ state.resource side = s.state.resource side)
    (hshut : ∀ side, state.is_closed side = true → s.Busy side → side ∈ sides ∨ s.state.is_closed side = true) :
    (Channel.waking { s with state } p sides).Inv := by
  obtain ⟨h1, h2, h3, h4, h5, h6, h7⟩ := inv.task p
  refine inv.moves hop (.of rfl) hcap ?_ ?_ ?_ ?_ ?_
  · exact fun side h => (hopen side h).1
  · exact hshut
  · simp [enqueues]
  · intro side h _ hback
    rw [(hopen side h).2]
    refine hback.keep fun p' hp' => ?_
    by_cases hne : p' = p
    · subst hne
      simp [Task.Credit, hop, looks, notifies] at hp'
    · simpa [hne] using hp'
  · intro alert ha
    constructor <;> grind

omit [DecidableEq ι] in
theorem Inv.unused {side : Side} (h : s.Unused side) : ¬s.Busy side := by
  have hno : ∀ r, (s.tasks r).op.waits ≠ some side := by
    intro r hr
    cases hop : (s.tasks r).op <;> simp only [hop, waits, reduceCtorEq, Option.some.injEq] at hr <;>
      exact h r _ (by rw [hop]; rfl) hr
  rintro (hw | ⟨r, hr⟩)
  · obtain ⟨r, hr⟩ := List.exists_mem_of_ne_nil _ hw
    exact hno r ((inv.task r).listed side hr).1
  · apply hno r
    cases hop : (s.tasks r).op <;> simp_all [enqueues, waits]

theorem Inv.endpoint (hop : (s.tasks p).op = .idle) {e : Endpoint} (h : s.Allowed e) :
    (s.endpoint_step p e).Inv := by
  cases e with
  | close =>
    simp only [endpoint_step]
    split
    · exact inv.ends hop s.state [] rfl (fun _ h => ⟨h, rfl⟩) (fun _ h _ => .inr h)
    · refine (inv.ends hop { s.state with closed := true } [.send, .receive] rfl ?_ ?_).log _
      · intro side h
        cases side <;> simp [is_closed, send_is_closed, receive_is_closed] at h
      · intro side _ _
        cases side <;> simp
  | clone_sender | clone_receiver =>
    simp only [Allowed] at h
    refine inv.ends hop _ [] rfl ?_ ?_ <;> intro side <;>
      cases side <;> simp_all [is_closed, send_is_closed, receive_is_closed, resource]
    omega
  | drop_sender =>
    simp only [endpoint_step]
    obtain ⟨hpos, -⟩ := h
    split
    · refine (inv.ends hop { s.state with senders := 0 } [.receive] rfl ?_ ?_).log _ <;> intro side <;>
        cases side <;> simp_all [is_closed, send_is_closed, receive_is_closed, resource]
    · refine inv.ends hop _ [] rfl ?_ ?_ <;> intro side <;>
        cases side <;> simp_all [is_closed, send_is_closed, receive_is_closed, resource]
      all_goals grind
  | drop_receiver =>
    simp only [endpoint_step]
    obtain ⟨hpos, hlast⟩ := h
    split
    · next hone =>
      -- no call can receive any more, so nobody waits to
      have hidle := inv.unused (hlast hone)
      refine (inv.ends hop { s.state with receivers := 0, closed := true, values := [] } [.send] rfl ?_ ?_).log _ <;>
        intro side <;> cases side <;> simp_all [is_closed, send_is_closed, receive_is_closed]
    · refine inv.ends hop _ [] rfl ?_ ?_ <;> intro side <;>
        cases side <;> simp_all [is_closed, send_is_closed, receive_is_closed, resource]
      all_goals grind

end Channel

end Performables
