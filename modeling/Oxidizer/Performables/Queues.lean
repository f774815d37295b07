import Oxidizer.Performables.Moves
/-!
# Steps with the lock of a wait queue

Taking the lock, entering and leaving a queue, popping a waiter and waking it.
The credit of the one who pops goes over to the waiter that was popped; if there
is none, the queue is not busy when the lock is given back.
-/

namespace Performables

open List Op

namespace Channel
variable {ι α : Type} {s : Channel ι α} {p : ι} {side : Side} {call : Call α} {next : Next α}

theorem line_self (s : Channel ι α) (side : Side) : s.line side (s.waiters side) = s := by
  unfold line
  congr
  funext side'
  split <;> simp_all

theorem hint_self (s : Channel ι α) (side : Side) : s.hint side (s.has_waiters side) = s := by
  unfold hint
  congr
  funext side'
  split <;> simp_all

theorem hold_hint (s : Channel ι α) (side : Side) (p : Option ι) :
    s.hold side p = (s.hint side (s.has_waiters side)).hold side p := by
  rw [hint_self]

theorem hold_self (s : Channel ι α) (side : Side) : s.hold side (s.holder side) = s := by
  unfold hold
  congr
  funext side'
  split <;> simp_all

variable {op : Op ι α}

theorem Op.marks_holds (h : op.marks = some side) : op.holds = some side := by
  cases op <;> simp_all [marks, holds]

theorem Op.enqueues_holds (h : op.enqueues = some side) : op.holds = some side := by
  cases op <;> simp_all [enqueues, holds]

theorem Op.armed_of_parks (h : op.parks = some side) : op.armed = true := by
  cases op <;> simp_all [parks, armed]

theorem Op.of_cancels (h : op.cancels = true) : op.armed = false ∧ op.parks = none := by
  cases op <;> simp_all [cancels, parks, armed]

theorem Op.of_away (h : op.waits = none) : op.enqueues = none ∧ op.marks = none := by
  cases op <;> simp_all [waits, enqueues, marks]

theorem Op.of_waits (h : op.waits = some side) (hno : op.holds ≠ some side) :
    op.looks = some side ∧ op.enqueues = none ∧ op.notifies = none := by
  cases op <;> simp_all [waits, holds, looks, enqueues, notifies]

/-! ## The lock -/

variable [DecidableEq ι] (inv : s.Inv)
include inv

variable {t : Task ι α}

theorem Inv.acquires {b : Bool} (hop : (s.tasks p).op = op) (free : s.holder side = none)
    (hb : s.has_waiters side = true → b = true)
    (same : (op.holds, op.wakers, op.takes, t.op.holds, t.op.enqueues) = (none, [], none, some side, none))
    (marks : t.op.marks ≠ none → b = true) (sweeps : ∀ side', side' ∈ op.sweeps → side' ∈ t.op.sweeps)
    (credit : ∀ side', (s.tasks p).Credit side' → t.Credit side')
    (ok : s.OkAt p t fun side' => p ∈ s.waiters side') :
    (((s.hint side b).hold side (some p)).set p t).Inv := by
  subst hop
  simp only [Prod.mk.injEq] at same
  obtain ⟨holds, wakers, takes, holds', enqueues⟩ := same
  have hbusy : ∀ side', (((s.hint side b).hold side (some p)).set p t).Busy side' → s.Busy side' := by
    rintro side' (h | ⟨r, hr⟩)
    · exact .inl h
    · by_cases hrp : r = p
      · simp [hrp, enqueues] at hr
      · exact .inr ⟨r, by simpa [hrp, Channel.hold, Channel.hint] using hr⟩
  refine inv.advance (p := p) (t := t) rfl (fun _ _ _ => Iff.rfl) ?_ ?_ ?_ inv.nodup (by simp [wakers]) takes rfl
    (fun _ h => h) (fun side' h => .inl (hbusy side' h)) ?_ ?_ ok
  · intro side' p'
    have := inv.hold side' p'
    simp only [Channel.set, Channel.hold, Channel.hint]
    grind
  · intro side' h
    have := inv.hint side' h
    simp only [Channel.set, Channel.hold, Channel.hint]
    grind
  · intro side' p' h
    have := inv.mark side' p'
    simp only [Channel.set, Channel.hold, Channel.hint] at h ⊢
    grind [Op.marks_holds]
  · intro side' hc _ _
    by_cases hs : side' ∈ (s.tasks p).op.sweeps
    · exact .inl (sweeps side' hs)
    · exact .inr ⟨hc, hs⟩
  · intro side' _ _ hback
    refine hback.keep fun p' hp' => ?_
    rw [set_tasks]
    split
    · next h => exact credit side' (h ▸ hp')
    · exact hp'

variable {waiters : List ι}

omit [DecidableEq ι] in
theorem Inv.holder_eq (h : (s.tasks p).op.holds = some side) (p' : ι) (hp' : s.holder side = some p') :
    p' = p := by
  have := (inv.hold side p).mpr h
  simp_all

theorem Inv.releases {b : Bool} (hop : (s.tasks p).op = op)
    (lock : op.holds = some side ∨ op.holds = none ∧ s.holder side = none) (same : (op.takes, t.op.holds) = (none, none))
    (members : ∀ p', p' ≠ p → (p' ∈ waiters ↔ p' ∈ s.waiters side)) (nodup : waiters.Nodup)
    (busy : waiters ≠ [] → b = true ∧ s.Busy side)
    (wakers : op.wakers ⊆ t.op.wakers)
    (sweeps : ∀ side', side' ∈ op.sweeps → side' ∈ t.op.sweeps ∨ side' = side ∧ waiters = [])
    (credit : ∀ side', (s.tasks p).Credit side' → t.Credit side' ∨ side' = side ∧ waiters = [])
    (ok : s.OkAt p t fun side' => p ∈ (s.line side waiters).waiters side') :
    ((((s.line side waiters).hint side b).hold side none).set p t).Inv := by
  subst hop
  simp only [Prod.mk.injEq] at same
  obtain ⟨takes, holds'⟩ := same
  have own : ∀ p', s.holder side = some p' → p' = p := by
    rcases lock with h | h
    · exact inv.holder_eq h
    · simp [h.2]
  have holds : ∀ side', (s.tasks p).op.holds = some side' → side' = side := by
    intro side' h
    rcases lock with hold | hold
    · exact Option.some.inj (h.symm.trans hold)
    · exact absurd (hold.1.symm.trans h) nofun
  have hmark : t.op.marks = none := by
    cases h : t.op.marks with
    | none => rfl
    | some side' => simp [Op.marks_holds h] at holds'
  have henq : t.op.enqueues = none := by
    cases h : t.op.enqueues with
    | none => rfl
    | some side' => simp [Op.enqueues_holds h] at holds'
  -- nobody else is about to enter: that takes the lock
  have hbusy : ∀ side', ((((s.line side waiters).hint side b).hold side none).set p t).Busy side' →
      s.Busy side' ∧ ¬(side' = side ∧ waiters = []) := by
    rintro side' (h | ⟨r, hr⟩)
    · by_cases hs : side' = side
      · subst hs
        have h' : waiters ≠ [] := by simpa [Channel.set, Channel.hold, Channel.hint, line] using h
        exact ⟨(busy h').2, fun hno => h' hno.2⟩
      · refine ⟨.inl ?_, fun hno => hs hno.1⟩
        simpa [Channel.set, Channel.hold, Channel.hint, line, hs] using h
    · by_cases hrp : r = p
      · simp [hrp, henq] at hr
      · have hr' : (s.tasks r).op.enqueues = some side' := by
          simpa [hrp, Channel.hold, Channel.hint, line] using hr
        refine ⟨.inr ⟨r, hr'⟩, fun hno => hrp (own r ?_)⟩
        rw [← hno.1]
        exact (inv.hold side' r).mpr (Op.enqueues_holds hr')
  refine inv.advance (p := p) (t := t) rfl ?_ ?_ ?_ ?_ ?_ wakers takes rfl (fun _ h => h)
    (fun side' h => .inl (hbusy side' h).1) ?_ ?_ ok
  · intro side' p' hp'
    by_cases hs : side' = side
    · subst hs
      simpa [Channel.set, Channel.hold, Channel.hint, line] using members p' hp'
    · simp [Channel.set, Channel.hold, Channel.hint, line, hs]
  · intro side' p'
    have := inv.hold side' p'
    simp only [Channel.set, Channel.hold, Channel.hint, line]
    grind
  · intro side' h
    have := inv.hint side'
    simp only [Channel.set, Channel.hold, Channel.hint, line] at h ⊢
    grind
  · intro side' p' h
    have := inv.mark side' p'
    have := inv.hold side' p'
    simp only [Channel.set, Channel.hold, Channel.hint, line] at h ⊢
    grind [Op.marks_holds]
  · intro side'
    have := inv.nodup side'
    simp only [Channel.set, Channel.hold, Channel.hint, line]
    split <;> assumption
  · intro side' hc hb _
    by_cases hs : side' ∈ (s.tasks p).op.sweeps
    · exact .inl ((sweeps side' hs).resolve_right (hbusy side' hb).2)
    · exact .inr ⟨hc, hs⟩
  · intro side' _ hb hback
    refine hback.keep fun p' hp' => ?_
    rw [set_tasks]
    split
    · next h => exact (credit side' (h ▸ hp')).resolve_right (hbusy side' hb).2
    · exact hp'

theorem Inv.lock (hop : (s.tasks p).op = .lock call) (free : s.holder call.side = none) :
    (s.op_step p).Inv := by
  obtain ⟨h1, h2, h3, h4, h5, h6, h7⟩ := inv.task p
  unfold op_step
  simp only [hop]
  refine inv.acquires hop free (fun _ => rfl) rfl (fun _ => rfl) nofun ?_ ?_
  · exact fun side h => h.of_eq rfl (by rw [hop]; rfl) (by rw [hop]; rfl)
  · intro alert ha
    constructor <;> grind

variable {sides : List Side}

theorem Inv.locks (hop : (s.tasks p).op = .pop side next ∨ ∃ sides, (s.tasks p).op = .wake [] (side :: sides) next)
    (free : s.holder side = none) : (s.op_step p).Inv := by
  obtain ⟨h1, h2, h3, h4, h5, h6, h7⟩ := inv.task p
  rcases hop with hop | ⟨sides, hop⟩
  all_goals
    simp only [op_step, hop]
    rw [hold_hint]
    refine inv.acquires hop free id rfl ?_ ?_ ?_ ?_
    · simp [marks]
    · simp [sweeps]
    · intro side' h
      simp_all [Task.Credit, looks, notifies]
    · intro alert ha
      constructor <;> grind

theorem Inv.enqueue (hop : (s.tasks p).op = .enqueue call) : (s.op_step p).Inv := by
  obtain ⟨h1, h2, h3, h4, h5, h6, h7⟩ := inv.task p
  unfold op_step
  simp only [hop]
  have hhint : s.has_waiters call.side = true := inv.mark _ p (by rw [hop]; rfl)
  rw [← hint_self (s.line call.side _) call.side]
  refine inv.releases hop (.inl rfl) rfl ?_ ?_ ?_ nofun nofun ?_ ?_
  · intro p' hp'
    split <;> simp [hp']
  · have := inv.nodup call.side
    split
    · exact this
    · next hno => simpa using List.Nodup.concat hno this
  · exact fun _ => ⟨hhint, .inr ⟨p, by rw [hop]; rfl⟩⟩
  · have htoken : (s.tasks p).token = false := h5 (by rw [hop]; rfl)
    simp [hop, Task.Credit, looks, notifies]
  · intro alert ha
    have hmem : p ∈ (s.line call.side (if p ∈ s.waiters call.side then s.waiters call.side
        else s.waiters call.side ++ [p])).waiters call.side := by
      simp only [line, if_true]
      split <;> simp [*]
    constructor <;> grind [line]

theorem Inv.dequeue (hop : (s.tasks p).op = .dequeue call) : (s.op_step p).Inv := by
  obtain ⟨h1, h2, h3, h4, h5, h6, h7⟩ := inv.task p
  unfold op_step
  simp only [hop]
  refine inv.releases hop (.inl rfl) rfl ?_ ((inv.nodup _).erase p) ?_ nofun nofun ?_ ?_
  · exact fun p' hp' => mem_erase_of_ne hp'
  · intro hne
    have hbusy : s.waiters call.side ≠ [] := fun h => hne (by simp [h])
    simp [hne, inv.hint _ hbusy, Busy, hbusy]
  · exact fun side h => .inl (h.of_eq rfl (by rw [hop]; rfl) (by rw [hop]; rfl))
  · intro alert ha
    have hmem := (inv.nodup call.side).not_mem_erase (a := p)
    constructor <;> grind [line]

theorem Inv.cancel (hop : (s.tasks p).op = .cancel call next) (free : s.holder call.side = none) :
    (s.op_step p).Inv := by
  obtain ⟨h1, h2, h3, h4, h5, h6, h7⟩ := inv.task p
  unfold op_step
  simp only [hop]
  rw [← hold_self ((s.line call.side _).hint call.side _) call.side]
  have hfree : ((s.line call.side ((s.waiters call.side).erase p)).hint call.side
      (!((s.waiters call.side).erase p).isEmpty && s.has_waiters call.side)).holder call.side = none := free
  rw [hfree]
  refine inv.releases hop (.inr ⟨rfl, free⟩) ?_ ?_ ((inv.nodup _).erase p) ?_ nofun nofun ?_ ?_
  · cases next <;> split <;> rfl
  · exact fun p' hp' => mem_erase_of_ne hp'
  · intro hne
    have hbusy : s.waiters call.side ≠ [] := fun h => hne (by simp [h])
    simp [hne, inv.hint _ hbusy, Busy, hbusy]
  · intro side' h
    have hnot : p ∉ s.waiters call.side := by
      intro hmem
      simp [Task.Credit, hop, looks, notifies, (h1 _ hmem).2.2] at h
    rw [if_neg hnot]
    exact .inl (h.of_eq rfl (by rw [hop]; rfl) (by rw [hop]; rfl))
  · intro alert ha
    have hmem := (inv.nodup call.side).not_mem_erase (a := p)
    cases next <;> constructor <;>
      grind [line, Next.op]

variable {wakers : List (ι × Nat)}

theorem Inv.unlocking
    (hop : (s.tasks p).op = .unlocking wakers side sides next) : (s.op_step p).Inv := by
  obtain ⟨h1, h2, h3, h4, h5, h6, h7⟩ := inv.task p
  simp only [op_step, hop]
  have hself : s.hint side (!(s.waiters side).isEmpty) =
      (s.line side (s.waiters side)).hint side (!(s.waiters side).isEmpty) := by rw [line_self]
  rw [hself]
  refine inv.releases hop (.inl rfl) rfl (fun _ _ => Iff.rfl) (inv.nodup side) ?_ (fun _ h => h) (fun _ => .inl) ?_ ?_
  · intro hne
    simp [hne, Busy]
  · intro side' h
    simp_all [Task.Credit, Op.looks, Op.notifies]
  · intro alert ha
    rw [line_self]
    constructor <;> grind

variable {all : Bool}

theorem Inv.popped_last
    (hop : (s.tasks p).op = .popping all wakers side sides next) (hnil : s.waiters side = []) : (s.op_step p).Inv := by
  obtain ⟨h1, h2, h3, h4, h5, h6, h7⟩ := inv.task p
  simp only [op_step, hop, hnil]
  have hself : s.hint side false = (s.line side []).hint side false := by rw [← hnil, line_self]
  rw [hself]
  refine inv.releases hop (.inl rfl) rfl ?_ nodup_nil ?_ (fun _ h => h) ?_ ?_ ?_
  · simp [hnil]
  · simp
  · intro side' h
    cases all <;> simp_all [Op.sweeps]
    tauto
  · intro side' h
    simp_all [Task.Credit, Op.looks, Op.notifies]
  · intro alert ha
    rw [← hnil, line_self]
    constructor <;> grind

/-! ## Popping and waking -/

variable {r : ι}

omit inv in
theorem Inv.passes {s' : Channel ι α} (inv : s.Inv) {tr : Task ι α}
    (state : s'.state = s.state) (holder : s'.holder = s.holder) (hints : s'.has_waiters = s.has_waiters)
    (tasks : ∀ p', s'.tasks p' = if p' = p then t else if p' = r then tr else s.tasks p')
    (op : tr.op = (s.tasks r).op) (polls : tr.polls = (s.tasks r).polls) (woken : (s.tasks r).woken = true → tr.woken = true)
    (own : t.has_waiter = (s.tasks p).has_waiter ∧ t.polls = (s.tasks p).polls ∧
      ((s.tasks p).woken = true → t.woken = true))
    (waits : (s.tasks p).op.waits = none) (waits' : t.op.waits = none)
    (holds : t.op.holds = (s.tasks p).op.holds)
    (sweeps : ∀ side, side ∈ (s.tasks p).op.sweeps → side ∈ t.op.sweeps)
    (wakers : ∀ p' poll, (p', poll) ∈ (s.tasks p).op.wakers →
      (p', poll) ∈ t.op.wakers ∨ (poll = (s.tasks p').polls → (s'.tasks p').woken = true))
    (takes : ∀ p', (s.tasks p).op.takes = some p' → p' = r)
    (waiters : ∀ side, (s'.waiters side).Sublist (s.waiters side))
    (members : ∀ p', p' ≠ r → ∀ side, p' ∈ s'.waiters side ↔ p' ∈ s.waiters side)
    (ok : r ≠ p → (s.Alert r → s'.Alert r) → (s.Popped r → s'.Popped r ∨ (s.tasks p).op.takes = some r) →
      tr.Ok (fun side => r ∈ s'.waiters side) (s'.Alert r) (s'.Popped r))
    (backed : ∀ side n, s.Backed side n → s'.Backed side n) : s'.Inv := by
  have hp : s'.tasks p = t := by simp [tasks]
  have hops : ∀ p', p' ≠ p → (s'.tasks p').op = (s.tasks p').op := by
    intro p' hp'
    rw [tasks, if_neg hp']
    split
    · next h => rw [h, op]
    · rfl
  have hkeep : ∀ p', (s'.tasks p').polls = (s.tasks p').polls ∧
      ((s.tasks p').woken = true → (s'.tasks p').woken = true) := by
    intro p'
    rw [tasks]
    split
    · next h => exact h ▸ own.2
    · split
      · next h => exact h ▸ ⟨polls, woken⟩
      · exact ⟨rfl, id⟩
  -- a wake on its way stays so, or has arrived
  have halert : ∀ p', s.Alert p' → s'.Alert p' := by
    rintro p' (h | ⟨q, hq⟩)
    · exact .inl ((hkeep p').2 h)
    · rw [← (hkeep p').1] at hq
      by_cases hqp : q = p
      · subst hqp
        rcases wakers p' _ hq with h | h
        · exact .inr ⟨q, by rwa [hp]⟩
        · exact .inl (h (hkeep p').1)
      · exact .inr ⟨q, by rwa [hops q hqp]⟩
  have hpopped : ∀ p', s.Popped p' → s'.Popped p' ∨ (s.tasks p).op.takes = some p' := by
    rintro p' ⟨q, hq⟩
    by_cases hqp : q = p
    · exact .inr (hqp ▸ hq)
    · exact .inl ⟨q, by rwa [hops q hqp]⟩
  have henq := Op.of_away waits'
  have hbusy : ∀ side, s'.Busy side → s.Busy side := by
    rintro side (h | ⟨q, hq⟩)
    · refine .inl fun h' => h ?_
      have := waiters side
      rw [h'] at this
      exact sublist_nil.mp this
    · by_cases hqp : q = p
      · simp [hqp, hp, henq.1] at hq
      · exact .inr ⟨q, by rwa [← hops q hqp]⟩
  refine ⟨?_, ?_, ?_, fun side => (inv.nodup side).sublist (waiters side), ?_, ?_, ?_, ?_⟩
  · intro side p'
    rw [holder, inv.hold side p']
    by_cases hpp : p' = p
    · rw [hpp, hp, holds]
    · rw [hops p' hpp]
  · intro side h
    rw [hints]
    by_contra hno
    exact inv.not_busy (Bool.eq_false_iff.mpr hno) (hbusy side (.inl h))
  · intro side p' h
    rw [hints]
    by_cases hpp : p' = p
    · simp [hpp, hp, henq.2] at h
    · exact inv.mark side p' (by rwa [← hops p' hpp])
  · intro p'
    by_cases hpp : p' = p
    · subst hpp
      rw [TaskOk, hp]
      have hold := inv.task p'
      refine Task.Ok.away waits' (own.1.trans (hold.unused waits)) fun side h => ?_
      have := (hold.listed side ((waiters side).subset h)).1
      simp [waits] at this
    · by_cases hpr : p' = r
      · subst hpr
        rw [TaskOk, tasks, if_neg hpp, if_pos rfl]
        exact ok hpp (halert p') (hpopped p')
      · rw [TaskOk, tasks, if_neg hpp, if_neg hpr]
        exact (inv.task p').mono (members p' hpr) (halert p')
          (fun h => .inl ((hpopped p' h).resolve_right fun h => hpr (takes p' h)))
  · intro side hc hb
    rw [state] at hc
    obtain ⟨q, hq⟩ := inv.swept side hc (hbusy side hb)
    refine ⟨q, ?_⟩
    by_cases hqp : q = p
    · subst hqp
      rw [hp]
      exact sweeps side hq
    · rwa [hops q hqp]
  · intro side hc hb
    rw [state] at hc ⊢
    exact backed side _ (inv.backed side hc (hbusy side hb))
  · intro hb
    rw [state]
    exact inv.bounded (hbusy .send hb)

omit [DecidableEq ι] in
theorem Inv.head (hw : s.waiters side = r :: waiters) :
    (s.tasks r).op.waits = some side ∧ (s.tasks r).has_waiter = true ∧ (s.tasks r).token = false ∧
      ∀ side', r ∉ (s.line side waiters).waiters side' := by
  obtain ⟨hwaits, hwaiter, htoken⟩ := (inv.task r).listed side (by simp [hw])
  refine ⟨hwaits, hwaiter, htoken, fun side' hmem => ?_⟩
  simp only [line] at hmem
  split at hmem
  · have := inv.nodup side
    rw [hw] at this
    exact (nodup_cons.mp this).1 hmem
  · next hne =>
    have := ((inv.task r).listed side' hmem).1
    rw [hwaits] at this
    exact hne (Option.some.inj this).symm

omit [DecidableEq ι] inv in
theorem mem_line_tail {r p' : ι} (hw : s.waiters side = r :: waiters) (hp' : p' ≠ r) (side' : Side) :
    p' ∈ (s.line side waiters).waiters side' ↔ p' ∈ s.waiters side' := by
  simp only [line]
  split
  · next h => simp [h, hw, hp']
  · rfl

omit [DecidableEq ι] inv in
theorem line_tail_sublist {r : ι} (hw : s.waiters side = r :: waiters) (side' : Side) :
    ((s.line side waiters).waiters side').Sublist (s.waiters side') := by
  simp only [line]
  split
  · next h =>
    rw [h, hw]
    exact sublist_cons_self r waiters
  · exact List.Sublist.refl _

theorem Inv.skips
    (hop : (s.tasks p).op = .popping all wakers side sides next) (hw : s.waiters side = r :: waiters)
    (hr : (s.tasks r).active = false) : (s.op_step p).Inv := by
  simp only [op_step, hop, hw, hr, Bool.false_eq_true, if_false]
  obtain ⟨hwaits, hwaiter, -, hout⟩ := inv.head hw
  have haway : (s.tasks p).op.waits = none := by
    rw [hop]
    rfl
  refine inv.passes (p := p) (r := r) (t := s.tasks p) rfl rfl rfl ?_ rfl rfl id ⟨rfl, rfl, id⟩ haway haway rfl
    (fun _ h => h) (fun _ _ h => .inl h) ?_ (line_tail_sublist hw) (fun p' => mem_line_tail hw) ?_ (fun _ _ h => h)
  · intro p'
    split
    · next h => rw [h]; rfl
    · split
      · next h => rw [h]; rfl
      · rfl
  · simp [hop, Op.takes]
  · intro _ _ _
    have hok := inv.task r
    have hcancel : (s.tasks r).op.cancels = true := by
      by_contra hno
      have := hok.active (by simp [hwaits]) (Bool.eq_false_iff.mpr hno) hwaiter
      simp [hr] at this
    obtain ⟨harmed, hparks⟩ := Op.of_cancels hcancel
    refine ⟨fun side' h => absurd h (hout side'), hok.unused, hok.kept, hok.active, hok.looked, ?_, ?_⟩
    · simp [harmed]
    · simp [hparks]

theorem Inv.pops
    (hop : (s.tasks p).op = .popping all wakers side sides next) (hw : s.waiters side = r :: waiters)
    (hr : (s.tasks r).active = true) : (s.op_step p).Inv := by
  simp only [op_step, hop, hw]
  rw [if_pos hr]
  obtain ⟨hwaits, hwaiter, htoken, hout⟩ := inv.head hw
  have hrp : r ≠ p := by
    rintro rfl
    simp [hop, Op.waits] at hwaits
  -- the waiter is not about to enter, which takes the lock
  obtain ⟨hlooks, henq, hnotify⟩ := Op.of_waits hwaits fun h =>
    hrp (inv.holder_eq (by rw [hop]; rfl) r ((inv.hold side r).mpr h))
  have hno : ∀ side', ¬(s.tasks r).Credit side' := by
    simp [Task.Credit, htoken, hnotify]
  refine inv.passes (p := p) (r := r) rfl rfl rfl (fun _ => rfl) rfl rfl id ⟨rfl, rfl, id⟩ ?_ rfl ?_ ?_ ?_ ?_
    (line_tail_sublist hw) (fun p' => mem_line_tail hw) ?_ ?_
  · rw [hop]
    rfl
  · rw [hop]
    rfl
  · rw [hop]
    exact fun _ h => h
  · rw [hop]
    exact fun _ _ h => .inl h
  · simp [hop, Op.takes]
  · intro _ halert _
    have hok := inv.task r
    refine ⟨fun side' h => absurd h (hout side'), hok.unused, hok.kept, hok.active, ?_, ?_, ?_⟩
    · simp [henq]
    · exact fun h => (hok.armed h).imp_right halert
    · exact fun side' _ => .inr (.inr ⟨p, by simp [Op.takes]⟩)
  · intro side' n hback
    by_cases hside : side' = side
    · refine hback.trade {p} {r} (fun p' hp' h => ?_) (fun p' hp' => ?_) (by simp)
      · have hpr : p' ≠ r := fun heq => hno side' (heq ▸ h)
        rwa [set_tasks, if_neg (Finset.notMem_singleton.mp hp'), set_tasks, if_neg hpr]
      · rw [Finset.mem_singleton.mp hp', set_tasks, if_neg hrp, set_tasks, if_pos rfl]
        exact ⟨hno side', .inl ⟨rfl, hside ▸ hlooks⟩⟩
    · refine hback.keep fun p' h => ?_
      have hpr : p' ≠ r := fun heq => hno side' (heq ▸ h)
      have hpp : p' ≠ p := by
        rintro rfl
        simp only [Task.Credit, hop, Op.looks, Op.notifies, reduceCtorEq, and_false, false_or, Option.some.injEq] at h
        exact hside h.symm
      rwa [set_tasks, if_neg hpp, set_tasks, if_neg hpr]

theorem Inv.takes
    (hop : (s.tasks p).op = .taking r all wakers side sides next) : (s.op_step p).Inv := by
  simp only [op_step, hop]
  have hwakers : ∀ all : Bool, ((if all then .popping all (wakers ++ s.taken r) side sides next
      else .unlocking (wakers ++ s.taken r) side sides next : Op ι α)).wakers = wakers ++ s.taken r := by
    rintro (_ | _) <;> rfl
  refine inv.passes (p := p) (r := r) rfl rfl rfl (fun _ => rfl) rfl rfl id ⟨rfl, rfl, id⟩ ?_ ?_ ?_ ?_ ?_ ?_
    (fun _ => List.Sublist.refl _) (fun _ _ _ => Iff.rfl) ?_ ?_
  · rw [hop]
    rfl
  · cases all <;> rfl
  · rw [hop]
    cases all <;> rfl
  · rw [hop]
    cases all <;> exact fun _ h => h
  · intro p' poll h
    rw [hop] at h
    refine .inl ?_
    rw [hwakers]
    exact mem_append_left _ h
  · simp [hop, Op.takes]
  · intro hrp halert _
    have hok := inv.task r
    have harmed : ∀ alert : Prop, (s.Alert r → alert) → ((r, (s.tasks r).polls) ∈ s.taken r → alert) →
        (s.tasks r).op.armed = true → alert := by
      intro alert h1 h2 h
      rcases hok.armed h with hw | hw
      · exact h2 (by simp [taken, hw])
      · exact h1 hw
    refine ⟨hok.listed, hok.unused, hok.kept, hok.active, hok.looked, fun h => .inr ?_, fun side' h => .inr (.inl ?_)⟩
    all_goals
      refine harmed _ halert (fun hmem => .inr ⟨p, ?_⟩) ?_
      · rw [set_tasks, if_pos rfl, hwakers, set_tasks, if_neg hrp, set_tasks, if_pos rfl]
        exact mem_append_right _ hmem
    · exact h
    · exact Op.armed_of_parks h
  · intro side' n hback
    refine hback.keep fun p' h => ?_
    rw [set_tasks]
    split
    · next heq =>
      subst heq
      simp [Task.Credit, hop, Op.looks, Op.notifies] at h
    · rw [set_tasks]
      split
      · next heq => exact (heq ▸ h).of_eq rfl rfl rfl
      · exact h

theorem Inv.wakes {poll : Nat}
    (hop : (s.tasks p).op = .wake ((r, poll) :: wakers) sides next) : (s.op_step p).Inv := by
  simp only [op_step, hop]
  refine inv.passes (p := p) (r := r) rfl rfl rfl (fun _ => rfl) rfl rfl ?_ ⟨rfl, rfl, ?_⟩ ?_ rfl ?_ ?_ ?_ ?_
    (fun _ => List.Sublist.refl _) (fun _ _ _ => Iff.rfl) ?_ ?_
  · exact fun h => by simp [h]
  · exact fun h => by simp [h]
  · rw [hop]
    rfl
  · rw [hop]
    rfl
  · rw [hop]
    exact fun _ h => h
  · intro p' poll' h
    rw [hop] at h
    rcases mem_cons.mp h with h | h
    · obtain ⟨rfl, rfl⟩ := Prod.mk.injEq _ _ _ _ ▸ h
      refine .inr fun hpoll => ?_
      rw [set_tasks]
      split
      · next heq => simp [heq, hpoll]
      · simp [hpoll]
    · exact .inl h
  · simp [hop, Op.takes]
  · intro _ halert hpopped
    refine Task.Ok.mono (t := Task.mk _ _ _ _ _ _ _) ?_ (fun _ => Iff.rfl) halert
      (fun h => .inl ((hpopped h).resolve_right (by simp [hop, Op.takes])))
    exact { inv.task r with }
  · intro side' n hback
    refine hback.keep fun p' h => ?_
    rw [set_tasks]
    split
    · next heq =>
      subst heq
      simp [Task.Credit, hop, Op.looks, Op.notifies] at h
    · rw [set_tasks]
      split
      · next heq => exact (heq ▸ h).of_eq rfl rfl rfl
      · exact h

end Channel

end Performables
