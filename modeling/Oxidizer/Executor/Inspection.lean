import Oxidizer.Executor.Links
/-!
# Inspection

Between two cycles the owner may look at its tasks. Inspectors and visitors are foreign code:
they may wake tasks and panic. The guard of a cycle is held meanwhile, and a waker on the owner
thread that finds it held does not wake the parent, for a cycle looks at the queue of woken
tasks before it decides. An inspection does not.

Inspectors and visitors add no tasks, so the storage of new tasks is never found borrowed.
-/

namespace Executor

open Lib List World

/-! ## The code -/

inductive TaskState where
  | Ready
  | Waiting
deriving DecidableEq

inductive InspectionStatus where
  | Complete
  | Truncated
deriving DecidableEq

inductive InspectionError where
  | InvalidLimit
  | Panicked
deriving DecidableEq

/-- What the inspector of a task and the visitor do: the tasks they wake, and whether they panic. -/
structure Observed where
  wakes : List TaskId
  panics : Bool

/-- Of a walk over the tasks: `ControlFlow`, or a panic. -/
inductive Flow where
  | go
  | stop
  | panic
deriving DecidableEq

structure Inspection where
  world : World
  count : Nat
  visited : List TaskId
  truncated : Bool
  /-- the tasks that were looked at -/
  looked : List TaskId

/-- What an inspection leaves and returns. -/
structure Inspected where
  world : World
  looked : List TaskId
  result : Except InspectionError InspectionStatus

namespace World

/-- `WakeSignal::wake` on the owner thread, from begin to end. -/
def wake (w : World) (t : TaskId) : World :=
  match w.begin_notification t .active_local with
  | (w, false) => w
  | (w, true) =>
    if w.owner then
      let w := { w with awakened := w.awakened ++ [t] }
      if w.executing then w else w.wake_parent
    else (w.clear_notification t).wake_parent

def is_notified (w : World) (t : TaskId) : Bool := w.state t == .active_local || w.state t == .active_remote

end World

/-- The closure that looks at a task. -/
def Inspection.inspect (limit : Nat) (observe : TaskId → TaskState → Observed) (s : Inspection) (t : TaskId) (state : TaskState) :
    Inspection × Flow :=
  if t ∈ s.visited then (s, .go)
  else
    let s := { s with visited := t :: s.visited }
    if s.count = limit then ({ s with truncated := true }, .stop)
    else
      let s := { s with count := s.count + 1, looked := s.looked ++ [t] }
      let state := if s.world.is_notified t then .Ready else state
      if (s.world.payload t).any Payload.future then
        let seen := observe t state
        ({ s with world := seen.wakes.foldl World.wake s.world }, if seen.panics then .panic else .go)
      else (s, .go)

def Inspection.walk (limit : Nat) (observe : TaskId → TaskState → Observed) (state : TaskState) :
    List TaskId → Inspection → Inspection × Flow
  | [], s => (s, .go)
  | t :: ts, s =>
    match s.inspect limit observe t state with
    | (s, .go) => Inspection.walk limit observe state ts s
    | r => r

/-- The next walk, unless the one before has panicked or was cut short. -/
def Inspection.then_walk (limit : Nat) (observe : TaskId → TaskState → Observed) (state : TaskState) (ts : List TaskId) :
    Inspection × Flow → Inspection × Flow
  | (s, .panic) => (s, .panic)
  | (s, flow) => if s.truncated then (s, flow) else Inspection.walk limit observe state ts s

def World.inspect (w : World) (limit : Nat) (observe : TaskId → TaskState → Observed) : Inspected :=
  if limit = 0 then ⟨w, [], .error .InvalidLimit⟩
  else
    -- `enter_cycle`
    let entered := { w with executing := true }.check (w.owner && !w.executing) .reentrant
    let r := Inspection.walk limit observe .Ready w.new_tasks ⟨entered, 0, [], false, []⟩
    let r := Inspection.then_walk limit observe .Ready w.active r
    let r := Inspection.then_walk limit observe .Waiting (w.chain.follow w.pending.length w.chain.head) r
    -- the drop of the `CycleGuard`
    let left := { r.1.world with executing := false }
    ⟨left, r.1.looked,
      match r.2 with
      | .panic => .error .Panicked
      | _ => .ok (if r.1.truncated then .Truncated else .Complete)⟩

/-! ## What a waker changes -/

/-- The collections, the futures and what the executor is doing are the same. -/
structure SameTasks (w w' : World) : Prop where
  new_tasks : w'.new_tasks = w.new_tasks
  active : w'.active = w.active
  chain : w'.chain = w.chain
  pending : w'.pending = w.pending
  payload : w'.payload = w.payload
  poll_count : w'.poll_count = w.poll_count
  history : w'.history = w.history
  phase : w'.phase = w.phase
  fault : w'.fault = w.fault

theorem SameTasks.refl (w : World) : SameTasks w w := ⟨rfl, rfl, rfl, rfl, rfl, rfl, rfl, rfl, rfl⟩

theorem SameTasks.trans {a b c : World} (h : SameTasks a b) (h' : SameTasks b c) : SameTasks a c :=
  ⟨h'.new_tasks.trans h.new_tasks, h'.active.trans h.active, h'.chain.trans h.chain, h'.pending.trans h.pending,
    h'.payload.trans h.payload, h'.poll_count.trans h.poll_count, h'.history.trans h.history, h'.phase.trans h.phase,
    h'.fault.trans h.fault⟩

theorem World.wake_same (w : World) (t : TaskId) : SameTasks w (w.wake t) := by
  have hclear : ∀ w : World, SameTasks w (w.clear_notification t).wake_parent := by
    intro w
    unfold clear_notification
    split <;> exact ⟨rfl, rfl, rfl, rfl, rfl, rfl, rfl, rfl, rfl⟩
  unfold wake begin_notification
  rcases w.state t with _ | _ | _ | _
  · exact .refl w
  · simp only
    split
    · split <;> exact ⟨rfl, rfl, rfl, rfl, rfl, rfl, rfl, rfl, rfl⟩
    · refine SameTasks.trans ?_ (hclear _)
      exact ⟨rfl, rfl, rfl, rfl, rfl, rfl, rfl, rfl, rfl⟩
  · exact ⟨rfl, rfl, rfl, rfl, rfl, rfl, rfl, rfl, rfl⟩
  · exact ⟨rfl, rfl, rfl, rfl, rfl, rfl, rfl, rfl, rfl⟩

variable {w : World}

/-- The owner executes, and no parent has been woken since `w`. -/
structure Guarded (w w' : World) : Prop where
  owner : w'.owner = true
  executing : w'.executing = true
  parent_woken : w'.parent_woken = w.parent_woken

theorem Guarded.wake {w' : World} (h : Guarded w w') (t : TaskId) : Guarded w (w'.wake t) := by
  obtain ⟨howner, hexec, hparent⟩ := h
  unfold World.wake begin_notification
  cases w'.state t <;> constructor <;> simp [howner, hexec, hparent]

theorem World.wake_state (howner : w.owner = true) (t x : TaskId) :
    (w.wake t).state x = if x = t ∧ w.state x = .active then .active_local else w.state x := by
  unfold wake begin_notification
  by_cases hx : x = t
  · subst hx
    cases hs : w.state x <;> simp only [howner, if_true] <;> split <;> simp_all [wake_parent]
  · cases w.state t <;> simp only [howner, if_true] <;> split <;> simp_all [wake_parent]

theorem wakes_same (ts : List TaskId) (w : World) : SameTasks w (ts.foldl World.wake w) := by
  induction ts generalizing w with
  | nil => exact .refl w
  | cons t ts ih => exact (w.wake_same t).trans (ih (w.wake t))

theorem Guarded.wakes {w' : World} (h : Guarded w w') (ts : List TaskId) : Guarded w (ts.foldl World.wake w') := by
  induction ts generalizing w' with
  | nil => exact h
  | cons t ts ih => exact ih (h.wake t)

theorem wakes_state {w' : World} (h : Guarded w w') (ts : List TaskId) (x : TaskId) :
    (ts.foldl World.wake w').state x = if x ∈ ts ∧ w'.state x = .active then .active_local else w'.state x := by
  induction ts generalizing w' with
  | nil => simp
  | cons t ts ih =>
    rw [foldl_cons, ih (h.wake t), wake_state h.owner]
    grind

/-! ## Walks -/

/-- A task the executor has. -/
def World.live (w : World) (t : TaskId) : Prop := t ∈ w.new_tasks ∨ t ∈ w.active ∨ t ∈ w.pending

/-- What a task is shown as, before anything is woken. -/
def World.shown (w : World) (t : TaskId) : TaskState :=
  if w.is_notified t = true ∨ t ∈ w.new_tasks ∨ t ∈ w.active then .Ready else .Waiting

variable (observe : TaskId → TaskState → Observed)

/-- The inspectors and visitors of these tasks wake none but tasks that are notified already or have ended. -/
def Quiet (w : World) (looked : List TaskId) : Prop :=
  ∀ t ∈ looked, (w.payload t).any Payload.future = true → ∀ x ∈ (observe t (w.shown t)).wakes, w.state x ≠ .active

/-- What holds after a walk over `ts` that began in `w`. -/
structure Walked (limit : Nat) (w : World) (ts : List TaskId) (r : Inspection × Flow) : Prop where
  same : SameTasks w r.1.world
  guarded : Guarded w r.1.world
  quiet : Quiet observe w r.1.looked → r.1.world.state = w.state
  loud : ¬ Quiet observe w r.1.looked → ∃ x, w.state x = .active ∧ r.1.world.state x = .active_local
  count_eq : r.1.count = r.1.looked.length
  looked_le : r.1.looked.length ≤ limit
  nodup : r.1.looked.Nodup
  visited : r.1.truncated = false → ∀ t, t ∈ r.1.visited ↔ t ∈ r.1.looked
  walked : ∀ t ∈ r.1.looked, t ∈ ts
  go : r.2 = .go → r.1.truncated = false ∧ ∀ t ∈ ts, t ∈ r.1.looked
  stop : r.2 = .stop → r.1.truncated = true ∧ ∃ t ∈ ts, t ∉ r.1.looked
  panic : r.2 = .panic → r.1.truncated = false

variable {observe} {limit : Nat} {w : World} {ts more : List TaskId} {s : Inspection}

theorem Quiet.append {looked : List TaskId} {t : TaskId} : Quiet observe w (looked ++ [t]) ↔ Quiet observe w looked ∧
    ((w.payload t).any Payload.future = true → ∀ x ∈ (observe t (w.shown t)).wakes, w.state x ≠ .active) := by
  simp [Quiet, or_imp, forall_and]

/-- A task that is looked at: what its inspector wakes is all that changes. -/
theorem Walked.looks (h : Walked observe limit w ts (s, .go)) {t : TaskId} {state : TaskState} (hlimit : s.count ≠ limit)
    (hfresh : t ∉ s.looked) (hstate : (if w.is_notified t = true then .Ready else state) = w.shown t) {flow : Flow}
    (hflow : flow ≠ .stop) {world : World}
    (hworld : world = if (w.payload t).any Payload.future then
      (observe t (if s.world.is_notified t then .Ready else state)).wakes.foldl World.wake s.world else s.world) :
    Walked observe limit w (ts ++ [t])
      ({ s with world, count := s.count + 1, visited := t :: s.visited, looked := s.looked ++ [t] }, flow) := by
  obtain ⟨hgo, hall⟩ := h.go rfl
  have hcount : s.count = s.looked.length := h.count_eq
  have hle : s.looked.length ≤ limit := h.looked_le
  have hguarded : Guarded w s.world := h.guarded
  refine ⟨?_, ?_, fun hquiet => ?_, fun hloud => ?_, by simp [hcount], ?_, ?_, fun _ x => ?_, fun x hx => ?_,
    fun _ => ⟨hgo, fun x hx => ?_⟩, fun hstop => absurd hstop hflow, fun _ => hgo⟩
  · rw [hworld]
    split
    · exact h.same.trans (wakes_same _ _)
    · exact h.same
  · rw [hworld]
    split
    · exact hguarded.wakes _
    · exact hguarded
  · obtain ⟨hbefore, hwakes⟩ := Quiet.append.mp hquiet
    have hsame : s.world.state = w.state := h.quiet hbefore
    have hnotified : s.world.is_notified t = w.is_notified t := by rw [is_notified, is_notified, hsame]
    funext x
    rw [hworld]
    split
    · next hfuture =>
      rw [hnotified, hstate, wakes_state hguarded, hsame, if_neg fun hx => hwakes hfuture x hx.1 hx.2]
    · rw [hsame]
  · by_cases hbefore : Quiet observe w s.looked
    · have hsame : s.world.state = w.state := h.quiet hbefore
      have hnotified : s.world.is_notified t = w.is_notified t := by rw [is_notified, is_notified, hsame]
      simp only [Quiet.append, hbefore, true_and, not_forall, ne_eq, not_not] at hloud
      obtain ⟨hfuture, x, hx, hactive⟩ := hloud
      refine ⟨x, hactive, ?_⟩
      rw [hworld, if_pos hfuture, hnotified, hstate, wakes_state hguarded, hsame, if_pos ⟨hx, hactive⟩]
    · obtain ⟨x, hactive, hwoken⟩ := h.loud hbefore
      refine ⟨x, hactive, ?_⟩
      dsimp only at hwoken
      rw [hworld]
      split
      · rw [wakes_state hguarded, hwoken, if_neg nofun]
      · exact hwoken
  · show (s.looked ++ [t]).length ≤ limit
    rw [length_append, length_singleton]
    omega
  · exact nodup_append.mpr ⟨h.nodup, nodup_singleton t, by
      rintro a ha b hb rfl
      exact hfresh (mem_singleton.mp hb ▸ ha)⟩
  · simp only [mem_cons, mem_append, not_mem_nil, or_false, h.visited hgo x]
    exact or_comm
  · exact (mem_append.mp hx).elim (fun hx => mem_append_left _ (h.walked x hx)) (mem_append_right _)
  · exact (mem_append.mp hx).elim (fun hx => mem_append_left _ (hall x hx)) (mem_append_right _)

theorem Walked.inspect (h : Walked observe limit w ts (s, .go)) {t : TaskId} {state : TaskState}
    (hstate : t ∉ ts → (if w.is_notified t = true then .Ready else state) = w.shown t) :
    Walked observe limit w (ts ++ [t]) (s.inspect limit observe t state) := by
  obtain ⟨hgo, hall⟩ := h.go rfl
  have hvisited := h.visited hgo
  unfold Inspection.inspect
  split
  · rename_i hseen
    refine { h with walked := fun x hx => mem_append_left _ (h.walked x hx), go := fun _ => ⟨hgo, fun x hx => ?_⟩, stop := nofun }
    rcases mem_append.mp hx with hx | hx
    · exact hall x hx
    · rw [mem_singleton.mp hx]
      exact (hvisited t).mp hseen
  · rename_i hnew
    have hfresh : t ∉ s.looked := fun hl => hnew ((hvisited t).mpr hl)
    have hpayload : s.world.payload = w.payload := h.same.payload
    simp only
    split
    · exact { h with
        visited := nofun, walked := fun x hx => mem_append_left _ (h.walked x hx), go := nofun
        stop := fun _ => ⟨rfl, t, mem_append_right _ (mem_singleton.mpr rfl), hfresh⟩, panic := nofun }
    · rename_i hlimit
      have hshown := hstate fun ht => hfresh (hall t ht)
      rw [hpayload]
      split
      · rename_i hfuture
        have hne : ∀ panics : Bool, (if panics then Flow.panic else .go) ≠ .stop := by decide
        exact h.looks hlimit hfresh hshown (hne _) (if_pos hfuture).symm
      · rename_i hfuture
        exact h.looks hlimit hfresh hshown (show Flow.go ≠ .stop by decide) (if_neg hfuture).symm

/-- What is left of a walk that was cut short adds nothing. -/
theorem Walked.cut {r : Inspection × Flow} (h : Walked observe limit w ts r) (hgo : r.2 ≠ .go) :
    Walked observe limit w (ts ++ more) r :=
  { h with
    walked := fun x hx => mem_append_left _ (h.walked x hx)
    go := fun hr => absurd hr hgo
    stop := fun hr => by
      obtain ⟨htrunc, x, hx, hnot⟩ := h.stop hr
      exact ⟨htrunc, x, mem_append_left _ hx, hnot⟩ }

theorem Walked.walk (h : Walked observe limit w ts (s, .go)) (state : TaskState) (more : List TaskId)
    (hstate : ∀ t ∈ more, t ∉ ts → (if w.is_notified t = true then .Ready else state) = w.shown t) :
    Walked observe limit w (ts ++ more) (Inspection.walk limit observe state more s) := by
  induction more generalizing ts s with
  | nil =>
    rw [append_nil]
    exact h
  | cons t more ih =>
    have hnext := h.inspect (hstate t mem_cons_self)
    have hassoc : ts ++ t :: more = (ts ++ [t]) ++ more := by rw [append_assoc]; rfl
    rw [Inspection.walk, hassoc]
    rcases hr : s.inspect limit observe t state with ⟨s', _ | _ | _⟩ <;> rw [hr] at hnext
    · exact ih hnext fun x hx hnot => hstate x (mem_cons_of_mem _ hx) fun hin => hnot (mem_append_left _ hin)
    all_goals exact hnext.cut nofun

theorem Walked.then_walk {r : Inspection × Flow} (h : Walked observe limit w ts r) (state : TaskState) (more : List TaskId)
    (hstate : ∀ t ∈ more, t ∉ ts → (if w.is_notified t = true then .Ready else state) = w.shown t) :
    Walked observe limit w (ts ++ more) (Inspection.then_walk limit observe state more r) := by
  obtain ⟨s, _ | _ | _⟩ := r
  · have htrunc : s.truncated = false := (h.go rfl).1
    simp only [Inspection.then_walk, htrunc, Bool.false_eq_true, if_false]
    exact h.walk state more hstate
  · have htrunc : s.truncated = true := (h.stop rfl).1
    simp only [Inspection.then_walk, htrunc, if_true]
    exact h.cut nofun
  · exact h.cut nofun

/-! ## Inspections -/

/-- The owner is between two cycles. -/
structure World.Between (w : World) : Prop where
  idle : w.phase = .idle
  owner : w.owner = true
  resting : w.executing = false
  sound : w.fault = none

theorem inspect_walked (observe : TaskId → TaskState → Observed) (hw : w.Between) (hlinked : w.Linked) (hlimit : 1 ≤ limit) :
    ∃ r, Walked observe limit { w with executing := true } (w.new_tasks ++ w.active ++ w.pending) r ∧
      w.inspect limit observe = ⟨{ r.1.world with executing := false }, r.1.looked,
        match r.2 with
        | .panic => .error .Panicked
        | _ => .ok (if r.1.truncated then .Truncated else .Complete)⟩ := by
  have hentered : check { w with executing := true } (w.owner && !w.executing) .reentrant = { w with executing := true } :=
    if_pos (by rw [hw.owner, hw.resting]; rfl)
  have hstart : Walked observe limit { w with executing := true } [] (⟨{ w with executing := true }, 0, [], false, []⟩, .go) :=
    ⟨.refl _, ⟨hw.owner, rfl, rfl⟩, fun _ => rfl, fun h => absurd nofun h, rfl, Nat.zero_le _, nodup_nil, fun _ _ => .rfl,
      nofun, fun _ => ⟨rfl, nofun⟩, nofun, nofun⟩
  have hnew := hstart.walk .Ready w.new_tasks fun t ht _ => by simp [shown, ht]
  have hactive := hnew.then_walk .Ready w.active fun t ht _ => by simp [shown, ht]
  have hpending := hactive.then_walk .Waiting w.pending fun t _ hnot => by
    simp only [nil_append, mem_append, not_or] at hnot
    simp [shown, hnot]
  refine ⟨_, hpending, ?_⟩
  have hfollow : w.chain.follow w.pending.length w.chain.head = w.pending := Intrusive.Chain.Represents.follow hlinked
  rw [inspect, if_neg (by omega)]
  simp only [hentered, hfollow]

/-- An inspection looks at tasks once, at no more than its limit, tells whether it has seen all, and leaves the
tasks as they are. No wake is lost exactly if the inspectors and visitors of the tasks it looks at wake none but tasks
that are notified: the parent is not woken. -/
theorem inspection_leaves_tasks (hreach : system.Reachable w) (hw : w.Between) (hlimit : 1 ≤ limit)
    (observe : TaskId → TaskState → Observed) :
    (w.inspect limit observe).looked.Nodup ∧ (w.inspect limit observe).looked.length ≤ limit ∧
    (∀ t ∈ (w.inspect limit observe).looked, w.live t) ∧
    ((w.inspect limit observe).result = .ok .Complete → ∀ t, w.live t → t ∈ (w.inspect limit observe).looked) ∧
    ((w.inspect limit observe).result = .ok .Truncated → ∃ t, w.live t ∧ t ∉ (w.inspect limit observe).looked) ∧
    SameTasks w (w.inspect limit observe).world ∧
    ((∀ t, (w.inspect limit observe).world.is_notified t = true → w.is_notified t = true ∨
        ({ w with parent_woken := false }.inspect limit observe).world.parent_woken = true) ↔
      Quiet observe w (w.inspect limit observe).looked) := by
  have hlinked := reachable_linked hreach hw.sound
  obtain ⟨⟨s, flow⟩, hwalked, heq⟩ := inspect_walked observe hw hlinked hlimit
  -- the parent is not woken during the call
  obtain ⟨r, hcleared, hinspected⟩ := inspect_walked (w := { w with parent_woken := false }) observe
    ⟨hw.idle, hw.owner, hw.resting, hw.sound⟩ hlinked hlimit
  have hparent : ({ w with parent_woken := false }.inspect limit observe).world.parent_woken = false := by
    rw [hinspected]
    exact hcleared.guarded.parent_woken
  have hlive : ∀ t, t ∈ w.new_tasks ++ w.active ++ w.pending ↔ w.live t := by
    intro t
    rw [mem_append, mem_append, live, or_assoc]
  have hsame : SameTasks w { w with executing := true } := ⟨rfl, rfl, rfl, rfl, rfl, rfl, rfl, rfl, rfl⟩
  have hleft : SameTasks s.world { s.world with executing := false } := ⟨rfl, rfl, rfl, rfl, rfl, rfl, rfl, rfl, rfl⟩
  rw [hparent, heq]
  refine ⟨hwalked.nodup, hwalked.looked_le, fun t ht => (hlive t).mp (hwalked.walked t ht), ?_, ?_,
    (hsame.trans hwalked.same).trans hleft, fun hkept => ?_, fun hquiet t ht => ?_⟩
  · intro hresult t ht
    cases flow with
    | go => exact (hwalked.go rfl).2 t ((hlive t).mpr ht)
    | stop =>
      have htrunc : s.truncated = true := (hwalked.stop rfl).1
      simp [htrunc] at hresult
    | panic => cases hresult
  · intro hresult
    cases flow with
    | go =>
      have htrunc : s.truncated = false := (hwalked.go rfl).1
      simp [htrunc] at hresult
    | stop =>
      obtain ⟨-, t, ht, hnot⟩ := hwalked.stop rfl
      exact ⟨t, (hlive t).mp ht, hnot⟩
    | panic => cases hresult
  · by_contra hloud
    obtain ⟨x, hactive, hwoken⟩ := hwalked.loud hloud
    have hnotified : s.world.is_notified x = true := by rw [is_notified, hwoken]; rfl
    rcases hkept x hnotified with hbefore | hbefore
    · rw [is_notified, show w.state x = .active from hactive] at hbefore
      cases hbefore
    · cases hbefore
  · have hstate : s.world.state = w.state := hwalked.quiet hquiet
    rw [is_notified, hstate] at ht
    exact .inl ht

/-- A task is added and polled, and waits. -/
def one_pending_actions : List Action :=
  [.add, .returns, .returns, .start_cycle, .run, .run, .run, .run, .run, .poll_returns .pending, .run, .run, .run, .run]

def World.exec (w : World) (a : Action) : Option World := if w.fault = none then w.step a else none

theorem World.exec_step (w : World) (a : Action) (w' : World) (h : w.exec a = some w') : system.step w a w' := by
  unfold exec at h
  split at h
  · rename_i hfault
    exact ⟨hfault, h⟩
  · cases h

theorem one_pending_reachable (h : one_pending_actions.foldlM World.exec (World.new .ignore) = some w) :
    system.Reachable w :=
  ⟨_, Lts.Run.foldlM exec_step one_pending_actions (.init ⟨.ignore, rfl⟩) h⟩

theorem inspection_leaves_tasks_one : ∃ w, system.Reachable w ∧ w.Between ∧
    SameTasks w (w.inspect 1 fun _ _ => ⟨[], true⟩).world := by
  have hrun : ∃ w, one_pending_actions.foldlM exec (new .ignore) = some w ∧ w.Between := ⟨_, rfl, rfl, rfl, rfl, rfl⟩
  obtain ⟨w, hexec, hw⟩ := hrun
  have hreach := one_pending_reachable hexec
  exact ⟨w, hreach, hw, (inspection_leaves_tasks hreach hw (Nat.le_refl 1) fun _ _ => ⟨[], true⟩).2.2.2.2.2.1⟩

/-- The owner was told to suspend, a task that has been polled is woken by its inspector, and the parent is not woken. -/
theorem inspection_loses_wake : ∃ w, system.Reachable w ∧ w.Between ∧ w.outcome = some .suspend ∧ 0 < w.poll_count 0 ∧
    w.is_notified 0 = false ∧ w.parent_woken = false ∧ (w.inspect 1 fun t _ => ⟨[t], false⟩).result = .ok .Complete ∧
    (w.inspect 1 fun t _ => ⟨[t], false⟩).world.is_notified 0 = true ∧
    (w.inspect 1 fun t _ => ⟨[t], false⟩).world.parent_woken = false := by
  have hrun : ∃ w, one_pending_actions.foldlM exec (new .ignore) = some w ∧ w.Between ∧ w.outcome = some .suspend ∧
      0 < w.poll_count 0 ∧ w.is_notified 0 = false ∧ w.parent_woken = false ∧
      (w.inspect 1 fun t _ => ⟨[t], false⟩).result = .ok .Complete ∧
      (w.inspect 1 fun t _ => ⟨[t], false⟩).world.is_notified 0 = true ∧
      (w.inspect 1 fun t _ => ⟨[t], false⟩).world.parent_woken = false :=
    ⟨_, rfl, ⟨rfl, rfl, rfl, rfl⟩, rfl, by decide, rfl, rfl, rfl, rfl, rfl⟩
  obtain ⟨w, hexec, hw⟩ := hrun
  exact ⟨w, one_pending_reachable hexec, hw⟩

end Executor
