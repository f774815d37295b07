import Oxidizer.Executor.Model
/-!
# The pending list is linked

In every world without a fault the links of `chain` are those of `pending`. Only a task that
is not linked is inserted, for `linked_once` is a fault; every other change goes through
`remove` and `pop_front`.
-/

namespace Executor

open Lib

/-- The links are those of the pending tasks. -/
def World.Linked (w : World) : Prop := w.chain.Represents w.pending

namespace World

variable {w : World} {t : TaskId}

variable (h : w.Linked)
include h

variable {w' : World}

theorem Linked.same (hc : w'.chain = w.chain) (hp : w'.pending = w.pending) : w'.Linked := by
  unfold Linked
  rw [hc, hp]
  exact h

theorem Linked.check (ok : Bool) (site : Site) : (w.check ok site).Linked := by
  unfold World.check
  split
  · exact h
  · exact h.same rfl rfl

theorem Linked.goto (phase : Phase) : (w.goto phase).Linked := h.same rfl rfl

variable (t : TaskId)

theorem Linked.remove_pending : (w.remove_pending t).Linked := by
  unfold Linked World.remove_pending
  by_cases ht : t ∈ w.pending
  · exact (Intrusive.Chain.Represents.remove h ht).2
  · rw [Intrusive.Chain.Represents.remove_absent h ht, List.erase_of_not_mem ht]
    exact h

theorem Linked.retire : (w.retire t).Linked := h.same rfl rfl

theorem Linked.tell (outcome : TerminalOutcome) : (w.tell t outcome).Linked := h.same rfl rfl

theorem Linked.take_target : (w.take_target t).Linked := by
  unfold World.take_target
  split
  · refine Linked.check ?_ _ _
    exact h.same rfl rfl
  · exact h.check _ _

theorem Linked.destroy_pinned : (w.destroy_pinned t).Linked := by
  unfold World.destroy_pinned
  split
  · split
    · exact h.same rfl rfl
    · exact h
  · exact h

theorem Linked.retire_payload : (w.retire_payload t).Linked :=
  (h.destroy_pinned t).same rfl rfl

theorem Linked.decrement_task_count (count : Nat) : (w.decrement_task_count count).Linked := by
  refine Linked.check ?_ _ _
  exact h.same rfl rfl

theorem Linked.pop_active : w.pop_active.Linked := by
  refine Linked.check ?_ _ _
  exact h.same rfl rfl

theorem Linked.after (ending : Ending) : (w.after t ending).Linked := by
  have hpopped : ∀ linked : Bool, (if linked then w.pop_active.remove_pending t else w.pop_active).Linked := by
    intro linked
    split
    · exact h.pop_active.remove_pending t
    · exact h.pop_active
  cases ending with
  | ready linked | panicked linked => exact ((hpopped linked).decrement_task_count 1).goto _
  | aborted cause =>
    have hremoved := (h.decrement_task_count 1).remove_pending t
    exact hremoved.same rfl rfl
  | cancelled cause exit => exact h.goto _

theorem Linked.abort (ending : Ending) : (w.abort t ending).Linked := by
  unfold World.abort
  simp only
  split
  · exact ((h.retire t).take_target t).goto _
  · exact (h.retire t).after t ending

theorem Linked.finish_panicked (linked : Bool) : (w.finish_panicked t linked).Linked := by
  unfold World.finish_panicked
  simp only
  refine Linked.goto (Linked.tell ?_ _ _) _
  split
  · exact (h.retire_payload t).same rfl rfl
  · exact h.retire_payload t

theorem Linked.dropped (ending : Ending) (panics : Bool) : (w.dropped t ending panics).Linked := by
  have hgone := h.destroy_pinned t
  cases ending with
  | ready linked =>
    simp only [World.dropped]
    split
    · exact ((hgone.take_target t).retire t).finish_panicked t linked
    · exact ((((hgone.retire t).take_target t).retire_payload t).tell t _).goto _
  | panicked linked => exact hgone.finish_panicked t linked
  | aborted cause | cancelled cause exit => exact ((hgone.retire_payload t).tell t _).goto _

theorem Linked.poll_returns (linked : Bool) (result : PollResult)
    (hfault : (w.poll_returns t linked result).fault = none) : (w.poll_returns t linked result).Linked := by
  cases result with
  | pending =>
    simp only [World.poll_returns] at hfault ⊢
    split at hfault
    · rename_i hlinked
      rw [if_pos hlinked]
      exact h.pop_active.goto _
    · rename_i hlinked
      rw [if_neg hlinked]
      have hpopped := h.pop_active
      simp only [World.goto, World.insert_pending, World.check] at hfault
      split at hfault
      · rename_i hfree
        have hnot : t ∉ w.pop_active.pending := by
          intro hmem
          rw [(Intrusive.Chain.Represents.linked_iff hpopped).mpr hmem] at hfree
          cases hfree
        refine Linked.goto ?_ _
        rw [World.insert_pending, World.check, if_pos hfree]
        exact Intrusive.Chain.Represents.insert hpopped hnot
      · cases hfault
  | ready => exact h.goto _
  | panic => exact ((h.take_target t).retire t).goto _

variable (cause : ShutdownCause)

theorem Linked.collect (exit : Bool) : (w.collect cause exit).Linked := by
  have hfold : ∀ (ts : List TaskId) {w : World}, w.Linked → (ts.foldl World.remove_pending w).Linked := by
    intro ts
    induction ts with
    | nil => exact fun h => h
    | cons t ts ih => exact fun h => ih (h.remove_pending t)
  have hcleared : (if w.owner then { w with awakened := [] } else w).Linked := by
    split
    · exact h.same rfl rfl
    · exact h
  exact (hfold (if w.owner then { w with awakened := [] } else w).active hcleared).same rfl rfl

theorem Linked.take_pending (exit : Bool) : (w.take_pending cause exit).Linked := by
  unfold World.take_pending
  rcases hp : w.pending with _ | ⟨t, rest⟩
  · have hnil : w.chain.Represents [] := hp ▸ h
    rw [hnil.pop_front_nil]
    refine Linked.goto (Linked.decrement_task_count ?_ _) _
    exact h.same rfl hp.symm
  · have hcons : w.chain.Represents (t :: rest) := hp ▸ h
    obtain ⟨hfirst, hchain⟩ := hcons.pop_front
    rcases hpop : w.chain.pop_front with ⟨first, chain⟩
    rw [hpop] at hfirst hchain
    cases hfirst
    exact hchain

theorem Linked.begin_notification (notification : ScheduleState) :
    (w.begin_notification t notification).1.Linked := by
  unfold World.begin_notification
  split <;> exact h.same rfl rfl

theorem Linked.clear_notification : (w.clear_notification t).Linked := by
  unfold World.clear_notification
  split
  · exact h
  · exact h.same rfl rfl

theorem Linked.wake_local (rest : List OwnerCall) (pc : LocalPc) : (w.wake_local t rest pc).Linked := by
  cases pc with
  | begin_notification => exact (h.begin_notification t _).same rfl rfl
  | enqueue =>
    simp only [World.wake_local]
    split
    · exact h.same rfl rfl
    · exact (h.clear_notification t).same rfl rfl
  | wake_parent => exact h.same rfl rfl

theorem Linked.wake_remote (c : RemoteCall) : (w.wake_remote c).Linked := by
  unfold World.wake_remote
  split
  · simp only
    split
    · exact (h.begin_notification c.task _).same rfl rfl
    · exact (h.begin_notification c.task _).same rfl rfl
  · split
    · exact h.same rfl rfl
    · exact h.same rfl rfl
  · exact (h.clear_notification c.task).same rfl rfl
  · simp only
    split <;> exact h.same rfl rfl
  · exact h.same rfl rfl

theorem Linked.poll_active_tasks : w.poll_active_tasks.Linked := by
  unfold World.poll_active_tasks
  split
  · exact h.goto _
  · split
    · exact h.abort _ _
    · refine Linked.check ?_ _ _
      exact h.same rfl rfl

theorem Linked.accept_new_tasks : w.accept_new_tasks.Linked := by
  unfold World.accept_new_tasks
  split
  · exact h.goto _
  · refine Linked.goto (Linked.check ?_ _ _) _
    exact h.same rfl rfl

theorem Linked.drain_recv : w.drain_recv.Linked := by
  unfold World.drain_recv
  split
  · exact h.goto _
  · simp only
    split
    · refine Linked.check ?_ _ _
      exact h.same rfl rfl
    · exact h.same rfl rfl

theorem Linked.append_wakes : w.append_wakes.Linked := by
  unfold World.append_wakes
  split
  · exact h.same rfl rfl
  · exact h.goto _

theorem Linked.clear_notifications (todo : List TaskId) : (w.clear_notifications todo).Linked := by
  cases todo with
  | nil => exact h.goto _
  | cons t todo => exact (h.clear_notification t).goto _

theorem Linked.abort_prepared (exit : Bool) : (w.abort_prepared cause exit).Linked := by
  unfold World.abort_prepared
  split
  · split
    · refine Linked.check ?_ _ _
      exact h.same rfl rfl
    · exact h.goto _
  · refine Linked.abort ?_ _ _
    exact h.same rfl rfl

theorem Linked.cycle_outcome : w.cycle_outcome.Linked := by
  refine Linked.check (Linked.check ?_ _ _) _ _
  exact h.same rfl rfl

theorem Linked.run_phase (hs : w.run_phase = some w') : w'.Linked := by
  unfold World.run_phase at hs
  cases hp : w.phase <;> rw [hp] at hs <;> simp only at hs
  case accept_new_tasks => cases hs; exact h.accept_new_tasks
  case drain_swap => cases hs; exact h.same rfl rfl
  case drain_recv => cases hs; exact h.drain_recv
  case append_wakes => cases hs; exact h.append_wakes
  case clear_notifications todo => cases hs; exact h.clear_notifications todo
  case poll_active_tasks => cases hs; exact h.poll_active_tasks
  case cancel_if_shutting_down => split at hs <;> cases hs <;> exact h.goto _
  case close => cases hs; exact h.same rfl rfl
  case discard =>
    split at hs
    · cases hs; exact h.goto _
    · cases hs; exact h.same rfl rfl
  case clear_pending => cases hs; exact h.same rfl rfl
  case collect cause exit => cases hs; exact h.collect cause exit
  case take_pending cause exit => cases hs; exact h.take_pending cause exit
  case abort_prepared cause exit => cases hs; exact h.abort_prepared cause exit
  case cycle_outcome => cases hs; exact h.cycle_outcome
  case finish_cycle => cases hs; exact h.same rfl rfl
  all_goals cases hs

theorem Linked.add_task : w.add_task.Linked := by
  unfold World.add_task
  simp only
  split <;> exact h.same rfl rfl

theorem Linked.into_future_returns (rest : List OwnerCall) : (w.into_future_returns t rest).Linked := by
  unfold World.into_future_returns
  split <;> exact h.same rfl rfl

theorem Linked.trigger : (w.trigger cause).Linked := by
  unfold World.trigger
  split
  · exact h
  · exact h.same rfl rfl

theorem Linked.reclaim : (w.reclaim t).Linked := by
  unfold World.reclaim
  simp only
  split <;> exact h.same rfl rfl

theorem Linked.step {a : Action} (hs : w.step a = some w') (hfault : w'.fault = none) : w'.Linked := by
  cases a <;> simp only [World.step] at hs
  case add => split at hs <;> cases hs; exact h.add_task
  case trigger cause => split at hs <;> cases hs; exact h.trigger cause
  case wake t => split at hs <;> cases hs; exact h.same rfl rfl
  case start_cycle =>
    split at hs <;> cases hs
    refine Linked.check ?_ _ _
    exact h.same rfl rfl
  case drop_executor => split at hs <;> cases hs; exact h.same rfl rfl
  case returns =>
    split at hs <;> cases hs
    · exact h.into_future_returns _ _
    · exact h.same rfl rfl
  case poll_returns result => split at hs <;> cases hs; exact h.poll_returns _ _ result hfault
  case drop_returns panics => split at hs <;> cases hs; exact h.dropped _ _ panics
  case tell_returns => split at hs <;> cases hs; exact h.after _ _
  case run =>
    split at hs
    · exact h.run_phase hs
    · cases hs; exact h.wake_local _ _ _
    · cases hs
  case call id t => split at hs <;> cases hs; exact h.same rfl rfl
  case remote id => split at hs <;> cases hs; exact h.wake_remote _
  case reclaim t => split at hs <;> cases hs; exact h.reclaim t

end World

theorem reachable_linked {w : World} (hw : system.Reachable w) : w.fault = none → w.Linked := by
  refine Lts.Reachable.inv (fun w => w.fault = none → w.Linked) ?_ ?_ hw
  · rintro w ⟨policy, rfl⟩ _
    exact Intrusive.Chain.represents_empty
  · rintro w a w' _ h ⟨hfault, hs⟩ hfault'
    exact (h hfault).step hs hfault'

end Executor
