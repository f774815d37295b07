import Oxidizer.Performables.Waiting
/-!
# Notifications of the condition variable

What a call of `notify_one` has done for the waits that were registered when it
was made. Such a wait is older than the generation of the call, so it is ready
from its next look at the generation on, and no newer wait is before it in the
queue. The call takes the first of the queue: one of these waits, as long as one
of them is not ready.
-/

namespace Performables

open Lib List

namespace Condvar
variable {ι : Type}

/-- The waits that a call of `wake_one` is for. -/
def Pc.registered : Pc ι → Option (ι → Bool)
  | .get registered | .init registered | .pop registered | .popping registered | .taking registered _
  | .wake registered _ _ | .ended registered _ => some registered
  | _ => none

/-- What a call has taken from the queue; a waker that is not taken yet counts. -/
def Pc.popped : Pc ι → Option ((ι → Bool) × Option (ι × Bool))
  | .taking registered w => some (registered, some (w, true))
  | .wake registered w waker => some (registered, some (w, waker))
  | .ended registered popped => some (registered, popped)
  | _ => none

/-- At the queue, which has been made. -/
def Pc.late : Pc ι → Bool
  | .lock | .retry | .enqueue | .dequeue | .pop _ | .popping _ | .taking _ _ => true
  | _ => false

/-- A wait that a call of `notify_one` is for. -/
structure Called (s : Condvar ι) (w : ι) : Prop where
  older : (s.waits w).generation < s.generation
  guard : (s.waits w).guard = false
  fresh : (s.waits w).pc ≠ .fresh

/-- The waiter is in the queue, or is about to be without another look at the generation. -/
def Listed (s : Condvar ι) (w : ι) : Prop := w ∈ s.waiters ∨ (s.waits w).pc = .enqueue

/-- What is true of a call for the waits `registered`, once it has moved the generation. -/
structure Meant (s : Condvar ι) (registered : ι → Bool) : Prop where
  called : ∀ w, registered w = true → Called s w
  entries : ∀ a, Listed s a → registered a = true ∨ (s.waits a).active = false ∨
    ∀ w, registered w = true → (s.waits w).generation < (s.waits a).generation

/-- The call has taken the waiter of a wait it was for, and that one is woken or ready. -/
def Answered (s : Condvar ι) (registered : ι → Bool) (popped : Option (ι × Bool)) : Prop :=
  ∃ w waker, popped = some (w, waker) ∧ registered w = true ∧ (waker = true ∨ Settled s w)

structure Calls (s : Condvar ι) : Prop where
  made : s.made = false → s.waiters = [] ∧ ∀ p, (s.waits p).pc.late = false
  meant : ∀ p registered, (s.waits p).pc.registered = some registered → Meant s registered
  answered : ∀ p registered popped, (s.waits p).pc.popped = some (registered, popped) → ∀ w, registered w = true →
    Settled s w ∨ Answered s registered popped

/-- What a step keeps for calls under way. -/
structure Next (s s' : Condvar ι) : Prop where
  called : ∀ w, Called s w → Called s' w ∧ (s'.waits w).generation = (s.waits w).generation
  settled : ∀ w, Called s w → Settled s w → Settled s' w
  listed : ∀ a, Listed s' a → s.generation ≤ (s'.waits a).generation ∨
    Listed s a ∧ (s'.waits a).generation = (s.waits a).generation ∧ ((s.waits a).active = false → (s'.waits a).active = false)

variable {s s' : Condvar ι} {p w : ι} {registered : ι → Bool} {popped : Option (ι × Bool)}

theorem Pc.popped_registered {pc : Pc ι} (h : pc.popped = some (registered, popped)) : pc.registered = some registered := by
  cases pc <;> simp_all [Pc.popped, Pc.registered]

theorem Meant.next (h : Meant s registered) (next : Next s s') : Meant s' registered := by
  refine ⟨fun w hw => (next.called w (h.called w hw)).1, fun a ha => ?_⟩
  have hgen := fun w hw => (next.called w (h.called w hw)).2
  rcases next.listed a ha with hnew | ⟨hold, htgen, hactive⟩
  · refine .inr (.inr fun w hw => ?_)
    rw [hgen w hw]
    exact (h.called w hw).older.trans_le hnew
  · refine (h.entries a hold).imp_right (.imp hactive fun hlt w hw => ?_)
    rw [hgen w hw, htgen]
    exact hlt w hw

theorem Meant.answered (h : Meant s registered) (next : Next s s') (hw : registered w = true)
    (hold : Settled s w ∨ Answered s registered popped) : Settled s' w ∨ Answered s' registered popped := by
  refine hold.imp (next.settled w (h.called w hw)) ?_
  rintro ⟨v, waker, hpop, hv, hready⟩
  exact ⟨v, waker, hpop, hv, hready.imp_right (next.settled v (h.called v hv))⟩

theorem Inv.listed (inv : Inv s) (hc : Called s w) (h : ¬Settled s w) :
    w ∈ s.waiters ∨ (s.waits w).pc = .enqueue ∨ Taken s w := by
  have hok := inv.ok w
  have := hc.older.ne
  have := hc.guard
  unfold Settled Alert Wait.registered at h
  unfold Wait.Ok at hok
  grind

theorem Inv.ready (inv : Inv s) (hpc : (s.waits p).pc = .taking registered w) (hc : Called s w) :
    (s.waits w).waker = true ∨ Settled s w := by
  have hok := inv.ok w
  have := hc.older.ne
  have := hc.guard
  have henqueue : (s.waits w).pc ≠ .enqueue := by
    intro h
    obtain rfl : w = p := inv.unique (by rw [hpc]; rfl) (by rw [h]; rfl)
    simp [hpc] at h
  unfold Settled Alert Wait.registered
  unfold Wait.Ok at hok
  grind

variable [DecidableEq ι]

theorem Calls.next (calls : Calls s) (next : Next s s') (hpcs : ∀ q ≠ p, (s'.waits q).pc = (s.waits q).pc)
    (made : s'.made = false → s'.waiters = [] ∧ ∀ p, (s'.waits p).pc.late = false)
    (meant : ∀ registered, (s'.waits p).pc.registered = some registered → Meant s' registered)
    (answered : ∀ registered popped, (s'.waits p).pc.popped = some (registered, popped) → ∀ w, registered w = true →
      Settled s' w ∨ Answered s' registered popped) : Calls s' := by
  refine ⟨made, fun q registered hq => ?_, fun q registered popped hq w hw => ?_⟩
  · by_cases hqp : q = p
    · exact meant registered (hqp ▸ hq)
    · rw [hpcs q hqp] at hq
      exact (calls.meant q registered hq).next next
  · by_cases hqp : q = p
    · exact answered registered popped (hqp ▸ hq) w hw
    · rw [hpcs q hqp] at hq
      exact (calls.meant q registered (Pc.popped_registered hq)).answered next hw (calls.answered q registered popped hq w hw)

/-! ## Steps -/

theorem Called.step (h : Called s w) : Called (s.step p) w := by
  obtain ⟨hgen, hguard, -⟩ := step_keeps s p w
  refine ⟨?_, hguard.trans h.guard, ?_⟩
  · rw [step_generation, hgen]
    exact h.older
  · by_cases hw : w = p
    · have := h.fresh
      unfold Condvar.step
      grind -ring -linarith
    · rw [(step_other hw).1]
      exact h.fresh

theorem Settled.step (hcalled : Called s w) (inv : Inv s) (h : Settled s w) : Settled (s.step p) w := by
  obtain ⟨hgen, hguard, hnotified, -⟩ := step_keeps s p w
  rcases h with h | h | h | ⟨hsuspended, henqueue, hne⟩
  · left
    have hfresh := hcalled.fresh
    unfold Wait.registered at *
    rw [hguard]
    by_cases hw : w = p
    · subst hw
      clear hgen hguard hnotified
      cases hpc : (s.waits w).pc <;> simp only [Condvar.step, hpc] <;> grind -ring -linarith
    · rw [(step_other hw).1]
      exact h
  · exact .inr (.inl (hnotified h))
  · exact .inr (.inr (.inl h.step))
  · by_cases hw : w = p
    · subst hw
      have hok := inv.ok w
      unfold Settled Alert
      cases hpc : (s.waits w).pc <;> simp only [Wait.Ok, hpc] at hok <;> simp only [Condvar.step, hpc, Wait.registered] <;>
        grind -ring -linarith
    · refine .inr (.inr (.inr ?_))
      rw [(step_other hw).1, step_generation, hgen]
      exact ⟨hsuspended, henqueue, hne⟩

theorem step_registered (h : ((s.step p).waits p).pc.registered = some registered) :
    (s.waits p).pc.registered = some registered ∨ ∀ w, registered w = false := by
  unfold step at h
  grind -ring -linarith [Pc.registered]

theorem step_made (h : s.made = false → s.waiters = [] ∧ ∀ p, (s.waits p).pc.late = false) (hmade : (s.step p).made = false) :
    (s.step p).waiters = [] ∧ ∀ q, ((s.step p).waits q).pc.late = false := by
  have hold : s.made = false := by
    unfold step at hmade
    grind -ring -linarith
  obtain ⟨hnil, hlate⟩ := h hold
  constructor
  · have := hlate p
    unfold step
    grind -ring -linarith [Pc.late]
  · intro q
    by_cases hq : q = p
    · subst hq
      have := hlate q
      unfold step at hmade ⊢
      grind -ring -linarith [Pc.late]
    · rw [(step_other hq).1]
      exact hlate q

theorem Next.step (inv : Inv s) : Next s (s.step p) := by
  refine ⟨fun w hw => ⟨hw.step, (step_keeps s p w).1⟩, fun w hw => .step hw inv, fun a ha => ?_⟩
  rw [(step_keeps s p a).1]
  by_cases hap : a = p
  · subst hap
    have hok := inv.ok a
    have hout : a ∉ s.waiters.erase a := inv.nodup.not_mem_erase
    unfold Listed at *
    cases hpc : (s.waits a).pc <;> simp only [Wait.Ok, hpc] at hok <;> simp only [Condvar.step, hpc] at ha ⊢ <;>
      grind -ring -linarith
  · rw [(step_other hap).2.1]
    refine .inr ⟨?_, rfl, id⟩
    unfold Listed at *
    rw [(step_other hap).1] at ha
    refine ha.imp_left fun h => ?_
    unfold Condvar.step at h
    grind -ring -linarith [List.mem_of_mem_erase]

theorem Calls.step_answered (calls : Calls s) (inv : Inv s)
    (h : ((s.step p).waits p).pc.popped = some (registered, popped)) (hw : registered w = true) :
    Settled s w ∨ Answered s registered popped := by
  by_cases hsettled : Settled s w
  · exact .inl hsettled
  -- the wait is in the queue, unless a call has just found it
  have hlisted := fun hr => inv.listed ((calls.meant p registered hr).called w hw) hsettled
  have hsame : (s.waits p).pc.popped = some (registered, popped) → Settled s w ∨ Answered s registered popped :=
    fun h => calls.answered p registered popped h w hw
  cases hpc : (s.waits p).pc with
  | init registered' =>
    have hmade := calls.made
    simp only [Condvar.step, hpc] at h
    grind [Pc.popped, Pc.late, Pc.registered, Taken]
  | popping registered' =>
    have hmem : (s.waits p).pc.registered = some registered → w ∈ s.waiters := by
      have hunique := fun q => inv.unique (p := p) (q := q) (by rw [hpc]; rfl)
      grind [Pc.holds, Taken]
    simp only [Condvar.step, hpc] at h
    cases hcons : s.waiters with
    | nil => grind [Pc.popped, Pc.registered]
    | cons front waiters =>
      -- the first in the queue is not newer than the wait
      have hle : w ∈ s.waiters → (s.waits front).generation ≤ (s.waits w).generation := by
        have hsorted := inv.sorted
        grind [pairwise_cons]
      have hentry := fun hr => (calls.meant p registered hr).entries front (.inl (by simp [hcons]))
      refine .inr ⟨front, true, ?_, ?_, .inl rfl⟩ <;> grind [Pc.popped, Pc.registered]
  | taking registered' v =>
    simp only [Condvar.step, hpc, goto_waits, if_true, Pc.popped, Option.some.injEq, Prod.mk.injEq] at h
    obtain ⟨rfl, rfl⟩ := h
    obtain h | ⟨_, _, heq, hv, -⟩ := calls.answered p registered' _ (by rw [hpc]; rfl) w hw
    · exact .inl h
    · cases heq
      exact .inr ⟨v, _, rfl, hv, inv.ready hpc ((calls.meant p registered' (by rw [hpc]; rfl)).called v hv)⟩
  | _ =>
    simp only [Condvar.step, hpc] at h
    grind -ring -linarith [Pc.popped]

theorem Calls.step (calls : Calls s) (inv : Inv s) : Calls (s.step p) := by
  have next := Next.step (p := p) inv
  have meant : ∀ registered, ((s.step p).waits p).pc.registered = some registered → Meant s registered := by
    intro registered h
    rcases step_registered h with h | h
    · exact calls.meant p registered h
    · exact ⟨by simp [h], by simp [h]⟩
  refine calls.next next (fun q hq => (step_other hq).1) (step_made calls.made) (fun registered h => (meant registered h).next next) ?_
  intro registered popped h w hw
  exact (meant registered (Pc.popped_registered h)).answered next hw (calls.step_answered inv h hw)

/-! ## Calls -/

/-- A call changes the place of one party, which is not yet waiting or between two polls. -/
theorem Calls.call {t : Wait ι} (calls : Calls s) (inv : Inv s) (waits : ∀ q, s'.waits q = if q = p then t else s.waits q)
    (same : s'.waiters = s.waiters ∧ s'.made = s.made) (gen : s.generation ≤ s'.generation) (late : t.pc.late = false)
    (hpc : (s.waits p).pc = .fresh ∨ (s.waits p).pc = .suspended ∧ t.pc ≠ .fresh ∧ t.guard = false ∧
      t.generation = (s.waits p).generation ∧ ((s.waits p).active = false → t.active = false) ∧ (Called s p → Settled s' p))
    (meant : ∀ registered, t.pc.registered = some registered → Meant s' registered) (popped : t.pc.popped = none) : Calls s' := by
  have next : Next s s' := by
    have hok := inv.ok p
    refine ⟨fun w hw => ?_, fun w hw hsettled => ?_, fun a ha => ?_⟩
    · obtain ⟨h1, h2, h3⟩ := hw
      constructor
      · constructor <;> grind
      · grind
    · by_cases hwp : w = p
      · subst hwp
        grind [Called]
      · have := hw.older
        unfold Settled Alert Woken at *
        grind
    · unfold Listed at *
      unfold Wait.Ok at hok
      grind [Pc.late]
  refine calls.next (p := p) next (fun q hq => by rw [waits, if_neg hq]) ?_ (by rw [waits, if_pos rfl]; exact meant)
    (by simp [waits, popped])
  rw [same.1, same.2]
  intro hmade
  obtain ⟨hnil, hlate⟩ := calls.made hmade
  exact ⟨hnil, fun q => by rw [waits]; split <;> simp [late, hlate]⟩

theorem Calls.wait_async (calls : Calls s) (inv : Inv s) (hpc : (s.waits p).pc = .fresh) : Calls (s.wait_async p) :=
  calls.call inv (set_waits _ p · _) ⟨rfl, rfl⟩ le_rfl rfl (.inl hpc) nofun rfl

theorem Calls.notify_one (calls : Calls s) (inv : Inv s) (hpc : (s.waits p).pc = .fresh) (hwrap : s.generation + 1 < 2 ^ 64) :
    Calls (s.notify_one p) := by
  have hgen : (s.notify_one p).generation = s.generation + 1 := Nat.mod_eq_of_lt hwrap
  refine calls.call inv (goto_waits _ p · _) ⟨rfl, rfl⟩ (by omega) rfl (.inl hpc) ?_ rfl
  rintro _ ⟨⟩
  have hother : ∀ w, (s.waits w).registered = true → (s.notify_one p).waits w = s.waits w := by
    intro w hw
    refine if_neg ?_
    rintro rfl
    simp [Wait.registered, hpc] at hw
  refine ⟨fun w hw => ?_, fun a ha => ?_⟩
  · have := inv.older w
    refine ⟨?_, ?_, ?_⟩ <;> rw [hother w hw]
    · omega
    · grind [Wait.registered]
    · grind [Wait.registered]
  · have hok := inv.ok a
    have hlisted : Listed s a := by
      unfold Listed Condvar.notify_one at *
      grind
    rcases hlisted with h | h
    · rcases inv.entry h with h | h
      · exact .inl h
      · refine .inr (.inl ?_)
        simp only [Wait.Ok, h] at hok
        unfold Condvar.notify_one
        grind
    · left
      simp only [Wait.Ok, h] at hok
      simp [Wait.registered, h, hok.1]

theorem Calls.poll (calls : Calls s) (inv : Inv s) (hpc : (s.waits p).pc = .suspended) : Calls (s.poll p) := by
  refine calls.call inv (set_waits _ p · _) ⟨rfl, rfl⟩ le_rfl ?_ (.inr ⟨hpc, ?_, rfl, rfl, id, fun hc => ?_⟩) ?_ ?_
  · dsimp only
    split <;> rfl
  · dsimp only
    split <;> nofun
  · -- a poll sees the notification
    have := hc.older.ne
    unfold Settled Alert Condvar.poll
    grind
  · dsimp only
    split <;> nofun
  · dsimp only
    split <;> rfl

theorem Calls.drop (calls : Calls s) (inv : Inv s) (hpc : (s.waits p).pc = .suspended) : Calls (s.drop p) := by
  refine calls.call inv (set_waits _ p · _) ⟨rfl, rfl⟩ le_rfl ?_ (.inr ⟨hpc, ?_, rfl, rfl, fun _ => rfl, fun hc => ?_⟩) ?_ ?_
  · dsimp only
    split <;> rfl
  · dsimp only
    split <;> nofun
  · left
    unfold Wait.registered Condvar.drop
    grind
  · dsimp only
    split <;> nofun
  · dsimp only
    split <;> rfl

/-! ## Runs -/

theorem Calls.reachable (h : ((system ι).limit Prompt).Reachable s) : Inv s ∧ Calls s := by
  refine Lts.Reachable.inv (fun s => Inv s ∧ Calls s) ?_ ?_ h
  · rintro s ⟨-, -, -, hholder, hwaiters, hwaits⟩
    refine ⟨⟨?_, by simp [hwaiters], by simp [hwaiters], ?_, ?_, ?_⟩, ?_, ?_, ?_⟩
    · simp [hholder, hwaits, Pc.holds]
    · simp [hwaits, Wait.Ok, hwaiters]
    all_goals simp [hwaiters, hwaits, Pc.late, Pc.registered, Pc.popped]
  · rintro s a s' - ⟨inv, calls⟩ ⟨hs, hprompt⟩
    cases a with
    | wait_async p =>
      obtain ⟨hpc, -, rfl⟩ := hs
      exact ⟨inv.wait_async hpc, calls.wait_async inv hpc⟩
    | poll p =>
      obtain ⟨hpc, rfl⟩ := hs
      exact ⟨inv.poll hpc, calls.poll inv hpc⟩
    | drop p =>
      obtain ⟨hpc, rfl⟩ := hs
      exact ⟨inv.drop hpc, calls.drop inv hpc⟩
    | notify_one p =>
      obtain ⟨hpc, rfl⟩ := hs
      exact ⟨inv.notify_one hpc hprompt, calls.notify_one inv hpc hprompt⟩
    | step p =>
      obtain ⟨hen, rfl⟩ := hs
      exact ⟨inv.step hen hprompt, calls.step inv⟩

/-- No notification is lost in a run in which no poll finds the generation moved while its waiter is in the queue. -/
theorem condvar_delivers_of_prompt (s : Condvar ι) (h : ((system ι).limit Prompt).Reachable s) : Delivers s ∧ Unlinks s :=
  have ⟨inv, calls⟩ := Calls.reachable h
  ⟨fun p registered popped hpc => calls.answered p registered popped (by rw [hpc]; rfl), fun _ => inv.entry⟩

/-! ## A poll that no one asked for -/

def quiet : Condvar (Fin 5) := ⟨0, none, false, none, [], fun _ => ⟨.fresh, 0, false, false, false, false, false, false⟩⟩

theorem condvar_delivers_of_prompt_one :
    ∃ s, ((system (Fin 5)).limit Prompt).Reachable s ∧
      (∃ registered, (s.waits 3).pc = .ended registered (some (0, true)) ∧ registered 0 = true) ∧ Delivers s ∧ Unlinks s := by
  have h : ((system (Fin 5)).limit Prompt).Reachable quiet := ⟨[], .init ⟨rfl, rfl, rfl, rfl, rfl, fun _ => rfl⟩⟩
  have h := h.step (a := Action.wait_async (0 : Fin 5)) ⟨⟨rfl, rfl, rfl⟩, trivial⟩
  have h := h.step (a := Action.poll (0 : Fin 5)) ⟨⟨rfl, rfl⟩, trivial⟩
  have h := h.step (a := Action.step (0 : Fin 5)) ⟨⟨trivial, rfl⟩, fun _ => .inl rfl⟩
  have h := h.step (a := Action.step (0 : Fin 5)) ⟨⟨trivial, rfl⟩, nofun⟩
  have h := h.step (a := Action.step (0 : Fin 5)) ⟨⟨trivial, rfl⟩, nofun⟩
  have h := h.step (a := Action.step (0 : Fin 5)) ⟨⟨rfl, rfl⟩, nofun⟩
  have h := h.step (a := Action.step (0 : Fin 5)) ⟨⟨trivial, rfl⟩, nofun⟩
  have h := h.step (a := Action.step (0 : Fin 5)) ⟨⟨trivial, rfl⟩, nofun⟩
  have h := h.step (a := Action.notify_one (3 : Fin 5)) ⟨⟨rfl, rfl⟩, show 0 + 1 < 2 ^ 64 by decide⟩
  have h := h.step (a := Action.step (3 : Fin 5)) ⟨⟨trivial, rfl⟩, nofun⟩
  have h := h.step (a := Action.step (3 : Fin 5)) ⟨⟨rfl, rfl⟩, nofun⟩
  have h := h.step (a := Action.step (3 : Fin 5)) ⟨⟨trivial, rfl⟩, nofun⟩
  have h := h.step (a := Action.step (3 : Fin 5)) ⟨⟨trivial, rfl⟩, nofun⟩
  have h := h.step (a := Action.step (3 : Fin 5)) ⟨⟨trivial, rfl⟩, nofun⟩
  exact ⟨_, h, ⟨_, rfl, rfl⟩, condvar_delivers_of_prompt _ h⟩

/-- A new wait, up to the end of its first poll. -/
def registering (p : Fin 5) : List (Action (Fin 5)) :=
  [.wait_async p, .poll p, .step p, .step p, .step p, .step p, .step p, .step p]

/-- Two waits are registered and one is notified and completes; the other is polled too, and completes with its waiter
in the queue. Then a third wait is registered. -/
def absorbed : List (Action (Fin 5)) :=
  registering 0 ++ registering 1 ++ [.notify_one 3, .step 3, .step 3, .step 3, .step 3, .step 3] ++
    [.poll 0, .step 0, .step 0, .step 0] ++ [.poll 1, .step 1, .step 1, .step 1] ++ registering 2

/-- A run of actions, checked as it goes. -/
def perform (s : Condvar (Fin 5)) : Action (Fin 5) → Option (Condvar (Fin 5))
  | .wait_async p =>
    match (s.waits p).pc, s.mutex with
    | .fresh, none => some (s.wait_async p)
    | _, _ => none
  | .poll p =>
    match (s.waits p).pc with
    | .suspended => some (s.poll p)
    | _ => none
  | .drop p =>
    match (s.waits p).pc with
    | .suspended => some (s.drop p)
    | _ => none
  | .notify_one p =>
    match (s.waits p).pc with
    | .fresh => some (s.notify_one p)
    | _ => none
  | .step p =>
    match (s.waits p).pc, s.holder with
    | .fresh, _ | .suspended, _ | .released, _ | .ended _ _, _ | .done, _ => none
    | .lock, some _ | .recancel, some _ | .cancel, some _ | .pop _, some _ => none
    | _, _ => some (s.step p)

theorem perform_step (s : Condvar (Fin 5)) (a : Action (Fin 5)) (s' : Condvar (Fin 5)) (h : perform s a = some s') :
    (system (Fin 5)).step s a s' := by
  cases a with
  | step p =>
    simp only [perform] at h
    cases hpc : (s.waits p).pc <;> cases hholder : s.holder <;> simp only [hpc, hholder, Option.some.injEq, reduceCtorEq] at h <;>
      exact ⟨by simp only [Enabled, hpc, hholder], h.symm⟩
  | wait_async p =>
    simp only [perform] at h
    split at h
    · next hpc hmutex => exact ⟨hpc, hmutex, (Option.some.inj h).symm⟩
    · cases h
  | poll p | drop p | notify_one p =>
    simp only [perform] at h
    split at h
    · next hpc => exact ⟨hpc, (Option.some.inj h).symm⟩
    · cases h

/-- The next notification is for the third wait alone. It takes the entry of the second, which has completed, and is over. -/
theorem condvar_loses_notification :
    ∃ s s', (system (Fin 5)).Reachable s ∧ ¬Unlinks s ∧ (system (Fin 5)).Reachable s' ∧ ¬Delivers s' := by
  have hquiet : (system (Fin 5)).Run [] quiet := .init ⟨rfl, rfl, rfl, rfl, rfl, fun _ => rfl⟩
  have hrun := Lts.Run.foldlM perform_step absorbed hquiet rfl
  refine ⟨_, _, hrun.reachable, fun h => ?_,
    (Lts.Run.foldlM perform_step [.notify_one 4, .step 4, .step 4, .step 4, .step 4, .step 4] hrun rfl).reachable, fun h => ?_⟩
  · rcases h 1 (.head _) with h | h <;> cases h
  · rcases h 4 _ _ rfl 2 rfl with (h | h | (h | ⟨p, registered, h⟩) | ⟨h, -⟩) | ⟨w, waker, hpop, hw, -⟩
    · cases h
    · cases h
    · cases h
    · fin_cases p <;> cases h
    · exact h rfl
    · cases hpop
      cases hw

end Condvar

end Performables
