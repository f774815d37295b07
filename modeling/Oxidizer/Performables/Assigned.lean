import Oxidizer.Performables.Notify
/-!
# Notifications and the waits they are assigned to

The invariant of `Notify`. A registered wait is in the queue, or was popped by
the party that has the lock, or has its notification. While no one is in the
middle of a change of the queue, the word is `WAITING` if and only if the queue is
not empty. There is a lemma for each part of the invariant that a step of a party
keeps it.
-/

namespace Performables

open Lib List

namespace Notify
variable {ι : Type}

def Pc.holds : Pc ι → Bool
  | .pop _ _ | .empties _ _ _ | .assign _ _ _ | .unlock _ _ | .unlock_none _ _ | .enqueue_take _ | .receive _ | .announce _
  | .push _ | .unlock_enqueue _ | .remove _ | .empties_cancel _ | .inspect _ | .unlock_cancel _ _ => true
  | _ => false

/-- The waiter that was popped and not marked yet. -/
def Pc.pops : Pc ι → Option ι
  | .empties _ w _ | .assign _ w _ => some w
  | _ => none

/-- The word still says `WAITING`, or already, whatever the queue. -/
def Pc.midway : Pc ι → Bool
  | .empties _ _ _ | .push _ | .empties_cancel _ => true
  | _ => false

/-- The queue is there. -/
def Pc.needs : Pc ι → Bool
  | .lock _ _ | .enqueue_take _ | .receive _ | .announce _ | .push _ | .unlock_enqueue _ => true
  | _ => false

def Popped (s : Notify ι) (w : ι) : Prop := ∃ p, (s.calls p).pc.pops = some w

/-- A party that is not in the queue and has no notification. -/
def Call.Clear (t : Call ι) (listed popped : Prop) : Prop := ¬listed ∧ ¬popped ∧ t.token = none ∧ t.consumed = none

/-- A registered wait has its notification, or is in the queue or just popped. -/
def Call.Registered (t : Call ι) (listed popped : Prop) : Prop :=
  t.consumed = none ∧ t.received = false ∧
    (t.notified = true ∧ t.token ≠ none ∧ ¬listed ∧ ¬popped ∨ t.notified = false ∧ t.token = none ∧ (listed ∨ popped))

/-- What is true of a party, by where it is. -/
def Call.Ok (t : Call ι) (listed popped : Prop) : Prop :=
  match t.pc with
  | .fresh =>
    t.Clear listed popped ∧ t.notified = false ∧ t.received = false ∧ t.has_waiter = false ∧ t.issued = false
  | .load _ ok | .lock _ ok | .pop _ ok | .empties _ _ ok | .assign _ _ ok | .unlock _ ok | .wake _ ok
  | .unlock_none _ ok => ok = false ∧ t.Clear listed popped
  | .store _ seen ok => seen ≠ .waiting ∧ ok = false ∧ t.Clear listed popped
  | .try_take | .take _ | .lock_enqueue _ | .enqueue_take _ | .announce _ | .push _ =>
    t.Clear listed popped ∧ t.notified = false ∧ t.received = false ∧ t.has_waiter = false
  | .receive _ => ¬listed ∧ ¬popped ∧ t.consumed = none ∧ t.token ≠ none ∧ t.received = false
  | .unlock_enqueue _ => t.Registered listed popped
  | .check _ | .park _ | .enabled _ | .register | .recheck | .lock_cancel false | .remove false =>
    t.has_waiter = true ∧ t.Registered listed popped
  | .consume => t.has_waiter = true ∧ t.Registered listed popped ∧ t.notified = true
  | .rest =>
    t.has_waiter = true ∧ t.Registered listed popped ∨
      t.has_waiter = false ∧ t.notified = false ∧ ¬listed ∧ ¬popped ∧ t.consumed = none ∧
        (t.received = true ∧ t.token ≠ none ∨ t.received = false ∧ t.token = none)
  | .lock_cancel true | .remove true | .inspect true | .unlock_cancel none true =>
    t.has_waiter = true ∧ t.notified = false ∧ ¬listed ∧ ¬popped ∧ t.token = none ∧ t.consumed ≠ none
  | .empties_cancel false => t.Clear listed popped ∧ t.notified = false
  | .inspect false =>
    ¬listed ∧ ¬popped ∧ t.consumed = none ∧ (t.notified = true ∧ t.token ≠ none ∨ t.notified = false ∧ t.token = none)
  | .unlock_cancel _ false | .ended => t.Clear listed popped
  | .completed => ¬listed ∧ ¬popped ∧ t.token = none ∧ t.consumed ≠ none
  | .empties_cancel true | .unlock_cancel (some _) true | .fault => False

@[grind =] theorem Pc.seen_eq (n : ι) (ok : Bool) (word : Word) :
    Pc.seen n ok word = if word = .waiting then .lock n ok else .store n word ok := by cases word <;> rfl

@[grind =] theorem Pc.finish_eq (ok : Bool) : (Pc.finish ok : Pc ι) = if ok then .completed else .ended := by
  cases ok <;> rfl

@[grind =] theorem elim_eq (n : Option ι) (pc : Pc ι) (f : ι → Pc ι) :
    n.elim pc f = match n with | none => pc | some n => f n := by cases n <;> rfl

theorem Pc.holds_of_midway {pc : Pc ι} (h : pc.midway = true) : pc.holds = true := by
  cases pc <;> simp_all [Pc.midway, Pc.holds]

theorem Pc.holds_of_pops {pc : Pc ι} {w : ι} (h : pc.pops = some w) : pc.holds = true := by
  cases pc <;> simp_all [Pc.pops, Pc.holds]

theorem Call.Ok.waiting {t : Call ι} {listed popped : Prop} (h : t.Ok listed popped) (hl : listed ∨ popped) :
    t.notified = false ∧ t.token = none ∧ t.Ok False True := by
  unfold Call.Ok Call.Registered Call.Clear at *
  split at h <;> simp_all <;> grind

theorem Call.Ok.assigned {t : Call ι} {n : ι} (h : t.Ok False True) :
    { t with notified := true, token := some n }.Ok False False := by
  unfold Call.Ok Call.Registered Call.Clear at *
  split at h <;> simp_all

/-! ## The invariant -/

variable [DecidableEq ι]

structure Inv (s : Notify ι) : Prop where
  held : ∀ p, s.holder = some p ↔ (s.calls p).pc.holds = true
  mid : ∀ p, (s.calls p).pc.midway = true → s.word = .waiting
  word : (∀ p, (s.calls p).pc.midway = false) → (s.word = .waiting ↔ s.queue ≠ [])
  drained : ∀ p ok, (s.calls p).pc = .empties_cancel ok → s.queue = []
  permit : s.word = .permit ↔ s.stored ≠ none
  made : s.word = .waiting → s.made = true
  there : ∀ p, (s.calls p).pc.needs = true ∨ (s.calls p).has_waiter = true → s.made = true
  ok : ∀ p, (s.calls p).Ok (p ∈ s.queue) (Popped s p)
  nodup : s.queue.Nodup
  sorted : s.queue.Pairwise fun a b => (s.calls a).ticket < (s.calls b).ticket
  clock : ∀ w ∈ s.queue, (s.calls w).ticket < s.clock
  first : ∀ p w, (s.calls p).pc.pops = some w → w ∉ s.queue ∧ ∀ w' ∈ s.queue, (s.calls w).ticket < (s.calls w').ticket
  custody : Custody s.content fun n => (s.calls n).issued = true

variable {s : Notify ι} {p q : ι}

/-! ## What a step changes -/

section
variable (s : Notify ι) (p q : ι) (t : Call ι) (pc : Pc ι)

@[simp, grind =] theorem set_calls : (s.set p t).calls q = if q = p then t else s.calls q := rfl

@[simp, grind =] theorem set_word : (s.set p t).word = s.word := rfl

@[simp, grind =] theorem set_made : (s.set p t).made = s.made := rfl

@[simp, grind =] theorem set_holder : (s.set p t).holder = s.holder := rfl

@[simp, grind =] theorem set_queue : (s.set p t).queue = s.queue := rfl

@[simp, grind =] theorem set_stored : (s.set p t).stored = s.stored := rfl

@[simp, grind =] theorem set_merged : (s.set p t).merged = s.merged := rfl

@[simp, grind =] theorem set_clock : (s.set p t).clock = s.clock := rfl

@[simp, grind =] theorem goto_eq : s.goto p pc = s.set p { s.calls p with pc } := rfl

end

/-- A step of one party leaves the others where they are. -/
theorem step_other (hq : q ≠ p) : ((s.step p).calls q).pc = (s.calls q).pc := by
  unfold step
  grind -ring -linarith

/-- Without the lock, the queue is left as it is. -/
theorem step_unlocked (hp : (s.calls p).pc.holds = false) :
    (s.step p).queue = s.queue ∧ ((s.step p).calls q).ticket = (s.calls q).ticket := by
  cases hpc : (s.calls p).pc <;> simp only [hpc, Pc.holds, reduceCtorEq] at hp <;> simp only [step, hpc] <;>
    grind -ring -linarith [Call.consume]

/-- From where to where a step of the party takes a notification. -/
def hands (s : Notify ι) (p : ι) : Option (Place ι × Place ι) :=
  match (s.calls p).pc with
  | .store n seen _ =>
    if s.word = seen then some (.carried p, if seen = Word.permit then .merged n else .stored) else none
  | .assign _ w _ => some (.carried p, .assigned w)
  | .try_take => if s.word = .permit then some (.stored, .consumed p) else none
  | .take how => if s.word = .permit then some (.stored, if how = .future false then .assigned p else .consumed p) else none
  | .enqueue_take _ => if s.word = .permit then some (.stored, .assigned p) else none
  | .consume => some (.assigned p, .consumed p)
  | .enabled true | .recheck => if (s.calls p).notified then some (.assigned p, .consumed p) else none
  | .inspect _ => if (s.calls p).notified then some (.assigned p, .carried p) else none
  | _ => none

namespace Inv

variable (inv : Inv s)
include inv

/-- Who has the lock has it alone. -/
theorem others (hp : (s.calls p).pc.holds = true) (hq : q ≠ p) : (s.calls q).pc.holds = false :=
  others_without (fun t : Call ι => t.pc.holds) inv.held hp hq

theorem popped_iff (hp : (s.calls p).pc.holds = true) (w : ι) : Popped s w ↔ (s.calls p).pc.pops = some w := by
  refine ⟨fun ⟨q, hq⟩ => ?_, fun h => ⟨p, h⟩⟩
  have hholds := Pc.holds_of_pops hq
  have := inv.others hp (q := q)
  grind

theorem word_of_holds (hp : (s.calls p).pc.holds = true) (hmid : (s.calls p).pc.midway = false) :
    s.word = .waiting ↔ s.queue ≠ [] := by
  refine inv.word fun q => ?_
  have hholds : (s.calls q).pc.midway = true → (s.calls q).pc.holds = true := Pc.holds_of_midway
  have := inv.others hp (q := q)
  grind

theorem hands_empty {a b : Place ι} (hab : s.hands p = some (a, b)) : a ≠ b ∧ s.content b = none := by
  have hok := inv.ok p
  have hpermit := inv.permit
  have hpopped : ∀ w, (s.calls p).pc.pops = some w → (s.calls w).token = none := fun w hw =>
    ((inv.ok w).waiting (.inr ⟨p, hw⟩)).2.1
  -- what is carried is in that place only
  have hmerged : ∀ n, (s.calls p).pc.carries = some n → n ∉ s.merged := by
    intro n hn hmem
    have := inv.custody.unique (a := .carried p) (b := .merged n) hn (by simp [content, hmem])
    cases this
  cases hpc : (s.calls p).pc <;> simp only [hands, hpc] at hab <;> simp only [Call.Ok, hpc] at hok <;>
    grind -ring -linarith [content, Pc.carries, Pc.pops, Call.Clear, Call.Registered]

/-! ## The queue -/

/-- The queue loses a wait, or the party is put at its end with a new ticket. -/
theorem step_queue : (s.step p).queue.Sublist s.queue ∧ (s.step p).clock = s.clock ∨
    p ∉ s.queue ∧ (s.step p).queue = s.queue ++ [p] ∧ ((s.step p).calls p).ticket = s.clock ∧
      (s.step p).clock = s.clock + 1 := by
  by_cases hpush : ∃ how, (s.calls p).pc = .push how
  · obtain ⟨how, hpc⟩ := hpush
    have hok := inv.ok p
    simp only [Call.Ok, hpc] at hok
    exact .inr ⟨hok.1.1, by simp [step, hpc]⟩
  · have hqueue : ((s.step p).queue = s.queue ∨ (s.step p).queue = s.queue.erase p ∨ (s.step p).queue = s.queue.tail) ∧
        (s.step p).clock = s.clock := by
      unfold step
      grind -ring -linarith
    refine .inl ⟨?_, hqueue.2⟩
    rcases hqueue.1 with heq | heq | heq <;> rw [heq]
    exacts [erase_sublist, tail_sublist _]

theorem step_ticket (hq : q ∈ s.queue) : ((s.step p).calls q).ticket = (s.calls q).ticket := by
  have hok := inv.ok p
  unfold step
  grind -ring -linarith [Call.Ok, Call.Clear, Call.consume]

theorem step_nodup : (s.step p).queue.Nodup := by
  rcases inv.step_queue (p := p) with ⟨hsub, -⟩ | ⟨hout, hqueue, -⟩
  · exact inv.nodup.sublist hsub
  · rw [hqueue]
    exact nodup_append.mpr ⟨inv.nodup, by simp, by grind⟩

theorem step_sorted : (s.step p).queue.Pairwise fun a b => ((s.step p).calls a).ticket < ((s.step p).calls b).ticket := by
  have hold : s.queue.Pairwise fun a b => ((s.step p).calls a).ticket < ((s.step p).calls b).ticket :=
    inv.sorted.imp_of_mem fun ha hb hab => by rwa [inv.step_ticket ha, inv.step_ticket hb]
  rcases inv.step_queue (p := p) with ⟨hsub, -⟩ | ⟨-, hqueue, hticket, -⟩
  · exact hold.sublist hsub
  · rw [hqueue]
    refine pairwise_append.mpr ⟨hold, by simp, fun a ha b hb => ?_⟩
    rw [mem_singleton.mp hb, hticket, inv.step_ticket ha]
    exact inv.clock a ha

theorem step_clock {w : ι} (hw : w ∈ (s.step p).queue) : ((s.step p).calls w).ticket < (s.step p).clock := by
  have hclock := inv.clock w
  have hticket := inv.step_ticket (p := p) (q := w)
  rcases inv.step_queue (p := p) with ⟨hsub, heq⟩ | ⟨-, hqueue, hnew, heq⟩
  · have := hsub.subset hw
    grind
  · grind

/-- Who was popped is with the party, unless the lock is with another. -/
theorem step_popped : ∃ other, (other → (s.calls p).pc.holds = false ∧ s.holder ≠ none) ∧
    (Popped s q ↔ (s.calls p).pc.pops = some q ∨ other) ∧
    (Popped (s.step p) q ↔ ((s.step p).calls p).pc.pops = some q ∨ other) := by
  refine ⟨∃ r ≠ p, (s.calls r).pc.pops = some q, ?_, ?_, ?_⟩
  · rintro ⟨r, hr, hpops⟩
    have hheld := (inv.held r).mpr (Pc.holds_of_pops hpops)
    have := inv.held p
    grind
  · exact ⟨fun ⟨r, hr⟩ => by by_cases r = p <;> grind, by rintro (h | ⟨r, -, h⟩) <;> exact ⟨_, h⟩⟩
  · have hother : ∀ r ≠ p, ((s.step p).calls r).pc = (s.calls r).pc := fun r hr => step_other hr
    refine ⟨fun ⟨r, hr⟩ => by by_cases r = p <;> grind, ?_⟩
    rintro (h | ⟨r, hr, h⟩)
    · exact ⟨p, h⟩
    · exact ⟨r, by rwa [hother r hr]⟩

/-! ## Each part of the invariant -/

variable (h : s.Enabled p)
include h

theorem step_held (q : ι) : (s.step p).holder = some q ↔ ((s.step p).calls q).pc.holds = true := by
  have hp := inv.held p
  have hq := inv.held q
  cases hpc : (s.calls p).pc <;> simp only [Enabled, hpc] at h <;> simp only [step, hpc] <;>
    grind -ring -linarith [Pc.holds, Call.consume]

theorem step_mid (hq : ((s.step p).calls q).pc.midway = true) : (s.step p).word = .waiting := by
  have hheld := inv.held p
  have hq' : (s.calls q).pc.midway = true → s.word = .waiting ∧ s.holder = some q := fun hq =>
    ⟨inv.mid q hq, (inv.held q).mpr (Pc.holds_of_midway hq)⟩
  have hok := inv.ok p
  have hword := inv.word_of_holds (p := p)
  cases hpc : (s.calls p).pc <;> simp only [Enabled, hpc] at h <;> simp only [step, hpc] at hq ⊢ <;>
    grind -ring -linarith [Pc.midway, Pc.holds, Call.consume, Call.Ok]

theorem step_word (hmid : ∀ q, ((s.step p).calls q).pc.midway = false) :
    (s.step p).word = .waiting ↔ (s.step p).queue ≠ [] := by
  have hp := hmid p
  have hok := inv.ok p
  have hwaiting := inv.mid p
  have hdrained := inv.drained p
  have hword : (s.calls p).pc.midway = false → (s.word = .waiting ↔ s.queue ≠ []) := fun hq => inv.word fun q => by
    by_cases hqp : q = p
    · rw [hqp]
      exact hq
    · rw [← step_other hqp]
      exact hmid q
  cases hpc : (s.calls p).pc <;> simp only [Enabled, hpc] at h <;> simp only [step, hpc] at hp ⊢ <;>
    grind -ring -linarith [Pc.midway, Pc.holds, Call.consume, Call.Ok, List.append_eq_nil_iff, List.erase_of_not_mem]

theorem step_drained {ok : Bool} (hq : ((s.step p).calls q).pc = .empties_cancel ok) : (s.step p).queue = [] := by
  have hheld := inv.held p
  have hother : (s.calls q).pc = .empties_cancel ok → s.queue = [] ∧ s.holder = some q := fun hq =>
    ⟨inv.drained q ok hq, (inv.held q).mpr (by rw [hq]; rfl)⟩
  cases hpc : (s.calls p).pc <;> simp only [Enabled, hpc] at h <;> simp only [step, hpc] at hq ⊢ <;>
    grind -ring -linarith [Pc.holds, Call.consume]

theorem step_permit : (s.step p).word = .permit ↔ (s.step p).stored ≠ none := by
  have hpermit := inv.permit
  have hmid := inv.mid p
  cases hpc : (s.calls p).pc <;> simp only [Enabled, hpc] at h <;> simp only [step, hpc] <;>
    grind -ring -linarith [Call.Ok, Pc.midway]

theorem step_made (hw : (s.step p).word = .waiting) : (s.step p).made = true := by
  have hmade := inv.made
  have hthere := inv.there p
  cases hpc : (s.calls p).pc <;> simp only [Enabled, hpc] at h <;> simp only [step, hpc] at hw ⊢ <;>
    grind -ring -linarith [Pc.needs]

theorem step_there (hq : ((s.step p).calls q).pc.needs = true ∨ ((s.step p).calls q).has_waiter = true) :
    (s.step p).made = true := by
  have hmade := inv.made
  have hthere := inv.there q
  cases hpc : (s.calls p).pc <;> simp only [Enabled, hpc] at h <;> simp only [step, hpc] at hq ⊢ <;>
    grind -ring -linarith [Pc.needs, Call.consume]

theorem step_first {w : ι} (hq : ((s.step p).calls q).pc.pops = some w) :
    w ∉ (s.step p).queue ∧ ∀ w' ∈ (s.step p).queue, ((s.step p).calls w).ticket < ((s.step p).calls w').ticket := by
  by_cases hqp : q = p
  · -- the queue is sorted by the tickets, and its head is popped
    subst hqp
    have hfirst := inv.first q w
    have hhead : ∀ queue, s.queue = w :: queue → w ∉ queue ∧ ∀ w' ∈ queue, (s.calls w).ticket < (s.calls w').ticket := by
      intro queue heq
      have hnodup := inv.nodup
      have hsorted := inv.sorted
      rw [heq] at hnodup hsorted
      exact ⟨(nodup_cons.mp hnodup).1, (pairwise_cons.mp hsorted).1⟩
    cases hpc : (s.calls q).pc <;> simp only [Enabled, hpc] at h <;> simp only [step, hpc] at hq ⊢ <;>
      grind -ring -linarith [Pc.pops, Call.consume]
  · -- another party has the lock, and the queue stays as it is
    rw [step_other hqp] at hq
    have hheld := (inv.held q).mpr (Pc.holds_of_pops hq)
    have hp : (s.calls p).pc.holds = false := by
      have := inv.held p
      grind
    obtain ⟨hqueue, hw⟩ := step_unlocked (q := w) hp
    rw [hqueue, hw]
    refine ⟨(inv.first q w hq).1, fun w' hw' => ?_⟩
    rw [(step_unlocked hp).2]
    exact (inv.first q w hq).2 w' hw'

theorem step_ok : ((s.step p).calls p).Ok (p ∈ (s.step p).queue) (Popped (s.step p) p) := by
  obtain ⟨other, hother, hold, hnew⟩ := inv.step_popped (p := p) (q := p)
  have hok := inv.ok p
  have hpermit := inv.permit
  have hthere := inv.there p
  have hout : p ∉ s.queue.erase p := inv.nodup.not_mem_erase
  generalize Popped (s.step p) p = popped' at *
  generalize Popped s p = popped at *
  cases hpc : (s.calls p).pc <;> simp only [Enabled, hpc] at h <;> simp only [Call.Ok, hpc] at hok <;>
    simp only [step, hpc] at hnew ⊢ <;>
    grind -ring -linarith [Pc.pops, Pc.holds, Pc.needs, Call.Ok, Call.Clear, Call.Registered, Call.consume,
      List.erase_of_not_mem]

theorem step_other_ok (hq : q ≠ p) : ((s.step p).calls q).Ok (q ∈ (s.step p).queue) (Popped (s.step p) q) := by
  obtain ⟨other, hother, hold, hnew⟩ := inv.step_popped (p := p) (q := q)
  have hok := inv.ok q
  have hwaiting := fun hl => (hok.waiting hl).2.2
  have hassigned := fun hl n => (hok.waiting hl).2.2.assigned (n := n)
  have hwoken : ∀ woken waker, { s.calls q with woken, waker }.Ok (q ∈ s.queue) (Popped s q) := fun _ _ => hok
  have hnodup := inv.nodup
  have hfirst := inv.first p q
  generalize Popped (s.step p) q = popped' at *
  generalize Popped s q = popped at *
  cases hpc : (s.calls p).pc <;> simp only [Enabled, hpc] at h <;> simp only [step, hpc] at hnew ⊢ <;>
    grind -ring -linarith [Pc.pops, Pc.holds, Call.consume]

theorem step_content (place : Place ι) : (s.step p).content place =
    match s.hands p with
    | none => s.content place
    | some (a, b) => if place = a then none else if place = b then s.content a else s.content place := by
  have hok := inv.ok p
  have hthere := inv.there p
  cases hpc : (s.calls p).pc <;> simp only [Enabled, hpc] at h <;> simp only [Call.Ok, hpc] at hok <;>
    simp only [step, hpc, hands] <;> cases place <;>
    grind -ring -linarith [content, Pc.carries, Pc.pops, Pc.needs, Call.Clear, Call.Registered, Call.consume]

theorem step_custody : Custody (s.step p).content fun n => ((s.step p).calls n).issued = true := by
  have hissued : ∀ n, ((s.step p).calls n).issued = (s.calls n).issued := by
    intro n
    unfold step
    grind -ring -linarith [Call.consume]
  have hcontent := inv.step_content h
  cases hhands : s.hands p with
  | none => exact inv.custody.congr (by simpa only [hhands] using hcontent) fun n => by rw [hissued]
  | some places =>
    obtain ⟨hab, hb⟩ := inv.hands_empty hhands
    exact inv.custody.moves hab hb (by simpa only [hhands] using hcontent) fun n => by rw [hissued]

protected theorem step : Inv (s.step p) where
  held := inv.step_held h
  mid _ := inv.step_mid h
  word := inv.step_word h
  drained _ _ := inv.step_drained h
  permit := inv.step_permit h
  made := inv.step_made h
  there _ := inv.step_there h
  ok q := by
    by_cases hq : q = p
    · rw [hq]
      exact inv.step_ok h
    · exact inv.step_other_ok h hq
  nodup := inv.step_nodup
  sorted := inv.step_sorted
  clock _ := inv.step_clock
  first _ _ := inv.step_first h
  custody := inv.step_custody h

end Inv

end Notify

end Performables
