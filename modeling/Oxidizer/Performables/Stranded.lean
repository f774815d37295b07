import Oxidizer.Performables.Lock
/-!
# No acquirer is stranded

The invariant of the locks has four parts: the wait queue with its lock and the
`WAITERS` bit (`Queued`), who holds the lock (`Owned`), the wakes on their way
(`Waked`), and the one that keeps acquirers from being stranded (`Passed`): while
the lock is free and someone waits, some party is going to wake waiters, or (in a
mutex) some party was chosen and has yet to try. There is a lemma for each of them
that a step of a party keeps it.
-/

namespace Performables

namespace Lock
variable {ι : Type}

/-! ## Program counters -/

def Pc.holds : Pc ι → Bool
  | .mark | .load .retry | .cas .retry _ | .push | .dequeue | .clear_acquired | .clear_cancel _ _ | .pop _ _ | .take _ _ _
  | .clear_wake _ => true
  | _ => false

def Pc.owns : Pc ι → Bool
  | .dequeue | .clear_acquired | .cancel true | .remove true | .clear_cancel true _ | .discard true _ | .held => true
  | _ => false

def Pc.needs : Pc ι → Bool
  | .lock | .mark | .load .retry | .cas .retry _ | .push | .dequeue | .clear_acquired => true
  | _ => false

/-- The bit is set. -/
def Pc.marked : Pc ι → Bool
  | .load .retry | .cas .retry _ | .push | .dequeue | .clear_acquired => true
  | _ => false

/-- The waiter may be in the queue. -/
def Pc.listable : Pc ι → Bool
  | .load .poll | .cas .poll _ | .register | .state | .lock | .mark | .load .retry | .cas .retry _ | .push | .dequeue | .rest
  | .cancel _ | .remove _ => true
  | _ => false

/-- A waiter that there is is active. -/
def Pc.lively : Pc ι → Bool
  | .load .poll | .cas .poll _ | .register | .state | .lock | .mark | .load .retry | .cas .retry _ | .push | .rest => true
  | _ => false

def Pc.keeps : Pc ι → Bool
  | .state | .lock | .mark | .load .retry | .cas .retry _ | .push | .dequeue | .cancel _ | .remove _ => true
  | _ => false

def Pc.bare : Pc ι → Bool
  | .fresh | .load .once | .cas .once _ => true
  | _ => false

/-- The waker was registered in this poll, or in the last one. -/
def Pc.registered : Pc ι → Bool
  | .state | .lock | .mark | .load .retry | .cas .retry _ | .push | .rest => true
  | _ => false

def Pc.seen : Pc ι → Option Word
  | .cas _ seen => some seen
  | _ => none

/-- The wakers that are going to be woken. -/
def Pc.wakers : Pc ι → List ι
  | .pop _ wakers | .take _ wakers _ | .clear_wake wakers | .wake wakers => wakers
  | _ => []

def Pc.takes : Pc ι → Option ι
  | .take _ _ w => some w
  | _ => none

/-- The queue is empty. -/
def Pc.empties : Pc ι → Bool
  | .clear_acquired | .clear_cancel _ _ | .clear_wake _ => true
  | _ => false

/-- Whether all waiters are woken; a party that inspects the word may wake one. -/
def Pc.all : Pc ι → Option Bool
  | .find all | .init all | .lock_wake all | .pop all _ | .take all _ _ => some all
  | .inspect => some false
  | _ => none

/-- The party is going to pop a waiter, if there is one. -/
def Pc.wakes : Pc ι → Bool
  | .find _ | .init _ | .lock_wake _ | .pop _ _ | .take true _ _ => true
  | _ => false

/-- A party that was chosen is going to try, or to pass its turn on. -/
def Pc.tries : Pc ι → Bool
  | .rest | .load .poll | .cas .poll _ | .register | .state | .lock | .mark | .load .retry | .cas .retry _ | .cancel false
  | .remove false | .clear_cancel false false | .discard false false | .inspect => true
  | _ => false

/-! ## The invariant -/

/-- What holds of a party, by whether its waiter is in the queue. -/
structure Party.Ok (s : Lock ι) (t : Party ι) (listed : Prop) : Prop where
  listed : listed → t.pc.listable = true ∧ t.has_waiter = true
  active : t.pc.lively = true → t.has_waiter = true → t.active = true
  keeps : t.pc.keeps = true → t.has_waiter = true
  bare : t.pc.bare = true → t.has_waiter = false
  seen : ∀ w, t.pc.seen = some w → s.acquirable t.shared w = true
  all : ∀ a, t.pc.all = some a → a = s.rw

structure Queued (s : Lock ι) : Prop where
  holder : ∀ p, s.holder = some p ↔ (s.parties p).pc.holds = true
  nodup : s.queue.Nodup
  ok : ∀ p, (s.parties p).Ok s (p ∈ s.queue)
  made : s.made = false → s.queue = [] ∧ ∀ p, (s.parties p).pc.needs = false
  bit : s.queue ≠ [] → s.word.waiters = true
  marked : ∀ p, (s.parties p).pc.marked = true → s.word.waiters = true
  used : s.word.waiters = true → s.queue ≠ [] ∨ s.holder ≠ none
  empty : ∀ p, (s.parties p).pc.empties = true → s.queue = []

structure Owned (s : Lock ι) : Prop where
  max : 0 < s.max
  shared : ∀ p, (s.parties p).shared = true → s.rw = true
  writer : ∀ p, s.writer = some p ↔ (s.parties p).pc.owns = true ∧ (s.parties p).shared = false
  reading : ∀ p, p ∈ s.reading ↔ (s.parties p).pc.owns = true ∧ (s.parties p).shared = true
  nodup : s.reading.Nodup
  locked : s.word.locked = s.writer.isSome
  count : s.word.readers = s.reading.length
  apart : s.writer ≠ none → s.reading = []
  readers : s.word.readers ≤ s.max

/-- The waker of the party was woken, or is going to be. -/
def Sent (s : Lock ι) (p : ι) : Prop := (s.parties p).woken = true ∨ ∃ q, p ∈ (s.parties q).pc.wakers

structure Waked (s : Lock ι) : Prop where
  registered : ∀ p, (s.parties p).pc.registered = true → (s.parties p).has_waiter = true →
    (s.parties p).waker = true ∨ Sent s p
  popped : ∀ p, (s.parties p).pc = .rest → (s.parties p).has_waiter = true → p ∉ s.queue →
    Sent s p ∨ ∃ q, (s.parties q).pc.takes = some p

/-- Someone waits, or is about to. -/
def Demand (s : Lock ι) : Prop := s.queue ≠ [] ∨ ∃ q, (s.parties q).pc = .push

/-- A party that keeps waiters from being stranded. -/
def Baton (s : Lock ι) (q : ι) : Prop :=
  (s.parties q).pc.wakes = true ∨
    s.rw = false ∧ (s.parties q).has_waiter = true ∧ q ∉ s.queue ∧ (s.parties q).pc.tries = true

def Passed (s : Lock ι) : Prop := Free s → Demand s → ∃ q, Baton s q

structure Inv (s : Lock ι) : Prop where
  queued : Queued s
  owned : Owned s
  waked : Waked s
  passed : Passed s

variable {s s' : Lock ι} {p q : ι}

@[grind =] theorem owns_cancel (acquired : Bool) : (Pc.cancel acquired : Pc ι).owns = acquired := by cases acquired <;> rfl

@[grind =] theorem owns_remove (acquired : Bool) : (Pc.remove acquired : Pc ι).owns = acquired := by cases acquired <;> rfl

@[grind =] theorem owns_clear_cancel (acquired removed : Bool) :
    (Pc.clear_cancel acquired removed : Pc ι).owns = acquired := by cases acquired <;> rfl

@[grind =] theorem owns_discard (acquired removed : Bool) : (Pc.discard acquired removed : Pc ι).owns = acquired := by
  cases acquired <;> rfl

@[grind =] theorem wakes_take (all : Bool) (wakers : List ι) (w : ι) : (Pc.take all wakers w).wakes = all := by
  cases all <;> rfl

theorem Pc.marked_holds {pc : Pc ι} (h : pc.marked = true) : pc.holds = true ∧ pc.needs = true := by
  rcases pc with _ | ⟨_ | _ | _⟩ | ⟨⟨_ | _ | _⟩, _⟩ <;> first | exact ⟨rfl, rfl⟩ | cases h

theorem Pc.empties_holds {pc : Pc ι} (h : pc.empties = true) : pc.holds = true := by
  cases pc <;> first | rfl | cases h

theorem acquired_owns (t : Party ι) (site : Site) : (acquired t site).owns = true := by
  rcases site with _ | _ | _ <;> simp only [acquired] <;> (try split) <;> rfl

theorem Queued.needs_made (h : Queued s) (hp : (s.parties p).pc.needs = true) : s.made = true := by
  by_contra hm
  rw [(h.made (by simpa using hm)).2 p] at hp
  cases hp

theorem Party.Ok.same {t : Party ι} {listed : Prop} (h : t.Ok s listed) (hmax : s'.max = s.max) (hrw : s'.rw = s.rw) :
    t.Ok s' listed :=
  ⟨h.listed, h.active, h.keeps, h.bare, by unfold acquirable; rw [hmax]; exact h.seen, by rw [hrw]; exact h.all⟩

/-- Who holds the lock keeps it from being free. -/
theorem Owned.not_free (ho : Owned s) (hp : (s.parties p).pc.owns = true) : ¬Free s := by
  rintro ⟨hl, hr⟩
  have hwriter := ho.writer p
  have hreading := ho.reading p
  have hlocked := ho.locked
  have hcount := ho.count
  grind

/-- An exchange succeeds when no one holds the lock exclusively, and no one at all for an exclusive attempt. -/
theorem Inv.exchanges (inv : Inv s) (site : Site) (hpc : (s.parties p).pc = .cas site s.word) :
    s.writer = none ∧ if (s.parties p).shared then s.word.readers < s.max else s.reading = [] := by
  have hseen := (inv.queued.ok p).seen s.word (by rw [hpc]; rfl)
  have hcount := inv.owned.count
  have hreaders := inv.owned.readers
  simp only [acquirable, inv.owned.locked, Bool.and_eq_true, Bool.not_eq_true', Option.isSome_eq_false_iff,
    Option.isNone_iff_eq_none] at hseen
  refine ⟨hseen.1, ?_⟩
  grind

/-- A waiter that is in the queue while another party holds its lock has yet to try, unless the lock is held. -/
theorem Inv.chosen (inv : Inv s) (hp : (s.parties p).pc.holds = true) (hq : q ≠ p) (hin : q ∈ s.queue) (hf : Free s) :
    (s.parties q).pc.tries = true := by
  have hlistable := ((inv.queued.ok q).listed hin).1
  have hp' := inv.queued.holder p
  have hq' := inv.queued.holder q
  have howns : (s.parties q).pc.owns ≠ true := fun h => inv.owned.not_free h hf
  rcases hpc : (s.parties q).pc with _ | ⟨_ | _ | _⟩ | ⟨_ | _ | _, _⟩ <;> rw [hpc] at hlistable hq' howns <;>
    grind -ring -linarith [Pc.listable, Pc.holds, Pc.tries]

/-! ## What a step changes -/

variable [DecidableEq ι]

section
variable (s : Lock ι) (p q : ι) (t : Party ι) (pc : Pc ι)

@[simp, grind =] theorem set_parties : (s.set p t).parties q = if q = p then t else s.parties q := rfl

@[simp, grind =] theorem set_rw : (s.set p t).rw = s.rw := rfl

@[simp, grind =] theorem set_max : (s.set p t).max = s.max := rfl

@[simp, grind =] theorem set_word : (s.set p t).word = s.word := rfl

@[simp, grind =] theorem set_made : (s.set p t).made = s.made := rfl

@[simp, grind =] theorem set_holder : (s.set p t).holder = s.holder := rfl

@[simp, grind =] theorem set_queue : (s.set p t).queue = s.queue := rfl

@[simp, grind =] theorem set_writer : (s.set p t).writer = s.writer := rfl

@[simp, grind =] theorem set_reading : (s.set p t).reading = s.reading := rfl

@[simp, grind =] theorem goto_eq : s.goto p pc = s.set p { s.parties p with pc } := rfl

end

theorem step_same : (s.step p).rw = s.rw ∧ (s.step p).max = s.max := by
  unfold step
  grind -ring -linarith

/-- Of the others, a step changes the wakers and whether they are woken. -/
theorem step_other (hq : q ≠ p) : ((s.step p).parties q).pc = (s.parties q).pc ∧
    ((s.step p).parties q).shared = (s.parties q).shared ∧ ((s.step p).parties q).has_waiter = (s.parties q).has_waiter ∧
    ((s.step p).parties q).active = (s.parties q).active := by
  unfold step
  grind -ring -linarith

theorem step_listed (hq : q ≠ p) (hin : q ∈ (s.step p).queue) : q ∈ s.queue := by
  unfold step at hin
  grind -ring -linarith [List.mem_of_mem_erase]

/-- Only an exchange changes who holds the lock. -/
theorem step_keeps (hne : ∀ site, (s.parties p).pc ≠ .cas site s.word) :
    (s.step p).writer = s.writer ∧ (s.step p).reading = s.reading ∧ (s.step p).word.locked = s.word.locked ∧
      (s.step p).word.readers = s.word.readers ∧ ((s.step p).parties p).shared = (s.parties p).shared ∧
      ((s.step p).parties p).pc.owns = (s.parties p).pc.owns := by
  rcases hpc : (s.parties p).pc with _ | ⟨_ | _ | _⟩ | ⟨_ | _ | _, _⟩ <;> simp only [step, hpc] <;>
    grind -ring -linarith [Pc.owns, attempt, failed]

theorem Sent.step (hs : Sent s q) : Sent (s.step p) q := by
  rcases hs with hw | ⟨r, hr⟩
  · refine .inl ?_
    unfold Lock.step
    grind -ring -linarith
  · by_cases hrp : r = p
    · -- the party has the waker on its way, or wakes it in this step
      subst hrp
      have : q ∈ ((s.step r).parties r).pc.wakers ∨ ((s.step r).parties q).woken = true := by
        rcases hpc : (s.parties r).pc with _ | ⟨_ | _ | _⟩ | ⟨_ | _ | _, _⟩ <;> simp only [Lock.step, hpc] <;>
          grind -ring -linarith [Pc.wakers]
      exact this.elim (fun h => .inr ⟨r, h⟩) .inl
    · exact .inr ⟨r, by rw [(step_other hrp).1]; exact hr⟩

/-- A waker that is gone was taken to be woken. -/
theorem step_waker (hq : q ≠ p) (hw : (s.parties q).waker = true) :
    ((s.step p).parties q).waker = true ∧ (s.parties p).pc.takes ≠ some q ∨ Sent (s.step p) q := by
  have hsent : q ∈ ((s.step p).parties p).pc.wakers → Sent (s.step p) q := fun h => .inr ⟨p, h⟩
  rcases hpc : (s.parties p).pc with _ | ⟨_ | _ | _⟩ | ⟨_ | _ | _, _⟩ <;> simp only [step, hpc] at hsent ⊢ <;>
    grind -ring -linarith [Pc.wakers, Pc.takes]

variable (inv : Inv s)
include inv

/-! ## The queue -/

theorem Inv.step_nodup : (s.step p).queue.Nodup := by
  have hnodup := inv.queued.nodup
  unfold step
  grind -ring -linarith [List.Nodup.erase]

theorem Inv.step_made (hm : (s.step p).made = false) :
    (s.step p).queue = [] ∧ ((s.step p).parties q).pc.needs = false := by
  have hmade := inv.queued.made
  have hq := fun h => (hmade h).2 q
  have hp := fun h => (hmade h).2 p
  rcases hpc : (s.parties p).pc with _ | ⟨_ | _ | _⟩ | ⟨_ | _ | _, _⟩ <;> simp only [step, hpc] at hm ⊢ <;>
    grind -ring -linarith [Pc.needs, attempt, failed, acquired]

theorem Inv.step_bit (hne : (s.step p).queue ≠ []) : (s.step p).word.waiters = true := by
  have hbit := inv.queued.bit
  have hmarked := inv.queued.marked p
  have hempty := inv.queued.empty p
  have hmade := inv.queued.made
  rcases hpc : (s.parties p).pc with _ | ⟨_ | _ | _⟩ | ⟨_ | _ | _, _⟩ <;> simp only [step, hpc] at hne ⊢ <;>
    grind -ring -linarith [Pc.marked, Pc.empties, acquire]

theorem Inv.step_other_ok (hq : q ≠ p) : ((s.step p).parties q).Ok (s.step p) (q ∈ (s.step p).queue) := by
  obtain ⟨hpc, hshared, hwaiter, hactive⟩ := step_other hq (s := s)
  obtain ⟨hrw, hmax⟩ := step_same (s := s) (p := p)
  obtain ⟨hlisted, _, _, _, _, _⟩ := (inv.queued.ok q).same hmax hrw
  constructor <;> simp only [hpc, hshared, hwaiter, hactive]
  · exact fun hl => hlisted (step_listed hq hl)
  all_goals assumption

theorem Inv.step_ok : ((s.step p).parties p).Ok (s.step p) (p ∈ (s.step p).queue) := by
  obtain ⟨hlisted, hactive, hkeeps, hbare, hseen, hall⟩ := inv.queued.ok p
  have hout : p ∉ s.queue.erase p := inv.queued.nodup.not_mem_erase
  rcases hpc : (s.parties p).pc with _ | ⟨_ | _ | _⟩ | ⟨_ | _ | _, _⟩ <;> simp only [step, hpc] <;> constructor <;>
    grind -ring -linarith [Pc.listable, Pc.lively, Pc.keeps, Pc.bare, Pc.seen, Pc.all, attempt, failed, acquired,
      acquirable, retries]

section
variable (h : s.Enabled p)
include h

theorem Inv.step_holder (q : ι) : (s.step p).holder = some q ↔ ((s.step p).parties q).pc.holds = true := by
  have hp := inv.queued.holder p
  have hq := inv.queued.holder q
  rcases hpc : (s.parties p).pc with _ | ⟨_ | _ | _⟩ | ⟨_ | _ | _, _⟩ <;> simp only [Enabled, hpc] at h <;>
    simp only [step, hpc] <;> grind -ring -linarith [Pc.holds, attempt, failed, acquired]

theorem Inv.step_marked (hm : ((s.step p).parties q).pc.marked = true) : (s.step p).word.waiters = true := by
  have hp := inv.queued.marked p
  have hholds := inv.queued.holder p
  have hq : (s.parties q).pc.marked = true → s.word.waiters = true ∧ s.holder = some q ∧ s.made = true := fun hq =>
    ⟨inv.queued.marked q hq, (inv.queued.holder q).mpr (Pc.marked_holds hq).1, inv.queued.needs_made (Pc.marked_holds hq).2⟩
  rcases hpc : (s.parties p).pc with _ | ⟨_ | _ | _⟩ | ⟨_ | _ | _, _⟩ <;> simp only [Enabled, hpc] at h <;>
    simp only [step, hpc] at hm ⊢ <;> grind -ring -linarith [Pc.marked, Pc.holds, attempt, failed, acquired, acquire]

theorem Inv.step_used (hw : (s.step p).word.waiters = true) : (s.step p).queue ≠ [] ∨ (s.step p).holder ≠ none := by
  have hused := inv.queued.used
  have hp := inv.queued.holder p
  rcases hpc : (s.parties p).pc with _ | ⟨_ | _ | _⟩ | ⟨_ | _ | _, _⟩ <;> simp only [Enabled, hpc] at h <;>
    simp only [step, hpc] at hw ⊢ <;> grind -ring -linarith [Pc.holds, acquire, List.append_eq_nil_iff]

theorem Inv.step_empty (he : ((s.step p).parties q).pc.empties = true) : (s.step p).queue = [] := by
  have hp := inv.queued.empty p
  have hholds := inv.queued.holder p
  have hq : (s.parties q).pc.empties = true → s.queue = [] ∧ s.holder = some q := fun hq =>
    ⟨inv.queued.empty q hq, (inv.queued.holder q).mpr (Pc.empties_holds hq)⟩
  rcases hpc : (s.parties p).pc with _ | ⟨_ | _ | _⟩ | ⟨_ | _ | _, _⟩ <;> simp only [Enabled, hpc] at h <;>
    simp only [step, hpc] at he ⊢ <;> grind -ring -linarith [Pc.empties, Pc.holds, attempt, failed, acquired]

theorem Inv.step_queued : Queued (s.step p) where
  holder := inv.step_holder h
  nodup := inv.step_nodup
  ok q := by
    by_cases hq : q = p
    · rw [hq]
      exact inv.step_ok
    · exact inv.step_other_ok hq
  made hm := ⟨(inv.step_made (q := p) hm).1, fun _ => (inv.step_made hm).2⟩
  bit := inv.step_bit
  marked _ := inv.step_marked h
  used := inv.step_used h
  empty _ := inv.step_empty h

end

/-! ## The holders of the lock -/

theorem Inv.step_owned : Owned (s.step p) := by
  obtain ⟨hmax, hshared, hwriter, hreading, hnodup, hlocked, hcount, hapart, hreaders⟩ := inv.owned
  obtain ⟨hrw, hmax'⟩ := step_same (s := s) (p := p)
  by_cases hcas : ∃ site, (s.parties p).pc = .cas site s.word
  · obtain ⟨site, hcas⟩ := hcas
    have howns := acquired_owns (s.parties p) site
    have hfree := inv.exchanges site hcas
    have hout : p ∉ s.reading := by
      rw [hreading, hcas]
      exact nofun
    simp only [step, hcas, if_true]
    refine ⟨hmax, fun q => ?_, fun q => ?_, fun q => ?_, ?_, ?_, ?_, ?_, ?_⟩
    all_goals simp only [goto_eq, set_parties, set_max, set_rw, set_writer, set_reading, set_word, acquire]
    all_goals grind -ring -linarith [Option.isSome_none, Option.isSome_some]
  · obtain ⟨hw, hr, hl, hn, hs, ho⟩ := step_keeps (fun site h => hcas ⟨site, h⟩)
    have howns : ∀ q, ((s.step p).parties q).pc.owns = (s.parties q).pc.owns ∧
        ((s.step p).parties q).shared = (s.parties q).shared := fun q => by
      by_cases hq : q = p
      · rw [hq]
        exact ⟨ho, hs⟩
      · exact ⟨by rw [(step_other hq).1], (step_other hq).2.1⟩
    constructor <;> simp only [hrw, hmax', hw, hr, hl, hn, howns] <;> assumption

/-! ## Wakes -/

theorem Inv.step_registered (hr : ((s.step p).parties q).pc.registered = true)
    (hw : ((s.step p).parties q).has_waiter = true) : ((s.step p).parties q).waker = true ∨ Sent (s.step p) q := by
  have hold := inv.waked.registered q
  by_cases hq : q = p
  · subst hq
    have hsent : Sent s q → Sent (s.step q) q := .step
    generalize Sent (s.step q) q = sent' at *
    rcases hpc : (s.parties q).pc with _ | ⟨_ | _ | _⟩ | ⟨_ | _ | _, _⟩ <;> simp only [step, hpc] at hr hw ⊢ <;>
      grind -ring -linarith [Pc.registered, attempt, failed, acquired]
  · obtain ⟨hpc, -, hwaiter, -⟩ := step_other hq (s := s)
    rw [hpc] at hr
    rw [hwaiter] at hw
    exact (hold hr hw).elim (fun hk => (step_waker hq hk).imp And.left id) fun hs => .inr hs.step

/-! ## Turns -/

/-- An attempt under the queue's lock gives up only when the lock is held. -/
theorem Inv.gives_up (hpc : (s.parties p).pc = .load .retry ∨ ∃ seen, (s.parties p).pc = .cas .retry seen)
    (hpush : ((s.step p).parties p).pc = .push) : ¬Free s := by
  rintro ⟨hl, hr⟩
  have hmax := inv.owned.max
  rcases hpc with hpc | ⟨seen, hpc⟩ <;> simp only [step, hpc] at hpush
  · grind [acquirable]
  · -- the word is `WAITERS`, so that the attempt looked for it without the bit
    have hseen := (inv.queued.ok p).seen seen (by rw [hpc]; rfl)
    have hbit := inv.queued.marked p (by rw [hpc]; rfl)
    have hretries : s.word = seen ∨ s.retries (s.parties p).shared seen s.word = true := by
      obtain ⟨locked, waiters, readers⟩ := seen
      rcases hw : s.word with ⟨l, w, r⟩
      cases hs : (s.parties p).shared <;> cases waiters <;> simp_all [retries, acquirable] <;> omega
    grind [acquired]

variable (h : s.Enabled p)
include h

theorem Inv.step_popped (hr : ((s.step p).parties q).pc = .rest) (hw : ((s.step p).parties q).has_waiter = true)
    (hl : q ∉ (s.step p).queue) : Sent (s.step p) q ∨ ∃ r, ((s.step p).parties r).pc.takes = some q := by
  by_cases hq : q = p
  · -- a party that rests has put its waiter into the queue
    subst hq
    rcases hpc : (s.parties q).pc with _ | ⟨_ | _ | _⟩ | ⟨_ | _ | _, _⟩ <;> simp only [Enabled, hpc] at h <;>
      simp only [step, hpc] at hr hl <;> grind -ring -linarith [attempt, failed, acquired]
  · obtain ⟨hpc, -, hwaiter, -⟩ := step_other hq (s := s)
    rw [hpc] at hr
    rw [hwaiter] at hw
    have hactive := (inv.queued.ok q).active (by rw [hr]; rfl) hw
    have hleft : q ∈ s.queue → ((s.step p).parties p).pc.takes = some q := by
      intro hin
      have hmem := List.mem_erase_of_ne (l := s.queue) hq
      rcases hpc : (s.parties p).pc with _ | ⟨_ | _ | _⟩ | ⟨_ | _ | _, _⟩ <;> simp only [step, hpc] at hl ⊢ <;>
        grind -ring -linarith [Pc.takes]
    by_cases hin : q ∈ s.queue
    · exact .inr ⟨p, hleft hin⟩
    · rcases inv.waked.popped q hr hw hin with hs | ⟨r, ht⟩
      · exact .inl hs.step
      · by_cases hrp : r = p
        · -- the waker is taken, if it is there
          subst hrp
          refine .inl ((inv.waked.registered q (by rw [hr]; rfl) hw).elim (fun hk => ?_) .step)
          exact (step_waker hq hk).resolve_left fun hk => hk.2 ht
        · exact .inr ⟨r, by rw [(step_other hrp).1]; exact ht⟩

/-- Where the lock is free and someone waits after a step, it was and did before. -/
theorem Inv.step_demand (hf : Free (s.step p)) (hd : Demand (s.step p)) :
    Free s ∧ Demand s ∧ (∀ site, (s.parties p).pc ≠ .cas site s.word) ∧
      ((s.step p).queue = [] → s.made = true ∧ s.holder ≠ none ∧ s.holder ≠ some p) := by
  have hcas : ∀ site, (s.parties p).pc ≠ .cas site s.word := by
    intro site hpc
    refine inv.step_owned.not_free (p := p) ?_ hf
    simp [step, hpc, acquired_owns, goto]
  obtain ⟨-, -, hl, hr, -⟩ := step_keeps hcas
  have hfree : Free s := ⟨hl.symm.trans hf.1, hr.symm.trans hf.2⟩
  have hpush : ∀ q, ((s.step p).parties q).pc = .push → q ≠ p ∧ (s.parties q).pc = .push := by
    intro q hq
    have hqp : q ≠ p := by
      rintro rfl
      refine inv.gives_up ?_ hq hfree
      rcases hpc : (s.parties q).pc with _ | ⟨_ | _ | _⟩ | ⟨_ | _ | _, _⟩ <;> simp only [Enabled, hpc] at h <;>
        simp only [step, hpc] at hq ⊢ <;> grind -ring -linarith [attempt, failed, acquired]
    exact ⟨hqp, (step_other hqp).1.symm.trans hq⟩
  refine ⟨hfree, ?_, hcas, fun hempty => ?_⟩
  · rcases hd with hd | ⟨q, hq⟩
    · have : s.queue ≠ [] ∨ (s.parties p).pc = .push := by
        rcases hpc : (s.parties p).pc with _ | ⟨_ | _ | _⟩ | ⟨_ | _ | _, _⟩ <;> simp only [step, hpc] at hd ⊢ <;>
          grind -ring -linarith
      exact this.imp id fun h => ⟨p, h⟩
    · exact .inr ⟨q, (hpush q hq).2⟩
  · obtain ⟨q, hq⟩ := hd.resolve_left fun hne => hne hempty
    obtain ⟨hqp, hq⟩ := hpush q hq
    have hheld := (inv.queued.holder q).mpr (by rw [hq]; rfl)
    refine ⟨inv.queued.needs_made (p := q) (by rw [hq]; rfl), by rw [hheld]; nofun, ?_⟩
    rw [hheld]
    exact fun h => hqp (Option.some.inj h)

theorem Inv.step_baton (hb : Baton s p) (hf : Free s) (hcas : ∀ site, (s.parties p).pc ≠ .cas site s.word)
    (hd : (s.step p).queue = [] → s.made = true ∧ s.holder ≠ none ∧ s.holder ≠ some p) :
    Baton (s.step p) p ∨ ∃ all wakers w l, (s.parties p).pc = .pop all wakers ∧ s.queue = w :: l := by
  have hgives := inv.gives_up (p := p)
  have hp := inv.queued.holder p
  have hmade := inv.queued.made
  have hout : p ∉ s.queue.erase p := inv.queued.nodup.not_mem_erase
  have hlocked := hf.1
  unfold Baton at hb ⊢
  rcases hpc : (s.parties p).pc with _ | ⟨_ | _ | _⟩ | ⟨_ | _ | _, _⟩ <;> simp only [Enabled, hpc] at h <;>
    simp only [step, hpc] at hb hd hgives ⊢ <;>
    grind -ring -linarith [Pc.wakes, Pc.tries, Pc.holds, attempt, failed]

theorem Inv.step_passed : Passed (s.step p) := by
  intro hf hd
  obtain ⟨hfree, hdemand, hcas, hempty⟩ := inv.step_demand h hf hd
  obtain ⟨b, hb⟩ := inv.passed hfree hdemand
  by_cases hbp : b = p
  · subst hbp
    rcases inv.step_baton h hb hfree hcas hempty with hb' | ⟨all, wakers, w, l, hpc, hqueue⟩
    · exact ⟨b, hb'⟩
    · -- one waiter of a mutex is popped: it has yet to try
      have hin : w ∈ s.queue := by rw [hqueue]; exact List.mem_cons_self ..
      have hwb : w ≠ b := by
        rintro rfl
        have hlistable := ((inv.queued.ok w).listed hin).1
        rw [hpc] at hlistable
        cases hlistable
      have htries := inv.chosen (by rw [hpc]; rfl) hwb hin hfree
      have hwaiter := ((inv.queued.ok w).listed hin).2
      have hall := (inv.queued.ok b).all all (by rw [hpc]; rfl)
      have hnodup := inv.queued.nodup
      by_cases hwakes : ((s.step b).parties b).pc.wakes = true
      · exact ⟨b, .inl hwakes⟩
      · refine ⟨w, .inr ?_⟩
        simp only [step, hpc, hqueue] at hwakes ⊢
        grind -ring -linarith [Pc.wakes]
  · obtain ⟨hpc, -, hwaiter, -⟩ := step_other hbp (s := s)
    have hlisted : b ∈ (s.step p).queue → b ∈ s.queue := step_listed hbp
    refine ⟨b, ?_⟩
    unfold Baton at hb ⊢
    rw [hpc, hwaiter, (step_same (s := s)).1]
    exact hb.imp id fun ⟨hrw, hw, hout, ht⟩ => ⟨hrw, hw, fun hin => hout (hlisted hin), ht⟩

theorem Inv.step : Inv (s.step p) :=
  ⟨inv.step_queued h, inv.step_owned, ⟨fun _ => inv.step_registered, fun _ => inv.step_popped h⟩, inv.step_passed h⟩

end Lock

end Performables
