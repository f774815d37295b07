import Oxidizer.Performables.Stranded
/-!
# The locks keep what they promise

A call changes its party, and nothing of the wait queue; and what the invariant
says of a quiet state are the promises of the locks.
-/

namespace Performables

open List

namespace Lock
variable {ι : Type} {s s' : Lock ι} {p q : ι} {t : Party ι}

/-! ## Quiet states -/

theorem Quiet.not_sent (h : Quiet s) (hpc : (s.parties p).pc = .rest) : ¬Sent s p := by
  rintro (hw | ⟨q, hq⟩)
  · have hp := h p
    rw [hpc] at hp
    exact absurd (hp.symm.trans hw) nofun
  · have hq' := h q
    generalize (s.parties q).pc = pc at hq hq'
    cases pc <;> first | exact hq' | cases hq

theorem Quiet.holder (inv : Inv s) (h : Quiet s) : s.holder = none := by
  cases hh : s.holder with
  | none => rfl
  | some p =>
    have hholds := (inv.queued.holder p).mp hh
    have hp := h p
    generalize (s.parties p).pc = pc at hholds hp
    cases pc <;> first | exact hp.elim | cases hholds

theorem Quiet.not_baton (inv : Inv s) (h : Quiet s) : ¬Baton s p := by
  have hp := h p
  rintro (hb | ⟨-, hw, hout, ht⟩)
  · generalize (s.parties p).pc = pc at hb hp
    cases pc <;> first | exact hp | cases hb
  · have hrest : (s.parties p).pc = .rest := by
      generalize (s.parties p).pc = pc at ht hp
      cases pc <;> first | rfl | exact hp.elim | cases ht
    rcases inv.waked.popped p hrest hw hout with hs | ⟨q, hq⟩
    · exact h.not_sent hrest hs
    · have hq' := h q
      generalize (s.parties q).pc = pc at hq hq'
      cases pc <;> first | exact hq' | cases hq

theorem Inv.sound (inv : Inv s) : Sound s := by
  refine ⟨?_, inv.owned.readers, ?_, ?_⟩
  · intro p q hp hshared hq
    have hwriter := (inv.owned.writer p).mpr ⟨by rw [hp]; rfl, hshared⟩
    cases hs : (s.parties q).shared with
    | false =>
      have hq' := (inv.owned.writer q).mpr ⟨by rw [hq]; rfl, hs⟩
      exact Option.some.inj (hq'.symm.trans hwriter)
    | true =>
      have hin := (inv.owned.reading q).mpr ⟨by rw [hq]; rfl, hs⟩
      rw [inv.owned.apart (by rw [hwriter]; nofun)] at hin
      cases hin
  · intro hquiet hf
    by_contra hne
    obtain ⟨q, hq⟩ := inv.passed hf (.inl hne)
    exact hquiet.not_baton inv hq
  · intro hquiet
    exact ⟨fun h => (inv.queued.used h).resolve_right fun hh => hh (hquiet.holder inv), inv.queued.bit⟩

/-! ## Calls -/

/-- Where a party is between its calls. -/
def Pc.calls : Pc ι → Bool
  | .fresh | .rest | .held => true
  | _ => false

/-- Where a call leaves its party. -/
def Pc.called (pc : Pc ι) : Bool :=
  !pc.holds && !pc.needs && !pc.marked && !pc.empties && pc.wakers.isEmpty && pc.takes.isNone

variable [DecidableEq ι]

variable (inv : Inv s)
include inv

/-- A call changes its party, and the lock if it releases it. -/
theorem Inv.call (hpc : (s.parties p).pc.calls = true) (hcalled : t.pc.called = true)
    (hparties : ∀ q, s'.parties q = if q = p then t else s.parties q)
    (hsame : s'.rw = s.rw ∧ s'.max = s.max ∧ s'.made = s.made ∧ s'.holder = s.holder ∧ s'.queue = s.queue ∧
      s'.word.waiters = s.word.waiters) (hok : t.Ok s (p ∈ s.queue))
    (hregistered : t.pc.registered = true → t.has_waiter = false) (howned : Owned s') (hpassed : Passed s') : Inv s' := by
  simp only [Pc.called, Bool.and_eq_true, Bool.not_eq_true', List.isEmpty_iff, Option.isNone_iff_eq_none] at hcalled
  obtain ⟨hrw, hmax, hmade, hholder, hqueue, hbit⟩ := hsame
  have hold : (s.parties p).pc.holds = false ∧ (s.parties p).pc.wakers = [] ∧ (s.parties p).pc.takes = none := by
    cases h : (s.parties p).pc <;> rw [h] at hpc <;> first | exact ⟨rfl, rfl, rfl⟩ | cases hpc
  have hsent : ∀ q ≠ p, Sent s q → Sent s' q := by
    rintro q hq (h | ⟨r, h⟩)
    · exact .inl (by rw [hparties, if_neg hq]; exact h)
    · exact .inr ⟨r, by grind⟩
  refine ⟨⟨fun q => ?_, hqueue ▸ inv.queued.nodup, fun q => ?_, fun hm => ⟨?_, fun q => ?_⟩, ?_, fun q hm => ?_, ?_,
    fun q he => ?_⟩, howned, ⟨fun q hr hw => ?_, fun q hr hw hl => ?_⟩, hpassed⟩
  · have := inv.queued.holder q
    grind -ring -linarith
  · rw [hparties, hqueue]
    split
    · next hq => exact hq ▸ hok.same hmax hrw
    · exact (inv.queued.ok q).same hmax hrw
  · rw [hqueue]
    exact (inv.queued.made (hmade ▸ hm)).1
  · have := (inv.queued.made (hmade ▸ hm)).2 q
    grind -ring -linarith
  · rw [hqueue, hbit]
    exact inv.queued.bit
  · have := inv.queued.marked q
    grind -ring -linarith
  · rw [hqueue, hbit, hholder]
    exact inv.queued.used
  · have := inv.queued.empty q
    grind -ring -linarith
  · have := inv.waked.registered q
    grind -ring -linarith
  · have hq : q ≠ p := by
      rintro rfl
      rw [hparties, if_pos rfl] at hr hw
      exact absurd ((hregistered (by rw [hr]; rfl)).symm.trans hw) nofun
    rw [hparties, if_neg hq] at hr hw
    refine (inv.waked.popped q hr hw (hqueue ▸ hl)).imp (hsent q hq) ?_
    rintro ⟨r, hr⟩
    exact ⟨r, by grind⟩

/-- A call of a party without a guard. -/
theorem Inv.begins (hpc : (s.parties p).pc = .fresh ∨ (s.parties p).pc = .rest) (hcalled : t.pc.called = true)
    (hok : t.Ok s (p ∈ s.queue)) (howns : t.pc.owns = false)
    (hregistered : t.pc.registered = true → t.has_waiter = false) (hshared : t.shared = true → s.rw = true)
    (hbaton : Baton s p → Baton (s.set p t) p) : Inv (s.set p t) := by
  have hold : (s.parties p).pc.owns = false := by rcases hpc with h | h <;> rw [h] <;> rfl
  have hpush : t.pc ≠ .push := by
    intro h
    rw [h] at hcalled
    cases hcalled
  refine inv.call (by rcases hpc with h | h <;> rw [h] <;> rfl) hcalled (set_parties s p · t) ⟨rfl, rfl, rfl, rfl, rfl, rfl⟩
    hok hregistered ⟨inv.owned.max, fun q => ?_, fun q => ?_, fun q => ?_, inv.owned.nodup, inv.owned.locked,
      inv.owned.count, inv.owned.apart, inv.owned.readers⟩ ?_
  · have := inv.owned.shared q
    grind -ring -linarith
  · have := inv.owned.writer q
    grind -ring -linarith
  · have := inv.owned.reading q
    grind -ring -linarith
  · intro hf hd
    have hdemand : Demand s := hd.imp id fun ⟨q, hq⟩ => ⟨q, by grind -ring -linarith⟩
    obtain ⟨b, hb⟩ := inv.passed hf hdemand
    by_cases hbp : b = p
    · exact ⟨p, hbaton (hbp ▸ hb)⟩
    · refine ⟨b, ?_⟩
      unfold Baton at hb ⊢
      simpa [hbp] using hb

theorem Inv.try_acquire {shared : Bool} (hpc : (s.parties p).pc = .fresh) (hshared : shared = true → s.rw = true) :
    Inv (s.try_acquire p shared) := by
  have hok := inv.queued.ok p
  unfold Lock.try_acquire attempt
  split <;> refine inv.begins (.inl hpc) rfl ?_ rfl nofun hshared ?_
  case isTrue.refine_1 | isFalse.refine_1 =>
    obtain ⟨hlisted, -, -, hbare, -, -⟩ := hok
    constructor <;> grind -ring -linarith [Pc.listable, Pc.lively, Pc.keeps, Pc.bare, Pc.seen, Pc.all, acquirable]
  all_goals
    unfold Baton
    grind -ring -linarith [Pc.wakes, Pc.tries]

theorem Inv.future {shared : Bool} (hpc : (s.parties p).pc = .fresh) (hshared : shared = true → s.rw = true) :
    Inv (s.future p shared) := by
  obtain ⟨hlisted, -, -, hbare, -, -⟩ := inv.queued.ok p
  refine inv.begins (.inl hpc) rfl ?_ rfl (fun _ => hbare (by rw [hpc]; rfl)) hshared ?_
  · constructor <;> grind -ring -linarith [Pc.listable, Pc.lively, Pc.keeps, Pc.bare, Pc.seen, Pc.all]
  · unfold Baton
    grind -ring -linarith [Pc.wakes, Pc.tries]

theorem Inv.poll (hpc : (s.parties p).pc = .rest) : Inv (s.poll p) := by
  have hok := inv.queued.ok p
  have hshared := inv.owned.shared p
  unfold Lock.poll attempt
  dsimp only
  split <;> refine inv.begins (.inr hpc) rfl ?_ rfl nofun hshared ?_
  case isTrue.refine_1 | isFalse.refine_1 =>
    obtain ⟨hlisted, hactive, -, -, -, -⟩ := hok
    constructor <;> grind -ring -linarith [Pc.listable, Pc.lively, Pc.keeps, Pc.bare, Pc.seen, Pc.all, acquirable]
  all_goals
    unfold Baton
    grind -ring -linarith [Pc.wakes, Pc.tries]

theorem Inv.drop (hpc : (s.parties p).pc = .rest) : Inv (s.drop p) := by
  have hok := inv.queued.ok p
  have hshared := inv.owned.shared p
  unfold Lock.drop
  dsimp only
  split <;> refine inv.begins (.inr hpc) rfl ?_ rfl nofun hshared ?_
  case isTrue.refine_1 | isFalse.refine_1 =>
    obtain ⟨hlisted, hactive, -, -, -, -⟩ := hok
    constructor <;> grind -ring -linarith [Pc.listable, Pc.lively, Pc.keeps, Pc.bare, Pc.seen, Pc.all]
  all_goals
    unfold Baton
    grind -ring -linarith [Pc.wakes, Pc.tries]

theorem Inv.release_owned (hpc : (s.parties p).pc = .held) : Owned (s.release p) := by
  obtain ⟨hmax, hshared, hwriter, hreading, hnodup, hlocked, hcount, hapart, hreaders⟩ := inv.owned
  unfold Lock.release
  split
  · refine ⟨hmax, fun q => ?_, fun q => ?_, fun q => ?_, hnodup.erase p, hlocked, ?_, ?_, ?_⟩
    · have := hshared q
      grind -ring -linarith
    · have := hwriter q
      grind -ring -linarith [Pc.owns]
    · have := hreading q
      grind -ring -linarith [Pc.owns]
    · grind [Pc.owns, List.length_erase_of_mem]
    · grind [Pc.owns]
    · grind
  · refine ⟨hmax, fun q => ?_, fun q => ?_, fun q => ?_, hnodup, rfl, hcount, fun h => absurd rfl h, hreaders⟩
    · have := hshared q
      grind -ring -linarith
    · have := hwriter q
      grind -ring -linarith [Pc.owns]
    · have := hreading q
      grind -ring -linarith [Pc.owns]

theorem Inv.release (hpc : (s.parties p).pc = .held) : Inv (s.release p) := by
  have hok := inv.queued.ok p
  have hr := inv.owned.reading p
  have hcount := inv.owned.count
  have hsame : (s.release p).rw = s.rw ∧ (s.release p).max = s.max ∧ (s.release p).made = s.made ∧
      (s.release p).holder = s.holder ∧ (s.release p).queue = s.queue ∧ (s.release p).word.waiters = s.word.waiters := by
    unfold Lock.release
    split <;> exact ⟨rfl, rfl, rfl, rfl, rfl, rfl⟩
  -- the bit is not set where no one is going to be woken
  obtain ⟨pc, hparties, hwakes⟩ :
      ∃ pc, (∀ q, (s.release p).parties q = if q = p then { s.parties p with pc } else s.parties q) ∧
        (pc = .find s.rw ∨ pc = .done ∧ (Free (s.release p) → s.word.waiters = false)) := by
    unfold Lock.release Free
    split <;> refine ⟨_, fun _ => rfl, ?_⟩ <;> grind [Pc.owns]
  refine inv.call (by rw [hpc]; rfl) (by rcases hwakes with rfl | ⟨rfl, -⟩ <;> rfl) hparties hsame ?_
    (by rcases hwakes with rfl | ⟨rfl, -⟩ <;> rintro ⟨⟩) (inv.release_owned hpc) fun hf hd => ?_
  · obtain ⟨hlisted, -⟩ := hok
    rcases hwakes with rfl | ⟨rfl, -⟩ <;> constructor <;>
      grind -ring -linarith [Pc.listable, Pc.lively, Pc.keeps, Pc.bare, Pc.seen, Pc.all]
  · rcases hwakes with rfl | ⟨rfl, hbit⟩
    · exact ⟨p, .inl (by rw [hparties, if_pos rfl]; rfl)⟩
    · have hset : s.word.waiters = true := by
        rcases hd with hd | ⟨q, hq⟩
        · exact inv.queued.bit (hsame.2.2.2.2.1 ▸ hd)
        · exact inv.queued.marked q (by grind [Pc.marked])
      exact absurd ((hbit hf).symm.trans hset) Bool.false_ne_true

omit inv

/-! ## All runs -/

theorem Inv.start (h : (system ι).init s) : Inv s := by
  obtain ⟨hmax, hword, hmade, hholder, hqueue, hwriter, hreading, hparties⟩ := h
  refine ⟨⟨?_, ?_, ?_, ?_, ?_, ?_, ?_, ?_⟩, ⟨hmax, ?_, ?_, ?_, ?_, ?_, ?_, ?_, ?_⟩, ⟨?_, ?_⟩, ?_⟩
  · simp [hholder, hparties, Pc.holds]
  · simp [hqueue]
  · intro p
    rw [hparties, hqueue]
    exact ⟨by rintro ⟨⟩, by rintro ⟨⟩, by rintro ⟨⟩, fun _ => rfl, by rintro _ ⟨⟩, by rintro _ ⟨⟩⟩
  · exact fun _ => ⟨hqueue, fun p => by rw [hparties]; rfl⟩
  · exact fun h => absurd hqueue h
  · intro p hp
    rw [hparties] at hp
    cases hp
  · rw [hword]; rintro ⟨⟩
  · exact fun _ _ => hqueue
  · intro p hp
    rw [hparties] at hp
    cases hp
  · simp [hwriter, hparties, Pc.owns]
  · simp [hreading, hparties, Pc.owns]
  · simp [hreading]
  · rw [hword, hwriter]; rfl
  · rw [hword, hreading]; rfl
  · exact fun _ => hreading
  · rw [hword]; exact Nat.zero_le _
  · intro p hp
    rw [hparties] at hp
    cases hp
  · intro p hp
    rw [hparties] at hp
    cases hp
  · rintro - (hd | ⟨q, hq⟩)
    · exact absurd hqueue hd
    · rw [hparties] at hq
      cases hq

theorem Inv.reachable (h : (system ι).Reachable s) : Inv s := by
  refine h.inv Inv (fun _ => Inv.start) fun s a s' _ inv hs => ?_
  cases a with
  | try_acquire p shared => obtain ⟨hpc, hshared, rfl⟩ := hs; exact inv.try_acquire hpc hshared
  | future p shared => obtain ⟨hpc, hshared, rfl⟩ := hs; exact inv.future hpc hshared
  | poll p => obtain ⟨hpc, rfl⟩ := hs; exact inv.poll hpc
  | drop p => obtain ⟨hpc, rfl⟩ := hs; exact inv.drop hpc
  | release p => obtain ⟨hpc, rfl⟩ := hs; exact inv.release hpc
  | step p => obtain ⟨henabled, rfl⟩ := hs; exact inv.step henabled

/-- Whatever the tasks and threads do, an exclusive guard is the only one, the count of readers stays below the bits,
and when all is quiet no one waits for a free lock and the `WAITERS` bit says whether the queue has a waiter. -/
theorem lock_sound (s : Lock ι) (h : (system ι).Reachable s) : Sound s :=
  (Inv.reachable h).sound

def unused : Lock Nat :=
  ⟨false, 1, ⟨false, false, 0⟩, false, none, [], fun _ => ⟨.fresh, false, false, true, false, false⟩, none, []⟩

instance (s : Lock ι) (p : ι) : Decidable (s.Enabled p) := by
  unfold Enabled
  split <;> infer_instance

/-- A guard from `try_lock`, and a future that was polled and waits in the queue. -/
theorem lock_sound_held : ∃ s, (system Nat).Reachable s ∧ (s.parties 0).pc = .held ∧ (s.parties 1).pc = .rest ∧
    s.queue = [1] ∧ s.word = ⟨true, true, 0⟩ ∧ Sound s := by
  have hsteps : ∀ p (s : Lock Nat), s.Enabled p → (system Nat).step s (.step p) (s.step p) := fun p s hs => ⟨hs, rfl⟩
  have h : (system Nat).Reachable unused := ⟨[], .init ⟨by decide, rfl, rfl, rfl, rfl, rfl, rfl, fun _ => rfl⟩⟩
  have h := h.step (a := Action.try_acquire 0 false) ⟨rfl, nofun, rfl⟩
  have h := h.iterate (hsteps 0) 2 (by decide)
  have h := h.step (a := Action.future 1 false) ⟨rfl, nofun, rfl⟩
  have h := h.step (a := Action.poll 1) ⟨rfl, rfl⟩
  have h := h.iterate (hsteps 1) 7 (by decide)
  exact ⟨_, h, rfl, rfl, rfl, rfl, lock_sound _ h⟩

end Lock

end Performables
