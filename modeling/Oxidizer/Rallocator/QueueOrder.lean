import Oxidizer.Rallocator.Queue
/-!
# The order of the remote free queue

Every step of a producer, of the consumer and of an owner of free memory keeps
the invariant of the queue. So messages are consumed once, in the order of the
swaps, after their links are written, and never while a producer may write to
them.
-/

namespace Rallocator

open Lib List Producer Option

namespace Queue
variable {ι : Type}

/-! ## Every step keeps it -/

section
variable [DecidableEq ι] {s : Queue ι} {q : List Nat}

theorem moved_producers (s : Queue ι) (p : ι) (phase : Producer) (p' : ι) :
    (s.moved p phase).producers p' = if p' = p then phase else s.producers p' := rfl

variable {p : ι}

theorem moved_link (hold : ∀ a f, s.producers p ≠ .link a f) {phase : Producer} (hnew : ∀ a f, phase ≠ .link a f)
    (p' : ι) (a f : Nat) : (s.moved p phase).producers p' = .link a f ↔ s.producers p' = .link a f := by
  rw [moved_producers]
  split
  · rename_i hp
    rw [hp]
    exact ⟨fun h => absurd h (hnew a f), fun h => absurd h (hold a f)⟩
  · rfl

omit [DecidableEq ι] in
theorem Draining.congr {s s' : Queue ι} {c : Consumer} (h : s.Draining q c) (hzero : 0 ∉ q) (hfront : s'.front = s.front)
    (hnext : ∀ a ∈ q, s.next a ≠ 0 → s'.next a = s.next a) (hlink : ∀ p f, s.producers p = .link 0 f → s'.producers p = .link 0 f) :
    s'.Draining q c := by
  cases c with
  | idle =>
    unfold Draining at h ⊢
    rw [hfront]
    refine h.imp_left (And.imp_right (Or.imp_right ?_))
    rintro ⟨p, f, hp⟩
    exact ⟨p, f, hlink p f hp⟩
  | load_back _ | load_next _ _ | store_front _ =>
    unfold Draining at h ⊢
    rwa [hfront]
  | consume current successor bound =>
    obtain ⟨hne, hsucc, hbound, hcur, r, hq⟩ := h
    have hsame : s'.next current = s.next current := by
      refine hnext current (by rw [hq]; exact mem_cons_self) ?_
      rw [hsucc]
      rintro rfl
      exact hzero (by rw [hq]; simp)
    exact ⟨hfront ▸ hne, hsame.trans hsucc, hbound, hcur, r, hq⟩

variable (h : s.InvAt q)
include h

omit [DecidableEq ι] in
/-- Steps that leave the queue alone, with the links in it and whoever is about to write them. -/
theorem InvAt.frame {s' : Queue ι} (hsame : (s'.swapped, s'.consumed, s'.back) = (s.swapped, s.consumed, s.back))
    (hfront : s'.front = s.front ∨ s.front ≠ 0) (hnext : ∀ a ∈ q, s'.next a = s.next a)
    (hlink : ∀ p a f, s'.producers p = .link a f ↔ s.producers p = .link a f)
    (hstore : ∀ p f r, s'.producers p = .store f r → s'.Held q p f r)
    (hswap : ∀ p f r, s'.producers p = .swap f r → s'.Held q p f r ∧ s'.next (last f r) = 0)
    (hdrain : s'.Draining q s'.consumer) : s'.InvAt q := by
  simp only [Prod.mk.injEq] at hsame
  obtain ⟨hswapped, hconsumed, hback⟩ := hsame
  refine ⟨by rw [hswapped, hconsumed, h.history], hconsumed ▸ h.retained, h.nodup, h.nonzero, hback.trans h.back_eq,
    fun hne => ?_, chain_congr h.chain (fun _ _ => hback ▸ id) hnext fun a _ _ p f => hlink p a f, hstore, hswap,
    fun p a f hp => ?_, hdrain⟩
  · rw [hback, hnext _ (back_mem h hne)]
    exact h.tail hne
  · obtain ⟨htail, hat, hunique⟩ := h.link p a f ((hlink p a f).mp hp)
    refine ⟨fun hne => ?_, fun hz => ?_, fun p' f' hp' => hunique p' f' ((hlink p' a f').mp hp')⟩
    · obtain ⟨hmem, hb, hz⟩ := htail hne
      exact ⟨hmem, hback ▸ hb, (hnext a hmem).trans hz⟩
    · obtain ⟨hzero, hhead⟩ := hat hz
      exact ⟨(hfront.resolve_right (absurd hzero)).trans hzero, hhead⟩

variable {first : Nat} {rest : List Nat}

theorem InvAt.enqueue (hidle : s.producers p = .idle)
    (hseg : s.Segment first rest) : (s.moved p (.store first rest)).InvAt q := by
  have hlink : ∀ p' a f, (s.moved p (.store first rest)).producers p' = .link a f ↔ s.producers p' = .link a f :=
    moved_link (by rw [hidle]; exact nofun) nofun
  have hfree : ∀ m ∈ first :: rest, m ≠ 0 ∧ m ∉ q ∧ ∀ p', m ∉ (s.producers p').held := by
    intro m hm
    obtain ⟨hne, hqueued, hheld⟩ := hseg.free m hm
    rw [h.queued_eq] at hqueued
    exact ⟨hne, hqueued, hheld⟩
  -- a segment that another producer holds has none of the new messages
  have hother : ∀ {p' f r}, (s.producers p').held = f :: r → s.Held q p' f r → (s.moved p (.store first rest)).Held q p' f r := by
    intro p' f r hheld hold
    refine hold.congr (fun _ _ _ => rfl) (fun _ _ => id) fun p'' _ m hm => ?_
    rw [moved_producers]
    split
    · exact fun hmem => absurd (hheld ▸ hm) ((hfree m hmem).2.2 p')
    · exact id
  refine h.frame rfl (.inl rfl) (fun _ _ => rfl) hlink (fun p' f r hp' => ?_) (fun p' f r hp' => ?_)
    (h.drain.congr h.nonzero rfl (fun _ _ _ => rfl) fun p' f => (hlink p' 0 f).mpr)
  · rw [moved_producers] at hp'
    split at hp'
    · rename_i hp
      cases hp'
      refine ⟨hseg.nodup, linked_ne_last hseg.nodup hseg.linked, fun hmem => (hfree 0 hmem).1 rfl,
        fun m hm => (hfree m hm).2.1, ?_⟩
      intro p'' hp'' m hm
      rw [moved_producers, if_neg (hp ▸ hp'')]
      exact (hfree m hm).2.2 p''
    · exact hother (congrArg held hp') (h.store p' f r hp')
  · rw [moved_producers] at hp'
    split at hp'
    · cases hp'
    · obtain ⟨hheld, hzero⟩ := h.swap p' f r hp'
      exact ⟨hother (congrArg held hp') hheld, hzero⟩

omit [DecidableEq ι] in
theorem InvAt.reuse {m : Nat} (hfree : s.Free m) (value : Nat) : (s.store_next m value).InvAt q := by
  obtain ⟨-, hqueued, hheld⟩ := hfree
  rw [h.queued_eq] at hqueued
  have hnext : ∀ a ≠ m, (s.store_next m value).next a = s.next a := fun a ha => if_neg ha
  have hq : ∀ a ∈ q, a ≠ m := fun a ha heq => hqueued (heq ▸ ha)
  have hsegment : ∀ {p f r}, (s.producers p).held = f :: r → s.Held q p f r → (s.store_next m value).Held q p f r := by
    intro p f r hp hold
    refine hold.congr (fun a ha _ => hnext a ?_) (fun _ _ => id) fun _ _ _ _ => id
    rintro rfl
    exact hheld p (hp ▸ ha)
  refine h.frame rfl (.inl rfl) (fun a ha => hnext a (hq a ha)) (fun _ _ _ => Iff.rfl)
    (fun p f r hp => hsegment (congrArg held hp) (h.store p f r hp)) (fun p f r hp => ?_)
    (h.drain.congr h.nonzero rfl (fun a ha _ => hnext a (hq a ha)) fun _ _ => id)
  obtain ⟨hold, hzero⟩ := h.swap p f r hp
  refine ⟨hsegment (congrArg held hp) hold, (hnext _ ?_).trans hzero⟩
  rintro rfl
  refine hheld p ?_
  rw [show s.producers p = _ from hp]
  exact getLastD_mem_cons

theorem InvAt.clear (hp : s.producers p = .store first rest) :
    ((s.store_next (last first rest) 0).moved p (.swap first rest)).InvAt q := by
  have hheld := h.store p first rest hp
  have hlast : last first rest ∈ first :: rest := getLastD_mem_cons
  have hnext : ∀ a, a ≠ last first rest → (s.store_next (last first rest) 0).next a = s.next a := fun a ha => if_neg ha
  have hq : ∀ a ∈ q, a ≠ last first rest := fun a ha heq => hheld.apart _ hlast (heq ▸ ha)
  have hlink : ∀ p' a f, ((s.store_next (last first rest) 0).moved p (.swap first rest)).producers p' = .link a f ↔
      s.producers p' = .link a f := moved_link (by rw [show (s.store_next _ 0).producers p = _ from hp]; exact nofun) nofun
  have hkeep : ∀ p' m, m ∈ (((s.store_next (last first rest) 0).moved p (.swap first rest)).producers p').held →
      m ∈ (s.producers p').held := by
    intro p' m
    rw [moved_producers]
    split
    · rename_i heq
      rw [heq, hp]
      exact id
    · exact id
  have hsegment : ∀ {p' f r}, p' ≠ p → (s.producers p').held = f :: r → s.Held q p' f r →
      ((s.store_next (last first rest) 0).moved p (.swap first rest)).Held q p' f r := by
    intro p' f r hne hp' hold
    refine hold.congr (fun a ha _ => hnext a ?_) (fun _ _ => id) fun p'' _ m _ => hkeep p'' m
    rintro rfl
    exact hheld.others p' hne _ hlast (hp' ▸ ha)
  refine h.frame rfl (.inl rfl) (fun a ha => hnext a (hq a ha)) hlink (fun p' f r hp' => ?_) (fun p' f r hp' => ?_)
    (h.drain.congr h.nonzero rfl (fun a ha _ => hnext a (hq a ha)) fun p' f => (hlink p' 0 f).mpr)
  · rw [moved_producers] at hp'
    split at hp'
    · cases hp'
    · exact hsegment ‹_› (congrArg held hp') (h.store p' f r hp')
  · rw [moved_producers] at hp'
    split at hp'
    · rename_i heq
      cases hp'
      rw [heq]
      exact ⟨hheld.congr (fun a _ ha => hnext a ha) (fun _ _ => id) fun p'' _ m _ => hkeep p'' m, if_pos rfl⟩
    · obtain ⟨hold, hzero⟩ := h.swap p' f r hp'
      refine ⟨hsegment ‹_› (congrArg held hp') hold, (hnext _ ?_).trans hzero⟩
      intro heq
      refine hheld.others p' ‹_› _ hlast ?_
      rw [show s.producers p' = _ from hp', ← heq]
      exact getLastD_mem_cons

omit [DecidableEq ι] in
theorem InvAt.front_eq_zero (hq : q = []) : s.front = 0 := by
  have hdrain := h.drain
  rw [hq] at hdrain
  cases hc : s.consumer with
  | idle =>
    rw [hc] at hdrain
    rcases hdrain with ⟨hzero, -⟩ | hhead
    · exact hzero
    · cases hhead
  | load_back _ | load_next _ _ | store_front _ | consume _ _ _ =>
    rw [hc] at hdrain
    unfold Draining at hdrain
    simp at hdrain

omit [DecidableEq ι] in
theorem InvAt.no_link_at_back (p : ι) (first : Nat) : s.producers p ≠ .link s.back first := by
  intro hp
  have hlink := h.link p s.back first hp
  by_cases hback : s.back = 0
  · have hhead := (hlink.at_front hback).2
    rw [h.back_eq_zero hback] at hhead
    cases hhead
  · exact (hlink.at_tail hback).2.1 rfl

theorem InvAt.append (hp : s.producers p = .swap first rest) :
    (({ s with back := last first rest, swapped := s.swapped ++ first :: rest } : Queue ι).moved p
      (.link s.back first)).InvAt (q ++ first :: rest) := by
  obtain ⟨hheld, hzero⟩ := h.swap p first rest hp
  have hlast : last first rest ∈ first :: rest := getLastD_mem_cons
  have hq : ∀ a ∈ q, a ∉ first :: rest := fun a ha hmem => hheld.apart a hmem ha
  let s' := ({ s with back := last first rest, swapped := s.swapped ++ first :: rest } : Queue ι).moved p (.link s.back first)
  have hlink : ∀ p' a f, a ≠ s.back → (s'.producers p' = .link a f ↔ s.producers p' = .link a f) := by
    intro p' a f ha
    simp only [s', moved_producers]
    split
    · rename_i heq
      rw [heq, hp]
      exact ⟨fun h => absurd (link.inj h).1.symm ha, nofun⟩
    · rfl
  have hback : ∀ p' f, s'.producers p' = .link s.back f → p' = p ∧ f = first := by
    intro p' f
    simp only [s', moved_producers]
    split
    · exact fun h => ⟨‹_›, (link.inj h).2.symm⟩
    · exact fun h' => absurd h' (h.no_link_at_back p' f)
  have hsegment : ∀ {p' f r}, p' ≠ p → (s.producers p').held = f :: r → s.Held q p' f r →
      s'.Held (q ++ first :: rest) p' f r := by
    intro p' f r hne hp' hold
    refine hold.congr (fun _ _ _ => rfl) (fun m hm hmem => ?_) fun p'' _ m _ => ?_
    · rcases mem_append.mp hmem with hmem | hmem
      · exact hmem
      · exact absurd (hp' ▸ hm) (hheld.others p' hne m hmem)
    · simp only [s', moved_producers]
      split
      · exact fun hmem => absurd hmem not_mem_nil
      · exact id
  refine ⟨?_, by simp, ?_, ?_, ?_, fun _ => hzero, ?_, fun p' f r hp' => ?_, fun p' f r hp' => ?_, fun p' previous f hp' => ?_, ?_⟩
  · change s.swapped ++ first :: rest = s.consumed ++ (q ++ first :: rest)
    rw [h.history, append_assoc]
  · exact nodup_append.mpr ⟨h.nodup, hheld.nodup, fun a ha b hb heq => hq a ha (heq ▸ hb)⟩
  · rw [mem_append, not_or]
    exact ⟨h.nonzero, hheld.nonzero⟩
  · change last first rest = (q ++ first :: rest).getLastD 0
    rw [getLastD_eq_getLast?, getLast?_append, getLast?_cons, some_or, getD_some]
    exact getLastD_eq_getLast?
  · refine isChain_append.mpr ⟨?_, ?_, fun x hx y hy => ?_⟩
    · exact chain_congr h.chain (fun a ha _ heq => hq a ha (heq ▸ hlast)) (fun _ _ => rfl) fun a _ hne p' f => hlink p' a f hne
    · -- the links inside the segment are written, and nobody writes them again
      refine hheld.linked.imp_of_mem_tail_imp fun a b ha _ hab => ⟨hab.1, .inl ⟨hab.2, fun p' f hp' => ?_⟩⟩
      have hne : a ≠ s.back := by
        rintro rfl
        by_cases hnil : q = []
        · have hzero : s.back = 0 := by
            rw [h.back_eq, hnil]
            rfl
          exact hheld.nonzero (hzero ▸ ha)
        · exact hheld.apart _ ha (back_mem h hnil)
      have hold := h.link p' a f ((hlink p' a f hne).mp hp')
      exact hheld.apart a ha (hold.at_tail fun hzero => hheld.nonzero (hzero ▸ ha)).1
    · have hxq : x ∈ q := mem_of_getLast? hx
      have hxb : x = s.back := by
        rw [h.back_eq, getLastD_eq_getLast?, mem_def.mp hx, getD_some]
      cases mem_def.mp hy
      refine ⟨fun heq => hq x hxq (heq ▸ hlast), .inr ⟨?_, p, ?_⟩⟩
      · rw [hxb]
        exact h.tail (ne_nil_of_mem hxq)
      · rw [hxb]
        exact if_pos rfl
  · rw [moved_producers] at hp'
    split at hp'
    · cases hp'
    · exact hsegment ‹_› (congrArg held hp') (h.store p' f r hp')
  · rw [moved_producers] at hp'
    split at hp'
    · cases hp'
    · obtain ⟨hold, hzero⟩ := h.swap p' f r hp'
      exact ⟨hsegment ‹_› (congrArg held hp') hold, hzero⟩
  · by_cases hprev : previous = s.back
    · subst hprev
      obtain ⟨rfl, rfl⟩ := hback p' f hp'
      refine ⟨fun hne => ?_, fun hzero => ?_, fun p'' f' hp'' => (hback p'' f' hp'').1⟩
      · have hnil : q ≠ [] := fun hnil => hne (by rw [h.back_eq, hnil]; rfl)
        have hmem := back_mem h hnil
        exact ⟨mem_append_left _ hmem, fun heq => hq _ hmem (heq ▸ hlast), h.tail hnil⟩
      · have hnil := h.back_eq_zero hzero
        rw [hnil]
        exact ⟨h.front_eq_zero hnil, rfl⟩
    · obtain ⟨htail, hfront, hunique⟩ := h.link p' previous f ((hlink p' previous f hprev).mp hp')
      refine ⟨fun hne => ?_, fun hzero => ?_, fun p'' f' hp'' => hunique p'' f' ((hlink p'' previous f' hprev).mp hp'')⟩
      · obtain ⟨hmem, -, hnext⟩ := htail hne
        exact ⟨mem_append_left _ hmem, fun heq => hq _ hmem (heq ▸ hlast), hnext⟩
      · obtain ⟨hfz, hhead⟩ := hfront hzero
        exact ⟨hfz, by rw [head?_append, hhead, some_or]⟩
  · have hdrain := h.drain
    cases hc : s.consumer with
    | idle =>
      rw [hc] at hdrain
      rcases hdrain with ⟨hfz, hnil | ⟨p', f, hp'⟩⟩ | hhead
      · have hzero : s.back = 0 := by
          rw [h.back_eq, hnil]
          rfl
        refine .inl ⟨hfz, .inr ⟨p, first, ?_⟩⟩
        rw [← hzero]
        exact if_pos rfl
      · refine .inl ⟨hfz, .inr ⟨p', f, (hlink p' 0 f fun hzero => ?_).mpr hp'⟩⟩
        rw [hzero] at hp'
        exact h.no_link_at_back p' f hp'
      · exact .inr (by rw [head?_append, hhead]; rfl)
    | load_back current | store_front current =>
      rw [hc] at hdrain
      exact ⟨hdrain.1, by rw [head?_append, hdrain.2, some_or]⟩
    | load_next current bound =>
      rw [hc] at hdrain
      exact ⟨hdrain.1, by rw [head?_append, hdrain.2.1, some_or], mem_append_left _ hdrain.2.2⟩
    | consume current successor bound =>
      rw [hc] at hdrain
      obtain ⟨hne, hsucc, hbound, hcur, r, rfl⟩ := hdrain
      exact ⟨hne, hsucc, mem_append_left _ hbound, hcur, r ++ first :: rest, rfl⟩

theorem InvAt.linked {r : Queue ι} {previous : Nat} (hp : s.producers p = .link previous first)
    (hr : ∀ p', r.producers p' = if p' = p then .idle else s.producers p') :
    (∀ p' a f, r.producers p' = .link a f ↔ s.producers p' = .link a f ∧ a ≠ previous) ∧
      ∀ p', r.producers p' = s.producers p' ∨ r.producers p' = .idle := by
  refine ⟨fun p' a f => ?_, fun p' => ?_⟩ <;> rw [hr] <;> split
  · next heq =>
    rw [heq, hp]
    exact ⟨nofun, fun h => absurd (link.inj h.1).1.symm h.2⟩
  · next hother =>
    refine ⟨fun hlink => ⟨hlink, ?_⟩, And.left⟩
    rintro rfl
    exact hother ((h.link p a first hp).unique p' f hlink)
  · exact .inr rfl
  · exact .inl rfl

theorem InvAt.join {previous : Nat} (hp : s.producers p = .link previous first)
    (hne : previous ≠ 0) : ((s.store_next previous first).moved p .idle).InvAt q := by
  have hlinking := h.link p previous first hp
  obtain ⟨hmem, hback, hzero⟩ := hlinking.at_tail hne
  let s' := (s.store_next previous first).moved p .idle
  have hnext : ∀ a ≠ previous, s'.next a = s.next a := fun a ha => if_neg ha
  obtain ⟨hlink, hphase⟩ := h.linked hp (r := s') (moved_producers _ p .idle)
  have hkeep : ∀ p' m, m ∈ (s'.producers p').held → m ∈ (s.producers p').held := by
    intro p' m hm
    rcases hphase p' with hsame | hidle
    · rwa [hsame] at hm
    · rw [hidle] at hm
      cases hm
  have hsegment : ∀ {p' f r}, (s.producers p').held = f :: r → s.Held q p' f r → s'.Held q p' f r := by
    intro p' f r _ hold
    refine hold.congr (fun a ha _ => hnext a ?_) (fun _ _ => id) fun p'' _ m _ => hkeep p'' m
    rintro rfl
    exact hold.apart _ ha hmem
  refine ⟨h.history, h.retained, h.nodup, h.nonzero, h.back_eq, fun hnil => ?_, ?_, fun p' f r hp' => ?_, fun p' f r hp' => ?_,
    fun p' a f hp' => ?_, ?_⟩
  · exact (hnext _ (Ne.symm hback)).trans (h.tail hnil)
  · refine h.chain.imp fun a b hab => ⟨hab.1, ?_⟩
    by_cases ha : a = previous
    · -- only this producer could write the link, and it has
      subst ha
      left
      refine ⟨?_, fun p' f hp' => ((hlink p' a f).mp hp').2 rfl⟩
      rcases hab.2 with ⟨-, hnone⟩ | ⟨-, p', hp'⟩
      · exact absurd hp (hnone p first)
      · cases hlinking.unique p' b hp'
        cases link.inj (hp.symm.trans hp') |>.2
        exact if_pos rfl
    · rw [hnext a ha]
      refine hab.2.imp (And.imp_right fun hnone p' f hp' => hnone p' f ((hlink p' a f).mp hp').1) (And.imp_right ?_)
      rintro ⟨p', hp'⟩
      exact ⟨p', (hlink p' a b).mpr ⟨hp', ha⟩⟩
  · rcases hphase p' with hsame | hidle
    · exact hsegment (congrArg held (hsame.symm.trans hp')) (h.store p' f r (hsame.symm.trans hp'))
    · cases hidle.symm.trans hp'
  · rcases hphase p' with hsame | hidle
    · obtain ⟨hold, hz⟩ := h.swap p' f r (hsame.symm.trans hp')
      refine ⟨hsegment (congrArg held (hsame.symm.trans hp')) hold, (hnext _ ?_).trans hz⟩
      rintro rfl
      exact hold.apart _ getLastD_mem_cons hmem
    · cases hidle.symm.trans hp'
  · obtain ⟨hold, ha⟩ := (hlink p' a f).mp hp'
    obtain ⟨htail, hfront, hunique⟩ := h.link p' a f hold
    refine ⟨fun hne => ?_, hfront, fun p'' f' hp'' => hunique p'' f' ((hlink p'' a f').mp hp'').1⟩
    obtain ⟨hmem', hback', hz⟩ := htail hne
    exact ⟨hmem', hback', (hnext a ha).trans hz⟩
  · refine h.drain.congr h.nonzero rfl (fun a _ hz => hnext a ?_) fun p' f hp' => (hlink p' 0 f).mpr ⟨hp', Ne.symm hne⟩
    rintro rfl
    exact hz hzero

theorem InvAt.set_front (hp : s.producers p = .link 0 first) :
    (({ s with front := first } : Queue ι).moved p .idle).InvAt q := by
  have hlinking := h.link p 0 first hp
  obtain ⟨hfz, hhead⟩ := hlinking.at_front rfl
  let s' := ({ s with front := first } : Queue ι).moved p .idle
  obtain ⟨hlink, hphase⟩ := h.linked hp (r := s') (moved_producers _ p .idle)
  have hsegment : ∀ {p' f r}, s.Held q p' f r → s'.Held q p' f r := by
    intro p' f r hold
    refine hold.congr (fun _ _ _ => rfl) (fun _ _ => id) fun p'' _ m _ hmem => ?_
    rcases hphase p'' with hsame | hidle
    · rwa [hsame] at hmem
    · rw [hidle] at hmem
      cases hmem
  refine ⟨h.history, h.retained, h.nodup, h.nonzero, h.back_eq, h.tail, ?_, fun p' f r hp' => ?_, fun p' f r hp' => ?_,
    fun p' a f hp' => ?_, ?_⟩
  · refine chain_congr h.chain (fun _ _ hne => hne) (fun _ _ => rfl) fun a ha _ p' f => (hlink p' a f).trans ?_
    exact and_iff_left fun hz => h.nonzero (hz ▸ ha)
  · rcases hphase p' with hsame | hidle
    · exact hsegment (h.store p' f r (hsame.symm.trans hp'))
    · cases hidle.symm.trans hp'
  · rcases hphase p' with hsame | hidle
    · obtain ⟨hold, hz⟩ := h.swap p' f r (hsame.symm.trans hp')
      exact ⟨hsegment hold, hz⟩
    · cases hidle.symm.trans hp'
  · obtain ⟨hold, ha⟩ := (hlink p' a f).mp hp'
    obtain ⟨htail, -, hunique⟩ := h.link p' a f hold
    exact ⟨htail, fun hz => absurd hz ha, fun p'' f' hp'' => hunique p'' f' ((hlink p'' a f').mp hp'').1⟩
  · -- while the front is not set the consumer does not start
    have hdrain := h.drain
    cases hc : s.consumer with
    | idle => exact .inr hhead
    | load_back _ | load_next _ _ | consume _ _ _ | store_front _ =>
      rw [hc] at hdrain
      exact absurd hfz hdrain.1

omit [DecidableEq ι] in
/-- Steps of the consumer that take no message. -/
theorem InvAt.consumer_moves {front : Nat} {c : Consumer} (hfront : front = s.front ∨ s.front ≠ 0)
    (hc : ({ s with front } : Queue ι).Draining q c) : ({ s with front, consumer := c } : Queue ι).InvAt q := by
  have hheld : ∀ {p f r}, s.Held q p f r → ({ s with front, consumer := c } : Queue ι).Held q p f r := fun hold =>
    hold.congr (fun _ _ _ => rfl) (fun _ _ => id) fun _ _ _ _ => id
  exact h.frame rfl hfront (fun _ _ => rfl) (fun _ _ _ => Iff.rfl) (fun p f r hp => hheld (h.store p f r hp))
    (fun p f r hp => (h.swap p f r hp).imp_left hheld) hc

variable {current : Nat}

omit [DecidableEq ι] in
theorem InvAt.successor {bound : Nat} (hhead : q.head? = some current) (hbound : bound ∈ q)
    (hne : current ≠ bound) (hnext : s.next current ≠ 0) : ∃ r, q = current :: s.next current :: r := by
  obtain ⟨q, rfl⟩ := head?_eq_some_iff.mp hhead
  have hchain := h.chain
  cases q with
  | nil => exact absurd (mem_singleton.mp hbound).symm hne
  | cons b r =>
    obtain ⟨⟨-, hjoined⟩, -⟩ := isChain_cons_cons.mp hchain
    rcases hjoined with ⟨heq, -⟩ | ⟨hzero, -⟩
    · exact ⟨r, by rw [heq]⟩
    · exact absurd hzero hnext

omit [DecidableEq ι] in
theorem InvAt.consume {successor bound : Nat} (hc : s.consumer = .consume current successor bound)
    (keep_going : Bool) : (s.consumer_step keep_going).InvAt q.tail := by
  have hdrain := h.drain
  rw [hc] at hdrain
  obtain ⟨hfront, hsucc, hbound, hcur, r, rfl⟩ := hdrain
  have hsub : ∀ m ∈ successor :: r, m ∈ current :: successor :: r := fun m hm => mem_cons_of_mem _ hm
  have hnonzero : successor ≠ 0 := fun hz => h.nonzero (by rw [hz]; simp)
  have hback : s.back = (successor :: r).getLastD 0 := by
    rw [h.back_eq, getLastD_cons, getLastD_cons, getLastD_cons]
  unfold consumer_step
  rw [hc]
  refine ⟨?_, nofun, (nodup_cons.mp h.nodup).2, fun hz => h.nonzero (hsub 0 hz), hback, fun _ => h.tail (cons_ne_nil _ _),
    h.chain.tail, fun p f rest hp => ?_, fun p f rest hp => ?_, fun p a f hp => ?_, ?_⟩
  · change s.swapped = s.consumed ++ [current] ++ successor :: r
    rw [h.history, append_assoc]
    rfl
  · exact (h.store p f rest hp).congr (fun _ _ _ => rfl) (fun m _ hm => hsub m hm) fun _ _ _ _ => id
  · obtain ⟨hold, hz⟩ := h.swap p f rest hp
    exact ⟨hold.congr (fun _ _ _ => rfl) (fun m _ hm => hsub m hm) fun _ _ _ _ => id, hz⟩
  · obtain ⟨htail, hat, hunique⟩ := h.link p a f hp
    refine ⟨fun hne => ?_, fun hz => absurd (hat hz).1 hfront, hunique⟩
    obtain ⟨hmem, hb, hz⟩ := htail hne
    refine ⟨(mem_cons.mp hmem).resolve_left ?_, hb, hz⟩
    -- the link of the message that is taken is written
    rintro rfl
    exact hnonzero (hsucc.symm.trans hz)
  · have hin : bound ∈ successor :: r := (mem_cons.mp hbound).resolve_left hcur
    cases keep_going with
    | true => exact ⟨hfront, rfl, hin⟩
    | false => exact ⟨hfront, rfl⟩

omit [DecidableEq ι] in
theorem InvAt.finish (hc : s.consumer = .store_front current) :
    ({ s with front := current, consumer := .idle } : Queue ι).InvAt q := by
  have hdrain := h.drain
  rw [hc] at hdrain
  exact h.consumer_moves (.inr hdrain.1) (.inr hdrain.2)

omit [DecidableEq ι] in
theorem InvAt.consumer_step (keep_going : Bool) : ∃ q', (s.consumer_step keep_going).InvAt q' := by
  have hdrain := h.drain
  cases hc : s.consumer with
  | idle =>
    rw [hc] at hdrain
    unfold Queue.consumer_step
    rw [hc]
    dsimp only
    split
    · exact ⟨q, h⟩
    · rename_i hfront
      rcases hdrain with ⟨hzero, -⟩ | hhead
      · exact absurd hzero hfront
      · exact ⟨q, h.consumer_moves (.inl rfl) ⟨hfront, hhead⟩⟩
  | load_back current =>
    rw [hc] at hdrain
    unfold Queue.consumer_step
    rw [hc]
    refine ⟨q, h.consumer_moves (.inl rfl) ⟨hdrain.1, hdrain.2, back_mem h ?_⟩⟩
    rintro rfl
    cases hdrain.2
  | load_next current bound =>
    rw [hc] at hdrain
    obtain ⟨hfront, hhead, hbound⟩ := hdrain
    unfold Queue.consumer_step
    rw [hc]
    dsimp only
    split
    · rename_i hne
      split
      · exact ⟨q, h.consumer_moves (.inl rfl) ⟨hfront, hhead⟩⟩
      · rename_i hnext
        obtain ⟨r, hq⟩ := h.successor hhead hbound hne hnext
        exact ⟨q, h.consumer_moves (.inl rfl) ⟨hfront, rfl, hbound, Ne.symm hne, r, hq⟩⟩
    · exact ⟨q, h.consumer_moves (.inl rfl) ⟨hfront, hhead⟩⟩
  | consume current successor bound => exact ⟨q.tail, h.consume hc keep_going⟩
  | store_front current =>
    unfold Queue.consumer_step
    rw [hc]
    exact ⟨q, h.finish hc⟩

theorem InvAt.producer_step (p : ι) : ∃ q', (s.producer_step p).InvAt q' := by
  unfold Queue.producer_step
  cases hp : s.producers p with
  | idle => exact ⟨q, h⟩
  | store first rest => exact ⟨q, h.clear hp⟩
  | swap first rest => exact ⟨q ++ first :: rest, h.append hp⟩
  | link previous first =>
    dsimp only
    split
    · exact ⟨q, h.join hp ‹_›⟩
    · rename_i hzero
      rw [not_not.mp hzero] at hp
      exact ⟨q, h.set_front hp⟩

omit h

theorem inv_of_reachable (h : (system ι).Reachable s) : ∃ q, s.InvAt q := by
  refine Lts.Reachable.inv (fun s => ∃ q, s.InvAt q) ?_ ?_ h
  · rintro s ⟨hback, hfront, hidle, hc, hswapped, hconsumed⟩
    refine ⟨[], ?_, fun _ => hconsumed, .nil, not_mem_nil, hback, fun hne => absurd rfl hne, .nil, ?_, ?_, ?_, ?_⟩
    · rw [hswapped, hconsumed]
      rfl
    · intro p f r hp
      cases (hidle p).symm.trans hp
    · intro p f r hp
      cases (hidle p).symm.trans hp
    · intro p a f hp
      cases (hidle p).symm.trans hp
    · rw [hc]
      exact .inl ⟨hfront, .inl rfl⟩
  · rintro s a s' - ⟨q, hinv⟩ hstep
    cases a with
    | enqueue p first rest =>
      obtain ⟨hidle, hseg, rfl⟩ := hstep
      exact ⟨q, hinv.enqueue hidle hseg⟩
    | producer p =>
      cases hstep
      exact hinv.producer_step p
    | consumer keep_going =>
      cases hstep
      exact hinv.consumer_step keep_going
    | reuse m value =>
      obtain ⟨hfree, rfl⟩ := hstep
      exact ⟨q, hinv.reuse hfree value⟩

/-! ## What follows -/

omit [DecidableEq ι] in
theorem InvAt.finish_drain {r : List Nat} (h : s.InvAt (current :: r)) (hidle : ∀ p, s.producers p = .idle)
    (hc : s.consumer = .load_next current s.back) :
    ∃ fuel s', s.finish_drain fuel = some s' ∧ s'.consumer = .idle ∧ s'.swapped = s.swapped ∧
      s'.consumed = s.consumed ++ (current :: r).dropLast := by
  have hdrain := h.drain
  rw [hc] at hdrain
  obtain ⟨hfront, -, hbound⟩ := hdrain
  induction r generalizing s current with
  | nil =>
    have hback : s.back = current := h.back_eq
    have h1 : s.consumer_step true = { s with consumer := .store_front current } := by
      unfold Queue.consumer_step
      rw [hc]
      exact if_neg (not_not.mpr hback.symm)
    refine ⟨3, { s with front := current, consumer := .idle }, ?_, rfl, rfl, (append_nil _).symm⟩
    unfold Queue.finish_drain
    rw [if_neg (by rw [hc]; exact nofun), h1]
    rfl
  | cons b r ih =>
    obtain ⟨⟨hne, hjoined⟩, -⟩ := isChain_cons_cons.mp h.chain
    have hnext : s.next current = b := by
      rcases hjoined with ⟨heq, -⟩ | ⟨-, p, hp⟩
      · exact heq
      · cases (hidle p).symm.trans hp
    have hb : b ≠ 0 := fun hz => h.nonzero (by rw [hz]; simp)
    have h1 : s.consumer_step true = { s with consumer := .consume current b s.back } := by
      unfold Queue.consumer_step
      rw [hc]
      dsimp only
      rw [if_pos hne, hnext, if_neg hb]
    let s1 : Queue ι := { s with consumer := .consume current b s.back }
    have hinv1 : s1.InvAt (current :: b :: r) := h.consumer_moves (.inl rfl) ⟨hfront, hnext, hbound, Ne.symm hne, r, rfl⟩
    have hinv2 : (s1.consumer_step true).InvAt (b :: r) := hinv1.consume rfl true
    have hbound2 : s.back ∈ b :: r := (mem_cons.mp hbound).resolve_left (Ne.symm hne)
    obtain ⟨fuel, s', hrun, hend, hswapped, hconsumed⟩ := ih hinv2 hidle rfl hfront hbound2
    refine ⟨fuel + 2, s', ?_, hend, hswapped, ?_⟩
    · unfold Queue.finish_drain
      rw [if_neg (by rw [hc]; exact nofun), h1]
      unfold Queue.finish_drain
      rw [if_neg nofun]
      exact hrun
    · rw [hconsumed]
      change s.consumed ++ [current] ++ (b :: r).dropLast = s.consumed ++ (current :: b :: r).dropLast
      rw [append_assoc]
      rfl

/-- What a producer writes into is its own segment, or a message that is still queued. -/
theorem InvAt.writes (h : s.InvAt q) {m : Nat} (hm : (s.producer_step p).next m ≠ s.next m) :
    m ∈ q ∨ m ∈ (s.producers p).held := by
  unfold Queue.producer_step at hm
  cases hp : s.producers p with
  | idle | swap first rest =>
    rw [hp] at hm
    exact absurd rfl hm
  | store first rest =>
    rw [hp] at hm
    have heq : m = last first rest := by
      by_contra hne
      exact hm (if_neg hne)
    rw [heq]
    exact .inr getLastD_mem_cons
  | link previous first =>
    rw [hp] at hm
    dsimp only at hm
    split at hm
    · have heq : m = previous := by
        by_contra hne
        exact hm (if_neg hne)
      rw [heq]
      exact .inl ((h.link p previous first hp).at_tail ‹_›).1
    · exact absurd rfl hm

/-- Messages are consumed once and in the order of the swaps, with their links written; a last drain leaves one. -/
theorem remote_queue_order (h : (system ι).Reachable s) :
    s.swapped = s.consumed ++ s.queued ∧
    (∀ current successor bound, s.consumer = .consume current successor bound →
      s.queued.head? = some current ∧ s.next current = successor ∧ successor ≠ 0 ∧
      ∀ p, (∀ first, s.producers p ≠ .link current first) ∧ current ∉ (s.producers p).held) ∧
    (∀ p m, (s.producer_step p).next m ≠ s.next m → m ∈ s.queued ∨ m ∈ (s.producers p).held) ∧
    (∀ p, ∀ m ∈ (s.producers p).held, m ∉ s.queued) ∧
    ((∀ p, s.producers p = .idle) → s.consumer = .idle → s.swapped ≠ [] →
      ∃ fuel s', s.drain fuel = some s' ∧ s'.consumer = .idle ∧ s'.swapped = s.swapped ∧ s'.consumed = s.swapped.dropLast) := by
  obtain ⟨q, hinv⟩ := inv_of_reachable h
  have hheld : ∀ p, ∀ m ∈ (s.producers p).held, m ∉ q := by
    intro p m hm
    cases hp : s.producers p with
    | idle | link _ _ =>
      rw [hp] at hm
      cases hm
    | store first rest =>
      rw [hp] at hm
      exact (hinv.store p first rest hp).apart m hm
    | swap first rest =>
      rw [hp] at hm
      exact (hinv.swap p first rest hp).1.apart m hm
  rw [hinv.queued_eq]
  refine ⟨hinv.history, fun current successor bound hc => ?_, fun p m hm => hinv.writes hm, hheld, fun hidle hc hne => ?_⟩
  · have hdrain := hinv.drain
    rw [hc] at hdrain
    obtain ⟨-, hsucc, -, -, r, rfl⟩ := hdrain
    have hnonzero : successor ≠ 0 := fun hz => hinv.nonzero (by rw [hz]; simp)
    refine ⟨rfl, hsucc, hnonzero, fun p => ⟨fun first hp => ?_, fun hm => hheld p _ hm mem_cons_self⟩⟩
    have hzero := ((hinv.link p current first hp).at_tail fun hz => hinv.nonzero (by rw [← hz]; simp)).2.2
    exact hnonzero (hsucc.symm.trans hzero)
  · have hdrain := hinv.drain
    rw [hc] at hdrain
    cases q with
    | nil =>
      rw [hinv.history, hinv.retained rfl] at hne
      exact absurd rfl hne
    | cons current r =>
      rcases hdrain with ⟨-, hnil | ⟨p, first, hp⟩⟩ | hhead
      · cases hnil
      · cases (hidle p).symm.trans hp
      · have hcurrent : current = s.front := some.inj hhead
        have hfront : s.front ≠ 0 := fun hz => hinv.nonzero (by rw [← hz, hcurrent]; exact mem_cons_self)
        let s2 : Queue ι := { s with consumer := .load_next current s.back }
        have h1 : s.consumer_step true = { s with consumer := .load_back current } := by
          unfold Queue.consumer_step
          rw [hc, hcurrent]
          exact if_neg hfront
        have hinv2 : s2.InvAt (current :: r) :=
          hinv.consumer_moves (.inl rfl) ⟨hfront, rfl, back_mem hinv (cons_ne_nil _ _)⟩
        obtain ⟨fuel, s', hrun, hend, hswapped, hconsumed⟩ := hinv2.finish_drain hidle rfl
        refine ⟨fuel + 1, s', ?_, hend, hswapped, ?_⟩
        · unfold Queue.drain Queue.finish_drain
          rw [h1, if_neg nofun]
          exact hrun
        · rw [hconsumed, hinv.history, dropLast_append_of_ne_nil (cons_ne_nil _ _)]

end

/-- Two linked messages, and nothing in the queue. -/
def two_messages : Queue Unit := ⟨0, 0, fun a => if a = 8 then 16 else 0, fun _ => .idle, .idle, [], []⟩

/-- The segment of two messages is published; a drain consumes the first and keeps the last. -/
theorem remote_queue_order_two :
    ∃ s : Queue Unit, (system Unit).Reachable s ∧ s.swapped = [8, 16] ∧
      ∃ fuel s', s.drain fuel = some s' ∧ s'.consumed = [8] := by
  have hseg : two_messages.Segment 8 [16] := by
    refine ⟨fun m hm => ⟨?_, not_mem_nil, fun _ => not_mem_nil⟩, by decide, ?_⟩
    · rintro rfl
      simp at hm
    · exact isChain_cons_cons.mpr ⟨rfl, .singleton _⟩
  have h0 : (system Unit).Reachable two_messages := ⟨[], .init ⟨rfl, rfl, fun _ => rfl, rfl, rfl, rfl⟩⟩
  have h1 : (system Unit).Reachable (two_messages.moved () (.store 8 [16])) :=
    h0.step (show (system Unit).step two_messages (.enqueue () 8 [16]) _ from ⟨rfl, hseg, rfl⟩)
  have hproducer : ∀ s, (system Unit).Reachable s → (system Unit).Reachable (s.producer_step ()) := fun s h =>
    h.step (show (system Unit).step s (.producer ()) _ from rfl)
  have h4 := hproducer _ (hproducer _ (hproducer _ h1))
  obtain ⟨-, -, -, -, hdrain⟩ := remote_queue_order h4
  obtain ⟨fuel, s', hrun, -, -, hconsumed⟩ := hdrain (fun _ => rfl) rfl (by decide)
  exact ⟨_, h4, rfl, fuel, s', hrun, hconsumed⟩

end Queue

end Rallocator
