import Oxidizer.Rallocator.CombiningQueue
/-!
# Steps on the nodes of others

A publisher links itself behind its predecessor; the combiner runs the actions
of the front, releases it and goes on, or hands the lease over.
-/

namespace Rallocator

open List Option

namespace Combining
variable {ι τ ρ : Type} [DecidableEq ι]
variable {s s' : Combining ι τ ρ} {queue queue' : List ι} {lease lease' : Option ι} {p c n : ι} {pc : Pc ι τ ρ}
  {f : Thread ι τ ρ → Thread ι τ ρ}

theorem visit_threads (s : Combining ι τ ρ) (p n p' : ι) (f : Thread ι τ ρ → Thread ι τ ρ) (pc : Pc ι τ ρ) :
    ((s.on n f).goto p pc).threads p' =
      if p' = p then { (s.on n f).threads p with pc } else if p' = n then f (s.threads n) else s.threads p' := by
  rw [goto_threads]
  split
  · next h => rw [h]
  · rw [on_threads]
    split
    · next h => rw [h]
    · rfl

omit [DecidableEq ι] in
theorem ok_of_waits (hw : Waits (s.threads c)) (hl : lease ≠ some c) : Ok s queue lease c := by
  obtain ⟨hp, hst⟩ := hw
  have hold : Holding queue lease c (s.threads c) := by
    rcases hst with h | h <;> simpa only [Holding, h] using hl
  cases hpc : (s.threads c).pc <;> simp [hpc, Pc.parked] at hp <;> simpa only [Ok, hpc] using hold

omit [DecidableEq ι] in
theorem ok_of_parked (hp : (s.threads c).pc.parked = true) (h : Holding queue lease c (s.threads c)) :
    Ok s queue lease c := by
  cases hpc : (s.threads c).pc <;> simp [hpc, Pc.parked] at hp <;> simpa only [Ok, hpc] using h

theorem visit_node (s : Combining ι τ ρ) (p c : ι) (f : Thread ι τ ρ → Thread ι τ ρ) (pc : Pc ι τ ρ) :
    ∃ pc', ((s.on c f).goto p pc).threads c = { f (s.threads c) with pc := pc' } := by
  by_cases h : c = p
  · exact ⟨pc, by simp [h]⟩
  · exact ⟨(f (s.threads c)).pc, by simp [h]⟩

theorem Heads.visit {v : τ} (h : Heads s queue lease p c) (hf : ∀ t, (f t).pc = t.pc ∧ (f t).status = t.status) :
    Heads (({ s with value := v }.on c f).goto p pc) queue lease p c := by
  obtain ⟨hl, hq, hm⟩ := h
  refine ⟨hl, hq, ?_⟩
  rcases hm with ⟨rfl, hst⟩ | ⟨hne, hw, hout, hs⟩
  · exact .inl ⟨rfl, by simpa [hf] using hst⟩
  · refine .inr ⟨hne, ?_, hout, ?_⟩
    · simpa [hne, Waits, hf] using hw
    · rw [visit_threads, if_pos rfl, on_threads, if_neg (Ne.symm hne)]
      exact hs

namespace InvAt

variable (inv : InvAt s queue lease)
include inv

omit [DecidableEq ι] in
theorem care_mem (hc : (s.threads p).pc.cares = some c) (hmem : c ∈ queue) :
    lease = some p ∧ queue.head? = some c := by
  rcases inv.serves_or_releases hc with h | h
  · exact ⟨h.1, h.2.1⟩
  · exact absurd hmem h.1

omit [DecidableEq ι] in
theorem not_cared_tail (hc : c ∈ queue.tail) (r : ι) : (s.threads r).pc.cares ≠ some c := by
  intro h
  exact not_mem_tail inv.nodup (inv.care_mem h (mem_of_mem_tail hc)).2 hc

omit [DecidableEq ι] in
theorem successor (hq : queue.head? = some c) (hn : (s.threads c).next = some n) :
    ∃ rest, queue = c :: n :: rest ∧ Fresh (s.threads n) ∧ Waits (s.threads n) := by
  have hchain := inv.chain
  match queue, hq with
  | [a], hq =>
    obtain rfl : a = c := by simpa using hq
    have hnone : (s.threads a).next = none := hchain
    simp [hn] at hnone
  | a :: b :: rest, hq =>
    obtain rfl : a = c := by simpa using hq
    obtain ⟨⟨hfresh, h⟩, -⟩ := hchain
    rw [hn] at h
    rcases h with ⟨-, h⟩ | ⟨hw, h⟩
    · simp at h
    · obtain rfl := some.inj h
      exact ⟨rest, rfl, hfresh, hw⟩

theorem serves {v : τ} (hheads : Heads s queue lease p c)
    (hp : (s.threads p).pc.parked = false) (hcares : (s.threads p).pc.cares = some c)
    (notify : ∀ m after, (s.threads p).pc ≠ .notify m after)
    (hf : ∀ t, (f t).pc = t.pc ∧ (f t).status = t.status ∧ (f t).next = t.next ∧ (f t).woken = t.woken)
    (hpc : pc.parked = false) (hcares' : pc.cares = some c) (leads : ∀ t : Thread ι τ ρ, Leads { t with pc })
    (ok : Ok (({ s with value := v }.on c f).goto p pc) queue lease p) :
    InvAt (({ s with value := v }.on c f).goto p pc) queue lease := by
  have hthreads := fun p' => visit_threads { s with value := v } p c p' f pc
  have hstatus : ∀ x, ((({ s with value := v }.on c f).goto p pc).threads x).next = (s.threads x).next := by
    intro x
    rw [goto_threads]
    split <;> rw [on_threads] <;> split <;> simp [hf]
  have hcp : ∀ r ≠ p, (s.threads r).pc.cares ≠ some c := fun r hr h => hr (inv.care r p c h hcares)
  have hfront : c ∉ queue.tail := not_mem_tail inv.nodup hheads.2.1
  have hptail : p ∉ queue.tail := by
    rcases hheads.2.2 with ⟨rfl, -⟩ | ⟨-, -, h, -⟩
    · exact hfront
    · exact fun hp => h (mem_of_mem_tail hp)
  have hlc : c ≠ p → lease ≠ some c := by
    intro hne h
    rw [hheads.1] at h
    exact hne (some.inj h).symm
  have hwaits : c ≠ p → Waits (s.threads c) := fun hne => inv.care_waits hcares hne
  refine inv.pair hthreads inv.flag inv.last inv.nodup ?_ ok (fun _ _ h => h) (absurd · (inv.not_cared hp)) (.inr hheads.1)
    (fun _ => leads _) ?_ (.inl hpc) ?_ (fun _ _ _ => Iff.rfl) (fun _ h => .inl h) (fun _ _ h => .inl h) (fun _ h => ?_) (.inl id)
    (fun _ => (hf _).1) ?_ ?_ (fun hne h => absurd h (hlc hne)) ?_ ?_ (fun m after h => absurd h (notify m after))
  · refine inv.chain.congr (fun a _ => hstatus a) fun b hb => ?_
    have hbp : b ≠ p := fun h => hptail (h ▸ hb)
    have hbc : b ≠ c := fun h => hfront (h ▸ hb)
    rw [hthreads, if_neg hbp, if_neg hbc]
    exact ⟨id, id, fun _ => id⟩
  · intro c' hc'
    rw [hheads.2.1] at hc'
    obtain rfl := some.inj hc'
    refine .inr (.inr ⟨p, hheads.1, .inr ?_⟩)
    rw [hthreads, if_pos rfl]
    exact hcares'
  · intro hne
    refine ok_of_waits ?_ (hlc hne)
    rw [hthreads, if_neg hne, if_pos rfl]
    simpa [Waits, hf] using hwaits hne
  · obtain ⟨r, hr, h⟩ := h
    exact absurd h (hcp r hr)
  · intro c' h
    rw [hcares'] at h
    exact .inl (hcares.trans h)
  · intro c' h
    rw [hcares] at h
    exact .inl (hcares'.trans h)
  · intro hne h
    exact ⟨hwaits hne, (hf _).2.1⟩
  · exact fun _ _ => .inl ⟨(hf _).2.1, (hf _).2.2.2⟩

theorem invoke (hpc : (s.threads p).pc = .invoke c) : InvAt (s.thread_step p) queue lease := by
  have hok := inv.ok p
  simp only [Ok, hpc] at hok
  obtain ⟨hheads, action, hgiven, haction, hseen⟩ := hok
  have hp := parked_at hpc rfl
  simp only [thread_step, hpc, haction]
  refine inv.serves (v := s.value) hheads hp (by rw [hpc]; rfl) (by simp [hpc]) (fun _ => ⟨rfl, rfl, rfl, rfl⟩) rfl rfl
    (fun _ => trivial) ?_
  obtain ⟨pc', hc⟩ := visit_node s p c (fun t => { t with action := none }) (.run c action s.value)
  rw [Ok, visit_threads, if_pos rfl]
  refine ⟨hheads.visit (fun _ => ⟨rfl, rfl⟩), ?_, rfl⟩
  rw [hc]
  exact ⟨hgiven, rfl, hseen⟩

theorem run {action : τ → ρ × τ} {value : τ} (hpc : (s.threads p).pc = .run c action value) :
    InvAt (s.thread_step p) queue lease := by
  have hok := inv.ok p
  simp only [Ok, hpc] at hok
  obtain ⟨hheads, ⟨hgiven, haction, hseen⟩, hvalue⟩ := hok
  have hp := parked_at hpc rfl
  simp only [thread_step, hpc]
  refine inv.serves hheads hp (by rw [hpc]; rfl) (by simp [hpc]) (fun _ => ⟨rfl, rfl, rfl, rfl⟩) rfl rfl
    (fun _ => trivial) ?_
  obtain ⟨pc', hc⟩ := visit_node { s with value := (action value).2 } p c
    (fun t => { t with result := some (action value).1, seen := t.seen ++ [value] }) (.next c)
  rw [Ok, visit_threads, if_pos rfl]
  refine ⟨hheads.visit (fun _ => ⟨rfl, rfl⟩), ?_⟩
  rw [hc]
  exact ⟨action, value, hgiven, haction, by simp [hseen], rfl⟩

/-! ## Notifications -/

theorem notify {after : After ι} (hpc : (s.threads p).pc = .notify n after) :
    InvAt (s.thread_step p) queue lease := by
  have hok := inv.ok p
  have hp := parked_at hpc rfl
  simp only [thread_step, hpc]
  have hthreads := fun p' => visit_threads s p n p' (fun t => { t with woken := true }) after.pc
  have hcares : (after.pc : Pc ι τ ρ).cares = (s.threads p).pc.cares := by
    rw [hpc]
    cases after <;> rfl
  have hparked : (after.pc : Pc ι τ ρ).parked = false := by cases after <;> rfl
  have hkept : ∀ x, Kept (s.threads x) (((s.on n fun t => { t with woken := true }).goto p after.pc).threads x) := by
    intro x
    rw [goto_threads]
    split
    · next hx =>
      refine ⟨fun hw => ?_, ?_, ?_, ?_, ?_, fun _ => ?_⟩
      · rw [hx] at hw
        simp [Waits, hp] at hw
      all_goals
        simp only [on_threads]
        split <;> rfl
    · rw [on_threads]
      split
      · exact ⟨id, rfl, rfl, rfl, rfl, fun _ => rfl⟩
      · exact Kept.refl _
  have hstatus : ∀ x, (((s.on n fun t => { t with woken := true }).goto p after.pc).threads x).status =
      (s.threads x).status ∧ (((s.on n fun t => { t with woken := true }).goto p after.pc).threads x).next =
      (s.threads x).next := by
    intro x
    rw [goto_threads]
    split <;> rw [on_threads] <;> split <;> simp
  have hpcs : ∀ x ≠ p, (((s.on n fun t => { t with woken := true }).goto p after.pc).threads x).pc =
      (s.threads x).pc := by
    intro x hx
    rw [hthreads, if_neg hx]
    split
    · next h => rw [h]
    · rfl
  refine inv.pair hthreads inv.flag inv.last inv.nodup ?_ ?_ (fun _ _ h => h) (absurd · (inv.not_cared hp)) (.inl rfl) ?_ ?_
    (.inl hparked) ?_ (fun _ _ _ => Iff.rfl) (fun _ h => .inl h) (fun _ _ h => .inl h) ?_ (.inl id) (fun _ => rfl) ?_ ?_ ?_
    (fun _ h => ⟨h, rfl⟩) ?_ ?_
  · refine inv.chain.congr (fun a _ => (hstatus a).2) fun b hb => ⟨(hkept b).fresh, (hkept b).waits, fun a ha => ?_⟩
    rwa [hpcs b (by rintro rfl; simp [hpc] at ha)]
  · rw [Ok, visit_threads, if_pos rfl]
    simp only [Ok, hpc] at hok
    cases after with
    | advance q => exact ⟨hok.1.keep hkept (hstatus p).1, (hkept q).fresh hok.2⟩
    | clear =>
      refine ⟨hok.1, hok.2.1, ?_⟩
      have := (hkept p).served hok.2.2
      rwa [visit_threads, if_pos rfl] at this
    | pass c =>
      obtain ⟨hl, h1, h2, h3, h4, h5⟩ := hok
      exact ⟨hl, h1, h2, h3, (hkept c).served h4, h5.keep hkept (hstatus p).1⟩
    | finish =>
      refine ⟨hok.1, ?_⟩
      have := (hkept p).served hok.2
      rwa [visit_threads, if_pos rfl] at this
  · intro hl
    have := inv.leads p hl
    simp only [Leads, hpc] at this
    cases after <;> simp only at this <;> trivial
  · intro c hc
    rcases inv.front c hc with h | h | ⟨r, hr, h⟩
    · exact .inl (by rwa [hpcs c (by rintro rfl; simp [hpc] at h)])
    · exact .inr (.inl (by rwa [hpcs c (by rintro rfl; simp [hpc] at h)]))
    · refine .inr (.inr ⟨r, hr, h.imp_right fun h => ?_⟩)
      by_cases hrp : r = p
      · subst hrp
        rw [visit_threads, if_pos rfl]
        exact hcares.trans h
      · rwa [hpcs r hrp]
  · intro hne
    refine (inv.ok n).frame ⟨⟨hkept n, ?_, (hstatus n).1, fun _ => (hstatus n).2⟩, Iff.rfl, id, fun _ => id, fun _ => id,
      fun c _ _ => hkept c, fun _ _ => id, fun _ _ => id, fun _ _ => id, fun _ => rfl, fun _ => id⟩
    exact hpcs n hne
  · exact fun _ _ => ⟨⟨id, rfl, rfl, rfl, rfl, fun _ => rfl⟩, id⟩
  · intro c h
    exact .inl (hcares.symm.trans h)
  · intro c h
    exact .inl (hcares.trans h)
  · intro hne hl
    have := inv.leads n hl
    exact this
  · exact fun _ _ => .inr (.inl rfl)
  · intro m after' h
    rw [hpc] at h
    injection h with h1 h2
    exact ⟨h1.symm, fun _ => rfl⟩

/-! ## Wakes -/

omit inv in
/-- What the waker does next, and the sleeper that it has to notify. -/
def Pc.after (s : Combining ι τ ρ) (node : ι) (after : After ι) : Pc ι τ ρ :=
  if (s.threads node).status = .sleeping then .notify node after else after.pc

omit [DecidableEq ι] inv in
theorem after_eq (s : Combining ι τ ρ) (node : ι) (after : After ι) :
    Pc.after s node after = .notify node after ∨ Pc.after s node after = after.pc := by
  unfold Pc.after
  split
  · exact .inl rfl
  · exact .inr rfl

omit [DecidableEq ι] inv in
theorem after_parked (after : After ι) : (Pc.after s n after).parked = false := by
  rcases after_eq s n after with h | h <;> rw [h]
  · rfl
  · cases after <;> rfl

/-- The status of a node is set, and its owner is notified next if it slept. -/
def visit (s : Combining ι τ ρ) (p n : ι) (status : Status) (after : After ι) : Combining ι τ ρ :=
  (s.on n fun t => { t with status }).goto p (Pc.after s n after)

omit inv in
theorem visit_at (s : Combining ι τ ρ) (p n : ι) (status : Status) (after : After ι) (p' : ι) :
    (visit s p n status after).threads p' =
      if p' = p then { (s.on n fun t => { t with status }).threads p with pc := Pc.after s n after }
      else if p' = n then { s.threads n with status } else s.threads p' := visit_threads s p n p' _ _

omit [DecidableEq ι] in
theorem noticed_of_wake (hw : Waits (s.threads n)) (after : After ι)
    (h : (s.threads n).pc = .asleep) : ∃ after', (Pc.after s n after) = .notify n after' :=
  ⟨after, by rw [Pc.after, if_pos ((inv.slept n hw).mpr h)]⟩

omit inv in
theorem released {after : After ι} (hw : n ≠ p → Waits (s.threads n)) (hout : n ≠ p → n ∉ queue ∧ lease ≠ some n)
    (hserved : Served (s.threads n)) (hne : n ≠ p) : Ok (visit s p n .done after) queue lease n := by
  have hn : (visit s p n .done after).threads n = { s.threads n with status := .done } := by simp [visit, hne]
  apply ok_of_parked
  · rw [hn]
    exact (hw hne).1
  · rw [hn]
    exact ⟨hout hne, hserved⟩

omit inv in
theorem served_visit {a : Status} (h : Served (s.threads c)) (after : After ι) :
    Served ((visit s p n a after).threads c) := by
  rw [visit, goto_threads]
  split <;> rw [on_threads] <;> split <;> exact h

omit [DecidableEq ι] in
theorem succession (hheads : Heads s queue lease p c) (hnext : (s.threads c).next = some n) :
    ∃ rest, queue = c :: n :: rest ∧ Fresh (s.threads n) ∧ Waits (s.threads n) ∧ c ∉ n :: rest ∧ (n :: rest).Nodup ∧
      p ∉ n :: rest := by
  obtain ⟨rest, rfl, hfresh, hwn⟩ := inv.successor hheads.2.1 hnext
  obtain ⟨hcrest, hnd⟩ := nodup_cons.mp inv.nodup
  refine ⟨rest, rfl, hfresh, hwn, hcrest, hnd, ?_⟩
  rcases hheads.2.2 with ⟨rfl, -⟩ | ⟨-, -, h, -⟩
  · exact hcrest
  · exact fun hmem => h (mem_cons_of_mem c hmem)

theorem wake_advance (hpc : (s.threads p).pc = .wake c .done (.advance n)) :
    ∃ queue', InvAt (s.thread_step p) queue' lease := by
  have hok := inv.ok p
  simp only [Ok, hpc] at hok
  obtain ⟨hheads, hserved, hnext⟩ := hok
  obtain ⟨rest, rfl, hfresh, hwn, hcrest, hnd, hpout⟩ := inv.succession hheads hnext
  have hp := parked_at hpc rfl
  have hcares := cares_at hpc rfl
  have hnp : n ≠ p := fun h => hpout (by simp [h])
  have hnc : n ≠ c := fun h => hcrest (by simp [h])
  have hw : c ≠ p → Waits (s.threads c) := fun hne => inv.care_waits hcares hne
  have hlc : c ≠ p → lease ≠ some c := by
    intro hne h
    rw [hheads.1] at h
    exact hne (some.inj h).symm
  have hps : Served (s.threads p) := by
    rcases hheads.2.2 with ⟨rfl, -⟩ | ⟨-, -, -, h⟩
    · exact hserved
    · exact h
  have hafter := after_eq s c (.advance n)
  have hto : (Pc.after s c (.advance n)).cares = some n := by rcases hafter with h | h <;> rw [h] <;> rfl
  simp only [thread_step, hpc]
  change ∃ queue', InvAt (visit s p c .done (.advance n)) queue' lease
  have hthreads := visit_at s p c .done (.advance n)
  have hnt : (visit s p c .done (.advance n)).threads n = s.threads n := by
    rw [hthreads, if_neg hnp, if_neg hnc]
  refine ⟨n :: rest, inv.pair hthreads inv.flag ?_ hnd ?_ ?_ ?_ (absurd · (inv.not_cared hp)) (.inl rfl) ?_ ?_
    (.inl (after_parked _)) (released hw (fun hne => ⟨hcrest, hlc hne⟩) hserved) (fun _ _ _ => Iff.rfl) ?_ ?_ ?_ (.inr hheads.1)
    (fun _ => rfl) ?_ ?_ ?_ ?_ ?_ (by simp [hpc])⟩
  · exact inv.last.trans getLast?_cons_cons
  · refine inv.chain.2.own (fun a ha hac => ?_) (fun h => absurd h hcrest) fun h => hcrest (mem_of_mem_tail h)
    have hap : a ≠ p := fun h => hpout (h ▸ ha)
    rw [hthreads, if_neg hap, if_neg hac]
  · have hheads' : Heads (visit s p c .done (.advance n)) (n :: rest) lease p n := by
      refine ⟨hheads.1, rfl, .inr ⟨hnp, ?_, hpout, served_visit hps _⟩⟩
      rwa [hnt]
    rw [Ok, hthreads, if_pos rfl]
    rcases hafter with h | h <;> rw [h] <;> exact ⟨hheads', by rwa [hnt]⟩
  · exact fun p' _ h h' => h (mem_cons_of_mem c h')
  · intro _
    rcases hafter with h | h <;> rw [h] <;> trivial
  · intro c' h
    obtain rfl : n = c' := by simpa using h
    refine .inr (.inr ⟨p, hheads.1, .inr ?_⟩)
    rw [hthreads, if_pos rfl]
    exact hto
  · intro p' h
    obtain rfl : c = p' := by simpa using h
    exact .inr ⟨.inr (.inl rfl), fun r hr hrc => hr (inv.care r p c hrc hcares)⟩
  · intro p' _ h
    rcases mem_cons.mp h with rfl | h
    · exact .inr (.inr ⟨hwn, hto⟩)
    · exact .inl h
  · rintro - ⟨r, hr, h⟩
    exact absurd (inv.care r p c h hcares) hr
  · intro c' h
    have h' : (Pc.after s c (.advance n)).cares = some c' := h
    rw [hto] at h'
    obtain rfl := some.inj h'
    exact .inr fun r _ => inv.not_cared_tail (by simp) r
  · intro c' h
    rw [hcares] at h
    obtain rfl := some.inj h
    exact .inr (.inr ⟨rfl, by simp [Waits]⟩)
  · exact fun hne h => absurd h (hlc hne)
  · intro _ h
    simp [Waits] at h
  · exact fun hne h => .inr (.inr (inv.noticed_of_wake (hw hne) _ h))

theorem wake_done {after : After ι} (hpc : (s.threads p).pc = .wake c .done after)
    (hafter : after = .clear ∧ lease = some p ∨ after = .finish ∧ lease ≠ some p) (hrel : Releases s queue lease p c) :
    InvAt (s.thread_step p) queue lease := by
  obtain ⟨hcout, hpout, hlc, hserved, hminds⟩ := hrel
  have hp := parked_at hpc rfl
  have hcares := cares_at hpc rfl
  have hw : c ≠ p → Waits (s.threads c) := fun hne => inv.care_waits hcares hne
  have hps : Served (s.threads p) := by
    rcases hminds with ⟨rfl, -⟩ | ⟨-, -, -, h⟩
    · exact hserved
    · exact h
  have hto := after_eq s c after
  have hnone : (Pc.after s c after).cares = none := by
    rcases hto with h | h <;> rw [h] <;> rcases hafter with ⟨rfl, -⟩ | ⟨rfl, -⟩ <;> rfl
  simp only [thread_step, hpc]
  change InvAt (visit s p c .done after) queue lease
  have hthreads := visit_at s p c .done after
  have hsame : ∀ x ∈ queue, (visit s p c .done after).threads x = s.threads x := by
    intro x hx
    have hxp : x ≠ p := fun h => hpout (h ▸ hx)
    have hxc : x ≠ c := fun h => hcout (h ▸ hx)
    rw [hthreads, if_neg hxp, if_neg hxc]
  refine inv.pair hthreads inv.flag inv.last inv.nodup ?_ ?_ (fun _ _ h => h) (absurd · (inv.not_cared hp)) (.inl rfl) ?_ ?_
    (.inl (after_parked _)) (released hw (fun hne => ⟨hcout, hlc hne⟩) hserved) (fun _ _ _ => Iff.rfl) (fun _ h => .inl h)
    (fun _ _ h => .inl h) ?_ (.inl id) (fun _ => rfl) ?_ ?_ ?_ ?_ ?_ (by simp [hpc])
  · exact inv.chain.own (fun a ha _ => hsame a ha) (fun h => absurd h hcout) fun h => hcout (mem_of_mem_tail h)
  · have hps' := served_visit (p := p) (n := c) (a := .done) hps after
    rw [Ok]
    rw [hthreads, if_pos rfl] at hps' ⊢
    rcases hafter with ⟨rfl, hl⟩ | ⟨rfl, hl⟩ <;> rcases hto with h | h <;> rw [h] at hps' ⊢
    · exact ⟨hl, hpout, hps'⟩
    · exact ⟨hl, hpout, hps'⟩
    · exact ⟨⟨hpout, hl⟩, hps'⟩
    · exact ⟨⟨hpout, hl⟩, hps'⟩
  · intro hl
    rcases hafter with ⟨rfl, -⟩ | ⟨-, hl'⟩
    · rcases hto with h | h <;> rw [h] <;> trivial
    · exact absurd hl hl'
  · intro c' hc'
    have hmem := mem_of_head? hc'
    rw [hsame c' hmem]
    rcases inv.front c' hc' with h | h | ⟨r, hr, h⟩
    · exact .inl h
    · exact .inr (.inl h)
    · refine .inr (.inr ⟨r, hr, h.imp_right fun h => ?_⟩)
      -- the one who serves the front is not the one who releases
      have hrp : r ≠ p := by
        rintro rfl
        rw [hcares] at h
        exact hcout (some.inj h ▸ hmem)
      rw [hthreads, if_neg hrp]
      split
      · next heq => rwa [← heq]
      · exact h
  · rintro - ⟨r, hr, h⟩
    exact absurd (inv.care r p c h hcares) hr
  · intro c' h
    have h' : (Pc.after s c after).cares = some c' := h
    simp [hnone] at h'
  · intro c' h
    rw [hcares] at h
    obtain rfl := some.inj h
    exact .inr (.inr ⟨rfl, by simp [Waits]⟩)
  · exact fun hne h => absurd h (hlc hne)
  · intro _ h
    simp [Waits] at h
  · exact fun hne h => .inr (.inr (inv.noticed_of_wake (hw hne) _ h))

theorem wake_head (hpc : (s.threads p).pc = .wake n .head (.pass c)) :
    ∃ queue', InvAt (s.thread_step p) queue' (some n) := by
  have hok := inv.ok p
  simp only [Ok, hpc] at hok
  obtain ⟨hheads, hserved, hnext⟩ := hok
  obtain ⟨rest, rfl, hfresh, hwn, hcrest, hnd, hpout⟩ := inv.succession hheads hnext
  have hp := parked_at hpc rfl
  have hcares := cares_at hpc rfl
  have hnp : n ≠ p := fun h => hpout (by simp [h])
  have hnc : n ≠ c := fun h => hcrest (by simp [h])
  have hto := after_eq s n (.pass c)
  have hcares' : (Pc.after s n (.pass c)).cares = some c := by rcases hto with h | h <;> rw [h] <;> rfl
  simp only [thread_step, hpc]
  change ∃ queue', InvAt (visit s p n .head (.pass c)) queue' (some n)
  have hthreads := visit_at s p n .head (.pass c)
  have hnt : (visit s p n .head (.pass c)).threads n =
      { s.threads n with status := .head } := by rw [hthreads, if_neg hnp, if_pos rfl]
  refine ⟨n :: rest, inv.pair hthreads ?_ ?_ hnd ?_ ?_ ?_ (absurd · (inv.not_cared hp)) (.inl rfl) ?_ ?_ (.inl (after_parked _))
    ?_ ?_ ?_ ?_ ?_ (.inr hheads.1) (fun _ => rfl) ?_ ?_ ?_ ?_ ?_ (by simp [hpc])⟩
  · exact inv.flag.trans (by simp [hheads.1])
  · exact inv.last.trans getLast?_cons_cons
  · refine inv.chain.2.own (fun a ha han => ?_) (fun _ => by rw [hnt]) (nodup_cons.mp hnd).1
    have hap : a ≠ p := fun h => hpout (h ▸ ha)
    rw [hthreads, if_neg hap, if_neg han]
  · have hrel : some n ≠ some p ∧ Releases (visit s p n .head (.pass c))
        (n :: rest) (some n) p c := by
      refine ⟨by simp [hnp], hcrest, hpout, fun _ => by simp [hnc], served_visit hserved _, ?_⟩
      rcases hheads.2.2 with ⟨rfl, hst⟩ | ⟨hne, hw, -, hs⟩
      · exact .inl ⟨rfl, by simpa [hthreads, Ne.symm hnc] using hst⟩
      · refine .inr ⟨hne, ?_, hpout, served_visit hs _⟩
        rwa [hthreads, if_neg hne, if_neg (Ne.symm hnc)]
    rw [Ok, hthreads, if_pos rfl]
    rcases hto with h | h <;> rw [h] <;> exact hrel
  · exact fun p' _ h h' => h (mem_cons_of_mem c h')
  · intro h
    exact absurd (some.inj h) hnp
  · intro c' h
    obtain rfl : n = c' := by simpa using h
    exact .inr (.inr ⟨n, rfl, .inl rfl⟩)
  · intro _
    apply ok_of_parked
    · rw [hnt]
      exact hwn.1
    · rw [hnt]
      exact ⟨rfl, rfl, hfresh⟩
  · intro p' hp' hpn
    simp [hheads.1, Ne.symm hp', Ne.symm hpn]
  · intro p' h
    obtain rfl : c = p' := by simpa using h
    refine .inr ⟨?_, fun r hr hrc => hr (inv.care r p c hrc hcares)⟩
    rcases hheads.2.2 with ⟨h, -⟩ | ⟨-, h, -⟩
    · exact .inl h
    · exact .inr (.inr h)
  · intro p' _ h
    rcases mem_cons.mp h with rfl | h
    · exact .inr (.inl ⟨rfl, by simp [Waits]⟩)
    · exact .inl h
  · rintro - ⟨r, -, h⟩
    exact absurd h (inv.not_cared_tail (by simp) r)
  · exact fun c' h => .inl (hcares.trans (hcares'.symm.trans h))
  · exact fun c' h => .inl (hcares'.trans (hcares.symm.trans h))
  · intro _ _
    exact (parked_leads (t := { s.threads n with status := .head }) hwn.1).mpr rfl
  · intro _ h
    simp [Waits] at h
  · exact fun _ h => .inr (.inr (inv.noticed_of_wake hwn _ h))

end InvAt

/-! ## Publication -/

theorem Linked.before : ∀ {queue : List ι}, Linked s queue → p ∈ queue.tail →
    ∃ front a back, queue = front ++ a :: p :: back ∧ Joined s a p
  | [], _, hp => by simp at hp
  | [a], _, hp => by simp at hp
  | a :: b :: queue, ⟨hj, h⟩, hp => by
    by_cases hb : b = p
    · subst hb
      exact ⟨[], a, queue, rfl, hj⟩
    · have hp' : p ∈ queue := by
        rcases mem_cons.mp hp with h | h
        · exact absurd h.symm hb
        · exact h
      obtain ⟨front, a', back, heq, hj'⟩ := h.before hp'
      exact ⟨a :: front, a', back, by simp [heq], hj'⟩

theorem Linked.link {a : ι} {back : List ι} (hother : ∀ x ≠ p, x ≠ a → s'.threads x = s.threads x)
    (ha : s'.threads a = { s.threads a with next := some p }) (hj : Joined s' a p)
    (hp : (s'.threads p).next = (s.threads p).next) :
    ∀ {l : List ι}, (l ++ a :: p :: back).Nodup → Linked s (l ++ a :: p :: back) → Linked s' (l ++ a :: p :: back)
  | [], hnd, ⟨_, h⟩ => by
    obtain ⟨hap, hnd'⟩ := nodup_cons.mp hnd
    obtain ⟨hpb, -⟩ := nodup_cons.mp hnd'
    refine ⟨hj, h.congr (fun x hx => ?_) fun x hx => ?_⟩
    · by_cases hxp : x = p
      · rw [hxp, hp]
      · rw [hother x hxp fun h => hap (h ▸ hx)]
    · have hxp : x ≠ p := fun h => hpb (h ▸ hx)
      have hxa : x ≠ a := fun h => hap (h ▸ mem_of_mem_tail hx)
      rw [hother x hxp hxa]
      exact ⟨id, id, fun _ => id⟩
  | [x], hnd, ⟨hxa, h⟩ => by
    obtain ⟨hx, hnd'⟩ := nodup_cons.mp hnd
    have hsame : s'.threads x = s.threads x := hother x (fun h => hx (by simp [h])) (fun h => hx (by simp [h]))
    refine ⟨?_, Linked.link hother ha hj hp (l := []) hnd' h⟩
    simpa only [Joined, hsame, ha, Fresh, Waits] using hxa
  | x :: y :: front, hnd, ⟨hxy, h⟩ => by
    obtain ⟨hx, hnd'⟩ := nodup_cons.mp hnd
    obtain ⟨hy, -⟩ := nodup_cons.mp hnd'
    have hsx : s'.threads x = s.threads x := hother x (fun h => hx (by simp [h])) (fun h => hx (by simp [h]))
    have hsy : s'.threads y = s.threads y := hother y (fun h => hy (by simp [h])) (fun h => hy (by simp [h]))
    refine ⟨?_, Linked.link hother ha hj hp (l := y :: front) hnd' h⟩
    simpa only [Joined, hsx, hsy] using hxy

theorem InvAt.link (inv : InvAt s queue lease) {a : ι} (hpc : (s.threads p).pc = .link a) :
    InvAt (s.thread_step p) queue lease := by
  have hok := inv.ok p
  simp only [Ok, hpc] at hok
  obtain ⟨hl, htail, hst⟩ := hok
  have hp := parked_at hpc rfl
  obtain ⟨front, a', back, hq, hfresh, hj⟩ := inv.chain.before htail
  have ha : a = a' ∧ (s.threads a').next = none := by
    rcases hj with ⟨h, hn⟩ | ⟨h, -⟩
    · rw [hpc] at h
      injection h with h
      exact ⟨h, hn⟩
    · simp [Waits, hp] at h
  obtain ⟨rfl, hnone⟩ := ha
  have hnd : (front ++ a :: p :: back).Nodup := hq ▸ inv.nodup
  have hap : a ≠ p := by
    rintro rfl
    simp [nodup_append] at hnd
  simp only [thread_step, hpc]
  have hthreads := fun p' => visit_threads s p a p' (fun t => { t with next := some p }) (.wait 100)
  have hpt : ((s.on a fun t => { t with next := some p }).goto p (.wait 100)).threads p =
      { s.threads p with pc := .wait 100 } := by
    rw [hthreads, if_pos rfl, on_threads, if_neg (Ne.symm hap)]
  have hat : ((s.on a fun t => { t with next := some p }).goto p (.wait 100)).threads a =
      { s.threads a with next := some p } := by
    rw [hthreads, if_neg hap, if_pos rfl]
  have hother : ∀ x ≠ p, x ≠ a → ((s.on a fun t => { t with next := some p }).goto p (.wait 100)).threads x =
      s.threads x := fun x hxp hxa => by rw [hthreads, if_neg hxp, if_neg hxa]
  have hkept : Kept (s.threads a) { s.threads a with next := some p } :=
    ⟨id, rfl, rfl, rfl, rfl, fun h => absurd hnone h⟩
  have hcares : (s.threads p).pc.cares = none := by rw [hpc]; rfl
  have hno := inv.not_cared hp
  refine inv.pair hthreads inv.flag inv.last inv.nodup ?_ ?_ (fun _ _ h => h) (absurd · hno) (.inl rfl) (fun h => absurd h hl) ?_
    (.inr ⟨fun _ => ⟨.inl htail, ?_⟩, by simp⟩) ?_ (fun _ _ _ => Iff.rfl) (fun _ h => .inl h) (fun _ _ h => .inl h)
    (fun _ _ => ⟨hkept, id⟩) (.inl id) (fun _ => rfl) ?_ ?_ ?_ (fun _ h => ⟨h, rfl⟩) (fun _ _ => .inl ⟨rfl, rfl⟩) (by simp [hpc])
  · rw [hq]
    refine Linked.link hother hat ⟨?_, .inr ⟨?_, ?_⟩⟩ (by rw [hpt]) hnd (hq ▸ inv.chain)
    · rw [hpt]
      exact hfresh
    · rw [hpt]
      exact ⟨rfl, .inl hst⟩
    · rw [hat]
  · rw [Ok, hpt]
    simp only [Holding, hst]
    exact hl
  · intro c hc
    have hcp : c ≠ p := fun h => not_mem_tail inv.nodup (h ▸ hc) htail
    have hpcs : ∀ x ≠ p, (((s.on a fun t => { t with next := some p }).goto p (.wait 100)).threads x).pc =
        (s.threads x).pc := by
      intro x hx
      by_cases hxa : x = a
      · rw [hxa, hat]
      · rw [hother x hx hxa]
    rw [hpcs c hcp]
    refine (inv.front c hc).imp_right (Or.imp_right ?_)
    rintro ⟨r, hr, h⟩
    refine ⟨r, hr, h.imp_right fun h => ?_⟩
    rw [hpcs r (by rintro rfl; exact hl hr)]
    exact h
  · simp [Ne.symm hap, hst]
  · intro _
    refine (inv.ok a).frame ⟨⟨by rw [hat]; exact hkept, by rw [hat], by rw [hat], ?_⟩, Iff.rfl, id, fun _ => id, fun _ => id,
      ?_, fun _ _ => id, fun _ _ => id, fun _ _ => id, fun _ => rfl, fun _ => id⟩
    · intro h
      have hout := inv.ok a
      simp only [Ok, h] at hout
      exact absurd (hq ▸ (by simp : a ∈ front ++ a :: p :: back)) hout.1.1
    · intro c hc hca
      by_cases hcp : c = p
      · exact absurd ⟨a, hap, hcp ▸ hc⟩ hno
      · rw [hother c hcp hca]
        exact Kept.refl _
  · intro c h
    have h' : (Pc.wait 100 : Pc ι τ ρ).cares = some c := h
    simp [Pc.cares] at h'
  · simp [hcares]
  · intro _ h
    exact inv.leads a h

end Combining

end Rallocator
