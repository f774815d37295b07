import Oxidizer.Rallocator.CombiningSteps
/-!
# Steps that change the queue or the lease

The lease is taken with the flag and given back with it, or it goes from a
combiner to the owner of the node behind it. A node enters the queue when `last`
is swapped and leaves it from the front.
-/

namespace Rallocator

open List

namespace Combining
variable {ι τ ρ : Type} [DecidableEq ι]
variable {s s' : Combining ι τ ρ} {queue queue' : List ι} {lease lease' : Option ι} {p c n : ι} {pc : Pc ι τ ρ}

omit [DecidableEq ι] in
theorem not_mem_tail (hnd : queue.Nodup) (hq : queue.head? = some p) : p ∉ queue.tail := by
  match queue, hq with
  | a :: queue, hq =>
    simp only [head?_cons, Option.some.injEq] at hq
    subst hq
    exact (nodup_cons.mp hnd).1

theorem Linked.own (h : Linked s queue) (hother : ∀ p' ∈ queue, p' ≠ p → s'.threads p' = s.threads p')
    (hnext : p ∈ queue → (s'.threads p).next = (s.threads p).next) (htail : p ∉ queue.tail) : Linked s' queue := by
  refine h.congr (fun a ha => ?_) fun b hb => ?_
  · by_cases hap : a = p
    · subst hap
      exact hnext ha
    · rw [hother a ha hap]
  · have hbp : b ≠ p := fun h => htail (h ▸ hb)
    rw [hother b (mem_of_mem_tail hb) hbp]
    exact ⟨id, id, fun _ => id⟩

omit [DecidableEq ι] in
theorem Linked.last_next : ∀ {queue : List ι}, Linked s queue → queue.getLast? = some c → (s.threads c).next = none
  | [], _, hc => by simp at hc
  | [a], h, hc => by
    obtain rfl : a = c := by simpa using hc
    exact h
  | _ :: b :: queue, ⟨_, h⟩, hc => h.last_next (by rwa [getLast?_cons_cons] at hc)

omit [DecidableEq ι] in
theorem Linked.snoc (hother : ∀ p', p' ≠ p → s'.threads p' = s.threads p') (hnext : (s'.threads p).next = none) :
    ∀ {queue : List ι}, Linked s queue → p ∉ queue → (∀ a, queue.getLast? = some a → Joined s' a p) →
      Linked s' (queue ++ [p])
  | [], _, _, _ => hnext
  | [a], _, _, hj => ⟨hj a rfl, hnext⟩
  | a :: b :: queue, ⟨hab, h⟩, hp, hj => by
    have ha : a ≠ p := fun h => hp (by simp [h])
    have hb : b ≠ p := fun h => hp (by simp [h])
    refine ⟨?_, Linked.snoc hother hnext h (fun h => hp (by simp [h])) fun c hc => hj c ?_⟩
    · simpa only [Joined, hother a ha, hother b hb] using hab
    · rwa [getLast?_cons_cons]

namespace InvAt

variable (inv : InvAt s queue lease)
include inv

variable {t : Thread ι τ ρ}

omit [DecidableEq ι] in
theorem front_spins (hl : lease = some p ∨ lease = none) (hp : p ∉ queue)
    (hcares : (s.threads p).pc.cares = none) (hq : queue.head? = some c) :
    (s.threads c).pc = .acquire ∨ (s.threads c).pc = .spin := by
  rcases inv.front c hq with h | h | ⟨r, hr, h⟩
  · exact .inl h
  · exact .inr h
  · rcases hl with hl | hl <;> rw [hl] at hr
    · obtain rfl := Option.some.inj hr
      rcases h with rfl | h
      · exact absurd (mem_of_head? hq) hp
      · simp [hcares] at h
    · simp at hr

theorem flags
    (threads : ∀ p', s'.threads p' = if p' = p then t else s.threads p')
    (hp : (s.threads p).pc.parked = false) (ht : t.pc.parked = false) (hout : p ∉ queue)
    (hcares : (s.threads p).pc.cares = none) (hcares' : t.pc.cares = none)
    (hl : lease = some p ∨ lease = none) (hl' : lease' = some p ∨ lease' = none)
    (flag : s'.flag = lease'.isSome) (last : s'.last = s.last) (value : s'.value = s.value ∨ lease = some p)
    (ok : Ok s' queue lease' p) (leads : lease' = some p → Leads t)
    (notify : ∀ n after, (s.threads p).pc ≠ .notify n after) : InvAt s' queue lease' := by
  have hother : ∀ p', p' ≠ p → s'.threads p' = s.threads p' := fun p' h => by simp [threads, h]
  have hne : ∀ p', p' ≠ p → lease ≠ some p' ∧ lease' ≠ some p' := by
    intro p' hp'
    constructor
    · rcases hl with h | h <;> simp [h, Ne.symm hp']
    · rcases hl' with h | h <;> simp [h, Ne.symm hp']
  refine inv.shifts threads flag (last.trans inv.last) inv.nodup
    (inv.chain.own (fun p' _ => hother p') (fun h => absurd h hout) fun h => hout (mem_of_mem_tail h)) ok (fun _ _ h => h)
    (absurd · (inv.not_cared hp)) value leads ?_ (.inl ht) ?_ (fun _ h => .inl h) (fun _ h => h) id
    (.inl (hcares'.trans hcares.symm)) fun n after h => absurd h (notify n after)
  · intro c hq
    have hcp : c ≠ p := fun h => hout (h ▸ mem_of_head? hq)
    rw [hother c hcp]
    exact (inv.front_spins hl hout hcares hq).imp_right .inl
  · intro p' hp'
    exact ⟨fun h => absurd h (hne p' hp').2, fun h => absurd h (hne p' hp').1⟩

omit [DecidableEq ι] in
theorem free_of_flag (h : s.flag = false) : lease = none := by
  have := inv.flag
  rw [h] at this
  cases lease with
  | none => rfl
  | some _ => simp at this

theorem flag_taken {action : τ → ρ × τ} (hpc : (s.threads p).pc = .flag action)
    (hflag : s.flag = false) : InvAt ({ s with flag := true }.goto p (.fast action)) queue (some p) := by
  have hok := inv.ok p
  simp only [Ok, hpc] at hok
  refine inv.flags (p := p) (t := { s.threads p with pc := .fast action }) ?_ (by rw [hpc]; rfl) rfl hok.1.1
    (by rw [hpc]; rfl) rfl (.inr (inv.free_of_flag hflag)) (.inl rfl) rfl rfl (.inl rfl) ?_ (fun _ => trivial) (by simp [hpc])
  · exact on_own _ p _
  · simp only [Ok, goto_threads, if_true]
    exact ⟨trivial, hok.1.1, hok.2⟩

theorem fast_run {action : τ → ρ × τ} {value : τ}
    (hpc : (s.threads p).pc = .fast_run action value) : InvAt (s.thread_step p) queue lease := by
  have hok := inv.ok p
  simp only [Ok, hpc] at hok
  obtain ⟨hl, hout, hgiven, hseen, hvalue⟩ := hok
  simp only [thread_step, hpc]
  refine inv.flags (p := p) (t := { s.threads p with pc := .fast_clear (action value).1, seen := (s.threads p).seen ++ [value] })
    ?_ (by rw [hpc]; rfl) rfl hout (by rw [hpc]; rfl) rfl (.inl hl) (.inl hl) inv.flag rfl (.inr hl) ?_ (fun _ => trivial)
    (by simp [hpc])
  · exact on_own _ p _
  · simp only [Ok, on_threads, if_true]
    exact ⟨hl, hout, action, value, hgiven, by simp [hseen], rfl⟩

theorem fast_clear {result : ρ} (hpc : (s.threads p).pc = .fast_clear result) :
    InvAt (s.thread_step p) queue none := by
  have hok := inv.ok p
  simp only [Ok, hpc] at hok
  simp only [thread_step, hpc]
  refine inv.flags (p := p) (t := { s.threads p with pc := .returned result }) ?_ (by rw [hpc]; rfl) rfl hok.2.1
    (by rw [hpc]; rfl) rfl (.inl hok.1) (.inr rfl) rfl rfl (.inl rfl) ?_ (by simp) (by simp [hpc])
  · exact on_own _ p _
  · simp only [Ok, goto_threads, if_true]
    exact ⟨⟨hok.2.1, by simp⟩, hok.2.2⟩

theorem clear (hpc : (s.threads p).pc = .clear) : InvAt (s.thread_step p) queue none := by
  have hok := inv.ok p
  simp only [Ok, hpc] at hok
  simp only [thread_step, hpc]
  refine inv.flags (p := p) (t := { s.threads p with pc := .finish }) ?_ (by rw [hpc]; rfl) rfl hok.2.1
    (by rw [hpc]; rfl) rfl (.inl hok.1) (.inr rfl) rfl rfl (.inl rfl) ?_ (by simp) (by simp [hpc])
  · exact on_own _ p _
  · simp only [Ok, goto_threads, if_true]
    exact ⟨⟨hok.2.1, by simp⟩, hok.2.2⟩

theorem acquires (hpc : (s.threads p).pc = .acquire) (hflag : s.flag = false) :
    InvAt ({ s with flag := true }.goto p (.prefetch p)) queue (some p) := by
  have hok := inv.ok p
  simp only [Ok, hpc] at hok
  obtain ⟨hq, -, hfresh, hst⟩ := hok
  obtain rfl := inv.free_of_flag hflag
  have hp := parked_at hpc rfl
  have hother : ∀ p', p' ≠ p → ({ s with flag := true }.goto p (.prefetch p)).threads p' = s.threads p' :=
    fun p' h => by simp [h]
  refine inv.shifts (p := p) (t := { s.threads p with pc := .prefetch p }) ?_ rfl inv.last inv.nodup
    (inv.chain.own (fun p' _ => hother p') (fun _ => by simp) (not_mem_tail inv.nodup hq)) ?_ (fun _ _ h => h)
    (absurd · (inv.not_cared hp)) (.inl rfl) (fun _ => trivial) ?_ (.inl rfl) ?_ (fun _ h => .inl h) (fun _ h => h) id
    (.inr ⟨by rw [hpc]; rfl, rfl, by simp [Waits, hp]⟩) (by simp [hpc])
  · exact on_own _ p _
  · simp only [Ok, goto_threads, if_true]
    exact ⟨⟨rfl, hq, .inl ⟨rfl, by simp [hst]⟩⟩, hfresh⟩
  · intro c hc
    rw [hq] at hc
    exact .inr (.inr ⟨p, rfl, .inl (Option.some.inj hc)⟩)
  · intro p' hp'
    simp [Ne.symm hp']

theorem publish (hpc : (s.threads p).pc = .publish) :
    InvAt (s.thread_step p) (queue ++ [p]) lease := by
  have hok := inv.ok p
  simp only [Ok, hpc] at hok
  obtain ⟨⟨hout, hl⟩, hfresh, hnext, hst⟩ := hok
  have hp := parked_at hpc rfl
  simp only [thread_step, hpc]
  have hparked : (s.last.elim .acquire .link : Pc ι τ ρ).parked = false := by cases s.last <;> rfl
  have hcares : (s.last.elim .acquire .link : Pc ι τ ρ).cares = none := by cases s.last <;> rfl
  generalize hs' : Combining.goto _ p _ = s'
  have hthreads : ∀ p', s'.threads p' =
      if p' = p then { s.threads p with pc := s.last.elim .acquire .link } else s.threads p' := by
    intro p'
    rw [← hs', goto_threads]
    split
    · next h => rw [h]
    · rfl
  have hown : s'.threads p = { s.threads p with pc := s.last.elim .acquire .link } := by simp [hthreads]
  have hother : ∀ p', p' ≠ p → s'.threads p' = s.threads p' := fun p' h => by simp [hthreads, h]
  have hfronted : ∀ c, Fronted s lease c → Fronted s' lease c := by
    rintro c ⟨r, hr, h⟩
    have hrp : r ≠ p := fun h => hl (h ▸ hr)
    exact ⟨r, hr, by rwa [hother r hrp]⟩
  refine inv.shifts hthreads ?_ ?_ ?_ ?_ ?_ ?_ (absurd · (inv.not_cared hp)) (.inl ?_) (fun h => absurd h hl) ?_ (.inl hparked)
    (fun _ _ => Iff.rfl) ?_ ?_ ?_ (.inl (hcares.trans ?_)) (by simp [hpc])
  · rw [← hs']
    exact inv.flag
  · rw [← hs']
    simp [Combining.goto, Combining.on]
  · simpa using List.Nodup.concat hout inv.nodup
  · refine Linked.snoc hother (by rw [hown]; exact hnext) inv.chain hout fun a ha => ?_
    refine ⟨by rw [hown]; exact hfresh, .inl ⟨?_, ?_⟩⟩
    · rw [hown, inv.last, ha]
      rfl
    · have hap : a ≠ p := fun h => hout (h ▸ mem_of_getLast? ha)
      rw [hother a hap]
      exact inv.chain.last_next ha
  · cases hlast : s.last with
    | none =>
      have hq : queue = [] := by
        rw [inv.last] at hlast
        exact getLast?_eq_none_iff.mp hlast
      simp only [Ok, hown, hlast, Option.elim_none]
      exact ⟨by simp [hq], hl, hfresh, hst⟩
    | some a =>
      have hq : queue ≠ [] := by
        rintro rfl
        simp [inv.last] at hlast
      simp only [Ok, hown, hlast, Option.elim_some]
      exact ⟨hl, by simp [tail_append_of_ne_nil hq], hst⟩
  · intro p' hp' h
    simp [h, hp']
  · rw [← hs']
    rfl
  · intro c hc
    cases hq : queue with
    | nil =>
      have hcp : c = p := by simpa [hq, eq_comm] using hc
      have hlast : s.last = none := by simp [inv.last, hq]
      rw [hcp, hown, hlast]
      exact .inl rfl
    | cons a rest =>
      have hc' : queue.head? = some c := by simpa [hq] using hc
      have hcp : c ≠ p := fun h => hout (h ▸ mem_of_head? hc')
      rw [hother c hcp]
      exact (inv.front c hc').imp_right (Or.imp_right (hfronted c))
  · intro p' h
    exact .inl (by simp [head?_append, h])
  · intro p' h
    have hq : queue ≠ [] := by
      rintro rfl
      simp at h
    simp [tail_append_of_ne_nil hq, h]
  · simp only [length_append]
    omega
  · rw [hpc]
    rfl

theorem leaves (hpc : (s.threads p).pc = .leave c) (hlast : s.last = some c) :
    InvAt ({ s with last := none }.goto p (.wake c .done .clear)) [] lease := by
  have hok := inv.ok p
  simp only [Ok, hpc] at hok
  obtain ⟨⟨hl, hq, hminds⟩, hserved⟩ := hok
  have hp := parked_at hpc rfl
  have hcares := cares_at hpc rfl
  obtain rfl := inv.alone_of_last hq hlast
  have hkept : ∀ x, Kept (s.threads x) (({ s with last := none }.goto p (.wake c .done .clear)).threads x) :=
    fun x => kept_goto (s := s) hp _ x
  refine inv.shifts (p := p) (t := { s.threads p with pc := .wake c .done .clear }) ?_ inv.flag rfl nodup_nil trivial ?_
    (by simp) (absurd · (inv.not_cared hp)) (.inl rfl) (fun _ => trivial) (by simp) (.inl rfl) (fun _ _ => Iff.rfl) ?_ (by simp)
    (by simp) (.inl hcares.symm) (by simp [hpc])
  · exact on_own _ p _
  · simp only [Ok, goto_threads, if_true]
    refine ⟨hl, by simp, by simp, ?_, (hkept c).served hserved, ?_⟩
    · rintro hcp hl'
      rw [hl] at hl'
      exact hcp (Option.some.inj hl').symm
    · rcases hminds with ⟨h1, h2⟩ | ⟨h1, h2, h3, h4⟩
      · exact .inl ⟨h1, by simpa using h2⟩
      · exact .inr ⟨h1, (hkept c).waits h2, by simp, (hkept p).served h4⟩
  · intro p' hp'
    obtain rfl : c = p' := by simpa using hp'
    refine .inr ⟨?_, fun r hr hrc => hr (inv.care r p c hrc hcares)⟩
    rcases hminds with ⟨h, -⟩ | ⟨-, h, -⟩
    · exact .inl h
    · exact .inr h

end InvAt

end Combining

end Rallocator
