import Oxidizer.Rallocator.CombiningLease
/-!
# Steps of the combining lock

Each step keeps the invariant, for a queue and a lease that it may change.
-/

namespace Rallocator

open List

namespace Combining
variable {ι τ ρ : Type} [DecidableEq ι]

variable (s : Combining ι τ ρ)

@[simp] theorem on_threads (p p' : ι) (f : Thread ι τ ρ → Thread ι τ ρ) :
    (s.on p f).threads p' = if p' = p then f (s.threads p') else s.threads p' := rfl

@[simp] theorem goto_threads (p p' : ι) (pc : Pc ι τ ρ) :
    (s.goto p pc).threads p' = if p' = p then { s.threads p' with pc } else s.threads p' := rfl

theorem on_own (p : ι) (f : Thread ι τ ρ → Thread ι τ ρ) (p' : ι) :
    (s.on p f).threads p' = if p' = p then f (s.threads p) else s.threads p' := by
  rw [on_threads]
  split
  · next h => rw [h]
  · rfl

variable {s s' : Combining ι τ ρ} {queue queue' : List ι} {lease lease' : Option ι} {p c n : ι} {pc : Pc ι τ ρ}

omit [DecidableEq ι] in
theorem Minds.keep (h : Minds s queue p c) (hk : ∀ x, Kept (s.threads x) (s'.threads x))
    (hst : (s'.threads p).status = (s.threads p).status) : Minds s' queue p c := by
  rcases h with ⟨h1, h2⟩ | ⟨h1, h2, h3, h4⟩
  · exact .inl ⟨h1, by rwa [hst]⟩
  · exact .inr ⟨h1, (hk c).waits h2, h3, (hk p).served h4⟩

omit [DecidableEq ι] in
theorem Heads.keep (h : Heads s queue lease p c) (hk : ∀ x, Kept (s.threads x) (s'.threads x))
    (hst : (s'.threads p).status = (s.threads p).status) : Heads s' queue lease p c :=
  ⟨h.1, h.2.1, h.2.2.keep hk hst⟩

theorem kept_goto (h : (s.threads p).pc.parked = false) (pc : Pc ι τ ρ) (x : ι) :
    Kept (s.threads x) ((s.goto p pc).threads x) := by
  rw [goto_threads]
  split
  · next hx =>
    refine ⟨fun hw => ?_, rfl, rfl, rfl, rfl, fun _ => rfl⟩
    rw [hx] at hw
    simp [Waits, h] at hw
  · exact Kept.refl _

theorem Heads.goto (h : Heads s queue lease p c) (hp : (s.threads p).pc.parked = false) (pc : Pc ι τ ρ) :
    Heads (s.goto p pc) queue lease p c := h.keep (kept_goto hp pc) (by simp)

omit [DecidableEq ι] in
theorem parked_at (hpc : (s.threads p).pc = pc) (h : pc.parked = false) : (s.threads p).pc.parked = false := by rw [hpc, h]

omit [DecidableEq ι] in
theorem cares_at (hpc : (s.threads p).pc = pc) (h : pc.cares = some c) : (s.threads p).pc.cares = some c := by rw [hpc, h]

omit [DecidableEq ι] in
theorem parked_cares (h : pc.parked = true) : pc.cares = none := by
  cases pc <;> simp_all [Pc.parked, Pc.cares]

/-- The places of a thread that has no node in the queue and no part in the lease. -/
def Pc.apart : Pc ι τ ρ → Bool
  | .idle | .enter _ | .flag _ | .publish | .woke | .finish | .returned _ => true
  | _ => false

namespace InvAt

variable (inv : InvAt s queue lease)
include inv

omit [DecidableEq ι] in
theorem not_cared (h : (s.threads p).pc.parked = false) :
    ¬∃ r, r ≠ p ∧ (s.threads r).pc.cares = some p := by
  rintro ⟨r, hr, hc⟩
  have := inv.care_waits hc (Ne.symm hr)
  simp [Waits, h] at this

section Shift
variable {t u : Thread ι τ ρ} (alone : ∀ p', s'.threads p' = if p' = p then t else s.threads p')
  (threads : ∀ p', s'.threads p' = if p' = p then t else if p' = n then u else s.threads p')
  (flag : s'.flag = lease'.isSome) (last : s'.last = queue'.getLast?) (nodup : queue'.Nodup) (chain : Linked s' queue')
  (ok : Ok s' queue' lease' p) (out : ∀ p', p' ≠ p → p' ∉ queue → p' ∉ queue')
  (kept : (∃ r, r ≠ p ∧ (s.threads r).pc.cares = some p) →
    Kept (s.threads p) t ∧ (p ∉ queue → p ∉ queue') ∧ (lease ≠ some p → lease' ≠ some p))
  (value : s'.value = s.value ∨ lease = some p) (leads : lease' = some p → Leads t)
  (front : ∀ c, queue'.head? = some c → (s'.threads c).pc = .acquire ∨ (s'.threads c).pc = .spin ∨ Fronted s' lease' c)
  (parks : t.pc.parked = false ∨
    (Waits t → (p ∈ queue'.tail ∨ ∃ r, r ≠ p ∧ (s.threads r).pc.cares = some p) ∧ (t.status = .sleeping ↔ t.pc = .asleep)) ∧
    (t.pc = .asleep → t.status = .sleeping ∨ t.woken = true ∨ ∃ r after, (s'.threads r).pc = .notify p after))
include flag last nodup chain ok out kept value leads front parks

include threads in
/-- A step of `p`, perhaps on the node of another thread `n`: what is to be shown. -/
theorem pair (ok' : n ≠ p → Ok s' queue' lease' n)
    (leased : ∀ p', p' ≠ p → p' ≠ n → (lease' = some p' ↔ lease = some p'))
    (head : ∀ p', queue.head? = some p' → queue'.head? = some p' ∨
      (p' = p ∨ p' = n ∨ Waits (s.threads p')) ∧ ∀ r ≠ p, (s.threads r).pc.cares ≠ some p')
    (tail : ∀ p', p' ≠ p → p' ∈ queue.tail →
      p' ∈ queue'.tail ∨ p' = n ∧ ¬Waits u ∨ Waits (s.threads p') ∧ t.pc.cares = some p')
    (keep : n ≠ p → (∃ r, r ≠ p ∧ (s.threads r).pc.cares = some n) → Kept (s.threads n) u ∧ (lease ≠ some n → lease' ≠ some n))
    (length : (2 ≤ queue.length → 2 ≤ queue'.length) ∨ lease = some p)
    (upc : n ≠ p → u.pc = (s.threads n).pc)
    (cares : ∀ c, t.pc.cares = some c → (s.threads p).pc.cares = some c ∨ ∀ r ≠ p, (s.threads r).pc.cares ≠ some c)
    (lost : ∀ c, (s.threads p).pc.cares = some c → t.pc.cares = some c ∨ c = p ∨ c = n ∧ ¬Waits u)
    (leads' : n ≠ p → lease' = some n → Leads u)
    (waits : n ≠ p → Waits u → Waits (s.threads n) ∧ u.status = (s.threads n).status)
    (noticed : n ≠ p → u.pc = .asleep → u.status = (s.threads n).status ∧ u.woken = (s.threads n).woken ∨ u.woken = true ∨
      ∃ after, t.pc = .notify n after)
    (notify : ∀ m after, (s.threads p).pc = .notify m after → m = n ∧ (n ≠ p → u.woken = true)) : InvAt s' queue' lease' := by
  have hpt : s'.threads p = t := by simp [threads]
  have hnt : n ≠ p → s'.threads n = u := fun h => by simp [threads, h]
  have hother : ∀ p', p' ≠ p → p' ≠ n → s'.threads p' = s.threads p' := fun p' h h' => by simp [threads, h, h']
  have hpc : ∀ p', p' ≠ p → (s'.threads p').pc = (s.threads p').pc := by
    intro p' hp'
    by_cases hn : p' = n
    · have hne : n ≠ p := hn ▸ hp'
      rw [hn, hnt hne, upc hne]
    · rw [hother p' hp' hn]
  refine ⟨flag, last, nodup, chain, ?_, ?_, ?_, front, ?_, ?_, ?_⟩
  · intro p'
    by_cases hpp : p' = p
    · exact hpp ▸ ok
    by_cases hpn : p' = n
    · exact hpn ▸ ok' (hpn ▸ hpp)
    refine (inv.ok p').frame ⟨.of_eq (hother p' hpp hpn), leased p' hpp hpn, out p' hpp, ?_, ?_, ?_, ?_, ?_, ?_, ?_, ?_⟩
    · intro hw hq
      rcases head p' hq with h | ⟨h | h | h, -⟩
      · exact h
      · exact absurd h hpp
      · exact absurd h hpn
      · exact absurd h hw
    · intro hw ht
      rcases tail p' hpp ht with h | ⟨h, -⟩ | ⟨h, -⟩
      · exact h
      · exact absurd h hpn
      · exact absurd h hw
    · intro c hc hcp
      by_cases hcp' : c = p
      · subst hcp'
        rw [hpt]
        exact (kept ⟨p', hpp, hc⟩).1
      by_cases hcn : c = n
      · have hne : n ≠ p := hcn ▸ hcp'
        rw [hcn, hnt hne]
        exact (keep hne ⟨p', hpp, hcn ▸ hc⟩).1
      · rw [hother c hcp' hcn]
        exact Kept.refl _
    · intro c hc hq
      exact (head c hq).resolve_right fun h => h.2 p' hpp hc
    · intro c hc
      by_cases hcp' : c = p
      · exact hcp' ▸ (kept ⟨p', hpp, hcp' ▸ hc⟩).2.1
      · exact out c hcp'
    · intro c hc hl
      by_cases hcp' : c = p
      · exact hcp' ▸ (kept ⟨p', hpp, hcp' ▸ hc⟩).2.2 (hcp' ▸ hl)
      by_cases hcn : c = n
      · exact hcn ▸ (keep (hcn ▸ hcp') ⟨p', hpp, hcn ▸ hc⟩).2 (hcn ▸ hl)
      · exact fun h => hl ((leased c hcp' hcn).mp h)
    · intro hl
      refine value.resolve_right fun h => hpp ?_
      rw [h] at hl
      exact (Option.some.inj hl).symm
    · intro hl
      refine length.resolve_right fun h => hpp ?_
      rw [h] at hl
      exact (Option.some.inj hl).symm
  · -- nobody else has what the thread takes into its care
    have huniq : ∀ r c, r ≠ p → (s.threads r).pc.cares = some c → t.pc.cares ≠ some c := by
      intro r c hr hc ht
      rcases cares c ht with h | h
      · exact hr (inv.care r p c hc h)
      · exact h r hr hc
    intro r r' c hr hr'
    by_cases hrp : r = p <;> by_cases hrp' : r' = p
    · rw [hrp, hrp']
    · rw [hrp, hpt] at hr
      rw [hpc r' hrp'] at hr'
      exact absurd hr (huniq r' c hrp' hr')
    · rw [hpc r hrp] at hr
      rw [hrp', hpt] at hr'
      exact absurd hr' (huniq r c hrp hr)
    · rw [hpc r hrp] at hr
      rw [hpc r' hrp'] at hr'
      exact inv.care r r' c hr hr'
  · intro p' hl
    by_cases hpp : p' = p
    · rw [hpp, hpt]
      exact leads (hpp ▸ hl)
    by_cases hpn : p' = n
    · have hne : n ≠ p := hpn ▸ hpp
      rw [hpn, hnt hne]
      exact leads' hne (hpn ▸ hl)
    · rw [hother p' hpp hpn]
      exact inv.leads p' ((leased p' hpp hpn).mp hl)
  · intro p' hw
    by_cases hpp : p' = p
    · rw [hpp, hpt] at hw
      rcases ((parks.resolve_left (by simp [hw.1])).1 hw).1 with h | ⟨r, hr, h⟩
      · exact hpp ▸ .inl h
      · exact hpp ▸ .inr ⟨r, by rwa [hpc r hr]⟩
    have hw' : Waits (s.threads p') := by
      by_cases hpn : p' = n
      · have hne : n ≠ p := hpn ▸ hpp
        rw [hpn, hnt hne] at hw
        exact hpn ▸ (waits hne hw).1
      · rwa [hother p' hpp hpn] at hw
    have hnot : ¬(p' = n ∧ ¬Waits u) := by
      rintro ⟨rfl, h⟩
      rw [hnt hpp] at hw
      exact h hw
    rcases inv.parked p' hw' with h | ⟨r, hr⟩
    · rcases tail p' hpp h with h | h | ⟨-, h⟩
      · exact .inl h
      · exact absurd h hnot
      · exact .inr ⟨p, by rwa [hpt]⟩
    · by_cases hrp : r = p
      · rcases lost p' (hrp ▸ hr) with h | h | h
        · exact .inr ⟨p, by rwa [hpt]⟩
        · exact absurd h hpp
        · exact absurd h hnot
      · exact .inr ⟨r, by rwa [hpc r hrp]⟩
  · intro p' hw
    by_cases hpp : p' = p
    · rw [hpp, hpt] at hw ⊢
      exact ((parks.resolve_left (by simp [hw.1])).1 hw).2
    by_cases hpn : p' = n
    · have hne : n ≠ p := hpn ▸ hpp
      rw [hpn, hnt hne] at hw ⊢
      rw [(waits hne hw).2, upc hne]
      exact inv.slept n (waits hne hw).1
    · rw [hother p' hpp hpn] at hw ⊢
      exact inv.slept p' hw
  · intro p' has
    by_cases hpp : p' = p
    · rw [hpp, hpt] at has ⊢
      exact (parks.resolve_left (by simp [has, Pc.parked])).2 has
    -- the notification of this step, if it is one, is delivered
    have hnotify : ∀ r after, (s.threads r).pc = .notify p' after →
        (s'.threads p').woken = true ∨ (s'.threads r).pc = .notify p' after := by
      intro r after hr
      by_cases hrp : r = p
      · subst hrp
        obtain ⟨rfl, hw⟩ := notify p' after hr
        exact .inl (by rw [hnt hpp]; exact hw hpp)
      · exact .inr (by rwa [hpc r hrp])
    have hnotify' : (∃ r after, (s.threads r).pc = .notify p' after) →
        (s'.threads p').woken = true ∨ ∃ r after, (s'.threads r).pc = .notify p' after := by
      rintro ⟨r, after, hr⟩
      exact (hnotify r after hr).imp_right fun h => ⟨r, after, h⟩
    by_cases hpn : p' = n
    · subst hpn
      have has' := has
      rw [hnt hpp] at has'
      rcases noticed hpp has' with ⟨h1, h2⟩ | h | ⟨after, h⟩
      · have := inv.noticed p' (by rwa [← upc hpp])
        rw [hnt hpp] at hnotify' ⊢
        rw [h1, h2]
        rw [h2] at hnotify'
        rcases this with h | h | h
        · exact .inl h
        · exact .inr (.inl h)
        · exact .inr (hnotify' h)
      · exact .inr (.inl (by rwa [hnt hpp]))
      · exact .inr (.inr ⟨p, after, by rwa [hpt]⟩)
    · rw [hpc p' hpp] at has
      rcases inv.noticed p' has with h | h | h
      · exact .inl (by rwa [hother p' hpp hpn])
      · exact .inr (.inl (by rwa [hother p' hpp hpn]))
      · exact .inr (hnotify' h)

include alone in
theorem shifts (leased : ∀ p', p' ≠ p → (lease' = some p' ↔ lease = some p'))
    (head : ∀ p', queue.head? = some p' → queue'.head? = some p' ∨
      (p' = p ∨ Waits (s.threads p')) ∧ ∀ r ≠ p, (s.threads r).pc.cares ≠ some p')
    (tail : ∀ p', p' ∈ queue.tail → p' ∈ queue'.tail) (length : 2 ≤ queue.length → 2 ≤ queue'.length)
    (cares : t.pc.cares = (s.threads p).pc.cares ∨
      (s.threads p).pc.cares = none ∧ t.pc.cares = some p ∧ ¬Waits (s.threads p))
    (notify : ∀ n after, (s.threads p).pc = .notify n after → n = p) : InvAt s' queue' lease' := by
  refine inv.pair (n := p) (u := t) (fun p' => ?_) flag last nodup chain ok out kept value leads front parks (absurd rfl)
    (fun p' h _ => leased p' h) (fun p' h => (head p' h).imp_right (And.imp_left (Or.imp_right .inr)))
    (fun p' _ h => .inl (tail p' h)) (absurd rfl) (.inl length) (absurd rfl) ?_ ?_ (absurd rfl) (absurd rfl) (absurd rfl)
    fun n after h => ⟨notify n after h, absurd rfl⟩
  · rw [alone]
    split <;> rfl
  · intro c hc
    rcases cares with h | ⟨-, h, hno⟩
    · exact .inl (h ▸ hc)
    · obtain rfl : p = c := Option.some.inj (h.symm.trans hc)
      exact .inr fun r hr h => hno (inv.care_waits h (Ne.symm hr))
  · intro c hc
    rcases cares with h | ⟨h, -⟩
    · exact .inl (h ▸ hc)
    · exact absurd (h.symm.trans hc) nofun

end Shift

theorem stays {t : Thread ι τ ρ}
    (threads : ∀ p', s'.threads p' = if p' = p then t else s.threads p')
    (flag : s'.flag = s.flag) (last : s'.last = s.last) (value : s'.value = s.value)
    (ok : Ok s' queue lease p)
    (keep : (p ∈ queue ∨ ∃ r, r ≠ p ∧ (s.threads r).pc.cares = some p) →
      Kept (s.threads p) t ∧ t.next = (s.threads p).next)
    (link : ∀ a, (s.threads p).pc ≠ .link a)
    (cares : t.pc.cares = (s.threads p).pc.cares ∨
      (s.threads p).pc.cares = none ∧ t.pc.cares = some p ∧ ¬Waits (s.threads p))
    (leads : lease = some p → Leads t)
    (front : queue.head? = some p → t.pc = .acquire ∨ t.pc = .spin ∨ Fronted s lease p)
    (waits : Waits t → Waits (s.threads p)) (slept : Waits t → (t.status = .sleeping ↔ t.pc = .asleep))
    (noticed : t.pc = .asleep → t.status = .sleeping ∨ t.woken = true ∨ ∃ r after, (s.threads r).pc = .notify p after)
    (notify : ∀ n after, (s.threads p).pc ≠ .notify n after) : InvAt s' queue lease := by
  have hp : s'.threads p = t := by simp [threads]
  have hother : ∀ p', p' ≠ p → s'.threads p' = s.threads p' := fun p' h => by simp [threads, h]
  have hcares : ∀ r c, (s.threads r).pc.cares = some c → (s'.threads r).pc.cares = some c := by
    intro r c hr
    by_cases hrp : r = p
    · subst hrp
      rw [hp]
      rcases cares with h | ⟨h, -⟩
      · rwa [h]
      · simp [h] at hr
    · rwa [hother r hrp]
  refine inv.shifts threads (flag.trans inv.flag) (last.trans inv.last) inv.nodup ?_ ok (fun _ _ => id)
    (fun h => ⟨(keep (.inr h)).1, id, id⟩) (.inl value) leads (fun c hc => ?_)
    (.inr ⟨fun hw => ⟨?_, slept hw⟩, fun h => ?_⟩) (fun _ _ => Iff.rfl) (fun _ => .inl) (fun _ => id) id cares
    fun n after h => absurd h (notify n after)
  · refine inv.chain.congr (fun a ha => ?_) fun b hb => ?_
    · by_cases hap : a = p
      · subst hap
        rw [hp]
        exact (keep (.inl ha)).2
      · rw [hother a hap]
    · by_cases hbp : b = p
      · subst hbp
        obtain ⟨hk, -⟩ := keep (.inl (mem_of_mem_tail hb))
        rw [hp]
        exact ⟨hk.fresh, hk.waits, fun a h => absurd h (link a)⟩
      · rw [hother b hbp]
        exact ⟨id, id, fun _ => id⟩
  · -- whoever serves the front still does
    have hfronted : Fronted s lease c → Fronted s' lease c := fun ⟨r, hl, hr⟩ => ⟨r, hl, hr.imp_right (hcares r c)⟩
    by_cases hcp : c = p
    · subst hcp
      rw [hp]
      exact (front hc).imp_right (Or.imp_right hfronted)
    · rw [hother c hcp]
      exact (inv.front c hc).imp_right (Or.imp_right hfronted)
  · refine (inv.parked p (waits hw)).imp_right fun ⟨r, hr⟩ => ⟨r, ?_, hr⟩
    rintro rfl
    simp [parked_cares (waits hw).1] at hr
  · refine (noticed h).imp_right (Or.imp_right fun ⟨r, after, hr⟩ => ⟨r, after, ?_⟩)
    have hrp : r ≠ p := fun h => notify p after (h ▸ hr)
    rwa [hother r hrp]

theorem goto {pc₀ : Pc ι τ ρ} (hpc : (s.threads p).pc = pc₀) (hp : pc₀.parked = false) (hpc' : pc.parked = false)
    (ok : Ok (s.goto p pc) queue lease p) (link : ∀ a, pc₀ ≠ .link a)
    (cares : pc.cares = pc₀.cares ∨ pc₀.cares = none ∧ pc.cares = some p)
    (leads : lease = some p → Leads { s.threads p with pc })
    (front : queue.head? = some p → pc = .acquire ∨ pc = .spin ∨ Fronted s lease p)
    (notify : ∀ n after, pc₀ ≠ .notify n after) : InvAt (s.goto p pc) queue lease := by
  subst hpc
  have hno : ¬Waits (s.threads p) := by simp [Waits, hp]
  refine inv.stays (t := { s.threads p with pc }) ?_ rfl rfl rfl ok ?_ link ?_ leads front ?_ ?_ ?_ notify
  · exact on_own s p _
  · exact fun _ => ⟨⟨fun h => absurd h hno, rfl, rfl, rfl, rfl, fun _ => rfl⟩, rfl⟩
  · exact cares.imp_right fun h => ⟨h.1, h.2, hno⟩
  · simp [Waits, hpc']
  · simp [Waits, hpc']
  · intro h
    subst h
    simp [Pc.parked] at hpc'

/-! ## Before and after the queue -/

omit [DecidableEq ι] inv in
theorem apart_spec (h : pc.apart = true) :
    pc.parked = false ∧ pc.cares = none ∧ (∀ a, pc ≠ .link a) ∧ ∀ n after, pc ≠ .notify n after := by
  cases pc <;> first | (cases h; done) | exact ⟨rfl, rfl, nofun, nofun⟩

theorem outside {f : Thread ι τ ρ → Thread ι τ ρ} (hpc : (s.threads p).pc = pc) (hp : pc.apart = true)
    (hf : (f (s.threads p)).pc.apart = true) (hout : Out queue lease p) (ok : Ok (s.on p f) queue lease p) :
    InvAt (s.on p f) queue lease := by
  subst hpc
  obtain ⟨hparked, hcares, hlink, hnotify⟩ := apart_spec hp
  obtain ⟨hparked', hcares', -, -⟩ := apart_spec hf
  have hno := inv.not_cared hparked
  refine inv.stays (on_own s p f) rfl rfl rfl ok ?_ hlink (.inl (hcares'.trans hcares.symm)) ?_ ?_ ?_ ?_ ?_ hnotify
  · exact fun h => (h.elim hout.1 hno).elim
  · exact fun h => absurd h hout.2
  · exact fun h => absurd (mem_of_head? h) hout.1
  · simp [Waits, hparked']
  · simp [Waits, hparked']
  · intro h
    simp [h, Pc.parked] at hparked'

theorem call (hpc : (s.threads p).pc = .idle) (action : τ → ρ × τ) :
    InvAt (s.on p fun t => { t with pc := .enter action, given := some action, seen := [] }) queue lease := by
  have hok := inv.ok p
  simp only [Ok, hpc] at hok
  refine inv.outside hpc rfl rfl hok ?_
  simp only [Ok, on_threads, if_true]
  exact ⟨hok, by simp⟩

variable {action : τ → ρ × τ}

theorem prepares (hok : Out queue lease p)
    (hgiven : (s.threads p).given = some action) (hseen : (s.threads p).seen = [])
    (hpc : (s.threads p).pc = .enter action ∨ (s.threads p).pc = .flag action) :
    InvAt (s.prepare p action) queue lease := by
  refine inv.outside rfl (by rcases hpc with h | h <;> rw [h] <;> rfl) rfl hok ?_
  simp only [Ok, on_threads, if_true]
  exact ⟨hok, ⟨action, hgiven, rfl, hseen⟩, by simp⟩

theorem enter (hpc : (s.threads p).pc = .enter action) :
    InvAt (s.thread_step p) queue lease := by
  have hok := inv.ok p
  simp only [Ok, hpc] at hok
  simp only [thread_step, hpc]
  split
  · refine inv.outside hpc rfl rfl hok.1 ?_
    simp only [Ok, on_threads, if_true]
    exact hok
  · exact inv.prepares hok.1 hok.2.1 hok.2.2 (.inl hpc)

theorem fast (hpc : (s.threads p).pc = .fast action) :
    InvAt (s.thread_step p) queue lease := by
  have hok := inv.ok p
  unfold Ok at hok
  simp only [hpc] at hok
  unfold thread_step
  simp only [hpc]
  refine inv.goto hpc rfl rfl ?_ nofun (.inl rfl) (fun _ => trivial) (fun h => absurd (mem_of_head? h) hok.2.1) nofun
  unfold Ok
  simp only [goto_threads, if_true]
  exact ⟨hok.1, hok.2.1, hok.2.2.1, hok.2.2.2, rfl⟩

theorem finish (hpc : (s.threads p).pc = .finish) : InvAt (s.thread_step p) queue lease := by
  have hok := inv.ok p
  simp only [Ok, hpc] at hok
  obtain ⟨hout, action, value, hgiven, -, hseen, hresult⟩ := hok
  simp only [thread_step, hpc, hresult, Option.elim_some]
  refine inv.outside hpc rfl rfl hout ?_
  simp only [Ok, on_threads, if_true]
  exact ⟨hout, action, value, hgiven, hseen, rfl⟩

theorem returned {result : ρ} (hpc : (s.threads p).pc = .returned result) :
    InvAt (s.thread_step p) queue lease := by
  have hok := inv.ok p
  simp only [Ok, hpc] at hok
  simp only [thread_step, hpc]
  refine inv.outside hpc rfl rfl hok.1 ?_
  simp only [Ok, on_threads, if_true]
  exact hok.1

/-! ## Waiting -/

theorem spins (hpc : (s.threads p).pc = .acquire ∨ (s.threads p).pc = .spin)
    (hto : pc = .acquire ∨ pc = .spin) : InvAt (s.goto p pc) queue lease := by
  have hok : queue.head? = some p ∧ lease ≠ some p ∧ Fresh (s.threads p) ∧ (s.threads p).status = .waiting := by
    have := inv.ok p
    rcases hpc with h | h <;> simpa only [Ok, h] using this
  have hplain : (s.threads p).pc.parked = false ∧ (s.threads p).pc.cares = none := by
    rcases hpc with h | h <;> rw [h] <;> exact ⟨rfl, rfl⟩
  refine inv.goto rfl hplain.1 ?_ ?_ ?_ (.inl ?_) (fun h => absurd h hok.2.1) (fun _ => by tauto) ?_
  · rcases hto with rfl | rfl <;> rfl
  · rcases hto with rfl | rfl <;> simp only [Ok, goto_threads, if_true] <;> exact hok
  · rcases hpc with h | h <;> simp [h]
  · rw [hplain.2]
    rcases hto with rfl | rfl <;> rfl
  · rcases hpc with h | h <;> simp [h]

variable (hp : (s.threads p).pc.parked = true)
include hp

omit [DecidableEq ι] in
theorem holding : Holding queue lease p (s.threads p) := by
  have hok := inv.ok p
  cases hpc : (s.threads p).pc <;> simp [hpc, Pc.parked] at hp <;> simpa only [Ok, hpc] using hok

omit [DecidableEq ι] inv hp in
theorem parked_leads {t : Thread ι τ ρ} (h : t.pc.parked = true) : Leads t ↔ t.status = .head := by
  cases hpc : t.pc <;> simp_all [Pc.parked, Leads]

omit [DecidableEq ι] in
theorem parked_front (hq : queue.head? = some p) :
    Fronted s lease p := by
  rcases inv.front p hq with h | h | h
  · simp [h, Pc.parked] at hp
  · simp [h, Pc.parked] at hp
  · exact h

theorem waits_on (hsleep : (s.threads p).pc ≠ .asleep)
    (hpc : pc = .sleep ∨ ∃ left, pc = .wait left) : InvAt (s.goto p pc) queue lease := by
  have hparked : pc.parked = true := by
    rcases hpc with rfl | ⟨_, rfl⟩ <;> rfl
  have hwaits : Waits { s.threads p with pc } ↔ Waits (s.threads p) := by simp [Waits, hparked, hp]
  refine inv.stays (p := p) (t := { s.threads p with pc }) ?_ rfl rfl rfl ?_ ?_ ?_ ?_ ?_ ?_ ?_ ?_ ?_ ?_
  · exact on_own s p _
  · have := inv.holding hp
    rcases hpc with rfl | ⟨_, rfl⟩ <;> simp only [Ok, goto_threads, if_true] <;> exact this
  · exact fun _ => ⟨⟨hwaits.mpr, rfl, rfl, rfl, rfl, fun _ => rfl⟩, rfl⟩
  · rintro a h
    simp [h, Pc.parked] at hp
  · exact .inl ((parked_cares hparked).trans (parked_cares hp).symm)
  · intro hl
    exact (parked_leads (t := { s.threads p with pc }) hparked).mpr ((parked_leads hp).mp (inv.leads p hl))
  · exact fun hq => .inr (.inr (inv.parked_front hp hq))
  · exact hwaits.mp
  · intro hw
    have := inv.slept p (hwaits.mp hw)
    rcases hpc with rfl | ⟨_, rfl⟩ <;> simpa [hsleep] using this
  · rcases hpc with rfl | ⟨_, rfl⟩ <;> simp
  · rintro n after h
    simp [h, Pc.parked] at hp

omit hp in
theorem sleeps (hpc : (s.threads p).pc = .sleep) (hst : (s.threads p).status = .waiting) :
    InvAt (s.on p fun t => { t with pc := .asleep, status := .sleeping, woken := false }) queue lease := by
  have hp : (s.threads p).pc.parked = true := by rw [hpc]; rfl
  have hl : lease ≠ some p := by simpa only [Holding, hst] using inv.holding hp
  have hwaits : Waits (s.threads p) := ⟨hp, .inl hst⟩
  refine inv.stays (p := p) (t := { s.threads p with pc := .asleep, status := .sleeping, woken := false })
    ?_ rfl rfl rfl ?_ ?_ ?_ ?_ ?_ ?_ ?_ ?_ ?_ ?_
  · exact on_own s p _
  · simpa only [Ok, Holding, on_threads, if_true] using hl
  · exact fun _ => ⟨⟨fun _ => ⟨rfl, .inr rfl⟩, rfl, rfl, rfl, rfl, fun _ => rfl⟩, rfl⟩
  · simp [hpc]
  · simp [hpc, Pc.cares]
  · exact fun h => absurd h hl
  · exact fun hq => .inr (.inr (inv.parked_front hp hq))
  · exact fun _ => hwaits
  · simp
  · simp
  · simp [hpc]

theorem wakes_up
    (hst : (s.threads p).status = .head ∨ (s.threads p).status = .done) : InvAt (s.goto p .woke) queue lease := by
  have hhold := inv.holding hp
  have hno : ¬Waits (s.threads p) := by rcases hst with h | h <;> simp [Waits, h]
  refine inv.stays (p := p) (t := { s.threads p with pc := .woke }) ?_ rfl rfl rfl ?_ ?_ ?_ ?_ ?_ ?_ ?_ ?_ ?_ ?_
  · exact on_own s p _
  · simp only [Ok, goto_threads, if_true]
    rcases hst with h | h <;> simp only [Holding, h] at hhold
    · exact .inl ⟨h, hhold⟩
    · exact .inr ⟨h, hhold⟩
  · exact fun _ => ⟨⟨fun h => absurd h hno, rfl, rfl, rfl, rfl, fun _ => rfl⟩, rfl⟩
  · rintro a h
    simp [h, Pc.parked] at hp
  · exact .inl (parked_cares hp).symm
  · exact fun hl => (parked_leads hp).mp (inv.leads p hl)
  · exact fun hq => .inr (.inr (inv.parked_front hp hq))
  · simp [Waits, Pc.parked]
  · simp [Waits, Pc.parked]
  · simp
  · rintro n after h
    simp [h, Pc.parked] at hp

omit [DecidableEq ι] in
theorem status_of_awake
    (hst : (s.threads p).status ≠ .waiting) (h : (s.threads p).pc ≠ .asleep ∨ (s.threads p).status ≠ .sleeping) :
    (s.threads p).status = .head ∨ (s.threads p).status = .done := by
  have hslept : (s.threads p).status ≠ .sleeping := by
    intro hs
    exact h.elim (fun h => h ((inv.slept p ⟨hp, .inr hs⟩).mp hs)) (fun h => h hs)
  cases hs : (s.threads p).status <;> simp_all

omit hp

theorem wait {left : Nat} (hpc : (s.threads p).pc = .wait left) :
    InvAt (s.thread_step p) queue lease := by
  have hp : (s.threads p).pc.parked = true := by rw [hpc]; rfl
  cases left with
  | zero =>
    simp only [thread_step, hpc]
    exact inv.waits_on hp (by simp [hpc]) (.inl rfl)
  | succ left =>
    simp only [thread_step, hpc]
    split
    · exact inv.waits_on hp (by simp [hpc]) (.inr ⟨left, rfl⟩)
    · next hst => exact inv.wakes_up hp (inv.status_of_awake hp hst (.inl (by simp [hpc])))

theorem sleep (hpc : (s.threads p).pc = .sleep) : InvAt (s.thread_step p) queue lease := by
  have hp : (s.threads p).pc.parked = true := by rw [hpc]; rfl
  simp only [thread_step, hpc]
  split
  · next hst => exact inv.sleeps hpc hst
  · next hst => exact inv.wakes_up hp (inv.status_of_awake hp hst (.inl (by simp [hpc])))

theorem asleep (hpc : (s.threads p).pc = .asleep) (hst : (s.threads p).status ≠ .sleeping) :
    InvAt (s.thread_step p) queue lease := by
  have hp : (s.threads p).pc.parked = true := by rw [hpc]; rfl
  simp only [thread_step, hpc]
  refine inv.wakes_up hp (inv.status_of_awake hp (fun h => hst ?_) (.inr hst))
  exact (inv.slept p ⟨hp, .inl h⟩).mpr hpc

theorem woke (hpc : (s.threads p).pc = .woke) : InvAt (s.thread_step p) queue lease := by
  have hok := inv.ok p
  unfold Ok at hok
  simp only [hpc] at hok
  unfold thread_step
  simp only [hpc]
  rcases hok with ⟨hst, hl, hq, hf⟩ | ⟨hst, ho, hs⟩
  · simp only [hst, reduceCtorEq, if_false]
    refine inv.goto hpc rfl rfl ?_ nofun (.inr ⟨rfl, rfl⟩) (fun _ => trivial) (fun _ => .inr (.inr ⟨p, hl, .inl rfl⟩)) nofun
    unfold Ok
    simp only [goto_threads, if_true]
    exact ⟨⟨hl, hq, .inl ⟨rfl, by simp [hst]⟩⟩, hf⟩
  · simp only [hst, if_true]
    refine inv.outside hpc rfl rfl ho ?_
    unfold Ok
    simp only [on_threads, if_true]
    exact ⟨ho, hs⟩

/-! ## The combiner, with the queue as it is -/

theorem combines {pc₀ : Pc ι τ ρ} (hpc : (s.threads p).pc = pc₀) (hheads : Heads s queue lease p c)
    (hcares : pc₀.cares = some c) (hp : pc₀.parked = false) (hpc' : pc.parked = false) (hcares' : pc.cares = some c)
    (leads : Leads { s.threads p with pc }) (notify : ∀ n after, pc₀ ≠ .notify n after)
    (ok : Ok (s.goto p pc) queue lease p) : InvAt (s.goto p pc) queue lease := by
  refine inv.goto hpc hp hpc' ok ?_ (.inl (hcares'.trans hcares.symm)) (fun _ => leads) ?_ notify
  · rintro a h
    simp [h, Pc.cares] at hcares
  · exact fun _ => .inr (.inr ⟨p, hheads.1, .inl rfl⟩)

theorem prefetch (hpc : (s.threads p).pc = .prefetch c) :
    InvAt (s.thread_step p) queue lease := by
  have hok := inv.ok p
  unfold Ok at hok
  simp only [hpc] at hok
  have hp := parked_at hpc rfl
  unfold thread_step
  simp only [hpc]
  refine inv.combines hpc hok.1 rfl rfl rfl rfl trivial nofun ?_
  unfold Ok
  simp only [goto_threads, if_true]
  exact ⟨hok.1.goto hp _, (kept_goto hp _ c).fresh hok.2⟩

theorem next (hpc : (s.threads p).pc = .next c) : InvAt (s.thread_step p) queue lease := by
  have hok := inv.ok p
  unfold Ok at hok
  simp only [hpc] at hok
  have hp := parked_at hpc rfl
  unfold thread_step
  simp only [hpc]
  cases hn : (s.threads c).next with
  | none =>
    refine inv.combines hpc hok.1 rfl rfl rfl rfl trivial nofun ?_
    unfold Ok
    simp only [goto_threads, if_true]
    exact ⟨hok.1.goto hp _, (kept_goto hp _ c).served hok.2⟩
  | some n =>
    refine inv.combines hpc hok.1 rfl rfl rfl rfl trivial nofun ?_
    unfold Ok
    simp only [goto_threads, if_true]
    exact ⟨hok.1.goto hp _, (kept_goto hp _ c).served hok.2, (kept_goto hp _ c).next_some hn⟩

theorem stalled (hpc : (s.threads p).pc = .stalled c) :
    InvAt (s.thread_step p) queue lease := by
  have hok := inv.ok p
  unfold Ok at hok
  simp only [hpc] at hok
  have hp := parked_at hpc rfl
  unfold thread_step
  simp only [hpc]
  split
  · exact inv
  · next hn =>
    refine inv.combines hpc hok.1 rfl rfl rfl rfl trivial nofun ?_
    unfold Ok
    simp only [goto_threads, if_true]
    refine ⟨hok.1.goto hp _, (kept_goto hp _ c).served hok.2.1, ?_⟩
    have := (kept_goto hp (.reload c) c).next hn
    simp only [goto_threads] at this
    rwa [this]

theorem reload (hpc : (s.threads p).pc = .reload c) :
    InvAt (s.thread_step p) queue lease := by
  have hok := inv.ok p
  unfold Ok at hok
  simp only [hpc] at hok
  have hp := parked_at hpc rfl
  unfold thread_step
  simp only [hpc]
  cases hn : (s.threads c).next with
  | none => exact absurd hn hok.2.2
  | some n =>
    refine inv.combines hpc hok.1 rfl rfl rfl rfl trivial nofun ?_
    unfold Ok
    simp only [goto_threads, if_true]
    exact ⟨hok.1.goto hp _, (kept_goto hp _ c).served hok.2.1, (kept_goto hp _ c).next_some hn⟩

omit [DecidableEq ι] in
theorem two_of_last (hq : queue.head? = some c) (hlast : s.last ≠ some c) :
    2 ≤ queue.length := by
  rw [inv.last] at hlast
  match queue, hq with
  | [a], hq =>
    simp only [head?_cons, Option.some.injEq] at hq
    simp [hq] at hlast
  | a :: b :: queue, _ => simp

omit [DecidableEq ι] in
theorem alone_of_last (hq : queue.head? = some c) (hlast : s.last = some c) : queue = [c] := by
  rw [inv.last] at hlast
  match queue, hq, inv.nodup with
  | [a], hq, _ =>
    simp only [head?_cons, Option.some.injEq] at hq
    rw [hq]
  | a :: b :: queue, hq, hnd =>
    simp only [head?_cons, Option.some.injEq] at hq
    subst hq
    have hmem : a ∈ b :: queue := by
      apply mem_of_getLast?
      rwa [getLast?_cons_cons] at hlast
    exact absurd hmem (nodup_cons.mp hnd).1

theorem stalls (hpc : (s.threads p).pc = .leave c) (hlast : s.last ≠ some c) :
    InvAt (s.goto p (.stalled c)) queue lease := by
  have hok := inv.ok p
  unfold Ok at hok
  simp only [hpc] at hok
  have hp := parked_at hpc rfl
  refine inv.combines hpc hok.1 rfl rfl rfl rfl trivial nofun ?_
  unfold Ok
  simp only [goto_threads, if_true]
  exact ⟨hok.1.goto hp _, (kept_goto hp _ c).served hok.2, inv.two_of_last hok.1.2.1 hlast⟩

end InvAt

end Combining

end Rallocator
