import Oxidizer.Lib.Fair
import Oxidizer.Rallocator.CombiningRuns
/-!
# Every call returns

Each thread has a rank, and its node a cost until its action is taken. The sum
over the threads in a call falls with every step but those that only wait for
another thread. Once no more calls are made it settles, and then some thread
could take a step that lowers it unless all are idle.
-/

namespace Rallocator

open Lib Finset Nat

namespace Combining
variable {ι τ ρ : Type} [DecidableEq ι]

/-! ## The rank of a thread -/

def After.rank : After ι → Nat
  | .advance _ => 2
  | .clear => 3
  | .pass _ => 4
  | .finish => 2

def Pc.rank : Pc ι τ ρ → Nat
  | .idle | .fault => 0
  | .enter _ => 121
  | .flag _ => 120
  | .fast _ => 4
  | .fast_run _ _ => 3
  | .fast_clear _ => 2
  | .publish => 108
  | .acquire | .spin => 3
  | .link _ => 107
  | .wait left => 6 + left
  | .sleep => 5
  | .asleep => 4
  | .woke => 3
  | .prefetch _ => 2
  | .invoke _ => 1
  -- the combiner rises here, and the node it takes the action of falls by more
  | .run _ _ _ => 11
  | .next _ => 10
  | .leave _ => 9
  | .stalled _ => 8
  | .reload _ => 7
  | .wake _ _ after => after.rank + 2
  | .notify _ after => after.rank + 1
  | .clear => 3
  | .finish => 2
  | .returned _ => 1

attribute [simp] After.rank Pc.rank

def Thread.rank (t : Thread ι τ ρ) : Nat := t.pc.rank + if t.action.isSome then 11 else 0

/-- The thread waits for another one without sleeping. -/
def Spins (s : Combining ι τ ρ) (p : ι) : Prop :=
  match (s.threads p).pc with
  | .acquire => s.flag = true
  | .spin => True
  | .stalled current => (s.threads current).next = none
  | _ => False

/-- The thread has a step that does not wait. -/
def Ready (s : Combining ι τ ρ) (p : ι) : Prop := s.Enabled p ∧ ¬s.Spins p

variable {s s' : Combining ι τ ρ} {p q : ι}

omit [DecidableEq ι] in
theorem After.rank_pc (after : After ι) : (after.pc : Pc ι τ ρ).rank = after.rank := by cases after <;> rfl

theorem thread_step_other (s : Combining ι τ ρ) (hne : q ≠ p) :
    ((s.thread_step p).threads q).pc = (s.threads q).pc ∧
      ((s.threads p).pc ≠ .invoke q → ((s.thread_step p).threads q).action = (s.threads q).action) := by
  have hgoto : ∀ (s' : Combining ι τ ρ) pc, (s'.goto p pc).threads q = s'.threads q := by
    intro s' pc
    rw [goto_threads, if_neg hne]
  have hon : ∀ (s' : Combining ι τ ρ) f, (s'.on p f).threads q = s'.threads q := by
    intro s' f
    rw [on_threads, if_neg hne]
  cases hpc : (s.threads p).pc with
  | invoke c =>
    simp only [thread_step, hpc]
    split <;> rw [hgoto]
    · rw [on_threads]
      split
      · next h => exact ⟨rfl, fun h' => absurd (by rw [h]) h'⟩
      · exact ⟨rfl, fun _ => rfl⟩
    · exact ⟨rfl, fun _ => rfl⟩
  | link c | run c | wake c | notify c =>
    simp only [thread_step, hpc, hgoto]
    rw [on_threads]
    split <;> exact ⟨rfl, fun _ => rfl⟩
  | wait left =>
    cases left <;> simp only [thread_step, hpc] <;> (try split) <;> simp only [hgoto] <;> simp
  | _ =>
    simp only [thread_step, hpc, prepare]
    (try split) <;> (try simp only [hgoto, hon]) <;> simp

omit [DecidableEq ι] in
theorem Thread.rank_lt {t t' : Thread ι τ ρ} (haction : t'.action = t.action) (hpc : t'.pc.rank < t.pc.rank) :
    t'.rank < t.rank := by
  unfold Thread.rank
  rw [haction]
  exact Nat.add_lt_add_right hpc _

theorem prepare_rank {action : τ → ρ × τ} (h : 120 ≤ (s.threads p).pc.rank) :
    ((s.prepare p action).threads p).rank < (s.threads p).rank := by
  have hto : ((s.prepare p action).threads p).rank = 119 := by simp [prepare, Thread.rank]
  rw [hto, Thread.rank]
  omega

theorem goto_rank {old pc : Pc ι τ ρ} (hpc : (s.threads p).pc = old) (haction : (s'.threads p).action = (s.threads p).action)
    (h : pc.rank < old.rank) : ((s'.goto p pc).threads p).rank < (s.threads p).rank := by
  subst hpc
  rw [goto_threads, if_pos rfl]
  exact Thread.rank_lt haction h

theorem thread_step_rank (hready : s.Ready p) (hinvoke : ∀ c, (s.threads p).pc ≠ .invoke c) :
    ((s.thread_step p).threads p).rank < (s.threads p).rank := by
  obtain ⟨hen, hspin⟩ := hready
  have hon : ∀ (s' : Combining ι τ ρ) c f, (∀ t, (f t).action = t.action) →
      ((s'.on c f).threads p).action = (s'.threads p).action := by
    intro s' c f hf
    rw [on_threads]
    split
    · exact hf _
    · rfl
  cases hpc : (s.threads p).pc with
  | idle | fault => simp only [Enabled, hpc] at hen
  | enter =>
    simp only [thread_step, hpc]
    split
    · exact goto_rank hpc rfl (lt_succ_self _)
    · exact prepare_rank (by simp [hpc])
  | flag =>
    simp only [thread_step, hpc]
    split
    · exact prepare_rank (by simp [hpc])
    · exact goto_rank hpc rfl (by simp)
  | fast | fast_clear | prefetch | clear | returned | asleep =>
    simp only [thread_step, hpc]
    exact goto_rank hpc rfl (lt_succ_self _)
  | fast_run =>
    simp only [thread_step, hpc, on_threads, if_true]
    exact Thread.rank_lt rfl (by rw [hpc]; exact lt_succ_self _)
  | publish =>
    simp only [thread_step, hpc]
    exact goto_rank hpc rfl (by cases s.last <;> simp)
  | acquire | stalled c =>
    simp only [Spins, hpc] at hspin
    simp only [thread_step, hpc, if_neg hspin]
    exact goto_rank hpc rfl (lt_succ_self _)
  | spin => exact absurd (by simp only [Spins, hpc]) hspin
  | link c | run c action value =>
    simp only [thread_step, hpc]
    exact goto_rank hpc (hon _ _ _ fun _ => rfl) (lt_succ_self _)
  | wait left =>
    cases left with
    | zero =>
      simp only [thread_step, hpc]
      exact goto_rank hpc rfl (lt_succ_self _)
    | succ left =>
      simp only [thread_step, hpc]
      split
      · exact goto_rank hpc rfl (lt_succ_self _)
      · exact goto_rank hpc rfl (by simp only [Pc.rank]; omega)
  | sleep =>
    simp only [thread_step, hpc]
    split
    · simp only [on_threads, if_true]
      exact Thread.rank_lt rfl (by rw [hpc]; exact lt_succ_self _)
    · exact goto_rank hpc rfl (by simp)
  | woke =>
    simp only [thread_step, hpc]
    split <;> exact goto_rank hpc rfl (lt_succ_self _)
  | invoke c => exact absurd hpc (hinvoke c)
  | next c | leave c =>
    simp only [thread_step, hpc]
    split
    · exact goto_rank hpc rfl (by simp)
    · exact goto_rank hpc rfl (lt_succ_self _)
  | reload c =>
    simp only [thread_step, hpc]
    split
    · exact goto_rank hpc rfl (by simp)
    · exact goto_rank hpc rfl (by simp)
  | wake n st after =>
    simp only [thread_step, hpc]
    refine goto_rank hpc (hon _ _ _ fun _ => rfl) ?_
    split
    · exact lt_succ_self _
    · rw [After.rank_pc]
      exact Nat.lt_add_of_pos_right (by decide)
  | notify n after =>
    simp only [thread_step, hpc]
    refine goto_rank hpc (hon _ _ _ fun _ => rfl) ?_
    rw [After.rank_pc]
    exact lt_succ_self _
  | finish =>
    simp only [thread_step, hpc]
    exact goto_rank hpc rfl (by cases (s.threads p).result <;> simp)

/-! ## The sum of the ranks -/

def total (F : Finset ι) (s : Combining ι τ ρ) : Nat := ∑ p ∈ F, (s.threads p).rank

variable {F : Finset ι}

theorem total_lt_of_pair {c : ι} (hp : p ∈ F) (hc : c ∈ F) (hne : c ≠ p)
    (hother : ∀ q ≠ p, q ≠ c → (s'.threads q).rank = (s.threads q).rank)
    (hlt : (s'.threads p).rank + (s'.threads c).rank < (s.threads p).rank + (s.threads c).rank) :
    total F s' < total F s := by
  have hc' : c ∈ F.erase p := mem_erase.mpr ⟨hne, hc⟩
  unfold total
  rw [← add_sum_erase F _ hp, ← add_sum_erase F (fun q => (s.threads q).rank) hp,
    ← add_sum_erase _ _ hc', ← add_sum_erase _ (fun q => (s.threads q).rank) hc']
  have hrest : ∑ q ∈ (F.erase p).erase c, (s'.threads q).rank = ∑ q ∈ (F.erase p).erase c, (s.threads q).rank := by
    apply sum_congr rfl
    intro q hq
    obtain ⟨hqc, hq⟩ := mem_erase.mp hq
    exact hother q (ne_of_mem_erase hq) hqc
  omega

theorem total_lt_of_one (hp : p ∈ F) (hother : ∀ q ≠ p, (s'.threads q).rank = (s.threads q).rank)
    (hlt : (s'.threads p).rank < (s.threads p).rank) : total F s' < total F s := by
  refine sum_lt_sum (fun q _ => ?_) ⟨p, hp, hlt⟩
  by_cases hq : q = p
  · rw [hq]
    exact hlt.le
  · exact (hother q hq).le

theorem total_step (inv : Inv s) (hF : ∀ q ∉ F, (s.threads q).pc = .idle) (hready : s.Ready p) :
    total F (s.thread_step p) < total F s := by
  have hmem : ∀ q, (s.threads q).pc ≠ .idle → q ∈ F := fun q hq => by_contra fun h => hq (hF q h)
  have hp : p ∈ F := hmem p fun h => by simp [Ready, Enabled, h] at hready
  have hother : ∀ q ≠ p, (s.threads p).pc ≠ .invoke q → ((s.thread_step p).threads q).rank = (s.threads q).rank := by
    intro q hq hc
    obtain ⟨hpc, haction⟩ := thread_step_other s hq
    rw [Thread.rank, hpc, haction hc, Thread.rank]
  by_cases hinvoke : ∃ c, (s.threads p).pc = .invoke c
  · -- the combiner rises by ten, and the node it takes the action of falls by eleven
    obtain ⟨c, hpc⟩ := hinvoke
    obtain ⟨queue, lease, inv⟩ := inv
    have hok := inv.ok p
    simp only [Ok, hpc] at hok
    obtain ⟨hheads, action, -, haction, -⟩ := hok
    have hc : c ∈ F := by
      apply hmem
      intro hidle
      obtain ⟨hlive, -⟩ := inv.live (List.mem_of_mem_head? hheads.2.1)
      simp [hidle, Pc.attached] at hlive
    have hstep : s.thread_step p =
        (s.on c fun t => { t with action := none }).goto p (.run c action s.value) := by
      simp only [thread_step, hpc, haction]
    by_cases hcp : c = p
    · subst hcp
      refine total_lt_of_one hp (fun q hq => hother q hq (by simp [hpc, Ne.symm hq])) ?_
      rw [hstep]
      simp [Thread.rank, haction, hpc]
    · refine total_lt_of_pair hp hc hcp (fun q hq hqc => hother q hq (by simp [hpc, Ne.symm hqc])) ?_
      rw [hstep]
      simp [Thread.rank, haction, hpc, hcp, Ne.symm hcp]
      omega
  · have hno : ∀ c, (s.threads p).pc ≠ .invoke c := fun c h => hinvoke ⟨c, h⟩
    exact total_lt_of_one hp (fun q hq => hother q hq (hno q)) (thread_step_rank hready hno)

theorem spins_step (h : s.Spins p) : s.thread_step p = s ∨
    ∃ pc, (pc = .acquire ∨ pc = .spin) ∧ ((s.threads p).pc = .acquire ∨ (s.threads p).pc = .spin) ∧
      s.thread_step p = s.goto p pc := by
  cases hpc : (s.threads p).pc <;> simp only [Spins, hpc] at h
  case acquire => exact .inr ⟨.spin, .inr rfl, .inl rfl, by simp only [thread_step, hpc, if_pos h]⟩
  case spin =>
    simp only [thread_step, hpc]
    split
    · exact .inl rfl
    · exact .inr ⟨.acquire, .inl rfl, by simp, rfl⟩
  case stalled => exact .inl (by simp only [thread_step, hpc, if_pos h])

theorem total_spins (h : s.Spins p) : total F (s.thread_step p) = total F s := by
  rcases spins_step h with h | ⟨pc, hpc, hp, h⟩ <;> rw [h]
  apply sum_congr rfl
  intro q _
  rw [goto_threads]
  split
  · next hq =>
    have hrank : pc.rank = (s.threads p).pc.rank := by rcases hpc with rfl | rfl <;> rcases hp with h | h <;> rw [h] <;> rfl
    rw [Thread.rank, hrank, hq, Thread.rank]
  · rfl

theorem ready_spins (hq : s.Ready q) (h : s.Spins p) : (s.thread_step p).Ready q := by
  have hne : q ≠ p := by
    rintro rfl
    exact hq.2 h
  rcases spins_step h with h | ⟨pc, -, -, h⟩ <;> rw [h]
  · exact hq
  · have hown : (s.goto p pc).threads q = s.threads q := by rw [goto_threads, if_neg hne]
    have hnext : ∀ c, ((s.goto p pc).threads c).next = (s.threads c).next := by
      intro c
      rw [goto_threads]
      split
      · next hc => rw [hc]
      · rfl
    obtain ⟨hen, hspin⟩ := hq
    refine ⟨?_, ?_⟩
    · unfold Enabled
      rw [hown]
      exact hen
    · unfold Spins
      simp only [hown, hnext]
      exact hspin

/-! ## Someone can go on -/

namespace InvAt
omit [DecidableEq ι]
variable {queue : List ι} {lease : Option ι} {c : ι}

theorem linker (inv : InvAt s queue lease) (hq : queue.head? = some c) (hlen : 2 ≤ queue.length)
    (hnext : (s.threads c).next = none) : ∃ b, s.Ready b := by
  match queue, hq, hlen, inv.chain with
  | a :: b :: _, hq, _, ⟨⟨_, hj⟩, _⟩ =>
    obtain rfl : a = c := by simpa using hq
    rcases hj with ⟨hb, -⟩ | ⟨-, hb⟩
    · exact ⟨b, by simp only [Enabled, hb], by simp only [Spins, hb, not_false_eq_true]⟩
    · simp [hnext] at hb

theorem ready_of_asleep (inv : InvAt s queue lease) (hpc : (s.threads p).pc = .asleep)
    (hst : (s.threads p).status ≠ .sleeping) : ∃ b, s.Ready b := by
  rcases inv.noticed p hpc with h | h | ⟨r, after, h⟩
  · exact absurd h hst
  · exact ⟨p, by simp only [Enabled, hpc]; exact ⟨hst, h⟩, by simp only [Spins, hpc, not_false_eq_true]⟩
  · exact ⟨r, by simp only [Enabled, h], by simp only [Spins, h, not_false_eq_true]⟩

theorem ready_of_lease (inv : InvAt s queue (some p)) : ∃ b, s.Ready b := by
  have hlead := inv.leads p rfl
  have hok := inv.ok p
  cases hpc : (s.threads p).pc with
  | stalled c =>
    simp only [Ok, hpc] at hok
    by_cases hnext : (s.threads c).next = none
    · exact inv.linker hok.1.2.1 hok.2.2 hnext
    · exact ⟨p, by simp only [Enabled, hpc], by simpa only [Spins, hpc] using hnext⟩
  | asleep =>
    simp only [Leads, hpc] at hlead
    exact inv.ready_of_asleep hpc (by simp [hlead])
  | idle | fault | acquire | spin => simp only [Leads, hpc] at hlead
  | _ => exact ⟨p, by simp only [Enabled, hpc], by simp only [Spins, hpc, not_false_eq_true]⟩

theorem ready_of_cares (inv : InvAt s queue none) (h : (s.threads p).pc.cares = some c) : s.Ready p := by
  have hok := inv.ok p
  cases hpc : (s.threads p).pc <;> simp only [hpc, Pc.cares, reduceCtorEq] at h
  case stalled =>
    simp only [Ok, hpc] at hok
    simp [Heads] at hok
  all_goals exact ⟨by simp only [Enabled, hpc], by simp only [Spins, hpc, not_false_eq_true]⟩

/-- While a call is in progress some thread can go on, or the flag is there to be taken. -/
theorem progress (inv : InvAt s queue lease) (hp : (s.threads p).pc ≠ .idle) :
    (∃ q, s.Ready q) ∨ ∃ q, (s.threads q).pc = .spin ∧ s.flag = false := by
  cases hl : lease with
  | some r =>
    subst hl
    exact .inl inv.ready_of_lease
  | none =>
    subst hl
    have hflag : s.flag = false := by rw [inv.flag]; rfl
    have hacquire : ∀ q, (s.threads q).pc = .acquire ∨ (s.threads q).pc = .spin →
        (∃ q, s.Ready q) ∨ ∃ q, (s.threads q).pc = .spin ∧ s.flag = false := by
      rintro q (h | h)
      · exact .inl ⟨q, by simp only [Enabled, h], by simp [Spins, h, hflag]⟩
      · exact .inr ⟨q, h, hflag⟩
    have hok := inv.ok p
    cases hpc : (s.threads p).pc with
    | idle => exact absurd hpc hp
    | fault => simp only [Ok, hpc] at hok
    | acquire => exact hacquire p (.inl hpc)
    | spin => exact hacquire p (.inr hpc)
    | stalled c =>
      simp only [Ok, hpc] at hok
      simp [Heads] at hok
    | asleep =>
      by_cases hst : (s.threads p).status = .sleeping
      · -- the thread is behind the front of the queue, or one who does not have the lease has it to release
        rcases inv.parked p ⟨by rw [hpc]; rfl, .inr hst⟩ with h | ⟨r, hr⟩
        · obtain ⟨a, ha⟩ : ∃ a, queue.head? = some a := by
            cases queue with
            | nil => simp at h
            | cons a _ => exact ⟨a, rfl⟩
          rcases inv.front a ha with h | h | ⟨_, h, -⟩
          · exact hacquire a (.inl h)
          · exact hacquire a (.inr h)
          · simp at h
        · exact .inl ⟨r, inv.ready_of_cares hr⟩
      · exact .inl (inv.ready_of_asleep hpc hst)
    | _ => exact .inl ⟨p, by simp only [Enabled, hpc], by simp only [Spins, hpc, not_false_eq_true]⟩

end InvAt

/-! ## Fair runs -/

theorem callers (h : (system ι τ ρ).Reachable s) : ∃ F : Finset ι, ∀ q ∉ F, (s.threads q).pc = .idle := by
  refine Lts.Reachable.inv (L := system ι τ ρ) (fun s => ∃ F : Finset ι, ∀ q ∉ F, (s.threads q).pc = .idle) ?_ ?_ h
  · rintro s ⟨-, -, hidle⟩
    exact ⟨∅, fun q _ => hidle q⟩
  · rintro s a s' - ⟨F, hF⟩ hs
    cases a with
    | call p action =>
      obtain ⟨-, rfl⟩ := hs
      refine ⟨insert p F, fun q hq => ?_⟩
      rw [mem_insert, not_or] at hq
      simp only [on_threads, if_neg hq.1]
      exact hF q hq.2
    | step p =>
      obtain ⟨hen, rfl⟩ := hs
      refine ⟨F, fun q hq => ?_⟩
      have hqp : q ≠ p := by
        rintro rfl
        simp [Enabled, hF q hq] at hen
      rw [(thread_step_other s hqp).1]
      exact hF q hq
    | rest =>
      obtain rfl := hs
      exact ⟨F, hF⟩

section Fair
variable {s : ℕ → Combining ι τ ρ} {a : ℕ → Action ι τ ρ}

theorem settled (htrace : (system ι τ ρ).Trace s a) (hfair : Lts.Fair Enabled Action.step s a) {N : ℕ}
    (hcalls : ∀ n ≥ N, ∀ p action, a n ≠ .call p action) :
    ∃ M, ∀ n ≥ M, (∀ p, ¬(s n).Ready p) ∧ (s (n + 1) = s n ∨ ∃ p, a n = .step p ∧ (s n).Spins p) := by
  obtain ⟨F, hF⟩ := callers (htrace.reachable N)
  have hF : ∀ n ≥ N, ∀ q ∉ F, ((s n).threads q).pc = .idle := by
    intro n hn
    induction n, hn using le_induction with
    | base => exact hF
    | succ n hn ih =>
      intro q hq
      have hstep := htrace.step n
      cases ha : a n with
      | call p action => exact absurd ha (hcalls n hn p action)
      | step p =>
        rw [ha] at hstep
        have hqp : q ≠ p := by
          rintro rfl
          have := hstep.1
          unfold Enabled at this
          simp [ih q hq] at this
        rw [hstep.2, (thread_step_other _ hqp).1]
        exact ih q hq
      | rest =>
        rw [ha] at hstep
        rw [hstep]
        exact ih q hq
  -- a step lowers the sum if its thread is ready, and otherwise keeps the sum and who is ready
  have hcases : ∀ n ≥ N, (∃ p, a n = .step p ∧ (s n).Ready p ∧ total F (s (n + 1)) < total F (s n)) ∨
      (s (n + 1) = s n ∨ ∃ p, a n = .step p ∧ (s n).Spins p) ∧ total F (s (n + 1)) = total F (s n) := by
    intro n hn
    have hstep := htrace.step n
    cases ha : a n with
    | call p action => exact absurd ha (hcalls n hn p action)
    | step p =>
      rw [ha] at hstep
      obtain ⟨hen, hs⟩ := hstep
      by_cases hspin : (s n).Spins p
      · exact .inr ⟨.inr ⟨p, rfl, hspin⟩, by rw [hs]; exact total_spins hspin⟩
      · refine .inl ⟨p, rfl, ⟨hen, hspin⟩, ?_⟩
        rw [hs]
        exact total_step (Inv.reachable (htrace.reachable n)) (hF n hn) ⟨hen, hspin⟩
    | rest =>
      rw [ha] at hstep
      exact .inr ⟨.inl hstep, by rw [hstep]⟩
  have hstay : ∀ n ≥ N, ∀ p, (s n).Ready p → total F (s (n + 1)) = total F (s n) → (s (n + 1)).Ready p := by
    intro n hn p hp htotal
    rcases hcases n hn with ⟨_, -, -, h⟩ | ⟨h | ⟨q, hq, hspin⟩, -⟩
    · exact absurd htotal h.ne
    · rw [h]
      exact hp
    · have hstep := htrace.step n
      rw [hq] at hstep
      rw [hstep.2]
      exact ready_spins hp hspin
  obtain ⟨M, hM, hsettled⟩ := hfair.settles (total F) Ready (N := N) (fun m p h => h.1)
    (fun n hn => (hcases n hn).elim (fun ⟨_, _, _, h⟩ => h.le) (fun h => h.2.le)) hstay (by
      intro n hn p hp ha
      rcases hcases n hn with ⟨_, -, -, h⟩ | ⟨h | ⟨q, hq, hspin⟩, htotal⟩
      · exact h
      · have hstep := htrace.step n
        rw [ha] at hstep
        rw [hstep.2]
        exact total_step (Inv.reachable (htrace.reachable n)) (hF n hn) hp
      · obtain rfl : p = q := by simpa [ha] using hq
        exact absurd hspin hp.2)
  refine ⟨M, fun n hn => ⟨(hsettled n hn).2, ?_⟩⟩
  rcases hcases n (hM.trans hn) with ⟨_, -, -, h⟩ | ⟨h, -⟩
  · exact absurd (hsettled n hn).1 h.ne
  · exact h

/-- In a fair run with finitely many calls every call returns. -/
theorem returns (htrace : (system ι τ ρ).Trace s a) (hfair : Lts.Fair Enabled Action.step s a) {N : ℕ}
    (hcalls : ∀ n ≥ N, ∀ p action, a n ≠ .call p action) (p : ι) (n : ℕ) : ∃ m ≥ n, ((s m).threads p).pc = .idle := by
  obtain ⟨M, hM⟩ := settled htrace hfair hcalls
  by_contra hnever
  have hbusy : ((s (max n M)).threads p).pc ≠ .idle := fun h => hnever ⟨_, le_max_left n M, h⟩
  obtain ⟨queue, lease, inv⟩ := Inv.reachable (htrace.reachable (max n M))
  rcases inv.progress hbusy with ⟨q, hq⟩ | ⟨q, hq, hflag⟩
  · exact (hM _ (le_max_right n M)).1 q hq
  · -- the one who spins at a free flag reads it, and then takes it
    obtain ⟨m, hm, ⟨hspin, hfree⟩, hmove⟩ := hfair.eventually (p := q)
      (fun s => (s.threads q).pc = .spin ∧ s.flag = false) ⟨hq, hflag⟩
      (fun m _ h => by simp only [Enabled, h.1]) (by
        rintro m hm ⟨hspin, hfree⟩ hne
        rcases (hM m ((le_max_right n M).trans hm)).2 with h | ⟨r, hr, h⟩
        · rw [h]
          exact ⟨hspin, hfree⟩
        · have hqr : q ≠ r := fun h => hne (h ▸ hr)
          have hstep := htrace.step m
          rw [hr] at hstep
          rw [hstep.2, (thread_step_other _ hqr).1]
          refine ⟨hspin, ?_⟩
          rcases spins_step h with h | ⟨_, -, -, h⟩ <;> rw [h] <;> exact hfree)
    have hstep := htrace.step m
    rw [hmove] at hstep
    have hnext : s (m + 1) = (s m).goto q .acquire := by
      rw [hstep.2]
      simp [thread_step, hspin, hfree]
    apply (hM (m + 1) ((le_max_right n M).trans (hm.trans (le_succ m)))).1 q
    rw [hnext]
    refine ⟨by simp [Enabled], ?_⟩
    have hfree' : ((s m).goto q .acquire).flag = false := hfree
    simp [Spins, hfree']

end Fair

end Combining

end Rallocator
