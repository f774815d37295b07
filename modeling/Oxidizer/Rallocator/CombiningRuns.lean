import Oxidizer.Rallocator.CombiningNodes
/-!
# Runs of the combining lock

What the lease gives: one action at a time, each action once and before its call
returns, and no access to a node whose owner may have returned.
-/

namespace Rallocator

open Lib List

namespace Combining
variable {ι τ ρ : Type} [DecidableEq ι]

/-- The value that an action is running on. -/
def Pc.running : Pc ι τ ρ → Option τ
  | .fast_run _ value | .run _ _ value => some value
  | _ => none

/-- The node that the next step reads or writes, other than by its address. -/
def Pc.touches : Pc ι τ ρ → Option ι
  | .link node | .prefetch node | .invoke node | .run node _ _ | .next node | .stalled node | .reload node
  | .wake node _ _ => some node
  | _ => none

/-- The owner of a node is in `attach`, with the node published. -/
def Pc.attached : Pc ι τ ρ → Bool
  | .idle | .enter _ | .flag _ | .fast _ | .fast_run _ _ | .fast_clear _ | .publish | .finish | .returned _ | .fault => false
  | _ => true

/-- The owner of the node has not been allowed to return. -/
def Live (s : Combining ι τ ρ) (q : ι) : Prop := (s.threads q).pc.attached = true ∧ (s.threads q).status ≠ .done

variable {s : Combining ι τ ρ} {queue : List ι} {lease : Option ι} {p c : ι}

omit [DecidableEq ι] in
theorem Waits.live (h : Waits (s.threads c)) : Live s c := by
  obtain ⟨hp, hst⟩ := h
  refine ⟨?_, by rcases hst with h | h <;> simp [h]⟩
  cases hpc : (s.threads c).pc <;> simp_all [Pc.parked, Pc.attached]

namespace InvAt

variable (inv : InvAt s queue lease)
include inv

omit [DecidableEq ι] in
theorem running {value : τ} (h : (s.threads p).pc.running = some value) :
    lease = some p ∧ s.value = value := by
  have hok := inv.ok p
  cases hpc : (s.threads p).pc <;> simp only [hpc, Pc.running, reduceCtorEq, Option.some.injEq] at h <;>
    simp only [Ok, hpc] at hok
  case fast_run => exact ⟨hok.1, hok.2.2.2.2.trans h⟩
  case run => exact ⟨hok.1.1, hok.2.2.trans h⟩

omit [DecidableEq ι] in
/-- The owner of the front, once it has the lease: it combines for itself, or is about to see that it can. -/
theorem live_owner (hq : queue.head? = some p) (hl : lease = some p) : Live s p := by
  have hlead := inv.leads p hl
  have hok := inv.ok p
  have hmem : p ∈ queue := mem_of_mem_head? hq
  have heads : ∀ c, Heads s queue lease p c → (s.threads p).status ≠ .done := by
    rintro c ⟨-, -, ⟨-, hst⟩ | ⟨-, -, hout, -⟩⟩
    · exact hst
    · exact absurd hmem hout
  cases hpc : (s.threads p).pc with
  | fast | fast_run | fast_clear | clear =>
    unfold Ok at hok
    simp only [hpc] at hok
    exact absurd hmem hok.2.1
  | prefetch | invoke | run | next | leave | stalled | reload =>
    unfold Ok at hok
    simp only [hpc] at hok
    exact ⟨by rw [hpc]; rfl, heads _ hok.1⟩
  | wait | sleep | asleep | woke =>
    unfold Leads at hlead
    simp only [hpc] at hlead
    exact ⟨by rw [hpc]; rfl, by rw [hlead]; nofun⟩
  | wake n st after =>
    unfold Ok at hok
    simp only [hpc] at hok
    refine ⟨by rw [hpc]; rfl, ?_⟩
    cases st <;> cases after <;> simp only at hok
    case done.advance => exact heads _ hok.1
    case done.clear => exact absurd hmem hok.2.2.1
    case done.finish => exact absurd hl hok.1
    case head.pass => exact heads _ hok.1
  | notify n after =>
    unfold Ok at hok
    simp only [hpc] at hok
    refine ⟨by rw [hpc]; rfl, ?_⟩
    cases after <;> simp only at hok
    case advance => exact heads _ hok.1
    case clear => exact absurd hmem hok.2.1
    case pass => exact absurd hl hok.1
    case finish => exact absurd hl hok.1.2
  | idle | enter | flag | publish | acquire | spin | link | finish | returned | fault => simp only [Leads, hpc] at hlead

theorem live (hc : c ∈ queue) : Live s c := by
  have hok := inv.ok c
  by_cases hq : queue.head? = some c
  · rcases inv.front c hq with h | h | ⟨r, hr, rfl | h⟩
    · simp only [Ok, h] at hok
      exact ⟨by rw [h]; rfl, by simp [hok.2.2.2]⟩
    · simp only [Ok, h] at hok
      exact ⟨by rw [h]; rfl, by simp [hok.2.2.2]⟩
    · exact inv.live_owner hq hr
    · by_cases hrc : r = c
      · exact inv.live_owner hq (hrc ▸ hr)
      · exact (inv.care_waits h (Ne.symm hrc)).live
  · have hmem : c ∈ queue.tail := by
      cases queue with
      | nil => simp at hc
      | cons a queue =>
        rcases mem_cons.mp hc with h | h
        · simp [h] at hq
        · exact h
    obtain ⟨_, a, _, -, -, ⟨h, -⟩ | ⟨h, -⟩⟩ := inv.chain.before hmem
    · simp only [Ok, h] at hok
      exact ⟨by rw [h]; rfl, by simp [hok.2.2]⟩
    · exact h.live

theorem touches (h : (s.threads p).pc.touches = some c) (hne : c ≠ p) : Live s c := by
  have hok := inv.ok p
  cases hpc : (s.threads p).pc with
  | link a =>
    simp only [Ok, hpc] at hok
    obtain rfl : a = c := by simpa [hpc, Pc.touches] using h
    obtain ⟨front, b, back, rfl, -, ⟨hb, -⟩ | ⟨hb, -⟩⟩ := inv.chain.before hok.2.1
    · obtain rfl : a = b := by simpa [hpc] using hb
      exact inv.live (by simp)
    · simp [Waits, hpc, Pc.parked] at hb
  | prefetch | invoke | run | next | stalled | reload =>
    rw [hpc] at h
    exact (inv.care_waits (by rw [hpc]; exact h) hne).live
  | wake n st after =>
    obtain rfl : n = c := by simpa [hpc, Pc.touches] using h
    cases st with
    | done => exact (inv.care_waits (p := p) (c := n) (by rw [hpc]; rfl) hne).live
    | head =>
      simp only [Ok, hpc] at hok
      cases after <;> simp only at hok
      obtain ⟨_, -, -, hw⟩ := inv.successor hok.1.2.1 hok.2.2
      exact hw.live
    | waiting | sleeping => simp only [Ok, hpc] at hok
  | _ => simp [hpc, Pc.touches] at h

theorem runs_once {action : τ → ρ × τ} {value : τ}
    (h : (s.threads p).pc = .fast_run action value ∧ c = p ∨ (s.threads p).pc = .run c action value) :
    (s.threads c).pc ≠ .idle ∧ (s.threads c).given = some action ∧ (s.threads c).seen = [] := by
  have hok := inv.ok p
  rcases h with ⟨h, rfl⟩ | h
  · simp only [Ok, h] at hok
    exact ⟨by simp [h], hok.2.2.1, hok.2.2.2.1⟩
  · simp only [Ok, h] at hok
    refine ⟨?_, hok.2.1.1, hok.2.1.2.2⟩
    intro hidle
    obtain ⟨hlive, -⟩ := inv.live (mem_of_mem_head? hok.1.2.1)
    simp [hidle, Pc.attached] at hlive

theorem quiet (hidle : ∀ p, (s.threads p).pc = .idle) : s.last = none ∧ s.flag = false := by
  have hl : lease = none := by
    cases hl : lease with
    | none => rfl
    | some p =>
      have := inv.leads p hl
      simp only [Leads, hidle p] at this
  have hq : queue = [] := by
    rw [eq_nil_iff_forall_not_mem]
    intro c hc
    obtain ⟨hlive, -⟩ := inv.live hc
    simp [hidle c, Pc.attached] at hlive
  exact ⟨by rw [inv.last, hq]; rfl, by rw [inv.flag, hl]; rfl⟩

/-! ## Reachable states -/

theorem step (h : s.Enabled p) : ∃ queue' lease', InvAt (s.thread_step p) queue' lease' := by
  have hok := inv.ok p
  cases hpc : (s.threads p).pc with
  | idle | fault => simp only [Enabled, hpc] at h
  | enter => exact ⟨_, _, inv.enter hpc⟩
  | flag action =>
    simp only [Ok, hpc] at hok
    simp only [thread_step, hpc]
    split
    · exact ⟨_, _, inv.prepares hok.1 hok.2.1 hok.2.2 (.inr hpc)⟩
    · next hflag => exact ⟨_, _, inv.flag_taken hpc (by simpa using hflag)⟩
  | fast => exact ⟨_, _, inv.fast hpc⟩
  | fast_run => exact ⟨_, _, inv.fast_run hpc⟩
  | fast_clear => exact ⟨_, _, inv.fast_clear hpc⟩
  | publish => exact ⟨_, _, inv.publish hpc⟩
  | acquire =>
    simp only [thread_step, hpc]
    split
    · exact ⟨_, _, inv.spins (.inl hpc) (.inr rfl)⟩
    · next hflag => exact ⟨_, _, inv.acquires hpc (by simpa using hflag)⟩
  | spin =>
    simp only [thread_step, hpc]
    split
    · exact ⟨_, _, inv⟩
    · exact ⟨_, _, inv.spins (.inr hpc) (.inl rfl)⟩
  | link => exact ⟨_, _, inv.link hpc⟩
  | wait => exact ⟨_, _, inv.wait hpc⟩
  | sleep => exact ⟨_, _, inv.sleep hpc⟩
  | asleep =>
    simp only [Enabled, hpc] at h
    exact ⟨_, _, inv.asleep hpc h.1⟩
  | woke => exact ⟨_, _, inv.woke hpc⟩
  | prefetch => exact ⟨_, _, inv.prefetch hpc⟩
  | invoke => exact ⟨_, _, inv.invoke hpc⟩
  | run => exact ⟨_, _, inv.run hpc⟩
  | next => exact ⟨_, _, inv.next hpc⟩
  | leave =>
    simp only [thread_step, hpc]
    split
    · next hlast => exact ⟨_, _, inv.leaves hpc hlast⟩
    · next hlast => exact ⟨_, _, inv.stalls hpc hlast⟩
  | stalled => exact ⟨_, _, inv.stalled hpc⟩
  | reload => exact ⟨_, _, inv.reload hpc⟩
  | wake n st after =>
    simp only [Ok, hpc] at hok
    cases st <;> cases after <;> simp only at hok
    case done.advance =>
      obtain ⟨queue', inv'⟩ := inv.wake_advance hpc
      exact ⟨_, _, inv'⟩
    case done.clear => exact ⟨_, _, inv.wake_done hpc (.inl ⟨rfl, hok.1⟩) hok.2⟩
    case done.finish => exact ⟨_, _, inv.wake_done hpc (.inr ⟨rfl, hok.1⟩) hok.2⟩
    case head.pass =>
      obtain ⟨queue', inv'⟩ := inv.wake_head hpc
      exact ⟨_, _, inv'⟩
  | notify => exact ⟨_, _, inv.notify hpc⟩
  | clear => exact ⟨_, _, inv.clear hpc⟩
  | finish => exact ⟨_, _, inv.finish hpc⟩
  | returned => exact ⟨_, _, inv.returned hpc⟩

end InvAt

/-- The invariant, for some queue and some holder of the lease. -/
def Inv (s : Combining ι τ ρ) : Prop := ∃ queue lease, InvAt s queue lease

theorem Inv.init (h : (system ι τ ρ).init s) : Inv s := by
  obtain ⟨hflag, hlast, hidle⟩ := h
  refine ⟨[], none, by rw [hflag]; rfl, by rw [hlast]; rfl, nodup_nil, trivial, ?_, ?_, nofun, nofun, ?_, ?_, ?_⟩
  · intro p
    unfold Ok
    simp only [hidle p]
    exact ⟨by simp, nofun⟩
  all_goals simp [hidle, Waits, Pc.parked, Pc.cares]

theorem Inv.reachable (h : (system ι τ ρ).Reachable s) : Inv s := by
  refine Lts.Reachable.inv Inv (fun s => Inv.init) ?_ h
  rintro s a s' - ⟨queue, lease, inv⟩ hs
  cases a with
  | call p action =>
    obtain ⟨hpc, rfl⟩ := hs
    exact ⟨_, _, inv.call hpc action⟩
  | step p =>
    obtain ⟨hen, rfl⟩ := hs
    exact inv.step hen
  | rest =>
    obtain rfl := hs
    exact ⟨_, _, inv⟩

end Combining

end Rallocator
