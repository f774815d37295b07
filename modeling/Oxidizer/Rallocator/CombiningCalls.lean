import Oxidizer.Rallocator.CombiningFair
/-!
# What a call can rely on

Safety in every reachable state, and the return of every call in a fair run with
finitely many calls. Without the bound a combiner can be kept at work for ever by
two others that call again whenever it has served them.
-/

namespace Rallocator

open Lib

namespace Combining
variable {ι τ ρ : Type} [DecidableEq ι]

structure Safe (s : Combining ι τ ρ) : Prop where
  /-- one action runs at a time -/
  exclusive : ∀ p q v w, (s.threads p).pc.running = some v → (s.threads q).pc.running = some w → p = q
  /-- and no one else changes the value meanwhile -/
  value : ∀ p v, (s.threads p).pc.running = some v → s.value = v
  /-- the action that is run is that of a call in progress, and was not run before -/
  once : ∀ p c action value, (s.threads p).pc = .fast_run action value ∧ c = p ∨ (s.threads p).pc = .run c action value →
    (s.threads c).pc ≠ .idle ∧ (s.threads c).given = some action ∧ (s.threads c).seen = []
  /-- a call that returns had its action run once, and returns its result -/
  result : ∀ p result, (s.threads p).pc = .returned result → Ran (s.threads p) result
  sound : ∀ p, (s.threads p).pc ≠ .fault
  /-- the node of another thread is touched only before its owner may return -/
  touches : ∀ p c, (s.threads p).pc.touches = some c → c ≠ p → Live s c
  quiet : (∀ p, (s.threads p).pc = .idle) → s.last = none ∧ s.flag = false
  /-- a call keeps its action, and ends only where it returns -/
  ends : ∀ a s', (system ι τ ρ).step s a s' → ∀ p, (s.threads p).pc ≠ .idle →
    (s'.threads p).given = (s.threads p).given ∧ ((s'.threads p).pc = .idle → ∃ result, (s.threads p).pc = .returned result)

variable {s : Combining ι τ ρ} {p : ι}

theorem thread_step_given (s : Combining ι τ ρ) (p q : ι) : ((s.thread_step p).threads q).given = (s.threads q).given := by
  unfold thread_step
  grind [prepare, goto_threads, on_threads]

theorem thread_step_ends (h : ((s.thread_step p).threads p).pc = .idle) :
    (s.threads p).pc = .idle ∨ ∃ result, (s.threads p).pc = .returned result := by
  have hafter : ∀ after : After ι, (after.pc : Pc ι τ ρ) ≠ .idle := by rintro (_ | _ | _ | _) <;> nofun
  have hlast : s.last.elim Pc.acquire Pc.link ≠ (.idle : Pc ι τ ρ) := by cases s.last <;> nofun
  have hresult : (s.threads p).result.elim Pc.fault Pc.returned ≠ (.idle : Pc ι τ ρ) := by
    cases (s.threads p).result <;> nofun
  unfold thread_step at h
  grind [prepare, goto_threads, on_threads]

theorem step_ends {a : Action ι τ ρ} {s' : Combining ι τ ρ} (hs : (system ι τ ρ).step s a s') (hp : (s.threads p).pc ≠ .idle) :
    (s'.threads p).given = (s.threads p).given ∧
      ((s'.threads p).pc = .idle → ∃ result, (s.threads p).pc = .returned result) := by
  cases a with
  | call q action =>
    obtain ⟨hidle, rfl⟩ := hs
    have hpq : p ≠ q := fun h => hp (h ▸ hidle)
    rw [on_threads, if_neg hpq]
    exact ⟨rfl, fun h => absurd h hp⟩
  | step q =>
    obtain ⟨-, rfl⟩ := hs
    refine ⟨thread_step_given s q p, fun h => ?_⟩
    by_cases hpq : p = q
    · subst hpq
      exact (thread_step_ends h).resolve_left hp
    · rw [(thread_step_other s hpq).1] at h
      exact absurd h hp
  | rest =>
    obtain rfl := hs
    exact ⟨rfl, fun h => absurd h hp⟩

theorem Inv.safe (inv : Inv s) : Safe s := by
  obtain ⟨queue, lease, inv⟩ := inv
  refine ⟨?_, fun p v h => (inv.running h).2, fun p c action value => inv.runs_once, ?_, ?_, fun p c => inv.touches, inv.quiet,
    fun a s' hs p => step_ends hs⟩
  · intro p q v w hp hq
    have h := (inv.running hp).1.symm.trans (inv.running hq).1
    exact Option.some.inj h
  · intro p result h
    have hok := inv.ok p
    simp only [Ok, h] at hok
    exact hok.2
  · intro p h
    have hok := inv.ok p
    simp only [Ok, h] at hok

/-- A run in which every thread keeps taking steps as long as it can. -/
structure FairRun (s : ℕ → Combining ι τ ρ) (a : ℕ → Action ι τ ρ) : Prop where
  trace : (system ι τ ρ).Trace s a
  fair : Lts.Fair Enabled Action.step s a

/-- The call that thread `p` is in returns, with the result of the action it was given. -/
def Returns (s : ℕ → Combining ι τ ρ) (p : ι) (n : ℕ) : Prop :=
  ∃ m ≥ n, ∃ result, ((s m).threads p).pc = .returned result ∧ ((s (m + 1)).threads p).pc = .idle ∧
    ((s m).threads p).given = ((s n).threads p).given ∧ Ran ((s m).threads p) result

theorem returns_of_idle {s : ℕ → Combining ι τ ρ} {a : ℕ → Action ι τ ρ} (htrace : (system ι τ ρ).Trace s a) {n : ℕ} (k : ℕ)
    (hp : ((s n).threads p).pc ≠ .idle) (hidle : ((s (n + k)).threads p).pc = .idle) : Returns s p n := by
  induction k generalizing n with
  | zero => exact absurd hidle hp
  | succ k ih =>
    obtain ⟨hgiven, hends⟩ := step_ends (htrace.step n) hp
    by_cases hnext : ((s (n + 1)).threads p).pc = .idle
    · obtain ⟨result, hresult⟩ := hends hnext
      exact ⟨n, le_refl n, result, hresult, hnext, rfl, (Inv.reachable (htrace.reachable n)).safe.result p result hresult⟩
    · rw [← Nat.succ_add_eq_add_succ] at hidle
      obtain ⟨m, hm, result, hresult, hleft, hkept, hran⟩ := ih hnext hidle
      exact ⟨m, (Nat.le_succ n).trans hm, result, hresult, hleft, hkept.trans hgiven, hran⟩

/-- The lock is safe in every reachable state, and where calls end every call returns. -/
theorem combining_serves :
    (∀ s : Combining ι τ ρ, (system ι τ ρ).Reachable s → Safe s) ∧
      ∀ (s : ℕ → Combining ι τ ρ) (a : ℕ → Action ι τ ρ), FairRun s a →
        (∃ N, ∀ n ≥ N, ∀ p action, a n ≠ .call p action) → ∀ p n, ((s n).threads p).pc ≠ .idle → Returns s p n := by
  refine ⟨fun s h => (Inv.reachable h).safe, ?_⟩
  rintro s a ⟨htrace, hfair⟩ ⟨N, hcalls⟩ p n hp
  obtain ⟨m, hm, hidle⟩ := returns htrace hfair hcalls p n
  obtain ⟨k, rfl⟩ := Nat.exists_eq_add_of_le hm
  exact returns_of_idle htrace k hp hidle

/-! ## Three threads -/

/-- Three threads, and a value that does not matter. -/
def three (flag : Bool) (last : Option (Fin 3)) (x y z : Thread (Fin 3) Unit Unit) : Combining (Fin 3) Unit Unit where
  flag
  last
  value := ()
  threads p := if p = 0 then x else if p = 1 then y else z

theorem three_of {s : Combining (Fin 3) Unit Unit} {flag : Bool} {last : Option (Fin 3)} {x y z : Thread (Fin 3) Unit Unit}
    (hflag : s.flag = flag) (hlast : s.last = last) (h0 : s.threads 0 = x) (h1 : s.threads 1 = y) (h2 : s.threads 2 = z) :
    three flag last x y z = s := by
  obtain ⟨f, l, v, t⟩ := s
  subst hflag hlast
  simp only [three, Combining.mk.injEq, true_and]
  funext p
  fin_cases p
  · exact h0.symm
  · exact h1.symm
  · exact h2.symm

def act : Unit → Unit × Unit := fun _ => ((), ())

/-- A thread that was never in a call. -/
def still : Thread (Fin 3) Unit Unit := ⟨.idle, .waiting, none, none, none, false, none, []⟩

/-! ## A combiner that never comes to the end of the queue -/

def fresh (pc : Pc (Fin 3) Unit Unit) (next : Option (Fin 3)) : Thread (Fin 3) Unit Unit :=
  ⟨pc, .waiting, next, some act, none, false, some act, []⟩

def served (pc : Pc (Fin 3) Unit Unit) (status : Status) (next : Option (Fin 3)) : Thread (Fin 3) Unit Unit :=
  ⟨pc, status, next, none, some (), false, some act, [()]⟩

/-- The first thread combines and is about to serve the second, behind which the third waits. -/
def working : Combining (Fin 3) Unit Unit :=
  three true (some 2) (served (.prefetch 1) .done (some 1)) (fresh (.wait 100) (some 2)) (fresh (.wait 100) none)

/-- The next state, if the thread can take the step. -/
def exec (s : Combining (Fin 3) Unit Unit) : Action (Fin 3) Unit Unit → Option (Combining (Fin 3) Unit Unit)
  | .call p action =>
    match (s.threads p).pc with
    | .idle =>
      let s := s.on p fun t => { t with pc := .enter action, given := some action, seen := [] }
      some (three s.flag s.last (s.threads 0) (s.threads 1) (s.threads 2))
    | _ => none
  | .step p =>
    match (s.threads p).pc with
    | .idle | .fault | .asleep => none
    | _ =>
      let s := s.thread_step p
      some (three s.flag s.last (s.threads 0) (s.threads 1) (s.threads 2))
  | .rest => none

theorem exec_step (s : Combining (Fin 3) Unit Unit) (a : Action (Fin 3) Unit Unit) (s' : Combining (Fin 3) Unit Unit)
    (h : exec s a = some s') : (system (Fin 3) Unit Unit).step s a s' := by
  unfold exec at h
  split at h
  · split at h
    · next hpc =>
      cases h
      exact ⟨hpc, three_of rfl rfl rfl rfl rfl⟩
    · cases h
  · next p =>
    have henabled : ∀ t : Combining (Fin 3) Unit Unit, (s.threads p).pc ≠ .idle → (s.threads p).pc ≠ .fault →
        (s.threads p).pc ≠ .asleep → t = s.thread_step p → (system (Fin 3) Unit Unit).step s (.step p) t := by
      intro t hidle hfault hasleep ht
      refine ⟨?_, ht⟩
      unfold Enabled
      split
      · next hpc => exact hidle hpc
      · next hpc => exact hfault hpc
      · next hpc => exact absurd hpc hasleep
      · trivial
    split at h
    · cases h
    · cases h
    · cases h
    · next hidle hfault hasleep =>
      cases h
      exact henabled _ hidle hfault hasleep (three_of rfl rfl rfl rfl rfl)
  · cases h

/-- The second thread takes the flag, so that the first one publishes a node; then the other two do. -/
theorem working_reachable : (system (Fin 3) Unit Unit).Reachable working := by
  have hinit : (system (Fin 3) Unit Unit).Run [] (three false none still still still) := by
    refine .init ⟨rfl, rfl, fun p => ?_⟩
    fin_cases p <;> rfl
  have hrun := hinit.foldlM exec_step
    [.call 1 act, .step 1, .step 1, .call 0 act, .step 0, .step 0, .step 0, .step 1, .step 1, .step 1, .step 1, .step 0,
     .call 1 act, .step 1, .step 1, .step 1, .call 2 act, .step 2, .step 2, .step 2, .step 0, .step 0, .step 0, .step 0, .step 0]
    (show _ = some working from rfl)
  exact hrun.reachable

/-- The combiner serves the two that wait and comes to the end of the queue, and then all three return. -/
def serving : List (Action (Fin 3) Unit Unit) :=
  List.replicate 14 (.step 0) ++ List.replicate 4 (.step 1) ++ List.replicate 4 (.step 2)

theorem combining_serves_contended : Safe working ∧ ∃ s, s 0 = working ∧ ∀ p, Returns s p 0 := by
  obtain ⟨y, hrun, hidle⟩ : ∃ y, serving.foldlM exec working = some y ∧ ∀ p, (y.threads p).pc = .idle :=
    ⟨_, rfl, fun p => by fin_cases p <;> rfl⟩
  have hserving := Lts.Run.foldlM (L := (system (Fin 3) Unit Unit).start working) exec_step serving (.init rfl) hrun
  obtain ⟨s, a, h0, hstep, hend⟩ := hserving.stay (b := .rest) rfl
  have htrace : (system (Fin 3) Unit Unit).Trace s a := ⟨h0 ▸ working_reachable, hstep⟩
  have hfair : Lts.Fair Enabled Action.step s a := by
    intro p n
    refine ⟨max n serving.length, le_max_left _ _, .inr ?_⟩
    rw [(hend (max n serving.length) (le_max_right n _)).1]
    simp only [Enabled, hidle p, not_false_eq_true]
  have hcalls : ∃ N, ∀ n ≥ N, ∀ p action, a n ≠ .call p action := ⟨_, fun n hn p action => by rw [(hend n hn).2]; rintro ⟨⟩⟩
  refine ⟨combining_serves.1 _ working_reachable, s, h0, fun p => combining_serves.2 s a ⟨htrace, hfair⟩ hcalls p 0 ?_⟩
  rw [h0]
  fin_cases p <;> rintro ⟨⟩

/-- The two that wait are served in turn and call again, each before the combiner reads the link of the other: the
call of the combiner does not return, and every thread keeps taking steps. -/
theorem combining_starves :
    ∃ (s : ℕ → Combining (Fin 3) Unit Unit) (a : ℕ → Action (Fin 3) Unit Unit), FairRun s a ∧
      (∀ p n, ∃ m ≥ n, a m = .step p) ∧ ∀ n, ((s n).threads 0).pc ≠ .idle := by
  let busy := (system (Fin 3) Unit Unit).limit fun s _ => (s.threads 0).pc ≠ .idle
  have hstart : (busy.start working).Run [] working := .init rfl
  have hexec : ∀ s a s', (match (s.threads 0).pc with | .idle => none | _ => exec s a) = some s' →
      (busy.start working).step s a s' := by
    intro s a s' h
    split at h
    · cases h
    · next hidle => exact ⟨exec_step s a s' h, hidle⟩
  have hloop := hstart.foldlM hexec
    [.step 0, .step 0, .step 0, .step 0, .step 0, .step 1, .step 1, .step 1, .step 1, .call 1 act, .step 1, .step 1, .step 1,
     .step 0, .step 0, .step 0, .step 0, .step 0, .step 2, .step 2, .step 2, .step 2, .call 2 act, .step 2, .step 2, .step 2]
    (show _ = some working from rfl)
  obtain ⟨s, a, h0, hstep, hagain⟩ := hloop.loop (List.cons_ne_nil _ _)
  have hmoves : ∀ p n, ∃ m ≥ n, a m = .step p := by
    intro p
    apply hagain
    fin_cases p <;> simp
  refine ⟨s, a, ⟨⟨?_, fun n => (hstep n).1⟩, fun p n => ?_⟩, hmoves, fun n => (hstep n).2⟩
  · rw [h0]
    exact working_reachable
  · obtain ⟨m, hm, h⟩ := hmoves p n
    exact ⟨m, hm, .inl h⟩

end Combining

end Rallocator
