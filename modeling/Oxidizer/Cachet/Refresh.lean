import Oxidizer.Lib.Runs
/-!
# Background refresh of a fallback cache

A stale hit marks its key in `in_flight` and spawns a task. The mark is taken by
the caller, before there is a task; the guard that removes it is made by the
task's first poll. Each access to `in_flight` under its lock is one step, and the
executor may poll, end or drop a task at any time.
-/

namespace Cachet

open List

/-- What the primary tier answers; a hit says when the entry was cached, if that is known. -/
inductive Primary where
  | hit (cached_at : Option Nat)
  | other

/-- How a task that has been polled ends. Its guard is dropped in each case. -/
inductive Ending where
  | completed
  | panicked
  | dropped

structure Refresh (K : Type) where
  duration : Nat
  in_flight : Finset K
  /-- The keys of the calls between `try_start_refresh` and `spawn`. -/
  starting : List K
  /-- The keys of the tasks that have not been polled. -/
  spawned : List K
  /-- The keys of the tasks that have their guard. -/
  guarded : List K

inductive Action (K : Type) where
  | get (key : K) (primary : Primary) (now : Nat)
  | spawn (key : K)
  | first_poll (key : K)
  | ends (key : K) (how : Ending)
  | drop_unpolled (key : K)

namespace Refresh
variable {K : Type} [DecidableEq K]

omit [DecidableEq K] in
def should_refresh (s : Refresh K) (cached_at now : Nat) : Bool :=
  -- `duration_since` fails if the clock went backwards
  if cached_at ≤ now then s.duration ≤ now - cached_at else true

def try_start_refresh (s : Refresh K) (key : K) : Bool × Refresh K :=
  (key ∉ s.in_flight, { s with in_flight := insert key s.in_flight })

def finish_refresh (s : Refresh K) (key : K) : Refresh K := { s with in_flight := s.in_flight.erase key }

def do_refresh (s : Refresh K) (key : K) : Refresh K :=
  let (started, s) := s.try_start_refresh key
  if started then { s with starting := key :: s.starting } else s

def get (s : Refresh K) (key : K) (now : Nat) : Primary → Refresh K
  | .hit (some cached_at) => if s.should_refresh cached_at now then s.do_refresh key else s
  | .hit none | .other => s

def step (s : Refresh K) : Action K → Option (Refresh K)
  | .get key primary now => s.get key now primary
  | .spawn key =>
    if key ∈ s.starting then some { s with starting := s.starting.erase key, spawned := key :: s.spawned } else none
  | .first_poll key =>
    if key ∈ s.spawned then some { s with spawned := s.spawned.erase key, guarded := key :: s.guarded } else none
  | .ends key _ =>
    if key ∈ s.guarded then some ({ s with guarded := s.guarded.erase key }.finish_refresh key) else none
  | .drop_unpolled key => if key ∈ s.spawned then some { s with spawned := s.spawned.erase key } else none

/-- The refreshes of a key: those about to be spawned and the tasks there are. -/
def refreshes (s : Refresh K) (key : K) : Nat := s.starting.count key + s.spawned.count key + s.guarded.count key

variable {s s' : Refresh K} {a : Action K}

theorem count_erase_add {l : List K} {k : K} (h : k ∈ l) (key : K) :
    (l.erase k).count key + (if k = key then 1 else 0) = l.count key := by
  rw [count_erase]
  have := count_pos_iff.mpr h
  grind

/-- What a step does to one key: nothing, a refresh starts, it ends, or its task is dropped without having been polled. -/
theorem step_cases (h : s.step a = some s') (key : K) :
    (s'.refreshes key = s.refreshes key ∧ (key ∈ s'.in_flight ↔ key ∈ s.in_flight)) ∨
      (s'.refreshes key = s.refreshes key + 1 ∧ key ∉ s.in_flight ∧ key ∈ s'.in_flight) ∨
      (s.refreshes key = s'.refreshes key + 1 ∧ key ∉ s'.in_flight) ∨
      (a = .drop_unpolled key ∧ s.refreshes key = s'.refreshes key + 1 ∧ (key ∈ s'.in_flight ↔ key ∈ s.in_flight)) := by
  cases a with
  | get k primary now =>
    cases h
    unfold get
    split
    · split
      · simp only [do_refresh, try_start_refresh, decide_eq_true_eq]
        split
        · next hnew =>
          by_cases hk : k = key
          · subst hk
            simp [refreshes, hnew]
            omega
          · simp [refreshes, hk, Ne.symm hk]
        · next hold =>
          have : insert k s.in_flight = s.in_flight := Finset.insert_eq_of_mem (not_not.mp hold)
          simp [refreshes, this]
      · exact .inl ⟨rfl, Iff.rfl⟩
    · exact .inl ⟨rfl, Iff.rfl⟩
    · exact .inl ⟨rfl, Iff.rfl⟩
  | spawn k | first_poll k =>
    obtain ⟨hk, h⟩ := Option.ite_none_right_eq_some.mp h
    cases h
    have := count_erase_add hk key
    refine .inl ⟨?_, Iff.rfl⟩
    simp only [refreshes, count_cons, beq_iff_eq]
    omega
  | ends k how =>
    obtain ⟨hk, h⟩ := Option.ite_none_right_eq_some.mp h
    cases h
    have := count_erase_add hk key
    simp only [refreshes, finish_refresh]
    grind
  | drop_unpolled k =>
    obtain ⟨hk, h⟩ := Option.ite_none_right_eq_some.mp h
    cases h
    have := count_erase_add hk key
    simp only [refreshes]
    grind

def system (K : Type) [DecidableEq K] : Lib.Lts (Refresh K) (Action K) where
  init s := s.in_flight = ∅ ∧ s.starting = [] ∧ s.spawned = [] ∧ s.guarded = []
  step s a s' := s.step a = some s'

theorem refreshes_le (h : (system K).Reachable s) (key : K) : s.refreshes key ≤ if key ∈ s.in_flight then 1 else 0 := by
  refine Lib.Lts.Reachable.inv (fun s => s.refreshes key ≤ if key ∈ s.in_flight then 1 else 0) ?_ ?_ h
  · rintro s ⟨h, h1, h2, h3⟩
    simp [refreshes, h1, h2, h3]
  · rintro s a s' - ih hs
    have := step_cases hs key
    grind

/-- A mark stands for a refresh, as long as no task of the key is dropped before its first poll. -/
theorem refreshes_eq {key : K} (h : ((system K).limit fun _ a => a ≠ .drop_unpolled key).Reachable s) :
    s.refreshes key = if key ∈ s.in_flight then 1 else 0 := by
  refine Lib.Lts.Reachable.inv (L := (system K).limit _)
    (fun s => s.refreshes key = if key ∈ s.in_flight then 1 else 0) ?_ ?_ h
  · rintro s ⟨h, h1, h2, h3⟩
    simp [refreshes, h, h1, h2, h3]
  · rintro s a s' - ih ⟨hs, hne⟩
    have := step_cases hs key
    grind

/-- In every interleaving a key has at most one refresh. If none of its tasks is dropped before its first poll, a key
without a refresh is not marked, and the next stale hit starts one. -/
theorem refresh_starts_again :
    (∀ s, (system K).Reachable s → ∀ key, s.refreshes key ≤ 1) ∧
      ∀ key s, ((system K).limit fun _ a => a ≠ .drop_unpolled key).Reachable s → s.refreshes key = 0 →
        key ∉ s.in_flight ∧ ∀ cached_at now, s.should_refresh cached_at now = true →
          key ∈ (s.get key now (.hit (some cached_at))).starting := by
  constructor
  · intro s h key
    have := refreshes_le h key
    grind
  · intro key s h hnone
    have hkey : key ∉ s.in_flight := by
      have := refreshes_eq h
      grind
    refine ⟨hkey, fun cached_at now hstale => ?_⟩
    simp [get, hstale, do_refresh, try_start_refresh, hkey]

/-- The refresh of a stale hit panics, and the next stale hit starts another one. -/
theorem refresh_starts_again_panicked : ∃ s : Refresh Unit,
    ((system Unit).limit fun _ a => a ≠ .drop_unpolled ()).Reachable s ∧ s.refreshes () ≤ 1 ∧
      s.should_refresh 3 5 = true ∧ () ∈ (s.get () 5 (.hit (some 3))).starting := by
  have h : ((system Unit).limit fun _ a => a ≠ .drop_unpolled ()).Reachable ⟨1, ∅, [], [], []⟩ :=
    ⟨[], .init ⟨rfl, rfl, rfl, rfl⟩⟩
  have h := h.step (a := Action.get () (.hit (some 0)) 1) ⟨rfl, nofun⟩
  have h := h.step (a := Action.spawn ()) ⟨rfl, nofun⟩
  have h := h.step (a := Action.first_poll ()) ⟨rfl, nofun⟩
  have h := h.step (a := Action.ends () .panicked) ⟨rfl, nofun⟩
  exact ⟨_, h, refresh_starts_again.1 _ h.of_limit (), rfl, (refresh_starts_again.2 () _ h rfl).2 3 5 rfl⟩

theorem stuck_forever {key : K} (hmark : key ∈ s.in_flight) (hnone : s.refreshes key = 0) (as : List (Action K))
    (h : as.foldlM step s = some s') : key ∈ s'.in_flight ∧ s'.refreshes key = 0 := by
  induction as generalizing s with
  | nil => cases h; exact ⟨hmark, hnone⟩
  | cons a as ih =>
    obtain ⟨t, ht, h⟩ := Option.bind_eq_some_iff.mp h
    have := step_cases ht key
    exact ih (by grind) (by grind) h

/-- The task of the first stale hit is dropped before its first poll: no later hit refreshes the key again. -/
theorem unpolled_drop_sticks : ∃ s, (system Unit).Reachable s ∧ s.spawned = [] ∧ s.guarded = [] ∧ () ∈ s.in_flight ∧
    ∀ (as : List (Action Unit)) s', as.foldlM step s = some s' → () ∈ s'.in_flight ∧ s'.refreshes () = 0 := by
  have hrun : (system Unit).Run ([] ++ [.get () (.hit (some 0)) 1, .spawn (), .drop_unpolled ()]) _ :=
    .foldlM (fun _ _ _ h => h) _ (.init (s := ⟨1, ∅, [], [], []⟩) ⟨rfl, rfl, rfl, rfl⟩) rfl
  exact ⟨_, hrun.reachable, rfl, rfl, Finset.mem_insert_self _ _, fun as s' =>
    stuck_forever (Finset.mem_insert_self _ _) rfl as⟩

end Refresh

end Cachet
