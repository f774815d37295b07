import Oxidizer.Lib.Runs
/-!
# The native read-write lock

One word counts the readers, or is all ones below its highest bit for a writer;
the highest bit says that threads may sleep at the word. `wait_on_address`
compares and sleeps in one step, and `wake_all_at_address` wakes every sleeper.
`readers` and `writers` are the guards there are. A thread may have several and
goes on between them; no step of an acquisition reads the two counts.
-/

namespace Performables

open Lib

namespace NativeLock

def WAITERS : Nat := 2 ^ 31
def WRITER : Nat := WAITERS - 1
def MAX_READERS : Nat := WRITER - 1
def WRITER_WAITING : Nat := 2 ^ 32 - 1

/-- `state & OWNERS`. -/
def owners (state : Nat) : Nat := state % WAITERS

/-- `state | WAITERS`. -/
def marked (state : Nat) : Nat := if state < WAITERS then state + WAITERS else state

/-- Where `try_read` and `try_write` are called from: by the user, first in `read` or `write`, or in a loop. -/
inductive Site where
  | once
  | first
  | again
deriving DecidableEq

inductive Pc where
  | idle
  /-- in `try_read`, before the word is loaded -/
  | try_load (site : Site)
  | try_cas (site : Site) (seen : Nat)
  /-- in `read_contended_with`, once `try_read` has failed -/
  | read_load
  | read_register (seen : Nat)
  | try_write (site : Site)
  /-- in `write_contended_with` -/
  | write_load
  | write_acquire (seen : Nat)
  | write_register (seen : Nat)
  /-- in `wait_on_address`, before the word is compared -/
  | park (shared : Bool) (expected : Nat)
  | asleep (shared : Bool)
  /-- in `read_unlock_contended` -/
  | clear
  /-- before all are woken -/
  | wake
  | panicked
deriving DecidableEq

end NativeLock

open NativeLock in
structure NativeLock (ι : Type) where
  state : Nat
  threads : ι → Pc
  readers : Nat
  writers : Nat

namespace NativeLock
variable {ι : Type} [DecidableEq ι]

def goto (s : NativeLock ι) (p : ι) (pc : Pc) : NativeLock ι :=
  { s with threads := fun q => if q = p then pc else s.threads q }

def read_failed : Site → Pc
  | .once => .idle
  | .first => .try_load .again
  | .again => .read_load

def write_failed : Site → Pc
  | .once => .idle
  | _ => .write_load

/-- The loop of `write_contended_with` with a word it has read. -/
def write_loop (state : Nat) : Pc := if owners state = 0 then .write_acquire state else .write_register state

def resume (shared : Bool) : Pc := if shared then .try_load .again else .write_load

/-- The next step of a thread; `spurious` is a failure of a weak exchange that nobody caused. -/
def step (s : NativeLock ι) (p : ι) (spurious : Bool) : NativeLock ι :=
  match s.threads p with
  | .idle | .asleep _ | .panicked => s
  | .try_load site => s.goto p (if s.state < MAX_READERS then .try_cas site s.state else read_failed site)
  | .try_cas site seen =>
    if s.state = seen ∧ ¬spurious then { s with state := seen + 1, readers := s.readers + 1 }.goto p .idle
    else s.goto p (if s.state < MAX_READERS then .try_cas site s.state else read_failed site)
  | .read_load =>
    s.goto p (if owners s.state = MAX_READERS then .panicked
      else if s.state < MAX_READERS then .try_load .again else .read_register s.state)
  | .read_register seen =>
    if s.state = seen then { s with state := marked seen }.goto p (.park true (marked seen)) else s.goto p (.try_load .again)
  | .try_write site =>
    if s.state = 0 then { s with state := WRITER, writers := s.writers + 1 }.goto p .idle else s.goto p (write_failed site)
  | .write_load => s.goto p (write_loop s.state)
  | .write_acquire seen =>
    if s.state = seen ∧ ¬spurious then { s with state := WRITER_WAITING, writers := s.writers + 1 }.goto p .idle
    else s.goto p (write_loop s.state)
  | .write_register seen =>
    if s.state = seen then { s with state := marked seen }.goto p (.park false (marked seen))
    else s.goto p (write_loop s.state)
  | .park shared expected => s.goto p (if s.state = expected then .asleep shared else resume shared)
  | .clear => if s.state = WAITERS then { s with state := 0 }.goto p .wake else s.goto p .idle
  | .wake => { s with threads := fun q => match s.threads q with | .asleep shared => resume shared | pc => pc }.goto p .idle

/-- `read_unlock`, up to the waking of sleepers. -/
def read_unlock (s : NativeLock ι) (p : ι) : NativeLock ι :=
  { s with state := s.state - 1, readers := s.readers - 1 }.goto p (if s.state = WAITERS + 1 then .clear else .idle)

/-- `write_unlock`, up to the waking of sleepers. -/
def write_unlock (s : NativeLock ι) (p : ι) : NativeLock ι :=
  { s with state := 0, writers := s.writers - 1 }.goto p (if WAITERS ≤ s.state then .wake else .idle)

inductive Action (ι : Type) where
  /-- `read` or `try_read`, `write` or `try_write` -/
  | call (p : ι) (shared blocking : Bool)
  | step (p : ι) (spurious : Bool)
  | read_unlock (p : ι)
  | write_unlock (p : ι)
  /-- a sleeper wakes for no reason -/
  | spurious (p : ι)

def call (s : NativeLock ι) (p : ι) (shared blocking : Bool) : NativeLock ι :=
  let site := if blocking then .first else .once
  s.goto p (if shared then .try_load site else .try_write site)

def system (ι : Type) [DecidableEq ι] : Lts (NativeLock ι) (Action ι) where
  init s := s.state = 0 ∧ (∀ p, s.threads p = .idle) ∧ s.readers = 0 ∧ s.writers = 0
  step s a s' :=
    match a with
    | .call p shared blocking => s.threads p = .idle ∧ s' = s.call p shared blocking
    | .step p spurious => s' = s.step p spurious
    | .read_unlock p => s.threads p = .idle ∧ 0 < s.readers ∧ s' = s.read_unlock p
    | .write_unlock p => s.threads p = .idle ∧ 0 < s.writers ∧ s' = s.write_unlock p
    | .spurious p => ∃ shared, s.threads p = .asleep shared ∧ s' = s.goto p (resume shared)

/-! ## The invariant -/

/-- What a thread knows of the word it has read. -/
def Pc.Ok : Pc → Prop
  | .try_cas _ seen => seen < MAX_READERS
  | .read_register seen => MAX_READERS < seen
  | .write_acquire seen => owners seen = 0
  | .write_register seen => owners seen ≠ 0
  | .park _ expected => WAITERS ≤ expected
  | _ => True

/-- The word counts the guards. -/
def Counts (state readers writers : Nat) : Prop :=
  state ≤ WRITER_WAITING ∧ (writers = 0 ∧ owners state = readers ∧ readers ≤ MAX_READERS ∨
    writers = 1 ∧ readers = 0 ∧ owners state = WRITER)

structure Inv (s : NativeLock ι) : Prop where
  counts : Counts s.state s.readers s.writers
  ok : ∀ p, (s.threads p).Ok
  /-- the bit stands alone only until the last reader clears it -/
  alone : WAITERS ≤ s.state → owners s.state = 0 → ∃ q, s.threads q = .clear
  asleep : ∀ p shared, s.threads p = .asleep shared → WAITERS ≤ s.state ∨ ∃ q, s.threads q = .wake

/-- In the second part of an unlock. -/
def Pc.unlocks : Pc → Bool
  | .clear | .wake => true
  | _ => false

def Pc.awake : Pc → Bool
  | .asleep _ => false
  | _ => true

variable {s s' : NativeLock ι} {p : ι} {old pc : Pc}

@[simp] theorem goto_threads (s : NativeLock ι) (p q : ι) (pc : Pc) :
    (s.goto p pc).threads q = if q = p then pc else s.threads q := rfl

variable (inv : Inv s)
include inv

theorem Inv.change (threads : ∀ q, s'.threads q = if q = p then pc else s.threads q)
    (counts : Counts s'.state s'.readers s'.writers) (ok : pc.Ok)
    (alone : WAITERS ≤ s'.state → owners s'.state = 0 → pc = .clear ∨
      s.threads p ≠ .clear ∧ WAITERS ≤ s.state ∧ owners s.state = 0)
    (bit : WAITERS ≤ s.state → WAITERS ≤ s'.state ∨ pc = .wake) (wakes : s.threads p ≠ .wake)
    (asleep : ∀ shared, pc = .asleep shared → WAITERS ≤ s'.state) : Inv s' := by
  have hself : s'.threads p = pc := by rw [threads, if_pos rfl]
  have hkeep : ∀ x, s.threads p ≠ x → (∃ q, s.threads q = x) → ∃ q, s'.threads q = x := by
    rintro x hne ⟨q, hq⟩
    refine ⟨q, ?_⟩
    rw [threads, if_neg (by rintro rfl; exact hne hq), hq]
  refine ⟨counts, fun q => ?_, fun hw ho => ?_, fun q shared hq => ?_⟩
  · rw [threads]
    split
    · exact ok
    · exact inv.ok q
  · rcases alone hw ho with h | ⟨hne, hw, ho⟩
    · exact ⟨p, hself.trans h⟩
    · exact hkeep _ hne (inv.alone hw ho)
  · rw [threads] at hq
    split at hq
    · exact .inl (asleep shared hq)
    · rcases inv.asleep q shared hq with hw | hw
      · exact (bit hw).imp id fun h => ⟨p, hself.trans h⟩
      · exact .inr (hkeep _ wakes hw)

variable (hpc : s.threads p = old)
include hpc

omit [DecidableEq ι] inv in
theorem not_unlocks (hold : old.unlocks = false) : s.threads p ≠ .clear ∧ s.threads p ≠ .wake := by
  constructor <;> intro h <;> rw [hpc.symm.trans h] at hold <;> cases hold

theorem Inv.moves (hold : old.unlocks = false) (h : pc.Ok ∧ pc.awake = true) :
    Inv (s.goto p pc) := by
  obtain ⟨hclear, hwake⟩ := not_unlocks hpc hold
  refine inv.change (fun _ => rfl) inv.counts h.1 (fun hw ho => .inr ⟨hclear, hw, ho⟩) .inl hwake ?_
  rintro shared rfl
  cases h.2

omit inv hpc in
theorem read_try_ok (site : Site) (state : Nat) : let pc := if state < MAX_READERS then Pc.try_cas site state else read_failed site
    pc.Ok ∧ pc.awake = true := by
  intro pc
  unfold pc
  split
  · next h => exact ⟨h, rfl⟩
  · cases site <;> exact ⟨trivial, rfl⟩

omit inv hpc in
theorem write_loop_ok (state : Nat) : (write_loop state).Ok ∧ (write_loop state).awake = true := by
  unfold write_loop
  split
  · next h => exact ⟨h, rfl⟩
  · next h => exact ⟨h, rfl⟩

omit inv hpc in
theorem resume_ok (shared : Bool) : (resume shared).Ok ∧ (resume shared).awake = true := by
  cases shared <;> exact ⟨trivial, rfl⟩

theorem Inv.marks (hold : old.unlocks = false) (shared : Bool)
    (hne : s.state < WAITERS → owners s.state ≠ 0) :
    Inv ({ s with state := marked s.state }.goto p (.park shared (marked s.state))) := by
  have hmarked : WAITERS ≤ marked s.state ∧ owners (marked s.state) = owners s.state ∧
      (s.state ≤ WRITER_WAITING → marked s.state ≤ WRITER_WAITING) := by
    unfold marked owners WRITER_WAITING WAITERS
    split <;> omega
  have hcounts := inv.counts
  refine inv.change (fun _ => rfl) ?_ hmarked.1 (fun _ ho => .inr ⟨(not_unlocks hpc hold).1, ?_, ?_⟩)
    (fun _ => .inl hmarked.1) (not_unlocks hpc hold).2 nofun
  · show Counts (marked s.state) s.readers s.writers
    rw [Counts, hmarked.2.1]
    exact ⟨hmarked.2.2 hcounts.1, hcounts.2⟩
  · by_contra hlt
    exact hne (Nat.not_le.mp hlt) (hmarked.2.1.symm.trans ho)
  · exact hmarked.2.1.symm.trans ho

theorem Inv.takes_write {state : Nat} (hold : old.unlocks = false)
    (hfree : owners s.state = 0) (hstate : state ≤ WRITER_WAITING ∧ owners state = WRITER)
    (hbit : WAITERS ≤ s.state → WAITERS ≤ state) :
    Inv ({ s with state, writers := s.writers + 1 }.goto p .idle) := by
  obtain ⟨-, ⟨hw, hr, -⟩ | ⟨-, -, hw⟩⟩ := inv.counts
  · refine inv.change (fun _ => rfl) ⟨hstate.1, .inr ⟨?_, ?_, hstate.2⟩⟩ trivial (fun _ ho => ?_) (fun h => .inl (hbit h))
      (not_unlocks hpc hold).2 nofun
    · show s.writers + 1 = 1
      omega
    · exact hr.symm.trans hfree
    · exact absurd (hstate.2.symm.trans ho) (by decide)
  · exact absurd (hfree.symm.trans hw) (by decide)

theorem Inv.takes_read (hold : old.unlocks = false) (hlt : s.state < MAX_READERS) :
    Inv ({ s with state := s.state + 1, readers := s.readers + 1 }.goto p .idle) := by
  have hcounts := inv.counts
  refine inv.change (fun _ => rfl) ?_ trivial (fun hw => ?_) (fun hw => ?_) (not_unlocks hpc hold).2 nofun
  · show Counts (s.state + 1) (s.readers + 1) s.writers
    unfold Counts owners WRITER_WAITING MAX_READERS WRITER WAITERS at *
    omega
  · have : WAITERS ≤ s.state + 1 := hw
    unfold MAX_READERS WRITER at hlt
    omega
  · unfold MAX_READERS WRITER at hlt
    omega

omit hpc

theorem Inv.clears (hpc : s.threads p = .clear) :
    Inv (if s.state = WAITERS then { s with state := 0 }.goto p .wake else s.goto p .idle) := by
  have hcounts := inv.counts
  split
  · next hs =>
    refine inv.change (fun _ => rfl) ?_ trivial nofun (fun _ => .inr rfl) (by rw [hpc]; nofun) nofun
    have hzero : owners WAITERS = owners 0 := rfl
    rw [hs, Counts, hzero] at hcounts
    exact ⟨Nat.zero_le _, hcounts.2⟩
  · next hs =>
    refine inv.change (fun _ => rfl) hcounts trivial (fun hw ho => absurd ?_ hs) .inl (by rw [hpc]; nofun) nofun
    have hword : s.state ≤ WRITER_WAITING := hcounts.1
    have ho : owners s.state = 0 := ho
    have hw : WAITERS ≤ s.state := hw
    unfold owners WRITER_WAITING WAITERS at *
    omega

theorem Inv.wakes (hpc : s.threads p = .wake) : Inv ({ s with
    threads := fun q => match s.threads q with | .asleep shared => resume shared | pc => pc }.goto p .idle) := by
  refine ⟨inv.counts, fun q => ?_, fun hw ho => ?_, fun q shared hq => ?_⟩
  · rw [goto_threads]
    split
    · trivial
    · have hok := inv.ok q
      dsimp only
      split
      · next shared _ => exact (resume_ok shared).1
      · exact hok
  · obtain ⟨q, hq⟩ := inv.alone hw ho
    have hne : q ≠ p := by rintro rfl; rw [hpc] at hq; cases hq
    exact ⟨q, by simp [hne, hq]⟩
  · -- no one is left asleep
    rw [goto_threads] at hq
    split at hq
    · cases hq
    · dsimp only at hq
      split at hq
      · next shared' _ =>
        have hawake := (resume_ok shared').2
        rw [hq] at hawake
        cases hawake
      · next hnot => exact absurd hq (hnot shared)

theorem Inv.step (spurious : Bool) : Inv (s.step p spurious) := by
  have hok := inv.ok p
  unfold NativeLock.step
  cases hpc : s.threads p <;> rw [hpc] at hok <;> dsimp only
  case idle | asleep | panicked => exact inv
  case clear => exact inv.clears hpc
  case wake => exact inv.wakes hpc
  case try_load site => exact inv.moves hpc rfl (read_try_ok site s.state)
  case try_cas site seen =>
    split
    · next h => exact h.1 ▸ inv.takes_read hpc rfl (h.1 ▸ hok)
    · exact inv.moves hpc rfl (read_try_ok site s.state)
  case read_load =>
    apply inv.moves hpc rfl
    split
    · exact ⟨trivial, rfl⟩
    · next hne =>
      split
      · exact ⟨trivial, rfl⟩
      · next hge =>
        have hself : owners MAX_READERS = MAX_READERS := by decide
        exact ⟨Nat.lt_of_le_of_ne (Nat.not_lt.mp hge) fun h => hne (h ▸ hself), rfl⟩
  case read_register seen =>
    split
    · next h =>
      subst h
      refine inv.marks hpc rfl true fun hlt => ?_
      have hgt : MAX_READERS < s.state := hok
      rw [owners, Nat.mod_eq_of_lt hlt]
      omega
    · exact inv.moves hpc rfl ⟨trivial, rfl⟩
  case try_write site =>
    split
    · next h =>
      refine inv.takes_write hpc rfl (by rw [h]; rfl) (by decide) fun hw => ?_
      rw [h] at hw
      cases hw
    · cases site <;> exact inv.moves hpc rfl ⟨trivial, rfl⟩
  case write_load => exact inv.moves hpc rfl (write_loop_ok _)
  case write_acquire seen =>
    split
    · next h => exact inv.takes_write hpc rfl (h.1 ▸ hok) (by decide) fun _ => by decide
    · exact inv.moves hpc rfl (write_loop_ok _)
  case write_register seen =>
    split
    · next h =>
      subst h
      exact inv.marks hpc rfl false fun _ => hok
    · exact inv.moves hpc rfl (write_loop_ok _)
  case park shared expected =>
    split
    · next h =>
      obtain ⟨hclear, hwake⟩ := not_unlocks hpc rfl
      exact inv.change (fun _ => rfl) inv.counts trivial (fun hw ho => .inr ⟨hclear, hw, ho⟩) .inl hwake fun _ _ => h ▸ hok
    · exact inv.moves hpc rfl (resume_ok shared)

theorem Inv.read_unlock (hpc : s.threads p = .idle) (hpos : 0 < s.readers) : Inv (s.read_unlock p) := by
  have hcounts := inv.counts
  refine inv.change (fun _ => rfl) ?_ (by split <;> trivial) (fun hw ho => .inl (if_pos ?_)) (fun hw => .inl ?_)
    (by rw [hpc]; nofun) (by split <;> nofun)
  · show Counts (s.state - 1) (s.readers - 1) s.writers
    unfold Counts owners WRITER_WAITING MAX_READERS WRITER WAITERS at *
    omega
  · have hw : WAITERS ≤ s.state - 1 := hw
    have ho : owners (s.state - 1) = 0 := ho
    unfold Counts owners WRITER_WAITING MAX_READERS WRITER WAITERS at *
    omega
  · show WAITERS ≤ s.state - 1
    unfold Counts owners WRITER_WAITING MAX_READERS WRITER WAITERS at *
    omega

theorem Inv.write_unlock (hpc : s.threads p = .idle) (hpos : 0 < s.writers) : Inv (s.write_unlock p) := by
  have hcounts := inv.counts
  refine inv.change (fun _ => rfl) ?_ (by split <;> trivial) nofun (fun hw => .inr (if_pos hw)) (by rw [hpc]; nofun)
    (by split <;> nofun)
  show Counts 0 s.readers (s.writers - 1)
  unfold Counts owners WAITERS at *
  omega

omit inv

theorem Inv.reachable (h : (system ι).Reachable s) : Inv s := by
  refine h.inv Inv ?_ fun s a s' _ inv hs => ?_
  · rintro s ⟨hstate, hidle, hr, hw⟩
    refine ⟨?_, fun p => by rw [hidle]; trivial, fun h => ?_, fun p sh h => ?_⟩
    · rw [hstate, hr, hw]
      exact ⟨Nat.zero_le _, .inl ⟨rfl, rfl, Nat.zero_le _⟩⟩
    · rw [hstate] at h
      cases h
    · rw [hidle] at h
      cases h
  · cases a with
    | call p shared blocking =>
      obtain ⟨hpc, rfl⟩ := hs
      cases shared <;> exact inv.moves hpc rfl ⟨trivial, rfl⟩
    | step p spurious => exact hs ▸ inv.step spurious
    | read_unlock p => obtain ⟨hpc, hpos, rfl⟩ := hs; exact inv.read_unlock hpc hpos
    | write_unlock p => obtain ⟨hpc, hpos, rfl⟩ := hs; exact inv.write_unlock hpc hpos
    | spurious p =>
      obtain ⟨shared, hpc, rfl⟩ := hs
      exact inv.moves hpc rfl (resume_ok shared)

/-- No thread is between two steps of an operation. -/
def Quiet (s : NativeLock ι) : Prop :=
  ∀ p, s.threads p = .idle ∨ s.threads p = .panicked ∨ ∃ shared, s.threads p = .asleep shared

/-- Whatever the threads do, a write guard is the only guard, the readers are counted below the writer's mark, and no
thread is left asleep at a free lock. -/
theorem native_lock_sound (s : NativeLock ι) (h : (system ι).Reachable s) :
    s.writers ≤ 1 ∧ (s.writers = 1 → s.readers = 0) ∧ s.readers ≤ MAX_READERS ∧
      (owners s.state = WRITER ↔ s.writers = 1) ∧ (s.writers = 0 → owners s.state = s.readers) ∧
      ¬ (owners s.state = 0 ∧ Quiet s ∧ ∃ p shared, s.threads p = .asleep shared) := by
  have inv := Inv.reachable h
  have hcounts := inv.counts
  have hmax : MAX_READERS < WRITER := by decide
  refine ⟨?_, ?_, ?_, ?_, ?_, ?_⟩
  case refine_6 =>
    rintro ⟨hfree, hquiet, p, shared, hp⟩
    have hnot : ∀ pc, pc = .clear ∨ pc = .wake → ∀ q, s.threads q ≠ pc := by
      rintro pc hpc q rfl
      rcases hquiet q with h | h | ⟨_, h⟩ <;> rw [h] at hpc <;> simp at hpc
    rcases inv.asleep p shared hp with hw | ⟨q, hq⟩
    · obtain ⟨q, hq⟩ := inv.alone hw hfree
      exact hnot _ (.inl rfl) q hq
    · exact hnot _ (.inr rfl) q hq
  all_goals
    unfold Counts at hcounts
    omega

/-! ## A run -/

def exec (s : NativeLock ι) : Action ι → Option (NativeLock ι)
  | .call p shared blocking => if s.threads p = .idle then some (s.call p shared blocking) else none
  | .step p spurious => some (s.step p spurious)
  | .read_unlock p => if s.threads p = .idle ∧ 0 < s.readers then some (s.read_unlock p) else none
  | _ => none

theorem exec_step (s : NativeLock ι) (a : Action ι) (s' : NativeLock ι) (h : exec s a = some s') :
    (system ι).step s a s' := by
  cases a with
  | call p shared blocking =>
    obtain ⟨hpc, h⟩ := Option.ite_none_right_eq_some.mp h
    exact ⟨hpc, (Option.some.inj h).symm⟩
  | step p spurious => exact (Option.some.inj h).symm
  | read_unlock p =>
    obtain ⟨⟨hpc, hpos⟩, h⟩ := Option.ite_none_right_eq_some.mp h
    exact ⟨hpc, hpos, (Option.some.inj h).symm⟩
  | write_unlock p => cases h
  | spurious p => cases h

def unused : NativeLock Nat := ⟨0, fun _ => .idle, 0, 0⟩

/-- A thread reads, and another one waits to write. -/
def waiting_run : List (Action Nat) :=
  [.call 0 true false, .step 0 false, .step 0 false, .call 1 false true, .step 1 false, .step 1 false, .step 1 false,
    .step 1 false]

theorem native_lock_sound_waiting : ∃ s : NativeLock Nat, (system Nat).Reachable s ∧ s.threads 1 = .asleep false ∧
    owners s.state ≠ 0 ∧ s.readers = 1 ∧ s.writers ≤ 1 := by
  obtain ⟨s, hrun, hasleep, howners, hreaders⟩ : ∃ s, waiting_run.foldlM exec unused = some s ∧ s.threads 1 = .asleep false ∧
      owners s.state ≠ 0 ∧ s.readers = 1 := ⟨_, rfl, rfl, by decide, rfl⟩
  have hreach := (Lts.Run.foldlM exec_step waiting_run (.init ⟨rfl, fun _ => rfl, rfl, rfl⟩) hrun).reachable
  exact ⟨s, hreach, hasleep, howners, hreaders, (native_lock_sound s hreach).1⟩

end NativeLock

end Performables
