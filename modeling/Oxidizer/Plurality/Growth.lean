import Oxidizer.Plurality.Pool
/-!
# Growth under an allocator that uses the pool

`allocate` and the allocation of a directory buffer run arbitrary operations on the same
pool, nested to any finite depth, before they answer. A chunk is known by its base index.
`violations` counts the debug assertions that fail; the one before the push is that the push
does not reallocate. `held` are the slots that were handed out.
-/

namespace Plurality

open List

structure Growth where
  directory : List Nat
  capacity : Nat
  chunks_allocated : Nat
  free : List Nat
  held : List Nat
  violations : Nat

namespace Growth

mutual

/-- An operation, with what the allocator does each time that it is called meanwhile. -/
inductive Op where
  | alloc (escape : Nat → Escape)
  | free (slot : Nat)

/-- Operations on the pool, and then memory, with room beyond what was asked for, or a failure. -/
inductive Escape where
  | answer (room : Option Nat)
  | nested (op : Op) (rest : Escape)

end

/-- What a call does to the pool, and its result; there is none if a loop runs out of fuel. -/
def Effect : Type := Growth → Option (Growth × Option Nat)

def new : Growth := ⟨[], 0, 0, [], [], 0⟩

def debug_assert (s : Growth) (holds : Bool) : Growth := { s with violations := s.violations + if holds then 0 else 1 }

def has_room (s : Growth) : Bool := s.directory.length < s.capacity

/-- The `k`th call of the allocator is the next one. -/
def reserve_one (escape : Nat → Effect) : (fuel k : Nat) → (previous : Option Nat) → Growth → Option (Growth × Bool)
  | 0, _, _, _ => none
  | fuel + 1, k, previous, s =>
    if s.has_room then some (s, true)
    else
      let target := if s.capacity = 0 then 4 else min (s.capacity * 2) (2 ^ 64 - 1)
      match escape k (s.debug_assert (previous.all (· < s.capacity))) with
      | none => none
      | some (s', none) => some (s', false)
      | some (s', some room) =>
        let live := s'.directory.length
        if target ≤ live then reserve_one escape fuel (k + 1) (some s.capacity) s'
        else
          let fresh := s'.directory.take live
          some ({ s' with directory := fresh, capacity := target + room }, true)

/-- The chunk is published: its first slot is the caller's, and the others are free. -/
def publish (n : Nat) (s : Growth) : Growth × Option Nat :=
  let base_index := s.chunks_allocated * n % 2 ^ 32
  let s := s.debug_assert s.has_room
  ({ s with
      directory := s.directory ++ [base_index]
      capacity := max s.capacity (s.directory.length + 1)
      chunks_allocated := s.chunks_allocated + 1
      free := (List.range (n - 1)).map (fun i => (base_index + 1 + i) % 2 ^ 32) ++ s.free
      held := base_index :: s.held }, some base_index)

def grow (n cap : Nat) (escape : Nat → Effect) : Effect := fun s =>
  if cap ≤ s.chunks_allocated then some (s, none)
  else
    match escape 0 s with
    | none => none
    | some (s, none) => some (s, none)
    | some (s, some _) =>
      match reserve_one escape (cap + 1) 1 none s with
      | none => none
      | some (s, false) => some (s, none)
      | some (s, true) => if cap ≤ s.chunks_allocated then some (s, none) else some (s.publish n)

def pop_free (s : Growth) : Growth × Option Nat :=
  match s.free with
  | [] => (s, none)
  | slot :: free => ({ s with free, held := slot :: s.held }, some slot)

def alloc_slot_by_growing (n cap : Nat) (escape : Nat → Effect) : Effect := fun s =>
  match grow n cap escape s with
  | none => none
  | some (s, some slot) => some (s, some slot)
  | some (s, none) => some s.pop_free

def alloc_slot (n cap : Nat) (escape : Nat → Effect) : Effect := fun s =>
  match s.pop_free with
  | (s, some slot) => some (s, some slot)
  | (s, none) => alloc_slot_by_growing n cap escape s

def release (s : Growth) (slot : Nat) : Growth :=
  if slot ∈ s.held then { s with held := s.held.erase slot, free := slot :: s.free } else s

mutual

def Op.run (n cap : Nat) : Op → Effect
  | .alloc escape => alloc_slot n cap fun k => (escape k).run n cap
  | .free slot => fun s => some (s.release slot, none)

def Escape.run (n cap : Nat) : Escape → Effect
  | .answer room => fun s => some (s, room)
  | .nested op rest => fun s => (op.run n cap s).bind fun r => rest.run n cap r.1

end

/-- Operations one after the other on an empty pool. -/
def runs (n cap : Nat) (ops : List Op) : Option Growth := ops.foldlM (fun s op => (op.run n cap s).map Prod.fst) new

/-! ## The invariant -/

structure Inv (n cap : Nat) (s : Growth) : Prop where
  directory : s.directory = (List.range s.chunks_allocated).map (· * n)
  capped : s.chunks_allocated ≤ cap
  fits : s.chunks_allocated ≤ s.capacity
  slots : ∀ i, i ∈ s.free ∨ i ∈ s.held → i < s.chunks_allocated * n
  sound : s.violations = 0

variable {n cap : Nat} {s : Growth} {escape : Nat → Effect}

theorem Inv.length (h : Inv n cap s) : s.directory.length = s.chunks_allocated := by simp [h.directory]

theorem Inv.room (h : Inv n cap s) : s.has_room = true ↔ s.chunks_allocated < s.capacity := by simp [has_room, h.length]

theorem debug_assert_true {holds : Bool} (h : holds = true) : s.debug_assert holds = s := by simp [debug_assert, h]

/-- A call ends, keeps the invariant and takes no chunk from the directory. -/
def Effect.Good (n cap : Nat) (effect : Effect) : Prop :=
  ∀ s, Inv n cap s → ∃ s' r, effect s = some (s', r) ∧ Inv n cap s' ∧ s.chunks_allocated ≤ s'.chunks_allocated

theorem reserve_one_good (hcap : cap < 2 ^ 32) (hescape : ∀ k, (escape k).Good n cap) (fuel k : Nat) (previous : Option Nat) (s : Growth)
    (inv : Inv n cap s) (hfuel : cap < fuel + s.chunks_allocated) (hprevious : previous.all (· < s.capacity) = true) :
    ∃ s' ok, reserve_one escape fuel k previous s = some (s', ok) ∧ Inv n cap s' ∧ s.chunks_allocated ≤ s'.chunks_allocated ∧
      (ok = true → s'.has_room = true) := by
  induction fuel generalizing k previous s with
  | zero => exact absurd inv.capped (by omega)
  | succ fuel ih =>
    rw [reserve_one, debug_assert_true hprevious]
    by_cases hroom : s.has_room = true
    · exact ⟨s, true, if_pos hroom, inv, Nat.le_refl _, fun _ => hroom⟩
    have hfull : s.capacity = s.chunks_allocated := Nat.le_antisymm (Nat.le_of_not_lt (mt inv.room.mpr hroom)) inv.fits
    have hcapped := inv.capped
    rw [if_neg hroom]
    generalize htarget : (if s.capacity = 0 then 4 else min (s.capacity * 2) (2 ^ 64 - 1)) = target
    have hgrows : s.capacity < target := by
      rw [← htarget]
      split <;> omega
    obtain ⟨s', r, heq, inv', hmono⟩ := hescape k s inv
    simp only [heq]
    cases r with
    | none => exact ⟨s', false, rfl, inv', hmono, nofun⟩
    | some room =>
      have hlength := inv'.length
      have hfits := inv'.fits
      dsimp only
      split
      · obtain ⟨s'', ok, heq', inv'', hmono', hok⟩ :=
          ih (k + 1) (some s.capacity) s' inv' (by omega) (by simp only [Option.all_some, decide_eq_true_eq]; omega)
        exact ⟨s'', ok, heq', inv'', Nat.le_trans hmono hmono', hok⟩
      · rw [take_length]
        refine ⟨_, true, rfl, ⟨inv'.directory, inv'.capped, ?_, inv'.slots, inv'.sound⟩, hmono, fun _ => ?_⟩
        · show s'.chunks_allocated ≤ target + room
          omega
        · simp only [has_room, decide_eq_true_eq]
          omega

section
variable (hn : 0 < n) (hcap : cap * n ≤ MAX_POOL_SLOTS)
include hn hcap

theorem publish_good (inv : Inv n cap s) (hlt : s.chunks_allocated < cap) (hroom : s.has_room = true) :
    Inv n cap (s.publish n).1 := by
  have hend : s.chunks_allocated * n + n ≤ MAX_POOL_SLOTS := by
    rw [← Nat.succ_mul]
    exact Nat.le_trans (Nat.mul_le_mul_right n hlt) hcap
  have hmax : MAX_POOL_SLOTS < 2 ^ 32 := by decide
  unfold publish
  rw [debug_assert_true hroom, Nat.mod_eq_of_lt (a := s.chunks_allocated * n) (by omega)]
  refine ⟨by simp [inv.directory, range_succ], hlt, ?_, ?_, inv.sound⟩
  · exact Nat.le_trans (Nat.succ_le_succ (Nat.le_of_eq inv.length.symm)) (Nat.le_max_right ..)
  · intro i hi
    rw [Nat.succ_mul]
    simp only [mem_append, mem_map, mem_range, mem_cons] at hi
    rcases hi with (⟨j, hj, rfl⟩ | hi) | rfl | hi
    · rw [Nat.mod_eq_of_lt (by omega)]
      omega
    · exact Nat.lt_add_right n (inv.slots i (.inl hi))
    · omega
    · exact Nat.lt_add_right n (inv.slots i (.inr hi))

theorem grow_good (hescape : ∀ k, (escape k).Good n cap) : (grow n cap escape).Good n cap := by
  intro s inv
  have hmax : MAX_POOL_SLOTS < 2 ^ 32 := by decide
  have hsmall : cap < 2 ^ 32 := Nat.lt_of_le_of_lt (Nat.le_trans (Nat.le_mul_of_pos_right cap hn) hcap) hmax
  unfold grow
  split
  · exact ⟨s, none, rfl, inv, Nat.le_refl _⟩
  obtain ⟨s₁, r, heq, inv₁, hmono₁⟩ := hescape 0 s inv
  simp only [heq]
  cases r with
  | none => exact ⟨s₁, none, rfl, inv₁, hmono₁⟩
  | some room =>
    obtain ⟨s₂, ok, heq₂, inv₂, hmono₂, hroom⟩ := reserve_one_good hsmall hescape (cap + 1) 1 none s₁ inv₁ (by omega) rfl
    have hmono := Nat.le_trans hmono₁ hmono₂
    simp only [heq₂]
    cases ok with
    | false => exact ⟨s₂, none, rfl, inv₂, hmono⟩
    | true =>
      dsimp only
      split
      · exact ⟨s₂, none, rfl, inv₂, hmono⟩
      · next hlt =>
        exact ⟨_, _, rfl, publish_good hn hcap inv₂ (Nat.lt_of_not_le hlt) (hroom rfl), Nat.le_succ_of_le hmono⟩

omit hn hcap in
theorem pop_free_good (inv : Inv n cap s) : Inv n cap s.pop_free.1 ∧ s.pop_free.1.chunks_allocated = s.chunks_allocated ∧
    (s.pop_free.2 = none → s.pop_free.1.free = []) := by
  unfold pop_free
  split
  · next h => exact ⟨inv, rfl, fun _ => h⟩
  · next slot free h =>
    refine ⟨⟨inv.directory, inv.capped, inv.fits, fun i hi => inv.slots i ?_, inv.sound⟩, rfl, nofun⟩
    rw [h]
    simpa [or_assoc, or_comm, or_left_comm] using hi

theorem alloc_slot_good (hescape : ∀ k, (escape k).Good n cap) (inv : Inv n cap s) :
    ∃ s' r, alloc_slot n cap escape s = some (s', r) ∧ Inv n cap s' ∧ s.chunks_allocated ≤ s'.chunks_allocated ∧
      (r = none → s'.free = []) := by
  obtain ⟨hinv, hchunks, -⟩ := pop_free_good inv
  unfold alloc_slot alloc_slot_by_growing
  rcases hpop : s.pop_free with ⟨s₁, _ | slot⟩ <;> rw [hpop] at hinv hchunks <;> dsimp only
  · obtain ⟨s₂, r, heq, inv₂, hmono⟩ := grow_good hn hcap hescape s₁ hinv
    rw [hchunks] at hmono
    simp only [heq]
    cases r with
    | none =>
      obtain ⟨hinv₂, hchunks₂, hempty⟩ := pop_free_good inv₂
      exact ⟨_, _, rfl, hinv₂, Nat.le_trans hmono (Nat.le_of_eq hchunks₂.symm), hempty⟩
    | some slot => exact ⟨s₂, _, rfl, inv₂, hmono, nofun⟩
  · exact ⟨s₁, _, rfl, hinv, Nat.le_of_eq hchunks.symm, nofun⟩

end

mutual

theorem Op.good (hn : 0 < n) (hcap : cap * n ≤ MAX_POOL_SLOTS) : ∀ op : Op, (op.run n cap).Good n cap
  | .alloc escape => fun s inv => by
    obtain ⟨s', r, heq, inv', hmono, -⟩ := alloc_slot_good hn hcap (fun k => (escape k).good hn hcap) inv
    exact ⟨s', r, by rw [Op.run]; exact heq, inv', hmono⟩
  | .free slot => fun s inv => by
    refine ⟨_, none, by rw [Op.run], ?_⟩
    unfold release
    split
    · next hslot =>
      refine ⟨⟨inv.directory, inv.capped, inv.fits, fun i hi => inv.slots i ?_, inv.sound⟩, Nat.le_refl _⟩
      rcases hi with hi | hi
      · rcases mem_cons.mp hi with rfl | hi
        · exact .inr hslot
        · exact .inl hi
      · exact .inr (mem_of_mem_erase hi)
    · exact ⟨inv, Nat.le_refl _⟩

theorem Escape.good (hn : 0 < n) (hcap : cap * n ≤ MAX_POOL_SLOTS) : ∀ escape : Escape, (escape.run n cap).Good n cap
  | .answer room => fun s inv => ⟨s, room, by rw [Escape.run], inv, Nat.le_refl _⟩
  | .nested op rest => fun s inv => by
    obtain ⟨s₁, r₁, heq₁, inv₁, hmono₁⟩ := op.good hn hcap s inv
    obtain ⟨s₂, r₂, heq₂, inv₂, hmono₂⟩ := rest.good hn hcap s₁ inv₁
    exact ⟨s₂, r₂, by simp only [Escape.run, heq₁]; exact heq₂, inv₂, Nat.le_trans hmono₁ hmono₂⟩

end

theorem runs_good (hn : 0 < n) (hcap : cap * n ≤ MAX_POOL_SLOTS) (ops : List Op) : ∃ s, runs n cap ops = some s ∧ Inv n cap s := by
  unfold runs
  generalize hs : new = s
  have inv : Inv n cap s := hs ▸ ⟨rfl, Nat.zero_le _, Nat.le_refl _, by simp [new], rfl⟩
  clear hs
  induction ops generalizing s with
  | nil => exact ⟨s, rfl, inv⟩
  | cons op ops ih =>
    obtain ⟨s₁, r, heq, inv₁, -⟩ := op.good hn hcap s inv
    simp only [foldlM_cons, heq]
    exact ih s₁ inv₁

theorem growth_tolerates_reentrancy (n cap : Nat) (hn : ∃ k, n = 2 ^ k) (hcap : cap * n ≤ MAX_POOL_SLOTS) (ops : List Op)
    (escape : Nat → Escape) :
    ∃ s s' r, runs n cap ops = some s ∧ alloc_slot n cap (fun k => (escape k).run n cap) s = some (s', r) ∧
      s'.directory.length = s'.chunks_allocated ∧ s'.chunks_allocated ≤ cap ∧ s'.directory.Nodup ∧
      (∀ base ∈ s'.directory, n ∣ base ∧ base + n ≤ FREE_END) ∧ s.directory <+: s'.directory ∧ s'.violations = 0 ∧
      (∀ slot, slot ∈ s'.free ∨ slot ∈ s'.held → slot < FREE_END) ∧ (r = none → s'.free = []) := by
  have hpos : 0 < n := by
    obtain ⟨k, rfl⟩ := hn
    exact Nat.two_pow_pos k
  obtain ⟨s, hrun, inv⟩ := runs_good hpos hcap ops
  obtain ⟨s', r, heq, inv', hmono, hempty⟩ := alloc_slot_good hpos hcap (fun k => (escape k).good hpos hcap) inv
  have hend : s'.chunks_allocated * n ≤ FREE_END := Nat.le_trans (Nat.mul_le_mul_right n inv'.capped) hcap
  refine ⟨s, s', r, hrun, heq, inv'.length, inv'.capped, ?_, ?_, ?_, inv'.sound,
    fun slot h => Nat.lt_of_lt_of_le (inv'.slots slot h) hend, hempty⟩
  · rw [inv'.directory]
    exact nodup_range.map fun a b h => Nat.eq_of_mul_eq_mul_right hpos h
  · intro base hbase
    rw [inv'.directory] at hbase
    obtain ⟨chunk, hchunk, rfl⟩ := mem_map.mp hbase
    refine ⟨Nat.dvd_mul_left n chunk, Nat.le_trans ?_ hend⟩
    rw [← Nat.succ_mul]
    exact Nat.mul_le_mul_right n (mem_range.mp hchunk)
  · rw [inv.directory, inv'.directory]
    obtain ⟨more, hmore⟩ := Nat.exists_eq_add_of_le hmono
    rw [hmore, range_add, map_append]
    exact prefix_append ..

/-- The chunk of the nested call takes the cap, and the outer call gets the slot that is left. -/
theorem growth_tolerates_reentrancy_nested : ∃ s', alloc_slot 2 1 (fun k => (Escape.nested (.alloc fun _ => .answer (some k))
    (.answer (some k))).run 2 1) new = some (s', some 1) ∧ s'.directory = [0] ∧ s'.chunks_allocated ≤ 1 := by
  obtain ⟨s, s', r, hrun, heq, -, hcapped, -⟩ := growth_tolerates_reentrancy 2 1 ⟨1, rfl⟩ (by decide) []
    fun k => .nested (.alloc fun _ => .answer (some k)) (.answer (some k))
  cases hrun
  cases heq
  exact ⟨_, rfl, rfl, hcapped⟩

end Growth

end Plurality
