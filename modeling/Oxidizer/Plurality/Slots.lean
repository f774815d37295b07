import Oxidizer.Plurality.Pool
/-!
# Where every slot is

Each slot of the pool is in one place: an allocation, the free list, a call
that pushes it, or the allocating thread. The invariant has the free list and
the place of every slot as witnesses, and counts the references to the pool by
what holds them.
-/

namespace Plurality

open Lib

/-- The free list, followed through the links from its head. -/
def Links (word : Nat → Nat) : Nat → List Nat → Prop
  | head, [] => head = FREE_END
  | head, slot :: rest => head = slot ∧ Links word (word slot) rest

theorem Links.congr {word word' : Nat → Nat} {head : Nat} {l : List Nat} (h : Links word head l)
    (hw : ∀ i ∈ l, word' i = word i) : Links word' head l := by
  induction l generalizing head with
  | nil => exact h
  | cons slot rest ih =>
    refine ⟨h.1, ?_⟩
    rw [hw slot List.mem_cons_self]
    exact ih h.2 fun i hi => hw i (List.mem_cons_of_mem _ hi)

theorem Links.range' {word : Nat → Nat} {head : Nat} {l : List Nat} (h : Links word head l) (first k : Nat)
    (hw : ∀ i, first ≤ i → i < first + k → word i = i + 1) (hlast : word (first + k) = head) :
    Links word first (List.range' first (k + 1) ++ l) := by
  induction k generalizing first with
  | zero => exact ⟨rfl, hlast ▸ h⟩
  | succ k ih =>
    rw [List.range'_succ, List.cons_append]
    refine ⟨rfl, ?_⟩
    rw [hw first (Nat.le_refl _) (by omega)]
    exact ih (first + 1) (fun i hi hi' => hw i (by omega) (by omega)) (by rw [← hlast]; congr 1; omega)

inductive Place (ι : Type) where
  | owned
  | free
  | transit (p : ι)
  | alloc

/-- The references to the pool of an allocation, if there is one. -/
def owner_refs (o : Option Owner) : Nat := (o.map fun o => o.kind.refs).getD 0

namespace Pool
variable {ι : Type}

/-- Who has a slot, given the free list. -/
def Holds (c : Config) (s : Pool ι) (l : List Nat) : Place ι → Nat → Prop
  | .owned, i => (s.owner i).isSome
  | .free, i => i ∈ l
  | .transit p, i => ∃ kind, (s.calls p).transit = some (i, kind)
  | .alloc, i => i ∈ s.alloc.slots c.chunk_size

/-- A value is in the slot: it is owned, or its last handle is gone and its drop is to come. -/
def HasValue (s : Pool ι) (i : Nat) : Prop := (s.owner i).isSome ∨ ∃ p kind, s.calls p = .drop_value i kind

/-- What the allocating thread knows: a head it has loaded stays on the list, since nobody else pops. -/
def Knows (c : Config) (s : Pool ι) (l : List Nat) : Alloc → Prop
  | .pop_link _ head => head ∈ l
  | .pop_cas _ head next => head ∈ l ∧ s.word head = next
  | .install chunks => chunks = s.chunks_allocated ∧ chunks < c.cap
  | .publish chunks => chunks = s.chunks_allocated ∧ chunks < c.cap ∧
      ∀ i, chunks * c.chunk_size ≤ i → i < chunks * c.chunk_size + c.chunk_size → s.word i = i + 1
  | .splice_load base | .splice_link base _ => 1 < c.chunk_size ∧
      ∀ i, base ≤ i → i + 1 < base + c.chunk_size → s.word i = i + 1
  | .splice_cas base head => 1 < c.chunk_size ∧ (∀ i, base ≤ i → i + 1 < base + c.chunk_size → s.word i = i + 1) ∧
      s.word (base + c.chunk_size - 1) = head
  | .marked slot => s.word slot = 1
  | _ => True

variable [Fintype ι]

/-- The references to the pool: its handle, the allocations, and the calls that have not given theirs up. -/
def refs (c : Config) (s : Pool ι) : Nat :=
  (if s.alloc.running then 1 else 0) + ∑ i ∈ Finset.range (s.total c), owner_refs (s.owner i) + ∑ p, (s.calls p).refs

/-- The teardowns that ran or are about to. -/
def teardowns (s : Pool ι) : Nat := s.torn + s.alloc.tearing + ∑ p, (s.calls p).tearing

/-- The invariant, with the free list and the place of every slot. -/
structure InvAt (c : Config) (s : Pool ι) (l : List Nat) (place : Nat → Option (Place ι)) : Prop where
  chain : Links s.word s.free_head l
  once : l.Nodup
  held : ∀ pl i, s.Holds c l pl i ↔ place i = some pl
  slots : ∀ i, place i ≠ none ↔ i < s.total c
  fits : s.chunks_allocated ≤ c.cap
  counted : ∀ i handles, s.owner i = some ⟨.arc, handles⟩ → s.word i = handles ∧ 0 < handles
  refcount : s.pool_refcount = s.refs c
  teardown : s.teardowns = if s.pool_refcount = 0 then 1 else 0
  borrow : s.alloc.running = false → s.Unborrowed
  values : ∀ i, (s.HasValue i → s.written i = s.dropped i + 1) ∧ (¬ s.HasValue i → s.written i = s.dropped i)
  knows : s.Knows c l s.alloc
  linked : ∀ p slot kind head, s.calls p = .cas_head slot kind head → s.word slot = head
  frames : ∀ pc ∈ s.suspended, pc = .allocate ∨ pc = .reserve

end Pool

/-! ## Sums and places, one entry changed -/

theorem sum_set {α κ : Type} [DecidableEq α] (S : Finset α) (f : κ → Nat) (g : α → κ) {a : α} (ha : a ∈ S) (x : κ) :
    ∑ b ∈ S, f (if b = a then x else g b) + f (g a) = ∑ b ∈ S, f (g b) + f x := by
  rw [← Finset.add_sum_erase S _ ha, ← Finset.add_sum_erase S (fun b => f (g b)) ha]
  have hrest : ∑ b ∈ S.erase a, f (if b = a then x else g b) = ∑ b ∈ S.erase a, f (g b) := by
    apply Finset.sum_congr rfl
    intro b hb
    rw [if_neg (Finset.ne_of_mem_erase hb)]
  rw [hrest, if_pos rfl]
  omega

theorem le_sum {α κ : Type} (S : Finset α) (f : κ → Nat) (g : α → κ) {a : α} (ha : a ∈ S) : f (g a) ≤ ∑ b ∈ S, f (g b) :=
  Finset.single_le_sum (fun b _ => Nat.zero_le (f (g b))) ha

theorem relocate {ι : Type} {H H' : Place ι → Nat → Prop} {place : Nat → Option (Place ι)} {slot : Nat} {a b : Place ι}
    (h : ∀ pl i, H pl i ↔ place i = some pl) (ha : place slot = some a) (hb : H' b slot)
    (hout : ∀ pl ≠ b, H' pl slot → pl ≠ a ∧ H pl slot) (hother : ∀ i ≠ slot, ∀ pl, H' pl i ↔ H pl i) :
    ∀ pl i, H' pl i ↔ (if i = slot then some b else place i) = some pl := by
  intro pl i
  by_cases hi : i = slot
  · rw [hi, if_pos rfl]
    constructor
    · intro hpl
      by_contra hne
      obtain ⟨hna, hold⟩ := hout pl (fun he => hne (by rw [he])) hpl
      rw [h, ha] at hold
      exact hna (Option.some.inj hold).symm
    · intro he
      cases he
      exact hb
  · rw [if_neg hi, hother i hi]
    exact h pl i

theorem relocate_slots {ι : Type} {place : Nat → Option (Place ι)} {slot n : Nat} {a b : Place ι}
    (h : ∀ i, place i ≠ none ↔ i < n) (ha : place slot = some a) (i : Nat) :
    (if i = slot then some b else place i) ≠ none ↔ i < n := by
  by_cases hi : i = slot
  · rw [if_pos hi, hi, ← h slot, ha]
    simp
  · rw [if_neg hi]
    exact h i

end Plurality
