import Oxidizer.Lib.Runs
/-!
# The object pool

One thread allocates: it pops slots off the free list and grows the pool by a
chunk when the list is empty. Any number of callers clone and drop handles; the
last one drops the value, pushes the slot and gives up its reference to the
pool, and whoever gives up the last reference tears the pool down. Every atomic
load, store and exchange is a step of its own, and a weak exchange may fail.

A slot is its global index: the directory and the chunk headers map it to an
address and back. A free slot has its link in the word that counts the handles
of an occupied one. Indices stay below `FREE_END`, and a clone that would pass
the limit of a count aborts the process, so words are exact as numbers; each
pool reference is a live handle or a running call, so their count is exact too.
-/

namespace Plurality

open Lib

def FREE_END : Nat := 2 ^ 32 - 1
def MAX_POOL_SLOTS : Nat := FREE_END
def MAX_REFCOUNT : Nat := 2 ^ 31 - 1

/-- What the builder checked. -/
structure Config where
  chunk_size : Nat
  max_chunks : Option Nat
  nonempty : 1 ≤ chunk_size
  bounded : ∀ max ∈ max_chunks, chunk_size * max ≤ MAX_POOL_SLOTS

namespace Config

def unbounded_chunk_cap (chunk_size : Nat) : Nat := MAX_POOL_SLOTS / chunk_size

def cap (c : Config) : Nat := c.max_chunks.getD (unbounded_chunk_cap c.chunk_size)

end Config

/-- `Box`, `Arc` (and `Rc`, which counts in the same word), and the `Alloc` that the pool's borrow bounds. -/
inductive Kind where
  | box
  | arc
  | alloc
deriving DecidableEq

/-- An allocation: what its handles are, and how many there are. -/
structure Owner where
  kind : Kind
  handles : Nat
deriving DecidableEq

/-- The references to the pool that an allocation holds. -/
def Kind.refs : Kind → Nat
  | .alloc => 0
  | _ => 1

/-- Where the drop of a last handle is. -/
inductive Call where
  | returned
  /-- before `drop_in_place` -/
  | drop_value (slot : Nat) (kind : Kind)
  /-- before `free_head.load` -/
  | load_head (slot : Nat) (kind : Kind)
  /-- before `refcount.store(head)` -/
  | store_link (slot : Nat) (kind : Kind) (head : Nat)
  /-- before the exchange of `free_head` -/
  | cas_head (slot : Nat) (kind : Kind) (head : Nat)
  /-- before `pool_refcount.fetch_sub` -/
  | release
  | teardown
deriving DecidableEq

namespace Call

/-- The slot in transit, with the kind of its last handle. -/
def transit : Call → Option (Nat × Kind)
  | .drop_value slot kind | .load_head slot kind | .store_link slot kind _ | .cas_head slot kind _ => some (slot, kind)
  | _ => none

def refs : Call → Nat
  | .drop_value _ kind | .load_head _ kind | .store_link _ kind _ | .cas_head _ kind _ => kind.refs
  | .release => 1
  | _ => 0

def tearing : Call → Nat
  | .teardown => 1
  | _ => 0

end Call

/-- Where the allocating thread is. -/
inductive Alloc where
  | idle
  /-- before `free_head.load` in `pop_free`; `again` when growing failed -/
  | pop_load (again : Bool)
  /-- before the load of the link of `head` -/
  | pop_link (again : Bool) (head : Nat)
  /-- before the exchange of `free_head` -/
  | pop_cas (again : Bool) (head next : Nat)
  /-- before the first look at the cap -/
  | grow
  /-- in `allocator.allocate` -/
  | allocate
  /-- in `directory::reserve_one` -/
  | reserve
  /-- before the second look at the cap -/
  | recheck
  /-- before the new chunk is written -/
  | install (chunks : Nat)
  /-- before `chunks_allocated.store` -/
  | publish (chunks : Nat)
  /-- before `free_head.load` in `splice_chain` -/
  | splice_load (base : Nat)
  /-- before `last_link.store(head)` -/
  | splice_link (base head : Nat)
  /-- before the exchange of `free_head` -/
  | splice_cas (base head : Nat)
  /-- a slot is reserved, and not occupied yet -/
  | popped (slot : Nat)
  /-- the count of the slot is 1; before `bump_pool_ref` -/
  | marked (slot : Nat)
  /-- the `Pool` is dropped -/
  | teardown
  | gone
deriving DecidableEq

namespace Alloc

/-- The slots that the thread has, and nobody else. -/
def slots (chunk_size : Nat) : Alloc → List Nat
  | .popped slot | .marked slot => [slot]
  | .splice_load base | .splice_link base _ | .splice_cas base _ => List.range' base chunk_size
  | _ => []

def running : Alloc → Bool
  | .teardown | .gone => false
  | _ => true

def tearing : Alloc → Nat
  | .teardown => 1
  | _ => 0

end Alloc

/-- The pool and its users, with what was written to and dropped from each slot so far. -/
structure Pool (ι : Type) where
  free_head : Nat
  /-- the link of a free slot, the count of an occupied one -/
  word : Nat → Nat
  chunks_allocated : Nat
  pool_refcount : Nat
  alloc : Alloc
  /-- growing calls that wait for the allocator, which uses the pool itself -/
  suspended : List Alloc
  owner : Nat → Option Owner
  calls : ι → Call
  written : Nat → Nat
  dropped : Nat → Nat
  torn : Nat

namespace Pool
variable {ι : Type}

def store (s : Pool ι) (slot value : Nat) : Pool ι := { s with word := fun i => if i = slot then value else s.word i }

def owned (s : Pool ι) (slot : Nat) (owner : Option Owner) : Pool ι :=
  { s with owner := fun i => if i = slot then owner else s.owner i }

def write (s : Pool ι) (slot : Nat) : Pool ι := { s with written := fun i => if i = slot then s.written i + 1 else s.written i }

def moved [DecidableEq ι] (s : Pool ι) (p : ι) (call : Call) : Pool ι :=
  { s with calls := fun p' => if p' = p then call else s.calls p' }

def total (c : Config) (s : Pool ι) : Nat := s.chunks_allocated * c.chunk_size

/-- The next step of the allocating thread. `ok` is whether a weak exchange goes through, and whether the allocator
or the directory has memory. -/
def alloc_step (c : Config) (s : Pool ι) (ok : Bool) : Pool ι :=
  match s.alloc with
  | .pop_load again =>
    if s.free_head = FREE_END then { s with alloc := if again then .idle else .grow }
    else { s with alloc := .pop_link again s.free_head }
  | .pop_link again head => { s with alloc := .pop_cas again head (s.word head) }
  | .pop_cas again head next =>
    if s.free_head = head ∧ ok then { s with free_head := next, alloc := .popped head }
    else { s with alloc := .pop_load again }
  | .grow => { s with alloc := if c.cap ≤ s.chunks_allocated then .pop_load true else .allocate }
  | .allocate => { s with alloc := if ok then .reserve else .pop_load true }
  | .reserve => { s with alloc := if ok then .recheck else .pop_load true }
  | .recheck => { s with alloc := if c.cap ≤ s.chunks_allocated then .pop_load true else .install s.chunks_allocated }
  | .install chunks =>
    let base_index := chunks * c.chunk_size
    { s with
      word := fun i => if base_index ≤ i ∧ i < base_index + c.chunk_size then i + 1 else s.word i
      alloc := .publish chunks }
  | .publish chunks =>
    let base_index := chunks * c.chunk_size
    { s with
      chunks_allocated := chunks + 1
      alloc := if 1 < c.chunk_size then .splice_load base_index else .popped base_index }
  | .splice_load base => { s with alloc := .splice_link base s.free_head }
  | .splice_link base head => { s.store (base + c.chunk_size - 1) head with alloc := .splice_cas base head }
  | .splice_cas base head =>
    if s.free_head = head ∧ ok then { s with free_head := base + 1, alloc := .popped base }
    else { s with alloc := .splice_load base }
  | .marked slot =>
    { (s.owned slot (some ⟨.arc, 1⟩)).write slot with pool_refcount := s.pool_refcount + 1, alloc := .idle }
  | .teardown => { s with torn := s.torn + 1, alloc := .gone }
  | .idle | .popped _ | .gone => s

/-- `occupy_box`, the start of `occupy`, and `occupy_local`. -/
def occupy (s : Pool ι) (slot : Nat) : Kind → Pool ι
  | .box => { (s.owned slot (some ⟨.box, 1⟩)).write slot with pool_refcount := s.pool_refcount + 1, alloc := .idle }
  | .arc => { s.store slot 1 with alloc := .marked slot }
  | .alloc => { (s.owned slot (some ⟨.alloc, 1⟩)).write slot with alloc := .idle }

/-- A handle is dropped: of an `Arc`, the count tells whether it is the last. -/
def drop_handle [DecidableEq ι] (s : Pool ι) (p : ι) (slot : Nat) (o : Owner) : Pool ι :=
  match o.kind with
  | .arc =>
    let prev := s.word slot
    let s := s.store slot (prev - 1)
    if prev ≠ 1 then s.owned slot (some ⟨.arc, o.handles - 1⟩) else (s.owned slot none).moved p (.drop_value slot .arc)
  | kind => (s.owned slot none).moved p (.drop_value slot kind)

/-- The next step of the drop of a last handle; `ok` is whether a weak exchange goes through. -/
def call_step [DecidableEq ι] (s : Pool ι) (p : ι) (ok : Bool) : Pool ι :=
  match s.calls p with
  | .returned => s
  | .drop_value slot kind =>
    { s with dropped := fun i => if i = slot then s.dropped i + 1 else s.dropped i }.moved p (.load_head slot kind)
  | .load_head slot kind => s.moved p (.store_link slot kind s.free_head)
  | .store_link slot kind head => (s.store slot head).moved p (.cas_head slot kind head)
  | .cas_head slot kind head =>
    if s.free_head = head ∧ ok then
      { s with free_head := slot }.moved p (if kind = Kind.alloc then .returned else .release)
    else s.moved p (.load_head slot kind)
  | .release =>
    { s with pool_refcount := s.pool_refcount - 1 }.moved p (if s.pool_refcount = 1 then .teardown else .returned)
  | .teardown => { s with torn := s.torn + 1 }.moved p .returned

/-- No `Alloc` borrows the pool. -/
def Unborrowed (s : Pool ι) : Prop :=
  (∀ i o, s.owner i = some o → o.kind ≠ Kind.alloc) ∧ ∀ p slot, (s.calls p).transit ≠ some (slot, Kind.alloc)

inductive Action (ι : Type) where
  /-- `alloc_slot` is called -/
  | alloc_slot
  /-- the allocating thread takes its next step -/
  | alloc (ok : Bool)
  /-- the slot it has becomes an allocation -/
  | occupy (kind : Kind)
  /-- the allocator calls back into the pool, and is done with it -/
  | enter
  | leave
  | drop_pool
  | clone (slot : Nat)
  | drop (p : ι) (slot : Nat)
  | call (p : ι) (ok : Bool)

def system (c : Config) (ι : Type) [DecidableEq ι] : Lts (Pool ι) (Action ι) where
  init s := s.free_head = FREE_END ∧ s.chunks_allocated = 0 ∧ s.pool_refcount = 1 ∧ s.alloc = .idle ∧ s.suspended = [] ∧
    (∀ i, s.owner i = none) ∧ (∀ p, s.calls p = .returned) ∧ (∀ i, s.written i = 0) ∧ (∀ i, s.dropped i = 0) ∧ s.torn = 0
  step s a s' :=
    match a with
    | .alloc_slot => s.alloc = .idle ∧ s' = { s with alloc := .pop_load false }
    | .alloc ok => s.alloc ∉ [Alloc.idle, Alloc.gone] ∧ (∀ slot, s.alloc ≠ .popped slot) ∧ s' = s.alloc_step c ok
    | .occupy kind => ∃ slot, s.alloc = .popped slot ∧ s' = s.occupy slot kind
    | .enter => (s.alloc = .allocate ∨ s.alloc = .reserve) ∧ s' = { s with suspended := s.alloc :: s.suspended, alloc := .idle }
    | .leave => ∃ pc rest, s.alloc = .idle ∧ s.suspended = pc :: rest ∧ s' = { s with suspended := rest, alloc := pc }
    | .drop_pool => s.alloc = .idle ∧ s.suspended = [] ∧ s.Unborrowed ∧
        s' = { s with pool_refcount := s.pool_refcount - 1, alloc := if s.pool_refcount = 1 then .teardown else .gone }
    | .clone slot => ∃ handles, s.owner slot = some ⟨.arc, handles⟩ ∧ s.word slot < MAX_REFCOUNT ∧
        s' = (s.store slot (s.word slot + 1)).owned slot (some ⟨.arc, handles + 1⟩)
    | .drop p slot => ∃ o, s.owner slot = some o ∧ s.calls p = .returned ∧ s' = s.drop_handle p slot o
    | .call p ok => s.calls p ≠ .returned ∧ s' = s.call_step p ok

end Pool

end Plurality
