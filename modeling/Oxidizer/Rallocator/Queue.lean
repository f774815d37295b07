import Oxidizer.Lib.Runs
/-!
# The remote free queue

Producers publish linked segments of messages in two steps: an exchange of
`back`, and the store that links the old tail to the segment. One consumer
drains the queue from `front`. Every atomic load, store and swap is a step of
its own, and steps of different parties come in any order. The memory of a
consumed message is free again: anyone may write to it, and enqueue it again.
-/

namespace Rallocator

open Lib List

/-- Where a call of `enqueue` is. -/
inductive Producer where
  | idle
  /-- before `next(last).store(0)` -/
  | store (first : Nat) (rest : List Nat)
  /-- before `back.swap(last)` -/
  | swap (first : Nat) (rest : List Nat)
  /-- before `next(previous).store(first)`, or `front.store(first)` if `previous` is 0 -/
  | link (previous first : Nat)
deriving DecidableEq

/-- The segment a producer has not published yet. -/
def Producer.held : Producer → List Nat
  | .store first rest | .swap first rest => first :: rest
  | _ => []

/-- Where the consumer is in `drain`. -/
inductive Consumer where
  | idle
  /-- before `back.load()` -/
  | load_back (current : Nat)
  /-- before the test of the loop, and `next(current).load()` -/
  | load_next (current bound : Nat)
  /-- before `consume(current)` -/
  | consume (current successor bound : Nat)
  /-- before `front.store(current)` -/
  | store_front (current : Nat)
deriving DecidableEq

/-- The queue, the parties, and what was swapped in and consumed so far. -/
structure Queue (ι : Type) where
  back : Nat
  front : Nat
  next : Nat → Nat
  producers : ι → Producer
  consumer : Consumer
  swapped : List Nat
  consumed : List Nat

namespace Queue
variable {ι : Type}

def queued (s : Queue ι) : List Nat := s.swapped.drop s.consumed.length

def last (first : Nat) (rest : List Nat) : Nat := rest.getLastD first

/-- The same queue, with a producer that has moved on. -/
def moved [DecidableEq ι] (s : Queue ι) (p : ι) (phase : Producer) : Queue ι :=
  { s with producers := fun p' => if p' = p then phase else s.producers p' }

def store_next (s : Queue ι) (m value : Nat) : Queue ι := { s with next := fun a => if a = m then value else s.next a }

def producer_step [DecidableEq ι] (s : Queue ι) (p : ι) : Queue ι :=
  match s.producers p with
  | .idle => s
  | .store first rest => (s.store_next (last first rest) 0).moved p (.swap first rest)
  | .swap first rest =>
    { s with back := last first rest, swapped := s.swapped ++ first :: rest }.moved p (.link s.back first)
  | .link previous first =>
    if previous ≠ 0 then (s.store_next previous first).moved p .idle else { s with front := first }.moved p .idle

/-- The next step of `drain`; `keep_going` is what the callback answers. -/
def consumer_step (s : Queue ι) (keep_going : Bool) : Queue ι :=
  match s.consumer with
  | .idle => if s.front = 0 then s else { s with consumer := .load_back s.front }
  | .load_back current => { s with consumer := .load_next current s.back }
  | .load_next current bound =>
    if current ≠ bound then
      let successor := s.next current
      if successor = 0 then { s with consumer := .store_front current }
      else { s with consumer := .consume current successor bound }
    else { s with consumer := .store_front current }
  | .consume current successor bound =>
    { s with
      consumed := s.consumed ++ [current]
      consumer := if keep_going then .load_next successor bound else .store_front successor }
  | .store_front current => { s with front := current, consumer := .idle }

/-- The rest of a drain whose callback never stops it. -/
def finish_drain : Nat → Queue ι → Option (Queue ι)
  | 0, _ => none
  | fuel + 1, s => if s.consumer = .idle then some s else finish_drain fuel (s.consumer_step true)

/-- One drain whose callback never stops it, when no producer takes a step meanwhile. -/
def drain (fuel : Nat) (s : Queue ι) : Option (Queue ι) := finish_drain fuel (s.consumer_step true)

/-- Nobody holds the message: it is neither queued nor in a segment. -/
def Free (s : Queue ι) (m : Nat) : Prop := m ≠ 0 ∧ m ∉ s.queued ∧ ∀ p, m ∉ (s.producers p).held

/-- A segment that may be enqueued: free messages, linked in memory. -/
structure Segment (s : Queue ι) (first : Nat) (rest : List Nat) : Prop where
  free : ∀ m ∈ first :: rest, s.Free m
  nodup : (first :: rest).Nodup
  linked : (first :: rest).IsChain fun a b => s.next a = b

inductive Action (ι : Type) where
  /-- a call of `enqueue` starts -/
  | enqueue (p : ι) (first : Nat) (rest : List Nat)
  | producer (p : ι)
  | consumer (keep_going : Bool)
  /-- memory that is free is written -/
  | reuse (m value : Nat)

def system (ι : Type) [DecidableEq ι] : Lts (Queue ι) (Action ι) where
  init s := s.back = 0 ∧ s.front = 0 ∧ (∀ p, s.producers p = .idle) ∧ s.consumer = .idle ∧ s.swapped = [] ∧ s.consumed = []
  step s a s' :=
    match a with
    | .enqueue p first rest => s.producers p = .idle ∧ s.Segment first rest ∧
        s' = s.moved p (.store first rest)
    | .producer p => s' = s.producer_step p
    | .consumer keep_going => s' = s.consumer_step keep_going
    | .reuse m value => s.Free m ∧ s' = s.store_next m value

/-! ## The invariant -/

/-- The link between two neighbours: it is written, or one producer is about to write it. -/
def Joined (s : Queue ι) (a b : Nat) : Prop :=
  a ≠ s.back ∧ ((s.next a = b ∧ ∀ p first, s.producers p ≠ .link a first) ∨ (s.next a = 0 ∧ ∃ p, s.producers p = .link a b))

/-- The part of the invariant about a segment that is not published. -/
structure Held (s : Queue ι) (q : List Nat) (p : ι) (first : Nat) (rest : List Nat) : Prop where
  nodup : (first :: rest).Nodup
  linked : (first :: rest).IsChain fun a b => a ≠ last first rest ∧ s.next a = b
  nonzero : 0 ∉ first :: rest
  apart : ∀ m ∈ first :: rest, m ∉ q
  others : ∀ p', p' ≠ p → ∀ m ∈ first :: rest, m ∉ (s.producers p').held

/-- Where a link that is about to be written is. -/
structure Linking (s : Queue ι) (q : List Nat) (p : ι) (previous first : Nat) : Prop where
  at_tail : previous ≠ 0 → previous ∈ q ∧ previous ≠ s.back ∧ s.next previous = 0
  at_front : previous = 0 → s.front = 0 ∧ q.head? = some first
  unique : ∀ p' first', s.producers p' = .link previous first' → p' = p

/-- What the consumer knows. -/
def Draining (s : Queue ι) (q : List Nat) : Consumer → Prop
  | .idle => (s.front = 0 ∧ (q = [] ∨ ∃ p first, s.producers p = .link 0 first)) ∨ q.head? = some s.front
  | .load_back current => s.front ≠ 0 ∧ q.head? = some current
  | .load_next current bound => s.front ≠ 0 ∧ q.head? = some current ∧ bound ∈ q
  | .consume current successor bound =>
    s.front ≠ 0 ∧ s.next current = successor ∧ bound ∈ q ∧ bound ≠ current ∧ ∃ r, q = current :: successor :: r
  | .store_front current => s.front ≠ 0 ∧ q.head? = some current

/-- The invariant, with the messages that are queued. -/
structure InvAt (s : Queue ι) (q : List Nat) : Prop where
  history : s.swapped = s.consumed ++ q
  retained : q = [] → s.consumed = []
  nodup : q.Nodup
  nonzero : 0 ∉ q
  back_eq : s.back = q.getLastD 0
  tail : q ≠ [] → s.next s.back = 0
  chain : q.IsChain s.Joined
  store : ∀ p first rest, s.producers p = .store first rest → s.Held q p first rest
  swap : ∀ p first rest, s.producers p = .swap first rest → s.Held q p first rest ∧ s.next (last first rest) = 0
  link : ∀ p previous first, s.producers p = .link previous first → s.Linking q p previous first
  drain : s.Draining q s.consumer

theorem InvAt.queued_eq {s : Queue ι} {q : List Nat} (h : s.InvAt q) : s.queued = q := by
  unfold queued
  rw [h.history, drop_left]

section
variable {s s' : Queue ι} {q q' : List Nat}

theorem chain_congr (h : q.IsChain s.Joined) (hback : ∀ a ∈ q, a ≠ s.back → a ≠ s'.back)
    (hnext : ∀ a ∈ q, s'.next a = s.next a)
    (hlinks : ∀ a ∈ q, a ≠ s.back → ∀ p first, s'.producers p = .link a first ↔ s.producers p = .link a first) :
    q.IsChain s'.Joined := by
  refine h.imp_of_mem_tail_imp fun a b ha hb hab => ?_
  obtain ⟨hne, hab⟩ := hab
  refine ⟨hback a ha hne, ?_⟩
  rw [hnext a ha]
  rcases hab with ⟨heq, hnone⟩ | ⟨hzero, p, hp⟩
  · exact .inl ⟨heq, fun p first hp => hnone p first ((hlinks a ha hne p first).mp hp)⟩
  · exact .inr ⟨hzero, p, (hlinks a ha hne p b).mpr hp⟩

theorem Held.congr {p : ι} {first : Nat} {rest : List Nat} (h : s.Held q p first rest)
    (hnext : ∀ m ∈ first :: rest, m ≠ last first rest → s'.next m = s.next m) (hq : ∀ m ∈ first :: rest, m ∈ q' → m ∈ q)
    (hheld : ∀ p', p' ≠ p → ∀ m ∈ first :: rest, m ∈ (s'.producers p').held → m ∈ (s.producers p').held) :
    s'.Held q' p first rest := by
  refine ⟨h.nodup, ?_, h.nonzero, fun m hm hmq => h.apart m hm (hq m hm hmq),
    fun p' hp m hm hmem => h.others p' hp m hm (hheld p' hp m hm hmem)⟩
  refine h.linked.imp_of_mem_tail_imp fun a b ha hb hab => ?_
  rw [hnext a ha hab.1]
  exact hab

theorem linked_ne_last {R : Nat → Nat → Prop} {first : Nat} {rest : List Nat} (hnodup : (first :: rest).Nodup)
    (h : (first :: rest).IsChain R) : (first :: rest).IsChain fun a b => a ≠ last first rest ∧ R a b := by
  induction rest generalizing first with
  | nil => exact .singleton first
  | cons b rest ih =>
    rw [nodup_cons] at hnodup
    obtain ⟨hR, hrest⟩ := isChain_cons_cons.mp h
    have hlast : last first (b :: rest) = last b rest := getLastD_cons
    rw [hlast]
    refine isChain_cons_cons.mpr ⟨⟨?_, hR⟩, ih hnodup.2 hrest⟩
    rintro rfl
    exact hnodup.1 getLastD_mem_cons

theorem back_mem (h : s.InvAt q) (hq : q ≠ []) : s.back ∈ q := by
  rw [h.back_eq]
  cases q with
  | nil => exact absurd rfl hq
  | cons a q =>
    rw [getLastD_cons]
    exact getLastD_mem_cons

theorem InvAt.back_eq_zero (h : s.InvAt q) (hzero : s.back = 0) : q = [] := by
  by_contra hq
  exact h.nonzero (hzero ▸ back_mem h hq)

end

end Queue

end Rallocator
