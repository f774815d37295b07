import Mathlib
/-!
# Intrusive doubly linked lists

The links of the list are kept in its members: each member knows the one
before it, the one after it, and that it is linked. `Represents c xs` says
that the links, followed from the head, are those of the list `xs`; inserting
at the tail and removing any member in constant time then are what they should
be on `xs`.
-/

namespace Lib.Intrusive

open List

structure Links (α : Type) where
  previous : Option α
  next : Option α
  linked : Bool
deriving DecidableEq

def Links.unlinked {α : Type} : Links α := ⟨none, none, false⟩

structure Chain (α : Type) where
  head : Option α
  tail : Option α
  links : α → Links α

namespace Chain
variable {α : Type} [DecidableEq α]

def empty : Chain α := ⟨none, none, fun _ => .unlinked⟩

def relink (c : Chain α) (x : α) (f : Links α → Links α) : Chain α :=
  { c with links := fun y => if y = x then f (c.links y) else c.links y }

def insert (c : Chain α) (x : α) : Chain α :=
  let linked := c.relink x fun _ => ⟨c.tail, none, true⟩
  match c.tail with
  | some t => { linked.relink t (fun l => { l with next := some x }) with tail := some x }
  | none => { linked with head := some x, tail := some x }

/-- Point what precedes a removed member past it. -/
def join_previous (c : Chain α) (previous next : Option α) : Chain α :=
  match previous with
  | some p => c.relink p fun l => { l with next }
  | none => { c with head := next }

/-- Point what follows a removed member back past it. -/
def join_next (c : Chain α) (previous next : Option α) : Chain α :=
  match next with
  | some n => c.relink n fun l => { l with previous }
  | none => { c with tail := previous }

/-- Unlink a member; whether it was one. -/
def remove (c : Chain α) (x : α) : Bool × Chain α :=
  let links := c.links x
  if links.linked then
    let c := c.relink x fun _ => .unlinked
    (true, (c.join_previous links.previous links.next).join_next links.previous links.next)
  else (false, c)

def pop_front (c : Chain α) : Option α × Chain α :=
  match c.head with
  | some h =>
    let r := c.remove h
    (if r.1 then some h else none, r.2)
  | none => (none, c)

/-- The links are those of the list `xs`. -/
structure Represents (c : Chain α) (xs : List α) : Prop where
  nodup : xs.Nodup
  head_eq : c.head = xs.head?
  tail_eq : c.tail = xs.getLast?
  linked : ∀ front x back, xs = front ++ x :: back → c.links x = ⟨front.getLast?, back.head?, true⟩
  unlinked : ∀ x ∉ xs, c.links x = .unlinked

omit [DecidableEq α] in
theorem represents_empty : (empty : Chain α).Represents [] :=
  ⟨nodup_nil, rfl, rfl, fun front x back h => by simp at h, fun _ _ => rfl⟩

variable {c : Chain α} {xs : List α} {x : α}

omit [DecidableEq α] in
theorem Represents.linked_iff (h : c.Represents xs) : (c.links x).linked = true ↔ x ∈ xs := by
  constructor
  · intro hl
    refine Classical.byContradiction fun hx => ?_
    rw [h.unlinked x hx] at hl
    cases hl
  · intro hx
    obtain ⟨front, back, hsplit⟩ := append_of_mem hx
    rw [h.linked front x back hsplit]

theorem Represents.insert (h : c.Represents xs) (hx : x ∉ xs) : (c.insert x).Represents (xs ++ [x]) := by
  have hlinks : ∀ y, (c.insert x).links y =
      if c.tail = some y then { (if y = x then ⟨c.tail, none, true⟩ else c.links y) with next := some x }
      else if y = x then ⟨c.tail, none, true⟩ else c.links y := by
    intro y
    unfold Chain.insert relink
    cases ht : c.tail with
    | none => rfl
    | some t =>
      by_cases hy : y = t
      · simp [hy]
      · simp [hy, Ne.symm hy]
  have htail : c.tail ≠ some x := by
    rw [h.tail_eq]
    exact fun hl => hx (mem_of_getLast? hl)
  refine ⟨?_, ?_, ?_, ?_, ?_⟩
  · exact nodup_append.mpr ⟨h.nodup, nodup_singleton x, by
      intro a ha b hb
      rw [mem_singleton.mp hb]
      rintro rfl
      exact hx ha⟩
  · unfold Chain.insert
    rw [h.tail_eq]
    cases xs with
    | nil => rfl
    | cons a xs =>
      rw [getLast?_eq_some_getLast (cons_ne_nil a xs)]
      exact h.head_eq
  · unfold Chain.insert
    rw [getLast?_append, getLast?_singleton]
    cases c.tail <;> rfl
  · intro front y back hsplit
    rw [hlinks]
    rcases eq_nil_or_concat back with rfl | ⟨back', z, rfl⟩
    · obtain ⟨rfl, hy⟩ := append_inj' hsplit rfl
      cases hy
      rw [if_neg htail, if_pos rfl, h.tail_eq]
      rfl
    · rw [concat_eq_append, ← cons_append, ← append_assoc] at hsplit
      obtain ⟨rfl, hz⟩ := append_inj' hsplit rfl
      cases hz
      have hyx : y ≠ x := by
        rintro rfl
        exact hx (by simp)
      rw [if_neg hyx, h.linked front y back' rfl]
      cases back' with
      | nil =>
        rw [if_pos (by rw [h.tail_eq]; simp)]
        rfl
      | cons b back' =>
        rw [if_neg]
        · rfl
        · -- the last member comes after `y`
          rw [h.tail_eq]
          intro hl
          have hnodup := h.nodup
          rw [nodup_append] at hnodup
          have hlast : (b :: back').getLast? = some y := by
            rwa [getLast?_append, getLast?_cons_cons, Option.or_of_isSome (by simp)] at hl
          exact (nodup_cons.mp hnodup.2.1).1 (mem_of_getLast? hlast)
  · intro y hy
    rw [mem_append, mem_singleton, not_or] at hy
    rw [hlinks, if_neg, if_neg hy.2, h.unlinked y hy.1]
    rw [h.tail_eq]
    exact fun hl => hy.1 (mem_of_getLast? hl)

theorem links_join_previous (c : Chain α) (previous next : Option α) (y : α) :
    (c.join_previous previous next).links y = if previous = some y then { c.links y with next } else c.links y := by
  cases previous with
  | none => rfl
  | some p =>
    unfold join_previous relink
    by_cases hy : y = p
    · simp [hy]
    · simp [hy, Ne.symm hy]

theorem links_join_next (c : Chain α) (previous next : Option α) (y : α) :
    (c.join_next previous next).links y = if next = some y then { c.links y with previous } else c.links y := by
  cases next with
  | none => rfl
  | some n =>
    unfold join_next relink
    by_cases hy : y = n
    · simp [hy]
    · simp [hy, Ne.symm hy]

theorem Represents.remove_eq {l r : List α} (h : c.Represents (l ++ x :: r)) : c.remove x =
    (true, ((c.relink x fun _ => .unlinked).join_previous l.getLast? r.head?).join_next l.getLast? r.head?) := by
  unfold Chain.remove
  rw [h.linked l x r rfl]
  rfl

theorem Represents.remove_between {l r : List α} (h : c.Represents (l ++ x :: r)) : (c.remove x).2.Represents (l ++ r) := by
  have hnodup := nodup_middle.mp h.nodup
  rw [nodup_cons, mem_append, not_or] at hnodup
  obtain ⟨⟨hxl, hxr⟩, hlr⟩ := hnodup
  have hapart : ∀ y ∈ l, y ∈ r → False := fun y hl hr => (nodup_append.mp hlr).2.2 y hl y hr rfl
  have hlinks : ∀ y ≠ x, (c.remove x).2.links y =
      if r.head? = some y then { (if l.getLast? = some y then { c.links y with next := r.head? } else c.links y) with
        previous := l.getLast? } else if l.getLast? = some y then { c.links y with next := r.head? } else c.links y := by
    intro y hy
    have hsame : (c.relink x fun _ => .unlinked).links y = c.links y := if_neg hy
    rw [h.remove_eq, links_join_next, links_join_previous, hsame]
  refine ⟨hlr, ?_, ?_, ?_, ?_⟩
  · rw [h.remove_eq]
    cases hl : l with
    | nil =>
      cases r <;> rfl
    | cons a l =>
      subst hl
      have hsome := getLast?_eq_some_getLast (cons_ne_nil a l)
      rw [hsome]
      cases r with
      | nil | cons b r => exact h.head_eq
  · rw [h.remove_eq]
    rcases eq_nil_or_concat r with rfl | ⟨r', z, rfl⟩
    · rw [append_nil]
      rfl
    · have htail := h.tail_eq
      rw [concat_eq_append] at htail ⊢
      rw [← append_assoc, getLast?_append, getLast?_singleton]
      rw [← cons_append, ← append_assoc, getLast?_append, getLast?_singleton] at htail
      have hsome : ∃ b, (r' ++ [z]).head? = some b := by cases r' <;> exact ⟨_, rfl⟩
      obtain ⟨b, hb⟩ := hsome
      rw [hb]
      cases l.getLast? with
      | none | some p => exact htail
  · intro front y back hsplit
    have hy : y ∈ l ++ r := by rw [hsplit]; simp
    have hyx : y ≠ x := by
      rintro rfl
      exact (mem_append.mp hy).elim hxl hxr
    rw [hlinks y hyx]
    by_cases hyl : y ∈ l
    · -- `y` stands before `x`
      obtain ⟨m, rfl, rfl⟩ : ∃ m, l = front ++ y :: m ∧ back = m ++ r := by
        rcases append_eq_append_iff.mp hsplit with ⟨m, -, hr⟩ | ⟨m, rfl, hm⟩
        · exact absurd (hr ▸ (by simp : y ∈ m ++ y :: back)) (fun hr => hapart y hyl hr)
        · cases m with
          | nil => exact absurd (show y ∈ r by rw [← nil_append r, ← hm]; simp) (fun hr => hapart y hyl hr)
          | cons z m =>
            cases hm
            exact ⟨m, rfl, rfl⟩
      rw [if_neg fun hr => hapart y hyl (mem_of_head? hr), h.linked front y (m ++ x :: r) (by simp)]
      cases m with
      | nil => simp
      | cons b m =>
        have hlast : (front ++ y :: b :: m).getLast? ≠ some y := by
          rw [getLast?_append, getLast?_cons_cons, Option.or_of_isSome (by simp)]
          intro hl
          have := (nodup_append.mp (nodup_append.mp hlr).1).2.1
          exact (nodup_cons.mp this).1 (mem_of_getLast? hl)
        rw [if_neg hlast]
        rfl
    · -- `y` stands after `x`
      obtain ⟨m, rfl, rfl⟩ : ∃ m, front = l ++ m ∧ r = m ++ y :: back := by
        rcases append_eq_append_iff.mp hsplit with ⟨m, rfl, hr⟩ | ⟨m, rfl, hm⟩
        · exact ⟨m, rfl, hr⟩
        · cases m with
          | nil => exact ⟨[], by simp, by simpa using hm.symm⟩
          | cons z m =>
            cases hm
            exact absurd (by simp) hyl
      rw [if_neg fun hl => hyl (mem_of_getLast? hl), h.linked (l ++ x :: m) y back (by simp)]
      cases m with
      | nil => simp
      | cons b m =>
        have hfirst : (b :: m ++ y :: back).head? ≠ some y := by
          intro hb
          cases hb
          exact (nodup_cons.mp (nodup_append.mp hlr).2.1).1 (by simp)
        rw [if_neg hfirst]
        simp
  · intro y hy
    rw [mem_append, not_or] at hy
    by_cases hyx : y = x
    · subst hyx
      rw [h.remove_eq, links_join_next, links_join_previous, if_neg fun hr => hy.2 (mem_of_head? hr),
        if_neg fun hl => hy.1 (mem_of_getLast? hl)]
      exact if_pos rfl
    · rw [hlinks y hyx, if_neg (fun hr => hy.2 (mem_of_head? hr)), if_neg (fun hl => hy.1 (mem_of_getLast? hl))]
      exact h.unlinked y (by simp [hy.1, hy.2, hyx])

theorem Represents.remove (h : c.Represents xs) (hx : x ∈ xs) :
    (c.remove x).1 = true ∧ (c.remove x).2.Represents (xs.erase x) := by
  obtain ⟨l, r, rfl⟩ := append_of_mem hx
  have hxl : x ∉ l := fun hl => by
    have := nodup_middle.mp h.nodup
    exact (nodup_cons.mp this).1 (mem_append_left _ hl)
  rw [erase_append_right _ hxl, erase_cons_head]
  exact ⟨by rw [h.remove_eq], h.remove_between⟩

theorem Represents.remove_absent (h : c.Represents xs) (hx : x ∉ xs) : c.remove x = (false, c) := by
  unfold Chain.remove
  rw [h.unlinked x hx]
  rfl

theorem Represents.pop_front_nil (h : c.Represents []) : c.pop_front = (none, c) := by
  unfold pop_front
  rw [h.head_eq]
  rfl

theorem Represents.pop_front (h : c.Represents (x :: xs)) :
    c.pop_front.1 = some x ∧ c.pop_front.2.Represents xs := by
  obtain ⟨hfound, hrest⟩ := h.remove mem_cons_self
  rw [erase_cons_head] at hrest
  unfold Chain.pop_front
  rw [h.head_eq]
  simp only [head?_cons, hfound]
  exact ⟨rfl, hrest⟩

/-- The members from one on, by their links. -/
def follow (c : Chain α) : Nat → Option α → List α
  | _, none => []
  | 0, some _ => []
  | fuel + 1, some x => x :: c.follow fuel (c.links x).next

omit [DecidableEq α] in
theorem Represents.follow_back (h : c.Represents xs) {front back : List α} (hsplit : xs = front ++ back) {fuel : Nat}
    (hfuel : back.length ≤ fuel) : c.follow fuel back.head? = back := by
  induction back generalizing front fuel with
  | nil => cases fuel <;> rfl
  | cons x back ih =>
    cases fuel with
    | zero => exact absurd hfuel (Nat.not_succ_le_zero _)
    | succ fuel =>
      have hlinks := h.linked front x back hsplit
      rw [head?_cons, follow, hlinks]
      congr 1
      have hsplit' : xs = (front ++ [x]) ++ back := by rw [hsplit, append_assoc]; rfl
      exact ih hsplit' (Nat.le_of_succ_le_succ hfuel)

omit [DecidableEq α] in
theorem Represents.follow (h : c.Represents xs) : c.follow xs.length c.head = xs := by
  rw [h.head_eq]
  exact h.follow_back (nil_append xs).symm (Nat.le_refl _)

end Chain

end Lib.Intrusive
