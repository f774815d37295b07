import Oxidizer.Routing.Model
/-!
# What the trie holds

A node keeps the routes whose atoms lead to it, in the order in which they
were inserted. So the trie of a route list holds, under every sequence of
atoms, exactly the routes with that sequence, in the order of declaration.
-/

namespace Routing

open Lib List Node Option SortedMap

instance : Std.TransOrd (Str × Str) :=
  inferInstanceAs (Std.TransCmp (compareLex (compareOn fun x : Str × Str => x.1) (compareOn fun x => x.2)))

instance : Std.LawfulEqOrd (Str × Str) where
  eq_of_compare {a b} h := by
    have h' : (compare a.1 b.1).then (compare a.2 b.2) = .eq := h
    rw [Ordering.then_eq_eq] at h'
    exact Prod.ext (Std.LawfulEqOrd.eq_of_compare h'.1) (Std.LawfulEqOrd.eq_of_compare h'.2)

/-- `**` is the last atom, if it is there at all. -/
def RestLast : List Atom → Prop
  | [] => True
  | .rest :: atoms => atoms = []
  | _ :: atoms => RestLast atoms

/-- The leaves kept under a sequence of atoms. -/
def leaves_at : List Atom → Node → List Leaf
  | [], node => node.exact
  | .rest :: atoms, node => if atoms = [] then node.rest else []
  | .literal text :: atoms, node =>
    match node.literals.lookup text with
    | some child => leaves_at atoms child
    | none => []
  | .affix pre suf :: atoms, node =>
    match node.affix.lookup (pre, suf) with
    | some child => leaves_at atoms child
    | none => []
  | .single :: atoms, node =>
    match node.single with
    | some child => leaves_at atoms child
    | none => []

theorem leaves_at_default (atoms : List Atom) : leaves_at atoms .default = [] := by
  cases atoms with
  | nil => rfl
  | cons a atoms =>
    cases a with
    | rest => simp [leaves_at, Node.default]
    | _ => rfl

/-- The edges of every node are in key order. -/
inductive Node.Sorted : Node → Prop where
  | mk {node : Node} (literals : SortedMap.Sorted node.literals) (affix : SortedMap.Sorted node.affix)
      (below_literals : ∀ e ∈ node.literals, Sorted e.2) (below_affix : ∀ e ∈ node.affix, Sorted e.2)
      (below_single : ∀ child, node.single = some child → Sorted child) : Sorted node

/-- No path of edges is longer than `n`. -/
def Node.Bounded : Nat → Node → Prop
  | 0, node => node.literals = [] ∧ node.affix = [] ∧ node.single = none
  | n + 1, node => (∀ e ∈ node.literals, Bounded n e.2) ∧ (∀ e ∈ node.affix, Bounded n e.2) ∧
      ∀ child, node.single = some child → Bounded n child

theorem Node.sorted_default : Node.default.Sorted :=
  .mk List.Pairwise.nil List.Pairwise.nil (by simp [default]) (by simp [default]) (by simp [default])

theorem Node.bounded_default (n : Nat) : Node.default.Bounded n := by
  cases n with
  | zero => exact ⟨rfl, rfl, rfl⟩
  | succ n => exact ⟨by simp [default], by simp [default], by simp [default]⟩

variable {node : Node}

theorem Node.Bounded.mono {n m : Nat} (hnm : n ≤ m) (h : node.Bounded n) : node.Bounded m := by
  induction n generalizing m node with
  | zero =>
    obtain ⟨hl, ha, hs⟩ := h
    cases m with
    | zero => exact ⟨hl, ha, hs⟩
    | succ m => exact ⟨by simp [hl], by simp [ha], by simp [hs]⟩
  | succ n ih =>
    obtain ⟨m, rfl⟩ : ∃ k, m = k + 1 := ⟨m - 1, by omega⟩
    obtain ⟨hl, ha, hs⟩ := h
    have hnm' : n ≤ m := Nat.le_of_succ_le_succ hnm
    exact ⟨fun e he => ih hnm' (hl e he), fun e he => ih hnm' (ha e he), fun c hc => ih hnm' (hs c hc)⟩

/-! ## Inserting a route -/

/-- Put a leaf where the loop over the atoms ends. -/
def Node.put (leaf : Leaf) (has_rest : Bool) (node : Node) : Node :=
  if has_rest then { node with rest := node.rest ++ [leaf] } else { node with exact := node.exact ++ [leaf] }

theorem Node.put_sorted (h : node.Sorted) (leaf : Leaf) (has_rest : Bool) : (node.put leaf has_rest).Sorted := by
  obtain ⟨h1, h2, h3, h4, h5⟩ := h
  unfold put
  split <;> exact .mk h1 h2 h3 h4 h5

theorem Node.put_bounded {n : Nat} (h : node.Bounded n) (leaf : Leaf) (has_rest : Bool) :
    (node.put leaf has_rest).Bounded n := by
  unfold put
  cases n <;> split <;> exact h

theorem entry_forall {κ : Type} [Ord κ] [Std.LawfulEqOrd κ] {P : Node → Prop} {key : κ} {f : Node → Node}
    {edges : List (κ × Node)} (hold : ∀ e ∈ edges, P e.2) (hf : ∀ node, P node → P (f node)) (hinit : P .default) :
    ∀ e ∈ entry key f edges, P e.2 := by
  intro e he
  rcases mem_upsert he with he | rfl | ⟨v, hv, rfl⟩
  · exact hold e he
  · exact hf _ hinit
  · exact hf _ (hold _ hv)

theorem Node.descend_sorted {leave : Node → Node} (hleave : ∀ node : Node, node.Sorted → (leave node).Sorted)
    (atoms : List Atom) (h : node.Sorted) : (node.descend leave atoms).Sorted := by
  induction atoms generalizing node with
  | nil => exact hleave node h
  | cons a atoms ih =>
    have hall := h
    obtain ⟨h1, h2, h3, h4, h5⟩ := h
    cases a with
    | literal text =>
      exact .mk (sorted_upsert h1) h2 (entry_forall h3 (fun _ hn => ih hn) sorted_default) h4 h5
    | affix pre suf =>
      exact .mk h1 (sorted_upsert h2) h3 (entry_forall h4 (fun _ hn => ih hn) sorted_default) h5
    | single =>
      refine .mk h1 h2 h3 h4 ?_
      rintro child ⟨⟩
      refine ih ?_
      cases hs : node.single with
      | none => exact sorted_default
      | some child => exact h5 child hs
    | rest => exact ih hall

theorem Node.descend_bounded {leave : Node → Node} (hleave : ∀ n, ∀ node : Node, node.Bounded n → (leave node).Bounded n)
    (atoms : List Atom) {n : Nat} (hn : atoms.length ≤ n) (h : node.Bounded n) :
    (node.descend leave atoms).Bounded n := by
  induction atoms generalizing n node with
  | nil => exact hleave n node h
  | cons a atoms ih =>
    obtain ⟨n, rfl⟩ : ∃ k, n = k + 1 := ⟨n - 1, by simp only [length_cons] at hn; omega⟩
    have hn' : atoms.length ≤ n := Nat.le_of_succ_le_succ hn
    have hall := h
    obtain ⟨hl, ha, hs⟩ := h
    cases a with
    | literal text =>
      exact ⟨entry_forall hl (fun _ hb => ih hn' hb) (bounded_default n), ha, hs⟩
    | affix pre suf =>
      exact ⟨hl, entry_forall ha (fun _ hb => ih hn' hb) (bounded_default n), hs⟩
    | single =>
      refine ⟨hl, ha, ?_⟩
      rintro child ⟨⟩
      refine ih hn' ?_
      cases hc : node.single with
      | none => exact bounded_default n
      | some child => exact hs child hc
    | rest => exact ih (Nat.le_succ_of_le hn') hall

/-- The leaves below the edge of a key, or of a missing edge. -/
def leaves_below (atoms : List Atom) (child : Option Node) : List Leaf := leaves_at atoms (child.getD .default)

theorem leaves_below_eq (atoms : List Atom) (child : Option Node) :
    leaves_below atoms child = match child with
      | some child => leaves_at atoms child
      | none => [] := by
  cases child with
  | some child => rfl
  | none => exact leaves_at_default atoms

theorem leaves_at_literal (text : Str) (atoms : List Atom) (node : Node) :
    leaves_at (.literal text :: atoms) node = leaves_below atoms (node.literals.lookup text) := by
  rw [leaves_below_eq]
  rfl

theorem leaves_at_affix (pre suf : Str) (atoms : List Atom) (node : Node) :
    leaves_at (.affix pre suf :: atoms) node = leaves_below atoms (node.affix.lookup (pre, suf)) := by
  rw [leaves_below_eq]
  rfl

theorem leaves_at_single (atoms : List Atom) (node : Node) :
    leaves_at (.single :: atoms) node = leaves_below atoms node.single := by
  rw [leaves_below_eq]
  rfl

theorem sorted_getD {child : Option Node} (h : ∀ c, child = some c → c.Sorted) : (child.getD .default).Sorted := by
  cases child with
  | none => exact sorted_default
  | some c => exact h c rfl

theorem getLast?_cons_rest {a : Atom} (ha : a ≠ .rest) (atoms : List Atom) :
    ((a :: atoms).getLast? == some .rest) = (atoms.getLast? == some .rest) := by
  cases atoms with
  | nil => simp [ha]
  | cons b atoms => rw [getLast?_cons_cons]

theorem leaves_at_insert (leaf : Leaf) {atoms : List Atom} (hr : RestLast atoms) {has_rest : Bool}
    (hrest : has_rest = (atoms.getLast? == some .rest)) (h : node.Sorted) {shape : List Atom}
    (hshape : RestLast shape) :
    leaves_at shape (node.descend (Node.put leaf has_rest) atoms) =
      leaves_at shape node ++ if shape = atoms then [leaf] else [] := by
  induction atoms generalizing node shape with
  | nil =>
    cases (hrest : has_rest = false)
    cases shape with
    | nil => rfl
    | cons b shape =>
      rw [if_neg (by simp), append_nil]
      cases b <;> rfl
  | cons a atoms ih =>
    obtain ⟨h1, h2, h3, h4, h5⟩ := h
    cases shape with
    | nil =>
      cases a with
      | rest =>
        cases (hr : atoms = [])
        cases (hrest : has_rest = true)
        exact (append_nil _).symm
      | _ => exact (append_nil _).symm
    | cons b shape =>
      cases a with
      | rest =>
        cases (hr : atoms = [])
        cases (hrest : has_rest = true)
        cases b with
        | rest =>
          cases (hshape : shape = [])
          rfl
        | _ => exact (append_nil _).symm
      | literal text =>
        rw [getLast?_cons_rest (by simp)] at hrest
        cases b with
        | literal text' =>
          rw [leaves_at_literal, leaves_at_literal]
          by_cases ht : text' = text
          · subst ht
            have hchild : (node.literals.lookup text').getD .default |>.Sorted :=
              sorted_getD fun c hc => h3 (text', c) (mem_of_lookup hc)
            have hsame : (Atom.literal text' :: shape = Atom.literal text' :: atoms) = (shape = atoms) := by simp
            simp only [descend, entry, lookup_upsert_self h1, leaves_below, getD_some, hsame]
            exact ih hr hrest hchild hshape
          · rw [if_neg (by simp [ht]), append_nil]
            simp only [descend, entry, lookup_upsert_ne ht]
        | _ => exact (append_nil _).symm
      | affix pre suf =>
        rw [getLast?_cons_rest (by simp)] at hrest
        cases b with
        | affix pre' suf' =>
          rw [leaves_at_affix, leaves_at_affix]
          by_cases ht : (pre', suf') = (pre, suf)
          · cases ht
            have hchild : (node.affix.lookup (pre, suf)).getD .default |>.Sorted :=
              sorted_getD fun c hc => h4 ((pre, suf), c) (mem_of_lookup hc)
            have hsame : (Atom.affix pre suf :: shape = Atom.affix pre suf :: atoms) = (shape = atoms) := by simp
            simp only [descend, entry, lookup_upsert_self h2, leaves_below, getD_some, hsame]
            exact ih hr hrest hchild hshape
          · rw [if_neg (by intro he; cases he; exact ht rfl), append_nil]
            simp only [descend, entry, lookup_upsert_ne ht]
        | _ => exact (append_nil _).symm
      | single =>
        rw [getLast?_cons_rest (by simp)] at hrest
        cases b with
        | single =>
          rw [leaves_at_single, leaves_at_single]
          have hchild : (node.single.getD .default).Sorted := sorted_getD h5
          have hsame : (Atom.single :: shape = Atom.single :: atoms) = (shape = atoms) := by simp
          simp only [descend, leaves_below, getD_some, hsame]
          exact ih hr hrest hchild hshape
        | _ => exact (append_nil _).symm

/-! ## The atoms of a template -/

def Route.atoms (route : Route) : List Atom := (flatten route.template.segments).1

/-- What `seen_rest` says about the atoms so far. -/
def Seen : Bool → List Atom → Prop
  | false, atoms => Atom.rest ∉ atoms
  | true, atoms => ∃ front, atoms = front ++ [.rest] ∧ Atom.rest ∉ front

theorem restLast_of_not_mem {atoms : List Atom} (h : Atom.rest ∉ atoms) : RestLast atoms := by
  induction atoms with
  | nil => trivial
  | cons a atoms ih =>
    rw [mem_cons, not_or] at h
    cases a with
    | rest => exact absurd rfl h.1
    | _ => exact ih h.2

theorem Seen.restLast {seen : Bool} {atoms : List Atom} (h : Seen seen atoms) : RestLast atoms := by
  cases seen with
  | false => exact restLast_of_not_mem h
  | true =>
    obtain ⟨front, rfl, hf⟩ := h
    induction front with
    | nil => rfl
    | cons a front ih =>
      rw [mem_cons, not_or] at hf
      cases a with
      | rest => exact absurd rfl hf.1
      | _ => exact ih hf.2

theorem Seen.push {atoms : List Atom} (h : Seen false atoms) (a : Atom) : Seen (a == .rest) (atoms ++ [a]) := by
  by_cases ha : a = .rest
  · subst ha
    exact ⟨atoms, rfl, h⟩
  · rw [beq_eq_false_iff_ne.mpr ha]
    simp only [Seen, mem_append, mem_singleton, not_or]
    exact ⟨h, Ne.symm ha⟩

theorem SubSegment.atom_eq_rest (sub : SubSegment) : (sub.atom == .rest) = (sub == .rest) := by
  cases sub <;> rfl

theorem Seen.subSegments {segments : List SubSegment} {seen seen' : Bool} {atoms : List Atom} (h : Seen seen atoms)
    (hv : segments.foldlM (fun seen sub => if seen then none else some (sub == .rest)) seen = some seen') :
    Seen seen' (atoms ++ segments.map SubSegment.atom) := by
  induction segments generalizing seen atoms with
  | nil => cases hv; rw [map_nil, append_nil]; exact h
  | cons sub segments ih =>
    obtain ⟨next, hnext, hrest⟩ := bind_eq_some_iff.mp hv
    cases seen with
    | true => cases hnext
    | false =>
      cases hnext
      have hpush := h.push sub.atom
      rw [SubSegment.atom_eq_rest] at hpush
      have := ih hpush hrest
      rw [append_assoc] at this
      exact this

theorem Seen.segment {seg : Segment} {seen seen' : Bool} {acc : List Atom × List VarSpan} (h : Seen seen acc.1)
    (hv : validate_rest_step seen seg = some seen') : Seen seen' (flatten_step acc seg).1 := by
  cases seg with
  | var v => exact h.subSegments hv
  | literal text => cases seen <;> cases hv; exact h.push (.literal text)
  | single => cases seen <;> cases hv; exact h.push .single
  | rest => cases seen <;> cases hv; exact h.push .rest
  | affix pre name suf => cases seen <;> cases hv; exact h.push (.affix pre suf)

theorem Route.atoms_restLast (route : Route) : RestLast route.atoms := by
  have hfold : ∀ (segments : List Segment) (seen : Bool) (acc : List Atom × List VarSpan), Seen seen acc.1 →
      (segments.foldlM validate_rest_step seen).isSome → RestLast (segments.foldl flatten_step acc).1 := by
    intro segments
    induction segments with
    | nil => intro seen acc h _; exact h.restLast
    | cons seg segments ih =>
      intro seen acc h hv
      obtain ⟨final, hfinal⟩ := isSome_iff_exists.mp hv
      obtain ⟨next, hnext, hrest⟩ := bind_eq_some_iff.mp hfinal
      exact ih next _ (h.segment hnext) (isSome_iff_exists.mpr ⟨final, hrest⟩)
  exact hfold _ false ([], []) (by simp [Seen]) route.template.rest_last

/-! ## The trie of a route list -/

/-- What the trie holds once the routes of `done` are in. -/
structure Trie.Holds (done : List (Route × Nat)) (trie : Trie) : Prop where
  sorted : trie.root.Sorted
  bounded : trie.root.Bounded trie.max_segments
  leaves : ∀ shape, RestLast shape →
    leaves_at shape trie.root = (done.filter fun e => e.1.atoms = shape).map fun e => e.1.leaf e.2
  verbs : trie.any_verb = done.any fun e => e.1.template.verb.isSome
  deep : ∀ e ∈ done, e.1.atoms.length ≤ trie.max_segments

theorem Trie.Holds.insert {done : List (Route × Nat)} {trie : Trie} (h : trie.Holds done) (route : Route) (index : Nat) :
    Trie.Holds (done ++ [(route, index)])
      { root := (insert_route trie.root route index).1
        max_segments := max trie.max_segments (insert_route trie.root route index).2
        any_verb := trie.any_verb || route.template.verb.isSome } := by
  have hroot : (insert_route trie.root route index).1 =
      trie.root.descend (put (route.leaf index) (route.atoms.getLast? == some .rest)) route.atoms := rfl
  have hle : trie.max_segments ≤ max trie.max_segments route.atoms.length := Nat.le_max_left _ _
  refine ⟨?_, ?_, ?_, ?_, ?_⟩
  · rw [hroot]
    exact descend_sorted (fun node hn => put_sorted hn _ _) _ h.sorted
  · rw [hroot]
    exact descend_bounded (fun n node hn => put_bounded hn _ _) _ (Nat.le_max_right _ _) (h.bounded.mono hle)
  · intro shape hshape
    rw [hroot, leaves_at_insert _ route.atoms_restLast rfl h.sorted hshape, h.leaves shape hshape, filter_append, map_append]
    congr 1
    by_cases hs : shape = route.atoms
    · simp [hs]
    · simp [hs, Ne.symm hs]
  · simp only
    rw [h.verbs, any_append]
    simp
  · intro e he
    rcases mem_append.mp he with he | he
    · exact Nat.le_trans (h.deep e he) hle
    · rw [mem_singleton.mp he]
      exact Nat.le_max_right _ _

theorem build_trie_holds (routes : List Route) : (build_trie routes).Holds routes.zipIdx := by
  have hfold : ∀ (todo done : List (Route × Nat)) (trie : Trie), trie.Holds done →
      (todo.foldl (fun trie entry =>
        let inserted := insert_route trie.root entry.1 entry.2
        { root := inserted.1
          max_segments := max trie.max_segments inserted.2
          any_verb := trie.any_verb || entry.1.template.verb.isSome }) trie).Holds (done ++ todo) := by
    intro todo
    induction todo with
    | nil => intro done trie h; rw [append_nil]; exact h
    | cons e todo ih =>
      intro done trie h
      have := ih _ _ (h.insert e.1 e.2)
      rw [append_assoc] at this
      exact this
  refine hfold routes.zipIdx [] ⟨.default, 0, false⟩ ⟨sorted_default, bounded_default 0, ?_, rfl, by simp⟩
  intro shape _
  exact leaves_at_default shape

end Routing
