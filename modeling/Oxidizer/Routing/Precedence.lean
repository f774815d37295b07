import Oxidizer.Routing.Walk
/-!
# The declared precedence

Which sequences of atoms match the segments of a path, and which of two comes
first: position by position, a literal before an affix, the affix with more
literal text before the others, an affix before `*`, `*` before the end of the
template, and the end before `**`. The search order of the walk is this order,
and it goes through every sequence that matches and leads to a leaf.
-/

namespace Routing

open Lib List

/-- An atom other than `**` takes a whole segment. -/
def Atom.Accepts : Atom → Str → Prop
  | .literal text, s => s = text
  | .affix pre suf, s => ∃ middle, middle ≠ [] ∧ s = pre ++ middle ++ suf
  | .single, s => s ≠ []
  | .rest, _ => False

/-- A sequence of atoms matches the segments of a path. -/
def Matches : List Atom → List Str → Prop
  | [], segs => segs = []
  | .rest :: atoms, _ => atoms = []
  | _ :: _, [] => False
  | a :: atoms, s :: segs => a.Accepts s ∧ Matches atoms segs

/-- How the kinds of atoms follow each other; the end of a template is between `*` and `**`. -/
def Atom.rank : Atom → Nat
  | .literal _ => 0
  | .affix _ _ => 1
  | .single => 2
  | .rest => 4

/-- An atom comes before another one: by kind, and between affixes longer text first, ties by key. -/
def Atom.Before : Atom → Atom → Prop
  | .affix pre suf, .affix pre' suf' =>
    pre'.length + suf'.length < pre.length + suf.length ∨
      pre.length + suf.length = pre'.length + suf'.length ∧ compare (pre, suf) (pre', suf') = .lt
  | a, b => a.rank < b.rank

/-- The lexicographic order on sequences of atoms. -/
def Precedes : List Atom → List Atom → Prop
  | [], [] => False
  | [], b :: _ => b = .rest
  | a :: _, [] => a ≠ .rest
  | a :: as, b :: bs => a.Before b ∨ a = b ∧ Precedes as bs

variable {a : Atom}

theorem Atom.Before.asymm {b : Atom} (h : a.Before b) : ¬ b.Before a := by
  cases a <;> cases b
  case affix.affix pre suf pre' suf' =>
    rintro (hlt | ⟨heq, hlt⟩) <;> rcases h with h | ⟨hsame, h⟩
    · omega
    · omega
    · omega
    · exact Std.OrientedCmp.not_lt_of_lt h hlt
  all_goals
    unfold Atom.Before Atom.rank at *
    simp at h ⊢

theorem Precedes.asymm {as bs : List Atom} (h : Precedes as bs) : ¬ Precedes bs as := by
  induction as generalizing bs with
  | nil =>
    cases bs with
    | nil => exact fun _ => h
    | cons b bs => exact fun hne => hne h
  | cons a as ih =>
    cases bs with
    | nil => exact fun heq => h heq
    | cons b bs =>
      rcases h with h | ⟨rfl, h⟩
      · rintro (hb | ⟨rfl, -⟩)
        · exact h.asymm hb
        · exact h.asymm h
      · rintro (hb | ⟨-, hb⟩)
        · exact hb.asymm hb
        · exact ih h hb

/-! ## The edges of a node, in search order -/

instance : Std.TransCmp affix_cmp :=
  have : Std.TransCmp fun a b : Str × Str => compare (affix_specificity b.1 b.2) (affix_specificity a.1 a.2) :=
    @Std.TransCmp.opposite _ (compareOn fun key : Str × Str => affix_specificity key.1 key.2) inferInstance
  inferInstanceAs (Std.TransCmp (compareLex
    (fun a b : Str × Str => compare (affix_specificity b.1 b.2) (affix_specificity a.1 a.2)) (fun a b => compare a b)))

theorem affix_cmp_eq_lt {a b : Str × Str} (h : affix_cmp a b = .lt) :
    Atom.Before (.affix a.1 a.2) (.affix b.1 b.2) := by
  unfold affix_cmp affix_specificity at h
  rw [Ordering.then_eq_lt] at h
  rcases h with h | ⟨heq, hlt⟩
  · exact .inl (Nat.compare_eq_lt.mp h)
  · exact .inr ⟨(Nat.compare_eq_eq.mp heq).symm, hlt⟩

variable {node : Node}

theorem affix_order_sorted (h : node.Sorted) :
    (affix_edges_in_match_order node).Pairwise fun a b => Atom.Before (.affix a.1.1 a.1.2) (.affix b.1.1 b.1.2) := by
  let r : (Str × Str) × Node → (Str × Str) × Node → Prop := fun a b => (affix_cmp a.1 b.1).isLE = true
  have : IsTrans ((Str × Str) × Node) r := ⟨fun _ _ _ hab hbc => Std.TransCmp.isLE_trans hab hbc⟩
  have : Std.Total r := ⟨fun a b => by
    cases hc : affix_cmp a.1 b.1 with
    | gt => exact .inr (by simp [r, Std.OrientedCmp.lt_of_gt hc])
    | _ => exact .inl (by simp [r, hc])⟩
  have hle : (affix_edges_in_match_order node).Pairwise r := pairwise_insertionSort r node.affix
  have hne : (affix_edges_in_match_order node).Pairwise fun a b => a.1 ≠ b.1 := pairwise_map.mp (affix_order_nodup h)
  refine (hle.and hne).imp fun {a b} hab => affix_cmp_eq_lt ?_
  cases hc : affix_cmp a.1 b.1 with
  | lt => rfl
  | eq =>
    unfold affix_cmp at hc
    rw [Ordering.then_eq_eq] at hc
    exact absurd (Std.LawfulEqOrd.eq_of_compare hc.2) hab.2
  | gt =>
    have hle := hab.1
    simp only [r, hc] at hle
    cases hle

/-- The edges a segment leads along, in the order in which they are tried. -/
def Node.edges (node : Node) (s : Str) : List (Atom × Node) :=
  ((node.literals.lookup s).map fun child => (Atom.literal s, child)).toList ++
    ((affix_edges_in_match_order node).filter fun e => affix_matches s e.1).map (fun e => (.affix e.1.1 e.1.2, e.2)) ++
    ((if !s.isEmpty then node.single else none).map fun child => (Atom.single, child)).toList

theorem affix_matches_iff (s : Str) (key : Str × Str) :
    affix_matches s key = true ↔ (Atom.affix key.1 key.2).Accepts s := by
  unfold affix_matches Atom.Accepts
  simp only [Bool.and_eq_true, decide_eq_true_eq, isPrefixOf_iff_prefix, isSuffixOf_iff_suffix]
  constructor
  · rintro ⟨⟨hlen, front, rfl⟩, hsuf⟩
    have hle : key.2.length ≤ front.length := by
      rw [length_append] at hlen
      omega
    obtain ⟨middle, rfl⟩ : key.2 <:+ front := suffix_of_suffix_length_le hsuf (suffix_append _ _) hle
    refine ⟨middle, ?_, by rw [append_assoc]⟩
    rintro rfl
    simp at hlen
  · rintro ⟨middle, hne, rfl⟩
    have := length_pos_of_ne_nil hne
    refine ⟨⟨?_, ?_⟩, ?_⟩
    · simp only [length_append]
      omega
    · rw [append_assoc]
      exact prefix_append _ _
    · exact suffix_append _ _

/-- The child of a node behind an atom. -/
def Node.child (node : Node) : Atom → Option Node
  | .literal text => node.literals.lookup text
  | .affix pre suf => node.affix.lookup (pre, suf)
  | .single => node.single
  | .rest => none

theorem mem_edges (h : node.Sorted) {s : Str} {child : Node} :
    (a, child) ∈ node.edges s ↔ a.Accepts s ∧ node.child a = some child := by
  have hnodup : (node.affix.map Prod.fst).Nodup := by
    obtain ⟨-, ha, -, -, -⟩ := h
    exact ha.nodup
  unfold Node.edges
  simp only [mem_append, Option.mem_toList, Option.map_eq_some_iff, mem_map, mem_filter]
  constructor
  · rintro ((⟨c, hc, he⟩ | ⟨e, ⟨hmem, hmatch⟩, he⟩) | ⟨c, hc, he⟩)
    · cases he
      exact ⟨rfl, hc⟩
    · cases he
      exact ⟨(affix_matches_iff s e.1).mp hmatch, SortedMap.lookup_of_mem hnodup ((affix_order_perm node).mem_iff.mp hmem)⟩
    · cases he
      split at hc
      · rename_i hs
        exact ⟨by simpa [Atom.Accepts] using hs, hc⟩
      · cases hc
  · rintro ⟨hacc, hc⟩
    cases a with
    | literal text =>
      cases (hacc : s = text)
      exact .inl (.inl ⟨child, hc, rfl⟩)
    | affix pre suf =>
      refine .inl (.inr ⟨((pre, suf), child), ⟨?_, (affix_matches_iff s (pre, suf)).mpr hacc⟩, rfl⟩)
      exact (affix_order_perm node).mem_iff.mpr (SortedMap.mem_of_lookup hc)
    | single =>
      refine .inr ⟨child, ?_, rfl⟩
      rw [if_pos (by simpa [Atom.Accepts] using hacc)]
      exact hc
    | rest => cases hacc

theorem edges_sorted (h : node.Sorted) (s : Str) : (node.edges s).Pairwise fun a b => a.1.Before b.1 := by
  refine pairwise_append.mpr ⟨pairwise_append.mpr ⟨?_, ?_, ?_⟩, ?_, ?_⟩
  · cases node.literals.lookup s <;> simp
  · exact pairwise_map.mpr ((affix_order_sorted h).filter _)
  · intro a ha b hb
    obtain ⟨c, -, rfl⟩ := Option.map_eq_some_iff.mp (Option.mem_toList.mp ha)
    obtain ⟨e, -, rfl⟩ := mem_map.mp hb
    exact Nat.zero_lt_one
  · cases (if !s.isEmpty then node.single else none) <;> simp
  · intro a ha b hb
    obtain ⟨c, -, rfl⟩ := Option.map_eq_some_iff.mp (Option.mem_toList.mp hb)
    rcases mem_append.mp ha with ha | ha
    · obtain ⟨c, -, rfl⟩ := Option.map_eq_some_iff.mp (Option.mem_toList.mp ha)
      exact Nat.zero_lt_two
    · obtain ⟨e, -, rfl⟩ := mem_map.mp ha
      exact Nat.one_lt_two

/-! ## The sequences of atoms the search goes through -/

/-- The sequences of atoms that match the segments, with the leaves they lead to, in search order. -/
def candidates : List Str → Node → List (List Atom × List Leaf)
  | [], node => [([], node.exact), ([.rest], node.rest)]
  | s :: segs, node =>
    (node.edges s).flatMap (fun e => (candidates segs e.2).map fun c => (e.1 :: c.1, c.2)) ++ [([.rest], node.rest)]

theorem child_sorted (h : node.Sorted) {child : Node} (hc : node.child a = some child) :
    child.Sorted := by
  obtain ⟨-, -, hl, ha, hs⟩ := h
  cases a with
  | literal text => exact hl _ (SortedMap.mem_of_lookup hc)
  | affix pre suf => exact ha _ (SortedMap.mem_of_lookup hc)
  | single => exact hs _ hc
  | rest => cases hc

theorem leaves_at_child (ha : a ≠ .rest) (atoms : List Atom) :
    leaves_at (a :: atoms) node = leaves_below atoms (node.child a) := by
  cases a with
  | literal text => exact leaves_at_literal text atoms node
  | affix pre suf => exact leaves_at_affix pre suf atoms node
  | single => exact leaves_at_single atoms node
  | rest => exact absurd rfl ha

theorem Atom.Accepts.ne_rest {s : Str} (h : a.Accepts s) : a ≠ .rest := by
  rintro rfl
  exact h

theorem matches_cons (ha : a ≠ .rest) (atoms : List Atom) (segs : List Str) :
    Matches (a :: atoms) segs ↔ ∃ s rest, segs = s :: rest ∧ a.Accepts s ∧ Matches atoms rest := by
  cases segs <;> cases a <;> simp_all [Matches]

variable {segs : List Str}

theorem candidates_sound (h : node.Sorted) {c : List Atom × List Leaf}
    (hc : c ∈ candidates segs node) : Matches c.1 segs ∧ c.2 = leaves_at c.1 node := by
  induction segs generalizing node c with
  | nil =>
    rcases mem_cons.mp hc with rfl | hc
    · exact ⟨rfl, rfl⟩
    · cases mem_singleton.mp hc
      exact ⟨rfl, rfl⟩
  | cons s segs ih =>
    rcases mem_append.mp hc with hc | hc
    · obtain ⟨⟨a, child⟩, he, hc⟩ := mem_flatMap.mp hc
      obtain ⟨c', hc', rfl⟩ := mem_map.mp hc
      obtain ⟨hacc, hchild⟩ := (mem_edges h).mp he
      obtain ⟨hmatches, hleaves⟩ := ih (child_sorted h hchild) hc'
      refine ⟨(matches_cons hacc.ne_rest _ _).mpr ⟨s, segs, rfl, hacc, hmatches⟩, ?_⟩
      rw [leaves_at_child hacc.ne_rest, hchild]
      exact hleaves
    · cases mem_singleton.mp hc
      exact ⟨rfl, rfl⟩

theorem candidates_complete (h : node.Sorted) {shape : List Atom}
    (hm : Matches shape segs) (hl : leaves_at shape node ≠ []) : (shape, leaves_at shape node) ∈ candidates segs node := by
  induction shape generalizing segs node with
  | nil =>
    cases (hm : segs = [])
    exact mem_cons_self
  | cons a shape ih =>
    by_cases ha : a = .rest
    · subst ha
      cases (hm : shape = [])
      cases segs with
      | nil => exact mem_cons_of_mem _ mem_cons_self
      | cons s segs => exact mem_append_right _ mem_cons_self
    · obtain ⟨s, rest, rfl, hacc, hm⟩ := (matches_cons ha _ _).mp hm
      rw [leaves_at_child ha] at hl ⊢
      cases hchild : node.child a with
      | none =>
        rw [hchild] at hl
        exact absurd (leaves_at_default shape) hl
      | some child =>
        rw [hchild] at hl
        refine mem_append_left _ (mem_flatMap.mpr ⟨(a, child), (mem_edges h).mpr ⟨hacc, hchild⟩, ?_⟩)
        exact mem_map.mpr ⟨_, ih (child_sorted h hchild) hm hl, rfl⟩

theorem candidates_sorted (h : node.Sorted) :
    (candidates segs node).Pairwise fun a b => Precedes a.1 b.1 := by
  induction segs generalizing node with
  | nil => simp [candidates, Precedes]
  | cons s segs ih =>
    refine pairwise_append.mpr ⟨pairwise_flatMap.mpr ⟨?_, ?_⟩, pairwise_singleton _ _, ?_⟩
    · rintro ⟨a, child⟩ he
      refine pairwise_map.mpr ((ih (child_sorted h ((mem_edges h).mp he).2)).imp fun hp => ?_)
      exact .inr ⟨rfl, hp⟩
    · refine (edges_sorted h s).imp ?_
      rintro e e' hbefore c hc c' hc'
      obtain ⟨d, -, rfl⟩ := mem_map.mp hc
      obtain ⟨d', -, rfl⟩ := mem_map.mp hc'
      exact .inl hbefore
    · intro c hc c' hc'
      obtain ⟨⟨a, child⟩, he, hc⟩ := mem_flatMap.mp hc
      obtain ⟨d, -, rfl⟩ := mem_map.mp hc
      cases mem_singleton.mp hc'
      have hacc := ((mem_edges h).mp he).1
      cases a with
      | rest => cases hacc
      | _ => exact .inl (by simp [Atom.Before, Atom.rank])

/-! ## The runtime trie tries the candidates -/

/-- Two edge lists with the same keys that lead to nodes and their compiled forms. -/
abbrev CompiledEdges {κ : Type} : List (κ × Node) → List (κ × RtNode) → Prop :=
  List.Forall₂ fun e r => e.1 = r.1 ∧ Compiled e.2 r.2

variable {κ : Type} {edges : List (κ × Node)} {rts : List (κ × RtNode)}

theorem compiledEdges_of
    (hkeys : rts.map Prod.fst = edges.map Prod.fst)
    (h : ∀ (i : Nat) e r, edges[i]? = some e → rts[i]? = some r → Compiled e.2 r.2) : CompiledEdges edges rts := by
  have hlen : edges.length = rts.length := by
    have := congrArg List.length hkeys
    simpa using this.symm
  refine List.forall₂_iff_get.mpr ⟨hlen, fun i h1 h2 => ⟨?_, ?_⟩⟩
  · have := congrArg (fun l => l[i]?) hkeys
    simp only [getElem?_map, getElem?_eq_getElem h1, getElem?_eq_getElem h2, Option.map_some, Option.some.injEq] at this
    exact this.symm
  · exact h i _ _ (getElem?_eq_getElem h1) (getElem?_eq_getElem h2)

theorem CompiledEdges.find {edges : List (Str × Node)} {rts : List (Str × RtNode)} (h : CompiledEdges edges rts) (s : Str) :
    List.Forall₂ Compiled (edges.lookup s).toList ((rts.find? fun e => e.1 == s).map Prod.snd).toList := by
  induction h with
  | nil => exact .nil
  | @cons e r edges rts hab hrest ih =>
    obtain ⟨k, child⟩ := e
    obtain ⟨k', child'⟩ := r
    obtain ⟨rfl, hchild⟩ := hab
    rw [lookup_cons, find?_cons, BEq.comm]
    cases hk : k == s with
    | true => exact .cons hchild .nil
    | false => exact ih

theorem CompiledEdges.filter (h : CompiledEdges edges rts)
    (p : κ → Bool) : CompiledEdges (edges.filter fun e => p e.1) (rts.filter fun e => p e.1) := by
  refine rel_filter ?_ h
  rintro e r ⟨hkey, -⟩
  simp only [hkey]

variable {rt : RtNode}

theorem Compiled.matching (hc : Compiled node rt) (h : node.Sorted) (s : Str) :
    List.Forall₂ (fun e r => Compiled e.2 r) (node.edges s) (rt.matching s) := by
  obtain ⟨ordered, hperm, hkeys, hlits, hakeys, haffix, hsome, hsingle, -, -⟩ := hc
  obtain ⟨hl, -, -, -, -⟩ := h
  refine rel_append (rel_append ?_ ?_) ?_
  · rw [SortedMap.lookup_perm hperm.symm hl.nodup, Option.toList_map, List.forall₂_map_left_iff]
    exact (compiledEdges_of hkeys hlits).find s
  · have := (compiledEdges_of hakeys haffix).filter (affix_matches s)
    refine rel_map ?_ this
    rintro e r ⟨-, hcompiled⟩
    exact hcompiled
  · split
    · cases hs : node.single <;> cases hr : rt.single <;> simp_all
    · exact .nil

theorem flatMap_eq {α β γ : Type} {r : α → β → Prop} {as : List α} {bs : List β} (h : List.Forall₂ r as bs)
    {f : α → List γ} {g : β → List γ} (hfg : ∀ a b, a ∈ as → r a b → f a = g b) : as.flatMap f = bs.flatMap g := by
  induction h with
  | nil => rfl
  | cons hab _ ih =>
    rw [flatMap_cons, flatMap_cons, hfg _ _ mem_cons_self hab, ih fun a b ha => hfg a b (mem_cons_of_mem _ ha)]

theorem groups_eq (hc : Compiled node rt) (h : node.Sorted) :
    groups segs rt = (candidates segs node).map Prod.snd := by
  induction segs generalizing node rt with
  | nil =>
    obtain ⟨-, -, -, -, -, -, -, -, hexact, hrest⟩ := hc
    simp [groups, candidates, hexact, hrest]
  | cons s segs ih =>
    have hmatch := hc.matching h s
    obtain ⟨-, -, -, -, -, -, -, -, -, hrest⟩ := hc
    rw [groups, candidates, map_append, map_flatMap, hrest]
    congr 1
    refine (flatMap_eq hmatch fun e r he hr => ?_).symm
    rw [ih hr (child_sorted h ((mem_edges h).mp he).2)]
    simp

theorem CompiledEdges.forall (h : CompiledEdges edges rts)
    {P : RtNode → Prop} (hP : ∀ e ∈ edges, ∀ r, Compiled e.2 r → P r) : ∀ r ∈ rts, P r.2 := by
  induction h with
  | nil => simp
  | @cons e r edges rts hab _ ih =>
    intro x hx
    rcases mem_cons.mp hx with rfl | hx
    · exact hP e mem_cons_self x.2 hab.2
    · exact ih (fun e he => hP e (mem_cons_of_mem _ he)) x hx

theorem Compiled.bounded {n : Nat} (hc : Compiled node rt) (h : node.Bounded n) :
    rt.Bounded n := by
  induction n generalizing node rt with
  | zero =>
    obtain ⟨hl, ha, hs⟩ := h
    obtain ⟨ordered, hperm, hkeys, -, hakeys, -, hsome, -, -, -⟩ := hc
    rw [hl, perm_nil] at hperm
    rw [hperm] at hkeys
    have hnil := affix_order_perm node
    rw [ha, perm_nil] at hnil
    rw [hnil] at hakeys
    rw [hs] at hsome
    exact ⟨map_eq_nil_iff.mp hkeys, map_eq_nil_iff.mp hakeys, Option.isNone_iff_eq_none.mp (by simpa using hsome)⟩
  | succ n ih =>
    obtain ⟨hl, ha, hs⟩ := h
    obtain ⟨ordered, hperm, hkeys, hlits, hakeys, haffix, hsome, hsingle, -, -⟩ := hc
    refine ⟨?_, ?_, ?_⟩
    · exact (compiledEdges_of hkeys hlits).forall fun e he r hr => ih hr (hl e (hperm.mem_iff.mp he))
    · exact (compiledEdges_of hakeys haffix).forall fun e he r hr => ih hr (ha e ((affix_order_perm node).mem_iff.mp he))
    · intro r hr
      rw [hr] at hsome
      obtain ⟨c, hc⟩ := Option.isSome_iff_exists.mp hsome.symm
      exact ih (hsingle c r hc hr) (hs c hc)

/-! ## The first candidate that answers -/

/-- What the walk gives: nothing, if no candidate answers; else the answer of the first one that does. -/
theorem answer_spec (w : Walk) (verbs : Bool) (segs : List Str) (hc : Compiled node rt)
    (h : node.Sorted) :
    match answer w verbs segs rt with
    | none => ∀ shape, Matches shape segs → w.dispatch verbs (leaves_at shape node) = none
    | some leaf => ∃ shape, Matches shape segs ∧ w.dispatch verbs (leaves_at shape node) = some leaf ∧
        ∀ other, Matches other segs → w.dispatch verbs (leaves_at other node) ≠ none → other = shape ∨ Precedes shape other := by
  have hmem : ∀ shape, Matches shape segs → w.dispatch verbs (leaves_at shape node) ≠ none →
      (shape, leaves_at shape node) ∈ candidates segs node := by
    intro shape hm hd
    refine candidates_complete h hm fun hnil => hd ?_
    rw [hnil]
    rfl
  unfold answer
  rw [groups_eq hc h, findSome?_map]
  split
  · rename_i hnone
    intro shape hm
    refine Classical.byContradiction fun hd => hd ?_
    exact findSome?_eq_none_iff.mp hnone _ (hmem shape hm hd)
  · rename_i leaf hsome
    obtain ⟨front, c, back, hsplit, hleaf, hfront⟩ := findSome?_eq_some_iff.mp hsome
    have hc : c ∈ candidates segs node := by rw [hsplit]; simp
    obtain ⟨hm, hleaves⟩ := candidates_sound h hc
    refine ⟨c.1, hm, by rw [← hleaves]; exact hleaf, fun other hother hd => ?_⟩
    have hpairs : (candidates segs node).Pairwise _ := candidates_sorted h
    rw [hsplit] at hpairs
    have hin := hmem other hother hd
    rw [hsplit] at hin
    rcases mem_append.mp hin with hin | hin
    · exact absurd (hfront _ hin) hd
    · rcases mem_cons.mp hin with heq | hin
      · exact .inl (congrArg Prod.fst heq)
      · exact .inr ((pairwise_cons.mp (pairwise_append.mp hpairs).2.1).1 _ hin)

end Routing
