import Oxidizer.Routing.Compile
import Oxidizer.Routing.Scan
/-!
# What the walk finds

The walk is a depth-first search with a stack of alternatives. A round at a
node either goes to the first child a segment leads to and leaves the other
ones, and the `**` routes of the node, on the stack, or it tries the leaves of
the node and goes back. So the leaves are tried in the order of `groups`, none
of them twice and none left out, and the walk ends.
-/

namespace Routing

open Lib Lib.Exec List

/-! ## The order of the search -/

/-- The children a segment leads to, in the order in which they are tried. -/
def RtNode.matching (rt : RtNode) (s : Str) : List RtNode :=
  ((rt.literals.find? fun e => e.1 == s).map Prod.snd).toList ++
    (rt.affix.filter fun e => affix_matches s e.1).map Prod.snd ++ (if !s.isEmpty then rt.single else none).toList

/-- The leaves tried for the segments that are left, in order. -/
def groups : List Str → RtNode → List (List Leaf)
  | [], rt => [rt.exact, rt.rest]
  | s :: ss, rt => (rt.matching s).flatMap (groups ss) ++ [rt.rest]

/-- Rounds spent on a node and on what is below it. -/
def cost : List Str → RtNode → Nat
  | [], _ => 1
  | s :: ss, rt => 1 + ((rt.matching s).map (cost ss)).sum

theorem cost_pos (segs : List Str) (rt : RtNode) : 0 < cost segs rt := by
  cases segs with
  | nil => exact Nat.one_pos
  | cons s ss =>
    unfold cost
    omega

/-- No path of edges is longer than `n`. -/
def RtNode.Bounded : Nat → RtNode → Prop
  | 0, rt => rt.literals = [] ∧ rt.affix = [] ∧ rt.single = none
  | n + 1, rt => (∀ e ∈ rt.literals, Bounded n e.2) ∧ (∀ e ∈ rt.affix, Bounded n e.2) ∧
      ∀ child, rt.single = some child → Bounded n child

theorem RtNode.matching_nil {rt : RtNode} (h : rt.Bounded 0) (s : Str) : rt.matching s = [] := by
  obtain ⟨hl, ha, hs⟩ := h
  simp [matching, hl, ha, hs]

theorem RtNode.Bounded.matching {n : Nat} {rt : RtNode} (h : rt.Bounded (n + 1)) {s : Str} :
    ∀ child ∈ rt.matching s, child.Bounded n := by
  obtain ⟨hl, ha, hs⟩ := h
  intro child hc
  rcases mem_append.mp hc with hc | hc
  · rcases mem_append.mp hc with hc | hc
    · obtain ⟨e, he, rfl⟩ := Option.map_eq_some_iff.mp (Option.mem_toList.mp hc)
      exact hl e (mem_of_find?_eq_some he)
    · obtain ⟨e, he, rfl⟩ := mem_map.mp hc
      exact ha e (mem_filter.mp he).1
  · have hc := Option.mem_toList.mp hc
    split at hc
    · exact hs child hc
    · cases hc

/-! ## A round -/

section
variable {α : Type} {m : α → Bool}

theorem push_reverse (f : α → WalkAction) (xs : List α) (pending : List WalkAction) :
    xs.reverse.foldl (fun pending x => if m x then f x :: pending else pending) pending = (xs.filter m).map f ++ pending := by
  rw [foldl_reverse]
  induction xs with
  | nil => rfl
  | cons x xs ih =>
    rw [foldr_cons, ih, filter_cons]
    split <;> rfl

theorem filter_of_find_none {xs : List α} {k : Nat} (h : (xs.zipIdx k).find? (fun x => m x.1) = none) :
    xs.filter m = [] := by
  rw [filter_eq_nil_iff]
  intro x hx
  obtain ⟨i, hi⟩ := mem_iff_getElem?.mp hx
  exact find?_eq_none.mp h (x, k + i) (mk_add_mem_zipIdx_iff_getElem?.mpr hi)

theorem filter_of_find {xs : List α} {k i : Nat} {x : α} (h : (xs.zipIdx k).find? (fun x => m x.1) = some (x, i)) :
    k ≤ i ∧ xs.filter m = (xs.drop (i - k)).filter m ∧ xs.filter m = x :: (xs.drop (1 + (i - k))).filter m := by
  induction xs generalizing k with
  | nil => cases h
  | cons y ys ih =>
    rw [zipIdx_cons, find?_cons] at h
    cases hy : m y with
    | true =>
      simp only [hy] at h
      cases h
      simp [hy]
    | false =>
      simp only [hy] at h
      obtain ⟨hle, h1, h2⟩ := ih h
      have hsub : i - k = (i - (k + 1)) + 1 := by omega
      refine ⟨by omega, ?_, ?_⟩
      · rw [hsub, filter_cons_of_neg (by simp [hy]), drop_succ_cons]
        exact h1
      · rw [hsub, filter_cons_of_neg (by simp [hy]), ← Nat.add_assoc, drop_succ_cons]
        exact h2

end

namespace Walk
variable {w : Walk} {verbs : Bool} {cur : Cursor} {s : Str}

theorem push_alternatives_literal (child : RtNode) (single : Option RtNode) :
    w.push_alternatives cur s single (some child) (cur.node.affix.zipIdx.find? fun e => affix_matches s e.1.1) =
      ((cur.node.affix.filter fun e => affix_matches s e.1).map Prod.snd ++ single.toList).map (.node · (cur.depth + 1)) ++
        w.push_rest cur cur.pending := by
  unfold push_alternatives
  simp only [push_reverse (m := fun e : (Str × Str) × RtNode => affix_matches s e.1) (fun e => .node e.2 (cur.depth + 1))]
  cases hf : cur.node.affix.zipIdx.find? fun e => affix_matches s e.1.1 with
  | none =>
    have hnil := filter_of_find_none (m := fun e : (Str × Str) × RtNode => affix_matches s e.1) hf
    cases single <;> simp [hnil]
  | some found =>
    obtain ⟨e, i⟩ := found
    obtain ⟨-, hskip, -⟩ := filter_of_find (m := fun e : (Str × Str) × RtNode => affix_matches s e.1) hf
    cases single <;> simp [hskip, Function.comp_def]

theorem push_alternatives_affix {e : (Str × Str) × RtNode} {i : Nat} (single : Option RtNode) :
    w.push_alternatives cur s single none (some (e, i)) =
      (((cur.node.affix.drop (1 + i)).filter fun e => affix_matches s e.1).map Prod.snd ++ single.toList).map
        (.node · (cur.depth + 1)) ++ w.push_rest cur cur.pending := by
  unfold push_alternatives
  simp only [push_reverse (m := fun e : (Str × Str) × RtNode => affix_matches s e.1) (fun e => .node e.2 (cur.depth + 1))]
  cases single <;> simp [Function.comp_def]

theorem push_alternatives_single (hnil : (cur.node.affix.filter fun e => affix_matches s e.1) = []) (child : RtNode) :
    w.push_alternatives cur s (some child) none none = w.push_rest cur cur.pending := by
  unfold push_alternatives
  simp only [push_reverse (m := fun e : (Str × Str) × RtNode => affix_matches s e.1)
    (fun e => .node e.2 (cur.depth + 1)), drop_zero, hnil]
  rfl

theorem descend_edges_eq {child : RtNode} {others : List RtNode} {single : Option RtNode}
    (hsingle : (if !s.isEmpty then cur.node.single else none) = single)
    (hm : ((cur.node.literals.find? fun e => e.1 == s).map Prod.snd).toList ++
      (cur.node.affix.filter fun e => affix_matches s e.1).map Prod.snd ++ single.toList = child :: others) :
    w.descend_edges cur s single = some (pure ⟨child, cur.depth + 1,
      others.map (.node · (cur.depth + 1)) ++ w.push_rest cur cur.pending⟩) := by
  unfold descend_edges
  simp only
  generalize (cur.node.literals.find? fun e => e.1 == s).map Prod.snd = literal at hm ⊢
  cases literal with
  | some c =>
    cases hm
    split
    · rename_i c' hc
      split at hc
      · -- the literal child is all there is
        rename_i halone
        simp only [Bool.and_eq_true, List.isEmpty_iff, Option.isNone_iff_eq_none] at halone
        obtain ⟨⟨ha, hs⟩, hr⟩ := halone
        cases hc
        rw [hs, ite_self] at hsingle
        subst hsingle
        simp [push_rest, ha, hr]
      · cases hc
    · rw [if_pos (by simp), push_alternatives_literal]
      rfl
  | none =>
    rw [ite_self]
    simp only
    cases hf : cur.node.affix.zipIdx.find? fun e => affix_matches s e.1.1 with
    | some found =>
      obtain ⟨e, i⟩ := found
      obtain ⟨-, -, hfirst⟩ := filter_of_find (m := fun e : (Str × Str) × RtNode => affix_matches s e.1) hf
      rw [Nat.sub_zero] at hfirst
      rw [hfirst] at hm
      cases hm
      rw [if_pos (by simp), push_alternatives_affix]
      rfl
    | none =>
      have hnil := filter_of_find_none (m := fun e : (Str × Str) × RtNode => affix_matches s e.1) hf
      rw [hnil] at hm
      cases single with
      | none => cases hm
      | some c =>
        cases hm
        rw [if_pos (by simp), push_alternatives_single hnil]
        rfl

/-- Where a segment leads to a child, the round goes to the first one and leaves the others on the stack. -/
theorem round_descends {child : RtNode} {others : List RtNode} (hseg : w.path.segment cur.depth = some s)
    (hm : cur.node.matching s = child :: others) :
    (w.round verbs cur).run () = (.ok (.inl ⟨child, cur.depth + 1,
      others.map (.node · (cur.depth + 1)) ++ w.push_rest cur cur.pending⟩), ()) := by
  unfold RtNode.matching at hm
  unfold round
  simp only [hseg, Option.any_some]
  generalize hsingle : (if !s.isEmpty then cur.node.single else none) = single at hm ⊢
  split
  · rename_i c hc
    -- the wildcard is all there is
    split at hc
    · rename_i hempty
      simp only [Bool.and_eq_true, List.isEmpty_iff] at hempty
      obtain ⟨⟨hl, ha⟩, hr⟩ := hempty
      rw [hl, ha, hc] at hm
      cases hm
      simp [push_rest, hr]
    · cases hc
  · rename_i hnot
    by_cases hedges : (!cur.node.literals.isEmpty || !cur.node.affix.isEmpty) = true
    · rw [Option.filter_some, if_pos hedges]
      simp only
      rw [descend_edges_eq hsingle hm]
      rfl
    · -- only the wildcard can be taken
      simp only [Bool.or_eq_true, Bool.not_eq_true', not_or, Bool.not_eq_false, List.isEmpty_iff] at hedges
      rw [hedges.1, hedges.2] at hm
      cases single with
      | none => cases hm
      | some c =>
        cases hm
        simp [Option.filter_some, hedges.1, hedges.2, descend_single]

theorem round_leaves (h : ∀ s, w.path.segment cur.depth = some s → cur.node.matching s = []) :
    (w.round verbs cur).run () = (.ok (w.descend_single verbs cur none), ()) := by
  unfold round
  cases hseg : w.path.segment cur.depth with
  | none => simp
  | some s =>
    have hm := h s hseg
    unfold RtNode.matching at hm
    simp only [append_eq_nil_iff, Option.toList_eq_nil_iff, Option.map_eq_none_iff, map_eq_nil_iff] at hm
    obtain ⟨⟨hl, ha⟩, hs⟩ := hm
    have hnone : (cur.node.affix.zipIdx.find? fun e => affix_matches s e.1.1) = none := by
      cases hf : cur.node.affix.zipIdx.find? fun e => affix_matches s e.1.1 with
      | none => rfl
      | some found =>
        obtain ⟨-, -, hfirst⟩ := filter_of_find (m := fun e : (Str × Str) × RtNode => affix_matches s e.1) hf
        rw [ha] at hfirst
        cases hfirst
    have hedges : w.descend_edges cur s none = none := by
      simp [descend_edges, hl, hnone]
    simp only [Option.any_some, hs, ite_self]
    rw [Option.filter_some]
    split
    · rename_i bytes hbytes
      split at hbytes
      · cases hbytes
        rw [hedges]
        rfl
      · cases hbytes
    · rfl

end Walk

/-! ## The whole walk -/

/-- The scan gives the walk the segments as deep as the trie goes. -/
structure Walk.Reads (w : Walk) (segs : List Str) (cap : Nat) : Prop where
  count_eq : w.path.count = segs.length
  segment_eq : ∀ i, w.path.segment i = if i < cap then segs[i]? else none

/-- A node at a depth the search can get to. -/
def Fits (segs : List Str) (cap : Nat) (rt : RtNode) (depth : Nat) : Prop :=
  depth ≤ segs.length ∧ rt.Bounded (cap - depth)

namespace WalkAction

def groups (segs : List Str) : WalkAction → List (List Leaf)
  | .node rt depth => Routing.groups (segs.drop depth) rt
  | .leaves group => [group]

def cost (segs : List Str) : WalkAction → Nat
  | .node rt depth => Routing.cost (segs.drop depth) rt
  | .leaves _ => 0

def Fits (segs : List Str) (cap : Nat) : WalkAction → Prop
  | .node rt depth => Routing.Fits segs cap rt depth
  | .leaves _ => True

end WalkAction

/-- What the leaves on a stack give, the top first. -/
def pending_answer (w : Walk) (verbs : Bool) (segs : List Str) (pending : List WalkAction) : Option Leaf :=
  (pending.flatMap (WalkAction.groups segs)).findSome? (w.dispatch verbs)

def pending_cost (segs : List Str) (pending : List WalkAction) : Nat := (pending.map (WalkAction.cost segs)).sum

/-- What the leaves below a node give. -/
def answer (w : Walk) (verbs : Bool) (segs : List Str) (rt : RtNode) : Option Leaf :=
  (groups segs rt).findSome? (w.dispatch verbs)

namespace Cursor

def answer (w : Walk) (verbs : Bool) (segs : List Str) (cur : Cursor) : Option Leaf :=
  (Routing.answer w verbs (segs.drop cur.depth) cur.node).or (pending_answer w verbs segs cur.pending)

def cost (segs : List Str) (cur : Cursor) : Nat := Routing.cost (segs.drop cur.depth) cur.node + pending_cost segs cur.pending

structure Fits (segs : List Str) (cap : Nat) (cur : Cursor) : Prop where
  here : Routing.Fits segs cap cur.node cur.depth
  pending : ∀ a ∈ cur.pending, a.Fits segs cap

end Cursor

section
variable {w : Walk} {verbs : Bool} {segs : List Str} {cap : Nat}

theorem pending_answer_append (p q : List WalkAction) :
    pending_answer w verbs segs (p ++ q) = (pending_answer w verbs segs p).or (pending_answer w verbs segs q) := by
  unfold pending_answer
  rw [flatMap_append, findSome?_append]

theorem pending_answer_nodes (depth : Nat) (nodes : List RtNode) :
    pending_answer w verbs segs (nodes.map (.node · depth)) =
      (nodes.flatMap (groups (segs.drop depth))).findSome? (w.dispatch verbs) := by
  unfold pending_answer
  rw [flatMap_map]
  rfl

variable {cur : Cursor}

theorem pending_answer_rest (hcount : w.path.count ≥ cur.depth) (pending : List WalkAction) :
    pending_answer w verbs segs (w.push_rest cur pending) =
      (w.dispatch verbs cur.node.rest).or (pending_answer w verbs segs pending) := by
  unfold Walk.push_rest
  split
  · rw [← singleton_append, pending_answer_append]
    simp [pending_answer, WalkAction.groups]
  · rename_i hempty
    simp only [hcount, decide_true, Bool.true_and, Bool.not_eq_true', Bool.not_eq_false, List.isEmpty_iff] at hempty
    rw [hempty]
    rfl

theorem pending_cost_append (p q : List WalkAction) :
    pending_cost segs (p ++ q) = pending_cost segs p + pending_cost segs q := by
  unfold pending_cost
  rw [map_append, sum_append]

theorem pending_cost_nodes (depth : Nat) (nodes : List RtNode) :
    pending_cost segs (nodes.map (.node · depth)) = (nodes.map (cost (segs.drop depth))).sum := by
  unfold pending_cost
  rw [map_map]
  exact congrArg sum (map_congr_left fun _ _ => rfl)

theorem pending_cost_rest (cur : Cursor) (pending : List WalkAction) :
    pending_cost segs (w.push_rest cur pending) = pending_cost segs pending := by
  unfold Walk.push_rest pending_cost
  split
  · simp [WalkAction.cost]
  · rfl

theorem pending_fits_rest {pending : List WalkAction} (h : ∀ a ∈ pending, a.Fits segs cap) :
    ∀ a ∈ w.push_rest cur pending, a.Fits segs cap := by
  unfold Walk.push_rest
  split
  · intro a ha
    rcases mem_cons.mp ha with rfl | ha
    · trivial
    · exact h a ha
  · exact h

/-- Going back tries the leaves on the stack down to the next node. -/
theorem backtrack_spec {pending : List WalkAction} (h : ∀ a ∈ pending, a.Fits segs cap) :
    (∃ cur, w.backtrack verbs pending = .inl cur ∧ cur.Fits segs cap ∧
      cur.answer w verbs segs = pending_answer w verbs segs pending ∧ cur.cost segs ≤ pending_cost segs pending) ∨
    w.backtrack verbs pending = .inr (pending_answer w verbs segs pending) := by
  induction pending with
  | nil => exact .inr rfl
  | cons a pending ih =>
    have hrest : ∀ b ∈ pending, b.Fits segs cap := fun b hb => h b (mem_cons_of_mem _ hb)
    cases a with
    | node rt depth =>
      refine .inl ⟨⟨rt, depth, pending⟩, rfl, ⟨h _ mem_cons_self, hrest⟩, ?_, Nat.le_refl _⟩
      rw [← singleton_append, pending_answer_append]
      simp [Cursor.answer, answer, pending_answer, WalkAction.groups]
    | leaves leaves =>
      have hanswer : pending_answer w verbs segs (.leaves leaves :: pending) =
          (w.dispatch verbs leaves).or (pending_answer w verbs segs pending) := by
        rw [← singleton_append, pending_answer_append]
        simp [pending_answer, WalkAction.groups]
      have hcost : pending_cost segs (.leaves leaves :: pending) = pending_cost segs pending := by
        simp [pending_cost, WalkAction.cost]
      rw [hanswer, hcost]
      unfold Walk.backtrack
      cases w.dispatch verbs leaves with
      | some leaf => exact .inr rfl
      | none => exact ih hrest

theorem answer_leaves (verbs : Bool) (hw : w.Reads segs cap) {rt : RtNode} {depth : Nat} (hdepth : depth ≤ segs.length)
    (hbounded : rt.Bounded (cap - depth)) (h : ∀ s, w.path.segment depth = some s → rt.matching s = []) :
    answer w verbs (segs.drop depth) rt =
      (if w.path.count = depth then w.dispatch verbs rt.exact else none).or
        (if w.path.count ≥ depth then w.dispatch verbs rt.rest else none) := by
  rw [hw.count_eq, if_pos hdepth]
  rcases Nat.lt_or_eq_of_le hdepth with hlt | rfl
  · -- a segment is left, but it leads nowhere: its edges are no match, or the trie ends here
    have hm : rt.matching segs[depth] = [] := by
      by_cases hcap : depth < cap
      · refine h _ ?_
        rw [hw.segment_eq, if_pos hcap]
        exact getElem?_eq_getElem hlt
      · rw [Nat.sub_eq_zero_of_le (Nat.not_lt.mp hcap)] at hbounded
        exact RtNode.matching_nil hbounded _
    rw [drop_eq_getElem_cons hlt, if_neg (Nat.ne_of_gt hlt)]
    simp [answer, groups, hm]
  · rw [drop_length, if_pos rfl]
    cases hexact : w.dispatch verbs rt.exact <;> cases hrest : w.dispatch verbs rt.rest <;>
      simp [answer, groups, hexact, hrest]

/-- A round goes on with the same answer and less to do, or it gives the answer. -/
theorem round_spec (verbs : Bool) (hw : w.Reads segs cap) (h : cur.Fits segs cap) :
    (∃ next, (w.round verbs cur).run () = (.ok (.inl next), ()) ∧ next.Fits segs cap ∧
      next.answer w verbs segs = cur.answer w verbs segs ∧ next.cost segs < cur.cost segs) ∨
    (w.round verbs cur).run () = (.ok (.inr (cur.answer w verbs segs)), ()) := by
  obtain ⟨⟨hdepth, hbounded⟩, hpending⟩ := h
  have hcount : w.path.count ≥ cur.depth := by rw [hw.count_eq]; exact hdepth
  by_cases hinto : ∃ s child others, w.path.segment cur.depth = some s ∧ cur.node.matching s = child :: others
  · obtain ⟨s, child, others, hseg, hm⟩ := hinto
    left
    have hsegs := hseg
    rw [hw.segment_eq] at hsegs
    split at hsegs
    · rename_i hcap
      have hdrop : segs.drop cur.depth = s :: segs.drop (cur.depth + 1) := by
        obtain ⟨hlt, rfl⟩ := List.getElem?_eq_some_iff.mp hsegs
        exact drop_eq_getElem_cons hlt
      have hlt : cur.depth + 1 ≤ segs.length := (List.getElem?_eq_some_iff.mp hsegs).1
      obtain ⟨n, hn⟩ : ∃ n, cap - cur.depth = n + 1 := ⟨cap - cur.depth - 1, by omega⟩
      have hchild : ∀ c ∈ cur.node.matching s, Fits segs cap c (cur.depth + 1) := by
        intro c hc
        rw [hn] at hbounded
        refine ⟨hlt, ?_⟩
        rw [Nat.sub_add_eq, hn]
        exact hbounded.matching c hc
      rw [hm] at hchild
      refine ⟨_, Walk.round_descends hseg hm, ⟨hchild child mem_cons_self, ?_⟩, ?_, ?_⟩
      · intro a ha
        rcases mem_append.mp ha with ha | ha
        · obtain ⟨c, hc, rfl⟩ := mem_map.mp ha
          exact hchild c (mem_cons_of_mem _ hc)
        · exact pending_fits_rest hpending a ha
      · simp only [Cursor.answer]
        rw [pending_answer_append, pending_answer_nodes, pending_answer_rest hcount, hdrop]
        simp only [answer, groups, hm, flatMap_cons, findSome?_append, Option.or_assoc]
        simp
      · simp only [Cursor.cost]
        rw [hdrop, cost, hm, pending_cost_append, pending_cost_nodes, pending_cost_rest, map_cons, sum_cons]
        omega
    · cases hsegs
  · have hleaves : ∀ s, w.path.segment cur.depth = some s → cur.node.matching s = [] := by
      intro s hs
      cases hm : cur.node.matching s with
      | nil => rfl
      | cons child others => exact absurd ⟨s, child, others, hs, hm⟩ hinto
    have hanswer := answer_leaves verbs hw hdepth hbounded hleaves
    rw [Walk.round_leaves hleaves]
    simp only [Cursor.answer, Walk.descend_single, hanswer]
    cases Option.or _ _ with
    | some leaf => exact .inr rfl
    | none =>
      rcases backtrack_spec hpending with ⟨next, hnext, hfits, hsame, hcost⟩ | hend
      · refine .inl ⟨next, ?_, hfits, ?_, ?_⟩
        · rw [hnext]
        · exact hsame
        · have := cost_pos (segs.drop cur.depth) cur.node
          unfold Cursor.cost at hcost ⊢
          omega
      · exact .inr (by rw [hend]; rfl)

/-- The walk ends without a panic, with the first leaf of the search order that answers the request. -/
theorem descend_iterative_eq (verbs : Bool) (hw : w.Reads segs cap) {rt : RtNode} (hrt : rt.Bounded cap) :
    ∀ fuel, cost segs rt < fuel →
      (w.descend_iterative fuel verbs rt 0).run () = (.ok (answer w verbs segs rt), ()) := by
  intro fuel hfuel
  have htotal := loop_total (w.round verbs) (fun cur _ => cur.cost segs)
    (fun cur _ => cur.Fits segs cap ∧ cur.answer w verbs segs = answer w verbs segs rt)
    (fun leaf _ => leaf = answer w verbs segs rt)
    (by
      rintro cur ⟨⟩ ⟨hfits, hsame⟩
      rcases round_spec verbs hw hfits with ⟨next, hrun, hfits', hsame', hlt⟩ | hrun
      · exact .inl ⟨next, (), hrun, ⟨hfits', hsame'.trans hsame⟩, hlt⟩
      · exact .inr ⟨_, (), hrun, hsame⟩)
  have hstart : Cursor.answer w verbs segs ⟨rt, 0, []⟩ = answer w verbs segs rt := by
    simp [Cursor.answer, pending_answer]
  obtain ⟨leaf, ⟨⟩, hrun, rfl⟩ := htotal fuel ⟨rt, 0, []⟩ () ⟨⟨⟨Nat.zero_le _, hrt⟩, by simp⟩, hstart⟩
    (by simpa [Cursor.cost, pending_cost] using hfuel)
  exact hrun

end

end Routing
