import Oxidizer.Routing.Trie
/-!
# Compiling the trie

`RtNode::compile` lays the trie out in a queue, level by level, orders the
literal edges, and builds the runtime nodes from the last to the first, each
from the children it finds built. The children of the node at place `i` stand
together behind it, so when its turn comes they have been built and nobody
else has taken them. What comes out has the edges of the trie: literal edges
in some order, affix edges in match order.
-/

namespace Routing

open Lib Lib.Exec List

/-- A runtime node has the leaves of a trie node and its edges, the literal
ones in the order `ordered`, and the same holds below each edge. -/
inductive Compiled : Node → RtNode → Prop where
  | mk {node : Node} {rt : RtNode} (ordered : List (Str × Node)) (hperm : ordered.Perm node.literals)
      (literal_keys : rt.literals.map Prod.fst = ordered.map Prod.fst)
      (literals : ∀ (i : Nat) e r, ordered[i]? = some e → rt.literals[i]? = some r → Compiled e.2 r.2)
      (affix_keys : rt.affix.map Prod.fst = (affix_edges_in_match_order node).map Prod.fst)
      (affix : ∀ (i : Nat) e r, (affix_edges_in_match_order node)[i]? = some e → rt.affix[i]? = some r → Compiled e.2 r.2)
      (single_isSome : rt.single.isSome = node.single.isSome)
      (single : ∀ c r, node.single = some c → rt.single = some r → Compiled c r)
      (exact_eq : rt.exact = node.exact) (rest_eq : rt.rest = node.rest) : Compiled node rt

/-! ## The queue -/

/-- The children of a node in the order in which they are queued. -/
def children (node : Node) : List Node :=
  node.literals.map Prod.snd ++ (affix_edges_in_match_order node).map Prod.snd ++ node.single.toList

/-- Edges whose children stand one after the other from place `n` on. -/
def number {κ : Type} (n : Nat) : List (κ × Node) → List (κ × Nat)
  | [] => []
  | (key, _) :: edges => (key, n) :: number (n + 1) edges

/-- The flat form of a node whose first child stands at `n`. -/
def flat_of (node : Node) (n : Nat) : FlatNode :=
  let order := affix_edges_in_match_order node
  ⟨number n node.literals, number (n + node.literals.length) order,
    node.single.map fun _ => n + node.literals.length + order.length, node.exact, node.rest⟩

/-- The flat forms of nodes that stand one after the other, the first child of the first at `n`. -/
def flats (n : Nat) : List Node → List FlatNode
  | [] => []
  | node :: nodes => flat_of node n :: flats (n + (children node).length) nodes

theorem push_literals_eq (edges : List (Str × Node)) (source : Source) :
    push_literals edges source = (number source.length edges, source ++ edges.map fun e => some e.2) := by
  induction edges generalizing source with
  | nil => simp [push_literals, number]
  | cons e edges ih =>
    simp [push_literals, number, ih]

theorem push_single_eq (single : Option Node) (source : Source) :
    push_single single source = (single.map fun _ => source.length, source ++ single.toList.map some) := by
  cases single <;> simp [push_single]

theorem push_affix_eq {order affix : List ((Str × Str) × Node)} (hperm : order.Perm affix)
    (hkeys : (order.map Prod.fst).Nodup) (source : Source) :
    (push_affix (order.map Prod.fst) affix source).run () =
      (.ok (number source.length order, source ++ order.map fun e => some e.2), ()) := by
  induction order generalizing affix source with
  | nil => simp [push_affix, number]
  | cons e order ih =>
    obtain ⟨key, child⟩ := e
    have hlookup : affix.lookup key = some child :=
      SortedMap.lookup_of_mem ((hperm.map Prod.fst).nodup_iff.mp hkeys) (hperm.mem_iff.mp mem_cons_self)
    have herase : order.Perm (affix.eraseP fun e => e.1 == key) := by
      have hapart : ((key, child) :: order).Pairwise fun a b => (a.1 == key) = true → (b.1 == key) = true → False :=
        (pairwise_map.mp hkeys).imp fun hne ha hb => hne ((beq_iff_eq.mp ha).trans (beq_iff_eq.mp hb).symm)
      have := hperm.eraseP _ hapart
      rw [eraseP_cons_of_pos (by simp)] at this
      exact this
    rw [map_cons, nodup_cons] at hkeys
    rw [map_cons]
    unfold push_affix
    rw [hlookup, expect_some, pure_then, bind_ok (ih herase hkeys.2 _)]
    simp [number]

theorem affix_order_perm (node : Node) : (affix_edges_in_match_order node).Perm node.affix :=
  perm_insertionSort _ _

variable {node : Node}

theorem affix_order_nodup (h : node.Sorted) : ((affix_edges_in_match_order node).map Prod.fst).Nodup := by
  obtain ⟨-, ha, -, -, -⟩ := h
  exact ((affix_order_perm node).map Prod.fst).nodup_iff.mpr ha.nodup

variable {q : Queue}

/-- A round of the first loop: the node at `index` is laid out, its children are queued. -/
theorem flatten_node_eq (hnode : q.source[q.index]? = some (some node)) (hs : node.Sorted) :
    (flatten_node q).run () = (.ok (.inl ⟨q.source.set q.index none ++ (children node).map some,
      q.flat ++ [flat_of node q.source.length], q.index + 1⟩), ()) := by
  have hlt : q.index < q.source.length := (List.getElem?_eq_some_iff.mp hnode).1
  unfold flatten_node
  rw [if_pos hlt, hnode]
  simp only [Option.join_some, expect_some, pure_then, push_literals_eq]
  rw [bind_ok (push_affix_eq (affix_order_perm node) (affix_order_nodup hs) _)]
  simp [push_single_eq, children, flat_of, map_append, Function.comp_def, Nat.add_assoc]

/-- Every node stands before its children: the node at `i`, with its first child at `n`, and those after it. -/
def Queued (i n : Nat) : List Node → Prop
  | [] => True
  | node :: nodes => i < n ∧ Queued (i + 1) (n + (children node).length) nodes

/-- `all` are the nodes queued so far: the root, and the children of those laid out. -/
structure Queue.Inv (root : Node) (q : Queue) (all : List Node) : Prop where
  index_le : q.index ≤ all.length
  source_eq : q.source = List.replicate q.index none ++ (all.drop q.index).map some
  all_eq : all = root :: (all.take q.index).flatMap children
  flat_eq : q.flat = flats 1 (all.take q.index)
  queued : Queued 0 1 (all.take q.index)
  sorted : ∀ node ∈ all, node.Sorted

theorem flats_append (n : Nat) (nodes : List Node) (node : Node) :
    flats n (nodes ++ [node]) = flats n nodes ++ [flat_of node (n + (nodes.flatMap children).length)] := by
  induction nodes generalizing n with
  | nil => simp [flats]
  | cons m nodes ih => simp [flats, ih, Nat.add_assoc]

variable {n : Nat}

theorem queued_append {i : Nat} {nodes : List Node} (h : Queued i n nodes)
    (hlt : i + nodes.length < n + (nodes.flatMap children).length) : Queued i n (nodes ++ [node]) := by
  induction nodes generalizing i n with
  | nil => exact ⟨by simpa using hlt, trivial⟩
  | cons m nodes ih =>
    refine ⟨h.1, ih h.2 ?_⟩
    simp only [length_cons, flatMap_cons, length_append] at hlt
    omega

theorem children_sorted (h : node.Sorted) : ∀ child ∈ children node, child.Sorted := by
  obtain ⟨-, -, hl, ha, hs⟩ := h
  intro child hc
  rcases mem_append.mp hc with hc | hc
  · rcases mem_append.mp hc with hc | hc
    · obtain ⟨e, he, rfl⟩ := mem_map.mp hc
      exact hl e he
    · obtain ⟨e, he, rfl⟩ := mem_map.mp hc
      exact ha e ((affix_order_perm node).mem_iff.mp he)
  · exact hs child (Option.mem_toList.mp hc)

variable {all : List Node}

variable {root : Node}

theorem Queue.Inv.step (h : q.Inv root all)
    (hnode : all[q.index]? = some node) :
    Queue.Inv root ⟨q.source.set q.index none ++ (children node).map some, q.flat ++ [flat_of node q.source.length],
      q.index + 1⟩ (all ++ children node) := by
  have hlt : q.index < all.length := (List.getElem?_eq_some_iff.mp hnode).1
  have htake : (all ++ children node).take (q.index + 1) = all.take q.index ++ [node] := by
    rw [take_append_of_le_length hlt, take_add_one, hnode]
    rfl
  have hlength : q.source.length = all.length := by
    rw [h.source_eq]
    simp only [length_append, length_replicate, length_map, length_drop]
    omega
  have hall : all.length = 1 + ((all.take q.index).flatMap children).length := by
    conv_lhs => rw [h.all_eq]
    rw [length_cons, Nat.add_comm]
  refine ⟨?_, ?_, ?_, ?_, ?_, ?_⟩
  · simp only [length_append]
    omega
  · have hdrop : all.drop q.index = node :: all.drop (q.index + 1) := by
      rw [drop_eq_getElem_cons hlt, (List.getElem?_eq_some_iff.mp hnode).2]
    simp only
    rw [h.source_eq, hdrop, map_cons, set_append_right _ _ (by simp), length_replicate, Nat.sub_self,
      set_cons_zero, drop_append_of_le_length hlt, map_append, replicate_succ', append_assoc, append_assoc]
    rfl
  · rw [htake, flatMap_append, ← cons_append, ← h.all_eq]
    simp
  · rw [htake, flats_append, h.flat_eq, hlength, ← hall]
  · rw [htake]
    refine queued_append h.queued ?_
    rw [length_take, Nat.min_eq_left h.index_le, ← hall, Nat.zero_add]
    exact hlt
  · intro m hm
    rcases mem_append.mp hm with hm | hm
    · exact h.sorted m hm
    · exact children_sorted (h.sorted node (mem_of_getElem? hnode)) m hm

variable {κ : Type}

theorem sum_sizeOf_edges [SizeOf κ] (edges : List (κ × Node)) :
    ((edges.map Prod.snd).map sizeOf).sum ≤ sizeOf edges := by
  induction edges with
  | nil => simp
  | cons e edges ih =>
    obtain ⟨k, c⟩ := e
    simp only [map_cons, sum_cons, List.cons.sizeOf_spec, Prod.mk.sizeOf_spec]
    omega

theorem sum_sizeOf_children (node : Node) : ((children node).map sizeOf).sum < sizeOf node := by
  have hl := sum_sizeOf_edges node.literals
  have ha := sum_sizeOf_edges node.affix
  have hperm : (((affix_edges_in_match_order node).map Prod.snd).map sizeOf).sum =
      ((node.affix.map Prod.snd).map sizeOf).sum := (((affix_order_perm node).map _).map _).sum_nat
  have hs : (node.single.toList.map sizeOf).sum ≤ sizeOf node.single := by
    cases node.single <;> simp
  unfold children
  rw [map_append, map_append, sum_append, sum_append, hperm]
  obtain ⟨literals, affix, single, exact, rest⟩ := node
  simp only [Node.mk.sizeOf_spec] at *
  omega

theorem Queue.Inv.source_drop (h : q.Inv root all) :
    q.source.drop q.index = (all.drop q.index).map some := by
  rw [h.source_eq, drop_append_of_le_length (by simp), drop_eq_nil_of_le (by simp), nil_append]

/-- With enough fuel the first loop lays out the whole trie. -/
theorem flatten_loop (hroot : root.Sorted) :
    ∃ all : List Node, all = root :: all.flatMap children ∧ Queued 0 1 all ∧
      ∀ fuel, sizeOf root < fuel → (loop fuel flatten_node ⟨[some root], [], 0⟩).run () = (.ok (flats 1 all), ()) := by
  -- each round takes a node off the queue and puts smaller ones on it
  have htotal := loop_total flatten_node (fun q _ => ((q.source.drop q.index).map fun n => n.elim 0 sizeOf).sum)
    (fun q _ => ∃ all, q.Inv root all)
    (fun flat _ => ∃ all, all = root :: all.flatMap children ∧ Queued 0 1 all ∧ flat = flats 1 all)
    (by
      rintro q s ⟨all, h⟩
      by_cases hlt : q.index < all.length
      · have hnode : all[q.index]? = some all[q.index] := getElem?_eq_getElem hlt
        have hdrop : q.source.drop q.index = some all[q.index] :: (all.drop (q.index + 1)).map some := by
          rw [h.source_drop, drop_eq_getElem_cons hlt, map_cons]
        have hsource : q.source[q.index]? = some (some all[q.index]) := by
          have := congrArg head? hdrop
          rwa [head?_drop] at this
        have hstep := h.step hnode
        refine .inl ⟨_, (), flatten_node_eq hsource (h.sorted _ (getElem_mem hlt)), ⟨_, hstep⟩, ?_⟩
        have hnext := hstep.source_drop
        rw [hnext, hdrop, drop_append_of_le_length hlt]
        simp only [map_append, sum_append, map_cons, sum_cons, map_map, Function.comp_def,
          Option.elim_some, Nat.succ_eq_add_one]
        have hsmaller : ((children all[q.index]).map fun x => sizeOf x).sum < sizeOf all[q.index] :=
          sum_sizeOf_children all[q.index]
        omega
      · have hindex : q.index = all.length := Nat.le_antisymm h.index_le (Nat.not_lt.mp hlt)
        have htake : all.take q.index = all := by rw [hindex, take_length]
        have hlen : ¬ q.index < q.source.length := by
          rw [h.source_eq, hindex]
          simp
        refine .inr ⟨q.flat, (), ?_, all, ?_, ?_, ?_⟩
        · unfold flatten_node
          rw [if_neg hlen]
          rfl
        · have := h.all_eq
          rwa [htake] at this
        · have := h.queued
          rwa [htake] at this
        · rw [h.flat_eq, htake])
  obtain ⟨flat, ⟨⟩, hrun, all, hall, hqueued, rfl⟩ := htotal (sizeOf root + 1) ⟨[some root], [], 0⟩ ()
    ⟨[root], ⟨Nat.zero_le _, rfl, rfl, rfl, trivial, by simpa using hroot⟩⟩ (by simp)
  exact ⟨all, hall, hqueued, fun fuel hfuel => loop_more fuel hfuel hrun⟩

/-! ## Building from the last node to the first -/

theorem take_edges_ok (get : Nat → RtNode) (edges : List (κ × Nat)) (built : Built)
    (hnodup : (edges.map Prod.snd).Nodup) (hbuilt : ∀ e ∈ edges, built[e.2]? = some (some (get e.2))) :
    ∃ built', (take_edges edges built).run () = (.ok (edges.map fun e => (e.1, get e.2), built'), ()) ∧
      built'.length = built.length ∧ ∀ j ∉ edges.map Prod.snd, built'[j]? = built[j]? := by
  induction edges generalizing built with
  | nil => exact ⟨built, rfl, rfl, fun j _ => rfl⟩
  | cons e edges ih =>
    rw [map_cons, nodup_cons] at hnodup
    have hrest : ∀ e' ∈ edges, (built.set e.2 none)[e'.2]? = some (some (get e'.2)) := by
      intro e' he'
      have hne : e.2 ≠ e'.2 := fun he => hnodup.1 (he ▸ mem_map_of_mem he')
      rw [getElem?_set_ne hne]
      exact hbuilt e' (mem_cons_of_mem _ he')
    obtain ⟨built', hrun, hlen, hkeep⟩ := ih _ hnodup.2 hrest
    refine ⟨built', ?_, by rw [hlen, length_set], fun j hj => ?_⟩
    · unfold take_edges
      rw [hbuilt e mem_cons_self, Option.join_some, expect_some, pure_then, bind_ok hrun]
      rfl
    · rw [map_cons, mem_cons, not_or] at hj
      rw [hkeep j hj.2, getElem?_set_ne (Ne.symm hj.1)]

theorem take_single_ok (get : Nat → RtNode) (single : Option Nat) (built : Built)
    (hbuilt : ∀ child, single = some child → built[child]? = some (some (get child))) :
    ∃ built', (take_single single built).run () = (.ok (single.map get, built'), ()) ∧
      built'.length = built.length ∧ ∀ j, single ≠ some j → built'[j]? = built[j]? := by
  cases single with
  | none => exact ⟨built, rfl, rfl, fun j _ => rfl⟩
  | some child =>
    refine ⟨built.set child none, ?_, length_set, fun j hj => ?_⟩
    · simp only [take_single]
      rw [hbuilt child rfl, Option.join_some, expect_some, pure_then]
      rfl
    · exact getElem?_set_ne fun he => hj (congrArg some he)

theorem number_snd (n : Nat) (edges : List (κ × Node)) :
    (number n edges).map Prod.snd = List.range' n edges.length := by
  induction edges generalizing n with
  | nil => rfl
  | cons e edges ih => simp [number, ih, range'_succ]

theorem number_map {edges : List (κ × Node)}
    (h : ∀ (k : Nat) e, edges[k]? = some e → all[n + k]? = some e.2) :
    (number n edges).map (fun e => (e.1, all.getD e.2 .default)) = edges := by
  induction edges generalizing n with
  | nil => rfl
  | cons e edges ih =>
    have h0 := h 0 e rfl
    rw [Nat.add_zero] at h0
    have hrest : ∀ (k : Nat) e', edges[k]? = some e' → all[n + 1 + k]? = some e'.2 := by
      intro k e' he'
      have := h (k + 1) e' he'
      rwa [Nat.add_comm k 1, ← Nat.add_assoc] at this
    simp only [number, map_cons, ih hrest]
    rw [getD_eq_getElem?_getD, h0]
    rfl

/-- The places of the children of a node whose first child stands at `n`. -/
structure Placed (all : List Node) (n : Nat) (node : Node) : Prop where
  literals : ∀ (k : Nat) e, node.literals[k]? = some e → all[n + k]? = some e.2
  affix : ∀ (k : Nat) e, (affix_edges_in_match_order node)[k]? = some e → all[n + node.literals.length + k]? = some e.2
  single : ∀ c, node.single = some c →
    all[n + node.literals.length + (affix_edges_in_match_order node).length]? = some c

theorem placed_of_drop {later : List Node}
    (h : all.drop n = children node ++ later) : Placed all n node := by
  have hget : ∀ k, all[n + k]? = (children node ++ later)[k]? := fun k => by rw [← h, getElem?_drop]
  unfold children at hget
  refine ⟨fun k e he => ?_, fun k e he => ?_, fun c hc => ?_⟩
  · have hk := (List.getElem?_eq_some_iff.mp he).1
    rw [hget, append_assoc, append_assoc, getElem?_append_left (by simpa using hk), getElem?_map, he]
    rfl
  · have hk := (List.getElem?_eq_some_iff.mp he).1
    rw [Nat.add_assoc, hget, append_assoc, append_assoc, getElem?_append_right (by simp),
      length_map, Nat.add_sub_cancel_left, getElem?_append_left (by simpa using hk), getElem?_map, he]
    rfl
  · rw [Nat.add_assoc, hget, append_assoc, append_assoc, getElem?_append_right (by simp),
      length_map, Nat.add_sub_cancel_left, getElem?_append_right (by simp), length_map, Nat.sub_self, hc]
    rfl

theorem children_length (node : Node) : (children node).length =
    node.literals.length + (affix_edges_in_match_order node).length + node.single.toList.length := by
  simp [children, Nat.add_assoc]

theorem compiled_at {get : Nat → RtNode} {edges : List (κ × Nat)}
    (h : ∀ e ∈ edges, Compiled (all.getD e.2 .default) (get e.2)) (i : Nat) (e : κ × Node) (r : κ × RtNode)
    (he : (edges.map fun e => (e.1, all.getD e.2 .default))[i]? = some e)
    (hr : (edges.map fun e => (e.1, get e.2))[i]? = some r) : Compiled e.2 r.2 := by
  rw [getElem?_map] at he hr
  obtain ⟨x, hx, rfl⟩ := Option.map_eq_some_iff.mp he
  obtain ⟨y, hy, rfl⟩ := Option.map_eq_some_iff.mp hr
  rw [hx] at hy
  cases hy
  exact h x (mem_of_getElem? hx)

/-- What the flat form of a node says, its literal edges in any order. -/
structure FlatForm (node : Node) (n : Nat) (f : FlatNode) : Prop where
  literals : f.literals.Perm (number n node.literals)
  affix : f.affix = number (n + node.literals.length) (affix_edges_in_match_order node)
  single : f.single = node.single.map fun _ => n + node.literals.length + (affix_edges_in_match_order node).length
  exact_eq : f.exact = node.exact
  rest_eq : f.rest = node.rest

namespace FlatForm
variable {node : Node} {n : Nat} {f : FlatNode}

variable (hf : FlatForm node n f)
include hf

theorem mem_literals (j : Nat) :
    j ∈ f.literals.map Prod.snd ↔ n ≤ j ∧ j < n + node.literals.length := by
  rw [(hf.literals.map Prod.snd).mem_iff, number_snd, mem_range'_1]

theorem mem_affix (j : Nat) : j ∈ f.affix.map Prod.snd ↔
    n + node.literals.length ≤ j ∧ j < n + node.literals.length + (affix_edges_in_match_order node).length := by
  rw [hf.affix, number_snd, mem_range'_1]

theorem eq_single {j : Nat} (hj : f.single = some j) :
    j = n + node.literals.length + (affix_edges_in_match_order node).length ∧ j < n + (children node).length := by
  rw [hf.single] at hj
  obtain ⟨c, hc, rfl⟩ := Option.map_eq_some_iff.mp hj
  refine ⟨rfl, ?_⟩
  rw [children_length, hc]
  simp only [Option.toList_some, length_singleton]
  omega

theorem compiled (hplaced : Placed all n node) {get : Nat → RtNode}
    (hget : ∀ j, n ≤ j → j < n + (children node).length → Compiled (all.getD j .default) (get j)) :
    Compiled node ⟨f.literals.map fun e => (e.1, get e.2), f.affix.map fun e => (e.1, get e.2), f.single.map get,
      f.exact, f.rest⟩ := by
  have hlen := children_length node
  have hread : f.affix.map (fun e => (e.1, all.getD e.2 .default)) = affix_edges_in_match_order node := by
    rw [hf.affix]
    exact number_map hplaced.affix
  refine .mk (f.literals.map fun e => (e.1, all.getD e.2 .default)) ?_ ?_ ?_ ?_ ?_ ?_ ?_ hf.exact_eq hf.rest_eq
  · have := hf.literals.map fun e => (e.1, all.getD e.2 .default)
    rwa [number_map hplaced.literals] at this
  · simp
  · refine compiled_at fun e he => ?_
    have := (hf.mem_literals e.2).mp (mem_map_of_mem he)
    exact hget e.2 this.1 (by omega)
  · rw [← hread]
    simp
  · rw [← hread]
    refine compiled_at fun e he => ?_
    have := (hf.mem_affix e.2).mp (mem_map_of_mem he)
    exact hget e.2 (by omega) (by omega)
  · simp [hf.single]
  · intro c r hc hr
    obtain ⟨j, hj, rfl⟩ := Option.map_eq_some_iff.mp hr
    obtain ⟨hj', hlt⟩ := hf.eq_single hj
    have hcompiled := hget j (by omega) hlt
    rw [getD_eq_getElem?_getD, hj', hplaced.single c hc, ← hj'] at hcompiled
    exact hcompiled

end FlatForm

theorem build_node_ok (get : Nat → RtNode) {built : Built} {i : Nat} {f : FlatNode}
    (hf : FlatForm node n f) (hplaced : Placed all n node) (hi : i < built.length)
    (hbuilt : ∀ j, n ≤ j → j < n + (children node).length →
      built[j]? = some (some (get j)) ∧ Compiled (all.getD j .default) (get j)) :
    ∃ built' rt, (build_node built f i).run () = (.ok built', ()) ∧ built'.length = built.length ∧
      built'[i]? = some (some rt) ∧ Compiled node rt ∧ ∀ j ≠ i, j < n → built'[j]? = built[j]? := by
  have hlen := children_length node
  obtain ⟨built1, hrun1, hlen1, hkeep1⟩ := take_edges_ok get f.literals built
    ((hf.literals.map Prod.snd).nodup_iff.mpr (by rw [number_snd]; exact nodup_range'))
    (fun e he => by
      have := (hf.mem_literals e.2).mp (mem_map_of_mem he)
      exact (hbuilt e.2 this.1 (by omega)).1)
  obtain ⟨built2, hrun2, hlen2, hkeep2⟩ := take_edges_ok get f.affix built1
    (by rw [hf.affix, number_snd]; exact nodup_range')
    (fun e he => by
      have := (hf.mem_affix e.2).mp (mem_map_of_mem he)
      rw [hkeep1 e.2 (by rw [hf.mem_literals]; omega)]
      exact (hbuilt e.2 (by omega) (by omega)).1)
  obtain ⟨built3, hrun3, hlen3, hkeep3⟩ := take_single_ok get f.single built2
    (fun j hj => by
      have := hf.eq_single hj
      rw [hkeep2 j (by rw [hf.mem_affix]; omega), hkeep1 j (by rw [hf.mem_literals]; omega)]
      exact (hbuilt j (by omega) this.2).1)
  let rt : RtNode := ⟨f.literals.map fun e => (e.1, get e.2), f.affix.map fun e => (e.1, get e.2), f.single.map get,
    f.exact, f.rest⟩
  refine ⟨built3.set i (some rt), rt, ?_, ?_, getElem?_set_self (by rw [hlen3, hlen2, hlen1]; exact hi),
    hf.compiled hplaced (fun j h1 h2 => (hbuilt j h1 h2).2), fun j hji hjn => ?_⟩
  · unfold build_node
    rw [bind_ok hrun1, bind_ok hrun2, bind_ok hrun3]
    rfl
  · rw [length_set, hlen3, hlen2, hlen1]
  · rw [getElem?_set_ne (Ne.symm hji), hkeep3 j (fun hj => by have := hf.eq_single hj; omega),
      hkeep2 j (by rw [hf.mem_affix]; omega), hkeep1 j (by rw [hf.mem_literals]; omega)]

theorem build_nodes_append (xs ys : List (FlatNode × Nat)) (built : Built) :
    build_nodes (xs ++ ys) built = build_nodes xs built >>= build_nodes ys := by
  induction xs generalizing built with
  | nil => rfl
  | cons x xs ih =>
    rw [cons_append]
    unfold build_nodes
    rw [then_assoc]
    exact congrArg _ (funext ih)

/-- The last loop, up to some place: the nodes from there on whose parents are still to come have been built. -/
theorem build_nodes_ok {h : FlatNode → FlatNode} (hh : ∀ node n, FlatForm node n (h (flat_of node n)))
    (nodes : List Node) (i n : Nat) (hi : all.drop i = nodes) (hn : all.drop n = nodes.flatMap children)
    (hq : Queued i n nodes) :
    ∃ built, (build_nodes (((flats n nodes).map h).zipIdx i).reverse (List.replicate all.length none)).run () =
        (.ok built, ()) ∧ built.length = all.length ∧
      ∀ j, i ≤ j → j < n → j < all.length → ∃ rt, built[j]? = some (some rt) ∧ Compiled (all.getD j .default) rt := by
  induction nodes generalizing i n with
  | nil =>
    have hlen : all.length ≤ i := drop_eq_nil_iff.mp hi
    exact ⟨_, rfl, length_replicate, fun j hj _ hlt => absurd hlt (by omega)⟩
  | cons node nodes ih =>
    have hlti : i < all.length := by
      refine Nat.lt_of_not_le fun hle => ?_
      rw [drop_eq_nil_of_le hle] at hi
      cases hi
    have hnode : all.getD i .default = node := by
      have := congrArg head? hi
      rw [head?_drop] at this
      rw [getD_eq_getElem?_getD, this]
      rfl
    have hnext : all.drop (i + 1) = nodes := by
      rw [← drop_drop, hi]
      rfl
    rw [flatMap_cons] at hn
    have hdeeper : all.drop (n + (children node).length) = nodes.flatMap children := by
      rw [← drop_drop, hn, drop_left]
    obtain ⟨built, hrun, hlen, hbuilt⟩ := ih (i + 1) (n + (children node).length) hnext hdeeper hq.2
    -- the children of the node have been built, so it is built from them
    have hplace := congrArg List.length hn
    simp only [length_drop, length_append] at hplace
    obtain ⟨built', rt, hrun', hlen', hget, hcompiled, hkeep⟩ :=
      build_node_ok (fun j => (built[j]?).join.getD ⟨[], [], none, [], []⟩) (i := i) (hh node n) (placed_of_drop hn)
        (by rw [hlen]; exact hlti) (fun j hnj hjn => by
          obtain ⟨rt, hrt, hc⟩ := hbuilt j (by have := hq.1; omega) hjn (by omega)
          rw [hrt]
          exact ⟨rfl, hc⟩)
    refine ⟨built', ?_, hlen'.trans hlen, fun j hij hjn hlt => ?_⟩
    · rw [flats, map_cons, zipIdx_cons, reverse_cons, build_nodes_append, bind_ok hrun]
      unfold build_nodes
      rw [bind_ok hrun']
      rfl
    · by_cases hj : j = i
      · rw [hj, hnode]
        exact ⟨rt, hget, hcompiled⟩
      · rw [hkeep j hj hjn]
        exact hbuilt j (by omega) (by omega) hlt

theorem flatForm_ordered (weights : List Nat) (node : Node) (n : Nat) :
    FlatForm node n { flat_of node n with
      literals := (flat_of node n).literals.insertionSort fun a b => weights.getD b.2 0 ≤ weights.getD a.2 0 } :=
  ⟨perm_insertionSort _ _, rfl, rfl, rfl, rfl⟩

@[simp] theorem flats_length (n : Nat) (nodes : List Node) : (flats n nodes).length = nodes.length := by
  induction nodes generalizing n with
  | nil => rfl
  | cons node nodes ih => simp [flats, ih]

/-- Compiling returns, and gives a runtime trie with the edges and leaves of the trie. -/
theorem compile_ok (hroot : root.Sorted) : ∃ rt, Compiled root rt ∧
    ∀ fuel, sizeOf root < fuel → (RtNode.compile fuel root).run () = (.ok rt, ()) := by
  obtain ⟨all, hall, hqueued, hloop⟩ := flatten_loop hroot
  have hpos : 0 < all.length := by rw [hall]; exact Nat.succ_pos _
  have htail : all.drop 1 = all.flatMap children := by
    have := congrArg (List.drop 1) hall
    exact this
  let weights := node_weights (flats 1 all)
  obtain ⟨built, hrun, -, hbuilt⟩ := build_nodes_ok
    (h := fun f => { f with literals := f.literals.insertionSort fun a b => weights.getD b.2 0 ≤ weights.getD a.2 0 })
    (flatForm_ordered weights) all 0 1 rfl htail hqueued
  obtain ⟨rt, hrt, hcompiled⟩ := hbuilt 0 (Nat.le_refl 0) Nat.one_pos hpos
  have hhead : all.getD 0 .default = root := by rw [hall]; rfl
  rw [hhead] at hcompiled
  refine ⟨rt, hcompiled, fun fuel hfuel => ?_⟩
  unfold RtNode.compile
  rw [bind_ok (hloop fuel hfuel)]
  simp only [order_literals_by_weight, length_map, flats_length]
  rw [bind_ok hrun, hrt]
  rfl

end Routing
