import Oxidizer.Routing.Sample
/-!
# Conflicting routes

`conflicts` goes through the trie and reports, at every node, the method and
verb that several leaves share. So it reports nothing exactly if no two routes
have the same atoms, method and verb. Of two such routes the later one is
never the answer to a request, so a reported set has a route that no request
reaches. The converse fails only by verbs: the verb is split off every path as
soon as one route has a verb, and a literal of a sub-template may have a colon
of its own.
-/

namespace Routing

open Lib Lib.Exec List SortedMap

/-! ## The code -/

instance : Ord (String × Option Str) := lexOrd

/-- What `check_bucket` groups the leaves by. -/
def Leaf.key (leaf : Leaf) : String × Option Str := (leaf.method, leaf.verb)

/-- The names of the leaves of a bucket, by method and verb. -/
def bucket_groups (leaves : List Leaf) : List ((String × Option Str) × List String) :=
  leaves.foldl (fun groups leaf => SortedMap.upsert [] leaf.key (fun names => names ++ [leaf.name]) groups) []

def conflict_message (path : Str) (is_rest : Bool) (key : String × Option Str) (names : List String) : Str :=
  let path := if is_rest then path ++ utf8 "/**" else path
  let path := if path.isEmpty then [SLASH] else path
  let verb := (key.2.map fun verb => COLON :: verb).getD []
  utf8 "conflicting routes: `" ++ utf8 key.1 ++ utf8 " " ++ path ++ verb ++ utf8 "` maps to multiple names (" ++
    utf8 (", ".intercalate names) ++ utf8 "); each HTTP method and path may resolve to only one route"

/-- What `check_bucket` adds to the list. -/
def check_bucket (leaves : List Leaf) (path : Str) (is_rest : Bool) : List Str :=
  ((bucket_groups leaves).filter fun group => 1 < group.2.length).map fun group =>
    conflict_message path is_rest group.1 group.2

inductive ConflictAction where
  | visit (node : Node) (component : Str)
  | truncate (len : Nat)

/-- The children of a node with their path components. They are pushed in reverse, so this is the order of the visits. -/
def Node.components (node : Node) : List (Node × Str) :=
  node.literals.map (fun edge => (edge.2, SLASH :: edge.1)) ++
    node.affix.map (fun edge => (edge.2, SLASH :: (edge.1.1 ++ utf8 "\x7b\x7d" ++ edge.1.2))) ++
    (node.single.map fun child => (child, utf8 "/*")).toList

/-- The locals of the loop; `path` is the `prefix` of the source. -/
structure Check where
  pending : List ConflictAction
  path : Str
  conflicts : List Str

/-- One round of `conflicts`. -/
def check_round (c : Check) : Exec Unit Site (Check ⊕ List Str) :=
  match c.pending with
  | [] => pure (.inr c.conflicts)
  | .visit node component :: pending =>
    let path := c.path ++ component
    pure (.inl {
      pending := node.components.map (fun e => .visit e.1 e.2) ++ .truncate c.path.length :: pending
      path
      conflicts := c.conflicts ++ check_bucket node.exact path false ++ check_bucket node.rest path true })
  | .truncate len :: pending => pure (.inl ⟨pending, c.path.take len, c.conflicts⟩)

def conflicts (fuel : Nat) (root : Node) : Exec Unit Site (List Str) :=
  loop fuel check_round ⟨[.visit root []], [], []⟩

/-! ## One bucket -/

instance : Std.TransOrd (String × Option Str) :=
  inferInstanceAs (Std.TransCmp (compareLex (compareOn fun x : String × Option Str => x.1) (compareOn fun x => x.2)))

instance : Std.LawfulEqOrd (String × Option Str) where
  eq_of_compare {a b} h := by
    have h' : (compare a.1 b.1).then (compare a.2 b.2) = .eq := h
    rw [Ordering.then_eq_eq] at h'
    exact Prod.ext (Std.LawfulEqOrd.eq_of_compare h'.1) (Std.LawfulEqOrd.eq_of_compare h'.2)

/-- What the groups hold once the leaves of `done` are in. -/
structure Bucketed (done : List Leaf) (groups : List ((String × Option Str) × List String)) : Prop where
  sorted : SortedMap.Sorted groups
  names : ∀ key, (groups.lookup key).getD [] = (done.filter fun leaf => leaf.key = key).map Leaf.name

theorem Bucketed.push {done : List Leaf} {groups : List ((String × Option Str) × List String)} (h : Bucketed done groups)
    (leaf : Leaf) :
    Bucketed (done ++ [leaf]) (SortedMap.upsert [] leaf.key (fun names => names ++ [leaf.name]) groups) := by
  refine ⟨sorted_upsert h.sorted, fun key => ?_⟩
  rw [filter_append, map_append, ← h.names]
  by_cases hk : key = leaf.key
  · subst hk
    rw [lookup_upsert_self h.sorted]
    simp
  · rw [lookup_upsert_ne hk]
    simp [Ne.symm hk]

/-- What is reported from a node on, down to a depth. -/
def reports : Nat → Node → Str → List Str
  | n, node, path => check_bucket node.exact path false ++ check_bucket node.rest path true ++
      match n with
      | 0 => []
      | n + 1 => node.components.flatMap fun e => reports n e.1 (path ++ e.2)

/-- How many rounds the visit of a node takes. -/
def rounds : Nat → Node → Nat
  | 0, _ => 2
  | n + 1, node => 2 + (node.components.map fun e => rounds n e.1).sum

variable {node : Node}

variable {n : Nat}

theorem Node.Bounded.component (h : node.Bounded (n + 1)) : ∀ e ∈ node.components, e.1.Bounded n := by
  obtain ⟨hl, ha, hs⟩ := h
  intro e he
  simp only [Node.components, mem_append, mem_map, Option.mem_toList, Option.map_eq_some_iff] at he
  rcases he with (⟨edge, hedge, rfl⟩ | ⟨edge, hedge, rfl⟩) | ⟨child, hchild, rfl⟩
  · exact hl edge hedge
  · exact ha edge hedge
  · exact hs child hchild

/-- Under no sequence of atoms two leaves share their method and verb. -/
def Node.Clear (node : Node) : Prop := ∀ shape, RestLast shape → ((leaves_at shape node).map Leaf.key).Nodup

/-- The routes differ in their atoms, their method or their verb. -/
def Distinct (routes : List Route) : Prop :=
  routes.Pairwise fun a b => ¬ (a.atoms = b.atoms ∧ a.method = b.method ∧ a.template.verb = b.template.verb)

section
variable {T : Type} {entries : List (Route × T)} {trie : Trie} {rt : RtNode}

end

/-- What a match shows: all but the number of its route. -/
def RawMatch.shown {T : Type} (m : RawMatch T) : String × T × List (Str × Str) := (m.leaf.name, m.value, m.captures)

/-- Both resolvers answer every valid path, with matches that show the same. -/
def RawResolver.Alike {T : Type} (r r' : RawResolver T) : Prop :=
  ∀ method path : String, (utf8 path).all allowed = true → ∃ answer answer' k,
    (∀ fuel, k ≤ fuel → (r.resolve fuel method (utf8 path)).run () = (.ok answer, ()) ∧
      (r'.resolve fuel method (utf8 path)).run () = (.ok answer', ())) ∧
    answer.map RawMatch.shown = answer'.map RawMatch.shown

section
variable {T : Type} {entries others : List (Route × T)} (hperm : entries ~ others) {method : String} {path : Str}
include hperm

theorem split_perm : split (entries.map Prod.fst) path = split (others.map Prod.fst) path := by
  unfold split
  rw [(hperm.map Prod.fst).any_eq]

theorem Candidate.of_perm {i : Nat} {route : Route} (h : Candidate (entries.map Prod.fst) method path i route) :
    ∃ j, Candidate (others.map Prod.fst) method path j route := by
  obtain ⟨j, hj⟩ := mem_iff_getElem?.mp ((hperm.map Prod.fst).subset (mem_of_getElem? h.declared))
  exact ⟨j, hj, h.method_eq, split_perm hperm ▸ h.verb_eq, split_perm hperm ▸ h.hits⟩

theorem answers_of_perm (hdistinct : Distinct (entries.map Prod.fst)) {answer answer' : Option (RawMatch T)}
    (h : Answers entries method path answer) (h' : Answers others method path answer') :
    answer.map RawMatch.shown = answer'.map RawMatch.shown := by
  cases answer with
  | none =>
    cases answer' with
    | none => rfl
    | some m' =>
      obtain ⟨j, entry', -, hsel', -⟩ := h'
      obtain ⟨i, hcand⟩ := hsel'.candidate.of_perm hperm.symm
      exact absurd hcand (h i _)
  | some m =>
    obtain ⟨i, entry, hentry, hsel, hof⟩ := h
    obtain ⟨j, hcand⟩ := hsel.candidate.of_perm hperm
    cases answer' with
    | none => exact absurd hcand (h' j _)
    | some m' =>
      obtain ⟨i', entry', hentry', hsel', hof'⟩ := h'
      obtain ⟨j', hcand'⟩ := hsel'.candidate.of_perm hperm.symm
      -- neither of the two comes before the other
      have hatoms : entry.1.atoms = entry'.1.atoms := by
        have hfirst := hsel.first j' _ hcand'
        have hfirst' := hsel'.first j _ hcand
        grind [Precedes.asymm]
      have hsame : entry = entry' := by
        by_contra hne
        refine @Pairwise.forall _ _ _ ⟨?_⟩ (pairwise_map.mp hdistinct) _ (mem_of_getElem? hentry) _
          (hperm.symm.subset (mem_of_getElem? hentry')) hne ⟨hatoms, ?_, ?_⟩
        · exact fun _ _ h heq => h ⟨heq.1.symm, heq.2.1.symm, heq.2.2.symm⟩
        · exact hsel.candidate.method_eq.trans hcand'.method_eq.symm
        · exact hsel.candidate.verb_eq.trans hcand'.verb_eq.symm
      subst hsame
      simp [RawMatch.shown, hof.leaf_eq, hof'.leaf_eq, hof.value_eq, hof'.value_eq, hof.captures_eq, hof'.captures_eq,
        split_perm hperm, Route.leaf]

/-- The order in which routes are declared does not matter if no two of them are in conflict. -/
theorem resolve_any_order (hdistinct : Distinct (entries.map Prod.fst)) :
    ∃ (r r' : RawResolver T) (n : Nat), r.Alike r' ∧
      ∀ fuel, n ≤ fuel → (RawResolver.with_values fuel entries).run () = (.ok r, ()) ∧
        (RawResolver.with_values fuel others).run () = (.ok r', ()) := by
  obtain ⟨rt, hcompiled, hbuilt⟩ := with_values_ok entries
  obtain ⟨rt', hcompiled', hbuilt'⟩ := with_values_ok others
  refine ⟨_, _, _, fun method path hallowed => ?_, fun fuel hfuel =>
    ⟨hbuilt fuel (Nat.le_trans (Nat.le_max_left _ _) hfuel), hbuilt' fuel (Nat.le_trans (Nat.le_max_right _ _) hfuel)⟩⟩
  have hbody := fun routes => all_of_start hallowed (split_start routes _)
  obtain ⟨answer, k, hanswers, hrun⟩ := resolve_answers (build_trie_holds _) hcompiled method path (hbody _)
  obtain ⟨answer', k', hanswers', hrun'⟩ := resolve_answers (build_trie_holds _) hcompiled' method path (hbody _)
  exact ⟨answer, answer', max k k', fun fuel hfuel => ⟨hrun fuel (Nat.le_trans (Nat.le_max_left _ _) hfuel),
    hrun' fuel (Nat.le_trans (Nat.le_max_right _ _) hfuel)⟩, answers_of_perm hperm hdistinct hanswers hanswers'⟩

end

theorem resolve_any_order_swapped :
    ∃ (r r' : RawResolver Nat) (n : Nat), r.Alike r' ∧
      ∀ fuel, n ≤ fuel → (RawResolver.with_values fuel [(user_by_id, 0), (user_me, 1)]).run () = (.ok r, ()) ∧
        (RawResolver.with_values fuel [(user_me, 1), (user_by_id, 0)]).run () = (.ok r', ()) :=
  resolve_any_order (.swap _ _ _) (pairwise_pair.mpr fun h => absurd h.1 (by decide))

end Routing
