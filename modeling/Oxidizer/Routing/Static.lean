import Oxidizer.Routing.Resolve
/-!
# The static backend resolves like the dynamic one

The static backend lowers the trie to nested matches. `run_node` is the code
that `emit_node` emits for a node, run on a scanned path: it returns a match,
or falls through to what is emitted after it. Both backends try the leaves of
the candidates in the same order, so they agree on every request.

A variant of the generated enum is known by its route name, and its fields by
their names. `is_valid_variant` asks the tables of a third party for the
characters of an identifier; it is a parameter here.
-/

namespace Routing

open Lib Lib.Exec List RawResolver

/-! ## The generated code -/

/-- What the generated code expects of itself. -/
inductive StaticSite where
  /-- "guarded by the segment count check" -/
  | segment_guard
  /-- "each group has at least one leaf" -/
  | group_leaf
  /-- "route capture references scanned segment indices" -/
  | capture_plan
  /-- "route rest starts at or before the segment count" -/
  | rest_plan
  /-- "matched affix literals delimit a valid capture" -/
  | affix_plan
  /-- `debug_assert!(path.is_valid())` -/
  | scanned_again
deriving DecidableEq

/-- `InvalidPath`: the path has a query or a fragment. -/
inductive InvalidPath where
  | mk
deriving DecidableEq

def UNDERSCORE : UInt8 := 95

section
variable (is_valid_variant : Str → Bool)

/-- `field_name`: characters are their first bytes, the other ones are dropped. -/
def field_name (joined : Str) : Str :=
  if is_valid_variant joined then joined
  else
    let chars := joined.filter fun b => b < 128 || 192 ≤ b
    [UNDERSCORE, 102, UNDERSCORE] ++ chars.map fun b => if b = UNDERSCORE || is_ascii_alphanumeric b then b else UNDERSCORE

def route_field_name (name : Str) : Str := field_name is_valid_variant (name.map fun b => if b = DOT then UNDERSCORE else b)

/-- The field that the variable of a plan fills in. -/
def VarPlan.field (plan : VarPlan) : Str := route_field_name is_valid_variant plan.key

/-- A value of the generated enum, with the leaf whose code has returned it. -/
structure StaticMatch where
  leaf : Leaf
  fields : List (Str × Str)
deriving DecidableEq

def var_slice (plan : VarPlan) (path : ScannedPath) : Exec Unit StaticSite Str :=
  match plan with
  | .span _ a b => expect .capture_plan (path.capture a b)
  | .rest _ a => expect .rest_plan (path.rest a)
  | .affix _ a prefix_len suffix_len => expect .affix_plan (path.affix a prefix_len suffix_len)

def run_return (path : ScannedPath) (leaf : Leaf) : Exec Unit StaticSite (Option StaticMatch) := do
  let fields ← leaf.vars.mapM fun plan => do
    let value ← var_slice plan path
    pure (plan.field is_valid_variant, value)
  pure (some ⟨leaf, fields⟩)

/-- A round of the grouping of `emit_leaves`. -/
def group_leaf (leaf : Leaf) : List (String × List Leaf) → List (String × List Leaf)
  | [] => [(leaf.method, [leaf])]
  | (method, entries) :: groups =>
    if method == leaf.method then
      (method, if entries.any fun existing => existing.verb == leaf.verb then entries else entries ++ [leaf]) :: groups
    else (method, entries) :: group_leaf leaf groups

def run_leaves (w : Walk) (any_verb : Bool) (leaves : List Leaf) : Exec Unit StaticSite (Option StaticMatch) :=
  match (leaves.foldl (fun groups leaf => group_leaf leaf groups) []).lookup w.method with
  | none => pure none
  | some entries =>
    if any_verb then
      match entries.find? fun leaf => leaf.verb == w.verb with
      | some leaf => run_return is_valid_variant w.path leaf
      | none => pure none
    else do
      let leaf ← expect .group_leaf entries.head?
      run_return is_valid_variant w.path leaf

/-- Code after which comes other code: it returns, or falls through. -/
def fall_through {α : Type} (first second : Exec Unit StaticSite (Option α)) : Exec Unit StaticSite (Option α) := do
  match ← first with
  | some a => pure (some a)
  | none => second

/-- The condition on an affix edge, where empty literals are not checked. -/
def affix_check (seg : Str) (key : Str × Str) : Bool :=
  seg.length > key.1.length + key.2.length && (key.1.isEmpty || key.1.isPrefixOf seg) &&
    (key.2.isEmpty || key.2.isSuffixOf seg)

variable {node child : Node}

theorem sizeOf_child (h : child ∈ children node) : sizeOf child < sizeOf node :=
  Nat.lt_of_le_of_lt (single_le_sum (fun _ _ => Nat.zero_le _) _ (mem_map_of_mem h)) (sum_sizeOf_children node)

theorem children_literal {seg : Str} (h : node.literals.lookup seg = some child) :
    child ∈ children node := by
  unfold children
  simp only [mem_append, mem_map]
  exact .inl (.inl ⟨_, SortedMap.mem_of_lookup h, rfl⟩)

theorem children_affix {edge : (Str × Str) × Node} (h : edge ∈ affix_edges_in_match_order node) :
    edge.2 ∈ children node := by
  unfold children
  simp only [mem_append, mem_map]
  exact .inl (.inr ⟨_, h, rfl⟩)

theorem children_single (h : node.single = some child) : child ∈ children node := by
  unfold children
  rw [h]
  simp

/-- The match on literals and the affix conditions of `emit_node`, with the code of the children. -/
def run_edges (w : Walk) (node : Node) (depth : Nat)
    (child_code : (child : Node) → child ∈ children node → Exec Unit StaticSite (Option StaticMatch)) :
    Exec Unit StaticSite (Option StaticMatch) :=
  if node.literals.isEmpty && node.affix.isEmpty then pure none
  else do
    let seg ← expect .segment_guard (w.path.segment depth)
    fall_through
      (match h : node.literals.lookup seg with
        | some child => child_code child (children_literal h)
        | none => pure none)
      (((affix_edges_in_match_order node).attach.map fun edge =>
        if affix_check seg edge.1.1 then child_code edge.1.2 (children_affix edge.2) else pure none).foldr fall_through
        (pure none))

/-- `emit_single`, with the code of the child. -/
def run_single (w : Walk) (node : Node) (depth : Nat)
    (child_code : (child : Node) → child ∈ children node → Exec Unit StaticSite (Option StaticMatch)) :
    Exec Unit StaticSite (Option StaticMatch) :=
  match h : node.single with
  | some child => do
    let seg ← expect .segment_guard (w.path.segment depth)
    if !seg.isEmpty then child_code child (children_single h) else pure none
  | none => pure none

/-- `emit_node`: the segment branch, the end branch and the rest branch. -/
def run_node (w : Walk) (any_verb : Bool) (node : Node) (depth : Nat) : Exec Unit StaticSite (Option StaticMatch) :=
  fall_through
    (if w.path.count > depth then
      fall_through (run_edges w node depth fun child _ => run_node w any_verb child (depth + 1))
        (run_single w node depth fun child _ => run_node w any_verb child (depth + 1))
    else pure none)
    (fall_through (if w.path.count = depth then run_leaves is_valid_variant w any_verb node.exact else pure none)
      (if w.path.count ≥ depth then run_leaves is_valid_variant w any_verb node.rest else pure none))
termination_by sizeOf node
decreasing_by all_goals exact sizeOf_child ‹_›

def with_scanned_path {α : Type} (body : Str) (max_segments : Nat) (resolve : ScannedPath → Exec Unit StaticSite α) :
    Exec Unit StaticSite (Except InvalidPath α) := do
  let path := RawResolver.scan body (min max_segments INLINE_SEGMENTS)
  if !path.valid then pure (.error .mk)
  else if max_segments ≤ INLINE_SEGMENTS ∨ path.count ≤ INLINE_SEGMENTS then do
    let a ← resolve path
    pure (.ok a)
  else do
    let path := RawResolver.scan body (min path.count max_segments)
    assert path.valid .scanned_again
    let a ← resolve path
    pure (.ok a)

/-- `__resolve_checked` of the enum that `generate` emits for the routes. -/
def static_resolve_checked (routes : List Route) (method : String) (path : Str) :
    Exec Unit StaticSite (Except InvalidPath (Option StaticMatch)) :=
  let trie := build_trie routes
  let split := if trie.any_verb then split_verb path else (path, none)
  with_scanned_path split.1 trie.max_segments fun scanned =>
    run_node is_valid_variant ⟨scanned, method, split.2⟩ trie.any_verb trie.root 0

/-! ## The generated variants -/

structure VariantSpec where
  name : String
  fields : List Str
  keys : List Str
deriving DecidableEq

/-- The errors that `generate` reports for the variants. -/
inductive VariantError where
  /-- "route name is bound to routes that capture different path variables" -/
  | different_captures (name : String) (existing incoming : List Str)
  /-- "route name is not a valid Rust identifier" -/
  | invalid_identifier (name : String)
  /-- "route name collides with a generated method" -/
  | generated_method (name : String)
  /-- "route name captures two path variables that map to the same field" -/
  | same_field (name : String) (field : Str)
deriving DecidableEq

structure Variants where
  specs : List VariantSpec
  errors : List VariantError

def Route.keys (route : Route) : List Str := (flatten route.template.segments).2.map fun v => [DOT].intercalate v.name

def Route.fields (route : Route) : List Str :=
  (flatten route.template.segments).2.map fun v => field_name is_valid_variant ([UNDERSCORE].intercalate v.name)

/-- The fields that another one before them has taken. -/
def same_fields (name : String) (seen : List Str) : List Str → List VariantError
  | [] => []
  | field :: fields =>
    if seen.contains field then .same_field name field :: same_fields name seen fields
    else same_fields name (seen ++ [field]) fields

def sort_keys (keys : List Str) : List Str := keys.insertionSort fun a b => (compare a b).isLE = true

def collect_variant (acc : Variants) (route : Route) : Variants :=
  match acc.specs.find? fun spec => spec.name == route.name with
  | some spec =>
    if sort_keys spec.keys = sort_keys route.keys then acc
    else { acc with errors := acc.errors ++ [.different_captures route.name (sort_keys spec.keys) (sort_keys route.keys)] }
  | none =>
    let name_errors :=
      if !is_valid_variant (utf8 route.name) then [.invalid_identifier route.name]
      else if route.name = "resolve" then [.generated_method route.name] else []
    { specs := acc.specs ++ [⟨route.name, route.fields is_valid_variant, route.keys⟩]
      errors := acc.errors ++ name_errors ++ same_fields route.name [] (route.fields is_valid_variant) }

def collect_variants (routes : List Route) : Variants := routes.foldl (collect_variant is_valid_variant) ⟨[], []⟩

def StaticMatch.capture (specs : List VariantSpec) (m : StaticMatch) (key : Str) : Option Str :=
  match specs.find? fun spec => spec.name == m.leaf.name with
  | none => none
  | some spec => ((spec.keys.zip spec.fields).lookup key).bind fun field => m.fields.lookup field

/-! ## The dynamic answer -/

/-- `RouteMatch::capture` of the dynamic match. -/
def RawMatch.capture {T : Type} (m : RawMatch T) (name : Str) : Option Str :=
  (m.leaf.vars.findIdx? fun plan => plan.key == name).bind fun index => m.values[index]?

def RawResolver.resolve_checked {T : Type} (r : RawResolver T) (fuel : Nat) (method : String) (path : Str) :
    Exec Unit Site (Except InvalidPath (Option (RawMatch T))) :=
  let split := if r.any_verb then split_verb path else (path, none)
  let body := split.1
  let verb := split.2
  if r.max_segments ≤ INLINE_SEGMENTS then
    let path := scan body r.max_segments
    if !path.valid then pure (.error .mk)
    else do
      let found ← r.finish_scanned fuel method verb path
      pure (.ok found)
  else
    let path := scan body INLINE_SEGMENTS
    if !path.valid then pure (.error .mk)
    else if path.count > INLINE_SEGMENTS then do
      let found ← r.finish_scanned fuel method verb (scan body (min path.count r.max_segments))
      pure (.ok found)
    else do
      let found ← r.finish_scanned fuel method verb path
      pure (.ok found)

variable {T : Type}

theorem resolve_checked_eq (r : RawResolver T) (fuel : Nat) (method : String) (path : Str)
    {parts : Str × Option Str} (hparts : (if r.any_verb then split_verb path else (path, none)) = parts) :
    r.resolve_checked fuel method path =
      if parts.1.all allowed then do
        let found ← r.resolve fuel method path
        pure (.ok found)
      else pure (.error .mk) := by
  obtain ⟨body, verb⟩ := parts
  have hvalid : ∀ cap, (scan body cap).valid = body.all allowed := fun cap => (scan_scanned body cap).valid_eq
  unfold resolve_checked resolve
  simp only [hparts, hvalid]
  cases body.all allowed with
  | false => split <;> rfl
  | true =>
    simp only [Bool.not_true, Bool.false_eq_true, if_false, if_true]
    split
    · rfl
    · split <;> rfl

end

/-! ## Both backends try the same leaves -/

section
variable (valid : Str → Bool) {node : Node} {T : Type}

/-- What a leaf that was found returns. -/
def run_answer (path : ScannedPath) : Option Leaf → Exec Unit StaticSite (Option StaticMatch)
  | none => pure none
  | some leaf => run_return valid path leaf

variable {α : Type}

theorem fall_through_none (second : Exec Unit StaticSite (Option α)) :
    fall_through (pure none) second = second := rfl

theorem fall_through_answer (path : ScannedPath) (a b : Option Leaf) :
    fall_through (run_answer valid path a) (run_answer valid path b) =
      run_answer valid path (a.or b) := by
  cases a with
  | none => rfl
  | some leaf =>
    -- a return is a slice of every capture, after which nothing falls through
    simp only [run_answer, Option.some_or, run_return, fall_through]
    rw [then_assoc]
    rfl

/-- The entries of a method: the first leaf of each verb. -/
structure Grouped (leaves : List Leaf) (groups : List (String × List Leaf)) : Prop where
  first : ∀ method, ((groups.lookup method).getD []).head? = leaves.find? fun leaf => leaf.method == method
  verbs : ∀ method verb, ((groups.lookup method).getD []).find? (fun leaf => leaf.verb == verb) =
    leaves.find? fun leaf => leaf.method == method && leaf.verb == verb
  some_of : ∀ method entries, groups.lookup method = some entries → entries ≠ []

theorem lookup_group_leaf (leaf : Leaf) (groups : List (String × List Leaf)) (method : String) :
    (group_leaf leaf groups).lookup method =
      if method = leaf.method then
        some (match groups.lookup method with
          | none => [leaf]
          | some entries => if entries.any fun existing => existing.verb == leaf.verb then entries else entries ++ [leaf])
      else groups.lookup method := by
  induction groups with
  | nil =>
    unfold group_leaf
    by_cases hm : method = leaf.method
    · simp [hm]
    · simp [lookup_cons, hm, beq_eq_false_iff_ne.mpr hm]
  | cons group groups ih =>
    obtain ⟨m, entries⟩ := group
    unfold group_leaf
    by_cases hleaf : m = leaf.method
    · by_cases hm : method = leaf.method
      · simp [hleaf, hm]
      · simp [lookup_cons, hleaf, hm, beq_eq_false_iff_ne.mpr hm]
    · by_cases hm : method = m
      · subst hm
        simp [hleaf]
      · have hm' : (method == m) = false := beq_eq_false_iff_ne.mpr hm
        simp only [beq_iff_eq, if_neg hleaf, lookup_cons, hm']
        exact ih

theorem Grouped.add {leaves : List Leaf} {groups : List (String × List Leaf)} (h : Grouped leaves groups) (leaf : Leaf) :
    Grouped (leaves ++ [leaf]) (group_leaf leaf groups) := by
  refine ⟨fun method => ?_, fun method verb => ?_, fun method entries hentries => ?_⟩
  · have hfirst := h.first method
    rw [lookup_group_leaf, find?_append, ← hfirst]
    by_cases hm : method = leaf.method
    · rw [if_pos hm]
      cases hl : groups.lookup method with
      | none => simp [hm]
      | some entries =>
        have hne := h.some_of method entries hl
        obtain ⟨e, es, rfl⟩ := exists_cons_of_ne_nil hne
        simp only [Option.getD_some]
        split <;> simp
    · rw [if_neg hm]
      simp [Ne.symm hm]
  · have hverbs := h.verbs method verb
    rw [lookup_group_leaf, find?_append, ← hverbs]
    by_cases hm : method = leaf.method
    · rw [if_pos hm]
      cases hl : groups.lookup method with
      | none => simp [hm]
      | some entries =>
        simp only [Option.getD_some]
        split
        · rename_i hany
          -- an entry with the verb of the new leaf is there already
          cases hf : entries.find? fun leaf => leaf.verb == verb with
          | some e => rfl
          | none =>
            have hne : leaf.verb ≠ verb := by
              rintro rfl
              obtain ⟨e, he, hv⟩ := any_eq_true.mp hany
              exact absurd hv (by simpa using find?_eq_none.mp hf e he)
            simp [hne]
        · simp [find?_append, hm]
    · rw [if_neg hm]
      simp [Ne.symm hm]
  · rw [lookup_group_leaf] at hentries
    split at hentries
    · cases hentries
      split
      · simp
      · rename_i es hes
        have := h.some_of method es hes
        split
        · exact this
        · simp
    · exact h.some_of method entries hentries

theorem grouped (leaves : List Leaf) : Grouped leaves (leaves.foldl (fun groups leaf => group_leaf leaf groups) []) := by
  suffices h : ∀ (done todo : List Leaf) groups, Grouped done groups →
      Grouped (done ++ todo) (todo.foldl (fun groups leaf => group_leaf leaf groups) groups) by
    exact h [] leaves [] ⟨fun _ => rfl, fun _ _ => rfl, fun _ _ hl => by cases hl⟩
  intro done todo
  induction todo generalizing done with
  | nil =>
    intro groups h
    rwa [append_nil]
  | cons leaf todo ih =>
    intro groups h
    have hnext := ih (done ++ [leaf]) _ (h.add leaf)
    rwa [append_assoc] at hnext

theorem run_leaves_eq (w : Walk) (any_verb : Bool) (leaves : List Leaf) :
    run_leaves valid w any_verb leaves = run_answer valid w.path (w.dispatch any_verb leaves) := by
  have h := grouped leaves
  have hfirst := h.first w.method
  have hverbs := h.verbs w.method w.verb
  unfold run_leaves Walk.dispatch
  cases hl : List.lookup w.method _ with
  | none =>
    rw [hl] at hfirst hverbs
    cases any_verb with
    | true =>
      simp only [Bool.not_true, Bool.false_or]
      rw [← hverbs]
      rfl
    | false =>
      simp only [Bool.not_false, Bool.true_or, Bool.and_true]
      rw [← hfirst]
      rfl
  | some entries =>
    rw [hl] at hfirst hverbs
    cases any_verb with
    | true =>
      simp only [Bool.not_true, Bool.false_or, if_true]
      rw [← hverbs]
      simp only [Option.getD_some]
      cases entries.find? fun leaf => leaf.verb == w.verb <;> rfl
    | false =>
      obtain ⟨e, es, rfl⟩ := exists_cons_of_ne_nil (h.some_of _ _ hl)
      simp only [Bool.not_false, Bool.true_or, Bool.and_true]
      rw [← hfirst]
      rfl

theorem affix_check_eq (seg : Str) (key : Str × Str) : affix_check seg key = affix_matches seg key := by
  obtain ⟨pre, suf⟩ := key
  unfold affix_check affix_matches
  cases pre <;> cases suf <;> simp

theorem fall_through_all (path : ScannedPath) (f : α → Exec Unit StaticSite (Option StaticMatch))
    (g : α → Option Leaf) (edges : List α) (h : ∀ e ∈ edges, f e = run_answer valid path (g e)) :
    (edges.map f).foldr fall_through (pure none) = run_answer valid path (edges.findSome? g) := by
  induction edges with
  | nil => rfl
  | cons e edges ih =>
    rw [map_cons, foldr_cons, ih fun e he => h e (mem_cons_of_mem _ he), h e mem_cons_self,
      fall_through_answer, findSome?_cons]
    cases g e <;> rfl

/-- What the leaves below a node give, in the order of the search. -/
def node_answer (w : Walk) (any_verb : Bool) (segs : List Str) (node : Node) : Option Leaf :=
  (candidates segs node).findSome? fun c => w.dispatch any_verb c.2

theorem node_answer_nil (w : Walk) (any_verb : Bool) (node : Node) :
    node_answer w any_verb [] node = (w.dispatch any_verb node.exact).or (w.dispatch any_verb node.rest) := by
  simp only [node_answer, candidates, findSome?_cons, findSome?_nil]
  cases w.dispatch any_verb node.exact <;> cases w.dispatch any_verb node.rest <;> rfl

theorem node_answer_cons (w : Walk) (any_verb : Bool) (s : Str) (segs : List Str) (node : Node) :
    node_answer w any_verb (s :: segs) node =
      ((node.edges s).findSome? fun e => node_answer w any_verb segs e.2).or (w.dispatch any_verb node.rest) := by
  have hflat : ∀ edges : List (Atom × Node),
      (edges.flatMap fun e => (candidates segs e.2).map fun c => (e.1 :: c.1, c.2)).findSome?
        (fun c => w.dispatch any_verb c.2) = edges.findSome? fun e => node_answer w any_verb segs e.2 := by
    intro edges
    induction edges with
    | nil => rfl
    | cons e edges ih =>
      rw [flatMap_cons, findSome?_append, findSome?_map, ih, findSome?_cons]
      change (node_answer w any_verb segs e.2).or _ = _
      cases node_answer w any_verb segs e.2 <;> rfl
  unfold node_answer
  rw [candidates, findSome?_append, hflat]
  congr 1
  simp only [findSome?_cons, findSome?_nil]
  cases w.dispatch any_verb node.rest <;> rfl

theorem answer_edges (w : Walk) (any_verb : Bool) (s : Str) (segs : List Str) (node : Node) :
    ((node.edges s).findSome? fun e => node_answer w any_verb segs e.2) =
      (((node.literals.lookup s).bind (node_answer w any_verb segs)).or
        ((affix_edges_in_match_order node).findSome? fun e =>
          if affix_matches s e.1 then node_answer w any_verb segs e.2 else none)).or
      ((if !s.isEmpty then node.single else none).bind (node_answer w any_verb segs)) := by
  have hfilter : ∀ edges : List ((Str × Str) × Node),
      ((edges.filter fun e => affix_matches s e.1).map fun e => (Atom.affix e.1.1 e.1.2, e.2)).findSome?
        (fun e => node_answer w any_verb segs e.2) =
      edges.findSome? fun e => if affix_matches s e.1 then node_answer w any_verb segs e.2 else none := by
    intro edges
    rw [findSome?_map]
    induction edges with
    | nil => rfl
    | cons e edges ih =>
      rw [filter_cons, findSome?_cons]
      split
      · rw [findSome?_cons, ih]
        rfl
      · exact ih
  unfold Node.edges
  rw [findSome?_append, findSome?_append, hfilter]
  congr 1
  · congr 1
    cases node.literals.lookup s with
    | none => rfl
    | some child => simp
  · cases (if !s.isEmpty then node.single else none) with
    | none => rfl
    | some child => simp

section
variable {w : Walk} {any_verb : Bool} {node : Node} {depth : Nat} {s : Str} {segs : List Str}
  {child_code : (child : Node) → child ∈ children node → Exec Unit StaticSite (Option StaticMatch)}

theorem run_edges_eq (hseg : children node ≠ [] → w.path.segment depth = some s)
    (hchild : ∀ child h, child_code child h = run_answer valid w.path (node_answer w any_verb segs child)) :
    run_edges w node depth child_code =
      run_answer valid w.path
        (((node.literals.lookup s).bind (node_answer w any_verb segs)).or
          ((affix_edges_in_match_order node).findSome? fun e =>
            if affix_matches s e.1 then node_answer w any_verb segs e.2 else none)) := by
  have hperm := affix_order_perm node
  unfold run_edges
  split
  · rename_i hempty
    rw [Bool.and_eq_true, List.isEmpty_iff, List.isEmpty_iff] at hempty
    rw [hempty.2, perm_nil] at hperm
    rw [hempty.1, hperm]
    rfl
  · rename_i hedges
    have hsome : w.path.segment depth = some s := by
      refine hseg fun hnil => hedges ?_
      unfold children at hnil
      simp only [append_eq_nil_iff, map_eq_nil_iff] at hnil
      rw [hnil.1.2, nil_perm] at hperm
      rw [hnil.1.1, hperm]
      rfl
    have haffix := fall_through_all valid w.path
      (fun edge : { e // e ∈ affix_edges_in_match_order node } =>
        if affix_check s edge.1.1 then child_code edge.1.2 (children_affix edge.2) else pure none)
      (fun edge => if affix_matches s edge.1.1 then node_answer w any_verb segs edge.1.2 else none)
      (affix_edges_in_match_order node).attach fun edge _ => by
        simp only [affix_check_eq]
        split
        · exact hchild _ _
        · rfl
    rw [hsome, expect_some, pure_then, haffix, ← fall_through_answer]
    congr 1
    · split
      · rename_i child hl
        rw [hchild, hl]
        rfl
      · rename_i hl
        rw [hl]
        rfl
    · congr 1
      conv_rhs => rw [← attach_map_subtype_val (affix_edges_in_match_order node), findSome?_map]
      rfl

theorem run_single_eq (hseg : children node ≠ [] → w.path.segment depth = some s)
    (hchild : ∀ child h, child_code child h = run_answer valid w.path (node_answer w any_verb segs child)) :
    run_single w node depth child_code =
      run_answer valid w.path ((if !s.isEmpty then node.single else none).bind (node_answer w any_verb segs)) := by
  unfold run_single
  split
  · rename_i child hs
    rw [hseg (ne_nil_of_mem (children_single hs)), expect_some, pure_then, hchild, hs]
    split <;> rfl
  · rename_i hs
    rw [hs, ite_self]
    rfl

end

theorem run_node_step {w : Walk} (any_verb : Bool) {segs : List Str} {cap : Nat} (hw : w.Reads segs cap)
    {depth : Nat} (hdepth : depth ≤ segs.length) (hcap : children node ≠ [] → depth < cap)
    (hchild : ∀ child ∈ children node, depth < segs.length → run_node valid w any_verb child (depth + 1) =
      run_answer valid w.path (node_answer w any_verb (segs.drop (depth + 1)) child)) :
    run_node valid w any_verb node depth =
      run_answer valid w.path (node_answer w any_verb (segs.drop depth) node) := by
  rw [run_node]
  simp only [hw.count_eq, run_leaves_eq]
  rcases Nat.lt_or_eq_of_le hdepth with hlt | rfl
  · have hseg : children node ≠ [] → w.path.segment depth = some segs[depth] := fun hne => by
      rw [hw.segment_eq, if_pos (hcap hne)]
      exact getElem?_eq_getElem hlt
    rw [if_pos hlt, if_neg (Nat.ne_of_gt hlt), if_pos hdepth, fall_through_none,
      run_edges_eq valid hseg fun child hm => hchild child hm hlt,
      run_single_eq valid hseg fun child hm => hchild child hm hlt, fall_through_answer, fall_through_answer,
      drop_eq_getElem_cons hlt, node_answer_cons, answer_edges]
  · rw [if_neg (Nat.lt_irrefl _), if_pos rfl, if_pos (Nat.le_refl _), fall_through_none, fall_through_answer,
      drop_length, node_answer_nil]

theorem run_node_eq {w : Walk} (any_verb : Bool) {segs : List Str} {cap : Nat} (hw : w.Reads segs cap) {n : Nat}
    (hb : node.Bounded n) {depth : Nat} (hdepth : depth ≤ segs.length) (hcap : depth + n ≤ cap) :
    run_node valid w any_verb node depth =
      run_answer valid w.path (node_answer w any_verb (segs.drop depth) node) := by
  induction n generalizing node depth with
  | zero =>
    obtain ⟨hl, ha, hs⟩ := hb
    have hnil : children node = [] := by
      have hperm := affix_order_perm node
      rw [ha, perm_nil] at hperm
      simp [children, hl, hperm, hs]
    refine run_node_step valid any_verb hw hdepth (absurd hnil) fun child hm => ?_
    rw [hnil] at hm
    cases hm
  | succ n ih =>
    refine run_node_step valid any_verb hw hdepth (fun _ => by omega) fun child hm hlt => ?_
    refine ih ?_ hlt (by omega)
    obtain ⟨hl, ha, hs⟩ := hb
    unfold children at hm
    simp only [mem_append, mem_map, Option.mem_toList] at hm
    rcases hm with (⟨e, he, rfl⟩ | ⟨e, he, rfl⟩) | hm
    · exact hl e he
    · exact ha e ((affix_order_perm node).mem_iff.mp he)
    · exact hs child hm

/-! ## Captures by name -/

theorem same_fields_nil {name : String} {seen fields : List Str} (h : same_fields name seen fields = []) :
    fields.Nodup ∧ ∀ f ∈ fields, f ∉ seen := by
  induction fields generalizing seen with
  | nil => simp
  | cons f fields ih =>
    unfold same_fields at h
    split at h
    · cases h
    · rename_i hseen
      obtain ⟨hnodup, hapart⟩ := ih h
      have hf : f ∉ seen := by simpa using hseen
      refine ⟨nodup_cons.mpr ⟨fun hm => hapart f hm (by simp), hnodup⟩, fun g hg => ?_⟩
      rcases mem_cons.mp hg with rfl | hg
      · exact hf
      · exact fun hs => hapart g hg (mem_append_left _ hs)

theorem perm_of_sort_keys {a b : List Str} (h : sort_keys a = sort_keys b) : a.Perm b := by
  have ha : (sort_keys a).Perm a := perm_insertionSort _ a
  have hb : (sort_keys b).Perm b := perm_insertionSort _ b
  rw [h] at ha
  exact ha.symm.trans hb

theorem intercalate_underscore {parts : List Str} (h : ∀ p ∈ parts, DOT ∉ p) :
    [UNDERSCORE].intercalate parts = ([DOT].intercalate parts).map fun b => if b = DOT then UNDERSCORE else b := by
  have hpart : ∀ p : Str, DOT ∉ p → (p.map fun b => if b = DOT then UNDERSCORE else b) = p := by
    intro p hp
    refine (map_congr_left fun b hb => if_neg ?_).trans (map_id p)
    rintro rfl
    exact hp hb
  induction parts with
  | nil => rfl
  | cons p parts ih =>
    cases parts with
    | nil => simp [intercalate, hpart p (h p mem_cons_self)]
    | cons q parts =>
      have hrest := ih fun r hr => h r (mem_cons_of_mem _ hr)
      simp only [intercalate, intersperse_cons_cons, flatten_cons, map_append] at hrest ⊢
      rw [hpart p (h p mem_cons_self), ← hrest]
      rfl

theorem splitOn_apart {sep : UInt8} {text part : Str} (h : part ∈ text.splitOn sep) : sep ∉ part := by
  induction text generalizing part with
  | nil =>
    rw [splitOn_nil, mem_singleton] at h
    rw [h]
    exact not_mem_nil
  | cons b text ih =>
    rw [splitOn, splitOnP_cons_eq_if_modifyHead] at h
    split at h
    · rcases mem_cons.mp h with rfl | h
      · exact not_mem_nil
      · exact ih h
    · rename_i hb
      change part ∈ (text.splitOn sep).modifyHead (List.cons b) at h
      cases hs : text.splitOn sep with
      | nil => rw [hs] at h; cases h
      | cons first parts =>
        rw [hs, modifyHead_cons] at h
        rcases mem_cons.mp h with rfl | h
        · rw [mem_cons, not_or]
          refine ⟨fun heq => hb (by simp [heq]), ih ?_⟩
          rw [hs]
          exact mem_cons_self
        · refine ih ?_
          rw [hs]
          exact mem_cons_of_mem _ h

theorem var_spans_name (n : Nat) (segs : List Segment) : ∀ v ∈ var_spans n segs, ∀ p ∈ v.name, DOT ∉ p := by
  induction segs generalizing n with
  | nil => exact fun v hv => absurd hv not_mem_nil
  | cons seg segs ih =>
    cases seg with
    | affix pre name suf | var x =>
      intro v hv
      rcases mem_cons.mp hv with rfl | hv
      · exact fun p hp => splitOn_apart hp
      · exact ih _ v hv
    | literal _ | single | rest => exact ih _

theorem Route.fields_eq (route : Route) : route.fields valid = route.keys.map (route_field_name valid) := by
  unfold Route.fields Route.keys
  rw [map_map]
  refine map_congr_left fun v hv => ?_
  rw [flatten_eq] at hv
  rw [intercalate_underscore (var_spans_name 0 _ v hv)]
  rfl

theorem Route.leaf_keys (route : Route) (i : Nat) : (route.leaf i).vars.map VarPlan.key = route.keys := by
  unfold Route.leaf Route.keys
  simp only [map_map]
  refine map_congr_left fun v _ => ?_
  simp only [Function.comp, VarSpan.plan]
  split
  · rfl
  · split <;> rfl

/-- The variant of a route name has its keys, and a field of its own for each of them. -/
structure VariantSpec.Of (route : Route) (spec : VariantSpec) : Prop where
  keys : spec.keys.Perm route.keys
  fields_eq : spec.fields = spec.keys.map (route_field_name valid)
  nodup : spec.fields.Nodup

/-- If no error is reported, the routes so far have their variants. -/
def Variants.Fit (acc : Variants) (routes : List Route) : Prop :=
  acc.errors = [] → (∀ route ∈ routes, ∃ spec, (acc.specs.find? fun spec => spec.name == route.name) = some spec ∧
    spec.Of valid route) ∧
    ∀ spec ∈ acc.specs, spec.fields = spec.keys.map (route_field_name valid) ∧ spec.fields.Nodup

variable {routes : List Route}

theorem Variants.Fit.collect {acc : Variants} (h : acc.Fit valid routes) (route : Route) :
    (collect_variant valid acc route).Fit valid (routes ++ [route]) := by
  unfold collect_variant
  cases hfind : acc.specs.find? fun spec => spec.name == route.name with
  | some spec =>
    intro herrors
    dsimp only at herrors ⊢
    split at herrors
    · rename_i hkeys
      rw [if_pos hkeys]
      obtain ⟨hroutes, hspecs⟩ := h herrors
      obtain ⟨hfields, hnodup⟩ := hspecs spec (mem_of_find?_eq_some hfind)
      refine ⟨fun r hr => ?_, hspecs⟩
      rcases mem_append.mp hr with hr | hr
      · exact hroutes r hr
      · rw [mem_singleton.mp hr]
        exact ⟨spec, hfind, perm_of_sort_keys hkeys, hfields, hnodup⟩
    · simp at herrors
  | none =>
    intro herrors
    simp only [append_eq_nil_iff] at herrors
    obtain ⟨⟨hold, -⟩, hsame⟩ := herrors
    obtain ⟨hroutes, hspecs⟩ := h hold
    have hnew := (same_fields_nil hsame).1
    have hfields := route.fields_eq valid
    refine ⟨fun r hr => ?_, fun spec hspec => ?_⟩
    · rw [find?_append]
      rcases mem_append.mp hr with hr | hr
      · obtain ⟨spec, hspec, hof⟩ := hroutes r hr
        exact ⟨spec, by rw [hspec, Option.some_or], hof⟩
      · rw [mem_singleton.mp hr, hfind, Option.none_or]
        exact ⟨_, find?_cons_of_pos (by simp), .rfl, hfields, hnew⟩
    · rcases mem_append.mp hspec with hspec | hspec
      · exact hspecs spec hspec
      · rw [mem_singleton.mp hspec]
        exact ⟨hfields, hnew⟩

theorem collect_variants_fit (routes : List Route) :
    (collect_variants valid routes).Fit valid routes := by
  suffices h : ∀ (todo done : List Route) (acc : Variants), acc.Fit valid done →
      (todo.foldl (collect_variant valid) acc).Fit valid (done ++ todo) by
    exact h routes [] ⟨[], []⟩ fun _ => ⟨fun r hr => absurd hr not_mem_nil, fun s hs => absurd hs not_mem_nil⟩
  intro todo
  induction todo with
  | nil =>
    intro done acc h
    rwa [append_nil]
  | cons route todo ih =>
    intro done acc h
    have hnext := ih (done ++ [route]) _ (h.collect valid route)
    rwa [append_assoc] at hnext

theorem lookup_renamed {g : Str → Str} {entries : List (Str × Str)} (hg : (entries.map fun e => g e.1).Nodup) {key : Str}
    (hk : key ∈ entries.map Prod.fst) : (entries.map fun e => (g e.1, e.2)).lookup (g key) = entries.lookup key := by
  induction entries with
  | nil => cases hk
  | cons e entries ih =>
    obtain ⟨k, v⟩ := e
    rw [map_cons, nodup_cons] at hg
    rw [map_cons, lookup_cons, lookup_cons]
    by_cases hkey : key = k
    · simp [hkey]
    · have hmem := (mem_cons.mp hk).resolve_left hkey
      have hne : g key ≠ g k := by
        intro heq
        obtain ⟨e, he, rfl⟩ := mem_map.mp hmem
        exact hg.1 (mem_map.mpr ⟨e, he, heq⟩)
      rw [beq_eq_false_iff_ne.mpr hkey, beq_eq_false_iff_ne.mpr hne]
      exact ih hg.2 hmem

theorem lookup_absent {entries : List (Str × Str)} {key : Str} (hk : key ∉ entries.map Prod.fst) :
    entries.lookup key = none := by
  refine lookup_eq_none_iff.mpr fun e he => bne_iff_ne.mpr ?_
  rintro rfl
  exact hk (mem_map_of_mem he)

theorem lookup_zip_self {keys : List Str} (g : Str → Str) (key : Str) :
    (keys.zip (keys.map g)).lookup key = if key ∈ keys then some (g key) else none := by
  induction keys with
  | nil => rfl
  | cons k keys ih =>
    simp only [map_cons, zip_cons_cons, lookup_cons]
    by_cases hkey : key = k
    · simp [hkey]
    · rw [beq_eq_false_iff_ne.mpr hkey]
      simp only [mem_cons, hkey, false_or]
      exact ih

theorem RawMatch.capture_eq (m : RawMatch T) (name : Str) : m.capture name = m.captures.lookup name := by
  unfold RawMatch.capture RawMatch.captures
  generalize m.leaf.vars = vars
  generalize m.values = values
  induction vars generalizing values with
  | nil => rfl
  | cons plan vars ih =>
    rw [findIdx?_cons, map_cons]
    cases values with
    | nil =>
      split
      · rfl
      · cases vars.findIdx? fun plan => plan.key == name <;> rfl
    | cons v values =>
      rw [zip_cons_cons, lookup_cons]
      by_cases hkey : plan.key = name
      · simp [hkey]
      · have hkey' : (name == plan.key) = false := beq_eq_false_iff_ne.mpr (Ne.symm hkey)
        rw [if_neg (by simpa using hkey), hkey', ← ih values]
        cases vars.findIdx? fun plan => plan.key == name <;> rfl

/-! ## The static answer -/

theorem var_slice_ok {path : ScannedPath} {plan : VarPlan} {value : Str}
    (h : (materialize plan path).run () = (.ok value, ())) : (var_slice plan path).run () = (.ok value, ()) := by
  cases plan with
  | span key a b | rest key a | affix key a prefix_len suffix_len => exact expect_ok.mpr (expect_ok.mp h)

/-- The match of a route: its leaf, and a field for each capture. -/
structure StaticMatch.Of (route : Route) (i : Nat) (body : Str) (m : StaticMatch) : Prop where
  leaf_eq : m.leaf = route.leaf i
  keys_eq : (captured body 0 route.template.segments).map Prod.fst = route.keys
  fields_eq : m.fields = (captured body 0 route.template.segments).map fun c => (route_field_name valid c.1, c.2)

variable {i : Nat} {body : Str}

theorem run_return_ok {route : Route} {scanned : ScannedPath}
    (hcuts : List.Forall₂ (CutsOut scanned) (route.leaf i).vars (captured body 0 route.template.segments)) :
    ∃ m, (run_return valid scanned (route.leaf i)).run () = (.ok (some m), ()) ∧
      StaticMatch.Of valid route i body m := by
  refine ⟨⟨route.leaf i, _⟩, ?_, rfl, ?_, rfl⟩
  · unfold run_return
    have hfields : List.Forall₂ (fun plan field => (do
          let value ← var_slice plan scanned
          pure (plan.field valid, value) : Exec Unit StaticSite (Str × Str)).run () = (.ok field, ()))
        (route.leaf i).vars
        ((captured body 0 route.template.segments).map fun c => (route_field_name valid c.1, c.2)) := by
      refine List.forall₂_map_right_iff.mpr (hcuts.imp fun plan c h => ?_)
      rw [bind_ok (var_slice_ok h.2), ← h.1]
      rfl
    rw [bind_ok (mapM_ok hfields)]
    rfl
  · rw [← keys_of_cuts_out hcuts, route.leaf_keys]

/-- What the static backend has to answer. -/
def StaticAnswers (routes : List Route) (method : String) (path : Str) : Option StaticMatch → Prop
  | none => ∀ i route, ¬ Candidate routes method path i route
  | some m => ∃ i route, Selected routes method path i route ∧ m.Of valid route i (split routes path).1

theorem with_scanned_path_eq (body : Str) (max_segments : Nat)
    (resolve : ScannedPath → Exec Unit StaticSite α) : ∃ cap scanned, Deep body max_segments cap scanned ∧
      with_scanned_path body max_segments resolve =
        if body.all allowed then do
          let a ← resolve scanned
          pure (.ok a)
        else pure (.error .mk) := by
  have hvalid : ∀ cap, (scan body cap).valid = body.all allowed := fun cap => (scan_scanned body cap).valid_eq
  have hcount : ∀ cap, (scan body cap).count = (segments body).length := fun cap =>
    (scan_scanned body cap).count_eq
  unfold with_scanned_path
  simp only [hvalid, hcount]
  by_cases hinline : max_segments ≤ INLINE_SEGMENTS ∨ (segments body).length ≤ INLINE_SEGMENTS
  · refine ⟨_, _, ⟨scan_scanned body (min max_segments INLINE_SEGMENTS), Nat.min_le_left _ _, fun i h1 h2 => ?_⟩, ?_⟩
    · rcases hinline with h | h <;> exact Nat.lt_min.mpr ⟨h1, by omega⟩
    · cases body.all allowed <;> simp [hinline]
  · refine ⟨_, _, ⟨scan_scanned body (min (segments body).length max_segments), Nat.min_le_right _ _,
      fun i h1 h2 => Nat.lt_min.mpr ⟨h2, h1⟩⟩, ?_⟩
    cases body.all allowed <;> simp [hinline, assert]

theorem static_answers (routes : List Route) (method path : String) :
    ∃ result, StaticAnswers valid routes method (utf8 path) result ∧
      (static_resolve_checked valid routes method (utf8 path)).run () =
        (.ok (if (split routes (utf8 path)).1.all allowed then .ok result else .error .mk), ()) := by
  have htrie := build_trie_holds routes
  obtain ⟨rt, hcompiled, -⟩ := compile_ok htrie.sorted
  have hparts : (if (build_trie routes).any_verb then split_verb (utf8 path) else (utf8 path, none)) =
      split routes (utf8 path) := by
    rw [htrie.any_verb_eq]
    rfl
  unfold static_resolve_checked
  simp only [hparts]
  obtain ⟨cap, scanned, hdeep, hrun⟩ := with_scanned_path_eq (split routes (utf8 path)).1 (build_trie routes).max_segments
    fun scanned => run_node valid (request routes method (utf8 path) scanned) (build_trie routes).any_verb
      (build_trie routes).root 0
  have hnode := run_node_eq valid (build_trie routes).any_verb
    (hdeep.reads method (split routes (utf8 path)).2) htrie.bounded (Nat.zero_le _) (Nat.le_of_eq (Nat.zero_add _))
  have hanswer : node_answer (request routes method (utf8 path) scanned) (build_trie routes).any_verb
      (segments (split routes (utf8 path)).1) (build_trie routes).root =
      answer (request routes method (utf8 path) scanned) (build_trie routes).any_verb
        (segments (split routes (utf8 path)).1) rt := by
    unfold node_answer answer
    rw [groups_eq hcompiled htrie.sorted, findSome?_map]
    rfl
  have hselected := answer_selected method (utf8 path) scanned htrie hcompiled
  rw [drop_zero, hanswer] at hnode
  rw [hrun, hnode]
  cases hcase : answer (request routes method (utf8 path) scanned) (build_trie routes).any_verb
    (segments (split routes (utf8 path)).1) rt with
  | none =>
    rw [hcase] at hselected
    refine ⟨none, hselected, ?_⟩
    split <;> rfl
  | some leaf =>
    rw [hcase] at hselected
    obtain ⟨i, route, rfl, hsel⟩ := hselected
    have hmem : (route, i) ∈ routes.zipIdx := mk_mem_zipIdx_iff_getElem?.mpr hsel.candidate.declared
    obtain ⟨m, hreturn, hof⟩ := run_return_ok valid (route_cuts_out route i hdeep
      ((chars_utf8 path).of_start (split_start routes _)) hsel.candidate.hits (htrie.deep _ hmem))
    refine ⟨some m, ⟨i, route, hsel, hof⟩, ?_⟩
    split
    · change (run_return valid scanned (route.leaf i) >>= _).run () = _
      rw [bind_ok hreturn]
      rfl
    · rfl

/-! ## The two answers -/

/-- The same route is matched, with the same captures. -/
structure SameMatch {T : Type} (variants : Variants) (s : StaticMatch) (d : RawMatch T) : Prop where
  leaf_eq : s.leaf = d.leaf
  fields_eq : s.fields = d.captures.map fun c => (route_field_name valid c.1, c.2)
  capture_eq : variants.errors = [] → ∀ key, s.capture variants.specs key = d.capture key

/-- The answers of the two backends to a request agree. -/
def Agree {T : Type} (variants : Variants) :
    Except InvalidPath (Option StaticMatch) → Except InvalidPath (Option (RawMatch T)) → Prop
  | .error _, .error _ => True
  | .ok none, .ok none => True
  | .ok (some s), .ok (some d) => SameMatch valid variants s d
  | _, _ => False

theorem StaticMatch.Of.capture_eq {route : Route} {m : StaticMatch}
    (h : m.Of valid route i body) {variants : Variants}
    (hfit : variants.Fit valid routes) (hroute : route ∈ routes) (herrors : variants.errors = []) (key : Str) :
    m.capture variants.specs key = (captured body 0 route.template.segments).lookup key := by
  obtain ⟨spec, hfind, hspec⟩ := (hfit herrors).1 route hroute
  have hname : m.leaf.name = route.name := by
    rw [h.leaf_eq]
    rfl
  have hperm : spec.keys.Perm ((captured body 0 route.template.segments).map Prod.fst) := by
    rw [h.keys_eq]
    exact hspec.keys
  unfold StaticMatch.capture
  rw [hname, hfind]
  simp only [hspec.fields_eq, lookup_zip_self]
  split
  · rename_i hkey
    have hnodup := hspec.nodup
    rw [hspec.fields_eq, (hperm.map _).nodup_iff, map_map] at hnodup
    rw [Option.bind_some, h.fields_eq]
    exact lookup_renamed hnodup (hperm.mem_iff.mp hkey)
  · rename_i hkey
    rw [Option.bind_none, lookup_absent fun hmem => hkey (hperm.mem_iff.mpr hmem)]

theorem same_match {entry : Route × T} {s : StaticMatch} {d : RawMatch T}
    (hs : s.Of valid entry.1 i body) (hd : d.Of entry i body) (hroute : entry.1 ∈ routes) :
    SameMatch valid (collect_variants valid routes) s d := by
  refine ⟨hs.leaf_eq.trans hd.leaf_eq.symm, ?_, fun herrors key => ?_⟩
  · rw [hs.fields_eq, hd.captures_eq]
  · rw [RawMatch.capture_eq, hd.captures_eq]
    exact hs.capture_eq valid (collect_variants_fit valid routes) hroute herrors key

end

/-- The two backends of a route list agree on every request. -/
theorem static_agrees_with_dynamic (is_valid_variant : Str → Bool) {T : Type} (entries : List (Route × T)) :
    ∃ (r : RawResolver T) (n : Nat), (∀ fuel, n ≤ fuel → (RawResolver.with_values fuel entries).run () = (.ok r, ())) ∧
      ∀ method path : String, ∃ s d k,
        (static_resolve_checked is_valid_variant (entries.map Prod.fst) method (utf8 path)).run () = (.ok s, ()) ∧
        (∀ fuel, k ≤ fuel → (r.resolve_checked fuel method (utf8 path)).run () = (.ok d, ())) ∧
        Agree is_valid_variant (collect_variants is_valid_variant (entries.map Prod.fst)) s d := by
  obtain ⟨rt, hcompiled, hbuilt⟩ := with_values_ok entries
  have htrie := build_trie_holds (entries.map Prod.fst)
  refine ⟨_, _, hbuilt, fun method path => ?_⟩
  obtain ⟨s, hstatic, hs⟩ := static_answers is_valid_variant (entries.map Prod.fst) method path
  have hparts : (if (build_trie (entries.map Prod.fst)).any_verb then split_verb (utf8 path) else (utf8 path, none)) =
      split (entries.map Prod.fst) (utf8 path) := by
    rw [htrie.any_verb_eq]
    rfl
  by_cases hall : (split (entries.map Prod.fst) (utf8 path)).1.all allowed = true
  · obtain ⟨d, k, hdynamic, hd⟩ := resolve_answers htrie hcompiled method path hall
    rw [if_pos hall] at hs
    refine ⟨.ok s, .ok d, k, hs, fun fuel hfuel => ?_, ?_⟩
    · rw [resolve_checked_eq _ fuel method _ hparts, if_pos hall, bind_ok (hd fuel hfuel)]
      rfl
    · cases s with
      | none =>
        cases d with
        | none => trivial
        | some d =>
          obtain ⟨i, entry, -, hsel, -⟩ := hdynamic
          exact hstatic i _ hsel.candidate
      | some s =>
        obtain ⟨i, route, hsel, hsof⟩ := hstatic
        cases d with
        | none => exact hdynamic i route hsel.candidate
        | some d =>
          obtain ⟨j, entry, hentry, hsel', hdof⟩ := hdynamic
          obtain ⟨rfl, rfl⟩ := hsel.unique hsel'
          exact same_match is_valid_variant hsof hdof (mem_map_of_mem (mem_of_getElem? hentry))
  · rw [if_neg hall] at hs
    refine ⟨.error .mk, .error .mk, 0, hs, fun fuel _ => ?_, trivial⟩
    rw [resolve_checked_eq _ fuel method _ hparts, if_neg hall]
    rfl

/-- Both backends of the two user routes answer `GET /v/me`, and agree. -/
theorem static_agrees_with_dynamic_users :
    ∃ (r : RawResolver Nat) (n : Nat) (s : Except InvalidPath (Option StaticMatch)) (d : Except InvalidPath (Option (RawMatch Nat)))
      (k : Nat), (RawResolver.with_values n [(user_by_id, 0), (user_me, 1)]).run () = (.ok r, ()) ∧
      (static_resolve_checked (fun _ => true) [user_by_id, user_me] "GET" (utf8 "/v/me")).run () = (.ok s, ()) ∧
      (r.resolve_checked k "GET" (utf8 "/v/me")).run () = (.ok d, ()) ∧
      Agree (fun _ => true) (collect_variants (fun _ => true) [user_by_id, user_me]) s d := by
  obtain ⟨r, n, hbuilt, hall⟩ := static_agrees_with_dynamic (fun _ => true) [(user_by_id, 0), (user_me, 1)]
  obtain ⟨s, d, k, hs, hd, hagree⟩ := hall "GET" "/v/me"
  exact ⟨r, n, s, d, k, hbuilt n (Nat.le_refl n), hs, hd k (Nat.le_refl k), hagree⟩

end Routing
