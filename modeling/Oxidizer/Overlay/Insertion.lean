import Oxidizer.Overlay.Merge
/-!
# Insertion of the dotted names

A name can be inserted into the tree of the names before it unless it is too
long or one of the two goes through the other. What the tree holds is then
read off the relation of a tree to its pairs.
-/

namespace Overlay

open List

open Routing (Str DOT)

def insert_all (root : Nodes) : List (Str × Str) → Except TranscodeError Nodes
  | [] => return root
  | (key, value) :: query => do
    let root ← insert_query_node root (key.splitOn DOT) value MAX_QUERY_FIELD_DEPTH
    insert_all root query

mutual

/-- The leaves below a node, each with its path and its values. -/
def QueryNode.leaf_paths : QueryNode → List (List Str × List Str)
  | .leaf values => [([], values)]
  | .map children => leaf_paths children

def leaf_paths : List (Str × QueryNode) → List (List Str × List Str)
  | [] => []
  | (key, node) :: root => (node.leaf_paths.map fun leaf => (key :: leaf.1, leaf.2)) ++ leaf_paths root

end

variable {root : Nodes}

variable {path : List Str}

theorem mem_leaf_paths {values : List Str} :
    (path, values) ∈ leaf_paths root ↔
      ∃ key node rest, (key, node) ∈ root ∧ path = key :: rest ∧ (rest, values) ∈ node.leaf_paths := by
  induction root with
  | nil => simp [leaf_paths]
  | cons entry root ih =>
    obtain ⟨key, node⟩ := entry
    rw [leaf_paths, mem_append, ih, mem_map]
    constructor
    · rintro (⟨leaf, hleaf, he⟩ | ⟨k, n, rest, hm, hrest⟩)
      · cases he
        exact ⟨key, node, leaf.1, mem_cons_self, rfl, hleaf⟩
      · exact ⟨k, n, rest, mem_cons_of_mem _ hm, hrest⟩
    · rintro ⟨k, n, rest, hm, rfl, hrest⟩
      rcases mem_cons.mp hm with he | hm
      · cases he
        exact .inl ⟨_, hrest, rfl⟩
      · exact .inr ⟨k, n, rest, hm, rfl, hrest⟩

theorem leaf_paths_nodup (hd : (root.map Prod.fst).Nodup)
    (hnode : ∀ entry ∈ root, (entry.2.leaf_paths.map Prod.fst).Nodup) : ((leaf_paths root).map Prod.fst).Nodup := by
  induction root with
  | nil => simp [leaf_paths]
  | cons entry root ih =>
    obtain ⟨key, node⟩ := entry
    obtain ⟨hnew, hd'⟩ := nodup_cons.mp hd
    rw [leaf_paths, map_append]
    apply nodup_append'.mpr
    refine ⟨?_, ih hd' fun entry he => hnode entry (mem_cons_of_mem _ he), ?_⟩
    · have hinj := (hnode _ mem_cons_self).map (f := (key :: ·)) fun _ _ he => (List.cons.inj he).2
      simpa [map_map, Function.comp_def] using hinj
    · -- the paths below the other names start with another name
      intro path hpath hother
      obtain ⟨leaf, hleaf, rfl⟩ := mem_map.mp hother
      obtain ⟨k, n, rest, hm, he, -⟩ := mem_leaf_paths.mp hleaf
      simp only [map_map, mem_map, Function.comp_apply] at hpath
      obtain ⟨below, -, hbelow⟩ := hpath
      rw [he] at hbelow
      rw [(List.cons.inj hbelow).1] at hnew
      exact hnew (mem_map.mpr ⟨_, hm, rfl⟩)

variable {pairs : Pairs}

theorem values_at_nil {values : List Str} (h : pairs = values.map fun value => ([], value)) :
    values_at pairs [] = values := by
  rw [h, values_at]
  simp [filter_map, Function.comp_def]

/-- The leaves of a tree are the paths of its pairs, with their values in order. -/
theorem Represents.leaves (hr : Represents pairs root) :
    ((leaf_paths root).map Prod.fst).Nodup ∧ ∀ path values, (path, values) ∈ leaf_paths root ↔
      path ∈ pairs.map Prod.fst ∧ values = values_at pairs path := by
  induction hr with
  | @intro pairs root hdistinct hheads hnamed hleaf _ ih =>
    constructor
    · apply leaf_paths_nodup hdistinct
      rintro ⟨key, node⟩ hm
      cases node with
      | leaf values => simp [QueryNode.leaf_paths]
      | map children => simpa [QueryNode.leaf_paths] using (ih key children hm).1
    · -- below one name the leaves are those of its node
      have hbelow : ∀ key node, (key, node) ∈ root → ∀ rest values, (rest, values) ∈ node.leaf_paths ↔
          key :: rest ∈ pairs.map Prod.fst ∧ values = values_at pairs (key :: rest) := by
        intro key node hm rest values
        rw [mem_paths_cons, values_at_cons]
        cases node with
        | map children =>
          rw [QueryNode.leaf_paths]
          exact (ih key children hm).2 rest values
        | leaf held =>
          have hunder := hleaf key held hm
          obtain ⟨p, v, hp⟩ := (hheads key).mp (mem_map_of_mem hm)
          have hsome : [] ∈ (under key pairs).map Prod.fst := by
            have hpath := mem_under.mpr hp
            rw [hunder] at hpath ⊢
            obtain ⟨w, hw, -⟩ := mem_map.mp hpath
            exact mem_map.mpr ⟨_, mem_map_of_mem hw, rfl⟩
          simp only [QueryNode.leaf_paths, mem_singleton, Prod.mk.injEq]
          constructor
          · rintro ⟨rfl, rfl⟩
            exact ⟨hsome, (values_at_nil hunder).symm⟩
          · rintro ⟨hrest, hvalues⟩
            have hnil : held ≠ [] ∧ rest = [] := by
              rw [hunder] at hrest
              simpa using hrest
            rw [hnil.2] at hvalues ⊢
            exact ⟨rfl, hvalues.trans (values_at_nil hunder)⟩
      intro path values
      rw [mem_leaf_paths]
      constructor
      · rintro ⟨key, node, rest, hm, rfl, hrest⟩
        exact (hbelow key node hm rest values).mp hrest
      · rintro ⟨hpath, hvalues⟩
        obtain ⟨pair, hp, rfl⟩ := mem_map.mp hpath
        obtain ⟨path, value⟩ := pair
        cases path with
        | nil => exact absurd rfl (hnamed _ hp)
        | cons key rest =>
          obtain ⟨entry, hm, rfl⟩ := mem_map.mp ((hheads key).mpr ⟨rest, value, hp⟩)
          exact ⟨entry.1, entry.2, rest, hm, rfl, (hbelow entry.1 entry.2 hm rest values).mpr ⟨hpath, hvalues⟩⟩

/-! ## What can be inserted -/

/-- No path of the pairs goes through another. -/
def PrefixFree (pairs : Pairs) : Prop := ∀ one ∈ pairs, ∀ other ∈ pairs, one.1 <+: other.1 → one.1 = other.1

theorem Represents.prefix_free (hr : Represents pairs root) : PrefixFree pairs := by
  induction hr with
  | @intro pairs root _ hheads hnamed hleaf _ ih =>
    rintro ⟨one, v⟩ hone ⟨other, w⟩ hother hpre
    cases one with
    | nil => exact absurd rfl (hnamed _ hone)
    | cons key one =>
      obtain ⟨other, rfl, hrest⟩ := cons_prefix_iff.mp hpre
      obtain ⟨⟨k, node⟩, hm, rfl⟩ := mem_map.mp ((hheads key).mpr ⟨one, v, hone⟩)
      have hone' := mem_under.mpr hone
      have hother' := mem_under.mpr hother
      cases node with
      | map children => exact congrArg (k :: ·) (ih k children hm _ hone' _ hother' hrest)
      | leaf values =>
        simp only [hleaf k values hm, mem_map, Prod.mk.injEq] at hone' hother'
        obtain ⟨_, _, rfl, _⟩ := hone'
        obtain ⟨_, _, rfl, _⟩ := hother'
        rfl

theorem Represents.insert_depth {root after : Nodes} {value : Str} {depth : Nat}
    (hr : Represents pairs root) (h : insert_query_node root path value depth = .ok after) : path.length ≤ depth := by
  induction depth generalizing pairs root after path with
  | zero =>
    rw [insert_query_node] at h
    cases h
  | succ depth ih =>
    obtain ⟨hdistinct, -, -, -, hmap⟩ := hr
    cases path with
    | nil => cases h
    | cons key path =>
      obtain ⟨node, updated, hnode, hf, -, -⟩ := update_entry_ok hdistinct h
      apply Nat.succ_le_succ
      obtain ⟨_, rfl, -⟩ | ⟨children, after, hne, rfl, hi, -⟩ := update_node_ok hf
      · exact Nat.zero_le depth
      · rcases hnode with hm | ⟨-, he⟩
        · exact ih (hmap key children hm) hi
        · rw [if_neg (by simpa using hne)] at he
          cases he
          exact ih .empty hi

theorem update_entry_total {key : Str} {fresh : QueryNode} {f : QueryNode → Except TranscodeError QueryNode} {map : Nodes}
    (hf : ∀ node, ((key, node) ∈ map ∨ key ∉ map.map Prod.fst ∧ node = fresh) → ∃ updated, f node = .ok updated) :
    ∃ after, update_entry key fresh f map = .ok after := by
  induction map with
  | nil =>
    obtain ⟨updated, hu⟩ := hf fresh (.inr ⟨by simp, rfl⟩)
    refine ⟨[(key, updated)], ?_⟩
    rw [update_entry, hu]
    rfl
  | cons entry map ih =>
    obtain ⟨existing, node⟩ := entry
    rw [update_entry]
    split
    · next heq =>
      subst heq
      obtain ⟨updated, hu⟩ := hf node (.inl mem_cons_self)
      rw [hu]
      exact ⟨_, rfl⟩
    · next hne =>
      have hrest : ∃ after, update_entry key fresh f map = .ok after := by
        apply ih
        rintro node (hm | ⟨hnew, he⟩)
        · exact hf node (.inl (mem_cons_of_mem _ hm))
        · refine hf node (.inr ⟨?_, he⟩)
          simpa [Ne.symm hne] using hnew
      obtain ⟨after, hafter⟩ := hrest
      rw [hafter]
      exact ⟨_, rfl⟩

/-- A path that is not too long and that neither goes through a path of the tree nor is gone through by one. -/
theorem Represents.insert_total (hr : Represents pairs root) (value : Str)
    {depth : Nat} (hnamed : path ≠ []) (hdepth : path.length ≤ depth)
    (hfree : ∀ pair ∈ pairs, (path <+: pair.1 ∨ pair.1 <+: path) → path = pair.1) :
    ∃ after, insert_query_node root path value depth = .ok after := by
  induction depth generalizing pairs root path with
  | zero => exact absurd (length_eq_zero_iff.mp (Nat.le_zero.mp hdepth)) hnamed
  | succ depth ih =>
    cases path with
    | nil => exact absurd rfl hnamed
    | cons key path =>
      obtain ⟨-, hheads, -, hleaf, hmap⟩ := hr
      rw [insert_query_node]
      apply update_entry_total
      -- below a name, the paths that share it are free of the rest of this one
      have hbelow : ∀ pair ∈ under key pairs, (path <+: pair.1 ∨ pair.1 <+: path) → path = pair.1 := by
        intro pair hp hpre
        have := hfree _ (mem_under.mp hp) (by simpa using hpre)
        exact (List.cons.inj this).2
      have hupdate : ∀ children, path ≠ [] → Represents (under key pairs) children → ∃ updated,
          update_node path value (fun children => insert_query_node children path value depth) (.map children) = .ok updated := by
        intro children hne hc
        obtain ⟨after, hafter⟩ := ih hc hne (Nat.le_of_succ_le_succ hdepth) hbelow
        refine ⟨.map after, ?_⟩
        rw [update_node, if_neg (by simpa using hne)]
        simp only [hafter]
        rfl
      rintro node (hm | ⟨hnew, rfl⟩)
      · obtain ⟨rest, v, hp⟩ := (hheads key).mp (mem_map_of_mem hm)
        have hrest := mem_under.mpr hp
        cases node with
        | leaf values =>
          -- a leaf is at the end of a path, which this one may not go through
          have hnil : v ∈ values ∧ rest = [] := by
            rw [hleaf key values hm] at hrest
            simpa using hrest
          obtain rfl := hnil.2
          rw [hbelow _ hrest (.inr nil_prefix)]
          exact ⟨_, rfl⟩
        | map children =>
          refine hupdate children (fun hnil => ?_) (hmap key children hm)
          obtain ⟨-, -, hbelowNamed, -, -⟩ := hmap key children hm
          exact hbelowNamed _ hrest (by rw [← hbelow _ hrest (.inl (hnil ▸ nil_prefix)), hnil])
      · by_cases hnil : path = []
        · rw [hnil]
          exact ⟨_, rfl⟩
        · rw [if_neg (by simpa using hnil)]
          refine hupdate [] hnil ?_
          rw [under_eq_nil fun p v hp => hnew ((hheads key).mpr ⟨p, v, hp⟩)]
          exact .empty

/-! ## A whole query -/

/-- A decoded pair with its name split into segments. -/
def segments (pair : Str × Str) : List Str × Str := (pair.1.splitOn DOT, pair.2)

theorem Represents.insert_all {query : List (Str × Str)} (hr : Represents pairs root) :
    (∀ after, insert_all root query = .ok after → Represents (pairs ++ query.map segments) after) ∧
      ((∃ after, Overlay.insert_all root query = .ok after) ↔
        (∀ pair ∈ query, (pair.1.splitOn DOT).length ≤ MAX_QUERY_FIELD_DEPTH) ∧ PrefixFree (pairs ++ query.map segments)) := by
  induction query generalizing pairs root with
  | nil =>
    simp only [map_nil, append_nil]
    refine ⟨fun after h => ?_, fun _ => ⟨by simp, hr.prefix_free⟩, fun _ => ⟨root, rfl⟩⟩
    cases h
    exact hr
  | cons pair query ih =>
    obtain ⟨key, value⟩ := pair
    have hsplit : pairs ++ ((key, value) :: query).map segments =
        pairs ++ [(key.splitOn DOT, value)] ++ query.map segments := by simp [segments]
    rw [hsplit, Overlay.insert_all]
    cases hi : insert_query_node root (key.splitOn DOT) value MAX_QUERY_FIELD_DEPTH with
    | ok next =>
      obtain ⟨hafter, hiff⟩ := ih (hr.insert hi)
      refine ⟨hafter, hiff.trans ?_⟩
      simp [hr.insert_depth hi]
    | error error =>
      refine ⟨fun after h => (nomatch h), ⟨fun ⟨_, h⟩ => (nomatch h), ?_⟩⟩
      rintro ⟨hdepth, hfree⟩
      have hnew : (key.splitOn DOT, value) ∈ pairs ++ [(key.splitOn DOT, value)] ++ query.map segments := by simp
      obtain ⟨after, hok⟩ := hr.insert_total value (splitOn_ne_nil _ _) (hdepth _ mem_cons_self) fun pair hp hpre => by
        have hold : pair ∈ pairs ++ [(key.splitOn DOT, value)] ++ query.map segments := by simp [hp]
        rcases hpre with hpre | hpre
        · exact hfree _ hnew _ hold hpre
        · exact (hfree _ hold _ hnew hpre).symm
      rw [hi] at hok
      cases hok

theorem values_at_segments (query : List (Str × Str)) (key : Str) :
    values_at (query.map segments) (key.splitOn DOT) = (query.filter fun pair => pair.1 = key).map Prod.snd := by
  have hinj : ∀ other : Str, other.splitOn DOT = key.splitOn DOT ↔ other = key := fun other => by
    constructor
    · intro h
      have hjoin := congrArg ([DOT].intercalate ·) h
      simpa only [intercalate_splitOn] using hjoin
    · exact congrArg _
  simp [values_at, segments, filter_map, Function.comp_def, hinj]

/-- Decoded names are inserted in any order if none is too long and none goes through another, and the leaves of the
tree are then the names, each with its values in order. -/
theorem insert_all_exact (query : List (Str × Str)) :
    ((∃ root, insert_all [] query = .ok root) ↔
      (∀ pair ∈ query, (pair.1.splitOn DOT).length ≤ 64) ∧
        ∀ one ∈ query, ∀ other ∈ query,
          ¬ (one.1.splitOn DOT <+: other.1.splitOn DOT ∧ one.1.splitOn DOT ≠ other.1.splitOn DOT)) ∧
    (∀ reordered, reordered.Perm query →
      ((∃ root, insert_all [] reordered = .ok root) ↔ ∃ root, insert_all [] query = .ok root)) ∧
    ∀ root, insert_all [] query = .ok root →
      ((leaf_paths root).map Prod.fst).Nodup ∧
        ∀ path values, (path, values) ∈ leaf_paths root ↔
          ∃ key ∈ query.map Prod.fst, path = key.splitOn DOT ∧
            values = (query.filter fun pair => pair.1 = key).map Prod.snd := by
  have hiff : ∀ query : List (Str × Str), (∃ root, insert_all [] query = .ok root) ↔
      (∀ pair ∈ query, (pair.1.splitOn DOT).length ≤ 64) ∧
        ∀ one ∈ query, ∀ other ∈ query,
          ¬ (one.1.splitOn DOT <+: other.1.splitOn DOT ∧ one.1.splitOn DOT ≠ other.1.splitOn DOT) := by
    intro query
    rw [Represents.empty.insert_all.2]
    refine and_congr Iff.rfl ?_
    simp only [PrefixFree, nil_append, forall_mem_map, segments, not_and, not_not]
  refine ⟨hiff query, fun reordered hperm => ?_, fun root hroot => ?_⟩
  · rw [hiff, hiff]
    simp only [hperm.mem_iff]
  · obtain ⟨hnodup, hleaves⟩ := (Represents.empty.insert_all.1 root hroot).leaves
    refine ⟨hnodup, fun path values => ?_⟩
    rw [hleaves, nil_append]
    constructor
    · rintro ⟨hpath, rfl⟩
      simp only [map_map, mem_map, Function.comp_apply] at hpath
      obtain ⟨pair, hp, rfl⟩ := hpath
      exact ⟨pair.1, mem_map_of_mem hp, rfl, values_at_segments query pair.1⟩
    · rintro ⟨key, hkey, rfl, rfl⟩
      obtain ⟨pair, hp, rfl⟩ := mem_map.mp hkey
      exact ⟨mem_map.mpr ⟨segments pair, mem_map_of_mem hp, rfl⟩, (values_at_segments query pair.1).symm⟩

end Overlay
