import Oxidizer.Overlay.Merge
/-!
# The two paths of the overlay

On plain names the grouped query is the tree of its pairs, with a leaf for
each key: the index that replaces the search of the overlay from the ninth key
on has the position that the search finds. The body is filtered before it is
read on one path, and after it on the other.
-/

namespace Overlay

open List

open Routing (Str DOT)
open Query (PERCENT PLUS)

/-! ## The index -/

/-- Where the overlay has a key. -/
def position (overlay : List (Str × List Str)) (key : Str) : Option Nat := overlay.findIdx? fun entry => entry.1 == key

variable (overlay : List (Str × List Str))

theorem lookup_zipIdx (n : Nat) (key : Str) :
    ((overlay.zipIdx n).map fun e => (e.1.1, e.2)).lookup key = (position overlay key).map (· + n) := by
  induction overlay generalizing n with
  | nil => rfl
  | cons entry overlay ih =>
    rw [zipIdx_cons, map_cons, lookup_cons, position, findIdx?_cons]
    by_cases h : entry.1 = key
    · simp [h]
    · have h' : (key == entry.1) = false := by simpa using fun he => h he.symm
      simp only [h', beq_eq_false_iff_ne.mpr h, ih, position]
      cases overlay.findIdx? fun entry => entry.1 == key with
      | none => rfl
      | some i =>
        show some (i + (n + 1)) = some (i + 1 + n)
        congr 1
        omega

theorem position_modify (index : Nat) (f : List Str → List Str) (key : Str) :
    position (overlay.modify index fun entry => (entry.1, f entry.2)) key = position overlay key := by
  induction overlay generalizing index with
  | nil => simp [position]
  | cons entry overlay ih =>
    cases index with
    | zero => simp [position, findIdx?_cons]
    | succ index =>
      have ih := ih index
      unfold position at ih ⊢
      rw [modify_succ_cons, findIdx?_cons, findIdx?_cons, ih]

theorem names_modify (index : Nat) (f : List Str → List Str) :
    names (overlay.modify index fun entry => (entry.1, f entry.2)) = names overlay := by
  induction overlay generalizing index with
  | nil => simp
  | cons entry overlay ih =>
    cases index with
    | zero => simp [names]
    | succ index =>
      have ih := ih index
      unfold names at ih ⊢
      rw [modify_succ_cons, map_cons, map_cons, ih]

/-- The state of the grouping: an index knows the position of every key, and the names are those of the overlay. -/
structure Grouped (g : GroupedFlatQuery) : Prop where
  index : ∀ index, g.overlay_index = some index → ∀ key, index.lookup key = position g.overlay key
  norms : ∀ name, name ∈ g.query_norms ↔ name ∈ names g.overlay

variable {g : GroupedFlatQuery}

theorem Grouped.existing (hg : Grouped g) (key : Str) : g.existing key = position g.overlay key := by
  unfold GroupedFlatQuery.existing
  cases hi : g.overlay_index with
  | none => rfl
  | some index => exact hg.index index hi key

theorem Grouped.push (hg : Grouped g) (key value : Str) : Grouped (g.push key value) := by
  unfold GroupedFlatQuery.push
  rw [hg.existing]
  cases hp : position g.overlay key with
  | some i =>
    constructor
    · intro index hi k
      exact (hg.index index hi k).trans (position_modify g.overlay i (· ++ [value]) k).symm
    · intro name
      rw [names_modify _ _ (· ++ [value])]
      exact hg.norms name
  | none =>
    constructor
    · intro index hi k
      obtain ⟨before, hb, rfl⟩ := Option.map_eq_some_iff.mp hi
      -- the index before the push, whether it was there or is built now
      have hbefore : before.lookup k = position g.overlay k := by
        split at hb
        · cases hb
          have := lookup_zipIdx g.overlay 0 k
          simpa using this
        · exact hg.index before hb k
      rw [lookup_cons, hbefore]
      unfold position at hp ⊢
      rw [findIdx?_append]
      by_cases hk : k = key
      · rw [hk, hp]
        simp
      · have hk' : ¬ key = k := fun he => hk he.symm
        simp [beq_eq_false_iff_ne.mpr hk, hk']
    · intro name
      rw [mem_cons, hg.norms]
      simp only [names, map_append, mem_append, map_cons, map_nil, mem_singleton]
      exact or_comm

/-! ## The tree of plain names -/

def leaves (overlay : List (Str × List Str)) : Nodes := overlay.map fun entry => (entry.1, .leaf entry.2)

theorem update_leaves (key value : Str) (insert : Nodes → Except TranscodeError Nodes) (overlay : List (Str × List Str)) :
    update_entry key (.leaf []) (update_node [] value insert) (leaves overlay) =
      .ok (leaves (match position overlay key with
        | some index => overlay.modify index fun entry => (entry.1, entry.2 ++ [value])
        | none => overlay ++ [(key, [value])])) := by
  induction overlay with
  | nil => rfl
  | cons entry overlay ih =>
    obtain ⟨existing, values⟩ := entry
    show update_entry key (.leaf []) (update_node [] value insert) ((existing, .leaf values) :: leaves overlay) = _
    rw [update_entry, position, findIdx?_cons]
    by_cases h : existing = key
    · simp only [h, if_true, beq_self_eq_true]
      rfl
    · simp only [h, if_false, beq_eq_false_iff_ne.mpr h, ih]
      unfold position
      cases overlay.findIdx? fun entry => entry.1 == key <;> rfl

theorem insert_plain (hg : Grouped g) (key value : Str) (depth : Nat) :
    insert_query_node (leaves g.overlay) [key] value (depth + 1) = .ok (leaves (g.push key value).overlay) := by
  rw [insert_query_node]
  show update_entry key (.leaf []) _ _ = _
  rw [update_leaves]
  unfold GroupedFlatQuery.push
  rw [hg.existing]
  cases position g.overlay key <;> rfl

/-- A name in which there is nothing to split or to decode. -/
def Plain (key : Str) : Prop := DOT ∉ key ∧ PERCENT ∉ key ∧ PLUS ∉ key

theorem decode_plain {key : Str} (h : Plain key) : decode_query key = some key := by
  have hn : needs_decoding key true = false := by
    simp only [needs_decoding, any_eq_false, Bool.true_and, Bool.or_eq_true, beq_iff_eq, not_or]
    exact fun b hb => ⟨fun he => h.2.1 (he ▸ hb), fun he => h.2.2 (he ▸ hb)⟩
  simp [decode_query, decode, hn]

theorem insert_pairs_plain {query : List (Str × Str)} (hq : ∀ pair ∈ query, Plain pair.1)
    (hg : Grouped g) :
    (∃ error, group_pairs g query = .error error ∧ insert_pairs (leaves g.overlay) query = .error error) ∨
      ∃ after, group_pairs g query = .ok after ∧ Grouped after ∧
        insert_pairs (leaves g.overlay) query = .ok (leaves after.overlay) := by
  induction query generalizing g with
  | nil => exact .inr ⟨g, rfl, hg, rfl⟩
  | cons pair query ih =>
    obtain ⟨key, value⟩ := pair
    have hkey : Plain key := hq _ mem_cons_self
    have hname : decode_part "query parameter name" key = .ok key := by
      rw [decode_part, decode_plain hkey]
      rfl
    rw [group_pairs, insert_pairs, hname]
    cases hv : decode_part "query parameter value" value with
    | error error => exact .inl ⟨error, rfl, rfl⟩
    | ok decoded =>
      have hins : insert_query_node (leaves g.overlay) (key.splitOn DOT) decoded MAX_QUERY_FIELD_DEPTH =
          .ok (leaves (g.push key decoded).overlay) := by
        rw [splitOn_eq_singleton hkey.1]
        exact insert_plain hg key decoded 63
      have hrest := ih (fun pair hp => hq pair (mem_cons_of_mem _ hp)) (hg.push key decoded)
      simpa only [bind, Except.bind, hins] using hrest

/-! ## The body on both paths -/

/-- The fields of a request body: a JSON object, or nothing. -/
def HasBody (from_slice : Str → Except String RawValue) (body : Option Str) (entries : Fields) : Prop :=
  match body with
  | none => entries = []
  | some bytes => if bytes.isEmpty then entries = [] else from_slice bytes = .ok (.object entries)

theorem body_entries_ok {from_slice : Str → Except String RawValue} {body : Option Str} {entries : Fields}
    (h : HasBody from_slice body entries) (hd : (names entries).Nodup) (overrides : Option (List Str)) :
    body_entries from_slice overrides body =
      .ok (entries.filter fun field => !overrides.any (·.contains (normalized_key field.1))) := by
  cases body with
  | none =>
    obtain rfl : entries = [] := h
    rfl
  | some bytes =>
    simp only [HasBody] at h
    rw [body_entries]
    split at h
    · next hb =>
      subst h
      simp only [hb, if_true]
      rfl
    · next hb =>
      have hv := visit_fields_ok hd (fun _ _ => not_mem_nil) overrides
      simp only [hb, parse_body, h, body_top, hv]
      rfl

theorem body_entries_none {from_slice : Str → Except String RawValue} {body : Option Str} {entries : Fields}
    (h : HasBody from_slice body entries) (hd : (names entries).Nodup) : body_entries from_slice none body = .ok entries := by
  rw [body_entries_ok h hd]
  simp

theorem take_fields_nodes (body : Fields) (query : Nodes) :
    (take_fields body query).2.map (fun entry => (entry.1, entry.2.1)) = query := by
  induction query generalizing body with
  | nil => rfl
  | cons entry query ih =>
    rw [take_fields]
    split <;> exact congrArg _ (ih _)

theorem read_leaves {taken : List (Str × QueryNode × Option RawValue)} {overlay : List (Str × List Str)}
    (h : taken.map (fun entry => (entry.1, entry.2.1)) = leaves overlay) :
    taken.map (fun entry => (entry.1, read_node entry.2)) = overlay.map fun entry => (entry.1, .values entry.2) := by
  induction overlay generalizing taken with
  | nil => rw [map_eq_nil_iff.mp h, map_nil, map_nil]
  | cons entry overlay ih =>
    obtain ⟨first, taken, rfl, hfirst, hrest⟩ := map_eq_cons_iff.mp h
    obtain ⟨key, node, value⟩ := first
    obtain ⟨rfl, rfl⟩ := hfirst
    rw [map_cons, map_cons, ih hrest]
    rfl

theorem deserialize_leaves {body : Fields} (hd : (names body).Nodup) (hg : Grouped g) :
    deserialize_any body (leaves g.overlay) = PendingMap.visit_map .values
      ⟨body.filter fun field => !(some g.query_norms).any (·.contains (normalized_key field.1)), g.overlay, none⟩ := by
  show PendingMap.visit_map read_node ⟨(take_fields body _).1, (take_fields body _).2, none⟩ = _
  rw [visit_map_eq, visit_map_eq, read_leaves (take_fields_nodes body _), take_fields_rest hd]
  congr 2
  apply filter_congr
  intro field _
  have hnames : names (leaves g.overlay) = names g.overlay := by simp [names, leaves]
  simp [hnames, hg.norms]

/-! ## The overlay -/

/-- The field paths of a query with their values, decoded. -/
def query_fields (query : List (Str × Str)) : Pairs :=
  query.filterMap fun pair =>
    match decode_query pair.1, decode_query pair.2 with
    | some key, some value => some (key.splitOn DOT, value)
    | _, _ => none

theorem insert_pairs_represents {query : List (Str × Str)} {pairs : Pairs} {root after : Nodes} (hr : Represents pairs root)
    (h : insert_pairs root query = .ok after) : Represents (pairs ++ query_fields query) after := by
  induction query generalizing pairs root with
  | nil =>
    cases h
    simpa [query_fields] using hr
  | cons pair query ih =>
    obtain ⟨key, value⟩ := pair
    rw [insert_pairs] at h
    unfold decode_part at h
    cases hk : decode_query key with
    | none =>
      rw [hk] at h
      cases h
    | some k =>
      cases hv : decode_query value with
      | none =>
        rw [hk, hv] at h
        cases h
      | some v =>
        rw [hk, hv] at h
        cases hi : insert_query_node root (k.splitOn DOT) v MAX_QUERY_FIELD_DEPTH with
        | error error =>
          simp only [bind, Except.bind, pure, Except.pure, hi] at h
          cases h
        | ok next =>
          simp only [bind, Except.bind, pure, Except.pure, hi] at h
          have hstep := ih (hr.insert hi) h
          rw [append_assoc] at hstep
          simpa [query_fields, hk, hv] using hstep

/-- A query that spells each field in one way is merged into the body at every depth, and on plain names the two
paths present the same entries. -/
theorem overlay_merges (from_slice : Str → Except String RawValue) (body : Option Str) (entries : Fields)
    (hbody : HasBody from_slice body entries) (query : List (Str × Str)) :
    (∀ root, insert_pairs [] query = .ok root → Distinct (.object entries) (normal (query_fields query)) →
      Consistent (query_fields query) →
      ∃ presented, decode_tree from_slice body query = .ok presented ∧
        ∀ path, MergedAt (.object entries) (normal (query_fields query)) presented path) ∧
    ((names entries).Nodup → (∀ pair ∈ query, Plain pair.1) →
      decode_flat from_slice body query = decode_tree from_slice body query) := by
  constructor
  · intro root hroot hd hc
    have hnodup : (names entries).Nodup := hd [] entries (.inl rfl) rfl
    refine ⟨deserialize_any entries root, ?_, merged (insert_pairs_represents .empty hroot) hc hd⟩
    rw [decode_tree, body_entries_none hbody hnodup]
    simp only [decode_tree_entries, hroot]
    rfl
  · intro hnodup hplain
    rw [decode_flat, decode_tree, body_entries_none hbody hnodup, group_flat_query]
    rcases insert_pairs_plain hplain (g := ⟨[], none, []⟩) ⟨by simp, by simp [names]⟩ with
      ⟨error, hgroup, hinsert⟩ | ⟨g, hgroup, hg, hinsert⟩
    · simp only [decode_tree_entries, hgroup, show insert_pairs [] query = .error error from hinsert]
      rfl
    · simp only [decode_tree_entries, hgroup, show insert_pairs [] query = .ok (leaves g.overlay) from hinsert,
        bind, Except.bind, pure, Except.pure, body_entries_ok hbody hnodup, deserialize_leaves hnodup hg]

/-- The body `{"aB": {"c": 3}}`, with `a_b.d=1` laid over it, and with `aB=1&c=2`. -/
theorem overlay_merges_nested :
    let from_slice : Str → Except String RawValue := fun _ => .ok (.object [([97, 66], .object [([99], .other [51])])])
    let entries : Fields := [([97, 66], .object [([99], .other [51])])]
    let dotted : List (Str × Str) := [([97, 95, 98, 46, 100], [49])]
    let plain : List (Str × Str) := [([97, 66], [49]), ([99], [50])]
    (∃ presented, decode_tree from_slice (some [123]) dotted = .ok presented ∧
      ∀ path, MergedAt (.object entries) (normal (query_fields dotted)) presented path) ∧
    decode_flat from_slice (some [123]) plain = decode_tree from_slice (some [123]) plain := by
  intro from_slice entries dotted plain
  have hbody : HasBody from_slice (some [123]) entries := rfl
  have hfields : query_fields dotted = [([[97, 95, 98], [100]], [49])] := rfl
  refine ⟨(overlay_merges from_slice _ entries hbody dotted).1 _ rfl ?_ ?_,
    (overlay_merges from_slice _ entries hbody plain).2 (by decide) ?_⟩
  · rw [hfields]
    intro level fields hlevel hget
    rcases hlevel with rfl | ⟨pair, hp, hpre, hne⟩
    · cases hget
      decide
    · obtain rfl := mem_singleton.mp hp
      match level with
      | [] =>
        cases hget
        decide
      | [name] =>
        obtain ⟨rfl, -⟩ := cons_prefix_cons.mp hpre
        cases hget
        decide
      | [name, name'] =>
        obtain ⟨rfl, hrest⟩ := cons_prefix_cons.mp hpre
        obtain ⟨rfl, -⟩ := cons_prefix_cons.mp hrest
        exact absurd rfl hne
      | name :: name' :: name'' :: rest => simpa using hpre.length_le
  · rw [hfields]
    intro one hone other hother n _
    rw [mem_singleton.mp hone, mem_singleton.mp hother]
  · intro pair hp
    simp only [plain, mem_cons, not_mem_nil, or_false] at hp
    rcases hp with rfl | rfl
    · exact ⟨by decide, by decide, by decide⟩
    · exact ⟨by decide, by decide, by decide⟩

/-- A field that the query spells in both ways, `aB=1&a_b=2`, is presented twice: under the body `{}` its values are
not one field's. -/
theorem overlay_spellings_apart :
    let from_slice : Str → Except String RawValue := fun _ => .ok (.object [])
    let query : List (Str × Str) := [([97, 66], [49]), ([97, 95, 98], [50])]
    let presented : Entries := [([97, 66], .values [[49]]), ([97, 95, 98], .values [[50]])]
    HasBody from_slice (some [123, 125]) [] ∧ Distinct (.object []) (normal (query_fields query)) ∧
      (∃ root, insert_pairs [] query = .ok root) ∧ decode_tree from_slice (some [123, 125]) query = .ok presented ∧
      ¬ ∀ path, MergedAt (.object []) (normal (query_fields query)) presented path := by
  intro from_slice query presented
  have hget : ∀ level, level = [] ∨ (RawValue.object []).get level = none := by
    intro level
    cases level with
    | nil => exact .inl rfl
    | cons name level => exact .inr rfl
  refine ⟨rfl, ?_, ⟨_, rfl⟩, rfl, fun h => ?_⟩
  · intro level fields _ hfields
    rcases hget level with rfl | hnone
    · cases hfields
      exact nodup_nil
    · rw [hnone] at hfields
      cases hfields
  · have hopen : Open (.object []) (normal (query_fields query)) [[97, 66]] := by
      intro level _ _ text
      rcases hget level with rfl | hnone
      · simp [RawValue.get]
      · simp [hnone]
    have hleaf := (h [[97, 66]]).leaf (mem_map.mpr ⟨([[97, 66]], [49]), mem_cons_self, rfl⟩) hopen
    have hreads : reads presented [[97, 66]] = some (.values [[49]]) := rfl
    have hvalues : values_at (normal (query_fields query)) [[97, 66]] = [[49], [50]] := rfl
    cases hleaf

end Overlay
