import Oxidizer.Overlay.Model
/-!
# The overlay is a deep merge

The tree that the dotted names build is related to the list of pairs it was
built from, and what is read at a field path is then followed down the path:
one lemma says what is found under a name, and the merge is an induction on
the path. The path for plain names builds the same tree, whose nodes are all
leaves.
-/

namespace Overlay

open List PendingMap

open Routing (Str DOT SLASH)
open Query (PERCENT PLUS)

def names {α : Type} (fields : List (Str × α)) : List Str := fields.map fun field => normalized_key field.1

variable {α : Type} {fields : List (Str × α)}

theorem name_mem_names {field : Str × α} (h : field ∈ fields) :
    normalized_key field.1 ∈ names fields := List.mem_map_of_mem h

theorem names_nodup_cons {field : Str × α} :
    (names (field :: fields)).Nodup ↔ normalized_key field.1 ∉ names fields ∧ (names fields).Nodup := List.nodup_cons

/-! ## What the access presents -/

theorem visit_query {Q : Type} (read : Q → Presented) (query : List (Str × Q)) (pending : Option (RawValue ⊕ Q)) (n : Nat)
    (hn : query.length ≤ n) :
    PendingMap.visit read n ⟨[], query, pending⟩ = query.map fun entry => (entry.1, read entry.2) := by
  induction n generalizing query pending with
  | zero =>
    rw [length_eq_zero_iff.mp (Nat.le_zero.mp hn)]
    rfl
  | succ n ih =>
    cases query with
    | nil => rfl
    | cons entry query =>
      show (entry.1, read entry.2) :: visit read n ⟨[], query, none⟩ = _
      rw [ih query none (by simpa using hn), map_cons]

theorem visit_map_eq {Q : Type} (read : Q → Presented) (body : Fields) (query : List (Str × Q))
    (pending : Option (RawValue ⊕ Q)) :
    PendingMap.visit_map read ⟨body, query, pending⟩ =
      body.map (fun field => (field.1, .raw field.2)) ++ query.map fun entry => (entry.1, read entry.2) := by
  unfold visit_map
  induction body generalizing pending with
  | nil => exact visit_query read query pending _ (by simp)
  | cons field body ih =>
    rw [length_cons, Nat.succ_add]
    show (field.1, Presented.raw field.2) :: visit read _ ⟨body, query, none⟩ = _
    rw [ih none, map_cons, cons_append]

variable {name : Str}

theorem erase_named (hd : (names fields).Nodup) {index : Nat}
    (h : fields.findIdx? (fun field => normalized_key field.1 == name) = some index) :
    fields.eraseIdx index = fields.filter (fun field => normalized_key field.1 != name) ∧
      fields[index]? = fields.find? fun field => normalized_key field.1 == name := by
  induction fields generalizing index with
  | nil => cases h
  | cons field fields ih =>
    have hd' := names_nodup_cons.mp hd
    rw [findIdx?_cons] at h
    split at h
    · next heq =>
      cases h
      have hrest : fields.filter (fun f => normalized_key f.1 != name) = fields := by
        rw [filter_eq_self]
        intro f hf
        have hne : normalized_key f.1 ≠ normalized_key field.1 := fun he => hd'.1 (he ▸ name_mem_names hf)
        simpa [beq_iff_eq.mp heq] using hne
      constructor
      · rw [eraseIdx_cons_zero, filter_cons_of_neg (by simpa using heq), hrest]
      · rw [find?_cons, heq, getElem?_cons_zero]
    · next hne =>
      obtain ⟨i, hi, rfl⟩ := Option.map_eq_some_iff.mp h
      obtain ⟨herase, hget⟩ := ih hd'.2 hi
      constructor
      · rw [eraseIdx_cons_succ, herase, filter_cons_of_pos (by simpa using hne)]
      · rw [find?_cons, Bool.eq_false_iff.mpr hne, getElem?_cons_succ, hget]

theorem filter_names_nodup (hd : (names fields).Nodup) (p : Str × α → Bool) :
    (names (fields.filter p)).Nodup := hd.sublist (List.filter_sublist.map _)

variable {body : Fields}

variable (hd : (names body).Nodup)
include hd

theorem take_fields_rest (query : Nodes) :
    (take_fields body query).1 = body.filter fun field => !(names query).contains (normalized_key field.1) := by
  induction query generalizing body with
  | nil => simp [take_fields, names]
  | cons entry query ih =>
    rw [take_fields]
    split
    · next index h =>
      obtain ⟨herase, -⟩ := erase_named hd h
      rw [herase, ih (filter_names_nodup hd _), filter_filter]
      apply filter_congr
      intro field _
      simp [names, Bool.and_comm, bne]
    · next h =>
      rw [ih hd]
      apply filter_congr
      intro field hf
      have hne : ¬ normalized_key field.1 = normalized_key entry.1 := by
        simpa using findIdx?_eq_none_iff.mp h field hf
      simp [names, hne]

variable {query : Nodes}

theorem take_fields_taken (hq : (names query).Nodup) :
    (take_fields body query).2 = query.map fun entry => (entry.1, entry.2,
      (body.find? fun field => normalized_key field.1 == normalized_key entry.1).map Prod.snd) := by
  induction query generalizing body with
  | nil => rfl
  | cons entry query ih =>
    have hq' := names_nodup_cons.mp hq
    rw [take_fields]
    split
    · next index h =>
      dsimp only
      obtain ⟨herase, hget⟩ := erase_named hd h
      rw [herase, hget, ih (filter_names_nodup hd _) hq'.2, map_cons]
      congr 1
      apply map_congr_left
      intro other hother
      -- what is taken out has another name than the fields that follow
      have hne : normalized_key other.1 ≠ normalized_key entry.1 := fun he => hq'.1 (he ▸ name_mem_names hother)
      rw [find?_filter]
      congr 4
      funext field
      by_cases hf : normalized_key field.1 = normalized_key other.1
      · simp [hf, hne]
      · simp [hf]
    · next h =>
      dsimp only
      rw [ih hd hq'.2, map_cons]
      congr 3
      rw [findIdx?_eq_none_iff] at h
      exact (Option.map_eq_none_iff.mpr (find?_eq_none.mpr fun f hf => by simp [h f hf])).symm

theorem deserialize_any_eq (hq : (names query).Nodup) :
    deserialize_any body query =
      (body.filter fun field => !(names query).contains (normalized_key field.1)).map (fun field => (field.1, .raw field.2)) ++
        query.map fun entry => (entry.1, read_node (entry.2,
          (body.find? fun field => normalized_key field.1 == normalized_key entry.1).map Prod.snd)) := by
  show visit_map read_node ⟨(take_fields body query).1, (take_fields body query).2, none⟩ = _
  rw [visit_map_eq, take_fields_rest hd, take_fields_taken hd hq, map_map]
  rfl

/-- The entry of a name: that of the query, with the body's value, or else that of the body. -/
theorem find_presented (hq : (names query).Nodup) (name : Str) :
    ((deserialize_any body query).find? fun entry => normalized_key entry.1 == name) =
      match query.find? fun entry => normalized_key entry.1 == name with
      | some (key, node) => some (key, read_node (node,
          (body.find? fun field => normalized_key field.1 == name).map Prod.snd))
      | none => (body.find? fun field => normalized_key field.1 == name).map fun field => (field.1, .raw field.2) := by
  rw [deserialize_any_eq hd hq, find?_append, find?_map, find?_map, find?_filter]
  simp only [Function.comp_def]
  cases hf : query.find? fun entry => normalized_key entry.1 == name with
  | some entry =>
    have hname : normalized_key entry.1 = name := by simpa using find?_some hf
    have hmem : name ∈ names query := hname ▸ name_mem_names (mem_of_find?_eq_some hf)
    have hnone : (body.find? fun field => (!(names query).contains (normalized_key field.1)) &&
        normalized_key field.1 == name) = none := by
      rw [find?_eq_none]
      intro field _ hfield
      simp only [Bool.and_eq_true, Bool.not_eq_true', beq_iff_eq] at hfield
      rw [hfield.2] at hfield
      simp [hmem] at hfield
    simp only [Bool.decide_and, Bool.decide_eq_true] at hnone ⊢
    rw [hnone]
    simp [hname]
  | none =>
    have hnot : name ∉ names query := by
      intro hmem
      obtain ⟨entry, hentry, he⟩ := mem_map.mp hmem
      have := find?_eq_none.mp hf entry hentry
      simp [he] at this
    have hsame : (body.find? fun field => decide ((!(names query).contains (normalized_key field.1)) = true ∧
        (normalized_key field.1 == name) = true)) = body.find? fun field => normalized_key field.1 == name := by
      congr 1
      funext field
      by_cases h : normalized_key field.1 = name
      · simp [h, hnot]
      · simp [h]
    rw [hsame]
    simp

/-! ## The tree of the dotted names -/

omit hd

/-- Field paths with the value given to each, in the order of the query. -/
abbrev Pairs := List (List Str × Str)

/-- The pairs below a name, with the rest of their paths. -/
def under (name : Str) (pairs : Pairs) : Pairs :=
  pairs.filterMap fun pair => match pair.1 with
    | [] => none
    | key :: path => if key = name then some (path, pair.2) else none

variable {pairs : Pairs}

variable {path : List Str}

variable {value : Str}

theorem mem_under :
    (path, value) ∈ under name pairs ↔ (name :: path, value) ∈ pairs := by
  unfold under
  rw [mem_filterMap]
  constructor
  · rintro ⟨⟨full, v⟩, hmem, h⟩
    cases full with
    | nil => cases h
    | cons key rest =>
      by_cases hk : key = name
      · simp only [hk, if_true, Option.some.injEq, Prod.mk.injEq] at h
        rw [← hk, ← h.1, ← h.2] at *
        exact hmem
      · simp [hk] at h
  · exact fun h => ⟨(name :: path, value), h, by simp⟩

theorem under_append (name : Str) (pairs more : Pairs) : under name (pairs ++ more) = under name pairs ++ under name more :=
  filterMap_append

@[simp] theorem under_self (name : Str) (path : List Str) (value : Str) : under name [(name :: path, value)] = [(path, value)] := by
  simp [under]

variable {key : Str}

theorem under_other {name : Str} (h : key ≠ name) (path : List Str) (value : Str) :
    under name [(key :: path, value)] = [] := by
  simp [under, h]

theorem under_eq_nil (h : ∀ path value, (name :: path, value) ∉ pairs) : under name pairs = [] :=
  eq_nil_iff_forall_not_mem.mpr fun pair hp => h pair.1 pair.2 (mem_under.mp hp)

/-- A tree that holds exactly these pairs: a leaf has the values of its path in order. -/
inductive Represents : Pairs → Nodes → Prop where
  | intro {pairs : Pairs} {root : Nodes} (distinct : (root.map Prod.fst).Nodup)
      (heads : ∀ key, key ∈ root.map Prod.fst ↔ ∃ path value, (key :: path, value) ∈ pairs)
      (named : ∀ pair ∈ pairs, pair.1 ≠ [])
      (leaf : ∀ key values, (key, QueryNode.leaf values) ∈ root → under key pairs = values.map fun value => ([], value))
      (map : ∀ key children, (key, QueryNode.map children) ∈ root → Represents (under key pairs) children) :
      Represents pairs root

theorem Represents.empty : Represents [] [] :=
  .intro nodup_nil (by simp) (by simp) (by simp) (by simp)

theorem update_entry_ok {fresh : QueryNode} {f : QueryNode → Except TranscodeError QueryNode} {map after : Nodes}
    (hd : (map.map Prod.fst).Nodup) (h : update_entry key fresh f map = .ok after) :
    ∃ node updated, ((key, node) ∈ map ∨ key ∉ map.map Prod.fst ∧ node = fresh) ∧ f node = .ok updated ∧
      (after.map Prod.fst).Nodup ∧ ∀ entry, entry ∈ after ↔ entry = (key, updated) ∨ entry.1 ≠ key ∧ entry ∈ map := by
  induction map generalizing after with
  | nil =>
    cases hf : f fresh with
    | error e =>
      simp only [update_entry, hf] at h
      cases h
    | ok updated =>
      simp only [update_entry, hf] at h
      cases h
      exact ⟨fresh, updated, .inr ⟨by simp, rfl⟩, hf, by simp, by simp⟩
  | cons head map ih =>
    obtain ⟨existing, node⟩ := head
    have hd' := nodup_cons.mp hd
    rw [update_entry] at h
    split at h
    · next heq =>
      subst heq
      cases hf : f node with
      | error e =>
        rw [hf] at h
        cases h
      | ok updated =>
        rw [hf] at h
        cases h
        refine ⟨node, updated, .inl (by simp), hf, hd, fun entry => ?_⟩
        have hother : entry ∈ map → entry.1 ≠ existing := fun hm he => hd'.1 (mem_map.mpr ⟨entry, hm, he⟩)
        simp only [mem_cons]
        constructor
        · exact fun he => he.imp id fun hm => ⟨hother hm, .inr hm⟩
        · rintro (he | ⟨hne, he | hm⟩)
          · exact .inl he
          · exact absurd (congrArg Prod.fst he) hne
          · exact .inr hm
    · next hne =>
      cases hu : update_entry key fresh f map with
      | error e =>
        rw [hu] at h
        cases h
      | ok rest =>
        rw [hu] at h
        cases h
        obtain ⟨old, updated, hold, hf, hnodup, hmem⟩ := ih hd'.2 hu
        refine ⟨old, updated, ?_, hf, ?_, fun entry => ?_⟩
        · refine hold.imp (mem_cons_of_mem _) fun hnew => ⟨?_, hnew.2⟩
          simpa using ⟨fun he => hne he.symm, by simpa using hnew.1⟩
        · apply nodup_cons.mpr
          refine ⟨fun hin => ?_, hnodup⟩
          obtain ⟨entry, hentry, he⟩ := mem_map.mp hin
          rcases (hmem entry).mp hentry with rfl | ⟨-, hm⟩
          · exact hne he.symm
          · exact hd'.1 (mem_map.mpr ⟨entry, hm, he⟩)
        · simp only [mem_cons, hmem]
          constructor
          · rintro (rfl | he | ⟨hk, hm⟩)
            · exact .inr ⟨hne, .inl rfl⟩
            · exact .inl he
            · exact .inr ⟨hk, .inr hm⟩
          · rintro (he | ⟨hk, rfl | hm⟩)
            · exact .inr (.inl he)
            · exact .inl rfl
            · exact .inr (.inr ⟨hk, hm⟩)

theorem update_node_ok {node updated : QueryNode}
    {insert : Nodes → Except TranscodeError Nodes} (h : update_node path value insert node = .ok updated) :
    (∃ values, path = [] ∧ node = .leaf values ∧ updated = .leaf (values ++ [value])) ∨
      ∃ children after, path ≠ [] ∧ node = .map children ∧ insert children = .ok after ∧ updated = .map after := by
  unfold update_node at h
  split at h
  · next hp =>
    cases node with
    | leaf values =>
      cases h
      exact .inl ⟨values, List.isEmpty_iff.mp hp, rfl, rfl⟩
    | map children => cases h
  · next hp =>
    cases node with
    | leaf values => cases h
    | map children =>
      cases hi : insert children with
      | error e =>
        simp only [hi] at h
        cases h
      | ok after =>
        simp only [hi] at h
        cases h
        exact .inr ⟨children, after, fun he => hp (by simp [he]), rfl, hi, rfl⟩

variable {root : Nodes}

theorem Represents.insert {after : Nodes} {depth : Nat}
    (hr : Represents pairs root) (h : insert_query_node root path value depth = .ok after) :
    Represents (pairs ++ [(path, value)]) after := by
  induction depth generalizing pairs root after path with
  | zero =>
    rw [insert_query_node] at h
    cases h
  | succ depth ih =>
    obtain ⟨hdistinct, hheads, hnamed, hleaf, hmap⟩ := hr
    cases path with
    | nil => cases h
    | cons key path =>
      obtain ⟨node, updated, hnode, hf, hnodup, hmem⟩ := update_entry_ok hdistinct h
      have hfresh : key ∉ root.map Prod.fst → under key pairs = [] := fun hk =>
        under_eq_nil fun p v hp => hk ((hheads key).mpr ⟨p, v, hp⟩)
      have hkey : under key (pairs ++ [(key :: path, value)]) = under key pairs ++ [(path, value)] := by
        rw [under_append, under_self]
      have hother : ∀ k ≠ key, under k (pairs ++ [(key :: path, value)]) = under k pairs := fun k hk => by
        rw [under_append, under_other (Ne.symm hk), append_nil]
      refine .intro hnodup (fun k => ?_) ?_ (fun k values hk => ?_) (fun k children hk => ?_)
      · constructor
        · intro hk
          obtain ⟨entry, hentry, rfl⟩ := mem_map.mp hk
          rcases (hmem entry).mp hentry with rfl | ⟨-, hm⟩
          · exact ⟨path, value, by simp⟩
          · obtain ⟨p, v, hp⟩ := (hheads entry.1).mp (mem_map_of_mem hm)
            exact ⟨p, v, mem_append_left _ hp⟩
        · rintro ⟨p, v, hp⟩
          by_cases hk : k = key
          · exact mem_map.mpr ⟨(key, updated), (hmem _).mpr (.inl rfl), hk.symm⟩
          · have hold : (k :: p, v) ∈ pairs := by simpa [hk] using hp
            obtain ⟨entry, hentry, he⟩ := mem_map.mp ((hheads k).mpr ⟨p, v, hold⟩)
            exact mem_map.mpr ⟨entry, (hmem entry).mpr (.inr ⟨he ▸ hk, hentry⟩), he⟩
      · intro pair hpair
        rcases mem_append.mp hpair with hp | hp
        · exact hnamed pair hp
        · rw [mem_singleton.mp hp]
          exact cons_ne_nil _ _
      · rcases (hmem _).mp hk with he | ⟨hne, hm⟩
        · cases he
          obtain ⟨old, rfl, rfl, he⟩ | ⟨_, _, _, _, _, he⟩ := update_node_ok hf
          · cases he
            -- the values of a fresh leaf start empty, and so do the pairs below its name
            have hold : under key pairs = old.map fun v => ([], v) := by
              rcases hnode with hm | ⟨hnew, he⟩
              · exact hleaf key old hm
              · cases he
                exact hfresh hnew
            rw [hkey, hold, map_append]
            rfl
          · cases he
        · rw [hother k hne]
          exact hleaf k values hm
      · rcases (hmem _).mp hk with he | ⟨hne, hm⟩
        · cases he
          obtain ⟨_, _, _, he⟩ | ⟨old, new, hp, rfl, hi, he⟩ := update_node_ok hf
          · cases he
          · cases he
            rw [hkey]
            refine ih ?_ hi
            rcases hnode with hm | ⟨hnew, he⟩
            · exact hmap key old hm
            · rw [hfresh hnew]
              rw [if_neg (by simpa using hp)] at he
              cases he
              exact .empty
        · rw [hother k hne]
          exact hmap k children hm

/-! ## The deep merge -/

/-- A level at which body and query are merged: the top, or a path that the query goes through. -/
def Level (pairs : Pairs) (path : List Str) : Prop := path = [] ∨ ∃ pair ∈ pairs, path <+: pair.1 ∧ path ≠ pair.1

/-- On the way down a path, the body has no scalar or array where it is merged with the query. -/
def Open (body : RawValue) (pairs : Pairs) (path : List Str) : Prop :=
  ∀ level, level <+: path → Level pairs level → ∀ text, body.get level ≠ some (.other text)

def values_at (pairs : Pairs) (path : List Str) : List Str := (pairs.filter fun pair => pair.1 = path).map Prod.snd

/-- What the merge of a body with the pairs of a query has at one path of normalized names. -/
structure MergedAt (body : RawValue) (pairs : Pairs) (presented : Entries) (path : List Str) : Prop where
  leaf : path ∈ pairs.map Prod.fst → Open body pairs path → reads presented path = some (.values (values_at pairs path))
  level : Level pairs path → Open body pairs path →
    ∃ entries, reads presented path = some (.message entries) ∧ (names entries).Nodup
  beneath : ∀ pair ∈ pairs, pair.1 <+: path → pair.1 ≠ path → Open body pairs path → reads presented path = none
  kept : ¬ Level pairs path → (∀ pair ∈ pairs, ¬ pair.1 <+: path) → Open body pairs path →
    reads presented path = (body.get path).map .raw
  rejected : ¬ Open body pairs path → ∃ error, reads presented path = some (.error error)

/-- No two fields of the body have one name at a level that is merged. -/
def Distinct (body : RawValue) (pairs : Pairs) : Prop :=
  ∀ level fields, Level pairs level → body.get level = some (.object fields) → (names fields).Nodup

/-- The query spells a field in one way wherever it names it. -/
def Consistent (pairs : Pairs) : Prop :=
  ∀ one ∈ pairs, ∀ other ∈ pairs, ∀ n, (one.1.take n).map normalized_key = (other.1.take n).map normalized_key →
    one.1.take n = other.1.take n

/-- The pairs with their names normalized. -/
def normal (pairs : Pairs) : Pairs := pairs.map fun pair => (pair.1.map normalized_key, pair.2)

theorem Consistent.under (hc : Consistent pairs) (key : Str) : Consistent (under key pairs) := by
  intro one hone other hother n h
  have := hc _ (mem_under.mp hone) _ (mem_under.mp hother) (n + 1) (by simpa using h)
  simpa using this

theorem Consistent.head (hc : Consistent pairs) {key' : Str} {path path' : List Str} {v v' : Str}
    (h : (key :: path, v) ∈ pairs) (h' : (key' :: path', v') ∈ pairs) (he : normalized_key key = normalized_key key') :
    key = key' := by
  simpa using hc _ h _ h' 1 (by simpa using he)

theorem under_normal (hc : Consistent pairs)
    (hk : (key :: path, value) ∈ pairs) : under (normalized_key key) (normal pairs) = normal (under key pairs) := by
  unfold under normal
  rw [filterMap_map, map_filterMap]
  apply filterMap_congr
  rintro ⟨p, v⟩ hp
  cases p with
  | nil => rfl
  | cons k p =>
    by_cases he : normalized_key k = normalized_key key
    · rw [hc.head hp hk he]
      simp
    · have hne : k ≠ key := fun h => he (congrArg normalized_key h)
      simp [he, hne]

theorem under_normal_none
    (h : ∀ key path value, (key :: path, value) ∈ pairs → normalized_key key ≠ name) : under name (normal pairs) = [] := by
  apply under_eq_nil
  intro path value hmem
  obtain ⟨⟨p, v⟩, hp, he⟩ := mem_map.mp hmem
  cases p with
  | nil => simp at he
  | cons key p =>
    simp only [map_cons, Prod.mk.injEq, List.cons.injEq] at he
    exact h key p v hp he.1.1

theorem Represents.names_nodup (hr : Represents pairs root) (hc : Consistent pairs) :
    (names root).Nodup := by
  obtain ⟨hdistinct, hheads, -, -, -⟩ := hr
  have he : names root = (root.map Prod.fst).map normalized_key := by simp [names]
  rw [he]
  apply List.Nodup.map_on _ hdistinct
  intro key hkey key' hkey' h
  obtain ⟨p, v, hp⟩ := (hheads key).mp hkey
  obtain ⟨p', v', hp'⟩ := (hheads key').mp hkey'
  exact hc.head hp hp' h

/-! ### One name down -/

theorem values_at_cons (pairs : Pairs) (name : Str) (path : List Str) :
    values_at pairs (name :: path) = values_at (under name pairs) path := by
  induction pairs with
  | nil => rfl
  | cons pair pairs ih =>
    have happ : ∀ p q : Pairs, ∀ l, values_at (p ++ q) l = values_at p l ++ values_at q l := by simp [values_at]
    rw [← singleton_append, under_append, happ, happ, ih]
    congr 1
    obtain ⟨p, v⟩ := pair
    cases p with
    | nil => simp [values_at, under]
    | cons key p =>
      by_cases hk : key = name
      · by_cases hp : p = path <;> simp [hk, hp, values_at]
      · rw [under_other hk]
        simp [values_at, hk]

theorem mem_paths_cons :
    name :: path ∈ pairs.map Prod.fst ↔ path ∈ (under name pairs).map Prod.fst := by
  simp [mem_under]

theorem level_cons :
    Level pairs (name :: path) ↔ ∃ pair ∈ under name pairs, path <+: pair.1 ∧ path ≠ pair.1 := by
  constructor
  · rintro (h | ⟨⟨p, v⟩, hp, hpre, hne⟩)
    · cases h
    · cases p with
      | nil => simp at hpre
      | cons key p =>
        obtain ⟨rfl, hrest⟩ := cons_prefix_cons.mp hpre
        exact ⟨(p, v), mem_under.mpr hp, hrest, fun he => hne (congrArg _ he)⟩
  · rintro ⟨⟨p, v⟩, hp, hpre, hne⟩
    exact .inr ⟨_, mem_under.mp hp, cons_prefix_cons.mpr ⟨rfl, hpre⟩, fun he => hne (List.cons.inj he).2⟩

/-- The value of a name among the fields of a body. -/
def value_of (body : Fields) (name : Str) : Option RawValue :=
  (body.find? fun field => normalized_key field.1 == name).map Prod.snd

theorem get_cons (body : Fields) (name : Str) (path : List Str) :
    (RawValue.object body).get (name :: path) = (value_of body name).bind fun value => value.get path := by
  rw [RawValue.get, value_of]
  cases body.find? fun field => normalized_key field.1 == name <;> rfl

/-- The fields that a value has to merge with: none when it is absent or null. -/
def fields_of : Option RawValue → Fields
  | some (.object fields) => fields
  | _ => []

section

variable {body : Fields} {pairs : Pairs} {name : Str}

variable (hb : ∀ text, value_of body name ≠ some (.other text))
include hb

theorem get_below (n : Str) (path : List Str) :
    (RawValue.object body).get (name :: n :: path) = (RawValue.object (fields_of (value_of body name))).get (n :: path) := by
  rw [get_cons]
  cases hv : value_of body name with
  | none => rfl
  | some value =>
    cases value with
    | null => rfl
    | object fields => rfl
    | other text => exact absurd hv (hb text)

variable (hsome : under name pairs ≠ [])
include hsome

omit hb in
theorem level_below (hne : ∀ pair ∈ under name pairs, pair.1 ≠ []) (path : List Str) :
    Level pairs (name :: path) ↔ Level (under name pairs) path := by
  rw [level_cons]
  refine ⟨.inr, fun h => h.elim ?_ id⟩
  rintro rfl
  obtain ⟨pair, hp⟩ := exists_mem_of_ne_nil _ hsome
  exact ⟨pair, hp, nil_prefix, fun he => hne pair hp he.symm⟩

theorem open_below
    (hne : ∀ pair ∈ under name pairs, pair.1 ≠ []) (path : List Str) :
    Open (.object body) pairs (name :: path) ↔ Open (.object (fields_of (value_of body name))) (under name pairs) path := by
  constructor
  · intro h level hpre hlevel text
    cases level with
    | nil => simp [RawValue.get]
    | cons n level =>
      rw [← get_below hb]
      exact h _ (cons_prefix_cons.mpr ⟨rfl, hpre⟩) ((level_below hsome hne _).mpr hlevel) text
  · intro h level hpre hlevel text
    match level with
    | [] => simp [RawValue.get]
    | [n] =>
      obtain ⟨rfl, -⟩ := cons_prefix_cons.mp hpre
      rw [get_cons]
      cases hv : value_of body n with
      | none => simp
      | some value => simpa [RawValue.get, hv] using hb text
    | n :: n' :: level =>
      obtain ⟨rfl, hrest⟩ := cons_prefix_cons.mp hpre
      rw [get_below hb]
      exact h _ hrest ((level_below hsome hne _).mp hlevel) text

theorem distinct_below
    (hne : ∀ pair ∈ under name pairs, pair.1 ≠ []) (hd : Distinct (.object body) pairs) :
    Distinct (.object (fields_of (value_of body name))) (under name pairs) := by
  intro level fields hlevel hget
  cases level with
  | nil =>
    cases hget
    cases hv : value_of body name with
    | none => exact nodup_nil
    | some value =>
      cases value with
      | object fields =>
        refine hd [name] fields ((level_below hsome hne []).mpr (.inl rfl)) ?_
        rw [get_cons, hv]
        rfl
      | _ => exact nodup_nil
  | cons n level => exact hd _ fields ((level_below hsome hne _).mpr hlevel) (by rw [get_below hb, hget])

theorem MergedAt.below
    (hne : ∀ pair ∈ under name pairs, pair.1 ≠ []) (hnamed : ∀ pair ∈ pairs, pair.1 ≠ [])
    {presented entries : Entries} (hreads : reads presented (name :: path) = reads entries path)
    (h : MergedAt (.object (fields_of (value_of body name))) (under name pairs) entries path) :
    MergedAt (.object body) pairs presented (name :: path) := by
  have hopen := open_below hb hsome hne path
  have hlevel := level_below hsome hne path
  refine ⟨fun hp ho => ?_, fun hl ho => ?_, fun pair hp hpre hneq ho => ?_, fun hl hpre ho => ?_, fun ho => ?_⟩
  · rw [hreads, values_at_cons]
    exact h.leaf (mem_paths_cons.mp hp) (hopen.mp ho)
  · rw [hreads]
    exact h.level (hlevel.mp hl) (hopen.mp ho)
  · obtain ⟨p, v⟩ := pair
    cases p with
    | nil => exact absurd rfl (hnamed _ hp)
    | cons key p =>
      obtain ⟨rfl, hrest⟩ := cons_prefix_cons.mp hpre
      rw [hreads]
      exact h.beneath (p, v) (mem_under.mpr hp) hrest (fun he => hneq (congrArg _ he)) (hopen.mp ho)
  · rw [hreads, h.kept (fun hl' => hl (hlevel.mpr hl')) (fun pair hp hp' => ?_) (hopen.mp ho)]
    · cases path with
      | nil => exact absurd (hlevel.mpr (.inl rfl)) hl
      | cons n path => rw [get_below hb]
    · exact hpre (name :: pair.1, pair.2) (mem_under.mp hp) (cons_prefix_cons.mpr ⟨rfl, hp'⟩)
  · rw [hreads]
    exact h.rejected fun ho' => ho (hopen.mpr ho')

end

/-! ### All the way down -/

theorem visit_fields_ok {seen : List Str} {fields : Fields} (hd : (names fields).Nodup)
    (hseen : ∀ name ∈ names fields, name ∉ seen) (overrides : Option (List Str)) :
    visit_fields overrides seen fields =
      .ok (fields.filter fun field => !overrides.any (·.contains (normalized_key field.1))) := by
  induction fields generalizing seen with
  | nil => rfl
  | cons field fields ih =>
    obtain ⟨key, value⟩ := field
    have hd' := names_nodup_cons.mp hd
    have hnot : seen.contains (normalized_key key) = false := by
      simpa using hseen _ (name_mem_names mem_cons_self)
    have hrest : ∀ name ∈ names fields, name ∉ normalized_key key :: seen := by
      intro name hname hin
      rcases mem_cons.mp hin with rfl | hin
      · exact hd'.1 hname
      · exact hseen name (mem_cons_of_mem _ hname) hin
    rw [visit_fields, filter_cons]
    simp only [hnot, ih hd'.2 hrest]
    cases overrides.any (·.contains (normalized_key key)) <;> rfl

theorem body_top_ok {fields : Fields} (hd : (names fields).Nodup) : body_top none (.object fields) = .ok fields := by
  rw [body_top, visit_fields_ok hd (by simp)]
  simp

theorem read_map (children : Nodes) {value : Option RawValue} (hb : ∀ text, value ≠ some (.other text))
    (hd : ∀ fields, value = some (.object fields) → (names fields).Nodup) :
    read_node (.map children, value) = .tree (fields_of value) children := by
  cases value with
  | none => rfl
  | some value =>
    cases value with
    | null => rfl
    | object fields => simp only [read_node, body_top_ok (hd fields rfl), fields_of]
    | other text => exact absurd rfl (hb text)

theorem named_normal (h : ∀ pair ∈ pairs, pair.1 ≠ []) : ∀ pair ∈ normal pairs, pair.1 ≠ [] := by
  intro pair hp
  obtain ⟨pair', hp', rfl⟩ := mem_map.mp hp
  simpa using h pair' hp'

theorem presented_nodup (hd : (names body).Nodup) (hq : (names root).Nodup) :
    (names (deserialize_any body root)).Nodup := by
  rw [deserialize_any_eq hd hq]
  unfold names at *
  rw [map_append, map_map, map_map]
  apply List.Nodup.append
  · exact filter_names_nodup hd _
  · exact hq
  · intro name hbody hroot
    obtain ⟨field, hf, rfl⟩ := mem_map.mp hbody
    have hkeep := (mem_filter.mp hf).2
    simp only [Bool.not_eq_true', contains_eq_mem, decide_eq_false_iff_not] at hkeep
    exact hkeep hroot

variable {presented : Entries}

theorem open_of_no_level (hlevel : ∀ path, ¬Level pairs (name :: path)) : Open (.object body) pairs (name :: path) := by
  intro level hpre hl text
  cases level with
  | nil => simp [RawValue.get]
  | cons n level =>
    obtain ⟨rfl, -⟩ := cons_prefix_cons.mp hpre
    exact absurd hl (hlevel level)

theorem MergedAt.outside (hnamed : ∀ pair ∈ pairs, pair.1 ≠ [])
    (hnone : under name pairs = [])
    (hreads : reads presented (name :: path) = ((RawValue.object body).get (name :: path)).map .raw) :
    MergedAt (.object body) pairs presented (name :: path) := by
  have hlevel : ∀ path, ¬ Level pairs (name :: path) := fun path h => by
    obtain ⟨pair, hp, -⟩ := level_cons.mp h
    simp [hnone] at hp
  refine ⟨fun hp _ => ?_, fun hl _ => absurd hl (hlevel _), fun pair hp hpre _ _ => ?_, fun _ _ _ => hreads,
    fun ho => absurd (open_of_no_level hlevel) ho⟩
  · have := mem_paths_cons.mp hp
    simp [hnone] at this
  · obtain ⟨p, v⟩ := pair
    cases p with
    | nil => exact absurd rfl (hnamed _ hp)
    | cons key p =>
      obtain ⟨rfl, -⟩ := cons_prefix_cons.mp hpre
      have := mem_under.mpr hp
      simp [hnone] at this

theorem MergedAt.at_leaf (hnamed : ∀ pair ∈ pairs, pair.1 ≠ []) (values : List Str)
    (hleaf : under name pairs = values.map fun value => ([], value)) (hsome : values ≠ [])
    (hreads : reads presented (name :: path) = if path = [] then some (.values values) else none) :
    MergedAt (.object body) pairs presented (name :: path) := by
  have hmem : ∀ p v, (name :: p, v) ∈ pairs → p = [] := fun p v hp => by
    have hu := mem_under.mpr hp
    rw [hleaf] at hu
    simp at hu
    exact hu.2
  have hlevel : ∀ path, ¬ Level pairs (name :: path) := fun path h => by
    obtain ⟨⟨p, v⟩, hp, hpre, hne⟩ := level_cons.mp h
    obtain rfl := hmem p v (mem_under.mp hp)
    exact hne (prefix_nil.mp hpre)
  refine ⟨fun hp _ => ?_, fun hl _ => absurd hl (hlevel _), fun pair hp hpre hne _ => ?_, fun _ hpre _ => ?_,
    fun ho => absurd (open_of_no_level hlevel) ho⟩
  · have hpath : path = [] := by
      obtain ⟨pair, hpair, he⟩ := mem_map.mp (mem_paths_cons.mp hp)
      exact he ▸ hmem pair.1 pair.2 (mem_under.mp hpair)
    subst hpath
    rw [hreads, if_pos rfl, values_at_cons, hleaf]
    simp [values_at, filter_map, Function.comp_def]
  · obtain ⟨p, v⟩ := pair
    cases p with
    | nil => exact absurd rfl (hnamed _ hp)
    | cons key p =>
      obtain ⟨rfl, -⟩ := cons_prefix_cons.mp hpre
      obtain rfl := hmem p v hp
      rw [hreads, if_neg fun he => hne (by rw [he])]
  · obtain ⟨value, hv⟩ := exists_mem_of_ne_nil _ hsome
    have hp : ([], value) ∈ under name pairs := by
      rw [hleaf]
      exact mem_map_of_mem hv
    exact absurd (cons_prefix_cons.mpr ⟨rfl, nil_prefix⟩) (hpre _ (mem_under.mp hp))

/-- A scalar or an array of the body where the query has fields of a message is an error at every path below. -/
theorem MergedAt.blocked (hlevel : Level pairs [name]) {text : Str}
    (hb : value_of body name = some (.other text)) (error : JsonError)
    (hreads : reads presented (name :: path) = some (.error error)) :
    MergedAt (.object body) pairs presented (name :: path) := by
  have hclosed : ¬ Open (.object body) pairs (name :: path) := fun ho =>
    ho [name] (cons_prefix_cons.mpr ⟨rfl, nil_prefix⟩) hlevel text (by rw [get_cons, hb]; rfl)
  exact ⟨fun _ ho => absurd ho hclosed, fun _ ho => absurd ho hclosed, fun _ _ _ _ ho => absurd ho hclosed,
    fun _ _ ho => absurd ho hclosed, fun _ => ⟨error, hreads⟩⟩

theorem merged (hr : Represents pairs root) (hc : Consistent pairs)
    (hd : Distinct (.object body) (normal pairs)) (path : List Str) :
    MergedAt (.object body) (normal pairs) (deserialize_any body root) path := by
  induction path generalizing pairs root body with
  | nil =>
    have hbody : (names body).Nodup := hd [] body (.inl rfl) rfl
    obtain ⟨-, -, hnamed, -, -⟩ := id hr
    have hnamed' := named_normal hnamed
    refine ⟨fun hp _ => ?_, fun _ _ => ?_, fun pair hp hpre _ _ => ?_, fun hl _ _ => absurd (.inl rfl) hl, fun ho => ?_⟩
    · obtain ⟨pair, hpair, he⟩ := mem_map.mp hp
      exact absurd he (hnamed' pair hpair)
    · exact ⟨_, rfl, presented_nodup hbody (hr.names_nodup hc)⟩
    · exact absurd (prefix_nil.mp hpre) (hnamed' pair hp)
    · refine absurd (fun level hpre _ text => ?_) ho
      rw [prefix_nil.mp hpre]
      simp [RawValue.get]
  | cons name path ih =>
    have hbody : (names body).Nodup := hd [] body (.inl rfl) rfl
    have hfind := find_presented hbody (hr.names_nodup hc) name
    obtain ⟨-, hheads, hnamed, hleaf, hmap⟩ := hr
    have hnamed' := named_normal hnamed
    cases hroot : root.find? fun entry => normalized_key entry.1 == name with
    | none =>
      -- the query has no field of this name
      rw [hroot] at hfind
      have hnone : under name (normal pairs) = [] := by
        apply under_normal_none
        intro key p v hp he
        obtain ⟨entry, hentry, hk⟩ := mem_map.mp ((hheads key).mpr ⟨p, v, hp⟩)
        have := find?_eq_none.mp hroot entry hentry
        simp [hk, he] at this
      refine MergedAt.outside hnamed' hnone ?_
      rw [reads, hfind, get_cons, value_of]
      cases body.find? fun field => normalized_key field.1 == name <;> rfl
    | some entry =>
      obtain ⟨key, node⟩ := entry
      have hname : normalized_key key = name := by simpa using find?_some hroot
      have hmem := mem_of_find?_eq_some hroot
      obtain ⟨p, v, hp⟩ := (hheads key).mp (mem_map_of_mem hmem)
      have hunder : under name (normal pairs) = normal (under key pairs) := hname ▸ under_normal hc hp
      have hsome : under key pairs ≠ [] := ne_nil_of_mem (mem_under.mpr hp)
      rw [hroot] at hfind
      cases node with
      | leaf values =>
        have hl := hleaf key values hmem
        refine MergedAt.at_leaf hnamed' values ?_ ?_ ?_
        · rw [hunder, hl]
          simp [normal]
        · rintro rfl
          exact hsome hl
        · rw [reads, hfind]
          rfl
      | map children =>
        have hchildren := hmap key children hmem
        have hne : ∀ pair ∈ under name (normal pairs), pair.1 ≠ [] := by
          obtain ⟨-, -, h, -, -⟩ := hchildren
          exact hunder ▸ named_normal h
        have hsome' : under name (normal pairs) ≠ [] := by
          rw [hunder]
          simpa [normal] using hsome
        have hat := (level_below hsome' hne []).mpr (.inl rfl)
        by_cases hother : ∃ text, value_of body name = some (.other text)
        · obtain ⟨text, ht⟩ := hother
          refine MergedAt.blocked hat ht (.invalid_type "a JSON object") ?_
          rw [reads, hfind]
          unfold value_of at ht
          simp only [ht]
          rfl
        · have hb : ∀ text, value_of body name ≠ some (.other text) := fun text ht => hother ⟨text, ht⟩
          have hd' := distinct_below hb hsome' hne hd
          refine MergedAt.below hb hsome' hne hnamed' ?_ (hunder ▸ ih hchildren (hc.under key) (hunder ▸ hd'))
          have hread := read_map children hb fun fields hv => by
            refine hd' [] _ (.inl rfl) ?_
            rw [hv]
            rfl
          unfold value_of at hread
          rw [reads, hfind]
          simp only [hread]
          rfl

end Overlay
