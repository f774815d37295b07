import Oxidizer.Query.Model
/-!
# The request overlay

A request message is read from a JSON body with the query parameters laid over
it. `decode_tree` builds a tree of the dotted query names and merges it into
the body level by level; `decode_flat` is the path for queries of plain names.
Both end in a map access that the message's deserializer reads. The model ends
there: what is decoded is the sequence of entries that the access presents.

A `str` is its bytes. The parser of the body text is a parameter, and a raw
value is what its text says, with every field that is written in it.
-/

namespace Overlay

open Routing (Str DOT SLASH)
open Query (PERCENT PLUS SPACE from_utf8)

inductive TranscodeErrorKind where
  | body
  | bad_structure
  | deserialize
deriving DecidableEq

/-- `TranscodeError`, without its source and its backtrace. -/
structure TranscodeError where
  kind : TranscodeErrorKind
  detail : String
deriving DecidableEq

def TranscodeError.structure (detail : String) : TranscodeError := ⟨.bad_structure, detail⟩

def TranscodeError.invalid_encoding (component : String) : TranscodeError :=
  ⟨.deserialize, component ++ " contains malformed percent encoding or invalid UTF-8"⟩

/-! ## Percent decoding -/

def needs_decoding (value : Str) (plus_as_space : Bool) : Bool :=
  value.any fun b => b == PERCENT || (plus_as_space && b == PLUS)

def hex_val (byte : UInt8) : Option UInt8 :=
  if 48 ≤ byte ∧ byte ≤ 57 then some (byte - 48)
  else if 97 ≤ byte ∧ byte ≤ 102 then some (byte - 97 + 10)
  else if 65 ≤ byte ∧ byte ≤ 70 then some (byte - 65 + 10)
  else none

def hex_pair (hi lo : UInt8) : Option UInt8 := do
  let hi ← hex_val hi
  let lo ← hex_val lo
  return (hi <<< 4) + lo

def decode_bytes (plus_as_space preserve_slash : Bool) : Str → Option Str
  | [] => some []
  | byte :: bytes =>
    if byte = PERCENT then
      match bytes with
      | hi :: lo :: bytes => do
        let decoded ← hex_pair hi lo
        let out ← decode_bytes plus_as_space preserve_slash bytes
        return (if preserve_slash ∧ decoded = SLASH then [PERCENT, hi, lo] else [decoded]) ++ out
      | _ => none
    else do
      let out ← decode_bytes plus_as_space preserve_slash bytes
      return (if byte = PLUS ∧ plus_as_space then SPACE else byte) :: out

def decode (value : Str) (plus_as_space preserve_slash : Bool) : Option Str :=
  if !needs_decoding value plus_as_space then some value
  else (decode_bytes plus_as_space preserve_slash value).bind fun out => if from_utf8 out then some out else none

def decode_query (value : Str) : Option Str := decode value true false

/-! ## Field names -/

def UNDERSCORE : UInt8 := 95

def to_ascii_uppercase (byte : UInt8) : UInt8 := if 97 ≤ byte ∧ byte ≤ 122 then byte - 32 else byte

/-- The loop of `normalized_key`. The bytes of a character beyond ASCII stay as they are, and its first one ends
the pending upper case, as the character does. -/
def normalize (uppercase_next : Bool) : Str → Str
  | [] => []
  | ch :: key =>
    if ch = UNDERSCORE then normalize true key
    else if uppercase_next then to_ascii_uppercase ch :: normalize false key
    else ch :: normalize false key

/-- The `lowerCamelCase` JSON name of a field. -/
def normalized_key (key : Str) : Str := if key.contains UNDERSCORE then normalize false key else key

/-! ## The body -/

/-- A JSON value kept as its text: what the overlay can tell of it. -/
inductive RawValue where
  | null
  | object (fields : List (Str × RawValue))
  | other (text : Str)

abbrev Fields := List (Str × RawValue)

inductive JsonError where
  | custom (detail : String)
  | invalid_type (expected : String)
deriving DecidableEq

def visit_fields (overrides : Option (List Str)) (seen : List Str) : Fields → Except JsonError Fields
  | [] => return []
  | (key, value) :: map =>
    let normalized := normalized_key key
    let overridden := overrides.any (·.contains normalized)
    -- duplicates are found before the overridden fields are left out
    if seen.contains normalized then throw (.custom "request body contains a duplicate field")
    else do
      let entries ← visit_fields overrides (normalized :: seen) map
      return if overridden then entries else (key, value) :: entries

/-- `BodyTopSeed::deserialize`. -/
def body_top (overrides : Option (List Str)) : RawValue → Except JsonError Fields
  | .object fields => visit_fields overrides [] fields
  | _ => throw (.invalid_type "a JSON object")

section

-- the JSON parser, with the text of its error
variable (from_slice : Str → Except String RawValue)

def parse_body (overrides : Option (List Str)) (bytes : Str) : Except JsonError Fields :=
  match from_slice bytes with
  | .ok value => body_top overrides value
  | .error detail => throw (.custom detail)

def classify_body_error (bytes : Str) : TranscodeError :=
  match from_slice bytes with
  | .error source => ⟨.body, source⟩
  | .ok (.object _) => .structure "request body contains a duplicate field"
  | .ok _ => .structure "request body must be a JSON object"

/-- The entries of a body, of which an absent or an empty one has none. -/
def body_entries (overrides : Option (List Str)) (body : Option Str) : Except TranscodeError Fields :=
  match body with
  | none => return []
  | some bytes =>
    if bytes.isEmpty then return []
    else match parse_body from_slice overrides bytes with
      | .ok entries => return entries
      | .error _ => throw (classify_body_error from_slice bytes)

end

/-! ## The map that is presented -/

inductive QueryNode where
  | map (children : List (Str × QueryNode))
  | leaf (values : List Str)

abbrev Nodes := List (Str × QueryNode)

/-- What the deserializer of a field is given: a value of the body, the values of a query parameter, or a
`TreeDeserializer` over both. -/
inductive Presented where
  | raw (value : RawValue)
  | values (values : List Str)
  | tree (body : Fields) (query : Nodes)
  | error (error : JsonError)

abbrev Entries := List (Str × Presented)

/-- `OverlayMap` and `TreeMap`: the fields of the body, then those of the query. -/
structure PendingMap (Q : Type) where
  body : Fields
  query : List (Str × Q)
  pending : Option (RawValue ⊕ Q)

namespace PendingMap

variable {Q : Type}

def next_key_seed (m : PendingMap Q) : Option Str × PendingMap Q :=
  match m.body with
  | (key, value) :: body => (some key, { m with body, pending := some (.inl value) })
  | [] =>
    match m.query with
    | (key, value) :: query => (some key, { m with query, pending := some (.inr value) })
    | [] => (none, m)

def next_value_seed (read : Q → Presented) (m : PendingMap Q) : Presented × PendingMap Q :=
  match m.pending with
  | some (.inl raw) => (.raw raw, { m with pending := none })
  | some (.inr value) => (read value, { m with pending := none })
  | none => (.error (.custom "value requested before key"), m)

/-- A visitor that asks for a key and its value until there is no key. -/
def visit (read : Q → Presented) : Nat → PendingMap Q → Entries
  | 0, _ => []
  | n + 1, m =>
    match m.next_key_seed with
    | (none, _) => []
    | (some key, m) =>
      let (value, m) := m.next_value_seed read
      (key, value) :: visit read n m

def visit_map (read : Q → Presented) (m : PendingMap Q) : Entries := visit read (m.body.length + m.query.length) m

end PendingMap

/-! ## Plain names -/

/-- `SmallVec::inline_size` of the overlay. -/
def INLINE_SIZE : Nat := 8

structure GroupedFlatQuery where
  overlay : List (Str × List Str)
  overlay_index : Option (List (Str × Nat))
  query_norms : List Str

namespace GroupedFlatQuery

def existing (g : GroupedFlatQuery) (key : Str) : Option Nat :=
  match g.overlay_index with
  | some index => index.lookup key
  | none => g.overlay.findIdx? fun entry => entry.1 == key

/-- The index once a new key is pushed: it is built when the inline storage is full. -/
def indexed (g : GroupedFlatQuery) (key : Str) : Option (List (Str × Nat)) :=
  let index := if g.overlay_index.isNone ∧ g.overlay.length = INLINE_SIZE
    then some (g.overlay.zipIdx.map fun (entry, position) => (entry.1, position)) else g.overlay_index
  index.map ((key, g.overlay.length) :: ·)

def push (g : GroupedFlatQuery) (key value : Str) : GroupedFlatQuery :=
  match g.existing key with
  | some index => { g with overlay := g.overlay.modify index fun entry => (entry.1, entry.2 ++ [value]) }
  | none =>
    { overlay := g.overlay ++ [(key, [value])]
      overlay_index := g.indexed key
      query_norms := normalized_key key :: g.query_norms }

end GroupedFlatQuery

def decode_part (component : String) (text : Str) : Except TranscodeError Str :=
  match decode_query text with
  | some decoded => return decoded
  | none => throw (.invalid_encoding component)

def group_pairs (g : GroupedFlatQuery) : List (Str × Str) → Except TranscodeError GroupedFlatQuery
  | [] => return g
  | (key, value) :: query => do
    let decoded ← decode_part "query parameter value" value
    group_pairs (g.push key decoded) query

def group_flat_query (query : List (Str × Str)) : Except TranscodeError GroupedFlatQuery := group_pairs ⟨[], none, []⟩ query

def decode_flat (from_slice : Str → Except String RawValue) (body : Option Str) (query : List (Str × Str)) :
    Except TranscodeError Entries := do
  let grouped ← group_flat_query query
  let body ← body_entries from_slice (some grouped.query_norms) body
  return PendingMap.visit_map .values ⟨body, grouped.overlay, none⟩

/-! ## Dotted names -/

def MAX_QUERY_FIELD_DEPTH : Nat := 64

/-- The entry of `key`, pushed as `fresh` where there is none, replaced by what `f` makes of it. -/
def update_entry (key : Str) (fresh : QueryNode) (f : QueryNode → Except TranscodeError QueryNode) :
    Nodes → Except TranscodeError Nodes
  | [] => do
    let node ← f fresh
    return [(key, node)]
  | (existing, node) :: map =>
    if existing = key then do
      let node ← f node
      return (existing, node) :: map
    else do
      let map ← update_entry key fresh f map
      return (existing, node) :: map

/-- The node of the first segment of a path, once the value is in it; `insert` continues below. -/
def update_node (path : List Str) (value : Str) (insert : Nodes → Except TranscodeError Nodes) (node : QueryNode) :
    Except TranscodeError QueryNode :=
  if path.isEmpty then
    match node with
    | .leaf values => return .leaf (values ++ [value])
    | .map _ => throw (.structure "query field conflicts with a nested field")
  else
    match node with
    | .map children => do
      let children ← insert children
      return .map children
    | .leaf _ => throw (.structure "query field conflicts with a nested field")

def insert_query_node (map : Nodes) (path : List Str) (value : Str) : (remaining_depth : Nat) → Except TranscodeError Nodes
  | 0 => throw (.structure "query parameter field path is nested too deeply")
  | remaining_depth + 1 =>
    match path with
    | [] => throw (.structure "query parameter has an empty field path")
    | key :: path =>
      update_entry key (if path.isEmpty then .leaf [] else .map [])
        (update_node path value fun children => insert_query_node children path value remaining_depth) map

def insert_pairs (root : Nodes) : List (Str × Str) → Except TranscodeError Nodes
  | [] => return root
  | (key, value) :: query => do
    let key ← decode_part "query parameter name" key
    let value ← decode_part "query parameter value" value
    let root ← insert_query_node root (key.splitOn DOT) value MAX_QUERY_FIELD_DEPTH
    insert_pairs root query

/-- The loop of `deserialize_any`: each query field takes the body's field of its name along. -/
def take_fields (body : Fields) : Nodes → Fields × List (Str × QueryNode × Option RawValue)
  | [] => (body, [])
  | (key, node) :: query =>
    match body.findIdx? fun field => normalized_key field.1 == normalized_key key with
    | some index =>
      let (rest, taken) := take_fields (body.eraseIdx index) query
      (rest, (key, node, body[index]?.map Prod.snd) :: taken)
    | none =>
      let (rest, taken) := take_fields body query
      (rest, (key, node, none) :: taken)

/-- `next_value_seed` of `TreeMap` on a query field. -/
def read_node : QueryNode × Option RawValue → Presented
  | (.leaf values, _) => .values values
  | (.map query, none) => .tree [] query
  | (.map query, some .null) => .tree [] query
  | (.map query, some raw) =>
    match body_top none raw with
    | .ok entries => .tree entries query
    | .error error => .error error

def deserialize_any (body : Fields) (query : Nodes) : Entries :=
  let (rest, taken) := take_fields body query
  PendingMap.visit_map read_node ⟨rest, taken, none⟩

def decode_tree_entries (body : Fields) (query : List (Str × Str)) : Except TranscodeError Entries := do
  let root ← insert_pairs [] query
  return deserialize_any body root

def decode_tree (from_slice : Str → Except String RawValue) (body : Option Str) (query : List (Str × Str)) :
    Except TranscodeError Entries := do
  let body ← body_entries from_slice none body
  decode_tree_entries body query

/-! ## What is read at a field path -/

/-- The value of a body at a path of normalized names. -/
def RawValue.get : RawValue → List Str → Option RawValue
  | value, [] => some value
  | .object fields, name :: path => (fields.find? fun field => normalized_key field.1 == name).bind fun field => field.2.get path
  | _, _ :: _ => none

inductive Reading where
  | raw (value : RawValue)
  | values (values : List Str)
  | message (entries : Entries)
  | error (error : JsonError)

/-- What a deserializer finds under the entries presented to it at a path of normalized names. -/
def reads (entries : Entries) : List Str → Option Reading
  | [] => some (.message entries)
  | name :: path =>
    match entries.find? fun entry => normalized_key entry.1 == name with
    | none => none
    | some (_, .raw value) => (value.get path).map .raw
    | some (_, .values values) => if path = [] then some (.values values) else none
    | some (_, .tree body query) => reads (deserialize_any body query) path
    | some (_, .error error) => some (.error error)

end Overlay
