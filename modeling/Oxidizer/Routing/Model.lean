import Oxidizer.Lib.Exec
import Oxidizer.Lib.SortedMap
/-!
# Dynamic route resolution: the code

A translation of the trie of `routerama_build`, of its runtime form and of the
walk that resolves a request. A `str` is its bytes. `BTreeMap` is a list in
key order, `sort_by` and `sort_by_key` are a stable sort. The scanner is
`scan_segments_scalar`, the reference the vector versions are tested against.
Loops run on fuel, and every `expect` and index of the code has a site of its
own. Templates are as `PathTemplate::parse` leaves them, with the checks of
the parser that resolution rests on as fields. Left out: the sanitized `field`
names, which only the static backend reads, and the iterative destructors.
-/

namespace Routing

open Lib Lib.Exec

abbrev Str := List UInt8

def SLASH : UInt8 := 47
def COLON : UInt8 := 58
def QUESTION : UInt8 := 63
def HASH : UInt8 := 35
def DOT : UInt8 := 46
def PERCENT : UInt8 := 37

/-- What the code expects of itself. -/
inductive Site where
  /-- "each queued source node is compiled exactly once" -/
  | source_once
  /-- "affix order was derived from this node and each key is removed once" -/
  | affix_order
  /-- "children are queued after parents and built in reverse order" -/
  | children_first
  /-- "the root is always built" -/
  | root_built
  /-- "at least one matching child was found" -/
  | matching_child
  /-- "route capture plan references scanned segment indices" -/
  | capture_plan
  /-- "route rest plan starts at or before the scanned segment count" -/
  | rest_plan
  /-- "matched affix literals delimit a valid capture" -/
  | affix_plan
  /-- `self.payloads[leaf.route_index]` -/
  | payload_index
deriving DecidableEq

/-! ## Templates -/

def is_ascii_hexdigit (b : UInt8) : Bool := (48 ≤ b && b ≤ 57) || (65 ≤ b && b ≤ 70) || (97 ≤ b && b ≤ 102)

def is_ascii_alphanumeric (b : UInt8) : Bool := (48 ≤ b && b ≤ 57) || (65 ≤ b && b ≤ 90) || (97 ≤ b && b ≤ 122)

/-- `-._~!$&'()+,;=:@`, the characters a literal may have next to letters and digits. -/
def LITERAL_MARKS : List UInt8 := [45, 46, 95, 126, 33, 36, 38, 39, 40, 41, 43, 44, 59, 61, 58, 64]

def is_valid_literal_bytes : Str → Bool
  | [] => true
  | byte :: tail =>
    if byte = PERCENT then
      match tail with
      | hi :: lo :: tail => is_ascii_hexdigit hi && is_ascii_hexdigit lo && is_valid_literal_bytes tail
      | _ => false
    else (is_ascii_alphanumeric byte || LITERAL_MARKS.contains byte) && is_valid_literal_bytes tail

/-- What the sub-template of a variable yields. -/
inductive SubSegment where
  | literal (text : Str)
  | single
  | rest
deriving DecidableEq

/-- `Variable`: splitting a sub-template at `/` yields at least one element. -/
structure Variable where
  field : Str
  segments : List SubSegment
  nonempty : segments ≠ []

inductive Segment where
  | literal (text : Str)
  | single
  | rest
  | var (v : Variable)
  | affix (pre name suf : Str)

def validate_rest_step (seen_rest : Bool) : Segment → Option Bool
  | .literal _ | .single | .affix _ _ _ => if seen_rest then none else some false
  | .rest => if seen_rest then none else some true
  | .var v => v.segments.foldlM (fun seen sub => if seen then none else some (sub == .rest)) seen_rest

def validate_rest_position (segments : List Segment) : Bool := (segments.foldlM validate_rest_step false).isSome

/-- Literal text outside of braces, where a `:` would start the verb. -/
def is_plain_literal (text : Str) : Bool := is_valid_literal_bytes text && !text.contains COLON

def SubSegment.is_parsed : SubSegment → Bool
  | .literal text => !text.isEmpty && is_valid_literal_bytes text
  | .single | .rest => true

/-- The checks on literal text that a parsed segment has passed; without both affixes it is a variable. -/
def Segment.is_parsed : Segment → Bool
  | .literal text => !text.isEmpty && is_plain_literal text
  | .single | .rest => true
  | .var v => v.segments.all SubSegment.is_parsed
  | .affix pre _ suf => is_plain_literal pre && is_plain_literal suf && !(pre ++ suf).isEmpty

structure PathTemplate where
  segments : List Segment
  verb : Option Str
  rest_last : validate_rest_position segments = true
  parsed : segments.all Segment.is_parsed = true
  verb_parsed : verb.all (fun text => !text.isEmpty && is_plain_literal text) = true

structure Route where
  name : String
  method : String
  template : PathTemplate

/-! ## The trie -/

inductive Atom where
  | literal (text : Str)
  | single
  | rest
  | affix (pre suf : Str)
deriving DecidableEq

structure VarSpan where
  name : List Str
  first : Nat
  last : Nat
  affix : Option (Nat × Nat)
deriving DecidableEq

/-- How a captured variable is cut out of the path at a leaf, with its key. -/
inductive VarPlan where
  | span (key : Str) (a b : Nat)
  | rest (key : Str) (a : Nat)
  | affix (key : Str) (a prefix_len suffix_len : Nat)
deriving DecidableEq

def VarPlan.key : VarPlan → Str
  | .span key _ _ | .rest key _ | .affix key _ _ _ => key

structure Leaf where
  method : String
  verb : Option Str
  name : String
  vars : List VarPlan
  route_index : Nat
deriving DecidableEq

structure Node where
  literals : List (Str × Node)
  affix : List ((Str × Str) × Node)
  single : Option Node
  exact : List Leaf
  rest : List Leaf

def Node.default : Node := ⟨[], [], none, [], []⟩

structure Trie where
  root : Node
  max_segments : Nat
  any_verb : Bool

def SubSegment.atom : SubSegment → Atom
  | .literal text => .literal text
  | .single => .single
  | .rest => .rest

def flatten_step (acc : List Atom × List VarSpan) : Segment → List Atom × List VarSpan
  | .literal text => (acc.1 ++ [.literal text], acc.2)
  | .single => (acc.1 ++ [.single], acc.2)
  | .rest => (acc.1 ++ [.rest], acc.2)
  | .affix pre name suf =>
    let index := acc.1.length
    (acc.1 ++ [.affix pre suf], acc.2 ++ [⟨name.splitOn DOT, index, index, some (pre.length, suf.length)⟩])
  | .var v =>
    let first := acc.1.length
    let atoms := acc.1 ++ v.segments.map SubSegment.atom
    (atoms, acc.2 ++ [⟨v.field.splitOn DOT, first, atoms.length - 1, none⟩])

def flatten (segments : List Segment) : List Atom × List VarSpan := segments.foldl flatten_step ([], [])

/-- `map.entry(key).or_default()`, changed by `f`. -/
def entry {κ : Type} [Ord κ] (key : κ) (f : Node → Node) (edges : List (κ × Node)) : List (κ × Node) :=
  SortedMap.upsert .default key f edges

instance : Ord (Str × Str) := lexOrd

/-- The loop of `insert_route` over the atoms, with what happens at its end. -/
def Node.descend (leave : Node → Node) : List Atom → Node → Node
  | [], node => leave node
  | .literal text :: atoms, node => { node with literals := entry text (descend leave atoms) node.literals }
  | .single :: atoms, node => { node with single := some (descend leave atoms (node.single.getD .default)) }
  | .affix pre suf :: atoms, node => { node with affix := entry (pre, suf) (descend leave atoms) node.affix }
  | .rest :: atoms, node => descend leave atoms node

def VarSpan.plan (has_rest : Bool) (atom_count : Nat) (v : VarSpan) : VarPlan :=
  let key := [DOT].intercalate v.name
  match v.affix with
  | some (prefix_len, suffix_len) => .affix key v.first prefix_len suffix_len
  | none => if has_rest && v.last == atom_count - 1 then .rest key v.first else .span key v.first v.last

def Route.leaf (route : Route) (route_index : Nat) : Leaf :=
  let flat := flatten route.template.segments
  let has_rest := flat.1.getLast? == some .rest
  { method := route.method
    verb := route.template.verb
    name := route.name
    vars := flat.2.map (VarSpan.plan has_rest flat.1.length)
    route_index }

def insert_route (root : Node) (route : Route) (route_index : Nat) : Node × Nat :=
  let atoms := (flatten route.template.segments).1
  let leaf := route.leaf route_index
  let leave := fun node : Node =>
    if atoms.getLast? == some .rest then { node with rest := node.rest ++ [leaf] }
    else { node with exact := node.exact ++ [leaf] }
  (root.descend leave atoms, atoms.length)

def build_trie (routes : List Route) : Trie :=
  routes.zipIdx.foldl (fun trie entry =>
    let inserted := insert_route trie.root entry.1 entry.2
    { root := inserted.1
      max_segments := max trie.max_segments inserted.2
      any_verb := trie.any_verb || entry.1.template.verb.isSome }) ⟨.default, 0, false⟩

def affix_specificity (pre suf : Str) : Nat := pre.length + suf.length

/-- Longer literal text first, ties by key. -/
def affix_cmp (a b : Str × Str) : Ordering :=
  (compare (affix_specificity b.1 b.2) (affix_specificity a.1 a.2)).then (compare a b)

def affix_edges_in_match_order (node : Node) : List ((Str × Str) × Node) :=
  node.affix.insertionSort fun a b => (affix_cmp a.1 b.1).isLE = true

/-! ## The runtime trie -/

structure RtNode where
  literals : List (Str × RtNode)
  affix : List ((Str × Str) × RtNode)
  single : Option RtNode
  exact : List Leaf
  rest : List Leaf

/-- A node whose children are named by their place in the queue. -/
structure FlatNode where
  literals : List (Str × Nat)
  affix : List ((Str × Str) × Nat)
  single : Option Nat
  exact : List Leaf
  rest : List Leaf

abbrev Source := List (Option Node)

/-- Queue the children of a literal edge list, in order. -/
def push_literals : List (Str × Node) → Source → List (Str × Nat) × Source
  | [], source => ([], source)
  | (key, child) :: edges, source =>
    let r := push_literals edges (source ++ [some child])
    ((key, source.length) :: r.1, r.2)

/-- Queue the children of the affix edges in match order, removing each edge by its key. -/
def push_affix : List (Str × Str) → List ((Str × Str) × Node) → Source →
    Exec Unit Site (List ((Str × Str) × Nat) × Source)
  | [], _, source => pure ([], source)
  | key :: keys, affix, source => do
    let child ← expect .affix_order (affix.lookup key)
    let r ← push_affix keys (affix.eraseP fun e => e.1 == key) (source ++ [some child])
    pure ((key, source.length) :: r.1, r.2)

def push_single : Option Node → Source → Option Nat × Source
  | none, source => (none, source)
  | some child, source => (some source.length, source ++ [some child])

structure Queue where
  source : Source
  flat : List FlatNode
  index : Nat

/-- One round of the first loop of `compile`. -/
def flatten_node (q : Queue) : Exec Unit Site (Queue ⊕ List FlatNode) :=
  if q.index < q.source.length then do
    let node ← expect .source_once (q.source[q.index]?.join)
    let source := q.source.set q.index none
    let affix_order := (affix_edges_in_match_order node).map Prod.fst
    let literals := push_literals node.literals source
    let affix ← push_affix affix_order node.affix literals.2
    let single := push_single node.single affix.2
    pure (.inl ⟨single.2, q.flat ++ [⟨literals.1, affix.1, single.1, node.exact, node.rest⟩], q.index + 1⟩)
  else pure (.inr q.flat)

def FlatNode.weight (node : FlatNode) (weights : List Nat) : Nat :=
  node.exact.length + node.rest.length + (node.literals.map fun e => weights.getD e.2 0).sum +
    (node.affix.map fun e => weights.getD e.2 0).sum + (node.single.map fun child => weights.getD child 0).getD 0

def node_weights (nodes : List FlatNode) : List Nat :=
  nodes.zipIdx.foldr (fun node weights => weights.set node.2 (node.1.weight weights)) (List.replicate nodes.length 0)

def order_literals_by_weight (nodes : List FlatNode) : List FlatNode :=
  let weights := node_weights nodes
  nodes.map fun node =>
    { node with literals := node.literals.insertionSort fun a b => weights.getD b.2 0 ≤ weights.getD a.2 0 }

abbrev Built := List (Option RtNode)

/-- `built[child].take().expect(..)` for the edges of a list. -/
def take_edges {κ : Type} : List (κ × Nat) → Built → Exec Unit Site (List (κ × RtNode) × Built)
  | [], built => pure ([], built)
  | (key, child) :: edges, built => do
    let node ← expect .children_first (built[child]?.join)
    let r ← take_edges edges (built.set child none)
    pure ((key, node) :: r.1, r.2)

def take_single : Option Nat → Built → Exec Unit Site (Option RtNode × Built)
  | none, built => pure (none, built)
  | some child, built => do
    let node ← expect .children_first (built[child]?.join)
    pure (some node, built.set child none)

def build_node (built : Built) (node : FlatNode) (index : Nat) : Exec Unit Site Built := do
  let literals ← take_edges node.literals built
  let affix ← take_edges node.affix literals.2
  let single ← take_single node.single affix.2
  pure (single.2.set index (some ⟨literals.1, affix.1, single.1, node.exact, node.rest⟩))

def build_nodes : List (FlatNode × Nat) → Built → Exec Unit Site Built
  | [], built => pure built
  | (node, index) :: nodes, built => do
    let built ← build_node built node index
    build_nodes nodes built

def RtNode.compile (fuel : Nat) (node : Node) : Exec Unit Site RtNode := do
  let flat ← loop fuel flatten_node ⟨[some node], [], 0⟩
  let flat := order_literals_by_weight flat
  let built ← build_nodes flat.zipIdx.reverse (List.replicate flat.length none)
  expect .root_built (built[0]?.join)

/-! ## Scanning a path -/

/-- The final `:verb` of the last segment, cut off. -/
def split_verb (path : Str) : Str × Option Str :=
  match path.reverse.findIdx? fun b => b == COLON || b == SLASH || b == QUESTION || b == HASH with
  | some back =>
    let colon := path.length - 1 - back
    if path.getD colon 0 ≠ COLON then (path, none)
    else
      let verb := path.drop (colon + 1)
      if verb.isEmpty then (path, none) else (path.take colon, some verb)
  | none => (path, none)

structure ScannedPath where
  body : Str
  starts : List Nat
  ends : List Nat
  capacity : Nat
  count : Nat
  valid : Bool

/-- Locals of `scan_segments_scalar`. -/
structure Scan where
  starts : List Nat
  ends : List Nat
  count : Nat
  start : Nat
  valid : Bool

def Scan.write (s : Scan) (cap base stop : Nat) : Scan :=
  if s.count < cap then
    { s with starts := s.starts.set s.count (base + s.start), ends := s.ends.set s.count (base + stop) }
  else s

def scan_byte (cap base : Nat) (s : Scan) (entry : UInt8 × Nat) : Scan :=
  if entry.1 = SLASH then
    let s := s.write cap base entry.2
    { s with count := s.count + 1, start := entry.2 + 1 }
  else if entry.1 = QUESTION ∨ entry.1 = HASH then { s with valid := false }
  else s

/-- `strip_prefix('/').unwrap_or(body)`. -/
def strip_slash : Str → Str
  | byte :: body => if byte = SLASH then body else byte :: body
  | [] => []

def scan_path (body : Str) (starts ends : List Nat) : ScannedPath :=
  let rest := strip_slash body
  let cap := min starts.length ends.length
  if rest.isEmpty then ⟨body, starts, ends, cap, 0, true⟩
  else
    let base := body.length - rest.length
    let s := rest.zipIdx.foldl (scan_byte cap base) ⟨starts, ends, 0, 0, true⟩
    let s := s.write cap base rest.length
    ⟨body, s.starts, s.ends, cap, s.count + 1, s.valid⟩

def slice (body : Str) (start stop : Nat) : Str := (body.take stop).drop start

def is_char_boundary (body : Str) (index : Nat) : Bool :=
  index == 0 || match body[index]? with
    | some b => b < 128 || 192 ≤ b
    | none => index == body.length

namespace ScannedPath

def segment (path : ScannedPath) (index : Nat) : Option Str :=
  if index ≥ path.count ∨ index ≥ path.capacity then none
  else some (slice path.body (path.starts.getD index 0) (path.ends.getD index 0))

def capture (path : ScannedPath) (first last : Nat) : Option Str :=
  if first > last ∨ last ≥ path.count ∨ last ≥ path.capacity then none
  else some (slice path.body (path.starts.getD first 0) (path.ends.getD last 0))

def rest (path : ScannedPath) (first : Nat) : Option Str :=
  if first = path.count then some []
  else if first > path.count then none
  else if first ≥ path.capacity then none
  else some (path.body.drop (path.starts.getD first 0))

def affix (path : ScannedPath) (index prefix_len suffix_len : Nat) : Option Str :=
  if index ≥ path.count ∨ index ≥ path.capacity then none
  else
    let start := path.starts.getD index 0 + prefix_len
    let segment_end := path.ends.getD index 0
    if segment_end < suffix_len then none
    else
      let stop := segment_end - suffix_len
      if start > stop || !is_char_boundary path.body start || !is_char_boundary path.body stop then none
      else some (slice path.body start stop)

end ScannedPath

/-! ## The walk -/

structure Walk where
  path : ScannedPath
  method : String
  verb : Option Str

inductive WalkAction where
  | node (node : RtNode) (depth : Nat)
  | leaves (leaves : List Leaf)

/-- Locals of `descend_iterative`; the top of `pending` comes first. -/
structure Cursor where
  node : RtNode
  depth : Nat
  pending : List WalkAction

def affix_matches (bytes : Str) (key : Str × Str) : Bool :=
  bytes.length > key.1.length + key.2.length && key.1.isPrefixOf bytes && key.2.isSuffixOf bytes

namespace Walk

def dispatch (w : Walk) (verbs : Bool) (leaves : List Leaf) : Option Leaf :=
  leaves.find? fun leaf => leaf.method == w.method && (!verbs || leaf.verb == w.verb)

/-- The inner loop: back to the last alternative. -/
def backtrack (w : Walk) (verbs : Bool) : List WalkAction → Cursor ⊕ Option Leaf
  | [] => .inr none
  | .node node depth :: pending => .inl ⟨node, depth, pending⟩
  | .leaves leaves :: pending =>
    match w.dispatch verbs leaves with
    | some matched => .inr (some matched)
    | none => w.backtrack verbs pending

def push_rest (w : Walk) (cur : Cursor) (pending : List WalkAction) : List WalkAction :=
  if w.path.count ≥ cur.depth && !cur.node.rest.isEmpty then .leaves cur.node.rest :: pending else pending

/-- The alternatives of a node with a matching child, pushed. -/
def push_alternatives (w : Walk) (cur : Cursor) (bytes : Str) (single literal : Option RtNode)
    (first_affix : Option (((Str × Str) × RtNode) × Nat)) : List WalkAction :=
  let pending := w.push_rest cur cur.pending
  let pending := match single with
    | some child => if literal.isSome || first_affix.isSome then .node child (cur.depth + 1) :: pending else pending
    | none => pending
  let skip := match first_affix with
    | some (_, index) => (if literal.isNone then 1 else 0) + index
    | none => 0
  (cur.node.affix.drop skip).reverse.foldl
    (fun pending edge => if affix_matches bytes edge.1 then .node edge.2 (cur.depth + 1) :: pending else pending) pending

/-- The branch of a node with literal or affix edges for a segment, if it goes on. -/
def descend_edges (w : Walk) (cur : Cursor) (bytes : Str) (single : Option RtNode) : Option (Exec Unit Site Cursor) :=
  let literal := (cur.node.literals.find? fun edge => edge.1 == bytes).map Prod.snd
  let first_affix := cur.node.affix.zipIdx.find? fun edge => affix_matches bytes edge.1.1
  match if cur.node.affix.isEmpty && cur.node.single.isNone && cur.node.rest.isEmpty then literal else none with
  | some child => some (pure ⟨child, cur.depth + 1, cur.pending⟩)
  | none =>
    if literal.isSome || first_affix.isSome || single.isSome then
      some do
        let child ← expect .matching_child ((literal.or (first_affix.map fun edge => edge.1.2)).or single)
        pure ⟨child, cur.depth + 1, w.push_alternatives cur bytes single literal first_affix⟩
    else none

/-- The rest of a round, where no edge is followed but the wildcard. -/
def descend_single (w : Walk) (verbs : Bool) (cur : Cursor) (single : Option RtNode) : Cursor ⊕ Option Leaf :=
  match single with
  | some child => .inl ⟨child, cur.depth + 1, w.push_rest cur cur.pending⟩
  | none =>
    let exact := if w.path.count = cur.depth then w.dispatch verbs cur.node.exact else none
    let rest := if w.path.count ≥ cur.depth then w.dispatch verbs cur.node.rest else none
    match exact.or rest with
    | some matched => .inr (some matched)
    | none => w.backtrack verbs cur.pending

def round (w : Walk) (verbs : Bool) (cur : Cursor) : Exec Unit Site (Cursor ⊕ Option Leaf) :=
  let segment := w.path.segment cur.depth
  let single := if segment.any fun s => !s.isEmpty then cur.node.single else none
  match if cur.node.literals.isEmpty && cur.node.affix.isEmpty && cur.node.rest.isEmpty then single else none with
  | some child => pure (.inl ⟨child, cur.depth + 1, cur.pending⟩)
  | none =>
    match segment.filter fun _ => !cur.node.literals.isEmpty || !cur.node.affix.isEmpty with
    | some bytes =>
      match w.descend_edges cur bytes single with
      | some next => do
        let next ← next
        pure (.inl next)
      | none => pure (w.descend_single verbs cur single)
    | none => pure (w.descend_single verbs cur single)

def descend_iterative (w : Walk) (fuel : Nat) (verbs : Bool) (node : RtNode) (depth : Nat) :
    Exec Unit Site (Option Leaf) :=
  loop fuel (w.round verbs) ⟨node, depth, []⟩

end Walk

/-! ## The resolver -/

def materialize (plan : VarPlan) (path : ScannedPath) : Exec Unit Site Str :=
  match plan with
  | .span _ a b => expect .capture_plan (path.capture a b)
  | .rest _ a => expect .rest_plan (path.rest a)
  | .affix _ a prefix_len suffix_len => expect .affix_plan (path.affix a prefix_len suffix_len)

structure RawMatch (T : Type) where
  leaf : Leaf
  values : List Str
  value : T

def RawMatch.captures {T : Type} (m : RawMatch T) : List (Str × Str) := (m.leaf.vars.map VarPlan.key).zip m.values

structure RawResolver (T : Type) where
  root : RtNode
  max_segments : Nat
  any_verb : Bool
  payloads : List T

def INLINE_SEGMENTS : Nat := 16

namespace RawResolver
variable {T : Type}

def with_values (fuel : Nat) (entries : List (Route × T)) : Exec Unit Site (RawResolver T) := do
  let trie := build_trie (entries.map Prod.fst)
  let root ← RtNode.compile fuel trie.root
  pure ⟨root, trie.max_segments, trie.any_verb, entries.map Prod.snd⟩

def finish (leaf : Leaf) (value : T) (path : ScannedPath) : Exec Unit Site (RawMatch T) := do
  let values ← leaf.vars.mapM fun plan => materialize plan path
  pure ⟨leaf, values, value⟩

def finish_scanned (r : RawResolver T) (fuel : Nat) (method : String) (verb : Option Str) (path : ScannedPath) :
    Exec Unit Site (Option (RawMatch T)) := do
  let leaf ← Walk.descend_iterative ⟨path, method, verb⟩ fuel r.any_verb r.root 0
  match leaf with
  | none => pure none
  | some leaf =>
    let value ← expect .payload_index r.payloads[leaf.route_index]?
    let matched ← finish leaf value path
    pure (some matched)

def scan (body : Str) (capacity : Nat) : ScannedPath :=
  scan_path body (List.replicate capacity 0) (List.replicate capacity 0)

/-- `resolve`, where an `InvalidPath` becomes no match. -/
def resolve (r : RawResolver T) (fuel : Nat) (method : String) (path : Str) : Exec Unit Site (Option (RawMatch T)) :=
  let split := if r.any_verb then split_verb path else (path, none)
  let body := split.1
  let verb := split.2
  if r.max_segments ≤ INLINE_SEGMENTS then
    let path := scan body r.max_segments
    if path.valid then r.finish_scanned fuel method verb path else pure none
  else
    let path := scan body INLINE_SEGMENTS
    if path.valid then
      if path.count > INLINE_SEGMENTS then
        r.finish_scanned fuel method verb (scan body (min path.count r.max_segments))
      else r.finish_scanned fuel method verb path
    else pure none

end RawResolver

end Routing
