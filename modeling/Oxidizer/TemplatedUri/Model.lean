import Oxidizer.TemplatedUri.Escaped
/-!
# Templates and the code the macro makes of them

A template is text with expressions in braces, each with an operator and variables. For a
struct whose fields are the variables the macro makes code that appends the parts of the
template to a string: a field of a variable that occurs with `+` anywhere is appended as it
is, the others escaped. The traits of the fields decide whether that code compiles.

The code is kept as a list of its statements, so that what a value adds to the text can be
told from what the template adds.
-/

namespace TemplatedUri

/-! ## Templates -/

inductive Prefix where
  | Dot
  | Slash
deriving DecidableEq

inductive ParamKind where
  | Simple
  | Unfiltered
  | SemicolonKV
  | Form (start_char : Bool)
  | Prefixed (p : Prefix)
deriving DecidableEq

def Prefix.as_str : Prefix → Str
  | .Dot => [46]
  | .Slash => [47]

namespace ParamKind

def separator : ParamKind → Str
  | Simple => [44]
  | Unfiltered => [44]
  | SemicolonKV => [59]
  | Form _ => [38]
  | Prefixed p => p.as_str

/-- The operator's text; none is the empty one, as `unwrap_or_default` gives it. -/
def prefix_str : ParamKind → Str
  | Simple => []
  | Unfiltered => []
  | SemicolonKV => [59]
  | Form start_char => if start_char then [63] else [38]
  | Prefixed p => p.as_str

def is_kv : ParamKind → Bool
  | SemicolonKV => true
  | Form _ => true
  | _ => false

end ParamKind

structure ParamGroup where
  param_kind : ParamKind
  param_names : List Str
deriving DecidableEq

def ParamGroup.is_unrestricted (g : ParamGroup) : Bool := g.param_kind == .Unfiltered

inductive TemplatePart where
  | ParamGroup (group : ParamGroup)
  | Content (content : Str)
deriving DecidableEq

/-- Whether a part starts with a slash. -/
def TemplatePart.starts_with_slash : TemplatePart → Bool
  | .Content content => content.head? == some 47
  | .ParamGroup group => group.param_kind == .Prefixed .Slash

abbrev UriTemplate := List TemplatePart

/-! ## The grammar -/

def is_ident_start (b : UInt8) : Bool := (65 ≤ b && b ≤ 90) || (97 ≤ b && b ≤ 122) || b == 95

def is_ident_continue (b : UInt8) : Bool := is_ident_start b || (48 ≤ b && b ≤ 57)

def ident : Str → Option (Str × Str)
  | b :: rest =>
    if is_ident_start b then some (b :: rest.takeWhile is_ident_continue, rest.dropWhile is_ident_continue) else none
  | [] => none

/-- `param_name.separated_by(just(',')).at_least(1)`; the input bounds the number of names. -/
def param_names : Nat → Str → Option (List Str × Str)
  | 0, _ => none
  | fuel + 1, s => do
    let (name, rest) ← ident s
    match rest with
    | 44 :: after =>
      match param_names fuel after with
      | some (names, rest) => some (name :: names, rest)
      | none => some ([name], rest)
    | _ => some ([name], rest)

/-- The operator; `#` is refused, and any other byte is the start of a name. -/
def param_kind : Str → Option (ParamKind × Str)
  | 43 :: rest => some (.Unfiltered, rest)
  | 35 :: _ => none
  | 59 :: rest => some (.SemicolonKV, rest)
  | 63 :: rest => some (.Form true, rest)
  | 38 :: rest => some (.Form false, rest)
  | 46 :: rest => some (.Prefixed .Dot, rest)
  | 47 :: rest => some (.Prefixed .Slash, rest)
  | rest => some (.Simple, rest)

def param_group : Str → Option (ParamGroup × Str)
  | 123 :: rest => do
    let (kind, rest) ← param_kind rest
    let (names, rest) ← param_names rest.length rest
    match rest with
    | 125 :: rest => some (⟨kind, names⟩, rest)
    | _ => none
  | _ => none

def is_content (b : UInt8) : Bool := b != 123 && b != 125

def template_part (s : Str) : Option (TemplatePart × Str) :=
  match param_group s with
  | some (group, rest) => some (.ParamGroup group, rest)
  | none => if (s.takeWhile is_content).isEmpty then none else some (.Content (s.takeWhile is_content), s.dropWhile is_content)

/-- `TemplatePart::parser().repeated()`; every part takes some of the input. -/
def template_parts : Nat → Str → UriTemplate × Str
  | 0, s => ([], s)
  | fuel + 1, s =>
    match template_part s with
    | some (part, rest) =>
      let (parts, rest) := template_parts fuel rest
      (part :: parts, rest)
    | none => ([], s)

/-- `UriTemplate::parse`, without the texts of its errors. -/
def parse (input : Str) : Option UriTemplate :=
  let (parts, rest) := template_parts input.length input
  match parts with
  | [] => none
  | first :: _ => if rest.isEmpty && first.starts_with_slash then some parts else none

def groups (t : UriTemplate) : List ParamGroup :=
  t.filterMap fun part => match part with
    | .ParamGroup group => some group
    | .Content _ => none

/-! ## Fields -/

inductive FieldType where
  | String
  | EscapedString
  /-- `u8` to `u128` and `usize`, and those that are not zero -/
  | Unsigned
deriving DecidableEq

def FieldType.raw : FieldType → Bool
  | String => true
  | EscapedString => true
  | Unsigned => false

def FieldType.escape : FieldType → Bool
  | String => false
  | EscapedString => true
  | Unsigned => true

inductive Value where
  | string (s : Str)
  | escaped (s : EscapedString)
  | unsigned (n : Nat)

def Value.type : Value → FieldType
  | string _ => .String
  | escaped _ => .EscapedString
  | unsigned _ => .Unsigned

/-- The digits of a number, as `Display` has them. -/
def digits (n : Nat) : Str := (Nat.toDigits 10 n).map fun c => UInt8.ofNat c.toNat

/-- What `raw_into` or `escape_into` appends; a value has both traits only if they agree. -/
def Value.text : Value → Str
  | string s => s
  | escaped s => s.text
  | unsigned n => digits n

structure Field where
  name : Str
  type : FieldType
  optional : Bool
  value : Option Value
  typed : ∀ v ∈ value, v.type = type
  present : optional = false → value.isSome = true

abbrev Fields := List Field

def Fields.get (fields : Fields) (name : Str) : Option Field := fields.find? fun field => field.name == name

/-! ## The code of a group -/

inductive Stmt where
  /-- `__out.push_str(s)` -/
  | push_str (s : Str)
  /-- `Raw::raw_into(field, __out)` -/
  | raw_into (field : Str)
  /-- `Escape::escape_into(field, __out)` -/
  | escape_into (field : Str)
deriving DecidableEq

inductive Delim where
  /-- `if !__first { sep }` -/
  | unless_first (sep : Str)
  /-- `if __first { pfx } else { sep }` -/
  | by_first (pfx sep : Str)
deriving DecidableEq

/-- What is done for a variable of a group with optional ones; with `if_some` only if its value is there. -/
structure Tracked where
  field : Str
  if_some : Bool
  emit_delim : Delim
  emit_kv : List Stmt
  append_stmt : Stmt
deriving DecidableEq

inductive Code where
  | all_required (stmts : List Stmt)
  /-- the block that starts with `let mut __first = true` -/
  | with_optional (vars : List Tracked)
deriving DecidableEq

def is_optional (fields : Fields) (name : Str) : Bool :=
  match fields.get name with
  | some field => field.optional
  | none => false

def group_has_any_optional (names : List Str) (fields : Fields) : Bool := names.any (is_optional fields)

def append_stmt (unrestricted_params : List Str) (name : Str) : Stmt :=
  if unrestricted_params.contains name then .raw_into name else .escape_into name

def key_stmts (group : ParamGroup) (name : Str) : List Stmt :=
  if group.param_kind.is_kv then [.push_str name, .push_str [61]] else []

def required_stmts (group : ParamGroup) (unrestricted_params : List Str) (entry : Str × Nat) : List Stmt :=
  let delim := if entry.2 = 0 then group.param_kind.prefix_str else group.param_kind.separator
  (if delim.isEmpty then [] else [.push_str delim]) ++ key_stmts group entry.1 ++ [append_stmt unrestricted_params entry.1]

def render_group_all_required (group : ParamGroup) (unrestricted_params : List Str) : List Stmt :=
  group.param_names.zipIdx.flatMap (required_stmts group unrestricted_params)

def emit_delim (pfx sep : Str) : Delim := if pfx.isEmpty then .unless_first sep else .by_first pfx sep

def render_group_with_optional (group : ParamGroup) (fields : Fields) (unrestricted_params : List Str) : List Tracked :=
  group.param_names.map fun name =>
    ⟨name, is_optional fields name, emit_delim group.param_kind.prefix_str group.param_kind.separator, key_stmts group name,
      append_stmt unrestricted_params name⟩

def construct_render_group (group : ParamGroup) (fields : Fields) (unrestricted_params : List Str) : Code :=
  if group_has_any_optional group.param_names fields then
    .with_optional (render_group_with_optional group fields unrestricted_params)
  else .all_required (render_group_all_required group unrestricted_params)

/-- The names of all variables that occur with `+`. -/
def unrestricted_params (t : UriTemplate) : List Str := ((groups t).filter (·.is_unrestricted)).flatMap (·.param_names)

/-- The code of a struct: the template, if its variables are the fields. -/
def struct_template (input : Str) (fields : Fields) : Option UriTemplate := do
  let t ← parse input
  let names := (groups t).flatMap (·.param_names)
  if names.all (fun name => (fields.get name).isSome) && fields.all (fun field => names.contains field.name) then some t else none

/-! ## Whether it compiles, and what it does -/

def Stmt.compiles (fields : Fields) : Stmt → Bool
  | .push_str _ => true
  | .raw_into name => (fields.get name).any (·.type.raw)
  | .escape_into name => (fields.get name).any (·.type.escape)

def Code.compiles (fields : Fields) : Code → Bool
  | .all_required stmts => stmts.all (Stmt.compiles fields)
  | .with_optional vars => vars.all fun var => var.append_stmt.compiles fields

/-- The code of every group compiles. -/
def compiles (t : UriTemplate) (fields : Fields) : Bool :=
  (groups t).all fun group => (construct_render_group group fields (unrestricted_params t)).compiles fields

/-- What is appended, with what it comes from. -/
inductive Piece where
  | literal (s : Str)
  | value (name text : Str)
deriving DecidableEq

def Piece.text : Piece → Str
  | literal s => s
  | value _ s => s

def value_text (fields : Fields) (name : Str) : Str :=
  match (fields.get name).bind (·.value) with
  | some v => v.text
  | none => []

def Stmt.run (fields : Fields) : Stmt → Piece
  | .push_str s => .literal s
  | .raw_into name => .value name (value_text fields name)
  | .escape_into name => .value name (value_text fields name)

def Delim.run (first : Bool) : Delim → List Piece
  | .unless_first sep => if first then [] else [.literal sep]
  | .by_first pfx sep => [.literal (if first then pfx else sep)]

def is_present (fields : Fields) (name : Str) : Bool := ((fields.get name).bind (·.value)).isSome

/-- The variables one after the other; `first` is `__first`. -/
def Tracked.run (fields : Fields) : Bool → List Tracked → List Piece
  | _, [] => []
  | first, var :: vars =>
    if var.if_some && !is_present fields var.field then Tracked.run fields first vars
    else
      var.emit_delim.run first ++ var.emit_kv.map (Stmt.run fields) ++ [var.append_stmt.run fields] ++
        Tracked.run fields false vars

def Code.run (fields : Fields) : Code → List Piece
  | .all_required stmts => stmts.map (Stmt.run fields)
  | .with_optional vars => Tracked.run fields true vars

def render_group (t : UriTemplate) (fields : Fields) (group : ParamGroup) : List Piece :=
  (construct_render_group group fields (unrestricted_params t)).run fields

def render_part (t : UriTemplate) (fields : Fields) : TemplatePart → List Piece
  | .Content content => [.literal content]
  | .ParamGroup group => render_group t fields group

def render (t : UriTemplate) (fields : Fields) : Str := (t.flatMap (render_part t fields)).flatMap Piece.text

end TemplatedUri
