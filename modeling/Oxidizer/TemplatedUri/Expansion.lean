import Oxidizer.TemplatedUri.Injection
/-!
# Rendering and the expansion of RFC 6570

`expand` is the expansion of a template by the operators' table of the standard. The
rendered text is the same, but for an empty value after `;`, where the standard has no `=`.
`RedactedDisplay` writes the rendered text with other texts in the place of the values.
-/

namespace TemplatedUri

open List

/-! ## The standard -/

/-- A row of the table; `allow_reserved` is the set U+R of its last column. -/
structure Operator where
  first : Str
  sep : Str
  named : Bool
  ifemp : Str
  allow_reserved : Bool

def operator : ParamKind → Operator
  | .Simple => ⟨[], [44], false, [], false⟩
  | .Unfiltered => ⟨[], [44], false, [], true⟩
  | .Prefixed .Dot => ⟨[46], [46], false, [], false⟩
  | .Prefixed .Slash => ⟨[47], [47], false, [], false⟩
  | .SemicolonKV => ⟨[59], [59], true, [], false⟩
  | .Form true => ⟨[63], [38], true, [61], false⟩
  | .Form false => ⟨[38], [38], true, [61], false⟩

/-- `:/?#[]@` and `!$&'()*+,;=`. -/
def is_reserved (b : UInt8) : Bool :=
  [58, 47, 63, 35, 91, 93, 64, 33, 36, 38, 39, 40, 41, 42, 43, 44, 59, 61].contains b

/-- Reserved and unreserved bytes and triplets are copied, the others encoded. -/
def copy : Str → Str
  | [] => []
  | b :: rest =>
    if b = PERCENT then
      match rest with
      | high :: low :: tail =>
        if is_ascii_hexdigit high && is_ascii_hexdigit low then b :: high :: low :: copy tail
        else encode_byte b ++ copy (high :: low :: tail)
      | rest => encode_byte b ++ copy rest
    else (if is_reserved b then [b] else encode_byte b) ++ copy rest

def encode (op : Operator) (s : Str) : Str := if op.allow_reserved then copy s else s.flatMap encode_byte

/-- The variables of an expression; `first` until one is defined. -/
def expand_vars (op : Operator) (values : Str → Option Str) : Bool → List Str → Str
  | _, [] => []
  | first, name :: names =>
    match values name with
    | none => expand_vars op values first names
    | some s =>
      (if first then op.first else op.sep) ++
        ((if op.named then name ++ (if s.isEmpty then op.ifemp else 61 :: encode op s) else encode op s) ++
          expand_vars op values false names)

def expand_part (values : Str → Option Str) : TemplatePart → Str
  | .Content content => copy content
  | .ParamGroup group => expand_vars (operator group.param_kind) values true group.param_names

def expand (t : UriTemplate) (values : Str → Option Str) : Str := t.flatMap (expand_part values)

/-! ## Redacted text -/

/-- The attributes of the struct and its fields, and the two forms of a value that `Display` and a redactor give. -/
structure Redaction where
  unredacted : Bool
  field_unredacted : Str → Bool
  plain : Value → Str
  redacted : Value → Str

namespace Redaction
variable (r : Redaction) (fields : Fields)

def display_value (name : Str) : Str :=
  match (fields.get name).bind (·.value) with
  | some v => if r.unredacted || r.field_unredacted name then r.plain v else r.redacted v
  | none => []

def redacted_display_group_all_required (group : ParamGroup) (entry : Str × Nat) : List Piece :=
  let delim := if entry.2 = 0 then group.param_kind.prefix_str else group.param_kind.separator
  (if delim.isEmpty then [] else [.literal delim]) ++
    ((if group.param_kind.is_kv then [.literal entry.1, .literal [61]] else []) ++
      [.value entry.1 (r.display_value fields entry.1)])

def redacted_display_group_with_optional (group : ParamGroup) : Bool → List Str → List Piece
  | _, [] => []
  | first, name :: names =>
    if is_optional fields name && !is_present fields name then redacted_display_group_with_optional group first names
    else
      (emit_delim group.param_kind.prefix_str group.param_kind.separator).run first ++
        ((if group.param_kind.is_kv then [.literal name, .literal [61]] else []) ++
          .value name (r.display_value fields name) :: redacted_display_group_with_optional group false names)

def construct_redacted_display_group (group : ParamGroup) : List Piece :=
  if group_has_any_optional group.param_names fields then
    r.redacted_display_group_with_optional fields group true group.param_names
  else group.param_names.zipIdx.flatMap (r.redacted_display_group_all_required fields group)

def construct_redacted_display (t : UriTemplate) : List Piece :=
  t.flatMap fun part => match part with
    | .Content content => [.literal content]
    | .ParamGroup group => r.construct_redacted_display_group fields group

/-- The piece with the text that is shown for its value. -/
def shows : Piece → Piece
  | .literal s => .literal s
  | .value name _ => .value name (r.display_value fields name)

variable {r fields} {group : ParamGroup} (unrestricted : List Str)

theorem all_required_shows :
    group.param_names.zipIdx.flatMap (r.redacted_display_group_all_required fields group) =
      ((render_group_all_required group unrestricted).map (Stmt.run fields)).map (r.shows fields) := by
  rw [render_group_all_required, map_flatMap, map_flatMap]
  refine flatMap_congr fun entry _ => ?_
  simp only [redacted_display_group_all_required, required_stmts, map_append, key_run, append_assoc, map_cons, map_nil,
    append_run]
  congr 1
  · split <;> split <;> rfl
  · split <;> rfl

theorem with_optional_shows (first : Bool) (names : List Str) :
    r.redacted_display_group_with_optional fields group first names =
      (Tracked.run fields first (render_group_with_optional { group with param_names := names } fields unrestricted)).map
        (r.shows fields) := by
  induction names generalizing first with
  | nil => rfl
  | cons name names ih =>
    have hdelim : ∀ delim : Delim, (delim.run first).map (r.shows fields) = delim.run first := by
      rintro (_ | _) <;> cases first <;> rfl
    simp only [redacted_display_group_with_optional, render_group_with_optional, map_cons, Tracked.run, ih]
    split
    · rfl
    · simp only [map_append, hdelim, key_run, append_run, append_assoc, map_cons, map_nil]
      congr 2
      split <;> rfl

theorem group_shows (t : UriTemplate) :
    r.construct_redacted_display_group fields group = (render_group t fields group).map (r.shows fields) := by
  unfold construct_redacted_display_group render_group construct_render_group
  split
  · exact with_optional_shows _ true group.param_names
  · exact all_required_shows _

end Redaction

/-! ## Assignments -/

/-- Reserved and unreserved bytes and triplets. -/
inductive UriText : Str → Prop where
  | nil : UriText []
  | char {b : UInt8} {rest : Str} (h : is_reserved b = true ∨ is_unreserved_byte b = true) (hrest : UriText rest) :
      UriText (b :: rest)
  | triplet {high low : UInt8} {rest : Str} (hh : is_ascii_hexdigit high = true) (hl : is_ascii_hexdigit low = true)
      (hrest : UriText rest) : UriText (PERCENT :: high :: low :: rest)

theorem UriText.copy_eq {s : Str} (h : UriText s) : copy s = s := by
  induction h with
  | nil => rfl
  | @char b rest h _ ih =>
    have hne : b ≠ PERCENT := by
      rintro rfl
      exact absurd h (by decide)
    rw [copy.eq_def]
    simp only [if_neg hne, ih]
    split
    · rfl
    · next hres =>
      rw [encode_byte, if_pos (h.resolve_left hres)]
      rfl
  | triplet hh hl _ ih => simp [copy, hh, hl, ih]

/-- A field holds what its variable is given: with `+` a text that is left as it is, and else an escaped string or a
number with these digits. -/
def Field.Given (unrestricted : Prop) (field : Field) : Option Str → Prop
  | none => field.value = none
  | some s => ∃ v, field.value = some v ∧ (unrestricted → v.text = s ∧ UriText s) ∧
      (¬unrestricted → v = .escaped (.escape s) ∨ ∃ n, v = .unsigned n ∧ s = digits n)

/-- An accepted template of URI characters, in which no variable occurs with and without `+`, and the values given to its
variables. -/
structure Assignment (input : Str) (t : UriTemplate) (fields : Fields) (values : Str → Option Str) : Prop where
  accepted : struct_template input fields = some t
  literals : ∀ content, .Content content ∈ t → UriText content
  apart : ∀ group ∈ groups t, ∀ name ∈ group.param_names, name ∈ unrestricted_params t → group.is_unrestricted = true
  given : ∀ name field, fields.get name = some field → field.Given (name ∈ unrestricted_params t) (values name)

variable {input : Str} {t : UriTemplate} {fields : Fields} {values : Str → Option Str} {group : ParamGroup} {name : Str}

theorem Assignment.present (h : Assignment input t fields values) (hg : group ∈ groups t) (hname : name ∈ group.param_names) :
    is_present fields name = (values name).isSome := by
  obtain ⟨field, hfield⟩ := Option.isSome_iff_exists.mp (struct_template_names h.accepted hg hname)
  have hgiven := h.given name field hfield
  simp only [is_present, hfield, Option.bind_some]
  cases hv : values name with
  | none =>
    rw [hv] at hgiven
    rw [show field.value = none from hgiven]
    rfl
  | some s =>
    rw [hv] at hgiven
    obtain ⟨v, hvalue, -⟩ := hgiven
    rw [hvalue]
    rfl

theorem Assignment.text (h : Assignment input t fields values) (hg : group ∈ groups t) (hname : name ∈ group.param_names)
    {s : Str} (hs : values name = some s) : value_text fields name = encode (operator group.param_kind) s := by
  obtain ⟨field, hfield⟩ := Option.isSome_iff_exists.mp (struct_template_names h.accepted hg hname)
  obtain ⟨v, hvalue, hraw, hescaped⟩ : field.Given (name ∈ unrestricted_params t) (some s) := hs ▸ h.given name field hfield
  simp only [value_text, hfield, Option.bind_some, hvalue]
  by_cases hplus : group.param_kind = .Unfiltered
  · have hmem : name ∈ unrestricted_params t :=
      mem_flatMap.mpr ⟨group, mem_filter.mpr ⟨hg, by rw [ParamGroup.is_unrestricted, hplus]; rfl⟩, hname⟩
    obtain ⟨htext, huri⟩ := hraw hmem
    rw [htext, hplus]
    exact huri.copy_eq.symm
  · have hallow : (operator group.param_kind).allow_reserved = false := by
      revert hplus
      rcases group.param_kind with _ | _ | _ | ⟨_ | _⟩ | ⟨_ | _⟩ <;> simp [operator]
    rw [encode, if_neg (by simp [hallow])]
    rcases hescaped fun hmem => hplus (by simpa [ParamGroup.is_unrestricted] using h.apart group hg name hname hmem)
      with rfl | ⟨n, rfl, rfl⟩
    · exact escape_text_eq s
    · exact (flatMap_encode_unreserved (digits_unreserved n)).symm

/-! ## The rendered text -/

theorem operator_eq (kind : ParamKind) : (operator kind).first = kind.prefix_str ∧ (operator kind).sep = kind.separator ∧
    (operator kind).named = kind.is_kv := by
  rcases kind with _ | _ | _ | ⟨_ | _⟩ | ⟨_ | _⟩ <;> exact ⟨rfl, rfl, rfl⟩

theorem lead_text (group : ParamGroup) (first : Bool) (name : Str) :
    (lead group first name).flatMap Piece.text = (if first then (operator group.param_kind).first else (operator group.param_kind).sep) ++
      if (operator group.param_kind).named then name ++ [61] else [] := by
  obtain ⟨hfirst, hsep, hnamed⟩ := operator_eq group.param_kind
  simp only [hfirst, hsep, hnamed, lead, flatMap_append]
  generalize (if first then group.param_kind.prefix_str else group.param_kind.separator) = delim
  congr 1
  · split
    · next h => exact (List.isEmpty_iff.mp h).symm
    · exact append_nil _
  · split
    · simp [Piece.text]
    · rfl

/-- The code writes `=` after every name. -/
theorem expansion_text (h : Assignment input t fields values) (hg : group ∈ groups t) {names : List Str}
    (hnames : ∀ name ∈ names, name ∈ group.param_names) (first : Bool) :
    (expansion group (is_present fields) (value_text fields) first names).flatMap Piece.text =
      expand_vars { operator group.param_kind with ifemp := [61] } values first names := by
  induction names generalizing first with
  | nil => rfl
  | cons name names ih =>
    have hrest := ih fun n hn => hnames n (mem_cons_of_mem _ hn)
    have hname := hnames name (mem_cons_self ..)
    rw [expansion, expand_vars, h.present hg hname]
    cases hs : values name with
    | none => exact hrest first
    | some s =>
      have htext := h.text hg hname hs
      simp only [Option.isSome_some, if_true, flatMap_append, flatMap_cons, lead_text, Piece.text, hrest, htext, append_assoc]
      congr 1
      rw [← append_assoc]
      congr 1
      split
      · cases s with
        | nil => simp [encode, copy]
        | cons b s => simp [encode]
      · rfl

/-- Two texts for an empty value after a name: the expansions are the same only if no value is empty. -/
theorem expand_vars_ifemp (values : Str → Option Str) (op : Operator) {e : Str} (he : op.ifemp.length ≤ e.length) (first : Bool) (names : List Str) :
    (expand_vars op values first names).length ≤ (expand_vars { op with ifemp := e } values first names).length ∧
      (expand_vars { op with ifemp := e } values first names = expand_vars op values first names ↔
        (op.named = true → ∀ name ∈ names, values name = some [] → e = op.ifemp)) := by
  induction names generalizing first with
  | nil => simp [expand_vars]
  | cons name names ih =>
    obtain ⟨hle, hiff⟩ := ih first
    obtain ⟨hle', hiff'⟩ := ih false
    rw [expand_vars, expand_vars]
    cases hs : values name with
    | none => simpa [hs] using ⟨hle, hiff⟩
    | some s =>
      by_cases hn : op.named = true
      · by_cases hempty : s = []
        · subst hempty
          simp only [if_pos hn, isEmpty_nil, if_true, append_cancel_left_eq, append_assoc, length_append, hs, mem_cons,
            forall_eq_or_imp, forall_const]
          refine ⟨by omega, ⟨fun heq => ?_, fun h => ?_⟩⟩
          · -- neither part is shorter, so both are equal
            have hlen := congrArg length heq
            simp only [length_append] at hlen
            obtain ⟨h1, h2⟩ := append_inj heq (by omega)
            exact fun _ => ⟨h1, hiff'.mp h2 hn⟩
          · rw [hiff'.mpr fun _ => (h hn).2, (h hn).1]
        · simp_all [encode]
      · simp_all [encode]

/-! ## The whole template -/

/-- Lists that are nowhere shorter than others are the same together only if they are the same one by one. -/
theorem flatMap_eq_iff {α β : Type} {f g : α → List β} {l : List α} (h : ∀ a ∈ l, (g a).length ≤ (f a).length) :
    (l.flatMap g).length ≤ (l.flatMap f).length ∧ (l.flatMap f = l.flatMap g ↔ ∀ a ∈ l, f a = g a) := by
  induction l with
  | nil => simp
  | cons a l ih =>
    obtain ⟨hle, hiff⟩ := ih fun b hb => h b (mem_cons_of_mem _ hb)
    have ha := h a (mem_cons_self ..)
    simp only [flatMap_cons, length_append, forall_mem_cons]
    refine ⟨by omega, fun heq => ?_, fun heq => by rw [heq.1, hiff.mpr heq.2]⟩
    have hlen := congrArg length heq
    simp only [length_append] at hlen
    obtain ⟨h1, h2⟩ := append_inj heq (by omega)
    exact ⟨h1, hiff.mp h2⟩

theorem part_text (h : Assignment input t fields values) {part : TemplatePart} (hpart : part ∈ t) :
    (expand_part values part).length ≤ ((render_part t fields part).flatMap Piece.text).length ∧
      ((render_part t fields part).flatMap Piece.text = expand_part values part ↔
        ∀ group, part = .ParamGroup group → group.param_kind = .SemicolonKV → ∀ name ∈ group.param_names,
          values name ≠ some []) := by
  cases part with
  | Content content => simp [render_part, expand_part, Piece.text, (h.literals content hpart).copy_eq]
  | ParamGroup group =>
    have hg : group ∈ groups t := mem_filterMap.mpr ⟨_, hpart, rfl⟩
    have hlen : (operator group.param_kind).ifemp.length ≤ [(61 : UInt8)].length := by
      rcases group.param_kind with _ | _ | _ | ⟨_ | _⟩ | ⟨_ | _⟩ <;> decide
    obtain ⟨hle, hiff⟩ := expand_vars_ifemp values (operator group.param_kind) hlen true group.param_names
    rw [render_part, render_group_eq t group fun name hname => struct_template_names h.accepted hg hname,
      expansion_text h hg (fun _ h => h) true, expand_part]
    refine ⟨hle, hiff.trans ?_⟩
    simp only [TemplatePart.ParamGroup.injEq, forall_eq']
    rcases group.param_kind with _ | _ | _ | ⟨_ | _⟩ | ⟨_ | _⟩ <;> simp [operator]

/-- The rendered text is the expansion; groups with optional fields are rendered like those without where all values are
there; and the redacted text differs in the values only. -/
structure Expands (t : UriTemplate) (fields : Fields) (values : Str → Option Str) : Prop where
  text : render t fields = expand t values
  paths : ∀ group ∈ groups t, (∀ name ∈ group.param_names, is_present fields name = true) →
    (Code.all_required (render_group_all_required group (unrestricted_params t))).run fields =
        (Code.with_optional (render_group_with_optional group fields (unrestricted_params t))).run fields ∧
      ∀ r : Redaction, group.param_names.zipIdx.flatMap (r.redacted_display_group_all_required fields group) =
        r.redacted_display_group_with_optional fields group true group.param_names
  redacted : ∀ r : Redaction, r.construct_redacted_display fields t = (t.flatMap (render_part t fields)).map (r.shows fields)

theorem paths_agree (hnames : ∀ name ∈ group.param_names, (fields.get name).isSome = true)
    (h : ∀ name ∈ group.param_names, is_present fields name = true) (unrestricted : List Str) :
    (Code.all_required (render_group_all_required group unrestricted)).run fields =
        (Code.with_optional (render_group_with_optional group fields unrestricted)).run fields ∧
      ∀ r : Redaction, group.param_names.zipIdx.flatMap (r.redacted_display_group_all_required fields group) =
        r.redacted_display_group_with_optional fields group true group.param_names := by
  have hrun := (required_run_eq group unrestricted h 0).trans (tracked_run_eq group unrestricted hnames true).symm
  refine ⟨hrun, fun r => ?_⟩
  rw [Redaction.with_optional_shows unrestricted, Redaction.all_required_shows unrestricted]
  exact congrArg (map (r.shows fields)) hrun

theorem redacted_eq (r : Redaction) :
    r.construct_redacted_display fields t = (t.flatMap (render_part t fields)).map (r.shows fields) := by
  rw [Redaction.construct_redacted_display, map_flatMap]
  refine flatMap_congr fun part _ => ?_
  cases part with
  | Content content => rfl
  | ParamGroup group => exact Redaction.group_shows t

/-- Rendering is the expansion of the standard exactly if no variable of a `;` expression has an empty value. -/
theorem render_expands_iff {input : Str} {t : UriTemplate} {fields : Fields} {values : Str → Option Str}
    (h : Assignment input t fields values) :
    Expands t fields values ↔
      ∀ group ∈ groups t, group.param_kind = .SemicolonKV → ∀ name ∈ group.param_names, values name ≠ some [] := by
  have htext : render t fields = expand t values ↔
      ∀ group ∈ groups t, group.param_kind = .SemicolonKV → ∀ name ∈ group.param_names, values name ≠ some [] := by
    unfold render expand
    rw [flatMap_assoc, (flatMap_eq_iff fun part hpart => (part_text h hpart).1).2]
    constructor
    · intro hall group hg
      obtain ⟨part, hpart, heq⟩ := mem_filterMap.mp hg
      cases part with
      | Content => cases heq
      | ParamGroup g =>
        cases heq
        exact (part_text h hpart).2.mp (hall _ hpart) group rfl
    · intro hall part hpart
      refine (part_text h hpart).2.mpr fun group hgroup => hall group ?_
      exact mem_filterMap.mpr ⟨part, hpart, by rw [hgroup]⟩
  refine ⟨fun hx => htext.mp hx.text, fun hcond => ⟨htext.mpr hcond, fun group hg hall => ?_, redacted_eq⟩⟩
  exact paths_agree (fun name hname => struct_template_names h.accepted hg hname) hall _

/-- `/{;a}`. -/
def semicolon : Str := [47, 123, 59, 97, 125]

def semicolon_fields (s : Str) : Fields := [⟨[97], .EscapedString, false, some (.escaped (.escape s)), by rintro v ⟨⟩; rfl, fun _ => rfl⟩]

theorem semicolon_assignment (s : Str) :
    Assignment semicolon [.Content [47], .ParamGroup ⟨.SemicolonKV, [[97]]⟩] (semicolon_fields s) fun _ => some s where
  accepted := rfl
  literals := by
    intro content hc
    obtain rfl : content = [47] := by simpa using hc
    exact .char (.inl rfl) .nil
  apart := by
    rintro group - name - hmem
    exact absurd hmem not_mem_nil
  given := by
    intro name field hfield
    rw [mem_singleton.mp (mem_of_find?_eq_some hfield)]
    exact ⟨_, rfl, fun hmem => absurd hmem not_mem_nil, fun _ => .inl rfl⟩

theorem render_expands_iff_letter :
    Expands [.Content [47], .ParamGroup ⟨.SemicolonKV, [[97]]⟩] (semicolon_fields [98]) fun _ => some [98] :=
  (render_expands_iff (semicolon_assignment [98])).mpr fun _ _ _ _ _ => by decide

/-- An empty value is written with an `=`. -/
theorem semicolon_empty_value :
    let t : UriTemplate := [.Content [47], .ParamGroup ⟨.SemicolonKV, [[97]]⟩]
    Assignment semicolon t (semicolon_fields []) (fun _ => some []) ∧ render t (semicolon_fields []) = [47, 59, 97, 61] ∧
      expand t (fun _ => some []) = [47, 59, 97] ∧ ¬ Expands t (semicolon_fields []) fun _ => some [] := by
  refine ⟨semicolon_assignment [], rfl, rfl, fun h => ?_⟩
  have htext := h.text
  exact absurd htext (by decide)

end TemplatedUri
