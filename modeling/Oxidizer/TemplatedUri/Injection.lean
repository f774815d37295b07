import Oxidizer.TemplatedUri.Model
/-!
# What values can add to a rendered template

Whether a group has optional fields or not, its text is the same: its variables that have
a value, with the prefix before the first and separators before the others. A value is
appended escaped unless its variable occurs with `+` somewhere, and then it is appended as it
is in every expression. So a `String` that also occurs without `+` brings its own delimiters.
-/

namespace TemplatedUri

open List

/-! ## The text of a group -/

/-- What precedes a variable: the prefix or the separator, if it has a text, and the key. -/
def lead (group : ParamGroup) (first : Bool) (name : Str) : List Piece :=
  let delim := if first then group.param_kind.prefix_str else group.param_kind.separator
  (if delim.isEmpty then [] else [.literal delim]) ++
    if group.param_kind.is_kv then [.literal name, .literal [61]] else []

/-- The variables that are there, each with its text. -/
def expansion (group : ParamGroup) (present : Str → Bool) (text : Str → Str) : Bool → List Str → List Piece
  | _, [] => []
  | first, name :: names =>
    if present name then lead group first name ++ .value name (text name) :: expansion group present text false names
    else expansion group present text first names

theorem separator_ne (kind : ParamKind) : kind.separator.isEmpty = false := by
  rcases kind with _ | _ | _ | _ | ⟨_ | _⟩ <;> rfl

theorem append_run (fields : Fields) (unrestricted : List Str) (name : Str) :
    (append_stmt unrestricted name).run fields = .value name (value_text fields name) := by
  unfold append_stmt
  split <;> rfl

theorem key_run (fields : Fields) (group : ParamGroup) (name : Str) :
    (key_stmts group name).map (Stmt.run fields) = if group.param_kind.is_kv then [.literal name, .literal [61]] else [] := by
  unfold key_stmts
  split <;> rfl

theorem emit_delim_run (group : ParamGroup) (first : Bool) :
    (emit_delim group.param_kind.prefix_str group.param_kind.separator).run first =
      let delim := if first then group.param_kind.prefix_str else group.param_kind.separator
      if delim.isEmpty then [] else [.literal delim] := by
  have hsep := separator_ne group.param_kind
  unfold emit_delim
  cases first with
  | true => split <;> simp_all [Delim.run]
  | false => split <;> simp [Delim.run, hsep]

variable {fields : Fields}

variable {name : Str}

theorem present_of_required (hname : (fields.get name).isSome = true)
    (hopt : is_optional fields name = false) : is_present fields name = true := by
  obtain ⟨field, hfield⟩ := Option.isSome_iff_exists.mp hname
  simp only [is_optional, hfield] at hopt
  simp only [is_present, hfield, Option.bind_some]
  exact field.present hopt

variable {names : List Str}

theorem tracked_run_eq (group : ParamGroup) (unrestricted : List Str)
    (hnames : ∀ name ∈ names, (fields.get name).isSome = true) (first : Bool) :
    Tracked.run fields first (names.map fun name =>
      ⟨name, is_optional fields name, emit_delim group.param_kind.prefix_str group.param_kind.separator, key_stmts group name,
        append_stmt unrestricted name⟩) =
      expansion group (is_present fields) (value_text fields) first names := by
  induction names generalizing first with
  | nil => rfl
  | cons name names ih =>
    have hrest := ih fun n hn => hnames n (mem_cons_of_mem _ hn)
    have hname := hnames name (mem_cons_self ..)
    rw [map_cons, Tracked.run, expansion]
    by_cases hp : is_present fields name = true
    · rw [if_neg (by simp [hp]), if_pos hp, emit_delim_run, key_run, append_run, hrest, lead]
      simp only [append_assoc, singleton_append]
    · have hopt : is_optional fields name = true := by
        by_contra hopt
        exact hp (present_of_required hname (Bool.not_eq_true _ ▸ hopt))
      rw [if_pos (by simp [hopt, hp]), if_neg hp, hrest]

theorem required_run_eq (group : ParamGroup) (unrestricted : List Str)
    (hnames : ∀ name ∈ names, is_present fields name = true) (k : Nat) :
    ((names.zipIdx k).flatMap (required_stmts group unrestricted)).map (Stmt.run fields) =
      expansion group (is_present fields) (value_text fields) (decide (k = 0)) names := by
  induction names generalizing k with
  | nil => rfl
  | cons name names ih =>
    have hrest := ih (fun n hn => hnames n (mem_cons_of_mem _ hn)) (k + 1)
    rw [zipIdx_cons, flatMap_cons, map_append, hrest, expansion, if_pos (hnames name (mem_cons_self ..)),
      required_stmts, map_append, map_append, key_run, lead]
    simp only [decide_eq_true_eq, map_cons, map_nil, append_run, append_assoc, singleton_append]
    congr 1
    split <;> split <;> rfl

theorem render_group_eq (t : UriTemplate) (group : ParamGroup)
    (hnames : ∀ name ∈ group.param_names, (fields.get name).isSome = true) :
    render_group t fields group = expansion group (is_present fields) (value_text fields) true group.param_names := by
  unfold render_group construct_render_group
  split
  · exact tracked_run_eq group _ hnames true
  · rename_i hopt
    refine required_run_eq group _ (fun name hname => present_of_required (hnames name hname) ?_) 0
    simp only [group_has_any_optional, any_eq_true, not_exists, not_and, Bool.not_eq_true] at hopt
    exact hopt name hname

variable {group : ParamGroup}

theorem mem_expansion {present : Str → Bool} {text : Str → Str} {first : Bool}
    {s : Str} (h : .value name s ∈ expansion group present text first names) : name ∈ names ∧ s = text name := by
  induction names generalizing first with
  | nil => cases h
  | cons n names ih =>
    rw [expansion] at h
    split at h
    · rcases mem_append.mp h with h | h
      · simp only [lead, mem_append] at h
        rcases h with h | h <;> split at h <;> simp at h
      · rcases mem_cons.mp h with h | h
        · cases h
          exact ⟨mem_cons_self .., rfl⟩
        · obtain ⟨hmem, hs⟩ := ih h
          exact ⟨mem_cons_of_mem _ hmem, hs⟩
    · obtain ⟨hmem, hs⟩ := ih h
      exact ⟨mem_cons_of_mem _ hmem, hs⟩

theorem expansion_mem {present : Str → Bool} (text : Str → Str) (first : Bool) (hname : name ∈ names)
    (hp : present name = true) : .value name (text name) ∈ expansion group present text first names := by
  induction names generalizing first with
  | nil => cases hname
  | cons n names ih =>
    rw [expansion]
    rcases mem_cons.mp hname with rfl | hname
    · rw [if_pos hp]
      exact mem_append_right _ mem_cons_self
    · split
      · exact mem_append_right _ (mem_cons_of_mem _ (ih false hname))
      · exact ih first hname

/-! ## Values -/

theorem digits_unreserved (n : Nat) : ∀ b ∈ digits n, is_unreserved_byte b = true := by
  intro b hb
  obtain ⟨c, hc, rfl⟩ := mem_map.mp hb
  have hdigit := Nat.isDigit_of_mem_toDigits (by decide) (by decide) hc
  have hrange : 48 ≤ c.toNat ∧ c.toNat ≤ 57 := by
    simp only [Char.isDigit, Bool.and_eq_true, decide_eq_true_eq] at hdigit
    exact hdigit
  obtain ⟨hlow, hhigh⟩ := hrange
  generalize c.toNat = n at hlow hhigh
  interval_cases n <;> rfl

theorem digits_clean (n : Nat) : Clean (digits n) := .of_unreserved (digits_unreserved n)

theorem Value.text_clean {v : Value} (h : ∀ s, v = .string s → Clean s) : Clean v.text := by
  cases v with
  | string s => exact h s rfl
  | escaped s => exact (validate_escaped_iff _).mp s.valid
  | unsigned n => exact digits_clean n

theorem value_text_clean (h : ∀ s, (fields.get name).bind (·.value) = some (.string s) → Clean s) :
    Clean (value_text fields name) := by
  unfold value_text
  split
  · rename_i v hv
    exact Value.text_clean fun s hs => h s (hs ▸ hv)
  · exact .nil

theorem not_string (h : ∀ field, fields.get name = some field → field.type ≠ .String) (s : Str) :
    (fields.get name).bind (·.value) ≠ some (.string s) := by
  intro hs
  obtain ⟨field, hfield, hvalue⟩ := Option.bind_eq_some_iff.mp hs
  exact h field hfield (field.typed _ hvalue).symm

variable {t : UriTemplate}

theorem append_compiles (hc : compiles t fields = true)
    (hg : group ∈ groups t) (hname : name ∈ group.param_names) :
    (append_stmt (unrestricted_params t) name).compiles fields = true := by
  have hgroup := all_eq_true.mp hc group hg
  unfold construct_render_group at hgroup
  split at hgroup
  · exact all_eq_true.mp hgroup _ (mem_map_of_mem hname)
  · obtain ⟨i, hi, hget⟩ := mem_iff_getElem.mp hname
    refine all_eq_true.mp hgroup _ (mem_flatMap.mpr ⟨(name, i), ?_, ?_⟩)
    · rw [mem_zipIdx_iff_getElem?, getElem?_eq_getElem hi, hget]
    · unfold required_stmts
      exact mem_append_right _ (mem_singleton.mpr rfl)

theorem type_of_restricted (hc : compiles t fields = true)
    (hg : group ∈ groups t) (hname : name ∈ group.param_names) (hres : name ∉ unrestricted_params t) {field : Field}
    (hfield : fields.get name = some field) : field.type ≠ .String := by
  have hstmt := append_compiles hc hg hname
  rw [append_stmt, if_neg (by simpa using hres)] at hstmt
  simp only [Stmt.compiles, hfield, Option.any_some] at hstmt
  intro hstring
  rw [hstring] at hstmt
  cases hstmt

theorem struct_template_names {input : Str} (ht : struct_template input fields = some t) (hg : group ∈ groups t)
    (hname : name ∈ group.param_names) :
    (fields.get name).isSome = true := by
  obtain ⟨t', -, ht⟩ := Option.bind_eq_some_iff.mp ht
  simp only at ht
  split at ht
  · rename_i hall
    cases ht
    rw [Bool.and_eq_true, all_eq_true] at hall
    exact hall.1 name (mem_flatMap.mpr ⟨group, hg, hname⟩)
  · cases ht

/-! ## Delimiters -/

/-- `/`, `?`, `&`, `;`, `,` and `=`. -/
def is_delimiter (b : UInt8) : Bool := b == 47 || b == 63 || b == 38 || b == 59 || b == 44 || b == 61

def delimiters (s : Str) : Str := s.filter is_delimiter

theorem unreserved_not_delimiter {b : UInt8} (h : is_unreserved_byte b = true) : is_delimiter b = false := by
  rw [Bool.eq_false_iff]
  intro hd
  simp only [is_delimiter, Bool.or_eq_true, beq_iff_eq] at hd
  rcases hd with ((((rfl | rfl) | rfl) | rfl) | rfl) | rfl <;> exact absurd h (by decide)

theorem hexdigit_unreserved {b : UInt8} (h : is_ascii_hexdigit b = true) : is_unreserved_byte b = true := by
  unfold is_ascii_hexdigit at h
  unfold is_unreserved_byte
  grind

theorem Clean.delimiters {s : Str} (h : Clean s) : delimiters s = [] := by
  induction h with
  | nil => rfl
  | unreserved hb _ ih =>
    rw [TemplatedUri.delimiters, filter_cons_of_neg (by simp [unreserved_not_delimiter hb])]
    exact ih
  | triplet hh hl _ ih =>
    have hhigh := unreserved_not_delimiter (hexdigit_unreserved hh)
    have hlow := unreserved_not_delimiter (hexdigit_unreserved hl)
    rw [TemplatedUri.delimiters, filter_cons_of_neg (by decide), filter_cons_of_neg (by simp [hhigh]),
      filter_cons_of_neg (by simp [hlow])]
    exact ih

theorem expansion_delimiters (present : Str → Bool) {text text' : Str → Str} (first : Bool)
    (h : ∀ name ∈ names, Clean (text name)) (h' : ∀ name ∈ names, Clean (text' name)) :
    delimiters ((expansion group present text first names).flatMap Piece.text) =
      delimiters ((expansion group present text' first names).flatMap Piece.text) := by
  induction names generalizing first with
  | nil => rfl
  | cons name names ih =>
    have hrest := fun first => ih first (fun n hn => h n (mem_cons_of_mem _ hn)) (fun n hn => h' n (mem_cons_of_mem _ hn))
    have hhead := (h name (mem_cons_self ..)).delimiters
    have hhead' := (h' name (mem_cons_self ..)).delimiters
    simp only [expansion]
    split
    · unfold delimiters at *
      simp only [flatMap_append, flatMap_cons, filter_append, Piece.text, hhead, hhead', hrest]
    · exact hrest first

/-- With no `+` in a template, values change no delimiter. -/
theorem render_delimiters {input : Str} {fields fields' : Fields}
    (hplus : ∀ group ∈ groups t, group.is_unrestricted = false)
    (ht : struct_template input fields = some t) (hc : compiles t fields = true)
    (ht' : struct_template input fields' = some t) (hc' : compiles t fields' = true)
    (hsame : ∀ name, is_present fields name = is_present fields' name) :
    delimiters (render t fields) = delimiters (render t fields') := by
  have hnone : unrestricted_params t = [] := by
    unfold unrestricted_params
    rw [filter_eq_nil_iff.mpr fun group hg => by rw [hplus group hg]; exact Bool.false_ne_true]
    rfl
  have hclean : ∀ {f : Fields}, compiles t f = true → ∀ group ∈ groups t, ∀ name ∈ group.param_names,
      Clean (value_text f name) := fun hc group hg name hname => value_text_clean fun s hs => absurd hs
    (not_string (fun field hfield => type_of_restricted hc hg hname (by rw [hnone]; exact not_mem_nil) hfield) s)
  have hfun : is_present fields = is_present fields' := funext hsame
  have hpart : ∀ part ∈ t, delimiters ((render_part t fields part).flatMap Piece.text) =
      delimiters ((render_part t fields' part).flatMap Piece.text) := by
    intro part hpart
    cases part with
    | Content content => rfl
    | ParamGroup group =>
      have hg : group ∈ groups t := mem_filterMap.mpr ⟨_, hpart, rfl⟩
      simp only [render_part]
      rw [render_group_eq t group fun name hname => struct_template_names ht hg hname,
        render_group_eq t group fun name hname => struct_template_names ht' hg hname, hfun]
      exact expansion_delimiters _ true (hclean hc group hg) (hclean hc' group hg)
  unfold render
  unfold delimiters at hpart ⊢
  rw [flatMap_assoc, flatMap_assoc, filter_flatMap, filter_flatMap]
  exact flatMap_congr hpart

/-! ## The guarantee -/

/-- Occurrences without `+` add unreserved bytes and triplets only, exactly if every `String` among their values has no
others. What `escape` made is decoded back, and in a template with no `+` values change no delimiter. -/
theorem values_add_no_delimiters {input : Str} {fields : Fields} {t : UriTemplate} (ht : struct_template input fields = some t)
    (hc : compiles t fields = true) :
    ((∀ group ∈ groups t, group.is_unrestricted = false → ∀ name text, .value name text ∈ render_group t fields group →
        Clean text) ↔
      ∀ group ∈ groups t, group.is_unrestricted = false → ∀ name ∈ group.param_names, ∀ s,
        (fields.get name).bind (·.value) = some (.string s) → Clean s) ∧
    (∀ group ∈ groups t, ∀ name text, .value name text ∈ render_group t fields group →
      ∀ s, (fields.get name).bind (·.value) = some (.escaped (.escape s)) → percent_decode text = some s) ∧
    ((∀ group ∈ groups t, group.is_unrestricted = false) → ∀ fields', struct_template input fields' = some t →
      compiles t fields' = true → (∀ name, is_present fields name = is_present fields' name) →
      delimiters (render t fields) = delimiters (render t fields')) := by
  have hrender : ∀ group ∈ groups t, render_group t fields group =
      expansion group (is_present fields) (value_text fields) true group.param_names :=
    fun group hg => render_group_eq t group fun name hname => struct_template_names ht hg hname
  refine ⟨⟨fun h group hg hplus name hname s hs => ?_, fun h group hg hplus name text hmem => ?_⟩,
    fun group hg name text hmem s hs => ?_, fun hplus fields' ht' hc' hsame => render_delimiters hplus ht hc ht' hc' hsame⟩
  · have hmem : .value name (value_text fields name) ∈
        expansion group (is_present fields) (value_text fields) true group.param_names :=
      expansion_mem _ true hname (by rw [is_present, hs]; rfl)
    rw [← hrender group hg] at hmem
    simpa only [value_text, hs, Value.text] using h group hg hplus name _ hmem
  · rw [hrender group hg] at hmem
    obtain ⟨hname, rfl⟩ := mem_expansion hmem
    exact value_text_clean (h group hg hplus name hname)
  · rw [hrender group hg] at hmem
    obtain ⟨-, rfl⟩ := mem_expansion hmem
    simp only [value_text, hs, Value.text]
    exact percent_decode_escape s

/-- `/{a}{?b}`, with an escaped `a` and no `b`. -/
def lookup : Str := [47, 123, 97, 125, 123, 63, 98, 125]

def lookup_fields : Fields :=
  [⟨[97], .EscapedString, false, some (.escaped (.escape [47, 63])), by rintro v ⟨⟩; rfl, fun _ => rfl⟩,
    ⟨[98], .Unsigned, true, none, nofun, nofun⟩]

theorem values_add_no_delimiters_lookup :
    Clean (value_text lookup_fields [97]) ∧ percent_decode (value_text lookup_fields [97]) = some [47, 63] := by
  have ht : struct_template lookup lookup_fields =
      some [.Content [47], .ParamGroup ⟨.Simple, [[97]]⟩, .ParamGroup ⟨.Form true, [[98]]⟩] := rfl
  obtain ⟨hclean, hdecode, -⟩ := values_add_no_delimiters ht rfl
  have hgroup : ⟨.Simple, [[97]]⟩ ∈ groups [.Content [47], .ParamGroup ⟨.Simple, [[97]]⟩, .ParamGroup ⟨.Form true, [[98]]⟩] := by
    decide
  refine ⟨hclean.mpr ?_ _ hgroup rfl [97] _ (mem_singleton.mpr rfl), hdecode _ hgroup [97] _ (mem_singleton.mpr rfl) _ rfl⟩
  rintro group hg - name hname s hs
  simp [groups] at hg
  rcases hg with rfl | rfl <;> cases mem_singleton.mp hname <;> cases hs

/-- `/{+x}/{x}`. -/
def twice : Str := [47, 123, 43, 120, 125, 47, 123, 120, 125]

/-- `x` is the string `a/b`. -/
def twice_fields : Fields := [⟨[120], .String, false, some (.string [97, 47, 98]), by rintro v ⟨⟩; rfl, fun _ => rfl⟩]

/-- The second occurrence has no `+`, and brings a slash. -/
theorem string_with_and_without_plus : ∃ t group, struct_template twice twice_fields = some t ∧ compiles t twice_fields = true ∧
    group ∈ groups t ∧ group.is_unrestricted = false ∧ .value [120] [97, 47, 98] ∈ render_group t twice_fields group ∧
    ¬ Clean [97, 47, 98] := by
  refine ⟨[.Content [47], .ParamGroup ⟨.Unfiltered, [[120]]⟩, .Content [47], .ParamGroup ⟨.Simple, [[120]]⟩], ⟨.Simple, [[120]]⟩,
    rfl, rfl, by decide, rfl, mem_singleton.mpr rfl, ?_⟩
  rw [← validate_escaped_iff]
  decide

end TemplatedUri
