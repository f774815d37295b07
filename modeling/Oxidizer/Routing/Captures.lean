import Oxidizer.Routing.Precedence
/-!
# What is captured

A variable captures the text of the segments its atoms match, from the start
of the first to the end of the last, or to the end of the path under `**`; an
affix captures what lies between its two literals. The plans a leaf carries
cut exactly that out of the path. The cuts of an affix are at character
boundaries: its literals are ASCII, and in UTF-8 a continuation byte never
follows an ASCII byte.
-/

namespace Routing

open Lib Lib.Exec List

/-! ## Character boundaries -/

def utf8 (text : String) : Str := text.toList.flatMap String.utf8EncodeChar

/-- A byte that starts a character. -/
def Leads (b : UInt8) : Prop := b.toNat < 128 ∨ 192 ≤ b.toNat

/-- A continuation byte follows a byte that is not ASCII. -/
def Chars (body : Str) : Prop := body.IsChain fun a b => 128 ≤ a.toNat ∨ Leads b

theorem utf8EncodeChar_spec (c : Char) : ∃ b bs, String.utf8EncodeChar c = b :: bs ∧ Leads b ∧
    (bs ≠ [] → 128 ≤ b.toNat) ∧ ∀ x ∈ bs, 128 ≤ x.toNat := by
  unfold String.utf8EncodeChar Leads
  simp only
  generalize c.val.toNat = v
  split
  · refine ⟨_, _, rfl, ?_, ?_, ?_⟩ <;> simp
    omega
  · split
    · refine ⟨_, _, rfl, ?_, ?_, ?_⟩ <;> simp <;> omega
    · split
      · refine ⟨_, _, rfl, ?_, ?_, ?_⟩ <;> simp <;> omega
      · refine ⟨_, _, rfl, ?_, ?_, ?_⟩ <;> simp <;> omega

theorem chars_utf8 (text : String) : Chars (utf8 text) := by
  have h : ∀ cs : List Char, Chars (cs.flatMap String.utf8EncodeChar) ∧
      ∀ b ∈ (cs.flatMap String.utf8EncodeChar).head?, Leads b := by
    intro cs
    induction cs with
    | nil => exact ⟨List.IsChain.nil, by simp⟩
    | cons c cs ih =>
      obtain ⟨b, bs, henc, hb, hne, hbs⟩ := utf8EncodeChar_spec c
      rw [flatMap_cons, henc]
      refine ⟨isChain_append.mpr ⟨?_, ih.1, fun x _ y hy => .inr (ih.2 y hy)⟩, ?_⟩
      · refine (pairwise_cons.mpr ⟨fun x hx => ?_, ?_⟩).isChain
        · exact .inl (hne (ne_nil_of_mem hx))
        · exact pairwise_of_forall_mem_list fun x hx y _ => .inl (hbs x hx)
      · intro y hy
        cases hy
        exact hb
  exact (h text.toList).1

variable {body : Str} {i : Nat} {b : UInt8}

theorem boundary_iff_leads (hi : body[i]? = some b) (hb : Leads b) :
    is_char_boundary body i = true := by
  unfold is_char_boundary
  rw [hi]
  simp only [Bool.or_eq_true, decide_eq_true_eq, UInt8.lt_iff_toNat_lt, UInt8.le_iff_toNat_le]
  exact .inr hb

theorem boundary_before (h : i = body.length ∨ ∃ b, body[i]? = some b ∧ b.toNat < 128) :
    is_char_boundary body i = true := by
  rcases h with rfl | ⟨b, hi, hb⟩
  · simp [is_char_boundary]
  · exact boundary_iff_leads hi (.inl hb)

theorem boundary_after (hbody : Chars body) (hle : i ≤ body.length)
    (h : i = 0 ∨ ∃ a, body[i - 1]? = some a ∧ a.toNat < 128) : is_char_boundary body i = true := by
  rcases Nat.lt_or_eq_of_le hle with hlt | rfl
  · rcases h with rfl | ⟨a, ha, hascii⟩
    · simp [is_char_boundary]
    · cases i with
      | zero => simp [is_char_boundary]
      | succ i =>
        obtain ⟨hi, rfl⟩ := List.getElem?_eq_some_iff.mp ha
        have := isChain_iff_getElem.mp hbody i hlt
        refine boundary_iff_leads (getElem?_eq_getElem hlt) (this.resolve_left ?_)
        simp only [Nat.add_sub_cancel] at hascii
        omega
  · exact boundary_before (.inl rfl)

def STAR : UInt8 := 42

/-- ASCII, and none of the characters that end a segment or a path or stand for a wildcard. -/
def Plain (b : UInt8) : Prop := b.toNat < 128 ∧ b ≠ STAR ∧ b ≠ SLASH ∧ b ≠ QUESTION ∧ b ≠ HASH

theorem alphanumeric_plain (h : is_ascii_alphanumeric b = true) : Plain b := by
  simp only [is_ascii_alphanumeric, Bool.or_eq_true, Bool.and_eq_true, decide_eq_true_eq, UInt8.le_iff_toNat_le] at h
  simp only [Plain, STAR, SLASH, QUESTION, HASH, ← UInt8.toNat_inj, ne_eq]
  simp at h ⊢
  omega

theorem hexdigit_plain (h : is_ascii_hexdigit b = true) : Plain b := by
  refine alphanumeric_plain ?_
  simp only [is_ascii_hexdigit, is_ascii_alphanumeric, Bool.or_eq_true, Bool.and_eq_true, decide_eq_true_eq,
    UInt8.le_iff_toNat_le] at h ⊢
  simp at h ⊢
  omega

theorem literal_plain {text : Str} (h : is_valid_literal_bytes text = true) : ∀ b ∈ text, Plain b := by
  fun_induction is_valid_literal_bytes text with
  | case1 => simp
  | case2 hi lo tail ih =>
    simp only [Bool.and_eq_true] at h
    simp only [forall_mem_cons]
    exact ⟨by unfold Plain; decide, hexdigit_plain h.1.1, hexdigit_plain h.1.2, ih h.2⟩
  | case3 => cases h
  | case4 byte tail _ ih =>
    rw [Bool.and_eq_true, Bool.or_eq_true] at h
    have hmarks : ∀ m ∈ LITERAL_MARKS, Plain m := by simp [LITERAL_MARKS, Plain, STAR, SLASH, QUESTION, HASH]
    rw [forall_mem_cons]
    exact ⟨h.1.elim alphanumeric_plain fun hmark => hmarks byte (contains_iff_mem.mp hmark), ih h.2⟩

/-! ## The variables of a template -/

/-- What is left of a path from segment `n` on. -/
def remainder (body : Str) (n : Nat) : Str := if n < (segments body).length then body.drop (span body n).1 else []

/-- The variables of a template, in order, with the text each of them spans in the path body; `n` atoms precede. -/
def captured (body : Str) : Nat → List Segment → List (Str × Str)
  | _, [] => []
  | n, .affix pre name suf :: segs =>
    (name, slice body ((span body n).1 + pre.length) ((span body n).2 - suf.length)) :: captured body (n + 1) segs
  | n, .var v :: segs =>
    (v.field, if v.segments.getLast? = some .rest then remainder body n
      else slice body (span body n).1 (span body (n + v.segments.length - 1)).2) ::
      captured body (n + v.segments.length) segs
  | n, _ :: segs => captured body (n + 1) segs

def Segment.atoms : Segment → List Atom
  | .literal text => [.literal text]
  | .single => [.single]
  | .rest => [.rest]
  | .affix pre _ suf => [.affix pre suf]
  | .var v => v.segments.map SubSegment.atom

/-- The variables as `flatten` lists them. -/
def var_spans : Nat → List Segment → List VarSpan
  | _, [] => []
  | n, .affix pre name suf :: segs =>
    ⟨name.splitOn DOT, n, n, some (pre.length, suf.length)⟩ :: var_spans (n + 1) segs
  | n, .var v :: segs =>
    ⟨v.field.splitOn DOT, n, n + v.segments.length - 1, none⟩ :: var_spans (n + v.segments.length) segs
  | n, _ :: segs => var_spans (n + 1) segs

theorem flatten_from (segs : List Segment) (acc : List Atom × List VarSpan) :
    segs.foldl flatten_step acc = (acc.1 ++ segs.flatMap Segment.atoms, acc.2 ++ var_spans acc.1.length segs) := by
  induction segs generalizing acc with
  | nil => simp [var_spans]
  | cons seg segs ih =>
    rw [foldl_cons, ih]
    cases seg <;> simp [flatten_step, Segment.atoms, var_spans]

theorem flatten_eq (segs : List Segment) : flatten segs = (segs.flatMap Segment.atoms, var_spans 0 segs) := by
  unfold flatten
  rw [flatten_from]
  simp

theorem Route.atoms_eq (route : Route) : route.atoms = route.template.segments.flatMap Segment.atoms := by
  unfold Route.atoms
  rw [flatten_eq]

/-! ## Matched atoms and their segments -/

theorem Matches.segment {atoms : List Atom} {segs : List Str} (h : Matches atoms segs) {i : Nat} {a : Atom}
    (hi : atoms[i]? = some a) (ha : a ≠ .rest) : ∃ s, segs[i]? = some s ∧ a.Accepts s := by
  induction atoms generalizing segs i with
  | nil => cases hi
  | cons b atoms ih =>
    by_cases hb : b = .rest
    · subst hb
      cases (h : atoms = [])
      cases i with
      | zero => cases hi; exact absurd rfl ha
      | succ i => cases hi
    · obtain ⟨s, rest, rfl, hacc, hm⟩ := (matches_cons hb _ _).mp h
      cases i with
      | zero => cases hi; exact ⟨s, rfl, hacc⟩
      | succ i => exact ih hm hi

variable {atoms : List Atom}

theorem Matches.rest_le {segs : List Str} (h : Matches atoms segs)
    (hi : atoms[i]? = some .rest) : i ≤ segs.length := by
  induction atoms generalizing segs i with
  | nil => cases hi
  | cons b atoms ih =>
    cases i with
    | zero => exact Nat.zero_le _
    | succ i =>
      by_cases hb : b = .rest
      · subst hb
        cases (h : atoms = [])
        cases hi
      · obtain ⟨s, rest, rfl, -, hm⟩ := (matches_cons hb _ _).mp h
        exact Nat.succ_le_succ (ih hm hi)

theorem RestLast.index (h : RestLast atoms) (hi : atoms[i]? = some .rest) :
    i + 1 = atoms.length := by
  induction atoms generalizing i with
  | nil => cases hi
  | cons a atoms ih =>
    by_cases ha : a = .rest
    · subst ha
      cases (h : atoms = [])
      cases i with
      | zero => rfl
      | succ i => cases hi
    · have hr : RestLast atoms := by cases a <;> first | exact h | exact absurd rfl ha
      cases i with
      | zero => cases hi; exact absurd rfl ha
      | succ i => rw [length_cons, ih hr hi]

/-- `**` is only found at the end, so the plan of a variable that ends there is the one for a remainder. -/
theorem RestLast.plan (h : RestLast atoms) (hi : i < atoms.length) :
    ((atoms.getLast? == some .rest) && i == atoms.length - 1) = (atoms[i]? == some .rest) := by
  rw [getLast?_eq_getElem?]
  by_cases hlast : i = atoms.length - 1
  · subst hlast
    rw [beq_self_eq_true, Bool.and_true]
  · have : atoms[i]? ≠ some .rest := fun hrest => hlast (by have := h.index hrest; omega)
    rw [beq_eq_false_iff_ne.mpr hlast, beq_eq_false_iff_ne.mpr this, Bool.and_false]

/-! ## The plans cut out the variables -/

section
variable {body : Str} {cap : Nat} {path : ScannedPath} {atoms : List Atom}

/-- A path is scanned far enough for the template it has matched. -/
structure Located (body : Str) (atoms : List Atom) (cap : Nat) (path : ScannedPath) : Prop where
  scanned : Scanned body cap path
  chars : Chars body
  hits : Matches atoms (segments body)
  far : ∀ i < atoms.length, i < (segments body).length → i < cap

variable (h : Located body atoms cap path)
include h

variable {last : Nat}

theorem Located.capture_ok {first : Nat} (hle : first ≤ last) {a : Atom}
    (ha : atoms[last]? = some a) (hne : a ≠ .rest) :
    path.capture first last = some (slice body (span body first).1 (span body last).2) := by
  obtain ⟨s, hs, -⟩ := h.hits.segment ha hne
  have hlast : last < (segments body).length := (List.getElem?_eq_some_iff.mp hs).1
  have hcap : last < cap := h.far last (List.getElem?_eq_some_iff.mp ha).1 hlast
  unfold ScannedPath.capture
  rw [h.scanned.count_eq, h.scanned.capacity_eq, if_neg (by omega), h.scanned.body_eq,
    h.scanned.starts_eq first (by omega) (by omega), h.scanned.ends_eq last hlast hcap]

theorem Located.rest_ok {first : Nat} (hle : first ≤ last)
    (ha : atoms[last]? = some .rest) : path.rest first = some (remainder body first) := by
  have hcount := h.hits.rest_le ha
  have hlen := (List.getElem?_eq_some_iff.mp ha).1
  unfold ScannedPath.rest remainder
  rw [h.scanned.count_eq, h.scanned.capacity_eq, h.scanned.body_eq]
  by_cases hend : first = (segments body).length
  · rw [if_pos hend, if_neg (by omega)]
  · have hlt : first < (segments body).length := by omega
    have hcap : first < cap := h.far first (by omega) hlt
    rw [if_neg hend, if_neg (by omega), if_neg (by omega), if_pos hlt, h.scanned.starts_eq first hlt hcap]

theorem Located.affix_ok {n : Nat} {pre suf : Str}
    (ha : atoms[n]? = some (.affix pre suf)) (hpre : is_valid_literal_bytes pre = true)
    (hsuf : is_valid_literal_bytes suf = true) : path.affix n pre.length suf.length =
      some (slice body ((span body n).1 + pre.length) ((span body n).2 - suf.length)) := by
  obtain ⟨s, hs, middle, hmid, rfl⟩ := h.hits.segment ha (by simp)
  have hn : n < (segments body).length := (List.getElem?_eq_some_iff.mp hs).1
  have hcap : n < cap := h.far n (List.getElem?_eq_some_iff.mp ha).1 hn
  have hd := delimited_span hn
  rw [getD_eq_getElem?_getD, hs, Option.getD_some] at hd
  have hlength := hd.length
  simp only [length_append] at hlength
  have hmiddle := length_pos_of_ne_nil hmid
  -- the cuts are next to an ASCII byte: one of the literals, a slash, or an end of the path
  have hstart : is_char_boundary body ((span body n).1 + pre.length) = true := by
    have hin : pre.length < (pre ++ middle ++ suf).length := by
      simp only [length_append]
      omega
    have hbyte := (hd.text pre.length hin).trans (getElem?_eq_getElem hin)
    refine boundary_after h.chars (Nat.le_of_lt (List.getElem?_eq_some_iff.mp hbyte).1) ?_
    rcases eq_nil_or_concat pre with rfl | ⟨front, a, rfl⟩
    · exact hd.before.imp id fun hslash => ⟨SLASH, hslash, by decide⟩
    · refine .inr ⟨a, ?_, (literal_plain hpre a (by simp)).1⟩
      have := hd.text front.length (by simp only [length_append]; simp; omega)
      simpa [getElem?_append] using this
  have hstop : is_char_boundary body ((span body n).2 - suf.length) = true := by
    refine boundary_before ?_
    cases suf with
    | nil => exact hd.after.imp id fun hslash => ⟨SLASH, hslash, by decide⟩
    | cons b suf =>
      refine .inr ⟨b, ?_, (literal_plain hsuf b mem_cons_self).1⟩
      have htext := hd.text (pre ++ middle).length (by simp)
      rw [getElem?_append_right (Nat.le_refl _), Nat.sub_self, length_append] at htext
      rw [hlength, Nat.add_sub_assoc (Nat.le_add_left _ _), Nat.add_sub_cancel]
      exact htext
  unfold ScannedPath.affix
  rw [h.scanned.count_eq, h.scanned.capacity_eq, if_neg (by omega), h.scanned.body_eq, h.scanned.starts_eq n hn hcap,
    h.scanned.ends_eq n hn hcap]
  simp only [hstart, hstop, Bool.not_true, Bool.or_false]
  rw [if_neg (by omega), if_neg (by simp; omega)]

omit h in
/-- A plan has the key of a capture and cuts out its text. -/
def CutsOut (path : ScannedPath) (plan : VarPlan) (capture : Str × Str) : Prop :=
  plan.key = capture.1 ∧ (materialize plan path).run () = (.ok capture.2, ())

theorem Located.affix_plan {n : Nat} {pre name suf : Str}
    (ha : atoms[n]? = some (.affix pre suf)) (hpre : is_valid_literal_bytes pre = true)
    (hsuf : is_valid_literal_bytes suf = true) (has_rest : Bool) (count : Nat) :
    CutsOut path (VarSpan.plan has_rest count ⟨name.splitOn DOT, n, n, some (pre.length, suf.length)⟩)
      (name, slice body ((span body n).1 + pre.length) ((span body n).2 - suf.length)) := by
  refine ⟨intercalate_splitOn DOT, ?_⟩
  simp only [VarSpan.plan, materialize, h.affix_ok ha hpre hsuf]
  rfl

theorem Located.var_plan (hrest : RestLast atoms) (first : Nat)
    (hle : first ≤ last) {a : Atom} (ha : atoms[last]? = some a) (field : Str) :
    CutsOut path (VarSpan.plan (atoms.getLast? == some .rest) atoms.length ⟨field.splitOn DOT, first, last, none⟩)
      (field, if a = .rest then remainder body first else slice body (span body first).1 (span body last).2) := by
  unfold CutsOut VarSpan.plan
  simp only [hrest.plan (List.getElem?_eq_some_iff.mp ha).1, ha]
  by_cases hr : a = .rest
  · subst hr
    refine ⟨intercalate_splitOn DOT, ?_⟩
    simp only [beq_self_eq_true, if_true, materialize, h.rest_ok hle ha]
    rfl
  · rw [if_neg hr, if_neg (by simpa using hr)]
    refine ⟨intercalate_splitOn DOT, ?_⟩
    simp only [materialize, h.capture_ok hle ha hr]
    rfl

omit h in
theorem atom_rest_iff (sub : SubSegment) : sub.atom = .rest ↔ some sub = some SubSegment.rest := by
  cases sub <;> simp [SubSegment.atom]

theorem Located.plans_ok (hrest : RestLast atoms) {segs : List Segment}
    (hlits : segs.all Segment.is_parsed = true)
    (front : List Atom) (hatoms : atoms = front ++ segs.flatMap Segment.atoms) :
    List.Forall₂ (CutsOut path)
      ((var_spans front.length segs).map (VarSpan.plan (atoms.getLast? == some .rest) atoms.length))
      (captured body front.length segs) := by
  induction segs generalizing front with
  | nil => exact .nil
  | cons seg segs ih =>
    rw [all_cons, Bool.and_eq_true] at hlits
    have hnext := ih hlits.2 (front ++ seg.atoms)
      (by rw [hatoms, flatMap_cons, append_assoc])
    rw [length_append] at hnext
    have hget : ∀ i < seg.atoms.length, atoms[front.length + i]? = seg.atoms[i]? := by
      intro i hi
      rw [hatoms, getElem?_append_right (Nat.le_add_right _ _), Nat.add_sub_cancel_left, flatMap_cons,
        getElem?_append_left hi]
    cases seg with
    | literal text | single | rest => exact hnext
    | affix pre name suf =>
      have hparsed := hlits.1
      simp only [Segment.is_parsed, is_plain_literal, Bool.and_eq_true] at hparsed
      obtain ⟨⟨⟨hpre, -⟩, hsuf, -⟩, -⟩ := hparsed
      exact .cons (h.affix_plan (hget 0 Nat.one_pos) hpre hsuf _ _) hnext
    | var v =>
      have hpos := length_pos_of_ne_nil v.nonempty
      simp only [Segment.atoms, length_map] at hnext hget
      have hlast : atoms[front.length + v.segments.length - 1]? = some (v.segments.getLast v.nonempty).atom := by
        rw [Nat.add_sub_assoc hpos, hget _ (by omega), getElem?_map, ← getLast?_eq_getElem?,
          getLast?_eq_some_getLast v.nonempty]
        rfl
      have hplan := h.var_plan hrest front.length (by omega) hlast v.field
      simp only [atom_rest_iff, ← getLast?_eq_some_getLast v.nonempty] at hplan
      exact .cons hplan hnext

end

end Routing
