import Oxidizer.Lib.Masks
/-!
# Escaped strings

An escaped string has unreserved bytes and `%XX` triplets only. `escape` makes one of any
string, and decoding its triplets gives the string back; `try_new` and `from_static` accept
the strings that are escaped already. Strings are their UTF-8 bytes.
-/

namespace TemplatedUri

open List

abbrev Str := List UInt8

def PERCENT : UInt8 := 37

/-! ## The code -/

def is_ascii_hexdigit (b : UInt8) : Bool := (48 ≤ b && b ≤ 57) || (97 ≤ b && b ≤ 102) || (65 ≤ b && b ≤ 70)

def is_ascii_alphanumeric (b : UInt8) : Bool := (48 ≤ b && b ≤ 57) || (97 ≤ b && b ≤ 122) || (65 ≤ b && b ≤ 90)

/-- The first fault of a string, by the message of the error. -/
def validate_escaped : Str → Option String
  | [] => none
  | b :: rest =>
    if b = PERCENT then
      match rest with
      | high :: low :: tail =>
        if !is_ascii_hexdigit high || !is_ascii_hexdigit low then some "string contains invalid URL encoding character"
        else validate_escaped tail
      | _ => some "string contains unfinished URL encoded character"
    else if is_ascii_alphanumeric b || b == 45 || b == 95 || b == 126 || b == 46 then validate_escaped rest
    else some "any reserved characters need to be URL encoded"

def is_unreserved_byte (b : UInt8) : Bool :=
  (65 ≤ b && b ≤ 90) || (97 ≤ b && b ≤ 122) || (48 ≤ b && b ≤ 57) || b == 45 || b == 46 || b == 95 || b == 126

def first_reserved (bytes : Str) : Option Nat := bytes.findIdx? fun b => !is_unreserved_byte b

def HEX : List UInt8 := [48, 49, 50, 51, 52, 53, 54, 55, 56, 57, 65, 66, 67, 68, 69, 70]

def slice (s : Str) (start stop : Nat) : Str := (s.take stop).drop start

def percent_encode_from (s out : Str) (run_start i : Nat) : Str :=
  if h : i < s.length then
    let b := s[i]
    if is_unreserved_byte b then percent_encode_from s out run_start (i + 1)
    else
      let out := if run_start < i then out ++ slice s run_start i else out
      let out := out ++ [PERCENT, HEX.getD (b >>> 4).toNat 0, HEX.getD (b &&& 15).toNat 0]
      percent_encode_from s out (i + 1) (i + 1)
  else if run_start < s.length then out ++ s.drop run_start else out
termination_by s.length - i

def percent_encode (s : Str) (first : Nat) : Str := percent_encode_from s (s.take first) first first

/-! ## What is escaped -/

/-- Unreserved bytes and triplets. -/
inductive Clean : Str → Prop where
  | nil : Clean []
  | unreserved {b : UInt8} {rest : Str} (h : is_unreserved_byte b = true) (hrest : Clean rest) : Clean (b :: rest)
  | triplet {high low : UInt8} {rest : Str} (hh : is_ascii_hexdigit high = true) (hl : is_ascii_hexdigit low = true)
      (hrest : Clean rest) : Clean (PERCENT :: high :: low :: rest)

theorem Clean.append {a b : Str} (ha : Clean a) (hb : Clean b) : Clean (a ++ b) := by
  induction ha with
  | nil => exact hb
  | unreserved h _ ih => exact .unreserved h ih
  | triplet hh hl _ ih => exact .triplet hh hl ih

theorem Clean.of_unreserved {s : Str} (h : ∀ b ∈ s, is_unreserved_byte b = true) : Clean s := by
  induction s with
  | nil => exact .nil
  | cons b s ih => exact .unreserved (h b (mem_cons_self ..)) (ih fun c hc => h c (mem_cons_of_mem _ hc))

variable (b : UInt8)

theorem unreserved_eq :
    (is_ascii_alphanumeric b || b == 45 || b == 95 || b == 126 || b == 46) = is_unreserved_byte b := by
  unfold is_ascii_alphanumeric is_unreserved_byte
  grind

theorem percent_reserved : is_unreserved_byte PERCENT = false := by decide

theorem Clean.percent {s : Str} (h : Clean (PERCENT :: s)) :
    ∃ high low rest, s = high :: low :: rest ∧ is_ascii_hexdigit high = true ∧ is_ascii_hexdigit low = true ∧ Clean rest := by
  cases h with
  | unreserved hb => rw [percent_reserved] at hb; cases hb
  | triplet hh hl hrest => exact ⟨_, _, _, rfl, hh, hl, hrest⟩

variable (s : Str)

theorem validate_escaped_iff : validate_escaped s = none ↔ Clean s := by
  fun_induction validate_escaped s with
  | case1 => exact ⟨fun _ => .nil, fun _ => rfl⟩
  | case2 high low tail hbad =>
    refine ⟨nofun, fun h => ?_⟩
    obtain ⟨_, _, _, heq, hh, hl, -⟩ := h.percent
    cases heq
    simp [hh, hl] at hbad
  | case3 high low tail hgood ih =>
    simp only [Bool.or_eq_true, Bool.not_eq_true', not_or, Bool.not_eq_false] at hgood
    refine ⟨fun h => .triplet hgood.1 hgood.2 (ih.mp h), fun h => ?_⟩
    obtain ⟨_, _, _, heq, -, -, hrest⟩ := h.percent
    cases heq
    exact ih.mpr hrest
  | case4 rest hshort =>
    refine ⟨nofun, fun h => ?_⟩
    obtain ⟨_, _, _, heq, -⟩ := h.percent
    exact absurd heq (hshort _ _ _)
  | case5 b rest hb hun ih =>
    rw [unreserved_eq] at hun
    refine ⟨fun h => .unreserved hun (ih.mp h), fun h => ?_⟩
    cases h with
    | unreserved _ hrest => exact ih.mpr hrest
    | triplet => exact absurd rfl hb
  | case6 b rest hb hun =>
    rw [unreserved_eq] at hun
    refine ⟨nofun, fun h => ?_⟩
    cases h with
    | unreserved h => exact absurd h hun
    | triplet => exact absurd rfl hb

/-- An escaped string carries that it is one. -/
structure EscapedString where
  text : Str
  valid : validate_escaped text = none

/-! ## Escaping -/

/-- What `escape` makes of a byte. -/
def encode_byte (b : UInt8) : Str :=
  if is_unreserved_byte b then [b] else [PERCENT, HEX.getD (b >>> 4).toNat 0, HEX.getD (b &&& 15).toNat 0]

theorem slice_succ {s : Str} {start i : Nat} (hs : start ≤ i) (hi : i < s.length) : slice s start (i + 1) = slice s start i ++ [s[i]] := by
  unfold slice
  rw [take_succ_eq_append_getElem hi, drop_append_of_le_length (by rw [length_take]; omega)]

theorem percent_encode_from_eq (out : Str) (run_start i : Nat) (hr : run_start ≤ i) (hi : i ≤ s.length) :
    percent_encode_from s out run_start i = out ++ slice s run_start i ++ (s.drop i).flatMap encode_byte := by
  fun_induction percent_encode_from s out run_start i with
  | case1 out run_start i h b hun ih =>
    have hstep : encode_byte s[i] = [s[i]] := if_pos hun
    rw [ih (by omega) h, slice_succ hr h, drop_eq_getElem_cons h, flatMap_cons, hstep]
    simp only [append_assoc]
  | case2 out run_start i h b hun out' out'' ih =>
    have hstep : encode_byte s[i] = [PERCENT, HEX.getD (b >>> 4).toNat 0, HEX.getD (b &&& 15).toNat 0] := if_neg hun
    have hrun : out' = out ++ slice s run_start i := by
      simp only [out']
      split
      · rfl
      · have hempty : slice s run_start i = [] := drop_eq_nil_of_le (by rw [length_take]; omega)
        rw [hempty, append_nil]
    have hnew : slice s (i + 1) (i + 1) = [] := drop_eq_nil_of_le (by rw [length_take]; omega)
    rw [ih (Nat.le_refl _) h, drop_eq_getElem_cons h, flatMap_cons, hstep, hnew, append_nil]
    simp only [out'', hrun, append_assoc]
  | case3 out run_start i h hlt =>
    have hend : i = s.length := by omega
    rw [hend, slice, take_length, drop_length, flatMap_nil, append_nil]
  | case4 out run_start i h hge =>
    have hend : i = s.length := by omega
    rw [hend, slice, take_length, drop_length, flatMap_nil, append_nil, drop_eq_nil_of_le (by omega), append_nil]

theorem encode_byte_clean : Clean (encode_byte b) := by
  have hhex : ∀ n < 16, is_ascii_hexdigit (HEX.getD n 0) = true := by decide
  unfold encode_byte
  split
  · rename_i h
    exact .unreserved h .nil
  · exact .triplet (hhex _ (Lib.nibbles b).1) (hhex _ (Lib.nibbles b).2.1) .nil

theorem flatMap_encode_clean : Clean (s.flatMap encode_byte) := by
  induction s with
  | nil => exact .nil
  | cons b s ih => exact (encode_byte_clean b).append ih

theorem flatMap_encode_unreserved {s : Str} (h : ∀ b ∈ s, is_unreserved_byte b = true) : s.flatMap encode_byte = s := by
  induction s with
  | nil => rfl
  | cons b s ih =>
    have hb : encode_byte b = [b] := if_pos (h b (mem_cons_self ..))
    rw [flatMap_cons, hb, ih fun c hc => h c (mem_cons_of_mem _ hc)]
    rfl

/-- The text of `EscapedString::escape`. -/
def escape_text (s : Str) : Str :=
  match first_reserved s with
  | none => s
  | some first => percent_encode s first

theorem escape_text_eq : escape_text s = s.flatMap encode_byte := by
  unfold escape_text first_reserved
  split
  · rename_i hnone
    rw [findIdx?_eq_none_iff] at hnone
    exact (flatMap_encode_unreserved fun b hb => by simpa using hnone b hb).symm
  · rename_i first hfirst
    obtain ⟨hlt, -, hbefore⟩ := findIdx?_eq_some_iff_getElem.mp hfirst
    have hprefix : ∀ b ∈ s.take first, is_unreserved_byte b = true := by
      intro b hb
      obtain ⟨i, hi, rfl⟩ := mem_iff_getElem.mp hb
      rw [length_take] at hi
      rw [getElem_take]
      simpa using hbefore i (by omega)
    have hnew : slice s first first = [] := drop_eq_nil_of_le (by rw [length_take]; omega)
    rw [percent_encode, percent_encode_from_eq s _ first first (Nat.le_refl _) (Nat.le_of_lt hlt), hnew, append_nil]
    have hsplit : s.flatMap encode_byte = (s.take first).flatMap encode_byte ++ (s.drop first).flatMap encode_byte := by
      rw [← flatMap_append, take_append_drop]
    rw [hsplit, flatMap_encode_unreserved hprefix]

def EscapedString.escape (s : Str) : EscapedString :=
  ⟨escape_text s, by rw [validate_escaped_iff, escape_text_eq]; exact flatMap_encode_clean s⟩

/-- `EscapedString::try_new`; `from_static` panics with the message. -/
def EscapedString.try_new (raw : Str) : Except String EscapedString :=
  match h : validate_escaped raw with
  | none => .ok ⟨raw, h⟩
  | some message => .error message

/-! ## Decoding -/

/-- The value of a hexadecimal digit. -/
def hex (b : UInt8) : Option UInt8 :=
  if 48 ≤ b && b ≤ 57 then some (b - 48)
  else if 97 ≤ b && b ≤ 102 then some (b - 97 + 10)
  else if 65 ≤ b && b ≤ 70 then some (b - 65 + 10)
  else none

/-- The string with its triplets replaced by the bytes they stand for. -/
def percent_decode : Str → Option Str
  | [] => some []
  | b :: rest =>
    if b = PERCENT then
      match rest with
      | high :: low :: tail => do
        let high ← hex high
        let low ← hex low
        let tail ← percent_decode tail
        pure ((high * 16 + low) :: tail)
      | _ => none
    else (percent_decode rest).map (b :: ·)

theorem hex_digit {n : Nat} (h : n < 16) : hex (HEX.getD n 0) = some (UInt8.ofNat n) := by
  interval_cases n <;> rfl

theorem percent_decode_encode_byte (rest : Str) :
    percent_decode (encode_byte b ++ rest) = (percent_decode rest).map (b :: ·) := by
  unfold encode_byte
  split
  · rename_i hun
    have hne : b ≠ PERCENT := by
      rintro rfl
      cases hun
    rw [singleton_append, percent_decode.eq_def]
    exact if_neg hne
  · obtain ⟨hhigh, hlow, hsum⟩ := Lib.nibbles b
    simp only [cons_append, nil_append, percent_decode, if_true, hex_digit hhigh, hex_digit hlow, UInt8.ofNat_toNat,
      bind, Option.bind_some, hsum]
    cases percent_decode rest <;> rfl

theorem percent_decode_escape : percent_decode (EscapedString.escape s).text = some s := by
  show percent_decode (escape_text s) = some s
  rw [escape_text_eq]
  induction s with
  | nil => rfl
  | cons b s ih => rw [flatMap_cons, percent_decode_encode_byte, ih, Option.map_some]

end TemplatedUri
