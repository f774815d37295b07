import Oxidizer.Query.Scan
import Oxidizer.Lib.Masks
/-!
# What the encoder writes, the parsers read back

An encoded part has no separator in it, and decodes to the part. So the parsers
cut the text of a list of pairs where the encoder has joined it.
-/

namespace Query

open Lib Routing List

/-! ## Decoding in one pass -/

/-- The bytes that an encoded part stands for. -/
def unescape : Str → Option Str
  | [] => some []
  | byte :: bytes =>
    if byte = PERCENT then (escaped_byte (byte :: bytes) 0).bind fun b => (unescape (bytes.drop 2)).map (b :: ·)
    else (unescape bytes).map ((if byte = PLUS then SPACE else byte) :: ·)
termination_by bytes => bytes.length
decreasing_by
  · simp only [List.length_drop, List.length_cons]
    omega
  · exact Nat.lt_succ_self _

theorem escaped_byte_drop (bytes : Str) (index : Nat) : escaped_byte (bytes.drop index) 0 = escaped_byte bytes index := by
  unfold escaped_byte
  simp only [getElem?_drop, Nat.zero_add]

theorem unescape_plain {plain : Str} (h : ∀ b ∈ plain, is_special b = false) (bytes : Str) :
    unescape (plain ++ bytes) = (unescape bytes).map (plain ++ ·) := by
  induction plain with
  | nil => simp
  | cons b plain ih =>
    have hb := h b mem_cons_self
    unfold is_special at hb
    rw [Bool.or_eq_false_iff, beq_eq_false_iff_ne, beq_eq_false_iff_ne] at hb
    rw [cons_append, unescape, if_neg hb.1, if_neg hb.2, ih fun c hc => h c (mem_cons_of_mem _ hc), Option.map_map]
    rfl

theorem special_not_plus {b : UInt8} (h : is_special b = true) (hplus : b ≠ PLUS) : b = PERCENT := by
  unfold is_special at h
  rw [Bool.or_eq_true, beq_iff_eq, beq_iff_eq] at h
  exact h.resolve_right hplus

section
variable {input : Str} {offset total : Nat} {limits : QueryLimits}

variable {index : Nat}

theorem decode_encoded_bytes_eq {output tail : Str} (h : unescape (input.drop index) = some tail)
    (hutf8 : from_utf8 (output ++ tail) = true) :
    decode_encoded_bytes input offset total limits output index =
      after_added (add_decoded total (output ++ tail).length offset limits) (.ok (output ++ tail)) := by
  fun_induction decode_encoded_bytes input offset total limits output index generalizing tail with
  | case1 output index hlt byte hplus =>
    rename_i ih
    rw [drop_eq_getElem_cons hlt, unescape, if_neg (by rw [show input[index] = PLUS from hplus]; decide),
      if_pos hplus, Option.map_eq_some_iff] at h
    obtain ⟨tail, htail, rfl⟩ := h
    rw [ih htail (by rwa [append_assoc]), append_assoc]
    rfl
  | case2 output index hlt byte hplus hpercent =>
    rename_i hnone
    rw [drop_eq_getElem_cons hlt, unescape, if_pos hpercent, ← drop_eq_getElem_cons hlt, escaped_byte_drop, hnone] at h
    cases h
  | case3 output index hlt byte hplus hpercent b hsome =>
    rename_i ih
    rw [drop_eq_getElem_cons hlt, unescape, if_pos hpercent, ← drop_eq_getElem_cons hlt, escaped_byte_drop, hsome,
      Option.bind_some, Option.map_eq_some_iff, drop_drop] at h
    obtain ⟨tail, htail, rfl⟩ := h
    rw [ih htail (by rwa [append_assoc]), append_assoc]
    rfl
  | case4 output index hlt byte hplus hpercent =>
    rename_i ih
    rw [drop_eq_getElem_cons hlt, unescape, if_neg hpercent, if_neg hplus, Option.map_eq_some_iff] at h
    obtain ⟨tail, htail, rfl⟩ := h
    rw [ih htail (by rw [append_assoc]; exact hutf8), append_assoc]
    rfl
  | case5 output index hge =>
    rw [drop_eq_nil_of_le (Nat.le_of_not_lt hge), unescape] at h
    cases h
    rw [append_nil] at hutf8 ⊢
    rw [if_pos hutf8]

theorem unescape_special {relative : Nat} (h : (input.drop index).findIdx? is_special = some relative) :
    unescape (input.drop index) =
      (unescape (input.drop (index + relative))).map ((input.drop index).take relative ++ ·) ∧
    ∃ b, is_special b = true ∧ input[index + relative]? = some b ∧
      input.drop (index + relative) = b :: input.drop (index + relative + 1) := by
  obtain ⟨hlt, hb, hplain⟩ := findIdx?_eq_some_iff_getElem.mp h
  rw [length_drop] at hlt
  have hlt' : index + relative < input.length := by omega
  constructor
  · rw [← unescape_plain, ← drop_drop, take_append_drop]
    intro c hc
    obtain ⟨j, hj, rfl⟩ := mem_iff_getElem.mp hc
    rw [length_take] at hj
    rw [getElem_take]
    simpa using hplain j (by omega)
  · refine ⟨input[index + relative], ?_, getElem?_eq_getElem hlt', drop_eq_getElem_cons hlt'⟩
    rwa [getElem_drop] at hb

theorem decode_encoded_eq {output tail : Str} (h : unescape (input.drop index) = some tail)
    (hutf8 : from_utf8 (output ++ tail) = true) :
    decode_encoded input offset total limits output index =
      after_added (add_decoded total (output ++ tail).length offset limits) (.ok (output ++ tail)) := by
  fun_induction decode_encoded input offset total limits output index generalizing tail with
  | case1 output index hlt hnone =>
    have hplain := unescape_plain (fun b hb => by simpa using findIdx?_eq_none_iff.mp hnone b hb) []
    rw [append_nil, h, unescape, Option.map_some, append_nil, Option.some.injEq] at hplain
    rw [hplain]
  | case2 output index hlt relative hfind special output' hplus =>
    rename_i ih
    obtain ⟨hsplit, b, -, hb, hdrop⟩ := unescape_special hfind
    cases Option.some.inj (hb.symm.trans hplus)
    rw [hsplit, hdrop, unescape, if_neg (by decide), if_pos rfl, Option.map_map, Option.map_eq_some_iff] at h
    obtain ⟨tail, htail, rfl⟩ := h
    have hassoc : output' ++ [SPACE] ++ tail = output ++ ((input.drop index).take relative ++ SPACE :: tail) := by
      simp [output']
    rw [ih htail (by rw [hassoc]; exact hutf8), hassoc]
    rfl
  | case3 output index hlt relative hfind special hplus =>
    rename_i hnone
    obtain ⟨hsplit, b, hspecial, hb, hdrop⟩ := unescape_special hfind
    have hpercent : b = PERCENT := special_not_plus hspecial fun hp => hplus (hb.trans (congrArg some hp))
    rw [hsplit, hdrop, unescape, if_pos hpercent, ← hdrop, escaped_byte_drop, hnone] at h
    cases h
  | case4 output index hlt relative hfind special output' hplus byte hsome =>
    obtain ⟨hsplit, -⟩ := unescape_special hfind
    rw [hsplit, Option.map_eq_some_iff] at h
    obtain ⟨tail, htail, rfl⟩ := h
    have hassoc : output' ++ tail = output ++ ((input.drop index).take relative ++ tail) := append_assoc _ _ _
    rw [decode_encoded_bytes_eq htail (by rw [hassoc]; exact hutf8), hassoc]
  | case5 output index hlt relative hfind special output' hplus byte hsome hsmall =>
    rename_i ih
    obtain ⟨hsplit, b, hspecial, hb, hdrop⟩ := unescape_special hfind
    have hpercent : b = PERCENT := special_not_plus hspecial fun hp => hplus (hb.trans (congrArg some hp))
    rw [hsplit, hdrop, unescape, if_pos hpercent, ← hdrop, escaped_byte_drop, hsome, Option.bind_some, drop_drop,
      Option.map_map, Option.map_eq_some_iff] at h
    obtain ⟨tail, htail, rfl⟩ := h
    have hassoc : output' ++ [byte] ++ tail = output ++ ((input.drop index).take relative ++ byte :: tail) := by
      simp [output']
    rw [ih htail (by rw [hassoc]; exact hutf8), hassoc]
    rfl
  | case6 output index hge =>
    rw [drop_eq_nil_of_le (Nat.le_of_not_lt hge), unescape] at h
    cases h
    rw [append_nil]

end

/-! ## Encoded parts -/

def encode_byte (byte : UInt8) : Str := if is_safe byte then [byte] else if byte = SPACE then [PLUS] else escaped byte

theorem encode_parameter_cons (b : UInt8) (bytes : Str) :
    encode_parameter (b :: bytes) = encode_byte b ++ encode_parameter bytes := by
  unfold encode_parameter encode_byte
  rw [flatMap_cons]

theorem hex_digit {n : Nat} (h : n < 16) : hex (HEX.getD n 0) = some (UInt8.ofNat n) := by
  interval_cases n <;> rfl

theorem escaped_byte_escaped (b : UInt8) (bytes : Str) : escaped_byte (escaped b ++ bytes) 0 = some b := by
  obtain ⟨hhigh, hlow, hsum⟩ := nibbles b
  unfold escaped_byte escaped
  simp only [cons_append, getElem?_cons_succ, getElem?_cons_zero, Nat.zero_add, hex_digit hhigh, hex_digit hlow,
    UInt8.ofNat_toNat]
  exact congrArg some hsum

theorem is_safe_ne {b : UInt8} (h : is_safe b = true) : b ≠ PERCENT ∧ b ≠ PLUS ∧ b ≠ AMPERSAND ∧ b ≠ EQUALS := by
  refine ⟨?_, ?_, ?_, ?_⟩
  all_goals
    rintro rfl
    exact absurd h (by decide)

theorem unescape_encode_byte (b : UInt8) (bytes : Str) : unescape (encode_byte b ++ bytes) = (unescape bytes).map (b :: ·) := by
  unfold encode_byte
  split
  · rename_i hsafe
    obtain ⟨hpercent, hplus, -, -⟩ := is_safe_ne hsafe
    rw [singleton_append, unescape, if_neg hpercent, if_neg hplus]
  · split
    · rename_i hspace
      rw [singleton_append, unescape, if_neg (by decide), if_pos rfl, hspace]
    · have hescaped := escaped_byte_escaped b bytes
      unfold escaped at hescaped ⊢
      rw [cons_append, unescape, if_pos rfl, ← cons_append, hescaped]
      rfl

theorem unescape_encode (text : Str) : unescape (encode_parameter text) = some text := by
  induction text with
  | nil =>
    unfold encode_parameter
    rw [flatMap_nil, unescape]
  | cons b text ih => rw [encode_parameter_cons, unescape_encode_byte, ih, Option.map_some]

variable {text : Str} {c : UInt8}

theorem encode_apart (hc : c ∈ encode_parameter text) : c ≠ AMPERSAND ∧ c ≠ EQUALS := by
  obtain ⟨b, -, hb⟩ := mem_flatMap.mp hc
  have hdigit : ∀ n, HEX.getD n 0 ≠ AMPERSAND ∧ HEX.getD n 0 ≠ EQUALS := by
    intro n
    by_cases hn : n < 16
    · interval_cases n <;> decide
    · rw [getD_eq_getElem?_getD, getElem?_eq_none (Nat.le_of_not_lt hn)]
      decide
  split at hb
  · rename_i hsafe
    rw [mem_singleton.mp hb]
    exact (is_safe_ne hsafe).2.2
  · split at hb
    · rw [mem_singleton.mp hb]
      decide
    · unfold escaped at hb
      simp only [mem_cons, not_mem_nil, or_false] at hb
      rcases hb with rfl | rfl | rfl
      · decide
      · exact hdigit _
      · exact hdigit _

theorem from_utf8_utf8 (text : String) : from_utf8 (utf8 text) = true :=
  ByteArray.validateUTF8_eq_true_iff.mpr ⟨text.toList, rfl⟩

theorem decode_encoded_part (arch : Arch) (text : String) (wide : Bool) {offset total : Nat}
    (h : total + (utf8 text).length ≤ usizeMax) :
    decode arch wide (encode_parameter (utf8 text)) offset total .UNLIMITED = (.ok (utf8 text), total + (utf8 text).length) := by
  have hadd : ∀ amount, total + amount ≤ usizeMax →
      add_decoded total amount offset .UNLIMITED = (.ok (), total + amount) := by
    intro amount hle
    unfold add_decoded QueryLimits.UNLIMITED
    simp only [checked_add_of_le hle]
    rw [if_neg (Nat.not_lt.mpr hle)]
  rw [decode_eq]
  unfold decode_known
  split
  · rename_i hplain
    -- without an escape the part is its own text
    rw [Bool.not_eq_true', any_eq_false] at hplain
    have hself := unescape_plain (fun b hb => by simpa using hplain b hb) []
    rw [append_nil, unescape_encode, unescape, Option.map_some, append_nil, Option.some.injEq] at hself
    rw [← hself, hadd _ h]
    rfl
  · have hall : unescape ((encode_parameter (utf8 text)).drop 0) = some (utf8 text) := unescape_encode _
    have hvalid : from_utf8 ([] ++ utf8 text) = true := from_utf8_utf8 text
    rw [decode_encoded_eq hall hvalid, nil_append, hadd _ h]
    rfl

/-! ## Writing -/

def pair_text (pair : String × String) : Str := encode_parameter (utf8 pair.1) ++ EQUALS :: encode_parameter (utf8 pair.2)

/-- Pairs as they are written, with a separator before each but the first. -/
def joined (first : Bool) : List (String × String) → Str
  | [] => []
  | pair :: pairs => (if first then [] else [AMPERSAND]) ++ (pair_text pair ++ joined false pairs)

namespace Encoder

variable {e : Encoder}

variable (h : e.limits = .UNLIMITED)
include h

theorem write_raw_eq (parameter : Option Str) (value : Str) :
    e.write_raw parameter value =
      if e.written + value.length ≤ usizeMax then
        .ok { e with output := e.output ++ value, written := e.written + value.length }
      else .error (.production parameter .too_long) := by
  unfold write_raw
  by_cases hle : e.written + value.length ≤ usizeMax
  · have hmax : e.limits.max_encoded_length = usizeMax := by rw [h, QueryLimits.UNLIMITED]
    simp only [checked_add_of_le hle, hmax]
    rw [if_pos hle, if_neg (Nat.not_lt.mpr hle)]
  · rw [checked_add_of_gt (Nat.lt_of_not_le hle), if_neg hle]

theorem write_raw_nil (hw : e.written ≤ usizeMax) (parameter : Option Str) :
    e.write_raw parameter [] = .ok e := by
  rw [write_raw_eq h, append_nil, length_nil, Nat.add_zero, if_pos hw]

theorem write_raw_append (parameter : Option Str) (a b : Str) :
    (e.write_raw parameter a >>= fun e => e.write_raw parameter b) = e.write_raw parameter (a ++ b) := by
  rw [write_raw_eq h, write_raw_eq h, length_append, ← Nat.add_assoc, ← append_assoc]
  by_cases hle : e.written + a.length ≤ usizeMax
  · rw [if_pos hle]
    exact write_raw_eq (e := { e with output := e.output ++ a, written := e.written + a.length }) h parameter b
  · rw [if_neg hle, if_neg (by omega)]
    rfl

theorem write_raw_congr {parameter : Option Str} {a : Str} {k l : Encoder → Except Error Encoder}
    (hk : ∀ e' : Encoder, e'.limits = .UNLIMITED → e'.written ≤ usizeMax → e'.first = e.first → k e' = l e') :
    (e.write_raw parameter a >>= k) = (e.write_raw parameter a >>= l) := by
  rw [write_raw_eq h]
  split
  · rename_i hle
    exact hk { e with output := e.output ++ a, written := e.written + a.length } h hle rfl
  · rfl

theorem write_run_eq (hw : e.written ≤ usizeMax) (parameter run : Str) :
    e.write_run parameter run = e.write_raw (some parameter) run := by
  unfold write_run
  split
  · rfl
  · rename_i hrun
    rw [not_not.mp hrun, write_raw_nil h hw]

theorem write_bytes_eq (hw : e.written ≤ usizeMax) (parameter run value : Str) :
    e.write_bytes parameter run value = e.write_raw (some parameter) (run ++ encode_parameter value) := by
  induction value generalizing e run with
  | nil =>
    unfold write_bytes encode_parameter
    rw [flatMap_nil, append_nil, write_run_eq h hw]
  | cons b value ih =>
    rw [write_bytes, encode_parameter_cons]
    unfold encode_byte
    split
    · rw [ih h hw, append_assoc]
    · rw [write_run_eq h hw, ← write_raw_append h]
      refine write_raw_congr h fun e h _ _ => ?_
      rw [← write_raw_append h]
      refine write_raw_congr h fun e h hw _ => ?_
      rw [ih h hw, nil_append]

theorem write_pair_eq (pair : String × String) :
    (do let e ← e.write_raw (some (utf8 pair.1)) (encode_parameter (utf8 pair.1))
        let e ← e.write_raw (some (utf8 pair.1)) [EQUALS]
        e.write_encoded (utf8 pair.1) (utf8 pair.2)) = e.write_raw (some (utf8 pair.1)) (pair_text pair) := by
  unfold pair_text
  rw [← write_raw_append h]
  refine write_raw_congr h fun e h _ _ => ?_
  rw [← singleton_append (l := encode_parameter (utf8 pair.2)), ← write_raw_append h]
  refine write_raw_congr h fun e h hw _ => ?_
  rw [write_encoded, write_bytes_eq h hw, nil_append]

theorem pair_str_eq (pair : String × String) :
    e.pair_str (utf8 pair.1) (encode_parameter (utf8 pair.1)) (utf8 pair.2) =
      { e with first := false }.write_raw (some (utf8 pair.1)) ((if e.first then [] else [AMPERSAND]) ++ pair_text pair) := by
  unfold pair_str start_pair write_separator
  cases hfirst : e.first with
  | true =>
    simp only [Bool.not_true, Bool.false_eq_true, if_false, if_true, bind_assoc]
    exact write_pair_eq (e := { e with first := false }) h pair
  | false =>
    have hsame : ∀ e : Encoder, e.first = false → { e with first := false } = e := by
      intro e hfirst
      rw [← hfirst]
    simp only [Bool.not_false, if_true, Bool.false_eq_true, if_false, bind_assoc]
    rw [hsame e hfirst, ← write_raw_append h]
    refine write_raw_congr h fun e' h' _ hfirst' => ?_
    rw [hsame e' (hfirst'.trans hfirst)]
    exact write_pair_eq h' pair

theorem write_pairs_from (pairs : List (String × String)) :
    let result := pairs.foldlM (fun e pair => e.pair_str (utf8 pair.1) (encode_parameter (utf8 pair.1)) (utf8 pair.2)) e
    if e.written + (joined e.first pairs).length ≤ usizeMax then
      ∃ e', result = .ok e' ∧ e'.output = e.output ++ joined e.first pairs
    else e.written ≤ usizeMax → ∃ parameter, result = .error (.production parameter .too_long) := by
  induction pairs generalizing e with
  | nil =>
    simp only [joined, length_nil, Nat.add_zero, append_nil]
    split
    · exact ⟨e, rfl, rfl⟩
    · exact fun hw => absurd hw ‹_›
  | cons pair pairs ih =>
    simp only [foldlM_cons, pair_str_eq h]
    rw [write_raw_eq (e := { e with first := false }) h, joined, ← append_assoc, length_append]
    generalize (if e.first then [] else [AMPERSAND]) ++ pair_text pair = text
    by_cases hle : e.written + text.length ≤ usizeMax
    · have hnext := ih (e := { e with first := false, output := e.output ++ text, written := e.written + text.length }) h
      simp only [if_pos hle]
      rw [← Nat.add_assoc]
      split
      · rename_i hall
        rw [if_pos hall] at hnext
        rw [← append_assoc]
        exact hnext
      · rename_i hall
        rw [if_neg hall] at hnext
        exact fun _ => hnext hle
    · rw [if_neg (by omega)]
      simp only [if_neg hle]
      exact fun _ => ⟨_, rfl⟩

end Encoder

/-! ## Reading back -/

theorem before_apart (h : c ∉ text) : before c text = text := by
  induction text with
  | nil => rfl
  | cons b text ih =>
    rw [mem_cons, not_or] at h
    rw [before_cons_ne (Ne.symm h.1), ih h.2]

theorem before_append (h : c ∉ text) (rest : Str) : before c (text ++ c :: rest) = text := by
  induction text with
  | nil => exact before_cons_self c rest
  | cons b text ih =>
    rw [mem_cons, not_or] at h
    rw [cons_append, before_cons_ne (Ne.symm h.1), ih h.2]

theorem after_append (h : c ∉ text) (rest : Str) : after c (text ++ c :: rest) = rest := by
  induction text with
  | nil => exact after_cons_self c rest
  | cons b text ih =>
    rw [mem_cons, not_or] at h
    rw [cons_append, after_cons_ne (Ne.symm h.1), ih h.2]

theorem findIdx_apart (h : c ∉ text) : text.findIdx? (· == c) = none := by
  refine findIdx?_eq_none_iff.mpr fun b hb => beq_eq_false_iff_ne.mpr ?_
  rintro rfl
  exact h hb

theorem findIdx_append (h : c ∉ text) (rest : Str) :
    (text ++ c :: rest).findIdx? (· == c) = some text.length := by
  rw [findIdx?_append, findIdx_apart h, findIdx_cons_self]
  simp

theorem length_encode_le (text : Str) : text.length ≤ (encode_parameter text).length := by
  induction text with
  | nil => exact Nat.zero_le _
  | cons b text ih =>
    have hb : 0 < (encode_byte b).length := by
      unfold encode_byte
      split
      · exact Nat.one_pos
      · split <;> simp [escaped]
    rw [encode_parameter_cons, length_append, length_cons]
    omega

theorem pair_text_apart (pair : String × String) : AMPERSAND ∉ pair_text pair := by
  unfold pair_text
  rw [mem_append, mem_cons, not_or, not_or]
  exact ⟨fun h => (encode_apart h).1 rfl, by decide, fun h => (encode_apart h).1 rfl⟩

namespace Parser

variable {p : Parser}

theorem read_wide_pair (arch : Arch) (hlimits : p.limits = .UNLIMITED) (hpairs : p.pairs < usizeMax) (offset : Nat)
    (pair : String × String) (hdecoded : p.decoded + (utf8 pair.1).length + (utf8 pair.2).length ≤ usizeMax) :
    p.read_wide arch offset (pair_text pair) = (.ok (some ⟨utf8 pair.1, utf8 pair.2, offset⟩),
      { p with pairs := p.pairs + 1, decoded := p.decoded + (utf8 pair.1).length + (utf8 pair.2).length }) := by
  have hkey : EQUALS ∉ encode_parameter (utf8 pair.1) := fun h => (encode_apart h).2 rfl
  have hmax : ¬ p.pairs + 1 > QueryLimits.UNLIMITED.max_pairs := by
    rw [QueryLimits.UNLIMITED]
    exact Nat.not_lt.mpr hpairs
  unfold read_wide decode_pair
  simp only [find_byte_eq, split_pair_eq, hlimits]
  rw [if_neg hmax, show before EQUALS (pair_text pair) = encode_parameter (utf8 pair.1) from before_append hkey _,
    show after EQUALS (pair_text pair) = encode_parameter (utf8 pair.2) from after_append hkey _,
    decode_encoded_part arch pair.1 true (by omega)]
  simp only
  rw [decode_encoded_part arch pair.2 true hdecoded]

/-- The counts of a parser do not run ahead of its cursor. -/
structure Within (p : Parser) : Prop where
  limits_eq : p.limits = .UNLIMITED
  fits : p.input.length ≤ usizeMax
  pairs_le : p.pairs ≤ p.cursor
  decoded_le : p.decoded ≤ p.cursor

theorem behind_pair {pair : String × String} {pairs : List (String × String)}
    (hdrop : p.input.drop p.cursor = joined true (pair :: pairs)) :
    let p' := p.behind ((p.input.drop p.cursor).findIdx? (· == AMPERSAND))
    p.cursor + (pair_text pair).length ≤ p'.cursor ∧ p'.input.drop p'.cursor = joined true pairs ∧
      before AMPERSAND (p.input.drop p.cursor) = pair_text pair := by
  have hlen := congrArg List.length hdrop
  have hpos : 0 < (pair_text pair).length := by simp [pair_text]
  rw [length_drop] at hlen
  rw [hdrop]
  cases pairs with
  | nil =>
    simp only [joined, if_true, nil_append, append_nil] at hlen ⊢
    rw [findIdx_apart (pair_text_apart pair)]
    refine ⟨?_, drop_length, before_apart (pair_text_apart pair)⟩
    simp only [behind]
    omega
  | cons next pairs =>
    have hjoined : joined true (pair :: next :: pairs) = pair_text pair ++ AMPERSAND :: joined true (next :: pairs) := by
      simp [joined]
    rw [hjoined] at hdrop ⊢
    rw [findIdx_append (pair_text_apart pair)]
    refine ⟨?_, ?_, before_append (pair_text_apart pair) _⟩
    · simp only [behind]
      omega
    · simp only [behind]
      rw [← drop_drop, hdrop, ← drop_drop, drop_left, drop_succ_cons, drop_zero]

theorem Within.read_all (h : p.Within) {pairs : List (String × String)}
    (hdrop : p.input.drop p.cursor = joined true pairs) (arch : Arch) (wide : Bool) :
    (p.read_all arch wide).2 = none ∧
      (p.read_all arch wide).1.map (fun pair => (pair.key, pair.value)) = pairs.map fun pair => (utf8 pair.1, utf8 pair.2) := by
  induction pairs generalizing p with
  | nil =>
    have hend : p.next_pair arch wide = (.ok none, p) := by
      rw [next_pair_eq, next_pair_scalar, if_neg]
      exact Nat.not_lt.mpr (drop_eq_nil_iff.mp hdrop)
    rw [read_all_end hend]
    exact ⟨rfl, rfl⟩
  | cons pair pairs ih =>
    obtain ⟨hcursor, hnext, hpair⟩ := behind_pair hdrop
    have hlt : p.cursor < p.input.length := by
      rw [← Nat.not_le, ← drop_eq_nil_iff, hdrop, joined]
      simp [pair_text]
    have hbounds : p.cursor + (pair_text pair).length ≤ p.input.length := by
      have hlen := congrArg List.length hdrop
      rw [length_drop, joined] at hlen
      simp only [if_true, nil_append, length_append] at hlen
      omega
    have hparts : (utf8 pair.1).length + (utf8 pair.2).length < (pair_text pair).length := by
      have h1 := length_encode_le (utf8 pair.1)
      have h2 := length_encode_le (utf8 pair.2)
      simp only [pair_text, length_append, length_cons]
      omega
    have hfits := h.fits
    have hpairs := h.pairs_le
    have hdecoded := h.decoded_le
    have hread := read_wide_pair arch (p := p.behind ((p.input.drop p.cursor).findIdx? (· == AMPERSAND))) h.limits_eq
      (show p.pairs < usizeMax by omega) p.cursor pair
      (show p.decoded + (utf8 pair.1).length + (utf8 pair.2).length ≤ usizeMax by omega)
    have hstep : p.next_pair arch wide =
        (p.behind ((p.input.drop p.cursor).findIdx? (· == AMPERSAND))).read_wide arch p.cursor (pair_text pair) := by
      rw [next_pair_eq, next_pair_scalar_step arch hlt rfl, hpair, if_neg (by simp [pair_text])]
    rw [read_all_pair (hstep.trans hread)]
    have hrest := ih (p := { p.behind ((p.input.drop p.cursor).findIdx? (· == AMPERSAND)) with
      pairs := p.pairs + 1, decoded := p.decoded + (utf8 pair.1).length + (utf8 pair.2).length })
      ⟨h.limits_eq, h.fits, by simp only; omega, by simp only; omega⟩ hnext
    exact ⟨hrest.1, congrArg (_ :: ·) hrest.2⟩

end Parser

/-- What reading a query gives: an error at the start, or the pairs and the first error. -/
def read_query (arch : Arch) (wide : Bool) (input : Str) (limits : QueryLimits) : Except Error (List Pair × Option Error) := do
  let p ← Parser.new input limits
  pure (p.read_all arch wide)

/-- What is written is read back, and both parsers read the same on every target. -/
theorem query_codec :
    (∀ pairs : List (String × String),
      (usizeMax < (joined true pairs).length ∧ ∃ parameter, write_pairs .UNLIMITED pairs = .error (.production parameter .too_long)) ∨
      ∃ e, write_pairs .UNLIMITED pairs = .ok e ∧ ∀ arch wide, ∃ read, read_query arch wide e.output .UNLIMITED = .ok (read, none) ∧
        read.map (fun pair => (pair.key, pair.value)) = pairs.map fun pair => (utf8 pair.1, utf8 pair.2)) ∧
    ∀ (arch arch' : Arch) (input : String) (limits : QueryLimits),
      read_query arch true (utf8 input) limits = read_query arch' false (utf8 input) limits := by
  constructor
  · intro pairs
    have hwritten := Encoder.write_pairs_from (e := Encoder.new .UNLIMITED) rfl pairs
    simp only [Encoder.new, Nat.zero_add, nil_append] at hwritten
    split at hwritten
    · rename_i hfits
      right
      obtain ⟨e, hok, hout⟩ := hwritten
      refine ⟨e, hok, fun arch wide => ?_⟩
      have hwithin : Parser.Within ⟨e.output, 0, 0, 0, .UNLIMITED⟩ := ⟨rfl, by rw [hout]; exact hfits, Nat.le_refl 0, Nat.le_refl 0⟩
      obtain ⟨hnone, hpairs⟩ := hwithin.read_all (show e.output.drop 0 = _ from hout) arch wide
      refine ⟨_, ?_, hpairs⟩
      unfold read_query Parser.new
      rw [if_neg (Nat.not_lt.mpr (by rw [hout]; exact hfits))]
      exact congrArg Except.ok (Prod.ext rfl hnone)
    · rename_i hlong
      left
      exact ⟨Nat.lt_of_not_le hlong, hwritten (Nat.zero_le _)⟩
  · intro arch arch' input limits
    unfold read_query
    simp only [Parser.read_all_eq arch arch' true]

end Query
