import Oxidizer.Query.Model
/-!
# The two parsers agree

The vector searches find what the scalar ones find, and the one scan of the
scalar parser finds what the searches of the wide one find. So both parsers do
the same with every pair, and leave the same state behind.
-/

namespace Query

open Lib Routing List

/-! ## Vector searches -/

theorem movemask_eq_zero {lanes : List Bool} : movemask lanes = 0 ↔ lanes.findIdx? id = none := by
  induction lanes with
  | nil => simp [movemask]
  | cons lane lanes ih =>
    rw [movemask, findIdx?_cons]
    cases lane with
    | false =>
      rw [id_eq, if_neg (by simp), if_neg (by simp), Option.map_eq_none_iff, ← ih]
      omega
    | true => simp

theorem trailing_zeros_movemask {lanes : List Bool} {i width : Nat} (h : lanes.findIdx? id = some i)
    (hw : lanes.length ≤ width) : trailing_zeros width (movemask lanes) = i := by
  induction lanes generalizing i width with
  | nil => cases h
  | cons lane lanes ih =>
    obtain ⟨width, rfl⟩ := Nat.exists_eq_succ_of_ne_zero (Nat.ne_zero_of_lt hw)
    rw [findIdx?_cons] at h
    rw [movemask, trailing_zeros]
    cases lane with
    | true =>
      rw [if_pos (by simp)]
      simpa using h
    | false =>
      rw [id_eq, if_neg (by simp), Option.map_eq_some_iff] at h
      obtain ⟨j, hj, rfl⟩ := h
      rw [if_neg (by simp), ← ih hj (Nat.le_of_succ_le_succ hw)]
      simp

theorem drop_chunk (bytes : Str) (offset : Nat) :
    bytes.drop offset = (bytes.drop offset).take 16 ++ bytes.drop (offset + 16) := by
  rw [← drop_drop, take_append_drop]

theorem find_byte_by_eq {first_match : Str → Option Nat} {needle : UInt8}
    (hmatch : ∀ chunk, chunk.length = 16 → first_match chunk = chunk.findIdx? (· == needle)) (bytes : Str) (offset : Nat) :
    find_byte_by first_match bytes needle offset = (find_byte_scalar (bytes.drop offset) needle).map (offset + ·) := by
  have hlen {offset : Nat} (hle : offset + 16 ≤ bytes.length) : ((bytes.drop offset).take 16).length = 16 := by
    simp only [length_take, length_drop]
    omega
  fun_induction find_byte_by first_match bytes needle offset with
  | case1 offset hle index hfound =>
    rw [hmatch _ (hlen hle)] at hfound
    rw [find_byte_scalar, drop_chunk, findIdx?_append, hfound]
    rfl
  | case2 offset hle hnone ih =>
    rw [hmatch _ (hlen hle)] at hnone
    rw [ih, find_byte_scalar, find_byte_scalar, drop_chunk bytes offset, findIdx?_append, hnone, Option.none_or, hlen hle,
      Option.map_map]
    congr 1
    funext i
    simp only [Function.comp]
    omega
  | case3 offset hlt => rfl

theorem contains_either_by_eq {matched : Str → Bool} {first second : UInt8}
    (hmatch : ∀ chunk, matched chunk = chunk.any fun byte => byte == first || byte == second) (bytes : Str) (offset : Nat) :
    contains_either_by matched bytes first second offset = contains_either_scalar (bytes.drop offset) first second := by
  fun_induction contains_either_by matched bytes first second offset with
  | case1 offset hle hany =>
    rw [hmatch] at hany
    rw [contains_either_scalar, drop_chunk, any_append, hany, Bool.true_or]
  | case2 offset hle hany ih =>
    rw [hmatch, Bool.not_eq_true] at hany
    rw [ih, contains_either_scalar, contains_either_scalar, drop_chunk bytes offset, any_append, hany, Bool.false_or]
  | case3 offset hlt => rfl

theorem find_byte_sse2_eq (bytes : Str) (needle : UInt8) : find_byte_sse2 bytes needle = find_byte_scalar bytes needle := by
  rw [find_byte_sse2, find_byte_by_eq]
  · simp
  intro chunk hlen
  rw [show chunk.findIdx? (· == needle) = (chunk.map (· == needle)).findIdx? id by rw [findIdx?_map]; rfl]
  dsimp only
  split
  · rename_i hmask
    obtain ⟨i, hi⟩ := Option.ne_none_iff_exists'.mp fun hnone => hmask (movemask_eq_zero.mpr hnone)
    rw [hi, trailing_zeros_movemask hi (by rw [length_map, hlen])]
  · rename_i hmask
    exact (movemask_eq_zero.mp (not_not.mp hmask)).symm

theorem any_iff_movemask {lanes : List Bool} : lanes.any id = decide (movemask lanes ≠ 0) := by
  rw [← findIdx?_isSome, Bool.eq_iff_iff, decide_eq_true_iff, Option.isSome_iff_ne_none, ne_eq, ne_eq, movemask_eq_zero]

theorem contains_either_sse2_eq (bytes : Str) (first second : UInt8) :
    contains_either_sse2 bytes first second = contains_either_scalar bytes first second := by
  rw [contains_either_sse2, contains_either_by_eq, drop_zero]
  intro chunk
  rw [← any_iff_movemask, any_map]
  rfl

/-- The narrowed lanes have four bits for every byte. -/
theorem vget_lane_vshrn (chunk : Str) (needle : UInt8) (heven : chunk.length % 2 = 0) :
    vget_lane_u64 (vshrn_n_u16 (vceqq_u8 chunk needle)) = movemask (chunk.flatMap fun byte => replicate 4 (byte == needle)) := by
  induction hn : chunk.length / 2 generalizing chunk with
  | zero =>
    obtain rfl : chunk = [] := length_eq_zero_iff.mp (by omega)
    rfl
  | succ n ih =>
    match chunk, heven, hn with
    | low :: high :: rest, heven, hn =>
      simp only [length_cons] at heven hn
      have hrest := ih rest (by omega) (by omega)
      simp only [vceqq_u8, map_cons, vshrn_n_u16, vget_lane_u64, flatMap_cons] at hrest ⊢
      rw [hrest]
      cases low == needle <;> cases high == needle <;> simp [replicate, movemask] <;> omega

theorem findIdx_lanes (chunk : Str) (needle : UInt8) :
    (chunk.flatMap fun byte => replicate 4 (byte == needle)).findIdx? id = (chunk.findIdx? (· == needle)).map (4 * ·) := by
  induction chunk with
  | nil => rfl
  | cons byte rest ih =>
    rw [flatMap_cons, findIdx?_append, findIdx?_cons, ih]
    cases byte == needle with
    | true => rfl
    | false => cases rest.findIdx? (· == needle) <;> simp [replicate, findIdx?_cons]; omega

theorem find_byte_neon_eq (bytes : Str) (needle : UInt8) : find_byte_neon bytes needle = find_byte_scalar bytes needle := by
  rw [find_byte_neon, find_byte_by_eq]
  · simp
  intro chunk hlen
  have hfind := findIdx_lanes chunk needle
  dsimp only
  rw [vget_lane_vshrn chunk needle (by omega)]
  cases hi : chunk.findIdx? (· == needle) with
  | none =>
    rw [hi] at hfind
    rw [if_neg (not_not.mpr (movemask_eq_zero.mpr hfind))]
  | some i =>
    rw [hi] at hfind
    have hwidth : (chunk.flatMap fun byte => replicate 4 (byte == needle)).length ≤ 64 := by simp [length_flatMap, hlen]
    have hzeros : trailing_zeros 64 (movemask (chunk.flatMap fun byte => replicate 4 (byte == needle))) = 4 * i :=
      trailing_zeros_movemask hfind hwidth
    have hmask : movemask (chunk.flatMap fun byte => replicate 4 (byte == needle)) ≠ 0 :=
      fun hzero => nomatch (movemask_eq_zero.mp hzero).symm.trans hfind
    rw [if_pos hmask, hzeros]
    exact congrArg some (by omega)

theorem max_ne_zero {a b : UInt8} : max a b ≠ 0 ↔ a ≠ 0 ∨ b ≠ 0 := by
  show (if a ≤ b then b else a) ≠ 0 ↔ _
  simp only [UInt8.le_iff_toNat_le, ne_eq, ← UInt8.toNat_inj, UInt8.toNat_zero]
  split <;> omega

theorem contains_either_neon_eq (bytes : Str) (first second : UInt8) :
    contains_either_neon bytes first second = contains_either_scalar bytes first second := by
  rw [contains_either_neon, contains_either_by_eq, drop_zero]
  intro chunk
  induction chunk with
  | nil => rfl
  | cons byte rest ih =>
    rw [any_cons, ← ih]
    simp only [vceqq_u8, vorrq_u8, map_cons, zipWith_cons_cons, vmaxvq_u8, foldr_cons, max_ne_zero]
    cases byte == first <;> cases byte == second <;> simp

variable (arch : Arch)

theorem find_byte_eq (wide : Bool) (bytes : Str) (needle : UInt8) :
    find_byte arch wide bytes needle = bytes.findIdx? (· == needle) := by
  unfold find_byte
  cases arch with
  | x86_64 => rw [find_byte_sse2_eq, ite_self]; rfl
  | aarch64 => rw [find_byte_neon_eq, ite_self]; rfl
  | other => rw [ite_self]; rfl

theorem contains_either_eq (wide : Bool) (bytes : Str) :
    contains_either arch wide bytes PERCENT PLUS = bytes.any is_special := by
  unfold contains_either
  cases arch with
  | x86_64 => rw [contains_either_sse2_eq, ite_self]; rfl
  | aarch64 => rw [contains_either_neon_eq, ite_self]; rfl
  | other => rw [ite_self]; rfl

/-! ## The parts of a pair -/

def before (separator : UInt8) (bytes : Str) : Str := bytes.takeWhile (· != separator)

def after (separator : UInt8) (bytes : Str) : Str := (bytes.dropWhile (· != separator)).drop 1

theorem before_cons_self (c : UInt8) (bytes : Str) : before c (c :: bytes) = [] := by simp [before]

variable {c b : UInt8}

theorem before_cons_ne (h : b ≠ c) (bytes : Str) : before c (b :: bytes) = b :: before c bytes := by
  simp [before, h]

theorem after_cons_self (c : UInt8) (bytes : Str) : after c (c :: bytes) = bytes := by simp [after]

theorem after_cons_ne (h : b ≠ c) (bytes : Str) : after c (b :: bytes) = after c bytes := by
  simp [after, h]

theorem findIdx_cons_self (c : UInt8) (bytes : Str) : (c :: bytes).findIdx? (· == c) = some 0 := by
  simp [findIdx?_cons]

theorem findIdx_cons_ne (h : b ≠ c) (bytes : Str) :
    (b :: bytes).findIdx? (· == c) = (bytes.findIdx? (· == c)).map (· + 1) := by
  simp [findIdx?_cons, h]

theorem take_before (c : UInt8) (bytes : Str) : bytes.take ((bytes.findIdx? (· == c)).getD bytes.length) = before c bytes := by
  induction bytes with
  | nil => rfl
  | cons b bytes ih =>
    by_cases hb : b = c
    · rw [hb, findIdx_cons_self, before_cons_self]
      rfl
    · rw [findIdx_cons_ne hb, before_cons_ne hb, ← ih]
      cases bytes.findIdx? (· == c) <;> rfl

theorem split_pair_eq (raw_pair : Str) :
    Parser.split_pair raw_pair (raw_pair.findIdx? (· == EQUALS)) = (before EQUALS raw_pair, after EQUALS raw_pair) := by
  induction raw_pair with
  | nil => rfl
  | cons b bytes ih =>
    by_cases hb : b = EQUALS
    · rw [hb, findIdx_cons_self, before_cons_self, after_cons_self]
      rfl
    · rw [findIdx_cons_ne hb, before_cons_ne hb, after_cons_ne hb]
      rw [Prod.ext_iff] at ih ⊢
      cases hf : bytes.findIdx? (· == EQUALS) with
      | none | some i =>
        rw [hf] at ih
        exact ⟨congrArg (b :: ·) ih.1, ih.2⟩

theorem map_shift (n : Nat) (o : Option Nat) : (o.map (· + 1)).map (n + ·) = o.map (n + 1 + ·) := by
  rw [Option.map_map]
  congr 1
  funext i
  simp only [Function.comp]
  omega

theorem scan_value (index e : Nat) (key_encoded value_encoded : Bool) (bytes : Str) :
    scan_bytes index (some e) key_encoded value_encoded bytes =
      ⟨(bytes.findIdx? (· == AMPERSAND)).map (index + ·), some e, key_encoded,
        value_encoded || (before AMPERSAND bytes).any is_special⟩ := by
  induction bytes generalizing index value_encoded with
  | nil => simp [scan_bytes, before]
  | cons b bytes ih =>
    rw [scan_bytes]
    by_cases hb : b = AMPERSAND
    · rw [if_pos hb, hb, findIdx_cons_self, before_cons_self]
      simp
    · rw [if_neg hb, if_neg (by simp), findIdx_cons_ne hb, before_cons_ne hb, map_shift, any_cons]
      cases hs : is_special b with
      | true =>
        rw [if_pos (by simp), ih]
        simp
      | false =>
        rw [if_neg (by simp), if_neg (by simp), ih, Bool.false_or]

theorem scan_key (index : Nat) (key_encoded : Bool) (bytes : Str) :
    scan_bytes index none key_encoded false bytes =
      ⟨(bytes.findIdx? (· == AMPERSAND)).map (index + ·),
        ((before AMPERSAND bytes).findIdx? (· == EQUALS)).map (index + ·),
        key_encoded || (before EQUALS (before AMPERSAND bytes)).any is_special,
        (after EQUALS (before AMPERSAND bytes)).any is_special⟩ := by
  induction bytes generalizing index key_encoded with
  | nil => simp [scan_bytes, before, after]
  | cons b bytes ih =>
    rw [scan_bytes]
    by_cases hb : b = AMPERSAND
    · rw [if_pos hb, hb, findIdx_cons_self, before_cons_self]
      simp [before, after]
    · rw [if_neg hb, findIdx_cons_ne hb, before_cons_ne hb, map_shift]
      by_cases he : b = EQUALS
      · rw [if_pos ⟨he, rfl⟩, scan_value, he, findIdx_cons_self, before_cons_self, after_cons_self]
        simp
      · rw [if_neg (by simp [he]), if_neg (by simp), findIdx_cons_ne he, before_cons_ne he, after_cons_ne he, map_shift,
          any_cons]
        cases hs : is_special b with
        | true =>
          rw [if_pos rfl, ih]
          simp
        | false =>
          rw [if_neg (by simp), ih, Bool.false_or]

theorem scan_pair_eq (bytes : Str) :
    scan_pair bytes =
      ⟨bytes.findIdx? (· == AMPERSAND), (before AMPERSAND bytes).findIdx? (· == EQUALS),
        (before EQUALS (before AMPERSAND bytes)).any is_special, (after EQUALS (before AMPERSAND bytes)).any is_special⟩ := by
  unfold scan_pair
  rw [scan_key]
  simp

/-! ## Both parsers -/

theorem decode_eq (wide : Bool) (input : Str) (offset total : Nat) (limits : QueryLimits) :
    decode arch wide input offset total limits = decode_known input offset total limits (input.any is_special) := by
  unfold decode decode_known
  rw [contains_either_eq]

theorem decode_known_plain {input : Str} {offset total : Nat} {limits : QueryLimits}
    (h : total + input.length ≤ usizeMax) (hmax : total + input.length ≤ limits.max_decoded_length) :
    decode_known input offset total limits false = (.ok input, total + input.length) := by
  unfold decode_known add_decoded
  rw [checked_add_of_le h]
  simp only [Bool.not_false, if_true]
  rw [if_neg (Nat.not_lt.mpr hmax)]
  rfl

theorem length_split (raw_pair : Str) :
    (before EQUALS raw_pair).length + (after EQUALS raw_pair).length =
      Parser.unencoded_pair_decoded_len raw_pair (raw_pair.findIdx? (· == EQUALS)) := by
  unfold Parser.unencoded_pair_decoded_len
  induction raw_pair with
  | nil => rfl
  | cons b bytes ih =>
    by_cases hb : b = EQUALS
    · rw [hb, findIdx_cons_self, before_cons_self, after_cons_self]
      simp
    · rw [findIdx_cons_ne hb, before_cons_ne hb, after_cons_ne hb, Option.isSome_map, length_cons, length_cons]
      split at ih
      · rename_i hsome
        have hpos : 0 < bytes.length := by
          cases bytes with
          | nil => cases hsome
          | cons _ _ => simp
        rw [if_pos hsome]
        omega
      · rename_i hnone
        rw [if_neg hnone]
        omega

namespace Parser

theorem read_scalar_eq (p : Parser) (offset : Nat) (raw_pair : Str) (separator : Option Nat) :
    p.read_scalar offset raw_pair ⟨separator, raw_pair.findIdx? (· == EQUALS), (before EQUALS raw_pair).any is_special,
      (after EQUALS raw_pair).any is_special⟩ = p.read_wide arch offset raw_pair := by
  unfold read_scalar read_wide
  simp only [find_byte_eq, decode_eq, split_pair_eq]
  split
  · rfl
  · split
    · rename_i hplain
      rw [Bool.and_eq_true, Bool.not_eq_true', Bool.not_eq_true'] at hplain
      split
      · rename_i total htotal
        split
        · rename_i hle
          obtain ⟨rfl, hmax⟩ := checked_add_eq_some htotal
          rw [← length_split] at hle hmax ⊢
          unfold decode_pair
          simp only [hplain.1, hplain.2]
          rw [decode_known_plain (by omega) (by omega)]
          simp only
          rw [decode_known_plain (by omega) (by omega)]
          simp only [Nat.add_assoc]
        · rfl
      · rfl
    · rfl

variable {p : Parser}

theorem next_pair_scalar_step (hlt : p.cursor < p.input.length) {rest : Str} (hrest : p.input.drop p.cursor = rest) :
    p.next_pair_scalar =
      if (before AMPERSAND rest).isEmpty then (p.behind (rest.findIdx? (· == AMPERSAND))).next_pair_scalar
      else (p.behind (rest.findIdx? (· == AMPERSAND))).read_wide arch p.cursor (before AMPERSAND rest) := by
  rw [next_pair_scalar.eq_def p, if_pos hlt]
  simp only [hrest, scan_pair_eq, take_before, read_scalar_eq arch]

theorem next_pair_wide_eq (p : Parser) : p.next_pair_wide arch = p.next_pair_scalar := by
  fun_induction next_pair_wide arch p with
  | case1 p hlt offset rest hshort => rfl
  | case2 p hlt offset rest hlong separator raw_pair p' hempty ih =>
    have hraw : raw_pair = before AMPERSAND rest := by
      simp only [raw_pair, separator, find_byte_eq, take_before]
    rw [hraw] at hempty
    rw [ih, next_pair_scalar_step arch hlt rfl, ← find_byte_eq arch true]
    exact (if_pos hempty).symm
  | case3 p hlt offset rest hlong separator raw_pair p' hne =>
    have hraw : raw_pair = before AMPERSAND rest := by
      simp only [raw_pair, separator, find_byte_eq, take_before]
    rw [hraw] at hne ⊢
    rw [next_pair_scalar_step arch hlt rfl, ← find_byte_eq arch true]
    exact (if_neg hne).symm
  | case4 p hge => rw [next_pair_scalar, if_neg hge]

theorem next_pair_eq (wide : Bool) (p : Parser) : p.next_pair arch wide = p.next_pair_scalar := by
  unfold next_pair
  split
  · rfl
  · exact p.next_pair_wide_eq arch

theorem read_wide_keeps (p : Parser) (offset : Nat) (raw_pair : Str) :
    (p.read_wide arch offset raw_pair).2.cursor = p.cursor ∧ (p.read_wide arch offset raw_pair).2.input = p.input := by
  unfold read_wide decode_pair
  simp only
  split
  · exact ⟨rfl, rfl⟩
  · split
    · exact ⟨rfl, rfl⟩
    · split <;> exact ⟨rfl, rfl⟩

theorem behind_cursor (hlt : p.cursor < p.input.length) (separator : Option Nat) :
    p.cursor < (p.behind separator).cursor ∧ (p.behind separator).input = p.input := by
  unfold behind
  cases separator with
  | none => exact ⟨hlt, rfl⟩
  | some n => exact ⟨by simp only; omega, rfl⟩

variable {arch} {wide : Bool} {p' : Parser}

theorem next_pair_advances {pair : Pair}
    (h : p.next_pair arch wide = (.ok (some pair), p')) : p.cursor < p.input.length ∧ p.cursor < p'.cursor ∧ p'.input = p.input := by
  rw [next_pair_eq] at h
  induction hn : p.input.length - p.cursor using Nat.strongRecOn generalizing p with
  | ind n ih =>
    by_cases hlt : p.cursor < p.input.length
    · refine ⟨hlt, ?_⟩
      rw [next_pair_scalar_step arch hlt rfl] at h
      obtain ⟨hcursor, hinput⟩ := behind_cursor hlt ((p.input.drop p.cursor).findIdx? (· == AMPERSAND))
      split at h
      · obtain ⟨-, hnext, hsame⟩ := ih _ (by rw [hinput]; omega) h rfl
        exact ⟨Nat.lt_trans hcursor hnext, hsame.trans hinput⟩
      · obtain ⟨hread, hsame⟩ := read_wide_keeps arch (p.behind ((p.input.drop p.cursor).findIdx? (· == AMPERSAND))) p.cursor
          (before AMPERSAND (p.input.drop p.cursor))
        rw [h] at hread hsame
        exact ⟨hread ▸ hcursor, hsame.trans hinput⟩
    · rw [next_pair_scalar, if_neg hlt] at h
      cases h

/-- The pairs up to the end or to the first error, and that error. -/
def read_all (arch : Arch) (wide : Bool) (p : Parser) : List Pair × Option Error :=
  match _h : p.next_pair arch wide with
  | (.ok none, _) => ([], none)
  | (.error e, _) => ([], some e)
  | (.ok (some pair), p') =>
    let rest := p'.read_all arch wide
    (pair :: rest.1, rest.2)
termination_by p.input.length - p.cursor
decreasing_by
  obtain ⟨hlt, hnext, hsame⟩ := next_pair_advances _h
  rw [hsame]
  omega

theorem read_all_end (h : p.next_pair arch wide = (.ok none, p')) : p.read_all arch wide = ([], none) := by
  rw [read_all]
  split <;> simp_all

theorem read_all_error {e : Error} (h : p.next_pair arch wide = (.error e, p')) :
    p.read_all arch wide = ([], some e) := by
  rw [read_all]
  split <;> simp_all

theorem read_all_pair {pair : Pair} (h : p.next_pair arch wide = (.ok (some pair), p')) :
    p.read_all arch wide = (pair :: (p'.read_all arch wide).1, (p'.read_all arch wide).2) := by
  rw [read_all]
  split <;> simp_all

theorem read_all_eq (arch arch' : Arch) (wide : Bool) (p : Parser) : p.read_all arch wide = p.read_all arch' false := by
  have heq (p : Parser) : p.next_pair arch' false = p.next_pair arch wide := by rw [next_pair_eq, next_pair_eq]
  fun_induction read_all arch wide p with
  | case1 p p' h => exact (read_all_end ((heq p).trans h)).symm
  | case2 p e p' h => exact (read_all_error ((heq p).trans h)).symm
  | case3 p pair p' h rest ih => rw [read_all_pair ((heq p).trans h), ← ih]

end Parser

end Query
