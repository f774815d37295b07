import Oxidizer.Lib.Usize
import Oxidizer.Routing.Captures
/-!
# The query string codec

The form encoder, and the two parsers of a query string: the scalar one, which
finds the parts of a pair in one scan, and the wide one, which searches with
the vectors of sixteen bytes that the target has. A `str` is its bytes; the parsers cut it only next to
ASCII bytes, so a slice never splits a character. Lengths and offsets are at
most the length of a string.
-/

namespace Query

open Lib Routing

def AMPERSAND : UInt8 := 38
def EQUALS : UInt8 := 61
def PERCENT : UInt8 := 37
def PLUS : UInt8 := 43
def SPACE : UInt8 := 32

/-- `QueryLimits`, without the limit on repeated values that only the field decoders read. -/
structure QueryLimits where
  max_query_length : Nat
  max_pairs : Nat
  max_decoded_length : Nat
  max_encoded_length : Nat
deriving DecidableEq

def QueryLimits.UNLIMITED : QueryLimits := ⟨usizeMax, usizeMax, usizeMax, usizeMax⟩

/-- The kinds that the parsers and the encoder report. A `String` never rejects output. -/
inductive ErrorKind where
  | query_too_long
  | too_many_pairs
  | decoded_too_long
  | invalid_encoding
  | invalid_utf8
  | too_long
deriving DecidableEq

structure Error where
  parameter : Option Str
  pair_offset : Option Nat
  kind : ErrorKind
deriving DecidableEq

def Error.parsing (parameter : Option Str) (pair_offset : Nat) (kind : ErrorKind) : Error := ⟨parameter, some pair_offset, kind⟩

def Error.production (parameter : Option Str) (kind : ErrorKind) : Error := ⟨parameter, none, kind⟩

/-! ## Scanning for bytes -/

def SIMD_THRESHOLD : Nat := 32

def find_byte_scalar (bytes : Str) (needle : UInt8) : Option Nat := bytes.findIdx? (· == needle)

def contains_either_scalar (bytes : Str) (first second : UInt8) : Bool := bytes.any fun byte => byte == first || byte == second

/-- `_mm_movemask_epi8`: bit `i` of the mask is lane `i`. -/
def movemask : List Bool → Nat
  | [] => 0
  | lane :: lanes => (if lane then 1 else 0) + 2 * movemask lanes

/-- `trailing_zeros` of a mask that has a bit among the first `width`. -/
def trailing_zeros : (width : Nat) → (mask : Nat) → Nat
  | 0, _ => 0
  | width + 1, mask => if mask % 2 = 1 then 0 else trailing_zeros width (mask / 2) + 1

/-- `vceqq_u8`: a lane has all its bits where the bytes are equal. -/
def vceqq_u8 (chunk : Str) (needle : UInt8) : Str := chunk.map fun byte => if byte == needle then 255 else 0

/-- `vshrn_n_u16::<4>`, of bytes that are taken for lanes of sixteen bits. -/
def vshrn_n_u16 : Str → Str
  | low :: high :: lanes => .ofNat ((low.toNat + 256 * high.toNat) / 2 ^ 4) :: vshrn_n_u16 lanes
  | _ => []

/-- `vget_lane_u64::<0>`. -/
def vget_lane_u64 : Str → Nat
  | [] => 0
  | byte :: bytes => byte.toNat + 256 * vget_lane_u64 bytes

def vorrq_u8 (a b : Str) : Str := List.zipWith (· ||| ·) a b

def vmaxvq_u8 (lanes : Str) : UInt8 := lanes.foldr max 0

/-- The search by vectors; `first_match` is the place of the byte in a vector. -/
def find_byte_by (first_match : Str → Option Nat) (bytes : Str) (needle : UInt8) (offset : Nat) : Option Nat :=
  if offset + 16 ≤ bytes.length then
    match first_match ((bytes.drop offset).take 16) with
    | some index => some (offset + index)
    | none => find_byte_by first_match bytes needle (offset + 16)
  else (find_byte_scalar (bytes.drop offset) needle).map (offset + ·)
termination_by bytes.length - offset

def contains_either_by (matched : Str → Bool) (bytes : Str) (first second : UInt8) (offset : Nat) : Bool :=
  if offset + 16 ≤ bytes.length then
    if matched ((bytes.drop offset).take 16) then true else contains_either_by matched bytes first second (offset + 16)
  else contains_either_scalar (bytes.drop offset) first second
termination_by bytes.length - offset

def find_byte_sse2 (bytes : Str) (needle : UInt8) : Option Nat :=
  find_byte_by (fun chunk =>
    let mask := movemask (chunk.map (· == needle))
    if mask ≠ 0 then some (trailing_zeros 16 mask) else none) bytes needle 0

def contains_either_sse2 (bytes : Str) (first second : UInt8) : Bool :=
  contains_either_by (fun chunk => movemask (chunk.map fun byte => byte == first || byte == second) ≠ 0) bytes first second 0

def find_byte_neon (bytes : Str) (needle : UInt8) : Option Nat :=
  find_byte_by (fun chunk =>
    let mask := vget_lane_u64 (vshrn_n_u16 (vceqq_u8 chunk needle))
    if mask ≠ 0 then some (trailing_zeros 64 mask / 2 ^ 2) else none) bytes needle 0

def contains_either_neon (bytes : Str) (first second : UInt8) : Bool :=
  contains_either_by (fun chunk => vmaxvq_u8 (vorrq_u8 (vceqq_u8 chunk first) (vceqq_u8 chunk second)) ≠ 0) bytes first second 0

/-- `target_arch`, as far as the searches ask for it. -/
inductive Arch where
  | x86_64
  | aarch64
  | other
deriving DecidableEq

variable (arch : Arch)

def find_byte (wide : Bool) (bytes : Str) (needle : UInt8) : Option Nat :=
  if wide && bytes.length ≥ SIMD_THRESHOLD then
    match arch with
    | .x86_64 => find_byte_sse2 bytes needle
    | .aarch64 => find_byte_neon bytes needle
    | .other => find_byte_scalar bytes needle
  else find_byte_scalar bytes needle

def contains_either (wide : Bool) (bytes : Str) (first second : UInt8) : Bool :=
  if wide && bytes.length ≥ SIMD_THRESHOLD then
    match arch with
    | .x86_64 => contains_either_sse2 bytes first second
    | .aarch64 => contains_either_neon bytes first second
    | .other => contains_either_scalar bytes first second
  else contains_either_scalar bytes first second

/-! ## Decoding -/

def hex (byte : UInt8) : Option UInt8 :=
  if 48 ≤ byte && byte ≤ 57 then some (byte - 48)
  else if 97 ≤ byte && byte ≤ 102 then some (byte - 97 + 10)
  else if 65 ≤ byte && byte ≤ 70 then some (byte - 65 + 10)
  else none

/-- `String::from_utf8` accepts the bytes. -/
def from_utf8 (bytes : Str) : Bool := bytes.toByteArray.validateUTF8

/-- `add_decoded`, with the total it leaves behind. -/
def add_decoded (total amount offset : Nat) (limits : QueryLimits) : Except Error Unit × Nat :=
  match checked_add total amount with
  | none => (.error (.parsing none offset .decoded_too_long), total)
  | some total =>
    if total > limits.max_decoded_length then (.error (.parsing none offset .decoded_too_long), total) else (.ok (), total)

/-- What follows the accounting of a decoded part. -/
def after_added {α : Type} (added : Except Error Unit × Nat) (result : Except Error α) : Except Error α × Nat :=
  match added.1 with
  | .error e => (.error e, added.2)
  | .ok () => (result, added.2)

/-- The byte of an escape at `index`. -/
def escaped_byte (bytes : Str) (index : Nat) : Option UInt8 :=
  match bytes[index + 1]?, bytes[index + 2]? with
  | some high, some low =>
    match hex high, hex low with
    | some high, some low => some (high * 16 + low)
    | _, _ => none
  | _, _ => none

def decode_encoded_bytes (input : Str) (offset total : Nat) (limits : QueryLimits) (output : Str) (index : Nat) :
    Except Error Str × Nat :=
  if h : index < input.length then
    let byte := input[index]
    if byte = PLUS then decode_encoded_bytes input offset total limits (output ++ [SPACE]) (index + 1)
    else if byte = PERCENT then
      match escaped_byte input index with
      | none => (.error (.parsing none (offset + index) .invalid_encoding), total)
      | some byte => decode_encoded_bytes input offset total limits (output ++ [byte]) (index + 3)
    else decode_encoded_bytes input offset total limits (output ++ [byte]) (index + 1)
  else
    after_added (add_decoded total output.length offset limits)
      (if from_utf8 output then .ok output else .error (.parsing none offset .invalid_utf8))
termination_by input.length - index

def is_special (byte : UInt8) : Bool := byte == PERCENT || byte == PLUS

def decode_encoded (input : Str) (offset total : Nat) (limits : QueryLimits) (output : Str) (index : Nat) :
    Except Error Str × Nat :=
  if index < input.length then
    match (input.drop index).findIdx? is_special with
    | none =>
      let output := output ++ input.drop index
      after_added (add_decoded total output.length offset limits) (.ok output)
    | some relative =>
      let special := index + relative
      let output := output ++ (input.drop index).take relative
      if input[special]? = some PLUS then decode_encoded input offset total limits (output ++ [SPACE]) (special + 1)
      else
        match escaped_byte input special with
        | none => (.error (.parsing none (offset + special) .invalid_encoding), total)
        | some byte =>
          -- a byte that is not ASCII is left to the byte decoder
          if byte ≥ 128 then decode_encoded_bytes input offset total limits output special
          else decode_encoded input offset total limits (output ++ [byte]) (special + 3)
  else after_added (add_decoded total output.length offset limits) (.ok output)
termination_by input.length - index

def decode_known (input : Str) (offset total : Nat) (limits : QueryLimits) (encoded : Bool) : Except Error Str × Nat :=
  if !encoded then after_added (add_decoded total input.length offset limits) (.ok input)
  else decode_encoded input offset total limits [] 0

def decode (wide : Bool) (input : Str) (offset total : Nat) (limits : QueryLimits) : Except Error Str × Nat :=
  if !contains_either arch wide input PERCENT PLUS then after_added (add_decoded total input.length offset limits) (.ok input)
  else decode_encoded input offset total limits [] 0

/-! ## The parsers -/

structure Pair where
  key : Str
  value : Str
  offset : Nat
deriving DecidableEq

structure Parser where
  input : Str
  cursor : Nat
  pairs : Nat
  decoded : Nat
  limits : QueryLimits
deriving DecidableEq

structure PairScan where
  separator : Option Nat
  equals : Option Nat
  key_encoded : Bool
  value_encoded : Bool
deriving DecidableEq

def scan_bytes (index : Nat) (equals : Option Nat) (key_encoded value_encoded : Bool) : Str → PairScan
  | [] => ⟨none, equals, key_encoded, value_encoded⟩
  | byte :: bytes =>
    if byte = AMPERSAND then ⟨some index, equals, key_encoded, value_encoded⟩
    else if byte = EQUALS ∧ equals = none then scan_bytes (index + 1) (some index) key_encoded value_encoded bytes
    else if is_special byte ∧ equals ≠ none then scan_bytes (index + 1) equals key_encoded true bytes
    else if is_special byte then scan_bytes (index + 1) equals true value_encoded bytes
    else scan_bytes (index + 1) equals key_encoded value_encoded bytes

def scan_pair (bytes : Str) : PairScan := scan_bytes 0 none false false bytes

namespace Parser

def new (input : Str) (limits : QueryLimits) : Except Error Parser :=
  if input.length > limits.max_query_length then .error (.parsing none 0 .query_too_long)
  else .ok ⟨input, 0, 0, 0, limits⟩

/-- The cursor behind a pair at `offset`. -/
def behind (p : Parser) (separator : Option Nat) : Parser :=
  { p with cursor := match separator with
      | some pair_len => p.cursor + (pair_len + 1)
      | none => p.input.length }

/-- The key and the value of a pair. -/
def split_pair (raw_pair : Str) (equals : Option Nat) : Str × Str :=
  match equals with
  | some index => (raw_pair.take index, raw_pair.drop (index + 1))
  | none => (raw_pair, [])

/-- Decode the key, then the value, and account for both. -/
def decode_pair (p : Parser) (offset value_offset : Nat) (key : Nat → Except Error Str × Nat)
    (value : Nat → Nat → Except Error Str × Nat) : Except Error (Option Pair) × Parser :=
  match key p.decoded with
  | (.error e, decoded) => (.error e, { p with decoded })
  | (.ok key, decoded) =>
    match value value_offset decoded with
    | (.error e, decoded) => (.error e, { p with decoded })
    | (.ok value, decoded) => (.ok (some ⟨key, value, offset⟩), { p with decoded })

def unencoded_pair_decoded_len (raw_pair : Str) (equals : Option Nat) : Nat :=
  raw_pair.length - if equals.isSome then 1 else 0

/-- What the scalar parser does with a pair that is not empty. -/
def read_scalar (p : Parser) (offset : Nat) (raw_pair : Str) (scan : PairScan) : Except Error (Option Pair) × Parser :=
  let p := { p with pairs := p.pairs + 1 }
  if p.pairs > p.limits.max_pairs then (.error (.parsing none offset .too_many_pairs), p)
  else
    let parts := split_pair raw_pair scan.equals
    let value_offset := offset + match scan.equals with
      | some index => index + 1
      | none => raw_pair.length
    let slow := p.decode_pair offset value_offset
      (fun total => decode_known parts.1 offset total p.limits scan.key_encoded)
      (fun value_offset total => decode_known parts.2 value_offset total p.limits scan.value_encoded)
    if !scan.key_encoded && !scan.value_encoded then
      match checked_add p.decoded (unencoded_pair_decoded_len raw_pair scan.equals) with
      | some total =>
        if total ≤ p.limits.max_decoded_length then (.ok (some ⟨parts.1, parts.2, offset⟩), { p with decoded := total })
        else slow
      | none => slow
    else slow

def next_pair_scalar (p : Parser) : Except Error (Option Pair) × Parser :=
  if p.cursor < p.input.length then
    let offset := p.cursor
    let rest := p.input.drop offset
    let scan := scan_pair rest
    let raw_pair := rest.take (scan.separator.getD rest.length)
    let p' := p.behind scan.separator
    if raw_pair.isEmpty then next_pair_scalar p' else p'.read_scalar offset raw_pair scan
  else (.ok none, p)
termination_by p.input.length - p.cursor
decreasing_by
  unfold behind
  cases (scan_pair (p.input.drop p.cursor)).separator <;> simp only <;> omega

/-- What the wide parser does with a pair that is not empty. -/
def read_wide (p : Parser) (offset : Nat) (raw_pair : Str) : Except Error (Option Pair) × Parser :=
  let p := { p with pairs := p.pairs + 1 }
  if p.pairs > p.limits.max_pairs then (.error (.parsing none offset .too_many_pairs), p)
  else
    let equals := find_byte arch true raw_pair EQUALS
    let parts := split_pair raw_pair equals
    let value_offset := offset + match equals with
      | some index => index + 1
      | none => raw_pair.length
    p.decode_pair offset value_offset (fun total => decode arch true parts.1 offset total p.limits)
      (fun value_offset total => decode arch true parts.2 value_offset total p.limits)

def next_pair_wide (p : Parser) : Except Error (Option Pair) × Parser :=
  if p.cursor < p.input.length then
    let offset := p.cursor
    let rest := p.input.drop offset
    if rest.length < SIMD_THRESHOLD then p.next_pair_scalar
    else
      let separator := find_byte arch true rest AMPERSAND
      let raw_pair := rest.take (separator.getD rest.length)
      let p' := p.behind separator
      if raw_pair.isEmpty then next_pair_wide p' else p'.read_wide arch offset raw_pair
  else (.ok none, p)
termination_by p.input.length - p.cursor
decreasing_by
  unfold behind
  cases find_byte arch true (p.input.drop p.cursor) AMPERSAND <;> simp only <;> omega

def next_pair (wide : Bool) (p : Parser) : Except Error (Option Pair) × Parser :=
  if !wide then p.next_pair_scalar else p.next_pair_wide arch

end Parser

/-! ## The encoder -/

def is_safe (byte : UInt8) : Bool :=
  is_ascii_alphanumeric byte || byte == 42 || byte == 45 || byte == 46 || byte == 95

def HEX : List UInt8 := [48, 49, 50, 51, 52, 53, 54, 55, 56, 57, 65, 66, 67, 68, 69, 70]

def escaped (byte : UInt8) : Str := [PERCENT, HEX.getD (byte >>> 4).toNat 0, HEX.getD (byte &&& 15).toNat 0]

/-- `encode_parameter`, with which the derive macro encodes the keys. -/
def encode_parameter (parameter : Str) : Str :=
  parameter.flatMap fun byte => if is_safe byte then [byte] else if byte = SPACE then [PLUS] else escaped byte

/-- An encoder that writes to a `String`. -/
structure Encoder where
  output : Str
  limits : QueryLimits
  written : Nat
  first : Bool
deriving DecidableEq

namespace Encoder

def new (limits : QueryLimits) : Encoder := ⟨[], limits, 0, true⟩

def write_raw (e : Encoder) (parameter : Option Str) (value : Str) : Except Error Encoder :=
  match checked_add e.written value.length with
  | none => .error (.production parameter .too_long)
  | some new_length =>
    if new_length > e.limits.max_encoded_length then .error (.production parameter .too_long)
    else .ok { e with output := e.output ++ value, written := new_length }

/-- The write of a run, if there is one. -/
def write_run (e : Encoder) (parameter : Str) (run : Str) : Except Error Encoder :=
  if run ≠ [] then e.write_raw (some parameter) run else .ok e

/-- The loop of `write_encoded`; `run` is what lies between `run_start` and the index. -/
def write_bytes (e : Encoder) (parameter : Str) (run : Str) : Str → Except Error Encoder
  | [] => e.write_run parameter run
  | byte :: bytes =>
    if is_safe byte then e.write_bytes parameter (run ++ [byte]) bytes
    else do
      let e ← e.write_run parameter run
      let e ← e.write_raw (some parameter) (if byte = SPACE then [PLUS] else escaped byte)
      e.write_bytes parameter [] bytes

def write_encoded (e : Encoder) (parameter : Str) (value : Str) : Except Error Encoder := e.write_bytes parameter [] value

/-- The separator before every pair but the first. -/
def write_separator (e : Encoder) (parameter : Str) : Except Error Encoder :=
  if !e.first then e.write_raw (some parameter) [AMPERSAND] else .ok e

def start_pair (e : Encoder) (parameter encoded_parameter : Str) : Except Error Encoder := do
  let e ← e.write_separator parameter
  let e ← { e with first := false }.write_raw (some parameter) encoded_parameter
  e.write_raw (some parameter) [EQUALS]

def pair_str (e : Encoder) (parameter encoded_parameter value : Str) : Except Error Encoder := do
  let e ← e.start_pair parameter encoded_parameter
  e.write_encoded parameter value

end Encoder

/-- Write pairs of strings, one after the other. -/
def write_pairs (limits : QueryLimits) (pairs : List (String × String)) : Except Error Encoder :=
  pairs.foldlM (fun e pair => e.pair_str (utf8 pair.1) (encode_parameter (utf8 pair.1)) (utf8 pair.2)) (Encoder.new limits)

end Query
