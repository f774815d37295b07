import Oxidizer.Routing.Scan
import Oxidizer.Lib.Masks
/-!
# The vector scanners agree with the scalar one

Both vector scanners compare sixteen bytes at a time and visit the lanes that hold a slash.
The last bytes are read with a load that overlaps the ones before, whose lanes are masked
off; paths shorter than a vector are scanned byte by byte. The intrinsics are given by what
they do to each lane.
-/

namespace Routing

open Lib List Scan

/-! ## The code -/

abbrev Register := Fin 16 → BitVec 8

/-- `_mm_loadu_si128` and `vld1q_u8`. -/
def load (bytes : Str) (at_ : Nat) : Fin 16 → UInt8 := fun lane => bytes.getD (at_ + lane) 0

/-- `_mm_cmpeq_epi8` and `vceqq_u8` with a byte in every lane. -/
def cmpeq (chunk : Fin 16 → UInt8) (needle : UInt8) : Register := fun lane => if chunk lane = needle then 0xFF#8 else 0#8

/-- `_mm_or_si128` and `vorrq_u8`. -/
def or_lanes (a b : Register) : Register := fun lane => a lane ||| b lane

/-- `_mm_movemask_epi8`: the highest bit of every lane. -/
def movemask (a : Register) : BitVec 32 := ofBits 32 fun lane => (a lane).msb

/-- `vshrn_n_u16::<4>` of the register as eight lanes of sixteen bits, as a `u64`. -/
def narrow (a : Register) : BitVec 64 :=
  let wide (lane : Fin 8) : BitVec 16 := a ⟨2 * lane + 1, by omega⟩ ++ a ⟨2 * lane, by omega⟩
  let narrowed (lane : Fin 8) : BitVec 8 := (wide lane >>> 4).setWidth 8
  ofBits 64 fun bit : Fin 64 => (narrowed ⟨bit / 8, by omega⟩).getLsbD (bit % 8)

/-- A segment ends at a slash. -/
def Scan.found (s : Scan) (cap base idx : Nat) : Scan :=
  { s.write cap base idx with count := s.count + 1, start := idx + 1 }

def sse2_bits (cap base i : Nat) (mask : BitVec 32) (s : Scan) : Scan :=
  if _h : mask = 0#32 then s
  else sse2_bits cap base i (mask &&& (mask - 1#32)) (s.found cap base (i + mask.ctz.toNat))
termination_by mask.toNat
decreasing_by exact and_sub_one_lt _h

def neon_bits (cap base i : Nat) (mask : BitVec 64) (s : Scan) : Scan :=
  if h : mask = 0#64 then s
  else neon_bits cap base i (mask &&& ~~~(0xF#64 <<< mask.ctz.toNat)) (s.found cap base (i + mask.ctz.toNat / 4))
termination_by mask.toNat
decreasing_by
  refine and_not_lt (BitVec.getLsbD_true_ctz_of_ne_zero h) ?_
  rw [BitVec.getLsbD_not, BitVec.getLsbD_shiftLeft]
  simp

/-- What the two implementations do differently: the masks, and the loops over their bits. -/
structure Vector16 where
  width : Nat
  mask : Register → BitVec width
  bits : Nat → Nat → Nat → BitVec width → Scan → Scan
  /-- bits for each lane -/
  group : Nat

def sse2 : Vector16 := ⟨32, movemask, sse2_bits, 1⟩

def neon : Vector16 := ⟨64, narrow, neon_bits, 4⟩

namespace Vector16

variable (v : Vector16)

/-- The masks of a chunk: the slashes, and whether it has no forbidden byte. -/
def compare (bytes : Str) (at_ : Nat) : BitVec v.width × Bool :=
  let chunk := load bytes at_
  let eq := cmpeq chunk SLASH
  let forbidden := or_lanes (cmpeq chunk QUESTION) (cmpeq chunk HASH)
  (v.mask eq, v.mask forbidden == 0#v.width)

/-- `while i + 16 <= n`. -/
def chunks (bytes : Str) (cap base i : Nat) (s : Scan) : Scan × Nat :=
  if i + 16 ≤ bytes.length then
    let (mask, allowed) := v.compare bytes i
    chunks bytes cap base (i + 16) (v.bits cap base i mask { s with valid := s.valid && allowed })
  else (s, i)
termination_by bytes.length - i

/-- `while i < n`. -/
def bytewise (bytes : Str) (cap base i : Nat) (s : Scan) : Scan :=
  if h : i < bytes.length then bytewise bytes cap base (i + 1) (scan_byte cap base s (bytes[i], i)) else s
termination_by bytes.length - i

/-- What is left after the chunks. -/
def tail (bytes : Str) (cap base i : Nat) (s : Scan) : Scan :=
  if i < bytes.length then
    if 16 ≤ bytes.length then
      let load_at := bytes.length - 16
      let (raw, allowed) := v.compare bytes load_at
      let skip := (i - load_at) * v.group
      let mask := raw &&& ~~~((1#v.width <<< skip) - 1#v.width)
      v.bits cap base load_at mask { s with valid := s.valid && allowed }
    else bytewise bytes cap base i s
  else s

def scan_segments (body : Str) (starts ends : List Nat) : ScannedPath :=
  let rest := strip_slash body
  let cap := min starts.length ends.length
  if rest.isEmpty then ⟨body, starts, ends, cap, 0, true⟩
  else
    let base := body.length - rest.length
    let (s, i) := v.chunks rest cap base 0 ⟨starts, ends, 0, 0, true⟩
    let s := v.tail rest cap base i s
    let s := s.write cap base rest.length
    ⟨body, s.starts, s.ends, cap, s.count + 1, s.valid⟩

end Vector16

def scan_segments_sse2 (body : Str) (starts ends : List Nat) : ScannedPath := sse2.scan_segments body starts ends

def scan_segments_neon (body : Str) (starts ends : List Nat) : ScannedPath := neon.scan_segments body starts ends

/-! ## The masks -/

/-- All bits of a lane are equal. -/
def Register.Full (a : Register) (hit : Fin 16 → Bool) : Prop := ∀ lane, a lane = if hit lane then 0xFF#8 else 0#8

theorem cmpeq_full (chunk : Fin 16 → UInt8) (needle : UInt8) :
    (cmpeq chunk needle).Full fun lane => decide (chunk lane = needle) := by
  intro lane
  simp [cmpeq]

variable {a : Register}

theorem or_lanes_full {b : Register} {f g : Fin 16 → Bool} (ha : a.Full f) (hb : b.Full g) :
    (or_lanes a b).Full fun lane => f lane || g lane := by
  intro lane
  show a lane ||| b lane = if (f lane || g lane) then 0xFF#8 else 0#8
  rw [ha lane, hb lane]
  rcases f lane with _ | _ <;> rcases g lane with _ | _ <;> rfl

variable {hit : Fin 16 → Bool}

theorem Register.Full.getLsbD (h : a.Full hit) (lane : Fin 16) {bit : Nat} (hb : bit < 8) :
    (a lane).getLsbD bit = hit lane := by
  rw [h lane]
  have hones : ∀ bit < 8, (0xFF#8).getLsbD bit = true := by decide
  rcases hit lane with _ | _
  · exact BitVec.getLsbD_zero
  · exact hones bit hb

/-- Whether a lane is set, by its number. -/
def lane_hit (hit : Fin 16 → Bool) (q : Nat) : Bool := if h : q < 16 then hit ⟨q, h⟩ else false

theorem movemask_groups (h : a.Full hit) : Groups 1 16 (movemask a) (lane_hit hit) := by
  intro p
  rw [movemask, Nat.div_one, Nat.one_mul, lane_hit]
  by_cases hp : p < 16
  · rw [getLsbD_ofBits _ hp (by omega), dif_pos hp, decide_eq_true hp, Bool.true_and, BitVec.msb_eq_getLsbD_last]
    exact h.getLsbD ⟨p, hp⟩ (by decide)
  · rw [getLsbD_ofBits_ge _ (Nat.not_lt.mp hp), decide_eq_false hp, Bool.false_and]

theorem narrow_groups (h : a.Full hit) : Groups 4 16 (narrow a) (lane_hit hit) := by
  intro p
  rw [narrow, lane_hit]
  by_cases hp : p < 64
  · have hlane : p / 4 < 16 := by omega
    have hbit : p % 8 < 8 := Nat.mod_lt _ (by decide)
    rw [getLsbD_ofBits _ hp hp, dif_pos hlane, decide_eq_true (show p < 4 * 16 from hp), Bool.true_and]
    simp only [BitVec.getLsbD_setWidth, BitVec.getLsbD_ushiftRight, BitVec.getLsbD_append, hbit, decide_true, Bool.true_and]
    -- the low nibble of a narrowed byte is from the even lane, the high one from the odd lane
    by_cases hlow : p % 8 < 4
    · have heven : 4 + p % 8 < 8 := by omega
      have hq : 2 * (p / 8) = p / 4 := by omega
      simp only [heven, hq]
      exact h.getLsbD ⟨p / 4, hlane⟩ heven
    · have hodd : ¬ 4 + p % 8 < 8 := by omega
      have hq : 2 * (p / 8) + 1 = p / 4 := by omega
      simp only [hodd, hq]
      exact h.getLsbD ⟨p / 4, hlane⟩ (by omega)
  · rw [getLsbD_ofBits_ge _ (Nat.not_lt.mp hp), decide_eq_false (show ¬ p < 4 * 16 from hp), Bool.false_and]

/-! ## The loops over the bits -/

/-- The slashes of a mask, from the first to the last. -/
def Scan.visit (s : Scan) (cap base i : Nat) (lanes : List Nat) : Scan := lanes.foldl (fun s q => s.found cap base (i + q)) s

theorem sse2_bits_eq {cap base i : Nat} {mask : BitVec 32} {s : Scan} {hit : Nat → Bool} (h : Groups 1 16 mask hit) :
    sse2_bits cap base i mask s = s.visit cap base i (hits 16 hit) := by
  fun_induction sse2_bits cap base i mask s generalizing hit with
  | case1 s => rw [hits_none ((h.zero_iff Nat.one_pos).mp rfl)]; rfl
  | case2 mask s hne ih =>
    obtain ⟨q, hctz, hlt, hset, hfirst⟩ := h.ctz_eq Nat.one_pos hne
    rw [Nat.one_mul] at hctz
    rw [ih (h.clear_lowest hne hctz), hits_first hlt hset hfirst, hctz]
    rfl

theorem neon_bits_eq {cap base i : Nat} {mask : BitVec 64} {s : Scan} {hit : Nat → Bool} (h : Groups 4 16 mask hit) :
    neon_bits cap base i mask s = s.visit cap base i (hits 16 hit) := by
  fun_induction neon_bits cap base i mask s generalizing hit with
  | case1 s => rw [hits_none ((h.zero_iff (by decide)).mp rfl)]; rfl
  | case2 mask s hne ih =>
    obtain ⟨q, hctz, hlt, hset, hfirst⟩ := h.ctz_eq (by decide) hne
    rw [hctz] at ih
    rw [hctz, ih (h.clear_nibble q), hits_first hlt hset hfirst, Nat.mul_div_cancel_left q (by decide)]
    rfl

/-- What the scan needs of an implementation. -/
structure Vector16.Ok (v : Vector16) : Prop where
  group_pos : 0 < v.group
  width : v.group * 16 ≤ v.width
  mask : ∀ {a : Register} {hit : Fin 16 → Bool}, a.Full hit → Groups v.group 16 (v.mask a) (lane_hit hit)
  bits : ∀ {cap base i : Nat} {mask : BitVec v.width} {s : Scan} {hit : Nat → Bool}, Groups v.group 16 mask hit →
    v.bits cap base i mask s = s.visit cap base i (hits 16 hit)

theorem sse2_ok : sse2.Ok := ⟨by decide, by decide, movemask_groups, sse2_bits_eq⟩

theorem neon_ok : neon.Ok := ⟨by decide, by decide, narrow_groups, neon_bits_eq⟩

/-! ## The scan -/

/-- The bytes of a path that are slashes. -/
def slashes (xs : Str) : List Nat := hits xs.length fun q => decide (xs.getD q 0 = SLASH)

theorem slashes_cons (b : UInt8) (xs : Str) : slashes (b :: xs) = (if b = SLASH then [0] else []) ++ (slashes xs).map (· + 1) := by
  unfold slashes
  rw [length_cons, hits_succ]
  simp

theorem Scan.visit_append (s : Scan) (cap base i : Nat) (xs ys : List Nat) :
    s.visit cap base i (xs ++ ys) = (s.visit cap base i xs).visit cap base i ys := List.foldl_append

theorem Scan.visit_map (s : Scan) (cap base i k : Nat) (xs : List Nat) :
    s.visit cap base i (xs.map (k + ·)) = s.visit cap base (i + k) xs := by
  unfold visit
  simp only [foldl_map, Nat.add_assoc]

theorem Scan.found_valid (s : Scan) (cap base idx : Nat) (valid : Bool) :
    Scan.found { s with valid } cap base idx = { s.found cap base idx with valid } := by
  unfold found
  rw [write_valid_eq]

theorem Scan.visit_valid (s : Scan) (cap base i : Nat) (xs : List Nat) (valid : Bool) :
    Scan.visit { s with valid } cap base i xs = { s.visit cap base i xs with valid } := by
  induction xs generalizing s with
  | nil => rfl
  | cons q xs ih =>
    simp only [visit, foldl_cons] at ih ⊢
    rw [found_valid, ih]

@[simp] theorem Scan.visit_keeps_valid (s : Scan) (cap base i : Nat) (xs : List Nat) : (s.visit cap base i xs).valid = s.valid := by
  have h := s.visit_valid cap base i xs s.valid
  rw [h]

theorem scan_bytes_eq (cap base i : Nat) (xs : Str) (s : Scan) :
    (xs.zipIdx i).foldl (scan_byte cap base) s = Scan.visit { s with valid := s.valid && xs.all allowed } cap base i (slashes xs) := by
  induction xs generalizing i s with
  | nil => simp [slashes, hits, visit]
  | cons b xs ih =>
    have hmap : ∀ s : Scan, s.visit cap base i ((slashes xs).map (· + 1)) = s.visit cap base (i + 1) (slashes xs) := by
      intro s
      rw [← s.visit_map cap base i 1]
      congr 2
      funext q
      exact Nat.add_comm q 1
    rw [zipIdx_cons, foldl_cons, ih, slashes_cons, visit_append, hmap]
    congr 1
    by_cases hb : b = SLASH
    · rw [if_pos hb, scan_byte, if_pos hb]
      subst hb
      simp only [visit, foldl_cons, foldl_nil, Nat.add_zero, found_valid]
      simp [found, allowed, SLASH, QUESTION, HASH]
    · rw [if_neg hb, scan_byte, if_neg hb]
      by_cases hq : b = QUESTION ∨ b = HASH
      · rw [if_pos hq]
        have : allowed b = false := decide_eq_false fun h => hq.elim h.1 h.2
        simp [visit, this]
      · rw [if_neg hq]
        have : allowed b = true := decide_eq_true (not_or.mp hq)
        simp [visit, this]

namespace Vector16

variable {v : Vector16}

/-- The sixteen bytes from `at_` on. -/
def chunk (bytes : Str) (at_ : Nat) : Str := (bytes.drop at_).take 16

variable {bytes : Str}

variable {at_ : Nat}

theorem chunk_length (h : at_ + 16 ≤ bytes.length) : (chunk bytes at_).length = 16 := by
  rw [chunk, length_take, length_drop]
  omega

theorem chunk_getD {q : Nat} (hq : q < 16) : (chunk bytes at_).getD q 0 = bytes.getD (at_ + q) 0 := by
  rw [chunk, getD_eq_getElem?_getD, getD_eq_getElem?_getD, getElem?_take, if_pos hq, getElem?_drop]

theorem compare_slashes (hv : v.Ok) (bytes : Str) (at_ : Nat) :
    Groups v.group 16 (v.compare bytes at_).1 fun q => decide ((chunk bytes at_).getD q 0 = SLASH) := by
  have hmask : Groups v.group 16 (v.compare bytes at_).1 (lane_hit fun lane => decide (load bytes at_ lane = SLASH)) :=
    hv.mask (cmpeq_full _ _)
  refine hmask.congr fun q hq => ?_
  rw [lane_hit, dif_pos hq, chunk_getD hq]
  rfl

theorem compare_allowed (hv : v.Ok) (h : at_ + 16 ≤ bytes.length) :
    (v.compare bytes at_).2 = (chunk bytes at_).all allowed := by
  have hmask : Groups v.group 16 (v.mask (or_lanes (cmpeq (load bytes at_) QUESTION) (cmpeq (load bytes at_) HASH)))
      (lane_hit fun lane => decide (load bytes at_ lane = QUESTION) || decide (load bytes at_ lane = HASH)) :=
    hv.mask (or_lanes_full (cmpeq_full _ _) (cmpeq_full _ _))
  have hzero := hmask.zero_iff hv.group_pos
  rw [Bool.eq_iff_iff, compare, beq_iff_eq, hzero, all_eq_true]
  constructor
  · intro hall b hb
    obtain ⟨q, hq, rfl⟩ := mem_iff_getElem.mp hb
    have hq' : q < 16 := by rwa [chunk_length h] at hq
    have hlane := hall q hq'
    have hbyte : load bytes at_ ⟨q, hq'⟩ = (chunk bytes at_)[q] := by
      rw [load, ← chunk_getD hq', getD_eq_getElem _ _ hq]
    rw [lane_hit, dif_pos hq', hbyte, Bool.or_eq_false_iff, decide_eq_false_iff_not, decide_eq_false_iff_not] at hlane
    exact decide_eq_true hlane
  · intro hall q hq
    have hq' : q < (chunk bytes at_).length := by rwa [chunk_length h]
    have hbyte : load bytes at_ ⟨q, hq⟩ = (chunk bytes at_)[q] := by
      rw [load, ← chunk_getD hq, getD_eq_getElem _ _ hq']
    have hb := of_decide_eq_true (hall _ (getElem_mem hq'))
    rw [lane_hit, dif_pos hq, hbyte, decide_eq_false hb.1, decide_eq_false hb.2, Bool.or_false]

/-- The state of the scalar loop before byte `i`. -/
def upto (bytes : Str) (cap base i : Nat) (s : Scan) : Scan := (bytes.take i).zipIdx.foldl (scan_byte cap base) s

variable {i : Nat}

theorem upto_append (bytes : Str) (cap base : Nat) (k : Nat) (hi : i ≤ bytes.length) (s : Scan) :
    upto bytes cap base (i + k) s = (((bytes.drop i).take k).zipIdx i).foldl (scan_byte cap base) (upto bytes cap base i s) := by
  unfold upto
  rw [take_add, zipIdx_append, foldl_append, length_take, Nat.min_eq_left hi, Nat.zero_add]

variable {cap base : Nat}

theorem chunk_step (hv : v.Ok) (h : i + 16 ≤ bytes.length) (s : Scan) :
    v.bits cap base i (v.compare bytes i).1
      { upto bytes cap base i s with valid := (upto bytes cap base i s).valid && (v.compare bytes i).2 } =
    upto bytes cap base (i + 16) s := by
  rw [hv.bits (compare_slashes hv bytes i), compare_allowed hv h, upto_append bytes cap base 16 (by omega), scan_bytes_eq, slashes]
  rw [show (bytes.drop i).take 16 = chunk bytes i from rfl, chunk_length h]

theorem chunks_eq (hv : v.Ok) (bytes : Str) (cap base : Nat) (s : Scan) (fuel i : Nat) (hfuel : bytes.length - i ≤ fuel)
    (hi : i ≤ bytes.length) :
    ∃ k, i ≤ k ∧ k ≤ bytes.length ∧ bytes.length < k + 16 ∧
      v.chunks bytes cap base i (upto bytes cap base i s) = (upto bytes cap base k s, k) := by
  induction fuel generalizing i with
  | zero =>
    refine ⟨i, Nat.le_refl i, hi, by omega, ?_⟩
    rw [chunks, if_neg (by omega)]
  | succ fuel ih =>
    rw [chunks]
    split
    · rename_i hchunk
      obtain ⟨k, hk, hle, hlt, heq⟩ := ih (i + 16) (by omega) hchunk
      refine ⟨k, by omega, hle, hlt, ?_⟩
      rw [← heq, ← chunk_step hv hchunk]
    · exact ⟨i, Nat.le_refl i, hi, by omega, rfl⟩

theorem bytewise_eq (s : Scan) (fuel i : Nat) (hfuel : bytes.length - i ≤ fuel)
    (hi : i ≤ bytes.length) :
    bytewise bytes cap base i (upto bytes cap base i s) = upto bytes cap base bytes.length s := by
  induction fuel generalizing i with
  | zero =>
    rw [bytewise, dif_neg (by omega), show i = bytes.length by omega]
  | succ fuel ih =>
    rw [bytewise]
    split
    · rename_i hlt
      rw [← ih (i + 1) (by omega) hlt, upto_append bytes cap base 1 hi, drop_eq_getElem_cons hlt]
      rfl
    · rw [show i = bytes.length by omega]

theorem all_overlap (bytes : Str) (h : at_ ≤ i) :
    ((bytes.take i).all allowed && (bytes.drop at_).all allowed) = ((bytes.take i).all allowed && (bytes.drop i).all allowed) := by
  have hall : ((bytes.take i).all allowed && (bytes.drop i).all allowed) = bytes.all allowed := by
    rw [← all_append, take_append_drop]
  rw [hall, Bool.eq_iff_iff, Bool.and_eq_true, all_eq_true, all_eq_true, all_eq_true]
  constructor
  · rintro ⟨htake, hdrop⟩ b hb
    rw [← take_append_drop i bytes, mem_append] at hb
    exact hb.elim (htake b) fun hb => hdrop b (drop_subset_drop_left bytes h hb)
  · intro hbytes
    exact ⟨fun b hb => hbytes b (mem_of_mem_take hb), fun b hb => hbytes b (mem_of_mem_drop hb)⟩

theorem upto_valid (bytes : Str) (cap base i : Nat) (s : Scan) :
    (upto bytes cap base i s).valid = (s.valid && (bytes.take i).all allowed) := by
  rw [upto, scan_bytes_eq, visit_keeps_valid]

theorem last_slashes {skip : Nat} (hlong : 16 ≤ bytes.length) (hskip : i = bytes.length - 16 + skip)
    (hi : i ≤ bytes.length) :
    hits (16 - skip) (fun q => decide ((chunk bytes (bytes.length - 16)).getD (skip + q) 0 = SLASH)) = slashes (bytes.drop i) := by
  have hlen : (bytes.drop i).length = 16 - skip := by
    rw [length_drop]
    omega
  rw [slashes, hlen]
  refine filter_congr fun q hq => ?_
  have hq' : skip + q < 16 := by
    have := mem_range.mp hq
    omega
  rw [chunk_getD hq', ← Nat.add_assoc, ← hskip, getD_eq_getElem?_getD, getD_eq_getElem?_getD, getElem?_drop]

theorem tail_eq (hv : v.Ok) (s : Scan) (hi : i ≤ bytes.length) (hlt : bytes.length < i + 16) :
    v.tail bytes cap base i (upto bytes cap base i s) = upto bytes cap base bytes.length s := by
  unfold tail
  split
  · rename_i hleft
    split
    · rename_i hlong
      obtain ⟨skip, hskip⟩ : ∃ skip, i = bytes.length - 16 + skip := ⟨i - (bytes.length - 16), by omega⟩
      have hfront := (compare_slashes hv bytes (bytes.length - 16)).clear_front hv.group_pos hv.width
        (show v.group * skip < v.width from Nat.lt_of_lt_of_le (Nat.mul_lt_mul_of_pos_left (by omega) hv.group_pos) hv.width)
      have hshift : (i - (bytes.length - 16)) * v.group = v.group * skip := by
        rw [hskip, Nat.add_sub_cancel_left, Nat.mul_comm]
      simp only [hshift]
      have hchunk : chunk bytes (bytes.length - 16) = bytes.drop (bytes.length - 16) :=
        take_of_length_le (by rw [length_drop]; omega)
      have hall : (bytes.drop i).take (bytes.length - i) = bytes.drop i := take_of_length_le (by rw [length_drop])
      rw [hv.bits hfront, hits_from (by omega), visit_map, ← hskip, compare_allowed hv (by omega),
        last_slashes hlong hskip hi, hchunk, upto_valid, Bool.and_assoc, all_overlap bytes (show bytes.length - 16 ≤ i by omega)]
      have hend := upto_append bytes cap base (bytes.length - i) hi s
      rw [Nat.add_sub_cancel' hi, hall, scan_bytes_eq, upto_valid, Bool.and_assoc] at hend
      exact hend.symm
    · exact bytewise_eq s _ i (Nat.le_refl _) hi
  · rw [show i = bytes.length by omega]

theorem scan_segments_eq (hv : v.Ok) (body : Str) (starts ends : List Nat) :
    v.scan_segments body starts ends = scan_path body starts ends := by
  unfold scan_segments scan_path
  simp only
  split
  · rfl
  · obtain ⟨k, -, hle, hlt, heq⟩ := chunks_eq hv (strip_slash body) (min starts.length ends.length)
      (body.length - (strip_slash body).length) ⟨starts, ends, 0, 0, true⟩ (strip_slash body).length 0 (Nat.le_refl _)
      (Nat.zero_le _)
    have hstart : upto (strip_slash body) (min starts.length ends.length) (body.length - (strip_slash body).length) 0
        ⟨starts, ends, 0, 0, true⟩ = ⟨starts, ends, 0, 0, true⟩ := rfl
    rw [hstart] at heq
    rw [heq, tail_eq hv _ hle hlt, upto, take_length]

end Vector16

/-- The vector scanners write, count and judge as `scan_segments_scalar` does, which is
`scan_path`: the pairs written are where the pieces of the path are, as many as the
buffers hold, and nothing else is written. -/
theorem scan_segments_agree (body : Str) (starts ends : List Nat) :
    scan_segments_sse2 body starts ends = scan_path body starts ends ∧
    scan_segments_neon body starts ends = scan_path body starts ends ∧
    (scan_path body starts ends).count = (segments body).length ∧
    (scan_path body starts ends).valid = body.all allowed ∧
    (∀ i, i < (segments body).length → i < min starts.length ends.length →
      (scan_path body starts ends).starts.getD i 0 = (span body i).1 ∧
      (scan_path body starts ends).ends.getD i 0 = (span body i).2 ∧
      slice body (span body i).1 (span body i).2 = (segments body).getD i []) ∧
    (∀ i, (segments body).length ≤ i ∨ min starts.length ends.length ≤ i →
      (scan_path body starts ends).starts.getD i 0 = starts.getD i 0 ∧
      (scan_path body starts ends).ends.getD i 0 = ends.getD i 0) := by
  obtain ⟨hscanned, huntouched⟩ := scan_path_scanned body starts ends
  have hcap : (scan_path body starts ends).capacity = min starts.length ends.length := hscanned.capacity_eq
  refine ⟨Vector16.scan_segments_eq sse2_ok body starts ends, Vector16.scan_segments_eq neon_ok body starts ends,
    hscanned.count_eq, hscanned.valid_eq, fun i hi hc => ?_, fun i hi => ?_⟩
  · exact ⟨hscanned.starts_eq i hi hc, hscanned.ends_eq i hi hc, (slice_span hi).1⟩
  · rw [← hcap] at hi
    exact ⟨huntouched.starts_eq i hi, huntouched.ends_eq i hi⟩

end Routing
