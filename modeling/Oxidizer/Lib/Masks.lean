import Mathlib
/-!
# Masks with a group of bits for each lane

Vector comparisons leave a mask in which every lane has a group of `k` equal bits. The
first lane that is set is found with `ctz`; a loop that visits it and clears its group
goes over the lanes that are set from the first to the last.
-/

namespace Lib

open List Nat

theorem nibbles (b : UInt8) : (b >>> 4).toNat < 16 ∧ (b &&& 15).toNat < 16 ∧ (b >>> 4) * 16 + (b &&& 15) = b := by
  have hlt := b.toNat_lt
  have hshift : (b >>> 4).toNat = b.toNat / 16 := by
    rw [UInt8.toNat_shiftRight]
    exact shiftRight_eq_div_pow b.toNat 4
  have hmask : (b &&& 15).toNat = b.toNat % 16 := by
    rw [UInt8.toNat_and]
    exact and_two_pow_sub_one_eq_mod b.toNat 4
  refine ⟨by omega, by omega, ?_⟩
  rw [← UInt8.toNat_inj, UInt8.toNat_add, UInt8.toNat_mul, hshift, hmask]
  simp only [UInt8.reduceToNat]
  omega

/-- The word of these bits, the lowest one first. -/
def ofBits {n : Nat} (w : Nat) (f : Fin n → Bool) : BitVec w := (BitVec.ofBoolListLE (List.ofFn f)).setWidth w

variable {p : Nat}

theorem getLsbD_ofBits {n w : Nat} (f : Fin n → Bool) (hp : p < n) (hw : p < w) :
    (ofBits w f).getLsbD p = f ⟨p, hp⟩ := by
  rw [ofBits, BitVec.getLsbD_setWidth, BitVec.getLsbD_ofBoolListLE, getD_eq_getElem?_getD, List.getElem?_ofFn, dif_pos hp,
    Option.getD_some, decide_eq_true hw, Bool.true_and]

theorem getLsbD_ofBits_ge {n w : Nat} (f : Fin n → Bool) (hp : n ≤ p) : (ofBits w f).getLsbD p = false := by
  rw [ofBits, BitVec.getLsbD_setWidth, BitVec.getLsbD_ofBoolListLE, getD_eq_getElem?_getD, List.getElem?_ofFn,
    dif_neg (Nat.not_lt.mpr hp), Option.getD_none, Bool.and_false]

/-- The lane of every bit says whether it is set. -/
def Groups (k lanes : Nat) {w : Nat} (mask : BitVec w) (hit : Nat → Bool) : Prop :=
  ∀ p, mask.getLsbD p = (decide (p < k * lanes) && hit (p / k))

variable {k lanes w : Nat} {mask : BitVec w} {hit : Nat → Bool}

theorem Groups.congr (h : Groups k lanes mask hit) {other : Nat → Bool} (heq : ∀ q < lanes, hit q = other q) :
    Groups k lanes mask other := by
  intro p
  rw [h p]
  by_cases hp : p < k * lanes
  · rw [heq _ (Nat.div_lt_of_lt_mul hp)]
  · rw [decide_eq_false hp, Bool.false_and, Bool.false_and]

theorem Groups.zero_iff (h : Groups k lanes mask hit) (hk : 0 < k) : mask = 0#w ↔ ∀ q < lanes, hit q = false := by
  constructor
  · rintro rfl q hq
    have hp := h (k * q)
    rw [BitVec.getLsbD_zero, Nat.mul_div_cancel_left q hk, decide_eq_true (Nat.mul_lt_mul_of_pos_left hq hk)] at hp
    simpa using hp.symm
  · intro hall
    apply BitVec.eq_of_getLsbD_eq
    intro p _
    rw [h p, BitVec.getLsbD_zero]
    by_cases hp : p < k * lanes
    · rw [hall (p / k) (Nat.div_lt_of_lt_mul hp), Bool.and_false]
    · rw [decide_eq_false hp, Bool.false_and]

theorem Groups.ctz_eq (h : Groups k lanes mask hit) (hk : 0 < k) (hne : mask ≠ 0#w) :
    ∃ q, mask.ctz.toNat = k * q ∧ q < lanes ∧ hit q = true ∧ ∀ q', q' < q → hit q' = false := by
  have hset := BitVec.getLsbD_true_ctz_of_ne_zero hne
  rw [h] at hset
  simp only [Bool.and_eq_true, decide_eq_true_eq] at hset
  obtain ⟨hlt, hhit⟩ := hset
  have hq : mask.ctz.toNat / k < lanes := Nat.div_lt_of_lt_mul hlt
  have hle : k * (mask.ctz.toNat / k) ≤ mask.ctz.toNat := mul_div_le _ _
  -- an earlier bit of the group would be set too
  have heq : mask.ctz.toNat = k * (mask.ctz.toNat / k) := by
    by_contra hne'
    have hfalse := BitVec.getLsbD_false_of_lt_ctz (x := mask) (i := k * (mask.ctz.toNat / k)) (by omega)
    rw [h, Nat.mul_div_cancel_left _ hk, hhit, decide_eq_true (by omega)] at hfalse
    cases hfalse
  refine ⟨mask.ctz.toNat / k, heq, hq, hhit, fun q' hq' => ?_⟩
  have hlt' : k * q' < mask.ctz.toNat := by
    rw [heq]
    exact Nat.mul_lt_mul_of_pos_left hq' hk
  have hfalse := BitVec.getLsbD_false_of_lt_ctz hlt'
  rw [h, Nat.mul_div_cancel_left _ hk, decide_eq_true (by omega), Bool.true_and] at hfalse
  exact hfalse

/-! ## Clearing groups -/

theorem testBit_sub_one {m j : Nat} (hset : m.testBit j = true) (hlow : ∀ i < j, m.testBit i = false) (p : Nat) :
    (m &&& (m - 1)).testBit p = (m.testBit p && decide (p ≠ j)) := by
  have hmod : m % 2 ^ j = 0 := by
    apply eq_of_testBit_eq
    intro i
    rw [testBit_mod_two_pow, zero_testBit]
    by_cases hi : i < j
    · rw [hlow i hi, Bool.and_false]
    · rw [decide_eq_false hi, Bool.false_and]
  obtain ⟨q, hq⟩ : ∃ q, m = 2 ^ j * (2 * q + 1) := by
    have hodd : m / 2 ^ j % 2 = 1 := by
      rw [testBit_eq_decide_div_mod_eq] at hset
      simpa using hset
    refine ⟨m / 2 ^ j / 2, ?_⟩
    have : 2 * (m / 2 ^ j / 2) + 1 = m / 2 ^ j := by omega
    rw [this, Nat.mul_div_cancel' (dvd_of_mod_eq_zero hmod)]
  have hpos : 0 < 2 ^ j := Nat.two_pow_pos j
  have hpred : m - 1 = 2 ^ j * (2 * q) + (2 ^ j - 1) := by
    rw [hq, Nat.mul_add, Nat.mul_one]
    omega
  rw [testBit_and, hpred, testBit_two_pow_mul_add _ (sub_lt hpos Nat.one_pos)]
  by_cases hp : p < j
  · rw [hlow p hp, Bool.false_and, Bool.false_and]
  · rw [if_neg hp]
    obtain ⟨i, rfl⟩ : ∃ i, p = j + i := ⟨p - j, by omega⟩
    rw [Nat.add_sub_cancel_left, hq, testBit_two_pow_mul, decide_eq_true (by omega : j + i ≥ j), Nat.add_sub_cancel_left,
      Bool.true_and]
    cases i with
    | zero =>
      rw [testBit_zero]
      simp
    | succ i =>
      rw [testBit_succ, testBit_succ, show (2 * q + 1) / 2 = q by omega, show 2 * q / 2 = q by omega, Bool.and_self,
        decide_eq_true (by omega), Bool.and_true]

theorem toNat_pos (hne : mask ≠ 0#w) : 0 < mask.toNat :=
  Nat.pos_of_ne_zero fun h0 => hne (BitVec.eq_of_toNat_eq (by simpa using h0))

theorem toNat_sub_one (hne : mask ≠ 0#w) : (mask - 1#w).toNat = mask.toNat - 1 := by
  have hpos := toNat_pos hne
  have hone : (1#w).toNat = 1 := by
    rw [BitVec.toNat_ofNat, mod_eq_of_lt (by omega)]
  rw [BitVec.toNat_sub_of_le, hone]
  rw [BitVec.le_def, hone]
  exact hpos

theorem and_sub_one_lt (hne : mask ≠ 0#w) : (mask &&& (mask - 1#w)).toNat < mask.toNat := by
  rw [BitVec.toNat_and, toNat_sub_one hne]
  exact Nat.lt_of_le_of_lt and_le_right (sub_lt (toNat_pos hne) Nat.one_pos)

variable {q : Nat}

/-- `mask & (mask - 1)`: the first lane of single bits is cleared. -/
theorem Groups.clear_lowest (h : Groups 1 lanes mask hit) (hne : mask ≠ 0#w) (hq : mask.ctz.toNat = q) :
    Groups 1 lanes (mask &&& (mask - 1#w)) fun i => hit i && decide (i ≠ q) := by
  intro p
  have hset := BitVec.getLsbD_true_ctz_of_ne_zero hne
  rw [BitVec.getLsbD, hq] at hset
  have hlow : ∀ i < q, mask.toNat.testBit i = false := fun i hi => BitVec.getLsbD_false_of_lt_ctz (x := mask) (by omega)
  have hp := h p
  rw [BitVec.getLsbD] at hp
  rw [BitVec.getLsbD, BitVec.toNat_and, toNat_sub_one hne, testBit_sub_one hset hlow, hp, Nat.div_one, Bool.and_assoc]

theorem Groups.clear_nibble {mask : BitVec 64} (h : Groups 4 16 mask hit) (q : Nat) :
    Groups 4 16 (mask &&& ~~~(0xF#64 <<< (4 * q))) fun i => hit i && decide (i ≠ q) := by
  intro p
  have hnibble : (0xF#64).getLsbD (p - 4 * q) = decide (p - 4 * q < 4) := by
    have h15 : ∀ i, testBit 15 i = decide (i < 4) := by
      intro i
      exact testBit_two_pow_sub_one 4 i
    rw [BitVec.getLsbD, show (0xF#64).toNat = 15 from rfl, h15]
  rw [BitVec.getLsbD_and, h p, BitVec.getLsbD_not, BitVec.getLsbD_shiftLeft, hnibble]
  by_cases hp : p < 64
  · rw [decide_eq_true hp, Bool.true_and, Bool.true_and, Bool.true_and, Bool.true_and]
    congr 1
    rw [Bool.eq_iff_iff]
    simp only [Bool.not_and, Bool.or_eq_true, Bool.not_not, Bool.not_eq_true', decide_eq_true_eq, decide_eq_false_iff_not]
    omega
  · rw [decide_eq_false (show ¬ p < 4 * 16 from hp), Bool.false_and, Bool.false_and, Bool.false_and]

/-- `raw & !((1 << (k * skip)) - 1)`: the lanes before `skip` are cleared. -/
theorem Groups.clear_front (h : Groups k lanes mask hit) (hk : 0 < k) (hw : k * lanes ≤ w) {skip : Nat} (hs : k * skip < w) :
    Groups k lanes (mask &&& ~~~((1#w <<< (k * skip)) - 1#w)) fun i => hit i && decide (skip ≤ i) := by
  intro p
  have hone : (1#w).toNat = 1 := by
    rw [BitVec.toNat_ofNat, mod_eq_of_lt (Nat.one_lt_two_pow (by omega))]
  have hshift : (1#w <<< (k * skip)).toNat = 2 ^ (k * skip) := by
    rw [BitVec.toNat_shiftLeft, hone, shiftLeft_eq, Nat.one_mul, mod_eq_of_lt (Nat.pow_lt_pow_right (by omega) hs)]
  have hlow : ((1#w <<< (k * skip)) - 1#w).getLsbD p = decide (p < k * skip) := by
    rw [BitVec.getLsbD, BitVec.toNat_sub_of_le, hshift, hone, testBit_two_pow_sub_one]
    rw [BitVec.le_def, hshift, hone]
    exact Nat.one_le_two_pow
  rw [BitVec.getLsbD_and, h p, BitVec.getLsbD_not, hlow, Bool.and_assoc]
  by_cases hp : p < k * lanes
  · rw [decide_eq_true hp, decide_eq_true (show p < w by omega), Bool.true_and, Bool.true_and, Bool.true_and]
    congr 1
    rw [Bool.eq_iff_iff]
    simp only [Bool.not_eq_true', decide_eq_true_eq, decide_eq_false_iff_not, Nat.not_lt]
    rw [Nat.le_div_iff_mul_le hk, Nat.mul_comm]
  · rw [decide_eq_false hp, Bool.false_and, Bool.false_and]

theorem and_not_lt {mask other : BitVec w} (hset : mask.getLsbD p = true) (hclear : other.getLsbD p = false) :
    (mask &&& other).toNat < mask.toNat := by
  refine Nat.lt_of_le_of_ne ?_ fun heq => ?_
  · rw [BitVec.toNat_and]
    exact and_le_left
  · have := congrArg (·.getLsbD p) (BitVec.eq_of_toNat_eq heq)
    simp only [BitVec.getLsbD_and, hset, hclear] at this
    cases this

/-! ## The order of the visits -/

/-- The lanes that are set, from the first to the last. -/
def hits (lanes : Nat) (hit : Nat → Bool) : List Nat := (List.range lanes).filter hit

theorem filter_first {xs : List Nat} (hxs : xs.Pairwise (· < ·)) (hmem : q ∈ xs) (hq : hit q = true)
    (hfirst : ∀ i ∈ xs, i < q → hit i = false) : xs.filter hit = q :: xs.filter fun i => hit i && decide (i ≠ q) := by
  induction xs with
  | nil => cases hmem
  | cons x xs ih =>
    rw [pairwise_cons] at hxs
    rcases mem_cons.mp hmem with rfl | hmem
    · have hrest : xs.filter hit = xs.filter fun i => hit i && decide (i ≠ q) := by
        refine filter_congr fun i hi => ?_
        rw [decide_eq_true (Nat.ne_of_gt (hxs.1 i hi)), Bool.and_true]
      rw [filter_cons_of_pos hq, hrest, filter_cons_of_neg (by simp)]
    · have hx : hit x = false := hfirst x (mem_cons_self ..) (hxs.1 q hmem)
      rw [filter_cons_of_neg (by simp [hx]), filter_cons_of_neg (by simp [hx]),
        ih hxs.2 hmem fun i hi => hfirst i (mem_cons_of_mem _ hi)]

theorem hits_first (hq : q < lanes) (hset : hit q = true) (hfirst : ∀ i < q, hit i = false) :
    hits lanes hit = q :: hits lanes fun i => hit i && decide (i ≠ q) :=
  filter_first pairwise_lt_range (mem_range.mpr hq) hset fun i _ => hfirst i

theorem hits_none (h : ∀ q < lanes, hit q = false) : hits lanes hit = [] :=
  filter_eq_nil_iff.mpr fun q hq => by rw [h q (mem_range.mp hq)]; exact Bool.false_ne_true

theorem hits_succ (lanes : Nat) (hit : Nat → Bool) :
    hits (lanes + 1) hit = (if hit 0 then [0] else []) ++ (hits lanes fun i => hit (i + 1)).map (· + 1) := by
  unfold hits
  rw [range_succ_eq_map, filter_cons, filter_map]
  split <;> rfl

theorem hits_from {skip : Nat} (hs : skip ≤ lanes) :
    hits lanes (fun i => hit i && decide (skip ≤ i)) = (hits (lanes - skip) fun i => hit (skip + i)).map (skip + ·) := by
  unfold hits
  have hsplit : range lanes = range skip ++ (range (lanes - skip)).map (skip + ·) := by
    rw [← range_add, Nat.add_sub_cancel' hs]
  have hfront : (range skip).filter (fun i => hit i && decide (skip ≤ i)) = [] :=
    filter_eq_nil_iff.mpr fun i hi => by
      rw [decide_eq_false (Nat.not_le.mpr (mem_range.mp hi)), Bool.and_false]
      exact Bool.false_ne_true
  rw [hsplit, filter_append, hfront, nil_append, filter_map]
  congr 1
  refine filter_congr fun i _ => ?_
  simp

end Lib
