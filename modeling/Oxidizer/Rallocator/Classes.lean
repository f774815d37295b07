import Oxidizer.Lib.Usize
/-!
# Size classes

A request is classified by the size it has once it is padded to its alignment:
up to 64 KiB through a table of 44 classes, above by powers of two. The tables
are computed by the loops that fill them. A class lies at most one of its
steps above the class before it, and steps are powers of two: what is padded to
a larger power of two is then a class itself.
-/

namespace Classes

open Lib List Nat

def CHUNK : Nat := 1 <<< 14
def SMALL_MAX : Nat := 1 <<< 16
def COUNT : Nat := 44
def SMALL_TAG : Nat := 64

def isizeMax : Nat := 2 ^ 63 - 1

/-- `usize::next_power_of_two`, where it does not overflow. -/
def next_power_of_two (n : Nat) : Nat := if n ≤ 1 then 1 else 2 ^ ((n - 1).log2 + 1)

def checked_next_power_of_two (n : Nat) : Option Nat :=
  if next_power_of_two n ≤ usizeMax then some (next_power_of_two n) else none

/-- `isize::leading_zeros` of a value that is not negative. -/
def leading_zeros (n : Nat) : Nat := if n = 0 then 64 else 63 - n.log2

structure Class where
  size : Nat
  slab : Nat
  capacity : Nat
  waking : Nat
deriving DecidableEq

/-- The body of the loop of `make_classes`. -/
def make_class (i : Nat) : Class :=
  let size := if i < 4 then (i + 1) * 16 else (5 + (i - 4) % 4) <<< (4 + (i - 4) / 4)
  let slab := if size * 4 < CHUNK then CHUNK else next_power_of_two (size * 4)
  let capacity := slab / size % 2 ^ 16
  { size, slab, capacity, waking := if capacity / 4 < 32 then capacity / 4 else 32 }

def make_classes : List Class := (List.range COUNT).map make_class

def class_at (i : Nat) : Class := make_classes.getD i ⟨0, 0, 0, 0⟩

/-- The inner loop of `make_lookup`. -/
def advance (bucket : Nat) : Nat → Nat → Nat
  | 0, i => i
  | n + 1, i => if (class_at i).size ≤ bucket * 16 then advance bucket n (i + 1) else i

/-- The outer loop of `make_lookup`, from a bucket and a class on. -/
def fill : Nat → Nat → Nat → List Nat
  | 0, _, _ => []
  | n + 1, bucket, i =>
    let i := advance bucket COUNT i
    i % 256 :: fill n (bucket + 1) i

def SIZE_LOOKUP : List Nat := fill (SMALL_MAX / 16) 0 0

def index (size : Nat) : Nat := SIZE_LOOKUP.getD ((max size 1 - 1) >>> 4) 0

/-- `Layout`: the size rounded up to the alignment is at most `isize::MAX`. -/
structure Layout where
  size : Nat
  align : Nat
  power : ∃ k < 64, align = 2 ^ k
  fits : size ≤ isizeMax + 1 - align

theorem Layout.power_iff (align : Nat) : (∃ k < 64, align = 2 ^ k) ↔ align = 2 ^ align.log2 ∧ align.log2 < 64 := by
  constructor
  · rintro ⟨k, hk, rfl⟩
    rw [log2_two_pow]
    exact ⟨rfl, hk⟩
  · exact fun h => ⟨_, h.2, h.1⟩

instance Layout.decidablePower (align : Nat) : Decidable (∃ k < 64, align = 2 ^ k) := decidable_of_iff _ (Layout.power_iff align).symm

def Layout.from_size_align (size align : Nat) : Option Layout :=
  if h : (∃ k < 64, align = 2 ^ k) ∧ size ≤ isizeMax + 1 - align then some ⟨size, align, h.1, h.2⟩ else none

structure Request where
  tag : Nat
deriving DecidableEq

def size (tag : Nat) : Nat := if tag ≥ SMALL_TAG then (class_at (tag - SMALL_TAG)).size else 1 <<< (64 - tag)

namespace Request

def with_size (layout : Layout) (size : Nat) : Option Request := do
  let sum ← checked_add (max size 1) (layout.align - 1)
  -- the complement of `align - 1`
  let padded := sum &&& (usizeMax - (layout.align - 1))
  if padded ≤ SMALL_MAX then return ⟨(SMALL_TAG + index padded) % 256⟩
  else
    let size ← checked_next_power_of_two padded
    if size ≤ isizeMax then return ⟨(leading_zeros size + 1) % 256⟩ else none

def new (layout : Layout) : Option Request := with_size layout layout.size

def size (request : Request) : Nat := Classes.size request.tag

end Request

/-! ## The classes -/

/-- The sizes there are: steps of 16 bytes, quarters of an octave up to 64 KiB, powers of two above. -/
def IsClass (c : Nat) : Prop :=
  (∃ n, 1 ≤ n ∧ n ≤ 4 ∧ c = n * 16) ∨ (∃ octave < 10, ∃ quarter < 4, c = (5 + quarter) * 2 ^ (4 + octave)) ∨
    ∃ p, 16 < p ∧ c = 2 ^ p

/-- The smallest class that holds a padded size. -/
def ClassOf (padded c : Nat) : Prop := IsLeast {c | IsClass c ∧ padded ≤ c} c

/-- A size rounded up to an alignment; no size is the size of one byte. -/
def padded (size align : Nat) : Nat := (max size 1 + (align - 1)) / align * align

/-- The step that ends in a class. -/
def unit (i : Nat) : Nat := if i < 4 then 16 else 2 ^ (4 + (i - 4) / 4)

theorem class_at_eq {i : Nat} (hi : i < COUNT) : class_at i = make_class i := by
  rw [class_at, make_classes, getD_eq_getElem _ _ (by simpa using hi), getElem_map, getElem_range]

theorem class_mono : ∀ i < COUNT, ∀ j < i, (make_class j).size < (make_class i).size := by
  decide +kernel

theorem class_step : ∀ i < COUNT, (∃ e < 16, unit i = 2 ^ e) ∧ unit i ∣ (make_class i).size ∧
    (i = 0 ∧ (make_class i).size = unit i ∨ 0 < i ∧ (make_class (i - 1)).size + unit i = (make_class i).size) := by
  decide +kernel

theorem class_sizes : ∀ i < COUNT, 0 < (make_class i).size ∧ 16 ∣ (make_class i).size ∧ (make_class i).size ≤ SMALL_MAX ∧
    (make_class i).size ≤ (make_class i).slab ∧ (make_class i).slab = 2 ^ (make_class i).slab.log2 := by
  decide +kernel

theorem isClass_iff {c : Nat} : IsClass c ↔ (∃ i < COUNT, c = (make_class i).size) ∨ ∃ p, 16 < p ∧ c = 2 ^ p := by
  have hfine : ∀ n < 4, (make_class n).size = (n + 1) * 16 := by decide
  have hquarter : ∀ octave < 10, ∀ quarter < 4,
      (make_class (4 + 4 * octave + quarter)).size = (5 + quarter) * 2 ^ (4 + octave) := by decide +kernel
  constructor
  · rintro (⟨n, hn, hn', rfl⟩ | ⟨octave, ho, quarter, hq, rfl⟩ | hp)
    · exact .inl ⟨n - 1, by unfold COUNT; omega, by rw [hfine _ (by omega), Nat.sub_add_cancel hn]⟩
    · exact .inl ⟨_, by unfold COUNT; omega, (hquarter octave ho quarter hq).symm⟩
    · exact .inr hp
  · rintro (⟨i, hi, rfl⟩ | hp)
    · unfold COUNT at hi
      by_cases hsmall : i < 4
      · exact .inl ⟨i + 1, by omega, by omega, hfine i hsmall⟩
      · refine .inr (.inl ⟨(i - 4) / 4, by omega, (i - 4) % 4, by omega, ?_⟩)
        rw [← hquarter _ (by omega) _ (by omega)]
        congr 2
        omega
    · exact .inr (.inr hp)

theorem next_power_of_two_spec (n : Nat) : ∃ p, next_power_of_two n = 2 ^ p ∧ n ≤ 2 ^ p ∧ ∀ q, n ≤ 2 ^ q → p ≤ q := by
  unfold next_power_of_two
  split
  · next h => exact ⟨0, rfl, h, fun q _ => Nat.zero_le q⟩
  · next h =>
    have hlog := lt_log2_self (n := n - 1)
    refine ⟨(n - 1).log2 + 1, rfl, by omega, fun q hq => ?_⟩
    have hlow : 2 ^ (n - 1).log2 < 2 ^ q := by
      have := log2_self_le (n := n - 1) (by omega)
      omega
    exact (Nat.pow_lt_pow_iff_right (by decide)).mp hlow

theorem classOf_small {n i : Nat} (hi : i < COUNT) (hn : n ≤ (make_class i).size) (hbelow : ∀ j < i, (make_class j).size < n) :
    ClassOf n (make_class i).size := by
  refine ⟨⟨isClass_iff.mpr (.inl ⟨i, hi, rfl⟩), hn⟩, ?_⟩
  rintro c ⟨hc, hle⟩
  rcases isClass_iff.mp hc with ⟨j, hj, rfl⟩ | ⟨p, hp, rfl⟩
  · rcases Nat.lt_trichotomy j i with hlt | rfl | hgt
    · exact absurd hle (Nat.not_le.mpr (hbelow j hlt))
    · exact Nat.le_refl _
    · exact (class_mono j hj i hgt).le
  · exact (class_sizes i hi).2.2.1.trans (Nat.pow_le_pow_right Nat.two_pos hp.le)

theorem classOf_large {n : Nat} (hn : SMALL_MAX < n) : ClassOf n (next_power_of_two n) := by
  obtain ⟨p, heq, hle, hleast⟩ := next_power_of_two_spec n
  rw [heq]
  have hp : 16 < p := (Nat.pow_lt_pow_iff_right Nat.one_lt_two).mp (hn.trans_le hle)
  refine ⟨⟨.inr (.inr ⟨p, hp, rfl⟩), hle⟩, ?_⟩
  rintro c ⟨hc, hle⟩
  rcases isClass_iff.mp hc with ⟨j, hj, rfl⟩ | ⟨q, -, rfl⟩
  · exact absurd (hn.trans_le hle) (Nat.not_lt.mpr (class_sizes j hj).2.2.1)
  · exact Nat.pow_le_pow_right (by decide) (hleast q hle)

/-- A class keeps the alignment of what it holds: where the alignment is finer than the step it divides the class,
and where it is coarser what is held is the class itself. -/
theorem ClassOf.aligned {n c k : Nat} (h : ClassOf n c) (hn : 0 < n) (hk : 2 ^ k ∣ n) : 2 ^ k ∣ c := by
  obtain ⟨⟨hc, hle⟩, hleast⟩ := h
  rcases isClass_iff.mp hc with ⟨i, hi, rfl⟩ | ⟨q, -, rfl⟩
  · obtain ⟨⟨e, -, he⟩, hunit, hprev⟩ := class_step i hi
    have hlow : (make_class i).size < n + unit i := by
      rcases hprev with ⟨rfl, h0⟩ | ⟨hpos, hstep⟩
      · omega
      · have hsmaller : (make_class (i - 1)).size < n := by
          by_contra hge
          have := hleast ⟨isClass_iff.mpr (.inl ⟨i - 1, by omega, rfl⟩), Nat.not_lt.mp hge⟩
          have := class_mono i hi (i - 1) (by omega)
          omega
        omega
    rw [he] at hunit hlow
    rcases Nat.le_total k e with hke | hek
    · exact (Nat.pow_dvd_pow 2 hke).trans hunit
    · obtain ⟨a, ha⟩ := hunit
      obtain ⟨b, hb⟩ := (Nat.pow_dvd_pow 2 hek).trans hk
      have hab : a = b := by
        rw [ha, hb] at hle hlow
        have h1 : b ≤ a := Nat.le_of_mul_le_mul_left hle (Nat.two_pow_pos e)
        have h2 : a < b + 1 := Nat.lt_of_mul_lt_mul_left (a := 2 ^ e) (by rw [mul_succ]; exact hlow)
        omega
      rw [ha, hab, ← hb]
      exact hk
  · exact Nat.pow_dvd_pow 2 ((Nat.pow_le_pow_iff_right (by decide)).mp ((le_of_dvd hn hk).trans hle))

/-! ## The lookup -/

/-- The class that the table has for a bucket. -/
def Picks (bucket i : Nat) : Prop :=
  i < COUNT ∧ bucket * 16 < (make_class i).size ∧ ∀ j < i, (make_class j).size ≤ bucket * 16

theorem advance_picks {bucket n i : Nat} (hbucket : bucket * 16 < SMALL_MAX) (hi : i < COUNT) (hn : COUNT ≤ i + n)
    (hbelow : ∀ j < i, (make_class j).size ≤ bucket * 16) : Picks bucket (advance bucket n i) := by
  induction n generalizing i with
  | zero => omega
  | succ n ih =>
    rw [advance, class_at_eq hi]
    split
    · next hle =>
      have hlast : i ≠ COUNT - 1 := by
        rintro rfl
        have : (make_class (COUNT - 1)).size = SMALL_MAX := by decide
        omega
      apply ih (by omega) (by omega)
      intro j hj
      rcases Nat.lt_succ_iff_lt_or_eq.mp hj with hlt | rfl
      · exact hbelow j hlt
      · exact hle
    · next hgt => exact ⟨hi, Nat.not_le.mp hgt, hbelow⟩

theorem fill_picks {n bucket i : Nat} (hbuckets : (bucket + n) * 16 ≤ SMALL_MAX) (hi : i < COUNT)
    (hbelow : ∀ j < i, (make_class j).size ≤ bucket * 16) {b : Nat} (hb : b < n) :
    Picks (bucket + b) ((fill n bucket i).getD b 0) := by
  induction n generalizing bucket i b with
  | zero => omega
  | succ n ih =>
    have hpick := advance_picks (n := COUNT) (by omega) hi (by omega) hbelow
    rw [fill]
    cases b with
    | zero =>
      have hsmall : advance bucket COUNT i % 256 = advance bucket COUNT i :=
        mod_eq_of_lt (hpick.1.trans (by decide))
      rw [getD_cons_zero, hsmall]
      exact hpick
    | succ b =>
      rw [getD_cons_succ, add_succ, ← succ_add]
      apply ih (by omega) hpick.1 _ (by omega)
      intro j hj
      exact (hpick.2.2 j hj).trans (by omega)

theorem index_spec {n : Nat} (hn : 0 < n) (hmax : n ≤ SMALL_MAX) :
    index n < COUNT ∧ ClassOf n (class_at (index n)).size := by
  have hbucket : (max n 1 - 1) >>> 4 = (n - 1) / 16 := by
    rw [Nat.max_eq_left hn, shiftRight_eq_div_pow]
  have hpick : Picks ((n - 1) / 16) (index n) := by
    have hfill := @fill_picks (SMALL_MAX / 16) 0 0 (by decide) (by decide) (fun j hj => absurd hj j.not_lt_zero) ((n - 1) / 16)
    rw [index, hbucket, SIZE_LOOKUP]
    rw [Nat.zero_add] at hfill
    apply hfill
    unfold SMALL_MAX at *
    omega
  obtain ⟨hi, hgt, hbelow⟩ := hpick
  rw [class_at_eq hi]
  refine ⟨hi, classOf_small hi ?_ fun j hj => ?_⟩
  · obtain ⟨a, ha⟩ := (class_sizes _ hi).2.1
    omega
  · have := hbelow j hj
    omega

/-! ## Classification -/

theorem and_complement {x k : Nat} (hx : x ≤ usizeMax) (hk : k < 64) : x &&& (usizeMax - (2 ^ k - 1)) = x / 2 ^ k * 2 ^ k := by
  have hpow : 2 ^ k < 2 ^ 64 := Nat.pow_lt_pow_right (by decide) hk
  have hcomp : usizeMax - (2 ^ k - 1) = 2 ^ 64 - (2 ^ k - 1 + 1) := by
    unfold usizeMax
    omega
  apply eq_of_testBit_eq
  intro i
  rw [hcomp, testBit_and, testBit_two_pow_sub_succ (by omega), testBit_two_pow_sub_one,
    testBit_mul_two_pow, testBit_div_two_pow]
  by_cases hi : i < 64
  · by_cases hik : k ≤ i
    · simp [hi, hik, Nat.not_lt.mpr hik]
    · simp [hik, Nat.lt_of_not_le hik]
  · have hbit : x.testBit i = false :=
      testBit_lt_two_pow (Nat.lt_of_lt_of_le (lt_succ_of_le hx) (Nat.pow_le_pow_right Nat.two_pos (Nat.not_lt.mp hi)))
    by_cases hik : k ≤ i <;> simp [hbit, hik]

theorem padded_dvd (size align : Nat) : align ∣ padded size align := Dvd.intro_left _ rfl

theorem le_padded {align : Nat} (ha : 0 < align) (size : Nat) : max size 1 ≤ padded size align := by
  unfold padded
  have := div_add_mod (max size 1 + (align - 1)) align
  have := mod_lt (max size 1 + (align - 1)) ha
  rw [Nat.mul_comm]
  omega

theorem padded_mono {size larger : Nat} (h : size ≤ larger) (align : Nat) : padded size align ≤ padded larger align :=
  Nat.mul_le_mul_right _ (Nat.div_le_div_right (Nat.add_le_add_right (by omega) _))

theorem le_padded_of_le {a align size : Nat} (h : a * align ≤ max size 1 + (align - 1)) (ha : 0 < align) :
    a * align ≤ padded size align :=
  Nat.mul_le_mul_right _ ((Nat.le_div_iff_mul_le ha).mpr h)

theorem tag_large {p : Nat} (hp : 16 < p) (hmax : 2 ^ p ≤ isizeMax) :
    (leading_zeros (2 ^ p) + 1) % 256 = 64 - p ∧ size (64 - p) = 2 ^ p := by
  have hp63 : p < 63 := by
    apply (Nat.pow_lt_pow_iff_right Nat.one_lt_two).mp
    exact Nat.lt_of_le_of_lt hmax (by decide)
  have hne : 2 ^ p ≠ 0 := (Nat.two_pow_pos p).ne'
  rw [leading_zeros, if_neg hne, log2_two_pow, size, if_neg (by unfold SMALL_TAG; omega), shiftLeft_eq, Nat.one_mul]
  constructor
  · omega
  · congr 1
    omega

/-- What a classification gives: the class of the padded size, or nothing where that is too large. -/
theorem Request.with_size_spec (layout : Layout) (size : Nat) :
    (∃ request, with_size layout size = some request ∧ ClassOf (padded size layout.align) request.size ∧
      request.size ≤ isizeMax ∧ (SMALL_TAG ≤ request.tag → request.tag - SMALL_TAG < COUNT)) ∨
    with_size layout size = none ∧ ∀ c, IsClass c → padded size layout.align ≤ c → isizeMax < c := by
  obtain ⟨k, hk, halign⟩ := layout.power
  have hpos : 0 < layout.align := by
    rw [halign]
    exact Nat.two_pow_pos k
  rw [with_size]
  by_cases hsum : max size 1 + (layout.align - 1) ≤ usizeMax
  · have hpad : (max size 1 + (layout.align - 1)) &&& (usizeMax - (layout.align - 1)) = padded size layout.align := by
      rw [padded, halign] at *
      exact and_complement hsum hk
    have hle := le_padded hpos size
    rw [checked_add_of_le hsum]
    simp only [Option.bind_eq_bind, Option.bind_some, hpad]
    split
    · next hsmall =>
      obtain ⟨hindex, hclass⟩ := index_spec (by omega) hsmall
      have htag : (SMALL_TAG + index (padded size layout.align)) % 256 = SMALL_TAG + index (padded size layout.align) :=
        mod_eq_of_lt (by unfold SMALL_TAG COUNT at *; omega)
      have hsize : Classes.size (SMALL_TAG + index (padded size layout.align)) = (class_at (index (padded size layout.align))).size := by
        rw [Classes.size, if_pos (Nat.le_add_right _ _), Nat.add_sub_cancel_left]
      refine .inl ⟨_, rfl, ?_, ?_, fun _ => ?_⟩
      · rw [Request.size, htag, hsize]
        exact hclass
      · rw [Request.size, htag, hsize, class_at_eq hindex]
        exact (class_sizes _ hindex).2.2.1.trans (by decide)
      · rw [htag, Nat.add_sub_cancel_left]
        exact hindex
    · next hlarge =>
      have hclass := classOf_large (Nat.not_le.mp hlarge)
      obtain ⟨p, heq, hfits, -⟩ := next_power_of_two_spec (padded size layout.align)
      rw [heq] at hclass
      by_cases hmax : 2 ^ p ≤ isizeMax
      · have hp : 16 < p := (Nat.pow_lt_pow_iff_right Nat.one_lt_two).mp ((Nat.not_le.mp hlarge).trans_le hfits)
        obtain ⟨htag, hsize⟩ := tag_large hp hmax
        left
        refine ⟨⟨64 - p⟩, ?_, ?_, ?_, fun h => absurd h ?_⟩
        · rw [checked_next_power_of_two, heq, if_pos (hmax.trans (by decide))]
          simp only [Option.bind_some, if_pos hmax, htag]
          rfl
        · rw [Request.size, hsize]
          exact hclass
        · rw [Request.size, hsize]
          exact hmax
        · show ¬ SMALL_TAG ≤ 64 - p
          unfold SMALL_TAG
          omega
      · refine .inr ⟨?_, fun c hc hle => (Nat.not_le.mp hmax).trans_le (hclass.2 ⟨hc, hle⟩)⟩
        rw [checked_next_power_of_two, heq]
        split
        · simp [hmax]
        · rfl
  · rw [checked_add_of_gt (Nat.not_le.mp hsum)]
    refine .inr ⟨rfl, fun c _ hle => ?_⟩
    -- the sum passes `2 ^ 64`, a multiple of every alignment
    have hmul : 2 ^ (64 - k) * layout.align = 2 ^ 64 := by
      rw [halign, ← Nat.pow_add, Nat.sub_add_cancel hk.le]
    have hbig := @le_padded_of_le (2 ^ (64 - k)) layout.align size (by rw [hmul]; unfold usizeMax at hsum; omega) hpos
    unfold isizeMax
    omega

theorem Request.with_size_align {layout other : Layout} (h : layout.align = other.align) (size : Nat) :
    with_size layout size = with_size other size := by
  rw [with_size, with_size, h]

/-- A request gets the smallest class that holds its padded size, where that is at most `isize::MAX`; the class keeps
the alignment, in every object of a slab, and grows with the size. -/
theorem with_size_classifies (layout : Layout) (size : Nat) :
    ((∃ request, Request.with_size layout size = some request) ↔
      ∃ c, ClassOf (padded size layout.align) c ∧ c ≤ isizeMax) ∧
    (∀ request, Request.with_size layout size = some request →
      size ≤ request.size ∧ layout.align ∣ request.size ∧ ClassOf (padded size layout.align) request.size ∧
      (SMALL_TAG ≤ request.tag → ∀ base i, (class_at (request.tag - SMALL_TAG)).slab ∣ base →
        i < (class_at (request.tag - SMALL_TAG)).capacity →
        layout.align ∣ base + i * (class_at (request.tag - SMALL_TAG)).size)) ∧
    Request.with_size layout size = (Layout.from_size_align size layout.align).bind Request.new ∧
    ∀ larger request, size ≤ larger → Request.with_size layout larger = some request →
      ∃ smaller, Request.with_size layout size = some smaller ∧ smaller.size ≤ request.size := by
  obtain ⟨k, hk, halign⟩ := layout.power
  have hpos : 0 < layout.align := by
    rw [halign]
    exact Nat.two_pow_pos k
  have hle := le_padded hpos size
  refine ⟨?_, fun request hreq => ?_, ?_, fun larger request hsize hreq => ?_⟩
  · rcases Request.with_size_spec layout size with ⟨request, hsome, hclass, hmax, -⟩ | ⟨hnone, hbig⟩
    · exact ⟨fun _ => ⟨_, hclass, hmax⟩, fun _ => ⟨request, hsome⟩⟩
    · rw [hnone]
      exact ⟨fun ⟨_, h⟩ => (nomatch h), fun ⟨c, hc, hmax⟩ => absurd (hbig c hc.1.1 hc.1.2) (Nat.not_lt.mpr hmax)⟩
  · rcases Request.with_size_spec layout size with ⟨found, hsome, hclass, -, htag⟩ | ⟨hnone, -⟩
    · rw [hsome] at hreq
      cases hreq
      have hdvd : layout.align ∣ request.size := by
        rw [halign]
        exact hclass.aligned (by omega) (halign ▸ padded_dvd size layout.align)
      refine ⟨by have := hclass.1.2; omega, hdvd, hclass, fun hsmall base i hbase _ => ?_⟩
      have hsize : request.size = (class_at (request.tag - SMALL_TAG)).size := by
        rw [Request.size, Classes.size, if_pos hsmall]
      rw [hsize, class_at_eq (htag hsmall)] at hdvd
      rw [class_at_eq (htag hsmall)] at hbase ⊢
      obtain ⟨hsome', -, -, hslab, hpower⟩ := class_sizes _ (htag hsmall)
      -- the alignment is at most the size, and the slab a larger power of two
      have hfits : layout.align ∣ (make_class (request.tag - SMALL_TAG)).slab := by
        have := (le_of_dvd hsome' hdvd).trans hslab
        rw [hpower, halign] at this ⊢
        exact Nat.pow_dvd_pow 2 ((Nat.pow_le_pow_iff_right Nat.one_lt_two).mp this)
      exact Nat.dvd_add (hfits.trans hbase) (Dvd.dvd.mul_left hdvd i)
    · rw [hnone] at hreq
      cases hreq
  · unfold Layout.from_size_align
    split
    · next h => exact Request.with_size_align rfl size
    · next h =>
      rcases Request.with_size_spec layout size with ⟨request, -, hclass, hmax, -⟩ | ⟨hnone, -⟩
      · -- an invalid layout is padded to `2 ^ 63` at least
        have hmul : 2 ^ (63 - k) * layout.align = 2 ^ 63 := by
          rw [halign, ← Nat.pow_add, Nat.sub_add_cancel (by omega)]
        have hfits : ¬ size ≤ isizeMax + 1 - layout.align := fun hfits => h ⟨layout.power, hfits⟩
        have hbig := @le_padded_of_le (2 ^ (63 - k)) layout.align size (by rw [hmul]; unfold isizeMax at hfits; omega) hpos
        have := hclass.1.2
        unfold isizeMax at hmax
        omega
      · exact hnone
  · rcases Request.with_size_spec layout larger with ⟨found, hsome, hclass, hmax, -⟩ | ⟨hnone, -⟩
    · rw [hsome] at hreq
      cases hreq
      have hle := (padded_mono hsize layout.align).trans hclass.1.2
      rcases Request.with_size_spec layout size with ⟨smaller, hsmaller, hleast, -, -⟩ | ⟨-, hbig⟩
      · exact ⟨smaller, hsmaller, hleast.2 ⟨hclass.1.1, hle⟩⟩
      · exact absurd (hbig _ hclass.1.1 hle) (Nat.not_lt.mpr hmax)
    · rw [hnone] at hreq
      cases hreq

/-- No bytes are a multiple of every alignment and have the class of 16 bytes, but a request for none counts as one byte:
at the alignment `2 ^ 63` it is refused. -/
theorem zero_size_counts_as_one : ∃ layout : Layout, layout.align = 2 ^ 63 ∧
    (0 + (layout.align - 1)) / layout.align * layout.align = 0 ∧ ClassOf 0 16 ∧ 16 ≤ isizeMax ∧
    Request.with_size layout 0 = none := by
  refine ⟨⟨0, 2 ^ 63, ⟨63, by decide, rfl⟩, by decide⟩, rfl, rfl, classOf_small (i := 0) (by decide) (by decide) nofun, by decide, ?_⟩
  rcases Request.with_size_spec ⟨0, 2 ^ 63, ⟨63, by decide, rfl⟩, by decide⟩ 0 with ⟨request, -, hclass, hmax, -⟩ | ⟨hnone, -⟩
  · have hle : 2 ^ 63 ≤ request.size := hclass.1.2
    unfold isizeMax at hmax
    omega
  · exact hnone

end Classes
