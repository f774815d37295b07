import Oxidizer.Lib.Checked
import Oxidizer.Rallocator.Classes
/-!
# Slot geometry

A chunk is a header and, after padding, its slots; a slot is the value, its
reference count and its index in the chunk. Handles find the header from the
address of a value by the formulas that laid out the chunk. Every operation on
a `usize` is checked, so a formula that returns has not overflowed; addresses
are numbers, and stepping a pointer is checked in the same way.
-/

namespace Plurality.Geometry

open Lib Checked Classes

/-- `size_of` and `align_of` of `AtomicU32` and of `u32`. -/
def WORD : Nat := 4

/-- `size_of::<ChunkHeader>()`, a pointer and two `u32`, and its alignment. -/
def HEADER : Nat := 16
def HEADER_ALIGN : Nat := 8

/-- A computation that may end in `None`, through `?`. -/
abbrev Partly := Checked Unit

def some_or_none {α : Type} : Option α → Partly α
  | some a => .ok a
  | none => .error (.fails ())

def round_up (x align : Nat) : Partly Nat := do
  let sum ← add 64 x align
  let last ← sub sum 1
  let mask ← sub align 1
  -- the complement of `align - 1`
  return last &&& (usizeMax - mask)

/-- The wider of the two metadata words is either of them. -/
def cell_align (align : Nat) : Nat := if align > WORD then align else WORD

/-- What `from_size_align_unchecked` is given. -/
def routing_key (layout : Layout) : Nat × Nat := (layout.size, cell_align layout.align)

def refcount_offset (size : Nat) : Partly Nat := round_up size WORD

def index_offset (size : Nat) : Partly Nat := do
  round_up (← add 64 (← refcount_offset size) WORD) WORD

def stride (size align : Nat) : Partly Nat := do
  round_up (← add 64 (← index_offset size) WORD) (cell_align align)

def slots_offset (align : Nat) : Partly Nat := round_up HEADER (cell_align align)

def chunk_align (align : Nat) : Nat :=
  if HEADER_ALIGN > cell_align align then HEADER_ALIGN else cell_align align

def checked_mul (a b : Nat) : Option Nat := if a * b ≤ usizeMax then some (a * b) else none

/-- The size of `Layout::pad_to_align`. -/
def pad_to_align (layout : Layout) : Nat := (layout.size + (layout.align - 1)) / layout.align * layout.align

/-- The size and the alignment of the layout that `chunk_layout` returns. -/
def chunk_layout (size align slots : Nat) : Partly (Nat × Nat) := do
  let payload ← some_or_none (checked_mul (← stride size align) slots)
  let total ← some_or_none (checked_add (← slots_offset align) payload)
  let layout ← some_or_none (Layout.from_size_align total (chunk_align align))
  return (pad_to_align layout, layout.align)

structure RuntimeGeometry where
  size : Nat
  align : Nat
  stride : Nat
  refcount_offset : Nat
  index_offset : Nat
  slots_offset : Nat
deriving DecidableEq

namespace RuntimeGeometry

/-- The geometry of a layout of this size and alignment. -/
def new (size align : Nat) : Partly RuntimeGeometry := do
  let stride ← Geometry.stride size align
  let refcount_offset ← Geometry.refcount_offset size
  let index_offset ← Geometry.index_offset size
  let slots_offset ← Geometry.slots_offset align
  return { size, align, stride, refcount_offset, index_offset, slots_offset }

def chunk_layout (g : RuntimeGeometry) (slots : Nat) : Partly (Nat × Nat) := Geometry.chunk_layout g.size g.align slots

def slot_at (g : RuntimeGeometry) (chunk offset : Nat) : Partly Nat := do
  let first ← add 64 chunk g.slots_offset
  add 64 first (← mul 64 offset g.stride)

def header_of (g : RuntimeGeometry) (slot : Nat) (index : UInt32) : Partly Nat := do
  let back ← add 64 (← mul 64 index.toNat g.stride) g.slots_offset
  sub slot back

end RuntimeGeometry

/-! ## The parts of a chunk -/

inductive Part where
  | header
  | value (slot : Nat)
  | refcount (slot : Nat)
  | index (slot : Nat)
deriving DecidableEq

namespace Part
variable (g : RuntimeGeometry)

/-- The first byte of a part, from the base of the chunk. -/
def start : Part → Nat
  | .header => 0
  | .value i => g.slots_offset + i * g.stride
  | .refcount i => g.slots_offset + i * g.stride + g.refcount_offset
  | .index i => g.slots_offset + i * g.stride + g.index_offset

def len : Part → Nat
  | .header => HEADER
  | .value _ => g.size
  | .refcount _ | .index _ => WORD

def align : Part → Nat
  | .header => HEADER_ALIGN
  | .value _ => g.align
  | .refcount _ | .index _ => WORD

/-- A part of a chunk of so many slots. -/
def Of (slots : Nat) : Part → Prop
  | .header => True
  | .value i | .refcount i | .index i => i < slots

end Part

/-! ## Rounding up -/

/-- The least multiple of `align` from `x` on. -/
def ceil (x align : Nat) : Nat := (x + align - 1) / align * align

theorem ceil_spec (x : Nat) {align : Nat} (h : 0 < align) :
    align ∣ ceil x align ∧ x ≤ ceil x align ∧ ceil x align < x + align := by
  have hmod := Nat.mod_lt (x + align - 1) h
  have hdiv := Nat.div_add_mod' (x + align - 1) align
  unfold ceil
  exact ⟨Dvd.intro_left _ rfl, by omega, by omega⟩

theorem round_up_eq {x k : Nat} (hk : k < 64) (h : x + 2 ^ k ≤ usizeMax) : round_up x (2 ^ k) = .ok (ceil x (2 ^ k)) := by
  have hpos : 0 < 2 ^ k := Nat.two_pow_pos k
  have hsum : x + 2 ^ k < 2 ^ 64 := by unfold usizeMax at h; omega
  rw [round_up, add_ok hsum, ok_bind, sub_ok (by omega), ok_bind, sub_ok (by omega), ok_bind,
    and_complement (by omega) hk]
  rfl

theorem cell_align_pow (k : Nat) : cell_align (2 ^ k) = 2 ^ max k 2 := by
  by_cases hk : 2 < k
  · have hlt : 2 ^ 2 < 2 ^ k := Nat.pow_lt_pow_right (by decide) hk
    rw [cell_align, if_pos (by simpa [WORD] using hlt), max_eq_left (by omega)]
  · have hle : 2 ^ k ≤ 2 ^ 2 := Nat.pow_le_pow_right (by decide) (by omega)
    rw [cell_align, if_neg (by simpa [WORD] using hle), max_eq_right (by omega)]
    rfl

theorem cell_align_idem (align : Nat) : cell_align (cell_align align) = cell_align align := by
  unfold cell_align
  split
  · rfl
  · exact if_neg (Nat.lt_irrefl _)

/-- Widening takes a layout past the largest size by less than a word. -/
theorem cell_align_spec (l : Layout) : ∃ k < 64, 2 ≤ k ∧ cell_align l.align = 2 ^ k ∧ l.align ∣ 2 ^ k ∧
    l.size + 2 ^ k ≤ isizeMax + WORD := by
  obtain ⟨k, hk, hpow⟩ := l.power
  have hfits := l.fits
  have hle : 2 ^ k ≤ 2 ^ 63 := Nat.pow_le_pow_right (by decide) (by omega)
  have hpos : 0 < 2 ^ k := Nat.two_pow_pos k
  rw [hpow] at hfits ⊢
  refine ⟨max k 2, by omega, by omega, cell_align_pow k, Nat.pow_dvd_pow 2 (le_max_left k 2), ?_⟩
  unfold isizeMax WORD at *
  rcases Nat.lt_or_ge k 2 with h | h
  · rw [max_eq_right (by omega)]
    omega
  · rw [max_eq_left h]
    omega

/-! ## The formulas -/

/-- What the formulas give for a value of some size: the parts follow one another, and a slot is a multiple of its
alignment `c`. -/
structure Fits (g : RuntimeGeometry) (c : Nat) : Prop where
  refcount_dvd : WORD ∣ g.refcount_offset
  refcount_le : g.size ≤ g.refcount_offset
  index_dvd : WORD ∣ g.index_offset
  index_le : g.refcount_offset + WORD ≤ g.index_offset
  stride_dvd : c ∣ g.stride
  stride_le : g.index_offset + WORD ≤ g.stride
  slots_dvd : c ∣ g.slots_offset
  slots_le : HEADER ≤ g.slots_offset

theorem new_spec (l : Layout) : ∃ g, RuntimeGeometry.new l.size l.align = .ok g ∧ g.size = l.size ∧ g.align = l.align ∧
    stride l.size l.align = .ok g.stride ∧ slots_offset l.align = .ok g.slots_offset ∧ Fits g (cell_align l.align) := by
  obtain ⟨k, hk, h2, hcell, -, hsize⟩ := cell_align_spec l
  have hword : WORD = 2 ^ 2 := rfl
  have hle : 2 ^ k ≤ 2 ^ 63 := Nat.pow_le_pow_right (by decide) (by omega)
  have hpos : 0 < 2 ^ k := Nat.two_pow_pos k
  obtain ⟨hr1, hr2, hr3⟩ := ceil_spec l.size (by decide : 0 < WORD)
  obtain ⟨hi1, hi2, hi3⟩ := ceil_spec (ceil l.size WORD + WORD) (by decide : 0 < WORD)
  obtain ⟨hs1, hs2, -⟩ := ceil_spec (ceil (ceil l.size WORD + WORD) WORD + WORD) hpos
  obtain ⟨ho1, ho2, -⟩ := ceil_spec HEADER hpos
  have href : refcount_offset l.size = .ok (ceil l.size WORD) :=
    round_up_eq (k := 2) (by decide) (by unfold isizeMax usizeMax WORD at *; omega)
  have hindex : index_offset l.size = .ok (ceil (ceil l.size WORD + WORD) WORD) := by
    rw [index_offset, href, ok_bind, add_ok (by unfold isizeMax WORD at *; omega), ok_bind]
    exact round_up_eq (k := 2) (by decide) (by unfold isizeMax usizeMax WORD at *; omega)
  have hstride : stride l.size l.align = .ok (ceil (ceil (ceil l.size WORD + WORD) WORD + WORD) (2 ^ k)) := by
    rw [stride, hindex, ok_bind, add_ok (by unfold isizeMax WORD at *; omega), ok_bind, hcell]
    exact round_up_eq hk (by unfold isizeMax usizeMax WORD at *; omega)
  have hslots : slots_offset l.align = .ok (ceil HEADER (2 ^ k)) := by
    rw [slots_offset, hcell]
    exact round_up_eq hk (by unfold isizeMax usizeMax WORD HEADER at *; omega)
  refine ⟨_, by rw [RuntimeGeometry.new, hstride, href, hindex, hslots]; rfl, rfl, rfl, hstride, hslots, ?_⟩
  rw [hcell]
  exact ⟨hr1, hr2, hi1, hi2, hs1, hs2, ho1, ho2⟩

theorem chunk_align_dvd (l : Layout) : HEADER_ALIGN ∣ chunk_align l.align ∧ cell_align l.align ∣ chunk_align l.align := by
  obtain ⟨k, -, -, hcell, -⟩ := cell_align_spec l
  have height : HEADER_ALIGN = 2 ^ 3 := rfl
  unfold chunk_align
  rw [hcell, height]
  split
  · next h => exact ⟨dvd_rfl, Nat.pow_dvd_pow 2 (Nat.pow_lt_pow_iff_right (by decide) |>.mp h).le⟩
  · next h => exact ⟨Nat.pow_dvd_pow 2 (Nat.pow_le_pow_iff_right (by decide) |>.mp (not_lt.mp h)), dvd_rfl⟩

theorem some_or_none_ok {α : Type} {o : Option α} {a : α} : some_or_none o = .ok a ↔ o = some a := by
  cases o <;> simp [some_or_none]

theorem safe_some_or_none {α : Type} (o : Option α) : Safe (some_or_none o) := by
  cases o <;> simp [some_or_none]

variable {l : Layout} {g : RuntimeGeometry} {slots : Nat} {chunk : Nat × Nat}

theorem chunk_layout_spec (hs : stride l.size l.align = .ok g.stride) (ho : slots_offset l.align = .ok g.slots_offset)
    (h : chunk_layout l.size l.align slots = .ok chunk) :
    chunk.2 = chunk_align l.align ∧ g.slots_offset + slots * g.stride ≤ chunk.1 ∧
      g.slots_offset + slots * g.stride + chunk.2 ≤ isizeMax + 1 := by
  simp only [chunk_layout, hs, ho, bind_ok, some_or_none_ok] at h
  obtain ⟨_, ⟨⟩, payload, hpayload, _, ⟨⟩, total, htotal, layout, hlayout, ⟨⟩⟩ := h
  unfold checked_mul at hpayload
  split at hpayload <;> cases hpayload
  obtain ⟨rfl, -⟩ := checked_add_eq_some htotal
  unfold Layout.from_size_align at hlayout
  split at hlayout <;> cases hlayout
  next hvalid =>
  obtain ⟨k, hk, hpow⟩ := hvalid.1
  have hpos : 0 < chunk_align l.align := by rw [hpow]; exact Nat.two_pow_pos k
  have hle : chunk_align l.align ≤ 2 ^ 63 := by rw [hpow]; exact Nat.pow_le_pow_right (by decide) (by omega)
  have hceil := (ceil_spec (g.slots_offset + g.stride * slots) hpos).2.1
  have hfits := hvalid.2
  rw [Nat.mul_comm slots]
  refine ⟨rfl, ?_, by unfold isizeMax at *; simp only; omega⟩
  rwa [ceil, Nat.add_sub_assoc hpos] at hceil

theorem chunk_layout_safe (l : Layout) (slots : Nat) : Safe (chunk_layout l.size l.align slots) := by
  obtain ⟨g, -, -, -, hs, ho, -⟩ := new_spec l
  rw [chunk_layout, hs, ho]
  simp only [ok_bind]
  refine safe_bind (safe_some_or_none _) fun payload _ => safe_bind (safe_some_or_none _) fun total _ =>
    safe_bind (safe_some_or_none _) fun layout _ => safe_ok _

/-! ## The parts lie apart -/

theorem slot_before {i j s : Nat} (h : i < j) : i * s + s ≤ j * s :=
  Nat.succ_mul i s ▸ Nat.mul_le_mul_right s h

theorem Part.apart {c : Nat} (fits : Fits g c) {p q : Part} (h : p ≠ q) :
    p.start g + p.len g ≤ q.start g ∨ q.start g + q.len g ≤ p.start g := by
  obtain ⟨-, h1, -, h2, -, h3, -, h4⟩ := fits
  -- two slots lie one after the other, and the parts of one slot in their order
  have hslots : ∀ i j, i = j ∨ i * g.stride + g.stride ≤ j * g.stride ∨ j * g.stride + g.stride ≤ i * g.stride := fun i j =>
    (Nat.lt_trichotomy i j).elim (fun h => .inr (.inl (slot_before h)))
      (fun h => h.imp id fun h => .inr (slot_before h))
  cases p with
  | header => cases q <;> simp only [start, len] at h ⊢ <;> first | exact absurd rfl h | omega
  | value i | refcount i | index i =>
    cases q with
    | header => simp only [start, len]; omega
    | value j | refcount j | index j =>
      simp only [start, len, ne_eq, value.injEq, refcount.injEq, index.injEq, reduceCtorEq, not_false_eq_true] at h ⊢
      rcases hslots i j with rfl | h' | h' <;> first | exact absurd rfl h | omega

theorem Part.within {c size : Nat} (fits : Fits g c) (hsize : g.slots_offset + slots * g.stride ≤ size) {p : Part}
    (h : p.Of slots) : p.start g + p.len g ≤ size := by
  obtain ⟨-, h1, -, h2, -, h3, -, h4⟩ := fits
  cases p with
  | header => simp only [start, len]; omega
  | value i | refcount i | index i =>
    have := slot_before (s := g.stride) h
    simp only [start, len]
    omega

theorem Part.aligned {c whole base : Nat} (fits : Fits g c) (hword : WORD ∣ c) (hvalue : g.align ∣ c)
    (hheader : HEADER_ALIGN ∣ whole) (hcell : c ∣ whole) (hbase : whole ∣ base) (p : Part) :
    p.align g ∣ base + p.start g := by
  have hslot : ∀ i, c ∣ base + (g.slots_offset + i * g.stride) := fun i =>
    Nat.dvd_add (hcell.trans hbase) (Nat.dvd_add fits.slots_dvd (fits.stride_dvd.mul_left i))
  cases p with
  | header => exact hheader.trans hbase
  | value i => exact hvalue.trans (hslot i)
  | refcount i => simpa only [start, align, ← Nat.add_assoc] using Nat.dvd_add (hword.trans (hslot i)) fits.refcount_dvd
  | index i => simpa only [start, align, ← Nat.add_assoc] using Nat.dvd_add (hword.trans (hslot i)) fits.index_dvd

theorem slot_at_spec {base i : Nat} (hroom : base + (g.slots_offset + slots * g.stride) ≤ usizeMax + 1)
    (hpos : 0 < g.stride) (hi : i < slots) :
    g.slot_at base i = .ok (base + (Part.value i).start g) ∧
      ∀ index : UInt32, index.toNat = i → g.header_of (base + (Part.value i).start g) index = .ok base := by
  have hbefore := slot_before (s := g.stride) hi
  have hmul : i * g.stride < 2 ^ 64 := by unfold usizeMax at hroom; omega
  constructor
  · rw [RuntimeGeometry.slot_at, add_ok (by unfold usizeMax at hroom; omega), ok_bind, mul_ok hmul, ok_bind,
      add_ok (by unfold usizeMax at hroom; omega), Part.start, Nat.add_assoc]
  · rintro index rfl
    rw [RuntimeGeometry.header_of, mul_ok hmul, ok_bind, add_ok (by unfold usizeMax at hroom; omega), ok_bind,
      sub_ok (by simp only [Part.start]; omega), Part.start, Nat.add_comm (index.toNat * _), Nat.add_sub_cancel]

theorem routing_key_spec (hnew : RuntimeGeometry.new l.size l.align = .ok g) :
    RuntimeGeometry.new (routing_key l).1 (routing_key l).2 = .ok { g with align := cell_align l.align } ∧
      ∀ n, chunk_layout (routing_key l).1 (routing_key l).2 n = chunk_layout l.size l.align n := by
  have hstride : stride l.size (cell_align l.align) = stride l.size l.align := by rw [stride, cell_align_idem]; rfl
  have hslots : slots_offset (cell_align l.align) = slots_offset l.align := by rw [slots_offset, cell_align_idem]; rfl
  have hchunk : chunk_align (cell_align l.align) = chunk_align l.align := by rw [chunk_align, cell_align_idem]; rfl
  constructor
  · simp only [RuntimeGeometry.new, bind_ok] at hnew ⊢
    obtain ⟨s, hs, r, hr, i, hi, o, ho, ⟨⟩⟩ := hnew
    exact ⟨s, hstride.trans hs, r, hr, i, hi, o, hslots.trans ho, rfl⟩
  · intro n
    simp only [chunk_layout, routing_key, hstride, hslots, hchunk]

/-- For every layout of a value and every number of slots for which there is a chunk: the geometry is computed without
overflow, the header and the parts of all slots lie in the chunk, apart from one another, and are aligned where its base
is; a slot's address and index give back the chunk; and the routing key stands for the same numbers, and is itself a
layout when the chunk has a slot. -/
theorem geometry_invertible (l : Layout) (slots : Nat) (chunk : Nat × Nat)
    (h : chunk_layout l.size l.align slots = .ok chunk) :
    ∃ g, RuntimeGeometry.new l.size l.align = .ok g ∧ (∀ n, Safe (g.chunk_layout n)) ∧ g.chunk_layout slots = .ok chunk ∧
      (∀ p : Part, p.Of slots → p.start g + p.len g ≤ chunk.1) ∧
      (∀ p q : Part, p ≠ q → p.start g + p.len g ≤ q.start g ∨ q.start g + q.len g ≤ p.start g) ∧
      (∀ base, chunk.2 ∣ base → ∀ p : Part, p.align g ∣ base + p.start g) ∧
      (∀ base i, base + chunk.1 ≤ usizeMax + 1 → i < slots → g.slot_at base i = .ok (base + (Part.value i).start g) ∧
        ∀ index : UInt32, index.toNat = i → g.header_of (base + (Part.value i).start g) index = .ok base) ∧
      (∃ key, RuntimeGeometry.new (routing_key l).1 (routing_key l).2 = .ok key ∧ key.stride = g.stride ∧
        key.refcount_offset = g.refcount_offset ∧ key.index_offset = g.index_offset ∧
        key.slots_offset = g.slots_offset ∧ ∀ n, key.chunk_layout n = g.chunk_layout n) ∧
      (0 < slots → ∃ layout, Layout.from_size_align (routing_key l).1 (routing_key l).2 = some layout) := by
  obtain ⟨g, hnew, hsize, halign, hs, ho, fits⟩ := new_spec l
  obtain ⟨k, hk, h2, hcell, hvalue, -⟩ := cell_align_spec l
  obtain ⟨halign', hin, htotal⟩ := chunk_layout_spec hs ho h
  obtain ⟨hheader, hcells⟩ := chunk_align_dvd l
  obtain ⟨hkey, hchunks⟩ := routing_key_spec hnew
  have hlayout : ∀ n, g.chunk_layout n = chunk_layout l.size l.align n := fun n => by
    rw [RuntimeGeometry.chunk_layout, hsize, halign]
  refine ⟨g, hnew, fun n => hlayout n ▸ chunk_layout_safe l n, (hlayout slots).trans h, fun p => Part.within fits hin,
    fun p q => Part.apart fits, fun base hbase p => ?_, fun base i hroom hi => ?_,
    ⟨_, hkey, rfl, rfl, rfl, rfl, fun n => ?_⟩, fun hpos => ?_⟩
  · rw [halign'] at hbase
    refine Part.aligned fits ?_ ?_ hheader hcells hbase p
    · rw [hcell]
      exact Nat.pow_dvd_pow 2 h2
    · rw [halign, hcell]
      exact hvalue
  · have hroom' : base + (g.slots_offset + slots * g.stride) ≤ usizeMax + 1 := by omega
    exact slot_at_spec hroom' (Nat.lt_of_lt_of_le (by unfold WORD; omega) fits.stride_le) hi
  · rw [hlayout, ← hchunks n, RuntimeGeometry.chunk_layout, hsize]
    rfl
  · have hone : g.stride ≤ slots * g.stride := Nat.le_mul_of_pos_left _ hpos
    have hle : cell_align l.align ≤ chunk.2 := by
      rw [halign', chunk_align]
      split <;> omega
    have hroom : l.size ≤ isizeMax + 1 - cell_align l.align := by
      have := fits.refcount_le
      have := fits.index_le
      have := fits.stride_le
      omega
    exact ⟨_, dif_pos ⟨⟨k, hk, hcell⟩, hroom⟩⟩

/-- Five slots for values of three bytes. -/
theorem geometry_invertible_bytes :
    let l : Layout := ⟨3, 1, ⟨0, by decide, rfl⟩, by decide⟩
    let g : RuntimeGeometry := ⟨3, 1, 12, 4, 8, 16⟩
    chunk_layout l.size l.align 5 = .ok (80, 8) ∧ g.slot_at 4096 4 = .ok 4160 ∧ g.header_of 4160 4 = .ok 4096 := by
  intro l g
  have h : chunk_layout l.size l.align 5 = .ok (80, 8) := by decide +kernel
  have hg : RuntimeGeometry.new l.size l.align = .ok g := by decide +kernel
  obtain ⟨_, hnew, -, -, -, -, -, hslots, -⟩ := geometry_invertible l 5 (80, 8) h
  obtain rfl := Except.ok.inj (hg.symm.trans hnew)
  obtain ⟨hslot, hheader⟩ := hslots 4096 4 (by decide) (by decide)
  exact ⟨h, hslot, hheader 4 rfl⟩

end Plurality.Geometry
