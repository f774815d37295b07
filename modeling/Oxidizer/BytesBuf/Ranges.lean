import Oxidizer.BytesBuf.Writes
/-!
# Ranges of a view

`range_checked` cuts a range out of a view. A range within the first span is a part of
that span; any other is found in two passes over the spans, the first of which looks for
the spans that the range touches, and the second takes them from the last to the first.
-/

namespace Bytesbuf

open Lib List Bytesbuf.Span

/-! ## The code -/

inductive Bound where
  | included (x : Nat)
  | excluded (x : Nat)
  | unbounded
deriving DecidableEq

def Bound.Fits (max : Nat) : Bound → Prop
  | .included x => x ≤ max
  | .excluded x => x ≤ max
  | .unbounded => True

/-- The bytes before the range and those in it, in the integers up to `max`. -/
def range_of (max len : Nat) (start stop : Bound) : Option (Nat × Nat) := do
  let checked_succ (x : Nat) : Option Nat := if x + 1 ≤ max then some (x + 1) else none
  let bytes_until_range ← match start with
    | .included x => some x
    | .excluded x => checked_succ x
    | .unbounded => some 0
  let bytes_in_range ← match stop with
    | .included x => do checked_sub (← checked_succ x) bytes_until_range
    | .excluded x => checked_sub x bytes_until_range
    | .unbounded => checked_sub len bytes_until_range
  pure (bytes_until_range, bytes_in_range)

def as_block_size (n : Nat) : Nat := n % (blockSizeMax + 1)

/-- The `len` bytes of a span from `start` on. -/
def Span.part (s : Span) (start len : Nat) : Span :=
  ⟨(s.bytes.drop start).take len, by have := s.fits; rw [List.length_take, List.length_drop]; omega⟩

theorem Span.part_bytes (s : Span) (start len : Nat) : (s.part start len).bytes = (s.bytes.drop start).take len := rfl

theorem Span.part_ne_nil {s : Span} {start len : Nat} (hs : start < s.len) (hl : 0 < len) : (s.part start len).bytes ≠ [] := by
  have hlen : s.bytes.length = s.len := rfl
  apply length_pos_iff.mp
  rw [part_bytes, length_take, length_drop]
  omega

def Span.slice_checked (s : Span) (start stop : Bound) : Option Span := do
  let (bytes_until_range, bytes_in_range) ← range_of blockSizeMax s.len start stop
  let required_len := as_block_size (bytes_until_range + bytes_in_range)
  if required_len > s.len then none else some (s.part bytes_until_range bytes_in_range)

inductive RangeSite where
  | required_overflow
  | spans_overflow
  | negative_until_range
  | offset_outside_block
  | negative_in_span
  | negative_in_range
  | negative_remaining
  | slice_overflow
  | slice_out_of_bounds
deriving DecidableEq

def expected {α : Type} (site : RangeSite) : Option α → Except RangeSite α
  | some a => .ok a
  | none => .error site

@[simp] theorem expected_some {α : Type} (site : RangeSite) (a : α) : expected site (some a) = .ok a := rfl

def Span.slice_range (s : Span) (start stop : Nat) : Except RangeSite Span :=
  expected .slice_out_of_bounds (s.slice_checked (.included start) (.excluded stop))

/-- A view as the code puts it together: nothing says yet that `len` is the length of the spans. -/
structure ViewParts where
  spans_reversed : List Span
  len : Nat
deriving DecidableEq

def BytesView.parts (v : BytesView) : ViewParts := ⟨v.spans_reversed, v.len⟩

structure Pass1 where
  spans_until_range : Nat
  spans_in_range : Nat
  bytes_to_skip_in_first_relevant_span : Nat
  bytes_to_leave_in_last_relevant_span : Nat
  bytes_until_range : Nat
  bytes_in_range : Nat
deriving DecidableEq

/-- A span that the range touches. -/
def Pass1.enter (st : Pass1) (span : Span) : Except RangeSite Pass1 := do
  let bytes_until_range ← expected .offset_outside_block
    (if st.bytes_until_range ≤ blockSizeMax then some st.bytes_until_range else none)
  let (skip, leave) ←
    if st.bytes_until_range ≠ 0 then do
      let leave ← expected .negative_in_span (checked_sub span.len bytes_until_range)
      pure (bytes_until_range, leave)
    else pure (st.bytes_to_skip_in_first_relevant_span, span.len)
  let rest_of_span ← expected .negative_in_span (checked_sub span.len bytes_until_range)
  let relevant_bytes_in_span := as_block_size (min rest_of_span st.bytes_in_range)
  let leave ← expected .negative_in_span (checked_sub leave relevant_bytes_in_span)
  let spans_in_range ← expected .spans_overflow (checked_add st.spans_in_range 1)
  let bytes_in_range ← expected .negative_in_range (checked_sub st.bytes_in_range relevant_bytes_in_span)
  pure ⟨st.spans_until_range, spans_in_range, skip, leave, 0, bytes_in_range⟩

def pass1 : List Span → Pass1 → Except RangeSite Pass1
  | [], st => pure st
  | span :: rest, st =>
    if 0 < st.bytes_until_range ∧ span.len ≤ st.bytes_until_range then do
      let spans_until_range ← expected .spans_overflow (checked_add st.spans_until_range 1)
      let bytes_until_range ← expected .negative_until_range (checked_sub st.bytes_until_range span.len)
      pass1 rest { st with spans_until_range, bytes_until_range }
    else do
      let st ← st.enter span
      if st.bytes_in_range = 0 then pure st else pass1 rest st

structure Pass2 where
  bytes_remaining_in_range : Nat
  bytes_to_leave_in_last_relevant_span : Nat
  bytes_to_skip_in_first_relevant_span : Nat
deriving DecidableEq

/-- What the range leaves in its last span is not considered. -/
def Pass2.bytes_to_even_consider (st : Pass2) (span : Span) : Except RangeSite Nat :=
  if st.bytes_to_leave_in_last_relevant_span > 0 then
    expected .negative_in_span (checked_sub span.len st.bytes_to_leave_in_last_relevant_span)
  else pure span.len

/-- The part of a span that is in the range. A span that can supply all that remains is taken for the first one. -/
def Pass2.take (st : Pass2) (span : Span) : Except RangeSite (Span × Pass2) := do
  let bytes_to_even_consider ← st.bytes_to_even_consider span
  let max_take_bytes := as_block_size (min bytes_to_even_consider st.bytes_remaining_in_range)
  if st.bytes_remaining_in_range ≤ max_take_bytes ∧ st.bytes_to_skip_in_first_relevant_span > 0 then do
    let skip := st.bytes_to_skip_in_first_relevant_span
    let remainder_in_span ← expected .negative_in_span (checked_sub bytes_to_even_consider skip)
    let max_take_bytes := min max_take_bytes remainder_in_span
    let remaining ← expected .negative_remaining (checked_sub st.bytes_remaining_in_range max_take_bytes)
    let stop ← expected .slice_overflow (if skip + max_take_bytes ≤ blockSizeMax then some (skip + max_take_bytes) else none)
    let slice ← span.slice_range skip stop
    pure (slice, ⟨remaining, 0, 0⟩)
  else do
    let remaining ← expected .negative_remaining (checked_sub st.bytes_remaining_in_range max_take_bytes)
    let slice ← span.slice_range 0 max_take_bytes
    pure (slice, ⟨remaining, 0, st.bytes_to_skip_in_first_relevant_span⟩)

def pass2 : List Span → Pass2 → Except RangeSite (List Span)
  | [], _ => pure []
  | span :: rest, st => do
    let (slice, st) ← st.take span
    let slices ← pass2 rest st
    pure (slice :: slices)

namespace BytesView

def range_general (v : BytesView) (bytes_until_range bytes_in_range : Nat) : Except RangeSite ViewParts := do
  let spans := v.spans_reversed.reverse
  let st ← pass1 spans ⟨0, 0, 0, 0, bytes_until_range, bytes_in_range⟩
  let relevant_spans := (spans.drop st.spans_until_range).take st.spans_in_range
  let slice_spans ← pass2 relevant_spans.reverse
    ⟨bytes_in_range, st.bytes_to_leave_in_last_relevant_span, st.bytes_to_skip_in_first_relevant_span⟩
  pure ⟨slice_spans, bytes_in_range⟩

/-- The sub-slice of the first span, if the range lies within it. -/
def range_first (v : BytesView) (bytes_until_range bytes_in_range required_len : Nat) : Option (Except RangeSite ViewParts) :=
  match v.spans_reversed.getLast? with
  | some first =>
    if required_len ≤ first.len then some do
      let slice ← first.slice_range (as_block_size bytes_until_range) (as_block_size required_len)
      pure ⟨[slice], bytes_in_range⟩
    else none
  | none => none

def range_checked (v : BytesView) (start stop : Bound) : Except RangeSite (Option ViewParts) := do
  match range_of usizeMax v.len start stop with
  | none => pure none
  | some (bytes_until_range, bytes_in_range) =>
    let required_len ← expected .required_overflow (checked_add bytes_until_range bytes_in_range)
    if required_len > v.len then pure none
    else if bytes_in_range = 0 then pure (some ⟨[], 0⟩)
    else
      let result ← (v.range_first bytes_until_range bytes_in_range required_len).getD
        (v.range_general bytes_until_range bytes_in_range)
      pure (some result)

/-- What the constructors of a view keep: no span is empty, and the length is a `usize`. -/
structure Valid (v : BytesView) : Prop where
  spans_nonempty : ∀ span ∈ v.spans_reversed, span.bytes ≠ []
  bounded : v.len ≤ usizeMax

end BytesView

/-! ## One span -/

variable {n : Nat}

theorem as_block_size_of_le (h : n ≤ blockSizeMax) : as_block_size n = n := Nat.mod_eq_of_lt (by omega)

theorem Span.slice_range_eq (s : Span) {start stop : Nat} (h : start ≤ stop) (hs : stop ≤ s.len) :
    s.slice_range start stop = .ok (s.part start (stop - start)) := by
  have hfits : s.len ≤ blockSizeMax := s.fits
  have hsum : as_block_size (start + (stop - start)) = stop := by
    rw [Nat.add_sub_cancel' h, as_block_size_of_le (by omega)]
  simp only [slice_range, slice_checked, range_of, checked_sub_of_le h, Option.bind_eq_bind, Option.bind_some, hsum, pure]
  rw [if_neg (by omega), expected_some]

/-- The spans of a range: `before` it, in it and `after` it, with what is outside of it in the first and the last one. -/
structure Touched (spans before relevant after : List Span) (until_range in_range skip leave : Nat) : Prop where
  spans_eq : spans = before ++ (relevant ++ after)
  nonempty : relevant ≠ []
  until_eq : until_range = (before.map Span.len).sum + skip
  in_eq : skip + in_range + leave = (relevant.map Span.len).sum
  skip_lt : ∀ first ∈ relevant.head?, skip < first.len
  leave_lt : ∀ last ∈ relevant.getLast?, leave < last.len

variable {span : Span}

theorem Pass1.enter_eq (st : Pass1) (hu : st.bytes_until_range < span.len)
    (hc : st.spans_in_range + 1 ≤ usizeMax) :
    st.enter span = .ok ⟨st.spans_until_range, st.spans_in_range + 1,
      if st.bytes_until_range ≠ 0 then st.bytes_until_range else st.bytes_to_skip_in_first_relevant_span,
      span.len - st.bytes_until_range - min (span.len - st.bytes_until_range) st.bytes_in_range, 0,
      st.bytes_in_range - min (span.len - st.bytes_until_range) st.bytes_in_range⟩ := by
  have hfits : span.len ≤ blockSizeMax := span.fits
  have hmin : as_block_size (min (span.len - st.bytes_until_range) st.bytes_in_range) =
      min (span.len - st.bytes_until_range) st.bytes_in_range := as_block_size_of_le (by omega)
  have hb : st.bytes_until_range ≤ blockSizeMax := by omega
  unfold enter
  by_cases h0 : st.bytes_until_range = 0
  · have hz : checked_sub span.len 0 = some span.len := checked_sub_of_le (Nat.zero_le _)
    simp only [h0, Nat.sub_zero] at hmin ⊢
    simp [hz, hmin, checked_sub_of_le (Nat.min_le_left _ _), checked_sub_of_le (Nat.min_le_right _ _), checked_add_of_le hc,
      bind, Except.bind, pure, Except.pure]
  · simp [h0, hb, hmin, checked_sub_of_le (Nat.le_of_lt hu), checked_sub_of_le (Nat.min_le_left _ _),
      checked_sub_of_le (Nat.min_le_right _ _), checked_add_of_le hc, bind, Except.bind, pure, Except.pure]

/-! ## The first pass -/

variable {spans : List Span}

/-- Once the range has begun, spans are in it until its bytes are used up. -/
theorem pass1_inside (hne : ∀ span ∈ spans, span.bytes ≠ []) (a b skip leave₀ : Nat) (hn : 0 < n)
    (hsum : n ≤ (spans.map Span.len).sum) (hb : b + spans.length ≤ usizeMax) :
    ∃ relevant after leave, spans = relevant ++ after ∧ relevant ≠ [] ∧
      pass1 spans ⟨a, b, skip, leave₀, 0, n⟩ = .ok ⟨a, b + relevant.length, skip, leave, 0, 0⟩ ∧
      n + leave = (relevant.map Span.len).sum ∧ ∀ last ∈ relevant.getLast?, leave < last.len := by
  induction spans generalizing b leave₀ n with
  | nil => exact absurd hsum (Nat.not_le.mpr hn)
  | cons span rest ih =>
    have hpos : 0 < span.len := length_pos_iff.mpr (hne span (mem_cons_self ..))
    rw [length_cons] at hb
    rw [map_cons, sum_cons] at hsum
    have henter := Pass1.enter_eq ⟨a, b, skip, leave₀, 0, n⟩ hpos (by show b + 1 ≤ usizeMax; omega)
    simp only [Nat.sub_zero, ne_eq, not_true_eq_false, if_false] at henter
    unfold pass1
    rw [if_neg (fun h => Nat.lt_irrefl 0 h.1), henter]
    simp only [bind, Except.bind]
    by_cases hlast : n ≤ span.len
    · rw [Nat.min_eq_right hlast, Nat.sub_self, if_pos rfl]
      refine ⟨[span], rest, span.len - n, rfl, by simp, rfl, ?_, ?_⟩
      · rw [map_singleton, sum_singleton]; omega
      · rintro last ⟨⟩
        show span.len - n < span.len
        omega
    · rw [Nat.min_eq_left (by omega), if_neg (by omega)]
      obtain ⟨relevant, after, leave, rfl, hrel, hpass, hlen, hleave⟩ :=
        ih (fun s hs => hne s (mem_cons_of_mem _ hs)) (b + 1) (span.len - span.len) (n := n - span.len)
          (by omega) (by omega) (by omega)
      refine ⟨span :: relevant, after, leave, rfl, by simp, ?_, ?_, ?_⟩
      · rw [hpass, length_cons, Nat.add_assoc, Nat.add_comm 1]
      · rw [map_cons, sum_cons]; omega
      · rw [getLast?_cons_of_ne_nil hrel]
        exact hleave

theorem pass1_spec (hne : ∀ span ∈ spans, span.bytes ≠ []) {a u : Nat} (hn : 0 < n)
    (hsum : u + n ≤ (spans.map Span.len).sum) (ha : a + spans.length ≤ usizeMax) :
    ∃ before relevant after skip leave, Touched spans before relevant after u n skip leave ∧
      pass1 spans ⟨a, 0, 0, 0, u, n⟩ = .ok ⟨a + before.length, relevant.length, skip, leave, 0, 0⟩ := by
  induction spans generalizing a u with
  | nil => exact absurd hsum (by rw [map_nil, sum_nil]; omega)
  | cons span rest ih =>
    have hpos : 0 < span.len := length_pos_iff.mpr (hne span (mem_cons_self ..))
    have hrest : ∀ s ∈ rest, s.bytes ≠ [] := fun s hs => hne s (mem_cons_of_mem _ hs)
    rw [length_cons] at ha
    rw [map_cons, sum_cons] at hsum
    unfold pass1
    split
    · -- the whole span is before the range
      rename_i hskip
      obtain ⟨hu, hle⟩ := hskip
      dsimp only at hu hle
      obtain ⟨before, relevant, after, skip, leave, htouched, hpass⟩ :=
        ih hrest (a := a + 1) (u := u - span.len) (by omega) (by omega)
      rw [checked_add_of_le (show a + 1 ≤ usizeMax by omega), checked_sub_of_le hle, expected_some, expected_some]
      refine ⟨span :: before, relevant, after, skip, leave, ⟨?_, htouched.nonempty, ?_, htouched.in_eq, htouched.skip_lt,
        htouched.leave_lt⟩, ?_⟩
      · rw [htouched.spans_eq]; rfl
      · have := htouched.until_eq
        rw [map_cons, sum_cons]; omega
      · rw [length_cons, Nat.add_comm before.length, ← Nat.add_assoc]
        exact hpass
    · rename_i hskip
      dsimp only at hskip
      have hu : u < span.len := by omega
      have henter := Pass1.enter_eq ⟨a, 0, 0, 0, u, n⟩ hu (by show 0 + 1 ≤ usizeMax; omega)
      have hif : (if u ≠ 0 then u else 0) = u := by split <;> omega
      simp only [hif] at henter
      rw [henter]
      simp only [bind, Except.bind]
      by_cases hlast : n ≤ span.len - u
      · -- and the range ends in it
        rw [Nat.min_eq_right hlast, Nat.sub_self, if_pos rfl]
        refine ⟨[], [span], rest, u, span.len - u - n, ⟨rfl, by simp, by simp, ?_, ?_, ?_⟩, rfl⟩
        · rw [map_singleton, sum_singleton]; omega
        · rintro first ⟨⟩
          exact hu
        · rintro last ⟨⟩
          show span.len - u - n < span.len
          omega
      · rw [Nat.min_eq_left (by omega), if_neg (by omega)]
        obtain ⟨relevant, after, leave, rfl, hrel, hpass, hlen, hleave⟩ :=
          pass1_inside hrest a (0 + 1) u (span.len - u - (span.len - u))
            (n := n - (span.len - u)) (by omega) (by omega) (by omega)
        refine ⟨[], span :: relevant, after, u, leave, ⟨rfl, by simp, by simp, ?_, ?_, ?_⟩, ?_⟩
        · rw [map_cons, sum_cons]; omega
        · rintro first ⟨⟩
          exact hu
        · rw [getLast?_cons_of_ne_nil hrel]
          exact hleave
        · rw [hpass, length_cons, Nat.add_comm relevant.length]
          rfl

/-! ## The second pass -/

theorem Pass2.bytes_to_even_consider_eq {st : Pass2} (h : st.bytes_to_leave_in_last_relevant_span ≤ span.len) :
    st.bytes_to_even_consider span = .ok (span.len - st.bytes_to_leave_in_last_relevant_span) := by
  unfold bytes_to_even_consider
  split
  · rw [checked_sub_of_le h, expected_some]
  · rw [show st.bytes_to_leave_in_last_relevant_span = 0 by omega]
    rfl

theorem Pass2.take_first (span : Span) (n leave skip : Nat) (hsum : skip + n + leave = span.len) :
    ∃ st, Pass2.take ⟨n, leave, skip⟩ span = .ok (span.part skip n, st) := by
  have hfits : span.len ≤ blockSizeMax := span.fits
  have hconsider : Pass2.bytes_to_even_consider ⟨n, leave, skip⟩ span = .ok (skip + n) := by
    rw [Pass2.bytes_to_even_consider_eq (show leave ≤ span.len by omega), ← hsum, Nat.add_sub_cancel]
  have hmin : as_block_size (min (skip + n) n) = n := by
    rw [Nat.min_eq_right (by omega), as_block_size_of_le (by omega)]
  unfold take
  simp only [hconsider, bind, Except.bind, hmin]
  split
  · have hpart := span.slice_range_eq (show skip ≤ skip + n by omega) (by omega)
    rw [checked_sub_of_le (by omega), expected_some, Nat.add_sub_cancel_left]
    simp only [Nat.min_self, checked_sub_of_le (Nat.le_refl n), expected_some, if_pos (show skip + n ≤ blockSizeMax by omega),
      hpart, Nat.add_sub_cancel_left]
    exact ⟨_, rfl⟩
  · rename_i hskip
    have hskip : skip = 0 := by
      by_contra h
      exact hskip ⟨Nat.le_refl n, by omega⟩
    subst hskip
    have hpart := span.slice_range_eq (Nat.zero_le n) (by omega)
    simp only [checked_sub_of_le (Nat.le_refl n), expected_some, hpart, Nat.sub_zero]
    exact ⟨_, rfl⟩

theorem Pass2.take_later {leave skip : Nat} (hleave : leave < span.len) (hn : span.len - leave < n) :
    Pass2.take ⟨n, leave, skip⟩ span = .ok (span.part 0 (span.len - leave), ⟨n - (span.len - leave), 0, skip⟩) := by
  have hfits : span.len ≤ blockSizeMax := span.fits
  have hconsider : Pass2.bytes_to_even_consider ⟨n, leave, skip⟩ span = .ok (span.len - leave) :=
    Pass2.bytes_to_even_consider_eq (Nat.le_of_lt hleave)
  have hmin : as_block_size (min (span.len - leave) n) = span.len - leave := by
    rw [Nat.min_eq_left (by omega), as_block_size_of_le (by omega)]
  have hpart := span.slice_range_eq (Nat.zero_le (span.len - leave)) (by omega)
  unfold take
  simp only [hconsider, bind, Except.bind, hmin]
  rw [if_neg (fun h => by have := h.1; omega)]
  simp only [checked_sub_of_le (Nat.le_of_lt hn), expected_some, hpart, Nat.sub_zero]
  rfl

/-- The spans are taken from the last to the first, here in the order of storage. -/
theorem pass2_spec (hne : ∀ span ∈ spans, span.bytes ≠ []) (hnil : spans ≠ []) {leave skip : Nat}
    (hn : 0 < n) (hsum : skip + n + leave = (spans.map Span.len).sum) (hskip : ∀ first ∈ spans.getLast?, skip < first.len)
    (hleave : ∀ last ∈ spans.head?, leave < last.len) :
    ∃ slices, pass2 spans ⟨n, leave, skip⟩ = .ok slices ∧ (∀ slice ∈ slices, slice.bytes ≠ []) ∧
      slices.reverse.flatMap Span.bytes = ((spans.reverse.flatMap Span.bytes).drop skip).take n := by
  induction spans generalizing n leave with
  | nil => exact absurd rfl hnil
  | cons span rest ih =>
    have hlast := hleave span rfl
    have hpos : 0 < span.len := length_pos_iff.mpr (hne span (mem_cons_self ..))
    rw [map_cons, sum_cons] at hsum
    unfold pass2
    rcases rest with _ | ⟨span', rest⟩
    · obtain ⟨st, htake⟩ := Pass2.take_first span n leave skip (by simpa using hsum)
      rw [htake]
      refine ⟨[span.part skip n], rfl, ?_, by simp [part_bytes]⟩
      intro slice hslice
      cases mem_singleton.mp hslice
      exact part_ne_nil (hskip span rfl) hn
    · have hskip' : ∀ first ∈ (span' :: rest).getLast?, skip < first.len := hskip
      have hfirst : skip < ((span' :: rest).map len).sum := by
        have hlt := hskip' _ (getLast?_eq_some_getLast (cons_ne_nil span' rest))
        have hmem : ((span' :: rest).getLast (cons_ne_nil span' rest)).len ∈ (span' :: rest).map len :=
          mem_map_of_mem (getLast_mem _)
        exact Nat.lt_of_lt_of_le hlt (le_sum_of_mem hmem)
      have hrest : ∀ s ∈ span' :: rest, s.bytes ≠ [] := fun s hs => hne s (mem_cons_of_mem _ hs)
      rw [Pass2.take_later hlast (by omega)]
      obtain ⟨slices, hpass, hslices, hbytes⟩ := ih hrest (by simp) (n := n - (span.len - leave)) (by omega)
        (show skip + (n - (span.len - leave)) + 0 = _ by omega) hskip' (by rintro last ⟨⟩; exact length_pos_iff.mpr (hrest span' (mem_cons_self ..)))
      simp only [bind, Except.bind, hpass]
      refine ⟨span.part 0 (span.len - leave) :: slices, rfl, ?_, ?_⟩
      · intro slice hslice
        rcases mem_cons.mp hslice with rfl | hslice
        · exact part_ne_nil hpos (by omega)
        · exact hslices slice hslice
      · have hlen : ((span' :: rest).reverse.flatMap bytes).length = ((span' :: rest).map len).sum := by
          rw [length_spans, map_reverse, sum_reverse]
        rw [reverse_cons, flatMap_append, hbytes, reverse_cons (a := span), flatMap_append,
          flatMap_singleton, flatMap_singleton, drop_append_of_le_length (by omega), take_append,
          length_drop, hlen, part_bytes, drop_zero]
        congr 1
        · rw [take_of_length_le (by rw [length_drop, hlen]; omega), take_of_length_le (by rw [length_drop, hlen]; omega)]
        · congr 1
          omega

/-! ## The whole function -/

namespace BytesView

variable {v : BytesView}

theorem Valid.count (h : v.Valid) : v.spans_reversed.length ≤ usizeMax := by
  have hle : v.spans_reversed.length ≤ (v.spans_reversed.map Span.len).sum := by
    have := length_le_sum_of_one_le (v.spans_reversed.map Span.len) (by
      intro n hn
      obtain ⟨span, hspan, rfl⟩ := mem_map.mp hn
      exact length_pos_iff.mpr (h.spans_nonempty span hspan))
    rwa [length_map] at this
  have := h.bounded
  rw [v.len_eq] at this
  omega

theorem range_general_spec (h : v.Valid) {u n : Nat} (hn : 0 < n) (hsum : u + n ≤ v.len) :
    ∃ slices, v.range_general u n = .ok ⟨slices, n⟩ ∧ (∀ slice ∈ slices, slice.bytes ≠ []) ∧
      slices.reverse.flatMap Span.bytes = (v.bytes.drop u).take n := by
  have hne : ∀ span ∈ v.spans_reversed.reverse, span.bytes ≠ [] :=
    fun span hspan => h.spans_nonempty span (mem_reverse.mp hspan)
  have hlen : u + n ≤ (v.spans_reversed.reverse.map Span.len).sum := by
    rw [map_reverse, sum_reverse, ← v.len_eq]; exact hsum
  obtain ⟨before, relevant, after, skip, leave, ht, hpass1⟩ := pass1_spec hne hn hlen (a := 0)
    (by rw [length_reverse, Nat.zero_add]; exact h.count)
  have hrel : ((v.spans_reversed.reverse.drop (0 + before.length)).take relevant.length) = relevant := by
    rw [ht.spans_eq, Nat.zero_add, drop_left, take_left]
  have hmem : ∀ span ∈ relevant.reverse, span.bytes ≠ [] := by
    intro span hspan
    refine hne span ?_
    rw [ht.spans_eq]
    simp [mem_reverse.mp hspan]
  obtain ⟨slices, hpass2, hslices, hbytes⟩ := pass2_spec hmem (by simpa using ht.nonempty) hn
    (by rw [map_reverse, sum_reverse]; exact ht.in_eq)
    (by rw [getLast?_reverse]; exact ht.skip_lt) (by rw [head?_reverse]; exact ht.leave_lt)
  refine ⟨slices, ?_, hslices, ?_⟩
  · simp only [range_general, hpass1, bind, Except.bind, hrel, hpass2]
    rfl
  · have hbefore : (before.flatMap Span.bytes).length = (before.map Span.len).sum := length_spans before
    have hin : (relevant.flatMap Span.bytes).length = (relevant.map Span.len).sum := length_spans relevant
    have hlast := ht.in_eq
    rw [hbytes, reverse_reverse, BytesView.bytes, ht.spans_eq, flatMap_append, flatMap_append, ht.until_eq,
      ← hbefore, drop_length_add_append, drop_append_of_le_length (by omega),
      take_append_of_le_length (by rw [length_drop]; omega)]

theorem range_first_eq_general {u n : Nat} (hn : 0 < n) {r : Except RangeSite ViewParts}
    (hr : v.range_first u n (u + n) = some r) : v.range_general u n = r := by
  unfold range_first at hr
  split at hr
  · rename_i first hfirst
    split at hr
    · rename_i hle
      cases hr
      have hfits : first.len ≤ blockSizeMax := first.fits
      have hspans : ∃ rest, v.spans_reversed.reverse = first :: rest := by
        obtain ⟨init, hinit⟩ := getLast?_eq_some_iff.mp hfirst
        exact ⟨init.reverse, by rw [hinit, reverse_append]; rfl⟩
      obtain ⟨rest, hspans⟩ := hspans
      have hbound : (0 : Nat) + 1 ≤ usizeMax := by decide
      have henter := Pass1.enter_eq ⟨0, 0, 0, 0, u, n⟩ (show u < first.len by omega) hbound
      have hif : (if u ≠ 0 then u else 0) = u := by split <;> omega
      simp only [hif, Nat.min_eq_right (show n ≤ first.len - u by omega), Nat.sub_self] at henter
      have hpass1 : pass1 (first :: rest) ⟨0, 0, 0, 0, u, n⟩ = .ok ⟨0, 0 + 1, u, first.len - u - n, 0, 0⟩ := by
        unfold pass1
        rw [if_neg (show ¬(0 < u ∧ first.len ≤ u) by omega), henter]
        rfl
      obtain ⟨st, htake⟩ := Pass2.take_first first n (first.len - u - n) u (by omega)
      rw [as_block_size_of_le (by omega), as_block_size_of_le (by omega), slice_range_eq _ (by omega) hle,
        Nat.add_sub_cancel_left]
      have hpass2 : pass2 [first] ⟨n, first.len - u - n, u⟩ = .ok [first.part u n] := by
        simp only [pass2, htake, bind, Except.bind]
        rfl
      have hrel : ((first :: rest).drop 0).take (0 + 1) = [first] := rfl
      simp only [range_general, hspans, hpass1, bind, Except.bind, hrel, reverse_singleton, hpass2]
    · cases hr
  · cases hr

end BytesView

/-- The first position that a start bound admits. -/
def Bound.first : Bound → Nat
  | .included x => x
  | .excluded x => x + 1
  | .unbounded => 0

/-- The first position that an end bound excludes, in a view of `len` bytes. -/
def Bound.past (len : Nat) : Bound → Nat
  | .included x => x + 1
  | .excluded x => x
  | .unbounded => len

/-- The range in a view of `len` bytes can be computed, and lies in the view. -/
structure InRange (len : Nat) (start stop : Bound) : Prop where
  start_fits : start.first ≤ usizeMax
  stop_fits : stop.past len ≤ usizeMax
  order : start.first ≤ stop.past len
  within : stop.past len ≤ len

theorem range_of_eq {len : Nat} {start stop : Bound} (hstart : start.Fits usizeMax) (hstop : stop.Fits usizeMax)
    (hlen : len ≤ usizeMax) :
    range_of usizeMax len start stop =
      if start.first ≤ usizeMax ∧ stop.past len ≤ usizeMax ∧ start.first ≤ stop.past len then
        some (start.first, stop.past len - start.first) else none := by
  cases start <;> cases stop <;> simp only [Bound.Fits] at hstart hstop <;>
    simp only [range_of, Bound.first, Bound.past, checked_sub, Option.bind_eq_bind] <;> grind

/-- A range is found exactly when it can be computed and lies in the view; the result has its bytes, in spans that are not
empty, and the length of the range. Neither path panics, and where both apply they give the same. -/
theorem range_checked_exact (v : BytesView) (hv : v.Valid) (start stop : Bound) (hstart : start.Fits usizeMax)
    (hstop : stop.Fits usizeMax) :
    (¬InRange v.len start stop → v.range_checked start stop = .ok none) ∧
    (InRange v.len start stop → ∃ r : BytesView, v.range_checked start stop = .ok (some r.parts) ∧
      r.bytes = (v.bytes.drop start.first).take (stop.past v.len - start.first) ∧
      (∀ span ∈ r.spans_reversed, span.bytes ≠ []) ∧ r.len = stop.past v.len - start.first ∧
      (start.first < stop.past v.len →
        v.range_general start.first (stop.past v.len - start.first) = .ok r.parts)) := by
  have hlen := hv.bounded
  unfold BytesView.range_checked
  rw [range_of_eq hstart hstop hlen]
  refine ⟨?_, ?_⟩
  · intro hout
    by_cases hrange : start.first ≤ usizeMax ∧ stop.past v.len ≤ usizeMax ∧ start.first ≤ stop.past v.len
    · have hpast : v.len < stop.past v.len := by
        by_contra hle
        exact hout ⟨hrange.1, hrange.2.1, hrange.2.2, Nat.le_of_not_lt hle⟩
      rw [if_pos hrange]
      simp only [Nat.add_sub_cancel' hrange.2.2, checked_add, if_pos hrange.2.1, expected_some, bind, Except.bind]
      rw [if_pos hpast]
      rfl
    · rw [if_neg hrange]
      rfl
  · intro hin
    obtain ⟨hfirst, hpast, horder, hwithin⟩ := hin
    rw [if_pos ⟨hfirst, hpast, horder⟩]
    simp only [Nat.add_sub_cancel' horder, checked_add, if_pos hpast, expected_some, bind, Except.bind]
    rw [if_neg (by omega)]
    by_cases hempty : stop.past v.len - start.first = 0
    · rw [if_pos hempty]
      refine ⟨⟨[], 0, rfl⟩, rfl, by rw [hempty]; rfl, by simp, hempty.symm, fun hlt => absurd hempty (by omega)⟩
    · rw [if_neg hempty]
      have hsum : start.first + (stop.past v.len - start.first) ≤ v.len := by omega
      obtain ⟨slices, hgeneral, hne, hbytes⟩ := BytesView.range_general_spec hv (Nat.pos_of_ne_zero hempty) hsum
      have hboth : (v.range_first start.first (stop.past v.len - start.first) (stop.past v.len)).getD
          (v.range_general start.first (stop.past v.len - start.first)) = .ok ⟨slices, stop.past v.len - start.first⟩ := by
        cases hr : v.range_first start.first (stop.past v.len - start.first) (stop.past v.len) with
        | none => exact hgeneral
        | some r =>
          rw [← hgeneral]
          refine (BytesView.range_first_eq_general (Nat.pos_of_ne_zero hempty) ?_).symm
          rw [Nat.add_sub_cancel' horder]
          exact hr
      have hcount : stop.past v.len - start.first = (slices.map len).sum := by
        have := congrArg List.length hbytes
        rw [length_spans, map_reverse, sum_reverse, length_take, length_drop, v.length_bytes] at this
        omega
      exact ⟨⟨slices, _, hcount⟩, by rw [hboth]; rfl, hbytes, hne, rfl, fun _ => hgeneral⟩

/-- A range over two spans: the last byte of one and the first of the other. -/
theorem range_checked_exact_two_spans :
    ∃ r : BytesView, BytesView.range_checked ⟨[⟨[3, 4], by decide⟩, ⟨[1, 2], by decide⟩], 4, rfl⟩ (.included 1) (.excluded 3) =
      .ok (some r.parts) ∧ r.bytes = [2, 3] := by
  have h := range_checked_exact ⟨[⟨[3, 4], by decide⟩, ⟨[1, 2], by decide⟩], 4, rfl⟩ ⟨by decide, by decide⟩
    (.included 1) (.excluded 3) (by show 1 ≤ usizeMax; decide) (by show 3 ≤ usizeMax; decide)
  obtain ⟨r, hr, hbytes, -⟩ := h.2 ⟨by decide, by decide, by decide, by decide⟩
  exact ⟨r, hr, hbytes⟩

end Bytesbuf
