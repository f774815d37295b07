import Oxidizer.Lib.Exec
import Oxidizer.Lib.Usize
/-!
# `BytesBuf`: the code

A translation of `crates/bytesbuf/src/{buf, buf_put, span_builder, span, view}.rs`
as a release build runs it (`debug_assert!` is absent). Memory is a list of
bytes: a `Span` owns the bytes it exposes, a `SpanBuilder` the bytes it was
filled with and the whatever-was-there bytes of its unfilled part. Every
`expect`, `assert!`, `unwrap_unchecked` and every safety requirement of an
internal `unsafe` call is a panic with a site of its own, so that "never hit"
can be stated. Left out: the telemetry `identity`, block metadata and
lifetimes, which no result here reads.
-/

namespace Bytesbuf

open Lib Lib.Exec

def blockSizeMax : Nat := 2 ^ 32 - 1

/-- Expectations of the code about itself, and safety requirements of its
`unsafe` calls. -/
inductive Site where
  | freeze_without_builder
  | freeze_past_filled
  | freeze_more_than_block
  | frozen_overflow
  | len_overflow
  | available_underflow
  | full_builder_without_data
  | copy_out_of_bounds
  | advance_without_builder
  | advance_out_of_bounds
  | partial_span_missing
  | partial_span_out_of_bounds
  | manifest_negative
  | manifest_more_than_block
  | view_overflow
  | unwrap_unchecked
  | cursor_out_of_range
  | commit_without_builder
  | commit_negative
  | split_without_builder
  | split_more_than_block
  | split_out_of_bounds
deriving DecidableEq

/-- How a call panics: the documented ways, and `internal`. -/
inductive Panic where
  /-- `assert!(self.remaining_capacity() >= src.len())` -/
  | insufficient_capacity
  /-- "buffer capacity cannot exceed usize::MAX" -/
  | capacity_overflow
  /-- "attempted to consume more bytes than available in buffer" -/
  | consume_out_of_bounds
  /-- "attempted to begin a vectored write with a max_len that was greater than the remaining capacity" -/
  | vectored_write_out_of_bounds
  /-- "attempted to split off more remaining capacity than available in buffer" -/
  | split_off_out_of_bounds
  /-- a panic of the memory provider -/
  | memory_provider
  | internal (site : Site)
deriving DecidableEq

/-! ## Spans and span builders -/

/-- An immutable run of bytes in one block. -/
@[ext]
structure Span where
  bytes : List UInt8
  fits : bytes.length ≤ blockSizeMax
deriving DecidableEq

namespace Span

def len (s : Span) : Nat := s.bytes.length
def is_empty (s : Span) : Bool := s.len == 0

def slice (s : Span) (len : Nat) : Option Span :=
  if len ≤ s.len then some ⟨s.bytes.take len, Nat.le_trans (List.length_take_le' ..) s.fits⟩ else none

/-- `advance`; `none` is outside its safety requirement. -/
def advance (s : Span) (len : Nat) : Option Span :=
  if len ≤ s.len then some ⟨s.bytes.drop len, by rw [List.length_drop]; exact Nat.le_trans (Nat.sub_le ..) s.fits⟩ else none

end Span

/-- Mutable memory of one block: a filled front, and an unfilled rest whose
content is unspecified. -/
structure SpanBuilder where
  filled : List UInt8
  unfilled : List UInt8
  fits : filled.length + unfilled.length ≤ blockSizeMax
deriving DecidableEq

/-- A block handed over by a memory provider: a non-zero number of bytes. -/
structure Block where
  memory : List UInt8
  nonzero : memory ≠ []
  fits : memory.length ≤ blockSizeMax

def Block.into_span_builder (block : Block) : SpanBuilder :=
  ⟨[], block.memory, by simpa using block.fits⟩

namespace SpanBuilder

def len (sb : SpanBuilder) : Nat := sb.filled.length
def is_empty (sb : SpanBuilder) : Bool := sb.len == 0
def remaining_capacity (sb : SpanBuilder) : Nat := sb.unfilled.length

/-- Detach the first `len` filled bytes; `none` is the failed assertion. -/
def consume (sb : SpanBuilder) (len : Nat) : Option (Span × SpanBuilder) :=
  if len ≤ sb.len then
    some (⟨sb.filled.take len, by have := sb.fits; rw [List.length_take]; omega⟩,
      ⟨sb.filled.drop len, sb.unfilled, by have := sb.fits; rw [List.length_drop]; omega⟩)
  else none

def peek (sb : SpanBuilder) : Span := ⟨sb.filled, by have := sb.fits; omega⟩

/-- Copy `src` to the start of `unfilled_slice_mut()`; `none` is a write out of bounds. -/
def copy_to_unfilled (sb : SpanBuilder) (src : List UInt8) : Option SpanBuilder :=
  if h : src.length ≤ sb.remaining_capacity then
    some ⟨sb.filled, src ++ sb.unfilled.drop src.length, by
      have := sb.fits; unfold remaining_capacity at h; simp only [List.length_append, List.length_drop]; omega⟩
  else none

/-- `advance`; `none` is outside its safety requirement. -/
def advance (sb : SpanBuilder) (count : Nat) : Option SpanBuilder :=
  if count ≤ sb.remaining_capacity then
    some ⟨sb.filled ++ sb.unfilled.take count, sb.unfilled.drop count, by
      have := sb.fits; simp only [List.length_append, List.length_take, List.length_drop]; omega⟩
  else none

/-- Give away the last `count` unfilled bytes: what is kept, and the new builder. -/
def split_off_available (sb : SpanBuilder) (count : Nat) : Option (SpanBuilder × SpanBuilder) :=
  if count ≤ sb.remaining_capacity then
    let keep := sb.remaining_capacity - count
    some (⟨sb.filled, sb.unfilled.take keep, by have := sb.fits; rw [List.length_take]; omega⟩,
      ⟨[], sb.unfilled.drop keep, by have := sb.fits; rw [List.length_drop]; simp; omega⟩)
  else none

end SpanBuilder

/-! ## Views -/

/-- `from_spans_reversed`'s fold: the total length, unless it overflows. -/
def total_len (spans : List Span) : Option Nat :=
  spans.foldlM (fun acc span => checked_add acc span.len) 0

theorem foldlM_checked_add {spans : List Span} {acc n : Nat}
    (h : spans.foldlM (fun acc span => checked_add acc span.len) acc = some n) :
    n = acc + (spans.map Span.len).sum := by
  induction spans generalizing acc with
  | nil => simpa using h.symm
  | cons span rest ih =>
    obtain ⟨mid, hm, hn⟩ := Option.bind_eq_some_iff.mp h
    rw [ih hn, (checked_add_eq_some hm).1, List.map_cons, List.sum_cons, Nat.add_assoc]

/-- An immutable sequence of bytes: its spans, last one first, and their total length. -/
structure BytesView where
  spans_reversed : List Span
  len : Nat
  len_eq : len = (spans_reversed.map Span.len).sum
deriving DecidableEq

namespace BytesView

def bytes (v : BytesView) : List UInt8 := v.spans_reversed.reverse.flatMap Span.bytes

def is_empty (v : BytesView) : Bool := v.len == 0

def from_spans_reversed {σ : Type} (spans_reversed : List Span) : Exec σ Panic BytesView :=
  match h : total_len spans_reversed with
  | some len => pure ⟨spans_reversed, len, by simpa using foldlM_checked_add h⟩
  | none => panic (.internal .view_overflow)

end BytesView

/-! ## The buffer -/

/-- The buffer: frozen spans in content order, builders in reverse content
order (the last one is filled first), and three cached counters. -/
structure BytesBuf where
  frozen_spans : List Span
  span_builders_reversed : List SpanBuilder
  len : Nat
  frozen : Nat
  available : Nat
deriving DecidableEq

/-- The type invariant: only the logically first builder holds data, every
builder has room, the counters are the sums they cache, and the capacity
is a `usize`. -/
structure BytesBuf.Inv (b : BytesBuf) : Prop where
  spare_empty : ∀ sb ∈ b.span_builders_reversed.dropLast, sb.filled = []
  has_room : ∀ sb ∈ b.span_builders_reversed, sb.unfilled ≠ []
  frozen_eq : b.frozen = (b.frozen_spans.map Span.len).sum
  len_eq : b.len = b.frozen + (b.span_builders_reversed.getLast?.map SpanBuilder.len).getD 0
  available_eq : b.available = (b.span_builders_reversed.map SpanBuilder.remaining_capacity).sum
  bounded : b.len + b.available ≤ usizeMax

/-- A memory provider. The trait's contract is part of the type: `reserve`
gives an empty buffer of at least the capacity asked for, or panics. -/
structure Memory where
  reserve : Nat → Option BytesBuf
  inv {min_bytes : Nat} {buf : BytesBuf} (h : reserve min_bytes = some buf) : buf.Inv
  empty {min_bytes : Nat} {buf : BytesBuf} (h : reserve min_bytes = some buf) : buf.len = 0
  enough {min_bytes : Nat} {buf : BytesBuf} (h : reserve min_bytes = some buf) : min_bytes ≤ buf.available

namespace BytesBuf

abbrev M := Exec BytesBuf Panic

def new : BytesBuf := ⟨[], [], 0, 0, 0⟩

def from_span_builders (span_builders : List SpanBuilder) : BytesBuf :=
  ⟨[], span_builders, 0, 0, (span_builders.map SpanBuilder.remaining_capacity).sum⟩

def from_blocks (blocks : List Block) : BytesBuf :=
  from_span_builders (blocks.map Block.into_span_builder)

def is_empty (b : BytesBuf) : Bool := b.len == 0
def remaining_capacity (b : BytesBuf) : Nat := b.available
def capacity (b : BytesBuf) : Nat := wrapping_add b.len b.remaining_capacity

/-- Replace the logically first builder (the last one in storage order). -/
def set_first_builder (b : BytesBuf) (sb : SpanBuilder) : BytesBuf :=
  { b with span_builders_reversed := b.span_builders_reversed.dropLast ++ [sb] }

def assert_capacity_within_bounds (len available : Nat) : M Unit := do
  let _ ← expect .capacity_overflow (checked_add len available)
  pure ()

def extend_capacity_by_at_least (bytes : Nat) (memory_provider : Memory) : M Unit := do
  let additional_memory ← expect .memory_provider (memory_provider.reserve bytes)
  let b ← self
  let new_available ← expect .capacity_overflow (checked_add b.available additional_memory.capacity)
  assert_capacity_within_bounds b.len new_available
  put { b with
    available := new_available
    span_builders_reversed := additional_memory.span_builders_reversed ++ b.span_builders_reversed }

def reserve (additional_bytes : Nat) (memory_provider : Memory) : M Unit := do
  let b ← self
  let bytes_needed := additional_bytes - b.remaining_capacity
  if bytes_needed = 0 then pure () else extend_capacity_by_at_least bytes_needed memory_provider

/-- Turn the first `len` filled bytes of the first builder into a frozen
span; a builder with no room left is dropped. -/
def freeze_from_first (len : Nat) : M Unit := do
  let b ← self
  let span_builder ← expect (.internal .freeze_without_builder) b.span_builders_reversed.getLast?
  let (span, span_builder) ← expect (.internal .freeze_past_filled) (span_builder.consume len)
  let b := { b.set_first_builder span_builder with frozen_spans := b.frozen_spans ++ [span] }
  let b := if span_builder.remaining_capacity = 0 then
      { b with span_builders_reversed := b.span_builders_reversed.dropLast } else b
  put b
  let frozen ← expect (.internal .frozen_overflow) (checked_add b.frozen len)
  put { b with frozen }

def ensure_frozen (len : Nat) : M Unit := do
  let b ← self
  let must_freeze_bytes := len - b.frozen
  assert (must_freeze_bytes ≤ blockSizeMax) (.internal .freeze_more_than_block)
  if must_freeze_bytes = 0 then pure () else freeze_from_first must_freeze_bytes

def put_bytes (view : BytesView) : M Unit := do
  if view.is_empty then pure () else
    let b ← self
    let new_len ← expect .capacity_overflow (checked_add b.len view.len)
    assert_capacity_within_bounds new_len b.available
    let total_unfrozen_bytes := (b.span_builders_reversed.getLast?.map SpanBuilder.len).getD 0
    if total_unfrozen_bytes = 0 then pure () else freeze_from_first total_unfrozen_bytes
    let b ← self
    put { b with
      len := new_len
      frozen := wrapping_add b.frozen view.len
      frozen_spans := b.frozen_spans ++ view.spans_reversed.reverse }

/-! ## Writing -/

def first_unfilled_len (b : BytesBuf) : Nat :=
  (b.span_builders_reversed.getLast?.map SpanBuilder.remaining_capacity).getD 0

/-- Write `src` to the start of `first_unfilled_slice()`, which is empty when there is no builder. -/
def copy_to_first_unfilled (src : List UInt8) : M Unit := do
  let b ← self
  match b.span_builders_reversed.getLast? with
  | none => assert src.isEmpty (.internal .copy_out_of_bounds)
  | some builder =>
    let builder ← expect (.internal .copy_out_of_bounds) (builder.copy_to_unfilled src)
    put (b.set_first_builder builder)

/-- Move the write head over `count` bytes of the first unfilled slice. -/
def advance (count : Nat) : M Unit := do
  if count = 0 then pure () else
    let b ← self
    let span_builder ← expect (.internal .advance_without_builder) b.span_builders_reversed.getLast?
    let span_builder ← expect (.internal .advance_out_of_bounds) (span_builder.advance count)
    put (b.set_first_builder span_builder)
    if span_builder.remaining_capacity = 0 then do
      assert (span_builder.len != 0) (.internal .full_builder_without_data)
      freeze_from_first span_builder.len
    else pure ()
    let b ← self
    let len ← expect (.internal .len_overflow) (checked_add b.len count)
    put { b with len }
    let available ← expect (.internal .available_underflow) (checked_sub b.available count)
    put { b with len, available }

/-- The fast path: write all of `src` into the first unfilled slice, or report that it does not fit. -/
def put_small (src : List UInt8) : M Bool := do
  let b ← self
  assert (src.length ≤ b.remaining_capacity) .insufficient_capacity
  match b.span_builders_reversed.getLast? with
  | none => pure false
  | some builder =>
    if builder.remaining_capacity < src.length then pure false else
      let builder ← expect (.internal .copy_out_of_bounds) (builder.copy_to_unfilled src)
      let builder ← expect (.internal .advance_out_of_bounds) (builder.advance src.length)
      let b := b.set_first_builder builder
      put b
      assert (builder.remaining_capacity != 0 || builder.len != 0) (.internal .full_builder_without_data)
      let len ← expect (.internal .len_overflow) (checked_add b.len src.length)
      put { b with len }
      let available ← expect (.internal .available_underflow) (checked_sub b.available src.length)
      put { b with len, available }
      if builder.remaining_capacity = 0 then freeze_from_first builder.len else pure ()
      pure true

def put_slice_round (src : List UInt8) : M (List UInt8 ⊕ Unit) := do
  if src = [] then pure (.inr ()) else
    let b ← self
    let to_copy_len := min b.first_unfilled_len src.length
    copy_to_first_unfilled (src.take to_copy_len)
    advance to_copy_len
    pure (.inl (src.drop to_copy_len))

def put_slice_looped (fuel : Nat) (src : List UInt8) : M Unit := do
  let b ← self
  assert (src.length ≤ b.remaining_capacity) .insufficient_capacity
  loop fuel put_slice_round src

def put_slice (fuel : Nat) (src : List UInt8) : M Unit := do
  if ← put_small src then pure () else put_slice_looped fuel src

def put_byte_repeated_round (value : UInt8) (count : Nat) : M (Nat ⊕ Unit) := do
  if count = 0 then pure (.inr ()) else
    let b ← self
    let to_fill_len := min b.first_unfilled_len count
    copy_to_first_unfilled (List.replicate to_fill_len value)
    advance to_fill_len
    pure (.inl (count - to_fill_len))

def put_byte_repeated (fuel : Nat) (value : UInt8) (count : Nat) : M Unit := do
  let b ← self
  assert (count ≤ b.remaining_capacity) .insufficient_capacity
  loop fuel (put_byte_repeated_round value) count

/-! ## Reading -/

/-- The filled part of the first builder, as a span unless it is empty. -/
def peek_first_builder (b : BytesBuf) : List Span :=
  match b.span_builders_reversed.getLast? with
  | some first_builder => if first_builder.peek.is_empty then [] else [first_builder.peek]
  | none => []

def peek : M BytesView := do
  let b ← self
  BytesView.from_spans_reversed (b.peek_first_builder ++ b.frozen_spans.reverse)

/-- The loop of `prepare_consume`: whole spans to detach, and bytes still wanted from the next one. -/
def prepare_consume_loop : List Span → Nat → Nat → M (Nat × Nat)
  | [], detach, len => pure (detach, len)
  | span :: rest, detach, len =>
    if span.len ≤ len then do
      let len ← expect (.internal .manifest_negative) (checked_sub len span.len)
      if len ≠ 0 then prepare_consume_loop rest (detach + 1) len else pure (detach + 1, len)
    else pure (detach, len)

def prepare_consume (len : Nat) : M (Nat × Nat) := do
  let b ← self
  let (detach_complete_frozen_spans, len) ← prepare_consume_loop b.frozen_spans 0 len
  assert (len ≤ blockSizeMax) (.internal .manifest_more_than_block)
  pure (detach_complete_frozen_spans, len)

/-- Split `part` bytes off the front of the frozen span at `index`. -/
def consume_partial_span (index part : Nat) : M (List Span) := do
  if part = 0 then pure [] else
    let b ← self
    let span ← expect (.internal .partial_span_missing) b.frozen_spans[index]?
    let take ← expect (.internal .partial_span_out_of_bounds) (span.slice part)
    let rest ← expect (.internal .partial_span_out_of_bounds) (span.advance part)
    put { b with frozen_spans := b.frozen_spans.set index rest }
    pure [take]

/-- Remove and return the first `len` bytes, or nothing when there are fewer. -/
def consume_checked (len : Nat) : M (Option BytesView) := do
  let b ← self
  if b.len < len then pure none else
    ensure_frozen len
    let (detach_complete_frozen_spans, consume_partial_span_bytes) ← prepare_consume len
    let taken ← consume_partial_span detach_complete_frozen_spans consume_partial_span_bytes
    let b ← self
    put { b with
      frozen_spans := b.frozen_spans.drop detach_complete_frozen_spans
      len := wrapping_sub b.len len
      frozen := wrapping_sub b.frozen len }
    let result ← BytesView.from_spans_reversed
      (taken ++ (b.frozen_spans.take detach_complete_frozen_spans).reverse)
    pure (some result)

def consume (len : Nat) : M BytesView := do
  expect .consume_out_of_bounds (← consume_checked len)

def consume_all : M BytesView := do
  let b ← self
  expect (.internal .unwrap_unchecked) (← consume_checked b.len)

/-! ## Vectored writes -/

/-- The cursor of `slices_mut()`: next builder in content order, and how much may still be exposed. -/
structure BytesBufRemaining where
  next_span_builder_index : Option Nat
  max_len : Option Nat
deriving DecidableEq

def iter_available_capacity (b : BytesBuf) (max_len : Option Nat) : BytesBufRemaining :=
  ⟨if b.span_builders_reversed = [] then none else some 0, max_len⟩

/-- The next exposed slice (its builder's place in storage order, and its length) and the moved cursor. -/
def BytesBufRemaining.next (it : BytesBufRemaining) : M (Option (Nat × Nat) × BytesBufRemaining) := do
  match it.next_span_builder_index with
  | none => pure (none, it)
  | some index =>
    let b ← self
    let count := b.span_builders_reversed.length
    let next_index := if index + 1 = count then none else some (index + 1)
    let storage_index := wrapping_sub count (index + 1)
    let span_builder ← expect (.internal .cursor_out_of_range) b.span_builders_reversed[storage_index]?
    match it.max_len with
    | none => pure (some (storage_index, span_builder.remaining_capacity), ⟨next_index, none⟩)
    | some max_len =>
      let constrained_len := min span_builder.remaining_capacity max_len
      let max_len := max_len - constrained_len
      pure (some (storage_index, constrained_len), ⟨if max_len = 0 then none else next_index, some max_len⟩)

/-- A write of `src` to the start of the slice exposed for the builder at `storage_index`. -/
def write_slice (storage_index : Nat) (src : List UInt8) : M Unit := do
  let b ← self
  let span_builder ← expect (.internal .cursor_out_of_range) b.span_builders_reversed[storage_index]?
  let span_builder ← expect (.internal .copy_out_of_bounds) (span_builder.copy_to_unfilled src)
  put { b with span_builders_reversed := b.span_builders_reversed.set storage_index span_builder }

/-- One round of the caller of `slices_mut()`, who fills slice after slice until its data is used up. -/
def fill_round (st : BytesBufRemaining × List UInt8) : M ((BytesBufRemaining × List UInt8) ⊕ Unit) := do
  if st.2 = [] then pure (.inr ()) else
    match ← st.1.next with
    | (none, _) => pure (.inr ())
    | (some (storage_index, len), it) =>
      write_slice storage_index (st.2.take len)
      pure (.inl (it, st.2.drop len))

def commit_round (bytes_remaining : Nat) : M (Nat ⊕ Unit) := do
  if bytes_remaining = 0 then pure (.inr ()) else
    let b ← self
    let span_builder ← expect (.internal .commit_without_builder) b.span_builders_reversed.getLast?
    let bytes_to_commit := min span_builder.remaining_capacity bytes_remaining
    advance bytes_to_commit
    let bytes_remaining ← expect (.internal .commit_negative) (checked_sub bytes_remaining bytes_to_commit)
    pure (.inl bytes_remaining)

def commit (fuel : Nat) (bytes_written : Nat) : M Unit := loop fuel commit_round bytes_written

/-- `begin_vectored_write_checked`: whether a write limited to `max_len` may begin. -/
def begin_vectored_write_checked (b : BytesBuf) (max_len : Option Nat) : Option (Option Nat) :=
  match max_len with
  | some n => if b.remaining_capacity < n then none else some max_len
  | none => some max_len

/-- A whole vectored write: begin it, fill the exposed slices with `data`, commit `bytes_written` bytes. -/
def vectored_write (fuel : Nat) (max_len : Option Nat) (data : List UInt8) (bytes_written : Nat) : M Unit := do
  let b ← self
  let max_len ← expect .vectored_write_out_of_bounds (b.begin_vectored_write_checked max_len)
  loop fuel fill_round (b.iter_available_capacity max_len, data)
  commit fuel bytes_written

/-! ## Splitting off capacity -/

/-- The walk of `split_off_remaining_checked`: empty builders taken whole, and capacity still wanted. -/
def whole_builders : List SpanBuilder → Nat → Nat → Nat × Nat
  | [], whole_span_builders_to_take, remaining => (whole_span_builders_to_take, remaining)
  | span_builder :: rest, whole_span_builders_to_take, remaining =>
    if !span_builder.is_empty then (whole_span_builders_to_take, remaining)
    else if span_builder.remaining_capacity > remaining then (whole_span_builders_to_take, remaining)
    else whole_builders rest (whole_span_builders_to_take + 1) (remaining - span_builder.remaining_capacity)

/-- Take `remaining` more bytes of capacity from the builder that is first in storage order. -/
def split_first (remaining : Nat) : M (List SpanBuilder) := do
  if remaining = 0 then pure [] else
    let b ← self
    let span_builder ← expect (.internal .split_without_builder) b.span_builders_reversed.head?
    assert (remaining ≤ blockSizeMax) (.internal .split_more_than_block)
    let (kept, split) ← expect (.internal .split_out_of_bounds) (span_builder.split_off_available remaining)
    put { b with span_builders_reversed := kept :: b.span_builders_reversed.tail }
    pure [split]

def split_off_remaining_checked (count : Nat) : M (Option BytesBuf) := do
  let b ← self
  if b.remaining_capacity < count then pure none
  else if count = 0 then pure (some new)
  else
    let (whole_span_builders_to_take, remaining) := whole_builders b.span_builders_reversed 0 count
    put { b with span_builders_reversed := b.span_builders_reversed.drop whole_span_builders_to_take }
    let split ← split_first remaining
    let result_builders := b.span_builders_reversed.take whole_span_builders_to_take ++ split
    let b ← self
    let available ← expect (.internal .available_underflow) (checked_sub b.available count)
    put { b with available }
    pure (some (from_span_builders result_builders))

def split_off_remaining (count : Nat) : M BytesBuf := do
  expect .split_off_out_of_bounds (← split_off_remaining_checked count)

end BytesBuf

end Bytesbuf
