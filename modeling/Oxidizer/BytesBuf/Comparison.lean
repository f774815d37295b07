import Oxidizer.BytesBuf.Ranges
/-!
# Equality and hashing of views

Both look at the bytes of a view and not at its spans. A comparison walks over two views,
or a view and a slice, in steps of the shorter piece; a hasher is fed blocks of 64 bytes,
from a buffer or straight from a span.
-/

namespace Bytesbuf

open Lib Lib.Exec List BytesView

/-! ## Comparing: the code -/

inductive CompareSite where
  | span_index
  | offset_past_span
  | empty_slice
  | slice_too_short
  | remaining_negative
deriving DecidableEq

/-- A place in a view: the index behind that of the current span in the order of storage, and an offset into the span. -/
structure Cursor where
  span_idx : Nat
  offset : Nat
deriving DecidableEq

namespace Cursor

def span (c : Cursor) (v : BytesView) : Option Span := if c.span_idx = 0 then none else v.spans_reversed[c.span_idx - 1]?

/-- Advance within or past the current span. -/
def advance (c : Cursor) (span : Span) (len : Nat) : Cursor :=
  if c.offset + len = span.len then ⟨c.span_idx - 1, 0⟩ else ⟨c.span_idx, c.offset + len⟩

end Cursor

def get_from (slice : List UInt8) (offset : Nat) : Option (List UInt8) :=
  if offset ≤ slice.length then some (slice.drop offset) else none

def get_to (slice : List UInt8) (len : Nat) : Option (List UInt8) := if len ≤ slice.length then some (slice.take len) else none

def non_zero (n : Nat) : Option Nat := if n = 0 then none else some n

abbrev Comparing := Exec Unit CompareSite

namespace BytesView

def eq_round (v other : BytesView) (st : Cursor × Cursor × Nat) : Comparing ((Cursor × Cursor × Nat) ⊕ Bool) := do
  let (self_at, other_at, remaining_bytes) := st
  if remaining_bytes = 0 then pure (.inr true) else
    let self_span ← expect .span_index (self_at.span v)
    let other_span ← expect .span_index (other_at.span other)
    let self_slice ← expect .offset_past_span (get_from self_span.bytes self_at.offset)
    let other_slice ← expect .offset_past_span (get_from other_span.bytes other_at.offset)
    let comparison_len ← expect .empty_slice (non_zero (min self_slice.length other_slice.length))
    let self_slice ← expect .slice_too_short (get_to self_slice comparison_len)
    let other_slice ← expect .slice_too_short (get_to other_slice comparison_len)
    if self_slice ≠ other_slice then pure (.inr false) else
      let remaining_bytes ← expect .remaining_negative (checked_sub remaining_bytes comparison_len)
      pure (.inl (self_at.advance self_span comparison_len, other_at.advance other_span comparison_len, remaining_bytes))

def eq (fuel : Nat) (v other : BytesView) : Comparing Bool :=
  if v.len ≠ other.len then pure false
  else loop fuel (v.eq_round other) (⟨v.spans_reversed.length, 0⟩, ⟨other.spans_reversed.length, 0⟩, v.len)

def eq_slice_round (v : BytesView) (st : Cursor × List UInt8 × Nat) : Comparing ((Cursor × List UInt8 × Nat) ⊕ Bool) := do
  let (self_at, other, remaining_bytes) := st
  if remaining_bytes = 0 then pure (.inr true) else
    let span ← expect .span_index (self_at.span v)
    let self_slice ← expect .offset_past_span (get_from span.bytes self_at.offset)
    let slice_size ← expect .empty_slice (non_zero self_slice.length)
    let self_slice ← expect .slice_too_short (get_to self_slice slice_size)
    let other_slice ← expect .slice_too_short (get_to other slice_size)
    if self_slice ≠ other_slice then pure (.inr false) else
      let other ← expect .slice_too_short (get_from other slice_size)
      let remaining_bytes ← expect .remaining_negative (checked_sub remaining_bytes slice_size)
      pure (.inl (self_at.advance span slice_size, other, remaining_bytes))

def eq_slice (fuel : Nat) (v : BytesView) (other : List UInt8) : Comparing Bool :=
  if v.len ≠ other.length then pure false
  else loop fuel v.eq_slice_round (⟨v.spans_reversed.length, 0⟩, other, v.len)

end BytesView

/-! ## Hashing: the code -/

def HASH_BLOCK_BYTES : Nat := 64

inductive HasherCall where
  | write_usize (n : Nat)
  | write (bytes : List UInt8)
deriving DecidableEq

inductive HashSite where
  | split_at
  | block_range
deriving DecidableEq

/-- A method that is given a hasher, which is known by the calls that were made to it. -/
abbrev Hashing := Exec (List HasherCall) HashSite

def call_hasher (call : HasherCall) : Hashing Unit := do
  let calls ← self
  put (calls ++ [call])

/-- The buffer, and how many of its bytes are filled. -/
structure HashBlock where
  block : List UInt8
  filled : Nat

def hash_round (st : HashBlock × List UInt8) : Hashing ((HashBlock × List UInt8) ⊕ HashBlock) := do
  let (buf, remaining) := st
  if remaining = [] then pure (.inr buf)
  else if buf.filled = 0 ∧ remaining.length ≥ HASH_BLOCK_BYTES then do
    assert (HASH_BLOCK_BYTES ≤ remaining.length) .split_at
    call_hasher (.write (remaining.take HASH_BLOCK_BYTES))
    pure (.inl (buf, remaining.drop HASH_BLOCK_BYTES))
  else do
    let take := min (HASH_BLOCK_BYTES - buf.filled) remaining.length
    assert (buf.filled + take ≤ buf.block.length) .block_range
    let block := buf.block.take buf.filled ++ remaining.take take ++ buf.block.drop (buf.filled + take)
    let filled := buf.filled + take
    let remaining := remaining.drop take
    if filled = HASH_BLOCK_BYTES then do
      call_hasher (.write block)
      pure (.inl (⟨block, 0⟩, remaining))
    else pure (.inl (⟨block, filled⟩, remaining))

def hash_spans (fuel : Nat) : List Span → HashBlock → Hashing HashBlock
  | [], buf => pure buf
  | span :: rest, buf => do
    let buf ← loop fuel hash_round (buf, span.bytes)
    hash_spans fuel rest buf

def BytesView.hash (fuel : Nat) (v : BytesView) : Hashing Unit := do
  call_hasher (.write_usize v.len)
  let buf ← hash_spans fuel v.spans_reversed.reverse ⟨List.replicate HASH_BLOCK_BYTES 0, 0⟩
  if buf.filled > 0 then do
    assert (buf.filled ≤ buf.block.length) .block_range
    call_hasher (.write (buf.block.take buf.filled))
  else pure ()

/-! ## A cursor walks over the bytes -/

namespace Cursor

def rest (c : Cursor) (v : BytesView) : List UInt8 :=
  ((v.spans_reversed.take c.span_idx).reverse.flatMap Span.bytes).drop c.offset

/-- A cursor is at the end, or at a byte of its span. -/
def Valid (c : Cursor) (v : BytesView) : Prop :=
  (c.span_idx = 0 ∧ c.offset = 0) ∨ ∃ span, c.span v = some span ∧ c.offset < span.len

variable {v : BytesView} {c : Cursor} {span : Span}

theorem rest_cons (hs : c.span v = some span) (ho : c.offset ≤ span.len) :
    c.rest v = span.bytes.drop c.offset ++ (⟨c.span_idx - 1, 0⟩ : Cursor).rest v := by
  unfold Cursor.span at hs
  split at hs
  · cases hs
  · rename_i hidx
    obtain ⟨i, hi⟩ : ∃ i, c.span_idx = i + 1 := ⟨c.span_idx - 1, by omega⟩
    rw [hi, Nat.add_sub_cancel] at hs
    have htake : v.spans_reversed.take (i + 1) = v.spans_reversed.take i ++ [span] := by
      rw [take_add_one, hs, Option.toList_some]
    simp only [rest, hi, Nat.add_sub_cancel, htake, reverse_append, reverse_singleton, singleton_append,
      flatMap_cons, drop_zero]
    exact drop_append_of_le_length ho

theorem Valid.piece (h : c.Valid v) (hr : c.rest v ≠ []) : ∃ span, c.span v = some span ∧ c.offset < span.len := by
  rcases h with ⟨hidx, -⟩ | h
  · refine absurd ?_ hr
    simp [rest, hidx]
  · exact h

theorem advance_rest (hs : c.span v = some span) {n : Nat} (hn : c.offset + n ≤ span.len) :
    (c.advance span n).rest v = (c.rest v).drop n := by
  have hlen : span.bytes.length = span.len := rfl
  rw [rest_cons hs (by omega), drop_append_of_le_length (by rw [length_drop]; omega), drop_drop]
  unfold advance
  split
  · rename_i hend
    rw [drop_of_length_le (by omega)]
    rfl
  · exact rest_cons (c := ⟨c.span_idx, c.offset + n⟩) hs hn

theorem advance_valid (hv : v.Valid) (hs : c.span v = some span) {n : Nat} (hn : c.offset + n ≤ span.len) :
    (c.advance span n).Valid v := by
  unfold advance
  split
  · by_cases hz : c.span_idx - 1 = 0
    · exact .inl ⟨hz, rfl⟩
    · right
      have hidx : c.span_idx ≠ 0 := by omega
      simp only [Cursor.span, if_neg hidx] at hs
      obtain ⟨hlt, -⟩ := List.getElem?_eq_some_iff.mp hs
      have hlt' : c.span_idx - 1 - 1 < v.spans_reversed.length := by omega
      refine ⟨v.spans_reversed[c.span_idx - 1 - 1], ?_, ?_⟩
      · simp only [Cursor.span, if_neg hz, getElem?_eq_getElem hlt']
      · exact length_pos_iff.mpr (hv.spans_nonempty _ (getElem_mem _))
  · rename_i hne
    exact .inr ⟨span, hs, by show c.offset + n < span.len; omega⟩

theorem start_rest (v : BytesView) : (⟨v.spans_reversed.length, 0⟩ : Cursor).rest v = v.bytes := by
  simp [rest, bytes]

theorem start_valid (hv : v.Valid) : (⟨v.spans_reversed.length, 0⟩ : Cursor).Valid v := by
  by_cases hz : v.spans_reversed.length = 0
  · exact .inl ⟨hz, rfl⟩
  · right
    have hlt : v.spans_reversed.length - 1 < v.spans_reversed.length := by omega
    refine ⟨v.spans_reversed[v.spans_reversed.length - 1], ?_, ?_⟩
    · simp only [Cursor.span, if_neg hz, getElem?_eq_getElem hlt]
    · exact length_pos_iff.mpr (hv.spans_nonempty _ (getElem_mem _))

end Cursor

/-! ## Comparing: the result -/

theorem get_from_eq {slice : List UInt8} {offset : Nat} (h : offset ≤ slice.length) :
    get_from slice offset = some (slice.drop offset) := if_pos h

theorem get_to_eq {slice : List UInt8} {len : Nat} (h : len ≤ slice.length) : get_to slice len = some (slice.take len) :=
  if_pos h

theorem non_zero_eq {n : Nat} (h : 0 < n) : non_zero n = some n := if_neg (by omega)

theorem eq_iff_drop {xs ys : List UInt8} {n : Nat} (h : xs.take n = ys.take n) : xs = ys ↔ xs.drop n = ys.drop n := by
  constructor
  · intro heq
    rw [heq]
  · intro heq
    rw [← take_append_drop n xs, ← take_append_drop n ys, h, heq]

/-- What a comparison knows of two sequences of bytes: those that are left are of one length, and decide. -/
structure Undecided (whole whole' left left' : List UInt8) (remaining : Nat) : Prop where
  length_left : left.length = remaining
  length_left' : left'.length = remaining
  decides : whole = whole' ↔ left = left'

namespace Undecided

variable {whole whole' left left' : List UInt8} {remaining n : Nat}

theorem done (h : Undecided whole whole' left left' 0) : true = decide (whole = whole') := by
  have hl := length_eq_zero_iff.mp h.length_left
  have hl' := length_eq_zero_iff.mp h.length_left'
  rw [eq_comm, decide_eq_true_iff, h.decides, hl, hl']

theorem differ (h : Undecided whole whole' left left' remaining) (hne : left.take n ≠ left'.take n) :
    false = decide (whole = whole') := by
  rw [eq_comm, decide_eq_false_iff_not, h.decides]
  intro heq
  exact hne (by rw [heq])

theorem agree (h : Undecided whole whole' left left' remaining) (heq : left.take n = left'.take n) :
    Undecided whole whole' (left.drop n) (left'.drop n) (remaining - n) where
  length_left := by rw [length_drop, h.length_left]
  length_left' := by rw [length_drop, h.length_left']
  decides := by rw [h.decides, eq_iff_drop heq]

end Undecided

namespace BytesView

variable {v w : BytesView}

variable {c : Cursor}

theorem piece_front {span : Span} (hs : c.span v = some span) {n : Nat} (hn : c.offset + n ≤ span.len) :
    n ≤ (c.rest v).length ∧ get_to (span.bytes.drop c.offset) n = some ((c.rest v).take n) := by
  have hlen : (span.bytes.drop c.offset).length = span.len - c.offset := by rw [length_drop]; rfl
  rw [Cursor.rest_cons hs (by omega), take_append_of_le_length (by omega), length_append]
  exact ⟨by omega, get_to_eq (by omega)⟩

/-- A comparison with `whole` is at a cursor and at `x`, which has the bytes `left x` left. -/
def Open (v : BytesView) (whole : List UInt8) {X : Type} (valid : X → Prop) (left : X → List UInt8) (st : Cursor × X × Nat) : Prop :=
  st.1.Valid v ∧ valid st.2.1 ∧ Undecided v.bytes whole (st.1.rest v) (left st.2.1) st.2.2

/-- A round goes on with fewer bytes, or decides. -/
def Rounds (v : BytesView) (whole : List UInt8) {X : Type} (valid : X → Prop) (left : X → List UInt8)
    (round : Cursor × X × Nat → Comparing ((Cursor × X × Nat) ⊕ Bool)) : Prop :=
  ∀ st, v.Open whole valid left st →
    (∃ st', (round st).run () = (.ok (.inl st'), ()) ∧ v.Open whole valid left st' ∧ st'.2.2 < st.2.2) ∨
    (round st).run () = (.ok (.inr (decide (v.bytes = whole))), ())

theorem Rounds.loop {X : Type} {valid : X → Prop} {left : X → List UInt8} {whole : List UInt8}
    {round : Cursor × X × Nat → Comparing ((Cursor × X × Nat) ⊕ Bool)} (hround : v.Rounds whole valid left round)
    (hv : v.Valid) {x : X} (hx : valid x) (hleft : left x = whole) (hlen : v.len = whole.length) {fuel : Nat} (hf : v.len < fuel) :
    (Exec.loop fuel round (⟨v.spans_reversed.length, 0⟩, x, v.len)).run () = (.ok (decide (v.bytes = whole)), ()) := by
  have hstart : v.Open whole valid left (⟨v.spans_reversed.length, 0⟩, x, v.len) := by
    refine ⟨Cursor.start_valid hv, hx, ?_⟩
    rw [Cursor.start_rest, hleft]
    exact ⟨v.length_bytes, hlen.symm, Iff.rfl⟩
  obtain ⟨result, ⟨⟩, hrun, rfl⟩ := loop_total round (fun st _ => st.2.2) (fun st _ => v.Open whole valid left st)
    (fun result _ => result = decide (v.bytes = whole))
    (by
      rintro st ⟨⟩ hst
      rcases hround st hst with ⟨st', hrun, hst', hlt⟩ | hrun
      · exact .inl ⟨st', (), hrun, hst', hlt⟩
      · exact .inr ⟨_, (), hrun, rfl⟩)
    fuel _ () hstart hf
  exact hrun

theorem eq_round_spec (hv : v.Valid) (hw : w.Valid) : v.Rounds w.bytes (·.Valid w) (·.rest w) (v.eq_round w) := by
  rintro ⟨c, d, remaining⟩ ⟨hc, hd, h⟩
  dsimp only at hc hd h
  by_cases hz : remaining = 0
  · subst hz
    exact .inr (by rw [← h.done]; rfl)
  · have hne : c.rest v ≠ [] := length_pos_iff.mp (by rw [h.length_left]; omega)
    have hne' : d.rest w ≠ [] := length_pos_iff.mp (by rw [h.length_left']; omega)
    obtain ⟨span, hs, ho⟩ := hc.piece hne
    obtain ⟨span', hs', ho'⟩ := hd.piece hne'
    have hlen : span.bytes.length = span.len := rfl
    have hlen' : span'.bytes.length = span'.len := rfl
    obtain ⟨n, hn⟩ : ∃ n, n = min (span.len - c.offset) (span'.len - d.offset) := ⟨_, rfl⟩
    obtain ⟨hle, hget⟩ := piece_front hs (show c.offset + n ≤ span.len by omega)
    obtain ⟨-, hget'⟩ := piece_front hs' (show d.offset + n ≤ span'.len by omega)
    rw [h.length_left] at hle
    simp only [eq_round, if_neg hz, hs, hs', expect_some, pure_then, get_from_eq (show c.offset ≤ span.bytes.length by omega),
      get_from_eq (show d.offset ≤ span'.bytes.length by omega), length_drop, hlen, hlen', ← hn,
      non_zero_eq (show 0 < n by omega), hget, hget', checked_sub_of_le hle]
    split
    · rename_i hdiff
      exact .inr (by rw [← h.differ hdiff]; rfl)
    · rename_i hsame
      rw [not_not] at hsame
      refine .inl ⟨_, rfl, ⟨Cursor.advance_valid hv hs (by omega), Cursor.advance_valid hw hs' (by omega), ?_⟩, by dsimp only; omega⟩
      dsimp only
      rw [Cursor.advance_rest hs (by omega), Cursor.advance_rest hs' (by omega)]
      exact h.agree hsame

theorem eq_spec (hv : v.Valid) (hw : w.Valid) {fuel : Nat} (hf : v.len < fuel) :
    (v.eq fuel w).run () = (.ok (decide (v.bytes = w.bytes)), ()) := by
  unfold eq
  split
  · rename_i hlen
    have hne : v.bytes ≠ w.bytes := fun heq => hlen (by rw [← v.length_bytes, ← w.length_bytes, heq])
    rw [decide_eq_false hne]
    rfl
  · rename_i hlen
    rw [not_not] at hlen
    exact (eq_round_spec hv hw).loop hv (Cursor.start_valid hw) (Cursor.start_rest w)
      (hlen.trans w.length_bytes.symm) hf

theorem eq_slice_round_spec (hv : v.Valid) (whole : List UInt8) :
    v.Rounds whole (fun _ => True) id v.eq_slice_round := by
  rintro ⟨c, other, remaining⟩ ⟨hc, -, h⟩
  dsimp only [id] at hc h
  by_cases hz : remaining = 0
  · subst hz
    exact .inr (by rw [← h.done]; rfl)
  · have hne : c.rest v ≠ [] := length_pos_iff.mp (by rw [h.length_left]; omega)
    obtain ⟨span, hs, ho⟩ := hc.piece hne
    have hlen : span.bytes.length = span.len := rfl
    obtain ⟨n, hn⟩ : ∃ n, n = span.len - c.offset := ⟨_, rfl⟩
    obtain ⟨hle, hget⟩ := piece_front hs (show c.offset + n ≤ span.len by omega)
    rw [h.length_left] at hle
    have hother : n ≤ other.length := by rw [h.length_left']; exact hle
    simp only [eq_slice_round, if_neg hz, hs, expect_some, pure_then, get_from_eq (show c.offset ≤ span.bytes.length by omega),
      length_drop, hlen, ← hn, non_zero_eq (show 0 < n by omega), hget, get_to_eq hother, get_from_eq hother,
      checked_sub_of_le hle]
    split
    · rename_i hdiff
      exact .inr (by rw [← h.differ hdiff]; rfl)
    · rename_i hsame
      rw [not_not] at hsame
      refine .inl ⟨_, rfl, ⟨Cursor.advance_valid hv hs (by omega), trivial, ?_⟩, by dsimp only; omega⟩
      dsimp only
      rw [Cursor.advance_rest hs (by omega)]
      exact h.agree hsame

theorem eq_slice_spec (hv : v.Valid) (other : List UInt8) {fuel : Nat} (hf : v.len < fuel) :
    (v.eq_slice fuel other).run () = (.ok (decide (v.bytes = other)), ()) := by
  unfold eq_slice
  split
  · rename_i hlen
    have hne : v.bytes ≠ other := fun heq => hlen (by rw [← v.length_bytes, heq])
    rw [decide_eq_false hne]
    rfl
  · rename_i hlen
    rw [not_not] at hlen
    exact (eq_slice_round_spec hv other).loop hv trivial rfl hlen hf

end BytesView

/-! ## Hashing: the result -/

/-- Blocks of 64 bytes, and what is left over. -/
def blocks (bytes : List UInt8) : List (List UInt8) :=
  if bytes.length < HASH_BLOCK_BYTES then (if bytes = [] then [] else [bytes])
  else bytes.take HASH_BLOCK_BYTES :: blocks (bytes.drop HASH_BLOCK_BYTES)
termination_by bytes.length
decreasing_by
  rw [List.length_drop]
  have : 0 < HASH_BLOCK_BYTES := by decide
  omega

def hasher_calls (bytes : List UInt8) : List HasherCall := .write_usize bytes.length :: (blocks bytes).map .write

theorem blocks_append {block : List UInt8} (h : block.length = HASH_BLOCK_BYTES) (rest : List UInt8) :
    blocks (block ++ rest) = block :: blocks rest := by
  rw [blocks, if_neg (by rw [length_append]; omega), take_left' h, drop_left' h]

def HashBlock.pending (buf : HashBlock) : List UInt8 := buf.block.take buf.filled

structure HashBlock.Valid (buf : HashBlock) : Prop where
  size : buf.block.length = HASH_BLOCK_BYTES
  not_full : buf.filled < HASH_BLOCK_BYTES

/-- From here on the calls are those that the pending and the coming bytes make. -/
def Owes (calls : List HasherCall) (buf : HashBlock) (coming : List UInt8) (all : List HasherCall) : Prop :=
  calls ++ (blocks (buf.pending ++ coming)).map .write = all

variable {buf : HashBlock} {calls all : List HasherCall}

theorem hash_round_spec (h : buf.Valid) {remaining after : List UInt8} (hne : remaining ≠ [])
    (ho : Owes calls buf (remaining ++ after) all) :
    ∃ buf' remaining' calls', (hash_round (buf, remaining)).run calls = (.ok (.inl (buf', remaining')), calls') ∧ buf'.Valid ∧
      Owes calls' buf' (remaining' ++ after) all ∧ remaining'.length < remaining.length := by
  have hpos := length_pos_of_ne_nil hne
  have hsize : 0 < HASH_BLOCK_BYTES := by decide
  obtain ⟨hblock, hfull⟩ := h
  have hpending : buf.pending.length = buf.filled := by rw [HashBlock.pending, length_take]; omega
  simp only [hash_round, if_neg hne]
  split
  · rename_i hfast
    have hnil : buf.pending = [] := length_eq_zero_iff.mp (by rw [hpending, hfast.1])
    rw [assert_true (decide_eq_true hfast.2), pure_then]
    refine ⟨buf, remaining.drop HASH_BLOCK_BYTES, _, rfl, ⟨hblock, hfull⟩, ?_, by rw [length_drop]; omega⟩
    have hsplit : remaining ++ after = remaining.take HASH_BLOCK_BYTES ++ (remaining.drop HASH_BLOCK_BYTES ++ after) := by
      rw [← append_assoc, take_append_drop]
    have hblocks : blocks (remaining ++ after) =
        remaining.take HASH_BLOCK_BYTES :: blocks (remaining.drop HASH_BLOCK_BYTES ++ after) := by
      rw [hsplit, blocks_append (by rw [length_take]; omega)]
    rw [← ho]
    simp only [Owes, hnil, nil_append, hblocks]
    simp
  · obtain ⟨n, hn⟩ : ∃ n, n = min (HASH_BLOCK_BYTES - buf.filled) remaining.length := ⟨_, rfl⟩
    rw [← hn]
    have hassert : decide (buf.filled + n ≤ buf.block.length) = true := decide_eq_true (by omega)
    simp only [assert_true hassert, pure_then]
    obtain ⟨block, hb⟩ : ∃ block, block = buf.block.take buf.filled ++ remaining.take n ++ buf.block.drop (buf.filled + n) :=
      ⟨_, rfl⟩
    rw [← hb]
    have htaken : (buf.pending ++ remaining.take n).length = buf.filled + n := by
      rw [length_append, hpending, length_take]
      omega
    have hfront : block.take (buf.filled + n) = buf.pending ++ remaining.take n := by
      rw [hb]
      exact take_left' htaken
    have hlength : block.length = HASH_BLOCK_BYTES := by
      rw [hb, length_append, length_drop, show (buf.block.take buf.filled ++ remaining.take n).length = _ from htaken]
      omega
    have hsplit : buf.pending ++ (remaining ++ after) = (buf.pending ++ remaining.take n) ++ (remaining.drop n ++ after) := by
      rw [append_assoc, ← append_assoc (remaining.take n), take_append_drop]
    split
    · rename_i hend
      refine ⟨⟨block, 0⟩, remaining.drop n, _, rfl, ⟨hlength, hsize⟩, ?_, by rw [length_drop]; omega⟩
      have hwhole : buf.pending ++ remaining.take n = block := by
        rw [← hfront, hend, take_of_length_le (by omega)]
      rw [← ho]
      simp only [Owes, hsplit, hwhole, blocks_append hlength]
      simp [HashBlock.pending]
    · refine ⟨⟨block, buf.filled + n⟩, remaining.drop n, _, rfl, ⟨hlength, by show buf.filled + n < _; omega⟩, ?_,
        by rw [length_drop]; omega⟩
      have hpending' : HashBlock.pending ⟨block, buf.filled + n⟩ = buf.pending ++ remaining.take n := hfront
      rw [← ho]
      simp only [Owes, hsplit, hpending']

variable {fuel : Nat}

theorem hash_span_spec (h : buf.Valid) {bytes after : List UInt8}
    (ho : Owes calls buf (bytes ++ after) all) (hf : bytes.length < fuel) :
    ∃ buf' calls', (loop fuel hash_round (buf, bytes)).run calls = (.ok buf', calls') ∧ buf'.Valid ∧ Owes calls' buf' after all := by
  refine loop_total hash_round (fun st _ => st.2.length) (fun st calls => st.1.Valid ∧ Owes calls st.1 (st.2 ++ after) all)
    (fun buf calls => buf.Valid ∧ Owes calls buf after all) ?_ fuel (buf, bytes) calls ⟨h, ho⟩ hf
  rintro ⟨buf, remaining⟩ calls ⟨hbuf, howes⟩
  by_cases hne : remaining = []
  · subst hne
    exact .inr ⟨buf, calls, rfl, hbuf, howes⟩
  · obtain ⟨buf', remaining', calls', hrun, hbuf', howes', hlt⟩ := hash_round_spec hbuf hne howes
    exact .inl ⟨(buf', remaining'), calls', hrun, ⟨hbuf', howes'⟩, hlt⟩

theorem hash_spans_spec {spans : List Span} (hf : ∀ span ∈ spans, span.len < fuel) (h : buf.Valid)
    (ho : Owes calls buf (spans.flatMap Span.bytes) all) :
    ∃ buf' calls', (hash_spans fuel spans buf).run calls = (.ok buf', calls') ∧ buf'.Valid ∧ Owes calls' buf' [] all := by
  induction spans generalizing buf calls with
  | nil => exact ⟨buf, calls, rfl, h, ho⟩
  | cons span rest ih =>
    obtain ⟨buf₁, calls₁, hrun, hbuf, howes⟩ := hash_span_spec h ho (hf span (mem_cons_self ..))
    obtain ⟨buf', calls', hrest, hfinal⟩ := ih (fun s hs => hf s (mem_cons_of_mem _ hs)) hbuf howes
    exact ⟨buf', calls', by rw [hash_spans, bind_ok hrun, hrest], hfinal⟩

theorem BytesView.hash_spec {v : BytesView} (hf : v.len < fuel) (calls : List HasherCall) :
    (v.hash fuel).run calls = (.ok (), calls ++ hasher_calls v.bytes) := by
  have hspan : ∀ span ∈ v.spans_reversed.reverse, span.len < fuel := by
    intro span hspan
    have := le_sum_of_mem (mem_map_of_mem (f := Span.len) (mem_reverse.mp hspan))
    rw [← v.len_eq] at this
    omega
  have hstart : Owes (calls ++ [.write_usize v.len]) ⟨replicate HASH_BLOCK_BYTES 0, 0⟩
      (v.spans_reversed.reverse.flatMap Span.bytes) (calls ++ hasher_calls v.bytes) := by
    rw [Owes, hasher_calls, v.length_bytes]
    simp [HashBlock.pending, bytes]
  obtain ⟨buf, calls', hrun, hbuf, howes⟩ := hash_spans_spec hspan ⟨by simp, by decide⟩ hstart
  have hfirst : (call_hasher (.write_usize v.len)).run calls = (.ok (), calls ++ [.write_usize v.len]) := rfl
  rw [Owes, append_nil] at howes
  rw [hash, bind_ok hfirst, bind_ok hrun, ← howes]
  have hpending : buf.pending.length = buf.filled := by
    have := hbuf.size
    have := hbuf.not_full
    rw [HashBlock.pending, length_take]
    omega
  have hlast : blocks buf.pending = if buf.pending = [] then [] else [buf.pending] := by
    rw [blocks]
    exact if_pos (by rw [hpending]; exact hbuf.not_full)
  rw [hlast]
  split
  · rename_i hfilled
    have hne : buf.pending ≠ [] := length_pos_iff.mp (by omega)
    have hassert : decide (buf.filled ≤ buf.block.length) = true :=
      decide_eq_true (by rw [hbuf.size]; exact Nat.le_of_lt hbuf.not_full)
    rw [if_neg hne, assert_true hassert, pure_then]
    rfl
  · rename_i hfilled
    have hnil : buf.pending = [] := length_eq_zero_iff.mp (by omega)
    rw [if_pos hnil, run_pure, map_nil, append_nil]

/-- Comparisons and the hash terminate without a panic. Views are equal to views, and to slices, exactly when their bytes
are; and the calls that a hasher gets are those of the bytes, whatever the spans. -/
theorem equality_and_hash_of_bytes (v w : BytesView) (hv : v.Valid) (hw : w.Valid) (slice : List UInt8) {fuel : Nat}
    (hf : v.len < fuel) :
    (v.eq fuel w).run () = (.ok (decide (v.bytes = w.bytes)), ()) ∧
    (v.eq_slice fuel slice).run () = (.ok (decide (v.bytes = slice)), ()) ∧
    (∀ calls, (v.hash fuel).run calls = (.ok (), calls ++ hasher_calls v.bytes)) :=
  ⟨eq_spec hv hw hf, eq_slice_spec hv slice hf, hash_spec hf⟩

/-- Three bytes in one span, and in two. -/
theorem equality_and_hash_of_bytes_three :
    (BytesView.eq 4 ⟨[⟨[1, 2, 3], by decide⟩], 3, rfl⟩ ⟨[⟨[3], by decide⟩, ⟨[1, 2], by decide⟩], 3, rfl⟩).run () = (.ok true, ()) :=
  (equality_and_hash_of_bytes ⟨[⟨[1, 2, 3], by decide⟩], 3, rfl⟩ ⟨[⟨[3], by decide⟩, ⟨[1, 2], by decide⟩], 3, rfl⟩
    ⟨by decide, by decide⟩ ⟨by decide, by decide⟩ [] (by decide)).1

end Bytesbuf
