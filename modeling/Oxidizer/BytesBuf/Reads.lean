import Oxidizer.BytesBuf.Writes
/-!
# Growing, appending, peeking and consuming

`reserve` adds spare builders behind the existing ones, `put_bytes` freezes
what is unfrozen and appends the view's spans, `peek` reads the contents and
`consume_checked` takes a front part off them. The consume manifest is exact:
whole spans to detach, then strictly less than the next span.
-/

namespace Bytesbuf

open Lib Lib.Exec List BytesView

theorem total_len_eq {spans : List Span} (h : (spans.map Span.len).sum ≤ usizeMax) :
    total_len spans = some (spans.map Span.len).sum := by
  suffices ∀ acc, acc + (spans.map Span.len).sum ≤ usizeMax →
      spans.foldlM (fun acc span => checked_add acc span.len) acc = some (acc + (spans.map Span.len).sum) by
    simpa [total_len] using this 0 (by omega)
  clear h
  induction spans with
  | nil => intro acc _; rfl
  | cons span rest ih =>
    intro acc h
    rw [map_cons, sum_cons, ← Nat.add_assoc] at h ⊢
    rw [foldlM_cons, checked_add_of_le (by omega)]
    exact ih _ h

theorem BytesView.from_spans_reversed_run {σ : Type} (spans : List Span) (h : (spans.map Span.len).sum ≤ usizeMax)
    (s : σ) : ∃ v, (BytesView.from_spans_reversed spans).run s = (.ok v, s) ∧ v.bytes = spans.reverse.flatMap Span.bytes := by
  unfold from_spans_reversed
  split
  · exact ⟨_, rfl, rfl⟩
  · rename_i hn
    rw [total_len_eq h] at hn
    cases hn

variable {b : BytesBuf}

theorem BytesBuf.Inv.allSpare (h : b.Inv) (hl : b.len = b.frozen) : AllSpare b.span_builders_reversed := by
  obtain ⟨fs, sbs, len, fr, av⟩ := b
  rcases BytesBuf.shape ⟨fs, sbs, len, fr, av⟩ with hs | ⟨init, fb, hs⟩ <;> simp only at hs <;> subst hs
  · exact BytesBuf.allSpare_nil
  · obtain ⟨hinit, hfb, -, hlen, -, -⟩ := BytesBuf.inv_concat.mp h
    simp only at hl
    intro sb hsb
    rcases mem_append.mp hsb with hsb | hsb
    · exact hinit sb hsb
    · rw [mem_singleton.mp hsb]
      exact ⟨eq_nil_of_length_eq_zero (by omega), hfb⟩

theorem Memory.capacity_eq (m : Memory) {n : Nat} {buf : BytesBuf} (h : m.reserve n = some buf) :
    buf.capacity = buf.available := by
  have hb := (m.inv h).bounded
  rw [BytesBuf.capacity, BytesBuf.remaining_capacity, wrapping_add_of_le hb, m.empty h, Nat.zero_add]

theorem Memory.allSpare (m : Memory) {n : Nat} {buf : BytesBuf} (h : m.reserve n = some buf) :
    AllSpare buf.span_builders_reversed := by
  refine (m.inv h).allSpare ?_
  have := (m.inv h).len_eq
  have := m.empty h
  omega

namespace BytesBuf

/-! ## Constructors -/

theorem new_inv : new.Inv := (inv_spare allSpare_nil).mpr ⟨rfl, rfl, rfl, by decide⟩

theorem from_span_builders_inv {builders : List SpanBuilder} (hs : AllSpare builders) (hb : roomOf builders ≤ usizeMax) :
    (from_span_builders builders).Inv :=
  (inv_spare hs).mpr ⟨rfl, rfl, rfl, by simpa [roomOf] using hb⟩

theorem allSpare_blocks (blocks : List Block) : AllSpare (blocks.map Block.into_span_builder) := by
  intro sb hsb
  obtain ⟨block, -, rfl⟩ := mem_map.mp hsb
  exact ⟨rfl, block.nonzero⟩

/-! ## `reserve` -/

variable {n : Nat}

theorem reserve_enough (hn : n ≤ b.available) (m : Memory) :
    (reserve n m).run b = (.ok (), b) := by
  have h0 : n - b.available = 0 := by omega
  simp [reserve, remaining_capacity, h0]

theorem reserve_none (hn : b.available < n) {m : Memory} (hm : m.reserve (n - b.available) = none) :
    (reserve n m).run b = (.panic .memory_provider, b) := by
  have h0 : ¬ n - b.available = 0 := by omega
  simp [reserve, remaining_capacity, h0, extend_capacity_by_at_least, hm]

/-- `reserve` adds room behind the existing room, or panics because the total capacity would not be a `usize`. -/
theorem reserve_spec (h : b.Inv) (hn : b.available < n) {m : Memory} {mem : BytesBuf}
    (hmem : m.reserve (n - b.available) = some mem) :
    (b.len + b.available + mem.available ≤ usizeMax ∧ ∃ b', (reserve n m).run b = (.ok (), b') ∧
      b'.Inv ∧ b'.contents = b.contents ∧ b'.available = b.available + mem.available) ∨
    (usizeMax < b.len + b.available + mem.available ∧ (reserve n m).run b = (.panic .capacity_overflow, b)) := by
  have hn : ¬ n - b.available = 0 := by omega
  have hcap := m.capacity_eq hmem
  have hall := m.allSpare hmem
  have hmav := (m.inv hmem).available_eq
  have hbd := h.bounded
  rcases Nat.lt_or_ge usizeMax (b.len + b.available + mem.available) with hov | hfit
  · refine .inr ⟨hov, ?_⟩
    by_cases hadd : b.available + mem.available ≤ usizeMax
    · simp [reserve, remaining_capacity, hn, extend_capacity_by_at_least, hmem, hcap, checked_add_of_le hadd,
        assert_capacity_within_bounds, checked_add_of_gt (show usizeMax < b.len + (b.available + mem.available) by omega)]
    · simp [reserve, remaining_capacity, hn, extend_capacity_by_at_least, hmem, hcap, checked_add_of_gt (Nat.not_le.mp hadd)]
  · refine .inl ⟨hfit, { b with available := b.available + mem.available
                                span_builders_reversed := mem.span_builders_reversed ++ b.span_builders_reversed }, ?_, ?_⟩
    · simp [reserve, remaining_capacity, hn, extend_capacity_by_at_least, hmem, hcap,
        checked_add_of_le (show b.available + mem.available ≤ usizeMax by omega), assert_capacity_within_bounds,
        checked_add_of_le (show b.len + (b.available + mem.available) ≤ usizeMax by omega)]
    · obtain ⟨fs, sbs, len, fr, av⟩ := b
      change mem.available = roomOf _ at hmav
      simp only at hn hbd hfit
      rcases shape ⟨fs, sbs, len, fr, av⟩ with hs | ⟨init, fb, hs⟩ <;> simp only at hs <;> subst hs
      · obtain ⟨hfr, hlen, hav, -⟩ := (inv_spare allSpare_nil).mp h
        have hall' := AllSpare.append hall allSpare_nil
        refine ⟨(inv_spare hall').mpr ⟨hfr, hlen, ?_, ?_⟩, ?_, rfl⟩
        · rw [roomOf_append]; simp only; omega
        · simp only; omega
        · rw [contents_spare hall', contents_spare allSpare_nil]
      · obtain ⟨hinit, hfb, hfr, hlen, hav, -⟩ := inv_concat.mp h
        rw [← append_assoc]
        refine ⟨inv_concat.mpr ⟨AllSpare.append hall hinit, hfb, hfr, hlen, ?_, ?_⟩, ?_, rfl⟩
        · rw [roomOf_append]; simp only; omega
        · simp only; omega
        · rw [contents_concat, contents_concat]

/-! ## `put_bytes` and `peek` -/

theorem freeze_some_spec (h : b.Inv) (hn : b.frozen + n ≤ b.len) :
    ∃ b', (if n = 0 then pure () else freeze_from_first n : M Unit).run b = (.ok (), b') ∧ b'.Inv ∧
      b'.contents = b.contents ∧ b'.len = b.len ∧ b'.available = b.available ∧ b'.frozen = b.frozen + n := by
  have hlen := h.len_eq
  by_cases h0 : n = 0
  · exact ⟨b, by simp [h0], h, rfl, rfl, rfl, by omega⟩
  · rcases b.shape with hs | ⟨init, fb, hs⟩
    · simp [hs] at hlen; omega
    · have hfb : b.len = b.frozen + fb.filled.length := by simpa [hs, SpanBuilder.len] using hlen
      obtain ⟨b', hr, hi, hc, -, hl, ha, hf, -⟩ := freeze_from_first_spec h hs (k := n) (by omega)
      exact ⟨b', by rw [if_neg h0, hr], hi, hc, hl, ha, hf⟩

/-- `put_bytes` appends the view, or panics because the total capacity would not be a `usize`. -/
theorem put_bytes_spec (h : b.Inv) (view : BytesView) :
    (b.len + b.available + view.len ≤ usizeMax ∧ ∃ b', (put_bytes view).run b = (.ok (), b') ∧ b'.Inv ∧
      b'.contents = b.contents ++ view.bytes ∧ b'.available = b.available) ∨
    (usizeMax < b.len + b.available + view.len ∧ (put_bytes view).run b = (.panic .capacity_overflow, b)) := by
  by_cases he : view.len = 0
  · have hnil : view.bytes = [] := eq_nil_of_length_eq_zero (by rw [view.length_bytes, he])
    exact .inl ⟨by have := h.bounded; omega, b, by simp [put_bytes, BytesView.is_empty, he], h, by simp [hnil], rfl⟩
  · rcases Nat.lt_or_ge usizeMax (b.len + b.available + view.len) with hov | hfit
    · refine .inr ⟨hov, ?_⟩
      by_cases hadd : b.len + view.len ≤ usizeMax
      · simp [put_bytes, BytesView.is_empty, he, checked_add_of_le hadd, assert_capacity_within_bounds,
          checked_add_of_gt (show usizeMax < b.len + view.len + b.available by omega)]
      · simp [put_bytes, BytesView.is_empty, he, checked_add_of_gt (Nat.not_le.mp hadd)]
    · obtain ⟨b₁, hr, hi, hc, hl, ha, hf⟩ := freeze_some_spec h (Nat.le_of_eq h.len_eq.symm)
      rw [← h.len_eq, ← hl] at hf
      have hadd : b.len + view.len ≤ usizeMax := by omega
      have hwrap : wrapping_add b₁.frozen view.len = b₁.frozen + view.len := wrapping_add_of_le (by omega)
      have hsp := hi.allSpare hf.symm
      refine .inl ⟨hfit, { b₁ with len := b.len + view.len
                                   frozen := b₁.frozen + view.len
                                   frozen_spans := b₁.frozen_spans ++ view.spans_reversed.reverse }, ?_, ?_, ?_, ha⟩
      · have hbound : b.len + view.len + b.available ≤ usizeMax := by omega
        by_cases h0 : (b.span_builders_reversed.getLast?.map SpanBuilder.len).getD 0 = 0
        all_goals simp [h0] at hr
        · subst hr
          simp [put_bytes, BytesView.is_empty, he, checked_add_of_le hadd, assert_capacity_within_bounds,
            checked_add_of_le hbound, h0, hwrap]
        · simp [put_bytes, BytesView.is_empty, he, checked_add_of_le hadd, assert_capacity_within_bounds,
            checked_add_of_le hbound, h0, bind_ok hr, hwrap]
      · obtain ⟨hfr, -, hav, -⟩ := (inv_spare hsp).mp hi
        refine (inv_spare hsp).mpr ⟨?_, by omega, hav, by omega⟩
        rw [map_append, sum_append, map_reverse, sum_reverse, ← view.len_eq, ← hfr]
      · rw [contents_spare hsp, ← hc, flatMap_append]
        conv_rhs => rw [show b₁.contents = _ from contents_spare hsp b₁.frozen_spans b₁.len b₁.frozen b₁.available]
        rfl

theorem peek_first_builder_bytes (b : BytesBuf) :
    b.peek_first_builder.reverse.flatMap Span.bytes =
      (b.span_builders_reversed.getLast?.map SpanBuilder.filled).getD [] := by
  unfold peek_first_builder
  cases b.span_builders_reversed.getLast? with
  | none => rfl
  | some fb => by_cases h0 : fb.filled = [] <;> simp [SpanBuilder.peek, Span.is_empty, Span.len, h0]

theorem peek_run (h : b.contents.length ≤ usizeMax) :
    ∃ v, peek.run b = (.ok v, b) ∧ v.bytes = b.contents := by
  have hcont : (b.peek_first_builder ++ b.frozen_spans.reverse).reverse.flatMap Span.bytes = b.contents := by
    rw [reverse_append, reverse_reverse, flatMap_append, b.peek_first_builder_bytes, contents]
  obtain ⟨v, hr, hv⟩ := from_spans_reversed_run (b.peek_first_builder ++ b.frozen_spans.reverse)
    (by rw [← sum_reverse, ← map_reverse, ← length_spans, hcont]; exact h) b
  exact ⟨v, by simpa [peek] using hr, by rw [hv, hcont]⟩

theorem peek_spec (h : b.Inv) : ∃ v, peek.run b = (.ok v, b) ∧ v.bytes = b.contents :=
  peek_run (by have := h.bounded; rw [h.length_contents]; omega)

/-! ## `consume_checked` -/

/-- The manifest: `done` is detached whole, and `part` more bytes are wanted from the span behind it, fewer than it
has. -/
theorem prepare_consume_loop_spec (spans : List Span) (detach len : Nat) (h : len ≤ (spans.map Span.len).sum)
    (s : BytesBuf) : ∃ done rest part, spans = done ++ rest ∧
      (prepare_consume_loop spans detach len).run s = (.ok (detach + done.length, part), s) ∧
      len = (done.map Span.len).sum + part ∧ (part = 0 ∨ ∃ span rest', rest = span :: rest' ∧ part < span.len) := by
  induction spans generalizing detach len with
  | nil =>
    have : len = 0 := by simpa using h
    exact ⟨[], [], 0, rfl, by simp [prepare_consume_loop, this], by simp [this], .inl rfl⟩
  | cons span rest ih =>
    rw [map_cons, sum_cons] at h
    by_cases hle : span.len ≤ len
    · by_cases h0 : len - span.len = 0
      · refine ⟨[span], rest, 0, rfl, ?_, by simp; omega, .inl rfl⟩
        simp [prepare_consume_loop, hle, checked_sub_of_le hle, h0]
      · obtain ⟨done, rest', part, hs, hr, hl, hp⟩ := ih (detach + 1) (len - span.len) (by omega)
        have hsum : len = span.len + (done.map Span.len).sum + part := by clear hp; omega
        refine ⟨span :: done, rest', part, by rw [hs]; rfl, ?_, by rw [map_cons, sum_cons]; exact hsum, hp⟩
        simp only [prepare_consume_loop, hle, if_true, checked_sub_of_le hle, expect_some, pure_then, ne_eq, h0,
          not_false_eq_true, hr, length_cons]
        rw [Nat.add_assoc, Nat.add_comm 1]
    · exact ⟨[], span :: rest, len, rfl, by simp [prepare_consume_loop, hle], by simp,
        .inr ⟨span, rest, rfl, Nat.not_le.mp hle⟩⟩

variable {len : Nat}

theorem ensure_frozen_spec (h : b.Inv) (hl : len ≤ b.len) :
    ∃ b', (ensure_frozen len).run b = (.ok (), b') ∧ b'.Inv ∧ b'.contents = b.contents ∧ b'.len = b.len ∧
      b'.available = b.available ∧ len ≤ b'.frozen := by
  have hlen := h.len_eq
  have hblock : decide (len - b.frozen ≤ blockSizeMax) = true := by
    cases hg : b.span_builders_reversed.getLast? with
    | none => simp [hg] at hlen; exact decide_eq_true (by omega)
    | some fb =>
      have := fb.fits
      simp [hg, SpanBuilder.len] at hlen
      exact decide_eq_true (by omega)
  have hrun : (ensure_frozen len).run b =
      (if len - b.frozen = 0 then pure () else freeze_from_first (len - b.frozen) : M Unit).run b := by
    simp only [ensure_frozen, self_then, assert_true hblock, pure_then]
  rw [hrun]
  by_cases hle : b.frozen ≤ len
  · obtain ⟨b', hr, hi, hc, hl', ha, hf⟩ := freeze_some_spec h (n := len - b.frozen) (by omega)
    exact ⟨b', hr, hi, hc, hl', ha, by omega⟩
  · exact ⟨b, by rw [if_pos (by omega), run_pure], h, rfl, rfl, rfl, by omega⟩

theorem take_front (h : b.Inv) (hl : len ≤ b.frozen) {taken kept : List Span}
    (hbytes : (taken ++ kept).flatMap Span.bytes = b.frozen_spans.flatMap Span.bytes)
    (hlen : (taken.map Span.len).sum = len) :
    Inv { b with frozen_spans := kept, len := b.len - len, frozen := b.frozen - len } ∧
      taken.flatMap Span.bytes = b.contents.take len ∧
      contents { b with frozen_spans := kept, len := b.len - len, frozen := b.frozen - len } = b.contents.drop len := by
  have htl : (taken.flatMap Span.bytes).length = len := by rw [length_spans, hlen]
  have hcont : b.contents = taken.flatMap Span.bytes ++
      contents { b with frozen_spans := kept, len := b.len - len, frozen := b.frozen - len } := by
    rw [contents, ← hbytes, flatMap_append, append_assoc]; rfl
  have hsum : b.frozen = len + (kept.map Span.len).sum := by
    rw [h.frozen_eq, ← length_spans, ← hbytes, flatMap_append, length_append, htl, length_spans]
  refine ⟨⟨h.spare_empty, h.has_room, ?_, ?_, h.available_eq, ?_⟩, ?_, ?_⟩
  · simp only; omega
  · have := h.len_eq; simp only; omega
  · have := h.bounded; simp only; omega
  · rw [hcont, take_append_of_le_length (by omega), take_of_length_le (by omega)]
  · conv_rhs => rw [hcont]
    rw [drop_append_of_le_length (by omega), drop_of_length_le (by omega), nil_append]

/-- Splitting `part` bytes off the span behind `done`: what is taken, and the spans that then stand at its place. -/
theorem consume_partial_span_spec {done rest : List Span} {part : Nat} (hb : b.frozen_spans = done ++ rest)
    (hp : part = 0 ∨ ∃ span rest', rest = span :: rest' ∧ part < span.len) :
    ∃ taken kept, (consume_partial_span done.length part).run b =
        (.ok taken, { b with frozen_spans := done ++ kept }) ∧
      (taken ++ kept).flatMap Span.bytes = rest.flatMap Span.bytes ∧ (taken.map Span.len).sum = part ∧
      taken.reverse = taken ∧ part ≤ blockSizeMax := by
  rcases hp with rfl | ⟨span, rest', rfl, hlt⟩
  · refine ⟨[], rest, ?_, rfl, rfl, rfl, Nat.zero_le _⟩
    rw [← hb]; rfl
  · rcases Nat.eq_zero_or_pos part with rfl | hpos
    · refine ⟨[], span :: rest', ?_, rfl, rfl, rfl, Nat.zero_le _⟩
      rw [← hb]; rfl
    · have hle : part ≤ span.len := Nat.le_of_lt hlt
      obtain ⟨take, htake, hbt⟩ : ∃ take, span.slice part = some take ∧ take.bytes = span.bytes.take part :=
        ⟨_, if_pos hle, rfl⟩
      obtain ⟨back, hback, hbb⟩ : ∃ back, span.advance part = some back ∧ back.bytes = span.bytes.drop part :=
        ⟨_, if_pos hle, rfl⟩
      refine ⟨[take], back :: rest', ?_, ?_, ?_, rfl, Nat.le_trans hle span.fits⟩
      · simp [consume_partial_span, Nat.pos_iff_ne_zero.mp hpos, hb, htake, hback]
      · simp [hbt, hbb, ← append_assoc]
      · simpa [Span.len, hbt] using Nat.min_eq_left hle

/-- `consume_checked` takes exactly the front `len` bytes off the contents. -/
theorem consume_checked_spec (h : b.Inv) (hl : len ≤ b.len) :
    ∃ v b', (consume_checked len).run b = (.ok (some v), b') ∧ b'.Inv ∧ v.bytes = b.contents.take len ∧
      b'.contents = b.contents.drop len ∧ b'.available = b.available := by
  obtain ⟨b₁, hr₁, hi, hc, hl₁, ha, hf⟩ := ensure_frozen_spec h hl
  obtain ⟨done, rest, part, hspans, hr₂, hlen, hpart⟩ :=
    prepare_consume_loop_spec b₁.frozen_spans 0 len (by rw [← hi.frozen_eq]; exact hf) b₁
  obtain ⟨taken, kept, hr₃, hbytes, htl, hrev, hblock⟩ := consume_partial_span_spec hspans hpart
  rw [Nat.zero_add] at hr₂
  have hsum : ((done ++ taken).map Span.len).sum = len := by rw [map_append, sum_append, htl, hlen]
  have hall : (done ++ taken ++ kept).flatMap Span.bytes = b₁.frozen_spans.flatMap Span.bytes := by
    rw [append_assoc, flatMap_append, hbytes, hspans, flatMap_append]
  obtain ⟨hinv, hfront, hback⟩ := take_front hi hf hall hsum
  have hbd := hi.bounded
  have hwl : wrapping_sub b₁.len len = b₁.len - len := wrapping_sub_of_le (by omega) (by omega)
  have hwf : wrapping_sub b₁.frozen len = b₁.frozen - len :=
    wrapping_sub_of_le hf (by have := hi.len_eq; omega)
  obtain ⟨v, hr₄, hv⟩ := from_spans_reversed_run (taken ++ done.reverse)
    (by rw [map_append, sum_append, map_reverse, sum_reverse, htl]; omega)
    { b₁ with frozen_spans := kept, len := b₁.len - len, frozen := b₁.frozen - len }
  refine ⟨v, _, ?_, hinv, ?_, by rw [hback, hc], ha⟩
  · simp only [consume_checked, self_then, Nat.not_lt.mpr hl, if_false, bind_ok hr₁]
    have hprep : (prepare_consume len).run b₁ = (.ok (done.length, part), b₁) := by
      simp only [prepare_consume, self_then, bind_ok hr₂, assert_true (decide_eq_true hblock), pure_then, run_pure]
    simp only [bind_ok hprep, bind_ok hr₃, self_then, put_then, hwl, hwf, drop_left, take_left, bind_ok hr₄, run_pure]
  · rw [hv, reverse_append, reverse_reverse, hrev, hfront, hc]

theorem consume_checked_none (hl : b.len < len) :
    (consume_checked len).run b = (.ok none, b) := by
  simp [consume_checked, hl]

end BytesBuf

end Bytesbuf
