import Oxidizer.BytesBuf.Model
/-!
# Writing to a `BytesBuf`

Two views of a buffer carry every result: `contents`, the bytes written and
not consumed, and `spare`, the unfilled memory in the order it will be
filled. A write of `data` that fits appends `data` to the contents and takes
as many bytes off the front of `spare` (`Appended`), whichever path the code
takes; the fast path, both write loops and the vectored commit are instances.
-/

namespace Bytesbuf

open Lib Lib.Exec List

/-- Unfilled memory of a builder queue, in filling order. -/
def spareOf (builders : List SpanBuilder) : List UInt8 := builders.reverse.flatMap SpanBuilder.unfilled

/-- Builders that are spare capacity: no data, some room. -/
def AllSpare (builders : List SpanBuilder) : Prop := ∀ sb ∈ builders, sb.filled = [] ∧ sb.unfilled ≠ []

theorem AllSpare.append {xs ys : List SpanBuilder} (hx : AllSpare xs) (hy : AllSpare ys) : AllSpare (xs ++ ys) := by
  intro sb hsb
  rcases mem_append.mp hsb with h | h
  · exact hx sb h
  · exact hy sb h

def roomOf (builders : List SpanBuilder) : Nat := (builders.map SpanBuilder.remaining_capacity).sum

theorem spareOf_concat (init : List SpanBuilder) (fb : SpanBuilder) :
    spareOf (init ++ [fb]) = fb.unfilled ++ spareOf init := by
  simp [spareOf]

theorem spareOf_append (xs ys : List SpanBuilder) : spareOf (xs ++ ys) = spareOf ys ++ spareOf xs := by
  simp [spareOf]

@[simp] theorem roomOf_nil : roomOf [] = 0 := rfl

theorem roomOf_append (xs ys : List SpanBuilder) : roomOf (xs ++ ys) = roomOf xs + roomOf ys := by
  simp [roomOf]

theorem roomOf_concat (init : List SpanBuilder) (fb : SpanBuilder) :
    roomOf (init ++ [fb]) = roomOf init + fb.unfilled.length := by
  simp [roomOf, SpanBuilder.remaining_capacity]

theorem length_spareOf (builders : List SpanBuilder) : (spareOf builders).length = roomOf builders := by
  induction builders with
  | nil => rfl
  | cons sb rest ih =>
    rw [← singleton_append, spareOf_append, roomOf_append, length_append, ih]
    simp [spareOf, roomOf, SpanBuilder.remaining_capacity, Nat.add_comm]

theorem length_spans (spans : List Span) : (spans.flatMap Span.bytes).length = (spans.map Span.len).sum := by
  rw [length_flatMap]; rfl

theorem BytesView.length_bytes (v : BytesView) : v.bytes.length = v.len := by
  rw [BytesView.bytes, length_spans, map_reverse, sum_reverse, v.len_eq]

namespace BytesBuf

def contents (b : BytesBuf) : List UInt8 :=
  b.frozen_spans.flatMap Span.bytes ++ (b.span_builders_reversed.getLast?.map SpanBuilder.filled).getD []

/-- The unfilled memory, in filling order. -/
def spare (b : BytesBuf) : List UInt8 := spareOf b.span_builders_reversed

/-! ## The invariant, by the shape of the builder queue -/

variable {init : List SpanBuilder}

variable {fb : SpanBuilder}

theorem inv_concat {fs : List Span} {len fr av : Nat} :
    Inv ⟨fs, init ++ [fb], len, fr, av⟩ ↔ AllSpare init ∧ fb.unfilled ≠ [] ∧ fr = (fs.map Span.len).sum ∧
      len = fr + fb.filled.length ∧ av = roomOf init + fb.unfilled.length ∧ len + av ≤ usizeMax := by
  constructor
  · rintro ⟨h1, h2, h3, h4, h5, h6⟩
    simp only [dropLast_concat] at h1
    refine ⟨fun sb hsb => ⟨h1 sb hsb, h2 sb (mem_append_left _ hsb)⟩, h2 fb (by simp), h3, ?_, ?_, h6⟩
    · simpa [SpanBuilder.len] using h4
    · rw [← roomOf_concat]; exact h5
  · rintro ⟨h1, h2, h3, h4, h5, h6⟩
    refine ⟨?_, ?_, h3, ?_, ?_, h6⟩
    · simp only [dropLast_concat]; exact fun sb hsb => (h1 sb hsb).1
    · intro sb hsb
      rcases mem_append.mp hsb with hsb | hsb
      · exact (h1 sb hsb).2
      · rw [mem_singleton.mp hsb]; exact h2
    · simpa [SpanBuilder.len] using h4
    · rw [← roomOf_concat] at h5; exact h5

variable {builders : List SpanBuilder}

theorem getLast?_filled (h : AllSpare builders) :
    (builders.getLast?.map SpanBuilder.filled).getD [] = [] := by
  cases hl : builders.getLast? with
  | none => rfl
  | some fb => exact (h fb (mem_of_getLast? hl)).1

theorem inv_spare {fs : List Span} {len fr av : Nat} (h : AllSpare builders) :
    Inv ⟨fs, builders, len, fr, av⟩ ↔
      fr = (fs.map Span.len).sum ∧ len = fr ∧ av = roomOf builders ∧ len + av ≤ usizeMax := by
  have hl : (builders.getLast?.map SpanBuilder.len).getD 0 = 0 := by
    cases hl : builders.getLast? with
    | none => rfl
    | some fb => simp [SpanBuilder.len, (h fb (mem_of_getLast? hl)).1]
  constructor
  · rintro ⟨-, -, h3, h4, h5, h6⟩
    exact ⟨h3, by simpa [hl] using h4, h5, h6⟩
  · rintro ⟨h3, h4, h5, h6⟩
    exact ⟨fun sb hsb => (h sb (dropLast_subset _ hsb)).1, fun sb hsb => (h sb hsb).2, h3, by simpa [hl] using h4, h5, h6⟩

theorem allSpare_nil : AllSpare [] := by intro sb hsb; cases hsb

/-- The two shapes of a valid buffer: no builder at all, or a first builder behind spare ones. -/
theorem shape (b : BytesBuf) :
    b.span_builders_reversed = [] ∨ ∃ init fb, b.span_builders_reversed = init ++ [fb] := by
  rcases eq_nil_or_concat b.span_builders_reversed with h | ⟨init, fb, h⟩
  · exact .inl h
  · exact .inr ⟨init, fb, by rw [h, concat_eq_append]⟩

theorem contents_concat (fs : List Span) (init : List SpanBuilder) (fb : SpanBuilder) (len fr av : Nat) :
    contents ⟨fs, init ++ [fb], len, fr, av⟩ = fs.flatMap Span.bytes ++ fb.filled := by
  simp [contents]

theorem contents_spare (h : AllSpare builders) (fs : List Span) (len fr av : Nat) :
    contents ⟨fs, builders, len, fr, av⟩ = fs.flatMap Span.bytes := by
  simp [contents, getLast?_filled h]

variable {b : BytesBuf}

variable (h : b.Inv)
include h

theorem Inv.length_spare : b.spare.length = b.available := by
  rw [spare, length_spareOf, roomOf, h.available_eq]

theorem Inv.length_contents : b.contents.length = b.len := by
  rw [contents, length_append, length_spans, h.len_eq, h.frozen_eq]
  cases b.span_builders_reversed.getLast? <;> rfl

theorem Inv.first_unfilled_pos (ha : 0 < b.available) : 0 < b.first_unfilled_len := by
  obtain ⟨fs, sbs, len, fr, av⟩ := b
  rcases shape ⟨fs, sbs, len, fr, av⟩ with hs | ⟨init, fb, hs⟩ <;> simp only at hs <;> subst hs
  · have := ((inv_spare allSpare_nil).mp h).2.2.1
    exact absurd ha (by simp [this])
  · obtain ⟨-, hfb, -⟩ := inv_concat.mp h
    simpa [first_unfilled_len, SpanBuilder.remaining_capacity] using length_pos_of_ne_nil hfb

/-! ## Freezing -/

omit h in
theorem freeze_from_first_run {fb : SpanBuilder} (k : Nat)
    (hb : b.span_builders_reversed = init ++ [fb]) (hk : k ≤ fb.filled.length) (hf : b.frozen + k ≤ usizeMax) :
    ∃ span sb, span.bytes = fb.filled.take k ∧ sb.filled = fb.filled.drop k ∧ sb.unfilled = fb.unfilled ∧
      (freeze_from_first k).run b = (.ok (), { b with
        frozen_spans := b.frozen_spans ++ [span]
        span_builders_reversed := if fb.unfilled = [] then init else init ++ [sb]
        frozen := b.frozen + k }) := by
  obtain ⟨span, sb, hc, hspan, hsf, hsu⟩ : ∃ span sb, fb.consume k = some (span, sb) ∧
      span.bytes = fb.filled.take k ∧ sb.filled = fb.filled.drop k ∧ sb.unfilled = fb.unfilled :=
    ⟨_, _, if_pos hk, rfl, rfl, rfl⟩
  refine ⟨span, sb, hspan, hsf, hsu, ?_⟩
  by_cases hu : fb.unfilled = []
  all_goals
    simp [freeze_from_first, hb, hc, set_first_builder, SpanBuilder.remaining_capacity, hsu, hu, checked_add_of_le hf]

variable {k : Nat}

theorem freeze_from_first_spec
    (hb : b.span_builders_reversed = init ++ [fb]) (hk : k ≤ fb.filled.length) :
    ∃ b', (freeze_from_first k).run b = (.ok (), b') ∧ b'.Inv ∧ b'.contents = b.contents ∧ b'.spare = b.spare ∧
      b'.len = b.len ∧ b'.available = b.available ∧ b'.frozen = b.frozen + k ∧
      b'.frozen_spans.flatMap Span.bytes = b.frozen_spans.flatMap Span.bytes ++ fb.filled.take k := by
  obtain ⟨fs, sbs, len, fr, av⟩ := b
  subst hb
  obtain ⟨hinit, hfb, hfr, hlen, hav, hbd⟩ := inv_concat.mp h
  obtain ⟨span, sb, hspan, hsf, hsu, hrun⟩ :=
    freeze_from_first_run (b := ⟨fs, init ++ [fb], len, fr, av⟩) k rfl hk (by simp only; omega)
  refine ⟨_, hrun, ?_⟩
  simp only [if_neg hfb]
  have hsl : sb.filled.length = fb.filled.length - k := by rw [hsf, length_drop]
  have hspl : span.len = k := by rw [Span.len, hspan, length_take, Nat.min_eq_left hk]
  refine ⟨inv_concat.mpr ⟨hinit, hsu ▸ hfb, ?_, ?_, hsu ▸ hav, hbd⟩, ?_, ?_, trivial, trivial, trivial, ?_⟩
  · simp [hfr, hspl]
  · rw [hsl]; omega
  · simp [contents_concat, hspan, hsf]
  · simp [spare, spareOf_concat, hsu]
  · simp [hspan]

/-! ## Filling the first builder -/

omit h in
/-- `b'` is `b` with `data` written after its contents. -/
structure Appended (b : BytesBuf) (data : List UInt8) (b' : BytesBuf) : Prop where
  inv : b'.Inv
  contents : b'.contents = b.contents ++ data
  spare : b'.spare = b.spare.drop data.length

theorem Appended.refl : Appended b [] b := ⟨h, by simp, by simp⟩

omit h in
theorem Appended.trans {b b' b'' : BytesBuf} {d d' : List UInt8} (h : Appended b d b') (h' : Appended b' d' b'') :
    Appended b (d ++ d') b'' :=
  ⟨h'.inv, by rw [h'.contents, h.contents, append_assoc],
    by rw [h'.spare, h.spare, drop_drop, length_append]⟩

omit h in
theorem Appended.available {b b' : BytesBuf} {data : List UInt8} (h : Appended b data b') (hb : b.Inv) :
    b'.available = b.available - data.length := by
  rw [← h.inv.length_spare, h.spare, length_drop, hb.length_spare]

omit h in
omit h in
/-- The buffer after the first builder `fb` has become `fb'` by filling `n` more bytes: a full builder is frozen. -/
def fillFirst (b : BytesBuf) (init : List SpanBuilder) (fb' : SpanBuilder) (n : Nat) : BytesBuf :=
  if fb'.unfilled = [] then
    ⟨b.frozen_spans ++ [fb'.peek], init, b.len + n, b.frozen + fb'.filled.length, b.available - n⟩
  else ⟨b.frozen_spans, init ++ [fb'], b.len + n, b.frozen, b.available - n⟩

theorem fillFirst_appended {fb' : SpanBuilder}
    (data : List UInt8) (hb : b.span_builders_reversed = init ++ [fb]) (hd : data.length ≤ fb.unfilled.length)
    (hf : fb'.filled = fb.filled ++ data) (hu : fb'.unfilled = fb.unfilled.drop data.length) :
    Appended b data (fillFirst b init fb' data.length) := by
  obtain ⟨fs, sbs, len, fr, av⟩ := b
  subst hb
  obtain ⟨hinit, hfb, hfr, hlen, hav, hbd⟩ := inv_concat.mp h
  have hfl : fb'.filled.length = fb.filled.length + data.length := by rw [hf, length_append]
  have hul : fb'.unfilled.length = fb.unfilled.length - data.length := by rw [hu, length_drop]
  unfold fillFirst
  split
  · rename_i hu0
    have hd' : data.length = fb.unfilled.length := by
      have := congrArg List.length hu0
      simp only [length_nil] at this
      omega
    refine ⟨(inv_spare hinit).mpr ⟨?_, ?_, ?_, ?_⟩, ?_, ?_⟩
    · simp [hfr, SpanBuilder.peek, Span.len]
    · simp only; omega
    · simp only; omega
    · simp only; omega
    · rw [contents_spare hinit, contents_concat]; simp [SpanBuilder.peek, hf]
    · simp only [spare, spareOf_concat, hd', drop_left]
  · rename_i hu0
    refine ⟨inv_concat.mpr ⟨hinit, hu0, hfr, ?_, ?_, ?_⟩, ?_, ?_⟩
    · simp only; omega
    · simp only; omega
    · simp only; omega
    · rw [contents_concat, contents_concat, hf, append_assoc]
    · simp only [spare, spareOf_concat, hu, drop_append_of_le_length hd]

theorem advance_run
    (hb : b.span_builders_reversed = init ++ [fb]) (hk0 : 0 < k) (hk : k ≤ fb.unfilled.length) :
    ∃ fb', fb'.filled = fb.filled ++ fb.unfilled.take k ∧ fb'.unfilled = fb.unfilled.drop k ∧
      (advance k).run b = (.ok (), fillFirst b init fb' k) := by
  obtain ⟨fb', ha, hf, hu⟩ : ∃ fb', fb.advance k = some fb' ∧
      fb'.filled = fb.filled ++ fb.unfilled.take k ∧ fb'.unfilled = fb.unfilled.drop k :=
    ⟨_, if_pos hk, rfl, rfl⟩
  refine ⟨fb', hf, hu, ?_⟩
  obtain ⟨fs, sbs, len, fr, av⟩ := b
  subst hb
  obtain ⟨-, -, -, hlen, hav, hbd⟩ := inv_concat.mp h
  have hfl : fb'.filled.length = fb.filled.length + k := by
    rw [hf, length_append, length_take, Nat.min_eq_left hk]
  have hlk : len + k ≤ usizeMax := by omega
  have hak : k ≤ av := by omega
  simp only [advance, Nat.pos_iff_ne_zero.mp hk0, if_false, self_then, getLast?_concat, expect_some, pure_then, ha, put_then]
  by_cases hu0 : fb'.unfilled = []
  · obtain ⟨span, sb, hspan, -, -, hrun⟩ := freeze_from_first_run
      (b := set_first_builder ⟨fs, init ++ [fb], len, fr, av⟩ fb') fb'.len
      (show _ = init ++ [fb'] by simp [set_first_builder]) (Nat.le_refl _)
      (by simp only [set_first_builder, SpanBuilder.len]; omega)
    have hpeek : span = fb'.peek := by
      exact Span.ext (by rw [hspan, SpanBuilder.len, take_length]; rfl)
    have hne : (fb'.len != 0) = true := by simp [SpanBuilder.len, hfl]; omega
    simp only [SpanBuilder.remaining_capacity, hu0, length_nil, if_true, assert_true hne, pure_then, bind_ok hrun]
    simp [fillFirst, hu0, set_first_builder, checked_add_of_le hlk, checked_sub_of_le hak, hpeek, SpanBuilder.len]
  · have hne : fb'.remaining_capacity ≠ 0 := by simpa [SpanBuilder.remaining_capacity] using hu0
    simp [hne, fillFirst, hu0, set_first_builder, checked_add_of_le hlk, checked_sub_of_le hak]

theorem advance_spec (hk : k ≤ b.first_unfilled_len) :
    ∃ b', (advance k).run b = (.ok (), b') ∧ Appended b (b.spare.take k) b' := by
  rcases Nat.eq_zero_or_pos k with rfl | hk0
  · exact ⟨b, rfl, by simpa using Appended.refl h⟩
  · rcases b.shape with hs | ⟨init, fb, hs⟩
    · simp only [first_unfilled_len, hs] at hk
      exact absurd hk (by simp; omega)
    · have hk' : k ≤ fb.unfilled.length := by simpa [first_unfilled_len, hs, SpanBuilder.remaining_capacity] using hk
      obtain ⟨fb', hf, hu, hrun⟩ := advance_run h hs hk0 hk'
      have htake : b.spare.take k = fb.unfilled.take k := by
        rw [spare, hs, spareOf_concat, take_append_of_le_length hk']
      have hlen : (fb.unfilled.take k).length = k := by rw [length_take, Nat.min_eq_left hk']
      refine ⟨_, hrun, ?_⟩
      rw [htake]
      have := fillFirst_appended h (fb.unfilled.take k) hs (by omega) hf (by rw [hlen, hu])
      rwa [hlen] at this

variable {src : List UInt8}

theorem copy_to_first_unfilled_spec
    (hs : src.length ≤ b.first_unfilled_len) :
    ∃ b', (copy_to_first_unfilled src).run b = (.ok (), b') ∧ b'.Inv ∧ b'.contents = b.contents ∧
      b'.spare = src ++ b.spare.drop src.length ∧ b'.first_unfilled_len = b.first_unfilled_len := by
  obtain ⟨fs, sbs, len, fr, av⟩ := b
  rcases shape ⟨fs, sbs, len, fr, av⟩ with hb | ⟨init, fb, hb⟩ <;> simp only at hb <;> subst hb
  · have : src = [] := eq_nil_of_length_eq_zero (Nat.le_zero.mp hs)
    subst this
    exact ⟨_, rfl, h, rfl, by simp, rfl⟩
  · have hs' : src.length ≤ fb.unfilled.length := by
      simpa [first_unfilled_len, SpanBuilder.remaining_capacity] using hs
    obtain ⟨fb', hc, hf, hu⟩ : ∃ fb', fb.copy_to_unfilled src = some fb' ∧ fb'.filled = fb.filled ∧
        fb'.unfilled = src ++ fb.unfilled.drop src.length := ⟨_, dif_pos hs', rfl, rfl⟩
    have hul : fb'.unfilled.length = fb.unfilled.length := by
      rw [hu, length_append, length_drop]; omega
    obtain ⟨hinit, hfb, hfr, hlen, hav, hbd⟩ := inv_concat.mp h
    refine ⟨_, by simp [copy_to_first_unfilled, hc, set_first_builder]; rfl, ?_, ?_, ?_, ?_⟩
    · exact inv_concat.mpr ⟨hinit, by rw [← length_pos_iff, hul]; exact length_pos_of_ne_nil hfb, hfr,
        by rw [hf]; exact hlen, by rw [hul]; exact hav, hbd⟩
    · rw [contents_concat, contents_concat, hf]
    · simp only [spare, spareOf_concat, hu, drop_append_of_le_length hs', append_assoc]
    · simp [first_unfilled_len, SpanBuilder.remaining_capacity, hul]

theorem write_chunk (src : List UInt8) (hs : src.length ≤ b.first_unfilled_len) :
    ∃ b₁ b', (copy_to_first_unfilled src).run b = (.ok (), b₁) ∧ (advance src.length).run b₁ = (.ok (), b') ∧
      Appended b src b' := by
  obtain ⟨b₁, hr₁, hi₁, hc₁, hsp₁, hl₁⟩ := copy_to_first_unfilled_spec h hs
  obtain ⟨b₂, hr₂, ha₂⟩ := advance_spec hi₁ (k := src.length) (by omega)
  have ht : b₁.spare.take src.length = src := by rw [hsp₁, take_left]
  rw [ht] at ha₂
  refine ⟨b₁, b₂, hr₁, hr₂, ha₂.inv, by rw [ha₂.contents, hc₁], ?_⟩
  rw [ha₂.spare, hsp₁, drop_left]

/-! ## `put_slice` and `put_byte_repeated` -/

/-- The fast path either writes all of `src` or leaves the buffer to the looped path. -/
theorem put_small_spec (hs : src.length ≤ b.available) :
    (∃ b', (put_small src).run b = (.ok true, b') ∧ Appended b src b') ∨ (put_small src).run b = (.ok false, b) := by
  have hassert : decide (src.length ≤ b.remaining_capacity) = true := decide_eq_true hs
  obtain ⟨fs, sbs, len, fr, av⟩ := b
  rcases shape ⟨fs, sbs, len, fr, av⟩ with hb | ⟨init, fb, hb⟩ <;> simp only at hb <;> subst hb
  · exact .inr (by simp [put_small, assert_true hassert])
  · by_cases hfit : fb.remaining_capacity < src.length
    · exact .inr (by simp [put_small, assert_true hassert, hfit])
    · have hfit' : src.length ≤ fb.unfilled.length := Nat.not_lt.mp hfit
      obtain ⟨fb₁, hc, hf₁, hu₁⟩ : ∃ fb₁, fb.copy_to_unfilled src = some fb₁ ∧ fb₁.filled = fb.filled ∧
          fb₁.unfilled = src ++ fb.unfilled.drop src.length := ⟨_, dif_pos hfit', rfl, rfl⟩
      obtain ⟨fb₂, ha, hf₂, hu₂⟩ : ∃ fb₂, fb₁.advance src.length = some fb₂ ∧
          fb₂.filled = fb.filled ++ src ∧ fb₂.unfilled = fb.unfilled.drop src.length :=
        ⟨_, if_pos (by simp [SpanBuilder.remaining_capacity, hu₁]), by simp [hf₁, hu₁], by simp [hu₁]⟩
      refine .inl ⟨_, ?_, fillFirst_appended h src rfl hfit' hf₂ hu₂⟩
      obtain ⟨-, hfb, -, hlen, hav, hbd⟩ := inv_concat.mp h
      have hlk : len + src.length ≤ usizeMax := by omega
      have hak : src.length ≤ av := by omega
      have hne : (fb₂.remaining_capacity != 0 || fb₂.len != 0) = true := by
        have := length_pos_of_ne_nil hfb
        have := congrArg List.length hf₂
        have := congrArg List.length hu₂
        simp only [length_append, length_drop] at *
        simp [SpanBuilder.remaining_capacity, SpanBuilder.len, -length_eq_zero_iff]
        omega
      have hflen := congrArg List.length hf₂
      rw [length_append] at hflen
      simp only [put_small, self_then, assert_true hassert, pure_then, getLast?_concat, hfit, if_false, hc, ha,
        expect_some, put_then, assert_true hne, set_first_builder, dropLast_concat, checked_add_of_le hlk,
        checked_sub_of_le hak]
      by_cases hu0 : fb₂.unfilled = []
      · obtain ⟨span, sb, hspan, -, -, hrun⟩ := freeze_from_first_run
          (b := ⟨fs, init ++ [fb₂], len + src.length, fr, av - src.length⟩) fb₂.len rfl (Nat.le_refl _) (by simp only [SpanBuilder.len]; omega)
        have hpeek : span = fb₂.peek := Span.ext (by rw [hspan, SpanBuilder.len, take_length]; rfl)
        simp only [SpanBuilder.remaining_capacity, hu0, length_nil, if_true, bind_ok hrun]
        simp [fillFirst, hu0, hpeek, SpanBuilder.len]
      · have : fb₂.remaining_capacity ≠ 0 := by simpa [SpanBuilder.remaining_capacity] using hu0
        simp [this, fillFirst, hu0]

omit h in
theorem put_small_short (hs : b.available < src.length) :
    (put_small src).run b = (.panic .insufficient_capacity, b) := by
  have : decide (src.length ≤ b.remaining_capacity) = false := decide_eq_false (Nat.not_le.mpr hs)
  simp [put_small, assert_false this]

variable {fuel : Nat}

omit h in
/-- The write loops: each round writes a non-empty chunk of what is left to
write (`left`, which may be read off the buffer), until nothing is left. -/
theorem write_loop {β : Type} {round : β → M (β ⊕ Unit)} (left : β → BytesBuf → List UInt8) (I : β → BytesBuf → Prop)
    (hinv : ∀ x b, I x b → b.Inv)
    (hdone : ∀ x b, I x b → left x b = [] → (round x).run b = (.ok (.inr ()), b))
    (hround : ∀ x b, I x b → left x b ≠ [] → ∃ chunk y b', left x b = chunk ++ left y b' ∧ chunk ≠ [] ∧
      (round x).run b = (.ok (.inl y), b') ∧ I y b' ∧ Appended b chunk b')
    {x : β} (h : I x b) (hf : (left x b).length < fuel) :
    ∃ b', (loop fuel round x).run b = (.ok (), b') ∧ Appended b (left x b) b' := by
  obtain ⟨⟨⟩, b', hr, ha⟩ := loop_total round (fun y s => (left y s).length)
    (fun y s => I y s ∧ ∃ written, left x b = written ++ left y s ∧ Appended b written s)
    (fun _ s => Appended b (left x b) s)
    (by
      rintro y s ⟨hI, written, hw, ha⟩
      by_cases hl : left y s = []
      · exact .inr ⟨(), s, hdone y s hI hl, by rw [hw, hl, append_nil]; exact ha⟩
      · obtain ⟨chunk, z, s', hc, hne, hr, hI', ha'⟩ := hround y s hI hl
        refine .inl ⟨z, s', hr, ⟨hI', written ++ chunk, by rw [hw, hc, append_assoc], ha.trans ha'⟩, ?_⟩
        rw [hc, length_append]
        exact Nat.lt_add_of_pos_left (length_pos_of_ne_nil hne))
    fuel x b ⟨h, [], rfl, Appended.refl (hinv x b h)⟩ hf
  exact ⟨b', hr, ha⟩

theorem put_slice_looped_spec (hs : src.length ≤ b.available)
    (hf : src.length < fuel) :
    ∃ b', (put_slice_looped fuel src).run b = (.ok (), b') ∧ Appended b src b' := by
  have hassert : decide (src.length ≤ b.remaining_capacity) = true := decide_eq_true hs
  simp only [put_slice_looped, self_then, assert_true hassert, pure_then]
  refine write_loop (fun src _ => src) (fun src b => b.Inv ∧ src.length ≤ b.available) (fun _ _ h => h.1) ?_ ?_ ⟨h, hs⟩ hf
  · rintro x b - rfl
    rfl
  · rintro src b ⟨h, hs⟩ hne
    have hpos := length_pos_of_ne_nil hne
    have hfirst := h.first_unfilled_pos (by omega)
    obtain ⟨n, hn⟩ : ∃ n, n = min b.first_unfilled_len src.length := ⟨_, rfl⟩
    have hlen : (src.take n).length = n := by rw [length_take]; omega
    obtain ⟨b₁, b', hr₁, hr, ha⟩ := write_chunk h (src.take n) (by omega)
    rw [hlen] at hr
    refine ⟨src.take n, src.drop n, b', (take_append_drop ..).symm, ?_, ?_, ⟨ha.inv, ?_⟩, ha⟩
    · rw [← length_pos_iff, hlen]; omega
    · simp only [put_slice_round, hne, if_false, self_then, ← hn, bind_ok hr₁, bind_ok hr, run_pure]
    · rw [ha.available h, length_drop, hlen]; omega

theorem put_slice_spec (hs : src.length ≤ b.available)
    (hf : src.length < fuel) :
    ∃ b', (put_slice fuel src).run b = (.ok (), b') ∧ Appended b src b' := by
  rcases put_small_spec h hs with ⟨b', hr, ha⟩ | hr
  · exact ⟨b', by simp [put_slice, bind_ok hr], ha⟩
  · obtain ⟨b', hr', ha⟩ := put_slice_looped_spec h hs hf
    exact ⟨b', by simpa [put_slice, bind_ok hr] using hr', ha⟩

omit h in
theorem put_slice_short (hs : b.available < src.length) (fuel : Nat) :
    (put_slice fuel src).run b = (.panic .insufficient_capacity, b) := by
  rw [put_slice, bind_panic (put_small_short hs)]

theorem put_byte_repeated_spec (value : UInt8) {count : Nat} (hs : count ≤ b.available)
    (hf : count < fuel) :
    ∃ b', (put_byte_repeated fuel value count).run b = (.ok (), b') ∧ Appended b (List.replicate count value) b' := by
  have hassert : decide (count ≤ b.remaining_capacity) = true := decide_eq_true hs
  simp only [put_byte_repeated, self_then, assert_true hassert, pure_then]
  refine write_loop (fun count _ => replicate count value)
    (fun count b => b.Inv ∧ count ≤ b.available) (fun _ _ h => h.1) ?_ ?_ ⟨h, hs⟩ (by simpa using hf)
  · intro count b _ h0
    have : count = 0 := by simpa using h0
    simp [put_byte_repeated_round, this]
  · rintro count b ⟨h, hs⟩ hne
    have h0 : count ≠ 0 := fun h0 => hne (by simp [h0])
    have hfirst := h.first_unfilled_pos (by omega)
    obtain ⟨n, hn⟩ : ∃ n, n = min b.first_unfilled_len count := ⟨_, rfl⟩
    obtain ⟨b₁, b', hr₁, hr, ha⟩ := write_chunk h (replicate n value) (by simp; omega)
    rw [length_replicate] at hr
    refine ⟨replicate n value, count - n, b', ?_, ?_, ?_, ⟨ha.inv, ?_⟩, ha⟩
    · rw [replicate_append_replicate]; congr 1; omega
    · simp only [ne_eq, replicate_eq_nil_iff]; omega
    · simp only [put_byte_repeated_round, h0, if_false, self_then, ← hn, bind_ok hr₁, bind_ok hr, run_pure]
    · rw [ha.available h, length_replicate]; omega

omit h in
theorem put_byte_repeated_short {count : Nat} (hs : b.available < count) (fuel : Nat) (value : UInt8) :
    (put_byte_repeated fuel value count).run b = (.panic .insufficient_capacity, b) := by
  have : decide (count ≤ b.remaining_capacity) = false := decide_eq_false (Nat.not_le.mpr hs)
  simp [put_byte_repeated, assert_false this]

theorem commit_spec {n : Nat} (hn : n ≤ b.available) (hf : n < fuel) :
    ∃ b', (commit fuel n).run b = (.ok (), b') ∧ Appended b (b.spare.take n) b' := by
  refine write_loop (fun n b => b.spare.take n) (fun n b => b.Inv ∧ n ≤ b.available)
    (fun _ _ h => h.1) ?_ ?_ ⟨h, hn⟩ (by rw [length_take]; omega)
  · rintro n b ⟨h, hn⟩ h0
    have : n = 0 := by
      have := congrArg List.length h0
      rw [length_take, h.length_spare] at this
      simp only [length_nil] at this
      omega
    simp [commit_round, this]
  · rintro n b ⟨h, hn⟩ hne
    have h0 : n ≠ 0 := fun h0 => hne (by simp [h0])
    have hfirst := h.first_unfilled_pos (by omega)
    obtain ⟨fb, hfb, hfl⟩ : ∃ fb, b.span_builders_reversed.getLast? = some fb ∧
        b.first_unfilled_len = fb.remaining_capacity := by
      cases hl : b.span_builders_reversed.getLast? with
      | none => simp [first_unfilled_len, hl] at hfirst
      | some fb => exact ⟨fb, rfl, by simp [first_unfilled_len, hl]⟩
    obtain ⟨k, hk⟩ : ∃ k, k = min fb.remaining_capacity n := ⟨_, rfl⟩
    obtain ⟨b', hr, ha⟩ := advance_spec h (k := k) (by omega)
    have hlen : (b.spare.take k).length = k := by rw [length_take, h.length_spare]; omega
    refine ⟨b.spare.take k, n - k, b', ?_, ?_, ?_, ⟨ha.inv, ?_⟩, ha⟩
    · rw [ha.spare, hlen, take_drop, show k + (n - k) = n by omega,
        show b.spare.take k = (b.spare.take n).take k by rw [take_take, Nat.min_eq_left (by omega)], take_append_drop]
    · rw [← length_pos_iff, hlen]; omega
    · simp only [commit_round, h0, if_false, self_then, hfb, expect_some, pure_then, ← hk, bind_ok hr,
        checked_sub_of_le (show k ≤ n by omega), run_pure]
    · rw [ha.available h, hlen]; omega

end BytesBuf

end Bytesbuf
