import Oxidizer.BytesBuf.Writes
/-!
# Vectored writes

While a vectored write is open the caller overwrites unfilled memory of any
number of builders. That changes no builder's filled part and no builder's
room, so the buffer stays valid; and since the cursor exposes the builders in
filling order, filling the exposed slices one after the other overwrites a
front part of `spare`, which `commit` then appends.
-/

namespace Bytesbuf

open Lib Lib.Exec List

/-- What the invariant reads of a builder queue. -/
def shapeOf (builders : List SpanBuilder) : List (List UInt8 × Nat) :=
  builders.map fun sb => (sb.filled, sb.unfilled.length)

theorem roomOf_eq_shape (builders : List SpanBuilder) : roomOf builders = ((shapeOf builders).map Prod.snd).sum := by
  simp only [roomOf, shapeOf, map_map]; rfl

theorem getLast?_eq_shape (builders : List SpanBuilder) :
    (builders.getLast?.map SpanBuilder.filled) = (shapeOf builders).getLast?.map Prod.fst := by
  simp [shapeOf, getLast?_map, Function.comp_def]

namespace BytesBuf

variable {b : BytesBuf}

theorem Inv.of_shape (h : b.Inv) {builders : List SpanBuilder}
    (hs : shapeOf builders = shapeOf b.span_builders_reversed) :
    Inv { b with span_builders_reversed := builders } := by
  have hlen : ∀ l : List SpanBuilder, (l.getLast?.map SpanBuilder.len).getD 0 =
      (((shapeOf l).getLast?.map Prod.fst).map List.length).getD 0 := by
    intro l
    rw [← getLast?_eq_shape]
    cases l.getLast? <;> rfl
  refine ⟨?_, ?_, h.frozen_eq, ?_, ?_, h.bounded⟩
  · intro sb hsb
    have hm : (sb.filled, sb.unfilled.length) ∈ (shapeOf b.span_builders_reversed).dropLast := by
      rw [← hs, shapeOf, ← map_dropLast]; exact mem_map.mpr ⟨sb, hsb, rfl⟩
    rw [shapeOf, ← map_dropLast] at hm
    obtain ⟨sb₀, hsb₀, he⟩ := mem_map.mp hm
    exact (Prod.mk.inj he).1 ▸ h.spare_empty sb₀ hsb₀
  · intro sb hsb
    have hm : (sb.filled, sb.unfilled.length) ∈ shapeOf b.span_builders_reversed := by
      rw [← hs]; exact mem_map.mpr ⟨sb, hsb, rfl⟩
    obtain ⟨sb₀, hsb₀, he⟩ := mem_map.mp hm
    rw [← length_pos_iff, ← (Prod.mk.inj he).2, length_pos_iff]
    exact h.has_room sb₀ hsb₀
  · simp only [hlen, hs]; rw [← hlen]; exact h.len_eq
  · change b.available = roomOf builders
    rw [roomOf_eq_shape, hs, ← roomOf_eq_shape]; exact h.available_eq

/-- `b'` is `b` with `data` written over the front of its unfilled memory. -/
structure Overwritten (b : BytesBuf) (data : List UInt8) (b' : BytesBuf) : Prop where
  rest : b' = { b with span_builders_reversed := b'.span_builders_reversed }
  shape : shapeOf b'.span_builders_reversed = shapeOf b.span_builders_reversed
  spare : b'.spare = data ++ b.spare.drop data.length

namespace Overwritten
variable {b b' : BytesBuf} {data : List UInt8}

theorem refl (b : BytesBuf) : Overwritten b [] b := ⟨rfl, rfl, rfl⟩

variable (h : Overwritten b data b')
include h

theorem inv (hb : b.Inv) : b'.Inv := by
  rw [h.rest]; exact hb.of_shape h.shape

theorem contents : b'.contents = b.contents := by
  rw [h.rest, BytesBuf.contents, BytesBuf.contents, getLast?_eq_shape, getLast?_eq_shape, h.shape]

theorem available : b'.available = b.available := by rw [h.rest]

theorem count :
    b'.span_builders_reversed.length = b.span_builders_reversed.length := by
  simpa [shapeOf] using congrArg List.length h.shape

end Overwritten

theorem write_slice_spec {b b' : BytesBuf} {data : List UInt8} (src : List UInt8) {before after : List SpanBuilder}
    {sb : SpanBuilder} (h : Overwritten b data b') (hb : b'.span_builders_reversed = before ++ sb :: after)
    (hd : data.length = roomOf after) (hs : src.length ≤ sb.unfilled.length) :
    ∃ b'', (write_slice before.length src).run b' = (.ok (), b'') ∧ Overwritten b (data ++ src) b'' := by
  obtain ⟨sb', hc, hf, hu⟩ : ∃ sb', sb.copy_to_unfilled src = some sb' ∧ sb'.filled = sb.filled ∧
      sb'.unfilled = src ++ sb.unfilled.drop src.length := ⟨_, dif_pos hs, rfl, rfl⟩
  have hul : sb'.unfilled.length = sb.unfilled.length := by rw [hu, length_append, length_drop]; omega
  have hspare : ∀ s : SpanBuilder, spareOf (before ++ s :: after) = spareOf after ++ (s.unfilled ++ spareOf before) := by
    intro s
    rw [← singleton_append, ← append_assoc, spareOf_append, spareOf_concat]
  -- the builders behind the cursor hold exactly the overwritten part
  have hfront := h.spare
  rw [BytesBuf.spare, hb, hspare] at hfront
  obtain ⟨hafter, hrest⟩ := append_inj hfront (by rw [length_spareOf, hd])
  refine ⟨{ b' with span_builders_reversed := before ++ sb' :: after }, ?_, ?_, ?_, ?_⟩
  · simp [write_slice, hc, hb]
  · rw [h.rest]
  · rw [← h.shape, hb]; simp [shapeOf, hf, hul]
  · change spareOf (before ++ sb' :: after) = _
    rw [hspare, hafter, hu, append_assoc, append_assoc, length_append, ← drop_drop, ← hrest, drop_append_of_le_length hs]

/-- How many bytes a vectored write limited to `max_len` exposes. -/
def exposed (b : BytesBuf) (max_len : Option Nat) : Nat := min (max_len.getD b.available) b.available

/-- Room of the `j` builders that are filled first. -/
def roomOfFirst (b : BytesBuf) (j : Nat) : Nat :=
  roomOf (b.span_builders_reversed.drop (b.span_builders_reversed.length - j))

/-- Where the cursor stands after exposing `pos` bytes: in front of builder
`j`, all earlier ones exposed in full, or at its end. -/
inductive CursorAt (b : BytesBuf) (max_len : Option Nat) (it : BytesBufRemaining) (pos : Nat) : Prop where
  | builder (j : Nat) (hj : j < b.span_builders_reversed.length) (hpos : pos = b.roomOfFirst j)
      (hle : ∀ m ∈ max_len, pos ≤ m) (hit : it = ⟨some j, max_len.map (· - pos)⟩)
  | ended (hpos : pos = b.exposed max_len) (hit : it.next_span_builder_index = none)

theorem iter_available_capacity_at (h : b.Inv) (max_len : Option Nat) :
    CursorAt b max_len (b.iter_available_capacity max_len) 0 := by
  by_cases hs : b.span_builders_reversed = []
  · have ha : b.available = 0 := by rw [h.available_eq, hs]; rfl
    exact .ended (by simp [exposed, ha]) (by simp [iter_available_capacity, hs])
  · refine .builder 0 (length_pos_of_ne_nil hs) (by simp [roomOfFirst]) (by simp) ?_
    cases max_len <;> simp [iter_available_capacity, hs]

variable {max_len : Option Nat}

variable {it : BytesBufRemaining} {pos : Nat}

theorem CursorAt.of_shape {b b' : BytesBuf}
    (h : CursorAt b max_len it pos) (hs : shapeOf b'.span_builders_reversed = shapeOf b.span_builders_reversed)
    (ha : b'.available = b.available) : CursorAt b' max_len it pos := by
  have hcount : b'.span_builders_reversed.length = b.span_builders_reversed.length := by
    simpa [shapeOf] using congrArg List.length hs
  cases h with
  | builder j hj hpos hle hit =>
    refine .builder j (hcount ▸ hj) ?_ hle hit
    have hdrop : ∀ l : List SpanBuilder, ∀ n, shapeOf (l.drop n) = (shapeOf l).drop n := fun l n => map_drop
    rw [hpos, roomOfFirst, roomOfFirst, roomOf_eq_shape, roomOf_eq_shape, hdrop, hdrop, hs, hcount]
  | ended hpos hit => exact .ended (by rw [hpos, exposed, exposed, ha]) hit

theorem CursorAt.le_exposed (h : b.Inv)
    (hc : CursorAt b max_len it pos) : pos ≤ b.exposed max_len := by
  cases hc with
  | ended hpos hit => exact Nat.le_of_eq hpos
  | builder j hj hpos hle hit =>
    have hroom : pos ≤ b.available := by
      rw [hpos, roomOfFirst, h.available_eq]
      conv_rhs => rw [← take_append_drop (b.span_builders_reversed.length - j) b.span_builders_reversed]
      rw [map_append, sum_append]
      exact Nat.le_add_left _ _
    cases max_len with
    | none => simpa [exposed] using hroom
    | some m => exact Nat.le_min.mpr ⟨hle m rfl, hroom⟩

theorem split_at_builder {j : Nat} (hj : j < b.span_builders_reversed.length) :
    ∃ before sb after, b.span_builders_reversed = before ++ sb :: after ∧ after.length = j ∧
      roomOf after = b.roomOfFirst j ∧ b.roomOfFirst (j + 1) = b.roomOfFirst j + sb.unfilled.length := by
  obtain ⟨k, hk⟩ : ∃ k, k = b.span_builders_reversed.length - (j + 1) := ⟨_, rfl⟩
  have hk' : k < b.span_builders_reversed.length := by omega
  have hk1 : b.span_builders_reversed.length - j = k + 1 := by omega
  have hd := drop_eq_getElem_cons hk'
  refine ⟨b.span_builders_reversed.take k, b.span_builders_reversed[k], b.span_builders_reversed.drop (k + 1), ?_, ?_, ?_, ?_⟩
  · rw [← hd, take_append_drop]
  · rw [length_drop]; omega
  · rw [roomOfFirst, hk1]
  · rw [roomOfFirst, roomOfFirst, hk1, ← hk, hd, ← singleton_append, roomOf_append, Nat.add_comm]
    rfl

/-- The cursor's next slice is the rest of the limit or the whole room of the
builder it is in front of, and it moves past that slice. -/
theorem next_spec (h : b.Inv) (hm : ∀ m ∈ max_len, m ≤ b.available)
    {j : Nat} (hj : j < b.span_builders_reversed.length) (hpos : pos = b.roomOfFirst j)
    (hle : ∀ m ∈ max_len, pos ≤ m) (hit : it = ⟨some j, max_len.map (· - pos)⟩) :
    ∃ before sb after n it', b.span_builders_reversed = before ++ sb :: after ∧ pos = roomOf after ∧
      n ≤ sb.unfilled.length ∧ (it.next).run b = (.ok (some (before.length, n), it'), b) ∧
      CursorAt b max_len it' (pos + n) ∧
      (it'.next_span_builder_index = none ∨ it'.next_span_builder_index = some (j + 1)) := by
  obtain ⟨before, sb, after, hb, hlen, hroom, hnext⟩ := split_at_builder hj
  have hcount : b.span_builders_reversed.length = before.length + (j + 1) := by
    rw [hb, length_append, length_cons, hlen]
  have hsize : b.span_builders_reversed.length ≤ b.available := by
    rw [h.available_eq, ← length_map (f := SpanBuilder.remaining_capacity)]
    refine length_le_sum_of_one_le _ ?_
    intro n hn
    obtain ⟨sb, hsb, rfl⟩ := mem_map.mp hn
    exact length_pos_of_ne_nil (h.has_room sb hsb)
  have hbd := h.bounded
  have hidx : wrapping_sub b.span_builders_reversed.length (j + 1) = before.length := by
    rw [wrapping_sub_of_le (by omega) (by omega)]; omega
  have hget : b.span_builders_reversed[before.length]? = some sb := by rw [hb]; simp
  have hall : b.roomOfFirst b.span_builders_reversed.length = b.available := by
    rw [roomOfFirst, Nat.sub_self, drop_zero]; exact h.available_eq.symm
  subst hit
  cases max_len with
  | none =>
    refine ⟨before, sb, after, sb.unfilled.length, ⟨if j + 1 = b.span_builders_reversed.length then none else some (j + 1),
      none⟩, hb, by rw [hpos, hroom], Nat.le_refl _, ?_, ?_, ite_eq_or_eq ..⟩
    · simp only [BytesBufRemaining.next, self_then, hidx, hget, expect_some, pure_then, Option.map_none, run_pure]; rfl
    · by_cases hlast : j + 1 = b.span_builders_reversed.length
      · exact .ended (by rw [hpos, ← hnext, hlast, hall]; simp [exposed]) (by simp [hlast])
      · exact .builder (j + 1) (by omega) (by omega) (by simp) (by simp [hlast])
  | some m =>
    have hpm : pos ≤ m := hle m rfl
    have hma : m ≤ b.available := hm m rfl
    obtain ⟨n, hn⟩ : ∃ n, n = min sb.unfilled.length (m - pos) := ⟨_, rfl⟩
    refine ⟨before, sb, after, n, ⟨if m - pos - n = 0 then none else
      if j + 1 = b.span_builders_reversed.length then none else some (j + 1), some (m - pos - n)⟩, hb,
      by rw [hpos, hroom], by omega, ?_, ?_, by split <;> [exact .inl rfl; exact ite_eq_or_eq ..]⟩
    · simp only [BytesBufRemaining.next, self_then, hidx, hget, expect_some, pure_then, Option.map_some, run_pure,
        SpanBuilder.remaining_capacity, ← hn]
    · by_cases hleft : m - pos - n = 0
      · exact .ended (by simp [exposed]; omega) (by simp [hleft])
      · have hn' : n = sb.unfilled.length := by omega
        have hlast : j + 1 ≠ b.span_builders_reversed.length := by
          intro hlast
          rw [hlast, hall] at hnext
          omega
        refine .builder (j + 1) (by omega) (by omega) (by rintro m' ⟨⟩; omega) ?_
        rw [if_neg hleft, if_neg hlast, Option.map_some, Nat.sub_sub]

/-- Filling the exposed slices one after the other overwrites the front of the unfilled memory with the data, as far
as it is exposed. -/
theorem fill_spec (h : b.Inv) (hm : ∀ m ∈ max_len, m ≤ b.available)
    (data : List UInt8) {fuel : Nat} (hf : b.span_builders_reversed.length < fuel) :
    ∃ b', (loop fuel fill_round (b.iter_available_capacity max_len, data)).run b = (.ok (), b') ∧
      Overwritten b (data.take (b.exposed max_len)) b' := by
  obtain ⟨⟨⟩, b', hr, ho⟩ := loop_total fill_round
    (fun st _ => (st.1.next_span_builder_index.map (b.span_builders_reversed.length - ·)).getD 0)
    (fun st s => ∃ pos, st.2 = data.drop pos ∧ Overwritten b (data.take pos) s ∧ CursorAt s max_len st.1 pos)
    (fun _ s => Overwritten b (data.take (b.exposed max_len)) s)
    (by
      rintro ⟨it, left⟩ s ⟨pos, rfl, ho, hc⟩
      have hs := ho.inv h
      have hexp : s.exposed max_len = b.exposed max_len := by rw [exposed, exposed, ho.available]
      by_cases hl : data.drop pos = []
      · refine .inr ⟨(), s, by simp [fill_round, hl], ?_⟩
        have hle := hc.le_exposed hs
        have hlen : data.length ≤ pos := drop_eq_nil_iff.mp hl
        rw [take_of_length_le (by omega), ← take_of_length_le hlen]
        exact ho
      · cases hc with
        | ended hpos hit =>
          refine .inr ⟨(), s, ?_, by rw [← hexp, ← hpos]; exact ho⟩
          obtain ⟨_ | _, _⟩ := it
          · simp [fill_round, hl, BytesBufRemaining.next]
          · cases hit
        | builder j hj hpos hle hit =>
          obtain ⟨before, sb, after, n, it', hb, hpa, hn, hnext, hc', hidx⟩ :=
            next_spec hs (fun m hm' => ho.available ▸ hm m hm') hj hpos hle hit
          have hlen : (data.take pos).length = pos := by
            rw [length_take, Nat.min_eq_left]
            exact Nat.le_of_lt (length_pos_iff.mpr hl |> fun h0 => by rw [length_drop] at h0; omega)
          obtain ⟨s', hw, ho'⟩ := write_slice_spec ((data.drop pos).take n) ho hb (by rw [hlen, hpa])
            (Nat.le_trans (length_take_le ..) hn)
          refine .inl ⟨(it', (data.drop pos).drop n), s', ?_, ⟨pos + n, by rw [drop_drop], ?_, ?_⟩, ?_⟩
          · simp only [fill_round, hl, if_false, bind_ok hnext, bind_ok hw, run_pure]
          · rw [take_add]; exact ho'
          · exact hc'.of_shape (by rw [ho'.shape, ho.shape]) (by rw [ho'.available, ho.available])
          · have hjb : j < b.span_builders_reversed.length := ho.count ▸ hj
            subst hit
            rcases hidx with hidx | hidx <;> simp [hidx] <;> omega)
    fuel (b.iter_available_capacity max_len, data) b
    ⟨0, rfl, Overwritten.refl b, iter_available_capacity_at h max_len⟩
    (by
      refine Nat.lt_of_le_of_lt ?_ hf
      simp only [iter_available_capacity]
      split <;> simp)
  exact ⟨b', hr, ho⟩

/-- A vectored write appends the first `n` bytes of what was written to the exposed slices. -/
theorem vectored_write_spec (h : b.Inv) (hm : ∀ m ∈ max_len, m ≤ b.available)
    {data : List UInt8} {n : Nat} (hnd : n ≤ data.length) (hn : n ≤ b.exposed max_len) {fuel : Nat}
    (hf : b.span_builders_reversed.length + n < fuel) :
    ∃ b', (vectored_write fuel max_len data n).run b = (.ok (), b') ∧ b'.Inv ∧
      b'.contents = b.contents ++ data.take n ∧ b'.available = b.available - n := by
  have hbegin : b.begin_vectored_write_checked max_len = some max_len := by
    cases max_len with
    | none => rfl
    | some m => exact if_neg (Nat.not_lt.mpr (hm m rfl))
  have hav : n ≤ b.available := Nat.le_trans hn (Nat.min_le_right ..)
  obtain ⟨b₁, hr₁, ho⟩ := fill_spec h hm data (show b.span_builders_reversed.length < fuel by omega)
  obtain ⟨b₂, hr₂, ha⟩ := commit_spec (ho.inv h) (n := n) (by rw [ho.available]; exact hav) (show n < fuel by omega)
  have hlen : (data.take (b.exposed max_len)).length = min (b.exposed max_len) data.length := length_take
  have htake : b₁.spare.take n = data.take n := by
    rw [ho.spare, take_append_of_le_length (by omega), take_take, Nat.min_eq_left hn]
  have hdl : (b₁.spare.take n).length = n := by rw [htake, length_take, Nat.min_eq_left hnd]
  refine ⟨b₂, ?_, ha.inv, by rw [ha.contents, ho.contents, htake], by rw [ha.available (ho.inv h), hdl, ho.available]⟩
  simp only [vectored_write, self_then, hbegin, expect_some, pure_then, bind_ok hr₁, hr₂]

theorem vectored_write_short {m : Nat} (hm : b.available < m) (fuel : Nat) (data : List UInt8) (n : Nat) :
    (vectored_write fuel (some m) data n).run b = (.panic .vectored_write_out_of_bounds, b) := by
  have hbegin : b.begin_vectored_write_checked (some m) = none := if_pos hm
  simp [vectored_write, hbegin]

end BytesBuf

end Bytesbuf
