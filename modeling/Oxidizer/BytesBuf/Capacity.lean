import Oxidizer.BytesBuf.SplitOff
/-!
# The capacity of a buffer

The bytes of a buffer and the room that is left in it together are a `usize`, after every
sequence of calls, whether they returned, panicked or did not return. This does not rest
on the type invariant, which a split can break: it is enough that the room of the builders
is not more than `available`.
-/

namespace Bytesbuf

open Lib Lib.Exec BytesBuf List

/-- All of `available` but `k` bytes is enough for the builders, and the capacity is a `usize`. -/
structure Accounted (k : Nat) (b : BytesBuf) : Prop where
  room : roomOf b.span_builders_reversed + k ≤ b.available
  bounded : b.len + b.available ≤ usizeMax

/-- The counters are as they were, and the builders have no more room. -/
structure Counted (len available room : Nat) (b : BytesBuf) : Prop where
  len_eq : b.len = len
  available_eq : b.available = available
  room_le : roomOf b.span_builders_reversed ≤ room

variable {b : BytesBuf}

theorem Accounted.weaken {k : Nat} (h : Accounted k b) : Accounted 0 b :=
  ⟨Nat.le_trans (Nat.le_add_right ..) h.room, h.bounded⟩

theorem Counted.of (b : BytesBuf) : Counted b.len b.available (roomOf b.span_builders_reversed) b :=
  ⟨rfl, rfl, Nat.le_refl _⟩

theorem Counted.accounted {b b' : BytesBuf} {k : Nat} (h : Accounted k b)
    (hc : Counted b.len b.available (roomOf b.span_builders_reversed) b') : Accounted k b' := by
  have hroom := h.room
  have hbound := h.bounded
  obtain ⟨hlen, havail, hle⟩ := hc
  exact ⟨by omega, by omega⟩

theorem keeps_accounted {α : Type} {m : M α} (h : ∀ len available room, Keeps (Counted len available room) m) (k : Nat) :
    Keeps (Accounted k) m :=
  fun b hb => (h _ _ _ b (Counted.of b)).accounted hb

/-! ## Methods that only move bytes -/

section
variable (len available room : Nat)

theorem roomOf_set_last {sb : SpanBuilder} (h : b.span_builders_reversed.getLast? = some sb) (sb' : SpanBuilder) :
    roomOf (b.set_first_builder sb').span_builders_reversed + sb.remaining_capacity =
      roomOf b.span_builders_reversed + sb'.remaining_capacity := by
  obtain ⟨init, hinit⟩ := getLast?_eq_some_iff.mp h
  simp only [set_first_builder, hinit, dropLast_concat, roomOf_append]
  simp [roomOf]
  omega

variable (n : Nat)

theorem freeze_from_first_counted : Keeps (Counted len available room) (freeze_from_first n) := by
  intro b hb
  simp only [freeze_from_first, self_then]
  refine keeps_expect_then hb fun sb hsb => keeps_expect_then hb ?_
  rintro ⟨span, sb'⟩ hconsume
  have hroom : sb'.remaining_capacity = sb.remaining_capacity := by
    unfold SpanBuilder.consume at hconsume
    split at hconsume
    · cases hconsume
      rfl
    · cases hconsume
  have hset := roomOf_set_last hsb sb'
  have hle := hb.room_le
  have hmoved : ∀ spans, Counted len available room
      (if sb'.remaining_capacity = 0 then
        { b.set_first_builder sb' with
          frozen_spans := spans, span_builders_reversed := (b.set_first_builder sb').span_builders_reversed.dropLast }
      else { b.set_first_builder sb' with frozen_spans := spans }) := by
    intro spans
    split
    · refine ⟨hb.len_eq, hb.available_eq, ?_⟩
      simp only [set_first_builder, dropLast_concat, roomOf_append] at hset ⊢
      omega
    · exact ⟨hb.len_eq, hb.available_eq, by show roomOf (b.set_first_builder sb').span_builders_reversed ≤ room; omega⟩
  have h := hmoved (b.frozen_spans ++ [span])
  simp only [put_then]
  exact keeps_expect_then h fun frozen _ => ⟨h.len_eq, h.available_eq, h.room_le⟩

theorem ensure_frozen_counted : Keeps (Counted len available room) (ensure_frozen n) :=
  keeps_bind keeps_self fun _ => keeps_bind (keeps_assert _ _) fun _ =>
    keeps_ite (keeps_pure _) (freeze_from_first_counted len available room _)

theorem from_spans_reversed_counted (spans : List Span) :
    Keeps (Counted len available room) (BytesView.from_spans_reversed spans : M BytesView) := by
  unfold BytesView.from_spans_reversed
  split
  · exact keeps_pure _
  · exact keeps_panic _

theorem peek_counted : Keeps (Counted len available room) peek :=
  keeps_bind keeps_self fun _ => from_spans_reversed_counted len available room _

theorem prepare_consume_loop_counted (spans : List Span) (detach n : Nat) :
    Keeps (Counted len available room) (prepare_consume_loop spans detach n) := by
  induction spans generalizing detach n with
  | nil => exact keeps_pure _
  | cons span rest ih =>
    exact keeps_ite (keeps_bind (keeps_expect _ _) fun _ => keeps_ite (ih _ _) (keeps_pure _)) (keeps_pure _)

theorem prepare_consume_counted : Keeps (Counted len available room) (prepare_consume n) :=
  keeps_bind keeps_self fun _ => keeps_bind (prepare_consume_loop_counted len available room _ _ _) fun _ =>
    keeps_bind (keeps_assert _ _) fun _ => keeps_pure _

theorem consume_partial_span_counted (index part : Nat) :
    Keeps (Counted len available room) (consume_partial_span index part) := by
  refine keeps_ite (keeps_pure _) fun b hb => ?_
  simp only [self_then]
  refine keeps_expect_then hb fun span _ => keeps_expect_then hb fun _ _ => keeps_expect_then hb fun rest _ => ?_
  exact ⟨hb.len_eq, hb.available_eq, hb.room_le⟩

theorem copy_remaining {sb sb' : SpanBuilder} {src : List UInt8} (h : sb.copy_to_unfilled src = some sb') :
    sb'.remaining_capacity = sb.remaining_capacity := by
  unfold SpanBuilder.copy_to_unfilled at h
  split at h
  · rename_i hle
    cases h
    simp only [SpanBuilder.remaining_capacity, length_append, length_drop] at hle ⊢
    omega
  · cases h

theorem copy_to_first_unfilled_counted (src : List UInt8) : Keeps (Counted len available room) (copy_to_first_unfilled src) := by
  intro b hb
  simp only [copy_to_first_unfilled, self_then]
  split
  · exact keeps_assert _ _ b hb
  · rename_i builder hbuilder
    refine keeps_expect_then hb fun builder' hcopy => ?_
    have := roomOf_set_last hbuilder builder'
    have := copy_remaining hcopy
    have := hb.room_le
    exact ⟨hb.len_eq, hb.available_eq, by show roomOf (b.set_first_builder builder').span_builders_reversed ≤ room; omega⟩

theorem roomOf_set {builders : List SpanBuilder} {index : Nat} {sb sb' : SpanBuilder} (h : builders[index]? = some sb)
    (hr : sb'.remaining_capacity = sb.remaining_capacity) : roomOf (builders.set index sb') = roomOf builders := by
  induction builders generalizing index with
  | nil => rfl
  | cons first rest ih =>
    cases index with
    | zero =>
      cases h
      simp [roomOf, hr]
    | succ index =>
      rw [set_cons_succ, roomOf_cons, roomOf_cons, ih h]

theorem write_slice_counted (storage_index : Nat) (src : List UInt8) :
    Keeps (Counted len available room) (write_slice storage_index src) := by
  intro b hb
  simp only [write_slice, self_then]
  refine keeps_expect_then hb fun sb hsb => keeps_expect_then hb fun sb' hcopy => ⟨hb.len_eq, hb.available_eq, ?_⟩
  show roomOf (b.span_builders_reversed.set storage_index sb') ≤ room
  rw [roomOf_set hsb (copy_remaining hcopy)]
  exact hb.room_le

theorem next_counted (it : BytesBufRemaining) : Keeps (Counted len available room) it.next := by
  unfold BytesBufRemaining.next
  split
  · exact keeps_pure _
  · refine keeps_bind keeps_self fun _ => keeps_bind (keeps_expect _ _) fun _ => ?_
    split
    · exact keeps_pure _
    · exact keeps_pure _

theorem fill_round_counted (st : BytesBufRemaining × List UInt8) : Keeps (Counted len available room) (fill_round st) := by
  refine keeps_ite (keeps_pure _) (keeps_bind (next_counted len available room _) fun next => ?_)
  split
  · exact keeps_pure _
  · exact keeps_bind (write_slice_counted len available room _ _) fun _ => keeps_pure _

end

/-! ## Methods that change the counters -/

theorem count_written {k : Nat} (h : Accounted k b) {β : Type} (next : Unit → M β)
    (hnext : ∀ b', Accounted 0 b' → Accounted 0 ((next ()).run b').2) :
    Accounted 0 ((do
      let len ← expect (.internal .len_overflow) (checked_add b.len k)
      put { b with len }
      let available ← expect (.internal .available_underflow) (checked_sub b.available k)
      put { b with len, available }
      next () : M β).run b).2 := by
  have hroom := h.room
  have hbound := h.bounded
  refine keeps_expect_then h.weaken fun len hlen => ?_
  obtain ⟨rfl, -⟩ := checked_add_eq_some hlen
  rw [checked_sub_of_le (by omega), expect_some]
  simp only [put_then, pure_then]
  exact hnext _ ⟨by show roomOf b.span_builders_reversed + 0 ≤ b.available - k; omega,
    by show b.len + k + (b.available - k) ≤ usizeMax; omega⟩

theorem advance_room {sb sb' : SpanBuilder} {n : Nat} (h : sb.advance n = some sb') :
    sb'.remaining_capacity + n = sb.remaining_capacity := by
  unfold SpanBuilder.advance at h
  split at h
  · cases h
    simp only [SpanBuilder.remaining_capacity, length_drop] at *
    omega
  · cases h

theorem Accounted.set_first (h : Accounted 0 b) {sb sb' : SpanBuilder}
    (hsb : b.span_builders_reversed.getLast? = some sb) {k : Nat} (hk : sb'.remaining_capacity + k = sb.remaining_capacity) :
    Accounted k (b.set_first_builder sb') := by
  have hset := roomOf_set_last hsb sb'
  have hroom := h.room
  exact ⟨by show roomOf (b.set_first_builder sb').span_builders_reversed + k ≤ b.available; omega, h.bounded⟩

theorem advance_accounted (count : Nat) : Keeps (Accounted 0) (advance count) := by
  refine keeps_ite (keeps_pure _) fun b hb => ?_
  simp only [self_then]
  refine keeps_expect_then hb fun sb hsb => keeps_expect_then hb fun sb' hadvance => ?_
  have hset := hb.set_first hsb (advance_room hadvance)
  simp only [put_then]
  have hcount : ∀ b', Accounted count b' → Accounted 0 ((do
      let b ← self
      let len ← expect (.internal .len_overflow) (checked_add b.len count)
      put { b with len }
      let available ← expect (.internal .available_underflow) (checked_sub b.available count)
      put { b with len, available } : M Unit).run b').2 :=
    fun b' h => count_written h (fun _ => pure ()) fun _ h => h
  split
  · refine keeps_then (keeps_assert _ _) hset (fun _ h => h.weaken) fun _ b' hb' => ?_
    exact keeps_then (keeps_accounted (fun l a r => freeze_from_first_counted l a r _) count) hb' (fun _ h => h.weaken)
      fun _ b'' hb'' => hcount b'' hb''
  · exact hcount _ hset

theorem put_small_accounted (src : List UInt8) : Keeps (Accounted 0) (put_small src) := by
  intro b hb
  simp only [put_small, self_then]
  refine keeps_assert_then hb ?_
  split
  · exact hb
  · rename_i builder hbuilder
    split
    · exact hb
    · refine keeps_expect_then hb fun copied hcopy => keeps_expect_then hb fun builder' hadvance => ?_
      have hset : Accounted src.length (b.set_first_builder builder') :=
        hb.set_first hbuilder (by rw [← copy_remaining hcopy]; exact advance_room hadvance)
      simp only [put_then]
      refine keeps_assert_then hset.weaken (count_written hset (fun _ => if builder'.remaining_capacity = 0 then do
          freeze_from_first builder'.len
          pure true
        else pure true) fun b' hb' => ?_)
      refine keeps_ite (keeps_bind ?_ fun _ => keeps_pure _) (keeps_pure _) b' hb'
      exact keeps_accounted (fun l a r => freeze_from_first_counted l a r _) 0

/-- The rounds of both write loops: a copy to the first unfilled slice, and an advance over it. -/
theorem put_slice_round_accounted (src : List UInt8) : Keeps (Accounted 0) (put_slice_round src) :=
  keeps_ite (keeps_pure _) <| keeps_bind keeps_self fun _ =>
    keeps_bind (keeps_accounted (fun l a r => copy_to_first_unfilled_counted l a r _) 0) fun _ =>
      keeps_bind (advance_accounted _) fun _ => keeps_pure _

variable (fuel : Nat)

theorem put_slice_accounted (src : List UInt8) : Keeps (Accounted 0) (put_slice fuel src) :=
  keeps_bind (put_small_accounted src) fun _ => keeps_ite (keeps_pure _) <|
    keeps_bind keeps_self fun _ => keeps_bind (keeps_assert _ _) fun _ => keeps_loop put_slice_round_accounted fuel src

theorem put_byte_repeated_accounted (value : UInt8) (count : Nat) :
    Keeps (Accounted 0) (put_byte_repeated fuel value count) := by
  refine keeps_bind keeps_self fun _ => keeps_bind (keeps_assert _ _) fun _ => keeps_loop (fun count => ?_) fuel count
  exact keeps_ite (keeps_pure _) <| keeps_bind keeps_self fun _ =>
    keeps_bind (keeps_accounted (fun l a r => copy_to_first_unfilled_counted l a r _) 0) fun _ =>
      keeps_bind (advance_accounted _) fun _ => keeps_pure _

theorem commit_accounted (bytes_written : Nat) : Keeps (Accounted 0) (commit fuel bytes_written) := by
  refine keeps_loop (fun remaining => ?_) fuel bytes_written
  exact keeps_ite (keeps_pure _) <| keeps_bind keeps_self fun _ => keeps_bind (keeps_expect _ _) fun _ =>
    keeps_bind (advance_accounted _) fun _ => keeps_bind (keeps_expect _ _) fun _ => keeps_pure _

theorem vectored_write_accounted (max_len : Option Nat) (data : List UInt8) (n : Nat) :
    Keeps (Accounted 0) (vectored_write fuel max_len data n) :=
  keeps_bind keeps_self fun _ => keeps_bind (keeps_expect _ _) fun _ =>
    keeps_bind (keeps_loop (fun st => keeps_accounted (fun l a r => fill_round_counted l a r st) 0) fuel _) fun _ =>
      commit_accounted fuel n

variable (n : Nat)

theorem consume_checked_accounted : Keeps (Accounted 0) (consume_checked n) := by
  intro b hb
  simp only [consume_checked, self_then]
  split
  · exact hb
  · rename_i hle
    have hstart := Counted.of b
    have hweak : ∀ b', Counted b.len b.available (roomOf b.span_builders_reversed) b' → Accounted 0 b' :=
      fun _ h => h.accounted hb
    refine keeps_then (ensure_frozen_counted _ _ _ n) hstart hweak fun _ b₁ h₁ => ?_
    refine keeps_then (prepare_consume_counted _ _ _ n) h₁ hweak ?_
    rintro ⟨detach, part⟩ b₂ h₂
    refine keeps_then (consume_partial_span_counted _ _ _ detach part) h₂ hweak fun taken b₃ h₃ => ?_
    obtain ⟨hlen, havail, hroom⟩ := h₃
    have hroom₀ := hb.room
    have hbound := hb.bounded
    simp only [self_then, put_then]
    refine keeps_then (I := Accounted 0) (keeps_accounted (fun l a r => from_spans_reversed_counted l a r _) 0) ?_ (fun _ h => h)
      fun _ _ h => h
    refine ⟨by show roomOf b₃.span_builders_reversed + 0 ≤ b₃.available; omega, ?_⟩
    show wrapping_sub b₃.len n + b₃.available ≤ usizeMax
    rw [wrapping_sub_of_le (by omega) (by omega)]
    omega

theorem reserve_accounted (m : Memory) : Keeps (Accounted 0) (reserve n m) := by
  intro b hb
  simp only [reserve, self_then]
  split
  · exact hb
  · simp only [extend_capacity_by_at_least]
    refine keeps_expect_then hb fun mem hmem => ?_
    simp only [self_then]
    refine keeps_expect_then hb fun new_available hnew => ?_
    obtain ⟨rfl, -⟩ := checked_add_eq_some hnew
    simp only [assert_capacity_within_bounds, then_assoc]
    refine keeps_expect_then hb fun total htotal => ?_
    obtain ⟨rfl, htotal⟩ := checked_add_eq_some htotal
    have hroom := hb.room
    have hmroom := (m.inv hmem).available_eq
    rw [m.capacity_eq hmem] at htotal ⊢
    refine ⟨?_, htotal⟩
    show roomOf (mem.span_builders_reversed ++ b.span_builders_reversed) + 0 ≤ b.available + mem.available
    have : roomOf mem.span_builders_reversed = mem.available := hmroom.symm
    rw [roomOf_append]
    omega

theorem put_bytes_accounted (view : BytesView) : Keeps (Accounted 0) (put_bytes view) := by
  refine keeps_ite (keeps_pure _) fun b hb => ?_
  simp only [self_then]
  refine keeps_expect_then hb fun new_len hnew => ?_
  obtain ⟨rfl, -⟩ := checked_add_eq_some hnew
  simp only [assert_capacity_within_bounds, then_assoc]
  refine keeps_expect_then hb fun total htotal => ?_
  obtain ⟨rfl, htotal⟩ := checked_add_eq_some htotal
  have happend : ∀ b', Counted b.len b.available (roomOf b.span_builders_reversed) b' → Accounted 0 ((do
      let b' ← self
      put { b' with
        len := b.len + view.len
        frozen := wrapping_add b'.frozen view.len
        frozen_spans := b'.frozen_spans ++ view.spans_reversed.reverse } : M Unit).run b').2 := by
    rintro b' ⟨-, havail, hroom⟩
    have := hb.room
    exact ⟨by show roomOf b'.span_builders_reversed + 0 ≤ b'.available; omega,
      by show b.len + view.len + b'.available ≤ usizeMax; omega⟩
  simp only [pure_then]
  split
  · exact happend b (Counted.of b)
  · exact keeps_then (freeze_from_first_counted _ _ _ _) (Counted.of b) (fun _ h => h.accounted hb) fun _ b' h => happend b' h

/-! ## Splits -/

theorem split_off_available_room {sb kept split : SpanBuilder} {count : Nat}
    (h : sb.split_off_available count = some (kept, split)) :
    kept.remaining_capacity + count = sb.remaining_capacity ∧ split.remaining_capacity = count := by
  unfold SpanBuilder.split_off_available at h
  split at h
  · cases h
    simp only [SpanBuilder.remaining_capacity, length_take, length_drop] at *
    omega
  · cases h

theorem split_first_run (remaining : Nat) (b : BytesBuf) :
    (∃ site, (split_first remaining).run b = (.panic (.internal site), b)) ∨
    ∃ split builders, (split_first remaining).run b = (.ok split, { b with span_builders_reversed := builders }) ∧
      roomOf split = remaining ∧ roomOf builders + remaining = roomOf b.span_builders_reversed := by
  unfold split_first
  split
  · rename_i hz
    exact .inr ⟨[], b.span_builders_reversed, rfl, hz.symm, by omega⟩
  · simp only [self_then]
    cases hhead : b.span_builders_reversed with
    | nil => exact .inl ⟨_, rfl⟩
    | cons sb rest =>
      rw [head?_cons, expect_some, pure_then]
      by_cases hblock : remaining ≤ blockSizeMax
      · rw [assert_true (decide_eq_true hblock), pure_then]
        cases hsplit : sb.split_off_available remaining with
        | none => exact .inl ⟨_, rfl⟩
        | some parts =>
          obtain ⟨kept, split⟩ := parts
          obtain ⟨hkept, hgiven⟩ := split_off_available_room hsplit
          refine .inr ⟨[split], kept :: rest, rfl, ?_, ?_⟩
          · rw [roomOf_cons, roomOf_nil, Nat.add_zero]
            exact hgiven
          · rw [roomOf_cons, roomOf_cons, ← show _ = sb.unfilled.length from hkept]
            show kept.remaining_capacity + _ + _ = _
            omega
      · rw [assert_false (decide_eq_false hblock), panic_then]
        exact .inl ⟨_, rfl⟩

theorem split_off_accounted (hb : Accounted 0 b) (count : Nat) :
    Accounted 0 ((split_off_remaining_checked count).run b).2 ∧
      ∀ given, ((split_off_remaining_checked count).run b).1 = .ok (some given) → Accounted 0 given := by
  have hroom := hb.room
  have hbound := hb.bounded
  simp only [split_off_remaining_checked, self_then]
  split
  · exact ⟨hb, fun given h => by cases h⟩
  · rename_i hcount
    have hcount : count ≤ b.available := Nat.le_of_not_lt hcount
    split
    · refine ⟨hb, fun given h => ?_⟩
      cases h
      exact ⟨Nat.le_refl 0, Nat.zero_le _⟩
    · obtain ⟨taken, rest, left, hbuilders, hwhole, -, hleft, -⟩ := whole_builders_spec b.span_builders_reversed 0 count
      rw [Nat.zero_add] at hwhole
      have hdrop : b.span_builders_reversed.drop taken.length = rest := by rw [hbuilders, drop_left]
      have htake : b.span_builders_reversed.take taken.length = taken := by rw [hbuilders, take_left]
      have hsum : roomOf b.span_builders_reversed = roomOf taken + roomOf rest := by rw [hbuilders, roomOf_append]
      simp only [hwhole, put_then, hdrop, htake]
      rcases split_first_run left { b with span_builders_reversed := rest } with ⟨site, hrun⟩ | ⟨split, builders, hrun, hs, hr⟩
      · rw [bind_panic hrun]
        exact ⟨⟨by show roomOf rest + 0 ≤ b.available; omega, hbound⟩, fun given h => by cases h⟩
      · rw [bind_ok hrun]
        simp only [self_then, checked_sub_of_le hcount, expect_some, pure_then, put_then, run_pure]
        have hr : roomOf builders + left = roomOf rest := hr
        refine ⟨⟨by show roomOf builders + 0 ≤ b.available - count; omega, by show b.len + (b.available - count) ≤ _; omega⟩, ?_⟩
        intro given h
        cases h
        have hgiven : roomOf (taken ++ split) = count := by rw [roomOf_append, hs]; omega
        refine ⟨Nat.le_refl _, ?_⟩
        show 0 + roomOf (taken ++ split) ≤ usizeMax
        omega

/-! ## Rejected calls -/

theorem freeze_from_first_internal (b : BytesBuf) : ((freeze_from_first n).run b).1 ≠ .panic .capacity_overflow := by
  unfold freeze_from_first
  simp only [self_then]
  cases b.span_builders_reversed.getLast? with
  | none => exact nofun
  | some sb =>
    rw [expect_some, pure_then]
    cases sb.consume n with
    | none => exact nofun
    | some parts =>
      rw [expect_some, pure_then]
      simp only [put_then]
      cases checked_add _ n with
      | none | some frozen => exact nofun

/-- An append is rejected when the capacity would not be a `usize`, and then it has changed nothing. -/
theorem put_bytes_rejected {view : BytesView} (h : ((put_bytes view).run b).1 = .panic .capacity_overflow) :
    usizeMax < b.len + view.len + b.available ∧ (put_bytes view).run b = (.panic .capacity_overflow, b) := by
  unfold put_bytes at h ⊢
  split at h
  · cases h
  · rename_i hne
    rw [if_neg hne]
    simp only [self_then] at h ⊢
    by_cases hlen : b.len + view.len ≤ usizeMax
    · rw [checked_add_of_le hlen] at h ⊢
      unfold assert_capacity_within_bounds at h ⊢
      simp only [expect_some, pure_then, then_assoc] at h ⊢
      by_cases htotal : b.len + view.len + b.available ≤ usizeMax
      · rw [checked_add_of_le htotal] at h
        simp only [expect_some, pure_then] at h
        split at h
        · cases h
        · refine absurd h ?_
          rcases hrun : (freeze_from_first _).run b with ⟨a | e | _, b'⟩
          · rw [bind_ok hrun]
            exact nofun
          · rw [bind_panic hrun]
            intro heq
            exact freeze_from_first_internal _ b (by rw [hrun]; exact heq)
          · rw [bind_div hrun]
            exact nofun
      · rw [checked_add_of_gt (Nat.lt_of_not_le htotal)]
        exact ⟨Nat.lt_of_not_le htotal, rfl⟩
    · rw [checked_add_of_gt (Nat.lt_of_not_le hlen)]
      exact ⟨by omega, rfl⟩

theorem reserve_rejected {n : Nat} {m : Memory} (h : ((reserve n m).run b).1 = .panic .capacity_overflow) :
    (∃ mem, m.reserve (n - b.available) = some mem ∧ usizeMax < b.len + (b.available + mem.available)) ∧
      (reserve n m).run b = (.panic .capacity_overflow, b) := by
  simp only [reserve, self_then] at h ⊢
  split at h
  · cases h
  · rename_i hne
    rw [if_neg hne]
    simp only [extend_capacity_by_at_least] at h ⊢
    have hn : n - b.remaining_capacity = n - b.available := rfl
    rw [hn] at h ⊢
    cases hm : m.reserve (n - b.available) with
    | none => rw [hm] at h; cases h
    | some mem =>
      rw [hm] at h
      simp only [expect_some, pure_then, self_then, m.capacity_eq hm] at h ⊢
      by_cases havail : b.available + mem.available ≤ usizeMax
      · rw [checked_add_of_le havail] at h ⊢
        simp only [expect_some, pure_then, assert_capacity_within_bounds, then_assoc] at h ⊢
        by_cases htotal : b.len + (b.available + mem.available) ≤ usizeMax
        · rw [checked_add_of_le htotal] at h
          cases h
        · rw [checked_add_of_gt (Nat.lt_of_not_le htotal)]
          exact ⟨⟨mem, rfl, Nat.lt_of_not_le htotal⟩, rfl⟩
      · rw [checked_add_of_gt (Nat.lt_of_not_le havail)]
        exact ⟨⟨mem, rfl, by omega⟩, rfl⟩

/-! ## Runs -/

/-- A step of a program that uses buffers: a call of the API, a write to the first unfilled slice, an advance over it, or a
split. -/
inductive BufferStep where
  | call (op : Op) (fuel : Nat)
  | write_first (src : List UInt8)
  | advance (count : Nat)
  | split (count : Nat)

/-- The buffer after the step, however it ended. -/
def BufferStep.after (b : BytesBuf) : BufferStep → BytesBuf
  | .call op fuel => ((op.call fuel).run b).2
  | .write_first src => ((copy_to_first_unfilled src).run b).2
  | .advance count => ((BytesBuf.advance count).run b).2
  | .split count => ((split_off_remaining_checked count).run b).2

/-- Buffers that programs can have, with no condition on the calls. The blocks of a buffer are owned memory. -/
inductive Obtained : BytesBuf → Prop where
  | new : Obtained BytesBuf.new
  | from_blocks (blocks : List Block) (h : (blocks.map (·.memory.length)).sum ≤ usizeMax) : Obtained (BytesBuf.from_blocks blocks)
  | step {b : BytesBuf} (hb : Obtained b) (step : BufferStep) : Obtained (step.after b)
  | given {b given : BytesBuf} (hb : Obtained b) (count : Nat)
      (hs : ((split_off_remaining_checked count).run b).1 = .ok (some given)) : Obtained given

theorem call_accounted (op : Op) (fuel : Nat) : Keeps (Accounted 0) (op.call fuel) := by
  cases op with
  | reserve n m => exact keeps_bind (reserve_accounted n m) fun _ => keeps_pure _
  | put_slice src => exact keeps_bind (put_slice_accounted fuel src) fun _ => keeps_pure _
  | put_byte_repeated value count => exact keeps_bind (put_byte_repeated_accounted fuel value count) fun _ => keeps_pure _
  | put_bytes view => exact keeps_bind (put_bytes_accounted view) fun _ => keeps_pure _
  | vectored_write max_len data n => exact keeps_bind (vectored_write_accounted fuel max_len data n) fun _ => keeps_pure _
  | peek => exact keeps_bind (keeps_accounted peek_counted 0) fun _ => keeps_pure _
  | consume_checked n => exact keeps_bind (consume_checked_accounted n) fun _ => keeps_pure _
  | consume n =>
    exact keeps_bind (keeps_bind (consume_checked_accounted n) fun _ => keeps_expect _ _) fun _ => keeps_pure _
  | consume_all =>
    exact keeps_bind (keeps_bind keeps_self fun _ => keeps_bind (consume_checked_accounted _) fun _ => keeps_expect _ _)
      fun _ => keeps_pure _

theorem Obtained.accounted (h : Obtained b) : Accounted 0 b := by
  induction h with
  | new => exact ⟨Nat.le_refl 0, Nat.zero_le _⟩
  | from_blocks blocks h =>
    have hinv := from_blocks_inv h
    exact ⟨Nat.le_of_eq hinv.available_eq.symm, hinv.bounded⟩
  | step hb step ih =>
    cases step with
    | call op fuel => exact call_accounted op fuel _ ih
    | write_first src => exact keeps_accounted (fun l a r => copy_to_first_unfilled_counted l a r src) 0 _ ih
    | advance count => exact advance_accounted count _ ih
    | split count => exact (split_off_accounted ih count).1
  | given hb count hs ih => exact (split_off_accounted ih count).2 _ hs

/-- After every sequence of operations the capacity is a `usize`. An append or a reservation that is rejected for it, which
happens only when it would not be, leaves the buffer as it was. -/
theorem capacity_accounting (b : BytesBuf) (hb : Obtained b) :
    b.len + b.available ≤ usizeMax ∧
    (∀ view, ((put_bytes view).run b).1 = .panic .capacity_overflow →
      usizeMax < b.len + view.len + b.available ∧ ((put_bytes view).run b).2 = b) ∧
    (∀ n m, ((reserve n m).run b).1 = .panic .capacity_overflow →
      (∃ mem, m.reserve (n - b.available) = some mem ∧ usizeMax < b.len + (b.available + mem.available)) ∧
        ((reserve n m).run b).2 = b) := by
  refine ⟨hb.accounted.bounded, fun view h => ?_, fun n m h => ?_⟩
  · obtain ⟨hover, hrun⟩ := put_bytes_rejected h
    exact ⟨hover, by rw [hrun]⟩
  · obtain ⟨hover, hrun⟩ := reserve_rejected h
    exact ⟨hover, by rw [hrun]⟩

/-- Blocks of four and two bytes, three bytes written over both, one of them consumed again, one free byte split off, and
a view of two bytes appended. -/
theorem capacity_accounting_steps : ∃ b, Obtained b ∧ b.len = 4 ∧ b.available = 2 ∧ b.len + b.available ≤ usizeMax := by
  have h₀ : Obtained _ := .from_blocks [⟨[0, 0, 0, 0], by decide, by decide⟩, ⟨[0, 0], by decide, by decide⟩] (by decide)
  have hb := (((h₀.step (.call (.put_slice [1, 2, 3]) 4)).step (.call (.consume 1) 0)).step (.split 1)).step
    (.call (.put_bytes ⟨[⟨[7, 8], by decide⟩], 2, rfl⟩) 0)
  exact ⟨_, hb, by decide, by decide, (capacity_accounting _ hb).1⟩

end Bytesbuf
