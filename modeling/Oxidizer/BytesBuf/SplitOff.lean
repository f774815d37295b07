import Oxidizer.BytesBuf.Queue
/-!
# Splitting off spare capacity

`split_off_remaining` hands part of the unfilled memory to a new buffer. It
leaves the donor's bytes alone, but it keeps the type invariant only if it
leaves some room in a first builder that still holds data: otherwise a full
builder stays in the queue unfrozen. From then on a partial consume drops the
builder together with its unread bytes, and a write after a new reservation
never gets past the empty slice.
-/

namespace Bytesbuf

open Lib Lib.Exec BytesBuf List

/-- Empty builders are taken whole; the walk stops at one that holds data or is too large. -/
theorem whole_builders_spec (builders : List SpanBuilder) (n remaining : Nat) :
    ∃ taken rest left, builders = taken ++ rest ∧ whole_builders builders n remaining = (n + taken.length, left) ∧
      (∀ sb ∈ taken, sb.filled = []) ∧ roomOf taken + left = remaining ∧
      (∀ sb ∈ rest.head?, sb.filled ≠ [] ∨ left < sb.unfilled.length) := by
  induction builders generalizing n remaining with
  | nil => exact ⟨[], [], remaining, rfl, rfl, by simp, by simp, by simp⟩
  | cons sb builders ih =>
    by_cases hf : sb.filled = []
    · by_cases hbig : sb.unfilled.length > remaining
      · refine ⟨[], sb :: builders, remaining, rfl, ?_, by simp, by simp, by simpa using .inr hbig⟩
        simp [whole_builders, SpanBuilder.is_empty, SpanBuilder.len, hf, SpanBuilder.remaining_capacity, hbig]
      · obtain ⟨taken, rest, left, hb, hw, he, hr, hstop⟩ := ih (n + 1) (remaining - sb.unfilled.length)
        refine ⟨sb :: taken, rest, left, by rw [hb]; rfl, ?_, ?_, ?_, hstop⟩
        · have hw' : whole_builders (sb :: builders) n remaining =
              whole_builders builders (n + 1) (remaining - sb.unfilled.length) := by
            simp [whole_builders, SpanBuilder.is_empty, SpanBuilder.len, hf, SpanBuilder.remaining_capacity, hbig]
          rw [hw', hw, length_cons, Nat.add_assoc, Nat.add_comm 1]
        · intro s hs
          rcases mem_cons.mp hs with rfl | hs
          · exact hf
          · exact he s hs
        · rw [← singleton_append, roomOf_append, Nat.add_assoc, hr]
          simp only [roomOf, map_cons, map_nil, sum_singleton, SpanBuilder.remaining_capacity]
          omega
    · refine ⟨[], sb :: builders, remaining, rfl, ?_, by simp, by simp, by simpa using .inl hf⟩
      simp [whole_builders, SpanBuilder.is_empty, SpanBuilder.len, hf]

/-- A split of `count` bytes that leaves room in a first builder with data. -/
def GoodSplit (b : BytesBuf) (count : Nat) : Prop := count = 0 ∨ count < b.available ∨ b.len = b.frozen

instance (b : BytesBuf) (count : Nat) : Decidable (GoodSplit b count) :=
  inferInstanceAs (Decidable (_ ∨ _ ∨ _))

/-- What a split leaves: the builders of the donor and of the new buffer. -/
structure SplitInto (b : BytesBuf) (count : Nat) (kept given : List SpanBuilder) : Prop where
  given_spare : AllSpare given
  given_room : roomOf given = count
  kept_room : roomOf kept = b.available - count
  kept_filled : (kept.getLast?.map SpanBuilder.filled).getD [] =
    (b.span_builders_reversed.getLast?.map SpanBuilder.filled).getD []
  kept_spare : ∀ sb ∈ kept.dropLast, sb.filled = []
  good_iff : (∀ sb ∈ kept, sb.unfilled ≠ []) ↔ GoodSplit b count

section Split
variable {b : BytesBuf} {count left : Nat} {taken rest : List SpanBuilder}

theorem filled_iff_unfrozen (h : b.Inv) :
    (b.span_builders_reversed.getLast?.map SpanBuilder.filled).getD [] = [] ↔ b.len = b.frozen := by
  rw [h.len_eq]
  cases b.span_builders_reversed.getLast? <;> simp [SpanBuilder.len]

theorem roomOf_cons (sb : SpanBuilder) (rest : List SpanBuilder) :
    roomOf (sb :: rest) = sb.unfilled.length + roomOf rest := by
  simp [roomOf, SpanBuilder.remaining_capacity]

theorem eq_nil_of_roomOf {builders : List SpanBuilder} (hr : ∀ sb ∈ builders, sb.unfilled ≠ [])
    (h0 : roomOf builders = 0) : builders = [] := by
  cases builders with
  | nil => rfl
  | cons sb rest =>
    rw [roomOf_cons] at h0
    exact absurd (length_pos_of_ne_nil (hr sb (by simp))) (by omega)

theorem splitInto_whole (h : b.Inv) (hb : b.span_builders_reversed = taken ++ rest)
    (he : ∀ sb ∈ taken, sb.filled = []) (hroom : roomOf taken = count) : SplitInto b count rest taken := by
  have hhas := h.has_room
  have hspare := h.spare_empty
  have hav : b.available = roomOf taken + roomOf rest := by rw [← roomOf_append, ← hb]; exact h.available_eq
  rw [hb] at hhas hspare
  have hrest : ∀ sb ∈ rest, sb.unfilled ≠ [] := fun sb hsb => hhas sb (mem_append_right _ hsb)
  have hfilled : (rest.getLast?.map SpanBuilder.filled).getD [] =
      ((taken ++ rest).getLast?.map SpanBuilder.filled).getD [] := by
    by_cases hr : rest = []
    · subst hr
      rw [append_nil]
      cases hl : taken.getLast? with
      | none => rfl
      | some sb => exact (he sb (mem_of_getLast? hl)).symm
    · rw [getLast?_append_of_ne_nil _ hr]
  refine ⟨fun sb hsb => ⟨he sb hsb, hhas sb (mem_append_left _ hsb)⟩, hroom, by omega, by rw [hb]; exact hfilled, ?_,
    iff_of_true hrest ?_⟩
  · intro sb hsb
    have hne : rest ≠ [] := by rintro rfl; cases hsb
    exact hspare sb (by rw [dropLast_append_of_ne_nil hne]; exact mem_append_right _ hsb)
  · by_cases h0 : roomOf rest = 0
    · refine .inr (.inr ((filled_iff_unfrozen h).mp ?_))
      rw [hb, ← hfilled, eq_nil_of_roomOf hrest h0]
      rfl
    · exact .inr (.inl (by omega))

theorem last_of_filled (h : b.Inv) {sb : SpanBuilder} {behind : List SpanBuilder}
    (hb : b.span_builders_reversed = taken ++ sb :: behind) (hf : sb.filled ≠ []) : behind = [] := by
  by_contra hne
  have hspare := h.spare_empty
  rw [hb, dropLast_append_of_ne_nil (by simp)] at hspare
  obtain ⟨t, behind', rfl⟩ := exists_cons_of_ne_nil hne
  exact hf (hspare sb (by simp))

theorem splitInto_part (h : b.Inv) {sb kept split : SpanBuilder} {behind : List SpanBuilder}
    (hb : b.span_builders_reversed = taken ++ sb :: behind) (he : ∀ sb ∈ taken, sb.filled = [])
    (hl : 0 < left) (hroom : roomOf taken + left = count) (hle : left ≤ sb.unfilled.length)
    (hstop : sb.filled ≠ [] ∨ left < sb.unfilled.length) (hk : kept.filled = sb.filled)
    (hku : kept.unfilled.length = sb.unfilled.length - left) (hs : split.filled = []) (hsu : split.unfilled.length = left) :
    SplitInto b count (kept :: behind) (taken ++ [split]) := by
  have hhas := h.has_room
  have hspare := h.spare_empty
  have hav : b.available = roomOf taken + (sb.unfilled.length + roomOf behind) := by
    rw [← roomOf_cons, ← roomOf_append, ← hb]; exact h.available_eq
  rw [hb] at hhas hspare
  have hbehind : ∀ s ∈ behind, s.unfilled ≠ [] := fun s hs => hhas s (by simp [hs])
  have hfilled : ((kept :: behind).getLast?.map SpanBuilder.filled) =
      ((taken ++ sb :: behind).getLast?.map SpanBuilder.filled) := by
    rw [getLast?_append_of_ne_nil _ (by simp), ← getLast?_map, ← getLast?_map, map_cons, map_cons,
      hk]
  refine ⟨AllSpare.append (fun s hs => ⟨he s hs, hhas s (mem_append_left _ hs)⟩) ?_, ?_, ?_, by rw [hb, hfilled], ?_, ?_⟩
  · intro s hsm
    rw [mem_singleton.mp hsm]
    exact ⟨hs, length_pos_iff.mp (by omega)⟩
  · rw [roomOf_append, roomOf_cons]; simp; omega
  · rw [roomOf_cons]; omega
  · intro s hsm
    cases behind with
    | nil => cases hsm
    | cons t behind =>
      rw [dropLast_cons_cons, mem_cons] at hsm
      rcases hsm with rfl | hsm
      · rw [hk]; exact hspare sb (by simp)
      · exact hspare s (by simp [hsm])
  · constructor
    · intro hall
      have := length_pos_of_ne_nil (hall kept (by simp))
      exact .inr (.inl (by omega))
    · intro hgood
      have hlt : left < sb.unfilled.length := by
        rcases hstop with hf | hlt
        · have hnil := last_of_filled h hb hf
          subst hnil
          rcases hgood with h0 | hlt | hfr
          · omega
          · rw [roomOf_nil] at hav; omega
          · have := (filled_iff_unfrozen h).mpr hfr
            rw [hb] at this
            exact absurd (by simpa using this) hf
        · exact hlt
      intro s hsm
      rcases mem_cons.mp hsm with rfl | hsm
      · exact length_pos_iff.mp (by omega)
      · exact hbehind s hsm

theorem split_run (h : b.Inv) (hc : 0 < count) (hca : count ≤ b.available) :
    ∃ kept given, SplitInto b count kept given ∧ (split_off_remaining_checked count).run b =
      (.ok (some (from_span_builders given)),
        { b with span_builders_reversed := kept, available := b.available - count }) := by
  obtain ⟨taken, rest, left, hb, hw, he, hroom, hstop⟩ := whole_builders_spec b.span_builders_reversed 0 count
  have hav : b.available = roomOf taken + roomOf rest := by rw [← roomOf_append, ← hb]; exact h.available_eq
  have hnot : ¬ b.remaining_capacity < count := Nat.not_lt.mpr hca
  have hdrop : b.span_builders_reversed.drop taken.length = rest := by rw [hb, drop_left]
  have htake : b.span_builders_reversed.take taken.length = taken := by rw [hb, take_left]
  rcases Nat.eq_zero_or_pos left with rfl | hl
  · refine ⟨rest, taken, splitInto_whole h hb he (by omega), ?_⟩
    simp [split_off_remaining_checked, hnot, Nat.pos_iff_ne_zero.mp hc, hw, hdrop, htake, split_first, checked_sub_of_le hca]
  · cases rest with
    | nil => rw [roomOf_nil] at hav; omega
    | cons sb behind =>
      have hstop' := hstop sb rfl
      have hle : left ≤ sb.unfilled.length := by
        rcases hstop' with hf | hlt
        · have hnil := last_of_filled h hb hf
          rw [hnil, roomOf_cons, roomOf_nil] at hav
          omega
        · exact Nat.le_of_lt hlt
      obtain ⟨kept, split, hs, hk, hku, hsf, hsu⟩ : ∃ kept split, sb.split_off_available left = some (kept, split) ∧
          kept.filled = sb.filled ∧ kept.unfilled.length = sb.unfilled.length - left ∧ split.filled = [] ∧
          split.unfilled.length = left := by
        refine ⟨_, _, if_pos hle, rfl, ?_, rfl, ?_⟩
        · simp only [length_take, SpanBuilder.remaining_capacity]; omega
        · simp only [length_drop, SpanBuilder.remaining_capacity]; omega
      have hblock : decide (left ≤ blockSizeMax) = true := decide_eq_true (by have := sb.fits; omega)
      refine ⟨kept :: behind, taken ++ [split], splitInto_part h hb he hl hroom hle hstop' hk hku hsf hsu, ?_⟩
      simp [split_off_remaining_checked, hnot, Nat.pos_iff_ne_zero.mp hc, hw, hdrop, htake, split_first,
        Nat.pos_iff_ne_zero.mp hl, assert_true hblock, then_assoc, hs, checked_sub_of_le hca]

/-- A split leaves the donor's bytes alone and moves exactly `count` bytes of
capacity to a new, valid buffer. The donor stays valid exactly if the split
is good. -/
theorem split_off_spec (h : b.Inv) (hc : count ≤ b.available) :
    ∃ given b', (split_off_remaining count).run b = (.ok given, b') ∧ b'.contents = b.contents ∧ b'.len = b.len ∧
      b'.available = b.available - count ∧ given.Inv ∧ given.contents = [] ∧ given.available = count ∧
      (b'.Inv ↔ GoodSplit b count) ∧ (¬ GoodSplit b count → ∃ fb, b'.span_builders_reversed.getLast? = some fb ∧
        fb.unfilled = []) := by
  rcases Nat.eq_zero_or_pos count with rfl | hpos
  · refine ⟨BytesBuf.new, b, ?_, rfl, rfl, rfl, new_inv, rfl, rfl, iff_of_true h (.inl rfl), fun hg => absurd (.inl rfl) hg⟩
    simp [split_off_remaining, split_off_remaining_checked, then_assoc]
  · obtain ⟨kept, given, hs, hr⟩ := split_run h hpos hc
    have hbd := h.bounded
    refine ⟨from_span_builders given, { b with span_builders_reversed := kept, available := b.available - count },
      by rw [split_off_remaining, bind_ok hr]; rfl, ?_, rfl, rfl, ?_, ?_, hs.given_room, ?_, ?_⟩
    · simp only [contents, hs.kept_filled]
    · exact from_span_builders_inv hs.given_spare (by have := hs.given_room; omega)
    · exact contents_spare hs.given_spare [] 0 0 _
    · rw [← hs.good_iff]
      refine ⟨fun hi => hi.has_room, fun hroom => ⟨hs.kept_spare, hroom, h.frozen_eq, ?_, hs.kept_room.symm, ?_⟩⟩
      · have hlen := h.len_eq
        have hl := congrArg List.length hs.kept_filled
        cases hk : kept.getLast? <;> cases hb : b.span_builders_reversed.getLast? <;>
          simp_all [SpanBuilder.len]
      · simp only; omega
    · intro hg
      have hroom : ¬ ∀ sb ∈ kept, sb.unfilled ≠ [] := fun hall => hg (hs.good_iff.mp hall)
      have h0 : roomOf kept = 0 := by
        have := hs.kept_room
        have : ¬ count < b.available := fun hlt => hg (.inr (.inl hlt))
        omega
      simp only [not_forall] at hroom
      obtain ⟨sb, hsb, -⟩ := hroom
      obtain ⟨fb, hfb⟩ : ∃ fb, kept.getLast? = some fb := by
        cases hk : kept.getLast? with
        | none => rw [getLast?_eq_none_iff.mp hk] at hsb; cases hsb
        | some fb => exact ⟨fb, rfl⟩
      refine ⟨fb, hfb, eq_nil_of_length_eq_zero ?_⟩
      have hle : fb.remaining_capacity ≤ roomOf kept :=
        le_sum_of_mem (mem_map.mpr ⟨fb, mem_of_getLast? hfb, rfl⟩)
      exact Nat.le_zero.mp (h0 ▸ hle)

theorem split_ok_le {given b' : BytesBuf} (hs : (split_off_remaining count).run b = (.ok given, b')) :
    count ≤ b.available := by
  by_contra hlt
  have hrun : (split_off_remaining_checked count).run b = (.ok none, b) := by
    simp [split_off_remaining_checked, remaining_capacity, Nat.not_le.mp hlt]
  rw [split_off_remaining, bind_ok hrun, expect_none, run_panic] at hs
  cases hs

end Split

/-! ## Runs with splits -/

/-- Runs from `b₀`: calls, and good splits of the buffer. -/
inductive RunFrom (b₀ : BytesBuf) : BytesBuf → List UInt8 → List UInt8 → Prop where
  | refl : RunFrom b₀ b₀ [] []
  | call {b b' : BytesBuf} {written consumed : List UInt8} {out : Outcome Panic Reply} (op : Op) (fuel : Nat)
      (hr : RunFrom b₀ b written consumed) (hl : op.Legal b) (hf : op.rounds b < fuel)
      (hc : (op.call fuel).run b = (out, b')) :
      RunFrom b₀ b' (written ++ op.written out) (consumed ++ op.consumed out)
  | split {b b' given : BytesBuf} {written consumed : List UInt8} (count : Nat)
      (hr : RunFrom b₀ b written consumed) (hg : GoodSplit b count)
      (hs : (split_off_remaining count).run b = (.ok given, b')) : RunFrom b₀ b' written consumed

/-- Whatever is done with the buffer next, it returns its bytes and those
written since in order, and no call spins or fails an internal expectation. -/
def Dependable (b₀ : BytesBuf) : Prop :=
  ∀ b written consumed, RunFrom b₀ b written consumed →
    (∃ v, BytesBuf.peek.run b = (.ok v, b) ∧ consumed ++ v.bytes = b₀.contents ++ written ∧ v.len = b.len) ∧
    ∀ (op : Op) (fuel : Nat), op.Legal b → op.rounds b < fuel →
      ((op.call fuel).run b).1 ≠ .div ∧ ∀ site, ((op.call fuel).run b).1 ≠ .panic (.internal site)

/-- Buffers that runs with good splits reach, as donors or as new buffers. -/
inductive SplitReachable : BytesBuf → Prop where
  | new : SplitReachable BytesBuf.new
  | from_blocks (blocks : List Block) (h : (blocks.map (·.memory.length)).sum ≤ usizeMax) :
      SplitReachable (BytesBuf.from_blocks blocks)
  | run {b b' : BytesBuf} {written consumed : List UInt8} (hb : SplitReachable b) (hr : RunFrom b b' written consumed) :
      SplitReachable b'
  | given {b b' given : BytesBuf} (count : Nat) (hb : SplitReachable b)
      (hs : (split_off_remaining count).run b = (.ok given, b')) : SplitReachable given

variable {b : BytesBuf}

theorem RunFrom.inv {b₀ : BytesBuf} {written consumed : List UInt8} (h₀ : b₀.Inv)
    (hr : RunFrom b₀ b written consumed) : b.Inv ∧ consumed ++ b.contents = b₀.contents ++ written := by
  induction hr with
  | refl => exact ⟨h₀, by simp⟩
  | call op fuel hr hl hf hc ih =>
    obtain ⟨hinv, hw⟩ := ih
    obtain ⟨hinv', hcons⟩ := call_conserves hinv hl hf hc
    exact ⟨hinv', by rw [← append_assoc, ← hw, append_assoc, append_assoc, hcons]⟩
  | split count hr hg hs ih =>
    obtain ⟨hinv, hw⟩ := ih
    obtain ⟨given', b'', hs', hc, -, -, -, -, -, hiff, -⟩ := split_off_spec hinv (split_ok_le hs)
    rw [hs'] at hs
    obtain ⟨-, rfl⟩ := Prod.mk.inj hs
    exact ⟨hiff.mpr hg, by rw [hc, hw]⟩

theorem SplitReachable.inv (hr : SplitReachable b) : b.Inv := by
  induction hr with
  | new => exact new_inv
  | from_blocks blocks h => exact from_blocks_inv h
  | run hb hr ih => exact (hr.inv ih).1
  | given count hb hs ih =>
    obtain ⟨given', b'', hs', -, -, -, hinv, -⟩ := split_off_spec ih (split_ok_le hs)
    rw [hs'] at hs
    obtain ⟨h, -⟩ := Prod.mk.inj hs
    cases h
    exact hinv

theorem dependable_of_inv (h : b.Inv) : Dependable b := by
  intro b' written consumed hr
  obtain ⟨hinv, hw⟩ := hr.inv h
  obtain ⟨v, hp, hv⟩ := peek_spec hinv
  refine ⟨⟨v, hp, by rw [hv, hw], by rw [← v.length_bytes, hv, hinv.length_contents]⟩, ?_⟩
  intro op fuel hl hf
  rw [(call_refines hinv op hl hf).out]
  exact (spec_conserves op b'.queue).2

/-! ## What a bad split leaves behind -/

/-- A full builder in front of the queue: writing past it never ends. -/
theorem put_slice_spins {fb : SpanBuilder} (src : List UInt8)
    (hb : b.span_builders_reversed.getLast? = some fb) (hfb : fb.unfilled = []) (hs : src ≠ [])
    (ha : src.length ≤ b.available) (fuel : Nat) : (put_slice fuel src).run b = (.div, b) := by
  have hassert : decide (src.length ≤ b.remaining_capacity) = true := decide_eq_true ha
  have hlt : fb.remaining_capacity < src.length := by
    rw [SpanBuilder.remaining_capacity, hfb]; exact length_pos_of_ne_nil hs
  have hsmall : (put_small src).run b = (.ok false, b) := by simp [put_small, assert_true hassert, hb, hlt]
  have hcopy : fb.copy_to_unfilled [] = some fb := by simp [SpanBuilder.copy_to_unfilled, SpanBuilder.remaining_capacity]
  have hset : b.set_first_builder fb = b := by
    rw [set_first_builder, dropLast_append_getLast? fb hb]
  have hround : (put_slice_round src).run b = (.ok (.inl src), b) := by
    simp [put_slice_round, hs, first_unfilled_len, hb, SpanBuilder.remaining_capacity, hfb, copy_to_first_unfilled, hcopy,
      hset, advance, then_assoc]
  rw [put_slice, bind_ok hsmall]
  simp only [Bool.false_eq_true, if_false, put_slice_looped, self_then, assert_true hassert, pure_then]
  exact loop_spins hround fuel

def oneByte : Memory where
  reserve min_bytes := if min_bytes = 1 then some (BytesBuf.from_blocks [⟨[0], by decide, by decide⟩]) else none
  inv h := by split at h <;> cases h; exact from_blocks_inv (by decide)
  empty h := by split at h <;> cases h; rfl
  enough h := by split at h <;> cases h; subst_vars; decide

theorem reserve_oneByte_run (ha : b.available = 0) (hl : b.len < usizeMax) :
    ∃ one, (reserve 1 oneByte).run b =
      (.ok (), { b with available := 1, span_builders_reversed := one :: b.span_builders_reversed }) := by
  refine ⟨Block.into_span_builder ⟨[0], by decide, by decide⟩, ?_⟩
  have hcap : (BytesBuf.from_blocks [⟨[0], by decide, by decide⟩]).capacity = 1 := by decide
  simp [reserve, remaining_capacity, ha, extend_capacity_by_at_least, oneByte, hcap,
    checked_add_of_le (show 0 + 1 ≤ usizeMax by decide), assert_capacity_within_bounds,
    checked_add_of_le (show b.len + 1 ≤ usizeMax from hl)]
  rfl

/-- A split leaves the donor's bytes alone, moves exactly `count` bytes of
capacity to a new, empty buffer that can be depended on, and leaves a donor
that can be depended on exactly if it is good. -/
theorem split_off_remaining_dependable {b : BytesBuf} (hr : SplitReachable b) (count : Nat)
    (hc : count ≤ b.remaining_capacity) :
    ∃ given b' v v', (split_off_remaining count).run b = (.ok given, b') ∧
      BytesBuf.peek.run b = (.ok v, b) ∧ BytesBuf.peek.run b' = (.ok v', b') ∧ v'.bytes = v.bytes ∧
      b'.remaining_capacity = b.remaining_capacity - count ∧ given.len = 0 ∧ given.remaining_capacity = count ∧
      Dependable b ∧ Dependable given ∧ (Dependable b' ↔ GoodSplit b count) := by
  have hinv := hr.inv
  have hbd := hinv.bounded
  obtain ⟨given, b', hs, hcont, hlen, hav, hgi, hgc, hga, hiff, hbad⟩ := split_off_spec hinv hc
  obtain ⟨v, hp, hv⟩ := peek_spec hinv
  obtain ⟨v', hp', hv'⟩ := peek_run (b := b') (by rw [hcont, hinv.length_contents]; omega)
  refine ⟨given, b', v, v', hs, hp, hp', by rw [hv, hv', hcont], hav, by rw [← hgi.length_contents, hgc]; rfl, hga,
    dependable_of_inv hinv, dependable_of_inv hgi, ?_, fun hg => dependable_of_inv (hiff.mpr hg)⟩
  intro hdep
  by_contra hg
  -- one byte of fresh capacity behind the full builder, and a write of one byte
  obtain ⟨fb, hfb, hfu⟩ := hbad hg
  have h0 : b'.available = 0 := by
    have : ¬ count < b.available := fun hlt => hg (.inr (.inl hlt))
    omega
  have hpos : 0 < count := Nat.pos_of_ne_zero fun h0 => hg (.inl h0)
  have hc' : count ≤ b.available := hc
  obtain ⟨one, hres⟩ := reserve_oneByte_run h0 (by omega)
  have hcall : ((Op.reserve 1 oneByte).call 1).run b' = (.ok .unit, _) := run_seq (f := fun _ => .unit) hres
  have hrun := RunFrom.call (.reserve 1 oneByte) 1 (RunFrom.refl : RunFrom b' b' [] []) trivial Nat.zero_lt_one hcall
  refine ((hdep _ _ _ hrun).2 (.put_slice [0]) 2 trivial Nat.one_lt_two).1 ?_
  have hspin := put_slice_spins (b := { b' with available := 1, span_builders_reversed := one :: b'.span_builders_reversed })
    [0] (show _ = some fb by simp [getLast?_cons, hfb]) hfu (by simp) (by simp) 2
  rw [Op.call, bind_div hspin]

/-- Blocks of four, three and two bytes; the last of them is written first. -/
def nineBytes : BytesBuf :=
  .from_blocks [⟨[0, 0, 0, 0], by decide, by decide⟩, ⟨[0, 0, 0], by decide, by decide⟩, ⟨[0, 0], by decide, by decide⟩]

/-- The blocks with three bytes written. -/
def threeOfNine : BytesBuf := (((Op.put_slice [1, 2, 3]).call 4).run nineBytes).2

/-- Five of the six free bytes split off: the block of four, and a byte of the one that is being written. -/
theorem split_off_remaining_dependable_blocks : ∃ given b' v', (split_off_remaining 5).run threeOfNine = (.ok given, b') ∧
    BytesBuf.peek.run b' = (.ok v', b') ∧ v'.bytes = [1, 2, 3] ∧ given.remaining_capacity = 5 ∧
    Dependable given ∧ Dependable b' := by
  have hrun : RunFrom nineBytes threeOfNine _ _ := .call (.put_slice [1, 2, 3]) 4 .refl trivial (by decide) rfl
  obtain ⟨given, b', v, v', hs, hv, hv', hbytes, -, -, hcap, -, hgiven, hiff⟩ :=
    split_off_remaining_dependable (.run (.from_blocks _ (by decide)) hrun) 5 (by decide)
  have hb : v.bytes = [1, 2, 3] := by
    cases hv.symm.trans (show _ = (.ok ⟨[⟨[3], by decide⟩, ⟨[1, 2], by decide⟩], 3, rfl⟩, threeOfNine) by decide)
    rfl
  exact ⟨given, b', v', hs, hv', hbytes.trans hb, hcap, hgiven, hiff.mpr (by decide)⟩

/-- A block of four bytes, two of them written. -/
def twoOfFour : BytesBuf :=
  ((put_slice 3 [1, 2]).run (BytesBuf.from_blocks [⟨[0, 0, 0, 0], by decide, by decide⟩])).2

/-- Splitting off both free bytes of the block: consuming one byte then loses
the other, and reserving one more byte and writing it never ends. -/
theorem split_off_remaining_loses_bytes :
    ((do let _ ← split_off_remaining 2; let _ ← consume 1; consume_all : M BytesView).run twoOfFour).1 =
      .panic (.internal .freeze_without_builder) ∧
    ∀ fuel, ((do let _ ← split_off_remaining 2; reserve 1 oneByte; put_slice fuel [3] : M Unit).run twoOfFour).1 = .div := by
  refine ⟨by decide, fun fuel => ?_⟩
  have hpre : (split_off_remaining 2 >>= fun _ => reserve 1 oneByte).run twoOfFour =
      (.ok (), ⟨[], [⟨[], [0], by decide⟩, ⟨[1, 2], [], by decide⟩], 2, 0, 1⟩) := by decide
  rw [← then_assoc, bind_ok hpre, put_slice_spins [3] rfl rfl (by simp) (by simp)]

end Bytesbuf
