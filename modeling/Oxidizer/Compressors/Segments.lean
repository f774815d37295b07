import Oxidizer.Compressors.Limits
import Oxidizer.Compressors.Decoding
/-!
# Decompression does not depend on segmentation

For a codec that delivers the decodings of a `Decoder`, the run of a caller ends
as `decoding` says, whatever the pieces pushed, their segments, the memory
provider, the chunk size and the sizes of the codec's steps. `Sync` relates a pump
in the middle of a run to what is left to decode; it carries a bound on the work
that is left, which every engine step and every chunk handed out makes smaller.
-/

namespace Compressors

open List Pump Decoder BytesView

namespace Decoder
variable {d : Decoder} {policy : StreamEnd} {limit : Option ℕ} {fuel count : ℕ} {got rest : List UInt8}

theorem out_le_scan : d.out got <+: d.out (d.scan got rest).1 := by
  induction rest generalizing got with
  | nil => exact prefix_refl _
  | cons byte rest ih =>
    rw [scan]
    split
    · exact (d.grows got [byte]).trans ih
    · exact prefix_refl _

theorem out_le_decode : d.out got <+: (d.decode policy limit (fuel + 1) count got rest).2 := by
  simp only [decode]
  split
  · exact out_le_scan
  · exact out_le_scan
  · exact out_le_scan.trans (prefix_append _ _)

/-- The state that the end of a stream leads to, when more input may come. -/
def next_state (policy : StreamEnd) (limit : Option ℕ) (count : ℕ) : State :=
  match policy with
  | .complete => .done
  | .await_eof => .awaiting_eof
  | .next_stream =>
    match limit.filter fun maximum => maximum ≤ count with
    | some maximum => .at_stream_limit maximum
    | none => .between_streams

theorem decode_ended (h : d.verdict got = .ended) (hlimit : limit ≠ some 0) :
    d.decode policy limit (fuel + 1) count got rest =
      ((d.resume policy limit fuel (count + 1) (next_state policy limit (count + 1)) [] rest).1,
        d.out got ++ (d.resume policy limit fuel (count + 1) (next_state policy limit (count + 1)) [] rest).2) := by
  have hscan : d.scan got rest = (got, rest) := scan_of_ne (by rw [h]; nofun)
  simp only [decode, hscan, h, hlimit, if_false]
  cases policy with
  | complete => rfl
  | await_eof => rfl
  | next_stream =>
    simp only [next_state]
    split
    · next hrest =>
      subst hrest
      cases limit.filter fun maximum => maximum ≤ count + 1 <;> simp [resume]
    · next hrest =>
      cases limit with
      | none => simp [resume, hrest]
      | some maximum =>
        by_cases hle : maximum ≤ count + 1
        · simp [resume, hrest, hle, Option.filter]
        · simp [resume, hrest, hle, Option.filter]

theorem decode_ended_zero (h : d.verdict got = .ended) :
    d.decode policy (some 0) (fuel + 1) count got rest = (.err .limit_exceeded, d.out got) := by
  have hscan : d.scan got rest = (got, rest) := scan_of_ne (by rw [h]; nofun)
  simp [decode, hscan, h]

end Decoder

namespace BytesView

theorem is_empty_iff (v : BytesView) : v.is_empty = true ↔ v.bytes = [] := by
  obtain ⟨segments, filled⟩ := v
  cases segments with
  | nil => simp [is_empty, bytes]
  | cons s rest =>
    have hs : s ≠ [] := filled s mem_cons_self
    simp [is_empty, bytes, hs]

theorem bytes_eq_first_slice (v : BytesView) : ∃ rest, v.bytes = v.first_slice ++ rest := by
  obtain ⟨segments, filled⟩ := v
  cases segments with
  | nil => exact ⟨[], rfl⟩
  | cons s rest => exact ⟨rest.flatten, rfl⟩

theorem first_slice_eq_nil {v : BytesView} (h : v.first_slice = []) : v.is_empty = true := by
  obtain ⟨segments, filled⟩ := v
  cases segments with
  | nil => rfl
  | cons s rest => exact absurd h (filled s mem_cons_self)

end BytesView

/-- What a run is about: a codec and what it delivers, the destination, the bounds and the chunk size, and the meaning of
the whole input. -/
structure Setting (σ : Type) where
  codec : Codec σ
  decoder : Decoder
  policy : StreamEnd
  At : σ → List UInt8 → List UInt8 → Prop
  ideal : Ideal codec decoder policy At
  into : Destination
  buffered : BufferedFallbacks
  chunk : ℕ
  chunk_pos : 0 < chunk
  /-- there is no limit on output or ratio -/
  no_output : codec.limits.output_len = none
  no_ratio : codec.limits.ratio = none
  no_ceiling : buffered.output_len = none
  whole : Outcome × List UInt8

namespace Setting
variable {σ : Type} (S : Setting σ)

def limit : Option ℕ := stream_bound S.codec.limits S.buffered S.into

/-- What is left to decode in a state. -/
def resume (fuel count : ℕ) (state : State) (got rest : List UInt8) : Outcome × List UInt8 :=
  S.decoder.resume S.policy S.limit fuel count state got rest

/-- A pump in the middle of a run: `got` and `sent` are the codec's place in the current stream, `prior` the output of
the streams before, `future` the bytes of the pieces still to be pushed, and `handed` what was handed out. -/
structure Base (future : List UInt8) (ended : Bool) (handed : List UInt8) (m : ℕ) (p : Pump σ) (fuel count : ℕ)
    (got sent prior : List UInt8) : Prop where
  chunk_size : p.chunk_size = S.chunk
  memory : ∀ n, 0 < p.memory n
  buffered : p.buffered = S.buffered
  outcome : S.whole.1 = (S.resume fuel count p.state got (p.input.bytes ++ future)).1
  output : S.whole.2 = prior ++ (S.resume fuel count p.state got (p.input.bytes ++ future)).2
  given : handed ++ p.output = prior ++ sent
  sent_le : sent <+: S.decoder.out got
  enough : Pump.continues p.state = true → got.length + (p.input.bytes ++ future).length < fuel
  apart : Pump.drives p.state = false → got = [] ∧ sent = []
  alive : p.state ≠ .failed ∧ ∀ end_after, p.state ≠ .flushing end_after
  idle : Pump.waits p.state = true → p.input.is_empty = true
  last : ended = true → future = [] ∧ (p.state = .finishing ∨ p.state = .done)
  finishing : p.state = .finishing → ended = true
  streams : p.streams = min count U64_MAX
  next : ∀ max, S.limit = some max → Pump.continues p.state = true → count < max ∨ count = 0
  left : 2 * (p.input.bytes ++ future).length + 2 * (S.whole.2.length - (handed ++ p.output).length) + p.output.length +
    (if got = [] then 0 else 1) ≤ m

/-- A pump in the middle of a run, whose engine is at its place in the stream. -/
structure Place (future : List UInt8) (ended : Bool) (handed : List UInt8) (m : ℕ) (p : Pump σ) (fuel count : ℕ)
    (got sent prior : List UInt8) : Prop extends S.Base future ended handed m p fuel count got sent prior where
  engine : Pump.continues p.state = true → S.At p.engine got sent

/-- A pump in the middle of a run, with at most `m` of work left. -/
def Sync (future : List UInt8) (ended : Bool) (handed : List UInt8) (m : ℕ) (p : Pump σ) : Prop :=
  ∃ fuel count got sent prior, S.Place future ended handed m p fuel count got sent prior

/-- What an answer of `pull` is, in the middle of a run with `m` of work left. -/
def Right (future : List UInt8) (ended : Bool) (handed : List UInt8) (m : ℕ) (p : Pump σ) : Reply → Prop
  | .ok (.data bytes) => bytes ≠ [] ∧ bytes.length ≤ S.chunk ∧ ∃ m' < m, S.Sync future ended (handed ++ bytes) m' p
  | .ok .progress => ∃ m' < m, S.Sync future ended handed m' p
  | .ok .need_input => S.Sync future ended handed m p ∧ p.input.is_empty = true ∧ ended = false ∧ p.state ≠ .done
  | .ok .done => S.whole.1 = .done ∧ handed = S.whole.2
  | .err e => S.whole.1 = .err e.kind ∧ handed <+: S.whole.2
  | .unreachable => False

variable {S} {future handed : List UInt8} {ended : Bool} {m : ℕ} {p : Pump σ} {fuel count : ℕ} {got sent prior : List UInt8}

/-! ## Handing output over -/

variable (h : S.Place future ended handed m p fuel count got sent prior)
include h

theorem Place.mono {m' : ℕ} (hle : m ≤ m') :
    S.Place future ended handed m' p fuel count got sent prior :=
  { h with left := h.left.trans hle }

theorem Place.take {data : List UInt8} {p' : Pump σ}
    (ht : p.take_output = some (data, p')) : S.Right future ended handed m p' (.ok (.data data)) := by
  unfold take_output at ht
  split at ht
  · cases ht
  next hne =>
  cases ht
  have hpos := S.chunk_pos
  have hout : 0 < p.output.length := length_pos_iff.mpr hne
  have hcount : 0 < min p.output.length p.chunk_size := by rw [h.chunk_size]; omega
  have hgiven : (handed ++ p.output.take (min p.output.length p.chunk_size)) ++
      p.output.drop (min p.output.length p.chunk_size) = handed ++ p.output := by
    rw [append_assoc, take_append_drop]
  refine ⟨?_, ?_, m - min p.output.length p.chunk_size, ?_, fuel, count, got, sent, prior,
    { h with given := hgiven.trans h.given, left := ?_ }⟩
  · intro hnil
    have hlen := congrArg List.length hnil
    rw [length_take, length_nil] at hlen
    omega
  · rw [length_take, ← h.chunk_size]
    omega
  · have hleft := h.left
    omega
  · have hleft := h.left
    dsimp only
    rw [hgiven, length_drop]
    omega

theorem Place.data_or {β : Type} (answer : Reply → β)
    (other : β) {Q : Pump σ × β → Prop} (hdata : ∀ p' data, S.Right future ended handed m p' (.ok (.data data)) →
      Q (p', answer (.ok (.data data)))) (hother : p.output = [] → Q (p, other)) : Q (Pump.data_or answer p other) := by
  unfold Pump.data_or
  split
  · next data p' ht => exact hdata p' data (h.take ht)
  · next ht =>
    apply hother
    unfold Pump.take_output at ht
    split at ht
    · assumption
    · cases ht

/-! ## One engine step -/

omit h in
theorem supply_front (p : Pump σ) (work : ℕ) : ∃ tail, p.input.bytes = p.supply work ++ tail := by
  obtain ⟨rest, hrest⟩ := p.input.bytes_eq_first_slice
  refine ⟨p.input.first_slice.drop (MAX_INPUT_PER_PULL - work) ++ rest, ?_⟩
  rw [supply, ← append_assoc, take_append_drop, hrest]

omit h in
theorem supply_eq_nil {work : ℕ} (hwork : work < MAX_INPUT_PER_PULL) (h : p.supply work = []) : p.input.is_empty = true := by
  apply first_slice_eq_nil
  have hpos : MAX_INPUT_PER_PULL - work ≠ 0 := by omega
  simpa [supply, hpos] using h

omit h in
theorem resume_drives {state : State} (h : Pump.drives state = true) (rest : List UInt8) :
    S.resume fuel count state got rest = S.decoder.decode S.policy S.limit fuel count got rest := by
  cases state <;> first | rfl | cases h

omit h in
theorem drives_continues {state : State} (h : Pump.drives state = true) : Pump.continues state = true := by
  cases state <;> first | rfl | cases h

omit h in
theorem Base.front (h : S.Base future ended handed m p fuel count got sent prior) : handed ++ p.output <+: S.whole.2 := by
  rw [h.given, h.output]
  apply (prefix_append_right_inj prior).mpr
  rcases hd : drives p.state with _ | _
  · rw [(h.apart hd).2]
    exact nil_prefix
  · have hfuel := h.enough (drives_continues hd)
    obtain ⟨fuel, rfl⟩ := Nat.exists_eq_add_of_lt (Nat.zero_lt_of_lt hfuel)
    rw [resume_drives hd, Nat.zero_add]
    exact h.sent_le.trans out_le_decode

omit h in
theorem check_limits_eq (hb : p.buffered = S.buffered) :
    p.check_limits S.codec S.into = S.codec.limits.check_streams p.streams := by
  have hceiling : p.check_ceiling S.into = .ok () := by
    unfold check_ceiling
    rw [fallbacks_eq hb]
    cases S.into <;> simp [BufferedFallbacks.into, S.no_ceiling]
  cases hs : S.codec.limits.check_streams p.streams <;>
    simp [check_limits, FormatLimits.check, FormatLimits.check_output, FormatLimits.check_ratio, S.no_output,
      S.no_ratio, hceiling, hs, bind, Except.bind]

omit h in
theorem check_limits_within (hb : p.buffered = S.buffered) (h : ∀ max, S.limit = some max → p.streams ≤ max) :
    p.check_limits S.codec S.into = .ok () := by
  rw [check_limits_eq hb]
  unfold FormatLimits.check_streams
  split
  · next max hmax =>
    obtain ⟨n, hn, hle⟩ := tighter_of_left (b := (S.buffered.into S.into).streams.map Subtype.val)
      (congrArg (Option.map Subtype.val) hmax)
    rw [if_neg (Nat.not_lt.mpr ((h n hn).trans hle))]
  · rfl

omit h in
theorem check_limits_zero (hb : p.buffered = S.buffered) (h0 : S.limit = some 0) (hs : 0 < p.streams) :
    ∃ e, p.check_limits S.codec S.into = .error e ∧ e.kind = .limit_exceeded := by
  rw [check_limits_eq hb]
  rcases tighter_cases h0 with h | h
  · obtain ⟨max, hmax, hval⟩ := Option.map_eq_some_iff.mp h
    refine ⟨.stream_limit_exceeded p.streams max.val, ?_, rfl⟩
    simp only [FormatLimits.check_streams, hmax]
    rw [if_pos (by rw [hval]; exact hs)]
  · obtain ⟨max, -, hval⟩ := Option.map_eq_some_iff.mp h
    exact absurd hval max.property.1.ne'

theorem Place.room_pos
    (hchunk : p.output.length < p.chunk_size) {operation : Operation} (hop : operation ≠ .flush) :
    0 < p.room S.codec S.into operation := by
  have hremaining : p.remaining_output S.codec S.into = none := by
    unfold remaining_output
    rw [fallbacks_eq h.buffered]
    cases S.into <;> simp [FormatLimits.remaining_output, S.no_output, BufferedFallbacks.into, S.no_ceiling, tighter]
  have hmem := h.memory p.calls
  simp only [room, hremaining, hop, if_false]
  omega

theorem Place.operation (hd : Pump.drives p.state = true)
    (last_slice : Bool) : ∃ operation, p.operation last_slice = some operation ∧ operation ≠ .flush := by
  unfold Pump.operation
  split
  · next hstate => exact absurd hstate (h.alive.2 _)
  · refine ⟨_, rfl, ?_⟩
    split <;> nofun
  · exact ⟨_, rfl, nofun⟩
  all_goals simp_all [Pump.drives]

omit h in
theorem Base.absorb (h : S.Base future ended handed m p fuel count got sent prior) (hd : Pump.drives p.state = true)
    (engine : σ) (m' : ℕ) {work k : ℕ} {written : List UInt8} (hk : k ≤ (p.supply work).length)
    (hmore : ∀ j < k, S.decoder.verdict (got ++ (p.supply work).take j) = .more)
    (hsent : sent ++ written <+: S.decoder.out (got ++ (p.supply work).take k))
    (hleft : k = 0 → written = [] → m ≤ m') (hless : m ≤ m' + 1) :
    S.Base future ended handed m' ((p.stepped engine).absorb k written) fuel count (got ++ (p.supply work).take k)
      (sent ++ written) prior := by
  obtain ⟨tail, htail⟩ := supply_front p work
  have hbytes : (p.input.advance k).bytes ++ future = (p.supply work).drop k ++ (tail ++ future) := by
    rw [bytes_advance, htail, drop_append_of_le_length hk, append_assoc]
  have hresume : S.resume fuel count p.state (got ++ (p.supply work).take k) ((p.input.advance k).bytes ++ future) =
      S.resume fuel count p.state got (p.input.bytes ++ future) := by
    rw [resume_drives hd, resume_drives hd, hbytes, htail, append_assoc, decode_take hk hmore]
  have hlen : (got ++ (p.supply work).take k).length + ((p.input.advance k).bytes ++ future).length =
      got.length + (p.input.bytes ++ future).length := by
    rw [hbytes, htail]
    simp only [length_append, length_take, length_drop]
    omega
  have hplace : S.Base future ended handed (m + written.length + 1) ((p.stepped engine).absorb k written) fuel count
      (got ++ (p.supply work).take k) (sent ++ written) prior := by
    refine
      { h with
        outcome := by rw [h.outcome]; exact congrArg Prod.fst hresume.symm
        output := by rw [h.output]; exact congrArg (prior ++ Prod.snd ·) hresume.symm
        given := by
          simp only [Pump.absorb, Pump.stepped]
          rw [← append_assoc, h.given, append_assoc]
        sent_le := hsent
        enough := fun hc => by
          have hfuel := h.enough hc
          simp only [Pump.absorb, Pump.stepped] at hlen ⊢
          omega
        apart := fun hn => absurd (hd.symm.trans hn) nofun
        idle := fun hw => by cases hs : p.state <;> simp_all [Pump.drives, Pump.waits, Pump.absorb, Pump.stepped]
        left := ?_ }
    have hleft := h.left
    simp only [Pump.absorb, Pump.stepped, length_append, length_take] at hleft hlen ⊢
    split <;> omega
  refine { hplace with left := ?_ }
  -- the output that was written is part of the whole, so that less of it is left
  have hfront := hplace.front.length_le
  have hold := h.left
  by_cases hk0 : k = 0
  · subst hk0
    simp only [take_zero, append_nil, Pump.absorb, Pump.stepped, length_append] at hfront hlen hold ⊢
    by_cases hw : written = []
    · subst hw
      have hle := hleft rfl rfl
      simp only [length_nil] at hfront ⊢
      omega
    · have hpos : 0 < written.length := length_pos_iff.mpr hw
      omega
  · simp only [Pump.absorb, Pump.stepped, length_append, length_take] at hfront hlen hold ⊢
    split <;> omega

/-! ## The end of a stream -/

omit h in
theorem min_le_iff_of_limit {max n : ℕ} (h : S.limit = some max) : max ≤ min n U64_MAX ↔ max ≤ n := by
  have hle := stream_bound_le h
  omega

omit h in
theorem after_stream_resume {state : State} {turn : Turn} (h : p.after_stream S.limit S.policy = .ok (state, turn))
    (hstreams : p.streams = min count U64_MAX) (hfinishing : p.state = .finishing → future = []) (fuel : ℕ) :
    S.resume fuel count state [] (p.input.bytes ++ future) =
      S.resume fuel count (Decoder.next_state S.policy S.limit count) [] (p.input.bytes ++ future) := by
  have hempty := p.input.is_empty_iff
  unfold resume Decoder.next_state
  cases hpolicy : S.policy with
  | complete => rw [hpolicy] at h; cases h; rfl
  | await_eof =>
    rw [hpolicy] at h
    simp only [after_stream] at h
    split at h
    · cases h
    next hinput =>
    have hbytes : p.input.bytes = [] := hempty.mp (by simpa using hinput)
    split at h <;> cases h
    · next hstate => simp [Decoder.resume, hbytes, hfinishing hstate]
    · rfl
  | next_stream =>
    rw [hpolicy] at h
    have hfilter : (S.limit.filter fun maximum => maximum ≤ p.streams) = S.limit.filter fun maximum => maximum ≤ count := by
      cases hlimit : S.limit with
      | none => rfl
      | some max => simp only [Option.filter, hstreams, min_le_iff_of_limit hlimit]
    simp only [after_stream] at h
    rw [hfilter] at h
    cases hlimit : S.limit.filter fun maximum => maximum ≤ count with
    | some maximum =>
      simp only [hlimit] at h
      split at h
      · cases h
      next hinput =>
      have hbytes : p.input.bytes = [] := hempty.mp (by simpa using hinput)
      split at h <;> cases h
      · next hstate => simp [Decoder.resume, hbytes, hfinishing hstate]
      · rfl
    | none =>
      simp only [hlimit] at h
      split at h
      · next hinput =>
        cases h
        have hbytes : p.input.bytes ≠ [] := fun hnil => by simp [hempty.mpr hnil] at hinput
        split <;> simp [Decoder.resume, hbytes]
      next hinput =>
      have hbytes : p.input.bytes = [] := hempty.mp (by simpa using hinput)
      split at h <;> cases h
      · next hstate => simp [Decoder.resume, hbytes, hfinishing hstate]
      · rfl

omit h in
theorem after_stream_fails {e : Error} (h : p.after_stream S.limit S.policy = .error e)
    (hstreams : p.streams = min count U64_MAX) (fuel : ℕ) (future : List UInt8) :
    S.resume fuel count (Decoder.next_state S.policy S.limit count) [] (p.input.bytes ++ future) = (.err e.kind, []) := by
  have hempty := p.input.is_empty_iff
  unfold resume Decoder.next_state
  cases hpolicy : S.policy with
  | complete => rw [hpolicy] at h; cases h
  | await_eof =>
    rw [hpolicy] at h
    simp only [after_stream] at h
    split at h
    · next hinput =>
      cases h
      have hbytes : p.input.bytes ≠ [] := fun hnil => by simp [hempty.mpr hnil] at hinput
      simp [Decoder.resume, hbytes, Error.corrupt_data]
    · split at h <;> cases h
  | next_stream =>
    rw [hpolicy] at h
    simp only [after_stream] at h
    split at h
    · next maximum hmax =>
      obtain ⟨hlimit, hle⟩ := Option.filter_eq_some_iff.mp hmax
      have hle' : maximum ≤ count := (min_le_iff_of_limit hlimit).mp (hstreams ▸ of_decide_eq_true hle)
      split at h
      · next hinput =>
        cases h
        have hbytes : p.input.bytes ≠ [] := fun hnil => by simp [hempty.mpr hnil] at hinput
        simp [Decoder.resume, hbytes, hlimit, hle', Option.filter, Error.stream_limit_exceeded]
      · split at h <;> cases h
    · split at h
      · cases h
      · split at h <;> cases h

omit h in
theorem after_stream_turn {limit : Option ℕ} {policy : StreamEnd} {state : State} {turn : Turn}
    (h : p.after_stream limit policy = .ok (state, turn)) :
    (turn = .again ∧ (state = .opened ∧ p.state ≠ .finishing ∨ state = .finishing ∧ p.state = .finishing)) ∨
    (turn = .ret (.ok .done) ∧ state = .done) ∨
    (turn = .ret (.ok .need_input) ∧ Pump.waits state = true ∧ p.state ≠ .finishing) := by
  cases policy with
  | complete => cases h; exact .inr (.inl ⟨rfl, rfl⟩)
  | await_eof =>
    simp only [after_stream] at h
    split at h
    · cases h
    · split at h <;> cases h
      · exact .inr (.inl ⟨rfl, rfl⟩)
      · exact .inr (.inr ⟨rfl, rfl, ‹_›⟩)
  | next_stream =>
    simp only [after_stream] at h
    split at h
    · split at h
      · cases h
      · split at h <;> cases h
        · exact .inr (.inl ⟨rfl, rfl⟩)
        · exact .inr (.inr ⟨rfl, rfl, ‹_›⟩)
    · split at h
      · cases h
        split
        · exact .inl ⟨rfl, .inr ⟨rfl, ‹_›⟩⟩
        · exact .inl ⟨rfl, .inl ⟨rfl, ‹_›⟩⟩
      · split at h <;> cases h
        · exact .inr (.inl ⟨rfl, rfl⟩)
        · exact .inr (.inr ⟨rfl, rfl, ‹_›⟩)

omit h in
/-- What a turn of the loop answers, in the middle of a run with `m` of work left. -/
def Turned (S : Setting σ) (future : List UInt8) (ended : Bool) (handed : List UInt8) (m : ℕ) (r : Pump σ × Turn) : Prop :=
  match r.2 with
  | .again => Pump.drives r.1.state = true ∧ ∃ m' < m, S.Sync future ended handed m' r.1
  | .ret reply => S.Right future ended handed m r.1 reply

omit h in
theorem Base.stream_end (h : S.Base future ended handed m p fuel count got sent prior) (hd : Pump.drives p.state = true)
    (hended : S.decoder.verdict got = .ended) (hsent : sent = S.decoder.out got)
    (hpolicy : (S.codec.stream_ended p.engine).2 = .ok S.policy)
    (hat : S.At (S.codec.stream_ended p.engine).1 [] []) :
    S.Turned future ended handed m (p.stream_end S.codec S.into) := by
  have hgot : got ≠ [] := by
    rintro rfl
    rw [S.decoder.start] at hended
    cases hended
  have hgot_pos : 0 < got.length := length_pos_iff.mpr hgot
  obtain ⟨fuel, rfl⟩ : ∃ f, fuel = f + 1 := ⟨fuel - 1, by have := h.enough (drives_continues hd); omega⟩
  have hfront : handed <+: S.whole.2 := (prefix_append _ _).trans h.front
  have hstreams : saturating_add p.streams 1 = min (count + 1) U64_MAX := by
    unfold saturating_add
    rw [h.streams]
    omega
  have houtcome := h.outcome
  have houtput := h.output
  rw [resume_drives hd] at houtcome houtput
  unfold Pump.stream_end
  dsimp only
  by_cases hzero : S.limit = some 0
  · -- the first stream is already one too many
    obtain ⟨e, hcheck, hkind⟩ := check_limits_zero (S := S)
      (p := { p with streams := saturating_add p.streams 1, inside := false }) h.buffered hzero
      (by rw [hstreams]; exact Nat.lt_min.mpr ⟨Nat.succ_pos _, by decide⟩)
    simp only [hcheck]
    rw [hzero, decode_ended_zero hended] at houtcome
    exact ⟨houtcome.trans (congrArg Outcome.err hkind.symm), hfront⟩
  rw [decode_ended hended hzero] at houtcome houtput
  dsimp only at houtcome houtput
  have hcheck : check_limits S.codec S.into { p with streams := saturating_add p.streams 1, inside := false } = .ok () := by
    refine check_limits_within (p := { p with streams := saturating_add p.streams 1, inside := false }) h.buffered ?_
    intro max hmax
    have hmax0 : max ≠ 0 := fun h0 => hzero (h0 ▸ hmax)
    have hnext := h.next max hmax (drives_continues hd)
    dsimp only
    rw [hstreams]
    omega
  have hlimit : max_streams S.codec S.into
      { p with streams := saturating_add p.streams 1, inside := false, engine := (S.codec.stream_ended p.engine).1 } =
      S.limit := max_streams_eq h.buffered
  have hlast : p.state = .finishing → future = [] := fun hs => (h.last (h.finishing hs)).1
  simp only [hcheck, hpolicy, hlimit]
  split
  · next e hafter =>
    -- what comes after the stream is rejected
    have hresume := after_stream_fails hafter hstreams fuel future
    unfold resume at hresume
    rw [hresume] at houtcome
    exact ⟨houtcome, hfront⟩
  · next state turn hafter =>
    obtain ⟨hfailed, -, hagain, hnext, -, hidle, -⟩ := after_stream_ok hafter
    have hturn := after_stream_turn hafter
    have hresume := after_stream_resume hafter hstreams hlast fuel
    have hopen : p.state ≠ .finishing → ended = false := by
      intro hs
      rcases hended' : ended with _ | _
      · rfl
      · rcases (h.last hended').2 with hs' | hs'
        · exact absurd hs' hs
        · rw [hs'] at hd; cases hd
    have hplace : S.Place future ended handed (m - 1)
        { p with streams := saturating_add p.streams 1, inside := false, engine := (S.codec.stream_ended p.engine).1,
                 state := state } fuel (count + 1) [] [] (prior ++ S.decoder.out got) :=
      { chunk_size := h.chunk_size
        memory := h.memory
        buffered := h.buffered
        outcome := houtcome.trans (congrArg Prod.fst hresume.symm)
        output := by
          rw [append_assoc]
          exact houtput.trans (congrArg (fun r : Outcome × List UInt8 => prior ++ (S.decoder.out got ++ r.2)) hresume.symm)
        given := by rw [append_nil, ← hsent]; exact h.given
        sent_le := nil_prefix
        enough := fun _ => by
          have henough := h.enough (drives_continues hd)
          simp only [length_nil]
          omega
        apart := fun _ => ⟨rfl, rfl⟩
        alive := ⟨hfailed, by
          rcases hturn with ⟨-, ⟨rfl, -⟩ | ⟨rfl, -⟩⟩ | ⟨-, rfl⟩ | ⟨-, hw, -⟩
          · nofun
          · nofun
          · nofun
          · rintro end_after rfl; cases hw⟩
        idle := hidle
        last := fun he => by
          refine ⟨(h.last he).1, ?_⟩
          rcases hturn with ⟨-, ⟨rfl, hs⟩ | ⟨rfl, -⟩⟩ | ⟨-, rfl⟩ | ⟨-, -, hs⟩
          · exact absurd (he.symm.trans (hopen hs)) nofun
          · exact .inl rfl
          · exact .inr rfl
          · exact absurd (he.symm.trans (hopen hs)) nofun
        finishing := fun hs => by
          rcases hturn with ⟨-, ⟨rfl, -⟩ | ⟨-, hs'⟩⟩ | ⟨-, rfl⟩ | ⟨-, hw, -⟩
          · cases hs
          · exact h.finishing hs'
          · cases hs
          · dsimp only at hs; rw [hs] at hw; cases hw
        streams := hstreams
        next := fun max hmax hc => by
          have hlt := hnext max hmax hc
          have hle := stream_bound_le hmax
          dsimp only at hlt
          rw [hstreams] at hlt
          left
          omega
        left := by
          have hleft := h.left
          rw [if_neg hgot] at hleft
          dsimp only
          rw [if_pos rfl]
          omega
        engine := fun _ => hat }
    have hm : m - 1 < m := by
      have hleft := h.left
      rw [if_neg hgot] at hleft
      omega
    refine hplace.data_or .ret turn (Q := S.Turned future ended handed m) ?_ fun hempty => ?_
    · rintro p' data ⟨hne, hle, m', hlt, hsync⟩
      exact ⟨hne, hle, m', hlt.trans hm, hsync⟩
    · have hgiven := hplace.given
      dsimp only at hempty hgiven
      rw [hempty, append_nil, append_nil] at hgiven
      rcases hturn with ⟨rfl, -⟩ | ⟨rfl, rfl⟩ | ⟨rfl, hw, hs⟩
      · exact ⟨hagain rfl, m - 1, hm, _, _, _, _, _, hplace⟩
      · exact ⟨hplace.outcome, by rw [hgiven, hplace.output]; exact (append_nil _).symm⟩
      · exact ⟨⟨_, _, _, _, _, hplace.mono (Nat.sub_le m 1)⟩, hidle hw, hopen hs, by rintro rfl; cases hw⟩

/-! ## The loop -/

omit h in
theorem Base.state_cases (h : S.Base future ended handed m p fuel count got sent prior) (hd : Pump.drives p.state = true) :
    p.state = .opened ∧ ended = false ∨ p.state = .finishing ∧ future = [] := by
  cases hs : p.state with
  | opened =>
    left
    refine ⟨rfl, ?_⟩
    rcases he : ended with _ | _
    · rfl
    · rcases (h.last he).2 with hs' | hs' <;> cases hs.symm.trans hs'
  | finishing => exact .inr ⟨rfl, (h.last (h.finishing hs)).1⟩
  | flushing end_after => exact absurd hs (h.alive.2 end_after)
  | _ => rw [hs] at hd; cases hd

theorem Place.stalled (hd : Pump.drives p.state = true)
    (hinput : p.input.is_empty = true) (hmore : S.decoder.verdict got = .more) :
    S.Turned future ended handed m p.stalled := by
  unfold Pump.stalled
  rcases h.state_cases hd with ⟨hs, hopen⟩ | ⟨hs, hfuture⟩
  · rw [if_neg (by rw [hs]; nofun), if_pos ⟨hinput, hs⟩]
    refine h.data_or Turn.ret (.ret (.ok .need_input)) (Q := S.Turned future ended handed m) (fun _ _ hr => hr) fun _ => ?_
    exact ⟨⟨_, _, _, _, _, h⟩, hinput, hopen, by rw [hs]; nofun⟩
  · rw [if_pos hs]
    obtain ⟨fuel, rfl⟩ : ∃ f, fuel = f + 1 := ⟨fuel - 1, by have := h.enough (drives_continues hd); omega⟩
    have houtcome := h.outcome
    rw [resume_drives hd, p.input.is_empty_iff.mp hinput, hfuture, append_nil, decode_more hmore] at houtcome
    exact ⟨houtcome, (prefix_append _ _).trans h.front⟩

theorem Place.turn (hd : Pump.drives p.state = true)
    (hchunk : p.output.length < p.chunk_size) {work : ℕ} (hwork : work < MAX_INPUT_PER_PULL) :
    S.Turned future ended handed m (p.turn S.codec S.into work).1 := by
  obtain ⟨operation, hop, hflush⟩ := h.operation hd (decide ((p.supply work).length = p.input.len))
  have hat := h.engine (drives_continues hd)
  have hroom := h.room_pos hchunk hflush
  have hfront : handed <+: S.whole.2 := (prefix_append _ _).trans h.front
  rcases hstep : S.codec.step p.engine (p.supply work) (p.room S.codec S.into operation) operation with ⟨engine, result⟩
  have hengine : (S.codec.step p.engine (p.supply work) (p.room S.codec S.into operation) operation).1 = engine := by
    rw [hstep]
  have hresult : (S.codec.step p.engine (p.supply work) (p.room S.codec S.into operation) operation).2 = result := by
    rw [hstep]
  simp only [Pump.turn, hop, hstep]
  cases result with
  | error e =>
    obtain ⟨hkind, k, hk, hmore, hcorrupt⟩ := S.ideal.error hat hroom hflush hresult
    obtain ⟨fuel, rfl⟩ : ∃ f, fuel = f + 1 := ⟨fuel - 1, by have := h.enough (drives_continues hd); omega⟩
    obtain ⟨tail, htail⟩ := supply_front p work
    have houtcome := h.outcome
    rw [resume_drives hd, htail, append_assoc, decode_take hk hmore, decode_corrupt hcorrupt] at houtcome
    exact ⟨houtcome.trans (congrArg Outcome.err hkind.symm), hfront⟩
  | ok answer =>
    obtain ⟨step, k, written⟩ := answer
    obtain ⟨hk, hwritten, hmore, hsent, hnoflush⟩ := S.ideal.delivers hat hroom hflush hresult
    dsimp only
    rw [if_neg (by omega)]
    have hbase := h.absorb hd engine m hk hmore hsent (fun _ _ => le_rfl) (Nat.le_succ m)
    have hcheck : ((p.stepped engine).absorb k written).check_limits S.codec S.into = .ok () := by
      apply check_limits_within hbase.buffered
      intro max hmax
      have hnext := hbase.next max hmax (drives_continues hd)
      rw [hbase.streams]
      omega
    unfold Pump.outcome
    rw [hcheck]
    cases step with
    | flush_complete => exact absurd rfl hnoflush
    | stream_end =>
      obtain ⟨hended, hall, hpolicy, hnext⟩ := S.ideal.ends hat hroom hflush hresult
      rw [hengine] at hpolicy hnext
      exact hbase.stream_end hd hended hall hpolicy hnext
    | «continue» =>
      obtain ⟨hat', hstall⟩ := S.ideal.progress hat hroom hflush hresult
      rw [hengine] at hat'
      dsimp only
      split
      · next hidle =>
        obtain ⟨rfl, rfl⟩ := of_decide_eq_true hidle
        obtain ⟨hinput, hneed⟩ := hstall rfl rfl
        have hempty := supply_eq_nil hwork hinput
        refine Place.stalled ⟨hbase, fun _ => hat'⟩ hd ?_ (by simpa using hneed)
        rw [is_empty_iff, Pump.absorb, bytes_advance]
        exact p.input.is_empty_iff.mp hempty
      · next hidle =>
        have hprogress : k = 0 → written = [] → m ≤ m - 1 := fun hk0 hw0 => absurd (decide_eq_true ⟨hk0, hw0⟩) hidle
        have hpos : 0 < m := by
          by_contra h0
          obtain ⟨tail, htail⟩ := supply_front p work
          have hleft := h.left
          have hlen := hbase.front.length_le
          simp only [Pump.absorb, Pump.stepped, htail, length_append] at hleft hlen
          have hk0 : k = 0 := by omega
          have hw0 : written.length = 0 := by omega
          exact hidle (decide_eq_true ⟨hk0, length_eq_zero_iff.mp hw0⟩)
        exact ⟨hd, m - 1, by omega, _, _, _, _, _,
          ⟨h.absorb hd engine (m - 1) hk hmore hsent hprogress (by omega), fun _ => hat'⟩⟩

omit h in
theorem Right.mono {reply : Reply} (h : S.Right future ended handed m p reply) {m' : ℕ} (hle : m ≤ m') :
    S.Right future ended handed m' p reply := by
  unfold Right at h ⊢
  split at h
  · obtain ⟨hne, hlen, n, hn, hsync⟩ := h
    exact ⟨hne, hlen, n, hn.trans_le hle, hsync⟩
  · obtain ⟨n, hn, hsync⟩ := h
    exact ⟨n, hn.trans_le hle, hsync⟩
  · obtain ⟨⟨fuel, count, got, sent, prior, hplace⟩, hrest⟩ := h
    exact ⟨⟨fuel, count, got, sent, prior, hplace.mono hle⟩, hrest⟩
  all_goals exact h

omit h in
/-- The loop, by induction on the engine steps left; it only yields when some work was done before. -/
theorem pull_loop_right {n : ℕ} (left work : ℕ) (hsync : S.Sync future ended handed m p) (hd : Pump.drives p.state = true)
    (hle : m ≤ n) (hyield : left = 0 ∨ MAX_INPUT_PER_PULL ≤ work → m < n) :
    S.Right future ended handed n (p.pull_loop S.codec S.into left work).1 (p.pull_loop S.codec S.into left work).2 := by
  induction left generalizing m p work with
  | zero =>
    obtain ⟨fuel, count, got, sent, prior, h⟩ := hsync
    have hprogress := h.data_or id (.ok .progress) (Q := fun r => S.Right future ended handed n r.1 r.2)
      (fun _ _ hr => hr.mono hle) fun _ => ⟨m, hyield (.inl rfl), fuel, count, got, sent, prior, h⟩
    unfold pull_loop
    split <;> exact hprogress
  | succ left ih =>
    obtain ⟨fuel, count, got, sent, prior, h⟩ := hsync
    unfold pull_loop
    split
    · next hfull =>
      exact h.data_or id (.ok .progress) (Q := fun r => S.Right future ended handed n r.1 r.2) (fun _ _ hr => hr.mono hle)
        fun hempty => absurd hempty hfull.2
    next hfull =>
    dsimp only
    split
    · next hwork =>
      exact h.data_or id (.ok .progress) (Q := fun r => S.Right future ended handed n r.1 r.2) (fun _ _ hr => hr.mono hle)
        fun _ => ⟨m, hyield (.inr hwork), fuel, count, got, sent, prior, h⟩
    next hwork =>
    have hchunk : p.output.length < p.chunk_size := by
      by_contra hge
      have hpos := S.chunk_pos
      rw [← h.chunk_size] at hpos
      refine hfull ⟨Nat.le_of_not_lt hge, ?_⟩
      intro hnil
      rw [hnil, length_nil] at hge
      exact hge hpos
    have hturned := h.turn hd hchunk (Nat.lt_of_not_le hwork)
    rcases hturn : p.turn S.codec S.into work with ⟨⟨p', turn⟩, consumed⟩
    rw [hturn] at hturned
    cases turn with
    | again =>
      obtain ⟨hd', m', hlt, hsync'⟩ := hturned
      exact ih _ hsync' hd' (hlt.le.trans hle) fun _ => hlt.trans_le hle
    | ret reply => exact Right.mono hturned hle

omit h in
theorem Sync.pull (hsync : S.Sync future ended handed m p) :
    S.Right future ended handed m (p.pull S.codec S.into).1 (p.pull S.codec S.into).2 := by
  obtain ⟨fuel, count, got, sent, prior, h⟩ := hsync
  have hloop : Pump.drives p.state = true → S.Right future ended handed m
      (p.pull_loop S.codec S.into MAX_STEPS_PER_PULL 0).1 (p.pull_loop S.codec S.into MAX_STEPS_PER_PULL 0).2 :=
    fun hd => pull_loop_right _ 0 ⟨_, _, _, _, _, h⟩ hd le_rfl fun hyield => absurd hyield (by decide)
  have hneed : Pump.waits p.state = true → S.Right future ended handed m (Pump.data_or id p (.ok .need_input)).1
      (Pump.data_or id p (.ok .need_input)).2 := by
    intro hw
    refine h.data_or id (.ok .need_input) (Q := fun r => S.Right future ended handed m r.1 r.2) (fun _ _ hr => hr) ?_
    intro _
    refine ⟨⟨fuel, count, got, sent, prior, h⟩, h.idle hw, ?_, fun hs => by rw [hs] at hw; cases hw⟩
    rcases he : ended with _ | _
    · rfl
    · rcases (h.last he).2 with hs | hs <;> rw [hs] at hw <;> cases hw
  unfold Pump.pull
  split
  · next hstate =>
    refine h.data_or id (.ok .done) (Q := fun r => S.Right future ended handed m r.1 r.2) (fun _ _ hr => hr) ?_
    intro hempty
    -- all the output there is has been handed out
    have houtcome := h.outcome
    have houtput := h.output
    have hgiven := h.given
    rw [hstate] at houtcome houtput
    rw [hempty, append_nil, (h.apart (by rw [hstate]; rfl)).2, append_nil] at hgiven
    exact ⟨houtcome, by rw [houtput, hgiven]; exact (append_nil _).symm⟩
  · next hstate => exact absurd hstate h.alive.1
  iterate 3
    · next hstate =>
      have hw : Pump.waits p.state = true := by rw [hstate]; rfl
      rw [if_pos (h.idle hw)]
      exact hneed hw
  all_goals next hstate => exact hloop (by rw [hstate]; rfl)

/-! ## The caller's run -/

theorem Place.move (v : BytesView) (state : State)
    {future' : List UInt8} {ended' : Bool} (hbytes : v.bytes ++ future' = p.input.bytes ++ future)
    (hresume : S.resume fuel count state got (p.input.bytes ++ future) =
      S.resume fuel count p.state got (p.input.bytes ++ future))
    (hcontinues : Pump.continues state = true → Pump.continues p.state = true)
    (hapart : Pump.drives state = false → got = [] ∧ sent = [])
    (halive : state ≠ .failed ∧ ∀ end_after, state ≠ .flushing end_after)
    (hidle : Pump.waits state = true → v.is_empty = true)
    (hlast : ended' = true → future' = [] ∧ (state = .finishing ∨ state = .done))
    (hfinishing : state = .finishing → ended' = true) :
    S.Place future' ended' handed m { p with input := v, state := state } fuel count got sent prior where
  chunk_size := h.chunk_size
  memory := h.memory
  buffered := h.buffered
  outcome := by dsimp only; rw [hbytes, hresume]; exact h.outcome
  output := by dsimp only; rw [hbytes, hresume]; exact h.output
  given := h.given
  sent_le := h.sent_le
  enough hc := by dsimp only; rw [hbytes]; exact h.enough (hcontinues hc)
  apart := hapart
  alive := halive
  idle := hidle
  last := hlast
  finishing := hfinishing
  streams := h.streams
  next max hmax hc := h.next max hmax (hcontinues hc)
  left := by dsimp only; rw [hbytes]; exact h.left
  engine hc := h.engine (hcontinues hc)

omit h

/-- What an answer of `push` is, in the middle of a run. -/
def Pushed (S : Setting σ) (future handed : List UInt8) (m : ℕ) (r : Pump σ × Option Error) : Prop :=
  match r.2 with
  | some e => S.whole.1 = .err e.kind ∧ handed <+: S.whole.2
  | none => S.Sync future false handed m r.1

theorem Sync.push (piece : BytesView) (hsync : S.Sync (piece.bytes ++ future) false handed m p)
    (hinput : p.input.is_empty = true) (hdone : p.state ≠ .done) : S.Pushed future handed m (p.push piece) := by
  obtain ⟨fuel, count, got, sent, prior, h⟩ := hsync
  have hnone : p.input.bytes = [] := p.input.is_empty_iff.mp hinput
  have hfront : handed <+: S.whole.2 := (prefix_append _ _).trans h.front
  have hbytes : piece.bytes ++ future = p.input.bytes ++ (piece.bytes ++ future) := by rw [hnone, nil_append]
  -- an empty piece is ignored in the states that wait
  have hignored : piece.is_empty = true → S.Sync future false handed m p := fun hpiece => by
    rw [piece.is_empty_iff.mp hpiece, nil_append] at h
    exact ⟨fuel, count, got, sent, prior, h⟩
  have hrest : ¬piece.is_empty = true → p.input.bytes ++ (piece.bytes ++ future) ≠ [] := fun hpiece hnil => by
    rw [← hbytes] at hnil
    exact hpiece (piece.is_empty_iff.mpr (append_eq_nil_iff.mp hnil).1)
  unfold Pump.push
  rw [if_neg (by rw [hinput]; nofun)]
  split
  · next hstate =>
    exact ⟨fuel, count, got, sent, prior, h.move piece p.state hbytes rfl id h.apart h.alive
      (fun hw => by rw [hstate] at hw; cases hw) nofun h.finishing⟩
  · next hstate =>
    split
    · next hpiece => exact hignored hpiece
    · next hpiece =>
      have hgot := (h.apart (by rw [hstate]; rfl)).1
      refine ⟨fuel, count, got, sent, prior, h.move piece .opened hbytes ?_ (fun _ => by rw [hstate]; rfl) nofun
        ⟨nofun, nofun⟩ nofun nofun nofun⟩
      rw [hstate, hgot]
      simp only [resume, Decoder.resume]
      rw [if_neg (hrest hpiece)]
  iterate 2
    · next hstate =>
      split
      · next hpiece => exact hignored hpiece
      · next hpiece =>
        have houtcome := h.outcome
        simp only [hstate, resume, Decoder.resume] at houtcome
        rw [if_neg (hrest hpiece)] at houtcome
        exact ⟨houtcome, hfront⟩
  · next hstate => exact absurd hstate (h.alive.2 _)
  · next hstate => exact absurd (h.finishing hstate) nofun
  · next hstate => exact absurd hstate hdone
  · next hstate => exact absurd hstate h.alive.1

theorem Sync.end_input (hsync : S.Sync [] false handed m p) (hinput : p.input.is_empty = true) (hdone : p.state ≠ .done) :
    S.Sync [] true handed m p.end_input := by
  obtain ⟨fuel, count, got, sent, prior, h⟩ := hsync
  have hnone : p.input.bytes ++ [] = [] := by rw [p.input.is_empty_iff.mp hinput, append_nil]
  have hwaits : Pump.drives p.state = false → S.resume fuel count p.state got [] = (.done, []) →
      S.Place [] true handed m { p with state := .done } fuel count got sent prior := fun hd hresume =>
    h.move p.input .done rfl (by rw [hnone, hresume]; rfl) nofun (fun _ => h.apart hd) ⟨nofun, nofun⟩ nofun
      (fun _ => ⟨rfl, .inr rfl⟩) nofun
  refine ⟨fuel, count, got, sent, prior, ?_⟩
  unfold Pump.end_input
  split
  · next hstate =>
    exact h.move p.input .finishing rfl (by rw [hstate]; rfl) (fun _ => by rw [hstate]; rfl) nofun ⟨nofun, nofun⟩ nofun
      (fun _ => ⟨rfl, .inl rfl⟩) fun _ => rfl
  · next hstate => exact absurd hstate (h.alive.2 _)
  · next hstate => exact hwaits (by rw [hstate]; rfl) (by rw [hstate]; rfl)
  · next hstate => exact hwaits (by rw [hstate]; rfl) (by rw [hstate]; rfl)
  · next hstate => exact hwaits (by rw [hstate]; rfl) (by rw [hstate]; rfl)
  · next hstate => exact absurd (h.finishing hstate) nofun
  · next hstate => exact absurd hstate hdone
  · next hstate => exact absurd hstate h.alive.1

def pending (pieces : List BytesView) : List UInt8 := (pieces.map BytesView.bytes).flatten

/-- The chunks of a run, together with what was handed out before. -/
structure Ran (S : Setting σ) (handed : List UInt8) (outcome : Outcome) (chunks : List (List UInt8)) : Prop where
  decoded : outcome = S.whole.1
  done : outcome = .done → handed ++ chunks.flatten = S.whole.2
  front : handed ++ chunks.flatten <+: S.whole.2
  chunks : ∀ chunk ∈ chunks, chunk ≠ [] ∧ chunk.length ≤ S.chunk

theorem ran_nil {outcome : Outcome} (houtcome : S.whole.1 = outcome) (hdone : outcome = .done → handed = S.whole.2)
    (hfront : handed <+: S.whole.2) : S.Ran handed outcome [] where
  decoded := houtcome.symm
  done h := by rw [flatten_nil, append_nil]; exact hdone h
  front := by rw [flatten_nil, append_nil]; exact hfront
  chunks := nofun

theorem Ran.cons {outcome : Outcome} {chunk : List UInt8} {chunks : List (List UInt8)}
    (h : S.Ran (handed ++ chunk) outcome chunks) (hne : chunk ≠ []) (hle : chunk.length ≤ S.chunk) :
    S.Ran handed outcome (chunk :: chunks) where
  decoded := h.decoded
  done ho := by rw [flatten_cons, ← append_assoc]; exact h.done ho
  front := by rw [flatten_cons, ← append_assoc]; exact h.front
  chunks := by
    intro c hc
    rcases mem_cons.mp hc with rfl | hc
    · exact ⟨hne, hle⟩
    · exact h.chunks c hc

/-- A caller's run ends as the meaning of the input says, by induction on the work left: what the pump has to do, the
pieces to push and the end of input to tell. -/
theorem drive_ran (n : ℕ) {pieces : List BytesView} (hsync : S.Sync (pending pieces) ended handed m p)
    (hn : m + pieces.length + (if ended then 0 else 1) = n) :
    ∃ fuel outcome chunks, drive S.codec S.into fuel pieces ended p = some (outcome, chunks) ∧ S.Ran handed outcome chunks := by
  induction n using Nat.strong_induction_on generalizing m pieces ended handed p with
  | _ n ih =>
  have hpull := hsync.pull
  rcases hp : p.pull S.codec S.into with ⟨p', reply⟩
  rw [hp] at hpull
  cases reply with
  | unreachable => exact hpull.elim
  | err e => exact ⟨1, .err e.kind, [], by simp [drive, hp], ran_nil hpull.1 nofun hpull.2⟩
  | ok output =>
    cases output with
    | done =>
      obtain ⟨houtcome, hall⟩ := hpull
      exact ⟨1, .done, [], by simp [drive, hp], ran_nil houtcome (fun _ => hall) (hall ▸ prefix_refl _)⟩
    | data chunk =>
      obtain ⟨hne, hle, m', hlt, hsync'⟩ := hpull
      obtain ⟨fuel, outcome, chunks, hdrive, hran⟩ := ih _ (by omega) hsync' rfl
      exact ⟨fuel + 1, outcome, chunk :: chunks, by simp [drive, hp, hdrive], hran.cons hne hle⟩
    | progress =>
      obtain ⟨m', hlt, hsync'⟩ := hpull
      obtain ⟨fuel, outcome, chunks, hdrive, hran⟩ := ih _ (by omega) hsync' rfl
      exact ⟨fuel + 1, outcome, chunks, by simp [drive, hp, hdrive], hran⟩
    | need_input =>
      obtain ⟨hsync', hinput, rfl, hdone⟩ := hpull
      cases pieces with
      | nil =>
        have hended : S.Sync (pending []) true handed m p'.end_input := Sync.end_input hsync' hinput hdone
        obtain ⟨fuel, outcome, chunks, hdrive, hran⟩ := ih (m + 0 + 0) (by rw [← hn]; simp) hended rfl
        exact ⟨fuel + 1, outcome, chunks, by simp [drive, hp, hinput, hdrive], hran⟩
      | cons piece pieces =>
        have hpush := Sync.push piece hsync' hinput hdone
        rcases hq : p'.push piece with ⟨q, _ | e⟩
        · rw [hq] at hpush
          obtain ⟨fuel, outcome, chunks, hdrive, hran⟩ :=
            ih (m + pieces.length + 1) (by rw [← hn]; simp) hpush rfl
          exact ⟨fuel + 1, outcome, chunks, by simp [drive, hp, hinput, hq, hdrive], hran⟩
        · rw [hq] at hpush
          exact ⟨1, .err e.kind, [], by simp [drive, hp, hinput, hq], ran_nil hpush.1 nofun hpush.2⟩

theorem Sync.new (memory : ℕ → ℕ) (hmemory : ∀ n, 0 < memory n) {engine : σ} (hat : S.At engine [] [])
    {input : List UInt8} (hwhole : S.whole = S.decoder.decoding S.policy S.limit input) :
    ∃ m, S.Sync input false [] m (.new memory S.chunk S.buffered engine) := by
  refine ⟨_, input.length + 1, 0, [], [], [],
    { chunk_size := rfl
      memory := hmemory
      buffered := rfl
      outcome := congrArg Prod.fst hwhole
      output := congrArg Prod.snd hwhole
      given := rfl
      sent_le := nil_prefix
      enough := fun _ => by simp [Pump.new, empty, bytes]
      apart := nofun
      alive := ⟨nofun, nofun⟩
      idle := nofun
      last := nofun
      finishing := nofun
      streams := rfl
      next := fun _ _ _ => .inr rfl
      left := le_rfl
      engine := fun _ => hat }⟩

end Setting

/-- The outcome of a decompression and its output are functions of the input, the decoder, the policy and the stream
limit: they are the same for every split of the input into pieces and segments, every memory provider and chunk size. -/
theorem decompression_independent {σ : Type} {codec : Codec σ} {d : Decoder} {policy : StreamEnd}
    {At : σ → List UInt8 → List UInt8 → Prop} (hideal : Ideal codec d policy At) (into : Destination)
    (b : BufferedFallbacks) (hlimits : codec.limits.output_len = none ∧ codec.limits.ratio = none ∧ b.output_len = none)
    (pieces : List BytesView) (memory : ℕ → ℕ) (hmemory : ∀ n, 0 < memory n) (chunk : ℕ) (hchunk : 0 < chunk) (engine : σ)
    (hengine : At engine [] []) :
    ∃ fuel outcome chunks,
      drive codec into fuel pieces false (.new memory chunk b engine) = some (outcome, chunks) ∧
        outcome = (d.decoding policy (stream_bound codec.limits b into) (pieces.map BytesView.bytes).flatten).1 ∧
        (outcome = .done →
          chunks.flatten = (d.decoding policy (stream_bound codec.limits b into) (pieces.map BytesView.bytes).flatten).2) ∧
        chunks.flatten <+: (d.decoding policy (stream_bound codec.limits b into) (pieces.map BytesView.bytes).flatten).2 ∧
        ∀ c ∈ chunks, c ≠ [] ∧ c.length ≤ chunk := by
  let S : Setting σ := ⟨codec, d, policy, At, hideal, into, b, chunk, hchunk, hlimits.1, hlimits.2.1, hlimits.2.2,
    d.decoding policy (stream_bound codec.limits b into) (pieces.map bytes).flatten⟩
  obtain ⟨m, hsync⟩ := Setting.Sync.new (S := S) memory hmemory hengine rfl
  obtain ⟨fuel, outcome, chunks, hdrive, hran⟩ := Setting.drive_ran _ hsync rfl
  exact ⟨fuel, outcome, chunks, hdrive, hran.decoded, hran.done, hran.front, hran.chunks⟩

/-- Streams of one byte, which stands for itself. -/
def single : Decoder where
  verdict
    | [] => .more
    | _ :: _ => .ended
  out got := got.take 1
  start := rfl
  grows a b := by
    cases a with
    | nil => exact List.nil_prefix
    | cons x a => simp

def single_codec : Codec Unit where
  step _ input _ _ :=
    match input with
    | [] => ((), .ok (.continue, 0, []))
    | byte :: _ => ((), .ok (.stream_end, 1, [byte]))
  stream_ended _ := ((), .ok .next_stream)
  limits := ⟨none, none, none⟩

theorem single_ideal : Ideal single_codec single .next_stream fun _ got sent => got = [] ∧ sent = [] where
  error := by
    rintro ⟨⟩ got sent (_ | ⟨byte, input⟩) take operation e - - - h <;> cases h
  delivers := by
    rintro ⟨⟩ got sent (_ | ⟨byte, input⟩) take operation step k written ⟨rfl, rfl⟩ htake - h <;> cases h
    · simp
    · refine ⟨by simp, htake, fun j hj => ?_, by simp [single], nofun⟩
      obtain rfl : j = 0 := by omega
      rfl
  progress := by
    rintro ⟨⟩ got sent (_ | ⟨byte, input⟩) take operation k written ⟨rfl, rfl⟩ - - h <;> cases h
    exact ⟨⟨rfl, rfl⟩, fun _ _ => ⟨rfl, rfl⟩⟩
  ends := by
    rintro ⟨⟩ got sent (_ | ⟨byte, input⟩) take operation k written ⟨rfl, rfl⟩ - - h <;> cases h
    exact ⟨rfl, rfl, rfl, rfl, rfl⟩

/-- Three streams in two pieces, under a limit of two streams. -/
theorem decompression_independent_single :
    ∃ fuel chunks, drive single_codec .buffer fuel [⟨[[1], [2]], by simp⟩, ⟨[[3]], by simp⟩] false
        (.new (fun _ => 1) 2 ⟨none, some ⟨2, by decide⟩⟩ ()) = some (.err .limit_exceeded, chunks) ∧
      chunks.flatten <+: [1, 2] := by
  obtain ⟨fuel, outcome, chunks, hdrive, houtcome, -, hfront, -⟩ := decompression_independent single_ideal .buffer
    ⟨none, some ⟨2, by decide⟩⟩ ⟨rfl, rfl, rfl⟩ [⟨[[1], [2]], by simp⟩, ⟨[[3]], by simp⟩] (fun _ => 1) (fun _ => Nat.one_pos)
    2 Nat.two_pos () ⟨rfl, rfl⟩
  have hdecoding : single.decoding .next_stream (stream_bound single_codec.limits ⟨none, some ⟨2, by decide⟩⟩ .buffer)
      (List.map bytes [⟨[[1], [2]], by simp⟩, ⟨[[3]], by simp⟩]).flatten = (.err .limit_exceeded, [1, 2]) := rfl
  subst houtcome
  exact ⟨fuel, chunks, hdrive, hfront⟩

end Compressors
