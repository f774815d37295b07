import Oxidizer.Compressors.Pump
/-!
# Limits against any codec

The codec of this module is arbitrary: a step may answer anything, consume and
write whatever it likes and end streams at will. The pump checks its counters
after every step, so that whatever it hands out is within the bounds, and a
failed pump is never driven again. `Post` says what every part of a turn of the
loop leaves behind; the loop and the calls follow from it.
-/

namespace Compressors

open List Pump Option Subtype DecompressorLimits BufferedFallbacks

/-! ## The bounds in force -/

/-- The bound in force for a caller's override, a format's default and the default for buffered output: an override of
`u64::MAX` removes it, and without an override a buffered destination is held to the smaller of the two defaults. -/
def in_force (caller : Option NonZeroU64) (format : Option U64) (shared : ℕ) (into : Destination) : Option ℕ :=
  match caller with
  | some n => if n.val = U64_MAX then none else some n.val
  | none =>
    match into, format with
    | .stream, format => format.map Subtype.val
    | .buffer, some n => some (min n.val shared)
    | .buffer, none => some shared

/-- The output limit in force; a counter that saturates cannot exceed `u64::MAX`, which is no limit. -/
def output_limit (limits : DecompressorLimits) (format : FormatLimits) (into : Destination) : Option ℕ :=
  (in_force limits.output_len format.output_len DEFAULT_MAX_OUTPUT_LEN into).filter (· < U64_MAX)

def stream_limit (limits : DecompressorLimits) (format : FormatLimits) (into : Destination) : Option ℕ :=
  in_force limits.streams format.streams DEFAULT_MAX_STREAMS into

def ratio_limit (limits : DecompressorLimits) (format : FormatLimits) : Option ℕ :=
  match limits.ratio with
  | some ratio => if ratio.val = U32_MAX then none else some ratio.val
  | none => format.ratio

/-- What the pump narrows the engine's bounds by. -/
def BufferedFallbacks.into (b : BufferedFallbacks) : Destination → BufferedFallbacks
  | .buffer => b
  | .stream => {}

def output_bound (l : FormatLimits) (b : BufferedFallbacks) (into : Destination) : Option ℕ :=
  tighter (l.output_len.map Subtype.val) ((b.into into).output_len.map Subtype.val)

def stream_bound (l : FormatLimits) (b : BufferedFallbacks) (into : Destination) : Option ℕ :=
  tighter l.max_streams ((b.into into).streams.map Subtype.val)

variable (limits : DecompressorLimits)

theorem output_bound_eq (format : FormatLimits) (into : Destination) :
    output_bound (limits.resolve format) limits.buffered_fallbacks into =
      in_force limits.output_len format.output_len DEFAULT_MAX_OUTPUT_LEN into := by
  rcases hc : limits.output_len with - | n <;> rcases hf : format.output_len with - | m <;> cases into <;>
    simp only [output_bound, in_force, resolve, buffered_fallbacks, into, hc, hf] <;> first | rfl | (split <;> rfl)

theorem stream_bound_eq (format : FormatLimits) (into : Destination) :
    stream_bound (limits.resolve format) limits.buffered_fallbacks into = stream_limit limits format into := by
  rcases hc : limits.streams with - | n <;> rcases hf : format.streams with - | m <;> cases into <;>
    simp only [stream_bound, stream_limit, in_force, resolve, buffered_fallbacks,
      into, FormatLimits.max_streams, hc, hf] <;> first | rfl | (split <;> rfl)

theorem ratio_limit_eq (format : FormatLimits) :
    (limits.resolve format).ratio = ratio_limit limits format := by
  rcases hc : limits.ratio with - | n <;> simp only [ratio_limit, resolve, hc]

variable {a b : Option ℕ}

theorem tighter_of_left {n : ℕ} (h : a = some n) : ∃ m, tighter a b = some m ∧ m ≤ n := by
  subst h
  cases b
  · exact ⟨n, rfl, le_rfl⟩
  · exact ⟨_, rfl, Nat.min_le_left _ _⟩

theorem tighter_of_right {n : ℕ} (h : b = some n) : ∃ m, tighter a b = some m ∧ m ≤ n := by
  subst h
  cases a
  · exact ⟨n, rfl, le_rfl⟩
  · exact ⟨_, rfl, Nat.min_le_right _ _⟩

theorem tighter_cases {m : ℕ} (h : tighter a b = some m) : a = some m ∨ b = some m := by
  cases a <;> cases b <;> cases h <;> simp
  omega

/-! ## What a check says -/

namespace FormatLimits

structure Within (l : FormatLimits) (input_len output_len streams : ℕ) : Prop where
  output : ∀ max, l.output_len = some max → output_len ≤ max.val
  ratio : ∀ ratio, l.ratio = some ratio → output_len ≤ RATIO_FLOOR_BYTES ∨ output_len ≤ saturating_mul input_len ratio
  streams : ∀ max, l.streams = some max → streams ≤ max.val

theorem check_ok {l : FormatLimits} {input_len output_len streams : ℕ} (h : l.check input_len output_len streams = .ok ()) :
    l.Within input_len output_len streams := by
  rcases ho : l.check_output output_len with _ | _
  · simp [check, ho, bind, Except.bind] at h
  rcases hr : l.check_ratio input_len output_len with _ | _
  · simp [check, ho, hr, bind, Except.bind] at h
  have hs : l.check_streams streams = .ok () := by simpa [check, ho, hr, bind, Except.bind] using h
  refine ⟨fun max hmax => ?_, fun ratio hratio => ?_, fun max hmax => ?_⟩
  · simp only [check_output, hmax] at ho
    split at ho
    · cases ho
    · omega
  · simp only [check_ratio, hratio] at hr
    split at hr
    · cases hr
    · omega
  · simp only [check_streams, hmax] at hs
    split at hs
    · cases hs
    · omega

theorem check_error {l : FormatLimits} {input_len output_len streams : ℕ} {e : Error}
    (h : l.check input_len output_len streams = .error e) :
    (∃ max, l.output_len = some max ∧ max.val < output_len) ∨
    (∃ ratio, l.ratio = some ratio ∧ RATIO_FLOOR_BYTES < output_len ∧ saturating_mul input_len ratio < output_len) ∨
    (∃ max, l.streams = some max ∧ max.val < streams) := by
  rcases ho : l.check_output output_len with _ | _
  · left
    unfold check_output at ho
    split at ho
    · next max hmax =>
      split at ho
      · exact ⟨max, hmax, ‹_›⟩
      · cases ho
    · cases ho
  rcases hr : l.check_ratio input_len output_len with _ | _
  · right; left
    unfold check_ratio at hr
    split at hr
    · next ratio hratio =>
      split at hr
      · next hlt => exact ⟨ratio, hratio, hlt⟩
      · cases hr
    · cases hr
  right; right
  have hs : l.check_streams streams = .error e := by simpa [check, ho, hr, bind, Except.bind] using h
  unfold check_streams at hs
  split at hs
  · next max hmax =>
    split at hs
    · exact ⟨max, hmax, ‹_›⟩
    · cases hs
  · cases hs

end FormatLimits

namespace Pump
variable {σ : Type} {codec : Codec σ} {into : Destination} {b : BufferedFallbacks} {p : Pump σ}

theorem fallbacks_eq (h : p.buffered = b) : p.fallbacks into = b.into into := by
  cases into <;> simp [fallbacks, into, h]

theorem max_streams_eq (h : p.buffered = b) : p.max_streams codec into = stream_bound codec.limits b into := by
  rw [max_streams, stream_bound, fallbacks_eq h]

structure Within (codec : Codec σ) (into : Destination) (b : BufferedFallbacks) (p : Pump σ) : Prop where
  output : ∀ max, output_bound codec.limits b into = some max → p.total_out ≤ max
  ratio : ∀ ratio, codec.limits.ratio = some ratio →
    p.total_out ≤ RATIO_FLOOR_BYTES ∨ p.total_out ≤ saturating_mul p.total_in ratio

/-- A bound that the totals of a pump are over; of streams, one that the pending input would be over. -/
structure Over (codec : Codec σ) (into : Destination) (b : BufferedFallbacks) (p : Pump σ) : Prop where
  reason :
    (∃ max, output_bound codec.limits b into = some max ∧ max < p.total_out) ∨
    (∃ ratio, codec.limits.ratio = some ratio ∧ RATIO_FLOOR_BYTES < p.total_out ∧
      saturating_mul p.total_in ratio < p.total_out) ∨
    (∃ max, stream_bound codec.limits b into = some max ∧ (max < p.streams ∨ max ≤ p.streams ∧ p.input.is_empty = false))

theorem check_limits_ok (hb : p.buffered = b) (h : p.check_limits codec into = .ok ()) : p.Within codec into b := by
  rcases hl : codec.limits.check p.total_in p.total_out p.streams with _ | _
  · simp [check_limits, hl, bind, Except.bind] at h
  have hc : p.check_ceiling into = .ok () := by simpa [check_limits, hl, bind, Except.bind] using h
  have hw := FormatLimits.check_ok hl
  refine ⟨fun max hmax => ?_, hw.ratio⟩
  rcases tighter_cases hmax with h1 | h1
  · obtain ⟨n, hn, rfl⟩ := map_eq_some_iff.mp h1
    exact hw.output n hn
  · obtain ⟨n, hn, rfl⟩ := map_eq_some_iff.mp h1
    simp only [check_ceiling, fallbacks_eq hb, hn] at hc
    split at hc
    · cases hc
    · omega

variable {e : Error}

theorem check_limits_error (hb : p.buffered = b) (h : p.check_limits codec into = .error e) :
    p.Over codec into b := by
  rcases hl : codec.limits.check p.total_in p.total_out p.streams with _ | _
  · rcases FormatLimits.check_error hl with ⟨max, hmax, hlt⟩ | hratio | ⟨max, hmax, hlt⟩
    · obtain ⟨m, hm, hle⟩ := tighter_of_left (b := ((b.into into).output_len.map val)) (congrArg (Option.map val) hmax)
      exact ⟨.inl ⟨m, hm, hle.trans_lt hlt⟩⟩
    · exact ⟨.inr (.inl hratio)⟩
    · obtain ⟨m, hm, hle⟩ := tighter_of_left (b := ((b.into into).streams.map val)) (congrArg (Option.map val) hmax)
      exact ⟨.inr (.inr ⟨m, hm, .inl (hle.trans_lt hlt)⟩)⟩
  · have hc : p.check_ceiling into = .error e := by simpa [check_limits, hl, bind, Except.bind] using h
    unfold check_ceiling at hc
    rw [fallbacks_eq hb] at hc
    split at hc
    · next ceiling hceiling =>
      split at hc
      · next hlt =>
        obtain ⟨m, hm, hle⟩ := tighter_of_right (a := codec.limits.output_len.map val) (congrArg (Option.map val) hceiling)
        exact ⟨.inl ⟨m, hm, hle.trans_lt hlt⟩⟩
      · cases hc
    · cases hc

/-! ## What a turn leaves behind -/

/-- States in which `pull` drives the engine. -/
def drives : State → Bool
  | .opened | .flushing _ | .finishing => true
  | _ => false

/-- States from which the engine may yet be driven. -/
def continues : State → Bool
  | .between_streams => true
  | state => drives state

/-- States that wait for the caller, with no input pending. -/
def waits : State → Bool
  | .between_streams | .awaiting_eof | .at_stream_limit _ => true
  | _ => false

/-- The counters of a pump, in the middle of a turn too: what it was given is handed out or in the output buffer, what
it handed out is within the output bound, and a stream begun is one that ended or the one the engine is inside. -/
structure Core (codec : Codec σ) (into : Destination) (b : BufferedFallbacks) (p : Pump σ) : Prop where
  buffered : p.buffered = b
  counted : p.total_out = min (p.returned + p.output.length) U64_MAX
  bounded : ∀ max, output_bound codec.limits b into = some max → max < U64_MAX → p.returned ≤ max
  begun : ∀ max, stream_bound codec.limits b into = some max →
    p.begun = p.streams + (if p.inside then 1 else 0) ∧ p.begun ≤ Nat.max 1 max

/-- What holds between calls. -/
structure Inv (codec : Codec σ) (into : Destination) (b : BufferedFallbacks) (p : Pump σ) : Prop extends
    Core codec into b p where
  within : p.state ≠ .failed → p.Within codec into b
  next : ∀ max, stream_bound codec.limits b into = some max → continues p.state = true → p.inside = false →
    p.streams < max ∨ p.streams = 0
  at_limit : ∀ m, p.state = .at_stream_limit m → stream_bound codec.limits b into = some m ∧ m ≤ p.streams
  idle : waits p.state = true → p.input.is_empty = true

/-- The engine step of a turn of the loop. -/
def engine_step (codec : Codec σ) (into : Destination) (p : Pump σ) (work : ℕ) :
    Option (σ × Except Error (Step × ℕ × List UInt8)) :=
  (p.operation ((p.supply work).length = p.input.len)).map fun operation =>
    codec.step p.engine (p.supply work) (p.room codec into operation) operation

/-- The codec itself raised the error in the loop of a call, from a turn on: in the engine step of the turn, when it was
asked what comes after the stream that the step ended, or in a later turn of the call. -/
inductive Raised (codec : Codec σ) (into : Destination) : Pump σ → ℕ → Error → Prop
  | step {p : Pump σ} {work : ℕ} {engine : σ} {e : Error} (h : p.engine_step codec into work = some (engine, .error e)) :
      Raised codec into p work e
  | stream_end {p : Pump σ} {work consumed : ℕ} {engine : σ} {written : List UInt8} {e : Error}
      (h : p.engine_step codec into work = some (engine, .ok (.stream_end, consumed, written)))
      (hended : (codec.stream_ended engine).2 = .error e) : Raised codec into p work e
  | again {p p' : Pump σ} {work consumed : ℕ} {e : Error} (h : p.turn codec into work = ((p', .again), consumed))
      (hr : Raised codec into p' (work + consumed) e) : Raised codec into p work e

/-- What a part of a turn leaves behind of `p`, with the answer that it gives, when the codec raised the errors `raised`. -/
structure Post (codec : Codec σ) (into : Destination) (b : BufferedFallbacks) (raised : Error → Prop) (p : Pump σ)
    (r : Pump σ × Turn) : Prop where
  inv : r.1.Inv codec into b
  calls : r.1.calls = p.calls
  input : r.1.input = p.input
  err : ∀ e, r.2 = .ret (.err e) → r.1.state = .failed ∧ (e.kind = .limit_exceeded → raised e ∨ r.1.Over codec into b)
  ok : ∀ output, r.2 = .ret (.ok output) → r.1.state ≠ .failed
  again : r.2 = .again → drives r.1.state = true
  reached : r.2 ≠ .ret .unreachable

theorem stream_bound_le {l : FormatLimits} {max : ℕ} (h : stream_bound l b into = some max) : max ≤ U64_MAX := by
  rcases tighter_cases h with h | h
  · obtain ⟨n, -, rfl⟩ := map_eq_some_iff.mp h
    exact n.property
  · obtain ⟨n, -, rfl⟩ := map_eq_some_iff.mp h
    exact n.property.2

variable {raised : Error → Prop} (h : p.Core codec into b)
include h

theorem fail_post
    (hreason : e.kind = .limit_exceeded → raised e ∨ p.Over codec into b) : Post codec into b raised p (p.fail e) where
  inv := ⟨{ h with }, fun hs => absurd rfl hs, nofun, nofun, nofun⟩
  calls := rfl
  input := rfl
  err := by
    rintro e' ⟨⟩
    exact ⟨rfl, fun hkind => (hreason hkind).imp id fun hover => ⟨hover.reason⟩⟩
  ok := nofun
  again := nofun
  reached := nofun

variable {p' : Pump σ}

omit h in
theorem Inv.take (h : p.Inv codec into b) (hs : p.state ≠ .failed) {data : List UInt8}
    (ht : p.take_output = some (data, p')) :
    p'.Inv codec into b ∧ p'.state = p.state ∧ p'.calls = p.calls ∧ p'.input = p.input := by
  unfold take_output at ht
  split at ht
  · cases ht
  cases ht
  refine ⟨⟨⟨h.buffered, ?_, ?_, h.begun⟩, fun _ => ⟨(h.within hs).output, (h.within hs).ratio⟩, h.next, h.at_limit,
    h.idle⟩, rfl, rfl, rfl⟩
  · simp only [length_drop, h.counted]
    omega
  · intro max hmax hlt
    -- the total did not saturate, since it is within a bound below `u64::MAX`
    have htotal := (h.within hs).output max hmax
    have hcounted := h.counted
    dsimp only
    omega

omit h in
theorem data_or_post (h : p.Inv codec into b) (hs : p.state ≠ .failed) (turn : Turn)
    (herr : ∀ e, turn ≠ .ret (.err e)) (hagain : turn = .again → drives p.state = true)
    (hreached : turn ≠ .ret .unreachable) : Post codec into b raised p (data_or .ret p turn) := by
  unfold data_or
  split
  · next data p' ht =>
    obtain ⟨hinv, hstate, hcalls, hinput⟩ := h.take hs ht
    exact ⟨hinv, hcalls, hinput, nofun, fun _ _ => hstate.symm ▸ hs, nofun, nofun⟩
  · exact ⟨h, rfl, rfl, fun e he => absurd he (herr e), fun _ _ => hs, hagain, hreached⟩

theorem Core.stepped (engine : σ)
    (hnext : ∀ max, stream_bound codec.limits b into = some max → p.inside = false → p.streams < max ∨ p.streams = 0) :
    (p.stepped engine).Core codec into b where
  buffered := h.buffered
  counted := h.counted
  bounded := h.bounded
  begun := by
    intro max hmax
    obtain ⟨hbegun, hle⟩ := h.begun max hmax
    rcases hin : p.inside with _ | _
    · simp only [Pump.stepped, hin] at *
      grind
    · simp only [Pump.stepped, hin] at *
      grind

theorem Core.absorb (consumed : ℕ) (written : List UInt8) :
    (p.absorb consumed written).Core codec into b where
  buffered := h.buffered
  counted := by
    have hcounted := h.counted
    simp only [Pump.absorb, saturating_add, length_append]
    omega
  bounded := h.bounded
  begun := h.begun

theorem Core.inv (hin : p.inside = true) (hd : drives p.state = true)
    (hw : p.Within codec into b) : p.Inv codec into b :=
  ⟨h, fun _ => hw, fun _ _ _ hout => absurd (hin.symm.trans hout) nofun, fun m hm => by simp [hm, drives] at hd,
    fun hwaits => by cases hs : p.state <;> simp_all [drives, waits]⟩

omit h in
theorem drives_ne_failed {state : State} (h : drives state = true) : state ≠ .failed := by
  rintro rfl
  cases h

theorem Core.with_state (state : State) : Core codec into b { p with state := state } :=
  { h with }

theorem flush_complete_post (hin : p.inside = true) (hw : p.Within codec into b) :
    Post codec into b raised p p.flush_complete := by
  unfold flush_complete
  split
  · have hpost : Post codec into b raised _ _ := data_or_post ((h.with_state .finishing).inv hin rfl ⟨hw.output, hw.ratio⟩)
      nofun .again nofun (fun _ => rfl) nofun
    exact { hpost with }
  · have hpost : Post codec into b raised _ _ := data_or_post ((h.with_state .opened).inv hin rfl ⟨hw.output, hw.ratio⟩)
      nofun (.ret (.ok .need_input)) nofun nofun nofun
    exact { hpost with }
  · exact fail_post h nofun

theorem stalled_post (hin : p.inside = true) (hd : drives p.state = true)
    (hw : p.Within codec into b) : Post codec into b raised p p.stalled := by
  unfold stalled
  split
  · exact fail_post h nofun
  · split
    · exact data_or_post (h.inv hin hd hw) (drives_ne_failed hd) _ nofun nofun nofun
    · exact fail_post h nofun

omit h in
theorem after_stream_ok {limit : Option ℕ} {ended : StreamEnd} {state : State} {turn : Turn}
    (h : p.after_stream limit ended = .ok (state, turn)) :
    state ≠ .failed ∧ (∀ e, turn ≠ .ret (.err e)) ∧ (turn = .again → drives state = true) ∧
      (∀ max, limit = some max → continues state = true → p.streams < max) ∧
      (∀ m, state = .at_stream_limit m → limit = some m ∧ m ≤ p.streams) ∧
      (waits state = true → p.input.is_empty = true) ∧ turn ≠ .ret .unreachable := by
  cases ended with
  | complete => cases h; simp [continues, drives, waits]
  | await_eof =>
    simp only [after_stream] at h
    split at h
    · cases h
    · next hinput => split at h <;> cases h <;> simp_all [continues, drives, waits]
  | next_stream =>
    simp only [after_stream] at h
    split at h
    · next maximum hmax =>
      -- the bound is reached: none of the states left drives the engine again
      obtain ⟨hlimit, hle⟩ := filter_eq_some_iff.mp hmax
      split at h
      · cases h
      next hinput =>
      split at h <;> cases h
      · simp [continues, drives, waits]
      · refine ⟨nofun, nofun, nofun, nofun, ?_, fun _ => by simpa using hinput, nofun⟩
        rintro m ⟨⟩
        exact ⟨hlimit, of_decide_eq_true hle⟩
    · next hnone =>
      have hlt : ∀ max, limit = some max → p.streams < max := by
        rintro max rfl
        simpa using hnone
      split at h
      · cases h
        refine ⟨?_, nofun, fun _ => ?_, fun max hmax _ => hlt max hmax, ?_, ?_, nofun⟩ <;> split <;> simp [drives, waits]
      · next hinput =>
        split at h <;> cases h
        · simp [continues, drives, waits]
        · exact ⟨nofun, nofun, nofun, fun max hmax _ => hlt max hmax, nofun, fun _ => by simpa using hinput, nofun⟩

omit h in
theorem after_stream_error {limit : Option ℕ} {ended : StreamEnd} {e : Error} (h : p.after_stream limit ended = .error e)
    (hkind : e.kind = .limit_exceeded) : ∃ max, limit = some max ∧ max ≤ p.streams ∧ p.input.is_empty = false := by
  cases ended with
  | complete => cases h
  | await_eof =>
    simp only [after_stream] at h
    split at h
    · cases h; cases hkind
    · split at h <;> cases h
  | next_stream =>
    simp only [after_stream] at h
    split at h
    · next maximum hmax =>
      obtain ⟨hlimit, hle⟩ := filter_eq_some_iff.mp hmax
      split at h
      · next hinput => exact ⟨maximum, hlimit, of_decide_eq_true hle, hinput⟩
      · split at h <;> cases h
    · split at h
      · cases h
      · split at h <;> cases h

theorem Core.ended (hin : p.inside = true) (engine : σ) :
    Core codec into b { p with streams := saturating_add p.streams 1, inside := false, engine := engine } where
  buffered := h.buffered
  counted := h.counted
  bounded := h.bounded
  begun := by
    intro max hmax
    obtain ⟨hbegun, hle⟩ := h.begun max hmax
    have hmax_le := stream_bound_le hmax
    rw [hin, if_pos rfl] at hbegun
    -- the count of streams is within the bound, so it does not saturate
    have hsmall : p.streams + 1 ≤ U64_MAX := by
      rw [← hbegun]
      exact hle.trans (Nat.max_le.mpr ⟨by decide, hmax_le⟩)
    refine ⟨?_, hle⟩
    simp only [saturating_add, Nat.min_eq_left hsmall, hbegun]
    rfl

theorem stream_end_post (hin : p.inside = true) (hraised : ∀ e, (codec.stream_ended p.engine).2 = .error e → raised e) :
    Post codec into b raised p (p.stream_end codec into) := by
  have hended := h.ended hin
  simp only [stream_end]
  split
  · next e hcheck =>
    have hover := check_limits_error (hended p.engine).buffered hcheck
    have hpost : Post codec into b raised _ _ := fail_post (hended p.engine) (e := e) fun _ => .inr hover
    exact { hpost with }
  next hcheck =>
  have hwithin := check_limits_ok (hended p.engine).buffered hcheck
  have hcore := hended (codec.stream_ended p.engine).1
  split
  · next e hanswer =>
    have hpost : Post codec into b raised _ _ := fail_post hcore (e := e) fun _ => .inl (hraised e hanswer)
    exact { hpost with }
  split
  · next e hafter =>
    have hover := after_stream_error hafter
    have hpost : Post codec into b raised _ _ := fail_post hcore (e := e) fun hkind => by
      obtain ⟨max, hmax, hle, hinput⟩ := hover hkind
      exact .inr ⟨.inr (.inr ⟨max, (max_streams_eq h.buffered).symm.trans hmax, .inr ⟨hle, hinput⟩⟩)⟩
    exact { hpost with }
  · next state turn hafter =>
    obtain ⟨hfailed, herr, hagain, hnext, hlimit, hidle, hreached⟩ := after_stream_ok hafter
    have heq : max_streams codec into _ = _ := max_streams_eq hcore.buffered
    have hpost : Post codec into b raised _ _ := data_or_post (⟨hcore.with_state state,
        fun _ => ⟨hwithin.output, hwithin.ratio⟩, fun max hmax hcontinues _ => .inl (hnext max (heq.trans hmax) hcontinues),
        fun m hm => (hlimit m hm).imp heq.symm.trans id, hidle⟩) hfailed turn herr hagain hreached
    exact { hpost with }

theorem outcome_post (hin : p.inside = true) (hd : drives p.state = true) (step : Step) (idle : Bool)
    (hraised : step = .stream_end → ∀ e, (codec.stream_ended p.engine).2 = .error e → raised e) :
    Post codec into b raised p (p.outcome codec into step idle) := by
  unfold outcome
  split
  · next e hcheck => exact fail_post h fun _ => .inr (check_limits_error h.buffered hcheck)
  next hcheck =>
  have hw := check_limits_ok h.buffered hcheck
  cases step with
  | flush_complete => exact flush_complete_post h hin hw
  | stream_end => exact stream_end_post h hin (hraised rfl)
  | «continue» =>
    dsimp only
    split
    · exact stalled_post h hin hd hw
    · exact ⟨h.inv hin hd hw, rfl, rfl, nofun, nofun, fun _ => hd, nofun⟩

/-! ## The loop -/

omit h

theorem operation_of_drives (hd : drives p.state = true) (last_slice : Bool) : ∃ operation, p.operation last_slice = some operation := by
  unfold operation
  split
  · exact ⟨_, rfl⟩
  · exact ⟨_, rfl⟩
  · exact ⟨_, rfl⟩
  all_goals simp_all [drives]

theorem supply_length_le (work : ℕ) : (p.supply work).length ≤ MAX_INPUT_PER_PULL - work := by
  rw [supply, length_take]
  exact Nat.min_le_left _ _

/-- One turn makes one engine step and consumes no more than it was given. -/
theorem turn_post (h : p.Inv codec into b) (hd : drives p.state = true) (work : ℕ) :
    ∃ q, Post codec into b (Raised codec into p work) q (p.turn codec into work).1 ∧ q.calls = p.calls + 1 ∧
      p.input.len ≤ q.input.len + (p.turn codec into work).2 ∧
      (p.turn codec into work).2 ≤ MAX_INPUT_PER_PULL - work := by
  obtain ⟨operation, hop⟩ := operation_of_drives hd (decide ((p.supply work).length = p.input.len))
  have hcore : ∀ engine, (p.stepped engine).Core codec into b := fun engine =>
    h.toCore.stepped engine fun max hmax hin => h.next max hmax (by cases hs : p.state <;> simp_all [drives, continues]) hin
  rcases hstep : codec.step p.engine (p.supply work) (p.room codec into operation) operation with ⟨engine, result⟩
  have hengine : p.engine_step codec into work = some (engine, result) := by rw [engine_step, hop, Option.map_some, hstep]
  simp only [turn, hop, hstep]
  cases result with
  | error e =>
    exact ⟨p.stepped engine, fail_post (hcore engine) fun _ => .inl (.step hengine), rfl, Nat.le_add_right _ _,
      Nat.zero_le _⟩
  | ok answer =>
    obtain ⟨step, consumed, written⟩ := answer
    dsimp only
    split
    · exact ⟨p.stepped engine, fail_post (hcore engine) nofun, rfl, Nat.le_add_right _ _, Nat.zero_le _⟩
    · next hcounts =>
      refine ⟨(p.stepped engine).absorb consumed written, outcome_post ((hcore engine).absorb _ _) rfl hd _ _ ?_, rfl, ?_, ?_⟩
      · rintro rfl e hended
        exact .stream_end hengine hended
      · have hlen := BytesView.len_advance p.input consumed
        simp only [absorb, stepped]
        omega
      · have hle := p.supply_length_le work
        omega

/-- What a call of `pull` leaves behind: at most `steps` engine steps made and `bytes` input bytes consumed. -/
structure Answer (codec : Codec σ) (into : Destination) (b : BufferedFallbacks) (raised : Error → Prop) (steps bytes : ℕ)
    (p : Pump σ) (r : Pump σ × Reply) : Prop where
  inv : r.1.Inv codec into b
  steps : r.1.calls ≤ p.calls + steps
  bytes : p.input.len ≤ r.1.input.len + bytes
  err : ∀ e, r.2 = .err e → r.1.state = .failed ∧ (e.kind = .limit_exceeded → raised e ∨ r.1.Over codec into b)
  ok : ∀ output, r.2 = .ok output → r.1.state ≠ .failed
  reached : r.2 ≠ .unreachable

theorem data_or_answer (h : p.Inv codec into b) (hs : p.state ≠ .failed) (output : Output) (steps bytes : ℕ) :
    Answer codec into b raised steps bytes p (data_or id p (.ok output)) := by
  unfold data_or
  split
  · next data p' ht =>
    obtain ⟨hinv, hstate, hcalls, hinput⟩ := h.take hs ht
    exact ⟨hinv, hcalls ▸ Nat.le_add_right _ _, hinput ▸ Nat.le_add_right _ _, nofun, fun _ _ => hstate.symm ▸ hs, nofun⟩
  · exact ⟨h, Nat.le_add_right _ _, Nat.le_add_right _ _, nofun, fun _ _ => hs, nofun⟩

/-- The loop, by induction on the engine steps that are left of its budget. -/
theorem pull_loop_answer (left work : ℕ) (h : p.Inv codec into b) (hd : drives p.state = true) :
    Answer codec into b (Raised codec into p work) left (MAX_INPUT_PER_PULL - work) p (p.pull_loop codec into left work) := by
  induction left generalizing work p with
  | zero =>
    unfold pull_loop
    split <;> exact data_or_answer h (drives_ne_failed hd) _ _ _
  | succ left ih =>
    unfold pull_loop
    split
    · exact data_or_answer h (drives_ne_failed hd) _ _ _
    dsimp only
    split
    · exact data_or_answer h (drives_ne_failed hd) _ _ _
    obtain ⟨q, hpost, hcalls, hinput, hconsumed⟩ := turn_post h hd work
    rcases hturn : p.turn codec into work with ⟨⟨p', turn⟩, consumed⟩
    rw [hturn] at hpost hinput hconsumed
    have hcalls' : p'.calls = q.calls := hpost.calls
    have hinput' : p'.input = q.input := hpost.input
    have hinv' : p'.Inv codec into b := hpost.inv
    rw [← hcalls'] at hcalls
    rw [← hinput'] at hinput
    cases turn with
    | again =>
      obtain ⟨hinv, hsteps, hbytes, herr, hok, hreached⟩ := ih (work + consumed) hinv' (hpost.again rfl)
      refine ⟨hinv, ?_, ?_, fun e he => (herr e he).imp id fun hreason hkind => (hreason hkind).imp (.again hturn) id, hok,
        hreached⟩ <;> dsimp only at hinput hconsumed ⊢ <;> omega
    | ret reply =>
      refine ⟨hinv', ?_, ?_, fun e he => hpost.err e (congrArg _ he), fun o ho => hpost.ok o (congrArg _ ho),
        fun hr => hpost.reached (congrArg _ hr)⟩ <;> dsimp only at hinput hconsumed ⊢ <;> omega

theorem pull_answer (h : p.Inv codec into b) (hs : p.state ≠ .failed) :
    Answer codec into b (Raised codec into p 0) MAX_STEPS_PER_PULL MAX_INPUT_PER_PULL p (p.pull codec into) := by
  have hloop := pull_loop_answer MAX_STEPS_PER_PULL 0 h
  unfold pull
  split
  · exact data_or_answer h hs _ _ _
  · contradiction
  · next hstate => rw [if_pos (h.idle (by rw [hstate]; rfl))]; exact data_or_answer h hs _ _ _
  · next hstate => rw [if_pos (h.idle (by rw [hstate]; rfl))]; exact data_or_answer h hs _ _ _
  · next hstate => rw [if_pos (h.idle (by rw [hstate]; rfl))]; exact data_or_answer h hs _ _ _
  all_goals next hstate => exact hloop (by rw [hstate]; rfl)

/-! ## Calls -/

theorem pull_failed (hs : p.state = .failed) :
    p.pull codec into = (p, .err (.invalid_state "cannot continue after a previous codec failure")) := by
  simp [pull, hs]

theorem Inv.pull (h : p.Inv codec into b) : (p.pull codec into).1.Inv codec into b := by
  by_cases hs : p.state = .failed
  · rw [pull_failed hs]
    exact h
  · exact (pull_answer h hs).inv

theorem Inv.push (h : p.Inv codec into b) (v : BytesView) : (p.push v).1.Inv codec into b := by
  have hfailed : ∀ state, state = State.failed → Inv codec into b { p with state := state } := by
    rintro state rfl
    exact ⟨h.toCore.with_state _, fun hs => absurd rfl hs, nofun, nofun, nofun⟩
  unfold Pump.push
  split
  · exact h
  split
  case h_1 hstate =>
    exact ⟨{ h with }, fun hs => ⟨(h.within hs).output, (h.within hs).ratio⟩, h.next,
      h.at_limit, fun hw => by simp [hstate, waits] at hw⟩
  case h_2 hstate =>
    split
    · exact h
    · have hw := h.within (by rw [hstate]; nofun)
      exact ⟨{ h with }, fun _ => ⟨hw.output, hw.ratio⟩,
        fun max hmax _ hin => h.next max hmax (by rw [hstate]; rfl) hin, nofun, nofun⟩
  case h_3 =>
    split
    · exact h
    · exact hfailed _ rfl
  case h_4 =>
    split
    · exact h
    · exact hfailed _ rfl
  all_goals exact h

theorem Inv.flush (h : p.Inv codec into b) : p.flush.1.Inv codec into b := by
  unfold Pump.flush
  split
  case h_1 hstate =>
    have hw := h.within (by rw [hstate]; nofun)
    exact ⟨h.toCore.with_state _, fun _ => ⟨hw.output, hw.ratio⟩,
      fun max hmax _ hin => h.next max hmax (by rw [hstate]; rfl) hin, nofun, nofun⟩
  all_goals exact h

theorem Inv.end_input (h : p.Inv codec into b) : p.end_input.Inv codec into b := by
  have hw : p.state ≠ .failed → ∀ state, Within codec into b { p with state := state } :=
    fun hs _ => ⟨(h.within hs).output, (h.within hs).ratio⟩
  unfold Pump.end_input
  cases hstate : p.state
  case opened | flushing | finishing =>
    exact ⟨h.toCore.with_state _, fun _ => hw (by rw [hstate]; nofun) _,
      fun max hmax _ hin => h.next max hmax (by rw [hstate]; rfl) hin, nofun, nofun⟩
  case between_streams | awaiting_eof | at_stream_limit | done =>
    exact ⟨h.toCore.with_state _, fun _ => hw (by rw [hstate]; nofun) _, nofun, nofun, nofun⟩
  case failed => exact ⟨h.toCore.with_state _, fun hs => absurd rfl hs, nofun, nofun, nofun⟩

theorem Inv.apply (h : p.Inv codec into b) (call : Call) : (call.apply codec into p).Inv codec into b := by
  cases call with
  | push v => exact h.push v
  | flush => exact h.flush
  | end_input => exact h.end_input
  | pull => exact h.pull

theorem Inv.new (memory : ℕ → ℕ) (chunk_size : ℕ) (engine : σ) :
    (Pump.new memory chunk_size b engine).Inv codec into b where
  buffered := rfl
  counted := rfl
  bounded _ _ _ := Nat.zero_le _
  begun _ _ := ⟨rfl, Nat.zero_le _⟩
  within _ := ⟨fun _ _ => Nat.zero_le _, fun _ _ => .inl (Nat.zero_le _)⟩
  next _ _ _ _ := .inr rfl
  at_limit := nofun
  idle := nofun

theorem push_limit {v : BytesView} (h : p.push v = (p', some e))
    (hkind : e.kind = .limit_exceeded) : ∃ m, p.state = .at_stream_limit m ∧ v.is_empty = false := by
  unfold push at h
  split at h
  · cases h; cases hkind
  split at h
  case h_4 m hstate =>
    split at h
    · cases h
    · next hv => exact ⟨m, hstate, by simpa using hv⟩
  all_goals first | (split at h <;> cases h <;> cases hkind) | (cases h; cases hkind) | cases h

theorem push_failed {v : BytesView} (h : p.push v = (p', some e))
    (hkind : e.kind = .corrupt_data ∨ e.kind = .limit_exceeded) : p'.state = .failed := by
  unfold push at h
  split at h
  · cases h; simp [Error.invalid_state] at hkind
  split at h
  all_goals
    first
    | (split at h <;> cases h <;> rfl)
    | (cases h; simp [Error.invalid_state] at hkind)
    | cases h

theorem apply_failed (codec : Codec σ) (into : Destination) (hs : p.state = .failed) (call : Call) :
    (call.apply codec into p).state = .failed ∧ (call.apply codec into p).calls = p.calls := by
  cases call with
  | push v => simp only [Call.apply, push, hs]; split <;> exact ⟨hs, rfl⟩
  | flush => simp [Call.apply, flush, hs]
  | end_input => simp [Call.apply, end_input, hs]
  | pull => simp [Call.apply, pull, hs]

theorem calls_failed (codec : Codec σ) (into : Destination) (hs : p.state = .failed) (later : List Call) :
    (later.foldl (Call.apply codec into) p).state = .failed ∧ (later.foldl (Call.apply codec into) p).calls = p.calls := by
  induction later generalizing p with
  | nil => exact ⟨hs, rfl⟩
  | cons call later ih =>
    obtain ⟨hs', hcalls⟩ := apply_failed codec into hs call
    rw [foldl_cons, ← hcalls]
    exact ih hs'

end Pump

/-! ## The limits hold -/

/-- Why a pump may answer that a limit is exceeded: its output is over the limit, its ratio is, or a stream beyond the
stream limit is about to begin; a stream limit of zero is exceeded by the first stream. -/
def Exceeds {σ : Type} (limits : DecompressorLimits) (format : FormatLimits) (into : Destination) (p : Pump σ) : Prop :=
  (∃ max, output_limit limits format into = some max ∧ max < p.total_out) ∨
  (∃ ratio, ratio_limit limits format = some ratio ∧ RATIO_FLOOR_BYTES < p.total_out ∧ ratio * p.total_in < p.total_out) ∨
  (∃ max, stream_limit limits format into = some max ∧ max ≤ p.streams ∧ p.input.is_empty = false) ∨
  stream_limit limits format into = some 0

/-- What the limits of a decompressor promise of a pump and of the calls that may come next. -/
structure Held {σ : Type} (limits : DecompressorLimits) (format : FormatLimits) (codec : Codec σ) (into : Destination)
    (p : Pump σ) : Prop where
  /-- What was handed out is within the output limit. -/
  output : ∀ max, output_limit limits format into = some max → p.returned ≤ max
  /-- Output is only handed out at an expansion within the ratio. -/
  ratio : ∀ p' data, p.pull codec into = (p', .ok (.data data)) → ∀ ratio, ratio_limit limits format = some ratio →
    p'.total_out ≤ RATIO_FLOOR_BYTES ∨ p'.total_out ≤ ratio * p'.total_in
  /-- No stream beyond the stream limit is begun; one stream always is. -/
  streams : ∀ max, stream_limit limits format into = some max → p.begun ≤ Nat.max 1 max
  /-- A limit is only reported when it is exceeded, or by the codec in this call. -/
  exact_pull : ∀ p' e, p.pull codec into = (p', .err e) → e.kind = .limit_exceeded →
    Pump.Raised codec into p 0 e ∨ Exceeds limits format into p'
  exact_push : ∀ v p' e, p.push v = (p', some e) → e.kind = .limit_exceeded →
    ∃ max, stream_limit limits format into = some max ∧ max ≤ p.streams ∧ v.is_empty = false
  /-- An error of `pull`, and of `push` on trailing or excess data, fails the pump. -/
  pull_fails : ∀ p' e, p.pull codec into = (p', .err e) → p'.state = .failed
  push_fails : ∀ v p' e, p.push v = (p', some e) → e.kind = .corrupt_data ∨ e.kind = .limit_exceeded → p'.state = .failed
  /-- A failed pump makes no engine step and hands nothing out, whatever is called. -/
  stopped : p.state = .failed → ∀ later : List Call,
    (later.foldl (Call.apply codec into) p).calls = p.calls ∧
      ∀ data, ((later.foldl (Call.apply codec into) p).pull codec into).2 ≠ .ok (.data data)
  /-- One call makes at most 64 engine steps and consumes at most a megabyte, and does not panic. -/
  steps : (p.pull codec into).1.calls ≤ p.calls + 64
  bytes : p.input.len ≤ (p.pull codec into).1.input.len + 1048576
  reached : (p.pull codec into).2 ≠ .unreachable

section Held
variable {σ : Type} {limits : DecompressorLimits} {format : FormatLimits} {codec : Codec σ} {into : Destination} {p : Pump σ}

theorem Pump.Core.total_out_le (h : p.Core codec into limits.buffered_fallbacks) : p.total_out ≤ U64_MAX := by
  rw [h.counted]
  exact Nat.min_le_right _ _

theorem mul_lt_of_saturating {a b total : ℕ} (hle : total ≤ U64_MAX) (h : saturating_mul a b < total) : b * a < total := by
  rw [Nat.mul_comm]
  unfold saturating_mul at h
  omega

theorem Pump.Over.exceeds (hlimits : codec.limits = limits.resolve format)
    (h : p.Core codec into limits.buffered_fallbacks) (hover : p.Over codec into limits.buffered_fallbacks) :
    Exceeds limits format into p := by
  have hle := h.total_out_le
  rcases hover.reason with ⟨max, hmax, hlt⟩ | ⟨ratio, hratio, hfloor, hlt⟩ | ⟨max, hmax, hstreams⟩
  · rw [hlimits, output_bound_eq] at hmax
    exact .inl ⟨max, filter_eq_some_iff.mpr ⟨hmax, decide_eq_true (hlt.trans_le hle)⟩, hlt⟩
  · rw [hlimits, ratio_limit_eq] at hratio
    exact .inr (.inl ⟨ratio, hratio, hfloor, mul_lt_of_saturating hle hlt⟩)
  · obtain ⟨hbegun, hbegun_le⟩ := h.begun max hmax
    rw [hlimits, stream_bound_eq] at hmax
    rcases hstreams with hlt | ⟨hle', hinput⟩
    · -- more streams than the limit ended: only the first one of a limit of zero
      have hzero : max = 0 := by grind
      exact .inr (.inr (.inr (hzero ▸ hmax)))
    · exact .inr (.inr (.inl ⟨max, hmax, hle', hinput⟩))

theorem Pump.Inv.held (hlimits : codec.limits = limits.resolve format)
    (h : p.Inv codec into limits.buffered_fallbacks) : Held limits format codec into p := by
  have hanswer := pull_answer h
  have hbound := output_bound_eq limits format into
  rw [← hlimits] at hbound
  refine
    { output := fun max hmax => ?_
      ratio := fun p' data hpull ratio hratio => ?_
      streams := fun max hmax => ?_
      exact_pull := fun p' e hpull hkind => ?_
      exact_push := fun v p' e hpush hkind => ?_
      pull_fails := fun p' e hpull => ?_
      push_fails := fun v p' e hpush hkind => ?_
      stopped := fun hs later => ?_
      steps := ?_
      bytes := ?_
      reached := ?_ }
  · obtain ⟨hforce, hlt⟩ := filter_eq_some_iff.mp hmax
    exact h.bounded max (hbound.trans hforce) (of_decide_eq_true hlt)
  · have hs : p.state ≠ .failed := fun hs => by rw [pull_failed hs] at hpull; cases hpull
    have hr := hanswer hs
    rw [hpull] at hr
    have hw := hr.inv.within (hr.ok _ rfl)
    refine (hw.ratio ratio ?_).imp id fun hle => ?_
    · rw [hlimits, ratio_limit_eq, hratio]
    · rw [Nat.mul_comm]
      exact hle.trans (Nat.min_le_left _ _)
  · rw [← stream_bound_eq, ← hlimits] at hmax
    exact (h.begun max hmax).2
  · by_cases hs : p.state = .failed
    · rw [pull_failed hs] at hpull
      cases hpull
      cases hkind
    · have hr := hanswer hs
      rw [hpull] at hr
      exact ((hr.err e rfl).2 hkind).imp id fun hover => hover.exceeds hlimits hr.inv.toCore
  · obtain ⟨m, hstate, hv⟩ := push_limit hpush hkind
    obtain ⟨hmax, hle⟩ := h.at_limit m hstate
    rw [hlimits, stream_bound_eq] at hmax
    exact ⟨m, hmax, hle, hv⟩
  · by_cases hs : p.state = .failed
    · rw [pull_failed hs] at hpull
      cases hpull
      exact hs
    · have hr := hanswer hs
      rw [hpull] at hr
      exact (hr.err e rfl).1
  · exact push_failed hpush hkind
  · obtain ⟨hs', hcalls⟩ := calls_failed codec into hs later
    refine ⟨hcalls, fun data => ?_⟩
    rw [pull_failed hs']
    nofun
  all_goals
    by_cases hs : p.state = .failed
    · rw [pull_failed hs]
      first | exact Nat.le_add_right _ _ | nofun
    · first | exact (hanswer hs).steps | exact (hanswer hs).bytes | exact (hanswer hs).reached

/-- Whatever the codec does, the limits of a decompressor hold in every run of its pump. -/
theorem limits_hold (hlimits : codec.limits = limits.resolve format) (h : (system limits codec into).Reachable p) :
    Held limits format codec into p := by
  have hinv : p.Inv codec into limits.buffered_fallbacks := by
    refine Lib.Lts.Reachable.inv (Pump.Inv codec into limits.buffered_fallbacks) ?_ ?_ h
    · rintro p ⟨memory, chunk_size, engine, -, rfl⟩
      exact .new memory chunk_size engine
    · rintro p call p' - hp rfl
      exact hp.apply call
  exact hinv.held hlimits

end Held

/-! ## A format's default under a buffered destination -/

/-- An engine that fills every output slice and ends no stream. -/
def filler (limits : FormatLimits) : Codec Unit where
  step _ _ take _ := ((), .ok (.continue, 0, List.replicate take 0))
  stream_ended _ := ((), .ok .complete)
  limits := limits

/-- One chunk of a stream of zeros, under the bounds of the deflate formats. -/
theorem limits_hold_filler :
    let limits : DecompressorLimits := {}
    let format : FormatLimits := ⟨some 1100, none, none⟩
    let codec := filler (limits.resolve format)
    let p := Call.apply codec .buffer (.new (fun _ => 4) 3 limits.buffered_fallbacks ()) .pull
    p.returned = 3 ∧ Held limits format codec .buffer p := by
  refine ⟨by decide, ?_⟩
  apply limits_hold rfl
  exact .step ⟨[], .init ⟨fun _ => 4, 3, (), by decide, rfl⟩⟩ (a := .pull) rfl

section filler
variable {l : FormatLimits} {into : Destination} {p : Pump Unit}

theorem filler_step (u : Unit) (input : List UInt8) (take : ℕ) (operation : Operation) :
    (filler l).step u input take operation = ((), .ok (.continue, 0, List.replicate take 0)) := rfl

/-- The pump after the engine has filled the room it was given. -/
def Pump.fill (l : FormatLimits) (into : Destination) (p : Pump Unit) : Pump Unit :=
  (p.stepped ()).absorb 0 (List.replicate (p.room (filler l) into .process) 0)

theorem filler_loop (l : FormatLimits) (into : Destination) (hs : p.state = .opened) (hroom : p.room (filler l) into .process ≠ 0)
    (hchunk : p.output.length < p.chunk_size) (left : ℕ) :
    p.pull_loop (filler l) into (left + 1) 0 =
      match (p.fill l into).check_limits (filler l) into with
      | .ok () => (p.fill l into).pull_loop (filler l) into left 0
      | .error e => ({ p.fill l into with state := .failed }, .err e) := by
  have hturn : p.turn (filler l) into 0 = ((p.fill l into).outcome (filler l) into .continue false, 0) := by
    simp [turn, operation, hs, filler_step, hroom, fill]
  rw [pull_loop, if_neg (by omega), if_neg (by decide), hturn]
  rcases hcheck : (p.fill l into).check_limits (filler l) into with e | _
  · simp only [outcome, hcheck, fail]
  · simp only [outcome, hcheck]
    rfl

/-- With a ceiling of `n` on buffered output, an output of `n + 1` bytes that the format allows is rejected. -/
theorem filler_rejected (n : ℕ) (h0 : 0 < n) (hle : n ≤ U64_MAX) (hn : n + 1 ≤ U64_MAX) (streams : Option NonZeroU64) :
    ∃ p' e, (Pump.new (fun _ => 2 * n) (2 * n) ⟨some ⟨n, h0, hle⟩, streams⟩ ()).pull
        (filler ⟨none, some ⟨n + 1, hn⟩, none⟩) .buffer = (p', .err e) ∧
      e.kind = .limit_exceeded ∧ p'.total_out = n + 1 := by
  have hmin : min n U64_MAX = n := Nat.min_eq_left hle
  have hmin' : min (n + 1) U64_MAX = n + 1 := Nat.min_eq_left hn
  have hnot : ¬ n + 1 < n := by omega
  -- the first step fills the ceiling
  have hroom : (new (fun _ => 2 * n) (2 * n) ⟨some ⟨n, h0, hle⟩, streams⟩ ()).room
      (filler ⟨none, some ⟨n + 1, hn⟩, none⟩) .buffer .process = n := by
    simp [room, remaining_output, FormatLimits.remaining_output, filler, new, fallbacks, tighter]
    omega
  have hfirst := filler_loop ⟨none, some ⟨n + 1, hn⟩, none⟩ .buffer
    (p := new (fun _ => 2 * n) (2 * n) ⟨some ⟨n, h0, hle⟩, streams⟩ ()) rfl (by omega) (by simp [new]; omega) 63
  rw [fill, hroom] at hfirst
  have hchecked : (((new (fun _ => 2 * n) (2 * n) ⟨some ⟨n, h0, hle⟩, streams⟩ ()).stepped ()).absorb 0
      (replicate n 0)).check_limits (filler ⟨none, some ⟨n + 1, hn⟩, none⟩) .buffer = .ok () := by
    simp [check_limits, check_ceiling, absorb, stepped, new, saturating_add, hmin, hnot,
      FormatLimits.check, FormatLimits.check_output, FormatLimits.check_ratio, FormatLimits.check_streams, filler,
      fallbacks, bind, Except.bind]
  rw [hchecked] at hfirst
  -- the second is given the probe byte, which is one too many
  have hprobe : (((new (fun _ => 2 * n) (2 * n) ⟨some ⟨n, h0, hle⟩, streams⟩ ()).stepped ()).absorb 0
      (replicate n 0)).room (filler ⟨none, some ⟨n + 1, hn⟩, none⟩) .buffer .process = 1 := by
    simp [room, remaining_output, FormatLimits.remaining_output, filler, new, fallbacks, tighter,
      stepped, absorb, saturating_add, hmin]
    omega
  have hsecond := filler_loop ⟨none, some ⟨n + 1, hn⟩, none⟩ .buffer
    (p := ((new (fun _ => 2 * n) (2 * n) ⟨some ⟨n, h0, hle⟩, streams⟩ ()).stepped ()).absorb 0 (replicate n 0))
    rfl (by omega) (by simp [new, absorb, stepped]; omega) 62
  rw [fill, hprobe] at hsecond
  have hover : (((((new (fun _ => 2 * n) (2 * n) ⟨some ⟨n, h0, hle⟩, streams⟩ ()).stepped ()).absorb 0
      (replicate n 0)).stepped ()).absorb 0 (replicate 1 0)).check_limits
        (filler ⟨none, some ⟨n + 1, hn⟩, none⟩) .buffer = .error (.output_limit_exceeded (n + 1) n) := by
    simp [check_limits, check_ceiling, absorb, stepped, new, saturating_add, hmin, hmin',
      FormatLimits.check, FormatLimits.check_output, FormatLimits.check_ratio, FormatLimits.check_streams, filler,
      fallbacks, bind, Except.bind]
  rw [hover] at hsecond
  refine ⟨_, _, hfirst.trans hsecond, rfl, ?_⟩
  simp [absorb, stepped, new, saturating_add, hmin, hmin']

theorem filler_raises {work : ℕ} {e : Error} (h : Raised (filler l) into p work e) : False := by
  induction h with
  | step h =>
    obtain ⟨operation, -, hstep⟩ := Option.map_eq_some_iff.mp h
    cases hstep
  | stream_end h hended => cases hended
  | again h hr ih => exact ih

end filler

/-- Without a caller's limit, a buffered output exactly at its format's own limit is rejected, by the shared default. -/
theorem buffered_default_rejects :
    ∃ (format : FormatLimits) (max : U64) (codec : Codec Unit) (p p' : Pump Unit) (e : Error),
      format.output_len = some max ∧ codec.limits = ({} : DecompressorLimits).resolve format ∧
        (system {} codec .buffer).Reachable p ∧ p.pull codec .buffer = (p', .err e) ∧ e.kind = .limit_exceeded ∧
        (∀ p work, ¬ Pump.Raised codec .buffer p work e) ∧ p'.total_out = max.val := by
  obtain ⟨p', e, hpull, hkind, htotal⟩ := filler_rejected DEFAULT_MAX_OUTPUT_LEN (by decide) (by decide) (by decide)
    (some ⟨DEFAULT_MAX_STREAMS, by decide⟩)
  refine ⟨⟨none, some ⟨DEFAULT_MAX_OUTPUT_LEN + 1, by decide⟩, none⟩, _, _, _, p', e, rfl, rfl, ?_, hpull, hkind, ?_, htotal⟩
  · exact ⟨[], .init ⟨_, _, _, by decide, rfl⟩⟩
  · exact fun p work h => filler_raises h

end Compressors
