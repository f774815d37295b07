import Oxidizer.Lib.Runs
/-!
# The pump of a compression codec

`Pump` moves bytes from a view of segments through a `Codec` into an output
buffer, one engine step at a time, and hands the output over in chunks. The
codec is a parameter: its steps may do anything. Byte counters are numbers that
saturate at `u64::MAX`. The memory provider is the length of the first unfilled
slice that it leaves for each engine step.

Three fields of `Pump` are not in the source and no function reads them: `calls`
counts engine steps, `begun` the streams that a step was made for, and
`returned` the bytes handed out.
-/

namespace Compressors

open List

def U64_MAX : ℕ := 2 ^ 64 - 1

def U32_MAX : ℕ := 2 ^ 32 - 1

abbrev U64 := { n : ℕ // n ≤ U64_MAX }

abbrev NonZeroU64 := { n : ℕ // 0 < n ∧ n ≤ U64_MAX }

abbrev NonZeroU32 := { n : ℕ // 0 < n ∧ n ≤ U32_MAX }

def saturating_add (a b : ℕ) : ℕ := min (a + b) U64_MAX

def saturating_mul (a b : ℕ) : ℕ := min (a * b) U64_MAX

/-! ## Errors -/

inductive Kind where
  | corrupt_data
  | unexpected_end_of_stream
  | limit_exceeded
  | invalid_state
  | invalid_configuration
  | source
  deriving DecidableEq

structure Error where
  kind : Kind
  message : String
  deriving DecidableEq

namespace Error

def corrupt_data (message : String) : Error := ⟨.corrupt_data, message⟩

def unexpected_end_of_stream : Error :=
  ⟨.unexpected_end_of_stream, "compressed stream ended before the final block"⟩

def output_limit_exceeded (actual maximum : ℕ) : Error :=
  ⟨.limit_exceeded, s!"decompressed output reached {actual} bytes, exceeding the limit of {maximum}"⟩

def ratio_limit_exceeded (input output maximum : ℕ) : Error :=
  ⟨.limit_exceeded, s!"decompressed output reached {output} bytes from {input} compressed bytes, " ++
    s!"exceeding the expansion limit of {maximum}x"⟩

def stream_limit_exceeded (actual maximum : ℕ) : Error :=
  ⟨.limit_exceeded, s!"decoded stream count reached {actual}, exceeding the limit of {maximum}"⟩

def invalid_state (message : String) : Error := ⟨.invalid_state, message⟩

end Error

/-! ## Limits -/

def RATIO_FLOOR_BYTES : ℕ := 32 * 1024

def DEFAULT_MAX_OUTPUT_LEN : ℕ := 64 * 1024 * 1024

def DEFAULT_MAX_STREAMS : ℕ := 1024

/-- The caller's overrides; the largest value of a bound removes it. -/
structure DecompressorLimits where
  ratio : Option NonZeroU32 := none
  output_len : Option NonZeroU64 := none
  streams : Option NonZeroU64 := none

/-- A format's bounds, after the caller's overrides. -/
structure FormatLimits where
  ratio : Option ℕ
  output_len : Option U64
  streams : Option U64

/-- The bounds added for a caller that keeps the whole output. -/
structure BufferedFallbacks where
  output_len : Option NonZeroU64 := none
  streams : Option NonZeroU64 := none

namespace DecompressorLimits

def buffered_fallbacks (l : DecompressorLimits) : BufferedFallbacks where
  output_len :=
    match l.output_len with
    | none => some ⟨DEFAULT_MAX_OUTPUT_LEN, by decide⟩
    | some _ => none
  streams :=
    match l.streams with
    | none => some ⟨DEFAULT_MAX_STREAMS, by decide⟩
    | some _ => none

def resolve (l : DecompressorLimits) (defaults : FormatLimits) : FormatLimits where
  ratio :=
    match l.ratio with
    | none => defaults.ratio
    | some ratio => if ratio.val = U32_MAX then none else some ratio.val
  output_len :=
    match l.output_len with
    | none => defaults.output_len
    | some output_len => if output_len.val = U64_MAX then none else some ⟨output_len.val, output_len.property.2⟩
  streams :=
    match l.streams with
    | none => defaults.streams
    | some streams => if streams.val = U64_MAX then none else some ⟨streams.val, streams.property.2⟩

end DecompressorLimits

namespace FormatLimits

def check_output (l : FormatLimits) (output_len : ℕ) : Except Error Unit :=
  match l.output_len with
  | some max => if max.val < output_len then .error (.output_limit_exceeded output_len max.val) else .ok ()
  | none => .ok ()

def check_ratio (l : FormatLimits) (input_len output_len : ℕ) : Except Error Unit :=
  match l.ratio with
  | some ratio =>
    if RATIO_FLOOR_BYTES < output_len ∧ saturating_mul input_len ratio < output_len then
      .error (.ratio_limit_exceeded input_len output_len ratio)
    else .ok ()
  | none => .ok ()

def check_streams (l : FormatLimits) (streams : ℕ) : Except Error Unit :=
  match l.streams with
  | some max => if max.val < streams then .error (.stream_limit_exceeded streams max.val) else .ok ()
  | none => .ok ()

/-- `FormatLimits::check`: its three tests in their order. -/
def check (l : FormatLimits) (input_len output_len streams : ℕ) : Except Error Unit := do
  l.check_output output_len
  l.check_ratio input_len output_len
  l.check_streams streams

def remaining_output (l : FormatLimits) (output_len : ℕ) : Option ℕ :=
  l.output_len.map fun maximum => maximum.val - output_len

def max_streams (l : FormatLimits) : Option ℕ := l.streams.map Subtype.val

end FormatLimits

/-! ## The codec -/

inductive Operation where
  | process
  | flush
  | finish
  deriving DecidableEq

inductive Step where
  | continue
  | flush_complete
  | stream_end
  deriving DecidableEq

inductive StreamEnd where
  | complete
  | await_eof
  | next_stream
  deriving DecidableEq

/-- An engine with states `σ`. A step is given an input slice, the length of the output slice and the operation; it
answers the outcome, the bytes consumed and the bytes it wrote to the front of the output slice. A decompressor's
`check_limits`, `remaining_output` and `max_streams` are those of its resolved `limits`. -/
structure Codec (σ : Type) where
  step : σ → List UInt8 → ℕ → Operation → σ × Except Error (Step × ℕ × List UInt8)
  stream_ended : σ → σ × Except Error StreamEnd
  limits : FormatLimits

/-! ## Views -/

/-- A view: its segments, none of them empty. -/
structure BytesView where
  segments : List (List UInt8)
  filled : ∀ s ∈ segments, s ≠ []

namespace BytesView

def empty : BytesView := ⟨[], by simp⟩

def bytes (v : BytesView) : List UInt8 := v.segments.flatten

def len (v : BytesView) : ℕ := v.bytes.length

def is_empty (v : BytesView) : Bool := v.segments.isEmpty

def first_slice (v : BytesView) : List UInt8 := v.segments.headD []

def advance_segments : List (List UInt8) → ℕ → List (List UInt8)
  | [], _ => []
  | s :: rest, count => if count < s.length then s.drop count :: rest else advance_segments rest (count - s.length)

theorem advance_filled (segments : List (List UInt8)) (count : ℕ) (h : ∀ s ∈ segments, s ≠ []) :
    ∀ s ∈ advance_segments segments count, s ≠ [] := by
  induction segments generalizing count with
  | nil => simp [advance_segments]
  | cons s rest ih =>
    rw [advance_segments]
    split
    · next hlt =>
      intro t ht
      rcases mem_cons.mp ht with rfl | ht
      · simpa using hlt
      · exact h t (mem_cons_of_mem _ ht)
    · exact ih _ fun t ht => h t (mem_cons_of_mem _ ht)

def advance (v : BytesView) (count : ℕ) : BytesView := ⟨advance_segments v.segments count, advance_filled _ _ v.filled⟩

theorem bytes_advance (v : BytesView) (count : ℕ) : (v.advance count).bytes = v.bytes.drop count := by
  obtain ⟨segments, filled⟩ := v
  induction segments generalizing count with
  | nil => simp [advance, bytes, advance_segments]
  | cons s rest ih =>
    have hrest := ih (count - s.length) fun t ht => filled t (mem_cons_of_mem _ ht)
    simp only [advance, bytes, advance_segments, flatten_cons, drop_append] at hrest ⊢
    split
    · next hlt => rw [flatten_cons, Nat.sub_eq_zero_of_le hlt.le, drop_zero]
    · next hge => rw [hrest, drop_eq_nil_of_le (Nat.le_of_not_lt hge), nil_append]

theorem len_advance (v : BytesView) (count : ℕ) : (v.advance count).len = v.len - count := by
  rw [len, bytes_advance, length_drop, len]

end BytesView

/-! ## The pump -/

def MAX_INPUT_PER_PULL : ℕ := 1048576

def MAX_STEPS_PER_PULL : ℕ := 64

def MIN_FLUSH_OUTPUT : ℕ := 7

inductive State where
  | opened
  | flushing (end_after : Bool)
  | finishing
  | between_streams
  | awaiting_eof
  | at_stream_limit (maximum : ℕ)
  | done
  | failed
  deriving DecidableEq

inductive Destination where
  | stream
  | buffer
  deriving DecidableEq

inductive Output where
  | data (bytes : List UInt8)
  | progress
  | need_input
  | done
  deriving DecidableEq

/-- What `pull` answers; `unreachable` is the panic of `non_driving_state_reached_the_step_loop`. -/
inductive Reply where
  | ok (output : Output)
  | err (error : Error)
  | unreachable
  deriving DecidableEq

/-- How one turn of the loop in `pull` ends: with another turn or with an answer. -/
inductive Turn where
  | again
  | ret (reply : Reply)
  deriving DecidableEq

structure Pump (σ : Type) where
  memory : ℕ → ℕ
  chunk_size : ℕ
  input : BytesView
  output : List UInt8
  total_in : ℕ
  total_out : ℕ
  streams : ℕ
  state : State
  buffered : BufferedFallbacks
  engine : σ
  inside : Bool
  calls : ℕ
  begun : ℕ
  returned : ℕ

def tighter : Option ℕ → Option ℕ → Option ℕ
  | some engine, some buffered => some (min engine buffered)
  | bound, none => bound
  | none, bound => bound

namespace Pump
variable {σ : Type}

/-- `Pump::new` followed by `with_buffered_fallbacks`. -/
def new (memory : ℕ → ℕ) (chunk_size : ℕ) (fallbacks : BufferedFallbacks) (engine : σ) : Pump σ where
  memory := memory
  chunk_size := chunk_size
  input := .empty
  output := []
  total_in := 0
  total_out := 0
  streams := 0
  state := .opened
  buffered := fallbacks
  engine := engine
  inside := false
  calls := 0
  begun := 0
  returned := 0

def fallbacks (p : Pump σ) : Destination → BufferedFallbacks
  | .buffer => p.buffered
  | .stream => {}

def remaining_output (codec : Codec σ) (into : Destination) (p : Pump σ) : Option ℕ :=
  tighter (codec.limits.remaining_output p.total_out)
    ((p.fallbacks into).output_len.map fun ceiling => ceiling.val - p.total_out)

def max_streams (codec : Codec σ) (into : Destination) (p : Pump σ) : Option ℕ :=
  tighter codec.limits.max_streams ((p.fallbacks into).streams.map Subtype.val)

def check_ceiling (into : Destination) (p : Pump σ) : Except Error Unit :=
  match (p.fallbacks into).output_len with
  | some ceiling =>
    if ceiling.val < p.total_out then .error (.output_limit_exceeded p.total_out ceiling.val) else .ok ()
  | none => .ok ()

def check_limits (codec : Codec σ) (into : Destination) (p : Pump σ) : Except Error Unit := do
  codec.limits.check p.total_in p.total_out p.streams
  p.check_ceiling into

/-- `fail`, where it is returned at once. -/
def fail (p : Pump σ) (error : Error) : Pump σ × Turn := ({ p with state := .failed }, .ret (.err error))

def take_output (p : Pump σ) : Option (List UInt8 × Pump σ) :=
  if p.output = [] then none
  else
    let count := min p.output.length p.chunk_size
    some (p.output.take count, { p with output := p.output.drop count, returned := p.returned + count })

/-- Answers the output there is, and `other` when there is none. -/
def data_or {β : Type} (answer : Reply → β) (p : Pump σ) (other : β) : Pump σ × β :=
  match p.take_output with
  | some (data, p') => (p', answer (.ok (.data data)))
  | none => (p, other)

/-- The slice of input that the next engine step is given. -/
def supply (p : Pump σ) (input_work : ℕ) : List UInt8 := p.input.first_slice.take (MAX_INPUT_PER_PULL - input_work)

/-- The operation of the next engine step; none in a state that does not drive the engine. -/
def operation (p : Pump σ) (last_slice : Bool) : Option Operation :=
  match p.state with
  | .flushing _ => some (if last_slice then .flush else .process)
  | .finishing => some (if last_slice then .finish else .process)
  | .opened => some .process
  | .between_streams | .awaiting_eof | .at_stream_limit _ | .done | .failed => none

/-- The length of the output slice that the next engine step is given. -/
def room (codec : Codec σ) (into : Destination) (p : Pump σ) (operation : Operation) : ℕ :=
  let budget := p.chunk_size - p.output.length
  let engine_budget := if operation = .flush then max budget MIN_FLUSH_OUTPUT else budget
  let spare := p.memory p.calls
  match p.remaining_output codec into with
  | some remaining => min (min spare engine_budget) (max remaining 1)
  | none => min spare engine_budget

/-- The pump when the engine has been called and is in state `engine`. -/
def stepped (p : Pump σ) (engine : σ) : Pump σ :=
  { p with engine := engine, inside := true, calls := p.calls + 1, begun := if p.inside then p.begun else p.begun + 1 }

/-- The pump when the counts of an engine step are taken over. -/
def absorb (p : Pump σ) (consumed : ℕ) (written : List UInt8) : Pump σ :=
  { p with
    input := p.input.advance consumed
    output := p.output ++ written
    total_in := saturating_add p.total_in consumed
    total_out := saturating_add p.total_out written.length }

/-- The loop body once a flush is complete. -/
def flush_complete (p : Pump σ) : Pump σ × Turn :=
  match p.state with
  | .flushing true => data_or .ret { p with state := .finishing } .again
  | .flushing false => data_or .ret { p with state := .opened } (.ret (.ok .need_input))
  | _ => p.fail (.invalid_state "the compression engine completed an unrequested flush")

/-- The new state after a stream end and how `pull` goes on, or the error that it fails with. -/
def after_stream (p : Pump σ) (limit : Option ℕ) : StreamEnd → Except Error (State × Turn)
  | .complete => .ok (.done, .ret (.ok .done))
  | .await_eof =>
    if p.input.is_empty = false then .error (.corrupt_data "trailing data followed the compressed stream")
    else if p.state = .finishing then .ok (.done, .ret (.ok .done))
    else .ok (.awaiting_eof, .ret (.ok .need_input))
  | .next_stream =>
    match limit.filter fun maximum => maximum ≤ p.streams with
    | some maximum =>
      if p.input.is_empty = false then .error (.stream_limit_exceeded (saturating_add p.streams 1) maximum)
      else if p.state = .finishing then .ok (.done, .ret (.ok .done))
      else .ok (.at_stream_limit maximum, .ret (.ok .need_input))
    | none =>
      if p.input.is_empty = false then .ok (if p.state = .finishing then .finishing else .opened, .again)
      else if p.state = .finishing then .ok (.done, .ret (.ok .done))
      else .ok (.between_streams, .ret (.ok .need_input))

/-- The loop body once a stream has ended. -/
def stream_end (codec : Codec σ) (into : Destination) (p : Pump σ) : Pump σ × Turn :=
  let p := { p with streams := saturating_add p.streams 1, inside := false }
  match p.check_limits codec into with
  | .error error => p.fail error
  | .ok () =>
    let (engine, answer) := codec.stream_ended p.engine
    let p := { p with engine := engine }
    match answer with
    | .error error => p.fail error
    | .ok stream_end =>
      match p.after_stream (p.max_streams codec into) stream_end with
      | .error error => p.fail error
      | .ok (state, turn) => data_or .ret { p with state := state } turn

/-- The loop body once the engine moved neither input nor output. -/
def stalled (p : Pump σ) : Pump σ × Turn :=
  if p.state = .finishing then p.fail .unexpected_end_of_stream
  else if p.input.is_empty ∧ p.state = .opened then data_or .ret p (.ret (.ok .need_input))
  else p.fail (.invalid_state "the compression engine could not make progress")

/-- What the loop body does with the outcome of an engine step. -/
def outcome (codec : Codec σ) (into : Destination) (p : Pump σ) (step : Step) (idle : Bool) : Pump σ × Turn :=
  match p.check_limits codec into with
  | .error error => p.fail error
  | .ok () =>
    match step with
    | .flush_complete => p.flush_complete
    | .stream_end => p.stream_end codec into
    | .continue => if idle then p.stalled else (p, .again)

/-- One engine step in the loop of `pull`, with the number of input bytes it consumed. -/
def turn (codec : Codec σ) (into : Destination) (input_work : ℕ) (p : Pump σ) : (Pump σ × Turn) × ℕ :=
  let input := p.supply input_work
  match p.operation (input.length = p.input.len) with
  | none => ((p, .ret .unreachable), 0)
  | some operation =>
    let take := p.room codec into operation
    let (engine, result) := codec.step p.engine input take operation
    let p := p.stepped engine
    match result with
    | .error error => (p.fail error, 0)
    | .ok (step, consumed, written) =>
      if input.length < consumed ∨ take < written.length then
        (p.fail (.invalid_state "the compression engine reported invalid byte counts"), 0)
      else
        ((p.absorb consumed written).outcome codec into step (consumed = 0 ∧ written = []), consumed)

/-- The loop of `pull`; `left` is what `MAX_STEPS_PER_PULL` leaves of engine steps. -/
def pull_loop (codec : Codec σ) (into : Destination) (left input_work : ℕ) (p : Pump σ) : Pump σ × Reply :=
  if p.chunk_size ≤ p.output.length ∧ p.output ≠ [] then data_or id p (.ok .progress)
  else
    match left with
    | 0 => data_or id p (.ok .progress)
    | left + 1 =>
      if MAX_INPUT_PER_PULL ≤ input_work then data_or id p (.ok .progress)
      else
        match p.turn codec into input_work with
        | ((p, .again), consumed) => pull_loop codec into left (input_work + consumed) p
        | ((p, .ret reply), _) => (p, reply)

def pull (codec : Codec σ) (into : Destination) (p : Pump σ) : Pump σ × Reply :=
  match p.state with
  | .done => data_or id p (.ok .done)
  | .failed => (p, .err (.invalid_state "cannot continue after a previous codec failure"))
  | .between_streams | .awaiting_eof | .at_stream_limit _ =>
    if p.input.is_empty then data_or id p (.ok .need_input) else p.pull_loop codec into MAX_STEPS_PER_PULL 0
  | .opened | .flushing _ | .finishing => p.pull_loop codec into MAX_STEPS_PER_PULL 0

/-- `push`; the error is none when the view was taken. -/
def push (p : Pump σ) (input : BytesView) : Pump σ × Option Error :=
  if p.input.is_empty = false then
    (p, some (.invalid_state "cannot push more input while previously pushed input is still pending"))
  else
    match p.state with
    | .opened => ({ p with input := input }, none)
    | .between_streams =>
      if input.is_empty then (p, none) else ({ p with state := .opened, input := input }, none)
    | .awaiting_eof =>
      if input.is_empty then (p, none)
      else ({ p with state := .failed }, some (.corrupt_data "trailing data followed the compressed stream"))
    | .at_stream_limit maximum =>
      if input.is_empty then (p, none)
      else ({ p with state := .failed }, some (.stream_limit_exceeded (saturating_add p.streams 1) maximum))
    | .flushing _ => (p, some (.invalid_state "cannot push more input while a flush is still pending"))
    | .finishing | .done => (p, some (.invalid_state "cannot push more input after end of input was signaled"))
    | .failed => (p, some (.invalid_state "cannot push more input after the codec failed"))

def flush (p : Pump σ) : Pump σ × Option Error :=
  match p.state with
  | .opened => ({ p with state := .flushing false }, none)
  | .flushing false => (p, none)
  | .flushing true | .finishing | .between_streams | .awaiting_eof | .at_stream_limit _ | .done =>
    (p, some (.invalid_state "cannot flush after end of input was signaled"))
  | .failed => (p, some (.invalid_state "cannot flush after the codec failed"))

def end_input (p : Pump σ) : Pump σ :=
  { p with
    state :=
      match p.state with
      | .opened => .finishing
      | .flushing _ => .flushing true
      | .between_streams | .awaiting_eof | .at_stream_limit _ => .done
      | .finishing | .done | .failed => p.state }

end Pump

/-! ## Runs -/

inductive Call where
  | push (input : BytesView)
  | flush
  | end_input
  | pull

def Call.apply {σ : Type} (codec : Codec σ) (into : Destination) (p : Pump σ) : Call → Pump σ
  | .push input => (p.push input).1
  | .flush => p.flush.1
  | .end_input => p.end_input
  | .pull => (p.pull codec into).1

/-- A pump made with the fallbacks of `limits`, under any calls. -/
def system {σ : Type} (limits : DecompressorLimits) (codec : Codec σ) (into : Destination) : Lib.Lts (Pump σ) Call where
  init p := ∃ memory chunk_size engine, 0 < chunk_size ∧ p = .new memory chunk_size limits.buffered_fallbacks engine
  step p call p' := p' = call.apply codec into p

end Compressors
