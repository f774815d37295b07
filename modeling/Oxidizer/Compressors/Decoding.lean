import Oxidizer.Compressors.Pump
/-!
# What a decompressor decodes

The abstract side of decompression. A `Decoder` says what a stream means: which
bytes from its start are enough to know that it has ended or is corrupt, and the
output that they stand for. `decode` is the meaning of a whole input under a
policy for what follows a stream. `Ideal` is what is asked of a codec: it delivers
the decoding of each stream bit by bit, in steps of any size.

`drive` is a caller of the pump: it pushes the next piece, or says that none is
left, whenever input is asked for, and stops at the end or the first error.
-/

namespace Compressors

/-! ## The meaning of an input -/

inductive Verdict where
  | more
  | ended
  | corrupt
  deriving DecidableEq

inductive Outcome where
  | done
  | err (kind : Kind)
  deriving DecidableEq

/-- The meaning of a stream, by the bytes from its start. -/
structure Decoder where
  verdict : List UInt8 → Verdict
  out : List UInt8 → List UInt8
  /-- a stream has at least one byte -/
  start : verdict [] = .more
  /-- more bytes do not take back output -/
  grows : ∀ a b, out a <+: out (a ++ b)

namespace Decoder
variable (d : Decoder)

/-- Moves bytes of `rest` to the stream's `got` until its verdict is known. -/
def scan (d : Decoder) : List UInt8 → List UInt8 → List UInt8 × List UInt8
  | got, [] => (got, [])
  | got, byte :: rest => if d.verdict got = .more then d.scan (got ++ [byte]) rest else (got, byte :: rest)

/-- The outcome of an input and its output, from inside a stream of which `got` is known, after `count` others. The
recursion is on `fuel`, which only has to be above the number of bytes. -/
def decode (d : Decoder) (policy : StreamEnd) (limit : Option ℕ) :
    ℕ → ℕ → List UInt8 → List UInt8 → Outcome × List UInt8
  | 0, _, _, _ => (.err .invalid_state, [])
  | fuel + 1, count, got, rest =>
    let (got, rest) := d.scan got rest
    match d.verdict got with
    | .more => (.err .unexpected_end_of_stream, d.out got)
    | .corrupt => (.err .corrupt_data, d.out got)
    | .ended =>
      let after : Outcome × List UInt8 :=
        if limit = some 0 then (.err .limit_exceeded, [])
        else
          match policy with
          | .complete => (.done, [])
          | .await_eof => if rest = [] then (.done, []) else (.err .corrupt_data, [])
          | .next_stream =>
            if rest = [] then (.done, [])
            else if limit.any (· ≤ count + 1) then (.err .limit_exceeded, [])
            else d.decode policy limit fuel (count + 1) [] rest
      (after.1, d.out got ++ after.2)

def decoding (d : Decoder) (policy : StreamEnd) (limit : Option ℕ) (input : List UInt8) : Outcome × List UInt8 :=
  d.decode policy limit (input.length + 1) 0 [] input

variable {d} {policy : StreamEnd} {limit : Option ℕ} {fuel count : ℕ} {got rest : List UInt8}

theorem scan_of_ne (h : d.verdict got ≠ .more) : d.scan got rest = (got, rest) := by
  cases rest with
  | nil => rfl
  | cons byte rest => rw [scan, if_neg h]

theorem scan_take {input : List UInt8} {k : ℕ} (hk : k ≤ input.length)
    (h : ∀ j < k, d.verdict (got ++ input.take j) = .more) :
    d.scan got (input ++ rest) = d.scan (got ++ input.take k) (input.drop k ++ rest) := by
  induction k generalizing got input with
  | zero => simp
  | succ k ih =>
    obtain _ | ⟨byte, input⟩ := input
    · simp at hk
    · have h0 : d.verdict got = .more := by simpa using h 0 (Nat.succ_pos k)
      rw [List.cons_append, scan, if_pos h0]
      rw [ih (Nat.le_of_succ_le_succ hk) fun j hj => by
        simpa using h (j + 1) (Nat.succ_lt_succ hj)]
      simp

theorem decode_take {input : List UInt8} {k : ℕ} (hk : k ≤ input.length)
    (h : ∀ j < k, d.verdict (got ++ input.take j) = .more) :
    d.decode policy limit fuel count got (input ++ rest) =
      d.decode policy limit fuel count (got ++ input.take k) (input.drop k ++ rest) := by
  cases fuel with
  | zero => rfl
  | succ fuel => simp only [decode, scan_take hk h]

theorem decode_corrupt (h : d.verdict got = .corrupt) :
    d.decode policy limit (fuel + 1) count got rest = (.err .corrupt_data, d.out got) := by
  have hscan : d.scan got rest = (got, rest) := scan_of_ne (by rw [h]; nofun)
  simp [decode, hscan, h]

theorem decode_more (h : d.verdict got = .more) :
    d.decode policy limit (fuel + 1) count got [] = (.err .unexpected_end_of_stream, d.out got) := by
  simp [decode, scan, h]

/-- What the pump still has to do in a state, by the bytes that are to come. -/
def resume (d : Decoder) (policy : StreamEnd) (limit : Option ℕ) (fuel count : ℕ) (state : State) (got rest : List UInt8) :
    Outcome × List UInt8 :=
  match state with
  | .done => (.done, [])
  | .awaiting_eof => if rest = [] then (.done, []) else (.err .corrupt_data, [])
  | .at_stream_limit _ => if rest = [] then (.done, []) else (.err .limit_exceeded, [])
  | .between_streams => if rest = [] then (.done, []) else d.decode policy limit fuel count [] rest
  | _ => d.decode policy limit fuel count got rest

end Decoder

/-! ## Codecs that deliver it -/

/-- A codec that delivers the decodings of `d`: `At engine got sent` says that the engine has consumed `got` of the
current stream and delivered `sent` of its output. -/
structure Ideal {σ : Type} (codec : Codec σ) (d : Decoder) (policy : StreamEnd)
    (At : σ → List UInt8 → List UInt8 → Prop) : Prop where
  /-- An error is due to corrupt bytes. -/
  error : ∀ {engine got sent input take operation e}, At engine got sent → 0 < take → operation ≠ .flush →
    (codec.step engine input take operation).2 = .error e →
      e.kind = .corrupt_data ∧ ∃ k ≤ input.length, (∀ j < k, d.verdict (got ++ input.take j) = .more) ∧
        d.verdict (got ++ input.take k) = .corrupt
  /-- A step consumes no byte after the stream's verdict is known, and writes more of its output. -/
  delivers : ∀ {engine got sent input take operation step k written}, At engine got sent → 0 < take →
    operation ≠ .flush → (codec.step engine input take operation).2 = .ok (step, k, written) →
      k ≤ input.length ∧ written.length ≤ take ∧ (∀ j < k, d.verdict (got ++ input.take j) = .more) ∧
        sent ++ written <+: d.out (got ++ input.take k) ∧ step ≠ .flush_complete
  /-- A step that makes no progress needs more input. -/
  progress : ∀ {engine got sent input take operation k written}, At engine got sent → 0 < take → operation ≠ .flush →
    (codec.step engine input take operation).2 = .ok (.continue, k, written) →
      At (codec.step engine input take operation).1 (got ++ input.take k) (sent ++ written) ∧
        (k = 0 → written = [] → input = [] ∧ d.verdict got = .more)
  /-- The end of a stream is reported when it has ended and all its output is delivered. -/
  ends : ∀ {engine got sent input take operation k written}, At engine got sent → 0 < take → operation ≠ .flush →
    (codec.step engine input take operation).2 = .ok (.stream_end, k, written) →
      d.verdict (got ++ input.take k) = .ended ∧ sent ++ written = d.out (got ++ input.take k) ∧
        (codec.stream_ended (codec.step engine input take operation).1).2 = .ok policy ∧
        At (codec.stream_ended (codec.step engine input take operation).1).1 [] []

/-! ## The caller -/

section drive
variable {σ : Type}

/-- Drives a pump through the pieces that are left: how the run ends, and the chunks handed out. There is no result when
`fuel` is too small, and when input is asked for while input is pending or after its end. -/
def drive (codec : Codec σ) (into : Destination) : ℕ → List BytesView → Bool → Pump σ → Option (Outcome × List (List UInt8))
  | 0, _, _, _ => none
  | fuel + 1, pieces, ended, p =>
    match p.pull codec into with
    | (_, .unreachable) => none
    | (_, .err e) => some (.err e.kind, [])
    | (_, .ok .done) => some (.done, [])
    | (p, .ok .progress) => drive codec into fuel pieces ended p
    | (p, .ok (.data chunk)) =>
      match drive codec into fuel pieces ended p with
      | some (outcome, chunks) => some (outcome, chunk :: chunks)
      | none => none
    | (p, .ok .need_input) =>
      if p.input.is_empty = false ∨ ended = true then none
      else
        match pieces with
        | [] => drive codec into fuel [] true p.end_input
        | piece :: pieces =>
          match p.push piece with
          | (_, some e) => some (.err e.kind, [])
          | (p, none) => drive codec into fuel pieces ended p

end drive

end Compressors
