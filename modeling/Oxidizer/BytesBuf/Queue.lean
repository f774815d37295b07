import Oxidizer.BytesBuf.Vectored
import Oxidizer.BytesBuf.Reads
/-!
# `BytesBuf` is a FIFO queue of bytes

`Queue` says what the buffer is for: bytes in order, and room for more.
`Op.spec` is the whole API over it. Every call on a valid buffer gives the
result `spec` gives and leaves the buffer that represents `spec`'s queue
(`call_refines`); so over any run the bytes consumed, followed by the bytes
`peek` returns, are the bytes written (`reachable_is_fifo`).
-/

namespace Bytesbuf

open Lib Lib.Exec BytesBuf List

/-- Calls on the buffer. A vectored write is one call: what its caller writes
to the exposed slices, and how much of that it commits. -/
inductive Op where
  | reserve (additional_bytes : Nat) (memory_provider : Memory)
  | put_slice (src : List UInt8)
  | put_byte_repeated (value : UInt8) (count : Nat)
  | put_bytes (view : BytesView)
  | vectored_write (max_len : Option Nat) (data : List UInt8) (bytes_written : Nat)
  | peek
  | consume_checked (len : Nat)
  | consume (len : Nat)
  | consume_all

/-- What a call returns: nothing, or the bytes of a view if there is one. -/
inductive Reply where
  | unit
  | read (bytes : Option (List UInt8))
deriving DecidableEq

def Op.call (fuel : Nat) : Op → M Reply
  | .reserve n m => do BytesBuf.reserve n m; pure .unit
  | .put_slice src => do BytesBuf.put_slice fuel src; pure .unit
  | .put_byte_repeated value count => do BytesBuf.put_byte_repeated fuel value count; pure .unit
  | .put_bytes view => do BytesBuf.put_bytes view; pure .unit
  | .vectored_write max_len data n => do BytesBuf.vectored_write fuel max_len data n; pure .unit
  | .peek => do let v ← BytesBuf.peek; pure (.read (some v.bytes))
  | .consume_checked len => do let v ← BytesBuf.consume_checked len; pure (.read (v.map BytesView.bytes))
  | .consume len => do let v ← BytesBuf.consume len; pure (.read (some v.bytes))
  | .consume_all => do let v ← BytesBuf.consume_all; pure (.read (some v.bytes))

/-- The safety requirement of `commit`: the bytes committed were exposed and written. -/
def Op.Legal (b : BytesBuf) : Op → Prop
  | .vectored_write max_len data n => n ≤ data.length ∧ ((∀ m ∈ max_len, m ≤ b.remaining_capacity) → n ≤ b.exposed max_len)
  | _ => True

def Op.rounds (b : BytesBuf) : Op → Nat
  | .put_slice src => src.length
  | .put_byte_repeated _ count => count
  | .vectored_write _ _ n => b.span_builders_reversed.length + n
  | _ => 0

/-- Bytes a call that ended with `out` put into the buffer. -/
def Op.written (out : Outcome Panic Reply) (op : Op) : List UInt8 :=
  match out, op with
  | .ok _, .put_slice src => src
  | .ok _, .put_byte_repeated value count => List.replicate count value
  | .ok _, .put_bytes view => view.bytes
  | .ok _, .vectored_write _ data n => data.take n
  | _, _ => []

/-- Bytes a call that ended with `out` took out of the buffer. -/
def Op.consumed (out : Outcome Panic Reply) (op : Op) : List UInt8 :=
  match out, op with
  | .ok (.read bytes), .consume_checked _ => bytes.getD []
  | .ok (.read bytes), .consume _ => bytes.getD []
  | .ok (.read bytes), .consume_all => bytes.getD []
  | _, _ => []

attribute [simp] Op.written Op.consumed

/-! ## What the buffer is for -/

structure Queue where
  queued : List UInt8
  room : Nat

namespace Queue

/-- Writing what fits; a write that does not fit is refused as a whole. -/
def write (q : Queue) (data : List UInt8) : Outcome Panic Reply × Queue :=
  if data.length ≤ q.room then (.ok .unit, ⟨q.queued ++ data, q.room - data.length⟩)
  else (.panic .insufficient_capacity, q)

/-- Capacity that comes from outside, if the total stays a `usize`. -/
def grow (q : Queue) (extra : Nat) (q' : Queue) : Outcome Panic Reply × Queue :=
  if q.queued.length + q.room + extra ≤ usizeMax then (.ok .unit, q') else (.panic .capacity_overflow, q)

/-- Taking `len` bytes, or `short` when there are fewer. -/
def take (q : Queue) (len : Nat) (short : Outcome Panic Reply) : Outcome Panic Reply × Queue :=
  if len ≤ q.queued.length then (.ok (.read (some (q.queued.take len))), { q with queued := q.queued.drop len })
  else (short, q)

end Queue

/-- The API over the abstract queue. -/
def Op.spec (q : Queue) : Op → Outcome Panic Reply × Queue
  | .reserve n m =>
    if n ≤ q.room then (.ok .unit, q) else
      match m.reserve (n - q.room) with
      | none => (.panic .memory_provider, q)
      | some mem => q.grow mem.available { q with room := q.room + mem.available }
  | .put_slice src => q.write src
  | .put_byte_repeated value count => q.write (List.replicate count value)
  | .put_bytes view => q.grow view.len { q with queued := q.queued ++ view.bytes }
  | .vectored_write max_len data n =>
    if max_len.any (q.room < ·) then (.panic .vectored_write_out_of_bounds, q)
    else (.ok .unit, ⟨q.queued ++ data.take n, q.room - n⟩)
  | .peek => (.ok (.read (some q.queued)), q)
  | .consume_checked len => q.take len (.ok (.read none))
  | .consume len => q.take len (.panic .consume_out_of_bounds)
  | .consume_all => (.ok (.read (some q.queued)), { q with queued := [] })

def BytesBuf.queue (b : BytesBuf) : Queue := ⟨b.contents, b.available⟩

/-- `r` is what `spec` says, on a valid buffer. -/
structure Refines (r : Outcome Panic Reply × BytesBuf) (spec : Outcome Panic Reply × Queue) : Prop where
  out : r.1 = spec.1
  queue : r.2.queue = spec.2
  inv : r.2.Inv

/-! ## Refinement -/

section Refinement
variable {b : BytesBuf}

theorem queue_eq {b' : BytesBuf} {queued : List UInt8} {room : Nat} (hc : b'.contents = queued) (ha : b'.available = room) :
    b'.queue = ⟨queued, room⟩ := by
  rw [BytesBuf.queue, hc, ha]

theorem run_seq {α : Type} {m : M α} {f : α → Reply} {a : α} {b' : BytesBuf} (h : m.run b = (.ok a, b')) :
    (m >>= fun a => pure (f a)).run b = (.ok (f a), b') := by
  rw [bind_ok h, run_pure]

theorem write_refines (h : b.Inv) {m : M Unit} {data : List UInt8}
    (hfit : data.length ≤ b.available → ∃ b', m.run b = (.ok (), b') ∧ Appended b data b')
    (hshort : b.available < data.length → m.run b = (.panic .insufficient_capacity, b)) :
    Refines ((do m; pure .unit : M Reply).run b) (b.queue.write data) := by
  by_cases hle : data.length ≤ b.queue.room
  · obtain ⟨b', hr, ha⟩ := hfit hle
    rw [run_seq (f := fun _ => .unit) hr, Queue.write, if_pos hle]
    exact ⟨rfl, queue_eq ha.contents (ha.available h), ha.inv⟩
  · rw [bind_panic (hshort (Nat.not_le.mp hle)), Queue.write, if_neg hle]
    exact ⟨rfl, rfl, h⟩

theorem grow_refines (h : b.Inv) {m : M Unit} {extra : Nat} {q : Queue}
    (hm : (b.len + b.available + extra ≤ usizeMax ∧ ∃ b', m.run b = (.ok (), b') ∧ b'.Inv ∧ b'.queue = q) ∨
      (usizeMax < b.len + b.available + extra ∧ m.run b = (.panic .capacity_overflow, b))) :
    Refines ((do m; pure .unit : M Reply).run b) (b.queue.grow extra q) := by
  have hlen : b.queue.queued.length = b.len := h.length_contents
  rw [Queue.grow, hlen]
  rcases hm with ⟨hle, b', hr, hi, hq⟩ | ⟨hgt, hr⟩
  · rw [run_seq (f := fun _ => .unit) hr, if_pos (show b.len + b.queue.room + extra ≤ usizeMax from hle)]
    exact ⟨rfl, hq, hi⟩
  · rw [bind_panic hr, if_neg (show ¬ b.len + b.queue.room + extra ≤ usizeMax from Nat.not_le.mpr hgt)]
    exact ⟨rfl, rfl, h⟩

theorem take_refines (h : b.Inv) {len : Nat} {short : Outcome Panic Reply} {m : Option BytesView → M Reply}
    (hsome : ∀ v, m (some v) = pure (.read (some v.bytes))) (hnone : (m none).run b = (short, b)) :
    Refines ((consume_checked len >>= m).run b) (b.queue.take len short) := by
  have hlen : b.queue.queued.length = b.len := h.length_contents
  by_cases hle : len ≤ b.len
  · obtain ⟨v, b', hr, hi, hv, hc, ha⟩ := consume_checked_spec h hle
    rw [bind_ok hr, hsome, Queue.take, if_pos (hlen ▸ hle)]
    exact ⟨by rw [run_pure, hv]; rfl, queue_eq hc ha, hi⟩
  · rw [bind_ok (consume_checked_none (Nat.not_le.mp hle)), hnone, Queue.take, if_neg (hlen ▸ hle)]
    exact ⟨rfl, rfl, h⟩

theorem vectored_write_refines (h : b.Inv) {max_len : Option Nat} {data : List UInt8} {n fuel : Nat}
    (hl : (Op.vectored_write max_len data n).Legal b) (hf : (Op.vectored_write max_len data n).rounds b < fuel) :
    Refines (((Op.vectored_write max_len data n).call fuel).run b) ((Op.vectored_write max_len data n).spec b.queue) := by
  by_cases hm : ∀ m ∈ max_len, m ≤ b.available
  · obtain ⟨b', hr, hi, hc, ha⟩ := vectored_write_spec h hm hl.1 (hl.2 hm) hf
    have hany : max_len.any (b.queue.room < ·) = false := by
      cases max_len with
      | none => rfl
      | some m => exact decide_eq_false (Nat.not_lt.mpr (hm m rfl))
    rw [Op.call, run_seq (f := fun _ => .unit) hr, Op.spec, hany]
    exact ⟨rfl, queue_eq hc ha, hi⟩
  · cases max_len with
    | none => exact absurd (by simp) hm
    | some m =>
      have hlt : b.available < m := by simpa using hm
      rw [Op.call, bind_panic (vectored_write_short hlt fuel data n), Op.spec, Option.any_some,
        if_pos (show decide (b.queue.room < m) = true from decide_eq_true hlt)]
      exact ⟨rfl, rfl, h⟩

/-- Every legal call on a valid buffer does what the queue does. -/
theorem call_refines (h : b.Inv) (op : Op) (hl : op.Legal b) {fuel : Nat} (hf : op.rounds b < fuel) :
    Refines ((op.call fuel).run b) (op.spec b.queue) := by
  cases op with
  | reserve n m =>
    by_cases hn : n ≤ b.queue.room
    · rw [Op.call, run_seq (f := fun _ => .unit) (reserve_enough hn m), Op.spec, if_pos hn]
      exact ⟨rfl, rfl, h⟩
    · rw [Op.spec, if_neg hn]
      cases hm : m.reserve (n - b.queue.room) with
      | none =>
        rw [Op.call, bind_panic (reserve_none (Nat.not_le.mp hn) hm)]
        exact ⟨rfl, rfl, h⟩
      | some mem =>
        refine grow_refines h ?_
        rcases reserve_spec h (Nat.not_le.mp hn) hm with ⟨hle, b', hr, hi, hc, ha⟩ | hr
        · exact .inl ⟨hle, b', hr, hi, queue_eq hc ha⟩
        · exact .inr hr
  | put_slice src =>
    exact write_refines h (fun hle => put_slice_spec h hle hf) (fun hlt => put_slice_short hlt fuel)
  | put_byte_repeated value count =>
    refine write_refines h (fun hle => put_byte_repeated_spec h value ?_ hf) (fun hlt => put_byte_repeated_short ?_ fuel value)
    · rwa [length_replicate] at hle
    · rwa [length_replicate] at hlt
  | put_bytes view =>
    refine grow_refines h ?_
    rcases put_bytes_spec h view with ⟨hle, b', hr, hi, hc, ha⟩ | hr
    · exact .inl ⟨hle, b', hr, hi, queue_eq hc ha⟩
    · exact .inr hr
  | vectored_write max_len data n => exact vectored_write_refines h hl hf
  | peek =>
    obtain ⟨v, hr, hv⟩ := peek_spec h
    rw [Op.call, run_seq (f := fun v => .read (some v.bytes)) hr, Op.spec, hv]
    exact ⟨rfl, rfl, h⟩
  | consume_checked len => exact take_refines h (fun _ => rfl) rfl
  | consume len =>
    rw [Op.call, BytesBuf.consume, then_assoc]
    exact take_refines h (fun _ => rfl) rfl
  | consume_all =>
    have hlen : b.queue.queued.length = b.len := h.length_contents
    have hspec : Op.spec b.queue .consume_all = b.queue.take b.len (.panic (.internal .unwrap_unchecked)) := by
      rw [Op.spec, Queue.take, if_pos (Nat.le_of_eq hlen.symm), ← hlen, take_length, drop_length]
    rw [hspec, Op.call, BytesBuf.consume_all, then_assoc, self_then, then_assoc]
    exact take_refines h (fun _ => rfl) rfl

end Refinement

/-! ## Whole runs -/

/-- What the queue's outcomes say about its content: in order, nothing lost, nothing twice. It neither runs on for ever
nor fails an internal expectation. -/
theorem spec_conserves (op : Op) (q : Queue) :
    q.queued ++ op.written (op.spec q).1 = op.consumed (op.spec q).1 ++ (op.spec q).2.queued ∧
      (op.spec q).1 ≠ .div ∧ ∀ site, (op.spec q).1 ≠ .panic (.internal site) := by
  cases op with
  | reserve n m =>
    simp only [Op.spec, Queue.grow]
    split <;> [skip; (split <;> [skip; split])] <;> simp
  | put_slice | put_byte_repeated => simp only [Op.spec, Queue.write]; split <;> simp
  | put_bytes => simp only [Op.spec, Queue.grow]; split <;> simp
  | vectored_write => simp only [Op.spec]; split <;> simp
  | consume_checked | consume => simp only [Op.spec, Queue.take]; split <;> simp
  | peek | consume_all => simp [Op.spec]

theorem call_conserves {b b' : BytesBuf} (h : b.Inv) {op : Op} (hl : op.Legal b) {fuel : Nat} (hf : op.rounds b < fuel)
    {out : Outcome Panic Reply} (hc : (op.call fuel).run b = (out, b')) :
    b'.Inv ∧ b.contents ++ op.written out = op.consumed out ++ b'.contents := by
  have href := call_refines h op hl hf
  rw [hc] at href
  have hout : out = (op.spec b.queue).1 := href.out
  have hq : b'.contents = (op.spec b.queue).2.queued := congrArg Queue.queued href.queue
  refine ⟨href.inv, ?_⟩
  rw [hout, hq, ← (spec_conserves op b.queue).1]
  rfl

/-- Buffers that runs of the API reach, with the bytes written and the bytes
consumed on the way. A run goes on after a call that panicked, on the buffer
the panic left. -/
inductive Reachable : BytesBuf → List UInt8 → List UInt8 → Prop where
  | new : Reachable BytesBuf.new [] []
  | from_blocks (blocks : List Block) (h : (blocks.map (·.memory.length)).sum ≤ usizeMax) :
      Reachable (BytesBuf.from_blocks blocks) [] []
  | call {b b' : BytesBuf} {written consumed : List UInt8} {out : Outcome Panic Reply} (op : Op) (fuel : Nat)
      (hr : Reachable b written consumed) (hl : op.Legal b) (hf : op.rounds b < fuel)
      (hc : (op.call fuel).run b = (out, b')) :
      Reachable b' (written ++ op.written out) (consumed ++ op.consumed out)

theorem from_blocks_inv {blocks : List Block} (h : (blocks.map (·.memory.length)).sum ≤ usizeMax) :
    (BytesBuf.from_blocks blocks).Inv := by
  refine from_span_builders_inv (allSpare_blocks blocks) ?_
  simpa [roomOf, Function.comp_def, SpanBuilder.remaining_capacity, Block.into_span_builder] using h

theorem Reachable.inv {b : BytesBuf} {written consumed : List UInt8} (hr : Reachable b written consumed) :
    b.Inv ∧ consumed ++ b.contents = written := by
  induction hr with
  | new => exact ⟨new_inv, rfl⟩
  | from_blocks blocks h =>
    refine ⟨from_blocks_inv h, ?_⟩
    exact contents_spare (allSpare_blocks blocks) [] 0 0 _
  | call op fuel hr hl hf hc ih =>
    obtain ⟨hinv, hw⟩ := ih
    obtain ⟨hinv', hcons⟩ := call_conserves hinv hl hf hc
    exact ⟨hinv', by rw [← hw, append_assoc, append_assoc, hcons]⟩

/-- Over every run: what was consumed, followed by what `peek` returns, is
what was written, and `len` is the peeked length; every further call returns
or panics in a documented way; `put_slice` and `put_byte_repeated` panic
exactly when there is too little room; `consume_checked` gives nothing
exactly when there are fewer bytes, and then changes nothing. -/
theorem reachable_is_fifo {b : BytesBuf} {written consumed : List UInt8} (hr : Reachable b written consumed) :
    (∃ v, BytesBuf.peek.run b = (.ok v, b) ∧ consumed ++ v.bytes = written ∧ v.len = b.len) ∧
    (∀ (op : Op) (fuel : Nat), op.Legal b → op.rounds b < fuel →
      ((op.call fuel).run b).1 ≠ .div ∧ ∀ site, ((op.call fuel).run b).1 ≠ .panic (.internal site)) ∧
    (∀ (src : List UInt8) (fuel : Nat), src.length < fuel →
      ((BytesBuf.put_slice fuel src).run b).1 ≠ .div ∧
      ((∃ e, ((BytesBuf.put_slice fuel src).run b).1 = .panic e) ↔ b.remaining_capacity < src.length)) ∧
    (∀ (value : UInt8) (count fuel : Nat), count < fuel →
      ((BytesBuf.put_byte_repeated fuel value count).run b).1 ≠ .div ∧
      ((∃ e, ((BytesBuf.put_byte_repeated fuel value count).run b).1 = .panic e) ↔ b.remaining_capacity < count)) ∧
    (∀ len : Nat, (((BytesBuf.consume_checked len).run b).1 = .ok none ↔ b.len < len) ∧
      (b.len < len → ((BytesBuf.consume_checked len).run b).2 = b)) := by
  obtain ⟨hinv, hw⟩ := hr.inv
  refine ⟨?_, ?_, ?_, ?_, ?_⟩
  · obtain ⟨v, hp, hv⟩ := peek_spec hinv
    exact ⟨v, hp, by rw [hv, hw], by rw [← v.length_bytes, hv, hinv.length_contents]⟩
  · intro op fuel hl hf
    rw [(call_refines hinv op hl hf).out]
    exact (spec_conserves op b.queue).2
  · intro src fuel hf
    by_cases hle : src.length ≤ b.available
    · obtain ⟨b', hr, -⟩ := put_slice_spec hinv hle hf
      simp [hr, BytesBuf.remaining_capacity, hle]
    · simp [put_slice_short (Nat.not_le.mp hle) fuel, BytesBuf.remaining_capacity, Nat.not_le.mp hle]
  · intro value count fuel hf
    by_cases hle : count ≤ b.available
    · obtain ⟨b', hr, -⟩ := put_byte_repeated_spec hinv value hle hf
      simp [hr, BytesBuf.remaining_capacity, hle]
    · simp [put_byte_repeated_short (Nat.not_le.mp hle) fuel value, BytesBuf.remaining_capacity, Nat.not_le.mp hle]
  · intro len
    by_cases hle : len ≤ b.len
    · obtain ⟨v, b', hr, -⟩ := consume_checked_spec hinv hle
      simp [hr, hle]
    · simp [consume_checked_none (Nat.not_le.mp hle), Nat.not_le.mp hle]

/-- Two bytes into a block of four, one of them consumed. -/
theorem reachable_is_fifo_two_bytes : ∃ b v, Reachable b [1, 2] [1] ∧ BytesBuf.peek.run b = (.ok v, b) ∧
    [1] ++ v.bytes = [1, 2] ∧ v.len = b.len := by
  have h₀ : Reachable (BytesBuf.from_blocks [⟨[0, 0, 0, 0], by decide, by decide⟩]) [] [] :=
    .from_blocks _ (by decide)
  have h₁ : Reachable _ [1, 2] [] := .call (.put_slice [1, 2]) 3 h₀ trivial (by decide) rfl
  have h₂ : Reachable _ [1, 2] [1] := .call (.consume_checked 1) 1 h₁ trivial (by decide) rfl
  obtain ⟨v, hp, hw, hl⟩ := (reachable_is_fifo h₂).1
  exact ⟨_, v, h₂, hp, hw, hl⟩

end Bytesbuf
