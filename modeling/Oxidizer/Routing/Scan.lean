import Oxidizer.Routing.Model
/-!
# What the scanner finds

The segments of a path are what lies between its slashes, after a leading one.
The scanner counts them all and writes down where the first ones are, as many
as its buffers hold; a segment it has written down is the text between its
offsets.
-/

namespace Routing

open Lib List Scan

/-- The segments of a path; a root path has none. -/
def segments (body : Str) : List Str :=
  if (strip_slash body).isEmpty then [] else (strip_slash body).splitOn SLASH

/-- Where segments that follow each other from `n` on start and end. -/
def spans (n : Nat) : List Str → List (Nat × Nat)
  | [] => []
  | s :: ss => (n, n + s.length) :: spans (n + s.length + 1) ss

def base (body : Str) : Nat := body.length - (strip_slash body).length

def span (body : Str) (i : Nat) : Nat × Nat := (spans (base body) (segments body)).getD i (0, 0)

@[simp] theorem spans_length (n : Nat) (segs : List Str) : (spans n segs).length = segs.length := by
  induction segs generalizing n with
  | nil => rfl
  | cons s ss ih => simp [spans, ih]

/-! ## The loop -/

/-- What the loop and the write after it leave, from byte `n` of the text on. -/
def scan_from (cap base : Nat) (rest : Str) (n : Nat) (s : Scan) : Scan :=
  ((rest.zipIdx n).foldl (scan_byte cap base) s).write cap base (n + rest.length)

/-- Write down spans one after the other. -/
def write_spans (cap base : Nat) : List (Nat × Nat) → Scan → Scan
  | [], s => s
  | (start, stop) :: rest, s =>
    write_spans cap base rest
      { Scan.write { s with start } cap base stop with count := s.count + 1, start := stop + 1 }

/-- A byte that does not end the path of a request. -/
def allowed (b : UInt8) : Bool := b ≠ QUESTION ∧ b ≠ HASH

@[simp] theorem Scan.write_count (s : Scan) (cap base stop : Nat) : (s.write cap base stop).count = s.count := by
  unfold write
  split <;> rfl

@[simp] theorem Scan.write_valid (s : Scan) (cap base stop : Nat) : (s.write cap base stop).valid = s.valid := by
  unfold write
  split <;> rfl

theorem Scan.write_valid_eq (s : Scan) (cap base stop : Nat) (v : Bool) :
    Scan.write { s with valid := v } cap base stop = { s.write cap base stop with valid := v } := by
  unfold write
  split <;> rfl

theorem write_spans_valid (cap base : Nat) (spans : List (Nat × Nat)) (s : Scan) (v : Bool) :
    write_spans cap base spans { s with valid := v } = { write_spans cap base spans s with valid := v } := by
  induction spans generalizing s with
  | nil => rfl
  | cons p spans ih =>
    simp only [write_spans]
    rw [← ih]
    congr 1
    have hw := write_valid_eq { s with start := p.1 } cap base p.2 v
    rw [hw]

/-- The spans of the segments still to come: the first one started at `start`. -/
def spans_from (start n : Nat) : List Str → List (Nat × Nat)
  | [] => []
  | s :: ss => (start, n + s.length) :: spans (n + s.length + 1) ss

theorem spans_from_self (n : Nat) (segs : List Str) : spans_from n n segs = spans n segs := by
  cases segs <;> rfl

theorem splitOn_slash (rest : Str) : (SLASH :: rest).splitOn SLASH = [] :: rest.splitOn SLASH := by
  simp [splitOn, splitOnP_cons_eq_if_modifyHead]

theorem splitOn_other {b : UInt8} (hb : b ≠ SLASH) (rest : Str) :
    (b :: rest).splitOn SLASH = (rest.splitOn SLASH).modifyHead (List.cons b) := by
  simp [splitOn, splitOnP_cons_eq_if_modifyHead, hb]

variable {segs : List Str}

theorem spans_from_cons {b : UInt8} (start n : Nat) (hne : segs ≠ []) :
    spans_from start n (segs.modifyHead (List.cons b)) = spans_from start (n + 1) segs := by
  cases segs with
  | nil => exact absurd rfl hne
  | cons s ss => simp [spans_from, Nat.add_comm, Nat.add_left_comm]

theorem scan_from_eq (cap base : Nat) (rest : Str) (n : Nat) (s : Scan) :
    (scan_from cap base rest n s).starts = (write_spans cap base (spans_from s.start n (rest.splitOn SLASH)) s).starts ∧
    (scan_from cap base rest n s).ends = (write_spans cap base (spans_from s.start n (rest.splitOn SLASH)) s).ends ∧
    (scan_from cap base rest n s).count + 1 = s.count + (rest.splitOn SLASH).length ∧
    (scan_from cap base rest n s).valid = (s.valid && rest.all allowed) := by
  induction rest generalizing n s with
  | nil =>
    have hw : (scan_from cap base [] n s) = s.write cap base n := rfl
    rw [hw, splitOn_nil]
    refine ⟨rfl, rfl, ?_, ?_⟩
    · rw [write_count]; rfl
    · rw [write_valid]; simp
  | cons b rest ih =>
    by_cases hb : b = SLASH
    · subst hb
      let s' : Scan := { s.write cap base n with count := (s.write cap base n).count + 1, start := n + 1 }
      have hstep : scan_from cap base (SLASH :: rest) n s = scan_from cap base rest (n + 1) s' := by
        unfold scan_from
        rw [zipIdx_cons, foldl_cons, length_cons, Nat.add_right_comm, Nat.add_assoc]
        rfl
      obtain ⟨h1, h2, h3, h4⟩ := ih (n + 1) s'
      rw [hstep, splitOn_slash]
      have hspans : write_spans cap base (spans_from s.start n ([] :: rest.splitOn SLASH)) s =
          write_spans cap base (spans_from s'.start (n + 1) (rest.splitOn SLASH)) s' := by
        have hs' : s'.start = n + 1 := rfl
        rw [hs', spans_from_self]
        simp only [spans_from, write_spans, length_nil, Nat.add_zero]
        simp only [s', write_count]
      rw [hspans]
      refine ⟨h1, h2, ?_, ?_⟩
      · rw [h3]
        simp only [s', write_count, length_cons]
        omega
      · rw [h4]
        simp only [s', write_valid, all_cons]
        rw [show allowed SLASH = true from rfl, Bool.true_and]
    · let s' : Scan := { s with valid := s.valid && allowed b }
      have hstep : scan_from cap base (b :: rest) n s = scan_from cap base rest (n + 1) s' := by
        unfold scan_from
        rw [zipIdx_cons, foldl_cons, length_cons, Nat.add_right_comm, Nat.add_assoc]
        congr 2
        simp only [scan_byte, if_neg hb, s', allowed]
        by_cases hq : b = QUESTION ∨ b = HASH
        · rw [if_pos hq]
          have hna : ¬ (b ≠ QUESTION ∧ b ≠ HASH) := fun h => hq.elim h.1 h.2
          rw [decide_eq_false hna, Bool.and_false]
        · rw [if_neg hq]
          have ha : b ≠ QUESTION ∧ b ≠ HASH := not_or.mp hq
          rw [decide_eq_true ha, Bool.and_true]
      obtain ⟨h1, h2, h3, h4⟩ := ih (n + 1) s'
      have hne := splitOn_ne_nil SLASH rest
      rw [hstep, splitOn_other hb, spans_from_cons _ _ hne, length_modifyHead]
      rw [write_spans_valid] at h1 h2
      exact ⟨h1, h2, h3, by rw [h4]; simp [s', Bool.and_assoc]⟩

/-! ## What is written down -/

variable {cap : Nat}

theorem Scan.write_getD {s : Scan} (hs : cap ≤ s.starts.length) (he : cap ≤ s.ends.length) (base stop : Nat) :
    (s.write cap base stop).starts.length = s.starts.length ∧ (s.write cap base stop).ends.length = s.ends.length ∧
    (∀ i, i ≠ s.count ∨ cap ≤ i → (s.write cap base stop).starts.getD i 0 = s.starts.getD i 0 ∧
      (s.write cap base stop).ends.getD i 0 = s.ends.getD i 0) ∧
    (s.count < cap → (s.write cap base stop).starts.getD s.count 0 = base + s.start ∧
      (s.write cap base stop).ends.getD s.count 0 = base + stop) := by
  unfold write
  split
  · rename_i hc
    refine ⟨by simp, by simp, fun i hi => ?_, fun _ => ?_⟩
    · have hne : s.count ≠ i := by omega
      simp [getD_eq_getElem?_getD, getElem?_set_ne hne]
    · simp [getD_eq_getElem?_getD, Nat.lt_of_lt_of_le hc hs, Nat.lt_of_lt_of_le hc he]
  · rename_i hc
    exact ⟨rfl, rfl, fun i _ => ⟨rfl, rfl⟩, fun h => absurd h hc⟩

theorem write_spans_getD (base : Nat) (spans : List (Nat × Nat)) {s : Scan} (hs : cap ≤ s.starts.length)
    (he : cap ≤ s.ends.length) :
    (∀ i, i < s.count ∨ s.count + spans.length ≤ i ∨ cap ≤ i →
      (write_spans cap base spans s).starts.getD i 0 = s.starts.getD i 0 ∧
      (write_spans cap base spans s).ends.getD i 0 = s.ends.getD i 0) ∧
    (∀ k < spans.length, s.count + k < cap →
      (write_spans cap base spans s).starts.getD (s.count + k) 0 = base + (spans.getD k (0, 0)).1 ∧
      (write_spans cap base spans s).ends.getD (s.count + k) 0 = base + (spans.getD k (0, 0)).2) := by
  induction spans generalizing s with
  | nil => exact ⟨fun i _ => ⟨rfl, rfl⟩, fun k hk => absurd hk (Nat.not_lt_zero k)⟩
  | cons p spans ih =>
    obtain ⟨hl, hr, hkeep, hnew⟩ := write_getD (s := { s with start := p.1 }) hs he base p.2
    let s' : Scan := { write { s with start := p.1 } cap base p.2 with count := s.count + 1, start := p.2 + 1 }
    obtain ⟨ih1, ih2⟩ := ih (s := s') (by rw [hl]; exact hs) (by rw [hr]; exact he)
    have hw : write_spans cap base (p :: spans) s = write_spans cap base spans s' := rfl
    have hcount' : s'.count = s.count + 1 := rfl
    rw [hw]
    constructor
    · intro i hi
      rw [length_cons] at hi
      obtain ⟨h1, h2⟩ := ih1 i (by omega)
      obtain ⟨h3, h4⟩ := hkeep i (show i ≠ s.count ∨ cap ≤ i by omega)
      exact ⟨h1.trans h3, h2.trans h4⟩
    · intro k hk hcap
      cases k with
      | zero =>
        obtain ⟨h1, h2⟩ := ih1 s.count (.inl (Nat.lt_succ_self _))
        obtain ⟨h3, h4⟩ := hnew hcap
        exact ⟨h1.trans h3, h2.trans h4⟩
      | succ k =>
        have hcount : s'.count + k = s.count + (k + 1) := by omega
        have h := ih2 k (Nat.lt_of_succ_lt_succ hk) (by omega)
        rw [hcount] at h
        exact h

theorem spans_add (n m : Nat) (segs : List Str) : spans (n + m) segs = (spans m segs).map fun p => (n + p.1, n + p.2) := by
  induction segs generalizing m with
  | nil => rfl
  | cons s ss ih =>
    simp only [spans, map_cons]
    rw [← ih, Nat.add_assoc, Nat.add_assoc, Nat.add_assoc]

/-- What a scan into buffers of length `cap` finds. -/
structure Scanned (body : Str) (cap : Nat) (path : ScannedPath) : Prop where
  body_eq : path.body = body
  capacity_eq : path.capacity = cap
  count_eq : path.count = (segments body).length
  valid_eq : path.valid = body.all allowed
  starts_eq : ∀ i, i < (segments body).length → i < cap → path.starts.getD i 0 = (span body i).1
  ends_eq : ∀ i, i < (segments body).length → i < cap → path.ends.getD i 0 = (span body i).2

theorem all_allowed_strip (body : Str) : (strip_slash body).all allowed = body.all allowed := by
  cases body with
  | nil => rfl
  | cons b body =>
    simp only [strip_slash]
    split
    · rename_i hb
      rw [all_cons, hb, show allowed SLASH = true from rfl, Bool.true_and]
    · rfl

variable {body : Str}

theorem span_eq {i : Nat} (hi : i < (segments body).length) :
    span body i = (base body + ((spans 0 (segments body)).getD i (0, 0)).1,
      base body + ((spans 0 (segments body)).getD i (0, 0)).2) := by
  have hadd := spans_add (base body) 0 (segments body)
  have hget := getElem?_eq_getElem (l := spans 0 (segments body)) (by rw [spans_length]; exact hi)
  unfold span
  rw [Nat.add_zero] at hadd
  rw [hadd, getD_eq_getElem?_getD, getD_eq_getElem?_getD, getElem?_map, hget]
  rfl

/-- A scan leaves what it has not written as it was. -/
structure Untouched (body : Str) (starts ends : List Nat) (path : ScannedPath) : Prop where
  starts_eq : ∀ i, (segments body).length ≤ i ∨ path.capacity ≤ i → path.starts.getD i 0 = starts.getD i 0
  ends_eq : ∀ i, (segments body).length ≤ i ∨ path.capacity ≤ i → path.ends.getD i 0 = ends.getD i 0

theorem scan_path_scanned (body : Str) (starts ends : List Nat) :
    Scanned body (min starts.length ends.length) (scan_path body starts ends) ∧
    Untouched body starts ends (scan_path body starts ends) := by
  unfold scan_path
  simp only
  split
  · rename_i hempty
    have hsegs : segments body = [] := if_pos hempty
    refine ⟨⟨rfl, rfl, by rw [hsegs]; rfl, ?_, fun i hi => ?_, fun i hi => ?_⟩, fun i _ => rfl, fun i _ => rfl⟩
    · rw [← all_allowed_strip, List.isEmpty_iff.mp hempty]; rfl
    · rw [hsegs] at hi; exact absurd hi (Nat.not_lt_zero i)
    · rw [hsegs] at hi; exact absurd hi (Nat.not_lt_zero i)
  · rename_i hne
    have hsegs : segments body = (strip_slash body).splitOn SLASH := if_neg hne
    let s0 : Scan := ⟨starts, ends, 0, 0, true⟩
    obtain ⟨h1, h2, h3, h4⟩ := scan_from_eq (min starts.length ends.length) (base body) (strip_slash body) 0 s0
    obtain ⟨hkeep, hget⟩ := write_spans_getD (s := s0) (base body) (spans_from 0 0 ((strip_slash body).splitOn SLASH))
      (Nat.min_le_left starts.length ends.length) (Nat.min_le_right starts.length ends.length)
    have hscan : scan_from (min starts.length ends.length) (base body) (strip_slash body) 0 s0 =
        ((strip_slash body).zipIdx.foldl (scan_byte (min starts.length ends.length) (base body)) s0).write
          (min starts.length ends.length) (base body) (strip_slash body).length := by
      unfold scan_from
      rw [Nat.zero_add]
    rw [hscan] at h1 h2 h3 h4
    rw [spans_from_self] at h1 h2 hget hkeep
    rw [← hsegs] at h1 h2 h3 hget hkeep
    have hcount : ∀ i, s0.count + i = i := fun i => Nat.zero_add i
    have hwritten : ∀ i, i < (segments body).length → i < min starts.length ends.length → _ := fun i hi hc =>
      hget i (by rw [spans_length]; exact hi) (by rw [hcount]; exact hc)
    have hleft : ∀ i, (segments body).length ≤ i ∨ min starts.length ends.length ≤ i → _ := fun i hi =>
      hkeep i (.inr (by rw [hcount, spans_length]; exact hi))
    refine ⟨⟨rfl, rfl, ?_, ?_, fun i hi hc => ?_, fun i hi hc => ?_⟩, fun i hi => ?_, fun i hi => ?_⟩
    · exact h3.trans (Nat.zero_add _)
    · rw [← all_allowed_strip]
      exact h4.trans (Bool.true_and _)
    · have hstart := (hwritten i hi hc).1
      rw [hcount, ← h1] at hstart
      rw [span_eq hi]
      exact hstart
    · have hend := (hwritten i hi hc).2
      rw [hcount, ← h2] at hend
      rw [span_eq hi]
      exact hend
    · have hstart := (hleft i hi).1
      rw [← h1] at hstart
      exact hstart
    · have hend := (hleft i hi).2
      rw [← h2] at hend
      exact hend

theorem scan_scanned (body : Str) (cap : Nat) : Scanned body cap (RawResolver.scan body cap) := by
  have h := (scan_path_scanned body (replicate cap 0) (replicate cap 0)).1
  rwa [length_replicate, Nat.min_self] at h

/-! ## Segments are what lies between the offsets -/

theorem drop_base (body : Str) : body.drop (base body) = strip_slash body ∧ base body ≤ body.length := by
  unfold base
  cases body with
  | nil => exact ⟨rfl, Nat.le_refl _⟩
  | cons b body =>
    simp only [strip_slash]
    split
    · simp
    · simp

variable {k : Nat}

theorem drop_next {whole s s' : Str} {ss : List Str} {n : Nat} (h : whole.drop n = [SLASH].intercalate (s :: s' :: ss)) :
    whole.drop (n + s.length + 1) = [SLASH].intercalate (s' :: ss) := by
  rw [Nat.add_assoc, ← drop_drop, h, intercalate_cons_cons, append_assoc, drop_append, drop_eq_nil_of_le (Nat.le_succ _)]
  simp

theorem slice_spans {whole : Str} {n : Nat} (h : whole.drop n = [SLASH].intercalate segs)
    (hk : k < segs.length) :
    slice whole ((spans n segs).getD k (0, 0)).1 ((spans n segs).getD k (0, 0)).2 = segs.getD k [] ∧
    whole.drop ((spans n segs).getD k (0, 0)).1 = [SLASH].intercalate (segs.drop k) := by
  induction segs generalizing n k with
  | nil => exact absurd hk (Nat.not_lt_zero k)
  | cons s ss ih =>
    cases k with
    | zero =>
      refine ⟨?_, h⟩
      simp only [spans, getD_cons_zero, slice]
      rw [drop_take, h, Nat.add_sub_cancel_left]
      cases ss with
      | nil => simp
      | cons s' ss => rw [intercalate_cons_cons, append_assoc, take_left]
    | succ k =>
      have hk' : k < ss.length := Nat.lt_of_succ_lt_succ hk
      obtain ⟨s', ss', rfl⟩ := exists_cons_of_length_pos (Nat.lt_of_le_of_lt (Nat.zero_le k) hk')
      exact ih (drop_next h) hk'

theorem segments_spec (body : Str) (hne : segments body ≠ []) : body.drop (base body) = [SLASH].intercalate (segments body) := by
  have hns : ¬ (strip_slash body).isEmpty = true := fun h => hne (if_pos h)
  have hsegs : segments body = (strip_slash body).splitOn SLASH := if_neg hns
  rw [(drop_base body).1, hsegs, intercalate_splitOn]

theorem slice_span (hk : k < (segments body).length) :
    slice body (span body k).1 (span body k).2 = (segments body).getD k [] ∧
    body.drop (span body k).1 = [SLASH].intercalate ((segments body).drop k) := by
  refine slice_spans (segments_spec body ?_) hk
  intro h
  rw [h] at hk
  exact Nat.not_lt_zero k hk

/-- A segment starts at the start of the text or after a slash, and ends before one or at the end. -/
structure Delimited (whole : Str) (seg : Str) (start stop : Nat) : Prop where
  before : start = 0 ∨ whole[start - 1]? = some SLASH
  after : stop = whole.length ∨ whole[stop]? = some SLASH
  length : stop = start + seg.length
  text : ∀ j < seg.length, whole[start + j]? = seg[j]?

theorem delimited_spans {whole : Str} {n : Nat} (h : whole.drop n = [SLASH].intercalate segs)
    (hn : n = 0 ∨ whole[n - 1]? = some SLASH) (hle : n ≤ whole.length) (hk : k < segs.length) :
    Delimited whole (segs.getD k []) ((spans n segs).getD k (0, 0)).1 ((spans n segs).getD k (0, 0)).2 := by
  have hget : ∀ i, whole[n + i]? = ([SLASH].intercalate segs)[i]? := fun i => by rw [← h, getElem?_drop]
  induction segs generalizing n k with
  | nil => exact absurd hk (Nat.not_lt_zero k)
  | cons s ss ih =>
    have htext : ∀ j < s.length, whole[n + j]? = s[j]? := by
      intro j hj
      rw [hget]
      cases ss with
      | nil => simp
      | cons s' ss => rw [intercalate_cons_cons, append_assoc, getElem?_append_left hj]
    cases ss with
    | nil =>
      obtain rfl : k = 0 := by simpa using hk
      refine ⟨hn, .inl ?_, rfl, htext⟩
      have := congrArg List.length h
      simp only [intercalate_singleton, length_drop] at this
      simp only [spans, getD_cons_zero]
      omega
    | cons s' ss =>
      have hslash : whole[n + s.length]? = some SLASH := by
        rw [hget, intercalate_cons_cons, append_assoc, getElem?_append_right (Nat.le_refl _), Nat.sub_self]
        rfl
      cases k with
      | zero => exact ⟨hn, .inr hslash, rfl, htext⟩
      | succ k =>
        have hnext := drop_next h
        have hlt := (List.getElem?_eq_some_iff.mp hslash).1
        exact ih hnext (.inr hslash) hlt (Nat.lt_of_succ_lt_succ hk) (fun i => by rw [← hnext, getElem?_drop])

theorem base_before (body : Str) : base body = 0 ∨ body[base body - 1]? = some SLASH := by
  unfold base
  cases body with
  | nil => exact .inl rfl
  | cons b body =>
    simp only [strip_slash]
    split
    · rename_i hb
      exact .inr (by simp [hb])
    · exact .inl (by simp)

theorem delimited_span (hk : k < (segments body).length) :
    Delimited body ((segments body).getD k []) (span body k).1 (span body k).2 := by
  refine delimited_spans (segments_spec body ?_) (base_before body) (drop_base body).2 hk
  intro h
  rw [h] at hk
  exact Nat.not_lt_zero k hk

theorem Scanned.segment_eq {path : ScannedPath} (h : Scanned body cap path) (i : Nat) :
    path.segment i = if i < cap then (segments body)[i]? else none := by
  unfold ScannedPath.segment
  rw [h.count_eq, h.capacity_eq]
  by_cases hc : i < cap
  · by_cases hi : i < (segments body).length
    · rw [if_neg (by omega), if_pos hc, h.body_eq, h.starts_eq i hi hc, h.ends_eq i hi hc, (slice_span hi).1,
        getD_eq_getElem?_getD, getElem?_eq_getElem hi, Option.getD_some]
    · rw [if_pos (by omega), if_pos hc, getElem?_eq_none (Nat.not_lt.mp hi)]
  · rw [if_pos (by omega), if_neg hc]

end Routing
