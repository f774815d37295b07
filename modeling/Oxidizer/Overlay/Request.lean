import Oxidizer.Overlay.Merge
/-!
# Decoding a request

`decode_request` picks one of the ways to read a message: directly where body
and query need no merge, or over one of the two overlays. The message's own
deserializer is a parameter: it is given a JSON value of the body, or the
entries of a map access. The parser reads the text of a body before the
deserializer sees any of it.
-/

namespace Overlay

open Lib (usizeMax)
open Routing (Str DOT SLASH)

inductive RequestBodyKind where
  | none
  | whole
  | field (field : Str)

def MAX_QUERY_PAIRS : Nat := 128
def MAX_QUERY_KEY_BYTES : Nat := 4096
def MAX_QUERY_BYTES : Nat := 16 * 1024

def saturating_add (a b : Nat) : Nat := min (a + b) usizeMax

def validate_pairs (key_bytes total_bytes : Nat) : List (Str × Str) → Except TranscodeError Unit
  | [] => return ()
  | (key, value) :: query =>
    let key_bytes := saturating_add key_bytes key.length
    if key_bytes > MAX_QUERY_KEY_BYTES then
      throw (.structure "query exceeds the parameter count or field-name size limit")
    else
      let total_bytes := saturating_add (saturating_add total_bytes key.length) value.length
      if total_bytes > MAX_QUERY_BYTES then throw (.structure "query exceeds the request query size limit")
      else validate_pairs key_bytes total_bytes query

def validate_query_budget (query : List (Str × Str)) : Except TranscodeError Unit :=
  if query.length > MAX_QUERY_PAIRS then throw (.structure "query exceeds the parameter count or field-name size limit")
  else validate_pairs 0 0 query

def all_flat (query : List (Str × Str)) : Bool := query.all fun pair => !pair.1.contains DOT

/-- What the deserializer of a message reads from. -/
inductive Input where
  | value (value : RawValue)
  | map (entries : Entries)

section

variable {T : Type} (from_slice : Str → Except String RawValue) (deserialize : Input → Except String T)

/-- `T::deserialize`, with `TranscodeError::deserialize` for its error. -/
def deserialized (input : Input) : Except TranscodeError T :=
  match deserialize input with
  | .ok message => return message
  | .error detail => throw ⟨.deserialize, detail⟩

/-- What `FieldDeserializer` presents: the body is parsed when its value is asked for. -/
def field_entries (field body : Str) : Entries :=
  match from_slice body with
  | .ok value => [(field, .raw value)]
  | .error detail => [(field, .error (.custom detail))]

def try_decode_fast (body_kind : RequestBodyKind) (query : List (Str × Str)) (body : Str) : Option (Except TranscodeError T) :=
  match body_kind with
  | .none => if query.isEmpty then some (deserialized deserialize (.map [])) else none
  | .whole =>
    if query.isEmpty ∧ ¬ body.isEmpty then
      match from_slice body with
      | .ok value => some (deserialized deserialize (.value value))
      | .error detail => some (throw ⟨.body, detail⟩)
    else none
  | .field field =>
    if query.isEmpty ∧ ¬ body.isEmpty then some (deserialized deserialize (.map (field_entries from_slice field body)))
    else none

/-- The overlay of a body that is the message, or of none. -/
def decode_overlay (whole_body : Option Str) (query : List (Str × Str)) : Except TranscodeError Entries :=
  if all_flat query ∧ ¬ query.any fun pair => needs_decoding pair.1 true then decode_flat from_slice whole_body query
  else decode_tree from_slice whole_body query

def try_decode_overlay (body_kind : RequestBodyKind) (query : List (Str × Str)) (body : Str) :
    Option (Except TranscodeError T) :=
  match body_kind with
  | .none => some (decode_overlay from_slice none query >>= fun entries => deserialized deserialize (.map entries))
  | .whole => some (decode_overlay from_slice (some body) query >>= fun entries => deserialized deserialize (.map entries))
  | .field field =>
    if query.isEmpty then none
    else if body.isEmpty then some (decode_tree_entries [] query >>= fun entries => deserialized deserialize (.map entries))
    else match from_slice body with
      | .error detail => some (throw ⟨.body, detail⟩)
      | .ok raw => some (decode_tree_entries [(field, raw)] query >>= fun entries => deserialized deserialize (.map entries))

def decode_request (query : List (Str × Str)) (body : Str) (body_kind : RequestBodyKind) : Except TranscodeError T := do
  validate_query_budget query
  match try_decode_fast from_slice deserialize body_kind query body with
  | some result => result
  | none =>
    match try_decode_overlay from_slice deserialize body_kind query body with
    | some result => result
    | none =>
      -- `from_slice(b"{}")`
      match from_slice [123, 125] with
      | .ok value => deserialized deserialize (.value value)
      | .error detail => throw ⟨.deserialize, detail⟩

/-! ## Where duplicate fields are found -/

theorem visit_fields_nodup {overrides : Option (List Str)} {seen : List Str} {fields entries : Fields}
    (h : visit_fields overrides seen fields = .ok entries) :
    (names fields).Nodup ∧ ∀ name ∈ names fields, name ∉ seen := by
  induction fields generalizing seen entries with
  | nil => exact ⟨List.nodup_nil, by simp [names]⟩
  | cons field fields ih =>
    obtain ⟨key, value⟩ := field
    rw [visit_fields] at h
    split at h
    · cases h
    · next hnot =>
      cases hrest : visit_fields overrides (normalized_key key :: seen) fields with
      | error error =>
        rw [hrest] at h
        cases h
      | ok rest =>
        obtain ⟨hnodup, hfresh⟩ := ih hrest
        constructor
        · apply names_nodup_cons.mpr
          exact ⟨fun hin => hfresh _ hin List.mem_cons_self, hnodup⟩
        · intro name hname
          rcases List.mem_cons.mp hname with rfl | hname
          · simpa using hnot
          · exact fun hin => hfresh name hname (List.mem_cons_of_mem _ hin)

variable {from_slice deserialize} {body : Str} {fields : Fields}

theorem body_entries_duplicate (hbody : body ≠ []) (hparse : from_slice body = .ok (.object fields))
    (hdup : ¬ (names fields).Nodup) (overrides : Option (List Str)) :
    body_entries from_slice overrides (some body) = .error (.structure "request body contains a duplicate field") := by
  have hempty : body.isEmpty = false := by simpa using hbody
  cases hvisit : visit_fields overrides [] fields with
  | ok entries => exact absurd (visit_fields_nodup hvisit).1 hdup
  | error error =>
    simp only [body_entries, hempty, parse_body, hparse, body_top, hvisit, classify_body_error]
    rfl

theorem decode_overlay_duplicate (hbody : body ≠ []) (hparse : from_slice body = .ok (.object fields))
    (hdup : ¬ (names fields).Nodup) (query : List (Str × Str)) :
    ∃ error, decode_overlay from_slice (some body) query = .error error := by
  unfold decode_overlay
  split
  · rw [decode_flat]
    cases group_flat_query query with
    | error error => exact ⟨error, rfl⟩
    | ok grouped =>
      refine ⟨.structure "request body contains a duplicate field", ?_⟩
      simp only [bind, Except.bind, body_entries_duplicate hbody hparse hdup]
  · rw [decode_tree, body_entries_duplicate hbody hparse hdup]
    exact ⟨_, rfl⟩

/-- With a query laid over it, a body that names a field twice is refused, whatever the message. For a message that takes
the object it is refused only then. -/
theorem duplicate_field_rejected (from_slice : Str → Except String RawValue) (deserialize : Input → Except String T)
    (body : Str) (fields : Fields) (hbody : body ≠ []) (hparse : from_slice body = .ok (.object fields))
    (hdup : ¬ (names fields).Nodup) (query : List (Str × Str)) :
    (query ≠ [] → ∃ error, decode_request from_slice deserialize query body .whole = .error error) ∧
    ((∃ message, deserialize (.value (.object fields)) = .ok message) →
      ((∃ error, decode_request from_slice deserialize query body .whole = .error error) ↔ query ≠ [])) := by
  have hrefused : query ≠ [] → ∃ error, decode_request from_slice deserialize query body .whole = .error error := by
    intro hquery
    have hempty : query.isEmpty = false := by simpa using hquery
    obtain ⟨error, herror⟩ := decode_overlay_duplicate hbody hparse hdup query
    rw [decode_request]
    cases validate_query_budget query with
    | error error => exact ⟨error, rfl⟩
    | ok =>
      refine ⟨error, ?_⟩
      simp only [try_decode_fast, hempty, try_decode_overlay, herror]
      rfl
  refine ⟨hrefused, fun ⟨message, hmessage⟩ => ⟨?_, hrefused⟩⟩
  rintro ⟨error, herror⟩ rfl
  have htaken : decode_request from_slice deserialize [] body .whole = .ok message := by
    simp [decode_request, validate_query_budget, validate_pairs, try_decode_fast, hbody, hparse, deserialized, hmessage]
    rfl
  exact nomatch herror.symm.trans htaken

/-- The body `{"a":1,"a":2}` for a message that takes any object, under the query `b=1` and under none. -/
theorem duplicate_field_rejected_any :
    let body : Str := [123, 34, 97, 34, 58, 49, 44, 34, 97, 34, 58, 50, 125]
    let from_slice : Str → Except String RawValue := fun text =>
      if text = body then .ok (.object [([97], .other [49]), ([97], .other [50])]) else .error "expected value"
    (∃ error, decode_request from_slice (.ok : Input → Except String Input) [([98], [49])] body .whole = .error error) ∧
      ¬ ∃ error, decode_request from_slice (.ok : Input → Except String Input) [] body .whole = .error error := by
  intro body from_slice
  have h := duplicate_field_rejected from_slice (.ok : Input → Except String Input) body
    [([97], .other [49]), ([97], .other [50])] (by decide) rfl (by decide)
  exact ⟨(h [([98], [49])]).1 (by decide), fun herror => ((h []).2 ⟨_, rfl⟩).mp herror rfl⟩

/-- Without a query the body goes to the message's deserializer, which sees both fields: one that takes any object
takes `{"a":1,"a":2}`. -/
theorem duplicate_field_accepted :
    let body : Str := [123, 34, 97, 34, 58, 49, 44, 34, 97, 34, 58, 50, 125]
    let fields : Fields := [([97], .other [49]), ([97], .other [50])]
    let from_slice : Str → Except String RawValue := fun text =>
      if text = body then .ok (.object fields) else .error "expected value"
    from_slice body = .ok (.object fields) ∧ ¬ (names fields).Nodup ∧
      decode_request from_slice (.ok : Input → Except String Input) [] body .whole = .ok (.value (.object fields)) :=
  ⟨rfl, by decide, rfl⟩

end

end Overlay
