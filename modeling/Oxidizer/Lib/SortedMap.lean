import Mathlib
/-!
# Maps as lists in key order

An ordered map is a list of entries with strictly rising keys. `upsert` is
the entry operation of such a map: it changes the value under a key, or a
default value if the key is new, and puts it in its place.
-/

namespace Lib.SortedMap

open List

variable {κ α : Type} [Ord κ]

/-- Change the value under a key, starting from `init` if there is none. -/
def upsert (init : α) (key : κ) (f : α → α) : List (κ × α) → List (κ × α)
  | [] => [(key, f init)]
  | (k, v) :: entries =>
    match compare key k with
    | .lt => (key, f init) :: (k, v) :: entries
    | .eq => (k, f v) :: entries
    | .gt => (k, v) :: upsert init key f entries

def Sorted (entries : List (κ × α)) : Prop := entries.Pairwise fun a b => compare a.1 b.1 = .lt

omit [Ord κ] in
theorem mem_of_lookup [BEq κ] [LawfulBEq κ] {entries : List (κ × α)} {k : κ} {v : α} (h : entries.lookup k = some v) :
    (k, v) ∈ entries := by
  obtain ⟨front, back, rfl, -⟩ := lookup_eq_some_iff.mp h
  exact mem_append_right _ mem_cons_self

omit [Ord κ] in
theorem lookup_of_mem [BEq κ] [LawfulBEq κ] {entries : List (κ × α)} (h : (entries.map Prod.fst).Nodup) {k : κ} {v : α}
    (hm : (k, v) ∈ entries) : entries.lookup k = some v := by
  obtain ⟨front, back, rfl⟩ := append_of_mem hm
  refine lookup_eq_some_iff.mpr ⟨front, back, rfl, fun e he => bne_iff_ne.mpr ?_⟩
  rintro rfl
  rw [map_append, nodup_append] at h
  exact h.2.2 e.1 (mem_map_of_mem he) e.1 mem_cons_self rfl

omit [Ord κ] in
theorem lookup_perm [BEq κ] [LawfulBEq κ] {entries others : List (κ × α)} (hperm : entries.Perm others)
    (h : (entries.map Prod.fst).Nodup) (k : κ) : entries.lookup k = others.lookup k := by
  refine Option.ext fun v => ⟨fun hv => ?_, fun hv => ?_⟩
  · exact lookup_of_mem ((hperm.map Prod.fst).nodup_iff.mp h) (hperm.mem_iff.mp (mem_of_lookup hv))
  · exact lookup_of_mem h (hperm.mem_iff.mpr (mem_of_lookup hv))

section
variable [Std.LawfulEqOrd κ] {init : α} {key : κ} {f : α → α} {entries : List (κ × α)}

theorem mem_upsert {e : κ × α} (h : e ∈ upsert init key f entries) :
    e ∈ entries ∨ e = (key, f init) ∨ ∃ v, (key, v) ∈ entries ∧ e = (key, f v) := by
  induction entries with
  | nil => exact .inr (.inl (mem_singleton.mp h))
  | cons p entries ih =>
    obtain ⟨k, v⟩ := p
    unfold upsert at h
    cases hc : compare key k with
    | lt =>
      rw [hc] at h
      rcases mem_cons.mp h with rfl | h
      · exact .inr (.inl rfl)
      · exact .inl h
    | eq =>
      rw [hc] at h
      cases Std.LawfulEqOrd.eq_of_compare hc
      rcases mem_cons.mp h with rfl | h
      · exact .inr (.inr ⟨v, mem_cons_self, rfl⟩)
      · exact .inl (mem_cons_of_mem _ h)
    | gt =>
      rw [hc] at h
      rcases mem_cons.mp h with rfl | h
      · exact .inl mem_cons_self
      · rcases ih h with h | h | ⟨w, hw, rfl⟩
        · exact .inl (mem_cons_of_mem _ h)
        · exact .inr (.inl h)
        · exact .inr (.inr ⟨w, mem_cons_of_mem _ hw, rfl⟩)

theorem lookup_upsert_ne [BEq κ] [LawfulBEq κ] {k : κ} (hk : k ≠ key) :
    (upsert init key f entries).lookup k = entries.lookup k := by
  have hbeq : (k == key) = false := beq_eq_false_iff_ne.mpr hk
  induction entries with
  | nil => simp [upsert, List.lookup, hbeq]
  | cons p entries ih =>
    obtain ⟨k', v⟩ := p
    unfold upsert
    cases hc : compare key k' with
    | lt => simp [List.lookup, hbeq]
    | eq =>
      cases Std.LawfulEqOrd.eq_of_compare hc
      simp [List.lookup, hbeq]
    | gt => simp only [List.lookup, ih]

theorem ne_of_compare_lt {a b : κ} (h : compare a b = .lt) : a ≠ b := by
  rintro rfl
  have hself : compare a a = .eq := Std.ReflCmp.compare_self
  rw [hself] at h
  cases h

theorem Sorted.nodup (h : Sorted entries) : (entries.map Prod.fst).Nodup :=
  pairwise_map.mpr (h.imp fun hlt => ne_of_compare_lt hlt)

variable [Std.TransOrd κ]

theorem sorted_upsert (h : Sorted entries) : Sorted (upsert init key f entries) := by
  induction entries with
  | nil => exact pairwise_singleton _ _
  | cons p entries ih =>
    obtain ⟨k, v⟩ := p
    obtain ⟨hhead, htail⟩ := pairwise_cons.mp h
    unfold upsert
    cases hc : compare key k with
    | lt =>
      refine pairwise_cons.mpr ⟨fun e he => ?_, h⟩
      rcases mem_cons.mp he with rfl | he
      · exact hc
      · exact Std.TransCmp.lt_trans hc (hhead e he)
    | eq => exact pairwise_cons.mpr ⟨hhead, htail⟩
    | gt =>
      refine pairwise_cons.mpr ⟨fun e he => ?_, ih htail⟩
      rcases mem_upsert he with he | rfl | ⟨w, -, rfl⟩
      · exact hhead e he
      · exact Std.OrientedCmp.lt_of_gt hc
      · exact Std.OrientedCmp.lt_of_gt hc

theorem lookup_upsert_self [BEq κ] [LawfulBEq κ] (h : Sorted entries) :
    (upsert init key f entries).lookup key = some (f ((entries.lookup key).getD init)) := by
  induction entries with
  | nil => simp [upsert, List.lookup]
  | cons p entries ih =>
    obtain ⟨k, v⟩ := p
    obtain ⟨hhead, htail⟩ := pairwise_cons.mp h
    unfold upsert
    cases hc : compare key k with
    | lt =>
      -- every key of the list is above the new one
      have hnone : ((k, v) :: entries).lookup key = none := by
        refine lookup_eq_none_iff.mpr fun e he => bne_iff_ne.mpr (ne_of_compare_lt ?_)
        rcases mem_cons.mp he with rfl | he
        · exact hc
        · exact Std.TransCmp.lt_trans hc (hhead e he)
      rw [hnone]
      simp [List.lookup]
    | eq =>
      cases Std.LawfulEqOrd.eq_of_compare hc
      simp [List.lookup]
    | gt =>
      have hne : key ≠ k := (ne_of_compare_lt (Std.OrientedCmp.lt_of_gt hc)).symm
      simp only [List.lookup, beq_eq_false_iff_ne.mpr hne]
      exact ih htail

end

end Lib.SortedMap
