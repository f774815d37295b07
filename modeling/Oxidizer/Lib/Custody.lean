import Mathlib
/-!
# Tokens and their places

Each place holds a token or none. In custody, every issued token is in exactly
one place, and there are no others. A token that moves from a place to one that
was empty stays in custody, and so do all others.
-/

namespace Lib

variable {P T : Type} {content content' : P → Option T} {issued issued' : T → Prop}

structure Custody (content : P → Option T) (issued : T → Prop) : Prop where
  once : ∀ n, issued n → ∃! place, content place = some n
  genuine : ∀ place n, content place = some n → issued n

namespace Custody

variable (h : Custody content issued)
include h

theorem congr (hc : ∀ place, content' place = content place)
    (hi : ∀ n, issued' n ↔ issued n) : Custody content' issued' := by
  refine ⟨fun n hn => ?_, fun place n hn => (hi n).mpr (h.genuine place n (hc place ▸ hn))⟩
  simpa only [hc] using h.once n ((hi n).mp hn)

theorem unique {a b : P} {n : T} (ha : content a = some n) (hb : content b = some n) : a = b :=
  (h.once n (h.genuine a n ha)).unique ha hb

theorem moves [DecidableEq P] {a b : P} (hab : a ≠ b) (hb : content b = none)
    (hc : ∀ place, content' place = if place = a then none else if place = b then content a else content place)
    (hi : ∀ n, issued' n ↔ issued n) : Custody content' issued' := by
  have hback : ∀ place n, content' place = some n →
      place = b ∧ content a = some n ∨ place ≠ a ∧ place ≠ b ∧ content place = some n := by
    intro place n hn
    rw [hc] at hn
    by_cases hpa : place = a
    · rw [if_pos hpa] at hn
      cases hn
    · rw [if_neg hpa] at hn
      by_cases hpb : place = b
      · rw [if_pos hpb] at hn
        exact .inl ⟨hpb, hn⟩
      · rw [if_neg hpb] at hn
        exact .inr ⟨hpa, hpb, hn⟩
  refine ⟨fun n hn => ?_, fun place n hn => (hi n).mpr ?_⟩
  · obtain ⟨place, hplace, huniq⟩ := h.once n ((hi n).mp hn)
    by_cases hpa : place = a
    · subst hpa
      have hthere : content' b = some n := by
        rw [hc, if_neg (Ne.symm hab), if_pos rfl]
        exact hplace
      refine ⟨b, hthere, fun other hother => ?_⟩
      rcases hback other n hother with ⟨h, -⟩ | ⟨hne, -, hold⟩
      · exact h
      · exact absurd (huniq other hold) hne
    · have hpb : place ≠ b := by
        rintro rfl
        simp [hb] at hplace
      have hthere : content' place = some n := by
        rw [hc, if_neg hpa, if_neg hpb]
        exact hplace
      refine ⟨place, hthere, fun other hother => ?_⟩
      rcases hback other n hother with ⟨-, hold⟩ | ⟨-, -, hold⟩
      · exact absurd (huniq a hold).symm hpa
      · exact huniq other hold
  · rcases hback place n hn with ⟨-, hold⟩ | ⟨-, -, hold⟩
    · exact h.genuine a n hold
    · exact h.genuine place n hold

theorem issue [DecidableEq P] {a : P} {n : T} (ha : content a = none) (hn : ¬issued n)
    (hc : ∀ place, content' place = if place = a then some n else content place)
    (hi : ∀ m, issued' m ↔ issued m ∨ m = n) : Custody content' issued' := by
  refine ⟨fun m hm => ?_, fun place m hm => (hi m).mpr ?_⟩
  · by_cases hmn : m = n
    · subst hmn
      have hthere : content' a = some m := by rw [hc, if_pos rfl]
      refine ⟨a, hthere, fun other hother => ?_⟩
      by_cases hne : other = a
      · exact hne
      · have hold : content' other = some m := hother
        rw [hc, if_neg hne] at hold
        exact absurd (h.genuine other m hold) hn
    · obtain ⟨place, hplace, huniq⟩ := h.once m (((hi m).mp hm).resolve_right hmn)
      have hpa : place ≠ a := by
        rintro rfl
        simp [ha] at hplace
      have hthere : content' place = some m := by
        rw [hc, if_neg hpa]
        exact hplace
      refine ⟨place, hthere, fun other hother => ?_⟩
      have hother' : content' other = some m := hother
      rw [hc] at hother'
      split at hother'
      · exact absurd (Option.some.inj hother').symm hmn
      · exact huniq other hother'
  · rw [hc] at hm
    split at hm
    · exact .inr (Option.some.inj hm).symm
    · exact .inl (h.genuine place m hm)

end Custody

end Lib
