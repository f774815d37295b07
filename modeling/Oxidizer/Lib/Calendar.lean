import Mathlib
/-!
# The Gregorian calendar, day by day

A date is followed by the next one; day `n` is what stands `n` days after the
first of January 1970. `Date.days` counts the days in closed form, and a date
is the one of day `n` exactly when its count is `n`.
-/

namespace Lib

structure Date where
  year : Nat
  month : Nat
  day : Nat

/-- A multiple of four, unless it is one of a hundred and not of four hundred. -/
def leap (year : Nat) : Bool := year % 4 = 0 ∧ (year % 100 ≠ 0 ∨ year % 400 = 0)

def days_in_month (year month : Nat) : Nat :=
  if month = 2 then 28 + (leap year).toNat
  else if month = 4 ∨ month = 6 ∨ month = 9 ∨ month = 11 then 30 else 31

def Date.next (d : Date) : Date :=
  if d.day < days_in_month d.year d.month then { d with day := d.day + 1 }
  else if d.month < 12 then ⟨d.year, d.month + 1, 1⟩
  else ⟨d.year + 1, 1, 1⟩

/-- The date `n` days after 1970-01-01. -/
def date : Nat → Date
  | 0 => ⟨1970, 1, 1⟩
  | n + 1 => (date n).next

structure Date.Valid (d : Date) : Prop where
  since : 1970 ≤ d.year
  month : 1 ≤ d.month ∧ d.month ≤ 12
  day : 1 ≤ d.day ∧ d.day ≤ days_in_month d.year d.month

/-- Days from 1970-01-01 to the first of January. -/
def year_start (year : Nat) : Nat :=
  (year - 1970) * 365 + ((year - 1969) / 4 - (year - 1901) / 100 + (year - 1601) / 400)

def month_start (year month : Nat) : Nat :=
  [0, 31, 59, 90, 120, 151, 181, 212, 243, 273, 304, 334].getD (month - 1) 0 +
    (leap year && decide (2 < month)).toNat

def Date.days (d : Date) : Nat := year_start d.year + month_start d.year d.month + (d.day - 1)

variable (year : Nat) {month month' : Nat}

variable {year} in
theorem year_start_succ (h : 1970 ≤ year) :
    year_start (year + 1) = year_start year + 365 + (leap year).toNat := by
  unfold year_start leap
  by_cases hleap : year % 4 = 0 ∧ (year % 100 ≠ 0 ∨ year % 400 = 0)
  · rw [decide_eq_true hleap, Bool.toNat_true]
    omega
  · rw [decide_eq_false hleap, Bool.toNat_false]
    omega

theorem month_start_succ (h : 1 ≤ month) (h' : month < 12) :
    month_start year (month + 1) = month_start year month + days_in_month year month := by
  unfold month_start days_in_month
  cases leap year <;> interval_cases month <;> rfl

theorem month_start_twelve :
    month_start year 12 + days_in_month year 12 = 365 + (leap year).toNat := by
  unfold month_start days_in_month
  cases leap year <;> rfl

variable {d : Date}

theorem days_next (h : d.Valid) : d.next.Valid ∧ d.next.days = d.days + 1 := by
  obtain ⟨year, month, day⟩ := d
  obtain ⟨hy, hm, hd⟩ := h
  simp only at hy hm hd
  unfold Date.next
  split
  · exact ⟨⟨hy, hm, by simp only at *; omega⟩, by simp only [Date.days]; omega⟩
  · have hlast : day = days_in_month year month := by simp only at *; omega
    split
    · next hlt =>
      have hstart := month_start_succ year hm.1 hlt
      refine ⟨⟨hy, ⟨by simp, hlt⟩, ⟨le_rfl, ?_⟩⟩, by simp only [Date.days]; omega⟩
      unfold days_in_month
      simp only
      split <;> try split
      all_goals omega
    · have hdec : month = 12 := by simp only at *; omega
      subst hdec
      have hyear := year_start_succ hy
      have hstart := month_start_twelve year
      refine ⟨⟨by simp only; omega, by simp, by simp [days_in_month]⟩, ?_⟩
      have hjan : month_start (year + 1) 1 = 0 := by simp [month_start]
      simp only [Date.days, hjan]
      omega

theorem date_valid (n : Nat) : (date n).Valid ∧ (date n).days = n := by
  induction n with
  | zero => exact ⟨⟨by decide, by decide, by decide⟩, by decide⟩
  | succ n ih =>
    obtain ⟨hvalid, hdays⟩ := days_next ih.1
    exact ⟨hvalid, by rw [date, hdays, ih.2]⟩

theorem year_start_mono {y y' : Nat} (h : 1970 ≤ y) (h' : y < y') :
    year_start y + 365 + (leap y).toNat ≤ year_start y' := by
  induction y', h' using Nat.le_induction with
  | base => rw [year_start_succ h]
  | succ z hz ih =>
    rw [year_start_succ (by omega)]
    omega

theorem month_start_mono (h : 1 ≤ month) (hlt : month < month') (h' : month' ≤ 12) :
    month_start year month + days_in_month year month ≤ month_start year month' := by
  induction month', hlt using Nat.le_induction with
  | base => rw [month_start_succ year h (by omega)]
  | succ k hk ih =>
    rw [month_start_succ year (by omega) (by omega)]
    omega

theorem Date.Valid.days_lt (h : d.Valid) :
    d.days < year_start d.year + 365 + (leap d.year).toNat := by
  have hend : month_start d.year d.month + days_in_month d.year d.month ≤ 365 + (leap d.year).toNat := by
    rw [← month_start_twelve]
    rcases Nat.lt_or_eq_of_le h.month.2 with hlt | heq
    · have := month_start_mono d.year h.month.1 hlt le_rfl
      omega
    · rw [heq]
  have := h.day
  unfold Date.days
  omega

theorem days_injective {d' : Date} (h : d.Valid) (h' : d'.Valid) (he : d.days = d'.days) : d = d' := by
  have hyear : d.year = d'.year := by
    by_contra hne
    have := h.days_lt
    have := h'.days_lt
    unfold Date.days at *
    rcases Nat.lt_or_gt_of_ne hne with hlt | hlt
    · have := year_start_mono h.since hlt
      omega
    · have := year_start_mono h'.since hlt
      omega
  obtain ⟨y, m, k⟩ := d
  obtain ⟨y', m', k'⟩ := d'
  obtain rfl : y = y' := hyear
  obtain ⟨-, hm, hk⟩ := h
  obtain ⟨-, hm', hk'⟩ := h'
  simp only [Date.days] at *
  have hmonth : m = m' := by
    by_contra hne
    rcases Nat.lt_or_gt_of_ne hne with hlt | hlt
    · have := month_start_mono y hm.1 hlt hm'.2
      omega
    · have := month_start_mono y hm'.1 hlt hm.2
      omega
  subst hmonth
  obtain rfl : k = k' := by omega
  rfl

theorem date_eq_iff {n : Nat} : date n = d ↔ d.Valid ∧ d.days = n := by
  constructor
  · rintro rfl
    exact date_valid n
  · rintro ⟨hvalid, rfl⟩
    exact days_injective (date_valid _).1 hvalid (date_valid _).2

theorem date_year_lt {n year : Nat} (h : 1970 ≤ year) : (date n).year < year ↔ n < year_start year := by
  obtain ⟨hvalid, hdays⟩ := date_valid n
  constructor
  · intro hlt
    have := hvalid.days_lt
    have := year_start_mono hvalid.since hlt
    omega
  · intro hlt
    by_contra hge
    rcases Nat.lt_or_eq_of_le (Nat.le_of_not_lt hge) with hgt | heq
    · have := year_start_mono h hgt
      unfold Date.days at hdays
      omega
    · rw [heq] at hlt
      unfold Date.days at hdays
      omega

end Lib
