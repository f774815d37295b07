import Oxidizer.Lib.Calendar
import Oxidizer.Lib.Checked
/-!
# `IMF-fixdate`

`parse_imf_fixdate` of `headers/conditional/shared.rs`, with every operation of
a machine integer checked, against the text of a second in the calendar.
-/

namespace Headers.Fixdate

open Lib Lib.Checked List

def MONTH_START_DAY : List Nat := [0, 31, 59, 90, 120, 151, 181, 212, 243, 273, 304, 334]

def MONTH_LENGTH : List Nat := [31, 28, 31, 30, 31, 30, 31, 31, 30, 31, 30, 31]

/-- The array is never indexed past its 29 bytes, so the default is never read. -/
def byte (bytes : List UInt8) (i : Nat) : UInt8 := bytes.getD i 0

/-- A word is kept as the four bytes `from_le_bytes` makes it of, one to one. -/
def word_at (bytes : List UInt8) (offset : Nat) : List UInt8 :=
  [byte bytes offset, byte bytes (offset + 1), byte bytes (offset + 2), byte bytes (offset + 3)]

def ascii (text : String) : List UInt8 := text.toList.map fun c => UInt8.ofNat c.toNat

/-- `SUN` .. `SAT` -/
def WEEKDAYS : List (List UInt8) :=
  ["Sun,", "Mon,", "Tue,", "Wed,", "Thu,", "Fri,", "Sat,"].map ascii

/-- `JAN` .. `DEC` -/
def MONTHS : List (List UInt8) :=
  ["Jan ", "Feb ", "Mar ", "Apr ", "May ", "Jun ", "Jul ", "Aug ", "Sep ", "Oct ", "Nov ", "Dec "].map ascii

/-- The arms of `match word { SUN => 0, MON => 1, .. _ => return None }`. -/
def name_index (names : List (List UInt8)) (word : List UInt8) : Checked Unit Nat :=
  match names.idxOf? word with
  | some i => .ok i
  | none => .error (.fails ())

def two_digits (high low : UInt8) : Checked Unit Nat := do
  -- `wrapping_sub`
  let high := (high - 48).toNat
  let low := (low - 48).toNat
  require (high < 10 ∧ low < 10) ()
  add 8 (← mul 8 high 10) low

def leap_days (year : Nat) : Checked Unit Nat := do
  let previous_year ← sub year 1
  add 16 (← sub ((← sub previous_year 1968) / 4) ((← sub previous_year 1900) / 100))
    ((← sub previous_year 1600) / 400)

/-- The second half of `parse_imf_fixdate`, from the range checks on. -/
def instant (weekday month day hour minute second year : Nat) : Checked Unit Nat := do
  require (¬(hour > 23 ∨ minute > 59 ∨ second > 59 ∨ ¬(1970 ≤ year ∧ year ≤ 9999))) ()
  let month_index ← sub month 1
  let leap_year : Bool := year % 4 = 0 ∧ (year % 100 ≠ 0 ∨ year % 400 = 0)
  let month_length ← add 8 (← index MONTH_LENGTH month_index) (leap_year && decide (month = 2)).toNat
  require (¬(day = 0 ∨ day > month_length)) ()
  let leap_days ← leap_days year
  let year_day ←
    sub (← add 16 (← add 16 (← index MONTH_START_DAY month_index) day) (leap_year && decide (month > 2)).toNat) 1
  let days ← add 64 (← add 64 (← mul 64 (← sub year 1970) 365) leap_days) year_day
  require ((← add 64 days 4) % 7 = weekday) ()
  add 64 (← add 64 (← add 64 second (← mul 64 minute 60)) (← mul 64 hour 3600)) (← mul 64 days 86400)

def parse_imf_fixdate (bytes : List UInt8) : Checked Unit Nat := do
  require (bytes.length = 29) ()
  require (byte bytes 4 = 32 ∧ byte bytes 16 = 32 ∧ byte bytes 19 = 58) ()
  require (byte bytes 22 = 58 ∧ word_at bytes 25 = ascii " GMT") ()
  let weekday ← name_index WEEKDAYS (word_at bytes 0)
  require (byte bytes 7 = 32) ()
  let month := (← name_index MONTHS (word_at bytes 8)) + 1
  let day ← two_digits (byte bytes 5) (byte bytes 6)
  let hour ← two_digits (byte bytes 17) (byte bytes 18)
  let minute ← two_digits (byte bytes 20) (byte bytes 21)
  let second ← two_digits (byte bytes 23) (byte bytes 24)
  let century ← two_digits (byte bytes 12) (byte bytes 13)
  let year ← add 16 (← mul 16 century 100) (← two_digits (byte bytes 14) (byte bytes 15))
  instant weekday month day hour minute second year

/-! ## The text of a second -/

def digit (n : Nat) : UInt8 := UInt8.ofNat (48 + n)

def two (n : Nat) : List UInt8 := [digit (n / 10), digit (n % 10)]

/-- `Www, DD Mon YYYY HH:MM:SS GMT` -/
def render (weekday month day hour minute second year : Nat) : List UInt8 :=
  WEEKDAYS.getD weekday [] ++ 32 :: two day ++ 32 :: MONTHS.getD (month - 1) [] ++ two (year / 100) ++
    two (year % 100) ++ 32 :: two hour ++ 58 :: two minute ++ 58 :: two second ++ ascii " GMT"

/-- The text of the second `s` after 1970-01-01, a Thursday. -/
def imf_fixdate (s : Nat) : List UInt8 :=
  let d := date (s / 86400)
  render ((s / 86400 + 4) % 7) d.month d.day (s % 86400 / 3600) (s % 3600 / 60) (s % 60) d.year

/-! ## Reading the fields -/

theorem toNat_digit {n : Nat} (h : n < 10) : (digit n).toNat = 48 + n := by
  simp only [digit, UInt8.toNat_ofNat']
  omega

section
variable {high low : UInt8} {v : Nat}

theorem two_digits_eq : two_digits high low =
    if (high - 48).toNat < 10 ∧ (low - 48).toNat < 10 then .ok ((high - 48).toNat * 10 + (low - 48).toNat)
    else .error (.fails ()) := by
  simp only [two_digits]
  split
  · next h => rw [require_true h, ok_bind, mul_ok (by omega), ok_bind, add_ok (by omega)]
  · next h => rw [require_false h, error_bind]

theorem safe_two_digits : Safe (two_digits high low) := by
  rw [two_digits_eq]
  split <;> simp

theorem two_digits_ok : two_digits high low = .ok v ↔ v < 100 ∧ high = digit (v / 10) ∧ low = digit (v % 10) := by
  have hsub (x : UInt8) : (x - 48).toNat = (208 + x.toNat) % 256 := by simp [UInt8.toNat_sub]
  have hhigh := high.toNat_lt
  have hlow := low.toNat_lt
  rw [two_digits_eq, hsub, hsub, ← UInt8.toNat_inj, ← UInt8.toNat_inj]
  constructor
  · intro h
    split at h
    · injection h with h
      rw [toNat_digit (by omega), toNat_digit (by omega)]
      omega
    · cases h
  · rintro ⟨hv, h, h'⟩
    rw [toNat_digit (by omega)] at h h'
    rw [if_pos (by omega)]
    congr 1
    omega

end

section
variable {names : List (List UInt8)} {i : Nat}

theorem safe_name_index {word : List UInt8} : Safe (name_index names word) := by
  unfold name_index
  split <;> simp

theorem name_index_ok {word : List UInt8} (hnodup : names.Nodup) :
    name_index names word = .ok i ↔ names[i]? = some word := by
  have hidx : name_index names word = .ok i ↔ names.idxOf? word = some i := by
    unfold name_index
    split <;> next h => rw [h]; simp
  rw [hidx, idxOf?_eq_some_iff, List.getElem?_eq_some_iff]
  constructor
  · rintro ⟨hi, hword, -⟩
    exact ⟨hi, hword⟩
  · rintro ⟨hi, rfl⟩
    refine ⟨hi, rfl, ?_⟩
    intro j hj he
    rw [Nodup.getElem_inj_iff hnodup] at he
    omega

end

/-! ## The second they stand for -/

section
variable {weekday month day hour minute second year : Nat}

theorem month_tables (year : Nat) (h : 1 ≤ month ∧ month ≤ 12) :
    ∃ length start, MONTH_LENGTH[month - 1]? = some length ∧ MONTH_START_DAY[month - 1]? = some start ∧
      length + (leap year && decide (month = 2)).toNat = days_in_month year month ∧
      start + (leap year && decide (month > 2)).toNat = month_start year month ∧ length ≤ 31 ∧ start ≤ 334 := by
  obtain ⟨h, h'⟩ := h
  unfold days_in_month month_start
  cases leap year <;> interval_cases month <;> exact ⟨_, _, rfl, rfl, rfl, rfl, by decide, by decide⟩

theorem leap_days_ok (h : 1970 ≤ year) (h' : year ≤ 9999) :
    ∃ n, leap_days year = .ok n ∧ n ≤ 2500 ∧ (year - 1970) * 365 + n = year_start year := by
  refine ⟨(year - 1 - 1968) / 4 - (year - 1 - 1900) / 100 + (year - 1 - 1600) / 400, ?_, by omega, ?_⟩
  · rw [leap_days, sub_ok (by omega), ok_bind, sub_ok (by omega), ok_bind, sub_ok (by omega), ok_bind,
      sub_ok (by omega), ok_bind, sub_ok (by omega), ok_bind, add_ok (by omega)]
  · simp only [year_start, Nat.sub_sub]

theorem instant_eq (hmonth : 1 ≤ month ∧ month ≤ 12) (s : Nat) :
    Safe (instant weekday month day hour minute second year) ∧
    (instant weekday month day hour minute second year = .ok s ↔
      (Date.mk year month day).Valid ∧ year ≤ 9999 ∧ hour ≤ 23 ∧ minute ≤ 59 ∧ second ≤ 59 ∧
      ((Date.mk year month day).days + 4) % 7 = weekday ∧
      s = second + minute * 60 + hour * 3600 + (Date.mk year month day).days * 86400) := by
  obtain ⟨length, start, hlength, hstart, hdays, hfirst, hle, hle'⟩ := month_tables year hmonth
  have hleap (p : Prop) [Decidable p] : (leap year && decide p).toNat ≤ 1 := Bool.toNat_le _
  have hdecide : decide (year % 4 = 0 ∧ (year % 100 ≠ 0 ∨ year % 400 = 0)) = leap year := rfl
  simp only [instant, hdecide]
  by_cases hrange : ¬(hour > 23 ∨ minute > 59 ∨ second > 59 ∨ ¬(1970 ≤ year ∧ year ≤ 9999))
  swap
  · rw [require_false hrange, error_bind]
    refine ⟨safe_fails _, nofun, ?_⟩
    rintro ⟨hvalid, h⟩
    have := hvalid.since
    simp only at this
    omega
  have hone := hleap (month = 2)
  rw [require_true hrange, ok_bind, sub_ok hmonth.1, ok_bind, index_ok hlength, ok_bind, add_ok (by omega), ok_bind, hdays]
  by_cases hday : ¬(day = 0 ∨ day > days_in_month year month)
  swap
  · rw [require_false hday, error_bind]
    refine ⟨safe_fails _, nofun, ?_⟩
    rintro ⟨hvalid, h⟩
    have := hvalid.day
    simp only at this
    omega
  have hvalid : (Date.mk year month day).Valid := ⟨by simp only; omega, hmonth, by simp only; omega⟩
  have hone' := hleap (month > 2)
  rw [require_true hday, ok_bind]
  obtain ⟨leaps, hleaps, hmany, hyears⟩ := leap_days_ok (show 1970 ≤ year by omega) (by omega)
  have hcount : (year - 1970) * 365 + leaps + (start + day + (leap year && decide (month > 2)).toNat - 1) =
      (Date.mk year month day).days := by
    rw [hyears]
    simp only [Date.days]
    omega
  rw [hleaps, ok_bind, index_ok hstart, ok_bind, add_ok (by omega), ok_bind, add_ok (by omega), ok_bind,
    sub_ok (by omega), ok_bind, sub_ok (by omega), ok_bind, mul_ok (by omega), ok_bind, add_ok (by omega), ok_bind,
    add_ok (by omega), ok_bind, hcount, add_ok (by omega), ok_bind, mul_ok (by omega), ok_bind, add_ok (by omega),
    ok_bind, mul_ok (by omega), ok_bind, add_ok (by omega), ok_bind, mul_ok (by omega), ok_bind, add_ok (by omega)]
  refine ⟨safe_bind safe_require fun _ _ => safe_ok _, ?_⟩
  simp only [bind_ok, require_eq_ok, Except.ok.injEq, exists_const]
  constructor
  · rintro ⟨hweek, rfl⟩
    exact ⟨hvalid, by omega, by omega, by omega, by omega, hweek, rfl⟩
  · rintro ⟨-, -, -, -, -, hweek, rfl⟩
    exact ⟨hweek, rfl⟩

end

/-! ## The whole text -/

theorem weekday_ok {i : Nat} {word : List UInt8} : name_index WEEKDAYS word = .ok i ↔ WEEKDAYS[i]? = some word :=
  name_index_ok (by decide)

theorem month_ok {i : Nat} {word : List UInt8} : name_index MONTHS word = .ok i ↔ MONTHS[i]? = some word :=
  name_index_ok (by decide)

theorem safe_parse (bytes : List UInt8) : Safe (parse_imf_fixdate bytes) := by
  iterate 3 refine safe_bind safe_require fun _ _ => ?_
  refine safe_bind safe_name_index fun weekday _ => ?_
  refine safe_bind safe_require fun _ _ => ?_
  refine safe_bind safe_name_index fun month hmonth => ?_
  iterate 4 refine safe_bind safe_two_digits fun _ _ => ?_
  refine safe_bind safe_two_digits fun century hcentury => ?_
  have := (two_digits_ok.1 hcentury).1
  rw [mul_ok (by omega), ok_bind]
  refine safe_bind safe_two_digits fun rest hrest => ?_
  have := (two_digits_ok.1 hrest).1
  rw [add_ok (by omega), ok_bind]
  obtain ⟨hlt, -⟩ := List.getElem?_eq_some_iff.1 (month_ok.1 hmonth)
  exact (instant_eq ⟨by simp, hlt⟩ 0).1

theorem eq_map_byte (bytes : List UInt8) : bytes = (range bytes.length).map (byte bytes) := by
  apply ext_getElem
  · simp
  · intro i h _
    simp [byte, h]

theorem names_getD {names : List (List UInt8)} (hlen : ∀ name ∈ names, name.length = 4) {i : Nat}
    (h : i < names.length) : ∃ a b c d, names.getD i [] = [a, b, c, d] ∧ names[i]? = some [a, b, c, d] := by
  obtain ⟨a, b, c, d, hname⟩ : ∃ a b c d, names[i] = [a, b, c, d] :=
    length_eq_four.1 (hlen _ (getElem_mem h))
  exact ⟨a, b, c, d, by simp [h, hname], by simp [h, hname]⟩

theorem parse_ok {bytes : List UInt8} {s : Nat} : parse_imf_fixdate bytes = .ok s ↔
    ∃ weekday month day hour minute second year,
      weekday < 7 ∧ (1 ≤ month ∧ month ≤ 12) ∧ day < 100 ∧ hour < 100 ∧ minute < 100 ∧ second < 100 ∧ year < 10000 ∧
      bytes = render weekday month day hour minute second year ∧
      instant weekday month day hour minute second year = .ok s := by
  constructor
  · intro h
    simp only [parse_imf_fixdate, bind_ok, require_eq_ok, exists_const] at h
    obtain ⟨hlen, hspaces, hcolon, weekday, hweekday, hspace, index, hmonth, day, hday, hour, hhour, minute, hminute,
      second, hsecond, century, hcentury, h⟩ := h
    rw [weekday_ok] at hweekday
    rw [month_ok] at hmonth
    obtain ⟨hgap, hgap', htime⟩ := hspaces
    obtain ⟨htime', hzone⟩ := hcolon
    obtain ⟨_, hyear, rest, hrest, year, hyear', hs⟩ := h
    rw [two_digits_ok] at hday hhour hminute hsecond hcentury hrest
    rw [mul_ok (by omega)] at hyear
    cases hyear
    rw [add_ok (by omega)] at hyear'
    cases hyear'
    obtain ⟨hlt, -⟩ := List.getElem?_eq_some_iff.1 hweekday
    obtain ⟨hlt', -⟩ := List.getElem?_eq_some_iff.1 hmonth
    refine ⟨weekday, index + 1, day, hour, minute, second, century * 100 + rest, hlt, ⟨by simp, hlt'⟩, hday.1,
      hhour.1, hminute.1, hsecond.1, by omega, ?_, hs⟩
    have hquot : (century * 100 + rest) / 100 = century := by omega
    have hrem : (century * 100 + rest) % 100 = rest := by omega
    simp only [render, two, hquot, hrem, Nat.add_sub_cancel, getD_eq_getElem?_getD, hweekday, hmonth,
      Option.getD_some, ← hday.2.1, ← hday.2.2, ← hhour.2.1, ← hhour.2.2, ← hminute.2.1, ← hminute.2.2,
      ← hsecond.2.1, ← hsecond.2.2, ← hcentury.2.1, ← hcentury.2.2, ← hrest.2.1, ← hrest.2.2]
    have hbytes := hlen ▸ eq_map_byte bytes
    rw [← hzone]
    calc bytes = (range 29).map (byte bytes) := hbytes
      _ = _ := by simp [range_succ, word_at, hgap, hgap', htime, htime', hspace]
  · rintro ⟨weekday, month, day, hour, minute, second, year, hweekday, hmonth, hday, hhour, hminute, hsecond, hyear, rfl, hs⟩
    obtain ⟨a, b, c, d, hname, hindex⟩ := @names_getD WEEKDAYS (by decide) _ hweekday
    obtain ⟨p, q, r, z, hname', hindex'⟩ := @names_getD MONTHS (by decide) _ (show month - 1 < 12 by omega)
    simp only [parse_imf_fixdate, bind_ok, require_eq_ok, exists_const, render, hname, hname', two, word_at, byte,
      cons_append, nil_append, getD_cons_zero, getD_cons_succ, true_and]
    refine ⟨rfl, rfl, weekday, weekday_ok.2 hindex, month - 1, month_ok.2 hindex', day,
      two_digits_ok.2 ⟨hday, rfl, rfl⟩, hour, two_digits_ok.2 ⟨hhour, rfl, rfl⟩, minute,
      two_digits_ok.2 ⟨hminute, rfl, rfl⟩, second, two_digits_ok.2 ⟨hsecond, rfl, rfl⟩, year / 100,
      two_digits_ok.2 ⟨by omega, rfl, rfl⟩, _, mul_ok (by omega), year % 100,
      two_digits_ok.2 ⟨by omega, rfl, rfl⟩, _, add_ok (by omega), ?_⟩
    rw [show month - 1 + 1 = month by omega, show year / 100 * 100 + year % 100 = year by omega]
    exact hs

theorem parse_eq_ok_iff {bytes : List UInt8} {s : Nat} : parse_imf_fixdate bytes = .ok s ↔
    bytes = imf_fixdate s ∧ (date (s / 86400)).year ≤ 9999 := by
  rw [parse_ok]
  constructor
  · rintro ⟨weekday, month, day, hour, minute, second, year, -, hmonth, -, -, -, -, -, rfl, hs⟩
    obtain ⟨hvalid, hyear, hhour, hminute, hsecond, hweek, rfl⟩ := (instant_eq hmonth s).2.1 hs
    generalize hcount : (Date.mk year month day).days = count at hweek
    have hdate : date count = ⟨year, month, day⟩ := date_eq_iff.2 ⟨hvalid, hcount⟩
    have hquot : (second + minute * 60 + hour * 3600 + count * 86400) / 86400 = count := by omega
    have hhours : (second + minute * 60 + hour * 3600 + count * 86400) % 86400 / 3600 = hour := by omega
    have hminutes : (second + minute * 60 + hour * 3600 + count * 86400) % 3600 / 60 = minute := by omega
    have hseconds : (second + minute * 60 + hour * 3600 + count * 86400) % 60 = second := by omega
    simp only [imf_fixdate, hquot, hhours, hminutes, hseconds, hdate, hweek, true_and]
    exact hyear
  · rintro ⟨rfl, hyear⟩
    obtain ⟨hvalid, hdays⟩ := date_valid (s / 86400)
    have hday := hvalid.day
    have hlong : days_in_month (date (s / 86400)).year (date (s / 86400)).month ≤ 31 := by
      unfold days_in_month
      have := Bool.toNat_le (leap (date (s / 86400)).year)
      split <;> try split
      all_goals omega
    refine ⟨_, _, _, _, _, _, _, Nat.mod_lt _ (by decide), hvalid.month, by omega, by omega, by omega, by omega,
      by omega, rfl, (instant_eq hvalid.month s).2.2 ⟨hvalid, hyear, by omega, by omega, by omega, ?_, ?_⟩⟩
    · rw [hdays]
    · rw [hdays]
      omega

theorem year_le_iff (s : Nat) : (date (s / 86400)).year ≤ 9999 ↔ s ≤ 253402300799 := by
  have hend : year_start 10000 = 2932897 := by decide
  rw [← Nat.lt_succ_iff, date_year_lt (by decide), hend]
  omega

/-- Parsing accepts the texts of the seconds of the years 1970 to 9999 and no others, gives each its
second, and keeps every operation within its type. -/
theorem parse_imf_fixdate_exact :
    (∀ bytes s, parse_imf_fixdate bytes = .ok s ↔ bytes = imf_fixdate s ∧ (date (s / 86400)).year ≤ 9999) ∧
    (∀ s, (date (s / 86400)).year ≤ 9999 → (imf_fixdate s).length = 29 ∧ 1970 ≤ (date (s / 86400)).year) ∧
    Set.BijOn imf_fixdate {s | s ≤ 253402300799} {bytes | ∃ s, parse_imf_fixdate bytes = .ok s} ∧
    ∀ bytes, Safe (parse_imf_fixdate bytes) := by
  have hparse (s : Nat) (h : s ≤ 253402300799) : parse_imf_fixdate (imf_fixdate s) = .ok s :=
    parse_eq_ok_iff.2 ⟨rfl, (year_le_iff s).2 h⟩
  refine ⟨fun _ _ => parse_eq_ok_iff, ?_, ⟨?_, ?_, ?_⟩, safe_parse⟩
  · intro s hs
    have hok := parse_eq_ok_iff.2 ⟨rfl, hs⟩
    rw [parse_imf_fixdate, bind_ok] at hok
    obtain ⟨_, hlen, -⟩ := hok
    exact ⟨require_eq_ok.1 hlen, (date_valid _).1.since⟩
  · intro s hs
    exact ⟨s, hparse s hs⟩
  · intro s hs s' hs' he
    have := hparse s' hs'
    rw [← he, hparse s hs] at this
    exact Except.ok.inj this
  · rintro bytes ⟨s, hs⟩
    obtain ⟨rfl, hyear⟩ := parse_eq_ok_iff.1 hs
    exact ⟨s, (year_le_iff s).1 hyear, rfl⟩

end Headers.Fixdate
