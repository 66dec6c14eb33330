import Mathlib

/-!
# Dates

`date.c`: the conversions between a date and a Julian day number, and the modifiers `N months` and
`weekday N`. An expression of type `double` is a rational number, a cast to an integer takes away its
fraction, and an `int` has 32 bits.

The conversion of a day number to a date is off by one day on 0300-03-01: there the quotient by
36524.25 is exactly -1, and taking away a fraction is not rounding down. The other way the product
`36525*(Y+4716)` does not fit an `int` from the year 54079 on, which `N months` reaches.

## Main definitions

* `computeJD`, `computeYMD`, `computeHMS` — the conversions
* `addMonths`, `weekday` — the modifiers
* `Date`, `Date.next` — the calendar

## Main results

* `dayNumber_next` — the day numbers of two days in a row
* `ymdOf_dayNumber` — the date of a day number
* `addMonths_iff` — the years for which `N months` is right
* `works_iff` — the conversions work on all dates but one, the modifiers for these years
-/

namespace SqliteVms

namespace Calendar

/-! ### The code -/

structure DateTime where
  iJD : ℤ
  Y : ℤ
  M : ℤ
  D : ℤ
  h : ℤ
  m : ℤ
  tz : ℤ
  s : ℚ
  validYMD : Bool
  validHMS : Bool
  validJD : Bool
  validTZ : Bool
  deriving DecidableEq

/-- A cast to an integer. -/
def trunc (r : ℚ) : ℤ := if 0 ≤ r then ⌊r⌋ else ⌈r⌉

/-- A number as an `int`. -/
def int32 (n : ℤ) : ℤ := n.bmod (2 ^ 32)

/-- The day number in `computeJD`, for a year that begins in March. -/
def julianDay (Y M D : ℤ) : ℚ :=
  let A := Y.tdiv 100
  let B := 2 - A + A.tdiv 4
  let X1 := (int32 (36525 * int32 (Y + 4716))).tdiv 100
  let X2 := (int32 (306001 * int32 (M + 1))).tdiv 10000
  (int32 (X1 + X2 + D + B) : ℚ) - 1524.5

def computeJD (p : DateTime) : DateTime :=
  if p.validJD = true then p
  else
    let (Y, M, D) := if p.validYMD = true then (p.Y, p.M, p.D) else (2000, 1, 1)
    let (Y, M) := if M ≤ 2 then (int32 (Y - 1), M + 12) else (Y, M)
    let p := { p with iJD := trunc (julianDay Y M D * 86400000), validJD := true }
    if p.validHMS = true then
      let p := { p with iJD := p.iJD + (int32 (p.h * 3600000 + p.m * 60000) + trunc (p.s * 1000)) }
      if p.validTZ = true then
        { p with
          iJD := p.iJD - int32 (p.tz * 60000), validYMD := false, validHMS := false, validTZ := false }
      else p
    else p

def computeYMD (p : DateTime) : DateTime :=
  if p.validYMD = true then p
  else if p.validJD = true then
    let Z := int32 ((p.iJD + 43200000).tdiv 86400000)
    let A := trunc ((Z - 1867216.25) / 36524.25)
    let A := int32 (Z + 1 + A - A.tdiv 4)
    let B := int32 (A + 1524)
    let C := trunc ((B - 122.1) / 365.25)
    let D := (int32 (36525 * C)).tdiv 100
    let E := trunc ((int32 (B - D) : ℚ) / 30.6001)
    let X1 := trunc (30.6001 * E)
    let M := if E < 14 then E - 1 else E - 13
    { p with
      Y := if 2 < M then C - 4716 else C - 4715, M := M, D := int32 (B - D - X1), validYMD := true }
  else { p with Y := 2000, M := 1, D := 1, validYMD := true }

def computeHMS (p : DateTime) : DateTime :=
  if p.validHMS = true then p
  else
    let p := computeJD p
    let r : ℚ := ((p.iJD + 43200000).tmod 86400000 : ℤ) / 1000
    let s := trunc r
    let h := s.tdiv 3600
    let s' := s - h * 3600
    let m := s'.tdiv 60
    { p with h := h, m := m, s := r - s + (s' - m * 60 : ℤ), validHMS := true }

def computeYMD_HMS (p : DateTime) : DateTime := computeHMS (computeYMD p)

def clearYMD_HMS_TZ (p : DateTime) : DateTime :=
  { p with validYMD := false, validHMS := false, validTZ := false }

/-- The modifier `r months` of `parseModifier`. -/
def addMonths (p : DateTime) (r : ℚ) : DateTime :=
  let p := computeJD p
  let rRounder : ℚ := if r < 0 then -0.5 else 0.5
  let p := computeYMD_HMS p
  let M := int32 (p.M + trunc r)
  let x := if 0 < M then (M - 1).tdiv 12 else (int32 (M - 12)).tdiv 12
  let p := computeJD { p with M := int32 (M - x * 12), Y := int32 (p.Y + x), validJD := false }
  let y := trunc r
  clearYMD_HMS_TZ <|
    if (y : ℚ) ≠ r then { p with iJD := p.iJD + trunc ((r - y) * 30.0 * 86400000.0 + rRounder) }
    else p

/-- The day of the week of a Julian day, also for `%w`. -/
def dayOfWeek (iJD : ℤ) : ℤ := ((iJD + 129600000).tdiv 86400000).tmod 7

/-- The modifier `weekday n` of `parseModifier`. -/
def weekday (p : DateTime) (n : ℤ) : DateTime :=
  let p := computeYMD_HMS p
  let p := computeJD { p with validTZ := false, validJD := false }
  let Z := dayOfWeek p.iJD
  let Z := if n < Z then Z - 7 else Z
  clearYMD_HMS_TZ { p with iJD := p.iJD + (n - Z) * 86400000 }

/-! ### The calendar -/

/-- A date of the Gregorian calendar. -/
structure Date where
  Y : ℤ
  M : ℤ
  D : ℤ
  deriving DecidableEq

/-- The days of a month. -/
def daysIn (Y M : ℤ) : ℤ :=
  if M = 2 then if Y % 4 = 0 ∧ (Y % 100 ≠ 0 ∨ Y % 400 = 0) then 29 else 28
  else if M = 4 ∨ M = 6 ∨ M = 9 ∨ M = 11 then 30
  else 31

/-- A date from 0000-01-01 to 9999-12-31. -/
structure Date.Valid (d : Date) : Prop where
  year : 0 ≤ d.Y ∧ d.Y ≤ 9999
  month : 1 ≤ d.M ∧ d.M ≤ 12
  day : 1 ≤ d.D ∧ d.D ≤ daysIn d.Y d.M

/-- The following day. -/
def Date.next (d : Date) : Date :=
  if d.D < daysIn d.Y d.M then ⟨d.Y, d.M, d.D + 1⟩
  else if d.M < 12 then ⟨d.Y, d.M + 1, 1⟩
  else ⟨d.Y + 1, 1, 1⟩

/-- A second of a day. -/
structure Time where
  h : ℤ
  m : ℤ
  s : ℤ

structure Time.Valid (t : Time) : Prop where
  hour : 0 ≤ t.h ∧ t.h < 24
  minute : 0 ≤ t.m ∧ t.m < 60
  second : 0 ≤ t.s ∧ t.s < 60

/-- Year and month, for a year that begins in March. -/
def shift (Y M : ℤ) : ℤ × ℤ := if M ≤ 2 then (Y - 1, M + 12) else (Y, M)

/-- The number of the Julian day that begins at noon. -/
def dayNumber (Y M D : ℤ) : ℤ :=
  let q := shift Y M
  36525 * (q.1 + 4716) / 100 + 306001 * (q.2 + 1) / 10000 + D + 2 - q.1 / 100 + q.1 / 400 - 1524

/-! ### Arithmetic -/

theorem tdiv_of_neg {a b : ℤ} (ha : a < 0) : a.tdiv b = -(-a / b) := by
  rw [← Int.tdiv_eq_ediv_of_nonneg (by omega : 0 ≤ -a), Int.neg_tdiv, neg_neg]

theorem tdiv_cases (a b : ℤ) :
    0 ≤ a ∧ a.tdiv b = a / b ∨ a < 0 ∧ a.tdiv b = -(-a / b) := by
  by_cases ha : 0 ≤ a
  · exact Or.inl ⟨ha, Int.tdiv_eq_ediv_of_nonneg ha⟩
  · exact Or.inr ⟨not_le.mp ha, tdiv_of_neg (not_le.mp ha)⟩

theorem int32_eq {n : ℤ} (h : -2147483648 ≤ n ∧ n < 2147483648) : int32 n = n :=
  Int.bmod_eq_of_le_mul_two (by omega) (by omega)

theorem int32_range (n : ℤ) : -2147483648 ≤ int32 n ∧ int32 n < 2147483648 := by
  have hlo : -(((2 ^ 32 : ℕ) : ℤ) / 2) ≤ int32 n := Int.le_bmod (by norm_num)
  have hhi : int32 n < (((2 ^ 32 : ℕ) : ℤ) + 1) / 2 := Int.bmod_lt (by norm_num)
  omega

theorem trunc_div (a : ℤ) {b : ℕ} (hb : 0 < b) : trunc ((a : ℚ) / b) = a.tdiv b := by
  have hb' : (0 : ℚ) < b := Nat.cast_pos.mpr hb
  rw [trunc]
  by_cases ha : 0 ≤ a
  · rw [if_pos (div_nonneg (Int.cast_nonneg ha) hb'.le), Rat.floor_intCast_div_natCast,
      Int.tdiv_eq_ediv_of_nonneg ha]
  · have hneg : ¬0 ≤ (a : ℚ) / b :=
      not_le.mpr (div_neg_of_neg_of_pos (Int.cast_lt_zero.mpr (by omega)) hb')
    rw [if_neg hneg, Rat.ceil_intCast_div_natCast, tdiv_of_neg (by omega)]

theorem trunc_intCast (a : ℤ) : trunc a = a := by
  have h := trunc_div a Nat.one_pos
  rwa [Nat.cast_one, div_one, Nat.cast_one, Int.tdiv_one] at h

/-! ### From a date to a day -/

/-- `K` is the day of a year that begins in March, with 122 for the start of March. -/
structure YearDay (y K : ℤ) : Prop where
  year : -1 ≤ y ∧ y ≤ 9999
  day : 123 ≤ K ∧ K ≤ 488
  leap : K = 488 → (y + 1) % 4 = 0 ∧ ((y + 1) % 100 ≠ 0 ∨ (y + 1) % 400 = 0)

/-- The day number of a day of a year. -/
def yearDayNumber (y K : ℤ) : ℤ :=
  36525 * (y + 4716) / 100 + K + 2 - y / 100 + y / 400 - 1524

variable {y K : ℤ}

/-- A year as quadricentennial `q`, century `r` and year `b`. -/
theorem yearDayNumber_eq {q r b : ℤ} (hr : 0 ≤ r ∧ r < 4) (hb : 0 ≤ b ∧ b < 100) :
    yearDayNumber (400 * q + 100 * r + b) K =
      146097 * q + 36524 * r + 1461 * b / 4 + K + 1720997 := by
  have hX1 : 36525 * (400 * q + 100 * r + b + 4716) / 100 =
      146100 * q + 36525 * r + 1461 * b / 4 + 1722519 := by omega
  have hcentury : (400 * q + 100 * r + b) / 100 = 4 * q + r := by omega
  have hfour : (400 * q + 100 * r + b) / 400 = q := by omega
  rw [yearDayNumber, hX1, hcentury, hfour]
  omega

theorem exists_year (y : ℤ) : ∃ q r b : ℤ, y = 400 * q + 100 * r + b ∧ (0 ≤ r ∧ r < 4) ∧
    0 ≤ b ∧ b < 100 :=
  ⟨y / 400, y % 400 / 100, y % 100, by omega, by omega, by omega⟩

/-- The century of a day. -/
theorem century_floor (h : YearDay y K) :
    (4 * yearDayNumber y K - 7468865) / 146097 = y / 100 - 4 ∧
      ((4 * yearDayNumber y K - 7468865) % 146097 = 0 → y % 400 = 300 ∧ K = 123) := by
  obtain ⟨q, r, b, rfl, hr, hb⟩ := exists_year y
  obtain ⟨-, hK, hleap⟩ := h
  have hcentury : (400 * q + 100 * r + b) / 100 = 4 * q + r := by omega
  rw [yearDayNumber_eq hr hb, hcentury]
  have hlast : K = 488 → b < 99 ∨ r = 3 := by omega
  clear hleap
  have hrem : 0 ≤ 4 * (1461 * b / 4) + 4 * K - 489 - r ∧
      4 * (1461 * b / 4) + 4 * K - 489 - r < 146097 := by omega
  have hsplit : 4 * (146097 * q + 36524 * r + 1461 * b / 4 + K + 1720997) - 7468865 =
      (4 * (1461 * b / 4) + 4 * K - 489 - r) + 146097 * (4 * q + r - 4) := by omega
  rw [hsplit, Int.add_mul_ediv_left _ _ (by omega), Int.add_mul_emod_self_left,
    Int.ediv_eq_zero_of_lt hrem.1 hrem.2, Int.emod_eq_of_lt hrem.1 hrem.2, zero_add]
  refine ⟨rfl, fun hzero => ?_⟩
  have hday : 0 ≤ 1461 * b / 4 := by omega
  obtain ⟨rfl, rfl⟩ : r = 3 ∧ K = 123 := by omega
  obtain rfl : b = 0 := by omega
  exact ⟨by omega, rfl⟩

/-- The correction for the century, as `computeYMD` computes it. -/
theorem century_tdiv (h : YearDay y K) (hne : ¬(y = 300 ∧ K = 123)) :
    (4 * yearDayNumber y K - 7468865).tdiv 146097 -
        ((4 * yearDayNumber y K - 7468865).tdiv 146097).tdiv 4 = y / 100 - y / 400 - 3 := by
  obtain ⟨hfloor, hexact⟩ := century_floor h
  have hy := h.year
  generalize 4 * yearDayNumber y K - 7468865 = n at hfloor hexact ⊢
  by_cases hn : 0 ≤ n
  · have hA : n.tdiv 146097 = y / 100 - 4 := by rw [Int.tdiv_eq_ediv_of_nonneg hn, hfloor]
    rw [hA, Int.tdiv_eq_ediv_of_nonneg (by omega)]
    omega
  · have hA : n.tdiv 146097 = y / 100 - 3 := by
      rw [tdiv_of_neg (by omega)]
      omega
    rw [hA]
    have hcases : y / 100 = -1 ∨ y / 100 = 0 ∨ y / 100 = 1 ∨ y / 100 = 2 ∨ y / 100 = 3 := by omega
    rcases hcases with hc | hc | hc | hc | hc <;> rw [hc]
    · have htdiv : ((-1 : ℤ) - 3).tdiv 4 = -1 := by decide
      omega
    · have htdiv : ((0 : ℤ) - 3).tdiv 4 = 0 := by decide
      omega
    · have htdiv : ((1 : ℤ) - 3).tdiv 4 = 0 := by decide
      omega
    · have htdiv : ((2 : ℤ) - 3).tdiv 4 = 0 := by decide
      omega
    · have htdiv : ((3 : ℤ) - 3).tdiv 4 = 0 := by decide
      omega

theorem century_add (h : YearDay y K) (hne : ¬(y = 300 ∧ K = 123)) :
    yearDayNumber y K + 1 + (4 * yearDayNumber y K - 7468865).tdiv 146097 -
        ((4 * yearDayNumber y K - 7468865).tdiv 146097).tdiv 4 + 1524 =
      36525 * (y + 4716) / 100 + K := by
  have hcentury := century_tdiv h hne
  have hZ : yearDayNumber y K =
    36525 * (y + 4716) / 100 + K + 2 - y / 100 + y / 400 - 1524 := rfl
  omega

/-- The year of a day. -/
theorem year_tdiv (h : YearDay y K) :
    (100 * (36525 * (y + 4716) / 100 + K) - 12210).tdiv 36525 = y + 4716 := by
  obtain ⟨hy, hK, hleap⟩ := h
  have hlast : K = 488 → (y + 1) % 4 = 0 := fun h => (hleap h).1
  clear hleap
  rw [Int.tdiv_eq_ediv_of_nonneg (by omega)]
  omega

/-- The day of a date in such a year. -/
def dayOfYear (M D : ℤ) : ℤ := 306001 * (M + 1) / 10000 + D

variable {d : Date}

theorem dayNumber_eq (d : Date) : dayNumber d.Y d.M d.D =
    yearDayNumber (shift d.Y d.M).1 (dayOfYear (shift d.Y d.M).2 d.D) := by
  rw [dayNumber, yearDayNumber, dayOfYear]
  omega

theorem daysIn_le (Y M : ℤ) : 28 ≤ daysIn Y M ∧ daysIn Y M ≤ 31 := by
  rw [daysIn]
  split
  · split <;> omega
  · split <;> omega

theorem month_cases {M : ℤ} (h : 1 ≤ M ∧ M ≤ 12) : M = 1 ∨ M = 2 ∨ M = 3 ∨ M = 4 ∨ M = 5 ∨
    M = 6 ∨ M = 7 ∨ M = 8 ∨ M = 9 ∨ M = 10 ∨ M = 11 ∨ M = 12 := by omega

theorem Date.Valid.yearDay (h : d.Valid) :
    YearDay (shift d.Y d.M).1 (dayOfYear (shift d.Y d.M).2 d.D) := by
  obtain ⟨Y, M, D⟩ := d
  obtain ⟨hY, hM, hD⟩ := h
  dsimp only at hY hM hD ⊢
  by_cases hfeb : M = 2
  · subst hfeb
    rw [daysIn, if_pos rfl] at hD
    have hK : dayOfYear (shift Y 2).2 D = 459 + D := rfl
    have hy : (shift Y 2).1 = Y - 1 := rfl
    rw [hK, hy]
    split at hD
    · rename_i hleap
      refine ⟨by omega, by omega, fun _ => ?_⟩
      rw [show Y - 1 + 1 = Y by omega]
      exact hleap
    · exact ⟨by omega, by omega, fun _ => by omega⟩
  · have hlen := daysIn_le Y M
    have hcases := (month_cases hM).imp_right fun h => h.resolve_left hfeb
    rcases hcases with rfl | rfl | rfl | rfl | rfl | rfl | rfl | rfl | rfl | rfl | rfl
    all_goals simp only [shift, dayOfYear]
    all_goals norm_num
    all_goals exact ⟨by omega, by omega, fun _ => by omega⟩

/-- The month of a day. -/
theorem Date.Valid.month_tdiv (h : d.Valid) :
    (10000 * dayOfYear (shift d.Y d.M).2 d.D).tdiv 306001 = (shift d.Y d.M).2 + 1 := by
  obtain ⟨Y, M, D⟩ := d
  obtain ⟨hY, hM, hD⟩ := h
  dsimp only at hY hM hD ⊢
  rcases month_cases hM with rfl | rfl | rfl | rfl | rfl | rfl | rfl | rfl | rfl | rfl | rfl | rfl
  all_goals simp only [daysIn, shift, dayOfYear] at hD ⊢
  all_goals norm_num at hD ⊢
  all_goals rw [Int.tdiv_eq_ediv_of_nonneg (by omega)]
  all_goals omega

/-- The year ends with February. -/
theorem yearDayNumber_succ (y : ℤ) : yearDayNumber (y + 1) 123 =
    yearDayNumber y (if (y + 1) % 4 = 0 ∧ ((y + 1) % 100 ≠ 0 ∨ (y + 1) % 400 = 0) then 488 else 487)
      + 1 := by
  obtain ⟨q, r, b, hy, hr, hb⟩ := exists_year (y + 1)
  have hleap : ((y + 1) % 4 = 0 ∧ ((y + 1) % 100 ≠ 0 ∨ (y + 1) % 400 = 0)) ↔
      b % 4 = 0 ∧ (b ≠ 0 ∨ r = 0) := by
    have h4 : (y + 1) % 4 = b % 4 := by omega
    have h100 : (y + 1) % 100 = b := by omega
    have h400 : (y + 1) % 400 = 100 * r + b := by omega
    have hor : b ≠ 0 ∨ 100 * r + b = 0 ↔ b ≠ 0 ∨ r = 0 := by omega
    rw [h4, h100, h400, hor]
  rw [if_congr hleap rfl rfl, hy, yearDayNumber_eq hr hb]
  by_cases hb0 : b = 0
  · subst hb0
    by_cases hr0 : r = 0
    · subst hr0
      obtain rfl : y = 400 * (q - 1) + 100 * 3 + 99 := by omega
      rw [yearDayNumber_eq (by omega) (by omega), if_pos (by omega)]
      omega
    · obtain rfl : y = 400 * q + 100 * (r - 1) + 99 := by omega
      rw [yearDayNumber_eq (by omega) (by omega), if_neg (by omega)]
      omega
  · obtain rfl : y = 400 * q + 100 * r + (b - 1) := by omega
    have hdays : 1461 * b / 4 = 1461 * (b - 1) / 4 + if b % 4 = 0 then 366 else 365 := by
      clear hleap hy hb hb0
      obtain ⟨u, v, rfl, hv⟩ : ∃ u v : ℤ, b = 4 * u + v ∧ (v = 0 ∨ v = 1 ∨ v = 2 ∨ v = 3) :=
        ⟨b / 4, b % 4, by omega, by omega⟩
      rcases hv with rfl | rfl | rfl | rfl <;> split <;> omega
    rw [yearDayNumber_eq hr (by omega), if_congr (and_iff_left (Or.inl hb0)) rfl rfl, hdays]
    split <;> ring

/-- **The following day** has the next number. -/
theorem dayNumber_next (h : d.Valid) :
    dayNumber d.next.Y d.next.M d.next.D = dayNumber d.Y d.M d.D + 1 := by
  obtain ⟨Y, M, D⟩ := d
  obtain ⟨hY, hM, hD⟩ := h
  rw [Date.next]
  dsimp only at hY hM hD ⊢
  by_cases hlast : D < daysIn Y M
  · rw [if_pos hlast]
    simp only [dayNumber]
    omega
  · rw [if_neg hlast, dayNumber_eq ⟨Y, M, D⟩]
    obtain rfl : D = daysIn Y M := by omega
    by_cases hfeb : M = 2
    · subst hfeb
      have hsucc := yearDayNumber_succ (Y - 1)
      rw [Int.sub_add_cancel] at hsucc
      rw [if_pos (by omega), dayNumber_eq ⟨Y, 2 + 1, 1⟩]
      refine hsucc.trans ?_
      rw [daysIn, if_pos rfl]
      split <;> rfl
    · have hcases := (month_cases hM).imp_right fun h => h.resolve_left hfeb
      rcases hcases with rfl | rfl | rfl | rfl | rfl | rfl | rfl | rfl | rfl | rfl | rfl
      all_goals simp only [dayNumber, yearDayNumber, shift, dayOfYear, daysIn]
      all_goals norm_num
      all_goals omega

/-! ### From a day to a date -/

/-- The date that `computeYMD` computes. -/
def ymdOf (Z : ℤ) : Date :=
  let A := (4 * Z - 7468865).tdiv 146097
  let A := Z + 1 + A - A.tdiv 4
  let B := A + 1524
  let C := (100 * B - 12210).tdiv 36525
  let D := (36525 * C).tdiv 100
  let E := (10000 * (B - D)).tdiv 306001
  let X1 := (306001 * E).tdiv 10000
  let M := if E < 14 then E - 1 else E - 13
  ⟨if 2 < M then C - 4716 else C - 4715, M, B - D - X1⟩

theorem Date.Valid.shift_month (h : d.Valid) :
    3 ≤ (shift d.Y d.M).2 ∧ (shift d.Y d.M).2 ≤ 14 := by
  have hM := h.month
  rw [shift]
  split
  · exact ⟨by dsimp only; omega, by dsimp only; omega⟩
  · exact ⟨by dsimp only; omega, by dsimp only; omega⟩

/-- The start of March 300. -/
theorem Date.Valid.eq_start (h : d.Valid) (hy : (shift d.Y d.M).1 = 300)
    (hK : dayOfYear (shift d.Y d.M).2 d.D = 123) : d = ⟨300, 3, 1⟩ := by
  have hm := h.shift_month
  have hD := h.day.1
  rw [dayOfYear] at hK
  have hmarch : (shift d.Y d.M).2 = 3 := by omega
  rw [hmarch] at hK
  obtain ⟨Y, M, D⟩ := d
  dsimp only at hy hmarch hD hK
  obtain rfl : D = 1 := by omega
  rw [shift] at hy hmarch
  split at hmarch <;> dsimp only at hmarch
  · have hpos := h.month.1
    dsimp only at hpos
    omega
  · rename_i hM
    rw [if_neg hM] at hy
    subst hy hmarch
    rfl

/-- The year and the month of the calendar. -/
theorem Date.Valid.unshift (h : d.Valid) :
    (⟨if 2 < (if (shift d.Y d.M).2 + 1 < 14 then (shift d.Y d.M).2 + 1 - 1
          else (shift d.Y d.M).2 + 1 - 13) then (shift d.Y d.M).1 + 4716 - 4716
        else (shift d.Y d.M).1 + 4716 - 4715,
      if (shift d.Y d.M).2 + 1 < 14 then (shift d.Y d.M).2 + 1 - 1
        else (shift d.Y d.M).2 + 1 - 13,
      dayOfYear (shift d.Y d.M).2 d.D - 306001 * ((shift d.Y d.M).2 + 1) / 10000⟩ : Date) = d := by
  obtain ⟨Y, M, D⟩ := d
  have hM := h.month
  dsimp only at hM ⊢
  rw [dayOfYear, shift]
  by_cases hmarch : M ≤ 2
  · rw [if_pos hmarch]
    dsimp only
    rw [if_neg (by omega : ¬M + 12 + 1 < 14), if_neg (by omega)]
    congr 1 <;> omega
  · rw [if_neg hmarch]
    dsimp only
    split
    · rw [if_pos (by omega)]
      congr 1 <;> omega
    · omega

/-- **The date of a day**, but for the start of March 300. -/
theorem ymdOf_dayNumber (h : d.Valid) (hne : d ≠ ⟨300, 3, 1⟩) :
    ymdOf (dayNumber d.Y d.M d.D) = d := by
  have hyear := h.yearDay
  have hfirst : ¬((shift d.Y d.M).1 = 300 ∧ dayOfYear (shift d.Y d.M).2 d.D = 123) :=
    fun hstart => hne (h.eq_start hstart.1 hstart.2)
  have hD : (36525 * ((shift d.Y d.M).1 + 4716)).tdiv 100 =
      36525 * ((shift d.Y d.M).1 + 4716) / 100 :=
    Int.tdiv_eq_ediv_of_nonneg (by have hy := hyear.year; omega)
  have hX1 : (306001 * ((shift d.Y d.M).2 + 1)).tdiv 10000 =
      306001 * ((shift d.Y d.M).2 + 1) / 10000 :=
    Int.tdiv_eq_ediv_of_nonneg (by have hm := h.shift_month; omega)
  have hsub : ∀ a b : ℤ, a + b - a = b := fun a b => by omega
  rw [dayNumber_eq, ymdOf, century_add hyear hfirst, year_tdiv hyear, hD, hsub, h.month_tdiv, hX1]
  exact h.unshift

/-- The numbers on the way from a day to its date fit an `int`. -/
theorem ymdOf_fits {Z : ℤ} (hZ : 0 ≤ Z ∧ Z < 10000000) :
    let A := (4 * Z - 7468865).tdiv 146097
    let A' := Z + 1 + A - A.tdiv 4
    let B := A' + 1524
    let C := (100 * B - 12210).tdiv 36525
    let D := (36525 * C).tdiv 100
    let E := (10000 * (B - D)).tdiv 306001
    int32 A' = A' ∧ int32 B = B ∧ int32 (36525 * C) = 36525 * C ∧ int32 (B - D) = B - D ∧
      int32 (B - D - (306001 * E).tdiv 10000) = B - D - (306001 * E).tdiv 10000 := by
  intro A A' B C D E
  have hA := tdiv_cases (4 * Z - 7468865) 146097
  have hA4 := tdiv_cases A 4
  have hB : 1424 ≤ B ∧ B ≤ 10003000 := by omega
  have hC : C = (100 * B - 12210) / 36525 := Int.tdiv_eq_ediv_of_nonneg (by omega)
  have hD : D = 36525 * C / 100 := Int.tdiv_eq_ediv_of_nonneg (by omega)
  have hE : E = 10000 * (B - D) / 306001 := Int.tdiv_eq_ediv_of_nonneg (by omega)
  have hX1 : (306001 * E).tdiv 10000 = 306001 * E / 10000 := Int.tdiv_eq_ediv_of_nonneg (by omega)
  rw [hX1]
  exact ⟨int32_eq (by omega), int32_eq (by omega), int32_eq (by omega), int32_eq (by omega),
    int32_eq (by omega)⟩

/-! ### The functions -/

/-- A date and a time, as they are parsed. -/
def ofDate (d : Date) (t : Time) : DateTime where
  iJD := 0
  Y := d.Y
  M := d.M
  D := d.D
  h := t.h
  m := t.m
  tz := 0
  s := t.s
  validYMD := true
  validHMS := true
  validJD := false
  validTZ := false

/-- A Julian day. -/
def ofJD (iJD : ℤ) : DateTime := ⟨iJD, 0, 0, 0, 0, 0, 0, 0, false, false, true, false⟩

/-- The Julian day of a date and a time, in milliseconds. -/
def jdOf (d : Date) (t : Time) : ℤ :=
  dayNumber d.Y d.M d.D * 86400000 - 43200000 + (t.h * 3600000 + t.m * 60000 + t.s * 1000)

variable {t : Time}

/-- The whole days in `computeJD`, of which it takes 1524.5 away, as they are written. -/
def wholeDays (Y M D : ℤ) : ℤ :=
  (36525 * (Y + 4716)).tdiv 100 + (306001 * (M + 1)).tdiv 10000 + D +
    (2 - Y.tdiv 100 + (Y.tdiv 100).tdiv 4)

/-- The whole days, as they are computed. -/
def wholeDays32 (Y M D : ℤ) : ℤ :=
  int32 ((int32 (36525 * int32 (Y + 4716))).tdiv 100 + (int32 (306001 * int32 (M + 1))).tdiv 10000 +
    D + (2 - Y.tdiv 100 + (Y.tdiv 100).tdiv 4))

/-- **The product** is the only `int` that may be too large. -/
theorem wholeDays32_eq_iff {Y M D : ℤ} (hY : -100000 ≤ Y ∧ Y ≤ 100000) (hM : 3 ≤ M ∧ M ≤ 14)
    (hD : 1 ≤ D ∧ D ≤ 31) :
    wholeDays32 Y M D = wholeDays Y M D ↔ -63510 ≤ Y ∧ Y ≤ 54078 := by
  have hyear : int32 (Y + 4716) = Y + 4716 := int32_eq (by omega)
  have hmonth : int32 (M + 1) = M + 1 := int32_eq (by omega)
  have hX2 : int32 (306001 * (M + 1)) = 306001 * (M + 1) := int32_eq (by omega)
  have hrange := int32_range (36525 * (Y + 4716))
  have hX1 := tdiv_cases (int32 (36525 * (Y + 4716))) 100
  have hX2' := tdiv_cases (306001 * (M + 1)) 10000
  have hA := tdiv_cases Y 100
  have hA' := tdiv_cases (Y.tdiv 100) 4
  have hsum : wholeDays32 Y M D = (int32 (36525 * (Y + 4716))).tdiv 100 +
      (306001 * (M + 1)).tdiv 10000 + D + (2 - Y.tdiv 100 + (Y.tdiv 100).tdiv 4) := by
    rw [wholeDays32, hyear, hmonth, hX2]
    exact int32_eq (by omega)
  rw [hsum, wholeDays]
  constructor
  · intro heq
    have hX1' := tdiv_cases (36525 * (Y + 4716)) 100
    omega
  · intro hfits
    rw [int32_eq (n := 36525 * (Y + 4716)) (by omega)]

theorem wholeDays_eq {Y M D : ℤ} (hY : -1 ≤ Y) (hM : 0 ≤ M) : wholeDays Y M D =
    36525 * (Y + 4716) / 100 + 306001 * (M + 1) / 10000 + D + 2 - Y / 100 + Y / 400 := by
  have hB : 2 - Y.tdiv 100 + (Y.tdiv 100).tdiv 4 = 2 - Y / 100 + Y / 400 := by
    by_cases hneg : Y < 0
    · obtain rfl : Y = -1 := by omega
      decide
    · rw [Int.tdiv_eq_ediv_of_nonneg (by omega : 0 ≤ Y), Int.tdiv_eq_ediv_of_nonneg (by omega)]
      omega
  rw [wholeDays, hB, Int.tdiv_eq_ediv_of_nonneg (by omega), Int.tdiv_eq_ediv_of_nonneg (by omega)]
  ring

theorem trunc_julianDay (Y M D : ℤ) : trunc (julianDay Y M D * 86400000) =
    (wholeDays32 Y M D - 1524) * 86400000 - 43200000 := by
  have hday : julianDay Y M D = (wholeDays32 Y M D : ℚ) - 1524.5 := rfl
  rw [hday, ← trunc_intCast ((wholeDays32 Y M D - 1524) * 86400000 - 43200000)]
  congr 1
  push_cast
  ring

/-- The Julian day by the formula, for years in which no calendar was kept too. -/
def formulaJD (d : Date) (t : Time) : ℤ :=
  (wholeDays (shift d.Y d.M).1 (shift d.Y d.M).2 d.D - 1524) * 86400000 - 43200000 +
    (t.h * 3600000 + t.m * 60000 + t.s * 1000)

theorem shift_range {Y M : ℤ} (hM : 1 ≤ M ∧ M ≤ 12) : 3 ≤ (shift Y M).2 ∧ (shift Y M).2 ≤ 14 ∧
    (shift Y M).1 = (12 * Y + M - 3) / 12 := by
  rw [shift]
  split <;> dsimp only <;> omega

/-- **The formula is the calendar's** from the year 0 on. -/
theorem formulaJD_eq (hY : 0 ≤ d.Y) (hM : 1 ≤ d.M ∧ d.M ≤ 12) : formulaJD d t = jdOf d t := by
  obtain ⟨hlo, -, hyear⟩ := @shift_range d.Y d.M hM
  rw [formulaJD, jdOf, dayNumber, wholeDays_eq (by omega) (by omega)]

/-- A time without a zone, and a date. -/
structure Local (t : Time) (p : DateTime) : Prop where
  ymd : p.validYMD = true
  hms : p.validHMS = true
  zone : p.validTZ = false
  hour : p.h = t.h
  minute : p.m = t.m
  second : p.s = t.s

theorem computeJD_local {p : DateTime} (hp : Local t p) (ht : t.Valid) (hJD : p.validJD = false)
    (hY : -90000 ≤ p.Y ∧ p.Y ≤ 100000) : computeJD p =
      { p with
        iJD := (wholeDays32 (shift p.Y p.M).1 (shift p.Y p.M).2 p.D - 1524) * 86400000 - 43200000 +
          (t.h * 3600000 + t.m * 60000 + t.s * 1000),
        validJD := true } := by
  obtain ⟨hh, hm, -⟩ := ht
  have hsec : trunc (p.s * 1000) = t.s * 1000 := by
    rw [hp.second, ← trunc_intCast (t.s * 1000)]
    congr 1
    push_cast
    ring
  have hyear : int32 (p.Y - 1) = p.Y - 1 := int32_eq (by omega)
  have htime : int32 (t.h * 3600000 + t.m * 60000) = t.h * 3600000 + t.m * 60000 :=
    int32_eq (by omega)
  rw [computeJD, if_neg (by rw [hJD]; exact Bool.false_ne_true), if_pos hp.ymd, ← trunc_julianDay]
  dsimp only
  rw [hyear, if_pos hp.hms, if_neg (by rw [hp.zone]; exact Bool.false_ne_true), hsec, hp.hour, hp.minute,
    htime]
  rfl

theorem computeJD_formula {p : DateTime} (hp : Local t p) (ht : t.Valid) (hJD : p.validJD = false)
    (hfits : -63510 ≤ (shift p.Y p.M).1 ∧ (shift p.Y p.M).1 ≤ 54078) (hM : 1 ≤ p.M ∧ p.M ≤ 12)
    (hD : 1 ≤ p.D ∧ p.D ≤ 31) :
    computeJD p = { p with iJD := formulaJD ⟨p.Y, p.M, p.D⟩ t, validJD := true } := by
  obtain ⟨hlo, hhi, hyear⟩ := @shift_range p.Y p.M hM
  rw [computeJD_local hp ht hJD (by omega), formulaJD,
    (wholeDays32_eq_iff (by omega) ⟨hlo, hhi⟩ hD).mpr hfits]

theorem computeYMD_eq {p : DateTime} (hYMD : p.validYMD = false) (hJD : p.validJD = true)
    {Z ms : ℤ} (hZ : 0 ≤ Z ∧ Z < 10000000) (hms : 0 ≤ ms ∧ ms < 86400000)
    (hiJD : p.iJD = Z * 86400000 - 43200000 + ms) :
    computeYMD p =
      { p with Y := (ymdOf Z).Y, M := (ymdOf Z).M, D := (ymdOf Z).D, validYMD := true } := by
  have hday : int32 ((p.iJD + 43200000).tdiv 86400000) = Z := by
    rw [hiJD, Int.tdiv_eq_ediv_of_nonneg (by omega), int32_eq (by omega)]
    omega
  have hA : trunc (((Z : ℚ) - 1867216.25) / 36524.25) = (4 * Z - 7468865).tdiv 146097 := by
    have hdiv := trunc_div (4 * Z - 7468865) (by decide : 0 < 146097)
    refine (congrArg trunc ?_).trans hdiv
    push_cast
    ring
  have hC : ∀ B : ℤ, trunc (((B : ℚ) - 122.1) / 365.25) = (100 * B - 12210).tdiv 36525 := by
    intro B
    have hdiv := trunc_div (100 * B - 12210) (by decide : 0 < 36525)
    refine (congrArg trunc ?_).trans hdiv
    push_cast
    ring
  have hE : ∀ n : ℤ, trunc ((n : ℚ) / 30.6001) = (10000 * n).tdiv 306001 := by
    intro n
    have hdiv := trunc_div (10000 * n) (by decide : 0 < 306001)
    refine (congrArg trunc ?_).trans hdiv
    push_cast
    ring
  have hX1 : ∀ n : ℤ, trunc (30.6001 * (n : ℚ)) = (306001 * n).tdiv 10000 := by
    intro n
    have hdiv := trunc_div (306001 * n) (by decide : 0 < 10000)
    refine (congrArg trunc ?_).trans hdiv
    push_cast
    ring
  rw [computeYMD, if_neg (by rw [hYMD]; exact Bool.false_ne_true), if_pos hJD, hday]
  dsimp only
  rw [hA, hC, hE, hX1]
  obtain ⟨h32A, h32B, h32C, h32E, h32D⟩ := ymdOf_fits hZ
  rw [h32A, h32B, h32C, h32E, h32D]
  rfl

theorem computeHMS_eq {p : DateTime} (hHMS : p.validHMS = false) (hJD : p.validJD = true)
    (ht : t.Valid) {Z : ℤ} (hZ : 0 ≤ Z)
    (hiJD : p.iJD = Z * 86400000 - 43200000 + (t.h * 3600000 + t.m * 60000 + t.s * 1000)) :
    computeHMS p = { p with h := t.h, m := t.m, s := t.s, validHMS := true } := by
  obtain ⟨hh, hm, hs⟩ := ht
  have hmod : (p.iJD + 43200000).tmod 86400000 = (t.h * 3600 + t.m * 60 + t.s) * 1000 := by
    rw [hiJD, Int.tmod_eq_emod_of_nonneg (by omega)]
    omega
  have hr : (((t.h * 3600 + t.m * 60 + t.s) * 1000 : ℤ) : ℚ) / 1000 =
      ((t.h * 3600 + t.m * 60 + t.s : ℤ) : ℚ) := by
    push_cast
    ring
  have hhour : (t.h * 3600 + t.m * 60 + t.s).tdiv 3600 = t.h := by
    rw [Int.tdiv_eq_ediv_of_nonneg (by omega)]
    omega
  have hminute : (t.h * 3600 + t.m * 60 + t.s - t.h * 3600).tdiv 60 = t.m := by
    rw [Int.tdiv_eq_ediv_of_nonneg (by omega)]
    omega
  have hself : computeJD p = p := if_pos hJD
  rw [computeHMS, if_neg (by rw [hHMS]; exact Bool.false_ne_true), hself]
  dsimp only
  rw [hmod, hr, trunc_intCast, hhour, hminute, sub_self, zero_add]
  congr 2
  ring

/-- The date and the time with the Julian day. -/
def full (d : Date) (t : Time) : DateTime := { ofDate d t with iJD := jdOf d t, validJD := true }

theorem local_ofDate (d : Date) (t : Time) : Local t (ofDate d t) := ⟨rfl, rfl, rfl, rfl, rfl, rfl⟩

theorem Date.Valid.day_le (h : d.Valid) : 1 ≤ d.D ∧ d.D ≤ 31 :=
  ⟨h.day.1, h.day.2.trans (daysIn_le d.Y d.M).2⟩

/-- A date that is a day later at most. -/
theorem computeJD_near {e : Date} (ht : t.Valid) (hY : 0 ≤ e.Y ∧ e.Y ≤ 10000)
    (hM : 1 ≤ e.M ∧ e.M ≤ 12) (hD : 1 ≤ e.D ∧ e.D ≤ 31) : computeJD (ofDate e t) = full e t := by
  obtain ⟨-, -, hyear⟩ := @shift_range e.Y e.M hM
  have hfits : -63510 ≤ (shift e.Y e.M).1 ∧ (shift e.Y e.M).1 ≤ 54078 := by omega
  rw [computeJD_formula (local_ofDate e t) ht rfl hfits hM hD]
  change { ofDate e t with iJD := formulaJD e t, validJD := true } = full e t
  rw [formulaJD_eq hY.1 hM]
  rfl

theorem computeJD_ofDate (h : d.Valid) (ht : t.Valid) : computeJD (ofDate d t) = full d t :=
  computeJD_near ht ⟨h.year.1, h.year.2.trans (by decide)⟩ h.month h.day_le

theorem dayNumber_range (h : d.Valid) : 0 < dayNumber d.Y d.M d.D ∧
    dayNumber d.Y d.M d.D < 10000000 := by
  have hy := h.yearDay.year
  have hK := h.yearDay.day
  rw [dayNumber_eq, yearDayNumber]
  omega

theorem computeYMD_HMS_ofJD (h : d.Valid) (ht : t.Valid) (iJD : ℤ) (hiJD : iJD = jdOf d t) :
    computeYMD_HMS (ofJD iJD) =
      { full d t with
        Y := (ymdOf (dayNumber d.Y d.M d.D)).Y, M := (ymdOf (dayNumber d.Y d.M d.D)).M,
        D := (ymdOf (dayNumber d.Y d.M d.D)).D } := by
  obtain ⟨hpos, hlt⟩ := dayNumber_range h
  have hms : 0 ≤ t.h * 3600000 + t.m * 60000 + t.s * 1000 ∧
      t.h * 3600000 + t.m * 60000 + t.s * 1000 < 86400000 := by
    obtain ⟨hh, hm, hs⟩ := ht
    omega
  subst hiJD
  rw [computeYMD_HMS, computeYMD_eq rfl rfl ⟨hpos.le, hlt⟩ hms rfl,
    computeHMS_eq rfl rfl ht hpos.le rfl]
  rfl

/-! ### When the conversions work -/

/-- The year, beginning in March, in which the month lies that is `N` months on. -/
def marchYear (d : Date) (N : ℤ) : ℤ := (12 * d.Y + d.M + N - 3) / 12

/-- The conversions and the modifiers do on a date what the calendar says. -/
structure Works (d : Date) (t : Time) (N : ℤ) : Prop where
  epoch : (computeJD (ofDate ⟨2000, 1, 1⟩ ⟨12, 0, 0⟩)).iJD = 2451545 * 86400000
  next : (computeJD (ofDate d.next t)).iJD = (computeJD (ofDate d t)).iJD + 86400000
  back : ∃ p, computeYMD_HMS (ofJD (computeJD (ofDate d t)).iJD) = p ∧
    p.Y = d.Y ∧ p.M = d.M ∧ p.D = d.D ∧ p.h = t.h ∧ p.m = t.m ∧ p.s = t.s
  months : ∀ p ∈ [ofDate d t, ofJD (computeJD (ofDate d t)).iJD],
    ∃ Y M, 1 ≤ M ∧ M ≤ 12 ∧ 12 * Y + M = 12 * d.Y + d.M + N ∧
      (addMonths p N).Y = Y ∧ (addMonths p N).M = M ∧
      (addMonths p N).iJD = formulaJD ⟨Y, M, d.D⟩ t ∧
      (0 ≤ Y → (addMonths p N).iJD = jdOf ⟨Y, M, d.D⟩ t)
  weekday : ∀ n : ℤ, 0 ≤ n → n ≤ 6 → ∀ p ∈ [ofDate d t, ofJD (computeJD (ofDate d t)).iJD],
    ∃ k, 0 ≤ k ∧ k ≤ 6 ∧
      (weekday p n).iJD = (computeJD (ofDate d t)).iJD + k * 86400000 ∧
      dayOfWeek (weekday p n).iJD = n

theorem exists_month (n : ℤ) : ∃ x, (if 0 < n then (n - 1).tdiv 12 else (n - 12).tdiv 12) = x ∧
    1 ≤ n - x * 12 ∧ n - x * 12 ≤ 12 := by
  refine ⟨_, rfl, ?_⟩
  split
  · rw [Int.tdiv_eq_ediv_of_nonneg (by omega)]
    omega
  · rw [tdiv_of_neg (by omega)]
    omega

/-- **N months on**: the month, and the Julian day as it is computed. -/
theorem addMonths_spec {p : DateTime} (hp : computeYMD_HMS (computeJD p) = full d t) (h : d.Valid)
    (ht : t.Valid) {N : ℤ} (hN : N.natAbs < 10 ^ 6) :
    ∃ Y M, 1 ≤ M ∧ M ≤ 12 ∧ 12 * Y + M = 12 * d.Y + d.M + N ∧
      (addMonths p N).Y = Y ∧ (addMonths p N).M = M ∧ -90000 ≤ Y ∧ Y ≤ 100000 ∧
      (addMonths p N).iJD = (wholeDays32 (shift Y M).1 (shift Y M).2 d.D - 1524) * 86400000 -
        43200000 + (t.h * 3600000 + t.m * 60000 + t.s * 1000) := by
  obtain ⟨x, hx, hM⟩ := exists_month (d.M + N)
  have hY := h.year
  have hdM := h.month
  have hrange : -90000 ≤ d.Y + x ∧ d.Y + x ≤ 100000 := by omega
  have h32M : int32 (d.M + N) = d.M + N := int32_eq (by omega)
  have h32 : int32 (d.M + N - 12) = d.M + N - 12 := int32_eq (by omega)
  have h32x : int32 (d.M + N - x * 12) = d.M + N - x * 12 := int32_eq (by omega)
  have h32Y : int32 (d.Y + x) = d.Y + x := int32_eq (by omega)
  have hx' : (if 0 < int32 (d.M + N) then (int32 (d.M + N) - 1).tdiv 12
      else (int32 (int32 (d.M + N) - 12)).tdiv 12) = x := by rw [h32M, h32, hx]
  have hadd : addMonths p N = clearYMD_HMS_TZ (computeJD
      { full d t with
        M := int32 (int32 (d.M + N) - x * 12), Y := int32 (d.Y + x), validJD := false }) := by
    rw [addMonths, trunc_intCast, if_neg (fun h => h rfl), hp, ← hx']
    rfl
  rw [h32M, h32x, h32Y, computeJD_local ⟨rfl, rfl, rfl, rfl, rfl, rfl⟩ ht rfl hrange] at hadd
  refine ⟨d.Y + x, d.M + N - x * 12, hM.1, hM.2, by ring, ?_, ?_, hrange.1, hrange.2, ?_⟩ <;>
    rw [hadd] <;> rfl

/-- The next occurrence of a day of the week. -/
theorem weekday_spec {p : DateTime} {iJD : ℤ} (hiJD : 0 ≤ iJD)
    (hp : (computeJD { computeYMD_HMS p with validTZ := false, validJD := false }).iJD = iJD)
    {n : ℤ} (hn : 0 ≤ n ∧ n ≤ 6) : ∃ k, 0 ≤ k ∧ k ≤ 6 ∧
      (weekday p n).iJD = iJD + k * 86400000 ∧ dayOfWeek (weekday p n).iJD = n := by
  have hday : ∀ k, 0 ≤ k → dayOfWeek (iJD + k * 86400000) =
      (((iJD + 129600000) / 86400000) + k) % 7 := by
    intro k hk
    rw [dayOfWeek, Int.tdiv_eq_ediv_of_nonneg (by omega), Int.tmod_eq_emod_of_nonneg (by omega)]
    omega
  have hzero := hday 0 le_rfl
  rw [zero_mul, add_zero, add_zero] at hzero
  refine ⟨n - (if n < dayOfWeek iJD then dayOfWeek iJD - 7 else dayOfWeek iJD), ?_, ?_, ?_, ?_⟩
  · rw [hzero]
    split <;> omega
  · rw [hzero]
    split <;> omega
  · rw [weekday, hp]
    rfl
  · have hiJD' : (weekday p n).iJD = iJD + (n - if n < dayOfWeek iJD then dayOfWeek iJD - 7
        else dayOfWeek iJD) * 86400000 := by
      rw [weekday, hp]
      rfl
    rw [hiJD', hday _ (by rw [hzero]; split <;> omega), hzero]
    split <;> omega

theorem Date.Valid.next_range (h : d.Valid) : (0 ≤ d.next.Y ∧ d.next.Y ≤ 10000) ∧
    (1 ≤ d.next.M ∧ d.next.M ≤ 12) ∧ 1 ≤ d.next.D ∧ d.next.D ≤ 31 := by
  have hY := h.year
  have hM := h.month
  have hD := h.day_le
  have hlen := daysIn_le d.Y d.M
  rw [Date.next]
  split
  · dsimp only
    omega
  · split <;> dsimp only <;> omega

theorem computeJD_epoch :
    (computeJD (ofDate ⟨2000, 1, 1⟩ ⟨12, 0, 0⟩)).iJD = 2451545 * 86400000 := by
  rw [computeJD_ofDate ⟨by decide, by decide, by decide⟩ ⟨by decide, by decide, by decide⟩]
  decide

/-- The day number of the first of March 300 is taken for the day before. -/
theorem ymdOf_start : ymdOf (dayNumber 300 3 1) = ⟨300, 2, 29⟩ := by decide

/-- The way back and the modifiers from any day but the start of March 300. -/
theorem full_of_ne (h : d.Valid) (ht : t.Valid) (hne : d ≠ ⟨300, 3, 1⟩) :
    ∀ p ∈ [ofDate d t, ofJD (computeJD (ofDate d t)).iJD],
      computeYMD_HMS (computeJD p) = full d t ∧
      computeJD { computeYMD_HMS p with validTZ := false, validJD := false } = full d t := by
  have hJD : (computeJD (ofDate d t)).iJD = jdOf d t := by rw [computeJD_ofDate h ht]; rfl
  have hback := computeYMD_HMS_ofJD h ht _ hJD
  rw [ymdOf_dayNumber h hne] at hback
  have hyear := h.yearDay.year
  have hfits : -63510 ≤ (shift d.Y d.M).1 ∧ (shift d.Y d.M).1 ≤ 54078 := by omega
  have hclear : computeJD { full d t with validTZ := false, validJD := false } = full d t := by
    rw [computeJD_formula ⟨rfl, rfl, rfl, rfl, rfl, rfl⟩ ht rfl hfits h.month h.day_le]
    change { full d t with iJD := formulaJD d t } = full d t
    rw [formulaJD_eq h.year.1 h.month]
    rfl
  intro p hp
  rw [List.mem_pair] at hp
  obtain rfl | rfl := hp
  · rw [computeJD_ofDate h ht]
    exact ⟨rfl, computeJD_ofDate h ht⟩
  · refine ⟨hback, ?_⟩
    rw [hback]
    exact hclear

/-- **The Julian day of the month** is that of the formula if its year is one the product is for. -/
theorem addMonths_iff {p : DateTime} (hp : computeYMD_HMS (computeJD p) = full d t) (h : d.Valid)
    (ht : t.Valid) {N : ℤ} (hN : N.natAbs < 10 ^ 6) :
    (∃ Y M, 1 ≤ M ∧ M ≤ 12 ∧ 12 * Y + M = 12 * d.Y + d.M + N ∧
      (addMonths p N).Y = Y ∧ (addMonths p N).M = M ∧
      (addMonths p N).iJD = formulaJD ⟨Y, M, d.D⟩ t ∧
      (0 ≤ Y → (addMonths p N).iJD = jdOf ⟨Y, M, d.D⟩ t)) ↔
      -63510 ≤ marchYear d N ∧ marchYear d N ≤ 54078 := by
  obtain ⟨Y, M, hM1, hM12, hsum, hY, hM, hlo, hhi, hiJD⟩ := addMonths_spec hp h ht hN
  obtain ⟨hs1, hs2, hyear⟩ := @shift_range Y M ⟨hM1, hM12⟩
  have hmarch : marchYear d N = (shift Y M).1 := by rw [marchYear, hyear, ← hsum]
  have hdays := @wholeDays32_eq_iff (shift Y M).1 (shift Y M).2 d.D (by omega) ⟨hs1, hs2⟩ h.day_le
  rw [hmarch, ← hdays]
  constructor
  · rintro ⟨Y', M', -, -, -, rfl, rfl, heq, -⟩
    rw [hiJD, formulaJD, hY, hM] at heq
    dsimp only at heq
    omega
  · intro heq
    have hformula : (addMonths p N).iJD = formulaJD ⟨Y, M, d.D⟩ t := by rw [hiJD, heq]; rfl
    refine ⟨Y, M, hM1, hM12, hsum, hY, hM, hformula, fun h0 => ?_⟩
    rw [hformula]
    exact formulaJD_eq h0 ⟨hM1, hM12⟩

theorem works_iff (h : d.Valid) (ht : t.Valid) {N : ℤ} (hN : N.natAbs < 10 ^ 6) :
    Works d t N ↔ d ≠ ⟨300, 3, 1⟩ ∧ -63510 ≤ marchYear d N ∧ marchYear d N ≤ 54078 := by
  have hfirst : ofDate d t ∈ [ofDate d t, ofJD (computeJD (ofDate d t)).iJD] := List.mem_cons_self
  have hJD : (computeJD (ofDate d t)).iJD = jdOf d t := by rw [computeJD_ofDate h ht]; rfl
  constructor
  · intro hworks
    have hne : d ≠ ⟨300, 3, 1⟩ := by
      rintro rfl
      obtain ⟨p, rfl, -, hM, -⟩ := hworks.back
      rw [computeYMD_HMS_ofJD h ht _ hJD] at hM
      exact absurd (hM.symm.trans (congrArg Date.M ymdOf_start)) (by decide)
    exact ⟨hne, (addMonths_iff (full_of_ne h ht hne _ hfirst).1 h ht hN).mp
      (hworks.months _ hfirst)⟩
  · rintro ⟨hne, hfits⟩
    have hfull := full_of_ne h ht hne
    have hpos : 0 ≤ jdOf d t := by
      have hZ := (dayNumber_range h).1
      obtain ⟨hh, hm, hs⟩ := ht
      rw [jdOf]
      omega
    obtain ⟨hnY, hnM, hnD⟩ := h.next_range
    have hback := computeYMD_HMS_ofJD h ht _ hJD
    rw [ymdOf_dayNumber h hne] at hback
    exact {
      epoch := computeJD_epoch
      next := by
        rw [computeJD_near ht hnY hnM hnD, hJD]
        change jdOf d.next t = jdOf d t + 86400000
        rw [jdOf, jdOf, dayNumber_next h]
        ring
      back := ⟨_, hback, rfl, rfl, rfl, rfl, rfl, rfl⟩
      months := fun p hp => (addMonths_iff (hfull p hp).1 h ht hN).mpr hfits
      weekday := fun n h0 h6 p hp => by
        rw [hJD]
        exact weekday_spec hpos (congrArg DateTime.iJD (hfull p hp).2) ⟨h0, h6⟩ }

theorem works_iff_leap :
    Works ⟨2000, 2, 29⟩ ⟨23, 59, 59⟩ (-100000) ↔ (⟨2000, 2, 29⟩ : Date) ≠ ⟨300, 3, 1⟩ ∧
      -63510 ≤ marchYear ⟨2000, 2, 29⟩ (-100000) ∧ marchYear ⟨2000, 2, 29⟩ (-100000) ≤ 54078 :=
  works_iff ⟨by decide, by decide, by decide⟩ ⟨by decide, by decide, by decide⟩ (by decide)

theorem not_forall_works : ¬∀ (d : Date) (t : Time) (N : ℤ), d.Valid → t.Valid →
    N.natAbs < 10 ^ 6 → Works d t N := by
  intro hall
  have h : (⟨300, 3, 1⟩ : Date).Valid := ⟨by decide, by decide, by decide⟩
  have ht : (⟨0, 0, 0⟩ : Time).Valid := ⟨by decide, by decide, by decide⟩
  obtain ⟨p, rfl, -, hM, -⟩ := (hall _ _ 0 h ht (by decide)).back
  rw [computeYMD_HMS_ofJD h ht _ (congrArg DateTime.iJD (computeJD_ofDate h ht))] at hM
  exact absurd (hM.symm.trans (congrArg Date.M ymdOf_start)) (by decide)

end Calendar

end SqliteVms
