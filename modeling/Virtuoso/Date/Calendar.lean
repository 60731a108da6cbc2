import Mathlib.Tactic.IntervalCases

/-!
# Day numbers (`date2num`, `num2date`)

A date is Julian up to the fourth of October 1582 and Gregorian from the fifteenth on.  Both ways
between dates and day numbers are closed forms that count years from March, so that a leap day ends
its year.  The year 4 has no leap day for `days_in_february` but has one in the closed forms; the
day that is too much is taken back for the first of January 5 only.

C's division truncates: it is `tdiv` here, and `year & 3` is the remainder of the other division.
-/

namespace Virtuoso.Date

variable {d : Ymd}

/-- A date as the functions take and return it. -/
structure Ymd where
  year : ℤ
  month : ℤ
  day : ℤ
deriving DecidableEq, Repr

/-! ## The functions -/

def gregYear : ℤ := 1582
def gregMonth : ℤ := 10
def gregLastJulianDay : ℤ := 4
def gregLastJulianDayAsProlepticGreg : ℤ := 14

/-- `GREG_YMD_IS_PROLEPTIC_GREG`. -/
def gregYmdIsProlepticGreg (d : Ymd) : Prop :=
  d.year < gregYear ∨ d.year = gregYear ∧
    (d.month < gregMonth ∨ d.month = gregMonth ∧ d.day ≤ gregLastJulianDayAsProlepticGreg)

instance : DecidablePred gregYmdIsProlepticGreg := fun d => by
  unfold gregYmdIsProlepticGreg
  infer_instance

/-- `GREG_YMD_IS_POST_JULIAN_PROLEPTIC_GREG`: the days that the reformation left out. -/
def gregYmdIsPostJulianProlepticGreg (d : Ymd) : Prop :=
  d.year = gregYear ∧ d.month = gregMonth ∧
    d.day ≤ gregLastJulianDayAsProlepticGreg ∧ gregLastJulianDay < d.day

instance : DecidablePred gregYmdIsPostJulianProlepticGreg := fun d => by
  unfold gregYmdIsPostJulianProlepticGreg
  infer_instance

/-- `days_in_month`. -/
def daysInMonth : List ℤ := [31, 28, 31, 30, 31, 30, 31, 31, 30, 31, 30, 31]

/-- `days_in_february`. -/
def daysInFebruary (year : ℤ) : ℤ :=
  let day : ℤ :=
    if gregYear < year ∨ year = gregYear ∧
        (gregMonth = 1 ∨ gregMonth = 2 ∧ 28 ≤ gregLastJulianDayAsProlepticGreg) then
      if year % 4 ≠ 0 then 28 else if year.tmod 100 = 0 ∧ year.tmod 400 ≠ 0 then 28 else 29
    else if year % 4 ≠ 0 then 28 else 29
  if year = 4 then day - 1 else day

/-- `ymd_valid_p`. -/
def ymdValidP (d : Ymd) : Prop :=
  ¬ (d.day < 0 ∨ d.month < 1 ∨ 12 < d.month ∨ d.year < 1 ∨ 9999 < d.year ∨
    (d.month ≠ 2 ∧ daysInMonth.getD (d.month - 1).toNat 0 < d.day) ∨
    (d.month = 2 ∧ daysInFebruary d.year < d.day))

instance : DecidablePred ymdValidP := fun d => by
  unfold ymdValidP
  infer_instance

/-- `date2num`. -/
def date2num (d : Ymd) : ℤ :=
  let a := (14 - d.month).tdiv 12
  let y := (if d.year < 0 then d.year + 1 else d.year) + 4800 - a
  let m := d.month + 12 * a - 3
  let jdn :=
    if gregYmdIsProlepticGreg d then
      let jdn := d.day + (153 * m + 2).tdiv 5 + 365 * y + y.tdiv 4 - 32083
      if jdn = 1722885 ∧ d.day = 1 then jdn - 1 else jdn
    else d.day + (153 * m + 2).tdiv 5 + 365 * y + y.tdiv 4 - y.tdiv 100 + y.tdiv 400 - 32045
  jdn - 1721423

/-- `num2date`. -/
def num2date (julianDays : ℤ) : Ymd :=
  let jdn := julianDays + 1721423
  if 2299161 ≤ jdn then
    let mj := jdn + 32044
    let g := mj.tdiv 146097
    let dg := mj.tmod 146097
    let c := ((dg.tdiv 36524 + 1) * 3).tdiv 4
    let dc := dg - c * 36524
    let b := dc.tdiv 1461
    let db := dc.tmod 1461
    let a := ((db.tdiv 365 + 1) * 3).tdiv 4
    let da := db - a * 365
    let y := g * 400 + c * 100 + b * 4 + a
    let m := (da * 5 + 308).tdiv 153 - 2
    let d := da - ((m + 4) * 153).tdiv 5 + 122
    ⟨y - 4800 + (m + 2).tdiv 12, (m + 2).tmod 12 + 1, d + 1⟩
  else if jdn = 1722884 then ⟨5, 1, 1⟩
  else
    let c := jdn + 32082
    let d := (4 * c + 3).tdiv 1461
    let e := c - (1461 * d).tdiv 4
    let m := (5 * e + 2).tdiv 153
    let y := d - 4800 + m.tdiv 10
    ⟨if y < 0 then y - 1 else y, m + 3 - 12 * m.tdiv 10, e - (153 * m + 2).tdiv 5 + 1⟩

/-! ## Years that start in March -/

variable {c y e m k : ℤ} {d' : Ymd}

theorem julianYear_join (hc : 0 ≤ c) (hy : y = (4 * c + 3) / 1461) :
    0 ≤ y ∧ 1461 * y / 4 = 365 * y + y / 4 ∧ 0 ≤ c - (365 * y + y / 4) ∧
      c - (365 * y + y / 4) ≤ 365 ∧ (c - (365 * y + y / 4) = 365 → y % 4 = 3) := by
  omega

/-- A fourth of four parts, the last of which has one day more. -/
theorem fourth_split {n r : ℤ} (hc : 0 ≤ c) (hc' : c ≤ 3) (hr : 0 ≤ r) (hn : 0 < n)
    (h : r < n ∨ r = n ∧ c = 3) : ((c * n + r) / n + 1) * 3 / 4 = c := by
  rcases h with h | ⟨rfl, rfl⟩
  · rw [mul_comm c, Int.mul_add_ediv_left _ _ hn.ne', Int.ediv_eq_zero_of_lt hr h]
    omega
  · rw [show 3 * r + r = 4 * r by omega, Int.mul_ediv_cancel _ hn.ne']
    rfl

theorem century_split {g b a : ℤ} (hc : 0 ≤ c ∧ c ≤ 3) (hb : 0 ≤ b ∧ b ≤ 24) (ha : 0 ≤ a ∧ a ≤ 3)
    (he : 0 ≤ e ∧ e ≤ 365) (hleap : e = 365 → a = 3 ∧ (b = 24 → c = 3)) {mj : ℤ}
    (hmj : mj = g * 146097 + c * 36524 + b * 1461 + a * 365 + e) :
    mj / 146097 = g ∧ (mj % 146097 / 36524 + 1) * 3 / 4 = c ∧ (mj % 146097 - c * 36524) / 1461 = b ∧
      (mj % 146097 - c * 36524) % 1461 = a * 365 + e ∧
      ((mj % 146097 - c * 36524) % 1461 / 365 + 1) * 3 / 4 = a := by
  have hdg : mj % 146097 = c * 36524 + (b * 1461 + a * 365 + e) := by omega
  have hdb : (mj % 146097 - c * 36524) % 1461 = a * 365 + e := by omega
  refine ⟨by omega, ?_, by omega, hdb, ?_⟩
  · rw [hdg]
    exact fourth_split hc.1 hc.2 (by omega) (by decide) (by omega)
  · rw [hdb]
    exact fourth_split ha.1 ha.2 he.1 (by decide) (by omega)

theorem century_join (mj : ℤ) : ∃ g c b a e : ℤ,
    mj = g * 146097 + c * 36524 + b * 1461 + a * 365 + e ∧ (0 ≤ c ∧ c ≤ 3) ∧ (0 ≤ b ∧ b ≤ 24) ∧
      (0 ≤ a ∧ a ≤ 3) ∧ (0 ≤ e ∧ e ≤ 365) ∧ (e = 365 → a = 3 ∧ (b = 24 → c = 3)) := by
  obtain ⟨dg, hdg⟩ : ∃ dg, dg = mj % 146097 := ⟨_, rfl⟩
  obtain ⟨c, hc⟩ : ∃ c, c = (dg / 36524 + 1) * 3 / 4 := ⟨_, rfl⟩
  obtain ⟨dc, hdc⟩ : ∃ dc, dc = dg - c * 36524 := ⟨_, rfl⟩
  obtain ⟨a, ha⟩ : ∃ a, a = (dc % 1461 / 365 + 1) * 3 / 4 := ⟨_, rfl⟩
  exact ⟨mj / 146097, c, dc / 1461, a, dc % 1461 - a * 365, by omega, by omega, by omega, by omega,
    by omega, by omega⟩

theorem month_join (he : 0 ≤ e) (he' : e ≤ 365) (hm : m = (5 * e + 2) / 153) :
    0 ≤ m ∧ m ≤ 11 ∧ (153 * m + 2) / 5 ≤ e ∧ e < (153 * (m + 1) + 2) / 5 := by
  omega

theorem add_two_ediv_twelve (hm : 0 ≤ m) (hm' : m ≤ 11) : (m + 2) / 12 = m / 10 := by
  interval_cases m <;> rfl

/-! ## Dates in such years -/

/-- The year of a date, when it starts in March. -/
def marchYear (d : Ymd) : ℤ :=
  (if d.year < 0 then d.year + 1 else d.year) + 4800 - (14 - d.month) / 12

/-- The month of a date, when March is 0. -/
def marchMonth (d : Ymd) : ℤ := d.month + 12 * ((14 - d.month) / 12) - 3

def yearDay (d : Ymd) : ℤ := d.day - 1 + (153 * marchMonth d + 2) / 5

/-- The date of the day `e` of a year that starts in March, in its month `m`. -/
def ofMarch (y e m : ℤ) : Ymd :=
  ⟨if y - 4800 + m / 10 < 0 then y - 4800 + m / 10 - 1 else y - 4800 + m / 10,
    m + 3 - 12 * (m / 10), e - (153 * m + 2) / 5 + 1⟩

theorem marchMonth_eq (d : Ymd) : marchMonth d = d.month + 12 * ((14 - d.month) / 12) - 3 := rfl

theorem yearDay_eq (d : Ymd) : yearDay d = d.day - 1 + (153 * marchMonth d + 2) / 5 := rfl

/-- The closed forms of `date2num`. -/
def plainNum (d : Ymd) : ℤ :=
  if gregYmdIsProlepticGreg d then 365 * marchYear d + marchYear d / 4 + yearDay d - 1753505
  else
    365 * marchYear d + marchYear d / 4 - marchYear d / 100 + marchYear d / 400 +
      yearDay d - 1753467

theorem date2num_eq (hm : 1 ≤ d.month) (hm' : d.month ≤ 12) (hy : 0 ≤ marchYear d) :
    date2num d = if gregYmdIsProlepticGreg d ∧ plainNum d = 1462 ∧ d.day = 1 then 1461
      else plainNum d := by
  have ha : (14 - d.month).tdiv 12 = (14 - d.month) / 12 := Int.tdiv_eq_ediv_of_nonneg (by omega)
  have hmm : (153 * marchMonth d + 2).tdiv 5 = (153 * marchMonth d + 2) / 5 :=
    Int.tdiv_eq_ediv_of_nonneg (by rw [marchMonth]; omega)
  have hyear : (if d.year < 0 then d.year + 1 else d.year) + 4800 - (14 - d.month) / 12 =
    marchYear d := rfl
  have hmonth : d.month + 12 * ((14 - d.month) / 12) - 3 = marchMonth d := rfl
  simp only [date2num, ha, hyear, hmonth, hmm, Int.tdiv_eq_ediv_of_nonneg hy, plainNum, yearDay]
  by_cases hg : gregYmdIsProlepticGreg d
  · simp only [hg, if_true, true_and]
    split_ifs <;> omega
  · simp only [hg, if_false, false_and]
    omega

/-- The closed forms of `num2date` for a Julian date. -/
theorem num2date_julian (hk : -1753505 ≤ k) (hk' : k ≤ 577737) (hne : k ≠ 1461)
    (hy : y = (4 * (k + 1753505) + 3) / 1461) (he : e = k + 1753505 - (365 * y + y / 4))
    (hm : m = (5 * e + 2) / 153) : num2date k = ofMarch y e m := by
  obtain ⟨hy0, hyear, he0, he1, -⟩ := julianYear_join (by omega) hy
  rw [← he] at he0 he1
  obtain ⟨hm0, -⟩ := month_join he0 he1 hm
  have hc : k + 1721423 + 32082 = k + 1753505 := by omega
  have h1 : (4 * (k + 1753505) + 3).tdiv 1461 = y := by
    rw [hy, Int.tdiv_eq_ediv_of_nonneg (by omega)]
  have h2 : k + 1753505 - (1461 * y).tdiv 4 = e := by
    rw [Int.tdiv_eq_ediv_of_nonneg (by omega), hyear, he]
  have h3 : (5 * e + 2).tdiv 153 = m := by rw [hm, Int.tdiv_eq_ediv_of_nonneg (by omega)]
  have h4 : m.tdiv 10 = m / 10 := Int.tdiv_eq_ediv_of_nonneg hm0
  have h5 : (153 * m + 2).tdiv 5 = (153 * m + 2) / 5 := Int.tdiv_eq_ediv_of_nonneg (by omega)
  rw [num2date, if_neg (by omega), if_neg (by omega)]
  simp only [hc, h1, h2, h3, h4, h5, ofMarch]

/-- The closed forms of `num2date` for a Gregorian date. -/
theorem num2date_gregorian (hk : 577738 ≤ k) {g b a : ℤ} (hc : 0 ≤ c ∧ c ≤ 3) (hb : 0 ≤ b ∧ b ≤ 24)
    (ha : 0 ≤ a ∧ a ≤ 3) (he : 0 ≤ e ∧ e ≤ 365) (hleap : e = 365 → a = 3 ∧ (b = 24 → c = 3))
    (hmj : k + 1753467 = g * 146097 + c * 36524 + b * 1461 + a * 365 + e)
    (hy : y = g * 400 + c * 100 + b * 4 + a) (hm : m = (5 * e + 2) / 153) :
    num2date k = ⟨y - 4800 + m / 10, m + 3 - 12 * (m / 10), e - (153 * m + 2) / 5 + 1⟩ := by
  obtain ⟨hg', hc', hb', hdb', ha'⟩ := century_split hc hb ha he hleap hmj
  obtain ⟨hm0, hm1, -⟩ := month_join he.1 he.2 hm
  have hk' : k + 1721423 + 32044 = k + 1753467 := by omega
  have h1 : (k + 1753467).tdiv 146097 = g := by rw [Int.tdiv_eq_ediv_of_nonneg (by omega), hg']
  have h2 : (k + 1753467).tmod 146097 = (k + 1753467) % 146097 :=
    Int.tmod_eq_emod_of_nonneg (by omega)
  generalize hdg : (k + 1753467) % 146097 = dg at hc' hb' hdb' ha' h2
  have h3 : ((dg.tdiv 36524 + 1) * 3).tdiv 4 = c := by
    rw [Int.tdiv_eq_ediv_of_nonneg (a := dg) (by omega), Int.tdiv_eq_ediv_of_nonneg (by omega), hc']
  have h4 : (dg - c * 36524).tdiv 1461 = b := by
    rw [Int.tdiv_eq_ediv_of_nonneg (by omega), hb']
  have h5 : (dg - c * 36524).tmod 1461 = a * 365 + e := by
    rw [Int.tmod_eq_emod_of_nonneg (by omega), hdb']
  have h6 : (((a * 365 + e).tdiv 365 + 1) * 3).tdiv 4 = a := by
    rw [Int.tdiv_eq_ediv_of_nonneg (a := a * 365 + e) (by omega),
      Int.tdiv_eq_ediv_of_nonneg (by omega), ← hdb', ha']
  have h7 : a * 365 + e - a * 365 = e := by omega
  have h8 : (e * 5 + 308).tdiv 153 - 2 = m := by
    rw [Int.tdiv_eq_ediv_of_nonneg (by omega)]
    omega
  have h9 : ((m + 4) * 153).tdiv 5 = (153 * m + 2) / 5 + 122 := by
    rw [Int.tdiv_eq_ediv_of_nonneg (by omega)]
    omega
  have h10 : (m + 2).tdiv 12 = m / 10 := by
    rw [Int.tdiv_eq_ediv_of_nonneg (by omega), add_two_ediv_twelve hm0 hm1]
  have h11 : (m + 2).tmod 12 = m + 2 - 12 * (m / 10) := by
    rw [Int.tmod_eq_emod_of_nonneg (by omega), ← add_two_ediv_twelve hm0 hm1]
    omega
  rw [num2date, if_pos (by omega)]
  simp only [hk', h1, h2, h3, h4, h5, h6, h7, h8, h9, h10, h11, ← hy, Ymd.mk.injEq]
  refine ⟨trivial, ?_, ?_⟩ <;> omega

/-- Every day number from that of the first of March of the year 0 of the closed forms on: the year
and the day in it, and the date that is made of them. -/
theorem num2date_march (hk : -1753505 ≤ k) (hne : k ≠ 1461) : ∃ y e m : ℤ,
    0 ≤ y ∧ 0 ≤ e ∧ e ≤ 365 ∧ m = (5 * e + 2) / 153 ∧
      (e = 365 → y % 4 = 3 ∧ (577738 ≤ k → y % 100 = 99 → y % 400 = 399)) ∧
      (k ≤ 577737 → k + 1753505 = 365 * y + y / 4 + e) ∧
      (577738 ≤ k → k + 1753467 = 365 * y + y / 4 - y / 100 + y / 400 + e) ∧
      num2date k = ofMarch y e m := by
  rcases le_or_gt k 577737 with hle | hgt
  · obtain ⟨hy, -, he, he', hleap⟩ := julianYear_join (by omega : 0 ≤ k + 1753505) rfl
    exact ⟨_, _, _, hy, he, he', rfl, fun h => ⟨hleap h, by omega⟩, by omega, by omega,
      num2date_julian hk hle hne rfl rfl rfl⟩
  · obtain ⟨g, c, b, a, e, hmj, hc, hb, ha, he, hleap⟩ := century_join (k + 1753467)
    refine ⟨g * 400 + c * 100 + b * 4 + a, e, _, by omega, he.1, he.2, rfl, by omega, by omega,
      by omega, ?_⟩
    rw [num2date_gregorian hgt hc hb ha he hleap hmj rfl rfl, ofMarch, if_neg (by omega)]

/-- The parts of a date that is made of a year and a day in it. -/
theorem march_of (he : 0 ≤ e) (he' : e ≤ 365) (hm : m = (5 * e + 2) / 153)
    (hd : d = ofMarch y e m) :
    marchYear d = y ∧ marchMonth d = m ∧ yearDay d = e ∧ (1 ≤ d.month ∧ d.month ≤ 12) ∧
      1 ≤ d.day ∧ d.day ≤ (153 * (m + 1) + 2) / 5 - (153 * m + 2) / 5 := by
  have hcases : m / 10 = 0 ∧ m ≤ 9 ∨ m / 10 = 1 ∧ 10 ≤ m := by omega
  have hten : (14 - (m + 3 - 12 * (m / 10))) / 12 = m / 10 := by omega
  have hyear : marchYear d = y := by
    rw [marchYear, hd]
    simp only [ofMarch, hten]
    split_ifs <;> omega
  have hmonth : marchMonth d = m := by
    rw [marchMonth, hd]
    simp only [ofMarch, hten]
    omega
  refine ⟨hyear, hmonth, ?_, ?_, ?_⟩
  · rw [yearDay, hmonth, hd]
    simp only [ofMarch]
    omega
  · rw [hd]
    simp only [ofMarch]
    omega
  · rw [hd]
    simp only [ofMarch]
    omega

theorem gregYmdIsProlepticGreg_iff : gregYmdIsProlepticGreg d ↔
    d.year < 1582 ∨ d.year = 1582 ∧ (d.month < 10 ∨ d.month = 10 ∧ d.day ≤ 14) := Iff.rfl

/-- A date is Julian if its year and day in it are before those of the fifth of October 1582. -/
theorem gregYmdIsProlepticGreg_of_march (hm : 1 ≤ d.month) (hm' : d.month ≤ 12) (hday : 1 ≤ d.day)
    (hlen : d.day ≤ (153 * (marchMonth d + 1) + 2) / 5 - (153 * marchMonth d + 2) / 5) :
    (marchYear d < 6382 ∨ marchYear d = 6382 ∧ yearDay d ≤ 217 → gregYmdIsProlepticGreg d) ∧
    (6382 < marchYear d ∨ marchYear d = 6382 ∧ 228 ≤ yearDay d → ¬ gregYmdIsProlepticGreg d) := by
  simp only [gregYmdIsProlepticGreg_iff, marchYear, yearDay, marchMonth] at *
  constructor
  · intro h
    split_ifs at h <;> omega
  · intro h
    split_ifs at h <;> omega

/-- The date of a number has the number, by the closed forms. -/
theorem plainNum_num2date (hk : -1753505 ≤ k) (hne : k ≠ 1461) : plainNum (num2date k) = k := by
  obtain ⟨y, e, m, hy, he, he', hm, -, hj, hgreg, hd⟩ := num2date_march hk hne
  obtain ⟨hyear, hmonth, hyd, hmon, hday, hlen⟩ := march_of he he' hm hd
  rw [← hmonth] at hlen
  obtain ⟨hjul, hnot⟩ := gregYmdIsProlepticGreg_of_march hmon.1 hmon.2 hday hlen
  rw [plainNum, hyear, hyd]
  rcases le_or_gt k 577737 with hle | hgt
  · rw [if_pos (hjul (by omega))]
    omega
  · rw [if_neg (hnot (by omega))]
    omega

theorem date2num_num2date_iff (hk : -1753505 ≤ k) : date2num (num2date k) = k ↔ k ≠ 1462 := by
  by_cases hne : k = 1461
  · subst hne
    decide
  obtain ⟨y, e, m, hy, he, he', hm, -, hj, -, hd⟩ := num2date_march hk hne
  obtain ⟨hyear, -, -, hmon, hday, -⟩ := march_of he he' hm hd
  rw [date2num_eq hmon.1 hmon.2 (hyear ▸ hy), plainNum_num2date hk hne]
  constructor
  · rintro h rfl
    rw [if_pos (by decide)] at h
    omega
  · intro h
    rw [if_neg fun hex => h hex.2.1]

/-! ## The calendar -/

/-- The dates of the calendar: valid, with a day, and not left out by the reformation. -/
structure Proper (d : Ymd) : Prop where
  valid : ymdValidP d
  day : 1 ≤ d.day
  kept : ¬ gregYmdIsPostJulianProlepticGreg d

def Before (d d' : Ymd) : Prop :=
  d.year < d'.year ∨ d.year = d'.year ∧ (d.month < d'.month ∨ d.month = d'.month ∧ d.day < d'.day)

/-- The next date of the calendar. -/
structure Next (d d' : Ymd) : Prop where
  proper : Proper d
  proper' : Proper d'
  before : Before d d'
  least : ∀ e, Proper e → Before d e → ¬ Before e d'

theorem daysInFebruary_eq {year : ℤ} (h : 0 < year) : daysInFebruary year =
    if year % 4 = 0 ∧ year ≠ 4 ∧ (1582 < year → year % 100 = 0 → year % 400 = 0) then 29
      else 28 := by
  rw [daysInFebruary, Int.tmod_eq_emod_of_nonneg h.le, Int.tmod_eq_emod_of_nonneg h.le]
  simp only [gregYear, gregMonth]
  split_ifs <;> omega

/-- Apart from February the months have the lengths of the closed forms. -/
theorem daysInMonth_eq {month : ℤ} (hm : 1 ≤ month) (hm' : month ≤ 12) (hne : month ≠ 2)
    (h : m = month + 12 * ((14 - month) / 12) - 3) :
    daysInMonth.getD (month - 1).toNat 0 = (153 * (m + 1) + 2) / 5 - (153 * m + 2) / 5 := by
  subst h
  interval_cases month <;> first | rfl | exact absurd rfl hne

theorem ymdValidP_iff : ymdValidP d ↔ 0 ≤ d.day ∧ 1 ≤ d.month ∧ d.month ≤ 12 ∧
    1 ≤ d.year ∧ d.year ≤ 9999 ∧
    (d.month ≠ 2 → d.day ≤ (153 * (marchMonth d + 1) + 2) / 5 - (153 * marchMonth d + 2) / 5) ∧
    (d.month = 2 → d.day ≤ daysInFebruary d.year) := by
  by_cases hm : 1 ≤ d.month ∧ d.month ≤ 12
  · by_cases h2 : d.month = 2
    · rw [ymdValidP]
      omega
    · rw [ymdValidP, daysInMonth_eq hm.1 hm.2 h2 rfl, ← marchMonth]
      omega
  · rw [ymdValidP]
    omega

/-- What a date of the calendar is in years that start in March. -/
structure Proper.InMarch (d : Ymd) : Prop where
  month : 1 ≤ d.month ∧ d.month ≤ 12
  year : marchYear d = d.year + 4800 - (14 - d.month) / 12
  day : 0 ≤ yearDay d ∧ yearDay d ≤ 365
  inMonth : (153 * marchMonth d + 2) / 5 ≤ yearDay d ∧
    yearDay d < (153 * (marchMonth d + 1) + 2) / 5
  leap : yearDay d = 365 → marchYear d % 4 = 3 ∧
    (6382 < marchYear d → marchYear d % 100 = 99 → marchYear d % 400 = 399)

theorem Proper.inMarch (h : Proper d) : InMarch d := by
  obtain ⟨-, hm, hm', hy, -, hlen, hfeb⟩ := ymdValidP_iff.1 h.valid
  have hday := h.day
  have hyear : marchYear d = d.year + 4800 - (14 - d.month) / 12 := by
    rw [marchYear, if_neg (by omega)]
  have hmonth := marchMonth_eq d
  have hyd := yearDay_eq d
  by_cases h2 : d.month = 2
  · have h11 : marchMonth d = 11 := by omega
    have hfeb := hfeb h2
    rw [daysInFebruary_eq (by omega)] at hfeb
    rw [h11] at hyd
    refine ⟨⟨hm, hm'⟩, hyear, ?_, h11 ▸ ?_, fun h365 => ?_⟩
    · split_ifs at hfeb <;> omega
    · split_ifs at hfeb <;> omega
    · split_ifs at hfeb <;> omega
  · have hle : marchMonth d ≤ 10 := by omega
    exact ⟨⟨hm, hm'⟩, hyear, by omega, by omega, by omega⟩

/-- A date of the calendar is Julian or Gregorian by its year and the day in it. -/
theorem Proper.julian_or (h : Proper d) :
    gregYmdIsProlepticGreg d ∧ (marchYear d < 6382 ∨ marchYear d = 6382 ∧ yearDay d ≤ 217) ∨
    ¬ gregYmdIsProlepticGreg d ∧ (6382 < marchYear d ∨ marchYear d = 6382 ∧ 228 ≤ yearDay d) := by
  have hm := h.inMarch
  have hkept : ¬ (d.year = 1582 ∧ d.month = 10 ∧ d.day ≤ 14 ∧ 4 < d.day) := h.kept
  have hmonth := marchMonth_eq d
  have hyd := yearDay_eq d
  obtain ⟨hmon, hyear, -, hin, -⟩ := hm
  rw [gregYmdIsProlepticGreg_iff]
  omega

theorem Before.march (hd : Proper d) (hd' : Proper d') (h : Before d d') :
    marchYear d < marchYear d' ∨ marchYear d = marchYear d' ∧ yearDay d < yearDay d' := by
  obtain ⟨hmon, hyear, -, hin, -⟩ := hd.inMarch
  obtain ⟨hmon', hyear', -, hin', -⟩ := hd'.inMarch
  have hmonth := marchMonth_eq d
  have hyd := yearDay_eq d
  have hmonth' := marchMonth_eq d'
  have hyd' := yearDay_eq d'
  rw [Before] at h
  omega

/-- The closed forms follow the order of dates. -/
theorem plainNum_lt (hd : Proper d) (hd' : Proper d') (h : Before d d') :
    plainNum d < plainNum d' := by
  have hlt := h.march hd hd'
  obtain ⟨-, -, hday, -, hleap⟩ := hd.inMarch
  obtain ⟨-, -, hday', -, -⟩ := hd'.inMarch
  rw [plainNum, plainNum]
  rcases hd.julian_or with ⟨hj, hlo⟩ | ⟨hg, hhi⟩
  · rw [if_pos hj]
    rcases hd'.julian_or with ⟨hj', hlo'⟩ | ⟨hg', hhi'⟩
    · rw [if_pos hj']
      omega
    · rw [if_neg hg']
      omega
  · rw [if_neg hg]
    rcases hd'.julian_or with ⟨hj', hlo'⟩ | ⟨hg', hhi'⟩
    · omega
    · omega

theorem Before.trichotomy (d d' : Ymd) : Before d d' ∨ d = d' ∨ Before d' d := by
  obtain ⟨y, m, day⟩ := d
  obtain ⟨y', m', day'⟩ := d'
  simp only [Before, Ymd.mk.injEq]
  omega

theorem plainNum_lt_iff (hd : Proper d) (hd' : Proper d') :
    plainNum d < plainNum d' ↔ Before d d' := by
  refine ⟨fun h => ?_, plainNum_lt hd hd'⟩
  rcases Before.trichotomy d d' with hlt | rfl | hgt
  · exact hlt
  · exact absurd h (lt_irrefl _)
  · exact absurd (plainNum_lt hd' hd hgt) h.asymm

theorem plainNum_inj (hd : Proper d) (hd' : Proper d') (h : plainNum d = plainNum d') : d = d' := by
  rcases Before.trichotomy d d' with hlt | heq | hgt
  · exact absurd h (plainNum_lt hd hd' hlt).ne
  · exact heq
  · exact absurd h (plainNum_lt hd' hd hgt).ne'

/-- The dates of the numbers from 1 to 3652061 are those of the calendar, but for the leap day of
the year 4. -/
theorem proper_num2date (hk : 1 ≤ k) (hk' : k ≤ 3652061) (hne : k ≠ 1461) (hleap : k ≠ 1155) :
    Proper (num2date k) := by
  obtain ⟨y, e, m, hy, he, he', hm, h365, hj, hg, hd⟩ := num2date_march (by omega) hne
  obtain ⟨hyear, hmonth, hyd, hmon, hday, hlen⟩ := march_of he he' hm hd
  have hcases : m / 10 = 0 ∧ e ≤ 305 ∨ m / 10 = 1 ∧ 306 ≤ e := by omega
  have hyear' : (num2date k).year = y - 4800 + m / 10 := by
    rw [hd]
    exact if_neg (by omega)
  have hmonth' : (num2date k).month = m + 3 - 12 * (m / 10) := by rw [hd, ofMarch]
  have hday' : (num2date k).day = e - (153 * m + 2) / 5 + 1 := by rw [hd, ofMarch]
  refine ⟨ymdValidP_iff.2 ⟨by omega, hmon.1, hmon.2, by omega, by omega, fun _ => hmonth ▸ hlen,
    fun h2 => ?_⟩, hday, ?_⟩
  · rw [daysInFebruary_eq (by omega)]
    split_ifs <;> omega
  · rintro ⟨h1, h2, h3, h4⟩
    simp only [gregYear, gregMonth, gregLastJulianDay, gregLastJulianDayAsProlepticGreg] at *
    omega

theorem eq_iff_plainNum {e : Ymd} (hd : Proper d) (he : Proper e) {k : ℤ} (hk : plainNum e = k) :
    d = e ↔ plainNum d = k :=
  ⟨fun h => h ▸ hk, fun h => plainNum_inj hd he (h.trans hk.symm)⟩

theorem plainNum_newYear : Proper ⟨5, 1, 1⟩ ∧ plainNum ⟨5, 1, 1⟩ = 1462 :=
  ⟨⟨by decide, by decide, by decide⟩, by decide⟩

theorem date2num_of_proper (h : Proper d) :
    date2num d = if plainNum d = 1462 then 1461 else plainNum d := by
  have hy := (ymdValidP_iff.1 h.valid).2.2.2.1
  obtain ⟨hmonth, hyear, -⟩ := h.inMarch
  rw [date2num_eq hmonth.1 hmonth.2 (by omega)]
  refine if_congr ⟨fun hex => hex.2.1, fun heq => ?_⟩ rfl rfl
  rw [(eq_iff_plainNum h plainNum_newYear.1 plainNum_newYear.2).2 heq]
  decide

theorem plainNum_first : Proper ⟨1, 1, 1⟩ ∧ plainNum ⟨1, 1, 1⟩ = 1 :=
  ⟨⟨by decide, by decide, by decide⟩, by decide⟩

theorem plainNum_last : Proper ⟨9999, 12, 31⟩ ∧ plainNum ⟨9999, 12, 31⟩ = 3652061 :=
  ⟨⟨by decide, by decide, by decide⟩, by decide⟩

theorem plainNum_range (h : Proper d) : 1 ≤ plainNum d ∧ plainNum d ≤ 3652061 := by
  obtain ⟨-, hm, hm', hy, hy', hlen, -⟩ := ymdValidP_iff.1 h.valid
  have hday := h.day
  constructor
  · rw [← plainNum_first.2, ← not_lt, plainNum_lt_iff h plainNum_first.1, Before]
    simp only
    omega
  · rw [← plainNum_last.2, ← not_lt, plainNum_lt_iff plainNum_last.1 h, Before]
    simp only
    intro hlt
    omega

/-- No date of the calendar has the number of the leap day of the year 4. -/
theorem plainNum_ne_leap (h : Proper d) : plainNum d ≠ 1155 := by
  intro heq
  have h28 : Before ⟨4, 2, 28⟩ d :=
    (plainNum_lt_iff ⟨by decide, by decide, by decide⟩ h).1 (heq ▸ by decide)
  have h1 : Before d ⟨4, 3, 1⟩ :=
    (plainNum_lt_iff h ⟨by decide, by decide, by decide⟩).1 (heq ▸ by decide)
  obtain ⟨-, -, -, -, -, -, hfeb⟩ := ymdValidP_iff.1 h.valid
  have hday := h.day
  simp only [Before] at h28 h1
  have hyear : d.year = 4 := by omega
  have hlen := hfeb (by omega)
  rw [hyear, show daysInFebruary 4 = 28 by decide] at hlen
  omega

theorem num2date_plainNum (h : Proper d) (hne : plainNum d ≠ 1461) : num2date (plainNum d) = d := by
  obtain ⟨hlo, hhi⟩ := plainNum_range h
  exact plainNum_inj (proper_num2date hlo hhi hne (plainNum_ne_leap h)) h
    (plainNum_num2date (by omega) hne)

theorem exists_plainNum (hk : 1 ≤ k) (hk' : k ≤ 3652061) (hleap : k ≠ 1155) :
    ∃ d, Proper d ∧ plainNum d = k := by
  by_cases hne : k = 1461
  · exact ⟨⟨4, 12, 31⟩, ⟨by decide, by decide, by decide⟩, hne ▸ by decide⟩
  · exact ⟨num2date k, proper_num2date hk hk' hne hleap, plainNum_num2date (by omega) hne⟩

theorem num2date_date2num_iff (hd : Proper d) : num2date (date2num d) = d ↔ d ≠ ⟨4, 12, 31⟩ := by
  have hjan := @eq_iff_plainNum d _ hd plainNum_newYear.1 _ plainNum_newYear.2
  rw [ne_eq, eq_iff_plainNum hd ⟨by decide, by decide, by decide⟩
    (by decide : plainNum ⟨4, 12, 31⟩ = 1461), date2num_of_proper hd]
  split_ifs with h1
  · exact iff_of_true (hjan.2 h1).symm (by omega)
  · refine ⟨fun h heq => ?_, fun hne => num2date_plainNum hd hne⟩
    rw [heq] at h
    exact absurd (hjan.1 h.symm) h1

/-- The closed forms of a date and of the next one. -/
theorem Next.plainNum_eq (h : Next d d') :
    plainNum d' = if plainNum d = 1154 then plainNum d + 2 else plainNum d + 1 := by
  obtain ⟨hd, hd', hlt, hleast⟩ := h
  have hlt := plainNum_lt hd hd' hlt
  -- a number in between that has a date would have a date in between
  have hnone {k : ℤ} (hk : plainNum d < k) (hk' : k < plainNum d') : k = 1155 := by
    by_contra hne
    obtain ⟨e, he, rfl⟩ := exists_plainNum (by have := (plainNum_range hd).1; omega)
      (by have := (plainNum_range hd').2; omega) hne
    exact hleast e he ((plainNum_lt_iff hd he).1 hk) ((plainNum_lt_iff he hd').1 hk')
  have hleap := plainNum_ne_leap hd'
  by_contra hne
  split_ifs at hne
  · exact absurd (hnone (k := 1156) (by omega) (by omega)) (by decide)
  · have := hnone (k := plainNum d + 1) (by omega) (by omega)
    omega

/-- The day numbers of the calendar: where the two directions agree, and where the numbers go up,
and go up by one. -/
theorem dayNumbers_iff (d d' : Ymd) (k : ℤ) :
    (Proper d → (num2date (date2num d) = d ↔ d ≠ ⟨4, 12, 31⟩)) ∧
    (date2num ⟨1, 1, 1⟩ ≤ k → k ≤ date2num ⟨9999, 12, 31⟩ →
      (ymdValidP (num2date k) ∧ date2num (num2date k) = k ↔ k ≠ 1155 ∧ k ≠ 1462)) ∧
    (Proper d → Proper d' → Before d d' →
      (date2num d < date2num d' ↔ ¬ (d = ⟨4, 12, 31⟩ ∧ d' = ⟨5, 1, 1⟩))) ∧
    (Next d d' →
      (date2num d' = date2num d + 1 ↔ d ≠ ⟨4, 2, 28⟩ ∧ d ≠ ⟨4, 12, 31⟩ ∧ d ≠ ⟨5, 1, 1⟩)) := by
  have h28 {d : Ymd} (hd : Proper d) : d = ⟨4, 2, 28⟩ ↔ plainNum d = 1154 :=
    eq_iff_plainNum hd ⟨by decide, by decide, by decide⟩ (by decide)
  have h31 {d : Ymd} (hd : Proper d) : d = ⟨4, 12, 31⟩ ↔ plainNum d = 1461 :=
    eq_iff_plainNum hd ⟨by decide, by decide, by decide⟩ (by decide)
  have h1 {d : Ymd} (hd : Proper d) : d = ⟨5, 1, 1⟩ ↔ plainNum d = 1462 :=
    eq_iff_plainNum hd plainNum_newYear.1 plainNum_newYear.2
  refine ⟨num2date_date2num_iff, fun hk hk' => ?_, fun hd hd' hlt => ?_, fun h => ?_⟩
  · rw [date2num_num2date_iff (le_trans (by decide) hk)]
    refine ⟨fun h => ⟨?_, h.2⟩, fun h => ⟨?_, h.2⟩⟩
    · rintro rfl
      exact absurd h.1 (by decide)
    · by_cases hne : k = 1461
      · exact hne ▸ by decide
      · exact (proper_num2date (le_trans (by decide) hk) (hk'.trans (by decide)) hne h.1).valid
  · have hlt' := plainNum_lt hd hd' hlt
    rw [date2num_of_proper hd, date2num_of_proper hd', h31 hd, h1 hd']
    split_ifs <;> omega
  · have hnext := h.plainNum_eq
    rw [date2num_of_proper h.proper, date2num_of_proper h.proper', ne_eq, ne_eq, ne_eq,
      h28 h.proper, h31 h.proper, h1 h.proper]
    split_ifs at hnext ⊢ <;> omega

/-- The last day of the year 4 has the number of the day after it. -/
theorem dayNumbers_not_bijective :
    Proper ⟨4, 12, 31⟩ ∧ num2date (date2num ⟨4, 12, 31⟩) = ⟨5, 1, 1⟩ ∧
      date2num ⟨4, 12, 31⟩ = date2num ⟨5, 1, 1⟩ ∧ num2date 1155 = ⟨4, 2, 29⟩ ∧
      ¬ ymdValidP ⟨4, 2, 29⟩ :=
  ⟨⟨by decide, by decide, by decide⟩, by decide, by decide, by decide, by decide⟩

end Virtuoso.Date
