import Virtuoso.Date.Calendar

/-!
# Adding to a timestamp (`ts_add`)

The amount goes to the day, the seconds or the fraction, and what is too much there is carried.  C's
division truncates, and what is below zero has to be borrowed instead: for the seconds it is, for
the fraction it is not.  The numbers are integers without bounds, as long as nothing is stored: the
date is stored in 16 bits, the year with a sign, and the fraction in 32 bits without one.  (The
fields of the time of a day always fit.)
-/

namespace Virtuoso.Date

/-- `TIMESTAMP_STRUCT`. -/
structure Timestamp extends Ymd where
  hour : ℤ
  minute : ℤ
  second : ℤ
  fraction : ℤ
deriving DecidableEq, Repr

/-- The units that `ts_add` knows, and any other text. -/
inductive TsUnit where
  | year | month | day | hour | minute | second | millisecond | microsecond | nanosecond | other
deriving DecidableEq, Repr

/-! ## The functions -/

/-- `SPERDAY`. -/
def sperday : ℤ := 24 * 60 * 60

/-- `sec2time`: day, hour, minute and second. -/
def sec2time (sec : ℤ) : ℤ × ℤ × ℤ × ℤ :=
  let day := sec.tdiv sperday
  let hour := (sec - day * sperday).tdiv (60 * 60)
  let min := (sec - day * sperday - hour * 60 * 60).tdiv 60
  (day, hour, min, sec.tmod 60)

/-- `time2sec`. -/
def time2sec (day hour min sec : ℤ) : ℤ := day * sperday + hour * 60 * 60 + min * 60 + sec

/-- The last day of a month, as `ts_add_month` looks it up. -/
def lastDayOfMonth (year month : ℤ) : ℤ :=
  if month = 2 then daysInFebruary year else daysInMonth.getD (month - 1).toNat 0

/-- A date as a `TIMESTAMP_STRUCT` holds it. -/
def storeDate (d : Ymd) : Ymd := ⟨d.year.bmod (2 ^ 16), d.month % 2 ^ 16, d.day % 2 ^ 16⟩

/-- `ts_add_month`. -/
def tsAddMonth (ts : Timestamp) (months : ℤ) (oracleStyle : Bool) : Timestamp :=
  if months = 0 then ts
  else
    let setToLastDay := oracleStyle ∧ 28 ≤ ts.day ∧ lastDayOfMonth ts.year ts.month ≤ ts.day
    let newMonth := ts.month - 1 + months
    let (year, month) :=
      if 0 ≤ newMonth then (ts.year + newMonth.tdiv 12, 1 + newMonth.tmod 12)
      else (ts.year - (1 + (-(1 + newMonth)).tdiv 12), 12 - (-(1 + newMonth)).tmod 12)
    let stored := storeDate ⟨year, month, ts.day⟩
    let last := lastDayOfMonth stored.year stored.month
    let day := if setToLastDay ∨ 28 ≤ ts.day ∧ last ≤ ts.day then last else ts.day
    { ts with year := stored.year, month := stored.month, day := day }

/-- What `ts_add` carries from the fraction to the seconds. -/
def carryFraction (sec frac : ℤ) : ℤ × ℤ :=
  if 1000000000 ≤ frac ∨ frac < 0 then (sec + frac.tdiv 1000000000, frac.tmod 1000000000)
  else (sec, frac)

/-- The day, the seconds and the fraction with an amount added to them. -/
def addUnit (n day sec frac : ℤ) : TsUnit → ℤ × ℤ × ℤ
  | .second => (day, sec + n, frac)
  | .day => (day + n, sec, frac)
  | .minute => (day, sec + 60 * n, frac)
  | .hour => (day, sec + 60 * 60 * n, frac)
  | .millisecond => (day, carryFraction (sec + n.tdiv 1000) (frac + n.tmod 1000 * 1000000))
  | .microsecond => (day, carryFraction (sec + n.tdiv 1000000) (frac + n.tmod 1000000 * 1000))
  | .nanosecond => (day, carryFraction (sec + n.tdiv 1000000000) (frac + n.tmod 1000000000))
  | _ => (day, carryFraction sec frac)

/-- What `ts_add` carries from the seconds to the day. -/
def carrySeconds (day sec : ℤ) : ℤ × ℤ :=
  if sec < 0 then
    let day := day - (1 + (-sec).tdiv sperday)
    let sec := sec.tmod sperday
    (if sec = 0 then day + 1 else day, sperday + sec)
  else (day + sec.tdiv sperday, sec.tmod sperday)

/-- `ts_add`. -/
def tsAdd (ts : Timestamp) (n : ℤ) (unit : TsUnit) : Timestamp :=
  if n = 0 then ts
  else if unit = .year then tsAddMonth ts (n * 12) false
  else if unit = .month then tsAddMonth ts n false
  else
    let (day, sec, frac) := addUnit n (date2num ts.toYmd)
      (time2sec 0 ts.hour ts.minute ts.second) ts.fraction unit
    let (day, sec) := carrySeconds day sec
    let (_, hour, minute, second) := sec2time sec
    ⟨storeDate (num2date day), hour, minute, second, frac % 2 ^ 32⟩

/-! ## Instants -/

/-- The nanoseconds of a unit that always has as many. -/
def TsUnit.nanos : TsUnit → Option ℤ
  | .day => some 86400000000000
  | .hour => some 3600000000000
  | .minute => some 60000000000
  | .second => some 1000000000
  | .millisecond => some 1000000
  | .microsecond => some 1000
  | .nanosecond => some 1
  | _ => none

/-- The seconds of a timestamp, from the day with the number 0 on. -/
def seconds (ts : Timestamp) : ℤ :=
  date2num ts.toYmd * 86400 + ts.hour * 3600 + ts.minute * 60 + ts.second

/-- The nanosecond that a timestamp denotes. -/
def instant (ts : Timestamp) : ℤ := seconds ts * 1000000000 + ts.fraction

/-- The fields of a time of a day. -/
structure TimeValid (ts : Timestamp) : Prop where
  hour : 0 ≤ ts.hour ∧ ts.hour ≤ 23
  minute : 0 ≤ ts.minute ∧ ts.minute ≤ 59
  second : 0 ≤ ts.second ∧ ts.second ≤ 59
  fraction : 0 ≤ ts.fraction ∧ ts.fraction < 1000000000

/-- The fields of a timestamp: the time of a day, a month and a day. -/
structure FieldsValid (ts : Timestamp) : Prop extends TimeValid ts where
  month : 1 ≤ ts.month ∧ ts.month ≤ 12
  day : 1 ≤ ts.day ∧ ts.day ≤ 31

/-- The timestamp of a second and a fraction. -/
def stamp (sec frac : ℤ) : Timestamp :=
  ⟨storeDate (num2date (sec / 86400)), sec % 86400 / 3600, sec % 3600 / 60, sec % 60, frac % 2 ^ 32⟩

/-- The fraction before what is too much is carried. -/
def movedFraction (frac n : ℤ) : TsUnit → ℤ
  | .millisecond => frac + n.tmod 1000 * 1000000
  | .microsecond => frac + n.tmod 1000000 * 1000
  | .nanosecond => frac + n.tmod 1000000000
  | _ => frac

theorem carrySeconds_eq (day sec : ℤ) :
    (carrySeconds day sec).1 = (day * 86400 + sec) / 86400 ∧ 0 ≤ (carrySeconds day sec).2 ∧
      (carrySeconds day sec).2 % 86400 = (day * 86400 + sec) % 86400 := by
  rw [carrySeconds]
  simp only [sperday, show (24 * 60 * 60 : ℤ) = 86400 by decide]
  by_cases hneg : sec < 0
  · have hmod : sec.tmod 86400 = -(-sec % 86400) := by
      rw [← Int.tmod_eq_emod_of_nonneg (by omega), Int.neg_tmod, neg_neg]
    rw [if_pos hneg, Int.tdiv_eq_ediv_of_nonneg (by omega), hmod]
    dsimp only
    split_ifs <;> omega
  · rw [if_neg hneg]
    rw [Int.tdiv_eq_ediv_of_nonneg (by omega), Int.tmod_eq_emod_of_nonneg (by omega)]
    dsimp only
    omega

theorem sec2time_eq {sec : ℤ} (h : 0 ≤ sec) : sec2time sec =
    (sec / 86400, sec % 86400 / 3600, sec % 3600 / 60, sec % 60) := by
  have h1 : sec.tdiv 86400 = sec / 86400 := Int.tdiv_eq_ediv_of_nonneg h
  have h2 : (sec - sec / 86400 * 86400).tdiv 3600 = sec % 86400 / 3600 := by
    rw [Int.tdiv_eq_ediv_of_nonneg (by omega)]
    omega
  have h3 : (sec - sec / 86400 * 86400 - sec % 86400 / 3600 * 60 * 60).tdiv 60 =
      sec % 3600 / 60 := by
    rw [Int.tdiv_eq_ediv_of_nonneg (by omega)]
    omega
  simp only [sec2time, sperday, show (24 * 60 * 60 : ℤ) = 86400 by decide,
    show (60 * 60 : ℤ) = 3600 by decide, h1, h2, h3, Int.tmod_eq_emod_of_nonneg h]

theorem carryFraction_eq (sec frac : ℤ) :
    carryFraction sec frac = (sec + frac.tdiv 1000000000, frac.tmod 1000000000) := by
  rw [carryFraction]
  split_ifs with h
  · rfl
  · rw [Int.tdiv_eq_zero_of_lt (by omega) (by omega), Int.tmod_eq_of_lt (by omega) (by omega),
      add_zero]

/-- What is added is that many nanoseconds. -/
theorem addUnit_spec {frac : ℤ} (h0 : 0 ≤ frac) (h1 : frac < 1000000000) (n day sec : ℤ)
    {unit : TsUnit} {w : ℤ} (hw : unit.nanos = some w) : ∃ day' sec',
      addUnit n day sec frac unit = (day', sec', (movedFraction frac n unit).tmod 1000000000) ∧
      (day' * 86400 + sec') * 1000000000 + (movedFraction frac n unit).tmod 1000000000 =
        (day * 86400 + sec) * 1000000000 + frac + n * w := by
  have hfrac : frac.tmod 1000000000 = frac := Int.tmod_eq_of_lt h0 h1
  have hdiv := Int.mul_tdiv_add_tmod n
  have hcarry := fun x : ℤ => Int.mul_tdiv_add_tmod x 1000000000
  cases unit <;> simp only [TsUnit.nanos, Option.some.injEq, reduceCtorEq] at hw <;> subst hw <;>
    simp only [addUnit, movedFraction, carryFraction_eq, hfrac]
  case millisecond =>
    have := hdiv 1000
    have := hcarry (frac + n.tmod 1000 * 1000000)
    exact ⟨_, _, rfl, by omega⟩
  case microsecond =>
    have := hdiv 1000000
    have := hcarry (frac + n.tmod 1000000 * 1000)
    exact ⟨_, _, rfl, by omega⟩
  case nanosecond =>
    have := hdiv 1000000000
    have := hcarry (frac + n.tmod 1000000000)
    exact ⟨_, _, rfl, by omega⟩
  all_goals exact ⟨_, _, rfl, by omega⟩

/-- The timestamp that is made of a day and seconds. -/
theorem carry_eq_stamp (day sec frac : ℤ) :
    (⟨storeDate (num2date (carrySeconds day sec).1), (sec2time (carrySeconds day sec).2).2.1,
      (sec2time (carrySeconds day sec).2).2.2.1, (sec2time (carrySeconds day sec).2).2.2.2,
      frac % 2 ^ 32⟩ : Timestamp) = stamp (day * 86400 + sec) frac := by
  obtain ⟨hday, hsec, hmod⟩ := carrySeconds_eq day sec
  rw [sec2time_eq hsec, hday, stamp]
  dsimp only
  congr 1 <;> omega

/-- The whole function, for a unit that always has as many nanoseconds: the second and the fraction
that the timestamp is made of. -/
theorem tsAdd_eq {ts : Timestamp} (hts : TimeValid ts) {n : ℤ} (hn : n ≠ 0) {unit : TsUnit} {w : ℤ}
    (hw : unit.nanos = some w) : ∃ sec, tsAdd ts n unit =
      stamp sec ((movedFraction ts.fraction n unit).tmod 1000000000) ∧
      sec * 1000000000 + (movedFraction ts.fraction n unit).tmod 1000000000 =
        instant ts + n * w := by
  have hyear : unit ≠ .year := by rintro rfl; cases hw
  have hmonth : unit ≠ .month := by rintro rfl; cases hw
  obtain ⟨day, sec, hadd, hsum⟩ := addUnit_spec hts.fraction.1 hts.fraction.2 n (date2num ts.toYmd)
    (time2sec 0 ts.hour ts.minute ts.second) hw
  refine ⟨day * 86400 + sec, ?_, ?_⟩
  · rw [tsAdd, if_neg hn, if_neg hyear, if_neg hmonth, hadd]
    exact carry_eq_stamp day sec _
  · rw [hsum, instant, seconds, time2sec]
    omega

/-! ## Where the dates end -/

/-- C's quotient of what is below zero is above the exact one. -/
theorem tdiv_of_nonpos {a b : ℤ} (ha : a ≤ 0) (hb : 0 < b) :
    a ≤ b * a.tdiv b ∧ b * a.tdiv b < a + b ∧ a.tdiv b ≤ 0 := by
  have hneg : a.tdiv b = -(-a / b) := by
    rw [← Int.tdiv_eq_ediv_of_nonneg (by omega), Int.neg_tdiv, neg_neg]
  have h1 := Int.mul_ediv_self_le (x := -a) hb.ne'
  have h2 := Int.lt_mul_ediv_self_add (x := -a) hb
  have h3 := Int.ediv_nonneg (by omega : 0 ≤ -a) hb.le
  rw [hneg, mul_neg]
  omega

theorem num2date_day_nonpos {k : ℤ} (h : k < -1753505) :
    -31 ≤ (num2date k).day ∧ (num2date k).day ≤ 0 := by
  rw [num2date, if_neg (by omega), if_neg (by omega)]
  dsimp only
  generalize hc : k + 1721423 + 32082 = c
  have h1 := tdiv_of_nonpos (a := 4 * c + 3) (b := 1461) (by omega) (by decide)
  generalize (4 * c + 3).tdiv 1461 = d at h1 ⊢
  have h2 := tdiv_of_nonpos (a := 1461 * d) (b := 4) (by omega) (by decide)
  generalize he : c - (1461 * d).tdiv 4 = e
  have h3 := tdiv_of_nonpos (a := 5 * e + 2) (b := 153) (by omega) (by decide)
  generalize (5 * e + 2).tdiv 153 = m at h3 ⊢
  rcases h3.2.2.lt_or_eq with hm | rfl
  · have h4 := tdiv_of_nonpos (a := 153 * m + 2) (b := 5) (by omega) (by decide)
    omega
  · rw [show ((153 * 0 + 2 : ℤ)).tdiv 5 = 0 by decide]
    omega

/-- The fields of the date of a number, and the numbers whose year is below 2^15. -/
theorem num2date_fields {k : ℤ} (hk : -1753505 ≤ k) :
    (1 ≤ (num2date k).month ∧ (num2date k).month ≤ 12) ∧
      (1 ≤ (num2date k).day ∧ (num2date k).day ≤ 31) ∧ -4801 ≤ (num2date k).year ∧
      ((num2date k).year ≤ 32767 ↔ k ≤ 11967902) := by
  by_cases hne : k = 1461
  · subst hne
    decide
  obtain ⟨y, e, m, hy, he, he', hm, hleap, hj, hg, hd⟩ := num2date_march hk hne
  obtain ⟨-, -, -, hmon, hday, hlen⟩ := march_of he he' hm hd
  refine ⟨hmon, ⟨hday, by omega⟩, ?_⟩
  rw [hd, ofMarch]
  dsimp only
  -- from March to December the year is that of the March it starts with
  have hcases : m / 10 = 0 ∧ e ≤ 305 ∨ m / 10 = 1 ∧ 306 ≤ e := by omega
  rcases le_or_gt k 577737 with hle | hgt
  · have := hj hle
    split_ifs <;> omega
  · have := hg hgt
    split_ifs <;> omega

theorem storeDate_fields_iff (k : ℤ) :
    ((1 ≤ (storeDate (num2date k)).month ∧ (storeDate (num2date k)).month ≤ 12) ∧
      1 ≤ (storeDate (num2date k)).day ∧ (storeDate (num2date k)).day ≤ 31) ↔ -1753505 ≤ k := by
  simp only [storeDate]
  constructor
  · intro h
    by_contra hk
    have := num2date_day_nonpos (not_le.1 hk)
    omega
  · intro hk
    obtain ⟨hmonth, hday, -⟩ := num2date_fields hk
    omega

theorem storeDate_of_fits {d : Ymd} (hy : -32768 ≤ d.year) (hy' : d.year ≤ 32767)
    (hm : 1 ≤ d.month ∧ d.month ≤ 12) (hd : 1 ≤ d.day ∧ d.day ≤ 31) : storeDate d = d := by
  obtain ⟨year, month, day⟩ := d
  simp only [storeDate, Ymd.mk.injEq, Int.bmod_def] at *
  omega

/-- Up to the last day of the year 32767 the date of a number is stored as it is. -/
theorem storeDate_num2date {k : ℤ} (hk : -1753505 ≤ k) (hk' : k ≤ 11967902) :
    storeDate (num2date k) = num2date k := by
  obtain ⟨hmonth, hday, hyear, hlast⟩ := num2date_fields hk
  exact storeDate_of_fits (by omega) (hlast.2 hk') hmonth hday

/-- No date that can be stored has a greater number. -/
theorem date2num_le {d : Ymd} (hy : d.year ≤ 32767) (hm : 1 ≤ d.month ∧ d.month ≤ 12)
    (hd : d.day ≤ 31) : date2num d ≤ 11967902 := by
  obtain ⟨year, month, day⟩ := d
  simp only [date2num] at *
  have ha : (14 - month).tdiv 12 = (14 - month) / 12 := Int.tdiv_eq_ediv_of_nonneg (by omega)
  have hmm : (153 * (month + 12 * ((14 - month) / 12) - 3) + 2).tdiv 5 =
      (153 * (month + 12 * ((14 - month) / 12) - 3) + 2) / 5 :=
    Int.tdiv_eq_ediv_of_nonneg (by omega)
  have hcases : (14 - month) / 12 = 0 ∧ 3 ≤ month ∨ (14 - month) / 12 = 1 ∧ month ≤ 2 := by omega
  have hold : gregYmdIsProlepticGreg ⟨year, month, day⟩ → year ≤ 1582 := by
    rintro (h | h)
    · exact h.le
    · exact h.1.le
  rw [ha, hmm]
  generalize (14 - month) / 12 = a at hcases ⊢
  generalize hy' : (if year < 0 then year + 1 else year) + 4800 - a = y
  have hyear : y ≤ 4800 + year - a ∨ y ≤ 4800 - a := by split_ifs at hy' <;> omega
  by_cases hneg : y ≤ 0
  · have h4 := (tdiv_of_nonpos hneg (show (0 : ℤ) < 4 by decide)).2.2
    have h100 := (tdiv_of_nonpos hneg (show (0 : ℤ) < 100 by decide)).1
    have h400 := (tdiv_of_nonpos hneg (show (0 : ℤ) < 400 by decide)).2.2
    split_ifs <;> omega
  · simp only [Int.tdiv_eq_ediv_of_nonneg (by omega : 0 ≤ y)]
    split_ifs with hgreg
    · have := hold hgreg
      omega
    · have := hold hgreg
      omega
    · omega

/-! ## Exactness -/

section Exact

variable {ts : Timestamp} {n w : ℤ} {unit : TsUnit}

/-- What the function is to do: fields of a timestamp, and the instant with the amount added. -/
def Adds (ts : Timestamp) (n : ℤ) (unit : TsUnit) (w : ℤ) : Prop :=
  FieldsValid (tsAdd ts n unit) ∧ instant (tsAdd ts n unit) = instant ts + n * w

/-- The number of the day that the amount leads to. -/
def dayAfter (ts : Timestamp) (n w : ℤ) : ℤ := (instant ts + n * w) / 86400000000000

/-- Nothing is borrowed from the seconds, and the day is one that has a date, of a year that
can be stored. -/
structure Lands (ts : Timestamp) (n : ℤ) (unit : TsUnit) (w : ℤ) : Prop where
  fraction : 0 ≤ movedFraction ts.fraction n unit
  first : -1753505 ≤ dayAfter ts n w
  newYear : dayAfter ts n w ≠ 1462
  last : dayAfter ts n w ≤ 11967902

theorem movedFraction_bounds (frac n : ℤ) (unit : TsUnit) :
    frac - 1000000000 < movedFraction frac n unit ∧
      movedFraction frac n unit < frac + 1000000000 := by
  have hlt (b : ℤ) (hb : 0 < b) : -b < n.tmod b ∧ n.tmod b < b :=
    ⟨Int.lt_tmod_of_pos n hb, Int.tmod_lt_of_pos n hb⟩
  have h3 := hlt 1000 (by decide)
  have h6 := hlt 1000000 (by decide)
  have h9 := hlt 1000000000 (by decide)
  cases unit <;> simp only [movedFraction] <;> omega

theorem movedFraction_neg (frac frac' n : ℤ) (unit : TsUnit) :
    movedFraction frac' (-n) unit = frac' + frac - movedFraction frac n unit := by
  cases unit <;> simp only [movedFraction, Int.neg_tmod] <;> omega

/-- What is left in the fraction. -/
theorem tmod_movedFraction (h0 : 0 ≤ ts.fraction) (h1 : ts.fraction < 1000000000) (n : ℤ)
    (unit : TsUnit) {f : ℤ} (hf : f = movedFraction ts.fraction n unit) :
    f.tmod 1000000000 = if f < 1000000000 then f else f - 1000000000 := by
  obtain ⟨hlo, hhi⟩ := movedFraction_bounds ts.fraction n unit
  rw [← hf] at hlo hhi
  split_ifs with hlt
  · rcases le_or_gt 0 f with h | h
    · exact Int.tmod_eq_of_lt h hlt
    · rw [← neg_neg f, Int.neg_tmod, Int.tmod_eq_of_lt (by omega) (by omega)]
  · rw [Int.tmod_eq_emod_of_nonneg (by omega)]
    omega

/-- A stored fraction that is below zero is not a fraction. -/
theorem stamp_fraction (sec : ℤ) {frac : ℤ} (hlo : -1000000000 < frac) (hhi : frac < 1000000000) :
    (stamp sec frac).fraction = if 0 ≤ frac then frac else frac + 4294967296 := by
  rw [stamp]
  dsimp only
  split_ifs <;> omega

theorem stamp_fieldsValid_iff {sec frac : ℤ} (hlo : -1000000000 < frac) (hhi : frac < 1000000000) :
    FieldsValid (stamp sec frac) ↔ 0 ≤ frac ∧ -1753505 ≤ sec / 86400 := by
  have hfrac := stamp_fraction sec hlo hhi
  rw [← storeDate_fields_iff]
  constructor
  · intro h
    refine ⟨?_, h.month, h.day⟩
    by_contra hneg
    have := h.fraction
    rw [hfrac, if_neg hneg] at this
    omega
  · rintro ⟨h0, hmonth, hday⟩
    rw [if_pos h0] at hfrac
    refine ⟨⟨?_, ?_, ?_, by omega⟩, hmonth, hday⟩ <;> simp only [stamp] <;> omega

/-- The date of a second is right from the first day of the closed forms on, up to the last one
that can be stored, but for one day. -/
theorem seconds_stamp_iff {sec : ℤ} (frac : ℤ) (h : -1753505 ≤ sec / 86400) :
    seconds (stamp sec frac) = sec ↔ sec / 86400 ≠ 1462 ∧ sec / 86400 ≤ 11967902 := by
  have hday : seconds (stamp sec frac) = sec ↔
      date2num (storeDate (num2date (sec / 86400))) = sec / 86400 := by
    rw [seconds]
    simp only [stamp]
    omega
  rw [hday, ← date2num_num2date_iff h]
  by_cases hlast : sec / 86400 ≤ 11967902
  · rw [storeDate_num2date h hlast, and_iff_left hlast]
  · obtain ⟨hmonth, hdate⟩ := (storeDate_fields_iff (sec / 86400)).2 h
    have hyear : (storeDate (num2date (sec / 86400))).year ≤ 32767 := by
      simp only [storeDate, Int.bmod_def]
      omega
    have := date2num_le hyear hmonth hdate.2
    exact iff_of_false (by omega) fun hex => hlast hex.2

/-- The amount is added exactly if nothing is borrowed and the day has a date. -/
theorem adds_iff (hts : TimeValid ts) (hn : n ≠ 0) (hw : unit.nanos = some w) :
    Adds ts n unit w ↔ Lands ts n unit w := by
  obtain ⟨sec, heq, hsum⟩ := tsAdd_eq hts hn hw
  obtain ⟨hlo, hhi⟩ := movedFraction_bounds ts.fraction n unit
  have hmod := tmod_movedFraction hts.fraction.1 hts.fraction.2 n unit rfl
  rw [Adds, heq]
  generalize hf : (movedFraction ts.fraction n unit).tmod 1000000000 = f at *
  generalize hm : movedFraction ts.fraction n unit = m at *
  have hts0 := hts.fraction
  have hday (h0 : 0 ≤ f) (h1 : f < 1000000000) : dayAfter ts n w = sec / 86400 := by
    rw [dayAfter, ← hsum]
    omega
  have hlo' : -1000000000 < f := by split_ifs at hmod <;> omega
  have hhi' : f < 1000000000 := by split_ifs at hmod <;> omega
  have hsign : 0 ≤ f ↔ 0 ≤ m := by split_ifs at hmod <;> omega
  rw [stamp_fieldsValid_iff hlo' hhi', ← hsum, instant]
  constructor
  · rintro ⟨⟨h0, hfirst⟩, hinst⟩
    rw [stamp_fraction sec hlo' hhi', if_pos h0] at hinst
    obtain ⟨hnew, hlast⟩ := (seconds_stamp_iff f hfirst).1 (by omega)
    rw [← hday h0 hhi'] at hfirst hnew hlast
    exact ⟨hm ▸ hsign.1 h0, hfirst, hnew, hlast⟩
  · rintro ⟨hfraction, hfirst, hnew, hlast⟩
    have h0 := hsign.2 (hm ▸ hfraction)
    rw [hday h0 hhi'] at hfirst hnew hlast
    rw [stamp_fraction sec hlo' hhi', if_pos h0, (seconds_stamp_iff f hfirst).2 ⟨hnew, hlast⟩]
    exact ⟨⟨h0, hfirst⟩, rfl⟩

theorem stamp_seconds_iff (hts : TimeValid ts) :
    stamp (seconds ts) ts.fraction = ts ↔
      storeDate (num2date (date2num ts.toYmd)) = ts.toYmd := by
  obtain ⟨hhour, hminute, hsecond, hfraction⟩ := hts
  have hday : seconds ts / 86400 = date2num ts.toYmd := by rw [seconds]; omega
  obtain ⟨d, hour, minute, second, fraction⟩ := ts
  rw [stamp, hday]
  simp only [seconds, Timestamp.mk.injEq, and_iff_left_iff_imp] at *
  intro
  omega

/-- Back again: the same time, and the date that the day number of the date has. -/
theorem tsAdd_neg_iff (hts : TimeValid ts) (hn : n ≠ 0) (hw : unit.nanos = some w)
    (hadds : Adds ts n unit w) : tsAdd (tsAdd ts n unit) (-n) unit = ts ↔
      movedFraction ts.fraction n unit < 1000000000 ∧
        storeDate (num2date (date2num ts.toYmd)) = ts.toYmd := by
  obtain ⟨hvalid, hinst⟩ := hadds
  obtain ⟨sec, heq, -⟩ := tsAdd_eq hts hn hw
  have h0 := hts.fraction
  obtain ⟨back, hback, hsum⟩ := tsAdd_eq hvalid.toTimeValid (neg_ne_zero.2 hn) hw
  have hbounds := movedFraction_bounds ts.fraction n unit
  have hmod := tmod_movedFraction hts.fraction.1 hts.fraction.2 n unit rfl
  have hmod' := tmod_movedFraction hvalid.fraction.1 hvalid.fraction.2 (-n) unit rfl
  have hfrac : (tsAdd ts n unit).fraction =
      (movedFraction ts.fraction n unit).tmod 1000000000 := by
    have hstored := hvalid.fraction
    rw [heq, stamp_fraction sec (by split_ifs at hmod <;> omega)
      (by split_ifs at hmod <;> omega)] at hstored ⊢
    split_ifs at hstored ⊢ <;> omega
  rw [hfrac, hmod, movedFraction_neg ts.fraction] at hmod'
  rw [hfrac, hmod, movedFraction_neg ts.fraction, hmod', hinst, neg_mul,
    add_neg_cancel_right] at hsum
  rw [hback, hfrac, hmod, movedFraction_neg ts.fraction, hmod']
  by_cases hlt : movedFraction ts.fraction n unit < 1000000000
  · simp only [if_pos hlt, add_sub_cancel_left, if_pos h0.2] at hsum ⊢
    rw [show back = seconds ts by rw [instant] at hsum; omega, and_iff_right hlt]
    exact stamp_seconds_iff hts
  · rw [if_neg hlt, if_pos (by omega)]
    refine iff_of_false (fun h => ?_) fun h => hlt h.1
    have hstored := @stamp_fraction back (movedFraction ts.fraction n unit - 1000000000 +
      ts.fraction - movedFraction ts.fraction n unit) (by omega) (by omega)
    rw [h, if_neg (by omega)] at hstored
    omega

/-- A valid date has a month and a day that can be stored. -/
theorem fields_of_valid {d : Ymd} (hd : ymdValidP d) :
    (1 ≤ d.month ∧ d.month ≤ 12) ∧ d.day ≤ 31 := by
  obtain ⟨-, hm, hm', hy, -, hlen, hfeb⟩ := ymdValidP_iff.1 hd
  refine ⟨⟨hm, hm'⟩, ?_⟩
  by_cases h2 : d.month = 2
  · have := hfeb h2
    rw [daysInFebruary_eq (by omega)] at this
    split_ifs at this <;> omega
  · have := hlen h2
    omega

theorem storeDate_date2num_iff {d : Ymd} (hd : ymdValidP d) (hday : 1 ≤ d.day) :
    storeDate (num2date (date2num d)) = d ↔
      ¬ gregYmdIsPostJulianProlepticGreg d ∧ d ≠ ⟨4, 12, 31⟩ := by
  by_cases hgap : gregYmdIsPostJulianProlepticGreg d
  · refine iff_of_false (fun h => ?_) fun h => h.1 hgap
    obtain ⟨hy, hm, hhi, hlo⟩ := hgap
    obtain ⟨y, m, day⟩ := d
    simp only [gregYear, gregMonth, gregLastJulianDay, gregLastJulianDayAsProlepticGreg] at *
    subst hy hm
    clear hd hday
    interval_cases day <;> exact absurd h (by decide)
  · have hback := num2date_date2num_iff ⟨hd, hday, hgap⟩
    rw [and_iff_right hgap]
    by_cases hne : d = ⟨4, 12, 31⟩
    · subst hne
      decide
    · obtain ⟨hmonth, hle⟩ := fields_of_valid hd
      obtain ⟨-, -, -, hy, hy', -⟩ := ymdValidP_iff.1 hd
      rw [hback.2 hne, storeDate_of_fits (by omega) (by omega) hmonth ⟨hday, hle⟩]
      exact iff_of_true rfl hne

/-- Adding to a timestamp is exact if nothing is borrowed from the seconds and the day has a date;
it can be undone if also nothing is carried to the seconds and the date is that of its number. -/
theorem tsAdd_exact_iff (hdate : ymdValidP ts.toYmd) (hday : 1 ≤ ts.day) (hts : TimeValid ts)
    (hw : unit.nanos = some w) :
    (Adds ts n unit w ↔ n = 0 ∨ Lands ts n unit w) ∧
    (Adds ts n unit w ∧ tsAdd (tsAdd ts n unit) (-n) unit = ts ↔
      n = 0 ∨ Lands ts n unit w ∧ movedFraction ts.fraction n unit < 1000000000 ∧
        ¬ gregYmdIsPostJulianProlepticGreg ts.toYmd ∧ ts.toYmd ≠ ⟨4, 12, 31⟩) := by
  by_cases hn : n = 0
  · subst hn
    have hsame : tsAdd ts 0 unit = ts := if_pos rfl
    have hadds : Adds ts 0 unit w := by
      obtain ⟨hmonth, hle⟩ := fields_of_valid hdate
      rw [Adds, hsame, zero_mul, add_zero]
      exact ⟨⟨hts, hmonth, hday, hle⟩, rfl⟩
    exact ⟨iff_of_true hadds (.inl rfl),
      iff_of_true ⟨hadds, by rw [hsame, neg_zero, hsame]⟩ (.inl rfl)⟩
  · have hiff := adds_iff hts hn hw
    rw [or_iff_right hn, or_iff_right hn, ← storeDate_date2num_iff hdate hday, ← hiff]
    exact ⟨Iff.rfl, and_congr_right fun hadds => tsAdd_neg_iff hts hn hw hadds⟩

end Exact

/-- Ninety minutes before half past midnight of a leap day's morrow, and back again: the seconds
borrow from the day and the day from the month. -/
theorem tsAdd_exact_over_midnight :
    tsAdd ⟨⟨2000, 3, 1⟩, 0, 30, 0, 250000000⟩ (-90) .minute =
        ⟨⟨2000, 2, 29⟩, 23, 0, 0, 250000000⟩ ∧
      Adds ⟨⟨2000, 3, 1⟩, 0, 30, 0, 250000000⟩ (-90) .minute 60000000000 ∧
      tsAdd (tsAdd ⟨⟨2000, 3, 1⟩, 0, 30, 0, 250000000⟩ (-90) .minute) 90 .minute =
        ⟨⟨2000, 3, 1⟩, 0, 30, 0, 250000000⟩ :=
  ⟨by decide, (@tsAdd_exact_iff ⟨⟨2000, 3, 1⟩, 0, 30, 0, 250000000⟩ (-90) _ .minute (by decide)
    (by decide) ⟨by decide, by decide, by decide, by decide⟩ rfl).2.2
    (.inr ⟨⟨by decide, by decide, by decide, by decide⟩, by decide, by decide, by decide⟩)⟩

/-- One nanosecond before the beginning of the year 2000. -/
theorem tsAdd_not_exact :
    ymdValidP ⟨2000, 1, 1⟩ ∧
      tsAdd ⟨⟨2000, 1, 1⟩, 0, 0, 0, 0⟩ (-1) .nanosecond =
        ⟨⟨2000, 1, 1⟩, 0, 0, 0, 4294967295⟩ ∧
      ¬ Adds ⟨⟨2000, 1, 1⟩, 0, 0, 0, 0⟩ (-1) .nanosecond 1 := by
  have heq : tsAdd ⟨⟨2000, 1, 1⟩, 0, 0, 0, 0⟩ (-1) .nanosecond =
      ⟨⟨2000, 1, 1⟩, 0, 0, 0, 4294967295⟩ := by decide
  refine ⟨by decide, heq, fun h => ?_⟩
  have := h.1.fraction
  rw [heq] at this
  exact absurd this.2 (by decide)

end Virtuoso.Date
