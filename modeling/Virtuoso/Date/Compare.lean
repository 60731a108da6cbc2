import Virtuoso.Lib.Radix
import Virtuoso.Lib.ThreeWay
import Mathlib.Tactic.IntervalCases

/-!
# Comparing datetimes (`dt_compare`)

A datetime is ten bytes, of which the first eight hold the day, the timezoneless bit, the time and
the fraction, each field behind the one it is less important than.  Two days from year 1 on are
compared by their bytes.  Anything else is taken for a comparison of times with and without a
timezone, whose window of days is not symmetric: it tests `day1 < day2 + 2` where days that are near
each other should go on.

Shifts and masks of bytes are quotients and remainders.
-/

namespace Virtuoso.Date

open Lib Lib.Radix

/-- A `datetime_t`: the byte at each place. -/
abbrev Datetime := ℕ → ℕ

/-- The results `DVC_MATCH`, `DVC_LESS`, `DVC_GREATER` and `DVC_NOORDER`. -/
inductive Dvc where
  | matched | less | greater | noorder
deriving DecidableEq, Repr

/-! ## The functions -/

/-- `DT_DAY`. -/
def dtDay (dt : Datetime) : ℤ :=
  (dt 0 * 65536 + dt 1 * 256 + dt 2 : ℕ) - if 128 ≤ dt 0 then 16777216 else 0

/-- `DT_TZL`. -/
def dtTzl (dt : Datetime) : ℕ := dt 3 / 128

/-- `DT_HOUR`. -/
def dtHour (dt : Datetime) : ℕ := dt 3 % 32

/-- `DT_MINUTE`. -/
def dtMinute (dt : Datetime) : ℕ := dt 4 / 4

/-- `DT_SECOND`. -/
def dtSecond (dt : Datetime) : ℕ := dt 4 % 4 * 16 + dt 5 / 16

/-- `DT_FRACTION`. -/
def dtFraction (dt : Datetime) : ℕ := 1000 * (dt 5 % 16 * 65536 + dt 6 * 256 + dt 7)

/-- `memcmp`, from a place on. -/
def memcmp (a b : ℕ → ℕ) (i : ℕ) : ℕ → ℤ
  | 0 => 0
  | n + 1 => if a i < b i then -1 else if b i < a i then 1 else memcmp a b (i + 1) n

/-- `DT_COMPARE_LENGTH`. -/
def dtCompareLength : ℕ := 8

/-- `dt_compare`. -/
def dtCompare (dt₁ dt₂ : Datetime) (cmpIsSafe : Bool) : Dvc :=
  let day₁ := dtDay dt₁
  let day₂ := dtDay dt₂
  if 0 ≤ day₁ ∧ 0 ≤ day₂ ∧ dtTzl dt₁ = dtTzl dt₂ then
    let cmp := memcmp dt₁ dt₂ 0 dtCompareLength
    if 0 < cmp then .greater else if cmp < 0 then .less else .matched
  else if day₂ + 2 < day₁ then .greater
  else if day₁ < day₂ + 2 then .less
  else
    let m₁ : ℤ := dtHour dt₁ * 60 + dtMinute dt₁
    let minm₁ := if dtTzl dt₁ ≠ 0 then m₁ + -14 * 60 else m₁
    let maxm₁ := if dtTzl dt₁ ≠ 0 then m₁ - 14 * 60 else m₁
    let m₂ : ℤ := dtHour dt₂ * 60 + dtMinute dt₂ + (day₂ - day₁) * 60 * 24
    let minm₂ := if dtTzl dt₂ ≠ 0 then m₂ + (-14 * 60 + (day₂ - day₁) * 60 * 24) else m₂
    let maxm₂ := if dtTzl dt₂ ≠ 0 then m₂ + (14 * 60 + (day₂ - day₁) * 60 * 24) else m₂
    if maxm₂ < minm₁ then .greater
    else if maxm₁ < minm₂ then .less
    else if cmpIsSafe then .noorder else .less

/-! ## Bytes and moments -/

/-- Bytes that hold fields of a time, and nothing else between them. -/
structure DtValid (dt : Datetime) : Prop where
  bytes : ∀ i, dt i < 256
  garbage : dt 3 % 128 < 32
  hour : dtHour dt ≤ 23
  minute : dtMinute dt ≤ 59
  second : dtSecond dt ≤ 59
  fraction : dtFraction dt < 1000000000

/-- The place of a datetime in time. -/
def moment (dt : Datetime) : ℤ :=
  (((dtDay dt * 24 + dtHour dt) * 60 + dtMinute dt) * 60 + dtSecond dt) * 1000000000 + dtFraction dt

/-- A result tells how two places in time are ordered. -/
def Dvc.Tells (r : Dvc) (x y : ℤ) : Prop :=
  (r = .less ↔ x < y) ∧ (r = .matched ↔ x = y) ∧ (r = .greater ↔ y < x)

theorem memcmp_reports {a b : ℕ → ℕ} (ha : ∀ i, a i < 256) (hb : ∀ i, b i < 256) (i n : ℕ) :
    Reports (memcmp a b i n) (val 256 a i n) (val 256 b i n) := by
  induction n generalizing i with
  | zero => exact .of_eq rfl
  | succ n ih =>
    rw [memcmp]
    split_ifs with hlt hgt
    · exact .of_lt
        (val_lt_val (fun j _ => ha _) n.succ_pos (fun j hj => absurd hj j.not_lt_zero) hlt)
    · exact .of_gt
        (val_lt_val (fun j _ => hb _) n.succ_pos (fun j hj => absurd hj j.not_lt_zero) hgt)
    · have heq : a i = b i := by omega
      rw [val_succ_left, val_succ_left, heq]
      rcases ih (i + 1) with ⟨hr, h⟩ | ⟨hr, h⟩ | ⟨hr, h⟩
      · exact .inl ⟨hr, by omega⟩
      · exact .inr (.inl ⟨hr, by omega⟩)
      · exact .inr (.inr ⟨hr, by omega⟩)

/-- The bytes are the fields, one behind the other. -/
theorem val_eq {dt : Datetime} (h : DtValid dt) (hday : 0 ≤ dtDay dt) :
    ((val 256 dt 0 dtCompareLength : ℕ) : ℤ) = dtDay dt * 1099511627776 +
      dtTzl dt * 549755813888 + dtHour dt * 4294967296 + dtMinute dt * 67108864 +
      dtSecond dt * 1048576 + (dtFraction dt / 1000 : ℕ) := by
  have h0 := h.bytes 0
  have h1 := h.bytes 1
  have h2 := h.bytes 2
  have hg := h.garbage
  simp only [dtCompareLength, val, dtDay, dtTzl, dtHour, dtMinute, dtSecond, dtFraction] at *
  split_ifs at * <;> push_cast <;> omega

theorem moment_lt_iff {a b : Datetime} (ha : DtValid a) (hb : DtValid b) (hday : 0 ≤ dtDay a)
    (hday' : 0 ≤ dtDay b) (htzl : dtTzl a = dtTzl b) :
    val 256 a 0 dtCompareLength < val 256 b 0 dtCompareLength ↔ moment a < moment b := by
  have hfields {dt : Datetime} (h : DtValid dt) := And.intro h.hour (And.intro h.minute
    (And.intro h.second h.fraction))
  have hfa := hfields ha
  have hfb := hfields hb
  have h1000 (dt : Datetime) : dtFraction dt = 1000 * (dtFraction dt / 1000) := by
    rw [dtFraction]
    omega
  have h1 := h1000 a
  have h2 := h1000 b
  rw [← Int.ofNat_lt, val_eq ha hday, val_eq hb hday', moment, moment]
  omega

/-! ## The order -/

section Order

variable {a b : Datetime} (safe : Bool)

/-- The bytes of days from year 1 on, both with or both without a timezone, tell their order. -/
theorem dtCompare_fast (ha : DtValid a) (hb : DtValid b) (hday : 0 ≤ dtDay a) (hday' : 0 ≤ dtDay b)
    (htzl : dtTzl a = dtTzl b) : (dtCompare a b safe).Tells (moment a) (moment b) := by
  have hlt := moment_lt_iff ha hb hday hday' htzl
  have hgt := moment_lt_iff hb ha hday' hday htzl.symm
  rw [dtCompare, if_pos ⟨hday, hday', htzl⟩]
  dsimp only
  rcases memcmp_reports ha.bytes hb.bytes 0 dtCompareLength with ⟨hr, h⟩ | ⟨hr, h⟩ | ⟨hr, h⟩ <;>
    rw [hr]
  · have := hlt.1 h
    refine ⟨iff_of_true rfl this, iff_of_false (by decide) this.ne,
      iff_of_false (by decide) this.asymm⟩
  · have heq : moment a = moment b := by omega
    rw [heq]
    exact ⟨iff_of_false (by decide) (lt_irrefl _), iff_of_true rfl rfl,
      iff_of_false (by decide) (lt_irrefl _)⟩
  · have := hgt.1 h
    refine ⟨iff_of_false (by decide) this.asymm, iff_of_false (by decide) this.ne',
      iff_of_true rfl this⟩

/-- Anything else is greater from two days on, and less otherwise: the times decide nothing. -/
theorem dtCompare_slow (ha : DtValid a) (hb : DtValid b)
    (h : ¬ (0 ≤ dtDay a ∧ 0 ≤ dtDay b ∧ dtTzl a = dtTzl b)) :
    dtCompare a b safe = if dtDay b + 2 ≤ dtDay a then .greater else .less := by
  have h1 := ha.hour
  have h2 := ha.minute
  have h3 := hb.hour
  have h4 := hb.minute
  rw [dtCompare, if_neg h]
  dsimp only
  split_ifs <;> first | rfl | omega

/-- What the comparison is to be among some datetimes: reflexive, symmetric, and, where the
timezoneless bits are equal, transitive and the order of time. -/
structure ConsistentOn (S : Set Datetime) (safe : Bool) : Prop where
  refl : ∀ a ∈ S, dtCompare a a safe = .matched
  swap : ∀ a ∈ S, ∀ b ∈ S, dtCompare a b safe = .less ↔ dtCompare b a safe = .greater
  trans : ∀ a ∈ S, ∀ b ∈ S, ∀ c ∈ S, dtTzl a = dtTzl b → dtTzl b = dtTzl c →
    dtCompare a b safe ∈ [.less, .matched] → dtCompare b c safe ∈ [.less, .matched] →
      dtCompare a c safe ∈ [.less, .matched] ∧
        (dtCompare a c safe = .matched → dtCompare a b safe = .matched ∧
          dtCompare b c safe = .matched)
  chronological : ∀ a ∈ S, ∀ b ∈ S, dtTzl a = dtTzl b →
    (dtCompare a b safe).Tells (moment a) (moment b)

/-- The comparison is consistent exactly among days from year 1 on, where those that do not both
have or both lack a timezone are two days apart. -/
theorem consistentOn_iff {S : Set Datetime} (hS : ∀ a ∈ S, DtValid a) :
    ConsistentOn S safe ↔
      (∀ a ∈ S, 0 ≤ dtDay a) ∧ ∀ a ∈ S, ∀ b ∈ S, dtTzl a ≠ dtTzl b → 2 ≤ |dtDay a - dtDay b| := by
  constructor
  · intro h
    have hday (a) (ha : a ∈ S) : 0 ≤ dtDay a := by
      by_contra hneg
      have := h.refl a ha
      rw [dtCompare_slow safe (hS a ha) (hS a ha) fun hf => hneg hf.1, if_neg (by omega)] at this
      cases this
    refine ⟨hday, fun a ha b hb htzl => ?_⟩
    have hswap := h.swap a ha b hb
    rw [dtCompare_slow safe (hS a ha) (hS b hb) fun hf => htzl hf.2.2,
      dtCompare_slow safe (hS b hb) (hS a ha) fun hf => htzl hf.2.2.symm] at hswap
    rw [le_abs]
    split_ifs at hswap <;> simp at hswap <;> omega
  · rintro ⟨hday, hapart⟩
    have hfast (a) (ha : a ∈ S) (b) (hb : b ∈ S) (htzl : dtTzl a = dtTzl b) :=
      dtCompare_fast safe (hS a ha) (hS b hb) (hday a ha) (hday b hb) htzl
    refine ⟨fun a ha => (hfast a ha a ha rfl).2.1.2 rfl, fun a ha b hb => ?_, ?_, hfast⟩
    · by_cases htzl : dtTzl a = dtTzl b
      · rw [(hfast a ha b hb htzl).1, (hfast b hb a ha htzl.symm).2.2]
      · have := hapart a ha b hb htzl
        rw [le_abs] at this
        rw [dtCompare_slow safe (hS a ha) (hS b hb) fun hf => htzl hf.2.2,
          dtCompare_slow safe (hS b hb) (hS a ha) fun hf => htzl hf.2.2.symm]
        split_ifs <;> simp <;> omega
    · intro a ha b hb c hc hab hbc
      have h1 := hfast a ha b hb hab
      have h2 := hfast b hb c hc hbc
      have h3 := hfast a ha c hc (hab.trans hbc)
      simp only [List.mem_cons, List.not_mem_nil, or_false, h1.1, h1.2.1, h2.1, h2.2.1,
        h3.1, h3.2.1]
      omega

end Order

/-- The bytes of midnight of a day. -/
def midnight (b₀ b₁ b₂ : ℕ) : Datetime
  | 0 => b₀
  | 1 => b₁
  | 2 => b₂
  | _ => 0

theorem midnight_valid {b₀ b₁ b₂ : ℕ} (h₀ : b₀ < 256) (h₁ : b₁ < 256) (h₂ : b₂ < 256) :
    DtValid (midnight b₀ b₁ b₂) := by
  refine ⟨fun i => ?_, by simp [midnight], by simp [dtHour, midnight], by simp [dtMinute, midnight],
    by simp [dtSecond, midnight], by simp [dtFraction, midnight]⟩
  rcases i with _ | _ | _ | i
  · exact h₀
  · exact h₁
  · exact h₂
  · show 0 < 256
    decide

theorem consistentOn_midnights : ConsistentOn {dt | ∃ b < 256, dt = midnight 0 0 b} true := by
  refine (consistentOn_iff true ?_).2 ⟨?_, ?_⟩
  · rintro _ ⟨b, hb, rfl⟩
    exact midnight_valid (by decide) (by decide) hb
  · rintro _ ⟨b, hb, rfl⟩
    exact Int.natCast_nonneg _
  · rintro _ ⟨b, hb, rfl⟩ _ ⟨b', hb', rfl⟩ h
    exact absurd rfl h

/-- A day before year 1 is less than itself, and greater than a day that is before it. -/
theorem dtCompare_not_consistent :
    DtValid (midnight 255 255 255) ∧ dtDay (midnight 255 255 255) = -1 ∧
      dtDay (midnight 255 255 254) = -2 ∧
      dtCompare (midnight 255 255 255) (midnight 255 255 255) true = .less ∧
      dtCompare (midnight 255 255 255) (midnight 255 255 254) true = .less ∧
      dtCompare (midnight 255 255 254) (midnight 255 255 255) true = .less :=
  ⟨midnight_valid (by decide) (by decide) (by decide), by decide, by decide, by decide, by decide,
    by decide⟩

end Virtuoso.Date
