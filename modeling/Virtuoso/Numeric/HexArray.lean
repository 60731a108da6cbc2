import Virtuoso.Numeric.Natural

/-!
# Numbers as bytes (`numeric_to_hex_array`, `numeric_from_hex_array`)

The ODBC structure for numbers has the digits, with no point in them, as an integer in base 256, the
least byte first.  Coming back the integer has its digits only: the zeros of a fraction that starts
with zeros are gone, and `n_len`, from which the scale is subtracted, becomes negative.  A number
with a negative `n_len` is `none`.
-/

namespace Virtuoso.Numeric

open Lib.Radix

/-! ## The functions -/

/-- `numeric_precision`. -/
def numericPrecision (n : Numeric) : ℕ := if n.len + n.scale = 0 then 1 else n.len + n.scale

/-- What the memory that one turn of the loop works in holds before. -/
structure Scratch where
  mem : Memory
  mem' : Memory
  temp : Numeric
  prod : Numeric

/-- The numbers of a turn are made by `numeric_allocate`. -/
def Scratch.Allocated (s : Scratch) : Prop :=
  s.mem.bytes = numericMaxDataBytes ∧ s.mem'.bytes = numericMaxDataBytes

/-- `num_modulo`: the return code, and the result. -/
def numModulo (s : Scratch) (result n₁ n₂ : Numeric) (scale : ℕ) : Option (ℤ × Numeric) :=
  if n₂.IsZero then some (-1, result)
  else
    (numDivide s.mem (.other s.temp) n₁ n₂ 0).map fun r =>
      let rscale := max n₁.scale (n₂.scale + scale)
      let temp := numMultiply (.operand r.2 s.prod) r.2 n₂ rscale
      (0, numSubtract (.other result) n₁ temp rscale)

/-- The loop of `numeric_to_hex_array`.  Without fuel there is no result. -/
def toHexLoop (s : ℕ → Scratch) (div256 : Numeric) :
    (fuel i : ℕ) → Numeric → Numeric → Option (List ℕ)
  | 0, _, _, _ => none
  | fuel + 1, i, cnt, res =>
    if numericCompare cnt div256 = -1 then some [((numericToInt32 cnt).2 % 256).toNat]
    else
      (numModulo (s i) res cnt div256 0).bind fun r =>
      (numDivide (s i).mem' (.other r.2) cnt div256 0).bind fun q =>
      (toHexLoop s div256 fuel (i + 1) (numericCopy cnt q.2).2 q.2).map fun arr =>
        ((numericToInt32 r.2).2 % 256).toNat :: arr

/-- `numeric_to_hex_array`, with what the three numbers it allocates hold before. -/
def numericToHexArray (s : ℕ → Scratch) (cnt div256 res n : Numeric) : Option (List ℕ) :=
  let cnt := { (numericCopy cnt n).2 with neg := false, len := numericPrecision n, scale := 0 }
  toHexLoop s (numericFromInt32 div256 256) (numericPrecision n + 1) 0 cnt res

/-- The loop of `numeric_from_hex_array`. -/
def fromHexLoop (m256 : Numeric) : List ℕ → (n mul part z : Numeric) → Option Numeric
  | [], n, _, _, _ => some n
  | b :: arr, n, mul, part, z =>
    let part := numericFromInt32 part b
    (numericMultiply (.other z) part mul).bind fun z =>
    let part := (numericCopy part z.2).2
    (numericAdd (.other z.2) n part).bind fun z =>
    let n := (numericCopy n z.2).2
    (numericMultiply (.other z.2) mul m256).bind fun z =>
    fromHexLoop m256 arr n (numericCopy mul z.2).2 part z.2

/-- `numeric_from_hex_array`, with what the four numbers it allocates hold before. -/
def numericFromHexArray (mul part m256 z n : Numeric) (scale : ℕ) (sign : Bool) (arr : List ℕ) :
    Option Numeric :=
  (fromHexLoop (numericFromInt32 m256 256) arr n (numericFromInt32 mul 1) part z).bind fun n =>
    if n.len < scale then none
    else some { n with len := n.len - scale, scale := scale, neg := sign }

/-! ## From a number to bytes -/

section ToHex

variable {n d cnt : Numeric} {k : ℕ}

theorem numericCompare_of_plus (hn : n.invalid = .valid) (hd : d.invalid = .valid)
    (hneg : n.neg = false) (hneg' : d.neg = false) : numericCompare n d = compareMagnitude n d := by
  rw [numericCompare, if_neg (not_not.2 hn), if_neg (not_not.2 hd), numCompareInt]
  simp [hneg, hneg']

/-- What is said to be less than 256 is; with three digits it is also said. -/
theorem Writes.compare_256 (h : Writes n k) (hd : IsNat d 256) :
    (numericCompare n d = -1 → k < 256) ∧ (n.len ≤ 3 → k < 256 → numericCompare n d = -1) := by
  have hlen : d.len = 3 := hd.len_eq.trans (by norm_num)
  rw [numericCompare_of_plus h.valid hd.valid h.plus hd.plus]
  rcases Nat.lt_trichotomy n.len 3 with hlt | heq | hgt
  · have hless : compareMagnitude n d = -1 := by
      rw [compareMagnitude, if_pos (by omega), if_neg (by omega)]
    have hk : k < 10 ^ 2 :=
      h.lt_pow.trans_le (Nat.pow_le_pow_right (by decide) (Nat.le_of_lt_succ hlt))
    exact ⟨fun _ => by omega, fun _ _ => hless⟩
  · have hrep := compareMagnitude_frac (by decide) h.digitsBelow hd.digitsBelow
      (heq.trans hlen.symm)
    rw [h.frac_eq, hd.frac_eq] at hrep
    have hcast : ((k : ℚ) < (256 : ℕ)) ↔ k < 256 := Nat.cast_lt
    refine ⟨fun hc => ?_, fun _ hk => ?_⟩
    · rcases hrep with ⟨-, hlt⟩ | ⟨h0, -⟩ | ⟨h1, -⟩
      · exact hcast.1 hlt
      · omega
      · omega
    · exact hrep.unique (.of_lt (hcast.2 hk))
  · rw [compareMagnitude, if_pos (by omega), if_pos (by omega)]
    exact ⟨fun hc => absurd hc (by decide), fun hc => absurd hc (by omega)⟩

theorem Writes.numericToInt32 (h : Writes n k) (hk : k < 2 ^ 31) :
    numericToInt32 n = (.success, (k : ℤ)) := by
  have hint : n.integer = k := by rw [integer, h.plus, h.whole_eq]; rfl
  have hconv := (@numericToInt_converts_iff (2 ^ 31) n (by decide) (by decide) h.digitsBelow).2
    (by rw [Slips, h.whole_eq]; omega)
  rw [Converts, hint, if_pos ⟨by omega, by exact_mod_cast hk⟩] at hconv
  exact hconv

theorem Writes.numModulo (h : Writes cnt k) (hlen : cnt.len ≤ numericMaxPrecisionInt)
    (hd : IsNat d 256) {s : Scratch} (hs : s.Allocated) (res : Numeric) :
    ∃ r, numModulo s res cnt d 0 = some (0, r) ∧ IsNat r (k % 256) := by
  have h0 : ¬ d.IsZero := fun hz => by
    have hlen := hd.len_eq
    norm_num at hlen
    omega
  have hk : k < 10 ^ numericMaxPrecisionInt :=
    h.lt_pow.trans_le (Nat.pow_le_pow_right (by decide) hlen)
  have hstack : (10 : ℕ) ^ numericMaxPrecisionInt < 10 ^ numericStackBytes :=
    Nat.pow_lt_pow_right (by decide) (by decide)
  obtain ⟨q, hq, hnat⟩ := h.numDivide hlen hd (by decide) (by norm_num) s.mem
    (by rw [hs.1]; decide) (.other s.temp)
  have hle : k / 256 * 256 ≤ k := Nat.div_mul_le_self k 256
  have hprod := hnat.numMultiply hd (by omega) (.operand q s.prod) 0
  have hsub := h.numSubtract hprod hle (by omega) (.other res)
  refine ⟨_, ?_, by rwa [show k % 256 = k - k / 256 * 256 by omega]⟩
  rw [Numeric.numModulo, if_neg h0, hq, Option.map_some, h.scale, hd.scale]
  rfl

theorem toHexLoop_stop (s : ℕ → Scratch) (fuel i : ℕ) (res : Numeric) (h : Writes cnt k)
    (hk : k < 256) (hless : numericCompare cnt d = -1) :
    toHexLoop s d (fuel + 1) i cnt res = some [k] := by
  rw [toHexLoop, if_pos hless, h.numericToInt32 (by omega)]
  exact congrArg (fun b => some [b]) (by omega)

/-- The bytes are those of the number, and no more than it needs. -/
theorem toHexLoop_spec {s : ℕ → Scratch} (hs : ∀ i, (s i).Allocated) (hd : IsNat d 256) {f : ℕ}
    (i : ℕ) (res : Numeric) (h : Writes cnt k) (hlen : cnt.len ≤ numericMaxPrecisionInt)
    (hk : k < 256 ^ (f + 1)) (hshort : cnt.len ≤ 3 ∨ 0 < f) {fuel : ℕ} (hfuel : f < fuel) :
    ∃ arr, toHexLoop s d fuel i cnt res = some arr ∧ Nat.ofDigits 256 arr = k ∧
      arr.length ≤ f + 1 ∧ ∀ b ∈ arr, b < 256 := by
  have hdone (fuel i : ℕ) (res : Numeric) {cnt : Numeric} {k : ℕ} (h : Writes cnt k) (hk : k < 256)
      (hless : numericCompare cnt d = -1) (f : ℕ) :
      ∃ arr, toHexLoop s d (fuel + 1) i cnt res = some arr ∧
      Nat.ofDigits 256 arr = k ∧ arr.length ≤ f + 1 ∧ ∀ b ∈ arr, b < 256 :=
    ⟨[k], toHexLoop_stop s fuel i res h hk hless, by simp, by simp, by simpa using hk⟩
  induction f generalizing cnt k i res fuel with
  | zero =>
    obtain ⟨fuel, rfl⟩ := Nat.exists_eq_succ_of_ne_zero hfuel.ne'
    rw [Nat.zero_add, pow_one] at hk
    exact hdone fuel i res h hk ((h.compare_256 hd).2 (by omega) hk) 0
  | succ f ih =>
    obtain ⟨fuel, rfl⟩ := Nat.exists_eq_succ_of_ne_zero (Nat.ne_zero_of_lt hfuel)
    by_cases hless : numericCompare cnt d = -1
    · exact hdone fuel i res h ((h.compare_256 hd).1 hless) hless (f + 1)
    obtain ⟨r, hr, hrem⟩ := h.numModulo hlen hd (hs i) res
    obtain ⟨q, hq, hquot⟩ := h.numDivide hlen hd (by decide) (by norm_num) (s i).mem'
      (by rw [(hs i).2]; decide) (.other r)
    have hqlen : q.len ≤ numericMaxPrecisionInt := hquot.len_le_iff.2 <| lt_of_le_of_lt
      (Nat.div_le_self k 256) (h.lt_pow.trans_le (Nat.pow_le_pow_right (by decide) hlen))
    have hcopy := hquot.of_same (numericCopy_same cnt q
      (by rw [hquot.scale]; exact hqlen.trans (by decide)))
    have hkq : k / 256 < 256 ^ (f + 1) := Nat.div_lt_of_lt_mul (by rw [← pow_succ']; exact hk)
    have hqshort : (numericCopy cnt q).2.len ≤ 3 ∨ 0 < f := by
      rcases Nat.eq_zero_or_pos f with rfl | hpos
      · left
        rw [hcopy.len_le_iff]
        omega
      · exact .inr hpos
    obtain ⟨arr, harr, hval, hlength, hbytes⟩ :=
      ih (i + 1) q hcopy.toWrites hqlen hkq hqshort (Nat.lt_of_succ_lt_succ hfuel)
    refine ⟨k % 256 :: arr, ?_, ?_, Nat.succ_le_succ hlength, ?_⟩
    · rw [toHexLoop, if_neg hless, hr, Option.bind_some, hq, Option.bind_some, harr,
        hrem.numericToInt32 (by omega)]
      exact congrArg (fun b => some (b :: arr)) (by omega)
    · rw [Nat.ofDigits_cons, hval, Nat.mod_add_div]
    · simpa using ⟨Nat.mod_lt k (by decide), hbytes⟩

end ToHex

/-! ## From bytes to a number -/

theorem fromHexLoop_spec {m256 : Numeric} (hm : IsNat m256 256) {arr : List ℕ}
    (hbytes : ∀ b ∈ arr, b < 256) {n mul : Numeric} {i a : ℕ} (hlen : i + arr.length ≤ 16)
    (hn : IsNat n a) (ha : a < 256 ^ i) (hmul : IsNat mul (256 ^ i)) (part z : Numeric) :
    ∃ r, fromHexLoop m256 arr n mul part z = some r ∧
      IsNat r (a + 256 ^ i * Nat.ofDigits 256 arr) := by
  induction arr generalizing n mul i a part z with
  | nil => exact ⟨n, rfl, by simpa using hn⟩
  | cons b arr ih =>
    rw [List.length_cons] at hlen
    have hb := hbytes b List.mem_cons_self
    have hmax : (256 : ℕ) ^ (i + 1) < 10 ^ numericMaxPrecision :=
      lt_of_le_of_lt (Nat.pow_le_pow_right (by decide) (show i + 1 ≤ 16 by omega)) (by norm_num)
    have hsucc : (256 : ℕ) ^ (i + 1) = 256 * 256 ^ i := pow_succ' _ _
    have hpart : b * 256 ^ i ≤ 255 * 256 ^ i := Nat.mul_le_mul_right _ (by omega)
    have hcopy {x y : Numeric} {k : ℕ} (h : IsNat y k) (hk : k < 10 ^ numericMaxPrecision) :
        IsNat (numericCopy x y).2 k :=
      h.of_same
        (numericCopy_same x y (by rw [h.scale]; exact (h.len_le_iff.2 hk).trans (by decide)))
    obtain ⟨z₁, hz₁, hn₁⟩ := (isNat_numericFromInt32 part (k := b) (by omega)).numericMultiply hmul
      (by omega) (.other z)
    have hpart₁ := @hcopy (numericFromInt32 part b) z₁ _ hn₁ (by omega)
    obtain ⟨z₂, hz₂, hn₂⟩ := hn.numericAdd hpart₁ (by omega) (.other z₁)
    obtain ⟨z₃, hz₃, hn₃⟩ := hmul.numericMultiply hm (by omega) (.other z₂)
    rw [← pow_succ] at hn₃
    obtain ⟨r, hr, hrn⟩ := ih (fun c hc => hbytes c (List.mem_cons_of_mem _ hc))
      (show i + 1 + arr.length ≤ 16 by omega) (@hcopy n z₂ _ hn₂ (by omega))
      (show a + b * 256 ^ i < 256 ^ (i + 1) by omega) (@hcopy mul z₃ _ hn₃ hmax)
      (numericCopy (numericFromInt32 part b) z₁).2 z₃
    refine ⟨r, ?_, ?_⟩
    · simp only [fromHexLoop, hz₁, hz₂, hz₃, Option.bind_some, hr]
    · rw [Nat.ofDigits_cons]
      rwa [show a + 256 ^ i * (b + 256 * Nat.ofDigits 256 arr) =
        a + b * 256 ^ i + 256 ^ (i + 1) * Nat.ofDigits 256 arr by rw [hsucc]; ring]

/-! ## Round trips -/

section RoundTrip

variable {n : Numeric}

/-- The digits of a number without the point. -/
def unpointed (cnt n : Numeric) : Numeric :=
  { (numericCopy cnt n).2 with neg := false, len := numericPrecision n, scale := 0 }

theorem writes_unpointed (cnt : Numeric) (hn : n.Canonical) (hv : n.invalid = .valid)
    (hzero : n.IsZero → n.value 0 = 0) : Writes (unpointed cnt n) n.mag := by
  have hcopy := numericCopy_same cnt n (hn.total_le.trans (by decide))
  by_cases hz : n.IsZero
  · have hprec : numericPrecision n = 1 := if_pos hz
    have hfirst : (unpointed cnt n).value 0 = 0 := by
      have : n.len + n.scale = 0 := hz
      simp only [unpointed, numericCopy, this]
      exact hzero hz
    have hlen : (unpointed cnt n).len = 1 := hprec
    refine ⟨hv, rfl, rfl, fun i hi => ?_, ?_⟩
    · obtain rfl : i = 0 := by omega
      rw [hfirst]
      decide
    · rw [mag, mag, hz, val_zero, hlen]
      exact (val_one _ _ _).trans hfirst
  · have hprec : (unpointed cnt n).len = n.len + n.scale := if_neg hz
    refine ⟨hv, rfl, rfl, fun i hi => ?_, ?_⟩
    · rw [hprec] at hi
      exact lt_of_eq_of_lt (hcopy.value i hi) (hn.digits i hi)
    · rw [mag, mag, hprec]
      refine val_congr fun i hi => ?_
      rw [Nat.zero_add]
      exact hcopy.value i hi

/-- What the functions are to do: the bytes, also with zeros behind them, give the number back. -/
def RoundTrips (s : ℕ → Scratch) (cnt div256 res mul part m256 z zero n : Numeric) : Prop :=
  ∃ arr, numericToHexArray s cnt div256 res n = some arr ∧ arr.length ≤ 16 ∧
    ∀ fill, arr.length + fill ≤ 16 → ∃ m, numericFromHexArray mul part m256 z zero n.scale n.neg
      (arr ++ List.replicate fill 0) = some m ∧ numericCompare m n = 0

theorem ofDigits_fill (b : ℕ) (arr : List ℕ) (fill : ℕ) :
    Nat.ofDigits b (arr ++ List.replicate fill 0) = Nat.ofDigits b arr := by
  induction fill with
  | zero => simp
  | succ fill ih => simp [List.replicate_succ', ← List.append_assoc, Nat.ofDigits_append, ih]

/-- The number that is made of bytes. -/
theorem numericFromHexArray_eq (mul part m256 z : Numeric) {zero : Numeric} (hzero : IsNat zero 0)
    {arr : List ℕ} (hbytes : ∀ b ∈ arr, b < 256) {fill : ℕ} (hlen : arr.length + fill ≤ 16)
    (scale : ℕ)
    (sign : Bool) : ∃ r, IsNat r (Nat.ofDigits 256 arr) ∧
      numericFromHexArray mul part m256 z zero scale sign (arr ++ List.replicate fill 0) =
        if r.len < scale then none
        else some { r with len := r.len - scale, scale := scale, neg := sign } := by
  have hfill : ∀ b ∈ arr ++ List.replicate fill 0, b < 256 := by
    intro b hb
    rcases List.mem_append.1 hb with hb | hb
    · exact hbytes b hb
    · rw [List.eq_of_mem_replicate hb]
      decide
  obtain ⟨r, hr, hnat⟩ :=
    fromHexLoop_spec (isNat_numericFromInt32 m256 (k := 256) (by decide)) hfill
    (show 0 + _ ≤ 16 by simpa using hlen) hzero (by decide)
    (isNat_numericFromInt32 mul (k := 1) (by decide)) part z
  rw [ofDigits_fill, pow_zero, Nat.one_mul, Nat.zero_add] at hnat
  exact ⟨r, hnat, by rw [numericFromHexArray]; exact congrArg (Option.bind · _) hr⟩

/-- A number whose digits do not start with a zero comes back, and no other does. -/
theorem numericFromHexArray_iff (mul part m256 z : Numeric) {zero : Numeric} (hz : IsNat zero 0)
    (hn : n.Canonical) (hv : n.invalid = .valid) {arr : List ℕ} (hbytes : ∀ b ∈ arr, b < 256)
    (hval : Nat.ofDigits 256 arr = n.mag) {fill : ℕ} (hlen : arr.length + fill ≤ 16) :
    (∃ m, numericFromHexArray mul part m256 z zero n.scale n.neg (arr ++ List.replicate fill 0) =
      some m ∧ numericCompare m n = 0) ↔ (n.len = 0 → 0 < n.scale → n.value 0 ≠ 0) := by
  obtain ⟨r, hr, heq⟩ := numericFromHexArray_eq mul part m256 z hz hbytes hlen n.scale n.neg
  rw [hval] at hr
  rw [heq]
  by_cases hlead : n.len = 0 → 0 < n.scale → n.value 0 ≠ 0
  · refine iff_of_true ?_ hlead
    have hsame : Same r { n with neg := false, len := n.len + n.scale, scale := 0 } := by
      refine IsNat.same ⟨⟨hv, rfl, rfl, hn.digits, rfl⟩, fun hpos => ?_⟩ hr
      rcases Nat.eq_zero_or_pos n.len with h0 | hpos'
      · exact hlead h0 (by simp only at hpos; omega)
      · exact hn.leading hpos'
    have hrlen : r.len = n.len + n.scale := hsame.len
    rw [if_neg (by omega)]
    refine ⟨_, rfl, ?_⟩
    have hback : Same { r with len := r.len - n.scale, scale := n.scale, neg := n.neg } n :=
      ⟨by simp only; omega, rfl, hsame.invalid, rfl, fun i hi => hsame.value i (by simpa using hi)⟩
    exact ((hback.canonical hn).numericCompare_eq hn (hback.invalid.trans hv) hv).eq_zero_iff.2
      hback.toRat_eq
  · refine iff_of_false ?_ hlead
    -- the number is less than one tenth
    simp only [Classical.not_imp, not_not] at hlead
    obtain ⟨h0, hpos, hfirst⟩ := hlead
    obtain ⟨s, hs⟩ := Nat.exists_eq_succ_of_ne_zero hpos.ne'
    have hmag : n.mag < 10 ^ s := by
      rw [mag, h0, hs, Nat.zero_add, val_succ_left, hfirst, Nat.zero_mul, Nat.zero_add]
      exact val_lt_pow fun i hi => hn.digits _ (by omega)
    have hrlen := hr.len_le_iff.2 hmag
    rw [if_pos (by omega)]
    simp

/-- The bytes of a number that is not a zero with a stray digit. -/
theorem numericToHexArray_eq {s : ℕ → Scratch} (hs : ∀ i, (s i).Allocated)
    (cnt div256 res : Numeric) (hn : n.Canonical) (hv : n.invalid = .valid)
    (h38 : n.len + n.scale ≤ 38) (hzero : n.IsZero → n.value 0 = 0) :
    ∃ arr, numericToHexArray s cnt div256 res n = some arr ∧ Nat.ofDigits 256 arr = n.mag ∧
      arr.length ≤ 16 ∧ ∀ b ∈ arr, b < 256 := by
  have hwrites := writes_unpointed cnt hn hv hzero
  have hprec : 1 ≤ numericPrecision n ∧ numericPrecision n ≤ 38 := by
    rw [numericPrecision]
    split_ifs <;> omega
  have hlt : n.mag < 256 ^ (min 15 (numericPrecision n) + 1) := by
    rcases le_total 15 (numericPrecision n) with hle | hle
    · rw [min_eq_left hle]
      exact hwrites.lt_pow.trans_le
        ((Nat.pow_le_pow_right (by decide) hprec.2).trans (by norm_num))
    · rw [min_eq_right hle]
      exact hwrites.lt_pow.trans_le ((Nat.pow_le_pow_left (by decide) _).trans
        (Nat.pow_le_pow_right (by decide) (Nat.le_succ _)))
  obtain ⟨arr, harr, hval, hlen, hbytes⟩ := toHexLoop_spec hs
    (isNat_numericFromInt32 div256 (k := 256) (by decide)) 0 res hwrites
    (hprec.2.trans (by decide)) hlt (.inr (by omega))
    (show min 15 (numericPrecision n) < numericPrecision n + 1 by omega)
  exact ⟨arr, harr, hval, hlen.trans (by omega), hbytes⟩

/-- The first digit of a zero is taken for a digit. -/
theorem numericToHexArray_stray (s : ℕ → Scratch) (cnt div256 res : Numeric)
    (hv : n.invalid = .valid) (hz : n.IsZero) (hbyte : n.value 0 < 256) :
    numericToHexArray s cnt div256 res n = some [n.value 0] := by
  have hd : IsNat (numericFromInt32 div256 256) 256 := isNat_numericFromInt32 div256 (by decide)
  have hprec : numericPrecision n = 1 := if_pos hz
  have hlen : (unpointed cnt n).len = 1 := hprec
  have hfirst : (unpointed cnt n).value 0 = n.value 0 := by
    have : n.len + n.scale = 0 := hz
    simp only [unpointed, numericCopy, this]
    rfl
  have hless : numericCompare (unpointed cnt n) (numericFromInt32 div256 256) = -1 := by
    have hdlen := hd.len_eq
    norm_num at hdlen
    rw [@numericCompare_of_plus (unpointed cnt n) _ hv hd.valid rfl hd.plus, compareMagnitude,
      if_pos (by omega), if_neg (by omega)]
  have hint : Numeric.numericToInt32 (unpointed cnt n) = (.success, (n.value 0 : ℤ)) := by
    have hwrap : wrap (2 ^ 31) (10 * 0 + n.value 0) = n.value 0 := by
      rw [mul_zero, zero_add]
      exact wrap_of_mem (by omega) (by push_cast; omega)
    have hloop : toIntLoop (2 ^ 31) (unpointed cnt n).value 1 0 0 = (0, (n.value 0 : ℤ)) := by
      rw [toIntLoop, if_pos (by norm_num), toIntLoop, hfirst, hwrap]
    rw [Numeric.numericToInt32, numericToInt, hlen, hloop, finishInt, if_neg (lt_irrefl 0),
      if_neg (by simp), if_neg (by omega)]
    rfl
  show toHexLoop s (numericFromInt32 div256 256) (numericPrecision n + 1) 0 (unpointed cnt n) res =
    _
  rw [toHexLoop, if_pos hless, hint]
  exact congrArg (fun b => some [b]) (by omega)

theorem numericCompare_of_len {m : Numeric} (hm : m.invalid = .valid) (hv : n.invalid = .valid)
    (hlen : m.len ≠ n.len) : numericCompare m n ≠ 0 := by
  rw [numericCompare, if_neg (not_not.2 hm), if_neg (not_not.2 hv), numCompareInt, compareMagnitude,
    if_pos hlen]
  split_ifs <;> decide

/-- A number of at most 38 digits comes back from its bytes exactly if it is not a fraction that
starts with a zero, nor a zero with a stray first digit. -/
theorem hexArray_roundTrips_iff {s : ℕ → Scratch} (hs : ∀ i, (s i).Allocated)
    (cnt div256 res mul part m256 z : Numeric) {zero : Numeric} (hz : IsNat zero 0)
    (hn : n.Canonical) (hv : n.invalid = .valid) (h38 : n.len + n.scale ≤ 38)
    (hbyte : n.value 0 < 256) :
    RoundTrips s cnt div256 res mul part m256 z zero n ↔
      (n.IsZero → n.value 0 = 0) ∧ (n.len = 0 → 0 < n.scale → n.value 0 ≠ 0) := by
  by_cases hstray : n.IsZero → n.value 0 = 0
  · obtain ⟨arr, harr, hval, hlen, hbytes⟩ :=
      numericToHexArray_eq hs cnt div256 res hn hv h38 hstray
    have hiff {fill : ℕ} (hfill : arr.length + fill ≤ 16) :=
      numericFromHexArray_iff mul part m256 z hz hn hv hbytes hval hfill
    rw [and_iff_right hstray, RoundTrips, harr]
    constructor
    · rintro ⟨arr', heq, -, h⟩
      cases heq
      exact (@hiff 0 hlen).1 (h 0 hlen)
    · exact fun h => ⟨arr, rfl, hlen, fun fill hfill => (hiff hfill).2 h⟩
  · refine iff_of_false ?_ fun h => hstray h.1
    rw [Classical.not_imp] at hstray
    obtain ⟨hzero, hne⟩ := hstray
    rw [RoundTrips, numericToHexArray_stray s cnt div256 res hv hzero hbyte]
    rintro ⟨arr, heq, -, h⟩
    cases heq
    obtain ⟨m, hm, hcmp⟩ := h 0 (show 1 + 0 ≤ 16 by decide)
    obtain ⟨r, hr, hfrom⟩ := @numericFromHexArray_eq mul part m256 z zero hz [n.value 0]
      (by simpa using hbyte) 0 (show 1 + 0 ≤ 16 by decide) n.scale n.neg
    have hn0 : n.len = 0 ∧ n.scale = 0 := by
      simp only [IsZero] at hzero
      omega
    have hrlen : ¬ r.len ≤ 0 := by
      rw [hr.len_le_iff]
      simpa using hne
    rw [hfrom, if_neg (by omega)] at hm
    cases hm
    refine absurd hcmp (numericCompare_of_len hr.valid hv ?_)
    simp only
    omega

end RoundTrip

def freshScratch : Scratch := ⟨freshMemory, freshMemory, blank, blank⟩

theorem isNat_blank : IsNat blank 0 :=
  ⟨⟨rfl, rfl, rfl, fun _ hi => absurd hi (Nat.not_lt_zero _), rfl⟩,
    fun h => absurd h (Nat.lt_irrefl 0)⟩

/-- `-12.5` is the byte 125. -/
theorem hexArray_roundTrips_digits :
    RoundTrips (fun _ => freshScratch) blank blank blank blank blank blank blank blank
      (ofDigits true [1, 2] [5]) :=
  (hexArray_roundTrips_iff (fun _ => ⟨rfl, rfl⟩) blank blank blank blank blank blank blank
    isNat_blank (ofDigits_canonical (by decide) (by decide) (by decide) (by decide) (by decide)
      (by decide)) rfl (by decide) (by decide)).2 (by decide)

def twentieth : Numeric := { blank with scale := 2, value := fun i => if i = 1 then 5 else 0 }

/-- `0.05` is one byte, 5; its single digit minus two digits of scale is not a length. -/
theorem hexArray_not_roundTrips_twentieth :
    twentieth.Canonical ∧ twentieth.len + twentieth.scale ≤ 38 ∧
      ¬ RoundTrips (fun _ => freshScratch) blank blank blank blank blank blank blank blank
        twentieth := by
  have hcanon : twentieth.Canonical := by
    refine canonical_of_digits (fun i hi => ?_) (by decide) (fun _ => by decide) (by decide)
      (by decide)
      (by decide)
    simp only [twentieth]
    split_ifs <;> decide
  refine ⟨hcanon, by decide, ?_⟩
  rintro ⟨arr, harr, -, h⟩
  obtain ⟨arr', harr', hval, hlen, hbytes⟩ :=
    @numericToHexArray_eq twentieth (fun _ => freshScratch)
    (fun _ => ⟨rfl, rfl⟩) blank blank blank hcanon rfl (by decide) (by decide)
  obtain rfl : arr = arr' := Option.some.inj (harr.symm.trans harr')
  exact (numericFromHexArray_iff blank blank blank blank isNat_blank hcanon rfl hbytes hval hlen).1
    (h 0 hlen) rfl (by decide) rfl

end Virtuoso.Numeric
