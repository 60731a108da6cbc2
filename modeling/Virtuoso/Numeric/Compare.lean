import Virtuoso.Lib.ThreeWay
import Virtuoso.Numeric.Parse

/-!
# Comparing and hashing (`numeric_compare`, `numeric_hash`)

Finite numbers are compared by sign, then by the number of integer digits, then
digit by digit; NaN and the infinities are sorted in by tests on one argument at
a time.  We read the outcome as the order of a key: class, then signed length,
then the signed fraction the digits write in a base that no digit exceeds.  The
key is linearly ordered, so a comparison that reports its order is a total
preorder.  For canonical numbers base ten will do, and there the order of the
keys is the order of the numbers.
-/

namespace Virtuoso.Numeric

open Lib Lib.Radix

variable {b : ℕ} {x y a n : Numeric}

/-! ## The routines -/

/-- The loop over the digits both numbers have: the place where it stops. -/
def scanEqual (v₁ v₂ : ℕ → ℕ) : (count p : ℕ) → ℕ
  | 0, p => p
  | count + 1, p => if v₁ p = v₂ p then scanEqual v₁ v₂ count (p + 1) else p

/-- The comparison of magnitudes in `_num_compare_int`. -/
def compareMagnitude (n₁ n₂ : Numeric) : ℤ :=
  if n₁.len ≠ n₂.len then (if n₁.len > n₂.len then 1 else -1)
  else
    let count := n₁.len + min n₁.scale n₂.scale
    let p := scanEqual n₁.value n₂.value count 0
    if p < count then (if n₁.value p > n₂.value p then 1 else -1)
    else if n₁.scale > n₂.scale then
      -- one of the further digits of `n₁` is not zero
      if skipZeros n₁.value (n₁.scale - n₂.scale) p < p + (n₁.scale - n₂.scale) then 1 else 0
    else
      if skipZeros n₂.value (n₂.scale - n₁.scale) p < p + (n₂.scale - n₁.scale) then -1 else 0

/-- `_num_compare_int`: every answer about magnitudes is turned round for
negative numbers, unless the signs are to be ignored. -/
def numCompareInt (n₁ n₂ : Numeric) (useSign : Bool) : ℤ :=
  if useSign = true ∧ n₁.neg ≠ n₂.neg then (if n₁.neg then -1 else 1)
  else if !useSign || !n₁.neg then compareMagnitude n₁ n₂
  else -compareMagnitude n₁ n₂

/-- `numeric_compare`. -/
def numericCompare (n₁ n₂ : Numeric) : ℤ :=
  if n₁.IsInvalid then
    if n₁.IsPlusInf then (if n₂.IsPlusInf then 0 else 1)
    else if n₁.IsMinusInf then (if n₂.IsMinusInf then 0 else -1)
    else if n₂.IsNan then 0
    else 1
  else if n₂.IsInvalid then
    if n₂.IsPlusInf then -1
    else if n₂.IsMinusInf then 1
    else -1
  else numCompareInt n₁ n₂ true

/-- The loop of `numeric_hash`. -/
def hashLoop (value : ℕ → ℕ) : (count inx : ℕ) → UInt32 → UInt32
  | 0, _, code => code
  | count + 1, inx, code =>
    hashLoop value count (inx + 1)
      ((code * (UInt32.ofNat (value inx) + (3 : UInt32) + UInt32.ofNat inx)) ^^^ (code >>> 24))

/-- `numeric_hash`. -/
def numericHash (n : Numeric) : UInt32 := hashLoop n.value (n.len + n.scale) 0 0xa3e2731b

/-- `numeric_hash_cmp`: the equality `numeric_init` registers with the hash function. -/
def numericHashCmp (n₁ n₂ : Numeric) : Prop := numericCompare n₁ n₂ = 0

/-! ## Comparing magnitudes -/

/-- The magnitude written by the digits in base `b`. -/
def frac (b : ℕ) (n : Numeric) : ℚ := val b n.value 0 (n.len + n.scale) / b ^ n.scale

theorem scanEqual_spec (v₁ v₂ : ℕ → ℕ) (count p : ℕ) :
    p ≤ scanEqual v₁ v₂ count p ∧ scanEqual v₁ v₂ count p ≤ p + count ∧
      (∀ i, p ≤ i → i < scanEqual v₁ v₂ count p → v₁ i = v₂ i) ∧
      (scanEqual v₁ v₂ count p < p + count →
        v₁ (scanEqual v₁ v₂ count p) ≠ v₂ (scanEqual v₁ v₂ count p)) :=
  pass_spec (fun _ => rfl) (fun _ _ => rfl) count p

/-- Two magnitudes on the same footing: digits aligned at the point and filled
up with zeros to the longer scale. -/
theorem frac_eq_align (hb : 0 < b) (n : Numeric) {s : ℕ} (hs : n.scale ≤ s) :
    n.frac b = val b (align n.value (n.len + n.scale) 0) 0 (n.len + s) / b ^ s := by
  obtain ⟨t, rfl⟩ := Nat.exists_eq_add_of_le hs
  rw [show n.len + (n.scale + t) = 0 + (n.len + n.scale) + t by omega, val_align, frac]
  have hb' : (b : ℚ) ≠ 0 := Nat.cast_ne_zero.mpr hb.ne'
  push_cast
  rw [pow_add, mul_div_mul_right _ _ (pow_ne_zero t hb')]

/-- The first aligned digit that differs decides about the magnitudes. -/
theorem frac_lt_frac (h₁ : x.DigitsBelow b) (hlen : x.len = y.len) {k : ℕ}
    (hk : k < x.len + max x.scale y.scale)
    (hagree : ∀ i < k, align x.value (x.len + x.scale) 0 i = align y.value (y.len + y.scale) 0 i)
    (hlt : align x.value (x.len + x.scale) 0 k < align y.value (y.len + y.scale) 0 k) (hb : 0 < b) :
    x.frac b < y.frac b := by
  rw [frac_eq_align hb x (le_max_left x.scale y.scale),
    frac_eq_align hb y (le_max_right x.scale y.scale), ← hlen]
  refine div_lt_div_of_pos_right (Nat.cast_lt.mpr ?_) (by positivity)
  refine val_lt_val (k := k) (fun i _ => ?_) hk ?_ ?_
  · exact align_lt hb h₁
  · intro i hi
    rw [Nat.zero_add]
    rw [hlen] at hagree ⊢
    exact hagree i hi
  · rw [Nat.zero_add]
    rw [hlen] at hlt ⊢
    exact hlt

/-- Beyond the digits of the shorter scale the aligned digits of the other are zero. -/
theorem align_value_of_lt {i : ℕ} (h : i < n.len + n.scale) :
    align n.value (n.len + n.scale) 0 i = n.value i := align_of_mem (Nat.zero_le i) (by omega)

/-- Digits that `n` has beyond those of `m`, with which it agrees: one that is not zero
makes `n` the greater, otherwise the two are equal. -/
theorem frac_of_tail {p : ℕ} {m : Numeric} (hb : 0 < b) (hm : m.DigitsBelow b)
    (hlen : m.len = n.len) (hp : p = m.len + m.scale) (hscale : m.scale ≤ n.scale)
    (hagree : ∀ i < p, align m.value (m.len + m.scale) 0 i = align n.value (n.len + n.scale) 0 i) :
    if skipZeros n.value (n.scale - m.scale) p < p + (n.scale - m.scale) then m.frac b < n.frac b
    else m.frac b = n.frac b := by
  obtain ⟨hge, hle, hzeros, hstop⟩ := skipZeros_spec n.value (n.scale - m.scale) p
  -- up to the place where the loop stops the aligned digits agree
  have hsame : ∀ i < skipZeros n.value (n.scale - m.scale) p,
      align m.value (m.len + m.scale) 0 i = align n.value (n.len + n.scale) 0 i := by
    intro i hi
    rcases Nat.lt_or_ge i p with hip | hip
    · exact hagree i hip
    · rw [align_of_le (by omega), align_value_of_lt (by omega), hzeros i hip hi]
  split_ifs with hlt
  · refine frac_lt_frac hm hlen (k := skipZeros n.value (n.scale - m.scale) p) ?_ hsame ?_ hb
    · omega
    · rw [align_of_le (by omega), align_value_of_lt (by omega)]
      exact Nat.pos_of_ne_zero (hstop hlt)
  · rw [frac_eq_align hb m hscale, frac_eq_align hb n le_rfl, ← hlen]
    congr 2
    refine val_congr fun i hi => ?_
    rw [Nat.zero_add]
    rw [hlen] at hsame ⊢
    exact hsame i (by omega)

/-- Numbers with the same count of integer digits are compared by magnitude. -/
theorem compareMagnitude_frac (hb : 0 < b) (h₁ : x.DigitsBelow b) (h₂ : y.DigitsBelow b)
    (hlen : x.len = y.len) : Reports (compareMagnitude x y) (x.frac b) (y.frac b) := by
  obtain ⟨-, hle, heq, hne⟩ :=
    scanEqual_spec x.value y.value (x.len + min x.scale y.scale) 0
  simp only [compareMagnitude, ne_eq, hlen, not_true_eq_false, if_false]
  rw [hlen] at hle heq hne
  set p := scanEqual x.value y.value (y.len + min x.scale y.scale) 0 with hp
  have hagree : ∀ i < p, align x.value (x.len + x.scale) 0 i =
      align y.value (y.len + y.scale) 0 i := by
    intro i hi
    rw [align_value_of_lt (by omega), align_value_of_lt (by omega)]
    exact heq i (Nat.zero_le i) hi
  split_ifs with hlt hgt hscale htail htail
  · -- the first common digit that differs
    refine .of_gt (frac_lt_frac h₂ hlen.symm (k := p) (by omega) (fun i hi => (hagree i hi).symm)
      ?_ hb)
    rw [align_value_of_lt (by omega), align_value_of_lt (by omega)]
    exact hgt
  · refine .of_lt (frac_lt_frac h₁ hlen (k := p) (by omega) hagree ?_ hb)
    rw [align_value_of_lt (by omega), align_value_of_lt (by omega)]
    omega
  · have h := frac_of_tail hb h₂ hlen.symm (p := p) (by omega) hscale.le
      fun i hi => (hagree i hi).symm
    rw [if_pos htail] at h
    exact .of_gt h
  · have h := frac_of_tail hb h₂ hlen.symm (p := p) (by omega) hscale.le
      fun i hi => (hagree i hi).symm
    rw [if_neg htail] at h
    exact .of_eq h.symm
  · have h := frac_of_tail hb h₁ hlen (p := p) (by omega) (by omega) hagree
    rw [if_pos htail] at h
    exact .of_lt h
  · have h := frac_of_tail hb h₁ hlen (p := p) (by omega) (by omega) hagree
    rw [if_neg htail] at h
    exact .of_eq h

/-! ## The order that is reported -/

/-- Minus infinity, the finite numbers, plus infinity, NaN. -/
def rankClass (n : Numeric) : ℤ :=
  match n.invalid, n.neg with
  | .valid, _ => 0
  | .inf, true => -1
  | .inf, false => 1
  | .nan, _ => 2

/-- One of the two is plus infinity and the other NaN. -/
def InfAndNan (a b : Numeric) : Prop :=
  (a.IsPlusInf ∧ b.IsNan) ∨ (a.IsNan ∧ b.IsPlusInf)

/-- Magnitudes are compared by length first. -/
theorem compareMagnitude_key (hb : 0 < b) (h₁ : x.DigitsBelow b) (h₂ : y.DigitsBelow b) :
    Reports (compareMagnitude x y)
      (toLex ((x.len : ℤ), x.frac b)) (toLex ((y.len : ℤ), y.frac b)) := by
  by_cases hlen : x.len = y.len
  · rw [hlen]
    exact .lex_snd (compareMagnitude_frac hb h₁ h₂ hlen)
  · refine .lex_fst ?_ (by exact_mod_cast hlen)
    simp only [compareMagnitude, ne_eq, hlen, not_false_eq_true, if_true]
    split_ifs with h
    · exact .of_gt (by exact_mod_cast h)
    · exact .of_lt (by exact_mod_cast lt_of_le_of_ne (Nat.not_lt.mp h) hlen)

/-- The signed length and magnitude of a finite number. -/
def signedKey (b : ℕ) (n : Numeric) : ℤ ×ₗ ℚ :=
  if n.neg then toLex (-(n.len : ℤ) - 1, -n.frac b) else toLex ((n.len : ℤ), n.frac b)

/-- `_num_compare_int` reports the order of the signed keys. -/
theorem numCompareInt_key {n₁ n₂ : Numeric} (hb : 0 < b) (h₁ : n₁.DigitsBelow b)
    (h₂ : n₂.DigitsBelow b) :
    Reports (numCompareInt n₁ n₂ true) (n₁.signedKey b) (n₂.signedKey b) := by
  have hmag := compareMagnitude_key hb h₁ h₂
  unfold numCompareInt signedKey
  cases hneg₁ : n₁.neg <;> cases hneg₂ : n₂.neg
  · exact hmag
  · refine .lex_fst (.of_gt ?_) ?_ <;> omega
  · refine .lex_fst (.of_lt ?_) ?_ <;> omega
  · refine .lex_anti (f := fun x => -x - 1) (g := fun x => -x) ?_ ?_ hmag
    · intro x y hxy
      simp only
      omega
    · exact fun x y hxy => neg_lt_neg hxy

theorem signedKey_inj (h : x.signedKey b = y.signedKey b) :
    x.neg = y.neg ∧ x.len = y.len ∧ x.frac b = y.frac b := by
  unfold signedKey at h
  cases hneg₁ : x.neg <;> cases hneg₂ : y.neg <;>
    simp only [hneg₁, hneg₂, if_true, if_false, Bool.false_eq_true, toLex_inj,
      Prod.mk.injEq] at h
  · exact ⟨rfl, by omega, h.2⟩
  · omega
  · omega
  · exact ⟨rfl, by omega, neg_inj.mp h.2⟩

/-- Class, then the signed key of a finite number. -/
def key (b : ℕ) (n : Numeric) : ℤ ×ₗ ℤ ×ₗ ℚ :=
  toLex (n.rankClass, if n.IsInvalid then toLex (0, 0) else n.signedKey b)

/-- Where NaN or an infinity is involved the class decides, except that plus
infinity is said to be greater than NaN. -/
theorem numericCompare_class (h : x.IsInvalid ∨ y.IsInvalid) (hne : ¬ (x.IsPlusInf ∧ y.IsNan)) :
    Reports (numericCompare x y) x.rankClass y.rankClass := by
  cases hi₁ : x.invalid <;> cases hi₂ : y.invalid <;> cases hn₁ : x.neg <;>
    cases hn₂ : y.neg <;>
    simp [hi₁, hi₂, hn₁, numericCompare, rankClass, Reports, IsInvalid, IsPlusInf, IsMinusInf,
      IsInf, IsNan, hn₂] at h hne ⊢

theorem rankClass_eq_zero_iff : n.rankClass = 0 ↔ n.invalid = .valid := by
  unfold rankClass
  cases hi : n.invalid <;> cases hn : n.neg <;> simp

/-- `numeric_compare` reports the order of the keys, with the same exception. -/
theorem numericCompare_key (hb : 0 < b) (h₁ : x.DigitsBelow b) (h₂ : y.DigitsBelow b)
    (hne : ¬ (x.IsPlusInf ∧ y.IsNan)) : Reports (numericCompare x y) (x.key b) (y.key b) := by
  unfold key
  by_cases hinv : x.IsInvalid ∨ y.IsInvalid
  · have hclass := numericCompare_class hinv hne
    by_cases heq : x.rankClass = y.rankClass
    · -- both are invalid, and of one class
      have hiff : x.IsInvalid ↔ y.IsInvalid := by
        rw [IsInvalid, IsInvalid, ne_eq, ne_eq, ← rankClass_eq_zero_iff, ← rankClass_eq_zero_iff,
          heq]
      rw [hclass.eq_zero_iff.mpr heq, if_pos (hinv.elim id hiff.mpr),
        if_pos (hinv.elim hiff.mp id), heq]
      exact .of_eq rfl
    · exact hclass.lex_fst heq
  · rw [not_or, not_not, not_not] at hinv
    rw [rankClass_eq_zero_iff.mpr hinv.1, rankClass_eq_zero_iff.mpr hinv.2,
      if_neg (not_not.mpr hinv.1), if_neg (not_not.mpr hinv.2), numericCompare,
      if_neg (not_not.mpr hinv.1), if_neg (not_not.mpr hinv.2)]
    exact .lex_snd (numCompareInt_key hb h₁ h₂)

/-- Some base exceeds the digits of three numbers. -/
theorem exists_base (x y n₃ : Numeric) :
    ∃ b, 0 < b ∧ x.DigitsBelow b ∧ y.DigitsBelow b ∧ n₃.DigitsBelow b := by
  have hone (n : Numeric) : ∃ b, n.DigitsBelow b := by
    refine ⟨(Finset.range (n.len + n.scale)).sup n.value + 1, fun i hi => ?_⟩
    exact Nat.lt_succ_of_le (Finset.le_sup (Finset.mem_range.mpr hi))
  obtain ⟨b₁, h₁⟩ := hone x
  obtain ⟨b₂, h₂⟩ := hone y
  obtain ⟨b₃, h₃⟩ := hone n₃
  refine ⟨b₁ + b₂ + b₃ + 1, by omega, fun i hi => ?_, fun i hi => ?_, fun i hi => ?_⟩
  · have := h₁ i hi; omega
  · have := h₂ i hi; omega
  · have := h₃ i hi; omega

/-- Plus infinity and NaN are each greater than the other. -/
theorem numericCompare_infAndNan {b : Numeric} (h : InfAndNan a b) :
    numericCompare a b = 1 ∧ numericCompare b a = 1 := by
  rcases h with ⟨⟨hi, hn⟩, hb⟩ | ⟨hb, hi, hn⟩ <;> unfold IsNan at hb <;>
    simp [numericCompare, IsInvalid, IsPlusInf, IsMinusInf, IsNan, IsInf, hi, hn, hb]

/-- An answer of at most zero is right. -/
theorem numericCompare_nonpos_iff (hb : 0 < b) (h₁ : x.DigitsBelow b) (h₂ : y.DigitsBelow b) :
    numericCompare x y ≤ 0 ↔ x.key b ≤ y.key b ∧ ¬ (x.IsPlusInf ∧ y.IsNan) := by
  by_cases hbad : x.IsPlusInf ∧ y.IsNan
  · rw [(numericCompare_infAndNan (.inl hbad)).1]
    exact ⟨fun h => absurd h (by decide), fun h => absurd hbad h.2⟩
  · rw [(numericCompare_key hb h₁ h₂ hbad).le_zero_iff]
    exact ⟨fun h => ⟨h, hbad⟩, fun h => h.1⟩

/-- An answer of at least zero is right, or about plus infinity and NaN. -/
theorem numericCompare_nonneg_iff (hb : 0 < b) (h₁ : x.DigitsBelow b) (h₂ : y.DigitsBelow b) :
    0 ≤ numericCompare x y ↔ y.key b ≤ x.key b ∨ (x.IsPlusInf ∧ y.IsNan) := by
  by_cases hbad : x.IsPlusInf ∧ y.IsNan
  · rw [(numericCompare_infAndNan (.inl hbad)).1]
    exact ⟨fun _ => .inr hbad, fun _ => by decide⟩
  · rw [(numericCompare_key hb h₁ h₂ hbad).nonneg_iff]
    exact ⟨.inl, fun h => h.resolve_right hbad⟩

theorem rankClass_le_of_key_le (h : x.key b ≤ y.key b) : x.rankClass ≤ y.rankClass := by
  rcases Prod.Lex.toLex_le_toLex.mp h with h | h
  · exact h.le
  · exact h.1.le

/-- Nothing but plus infinity and NaN lies at or above plus infinity. -/
theorem isPlusInf_or_isNan (h₁ : x.IsPlusInf) (h : x.key b ≤ y.key b) : y.IsPlusInf ∨ y.IsNan := by
  have hle := rankClass_le_of_key_le h
  unfold rankClass at hle
  rw [h₁.1, h₁.2] at hle
  unfold IsPlusInf IsInf IsNan
  cases hi : y.invalid <;> cases hn : y.neg <;> simp [hi, hn] at hle ⊢

/-- Below NaN and the infinities only the class matters. -/
theorem key_le_of_rankClass_le (h₂ : y.IsInvalid) (h : x.rankClass ≤ y.rankClass) :
    x.key b ≤ y.key b := by
  refine Prod.Lex.toLex_le_toLex.mpr ?_
  rcases h.lt_or_eq with hlt | heq
  · exact .inl hlt
  · have h₁ : x.IsInvalid := fun h =>
      h₂ (rankClass_eq_zero_iff.mp (heq ▸ rankClass_eq_zero_iff.mpr h))
    refine .inr ⟨heq, ?_⟩
    simp only [if_pos h₁, if_pos h₂, le_refl]

theorem rankClass_le_two (n : Numeric) : n.rankClass ≤ 2 := by
  unfold rankClass
  split <;> decide

theorem rankClass_le_one (h : ¬ n.IsNan) : n.rankClass ≤ 1 := by
  unfold rankClass
  split
  · decide
  · decide
  · decide
  · next hi => exact absurd hi h

/-- Every number compares equal with itself. -/
theorem numericCompare_refl (a : Numeric) : numericCompare a a = 0 := by
  obtain ⟨b, hb, ha, -, -⟩ := exists_base a a a
  have hne : ¬ (a.IsPlusInf ∧ a.IsNan) := fun ⟨h₁, h₂⟩ =>
    absurd (h₁.1.symm.trans h₂) (by simp)
  exact (numericCompare_key hb ha ha hne).eq_zero_iff.mpr rfl

/-- The answers for exchanged arguments are opposite, but for plus infinity and NaN. -/
theorem numericCompare_antisymm_iff (a b : Numeric) :
    numericCompare a b = -numericCompare b a ↔ ¬ InfAndNan a b := by
  constructor
  · intro h hbad
    obtain ⟨h₁, h₂⟩ := numericCompare_infAndNan hbad
    rw [h₁, h₂] at h
    exact absurd h (by decide)
  · intro hok
    obtain ⟨base, hb, ha, hb', -⟩ := exists_base a b b
    have h₁ := numericCompare_key hb ha hb' fun h => hok (.inl h)
    have h₂ := numericCompare_key hb hb' ha fun h => hok (.inr h.symm)
    exact h₁.unique h₂.swap

/-- "At most" is transitive. -/
theorem numericCompare_le_trans {b c : Numeric} (hab : numericCompare a b ≤ 0)
    (hbc : numericCompare b c ≤ 0) : numericCompare a c ≤ 0 := by
  obtain ⟨base, hpos, ha, hb, hc⟩ := exists_base a b c
  rw [numericCompare_nonpos_iff hpos ha hb] at hab
  rw [numericCompare_nonpos_iff hpos hb hc] at hbc
  rw [numericCompare_nonpos_iff hpos ha hc]
  refine ⟨hab.1.trans hbc.1, fun ⟨hinf, hnan⟩ => ?_⟩
  rcases isPlusInf_or_isNan hinf hab.1 with h | h
  · exact hbc.2 ⟨h, hnan⟩
  · exact hab.2 ⟨hinf, h⟩

/-- "At least" is transitive. -/
theorem numericCompare_ge_trans {b c : Numeric} (hab : 0 ≤ numericCompare a b)
    (hbc : 0 ≤ numericCompare b c) : 0 ≤ numericCompare a c := by
  obtain ⟨base, hpos, ha, hb, hc⟩ := exists_base a b c
  rw [numericCompare_nonneg_iff hpos ha hb] at hab
  rw [numericCompare_nonneg_iff hpos hb hc] at hbc
  rw [numericCompare_nonneg_iff hpos ha hc]
  rcases hab with hab | ⟨hinf, -⟩
  · rcases hbc with hbc | ⟨hinf, hnan⟩
    · exact .inl (hbc.trans hab)
    · rcases isPlusInf_or_isNan hinf hab with h | h
      · exact .inr ⟨h, hnan⟩
      · have hclass : a.rankClass = 2 := by rw [rankClass, h]
        refine .inl (key_le_of_rankClass_le (by rw [IsInvalid, h]; decide) ?_)
        rw [hclass]
        exact rankClass_le_two c
  · by_cases hnan : c.IsNan
    · exact .inr ⟨hinf, hnan⟩
    · have hclass : a.rankClass = 1 := by rw [rankClass, hinf.1, hinf.2]
      refine .inl (key_le_of_rankClass_le (by rw [IsInvalid, hinf.1]; decide) ?_)
      rw [hclass]
      exact rankClass_le_one hnan

/-! ## Canonical numbers -/

theorem frac_ten (n : Numeric) : n.frac 10 = n.mag / 10 ^ n.scale := by simp [frac, mag]

theorem toRat_eq_frac (n : Numeric) : n.toRat = if n.neg then -n.frac 10 else n.frac 10 := by
  rw [toRat, ← frac_ten]
  split <;> simp

theorem Canonical.frac_lt (h : n.Canonical) : n.frac 10 < 10 ^ n.len := by
  have hval : n.mag < 10 ^ (n.len + n.scale) := val_lt_pow_zero h.digits
  rw [frac_ten, div_lt_iff₀ (by positivity), ← pow_add]
  exact_mod_cast hval

theorem Canonical.le_frac (h : n.Canonical) {k : ℕ} (hk : k < n.len) : 10 ^ k ≤ n.frac 10 := by
  have hpos : 0 < n.value 0 := Nat.pos_of_ne_zero (h.leading (by omega))
  have hval : 10 ^ (n.len - 1 + n.scale) ≤ val 10 n.value 0 (n.len - 1 + n.scale + 1) :=
    pow_le_val hpos
  rw [show n.len - 1 + n.scale + 1 = n.len + n.scale by omega] at hval
  rw [frac_ten, le_div_iff₀ (by positivity), ← pow_add]
  calc (10 : ℚ) ^ (k + n.scale) ≤ 10 ^ (n.len - 1 + n.scale) :=
        pow_le_pow_right₀ (by norm_num) (by omega)
    _ ≤ n.mag := by exact_mod_cast hval

theorem Canonical.frac_pos (h : n.Canonical) (hneg : n.neg = true) : 0 < n.frac 10 := by
  have hmag : 0 < n.mag := h.mag_pos fun hz => by
    rw [h.neg_of_isZero hz] at hneg
    exact absurd hneg (by decide)
  rw [frac_ten]
  positivity

theorem frac_nonneg : 0 ≤ n.frac 10 := by
  rw [frac_ten]
  positivity

section

variable {b : Numeric} (ha : a.Canonical) (hb : b.Canonical)
include ha hb

/-- Longer canonical magnitudes are greater, so the key order is the order of magnitudes. -/
theorem Canonical.frac_lt_frac (h : a.len < b.len ∨ (a.len = b.len ∧ a.frac 10 < b.frac 10)) :
    a.frac 10 < b.frac 10 := by
  rcases h with h | ⟨-, h⟩
  · exact lt_of_lt_of_le ha.frac_lt (hb.le_frac h)
  · exact h

/-- On canonical numbers the keys are ordered as the numbers are. -/
theorem Canonical.toRat_lt_toRat (h : a.signedKey 10 < b.signedKey 10) : a.toRat < b.toRat := by
  rw [toRat_eq_frac, toRat_eq_frac]
  unfold signedKey at h
  cases hna : a.neg <;> cases hnb : b.neg <;>
    simp only [hna, hnb, if_true, if_false, Bool.false_eq_true, Prod.Lex.toLex_lt_toLex] at h ⊢
  · exact ha.frac_lt_frac hb (h.imp (fun h => by omega) fun h => ⟨by omega, h.2⟩)
  · exact absurd h (by omega)
  · exact lt_of_lt_of_le (neg_lt_zero.mpr (ha.frac_pos hna)) frac_nonneg
  · refine neg_lt_neg (hb.frac_lt_frac ha (h.imp (fun h => by omega) fun h => ⟨by omega, ?_⟩))
    exact neg_lt_neg_iff.mp h.2

/-- Canonical numbers are compared by value. -/
theorem Canonical.numericCompare_eq (hva : a.invalid = .valid) (hvb : b.invalid = .valid) :
    Reports (numericCompare a b) a.toRat b.toRat := by
  have hkey := numCompareInt_key (by decide) ha.digits hb.digits
  rw [numericCompare, if_neg (not_not.mpr hva), if_neg (not_not.mpr hvb)]
  rcases hkey with ⟨hr, h⟩ | ⟨hr, h⟩ | ⟨hr, h⟩
  · rw [hr]
    exact .of_lt (ha.toRat_lt_toRat hb h)
  · obtain ⟨hneg, -, hfrac⟩ := signedKey_inj h
    rw [hr]
    refine .of_eq ?_
    rw [toRat_eq_frac, toRat_eq_frac, hneg, hfrac]
  · rw [hr]
    exact .of_gt (hb.toRat_lt_toRat ha h)

end

/-! ## Agreement with the hash -/

theorem hashLoop_append (value : ℕ → ℕ) (m n inx : ℕ) (code : UInt32) :
    hashLoop value (m + n) inx code =
      hashLoop value n (inx + m) (hashLoop value m inx code) := by
  induction m generalizing inx code with
  | zero => simp [hashLoop]
  | succ m ih => rw [Nat.add_right_comm, hashLoop, ih, hashLoop, Nat.add_right_comm, Nat.add_assoc]

theorem hashLoop_congr {v w : ℕ → ℕ} {n inx : ℕ} (h : ∀ i < n, v (inx + i) = w (inx + i))
    (code : UInt32) : hashLoop v n inx code = hashLoop w n inx code := by
  induction n generalizing inx code with
  | zero => rfl
  | succ n ih =>
    have h0 := h 0 (by omega)
    rw [Nat.add_zero] at h0
    rw [hashLoop, hashLoop, h0]
    refine ih (fun i hi => ?_) _
    have := h (i + 1) (by omega)
    rwa [show inx + 1 + i = inx + (i + 1) by omega]

/-- The hash code a number would have with further zeros at its end. -/
def hashPadded (n : Numeric) (zeros : ℕ) : UInt32 :=
  hashLoop (fun _ => 0) zeros (n.len + n.scale) n.numericHash

/-- Padding a number is hashing its aligned digits. -/
theorem hashPadded_eq (n : Numeric) (zeros : ℕ) : n.hashPadded zeros =
    hashLoop (align n.value (n.len + n.scale) 0) (n.len + n.scale + zeros) 0 0xa3e2731b := by
  rw [hashLoop_append, hashPadded, numericHash, Nat.zero_add]
  rw [hashLoop_congr (v := n.value) (w := align n.value (n.len + n.scale) 0)]
  · refine hashLoop_congr (fun i hi => ?_) _
    rw [align_of_le (by omega)]
  · intro i hi
    rw [Nat.zero_add, align_value_of_lt hi]

/-- Finite numbers that compare equal have the same sign, length and aligned digits. -/
theorem align_eq_of_numericCompare {b : Numeric} (hva : a.invalid = .valid)
    (hvb : b.invalid = .valid) (h : numericCompare a b = 0) :
    a.neg = b.neg ∧ a.len = b.len ∧ ∀ i < a.len + max a.scale b.scale,
      align a.value (a.len + a.scale) 0 i = align b.value (b.len + b.scale) 0 i := by
  obtain ⟨base, hpos, ha, hb, -⟩ := exists_base a b b
  rw [numericCompare, if_neg (not_not.mpr hva), if_neg (not_not.mpr hvb)] at h
  obtain ⟨hneg, hlen, hfrac⟩ := signedKey_inj ((numCompareInt_key hpos ha hb).eq_zero_iff.mp h)
  refine ⟨hneg, hlen, ?_⟩
  rw [frac_eq_align hpos a (le_max_left a.scale b.scale),
    frac_eq_align hpos b (le_max_right a.scale b.scale)] at hfrac
  have hscale : (base : ℚ) ^ max a.scale b.scale ≠ 0 := by positivity
  have hval := Nat.cast_injective ((div_left_inj' hscale).mp hfrac)
  rw [← hlen] at hval ⊢
  intro i hi
  have h := digits_eq_of_val_eq (fun i _ => align_lt hpos ha)
    (fun i _ => align_lt hpos (by rw [hlen]; exact hb)) hval i hi
  rwa [Nat.zero_add] at h

/-- Only NaN and the infinities compare equal to one of them. -/
theorem isInvalid_of_numericCompare {b : Numeric} (hinv : a.IsInvalid ∨ b.IsInvalid)
    (h : numericCompare a b = 0) : a.IsInvalid ∧ b.IsInvalid := by
  have hne : ¬ (a.IsPlusInf ∧ b.IsNan) := by
    intro hbad
    rw [(numericCompare_infAndNan (.inl hbad)).1] at h
    exact absurd h (by decide)
  have hclass := (numericCompare_class hinv hne).eq_zero_iff.mp h
  have hiff : a.IsInvalid ↔ b.IsInvalid := by
    rw [IsInvalid, IsInvalid, ne_eq, ne_eq, ← rankClass_eq_zero_iff, ← rankClass_eq_zero_iff,
      hclass]
  exact ⟨hinv.elim id hiff.mpr, hinv.elim hiff.mp id⟩

theorem hashPadded_zero (n : Numeric) : n.hashPadded 0 = n.numericHash := rfl

section

variable {b : Numeric} (ha : a.IsInvalid → a.IsZero) (hb : b.IsInvalid → b.IsZero)
  (h : numericCompare a b = 0)
include ha hb h

/-- Numbers that compare equal have the same hash code once their scales are made equal. -/
theorem hashPadded_eq_of_numericCompare :
    a.hashPadded (b.scale - a.scale) = b.hashPadded (a.scale - b.scale) := by
  by_cases hinv : a.IsInvalid ∨ b.IsInvalid
  · obtain ⟨hia, hib⟩ := isInvalid_of_numericCompare hinv h
    have hza := ha hia
    have hzb := hb hib
    rw [hashPadded_eq, hashPadded_eq, hza, hzb, show b.scale - a.scale = 0 by omega,
      show a.scale - b.scale = 0 by omega]
    rfl
  · rw [not_or, not_not, not_not] at hinv
    obtain ⟨-, hlen, halign⟩ := align_eq_of_numericCompare hinv.1 hinv.2 h
    rw [hashPadded_eq, hashPadded_eq,
      show b.len + b.scale + (a.scale - b.scale) = a.len + a.scale + (b.scale - a.scale) by omega]
    refine hashLoop_congr (fun i hi => ?_) _
    rw [Nat.zero_add]
    exact halign i (by omega)

end

/-! ## The laws of comparison and hash -/

/-- Exchanging the arguments negates the answer, and numbers that compare equal
have equal hash codes. -/
def Lawful (a b : Numeric) : Prop :=
  numericCompare a b = -numericCompare b a ∧
    (numericHashCmp a b → numericHash a = numericHash b)

/-- The same finite number in two forms: equal signs, and equal digits once the shorter fraction
is filled up with zeros. -/
structure SameNumber (a b : Numeric) : Prop where
  left : a.invalid = .valid
  right : b.invalid = .valid
  neg : a.neg = b.neg
  len : a.len = b.len
  digits : ∀ i < a.len + max a.scale b.scale,
    align a.value (a.len + a.scale) 0 i = align b.value (b.len + b.scale) 0 i

/-- The last digit of the longer fraction would have to be a zero of the other. -/
theorem Canonical.scale_eq {b : Numeric} (ha : a.Canonical) (hb : b.Canonical)
    (h : SameNumber a b) : a.scale = b.scale := by
  have hlen := h.len
  rcases Nat.lt_trichotomy a.scale b.scale with hlt | heq | hlt
  · have hlast := h.digits (b.len + b.scale - 1) (by omega)
    rw [align_of_le (by omega), align_value_of_lt (by omega)] at hlast
    exact absurd hlast.symm (hb.trailing (by omega))
  · exact heq
  · have hlast := h.digits (a.len + a.scale - 1) (by omega)
    rw [align_value_of_lt (by omega), align_of_le (by omega)] at hlast
    exact absurd hlast (ha.trailing (by omega))

/-- Values that compare equal are the same number, or both are NaN or infinite. -/
theorem SameNumber.of_numericCompare {b : Numeric} (h : numericCompare a b = 0) :
    SameNumber a b ∨ (a.IsInvalid ∧ b.IsInvalid) := by
  by_cases hinv : a.IsInvalid ∨ b.IsInvalid
  · exact .inr (isInvalid_of_numericCompare hinv h)
  · rw [not_or, not_not, not_not] at hinv
    obtain ⟨hneg, hlen, hdigits⟩ := align_eq_of_numericCompare hinv.1 hinv.2 h
    exact .inl ⟨hinv.1, hinv.2, hneg, hlen, hdigits⟩

/-- Two forms of a number hash alike if they have the same scale. -/
theorem numericHash_eq_of_scale {b : Numeric} (ha : a.IsInvalid → a.IsZero)
    (hb : b.IsInvalid → b.IsZero) (hscale : SameNumber a b → a.scale = b.scale)
    (h : numericCompare a b = 0) : a.numericHash = b.numericHash := by
  have heq : a.scale = b.scale := by
    rcases SameNumber.of_numericCompare h with hsame | ⟨hia, hib⟩
    · exact hscale hsame
    · have hza := ha hia
      have hzb := hb hib
      omega
  have hpad := hashPadded_eq_of_numericCompare ha hb h
  rwa [heq, Nat.sub_self, hashPadded_zero, hashPadded_zero] at hpad

/-- `numeric_compare` is reflexive and transitive on all values, and antisymmetric for two values
exactly when they are not plus infinity and NaN.  It agrees with the hash unless the values are
one number written with two scales.  Canonical numbers are compared by value, and have one scale. -/
theorem numericCompare_laws (a b c : Numeric) (ha : a.IsInvalid → a.IsZero)
    (hb : b.IsInvalid → b.IsZero) :
    numericCompare a a = 0 ∧
    (numericCompare a b ≤ 0 → numericCompare b c ≤ 0 → numericCompare a c ≤ 0) ∧
    (0 ≤ numericCompare a b → 0 ≤ numericCompare b c → 0 ≤ numericCompare a c) ∧
    (numericCompare a b = -numericCompare b a ↔ ¬ InfAndNan a b) ∧
    (¬ InfAndNan a b → (SameNumber a b → a.scale = b.scale) → Lawful a b) ∧
    (a.Canonical → b.Canonical → a.invalid = .valid → b.invalid = .valid →
      numericCompare a b = SignType.sign (a.toRat - b.toRat) ∧ Lawful a b) := by
  have hlawful (hne : ¬ InfAndNan a b) (hscale : SameNumber a b → a.scale = b.scale) : Lawful a b :=
    ⟨(numericCompare_antisymm_iff a b).2 hne, numericHash_eq_of_scale ha hb hscale⟩
  refine ⟨numericCompare_refl a, numericCompare_le_trans, numericCompare_ge_trans,
    numericCompare_antisymm_iff a b, hlawful, ?_⟩
  intro hca hcb hva hvb
  refine ⟨(hca.numericCompare_eq hcb hva hvb).eq_sign, hlawful ?_ (hca.scale_eq hcb)⟩
  rintro (⟨hinf, -⟩ | ⟨hnan, -⟩)
  · exact absurd (hva.symm.trans hinf.1) (by decide)
  · exact absurd (hva.symm.trans hnan) (by decide)

/-- The number 0 in storage that held zeros. -/
def blank : Numeric := ⟨0, 0, .valid, false, fun _ => 0⟩

theorem blank_canonical : blank.Canonical :=
  canonical_of_digits (fun i hi => absurd hi (Nat.not_lt_zero i)) (fun h => absurd h (by decide))
    (fun h => absurd h (by decide)) (by decide) (by decide) fun _ => rfl

/-- The number with the given sign and the given digits before and after the point. -/
def ofDigits (neg : Bool) (whole frac : List ℕ) : Numeric :=
  ⟨whole.length, frac.length, .valid, neg, fun i => (whole ++ frac).getD i 0⟩

theorem ofDigits_canonical {neg : Bool} {whole frac : List ℕ} (hd : ∀ d ∈ whole ++ frac, d < 10)
    (hlead : 0 < whole.length → (whole ++ frac).getD 0 0 ≠ 0)
    (htrail : 0 < frac.length → (whole ++ frac).getD (whole.length + frac.length - 1) 0 ≠ 0)
    (hlen : whole.length ≤ numericMaxPrecision)
    (htotal : whole.length + frac.length ≤ numericMaxPrecisionInt)
    (hsign : whole.length + frac.length = 0 → neg = false) :
    (ofDigits neg whole frac).Canonical := by
  refine canonical_of_digits (fun i hi => ?_) hlead htrail hlen htotal hsign
  have hi : i < (whole ++ frac).length := by rwa [List.length_append]
  simp only [ofDigits, List.getD_eq_getElem _ _ hi]
  exact hd _ (List.getElem_mem hi)

/-- `-123.45` is less than `-123.4`. -/
theorem numericCompare_laws_digits :
    let a := ofDigits true [1, 2, 3] [4, 5]
    let b := ofDigits true [1, 2, 3] [4]
    numericCompare a b = -1 ∧ numericCompare a b = SignType.sign (a.toRat - b.toRat) ∧
      Lawful a b := by
  intro a b
  refine ⟨by decide, ?_⟩
  have hinv : a.IsInvalid → a.IsZero := fun h => absurd rfl h
  exact (numericCompare_laws a b b hinv fun h => absurd rfl h).2.2.2.2.2
    (ofDigits_canonical (by decide) (by decide) (by decide) (by decide) (by decide) (by decide))
    (ofDigits_canonical (by decide) (by decide) (by decide) (by decide) (by decide) (by decide))
    rfl rfl

/-- `100e-2` and `1` compare equal and hash differently; each of `INF` and `NaN`
is greater than the other. -/
theorem compare_and_hash_disagree : ∃ a b inf nan : Numeric,
    numericFromString blank ['1', '0', '0', 'e', '-', '2'] = some (.success, a) ∧
    numericFromString blank ['1'] = some (.success, b) ∧
    numericFromString blank ['I', 'N', 'F'] = some (.success, inf) ∧
    numericFromString blank ['N', 'a', 'N'] = some (.success, nan) ∧
    numericCompare a b = 0 ∧ numericHash a ≠ numericHash b ∧
    numericCompare inf nan = 1 ∧ numericCompare nan inf = 1 := by
  have hfinite :
      ((numericFromString blank ['1', '0', '0', 'e', '-', '2']).bind fun a =>
        (numericFromString blank ['1']).bind fun b =>
          some (a.1, b.1, numericCompare a.2 b.2, decide (numericHash a.2 = numericHash b.2))) =
        some (.success, .success, 0, false) := by decide +kernel
  have hspecial :
      ((numericFromString blank ['I', 'N', 'F']).bind fun i =>
        (numericFromString blank ['N', 'a', 'N']).bind fun n =>
          some (i.1, n.1, numericCompare i.2 n.2, numericCompare n.2 i.2)) =
        some (.success, .success, 1, 1) := by decide +kernel
  simp only [Option.bind_eq_some_iff, Option.some.injEq, Prod.mk.injEq,
    decide_eq_false_iff_not] at hfinite hspecial
  obtain ⟨⟨_, a⟩, ha, ⟨_, b⟩, hb, rfl, rfl, hcmp, hhash⟩ := hfinite
  obtain ⟨⟨_, inf⟩, hinf, ⟨_, nan⟩, hnan, rfl, rfl, hless, hgreater⟩ := hspecial
  exact ⟨a, b, inf, nan, ha, hb, hinf, hnan, hcmp, hhash, hless, hgreater⟩

end Virtuoso.Numeric
