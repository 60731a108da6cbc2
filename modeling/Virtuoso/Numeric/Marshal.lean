import Virtuoso.Numeric.Compare

/-!
# Marshalled numbers (`numeric_to_dv`, `numeric_from_dv`, `numeric_from_buf`)

A marshalled number is a tag, the number of bytes behind the second one, flags, the number of bytes
with digits before the point, and the digits, two to a byte.  An odd number of digits before the
point is filled up in front and one behind it at the end; the flags tell.

A buffer is its bytes by offset.  What a buffer that was not made by `numeric_to_dv` can do to a
number that a `Numeric` cannot hold (a negative length, NaN and infinite at once) is `none`.
-/

namespace Virtuoso.Numeric

open Function

/-! ## Writing -/

def dvNumeric : ℕ := 219

/-- `n_invalid` as a number: `NDF_NAN` or `NDF_INF`. -/
def invalidCode : Invalid → ℕ
  | .valid => 0
  | .nan => 8
  | .inf => 16

/-- The digit at `cp`, 0 from `ep` on. -/
def digitBefore (value : ℕ → ℕ) (ep cp : ℕ) : ℕ := if cp < ep then value cp else 0

/-- A byte with the digits at `cp` and behind it. -/
def pairByte (value : ℕ → ℕ) (ep cp : ℕ) : ℕ :=
  (digitBefore value ep cp <<< 4 ||| digitBefore value ep (cp + 1)) % 256

/-- The loop of `numeric_to_dv`, for `x1` digits from `cp` on: the end of the bytes, and the
buffer. -/
def encodeLoop (value : ℕ → ℕ) (ep : ℕ) : (x1 cp rp : ℕ) → (ℕ → ℕ) → ℕ × (ℕ → ℕ)
  | 0, _, rp, res => (rp, res)
  | 1, cp, rp, res => (rp + 1, Function.update res rp (pairByte value ep cp))
  | x1 + 2, cp, rp, res =>
    encodeLoop value ep x1 (cp + 2) (rp + 1) (Function.update res rp (pairByte value ep cp))

/-- The flags: sign, padding in front, padding at the end, NaN or infinity. -/
def dvFlags (n : Numeric) : ℕ :=
  (if n.neg then 1 else 0) ||| (if n.len % 2 = 1 then 4 else 0) |||
    (if n.scale % 2 = 1 then 2 else 0) ||| invalidCode n.invalid

/-- `numeric_to_dv`: the number of bytes written, and the buffer. -/
def numericToDv (n : Numeric) (res : ℕ → ℕ) : Status × ℕ × (ℕ → ℕ) :=
  let ep := n.len + n.scale
  let res := Function.update res 0 dvNumeric
  let res := Function.update res 2 n.dvFlags
  let res := Function.update res 3 ((n.len + 1) / 2 % 256)
  let r := if n.len % 2 = 1 then
      encodeLoop n.value ep (n.len - 1 + n.scale) 1 5 (Function.update res 4 (n.value 0 % 256))
    else encodeLoop n.value ep (n.len + n.scale) 0 4 res
  (if r.1 - 2 > 255 then .marshalling else .success, r.1, Function.update r.2 1 ((r.1 - 2) % 256))

/-- `numeric_dv_len`, with what its local buffer holds before. -/
def numericDvLen (n : Numeric) (res : ℕ → ℕ) : ℕ := 2 + (numericToDv n res).2.2 1

/-! ## Reading -/

/-- `n_invalid` of the flags. -/
def invalidOf (flags : ℕ) : Option Invalid :=
  if flags &&& 24 = 0 then some .valid
  else if flags &&& 24 = 8 then some .nan
  else if flags &&& 24 = 16 then some .inf
  else none

/-- The loop over the bytes, of which `count` are left. -/
def decodeLoop (buf : ℕ → ℕ) : (count rp dp : ℕ) → (ℕ → ℕ) → ℕ → ℕ
  | 0, _, _, value => value
  | count + 1, rp, dp, value =>
    decodeLoop buf count (rp + 1) (dp + 2)
      (Function.update (Function.update value dp (buf rp >>> 4)) (dp + 1) (buf rp &&& 15))

/-- The header of a number that is read. -/
def readHeader (n : Numeric) (buf : ℕ → ℕ) : Option Numeric :=
  if buf 1 < buf 3 + 2 ∨ 127 < buf 3 * 2 ∨ 127 < (buf 1 - buf 3 - 2) * 2 then none
  else
    (invalidOf (buf 2)).map fun invalid =>
      { n with
        len := buf 3 * 2
        scale := (buf 1 - buf 3 - 2) * 2
        neg := buf 2 &&& 1 ≠ 0
        invalid := invalid }

/-- The digits of a number that is read. -/
def readPairs (n : Numeric) (buf : ℕ → ℕ) : Option Numeric :=
  let lead := buf 2 &&& 4 ≠ 0
  let trail := buf 2 &&& 2 ≠ 0
  let ep := 2 + buf 1
  if (lead ∧ n.len = 0) ∨ (trail ∧ n.scale = 0) then none
  else some
    { n with
      len := if lead then n.len - 1 else n.len
      scale := if trail then n.scale - 1 else n.scale
      value := if lead then
          decodeLoop buf (ep - 5) 5 1 (Function.update n.value 0 (buf 4 &&& 15))
        else decodeLoop buf (ep - 4) 4 0 n.value }

/-- `numeric_from_dv`, for a number in an object of `nBytes` bytes. -/
def numericFromDv (n : Numeric) (buf : ℕ → ℕ) (nBytes : ℕ) : Option (Status × Numeric) :=
  if buf 0 ≠ dvNumeric then none
  else
    (readHeader n buf).bind fun n =>
      if (nBytes : ℤ) - 8 + 4 ≤ ((buf 1 : ℤ) - 2) * 2 then some (.marshalling, n)
      else (readPairs n buf).map fun n => (.success, n)

/-- `numeric_from_buf`, which gets the bytes behind the tag. -/
def numericFromBuf (n : Numeric) (buf : ℕ → ℕ) : Option (Status × Numeric) :=
  let buf := fun i => buf (i - 1)
  (readHeader n buf).bind fun n => (readPairs n buf).map fun n => (.success, n)

/-- The size of a number of the package: `numeric_allocate` makes such, and `numeric_init_static`
asks for it. -/
def numericBytes : ℕ := 8 + numericMaxDataBytes - 4

/-! ## The loops -/

theorem pairByte_nibbles {value : ℕ → ℕ} {ep cp : ℕ} (hd : ∀ i < ep, value i < 10) :
    pairByte value ep cp >>> 4 = digitBefore value ep cp ∧
      pairByte value ep cp &&& 15 = digitBefore value ep (cp + 1) := by
  have hdigit (i : ℕ) : digitBefore value ep i < 10 := by
    rw [digitBefore]
    split_ifs with h
    · exact hd i h
    · decide
  have hbyte : ∀ a < 10, ∀ b < 10, ((a <<< 4 ||| b) % 256) >>> 4 = a ∧
      ((a <<< 4 ||| b) % 256) &&& 15 = b := by decide
  exact hbyte _ (hdigit cp) _ (hdigit (cp + 1))

theorem encodeLoop_spec (value : ℕ → ℕ) (ep x1 cp rp : ℕ) (res : ℕ → ℕ) :
    (encodeLoop value ep x1 cp rp res).1 = rp + (x1 + 1) / 2 ∧
      (∀ i < rp, (encodeLoop value ep x1 cp rp res).2 i = res i) ∧
      ∀ j < (x1 + 1) / 2, (encodeLoop value ep x1 cp rp res).2 (rp + j) =
        pairByte value ep (cp + 2 * j) := by
  induction x1 using Nat.twoStepInduction generalizing cp rp res with
  | zero => exact ⟨rfl, fun _ _ => rfl, fun j hj => absurd hj (by omega)⟩
  | one =>
    refine ⟨rfl, fun i hi => update_of_ne hi.ne _ _, fun j hj => ?_⟩
    obtain rfl : j = 0 := by omega
    exact update_self _ _ _
  | more x1 ih _ =>
    obtain ⟨hrp, hlow, hpair⟩ := ih (cp + 2) (rp + 1) (update res rp (pairByte value ep cp))
    rw [encodeLoop]
    refine ⟨by rw [hrp]; omega, fun i hi => ?_, fun j hj => ?_⟩
    · rw [hlow i (by omega), update_of_ne hi.ne]
    · cases j with
      | zero =>
        rw [hlow (rp + 0) (Nat.lt_succ_self rp)]
        exact update_self _ _ _
      | succ j =>
        rw [show rp + (j + 1) = rp + 1 + j by omega, hpair j (by omega),
          show cp + 2 + 2 * j = cp + 2 * (j + 1) by omega]

theorem decodeLoop_spec (buf : ℕ → ℕ) (count rp dp : ℕ) (value : ℕ → ℕ) :
    (∀ i < dp, decodeLoop buf count rp dp value i = value i) ∧
      ∀ j < count, decodeLoop buf count rp dp value (dp + 2 * j) = buf (rp + j) >>> 4 ∧
        decodeLoop buf count rp dp value (dp + 2 * j + 1) = buf (rp + j) &&& 15 := by
  induction count generalizing rp dp value with
  | zero => exact ⟨fun _ _ => rfl, fun j hj => absurd hj (Nat.not_lt_zero j)⟩
  | succ count ih =>
    obtain ⟨hlow, hpair⟩ := ih (rp + 1) (dp + 2)
      (update (update value dp (buf rp >>> 4)) (dp + 1) (buf rp &&& 15))
    rw [decodeLoop]
    refine ⟨fun i hi => ?_, fun j hj => ?_⟩
    · rw [hlow i (by omega), update_of_ne (by omega), update_of_ne (by omega)]
    · cases j with
      | zero =>
        refine ⟨?_, ?_⟩
        · rw [hlow _ (by omega), update_of_ne (by omega), Nat.mul_zero, Nat.add_zero,
            update_self]
          rfl
        · rw [hlow _ (by omega), update_self]
          rfl
      | succ j =>
        obtain ⟨hhigh, hlow'⟩ := hpair j (by omega)
        rw [show dp + 2 * (j + 1) = dp + 2 + 2 * j by omega,
          show rp + (j + 1) = rp + 1 + j by omega]
        exact ⟨hhigh, hlow'⟩

variable {buf : ℕ → ℕ} {n : Numeric}

/-- Digits that were written are read. -/
theorem decodeLoop_encoded {value value' : ℕ → ℕ} {ep cp rp count : ℕ} (hd : ∀ i < ep, value i < 10)
    (hlen : ep ≤ cp + 2 * count) (hbuf : ∀ j < count, buf (rp + j) = pairByte value ep (cp + 2 * j))
    {i : ℕ} (hi : cp ≤ i) (hi' : i < ep) : decodeLoop buf count rp cp value' i = value i := by
  obtain ⟨-, hpair⟩ := decodeLoop_spec buf count rp cp value'
  have hj : (i - cp) / 2 < count := by omega
  obtain ⟨h₁, h₂⟩ := hpair _ hj
  rw [hbuf _ hj] at h₁ h₂
  rcases Nat.mod_two_eq_zero_or_one (i - cp) with hpar | hpar
  · have hpos : cp + 2 * ((i - cp) / 2) = i := by omega
    rw [hpos, (pairByte_nibbles hd).1, digitBefore, if_pos hi'] at h₁
    exact h₁
  · have hpos : cp + 2 * ((i - cp) / 2) + 1 = i := by omega
    rw [hpos, (pairByte_nibbles hd).2, hpos, digitBefore, if_pos hi'] at h₂
    exact h₂

/-! ## Round trips -/

/-- What is in the buffer behind the tag. -/
structure Encoded (n : Numeric) (buf : ℕ → ℕ) : Prop where
  length : buf 1 = 2 + (n.len + 1) / 2 + (n.scale + 1) / 2
  flags : buf 2 = n.dvFlags
  whole : buf 3 = (n.len + 1) / 2
  lead : n.len % 2 = 1 → buf 4 = n.value 0 % 256
  pairs : ∀ j < n.len / 2 + (n.scale + 1) / 2, buf (4 + n.len % 2 + j) =
    pairByte n.value (n.len + n.scale) (n.len % 2 + 2 * j)

theorem numericToDv_spec (hn : n.len + n.scale ≤ 90) (res : ℕ → ℕ) :
    (numericToDv n res).1 = .success ∧
      (numericToDv n res).2.1 = 4 + (n.len + 1) / 2 + (n.scale + 1) / 2 ∧
      (numericToDv n res).2.2 0 = dvNumeric ∧ Encoded n (numericToDv n res).2.2 := by
  -- the two cases as one
  generalize hres : update (update (update res 0 dvNumeric) 2 n.dvFlags) 3
    ((n.len + 1) / 2 % 256) = res₃
  obtain ⟨res₄, hfour, hlow, hto⟩ : ∃ res₄ : ℕ → ℕ, (n.len % 2 = 1 → res₄ 4 = n.value 0 % 256) ∧
      (∀ i < 4, res₄ i = res₃ i) ∧ numericToDv n res =
        let r := encodeLoop n.value (n.len + n.scale) (n.len - n.len % 2 + n.scale) (n.len % 2)
          (4 + n.len % 2) res₄
        (if r.1 - 2 > 255 then .marshalling else .success, r.1,
          update r.2 1 ((r.1 - 2) % 256)) := by
    rcases Nat.mod_two_eq_zero_or_one n.len with hpar | hpar
    · refine ⟨res₃, by simp [hpar], fun _ _ => rfl, ?_⟩
      simp only [numericToDv, hres, hpar]
      rfl
    · refine ⟨update res₃ 4 (n.value 0 % 256), fun _ => update_self _ _ _,
        fun i hi => update_of_ne hi.ne _ _, ?_⟩
      simp only [numericToDv, hres, hpar, if_true]
  obtain ⟨hrp, hkeep, hpair⟩ := encodeLoop_spec n.value (n.len + n.scale)
    (n.len - n.len % 2 + n.scale)
    (n.len % 2) (4 + n.len % 2) res₄
  rw [hto]
  dsimp only
  have hend : 4 + n.len % 2 + (n.len - n.len % 2 + n.scale + 1) / 2 =
      4 + (n.len + 1) / 2 + (n.scale + 1) / 2 := by omega
  rw [hrp, hend]
  have hhead (i : ℕ) (hi : i < 4) (hne : i ≠ 1) : update
      (encodeLoop n.value (n.len + n.scale) (n.len - n.len % 2 + n.scale) (n.len % 2)
        (4 + n.len % 2) res₄).2 1 ((4 + (n.len + 1) / 2 + (n.scale + 1) / 2 - 2) % 256) i =
          res₃ i := by
    rw [update_of_ne hne, hkeep i (by omega), hlow i hi]
  refine ⟨if_neg (by omega), rfl, ?_, ?_, ?_, ?_, fun hpar => ?_, fun j hj => ?_⟩
  · rw [hhead 0 (by decide) (by decide), ← hres]
    rfl
  · rw [update_self]
    omega
  · rw [hhead 2 (by decide) (by decide), ← hres]
    rfl
  · rw [hhead 3 (by decide) (by decide), ← hres, update_self]
    omega
  · rw [update_of_ne (by decide), hkeep 4 (by omega), hfour hpar]
  · rw [update_of_ne (by omega), hpair j (by omega)]

theorem dvFlags_bits (n : Numeric) :
    (n.dvFlags &&& 1 ≠ 0 ↔ n.neg = true) ∧ (n.dvFlags &&& 4 ≠ 0 ↔ n.len % 2 = 1) ∧
      (n.dvFlags &&& 2 ≠ 0 ↔ n.scale % 2 = 1) ∧ invalidOf n.dvFlags = some n.invalid := by
  rw [dvFlags]
  rcases Nat.mod_two_eq_zero_or_one n.len with h₁ | h₁ <;>
    rcases Nat.mod_two_eq_zero_or_one n.scale with h₂ | h₂ <;>
    rw [h₁, h₂] <;> cases n.neg <;> cases n.invalid <;> decide

theorem Encoded.readHeader (h : Encoded n buf) (n₀ : Numeric) (hn : n.len + n.scale ≤ 90) :
    readHeader n₀ buf = some
      { n₀ with
        len := (n.len + 1) / 2 * 2
        scale := (n.scale + 1) / 2 * 2
        neg := n.neg
        invalid := n.invalid } := by
  obtain ⟨hneg, -, -, hinvalid⟩ := dvFlags_bits n
  rw [Numeric.readHeader, h.length, h.whole, h.flags, hinvalid, if_neg (by omega), Option.map_some]
  have hscale : 2 + (n.len + 1) / 2 + (n.scale + 1) / 2 - (n.len + 1) / 2 - 2 =
    (n.scale + 1) / 2 := by
    omega
  rw [hscale]
  simp only [hneg, Bool.decide_eq_true]

theorem Encoded.readPairs {n n₁ : Numeric} {buf : ℕ → ℕ} (h : Encoded n buf)
    (hd : n.DigitsBelow 10) (hlen : n₁.len = (n.len + 1) / 2 * 2)
    (hscale : n₁.scale = (n.scale + 1) / 2 * 2) (hneg : n₁.neg = n.neg)
    (hinvalid : n₁.invalid = n.invalid) : ∃ m, readPairs n₁ buf = some m ∧ Same m n := by
  obtain ⟨-, hlead, htrail, -⟩ := dvFlags_bits n
  rw [Numeric.readPairs, h.flags]
  simp only [hlead, htrail]
  rw [if_neg (by omega)]
  refine ⟨_, rfl, ?_, ?_, hinvalid, hneg, fun i hi => ?_⟩
  · dsimp only
    split_ifs <;> omega
  · dsimp only
    split_ifs <;> omega
  · have hcount : 2 + buf 1 - (4 + n.len % 2) = n.len / 2 + (n.scale + 1) / 2 := by
      rw [h.length]
      omega
    have hpairs := h.pairs
    dsimp only
    rcases Nat.mod_two_eq_zero_or_one n.len with hpar | hpar
    · rw [hpar] at hpairs hcount
      rw [if_neg (by omega), hcount]
      exact decodeLoop_encoded hd (by omega) hpairs (Nat.zero_le i) hi
    · rw [hpar] at hpairs hcount
      rw [if_pos hpar, hcount]
      rcases Nat.eq_zero_or_pos i with rfl | hpos
      · have hdigit : ∀ a < 10, a % 256 &&& 15 = a := by decide
        rw [(decodeLoop_spec _ _ _ _ _).1 0 Nat.one_pos, update_self, h.lead hpar]
        exact hdigit _ (hd 0 hi)
      · exact decodeLoop_encoded hd (by omega) hpairs hpos hi

theorem Encoded.read (h : Encoded n buf) (hn : n.len + n.scale ≤ 90) (hd : n.DigitsBelow 10)
    (n₀ : Numeric) :
    ∃ n₁ m, Numeric.readHeader n₀ buf = some n₁ ∧ Numeric.readPairs n₁ buf = some m ∧ Same m n := by
  obtain ⟨m, hm, hsame⟩ := @Encoded.readPairs n
    { n₀ with
      len := (n.len + 1) / 2 * 2
      scale := (n.scale + 1) / 2 * 2
      neg := n.neg
      invalid := n.invalid } _ h hd rfl rfl rfl rfl
  exact ⟨_, m, h.readHeader n₀ hn, hm, hsame⟩

/-- The tag is not looked at. -/
theorem Encoded.congr {buf' : ℕ → ℕ} (h : Encoded n buf) (heq : ∀ i, 0 < i → buf' i = buf i) :
    Encoded n buf' where
  length := by rw [heq 1 (by decide), h.length]
  flags := by rw [heq 2 (by decide), h.flags]
  whole := by rw [heq 3 (by decide), h.whole]
  lead hpar := by rw [heq 4 (by decide), h.lead hpar]
  pairs j hj := by rw [heq _ (by omega), h.pairs j hj]

/-- A number that is marshalled is read back, with or without the tag, into an object of the
package. -/
theorem marshal_roundtrip {n : Numeric} (hn : n.len + n.scale ≤ 90) (hd : n.DigitsBelow 10)
    (n₀ : Numeric) (res : ℕ → ℕ) {nBytes : ℕ} (hbytes : numericBytes ≤ nBytes) :
    ∃ count buf, numericToDv n res = (.success, count, buf) ∧ numericDvLen n res = count ∧
      (∃ m, numericFromDv n₀ buf nBytes = some (.success, m) ∧ Same m n) ∧
      ∃ m, numericFromBuf n₀ (fun i => buf (i + 1)) = some (.success, m) ∧ Same m n := by
  obtain ⟨hst, hcount, htag, henc⟩ := numericToDv_spec hn res
  rw [numericDvLen]
  generalize numericToDv n res = r at hst hcount htag henc ⊢
  obtain ⟨st, count, buf⟩ := r
  dsimp only at hst hcount htag henc ⊢
  subst hst
  refine ⟨count, buf, rfl, ?_, ?_, ?_⟩
  · rw [henc.length, hcount]
    omega
  · obtain ⟨n₁, m, hhead, hpairs, hsame⟩ := henc.read hn hd n₀
    have hroom : ¬ (nBytes : ℤ) - 8 + 4 ≤ ((buf 1 : ℤ) - 2) * 2 := by
      rw [henc.length]
      simp only [numericBytes, numericMaxDataBytes_eq] at hbytes
      omega
    refine ⟨m, ?_, hsame⟩
    rw [numericFromDv, if_neg (not_not.2 htag), hhead, Option.bind_some, if_neg hroom, hpairs]
    rfl
  · have heq : ∀ i, 0 < i → buf (i - 1 + 1) = buf i := fun i hi => by rw [Nat.sub_add_cancel hi]
    obtain ⟨n₁, m, hhead, hpairs, hsame⟩ := (henc.congr heq).read hn hd n₀
    refine ⟨m, ?_, hsame⟩
    rw [numericFromBuf, hhead, Option.bind_some, hpairs]
    rfl

/-- `-123.45`, an odd number of integer digits and an even one of fraction digits. -/
theorem marshal_roundtrip_digits :
    let n := ofDigits true [1, 2, 3] [4, 5]
    ∃ count buf, numericToDv n (fun _ => 7) = (.success, count, buf) ∧
      numericDvLen n (fun _ => 7) = count ∧
      (∃ m, numericFromDv blank buf numericBytes = some (.success, m) ∧ Same m n) ∧
      ∃ m, numericFromBuf blank (fun i => buf (i + 1)) = some (.success, m) ∧ Same m n := by
  intro n
  have hn : n.Canonical :=
    ofDigits_canonical (by decide) (by decide) (by decide) (by decide) (by decide) (by decide)
  exact marshal_roundtrip (by decide) hn.digits blank _ le_rfl

end Virtuoso.Numeric
