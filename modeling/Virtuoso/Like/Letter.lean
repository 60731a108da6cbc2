import Mathlib.Data.FinEnum

/-!
# Letters without case and accent

The macros of `string_tmpl.c` for 8-bit characters.  The plain form of an accented letter is
looked up in a table of 32 entries, at the distance of the letter from `'\340'`.  Where `char` is
signed that constant is -32, and all these distances lie beyond the table
(`getPlainLetter_eq_none`).
-/

namespace Virtuoso.Like

/-- `is_a_letter`. -/
def IsALetter (c : UInt8) : Prop := c &&& 0x40 ≠ 0

/-- `is_a_iso_letter`. -/
def IsAIsoLetter (c : UInt8) : Prop := c &&& 0xC0 = 0xC0

/-- `is_a_uc_letter`. -/
def IsAUcLetter (c : UInt8) : Prop := c &&& 0x60 = 0x40

/-- `iso_to_lower`. -/
def isoToLower (c : UInt8) : UInt8 := c ||| 0x20

instance : DecidablePred IsALetter := fun _ => inferInstanceAs (Decidable (_ ≠ _))

instance : DecidablePred IsAIsoLetter := fun _ => inferInstanceAs (Decidable (_ = _))

instance : DecidablePred IsAUcLetter := fun _ => inferInstanceAs (Decidable (_ = _))

/-- A letter in lowercase, another character as it is. -/
def lower (c : UInt8) : UInt8 := if IsAUcLetter c then isoToLower c else c

/-- `iso_diacritic_to_plain`. -/
def isoDiacriticToPlain : List UInt8 :=
  "aaaaaaaceeeeiiiidnoooooxouuuuyds".toList.map Char.toUInt8

/-- `'\340'` as a signed `char`. -/
def charE0 : ℤ := -32

/-- `get_plain_letter`; `none` is a read outside the table. -/
def getPlainLetter (c : UInt8) : Option UInt8 :=
  let i : ℤ := c.toNat - charE0
  if i < 0 then none else isoDiacriticToPlain[i.toNat]?

/-- What the table is to give for an accented letter in lowercase: it begins with 224. -/
def plainLetter (c : UInt8) : UInt8 := isoDiacriticToPlain.getD (c.toNat - 224) 0

/-- The characters are the same up to case, or `d` is an accented form of the plain letter `e`. -/
def Alike (e d : UInt8) : Prop :=
  lower d = lower e ∨ IsAIsoLetter d ∧ ¬ IsAIsoLetter e ∧ plainLetter (lower d) = lower e

instance (e d : UInt8) : Decidable (Alike e d) := inferInstanceAs (Decidable (_ ∨ _))

/-- An accented letter stands against a character that is none. -/
def Clashes (d e : UInt8) : Prop := IsAIsoLetter d ∧ ¬ IsAIsoLetter e

instance (d e : UInt8) : Decidable (Clashes d e) := inferInstanceAs (Decidable (_ ∧ _))

theorem getPlainLetter_eq_none (c : UInt8) : getPlainLetter c = none := by
  have hi : ((c.toNat : ℤ) - charE0).toNat = c.toNat + 32 := by
    rw [charE0]
    omega
  rw [getPlainLetter]
  split_ifs
  · rfl
  · rw [hi]
    exact List.getElem?_eq_none (Nat.le_add_left _ _)

@[simp] theorem isAIsoLetter_lower : ∀ c, IsAIsoLetter (lower c) ↔ IsAIsoLetter c := by
  decide +kernel

theorem isoToLower_of_letter : ∀ c, IsALetter c → isoToLower c = lower c := by decide +kernel

theorem isALetter_lower : ∀ c, IsALetter (lower c) ↔ IsALetter c := by decide +kernel

theorem lower_of_not_letter : ∀ c, ¬ IsALetter c → lower c = c := by decide +kernel

theorem isALetter_plainLetter : ∀ c, IsAIsoLetter c → IsALetter (plainLetter (lower c)) := by
  decide +kernel

/-- The table decides for accented letters against plain ones only. -/
theorem alike_iff {d e : UInt8} (h : ¬ (IsALetter e ∧ Clashes d e)) :
    Alike e d ↔ lower d = lower e := by
  refine or_iff_left ?_
  rintro ⟨hd, he, heq⟩
  exact h ⟨(isALetter_lower e).1 (heq ▸ isALetter_plainLetter d hd), hd, he⟩

end Virtuoso.Like
