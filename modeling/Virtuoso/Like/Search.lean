import Virtuoso.Like.Letter

/-!
# Substring search without case and accent

`nc_strstr` goes through the text and compares the word at each place.  It finds the first place
where the word matches, unless it comes to compare an accented letter of the text with a character
that is none, which reads outside the table of plain letters (`ncStrstr_findsFirst_iff`).

A pointer into a string is what is left of it with the terminating zero; reading where nothing is
left is reading past the end.
-/

namespace Virtuoso.Like

/-- How the inner loop of `nc_strstr` ends. -/
inductive InnerEnd
  | whole
  | over
  | differs

/-- The character `d` of the text as it is compared with `e`, both in lowercase. -/
def foldTo (d e : UInt8) : Option UInt8 := if Clashes d e then getPlainLetter d else some d

/-- The inner loop of `nc_strstr`, from the characters after the first ones on. -/
def innerLoop : List UInt8 → List UInt8 → Option InnerEnd
  | _, [] => none
  | s1, e :: s2 =>
    if e = 0 then some .whole
    else
      match s1 with
      | [] => none
      | d :: s1 =>
        if d = 0 then some .over
        else do
          let d ← foldTo (lower d) (lower e)
          if d ≠ lower e then some .differs else innerLoop s1 s2

/-- The outer loop, and the one of `strchr`: `hit` tells the places where the inner loop begins.
The offset of the result, if there is one. -/
def outerLoop (hit : UInt8 → Option Bool) (s2 : List UInt8) : List UInt8 → Option (Option ℕ)
  | [] => none
  | d :: string1 =>
    if d = 0 then some none
    else do
      let next := (outerLoop hit s2 string1).map (Option.map (· + 1))
      if ← hit d then
        match ← innerLoop string1 s2 with
        | .whole => some (some 0)
        | .over => some none
        | .differs => next
      else next

/-- `nc_strstr`. -/
def ncStrstr (string1 : List UInt8) : List UInt8 → Option (Option ℕ)
  | [] => none
  | first :: s2 =>
    if first = 0 then some (some 0)
    else if IsALetter first then
      let first := isoToLower first
      outerLoop (fun d => (foldTo (lower d) first).map fun d => decide (d = first)) s2 string1
    else outerLoop (fun d => some (decide (d = first))) s2 string1

/-! ## What it should find -/

/-- Every character of the word matches the corresponding one of the text. -/
def Begins : List UInt8 → List UInt8 → Prop
  | _, [] => True
  | [], _ :: _ => False
  | d :: s1, e :: s2 => Alike e d ∧ Begins s1 s2

/-- The search returns the first place where the word matches, if there is one. -/
def FindsFirst (s1 s2 : List UInt8) : Option (Option ℕ) → Prop
  | none => False
  | some none => ∀ i, ¬ Begins (s1.drop i) s2
  | some (some i) => Begins (s1.drop i) s2 ∧ ∀ k < i, ¬ Begins (s1.drop k) s2

/-- The text and the word differ before one of them ends. -/
def Differs : List UInt8 → List UInt8 → Prop
  | d :: s1, e :: s2 => lower d ≠ lower e ∨ Differs s1 s2
  | _, _ => False

/-- The comparison comes to an accented letter that stands against another character. -/
def Meets : List UInt8 → List UInt8 → Prop
  | d :: s1, e :: s2 => Clashes d e ∨ lower d = lower e ∧ Meets s1 s2
  | _, _ => False

/-- The search does so at one of the places it comes to.  The first character of the word is not
looked up if it is no letter, and no place is tried after one where the text ends first. -/
def LooksUp : List UInt8 → List UInt8 → Prop
  | d :: s1, e :: s2 => IsALetter e ∧ Clashes d e ∨ lower d = lower e ∧ Meets s1 s2 ∨
    Differs (d :: s1) (e :: s2) ∧ LooksUp s1 (e :: s2)
  | _, _ => False

theorem Begins.length_le {s1 s2 : List UInt8} (h : Begins s1 s2) : s2.length ≤ s1.length := by
  induction s2 generalizing s1 with
  | nil => exact Nat.zero_le _
  | cons e s2 ih =>
    cases s1 with
    | nil => exact h.elim
    | cons d s1 => exact Nat.succ_le_succ (ih h.2)

theorem foldTo_lower (d e : UInt8) :
    foldTo (lower d) (lower e) = if Clashes d e then none else some (lower d) := by
  have hc : Clashes (lower d) (lower e) ↔ Clashes d e := by simp [Clashes]
  rw [foldTo, getPlainLetter_eq_none]
  exact if_congr hc rfl rfl

/-- What the inner loop finds out. -/
theorem innerLoop_spec {s1 s2 : List UInt8} (h₁ : 0 ∉ s1) (h₂ : 0 ∉ s2) :
    match innerLoop (s1 ++ [0]) (s2 ++ [0]) with
    | none => Meets s1 s2
    | some .whole => ¬ Meets s1 s2 ∧ ¬ Differs s1 s2 ∧ Begins s1 s2
    | some .over => ¬ Meets s1 s2 ∧ ¬ Differs s1 s2 ∧ s1.length < s2.length
    | some .differs => ¬ Meets s1 s2 ∧ Differs s1 s2 ∧ ¬ Begins s1 s2 := by
  induction s2 generalizing s1 with
  | nil => cases s1 <;> simp [innerLoop, Meets, Differs, Begins]
  | cons e s2 ih =>
    rw [List.mem_cons, not_or] at h₂
    rw [List.cons_append, innerLoop.eq_def]
    simp only [if_neg (Ne.symm h₂.1)]
    cases s1 with
    | nil => simp [Meets, Differs]
    | cons d s1 =>
      rw [List.mem_cons, not_or] at h₁
      have hrest := ih h₁.2 h₂.2
      simp only [List.cons_append, if_neg (Ne.symm h₁.1), foldTo_lower, Meets, Differs, Begins]
      by_cases hc : Clashes d e
      · simp [hc]
      · simp only [hc, if_false, Option.bind_eq_bind, Option.bind_some, false_or,
          alike_iff fun h => hc h.2]
        by_cases hd : lower d = lower e
        · simpa only [hd, ne_eq, not_true_eq_false, if_false, true_and, false_or,
            List.length_cons, Nat.add_lt_add_iff_right] using hrest
        · simp [hd]

/-- A place where the word does not match is passed over. -/
theorem findsFirst_cons_iff {d : UInt8} {s1 s2 : List UInt8} {r : Option (Option ℕ)}
    (h : ¬ Begins (d :: s1) s2) :
    FindsFirst (d :: s1) s2 (r.map (Option.map (· + 1))) ↔ FindsFirst s1 s2 r := by
  rcases r with _ | _ | i
  · exact Iff.rfl
  · refine ⟨fun hr i => hr (i + 1), fun hr i => ?_⟩
    cases i with
    | zero => exact h
    | succ i => exact hr i
  · refine and_congr_right fun _ => ⟨fun hr k hk => hr (k + 1) (Nat.succ_lt_succ hk),
      fun hr k hk => ?_⟩
    cases k with
    | zero => exact h
    | succ k => exact hr k (Nat.lt_of_succ_lt_succ hk)

/-- The outer loop with either test for the first character. -/
theorem outerLoop_spec {hit : UInt8 → Option Bool} {e : UInt8} {s1 s2 : List UInt8} (h₁ : 0 ∉ s1)
    (h₂ : 0 ∉ e :: s2) (hhit : ∀ d, hit d = if IsALetter e ∧ Clashes d e then none
      else some (decide (lower d = lower e))) :
    FindsFirst s1 (e :: s2) (outerLoop hit (s2 ++ [0]) (s1 ++ [0])) ↔ ¬ LooksUp s1 (e :: s2) := by
  induction s1 with
  | nil => simp [outerLoop, FindsFirst, LooksUp, Begins]
  | cons d s1 ih =>
    rw [List.mem_cons, not_or] at h₁ h₂
    have hinner := innerLoop_spec h₁.2 h₂.2
    have hrest := ih h₁.2
    rw [List.cons_append, outerLoop, if_neg (Ne.symm h₁.1), hhit, LooksUp]
    by_cases hc : IsALetter e ∧ Clashes d e
    · simp [hc, FindsFirst]
    have hb : Begins (d :: s1) (e :: s2) ↔ lower d = lower e ∧ Begins s1 s2 :=
      and_congr_left fun _ => alike_iff hc
    by_cases hd : lower d = lower e
    · simp only [hc, hd, Differs, if_false, decide_true, Option.bind_eq_bind, Option.bind_some,
        if_true, false_or, true_and, ne_eq, not_true_eq_false]
      rcases hend : innerLoop (s1 ++ [0]) (s2 ++ [0]) with _ | _ | _ | _ <;> rw [hend] at hinner
      · exact iff_of_false id (not_not.2 (.inl hinner))
      · obtain ⟨hm, hn, hword⟩ := hinner
        simp [FindsFirst, hm, hn, hb, hd, hword]
      · obtain ⟨hm, hn, hlen⟩ := hinner
        refine iff_of_true (fun i hi => ?_) (by simp [hm, hn])
        have := hi.length_le
        simp only [List.length_cons, List.length_drop] at this
        omega
      · obtain ⟨hm, hn, hword⟩ := hinner
        simp [hm, hn, findsFirst_cons_iff (mt hb.1 fun h => hword h.2), hrest]
    · simp [hc, hd, Differs, findsFirst_cons_iff (mt hb.1 fun h => hd h.1), hrest]

/-- The search finds the first place where the word matches if and only if it does not look up
an accented letter. -/
theorem ncStrstr_findsFirst_iff (s1 s2 : List UInt8) (h₁ : 0 ∉ s1) (h₂ : 0 ∉ s2) (hne : s2 ≠ []) :
    FindsFirst s1 s2 (ncStrstr (s1 ++ [0]) (s2 ++ [0])) ↔ ¬ LooksUp s1 s2 := by
  cases s2 with
  | nil => exact absurd rfl hne
  | cons e s2 =>
    have he : e ≠ 0 := fun h => h₂ (by simp [h])
    rw [List.cons_append, ncStrstr, if_neg he]
    split_ifs with hl
    · refine outerLoop_spec h₁ h₂ fun d => ?_
      rw [isoToLower_of_letter e hl, foldTo_lower]
      by_cases hc : Clashes d e <;> simp [hl, hc]
    · refine outerLoop_spec h₁ h₂ fun d => ?_
      have hd : d = e ↔ lower d = lower e := by
        refine ⟨congrArg lower, fun h => ?_⟩
        have hd : ¬ IsALetter d :=
          fun hd => hl ((isALetter_lower e).1 (h ▸ (isALetter_lower d).2 hd))
        rwa [lower_of_not_letter e hl, lower_of_not_letter d hd] at h
      simp [hl, hd]

/-- `bc` in `xAbC`. -/
theorem ncStrstr_findsFirst_plain :
    FindsFirst [0x78, 0x41, 0x62, 0x43] [0x62, 0x63]
      (ncStrstr [0x78, 0x41, 0x62, 0x43, 0] [0x62, 0x63, 0]) :=
  (ncStrstr_findsFirst_iff [0x78, 0x41, 0x62, 0x43] [0x62, 0x63] (by decide) (by decide)
    (by decide)).2 (by simp only [LooksUp, Meets, Differs]; decide)

/-- The text is one accented letter, the word its plain form. -/
theorem ncStrstr_reads_outside :
    ncStrstr [0xE9, 0] [0x65, 0] = none ∧ ¬ FindsFirst [0xE9] [0x65]
      (ncStrstr [0xE9, 0] [0x65, 0]) :=
  ⟨by decide, by rw [show ncStrstr [0xE9, 0] [0x65, 0] = none by decide]; exact id⟩

end Virtuoso.Like
