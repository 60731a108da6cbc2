import Mathlib.Order.WithBot
import Mathlib.Tactic.Set
import Virtuoso.Search.Compare

/-!
# Searching one page

A page is its list of entries in the order of the page map.  The bisections of
`itc_page_split_search` and `itc_page_insert_search` run over positions, with
the comparison of the entry at `at_or_above` left open until it is needed.

What a bisection finds is a `Cut`: the last position whose entry compares below
a bound, or position 0 when there is none.  The bound is a match in an
ascending search, and greater in a descending search and in an insert.
-/

namespace Virtuoso.Search

/-- An index entry.  The key of a row version is one of `KV_LEFT_DUMMY`,
`KV_LEAF_PTR` and the version of a row. -/
inductive Entry (κ : Type) where
  | leftDummy (leaf : ℕ)
  | leafPtr (key : κ) (leaf : ℕ)
  | row (key : κ)
deriving DecidableEq, Repr

variable {κ : Type}

namespace Entry

def leaf : Entry κ → ℕ
  | .leftDummy leaf => leaf
  | .leafPtr _ leaf => leaf
  | .row _ => 0

/-- The `key_cmp_t` of a search: a left dummy is below everything. -/
def compare (keyCompare : κ → Dvc) : Entry κ → Dvc
  | .leftDummy _ => .less
  | .leafPtr key _ => keyCompare key
  | .row key => keyCompare key

/-- The key of an entry; that of a left dummy is below all others. -/
def key : Entry κ → WithBot κ
  | .leftDummy _ => ⊥
  | .leafPtr key _ => key
  | .row key => key

end Entry

/-! ## The bisections -/

/-- The loop of `itc_page_split_search` over positions: the final
`at_or_above` and its result.  `none` is a lack of fuel. -/
def splitBisect (keyCmp : ℕ → Dvc) (descOrder : Bool) :
    ℕ → ℕ → ℕ → Option Dvc → Option (ℕ × Dvc)
  | 0, _, _, _ => none
  | fuel + 1, atOrAbove, below, atOrAboveRes =>
    if below - atOrAbove ≤ 1 then some (atOrAbove, atOrAboveRes.getD (keyCmp atOrAbove))
    else
      let guess := (atOrAbove + below) / 2
      match keyCmp guess with
      | .less => splitBisect keyCmp descOrder fuel guess below (some .less)
      | .matched =>
        if descOrder then splitBisect keyCmp descOrder fuel guess below (some .matched)
        else splitBisect keyCmp descOrder fuel atOrAbove guess atOrAboveRes
      | .greater => splitBisect keyCmp descOrder fuel atOrAbove guess atOrAboveRes

/-- How the loop of `itc_page_insert_search` ends: on a guess that matches, or
with an interval of one entry. -/
inductive InsertEnd where
  | hit (guess : ℕ)
  | interval (atOrAbove : ℕ) (res : Dvc)
deriving DecidableEq, Repr

def insertBisect (keyCmp : ℕ → Dvc) : ℕ → ℕ → ℕ → Option Dvc → Option InsertEnd
  | 0, _, _, _ => none
  | fuel + 1, atOrAbove, below, atOrAboveRes =>
    if below - atOrAbove ≤ 1 then
      some (.interval atOrAbove (atOrAboveRes.getD (keyCmp atOrAbove)))
    else
      let guess := (atOrAbove + below) / 2
      match keyCmp guess with
      | .less => insertBisect keyCmp fuel guess below (some .less)
      | .matched => some (.hit guess)
      | .greater => insertBisect keyCmp fuel atOrAbove guess atOrAboveRes

/-- What a search does with one page: it ends there, with `itc_map_pos` (`none`
is `ITC_AT_END`) and the result, or it goes on to another page. -/
inductive PageEnd where
  | land (mapPos : Option ℕ) (res : Dvc)
  | dive (leaf : ℕ)
deriving DecidableEq, Repr

/-- The switch on `at_or_above_res` both searches end a page with. -/
def endInterval (entry : Entry κ) (atOrAbove : ℕ) : Dvc → PageEnd
  | .greater => .land (some atOrAbove) .greater
  | res => if entry.leaf ≠ 0 then .dive entry.leaf else .land (some atOrAbove) res

variable {entry : Entry κ}

theorem endInterval_of_leaf (h : entry.leaf ≠ 0) {res : Dvc} (hres : res ≠ .greater) (pos : ℕ) :
    endInterval entry pos res = .dive entry.leaf := by
  cases res <;> simp_all [endInterval]

theorem endInterval_of_row (h : entry.leaf = 0) (res : Dvc) (pos : ℕ) :
    endInterval entry pos res = .land (some pos) res := by
  cases res <;> simp [endInterval, h]

/-- What `itc_page_insert_search` does with a guess that matches. -/
def endHit (entry : Entry κ) (guess : ℕ) : PageEnd :=
  match entry with
  | .leafPtr _ leaf => .dive leaf
  | _ => .land (some guess) .matched

/-- `ksp_key_cmp` at a position of a page. -/
def compareAt (keyCompare : κ → Dvc) (page : List (Entry κ)) (pos : ℕ) : Dvc :=
  (page[pos]?.map (Entry.compare keyCompare)).getD .greater

def splitSearchPage (keyCompare : κ → Dvc) (descOrder : Bool) (page : List (Entry κ)) :
    Option PageEnd :=
  if page.length = 0 then some (.land none .greater)
  else do
    let (pos, res) ← splitBisect (compareAt keyCompare page) descOrder page.length 0
      page.length none
    let entry ← page[pos]?
    return endInterval entry pos res

def insertSearchPage (keyCompare : κ → Dvc) (page : List (Entry κ)) : Option PageEnd :=
  if page.length = 0 then some (.land none .greater)
  else do
    match ← insertBisect (compareAt keyCompare page) page.length 0 page.length none with
    | .interval pos res =>
      let entry ← page[pos]?
      return endInterval entry pos res
    | .hit guess =>
      let entry ← page[guess]?
      return endHit entry guess

/-! ## What a bisection finds -/

/-- `pos` is the last of `n` positions that compares below `bound`, or 0. -/
structure Cut (bound : Dvc) (keyCmp : ℕ → Dvc) (n pos : ℕ) : Prop where
  lt : pos < n
  below : pos = 0 ∨ keyCmp pos < bound
  above : ∀ i, pos < i → i < n → bound ≤ keyCmp i

section Bisect

variable {keyCmp : ℕ → Dvc} {n : ℕ}

def splitBound (descOrder : Bool) : Dvc := if descOrder then .greater else .matched

/-- The split search of a page ends on the cut of the page, with the comparison
of the entry there. -/
theorem splitBisect_spec (descOrder : Bool) (hmono : ∀ i j, i ≤ j → j < n → keyCmp i ≤ keyCmp j)
    {fuel lo below : ℕ} {res : Option Dvc} (hfuel : below - lo ≤ fuel) (hlt : lo < below)
    (hn : below ≤ n) (hlo : lo = 0 ∨ keyCmp lo < splitBound descOrder)
    (hbelow : ∀ i, below ≤ i → i < n → splitBound descOrder ≤ keyCmp i)
    (hres : ∀ r, res = some r → r = keyCmp lo) :
    ∃ pos, splitBisect keyCmp descOrder fuel lo below res = some (pos, keyCmp pos) ∧
      Cut (splitBound descOrder) keyCmp n pos := by
  induction fuel generalizing lo below res with
  | zero => omega
  | succ fuel ih =>
    rw [splitBisect]
    by_cases h : below - lo ≤ 1
    · rw [if_pos h]
      refine ⟨lo, ?_, by omega, hlo, fun i hi hin => hbelow i (by omega) hin⟩
      cases res with
      | none => rfl
      | some r => simp [hres r rfl]
    · rw [if_neg h]
      set guess := (lo + below) / 2 with hguess
      have hdown : splitBound descOrder ≤ keyCmp guess →
          ∃ pos, splitBisect keyCmp descOrder fuel lo guess res = some (pos, keyCmp pos) ∧
            Cut (splitBound descOrder) keyCmp n pos := fun hg =>
        ih (by omega) (by omega) (by omega) hlo
          (fun i hi hin => hg.trans (hmono guess i hi hin)) hres
      have hup : keyCmp guess < splitBound descOrder →
          ∃ pos, splitBisect keyCmp descOrder fuel guess below (some (keyCmp guess)) =
            some (pos, keyCmp pos) ∧ Cut (splitBound descOrder) keyCmp n pos := fun hg =>
        ih (by omega) (by omega) hn (.inr hg) hbelow (fun r hr => (Option.some_inj.1 hr).symm)
      cases hc : keyCmp guess with
      | less =>
        simp only [hc] at hup ⊢
        exact hup (by cases descOrder <;> decide)
      | matched =>
        cases descOrder with
        | false =>
          simp only [hc] at hdown ⊢
          exact hdown (by decide)
        | true =>
          simp only [hc] at hup ⊢
          exact hup (by decide)
      | greater =>
        simp only [hc] at hdown ⊢
        exact hdown (by cases descOrder <;> decide)

/-- The insert search of a page ends on the cut of the page.  A match is at the
cut, since the entries after it are greater. -/
theorem insertBisect_spec (hmono : ∀ i j, i ≤ j → j < n → keyCmp i ≤ keyCmp j)
    (hstrict : ∀ i j, i < j → j < n → keyCmp i = .matched → keyCmp j = .greater)
    {fuel lo below : ℕ} {res : Option Dvc} (hfuel : below - lo ≤ fuel) (hlt : lo < below)
    (hn : below ≤ n) (hlo : lo = 0 ∨ keyCmp lo < .greater)
    (hbelow : ∀ i, below ≤ i → i < n → .greater ≤ keyCmp i)
    (hres : ∀ r, res = some r → r = keyCmp lo) :
    ∃ pos, (insertBisect keyCmp fuel lo below res = some (.interval pos (keyCmp pos)) ∨
        keyCmp pos = .matched ∧ insertBisect keyCmp fuel lo below res = some (.hit pos)) ∧
      Cut .greater keyCmp n pos := by
  induction fuel generalizing lo below res with
  | zero => omega
  | succ fuel ih =>
    rw [insertBisect]
    by_cases h : below - lo ≤ 1
    · rw [if_pos h]
      refine ⟨lo, .inl ?_, by omega, hlo, fun i hi hin => hbelow i (by omega) hin⟩
      cases res with
      | none => rfl
      | some r => simp [hres r rfl]
    · rw [if_neg h]
      set guess := (lo + below) / 2 with hguess
      cases hc : keyCmp guess with
      | less =>
        simp only [hc]
        refine ih (by omega) (by omega) hn (.inr ?_) hbelow ?_
        · rw [hc]; decide
        · exact fun r hr => (Option.some_inj.1 hr).symm.trans hc.symm
      | matched =>
        simp only [hc]
        refine ⟨guess, .inr ⟨hc, rfl⟩, by omega, .inr ?_, fun i hi hin => ?_⟩
        · rw [hc]; decide
        · exact (hstrict guess i hi hin hc).ge
      | greater =>
        simp only [hc]
        exact ih (by omega) (by omega) (by omega) hlo
          (fun i hi hin => hc.ge.trans (hmono guess i hi hin)) hres

end Bisect

/-! ## What the search of a page finds -/

section Page

variable [LinearOrder κ] {keyCompare : κ → Dvc} {page : List (Entry κ)}

omit [LinearOrder κ] in
theorem compareAt_of_getElem? {pos : ℕ} (h : page[pos]? = some entry) :
    compareAt keyCompare page pos = entry.compare keyCompare := by
  simp [compareAt, h]

/-- A monotone search compares entries in their order. -/
theorem Entry.compare_mono (hmono : Monotone keyCompare) {e e' : Entry κ} (h : e.key ≤ e'.key) :
    e.compare keyCompare ≤ e'.compare keyCompare := by
  cases e <;> cases e' <;> simp_all [Entry.key, Entry.compare, hmono _]

def Ascending (page : List (Entry κ)) : Prop := page.Pairwise fun e e' => e.key < e'.key

theorem compareAt_mono (hmono : Monotone keyCompare) (hasc : Ascending page) (i j : ℕ) (hij : i ≤ j)
    (hj : j < page.length) : compareAt keyCompare page i ≤ compareAt keyCompare page j := by
  rcases hij.eq_or_lt with rfl | hij
  · exact le_rfl
  · rw [compareAt_of_getElem? (List.getElem?_eq_getElem (hij.trans hj)),
      compareAt_of_getElem? (List.getElem?_eq_getElem hj)]
    exact Entry.compare_mono hmono (List.pairwise_iff_getElem.1 hasc i j _ hj hij).le

/-- A search of a page ends it at the cut of the page. -/
def EndsAtCut (keyCompare : κ → Dvc) (bound : Dvc) (page : List (Entry κ)) (out : Option PageEnd) :
    Prop :=
  ∃ pos entry, page[pos]? = some entry ∧ Cut bound (compareAt keyCompare page) page.length pos ∧
    out = some (endInterval entry pos (entry.compare keyCompare))

theorem splitSearchPage_spec (descOrder : Bool) (hmono : Monotone keyCompare)
    (hasc : Ascending page) (hne : page ≠ []) :
    EndsAtCut keyCompare (splitBound descOrder) page
      (splitSearchPage keyCompare descOrder page) := by
  have hpos : 0 < page.length := List.length_pos_iff.2 hne
  obtain ⟨pos, hs, hcut⟩ := splitBisect_spec descOrder (compareAt_mono hmono hasc)
    (Nat.sub_le page.length 0) hpos le_rfl (.inl rfl) (by omega)
    (fun r (h : none = some r) => nomatch h)
  have he := List.getElem?_eq_getElem hcut.lt
  refine ⟨pos, page.get ⟨pos, hcut.lt⟩, he, hcut, ?_⟩
  simp [splitSearchPage, hpos.ne', hs, he, compareAt_of_getElem? he]

/-- A comparison that matches no two keys. -/
def MatchesOne (keyCompare : κ → Dvc) : Prop :=
  ∀ k k', k < k' → keyCompare k = .matched → keyCompare k' = .greater

theorem Entry.compare_strict (hone : MatchesOne keyCompare) {e e' : Entry κ} (h : e.key < e'.key)
    (hm : e.compare keyCompare = .matched) : e'.compare keyCompare = .greater := by
  cases e <;> cases e' <;> simp_all [Entry.key, Entry.compare]
  all_goals exact hone _ _ h hm

omit [LinearOrder κ] in
/-- A guess that matches is treated like the end of an interval. -/
theorem endHit_eq (pos : ℕ) (hm : entry.compare keyCompare = .matched)
    (hleaf : ∀ key, entry ≠ .leafPtr key 0) :
    endHit entry pos = endInterval entry pos .matched := by
  cases entry with
  | leftDummy leaf => simp [Entry.compare] at hm
  | leafPtr key leaf =>
    have : leaf ≠ 0 := fun h => hleaf key (by rw [h])
    simp [endHit, endInterval, Entry.leaf, this]
  | row key => rfl

theorem insertSearchPage_spec (hmono : Monotone keyCompare) (hone : MatchesOne keyCompare)
    (hasc : Ascending page) (hne : page ≠ []) (hleaf : ∀ key, .leafPtr key 0 ∉ page) :
    EndsAtCut keyCompare .greater page (insertSearchPage keyCompare page) := by
  have hpos : 0 < page.length := List.length_pos_iff.2 hne
  have hstrict : ∀ i j, i < j → j < page.length → compareAt keyCompare page i = .matched →
      compareAt keyCompare page j = .greater := fun i j hij hj => by
    rw [compareAt_of_getElem? (List.getElem?_eq_getElem (hij.trans hj)),
      compareAt_of_getElem? (List.getElem?_eq_getElem hj)]
    exact Entry.compare_strict hone (List.pairwise_iff_getElem.1 hasc i j _ hj hij)
  obtain ⟨pos, hs, hcut⟩ := insertBisect_spec (compareAt_mono hmono hasc) hstrict
    (Nat.sub_le page.length 0) hpos le_rfl (.inl rfl) (by omega)
    (fun r (h : none = some r) => nomatch h)
  have he := List.getElem?_eq_getElem hcut.lt
  refine ⟨pos, page.get ⟨pos, hcut.lt⟩, he, hcut, ?_⟩
  rcases hs with hs | ⟨hm, hs⟩
  · simp [insertSearchPage, hpos.ne', hs, he, compareAt_of_getElem? he]
  · rw [compareAt_of_getElem? he] at hm
    have hne : ∀ key, page.get ⟨pos, hcut.lt⟩ ≠ .leafPtr key 0 := fun key h =>
      hleaf key (h ▸ List.get_mem page _)
    have hend := endHit_eq pos hm hne
    simp [insertSearchPage, hpos.ne', hs, he, hm, ← hend]

end Page

end Virtuoso.Search
