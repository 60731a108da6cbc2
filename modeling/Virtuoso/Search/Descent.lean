import Virtuoso.Search.Page

/-!
# Descending an index tree

`itc_page_split_search` and `itc_page_insert_search` search a page and go on to
the page its entry leads to, until they land.  This file states what an index
tree is and where the two descents land in it.

The tree is a predicate over a store of pages: `Subtree store h lo hi dp pages`
says that the page `dp` is the root of a tree of at most `h` levels above its
leaves, that its keys run from `lo` up to `hi`, and that its leaf pages are
`pages`, in key order.  The lower bound `⊥` is that of the leftmost pages, which
start with a left dummy.
-/

namespace Virtuoso.Search

variable {κ : Type}

/-! ## The descent -/

abbrev Store (κ : Type) := ℕ → Option (List (Entry κ))

abbrev Pages (κ : Type) := List (ℕ × List (Entry κ))

/-- Where a search ends: the page, `itc_map_pos` and the result. -/
structure Landing where
  page : ℕ
  mapPos : Option ℕ
  res : Dvc
deriving DecidableEq, Repr

/-- The `new_page` loop of both searches.  `none` is a lack of fuel or a page
that is not there. -/
def descend (searchPage : List (Entry κ) → Option PageEnd) (store : Store κ) :
    ℕ → ℕ → Option Landing
  | 0, _ => none
  | fuel + 1, dp => do
      match ← searchPage (← store dp) with
      | .land mapPos res => return ⟨dp, mapPos, res⟩
      | .dive leaf => descend searchPage store fuel leaf

/-- `itc_page_split_search` from the page `dp`. -/
def itcPageSplitSearch (keyCompare : κ → Dvc) (descOrder : Bool) (store : Store κ)
    (fuel dp : ℕ) : Option Landing :=
  descend (splitSearchPage keyCompare descOrder) store fuel dp

/-- `itc_page_insert_search` from the page `dp`. -/
def itcPageInsertSearch (keyCompare : κ → Dvc) (store : Store κ)
    (fuel dp : ℕ) : Option Landing :=
  descend (insertSearchPage keyCompare) store fuel dp

/-! ## Index trees -/

section Tree

variable [LinearOrder κ] {store : Store κ} {lo : WithBot κ} {hi : WithTop κ}
  {dp : ℕ} {pages : Pages κ}

/-- The entry that leads to the page `leaf` whose keys start at `key`. -/
def ptr (key : WithBot κ) (leaf : ℕ) : Entry κ := key.recBotCoe (.leftDummy leaf) (.leafPtr · leaf)

/-- The key of an entry is in the range of a page. -/
def InRange (lo : WithBot κ) (hi : WithTop κ) (e : Entry κ) : Prop :=
  lo ≤ e.key ∧ ∀ k : κ, hi = k → e.key < k

/-- A leaf page: rows in key order and in range, after a left dummy in the
leftmost page. -/
structure LeafPage (lo : WithBot κ) (hi : WithTop κ) (page : List (Entry κ)) : Prop where
  ne_nil : page ≠ []
  rows : ∀ e ∈ page, e = .leftDummy 0 ∨ ∃ k, e = .row k
  leftDummy : lo = ⊥ → page.head? = some (.leftDummy 0)
  ascending : Ascending page
  inRange : ∀ e ∈ page, InRange lo hi e

/-- The entries of an inner page lead to consecutive subtrees; the first has the
key of the entry that leads to the page. -/
inductive InnerPage (sub : WithBot κ → WithTop κ → ℕ → Pages κ → Prop) :
    WithBot κ → WithTop κ → List (Entry κ) → Pages κ → Prop
  | last {lo hi leaf pages} : leaf ≠ 0 → sub lo hi leaf pages →
      InnerPage sub lo hi [ptr lo leaf] pages
  | cons {lo : WithBot κ} {hi : WithTop κ} {leaf pages entries pages'} {k : κ} :
      leaf ≠ 0 → lo < k → k < hi →
      sub lo k leaf pages → InnerPage sub k hi entries pages' →
      InnerPage sub lo hi (ptr lo leaf :: entries) (pages ++ pages')

/-- An index tree of at most `h` levels above its leaf pages. -/
def Subtree (store : Store κ) :
    ℕ → WithBot κ → WithTop κ → ℕ → Pages κ → Prop
  | 0, lo, hi, dp, pages => ∃ page, store dp = some page ∧ LeafPage lo hi page ∧
      pages = [(dp, page)]
  | h + 1, lo, hi, dp, pages =>
    (∃ page, store dp = some page ∧ LeafPage lo hi page ∧ pages = [(dp, page)]) ∨
    ∃ page, store dp = some page ∧ InnerPage (Subtree store h) lo hi page pages

omit [LinearOrder κ] in
@[simp] theorem ptr_key (key : WithBot κ) (leaf : ℕ) : (ptr key leaf).key = key := by
  cases key <;> rfl

omit [LinearOrder κ] in
@[simp] theorem ptr_leaf (key : WithBot κ) (leaf : ℕ) : (ptr key leaf).leaf = leaf := by
  cases key <;> rfl

variable {e : Entry κ} {h : ℕ} {out : Option Landing} {page : List (Entry κ)}
  {searchPage : List (Entry κ) → Option PageEnd}

/-- The keys of a range are those of a wider one. -/
theorem InRange.mono {lo' : WithBot κ} {hi' : WithTop κ} (h : InRange lo hi e) (hlo : lo' ≤ lo)
    (hhi : hi ≤ hi') : InRange lo' hi' e := by
  refine ⟨hlo.trans h.1, fun k hk => ?_⟩
  subst hk
  obtain ⟨k', rfl, hk⟩ := WithTop.le_coe_iff.1 hhi
  exact (h.2 k' rfl).trans_le (WithBot.coe_le_coe.2 hk)

section Induct

variable {P : WithBot κ → WithTop κ → Pages κ → Prop}
  (append : ∀ {lo : WithBot κ} {hi : WithTop κ} {pages pages' : Pages κ} {k : κ}, lo < k → k < hi →
    P lo k pages → P k hi pages' → P lo hi (pages ++ pages'))

include append

/-- What holds of the leaf pages of all subtrees and of two groups of pages that
meet holds of those of an inner page. -/
theorem InnerPage.pages_induction {sub : WithBot κ → WithTop κ → ℕ → Pages κ → Prop}
    (hsub : ∀ {lo hi dp pages}, sub lo hi dp pages → P lo hi pages) {entries : List (Entry κ)}
    (h : InnerPage sub lo hi entries pages) : P lo hi pages := by
  induction h with
  | last _ hs => exact hsub hs
  | cons _ hlo hhi hs _ ih => exact append hlo hhi (hsub hs) ih

/-- Induction over the leaf pages of a tree. -/
theorem Subtree.pages_induction
    (leaf : ∀ {lo hi dp page}, LeafPage lo hi page → P lo hi [(dp, page)])
    (ht : Subtree store h lo hi dp pages) : P lo hi pages := by
  induction h generalizing lo hi dp pages with
  | zero =>
    obtain ⟨page, -, hp, rfl⟩ := ht
    exact leaf hp
  | succ h ih =>
    rcases ht with ⟨page, -, hp, rfl⟩ | ⟨page, -, hp⟩
    · exact leaf hp
    · exact hp.pages_induction append ih

end Induct

/-- The leaf pages hold rows in key order and in range, and left dummies that
lead nowhere. -/
structure LeafPages (lo : WithBot κ) (hi : WithTop κ) (pages : Pages κ) : Prop where
  inRange : ∀ p ∈ pages, ∀ e ∈ p.2, InRange lo hi e
  rows : ∀ p ∈ pages, ∀ e ∈ p.2, e = .leftDummy 0 ∨ ∃ k, e = .row k
  ascending : Ascending (pages.flatMap (·.2))

theorem LeafPages.append {pages' : Pages κ} {k : κ} (hlo : lo < k) (hhi : k < hi)
    (h : LeafPages lo k pages) (h' : LeafPages k hi pages') :
    LeafPages lo hi (pages ++ pages') := by
  refine ⟨fun p hp => ?_, fun p hp => ?_, ?_⟩
  · rcases List.mem_append.1 hp with hp | hp
    · exact fun e he => (h.inRange p hp e he).mono le_rfl hhi.le
    · exact fun e he => (h'.inRange p hp e he).mono hlo.le le_rfl
  · rcases List.mem_append.1 hp with hp | hp
    · exact h.rows p hp
    · exact h'.rows p hp
  · rw [List.flatMap_append]
    refine List.pairwise_append.2 ⟨h.ascending, h'.ascending, fun e he e' he' => ?_⟩
    obtain ⟨p, hp, he⟩ := List.mem_flatMap.1 he
    obtain ⟨p', hp', he'⟩ := List.mem_flatMap.1 he'
    exact ((h.inRange p hp e he).2 k rfl).trans_le (h'.inRange p' hp' e' he').1

theorem Subtree.leafPages (ht : Subtree store h lo hi dp pages) : LeafPages lo hi pages :=
  ht.pages_induction LeafPages.append fun hp =>
    ⟨by simpa using hp.inRange, by simpa using hp.rows, by simpa using hp.ascending⟩

namespace InnerPage

variable {sub : WithBot κ → WithTop κ → ℕ → Pages κ → Prop}
  {entries : List (Entry κ)}

theorem head (h : InnerPage sub lo hi entries pages) :
    ∃ e, entries[0]? = some e ∧ e.key = lo := by
  cases h <;> simp

theorem le_key (h : InnerPage sub lo hi entries pages) : ∀ e ∈ entries, lo ≤ e.key := by
  induction h with
  | last _ _ => simp
  | cons _ hlo _ _ _ ih =>
    rintro e (_ | ⟨_, he⟩)
    · simp
    · exact hlo.le.trans (ih e he)

theorem leaf_ne_zero (h : InnerPage sub lo hi entries pages) : ∀ e ∈ entries, e.leaf ≠ 0 := by
  induction h with
  | last hl _ => simpa using hl
  | cons hl _ _ _ _ ih =>
    rintro e (_ | ⟨_, he⟩)
    · simpa using hl
    · exact ih e he

theorem ascending (h : InnerPage sub lo hi entries pages) : Ascending entries := by
  induction h with
  | last _ _ => exact List.pairwise_singleton _ _
  | cons _ hlo _ _ ht ih =>
    refine List.pairwise_cons.2 ⟨fun e he => ?_, ih⟩
    rw [ptr_key]
    exact hlo.trans_le (ht.le_key e he)

/-- The subtree an entry leads to, with the leaf pages before it and after it.
Its keys end where those of the next entry start. -/
theorem split (hsub : ∀ {lo hi dp pages}, sub lo hi dp pages → LeafPages lo hi pages)
    (h : InnerPage sub lo hi entries pages) {pos : ℕ} {entry : Entry κ}
    (he : entries[pos]? = some entry) :
    ∃ hi' before mid after, pages = before ++ mid ++ after ∧ sub entry.key hi' entry.leaf mid ∧
      (∀ p ∈ before, ∀ e ∈ p.2, e.key < entry.key) ∧
      (hi' = hi ∧ after = [] ∨ ∃ (k : κ) (next : Entry κ), entries[pos + 1]? = some next ∧
        next.key = k ∧ hi' = k ∧ ∀ p ∈ after, ∀ e ∈ p.2, ↑k ≤ e.key) := by
  induction h generalizing pos with
  | @last lo hi leaf pages hl hs =>
    obtain ⟨rfl, rfl⟩ : pos = 0 ∧ ptr lo leaf = entry := by
      cases pos <;> simp_all
    exact ⟨hi, [], pages, [], by simp, by simpa using hs, by simp, .inl ⟨rfl, rfl⟩⟩
  | @cons lo hi leaf pages entries pages' k hl hlo hhi hs ht ih =>
    cases pos with
    | zero =>
      obtain rfl : ptr lo leaf = entry := by simpa using he
      refine ⟨k, [], pages, pages', by simp, by simpa using hs, by simp, .inr ?_⟩
      obtain ⟨next, hnext, hkey⟩ := ht.head
      exact ⟨k, next, by simpa using hnext, hkey, rfl,
        fun p hp e he => ((ht.pages_induction LeafPages.append hsub).inRange p hp e he).1⟩
    | succ pos =>
      obtain ⟨hi', before, mid, after, rfl, hmid, hbefore, hafter⟩ := ih (by simpa using he)
      refine ⟨hi', pages ++ before, mid, after, by simp, hmid, ?_, ?_⟩
      · intro p hp e he'
        rcases List.mem_append.1 hp with hp | hp
        · refine (((hsub hs).inRange p hp e he').2 k rfl).trans_le (ht.le_key entry ?_)
          exact List.mem_of_getElem? (by simpa using he)
        · exact hbefore p hp e he'
      · simpa using hafter

end InnerPage

/-! ## Where a descent lands -/

variable {keyCompare : κ → Dvc} {low bound : Dvc}

/-- A search lands on the cut of one leaf page, with the comparison of the entry
there.  All rows of the pages before compare below `low`, and those of the pages
after are not below `bound`. -/
def LandsOnCut (keyCompare : κ → Dvc) (low bound : Dvc) (pages : Pages κ)
    (out : Option Landing) : Prop :=
  ∃ before dp page after pos, pages = before ++ (dp, page) :: after ∧
    out = some ⟨dp, some pos, compareAt keyCompare page pos⟩ ∧
    Cut bound (compareAt keyCompare page) page.length pos ∧
    (∀ p ∈ before, ∀ e ∈ p.2, e.compare keyCompare < low) ∧
    ∀ p ∈ after, ∀ e ∈ p.2, bound ≤ e.compare keyCompare

omit [LinearOrder κ] in
/-- More pages may come before and after. -/
theorem LandsOnCut.widen (h : LandsOnCut keyCompare low bound pages out) {before after : Pages κ}
    (hbefore : ∀ p ∈ before, ∀ e ∈ p.2, e.compare keyCompare < low)
    (hafter : ∀ p ∈ after, ∀ e ∈ p.2, bound ≤ e.compare keyCompare) :
    LandsOnCut keyCompare low bound (before ++ pages ++ after) out := by
  obtain ⟨before', dp, page, after', pos, rfl, hout, hcut, hbefore', hafter'⟩ := h
  refine ⟨before ++ before', dp, page, after' ++ after, pos, by simp, hout, hcut, ?_, ?_⟩
  · intro p hp
    rcases List.mem_append.1 hp with hp | hp
    · exact hbefore p hp
    · exact hbefore' p hp
  · intro p hp
    rcases List.mem_append.1 hp with hp | hp
    · exact hafter' p hp
    · exact hafter p hp

omit [LinearOrder κ] in
theorem Entry.compare_congr (e e' : Entry κ) (h : e.key = e'.key) :
    e.compare keyCompare = e'.compare keyCompare := by
  cases e <;> cases e' <;> simp_all [Entry.key, Entry.compare]

theorem LeafPage.leaf_eq_zero (h : LeafPage lo hi page) :
    ∀ e ∈ page, e.leaf = 0 := fun e he => by
  rcases h.rows e he with rfl | ⟨k, rfl⟩ <;> rfl

theorem LeafPage.leafPtr_notMem (h : LeafPage lo hi page) (key : κ) :
    .leafPtr key 0 ∉ page := fun hk => by
  rcases h.rows _ hk with hk | ⟨k, hk⟩ <;> cases hk

/-- The search of a leaf page lands there. -/
theorem LeafPage.lands (hp : LeafPage lo hi page)
    (hs : EndsAtCut keyCompare bound page (searchPage page)) (hstore : store dp = some page)
    (fuel : ℕ) :
    LandsOnCut keyCompare low bound [(dp, page)] (descend searchPage store (fuel + 1) dp) := by
  obtain ⟨pos, entry, he, hcut, hout⟩ := hs
  refine ⟨[], dp, page, [], pos, rfl, ?_, hcut, by simp, by simp⟩
  have hleaf : entry.leaf = 0 := hp.leaf_eq_zero entry (List.mem_of_getElem? he)
  simp [descend, hstore, hout, endInterval_of_row hleaf, compareAt_of_getElem? he]

/-- A page search that ends on the cut of every page makes a descent that lands
on the cut of the tree. -/
theorem Subtree.lands
    (hsearch : ∀ page, page ≠ [] → Ascending page → (∀ key, .leafPtr key 0 ∉ page) →
      EndsAtCut keyCompare bound page (searchPage page)) (hmono : Monotone keyCompare)
    (hlow : ∀ e e' : Entry κ, e.key < e'.key → e'.compare keyCompare < bound →
      e.compare keyCompare < low) (ht : Subtree store h lo hi dp pages)
    (hlo : (ptr lo 0).compare keyCompare < bound) (hhi : ∀ k : κ, hi = k → bound ≤ keyCompare k) :
    LandsOnCut keyCompare low bound pages (descend searchPage store (h + 1) dp) := by
  induction h generalizing lo hi dp pages with
  | zero =>
    obtain ⟨page, hstore, hp, rfl⟩ := ht
    exact hp.lands (hsearch page hp.ne_nil hp.ascending hp.leafPtr_notMem) hstore 0
  | succ h ih =>
    rcases ht with ⟨page, hstore, hp, rfl⟩ | ⟨page, hstore, hp⟩
    · exact hp.lands (hsearch page hp.ne_nil hp.ascending hp.leafPtr_notMem) hstore _
    · obtain ⟨first, hfirst, hkey⟩ := hp.head
      obtain ⟨pos, entry, he, hcut, hout⟩ := hsearch page (by rintro rfl; simp at hfirst)
        hp.ascending fun key hk => hp.leaf_ne_zero _ hk rfl
      -- the first entry is below the bound, so the search goes on from the cut
      have hbelow : entry.compare keyCompare < bound := by
        rw [← compareAt_of_getElem? he]
        rcases hcut.below with rfl | hb
        · rwa [compareAt_of_getElem? hfirst, Entry.compare_congr first (ptr lo 0) (by simp [hkey])]
        · exact hb
      have hdive : descend searchPage store (h + 1 + 1) dp =
          descend searchPage store (h + 1) entry.leaf := by
        have hleaf := hp.leaf_ne_zero entry (List.mem_of_getElem? he)
        have hne := (hbelow.trans_le (Dvc.le_greater bound)).ne
        rw [descend]
        simp [hstore, hout, endInterval_of_leaf hleaf hne]
      obtain ⟨hi', before, mid, after, rfl, hmid, hbefore, hafter⟩ := hp.split Subtree.leafPages he
      have hhi' : ∀ k : κ, hi' = k → bound ≤ keyCompare k := by
        rcases hafter with ⟨rfl, -⟩ | ⟨k, next, hnext, hk, rfl, -⟩
        · exact hhi
        · intro k' hk'
          obtain rfl : k' = k := by simpa using hk'.symm
          have hlt : pos + 1 < page.length := (List.getElem?_eq_some_iff.1 hnext).1
          have habove := hcut.above (pos + 1) (by omega) hlt
          rwa [compareAt_of_getElem? hnext, Entry.compare_congr next (.row k') hk] at habove
      rw [hdive]
      refine (ih hmid (by rwa [Entry.compare_congr (ptr entry.key 0) entry (by simp)]) hhi').widen
        (fun p hp e hep => hlow e entry (hbefore p hp e hep) hbelow) fun p hp e hep => ?_
      rcases hafter with ⟨-, rfl⟩ | ⟨k, next, hnext, hk, rfl, hafter⟩
      · cases hp
      · calc bound ≤ keyCompare k := hhi' k rfl
          _ = (Entry.row k).compare keyCompare := rfl
          _ ≤ e.compare keyCompare := Entry.compare_mono hmono (hafter p hp e hep)

/-- A search lands on the entry `e` at position `pos` of a leaf page; `ahead` and
`behind` are the entries before and after it in all leaf pages. -/
def LandsOn (pages : Pages κ) (out : Option Landing) (res : Dvc) (pos : ℕ)
    (ahead : List (Entry κ)) (e : Entry κ) (behind : List (Entry κ)) : Prop :=
  ∃ before dp left right after, pages = before ++ (dp, left ++ e :: right) :: after ∧
    left.length = pos ∧ out = some ⟨dp, some pos, res⟩ ∧
    ahead = before.flatMap (·.2) ++ left ∧ behind = right ++ after.flatMap (·.2)

omit [LinearOrder κ] in
theorem LandsOn.entries {res : Dvc} {pos : ℕ} {ahead behind : List (Entry κ)}
    (h : LandsOn pages out res pos ahead e behind) :
    pages.flatMap (·.2) = ahead ++ e :: behind := by
  obtain ⟨before, dp, left, right, after, rfl, -, -, rfl, rfl⟩ := h
  simp

/-- Landing on the cut, in terms of single entries. -/
theorem LandsOnCut.landsOn (h : LandsOnCut keyCompare low bound pages out)
    (hlow : ∀ e e' : Entry κ, e.key < e'.key → e'.compare keyCompare < bound →
      e.compare keyCompare < low) (hasc : Ascending (pages.flatMap (·.2))) :
    ∃ pos ahead e behind, LandsOn pages out (e.compare keyCompare) pos ahead e behind ∧
      (pos = 0 ∨ e.compare keyCompare < bound) ∧
      (∀ e' ∈ ahead, e'.compare keyCompare < low) ∧
      ∀ e' ∈ behind, bound ≤ e'.compare keyCompare := by
  obtain ⟨before, dp, page, after, pos, rfl, hout, hcut, hbefore, hafter⟩ := h
  obtain ⟨left, e, right, rfl, rfl⟩ : ∃ left e right, page = left ++ e :: right ∧
    left.length = pos :=
    ⟨page.take pos, _, _, by rw [← List.drop_eq_getElem_cons hcut.lt, List.take_append_drop],
      List.length_take_of_le hcut.lt.le⟩
  have he : compareAt keyCompare (left ++ e :: right) left.length = e.compare keyCompare :=
    compareAt_of_getElem? (by simp)
  have hland : LandsOn _ out (e.compare keyCompare) left.length (before.flatMap (·.2) ++ left) e
      (right ++ after.flatMap (·.2)) :=
    ⟨before, dp, left, right, after, rfl, rfl, he ▸ hout, rfl, rfl⟩
  rw [hland.entries] at hasc
  refine ⟨left.length, _, e, _, hland, he ▸ hcut.below, ?_, ?_⟩
  · intro e' he'
    rcases List.mem_append.1 he' with he' | he'
    · obtain ⟨p, hp, he'⟩ := List.mem_flatMap.1 he'
      exact hbefore p hp e' he'
    · have hbelow : e.compare keyCompare < bound := by
        rcases hcut.below with h0 | hb
        · rw [List.length_eq_zero_iff.1 h0] at he'
          cases he'
        · exact he ▸ hb
      have hkey : e'.key < e.key := (List.pairwise_append.1 hasc).2.2 e' (by simp [he']) e (by simp)
      exact hlow e' e hkey hbelow
  · intro e' he'
    rcases List.mem_append.1 he' with he' | he'
    · obtain ⟨i, hi⟩ := List.mem_iff_getElem?.1 he'
      have hi' : (left ++ e :: right)[left.length + 1 + i]? = some e' := by
        rw [List.getElem?_append_right (by omega)]
        simpa [show left.length + 1 + i - left.length = i + 1 by omega] using hi
      have habove := hcut.above (left.length + 1 + i) (by omega) (List.getElem?_eq_some_iff.1 hi').1
      rwa [compareAt_of_getElem? hi'] at habove
    · obtain ⟨p, hp, he'⟩ := List.mem_flatMap.1 he'
      exact hafter p hp e' he'

/-- **Split search.**  In a whole tree, `itc_page_split_search` lands so that all
entries before compare below the bound and none after does. -/
theorem Subtree.split_lands (ht : Subtree store h ⊥ ⊤ dp pages) (hmono : Monotone keyCompare)
    (descOrder : Bool) :
    ∃ pos ahead e behind, LandsOn pages (itcPageSplitSearch keyCompare descOrder store (h + 1) dp)
        (e.compare keyCompare) pos ahead e behind ∧
      (pos = 0 ∨ e.compare keyCompare < splitBound descOrder) ∧
      (∀ e' ∈ ahead, e'.compare keyCompare < splitBound descOrder) ∧
      ∀ e' ∈ behind, splitBound descOrder ≤ e'.compare keyCompare := by
  have hlow : ∀ e e' : Entry κ, e.key < e'.key → e'.compare keyCompare < splitBound descOrder →
      e.compare keyCompare < splitBound descOrder := fun e e' hk =>
    (Entry.compare_mono hmono hk.le).trans_lt
  refine (ht.lands (fun page hne hasc _ => splitSearchPage_spec descOrder hmono hasc hne) hmono hlow
    ?_ ?_).landsOn hlow ht.leafPages.ascending
  · change Dvc.less < _
    cases descOrder <;> decide
  · exact fun k hk => absurd hk WithTop.top_ne_coe

theorem Entry.compare_lt_matched {key : κ} :
    e.compare (pageColCmp · key) < .matched ↔ e.key < key := by
  cases e <;> simp [Entry.compare, Entry.key, Dvc.lt_matched, pageColCmp_eq_less]

theorem Entry.compare_lt_greater {key : κ} :
    e.compare (pageColCmp · key) < .greater ↔ e.key ≤ key := by
  cases e <;> simp [Entry.compare, Entry.key, Dvc.lt_greater, pageColCmp_eq_greater]

/-- **Insert search.**  In a whole tree, `itc_page_insert_search` for a full key
lands so that all entries before are below the key and all after are above. -/
theorem Subtree.insert_lands (ht : Subtree store h ⊥ ⊤ dp pages) (key : κ) :
    ∃ pos ahead e behind, LandsOn pages (itcPageInsertSearch (pageColCmp · key) store (h + 1) dp)
        (e.compare (pageColCmp · key)) pos ahead e behind ∧
      (pos = 0 ∨ e.key ≤ key) ∧ (∀ e' ∈ ahead, e'.key < key) ∧ ∀ e' ∈ behind, key < e'.key := by
  have hmono : Monotone (pageColCmp · key) := fun _ _ => pageColCmp_mono key
  have hone : MatchesOne (pageColCmp · key) := fun k k' hk hm => by
    rw [pageColCmp_eq_matched] at hm
    exact pageColCmp_eq_greater.2 (hm ▸ hk)
  have hlow : ∀ e e' : Entry κ, e.key < e'.key → e'.compare (pageColCmp · key) < .greater →
      e.compare (pageColCmp · key) < .matched := fun e e' hk he' =>
    Entry.compare_lt_matched.2 (hk.trans_le (Entry.compare_lt_greater.1 he'))
  obtain ⟨pos, ahead, e, behind, hland, hpos, hahead, hbehind⟩ :=
    (ht.lands (fun page hne hasc hleaf => insertSearchPage_spec hmono hone hasc hne hleaf)
      hmono hlow (show Dvc.less < .greater by decide) fun k hk =>
        absurd hk WithTop.top_ne_coe).landsOn hlow
      ht.leafPages.ascending
  refine ⟨pos, ahead, e, behind, hland, hpos.imp_right Entry.compare_lt_greater.1,
    fun e' he' => Entry.compare_lt_matched.1 (hahead e' he'), fun e' he' => ?_⟩
  rw [← not_le, ← Entry.compare_lt_greater]
  exact (hbehind e' he').not_gt

/-- The results of an insert search for `key` that lands on `e`: a match on the row
with the key, less on the greatest entry below it, or greater on the first
position of a page with only greater rows. -/
def InsertLands (key : κ) (res : Dvc) (pos : ℕ) (ahead : List (Entry κ)) (e : Entry κ)
    (behind : List (Entry κ)) : Prop :=
  match res with
  | .matched => e = .row key
  | .less => e.key < key ∧ (∀ e' ∈ ahead, e'.key < e.key) ∧ ∀ e' ∈ behind, key < e'.key
  | .greater => pos = 0 ∧ (∀ e' ∈ ahead, e'.key < key) ∧ ∀ e' ∈ e :: behind, key < e'.key

/-- The result of an insert search says whether the key is there. -/
theorem Subtree.insert_result (ht : Subtree store h ⊥ ⊤ dp pages) (key : κ) :
    ∃ res pos ahead e behind, LandsOn pages
        (itcPageInsertSearch (pageColCmp · key) store (h + 1) dp) res pos ahead e behind ∧
      (res = .matched ↔ ∃ p ∈ pages, .row key ∈ p.2) ∧ InsertLands key res pos ahead e behind := by
  obtain ⟨pos, ahead, e, behind, hland, hpos, hahead, hbehind⟩ := ht.insert_lands key
  have hasc := ht.leafPages.ascending
  have hmem : ∀ x, (∃ p ∈ pages, x ∈ p.2) ↔ x ∈ ahead ++ e :: behind := fun x => by
    rw [← hland.entries, List.mem_flatMap]
  have hne : e.key ≠ key → ¬ ∃ p ∈ pages, Entry.row key ∈ p.2 := fun hk hrow => by
    rcases List.mem_append.1 ((hmem _).1 hrow) with hrow | hrow
    · exact lt_irrefl _ (hahead _ hrow)
    · rcases List.mem_cons.1 hrow with rfl | hrow
      · exact hk rfl
      · exact lt_irrefl _ (hbehind _ hrow)
  rw [hland.entries] at hasc
  refine ⟨_, pos, ahead, e, behind, hland, ?_⟩
  rcases lt_trichotomy e.key key with hk | hk | hk
  · have hres := Dvc.lt_matched.1 (Entry.compare_lt_matched.2 hk)
    rw [hres]
    refine ⟨iff_of_false (by simp) (hne hk.ne), hk, fun e' he' => ?_, hbehind⟩
    exact (List.pairwise_append.1 hasc).2.2 e' he' e (by simp)
  · obtain ⟨p, hp, hep⟩ := (hmem e).2 (by simp)
    obtain rfl : e = .row key := by
      rcases ht.leafPages.rows p hp e hep with rfl | ⟨k, rfl⟩
      · cases hk
      · simpa [Entry.key] using hk
    have hres : (Entry.row key).compare (pageColCmp · key) = .matched := pageColCmp_self key
    rw [hres]
    exact ⟨iff_of_true rfl ⟨p, hp, hep⟩, rfl⟩
  · have hres := Dvc.greater_le.1 (not_lt.1 fun h => (Entry.compare_lt_greater.1 h).not_gt hk)
    rw [hres]
    refine ⟨iff_of_false (by simp) (hne hk.ne'), hpos.resolve_right hk.not_ge, hahead,
      fun e' he' => ?_⟩
    rcases List.mem_cons.1 he' with rfl | he'
    · exact hk
    · exact hbehind e' he'

end Tree

/-! ## The two searches of an index -/

section Index

variable {α : Type} [LinearOrder α] {revs : List Bool}

/-- **Index descent lands on the right row.**  In every index tree, of any depth
and with any directions of the key parts:

* the insert search for a full key returns `DVC_MATCH` on the row with that key if
  the tree has one.  Otherwise it returns `DVC_LESS` on the greatest entry below
  the key, or `DVC_GREATER` at position 0 of a page with all rows above the key,
  while all rows of earlier pages are below it;
* the ascending split search for equalities on leading parts followed by at most
  one range ends so that every entry before compares `DVC_LESS` and none after
  does; the result is that of the entry it ends on, which is `DVC_LESS` unless the
  entry is the first of its page.  A key compares `DVC_LESS` if the first part that
  does not meet its condition stands before the range, and `DVC_MATCH` if all meet
  theirs. -/
theorem index_descent_lands {store : Store (Key α revs)} {h root : ℕ}
    {pages : Pages (Key α revs)} (ht : Subtree store h ⊥ ⊤ root pages) :
    (∀ (specs : List (SearchSpec α)) (key : Key α revs), specs.map SearchSpec.isReverse = revs →
      specs.map SearchSpec.min = key.parts →
      ∃ res pos ahead e behind,
        LandsOn pages
          (itcPageInsertSearch (fun k => pgInsertKeyCompare specs k.parts) store (h + 1) root)
          res pos ahead e behind ∧
        (res = .matched ↔ ∃ p ∈ pages, .row key ∈ p.2) ∧
        InsertLands key res pos ahead e behind) ∧
    (∀ specs : List (SearchSpec α), EqThenRange specs →
      specs.map SearchSpec.isReverse <+: revs →
      (∀ k : Key α revs, (pgKeyCompare specs k.parts = .less ↔ Precedes specs k.parts) ∧
        (pgKeyCompare specs k.parts = .matched ↔ ∀ p ∈ specs.zip k.parts, p.1.Meets p.2)) ∧
      ∃ res pos ahead e behind,
        LandsOn pages
          (itcPageSplitSearch (fun k => pgKeyCompare specs k.parts) false store (h + 1) root)
          res pos ahead e behind ∧
        res = e.compare (fun k => pgKeyCompare specs k.parts) ∧ (pos = 0 ∨ res = .less) ∧
        (∀ e' ∈ ahead, e'.compare (fun k => pgKeyCompare specs k.parts) = .less) ∧
        ∀ e' ∈ behind, e'.compare (fun k => pgKeyCompare specs k.parts) ≠ .less) := by
  refine ⟨fun specs key hrevs hkey => ?_, fun specs hs hr => ?_⟩
  · have hcmp : (fun k : Key α revs => pgInsertKeyCompare specs k.parts) = (pageColCmp · key) :=
      funext (pgInsertKeyCompare_key hrevs hkey)
    rw [hcmp]
    exact ht.insert_result key
  · obtain ⟨pos, ahead, e, behind, hland, hpos, hahead, hbehind⟩ :=
      ht.split_lands (pgKeyCompare_mono hs hr) false
    exact ⟨fun k => ⟨pgKeyCompare_eq_less _ _, pgKeyCompare_eq_matched _ _⟩,
      _, pos, ahead, e, behind, hland, rfl, hpos.imp_right Dvc.lt_matched.1,
      fun e' he' => Dvc.lt_matched.1 (hahead e' he'), fun e' he' =>
        Dvc.matched_le.1 (hbehind e' he')⟩

/-- A key of an ascending and a descending part. -/
def twoParts (a b : ℕ) : Key ℕ [false, true] := ⟨[a, b], rfl⟩

def twoLevels : Store (Key ℕ [false, true])
  | 1 => some [.leftDummy 2, .leafPtr (twoParts 2 6) 3]
  | 2 => some [.leftDummy 0, .row (twoParts 1 9), .row (twoParts 1 4)]
  | 3 => some [.row (twoParts 2 6), .row (twoParts 2 5)]
  | _ => none

def twoLeaves : Pages (Key ℕ [false, true]) :=
  [(2, [.leftDummy 0, .row (twoParts 1 9), .row (twoParts 1 4)]),
    (3, [.row (twoParts 2 6), .row (twoParts 2 5)])]

theorem twoLevels_subtree : Subtree twoLevels 1 ⊥ ⊤ 1 twoLeaves := by
  have left : Subtree twoLevels 0 ⊥ (twoParts 2 6) 2 (twoLeaves.take 1) := by
    refine ⟨_, rfl, ⟨by simp, by simp, fun _ => rfl, ?_, fun e he => ⟨bot_le, fun k hk => ?_⟩⟩, rfl⟩
    · unfold Ascending
      decide
    · rw [← WithTop.coe_eq_coe.1 hk]
      revert e
      decide
  have right : Subtree twoLevels 0 (twoParts 2 6) ⊤ 3 (twoLeaves.drop 1) := by
    refine ⟨_, rfl, ⟨by simp, by simp, by simp, ?_, fun e he => ⟨?_, by simp⟩⟩, rfl⟩
    · unfold Ascending
      decide
    · revert e
      decide
  exact .inr ⟨_, rfl, .cons (by decide : 2 ≠ 0) (WithBot.bot_lt_coe _) (WithTop.coe_lt_top _) left
    (.last (by decide : 3 ≠ 0) right)⟩

/-- Searches of `(2, 5)` and of what is from 2 on in the tree of two levels. -/
theorem twoLevels_lands :
    (∃ res pos ahead e behind, LandsOn twoLeaves (itcPageInsertSearch
      (fun k => pgInsertKeyCompare [⟨.eq, 2, .none, 0, false⟩, ⟨.eq, 5, .none, 0, true⟩] k.parts)
      twoLevels 2 1) res pos ahead e behind ∧ InsertLands (twoParts 2 5) res pos ahead e behind) ∧
    ∃ res pos ahead e behind, LandsOn twoLeaves (itcPageSplitSearch
      (fun k => pgKeyCompare [⟨.gte, 2, .none, 0, false⟩] k.parts) false twoLevels 2 1)
      res pos ahead e behind ∧ (pos = 0 ∨ res = .less) := by
  obtain ⟨hinsert, hsplit⟩ := index_descent_lands twoLevels_subtree
  obtain ⟨res, pos, ahead, e, behind, h, -, h'⟩ :=
    hinsert [⟨.eq, 2, .none, 0, false⟩, ⟨.eq, 5, .none, 0, true⟩] (twoParts 2 5) rfl rfl
  obtain ⟨-, res', pos', ahead', e', behind', hs, -, hs', -⟩ :=
    hsplit [⟨.gte, 2, .none, 0, false⟩] trivial (by decide)
  exact ⟨⟨res, pos, ahead, e, behind, h, h'⟩, res', pos', ahead', e', behind', hs, hs'⟩

example : itcPageInsertSearch
    (fun k => pgInsertKeyCompare [⟨.eq, 2, .none, 0, false⟩, ⟨.eq, 5, .none, 0, true⟩] k.parts)
    twoLevels 2 1 = some ⟨3, some 1, .matched⟩ := by decide

end Index

end Virtuoso.Search
