import Virtuoso.Hash.Basic
import Virtuoso.Lib.Dictionary

/-!
# What a table holds

The shape of a table in a heap is given by its `Cells`: for each bucket that is in use the
addresses of its overflow records, in the order of the chain.  `Shape` says that the bytes
of the table and of the heap realise the cells, that no record is in two chains, and that
the offsets are those of padded keys and data.

An operation changes the records of one bucket.  `Shape.update` is the rule for that: what
has to be shown is what the bucket looks like after it, all others stay as they were.  The
lookups are `find?` over the places of a bucket's records.
-/

namespace Virtuoso.Hash

open Virtuoso.Lib Block

/-- For each bucket in use the addresses of its overflow records. -/
abbrev Cells := ℕ → Option (List ℕ)

def refs (n : ℕ) : Option (List ℕ) → List Ref
  | none => []
  | some l => .head n :: l.map .ext

/-- The key and the data of a record, at the padded offsets. -/
def IdHash.entry (t : IdHash) (r : Record) : Entry := (t.key r, t.data r)

def entryAt (h : Heap Record) (t : IdHash) (ref : Ref) : Entry :=
  ((fetch h t ref).map t.entry).getD ([], [])

def entriesOf (h : Heap Record) (t : IdHash) (c : Cells) (n : ℕ) : List Entry :=
  (refs n (c n)).map (entryAt h t)

/-- The entries of a table. -/
abbrev contents (h : Heap Record) (t : IdHash) (c : Cells) : List Entry :=
  Dictionary.Split.flat t.buckets (entriesOf h t c)

/-- The offsets are those of padded keys and data, and fit a `short`. -/
structure Layout (t : IdHash) : Prop where
  dataInx_eq : t.dataInx = next4 t.keyLength
  extInx_eq : t.extInx = next4 t.keyLength + next4 t.dataLength
  bucketLength_eq : t.bucketLength = next4 t.keyLength + next4 t.dataLength + 8
  fits : next4 t.keyLength + next4 t.dataLength + 8 < 2 ^ 15

/-- The bytes of bucket `n` realise its cell. -/
def BucketIs (h : Heap Record) (t : IdHash) (n : ℕ) : Option (List ℕ) → Prop
  | none => t.bucketOverflow (t.array n) = emptyMark
  | some l => t.bucketOverflow (t.array n) ≠ emptyMark ∧
      IsChain t.bucketOverflow h (t.bucketOverflow (t.array n)) l

/-- The address of an overflow record of a bucket below `count`. -/
def Cells.Owns (c : Cells) (count a : ℕ) : Prop := ∃ n < count, ∃ l, c n = some l ∧ a ∈ l

/-- The bytes of the table and the heap realise the cells. -/
structure Shape (h : Heap Record) (t : IdHash) (c : Cells) : Prop where
  layout : Layout t
  pos : 0 < t.buckets
  bucket : ∀ n < t.buckets, BucketIs h t n (c n)
  apart : ∀ n < t.buckets, ∀ m < t.buckets, ∀ l l' a, c n = some l → c m = some l' →
    a ∈ l → a ∈ l' → n = m
  valid : ∀ a, c.Owns t.buckets a → a ≠ emptyMark

/-! ## Records -/

theorem le_next4 (x : ℕ) : x ≤ next4 x ∧ next4 x < x + 8 := by
  simp only [next4]
  omega

theorem next4_eq_self {x : ℕ} (h : 8 ∣ x) : next4 x = x := by
  simp only [next4]
  omega

variable {r : Record} {key : List UInt8} {l : List ℕ} {o : Option (List ℕ)} {a : ℕ}

namespace Layout

variable {t : IdHash} (hl : Layout t)
include hl

theorem key_le : t.keyLength ≤ t.dataInx := hl.dataInx_eq ▸ (le_next4 _).1

theorem data_le : t.dataInx + t.dataLength ≤ t.extInx := by
  rw [hl.dataInx_eq, hl.extInx_eq]
  have := (le_next4 t.dataLength).1
  omega

variable {data : List UInt8}

/-- A new record has the key, the data and the overflow pointer that were written. -/
theorem entry_fill {ext : ℕ} (hk : key.length = t.keyLength) (hd : data.length = t.dataLength) :
    t.entry (t.fill r key data ext) = (key, data) := by
  have h₁ := hl.key_le
  have h₂ := hl.data_le
  refine Prod.ext ?_ ?_
  · change slice _ _ _ = _
    rw [IdHash.fill, slice_setWord_of_disjoint (by omega),
      slice_blit_of_disjoint (by omega), ← hk, slice_blit_self]
  · change slice _ _ _ = _
    rw [IdHash.fill, slice_setWord_of_disjoint (by omega), ← hd, slice_blit_self]

omit hl in
theorem bucketOverflow_fill {ext : ℕ} (he : ext < 2 ^ 64) :
    t.bucketOverflow (t.fill r key data ext) = ext := word_setWord he

/-- The overflow pointer is no part of the entry. -/
theorem entry_setWord (r : Record) (w : ℕ) : t.entry (r.setWord t.extInx w) = t.entry r := by
  have h₁ := hl.key_le
  have h₂ := hl.data_le
  refine Prod.ext ?_ ?_
  · exact slice_setWord_of_disjoint (by omega)
  · exact slice_setWord_of_disjoint (by omega)

/-- Writing the data changes neither the key nor the overflow pointer. -/
theorem entry_blit (hd : data.length = t.dataLength) :
    t.entry (r.blit t.dataInx data) = ((t.entry r).1, data) := by
  have h₁ := hl.key_le
  refine Prod.ext ?_ ?_
  · exact slice_blit_of_disjoint (by omega)
  · change slice _ _ _ = _
    rw [← hd, slice_blit_self]

theorem bucketOverflow_blit (hd : data.length = t.dataLength) :
    t.bucketOverflow (r.blit t.dataInx data) = t.bucketOverflow r :=
  word_blit_of_disjoint (Or.inr (hd ▸ hl.data_le))

/-- The bytes that the removal of a bucket's own record copies hold the key and the data. -/
theorem entry_copy (r r' : Record) :
    t.entry (r'.blit 0 (r.slice 0 (t.dataLength + t.keyLength + 8))) = t.entry r := by
  have h₁ := (le_next4 t.keyLength).2
  have h₂ := hl.dataInx_eq
  refine Prod.ext ?_ ?_
  · exact slice_copy (by omega)
  · exact slice_copy (by omega)

end Layout

/-! ## Tables of the same layout -/

/-- The tables have the same layout and number of buckets. -/
structure Alike (t t' : IdHash) : Prop where
  keyLength : t'.keyLength = t.keyLength
  dataLength : t'.dataLength = t.dataLength
  dataInx : t'.dataInx = t.dataInx
  extInx : t'.extInx = t.extInx
  bucketLength : t'.bucketLength = t.bucketLength
  buckets : t'.buckets = t.buckets

namespace Alike

theorem refl (t : IdHash) : Alike t t := ⟨rfl, rfl, rfl, rfl, rfl, rfl⟩

variable {t t' : IdHash} (ha : Alike t t')
include ha

theorem entry : t'.entry = t.entry := by
  funext r
  simp only [IdHash.entry, IdHash.key, IdHash.data, ha.keyLength, ha.dataLength, ha.dataInx]

theorem bucketOverflow : t'.bucketOverflow = t.bucketOverflow := by
  funext r
  simp only [IdHash.bucketOverflow, ha.extInx]

theorem home : t'.home = t.home := by
  funext inx
  simp only [IdHash.home, ha.buckets]

theorem layout (hl : Layout t) : Layout t' := by
  constructor
  · rw [ha.dataInx, ha.keyLength, hl.dataInx_eq]
  · rw [ha.extInx, ha.keyLength, ha.dataLength, hl.extInx_eq]
  · rw [ha.bucketLength, ha.keyLength, ha.dataLength, hl.bucketLength_eq]
  · rw [ha.keyLength, ha.dataLength]
    exact hl.fits

end Alike

theorem alike_putHead (t : IdHash) (n : ℕ) (r : Record) : Alike t (t.putHead n r) :=
  ⟨rfl, rfl, rfl, rfl, rfl, rfl⟩

/-! ## Changes in one bucket -/

variable {h h' : Heap Record} {t t' : IdHash} {c c' : Cells} {n : ℕ}

theorem refs_some {n : ℕ} : refs n (some l) = .head n :: l.map .ext := rfl

theorem mem_refs_ext {n : ℕ} : Ref.ext a ∈ refs n o ↔ ∃ l, o = some l ∧ a ∈ l := by
  cases o with
  | none => simp [refs]
  | some l => simp [refs]

theorem mem_refs_head {n m : ℕ} (hm : Ref.head m ∈ refs n o) : m = n := by
  cases o with
  | none => cases hm
  | some l => simpa [refs] using hm

theorem entryAt_ext (hr : h.lookup a = some r) : entryAt h t (.ext a) = t.entry r := by
  rw [entryAt, fetch, hr]
  rfl

theorem entryAt_head (ha : Alike t t') : entryAt h t' (.head n) = t.entry (t'.array n) := by
  rw [← ha.entry]
  rfl

theorem entryAt_congr {ref : Ref} (ha : Alike t t')
    (hf : fetch h' t' ref = fetch h t ref) : entryAt h' t' ref = entryAt h t ref := by
  rw [entryAt, entryAt, hf, ha.entry]

/-- A bucket whose records are unchanged has the same entries. -/
theorem entriesOf_congr (ha : Alike t t') (hc : c' n = c n)
    (harr : t'.array n = t.array n)
    (hlook : ∀ l, c n = some l → ∀ a ∈ l, h'.lookup a = h.lookup a) :
    entriesOf h' t' c' n = entriesOf h t c n := by
  rw [entriesOf, entriesOf, hc]
  apply List.map_congr_left
  intro ref href
  apply entryAt_congr ha
  cases ref with
  | head m =>
    obtain rfl := mem_refs_head href
    exact congrArg some harr
  | ext a =>
    obtain ⟨l, hl, hmem⟩ := mem_refs_ext.1 href
    exact hlook l hl a hmem

theorem BucketIs.congr (ha : Alike t t') (harr : t'.array n = t.array n)
    (hlook : ∀ l, o = some l → ∀ a ∈ l, h'.lookup a = h.lookup a) (hb : BucketIs h t n o) :
    BucketIs h' t' n o := by
  cases o with
  | none =>
    rw [BucketIs, ha.bucketOverflow, harr]
    exact hb
  | some l =>
    obtain ⟨hne, hchain⟩ := hb
    constructor
    · rw [ha.bucketOverflow, harr]
      exact hne
    · rw [ha.bucketOverflow, harr]
      exact hchain.congr fun a ha => by rw [hlook l rfl a ha]

namespace Shape

/-- Only bucket `n` changes: the other buckets keep their bytes and their records. -/
structure OnlyAt (h : Heap Record) (t : IdHash) (c : Cells) (h' : Heap Record) (t' : IdHash)
    (c' : Cells) (n : ℕ) : Prop where
  alike : Alike t t'
  cells : ∀ m < t.buckets, m ≠ n → c' m = c m
  array : ∀ m < t.buckets, m ≠ n → t'.array m = t.array m
  lookup : ∀ m < t.buckets, m ≠ n → ∀ l, c m = some l → ∀ a ∈ l, h'.lookup a = h.lookup a

theorem OnlyAt.entriesOf (ho : OnlyAt h t c h' t' c' n) {m : ℕ} (hm : m < t.buckets) (hne : m ≠ n) :
    entriesOf h' t' c' m = entriesOf h t c m :=
  entriesOf_congr ho.alike (ho.cells m hm hne) (ho.array m hm hne) (ho.lookup m hm hne)

/-- The shape depends only on the table's own records. -/
theorem congr (hs : Shape h t c) (hlook : ∀ a, c.Owns t.buckets a → h'.lookup a = h.lookup a) :
    Shape h' t c :=
  ⟨hs.layout, hs.pos, fun m hm => (hs.bucket m hm).congr (Alike.refl t) rfl
    fun l hl a ha => hlook a ⟨m, hm, l, hl, ha⟩, hs.apart, hs.valid⟩

theorem contents_congr (hlook : ∀ a, c.Owns t.buckets a → h'.lookup a = h.lookup a) :
    contents h' t c = contents h t c :=
  List.flatMap_congr fun n hn => entriesOf_congr (Alike.refl t) rfl rfl
    fun l hl a ha => hlook a ⟨n, List.mem_range.1 hn, l, hl, ha⟩

section

variable (hs : Shape h t c)
include hs

theorem home_lt (inx : ℕ) : t.home inx < t.buckets := Nat.mod_lt _ hs.pos

theorem bucketIsEmpty_iff (hn : n < t.buckets) : t.bucketIsEmpty n = true ↔ c n = none := by
  have hb := hs.bucket n hn
  rw [IdHash.bucketIsEmpty, decide_eq_true_iff]
  cases hc : c n with
  | none =>
    rw [hc] at hb
    exact ⟨fun _ => rfl, fun _ => hb⟩
  | some l =>
    rw [hc] at hb
    exact ⟨fun he => absurd he hb.1, fun he => by cases he⟩

theorem chain (hn : n < t.buckets) (hl : c n = some l) :
    IsChain t.bucketOverflow h (t.bucketOverflow (t.array n)) l := by
  have hb := hs.bucket n hn
  rw [hl] at hb
  exact hb.2

theorem not_bucketIsEmpty (hn : n < t.buckets) (hl : c n = some l) :
    ¬ t.bucketIsEmpty n = true := by
  rw [hs.bucketIsEmpty_iff hn, hl]
  exact Option.some_ne_none l

theorem lookup_ne_none (ha : c.Owns t.buckets a) : h.lookup a ≠ none := by
  obtain ⟨n, hn, l, hl, ha⟩ := ha
  obtain ⟨r, hr⟩ := (hs.chain hn hl).exists_lookup ha
  rw [hr]
  exact Option.some_ne_none r

/-- The rule for a change in one bucket: its records are its own, or new ones. -/
theorem update (ho : OnlyAt h t c h' t' c' n) (hn : n < t.buckets) (hb : BucketIs h' t' n (c' n))
    (hnew : ∀ l a, c' n = some l → a ∈ l → (∃ l', c n = some l' ∧ a ∈ l') ∨
      h.lookup a = none ∧ a ≠ emptyMark) :
    Shape h' t' c' ∧ ∀ a, c'.Owns t'.buckets a → c.Owns t.buckets a ∨ h.lookup a = none := by
  have hB := ho.alike.buckets
  have hvalid : ∀ l a, c' n = some l → a ∈ l → a ≠ emptyMark ∧
      ∀ m < t.buckets, m ≠ n → ∀ l', c m = some l' → a ∉ l' := by
    intro l a hl ha
    rcases hnew l a hl ha with ⟨l', hl', ha'⟩ | ⟨hnone, hmark⟩
    · exact ⟨hs.valid a ⟨n, hn, l', hl', ha'⟩, fun m hm hne k hk hmem =>
        hne (hs.apart m hm n hn k l' a hk hl' hmem ha')⟩
    · exact ⟨hmark, fun m hm _ k hk hmem => hs.lookup_ne_none ⟨m, hm, k, hk, hmem⟩ hnone⟩
  have hbucket : ∀ m < t'.buckets, BucketIs h' t' m (c' m) := by
    intro m hm
    by_cases hmn : m = n
    · exact hmn ▸ hb
    · rw [hB] at hm
      rw [ho.cells m hm hmn]
      exact (hs.bucket m hm).congr ho.alike (ho.array m hm hmn) (ho.lookup m hm hmn)
  refine ⟨⟨ho.alike.layout hs.layout, hB ▸ hs.pos, hbucket, ?_, ?_⟩, ?_⟩
  · intro i hi j hj l l' a hl hl' ha ha'
    rw [hB] at hi hj
    by_cases hin : i = n
    · by_cases hjn : j = n
      · rw [hin, hjn]
      · subst hin
        exact absurd ha' ((hvalid l a hl ha).2 j hj hjn l' (ho.cells j hj hjn ▸ hl'))
    · by_cases hjn : j = n
      · subst hjn
        exact absurd ha ((hvalid l' a hl' ha').2 i hi hin l (ho.cells i hi hin ▸ hl))
      · exact hs.apart i hi j hj l l' a (ho.cells i hi hin ▸ hl) (ho.cells j hj hjn ▸ hl') ha ha'
  · rintro a ⟨i, hi, l, hl, ha⟩
    rw [hB] at hi
    by_cases hin : i = n
    · exact (hvalid l a (hin ▸ hl) ha).1
    · exact hs.valid a ⟨i, hi, l, ho.cells i hi hin ▸ hl, ha⟩
  · rintro a ⟨i, hi, l, hl, ha⟩
    rw [hB] at hi
    by_cases hin : i = n
    · exact (hnew l a (hin ▸ hl) ha).imp (fun ⟨l', h'⟩ => ⟨n, hn, l', h'⟩) And.left
    · exact Or.inl ⟨i, hi, l, ho.cells i hi hin ▸ hl, ha⟩

/-- The record at a place of a bucket. -/
theorem exists_fetch (hn : n < t.buckets) {ref : Ref} (href : ref ∈ refs n (c n)) :
    ∃ r, fetch h t ref = some r := by
  cases ref with
  | head m => exact ⟨_, rfl⟩
  | ext a =>
    obtain ⟨l, hl, ha⟩ := mem_refs_ext.1 href
    exact (hs.chain hn hl).exists_lookup ha

end

end Shape

/-! ## Lookups -/

section Lookup

variable {cmp : List UInt8 → List UInt8 → Bool}

theorem findExt_eq {fuel p : ℕ} (hl : IsChain t.bucketOverflow h p l) (hfuel : l.length ≤ fuel) :
    findExt cmp h t key fuel p =
      .ok ((l.map .ext).find? fun ref => cmp (entryAt h t ref).1 key) := by
  induction l generalizing p fuel with
  | nil =>
    obtain rfl : p = 0 := hl
    cases fuel <;> rfl
  | cons a l ih =>
    obtain ⟨rfl, h0, r, hr, hrest⟩ := hl
    cases fuel with
    | zero => exact absurd hfuel (Nat.not_succ_le_zero _)
    | succ fuel =>
      rw [findExt, if_neg h0, hr, List.map_cons, List.find?_cons, entryAt_ext hr]
      cases hcmp : cmp (t.key r) key with
      | true => simp [IdHash.entry, hcmp]
      | false =>
        simp only [IdHash.entry, hcmp, if_neg Bool.false_ne_true]
        exact ih hrest (Nat.le_of_succ_le_succ hfuel)

/-- A lookup finds the first record of the bucket with an equivalent key. -/
theorem idHashGetWithHashNumber_eq (hs : Shape h t c) (key : List UInt8) (inx : ℕ) :
    idHashGetWithHashNumber cmp h t key inx =
      .ok ((refs (t.home inx) (c (t.home inx))).find? fun ref => cmp (entryAt h t ref).1 key) := by
  have hn := hs.home_lt inx
  rw [idHashGetWithHashNumber]
  generalize t.home inx = n at hn ⊢
  cases hc : c n with
  | none =>
    rw [if_pos ((hs.bucketIsEmpty_iff hn).2 hc)]
    rfl
  | some l =>
    have hentry : (entryAt h t (.head n)).1 = t.key (t.array n) := rfl
    have hchain := hs.chain hn hc
    rw [if_neg (hs.not_bucketIsEmpty hn hc), refs_some, List.find?_cons, hentry]
    cases hcmp : cmp (t.key (t.array n)) key with
    | true => rfl
    | false =>
      rw [if_neg Bool.false_ne_true, findExt_eq hchain (Nat.le_succ_of_le hchain.length_le)]

end Lookup

end Virtuoso.Hash
