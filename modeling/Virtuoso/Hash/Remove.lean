import Virtuoso.Hash.Change

/-!
# Removed entries

A record that is taken out of a chain or out of a bucket removes its entry
(`removeEntry_spec`), and `id_hash_clear` leaves nothing (`idHashClear_spec`).

When the record of a bucket itself goes, `id_hash_remove` copies the first overflow record
over it, but only as many bytes as the *unpadded* sizes add up to.  The key and the data are
always among them (`Layout.entry_copy`); of the overflow pointer the last bytes are left out
if the sizes are no multiples of eight, so the pointer is right only if those bytes of the
old and of the new pointer agree (`HeadSafe`).
-/

namespace Virtuoso.Hash

open Virtuoso.Lib Virtuoso.Lib.Dictionary Function

variable {hashFunc : List UInt8 → ℕ} {cmp : List UInt8 → List UInt8 → Bool}
variable {h h' : Heap Record} {t t' : IdHash} {c c' : Cells} {n : ℕ} {key data : List UInt8}

/-! ## Records in a chain -/

/-- What an unlinked record leaves behind. -/
structure Unlinked (h : Heap Record) (t : IdHash) (prev : Ref) (l : List ℕ) (a : ℕ)
    (h' : Heap Record) (t' : IdHash) : Prop where
  alike : Alike t t'
  chain : ∃ rp, fetch h' t' prev = some rp ∧
    IsChain t.bucketOverflow h' (t.bucketOverflow rp) (l.erase a)
  entry : ∀ ref, ref ≠ .ext a → entryAt h' t' ref = entryAt h t ref
  fetch_eq : ∀ ref, ref ≠ prev → ref ∉ l.map Ref.ext → fetch h' t' ref = fetch h t ref

variable {a p : ℕ} {l : List ℕ}

theorem fetch_erase_of_ne {ref : Ref} (hne : ref ≠ .ext a) :
    fetch (h.erase a) t ref = fetch h t ref := by
  cases ref with
  | head m => rfl
  | ext b => exact AList.lookup_erase_ne fun hb => hne (congrArg _ hb)

/-- The record after `prev` is unlinked. -/
theorem unlinked_first (hlay : Layout t) {prev : Ref} {rp r : Record}
    (hprev : fetch h t prev = some rp) (hnot : prev ≠ .ext a) (hnotl : prev ∉ l.map Ref.ext)
    (hal : a ∉ l) (hrest : IsChain t.bucketOverflow h (t.bucketOverflow r) l) :
    Unlinked h t prev (a :: l) a
      ((put h t (rp.setWord t.extInx (t.bucketOverflow r)) prev).1.erase a)
      (put h t (rp.setWord t.extInx (t.bucketOverflow r)) prev).2 := by
  set rp' := rp.setWord t.extInx (t.bucketOverflow r) with hrp'
  have halike := alike_put (h := h) (t := t) rp' prev
  have hov : t.bucketOverflow rp' = t.bucketOverflow r := Block.word_setWord (Block.word_lt _ _)
  have hfetch : ∀ ref, ref ≠ prev → ref ≠ .ext a →
      fetch ((put h t rp' prev).1.erase a) (put h t rp' prev).2 ref = fetch h t ref :=
    fun ref h₁ h₂ => (fetch_erase_of_ne h₂).trans (fetch_put_of_ne h₁)
  have hself : fetch ((put h t rp' prev).1.erase a) (put h t rp' prev).2 prev = some rp' :=
    (fetch_erase_of_ne hnot).trans (fetch_put_self _ _)
  refine ⟨halike, ⟨rp', hself, ?_⟩, fun ref hne => ?_, fun ref h₁ h₂ => ?_⟩
  · rw [hov, List.erase_cons_head]
    refine hrest.congr fun b hb => ?_
    have := hfetch (.ext b) (fun hp => hnotl (hp ▸ List.mem_map_of_mem hb))
      fun hba => hal (Ref.ext.inj hba ▸ hb)
    exact congrArg (Option.map _) this
  · by_cases hp : ref = prev
    · subst hp
      rw [entryAt, hself, halike.entry, entryAt, hprev]
      exact hlay.entry_setWord rp _
    · exact entryAt_congr halike (hfetch ref hp hne)
  · refine hfetch ref h₁ fun hra => h₂ ?_
    rw [hra]
    exact List.mem_map_of_mem List.mem_cons_self

/-- A record further down the chain is unlinked. -/
theorem Unlinked.cons {prev : Ref} {rp : Record} {p a : ℕ} {l : List ℕ}
    (hu : Unlinked h t (.ext p) l a h' t') (hprev : fetch h t prev = some rp)
    (hov : t.bucketOverflow rp = p) (h0 : p ≠ 0) (hnot : prev ≠ .ext p)
    (hnotl : prev ∉ l.map Ref.ext) (hpa : p ≠ a) : Unlinked h t prev (p :: l) a h' t' := by
  refine ⟨hu.alike, ⟨rp, (hu.fetch_eq prev hnot hnotl).trans hprev, ?_⟩, hu.entry,
    fun ref h₁ h₂ => ?_⟩
  · obtain ⟨r', hr', hchain⟩ := hu.chain
    rw [hov, List.erase_cons_tail (by simpa using hpa)]
    exact ⟨rfl, h0, r', hr', hchain⟩
  · rw [List.map_cons, List.mem_cons, not_or] at h₂
    exact hu.fetch_eq ref h₂.1 h₂.2

/-- The loop of the removals unlinks the first record with an equivalent key. -/
theorem unlinkExt_spec (cmp : List UInt8 → List UInt8 → Bool) (key : List UInt8) (hlay : Layout t)
    {fuel : ℕ} {prev : Ref} {rp : Record} (hl : IsChain t.bucketOverflow h p l)
    (hfuel : l.length ≤ fuel) (hprev : fetch h t prev = some rp) (hov : t.bucketOverflow rp = p)
    (hnot : prev ∉ l.map Ref.ext) :
    (unlinkExt cmp t key h fuel prev p = .ok none ∧
        ∀ a ∈ l, cmp (entryAt h t (.ext a)).1 key = false) ∨
      ∃ a ∈ l, cmp (entryAt h t (.ext a)).1 key = true ∧ ∃ h' t', Unlinked h t prev l a h' t' ∧
        t'.count = t.count ∧
        unlinkExt cmp t key h fuel prev p = .ok (some (entryAt h t (.ext a), h', t')) := by
  induction l generalizing p fuel prev rp with
  | nil =>
    obtain rfl : p = 0 := hl
    refine Or.inl ⟨?_, fun a ha => by cases ha⟩
    cases fuel <;> rfl
  | cons a l ih =>
    have hnodup := List.nodup_cons.1 hl.nodup
    obtain ⟨rfl, h0, r, hr, hrest⟩ := hl
    rw [List.map_cons, List.mem_cons, not_or] at hnot
    cases fuel with
    | zero => exact absurd hfuel (Nat.not_succ_le_zero _)
    | succ fuel =>
      have hentry := entryAt_ext (t := t) hr
      cases hcmp : cmp (t.key r) key with
      | true =>
        refine Or.inr ⟨p, List.mem_cons_self, by rw [hentry]; exact hcmp, _, _,
          unlinked_first hlay hprev hnot.1 hnot.2 hnodup.1 hrest, ?_, ?_⟩
        · cases prev <;> rfl
        · rw [unlinkExt, if_neg h0, hr, hprev, hentry]
          simp only [hcmp, if_true]
          rfl
      | false =>
        have hstep : unlinkExt cmp t key h (fuel + 1) prev p =
            unlinkExt cmp t key h fuel (.ext p) (t.bucketOverflow r) := by
          rw [unlinkExt, if_neg h0, hr, hprev]
          simp only [hcmp, if_neg Bool.false_ne_true]
        rw [hstep]
        have hnotl : Ref.ext p ∉ l.map Ref.ext := fun hmem => by
          obtain ⟨b, hb, hbp⟩ := List.mem_map.1 hmem
          exact hnodup.1 (Ref.ext.inj hbp ▸ hb)
        have hfetch : fetch h t (.ext p) = some r := hr
        rcases ih hrest (Nat.le_of_succ_le_succ hfuel) hfetch rfl hnotl with
          ⟨hnone, hall⟩ | ⟨a, ha, hacmp, h', t', hu, hcount, hsome⟩
        · refine Or.inl ⟨hnone, fun b hb => ?_⟩
          rcases List.mem_cons.1 hb with rfl | hb
          · rw [hentry]
            exact hcmp
          · exact hall b hb
        · refine Or.inr ⟨a, List.mem_cons_of_mem _ ha, hacmp, h', t', ?_, hcount, hsome⟩
          exact hu.cons hprev hov h0 hnot.1 hnot.2 fun hpa => hnodup.1 (hpa ▸ ha)

/-! ## The dictionary without a key -/

/-- The number of bytes of the overflow pointer that are copied with a record. -/
def IdHash.copiedOverflow (t : IdHash) : ℕ := t.dataLength + t.keyLength + 8 - t.extInx

/-- If the bucket's own record is the key's, then the bytes of the overflow pointer that are
not copied are the same in the record that replaces it. -/
def HeadSafe (hashFunc : List UInt8 → ℕ) (cmp : List UInt8 → List UInt8 → Bool)
    (h : Heap Record) (t : IdHash) (key : List UInt8) : Prop :=
  t.bucketIsEmpty (t.home (hashFunc key)) = false →
    cmp (t.key (t.array (t.home (hashFunc key)))) key = true →
    ∀ r, h.lookup (t.bucketOverflow (t.array (t.home (hashFunc key)))) = some r →
      t.bucketOverflow r / 256 ^ t.copiedOverflow =
        t.bucketOverflow (t.array (t.home (hashFunc key))) / 256 ^ t.copiedOverflow

/-- A chain of records does not start with the mark of an empty bucket. -/
theorem Shape.start_ne (hl : IsChain t.bucketOverflow h' p l) (hv : ∀ a ∈ l, a ≠ emptyMark) :
    p ≠ emptyMark := by
  cases l with
  | nil =>
    rw [show p = 0 from hl]
    norm_num [emptyMark]
  | cons a l => exact hl.1 ▸ hv a List.mem_cons_self

/-- Removing an absent key changes nothing. -/
theorem Holds.remove_absent (hh : Holds hashFunc cmp h t c)
    (habs : Absent cmp (contents h t c) key) :
    Became hashFunc cmp h t c (remove cmp (contents h t c) key) h t c := by
  rw [habs.remove]
  exact .refl hh

section Removed

variable (hc : Consistent hashFunc cmp) (hh : Holds hashFunc cmp h t c)
include hc hh

/-- The record of a bucket is taken out. -/
theorem unlinkHead_spec (hcell : c (t.home (hashFunc key)) = some l)
    (hcmp : cmp (t.key (t.array (t.home (hashFunc key)))) key = true)
    (hsafe : HeadSafe hashFunc cmp h t key) :
    ∃ s c', unlinkHead h t (t.home (hashFunc key)) = .ok s ∧ s.2.count = t.count ∧
      Became hashFunc cmp h t c (remove cmp (contents h t c) key) s.1 s.2 c' := by
  have hlt := hh.shape.home_lt (hashFunc key)
  have hchain := hh.shape.chain hlt hcell
  have hsafe := hsafe (Bool.not_eq_true _ ▸ hh.shape.not_bucketIsEmpty hlt hcell) hcmp
  set n := t.home (hashFunc key) with hn
  have hremove : remove cmp (entriesOf h t c n) key = l.map fun a => entryAt h t (.ext a) := by
    have hmem : Ref.head n ∈ refs n (c n) := by rw [hcell]; exact List.mem_cons_self
    rw [entriesOf, (hh.split.distinct n hlt).remove_map hc.keyEq hmem hcmp, hcell, refs_some,
      List.erase_cons_head, List.map_map]
    rfl
  rw [unlinkHead]
  cases l with
  | nil =>
    -- nothing follows: the bucket is marked empty
    rw [if_pos (show t.bucketOverflow (t.array n) = 0 from hchain)]
    refine ⟨_, update c n none, rfl, rfl, ?_⟩
    have ho : Shape.OnlyAt h t c h (t.putHead n ((t.array n).setWord t.extInx emptyMark))
        (update c n none) n :=
      onlyAt_putHead (Alike.refl t) rfl _ _ fun _ _ _ _ _ _ _ => rfl
    refine hh.became ho hlt ?_ (fun l' a hl' => ?_) (fun _ _ _ => rfl) (hh.split.remove
      (hc.home_eq t) hc.keyEq hlt (fun j hj hne => ho.entriesOf hj hne) (List.Perm.of_eq ?_))
    · rw [update_self, BucketIs, ho.alike.bucketOverflow]
      change t.bucketOverflow (update t.array n _ n) = _
      rw [update_self]
      exact Block.word_setWord (by norm_num [emptyMark])
    · rw [update_self] at hl'
      cases hl'
    · rw [hremove, entriesOf, update_self]
      rfl
  | cons a l =>
    obtain ⟨hpa, h0, r, hr, hrest⟩ := hchain
    have hnodup := (hh.shape.chain hlt hcell).nodup
    rw [if_neg (by rw [hpa]; exact h0), hpa, hr]
    refine ⟨_, update c n (some l), rfl, rfl, ?_⟩
    set r' := (t.array n).blit 0 (r.slice 0 (t.dataLength + t.keyLength + 8)) with hr'
    have hhead : (t.putHead n r').array n = r' := update_self _ _ _
    have hov : t.bucketOverflow r' = t.bucketOverflow r :=
      Block.word_copy (hsafe r (by rw [hpa]; exact hr))
    have hother : ∀ b, b ≠ a → (h.erase a).lookup b = h.lookup b := fun b hb =>
      AList.lookup_erase_ne hb
    have hin : ∀ b ∈ l, b ≠ a := fun b hb hba => (List.nodup_cons.1 hnodup).1 (hba ▸ hb)
    have hown : ∀ b ∈ a :: l, c.Owns t.buckets b := fun b hb => ⟨n, hlt, _, hcell, hb⟩
    have ho : Shape.OnlyAt h t c (h.erase a) (t.putHead n r') (update c n (some l)) n :=
      onlyAt_putHead (Alike.refl t) rfl _ _ fun m hm hne l' hl' b hb => hother b fun hba =>
        hne (hh.shape.apart m hm n hlt l' _ a hl' hcell (hba ▸ hb) List.mem_cons_self)
    refine hh.became ho hlt ?_ (fun l' b hl' hb => Or.inl ?_)
      (fun b hb _ => hother b fun hba => hb (hba ▸ hown a List.mem_cons_self)) (hh.split.remove
        (hc.home_eq t) hc.keyEq hlt (fun j hj hne => ho.entriesOf hj hne) (List.Perm.of_eq ?_))
    · rw [update_self, BucketIs, ho.alike.bucketOverflow, hhead, hov]
      exact ⟨Shape.start_ne hrest fun b hb => hh.shape.valid b (hown b (List.mem_cons_of_mem _ hb)),
        hrest.congr fun b hb => by rw [hother b (hin b hb)]⟩
    · rw [update_self] at hl'
      cases hl'
      exact ⟨_, hcell, List.mem_cons_of_mem _ hb⟩
    · rw [hremove, entriesOf, update_self, refs_some, List.map_cons, List.map_cons,
        List.map_map]
      refine congrArg₂ _ ?_ (List.map_congr_left fun b hb => ?_)
      · rw [entryAt_head ho.alike, hhead, hh.shape.layout.entry_copy, entryAt_ext hr]
      · exact entryAt_congr ho.alike (hother b (hin b hb))

/-- A record of the chain is taken out. -/
theorem Holds.unlinked (hcell : c (t.home (hashFunc key)) = some l) (ha : a ∈ l)
    (hacmp : cmp (entryAt h t (.ext a)).1 key = true)
    (hu : Unlinked h t (.head (t.home (hashFunc key))) l a h' t') :
    Became hashFunc cmp h t c (remove cmp (contents h t c) key) h' t'
      (update c (t.home (hashFunc key)) (some (l.erase a))) := by
  have hlt := hh.shape.home_lt (hashFunc key)
  have hnodup := (hh.shape.chain hlt hcell).nodup
  set n := t.home (hashFunc key) with hn
  have hmem : Ref.ext a ∈ refs n (c n) := mem_refs_ext.2 ⟨l, hcell, ha⟩
  have ho : Shape.OnlyAt h t c h' t' (update c n (some (l.erase a))) n := by
    refine onlyAt_of_fetch hh.shape hlt hu.alike (fun m _ hne => update_of_ne hne _ _)
      fun ref hr hne => hu.fetch_eq ref (fun hp => hne n hp rfl) fun hm => hr ?_
    rw [hcell]
    exact List.mem_cons_of_mem _ hm
  refine hh.became ho hlt ?_ (fun l' b hl' hb => Or.inl ?_) (fun b hb _ => ?_) (hh.split.remove
    (hc.home_eq t) hc.keyEq hlt (fun j hj hne => ho.entriesOf hj hne) (List.Perm.of_eq ?_))
  · obtain ⟨rp, hrp, hch⟩ := hu.chain
    obtain rfl : t'.array n = rp := Option.some.inj hrp
    rw [update_self, BucketIs, hu.alike.bucketOverflow]
    exact ⟨Shape.start_ne hch fun b hb =>
      hh.shape.valid b ⟨n, hlt, l, hcell, List.mem_of_mem_erase hb⟩, hch⟩
  · rw [update_self] at hl'
    cases hl'
    exact ⟨l, hcell, List.mem_of_mem_erase hb⟩
  · refine hu.fetch_eq (.ext b) (by simp) fun hm => hb ?_
    obtain ⟨b', hb', hbb⟩ := List.mem_map.1 hm
    exact ⟨n, hlt, l, hcell, Ref.ext.inj hbb ▸ hb'⟩
  · have herase : (refs n (c n)).erase (.ext a) = refs n (some (l.erase a)) := by
      rw [hcell, refs_some, refs_some, List.erase_cons_tail (by simp),
        List.map_erase (f := Ref.ext) (fun x y hxy => Ref.ext.inj hxy)]
    rw [entriesOf, update_self, entriesOf,
      (hh.split.distinct n hlt).remove_map hc.keyEq hmem hacmp, herase]
    refine List.map_congr_left fun ref href => hu.entry ref ?_
    rintro rfl
    obtain ⟨l', hl', ha'⟩ := mem_refs_ext.1 href
    cases hl'
    exact (hnodup.mem_erase_iff.1 ha').1 rfl

/-- The removals answer with the entry of the key and take it out. -/
theorem removeEntry_spec (hsafe : HeadSafe hashFunc cmp h t key) :
    ∃ s c', removeEntry hashFunc cmp h t key = .ok s ∧
      s.1 = lookup cmp (contents h t c) key ∧
      s.2.2.count = (if s.1.isSome then (t.count + (2 ^ 32 - 1)) % 2 ^ 32 else t.count) ∧
      Became hashFunc cmp h t c (remove cmp (contents h t c) key) s.2.1 s.2.2 c' := by
  have hlt := hh.shape.home_lt (hashFunc key)
  have hlookup := hh.lookup_home hc key
  have hdist := hh.split.distinct _ hlt
  simp only [removeEntry]
  cases hcell : c (t.home (hashFunc key)) with
  | none =>
    have hnone : lookup cmp (contents h t c) key = none := by
      rw [hlookup, entriesOf, hcell]
      rfl
    rw [if_pos ((hh.shape.bucketIsEmpty_iff hlt).2 hcell)]
    exact ⟨_, c, rfl, hnone.symm, rfl, hh.remove_absent (lookup_eq_none.1 hnone)⟩
  | some l =>
    rw [if_neg (hh.shape.not_bucketIsEmpty hlt hcell)]
    have hhead : Ref.head (t.home (hashFunc key)) ∈
        refs (t.home (hashFunc key)) (c (t.home (hashFunc key))) := by
      rw [hcell]
      exact List.mem_cons_self
    cases hcmp : cmp (t.key (t.array (t.home (hashFunc key)))) key with
    | true =>
      obtain ⟨s, c', hs, hcount, hb⟩ := unlinkHead_spec hc hh hcell hcmp hsafe
      rw [if_pos rfl, hs]
      have hu : Alike s.2 s.2.deleted := ⟨rfl, rfl, rfl, rfl, rfl, rfl⟩
      refine ⟨_, c', rfl, ?_, ?_, hb.counters hu rfl⟩
      · rw [hlookup, entriesOf, hdist.lookup_map hc.keyEq hhead hcmp]
        rfl
      · rw [Option.isSome_some, if_pos rfl, ← hcount]
        rfl
    | false =>
      rw [if_neg Bool.false_ne_true]
      have hchain := hh.shape.chain hlt hcell
      have hprev : fetch h t (.head (t.home (hashFunc key))) =
        some (t.array (t.home (hashFunc key))) := rfl
      rcases unlinkExt_spec cmp key hh.shape.layout hchain
          (Nat.le_succ_of_le hchain.length_le) hprev rfl (by simp) with
        ⟨hnone, hall⟩ | ⟨a, ha, hacmp, h', t', hu, hcount, hsome⟩
      · rw [hnone]
        have hlook : lookup cmp (contents h t c) key = none := by
          rw [hlookup, lookup_eq_none]
          intro e he
          obtain ⟨ref, href, rfl⟩ := List.mem_map.1 he
          rw [hcell, refs_some, List.mem_cons] at href
          rcases href with rfl | href
          · exact hcmp
          · obtain ⟨a, ha, rfl⟩ := List.mem_map.1 href
            exact hall a ha
        exact ⟨_, c, rfl, hlook.symm, rfl, hh.remove_absent (lookup_eq_none.1 hlook)⟩
      · rw [hsome]
        have hu' : Alike t' t'.deleted := ⟨rfl, rfl, rfl, rfl, rfl, rfl⟩
        refine ⟨_, _, rfl, ?_, ?_, (hh.unlinked hc hcell ha hacmp hu).counters hu' rfl⟩
        · rw [hlookup, entriesOf,
            hdist.lookup_map hc.keyEq (mem_refs_ext.2 ⟨l, hcell, ha⟩) hacmp]
        · rw [Option.isSome_some, if_pos rfl, ← hcount]
          rfl

end Removed

/-! ## Clearing -/

theorem freeChain_spec {fuel : ℕ} (hl : IsChain t.bucketOverflow h p l) (hfuel : l.length ≤ fuel) :
    ∃ h', freeChain t fuel h p = .ok h' ∧ ∀ a ∉ l, h'.lookup a = h.lookup a := by
  induction l generalizing p fuel h with
  | nil =>
    obtain rfl : p = 0 := hl
    refine ⟨h, ?_, fun _ _ => rfl⟩
    cases fuel <;> rfl
  | cons a l ih =>
    have hnodup := List.nodup_cons.1 hl.nodup
    obtain ⟨rfl, h0, r, hr, hrest⟩ := hl
    cases fuel with
    | zero => exact absurd hfuel (Nat.not_succ_le_zero _)
    | succ fuel =>
      have hrest' : IsChain t.bucketOverflow (h.erase p) (t.bucketOverflow r) l :=
        hrest.congr fun b hb => by
          have hne : b ≠ p := fun hbp => hnodup.1 (hbp ▸ hb)
          rw [AList.lookup_erase_ne hne]
      obtain ⟨h', hh', hkeep⟩ := ih hrest' (Nat.le_of_succ_le_succ hfuel)
      refine ⟨h', ?_, fun b hb => ?_⟩
      · rw [freeChain, if_neg h0, hr]
        exact hh'
      · rw [List.mem_cons, not_or] at hb
        rw [hkeep b hb.2, AList.lookup_erase_ne hb.1]

/-- The buckets below `i` have been cleared. -/
structure ClearedTo (h : Heap Record) (t : IdHash) (c : Cells) (i : ℕ)
    (s : Heap Record × IdHash) : Prop where
  alike : Alike t s.2
  empty : ∀ m < i, t.bucketOverflow (s.2.array m) = emptyMark
  array : ∀ m, i ≤ m → s.2.array m = t.array m
  keep : ∀ a, ¬ c.Owns i a → s.1.lookup a = h.lookup a

theorem clearBucket_spec (hs : Shape h t c) {i : ℕ} (hi : i < t.buckets)
    {s : Heap Record × IdHash} (hc : ClearedTo h t c i s) :
    ∃ s', clearBucket s i = .ok s' ∧ ClearedTo h t c (i + 1) s' := by
  have hold : ∀ a, ¬ c.Owns (i + 1) a → ¬ c.Owns i a := fun a hno ⟨m, hm, hown⟩ =>
    hno ⟨m, Nat.lt_succ_of_lt hm, hown⟩
  have hhead := hc.array i le_rfl
  have hempty : s.2.bucketIsEmpty i = t.bucketIsEmpty i := by
    rw [IdHash.bucketIsEmpty, IdHash.bucketIsEmpty, hc.alike.bucketOverflow, hhead]
  rw [clearBucket, hempty]
  cases hcell : c i with
  | none =>
    have he := (hs.bucketIsEmpty_iff hi).2 hcell
    rw [if_pos he]
    refine ⟨s, rfl, hc.alike, fun m hm => ?_, fun m hm => hc.array m (Nat.le_of_succ_le hm),
      fun a ha => hc.keep a (hold a ha)⟩
    rcases Nat.lt_succ_iff_lt_or_eq.1 hm with hm | rfl
    · exact hc.empty m hm
    · rw [hhead]
      exact of_decide_eq_true he
  | some l =>
    rw [if_neg (hs.not_bucketIsEmpty hi hcell)]
    -- the bucket's own records are still where they were
    have hchain : IsChain s.2.bucketOverflow s.1 (s.2.bucketOverflow (s.2.array i)) l := by
      rw [hc.alike.bucketOverflow, hhead]
      refine (hs.chain hi hcell).congr fun a ha => ?_
      rw [hc.keep a]
      rintro ⟨m, hm, l', hl', ha'⟩
      have := hs.apart m (hm.trans hi) i hi l' l a hl' hcell ha' ha
      omega
    obtain ⟨h', hfree, hkeep⟩ := freeChain_spec hchain (Nat.le_succ_of_le hchain.length_le)
    rw [hfree]
    have hnew := alike_putHead s.2 i ((s.2.array i).setWord s.2.extInx emptyMark)
    refine ⟨_, rfl, hc.alike.trans hnew, fun m hm => ?_, fun m hm => ?_, fun a ha => ?_⟩
    · change t.bucketOverflow (update s.2.array i _ m) = _
      rcases Nat.lt_succ_iff_lt_or_eq.1 hm with hm | rfl
      · rw [update_of_ne (by omega)]
        exact hc.empty m hm
      · rw [update_self, hc.alike.extInx]
        exact Block.word_setWord (by norm_num [emptyMark])
    · change update s.2.array i _ m = _
      rw [update_of_ne (by omega)]
      exact hc.array m (Nat.le_of_succ_le hm)
    · have hal : a ∉ l := fun hmem => ha ⟨i, Nat.lt_succ_self i, l, hcell, hmem⟩
      exact (hkeep a hal).trans (hc.keep a (hold a ha))

/-- Clearing a table leaves it empty and frees no record of another table. -/
theorem idHashClear_spec (hs : Shape h t c) :
    ∃ s, idHashClear h t = .ok s ∧ Alike t s.2 ∧ s.2.count = 0 ∧
      Shape s.1 s.2 (fun _ => none) ∧ ∀ a, ¬ c.Owns t.buckets a → s.1.lookup a = h.lookup a := by
  obtain ⟨s, hfold, i, hi, hl, hcl⟩ := foldlM_ok (f := clearBucket) (l := List.range t.buckets)
    (b := (h, t))
    (I := fun l s => ∃ i ≤ t.buckets, l = List.range' i (t.buckets - i) ∧ ClearedTo h t c i s)
    (fun a l s ⟨i, hi, hl, hcl⟩ => by
      have hlen := congrArg List.length hl
      rw [List.length_cons, List.length_range'] at hlen
      rw [show t.buckets - i = t.buckets - (i + 1) + 1 by omega, List.range'_succ] at hl
      obtain ⟨rfl, rfl⟩ := List.cons.inj hl
      obtain ⟨s', hs', hcl'⟩ := clearBucket_spec hs (by omega) hcl
      exact ⟨s', hs', a + 1, by omega, rfl, hcl'⟩)
    ⟨0, Nat.zero_le _, List.range_eq_range', Alike.refl t, by omega, fun _ _ => rfl, fun _ _ => rfl⟩
  obtain rfl : i = t.buckets := by
    have := congrArg List.length hl
    rw [List.length_nil, List.length_range'] at this
    omega
  rw [idHashClear, hfold]
  have ha : Alike t { s.2 with inserts := 0, deletes := 0, overflows := 0, count := 0 } :=
    hcl.alike.trans ⟨rfl, rfl, rfl, rfl, rfl, rfl⟩
  refine ⟨_, rfl, ha, rfl, ⟨ha.layout hs.layout, ha.buckets ▸ hs.pos, fun n hn => ?_, ?_, ?_⟩,
    hcl.keep⟩
  · rw [BucketIs, ha.bucketOverflow]
    exact hcl.empty n (ha.buckets ▸ hn)
  · intro n _ m _ l l' a hl
    cases hl
  · rintro a ⟨n, _, l, hl, _⟩
    cases hl

end Virtuoso.Hash
