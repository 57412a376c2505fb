import Mathlib.Data.Fintype.Card
import Smg.Tokenizer.MergeLoad

/-!
# The table of merges holds the last merge of each pair

The buckets are the cells of a linear-probing table (`Smg.Lib.LinearProbe`), four to a bucket: the
cell `j` is the entry `j % 4` of the bucket `j / 4`, and the home of a pair is the first cell of the
bucket that its hash picks.  `Filled table content count` says so, that the filter lets every
recorded pair through, and that fewer pairs are recorded than there are cells.

* `Filled.insert`: recording a pair always finds a slot and updates the content.
* `Filled.mergeOf`: **the lookup answers the content**, whatever the filter says of other pairs.
* `ofEntries_spec`: the table of a list of merges answers the last merge of each pair, from the grid
  as from the buckets.

One pair has the key of an empty entry: `u32::MAX` with itself.  Recording it leaves its merge in an
entry that stays empty, and does not disturb the others; what is answered for it is what the empty
entries it comes to hold.
-/

set_option autoImplicit false

namespace Smg.Tokenizer

open LinearProbe Function List
open Option (bind_some bind_eq_bind map_some)

/-! ## Words and bits -/

theorem packed_toNat (hi lo : UInt32) : (packed hi lo).toNat = hi.toNat * 2 ^ 32 + lo.toNat := by
  have hhi : hi.toNat < 2 ^ 32 := hi.toNat_lt
  have hlo : lo.toNat < 2 ^ 32 := lo.toNat_lt
  have hshift : (hi.toUInt64 <<< 32).toNat = hi.toNat <<< 32 := by
    change (hi.toNat <<< 32) % 2 ^ 64 = _
    rw [Nat.mod_eq_of_lt (by omega)]
  rw [packed, UInt64.toNat_or, hshift, UInt32.toNat_toUInt64, ← Nat.shiftLeft_add_eq_or_of_lt hlo,
    Nat.shiftLeft_eq]

namespace Merge

@[simp] theorem rank_new (rank product : UInt32) : (new rank product).rank = rank := by
  rw [← UInt32.toNat_inj, Merge.rank, UInt64.toNat_toUInt32]
  change (packed rank product).toNat >>> 32 % 2 ^ 32 = _
  have := rank.toNat_lt
  have := product.toNat_lt
  rw [packed_toNat]
  omega

@[simp] theorem product_new (rank product : UInt32) : (new rank product).product = product := by
  rw [← UInt32.toNat_inj, Merge.product]
  change (packed rank product).toNat % 2 ^ 32 = _
  have := product.toNat_lt
  rw [packed_toNat]
  omega

theorem new_ne_none {rank product : UInt32} (h : rank ≠ noRank) : new rank product ≠ none := by
  intro heq
  refine h ?_
  rw [← rank_new rank product, heq]
  rfl

end Merge

namespace MergeTable

theorem pairKey_inj {a b a' b' : UInt32} (h : pairKey a b = pairKey a' b') : a = a' ∧ b = b' := by
  have hnat := congrArg UInt64.toNat h
  rw [pairKey, pairKey, packed_toNat, packed_toNat] at hnat
  have := b.toNat_lt
  have := b'.toNat_lt
  rw [← UInt32.toNat_inj, ← UInt32.toNat_inj]
  omega

theorem pairKey_eq_emptyKey {a b : UInt32} :
    pairKey a b = emptyKey ↔ a = noSymbol ∧ b = noSymbol := by
  have hmax : emptyKey = pairKey noSymbol noSymbol := by decide
  rw [hmax]
  exact ⟨pairKey_inj, fun ⟨ha, hb⟩ => by rw [ha, hb]⟩

variable {k : Nat}

theorem shiftRight_toNat_lt (x : UInt64) (hk : 1 ≤ k) :
    (x >>> UInt64.ofNat (64 - k)).toNat < 2 ^ k := by
  have hx : x.toNat < 2 ^ 64 := x.toNat_lt
  have hshift : (UInt64.ofNat (64 - k)).toNat % 64 = 64 - k := by
    rw [UInt64.toNat_ofNat_of_lt' (show 64 - k < 2 ^ 64 by omega)]
    omega
  rw [UInt64.toNat_shiftRight, hshift, Nat.shiftRight_eq_div_pow,
    Nat.div_lt_iff_lt_mul (Nat.two_pow_pos _), ← pow_add]
  exact hx.trans_le (Nat.pow_le_pow_right (by omega) (by omega))

theorem and_or_of_and {old bits b : UInt64} (h : old &&& b = b) : (old ||| bits) &&& b = b := by
  rw [← UInt64.toNat_inj] at h ⊢
  rw [UInt64.toNat_and] at h
  rw [UInt64.toNat_and, UInt64.toNat_or]
  refine Nat.eq_of_testBit_eq fun i => ?_
  have hi := congrArg (Nat.testBit · i) h
  simp only [Nat.testBit_and, Nat.testBit_or] at hi ⊢
  revert hi
  cases old.toNat.testBit i <;> cases b.toNat.testBit i <;> simp

theorem or_and_self (old bits : UInt64) : (old ||| bits) &&& bits = bits := by
  rw [UInt64.or_comm]
  exact and_or_of_and UInt64.and_self

/-! ## The buckets as cells -/

/-- What an entry holds, if it is not empty. -/
def cellOf (e : Entry) : Option (UInt64 × Merge) :=
  if e.key = emptyKey then none else some (e.key, e.merge)

/-- What a cell holds, if it is not empty. -/
def cells (buckets : List Bucket) (j : Nat) : Option (UInt64 × Merge) :=
  (buckets[j / 4]?).bind fun entries => (entries[j % 4]?).bind cellOf

variable {buckets : List Bucket} {b : Nat} {e : Entry}

theorem cellOf_eq_none : cellOf e = none ↔ e.key = emptyKey := by simp [cellOf]

theorem cellOf_eq_some {x : UInt64 × Merge} :
    cellOf e = some x ↔ e.key ≠ emptyKey ∧ (e.key, e.merge) = x := by simp [cellOf]

theorem cells_of_getElem? {slot : Nat} {entries : Bucket} (hb : buckets[b]? = some entries)
    (hslot : slot < 4) (he : entries[slot]? = some e) :
    cells buckets (4 * b + slot) = cellOf e := by
  have hdiv : (4 * b + slot) / 4 = b := by omega
  have hmod : (4 * b + slot) % 4 = slot := by omega
  rw [cells, hdiv, hmod, hb, bind_some, he, bind_some]

/-- Writing an entry writes its cell. -/
theorem cells_set {slot : Nat} {entries : Bucket} (hb : buckets[b]? = some entries)
    (hslot : slot < 4) (hlen : slot < entries.length) (e : Entry) :
    cells (buckets.set b (entries.set slot e)) =
      update (cells buckets) (4 * b + slot) (cellOf e) := by
  obtain ⟨hlt, -⟩ := List.getElem?_eq_some_iff.mp hb
  funext j
  by_cases hj : j = 4 * b + slot
  · subst hj
    rw [update_self, cells_of_getElem? (getElem?_set_self hlt) hslot (getElem?_set_self hlen)]
  · rw [update_of_ne hj, cells, cells]
    by_cases hjb : j / 4 = b
    · have hne : slot ≠ j % 4 := by omega
      rw [hjb, getElem?_set_self hlt, hb, bind_some, bind_some, getElem?_set_ne hne]
    · rw [getElem?_set_ne (Ne.symm hjb)]

variable {j : Nat}

theorem exists_entry (hsize : ∀ entries ∈ buckets, entries.length = 4)
    (hj : j < 4 * buckets.length) :
    ∃ entries e, buckets[j / 4]? = some entries ∧ entries[j % 4]? = some e ∧
      cells buckets j = cellOf e := by
  have hb : j / 4 < buckets.length := by omega
  have hlen := hsize _ (getElem_mem hb)
  have hslot : j % 4 < buckets[j / 4].length := by omega
  refine ⟨_, _, getElem?_eq_getElem hb, getElem?_eq_getElem hslot, ?_⟩
  rw [cells, getElem?_eq_getElem hb, bind_some, getElem?_eq_getElem hslot]
  rfl

/-! ## Looking into one bucket -/

theorem bucketLook_append (key : UInt64) (entries : Bucket) (e : Entry) :
    bucketLook key (entries ++ [e]) =
      (if e.key = key then e.merge else (bucketLook key entries).1,
        (bucketLook key entries).2 || e.key == emptyKey) := by
  rw [bucketLook, foldl_append]
  rfl

theorem bucketLook_snd (key : UInt64) (entries : Bucket) :
    (bucketLook key entries).2 = true ↔ ∃ e ∈ entries, e.key = emptyKey := by
  induction entries using reverseRecOn with
  | nil => simp [bucketLook]
  | append_singleton entries e ih =>
    rw [bucketLook_append, Bool.or_eq_true, ih]
    simp only [mem_append, mem_singleton, beq_iff_eq, or_and_right, exists_or, exists_eq_left]

variable {key : UInt64} {m : Merge}

theorem bucketLook_fst (key : UInt64) (entries : Bucket) :
    (∀ e ∈ entries, e.key ≠ key) ∧ (bucketLook key entries).1 = Merge.none ∨
      ∃ e ∈ entries, e.key = key ∧ (bucketLook key entries).1 = e.merge := by
  induction entries using reverseRecOn with
  | nil => exact .inl ⟨by simp, rfl⟩
  | append_singleton entries e ih =>
    rw [bucketLook_append]
    by_cases hk : e.key = key
    · exact .inr ⟨e, by simp, hk, if_pos hk⟩
    · rw [if_neg hk]
      rcases ih with ⟨hno, hnone⟩ | ⟨x, hx, hx'⟩
      · exact .inl ⟨by simpa [or_imp, forall_and, hk] using hno, hnone⟩
      · exact .inr ⟨x, by simp [hx], hx'⟩

/-! ## The loops over the buckets as walks -/

theorem and_length_sub_one {n : Nat} (hn : n = 2 ^ k) (i : Nat) :
    (i + 1) &&& (n - 1) = (i + 1) % n := by
  rw [hn, Nat.and_two_pow_sub_one_eq_mod]

def slotLook (key : UInt64) (buckets : List Bucket) (b : Nat) : Option (Nat × Nat) :=
  (buckets[b]?).bind fun entries => (entries.findIdx? (slotFor key)).map fun slot => (b, slot)

def setEntry (buckets : List Bucket) (e : Entry) (x : Nat × Nat) : List Bucket :=
  buckets.set x.1 (((buckets[x.1]?).getD []).set x.2 e)

variable {merge : Merge}

theorem insertFrom_eq_walk (hk : buckets.length = 2 ^ k) (turns : Nat) (hb : b < buckets.length) :
    insertFrom key merge buckets turns b =
      (walk buckets.length (slotLook key buckets) turns b).map (setEntry buckets ⟨key, merge⟩) := by
  induction turns generalizing b with
  | zero => rfl
  | succ turns ih =>
    have hget := getElem?_eq_getElem hb
    rw [insertFrom, walk, slotLook, hget, bind_some]
    dsimp only
    cases hslot : (buckets[b]).findIdx? (slotFor key) with
    | some slot =>
      simp [setEntry, hget]
    | none =>
      rw [and_length_sub_one hk]
      exact ih (succ_lt hb)

def mergeLook (key : UInt64) (buckets : List Bucket) (b : Nat) : Option Merge :=
  (buckets[b]?).bind fun entries =>
    if (bucketLook key entries).1 ≠ Merge.none || (bucketLook key entries).2 then
      some (bucketLook key entries).1
    else none

/-- What a bucket that answers has found. -/
theorem eq_of_mergeLook {found : Merge} (hj : j < buckets.length)
    (hlook : mergeLook key buckets j = some found) :
    found = (bucketLook key buckets[j]).1 := by
  rw [mergeLook, getElem?_eq_getElem hj, bind_some] at hlook
  split at hlook
  · exact (Option.some.inj hlook).symm
  · cases hlook

theorem mergeFrom_eq_walk (hk : buckets.length = 2 ^ k) (turns : Nat) (hb : b < buckets.length) :
    mergeFrom key buckets turns b = walk buckets.length (mergeLook key buckets) turns b := by
  induction turns generalizing b with
  | zero => rfl
  | succ turns ih =>
    have hget := getElem?_eq_getElem hb
    rw [mergeFrom, walk, mergeLook, hget, bind_some]
    dsimp only
    split
    · rfl
    · rw [and_length_sub_one hk]
      exact ih (succ_lt hb)

/-! ## The invariant -/

/-- A list of a power of two words, and the shift that takes a hash to one of them. -/
def Addressed {α : Type} (words : List α) (shift : Nat) : Prop :=
  ∃ k, 1 ≤ k ∧ words.length = 2 ^ k ∧ shift = 64 - k

theorem Addressed.lt {α : Type} {words : List α} {shift : Nat} (h : Addressed words shift)
    (hash : UInt64) : (hash >>> UInt64.ofNat shift).toNat < words.length := by
  obtain ⟨k, hk, hlen, rfl⟩ := h
  rw [hlen]
  exact shiftRight_toNat_lt hash hk

theorem Addressed.of_length {α β : Type} {words : List α} {words' : List β} {shift : Nat}
    (h : Addressed words shift) (hlen : words'.length = words.length) : Addressed words' shift := by
  obtain ⟨k, hk, hwords, hshift⟩ := h
  exact ⟨k, hk, hlen.trans hwords, hshift⟩

/-- The table holds `content`, which is that of at most `count` pairs.  An empty entry holds no
merge, or a `stray` one. -/
structure Filled (table : MergeTable) (stray : Merge → Prop) (content : UInt64 → Option Merge)
    (count : Nat) : Prop where
  addressed : Addressed table.buckets table.shift
  size : ∀ entries ∈ table.buckets, entries.length = 4
  blank : ∀ entries ∈ table.buckets, ∀ e ∈ entries, e.key = emptyKey →
    e.merge = Merge.none ∨ stray e.merge
  probing : Probing (4 * table.buckets.length) (fun key => 4 * table.firstBucket key)
    (cells table.buckets)
  holds : ∀ key m, content key = some m ↔
    ∃ j < 4 * table.buckets.length, cells table.buckets j = some (key, m)
  real : ∀ key m, content key = some m → m ≠ Merge.none
  filterAddressed : Addressed table.pairFilter table.pairFilterShift
  /-- The filter lets the pairs of the table through. -/
  passes : ∀ key m, content key = some m → ∃ word,
    table.pairFilter[(table.pairFilterSlot key).1]? = some word ∧
      word &&& (table.pairFilterSlot key).2 = (table.pairFilterSlot key).2
  few : ∃ keys : Finset UInt64, keys.card ≤ count ∧ ∀ key m, content key = some m → key ∈ keys

namespace Filled

variable {table : MergeTable} {stray : Merge → Prop} {content : UInt64 → Option Merge} {count : Nat}

section

variable (h : Filled table stray content count)

include h

theorem firstBucket_lt (key : UInt64) :
    table.firstBucket key < table.buckets.length := h.addressed.lt _

/-- A table with more cells than pairs has a free one. -/
theorem exists_free (hcount : count < 4 * table.buckets.length) :
    ∃ j < 4 * table.buckets.length, cells table.buckets j = none := by
  by_contra hnone
  have hall : ∀ j < 4 * table.buckets.length, ∃ x, cells table.buckets j = some x := fun j hj =>
    Option.ne_none_iff_exists'.mp fun hfree => hnone ⟨j, hj, hfree⟩
  obtain ⟨keys, hcard, hmem⟩ := h.few
  have hle : (Finset.range (4 * table.buckets.length)).card ≤ keys.card := by
    refine Finset.card_le_card_of_injOn
      (fun j => ((cells table.buckets j).getD (0, Merge.none)).1) ?_ ?_
    · intro j hj
      obtain ⟨⟨key, m⟩, hx⟩ := hall j (mem_range.mp hj)
      simp only [hx]
      exact hmem key m ((h.holds key m).mpr ⟨j, mem_range.mp hj, hx⟩)
    · intro i hi j hj heq
      obtain ⟨⟨key, m⟩, hx⟩ := hall i (mem_range.mp hi)
      obtain ⟨⟨key', m'⟩, hx'⟩ := hall j (mem_range.mp hj)
      simp only [hx, hx'] at heq
      subst heq
      exact h.probing.unique i (mem_range.mp hi) j (mem_range.mp hj) key m m' hx hx'
  rw [Finset.card_range] at hle
  omega

theorem entry_eq {entries : Bucket} (hb : table.buckets[b]? = some entries) (he : e ∈ entries) :
    ∃ slot < 4, 4 * b + slot < 4 * table.buckets.length ∧ entries[slot]? = some e ∧
      cells table.buckets (4 * b + slot) = cellOf e := by
  obtain ⟨slot, hslot, rfl⟩ := mem_iff_getElem.mp he
  obtain ⟨hlt, rfl⟩ := List.getElem?_eq_some_iff.mp hb
  have hsize := h.size _ (getElem_mem hlt)
  exact ⟨slot, by omega, by omega, getElem?_eq_getElem hslot,
    cells_of_getElem? hb (by omega) (getElem?_eq_getElem hslot)⟩

theorem mergeLook_of_free (key : UInt64) (hj : j < 4 * table.buckets.length)
    (hfree : cells table.buckets j = none) : (mergeLook key table.buckets (j / 4)).isSome := by
  obtain ⟨entries, e, hb, he, hcell⟩ := exists_entry h.size hj
  have hkey := cellOf_eq_none.mp (hcell.symm.trans hfree)
  have hempty := (bucketLook_snd key entries).mpr ⟨e, mem_of_getElem? he, hkey⟩
  rw [mergeLook, hb, bind_some, hempty, Bool.or_true]
  rfl

end

variable {key : UInt64}

section

variable (h : Filled table stray content count)

include h

theorem mergeLook_of_cell (hj : j < 4 * table.buckets.length)
    (hcell : cells table.buckets j = some (key, m)) :
    mergeLook key table.buckets (j / 4) = some m := by
  obtain ⟨entries, e, hb, he, hcell'⟩ := exists_entry h.size hj
  have hreal := h.real key m ((h.holds key m).mpr ⟨j, hj, hcell⟩)
  obtain ⟨hne, hkm⟩ := cellOf_eq_some.mp (hcell'.symm.trans hcell)
  obtain ⟨rfl, rfl⟩ := Prod.mk.inj hkm
  have hfst : (bucketLook e.key entries).1 = e.merge := by
    rcases bucketLook_fst e.key entries with ⟨hno, -⟩ | ⟨x, hx, hxk, heq⟩
    · exact absurd rfl (hno e (mem_of_getElem? he))
    · obtain ⟨slot, -, hlt, -, hcell''⟩ := h.entry_eq hb hx
      rw [cellOf, hxk, if_neg hne] at hcell''
      have hsame := h.probing.unique j hj _ hlt _ _ _ hcell hcell''
      rw [← hsame, hcell] at hcell''
      rw [heq, (Prod.mk.inj (Option.some.inj hcell'')).2]
  rw [mergeLook, hb, bind_some, hfst, if_pos (by simp [hreal])]

theorem mergeLook_eq_none (hb : b < table.buckets.length)
    (hfull : ∀ slot < 4, ∃ key' m, key' ≠ key ∧
      cells table.buckets (4 * b + slot) = some (key', m)) :
    mergeLook key table.buckets b = none := by
  have hget := getElem?_eq_getElem hb
  have hother : ∀ e ∈ table.buckets[b], e.key ≠ key ∧ e.key ≠ emptyKey := by
    intro e he
    obtain ⟨slot, hslot, -, -, hcell⟩ := h.entry_eq hget he
    obtain ⟨key', m, hne, hcell'⟩ := hfull slot hslot
    obtain ⟨hne', hkm⟩ := cellOf_eq_some.mp (hcell.symm.trans hcell')
    exact ⟨(Prod.mk.inj hkm).1 ▸ hne, hne'⟩
  have hfst := (bucketLook_fst key table.buckets[b]).elim And.right fun ⟨e, he, hk, _⟩ =>
    absurd hk (hother e he).1
  have hsnd : (bucketLook key table.buckets[b]).2 = false := by
    rw [← Bool.not_eq_true, bucketLook_snd]
    rintro ⟨e, he, hk⟩
    exact (hother e he).2 hk
  rw [mergeLook, hget, bind_some, hfst, hsnd, if_neg (by simp)]

theorem full_of_way (hj : j < 4 * table.buckets.length)
    (hcell : cells table.buckets j = some (key, m)) (hb : b < table.buckets.length)
    (hway : dist table.buckets.length (table.firstBucket key) b <
      dist table.buckets.length (table.firstBucket key) (j / 4)) :
    ∀ slot < 4, ∃ key' m', key' ≠ key ∧ cells table.buckets (4 * b + slot) = some (key', m') := by
  intro slot hslot
  have hlt : 4 * b + slot < 4 * table.buckets.length := by omega
  have hdiv : (4 * b + slot) / 4 = b := by omega
  have hdist : dist (4 * table.buckets.length) (4 * table.firstBucket key) (4 * b + slot) <
      dist (4 * table.buckets.length) (4 * table.firstBucket key) j := by
    rw [dist_block (by omega) (h.firstBucket_lt key), dist_block (by omega) (h.firstBucket_lt key),
      hdiv]
    omega
  obtain ⟨⟨key', m'⟩, hx⟩ :=
    Option.ne_none_iff_exists'.mp (h.probing.reach j hj key m hcell _ hlt hdist)
  refine ⟨key', m', fun hkey => ?_, hx⟩
  subst hkey
  have hsame := h.probing.unique j hj _ hlt key' m m' hcell hx
  rw [hsame] at hdist
  exact absurd hdist (lt_irrefl _)

theorem mergeOf_cases (a b : UInt32) :
    table.mergeOf a b = mergeFrom (pairKey a b) table.buckets table.buckets.length
        (table.firstBucket (pairKey a b)) ∨
      table.mergeOf a b = some Merge.none ∧ content (pairKey a b) = none := by
  obtain ⟨word, hword⟩ : ∃ word, table.pairFilter[(table.pairFilterSlot (pairKey a b)).1]? =
      some word := ⟨_, getElem?_eq_getElem (h.filterAddressed.lt _)⟩
  rw [MergeTable.mergeOf]
  dsimp only
  rw [hword, bind_eq_bind, bind_some]
  by_cases hclear : word &&& (table.pairFilterSlot (pairKey a b)).2 =
      (table.pairFilterSlot (pairKey a b)).2
  · rw [if_neg (not_not.mpr hclear)]
    exact .inl rfl
  · rw [if_pos hclear]
    refine .inr ⟨rfl, Option.eq_none_iff_forall_ne_some.mpr fun m hc => ?_⟩
    obtain ⟨word', hword', hbits⟩ := h.passes _ m hc
    rw [hword, Option.some.injEq] at hword'
    exact hclear (hword' ▸ hbits)

section

variable (hcount : count < 4 * table.buckets.length)

include hcount

theorem exists_mergeLook (key : UInt64) : ∃ j < table.buckets.length, ∃ found,
    mergeFrom key table.buckets table.buckets.length (table.firstBucket key) = some found ∧
      mergeLook key table.buckets j = some found ∧
      ∀ i < table.buckets.length, dist table.buckets.length (table.firstBucket key) i <
        dist table.buckets.length (table.firstBucket key) j →
          mergeLook key table.buckets i = none := by
  obtain ⟨k, -, hk, -⟩ := h.addressed
  have hhome := h.firstBucket_lt key
  rw [mergeFrom_eq_walk hk _ hhome]
  obtain ⟨free, hfree_lt, hfree⟩ := h.exists_free hcount
  have hgoal : free / 4 < table.buckets.length := by omega
  obtain ⟨j, hj, found, hwalk, hlook, hpassed⟩ := walk_spec hgoal
    (h.mergeLook_of_free key hfree_lt hfree) table.buckets.length _ hhome (dist_lt hhome hgoal)
  exact ⟨j, hj, found, hwalk, hlook, hpassed⟩

theorem mergeFrom_eq (hkey : key ≠ emptyKey) :
    mergeFrom key table.buckets table.buckets.length (table.firstBucket key) =
      some ((content key).getD Merge.none) := by
  have hhome := h.firstBucket_lt key
  obtain ⟨j, hj, found, hfrom, hlook, hpassed⟩ := h.exists_mergeLook hcount key
  rw [hfrom]
  congr 1
  cases hc : content key with
  | some m =>
    obtain ⟨c, hc_lt, hcell⟩ := (h.holds key m).mp hc
    have hanswer := h.mergeLook_of_cell hc_lt hcell
    have hcb : c / 4 < table.buckets.length := by omega
    rcases lt_trichotomy (dist table.buckets.length (table.firstBucket key) j)
      (dist table.buckets.length (table.firstBucket key) (c / 4)) with hlt | heq | hgt
    · rw [h.mergeLook_eq_none hj (h.full_of_way hc_lt hcell hj hlt)] at hlook
      cases hlook
    · rw [dist_inj hhome hj hcb heq, hanswer] at hlook
      exact (Option.some.inj hlook).symm
    · rw [hpassed _ hcb hgt] at hanswer
      cases hanswer
  | none =>
    have hget := getElem?_eq_getElem hj
    rw [eq_of_mergeLook hj hlook]
    refine (bucketLook_fst key _).elim And.right fun ⟨e, he, hk, heq⟩ => heq.trans ?_
    obtain ⟨slot, -, hlt, -, hcell⟩ := h.entry_eq hget he
    rw [cellOf, hk, if_neg hkey] at hcell
    rw [(h.holds key e.merge).mpr ⟨_, hlt, hcell⟩] at hc
    cases hc

/-- The key of an empty entry is answered by what one of them holds. -/
theorem mergeFrom_stray : ∃ m, mergeFrom emptyKey table.buckets table.buckets.length
    (table.firstBucket emptyKey) = some m ∧ (m = Merge.none ∨ stray m) := by
  obtain ⟨j, hj, found, hfrom, hlook, -⟩ := h.exists_mergeLook hcount emptyKey
  refine ⟨found, hfrom, ?_⟩
  rw [eq_of_mergeLook hj hlook]
  rcases bucketLook_fst emptyKey table.buckets[j] with ⟨-, hnone⟩ | ⟨e, he, hk, heq⟩
  · exact .inl hnone
  · rw [heq]
    exact h.blank _ (getElem_mem hj) e he hk

/-- **The lookup answers what the table holds**, and no merge for any other pair. -/
theorem mergeOf {a b : UInt32} (hkey : pairKey a b ≠ emptyKey) :
    table.mergeOf a b = some ((content (pairKey a b)).getD Merge.none) := by
  rcases h.mergeOf_cases a b with heq | ⟨heq, hnone⟩
  · rw [heq, h.mergeFrom_eq hcount hkey]
  · rw [heq, hnone]
    rfl

theorem mergeOf_stray :
    ∃ m, table.mergeOf noSymbol noSymbol = some m ∧ (m = Merge.none ∨ stray m) := by
  rcases h.mergeOf_cases noSymbol noSymbol with heq | ⟨heq, -⟩
  · rw [heq, pairKey_eq_emptyKey.mpr ⟨rfl, rfl⟩]
    exact h.mergeFrom_stray hcount
  · exact ⟨_, heq, .inl rfl⟩

/-! ## Recording a pair -/

/-- The slot that the loop of `insert` comes to: the way there is full of other pairs, and it is
empty or holds the pair. -/
theorem exists_slot (key : UInt64) :
    ∃ b slot entries e, walk table.buckets.length (slotLook key table.buckets) table.buckets.length
        (table.firstBucket key) = some (b, slot) ∧
      table.buckets[b]? = some entries ∧ slot < 4 ∧ entries[slot]? = some e ∧
      (e.key = key ∨ e.key = emptyKey) ∧
      ∀ p < 4 * table.buckets.length,
        dist (4 * table.buckets.length) (4 * table.firstBucket key) p <
          dist (4 * table.buckets.length) (4 * table.firstBucket key) (4 * b + slot) →
        ∃ key' m, key' ≠ key ∧ cells table.buckets p = some (key', m) := by
  have hhome := h.firstBucket_lt key
  obtain ⟨free, hfree_lt, hfree⟩ := h.exists_free hcount
  have hgoal : free / 4 < table.buckets.length := by omega
  have hsome : (slotLook key table.buckets (free / 4)).isSome := by
    obtain ⟨entries, e, hb, he, hcell⟩ := exists_entry h.size hfree_lt
    have hkey := cellOf_eq_none.mp (hcell.symm.trans hfree)
    rw [slotLook, hb, bind_some, Option.isSome_map, findIdx?_isSome, any_eq_true]
    exact ⟨e, mem_of_getElem? he, by simp [slotFor, hkey]⟩
  obtain ⟨b, hb, x, hwalk, hlook, hpassed⟩ :=
    walk_spec hgoal hsome table.buckets.length _ hhome (dist_lt hhome hgoal)
  have hget := getElem?_eq_getElem hb
  rw [slotLook, hget, bind_some, Option.map_eq_some_iff] at hlook
  obtain ⟨slot, hslot, rfl⟩ := hlook
  obtain ⟨hslot_lt, hfit, hbefore⟩ := findIdx?_eq_some_iff_getElem.mp hslot
  have hsize := h.size _ (getElem_mem hb)
  rw [slotFor, Bool.or_eq_true, beq_iff_eq, beq_iff_eq] at hfit
  refine ⟨b, slot, _, _, hwalk, hget, by omega, getElem?_eq_getElem hslot_lt, hfit, ?_⟩
  intro p hp hdist
  obtain ⟨entries, e, hpb, he, hcell⟩ := exists_entry h.size hp
  have hpb_lt : p / 4 < table.buckets.length := by omega
  -- an entry before the slot, of its bucket or of one on the way, does not take the pair
  have hother : slotFor key e = false := by
    have hdiv : (4 * b + slot) / 4 = b := by omega
    rw [dist_block (by omega) hhome, dist_block (by omega) hhome, hdiv] at hdist
    rcases lt_or_ge (dist table.buckets.length (table.firstBucket key) (p / 4))
      (dist table.buckets.length (table.firstBucket key) b) with hlt | hge
    · have hnone := hpassed _ hpb_lt hlt
      rw [slotLook, hpb, bind_some, Option.map_eq_none_iff, findIdx?_eq_none_iff] at hnone
      exact hnone e (mem_of_getElem? he)
    · have heq : p / 4 = b := dist_inj hhome hpb_lt hb (by omega)
      have hslot' : p % 4 < slot := by
        omega
      rw [heq, hget, Option.some.injEq] at hpb
      subst hpb
      obtain ⟨hlt, rfl⟩ := List.getElem?_eq_some_iff.mp he
      exact Bool.not_eq_true _ ▸ hbefore (p % 4) hslot'
  rw [slotFor, Bool.or_eq_false_iff, beq_eq_false_iff_ne, beq_eq_false_iff_ne] at hother
  exact ⟨e.key, e.merge, hother.1, hcell.trans (if_neg hother.2)⟩

end

theorem passes_insert {old : UInt64}
    (hold : table.pairFilter[(table.pairFilterSlot key).1]? = some old) {key' : UInt64}
    (hc : key' = key ∨ content key' = some m) :
    ∃ word, (table.pairFilter.set (table.pairFilterSlot key).1
        (old ||| (table.pairFilterSlot key).2))[(table.pairFilterSlot key').1]? = some word ∧
      word &&& (table.pairFilterSlot key').2 = (table.pairFilterSlot key').2 := by
  obtain ⟨hlt, -⟩ := List.getElem?_eq_some_iff.mp hold
  rcases hc with rfl | hc
  · exact ⟨_, getElem?_set_self hlt, or_and_self _ _⟩
  · obtain ⟨word, hword, hbits⟩ := h.passes key' m hc
    by_cases hw : (table.pairFilterSlot key).1 = (table.pairFilterSlot key').1
    · rw [← hw, hold, Option.some.injEq] at hword
      subst hword
      refine ⟨old ||| (table.pairFilterSlot key).2, ?_, and_or_of_and hbits⟩
      rw [← hw]
      exact getElem?_set_self hlt
    · exact ⟨word, (getElem?_set_ne hw).trans hword, hbits⟩

theorem shape_set {entries : Bucket} (hmem : entries ∈ table.buckets)
    (he : e.key = emptyKey → stray e.merge) (i slot : Nat) :
    ∀ bucket ∈ table.buckets.set i (entries.set slot e), bucket.length = 4 ∧
      ∀ x ∈ bucket, x.key = emptyKey → x.merge = Merge.none ∨ stray x.merge := by
  intro bucket hb
  rcases mem_or_eq_of_mem_set hb with hb | rfl
  · exact ⟨h.size bucket hb, h.blank bucket hb⟩
  · refine ⟨length_set.trans (h.size entries hmem), fun x hx hempty => ?_⟩
    rcases mem_or_eq_of_mem_set hx with hx | rfl
    · exact h.blank entries hmem x hx hempty
    · exact .inr (he hempty)

theorem insert_eq (a b : UInt32) (merge : Merge) {i slot : Nat} {entries : Bucket} {old : UInt64}
    (hwalk : walk table.buckets.length (slotLook (pairKey a b) table.buckets) table.buckets.length
      (table.firstBucket (pairKey a b)) = some (i, slot))
    (hget : table.buckets[i]? = some entries)
    (hold : table.pairFilter[(table.pairFilterSlot (pairKey a b)).1]? = some old) :
    table.insert a b merge = some { table with
      pairFilter := table.pairFilter.set (table.pairFilterSlot (pairKey a b)).1
        (old ||| (table.pairFilterSlot (pairKey a b)).2)
      buckets := table.buckets.set i (entries.set slot ⟨pairKey a b, merge⟩) } := by
  obtain ⟨k, -, hk, -⟩ := id h.addressed
  rw [MergeTable.insert]
  dsimp only
  rw [hold, insertFrom_eq_walk hk _ (h.firstBucket_lt (pairKey a b)), hwalk]
  simp only [map_some, setEntry, hget, bind_eq_bind]
  rfl

/-- **Recording a pair** finds a slot and updates the content.  The pair with the key of an empty
entry leaves its merge in one, and the content as it was. -/
theorem insert (hcount : count < 4 * table.buckets.length) {a b : UInt32}
    (hmerge : merge ≠ Merge.none) (hstray : pairKey a b = emptyKey → stray merge) :
    ∃ pairFilter buckets, table.insert a b merge = some { table with pairFilter, buckets } ∧
      buckets.length = table.buckets.length ∧
      Filled { table with pairFilter, buckets } stray
        (if pairKey a b = emptyKey then content
          else update content (pairKey a b) (some merge)) (count + 1) := by
  have hhome := h.firstBucket_lt (pairKey a b)
  obtain ⟨i, slot, entries, e, hwalk, hget, hslot, he, hfit, hway⟩ :=
    h.exists_slot hcount (pairKey a b)
  obtain ⟨old, hold⟩ : ∃ word,
      table.pairFilter[(table.pairFilterSlot (pairKey a b)).1]? = some word :=
    ⟨_, getElem?_eq_getElem (h.filterAddressed.lt _)⟩
  have hinsert := h.insert_eq a b merge hwalk hget hold
  have hshape := h.shape_set (e := ⟨pairKey a b, merge⟩) (mem_of_getElem? hget) hstray i slot
  obtain ⟨hi, -⟩ := List.getElem?_eq_some_iff.mp hget
  obtain ⟨hslot_len, rfl⟩ := List.getElem?_eq_some_iff.mp he
  have hlt : 4 * i + slot < 4 * table.buckets.length := by omega
  have hcell := cells_of_getElem? hget hslot he
  have hcells := cells_set hget hslot hslot_len ⟨pairKey a b, merge⟩
  set buckets := table.buckets.set i (entries.set slot ⟨pairKey a b, merge⟩) with hbuckets
  have hlength : buckets.length = table.buckets.length := length_set
  obtain ⟨keys, hcard, hkeys⟩ := h.few
  refine ⟨_, buckets, hinsert, hlength, ?_⟩
  split
  next hkey =>
    -- the cell was free, and stays so
    have hsame : cells buckets = cells table.buckets := by
      rw [hcells, cellOf_eq_none.mpr hkey, update_eq_self_iff, hcell]
      exact (cellOf_eq_none.mpr (hfit.elim (·.trans hkey) id)).symm
    exact
      { addressed := h.addressed.of_length hlength
        size := fun bucket hb => (hshape bucket hb).1
        blank := fun bucket hb => (hshape bucket hb).2
        probing := by rw [hlength, hsame]; exact h.probing
        holds := by rw [hlength, hsame]; exact h.holds
        real := h.real
        filterAddressed := h.filterAddressed.of_length length_set
        passes := fun key' m hc => h.passes_insert hold (.inr hc)
        few := ⟨keys, hcard.trans (by omega), hkeys⟩ }
  next hkey =>
    rw [cellOf, if_neg hkey] at hcells
    -- the cell was free, and the pair in none, or it held the pair
    have hstop : ∀ key' m, cells table.buckets (4 * i + slot) = some (key', m) →
        key' = pairKey a b := by
      intro key' m heq
      obtain ⟨hempty, hkm⟩ := cellOf_eq_some.mp (hcell.symm.trans heq)
      exact (Prod.mk.inj hkm).1.symm.trans (hfit.resolve_right hempty)
    have hhome' : 4 * table.firstBucket (pairKey a b) < 4 * table.buckets.length := by omega
    have habsent := h.probing.absent hlt hhome' hstop fun p hp hd v hv => by
      obtain ⟨key', m, hne, hp'⟩ := hway p hp hd
      rw [hp'] at hv
      cases hv
      exact hne rfl
    refine { addressed := h.addressed.of_length hlength
             size := fun bucket hb => (hshape bucket hb).1
             blank := fun bucket hb => (hshape bucket hb).2
             probing := ?_, holds := ?_, real := ?_
             filterAddressed := h.filterAddressed.of_length length_set
             passes := fun key' m hc =>
               h.passes_insert hold ((update_eq_some.mp hc).imp And.left And.right)
             few := ⟨Insert.insert (pairKey a b) keys,
               (Finset.card_insert_le _ _).trans (by omega), fun key' m hc => ?_⟩ }
    · rw [hlength, hcells]
      refine h.probing.put habsent fun p hp hd => ?_
      obtain ⟨key', m, -, hp'⟩ := hway p hp hd
      simp [hp']
    · intro key' m
      rw [hlength, hcells, exists_put habsent hlt hstop, ← h.holds, update_eq_some, or_comm,
        Option.some.injEq, @eq_comm _ m]
    · intro key' m hc
      rcases update_eq_some.mp hc with ⟨-, he⟩ | ⟨-, hc⟩
      · cases he
        exact hmerge
      · exact h.real key' m hc
    · rcases update_eq_some.mp hc with ⟨rfl, -⟩ | ⟨-, hc⟩
      · exact Finset.mem_insert_self _ _
      · exact Finset.mem_insert_of_mem (hkeys key' m hc)

end

end Filled

/-! ## The table of a list of merges -/

theorem le_two_pow_powerFor (n : Nat) : n ≤ 2 ^ powerFor n := by
  rw [powerFor]
  split
  · omega
  · have := @Nat.lt_log2_self (n - 1)
    omega

theorem addressed_replicate {α : Type} (x : α) (hk : 1 ≤ k) :
    Addressed (replicate (2 ^ k) x) (64 - k) :=
  ⟨k, hk, length_replicate, rfl⟩

theorem cells_empty (n j : Nat) : cells (replicate n Bucket.empty) j = none := by
  rw [cells, getElem?_replicate]
  split
  · rw [bind_some, Bucket.empty, getElem?_replicate]
    split
    · rfl
    · rfl
  · rfl

theorem filled_withCapacity (stray : Merge → Prop) (merges : Nat) (ignoreMerges grid : Bool) :
    Filled (withCapacity merges ignoreMerges grid) stray (fun _ => none) 0 where
  addressed := addressed_replicate _ (le_max_right _ _)
  size entries h := by
    rw [eq_of_mem_replicate h]
    rfl
  blank entries h e he _ := by
    rw [eq_of_mem_replicate h] at he
    rw [eq_of_mem_replicate he]
    exact .inl rfl
  probing := probing_empty fun j _ => cells_empty _ j
  holds key m := by
    refine iff_of_false (by simp) ?_
    rintro ⟨j, -, hj⟩
    rw [withCapacity, cells_empty] at hj
    cases hj
  real _ _ h := by cases h
  filterAddressed := addressed_replicate _ ((by decide : 1 ≤ 10).trans (le_max_right _ _))
  passes _ _ h := by cases h
  few := ⟨∅, le_refl 0, fun _ _ h => by cases h⟩

theorem two_mul_le_capacity (merges : Nat) (ignoreMerges grid : Bool) :
    merges < 4 * (withCapacity merges ignoreMerges grid).buckets.length := by
  have hpow := le_two_pow_powerFor ((merges + bucketSize / 2 - 1) / (bucketSize / 2))
  have hmono : 2 ^ powerFor ((merges + bucketSize / 2 - 1) / (bucketSize / 2)) ≤
      2 ^ max (powerFor ((merges + bucketSize / 2 - 1) / (bucketSize / 2))) 1 :=
    Nat.pow_le_pow_right (by omega) (le_max_left _ _)
  have hpos := Nat.two_pow_pos (max (powerFor ((merges + bucketSize / 2 - 1) / (bucketSize / 2))) 1)
  rw [withCapacity, length_replicate]
  simp only [bucketSize] at *
  omega

end MergeTable

def lastEntry (entries : List MergeEntry) (a b : UInt32) : Option MergeEntry :=
  entries.reverse.find? fun e => e.a == a && e.b == b

def mergeIn (entries : List MergeEntry) (a b : UInt32) : Merge :=
  ((lastEntry entries a b).map fun e => Merge.new e.rank e.product).getD Merge.none

/-- The merges of a table can be recorded: no rank is that of no merge. -/
def Recordable (entries : List MergeEntry) : Prop := ∀ e ∈ entries, e.rank ≠ noRank

/-- A merge that an entry gives for `u32::MAX` with itself. -/
def Doubled (entries : List MergeEntry) (m : Merge) : Prop :=
  ∃ e ∈ entries, e.a = noSymbol ∧ e.b = noSymbol ∧ m = Merge.new e.rank e.product

/-- What a table answers: the merge of a pair, and `double` for `u32::MAX` with itself, whose key is
the one of an empty entry. -/
def answers (entries : List MergeEntry) (double : Merge) (a b : UInt32) : Merge :=
  if a = noSymbol ∧ b = noSymbol then double else mergeIn entries a b

theorem mergeIn_cases (entries : List MergeEntry) (a b : UInt32) :
    mergeIn entries a b = Merge.none ∨
      ∃ e ∈ entries, e.a = a ∧ e.b = b ∧ mergeIn entries a b = Merge.new e.rank e.product := by
  rw [mergeIn]
  rcases hlast : lastEntry entries a b with _ | e
  · exact .inl rfl
  · have hfound := List.find?_some hlast
    rw [Bool.and_eq_true, beq_iff_eq, beq_iff_eq] at hfound
    exact .inr ⟨e, mem_reverse.mp (mem_of_find?_eq_some hlast), hfound.1, hfound.2, rfl⟩

/-- Without a merge of `u32::MAX` with itself there is no other answer. -/
theorem answers_eq {entries : List MergeEntry} {double : Merge} (hno : ∀ m, ¬ Doubled entries m)
    (hdouble : double = Merge.none ∨ Doubled entries double) :
    answers entries double = mergeIn entries := by
  funext a b
  rw [answers]
  split
  next hab =>
    obtain ⟨rfl, rfl⟩ := hab
    rw [hdouble.resolve_right (hno double)]
    rcases mergeIn_cases entries noSymbol noSymbol with hnone | ⟨e, he, ha, hb, -⟩
    · exact hnone.symm
    · exact absurd ⟨e, he, ha, hb, rfl⟩ (hno _)
  · rfl

namespace MergeTable

/-- The content after some entries were recorded. -/
def recorded (content : UInt64 → Option Merge) (entries : List MergeEntry) :
    UInt64 → Option Merge :=
  entries.foldl
    (fun content e =>
      if pairKey e.a e.b = emptyKey then content
      else Function.update content (pairKey e.a e.b) (some (Merge.new e.rank e.product)))
    content

theorem recorded_pairKey (entries : List MergeEntry) {a b : UInt32}
    (hkey : pairKey a b ≠ emptyKey) :
    (recorded (fun _ => none) entries (pairKey a b)).getD Merge.none = mergeIn entries a b := by
  rw [mergeIn, lastEntry]
  induction entries using reverseRecOn with
  | nil => rfl
  | append_singleton entries e ih =>
    rw [recorded] at ih
    rw [recorded, foldl_append, foldl_cons, foldl_nil, reverse_append, reverse_singleton,
      singleton_append, find?_cons]
    by_cases he : e.a = a ∧ e.b = b
    · obtain ⟨rfl, rfl⟩ := he
      simp [hkey]
    · have hne : pairKey a b ≠ pairKey e.a e.b := fun h =>
        he ⟨(pairKey_inj h).1.symm, (pairKey_inj h).2.symm⟩
      have hfalse : (e.a == a && e.b == b) = false := by
        rw [Bool.and_eq_false_iff, beq_eq_false_iff_ne, beq_eq_false_iff_ne]
        exact not_and_or.mp he
      rw [hfalse]
      split
      · exact ih
      · rw [update_of_ne hne]
        exact ih

theorem Filled.insertAll {table : MergeTable} {stray : Merge → Prop}
    {content : UInt64 → Option Merge}
    {count : Nat} (h : Filled table stray content count) {entries : List MergeEntry}
    (hreal : Recordable entries) (hstray : ∀ m, Doubled entries m → stray m)
    (hcount : count + entries.length < 4 * table.buckets.length) :
    ∃ pairFilter buckets, table.insertAll entries = some { table with pairFilter, buckets } ∧
      buckets.length = table.buckets.length ∧
      Filled { table with pairFilter, buckets } stray (recorded content entries)
        (count + entries.length) := by
  induction entries generalizing table content count with
  | nil => exact ⟨_, _, rfl, rfl, h⟩
  | cons e entries ih =>
    rw [length_cons] at hcount
    obtain ⟨filter, buckets, hinsert, hlen, hfilled⟩ := h.insert (by omega)
      (Merge.new_ne_none (hreal e mem_cons_self)) fun hkey : pairKey e.a e.b = emptyKey =>
        have hpair := pairKey_eq_emptyKey.mp hkey
        hstray (Merge.new e.rank e.product) ⟨e, mem_cons_self, hpair.1, hpair.2, rfl⟩
    obtain ⟨filter', buckets', hall, hlen', hfilled'⟩ := ih hfilled
      (fun x hx => hreal x (mem_cons_of_mem e hx))
      (fun m ⟨x, hx, hm⟩ => hstray m ⟨x, mem_cons_of_mem e hx, hm⟩) (by
        change _ < 4 * buckets.length
        omega)
    refine ⟨filter', buckets', ?_, hlen'.trans hlen, ?_⟩
    · rw [MergeTable.insertAll, foldlM_cons, hinsert]
      exact hall
    · rw [length_cons, show count + (entries.length + 1) = count + 1 + entries.length by omega]
      exact hfilled'

theorem mapM_eq_pure_map {m : Type → Type} [Monad m] [LawfulMonad m] {α β : Type} {f : α → m β}
    {g : α → β} {xs : List α} (h : ∀ x ∈ xs, f x = pure (g x)) : xs.mapM f = pure (xs.map g) := by
  induction xs with
  | nil => rw [mapM_nil, map_nil]
  | cons x xs ih =>
    rw [mapM_cons, h x mem_cons_self, ih fun y hy => h y (mem_cons_of_mem x hy), pure_bind,
      pure_bind, map_cons]

theorem mergeOf_byteGrid (table : MergeTable) (byteGrid : List Merge) (a b : UInt32) :
    MergeTable.mergeOf { table with byteGrid } a b = table.mergeOf a b := rfl

/-- A table that answers the last entry of each pair, but for `u32::MAX` with itself. -/
structure Serves (table : MergeTable) (byteIds : List UInt32) (entries : List MergeEntry)
    (double : Merge) (grid : Bool) : Prop where
  byteIds_eq : table.byteIds = byteIds
  double_of : double = Merge.none ∨ Doubled entries double
  mergeOf_eq : ∀ a b, table.mergeOf a b = some (answers entries double a b)
  bytePair_eq : grid = true → ∀ (a b : UInt8) (x y : UInt32), byteIds[a.toNat]? = some x →
    byteIds[b.toNat]? = some y → table.bytePair a b = some (answers entries double x y)

theorem Serves.mergeOf_double {table : MergeTable} {byteIds : List UInt32}
    {entries : List MergeEntry}
    {double : Merge} {grid : Bool} (h : Serves table byteIds entries double grid) :
    table.mergeOf noSymbol noSymbol = some double := by
  rw [h.mergeOf_eq, answers, if_pos ⟨rfl, rfl⟩]

/-- **The table of a list of merges is always made, and answers the last merge of each pair.** -/
theorem ofEntries_spec {byteIds : List UInt32} {entries : List MergeEntry}
    (ignoreMerges grid : Bool) (hids : byteIds.length = 256) (hreal : Recordable entries) :
    ∃ table double, ofEntries byteIds entries ignoreMerges grid = some table ∧
      Serves table byteIds entries double grid := by
  have hempty : Filled { withCapacity entries.length ignoreMerges grid with byteIds }
      (Doubled entries) (fun _ => none) 0 := by
    have h := filled_withCapacity (Doubled entries) entries.length ignoreMerges grid
    exact ⟨h.addressed, h.size, h.blank, h.probing, h.holds, h.real, h.filterAddressed,
      h.passes, h.few⟩
  have hcount : 0 + entries.length <
      4 * (withCapacity entries.length ignoreMerges grid).buckets.length := by
    rw [zero_add]
    exact two_mul_le_capacity _ _ _
  obtain ⟨filter, buckets, hall, hlen, hfilled⟩ := hempty.insertAll hreal (fun _ => id) hcount
  generalize htable : ({ withCapacity entries.length ignoreMerges grid with
    byteIds, pairFilter := filter, buckets } : MergeTable) = table at hall hfilled
  have hroom : 0 + entries.length < 4 * table.buckets.length := by
    rw [← htable]
    change _ < 4 * buckets.length
    rw [hlen]
    exact hcount
  obtain ⟨double, hdouble, hof⟩ := hfilled.mergeOf_stray hroom
  have hmergeOf : ∀ a b, table.mergeOf a b = some (answers entries double a b) := by
    intro a b
    rw [answers]
    split
    next hab => rw [hab.1, hab.2, hdouble]
    next hab =>
      have hkey := mt pairKey_eq_emptyKey.mp hab
      rw [hfilled.mergeOf hroom hkey, recorded_pairKey entries hkey]
  have hbytes : table.byteIds = byteIds := htable ▸ rfl
  rw [ofEntries, hall, bind_eq_bind, bind_some, fillByteGrid]
  cases grid with
  | false =>
    have hgrid : table.byteGrid = [] := htable ▸ rfl
    rw [hgrid]
    exact ⟨table, double, rfl, hbytes, hof, hmergeOf, fun h => by cases h⟩
  | true =>
    have hgrid : table.byteGrid.isEmpty = false := by
      rw [← htable]
      rfl
    rw [hgrid]
    have hentry : ∀ i ∈ range 65536, table.gridEntry i =
        some (answers entries double (byteIds[i / 256]?.getD 0) (byteIds[i % 256]?.getD 0)) := by
      intro i hi
      rw [mem_range] at hi
      rw [gridEntry, hbytes, getElem?_eq_getElem (show i / 256 < byteIds.length by omega),
        getElem?_eq_getElem (show i % 256 < byteIds.length by omega)]
      exact hmergeOf _ _
    rw [mapM_eq_pure_map hentry]
    refine ⟨_, double, rfl, hbytes, hof, fun a b => ?_, fun _ a b x y hx hy => ?_⟩
    · rw [mergeOf_byteGrid]
      exact hmergeOf a b
    have ha := a.toNat_lt
    have hb := b.toNat_lt
    have hlt : a.toNat * 256 + b.toNat < 65536 := by omega
    have hdiv : (a.toNat * 256 + b.toNat) / 256 = a.toNat := by omega
    have hmod : (a.toNat * 256 + b.toNat) % 256 = b.toNat := by omega
    rw [bytePair, getElem?_map, getElem?_range hlt, map_some, hdiv, hmod, hx, hy]
    rfl

end MergeTable

end Smg.Tokenizer
