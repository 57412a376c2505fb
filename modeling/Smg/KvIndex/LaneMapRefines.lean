import Mathlib.Tactic.Ring
import Smg.KvIndex.LaneMap

/-!
# The lane map is a finite map

`ChainBlockMap` against the map from engine hashes to places it stands for.

The table of the library `LinearProbe` is `cells`: what each slot holds, if anything.  `Shaped` says
that tags, size and shift fit the slots, so that the reads of the code are reads of `cells`; `Sound`
adds that the cells are a linear-probing table, at most three quarters full; `Refines m M` adds that
the entries are those of the map `M`.
-/

set_option autoImplicit false

namespace Smg.KvIndex

open LinearProbe Function List Slot
open Prod (fst)

/-! ## Slots and tags -/

def Slot.entry (s : Slot) : Option (UInt64 × BlockRef) :=
  if s.run = EMPTY then none else some (s.key, s.place)

def Slot.tag (s : Slot) : UInt8 := if s.run = EMPTY then VACANT else fingerprint s.key

theorem fingerprint_ne_vacant (key : UInt64) : fingerprint key ≠ VACANT := by
  have h : ∀ x : BitVec 8, x ||| 0x80#8 ≠ 0#8 := by decide
  intro he
  exact h (key >>> 25).toUInt8.toBitVec (congrArg UInt8.toBitVec he)

@[simp] theorem tag_emptySlot : EMPTY_SLOT.tag = VACANT := rfl

variable {s : Slot}

theorem Slot.tag_eq_vacant : s.tag = VACANT ↔ s.entry = none := by
  rw [tag, entry]
  split
  · simp
  · simp [fingerprint_ne_vacant]

variable {e : UInt64 × BlockRef}

theorem Slot.entry_eq_some : s.entry = some e ↔ s.run ≠ EMPTY ∧ e = (s.key, s.place) := by
  rw [entry]
  split
  · rename_i h
    simp [h]
  · rename_i h
    simp [h, eq_comm]

theorem Slot.tag_of_entry (h : s.entry = some e) :
    s.tag = fingerprint s.key := if_neg (entry_eq_some.mp h).1

theorem trailingZeros_two_pow (k : Nat) : trailingZeros (2 ^ k) = min k 64 := by
  rw [trailingZeros]
  rcases lt_or_ge k 64 with hk | hk
  · rw [min_eq_left hk.le, findIdx_eq (by simpa using hk)]
    simp only [Nat.testBit_two_pow]
    exact ⟨by simp, fun j hj => by simpa using ne_of_gt hj⟩
  · rw [min_eq_right hk, findIdx_eq_length_of_false, length_range]
    intro i hi
    rw [Nat.testBit_two_pow]
    simpa using (lt_of_lt_of_le (mem_range.mp hi) hk).ne'

theorem maskedSub_eq {k a b : Nat} (ha : a < 2 ^ k) (hb : b < 2 ^ k) :
    maskedSub (2 ^ k - 1) a b = dist (2 ^ k) b a := by
  have hone : 2 ^ k - 1 + 1 = 2 ^ k := Nat.sub_add_cancel Nat.one_le_two_pow
  rw [maskedSub, hone, Nat.and_two_pow_sub_one_eq_mod, dist_eq_mod hb ha]

namespace ChainBlockMap

variable {m : ChainBlockMap}

def cells (m : ChainBlockMap) (i : Nat) : Option (UInt64 × BlockRef) := m.slots[i]?.bind Slot.entry

theorem iter_eq (m : ChainBlockMap) : m.iter = m.slots.filterMap entry := by
  rw [iter]
  induction m.slots with
  | nil => rfl
  | cons s l ih =>
    by_cases h : s.run = EMPTY
    · simpa [entry, h] using ih
    · simpa [entry, h] using ih

theorem mem_iter : e ∈ m.iter ↔ ∃ i < m.slots.length, m.cells i = some e := by
  rw [iter_eq, mem_filterMap]
  constructor
  · rintro ⟨s, hs, he⟩
    obtain ⟨i, hi, rfl⟩ := mem_iff_getElem.mp hs
    exact ⟨i, hi, by rw [cells, getElem?_eq_getElem hi]; exact he⟩
  · rintro ⟨i, hi, he⟩
    rw [cells, getElem?_eq_getElem hi] at he
    exact ⟨_, getElem_mem hi, he⟩

/-- A table with fewer entries than slots has a free one. -/
theorem exists_free (h : m.iter.length < m.slots.length) :
    ∃ f < m.slots.length, m.cells f = none := by
  by_contra hno
  have hall : ∀ s ∈ m.slots, (entry s).isSome := by
    intro s hs
    obtain ⟨i, hi, rfl⟩ := mem_iff_getElem.mp hs
    refine Option.isSome_iff_ne_none.mpr fun hnone => hno ⟨i, hi, ?_⟩
    rw [cells, getElem?_eq_getElem hi]
    exact hnone
  rw [iter_eq, filterMap_length_eq_length.mpr hall] at h
  exact lt_irrefl _ h

theorem nodup_keys (h : Probing m.slots.length m.home m.cells) : (m.iter.map fst).Nodup := by
  rw [iter_eq, map_filterMap, Nodup, pairwise_filterMap, pairwise_iff_getElem]
  intro i j hi hj hlt k hk k' hk' he
  have hcell : ∀ (i : Nat) (hi : i < m.slots.length) (k : UInt64),
      (entry m.slots[i]).map fst = some k → ∃ v, m.cells i = some (k, v) := by
    intro i hi k hk
    obtain ⟨⟨k', v⟩, he, rfl⟩ := Option.map_eq_some_iff.mp hk
    exact ⟨v, by rw [cells, getElem?_eq_getElem hi]; exact he⟩
  obtain ⟨v, hv⟩ := hcell i hi k hk
  obtain ⟨v', hv'⟩ := hcell j hj k' hk'
  rw [← he] at hv'
  exact absurd (h.unique i hi j hj k v v' hv hv') (ne_of_lt hlt)

/-! ## Writing a slot -/

@[simp] theorem length_write (i : Nat) (s : Slot) (t : UInt8) :
    (m.write i s t).slots.length = m.slots.length := by simp [write]

@[simp] theorem home_write (i : Nat) (s : Slot) (t : UInt8) : (m.write i s t).home = m.home := rfl

@[simp] theorem len_write (i : Nat) (s : Slot) (t : UInt8) : (m.write i s t).len = m.len := rfl

variable {i : Nat}

theorem cells_set (hi : i < m.slots.length) (s : Slot) (j : Nat) :
    (m.slots.set i s)[j]?.bind entry = update m.cells i s.entry j := by
  by_cases hij : j = i
  · rw [hij, update_self, getElem?_set_self hi]
    rfl
  · rw [update_of_ne hij, getElem?_set_ne (Ne.symm hij)]
    rfl

theorem cells_write (hi : i < m.slots.length) (s : Slot) (t : UInt8) :
    (m.write i s t).cells = update m.cells i s.entry :=
  funext (cells_set hi s)

theorem iter_write (hi : i < m.slots.length) (s : Slot) (t : UInt8) :
    ∃ rest, m.iter.Perm ((m.cells i).toList ++ rest) ∧
      (m.write i s t).iter.Perm (s.entry.toList ++ rest) := by
  have hsplit : m.slots = m.slots.take i ++ m.slots[i] :: m.slots.drop (i + 1) := by
    rw [← drop_eq_getElem_cons hi, take_append_drop]
  have hmid : ∀ (L R : List Slot) (x : Slot), ((L ++ x :: R).filterMap entry).Perm
      (x.entry.toList ++ (L.filterMap entry ++ R.filterMap entry)) := by
    intro L R x
    have hx : L ++ x :: R = L ++ ([x] ++ R) := rfl
    rw [hx, filterMap_append, filterMap_append]
    exact perm_append_comm_assoc _ _ _
  refine ⟨(m.slots.take i).filterMap entry ++ (m.slots.drop (i + 1)).filterMap entry,
    ?_, ?_⟩
  · rw [iter_eq, cells, getElem?_eq_getElem hi]
    conv_lhs => rw [hsplit]
    exact hmid _ _ _
  · rw [iter_eq, write, set_eq_take_append_cons_drop, if_pos hi]
    exact hmid _ _ _

/-! ## A table that fits its size -/

/-- Tags, size and shift fit the slots. -/
structure Shaped (m : ChainBlockMap) : Prop where
  /-- The tags are those of the slots. -/
  tags_eq : m.tags = m.slots.map Slot.tag
  /-- The size is a power of two, and a shifted hash is below it. -/
  sized : ∃ k, 4 ≤ k ∧ m.slots.length = 2 ^ k ∧ m.shift = 64 - k

theorem Shaped.home_lt (h : Shaped m) (key : UInt64) : m.home key < m.slots.length := by
  obtain ⟨k, -, hn, hshift⟩ := h.sized
  rw [home, hn, hshift, Nat.shiftRight_eq_div_pow]
  have hlt : (key * 0x9E3779B97F4A7C15).toNat < 2 ^ 64 := UInt64.toNat_lt _
  rcases lt_or_ge k 64 with hk | hk
  · rw [Nat.div_lt_iff_lt_mul (Nat.two_pow_pos _), ← pow_add]
    have hsum : k + (64 - k) = 64 := by omega
    rwa [hsum]
  · have h0 : 64 - k = 0 := by omega
    rw [h0, Nat.div_one]
    exact lt_of_lt_of_le hlt (Nat.pow_le_pow_right (by omega) hk)

theorem Shaped.and_mask (h : Shaped m) (i : Nat) : i &&& m.mask = i % m.slots.length := by
  obtain ⟨k, -, hn, -⟩ := h.sized
  rw [mask, hn, Nat.and_two_pow_sub_one_eq_mod]

theorem Shaped.maskedSub_eq (h : Shaped m) {a b : Nat} (ha : a < m.slots.length)
    (hb : b < m.slots.length) : maskedSub m.mask a b = dist m.slots.length b a := by
  obtain ⟨k, -, hn, -⟩ := h.sized
  rw [hn] at ha hb
  rw [mask, hn, KvIndex.maskedSub_eq ha hb]

/-- What the reads at an index inside the table answer. -/
theorem Shaped.read (h : Shaped m) (hi : i < m.slots.length) :
    ∃ s, m.slots[i]? = some s ∧ m.tags[i]? = some s.tag ∧ m.cells i = s.entry := by
  refine ⟨m.slots[i], getElem?_eq_getElem hi, ?_, ?_⟩
  · rw [h.tags_eq, getElem?_map, getElem?_eq_getElem hi]
    rfl
  · rw [cells, getElem?_eq_getElem hi]
    rfl

theorem Shaped.write (h : Shaped m) (i : Nat) (s : Slot) : Shaped (m.write i s s.tag) where
  tags_eq := by
    show m.tags.set i s.tag = (m.slots.set i s).map tag
    rw [h.tags_eq, map_set]
  sized := by
    rw [length_write]
    exact h.sized

/-! ## Probing -/

/-- What a probe for `key` makes of a cell: the place to stop at, if it is one. -/
def look (m : ChainBlockMap) (key : UInt64) (i : Nat) : Option (Except Nat Nat) :=
  match m.cells i with
  | none => some (.error i)
  | some (k, _) => if k = key then some (.ok i) else none

theorem Shaped.probeLoop_eq (h : Shaped m) (key : UInt64) (fuel : Nat) :
    ∀ i < m.slots.length, m.probeLoop key fuel i = walk m.slots.length (m.look key) fuel i := by
  induction fuel with
  | zero => exact fun _ _ => rfl
  | succ fuel ih =>
    intro i hi
    obtain ⟨s, hs, ht, hc⟩ := h.read hi
    rw [probeLoop, walk, ht, look, hc, hs, h.and_mask]
    cases he : s.entry with
    | none => simp [tag_eq_vacant.mpr he]
    | some e =>
      obtain ⟨-, rfl⟩ := entry_eq_some.mp he
      rw [tag_of_entry he]
      by_cases hk : s.key = key
      · simp [hk, fingerprint_ne_vacant]
      · simp [hk, fingerprint_ne_vacant, ih _ (succ_lt hi)]

/-- Where a probe for a key stops: the way there is occupied, the key is nowhere else, and no other
key is there. -/
structure Stops (m : ChainBlockMap) (key : UInt64) (i : Nat) : Prop where
  lt : i < m.slots.length
  way : ∀ p < m.slots.length, dist m.slots.length (m.home key) p <
    dist m.slots.length (m.home key) i → m.cells p ≠ none
  absent : ∀ p < m.slots.length, p ≠ i → ∀ v, m.cells p ≠ some (key, v)
  own : ∀ k v, m.cells i = some (k, v) → k = key

/-- **A probe ends**: at the key, or at a free slot that shows that the key is absent. -/
theorem Shaped.probe_spec (h : Shaped m) (hp : Probing m.slots.length m.home m.cells)
    (hlen : m.iter.length < m.slots.length) (key : UInt64) :
    ∃ i, m.Stops key i ∧ ((∃ v, m.cells i = some (key, v)) ∧ m.probe key = some (.ok i) ∨
      m.cells i = none ∧ m.probe key = some (.error i)) := by
  obtain ⟨f, hf, hfree⟩ := exists_free hlen
  have hhome := h.home_lt key
  have hlook : (m.look key f).isSome := by
    rw [look, hfree]
    rfl
  obtain ⟨i, hi, r, hw, hr, hpass⟩ :=
    walk_spec hf hlook m.slots.length _ hhome (dist_lt hhome hf)
  rw [probe, h.probeLoop_eq key _ _ hhome, hw]
  -- a cell passed over holds another key
  have hother : ∀ p < m.slots.length, dist m.slots.length (m.home key) p <
      dist m.slots.length (m.home key) i → ∃ k v, m.cells p = some (k, v) ∧ k ≠ key := by
    intro p hpn hlt
    have hnone := hpass p hpn hlt
    rw [look] at hnone
    split at hnone
    · cases hnone
    · rename_i k v hc
      refine ⟨k, v, hc, fun hk => ?_⟩
      rw [if_pos hk] at hnone
      cases hnone
  have hown : ∀ k v, m.cells i = some (k, v) → k = key := by
    intro k v hc
    by_contra hk
    simp [look, hc, hk] at hr
  refine ⟨i, ⟨hi, fun p hpn hlt => ?_, hp.absent hi hhome hown fun p hpn hlt v hv => ?_, hown⟩, ?_⟩
  · obtain ⟨k, v, hc, -⟩ := hother p hpn hlt
    simp [hc]
  · obtain ⟨k, v', hc, hk⟩ := hother p hpn hlt
    rw [hc] at hv
    cases hv
    exact hk rfl
  · rw [look] at hr
    split at hr
    · rename_i hc
      cases hr
      exact .inr ⟨hc, rfl⟩
    · rename_i k v hc
      obtain rfl := hown k v hc
      rw [if_pos rfl] at hr
      cases hr
      exact .inl ⟨⟨v, hc⟩, rfl⟩

/-! ## Growing -/

theorem Shaped.vacantFrom_eq (h : Shaped m) (fuel : Nat) :
    ∀ i < m.slots.length, m.vacantFrom fuel i =
      walk m.slots.length (fun i => if m.cells i = none then some i else none) fuel i := by
  induction fuel with
  | zero => exact fun _ _ => rfl
  | succ fuel ih =>
    intro i hi
    obtain ⟨s, hs, ht, hc⟩ := h.read hi
    rw [vacantFrom, walk, ht, hc, h.and_mask]
    by_cases he : s.entry = none
    · simp [he, tag_eq_vacant.mpr he]
    · simp [he, mt tag_eq_vacant.mp he, ih _ (succ_lt hi)]

/-- A table that fits its size and is probed soundly, with its sizes and its entries. -/
structure Laid (n len : Nat) (xs : List (UInt64 × BlockRef)) (m : ChainBlockMap) : Prop where
  shaped : Shaped m
  probing : Probing m.slots.length m.home m.cells
  size : m.slots.length = n
  len_eq : m.len = len
  perm : m.iter.Perm xs

variable {n len : Nat}

/-- A slot with a new key goes into the first free slot of its probe run. -/
theorem Laid.rehash {xs : List (UInt64 × BlockRef)} (h : Laid n len xs m) (hlen : xs.length < n)
    (he : s.entry = some e) (habsent : s.key ∉ xs.map fst) :
    ∃ m', m.rehash s = some m' ∧ Laid n len (e :: xs) m' := by
  rw [← h.perm.length_eq, ← h.size] at hlen
  obtain ⟨f, hf, hfree⟩ := exists_free hlen
  have hhome := h.shaped.home_lt s.key
  obtain ⟨i, hi, r, hw, hr, hpass⟩ :=
    @walk_spec _ _ (fun i => if m.cells i = none then some i else none) f hf (by simp [hfree])
      m.slots.length _ hhome (dist_lt hhome hf)
  split at hr
  · rename_i hc
    cases hr
    obtain ⟨-, rfl⟩ := entry_eq_some.mp he
    refine ⟨m.write i s (fingerprint s.key), ?_, ?_, ?_, (length_write _ _ _).trans h.size,
      h.len_eq, ?_⟩
    · rw [ChainBlockMap.rehash, h.shaped.vacantFrom_eq _ _ hhome, hw]
      rfl
    · rw [← tag_of_entry he]
      exact h.shaped.write i s
    · rw [length_write, cells_write hi, he]
      refine h.probing.put (fun p hpn _ v hv => habsent ?_) fun p hpn hlt hnone => ?_
      · exact mem_map.mpr ⟨_, h.perm.mem_iff.mp (mem_iter.mpr ⟨p, hpn, hv⟩), rfl⟩
      · have := hpass p hpn hlt
        rw [if_pos hnone] at this
        cases this
    · obtain ⟨rest, hold, hnew⟩ := iter_write hi s (fingerprint s.key)
      rw [hc] at hold
      rw [he] at hnew
      exact hnew.trans ((hold.symm.trans h.perm).cons _)
  · cases hr

theorem Laid.foldlM_rehash (l : List Slot) :
    ∀ {m : ChainBlockMap} {xs : List (UInt64 × BlockRef)}, Laid n len xs m →
      (∀ s ∈ l, s.run ≠ EMPTY) → (xs.map fst ++ l.map key).Nodup → xs.length + l.length < n →
      ∃ m', l.foldlM ChainBlockMap.rehash m = some m' ∧
        Laid n len (xs ++ l.map fun s => (s.key, s.place)) m' := by
  induction l with
  | nil => exact fun {m xs} h _ _ _ => ⟨m, rfl, by simpa using h⟩
  | cons s l ih =>
    intro m xs h hrun hnd hlen
    rw [length_cons] at hlen
    have he : s.entry = some (s.key, s.place) :=
      entry_eq_some.mpr ⟨hrun s mem_cons_self, rfl⟩
    have habsent : s.key ∉ xs.map fst := fun hmem =>
      (nodup_append.mp hnd).2.2 _ hmem s.key (by simp) rfl
    obtain ⟨m1, hm1, h1⟩ := h.rehash (by omega) he habsent
    obtain ⟨m', hm', h'⟩ := ih h1 (fun t ht => hrun t (mem_cons_of_mem _ ht))
      (perm_middle.nodup_iff.mp hnd) (by rw [length_cons]; omega)
    refine ⟨m', ?_, { h' with perm := h'.perm.trans perm_middle.symm }⟩
    rw [foldlM_cons, hm1]
    exact hm'

theorem grow_spec (needed : Nat) (fuel : Nat) :
    ∀ k, 4 ≤ k → needed ≤ fuel + k → ∃ k', 4 ≤ k' ∧ grow needed fuel (2 ^ k) = some (2 ^ k') ∧
      needed * 4 ≤ 2 ^ k' * 3 := by
  induction fuel with
  | zero =>
    intro k hk hle
    have hlt : k - 1 < 2 ^ (k - 1) := Nat.lt_two_pow_self
    have hdouble : 2 ^ k = 2 * 2 ^ (k - 1) := by
      rw [← pow_succ', Nat.sub_add_cancel (by omega)]
    have hge : needed * 4 ≤ 2 ^ k * 3 := by omega
    exact ⟨k, hk, by rw [grow, if_neg (by omega)], hge⟩
  | succ fuel ih =>
    intro k hk hle
    rw [grow]
    split
    · exact ih (k + 1) (by omega) (by omega)
    · exact ⟨k, hk, rfl, by omega⟩

/-! ## The map a table stands for -/

/-- A table between calls. -/
structure Sound (m : ChainBlockMap) : Prop where
  /-- Nothing is allocated before the first insert. -/
  shaped : m.slots = [] ∨ Shaped m
  /-- Every key is found from its home. -/
  probing : Probing m.slots.length m.home m.cells
  len_eq : m.iter.length = m.len
  /-- At most three quarters are full. -/
  load : m.len * 4 ≤ m.slots.length * 3

/-- The table holds the entries of the map. -/
structure Refines (m : ChainBlockMap) (M : Table UInt64 BlockRef) : Prop extends Sound m where
  mem_iter : ∀ k v, (k, v) ∈ m.iter ↔ M.lookup k = some v

variable {M : Table UInt64 BlockRef}

theorem refines_new : Refines new ∅ where
  shaped := .inl rfl
  probing := probing_empty fun _ hj => absurd hj (Nat.not_lt_zero _)
  len_eq := rfl
  load := Nat.zero_le _
  mem_iter _ _ := ⟨nofun, nofun⟩

/-- A table that holds something or has room is allocated, and has a free slot. -/
theorem Sound.allocated (h : Sound m) (hn : 0 < m.slots.length) :
    Shaped m ∧ m.iter.length < m.slots.length := by
  refine ⟨h.shaped.resolve_left fun h0 => ?_, ?_⟩
  · rw [h0] at hn
    exact lt_irrefl _ hn
  · have := h.load
    rw [h.len_eq]
    omega

variable {key : UInt64}

theorem mem_rest {xs rest : List (UInt64 × BlockRef)} {v : BlockRef}
    (hnd : (xs.map fst).Nodup) (hperm : xs.Perm ((key, v) :: rest)) (k : UInt64)
    (v' : BlockRef) : (k, v') ∈ rest ↔ k ≠ key ∧ (k, v') ∈ xs := by
  have hnd' := (hperm.map fst).nodup_iff.mp hnd
  rw [map_cons, nodup_cons] at hnd'
  rw [hperm.mem_iff, mem_cons]
  constructor
  · exact fun hmem => ⟨fun hk => hnd'.1 (mem_map.mpr ⟨_, hmem, hk⟩), .inr hmem⟩
  · rintro ⟨hk, he | hmem⟩
    · exact absurd (congrArg fst he) hk
    · exact hmem

/-- The empty table that `reserve` allocates. -/
def allocate (capacity len : Nat) : ChainBlockMap :=
  { slots := List.replicate capacity EMPTY_SLOT
    tags := List.replicate capacity VACANT
    len
    shift := 64 - trailingZeros capacity }

theorem laid_allocate {k : Nat} (hk : 4 ≤ k) (len : Nat) :
    Laid (2 ^ k) len [] (allocate (2 ^ k) len) := by
  have hiter : (allocate (2 ^ k) len).iter = [] := by
    rw [iter_eq, filterMap_eq_nil_iff]
    intro s hs
    rw [eq_of_mem_replicate hs]
    rfl
  refine ⟨⟨by simp [allocate], k, hk, length_replicate, ?_⟩, probing_empty fun j hj => ?_,
    length_replicate, rfl, hiter ▸ Perm.nil⟩
  · show 64 - trailingZeros (2 ^ k) = 64 - k
    rw [trailingZeros_two_pow]
    omega
  · refine Option.eq_none_iff_forall_ne_some.mpr fun e he => ?_
    have := mem_iter.mpr ⟨j, hj, he⟩
    rw [hiter] at this
    cases this

/-- Room is made without a change to the map. -/
theorem Refines.reserve (h : Refines m M) (additional : Nat) :
    ∃ m', m.reserve additional = some m' ∧ Refines m' M ∧
      (m'.len + additional) * 4 ≤ m'.slots.length * 3 := by
  rw [ChainBlockMap.reserve]
  by_cases hroom : (m.len + additional) * 4 ≤ m.slots.length * 3
  · exact ⟨m, if_pos hroom, h, hroom⟩
  · simp only [hroom]
    obtain ⟨k, hk, hmax⟩ : ∃ k, 4 ≤ k ∧ max m.slots.length MIN_SLOTS = 2 ^ k := by
      rcases h.shaped with h0 | hsh
      · exact ⟨4, le_rfl, by rw [h0]; rfl⟩
      · obtain ⟨k, hk, hn, -⟩ := hsh.sized
        have h16 : 2 ^ 4 ≤ 2 ^ k := Nat.pow_le_pow_right (by omega) hk
        exact ⟨k, hk, by rw [hn]; exact max_eq_left h16⟩
    obtain ⟨k', hk', hgrow, hload⟩ := grow_spec (m.len + additional) (m.len + additional) k hk
      (Nat.le_add_right _ _)
    rw [hmax, hgrow, Option.bind_eq_bind]
    set old := m.slots.filter fun slot => slot.run ≠ EMPTY with hold
    have hlen : old.length = m.len := by
      rw [← h.len_eq, iter, length_map]
    obtain ⟨m', hm', h'⟩ := (laid_allocate hk' m.len).foldlM_rehash old
      (fun s hs => by simpa using (mem_filter.mp hs).2)
      (by
        have := nodup_keys h.probing
        rwa [iter, map_map] at this)
      (by
        rw [length_nil]
        omega)
    refine ⟨m', hm', ⟨⟨.inr h'.shaped, h'.probing, ?_, ?_⟩, fun key v => ?_⟩, ?_⟩
    · rw [h'.perm.length_eq, nil_append, length_map, hlen, h'.len_eq]
    · rw [h'.len_eq, h'.size]
      omega
    · rw [h'.perm.mem_iff]
      exact h.mem_iter key v
    · rw [h'.len_eq, h'.size]
      exact hload

/-! ## Inserting -/

variable {at' : BlockRef}

theorem Refines.put (h : Refines m M) (hi : m.Stops key i) (hs : s.entry = some (key, at'))
    (len : Nat) (hlen : len + (m.cells i).toList.length = m.len + 1)
    (hroom : len * 4 ≤ m.slots.length * 3) :
    Refines { m.write i s s.tag with len } (M.insert key at') := by
  obtain ⟨hsh, -⟩ := h.allocated (Nat.zero_lt_of_lt hi.lt)
  have hshaped := hsh.write i s
  have hcells : cells { m.write i s s.tag with len } = update m.cells i (some (key, at')) := by
    rw [← hs]
    exact cells_write hi.lt s s.tag
  obtain ⟨rest, hold, hnew⟩ := iter_write hi.lt s s.tag
  refine ⟨⟨.inr ⟨hshaped.tags_eq, hshaped.sized⟩, ?_, ?_, ?_⟩, fun k v => ?_⟩
  · rw [hcells, length_write]
    exact h.probing.put hi.absent hi.way
  · show (m.write i s s.tag).iter.length = len
    have hlen' := h.len_eq
    rw [hold.length_eq, length_append] at hlen'
    rw [hnew.length_eq, length_append, hs, Option.toList_some, length_singleton]
    omega
  · rwa [length_write]
  · rw [ChainBlockMap.mem_iter, hcells, length_write, exists_put hi.absent hi.lt hi.own,
      ← ChainBlockMap.mem_iter, h.mem_iter, Table.lookup_insert_eq_some]

theorem Refines.replace (h : Refines m M) (hi : m.Stops key i) {slot : Slot}
    (hslot : m.slots[i]? = some slot) (hcell : m.cells i = some (key, slot.place))
    (hrun : at'.run ≠ EMPTY) :
    Refines { m with slots := m.slots.set i { slot with run := at'.run, offset := at'.offset } }
      (M.insert key at') := by
  obtain ⟨hsh, -⟩ := h.allocated (Nat.zero_lt_of_lt hi.lt)
  have he : slot.entry = some (key, slot.place) := by rw [← hcell, cells, hslot]; rfl
  have hkey : key = slot.key := congrArg fst (entry_eq_some.mp he).2
  set written : Slot := { slot with run := at'.run, offset := at'.offset } with hw
  have hentry : written.entry = some (key, at') := entry_eq_some.mpr ⟨hrun, Prod.ext hkey rfl⟩
  -- the tag is already there, so this is a write of slot and tag
  have hwrite : { m with slots := m.slots.set i written } = m.write i written written.tag := by
    have htag : written.tag = slot.tag := by
      rw [tag_of_entry hentry, tag_of_entry he]
    obtain ⟨_, rfl⟩ := List.getElem?_eq_some_iff.mp hslot
    rw [ChainBlockMap.write, htag, hsh.tags_eq, ← map_set, set_getElem_self]
  rw [hwrite]
  exact h.put hi hentry m.len (by rw [hcell]; rfl) h.load

theorem Refines.fill (h : Refines m M) (hroom : (m.len + 1) * 4 ≤ m.slots.length * 3)
    (hi : m.Stops key i) (hfree : m.cells i = none) (hrun : at'.run ≠ EMPTY) :
    Refines { m.write i { key, run := at'.run, offset := at'.offset } (fingerprint key) with
      len := m.len + 1 } (M.insert key at') := by
  have hentry : entry { key, run := at'.run, offset := at'.offset } = some (key, at') :=
    entry_eq_some.mpr ⟨hrun, rfl⟩
  have hput := h.put hi hentry (m.len + 1) (by rw [hfree]; rfl) hroom
  rwa [tag_of_entry hentry] at hput

theorem Refines.probe (h : Refines m M) (hn : 0 < m.slots.length) (key : UInt64) :
    ∃ i, m.Stops key i ∧ ((∃ slot, m.probe key = some (.ok i) ∧ m.slots[i]? = some slot ∧
        m.cells i = some (key, slot.place) ∧ M.lookup key = some slot.place) ∨
      m.cells i = none ∧ m.probe key = some (.error i) ∧ M.lookup key = none) := by
  obtain ⟨hsh, hlen⟩ := h.allocated hn
  obtain ⟨i, hi, ⟨⟨v, hc⟩, hp⟩ | ⟨hc, hp⟩⟩ := hsh.probe_spec h.probing hlen key
  · obtain ⟨slot, hslot, -, he⟩ := hsh.read hi.lt
    rw [hc] at he
    obtain ⟨-, hkv⟩ := entry_eq_some.mp he.symm
    cases hkv
    exact ⟨i, hi, .inl ⟨slot, hp, hslot, hc,
      (h.mem_iter _ _).mp (ChainBlockMap.mem_iter.mpr ⟨i, hi.lt, hc⟩)⟩⟩
  · refine ⟨i, hi, .inr ⟨hc, hp, Option.eq_none_iff_forall_ne_some.mpr fun v hM => ?_⟩⟩
    obtain ⟨p, hpn, hpv⟩ := ChainBlockMap.mem_iter.mp ((h.mem_iter key v).mpr hM)
    by_cases hpi : p = i
    · rw [hpi, hc] at hpv
      cases hpv
    · exact hi.absent p hpn hpi v hpv

theorem Refines.insert (h : Refines m M) (key : UInt64) (hrun : at'.run ≠ EMPTY) :
    ∃ m', m.insert key at' = some (m', M.lookup key) ∧ Refines m' (M.insert key at') := by
  obtain ⟨m1, hm1, h1, hroom⟩ := h.reserve 1
  rw [ChainBlockMap.insert, hm1]
  obtain ⟨i, hi, ⟨slot, hp, hslot, hc, hM⟩ | ⟨hc, hp, hM⟩⟩ := h1.probe (by omega) key
  · refine ⟨_, ?_, h1.replace hi hslot hc hrun⟩
    simp [hp, hslot, hM]
  · refine ⟨_, ?_, h1.fill hroom hi hc hrun⟩
    simp [hp, hM]

/-! ## Removing -/

theorem Shaped.backshift_succ (h : Shaped m) {hole next : Nat} (hh : hole < m.slots.length)
    (hn : next < m.slots.length) {slot : Slot}
    (hslot : m.slots[(next + 1) % m.slots.length]? = some slot) (fuel : Nat) :
    backshift (fuel + 1) m hole next =
      if slot.entry = none then some m
      else if dist m.slots.length hole ((next + 1) % m.slots.length) ≤
          dist m.slots.length (m.home slot.key) ((next + 1) % m.slots.length) then
        backshift fuel ((m.write hole slot slot.tag).write ((next + 1) % m.slots.length) EMPTY_SLOT
          VACANT) ((next + 1) % m.slots.length) ((next + 1) % m.slots.length)
      else backshift fuel m hole ((next + 1) % m.slots.length) := by
  have hcell_lt := succ_lt hn
  obtain ⟨s, hs, htag, -⟩ := h.read hcell_lt
  rw [hslot, Option.some.injEq] at hs
  rw [← hs] at htag
  rw [backshift, h.and_mask, htag, hslot]
  by_cases he : slot.entry = none
  · simp [he, tag_eq_vacant.mpr he]
  · simp [he, mt tag_eq_vacant.mp he, h.maskedSub_eq hcell_lt (h.home_lt _),
      h.maskedSub_eq hcell_lt hh]

/-- **The walk after a removal** ends, keeps the entries and leaves a table that is probed soundly.
`f` is a slot that is free all along; the walk ends there at the latest. -/
theorem backshift_spec {f : Nat} (fuel : Nat) :
    ∀ (m : ChainBlockMap) (hole next : Nat), Shaped m →
      Shifting m.slots.length m.home m.cells hole next → f < m.slots.length →
      m.cells f = none → f ≠ hole → next ≠ f → dist m.slots.length next f ≤ fuel →
      ∃ m', backshift fuel m hole next = some m' ∧ Laid m.slots.length m.len m.iter m' := by
  induction fuel with
  | zero =>
    intro m hole next _ hs hf _ _ hne hle
    exact absurd ((dist_eq_zero hs.next_lt).mp (Nat.le_zero.mp hle)) hne
  | succ fuel ih =>
    intro m hole next h hs hf hfree hfh hnf hle
    have hcell_lt := succ_lt hs.next_lt
    have hhome := h.home_lt
    obtain ⟨slot, hslot, -, hcell⟩ := h.read hcell_lt
    rw [h.backshift_succ hs.hole_lt hs.next_lt hslot]
    by_cases he : slot.entry = none
    · exact ⟨m, if_pos he, h, hs.finish hhome (hcell.trans he), rfl, rfl, Perm.refl _⟩
    · obtain ⟨⟨k, v⟩, hkv⟩ := Option.ne_none_iff_exists'.mp he
      have hv := hcell.trans hkv
      have hcf : (next + 1) % m.slots.length ≠ f := fun hc => by
        rw [hc, hfree] at hv
        cases hv
      have hdist := dist_succ_left hs.next_lt hf hnf
      have hk : k = slot.key := congrArg fst (entry_eq_some.mp hkv).2
      rw [if_neg he, ← hk]
      by_cases hmove : dist m.slots.length hole ((next + 1) % m.slots.length) ≤
          dist m.slots.length (m.home k) ((next + 1) % m.slots.length)
      · -- the slot at the walk is pulled into the hole
        set cell := (next + 1) % m.slots.length with hc
        have hcells : ((m.write hole slot slot.tag).write cell EMPTY_SLOT VACANT).cells =
            update (update m.cells hole (some (k, v))) cell none := by
          rw [cells_write (by rwa [length_write]), cells_write hs.hole_lt, hkv]
          rfl
        have hshift := hs.pull hhome hv hmove
        rw [← hcells] at hshift
        obtain ⟨m', hm', h'⟩ :=
          ih ((m.write hole slot slot.tag).write cell EMPTY_SLOT VACANT) cell cell
            ((h.write hole slot).write cell EMPTY_SLOT) (by simpa using hshift) (by simpa using hf)
            (by rw [hcells, update_of_ne (Ne.symm hcf), update_of_ne hfh, hfree])
            (Ne.symm hcf) hcf (by simp only [length_write]; omega)
        refine ⟨m', ?_, h'.shaped, h'.probing, by simpa using h'.size, h'.len_eq, h'.perm.trans ?_⟩
        · rw [if_pos hmove, hm']
        · obtain ⟨r1, hold1, hnew1⟩ := iter_write hs.hole_lt slot slot.tag
          obtain ⟨r2, hold2, hnew2⟩ := iter_write (m := m.write hole slot slot.tag)
            (by rwa [length_write]) EMPTY_SLOT VACANT
          have hne : cell ≠ hole := fun hch => by
            rw [hch, hs.hole_free] at hv
            cases hv
          rw [hs.hole_free] at hold1
          rw [hkv] at hnew1
          rw [cells_write hs.hole_lt, update_of_ne hne, hv] at hold2
          exact hnew2.trans (((hold2.symm.trans hnew1).cons_inv).trans hold1.symm)
      · obtain ⟨m', hm', hrest⟩ := ih m hole _ h (hs.keep hhome hv (not_le.mp hmove)) hf hfree hfh
          hcf (by omega)
        refine ⟨m', ?_, hrest⟩
        rw [if_neg hmove, hm']

section

variable (h : Refines m M)

include h

theorem Refines.lookup_of_len (h0 : m.len = 0) (key : UInt64) : M.lookup key = none :=
  Option.eq_none_iff_forall_ne_some.mpr fun v hv => by
    have hmem := (h.mem_iter key v).mpr hv
    rw [eq_nil_of_length_eq_zero (h.len_eq.trans h0)] at hmem
    cases hmem

theorem Refines.find (key : UInt64) :
    (∃ i < m.slots.length, ∃ slot, m.find key = some (some i) ∧ m.slots[i]? = some slot ∧
        m.cells i = some (key, slot.place) ∧ M.lookup key = some slot.place) ∨
      m.find key = some none ∧ M.lookup key = none := by
  rw [ChainBlockMap.find]
  by_cases h0 : m.len = 0
  · exact .inr ⟨if_pos h0, h.lookup_of_len h0 key⟩
  · rw [if_neg h0]
    have hn : 0 < m.slots.length := by
      have := h.load
      omega
    obtain ⟨i, hi, ⟨slot, hp, hrest⟩ | ⟨-, hp, hM⟩⟩ := h.probe hn key
    · exact .inl ⟨i, hi.lt, slot, by rw [hp]; rfl, hrest⟩
    · exact .inr ⟨by rw [hp]; rfl, hM⟩

theorem Refines.get (key : UInt64) : m.get key = some (M.lookup key) := by
  rw [ChainBlockMap.get]
  rcases h.find key with ⟨i, hi, slot, hf, hslot, -, hM⟩ | ⟨hf, hM⟩
  · simp [hf, hslot, hM]
  · simp [hf, hM]

theorem Refines.containsKey (key : UInt64) : m.containsKey key = some (M.lookup key).isSome := by
  rw [ChainBlockMap.containsKey]
  rcases h.find key with ⟨i, hi, slot, hf, hslot, -, hM⟩ | ⟨hf, hM⟩
  · simp [hf, hM]
  · simp [hf, hM]

theorem Refines.remove (key : UInt64) :
    ∃ m', m.remove key = some (m', M.lookup key) ∧ Refines m' (M.erase key) := by
  rw [ChainBlockMap.remove]
  rcases h.find key with ⟨hole, hhole, slot, hf, hslot, hc, hM⟩ | ⟨hf, hM⟩
  · obtain ⟨hsh, hlen⟩ := h.allocated (Nat.zero_lt_of_lt hhole)
    obtain ⟨f, hflt, hfree⟩ := exists_free hlen
    have hfh : f ≠ hole := fun he => by
      rw [he, hc] at hfree
      cases hfree
    set m1 : ChainBlockMap := { m.write hole EMPTY_SLOT VACANT with len := m.len - 1 } with hm1
    have hn1 : m1.slots.length = m.slots.length := length_write hole EMPTY_SLOT VACANT
    have hcells1 : m1.cells = update m.cells hole none := cells_write hhole EMPTY_SLOT VACANT
    have hsh1 : Shaped m1 := by
      obtain ⟨ht, hs⟩ := hsh.write hole EMPTY_SLOT
      exact ⟨ht, hs⟩
    have hshift : Shifting m1.slots.length m1.home m1.cells hole hole := by
      rw [hn1, hcells1]
      exact h.probing.erase hhole
    have hflt1 : f < m1.slots.length := by rwa [hn1]
    obtain ⟨m', hm', h'⟩ := backshift_spec m1.slots.length m1 hole hole hsh1
      hshift hflt1 (by rw [hcells1, update_of_ne hfh, hfree]) hfh (Ne.symm hfh)
      (dist_lt (by rwa [hn1]) hflt1).le
    obtain ⟨rest, hold, hnew⟩ := iter_write hhole EMPTY_SLOT VACANT
    rw [hc, Option.toList_some, singleton_append] at hold
    have hrest : m'.iter.Perm rest := h'.perm.trans hnew
    have hcount : rest.length + 1 = m.len := by
      rw [← h.len_eq, hold.length_eq, length_cons]
    refine ⟨m', ?_, ⟨.inr h'.shaped, h'.probing, ?_, ?_⟩, fun k v => ?_⟩
    · rw [hn1] at hm'
      simp [hf, hslot, ← hm1, hm', hM]
    · rw [hrest.length_eq, h'.len_eq]
      show rest.length = m.len - 1
      omega
    · have := h.load
      rw [h'.len_eq, h'.size, hn1]
      show (m.len - 1) * 4 ≤ m.slots.length * 3
      omega
    · rw [hrest.mem_iff, mem_rest (nodup_keys h.probing) hold, h.mem_iter,
        Table.lookup_erase_eq_some]
  · refine ⟨m, by simp [hf, hM], h.toSound, fun k v => ?_⟩
    rw [h.mem_iter, Table.lookup_erase_if]
    split
    · rename_i hk
      rw [hk, hM]
    · rfl

/-! ## Batches -/

theorem Refines.touch (key : UInt64) : m.touch key = some () := by
  rw [ChainBlockMap.touch]
  split
  · rfl
  · rename_i hne
    have hsh : Shaped m := h.shaped.resolve_left (by simpa using hne)
    obtain ⟨s, hs, ht, -⟩ := hsh.read (hsh.home_lt key)
    simp [hs, ht]

theorem Refines.touchAhead (keys : List UInt64) : m.touchAhead keys = some () := by
  rw [ChainBlockMap.touchAhead]
  split
  · exact h.touch _
  · rfl

theorem Refines.forM_touch (keys : List UInt64) : forM keys m.touch = some () := by
  induction keys with
  | nil => rfl
  | cons key keys ih =>
    rw [forM_cons, h.touch]
    exact ih

end

end ChainBlockMap

/-! ## The abstract map -/

/-- Removing a batch: the map, and the places the keys had. -/
def removeKeys : Table UInt64 BlockRef → List UInt64 → Table UInt64 BlockRef × List BlockRef
  | M, [] => (M, [])
  | M, key :: keys =>
    let (M', removed) := removeKeys (M.erase key) keys
    (M', (M.lookup key).toList ++ removed)

/-- Placing a batch of consecutive blocks: the map, and the displaced places with the new ones. -/
def placeRun (first : BlockRef) : Table UInt64 BlockRef → Nat → List UInt64 →
    Table UInt64 BlockRef × List (BlockRef × BlockRef)
  | M, _, [] => (M, [])
  | M, index, key :: keys =>
    let at' : BlockRef := { run := first.run, offset := first.offset + UInt32.ofNat index }
    let (M', moved) := placeRun first (M.insert key at') (index + 1) keys
    match M.lookup key with
    | some old => (M', if old ≠ at' then (old, at') :: moved else moved)
    | none => (M', moved)

namespace ChainBlockMap

variable {m : ChainBlockMap} {M : Table UInt64 BlockRef}

theorem Refines.removeLoop (keys : List UInt64) :
    ∀ {m : ChainBlockMap} {M : Table UInt64 BlockRef}, Refines m M →
      ∃ m', m.removeLoop keys = some (m', (removeKeys M keys).2) ∧
        Refines m' (removeKeys M keys).1 := by
  induction keys with
  | nil => exact fun {m M} h => ⟨m, rfl, h⟩
  | cons key keys ih =>
    intro m M h
    obtain ⟨m1, hm1, h1⟩ := h.remove key
    obtain ⟨m', hm', h'⟩ := ih h1
    refine ⟨m', ?_, h'⟩
    simp [ChainBlockMap.removeLoop, h.touchAhead, hm1, hm', removeKeys]

/-- Nothing is removed from an empty map. -/
theorem removeKeys_of_empty (keys : List UInt64) :
    ∀ {M : Table UInt64 BlockRef}, (∀ k, M.lookup k = none) →
      (removeKeys M keys).2 = [] ∧ ∀ k, (removeKeys M keys).1.lookup k = none := by
  induction keys with
  | nil => exact fun h => ⟨rfl, h⟩
  | cons key keys ih =>
    intro M h
    obtain ⟨h1, h2⟩ := ih fun k => by rw [Table.lookup_erase_if, h k, ite_self]
    exact ⟨by simp [removeKeys, h key, h1], h2⟩

theorem Refines.removeAll (h : Refines m M) (keys : List UInt64) :
    ∃ m', m.removeAll keys = some (m', (removeKeys M keys).2) ∧
      Refines m' (removeKeys M keys).1 := by
  rw [ChainBlockMap.removeAll]
  by_cases h0 : m.len = 0
  · have hnone := h.lookup_of_len h0
    obtain ⟨hreports, hkeys⟩ := removeKeys_of_empty keys hnone
    refine ⟨m, by rw [if_pos h0, hreports], h.toSound, fun k v => ?_⟩
    rw [h.mem_iter, hnone k, hkeys k]
  · obtain ⟨m', hm', h'⟩ := h.removeLoop keys
    refine ⟨m', ?_, h'⟩
    simp [h0, h.forM_touch, hm']

theorem Refines.insertLoop {first : BlockRef} (hrun : first.run ≠ EMPTY) (keys : List UInt64) :
    ∀ {m : ChainBlockMap} {M : Table UInt64 BlockRef} (index : Nat), Refines m M →
      (m.len + keys.length) * 4 ≤ m.slots.length * 3 →
      ∃ m', m.insertLoop first index keys = some (m', (placeRun first M index keys).2) ∧
        Refines m' (placeRun first M index keys).1 := by
  induction keys with
  | nil => exact fun {m M} _ h _ => ⟨m, rfl, h⟩
  | cons key keys ih =>
    intro m M index h hroom
    rw [length_cons] at hroom
    have hrun' : (BlockRef.mk first.run (first.offset + UInt32.ofNat index)).run ≠ EMPTY := hrun
    obtain ⟨i, hi, ⟨slot, hp, hslot, hc, hM⟩ | ⟨hc, hp, hM⟩⟩ := h.probe (by omega) key
    · have h1 := h.replace hi hslot hc hrun'
      obtain ⟨m', hm', h'⟩ := ih (index + 1) h1 (by
        show (m.len + keys.length) * 4 ≤ (m.slots.set i _).length * 3
        rw [length_set]
        omega)
      refine ⟨m', ?_, ?_⟩
      · simp [ChainBlockMap.insertLoop, h.touchAhead, hp, hslot, hM, placeRun, hm']
      · simpa [placeRun, hM] using h'
    · have h1 := h.fill (by omega) hi hc hrun'
      obtain ⟨m', hm', h'⟩ := ih (index + 1) h1 (by
        show (m.len + 1 + keys.length) * 4 ≤ (m.slots.set i _).length * 3
        rw [length_set]
        omega)
      refine ⟨m', ?_, ?_⟩
      · simp [ChainBlockMap.insertLoop, h.touchAhead, hp, hM, placeRun, hm']
      · simpa [placeRun, hM] using h'

theorem Refines.insertRun (h : Refines m M) (keys : List UInt64) {first : BlockRef}
    (hrun : first.run ≠ EMPTY) :
    ∃ m', m.insertRun keys first = some (m', (placeRun first M 0 keys).2) ∧
      Refines m' (placeRun first M 0 keys).1 := by
  obtain ⟨m1, hm1, h1, hroom⟩ := h.reserve keys.length
  obtain ⟨m', hm', h'⟩ := h1.insertLoop hrun keys 0 hroom
  refine ⟨m', ?_, h'⟩
  simp [ChainBlockMap.insertRun, hm1, h1.forM_touch, hm']

theorem Refines.iter_perm (h : Refines m M) :
    m.iter.Perm (M.entries.map fun e => (e.1, e.2)) := by
  refine (perm_ext_iff_of_nodup (nodup_keys h.probing).of_map ?_).mpr fun ⟨k, v⟩ => ?_
  · refine Nodup.map (fun a b hab => ?_) (NodupKeys.nodup M.nodupKeys)
    cases a
    cases b
    cases hab
    rfl
  · rw [h.mem_iter, ← Option.mem_def, AList.mem_lookup_iff, mem_map]
    constructor
    · exact fun hmem => ⟨_, hmem, rfl⟩
    · rintro ⟨e, he, heq⟩
      cases heq
      exact he

end ChainBlockMap

/-! ## Runs of calls -/

inductive MapCall
  | insert (key : UInt64) (place : BlockRef)
  | insertRun (keys : List UInt64) (first : BlockRef)
  | remove (key : UInt64)
  | removeAll (keys : List UInt64)
  | reserve (additional : Nat)
  | get (key : UInt64)
  | containsKey (key : UInt64)
  | iter
  | len
deriving DecidableEq, Repr

/-- What a call answers. -/
inductive MapAnswer
  | place (at' : Option BlockRef)
  | moved (reports : List (BlockRef × BlockRef))
  | removed (places : List BlockRef)
  | entries (es : List (UInt64 × BlockRef))
  | flag (b : Bool)
  | size (n : Nat)
  | done
deriving DecidableEq, Repr

def ChainBlockMap.call (m : ChainBlockMap) : MapCall → Option (ChainBlockMap × MapAnswer)
  | .insert key at' => (m.insert key at').map fun r => (r.1, .place r.2)
  | .insertRun keys first => (m.insertRun keys first).map fun r => (r.1, .moved r.2)
  | .remove key => (m.remove key).map fun r => (r.1, .place r.2)
  | .removeAll keys => (m.removeAll keys).map fun r => (r.1, .removed r.2)
  | .reserve additional => (m.reserve additional).map fun m' => (m', .done)
  | .get key => (m.get key).map fun r => (m, .place r)
  | .containsKey key => (m.containsKey key).map fun b => (m, .flag b)
  | .iter => some (m, .entries m.iter)
  | .len => some (m, .size m.len)

def mapCall (M : Table UInt64 BlockRef) : MapCall → Table UInt64 BlockRef × MapAnswer
  | .insert key at' => (M.insert key at', .place (M.lookup key))
  | .insertRun keys first =>
    ((placeRun first M 0 keys).1, .moved (placeRun first M 0 keys).2)
  | .remove key => (M.erase key, .place (M.lookup key))
  | .removeAll keys => ((removeKeys M keys).1, .removed (removeKeys M keys).2)
  | .reserve _ => (M, .done)
  | .get key => (M, .place (M.lookup key))
  | .containsKey key => (M, .flag (M.lookup key).isSome)
  | .iter => (M, .entries (M.entries.map fun e => (e.1, e.2)))
  | .len => (M, .size M.entries.length)

/-- Calls one after another on the table, with their answers. -/
def ChainBlockMap.calls : ChainBlockMap → List MapCall → Option (ChainBlockMap × List MapAnswer)
  | m, [] => some (m, [])
  | m, c :: cs => do
    let (m, answer) ← m.call c
    let (m, answers) ← m.calls cs
    return (m, answer :: answers)

def mapCalls : Table UInt64 BlockRef → List MapCall → Table UInt64 BlockRef × List MapAnswer
  | M, [] => (M, [])
  | M, c :: cs =>
    let (M, answer) := mapCall M c
    let (M, answers) := mapCalls M cs
    (M, answer :: answers)

/-- Two answers agree: they are the same, and an iteration may have its own order. -/
def MapAnswer.Agrees : MapAnswer → MapAnswer → Prop
  | .entries es, .entries es' => es.Perm es'
  | a, b => a = b

/-- The run id a call places blocks in is not the empty marker. -/
def MapCall.Placeable : MapCall → Prop
  | .insert _ at' => at'.run ≠ EMPTY
  | .insertRun _ first => first.run ≠ EMPTY
  | _ => True

instance : DecidablePred MapCall.Placeable := fun c => by
  cases c <;> unfold MapCall.Placeable <;> infer_instance

namespace ChainBlockMap

variable {m : ChainBlockMap} {M : Table UInt64 BlockRef}

theorem Refines.call (h : Refines m M) {c : MapCall} (hc : c.Placeable) :
    ∃ m' a, m.call c = some (m', a) ∧ a.Agrees (mapCall M c).2 ∧ Refines m' (mapCall M c).1 := by
  rcases c with ⟨key, at'⟩ | ⟨keys, first⟩ | key | keys | additional | key | key | _ | _
  · obtain ⟨m', hm', h'⟩ := h.insert key hc
    exact ⟨m', (mapCall M (.insert key at')).2, by rw [ChainBlockMap.call, hm']; rfl, rfl, h'⟩
  · obtain ⟨m', hm', h'⟩ := h.insertRun keys hc
    exact ⟨m', (mapCall M (.insertRun keys first)).2, by rw [ChainBlockMap.call, hm']; rfl, rfl, h'⟩
  · obtain ⟨m', hm', h'⟩ := h.remove key
    exact ⟨m', (mapCall M (.remove key)).2, by rw [ChainBlockMap.call, hm']; rfl, rfl, h'⟩
  · obtain ⟨m', hm', h'⟩ := h.removeAll keys
    exact ⟨m', (mapCall M (.removeAll keys)).2, by rw [ChainBlockMap.call, hm']; rfl, rfl, h'⟩
  · obtain ⟨m', hm', h', -⟩ := h.reserve additional
    exact ⟨m', (mapCall M (.reserve additional)).2, by rw [ChainBlockMap.call, hm']; rfl, rfl, h'⟩
  · exact ⟨m, (mapCall M (.get key)).2, by rw [ChainBlockMap.call, h.get]; rfl, rfl, h⟩
  · exact ⟨m, (mapCall M (.containsKey key)).2,
      by rw [ChainBlockMap.call, h.containsKey]; rfl, rfl, h⟩
  · exact ⟨m, _, rfl, h.iter_perm, h⟩
  · refine ⟨m, _, rfl, ?_, h⟩
    show MapAnswer.size m.len = MapAnswer.size M.entries.length
    rw [← h.len_eq, h.iter_perm.length_eq, length_map]

theorem Refines.calls (cs : List MapCall) :
    ∀ {m : ChainBlockMap} {M : Table UInt64 BlockRef}, Refines m M → (∀ c ∈ cs, c.Placeable) →
      ∃ m' answers, m.calls cs = some (m', answers) ∧
        List.Forall₂ MapAnswer.Agrees answers (mapCalls M cs).2 ∧ Refines m' (mapCalls M cs).1 := by
  induction cs with
  | nil => exact fun {m M} h _ => ⟨m, [], rfl, .nil, h⟩
  | cons c cs ih =>
    intro m M h hcs
    obtain ⟨m1, a, hm1, ha, h1⟩ := h.call (hcs c mem_cons_self)
    obtain ⟨m', answers, hm', has, h'⟩ := ih h1 fun c hc => hcs c (mem_cons_of_mem _ hc)
    refine ⟨m', a :: answers, ?_, .cons ha has, h'⟩
    simp [ChainBlockMap.calls, hm1, hm']

end ChainBlockMap

/-- **The lane map is a finite map.**  Every sequence of calls that places blocks in runs other than
the empty marker returns, so that no probe loop goes round for ever, and each call answers what the
map from engine hashes to places answers: an insert the place it replaces, a batch of inserts the
displaced places, one report for each key that moved, a removal the place that was there, and an
iteration each entry once. -/
theorem chainBlockMap_refines_map (cs : List MapCall) (h : ∀ c ∈ cs, c.Placeable) :
    ∃ m answers, ChainBlockMap.new.calls cs = some (m, answers) ∧
      List.Forall₂ MapAnswer.Agrees answers (mapCalls ∅ cs).2 ∧
      m.Refines (mapCalls ∅ cs).1 :=
  ChainBlockMap.Refines.calls cs ChainBlockMap.refines_new h

/-- A batch that names a key twice, a removal and a look-up. -/
theorem chainBlockMap_refines_map_repeated_key :
    (∀ c ∈ [MapCall.insertRun [1, 2, 1] ⟨5, 0⟩, .remove 2, .get 1, .iter], c.Placeable) ∧
      ∃ m answers, ChainBlockMap.new.calls
          [.insertRun [1, 2, 1] ⟨5, 0⟩, .remove 2, .get 1, .iter] = some (m, answers) ∧
        List.Forall₂ MapAnswer.Agrees answers
          [.moved [(⟨5, 0⟩, ⟨5, 2⟩)], .place (some ⟨5, 1⟩), .place (some ⟨5, 2⟩),
            .entries [(1, ⟨5, 2⟩)]] := by
  refine ⟨by decide, ?_⟩
  obtain ⟨m, answers, hrun, hanswers, -⟩ := chainBlockMap_refines_map
    [.insertRun [1, 2, 1] ⟨5, 0⟩, .remove 2, .get 1, .iter] (by decide)
  exact ⟨m, answers, hrun, hanswers⟩

end Smg.KvIndex
