import Smg.Lib.LinkedCells
import Smg.Lib.PairMerge
import Smg.Tokenizer.MergeTableCorrect

/-!
# Short pieces are merged by the rule

`ShortMerge` keeps a linked list over arrays and for each live symbol the key of the pair it starts.
`Holds m live` says that the arrays hold the list `live` of symbols with their positions, that the
pairs of `live` that merge have their keys, and that no other key is set.  Then the least key is the
place of least rank and, among its repeats, of least position, and `mergeAt` leads to the list after
that merge (`Holds.mergeAt`).  By induction the loop ends with the list that `PairMerge.reduce`
gives (`runWith_eq`).
-/

set_option autoImplicit false

namespace Smg.Tokenizer

open PairMerge LinkedCells MergeTable List Option
open Prod (fst snd)

/-- The rule of a lookup: the pairs that it finds a merge for. -/
def ruleOf (look : UInt32 → UInt32 → Merge) : PairMerge.Rule UInt32 := fun a b =>
  if look a b = Merge.none then none else some ((look a b).rank.toNat, (look a b).product)

variable {k : Nat}

theorem ruleOf_eq_some {look : UInt32 → UInt32 → Merge} {a b p : UInt32} :
    ruleOf look a b = some (k, p) ↔
      look a b ≠ Merge.none ∧ k = (look a b).rank.toNat ∧ p = (look a b).product := by
  rw [ruleOf]
  split
  next h => simp [h]
  next h => simp [h, eq_comm]

/-- Somewhere in the list two neighbours merge; the product stands where the first stood. -/
abbrev Meets (look : UInt32 → UInt32 → Merge) := Fires (positioned (ruleOf look))

/-- Where the positions of the parts are. -/
structure Apart (l : List (Nat × UInt32)) (a b : Nat × UInt32) (r : List (Nat × UInt32)) :
    Prop where
  left_sorted : (l.map fst).Pairwise (· < ·)
  left_lt : ∀ u ∈ l, u.1 < a.1
  lt : a.1 < b.1
  right_gt : ∀ v ∈ r, b.1 < v.1

theorem apart {l r : List (Nat × UInt32)} {a b : Nat × UInt32}
    (h : ((l ++ a :: b :: r).map fst).Pairwise (· < ·)) : Apart l a b r := by
  rw [map_append, pairwise_append, map_cons, map_cons, pairwise_cons,
    pairwise_cons] at h
  exact ⟨h.1, fun u hu => h.2.2 u.1 (mem_map_of_mem hu) a.1 (by simp),
    h.2.1.1 b.1 (by simp), fun v hv => h.2.1.2.1 v.1 (mem_map_of_mem hv)⟩

theorem Apart.head_ne {l r : List (Nat × UInt32)} {a b v : Nat × UInt32} (h : Apart l a b r)
    (hv : r.head? = some v) : v.1 ≠ a.1 ∧ v.1 ≠ b.1 := by
  have := h.lt
  have := h.right_gt v (mem_of_mem_head? hv)
  omega

def pairMerges (look : UInt32 → UInt32 → Merge) (symbols : List UInt32) : List Merge :=
  List.zipWith look symbols symbols.tail

/-- What a piece is merged with: a table that answers the lookup, whose ranks fit the keys. -/
structure Looks (table : MergeTable) (look : UInt32 → UInt32 → Merge) : Prop where
  mergeOf_eq : ∀ a b, table.mergeOf a b = some (look a b)
  rank_lt : ∀ a b, look a b ≠ Merge.none → (look a b).rank.toNat < 2 ^ 25

/-! ## The least key -/

theorem le_foldl_min {xs : List UInt32} {b v : UInt32} :
    v ≤ xs.foldl min b ↔ v ≤ b ∧ ∀ x ∈ xs, v ≤ x :=
  (List.le_min_iff (cons_ne_nil b xs)).trans forall_mem_cons

theorem le_zipWith_min {xs ys : List UInt32} (hlen : xs.length = ys.length) {v : UInt32} :
    (∀ x ∈ zipWith min xs ys, v ≤ x) ↔ (∀ x ∈ xs, v ≤ x) ∧ ∀ y ∈ ys, v ≤ y := by
  induction xs generalizing ys with
  | nil =>
    obtain rfl := length_eq_zero_iff.mp hlen.symm
    simp
  | cons x xs ih =>
    cases ys with
    | nil => cases hlen
    | cons y ys =>
      simp only [zipWith_cons_cons, mem_cons, forall_eq_or_imp,
        ih (Nat.succ.inj hlen), Std.LawfulOrderInf.le_min_iff]
      tauto

theorem le_noKey (key : UInt32) : key ≤ noKey := by
  have := key.toNat_lt
  change key.toNat ≤ 4294967295
  omega

variable {keys : List UInt32}

namespace ShortMerge

/-- The lanes have the bounds of the keys that went through them. -/
theorem le_lanes {size : Nat} (chunks : Nat) {acc : List UInt32} (hacc : acc.length = size)
    (hkeys : size * chunks ≤ keys.length) {v : UInt32} : (∀ x ∈ lanes size chunks keys acc, v ≤ x) ↔
      (∀ x ∈ acc, v ≤ x) ∧ ∀ x ∈ keys.take (size * chunks), v ≤ x := by
  induction chunks generalizing keys acc with
  | zero => simp [lanes]
  | succ chunks ih =>
    rw [Nat.mul_succ] at hkeys
    have htake : (keys.take size).length = size := length_take_of_le (by omega)
    rw [lanes, ih (by rw [length_zipWith, hacc, htake, min_self])
      (by rw [length_drop]; omega), le_zipWith_min (hacc.trans htake.symm), and_assoc,
      show size * (chunks + 1) = size + size * chunks by rw [Nat.mul_succ, add_comm],
      take_add]
    simp only [mem_append, or_imp, forall_and]

/-- The least of the first keys, rounded up to eight: no less than a bound if they all are. -/
theorem least_spec {m : ShortMerge} {len : Nat} (hlen : (len + 7) / 8 * 8 ≤ m.keys.length) :
    ∃ best, m.least len = some best ∧
      ∀ v, v ≤ best ↔ ∀ key ∈ m.keys.take ((len + 7) / 8 * 8), v ≤ key := by
  refine ⟨_, if_pos hlen, fun v => ?_⟩
  have hlim : 8 * ((len + 7) / 8 * 8 / 8) = (len + 7) / 8 * 8 := by omega
  rw [le_foldl_min, le_lanes _ length_replicate (by omega), hlim]
  constructor
  · exact fun h => h.2.2
  · exact fun h => ⟨le_noKey v, fun x hx => eq_of_mem_replicate hx ▸ le_noKey v, h⟩

end ShortMerge

/-! ## Keys -/

def keyOf (merge : Merge) (pos : Nat) : UInt32 :=
  if merge = Merge.none then noKey else merge.rank <<< shortKeyBits ||| UInt32.ofNat pos

theorem keyOf_toNat {merge : Merge} {pos : Nat} (hm : merge ≠ Merge.none)
    (hrank : merge.rank.toNat < 2 ^ 25) (hpos : pos < 128) :
    (keyOf merge pos).toNat = merge.rank.toNat * 128 + pos := by
  rw [keyOf, if_neg hm, UInt32.toNat_or, UInt32.toNat_ofNat_of_lt' (by change pos < 2 ^ 32; omega)]
  change merge.rank.toNat <<< 7 % 2 ^ 32 ||| pos = _
  rw [Nat.mod_eq_of_lt (by omega),
    ← Nat.shiftLeft_add_eq_or_of_lt (show pos < 2 ^ 7 by omega), Nat.shiftLeft_eq]

/-- The position of a key. -/
theorem and_shortKeyMask {key : UInt32} {pos : Nat} (h : key.toNat = k * 128 + pos)
    (hpos : pos < 128) : (key &&& shortKeyMask).toNat = pos := by
  change key.toNat &&& (2 ^ 7 - 1) = pos
  rw [Nat.and_two_pow_sub_one_eq_mod]
  omega

/-! ## The steps of a merge -/

variable {α : Type} {i : Nat}

theorem write_eq {xs : List α} (h : i < xs.length) (x : α) :
    write xs i x = some (xs.set i x) := if_pos h

namespace ShortMerge

variable {m : ShortMerge} {table : MergeTable} {look : UInt32 → UInt32 → Merge}

/-- A neighbour that an array names, if it is a position. -/
def neighbour (links : List UInt8) (n p : Nat) : Option Nat :=
  (links[p]?).bind fun q => if q.toNat < n then some q.toNat else none

def cells (m : ShortMerge) : Cells UInt32 where
  sym p := m.symbols[p]?
  next p := neighbour m.next m.n p
  prev p := neighbour m.prev m.n p

def productsWith (products : List UInt32) (pos : Nat) (merge : Merge) : List UInt32 :=
  if merge = Merge.none then products else products.set pos merge.product

@[simp] theorem length_productsWith (products : List UInt32) (pos : Nat) (merge : Merge) :
    (productsWith products pos merge).length = products.length := by
  rw [productsWith]
  split
  · rfl
  · exact length_set

theorem setPair_eq {pos : Nat} (hkeys : pos < m.keys.length) (hproducts : pos < m.products.length)
    (merge : Merge) :
    m.setPair pos merge =
      some ({ m with products := productsWith m.products pos merge,
                     keys := m.keys.set pos (keyOf merge pos) }, keyOf merge pos) := by
  rw [setPair, productsWith, keyOf]
  split
  · rw [write_eq hkeys]
    rfl
  · simp only [write_eq hproducts, write_eq hkeys, bind_eq_bind]
    rfl

/-- The merge of a pair whose second symbol may be missing. -/
def aheadMerge (look : UInt32 → UInt32 → Merge) (id : UInt32) (right : Option (Nat × UInt32)) :
    Merge :=
  (right.map fun v => look id v.2).getD Merge.none

/-- The merge of a pair whose first symbol may be missing. -/
def behindMerge (look : UInt32 → UInt32 → Merge) (left : Option (Nat × UInt32)) (id : UInt32) :
    Merge :=
  (left.map fun u => look u.2 id).getD Merge.none

def setAt {α : Type} (xs : List α) (pos : Option Nat) (x : α) : List α :=
  (pos.map fun i => xs.set i x).getD xs

theorem getElem?_setAt (xs : List α) (pos : Option Nat) (x : α) (i : Nat) :
    (setAt xs pos x)[i]? = if pos = some i then (xs[i]?).map fun _ => x else xs[i]? := by
  cases pos with
  | none => rfl
  | some j =>
    rw [setAt, map_some, getD_some, getElem?_set']
    by_cases h : j = i
    · subst h
      rw [if_pos rfl, if_pos rfl]
      rfl
    · rw [if_neg h, if_neg fun heq => h (some.inj heq)]

@[simp] theorem length_setAt (xs : List α) (pos : Option Nat) (x : α) :
    (setAt xs pos x).length = xs.length := by
  cases pos with
  | none => rfl
  | some j => exact length_set

/-- The place of a neighbour: where an array that names it points. -/
def Points (n : Nat) (raw : Nat) (item : Option (Nat × UInt32)) : Prop :=
  (if raw < n then some raw else none) = item.map fst

theorem Points.none {n raw : Nat} (h : Points n raw none) : ¬ raw < n := fun hn => by
  rw [Points, if_pos hn] at h
  cases h

theorem Points.some {n raw : Nat} {v : Nat × UInt32} (h : Points n raw (some v)) :
    v.1 < n ∧ raw = v.1 := by
  rw [Points] at h
  split at h
  next hn =>
    cases h
    exact ⟨hn, rfl⟩
  · cases h

theorem aheadOf_eq (hlooks : Looks table look) {pos right : Nat} {id : UInt32}
    {item : Option (Nat × UInt32)} (hright : Points m.n right item)
    (hprev : ∀ v, item = some v → v.1 < m.prev.length) (hid : m.symbols[pos]? = some id)
    (hsym : ∀ v, item = some v → m.symbols[v.1]? = some v.2) :
    m.aheadOf table pos right =
      some ({ m with prev := setAt m.prev (item.map fst) (UInt8.ofNat pos) },
        aheadMerge look id item) := by
  rw [aheadOf]
  cases item with
  | none =>
    rw [if_neg hright.none]
    rfl
  | some v =>
    obtain ⟨hn, rfl⟩ := hright.some
    rw [if_pos hn, write_eq (hprev v rfl), hid, hsym v rfl]
    simp only [bind_eq_bind, bind_some, hlooks.mergeOf_eq]
    rfl

theorem behindOf_eq (hlooks : Looks table look) {pos left : Nat} {id : UInt32}
    {item : Option (Nat × UInt32)} (hleft : Points m.n left item)
    (hkeys : ∀ u, item = some u → u.1 < m.keys.length) (hid : m.symbols[pos]? = some id)
    (hsym : ∀ u, item = some u → m.symbols[u.1]? = some u.2) :
    m.behindOf table pos left =
      some ({ m with keys := setAt m.keys (item.map fst) noKey }, behindMerge look item id) := by
  rw [behindOf]
  cases item with
  | none =>
    rw [if_neg hleft.none]
    rfl
  | some u =>
    obtain ⟨hn, rfl⟩ := hleft.some
    rw [if_pos hn, write_eq (hkeys u rfl), hsym u rfl, hid]
    simp only [bind_eq_bind, bind_some, hlooks.mergeOf_eq]
    rfl

/-- The key of a pair whose place may be missing. -/
def keyAt (merge : Merge) (pos : Option Nat) : UInt32 := (pos.map (keyOf merge)).getD noKey

theorem setLeft_eq {left : Nat} {item : Option (Nat × UInt32)} (hleft : Points m.n left item)
    (hkeys : ∀ u, item = some u → u.1 < m.keys.length)
    (hproducts : ∀ u, item = some u → u.1 < m.products.length) (merge : Merge) :
    m.setLeft left merge =
      some ({ m with
        products := if merge = Merge.none then m.products
          else setAt m.products (item.map fst) merge.product,
        keys := setAt m.keys (item.map fst) (keyAt merge (item.map fst)) },
        keyAt merge (item.map fst)) := by
  rw [setLeft]
  cases item with
  | none =>
    rw [if_neg hleft.none]
    simp [setAt, keyAt]
  | some u =>
    obtain ⟨hn, rfl⟩ := hleft.some
    rw [if_pos hn, setPair_eq (hkeys u rfl) (hproducts u rfl)]
    rfl

theorem unlink_eq {pos : Nat} {product : UInt32} {dead right left : UInt8}
    (hproduct : m.products[pos]? = some product) (hdead : m.next[pos]? = some dead)
    (hright : m.next[dead.toNat]? = some right) (hleft : m.prev[pos]? = some left)
    (hsymbols : pos < m.symbols.length) (hkeys : pos < m.keys.length)
    (hkeys' : dead.toNat < m.keys.length) :
    m.unlink pos =
      some ({ m with
        symbols := m.symbols.set pos product
        next := m.next.set pos right
        keys := (m.keys.set dead.toNat noKey).set pos noKey }, right.toNat, left.toNat) := by
  obtain ⟨hnext, -⟩ := List.getElem?_eq_some_iff.mp hdead
  rw [unlink, hproduct, hdead, hleft]
  simp only [bind_eq_bind, bind_some, write_eq hsymbols, hright, write_eq hnext,
    write_eq hkeys']
  rw [write_eq (by rw [length_set]; exact hkeys)]
  rfl

/-! ## The invariant -/

/-- The arrays hold the live symbols with their positions, and the keys of the pairs that merge. -/
structure Holds (m : ShortMerge) (size : Nat) (look : UInt32 → UInt32 → Merge)
    (live : List (Nat × UInt32)) : Prop where
  symbols_length : m.symbols.length = size
  products_length : m.products.length = size
  keys_length : m.keys.length = size
  next_length : m.next.length = size
  prev_length : m.prev.length = size
  n_le : m.n ≤ size
  size_le : size ≤ 128
  size_mod : size % 8 = 0
  sorted : (live.map fst).Pairwise (· < ·)
  below : ∀ x ∈ live, x.1 < m.n
  first : live.head?.map fst = some 0
  linked : Linked m.cells none live
  /-- A pair that merges has its key and its product. -/
  fired : ∀ k x, Meets look live k x →
    (∃ key, m.keys[x.1]? = some key ∧ key.toNat = k * 128 + x.1) ∧ m.products[x.1]? = some x.2
  keyed : ∀ i key, m.keys[i]? = some key → key ≠ noKey →
    ∃ k x, Meets look live k x ∧ x.1 = i

def Best (m : ShortMerge) (best : UInt32) : Prop := ∀ v, v ≤ best ↔ ∀ key ∈ m.keys, v ≤ key

variable {x : Nat × UInt32}

theorem fires_positions {live : List (Nat × UInt32)}
    (hsorted : (live.map fst).Pairwise (· < ·)) (h : Meets look live k x) :
    ∃ l a b r, live = l ++ a :: b :: r ∧ x.1 = a.1 ∧ a.1 < b.1 ∧ look a.2 b.2 ≠ Merge.none ∧
      k = (look a.2 b.2).rank.toNat ∧ x.2 = (look a.2 b.2).product := by
  obtain ⟨l, r, a, b, rfl, hrule⟩ := h
  rw [positioned_eq_some, ruleOf_eq_some] at hrule
  exact ⟨l, a, b, r, rfl, hrule.1, (apart hsorted).lt, hrule.2⟩

namespace Holds

variable {size : Nat} {live : List (Nat × UInt32)}

/-- A pair starts before the last position. -/
theorem fires_lt (h : m.Holds size look live) (hx : Meets look live k x) : x.1 + 1 < m.n := by
  obtain ⟨l, a, b, r, rfl, hxa, hab, -⟩ := fires_positions h.sorted hx
  have := h.below b (by simp)
  omega

/-- **The least key names the next merge.** -/
theorem least_of_best (h : m.Holds size look live) {best : UInt32} (hbest : m.Best best)
    (hne : best ≠ noKey) :
    ∃ l k x r, Least (positioned (ruleOf look)) live l k x r ∧
      (best &&& shortKeyMask).toNat = x.1 := by
  have heq : best = m.keys.foldl min noKey := by
    refine UInt32.le_antisymm ?_ ?_
    · exact le_foldl_min.mpr ⟨le_noKey best, (hbest best).mp UInt32.le_rfl⟩
    · exact (hbest _).mpr (le_foldl_min.mp UInt32.le_rfl).2
  have hmem : best ∈ m.keys := by
    rcases mem_cons.mp (min_mem (cons_ne_nil noKey m.keys)) with h' | h'
    · exact absurd (heq.trans h') hne
    · exact heq ▸ h'
  obtain ⟨i, hi, hkey⟩ := mem_iff_getElem.mp hmem
  have hget : m.keys[i]? = some best := hkey ▸ getElem?_eq_getElem hi
  obtain ⟨k, x, hfires, rfl⟩ := h.keyed i best hget hne
  have hn := h.n_le
  have hsize := h.size_le
  have hlt := h.fires_lt hfires
  obtain ⟨⟨key, hkey', hnat⟩, -⟩ := h.fired k x hfires
  rw [hget, some.injEq] at hkey'
  subst hkey'
  obtain ⟨l, r, hsite⟩ := id hfires
  refine ⟨l, k, x, r, least_of_sorted h.sorted hsite fun k' x' hfires' => ?_,
    and_shortKeyMask hnat (by omega)⟩
  obtain ⟨⟨key', hget', hnat'⟩, -⟩ := h.fired k' x' hfires'
  have hlt' := h.fires_lt hfires'
  have hle := (hbest best).mp UInt32.le_rfl key' (mem_of_getElem? hget')
  rw [UInt32.le_iff_toNat_le] at hle
  omega

theorem next_eq_none (h : m.Holds size look live) (hlooks : Looks table look)
    (hbest : m.Best noKey) : PairMerge.next (positioned (ruleOf look)) live = none := by
  rw [next_eq_none_iff]
  intro l k x r hsite
  obtain ⟨⟨key, hget, hnat⟩, -⟩ := h.fired k x hsite.fires
  have hlt := h.fires_lt hsite.fires
  have hn := h.n_le
  have hsize := h.size_le
  have hle := (hbest noKey).mp UInt32.le_rfl key (mem_of_getElem? hget)
  obtain ⟨l', a, b, r', -, -, -, hne, hk, -⟩ := fires_positions h.sorted hsite.fires
  have hrank := hlooks.rank_lt a.2 b.2 hne
  rw [UInt32.le_iff_toNat_le] at hle
  change 4294967295 ≤ _ at hle
  omega

end Holds

/-! ## A merge -/

theorem getElem?_cleared {p q : Nat} {left : Option Nat} (i : Nat) :
    (setAt ((keys.set q noKey).set p noKey) left noKey)[i]? = (keys[i]?).map fun key =>
      if left = some i ∨ i = p ∨ i = q then noKey else key := by
  rw [getElem?_setAt, getElem?_set', getElem?_set']
  cases keys[i]? with
  | none => simp
  | some key => by_cases hl : left = some i <;> grind

namespace Holds

variable {size : Nat} {live : List (Nat × UInt32)}

/-- What the arrays say of two neighbours. -/
structure Pair (m : ShortMerge) (size : Nat) (l : List (Nat × UInt32)) (a b : Nat × UInt32)
    (r : List (Nat × UInt32)) (right left : UInt8) : Prop where
  first_lt : a.1 < size
  second_lt : b.1 < size
  next_at : ∃ dead : UInt8, m.next[a.1]? = some dead ∧ dead.toNat = b.1
  right_at : m.next[b.1]? = some right
  left_at : m.prev[a.1]? = some left
  right_points : Points m.n right.toNat r.head?
  left_points : Points m.n left.toNat l.getLast?
  right_item : ∀ v, r.head? = some v → v.1 < size ∧ v.1 ≠ a.1 ∧ m.symbols[v.1]? = some v.2
  left_item : ∀ u, l.getLast? = some u → u.1 < size ∧ u.1 ≠ a.1 ∧ m.symbols[u.1]? = some u.2

theorem points_of_neighbour {links : List UInt8} {n p : Nat} {item : Option (Nat × UInt32)}
    (hp : p < links.length) (h : neighbour links n p = item.map fst) :
    ∃ raw : UInt8, links[p]? = some raw ∧ Points n raw.toNat item := by
  have hget := getElem?_eq_getElem hp
  refine ⟨_, hget, ?_⟩
  rw [neighbour, hget] at h
  exact h

theorem exists_pair {l r : List (Nat × UInt32)} {a b : Nat × UInt32}
    (h : m.Holds size look (l ++ a :: b :: r)) :
    ∃ right left, Pair m size l a b r right left := by
  have ha := h.linked.item
  have hb := @Linked.item _ _ _ (l ++ [a]) r b (by simpa using h.linked)
  have hapart := apart h.sorted
  have hlt : ∀ x ∈ l ++ a :: b :: r, x.1 < size := fun x hx => (h.below x hx).trans_le h.n_le
  have hnext : neighbour m.next m.n a.1 = (some b).map fst := ha.2.2.1
  have hnext' : neighbour m.next m.n b.1 = r.head?.map fst := hb.2.2.1
  have hprev : neighbour m.prev m.n a.1 = l.getLast?.map fst := ha.2.1.trans or_none
  obtain ⟨dead, hdead, hpd⟩ := points_of_neighbour (h.next_length.symm ▸ hlt a (by simp)) hnext
  obtain ⟨right, hright, hpr⟩ :=
    points_of_neighbour (h.next_length.symm ▸ hlt b (by simp)) hnext'
  obtain ⟨left, hleft, hpl⟩ := points_of_neighbour (h.prev_length.symm ▸ hlt a (by simp)) hprev
  refine ⟨right, left, hlt a (by simp), hlt b (by simp), ⟨dead, hdead, hpd.some.2⟩,
    hright, hleft, hpr, hpl, fun v hv => ?_, fun u hu => ?_⟩
  · obtain ⟨t, rfl⟩ := head?_eq_some_iff.mp hv
    have hitem := @Linked.item _ _ _ (l ++ [a, b]) t v (by simpa using h.linked)
    exact ⟨hlt v (by simp), (hapart.head_ne hv).1, hitem.1⟩
  · obtain ⟨t, rfl⟩ := getLast?_eq_some_iff.mp hu
    have hitem := @Linked.item _ _ _ t (a :: b :: r) u (by simpa using h.linked)
    exact ⟨hlt u (by simp), ne_of_lt (hapart.left_lt u (by simp)), hitem.1⟩

/-- The arrays with the second symbol out of the list, the product in place of the first, and no key
for the pairs that the product changes. -/
def unlinked (m : ShortMerge) (p dead : Nat) (prod : UInt32) (raw : UInt8)
    (left right : Option Nat) : ShortMerge :=
  { m with
    symbols := m.symbols.set p prod
    next := m.next.set p raw
    prev := setAt m.prev right (UInt8.ofNat p)
    keys := setAt ((m.keys.set dead noKey).set p noKey) left noKey }

/-- The arrays with the two pairs that the product forms. -/
def paired (m : ShortMerge) (p : Nat) (left : Option Nat) (ahead behind : Merge) : ShortMerge :=
  { m with
    products := if behind = Merge.none then productsWith m.products p ahead
      else setAt (productsWith m.products p ahead) left behind.product
    keys := setAt (m.keys.set p (keyOf ahead p)) left (keyAt behind left) }

/-- Recording the two pairs after the others were compared. -/
theorem pairs_eq {p left : Nat} {item : Option (Nat × UInt32)} (hkeys : m.keys.length = size)
    (hproducts : m.products.length = size) (hp : p < size) (hleft : Points m.n left item)
    (hitem : ∀ u, item = some u → u.1 < size) (len : Nat) (ahead behind : Merge) :
    ((m.least len).bind fun others => (m.setPair p ahead).bind fun x =>
      (x.1.setLeft left behind).bind fun y => pure (y.1, min (min others x.2) y.2)) =
      (m.least len).map fun others =>
        (paired m p (item.map fst) ahead behind,
          min (min others (keyOf ahead p)) (keyAt behind (item.map fst))) := by
  cases m.least len with
  | none => rfl
  | some others =>
    rw [bind_some, setPair_eq (hkeys.symm ▸ hp) (hproducts.symm ▸ hp), bind_some]
    rw [@setLeft_eq { m with products := productsWith m.products p ahead,
                             keys := m.keys.set p (keyOf ahead p) } left item hleft
      (fun u hu => by simpa [hkeys] using hitem u hu)
      (fun u hu => by simpa [hproducts] using hitem u hu)]
    rfl

/-- The arrays after the merge of two neighbours. -/
def merged (m : ShortMerge) (look : UInt32 → UInt32 → Merge) (l : List (Nat × UInt32))
    (a b : Nat × UInt32) (prod : UInt32) (r : List (Nat × UInt32)) (right : UInt8) : ShortMerge :=
  paired (unlinked m a.1 b.1 prod right (l.getLast?.map fst) (r.head?.map fst)) a.1
    (l.getLast?.map fst) (aheadMerge look prod r.head?) (behindMerge look l.getLast? prod)

theorem mergeAt_eq {l r : List (Nat × UInt32)} {a b : Nat × UInt32} {prod : UInt32}
    {right left : UInt8} (h : m.Holds size look (l ++ a :: b :: r))
    (hpair : Pair m size l a b r right left) (hlooks : Looks table look)
    (hproduct : m.products[a.1]? = some prod) :
    m.mergeAt table a.1 =
      ((unlinked m a.1 b.1 prod right (l.getLast?.map fst) (r.head?.map fst)).least
        (m.n - 1)).map fun others => (merged m look l a b prod r right,
          min (min others (keyOf (aheadMerge look prod r.head?) a.1))
            (keyAt (behindMerge look l.getLast? prod) (l.getLast?.map fst))) := by
  obtain ⟨dead, hdead, hdead'⟩ := hpair.next_at
  have hsym : a.1 < m.symbols.length := h.symbols_length.symm ▸ hpair.first_lt
  have hkeys : a.1 < m.keys.length := h.keys_length.symm ▸ hpair.first_lt
  have hid : (m.symbols.set a.1 prod)[a.1]? = some prod := getElem?_set_self hsym
  rw [ShortMerge.mergeAt, unlink_eq hproduct hdead (hdead' ▸ hpair.right_at) hpair.left_at
    hsym hkeys (by rw [hdead', h.keys_length]; exact hpair.second_lt), hdead']
  simp only [bind_eq_bind, bind_some]
  rw [@aheadOf_eq { m with symbols := m.symbols.set a.1 prod, next := m.next.set a.1 right,
                           keys := (m.keys.set b.1 noKey).set a.1 noKey }
    table look hlooks a.1 right.toNat prod r.head? hpair.right_points
    (fun v hv => h.prev_length.symm ▸ (hpair.right_item v hv).1) hid
    (fun v hv => (getElem?_set_ne (Ne.symm (hpair.right_item v hv).2.1)).trans
      (hpair.right_item v hv).2.2)]
  simp only [bind_some]
  rw [@behindOf_eq { m with symbols := m.symbols.set a.1 prod, next := m.next.set a.1 right,
                            prev := setAt m.prev (r.head?.map fst) (UInt8.ofNat a.1),
                            keys := (m.keys.set b.1 noKey).set a.1 noKey }
    table look hlooks a.1 left.toNat prod l.getLast? hpair.left_points
    (fun u hu => by simpa [h.keys_length] using (hpair.left_item u hu).1) hid
    (fun u hu => (getElem?_set_ne (Ne.symm (hpair.left_item u hu).2.1)).trans
      (hpair.left_item u hu).2.2)]
  refine pairs_eq (m := unlinked m a.1 b.1 prod right (l.getLast?.map fst)
    (r.head?.map fst)) ?_ h.products_length hpair.first_lt hpair.left_points
    (fun u hu => (hpair.left_item u hu).1) _ _ _
  rw [unlinked, length_setAt, length_set, length_set, h.keys_length]

/-! The list after a merge, with `m'` for the arrays after it. -/

variable {s : List (Nat × UInt32)}

section Merged

variable {l r : List (Nat × UInt32)} {a b : Nat × UInt32} {prod : UInt32} {right left : UInt8}

/-- The products after a pair at a place that may be missing was recorded. -/
theorem getElem?_recorded (products : List UInt32) (pos : Option Nat) (merge : Merge) (i : Nat) :
    (if merge = Merge.none then products else setAt products pos merge.product)[i]? =
      (products[i]?).map fun product =>
        if pos = some i ∧ merge ≠ Merge.none then merge.product else product := by
  split
  next h => simp [h]
  next h =>
    rw [getElem?_setAt]
    by_cases hp : pos = some i <;> simp [hp, h]

theorem merged_products (i : Nat) :
    (merged m look l a b prod r right).products[i]? = (m.products[i]?).map fun product =>
      if l.getLast?.map fst = some i ∧ behindMerge look l.getLast? prod ≠ Merge.none then
        (behindMerge look l.getLast? prod).product
      else if i = a.1 ∧ aheadMerge look prod r.head? ≠ Merge.none then
        (aheadMerge look prod r.head?).product
      else product := by
  have hahead := getElem?_recorded m.products (some a.1) (aheadMerge look prod r.head?) i
  refine (getElem?_recorded _ _ _ i).trans ((congrArg _ hahead).trans ?_)
  simp only [Option.map_map, Function.comp_def, some.injEq, @eq_comm _ a.1]

variable {k : Nat} {x : Nat × UInt32}

theorem fires_lt_last (hsorted : (s.map fst).Pairwise (· < ·)) {w : Nat × UInt32}
    (h : Meets look s k x) (hw : s.getLast? = some w) : x.1 < w.1 := by
  obtain ⟨t, u, v, t', rfl, hxu, -, -⟩ := fires_positions hsorted h
  have hmem : w ∈ v :: t' := by
    have : (v :: t').getLast? = some w := by simpa using hw
    exact mem_of_getLast? this
  rw [map_append, pairwise_append] at hsorted
  rw [hxu]
  exact (pairwise_cons.mp hsorted.2.1).1 w.1 (mem_map_of_mem hmem)

theorem fires_mem (h : Meets look s k x) : x.1 ∈ s.map fst := by
  obtain ⟨t, t', u, v, rfl, hrule⟩ := h
  rw [(positioned_eq_some.mp hrule).1]
  simp

theorem untouched_left (hapart : Apart l a b r) (h : Meets look l k x) :
    l.getLast?.map fst ≠ some x.1 ∧ x.1 ≠ a.1 ∧ x.1 ≠ b.1 := by
  obtain ⟨u, hu, hux⟩ := mem_map.mp (fires_mem h)
  have hxa := hapart.left_lt u hu
  have hab := hapart.lt
  refine ⟨fun heq => ?_, by omega, by omega⟩
  obtain ⟨w, hw, hwx⟩ := map_eq_some_iff.mp heq
  have := fires_lt_last hapart.left_sorted h hw
  omega

theorem untouched_right (hapart : Apart l a b r) (h : Meets look r k x) :
    l.getLast?.map fst ≠ some x.1 ∧ x.1 ≠ a.1 ∧ x.1 ≠ b.1 := by
  obtain ⟨v, hv, hvx⟩ := mem_map.mp (fires_mem h)
  have hbv := hapart.right_gt v hv
  have hab := hapart.lt
  refine ⟨fun heq => ?_, by omega, by omega⟩
  obtain ⟨w, hw, hwx⟩ := map_eq_some_iff.mp heq
  have := hapart.left_lt w (mem_of_getLast? hw)
  omega

theorem fires_of_right (h : Meets look r k x) :
    Meets look (l ++ a :: b :: r) k x :=
  fires_append_cons.mpr (.inr (.inr (.inr (fires_cons.mpr (.inr h)))))

theorem getElem?_unlinked_keys {key : UInt32} :
    (unlinked m a.1 b.1 prod right (l.getLast?.map fst) (r.head?.map fst)).keys[i]? =
        some key →
      key = noKey ∨ (l.getLast?.map fst ≠ some i ∧ i ≠ a.1 ∧ i ≠ b.1) ∧ m.keys[i]? = some key := by
  intro h
  obtain ⟨old, hold, rfl⟩ := map_eq_some_iff.mp ((getElem?_cleared i).symm.trans h)
  split
  · exact .inl rfl
  next hnot =>
    rw [not_or, not_or] at hnot
    exact .inr ⟨hnot, hold⟩

section

variable (hpair : Pair m size l a b r right left)

include hpair

theorem getLast?_ne : l.getLast?.map fst ≠ some a.1 := by
  intro heq
  obtain ⟨u, hu, hua⟩ := map_eq_some_iff.mp heq
  exact (hpair.left_item u hu).2.1 hua

theorem merged_keys (i : Nat) :
    (merged m look l a b prod r right).keys[i]? = (m.keys[i]?).map fun key =>
      if l.getLast?.map fst = some i then
        keyAt (behindMerge look l.getLast? prod) (l.getLast?.map fst)
      else if i = a.1 then keyOf (aheadMerge look prod r.head?) a.1
      else if i = b.1 then noKey else key := by
  have hleft := getLast?_ne hpair
  rw [merged, paired, unlinked, getElem?_setAt, getElem?_set', getElem?_cleared]
  generalize l.getLast?.map fst = left at *
  cases m.keys[i]? with
  | none => simp
  | some key => by_cases hl : left = some i <;> grind

variable (h : m.Holds size look (l ++ a :: b :: r))

include h

theorem joined :
    Joined m.cells (merged m look l a b prod r right).cells a.1 b.1 prod := by
  have hnext := (@Linked.item _ _ _ (l ++ [a]) r b (by simpa using h.linked)).2.2.1
  have hsym : a.1 < m.symbols.length := h.symbols_length.symm ▸ hpair.first_lt
  have hlen : a.1 < m.next.length := h.next_length.symm ▸ hpair.first_lt
  have ha := h.below a (by simp)
  refine ⟨getElem?_set_self hsym, fun i hi _ => getElem?_set_ne (Ne.symm hi), ?_,
    fun i hi => ?_, fun i hi => ?_, fun i hi => ?_⟩
  · change neighbour (m.next.set a.1 right) m.n a.1 = neighbour m.next m.n b.1
    rw [neighbour, neighbour, getElem?_set_self hlen, hpair.right_at]
  · change neighbour (m.next.set a.1 right) m.n i = neighbour m.next m.n i
    rw [neighbour, neighbour, getElem?_set_ne (Ne.symm hi)]
  · rw [hnext] at hi
    change neighbour (setAt m.prev (r.head?.map fst) (UInt8.ofNat a.1)) m.n i = some a.1
    obtain ⟨v, hv, rfl⟩ := map_eq_some_iff.mp hi
    have hi_lt : v.1 < m.prev.length := h.prev_length.symm ▸ (hpair.right_item v hv).1
    have hsize := h.size_le
    have hbyte : (UInt8.ofNat a.1).toNat = a.1 :=
      UInt8.toNat_ofNat_of_lt' (show a.1 < 256 from hpair.first_lt.trans_le (by omega))
    rw [neighbour, getElem?_setAt, if_pos hi, getElem?_eq_getElem hi_lt, map_some,
      bind_some, hbyte, if_pos ha]
  · rw [hnext] at hi
    change neighbour (setAt m.prev (r.head?.map fst) (UInt8.ofNat a.1)) m.n i =
      neighbour m.prev m.n i
    rw [neighbour, neighbour, getElem?_setAt, if_neg hi]

theorem merged_fired (hlooks : Looks table look) (k : Nat) (x : Nat × UInt32)
    (hx : Meets look (l ++ (a.1, prod) :: r) k x) :
    (∃ key, (merged m look l a b prod r right).keys[x.1]? = some key ∧ key.toNat = k * 128 + x.1) ∧
      (merged m look l a b prod r right).products[x.1]? = some x.2 := by
  have hsize := h.size_le
  -- a pair that the merge does not touch keeps what it had
  have hkeep : Meets look (l ++ a :: b :: r) k x →
      l.getLast?.map fst ≠ some x.1 ∧ x.1 ≠ a.1 ∧ x.1 ≠ b.1 →
      (∃ key, (merged m look l a b prod r right).keys[x.1]? = some key ∧
        key.toNat = k * 128 + x.1) ∧
        (merged m look l a b prod r right).products[x.1]? = some x.2 := by
    rintro hold ⟨hl, ha, hb⟩
    obtain ⟨⟨key, hkey, hnat⟩, hproduct⟩ := h.fired k x hold
    rw [merged_keys hpair, merged_products, hkey, hproduct]
    refine ⟨⟨key, ?_, hnat⟩, ?_⟩
    · simp [hl, ha, hb]
    · simp [hl, ha]
  rcases fires_append_cons.mp hx with hx | ⟨u, hu, hrule⟩ | ⟨v, hv, hrule⟩ | hx
  · exact hkeep (fires_append_cons.mpr (.inl hx)) (untouched_left (apart h.sorted) hx)
  · -- the pair that the product ends
    rw [positioned_eq_some, ruleOf_eq_some] at hrule
    obtain ⟨hxu, hne, hk, hprod⟩ := hrule
    have hpos : l.getLast?.map fst = some x.1 := by rw [hu, map_some, hxu]
    have hbehind : behindMerge look l.getLast? prod = look u.2 prod := by rw [hu]; rfl
    have hlt := (hpair.left_item u hu).1
    rw [merged_keys hpair, merged_products, hbehind, hpos,
      getElem?_eq_getElem (h.keys_length.symm ▸ hxu ▸ hlt),
      getElem?_eq_getElem (h.products_length.symm ▸ hxu ▸ hlt)]
    refine ⟨⟨keyOf (look u.2 prod) x.1, by simp [keyAt], ?_⟩, ?_⟩
    · rw [keyOf_toNat hne (hlooks.rank_lt _ _ hne) (by omega), hk]
    · rw [hprod]
      simp [hne]
  · -- the pair that it starts
    rw [positioned_eq_some, ruleOf_eq_some] at hrule
    obtain ⟨hxa, hne, hk, hprod⟩ := hrule
    have hahead : aheadMerge look prod r.head? = look prod v.2 := by rw [hv]; rfl
    have hl := getLast?_ne hpair
    have hlt := hpair.first_lt
    rw [merged_keys hpair, merged_products, hahead, hxa,
      getElem?_eq_getElem (h.keys_length.symm ▸ hlt),
      getElem?_eq_getElem (h.products_length.symm ▸ hlt)]
    refine ⟨⟨keyOf (look prod v.2) a.1, by simp [hl], ?_⟩, ?_⟩
    · rw [keyOf_toNat hne (hlooks.rank_lt _ _ hne) (by omega), hk]
    · rw [hprod]
      simp [hl, hne]
  · exact hkeep (fires_of_right hx) (untouched_right (apart h.sorted) hx)

theorem merged_keyed (i : Nat) (key : UInt32)
    (hkey : (merged m look l a b prod r right).keys[i]? = some key) (hne : key ≠ noKey) :
    ∃ k x, Meets look (l ++ (a.1, prod) :: r) k x ∧ x.1 = i := by
  rw [merged_keys hpair, map_eq_some_iff] at hkey
  obtain ⟨old, hold, rfl⟩ := hkey
  split at hne
  next hl =>
    obtain ⟨u, hu, rfl⟩ := map_eq_some_iff.mp hl
    have hbehind : behindMerge look l.getLast? prod = look u.2 prod := by rw [hu]; rfl
    have hm : look u.2 prod ≠ Merge.none := by
      intro hm
      rw [hbehind, hl, hm] at hne
      exact hne rfl
    exact ⟨_, (u.1, (look u.2 prod).product), fires_append_cons.mpr (.inr (.inl ⟨u, hu,
      positioned_eq_some.mpr ⟨rfl, ruleOf_eq_some.mpr ⟨hm, rfl, rfl⟩⟩⟩)), rfl⟩
  next hl =>
    split at hne
    next hi =>
      obtain ⟨v, hv⟩ : ∃ v, r.head? = some v := by
        rw [← ne_none_iff_exists']
        intro hr
        rw [hr] at hne
        exact hne rfl
      have hm : look prod v.2 ≠ Merge.none := by
        intro hm
        rw [hv, aheadMerge, map_some, hm] at hne
        exact hne rfl
      exact ⟨_, (a.1, (look prod v.2).product), fires_append_cons.mpr (.inr (.inr (.inl
        ⟨v, hv, positioned_eq_some.mpr ⟨rfl, ruleOf_eq_some.mpr ⟨hm, rfl, rfl⟩⟩⟩))), hi.symm⟩
    next hi =>
      split at hne
      · exact absurd rfl hne
      next hib =>
        obtain ⟨k, x, hx, rfl⟩ := h.keyed i old hold hne
        refine ⟨k, x, ?_, rfl⟩
        rcases fires_append_cons.mp hx with hx | ⟨u, hu, hrule⟩ | ⟨v, hv, hrule⟩ | hx
        · exact fires_append_cons.mpr (.inl hx)
        · rw [positioned_eq_some] at hrule
          exact absurd (by rw [hu, map_some, hrule.1]) hl
        · rw [positioned_eq_some] at hrule
          exact absurd hrule.1 hi
        · rcases fires_cons.mp hx with ⟨v, hv, hrule⟩ | hx
          · rw [positioned_eq_some] at hrule
            exact absurd hrule.1 hib
          · exact fires_append_cons.mpr (.inr (.inr (.inr hx)))

theorem holds_merged (hlooks : Looks table look) :
    (merged m look l a b prod r right).Holds size look (l ++ (a.1, prod) :: r) where
  symbols_length := length_set.trans h.symbols_length
  products_length := by
    change (if behindMerge look l.getLast? prod = Merge.none then
      productsWith m.products a.1 (aheadMerge look prod r.head?) else setAt
        (productsWith m.products a.1 (aheadMerge look prod r.head?)) _ _).length = size
    split <;> simp [h.products_length]
  keys_length := by
    change (setAt ((setAt ((m.keys.set _ _).set _ _) _ _).set _ _) _ _).length = _
    simp [h.keys_length]
  next_length := length_set.trans h.next_length
  prev_length := (length_setAt _ _ _).trans h.prev_length
  n_le := h.n_le
  size_le := h.size_le
  size_mod := h.size_mod
  sorted := by
    refine h.sorted.sublist ?_
    simp only [map_append]
    exact (Sublist.refl _).append ((sublist_cons_self _ _).cons_cons _)
  below x hx := by
    rcases mem_append.mp hx with hx | hx
    · exact h.below x (mem_append_left _ hx)
    · rcases mem_cons.mp hx with rfl | hx
      · exact h.below a (by simp)
      · exact h.below x (by simp [hx])
  first := by
    have := h.first
    cases l <;> exact this
  linked := h.linked.join (h.sorted.imp ne_of_lt) (joined hpair h)
  fired := merged_fired hpair h hlooks
  keyed := merged_keyed hpair h

theorem best_merged {others : UInt32}
    (hbound : ∀ v, v ≤ others ↔ ∀ key ∈ (unlinked m a.1 b.1 prod right (l.getLast?.map fst)
      (r.head?.map fst)).keys.take ((m.n - 1 + 7) / 8 * 8), v ≤ key) :
    (merged m look l a b prod r right).Best
      (min (min others (keyOf (aheadMerge look prod r.head?) a.1))
        (keyAt (behindMerge look l.getLast? prod) (l.getLast?.map fst))) := by
  have hkeys : ∀ i, i < size → ∃ key, m.keys[i]? = some key := fun i hi =>
    ⟨_, getElem?_eq_getElem (h.keys_length.symm ▸ hi)⟩
  intro v
  rw [Std.LawfulOrderInf.le_min_iff, Std.LawfulOrderInf.le_min_iff, hbound]
  constructor
  · rintro ⟨⟨hothers, hahead⟩, hbehind⟩ key hkey
    obtain ⟨i, hi, rfl⟩ := mem_iff_getElem.mp hkey
    have hget := getElem?_eq_getElem hi
    rw [merged_keys hpair, map_eq_some_iff] at hget
    obtain ⟨old, hold, heq⟩ := hget
    rw [← heq]
    split
    · exact hbehind
    next hl =>
      split
      · exact hahead
      next ha =>
        split
        · exact le_noKey v
        next hb =>
          by_cases hne : old = noKey
          · exact hne ▸ le_noKey v
          · obtain ⟨k, x, hx, rfl⟩ := h.keyed i old hold hne
            have hlt := h.fires_lt hx
            refine hothers old (mem_of_getElem? (i := x.1) ?_)
            rw [getElem?_take_of_lt (by omega)]
            exact (getElem?_cleared x.1).trans (by simp [hold, hl, ha, hb])
  · intro hall
    have hat : ∀ i key, (merged m look l a b prod r right).keys[i]? = some key → v ≤ key :=
      fun i key hi => hall key (mem_of_getElem? hi)
    refine ⟨⟨fun key hkey => ?_, ?_⟩, ?_⟩
    · obtain ⟨i, hi, rfl⟩ := mem_iff_getElem.mp (mem_of_mem_take hkey)
      rcases getElem?_unlinked_keys (getElem?_eq_getElem hi) with hno | ⟨⟨hl, ha, hb⟩, hold⟩
      · exact hno ▸ le_noKey v
      · exact hat i _ (by rw [merged_keys hpair, hold]; simp [hl, ha, hb])
    · obtain ⟨old, hold⟩ := hkeys a.1 hpair.first_lt
      exact hat a.1 _ (by rw [merged_keys hpair, hold]; simp [getLast?_ne hpair])
    · cases hl : l.getLast? with
      | none => exact le_noKey v
      | some u =>
        obtain ⟨old, hold⟩ := hkeys u.1 (hpair.left_item u hl).1
        exact hat u.1 _ (by rw [merged_keys hpair, hold]; simp [hl])

end

/-- **One merge**: the arrays hold the list after it, and the answer is the least key. -/
theorem mergeAt (h : m.Holds size look live) (hlooks : Looks table look)
    (hsite : Site (positioned (ruleOf look)) live l k x r) :
    ∃ m' best, m.mergeAt table x.1 = some (m', best) ∧ m'.Holds size look (l ++ x :: r) ∧
      m'.Best best := by
  have hproduct := (h.fired k x hsite.fires).2
  obtain ⟨a, b, rfl, hrule⟩ := hsite
  obtain ⟨p, prod⟩ := x
  obtain rfl : p = a.1 := (positioned_eq_some.mp hrule).1
  obtain ⟨right, left, hpair⟩ := h.exists_pair
  have hmod := h.size_mod
  have hn := h.n_le
  obtain ⟨others, hothers, hbound⟩ := @least_spec
    (unlinked m a.1 b.1 prod right (l.getLast?.map fst) (r.head?.map fst)) (m.n - 1) (by
      rw [unlinked, length_setAt, length_set, length_set, h.keys_length]
      omega)
  refine ⟨_, _, ?_, holds_merged hpair h hlooks, best_merged hpair h hbound⟩
  rw [mergeAt_eq h hpair hlooks hproduct, hothers]
  rfl

end Merged

theorem length_le (h : m.Holds size look live) : live.length ≤ m.n := by
  have hsub : (live.map fst).toFinset ⊆ Finset.range m.n := by
    intro i hi
    obtain ⟨x, hx, rfl⟩ := mem_map.mp (mem_toFinset.mp hi)
    exact mem_range.mpr (h.below x hx)
  have hcard := Finset.card_le_card hsub
  rwa [Finset.card_range, toFinset_card_of_nodup (h.sorted.imp ne_of_lt),
    length_map] at hcard

/-- **The loop ends with the list after all merges.** -/
theorem settleFrom (hlooks : Looks table look) {turns : Nat} {best : UInt32}
    (h : m.Holds size look live) (hbest : m.Best best) (hturns : live.length < turns) :
    ∃ m', settleFrom table turns m best = some m' ∧
      m'.Holds size look (reduce (positioned (ruleOf look)) live) := by
  induction turns generalizing m live best with
  | zero => exact absurd hturns (Nat.not_lt_zero _)
  | succ turns ih =>
    rw [ShortMerge.settleFrom]
    by_cases hne : best = noKey
    · rw [if_pos hne, reduce_of_none (h.next_eq_none hlooks (hne ▸ hbest))]
      exact ⟨m, rfl, h⟩
    · obtain ⟨l, k, x, r, hleast, hat⟩ := h.least_of_best hbest hne
      obtain ⟨m', best', hmerge, hholds, hbest'⟩ := h.mergeAt hlooks hleast.site
      have hlen := length_next hleast.next
      rw [if_neg hne, hat, hmerge, reduce_least hleast]
      exact ih hholds hbest' (by omega)

theorem liveFrom_eq {before : Option Nat} (hlinked : Linked m.cells before s)
    (hlt : ∀ x ∈ s, x.1 < m.n) (hlen : m.n ≤ m.next.length) {pos turns : Nat}
    (hpos : Points m.n pos s.head?) (hturns : s.length < turns) :
    m.liveFrom turns pos = some (s.map snd) := by
  induction s generalizing before pos turns with
  | nil =>
    obtain ⟨turns, rfl⟩ := Nat.exists_eq_add_of_lt hturns
    rw [liveFrom, if_neg hpos.none]
    rfl
  | cons x s ih =>
    obtain ⟨turns, rfl⟩ : ∃ t, turns = t + 1 := ⟨turns - 1, by omega⟩
    obtain ⟨hx, rfl⟩ := hpos.some
    obtain ⟨hsym, -, hnext, hrest⟩ := hlinked
    obtain ⟨raw, hraw, hpoints⟩ := points_of_neighbour (hx.trans_le hlen) hnext
    have hrec := ih hrest (fun y hy => hlt y (mem_cons_of_mem x hy)) hpoints
      (Nat.lt_of_succ_lt_succ hturns)
    change m.symbols[x.1]? = some x.2 at hsym
    rw [liveFrom, if_pos hx, hsym, hraw]
    simp only [bind_eq_bind, bind_some, hrec]
    rfl

theorem settle_eq (h : m.Holds size look live) (hlooks : Looks table look) {pairs : Nat}
    {best : UInt32} (hleast : m.least pairs = some best) (hbest : m.Best best) (ids : List UInt32) :
    m.settle table pairs ids =
      some (ids ++ (reduce (positioned (ruleOf look)) live).map snd) := by
  obtain ⟨m', hsettle, h'⟩ := h.settleFrom hlooks hbest (Nat.lt_succ_of_le h.length_le)
  have hpoints : Points m'.n 0 (reduce (positioned (ruleOf look)) live).head? := by
    rw [Points, h'.first]
    obtain ⟨x, hx, hx0⟩ := map_eq_some_iff.mp h'.first
    exact if_pos (hx0 ▸ h'.below x (mem_of_mem_head? hx))
  have hlive := liveFrom_eq h'.linked h'.below (h'.next_length.symm ▸ h'.n_le) hpoints
    (Nat.lt_succ_of_le h'.length_le)
  rw [settle, hleast]
  simp only [bind_eq_bind, bind_some, hsettle, hlive]
  rfl

end Holds

/-! ## The first round -/

theorem setPairs_spec {merges : List Merge} {pos : Nat}
    (hkeys : pos + merges.length ≤ m.keys.length)
    (hproducts : pos + merges.length ≤ m.products.length) :
    ∃ products keys, m.setPairs pos merges = some { m with products, keys } ∧
      products.length = m.products.length ∧ keys.length = m.keys.length ∧
      (∀ i merge, merges[i]? = some merge → keys[pos + i]? = some (keyOf merge (pos + i)) ∧
        (merge ≠ Merge.none → products[pos + i]? = some merge.product)) ∧
      (∀ i, i < pos ∨ pos + merges.length ≤ i →
        keys[i]? = m.keys[i]? ∧ products[i]? = m.products[i]?) := by
  induction merges generalizing m pos with
  | nil => exact ⟨_, _, rfl, rfl, rfl, fun i merge h => absurd h (by simp), fun i _ => ⟨rfl, rfl⟩⟩
  | cons merge merges ih =>
    rw [length_cons] at hkeys hproducts
    have hpos : pos < m.keys.length := by omega
    have hpos' : pos < m.products.length := by omega
    obtain ⟨products, keys, hset, hplen, hklen, hin, hout⟩ := @ih
      { m with products := productsWith m.products pos merge,
               keys := m.keys.set pos (keyOf merge pos) } (pos + 1)
      (by rw [length_set]; omega) (by rw [length_productsWith]; omega)
    rw [length_productsWith] at hplen
    rw [length_set] at hklen
    refine ⟨products, keys, ?_, hplen, hklen, fun i merge' hi => ?_, fun i hi => ?_⟩
    · rw [setPairs, setPair_eq hpos hpos']
      exact hset
    · cases i with
      | zero =>
        obtain rfl : merge = merge' := by simpa using hi
        obtain ⟨hk, hp⟩ := hout pos (.inl (Nat.lt_succ_self pos))
        rw [add_zero, hk, hp, getElem?_set_self hpos]
        refine ⟨rfl, fun hm => ?_⟩
        rw [productsWith, if_neg hm, getElem?_set_self hpos']
      | succ i =>
        rw [show pos + (i + 1) = pos + 1 + i by omega]
        exact hin i merge' (by simpa using hi)
    · rw [length_cons] at hi
      obtain ⟨hk, hp⟩ := hout i (by omega)
      have hne : pos ≠ i := by omega
      rw [hk, hp, getElem?_set_ne hne, productsWith]
      refine ⟨rfl, ?_⟩
      split
      · rfl
      · exact getElem?_set_ne hne

variable {symbols : List UInt32}

theorem getElem?_pairMerges {a b : UInt32} (ha : symbols[i]? = some a)
    (hb : symbols[i + 1]? = some b) : (pairMerges look symbols)[i]? = some (look a b) := by
  rw [pairMerges, getElem?_zipWith, ha, getElem?_tail, hb]

theorem length_pairMerges (symbols : List UInt32) :
    (pairMerges look symbols).length = symbols.length - 1 := by
  rw [pairMerges, length_zipWith, length_tail]
  omega

theorem fires_numbered : Meets look (numbered symbols 0) k x ↔
      ∃ a b, symbols[x.1]? = some a ∧ symbols[x.1 + 1]? = some b ∧
        ruleOf look a b = some (k, x.2) := by
  constructor
  · rintro ⟨l, r, u, v, hlive, hrule⟩
    rw [positioned_eq_some] at hrule
    have hu : (numbered symbols 0)[l.length]? = some u := by
      rw [hlive, getElem?_append_right (le_refl _), Nat.sub_self]
      rfl
    have hv : (numbered symbols 0)[l.length + 1]? = some v := by
      rw [hlive, getElem?_append_right (Nat.le_succ _), Nat.succ_sub (le_refl _),
        Nat.sub_self]
      rfl
    rw [getElem?_numbered, map_eq_some_iff] at hu hv
    obtain ⟨a, ha, rfl⟩ := hu
    obtain ⟨b, hb, rfl⟩ := hv
    rw [hrule.1, zero_add]
    exact ⟨a, b, ha, hb, hrule.2⟩
  · rintro ⟨a, b, ha, hb, hrule⟩
    obtain ⟨i, p⟩ := x
    have ha' : (numbered symbols 0)[i]? = some (i, a) := by
      rw [getElem?_numbered, ha, map_some, zero_add]
    have hb' : (numbered symbols 0)[i + 1]? = some (i + 1, b) := by
      rw [getElem?_numbered, hb, map_some, zero_add]
    obtain ⟨hi, hia⟩ := List.getElem?_eq_some_iff.mp ha'
    obtain ⟨hi', hib⟩ := List.getElem?_eq_some_iff.mp hb'
    refine ⟨(numbered symbols 0).take i, (numbered symbols 0).drop (i + 2), (i, a), (i + 1, b), ?_,
      positioned_eq_some.mpr ⟨rfl, hrule⟩⟩
    rw [← hia, ← hib, getElem_cons_drop, getElem_cons_drop, take_append_drop]

theorem linked_ofSymbols {size : Nat} (hlen : symbols.length ≤ size) (hsize : size ≤ 128) :
    Linked (ofSymbols size symbols).cells none (numbered symbols 0) := by
  have hmin : min symbols.length size = symbols.length := min_eq_left hlen
  have hlinks : ∀ (f : Nat → UInt8) (pad : List UInt8) (i : Nat), i < symbols.length →
      ((range (min symbols.length size)).map f ++ pad)[i]? = some (f i) := by
    intro f pad i hi
    rw [hmin, getElem?_append_left (by simpa using hi), getElem?_map,
      getElem?_range hi]
    rfl
  have hbyte : ∀ i, i < 256 → (UInt8.ofNat i).toNat = i := fun i hi => UInt8.toNat_ofNat_of_lt' hi
  refine linked_numbered (fun i a ha => ?_) (fun i hi => ?_) (fun i hi => ?_)
  · rw [zero_add]
    change (symbols.take size ++ replicate (size - symbols.length) 0)[i]? = some a
    obtain ⟨hi, -⟩ := List.getElem?_eq_some_iff.mp ha
    rw [take_of_length_le hlen, getElem?_append_left hi, ha]
  · rw [zero_add]
    change neighbour (_ ++ _) symbols.length i = _
    rw [neighbour, hlinks _ _ i hi, bind_some, hbyte (i + 1) (by omega)]
  · rw [zero_add]
    change neighbour (_ ++ _) symbols.length i = _
    rw [neighbour, hlinks _ _ i hi, bind_some]
    by_cases h0 : i = 0
    · subst h0
      rw [if_pos rfl, if_neg]
      change ¬ 255 < symbols.length
      omega
    · have hsub : (UInt8.ofNat i - 1).toNat = i - 1 := by
        rw [UInt8.toNat_sub_of_le _ _ (by
          rw [UInt8.le_iff_toNat_le, hbyte i (by omega)]
          exact Nat.one_le_iff_ne_zero.mpr h0), hbyte i (by omega)]
        rfl
      rw [hsub, if_pos (by omega), if_neg h0]

/-- The products and keys after the first round: those of the merges of neighbours, no others. -/
structure FirstRound (look : UInt32 → UInt32 → Merge) (symbols : List UInt32) (size : Nat)
    (products keys : List UInt32) : Prop where
  products_length : products.length = size
  keys_length : keys.length = size
  inside : ∀ i a b, symbols[i]? = some a → symbols[i + 1]? = some b →
    keys[i]? = some (keyOf (look a b) i) ∧
      (look a b ≠ Merge.none → products[i]? = some (look a b).product)
  outside : ∀ i key, symbols.length - 1 ≤ i → keys[i]? = some key → key = noKey

theorem setPairs_ofSymbols {size : Nat} {symbols : List UInt32} (hlen : symbols.length ≤ size) :
    ∃ products keys, (ofSymbols size symbols).setPairs 0 (pairMerges look symbols) =
        some { ofSymbols size symbols with products, keys } ∧
      FirstRound look symbols size products keys := by
  have hmerges := @length_pairMerges look symbols
  have hkeys : (ofSymbols size symbols).keys = replicate size noKey := rfl
  have hproducts : (ofSymbols size symbols).products = replicate size 0 := rfl
  obtain ⟨products, keys, hset, hplen, hklen, hin, hout⟩ :=
    @setPairs_spec (ofSymbols size symbols) (pairMerges look symbols) 0
      (by rw [hkeys, length_replicate]; omega)
      (by rw [hproducts, length_replicate]; omega)
  simp only [zero_add] at hin hout
  rw [hproducts, length_replicate] at hplen
  rw [hkeys, length_replicate] at hklen
  refine ⟨products, keys, hset, hplen, hklen,
    fun i a b ha hb => hin i _ (getElem?_pairMerges ha hb), fun i key hi hkey => ?_⟩
  rw [(hout i (.inr (by omega))).1] at hkey
  exact eq_of_mem_replicate (mem_of_getElem? hkey)

namespace FirstRound

variable {symbols products keys : List UInt32} {size : Nat}

section

variable (h : FirstRound look symbols size products keys)

include h

theorem fired (hlooks : Looks table look) (hlen : symbols.length ≤ 128) (k : Nat)
    (x : Nat × UInt32) (hx : Meets look (numbered symbols 0) k x) :
    (∃ key, keys[x.1]? = some key ∧ key.toNat = k * 128 + x.1) ∧ products[x.1]? = some x.2 := by
  obtain ⟨a, b, ha, hb, hrule⟩ := fires_numbered.mp hx
  obtain ⟨hlt, -⟩ := List.getElem?_eq_some_iff.mp hb
  obtain ⟨hm, hk, hp⟩ := ruleOf_eq_some.mp hrule
  obtain ⟨hkey, hproduct⟩ := h.inside x.1 a b ha hb
  refine ⟨⟨_, hkey, ?_⟩, hp ▸ hproduct hm⟩
  rw [keyOf_toNat hm (hlooks.rank_lt a b hm) (by omega), hk]

theorem keyed (i : Nat) (key : UInt32) (hkey : keys[i]? = some key) (hne : key ≠ noKey) :
    ∃ k x, Meets look (numbered symbols 0) k x ∧ x.1 = i := by
  have hi : i + 1 < symbols.length := by
    by_contra hge
    exact hne (h.outside i key (by omega) hkey)
  have ha := getElem?_eq_getElem (show i < symbols.length by omega)
  have hb := getElem?_eq_getElem hi
  rw [(h.inside i _ _ ha hb).1, some.injEq] at hkey
  have hm : look symbols[i] symbols[i + 1] ≠ Merge.none := fun hm =>
    hne (by rw [← hkey, keyOf, if_pos hm])
  exact ⟨_, (i, (look symbols[i] symbols[i + 1]).product),
    fires_numbered.mpr ⟨_, _, ha, hb, ruleOf_eq_some.mpr ⟨hm, rfl, rfl⟩⟩, rfl⟩

theorem holds (hlooks : Looks table look) (hne : symbols ≠ []) (hlen : symbols.length ≤ size)
    (hsize : size ≤ 128) (hmod : size % 8 = 0) :
    ShortMerge.Holds { ofSymbols size symbols with products, keys } size look
      (numbered symbols 0) where
  symbols_length := by
    rw [ofSymbols, length_append, length_take, length_replicate]
    omega
  products_length := h.products_length
  keys_length := h.keys_length
  next_length := by
    rw [ofSymbols, length_append, length_map, length_range, length_replicate]
    omega
  prev_length := by
    rw [ofSymbols, length_append, length_map, length_range, length_replicate]
    omega
  n_le := hlen
  size_le := hsize
  size_mod := hmod
  sorted := sorted_numbered symbols 0
  below x hx := by
    have hlt := (bounds_of_mem_numbered hx).2
    rwa [zero_add] at hlt
  first := by
    obtain ⟨a, t, rfl⟩ := exists_cons_of_ne_nil hne
    rfl
  linked := linked_ofSymbols hlen hsize
  fired := h.fired hlooks (hlen.trans hsize)
  keyed := h.keyed

theorem best {best : UInt32}
    (hbound : ∀ v, v ≤ best ↔ ∀ key ∈ keys.take ((symbols.length - 1 + 7) / 8 * 8), v ≤ key) :
    ShortMerge.Best { ofSymbols size symbols with products, keys } best := by
  intro v
  rw [hbound]
  refine ⟨fun hall key hkey => ?_, fun hall key hkey => hall key (mem_of_mem_take hkey)⟩
  obtain ⟨i, hi, rfl⟩ := mem_iff_getElem.mp hkey
  have hget := getElem?_eq_getElem hi
  rcases lt_or_ge i ((symbols.length - 1 + 7) / 8 * 8) with hlt | hge
  · exact hall _ (mem_of_getElem? (by rw [getElem?_take_of_lt hlt, hget]))
  · rw [h.outside i _ (by omega) hget]
    exact le_noKey v

end

end FirstRound

/-- **The merge of a short piece is the rule's**: the symbols that the piece starts from, merged on
arrays that hold them. -/
theorem runWith_eq (hlooks : Looks table look) {size : Nat} (hne : symbols ≠ [])
    (hlen : symbols.length ≤ size) (hsize : size ≤ 128) (hmod : size % 8 = 0) (ids : List UInt32) :
    runWith size table symbols (pairMerges look symbols) ids =
      some (ids ++ reduce (ruleOf look) symbols) := by
  obtain ⟨products, keys, hset, hfirst⟩ := @setPairs_ofSymbols look size symbols hlen
  have hkeys := hfirst.keys_length
  obtain ⟨best, hleast, hbound⟩ := @least_spec { ofSymbols size symbols with products, keys }
    (symbols.length - 1) (by change _ ≤ keys.length; omega)
  rw [runWith, hset]
  simp only [bind_eq_bind, bind_some]
  rw [(hfirst.holds hlooks hne hlen hsize hmod).settle_eq hlooks hleast (hfirst.best hbound),
    ← reduce_positioned, map_snd_numbered]

end ShortMerge

end Smg.Tokenizer
