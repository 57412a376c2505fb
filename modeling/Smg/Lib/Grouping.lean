import Mathlib.Data.List.SplitBy
import Mathlib.Data.List.Sort
import Mathlib.Data.List.AList

/-!
# Sorting by a key, and the runs of equal keys

A log that is compacted per key is sorted by key first and then scanned for contiguous runs.  What
a caller wants to know about that is the same whatever the elements are: on a list sorted by `key`
the runs of `List.splitBy` are exactly the sublists `l.filter (key · = k)`, one for each key that
occurs (`mem_runs_iff`).

`KeySort` is a sort that promises nothing about the order of two elements with the same key, which
is all an unstable sort promises; every consequence below is stated for all of them.

`lastMax` is "the maximum by a key, the last one on ties", the choice the standard iterator
combinator makes.
-/

set_option autoImplicit false

namespace Smg

open List

/-- A finite map, in the order its keys were last written. -/
abbrev Table (κ ν : Type) := AList fun _ : κ => ν

namespace Table

variable {κ ν : Type} [DecidableEq κ]

theorem lookup_insert_if (t : Table κ ν) (k k' : κ) (v : ν) :
    (t.insert k v).lookup k' = if k' = k then some v else t.lookup k' := by
  by_cases hk : k' = k
  · rw [hk, if_pos rfl]
    exact AList.lookup_insert t
  · rw [if_neg hk]
    exact AList.lookup_insert_ne hk

theorem lookup_erase_if (t : Table κ ν) (k k' : κ) :
    (t.erase k).lookup k' = if k' = k then none else t.lookup k' := by
  by_cases hk : k' = k
  · rw [hk, if_pos rfl]
    exact AList.lookup_erase k t
  · rw [if_neg hk]
    exact AList.lookup_erase_ne hk

variable {t : Table κ ν} {k k' : κ} {v w : ν}

theorem lookup_insert_eq_some : (t.insert k v).lookup k' = some w ↔
    k' ≠ k ∧ t.lookup k' = some w ∨ k' = k ∧ w = v := by
  rw [lookup_insert_if]
  split <;> simp [*, @eq_comm _ v]

theorem lookup_erase_eq_some :
    (t.erase k).lookup k' = some w ↔ k' ≠ k ∧ t.lookup k' = some w := by
  rw [lookup_erase_if]
  split <;> simp [*]

end Table

/-! ## Runs of equal keys -/

section Runs

variable {α κ : Type} [LinearOrder κ] (key : α → κ)

/-- The contiguous runs of elements with one key. -/
def runs (l : List α) : List (List α) := l.splitBy fun a b => key a == key b

variable {key}

/-- All elements of a run have the key of any one of them. -/
theorem key_eq_of_mem_run {l g : List α} (hg : g ∈ runs key l) {a b : α} (ha : a ∈ g)
    (hb : b ∈ g) : key a = key b := by
  have hc : g.IsChain fun x y => key x = key y :=
    (isChain_of_mem_splitBy hg).imp fun _ _ h => by simpa using h
  have hp : g.Pairwise fun x y => key x = key y :=
    isChain_iff_pairwise.mp hc
  exact Pairwise.forall_of_forall (R := fun x y => key x = key y) (fun _ _ => rfl) hp ha hb

/-- Groups with constant keys that join to a sorted list, neighbours having different keys, have
strictly increasing keys. -/
theorem pairwise_lt_of_isChain {gs : List (List α)}
    (hconst : ∀ g ∈ gs, ∀ a ∈ g, ∀ b ∈ g, key a = key b)
    (hne : gs.IsChain fun g g' => ∃ ha hb, (key (g.getLast ha) == key (g'.head hb)) = false)
    (hs : gs.flatten.Pairwise fun a b => key a ≤ key b) :
    gs.Pairwise fun g g' => ∀ a ∈ g, ∀ b ∈ g', key a < key b := by
  have hlt : gs.IsChain fun g g' => g' ≠ [] ∧ ∀ a ∈ g, ∀ b ∈ g', key a < key b := by
    induction gs with
    | nil => exact isChain_nil
    | cons g gs ih =>
      rw [isChain_cons] at hne ⊢
      rw [flatten_cons, pairwise_append] at hs
      refine ⟨fun g' hg' => ?_, ih (fun g hg => hconst g (mem_cons_of_mem _ hg)) hne.2 hs.2.1⟩
      obtain ⟨hg0, hg0', hk⟩ := hne.1 g' hg'
      have hmem : g' ∈ gs := mem_of_mem_head? hg'
      refine ⟨hg0', fun a ha b hb => ?_⟩
      have hab : key a ≤ key b := hs.2.2 a ha b (mem_flatten_of_mem hmem hb)
      refine lt_of_le_of_ne hab fun he => ?_
      have h1 : key (g.getLast hg0) = key a :=
        hconst g mem_cons_self _ (getLast_mem hg0) _ ha
      have h2 : key (g'.head hg0') = key b :=
        hconst g' (mem_cons_of_mem _ hmem) _ (head_mem hg0') _ hb
      rw [h1, h2, he] at hk
      simp at hk
  have htrans : gs.Pairwise fun g g' => g' ≠ [] ∧ ∀ a ∈ g, ∀ b ∈ g', key a < key b := by
    refine @IsChain.pairwise _ _ _ ⟨fun {g g' g''} h h' => ⟨h'.1, fun a ha c hc => ?_⟩⟩ hlt
    obtain ⟨b, hb⟩ := exists_mem_of_ne_nil _ h.1
    exact (h.2 a ha b hb).trans (h'.2 b hb c hc)
  exact htrans.imp fun h => h.2

theorem runs_pairwise_lt {l : List α} (hs : l.Pairwise fun a b => key a ≤ key b) :
    (runs key l).Pairwise fun g g' => ∀ a ∈ g, ∀ b ∈ g', key a < key b := by
  refine pairwise_lt_of_isChain (fun g hg a ha b hb => key_eq_of_mem_run hg ha hb)
    (isChain_getLast_head_splitBy (fun a b => key a == key b) l) ?_
  rwa [runs, flatten_splitBy]

/-- Filtering the join of groups with strictly increasing keys by the key of one of them leaves
that group. -/
theorem filter_flatten_eq {gs : List (List α)} {g : List α} {k : κ} (hg : g ∈ gs)
    (hlt : gs.Pairwise fun g g' => ∀ a ∈ g, ∀ b ∈ g', key a < key b)
    (hk : ∀ a ∈ g, key a = k) (hne : g ≠ []) :
    gs.flatten.filter (fun a => key a = k) = g := by
  obtain ⟨x, hx⟩ := exists_mem_of_ne_nil _ hne
  induction gs with
  | nil => simp at hg
  | cons g0 gs ih =>
    rw [pairwise_cons] at hlt
    rw [flatten_cons, filter_append]
    rcases mem_cons.mp hg with rfl | hg'
    · have h1 : g.filter (fun a => key a = k) = g := filter_eq_self.mpr (by simpa using hk)
      have h2 : gs.flatten.filter (fun a => key a = k) = [] := by
        rw [filter_eq_nil_iff]
        intro b hb
        obtain ⟨g', hg', hb'⟩ := mem_flatten.mp hb
        have := hlt.1 g' hg' x hx b hb'
        rw [hk x hx] at this
        simpa using this.ne'
      rw [h1, h2, append_nil]
    · have h1 : g0.filter (fun a => key a = k) = [] := by
        rw [filter_eq_nil_iff]
        intro b hb
        have := hlt.1 g hg' b hb x hx
        rw [hk x hx] at this
        simpa using this.ne
      rw [h1, nil_append, ih hg' hlt.2]

/-- **On a sorted list the runs are the groups of the keys that occur.** -/
theorem mem_runs_iff {l : List α} (hs : l.Pairwise fun a b => key a ≤ key b) {g : List α} :
    g ∈ runs key l ↔ ∃ a ∈ l, g = l.filter fun b => key b = key a := by
  have hfl : (runs key l).flatten = l := flatten_splitBy _ l
  have hgroup : ∀ g ∈ runs key l, ∀ a ∈ g, l.filter (fun b => key b = key a) = g := by
    intro g hg a ha
    have := filter_flatten_eq hg (runs_pairwise_lt hs)
      (fun b hb => key_eq_of_mem_run hg hb ha) (ne_nil_of_mem ha)
    rwa [hfl] at this
  constructor
  · intro hg
    obtain ⟨a, ha⟩ := exists_mem_of_ne_nil _ (ne_nil_of_mem_splitBy hg)
    refine ⟨a, ?_, (hgroup g hg a ha).symm⟩
    rw [← hfl]
    exact mem_flatten_of_mem hg ha
  · rintro ⟨a, ha, rfl⟩
    rw [← hfl] at ha
    obtain ⟨g, hg, hag⟩ := mem_flatten.mp ha
    rw [hgroup g hg a hag]
    exact hg

end Runs

/-! ## Sorting by a key -/

/-- A sort by `key` that leaves the order of elements with equal keys open. -/
structure KeySort {α κ : Type} [LinearOrder κ] (key : α → κ) where
  sort : List α → List α
  perm : ∀ l, (sort l).Perm l
  /-- The result is sorted by the key. -/
  sorted : ∀ l, (sort l).Pairwise fun a b => key a ≤ key b

/-- A stable sort by `key`. -/
def sortByKey {α κ : Type} [LinearOrder κ] (key : α → κ) (l : List α) : List α :=
  l.insertionSort fun a b => key a ≤ key b

section Sorting

variable {α κ : Type} [LinearOrder κ] {key : α → κ}

theorem sortByKey_perm (l : List α) : (sortByKey key l).Perm l := perm_insertionSort _ l

@[simp] theorem mem_sortByKey {l : List α} {a : α} : a ∈ sortByKey key l ↔ a ∈ l :=
  (sortByKey_perm l).mem_iff

theorem sortByKey_sorted (l : List α) :
    (sortByKey key l).Pairwise fun a b => key a ≤ key b := by
  have h := @pairwise_insertionSort α (fun a b => key a ≤ key b) _
    ⟨fun a b => le_total (key a) (key b)⟩ ⟨fun _ _ _ h1 h2 => le_trans h1 h2⟩ l
  exact h

/-- The stable sort is one of the sorts that leave ties open. -/
def KeySort.stable (key : α → κ) : KeySort key where
  sort := sortByKey key
  perm := sortByKey_perm
  sorted := sortByKey_sorted

end Sorting

/-! ## The maximum by a key -/

section Max

variable {α κ : Type} [LinearOrder κ] (key : α → κ)

/-- The element with the greatest key, the last such element on ties. -/
def lastMax : List α → Option α
  | [] => none
  | a :: l =>
    match lastMax l with
    | none => some a
    | some b => if key b < key a then some a else some b

variable {key}

@[simp] theorem lastMax_nil : lastMax key ([] : List α) = none := rfl

@[simp] theorem lastMax_singleton (a : α) : lastMax key [a] = some a := rfl

theorem lastMax_eq_none {l : List α} : lastMax key l = none ↔ l = [] := by
  cases l with
  | nil => simp
  | cons a l =>
    simp only [lastMax, reduceCtorEq]
    split
    · simp
    · split <;> simp

/-- The maximum is an element that no other element exceeds. -/
theorem lastMax_spec {l : List α} {m : α} (h : lastMax key l = some m) :
    m ∈ l ∧ ∀ a ∈ l, key a ≤ key m := by
  induction l generalizing m with
  | nil => simp at h
  | cons a l ih =>
    rw [lastMax] at h
    split at h
    · rename_i hn
      rw [lastMax_eq_none.mp hn]
      cases h
      simp
    · rename_i b hb
      obtain ⟨hbl, hmax⟩ := ih hb
      split at h
      · rename_i hlt
        cases h
        exact ⟨mem_cons_self, fun c hc => (mem_cons.mp hc).elim (fun e => e ▸ le_rfl)
          fun hc => (hmax c hc).trans hlt.le⟩
      · rename_i hle
        cases h
        exact ⟨mem_cons_of_mem _ hbl, fun c hc => (mem_cons.mp hc).elim
          (fun e => e ▸ not_lt.mp hle) (hmax c)⟩

theorem exists_lastMax (key : α → κ) {l : List α} (h : l ≠ []) : ∃ m, lastMax key l = some m :=
  Option.ne_none_iff_exists'.mp (mt lastMax_eq_none.mp h)

end Max

end Smg
