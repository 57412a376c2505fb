import Mathlib.Data.List.Nodup

/-!
# Linked lists over cells

A list kept in numbered cells: each cell that is in use holds an item and the numbers of its
neighbours. `Linked c before live` says that the cells hold `live`, a list of items with the cells
they are in, from the first to the last.  Taking the second of two neighbours out and writing the
first changes three cells (`Joined`), and what the cells hold after it is the list after it
(`Linked.join`), whatever else the implementation leaves in the cells that are out of use.
-/

set_option autoImplicit false

namespace Smg.LinkedCells

open List

variable {α : Type}

/-- What the cells hold, and the neighbours they name. -/
structure Cells (α : Type) where
  sym : Nat → Option α
  next : Nat → Option Nat
  prev : Nat → Option Nat

/-- The cells hold the list, linked both ways; `before` is the neighbour that its first cell names.
-/
def Linked (c : Cells α) : (before : Option Nat) → List (Nat × α) → Prop
  | _, [] => True
  | before, x :: rest =>
    c.sym x.1 = some x.2 ∧ c.prev x.1 = before ∧ c.next x.1 = rest.head?.map Prod.fst ∧
      Linked c (some x.1) rest

/-- The cell `p` takes an item and the cell after it, `q`, is out of the list. -/
structure Joined (c c' : Cells α) (p q : Nat) (a : α) : Prop where
  sym_at : c'.sym p = some a
  sym_ne : ∀ i, i ≠ p → i ≠ q → c'.sym i = c.sym i
  next_at : c'.next p = c.next q
  next_ne : ∀ i, i ≠ p → c'.next i = c.next i
  prev_at : ∀ i, c.next q = some i → c'.prev i = some p
  prev_ne : ∀ i, c.next q ≠ some i → c'.prev i = c.prev i

variable {c c' : Cells α} {before : Option Nat} {l r live : List (Nat × α)} {x y : Nat × α}

theorem Linked.congr (h : Linked c before live)
    (hsame : ∀ i ∈ live.map Prod.fst,
      c'.sym i = c.sym i ∧ c'.next i = c.next i ∧ c'.prev i = c.prev i) :
    Linked c' before live := by
  induction live generalizing before with
  | nil => trivial
  | cons x live ih =>
    obtain ⟨hsym, hprev, hnext, hrest⟩ := h
    obtain ⟨hs, hn, hp⟩ := hsame x.1 (by simp)
    refine ⟨hs.trans hsym, hp.trans hprev, hn.trans hnext, ih hrest fun i hi => hsame i ?_⟩
    exact mem_cons_of_mem _ hi

/-- What the cell of an item holds and names. -/
theorem Linked.item (h : Linked c before (l ++ x :: r)) :
    c.sym x.1 = some x.2 ∧ c.prev x.1 = (l.getLast?.map Prod.fst).or before ∧
      c.next x.1 = r.head?.map Prod.fst ∧ Linked c (some x.1) r := by
  induction l generalizing before with
  | nil => exact h
  | cons y l ih =>
    obtain ⟨hsym, hprev, hnext, hrest⟩ := ih h.2.2.2
    refine ⟨hsym, ?_, hnext, hrest⟩
    rw [hprev]
    cases l with
    | nil => rfl
    | cons z l =>
      rw [getLast?_cons_cons]
      cases hl : (z :: l).getLast? with
      | none => simp at hl
      | some w => rfl

/-- **Joining two neighbours** leaves the list with the product in their place. -/
theorem Linked.join {a : α} (h : Linked c before (l ++ x :: y :: r))
    (hnodup : ((l ++ x :: y :: r).map Prod.fst).Nodup) (hj : Joined c c' x.1 y.1 a) :
    Linked c' before (l ++ (x.1, a) :: r) := by
  induction l generalizing before with
  | nil =>
    obtain ⟨hsym, hprev, hnext, hsymy, hprevy, hnexty, hrest⟩ := h
    simp only [nil_append, map_cons, nodup_cons, mem_cons, not_or] at hnodup
    obtain ⟨⟨hxy, hxr⟩, hyr, hr⟩ := hnodup
    have hhead : ∀ i, c.next y.1 = some i → i ∈ r.map Prod.fst := by
      intro i hi
      rw [hnexty, Option.map_eq_some_iff] at hi
      obtain ⟨z, hz, rfl⟩ := hi
      exact mem_map_of_mem (mem_of_mem_head? hz)
    refine ⟨hj.sym_at, ?_, hj.next_at.trans hnexty, ?_⟩
    · exact (hj.prev_ne x.1 fun hi => hxr (hhead x.1 hi)).trans hprev
    · cases r with
      | nil => trivial
      | cons z r =>
        obtain ⟨hsymz, hprevz, hnextz, hrest⟩ := hrest
        simp only [map_cons, mem_cons, not_or, nodup_cons] at hxr hyr hr
        refine ⟨(hj.sym_ne z.1 (Ne.symm hxr.1) (Ne.symm hyr.1)).trans hsymz, hj.prev_at z.1 hnexty,
          (hj.next_ne z.1 (Ne.symm hxr.1)).trans hnextz, hrest.congr fun i hi => ?_⟩
        have hix : i ≠ x.1 := fun he => hxr.2 (he ▸ hi)
        have hiy : i ≠ y.1 := fun he => hyr.2 (he ▸ hi)
        refine ⟨hj.sym_ne i hix hiy, hj.next_ne i hix, hj.prev_ne i fun hz => ?_⟩
        rw [hnexty] at hz
        cases hz
        exact hr.1 hi
  | cons z l ih =>
    have hlink := Linked.item (l := z :: (l ++ [x])) (by simpa using h)
    obtain ⟨hsym, hprev, hnext, hrest⟩ := h
    rw [cons_append, map_cons, nodup_cons] at hnodup
    obtain ⟨hz, hnodup⟩ := hnodup
    simp only [map_append, map_cons, mem_append, mem_cons, not_or] at hz
    refine ⟨(hj.sym_ne z.1 hz.2.1 hz.2.2.1).trans hsym, (hj.prev_ne z.1 fun hi => ?_).trans hprev,
      (hj.next_ne z.1 hz.2.1).trans (hnext.trans ?_), ih hrest hnodup⟩
    · rw [hlink.2.2.1, Option.map_eq_some_iff] at hi
      obtain ⟨w, hw, hwz⟩ := hi
      exact hz.2.2.2 (hwz ▸ mem_map_of_mem (mem_of_mem_head? hw))
    · cases l <;> rfl

/-! ## Cells in a row -/

/-- Some items with their numbers, from `k` on. -/
def numbered (items : List α) (k : Nat) : List (Nat × α) := (items.zipIdx k).map Prod.swap

@[simp] theorem numbered_cons (a : α) (items : List α) (k : Nat) :
    numbered (a :: items) k = (k, a) :: numbered items (k + 1) := rfl

variable (items : List α)

theorem map_snd_numbered (k : Nat) : (numbered items k).map Prod.snd = items := by
  induction items generalizing k with
  | nil => rfl
  | cons a items ih => rw [numbered_cons, map_cons, ih]

theorem getElem?_numbered (k i : Nat) :
    (numbered items k)[i]? = (items[i]?).map fun a => (k + i, a) := by
  rw [numbered, getElem?_map, getElem?_zipIdx, Option.map_map]
  rfl

theorem bounds_of_mem_numbered {items : List α} {k : Nat} (hx : x ∈ numbered items k) :
    k ≤ x.1 ∧ x.1 < k + items.length := by
  obtain ⟨i, hi, rfl⟩ := mem_iff_getElem.mp hx
  have hget := getElem?_eq_getElem hi
  rw [getElem?_numbered, Option.map_eq_some_iff] at hget
  obtain ⟨b, hb, heq⟩ := hget
  rw [← heq]
  exact ⟨Nat.le_add_right k i, Nat.add_lt_add_left (List.getElem?_eq_some_iff.mp hb).1 k⟩

theorem sorted_numbered (k : Nat) : ((numbered items k).map Prod.fst).Pairwise (· < ·) := by
  induction items generalizing k with
  | nil => exact Pairwise.nil
  | cons a items ih =>
    rw [numbered_cons, map_cons, pairwise_cons]
    refine ⟨fun j hj => ?_, ih (k + 1)⟩
    obtain ⟨x, hx, rfl⟩ := mem_map.mp hj
    exact (bounds_of_mem_numbered hx).1

/-- Cells that are linked in a row hold the items in order. -/
theorem linked_numbered {items : List α} {k : Nat}
    (hsym : ∀ i a, items[i]? = some a → c.sym (k + i) = some a)
    (hnext : ∀ i, i < items.length →
      c.next (k + i) = if i + 1 < items.length then some (k + i + 1) else none)
    (hprev : ∀ i, i < items.length → c.prev (k + i) = if i = 0 then before else some (k + i - 1)) :
    Linked c before (numbered items k) := by
  induction items generalizing k before with
  | nil => trivial
  | cons a items ih =>
    have hn := hnext 0 (Nat.succ_pos _)
    have hp := hprev 0 (Nat.succ_pos _)
    refine ⟨hsym 0 a rfl, hp, hn.trans ?_, ih (fun i b hb => ?_) (fun i hi => ?_) (fun i hi => ?_)⟩
    · cases items <;> rfl
    · rw [Nat.add_assoc, Nat.add_comm 1 i]
      exact hsym (i + 1) b hb
    · rw [Nat.add_assoc k 1 i, Nat.add_comm 1 i, hnext (i + 1) (Nat.succ_lt_succ hi)]
      simp
    · rw [Nat.add_assoc k 1 i, Nat.add_comm 1 i, hprev (i + 1) (Nat.succ_lt_succ hi),
        if_neg (Nat.succ_ne_zero i)]
      split
      next h => rw [h]; rfl
      next h => rfl

end Smg.LinkedCells
