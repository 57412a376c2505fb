import Mathlib.Data.List.Nodup

/-!
# Orders that are not specified

A hash map is iterated in an order that is not specified, and a heap pops one of its least elements,
whichever.  A `Shuffle` is such an order: any function that permutes its list.  A model that takes
shuffles as parameters says what happens in all orders.

* `Shuffle`, and `Shuffle.mem`: nothing is lost or added;
* `pop`: a least element of a heap that is shuffled before, so any of the least may come first;
* `nodup_eraseDups`: a list without the elements it has seen, what is collected behind a hash set.
-/

set_option autoImplicit false

namespace Smg

/-- An order that is not specified. -/
structure Shuffle (β : Type) where
  fn : List β → List β
  perm : ∀ l, (fn l).Perm l

variable {β : Type}

def Shuffle.still (β : Type) : Shuffle β := ⟨fun l => l, fun l => List.Perm.refl l⟩

theorem Shuffle.mem (o : Shuffle β) {l : List β} {x : β} : x ∈ o.fn l ↔ x ∈ l :=
  (o.perm l).mem_iff

theorem nodup_eraseDups [BEq β] [LawfulBEq β] : (l : List β) → l.eraseDups.Nodup
  | [] => List.nodup_nil
  | a :: l => by
    rw [List.eraseDups_cons, List.nodup_cons]
    exact ⟨by simp, nodup_eraseDups _⟩
termination_by l => l.length
decreasing_by exact Nat.lt_succ_of_le (List.length_filter_le _ l)

/-- The first of the least elements, and the others. -/
def popLeast (le : β → β → Bool) : List β → Option (β × List β)
  | [] => none
  | x :: xs =>
    match popLeast le xs with
    | none => some (x, [])
    | some (y, ys) => if le x y then some (x, xs) else some (y, x :: ys)

def pop (o : Shuffle β) (le : β → β → Bool) (heap : List β) : Option (β × List β) :=
  popLeast le (o.fn heap)

variable {le : β → β → Bool} {o : Shuffle β} {heap rest : List β} {x : β}

theorem popLeast_eq_none (h : popLeast le heap = none) : heap = [] := by
  rcases heap with _ | ⟨x, xs⟩
  · rfl
  · rw [popLeast] at h
    split at h
    · cases h
    · split at h <;> cases h

theorem perm_of_popLeast (h : popLeast le heap = some (x, rest)) : heap.Perm (x :: rest) := by
  induction heap generalizing x rest with
  | nil => cases h
  | cons y ys ih =>
    rw [popLeast] at h
    split at h
    · rename_i hys
      cases h
      rw [popLeast_eq_none hys]
    · rename_i z zs hys
      split at h
      · cases h
        exact List.Perm.refl _
      · obtain ⟨rfl, rfl⟩ := Prod.mk.inj (Option.some.inj h)
        exact ((ih hys).cons y).trans (List.Perm.swap z y zs)

theorem pop_eq_none (h : pop o le heap = none) : heap = [] :=
  List.nil_perm.mp (popLeast_eq_none h ▸ o.perm heap)

/-- What is popped and what is left are what was there. -/
theorem perm_of_pop (h : pop o le heap = some (x, rest)) : heap.Perm (x :: rest) :=
  (o.perm heap).symm.trans (perm_of_popLeast h)

end Smg
