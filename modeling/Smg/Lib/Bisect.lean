import Mathlib.Data.Nat.Init
import Mathlib.Data.List.Basic

/-!
# Binary search in a list that may not be partitioned

`partitionPoint p l` halves `l` to find where the elements that satisfy `p` end.  It is specified
for lists in which those elements come first (`partitionPoint_eq`); what it comes to in any other
list is told by the places it looks at, its `probes`: it ends right behind the last of them where
`p` holds, and in front of an element where `p` does not hold.
-/

set_option autoImplicit false

namespace Smg

/-- The halving, over the `size` places from `base` on. -/
def bisect (q : Nat → Bool) : (fuel base size : Nat) → Nat
  | 0, base, _ => base
  | fuel + 1, base, size =>
    if size ≤ 1 then base
    else bisect q fuel (if q (base + size / 2) then base + size / 2 else base) (size - size / 2)

/-- The places the halving looks at, and the one it leaves for the last comparison. -/
def bisectProbes (q : Nat → Bool) : (fuel base size : Nat) → List Nat
  | 0, base, _ => [base]
  | fuel + 1, base, size =>
    if size ≤ 1 then [base]
    else (base + size / 2) ::
      bisectProbes q fuel (if q (base + size / 2) then base + size / 2 else base) (size - size / 2)

variable {q : Nat → Bool} {fuel base size : Nat}

theorem le_bisect : base ≤ bisect q fuel base size := by
  fun_induction bisect q fuel base size with
  | case1 => exact Nat.le_refl _
  | case2 => exact Nat.le_refl _
  | case3 fuel base size hsize ih =>
    refine Nat.le_trans ?_ ih
    split <;> omega

theorem bisect_mem_probes : bisect q fuel base size ∈ bisectProbes q fuel base size := by
  fun_induction bisect q fuel base size with
  | case1 => simp [bisectProbes]
  | case2 fuel base size hsize => simp [bisectProbes, hsize]
  | case3 fuel base size hsize ih =>
    rw [bisectProbes, if_neg hsize]
    exact List.mem_cons_of_mem _ ih

theorem le_bisect_of_mem_probes {i : Nat} (hi : i ∈ bisectProbes q fuel base size)
    (hq : q i = true) : i ≤ bisect q fuel base size := by
  fun_induction bisectProbes q fuel base size with
  | case1 base => simp_all [bisect]
  | case2 fuel base size hsize => simp_all [bisect]
  | case3 fuel base size hsize ih =>
    rw [bisect, if_neg hsize]
    rcases List.mem_cons.mp hi with rfl | hi
    · rw [if_pos hq]
      exact le_bisect
    · exact ih hi

/-- The halving keeps a place where `q` holds, or the first one, and a place `hi` where it does not
hold: the last one that is left, or the one behind it. -/
theorem bisect_spec {hi : Nat} (hfuel : size ≤ fuel + 1) (hbase : base = 0 ∨ q base = true)
    (hhi : q hi = false) (hlt : base < hi) (hle : hi ≤ base + size) (hnear : base + size ≤ hi + 1) :
    (bisect q fuel base size = 0 ∨ q (bisect q fuel base size) = true) ∧
      q (bisect q fuel base size + 1) = false := by
  induction fuel generalizing base size hi with
  | zero =>
    obtain rfl : hi = base + 1 := by omega
    exact ⟨hbase, hhi⟩
  | succ fuel ih =>
    rw [bisect]
    split
    next hsize =>
      obtain rfl : hi = base + 1 := by omega
      exact ⟨hbase, hhi⟩
    next hsize =>
      rcases hq : q (base + size / 2) with _ | _ <;>
        simp only [Bool.false_eq_true, if_true, if_false]
      · exact ih (by omega) hbase hq (by omega) (by omega) (by omega)
      · -- `hi` is not the place looked at
        have hne : hi ≠ base + size / 2 := by
          rintro rfl
          simp [hq] at hhi
        exact ih (by omega) (.inr hq) hhi (by omega) (by omega) (by omega)

section Partition

variable {α : Type}

/-- `partition_point`, a binary search: the number of leading elements that satisfy `p` if no later
one does.  In any other list it is whatever the halving comes to. -/
def partitionPoint (p : α → Bool) (l : List α) : Nat :=
  let q i := (l[i]?).any p
  let base := bisect q l.length 0 l.length
  if q base then base + 1 else base

/-- The places of the elements that `partitionPoint` looks at. -/
def probes (p : α → Bool) (l : List α) : List Nat :=
  bisectProbes (fun i => (l[i]?).any p) l.length 0 l.length

variable {p : α → Bool} {l : List α}

/-- **Where the search ends**: at an element that does not satisfy `p` or the end of the list, and
right behind a probe that does or at the beginning. -/
theorem partitionPoint_spec (p : α → Bool) (l : List α) :
    (l[partitionPoint p l]?).any p = false ∧ (partitionPoint p l = 0 ∨
      ∃ i ∈ probes p l, (l[i]?).any p = true ∧ partitionPoint p l = i + 1) := by
  rcases Nat.eq_zero_or_pos l.length with hl | hl
  · obtain rfl := List.length_eq_zero_iff.mp hl
    exact ⟨rfl, .inl rfl⟩
  obtain ⟨hbase, hnext⟩ :=
    @bisect_spec (fun i => (l[i]?).any p) l.length 0 l.length l.length (by omega) (.inl rfl)
      (by simp) hl (by omega) (by omega)
  rw [partitionPoint]
  split
  next hq => exact ⟨hnext, .inr ⟨_, bisect_mem_probes, hq, rfl⟩⟩
  next hq => exact ⟨by simpa using hq, .inl (hbase.resolve_right hq)⟩

theorem lt_partitionPoint_of_mem_probes {i : Nat} (hi : i ∈ probes p l)
    (hp : (l[i]?).any p = true) : i < partitionPoint p l := by
  have hle := le_bisect_of_mem_probes hi hp
  rw [partitionPoint]
  split
  · omega
  next hq =>
    refine Nat.lt_of_le_of_ne hle ?_
    rintro rfl
    exact hq hp

theorem partitionPoint_eq {k : Nat} (hq : ∀ i, (l[i]?).any p = true ↔ i < k) :
    partitionPoint p l = k := by
  obtain ⟨hend, hbegin⟩ := partitionPoint_spec p l
  have hle : ¬ partitionPoint p l < k := by
    rw [← hq, hend]
    exact Bool.false_ne_true
  rcases hbegin with h0 | ⟨i, -, hi, heq⟩
  · omega
  · have := (hq i).mp hi
    omega

end Partition

end Smg
