import Mathlib.Algebra.Ring.Nat
import Smg.Lib.Grouping

/-!
# A table of counts with its total

Counts are kept per key and once more as a total.  Each operation changes both; `Balanced` says that
they agree, and every operation keeps them so.

* `Tally.get_add`, `Tally.get_sub`, ...: what an operation does to each count;
* `Tally.Balanced.add`, `Tally.Balanced.sub`, ...: **the total stays the sum**.
-/

set_option autoImplicit false

namespace Smg

open AList

/-- Counts per key, and their total. -/
structure Tally (κ : Type) where
  counts : Table κ Nat
  total : Nat
  deriving DecidableEq

namespace Tally

variable {κ : Type} [DecidableEq κ]

def empty : Tally κ := ⟨∅, 0⟩

def get (b : Tally κ) (k : κ) : Nat := (b.counts.lookup k).getD 0

def enter (b : Tally κ) (k : κ) : Tally κ :=
  if k ∈ b.counts then b else { b with counts := b.counts.insert k 0 }

def add (b : Tally κ) (k : κ) (n : Nat) : Tally κ :=
  if n = 0 then b else ⟨b.counts.insert k (b.get k + n), b.total + n⟩

/-- Subtract from a count that has an entry, and from the total, no more than the count. -/
def sub (b : Tally κ) (k : κ) (n : Nat) : Tally κ :=
  if n = 0 then b
  else
    match b.counts.lookup k with
    | none => b
    | some count => ⟨b.counts.insert k (count - min n count), b.total - min n count⟩

def forget (b : Tally κ) (k : κ) : Tally κ := { b with counts := b.counts.erase k }

/-- Take an entry out, and its count out of the total. -/
def remove (b : Tally κ) (k : κ) : Tally κ :=
  match b.counts.lookup k with
  | none => b.forget k
  | some count => ⟨b.counts.erase k, b.total - count⟩

def sum (counts : Table κ Nat) : Nat := (counts.entries.map Sigma.snd).sum

def Balanced (b : Tally κ) : Prop := b.total = sum b.counts

/-! ## Each count -/

section

variable (b : Tally κ)

theorem get_enter (k k' : κ) : (b.enter k).get k' = b.get k' := by
  rw [enter]
  split
  · rfl
  · rename_i h
    rw [get, get, Table.lookup_insert_if]
    split
    · rename_i hk
      rw [hk, lookup_eq_none.mpr h]
      rfl
    · rfl

theorem get_add (k k' : κ) (n : Nat) : (b.add k n).get k' = b.get k' + if k' = k then n else 0 := by
  rw [add]
  split
  · rename_i h
    rw [h, ite_self, Nat.add_zero]
  · rw [get, Table.lookup_insert_if]
    split
    · rename_i hk
      rw [hk, Option.getD_some]
    · rfl

theorem get_sub (k k' : κ) (n : Nat) : (b.sub k n).get k' = b.get k' - if k' = k then n else 0 := by
  rw [sub]
  split
  · rename_i h
    rw [h, ite_self, Nat.sub_zero]
  · split
    · rename_i h
      split
      · rename_i hk
        rw [hk, get, h, Option.getD_none, Nat.zero_sub]
      · rfl
    · rename_i count h
      rw [get, Table.lookup_insert_if]
      split
      · rename_i hk
        rw [hk, get, h, Option.getD_some, Option.getD_some]
        omega
      · rfl

theorem get_forget (k k' : κ) : (b.forget k).get k' = if k' = k then 0 else b.get k' := by
  rw [get, forget, Table.lookup_erase_if]
  split <;> rfl

theorem get_remove (k k' : κ) : (b.remove k).get k' = if k' = k then 0 else b.get k' := by
  rw [← get_forget, remove]
  split <;> rfl

/-- Two subtractions are one. -/
theorem sub_sub (k : κ) (m n : Nat) : (b.sub k m).sub k n = b.sub k (m + n) := by
  by_cases hm : m = 0
  · rw [hm, Nat.zero_add, show b.sub k 0 = b from if_pos rfl]
  by_cases hn : n = 0
  · rw [hn, Nat.add_zero, show ∀ b : Tally κ, b.sub k 0 = b from fun _ => if_pos rfl]
  have hmn : m + n ≠ 0 := by omega
  rcases h : b.counts.lookup k with _ | count
  · have hsub : ∀ n, b.sub k n = b := fun n => by
      rw [sub, h]
      exact ite_self _
    rw [hsub, hsub, hsub]
  · have hsub : ∀ n, n ≠ 0 →
        b.sub k n = ⟨b.counts.insert k (count - min n count), b.total - min n count⟩ :=
      fun n hn => by
      rw [sub, if_neg hn, h]
    rw [hsub m hm, hsub (m + n) hmn, sub, if_neg hn, lookup_insert]
    simp only [insert_insert, mk.injEq]
    refine ⟨congrArg (fun n => b.counts.insert k n) ?_, ?_⟩ <;> omega

/-! ## The total -/

theorem sum_erase (k : κ) : sum (b.counts.erase k) + b.get k = sum b.counts := by
  rw [get]
  rcases h : b.counts.lookup k with _ | count
  · have hk : k ∉ b.counts.keys := lookup_eq_none.mp h
    have : b.counts.erase k = b.counts := by
      apply ext
      exact List.kerase_of_notMem_keys hk
    rw [this, Option.getD_none, Nat.add_zero]
  · have hmem : (⟨k, count⟩ : Sigma fun _ : κ => Nat) ∈ b.counts.entries :=
      mem_lookup_iff.mp h
    obtain ⟨l1, l2, hl, hne⟩ : ∃ l1 l2, b.counts.entries = l1 ++ ⟨k, count⟩ :: l2 ∧
        k ∉ l1.keys := by
      obtain ⟨l1, l2, hl⟩ := List.append_of_mem hmem
      refine ⟨l1, l2, hl, fun hk => ?_⟩
      have := b.counts.nodupKeys
      rw [hl, List.NodupKeys, List.keys, List.map_append, List.nodup_append] at this
      exact this.2.2 k hk k (by simp) rfl
    have herase : (b.counts.erase k).entries = l1 ++ l2 := by
      show b.counts.entries.kerase k = _
      rw [hl, List.kerase_append_right hne]
      exact congrArg (l1 ++ ·) (List.kerase_cons_eq rfl)
    rw [sum, sum, herase, hl]
    simp
    omega

theorem sum_insert (k : κ) (n : Nat) : sum (b.counts.insert k n) + b.get k = sum b.counts + n := by
  have h : sum (b.counts.insert k n) = n + sum (b.counts.erase k) := by
    rfl
  have := b.sum_erase k
  omega

theorem get_le_sum (k : κ) : b.get k ≤ sum b.counts := by
  have := b.sum_erase k
  omega

end

variable {b : Tally κ}

theorem sum_eq_zero (h : ∀ k, b.get k = 0) : sum b.counts = 0 := by
  rw [sum, List.sum_eq_zero_iff_forall_eq_nat]
  intro n hn
  obtain ⟨⟨k, n⟩, hmem, rfl⟩ := List.mem_map.mp hn
  have := h k
  rwa [get, mem_lookup_iff.mpr hmem] at this

omit [DecidableEq κ] in
theorem Balanced.empty : (Tally.empty : Tally κ).Balanced := rfl

theorem Balanced.enter (h : b.Balanced) (k : κ) : (b.enter k).Balanced := by
  rw [Tally.enter]
  split
  · exact h
  · rename_i hk
    have := b.sum_insert k 0
    rw [get, lookup_eq_none.mpr hk] at this
    exact h.trans this.symm

theorem Balanced.add (h : b.Balanced) (k : κ) (n : Nat) : (b.add k n).Balanced := by
  rw [Tally.add]
  split
  · exact h
  · have := b.sum_insert k (b.get k + n)
    have h : b.total = sum b.counts := h
    show b.total + n = sum (b.counts.insert k (b.get k + n))
    omega

theorem Balanced.sub (h : b.Balanced) (k : κ) (n : Nat) : (b.sub k n).Balanced := by
  rw [Tally.sub]
  split
  · exact h
  · split
    · exact h
    · rename_i count hcount
      have hsum := b.sum_insert k (count - min n count)
      have hle := b.get_le_sum k
      rw [get, hcount, Option.getD_some] at hsum hle
      have h : b.total = sum b.counts := h
      show b.total - min n count = sum (b.counts.insert k (count - min n count))
      omega

theorem Balanced.forget (h : b.Balanced) {k : κ} (hk : b.get k = 0) : (b.forget k).Balanced := by
  have := b.sum_erase k
  have h : b.total = sum b.counts := h
  show b.total = sum (b.counts.erase k)
  omega

theorem Balanced.remove (h : b.Balanced) (k : κ) : (b.remove k).Balanced := by
  rw [Tally.remove]
  split
  · rename_i hk
    exact h.forget (by rw [get, hk, Option.getD_none])
  · rename_i count hcount
    have hsum := b.sum_erase k
    rw [get, hcount, Option.getD_some] at hsum
    have h : b.total = sum b.counts := h
    show b.total - count = sum (b.counts.erase k)
    omega

end Tally
end Smg
