import Mathlib.Algebra.Ring.Nat
import Mathlib.Data.List.Perm.Subperm
import Mathlib.Data.List.Sort
import Smg.Lib.Grouping
import Smg.Lib.Unordered

/-!
# The consistent hash ring

`worker/hash_ring.rs`: a ring places every worker URL at 150 positions.  It is built from a list of
URLs (`new`) or reconciled from a ring there is (`updated`), which places only the URLs that are not
on it yet.  The position of a text is a hash of it, a parameter here, as is the order in which the
unstable sort leaves equal positions; URLs are numbered by `u32`, and `u32::MAX` marks a URL that
leaves.
-/

set_option autoImplicit false

namespace Smg.Gateway

open List

def virtualNodesPerWorker : Nat := 150

def u32Max : Nat := 2 ^ 32 - 1

/-- A number as `u32` keeps it. -/
def asU32 (n : Nat) : Nat := n % 2 ^ 32

structure HashRing where
  /-- The positions and the number of the URL at each, sorted by position. -/
  entries : List (Nat × Nat)
  urls : List String
deriving DecidableEq

/-- What rings are placed by: the hash of a text, and a sort of the positions that leaves the order
of equal ones open. -/
structure Placing where
  hashPosition : String → Nat
  order : KeySort (Prod.fst : Nat × Nat → Nat)

/-- Texts placed by their lengths, for the tests of what needs no more. -/
def Placing.byLength : Placing := ⟨String.length, .stable _⟩

namespace HashRing

variable (placing : Placing)

/-- `vnodes_for`: the virtual nodes of one URL. -/
def vnodesFor (url : String) (urlIndex : Nat) : List (Nat × Nat) :=
  (List.range virtualNodesPerWorker).map fun vnode =>
    (placing.hashPosition (url ++ "#" ++ toString vnode), urlIndex)

def byPosition (a b : Nat × Nat) : Bool := a.1 ≤ b.1

/-- The virtual nodes of some URLs, numbered in their order. -/
def nodesOf (urls : List String) : List (Nat × Nat) :=
  urls.zipIdx.flatMap fun p => vnodesFor placing p.1 (asU32 p.2)

/-- `HashRing::new`.  A repeated URL keeps its first occurrence. -/
def new (urls : List String) : HashRing :=
  let urls := urls.eraseDups
  ⟨placing.order.sort (nodesOf placing urls), urls⟩

/-- The new numbers of the URLs of a ring, after `kept` that stay: `u32::MAX` for one that
leaves. -/
def remap (desired : List String) : List String → Nat → List Nat
  | [], _ => []
  | url :: rest, kept =>
    if url ∈ desired then asU32 kept :: remap desired rest (kept + 1)
    else u32Max :: remap desired rest kept

/-- An entry of the ring with its new number, unless its URL leaves. -/
def renumber (numbers : List Nat) (entry : Nat × Nat) : Option (Nat × Nat) :=
  match numbers[entry.2]? with
  | some n => if n = u32Max then none else some (entry.1, n)
  | none => none

/-- The merge pass: before each entry that stays, the pending ones up to its position. -/
def mergePass : List (Nat × Nat) → List (Nat × Nat) → List (Nat × Nat)
  | [], pending => pending
  | entry :: rest, pending =>
    pending.takeWhile (fun p => p.1 ≤ entry.1)
      ++ entry :: mergePass rest (pending.dropWhile fun p => p.1 ≤ entry.1)

/-- The virtual nodes of the added URLs, numbered from `start`. -/
def addedNodes (added : List String) (start : Nat) : List (Nat × Nat) :=
  (added.zipIdx start).flatMap fun p => vnodesFor placing p.1 (asU32 p.2)

/-- `updated`: reconcile the ring to exactly some URLs. -/
def updated (ring : HashRing) (urls : List String) : HashRing :=
  let desired := urls.eraseDups
  let added := desired.filter (· ∉ ring.urls)
  if added.isEmpty && desired.length == ring.urls.length then ring
  else
    let retained := ring.urls.filter (· ∈ desired)
    let numbers := remap desired ring.urls 0
    let addedVnodes := placing.order.sort (addedNodes placing added retained.length)
    ⟨mergePass (ring.entries.filterMap (renumber numbers)) addedVnodes, retained ++ added⟩

/-! ## The URLs -/

/-- The URLs of the ring are these, each once. -/
structure Holds (ring : HashRing) (urls : List String) : Prop where
  nodup : ring.urls.Nodup
  mem_iff : ∀ url, url ∈ ring.urls ↔ url ∈ urls

variable {ring : HashRing}

theorem Holds.congr {us vs : List String} (h : ring.Holds us) (huv : ∀ url, url ∈ us ↔ url ∈ vs) :
    ring.Holds vs :=
  ⟨h.nodup, fun url => (h.mem_iff url).trans (huv url)⟩

theorem holds_new (urls : List String) : (new placing urls).Holds urls :=
  ⟨nodup_eraseDups urls, fun _ => mem_eraseDups⟩

/-- **A reconciled ring holds exactly the URLs it was reconciled to.** -/
theorem holds_updated (h : ring.urls.Nodup) (urls : List String) :
    (ring.updated placing urls).Holds urls := by
  have hdesired : urls.eraseDups.Nodup := nodup_eraseDups urls
  rw [updated]
  split
  · rename_i hsame
    rw [Bool.and_eq_true, List.isEmpty_iff, beq_iff_eq, filter_eq_nil_iff] at hsame
    have hsub : urls.eraseDups ⊆ ring.urls := fun url hu => by simpa using hsame.1 url hu
    have hperm : urls.eraseDups.Perm ring.urls :=
      (subperm_of_subset hdesired hsub).perm_of_length_le hsame.2.ge
    exact ⟨h, fun url => hperm.mem_iff.symm.trans mem_eraseDups⟩
  · refine ⟨Nodup.append (h.filter _) (hdesired.filter _) ?_, fun url => ?_⟩
    · intro url hr ha
      exact absurd (mem_of_mem_filter hr) (by simpa using (mem_filter.mp ha).2)
    · by_cases hurl : url ∈ ring.urls <;> simp [hurl]

/-! ## The entries -/

/-- The entries of the ring are the virtual nodes of its URLs, sorted. -/
structure Placed (ring : HashRing) : Prop where
  perm : ring.entries.Perm (nodesOf placing ring.urls)
  sorted : ring.entries.Pairwise fun a b => byPosition a b

theorem byPosition_trans (a b c : Nat × Nat) (hab : byPosition a b) (hbc : byPosition b c) :
    byPosition a c := by
  simp only [byPosition, decide_eq_true_eq] at *
  omega

theorem byPosition_total (a b : Nat × Nat) : byPosition a b || byPosition b a := by
  simp only [byPosition, Bool.or_eq_true, decide_eq_true_eq]
  omega

theorem sorted_sort (es : List (Nat × Nat)) :
    (placing.order.sort es).Pairwise fun a b => byPosition a b :=
  (placing.order.sorted es).imp fun h => decide_eq_true h

theorem placed_new (urls : List String) : (new placing urls).Placed placing :=
  ⟨placing.order.perm _, sorted_sort placing _⟩

/-- The merge pass merges. -/
theorem mergePass_eq (entries pending : List (Nat × Nat)) :
    mergePass entries pending = pending.merge entries byPosition := by
  induction entries generalizing pending with
  | nil => rw [mergePass, merge_right]
  | cons e es ih =>
    rw [mergePass, ih]
    induction pending with
    | nil => simp
    | cons p ps ihp =>
      rw [cons_merge_cons]
      by_cases hp : p.1 ≤ e.1
      · rw [takeWhile_cons_of_pos (by simpa using hp),
          dropWhile_cons_of_pos (by simpa using hp), if_pos (by simpa [byPosition] using hp),
          cons_append, ihp]
      · rw [takeWhile_cons_of_neg (by simpa using hp),
          dropWhile_cons_of_neg (by simpa using hp),
          if_neg (by simpa [byPosition] using hp), nil_append]

theorem sorted_filterMap {es : List (Nat × Nat)} (numbers : List Nat)
    (h : es.Pairwise fun a b => byPosition a b) :
    (es.filterMap (renumber numbers)).Pairwise fun a b => byPosition a b := by
  have hfst : ∀ {e e' : Nat × Nat}, renumber numbers e = some e' → e'.1 = e.1 := by
    intro e e' he
    rw [renumber] at he
    split at he
    · split at he
      · cases he
      · rw [← Option.some.inj he]
    · cases he
  rw [pairwise_filterMap]
  refine h.imp fun hab a' ha b' hb => ?_
  simpa [byPosition, hfst ha, hfst hb] using hab

theorem filterMap_vnodesFor (numbers : List Nat) (url : String) (i : Nat) :
    (vnodesFor placing url i).filterMap (renumber numbers) =
      match numbers[i]? with
      | some n => if n = u32Max then [] else vnodesFor placing url n
      | none => [] := by
  rw [vnodesFor, filterMap_map]
  rcases hn : numbers[i]? with _ | n
  · have hstep : (renumber numbers ∘ fun vnode : Nat =>
        (placing.hashPosition (url ++ "#" ++ toString vnode), i)) = fun _ => none := by
      funext vnode
      rw [Function.comp, renumber, hn]
    rw [hstep, filterMap_eq_nil_iff]
    exact fun _ _ => rfl
  · have hstep : (renumber numbers ∘ fun vnode : Nat =>
        (placing.hashPosition (url ++ "#" ++ toString vnode), i)) = fun vnode =>
          if n = u32Max then none
          else some (placing.hashPosition (url ++ "#" ++ toString vnode), n) := by
      funext vnode
      rw [Function.comp, renumber, hn]
    rw [hstep]
    by_cases hmax : n = u32Max
    · simp only [if_pos hmax]
      exact filterMap_eq_nil_iff.mpr fun _ _ => rfl
    · simp only [if_neg hmax, filterMap_eq_map']
      rfl

theorem filterMap_nodes (desired urls : List String) (before : List Nat) (kept : Nat)
    (hlen : before.length + urls.length < 2 ^ 32)
    (hkept : kept + (urls.filter (· ∈ desired)).length ≤ u32Max) :
    ((urls.zipIdx before.length).flatMap fun p => vnodesFor placing p.1 (asU32 p.2)).filterMap
        (renumber (before ++ remap desired urls kept)) =
      ((urls.filter (· ∈ desired)).zipIdx kept).flatMap
        fun p => vnodesFor placing p.1 (asU32 p.2) := by
  induction urls generalizing before kept with
  | nil => rfl
  | cons url rest ih =>
    have hi : asU32 before.length = before.length := Nat.mod_eq_of_lt (by omega)
    rw [zipIdx_cons, flatMap_cons, filterMap_append, hi, filterMap_vnodesFor, remap]
    by_cases hu : url ∈ desired
    · rw [filter_cons_of_pos (by simpa using hu), length_cons] at hkept
      have hk : asU32 kept = kept := Nat.mod_eq_of_lt (by rw [u32Max] at hkept; omega)
      have hne : kept ≠ u32Max := by omega
      have hrest := ih (before ++ [kept]) (kept + 1) (by simp at hlen ⊢; omega) (by omega)
      rw [if_pos hu, filter_cons_of_pos (by simpa using hu), zipIdx_cons,
        flatMap_cons, hk, ← hrest]
      simp [hne]
    · rw [filter_cons_of_neg (by simpa using hu)] at hkept ⊢
      have hrest := ih (before ++ [u32Max]) kept (by simp at hlen ⊢; omega) hkept
      rw [if_neg hu, ← hrest]
      simp

/-- **A ring reconciled from a placed one is placed**, where both have fewer URLs than `u32` can
number. -/
theorem placed_updated (h : ring.Placed placing) {urls : List String}
    (hold : ring.urls.length ≤ u32Max)
    (hnew : (ring.updated placing urls).urls.length ≤ u32Max) :
    (ring.updated placing urls).Placed placing := by
  rw [updated] at hnew ⊢
  split
  · exact h
  · rename_i hsame
    rw [if_neg hsame, length_append] at hnew
    have hrenumbered := filterMap_nodes placing urls.eraseDups ring.urls [] 0
      (by rw [u32Max] at hold; simp; omega) (by omega)
    simp only [mergePass_eq]
    refine ⟨(merge_perm_append byPosition).trans (perm_append_comm.trans ?_),
      pairwise_merge byPosition_trans byPosition_total _ _ (sorted_sort placing _)
        (sorted_filterMap _ h.sorted)⟩
    rw [nodesOf, zipIdx_append, flatMap_append, Nat.zero_add]
    refine Perm.append ?_ (placing.order.perm _)
    have hperm := h.perm.filterMap (renumber (remap urls.eraseDups ring.urls 0))
    exact hperm.trans (Perm.of_eq hrenumbered)

end HashRing

end Smg.Gateway
