import Smg.Lib.ForestPaths

/-!
# Taking owners off the nodes of a radix forest

Nodes have owners, `holds t d` for an owner `t`.  An owner is taken off a node, and then nodes that
nobody owns and that have nothing below them are pruned.

* `Owns`: who owns the node at a path, and `Leaf`: an owner of a node and of none right below it;
* `Prunes`: bare leaves are taken out; nothing that is owned changes (`Prunes.owns_iff`);
* `Borne`: no leaf is bare.  Together with closed ownership it says that **every node is owned**
  (`all_of_borne`).
-/

set_option autoImplicit false

namespace Smg.Forest

variable {κ α δ τ : Type} [DecidableEq κ] (holds : τ → δ → Bool)

def Bare (d : δ) : Prop := ∀ t, holds t d = false

/-- `t` owns the node at a path. -/
def Owns (F : Forest κ α δ) (t : τ) (π : List κ) : Prop :=
  ∃ e d, F.get? π = some (e, d) ∧ holds t d = true

/-- `t` owns the node at a path and none right below it. -/
def Leaf (F : Forest κ α δ) (t : τ) (π : List κ) : Prop :=
  Owns holds F t π ∧ ∀ x, ¬Owns holds F t (π ++ [x])

/-- A bare node has something below it, the node at `π` perhaps not. -/
def BorneExcept (F : Forest κ α δ) (π : List κ) : Prop :=
  ∀ ρ e d, ρ ≠ π → F.get? ρ = some (e, d) → Bare holds d → F.under ρ ≠ nil

def Borne (F : Forest κ α δ) : Prop :=
  ∀ ρ e d, F.get? ρ = some (e, d) → Bare holds d → F.under ρ ≠ nil

/-- Bare leaves are taken out, one after another. -/
inductive Prunes : Forest κ α δ → Forest κ α δ → Prop
  | refl (F : Forest κ α δ) : Prunes F F
  | step {F F' : Forest κ α δ} {π : List κ} {e : List α} {d : δ} (h : F.get? π = some (e, d))
      (hbare : Bare holds d) (hleaf : F.under π = nil) (hrest : Prunes (F.detachAt π) F') :
      Prunes F F'

variable {holds} {F F' : Forest κ α δ} {t : τ} {π : List κ}

/-! ## Owners by paths -/

theorem Owns.ne_nil (h : Owns holds F t π) : π ≠ [] := by
  obtain ⟨_, _, h, -⟩ := h
  exact ne_nil_of_get? h

theorem anyTop_under_iff_owns (hF : F.Distinct) :
    (F.under π).anyTop (holds t) = true ↔ ∃ x, Owns holds F t (π ++ [x]) :=
  anyTop_under_iff hF

theorem descends_iff_owns :
    F.Descends (holds t) ↔ ∀ π x, π ≠ [] → Owns holds F t (π ++ [x]) → Owns holds F t π :=
  ⟨fun h π x hπ ⟨e, d, hget, hd⟩ => h π x e d hπ hget hd,
    fun h π x e d hπ hget hd => h π x hπ ⟨e, d, hget, hd⟩⟩

/-- Below every owned node there is one that is lowest. -/
theorem Owns.exists_leaf (hF : F.Distinct) (h : Owns holds F t π) : ∃ ρ, Leaf holds F t ρ := by
  obtain ⟨e, d, hget, hd⟩ := h
  obtain ⟨ρ, e', d', hget', hd', hlow⟩ := exists_lowest hF hget hd
  refine ⟨ρ, ⟨e', d', hget', hd'⟩, fun x hx => ?_⟩
  rw [(anyTop_under_iff_owns hF).mpr ⟨x, hx⟩] at hlow
  cases hlow

/-- **Every node is owned**, if no leaf is bare and owners own upwards. -/
theorem all_of_borne (hF : F.Distinct) (hb : Borne holds F) (hdown : ∀ t, F.Descends (holds t)) :
    F.All fun d => ¬Bare holds d := by
  classical
  rw [all_iff hF]
  intro π e d hget hbare
  -- a lowest bare node has something below it, which is owned, so it is owned itself
  obtain ⟨ρ, e', d', hget', hd', hlow⟩ :=
    exists_lowest (f := fun d => decide (Bare holds d)) hF hget (decide_eq_true hbare)
  have hbare' := of_decide_eq_true hd'
  obtain ⟨x, hx⟩ : ∃ x, F.get? (ρ ++ [x]) ≠ none := by
    by_contra h
    exact hb ρ e' d' hget' hbare' (under_eq_nil_iff.mpr fun x => by_contra fun hx => h ⟨x, hx⟩)
  obtain ⟨⟨e1, d1⟩, h1⟩ := Option.ne_none_iff_exists'.mp hx
  have hheld : ¬Bare holds d1 := by
    intro hb1
    have : (F.under ρ).anyTop (fun d => decide (Bare holds d)) = true :=
      (anyTop_under_iff hF).mpr ⟨x, e1, d1, h1, decide_eq_true hb1⟩
    rw [this] at hlow
    cases hlow
  obtain ⟨t, ht⟩ : ∃ t, holds t d1 = true := by
    by_contra h
    exact hheld fun t => Bool.eq_false_iff.mpr fun ht => h ⟨t, ht⟩
  obtain ⟨e2, d2, h2, ht2⟩ := hdown t ρ x e1 d1 (ne_nil_of_get? hget') h1 ht
  rw [hget'] at h2
  cases h2
  rw [hbare' t] at ht2
  cases ht2

theorem Borne.of_all (hF : F.Distinct) (h : F.All fun d => ¬Bare holds d) : Borne holds F :=
  fun ρ e d hget hbare => absurd hbare ((all_iff hF).mp h ρ e d hget)

/-! ## One owner less -/

theorem owns_modifyAt {drop : δ → δ} [DecidableEq τ] {t t' : τ}
    (hdrop : ∀ t' d, holds t' (drop d) = (holds t' d && decide (t' ≠ t))) {π ρ : List κ} :
    Owns holds (F.modifyAt drop π) t' ρ ↔ Owns holds F t' ρ ∧ ¬(ρ = π ∧ t' = t) := by
  rw [Owns, get?_modifyAt]
  by_cases hρ : ρ = π
  · rw [if_pos hρ, hρ]
    constructor
    · rintro ⟨e, d, h, hd⟩
      obtain ⟨⟨e', d'⟩, h', heq⟩ := Option.map_eq_some_iff.mp h
      cases heq
      rw [hdrop, Bool.and_eq_true, decide_eq_true_iff] at hd
      exact ⟨⟨e', d', h', hd.1⟩, fun h => hd.2 h.2⟩
    · rintro ⟨⟨e, d, h, hd⟩, hne⟩
      refine ⟨e, drop d, by rw [h]; rfl, ?_⟩
      rw [hdrop, hd]
      exact decide_eq_true fun heq => hne ⟨rfl, heq⟩
  · rw [if_neg hρ]
    exact ⟨fun h => ⟨h, fun h' => hρ h'.1⟩, And.left⟩

theorem BorneExcept.modifyAt {g : δ → δ} (h : Borne holds F) (π : List κ) :
    BorneExcept holds (F.modifyAt g π) π := by
  intro ρ e d hρ hget hbare
  rw [get?_modifyAt, if_neg hρ] at hget
  intro hnil
  refine h ρ e d hget hbare (under_eq_nil_iff.mpr fun x => ?_)
  have hx := under_eq_nil_iff.mp hnil x
  rw [get?_modifyAt] at hx
  split at hx
  · rename_i heq
    rw [heq]
    exact Option.map_eq_none_iff.mp hx
  · exact hx

/-! ## Pruning -/

theorem get?_detachAt_leaf (hF : F.Distinct) (hπ : π ≠ []) (hleaf : F.under π = nil) {ρ : List κ} :
    (F.detachAt π).get? ρ = if ρ = π then none else F.get? ρ := by
  rw [get?_detachAt hF hπ]
  by_cases hρ : ρ = π
  · rw [if_pos hρ, if_pos (hρ ▸ List.prefix_refl _)]
  · split
    · rename_i hprefix
      obtain ⟨σ, rfl⟩ := hprefix
      rcases σ with _ | ⟨x, σ⟩
      · exact absurd (List.append_nil π) hρ
      · rw [get?_append, hleaf]
        rfl
    · rfl

theorem BorneExcept.detachAt {k : κ} (hF : F.Distinct) (h : BorneExcept holds F (π ++ [k]))
    (hleaf : F.under (π ++ [k]) = nil) : BorneExcept holds (F.detachAt (π ++ [k])) π := by
  intro ρ e d hρ hget hbare hnil
  rw [get?_detachAt_leaf hF (by simp) hleaf] at hget
  split at hget
  · cases hget
  · rename_i hne
    refine h ρ e d hne hget hbare (under_eq_nil_iff.mpr fun x => ?_)
    have hx := under_eq_nil_iff.mp hnil x
    rw [get?_detachAt_leaf hF (by simp) hleaf, if_neg] at hx
    · exact hx
    · intro heq
      exact hρ (List.append_inj_left' heq rfl)

variable {K : Keying κ α} {S : Set (List α)}

theorem Prunes.wf (h : Prunes holds F F') (hF : F.WF K S) : F'.WF K S := by
  induction h with
  | refl F => exact hF
  | step hget hbare hleaf hrest ih => exact ih (hF.detachAt _)

theorem Prunes.owns_iff (h : Prunes holds F F') (hF : F.WF K S) {t : τ} {ρ : List κ} :
    Owns holds F' t ρ ↔ Owns holds F t ρ := by
  induction h with
  | refl F => rfl
  | @step F F' π e d hget hbare hleaf hrest ih =>
    rw [ih (hF.detachAt _), Owns, get?_detachAt_leaf hF.distinct (ne_nil_of_get? hget) hleaf]
    split
    · rename_i hρ
      constructor
      · rintro ⟨_, _, h, _⟩
        cases h
      · rintro ⟨e', d', h, hd⟩
        rw [hρ, hget] at h
        cases h
        rw [hbare t] at hd
        cases hd
    · rfl

theorem Prunes.weigh_eq (h : Prunes holds F F') {w : List α → δ → Nat}
    (hw : ∀ e d, Bare holds d → w e d = 0) : F'.weigh w = F.weigh w := by
  induction h with
  | refl F => rfl
  | step hget hbare hleaf hrest ih =>
    have := weigh_detachAt (w := w) hget hleaf
    rw [hw _ _ hbare] at this
    rw [ih]
    exact this

end Smg.Forest
