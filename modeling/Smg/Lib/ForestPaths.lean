import Smg.Lib.ForestOwned

/-!
# Nodes of a radix forest by their paths

A node is named by the keys that lead to it.  `get?` reads a node, `modifyAt` changes its data,
`detachAt` takes it out with all below it; what the operations do is said by `get?`.  Then the
invariants of `ForestOwned` are read by paths: closed (`closed_iff`), without bare leaves
(`borne_iff`), and the size as it changes with one node.
-/

set_option autoImplicit false

namespace Smg.Forest

open List

variable {κ α δ : Type} [DecidableEq κ]

def get? : Forest κ α δ → List κ → Option (List α × δ)
  | .nil, _ => none
  | .cons _ _ _ _ _, [] => none
  | .cons k e d cs ss, x :: π =>
    if k = x then (if π = [] then some (e, d) else cs.get? π) else ss.get? (x :: π)

/-- What hangs below the node at a path; the empty path is the root of the forest. -/
def under : Forest κ α δ → List κ → Forest κ α δ
  | F, [] => F
  | .nil, _ :: _ => .nil
  | .cons k _ _ cs ss, x :: π => if k = x then cs.under π else ss.under (x :: π)

def modifyAt (g : δ → δ) : Forest κ α δ → List κ → Forest κ α δ
  | .nil, _ => .nil
  | .cons k e d cs ss, [] => .cons k e d cs ss
  | .cons k e d cs ss, x :: π =>
    if k = x then
      (if π = [] then .cons k e (g d) cs ss else .cons k e d (cs.modifyAt g π) ss)
    else .cons k e d cs (ss.modifyAt g (x :: π))

/-- Take the node at a path out, with all below it. -/
def detachAt : Forest κ α δ → List κ → Forest κ α δ
  | .nil, _ => .nil
  | .cons k e d cs ss, [] => .cons k e d cs ss
  | .cons k e d cs ss, x :: π =>
    if k = x then (if π = [] then ss else .cons k e d (cs.detachAt π) ss)
    else .cons k e d cs (ss.detachAt (x :: π))

omit [DecidableEq κ] in
/-- Some node without a node above it meets a condition. -/
def anyTop (f : δ → Bool) : Forest κ α δ → Bool
  | .nil => false
  | .cons _ _ d _ ss => f d || ss.anyTop f

/-- What there is to collect at the nodes, each item with the path of its node. -/
def gather {β : Type} (g : List α → δ → Forest κ α δ → List β) : Forest κ α δ → List (List κ × β)
  | .nil => []
  | .cons k e d cs ss =>
    (cs.gather g).map (fun x => (k :: x.1, x.2)) ++ (g e d cs).map (fun b => ([k],
      b)) ++ ss.gather g

def weigh (w : List α → δ → Nat) : Forest κ α δ → Nat
  | .nil => 0
  | .cons _ e d cs ss => w e d + cs.weigh w + ss.weigh w

def Distinct : Forest κ α δ → Prop
  | .nil => True
  | .cons k _ _ cs ss => k ∉ ss.keys ∧ cs.Distinct ∧ ss.Distinct

variable {e : List α} {d : δ} {k : κ} (F : Forest κ α δ)

section Reading

variable {F : Forest κ α δ}

omit [DecidableEq κ] in
theorem WF.distinct {K : Keying κ α} {S : Set (List α)} (h : F.WF K S) : F.Distinct := by
  induction F with
  | nil => trivial
  | cons k e d cs ss ihcs ihss => exact ⟨h.2.2.2.1, ihcs h.2.2.2.2.1, ihss h.2.2.2.2.2⟩

@[simp] theorem get?_nil_path : F.get? [] = none := by
  cases F <;> rfl

@[simp] theorem under_nil_path : F.under [] = F := by
  cases F <;> rfl

@[simp] theorem nil_get? (π : List κ) : (nil : Forest κ α δ).get? π = none := rfl

@[simp] theorem nil_under (π : List κ) : (nil : Forest κ α δ).under π = nil := by
  cases π <;> rfl

theorem get?_eq_none_of_key {x : κ} (hx : x ∉ F.keys) (π : List κ) : F.get? (x :: π) = none := by
  induction F with
  | nil => rfl
  | cons k e d cs ss _ ih =>
    rw [keys, mem_cons, not_or] at hx
    rw [get?, if_neg (Ne.symm hx.1), ih hx.2]

theorem get?_cons_head (k : κ) (e : List α) (d : δ) (cs ss : Forest κ α δ) :
    (cons k e d cs ss).get? [k] = some (e, d) := by
  rw [get?, if_pos rfl, if_pos rfl]

variable {π : List κ}

theorem get?_cons_down (k : κ) (e : List α) (d : δ) (cs ss : Forest κ α δ) (hπ : π ≠ []) :
    (cons k e d cs ss).get? (k :: π) = cs.get? π := by
  rw [get?, if_pos rfl, if_neg hπ]

variable {x : List α × δ}

theorem under_cons_down (k : κ) (e : List α) (d : δ) (cs ss : Forest κ α δ) :
    (cons k e d cs ss).under (k :: π) = cs.under π := if_pos rfl

/-- Where a sibling has a node, the edges before it are passed. -/
theorem cons_beside {cs ss : Forest κ α δ} (hk : k ∉ ss.keys) (h : ss.get? π = some x) :
    (cons k e d cs ss).get? π = some x ∧ (cons k e d cs ss).under π = ss.under π := by
  rcases π with _ | ⟨y, π⟩
  · rw [get?_nil_path] at h
    cases h
  · have hne : k ≠ y := by
      rintro rfl
      rw [get?_eq_none_of_key hk] at h
      cases h
    rw [get?, under, if_neg hne, if_neg hne]
    exact ⟨h, rfl⟩

theorem ne_nil_of_get? (h : F.get? π = some x) : π ≠ [] := by
  rintro rfl
  rw [get?_nil_path] at h
  cases h

theorem get?_cons_cases {cs ss : Forest κ α δ} (h : (cons k e d cs ss).get? π = some x) :
    (π = [k] ∧ x = (e, d)) ∨ (∃ ρ, π = k :: ρ ∧ cs.get? ρ = some x) ∨ ss.get? π = some x := by
  rcases π with _ | ⟨y, π⟩
  · cases h
  · rw [get?] at h
    split_ifs at h with hk hπ
    · exact .inl ⟨by rw [hk, hπ], (Option.some.inj h).symm⟩
    · exact .inr (.inl ⟨π, by rw [hk], h⟩)
    · exact .inr (.inr h)

theorem get?_append (π : List κ) (x : κ) (ρ : List κ) :
    F.get? (π ++ x :: ρ) = (F.under π).get? (x :: ρ) := by
  induction F generalizing π with
  | nil => rw [nil_under]
           rfl
  | cons k e d cs ss ihcs ihss =>
    rcases π with _ | ⟨y, π⟩
    · rfl
    · rw [cons_append, get?, under]
      split
      · rw [if_neg (by simp), ihcs π]
      · exact ihss (y :: π)

theorem eq_nil_iff_get? : F = nil ↔ ∀ x, F.get? [x] = none := by
  constructor
  · rintro rfl x
    rfl
  · intro h
    cases F with
    | nil => rfl
    | cons k e d cs ss =>
      have := h k
      rw [get?, if_pos rfl] at this
      cases this

theorem under_eq_nil_iff : F.under π = nil ↔ ∀ x, F.get? (π ++ [x]) = none := by
  rw [eq_nil_iff_get?]
  exact forall_congr' fun x => by rw [get?_append]

theorem isSome_get?_of_append (hπ : π ≠ []) {x : κ} {ρ : List κ}
    (h : (F.get? (π ++ x :: ρ)).isSome) : (F.get? π).isSome := by
  induction F generalizing π with
  | nil => cases h
  | cons k e d cs ss ihcs ihss =>
    rcases π with _ | ⟨y, π⟩
    · exact absurd rfl hπ
    · rw [cons_append, get?] at h
      rw [get?]
      split
      · rename_i hk
        rw [if_pos hk, if_neg (by simp)] at h
        split
        · rfl
        · rename_i hπ'
          exact ihcs hπ' h
      · rename_i hk
        rw [if_neg hk] at h
        exact ihss (by simp) h

theorem anyTop_iff {f : δ → Bool} (hF : F.Distinct) :
    F.anyTop f = true ↔ ∃ x e d, F.get? [x] = some (e, d) ∧ f d = true := by
  induction F with
  | nil => simp [anyTop]
  | cons k e d cs ss _ ih =>
    obtain ⟨hk, -, hss⟩ := hF
    rw [anyTop, Bool.or_eq_true, ih hss]
    constructor
    · rintro (h | ⟨x, e', d', hx, hf⟩)
      · exact ⟨k, e, d, get?_cons_head .., h⟩
      · exact ⟨x, e', d', (cons_beside hk hx).1, hf⟩
    · rintro ⟨x, e', d', hx, hf⟩
      rw [get?] at hx
      split at hx
      · cases hx
        exact .inl hf
      · exact .inr ⟨x, e', d', hx, hf⟩

theorem Distinct.under (hF : F.Distinct) (π : List κ) : (F.under π).Distinct := by
  induction F generalizing π with
  | nil =>
    rw [nil_under]
    exact hF
  | cons k e d cs ss ihcs ihss =>
    rcases π with _ | ⟨x, π⟩
    · exact hF
    · rw [Forest.under]
      split
      · exact ihcs hF.2.1 π
      · exact ihss hF.2.2 (x :: π)

theorem anyTop_under_iff {f : δ → Bool} (hF : F.Distinct) :
    (F.under π).anyTop f = true ↔ ∃ x e d, F.get? (π ++ [x]) = some (e, d) ∧ f d = true := by
  rw [anyTop_iff (hF.under π)]
  simp only [get?_append]

theorem mem_gather {β : Type} {g : List α → δ → Forest κ α δ → List β} (hF : F.Distinct) {b : β} :
    (π, b) ∈ F.gather g ↔ ∃ e d, F.get? π = some (e, d) ∧ b ∈ g e d (F.under π) := by
  induction F generalizing π b with
  | nil => simp [gather]
  | cons k e d cs ss ihcs ihss =>
    obtain ⟨hk, hcs, hss⟩ := hF
    rw [gather, mem_append, mem_append, mem_map, mem_map, ihss hss]
    constructor
    · rintro ((⟨⟨ρ, b'⟩, hmem, heq⟩ | ⟨b', hmem, heq⟩) | ⟨e', d', hget, hb⟩)
      · cases heq
        obtain ⟨e', d', hget, hb⟩ := (ihcs hcs).mp hmem
        refine ⟨e', d', (get?_cons_down _ _ _ _ _ (ne_nil_of_get? hget)).trans hget, ?_⟩
        rwa [under_cons_down]
      · cases heq
        exact ⟨e, d, get?_cons_head .., by rwa [under_cons_down, under_nil_path]⟩
      · exact ⟨e', d', (cons_beside hk hget).1, by rwa [(cons_beside hk hget).2]⟩
    · rintro ⟨e', d', hget, hb⟩
      rcases get?_cons_cases hget with ⟨rfl, heq⟩ | ⟨ρ, rfl, hρ⟩ | hbeside
      · cases heq
        rw [under_cons_down, under_nil_path] at hb
        exact .inl (.inr ⟨b, hb, rfl⟩)
      · rw [under_cons_down] at hb
        exact .inl (.inl ⟨_, (ihcs hcs).mpr ⟨e', d', hρ, hb⟩, rfl⟩)
      · rw [(cons_beside hk hbeside).2] at hb
        exact .inr ⟨e', d', hbeside, hb⟩

end Reading

/-! ## Changing a node, taking one out -/

section Changing

variable {K : Keying κ α} {S : Set (List α)} (g : δ → δ)

theorem get?_modifyAt (π ρ : List κ) : (F.modifyAt g π).get? ρ =
      if ρ = π then (F.get? π).map (fun x => (x.1, g x.2)) else F.get? ρ := by
  induction F generalizing π ρ with
  | nil => simp [modifyAt]
  | cons k e d cs ss ihcs ihss =>
    rcases π with _ | ⟨x, π⟩
    · split
      · rename_i h
        rw [h]
        rfl
      · rfl
    · rcases ρ with _ | ⟨y, ρ⟩
      · simp
      · rw [modifyAt]
        by_cases hkx : k = x
        · rw [if_pos hkx]
          by_cases hπ : π = []
          · rw [hπ]
            simp only [get?, if_true, List.cons.injEq, ← hkx, @eq_comm _ y k]
            by_cases hky : k = y <;> by_cases hρ : ρ = [] <;> simp [hky, hρ]
          · simp only [get?, if_neg hπ, ihcs, List.cons.injEq, ← hkx, @eq_comm _ y k]
            by_cases hky : k = y
            · by_cases hρ : ρ = []
              · simp [hρ, Ne.symm hπ]
              · simp [hky, hρ]
            · simp [hky]
        · simp only [get?, if_neg hkx, ihss]
          by_cases hky : k = y
          · have : y ≠ x := fun h => hkx (hky.trans h)
            simp [this]
          · simp [hky]

variable {F : Forest κ α δ} {π : List κ}

theorem get?_detachAt (hF : F.Distinct) (hπ : π ≠ []) (ρ : List κ) :
    (F.detachAt π).get? ρ = if π <+: ρ then none else F.get? ρ := by
  induction F generalizing π ρ with
  | nil => simp [detachAt]
  | cons k e d cs ss ihcs ihss =>
    obtain ⟨hk, hcs, hss⟩ := hF
    rcases π with _ | ⟨x, π⟩
    · exact absurd rfl hπ
    · rcases ρ with _ | ⟨y, ρ⟩
      · simp
      · rw [detachAt]
        by_cases hkx : k = x
        · subst hkx
          rw [if_pos rfl]
          by_cases hπ : π = []
          · rw [hπ, get?]
            by_cases hky : k = y
            · subst hky
              simp [get?_eq_none_of_key hk]
            · simp [hky]
          · rw [if_neg hπ, get?, get?, ihcs hcs hπ]
            by_cases hky : k = y
            · by_cases hρ : ρ = []
              · simp [hρ, hπ]
              · simp [hky, hρ]
            · simp [hky]
        · rw [if_neg hkx, get?, get?, ihss hss (by simp)]
          by_cases hky : k = y
          · have : x ≠ y := fun h => hkx (hky.trans h.symm)
            simp [this]
          · simp [hky]

@[simp] theorem keys_modifyAt (π : List κ) : (F.modifyAt g π).keys = F.keys := by
  induction F generalizing π with
  | nil => rfl
  | cons k e d cs ss _ ih =>
    rcases π with _ | ⟨x, π⟩
    · rfl
    · rw [modifyAt]
      split_ifs
      · rfl
      · rfl
      · rw [keys, keys, ih]

theorem mem_keys_detachAt {x : κ} (h : x ∈ (F.detachAt π).keys) : x ∈ F.keys := by
  induction F generalizing π with
  | nil => exact h
  | cons k e d cs ss _ ih =>
    rcases π with _ | ⟨y, π⟩
    · exact h
    · rw [detachAt] at h
      split_ifs at h
      · exact mem_cons_of_mem _ h
      · exact h
      · exact (mem_cons.mp h).elim (fun h => h ▸ mem_cons_self) fun h =>
          mem_cons_of_mem _ (ih h)

theorem WF.modifyAt (hF : F.WF K S) (π : List κ) : (F.modifyAt g π).WF K S := by
  induction F generalizing π with
  | nil => trivial
  | cons k e d cs ss ihcs ihss =>
    have ⟨hke, he, heS, hkss, hcs, hss⟩ := hF
    rcases π with _ | ⟨x, π⟩
    · exact hF
    · rw [Forest.modifyAt]
      split_ifs
      · exact hF
      · exact ⟨hke, he, heS, hkss, ihcs hcs π, hss⟩
      · exact ⟨hke, he, heS, by rwa [keys_modifyAt], hcs, ihss hss _⟩

theorem WF.detachAt (hF : F.WF K S) (π : List κ) : (F.detachAt π).WF K S := by
  induction F generalizing π with
  | nil => trivial
  | cons k e d cs ss ihcs ihss =>
    have ⟨hke, he, heS, hkss, hcs, hss⟩ := hF
    rcases π with _ | ⟨x, π⟩
    · exact hF
    · rw [Forest.detachAt]
      split_ifs
      · exact hss
      · exact ⟨hke, he, heS, hkss, ihcs hcs π, hss⟩
      · exact ⟨hke, he, heS, fun h => hkss (mem_keys_detachAt h), hcs, ihss hss _⟩

theorem weigh_modifyAt {w : List α → δ → Nat} (h : F.get? π = some (e, d)) :
    (F.modifyAt g π).weigh w + w e d = F.weigh w + w e (g d) := by
  induction F generalizing π with
  | nil => cases h
  | cons k e' d' cs ss ihcs ihss =>
    rcases π with _ | ⟨x, π⟩
    · cases h
    · rw [get?] at h
      rw [modifyAt]
      split_ifs at h ⊢
      · cases h
        simp only [weigh]
        omega
      · have := ihcs h
        simp only [weigh]
        omega
      · have := ihss h
        simp only [weigh]
        omega

theorem weigh_detachAt {w : List α → δ → Nat} (h : F.get? π = some (e, d))
    (hleaf : F.under π = nil) : (F.detachAt π).weigh w + w e d = F.weigh w := by
  induction F generalizing π with
  | nil => cases h
  | cons k e' d' cs ss ihcs ihss =>
    rcases π with _ | ⟨x, π⟩
    · cases h
    · rw [get?] at h
      rw [Forest.under] at hleaf
      rw [detachAt]
      split_ifs at h hleaf ⊢ with hk hπ
      · cases h
        have hcs : cs = nil := by rwa [hπ, Forest.under.eq_1] at hleaf
        rw [hcs]
        simp only [weigh]
        omega
      · have := ihcs h hleaf
        simp only [weigh]
        omega
      · have := ihss h hleaf
        simp only [weigh]
        omega

end Changing

/-! ## The invariants by paths -/

section Invariants

variable {K : Keying κ α} {S : Set (List α)} {f : δ → Bool}

variable {F : Forest κ α δ} {π : List κ}

theorem WF.whole (hF : F.WF K S) (h : F.get? π = some (e, d)) : K.Whole e := by
  induction F generalizing π with
  | nil => cases h
  | cons k e' d' cs ss ihcs ihss =>
    obtain ⟨-, he', -, -, hcs, hss⟩ := hF
    rcases get?_cons_cases h with ⟨-, heq⟩ | ⟨ρ, -, hρ⟩ | hbeside
    · exact (Prod.mk.inj heq).1 ▸ he'
    · exact ihcs hcs hρ
    · exact ihss hss hbeside

omit [DecidableEq κ] in
theorem size_eq_weigh : F.size f = F.weigh fun e d => if f d = true then e.length else 0 := by
  induction F with
  | nil => rfl
  | cons k e d cs ss ihcs ihss => rw [size, weigh, ihcs, ihss]

theorem all_iff {P : δ → Prop} (hF : F.Distinct) :
    F.All P ↔ ∀ π e d, F.get? π = some (e, d) → P d := by
  induction F with
  | nil => simp [All]
  | cons k e d cs ss ihcs ihss =>
    obtain ⟨hk, hcs, hss⟩ := hF
    rw [All, ihcs hcs, ihss hss]
    constructor
    · rintro ⟨h1, h2, h3⟩ π e' d' h
      rcases get?_cons_cases h with ⟨-, heq⟩ | ⟨ρ, -, hρ⟩ | hbeside
      · exact (Prod.mk.inj heq).2 ▸ h1
      · exact h2 _ _ _ hρ
      · exact h3 _ _ _ hbeside
    · intro h
      refine ⟨h [k] e d (get?_cons_head ..), fun π e' d' hget => ?_, fun π e' d' hget => ?_⟩
      · exact h (k :: π) e' d' ((get?_cons_down _ _ _ _ _ (ne_nil_of_get? hget)).trans hget)
      · exact h π e' d' (cons_beside hk hget).1

/-- A node right below another meets the condition only if that does. -/
def Descends (f : δ → Bool) (F : Forest κ α δ) : Prop :=
  ∀ π x e d, π ≠ [] → F.get? (π ++ [x]) = some (e, d) → f d = true →
    ∃ e' d', F.get? π = some (e', d') ∧ f d' = true

theorem descends_cons {cs ss : Forest κ α δ} (hF : (cons k e d cs ss).Distinct) :
    (cons k e d cs ss).Descends f ↔
      (cs.anyTop f = true → f d = true) ∧ cs.Descends f ∧ ss.Descends f := by
  obtain ⟨hk, hcs, hss⟩ := hF
  constructor
  · intro h
    refine ⟨fun hany => ?_, fun π x e' d' hπ hget hf => ?_, fun π x e' d' hπ hget hf => ?_⟩
    · obtain ⟨x, e', d', hget, hf⟩ := (anyTop_iff hcs).mp hany
      obtain ⟨e0, d0, h0, hf0⟩ := h [k] x e' d' (by simp)
        ((get?_cons_down k e d cs ss (by simp)).trans hget) hf
      rw [get?_cons_head] at h0
      exact (Prod.mk.inj (Option.some.inj h0)).2 ▸ hf0
    · obtain ⟨e0, d0, h0, hf0⟩ := h (k :: π) x e' d' (by simp)
        ((get?_cons_down k e d cs ss (by simp)).trans hget) hf
      rw [get?_cons_down _ _ _ _ _ hπ] at h0
      exact ⟨e0, d0, h0, hf0⟩
    · obtain ⟨e0, d0, h0, hf0⟩ := h π x e' d' hπ (cons_beside hk hget).1 hf
      have hsome := isSome_get?_of_append hπ (Option.isSome_of_eq_some hget)
      obtain ⟨y, hy⟩ := Option.isSome_iff_exists.mp hsome
      rw [(cons_beside hk hy).1] at h0
      exact ⟨e0, d0, hy.trans h0, hf0⟩
  · rintro ⟨h1, h2, h3⟩ π x e' d' hπ hget hf
    rcases get?_cons_cases hget with ⟨heq, -⟩ | ⟨ρ, heq, hρ⟩ | hbeside
    · rcases π with _ | ⟨y, π⟩
      · exact absurd rfl hπ
      · simp at heq
    · rcases π with _ | ⟨y, π⟩
      · exact absurd rfl hπ
      · cases heq
        by_cases hπ' : π = []
        · subst hπ'
          exact ⟨e, d, get?_cons_head .., h1 ((anyTop_iff hcs).mpr ⟨x, e', d', hρ, hf⟩)⟩
        · obtain ⟨e0, d0, h0, hf0⟩ := h2 π x e' d' hπ' hρ hf
          exact ⟨e0, d0, (get?_cons_down _ _ _ _ _ hπ').trans h0, hf0⟩
    · obtain ⟨e0, d0, h0, hf0⟩ := h3 π x e' d' hπ hbeside hf
      exact ⟨e0, d0, (cons_beside hk h0).1, hf0⟩

/-- **Closed forests by paths.** -/
theorem closed_iff (hF : F.Distinct) {up : Bool} :
    F.Closed f up ↔ (F.anyTop f = true → up = true) ∧ F.Descends f := by
  induction F generalizing up with
  | nil =>
    refine ⟨fun _ => ⟨fun h => ?_, fun _ _ _ _ _ h => ?_⟩, fun _ => trivial⟩
    · cases h
    · cases h
  | cons k e d cs ss ihcs ihss =>
    rw [descends_cons hF, Closed, ihcs hF.2.1, ihss hF.2.2, anyTop, Bool.or_eq_true]
    tauto

theorem Closed.up_of_get? {up : Bool} (h : F.Closed f up) (hget : F.get? π = some (e, d))
    (hf : f d = true) : up = true := by
  induction F generalizing up π with
  | nil => cases hget
  | cons k e' d' cs ss ihcs ihss =>
    obtain ⟨h1, h2, h3⟩ := h
    rcases get?_cons_cases hget with ⟨-, heq⟩ | ⟨ρ, -, hρ⟩ | hbeside
    · exact h1 ((Prod.mk.inj heq).2 ▸ hf)
    · exact h1 (ihcs h2 hρ)
    · exact ihss h3 hbeside

theorem exists_lowest {F : Forest κ α δ} (hF : F.Distinct) (h : F.get? π = some (e, d))
    (hf : f d = true) :
    ∃ π e d, F.get? π = some (e, d) ∧ f d = true ∧ (F.under π).anyTop f = false := by
  induction F generalizing π e d with
  | nil => cases h
  | cons k e1 d1 cs ss ihcs ihss =>
    obtain ⟨hk, hcs, hss⟩ := hF
    by_cases hbelow : cs.anyTop f = true
    · obtain ⟨x, e', d', hx, hf'⟩ := (anyTop_iff hcs).mp hbelow
      obtain ⟨ρ, e0, d0, h0, hf0, hlow⟩ := ihcs hcs hx hf'
      refine ⟨k :: ρ, e0, d0, (get?_cons_down _ _ _ _ _ (ne_nil_of_get? h0)).trans h0, hf0, ?_⟩
      rwa [under_cons_down]
    · rcases get?_cons_cases h with ⟨-, heq⟩ | ⟨ρ, -, hρ⟩ | hbeside
      · refine ⟨[k], e1, d1, get?_cons_head .., (Prod.mk.inj heq).2 ▸ hf, ?_⟩
        rw [under_cons_down, under_nil_path]
        exact Bool.eq_false_iff.mpr hbelow
      · obtain ⟨ρ, e0, d0, h0, hf0, hlow⟩ := ihcs hcs hρ hf
        refine ⟨k :: ρ, e0, d0, (get?_cons_down _ _ _ _ _ (ne_nil_of_get? h0)).trans h0, hf0, ?_⟩
        rwa [under_cons_down]
      · obtain ⟨ρ, e0, d0, h0, hf0, hlow⟩ := ihss hss hbeside hf
        exact ⟨ρ, e0, d0, (cons_beside hk h0).1, hf0, by rwa [(cons_beside hk h0).2]⟩

omit [DecidableEq κ] in
theorem size_eq_zero_iff (hF : F.WF K S) : F.size f = 0 ↔ F.All fun d => f d = false := by
  induction F with
  | nil => simp [size, All]
  | cons k e d cs ss ihcs ihss =>
    obtain ⟨-, he, -, -, hcs, hss⟩ := hF
    have hpos := length_pos_iff.mpr he.1
    rw [All, size, ← ihcs hcs, ← ihss hss]
    split
    · rename_i hf
      refine ⟨fun h => by omega, fun h => ?_⟩
      rw [hf] at h
      cases h.1
    · rename_i hf
      rw [zero_add, Nat.add_eq_zero_iff]
      exact ⟨fun h => ⟨Bool.eq_false_iff.mpr hf, h⟩, And.right⟩

end Invariants

/-! ## Insertion below a path -/

section InsertAt

variable [DecidableEq α] (K : Keying κ α) (fresh : δ) (touch finish : δ → δ) (isNew : δ → Bool)

def insertAt : Forest κ α δ → List κ → List α → Inserted κ α δ
  | F, [], p => F.insert K fresh touch finish isNew p
  | .nil, _ :: _, _ => ⟨.nil, 0, false⟩
  | .cons k e d cs ss, x :: π, p =>
    if k = x then
      let lower := cs.insertAt π p
      ⟨.cons k e d lower.forest ss, lower.added, lower.created⟩
    else
      let beside := ss.insertAt (x :: π) p
      ⟨.cons k e d cs beside.forest, beside.added, beside.created⟩

end InsertAt

end Smg.Forest
