import Mathlib.Data.Finset.Card

/-!
# Looking for a cycle by depth-first search

The textbook test that a graph has no cycle: walk it depth first with two sets, the nodes met so
far and the nodes on the path being walked, and report a cycle when an edge leads back to the path.
The graph is a function `succ : ν → List ν`; the search changes the two sets as it goes, so it is
written with its state passed on.

What a caller wants from a search that found nothing is an order to do inductions along.  A list is
`Ranked` when every successor of a node stands behind it, and the nodes a search is done with can
always be listed that way (`hasCycle_sorted`), so nodes that were all searched without finding a
cycle have an induction principle (`ranked_of_firstCycle`, `Ranked.induction`).  A cycle that is
reported is there (`exists_leads_of_firstCycle`): some node leads back to itself.

The recursion is on a fuel that bounds the length of the path; `none` is running out of it, which
does not happen when there is more fuel than nodes (`firstCycle_isSome`).
-/

set_option autoImplicit false

namespace Smg

variable {ν : Type} [DecidableEq ν]

/-- What the search has seen: the nodes it met, and those on the path it is walking. -/
structure Search (ν : Type) where
  visited : Finset ν
  recStack : Finset ν

def Search.start : Search ν := ⟨∅, ∅⟩

/-- Search from each node of a list in turn, up to the first cycle. -/
def anyCycle (search : ν → Search ν → Option (Bool × Search ν)) :
    List ν → Search ν → Option (Bool × Search ν)
  | [], st => some (false, st)
  | v :: vs, st =>
    match search v st with
    | none => none
    | some (true, st') => some (true, st')
    | some (false, st') => anyCycle search vs st'

/-- Whether a cycle can be reached from a node that was not met before. -/
def hasCycle (succ : ν → List ν) : Nat → ν → Search ν → Option (Bool × Search ν)
  | 0, _, _ => none
  | fuel + 1, v, st =>
    if v ∈ st.recStack then some (true, st)
    else if v ∈ st.visited then some (false, st)
    else
      match anyCycle (hasCycle succ fuel) (succ v) ⟨insert v st.visited, insert v st.recStack⟩ with
      | none => none
      | some (true, st') => some (true, st')
      | some (false, st') => some (false, { st' with recStack := st'.recStack.erase v })

/-- The first node of a list whose search meets a cycle, if any does. -/
def firstCycle (succ : ν → List ν) (fuel : Nat) : List ν → Search ν → Option (Option ν)
  | [], _ => some none
  | v :: vs, st =>
    if v ∈ st.visited then firstCycle succ fuel vs st
    else
      match hasCycle succ fuel v st with
      | none => none
      | some (true, _) => some (some v)
      | some (false, st') => firstCycle succ fuel vs st'

/-! ## Orders to do inductions along -/

/-- Every successor of a node stands behind it. -/
inductive Ranked (succ : ν → List ν) : List ν → Prop
  | nil : Ranked succ []
  | cons {v : ν} {vs : List ν} (hv : ∀ w ∈ succ v, w ∈ vs) (hvs : Ranked succ vs) :
    Ranked succ (v :: vs)

omit [DecidableEq ν] in
/-- **Induction along a ranked list**: what passes from the successors of a node to the node holds
of every node listed. -/
theorem Ranked.induction {succ : ν → List ν} {vs : List ν} (h : Ranked succ vs) {P : ν → Prop}
    (hP : ∀ v ∈ vs, (∀ w ∈ succ v, P w) → P v) : ∀ v ∈ vs, P v := by
  induction h with
  | nil => simp
  | @cons u us hu hus ih =>
    have hus' : ∀ v ∈ us, P v := ih fun v hv => hP v (List.mem_cons_of_mem u hv)
    exact List.forall_mem_cons.mpr
      ⟨hP u List.mem_cons_self fun w hw => hus' w (hu w hw), hus'⟩

/-- The nodes the search is done with, those met that are not on the path, listed in rank. -/
structure Search.Sorted (succ : ν → List ν) (st : Search ν) (order : List ν) : Prop where
  mem_iff : ∀ v, v ∈ order ↔ v ∈ st.visited ∧ v ∉ st.recStack
  ranked : Ranked succ order

/-- What a search that found no cycle leaves: the path as it was, and one list extended to one that
has what was searched from. -/
structure Search.Extends (succ : ν → List ν) (st st' : Search ν) (order order' : List ν) :
    Prop where
  recStack_eq : st'.recStack = st.recStack
  visited_subset : st.visited ⊆ st'.visited
  order_subset : order ⊆ order'
  sorted : st'.Sorted succ order'

namespace Search

variable {succ : ν → List ν} {st st₁ st₂ : Search ν} {order order₁ order₂ : List ν} {v : ν}

omit [DecidableEq ν] in
theorem Extends.trans (h1 : Extends succ st st₁ order order₁)
    (h2 : Extends succ st₁ st₂ order₁ order₂) : Extends succ st st₂ order order₂ :=
  ⟨h2.recStack_eq.trans h1.recStack_eq, h1.visited_subset.trans h2.visited_subset,
    fun _ h => h2.order_subset (h1.order_subset h), h2.sorted⟩

/-- A node put on the path is not done with. -/
theorem Sorted.push (h : st.Sorted succ order) (hv : v ∉ st.visited) :
    Sorted succ ⟨insert v st.visited, insert v st.recStack⟩ order := by
  refine ⟨fun w => ?_, h.ranked⟩
  simp only [h.mem_iff, Finset.mem_insert, not_or]
  constructor
  · rintro ⟨hw, hs⟩
    exact ⟨.inr hw, fun he => hv (he ▸ hw), hs⟩
  · rintro ⟨hw, hne, hs⟩
    exact ⟨hw.resolve_left hne, hs⟩

theorem Sorted.pop (h : st₁.Sorted succ order₁) (hv : v ∈ st₁.visited)
    (hsucc : ∀ w ∈ succ v, w ∈ order₁) :
    Sorted succ { st₁ with recStack := st₁.recStack.erase v } (v :: order₁) := by
  refine ⟨fun w => ?_, .cons hsucc h.ranked⟩
  simp only [List.mem_cons, h.mem_iff, Finset.mem_erase]
  by_cases hw : w = v
  · simp [hw, hv]
  · simp [hw]

end Search

open Search

variable {succ : ν → List ν}

omit [DecidableEq ν] in
theorem anyCycle_sorted {search : ν → Search ν → Option (Bool × Search ν)}
    (hsearch : ∀ v st st' order, st.Sorted succ order → search v st = some (false, st') →
      ∃ order', Extends succ st st' order order' ∧ v ∈ order') :
    ∀ (vs : List ν) {st st' : Search ν} {order : List ν}, st.Sorted succ order →
      anyCycle search vs st = some (false, st') →
        ∃ order', Extends succ st st' order order' ∧ ∀ v ∈ vs, v ∈ order' := by
  intro vs
  induction vs with
  | nil =>
    intro st st' order ho h
    obtain rfl : st = st' := by simpa [anyCycle] using h
    exact ⟨order, ⟨rfl, subset_rfl, List.Subset.refl _, ho⟩, by simp⟩
  | cons v vs ih =>
    intro st st' order ho h
    rcases hv : search v st with _ | ⟨_ | _, st₁⟩ <;> simp only [anyCycle, hv] at h
    · cases h
    · obtain ⟨order₁, hx1, hm1⟩ := hsearch v st st₁ order ho hv
      obtain ⟨order₂, hx2, hm2⟩ := ih hx1.sorted h
      exact ⟨order₂, hx1.trans hx2, List.forall_mem_cons.mpr ⟨hx2.order_subset hm1, hm2⟩⟩
    · cases h

/-- **A search that finds nothing leaves its node, and all it was done with before, in rank.** -/
theorem hasCycle_sorted (fuel : Nat) (v : ν) (st st' : Search ν) (order : List ν)
    (ho : st.Sorted succ order) (h : hasCycle succ fuel v st = some (false, st')) :
    ∃ order', Extends succ st st' order order' ∧ v ∈ order' := by
  induction fuel generalizing v st st' order with
  | zero => exact absurd h (by simp [hasCycle])
  | succ fuel ih =>
    rw [hasCycle] at h
    by_cases hs : v ∈ st.recStack
    · exact absurd h (by simp [hs])
    by_cases hv : v ∈ st.visited
    · obtain rfl : st = st' := by simpa [hs, hv] using h
      exact ⟨order, ⟨rfl, subset_rfl, List.Subset.refl _, ho⟩, (ho.mem_iff v).mpr ⟨hv, hs⟩⟩
    rw [if_neg hs, if_neg hv] at h
    rcases hc : anyCycle (hasCycle succ fuel) (succ v)
        ⟨insert v st.visited, insert v st.recStack⟩ with _ | ⟨_ | _, st₁⟩ <;> simp only [hc] at h
    · cases h
    · obtain rfl : _ = st' := by simpa using h
      obtain ⟨order₁, hx, hm⟩ := anyCycle_sorted ih (succ v) (ho.push hv) hc
      have hst : st₁.recStack = insert v st.recStack := hx.recStack_eq
      have hvis : insert v st.visited ⊆ st₁.visited := hx.visited_subset
      have hpop := hx.sorted.pop (hvis (Finset.mem_insert_self v _)) hm
      refine ⟨v :: order₁, ⟨?_, ?_, ?_, hpop⟩, List.mem_cons_self⟩
      · simp [hst, hs]
      · exact fun w hw => hvis (Finset.mem_insert_of_mem hw)
      · exact fun w hw => List.mem_cons_of_mem v (hx.order_subset hw)
    · cases h

variable {fuel : Nat}

/-- **Nodes searched without finding a cycle can be listed in rank.** -/
theorem ranked_of_firstCycle : ∀ {vs : List ν} {st : Search ν} {order : List ν},
    st.Sorted succ order → st.recStack = ∅ → firstCycle succ fuel vs st = some none →
      ∃ order', Ranked succ order' ∧ order ⊆ order' ∧ ∀ v ∈ vs, v ∈ order' := by
  intro vs
  induction vs with
  | nil => exact fun {st order} ho _ _ => ⟨order, ho.ranked, List.Subset.refl _, by simp⟩
  | cons v vs ih =>
    intro st order ho hs h
    rw [firstCycle] at h
    by_cases hv : v ∈ st.visited
    · rw [if_pos hv] at h
      obtain ⟨order', hr, hsub, hm⟩ := ih ho hs h
      have hvo : v ∈ order := (ho.mem_iff v).mpr ⟨hv, by simp [hs]⟩
      exact ⟨order', hr, hsub, List.forall_mem_cons.mpr ⟨hsub hvo, hm⟩⟩
    rw [if_neg hv] at h
    rcases hc : hasCycle succ fuel v st with _ | ⟨_ | _, st₁⟩ <;> simp only [hc] at h
    · cases h
    · obtain ⟨order₁, hx, hvo⟩ := hasCycle_sorted fuel v st st₁ order ho hc
      obtain ⟨order', hr, hsub, hm⟩ := ih hx.sorted (hx.recStack_eq.trans hs) h
      exact ⟨order', hr, fun w hw => hsub (hx.order_subset hw),
        List.forall_mem_cons.mpr ⟨hsub hvo, hm⟩⟩
    · cases h

/-! ## Cycles -/

section Cycles

def Leads (succ : ν → List ν) : ν → ν → Prop := Relation.TransGen fun v w => w ∈ succ v

omit [DecidableEq ν] in
/-- Nothing listed in rank leads back to itself. -/
theorem Ranked.not_leads {vs : List ν} (h : Ranked succ vs) : ∀ v ∈ vs, ¬ Leads succ v v := by
  refine h.induction fun v _ ih hcycle => ?_
  obtain ⟨w, hw, hwv⟩ := Relation.TransGen.head'_iff.mp hcycle
  exact ih w hw (.tail' hwv hw)

def Search.PathTo (succ : ν → List ν) (st : Search ν) (v : ν) : Prop :=
  ∀ u ∈ st.recStack, Leads succ u v

variable {v : ν} {st st' : Search ν}

theorem Search.PathTo.push (h : st.PathTo succ v) {w : ν} (hw : w ∈ succ v) :
    PathTo succ ⟨insert v st.visited, insert v st.recStack⟩ w := by
  intro u hu
  rcases Finset.mem_insert.mp hu with rfl | hu
  · exact .single hw
  · exact (h u hu).tail hw

omit [DecidableEq ν] in
theorem exists_leads_of_anyCycle {search : ν → Search ν → Option (Bool × Search ν)}
    (hsearch : ∀ v st st', st.PathTo succ v → search v st = some (true, st') →
      ∃ w, Leads succ w w)
    (hpath : ∀ v st st', search v st = some (false, st') → st'.recStack = st.recStack) :
    ∀ (vs : List ν) {st st' : Search ν}, (∀ v ∈ vs, st.PathTo succ v) →
      anyCycle search vs st = some (true, st') → ∃ w, Leads succ w w := by
  intro vs
  induction vs with
  | nil => simp [anyCycle]
  | cons v vs ih =>
    intro st st' hvs h
    obtain ⟨hv, hvs⟩ := List.forall_mem_cons.mp hvs
    rcases hc : search v st with _ | ⟨_ | _, st₁⟩ <;> simp only [anyCycle, hc] at h
    · cases h
    · refine ih (fun w hw => ?_) h
      rw [PathTo, hpath v st st₁ hc]
      exact hvs w hw
    · exact hsearch v st st₁ hv hc

omit [DecidableEq ν] in
theorem recStack_of_anyCycle {search : ν → Search ν → Option (Bool × Search ν)}
    (hpath : ∀ v st st', search v st = some (false, st') → st'.recStack = st.recStack) :
    ∀ (vs : List ν) {st st' : Search ν}, anyCycle search vs st = some (false, st') →
      st'.recStack = st.recStack := by
  intro vs
  induction vs with
  | nil => simp +contextual [anyCycle]
  | cons v vs ih =>
    intro st st' h
    rcases hc : search v st with _ | ⟨_ | _, st₁⟩ <;> simp only [anyCycle, hc] at h
    · cases h
    · exact (ih h).trans (hpath v st st₁ hc)
    · cases h

/-- A search that finds nothing takes off the path what it put there. -/
theorem hasCycle_recStack : ∀ (fuel : Nat) (v : ν) (st st' : Search ν),
    hasCycle succ fuel v st = some (false, st') → st'.recStack = st.recStack := by
  intro fuel
  induction fuel with
  | zero => simp [hasCycle]
  | succ fuel ih =>
    intro v st st' h
    rw [hasCycle] at h
    split at h
    · cases h
    next hs =>
    split at h
    · cases h
      rfl
    split at h
    · cases h
    · cases h
    next hc =>
      cases h
      simp [recStack_of_anyCycle ih _ hc, hs]

/-- **A cycle is reported only where there is one.** -/
theorem exists_leads_of_hasCycle : ∀ (fuel : Nat) (v : ν) (st st' : Search ν),
    st.PathTo succ v → hasCycle succ fuel v st = some (true, st') → ∃ w, Leads succ w w := by
  intro fuel
  induction fuel with
  | zero => simp [hasCycle]
  | succ fuel ih =>
    intro v st st' hv h
    rw [hasCycle] at h
    split at h
    next hs => exact ⟨v, hv v hs⟩
    split at h
    · cases h
    split at h
    · cases h
    next hc => exact exists_leads_of_anyCycle ih (hasCycle_recStack fuel) _ (fun w => hv.push) hc
    · cases h

theorem exists_leads_of_firstCycle {vs : List ν} (hs : st.recStack = ∅)
    (h : firstCycle succ fuel vs st = some (some v)) : ∃ w, Leads succ w w := by
  induction vs generalizing st with
  | nil => cases h
  | cons w vs ih =>
    rw [firstCycle] at h
    split at h
    · exact ih hs h
    split at h
    · cases h
    next hc => exact exists_leads_of_hasCycle fuel w st _ (by simp [PathTo, hs]) hc
    next hc => exact ih ((hasCycle_recStack fuel w st _ hc).trans hs) h

end Cycles

/-! ## The search ends -/

section Ends

variable {nodes : Finset ν}

/-- There is more fuel than there are nodes left to put on the path. -/
structure Search.Fuelled (nodes : Finset ν) (fuel : Nat) (st : Search ν) : Prop where
  onPath : st.recStack ⊆ nodes
  enough : nodes.card < fuel + st.recStack.card

omit [DecidableEq ν] in
theorem anyCycle_isSome {search : ν → Search ν → Option (Bool × Search ν)}
    (hsearch : ∀ v ∈ nodes, ∀ st, Fuelled nodes fuel st → (search v st).isSome)
    (hpath : ∀ v st st', search v st = some (false, st') → st'.recStack = st.recStack) :
    ∀ (vs : List ν), (∀ v ∈ vs, v ∈ nodes) → ∀ st, Fuelled nodes fuel st →
      (anyCycle search vs st).isSome := by
  intro vs
  induction vs with
  | nil => exact fun _ _ _ => rfl
  | cons v vs ih =>
    intro hvs st hst
    obtain ⟨hv, hvs⟩ := List.forall_mem_cons.mp hvs
    obtain ⟨⟨found, st₁⟩, hc⟩ := Option.isSome_iff_exists.mp (hsearch v hv st hst)
    rcases found with _ | _ <;> simp only [anyCycle, hc]
    · have hs := hpath v st st₁ hc
      exact ih hvs st₁ ⟨hs ▸ hst.onPath, hs ▸ hst.enough⟩
    · rfl

/-- The search from a node ends. -/
theorem hasCycle_isSome (hclosed : ∀ v ∈ nodes, ∀ w ∈ succ v, w ∈ nodes) :
    ∀ (fuel : Nat), ∀ v ∈ nodes, ∀ st, Fuelled nodes fuel st →
      (hasCycle succ fuel v st).isSome := by
  intro fuel
  induction fuel with
  | zero =>
    intro v _ st hst
    have hle := Finset.card_le_card hst.onPath
    have hlt := hst.enough
    omega
  | succ fuel ih =>
    intro v hv st hst
    rw [hasCycle]
    by_cases hs : v ∈ st.recStack
    · rw [if_pos hs]
      rfl
    by_cases hvis : v ∈ st.visited
    · rw [if_neg hs, if_pos hvis]
      rfl
    rw [if_neg hs, if_neg hvis]
    have hpush : Fuelled nodes fuel ⟨insert v st.visited, insert v st.recStack⟩ := by
      constructor
      · exact Finset.insert_subset hv hst.onPath
      · have hlt := hst.enough
        simp only [Finset.card_insert_of_notMem hs]
        omega
    obtain ⟨⟨found, st₁⟩, hc⟩ := Option.isSome_iff_exists.mp <|
      anyCycle_isSome ih (hasCycle_recStack fuel) (succ v) (hclosed v hv) _ hpush
    rcases found with _ | _ <;> simp [hc]

/-- **With more fuel than nodes the search always answers.** -/
theorem firstCycle_isSome (hclosed : ∀ v ∈ nodes, ∀ w ∈ succ v, w ∈ nodes)
    (hfuel : nodes.card < fuel) : ∀ (vs : List ν), (∀ v ∈ vs, v ∈ nodes) → ∀ st : Search ν,
      st.recStack = ∅ → (firstCycle succ fuel vs st).isSome := by
  intro vs
  induction vs with
  | nil => exact fun _ _ _ => rfl
  | cons v vs ih =>
    intro hvs st hs
    obtain ⟨hv, hvs⟩ := List.forall_mem_cons.mp hvs
    rw [firstCycle]
    by_cases hvis : v ∈ st.visited
    · rw [if_pos hvis]
      exact ih hvs st hs
    rw [if_neg hvis]
    have hst : Fuelled nodes fuel st := ⟨by simp [hs], by simpa [hs] using hfuel⟩
    obtain ⟨⟨found, st₁⟩, hc⟩ :=
      Option.isSome_iff_exists.mp (hasCycle_isSome hclosed fuel v hv st hst)
    rcases found with _ | _ <;> simp only [hc]
    · exact ih hvs st₁ ((hasCycle_recStack fuel v st st₁ hc).trans hs)
    · rfl

end Ends

end Smg
