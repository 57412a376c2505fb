import Smg.KvIndex.TokenTreeRefines

/-!
# The budget of an eviction

`evict_tenant` and `evict_tenant_by_size` evict leaves until a budget is met.  Neither removes
anything once it is met (`Evicts`).  But they do not always meet it: a node that loses a tenant
leads to its parent only if it became empty, so where another tenant still owns the evicted leaf the
parent never enters the heap (`budget_missed_at_shared_leaf`).

`Unshared` is the condition under which this cannot happen: a node below the first level that a
tenant owns is owned by nobody else.  Then the heap has all leaves of the tenant at all times
(`Covers`), and `eviction_meets_budget`: **the budget is met**.
-/

set_option autoImplicit false

namespace Smg.KvIndex

open Forest TokenNode
open List hiding nil

namespace TokenTree

variable {c : Config} {S : Set (List TokenId)} {s s' : TokenTree} {t : TenantId}

/-! ## Nothing is removed once the budget is met -/

/-- One tenant is taken off one node, and the tokens off its count. -/
def evictLeaf (s : TokenTree) (path : TokenPath) (t : TenantId) : TokenTree :=
  let r := s.removeTenantAndCleanup path t
  { r.1 with counts := r.1.counts.sub t r.2.1 }

/-- One leaf after another is evicted, each while the budget is exceeded. -/
inductive Evicts (excess : TokenTree → Prop) : TokenTree → TokenTree → Prop
  | done (s : TokenTree) : Evicts excess s s
  | leaf {s s' : TokenTree} (path : TokenPath) (t : TenantId) (h : excess s)
      (rest : Evicts excess (s.evictLeaf path t) s') : Evicts excess s s'

/-- A cleanup does not look at the counts. -/
theorem cleanupEmptyAncestors_counts (b : Tally TenantId) (s : TokenTree) (up : TokenPath) :
    cleanupEmptyAncestors t { s with counts := b } up =
      ({ (cleanupEmptyAncestors t s up).1 with counts := b },
        (cleanupEmptyAncestors t s up).2) := by
  induction up generalizing s with
  | nil =>
    rw [cleanupEmptyAncestors, cleanupEmptyAncestors]
    show (if s.isEmpty [] then _ else _) = _
    split <;> rfl
  | cons k up ih =>
    rw [cleanupEmptyAncestors, cleanupEmptyAncestors]
    show (if s.isEmpty (k :: up).reverse then _ else _) = _
    split
    · have h := ih { s with children := s.children.detachAt (k :: up).reverse }
      dsimp only
      rw [h]
      rfl
    · rfl

theorem removeTenantAndCleanup_counts (b : Tally TenantId) (s : TokenTree) (path : TokenPath)
    (t : TenantId) :
    ({ s with counts := b } : TokenTree).removeTenantAndCleanup path t =
      ({ (s.removeTenantAndCleanup path t).1 with counts := b },
        (s.removeTenantAndCleanup path t).2) := by
  rw [removeTenantAndCleanup, removeTenantAndCleanup]
  show (if (s.nodeAt path).any (holds t) then _ else _) = _
  split
  · have hmod : ({ s with counts := b } : TokenTree).modifyNode path (drop t) =
        { s.modifyNode path (drop t) with counts := b } := by
      rw [modifyNode, modifyNode]
      split <;> rfl
    rw [hmod, cleanupEmptyAncestors_counts]
    rfl
  · rfl

theorem evicts_evictLoop {maxTokens current : Nat} (fuel : Nat) (heap : List HeapEntry)
    (evicted : Nat) (hcurrent : s.counts.get t = current) :
    Evicts (fun s => maxTokens < s.counts.get t) { s with counts := s.counts.sub t evicted }
      { (evictLoop c t (current - maxTokens) fuel s heap evicted).1 with
        counts := (evictLoop c t (current - maxTokens) fuel s heap evicted).1.counts.sub t
          (evictLoop c t (current - maxTokens) fuel s heap evicted).2 } := by
  induction fuel generalizing s heap evicted with
  | zero => exact .done _
  | succ fuel ih =>
    rw [evictLoop]
    split
    · split
      · exact .done _
      · rename_i entry rest _
        have hcounts : (s.removeTenantAndCleanup entry.path t).1.counts = s.counts :=
          congrArg (fun r => r.1.counts) (removeTenantAndCleanup_counts s.counts s entry.path t)
        have hstep :
            ({ s with counts := s.counts.sub t evicted } : TokenTree).evictLeaf entry.path t =
              { (s.removeTenantAndCleanup entry.path t).1 with
              counts := (s.removeTenantAndCleanup entry.path t).1.counts.sub t
                (evicted + (s.removeTenantAndCleanup entry.path t).2.1) } := by
          rw [evictLeaf, removeTenantAndCleanup_counts, hcounts]
          rw [Tally.sub_sub]
        refine .leaf entry.path t ?_ ?_
        · rw [Tally.get_sub, if_pos rfl]
          omega
        · rw [hstep]
          dsimp only
          split
          · exact ih _ _ (hcounts ▸ hcurrent)
          · rename_i hzero
            rw [Nat.eq_zero_of_not_pos hzero]
            exact ih _ _ (hcounts ▸ hcurrent)
    · exact .done _

theorem evicts_evictTenant (c : Config) (s : TokenTree) (t : TenantId) (maxTokens : Nat) :
    Evicts (fun s => maxTokens < s.counts.get t) s (s.evictTenant c t maxTokens) := by
  rw [evictTenant]
  split
  · exact .done s
  · have h := @evicts_evictLoop c s t maxTokens _
      (((c.leaves.fn (collectTenantLeaves t s.children)).map (HeapEntry.ofLeaf c.policy)).length +
        s.attachments)
      ((c.leaves.fn (collectTenantLeaves t s.children)).map (HeapEntry.ofLeaf c.policy)) 0 rfl
    exact h

theorem evicts_evictBySizeLoop (maxSize fuel : Nat) (s : TokenTree) (heap : List HeapEntry) :
    Evicts (fun s => maxSize < s.counts.total) s (evictBySizeLoop c maxSize fuel s heap) := by
  induction fuel generalizing s heap with
  | zero => exact .done s
  | succ fuel ih =>
    rw [evictBySizeLoop]
    split
    · rename_i hover
      split
      · exact .done s
      · rename_i entry rest _
        split
        · refine .leaf entry.path entry.tenant hover ?_
          dsimp only
          split
          · exact ih _ _
          · rename_i hzero
            have hstep : s.evictLeaf entry.path entry.tenant =
                (s.removeTenantAndCleanup entry.path entry.tenant).1 := by
              rw [evictLeaf, Nat.eq_zero_of_not_pos hzero]
              rfl
            rw [hstep]
            exact ih _ _
        · exact ih s rest
    · exact .done s

theorem evicts_evictTenantBySize (c : Config) (s : TokenTree) (maxSize : Nat) :
    Evicts (fun s => maxSize < s.counts.total) s (s.evictTenantBySize c maxSize) := by
  rw [evictTenantBySize]
  split
  · exact .done s
  · exact evicts_evictBySizeLoop _ _ s _

/-! ## Where no leaf is shared, the heap has them all -/

/-- Below the first level the tenant shares no node. -/
def Unshared (F : TokenForest) (t : TenantId) : Prop :=
  ∀ ρ, 2 ≤ ρ.length → Owns TokenNode.holds F t ρ → ∀ t', Owns TokenNode.holds F t' ρ → t' = t

/-- The heap has every leaf of the tenants with the property. -/
def Covers (P : TenantId → Prop) (F : TokenForest) (heap : List HeapEntry) : Prop :=
  ∀ t, P t → ∀ ρ, Leaf TokenNode.holds F t ρ → ∃ entry ∈ heap, entry.path = ρ ∧ entry.tenant = t

variable {path : TokenPath}

theorem Removed.unshared {t t' : TenantId} {r : TokenTree × Nat × Option (TokenPath × TenantLeaf)}
    (h : Removed c S s t path r) (hu : Unshared s.children t') : Unshared r.1.children t' :=
  fun ρ hρ ho t'' ho' => hu ρ hρ ((h.owns t' ρ).mp ho).1 t'' ((h.owns t'' ρ).mp ho').1

/-- A leaf that nobody else owns has nothing below it. -/
theorem Shape.under_leaf (hs : Shape c S s.children)
    (hleaf : Leaf holds s.children t path)
    (hsole : ∀ t', Owns holds s.children t' path → t' = t) :
    s.children.under path = nil := by
  refine under_eq_nil_iff.mpr fun x => ?_
  by_contra hx
  obtain ⟨⟨e, d⟩, hget⟩ := Option.ne_none_iff_exists'.mp hx
  obtain ⟨t', ht'⟩ := (all_iff hs.wf.distinct).mp hs.held _ e d hget
  have hchild : Owns holds s.children t' (path ++ [x]) := ⟨e, d, hget, ht'⟩
  have := hsole t' (descends_iff_owns.mp (hs.down t') path x hleaf.1.ne_nil hchild)
  exact hleaf.2 x (this ▸ hchild)

theorem exists_tenantLeaf? (hd : s.children.Distinct) {path : TokenPath}
    (hleaf : Leaf holds s.children t path) :
    ∃ leaf, s.tenantLeaf? path t = some (path, leaf) ∧ leaf.tenant = t := by
  obtain ⟨e, d, hget, hholds⟩ := hleaf.1
  have hne := hleaf.1.ne_nil
  obtain ⟨ts, hts⟩ := Option.isSome_iff_exists.mp
    (AList.lookup_isSome.mpr (holds_eq_true.mp hholds))
  refine ⟨⟨t, d, ts⟩, ?_, rfl⟩
  rw [tenantLeaf?, if_pos ((isTenantLeaf_iff hd hne).mpr hleaf), nodeAt_of_ne_nil hne, hget]
  show (d.tenants.lookup t).map _ = _
  rw [hts]
  rfl

variable {ρ : TokenPath}

/-- **The parent enters the heap**: a leaf that nobody shares is detached, and the cleanup tells the
parent that it leaves a leaf of the tenant. -/
theorem told_parent (hs : Shape c S s.children) {k : TokenPageKey} (hρ : ρ ≠ [])
    (hleaf : Leaf holds s.children t (ρ ++ [k]))
    (hsole : ∀ t', Owns holds s.children t' (ρ ++ [k]) → t' = t)
    (honly : ∀ y, Owns holds s.children t (ρ ++ [y]) → y = k) :
    ∃ leaf, (s.removeTenantAndCleanup (ρ ++ [k]) t).2.2 = some (ρ, leaf) ∧ leaf.tenant = t := by
  obtain ⟨e, d, hget, hholds⟩ := hleaf.1
  have hpath : ρ ++ [k] ≠ [] := by simp
  have howns : ∀ t' σ, Owns holds (s.children.modifyAt (drop t) (ρ ++ [k])) t' σ ↔
      Owns holds s.children t' σ ∧ ¬(σ = ρ ++ [k] ∧ t' = t) := fun t' σ =>
    owns_modifyAt fun t' d => d.holds_drop t t'
  have hbare : Bare holds (d.drop t) := by
    intro t'
    rw [holds_drop]
    rcases hd : d.holds t' with _ | _
    · rfl
    · rw [hsole t' ⟨e, d, hget, hd⟩, decide_eq_false (fun h => h rfl)]
      rfl
  have hnode : (s.children.modifyAt (drop t) (ρ ++ [k])).get? (ρ ++ [k]) =
      some (e, d.drop t) := by
    rw [get?_modifyAt, if_pos rfl, hget]
    rfl
  have hunder : (s.children.modifyAt (drop t) (ρ ++ [k])).under (ρ ++ [k]) = nil := by
    have hnil := under_eq_nil_iff.mp (hs.under_leaf hleaf hsole)
    refine under_eq_nil_iff.mpr fun x => ?_
    rw [get?_modifyAt, if_neg (by simp)]
    exact hnil x
  have hwf := hs.wf.modifyAt (drop t) (ρ ++ [k])
  have hprune : Prunes holds _ _ := .step hnode hbare hunder (.refl _)
  have hparent : Leaf holds
      ((s.children.modifyAt (drop t) (ρ ++ [k])).detachAt (ρ ++ [k])) t ρ := by
    refine ⟨?_, fun y hy => ?_⟩
    · rw [hprune.owns_iff hwf, howns]
      exact ⟨descends_iff_owns.mp (hs.down t) ρ k hρ hleaf.1, fun h => by simp at h⟩
    · rw [hprune.owns_iff hwf, howns] at hy
      exact hy.2 ⟨by rw [honly y hy.1], rfl⟩
  obtain ⟨leaf, hlook, ht⟩ := @exists_tenantLeaf? { s with
    children := (s.children.modifyAt (drop t) (ρ ++ [k])).detachAt (ρ ++ [k]) } t
    (hwf.detachAt _).distinct ρ hparent
  refine ⟨leaf, ?_, ht⟩
  have hempty : ({ s with children := s.children.modifyAt (drop t) (ρ ++ [k]) } :
      TokenTree).isEmpty (ρ ++ [k]) = true :=
    (isEmpty_iff hpath).mpr ⟨⟨e, _, hnode, hbare⟩, hunder⟩
  rw [removeTenantAndCleanup, if_pos, modifyNode, if_neg hpath, reverse_append]
  · show (cleanupEmptyAncestors t _ (k :: ρ.reverse)).2 = _
    rw [cleanupEmptyAncestors, reverse_cons, reverse_reverse, if_pos hempty]
    show Option.or _ _ = _
    rw [hlook]
    rfl
  · rw [nodeAt_of_ne_nil hpath, hget]
    exact hholds

theorem Removed.leaf_of_zero {t t' : TenantId}
    {r : TokenTree × Nat × Option (TokenPath × TenantLeaf)} (h : Removed c S s t path r)
    (hzero : ¬0 < r.2.1) (hleaf : Leaf holds r.1.children t' ρ) :
    Leaf holds s.children t' ρ ∧ ¬(ρ = path ∧ t' = t) := by
  have hno : ¬Owns holds s.children t path := fun ho => hzero (h.pos.mpr ho)
  refine ⟨⟨((h.owns t' ρ).mp hleaf.1).1, fun x hx => hleaf.2 x ((h.owns t' _).mpr ⟨hx, ?_⟩)⟩,
    ((h.owns t' ρ).mp hleaf.1).2⟩
  rintro ⟨hpath, rfl⟩
  exact hno (hpath ▸ hx)

variable {P : TenantId → Prop}

theorem Covers.remove (hs : Shape c S s.children) (hu : Unshared s.children t)
    {rest : List HeapEntry} (hbelow : ∀ y, ¬Owns holds s.children t (path ++ [y]))
    (hcover : ∀ t', P t' → ∀ ρ, Leaf holds s.children t' ρ → ¬(ρ = path ∧ t' = t) →
      ∃ entry ∈ rest, entry.path = ρ ∧ entry.tenant = t') :
    Covers P (s.removeTenantAndCleanup path t).1.children
      (rest ++ (s.removeTenantAndCleanup path t).2.2.toList.map (HeapEntry.ofLeaf c.policy)) := by
  have h := removeTenantAndCleanup_spec c hs.wf hs.borne path t
  intro t' hP ρ hleaf
  obtain ⟨howns, hne⟩ := (h.owns t' ρ).mp hleaf.1
  by_cases hold : Leaf holds s.children t' ρ
  · obtain ⟨entry, hmem, heq⟩ := hcover t' hP ρ hold hne
    exact ⟨entry, mem_append_left _ hmem, heq⟩
  -- a new leaf lost its last owned child, which is the node of the removal
  · obtain ⟨x, hx⟩ : ∃ x, Owns holds s.children t' (ρ ++ [x]) := by
      by_contra hno
      exact hold ⟨howns, fun x hx => hno ⟨x, hx⟩⟩
    obtain ⟨rfl, rfl⟩ : ρ ++ [x] = path ∧ t' = t := by
      by_contra hno
      exact hleaf.2 x ((h.owns t' _).mpr ⟨hx, hno⟩)
    have hρ := howns.ne_nil
    obtain ⟨leaf, htold, ht⟩ := told_parent hs hρ ⟨hx, hbelow⟩
      (hu _ (by have := length_pos_iff.mpr hρ; simp; omega) hx) fun y hy => by
        by_contra hyx
        refine hleaf.2 y ((h.owns t' _).mpr ⟨hy, fun heq => hyx ?_⟩)
        exact singleton_injective (append_cancel_left heq.1)
    refine ⟨HeapEntry.ofLeaf c.policy (ρ, leaf), mem_append_right _ ?_, rfl, ht⟩
    rw [htold]
    exact mem_singleton_self _

/-! ## The budget is met -/

theorem Covers.none_owned {F : TokenForest} (hd : F.Distinct) (h : Covers P F []) (hP : P t)
    (ρ : TokenPath) : ¬Owns holds F t ρ := by
  intro ho
  obtain ⟨σ, hσ⟩ := ho.exists_leaf hd
  obtain ⟨entry, hmem, -⟩ := h t hP σ hσ
  cases hmem

theorem Covers.pop {o : Shuffle HeapEntry} {F : TokenForest} {heap rest : List HeapEntry}
    {entry : HeapEntry} (h : Covers P F heap)
    (hpop : pop o HeapEntry.le heap = some (entry, rest)) (hP : P t) (hleaf : Leaf holds F t ρ)
    (hne : ¬(ρ = entry.path ∧ t = entry.tenant)) : ∃ x ∈ rest, x.path = ρ ∧ x.tenant = t := by
  obtain ⟨x, hx, hpath, htenant⟩ := h t hP ρ hleaf
  rcases mem_cons.mp ((perm_of_pop hpop).mem_iff.mp hx) with rfl | hx
  · exact absurd ⟨hpath.symm, htenant.symm⟩ hne
  · exact ⟨x, hx, hpath, htenant⟩

theorem length_pushed_le {o : Shuffle HeapEntry} {heap rest : List HeapEntry} {entry : HeapEntry}
    (hpop : pop o HeapEntry.le heap = some (entry, rest)) (new : Option (TokenPath × TenantLeaf)) :
    (rest ++ new.toList.map (HeapEntry.ofLeaf c.policy)).length ≤ heap.length := by
  have := (perm_of_pop hpop).length_eq
  rcases new with _ | x <;> simp at * <;> omega

theorem evictLoop_budget (toEvict fuel : Nat) (hs : Shape c S s.children)
    (hu : Unshared s.children t) {heap : List HeapEntry} (hheap : AtLeaves s.children t heap)
    (hcover : Covers (· = t) s.children heap) (hfuel : heap.length + s.attachments ≤ fuel)
    (evicted : Nat) :
    toEvict ≤ (evictLoop c t toEvict fuel s heap evicted).2 ∨
      ∀ ρ, ¬Owns holds (evictLoop c t toEvict fuel s heap evicted).1.children t ρ := by
  induction fuel generalizing s heap evicted with
  | zero =>
    obtain rfl := length_eq_zero_iff.mp (Nat.le_zero.mp (Nat.le_of_add_right_le hfuel))
    exact .inr (hcover.none_owned hs.wf.distinct rfl)
  | succ fuel ih =>
    rw [evictLoop]
    split
    · split
      · rename_i hpop
        obtain rfl := pop_eq_none hpop
        exact .inr (hcover.none_owned hs.wf.distinct rfl)
      · rename_i entry rest hpop
        have hperm := perm_of_pop hpop
        have hlen := hperm.length_eq
        have h := removeTenantAndCleanup_spec c hs.wf hs.borne entry.path t
        have hentry := hheap entry (hperm.mem_iff.mpr mem_cons_self)
        have hs' := hs.remove h hentry
        have hrest : AtLeaves s.children t rest :=
          fun x hx => hheap x (hperm.mem_iff.mpr (mem_cons_of_mem _ hx))
        have hcover' : ∀ t', t' = t → ∀ ρ, Leaf holds s.children t' ρ →
            ¬(ρ = entry.path ∧ t' = t) → ∃ x ∈ rest, x.path = ρ ∧ x.tenant = t' :=
          fun t' ht ρ hleaf hne => hcover.pop hpop ht hleaf fun h => hne ⟨h.1, ht⟩
        have hlighter := h.lighter
        simp only
        split
        · rename_i hpos
          rw [if_pos hpos] at hlighter
          have := @length_pushed_le c _ heap rest entry hpop
            (s.removeTenantAndCleanup entry.path t).2.2
          exact ih hs' (h.unshared hu) (h.atLeaves hrest) (.remove hs hu hentry hcover')
            (by omega) _
        · rename_i hzero
          refine ih hs' (h.unshared hu) (fun x hx y hy => hrest x hx y ((h.owns t _).mp hy).1)
            (fun t' ht ρ hleaf => ?_) (by simp at hlen; omega) _
          obtain ⟨hleaf, hne⟩ := h.leaf_of_zero hzero hleaf
          exact hcover' t' ht ρ hleaf hne
    · rename_i hdone
      exact .inl (Nat.le_of_not_lt hdone)

theorem Inv.total_eq_zero (h : Inv c S s) (hnone : ∀ t ρ, ¬Owns holds s.children t ρ) :
    s.counts.total = 0 := by
  rw [h.balanced]
  refine Tally.sum_eq_zero fun t => ?_
  rw [h.counts, size_eq_zero h.shape.wf (hnone t)]

theorem evictBySizeLoop_budget (maxSize fuel : Nat) (h : Inv c S s)
    (hu : ∀ t, Unshared s.children t) {heap : List HeapEntry}
    (hcover : Covers (fun _ => True) s.children heap)
    (hfuel : heap.length + s.attachments ≤ fuel) :
    (evictBySizeLoop c maxSize fuel s heap).counts.total ≤ maxSize := by
  induction fuel generalizing s heap with
  | zero =>
    obtain rfl := length_eq_zero_iff.mp (Nat.le_zero.mp (Nat.le_of_add_right_le hfuel))
    rw [evictBySizeLoop, h.total_eq_zero fun t => hcover.none_owned h.shape.wf.distinct trivial]
    exact Nat.zero_le _
  | succ fuel ih =>
    rw [evictBySizeLoop]
    split
    · split
      · rename_i hpop
        obtain rfl := pop_eq_none hpop
        rw [h.total_eq_zero fun t => hcover.none_owned h.shape.wf.distinct trivial]
        exact Nat.zero_le _
      · rename_i entry rest hpop
        have hlen := (perm_of_pop hpop).length_eq
        have hr := removeTenantAndCleanup_spec c h.shape.wf h.shape.borne entry.path entry.tenant
        split
        · rename_i hleaf
          rw [isTenantLeaf, Bool.and_eq_true, Bool.not_eq_true', ← Bool.not_eq_true,
            anyTop_under_iff_owns h.shape.wf.distinct, not_exists] at hleaf
          have hinv := h.removeLeaf hr hleaf.2
          have hlighter := hr.lighter
          simp only
          split
          · rename_i hpos
            rw [if_pos hpos] at hlighter
            have := @length_pushed_le c _ heap rest entry hpop
              (s.removeTenantAndCleanup entry.path entry.tenant).2.2
            refine ih hinv (fun t => hr.unshared (hu t)) ?_ ?_
            · exact .remove h.shape (hu _) hleaf.2
                fun t' _ ρ hl hne => hcover.pop hpop trivial hl hne
            · show _ + (s.removeTenantAndCleanup entry.path entry.tenant).1.attachments ≤ fuel
              omega
          · rename_i hzero
            have hsame : Inv c S (s.removeTenantAndCleanup entry.path entry.tenant).1 := by
              rwa [Nat.eq_zero_of_not_pos hzero, Tally.sub] at hinv
            refine ih hsame (fun t => hr.unshared (hu t)) (fun t' _ ρ hl => ?_)
              (by simp at hlen; omega)
            obtain ⟨hl, hne⟩ := hr.leaf_of_zero hzero hl
            exact hcover.pop hpop trivial hl hne
        -- an entry that is no leaf is none of those the heap has to have
        · rename_i hleaf
          refine ih h hu (fun t' _ ρ hl => hcover.pop hpop trivial hl ?_) (by simp at hlen; omega)
          rintro ⟨rfl, rfl⟩
          exact hleaf ((isTenantLeaf_iff h.shape.wf.distinct hl.1.ne_nil).mpr hl)
    · rename_i hdone
      exact Nat.le_of_not_lt hdone

theorem covers_gather {P : TenantId → Prop} (hd : s.children.Distinct)
    (o : Shuffle (TokenPath × TenantLeaf)) (policy : EvictionPolicy)
    {g : List TokenId → TokenNode → TokenForest → List TenantLeaf}
    (hg : ∀ {e d cs t ts}, P t → cs.anyTop (TokenNode.holds t) = false →
      d.tenants.lookup t = some ts → ⟨t, d, ts⟩ ∈ g e d cs) :
    Covers P s.children ((o.fn (s.children.gather g)).map (HeapEntry.ofLeaf policy)) := by
  rintro t ht ρ ⟨⟨e, d, hget, hholds⟩, hnone⟩
  obtain ⟨ts, hts⟩ := Option.isSome_iff_exists.mp
    (AList.lookup_isSome.mpr (holds_eq_true.mp hholds))
  refine ⟨HeapEntry.ofLeaf policy (ρ, ⟨t, d, ts⟩), mem_map_of_mem (o.mem.mpr ?_), rfl, rfl⟩
  refine (mem_gather hd).mpr ⟨e, d, hget, hg ht ?_ hts⟩
  exact eq_false_of_ne_true (mt (anyTop_under_iff_owns hd).mp (not_exists.mpr hnone))

theorem Inv.evictTenant_budget (h : Inv c S s) (hu : Unshared s.children t) (maxTokens : Nat) :
    (s.evictTenant c t maxTokens).counts.get t ≤ maxTokens := by
  rw [TokenTree.evictTenant]
  split
  · rename_i hle
    exact hle
  · have hheap := @atLeaves_collectTenantLeaves s t h.shape.wf.distinct c.leaves c.policy
    obtain ⟨hs, hcounts, hsize⟩ := evictLoop_spec c (s.counts.get t - maxTokens)
      (((c.leaves.fn (collectTenantLeaves t s.children)).map (HeapEntry.ofLeaf c.policy)).length +
        s.attachments) h.shape hheap 0
    rw [Tally.get_sub, if_pos rfl, hcounts]
    rcases evictLoop_budget (s.counts.get t - maxTokens) _ h.shape hu hheap
      (covers_gather h.shape.wf.distinct c.leaves c.policy fun ht hcs hts => by
        rw [ht] at hcs hts ⊢
        simp [hcs, hts]) le_rfl 0 with hmet | hnone
    · omega
    · have := hsize t
      rw [if_pos rfl, size_eq_zero hs.wf hnone, ← h.counts] at this
      omega

theorem Inv.evictTenantBySize_budget (h : Inv c S s) (hu : ∀ t, Unshared s.children t)
    (maxSize : Nat) : (s.evictTenantBySize c maxSize).counts.total ≤ maxSize := by
  rw [TokenTree.evictTenantBySize]
  split
  · rename_i hle
    exact hle
  · exact evictBySizeLoop_budget maxSize _ h hu
      (covers_gather h.shape.wf.distinct c.leaves c.policy fun {_ _ _ t ts} _ hcs hts =>
        mem_filterMap.mpr ⟨⟨t, ts⟩, AList.mem_lookup_iff.mp hts, by simp [hcs]⟩) le_rfl

/-- **The budget of an eviction**: in every tree reached, for every policy, an eviction removes
nothing once its budget is met, and it meets the budget where no leaf below the first level is
shared. -/
theorem eviction_meets_budget (hinj : Set.InjOn mixTokens S)
    (h : Reaches (exec c) (fun _ call => call.Fits c S) withConfig s) :
    (∀ t m, Evicts (fun s => m < s.counts.get t) s (s.evictTenant c t m) ∧
      (Unshared s.children t → (s.evictTenant c t m).counts.get t ≤ m)) ∧
    (∀ m, Evicts (fun s => m < s.counts.total) s (s.evictTenantBySize c m) ∧
      ((∀ t, Unshared s.children t) → (s.evictTenantBySize c m).counts.total ≤ m)) := by
  have hinv := inv_of_reaches hinj h
  exact ⟨fun t m => ⟨evicts_evictTenant c s t m, fun hu => hinv.evictTenant_budget hu m⟩,
    fun m => ⟨evicts_evictTenantBySize c s m, fun hu => hinv.evictTenantBySize_budget hu m⟩⟩

theorem unshared_of_gather (hd : s.children.Distinct)
    (h : ∀ x ∈ s.children.gather fun _ d _ => [d.tenants.keys], 2 ≤ x.1.length → x.2.length ≤ 1) :
    Unshared s.children t := by
  rintro ρ hρ ⟨e, d, hget, ht⟩ t' ⟨e', d', hget', ht'⟩
  rw [hget] at hget'
  cases hget'
  have hlen : d.tenants.keys.length ≤ 1 :=
    h (ρ, d.tenants.keys) ((mem_gather hd).mpr ⟨e, d, hget, mem_singleton_self _⟩) hρ
  have hmem : t ∈ d.tenants.keys := AList.mem_keys.mp (holds_eq_true.mp ht)
  have hmem' : t' ∈ d.tenants.keys := AList.mem_keys.mp (holds_eq_true.mp ht')
  obtain ⟨x, hx⟩ := length_eq_one_iff.mp
    (le_antisymm hlen (length_pos_of_mem hmem))
  rw [hx, mem_singleton] at hmem hmem'
  rw [hmem, hmem']

/-- Two tenants share the first page of their prompts and nothing more. -/
def forkedPages : List Call :=
  [.insertTokens [1, 2, 3, 4] "a", .insertTokens [1, 2, 5, 6, 7] "b"]

theorem eviction_meets_budget_forked_pages :
    (forkedPages.foldl (exec (pairs .lru)) withConfig).counts.get "a" = 4 ∧
      ((forkedPages.foldl (exec (pairs .lru)) withConfig).evictTenant (pairs .lru) "a" 2).counts.get
        "a" ≤ 2 ∧
      ((forkedPages.foldl (exec (pairs .lru)) withConfig).evictTenantBySize
        (pairs .lru) 5).counts.total ≤ 5 := by
  have hfit : ∀ call ∈ forkedPages, call.Fits (pairs .lru)
      { p | p ∈ [[1, 2], [3, 4], [5, 6]] } := by
    intro call hcall
    simp only [forkedPages, mem_cons, not_mem_nil, or_false] at hcall
    rcases hcall with rfl | rfl
    · exact Keying.within_of_pages (by decide)
    · exact Keying.within_of_pages (by decide)
  have hreach : Reaches (exec (pairs .lru)) _ withConfig _ :=
    reaches_foldl (allOk_of_forall (fun call hcall _ => hfit call hcall) withConfig)
  have hu : ∀ t, Unshared (forkedPages.foldl (exec (pairs .lru)) withConfig).children t :=
    fun t => unshared_of_gather (inv_of_reaches mixTokens_injOn hreach).shape.wf.distinct
      (by decide +kernel)
  have h := eviction_meets_budget mixTokens_injOn hreach
  exact ⟨by decide +kernel, (h.1 "a" 2).2 (hu "a"), (h.2 5).2 hu⟩

/-! ## Where a leaf is shared -/

def singles (policy : EvictionPolicy) : Config :=
  ⟨1, by decide, policy, .still _, .still _, .still _, fun _ => .still _⟩

/-- A tenant has a node to itself above a leaf it shares. -/
def sharedLeaf : List Call :=
  [.insertTokens [1] "a", .insertTokens [1, 2] "a", .insertTokens [1, 2] "b"]

/-- The leaf that loses the tenant stays in the tree with the other one, so its parent does not
enter the heap: the tenant keeps a token it was to lose, and the tree one more than its budget. -/
theorem budget_missed_at_shared_leaf :
    0 < ((sharedLeaf.foldl (exec (singles .lru)) withConfig).evictTenant
        (singles .lru) "a" 0).counts.get "a" ∧
      0 < ((sharedLeaf.foldl (exec (singles .lru)) withConfig).evictTenantBySize (singles .lru)
        0).counts.total := by
  decide +kernel

end TokenTree
end Smg.KvIndex
