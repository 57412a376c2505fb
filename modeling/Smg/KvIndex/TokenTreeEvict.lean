import Smg.KvIndex.TokenTreeWalks
import Smg.Lib.ForestPrune

/-!
# What eviction does to the token tree

Every eviction takes tenants off nodes one at a time (`removeTenantAndCleanup`) and prunes the nodes
this empties.  So there is one lemma for one removal, `removeTenantAndCleanup_spec`: one tenant owns
one node less, everything else is owned as before, and no bare leaf is left.  Along the loops:

* `Shape`: the tree is well formed, owners own upwards, and no leaf is bare.  A removal keeps it if
  the tenant owns no child of the node (`Shape.remove`);
* `evictLoop_spec`, `evictBySizeLoop_spec`: the evictions keep the shape, and the tokens they report
  are those the tenants no longer own;
* `removeAll_spec`: a removed tenant owns nothing, and the others what they owned.
-/

set_option autoImplicit false

namespace Smg.KvIndex

open Forest TokenNode
open TokenNode (holds)

variable {d : TokenNode}

namespace TokenNode

theorem bare_iff : Bare holds d ↔ d.tenants.entries.isEmpty = true := by
  rw [List.isEmpty_iff]
  constructor
  · intro h
    refine List.eq_nil_iff_forall_not_mem.mpr fun x hx => ?_
    have hmem : x.1 ∈ d.tenants := AList.mem_keys.mpr (List.mem_map_of_mem hx)
    have := h x.1
    rw [holds_eq_true.mpr hmem] at this
    cases this
  · intro h t
    refine decide_eq_false fun hmem => ?_
    have : t ∈ d.tenants.entries.map Sigma.fst := AList.mem_keys.mp hmem
    rw [h] at this
    cases this

theorem held_iff : d.Held ↔ ¬Bare holds d := by
  rw [Bare, not_forall]
  exact exists_congr fun t => by rw [Bool.not_eq_false]

theorem length_drop {t : TenantId} (h : d.holds t = true) :
    (d.drop t).tenants.entries.length + 1 = d.tenants.entries.length := by
  have hmem : t ∈ d.tenants.keys := holds_eq_true.mp h
  have := (List.perm_cons_erase hmem).length_eq
  rw [List.length_cons, ← AList.keys_erase] at this
  simp only [AList.keys, List.keys, List.length_map] at this
  exact this.symm

end TokenNode

namespace TokenTree

variable (c : Config) {S : Set (List TokenId)} {s : TokenTree} {t : TenantId}

/-! ## Cleaning up -/

variable {path : TokenPath}

theorem nodeAt_of_ne_nil (h : path ≠ []) :
    s.nodeAt path = (s.children.get? path).map Prod.snd := if_neg h

theorem isEmpty_iff (h : path ≠ []) :
    s.isEmpty path = true ↔
      (∃ e d, s.children.get? path = some (e, d) ∧ Bare holds d) ∧
        s.children.under path = nil := by
  rw [isEmpty, Bool.and_eq_true, nodeAt_of_ne_nil h]
  rcases s.children.get? path with _ | ⟨e, d⟩
  · simp
  · simp [bare_iff]

theorem isTenantLeaf_iff (hd : s.children.Distinct) (h : path ≠ []) :
    s.isTenantLeaf path t = true ↔ Leaf holds s.children t path := by
  rw [isTenantLeaf, Bool.and_eq_true, Bool.not_eq_true', nodeAt_of_ne_nil h]
  refine and_congr ?_ ?_
  · rw [Owns]
    rcases s.children.get? path with _ | ⟨e, d⟩ <;> simp
  · rw [← Bool.not_eq_true, anyTop_under_iff_owns hd, not_exists]

theorem of_tenantLeaf? (hd : s.children.Distinct) {x : TokenPath × TenantLeaf}
    (h : s.tenantLeaf? path t = some x) :
    x.1 = path ∧ x.2.tenant = t ∧ ∀ y, ¬Owns holds s.children t (x.1 ++ [y]) := by
  rw [tenantLeaf?] at h
  split at h
  · rename_i hleaf
    rw [isTenantLeaf, Bool.and_eq_true, Bool.not_eq_true', ← Bool.not_eq_true,
      anyTop_under_iff_owns hd, not_exists] at hleaf
    obtain ⟨d, -, hd⟩ := Option.bind_eq_some_iff.mp h
    obtain ⟨ts, -, rfl⟩ := Option.map_eq_some_iff.mp hd
    exact ⟨rfl, rfl, hleaf.2⟩
  · cases h

/-- What a cleanup leaves of a tree: pruned nodes, and a parent that is a leaf of the tenant. -/
structure Cleaned (s : TokenTree) (t : TenantId) (r : TokenTree × Option (TokenPath × TenantLeaf)) :
    Prop where
  prunes : Prunes holds s.children r.1.children
  borne : Borne holds r.1.children
  same : r.1 = { s with children := r.1.children }
  told : ∀ x, r.2 = some x →
    x.2.tenant = t ∧ ∀ y, ¬Owns holds r.1.children t (x.1 ++ [y])

theorem cleaned_cleanupEmptyAncestors (hwf : s.children.WF c.paging S) (up : TokenPath)
    (hb : BorneExcept holds s.children up.reverse) :
    Cleaned s t (cleanupEmptyAncestors t s up) := by
  induction up generalizing s with
  | nil =>
    have hborne : Borne holds s.children :=
      fun ρ e d hget hbare => hb ρ e d (ne_nil_of_get? hget) hget hbare
    rw [cleanupEmptyAncestors]
    split
    · exact ⟨.refl _, hborne, rfl, fun x h => by cases h⟩
    · exact ⟨.refl _, hborne, rfl, fun x h => (of_tenantLeaf? hwf.distinct h).2⟩
  | cons k up ih =>
    rw [cleanupEmptyAncestors]
    split
    · rename_i hempty
      obtain ⟨⟨e, d, hget, hbare⟩, hleaf⟩ := (isEmpty_iff (by simp)).mp hempty
      rw [List.reverse_cons] at hb hget hleaf
      have hwf' := hwf.detachAt (up.reverse ++ [k])
      have ih := @ih { s with children := s.children.detachAt (up.reverse ++ [k]) } hwf'
        (hb.detachAt hwf.distinct hleaf)
      simp only [List.reverse_cons]
      refine ⟨.step hget hbare hleaf ih.prunes, ih.borne, ih.same, fun x h => ?_⟩
      rcases Option.or_eq_some_iff.mp h with hhere | ⟨-, hlater⟩
      · obtain ⟨-, h1, h2⟩ := of_tenantLeaf? hwf'.distinct hhere
        exact ⟨h1, fun y hy => h2 y ((ih.prunes.owns_iff hwf').mp hy)⟩
      · exact ih.told x hlater
    · rename_i hempty
      refine ⟨.refl _, fun ρ e d hget hbare => ?_, rfl,
        fun x h => (of_tenantLeaf? hwf.distinct h).2⟩
      by_cases hρ : ρ = (k :: up).reverse
      · subst hρ
        exact fun hnil => hempty ((isEmpty_iff (by simp)).mpr ⟨⟨e, d, hget, hbare⟩, hnil⟩)
      · exact hb ρ e d hρ hget hbare

/-! ## One removal -/

/-- What a removal leaves: `t` owns the node at `path` no more, all else is owned as before. -/
structure Removed (S : Set (List TokenId)) (s : TokenTree) (t : TenantId) (path : TokenPath)
    (r : TokenTree × Nat × Option (TokenPath × TenantLeaf)) : Prop where
  wf : r.1.children.WF c.paging S
  borne : Borne holds r.1.children
  owns : ∀ t' ρ, Owns holds r.1.children t' ρ ↔
    Owns holds s.children t' ρ ∧ ¬(ρ = path ∧ t' = t)
  size : ∀ t', r.1.children.size (holds t') + (if t' = t then r.2.1 else 0) =
    s.children.size (holds t')
  counts : r.1.counts = s.counts
  /-- Tokens are removed where the tenant owned a node, and an attachment is gone with them. -/
  pos : 0 < r.2.1 ↔ Owns holds s.children t path
  lighter : r.1.attachments + (if 0 < r.2.1 then 1 else 0) ≤ s.attachments
  told : ∀ x, r.2.2 = some x →
    x.2.tenant = t ∧ ∀ y, ¬Owns holds r.1.children t (x.1 ++ [y])

variable {r : TokenTree × Option (TokenPath × TenantLeaf)}

theorem Cleaned.attachments_eq (h : Cleaned s t r) : r.1.attachments = s.attachments := by
  rw [attachments, attachments, h.prunes.weigh_eq fun _ _ hbare =>
    List.length_eq_zero_iff.mpr (List.isEmpty_iff.mp (bare_iff.mp hbare)), h.same]

theorem Cleaned.size_eq (h : Cleaned s t r) (t' : TenantId) :
    r.1.children.size (holds t') = s.children.size (holds t') := by
  rw [size_eq_weigh, size_eq_weigh, h.prunes.weigh_eq]
  intro e d hbare
  rw [hbare t', if_neg Bool.false_ne_true]

section

variable (hwf : s.children.WF c.paging S)

include hwf

/-- Nothing is removed where the tenant owns nothing. -/
theorem removed_nothing (hb : Borne holds s.children) (h : ¬Owns holds s.children t path) :
    Removed c S s t path (s, 0, none) where
  wf := hwf
  borne := hb
  owns t' ρ := ⟨fun ho => ⟨ho, fun ⟨hρ, ht⟩ => h (hρ ▸ ht ▸ ho)⟩, And.left⟩
  size t' := by simp
  counts := rfl
  pos := by simp [h]
  lighter := by simp
  told _ hx := by cases hx

theorem removed_root (hholds : s.root.holds t = true)
    (hc : Cleaned (s.modifyNode [] (drop t)) t r) : Removed c S s t [] (r.1, 0, r.2) where
  wf := hc.prunes.wf hwf
  borne := hc.borne
  owns t' ρ := by
    rw [hc.prunes.owns_iff hwf]
    exact ⟨fun h => ⟨h, fun h' => h.ne_nil h'.1⟩, And.left⟩
  size t' := by
    rw [hc.size_eq, ite_self]
    rfl
  counts := by
    rw [hc.same]
    rfl
  pos := ⟨fun h => absurd h (lt_irrefl 0), fun h => absurd rfl h.ne_nil⟩
  lighter := by
    have hdrop := length_drop hholds
    rw [hc.attachments_eq]
    show (s.root.drop t).tenants.entries.length + s.children.weigh _ + 0 ≤ _
    rw [attachments]
    omega
  told := hc.told

theorem removed_node {e : List TokenId} (hget : s.children.get? path = some (e, d))
    (hholds : d.holds t = true)
    (hc : Cleaned { s with children := s.children.modifyAt (drop t) path } t r) :
    Removed c S s t path (r.1, e.length, r.2) where
  wf := hc.prunes.wf (hwf.modifyAt _ path)
  borne := hc.borne
  owns t' ρ := by
    rw [hc.prunes.owns_iff (hwf.modifyAt _ path)]
    exact owns_modifyAt fun t' d => d.holds_drop t t'
  size t' := by
    have h := weigh_modifyAt (drop t)
      (w := fun e d => if holds t' d = true then e.length else 0) hget
    rw [hc.size_eq, size_eq_weigh, size_eq_weigh]
    by_cases ht : t' = t
    · subst ht
      simpa [holds_drop, hholds] using h
    · have hsame : (d.drop t).holds t' = d.holds t' := by
        rw [holds_drop, decide_eq_true ht, Bool.and_true]
      rw [hsame] at h
      rw [if_neg ht]
      exact add_right_cancel h
  counts := by
    rw [hc.same]
  pos := by
    have := List.length_pos_iff.mpr (hwf.whole hget).1
    exact ⟨fun _ => ⟨e, d, hget, hholds⟩, fun _ => this⟩
  lighter := by
    have hpos : 0 < e.length := List.length_pos_iff.mpr (hwf.whole hget).1
    have hdrop := length_drop hholds
    have h := weigh_modifyAt (drop t) (w := fun _ d => d.tenants.entries.length) hget
    rw [hc.attachments_eq, if_pos hpos]
    simp only [attachments]
    omega
  told := hc.told

/-- **One removal**: whatever the node, the tenant owns it no more and all else is owned as before.
-/
theorem removeTenantAndCleanup_spec (hb : Borne holds s.children) (path : TokenPath)
    (t : TenantId) : Removed c S s t path (s.removeTenantAndCleanup path t) := by
  rw [removeTenantAndCleanup]
  by_cases hpath : path = []
  · subst hpath
    split
    · rename_i hholds
      have hlen : s.edgeLen [] = 0 := by rw [edgeLen, get?_nil_path]; rfl
      simp only [hlen]
      refine removed_root c hwf (by simpa [nodeAt] using hholds) ?_
      exact @cleaned_cleanupEmptyAncestors c S (s.modifyNode [] (drop t)) t hwf []
        fun ρ e d _ hget hbare => hb ρ e d hget hbare
    · exact removed_nothing c hwf hb fun h => h.ne_nil rfl
  · rw [nodeAt_of_ne_nil hpath, modifyNode, if_neg hpath, edgeLen]
    rcases hget : s.children.get? path with _ | ⟨e, d⟩
    · refine removed_nothing c hwf hb ?_
      rintro ⟨_, _, h, -⟩
      rw [hget] at h
      cases h
    · by_cases hholds : d.holds t = true
      · rw [if_pos (by simpa using hholds)]
        refine removed_node c hwf hget hholds ?_
        refine cleaned_cleanupEmptyAncestors c (hwf.modifyAt _ path) path.reverse ?_
        rw [List.reverse_reverse]
        exact .modifyAt hb path
      · rw [if_neg (by simpa using hholds)]
        refine removed_nothing c hwf hb ?_
        rintro ⟨e', d', h, hd'⟩
        rw [hget] at h
        cases h
        exact hholds hd'

end

/-! ## The loops -/

/-- What every call keeps of the nodes. -/
structure Shape (S : Set (List TokenId)) (F : TokenForest) : Prop where
  wf : F.WF c.paging S
  /-- The owners of a node own the node above it. -/
  down : ∀ t, F.Descends (holds t)
  borne : Borne holds F

variable {c} {r : TokenTree × Nat × Option (TokenPath × TenantLeaf)}

/-- A removal keeps the shape, if the tenant owns no child of the node. -/
theorem Shape.remove (hs : Shape c S s.children) (h : Removed c S s t path r)
    (hleaf : ∀ y, ¬Owns holds s.children t (path ++ [y])) : Shape c S r.1.children where
  wf := h.wf
  borne := h.borne
  down t' := by
    refine descends_iff_owns.mpr fun π x hπ hchild => ?_
    have hbefore := ((h.owns t' _).mp hchild).1
    refine (h.owns t' π).mpr ⟨descends_iff_owns.mp (hs.down t') π x hπ hbefore, ?_⟩
    rintro ⟨rfl, rfl⟩
    exact hleaf x hbefore

/-- The entries of a heap are leaves, as far as the tenant owns them at all. -/
def AtLeaves (F : TokenForest) (t : TenantId) (heap : List HeapEntry) : Prop :=
  ∀ entry ∈ heap, ∀ y, ¬Owns holds F t (entry.path ++ [y])

/-- A removal keeps the heap at leaves, and the parent it tells is one. -/
theorem Removed.atLeaves (h : Removed c S s t path r) {heap : List HeapEntry}
    (hheap : AtLeaves s.children t heap) :
    AtLeaves r.1.children t (heap ++ r.2.2.toList.map (HeapEntry.ofLeaf c.policy)) := by
  intro entry hentry y hy
  rcases List.mem_append.mp hentry with hold | hnew
  · exact hheap entry hold y ((h.owns t _).mp hy).1
  · obtain ⟨x, hx, rfl⟩ := List.mem_map.mp hnew
    exact (h.told x (Option.mem_toList.mp hx)).2 y hy

variable (c) in
/-- The eviction of one tenant: the tokens it reports are those the tenant no longer owns. -/
theorem evictLoop_spec (toEvict fuel : Nat) (hs : Shape c S s.children) {heap : List HeapEntry}
    (hheap : AtLeaves s.children t heap) (evicted : Nat) :
    Shape c S (evictLoop c t toEvict fuel s heap evicted).1.children ∧
      (evictLoop c t toEvict fuel s heap evicted).1.counts = s.counts ∧
      ∀ t', (evictLoop c t toEvict fuel s heap evicted).1.children.size (holds t') +
          (if t' = t then (evictLoop c t toEvict fuel s heap evicted).2 else 0) =
        s.children.size (holds t') + if t' = t then evicted else 0 := by
  induction fuel generalizing s heap evicted with
  | zero => exact ⟨hs, rfl, fun _ => rfl⟩
  | succ fuel ih =>
    rw [evictLoop]
    split
    · split
      · exact ⟨hs, rfl, fun _ => rfl⟩
      · rename_i entry rest hpop
        have hperm := perm_of_pop hpop
        have hrest : AtLeaves s.children t rest :=
          fun x hx => hheap x (hperm.mem_iff.mpr (List.mem_cons_of_mem _ hx))
        have h := removeTenantAndCleanup_spec c hs.wf hs.borne entry.path t
        have hs' := hs.remove h (hheap entry (hperm.mem_iff.mpr List.mem_cons_self))
        simp only
        split
        · obtain ⟨h1, h2, h3⟩ := ih hs' (h.atLeaves hrest) (evicted + _)
          refine ⟨h1, h2.trans h.counts, fun t' => ?_⟩
          have := h3 t'
          have := h.size t'
          split_ifs at * <;> omega
        · obtain ⟨h1, h2, h3⟩ := ih hs' (fun x hx y hy => hrest x hx y ((h.owns t _).mp hy).1)
            evicted
          refine ⟨h1, h2.trans h.counts, fun t' => ?_⟩
          have := h3 t'
          have := h.size t'
          split_ifs at * <;> omega
    · exact ⟨hs, rfl, fun _ => rfl⟩

/-! ## The invariant -/

/-- The invariant of the tree: the shape of its nodes, and counts that are what the tenants own. -/
structure Inv (c : Config) (S : Set (List TokenId)) (s : TokenTree) : Prop where
  shape : Shape c S s.children
  counts : ∀ t, s.counts.get t = s.children.size (holds t)
  balanced : s.counts.Balanced

theorem atLeaves_collectTenantLeaves (hd : s.children.Distinct)
    (o : Shuffle (TokenPath × TenantLeaf)) (policy : EvictionPolicy) :
    AtLeaves s.children t
      ((o.fn (collectTenantLeaves t s.children)).map (HeapEntry.ofLeaf policy)) := by
  intro entry hentry y hy
  obtain ⟨⟨π, leaf⟩, hleaf, rfl⟩ := List.mem_map.mp hentry
  obtain ⟨e, d, -, hmem⟩ := (mem_gather hd).mp (o.mem.mp hleaf)
  have hany : (s.children.under π).anyTop (holds t) = true :=
    (anyTop_under_iff_owns hd).mpr ⟨y, hy⟩
  rw [hany] at hmem
  cases hmem

/-- Tokens that a tenant no longer owns are taken off its count. -/
theorem Inv.sub (h : Inv c S s) {s' : TokenTree} {n : Nat} (h1 : Shape c S s'.children)
    (h2 : s'.counts = s.counts)
    (h3 : ∀ t', s'.children.size (holds t') + (if t' = t then n else 0) =
      s.children.size (holds t')) :
    Inv c S { s' with counts := s'.counts.sub t n } := by
  refine ⟨h1, fun t' => ?_, ?_⟩
  · rw [Tally.get_sub, h2, h.counts, ← h3 t', Nat.add_sub_cancel]
  · rw [h2]
    exact h.balanced.sub _ _

theorem Inv.evictTenant (h : Inv c S s) (t : TenantId) (maxTokens : Nat) :
    Inv c S (s.evictTenant c t maxTokens) := by
  rw [TokenTree.evictTenant]
  split
  · exact h
  · obtain ⟨h1, h2, h3⟩ := evictLoop_spec c (s.counts.get t - maxTokens)
      (((c.leaves.fn (collectTenantLeaves t s.children)).map (HeapEntry.ofLeaf c.policy)).length +
        s.attachments) h.shape
      (atLeaves_collectTenantLeaves h.shape.wf.distinct c.leaves c.policy) 0
    refine h.sub h1 h2 fun t' => ?_
    rw [h3 t', ite_self, add_zero]

theorem Inv.removeLeaf (h : Inv c S s) (hr : Removed c S s t path r)
    (hleaf : ∀ y, ¬Owns holds s.children t (path ++ [y])) :
    Inv c S { r.1 with counts := r.1.counts.sub t r.2.1 } :=
  h.sub (h.shape.remove hr hleaf) hr.counts hr.size

theorem evictBySizeLoop_spec (maxSize fuel : Nat) (h : Inv c S s) (heap : List HeapEntry) :
    Inv c S (evictBySizeLoop c maxSize fuel s heap) := by
  induction fuel generalizing s heap with
  | zero => exact h
  | succ fuel ih =>
    rw [evictBySizeLoop]
    split
    · split
      · exact h
      · rename_i entry rest hpop
        split
        · rename_i hleaf
          have hr := removeTenantAndCleanup_spec c h.shape.wf h.shape.borne entry.path entry.tenant
          rw [isTenantLeaf, Bool.and_eq_true, Bool.not_eq_true', ← Bool.not_eq_true,
            anyTop_under_iff_owns h.shape.wf.distinct, not_exists] at hleaf
          simp only
          split
          · exact ih (h.removeLeaf hr hleaf.2) _
          · rename_i hzero
            refine ih ?_ rest
            have := h.removeLeaf hr hleaf.2
            rwa [Nat.eq_zero_of_not_pos hzero, Tally.sub] at this
        · exact ih h rest
    · exact h

theorem Inv.evictTenantBySize (h : Inv c S s) (maxSize : Nat) :
    Inv c S (s.evictTenantBySize c maxSize) := by
  rw [TokenTree.evictTenantBySize]
  split
  · exact h
  · exact evictBySizeLoop_spec _ _ h _

/-! ## Removing a tenant -/

/-- What a tree is while the nodes of a tenant are taken from it. -/
structure Losing (c : Config) (S : Set (List TokenId)) (s : TokenTree) (t : TenantId)
    (gone : TokenPath → Prop) (s' : TokenTree) : Prop where
  wf : s'.children.WF c.paging S
  borne : Borne holds s'.children
  owns : ∀ t' ρ, Owns holds s'.children t' ρ ↔
    Owns holds s.children t' ρ ∧ ¬(gone ρ ∧ t' = t)
  size : ∀ t', t' ≠ t → s'.children.size (holds t') = s.children.size (holds t')
  counts : s'.counts = s.counts

/-- Removals from a list of nodes, one after another. -/
theorem losing_foldl (nodes : List (TokenPath × Nat)) (hwf : s.children.WF c.paging S)
    (hb : Borne holds s.children) :
    Losing c S s t (fun ρ => ρ ∈ nodes.map Prod.fst)
      (nodes.foldl (fun s node => (s.removeTenantAndCleanup node.1 t).1) s) := by
  induction nodes generalizing s with
  | nil => exact ⟨hwf, hb, by simp, fun _ _ => rfl, rfl⟩
  | cons node nodes ih =>
    have h := removeTenantAndCleanup_spec c hwf hb node.1 t
    have ih := ih h.wf h.borne
    refine ⟨ih.wf, ih.borne, fun t' ρ => ?_, fun t' ht => ?_, ih.counts.trans h.counts⟩
    · rw [List.foldl_cons, ih.owns, h.owns, List.map_cons, List.mem_cons]
      tauto
    · have := h.size t'
      rw [if_neg ht] at this
      exact (ih.size t' ht).trans this

theorem mem_collectTenantNodesPruned {F : TokenForest} {up : Bool}
    (hclosed : F.Closed (holds t) up) {π : TokenPath} (h : Owns holds F t π) :
    π ∈ (collectTenantNodesPruned t F).map Prod.fst := by
  obtain ⟨e, d, hget, hd⟩ := h
  induction F generalizing up π with
  | nil => cases hget
  | cons k e' d' cs ss ihcs ihss =>
    obtain ⟨-, hcs, hss⟩ := hclosed
    rw [collectTenantNodesPruned, List.map_append, List.mem_append]
    rcases get?_cons_cases hget with ⟨rfl, heq⟩ | ⟨ρ, rfl, hρ⟩ | hbeside
    · rw [if_pos ((Prod.mk.inj heq).2 ▸ hd)]
      exact .inl List.mem_cons_self
    · rw [if_pos (hcs.up_of_get? hρ hd), List.map_cons, List.map_map]
      obtain ⟨x, hx, rfl⟩ := List.mem_map.mp (ihcs hcs hρ)
      exact .inl (List.mem_cons_of_mem _ (List.mem_map.mpr ⟨x, hx, rfl⟩))
    · exact .inr (ihss hss hbeside)

theorem mem_collectTenantNodes {F : TokenForest} (hd : F.Distinct) {π : TokenPath}
    (h : Owns holds F t π) : π ∈ (collectTenantNodes t F).map Prod.fst := by
  obtain ⟨e, d, hget, hholds⟩ := h
  refine List.mem_map.mpr ⟨(π, e.length), (mem_gather hd).mpr ⟨e, d, hget, ?_⟩, rfl⟩
  rw [if_pos hholds]
  exact List.mem_singleton_self _

theorem Shape.closed (h : Shape c S s.children) (t : TenantId) :
    s.children.Closed (holds t) true :=
  (closed_iff h.wf.distinct).mpr ⟨fun _ => rfl, h.down t⟩

theorem Shape.held (h : Shape c S s.children) : s.children.All TokenNode.Held := by
  have h' := all_of_borne h.wf.distinct h.borne h.down
  rw [all_iff h.wf.distinct] at h' ⊢
  exact fun π e d hget => held_iff.mpr (h' π e d hget)

theorem size_eq_zero (hwf : s.children.WF c.paging S)
    (h : ∀ ρ, ¬Owns holds s.children t ρ) : s.children.size (holds t) = 0 := by
  rw [size_eq_zero_iff hwf, all_iff hwf.distinct]
  exact fun π e d hget => Bool.eq_false_iff.mpr fun hd => h π ⟨e, d, hget, hd⟩

theorem Inv.removeNodes (h : Inv c S s) {s' : TokenTree} {gone : TokenPath → Prop}
    (hl : Losing c S s t gone s') (hall : ∀ ρ, Owns holds s.children t ρ → gone ρ) :
    Inv c S { s' with counts := s'.counts.remove t } := by
  have hgone : ∀ ρ, ¬Owns holds s'.children t ρ := fun ρ hρ =>
    ((hl.owns t ρ).mp hρ).2 ⟨hall ρ ((hl.owns t ρ).mp hρ).1, rfl⟩
  refine ⟨⟨hl.wf, fun t' => descends_iff_owns.mpr fun π x hπ hchild => ?_, hl.borne⟩,
    fun t' => ?_, ?_⟩
  · have ht : t' ≠ t := fun ht => hgone _ (ht ▸ hchild)
    refine (hl.owns t' π).mpr ⟨?_, fun h => ht h.2⟩
    exact descends_iff_owns.mp (h.shape.down t') π x hπ ((hl.owns t' _).mp hchild).1
  · rw [Tally.get_remove, hl.counts]
    split
    · rename_i ht
      rw [ht, size_eq_zero hl.wf hgone]
    · rename_i ht
      rw [hl.size t' ht]
      exact h.counts t'
  · rw [hl.counts]
    exact h.balanced.remove t

theorem Inv.removeTenantAll (h : Inv c S s) (t : TenantId) : Inv c S (s.removeTenantAll c t) := by
  rw [TokenTree.removeTenantAll]
  split
  · rename_i hzero
    refine ⟨h.shape, fun t' => ?_, h.balanced.forget hzero⟩
    rw [Tally.get_forget, ← h.counts]
    split
    · rename_i ht
      rw [ht, hzero]
    · rfl
  · have h' : Inv c S { s with root := s.root.drop t } := ⟨h.shape, h.counts, h.balanced⟩
    refine h'.removeNodes (losing_foldl _ h.shape.wf h.shape.borne) fun ρ hρ => ?_
    -- whichever walk is used, it finds every node of the tenant
    split
    · exact ((c.nodes.perm _).map Prod.fst).mem_iff.mpr
        (mem_collectTenantNodesPruned (h.shape.closed t) hρ)
    · exact ((c.nodes.perm _).map Prod.fst).mem_iff.mpr
        (mem_collectTenantNodes h.shape.wf.distinct hρ)

theorem Inv.init : Inv c S withConfig :=
  ⟨⟨trivial, fun _ _ _ _ _ _ hget => (nomatch hget), fun _ _ _ hget => (nomatch hget)⟩,
    fun _ => rfl, .empty⟩

theorem Inv.clear (s : TokenTree) : Inv c S s.clear :=
  ⟨⟨trivial, fun _ _ _ _ _ _ hget => (nomatch hget), fun _ _ _ hget => (nomatch hget)⟩,
    fun _ => rfl, .empty⟩

end TokenTree
end Smg.KvIndex
