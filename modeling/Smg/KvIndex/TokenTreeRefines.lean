import Smg.KvIndex.TokenTreeEvict
import Smg.Lib.Trace

/-!
# The token tree refines prefix sets

What the token tree is for: each tenant has a set of page-aligned prefixes, `prefixes`.  An insert
adds the prefixes of its tokens, a match finds the longest prefix of its tokens that anybody has,
and the counts say how many tokens each tenant has.

The invariant is `TokenTree.Inv`.  It survives an insert because the forest library says what an
insert owns (`Inv.insertTokens`), it survives the walks because they leave the owners alone
(`Inv.of_owners`), and it survives evictions by `TokenTreeEvict`.  Then
`token_tree_refines_prefix_sets`: **after any calls, ownership is prefix-closed, every call does to
the prefix sets what it should, and the counts are right**.  Digests must tell apart the pages that
are inserted, which is the set `S` throughout.
-/

set_option autoImplicit false

namespace Smg.KvIndex

open Forest TokenNode
open List hiding all_map

namespace TokenTree

variable (c : Config)

def prefixes (s : TokenTree) (t : TenantId) : Set (List TokenId) :=
  s.children.Owned c.paging (TokenNode.holds t)

variable {c} {S : Set (List TokenId)} {s s' : TokenTree} {t : TenantId} {tokens : List TokenId}

/-! ## The invariant through the owners -/

variable {F : TokenForest}

/-- The shape of a tree says something about owners only. -/
theorem shape_iff : Shape c S F ↔
      F.WF c.paging S ∧ (∀ t, F.Closed (holds t) true) ∧ F.All TokenNode.Held := by
  constructor
  · intro h
    exact ⟨h.wf, fun t => (closed_iff h.wf.distinct).mpr ⟨fun _ => rfl, h.down t⟩,
      @Shape.held c S ⟨.newRoot, F, .empty, 0⟩ h⟩
  · rintro ⟨hwf, hclosed, hheld⟩
    refine ⟨hwf, fun t => ((closed_iff hwf.distinct).mp (hclosed t)).2, .of_all hwf.distinct ?_⟩
    rw [all_iff hwf.distinct] at hheld ⊢
    exact fun π e d hget => held_iff.mp (hheld π e d hget)

theorem prefixes_of_owners (h : owners s'.children = owners s.children) (t : TenantId) :
    prefixes c s' t = prefixes c s t := by
  have hown : ∀ F : TokenForest, F.Owned c.paging (holds t) =
      (owners F).Owned c.paging (fun h => h t) := fun F =>
    (owned_map TokenNode.owners F fun h => h t).symm
  rw [prefixes, prefixes, hown, hown, h]

theorem size_of_owners {F' : TokenForest} (h : owners F' = owners F) (t : TenantId) :
    F'.size (holds t) = F.size (holds t) := by
  have hsize : ∀ F : TokenForest, F.size (holds t) = (owners F).size (fun h => h t) :=
    fun F => (size_map TokenNode.owners F fun h => h t).symm
  rw [hsize, hsize, h]

theorem Shape.of_owners {F' : TokenForest} (hF : Shape c S F) (h : owners F' = owners F) :
    Shape c S F' := by
  have howners : ∀ F : TokenForest, Shape c S F ↔ (owners F).WF c.paging S ∧
      (∀ t, (owners F).Closed (fun h => h t) true) ∧ (owners F).All (fun h => ∃ t, h t = true) := by
    intro F
    rw [shape_iff, owners, wf_map, all_map]
    refine and_congr .rfl (and_congr (forall_congr' fun t => ?_) .rfl)
    rw [closed_map]
    rfl
  rw [howners, h, ← howners]
  exact hF

theorem Inv.of_owners (hs : Inv c S s) (h : owners s'.children = owners s.children)
    (hcounts : s'.counts = s.counts) : Inv c S s' where
  shape := hs.shape.of_owners h
  counts t := by rw [hcounts, size_of_owners h, hs.counts]
  balanced := hcounts ▸ hs.balanced

/-! ## Insert -/

theorem marks_insertFrom (t t' : TenantId) (ts now : UInt64) :
    Marks (holds t') (decide (t' = t))
      ((new now).touchTenant c.entries t ts c.trackLfu)
      (touchTenant c.entries t ts c.trackLfu) id where
  fresh_eq := by rw [holds_touchTenant, holds_new, Bool.false_or]
  touch_eq d := holds_touchTenant _ _ _ _ _ _
  finish_eq d := holds_touchTenant _ _ _ _ _ _

theorem whole_take_align (h : alignToPage tokens.length c.pageSize ≠ 0) :
    c.paging.Whole (tokens.take (alignToPage tokens.length c.pageSize)) := by
  have hlen : (tokens.take (alignToPage tokens.length c.pageSize)).length =
      alignToPage tokens.length c.pageSize :=
    length_take_of_le (c.paging.align_le tokens.length)
  refine ⟨?_, ?_⟩
  · rw [← length_pos_iff, hlen]
    exact pos_of_ne_zero h
  · rw [hlen]
    exact c.paging.dvd_align tokens.length

theorem prefix_take_align {q : List TokenId} (hq : c.paging.Whole q) :
    q <+: tokens.take (alignToPage tokens.length c.pageSize) ↔ q <+: tokens := by
  refine ⟨fun h => h.trans (List.take_prefix _ _), fun h => ?_⟩
  rw [prefix_take_iff]
  exact ⟨h, c.paging.le_align hq.2 h.length_le⟩

theorem within_take (h : c.paging.Within S tokens) (n : Nat) :
    c.paging.Within S (tokens.take n) := by
  rw [← take_append_drop n tokens] at h
  exact h.append_left

variable (hinj : Set.InjOn mixTokens S)

include hinj in
theorem Shape.insertFrom (hF : Shape c S F) {p : List TokenId} (hp : c.paging.Whole p)
    (hpS : c.paging.Within S p) (t : TenantId) (ts now : UInt64) :
    Shape c S (TokenTree.insertFrom c t ts now F p).forest := by
  obtain ⟨hwf, hclosed, hheld⟩ := shape_iff.mp hF
  refine shape_iff.mpr ⟨hwf.insert hinj hp hpS, fun t' => ?_, ?_⟩
  · exact (hclosed t').insert hinj (marks_insertFrom t t' ts now) hwf (fun _ => rfl) hp hpS
  · have htouch : ∀ d : TokenNode, (d.touchTenant c.entries t ts c.trackLfu).Held := fun d =>
      ⟨t, by rw [holds_touchTenant, decide_eq_true rfl, Bool.or_true]⟩
    exact hheld.insert (htouch _) (fun d _ => htouch d) (fun _ h => h) p

include hinj in
theorem size_insertFrom (hF : Shape c S F) {p : List TokenId} (hp : c.paging.Whole p)
    (hpS : c.paging.Within S p) (t t' : TenantId) (ts now : UInt64) :
    (TokenTree.insertFrom c t ts now F p).forest.size (holds t') =
      F.size (holds t') +
        if t' = t then (TokenTree.insertFrom c t ts now F p).added else 0 := by
  have hm := @marks_insertFrom c t t' ts now
  split
  · rename_i ht
    subst ht
    rw [decide_eq_true rfl] at hm
    exact size_insert hinj hm (fun _ => rfl) hF.wf hp hpS
  · rename_i ht
    rw [decide_eq_false ht] at hm
    rw [size_eq_ncard (hF.insertFrom hinj hp hpS t ts now).wf, size_eq_ncard hF.wf]
    refine congrArg (c.paging.page * Set.ncard ·) (Set.ext fun q => ?_)
    exact (mem_owned_insert hinj hm hF.wf hp hpS).trans (by simp)

include hinj in
theorem Inv.insertTokens (hs : Inv c S s) (hS : c.paging.Within S tokens) (t : TenantId) :
    Inv c S (s.insertTokens c tokens t) := by
  rw [TokenTree.insertTokens]
  split
  · exact hs
  · rename_i h0
    have hp := whole_take_align h0
    have hpS := within_take hS (alignToPage tokens.length c.pageSize)
    refine ⟨hs.shape.insertFrom hinj hp hpS t _ _, fun t' => ?_, ?_⟩
    · show (((s.counts.enter t).add t _).get t') = _
      rw [Tally.get_add, Tally.get_enter, hs.counts]
      exact (size_insertFrom hinj hs.shape hp hpS t t' _ _).symm
    · exact (hs.balanced.enter t).add t _

include hinj in
/-- **An insert adds the page-aligned prefixes of its tokens**, for its tenant alone. -/
theorem mem_prefixes_insertTokens (hs : Inv c S s) (hS : c.paging.Within S tokens) (t t' : TenantId)
    (q : List TokenId) :
    q ∈ prefixes c (s.insertTokens c tokens t) t' ↔
      q ∈ prefixes c s t' ∨ (t' = t ∧ c.paging.Whole q ∧ q <+: tokens) := by
  rw [TokenTree.insertTokens]
  split
  · rename_i h0
    refine ⟨.inl, fun h => h.elim id fun ⟨_, hq, hprefix⟩ => ?_⟩
    have hle := ((prefix_take_align hq).mpr hprefix).length_le
    have hlen : (tokens.take (alignToPage tokens.length c.pageSize)).length ≤ 0 :=
      (length_take_le _ _).trans (le_of_eq h0)
    exact absurd (length_eq_zero_iff.mp (Nat.le_zero.mp (hle.trans hlen))) hq.1
  · rename_i h0
    refine (mem_owned_insert hinj (marks_insertFrom t t' _ _) hs.shape.wf (whole_take_align h0)
      (within_take hS _)).trans (or_congr .rfl ?_)
    rw [decide_eq_true_iff]
    exact and_congr .rfl (and_congr_right fun hq => prefix_take_align hq)

/-! ## Match, and match and insert -/

theorem owners_matchPrefixWithCounts (c : Config) (s : TokenTree) (tokens : List TokenId) :
    owners (s.matchPrefixWithCounts c tokens).2.children = owners s.children ∧
      (s.matchPrefixWithCounts c tokens).2.counts = s.counts := by
  rw [matchPrefixWithCounts]
  split
  · exact ⟨rfl, rfl⟩
  · exact ⟨owners_matchFrom c _ _ _, rfl⟩

/-- What a match should answer: the longest prefix of the tokens that somebody owns, and tenants
that own all of it. -/
structure LongestOwned (c : Config) (s : TokenTree) (tokens : List TokenId)
    (result : PrefixMatchResult) : Prop where
  input : result.inputTokenCount = tokens.length
  aligned : c.pageSize ∣ result.matchedTokenCount
  le : result.matchedTokenCount ≤ tokens.length
  longest : ∀ t, ∀ q ∈ prefixes c s t, q <+: tokens → q.length ≤ result.matchedTokenCount
  owned : 0 < result.matchedTokenCount → ∀ t ∈ result.tenant :: result.matchedTenants,
    tokens.take result.matchedTokenCount ∈ prefixes c s t
  nothing : result.matchedTokenCount = 0 → result.matchedTenants = []

/-- **A match finds the longest owned prefix.** -/
theorem longestOwned_matchPrefixWithCounts (hs : Inv c S s) (tokens : List TokenId) :
    LongestOwned c s tokens (s.matchPrefixWithCounts c tokens).1 := by
  rw [matchPrefixWithCounts]
  simp only
  split
  · rename_i h0
    exact
      { input := rfl
        aligned := dvd_zero _
        le := Nat.zero_le _
        longest := fun t q hq hle =>
          (c.paging.le_align hq.1.2 hle.length_le).trans (le_of_eq h0)
        owned := fun h => absurd h (lt_irrefl 0)
        nothing := fun _ => rfl }
  · rename_i h0
    have hwhole := whole_take_align h0
    have hlen : (tokens.take (alignToPage tokens.length c.pageSize)).length =
        alignToPage tokens.length c.pageSize :=
      length_take_of_le (c.paging.align_le tokens.length)
    obtain ⟨hwf, -, hheld⟩ := shape_iff.mp hs.shape
    have h := matchFrom_spec c hwf hheld hwhole.2 s.clock
    generalize
      matchFrom c s.children (tokens.take (alignToPage tokens.length c.pageSize)) s.clock = r at h
    have hle : r.matched ≤ alignToPage tokens.length c.pageSize := hlen ▸ h.le
    refine ⟨rfl, h.dvd, hle.trans (c.paging.align_le _), fun t q hq hprefix => ?_,
      fun hpos t ht => ?_, fun h0 => ?_⟩
    · obtain ⟨hq, d, hd, -⟩ := hq
      exact h.longest q hq ((prefix_take_align hq).mpr hprefix) (by rw [hd]; rfl)
    · rcases hdeep : r.deepest with _ | ⟨t0, ts⟩
      · exact absurd (h.nothing.mp hdeep) (pos_iff_ne_zero.mp hpos)
      · obtain ⟨d, hd, ht0, hts⟩ := h.named t0 ts hdeep
        rw [take_take, min_eq_left hle] at hd
        have hmatched : (tokens.take r.matched).length = r.matched :=
          length_take_of_le (hle.trans (c.paging.align_le _))
        refine ⟨⟨?_, ?_⟩, d, hd, ?_⟩
        · rw [← length_pos_iff]
          exact hmatched.symm ▸ hpos
        · show c.pageSize ∣ (tokens.take r.matched).length
          rw [hmatched]
          exact h.dvd
        · rw [hdeep] at ht
          rcases mem_cons.mp ht with rfl | ht
          · exact ht0
          · exact hts t ht
    · rw [h.nothing.mpr h0]
      rfl

/-- A match, and then an insert for the tenant selected by its result. -/
def matchThenInsert (c : Config) (s : TokenTree) (tokens : List TokenId)
    (select : PrefixMatchResult → Option TenantId) : PrefixMatchResult × TokenTree :=
  let m := s.matchPrefixWithCounts c tokens
  match select m.1 with
  | none => m
  | some t => (m.1, m.2.insertTokens c tokens t)

/-- **The fused call is the match followed by the insert.** -/
theorem matchAndInsertWith_eq (c : Config) (s : TokenTree) (tokens : List TokenId)
    (select : PrefixMatchResult → Option TenantId) :
    (s.matchAndInsertWith c tokens select).1 = (matchThenInsert c s tokens select).1 ∧
      owners (s.matchAndInsertWith c tokens select).2.children =
        owners (matchThenInsert c s tokens select).2.children ∧
      (s.matchAndInsertWith c tokens select).2.counts =
        (matchThenInsert c s tokens select).2.counts := by
  rw [matchAndInsertWith, matchThenInsert, matchPrefixWithCounts]
  by_cases h0 : alignToPage tokens.length c.pageSize = 0
  · rw [if_pos h0, if_pos h0]
    rcases select (s.matchShort tokens).1 with _ | t
    · exact ⟨rfl, rfl, rfl⟩
    · dsimp only
      rw [insertTokens]
      rw [if_pos h0]
      exact ⟨rfl, rfl, rfl⟩
  · dsimp only
    rw [if_neg h0, if_neg h0]
    have hp := (whole_take_align h0).page_le
    generalize hq : tokens.take (alignToPage tokens.length c.pageSize) = p at hp
    obtain ⟨hmatched, hdeepest⟩ := fuseFrom_result c s.children p s.clock s.clock
    rw [hmatched, hdeepest]
    generalize hm : matchFrom c s.children p s.clock = m
    have howners : owners m.forest = owners s.children := by rw [← hm, owners_matchFrom]
    rcases select (matchResult tokens m.matched m.deepest) with _ | t
    · exact ⟨rfl, ((walked_fuseFrom c s.children p s.clock false).owners).trans howners.symm, rfl⟩
    · dsimp only
      rw [insertTokens]
      rw [if_neg h0, hq]
      have hfused := @owners_insertReplay c p t s.clock (s.clock + 1) s.children p hp false
      have htwo := owners_insertFrom c t m.clock (m.clock + 1) m.forest p
      rw [howners, hfused] at htwo
      injection htwo with h1 h2 h3
      exact ⟨rfl, h1, congrArg ((s.counts.enter t).add t) h2⟩

/-! ## Whole runs -/

/-- The pages of what a call inserts are in `S`. -/
def Call.Fits (c : Config) (S : Set (List TokenId)) : Call → Prop
  | .insertTokens tokens _ | .matchAndInsertWith tokens _ => c.paging.Within S tokens
  | _ => True

include hinj in
theorem Inv.exec (hs : Inv c S s) {call : Call} (hfit : call.Fits c S) :
    Inv c S (s.exec c call) := by
  have hmatch : ∀ tokens, Inv c S (s.matchPrefixWithCounts c tokens).2 := fun tokens =>
    hs.of_owners (owners_matchPrefixWithCounts c s tokens).1
      (owners_matchPrefixWithCounts c s tokens).2
  rcases call with ⟨tokens, t⟩ | tokens | ⟨tokens, select⟩ | ⟨t, maxTokens⟩ | maxSize | t | _ | n
  · exact hs.insertTokens hinj hfit t
  · exact hmatch tokens
  · have htwo : Inv c S (matchThenInsert c s tokens select).2 := by
      rw [matchThenInsert]
      rcases select (s.matchPrefixWithCounts c tokens).1 with _ | t
      · exact hmatch tokens
      · exact (hmatch tokens).insertTokens hinj hfit t
    obtain ⟨-, howners, hcounts⟩ := matchAndInsertWith_eq c s tokens select
    exact htwo.of_owners howners hcounts
  · exact hs.evictTenant t maxTokens
  · exact hs.evictTenantBySize maxSize
  · exact hs.removeTenantAll t
  · exact .clear s
  · exact ⟨hs.shape, hs.counts, hs.balanced⟩

include hinj in
theorem inv_of_reaches (h : Reaches (TokenTree.exec c) (fun _ call => call.Fits c S) withConfig s) :
    Inv c S s :=
  h.invariant Inv.init fun _ _ hs hfit => hs.exec hinj hfit

/-- **The token tree refines prefix sets.**  In every tree reached by calls that insert pages of
`S`, where digests tell these pages apart: what a tenant owns is prefix-closed; an insert adds
exactly the page-aligned prefixes of its tokens, for its tenant only; a match finds the longest
owned prefix and names tenants that own it, and changes nobody's prefixes; the fused call answers
and leaves prefixes and counts as the match followed by the insert; the count of a tenant is the
tokens of its prefixes, and the total is the sum of the counts. -/
theorem token_tree_refines_prefix_sets (hinj : Set.InjOn mixTokens S)
    (h : Reaches (TokenTree.exec c) (fun _ call => call.Fits c S) withConfig s) :
    (∀ t, ∀ q ∈ prefixes c s t, ∀ p, c.paging.Whole p → p <+: q → p ∈ prefixes c s t) ∧
    (∀ tokens t, c.paging.Within S tokens → ∀ t' q, q ∈ prefixes c (s.insertTokens c tokens t) t' ↔
      q ∈ prefixes c s t' ∨ (t' = t ∧ c.paging.Whole q ∧ q <+: tokens)) ∧
    (∀ tokens, LongestOwned c s tokens (s.matchPrefixWithCounts c tokens).1 ∧
      ∀ t, prefixes c (s.matchPrefixWithCounts c tokens).2 t = prefixes c s t) ∧
    (∀ tokens select, c.paging.Within S tokens →
      (s.matchAndInsertWith c tokens select).1 = (matchThenInsert c s tokens select).1 ∧
      (∀ t, prefixes c (s.matchAndInsertWith c tokens select).2 t =
        prefixes c (matchThenInsert c s tokens select).2 t) ∧
      (s.matchAndInsertWith c tokens select).2.counts =
        (matchThenInsert c s tokens select).2.counts) ∧
    (∀ t, (prefixes c s t).Finite ∧ s.counts.get t = c.pageSize * (prefixes c s t).ncard) ∧
    s.counts.total = Tally.sum s.counts.counts := by
  have hs := inv_of_reaches hinj h
  obtain ⟨hwf, hclosed, -⟩ := shape_iff.mp hs.shape
  refine ⟨fun t q hq p hp hprefix => (hclosed t).owned_beginning hp hprefix hq hwf,
    fun tokens t hS t' q => mem_prefixes_insertTokens hinj hs hS t t' q, fun tokens => ?_,
    fun tokens select _ => ?_, fun t => ⟨finite_owned hwf, ?_⟩, hs.balanced⟩
  · exact ⟨longestOwned_matchPrefixWithCounts hs tokens,
      prefixes_of_owners (owners_matchPrefixWithCounts c s tokens).1⟩
  · obtain ⟨hresult, howners, hcounts⟩ := matchAndInsertWith_eq c s tokens select
    exact ⟨hresult, prefixes_of_owners howners, hcounts⟩
  · rw [hs.counts]
    exact size_eq_ncard hwf

/-- Pages of two tokens, maps that keep the order of their entries. -/
def pairs (policy : EvictionPolicy) : Config :=
  ⟨2, by decide, policy, .still _, .still _, .still _, fun _ => .still _⟩

/-- Two tenants share a page, one goes on, the other is cut back. -/
def sharedPage : List Call :=
  [.insertTokens [1, 2, 3, 4] "a", .insertTokens [1, 2, 5, 6, 7] "b",
    .matchAndInsertWith [1, 2, 3, 4, 5, 6] (fun r => some r.tenant), .evictTenant "b" 2]

/-- The pages of these prompts have different keys. -/
theorem mixTokens_injOn : Set.InjOn mixTokens { p | p ∈ [[1, 2], [3, 4], [5, 6]] } := by
  have h : ∀ p ∈ [[1, 2], [3, 4], [5, 6]], ∀ q ∈ [[1, 2], [3, 4], [5, 6]],
      mixTokens p = mixTokens q → p = q := by decide +kernel
  exact fun p hp q hq => h p hp q hq

theorem token_tree_refines_shared_page :
    (sharedPage.foldl (TokenTree.exec (pairs .lru)) withConfig).counts.get "a" = 6 ∧
      (sharedPage.foldl (TokenTree.exec (pairs .lru)) withConfig).counts.get "a" =
        2 * (prefixes (pairs .lru) (sharedPage.foldl (TokenTree.exec (pairs .lru)) withConfig)
          "a").ncard := by
  have hfit : ∀ call ∈ sharedPage, call.Fits (pairs .lru) { p | p ∈ [[1, 2], [3, 4], [5, 6]] } := by
    intro call hcall
    simp only [sharedPage, mem_cons, not_mem_nil, or_false] at hcall
    rcases hcall with rfl | rfl | rfl | rfl
    · exact Keying.within_of_pages (by decide)
    · exact Keying.within_of_pages (by decide)
    · exact Keying.within_of_pages (by decide)
    · trivial
  refine ⟨by decide +kernel, ?_⟩
  exact ((token_tree_refines_prefix_sets mixTokens_injOn (reaches_foldl (allOk_of_forall
    (fun call hcall _ => hfit call hcall) _))).2.2.2.2.1 "a").2

end TokenTree
end Smg.KvIndex
