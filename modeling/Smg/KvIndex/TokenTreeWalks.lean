import Smg.KvIndex.TokenTree

/-!
# The walks of the token tree

What a tree owns is the forest of its owners: `owners` forgets stamps, caches, hits and times, and
keeps who owns each node.  Then

* a match leaves the owners alone (`owners_matchFrom`) and finds the longest prefix that somebody
  owns, provided every node is owned by somebody (`matchFrom_spec`);
* an insert is an insert of owners (`owners_insertFrom`);
* **the fused walk is the match followed by the insert**: `fuseFrom` answers as `matchFrom` does
  (`fuseFrom_result`), and its replay and splice make the same owners, with the same credit, as an
  insert from the root (`owners_insertReplay`).
-/

set_option autoImplicit false

namespace Smg.KvIndex

open Forest TokenNode List Option

namespace TokenNode

variable {o : EntryOrder} {t t' : TenantId} {ts : UInt64} {lfu : Bool} {d d' : TokenNode}

theorem holds_eq_true : d.holds t = true ↔ t ∈ d.tenants := decide_eq_true_iff

theorem holds_touchTenant (o : EntryOrder) (t : TenantId) (ts : UInt64) (lfu : Bool) (d : TokenNode)
    (t' : TenantId) : (d.touchTenant o t ts lfu).holds t' = (d.holds t' || decide (t' = t)) := by
  rw [Bool.eq_iff_iff, Bool.or_eq_true, holds_eq_true, holds_eq_true, decide_eq_true_iff, or_comm]
  exact TenantMap.mem_write

theorem holds_new (now : UInt64) (t : TenantId) : (new now).holds t = false :=
  decide_eq_false (AList.notMem_empty t)

theorem holds_drop (t : TenantId) (d : TokenNode) (t' : TenantId) :
    (d.drop t).holds t' = (d.holds t' && decide (t' ≠ t)) := by
  rw [Bool.eq_iff_iff, Bool.and_eq_true, holds_eq_true, holds_eq_true, decide_eq_true_iff, and_comm]
  exact AList.mem_erase

def owners (d : TokenNode) : TenantId → Bool := fun t => d.holds t

def Held (d : TokenNode) : Prop := ∃ t, d.holds t = true

/-! ### Picking a tenant -/

def anyTenant (d : TokenNode) : Option TenantId := d.cached.or d.tenants.keys.head?

theorem holds_of_anyTenant (h : d.anyTenant = some t) : d.holds t = true := by
  rcases or_eq_some_iff.mp h with h | ⟨-, h⟩
  · exact (filter_eq_some_iff.mp h).2
  · exact holds_eq_true.mpr (mem_of_mem_head? h)

theorem anyTenant_eq_none_iff : d.anyTenant = none ↔ ¬d.Held := by
  rw [anyTenant, or_eq_none_iff, head?_eq_none_iff]
  constructor
  · rintro ⟨-, h⟩ ⟨t, ht⟩
    have : t ∈ d.tenants.keys := holds_eq_true.mp ht
    rw [h] at this
    cases this
  · intro h
    have hkeys : d.tenants.keys = [] :=
      eq_nil_iff_forall_not_mem.mpr fun t ht => h ⟨t, holds_eq_true.mpr ht⟩
    refine ⟨?_, hkeys⟩
    rcases hc : d.cached with _ | t
    · rfl
    · exact absurd ⟨t, (filter_eq_some_iff.mp hc).2⟩ h

theorem getAnyTenant_fst (d : TokenNode) : d.getAnyTenant.1 = d.anyTenant := by
  rw [getAnyTenant, anyTenant]
  rcases d.cached with _ | t
  · rcases d.tenants.keys.head? with _ | t <;> rfl
  · rfl

theorem getAnyTenant_snd (d : TokenNode) : d.getAnyTenant.2.tenants = d.tenants := by
  rw [getAnyTenant]
  rcases d.cached with _ | t
  · rcases d.tenants.keys.head? with _ | t <;> rfl
  · rfl

theorem touchAnyTenant_eq_none (h : d.anyTenant = none) : d.touchAnyTenant o ts lfu = none := by
  rw [anyTenant, or_eq_none_iff] at h
  rw [touchAnyTenant, h.1, h.2]
  rfl

/-- A touch of any tenant stamps the one a lookup gives. -/
theorem touchAnyTenant_eq_some (h : d.anyTenant = some t) :
    ∃ d', d.touchAnyTenant o ts lfu = some (t, d') ∧
      d'.tenants = TenantMap.write o t ts d.tenants := by
  rw [anyTenant] at h
  rw [touchAnyTenant]
  rcases hc : d.cached with _ | t'
  · rw [hc, none_or] at h
    rw [h]
    exact ⟨_, rfl, rfl⟩
  · rw [hc] at h
    cases h
    exact ⟨_, rfl, rfl⟩

theorem keys_write (h : d.anyTenant = some t) (ts : UInt64) :
    (TenantMap.write o t ts d.tenants).keys = d.tenants.keys := by
  rw [TenantMap.write, if_pos (holds_eq_true.mp (holds_of_anyTenant h)), AList.keys_replace]

theorem owners_of_keys (h : d'.tenants.keys = d.tenants.keys) : d'.owners = d.owners := by
  funext t
  show decide (t ∈ d'.tenants) = decide (t ∈ d.tenants)
  rw [decide_eq_decide, AList.mem_keys, AList.mem_keys, h]

end TokenNode

namespace TokenTree

variable (c : Config)

theorem pageKeyOf_eq (p : List TokenId) : pageKeyOf p c.pageSize = c.paging.keyOf p := rfl

/-! ## Owners -/

def owners (F : TokenForest) : Forest TokenPageKey TokenId (TenantId → Bool) :=
  F.map TokenNode.owners

/-- An insert of owners: one tenant more at every node of the string. -/
def insertOwner (t : TenantId) (F : Forest TokenPageKey TokenId (TenantId → Bool))
    (p : List TokenId) : Inserted TokenPageKey TokenId (TenantId → Bool) :=
  F.insert c.paging (fun t' => decide (t' = t)) (fun h t' => h t' || decide (t' = t)) id
    (fun h => !h t) p

theorem owners_insertFrom (t : TenantId) (ts now : UInt64) (F : TokenForest) (p : List TokenId) :
    insertOwner c t (owners F) p = (insertFrom c t ts now F p).map TokenNode.owners := by
  have hfresh : ((new now).touchTenant c.entries t ts c.trackLfu).owners =
      fun t' => decide (t' = t) := by
    funext t'
    show (TokenNode.touchTenant _ _ _ _ _).holds t' = _
    rw [TokenNode.holds_touchTenant, TokenNode.holds_new, Bool.false_or]
  rw [insertOwner, ← hfresh]
  refine insert_map TokenNode.owners (fun d => ?_) (fun _ => rfl) (fun _ => rfl) F p
  funext t'
  exact TokenNode.holds_touchTenant _ _ _ _ _ _

/-! ## Match -/

variable {d : TokenNode}

/-- The stamped node of a match. -/
theorem owners_stamped {t : TenantId} (h : d.anyTenant = some t) (now : UInt64) :
    (d.getAnyTenant.2.touchTenant c.entries t now c.trackLfu).tenants.keys = d.tenants.keys := by
  show (TenantMap.write c.entries t now d.getAnyTenant.2.tenants).keys = _
  rw [getAnyTenant_snd, keys_write h]

variable {p : List TokenId}

/-- A match walk at an edge with the right key: it stops there, or stamps the node and stops inside
the edge, or goes on below. -/
theorem matchFrom_cons {k : TokenPageKey} {e : List TokenId} {cs ss : TokenForest}
    (hp : c.pageSize ≤ p.length) (hk : k = c.paging.keyOf p) (now : UInt64) :
    matchFrom c (cons k e d cs ss) p now =
      if c.paging.common p e = 0 then ⟨cons k e d cs ss, now, 0, none⟩
      else
        match d.anyTenant with
        | none => ⟨cons k e d cs ss, now, 0, none⟩
        | some t =>
          let d' := d.getAnyTenant.2.touchTenant c.entries t now c.trackLfu
          if c.paging.common p e < e.length then
            ⟨cons k e d' cs ss, now + 1, c.paging.common p e, some (t, d'.matchedTenants)⟩
          else
            let r := matchFrom c cs (p.drop (c.paging.common p e)) (now + 1)
            ⟨cons k e d' r.forest ss, r.clock, c.paging.common p e + r.matched,
              r.deepest.or (some (t, d'.matchedTenants))⟩ := by
  rw [matchFrom, if_neg (not_lt.mpr hp), pageKeyOf_eq, if_pos hk]
  simp only
  split
  · rfl
  · rcases hany : d.getAnyTenant with ⟨_ | t, d'⟩
    · have : d.anyTenant = none := by rw [← d.getAnyTenant_fst, hany]
      rw [this]
    · have : d.anyTenant = some t := by rw [← d.getAnyTenant_fst, hany]
      rw [this]

theorem matchFrom_short {F : TokenForest} (hp : p.length < c.pageSize) (now : UInt64) :
    matchFrom c F p now = ⟨F, now, 0, none⟩ := by
  rcases F with _ | ⟨k, e, d, cs, ss⟩
  · rfl
  · rw [matchFrom, if_pos hp]

theorem matchFrom_beside {k : TokenPageKey} {e : List TokenId} {cs ss : TokenForest}
    (hp : c.pageSize ≤ p.length) (hk : k ≠ c.paging.keyOf p) (now : UInt64) :
    matchFrom c (cons k e d cs ss) p now =
      { matchFrom c ss p now with forest := cons k e d cs (matchFrom c ss p now).forest } := by
  rw [matchFrom, if_neg (not_lt.mpr hp), pageKeyOf_eq, if_neg hk]

theorem owners_matchFrom (F : TokenForest) (p : List TokenId) (now : UInt64) :
    owners (matchFrom c F p now).forest = owners F := by
  induction F generalizing p now with
  | nil => rfl
  | cons k e d cs ss ihcs ihss =>
    by_cases hp : p.length < c.pageSize
    · rw [matchFrom_short c hp]
    rw [not_lt] at hp
    by_cases hk : k = c.paging.keyOf p
    · rw [matchFrom_cons c hp hk]
      split
      · rfl
      · split
        · rfl
        · rename_i t hany
          have hown := owners_of_keys (owners_stamped c hany now)
          split
          · show cons k e _ _ _ = cons k e _ _ _
            rw [hown]
          · show cons k e _ (owners _) _ = cons k e _ _ _
            rw [hown, ihcs]
            rfl
    · rw [matchFrom_beside c hp hk]
      show cons k e _ _ (owners _) = cons k e _ _ _
      rw [ihss]
      rfl

/-- What a match of `p` in `F` should find: as long a prefix as has data, and tenants that own it.
-/
structure Longest (F : TokenForest) (p : List TokenId) (matched : Nat)
    (deepest : Option (TenantId × List TenantId)) : Prop where
  dvd : c.pageSize ∣ matched
  le : matched ≤ p.length
  longest : ∀ q, c.paging.Whole q → q <+: p → (F.dataAt q).isSome → q.length ≤ matched
  named : ∀ t ts, deepest = some (t, ts) → ∃ d, F.dataAt (p.take matched) = some d ∧
    d.holds t = true ∧ ∀ t' ∈ ts, d.holds t' = true
  nothing : deepest = none ↔ matched = 0

section Longest

variable {c} {S : Set (List TokenId)} {k : TokenPageKey} {u p e : List TokenId} {d : TokenNode}
  {cs ss F : TokenForest} {matched : Nat} {deepest : Option (TenantId × List TenantId)}

theorem Longest.zero (h : ∀ q, c.paging.Whole q → q <+: p → F.dataAt q = none) :
    Longest c F p 0 none where
  dvd := dvd_zero _
  le := Nat.zero_le _
  longest q hq hqp hsome := by
    rw [h q hq hqp] at hsome
    cases hsome
  named _ _ h := by cases h
  nothing := by simp

theorem Longest.take_ne_nil (h : Longest c F p matched deepest) (hdeep : deepest ≠ none) :
    p.take matched ≠ [] := by
  have := mt h.nothing.mpr hdeep
  rw [← length_pos_iff, length_take_of_le h.le]
  omega

theorem mem_matchedTenants {d' : TokenNode} (h : d'.tenants.keys = d.tenants.keys) {t : TenantId}
    (ht : t ∈ d'.matchedTenants) : d.holds t = true := by
  rw [matchedTenants, h] at ht
  exact holds_eq_true.mpr (mem_of_mem_take ht)

/-- The match ends in an edge that goes on differently. -/
theorem Longest.within (hF : (cons k (u ++ e) d cs ss).WF c.paging S)
    (hu : c.paging.page ∣ u.length)
    (hapart : ∀ r, c.paging.Whole r → r <+: p → ¬r <+: e) (hk : k = c.paging.keyOf (u ++ p))
    (hu0 : u.length ≠ 0) (he : e ≠ []) {t : TenantId} {ts : List TenantId} (ht : d.holds t = true)
    (hts : ∀ t' ∈ ts, d.holds t' = true) :
    Longest c (cons k (u ++ e) d cs ss) (u ++ p) u.length (some (t, ts)) where
  dvd := hu
  le := by simp
  longest q hq hqp hsome := by
    by_cases hqu : q <+: u
    · exact hqu.length_le
    · obtain ⟨q', -, -, -, h⟩ := dataAt_cons_beyond hF hu hapart hk hq hqp hqu
      rw [h, if_neg he] at hsome
      cases hsome
  named t' ts' h := by
    cases h
    rw [take_left]
    exact ⟨d, dataAt_cons_within (prefix_append u e), ht, hts⟩
  nothing := by simp [hu0]

theorem Longest.below (hF : (cons k u d cs ss).WF c.paging S)
    {t : TenantId} {ts : List TenantId} (ht : d.holds t = true) (hts : ∀ t' ∈ ts, d.holds t' = true)
    (h : Longest c cs p matched deepest) :
    Longest c (cons k u d cs ss) (u ++ p) (u.length + matched) (deepest.or (some (t, ts))) where
  dvd := Nat.dvd_add hF.2.1.2 h.dvd
  le := by
    rw [length_append]
    exact Nat.add_le_add_left h.le _
  longest q hq hqp hsome := by
    rcases prefix_trichotomy q u with hqu | ⟨q', hq', rfl⟩ | ⟨h1, h2⟩
    · exact hqu.length_le.trans (Nat.le_add_right _ _)
    · rw [dataAt_cons_append hq'] at hsome
      rw [length_append]
      exact Nat.add_le_add_left (h.longest q' (hq.of_append hF.2.1.2 hq')
        ((prefix_append_right_inj u).mp hqp) hsome) _
    · exact absurd hqp (not_prefix_append h1 h2 p).1
  named t' ts' hdeep := by
    rw [take_length_add_append]
    rcases or_eq_some_iff.mp hdeep with hdeep | ⟨hnone, hhere⟩
    · rw [dataAt_cons_append (h.take_ne_nil (by simp [hdeep]))]
      exact h.named t' ts' hdeep
    · cases hhere
      rw [h.nothing.mp hnone, take_zero, append_nil]
      exact ⟨d, dataAt_cons_within (prefix_refl u), ht, hts⟩
  nothing := by
    have := length_pos_iff.mpr hF.2.1.1
    refine ⟨fun h => ?_, fun h => by omega⟩
    rw [or_eq_none_iff] at h
    cases h.2

theorem Longest.beside (hF : (cons k e d cs ss).WF c.paging S) (hk : k ≠ c.paging.keyOf p)
    (h : Longest c ss p matched deepest) : Longest c (cons k e d cs ss) p matched deepest := by
  have hpass : ∀ q, c.paging.Whole q → q <+: p → (cons k e d cs ss).dataAt q = ss.dataAt q :=
    fun q hq hqp => dataAt_cons_of_key_ne hF hq (by rwa [hq.keyOf_eq hqp])
  refine ⟨h.dvd, h.le, fun q hq hqp hsome => ?_, fun t ts hdeep => ?_, h.nothing⟩
  · rw [hpass q hq hqp] at hsome
    exact h.longest q hq hqp hsome
  · have hwhole : c.paging.Whole (p.take matched) := by
      refine ⟨h.take_ne_nil (by simp [hdeep]), ?_⟩
      rw [length_take_of_le h.le]
      exact h.dvd
    rw [hpass _ hwhole (List.take_prefix _ _)]
    exact h.named t ts hdeep

variable (c) in
/-- **A match finds the longest prefix there is**, where every node has an owner. -/
theorem matchFrom_spec (hF : F.WF c.paging S) (hheld : F.All TokenNode.Held)
    (hp : c.pageSize ∣ p.length) (now : UInt64) :
    Longest c F p (matchFrom c F p now).matched (matchFrom c F p now).deepest := by
  induction F generalizing p now with
  | nil => exact .zero fun _ _ _ => rfl
  | cons k e d cs ss ihcs ihss =>
    have ⟨_, he, _, _, hcs, hss⟩ := hF
    obtain ⟨hd, hheldcs, hheldss⟩ := hheld
    by_cases hlen : p.length < c.pageSize
    · rw [matchFrom_short c hlen]
      refine .zero fun q hq hqp => ?_
      exact absurd (hq.page_le.trans hqp.length_le) (not_le.mpr hlen)
    rw [not_lt] at hlen
    by_cases hk : k = c.paging.keyOf p
    · rw [matchFrom_cons c hlen hk]
      obtain ⟨u, p', e', rfl, rfl, hu, hapart⟩ := c.paging.exists_common p e
      have hudvd : c.paging.page ∣ u.length := hu ▸ c.paging.dvd_align _
      rw [← hu]
      rcases hany : d.anyTenant with _ | t
      · exact absurd hd (anyTenant_eq_none_iff.mp hany)
      have ht := holds_of_anyTenant hany
      have hts := fun t' => @mem_matchedTenants d _ (owners_stamped c hany now) t'
      split_ifs with hu0 hlt
      · refine .zero fun q hq hqp => ?_
        obtain rfl := length_eq_zero_iff.mp hu0
        obtain ⟨q', -, -, -, h⟩ := dataAt_cons_beyond hF hudvd hapart hk hq hqp
          fun h => hq.1 (prefix_nil.mp h)
        rw [h]
        exact if_neg he.1
      · refine .within hF hudvd hapart hk hu0 ?_ ht hts
        rintro rfl
        simp at hlt
      · have he' : e' = [] := by
          rw [length_append] at hlt
          exact length_eq_zero_iff.mp (by omega)
        subst he'
        rw [append_nil] at hF ⊢
        rw [drop_left]
        refine .below hF ht hts (ihcs hcs hheldcs ?_ _)
        rw [length_append] at hp
        exact (Nat.dvd_add_right hudvd).mp hp
    · rw [matchFrom_beside c hlen hk]
      exact .beside hF hk (ihss hss hheldss hp now)

end Longest

/-! ## The fused walk -/

section Fused

variable {k : TokenPageKey} {e p : List TokenId} {d : TokenNode} {cs ss : TokenForest}

theorem fuseFrom_short (F : TokenForest) (hp : p.length < c.pageSize) (ts : UInt64)
    (frozen : Bool) : fuseFrom c ts F p frozen = ⟨F, 0, none, [], p⟩ := by
  rcases F with _ | ⟨k, e, d, cs, ss⟩
  · rfl
  · rw [fuseFrom, if_pos hp]

theorem fuseFrom_beside (hp : c.pageSize ≤ p.length) (hk : k ≠ c.paging.keyOf p) (ts : UInt64)
    (frozen : Bool) :
    fuseFrom c ts (cons k e d cs ss) p frozen =
      { fuseFrom c ts ss p frozen with
        forest := cons k e d cs (fuseFrom c ts ss p frozen).forest } := by
  rw [fuseFrom, if_neg (not_lt.mpr hp), pageKeyOf_eq, if_neg hk]

/-- The fused walk at an edge with the right key: it stops there, with or without a stamp, or goes
on below, with the match frozen if it left no stamp. -/
theorem fuseFrom_cons (hp : c.pageSize ≤ p.length) (hk : k = c.paging.keyOf p) (ts : UInt64)
    (frozen : Bool) :
    fuseFrom c ts (cons k e d cs ss) p frozen =
      if c.paging.common p e = 0 then ⟨cons k e d cs ss, 0, none, [], p⟩
      else
        match if frozen then none else d.touchAnyTenant c.entries ts c.trackLfu with
        | none =>
          if c.paging.common p e < e.length then ⟨cons k e d cs ss, 0, none, [], p⟩
          else
            let r := fuseFrom c ts cs (p.drop (c.paging.common p e)) true
            ⟨cons k e d r.forest ss, r.matched, r.deepest, (k, none) :: r.path, r.remaining⟩
        | some (t, d') =>
          if c.paging.common p e < e.length then
            ⟨cons k e d' cs ss, c.paging.common p e, some (t, d'.matchedTenants), [], p⟩
          else
            let r := fuseFrom c ts cs (p.drop (c.paging.common p e)) false
            ⟨cons k e d' r.forest ss, c.paging.common p e + r.matched,
              r.deepest.or (some (t, d'.matchedTenants)), (k, some t) :: r.path, r.remaining⟩ := by
  rw [fuseFrom, if_neg (not_lt.mpr hp)]
  exact if_pos hk

theorem fuseFrom_frozen (F : TokenForest) (p : List TokenId) (ts : UInt64) :
    (fuseFrom c ts F p true).matched = 0 ∧ (fuseFrom c ts F p true).deepest = none := by
  induction F generalizing p with
  | nil => exact ⟨rfl, rfl⟩
  | cons k e d cs ss ihcs ihss =>
    by_cases hp : p.length < c.pageSize
    · rw [fuseFrom_short c _ hp]
      exact ⟨rfl, rfl⟩
    rw [not_lt] at hp
    by_cases hk : k = c.paging.keyOf p
    · rw [fuseFrom_cons c hp hk, if_pos rfl]
      simp only
      split_ifs
      · exact ⟨rfl, rfl⟩
      · exact ⟨rfl, rfl⟩
      · exact ihcs _
    · rw [fuseFrom_beside c hp hk]
      exact ihss p

/-- **The fused walk answers as a match does.** -/
theorem fuseFrom_result (F : TokenForest) (p : List TokenId) (ts now : UInt64) :
    (fuseFrom c ts F p false).matched = (matchFrom c F p now).matched ∧
      (fuseFrom c ts F p false).deepest = (matchFrom c F p now).deepest := by
  induction F generalizing p now with
  | nil => exact ⟨rfl, rfl⟩
  | cons k e d cs ss ihcs ihss =>
    by_cases hp : p.length < c.pageSize
    · rw [fuseFrom_short c _ hp, matchFrom_short c hp]
      exact ⟨rfl, rfl⟩
    rw [not_lt] at hp
    by_cases hk : k = c.paging.keyOf p
    · rw [fuseFrom_cons c hp hk, matchFrom_cons c hp hk, if_neg Bool.false_ne_true]
      rcases hany : d.anyTenant with _ | t
      · rw [touchAnyTenant_eq_none hany]
        simp only
        split_ifs
        · exact ⟨rfl, rfl⟩
        · exact ⟨rfl, rfl⟩
        · exact fuseFrom_frozen c cs _ ts
      · obtain ⟨d', htouch, htenants⟩ :=
          @touchAnyTenant_eq_some c.entries t ts c.trackLfu d hany
        have hnamed : d'.matchedTenants =
            (d.getAnyTenant.2.touchTenant c.entries t now c.trackLfu).matchedTenants := by
          rw [matchedTenants, matchedTenants, owners_stamped c hany, htenants,
            keys_write hany]
        rw [htouch]
        simp only
        split_ifs
        · exact ⟨rfl, rfl⟩
        · exact ⟨rfl, by rw [hnamed]⟩
        · obtain ⟨ih1, ih2⟩ := ihcs (p.drop (c.paging.common p e)) (now + 1)
          exact ⟨by rw [ih1], by rw [ih2, hnamed]⟩
    · rw [fuseFrom_beside c hp hk, matchFrom_beside c hp hk]
      exact ihss p now

theorem owners_of_touchAnyTenant {t : TenantId} {ts : UInt64} {d' : TokenNode} {frozen : Bool}
    (h : (if frozen then none else d.touchAnyTenant c.entries ts c.trackLfu) = some (t, d')) :
    d'.owners = d.owners ∧ d.holds t = true := by
  rcases frozen with _ | _
  · rcases hany : d.anyTenant with _ | t'
    · rw [touchAnyTenant_eq_none hany] at h
      cases h
    · obtain ⟨d'', htouch, htenants⟩ :=
        @touchAnyTenant_eq_some c.entries t' ts c.trackLfu d hany
      rw [htouch] at h
      cases h
      refine ⟨owners_of_keys ?_, holds_of_anyTenant hany⟩
      rw [htenants, keys_write hany]
  · cases h

/-- What the walk has done when it stops or goes on. -/
structure Walked (F : TokenForest) (p : List TokenId) (w : Fused) : Prop where
  owners : owners w.forest = owners F
  stopped : w.path = [] → w.remaining = p
  key : ∀ x path, w.path = x :: path → x.1 = c.paging.keyOf p

theorem Walked.stop {F F' : TokenForest} (h : TokenTree.owners F' = TokenTree.owners F)
    (p : List TokenId) (m : Nat) (deepest : Option (TenantId × List TenantId)) :
    Walked c F p ⟨F', m, deepest, [], p⟩ :=
  ⟨h, fun _ => rfl, fun _ _ h => nomatch h⟩

/-- One edge further up. -/
theorem Walked.down {q : List TokenId} {w : Fused} (h : Walked c cs q w) {d' : TokenNode}
    (hd' : d'.owners = d.owners) (hk : k = c.paging.keyOf p) (m : Nat)
    (deepest : Option (TenantId × List TenantId)) (st : Option TenantId) :
    Walked c (cons k e d cs ss) p
      ⟨cons k e d' w.forest ss, m, deepest, (k, st) :: w.path, w.remaining⟩ := by
  refine ⟨?_, fun h => (nomatch h), fun x path h => ?_⟩
  · show cons k e _ (TokenTree.owners _) _ = cons k e _ _ _
    rw [hd', h.owners]
    rfl
  · exact (cons.inj h).1 ▸ hk

theorem walked_fuseFrom (F : TokenForest) (p : List TokenId) (ts : UInt64) (frozen : Bool) :
    Walked c F p (fuseFrom c ts F p frozen) := by
  induction F generalizing p frozen with
  | nil => exact .stop c rfl _ _ _
  | cons k e d cs ss ihcs ihss =>
    by_cases hp : p.length < c.pageSize
    · rw [fuseFrom_short c _ hp]
      exact .stop c rfl _ _ _
    rw [not_lt] at hp
    by_cases hk : k = c.paging.keyOf p
    · rw [fuseFrom_cons c hp hk]
      split
      · exact .stop c rfl _ _ _
      · split
        · split
          · exact .stop c rfl _ _ _
          · exact (ihcs _ true).down c rfl hk _ _ _
        · rename_i t d' hstamp
          have hd' := (owners_of_touchAnyTenant c hstamp).1
          split
          · refine .stop c ?_ _ _ _
            show cons k e _ _ _ = cons k e _ _ _
            rw [hd']
          · exact (ihcs _ false).down c hd' hk _ _ _
    · rw [fuseFrom_beside c hp hk]
      have ih := ihss p frozen
      refine ⟨?_, ih.stopped, ih.key⟩
      show cons k e _ _ (TokenTree.owners _) = cons k e _ _ _
      rw [ih.owners]
      rfl

/-! ### Replay and splice -/

def resume (t : TenantId) (ts now : UInt64) (w : Fused) :
    Inserted TokenPageKey TokenId TokenNode :=
  let r := replay c t ts w.forest w.path
  let spliced :=
    if w.remaining.length < c.pageSize then ⟨r.forest, 0, false⟩
    else spliceAt c t ts now r.forest (w.path.map Prod.fst) w.remaining
  { spliced with added := r.added + spliced.added }

variable {t : TenantId} {ts now : UInt64} {w : Fused}

theorem resume_stop (hpath : w.path = []) (hrest : c.pageSize ≤ w.remaining.length) :
    resume c t ts now w = insertFrom c t ts now w.forest w.remaining := by
  rw [resume, hpath]
  simp only [replay, map_nil]
  rw [if_neg (not_lt.mpr hrest), zero_add, spliceAt, insertAt]
  rfl

theorem resume_short (hpath : w.path = []) (hrest : w.remaining.length < c.pageSize) :
    resume c t ts now w = ⟨w.forest, 0, false⟩ := by
  rw [resume, hpath]
  simp [replay, if_pos hrest]

def replayNode (t : TenantId) (ts : UInt64) (st : Option TenantId) (d : TokenNode) : TokenNode :=
  if st = some t ∧ d.holds t then d.hit c.trackLfu else d.touchTenant c.entries t ts c.trackLfu

theorem owners_replayNode (st : Option TenantId) (d : TokenNode) :
    (replayNode c t ts st d).owners = fun t' => d.owners t' || decide (t' = t) := by
  funext t'
  rw [replayNode]
  split
  · rename_i h
    show d.holds t' = (d.holds t' || decide (t' = t))
    rw [eq_comm, Bool.or_eq_left_iff_imp]
    intro ht
    rw [of_decide_eq_true ht]
    exact h.2
  · exact TokenNode.holds_touchTenant _ _ _ _ _ _

/-- The replay of an edge: its node is done, and the rest goes on below. -/
theorem resume_down (m : Nat) (deepest : Option (TenantId × List TenantId)) (st : Option TenantId) :
    resume c t ts now ⟨cons k e d w.forest ss, m, deepest, (k, st) :: w.path, w.remaining⟩ =
      ⟨cons k e (replayNode c t ts st d) (resume c t ts now w).forest ss,
        credit (newlyAttached t) d e.length + (resume c t ts now w).added,
        (resume c t ts now w).created⟩ := by
  rw [resume, resume]
  simp only [replay, if_true, map_cons, spliceAt, replayNode, credit]
  by_cases hst : st = some t ∧ d.holds t = true
  · have hnew : d.newlyAttached t = false := by
      rw [newlyAttached, hst.2]
      rfl
    simp only [if_pos hst, hnew, Bool.false_eq_true, if_false, zero_add, insertAt, if_true]
    split <;> rfl
  · simp only [if_neg hst, add_assoc, insertAt, if_true]
    split <;> rfl

theorem resume_beside {x : TokenPageKey × Option TenantId}
    {path : List (TokenPageKey × Option TenantId)} (hpath : w.path = x :: path) (hk : k ≠ x.1) :
    resume c t ts now { w with forest := cons k e d cs w.forest } =
      ⟨cons k e d cs (resume c t ts now w).forest, (resume c t ts now w).added,
        (resume c t ts now w).created⟩ := by
  rw [resume, resume, hpath]
  simp only [replay, if_neg hk, map_cons, spliceAt, insertAt]
  split <;> rfl

variable (d cs ss) in
theorem fuseFrom_shape (hp : c.pageSize ≤ p.length) (ts : UInt64) (frozen : Bool) :
    (fuseFrom c ts (cons k e d cs ss) p frozen).path = [] ∨
      (k = c.paging.keyOf p ∧ c.paging.common p e = e.length ∧ c.paging.common p e ≠ 0 ∧
        ∃ frozen' d' m deepest st, d'.owners = d.owners ∧
          fuseFrom c ts (cons k e d cs ss) p frozen =
            ⟨cons k e d' (fuseFrom c ts cs (p.drop e.length) frozen').forest ss, m, deepest,
              (k, st) :: (fuseFrom c ts cs (p.drop e.length) frozen').path,
              (fuseFrom c ts cs (p.drop e.length) frozen').remaining⟩) ∨
      (k ≠ c.paging.keyOf p ∧
        fuseFrom c ts (cons k e d cs ss) p frozen =
          { fuseFrom c ts ss p frozen with
            forest := cons k e d cs (fuseFrom c ts ss p frozen).forest }) := by
  by_cases hk : k = c.paging.keyOf p
  · have hle : c.paging.common p e ≤ e.length :=
      (c.paging.align_le _).trans (commonLen_le_right p e)
    rw [fuseFrom_cons c hp hk]
    split
    · exact .inl rfl
    · rename_i h0
      split
      · split
        · exact .inl rfl
        · have hfull : c.paging.common p e = e.length := by omega
          rw [hfull] at h0 ⊢
          exact .inr (.inl ⟨hk, rfl, h0, true, d, _, _, none, rfl, rfl⟩)
      · rename_i t d' hstamp
        split
        · exact .inl rfl
        · have hfull : c.paging.common p e = e.length := by omega
          rw [hfull] at h0 ⊢
          exact .inr (.inl ⟨hk, rfl, h0, false, d', _, _, some t,
            (owners_of_touchAnyTenant c hstamp).1, rfl⟩)
  · exact .inr (.inr ⟨hk, fuseFrom_beside c hp hk ts frozen⟩)

theorem lostEdge_fuseFrom (F : TokenForest) (p : List TokenId) (frozen : Bool) :
    (replay c t ts (fuseFrom c ts F p frozen).forest (fuseFrom c ts F p frozen).path).lostEdge =
      false := by
  induction F generalizing p frozen with
  | nil => rfl
  | cons k e d cs ss ihcs ihss =>
    by_cases hp : p.length < c.pageSize
    · rw [fuseFrom_short c _ hp]
      rfl
    rw [not_lt] at hp
    rcases fuseFrom_shape c d cs ss hp ts frozen with
      hstop | ⟨-, -, -, frozen', d', m, deepest, st, -, h⟩ | ⟨hk, h⟩
    · rw [hstop, replay]
    · rw [h, replay, if_pos rfl]
      split <;> exact ihcs _ frozen'
    · rw [h]
      have ih := ihss p frozen
      have hkey := (walked_fuseFrom c ss p ts frozen).key
      rcases hpath : (fuseFrom c ts ss p frozen).path with _ | ⟨x, path⟩
      · rfl
      · have hne : k ≠ x.1 := fun heq => hk (heq.trans (hkey x path hpath))
        rw [hpath] at ih
        rw [replay, if_neg hne]
        exact ih

theorem insertOwner_down (hk : k = c.paging.keyOf p) (hfull : c.paging.common p e = e.length)
    (h0 : c.paging.common p e ≠ 0) :
    insertOwner c t (owners (cons k e d cs ss)) p =
      if (p.drop e.length).length < c.pageSize then
        ⟨cons k e (fun t' => d.owners t' || decide (t' = t)) (owners cs) (owners ss),
          credit (newlyAttached t) d e.length, false⟩
      else
        ⟨cons k e (fun t' => d.owners t' || decide (t' = t))
            (insertOwner c t (owners cs) (p.drop e.length)).forest (owners ss),
          credit (newlyAttached t) d e.length +
            (insertOwner c t (owners cs) (p.drop e.length)).added,
          (insertOwner c t (owners cs) (p.drop e.length)).created⟩ := by
  rw [insertOwner, owners, Forest.map, Forest.insert, if_pos hk]
  rw [hfull] at h0
  simp only [hfull, if_neg h0, length_drop]
  rfl

/-- **Replay and splice insert the owner**, as an insert from the root would. -/
theorem owners_resume (F : TokenForest) (p : List TokenId) (hp : c.pageSize ≤ p.length)
    (frozen : Bool) :
    insertOwner c t (owners F) p =
      (resume c t ts now (fuseFrom c ts F p frozen)).map TokenNode.owners := by
  -- where the walk stops at once everything is left to the splice
  have hstop : ∀ (F : TokenForest) (p : List TokenId) (frozen : Bool), c.pageSize ≤ p.length →
      (fuseFrom c ts F p frozen).path = [] → insertOwner c t (owners F) p =
        (resume c t ts now (fuseFrom c ts F p frozen)).map TokenNode.owners := by
    intro F p frozen hp hpath
    have hw := walked_fuseFrom c F p ts frozen
    have hrest := hw.stopped hpath
    rw [resume_stop c hpath (by rwa [hrest]), hrest, ← owners_insertFrom, hw.owners]
  induction F generalizing p frozen with
  | nil => exact hstop _ _ _ hp rfl
  | cons k e d cs ss ihcs ihss =>
    rcases fuseFrom_shape c d cs ss hp ts frozen with
      hpath | ⟨hk, hfull, h0, frozen', d', m, deepest, st, hd', h⟩ | ⟨hk, h⟩
    · exact hstop _ _ _ hp hpath
    · have hcredit : credit (newlyAttached t) d' e.length =
          credit (newlyAttached t) d e.length := by
        have : d'.newlyAttached t = d.newlyAttached t := by
          show (!d'.owners t) = !d.owners t
          rw [hd']
        rw [credit, credit, this]
      rw [insertOwner_down c hk hfull h0, h, resume_down, hcredit]
      by_cases hrest : (p.drop e.length).length < c.pageSize
      · rw [if_pos hrest, fuseFrom_short c cs hrest, resume_short c rfl hrest]
        show _ = (⟨cons k e (replayNode c t ts st d').owners (owners cs) (owners ss), _, _⟩ :
          Inserted ..)
        rw [owners_replayNode, hd']
        rfl
      · rw [if_neg hrest, ihcs _ (not_lt.mp hrest) frozen']
        show _ = (⟨cons k e (replayNode c t ts st d').owners (owners _) (owners ss), _, _⟩ :
          Inserted ..)
        rw [owners_replayNode, hd']
        rfl
    · have hw := walked_fuseFrom c ss p ts frozen
      rcases hpath : (fuseFrom c ts ss p frozen).path with _ | ⟨x, path⟩
      · exact hstop _ _ _ hp (by rw [h]; exact hpath)
      · have hne : k ≠ x.1 := fun heq => hk (heq.trans (hw.key x path hpath))
        rw [h, resume_beside c hpath hne]
        show insertOwner c t (cons k e d.owners (owners cs) (owners ss)) p = _
        rw [insertOwner, Forest.insert, if_neg hk]
        show (⟨cons k e d.owners (owners cs) (insertOwner c t (owners ss) p).forest,
          (insertOwner c t (owners ss) p).added, (insertOwner c t (owners ss) p).created⟩ :
            Inserted ..) = _
        rw [ihss p hp frozen]
        rfl

theorem owners_insertReplay (F : TokenForest) {tokens : List TokenId} (hp : c.pageSize ≤ p.length)
    (frozen : Bool) : insertOwner c t (owners F) p =
      (insertReplay c t ts now tokens (fuseFrom c ts F p frozen)).map TokenNode.owners := by
  have : insertReplay c t ts now tokens (fuseFrom c ts F p frozen) =
      resume c t ts now (fuseFrom c ts F p frozen) := by
    rw [insertReplay, resume]
    simp only [lostEdge_fuseFrom, Bool.false_eq_true, if_false]
  rw [this]
  exact owners_resume c F p hp frozen

end Fused

end TokenTree
end Smg.KvIndex
