import Smg.Mesh.EpochMaxWins

/-!
# What rate-limit states mean, and that merging joins meanings

A state is a set of facts in the sense of `Smg.Lib.Frontier`: a point for each live point, a
deletion for its tombstone.  Its meaning `den` is the lower set they generate.

* `den_merge` — merging joins the meanings, whatever the states;
* `normal_merge` — the result is normal, where a version stands for one point only;
* `eq_of_den_eq` — normal states with one meaning are equal, so merging is associative,
  commutative and idempotent without further ado (`rateLimit_merge_join`);
* `currentValue_merge` — a merge reads as the best value written after the newer deletion;
* `compactFrom_spec` — folding operations joins their meanings;
* `operationState_intoOperation` — a state turned into an operation is read back from it.
-/

set_option autoImplicit false

namespace Smg.Mesh

open RateLimitState LivePoint List
open Option hiding filter_filter
open RateLimitShard (survives fromLivePoint)

/-! ## Merging is a sweep -/

variable {p : LivePoint} {t : Option Version}

namespace RateLimitShard

theorem frontierFrom_eq_scan (best : Option EpochCount) (l : List LivePoint) :
    frontierFrom best l = scan value best l := by
  induction l generalizing best with
  | nil => rfl
  | cons p l ih =>
    cases best with
    | none => simp [frontierFrom, scan, ih]
    | some b =>
      rw [frontierFrom, scan]
      by_cases h : b < p.value
      · have hl := compareEpochCount_iff.1.mpr h
        have hr := compareEpochCount_iff.2.mpr h
        simp [hl, hr, h, ih]
      · have hl := mt compareEpochCount_iff.1.mp h
        simp [hl, h, ih]

theorem survives_iff : survives t p = true ↔ ∀ v ∈ t, v < p.version := by
  cases t <;> simp [survives]

end RateLimitShard

/-! ## Meanings -/

def LivePoint.fact (p : LivePoint) : Fact Version EpochCount := .point p.version p.value

theorem LivePoint.fact_injective : Function.Injective fact := by
  intro p q h
  rw [fact, fact, Fact.point.injEq] at h
  exact LivePoint.ext h.2 h.1

def tombFacts (t : Option Version) : List (Fact Version EpochCount) := t.toList.map .tomb

variable {f : Fact Version EpochCount}

@[simp] theorem mem_tombFacts : f ∈ tombFacts t ↔ ∃ v ∈ t, .tomb v = f := by
  simp [tombFacts]

variable {s a b c : RateLimitState}

namespace RateLimitState

def livePoints : RateLimitState → List LivePoint
  | live s => s.livePoints
  | tombstone _ => []

def facts (s : RateLimitState) : List (Fact Version EpochCount) :=
  s.livePoints.map LivePoint.fact ++ tombFacts s.tombstoneVersion

def den (s : RateLimitState) : LowerSet (Fact Version EpochCount) := Fact.knows s.facts

/-- What an optional state means: nothing when there is none. -/
def denOf (o : Option RateLimitState) : LowerSet (Fact Version EpochCount) := o.elim ⊥ den

@[simp] theorem denOf_none : denOf none = ⊥ := rfl

@[simp] theorem denOf_some (s : RateLimitState) : denOf (some s) = s.den := rfl

theorem mem_facts :
    f ∈ s.facts ↔ (∃ p ∈ s.livePoints, p.fact = f) ∨ ∃ v ∈ s.tombstoneVersion, .tomb v = f := by
  simp [facts]

theorem livePointsAfterTombstone_eq (s : RateLimitState) (t : Option Version) :
    s.livePointsAfterTombstone t = s.livePoints.filter (survives t) := by
  cases s <;> rfl

theorem mem_maxVersion {s : Option Version} {v : Version} (h : v ∈ maxVersion s t) :
    v ∈ s ∨ v ∈ t := by
  cases s with
  | none => exact .inr h
  | some a =>
    cases t with
    | none => exact .inl h
    | some b =>
      rw [maxVersion, mem_some_iff] at h
      rcases max_choice a b with hm | hm
      · exact .inl (by rw [← h, hm]; rfl)
      · exact .inr (by rw [← h, hm]; rfl)

theorem exists_mem_maxVersion {s : Option Version} {v : Version} (h : v ∈ s ∨ v ∈ t) :
    ∃ u ∈ maxVersion s t, v ≤ u := by
  cases s with
  | none => exact ⟨v, h.resolve_left (by simp), le_rfl⟩
  | some a =>
    cases t with
    | none => exact ⟨v, h.resolve_right (by simp), le_rfl⟩
    | some b =>
      refine ⟨max a b, rfl, ?_⟩
      rcases h with h | h
      · exact (mem_some_iff.mp h) ▸ le_max_left a b
      · exact (mem_some_iff.mp h) ▸ le_max_right a b

def mergePoints (a b : RateLimitState) : List LivePoint :=
  (a.livePoints ++ b.livePoints).filter
    (survives (maxVersion a.tombstoneVersion b.tombstoneVersion))

abbrev newer (a b : RateLimitState) : Option Version :=
  maxVersion a.tombstoneVersion b.tombstoneVersion

/-- **A merge, in one piece**: the frontier of the surviving points under the newer tombstone. -/
theorem merge_eq (a b : RateLimitState) :
    a.merge b =
      if (mergePoints a b).isEmpty then (newer a b).map tombstone
      else some (live ⟨frontier version value (mergePoints a b), newer a b⟩) := by
  have hf : (a.livePointsAfterTombstone (newer a b) ++
      b.livePointsAfterTombstone (newer a b)).filter (survives (newer a b)) =
      mergePoints a b := by
    rw [livePointsAfterTombstone_eq, livePointsAfterTombstone_eq, ← filter_append,
      filter_filter, mergePoints]
    simp
  rw [merge, RateLimitShard.merged, hf]
  simp only [RateLimitShard.frontierFrom_eq_scan]
  by_cases h : (mergePoints a b).isEmpty
  · rw [if_pos h, if_pos h]
  · rw [if_neg h, if_neg h]
    rfl

theorem merge_spec (h : a.merge b = some c) :
    c.livePoints = frontier version value (mergePoints a b) ∧ c.tombstoneVersion = newer a b ∧
      ∀ shard, c = live shard → shard.livePoints ≠ [] := by
  rw [merge_eq] at h
  split at h
  · rename_i hempty
    obtain ⟨t, ht, rfl⟩ := map_eq_some_iff.mp h
    rw [isEmpty_iff.mp hempty]
    exact ⟨rfl, ht.symm, nofun⟩
  · rename_i hne
    cases h
    refine ⟨rfl, rfl, ?_⟩
    rintro shard ⟨⟩
    obtain ⟨p, hp⟩ := exists_mem_of_ne_nil _ (by simpa using hne)
    obtain ⟨q, hq, -⟩ := frontier_dominates version value hp
    exact ne_nil_of_mem hq

theorem mem_facts_merge :
    f ∈ (a.merge b).elim [] facts ↔
      (∃ p ∈ frontier version value (mergePoints a b), p.fact = f) ∨
      ∃ v ∈ newer a b, .tomb v = f := by
  cases h : a.merge b with
  | none =>
    rw [merge_eq] at h
    split at h
    · rename_i hempty
      have hnil : frontier version value (mergePoints a b) = [] := by
        rw [isEmpty_iff.mp hempty]
        rfl
      simp [hnil, map_eq_none_iff.mp h]
    · cases h
  | some c =>
    obtain ⟨hp, ht, -⟩ := merge_spec h
    rw [elim_some, mem_facts, hp, ht]

theorem den_elim (o : Option RateLimitState) : denOf o = Fact.knows (o.elim [] facts) := by
  cases o with
  | none => exact Fact.knows_nil.symm
  | some s => rfl

theorem mem_mergePoints : p ∈ mergePoints a b ↔ (p ∈ a.livePoints ∨ p ∈ b.livePoints) ∧
      ∀ v ∈ newer a b, v < p.version := by
  rw [mergePoints, mem_filter, mem_append, RateLimitShard.survives_iff]

theorem mem_facts_append : f ∈ a.facts ++ b.facts ↔
    (∃ p, (p ∈ a.livePoints ∨ p ∈ b.livePoints) ∧ p.fact = f) ∨
      ∃ v, (v ∈ a.tombstoneVersion ∨ v ∈ b.tombstoneVersion) ∧ .tomb v = f := by
  simp only [mem_append, mem_facts, or_and_right, exists_or, or_or_or_comm]

/-- **Merging joins meanings.** -/
theorem den_merge (a b : RateLimitState) : denOf (a.merge b) = a.den ⊔ b.den := by
  rw [den_elim, den, den, ← Fact.knows_append]
  refine le_antisymm (Fact.knows_mono fun f hf => ?_) (Fact.knows_mono fun f hf => ?_)
  · -- every fact of the merge is one of the two states'
    refine ⟨f, mem_facts_append.mpr ?_, le_rfl⟩
    rcases mem_facts_merge.mp hf with ⟨p, hp, rfl⟩ | ⟨v, hv, rfl⟩
    · exact .inl ⟨p, (mem_mergePoints.mp (mem_of_mem_frontier hp)).1, rfl⟩
    · exact .inr ⟨v, mem_maxVersion hv, rfl⟩
  · -- every fact of the two states is redundant given the merge
    rcases mem_facts_append.mp hf with ⟨p, hp, rfl⟩ | ⟨v, hv, rfl⟩
    · by_cases hs : ∀ v ∈ newer a b, v < p.version
      · obtain ⟨q, hq, hle⟩ := frontier_dominates version value
          (mem_mergePoints.mpr ⟨hp, hs⟩)
        exact ⟨q.fact, mem_facts_merge.mpr (.inl ⟨q, hq, rfl⟩), hle⟩
      · push Not at hs
        obtain ⟨v, hv, hle⟩ := hs
        exact ⟨.tomb v, mem_facts_merge.mpr (.inr ⟨v, hv, rfl⟩), hle⟩
    · obtain ⟨u, hu, hle⟩ := exists_mem_maxVersion hv
      exact ⟨.tomb u, mem_facts_merge.mpr (.inr ⟨u, hu, rfl⟩), hle⟩

theorem den_ne_bot (h : s.facts ≠ []) : s.den ≠ ⊥ := by
  intro hbot
  obtain ⟨f, hf⟩ := exists_mem_of_ne_nil _ h
  have : f ∈ s.den := Fact.mem_knows.mpr ⟨f, hf, le_rfl⟩
  rw [hbot] at this
  exact this

theorem exists_merge (h : a.facts ≠ []) : ∃ c, a.merge b = some c := by
  cases hc : a.merge b with
  | none =>
    have hden := den_merge a b
    rw [hc, denOf_none] at hden
    exact absurd (sup_eq_bot_iff.mp hden.symm).1 (den_ne_bot h)
  | some c => exact ⟨c, rfl⟩

/-! ## Normal states -/

/-- A state in the form merging leaves it in. -/
structure Normal (s : RateLimitState) : Prop where
  /-- A live state has a live point. -/
  nonempty : ∀ shard, s = live shard → shard.livePoints ≠ []
  sorted : s.livePoints.Pairwise fun p q => p.version < q.version
  /-- Newer points have smaller values. -/
  undominated : ∀ p ∈ s.livePoints, ∀ q ∈ s.livePoints, p.version < q.version → q.value < p.value
  /-- Points are newer than the tombstone. -/
  alive : ∀ p ∈ s.livePoints, ∀ t ∈ s.tombstoneVersion, t < p.version

theorem normal_tombstone (v : Version) : (tombstone v).Normal where
  nonempty := by simp
  sorted := by simp [livePoints]
  undominated := by simp [livePoints]
  alive := by simp [livePoints]

theorem normal_fromLivePoint (p : LivePoint) :
    (live (fromLivePoint p)).Normal where
  nonempty := by rintro shard ⟨⟩; simp [fromLivePoint]
  sorted := by simp [livePoints, fromLivePoint]
  undominated := by simp [livePoints, fromLivePoint]
  alive := by simp [tombstoneVersion, fromLivePoint]

theorem Normal.speaks (h : s.Normal) : s.facts ≠ [] := by
  cases s with
  | live shard =>
    obtain ⟨p, hp⟩ := exists_mem_of_ne_nil _ (h.nonempty shard rfl)
    exact ne_nil_of_mem (mem_facts.mpr (.inl ⟨p, hp, rfl⟩))
  | tombstone v => exact ne_nil_of_mem (mem_facts.mpr (.inr ⟨v, rfl, rfl⟩))

/-- Where a version stands for one point, the result of a merge is normal. -/
theorem normal_merge (hinj : Set.InjOn version {p | p ∈ a.livePoints ∨ p ∈ b.livePoints})
    (h : a.merge b = some c) :
    c.Normal := by
  have hsub : Set.InjOn version {p | p ∈ mergePoints a b} :=
    hinj.mono fun p hp => (mem_mergePoints.mp hp).1
  obtain ⟨hp, ht, hne⟩ := merge_spec h
  refine ⟨hne, ?_, ?_, ?_⟩ <;> rw [hp]
  · exact frontier_strict hsub
  · exact fun p hp q hq => value_lt_of_mem_frontier hp hq
  · rw [ht]
    exact fun p hp => (mem_mergePoints.mp (mem_of_mem_frontier hp)).2

theorem Normal.antichain (h : s.Normal) :
    IsAntichain (· ≤ ·) {f | f ∈ s.facts} := by
  intro f hf g hg hne hle
  rcases mem_facts.mp hf with ⟨p, hp, rfl⟩ | ⟨v, hv, rfl⟩
  · rcases mem_facts.mp hg with ⟨q, hq, rfl⟩ | ⟨t, ht, rfl⟩
    · obtain ⟨hver, hval⟩ := hle
      rcases hver.lt_or_eq with hlt | heq
      · exact absurd hval (not_le.mpr (h.undominated p hp q hq hlt))
      · have hinj : p = q := by
          by_contra hpq
          have hsymm : Std.Symm fun p q : LivePoint => p.version ≠ q.version :=
            ⟨fun _ _ h => h.symm⟩
          exact Pairwise.forall
            (h.sorted.imp fun h => h.ne) hp hq hpq heq
        exact hne (hinj ▸ rfl)
    · exact absurd hle (not_le.mpr (h.alive p hp t ht))
  · rcases mem_facts.mp hg with ⟨q, hq, rfl⟩ | ⟨t, ht, rfl⟩
    · exact hle
    · exact hne (by rw [mem_unique hv ht])

/-- **Normal states with one meaning are equal.** -/
theorem eq_of_den_eq (ha : a.Normal) (hb : b.Normal) (h : a.den = b.den) :
    a = b := by
  have hfacts := Fact.mem_iff_of_knows_eq ha.antichain hb.antichain h
  have hpoints : ∀ p, p ∈ a.livePoints ↔ p ∈ b.livePoints := by
    intro p
    have := hfacts p.fact
    rw [mem_facts, mem_facts] at this
    have hne : ∀ v, Fact.tomb v ≠ p.fact := by simp [fact]
    simpa [fact_injective.eq_iff, hne] using this
  have htombs : ∀ v, v ∈ a.tombstoneVersion ↔ v ∈ b.tombstoneVersion := by
    intro v
    have := hfacts (.tomb v)
    rw [mem_facts, mem_facts] at this
    simpa [fact] using this
  have hp : a.livePoints = b.livePoints := by
    have hnodup : ∀ {s : RateLimitState}, s.Normal → s.livePoints.Nodup := fun hs =>
      hs.sorted.imp fun {p q} hlt (e : p = q) => absurd hlt (e ▸ lt_irrefl _)
    have hperm := (perm_ext_iff_of_nodup (hnodup ha) (hnodup hb)).mpr hpoints
    exact hperm.eq_of_pairwise (fun p q _ _ hpq hqp => absurd hpq (lt_asymm hqp)) ha.sorted
      hb.sorted
  have ht : a.tombstoneVersion = b.tombstoneVersion := ext htombs
  cases a with
  | live s =>
    cases b with
    | live s' =>
      obtain ⟨p', t'⟩ := s'
      cases hp
      cases ht
      rfl
    | tombstone v => exact absurd hp (ha.nonempty s rfl)
  | tombstone v =>
    cases b with
    | live s => exact absurd hp.symm (hb.nonempty s rfl)
    | tombstone v' =>
      cases ht
      rfl

theorem merge_eq_self (ha : a.Normal)
    (hinj : Set.InjOn version {p | p ∈ a.livePoints ∨ p ∈ b.livePoints}) (h : b.den ≤ a.den) :
    a.merge b = some a := by
  obtain ⟨c, hc⟩ := exists_merge ha.speaks
  have hden := den_merge a b
  rw [hc, sup_eq_left.mpr h] at hden
  rw [hc, eq_of_den_eq (normal_merge hinj hc) ha hden]

end RateLimitState

/-! ## States over one set of points

Versions are unique per write, so the points that ever occur form a set on which the version
determines the point. -/

/-- A normal state with something to say whose points are from `S`. -/
structure Sound (S : Set LivePoint) (s : RateLimitState) : Prop where
  normal : s.Normal
  fromSet : ∀ p ∈ s.livePoints, p ∈ S
  speaks : s.facts ≠ []

section Sound

variable {S : Set LivePoint} (hS : Set.InjOn LivePoint.version S)

include hS in
/-- Merging sound states joins their meanings and gives a sound state. -/
theorem Sound.merge (ha : Sound S a) (hb : Sound S b) :
    ∃ c, a.merge b = some c ∧ Sound S c ∧ c.den = a.den ⊔ b.den := by
  obtain ⟨c, hc⟩ := exists_merge ha.speaks
  have hinj : Set.InjOn version {p | p ∈ a.livePoints ∨ p ∈ b.livePoints} :=
    hS.mono fun p hp => hp.elim (ha.fromSet p) (hb.fromSet p)
  refine ⟨c, hc, ⟨normal_merge hinj hc, fun p hp => ?_,
    (normal_merge hinj hc).speaks⟩, ?_⟩
  · rw [(merge_spec hc).1] at hp
    exact (mem_mergePoints.mp (mem_of_mem_frontier hp)).1.elim (ha.fromSet p) (hb.fromSet p)
  · rw [← den_merge a b, hc, denOf_some]

theorem eq_of_denOf_eq {o o' : Option RateLimitState} (ho : ∀ s ∈ o, Sound S s)
    (ho' : ∀ s ∈ o', Sound S s)
    (h : denOf o = denOf o') : o = o' := by
  cases o with
  | none =>
    cases o' with
    | none => rfl
    | some s => exact absurd h.symm (den_ne_bot (ho' s rfl).speaks)
  | some s =>
    cases o' with
    | none => exact absurd h (den_ne_bot (ho s rfl).speaks)
    | some s' => rw [eq_of_den_eq (ho s rfl).normal (ho' s' rfl).normal h]

end Sound

/-! ## The join of normal states

A normal state always has something to say, so on the normal states over one set of points merging
is a total operation, and `eq_of_denOf_eq` turns the laws of joins of meanings into laws of merging.
-/

namespace RateLimitState

/-- A normal state whose points are from `S`. -/
def NormalOver (S : Set LivePoint) (s : RateLimitState) : Prop :=
  s.Normal ∧ ∀ p ∈ s.livePoints, p ∈ S

def currentValue : RateLimitState → Option EpochCount
  | live s => s.currentValue
  | tombstone _ => none

/-- The values written in either state after the newer of the two deletions. -/
def survivingValues (a b : RateLimitState) : Set EpochCount :=
  {w | ∃ p : LivePoint, (p ∈ a.livePoints ∨ p ∈ b.livePoints) ∧
    (∀ t, t ∈ a.tombstoneVersion ∨ t ∈ b.tombstoneVersion → t < p.version) ∧ p.value = w}

theorem NormalOver.sound {S : Set LivePoint} (h : NormalOver S s) : Sound S s :=
  ⟨h.1, h.2, h.1.speaks⟩

/-- Reducing with the value comparison gives the greatest value. -/
theorem isGreatest_foldl (v : EpochCount) (vs : List EpochCount) :
    IsGreatest {w | w ∈ v :: vs} (vs.foldl (fun current candidate =>
      match compareEpochCount current candidate with
      | .remoteValue => candidate
      | _ => current) v) := by
  have hstep : (fun current candidate => match compareEpochCount current candidate with
      | .remoteValue => candidate
      | _ => current) = max := by
    funext current candidate
    cases h : compareEpochCount current candidate with
    | remoteValue => exact (sup_of_le_right (compareEpochCount_iff.2.mp h).le).symm
    | localValue | equal =>
      refine (sup_of_le_left (not_lt.mp fun hlt => ?_)).symm
      rw [compareEpochCount_iff.2.mpr hlt] at h
      cases h
  rw [hstep]
  exact ⟨List.max_mem (cons_ne_nil v vs), fun w hw => List.le_max_of_mem hw⟩

theorem currentValue_eq_some {v : EpochCount} :
    s.currentValue = some v ↔ IsGreatest {w | ∃ p ∈ s.livePoints, p.value = w} v := by
  have hset : {w | ∃ p ∈ s.livePoints, p.value = w} = {w | w ∈ s.livePoints.map (·.value)} := by
    simp
  rw [hset]
  cases s with
  | tombstone t =>
    refine ⟨nofun, fun h => ?_⟩
    simpa [livePoints] using h.1
  | live shard =>
    rw [currentValue, RateLimitShard.currentValue, livePoints]
    cases shard.livePoints.map (·.value) with
    | nil =>
      refine ⟨nofun, fun h => ?_⟩
      simpa using h.1
    | cons u us =>
      have hg := isGreatest_foldl u us
      constructor
      · rintro ⟨⟩
        exact hg
      · exact fun h => congrArg some (hg.unique h)

theorem forall_maxVersion_lt {s : Option Version} {u : Version} :
    (∀ v ∈ maxVersion s t, v < u) ↔ ∀ v, v ∈ s ∨ v ∈ t → v < u := by
  constructor
  · intro h v hv
    obtain ⟨w, hw, hle⟩ := exists_mem_maxVersion hv
    exact hle.trans_lt (h w hw)
  · exact fun h v hv => h v (mem_maxVersion hv)

/-- **A merge reads as the best value written after the newer deletion.** -/
theorem currentValue_merge (h : a.merge b = some c) (v : EpochCount) :
    c.currentValue = some v ↔ IsGreatest (survivingValues a b) v := by
  have hsurv : survivingValues a b = {w | ∃ p ∈ mergePoints a b, p.value = w} := by
    ext w
    simp only [survivingValues, mem_mergePoints, forall_maxVersion_lt, and_assoc]
  rw [currentValue_eq_some, hsurv, (merge_spec h).1]
  constructor
  · rintro ⟨⟨p, hp, rfl⟩, hup⟩
    refine ⟨⟨p, mem_of_mem_frontier hp, rfl⟩, ?_⟩
    rintro w ⟨q, hq, rfl⟩
    obtain ⟨r, hr, -, hle⟩ := frontier_dominates version value hq
    exact hle.trans (hup ⟨r, hr, rfl⟩)
  · rintro ⟨⟨p, hp, rfl⟩, hup⟩
    obtain ⟨r, hr, -, hle⟩ := frontier_dominates version value hp
    have hrp : r.value = p.value := le_antisymm (hup ⟨r, mem_of_mem_frontier hr, rfl⟩) hle
    refine ⟨⟨r, hr, hrp⟩, ?_⟩
    rintro w ⟨q, hq, rfl⟩
    exact hup ⟨q, mem_of_mem_frontier hq, rfl⟩

end RateLimitState

section Join

variable {S : Set LivePoint} (hS : Set.InjOn LivePoint.version S)

include hS

theorem merge_comm_of_sound (ha : Sound S a) (hb : Sound S b) :
    a.merge b = b.merge a := by
  obtain ⟨d, hd, hds, hdd⟩ := ha.merge hS hb
  obtain ⟨e, he, hes, hed⟩ := hb.merge hS ha
  rw [hd, he, eq_of_den_eq hds.normal hes.normal (by rw [hdd, hed, sup_comm])]

theorem merge_assoc_of_sound (ha : Sound S a) (hb : Sound S b) (hc : Sound S c) :
    (a.merge b).bind (fun d => d.merge c) = (b.merge c).bind fun d => a.merge d := by
  obtain ⟨d, hd, hds, hdd⟩ := ha.merge hS hb
  obtain ⟨e, he, hes, hed⟩ := hb.merge hS hc
  obtain ⟨f, hf, hfs, hfd⟩ := hds.merge hS hc
  obtain ⟨g, hg, hgs, hgd⟩ := ha.merge hS hes
  rw [hd, he, bind_some, bind_some, hf, hg,
    eq_of_den_eq hfs.normal hgs.normal (by rw [hfd, hgd, hdd, hed, sup_assoc])]

theorem merge_idem_of_sound (ha : Sound S a) : a.merge a = some a :=
  merge_eq_self ha.normal
    (hS.mono fun p hp => hp.elim (ha.fromSet p) (ha.fromSet p)) le_rfl

/-- **Merging normal states is a join.**  Over points whose version determines their value it is
commutative, associative and idempotent, its result is normal, and reads as the greatest value among
the points of both states newer than the newer tombstone. -/
theorem rateLimit_merge_join {a b c : RateLimitState} (ha : a.NormalOver S) (hb : b.NormalOver S)
    (hc : c.NormalOver S) :
    (∃ d, a.merge b = some d ∧ b.merge a = some d ∧ d.NormalOver S ∧
      ∀ v, d.currentValue = some v ↔ IsGreatest (a.survivingValues b) v) ∧
    (a.merge b).bind (fun d => d.merge c) = (b.merge c).bind (fun d => a.merge d) ∧
    a.merge a = some a := by
  obtain ⟨d, hd, hds, -⟩ := ha.sound.merge hS hb.sound
  refine ⟨⟨d, hd, ?_, ⟨hds.normal, hds.fromSet⟩, currentValue_merge hd⟩,
    merge_assoc_of_sound hS ha.sound hb.sound hc.sound, merge_idem_of_sound hS ha.sound⟩
  rw [← merge_comm_of_sound hS ha.sound hb.sound, hd]

end Join

/-- Two writes, the older one larger, and a deletion between them. -/
theorem rateLimit_merge_join_deleted :
    let p : LivePoint := ⟨⟨7, ⟨100, by decide⟩⟩, ⟨10, 0⟩⟩
    let q : LivePoint := ⟨⟨6, ⟨1, by decide⟩⟩, ⟨30, 1⟩⟩
    let a := live (fromLivePoint p)
    let b := live (fromLivePoint q)
    let c := tombstone ⟨20, 2⟩
    (a.merge b).bind (fun d => d.merge c) = some (.live ⟨[q], some ⟨20, 2⟩⟩) ∧
      (a.merge b).bind (fun d => d.merge c) = (b.merge c).bind (fun d => a.merge d) := by
  intro p q a b c
  refine ⟨by decide +kernel, ?_⟩
  have hS : Set.InjOn version {p, q} := by
    rintro x (rfl | rfl) y (rfl | rfl) h
    · rfl
    · cases h
    · cases h
    · rfl
  refine (rateLimit_merge_join hS ⟨?_, ?_⟩ ⟨?_, ?_⟩ ⟨?_, ?_⟩).2.1
  · exact normal_fromLivePoint p
  · simp [a, livePoints, fromLivePoint]
  · exact normal_fromLivePoint q
  · simp [b, livePoints, fromLivePoint]
  · exact normal_tombstone _
  · simp [c, livePoints]

/-! ## What operations mean -/

section Operations

variable (codec : ShardCodec)

def opDen (op : Operation) : LowerSet (Fact Version EpochCount) :=
  RateLimitState.denOf (operationState codec op)

def opsDen (ops : List Operation) : LowerSet (Fact Version EpochCount) :=
  ⨆ op ∈ ops, opDen codec op

variable {codec}

@[simp] theorem opsDen_nil : opsDen codec [] = ⊥ := by simp [opsDen]

@[simp] theorem opsDen_cons (op : Operation) (ops : List Operation) :
    opsDen codec (op :: ops) = opDen codec op ⊔ opsDen codec ops := by
  simp [opsDen, iSup_or, iSup_sup_eq]

@[simp] theorem opsDen_append (ops ops' : List Operation) :
    opsDen codec (ops ++ ops') = opsDen codec ops ⊔ opsDen codec ops' := by
  simp [opsDen, iSup_or, iSup_sup_eq]

variable {ops : List Operation}

theorem opDen_le_opsDen {op : Operation} (h : op ∈ ops) : opDen codec op ≤ opsDen codec ops :=
  le_iSup₂_of_le op h le_rfl

theorem opsDen_le {L : LowerSet (Fact Version EpochCount)} (h : ∀ op ∈ ops, opDen codec op ≤ L) :
    opsDen codec ops ≤ L :=
  iSup₂_le h

theorem opsDen_mono {ops' : List Operation} (h : ops ⊆ ops') :
    opsDen codec ops ≤ opsDen codec ops' :=
  opsDen_le fun _ hop => opDen_le_opsDen (h hop)

theorem opsDen_congr {ops' : List Operation} (h : ∀ op, op ∈ ops ↔ op ∈ ops') :
    opsDen codec ops = opsDen codec ops' :=
  le_antisymm (opsDen_mono fun op => (h op).mp) (opsDen_mono fun op => (h op).mpr)

/-- A decoded shard has a live point. -/
theorem livePoints_ne_nil_of_decodeShard {bytes : Bytes} {s : RateLimitShard}
    (h : decodeShard codec bytes = some s) : s.livePoints ≠ [] := by
  rw [decodeShard, filter_eq_some_iff] at h
  simpa using h.2

theorem facts_ne_nil_of_operationState {op : Operation} (h : operationState codec op = some s) :
    s.facts ≠ [] := by
  cases op with
  | insert k v t r =>
    rw [operationState, stateFromInsertValue] at h
    split at h
    · rename_i shard hd
      cases h
      simp [facts, livePoints, livePoints_ne_nil_of_decodeShard hd]
    · obtain ⟨v, -, rfl⟩ := map_eq_some_iff.mp h
      simp [facts, livePoints, fromLivePoint]
  | remove k t r =>
    cases h
    simp [facts, tombFacts, tombstoneVersion]

/-- Operations over one set of points: each malformed or of a sound state. -/
def SoundOps (codec : ShardCodec) (S : Set LivePoint) (ops : List Operation) : Prop :=
  ∀ op ∈ ops, ∀ s ∈ operationState codec op, Sound S s

variable {S : Set LivePoint} (hS : Set.InjOn LivePoint.version S)

include hS in
/-- **Folding operations joins their meanings**, and never takes the early return. -/
theorem compactFrom_spec (hops : SoundOps codec S ops) (key : Option String)
    (state : Option RateLimitState) (hst : ∀ s ∈ state, Sound S s) :
    ∃ state',
      compactFrom codec key state ops = some (key.or (ops.head?.map Operation.key), state') ∧
      (∀ s ∈ state', Sound S s) ∧
      denOf state' = denOf state ⊔ opsDen codec ops := by
  induction ops generalizing key state with
  | nil => exact ⟨state, by cases key <;> rfl, hst, by simp⟩
  | cons op ops ih =>
    have hops' : SoundOps codec S ops := fun o ho => hops o (mem_cons_of_mem _ ho)
    have hkey : (some (key.getD op.key)).or (ops.head?.map Operation.key) =
        key.or ((op :: ops).head?.map Operation.key) := by
      cases key <;> rfl
    rw [opsDen_cons, opDen, ← hkey]
    cases hop : operationState codec op with
    | none =>
      obtain ⟨st, heq, hsound, hden⟩ := ih hops' (some (key.getD op.key)) state hst
      exact ⟨st, by simp [compactFrom, hop, heq], hsound, by simp [hden]⟩
    | some s =>
      have hs : Sound S s := hops op mem_cons_self s hop
      cases state with
      | none =>
        obtain ⟨st, heq, hsound, hden⟩ :=
          ih hops' (some (key.getD op.key)) (some s) (by rintro _ ⟨⟩; exact hs)
        exact ⟨st, by simp [compactFrom, hop, heq], hsound, by simp [hden]⟩
      | some cur =>
        obtain ⟨c, hc, hcs, hcden⟩ := (hst cur rfl).merge hS hs
        obtain ⟨st, heq, hsound, hden⟩ :=
          ih hops' (some (key.getD op.key)) (some c) (by rintro _ ⟨⟩; exact hcs)
        refine ⟨st, ?_, hsound, ?_⟩
        · simp [compactFrom, hop, hc, heq]
        · rw [hden, denOf_some, denOf_some, denOf_some,
            hcden, sup_assoc]

include hS in
theorem foldState_spec (hops : SoundOps codec S ops) :
    (∀ s ∈ foldState codec ops, Sound S s) ∧
      denOf (foldState codec ops) = opsDen codec ops := by
  obtain ⟨st, heq, hsound, hden⟩ :=
    compactFrom_spec hS hops none none (by simp)
  rw [foldState, heq]
  exact ⟨hsound, by simpa using hden⟩

/-! ## Compacted operations -/

theorem decodeShard_serialize {shard : RateLimitShard} (hne : shard.livePoints ≠ []) :
    decodeShard codec (codec.serialize shard) = some shard := by
  have hd := codec.deserialize_serialize maxShardBytes shard []
  rw [append_nil] at hd
  rw [decodeShard, hd, filter_some, if_pos (by simpa using hne)]

/-- **The operation of a state is read back as that state.** -/
theorem operationState_intoOperation {S : Set LivePoint} (hs : Sound S s) {k : String}
    {w : Operation} (h : s.intoOperation codec k = some w) :
    w.key = k ∧ operationState codec w = some s := by
  cases s with
  | live shard =>
    obtain ⟨v, -, hb⟩ := bind_eq_some_iff.mp h
    cases hb
    refine ⟨rfl, ?_⟩
    rw [operationState, stateFromInsertValue,
      decodeShard_serialize (hs.normal.nonempty shard rfl)]
  | tombstone v =>
    cases h
    exact ⟨rfl, rfl⟩

include hS in
theorem exists_foldState_of_compactOperations (hops : SoundOps codec S ops) {w : Operation}
    (h : compactOperations codec ops = some w) :
    ∃ s op, foldState codec ops = some s ∧ Sound S s ∧ op ∈ ops ∧
      s.intoOperation codec op.key = some w := by
  obtain ⟨st, heq, hsound, -⟩ := compactFrom_spec hS hops none none (by simp)
  rw [compactOperations, heq, bind_some] at h
  obtain ⟨s, hs, h⟩ := bind_eq_some_iff.mp h
  obtain ⟨k, hk, h⟩ := bind_eq_some_iff.mp h
  rw [none_or, map_eq_some_iff] at hk
  obtain ⟨op, hop, rfl⟩ := hk
  exact ⟨s, op, by rw [foldState, heq]; exact hs, hsound s hs,
    mem_of_mem_head? hop, h⟩

end Operations

end Smg.Mesh
