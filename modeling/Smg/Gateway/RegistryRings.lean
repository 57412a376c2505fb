import Smg.Gateway.RegistryMembers
import Smg.Lib.Trace

/-!
# The hash rings follow the workers

Every model has a ring with the URLs of its workers, and the unknown model id has one with the URLs
of all workers.  The two kinds share one table, so the ring of the workers that declare no model is
written under the same key as the wildcard ring and overwritten by it.  Each time a ring is rebuilt
the wildcard ring is too, from the index as it is then.

There is one way in which this fails.  When one model is left, the wildcard ring is the ring of that
model.  If that model is the unknown id, its "ring" is the wildcard ring there was, with the URLs of
workers that have left (`stale_wildcard_ring`).  Only a removal can end in this state.
-/

set_option autoImplicit false

namespace Smg.Gateway

open AList
open List hiding mem_keys

variable {H : Type} {fleet : Fleet H} {placing : Placing} {idx : Indexes H}

namespace Indexes

/-! ## Rings of a fleet -/

/-- The worker objects have fewer URLs than `u32` can number. -/
def FewUrls (fleet : Fleet H) : Prop :=
  ∃ us : List String, us.length ≤ u32Max ∧ ∀ h, (fleet.worker h).url ∈ us

/-- The ring has URLs of worker objects, each once, and its entries are their virtual nodes. -/
structure Sound (fleet : Fleet H) (placing : Placing) (ring : HashRing) : Prop where
  nodup : ring.urls.Nodup
  urls : ∀ url ∈ ring.urls, ∃ h, (fleet.worker h).url = url
  placed : FewUrls fleet → ring.Placed placing

theorem length_le_of_fewUrls (hfew : FewUrls fleet) {us : List String} (hnodup : us.Nodup)
    (hus : ∀ url ∈ us, ∃ h, (fleet.worker h).url = url) : us.length ≤ u32Max := by
  obtain ⟨all, hlen, hall⟩ := hfew
  have hsub : us ⊆ all := by
    intro url hurl
    obtain ⟨h, rfl⟩ := hus url hurl
    exact hall h
  exact (subperm_of_subset hnodup hsub).length_le.trans hlen

/-- A ring for some URLs holds these, whatever ring it was reconciled from. -/
theorem holds_ringFor {previous : Option HashRing}
    (hprevious : ∀ ring, previous = some ring → Sound fleet placing ring)
    (urls : List String) : (ringFor placing previous urls).Holds urls := by
  rcases previous with _ | ring
  · exact HashRing.holds_new placing urls
  · exact HashRing.holds_updated placing (hprevious ring rfl).nodup urls

theorem sound_ringFor {previous : Option HashRing}
    (hprevious : ∀ ring, previous = some ring → Sound fleet placing ring)
    {urls : List String} (hurls : ∀ url ∈ urls, ∃ h, (fleet.worker h).url = url) :
    Sound fleet placing (ringFor placing previous urls) := by
  have hholds := holds_ringFor hprevious urls
  have hof : ∀ url ∈ (ringFor placing previous urls).urls,
      ∃ h, (fleet.worker h).url = url := fun url hurl => hurls url ((hholds.mem_iff url).mp hurl)
  refine ⟨hholds.nodup, hof, fun hfew => ?_⟩
  rcases previous with _ | ring
  · exact HashRing.placed_new placing urls
  · have hring := hprevious ring rfl
    exact HashRing.placed_updated placing (hring.placed hfew)
      (length_le_of_fewUrls hfew hring.nodup hring.urls)
      (length_le_of_fewUrls hfew hholds.nodup hof)

/-! ## The rings of an index -/

def AllSound (fleet : Fleet H) (placing : Placing) (idx : Indexes H) : Prop :=
  ∀ m ring, idx.hashRings.lookup m = some ring → Sound fleet placing ring

def FollowsAt (fleet : Fleet H) (idx : Indexes H) (m : String) : Prop :=
  match idx.modelIndex.lookup m with
  | some hs => ∃ ring, idx.hashRings.lookup m = some ring ∧ ring.Holds (urlsOf fleet hs)
  | none => idx.hashRings.lookup m = none

/-- The rings of all models but the unknown one are those of their lists. -/
def Named (fleet : Fleet H) (idx : Indexes H) : Prop :=
  ∀ m, m ≠ unknownModelId → FollowsAt fleet idx m

def allUrls (fleet : Fleet H) (idx : Indexes H) : List String :=
  idx.modelIndex.entries.flatMap fun e => urlsOf fleet e.2

theorem mem_allUrls {url : String} : url ∈ allUrls fleet idx ↔
      ∃ m hs, idx.modelIndex.lookup m = some hs ∧ url ∈ urlsOf fleet hs := by
  rw [allUrls, mem_flatMap]
  constructor
  · rintro ⟨⟨m, hs⟩, hmem, hurl⟩
    exact ⟨m, hs, mem_lookup_iff.mpr hmem, hurl⟩
  · rintro ⟨m, hs, hl, hurl⟩
    exact ⟨⟨m, hs⟩, mem_lookup_iff.mp hl, hurl⟩

/-- The wildcard ring is that of all workers of the index. -/
def Wild (fleet : Fleet H) (idx : Indexes H) : Prop :=
  if idx.modelIndex.keys = [] then idx.hashRings.lookup unknownModelId = none
  else ∃ ring, idx.hashRings.lookup unknownModelId = some ring ∧ ring.Holds (allUrls fleet idx)

/-- Nothing is indexed but under the unknown model id. -/
def OnlyUnknown (idx : Indexes H) : Prop := idx.modelIndex.keys = [unknownModelId]

theorem urlsOf_of_fleet (hs : List H) :
    ∀ url ∈ urlsOf fleet hs, ∃ h, (fleet.worker h).url = url := by
  intro url hurl
  obtain ⟨h, -, rfl⟩ := mem_map.mp hurl
  exact ⟨h, rfl⟩

theorem lookup_of_keys_singleton {only : String} (hkeys : idx.modelIndex.keys = [only]) :
    ∃ hs, idx.modelIndex.lookup only = some hs ∧
      ∀ url, url ∈ urlsOf fleet hs ↔ url ∈ allUrls fleet idx := by
  have hmem : only ∈ idx.modelIndex := mem_keys.mpr (hkeys ▸ mem_singleton_self only)
  obtain ⟨hs, hl⟩ := Option.isSome_iff_exists.mp (lookup_isSome.mpr hmem)
  refine ⟨hs, hl, fun url => ⟨fun hurl => mem_allUrls.mpr ⟨only, hs, hl, hurl⟩, fun hurl => ?_⟩⟩
  obtain ⟨m, hs', hl', hurl'⟩ := mem_allUrls.mp hurl
  have hm : m ∈ idx.modelIndex.keys :=
    mem_keys.mp (lookup_isSome.mp (hl' ▸ rfl))
  rw [hkeys, mem_singleton] at hm
  rw [hm, hl] at hl'
  rwa [Option.some.inj hl']

/-! ## The wildcard ring -/

section Wildcard

variable {order : Shuffle String} {idx : Indexes H}

theorem lookup_rebuildWildcard_of_ne {m : String} (hm : m ≠ unknownModelId) :
    (rebuildWildcardHashRing fleet placing order idx).hashRings.lookup m =
      idx.hashRings.lookup m := by
  rw [rebuildWildcardHashRing]
  split
  · exact lookup_erase_ne hm
  · split
    · exact lookup_insert_ne hm
    · exact lookup_erase_ne hm
  · exact lookup_insert_ne hm

theorem AllSound.insert (h : AllSound fleet placing idx) {ring : HashRing}
    (hring : Sound fleet placing ring) (m : String) :
    AllSound fleet placing { idx with hashRings := idx.hashRings.insert m ring } := by
  intro m' ring' hl
  rcases Table.lookup_insert_eq_some.mp hl with ⟨-, hl⟩ | ⟨-, rfl⟩
  · exact h m' ring' hl
  · exact hring

theorem AllSound.erase (h : AllSound fleet placing idx) (m : String) :
    AllSound fleet placing { idx with hashRings := idx.hashRings.erase m } :=
  fun m' ring' hl => h m' ring' (Table.lookup_erase_eq_some.mp hl).2

theorem AllSound.rebuildWildcard (h : AllSound fleet placing idx) :
    AllSound fleet placing (rebuildWildcardHashRing fleet placing order idx) := by
  rw [rebuildWildcardHashRing]
  split
  · exact h.erase _
  · split
    · rename_i ring hl
      exact h.insert (h _ ring hl) _
    · exact h.erase _
  · refine h.insert (sound_ringFor (h unknownModelId) fun url hurl => ?_) _
    obtain ⟨m, hs, -, hmem⟩ := mem_allUrls.mp (mem_eraseDups.mp ((order.mem).mp hurl))
    exact urlsOf_of_fleet hs url hmem

/-- **The wildcard ring is rebuilt** from the index, unless the ring it would share is its own. -/
theorem wild_rebuildWildcard (hsound : AllSound fleet placing idx) (hnamed : Named fleet idx)
    (hown : OnlyUnknown idx → FollowsAt fleet idx unknownModelId) :
    Wild fleet (rebuildWildcardHashRing fleet placing order idx) := by
  have hperm := order.perm idx.modelIndex.keys
  rw [Wild, (rebuildWildcardHashRing_frame ..).1, rebuildWildcardHashRing]
  rcases hkeys : order.fn idx.modelIndex.keys with _ | ⟨only, _ | ⟨second, rest⟩⟩
  · rw [hkeys, nil_perm] at hperm
    rw [if_pos hperm]
    exact lookup_erase _ _
  · rw [hkeys, singleton_perm] at hperm
    have hfollows : FollowsAt fleet idx only := by
      by_cases honly : only = unknownModelId
      · rw [honly] at hperm ⊢
        exact hown hperm.symm
      · exact hnamed only honly
    obtain ⟨hs, hl, hurls⟩ := @lookup_of_keys_singleton H fleet idx only hperm.symm
    rw [FollowsAt, hl] at hfollows
    obtain ⟨ring, hring, hholds⟩ := hfollows
    rw [if_neg (by rw [← hperm]; simp)]
    simp only [hring]
    exact ⟨ring, lookup_insert _, hholds.congr hurls⟩
  · rw [hkeys] at hperm
    have hne : idx.modelIndex.keys ≠ [] := by
      intro hnil
      rw [hnil] at hperm
      simp at hperm
    rw [if_neg hne]
    refine ⟨_, lookup_insert _, (holds_ringFor (hsound unknownModelId) _).congr fun url => ?_⟩
    rw [order.mem, mem_eraseDups, allUrls]

end Wildcard

/-! ## Rebuilding after an edit -/

section Rebuild

variable {order : Shuffle String} {idx idx' : Indexes H}

/-- The first half of a rebuild: the ring of the model itself. -/
def withOwnRing (fleet : Fleet H) (placing : Placing) (idx : Indexes H) (m : String) :
    Indexes H :=
  match idx.modelIndex.lookup m with
  | some workers =>
    { idx with
      hashRings := idx.hashRings.insert m
        (ringFor placing (idx.hashRings.lookup m) (urlsOf fleet workers)) }
  | none => { idx with hashRings := idx.hashRings.erase m }

theorem withOwnRing_modelIndex (m : String) :
    (withOwnRing fleet placing idx m).modelIndex = idx.modelIndex := by
  rw [withOwnRing]
  split <;> rfl

theorem AllSound.withOwnRing (h : AllSound fleet placing idx) (m : String) :
    AllSound fleet placing (withOwnRing fleet placing idx m) := by
  rw [Indexes.withOwnRing]
  split
  · exact h.insert (sound_ringFor (h m) (urlsOf_of_fleet _)) m
  · exact h.erase m

theorem FollowsAt.congr {m : String} (h : FollowsAt fleet idx m)
    (hindex : idx'.modelIndex.lookup m = idx.modelIndex.lookup m)
    (hring : idx'.hashRings.lookup m = idx.hashRings.lookup m) : FollowsAt fleet idx' m := by
  rwa [FollowsAt, hindex, hring]

theorem followsAt_withOwnRing (h : AllSound fleet placing idx) (m : String) :
    FollowsAt fleet (withOwnRing fleet placing idx m) m := by
  rw [FollowsAt, withOwnRing_modelIndex, withOwnRing]
  rcases idx.modelIndex.lookup m with _ | workers
  · exact lookup_erase _ _
  · exact ⟨_, lookup_insert _, holds_ringFor (h m) _⟩

/-- The rings of the models, which a rebuild keeps. -/
structure RingsOk (fleet : Fleet H) (placing : Placing) (idx : Indexes H) : Prop where
  sound : AllSound fleet placing idx
  named : Named fleet idx

/-- The rings are read from two of the tables. -/
theorem RingsOk.congr (h : RingsOk fleet placing idx) (hindex : idx'.modelIndex = idx.modelIndex)
    (hrings : idx'.hashRings = idx.hashRings) : RingsOk fleet placing idx' :=
  ⟨fun m ring hl => h.sound m ring (hrings ▸ hl),
    fun m hm => (h.named m hm).congr (by rw [hindex]) (by rw [hrings])⟩

theorem Wild.congr (h : Wild fleet idx) (hindex : idx'.modelIndex = idx.modelIndex)
    (hrings : idx'.hashRings = idx.hashRings) : Wild fleet idx' := by
  rw [Wild, allUrls, hindex, hrings]
  exact h

theorem RingsOk.rebuild (h : RingsOk fleet placing idx) {m : String}
    (hindex : ∀ m', m' ≠ m → idx'.modelIndex.lookup m' = idx.modelIndex.lookup m')
    (hrings : idx'.hashRings = idx.hashRings) :
    RingsOk fleet placing (rebuildHashRing fleet placing order idx' m) ∧
      ((OnlyUnknown idx' → m = unknownModelId) →
        Wild fleet (rebuildHashRing fleet placing order idx' m)) := by
  have hsound' : AllSound fleet placing idx' := fun m ring hl => h.sound m ring (hrings ▸ hl)
  have hsound := hsound'.withOwnRing m
  have hnamed : Named fleet (withOwnRing fleet placing idx' m) := by
    intro m' hm'
    by_cases heq : m' = m
    · rw [heq]
      exact followsAt_withOwnRing hsound' m
    · refine (h.named m' hm').congr ?_ ?_
      · rw [withOwnRing_modelIndex, hindex m' heq]
      · rw [← hrings, withOwnRing]
        split
        · exact lookup_insert_ne heq
        · exact lookup_erase_ne heq
  refine ⟨⟨hsound.rebuildWildcard, fun m' hm' => ?_⟩, fun honly => ?_⟩
  · refine (hnamed m' hm').congr ?_ (lookup_rebuildWildcard_of_ne hm')
    exact congrArg (AList.lookup m') (rebuildWildcardHashRing_frame ..).1
  · refine wild_rebuildWildcard hsound hnamed fun hself => ?_
    replace hself : OnlyUnknown (withOwnRing fleet placing idx' m) := hself
    rw [OnlyUnknown, withOwnRing_modelIndex] at hself
    obtain rfl := honly hself
    exact followsAt_withOwnRing hsound' unknownModelId

/-- An edit of the list of one model, followed by a rebuild of its ring. -/
def Rebuilds (fleet : Fleet H) (placing : Placing) (order : Shuffle String)
    (f : Indexes H → String → Indexes H) : Prop :=
  ∀ idx m, ∃ idx' : Indexes H,
    (∀ m', m' ≠ m → idx'.modelIndex.lookup m' = idx.modelIndex.lookup m') ∧
      idx'.hashRings = idx.hashRings ∧ (f idx m).modelIndex = idx'.modelIndex ∧
        (f idx m).hashRings = (rebuildHashRing fleet placing order idx' m).hashRings

theorem rebuilds_renewModel (h : H) :
    Rebuilds fleet placing order (renewModel fleet placing order h) := by
  intro idx m
  refine ⟨idx.addWorkerToModelIndex fleet m h, fun m' hm' => ?_, rfl, ?_, rfl⟩
  · exact lookup_insert_ne hm'
  · rw [renewModel, (rebuildHashRing_frame ..).1]

theorem rebuilds_enterModel (h : H) :
    Rebuilds fleet placing order (enterModel fleet placing order h) :=
  rebuilds_renewModel h

theorem rebuilds_removeWorker (url : String) :
    Rebuilds fleet placing order
      (removeWorkerFromModelIndex fleet placing order url) := by
  intro idx m
  refine ⟨{ idx with modelIndex := dropWorker fleet idx.modelIndex m url }, fun m' hm' => ?_, rfl,
    ?_, rfl⟩
  · simp only [dropWorker]
    split
    · rfl
    · split
      · exact lookup_erase_ne hm'
      · exact lookup_insert_ne hm'
  · rw [removeWorkerFromModelIndex, (rebuildHashRing_frame ..).1]

variable {f : Indexes H → String → Indexes H}

section

variable (hf : Rebuilds fleet placing order f)

include hf

theorem Rebuilds.step (h : RingsOk fleet placing idx) (m : String) :
    RingsOk fleet placing (f idx m) ∧
      ((OnlyUnknown (f idx m) → m = unknownModelId) → Wild fleet (f idx m)) := by
  obtain ⟨idx', hindex, hrings, hmodel, hring⟩ := hf idx m
  obtain ⟨hok, hwild⟩ := @RingsOk.rebuild H fleet placing order idx idx' h m hindex hrings
  have hsame : (f idx m).modelIndex =
      (rebuildHashRing fleet placing order idx' m).modelIndex := by
    rw [(rebuildHashRing_frame ..).1, hmodel]
  refine ⟨hok.congr hsame hring, fun honly => (hwild fun hself => honly ?_).congr hsame hring⟩
  rwa [OnlyUnknown, hmodel]

/-- A sequence of edits keeps the rings of the models. -/
theorem Rebuilds.foldl (h : RingsOk fleet placing idx) (ms : List String) :
    RingsOk fleet placing (ms.foldl f idx) := by
  induction ms generalizing idx with
  | nil => exact h
  | cons m ms ih => exact ih (hf.step h m).1

/-- **After a sequence of edits the wildcard ring is that of the index**, unless only the unknown
model is left and the last edit was of another. -/
theorem Rebuilds.wild (h : RingsOk fleet placing idx) {ms : List String} {last : String}
    (hlast : ms.getLast? = some last)
    (honly : OnlyUnknown (ms.foldl f idx) → last = unknownModelId) :
    Wild fleet (ms.foldl f idx) := by
  obtain ⟨init, rfl⟩ := getLast?_eq_some_iff.mp hlast
  rw [foldl_append] at honly ⊢
  exact (hf.step (hf.foldl h init) last).2 honly

end

end Rebuild

/-! ## Workers that enter, take a place and leave -/

section Changes

variable {order : Shuffle String} {idx : Indexes H} {live : H → Prop} {h old new : H}

theorem exists_of_mem_listed {t : Table String (List H)} {m : String} (hh : h ∈ listed t m) :
    ∃ hs, t.lookup m = some hs ∧ h ∈ hs := by
  rw [listed] at hh
  rcases hl : t.lookup m with _ | hs <;> rw [hl] at hh
  · cases hh
  · exact ⟨hs, rfl, hh⟩

theorem Agree.eq_unknown (hagree : Agree fleet idx live) (honly : OnlyUnknown idx) (hh : live h)
    {m : String} (hm : m ∈ (fleet.worker h).modelIds) : m = unknownModelId := by
  have hmem : h ∈ listed idx.modelIndex m := (hagree.exact.mem_iff m h).mpr ⟨hh, hm⟩
  obtain ⟨hs, hl, -⟩ := exists_of_mem_listed hmem
  have hkey : m ∈ idx.modelIndex.keys := mem_keys.mp (lookup_isSome.mp (hl ▸ rfl))
  rw [honly] at hkey
  exact mem_singleton.mp hkey

theorem ringsOk_register (hok : RingsOk fleet placing idx)
    (hagree : Agree fleet (idx.register fleet placing order h) live) (hh : live h) :
    RingsOk fleet placing (idx.register fleet placing order h) ∧
      Wild fleet (idx.register fleet placing order h) := by
  have hne := (fleet.worker h).modelIds_ne_nil
  obtain ⟨hindex, hrings⟩ := declareAliases_frame ((fleet.worker h).modelIds.foldl
    (enterModel fleet placing order h) idx) (fleet.worker h)
  refine ⟨((rebuilds_enterModel h).foldl hok _).congr hindex hrings, ?_⟩
  refine ((rebuilds_enterModel h).wild hok (getLast?_eq_getLast_of_ne_nil hne)
    fun honly => ?_).congr hindex hrings
  refine hagree.eq_unknown ?_ hh (getLast_mem hne)
  rwa [OnlyUnknown, register, hindex]

theorem ringsOk_replace (hok : RingsOk fleet placing idx)
    (hagree : Agree fleet (idx.replace fleet placing order old new) live) (hh : live new) :
    RingsOk fleet placing (idx.replace fleet placing order old new) ∧
      Wild fleet (idx.replace fleet placing order old new) := by
  have hindex : (idx.replace fleet placing order old new).modelIndex =
      (idx.replaceModels fleet placing order old new).modelIndex := by
    rw [replace, (declareAliases_frame ..).1, (releaseAliases_frame ..).1]
  have hrings : (idx.replace fleet placing order old new).hashRings =
      (idx.replaceModels fleet placing order old new).hashRings := by
    rw [replace, (declareAliases_frame ..).2, (releaseAliases_frame ..).2]
  have hunknown : OnlyUnknown (idx.replaceModels fleet placing order old new) →
      ∀ m ∈ (fleet.worker new).modelIds, m = unknownModelId := by
    intro honly m hm
    refine hagree.eq_unknown ?_ hh hm
    rwa [OnlyUnknown, hindex]
  rw [replaceModels] at hindex hrings hunknown
  have hremoved := (@rebuilds_removeWorker H fleet placing order (fleet.worker old).url).foldl
    hok (order.fn ((fleet.worker old).modelIds.filter (· ∉ (fleet.worker new).modelIds)))
  have hadded := (@rebuilds_enterModel H fleet placing order new).foldl hremoved
    (order.fn ((fleet.worker new).modelIds.filter (· ∉ (fleet.worker old).modelIds)))
  refine ⟨((rebuilds_renewModel new).foldl hadded _).congr hindex hrings, ?_⟩
  refine Wild.congr ?_ hindex hrings
  -- The last model that is gone through is one of the replacement's.
  rcases hkept : (order.fn ((fleet.worker old).modelIds.filter
      (· ∈ (fleet.worker new).modelIds))).getLast? with _ | last
  · rw [getLast?_eq_none_iff] at hkept
    rw [hkept] at hunknown ⊢
    rcases hlast : (order.fn ((fleet.worker new).modelIds.filter
        (· ∉ (fleet.worker old).modelIds))).getLast? with _ | last
    · obtain ⟨m, hm⟩ := exists_mem_of_ne_nil _ (fleet.worker new).modelIds_ne_nil
      have hadd := eq_nil_iff_forall_not_mem.mp (getLast?_eq_none_iff.mp hlast) m
      have hkeep := eq_nil_iff_forall_not_mem.mp hkept m
      rw [order.mem, mem_filter, decide_eq_true_eq] at hadd hkeep
      tauto
    · refine (rebuilds_enterModel new).wild hremoved hlast fun honly => ?_
      have hmem := mem_of_getLast? hlast
      rw [order.mem, mem_filter] at hmem
      exact hunknown honly last hmem.1
  · refine (rebuilds_renewModel new).wild hadded hkept fun honly => ?_
    have hmem := mem_of_getLast? hkept
    rw [order.mem, mem_filter] at hmem
    exact hunknown honly last (of_decide_eq_true hmem.2)

theorem ringsOk_remove (hok : RingsOk fleet placing idx)
    (hspares : OnlyUnknown (idx.remove fleet placing order h) →
      (fleet.worker h).modelIds.getLast? = some unknownModelId) :
    RingsOk fleet placing (idx.remove fleet placing order h) ∧
      Wild fleet (idx.remove fleet placing order h) := by
  have hne := (fleet.worker h).modelIds_ne_nil
  obtain ⟨hindex, hrings⟩ := @releaseAliases_frame H fleet order ((fleet.worker h).modelIds.foldl
    (removeWorkerFromModelIndex fleet placing order (fleet.worker h).url) idx) (fleet.worker h)
  refine ⟨((rebuilds_removeWorker _).foldl hok _).congr hindex hrings, ?_⟩
  have hlast := getLast?_eq_getLast_of_ne_nil hne
  refine ((rebuilds_removeWorker _).wild hok hlast fun honly => ?_).congr hindex hrings
  rw [← Option.some.injEq, ← hlast]
  refine hspares ?_
  rwa [OnlyUnknown, remove, hindex]

end Changes

end Indexes

namespace Registry

/-! ## Runs -/

/-- A removal that leaves only workers without a named model is of a worker whose last model is the
unknown one. -/
def Spares (fleet : Fleet H) (s : Registry H) : Call H → Prop
  | .remove _ id => ∀ h, s.workers.lookup id = some h →
      (∃ x, RegisteredIn s.workers x ∧ x ≠ h) →
      (∀ x, RegisteredIn s.workers x → x ≠ h →
        ∀ m ∈ (fleet.worker x).modelIds, m = unknownModelId) →
      (fleet.worker h).modelIds.getLast? = some unknownModelId
  | _ => True

/-- The rings are those of the index. -/
structure Ringed (fleet : Fleet H) (placing : Placing) (s : Registry H) : Prop where
  indexed : Indexed fleet s
  rings : Indexes.RingsOk fleet placing s.indexes
  wild : Indexes.Wild fleet s.indexes

variable {s s' : Registry H}

/-- When the index that is left has only the unknown model, some worker is left, and those that are
serve no other. -/
theorem Spares.getLast? {order : Shuffle String} {id : Nat} {h : H}
    (hspares : Spares fleet s (.remove order id)) (hid : s.workers.lookup id = some h)
    (hagree : Indexes.Agree fleet idx fun x => RegisteredIn s.workers x ∧ x ≠ h)
    (honly : Indexes.OnlyUnknown idx) :
    (fleet.worker h).modelIds.getLast? = some unknownModelId := by
  refine hspares h hid ?_ fun x hx hne m hm => hagree.eq_unknown honly ⟨hx, hne⟩ hm
  obtain ⟨hs, hl, -⟩ := @Indexes.lookup_of_keys_singleton H fleet idx unknownModelId honly
  by_contra hnone
  have hempty : idx.modelIndex.lookup unknownModelId = none :=
    hagree.exact.lookup_eq_none.mpr fun x hx => hnone ⟨x, hx.1⟩
  rw [hl] at hempty
  cases hempty

section Runs

variable [DecidableEq H]

theorem indexes_setWorkerOverloaded (s : Registry H) (h : H) (b : Bool) :
    (s.setWorkerOverloaded fleet h b).indexes = s.indexes := by
  rw [setWorkerOverloaded]
  split_ifs <;> rfl

theorem Ringed.change (hs : Ringed fleet placing s) {c : Call H} (hspares : Spares fleet s c)
    (hchange : Change fleet placing s c s') : Ringed fleet placing s' := by
  have hindexed := hs.indexed.change hchange
  rcases hchange with _ | ⟨_, order, h, origin, hurl⟩ |
    ⟨_, order, id, old, new, promote, hid, hsame⟩ | ⟨order, id, h, hid⟩
  · exact hs
  · have hok := Indexes.ringsOk_register hs.rings hindexed.agree
      ⟨s.nextId, lookup_insert s.workers⟩
    exact ⟨hindexed, hok.1, hok.2⟩
  · have hrings := hs.rings
    rw [← indexes_setWorkerOverloaded s old false] at hrings
    have hok := Indexes.ringsOk_replace hrings hindexed.agree
      ⟨id, lookup_insert (s.setWorkerOverloaded fleet old false).workers⟩
    exact ⟨hindexed, hok.1, hok.2⟩
  · have hrings := hs.rings
    rw [← indexes_setWorkerOverloaded s h false] at hrings
    have hleft : Indexes.Agree fleet (s.leave fleet placing order id h).indexes fun x =>
        RegisteredIn s.workers x ∧ x ≠ h := by
      refine hindexed.agree.congr fun x => ?_
      rw [← hs.indexed.ids.registeredIn_leave hid x, leave, bumpGlobalRoutingEpoch,
        workers_setWorkerOverloaded]
    have hok := Indexes.ringsOk_remove hrings (hspares.getLast? hid hleft)
    exact ⟨hindexed, hok.1, hok.2⟩

/-- **Every call but such a removal keeps the rings.** -/
theorem Ringed.exec (hs : Ringed fleet placing s) {c : Call H} (hspares : Spares fleet s c) :
    Ringed fleet placing (s.exec fleet placing c) := by
  by_cases hc : c.changes
  · exact hs.change hspares (hs.indexed.exec_change hc)
  · have hindexes : (s.exec fleet placing c).indexes = s.indexes := by
      rcases c with _ | _ | _ | _ | _ | ⟨h, b⟩ | ⟨order⟩
      any_goals exact absurd rfl hc
      · exact indexes_setWorkerOverloaded s h b
      · rw [Registry.exec, currentGlobalRoutingSnapshot]
        split_ifs <;> rfl
    exact ⟨hs.indexed.exec c, hindexes ▸ hs.rings, hindexes ▸ hs.wild⟩

end Runs

/-- The rings are those of the registered workers. -/
structure RingsFollow (fleet : Fleet H) (placing : Placing) (s : Registry H) :
    Prop where
  /-- The ring of a model holds the URLs of the workers indexed under it. -/
  named : ∀ m hs, m ≠ unknownModelId → s.indexes.modelIndex.lookup m = some hs →
    ∃ ring, s.indexes.hashRings.lookup m = some ring ∧ ring.Holds (Indexes.urlsOf fleet hs)
  /-- A model without workers has no ring. -/
  no_ring : ∀ m, m ≠ unknownModelId → s.indexes.modelIndex.lookup m = none →
    s.indexes.hashRings.lookup m = none
  /-- The ring of the unknown model holds the URLs of all registered workers. -/
  wildcard : ∀ h, RegisteredIn s.workers h →
    ∃ ring, s.indexes.hashRings.lookup unknownModelId = some ring ∧ ring.urls.Nodup ∧
      ∀ url, url ∈ ring.urls ↔ ∃ x, RegisteredIn s.workers x ∧ (fleet.worker x).url = url
  /-- Without workers there is no such ring. -/
  no_wildcard : (∀ h, ¬ RegisteredIn s.workers h) →
    s.indexes.hashRings.lookup unknownModelId = none
  /-- The entries of the rings are the virtual nodes of their URLs. -/
  placed : Indexes.FewUrls fleet → ∀ m ring, s.indexes.hashRings.lookup m = some ring →
    ring.Placed placing

/-- The URLs of the index are those of the registered workers. -/
theorem Indexed.mem_allUrls (hs : Indexed fleet s) (url : String) :
    url ∈ Indexes.allUrls fleet s.indexes ↔
      ∃ x, RegisteredIn s.workers x ∧ (fleet.worker x).url = url := by
  rw [Indexes.mem_allUrls]
  constructor
  · rintro ⟨m, l, hl, hurl⟩
    obtain ⟨x, hx, rfl⟩ := mem_map.mp hurl
    refine ⟨x, ((hs.agree.exact.mem_iff m x).mp ?_).1, rfl⟩
    rwa [Indexes.listed, hl]
  · rintro ⟨x, hx, rfl⟩
    obtain ⟨m, hm⟩ := exists_mem_of_ne_nil _ (fleet.worker x).modelIds_ne_nil
    have hmem := (hs.agree.exact.mem_iff m x).mpr ⟨hx, hm⟩
    obtain ⟨l, hl, hx⟩ := Indexes.exists_of_mem_listed hmem
    exact ⟨m, l, hl, mem_map_of_mem hx⟩

theorem Ringed.ringsFollow (hs : Ringed fleet placing s) :
    RingsFollow fleet placing s where
  named m l hm hl := by
    have hfollows := hs.rings.named m hm
    rwa [Indexes.FollowsAt, hl] at hfollows
  no_ring m hm hl := by
    have hfollows := hs.rings.named m hm
    rwa [Indexes.FollowsAt, hl] at hfollows
  wildcard h hh := by
    have hne : s.indexes.modelIndex.keys ≠ [] := by
      intro hnil
      have hurl := (hs.indexed.mem_allUrls (fleet.worker h).url).mpr ⟨h, hh, rfl⟩
      obtain ⟨m, l, hl, -⟩ := Indexes.mem_allUrls.mp hurl
      have hkey : m ∈ s.indexes.modelIndex.keys :=
        mem_keys.mp (lookup_isSome.mp (by rw [hl]; rfl))
      rw [hnil] at hkey
      cases hkey
    have hwild := hs.wild
    rw [Indexes.Wild, if_neg hne] at hwild
    obtain ⟨ring, hring, hholds⟩ := hwild
    exact ⟨ring, hring, hholds.nodup,
      fun url => (hholds.mem_iff url).trans (hs.indexed.mem_allUrls url)⟩
  no_wildcard hnone := by
    have hnil : s.indexes.modelIndex.keys = [] := by
      refine eq_nil_iff_forall_not_mem.mpr fun m hm => ?_
      rw [← mem_keys, ← lookup_isSome, Option.isSome_iff_ne_none] at hm
      exact hm (hs.indexed.agree.exact.lookup_eq_none.mpr fun x hx => hnone x hx.1)
    have hwild := hs.wild
    rwa [Indexes.Wild, if_pos hnil] at hwild
  placed hfew m ring hl := (hs.rings.sound m ring hl).placed hfew

/-- **The hash rings follow the workers** in every run without a removal that leaves only workers
without a named model, unless the worker removed goes out under the unknown model too. -/
theorem rings_follow [DecidableEq H] (fleet : Fleet H) (placing : Placing)
    {s : Registry H} (hs : Reaches (exec fleet placing) (Spares fleet) (new fleet) s) :
    RingsFollow fleet placing s := by
  have hnew : Ringed fleet placing (new fleet) :=
    ⟨indexed_new, ⟨nofun, fun m _ => by simp [Indexes.FollowsAt, new]⟩, by simp [Indexes.Wild, new]⟩
  exact (hs.invariant hnew fun _ _ hringed hspares => hringed.exec hspares).ringsFollow

/-- A worker that declares no model and one that declares one. -/
def mixedFleet : Fleet Bool where
  worker b :=
    { url := if b then "http://named:1" else "http://plain:1"
      models := if b then [⟨"llama", []⟩] else []
      modelId := if b then "llama" else unknownModelId
      workerType := .regular
      connectionMode := .http }
  runtime b := if b then 0 else 1
  runtime_url b b' h := by
    rcases b with _ | _ <;> rcases b' with _ | _ <;> simp_all

/-- Both register, and the one that declares no model is removed. -/
def mixedCalls : List (Call Bool) :=
  [.register (Shuffle.still String) false, .register (Shuffle.still String) true,
    .remove (Shuffle.still String) 0]

theorem rings_follow_mixed :
    RingsFollow mixedFleet .byLength
      (mixedCalls.foldl (exec mixedFleet .byLength) (new mixedFleet)) := by
  refine rings_follow mixedFleet .byLength
    (reaches_foldl ⟨trivial, trivial, fun h hid _ _ => ?_, trivial⟩)
  obtain rfl : false = h := Option.some.inj hid
  rfl

/-- Both register, and the one that declares a model is removed. -/
def namedLeaves : Registry Bool :=
  [.register (Shuffle.still String) false, .register (Shuffle.still String) true,
    .remove (Shuffle.still String) 1].foldl (exec mixedFleet .byLength) (new mixedFleet)

/-- The worker that is left is the only one that is registered, and the wildcard ring still holds
the URL of the other. -/
theorem stale_wildcard_ring :
    namedLeaves.workers.entries.map Sigma.snd = [false] ∧
      (namedLeaves.indexes.hashRings.lookup unknownModelId).map HashRing.urls =
        some ["http://plain:1", "http://named:1"] := by
  decide +kernel

end Registry

end Smg.Gateway
