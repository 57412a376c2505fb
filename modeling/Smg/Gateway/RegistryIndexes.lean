import Smg.Gateway.WorkerRegistry

/-!
# What is indexed by model

What the index by model and the alias index hold, for the workers that are live.  Both are said for
any set of live workers that no two of share a URL; what a registration, a replacement and a removal
do to the indexes is then one statement each, about the set before and the set after.
-/

set_option autoImplicit false

namespace Smg.Gateway

open List Table

variable {H : Type} {fleet : Fleet H} {placing : Placing}

theorem Worker.modelIds_ne_nil (w : Worker) : w.modelIds ≠ [] := by
  rw [modelIds]
  split
  · simp
  · rename_i h
    simpa using h

theorem Worker.nodup_modelIds (w : Worker) : w.modelIds.Nodup := by
  rw [modelIds]
  split
  · simp
  · exact nodup_eraseDups _

variable {w : Worker} {m a : String}

theorem Worker.mem_modelIds_of_declaresAlias (h : w.declaresAlias m a) : m ∈ w.modelIds := by
  rw [declaresAlias, any_eq_true] at h
  obtain ⟨card, hcard, hdeclares⟩ := h
  rw [Bool.and_eq_true, beq_iff_eq] at hdeclares
  have hm : m ∈ (w.models.map ModelCard.id).eraseDups :=
    mem_eraseDups.mpr (mem_map.mpr ⟨card, hcard, hdeclares.1⟩)
  rw [modelIds]
  split
  · rename_i hnil
    rw [List.isEmpty_iff] at hnil
    rw [hnil] at hm
    cases hm
  · exact hm

theorem Worker.declaresAlias_iff : w.declaresAlias m a ↔ (a, m) ∈ Indexes.declaredAliases w := by
  simp only [declaresAlias, Indexes.declaredAliases, any_eq_true, Bool.and_eq_true,
    beq_iff_eq, contains_iff_mem, mem_flatMap, mem_map, Prod.mk.injEq]
  constructor
  · rintro ⟨card, hcard, rfl, ha⟩
    exact ⟨card, hcard, a, ha, rfl, rfl⟩
  · rintro ⟨card, hcard, _, ha, rfl, rfl⟩
    exact ⟨card, hcard, rfl, ha⟩

namespace Indexes

/-! ## The lists of the index -/

def listed (t : Table String (List H)) (m : String) : List H := (t.lookup m).getD []

/-- The lists hold the workers one wants under each model, each once, and none is empty. -/
structure Exact (t : Table String (List H)) (want : String → H → Prop) : Prop where
  ne_nil : ∀ m, t.lookup m ≠ some []
  nodup : ∀ m, (listed t m).Nodup
  mem_iff : ∀ m h, h ∈ listed t m ↔ want m h

variable {t : Table String (List H)} {want : String → H → Prop}

theorem Exact.congr {want' : String → H → Prop} (h : Exact t want)
    (hw : ∀ m x, want m x ↔ want' m x) : Exact t want' :=
  ⟨h.ne_nil, h.nodup, fun m x => (h.mem_iff m x).trans (hw m x)⟩

/-- A model is in the index exactly when some worker is wanted under it. -/
theorem Exact.lookup_eq_none (h : Exact t want) : t.lookup m = none ↔ ∀ x, ¬ want m x := by
  simp only [← h.mem_iff]
  rw [listed]
  rcases hl : t.lookup m with _ | l
  · simp
  · rcases l with _ | ⟨x, l⟩
    · exact absurd hl (h.ne_nil m)
    · simp only [reduceCtorEq, false_iff, not_forall, not_not]
      exact ⟨x, mem_cons_self⟩

theorem listed_addWorker (t : Table String (List H)) (m m' : String) (h : H) :
    listed (addWorker fleet t m h) m' =
      if m' = m then
        (listed t m).filter (fun w => (fleet.worker w).url ≠ (fleet.worker h).url) ++ [h]
      else listed t m' := by
  rw [listed, addWorker, lookup_insert_if]
  split
  · rw [listed]
    rcases t.lookup m with _ | l <;> simp
  · rfl

theorem Exact.addWorker (hexact : Exact t want) (m : String) (h : H) :
    Exact (addWorker fleet t m h) fun m' x =>
      m' = m ∧ x = h ∨ want m' x ∧ (m' = m → (fleet.worker x).url ≠ (fleet.worker h).url) := by
  refine ⟨fun m' => ?_, fun m' => ?_, fun m' x => ?_⟩
  · rw [Indexes.addWorker, lookup_insert_if]
    split
    · rcases t.lookup m with _ | l <;> simp
    · exact hexact.ne_nil m'
  · rw [listed_addWorker]
    split
    · refine ((hexact.nodup m).filter _).append (nodup_singleton h) ?_
      intro x hx hxh
      rw [mem_singleton.mp hxh] at hx
      exact absurd (mem_filter.mp hx).2 (by simp)
    · exact hexact.nodup m'
  · rw [listed_addWorker, ← hexact.mem_iff]
    by_cases hm : m' = m
    · subst hm
      simp [or_comm]
    · simp [hm]

theorem listed_dropWorker (t : Table String (List H)) (m m' url : String) :
    listed (dropWorker fleet t m url) m' =
      if m' = m then (listed t m).filter (fun w => (fleet.worker w).url ≠ url)
      else listed t m' := by
  rw [dropWorker]
  by_cases hm : m' = m
  · subst hm
    rcases hl : t.lookup m' with _ | l
    · simp [listed, hl]
    · simp only
      split
      · rename_i hnil
        rw [List.isEmpty_iff] at hnil
        rw [listed, lookup_erase_if, if_pos rfl, listed, hl, Option.getD_some, hnil]
        rfl
      · rw [listed, lookup_insert_if, if_pos rfl, listed, hl]
        rfl
  · rw [if_neg hm]
    rcases t.lookup m with _ | l
    · rfl
    · simp only
      split
      · rw [listed, lookup_erase_if, if_neg hm, listed]
      · rw [listed, lookup_insert_if, if_neg hm, listed]

theorem Exact.dropWorker (hexact : Exact t want) (m url : String) :
    Exact (dropWorker fleet t m url) fun m' x =>
      want m' x ∧ (m' = m → (fleet.worker x).url ≠ url) := by
  refine ⟨fun m' => ?_, fun m' => ?_, fun m' x => ?_⟩
  · rw [Indexes.dropWorker]
    split
    · exact hexact.ne_nil m'
    · simp only
      split
      · rw [lookup_erase_if]
        split
        · simp
        · exact hexact.ne_nil m'
      · rename_i hne
        rw [lookup_insert_if]
        split
        · intro h
          rw [Option.some.inj h] at hne
          exact hne rfl
        · exact hexact.ne_nil m'
  · rw [listed_dropWorker]
    split
    · exact (hexact.nodup m).filter _
    · exact hexact.nodup m'
  · rw [listed_dropWorker, ← hexact.mem_iff]
    by_cases hm : m' = m
    · subst hm
      simp
    · simp [hm]

theorem Exact.foldl_addWorker (hexact : Exact t want) (ms : List String) (h : H) :
    Exact (ms.foldl (fun t m => Indexes.addWorker fleet t m h) t) fun m x =>
      m ∈ ms ∧ x = h ∨ want m x ∧ (m ∈ ms → (fleet.worker x).url ≠ (fleet.worker h).url) := by
  induction ms generalizing t want with
  | nil => exact hexact.congr fun m x => by simp
  | cons m0 ms ih =>
    refine (ih (hexact.addWorker m0 h)).congr fun m x => ?_
    simp only [mem_cons]
    by_cases hx : x = h
    · subst hx
      tauto
    · tauto

theorem Exact.foldl_dropWorker (hexact : Exact t want) (ms : List String) (url : String) :
    Exact (ms.foldl (fun t m => Indexes.dropWorker fleet t m url) t) fun m x =>
      want m x ∧ (m ∈ ms → (fleet.worker x).url ≠ url) := by
  induction ms generalizing t want with
  | nil => exact hexact.congr fun m x => by simp
  | cons m0 ms ih =>
    refine (ih (hexact.dropWorker m0 url)).congr fun m x => ?_
    simp only [mem_cons]
    tauto

/-! ## What each operation leaves alone -/

section Frames

variable (order : Shuffle String) (idx : Indexes H) (m : String)

@[simp] theorem rebuildWildcardHashRing_frame :
    (rebuildWildcardHashRing fleet placing order idx).modelIndex = idx.modelIndex ∧
      (rebuildWildcardHashRing fleet placing order idx).modelAliasIndex =
        idx.modelAliasIndex := by
  rw [rebuildWildcardHashRing]
  split
  · exact ⟨rfl, rfl⟩
  · split <;> exact ⟨rfl, rfl⟩
  · exact ⟨rfl, rfl⟩

@[simp] theorem rebuildHashRing_frame :
    (rebuildHashRing fleet placing order idx m).modelIndex = idx.modelIndex ∧
      (rebuildHashRing fleet placing order idx m).modelAliasIndex = idx.modelAliasIndex := by
  rw [rebuildHashRing, (rebuildWildcardHashRing_frame ..).1,
    (rebuildWildcardHashRing_frame ..).2]
  split <;> exact ⟨rfl, rfl⟩

@[simp] theorem addModelAlias_frame (a : String) :
    (idx.addModelAlias a m).modelIndex = idx.modelIndex ∧
      (idx.addModelAlias a m).hashRings = idx.hashRings := by
  rw [addModelAlias]
  split_ifs <;> first | exact ⟨rfl, rfl⟩ | (split <;> exact ⟨rfl, rfl⟩)

@[simp] theorem removeModelAliasIfUnused_frame (a : String) :
    (idx.removeModelAliasIfUnused fleet order a m).modelIndex = idx.modelIndex ∧
      (idx.removeModelAliasIfUnused fleet order a m).hashRings = idx.hashRings := by
  rw [removeModelAliasIfUnused]
  split
  · exact ⟨rfl, rfl⟩
  · split_ifs <;> first | exact ⟨rfl, rfl⟩ | (split <;> exact ⟨rfl, rfl⟩)

theorem foldl_frame {σ α β : Type} {f : σ → α → σ} {part : σ → β}
    (hf : ∀ s a, part (f s a) = part s) (as : List α) (s : σ) :
    part (as.foldl f s) = part s := by
  induction as generalizing s with
  | nil => rfl
  | cons a as ih => rw [foldl_cons, ih, hf]

theorem releaseAliases_frame (w : Worker) :
    (releaseAliases fleet order w idx).modelIndex = idx.modelIndex ∧
      (releaseAliases fleet order w idx).hashRings = idx.hashRings :=
  have frame := fun idx (a : String × String) => removeModelAliasIfUnused_frame order idx a.2 a.1
  ⟨foldl_frame (fun idx a => (frame idx a).1) _ idx,
    foldl_frame (fun idx a => (frame idx a).2) _ idx⟩

theorem declareAliases_frame (w : Worker) :
    (declareAliases w idx).modelIndex = idx.modelIndex ∧
      (declareAliases w idx).hashRings = idx.hashRings :=
  have frame := fun idx (a : String × String) => addModelAlias_frame idx a.2 a.1
  ⟨foldl_frame (fun idx a => (frame idx a).1) _ idx,
    foldl_frame (fun idx a => (frame idx a).2) _ idx⟩

section

variable (ms : List String)

theorem foldl_enterModel_modelIndex (h : H) :
    (ms.foldl (enterModel fleet placing order h) idx).modelIndex =
      ms.foldl (fun t m => addWorker fleet t m h) idx.modelIndex :=
  .symm <| foldl_hom Indexes.modelIndex fun idx m => by
    rw [enterModel, dropAliasShadowedByModel, (rebuildHashRing_frame ..).1, addWorkerToModelIndex]

theorem foldl_renewModel_modelIndex (h : H) :
    (ms.foldl (renewModel fleet placing order h) idx).modelIndex =
      ms.foldl (fun t m => addWorker fleet t m h) idx.modelIndex :=
  .symm <| foldl_hom Indexes.modelIndex fun idx m => by
    rw [renewModel, (rebuildHashRing_frame ..).1, addWorkerToModelIndex]

theorem foldl_removeWorker_modelIndex (url : String) :
    (ms.foldl (removeWorkerFromModelIndex fleet placing order url) idx).modelIndex =
      ms.foldl (fun t m => dropWorker fleet t m url) idx.modelIndex :=
  .symm <| foldl_hom Indexes.modelIndex fun idx m => by
    rw [removeWorkerFromModelIndex, (rebuildHashRing_frame ..).1]

theorem foldl_renewModel_modelAliasIndex (h : H) :
    (ms.foldl (renewModel fleet placing order h) idx).modelAliasIndex =
      idx.modelAliasIndex :=
  foldl_frame (fun idx m => by
    rw [renewModel, (rebuildHashRing_frame ..).2, addWorkerToModelIndex]) _ _

theorem foldl_removeWorker_modelAliasIndex (url : String) :
    (ms.foldl (removeWorkerFromModelIndex fleet placing order url) idx).modelAliasIndex =
      idx.modelAliasIndex :=
  foldl_frame (fun idx m => by
    rw [removeWorkerFromModelIndex, (rebuildHashRing_frame ..).2]) _ _

theorem foldl_enterModel_lookup_alias (h : H) (a : String) :
    (ms.foldl (enterModel fleet placing order h) idx).modelAliasIndex.lookup a =
      if a ∈ ms then none else idx.modelAliasIndex.lookup a := by
  induction ms generalizing idx with
  | nil => simp
  | cons m ms ih =>
    rw [foldl_cons, ih, enterModel, dropAliasShadowedByModel,
      addWorkerToModelIndex]
    simp only [lookup_erase_if]
    by_cases ha : a = m
    · simp [ha]
    · simp [ha]

end

end Frames

/-! ## The aliases -/

variable {idx : Indexes H}

theorem modelDeclaresAlias_iff : idx.modelDeclaresAlias fleet m a ↔
      ∃ h ∈ listed idx.modelIndex m, (fleet.worker h).declaresAlias m a := by
  rw [modelDeclaresAlias, listed]
  rcases idx.modelIndex.lookup m with _ | l <;> simp

/-- An alias is no model, and it maps to a model a listed worker of which declares it, unless the
pair is one of those still to be released. -/
def Declared (fleet : Fleet H) (idx : Indexes H) (pending : List (String × String)) : Prop :=
  ∀ a m, idx.modelAliasIndex.lookup a = some m →
    idx.modelIndex.lookup a = none ∧
      ((∃ h ∈ listed idx.modelIndex m, (fleet.worker h).declaresAlias m a) ∨ (a, m) ∈ pending)

theorem Declared.removeModelAliasIfUnused {pending : List (String × String)}
    (hd : Declared fleet idx ((a, m) :: pending)) (order : Shuffle String) :
    Declared fleet (idx.removeModelAliasIfUnused fleet order a m) pending := by
  intro a' m' hlookup
  rw [(removeModelAliasIfUnused_frame ..).1]
  -- Every other alias, and this one under another model, is as it was.
  have hkeep : ∀ {m'' : String}, idx.modelAliasIndex.lookup a' = some m'' → (a', m'') ≠ (a, m) →
      idx.modelIndex.lookup a' = none ∧
        ((∃ h ∈ listed idx.modelIndex m'', (fleet.worker h).declaresAlias m'' a') ∨
          (a', m'') ∈ pending) := by
    intro m'' hl hne
    obtain ⟨hnone, hor⟩ := hd a' m'' hl
    exact ⟨hnone, hor.imp_right fun hmem => (mem_cons.mp hmem).resolve_left hne⟩
  rw [Indexes.removeModelAliasIfUnused] at hlookup
  split at hlookup
  · rename_i hnone
    refine hkeep hlookup ?_
    rintro ⟨⟩
    rw [hnone] at hlookup
    cases hlookup
  · rename_i current hcurrent
    split at hlookup
    · rename_i hother
      refine hkeep hlookup ?_
      rintro ⟨⟩
      exact hother (Option.some.inj (hcurrent.symm.trans hlookup))
    · rename_i hsame
      rw [not_not] at hsame
      subst hsame
      split at hlookup
      · rename_i hdeclares
        obtain ⟨hnone, -⟩ := hd a' m' hlookup
        by_cases hpair : (a', m') = (a, current)
        · cases hpair
          exact ⟨hnone, .inl (modelDeclaresAlias_iff.mp hdeclares)⟩
        · exact hkeep hlookup hpair
      · split at hlookup
        · rename_i next hfind
          rcases lookup_insert_eq_some.mp hlookup with ⟨ha, hlookup⟩ | ⟨rfl, rfl⟩
          · exact hkeep hlookup fun hpair => ha (Prod.mk.inj hpair).1
          · have hdeclares := find?_some hfind
            rw [Bool.and_eq_true] at hdeclares
            exact ⟨(hd a' current hcurrent).1, .inl (modelDeclaresAlias_iff.mp hdeclares.2)⟩
        · obtain ⟨ha, hlookup⟩ := lookup_erase_eq_some.mp hlookup
          exact hkeep hlookup fun hpair => ha (Prod.mk.inj hpair).1

/-- Released, no alias is left that only the worker declared. -/
theorem Declared.releaseAliases (hd : Declared fleet idx (declaredAliases w))
    (order : Shuffle String) : Declared fleet (releaseAliases fleet order w idx) [] := by
  rw [Indexes.releaseAliases]
  generalize declaredAliases w = pairs at hd
  induction pairs generalizing idx with
  | nil => exact hd
  | cons p pairs ih => exact ih (hd.removeModelAliasIfUnused order)

theorem Declared.addModelAlias (hd : Declared fleet idx [])
    (hdeclares : ∃ h ∈ listed idx.modelIndex m, (fleet.worker h).declaresAlias m a) :
    Declared fleet (idx.addModelAlias a m) [] := by
  intro a' m' hlookup
  rw [(addModelAlias_frame ..).1]
  rw [Indexes.addModelAlias] at hlookup
  split_ifs at hlookup with hself hunknown hmodel
  · exact hd a' m' hlookup
  · exact hd a' m' hlookup
  · exact hd a' m' (lookup_erase_eq_some.mp hlookup).2
  · split at hlookup
    · exact hd a' m' hlookup
    · rcases lookup_insert_eq_some.mp hlookup with ⟨-, hlookup⟩ | ⟨rfl, rfl⟩
      · exact hd a' m' hlookup
      · exact ⟨by simpa using hmodel, .inl hdeclares⟩

theorem Declared.declareAliases {h : H} (hd : Declared fleet idx [])
    (hlisted : ∀ m ∈ (fleet.worker h).modelIds, h ∈ listed idx.modelIndex m) :
    Declared fleet (declareAliases (fleet.worker h) idx) [] := by
  have hpairs : ∀ p ∈ declaredAliases (fleet.worker h),
      ∃ x ∈ listed idx.modelIndex p.2, (fleet.worker x).declaresAlias p.2 p.1 := by
    intro p hp
    have hdeclares := Worker.declaresAlias_iff.mpr hp
    exact ⟨h, hlisted _ (Worker.mem_modelIds_of_declaresAlias hdeclares), hdeclares⟩
  rw [Indexes.declareAliases]
  generalize declaredAliases (fleet.worker h) = pairs at hpairs
  induction pairs generalizing idx with
  | nil => exact hd
  | cons p pairs ih =>
    have hp := hpairs p mem_cons_self
    refine ih (hd.addModelAlias hp) ?_ ?_
    · rwa [(addModelAlias_frame ..).1]
    · rw [(addModelAlias_frame ..).1]
      exact fun q hq => hpairs q (mem_cons_of_mem _ hq)

/-! ## The live workers -/

/-- The index and the aliases are those of the live workers. -/
structure Agree (fleet : Fleet H) (idx : Indexes H) (live : H → Prop) : Prop where
  exact : Exact idx.modelIndex fun m h => live h ∧ m ∈ (fleet.worker h).modelIds
  declared : Declared fleet idx []

def ByUrl (fleet : Fleet H) (live : H → Prop) : Prop :=
  ∀ x y, live x → live y → (fleet.worker x).url = (fleet.worker y).url → x = y

variable {live : H → Prop}

theorem Agree.congr {live' : H → Prop} (h : Agree fleet idx live) (hl : ∀ x, live x ↔ live' x) :
    Agree fleet idx live' :=
  ⟨h.exact.congr fun m x => by rw [hl], h.declared⟩

/-- What keeps the aliases declared: an alias that stays is still no model, and a worker that goes
leaves its aliases to be released. -/
theorem Agree.declared_of_exact (hagree : Agree fleet idx live) {idx' : Indexes H}
    {live' : H → Prop} {pending : List (String × String)}
    (hexact : Exact idx'.modelIndex fun m x => live' x ∧ m ∈ (fleet.worker x).modelIds)
    (hlookup : ∀ a m, idx'.modelAliasIndex.lookup a = some m →
      idx.modelAliasIndex.lookup a = some m ∧ ∀ y, live' y → a ∈ (fleet.worker y).modelIds →
        ∃ z, live z ∧ a ∈ (fleet.worker z).modelIds)
    (hstays : ∀ x, live x → live' x ∨ pending = declaredAliases (fleet.worker x)) :
    Declared fleet idx' pending := by
  intro a m hl
  obtain ⟨hl, hnew⟩ := hlookup a m hl
  obtain ⟨hnone, hor⟩ := hagree.declared a m hl
  obtain ⟨x, hx, hdeclares⟩ := hor.resolve_right (by simp)
  rw [hagree.exact.lookup_eq_none] at hnone
  rw [hagree.exact.mem_iff] at hx
  refine ⟨hexact.lookup_eq_none.mpr fun y hy => ?_, ?_⟩
  · obtain ⟨z, hz⟩ := hnew y hy.1 hy.2
    exact hnone z hz
  · rcases hstays x hx.1 with hlive | rfl
    · exact .inl ⟨x, (hexact.mem_iff m x).mpr ⟨hlive, hx.2⟩, hdeclares⟩
    · exact .inr (Worker.declaresAlias_iff.mp hdeclares)

/-- **A registration indexes the worker**, where no live one has its URL. -/
theorem Agree.register (hagree : Agree fleet idx live) (order : Shuffle String) {h : H}
    (hnew : ∀ x, live x → (fleet.worker x).url ≠ (fleet.worker h).url) :
    Agree fleet (idx.register fleet placing order h) fun x => live x ∨ x = h := by
  have hexact : Exact ((fleet.worker h).modelIds.foldl (enterModel fleet placing order h)
      idx).modelIndex fun m x => (live x ∨ x = h) ∧ m ∈ (fleet.worker x).modelIds := by
    rw [foldl_enterModel_modelIndex]
    refine (hagree.exact.foldl_addWorker (fleet.worker h).modelIds h).congr fun m x => ?_
    by_cases hx : x = h
    · subst hx
      tauto
    · tauto
  have hdeclared : Declared fleet ((fleet.worker h).modelIds.foldl
      (enterModel fleet placing order h) idx) [] := by
    refine hagree.declared_of_exact hexact (fun a m hlookup => ?_) fun x hx => .inl (.inl hx)
    rw [foldl_enterModel_lookup_alias] at hlookup
    split at hlookup
    · cases hlookup
    · rename_i ha
      refine ⟨hlookup, fun y hy hmem => ⟨y, hy.resolve_right ?_, hmem⟩⟩
      rintro rfl
      exact ha hmem
  refine ⟨?_, ?_⟩
  · rw [Indexes.register, (declareAliases_frame ..).1]
    exact hexact
  · exact hdeclared.declareAliases fun m hm => (hexact.mem_iff m h).mpr ⟨.inr rfl, hm⟩

/-- **A removal takes the worker out of the indexes.** -/
theorem Agree.remove (hagree : Agree fleet idx live) (order : Shuffle String)
    (hurl : ByUrl fleet live) {h : H} (hlive : live h) :
    Agree fleet (idx.remove fleet placing order h) fun x => live x ∧ x ≠ h := by
  have hexact : Exact ((fleet.worker h).modelIds.foldl
      (removeWorkerFromModelIndex fleet placing order (fleet.worker h).url)
      idx).modelIndex fun m x => (live x ∧ x ≠ h) ∧ m ∈ (fleet.worker x).modelIds := by
    rw [foldl_removeWorker_modelIndex]
    refine (hagree.exact.foldl_dropWorker _ _).congr fun m x => ?_
    by_cases hx : x = h
    · subst hx
      tauto
    · tauto
  have hdeclared : Declared fleet ((fleet.worker h).modelIds.foldl
      (removeWorkerFromModelIndex fleet placing order (fleet.worker h).url) idx)
      (declaredAliases (fleet.worker h)) := by
    refine hagree.declared_of_exact hexact (fun a m hlookup => ?_) fun x hx => ?_
    · rw [foldl_removeWorker_modelAliasIndex] at hlookup
      exact ⟨hlookup, fun y hy hmem => ⟨y, hy.1, hmem⟩⟩
    · by_cases hxh : x = h
      · exact .inr (hxh ▸ rfl)
      · exact .inl ⟨hx, hxh⟩
  refine ⟨?_, hdeclared.releaseAliases order⟩
  rw [Indexes.remove, (releaseAliases_frame ..).1]
  exact hexact

theorem replaceModels_exact {idx : Indexes H} {live : H → Prop} (hagree : Agree fleet idx live)
    (order : Shuffle String) (hurl : ByUrl fleet live) {old new : H} (hlive : live old)
    (hsame : (fleet.worker old).url = (fleet.worker new).url) :
    Exact (idx.replaceModels fleet placing order old new).modelIndex fun m x =>
      (live x ∧ x ≠ old ∨ x = new) ∧ m ∈ (fleet.worker x).modelIds := by
  rw [replaceModels, foldl_renewModel_modelIndex, foldl_enterModel_modelIndex,
    foldl_removeWorker_modelIndex]
  refine (((hagree.exact.foldl_dropWorker _ _).foldl_addWorker _ _).foldl_addWorker _ _).congr
    fun m x => ?_
  simp only [Shuffle.mem, mem_filter, decide_eq_true_eq]
  by_cases hnew : x = new
  · subst hnew
    by_cases hold : x = old
    · subst hold
      tauto
    · tauto
  · by_cases hold : x = old
    · subst hold
      tauto
    · have := hurl x old
      rw [← hsame]
      tauto

/-- **A replacement takes the place of its worker in the indexes.** -/
theorem Agree.replace (hagree : Agree fleet idx live) (order : Shuffle String)
    (hurl : ByUrl fleet live) {old new : H} (hlive : live old)
    (hsame : (fleet.worker old).url = (fleet.worker new).url) :
    Agree fleet (idx.replace fleet placing order old new) fun x =>
      live x ∧ x ≠ old ∨ x = new := by
  have hexact := @replaceModels_exact H fleet placing idx live hagree order hurl old new hlive
    hsame
  have hdeclared : Declared fleet (idx.replaceModels fleet placing order old new)
      (declaredAliases (fleet.worker old)) := by
    refine hagree.declared_of_exact hexact (fun a m hlookup => ?_) fun x hx => ?_
    · rw [replaceModels, foldl_renewModel_modelAliasIndex, foldl_enterModel_lookup_alias,
        foldl_removeWorker_modelAliasIndex] at hlookup
      split at hlookup
      · cases hlookup
      · rename_i ha
        simp only [Shuffle.mem, mem_filter, decide_eq_true_eq, not_and, not_not] at ha
        refine ⟨hlookup, ?_⟩
        rintro y (hy | rfl) hmem
        · exact ⟨y, hy.1, hmem⟩
        · exact ⟨old, hlive, ha hmem⟩
    · by_cases hxo : x = old
      · exact .inr (hxo ▸ rfl)
      · exact .inl (.inl ⟨hx, hxo⟩)
  refine ⟨?_, ?_⟩
  · rw [Indexes.replace, (declareAliases_frame ..).1, (releaseAliases_frame ..).1]
    exact hexact
  · refine (hdeclared.releaseAliases order).declareAliases fun m hm => ?_
    rw [(releaseAliases_frame ..).1]
    exact (hexact.mem_iff m new).mpr ⟨.inr rfl, hm⟩

end Indexes

end Smg.Gateway
