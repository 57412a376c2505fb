import Smg.Lib.Trace
import Smg.Mesh.LwwRuns
import Smg.Mesh.RateLimit

/-!
# The router over a node's engines, and the identity of its operations

`crdt_kv/crdt.rs`: a node routes each key to the engine registered for the longest matching prefix,
or to a default last-writer-wins engine.  All engines of a node stamp their writes from one Lamport
clock, so that the pair of timestamp and replica id names an operation across all of them.

An engine of the model carries the clock as a field; `onEngine` hands the shared reading to the
engine a call is for and takes it back after.

## What is here

* `Engine`, `CrdtOrMap` and its calls: `register`, `insert`, `remove`, `get`, `merge`.
* `Engine.Bounded`: no version an engine has recorded, and no operation of its log, is newer than
  the clock.  Every call keeps it (`putLocal_spec`, `deleteLocal_spec`, `applyRemoteOps_spec`).
* `NodeRun`: a node with the operations it has emitted and the timestamps it has observed, and its
  invariant over all runs.  **As long as the clock has not reached the top** an emitted operation is
  newer than everything observed, so no two have one id, and a last-writer-wins put is read back.
* At the top the clock stands still and all three fail (`saturated_clock_repeats_ids`).
-/

set_option autoImplicit false

namespace Smg.Mesh

open List ValueMetadata

/-! ## Engines -/

/-- An engine of a node. -/
inductive Engine where
  | lww (e : LwwEngine)
  | rateLimit (e : RateLimitEngine)

/-- How conflicting writes under a prefix are merged. -/
inductive MergeStrategy where
  | lastWriterWins
  /-- The greatest epoch and count win. -/
  | epochMaxWins
  deriving DecidableEq, Repr

namespace Engine

def new (strategy : MergeStrategy) (replicaId : ReplicaId) (clock : Timestamp) : Engine :=
  match strategy with
  | .lastWriterWins => .lww (.new replicaId clock)
  | .epochMaxWins => .rateLimit (.new replicaId clock)

def clock : Engine → Timestamp
  | .lww e => e.clock
  | .rateLimit e => e.clock

def withClock (t : Timestamp) : Engine → Engine
  | .lww e => .lww { e with clock := t }
  | .rateLimit e => .rateLimit { e with clock := t }

/-- The replica the engine stamps its writes with. -/
def replicaId : Engine → ReplicaId
  | .lww e => e.replicaId
  | .rateLimit e => e.replicaId

variable (codec : ShardCodec) (srt : LogSort)

def putLocal (key : String) (value : Bytes) : Engine → Engine × Option Bytes
  | .lww e => (.lww (e.putLocal srt key value).1, (e.putLocal srt key value).2)
  | .rateLimit e =>
    (.rateLimit (e.putLocal codec srt key value).1, (e.putLocal codec srt key value).2)

def deleteLocal (key : String) : Engine → Engine × Option Bytes
  | .lww e => (.lww (e.deleteLocal srt key).1, (e.deleteLocal srt key).2)
  | .rateLimit e => (.rateLimit (e.deleteLocal codec srt key).1, (e.deleteLocal codec srt key).2)

def get (key : String) : Engine → Option Bytes
  | .lww e => e.get key
  | .rateLimit e => e.get codec key

def applyRemoteOps (ops : List Operation) : Engine → Engine × List CrdtChange
  | .lww e => (.lww (e.applyRemoteOps srt ops).1, (e.applyRemoteOps srt ops).2)
  | .rateLimit e =>
    (.rateLimit (e.applyRemoteOps codec srt ops).1, (e.applyRemoteOps codec srt ops).2)

/-- The operation a put appends to the log: none when the write is not accepted. -/
def putOp (key : String) (value : Bytes) : Engine → Option Operation
  | .lww e =>
    if (LwwEngine.recordInsert (e.metadata.lookup key) (tick e.clock) e.replicaId).2 then
      some (.insert key value (tick e.clock) e.replicaId)
    else none
  | .rateLimit e =>
    if (({ e with clock := tick e.clock }).mergeInsert codec key value
        ⟨tick e.clock, e.replicaId⟩).2.changed then
      some (.insert key value (tick e.clock) e.replicaId)
    else none

def deleteOp (key : String) : Engine → Option Operation
  | .lww e =>
    if (LwwEngine.recordRemove (e.metadata.lookup key) (tick e.clock) e.replicaId).2 then
      some (.remove key (tick e.clock) e.replicaId)
    else none
  | .rateLimit e =>
    if (({ e with clock := tick e.clock }).mergeRemove codec key
        ⟨tick e.clock, e.replicaId⟩).2.changed then
      some (.remove key (tick e.clock) e.replicaId)
    else none

end Engine

/-! ## The router -/

/-- A node's key-value map. -/
structure CrdtOrMap where
  /-- Engines by registered prefix, the longest first. -/
  engines : List (String × Engine)
  /-- The engine of keys that match no prefix. -/
  defaultEngine : Engine
  clock : Timestamp
  replicaId : ReplicaId

namespace CrdtOrMap

/-- A map without registered prefixes, its clock at zero. -/
def withReplicaId (replicaId : ReplicaId) : CrdtOrMap where
  engines := []
  defaultEngine := .new .lastWriterWins replicaId 0
  clock := 0
  replicaId := replicaId

/-- Registers a strategy for a prefix; a prefix is registered once. -/
def register (m : CrdtOrMap) (ns : String) (strategy : MergeStrategy) : CrdtOrMap :=
  if m.engines.any fun e => e.1 = ns then m
  else
    { m with
      engines := sortByKey (fun e => OrderDual.toDual e.1.utf8ByteSize)
        (m.engines ++ [(ns, .new strategy m.replicaId m.clock)]) }

/-- Which registered engine a key is routed to; `none` is the default engine. -/
def routeOf (m : CrdtOrMap) (key : String) : Option Nat :=
  m.engines.findIdx? fun e => e.1.toList.isPrefixOf key.toList

def engineAt (m : CrdtOrMap) : Option Nat → Engine
  | none => m.defaultEngine
  | some i => ((m.engines[i]?).map Prod.snd).getD m.defaultEngine

/-- Runs a call on the engine of a route, with the shared clock. -/
def onEngine {α : Type} (m : CrdtOrMap) (route : Option Nat) (call : Engine → Engine × α) :
    CrdtOrMap × α :=
  let (e, a) := call ((m.engineAt route).withClock m.clock)
  match route with
  | none => ({ m with defaultEngine := e, clock := e.clock }, a)
  | some i => ({ m with engines := m.engines.modify i fun x => (x.1, e), clock := e.clock }, a)

variable (codec : ShardCodec) (srt : LogSort)

def insert (m : CrdtOrMap) (key : String) (value : Bytes) : CrdtOrMap × Option Bytes :=
  m.onEngine (m.routeOf key) (Engine.putLocal codec srt key value)

def remove (m : CrdtOrMap) (key : String) : CrdtOrMap × Option Bytes :=
  m.onEngine (m.routeOf key) (Engine.deleteLocal codec srt key)

def get (m : CrdtOrMap) (key : String) : Option Bytes :=
  (m.engineAt (m.routeOf key)).get codec key

/-- Hands each engine on the list its part of an incoming log. -/
def mergeRoutes (route : String → Option Nat) (log : List Operation) :
    List (Option Nat) → CrdtOrMap → CrdtOrMap × List CrdtChange
  | [], m => (m, [])
  | r :: rs, m =>
    let ops := log.filter fun op => route op.key = r
    if ops.isEmpty then mergeRoutes route log rs m
    else
      let (m, changes) := m.onEngine r (Engine.applyRemoteOps codec srt ops)
      let (m, more) := mergeRoutes route log rs m
      (m, changes ++ more)

/-- Merges an incoming operation log: the registered engines in turn, then the default one. -/
def merge (m : CrdtOrMap) (log : List Operation) : CrdtOrMap × List CrdtChange :=
  mergeRoutes codec srt m.routeOf log ((List.range m.engines.length).map some ++ [none]) m

end CrdtOrMap

/-! ## What a call does to the clock and to recorded versions -/

variable {key : String} {t t' : Timestamp}

namespace LwwEngine

theorem mem_of_mem_compactKeyMetadata {versions : List ValueMetadata} {v : ValueMetadata}
    (h : v ∈ compactKeyMetadata versions) : v ∈ versions := by
  rw [compactKeyMetadata] at h
  split at h
  · exact h
  · split at h
    · rename_i w hw
      rw [mem_singleton.mp h]
      exact (lastMax_spec hw).1
    · exact h

/-- An offer leaves the versions there were and perhaps the offered one. -/
theorem mem_offered {c d : Prop} [Decidable c] [Decidable d] {vs : List ValueMetadata}
    {m v : ValueMetadata}
    (h : v ∈ (if c then (compactKeyMetadata vs, false) else if d then (compactKeyMetadata vs, false)
      else (compactKeyMetadata (vs ++ [m]), true)).1) : v ∈ vs ∨ v = m := by
  split at h
  · exact .inl (mem_of_mem_compactKeyMetadata h)
  · split at h
    · exact .inl (mem_of_mem_compactKeyMetadata h)
    · simpa using mem_of_mem_compactKeyMetadata h

/-- No recorded version is newer than `t`. -/
def MetadataBounded (t : Timestamp) (e : LwwEngine) : Prop :=
  ∀ k vs, e.metadata.lookup k = some vs → ∀ v ∈ vs, v.timestamp ≤ t

variable {e : LwwEngine}

/-- Rewriting one key's versions with bounded ones keeps the bound. -/
theorem MetadataBounded.insert {e' : LwwEngine} (h : e.MetadataBounded t) (htt : t ≤ t')
    {vs : List ValueMetadata} (he : e'.metadata = e.metadata.insert key vs)
    (hvs : ∀ v ∈ vs, v.timestamp ≤ t') : e'.MetadataBounded t' := by
  intro k ws hk v hv
  rw [he] at hk
  rcases Table.lookup_insert_eq_some.mp hk with ⟨-, hk⟩ | ⟨-, rfl⟩
  · exact (h k ws hk v hv).trans htt
  · exact hvs v hv

theorem offer_bounded {op : Operation} (h : e.MetadataBounded t) (htt : t ≤ t')
    (hts : op.timestamp ≤ t') :
    ∀ v ∈ (offer (e.metadata.lookup op.key) op).1, v.timestamp ≤ t' := by
  intro v hv
  cases hvs : e.metadata.lookup op.key with
  | none =>
    rw [hvs] at hv
    cases op <;> exact mem_singleton.mp hv ▸ hts
  | some vs =>
    rw [hvs] at hv
    cases op
    all_goals
      rcases mem_offered hv with hv | rfl
      · exact (h _ vs hvs v hv).trans htt
      · exact hts

theorem foldl_applyOp_spec (h : e.MetadataBounded e.clock) (ops : List Operation) :
    let e' := ops.foldl applyOp e
    e.clock ≤ e'.clock ∧ (∀ op ∈ ops, op.timestamp ≤ e'.clock) ∧ e'.MetadataBounded e'.clock ∧
      e'.replicaId = e.replicaId ∧ e'.log = e.log := by
  induction ops generalizing e with
  | nil => exact ⟨le_rfl, by simp, h, rfl, rfl⟩
  | cons op ops ih =>
    have hle := le_update e.clock op.timestamp
    have hremote := remote_le_update e.clock op.timestamp
    have hnext : (e.applyOp op).MetadataBounded (update e.clock op.timestamp) := by
      rw [applyOp_eq]
      exact h.insert hle rfl (offer_bounded h hle hremote)
    rw [applyOp_eq] at hnext
    rw [foldl_cons, applyOp_eq]
    obtain ⟨hle', hops, hrest⟩ := ih hnext
    exact ⟨hle.trans hle', forall_mem_cons.mpr ⟨hremote.trans hle', hops⟩, hrest⟩

end LwwEngine

variable {op : Operation}

namespace Engine

variable (codec : ShardCodec) (srt : LogSort)

/-- Nothing the engine compares a write with is newer than `t`: for last writer wins the recorded
versions and the log. -/
def Bounded (t : Timestamp) : Engine → Prop
  | .lww e => e.MetadataBounded t ∧ ∀ op ∈ e.log, op.timestamp ≤ t
  | .rateLimit _ => True

theorem bounded_new (strategy : MergeStrategy) (replicaId : ReplicaId) (clock t : Timestamp) :
    (new strategy replicaId clock).Bounded t := by
  cases strategy with
  | lastWriterWins => exact ⟨nofun, nofun⟩
  | epochMaxWins => trivial

variable {e : Engine}

theorem Bounded.mono (htt : t ≤ t') (h : e.Bounded t) : e.Bounded t' := by
  cases e with
  | lww e => exact ⟨fun k vs hk v hv => (h.1 k vs hk v hv).trans htt,
      fun op hop => (h.2 op hop).trans htt⟩
  | rateLimit e => trivial

theorem bounded_withClock : (e.withClock t').Bounded t ↔ e.Bounded t := by
  cases e <;> rfl

@[simp] theorem clock_withClock (t : Timestamp) (e : Engine) : (e.withClock t).clock = t := by
  cases e <;> rfl

@[simp] theorem replicaId_withClock (t : Timestamp) (e : Engine) :
    (e.withClock t).replicaId = e.replicaId := by
  cases e <;> rfl

/-- The clock ticks, and the engine stays bounded by it. -/
def Ticks (e e' : Engine) : Prop :=
  e'.clock = tick e.clock ∧ e'.Bounded e'.clock ∧ e'.replicaId = e.replicaId

/-- What a local write of the last-writer-wins engine leaves. -/
theorem lww_local_spec {e e' : LwwEngine} (h : (Engine.lww e).Bounded e.clock)
    (hw : LwwEngine.Writes e e' op) (hop : op.timestamp = tick e.clock) :
    Ticks (.lww e) (.lww e') := by
  rw [Ticks, clock, clock]
  obtain ⟨hmeta, hlog⟩ := h.mono (le_tick e.clock)
  obtain ⟨hm, -, hl, hc, hr⟩ := hw
  rw [hc]
  refine ⟨rfl, ⟨hmeta.insert le_rfl (hm.trans (by rw [LwwEngine.applyOp_eq]))
    (LwwEngine.offer_bounded hmeta le_rfl hop.le), fun o ho => ?_⟩, hr⟩
  rcases hl o ho with ho | rfl
  · exact hlog o ho
  · exact hop.le

theorem putLocal_spec (h : e.Bounded e.clock) (key : String) (value : Bytes) :
    e.Ticks (e.putLocal codec srt key value).1 := by
  cases e with
  | rateLimit e =>
    have hm := (RateLimitEngine.mergeInsert_frame codec { e with clock := tick e.clock } key value
      ⟨tick e.clock, e.replicaId⟩).1
    simp only [Ticks, putLocal, RateLimitEngine.putLocal, Bounded, true_and]
    split <;> exact ⟨congrArg (·.clock) hm, congrArg (·.replicaId) hm⟩
  | lww e => exact lww_local_spec h LwwEngine.writes_putLocal rfl

theorem deleteLocal_spec (h : e.Bounded e.clock) (key : String) :
    e.Ticks (e.deleteLocal codec srt key).1 := by
  cases e with
  | rateLimit e =>
    have hm := RateLimitEngine.mergeRemove_frame codec { e with clock := tick e.clock } key
      ⟨tick e.clock, e.replicaId⟩
    simp only [Ticks, deleteLocal, RateLimitEngine.deleteLocal, Bounded, true_and]
    split <;> exact ⟨congrArg (·.clock) hm, congrArg (·.replicaId) hm⟩
  | lww e => exact lww_local_spec h LwwEngine.writes_deleteLocal rfl

/-- After a merge the clock has passed every timestamp of the batch. -/
theorem applyRemoteOps_spec (h : e.Bounded e.clock) (ops : List Operation) :
    let e' := (e.applyRemoteOps codec srt ops).1
    e.clock ≤ e'.clock ∧ (∀ op ∈ ops, op.timestamp ≤ e'.clock) ∧ e'.Bounded e'.clock ∧
      e'.replicaId = e.replicaId := by
  cases e with
  | rateLimit e =>
    simp only [applyRemoteOps, RateLimitEngine.applyRemoteOps, Bounded, true_and]
    split
    · rename_i hnil
      rw [isEmpty_iff.mp hnil]
      exact ⟨le_rfl, by simp, rfl⟩
    · obtain ⟨-, hr, hle, hops⟩ := RateLimitEngine.foldl_applyOp_frame codec
        (e.mergeLog codec srt (sortByKey Operation.version ops)) (sortByKey Operation.version ops)
      exact ⟨hle, fun op hop => hops op (mem_sortByKey.mpr hop), hr⟩
  | lww e =>
    obtain ⟨hmeta, hlog⟩ := h
    have hseen : ∀ {t : Timestamp}, e.clock ≤ t → (∀ op ∈ e.unseenOps ops, op.timestamp ≤ t) →
        ∀ op ∈ ops, op.timestamp ≤ t := by
      -- an operation of the batch is new, or the log has one with its id
      intro t hle hunseen op hop
      by_cases hlogged : e.log.any fun seen => seen.version == op.version
      · obtain ⟨seen, hs, he⟩ := any_eq_true.mp hlogged
        have hts : seen.timestamp = op.timestamp := congrArg Version.timestamp (beq_iff_eq.mp he)
        exact hts ▸ (hlog seen hs).trans hle
      · exact hunseen op (mem_sortByKey.mpr (mem_filter.mpr ⟨hop, by simp [hlogged]⟩))
    simp only [applyRemoteOps, LwwEngine.applyRemoteOps]
    split
    · rename_i hnil
      refine ⟨le_rfl, hseen le_rfl ?_, ⟨hmeta, hlog⟩, rfl⟩
      rw [isEmpty_iff.mp hnil]
      simp
    · obtain ⟨hle, hops, hb, hr, hl⟩ := LwwEngine.foldl_applyOp_spec
        (e := e.mergeLog srt (e.unseenOps ops)) hmeta (e.unseenOps ops)
      refine ⟨hle, hseen hle hops, ⟨hb, fun op hop => ?_⟩, hr⟩
      rw [hl] at hop
      rcases mem_append.mp (LwwEngine.mem_of_mem_compactByKey hop) with hop | hop
      · exact (hlog op hop).trans hle
      · exact hops op hop

theorem putOp_spec {value : Bytes} (h : e.putOp codec key value = some op) :
    op = .insert key value (tick e.clock) e.replicaId := by
  cases e <;> exact (Option.some.inj (Option.ite_none_right_eq_some.mp h).2).symm

theorem deleteOp_spec (h : e.deleteOp codec key = some op) :
    op = .remove key (tick e.clock) e.replicaId := by
  cases e <;> exact (Option.some.inj (Option.ite_none_right_eq_some.mp h).2).symm

end Engine

/-! ## Routing -/

variable {m : CrdtOrMap}

namespace CrdtOrMap

def allEngines (m : CrdtOrMap) : List Engine := m.engines.map Prod.snd ++ [m.defaultEngine]

theorem engineAt_mem (m : CrdtOrMap) (route : Option Nat) : m.engineAt route ∈ m.allEngines := by
  cases route with
  | none => simp [engineAt, allEngines]
  | some i =>
    simp only [engineAt, allEngines]
    cases h : m.engines[i]? with
    | none => simp
    | some x => exact mem_append_left _ (mem_map_of_mem (mem_of_getElem? h))

section OnEngine

variable {α : Type} (m : CrdtOrMap) (route : Option Nat) (call : Engine → Engine × α)

theorem clock_onEngine :
    (m.onEngine route call).1.clock = (call ((m.engineAt route).withClock m.clock)).1.clock := by
  cases route <;> rfl

theorem replicaId_onEngine : (m.onEngine route call).1.replicaId = m.replicaId := by
  cases route <;> rfl

theorem map_fst_onEngine :
    (m.onEngine route call).1.engines.map Prod.fst = m.engines.map Prod.fst := by
  cases route with
  | none => rfl
  | some i =>
    refine ext_getElem? fun j => ?_
    simp only [onEngine, getElem?_map, getElem?_modify]
    by_cases h : i = j
    · subst h
      cases m.engines[i]? <;> simp
    · cases m.engines[j]? <;> simp [h]

/-- A call replaces one engine. -/
theorem mem_allEngines_onEngine {e : Engine} (h : e ∈ (m.onEngine route call).1.allEngines) :
    e = (call ((m.engineAt route).withClock m.clock)).1 ∨ e ∈ m.allEngines := by
  cases route with
  | none =>
    simp only [allEngines, mem_append, mem_singleton] at h ⊢
    rcases h with h | h
    · exact .inr (.inl h)
    · exact .inl h
  | some i =>
    simp only [onEngine, allEngines, mem_append, mem_map] at h ⊢
    rcases h with ⟨x, hx, rfl⟩ | h
    · obtain ⟨j, hj⟩ := mem_iff_getElem?.mp hx
      rw [getElem?_modify] at hj
      by_cases hij : i = j
      · subst hij
        cases hget : m.engines[i]? with
        | none => simp [hget] at hj
        | some y =>
          simp only [hget, if_true, Option.map_some, Option.some.injEq, Option.map_eq_map] at hj
          exact .inl (by rw [← hj])
      · simp only [hij] at hj
        change id <$> m.engines[j]? = some x at hj
        rw [id_map] at hj
        exact .inr (.inl ⟨x, mem_of_getElem? hj, rfl⟩)
    · exact .inr (.inr h)

theorem engineAt_onEngine (hroute : ∀ i, route = some i → i < m.engines.length) :
    (m.onEngine route call).1.engineAt route =
      (call ((m.engineAt route).withClock m.clock)).1 := by
  cases route with
  | none => rfl
  | some i =>
    have hi := hroute i rfl
    simp [onEngine, engineAt, hi]

end OnEngine

theorem routeOf_eq (m m' : CrdtOrMap)
    (h : m'.engines.map Prod.fst = m.engines.map Prod.fst) (key : String) :
    m'.routeOf key = m.routeOf key := by
  have hmap : ∀ l : List (String × Engine), (l.findIdx? fun e => e.1.toList.isPrefixOf key.toList) =
      (l.map Prod.fst).findIdx? fun ns => ns.toList.isPrefixOf key.toList := by
    intro l
    rw [findIdx?_map]
    rfl
  rw [routeOf, routeOf, hmap, hmap, h]

theorem routeOf_lt (m : CrdtOrMap) {i : Nat} (h : m.routeOf key = some i) :
    i < m.engines.length := by
  rw [routeOf, findIdx?_eq_some_iff_findIdx_eq] at h
  exact h.1

/-- No engine of the node has recorded anything newer than the shared clock. -/
structure Bounded (m : CrdtOrMap) : Prop where
  engine : ∀ e ∈ m.allEngines, e.Bounded m.clock
  /-- All engines stamp with the node's replica id. -/
  replica : ∀ e ∈ m.allEngines, e.replicaId = m.replicaId

theorem register_spec (m : CrdtOrMap) (ns : String) (strategy : MergeStrategy) :
    (m.register ns strategy).clock = m.clock ∧ (m.register ns strategy).replicaId = m.replicaId ∧
      ∀ e ∈ (m.register ns strategy).allEngines,
        e ∈ m.allEngines ∨ e = .new strategy m.replicaId m.clock := by
  rw [register]
  split
  · exact ⟨rfl, rfl, fun e he => .inl he⟩
  · refine ⟨rfl, rfl, fun e he => ?_⟩
    simp only [allEngines, mem_append, mem_map, mem_singleton, mem_sortByKey] at he ⊢
    rcases he with ⟨x, hx | rfl, rfl⟩ | rfl
    · exact .inl (.inl ⟨x, hx, rfl⟩)
    · exact .inr rfl
    · exact .inl (.inr rfl)

theorem Bounded.register (h : m.Bounded) (ns : String) (strategy : MergeStrategy) :
    (m.register ns strategy).Bounded := by
  obtain ⟨hclock, hrep, hmem⟩ := m.register_spec ns strategy
  refine ⟨fun e he => ?_, fun e he => ?_⟩
  · rw [hclock]
    rcases hmem e he with he | rfl
    · exact h.engine e he
    · exact Engine.bounded_new _ _ _ _
  · rw [hrep]
    rcases hmem e he with he | rfl
    · exact h.replica e he
    · cases strategy <;> rfl

/-- The engine a call runs on, with the shared clock, is bounded by that clock. -/
theorem Bounded.at (h : m.Bounded) (route : Option Nat) :
    ((m.engineAt route).withClock m.clock).Bounded
      ((m.engineAt route).withClock m.clock).clock := by
  rw [Engine.clock_withClock, Engine.bounded_withClock]
  exact h.engine _ (m.engineAt_mem route)

theorem Bounded.onEngine {α : Type} (h : m.Bounded) (route : Option Nat)
    {call : Engine → Engine × α}
    (hle : m.clock ≤ (call ((m.engineAt route).withClock m.clock)).1.clock)
    (hb : (call ((m.engineAt route).withClock m.clock)).1.Bounded (call
      ((m.engineAt route).withClock m.clock)).1.clock)
    (hr : (call ((m.engineAt route).withClock m.clock)).1.replicaId =
      ((m.engineAt route).withClock m.clock).replicaId) :
    (m.onEngine route call).1.Bounded := by
  refine ⟨fun e he => ?_, fun e he => ?_⟩
  · rw [clock_onEngine]
    rcases mem_allEngines_onEngine m route call he with rfl | he
    · exact hb
    · exact (h.engine e he).mono hle
  · rw [replicaId_onEngine]
    rcases mem_allEngines_onEngine m route call he with rfl | he
    · rw [hr, Engine.replicaId_withClock]
      exact h.replica _ (m.engineAt_mem route)
    · exact h.replica e he

theorem Bounded.ticks {α : Type} (h : m.Bounded) (route : Option Nat) {call : Engine → Engine × α}
    (hcall : ∀ e : Engine, e.Bounded e.clock → e.Ticks (call e).1) :
    (m.onEngine route call).1.clock = tick m.clock ∧ (m.onEngine route call).1.Bounded ∧
      (m.onEngine route call).1.replicaId = m.replicaId := by
  obtain ⟨hc, hb, hr⟩ := hcall _ (h.at route)
  rw [Engine.clock_withClock] at hc
  exact ⟨(clock_onEngine m _ _).trans hc, h.onEngine _ (hc ▸ le_tick _) hb hr,
    replicaId_onEngine m _ _⟩

section Calls

variable (codec : ShardCodec) (srt : LogSort) {m : CrdtOrMap}

theorem mergeRoutes_spec (route : String → Option Nat) (ops : List Operation)
    (routes : List (Option Nat)) (h : m.Bounded) :
    let m' := (mergeRoutes codec srt route ops routes m).1
    m.clock ≤ m'.clock ∧ m'.Bounded ∧ m'.replicaId = m.replicaId ∧
      ∀ op ∈ ops, route op.key ∈ routes → op.timestamp ≤ m'.clock := by
  induction routes generalizing m with
  | nil => exact ⟨le_rfl, h, rfl, by simp⟩
  | cons r rs ih =>
    simp only [mergeRoutes]
    split
    · rename_i hnil
      obtain ⟨hle, hb, hr, hops⟩ := ih h
      refine ⟨hle, hb, hr, fun op hop hroute => ?_⟩
      rcases mem_cons.mp hroute with hroute | hroute
      · have : op ∈ ops.filter fun op => route op.key = r := mem_filter.mpr ⟨hop, by simp [hroute]⟩
        rw [isEmpty_iff.mp hnil] at this
        cases this
      · exact hops op hop hroute
    · obtain ⟨hc, hts, hb, hr⟩ := Engine.applyRemoteOps_spec codec srt (h.at r)
        (ops.filter fun op => route op.key = r)
      rw [Engine.clock_withClock] at hc
      have hm := h.onEngine r hc hb hr
      obtain ⟨hle, hb', hr', hops⟩ := ih hm
      rw [clock_onEngine] at hle
      refine ⟨hc.trans hle, hb', hr'.trans (replicaId_onEngine m _ _), fun op hop hroute => ?_⟩
      rcases mem_cons.mp hroute with hroute | hroute
      · exact (hts op (mem_filter.mpr ⟨hop, by simp [hroute]⟩)).trans hle
      · exact hops op hop hroute

theorem merge_spec (h : m.Bounded) (ops : List Operation) :
    m.clock ≤ (m.merge codec srt ops).1.clock ∧ (m.merge codec srt ops).1.Bounded ∧
      (m.merge codec srt ops).1.replicaId = m.replicaId ∧
      ∀ op ∈ ops, op.timestamp ≤ (m.merge codec srt ops).1.clock := by
  obtain ⟨hle, hb, hr, hops⟩ := mergeRoutes_spec codec srt m.routeOf ops
    ((range m.engines.length).map some ++ [none]) h
  refine ⟨hle, hb, hr, fun op hop => hops op hop ?_⟩
  cases hroute : m.routeOf op.key with
  | none => simp
  | some i =>
    exact mem_append_left _ (mem_map_of_mem (mem_range.mpr (m.routeOf_lt hroute)))

end Calls

end CrdtOrMap

/-! ## A last-writer-wins put is accepted below the top of the clock -/

theorem tick_gt (h : t.val + 1 < 2 ^ 64) : t < tick t := lt_saturatingSucc h

namespace LwwEngine

theorem recordInsert_accepts {versions : Option (List ValueMetadata)} {ts : Timestamp}
    (r : ReplicaId) (hvs : ∀ vs, versions = some vs → ∀ v ∈ vs, v.timestamp ≤ t) (hts : t < ts) :
    (recordInsert versions ts r).2 = true := by
  cases versions with
  | none => rfl
  | some vs =>
    have hold : ∀ v ∈ vs, v.versionKey < ⟨ts, r⟩ := fun v hv =>
      Version.lt_def.mpr (.inl ((hvs vs rfl v hv).trans_lt hts))
    have hmatch : ¬ (vs.any fun v => v.matchesVersion ts r) = true := by
      intro hany
      obtain ⟨v, hv, hm⟩ := any_eq_true.mp hany
      exact absurd (matchesVersion_iff.mp hm) (hold v hv).ne
    have hnewer : ¬ ((lastMax versionKey vs).any fun w => w.isNewerThan ts r) = true := by
      intro hany
      cases hw : lastMax versionKey vs with
      | none => simp [hw] at hany
      | some w =>
        rw [hw, Option.any_some, isNewerThan_iff] at hany
        exact absurd hany (not_lt_of_gt (hold w (lastMax_spec hw).1))
    simp only [recordInsert]
    rw [if_neg hmatch, if_neg hnewer]

theorem get_putLocal {e : LwwEngine} (srt : LogSort) (h : e.MetadataBounded e.clock)
    (hc : e.clock.val + 1 < 2 ^ 64) (key : String) (value : Bytes) :
    (e.putLocal srt key value).1.get key = some value := by
  have hacc := recordInsert_accepts e.replicaId (fun vs hvs => h key vs hvs) (tick_gt hc)
  simp only [putLocal, recordInsertMetadata]
  cases hr : recordInsert (e.metadata.lookup key) (tick e.clock) e.replicaId with
  | mk versions accepted =>
    rw [hr] at hacc
    cases hacc
    exact AList.lookup_insert _

end LwwEngine

/-! ## Runs of a node -/

/-- A node with the operations it has emitted, oldest first, and the remote timestamps it has been
handed. -/
structure NodeRun where
  map : CrdtOrMap
  /-- The operations local writes have appended to a log. -/
  emitted : List Operation
  /-- The timestamps of merged logs. -/
  observed : List Timestamp

/-- The calls a node serves. -/
inductive NodeAction where
  /-- Register a strategy for a prefix. -/
  | register (ns : String) (strategy : MergeStrategy)
  | put (key : String) (value : Bytes)
  | delete (key : String)
  | merge (log : List Operation)

namespace NodeRun

def init (replicaId : ReplicaId) : NodeRun := ⟨.withReplicaId replicaId, [], []⟩

/-- The engine that serves a key, with the shared clock. -/
def serving (s : NodeRun) (key : String) : Engine :=
  (s.map.engineAt (s.map.routeOf key)).withClock s.map.clock

variable (codec : ShardCodec) (srt : LogSort)

def nextOp (s : NodeRun) : NodeAction → Option Operation
  | .put key value => (s.serving key).putOp codec key value
  | .delete key => (s.serving key).deleteOp codec key
  | _ => none

def exec (s : NodeRun) (a : NodeAction) : NodeRun :=
  let emitted := s.emitted ++ (s.nextOp codec a).toList
  match a with
  | .register ns strategy => { s with map := s.map.register ns strategy }
  | .put key value => { s with map := (s.map.insert codec srt key value).1, emitted := emitted }
  | .delete key => { s with map := (s.map.remove codec srt key).1, emitted := emitted }
  | .merge log =>
    { s with
      map := (s.map.merge codec srt log).1
      observed := s.observed ++ log.map Operation.timestamp }

/-- Local writes are made while the clock is below the top of its range. -/
def Permitted (s : NodeRun) : NodeAction → Prop
  | .put _ _ | .delete _ => s.map.clock.val + 1 < 2 ^ 64
  | _ => True

/-- What holds along every run whose local writes are permitted. -/
structure Inv (replicaId : ReplicaId) (s : NodeRun) : Prop where
  /-- Engines are bounded by the clock. -/
  bounded : s.map.Bounded
  /-- The node keeps its replica id. -/
  replica : s.map.replicaId = replicaId
  /-- The clock has passed everything observed. -/
  observed : ∀ t ∈ s.observed, t ≤ s.map.clock
  /-- And everything emitted, by this replica. -/
  emitted : ∀ op ∈ s.emitted, op.timestamp ≤ s.map.clock ∧ op.replicaId = replicaId
  /-- Operations are emitted in order of their timestamps. -/
  increasing : s.emitted.Pairwise fun a b => a.timestamp < b.timestamp

theorem inv_init (replicaId : ReplicaId) : (init replicaId).Inv replicaId where
  bounded := by
    constructor <;> intro e he <;> rw [mem_singleton.mp he]
    · exact Engine.bounded_new .lastWriterWins replicaId 0 0
    · rfl
  replica := rfl
  observed := nofun
  emitted := nofun
  increasing := Pairwise.nil

variable {codec}

variable {replicaId : ReplicaId} {s : NodeRun} {a : NodeAction}

section

variable (h : s.Inv replicaId)

include h

/-- An emitted operation carries the tick and the node's replica id. -/
theorem Inv.nextOp (hop : s.nextOp codec a = some op) :
    op.timestamp = tick s.map.clock ∧ op.replicaId = replicaId := by
  have hrep : ∀ key, (s.serving key).replicaId = replicaId := fun key => by
    rw [serving, Engine.replicaId_withClock, ← h.replica]
    exact h.bounded.replica _ (s.map.engineAt_mem _)
  have hclock : ∀ key, (s.serving key).clock = s.map.clock := fun key => Engine.clock_withClock _ _
  cases a with
  | register ns strategy => cases hop
  | merge log => cases hop
  | put key value =>
    rw [Engine.putOp_spec codec hop, hclock, hrep]
    exact ⟨rfl, rfl⟩
  | delete key =>
    rw [Engine.deleteOp_spec codec hop, hclock, hrep]
    exact ⟨rfl, rfl⟩

/-- A permitted write is newer than everything observed and emitted before it. -/
theorem Inv.newer (ha : s.Permitted a) (hop : s.nextOp codec a = some op) :
    (∀ t ∈ s.observed, t < op.timestamp) ∧ ∀ o ∈ s.emitted, o.timestamp < op.timestamp := by
  have hlt : s.map.clock < op.timestamp := by
    rw [(h.nextOp hop).1]
    cases a with
    | register ns strategy => cases hop
    | merge log => cases hop
    | put key value => exact tick_gt ha
    | delete key => exact tick_gt ha
  exact ⟨fun t ht => (h.observed t ht).trans_lt hlt, fun o ho => (h.emitted o ho).1.trans_lt hlt⟩

theorem Inv.write (ha : s.Permitted a) (hb : m.Bounded) (hr : m.replicaId = s.map.replicaId)
    (hc : m.clock = tick s.map.clock) : Inv replicaId
      { s with map := m, emitted := s.emitted ++ (s.nextOp codec a).toList } where
  bounded := hb
  replica := hr.trans h.replica
  observed t ht := by
    rw [hc]
    exact (h.observed t ht).trans (le_tick _)
  emitted op hop := by
    rw [hc]
    rcases mem_append.mp hop with hop | hop
    · exact ⟨(h.emitted op hop).1.trans (le_tick _), (h.emitted op hop).2⟩
    · obtain ⟨hts, hrep⟩ := h.nextOp (Option.mem_toList.mp hop)
      exact ⟨hts.le, hrep⟩
  increasing := by
    rw [pairwise_append]
    refine ⟨h.increasing, ?_, fun o ho op hop => ?_⟩
    · cases s.nextOp codec a <;> simp
    · exact (h.newer ha (Option.mem_toList.mp hop)).2 o ho

/-- **Every call keeps the invariant.** -/
theorem Inv.exec (ha : s.Permitted a) : (s.exec codec srt a).Inv replicaId := by
  cases a with
  | register ns strategy =>
    obtain ⟨hclock, hrep, -⟩ := s.map.register_spec ns strategy
    exact ⟨h.bounded.register ns strategy, hrep.trans h.replica,
      fun t ht => hclock.symm ▸ h.observed t ht, fun op hop => hclock.symm ▸ h.emitted op hop,
      h.increasing⟩
  | put key value =>
    obtain ⟨hc, hb, hr⟩ := h.bounded.ticks (s.map.routeOf key) fun _ he =>
      Engine.putLocal_spec codec srt he key value
    exact h.write ha hb hr hc
  | delete key =>
    obtain ⟨hc, hb, hr⟩ := h.bounded.ticks (s.map.routeOf key) fun _ he =>
      Engine.deleteLocal_spec codec srt he key
    exact h.write ha hb hr hc
  | merge log =>
    obtain ⟨hle, hb, hr, hops⟩ := CrdtOrMap.merge_spec codec srt h.bounded log
    refine ⟨hb, hr.trans h.replica, fun t ht => ?_,
      fun op hop => ⟨(h.emitted op hop).1.trans hle, (h.emitted op hop).2⟩, h.increasing⟩
    rcases mem_append.mp ht with ht | ht
    · exact (h.observed t ht).trans hle
    · obtain ⟨op, hop, rfl⟩ := mem_map.mp ht
      exact hops op hop

theorem Inv.get_put {value : Bytes} (ha : s.Permitted (.put key value)) {e : LwwEngine}
    (he : s.map.engineAt (s.map.routeOf key) = .lww e) :
    (s.exec codec srt (.put key value)).map.get codec key = some value := by
  have hb := h.bounded.at (s.map.routeOf key)
  change ((s.map.insert codec srt key value).1).get codec key = some value
  rw [CrdtOrMap.get, CrdtOrMap.insert,
    CrdtOrMap.routeOf_eq s.map _ (CrdtOrMap.map_fst_onEngine s.map _ _),
    CrdtOrMap.engineAt_onEngine _ _ _ fun i hi => s.map.routeOf_lt hi, he]
  rw [he] at hb
  exact LwwEngine.get_putLocal srt hb.1 ha key value

end

end NodeRun

/-- **Operation identity.**  In every run whose local writes are made below the top of the clock: no
two emitted operations have one id, all carry the node's replica id, the next one emitted is newer
than every timestamp observed or emitted before it, and a put served by a last-writer-wins engine is
what is read next. -/
theorem operation_identity (codec : ShardCodec) (srt : LogSort) (replicaId : ReplicaId)
    {s : NodeRun}
    (hs : Reaches (NodeRun.exec codec srt) NodeRun.Permitted (NodeRun.init replicaId) s) :
    (s.emitted.Pairwise fun a b => a.version ≠ b.version) ∧
    (∀ op ∈ s.emitted, op.replicaId = replicaId) ∧
    (∀ a, s.Permitted a → ∀ op, s.nextOp codec a = some op →
      (∀ t ∈ s.observed, t < op.timestamp) ∧ ∀ o ∈ s.emitted, o.timestamp < op.timestamp) ∧
    ∀ key value e, s.Permitted (.put key value) → s.map.engineAt (s.map.routeOf key) = .lww e →
      (s.exec codec srt (.put key value)).map.get codec key = some value := by
  have h : s.Inv replicaId :=
    hs.invariant (NodeRun.inv_init replicaId) fun _ _ h ha => h.exec srt ha
  refine ⟨h.increasing.imp fun hlt he => ?_, fun op hop => (h.emitted op hop).2,
    fun a ha op hop => h.newer ha hop, fun key value e ha he => h.get_put srt ha he⟩
  exact absurd (congrArg Version.timestamp he) hlt.ne

/-- Two local writes after a merge. -/
theorem operation_identity_after_merge :
    ∃ s : NodeRun,
      s = [.merge [.insert "x" [9] 41 7], .put "a" [1], .put "b" [2]].foldl
        (NodeRun.exec fixintShards .stable) (NodeRun.init 3) ∧
      s.emitted = [.insert "a" [1] 43 3, .insert "b" [2] 44 3] ∧
      s.emitted.Pairwise fun a b => a.version ≠ b.version :=
  ⟨_, rfl, by decide +kernel, (operation_identity fixintShards .stable 3 <| reaches_foldl <| by
    refine ⟨trivial, ?_, ?_, trivial⟩
    · show Fin.val _ + 1 < 2 ^ 64
      decide +kernel
    · show Fin.val _ + 1 < 2 ^ 64
      decide +kernel).1⟩

/-- **At the top the clock stands still.**  A peer sends an operation with the greatest timestamp.
The two local puts after it are emitted with one id, which is not newer than the timestamp observed,
and a second put to a key is not read back. -/
theorem saturated_clock_repeats_ids :
    ∃ s : NodeRun,
      s = [.merge [.insert "x" [9] (Fin.last _) 7], .put "a" [1], .put "b" [2], .put "a" [3]].foldl
        (NodeRun.exec fixintShards .stable) (NodeRun.init 3) ∧
      s.emitted = [.insert "a" [1] (Fin.last _) 3, .insert "b" [2] (Fin.last _) 3] ∧
      s.observed = [Fin.last _] ∧ s.map.get fixintShards "a" = some [1] :=
  ⟨_, rfl, by decide +kernel, by decide +kernel, by decide +kernel⟩

end Smg.Mesh
