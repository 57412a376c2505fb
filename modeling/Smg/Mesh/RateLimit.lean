import Smg.Mesh.EpochMaxWinsMerge

/-!
# The rate-limit engine

`crdt_kv/engine/rate_limit.rs`, function by function.  The engine keeps a typed state per key and
the operation log it gossips.  Every incoming operation is merged into the state, seen before or
not, and appended to the log, which is then folded per key.

The wall-clock reading of a tombstone is only read by tombstone collection, which is not modelled,
and the mutation counter only by callers outside; both are left out.

`keyDen e k` is what the engine knows about a key.  `keyDen_applyOp`, `keyDen_applyRemoteOps` and
`keyDen_putLocal` say what each call adds to it: exactly the meaning of the operations concerned.
-/

set_option autoImplicit false

namespace Smg.Mesh

/-- The state of a rate-limit engine.  `clock` is the node's shared Lamport clock. -/
structure RateLimitEngine where
  entries : Table String RateLimitState
  log : List Operation
  clock : Timestamp
  replicaId : ReplicaId

/-- What merging an operation into one entry did. -/
structure MergeOutcome where
  changed : Bool
  /-- The bytes of the live shard before. -/
  priorLive : Option Bytes
  newIsLive : Bool
  deriving DecidableEq

def RateLimitState.isLive : RateLimitState → Bool
  | .live _ => true
  | .tombstone _ => false

namespace RateLimitEngine

def new (replicaId : ReplicaId) (clock : Timestamp) : RateLimitEngine where
  entries := ∅
  log := []
  clock := clock
  replicaId := replicaId

variable (codec : ShardCodec)

def epochMaxWinsFold : Fold := compactOperations codec

def currentEncoded (e : RateLimitEngine) (key : String) : Option Bytes :=
  (e.entries.lookup key).bind (·.encodeLive codec)

def get (e : RateLimitEngine) (key : String) : Option Bytes := e.currentEncoded codec key

/-- Merge `incoming` into an occupied entry. -/
def mergeOccupied (e : RateLimitEngine) (key : String) (state incoming : RateLimitState) :
    RateLimitEngine × MergeOutcome :=
  match state.merge incoming with
  | none => (e, ⟨false, state.encodeLive codec, state.isLive⟩)
  | some merged =>
    if merged ≠ state then
      ({ e with entries := e.entries.insert key merged },
        ⟨true, state.encodeLive codec, merged.isLive⟩)
    else (e, ⟨false, state.encodeLive codec, merged.isLive⟩)

/-- Merge an insert into the entry of its key.  A payload that does not decode changes nothing. -/
def mergeInsert (e : RateLimitEngine) (key : String) (value : Bytes) (version : Version) :
    RateLimitEngine × MergeOutcome :=
  match e.entries.lookup key with
  | some state =>
    match stateFromInsertValue codec value version with
    | none => (e, ⟨false, state.encodeLive codec, state.isLive⟩)
    | some incoming => e.mergeOccupied codec key state incoming
  | none =>
    match stateFromInsertValue codec value version with
    | none => (e, ⟨false, none, false⟩)
    | some incoming =>
      ({ e with entries := e.entries.insert key incoming }, ⟨true, none, incoming.isLive⟩)

def mergeRemove (e : RateLimitEngine) (key : String) (version : Version) :
    RateLimitEngine × MergeOutcome :=
  let incoming := RateLimitState.tombstone version
  match e.entries.lookup key with
  | some state => e.mergeOccupied codec key state incoming
  | none => ({ e with entries := e.entries.insert key incoming }, ⟨true, none, false⟩)

/-- A local write's operation, appended to the log. -/
def appendLocal (srt : LogSort) (e : RateLimitEngine) (op : Operation) : RateLimitEngine :=
  { e with log := appendOp srt (epochMaxWinsFold codec) e.entries.entries.length e.log op }

/-- Apply a local put; the second component is what the call returns. -/
def putLocal (srt : LogSort) (e : RateLimitEngine) (key : String) (value : Bytes) :
    RateLimitEngine × Option Bytes :=
  let timestamp := tick e.clock
  let e := { e with clock := timestamp }
  let (e, outcome) := e.mergeInsert codec key value ⟨timestamp, e.replicaId⟩
  let e :=
    if outcome.changed then e.appendLocal codec srt (.insert key value timestamp e.replicaId) else e
  (e, if outcome.changed && outcome.newIsLive then none else outcome.priorLive)

/-- Apply a local delete; the second component is what the call returns. -/
def deleteLocal (srt : LogSort) (e : RateLimitEngine) (key : String) :
    RateLimitEngine × Option Bytes :=
  let timestamp := tick e.clock
  let e := { e with clock := timestamp }
  let (e, outcome) := e.mergeRemove codec key ⟨timestamp, e.replicaId⟩
  let e :=
    if outcome.changed then e.appendLocal codec srt (.remove key timestamp e.replicaId) else e
  (e, if outcome.changed && !outcome.newIsLive then outcome.priorLive else none)

/-- Apply one remote operation: the clock observes its timestamp, the entry of its key is merged. -/
def applyOp (e : RateLimitEngine) (op : Operation) : RateLimitEngine :=
  let e := { e with clock := update e.clock op.timestamp }
  match op with
  | .insert key value timestamp replicaId =>
    (e.mergeInsert codec key value ⟨timestamp, replicaId⟩).1
  | .remove key timestamp replicaId => (e.mergeRemove codec key ⟨timestamp, replicaId⟩).1

def mergeLog (srt : LogSort) (e : RateLimitEngine) (ops : List Operation) : RateLimitEngine :=
  { e with log := mergeBatch srt (epochMaxWinsFold codec) e.log ops }

def applyRemoteOps (srt : LogSort) (e : RateLimitEngine) (ops : List Operation) :
    RateLimitEngine × List CrdtChange :=
  if ops.isEmpty then (e, [])
  else
    let ops := sortByKey Operation.version ops
    let e := e.mergeLog codec srt ops
    let before := valuesBefore (e.currentEncoded codec) ops
    let e := ops.foldl (applyOp codec) e
    (e, changes before (e.currentEncoded codec))

/-! ## What calls leave alone -/

section Frame

variable (e : RateLimitEngine)

theorem mergeOccupied_frame (k : String) (s i : RateLimitState) :
    (e.mergeOccupied codec k s i).1 =
      { e with entries := (e.mergeOccupied codec k s i).1.entries } := by
  rw [mergeOccupied]
  split
  · rfl
  · split <;> rfl

/-- Merging an insert changes entries only, and reports a change only for a payload that decodes. -/
theorem mergeInsert_frame (k : String) (b : Bytes) (v : Version) :
    (e.mergeInsert codec k b v).1 =
      { e with entries := (e.mergeInsert codec k b v).1.entries } ∧
    ((e.mergeInsert codec k b v).2.changed = true → (stateFromInsertValue codec b v).isSome) := by
  rw [mergeInsert]
  cases hs : stateFromInsertValue codec b v with
  | none => cases e.entries.lookup k <;> simp
  | some i =>
    cases e.entries.lookup k with
    | none => simp
    | some s => exact ⟨mergeOccupied_frame codec e k s i, fun _ => rfl⟩

theorem mergeRemove_frame (k : String) (v : Version) :
    (e.mergeRemove codec k v).1 =
      { e with entries := (e.mergeRemove codec k v).1.entries } := by
  rw [mergeRemove]
  cases e.entries.lookup k with
  | none => rfl
  | some s => exact mergeOccupied_frame codec e k s _

theorem applyOp_frame (op : Operation) : e.applyOp codec op =
    { e with clock := update e.clock op.timestamp, entries := (e.applyOp codec op).entries } := by
  cases op with
  | insert k v t r => exact (mergeInsert_frame codec _ k v ⟨t, r⟩).1
  | remove k t r => exact mergeRemove_frame codec _ k ⟨t, r⟩

theorem foldl_applyOp_frame (ops : List Operation) : let e' := ops.foldl (applyOp codec) e
    e'.log = e.log ∧ e'.replicaId = e.replicaId ∧ e.clock ≤ e'.clock ∧
      ∀ op ∈ ops, op.timestamp ≤ e'.clock := by
  induction ops generalizing e with
  | nil => simp
  | cons op ops ih =>
    obtain ⟨hlog, hr, hclock, hts⟩ := ih (e.applyOp codec op)
    have hf := applyOp_frame codec e op
    rw [show (e.applyOp codec op).clock = _ from congrArg (·.clock) hf] at hclock
    exact ⟨hlog.trans (congrArg (·.log) hf), hr.trans (congrArg (·.replicaId) hf),
      (le_update _ _).trans hclock,
      List.forall_mem_cons.mpr ⟨(remote_le_update _ _).trans hclock, hts⟩⟩

end Frame

/-! ## What the engine knows -/

def keyDen (e : RateLimitEngine) (k : String) : LowerSet (Fact Version EpochCount) :=
  RateLimitState.denOf (e.entries.lookup k)

def SoundEntries (S : Set LivePoint) (e : RateLimitEngine) : Prop :=
  ∀ k, ∀ s ∈ e.entries.lookup k, Sound S s

theorem soundEntries_new (S : Set LivePoint) (replicaId : ReplicaId) (clock : Timestamp) :
    (new replicaId clock).SoundEntries S := by
  intro k s hs
  cases hs

@[simp] theorem keyDen_new (replicaId : ReplicaId) (clock : Timestamp) (k : String) :
    (new replicaId clock).keyDen k = ⊥ := rfl

variable {codec} {S : Set LivePoint} (hS : Set.InjOn LivePoint.version S)

/-- What it takes for `e'` to be `e` with the meaning `L` merged into key `k`. -/
structure Learns (S : Set LivePoint) (e e' : RateLimitEngine) (k : String)
    (L : LowerSet (Fact Version EpochCount)) : Prop where
  sound : e'.SoundEntries S
  /-- The key learns `L`. -/
  keyDen_self : e'.keyDen k = e.keyDen k ⊔ L
  lookup_ne : ∀ k', k' ≠ k → e'.entries.lookup k' = e.entries.lookup k'

variable {e : RateLimitEngine}

variable {k : String}

theorem learns_insert (he : e.SoundEntries S) {s : RateLimitState} (hs : Sound S s)
    {L : LowerSet (Fact Version EpochCount)} (hden : s.den = e.keyDen k ⊔ L) :
    Learns S e { e with entries := e.entries.insert k s } k L where
  sound k' t ht := by
    rcases Table.lookup_insert_eq_some.mp ht with ⟨-, ht⟩ | ⟨-, rfl⟩
    · exact he k' t ht
    · exact hs
  keyDen_self := by rw [keyDen, AList.lookup_insert]; exact hden
  lookup_ne k' hk := AList.lookup_insert_ne hk

include hS in
theorem learns_mergeOccupied (he : e.SoundEntries S) {state incoming : RateLimitState}
    (hk : e.entries.lookup k = some state) (hin : Sound S incoming) :
    Learns S e (e.mergeOccupied codec k state incoming).1 k incoming.den := by
  have hst : Sound S state := he k state hk
  have hden : e.keyDen k = state.den := by rw [keyDen, hk]; rfl
  obtain ⟨c, hc, hcs, hcden⟩ := hst.merge hS hin
  rw [mergeOccupied, hc]
  dsimp only
  split
  · exact learns_insert he hcs (by rw [hden, hcden])
  · rename_i hsame
    rw [not_not.mp hsame] at hcden
    exact ⟨he, by rw [hden, ← hcden], fun _ _ => rfl⟩

include hS in
theorem learns_mergeInsert (he : e.SoundEntries S) {v : Bytes} {t : Timestamp} {r : ReplicaId}
    (hop : ∀ s ∈ operationState codec (.insert k v t r), Sound S s) :
    Learns S e (e.mergeInsert codec k v ⟨t, r⟩).1 k (opDen codec (.insert k v t r)) := by
  rw [mergeInsert, opDen, operationState]
  cases hv : stateFromInsertValue codec v ⟨t, r⟩ with
  | none => cases hk : e.entries.lookup k <;> exact ⟨he, sup_bot_eq _ |>.symm, fun _ _ => rfl⟩
  | some s =>
    cases hk : e.entries.lookup k with
    | none => exact learns_insert he (hop s hv) (by rw [keyDen, hk]; simp)
    | some st => exact learns_mergeOccupied hS he hk (hop s hv)

include hS in
theorem learns_mergeRemove (he : e.SoundEntries S) (k : String) (t : Timestamp) (r : ReplicaId) :
    Learns S e (e.mergeRemove codec k ⟨t, r⟩).1 k (opDen codec (.remove k t r)) := by
  have hs : Sound S (.tombstone ⟨t, r⟩) :=
    ⟨RateLimitState.normal_tombstone _, by simp [RateLimitState.livePoints],
      by simp [RateLimitState.facts, tombFacts, RateLimitState.tombstoneVersion]⟩
  rw [mergeRemove, opDen, operationState]
  cases hk : e.entries.lookup k with
  | none => exact learns_insert he hs (by rw [keyDen, hk]; simp)
  | some st => exact learns_mergeOccupied hS he hk hs

include hS in
/-- **An applied operation teaches its key what it means**, and nothing else. -/
theorem learns_applyOp (he : e.SoundEntries S) {op : Operation}
    (hop : ∀ s ∈ operationState codec op, Sound S s) :
    Learns S e (e.applyOp codec op) op.key (opDen codec op) := by
  cases op with
  | insert k v t r =>
    have h := learns_mergeInsert hS (e := { e with clock := update e.clock t }) he hop
    exact ⟨h.sound, h.keyDen_self, h.lookup_ne⟩
  | remove k t r =>
    have h : Learns S _ _ k (opDen codec (.remove k t r)) :=
      learns_mergeRemove hS (e := { e with clock := update e.clock t }) he k t r
    exact ⟨h.sound, h.keyDen_self, h.lookup_ne⟩

def forKey (k : String) (ops : List Operation) : List Operation := ops.filter fun op => op.key = k

variable {ops : List Operation}

@[simp] theorem mem_forKey {op : Operation} : op ∈ forKey k ops ↔ op ∈ ops ∧ op.key = k := by
  simp [forKey]

theorem Learns.keyDen {e' : RateLimitEngine} {k' : String}
    {L : LowerSet (Fact Version EpochCount)} (h : Learns S e e' k L) :
    e'.keyDen k' = if k = k' then e.keyDen k' ⊔ L else e.keyDen k' := by
  split
  · rename_i hk
    subst hk
    exact h.keyDen_self
  · rename_i hk
    rw [RateLimitEngine.keyDen, RateLimitEngine.keyDen, h.lookup_ne k' (Ne.symm hk)]

include hS in
theorem keyDen_foldl_applyOp (hops : SoundOps codec S ops) (he : e.SoundEntries S) :
    (ops.foldl (applyOp codec) e).SoundEntries S ∧
      ∀ k, (ops.foldl (applyOp codec) e).keyDen k = e.keyDen k ⊔ opsDen codec (forKey k ops) := by
  induction ops generalizing e with
  | nil => exact ⟨he, fun k => by simp [forKey]⟩
  | cons op ops ih =>
    have h := learns_applyOp hS he (hops op List.mem_cons_self)
    obtain ⟨hsound, hden⟩ := ih (fun o ho => hops o (List.mem_cons_of_mem _ ho)) h.sound
    refine ⟨hsound, fun k => ?_⟩
    rw [List.foldl_cons, hden, h.keyDen, forKey, forKey]
    by_cases hk : op.key = k
    · rw [if_pos hk, List.filter_cons_of_pos (by simpa using hk), opsDen_cons, sup_assoc]
    · rw [if_neg hk, List.filter_cons_of_neg (by simpa using hk)]

include hS in
/-- **A merged batch teaches every key what its operations mean.** -/
theorem keyDen_applyRemoteOps {ops : List Operation} (hops : SoundOps codec S ops) (srt : LogSort)
    {e : RateLimitEngine} (he : e.SoundEntries S) :
    (e.applyRemoteOps codec srt ops).1.SoundEntries S ∧
      ∀ k, (e.applyRemoteOps codec srt ops).1.keyDen k =
        e.keyDen k ⊔ opsDen codec (forKey k ops) := by
  rw [applyRemoteOps]
  split
  · rename_i hnil
    rw [List.isEmpty_iff.mp hnil]
    exact ⟨he, fun k => by simp [forKey]⟩
  · have hsorted : SoundOps codec S (sortByKey Operation.version ops) := fun op hop =>
      hops op (mem_sortByKey.mp hop)
    obtain ⟨hsound, hden⟩ := keyDen_foldl_applyOp hS hsorted
      (e := e.mergeLog codec srt (sortByKey Operation.version ops)) he
    refine ⟨hsound, fun k => ?_⟩
    have hperm : opsDen codec (forKey k (sortByKey Operation.version ops)) =
        opsDen codec (forKey k ops) := opsDen_congr fun op => by simp
    rw [← hperm]
    exact hden k

end RateLimitEngine

end Smg.Mesh
