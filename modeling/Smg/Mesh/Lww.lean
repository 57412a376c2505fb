import Smg.Mesh.Operation

/-!
# The last-writer-wins engine

`crdt_kv/engine/lww.rs`, function by function.  An engine keeps what it knows in three places: the
live bytes (`store`), the version of the last accepted write per key (`metadata`), and the
operation log it gossips (`log`).  The functions below update them exactly as the source does.

The per-key mutexes are not part of the state: they make `putLocal`, `deleteLocal` and the
application of one remote operation atomic per key, which is how the steps of
`Smg.Mesh.LwwRuns` use them.  The wall-clock reading in `ValueMetadata` is only read by tombstone
collection, which is not modelled, so it is left out as well (the source's equality on
`ValueMetadata` ignores it too).

* `unseenOps` is the first half of `apply_remote_ops`, reading the log;
* `mergeBatch` (from `Smg.Mesh.Operation`) is its second, writing the log;
* `applyOp` applies one operation to the live state;
* `applyRemoteOps` is the whole call, with the changes it reports.
-/

set_option autoImplicit false

namespace Smg.Mesh

/-- What the engine remembers of an accepted write. -/
structure ValueMetadata where
  timestamp : Timestamp
  replicaId : ReplicaId
  isTombstone : Bool
  deriving DecidableEq, Repr

namespace ValueMetadata

/-- `(timestamp, replica_id)`. -/
def versionKey (m : ValueMetadata) : Version := ⟨m.timestamp, m.replicaId⟩

/-- Is this the metadata of the write with that id? -/
def matchesVersion (m : ValueMetadata) (t : Timestamp) (r : ReplicaId) : Bool :=
  m.timestamp == t && m.replicaId == r

def isNewerThan (m : ValueMetadata) (t : Timestamp) (r : ReplicaId) : Bool :=
  decide (⟨t, r⟩ < m.versionKey)

theorem matchesVersion_iff {m : ValueMetadata} {t : Timestamp} {r : ReplicaId} :
    m.matchesVersion t r = true ↔ m.versionKey = ⟨t, r⟩ := by
  simp [matchesVersion, versionKey]

theorem isNewerThan_iff {m : ValueMetadata} {t : Timestamp} {r : ReplicaId} :
    m.isNewerThan t r = true ↔ ⟨t, r⟩ < m.versionKey := by
  simp [isNewerThan]

end ValueMetadata

/-- The state of a last-writer-wins engine.  `clock` is the node's shared Lamport clock. -/
structure LwwEngine where
  store : Table String Bytes
  /-- The recorded versions of each key. -/
  metadata : Table String (List ValueMetadata)
  log : List Operation
  clock : Timestamp
  replicaId : ReplicaId

namespace LwwEngine

def new (replicaId : ReplicaId) (clock : Timestamp) : LwwEngine where
  store := ∅
  metadata := ∅
  log := []
  clock := clock
  replicaId := replicaId

def get (e : LwwEngine) (key : String) : Option Bytes := e.store.lookup key

/-! ## Metadata -/

def compactKeyMetadata (versions : List ValueMetadata) : List ValueMetadata :=
  if versions.length ≤ 1 then versions
  else
    match lastMax ValueMetadata.versionKey versions with
    | some winner => [winner]
    | none => versions

/-- The versions of a key after an insert was offered, and whether it was accepted. -/
def recordInsert (versions : Option (List ValueMetadata)) (t : Timestamp) (r : ReplicaId) :
    List ValueMetadata × Bool :=
  match versions with
  | some versions =>
    if versions.any fun v => v.matchesVersion t r then (compactKeyMetadata versions, false)
    else if (lastMax ValueMetadata.versionKey versions).any fun w => w.isNewerThan t r then
      (compactKeyMetadata versions, false)
    else (compactKeyMetadata (versions ++ [⟨t, r, false⟩]), true)
  | none => ([⟨t, r, false⟩], true)

/-- The versions of a key after a remove was offered, and whether it was accepted. -/
def recordRemove (versions : Option (List ValueMetadata)) (t : Timestamp) (r : ReplicaId) :
    List ValueMetadata × Bool :=
  match versions with
  | some versions =>
    if versions.any fun v => v.isTombstone && v.matchesVersion t r then
      (compactKeyMetadata versions, false)
    else if versions.any fun v => v.isNewerThan t r then (compactKeyMetadata versions, false)
    else (compactKeyMetadata (versions ++ [⟨t, r, true⟩]), true)
  | none => ([⟨t, r, true⟩], true)

/-- Record an insert in the metadata; `true` when it is accepted. -/
def recordInsertMetadata (e : LwwEngine) (key : String) (t : Timestamp) (r : ReplicaId) :
    LwwEngine × Bool :=
  let (versions, accepted) := recordInsert (e.metadata.lookup key) t r
  ({ e with metadata := e.metadata.insert key versions }, accepted)

/-- Record a remove in the metadata; `true` when it is accepted. -/
def recordRemoveMetadata (e : LwwEngine) (key : String) (t : Timestamp) (r : ReplicaId) :
    LwwEngine × Bool :=
  let (versions, accepted) := recordRemove (e.metadata.lookup key) t r
  ({ e with metadata := e.metadata.insert key versions }, accepted)

/-! ## The log -/

/-- The per-key fold: the operation with the greatest version. -/
def lwwFold : Fold := lastMax Operation.version

/-- A local write's operation, appended to the log. -/
def appendLocal (srt : LogSort) (e : LwwEngine) (op : Operation) : LwwEngine :=
  { e with log := appendOp srt lwwFold e.metadata.entries.length e.log op }

/-! ## Local writes -/

/-- Apply a local put; the second component is what the call returns. -/
def putLocal (srt : LogSort) (e : LwwEngine) (key : String) (value : Bytes) :
    LwwEngine × Option Bytes :=
  let previous := e.store.lookup key
  let timestamp := tick e.clock
  match recordInsertMetadata { e with clock := timestamp } key timestamp e.replicaId with
  | (e, true) =>
    let e := { e with store := e.store.insert key value }
    (e.appendLocal srt (.insert key value timestamp e.replicaId), previous)
  | (e, false) => (e, e.store.lookup key)

/-- Apply a local delete; the second component is what the call returns. -/
def deleteLocal (srt : LogSort) (e : LwwEngine) (key : String) : LwwEngine × Option Bytes :=
  let timestamp := tick e.clock
  match recordRemoveMetadata { e with clock := timestamp } key timestamp e.replicaId with
  | (e, true) =>
    let e := e.appendLocal srt (.remove key timestamp e.replicaId)
    ({ e with store := e.store.erase key }, e.store.lookup key)
  | (e, false) => (e, none)

/-! ## Remote operations -/

/-- The operations of a batch whose ids the log does not hold, oldest first. -/
def unseenOps (e : LwwEngine) (ops : List Operation) : List Operation :=
  sortByKey Operation.version <|
    ops.filter fun op => !e.log.any fun seen => seen.version == op.version

def applyInsert (e : LwwEngine) (key : String) (value : Bytes) (t : Timestamp) (r : ReplicaId) :
    LwwEngine :=
  match e.recordInsertMetadata key t r with
  | (e, true) => { e with store := e.store.insert key value }
  | (e, false) => e

def applyRemoveInner (e : LwwEngine) (key : String) (t : Timestamp) (r : ReplicaId) :
    LwwEngine :=
  match e.recordRemoveMetadata key t r with
  | (e, true) => { e with store := e.store.erase key }
  | (e, false) => e

/-- Apply one remote operation: the clock observes its timestamp, the live state is offered it. -/
def applyOp (e : LwwEngine) (op : Operation) : LwwEngine :=
  let e := { e with clock := update e.clock op.timestamp }
  match op with
  | .insert key value timestamp replicaId => e.applyInsert key value timestamp replicaId
  | .remove key timestamp replicaId => e.applyRemoveInner key timestamp replicaId

def mergeLog (srt : LogSort) (e : LwwEngine) (ops : List Operation) : LwwEngine :=
  { e with log := mergeBatch srt lwwFold e.log ops }

def applyRemoteOps (srt : LogSort) (e : LwwEngine) (ops : List Operation) :
    LwwEngine × List CrdtChange :=
  let unseen := e.unseenOps ops
  if unseen.isEmpty then (e, [])
  else
    let e := e.mergeLog srt unseen
    let before := valuesBefore e.get unseen
    let e := unseen.foldl applyOp e
    (e, changes before e.get)

end LwwEngine

end Smg.Mesh
