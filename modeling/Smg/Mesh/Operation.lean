import Mathlib.Algebra.Ring.Nat
import Smg.Lib.Grouping
import Mathlib.Data.Prod.Lex
import Mathlib.Data.String.Basic

/-!
# Operations, versions and the operation log

The data the replicated key-value store is built from: `crdt_kv/operation.rs`, `crdt_kv/replica.rs`
and the strategy-free half of `crdt_kv/engine/op_log.rs`.

* `Operation` is one write, an insert or a remove, stamped with a Lamport timestamp and the replica
  that made it; `Operation.version` is the pair the whole store orders writes by.
* `tick` and `update` are the Lamport clock, saturating at the top of `u64`.
* `compactByKey` folds a log per key.  The source sorts with an *unstable* sort, so the model takes
  the sort as a parameter (`KeySort`) and nothing below depends on how it breaks ties.
* `appendOp` and `mergeBatch` are the two ways an engine's log grows: the local-write path, which
  compacts past a trigger and then truncates, and the remote-merge path, which always compacts and
  never truncates.

The mutation counters that only invalidate cached snapshots are left out: nothing here reads them.
-/

set_option autoImplicit false

namespace Smg.Mesh

abbrev Bytes := List UInt8

/-- A Lamport timestamp, a `u64`. -/
abbrev Timestamp := Fin (2 ^ 64)

/-- A replica id, a 128-bit UUID ordered as its bytes are. -/
abbrev ReplicaId := Fin (2 ^ 128)

instance Timestamp.neZero : NeZero (2 ^ 64) := ⟨(Nat.two_pow_pos 64).ne'⟩

instance ReplicaId.neZero : NeZero (2 ^ 128) := ⟨(Nat.two_pow_pos 128).ne'⟩

def ReplicaId.max : ReplicaId := Fin.last _

/-- A write's identity and its place in the order of writes. -/
@[ext]
structure Version where
  /-- The Lamport timestamp, compared first. -/
  timestamp : Timestamp
  replicaId : ReplicaId
  deriving DecidableEq, Repr

namespace Version

def toPair (v : Version) : Timestamp ×ₗ ReplicaId := toLex (v.timestamp, v.replicaId)

theorem toPair_injective : Function.Injective toPair := by
  intro a b h
  have h' := Prod.ext_iff.mp (toLex_inj.mp h)
  exact Version.ext h'.1 h'.2

instance : LinearOrder Version := LinearOrder.lift' toPair toPair_injective

theorem lt_def {a b : Version} :
    a < b ↔ a.timestamp < b.timestamp ∨ a.timestamp = b.timestamp ∧ a.replicaId < b.replicaId :=
  Prod.Lex.toLex_lt_toLex

theorem timestamp_le {a b : Version} (h : a ≤ b) : a.timestamp ≤ b.timestamp := by
  rcases Prod.Lex.toLex_le_toLex.mp h with h | h
  · exact le_of_lt h
  · exact le_of_eq h.1

end Version

/-! ## The Lamport clock -/

/-- `saturating_add(1)`. -/
def saturatingSucc (t : Timestamp) : Timestamp :=
  if h : t.val + 1 < 2 ^ 64 then ⟨t.val + 1, h⟩ else t

/-- Advance the clock for a local write; the new reading is the write's timestamp. -/
def tick (clock : Timestamp) : Timestamp := saturatingSucc clock

def update (clock remote : Timestamp) : Timestamp := saturatingSucc (max clock remote)

theorem le_saturatingSucc (t : Timestamp) : t ≤ saturatingSucc t := by
  rw [saturatingSucc]
  split
  · exact Fin.mk_le_of_le_val (by simp)
  · exact le_rfl

theorem lt_saturatingSucc {t : Timestamp} (h : t.val + 1 < 2 ^ 64) : t < saturatingSucc t := by
  rw [saturatingSucc, dif_pos h]
  exact Fin.lt_def.mpr (by simp)

theorem le_tick (clock : Timestamp) : clock ≤ tick clock := le_saturatingSucc clock

theorem le_update (clock remote : Timestamp) : clock ≤ update clock remote :=
  (le_max_left _ _).trans (le_saturatingSucc _)

theorem remote_le_update (clock remote : Timestamp) : remote ≤ update clock remote :=
  (le_max_right _ _).trans (le_saturatingSucc _)

/-! ## Operations -/

/-- A CRDT operation. -/
inductive Operation where
  /-- Write `value` under `key`. -/
  | insert (key : String) (value : Bytes) (timestamp : Timestamp) (replicaId : ReplicaId)
  /-- Delete `key`. -/
  | remove (key : String) (timestamp : Timestamp) (replicaId : ReplicaId)
  deriving DecidableEq, Repr

namespace Operation

def key : Operation → String
  | insert k _ _ _ => k
  | remove k _ _ => k

def timestamp : Operation → Timestamp
  | insert _ _ t _ => t
  | remove _ t _ => t

def replicaId : Operation → ReplicaId
  | insert _ _ _ r => r
  | remove _ _ r => r

/-- `(timestamp, replica_id)`, the operation's id and its place in the order of writes. -/
def version (op : Operation) : Version := ⟨op.timestamp, op.replicaId⟩

section

variable (t : Timestamp) (r : ReplicaId) (k : String)

@[simp] theorem key_insert (v : Bytes) : (insert k v t r).key = k := rfl

@[simp] theorem key_remove : (remove k t r).key = k := rfl

@[simp] theorem version_insert (v : Bytes) : (insert k v t r).version = ⟨t, r⟩ := rfl

@[simp] theorem version_remove : (remove k t r).version = ⟨t, r⟩ := rfl

@[simp] theorem timestamp_insert (v : Bytes) : (insert k v t r).timestamp = t := rfl

@[simp] theorem timestamp_remove : (remove k t r).timestamp = t := rfl

end

end Operation

/-- Operation ids are unique: one version, one operation. -/
def UniqueIds (ops : List Operation) : Prop :=
  ∀ a ∈ ops, ∀ b ∈ ops, a.version = b.version → a = b

instance (ops : List Operation) : Decidable (UniqueIds ops) :=
  inferInstanceAs (Decidable (∀ a ∈ ops, ∀ b ∈ ops, a.version = b.version → a = b))

theorem UniqueIds.mono {l l' : List Operation} (h : UniqueIds l') (hs : l ⊆ l') : UniqueIds l :=
  fun a ha b hb => h a (hs ha) b (hs hb)

/-! ## The operation log -/

/-- The log's fold of one key's operations into at most one. -/
abbrev Fold := List Operation → Option Operation

/-- The unstable sort `compact_by_key` groups with. -/
abbrev LogSort := KeySort Operation.key

/-- The stable sort is one of the orders the source may use. -/
def LogSort.stable : LogSort := KeySort.stable Operation.key

/-- Engine-driven compaction is followed by truncation above this many entries. -/
def autoCompactThreshold : Nat := 10000

/-- Drop the oldest entries, down to three quarters of the threshold, from a log still over it. -/
def truncateOldestOverThreshold (ops : List Operation) : List Operation :=
  if ops.length ≤ autoCompactThreshold then ops
  else ops.drop (ops.length - autoCompactThreshold * 3 / 4)

/-- Group the log by key, fold each group, and sort the winners by version. -/
def compactByKey (srt : LogSort) (fold : Fold) (ops : List Operation) : List Operation :=
  sortByKey Operation.version ((runs Operation.key (srt.sort ops)).filterMap fold)

/-- Compact once the log carries more than twice the tracked key count (min 64). -/
def compactTrigger (trackedKeys : Nat) : Nat := max (trackedKeys * 2) 64

/-- The local-write path: append, and past the trigger compact and truncate. -/
def appendOp (srt : LogSort) (fold : Fold) (trackedKeys : Nat) (log : List Operation)
    (op : Operation) : List Operation :=
  let log := log ++ [op]
  if log.length > 64 ∧ log.length > compactTrigger trackedKeys then
    truncateOldestOverThreshold (compactByKey srt fold log)
  else log

/-- The remote-merge path: append the batch and compact, never truncate. -/
def mergeBatch (srt : LogSort) (fold : Fold) (log ops : List Operation) : List Operation :=
  compactByKey srt fold (log ++ ops)

theorem mem_of_mem_truncate {ops : List Operation} {op : Operation}
    (h : op ∈ truncateOldestOverThreshold ops) : op ∈ ops := by
  rw [truncateOldestOverThreshold] at h
  split at h
  · exact h
  · exact List.mem_of_mem_drop h

section Compact

variable {srt : LogSort} {fold : Fold} {ops : List Operation} {w : Operation}

/-- The group a compacted operation was folded from. -/
theorem exists_group_of_mem_compactByKey (h : w ∈ compactByKey srt fold ops) :
    ∃ k g, g.Perm (ops.filter fun o => o.key = k) ∧ g ≠ [] ∧ fold g = some w := by
  rw [compactByKey, mem_sortByKey, List.mem_filterMap] at h
  obtain ⟨g, hg, hw⟩ := h
  obtain ⟨a, -, rfl⟩ := (mem_runs_iff (srt.sorted ops)).mp hg
  exact ⟨a.key, _, (srt.perm ops).filter _, List.ne_nil_of_mem_splitBy hg, hw⟩

/-- A log grown on the local-write path holds old entries, the new one, and what compaction made
of them. -/
theorem mem_of_mem_appendOp {n : Nat} {op : Operation} (h : w ∈ appendOp srt fold n ops op) :
    w ∈ ops ++ [op] ∨ w ∈ compactByKey srt fold (ops ++ [op]) := by
  simp only [appendOp] at h
  split at h
  · exact .inr (mem_of_mem_truncate h)
  · exact .inl h

end Compact

/-! ## Change emission -/

/-- An observable change to a key's live value. -/
structure CrdtChange where
  key : String
  /-- Its value after the merge, `none` when it is gone. -/
  value : Option Bytes
  deriving DecidableEq, Repr

/-- The value of every key a batch touches, read once per key. -/
def valuesBefore (current : String → Option Bytes) (ops : List Operation) :
    Table String (Option Bytes) :=
  ops.foldl (fun before op =>
    if op.key ∈ before then before else before.insert op.key (current op.key)) ∅

/-- One change per key whose value differs from the one in `before`. -/
def changes (before : Table String (Option Bytes)) (current : String → Option Bytes) :
    List CrdtChange :=
  before.entries.filterMap fun ⟨key, prior⟩ =>
    if current key ≠ prior then some ⟨key, current key⟩ else none

end Smg.Mesh
