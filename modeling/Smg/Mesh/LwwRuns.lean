import Smg.Mesh.Lww

/-!
# Runs of the last-writer-wins engine, and their convergence

An engine is driven by local writes and by batches of remote operations.  The source serialises
these only per key and per log access, so a call of `apply_remote_ops` is not atomic: it reads the
log, later writes it, and then applies its operations one by one.  `LwwRun.Step` takes exactly these
pieces as its steps, so a run is any interleaving of any number of calls; a call executed without
interruption is one such run (`steps_of_applyRemoteOps`).

A run remembers every operation the engine has been handed (`seen`).  The invariant `LwwRun.Inv`
ties the three places the engine keeps its state in to that history: for every key there is a
current winner that the metadata and the store both describe, every operation of the log was seen,
and every seen operation is beaten by the winner or still waits in an unfinished call.  With no call
unfinished this is **convergence** (`lww_convergence`): a key reads as its greatest operation says,
whatever the order, the batching and the repetitions were.
-/

set_option autoImplicit false

namespace Smg.Mesh

open Operation LwwEngine List ValueMetadata Relation.ReflTransGen

/-- The value a key has when this operation is its last: `none` for a remove. -/
def Operation.value? : Operation → Option Bytes
  | .insert _ v _ _ => some v
  | .remove _ _ _ => none

def Operation.metadata : Operation → ValueMetadata
  | .insert _ _ t r => ⟨t, r, false⟩
  | .remove _ t r => ⟨t, r, true⟩

@[simp] theorem Operation.versionKey_metadata (op : Operation) :
    op.metadata.versionKey = op.version := by
  cases op <;> rfl

variable {srt : LogSort} {op : Operation}

namespace LwwEngine

/-! ## One operation offered to one key -/

/-- Does an operation beat the current winner of its key? -/
def beats (op : Operation) : Option Operation → Bool
  | none => true
  | some cur => decide (cur.version < op.version)

/-- The winner of a key after one more operation. -/
def winner (cur : Option Operation) (op : Operation) : Option Operation :=
  if beats op cur then some op else cur

/-- The metadata entry that describes the current winner of a key. -/
def metadataOf (cur : Option Operation) : Option (List ValueMetadata) :=
  cur.map fun op => [op.metadata]

@[simp] theorem metadataOf_some (op : Operation) : metadataOf (some op) = some [op.metadata] := rfl

variable {e : LwwEngine} {cur : Option Operation} {k : String}

/-- The versions of a key after an operation was offered, and whether it was accepted. -/
def offer (versions : Option (List ValueMetadata)) : Operation → List ValueMetadata × Bool
  | .insert _ _ t r => recordInsert versions t r
  | .remove _ t r => recordRemove versions t r

def written (store : Table String Bytes) : Operation → Table String Bytes
  | .insert k v _ _ => store.insert k v
  | .remove k _ _ => store.erase k

theorem applyOp_eq (e : LwwEngine) (op : Operation) :
    e.applyOp op = { e with
      clock := update e.clock op.timestamp
      metadata := e.metadata.insert op.key (offer (e.metadata.lookup op.key) op).1
      store :=
        if (offer (e.metadata.lookup op.key) op).2 then written e.store op else e.store } := by
  cases op with
  | insert k v t r =>
    rw [applyOp, applyInsert, recordInsertMetadata, offer, key_insert]
    rcases recordInsert (e.metadata.lookup k) t r with ⟨_, _ | _⟩ <;> rfl
  | remove k t r =>
    rw [applyOp, applyRemoveInner, recordRemoveMetadata, offer, key_remove]
    rcases recordRemove (e.metadata.lookup k) t r with ⟨_, _ | _⟩ <;> rfl

theorem lookup_written (store : Table String Bytes) (op : Operation) (k : String) :
    (written store op).lookup k = if k = op.key then op.value? else store.lookup k := by
  cases op with
  | insert k' v t r => exact store.lookup_insert_if k' k v
  | remove k' t r => exact store.lookup_erase_if k' k

/-- Offering an operation to a key described by `cur` records the winner of the two, provided no
other operation shares its id. -/
theorem offer_eq (hu : ∀ c ∈ cur, c.version = op.version → c = op) :
    offer (metadataOf cur) op =
      (((winner cur op).map Operation.metadata).toList, beats op cur) := by
  cases cur with
  | none => cases op <;> rfl
  | some c =>
    have hoffer : offer (metadataOf (some c)) op =
        if c.version = op.version then ([c.metadata], false)
        else if op.version < c.version then ([c.metadata], false)
        else (compactKeyMetadata [c.metadata, op.metadata], true) := by
      cases op with
      | insert k v t r =>
        simp [offer, recordInsert, matchesVersion_iff, isNewerThan_iff]
        rfl
      | remove k t r =>
        have htomb : c.version = ⟨t, r⟩ → c.metadata.isTombstone = true := fun hv => by
          rw [hu c rfl hv]
          rfl
        simp [offer, recordRemove, matchesVersion_iff, isNewerThan_iff, and_iff_right_of_imp htomb]
        rfl
    rw [hoffer, winner, beats]
    rcases lt_trichotomy c.version op.version with hlt | heq | hgt
    · simp [hlt.ne, hlt, not_lt_of_gt hlt, compactKeyMetadata, lastMax]
    · simp [heq]
    · simp [hgt, not_lt_of_gt hgt]

/-! ## What the engine holds for a key -/

/-- `cur` is the winner the engine has recorded for `k`: metadata and store both describe it. -/
structure Holds (e : LwwEngine) (k : String) (cur : Option Operation) : Prop where
  /-- The metadata is that of the winner. -/
  metadata : e.metadata.lookup k = metadataOf cur
  /-- The live value is that of the winner. -/
  store : e.store.lookup k = cur.bind Operation.value?

/-- Fields `Holds` does not mention may change freely. -/
theorem Holds.congr {e' : LwwEngine} (h : e.Holds k cur) (hm : e'.metadata = e.metadata)
    (hs : e'.store = e.store) : e'.Holds k cur :=
  ⟨hm ▸ h.metadata, hs ▸ h.store⟩

theorem exists_eq_some_of_not_beats (h : beats op cur = false) : ∃ c, cur = some c := by
  cases cur with
  | none => simp [beats] at h
  | some c => exact ⟨c, rfl⟩

/-- **Offering one operation to the live state.**  The key it writes moves on to the winner of the
two, every other key is untouched. -/
theorem Holds.applyOp (h : e.Holds k cur) (hu : ∀ c ∈ cur, c.version = op.version → c = op) :
    (e.applyOp op).Holds k (if op.key = k then winner cur op else cur) := by
  rw [applyOp_eq]
  by_cases hk : op.key = k
  · subst hk
    rw [if_pos rfl, h.metadata, offer_eq hu, winner]
    cases hb : beats op cur with
    | true => exact ⟨by simp, by simp [lookup_written]⟩
    | false =>
      obtain ⟨c, rfl⟩ := exists_eq_some_of_not_beats hb
      exact ⟨by simp, by simpa using h.store⟩
  · rw [if_neg hk]
    refine ⟨(AList.lookup_insert_ne (Ne.symm hk)).trans h.metadata, ?_⟩
    dsimp only
    split
    · rw [lookup_written, if_neg (Ne.symm hk), h.store]
    · exact h.store

/-! ## Local writes are operations too

A local write does to the live state what applying its own operation would do, and appends the
operation to the log when it was accepted. -/

def putOp (e : LwwEngine) (key : String) (value : Bytes) : Operation :=
  .insert key value (tick e.clock) e.replicaId

def deleteOp (e : LwwEngine) (key : String) : Operation :=
  .remove key (tick e.clock) e.replicaId

variable {w : Operation}

/-- The log only ever holds operations it was given: the fold picks one of its group. -/
theorem mem_of_mem_compactByKey {ops : List Operation} (h : w ∈ compactByKey srt lwwFold ops) :
    w ∈ ops := by
  obtain ⟨k, g, hp, _, hw⟩ := exists_group_of_mem_compactByKey h
  have hg : w ∈ g := (lastMax_spec hw).1
  exact mem_of_mem_filter (hp.mem_iff.mp hg)

theorem mem_log_of_mem_appendOp {n : Nat} {log : List Operation}
    (h : w ∈ appendOp srt lwwFold n log op) : w ∈ log ∨ w = op := by
  have : w ∈ log ++ [op] := (mem_of_mem_appendOp h).elim id mem_of_mem_compactByKey
  simpa using this

/-- What a local write does: the clock ticks, the live state takes the operation, and perhaps the
log does. -/
def Writes (e e' : LwwEngine) (op : Operation) : Prop :=
  e'.metadata = (e.applyOp op).metadata ∧ e'.store = (e.applyOp op).store ∧
    (∀ w ∈ e'.log, w ∈ e.log ∨ w = op) ∧ e'.clock = tick e.clock ∧ e'.replicaId = e.replicaId

theorem writes_putLocal {v : Bytes} : Writes e (e.putLocal srt k v).1 (e.putOp k v) := by
  simp only [Writes, putLocal, putOp, applyOp, applyInsert, recordInsertMetadata]
  obtain ⟨versions, accepted⟩ := recordInsert (e.metadata.lookup k) (tick e.clock) e.replicaId
  cases accepted with
  | true => exact ⟨rfl, rfl, fun w => mem_log_of_mem_appendOp, rfl, rfl⟩
  | false => exact ⟨rfl, rfl, fun w => .inl, rfl, rfl⟩

theorem writes_deleteLocal : Writes e (e.deleteLocal srt k).1 (e.deleteOp k) := by
  simp only [Writes, deleteLocal, deleteOp, applyOp, applyRemoveInner,
    recordRemoveMetadata]
  obtain ⟨versions, accepted⟩ := recordRemove (e.metadata.lookup k) (tick e.clock) e.replicaId
  cases accepted with
  | true => exact ⟨rfl, rfl, fun w => mem_log_of_mem_appendOp, rfl, rfl⟩
  | false => exact ⟨rfl, rfl, fun w => .inl, rfl, rfl⟩

@[simp] theorem applyOp_log (e : LwwEngine) (op : Operation) : (e.applyOp op).log = e.log := by
  rw [applyOp_eq]

end LwwEngine

/-! ## Runs -/

/-- A call of `apply_remote_ops` under way. -/
inductive LwwTask where
  /-- The log has been read; these operations are to be merged into it. -/
  | merging (ops : List Operation)
  /-- The log has been written; these operations are still to be applied to the live state. -/
  | applying (ops : List Operation)

/-- The operations a call under way still has to apply. -/
def LwwTask.ops : LwwTask → List Operation
  | merging ops => ops
  | applying ops => ops

/-- An engine together with the calls under way on it and every operation it has been handed. -/
structure LwwRun where
  engine : LwwEngine
  /-- The remote batches being processed. -/
  tasks : List LwwTask
  seen : List Operation

namespace LwwRun

open LwwEngine

def init (replicaId : ReplicaId) (clock : Timestamp) : LwwRun where
  engine := LwwEngine.new replicaId clock
  tasks := []
  seen := []

/-- The operations that have been seen and wait to be applied. -/
def pending (r : LwwRun) : List Operation := r.tasks.flatMap LwwTask.ops

/-- One atomic step. -/
inductive Step (srt : LogSort) : LwwRun → LwwRun → Prop
  | put (r : LwwRun) (k : String) (v : Bytes) :
      Step srt r
        { r with
          engine := (r.engine.putLocal srt k v).1
          seen := r.seen ++ [r.engine.putOp k v] }
  | delete (r : LwwRun) (k : String) :
      Step srt r
        { r with
          engine := (r.engine.deleteLocal srt k).1
          seen := r.seen ++ [r.engine.deleteOp k] }
  /-- A batch arrives: the log is read, and what it does not hold is set aside. -/
  | deliver (r : LwwRun) (ops : List Operation) :
      Step srt r
        { r with
          tasks := r.tasks ++ [.merging (r.engine.unseenOps ops)]
          seen := r.seen ++ ops }
  | merge (r : LwwRun) (pre post : List LwwTask) (ops : List Operation)
      (h : r.tasks = pre ++ .merging ops :: post) :
      Step srt r
        { r with
          engine := r.engine.mergeLog srt ops
          tasks := pre ++ .applying ops :: post }
  /-- One operation is applied to the live state. -/
  | apply (r : LwwRun) (pre post : List LwwTask) (op : Operation) (ops : List Operation)
      (h : r.tasks = pre ++ .applying (op :: ops) :: post) :
      Step srt r
        { r with
          engine := r.engine.applyOp op
          tasks := pre ++ .applying ops :: post }
  /-- A call with nothing left to merge or apply returns. -/
  | done (r : LwwRun) (pre post : List LwwTask) (t : LwwTask) (ht : t.ops = [])
      (h : r.tasks = pre ++ t :: post) :
      Step srt r { r with tasks := pre ++ post }
  /-- Another engine of the node moves the shared clock. -/
  | clock (r : LwwRun) (t : Timestamp) (h : r.engine.clock ≤ t) :
      Step srt r { r with engine := { r.engine with clock := t } }

def Reachable (srt : LogSort) (replicaId : ReplicaId) (clock : Timestamp) (r : LwwRun) : Prop :=
  Relation.ReflTransGen (Step srt) (init replicaId clock) r

/-! ## The invariant -/

/-- What ties the engine to the operations it has seen. -/
structure Inv (r : LwwRun) : Prop where
  /-- The log holds operations that were seen. -/
  log : ∀ op ∈ r.engine.log, op ∈ r.seen
  pending : ∀ op ∈ r.pending, op ∈ r.seen
  /-- Every key has a recorded winner, and what does not lose to it is still to be applied. -/
  holds : ∀ k, ∃ cur : Option Operation, r.engine.Holds k cur ∧
    (∀ c ∈ cur, c ∈ r.seen ∧ c.key = k) ∧
    ∀ op ∈ r.seen, op.key = k → (∃ c ∈ cur, op.version ≤ c.version) ∨ op ∈ r.pending

theorem inv_init (replicaId : ReplicaId) (clock : Timestamp) : (init replicaId clock).Inv where
  log := by simp [init, new]
  pending := by simp [init, LwwRun.pending]
  holds k := ⟨none, ⟨rfl, rfl⟩, by simp, by simp [init]⟩

/-- The winner of two is at least as new as either. -/
theorem exists_winner_ge (cur : Option Operation) (op : Operation) :
    ∃ c ∈ winner cur op, op.version ≤ c.version ∧ ∀ d ∈ cur, d.version ≤ c.version := by
  rw [winner]
  cases hb : beats op cur with
  | true =>
    refine ⟨op, rfl, le_rfl, fun d hd => ?_⟩
    cases hd
    exact le_of_lt (of_decide_eq_true hb)
  | false =>
    obtain ⟨c, rfl⟩ := exists_eq_some_of_not_beats hb
    exact ⟨c, rfl, not_lt.mp (of_decide_eq_false hb), fun d hd => (Option.some.inj hd) ▸ le_rfl⟩

theorem mem_winner {cur : Option Operation} {c : Operation} (h : c ∈ winner cur op) :
    c = op ∨ c ∈ cur := by
  rw [winner] at h
  split at h
  · exact .inl (Option.some.inj h).symm
  · exact .inr h

variable {r r' : LwwRun}

/-- **One operation reaches the live state.**  The invariant survives when the operation is added
to the history (or was there already) and taken off the waiting list. -/
theorem Inv.offer (hr : r.Inv) (hu : UniqueIds r'.seen)
    (hmeta : r'.engine.metadata = (r.engine.applyOp op).metadata)
    (hstore : r'.engine.store = (r.engine.applyOp op).store)
    (hseen : ∀ o, o ∈ r'.seen ↔ o ∈ r.seen ∨ o = op)
    (hpend : ∀ o ∈ r.pending, o ∈ r'.pending ∨ o = op) (k : String) :
    ∃ cur : Option Operation, r'.engine.Holds k cur ∧
      (∀ c ∈ cur, c ∈ r'.seen ∧ c.key = k) ∧
      ∀ o ∈ r'.seen, o.key = k → (∃ c ∈ cur, o.version ≤ c.version) ∨ o ∈ r'.pending := by
  obtain ⟨cur, hh, hmem, hmax⟩ := hr.holds k
  have hop : op ∈ r'.seen := (hseen op).mpr (.inr rfl)
  have huc : ∀ c ∈ cur, c.version = op.version → c = op := fun c hc =>
    hu c ((hseen c).mpr (.inl (hmem c hc).1)) op hop
  refine ⟨_, (hh.applyOp huc).congr hmeta hstore, fun c hc => ?_, fun o ho hk => ?_⟩
  · split at hc
    · rename_i hk
      rcases mem_winner hc with rfl | hc
      · exact ⟨hop, hk⟩
      · exact ⟨(hseen c).mpr (.inl (hmem c hc).1), (hmem c hc).2⟩
    · exact ⟨(hseen c).mpr (.inl (hmem c hc).1), (hmem c hc).2⟩
  · obtain ⟨w, hw, hopw, hcur⟩ := exists_winner_ge cur op
    rcases (hseen o).mp ho with ho' | rfl
    · rcases hmax o ho' hk with ⟨c, hc, hle⟩ | hp
      · left
        split
        · exact ⟨w, hw, hle.trans (hcur c hc)⟩
        · exact ⟨c, hc, hle⟩
      · rcases hpend o hp with hp | rfl
        · exact .inr hp
        · rw [if_pos hk]
          exact .inl ⟨w, hw, hopw⟩
    · rw [if_pos hk]
      exact .inl ⟨w, hw, hopw⟩

theorem Inv.write (hr : r.Inv) {e' : LwwEngine} (hw : LwwEngine.Writes r.engine e' op)
    (hu : UniqueIds (r.seen ++ [op])) : Inv { r with engine := e', seen := r.seen ++ [op] } := by
  obtain ⟨hmeta, hstore, hlog, -, -⟩ := hw
  refine ⟨fun o ho => ?_, fun o ho => mem_append_left _ (hr.pending o ho),
    hr.offer hu hmeta hstore (by simp) fun o ho => .inl ho⟩
  rcases hlog o ho with h | rfl
  · exact mem_append_left _ (hr.log o h)
  · exact mem_append_right _ (mem_singleton_self _)

/-- **The invariant is inductive** as long as ids stay unique. -/
theorem Inv.step (hr : r.Inv) (hs : Step srt r r') (hu : UniqueIds r'.seen) : r'.Inv := by
  cases hs with
  | put k v => exact hr.write writes_putLocal hu
  | delete k => exact hr.write writes_deleteLocal hu
  | deliver ops =>
    have hun : ∀ op, op ∈ r.engine.unseenOps ops ↔
        op ∈ ops ∧ ∀ seen ∈ r.engine.log, seen.version ≠ op.version := by
      intro op
      simp [unseenOps]
    have hpend : ∀ op, op ∈ LwwRun.pending
        { r with tasks := r.tasks ++ [.merging (r.engine.unseenOps ops)], seen := r.seen ++ ops } ↔
        op ∈ r.pending ∨ op ∈ r.engine.unseenOps ops := by
      intro op
      simp [LwwRun.pending, LwwTask.ops]
    refine ⟨fun op hop => mem_append_left _ (hr.log op hop), fun op hop => ?_, fun k => ?_⟩
    · rcases (hpend op).mp hop with h | h
      · exact mem_append_left _ (hr.pending op h)
      · exact mem_append_right _ ((hun op).mp h).1
    · obtain ⟨cur, hh, hmem, hmax⟩ := hr.holds k
      refine ⟨cur, hh, fun c hc => ⟨mem_append_left _ (hmem c hc).1, (hmem c hc).2⟩,
        fun op hop hk => ?_⟩
      -- an operation the log already holds under its id was seen before, being unique
      have hold : op ∈ r.seen ∨ op ∈ r.engine.unseenOps ops := by
        rcases mem_append.mp hop with h | h
        · exact .inl h
        · by_cases hl : ∃ seen ∈ r.engine.log, seen.version = op.version
          · obtain ⟨seen, hseen, hv⟩ := hl
            have := hu seen (mem_append_left _ (hr.log seen hseen)) op hop hv
            exact .inl (this ▸ hr.log seen hseen)
          · exact .inr ((hun op).mpr ⟨h, fun s hs hv => hl ⟨s, hs, hv⟩⟩)
      rcases hold with h | h
      · rcases hmax op h hk with h | h
        · exact .inl h
        · exact .inr ((hpend op).mpr (.inl h))
      · exact .inr ((hpend op).mpr (.inr h))
  | merge pre post ops h =>
    have hp : ∀ op, op ∈ LwwRun.pending
        { r with engine := r.engine.mergeLog srt ops, tasks := pre ++ .applying ops :: post } ↔
        op ∈ r.pending := by
      intro op
      simp [LwwRun.pending, h, LwwTask.ops]
    refine ⟨fun op hop => ?_, fun op hop => hr.pending op ((hp op).mp hop), fun k => ?_⟩
    · rcases mem_append.mp (mem_of_mem_compactByKey hop) with hl | hl
      · exact hr.log op hl
      · exact hr.pending op (by simp [LwwRun.pending, h, LwwTask.ops, hl])
    · obtain ⟨cur, hh, hmem, hmax⟩ := hr.holds k
      exact ⟨cur, hh.congr rfl rfl, hmem, fun op hop hk =>
        (hmax op hop hk).imp_right (hp op).mpr⟩
  | apply pre post op ops h =>
    have hop : op ∈ r.seen := hr.pending op (by simp [LwwRun.pending, h, LwwTask.ops])
    refine ⟨fun o ho => hr.log o (by simpa using ho), fun o ho => hr.pending o ?_, ?_⟩
    · simp only [LwwRun.pending, flatMap_append, flatMap_cons, LwwTask.ops, h,
        mem_append] at ho ⊢
      tauto
    · refine hr.offer hu rfl rfl (fun o => ⟨.inl, fun h => h.elim id fun e => e ▸ hop⟩) ?_
      intro o ho
      simp only [LwwRun.pending, flatMap_append, flatMap_cons, LwwTask.ops, h,
        mem_append, mem_cons] at ho ⊢
      tauto
  | done pre post t ht h =>
    have hp : ∀ op, op ∈ LwwRun.pending { r with tasks := pre ++ post } ↔ op ∈ r.pending := by
      intro op
      simp [LwwRun.pending, h, ht]
    exact ⟨hr.log, fun op hop => hr.pending op ((hp op).mp hop), fun k => by
      obtain ⟨cur, hh, hmem, hmax⟩ := hr.holds k
      exact ⟨cur, hh, hmem, fun op hop hk => (hmax op hop hk).imp_right (hp op).mpr⟩⟩
  | clock t h =>
    exact ⟨hr.log, hr.pending, fun k => by
      obtain ⟨cur, hh, hmem, hmax⟩ := hr.holds k
      exact ⟨cur, hh.congr rfl rfl, hmem, hmax⟩⟩

theorem Step.seen_subset (hs : Step srt r r') : r.seen ⊆ r'.seen := by
  cases hs <;> simp

/-- **Every state of a run satisfies the invariant**, ids being unique in the history. -/
theorem Reachable.inv {replicaId : ReplicaId} {clock : Timestamp}
    (h : Reachable srt replicaId clock r) (hu : UniqueIds r.seen) : r.Inv := by
  induction h with
  | refl => exact inv_init replicaId clock
  | tail _ hs ih => exact (ih (hu.mono hs.seen_subset)).step hs hu

/-! ## Uninterrupted calls

A call of `applyRemoteOps` that nothing else interleaves with is such a run. -/

theorem steps_apply (r : LwwRun) (pre : List LwwTask) (ops : List Operation)
    (h : r.tasks = pre ++ [.applying ops]) : Relation.ReflTransGen (Step srt) r
      { r with engine := ops.foldl applyOp r.engine, tasks := pre } := by
  induction ops generalizing r with
  | nil =>
    refine single ?_
    have hd : Step srt r _ := .done r pre [] (.applying []) rfl h
    simpa using hd
  | cons op ops ih =>
    refine head (Step.apply r pre [] op ops h) ?_
    exact ih { r with engine := r.engine.applyOp op, tasks := pre ++ [.applying ops] } rfl

theorem steps_of_applyRemoteOps (srt : LogSort) (r : LwwRun) (ops : List Operation) :
    Relation.ReflTransGen (Step srt) r
      { r with
        engine := (r.engine.applyRemoteOps srt ops).1
        seen := r.seen ++ ops } := by
  refine head (Step.deliver r ops) ?_
  rw [applyRemoteOps]
  split
  · rename_i hnil
    refine single ?_
    have hd : Step srt
        { r with
          tasks := r.tasks ++ [.merging (r.engine.unseenOps ops)], seen := r.seen ++ ops } _ :=
      .done _ r.tasks [] (.merging (r.engine.unseenOps ops)) (isEmpty_iff.mp hnil) rfl
    simpa using hd
  · refine head (Step.merge _ r.tasks [] (r.engine.unseenOps ops) rfl) ?_
    exact steps_apply
      { engine := r.engine.mergeLog srt (r.engine.unseenOps ops)
        tasks := r.tasks ++ [.applying (r.engine.unseenOps ops)]
        seen := r.seen ++ ops } r.tasks (r.engine.unseenOps ops) rfl

/-! ## Convergence -/

theorem Inv.get_eq (hr : r.Inv) (hu : UniqueIds r.seen) (hq : r.tasks = []) (hop : op ∈ r.seen)
    (hmax : ∀ o ∈ r.seen, o.key = op.key → o.version ≤ op.version) :
    r.engine.get op.key = op.value? := by
  obtain ⟨cur, hh, hmem, hle⟩ := hr.holds op.key
  have hp : op ∉ r.pending := by simp [LwwRun.pending, hq]
  obtain ⟨c, hc, hv⟩ := (hle op hop rfl).resolve_right hp
  have hcs := hmem c hc
  have : c = op := hu c hcs.1 op hop (le_antisymm (hmax c hcs.1 hcs.2) hv)
  subst this
  rw [LwwEngine.get, hh.store, Option.mem_def.mp hc]
  rfl

theorem Inv.get_eq_none (hr : r.Inv) {k : String} (hno : ∀ op ∈ r.seen, op.key ≠ k) :
    r.engine.get k = none := by
  obtain ⟨cur, hh, hmem, _⟩ := hr.holds k
  rw [LwwEngine.get, hh.store]
  cases cur with
  | none => rfl
  | some c => exact absurd (hmem c rfl).2 (hno c (hmem c rfl).1)

/-- Every key that was written has a greatest operation. -/
theorem exists_greatest {ops : List Operation} {k : String} (h : ∃ op ∈ ops, op.key = k) :
    ∃ op ∈ ops, op.key = k ∧ ∀ o ∈ ops, o.key = k → o.version ≤ op.version := by
  obtain ⟨a, ha, hk⟩ := h
  have hne : ops.filter (fun o => o.key = k) ≠ [] :=
    ne_nil_of_mem (mem_filter.mpr ⟨ha, by simpa using hk⟩)
  obtain ⟨m, hm⟩ := exists_lastMax version hne
  obtain ⟨hmem, hmax⟩ := lastMax_spec hm
  rw [mem_filter] at hmem
  exact ⟨m, hmem.1, by simpa using hmem.2, fun o ho hko =>
    hmax o (mem_filter.mpr ⟨ho, by simpa using hko⟩)⟩

end LwwRun

open LwwRun

/-- **Convergence of the last-writer-wins engine.**  In every state of every run with no call under
way, a key reads as the operation with the greatest version among all operations ever seen for it
says: the value of an insert, nothing for a remove, nothing when there was none.  So two engines,
however their runs went, agree on every key for which they have seen the same operations. -/
theorem lww_convergence {srt : LogSort} {replicaId : ReplicaId} {clock : Timestamp} {r : LwwRun}
    (hr : Reachable srt replicaId clock r) (hu : UniqueIds r.seen) (hq : r.tasks = [])
    (k : String) :
    (∀ op ∈ r.seen, op.key = k → (∀ o ∈ r.seen, o.key = k → o.version ≤ op.version) →
        r.engine.get k = op.value?) ∧
      ((∀ op ∈ r.seen, op.key ≠ k) → r.engine.get k = none) ∧
      ∀ {srt' : LogSort} {replicaId' : ReplicaId} {clock' : Timestamp} {r' : LwwRun},
        Reachable srt' replicaId' clock' r' → UniqueIds r'.seen → r'.tasks = [] →
        (∀ op : Operation, op.key = k → (op ∈ r.seen ↔ op ∈ r'.seen)) →
        r.engine.get k = r'.engine.get k := by
  have hi := hr.inv hu
  refine ⟨fun op hop hk hmax => ?_, hi.get_eq_none, fun hr' hu' hq' hsame => ?_⟩
  · subst hk
    exact hi.get_eq hu hq hop hmax
  · have hi' := hr'.inv hu'
    by_cases hex : ∃ op ∈ r.seen, op.key = k
    · obtain ⟨op, hop, rfl, hmax⟩ := exists_greatest hex
      rw [hi.get_eq hu hq hop hmax, hi'.get_eq hu' hq' ((hsame op rfl).mp hop)]
      exact fun o ho hk => hmax o ((hsame o hk).mpr ho) hk
    · push Not at hex
      rw [hi.get_eq_none hex, hi'.get_eq_none]
      exact fun op hop hk => hex op ((hsame op hk).mpr hop) hk

/-- A remote insert followed by a local delete reads as absent, and a second engine that was handed
both operations in the other order, the insert twice, agrees. -/
theorem lww_convergence_deleted :
    let ins : Operation := .insert "k" [1] 5 3
    let del : Operation := .remove "k" 7 2
    let a := ((new 2 0).applyRemoteOps .stable [ins]).1
    let b := ((new 4 0).applyRemoteOps .stable [del, ins, ins]).1
    a.deleteOp "k" = del ∧ (a.deleteLocal .stable "k").1.get "k" = none ∧
      (a.deleteLocal .stable "k").1.get "k" = b.get "k" := by
  intro ins del a b
  have hdel : a.deleteOp "k" = del := by decide
  have ha : Reachable .stable 2 0 ⟨(a.deleteLocal .stable "k").1, [], [ins, del]⟩ := by
    refine (steps_of_applyRemoteOps .stable (init 2 0) [ins]).tail ?_
    exact hdel ▸ Step.delete ⟨a, [], [ins]⟩ "k"
  have hb : Reachable .stable 4 0 ⟨b, [], [del, ins, ins]⟩ :=
    steps_of_applyRemoteOps .stable (init 4 0) [del, ins, ins]
  have h := lww_convergence ha (by decide) rfl "k"
  refine ⟨hdel, h.1 del (by decide) rfl (by decide), ?_⟩
  exact h.2.2 hb (by decide) rfl (by simp; tauto)

end Smg.Mesh
