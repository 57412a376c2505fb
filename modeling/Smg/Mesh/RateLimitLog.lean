import Smg.Mesh.RateLimitConverge

/-!
# What the rate-limit log exposes

The gossip layer compares operations by their version only, so it matters which meaning the log
keeps under which version.  `lowOps ops k v` is what the operations for `k` up to version `v` mean
together: what a peer that has acknowledged `v` is taken to have.

* `Proper` — an operation's version is the newest of its facts; raw and compacted operations are;
* `lowOps_compactByKey` — compaction moves meaning to newer versions only;
* `Wf` — an engine whose log says nothing its entries do not, under versions they have reached;
* `Advances` — what a call may do: keep all this, and put meaning under an old version only if the
  other end has it.  `advances_putLocal`, `advances_deleteLocal` and `advances_applyRemoteOps` say
  when the engine's calls do.
-/

set_option autoImplicit false

namespace Smg.Mesh

open RateLimitState RateLimitEngine LivePoint List

/-! ## Versions of operations -/

variable {k : String} {op w : Operation} {v : Version}

section Proper

variable {codec : ShardCodec}

/-- The version of an operation is the greatest among its facts. -/
def Proper (codec : ShardCodec) (op : Operation) : Prop :=
  ∀ s ∈ operationState codec op, IsGreatest {v | ∃ f ∈ s.facts, f.version = v} op.version

theorem isGreatest_tombstone (v : Version) :
    IsGreatest {u | ∃ f ∈ (tombstone v).facts, f.version = u} v := by
  simp [facts, livePoints, tombstoneVersion,
    tombFacts, Fact.version]

theorem proper_of_isRaw (h : op.IsRaw codec) : Proper codec op := by
  intro s hs
  cases op with
  | insert k v t r =>
    rw [operationState_insert_of_isRaw h] at hs
    obtain ⟨p, hp, rfl⟩ := Option.map_eq_some_iff.mp hs
    rw [← version_of_rawPoint hp]
    simp [facts, livePoints, tombstoneVersion,
      RateLimitShard.fromLivePoint, tombFacts, Fact.version, fact]
  | remove k t r =>
    cases hs
    exact isGreatest_tombstone _

/-- The newest live version of a normal shard is its newest fact. -/
theorem isGreatest_newestLiveVersion {shard : RateLimitShard} (hn : (live shard).Normal)
    (hv : shard.newestLiveVersion = some v) :
    IsGreatest {u | ∃ f ∈ (live shard).facts, f.version = u} v := by
  rw [RateLimitShard.newestLiveVersion, max?_eq_some_iff] at hv
  obtain ⟨hmem, hmax⟩ := hv
  obtain ⟨p, hp, rfl⟩ := mem_map.mp hmem
  refine ⟨⟨p.fact, mem_facts.mpr (.inl ⟨p, hp, rfl⟩), rfl⟩, ?_⟩
  rintro u ⟨f, hf, rfl⟩
  rcases mem_facts.mp hf with ⟨q, hq, rfl⟩ | ⟨t, ht, rfl⟩
  · exact hmax _ (mem_map_of_mem hq)
  · exact (hn.alive p hp t ht).le

theorem isGreatest_intoOperation {s : RateLimitState} (hn : s.Normal)
    (h : s.intoOperation codec k = some w) :
    w.key = k ∧ IsGreatest {v | ∃ f ∈ s.facts, f.version = v} w.version := by
  cases s with
  | live shard =>
    obtain ⟨v, hv, hb⟩ := Option.bind_eq_some_iff.mp h
    cases hb
    exact ⟨rfl, isGreatest_newestLiveVersion hn hv⟩
  | tombstone v =>
    cases h
    exact ⟨rfl, isGreatest_tombstone v⟩

end Proper

/-! ## Meaning up to a version -/

section Low

variable (codec : ShardCodec)

/-- What the operations for a key up to a version mean. -/
def lowOps (ops : List Operation) (k : String) (v : Version) : LowerSet (Fact Version EpochCount) :=
  opsDen codec (ops.filter fun op => op.key = k ∧ op.version ≤ v)

variable {codec} {ops ops' : List Operation} {k : String} {v : Version}

theorem opDen_le_lowOps (hop : op ∈ ops) (hk : op.key = k) (hv : op.version ≤ v) :
    opDen codec op ≤ lowOps codec ops k v :=
  opDen_le_opsDen (mem_filter.mpr ⟨hop, by simp [hk, hv]⟩)

theorem lowOps_le {L : LowerSet (Fact Version EpochCount)}
    (h : ∀ op ∈ ops, op.key = k → op.version ≤ v → opDen codec op ≤ L) :
    lowOps codec ops k v ≤ L := by
  refine opsDen_le fun op hop => ?_
  rw [mem_filter, decide_eq_true_eq] at hop
  exact h op hop.1 hop.2.1 hop.2.2

theorem lowOps_append : lowOps codec (ops ++ ops') k v =
    lowOps codec ops k v ⊔ lowOps codec ops' k v := by
  rw [lowOps, filter_append, opsDen_append]
  rfl

theorem lowOps_le_forKey : lowOps codec ops k v ≤ opsDen codec (forKey k ops) :=
  lowOps_le fun _ hop hk _ => opDen_le_opsDen (mem_forKey.mpr ⟨hop, hk⟩)

theorem opDen_eq_bot (h : operationState codec op = none) : opDen codec op = ⊥ := by
  rw [opDen, h]
  rfl

/-- No fact of an operation is newer than the operation. -/
theorem Proper.version_le (hp : Proper codec op) {f : Fact Version EpochCount}
    (hf : f ∈ opDen codec op) : f.version ≤ op.version := by
  cases hs : operationState codec op with
  | none =>
    rw [opDen_eq_bot hs] at hf
    exact hf.elim
  | some s =>
    rw [opDen, hs] at hf
    obtain ⟨g, hg, hle⟩ := hf
    exact (Fact.version_le hle).trans ((hp s hs).2 ⟨g, hg, rfl⟩)

theorem Proper.exists_fact (hp : Proper codec op) (hs : (operationState codec op).isSome) :
    ∃ f ∈ opDen codec op, f.version = op.version := by
  obtain ⟨t, ht⟩ := Option.isSome_iff_exists.mp hs
  obtain ⟨f, hf, hfv⟩ := (hp t ht).1
  rw [opDen, ht]
  exact ⟨f, Fact.mem_knows.mpr ⟨f, hf, le_rfl⟩, hfv⟩

theorem forKey_le_lowOps
    (h : ∀ op ∈ ops, op.key = k → (operationState codec op).isSome → op.version ≤ v) :
    opsDen codec (forKey k ops) ≤ lowOps codec ops k v := by
  refine opsDen_le fun op hop => ?_
  obtain ⟨hop, hk⟩ := mem_forKey.mp hop
  cases hs : operationState codec op with
  | none => rw [opDen_eq_bot hs]; exact bot_le
  | some s => exact opDen_le_lowOps hop hk (h op hop hk (by simp [hs]))

end Low

/-! ## Compaction -/

section Compaction

variable {codec : ShardCodec} {S : Set LivePoint}

/-- A log entry made by compaction, and the state it was made from. -/
structure CompactedFrom (codec : ShardCodec) (S : Set LivePoint) (ops : List Operation)
    (w : Operation) (s : RateLimitState) : Prop where
  sound : Sound S s
  /-- It means what the operations of the key mean. -/
  den_eq : s.den = opsDen codec (RateLimitEngine.forKey w.key ops)
  /-- The entry is stamped with its newest fact. -/
  greatest : IsGreatest {v | ∃ f ∈ s.facts, f.version = v} w.version
  /-- The entry is read as that state. -/
  state : operationState codec w = some s

variable {ops : List Operation}

theorem exists_compactedFrom (hS : Set.InjOn version S) {srt : LogSort}
    (hops : SoundOps codec S ops) (hw : w ∈ compactByKey srt (epochMaxWinsFold codec) ops) :
    ∃ s, CompactedFrom codec S ops w s := by
  obtain ⟨k, g, hperm, -, hfold⟩ := exists_group_of_mem_compactByKey hw
  have hg : ∀ op, op ∈ g ↔ op ∈ ops ∧ op.key = k := by
    intro op
    rw [hperm.mem_iff, mem_filter, decide_eq_true_eq]
  have hgs : SoundOps codec S g := fun op hop => hops op ((hg op).mp hop).1
  obtain ⟨s, op, hs, hsound, hop, hinto⟩ := exists_foldState_of_compactOperations hS hgs hfold
  obtain ⟨hkey, hgreat⟩ := isGreatest_intoOperation hsound.normal hinto
  refine ⟨s, hsound, ?_, hgreat, (operationState_intoOperation hsound hinto).2⟩
  have hden := (foldState_spec hS hgs).2
  rw [hs, denOf_some] at hden
  rw [hden, hkey, ((hg op).mp hop).2]
  exact opsDen_congr fun o => by rw [hg, mem_forKey]

namespace CompactedFrom

variable {ops : List Operation} {w : Operation} {s : RateLimitState}

theorem opDen_le (h : CompactedFrom codec S ops w s) :
    opDen codec w ≤ opsDen codec (forKey w.key ops) := by
  rw [opDen, h.state, denOf_some, h.den_eq]

/-- No meaningful operation of the key is newer than its compaction. -/
theorem version_le (h : CompactedFrom codec S ops w s) (hop : op ∈ ops) (hk : op.key = w.key)
    (hp : Proper codec op) (hs : (operationState codec op).isSome) : op.version ≤ w.version := by
  obtain ⟨f, hf, hfv⟩ := hp.exists_fact hs
  have hmem : f ∈ s.den := h.den_eq ▸ opDen_le_opsDen (mem_forKey.mpr ⟨hop, hk⟩) hf
  obtain ⟨g, hg, hle⟩ := hmem
  rw [← hfv]
  exact (Fact.version_le hle).trans (h.greatest.2 ⟨g, hg, rfl⟩)

end CompactedFrom

variable (hS : Set.InjOn version S) (srt : LogSort) (hops : SoundOps codec S ops)
  (hp : ∀ op ∈ ops, Proper codec op) (k : String) (v : Version)

include hS hops hp

/-- **Compaction moves meaning to newer versions only.** -/
theorem lowOps_compactByKey :
    lowOps codec (compactByKey srt (epochMaxWinsFold codec) ops) k v = ⊥ ∨
      ∀ op ∈ ops, op.key = k → (operationState codec op).isSome → op.version ≤ v := by
  by_cases hex : ∃ w ∈ compactByKey srt (epochMaxWinsFold codec) ops,
      w.key = k ∧ w.version ≤ v
  · obtain ⟨w, hw, rfl, hv⟩ := hex
    obtain ⟨s, hc⟩ := exists_compactedFrom hS hops hw
    exact .inr fun op hop hk hs => (hc.version_le hop hk (hp op hop) hs).trans hv
  · refine .inl (le_bot_iff.mp (lowOps_le fun w hw hk hv => ?_))
    exact absurd ⟨w, hw, hk, hv⟩ hex

theorem lowOps_compactByKey_le :
    lowOps codec (compactByKey srt (epochMaxWinsFold codec) ops) k v ≤
      lowOps codec ops k v := by
  rcases lowOps_compactByKey hS srt hops hp k v with h | h
  · rw [h]
    exact bot_le
  · refine le_trans (lowOps_le fun w hw hk _ => ?_) (forKey_le_lowOps h)
    obtain ⟨s, hc⟩ := exists_compactedFrom hS hops hw
    exact hk ▸ hc.opDen_le

end Compaction

/-! ## Engines -/

namespace RateLimitEngine

variable {codec : ShardCodec} {S : Set LivePoint}

/-- The engine knows of a version of the key at least as new as `v`. -/
def Reached (e : RateLimitEngine) (k : String) (v : Version) : Prop :=
  ∃ f ∈ e.keyDen k, v ≤ f.version

variable {e e' : RateLimitEngine}

theorem Reached.mono (h : e.Reached k v) (hm : e.keyDen k ≤ e'.keyDen k) : e'.Reached k v := by
  obtain ⟨f, hf, hv⟩ := h
  exact ⟨f, hm hf, hv⟩

/-- An operation an engine may have sent: it means nothing the engine does not know. -/
structure Circulates (codec : ShardCodec) (S : Set LivePoint) (e : RateLimitEngine)
    (op : Operation) : Prop where
  sound : ∀ s ∈ operationState codec op, Sound S s
  /-- Its version is its newest fact's. -/
  proper : Proper codec op
  /-- The engine knows what it means. -/
  known : opDen codec op ≤ e.keyDen op.key
  /-- The engine knows of a version as new. -/
  reached : e.Reached op.key op.version

variable {op : Operation}

theorem Circulates.mono (h : Circulates codec S e op) (hm : ∀ k, e.keyDen k ≤ e'.keyDen k) :
    Circulates codec S e' op :=
  ⟨h.sound, h.proper, h.known.trans (hm _), h.reached.mono (hm _)⟩

/-- Compaction of known operations gives operations that may be sent. -/
theorem circulates_of_mem_compactByKey (hS : Set.InjOn version S) {srt : LogSort}
    {ops : List Operation} (hops : SoundOps codec S ops)
    (hknown : ∀ op ∈ ops, opDen codec op ≤ e.keyDen op.key)
    (hw : w ∈ compactByKey srt (epochMaxWinsFold codec) ops) : Circulates codec S e w := by
  obtain ⟨s, hc⟩ := exists_compactedFrom hS hops hw
  have hk : opsDen codec (forKey w.key ops) ≤ e.keyDen w.key := by
    refine opsDen_le fun op hop => ?_
    obtain ⟨hop, hkey⟩ := mem_forKey.mp hop
    exact hkey ▸ hknown op hop
  have hstate : ∀ t ∈ operationState codec w, s = t := fun t ht =>
    Option.some.inj (hc.state.symm.trans ht)
  refine ⟨fun t ht => hstate t ht ▸ hc.sound, fun t ht => hstate t ht ▸ hc.greatest,
    hc.opDen_le.trans hk, ?_⟩
  obtain ⟨f, hf, hfv⟩ := hc.greatest.1
  refine ⟨f, hk ?_, hfv.ge⟩
  rw [← hc.den_eq]
  exact Fact.mem_knows.mpr ⟨f, hf, le_rfl⟩

/-- An engine whose log is backed by its entries and whose clock is past everything it knows. -/
structure Wf (codec : ShardCodec) (S : Set LivePoint) (e : RateLimitEngine) : Prop where
  sound : e.SoundEntries S
  log : ∀ op ∈ e.log, Circulates codec S e op
  /-- The clock has passed every fact. -/
  clock : ∀ k, ∀ f ∈ e.keyDen k, f.version.timestamp ≤ e.clock

/-- A call that keeps the engine well-formed, forgets nothing, and puts meaning under versions
already reached only if `recv` has it. -/
structure Advances (codec : ShardCodec) (S : Set LivePoint)
    (recv : String → LowerSet (Fact Version EpochCount)) (e e' : RateLimitEngine) : Prop where
  wf : Wf codec S e'
  mono : ∀ k, e.keyDen k ≤ e'.keyDen k
  /-- Old versions gain only what `recv` has. -/
  low : ∀ k v, e.Reached k v → lowOps codec e'.log k v ≤ lowOps codec e.log k v ⊔ recv k

/-! ## Local writes -/

def putOp (e : RateLimitEngine) (k : String) (v : Bytes) : Operation :=
  .insert k v (tick e.clock) e.replicaId

def deleteOp (e : RateLimitEngine) (k : String) : Operation := .remove k (tick e.clock) e.replicaId

section Calls

variable (hS : Set.InjOn version S) (srt : LogSort)
  (recv : String → LowerSet (Fact Version EpochCount)) (he : Wf codec S e)

include hS he

section Local

variable (hsound : ∀ s ∈ operationState codec op, Sound S s) (hp : Proper codec op)
  (hclock : e.clock < op.timestamp)

include hsound hp hclock

/-- **A local write**: the entry learns the operation, and the log gains it or stays as it is. -/
theorem advances_local (n : Nat) (hlearn : Learns S e e' op.key (opDen codec op))
    (hc : e'.clock = op.timestamp)
    (hlog : e'.log = e.log ∨ (operationState codec op).isSome ∧
      e'.log = appendOp srt (epochMaxWinsFold codec) n e.log op) :
    Advances codec S recv e e' := by
  have hmono : ∀ k, e.keyDen k ≤ e'.keyDen k := by
    intro k
    rw [hlearn.keyDen]
    split
    · exact le_sup_left
    · exact le_rfl
  have hknown : opDen codec op ≤ e'.keyDen op.key := by
    rw [hlearn.keyDen_self]
    exact le_sup_right
  have hops : SoundOps codec S (e.log ++ [op]) :=
    forall_mem_append.mpr ⟨fun o h => (he.log o h).sound, forall_mem_singleton.mpr hsound⟩
  have hproper : ∀ o ∈ e.log ++ [op], Proper codec o :=
    forall_mem_append.mpr ⟨fun o h => (he.log o h).proper, forall_mem_singleton.mpr hp⟩
  have hall : ∀ o ∈ e.log ++ [op], opDen codec o ≤ e'.keyDen o.key := forall_mem_append.mpr
    ⟨fun o h => (he.log o h).known.trans (hmono _), forall_mem_singleton.mpr hknown⟩
  refine ⟨⟨hlearn.sound, fun o ho => ?_, fun k f hf => ?_⟩, hmono, fun k v hv => ?_⟩
  · rcases hlog with hl | ⟨hsome, hl⟩
    · exact (he.log o (hl ▸ ho)).mono hmono
    · rw [hl] at ho
      rcases mem_of_mem_appendOp ho with ho | ho
      · rcases mem_append.mp ho with ho | ho
        · exact (he.log o ho).mono hmono
        · rw [mem_singleton.mp ho]
          obtain ⟨f, hf, hfv⟩ := hp.exists_fact hsome
          exact ⟨hsound, hp, hknown, f, hknown hf, hfv.ge⟩
      · exact circulates_of_mem_compactByKey hS hops hall ho
  · -- what is new is at most as new as the operation
    rw [hc]
    have hold : ∀ f ∈ e.keyDen k, f.version.timestamp ≤ op.timestamp := fun f hf =>
      (he.clock k f hf).trans hclock.le
    rw [hlearn.keyDen] at hf
    split at hf
    · rcases LowerSet.mem_sup_iff.mp hf with hf | hf
      · exact hold f hf
      · exact Version.timestamp_le (hp.version_le hf)
    · exact hold f hf
  · refine le_trans ?_ le_sup_left
    rcases hlog with hl | ⟨-, hl⟩
    · rw [hl]
    · rw [hl]
      have hfold : lowOps codec (appendOp srt (epochMaxWinsFold codec) n e.log op) k v ≤
          lowOps codec (e.log ++ [op]) k v := by
        simp only [appendOp]
        split
        · refine (lowOps_le fun _ hop hk hv => ?_).trans
            (lowOps_compactByKey_le hS srt hops hproper k v)
          exact opDen_le_lowOps (mem_of_mem_truncate hop) hk hv
        · exact le_rfl
      refine hfold.trans ?_
      rw [lowOps_append]
      refine sup_le le_rfl (lowOps_le fun o ho _ hov => ?_)
      rw [mem_singleton.mp ho] at hov
      obtain ⟨f, hf, hle⟩ := hv
      refine absurd hov (not_le.mpr (lt_of_le_of_lt hle (Version.lt_def.mpr (.inl ?_))))
      exact lt_of_le_of_lt (he.clock k f hf) hclock

theorem advances_recorded {changed : Bool} {op' : Operation}
    (hlearn : Learns S e e' op.key (opDen codec op))
    (hframe : e' = { e with clock := op.timestamp, entries := e'.entries })
    (hchanged : changed = true → (operationState codec op).isSome) (hop : op' = op) :
    Advances codec S recv e (if changed then e'.appendLocal codec srt op' else e') := by
  subst hop
  have hlog : e'.log = e.log := by rw [hframe]
  refine advances_local hS srt recv he hsound hp hclock e'.entries.entries.length ?_ ?_ ?_
  · split
    · exact ⟨hlearn.sound, hlearn.keyDen_self, hlearn.lookup_ne⟩
    · exact hlearn
  · split <;> exact congrArg (·.clock) hframe
  · split
    · rename_i h
      exact .inr ⟨hchanged h, by rw [appendLocal, hlog]⟩
    · exact .inl hlog

end Local

theorem advances_putLocal {v : Bytes} (hraw : (e.putOp k v).IsRaw codec)
    (hclock : e.clock.val + 1 < 2 ^ 64) (hpt : ∀ p ∈ rawPoint (e.putOp k v), p ∈ S) :
    Advances codec S recv e (e.putLocal codec srt k v).1 := by
  have hsound : ∀ s ∈ operationState codec (e.putOp k v), Sound S s := by
    intro s hs
    refine ⟨?_, ?_, facts_ne_nil_of_operationState hs⟩
    all_goals
      rw [putOp, operationState_insert_of_isRaw hraw] at hs
      obtain ⟨p, hp, rfl⟩ := Option.map_eq_some_iff.mp hs
    · exact normal_fromLivePoint p
    · intro q hq
      rw [mem_singleton.mp hq]
      exact hpt p hp
  have hlearn := learns_mergeInsert hS (e := { e with clock := tick e.clock }) he.sound hsound
  obtain ⟨hframe, hchanged⟩ := mergeInsert_frame codec
    { e with clock := tick e.clock } k v ⟨tick e.clock, e.replicaId⟩
  exact advances_recorded hS srt recv he hsound (proper_of_isRaw hraw) (lt_saturatingSucc hclock)
    ⟨hlearn.sound, hlearn.keyDen_self, hlearn.lookup_ne⟩ hframe hchanged
    (congrArg (Operation.insert k v _) (congrArg (·.replicaId) hframe))

theorem advances_deleteLocal (hclock : e.clock.val + 1 < 2 ^ 64) :
    Advances codec S recv e (e.deleteLocal codec srt k).1 := by
  have hsound : ∀ s ∈ operationState codec (e.deleteOp k), Sound S s := by
    intro s hs
    refine ⟨?_, ?_, facts_ne_nil_of_operationState hs⟩
    · cases hs
      exact normal_tombstone _
    · cases hs
      simp [livePoints]
  have hlearn : Learns S _ _ k (opDen codec (e.deleteOp k)) := learns_mergeRemove hS
    (e := { e with clock := tick e.clock }) he.sound k (tick e.clock) e.replicaId
  have hframe := mergeRemove_frame codec
    { e with clock := tick e.clock } k ⟨tick e.clock, e.replicaId⟩
  exact advances_recorded hS srt recv he hsound (proper_of_isRaw trivial) (lt_saturatingSucc hclock)
    ⟨hlearn.sound, hlearn.keyDen_self, hlearn.lookup_ne⟩ hframe (fun _ => rfl)
    (congrArg (Operation.remove k _) (congrArg (·.replicaId) hframe))

/-! ## Merged batches -/

/-- **A merged batch advances** when, for each key, it brings something newer than all the engine
knows, or nothing that is not in the log or with the receiver. -/
theorem advances_applyRemoteOps {ops : List Operation} (hops : SoundOps codec S ops)
    (hp : ∀ op ∈ ops, Proper codec op)
    (hcond : ∀ k, (∃ op ∈ ops, op.key = k ∧ (operationState codec op).isSome ∧
        ∀ f ∈ e.keyDen k, f.version < op.version) ∨
      opsDen codec (forKey k ops) ≤ opsDen codec (forKey k e.log) ⊔ recv k) :
    Advances codec S recv e (e.applyRemoteOps codec srt ops).1 := by
  obtain ⟨hsound, hden⟩ := keyDen_applyRemoteOps hS hops srt he.sound
  have hmono : ∀ k, e.keyDen k ≤ (e.applyRemoteOps codec srt ops).1.keyDen k := fun k => by
    rw [hden]
    exact le_sup_left
  by_cases hnil : ops.isEmpty
  · have heq : (e.applyRemoteOps codec srt ops).1 = e := by rw [applyRemoteOps, if_pos hnil]
    rw [heq]
    exact ⟨he, fun _ => le_rfl, fun _ _ _ => le_sup_left⟩
  obtain ⟨hflog, -, hfclock, hfts⟩ := foldl_applyOp_frame codec
    (e.mergeLog codec srt (sortByKey Operation.version ops)) (sortByKey Operation.version ops)
  have hlog : (e.applyRemoteOps codec srt ops).1.log = compactByKey srt (epochMaxWinsFold codec)
      (e.log ++ sortByKey Operation.version ops) := by
    rw [applyRemoteOps, if_neg hnil]
    exact hflog
  have hall : SoundOps codec S (e.log ++ sortByKey Operation.version ops) :=
    forall_mem_append.mpr ⟨fun o h => (he.log o h).sound, fun o h => hops o (mem_sortByKey.mp h)⟩
  have hproper : ∀ o ∈ e.log ++ sortByKey Operation.version ops, Proper codec o :=
    forall_mem_append.mpr ⟨fun o h => (he.log o h).proper, fun o h => hp o (mem_sortByKey.mp h)⟩
  refine ⟨⟨hsound, fun o ho => ?_, fun k f hf => ?_⟩, hmono, fun k v hv => ?_⟩
  · rw [hlog] at ho
    refine circulates_of_mem_compactByKey hS hall (forall_mem_append.mpr
      ⟨fun o h => (he.log o h).known.trans (hmono _), fun o h => ?_⟩) ho
    rw [hden]
    exact le_sup_of_le_right (opDen_le_opsDen (mem_forKey.mpr ⟨mem_sortByKey.mp h, rfl⟩))
  · have hclk : (e.applyRemoteOps codec srt ops).1.clock =
        ((sortByKey Operation.version ops).foldl (applyOp codec)
          (e.mergeLog codec srt (sortByKey Operation.version ops))).clock := by
      rw [applyRemoteOps, if_neg hnil]
    rw [hclk]
    rw [hden] at hf
    rcases LowerSet.mem_sup_iff.mp hf with hf | hf
    · exact (he.clock k f hf).trans hfclock
    · simp only [opsDen, LowerSet.mem_iSup_iff] at hf
      obtain ⟨op, hop, hf⟩ := hf
      obtain ⟨hop, -⟩ := mem_forKey.mp hop
      exact (Version.timestamp_le ((hp op hop).version_le hf)).trans
        (hfts op (mem_sortByKey.mpr hop))
  · rw [hlog]
    rcases lowOps_compactByKey hS srt hall hproper k v with hbot | hle
    · rw [hbot]
      exact bot_le
    · -- everything meaningful is up to `v`, so nothing was newer than the engine knew
      rcases hcond k with ⟨op, hop, hk, hsome, hnew⟩ | hin
      · obtain ⟨f, hf, hvf⟩ := hv
        have h1 := hle op (mem_append_right _ (mem_sortByKey.mpr hop)) hk hsome
        exact absurd (h1.trans hvf) (not_le.mpr (hnew f hf))
      · have hlowlog : opsDen codec (forKey k e.log) ≤ lowOps codec e.log k v :=
          forKey_le_lowOps fun o ho => hle o (mem_append_left _ ho)
        refine (lowOps_compactByKey_le hS srt hall hproper k v).trans ?_
        rw [lowOps_append]
        refine sup_le le_sup_left ?_
        calc lowOps codec (sortByKey Operation.version ops) k v
            ≤ opsDen codec (forKey k (sortByKey Operation.version ops)) := lowOps_le_forKey
          _ ≤ opsDen codec (forKey k ops) := opsDen_mono fun o ho => by simpa using ho
          _ ≤ opsDen codec (forKey k e.log) ⊔ recv k := hin
          _ ≤ lowOps codec e.log k v ⊔ recv k := sup_le_sup_right hlowlog _

omit hS in
theorem advances_observe (t : Timestamp) :
    Advances codec S recv e { e with clock := max e.clock t } :=
  ⟨⟨he.sound, fun o ho => (he.log o ho).mono fun _ => le_rfl,
    fun k f hf => (he.clock k f hf).trans (le_max_left _ _)⟩, fun _ => le_rfl,
    fun _ _ _ => le_sup_left⟩

end Calls

end RateLimitEngine

end Smg.Mesh
