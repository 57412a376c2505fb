import Smg.Mesh.PeerStream
import Smg.Mesh.RateLimitLog

/-!
# Watermarks over the rate-limit engine

The gossip protocol of `Smg.Mesh.PeerStream` over rate-limit engines.  A compacted operation keeps
the version of its newest fact while its contents grow, and the watermark looks at the version only.
So merging an *older* fact from a third party, a point with a larger value or a tombstone, changes
an operation the peer has acknowledged without making it newer, and the watermark withholds it for
good (`epochMaxWins_withheld`).

`epochMaxWins_acked_known` says when this cannot happen.  In every run whose actions meet
`GossipOk`, whatever the watermark suppresses of the log, the receiver's state does not change by
merging it. The condition restricts three things: a third party's batch must bring, for each key,
something newer than all the node knows of it, or nothing new; the operations of one key in a round
must travel in one frame, since an ack for the last of them is taken for all; and local writes must
be application payloads stamped before the clock saturates.  What the two peers send each other is
not restricted.
-/

set_option autoImplicit false

namespace Smg.Mesh

open RateLimitEngine Net List

open RateLimitEngine (Reached Circulates Wf Advances forKey)

/-- The rate-limit engine, as the gossip layer drives it. -/
def rateLimitGossip (codec : ShardCodec) (srt : LogSort) : NamespaceCrdtEngine RateLimitEngine where
  putLocal e k v := (e.putLocal codec srt k v).1
  deleteLocal e k := (e.deleteLocal codec srt k).1
  exportOps e := e.log
  applyRemoteOps e ops := (e.applyRemoteOps codec srt ops).1
  observe e t := { e with clock := max e.clock t }

def decoded (text : ReplicaText) (batch : List CrdtOp) : List Operation :=
  batch.filterMap (protoToOp text)

/-- The operations of each key travel in one frame. -/
def OneFramePerKey (text : ReplicaText) (ops : List Operation) : Prop :=
  ∀ batch ∈ buildCrdtBatches text ops maxStreamChunkBytes, ∀ a ∈ batch, ∀ op ∈ ops,
    op.key = a.key → opToProto text op ∈ batch

/-- What a third party's batch may bring: for each key something newer than all the node knows of
it, or nothing that is not in its log or with its peer. -/
def NewerOrKnown (codec : ShardCodec) (e : RateLimitEngine)
    (recv : String → LowerSet (Fact Version EpochCount)) (ops : List Operation) : Prop :=
  ∀ k, (∃ op ∈ ops, op.key = k ∧ (operationState codec op).isSome ∧
      ∀ f ∈ e.keyDen k, f.version < op.version) ∨
    opsDen codec (forKey k ops) ≤ opsDen codec (forKey k e.log) ⊔ recv k

/-- The condition on each action, in the state it is taken in; `S` is the set of points that are
ever written. -/
def GossipOk (codec : ShardCodec) (text : ReplicaText) (S : Set LivePoint)
    (n : Net RateLimitEngine) : Action → Prop
  | .put s k v =>
    ((n.peer s).engine.putOp k v).IsRaw codec ∧ (n.peer s).engine.clock.val + 1 < 2 ^ 64 ∧
      ∀ p ∈ rawPoint ((n.peer s).engine.putOp k v), p ∈ S
  | .delete s _ => (n.peer s).engine.clock.val + 1 < 2 ^ 64
  | .observe _ _ => True
  | .thirdParty s ops =>
    SoundOps codec S ops ∧ (∀ op ∈ ops, Proper codec op) ∧
      NewerOrKnown codec (n.peer s).engine (n.peer s.other).engine.keyDen ops
  | .collect _ => True
  | .sendRound s => OneFramePerKey text (Net.roundOps (n.peer s))
  | .deliver _ => True

/-- A round with one operation per key meets the condition whatever its frames. -/
theorem oneFramePerKey_of_injective {text : ReplicaText} {ops : List Operation}
    (h : ∀ a ∈ ops, ∀ b ∈ ops, a.key = b.key → a = b) : OneFramePerKey text ops := by
  intro batch hbatch a ha op hop hk
  have hmem : a ∈ ops.map (opToProto text) := by
    rw [← flatten_buildCrdtBatches ops maxStreamChunkBytes]
    exact mem_flatten_of_mem hbatch ha
  obtain ⟨o, ho, rfl⟩ := mem_map.mp hmem
  have hkey : (opToProto text o).key = o.key := by cases o <;> rfl
  rw [h op hop o ho (hk.trans hkey)]
  exact ha

/-! ## The invariant -/

section Invariant

variable {codec : ShardCodec} {text : ReplicaText} {S : Set LivePoint} {n n' : Net RateLimitEngine}

/-- If the peer of `s` learned `L`, it would have all that `s` keeps under versions of `k` up to
`v`, in its log and in its snapshot. -/
structure Backed (codec : ShardCodec) (peer : Side → Peer RateLimitEngine) (s : Side) (k : String)
    (v : Version) (L : LowerSet (Fact Version EpochCount)) : Prop where
  /-- The version is not ahead of what `s` knows. -/
  reached : (peer s).engine.Reached k v
  log : lowOps codec (peer s).engine.log k v ≤ L ⊔ (peer s.other).engine.keyDen k
  round : lowOps codec (peer s).roundBatch k v ≤ L ⊔ (peer s.other).engine.keyDen k

/-- What ties logs, snapshots, frames and watermarks together. -/
structure GossipInv (codec : ShardCodec) (text : ReplicaText) (S : Set LivePoint)
    (n : Net RateLimitEngine) : Prop where
  wf : ∀ s, Wf codec S (n.peer s).engine
  /-- The snapshot still stands for the log. -/
  round : ∀ s, ∀ op ∈ (n.peer s).roundBatch, Circulates codec S (n.peer s).engine op ∧
    Backed codec n.peer s op.key op.version (lowOps codec (n.peer s).roundBatch op.key op.version)
  /-- A batch in flight makes up for what the receiver lacks. -/
  batch : ∀ s ops, .crdtBatch s.other ops ∈ n.sent → ∀ op ∈ decoded text ops,
    Circulates codec S (n.peer s).engine op ∧
      Backed codec n.peer s op.key op.version (opsDen codec (forKey op.key (decoded text ops)))
  /-- The receiver has what its acks in flight say. -/
  ack : ∀ s entries, .crdtAck s entries ∈ n.sent → ∀ k v,
    (crdtAckToWatermark text entries).get k = some v → Backed codec n.peer s k v ⊥
  /-- The receiver has what the sender believes acked. -/
  acked : ∀ s k v, (n.peer s).acked.get k = some v → Backed codec n.peer s k v ⊥

/-- Both engines move on, everything else stays. -/
structure NetAdvances (codec : ShardCodec) (S : Set LivePoint) (n n' : Net RateLimitEngine) :
    Prop where
  wf : ∀ s, Wf codec S (n'.peer s).engine
  mono : ∀ s k, (n.peer s).engine.keyDen k ≤ (n'.peer s).engine.keyDen k
  /-- Old versions gain only what the peer has. -/
  low : ∀ s k v, (n.peer s).engine.Reached k v → lowOps codec (n'.peer s).engine.log k v ≤
    lowOps codec (n.peer s).engine.log k v ⊔ (n'.peer s.other).engine.keyDen k
  roundBatch : ∀ s, (n'.peer s).roundBatch = (n.peer s).roundBatch
  acked : ∀ s, (n'.peer s).acked = (n.peer s).acked
  sent : n'.sent = n.sent

theorem Backed.advance (h : NetAdvances codec S n n') {s : Side} {k : String} {v : Version}
    {L : LowerSet (Fact Version EpochCount)} (hb : Backed codec n.peer s k v L) :
    Backed codec n'.peer s k v L where
  reached := hb.reached.mono (h.mono s k)
  log := by
    refine (h.low s k v hb.reached).trans (sup_le (hb.log.trans ?_) le_sup_right)
    exact sup_le_sup_left (h.mono _ k) _
  round := by
    rw [h.roundBatch]
    exact hb.round.trans (sup_le_sup_left (h.mono _ k) _)

/-- Only the snapshot changes, to one that is backed. -/
theorem Backed.congr {peer peer' : Side → Peer RateLimitEngine} {s : Side} {k : String}
    {v : Version} {L : LowerSet (Fact Version EpochCount)} (h : Backed codec peer s k v L)
    (heng : ∀ t, (peer' t).engine = (peer t).engine)
    (hround : lowOps codec (peer' s).roundBatch k v ≤ L ⊔ (peer s.other).engine.keyDen k) :
    Backed codec peer' s k v L :=
  ⟨by rw [heng]; exact h.reached, by rw [heng, heng]; exact h.log, by rw [heng]; exact hround⟩

theorem mem_decoded_map {ops : List Operation} {op : Operation} {batch : List CrdtOp}
    (hsub : batch ⊆ ops.map (opToProto text)) :
    op ∈ decoded text batch ↔ op ∈ ops ∧ opToProto text op ∈ batch := by
  rw [decoded, mem_filterMap]
  constructor
  · rintro ⟨a, ha, hop⟩
    obtain ⟨o, ho, rfl⟩ := mem_map.mp (hsub ha)
    rw [protoToOp_opToProto] at hop
    cases hop
    exact ⟨ho, ha⟩
  · rintro ⟨-, h⟩
    exact ⟨_, h, protoToOp_opToProto op⟩

variable (hi : GossipInv codec text S n)

include hi

theorem GossipInv.advance (h : NetAdvances codec S n n') : GossipInv codec text S n' where
  wf := h.wf
  round s op hop := by
    rw [h.roundBatch] at hop ⊢
    exact ⟨(hi.round s op hop).1.mono (h.mono s), (hi.round s op hop).2.advance h⟩
  batch s ops hops op hop := by
    have := hi.batch s ops (h.sent ▸ hops) op hop
    exact ⟨this.1.mono (h.mono s), this.2.advance h⟩
  ack s entries he k v hv := (hi.ack s entries (h.sent ▸ he) k v hv).advance h
  acked s k v hv := (hi.acked s k v (h.acked s ▸ hv)).advance h

theorem netAdvances_modify (s : Side) (f : RateLimitEngine → RateLimitEngine)
    (hf : Advances codec S (n.peer s.other).engine.keyDen (n.peer s).engine
      (f (n.peer s).engine)) :
    NetAdvances codec S n (n.modify s fun p => { p with engine := f p.engine }) := by
  have hother := modify_peer_ne n (fun p => { p with engine := f p.engine }) s.other_ne
  refine ⟨fun t => ?_, fun t k => ?_, fun t k v hv => ?_,
    modify_eq n s Peer.roundBatch fun _ => rfl, modify_eq n s Peer.acked fun _ => rfl, rfl⟩ <;>
    rcases eq_or_ne t s with rfl | hts
  · rw [modify_peer_self]
    exact hf.wf
  · rw [modify_peer_ne n _ hts]
    exact hi.wf t
  · rw [modify_peer_self]
    exact hf.mono k
  · rw [modify_peer_ne n _ hts]
  · rw [hother, modify_peer_self]
    exact hf.low k v hv
  · rw [modify_peer_ne n _ hts]
    exact le_sup_left

/-! ## Steps -/

theorem GossipInv.collect (s : Side) :
    GossipInv codec text S (n.modify s fun p => { p with roundBatch := p.engine.log }) := by
  obtain ⟨f, hf⟩ : ∃ f, f = fun p : Peer RateLimitEngine => { p with roundBatch := p.engine.log } :=
    ⟨_, rfl⟩
  rw [← hf]
  have heng := modify_eq n s (f := f) Peer.engine fun _ => by rw [hf]
  have hacked := modify_eq n s (f := f) Peer.acked fun _ => by rw [hf]
  have hself : ((n.modify s f).peer s).roundBatch = (n.peer s).engine.log := by
    rw [modify_peer_self, hf]
  -- the new snapshot is the log, so what backs the log backs it
  have hb : ∀ {t k v L}, Backed codec n.peer t k v L →
      Backed codec (n.modify s f).peer t k v L := by
    intro t k v L h
    refine h.congr heng ?_
    rcases eq_or_ne t s with rfl | hts
    · rw [hself]
      exact h.log
    · rw [modify_peer_ne n _ hts]
      exact h.round
  refine ⟨fun t => by rw [heng]; exact hi.wf t, fun t op hop => ?_, fun t ops hops op hop => ?_,
    fun t entries he k v hv => hb (hi.ack t entries he k v hv),
    fun t k v hv => hb (hi.acked t k v (hacked t ▸ hv))⟩
  · rw [heng]
    rcases eq_or_ne t s with rfl | hts
    · rw [hself] at hop ⊢
      have hc := (hi.wf t).log op hop
      refine ⟨hc, by rw [heng]; exact hc.reached, by rw [heng]; exact le_sup_left, ?_⟩
      rw [hself]
      exact le_sup_left
    · rw [modify_peer_ne n _ hts] at hop ⊢
      exact ⟨(hi.round t op hop).1, hb (hi.round t op hop).2⟩
  · rw [heng]
    exact ⟨(hi.batch t ops hops op hop).1, hb (hi.batch t ops hops op hop).2⟩

/-- Sending a round: what the frame does not carry of a key has been acked. -/
theorem GossipInv.sendRound {s : Side} (hok : OneFramePerKey text (roundOps (n.peer s))) :
    GossipInv codec text S (sendRound text n s) := by
  refine ⟨hi.wf, hi.round, fun t ops hops op hop => ?_, fun t entries he k v hv => ?_, hi.acked⟩
  · rcases mem_append.mp hops with hops | hops
    · exact hi.batch t ops hops op hop
    · obtain ⟨batch, hbatch, heq⟩ := mem_map.mp hops
      injection heq with hts hbo
      have hts : t = s := by rw [← t.other_other, ← hts, s.other_other]
      subst hts hbo
      have hsub : batch ⊆ (roundOps (n.peer t)).map (opToProto text) := by
        rw [← flatten_buildCrdtBatches _ maxStreamChunkBytes]
        exact fun a ha => mem_flatten_of_mem hbatch ha
      obtain ⟨hround, hin⟩ := (mem_decoded_map hsub).mp hop
      have hmem : op ∈ (n.peer t).roundBatch := mem_of_mem_filter hround
      obtain ⟨hcirc, hback⟩ := hi.round t op hmem
      have hlow : lowOps codec (n.peer t).roundBatch op.key op.version ≤
          opsDen codec (forKey op.key (decoded text batch)) ⊔
            (n.peer t.other).engine.keyDen op.key := by
        refine lowOps_le fun o ho hk hv => ?_
        cases hallow : (n.peer t).acked.allows o with
        | true =>
          have hor : o ∈ roundOps (n.peer t) := mem_filter.mpr ⟨ho, hallow⟩
          have hkey : (opToProto text op).key = op.key := by cases op <;> rfl
          have hob := hok batch hbatch _ hin o hor (hk.trans hkey.symm)
          refine le_sup_of_le_left (opDen_le_opsDen (mem_forKey.mpr ⟨?_, hk⟩))
          exact (mem_decoded_map hsub).mpr ⟨hor, hob⟩
        | false =>
          obtain ⟨v, hv, hle⟩ := CrdtWatermark.exists_of_allows_eq_false hallow
          have hb := (hi.acked t o.key v hv).round
          rw [bot_sup_eq, hk] at hb
          exact le_sup_of_le_right ((opDen_le_lowOps ho hk hle).trans hb)
      refine ⟨hcirc, hback.reached, hback.log.trans (sup_le hlow le_sup_right), hlow⟩
  · rcases mem_append.mp he with he | he
    · exact hi.ack t entries he k v hv
    · obtain ⟨batch, -, hb⟩ := mem_map.mp he
      cases hb

/-- Handing over a batch: the receiver learns what the sender kept, and acks no more than that. -/
theorem GossipInv.handleBatch (hS : Set.InjOn LivePoint.version S) (srt : LogSort)
    {dst : Side} {ops : List CrdtOp} (hm : .crdtBatch dst ops ∈ n.sent) :
    GossipInv codec text S
      (handleFrame (rateLimitGossip codec srt) text n (.crdtBatch dst ops)) := by
  have hb := hi.batch dst.other ops (by rwa [dst.other_other])
  rw [handleFrame, dispatchCrdtBatch]
  by_cases hempty : (ops.filterMap (protoToOp text)).isEmpty
  · rw [if_pos hempty]
    exact hi.advance (netAdvances_modify hi dst (fun _ => (n.peer dst).engine)
      ⟨hi.wf dst, fun _ => le_rfl, fun _ _ _ => le_sup_left⟩)
  · rw [if_neg hempty]
    have hadv : Advances codec S (n.peer dst.other).engine.keyDen (n.peer dst).engine
        ((n.peer dst).engine.applyRemoteOps codec srt (decoded text ops)).1 := by
      refine advances_applyRemoteOps hS srt _ (hi.wf dst)
        (fun op hop => (hb op hop).1.sound) (fun op hop => (hb op hop).1.proper) fun k => .inr ?_
      refine le_sup_of_le_right (opsDen_le fun op hop => ?_)
      obtain ⟨hop, hk⟩ := mem_forKey.mp hop
      exact hk ▸ (hb op hop).1.known
    have hnet := netAdvances_modify hi dst
      (fun e => (e.applyRemoteOps codec srt (decoded text ops)).1) hadv
    have hn := hi.advance hnet
    dsimp only
    split
    · exact hn
    · refine ⟨hn.wf, hn.round, fun t ops' hops' => ?_, fun t entries he k v hv => ?_, hn.acked⟩
      · rcases mem_append.mp hops' with h | h
        · exact hn.batch t ops' h
        · cases mem_singleton.mp h
      · rcases mem_append.mp he with h | h
        · exact hn.ack t entries h k v hv
        · cases mem_singleton.mp h
          obtain ⟨op, hop, rfl, rfl⟩ :=
            CrdtWatermark.mem_fromOps (crdtAckToWatermark_watermarkToCrdtAck hv)
          -- the batch is now part of what the receiver knows
          have hback := (hb op hop).2.advance hnet
          have hlearned : opsDen codec (forKey op.key (decoded text ops)) ≤
              ((n.modify dst fun p => { p with
                engine := (p.engine.applyRemoteOps codec srt (decoded text ops)).1 }).peer
                dst.other.other).engine.keyDen op.key := by
            rw [dst.other_other, modify_peer_self, (keyDen_applyRemoteOps hS
              (fun op hop => (hb op hop).1.sound) srt (hi.wf dst).sound).2]
            exact le_sup_right
          exact ⟨hback.reached, hback.log.trans (sup_le (le_sup_of_le_right hlearned) le_sup_right),
            hback.round.trans (sup_le (le_sup_of_le_right hlearned) le_sup_right)⟩

theorem GossipInv.handleAck {E : NamespaceCrdtEngine RateLimitEngine} {dst : Side}
    {entries : List CrdtKeyVersion} (hm : .crdtAck dst entries ∈ n.sent) :
    GossipInv codec text S (handleFrame E text n (.crdtAck dst entries)) := by
  obtain ⟨f, hf⟩ : ∃ f, f = fun p : Peer RateLimitEngine => { p with
    acked := p.acked.mergeMax (crdtAckToWatermark text entries) } := ⟨_, rfl⟩
  rw [handleFrame, ← hf]
  have heng := modify_eq n dst (f := f) Peer.engine fun _ => by rw [hf]
  have hround := modify_eq n dst (f := f) Peer.roundBatch fun _ => by rw [hf]
  have hb : ∀ {t k v L}, Backed codec n.peer t k v L → Backed codec (n.modify dst f).peer t k v L :=
    fun h => h.congr heng (hround _ ▸ h.round)
  refine ⟨fun t => by rw [heng]; exact hi.wf t, fun t op hop => ?_, fun t ops hops op hop => ?_,
    fun t es he k v hv => hb (hi.ack t es he k v hv), fun t k v hv => hb ?_⟩
  · rw [hround] at hop ⊢
    rw [heng]
    exact ⟨(hi.round t op hop).1, hb (hi.round t op hop).2⟩
  · rw [heng]
    exact ⟨(hi.batch t ops hops op hop).1, hb (hi.batch t ops hops op hop).2⟩
  · rcases eq_or_ne t dst with rfl | hts
    · rw [modify_peer_self, hf] at hv
      exact (CrdtWatermark.get_mergeMax hv).elim (hi.ack t entries hm k v) (hi.acked t k v)
    · rw [modify_peer_ne n _ hts] at hv
      exact hi.acked t k v hv

/-- **The invariant is inductive** under actions that meet the condition. -/
theorem GossipInv.exec (hS : Set.InjOn LivePoint.version S) (srt : LogSort)
    (a : Action) (hok : GossipOk codec text S n a) :
    GossipInv codec text S (Net.exec (rateLimitGossip codec srt) text n a) := by
  cases a with
  | put s k v =>
    obtain ⟨hraw, hclock, hpt⟩ := hok
    exact hi.advance (netAdvances_modify hi s (fun e => (e.putLocal codec srt k v).1)
      (advances_putLocal hS srt _ (hi.wf s) hraw hclock hpt))
  | delete s k =>
    exact hi.advance (netAdvances_modify hi s (fun e => (e.deleteLocal codec srt k).1)
      (advances_deleteLocal hS srt _ (hi.wf s) hok))
  | observe s t =>
    exact hi.advance (netAdvances_modify hi s (fun e => { e with clock := max e.clock t })
      (advances_observe _ (hi.wf s) t))
  | thirdParty s ops =>
    obtain ⟨hsound, hp, hcond⟩ := hok
    exact hi.advance (netAdvances_modify hi s (fun e => (e.applyRemoteOps codec srt ops).1)
      (advances_applyRemoteOps hS srt _ (hi.wf s) hsound hp hcond))
  | collect s => exact hi.collect s
  | sendRound s => exact hi.sendRound hok
  | deliver i =>
    rw [Net.exec]
    split
    · rename_i frame hf
      cases frame with
      | crdtBatch dst ops => exact hi.handleBatch hS srt (mem_of_getElem? hf)
      | crdtAck dst entries => exact hi.handleAck (mem_of_getElem? hf)
    · exact hi

end Invariant

/-- **A suppressed operation is one the receiver does not need**, in every run whose actions meet
`GossipOk`: the receiver has a state for the key, and merging the operation's state into it changes
nothing. -/
theorem epochMaxWins_acked_known {codec : ShardCodec} {text : ReplicaText} {srt : LogSort}
    {S : Set LivePoint} (hS : Set.InjOn LivePoint.version S) {ids : Side → ReplicaId}
    {clocks : Side → Timestamp} {n : Net RateLimitEngine}
    (hn : Reaches (Net.exec (rateLimitGossip codec srt) text) (GossipOk codec text S)
      (Net.init fun s => RateLimitEngine.new (ids s) (clocks s)) n)
    {s : Side} {op : Operation} (hop : op ∈ (n.peer s).engine.log)
    (h : (n.peer s).acked.allows op = false) :
    ∀ st ∈ operationState codec op, ∃ cur,
      (n.peer s.other).engine.entries.lookup op.key = some cur ∧ cur.merge st = some cur := by
  have hinv : GossipInv codec text S n := by
    refine hn.invariant ⟨fun s => ?_, nofun, nofun, nofun, nofun⟩ fun m a hm ha =>
      hm.exec hS srt a ha
    exact ⟨soundEntries_new S _ _, nofun, fun _ _ hf => hf.elim⟩
  obtain ⟨v, hv, hle⟩ := CrdtWatermark.exists_of_allows_eq_false h
  have hlog := (hinv.acked s op.key v hv).log
  rw [bot_sup_eq] at hlog
  have hden := (opDen_le_lowOps hop rfl hle).trans hlog
  intro st hst
  rw [opDen, Option.mem_def.mp hst] at hden
  have hsound := ((hinv.wf s).log op hop).sound st hst
  cases hcur : (n.peer s.other).engine.entries.lookup op.key with
  | none =>
    rw [RateLimitEngine.keyDen, hcur] at hden
    exact absurd (le_bot_iff.mp hden) (RateLimitState.den_ne_bot hsound.speaks)
  | some cur =>
    have hc : Sound S cur := (hinv.wf s.other).sound op.key cur hcur
    rw [RateLimitEngine.keyDen, hcur] at hden
    refine ⟨cur, rfl, RateLimitState.merge_eq_self hc.normal ?_ hden⟩
    exact hS.mono fun p hp => hp.elim (hc.fromSet p) (hsound.fromSet p)

def rateLimitStart : Side → RateLimitEngine := fun s => .new (if s = .dialer then 1 else 2) 0

def ackedPutActions : List Action :=
  [.put .dialer "rl:k" (encode ⟨1, ⟨3, by decide⟩⟩), .collect .dialer, .sendRound .dialer,
    .deliver 0, .deliver 1]

/-- After a write was gossiped and acknowledged it is suppressed, and the receiver's state contains
it. -/
theorem epochMaxWins_acked_known_put :
    let n := ackedPutActions.foldl (Net.exec (rateLimitGossip fixintShards .stable) uuidText)
      (Net.init rateLimitStart)
    let op : Operation := .insert "rl:k" (encode ⟨1, ⟨3, by decide⟩⟩) 1 1
    op ∈ (n.peer .dialer).engine.log ∧ (n.peer .dialer).acked.allows op = false ∧
      ∀ st ∈ operationState fixintShards op, ∃ cur,
        (n.peer Side.dialer.other).engine.entries.lookup op.key = some cur ∧
          cur.merge st = some cur := by
  intro n op
  have hS : Set.InjOn LivePoint.version {p | rawPoint op = some p} := by
    intro p hp q hq _
    exact Option.some.inj (hp.symm.trans hq)
  have hstart : Net.init rateLimitStart = Net.init fun s =>
      RateLimitEngine.new ((fun s => if s = .dialer then 1 else 2) s) ((fun _ => 0) s) := rfl
  have hn : Reaches (Net.exec (rateLimitGossip fixintShards .stable) uuidText)
      (GossipOk fixintShards uuidText {p | rawPoint op = some p}) (Net.init rateLimitStart) n := by
    refine reaches_foldl ⟨⟨isRaw_encode _ _ _ _, by decide, fun p hp => hp⟩, trivial, ?_, trivial,
      trivial, trivial⟩
    exact oneFramePerKey_of_injective (by decide +kernel)
  have hlog : op ∈ (n.peer .dialer).engine.log := by decide +kernel
  have hsup : (n.peer .dialer).acked.allows op = false := by decide +kernel
  exact ⟨hlog, hsup, epochMaxWins_acked_known hS (hstart ▸ hn) hlog hsup⟩

/-! ## What is withheld otherwise -/

/-- A newer write is gossiped and acknowledged; then a third party brings an older, larger one. -/
def withheldActions : List Action :=
  [.thirdParty .dialer [.insert "rl:k" (encode ⟨1, ⟨3, by decide⟩⟩) 10 3], .collect .dialer,
    .sendRound .dialer, .deliver 0, .deliver 1,
    .thirdParty .dialer [.insert "rl:k" (encode ⟨1, ⟨9, by decide⟩⟩) 5 4]]

/-- **An older fact is withheld.**  After the run the sender's log holds one operation for the key,
it is suppressed, and merging it would change the receiver's state. -/
theorem epochMaxWins_withheld :
    let n := withheldActions.foldl (Net.exec (rateLimitGossip fixintShards .stable) uuidText)
      (Net.init rateLimitStart)
    ∃ op ∈ (n.peer .dialer).engine.log, (n.peer .dialer).acked.allows op = false ∧
      ∃ st ∈ operationState fixintShards op, ∃ cur,
        (n.peer .acceptor).engine.entries.lookup op.key = some cur ∧ cur.merge st ≠ some cur := by
  decide +kernel

end Smg.Mesh
