import Smg.Lib.Trace
import Smg.Mesh.Watermark

/-!
# Two peers gossiping one namespace

`transport/peer_stream.rs` over a namespace engine.  Each peer has its engine, the operation-log
snapshot of its current round, and the watermark of what the other end has acknowledged.
`sendRound` sends the operations of the snapshot the watermark allows, split into frames;
`handleFrame` merges an incoming batch and acknowledges it, or advances the watermark from an
incoming ack.

The network keeps every frame ever queued and may hand any of them over at any time, any number of
times, or never: loss, duplication and reordering are all choices of the next `Action`.  A frame
dropped on a full channel is one that is never handed over.  Between frames both nodes write
locally, merge batches of third parties and move their shared clocks.

`acked_of_handed` is the rule for what an acknowledgement guarantees: a property of a receiver that
every merge establishes for the operations it is handed, and that nothing takes away, holds for
every version the sender has on record as acked.
-/

set_option autoImplicit false

namespace Smg.Mesh

/-- What a namespace engine with states `σ` offers the gossip layer. -/
structure NamespaceCrdtEngine (σ : Type) where
  putLocal : σ → String → Bytes → σ
  deleteLocal : σ → String → σ
  exportOps : σ → List Operation
  applyRemoteOps : σ → List Operation → σ
  /-- Another engine of the node moves the clock they share to this time, if it is later. -/
  observe : σ → Timestamp → σ

/-- The two ends of a stream. -/
inductive Side where
  | dialer
  | acceptor
  deriving DecidableEq, Repr

def Side.other : Side → Side
  | dialer => acceptor
  | acceptor => dialer

@[simp] theorem Side.other_other (s : Side) : s.other.other = s := by cases s <;> rfl

@[simp] theorem Side.other_ne (s : Side) : s.other ≠ s := by cases s <;> simp [Side.other]

/-- One end's state. -/
structure Peer (σ : Type) where
  engine : σ
  /-- The operation-log snapshot of the current round. -/
  roundBatch : List Operation
  /-- What the other end has acknowledged. -/
  acked : CrdtWatermark

/-- A frame in flight, addressed to one end. -/
inductive Frame where
  | crdtBatch (dst : Side) (ops : List CrdtOp)
  | crdtAck (dst : Side) (entries : List CrdtKeyVersion)
  deriving DecidableEq, Repr

/-- The two peers and every frame queued so far. -/
structure Net (σ : Type) where
  peer : Side → Peer σ
  sent : List Frame

/-- What can happen next. -/
inductive Action where
  | put (s : Side) (key : String) (value : Bytes)
  | delete (s : Side) (key : String)
  | observe (s : Side) (t : Timestamp)
  /-- A batch of some other peer is merged. -/
  | thirdParty (s : Side) (ops : List Operation)
  /-- A new round: the log is snapshot. -/
  | collect (s : Side)
  | sendRound (s : Side)
  /-- The `i`th frame ever queued is handed over. -/
  | deliver (i : Nat)

namespace Net

variable {σ : Type}

def modify (n : Net σ) (s : Side) (f : Peer σ → Peer σ) : Net σ :=
  { n with peer := Function.update n.peer s (f (n.peer s)) }

@[simp] theorem modify_peer_self (n : Net σ) (s : Side) (f : Peer σ → Peer σ) :
    (n.modify s f).peer s = f (n.peer s) := by
  simp [modify]

theorem modify_peer_ne (n : Net σ) {s t : Side} (f : Peer σ → Peer σ) (h : t ≠ s) :
    (n.modify s f).peer t = n.peer t := by
  simp [modify, h]

variable (E : NamespaceCrdtEngine σ) (text : ReplicaText)

/-- Two fresh connections between engines in these states. -/
def init (e : Side → σ) : Net σ where
  peer s := ⟨e s, [], .new⟩
  sent := []

def roundOps (p : Peer σ) : List Operation := p.roundBatch.filter fun op => p.acked.allows op

/-- One tick of the sender at `s`. -/
def sendRound (n : Net σ) (s : Side) : Net σ :=
  { n with
    sent := n.sent ++
      (buildCrdtBatches text (roundOps (n.peer s)) maxStreamChunkBytes).map
        (Frame.crdtBatch s.other) }

/-- Merge a received batch and build the ack for it. -/
def dispatchCrdtBatch (e : σ) (batch : List CrdtOp) : σ × CrdtWatermark :=
  let ops := batch.filterMap (protoToOp text)
  if ops.isEmpty then (e, .new) else (E.applyRemoteOps e ops, .fromOps ops)

def handleFrame (n : Net σ) : Frame → Net σ
  | .crdtBatch dst ops =>
    let (e, ack) := dispatchCrdtBatch E text (n.peer dst).engine ops
    let n := n.modify dst fun p => { p with engine := e }
    if ack.isEmpty then n
    else { n with sent := n.sent ++ [.crdtAck dst.other (watermarkToCrdtAck text ack)] }
  | .crdtAck dst entries =>
    n.modify dst fun p => { p with acked := p.acked.mergeMax (crdtAckToWatermark text entries) }

def exec (n : Net σ) : Action → Net σ
  | .put s k v => n.modify s fun p => { p with engine := E.putLocal p.engine k v }
  | .delete s k => n.modify s fun p => { p with engine := E.deleteLocal p.engine k }
  | .observe s t => n.modify s fun p => { p with engine := E.observe p.engine t }
  | .thirdParty s ops => n.modify s fun p => { p with engine := E.applyRemoteOps p.engine ops }
  | .collect s => n.modify s fun p => { p with roundBatch := E.exportOps p.engine }
  | .sendRound s => sendRound text n s
  | .deliver i =>
    match n.sent[i]? with
    | some frame => handleFrame E text n frame
    | none => n

/-! ## Frames and engines

The protocol touches an engine only through the engine's own calls. -/

section Engine

variable {E text} {Q : σ → Prop}

theorem engine_modify {n : Net σ} (h : ∀ t, Q (n.peer t).engine) (s : Side) (f : σ → σ)
    (hf : Q (n.peer s).engine → Q (f (n.peer s).engine)) (t : Side) :
    Q ((n.modify s fun p => { p with engine := f p.engine }).peer t).engine := by
  by_cases hts : t = s
  · subst hts
    rw [modify_peer_self]
    exact hf (h t)
  · rw [modify_peer_ne n _ hts]
    exact h t

/-- What a change leaves alone of an end. -/
theorem modify_eq {β : Type} (n : Net σ) (s : Side) {f : Peer σ → Peer σ} (g : Peer σ → β)
    (hf : ∀ p, g (f p) = g p) (t : Side) : g ((n.modify s f).peer t) = g (n.peer t) := by
  by_cases hts : t = s
  · subst hts
    rw [modify_peer_self, hf]
  · rw [modify_peer_ne n _ hts]

/-- What the engine's calls preserve, every run preserves at both ends. -/
theorem engine_of_reaches (hput : ∀ e k v, Q e → Q (E.putLocal e k v))
    (hdel : ∀ e k, Q e → Q (E.deleteLocal e k)) (hobs : ∀ e t, Q e → Q (E.observe e t))
    (hmerge : ∀ e ops, Q e → Q (E.applyRemoteOps e ops)) {e : Side → σ} (he : ∀ s, Q (e s))
    {n : Net σ} {ok : Net σ → Action → Prop} (hn : Reaches (Net.exec E text) ok (init e) n)
    (s : Side) : Q (n.peer s).engine := by
  refine hn.invariant (I := fun n => ∀ s, Q (n.peer s).engine) he (fun n a h _ => ?_) s
  cases a with
  | put s k v => exact engine_modify h s (fun e => E.putLocal e k v) (hput _ k v)
  | delete s k => exact engine_modify h s (fun e => E.deleteLocal e k) (hdel _ k)
  | observe s t => exact engine_modify h s (fun e => E.observe e t) (hobs _ t)
  | thirdParty s ops => exact engine_modify h s (fun e => E.applyRemoteOps e ops) (hmerge _ ops)
  | collect s =>
    intro t
    rw [exec, modify_eq n s Peer.engine]
    · exact h t
    · exact fun _ => rfl
  | sendRound s => exact h
  | deliver i =>
    rw [exec]
    split
    · rename_i frame _
      cases frame with
      | crdtBatch dst ops =>
        have hq := engine_modify h dst
          (fun _ => (dispatchCrdtBatch E text (n.peer dst).engine ops).1) fun hd => by
            rw [dispatchCrdtBatch]
            split
            · exact hd
            · exact hmerge _ _ hd
        rw [handleFrame]
        dsimp only
        split
        · exact hq
        · exact hq
      | crdtAck dst entries =>
        intro t
        rw [handleFrame, modify_eq n dst Peer.engine]
        · exact h t
        · exact fun _ => rfl
    · exact h

end Engine

/-! ## What an acknowledgement guarantees -/

/-- A property of an engine state, a key and a version that a merge establishes for every operation
it is handed and that no call takes away. -/
structure Handed (P : σ → String → Version → Prop) : Prop where
  putLocal : ∀ {e k v} (k' : String) (b : Bytes), P e k v → P (E.putLocal e k' b) k v
  deleteLocal : ∀ {e k v} (k' : String), P e k v → P (E.deleteLocal e k') k v
  observe : ∀ {e k v} (t : Timestamp), P e k v → P (E.observe e t) k v
  applyRemoteOps : ∀ {e k v} (ops : List Operation), P e k v → P (E.applyRemoteOps e ops) k v
  handed : ∀ {e : σ} {ops : List Operation} {op : Operation}, op ∈ ops →
    P (E.applyRemoteOps e ops) op.key op.version

/-- Everything acknowledged to `s`, on record or in flight, holds at the other end. -/
structure AckInv (P : σ → String → Version → Prop) (n : Net σ) : Prop where
  acked : ∀ {s : Side} {k : String} {v : Version}, (n.peer s).acked.get k = some v →
    P (n.peer s.other).engine k v
  sent : ∀ {s : Side} {entries : List CrdtKeyVersion}, .crdtAck s entries ∈ n.sent →
    ∀ {k : String} {v : Version}, (crdtAckToWatermark text entries).get k = some v →
    P (n.peer s.other).engine k v

variable {E text} {P : σ → String → Version → Prop}

variable {n : Net σ}

section

variable (h : AckInv text P n)

include h

/-- A change of one engine that keeps `P` keeps the invariant. -/
theorem AckInv.modify_engine (s : Side) (f : σ → σ)
    (hf : ∀ {k v}, P (n.peer s).engine k v → P (f (n.peer s).engine) k v) :
    AckInv text P (n.modify s fun p => { p with engine := f p.engine }) := by
  have hkeep : ∀ {t k v}, P (n.peer t).engine k v →
      P ((n.modify s fun p => { p with engine := f p.engine }).peer t).engine k v := by
    intro t k v hp
    by_cases hts : t = s
    · subst hts
      simpa using hf hp
    · rwa [modify_peer_ne n _ hts]
  refine ⟨fun {t k v} hg => hkeep (h.acked ?_),
    fun {t entries} hm {k v} hg => hkeep (h.sent hm hg)⟩
  rwa [modify_eq n s Peer.acked] at hg
  exact fun _ => rfl

theorem AckInv.sendRound (s : Side) : AckInv text P (sendRound text n s) := by
  refine ⟨h.acked, fun {t entries} hm => h.sent ?_⟩
  rcases List.mem_append.mp hm with hm | hm
  · exact hm
  · obtain ⟨batch, _, hb⟩ := List.mem_map.mp hm
    cases hb

/-- Handing over a batch acknowledges only what the merge has just established. -/
theorem AckInv.handleBatch (hE : Handed E P) (dst : Side) (batch : List CrdtOp) :
    AckInv text P (handleFrame E text n (.crdtBatch dst batch)) := by
  rw [handleFrame, dispatchCrdtBatch]
  by_cases hempty : (batch.filterMap (protoToOp text)).isEmpty
  · simpa [hempty, CrdtWatermark.new, CrdtWatermark.isEmpty] using
      h.modify_engine dst (fun _ => (n.peer dst).engine) (fun hp => hp)
  · rw [if_neg hempty]
    have hmod := h.modify_engine dst
      (fun e => E.applyRemoteOps e (batch.filterMap (protoToOp text)))
      (hE.applyRemoteOps _)
    dsimp only
    split
    · exact hmod
    · refine ⟨hmod.acked, fun {t entries} hm {k v} hg => ?_⟩
      rcases List.mem_append.mp hm with hm | hm
      · exact hmod.sent hm hg
      · cases List.mem_singleton.mp hm
        obtain ⟨op, hop, rfl, rfl⟩ :=
          CrdtWatermark.mem_fromOps (crdtAckToWatermark_watermarkToCrdtAck hg)
        simpa using hE.handed hop

theorem AckInv.handleAck {dst : Side} {entries : List CrdtKeyVersion}
    (hm : .crdtAck dst entries ∈ n.sent) :
    AckInv text P (handleFrame E text n (.crdtAck dst entries)) := by
  rw [handleFrame]
  have heng := modify_eq n dst (f := fun p => { p with
    acked := p.acked.mergeMax (crdtAckToWatermark text entries) }) Peer.engine fun _ => rfl
  refine ⟨fun {t k v} hg => ?_, fun {t es} hm' {k v} hg => ?_⟩
  · rw [heng]
    by_cases hts : t = dst
    · subst hts
      rw [modify_peer_self] at hg
      exact (CrdtWatermark.get_mergeMax hg).elim (h.sent hm) h.acked
    · rw [modify_peer_ne n _ hts] at hg
      exact h.acked hg
  · rw [heng]
    exact h.sent hm' hg

theorem AckInv.exec (hE : Handed E P) (a : Action) : AckInv text P (exec E text n a) := by
  cases a with
  | put s k v => exact h.modify_engine s (fun e => E.putLocal e k v) (hE.putLocal k v)
  | delete s k => exact h.modify_engine s (fun e => E.deleteLocal e k) (hE.deleteLocal k)
  | observe s t => exact h.modify_engine s (fun e => E.observe e t) (hE.observe t)
  | thirdParty s ops =>
    exact h.modify_engine s (fun e => E.applyRemoteOps e ops) (hE.applyRemoteOps ops)
  | collect s =>
    have heng := modify_eq n s (f := fun p => { p with
      roundBatch := E.exportOps p.engine }) Peer.engine fun _ => rfl
    have hacked := modify_eq n s (f := fun p => { p with
      roundBatch := E.exportOps p.engine }) Peer.acked fun _ => rfl
    refine ⟨fun {t k v} hg => ?_, fun {t entries} hm {k v} hg => ?_⟩
    · rw [Net.exec, heng]
      rw [Net.exec, hacked] at hg
      exact h.acked hg
    · rw [Net.exec, heng]
      exact h.sent hm hg
  | sendRound s => exact h.sendRound s
  | deliver i =>
    rw [Net.exec]
    split
    · rename_i frame hf
      cases frame with
      | crdtBatch dst batch => exact h.handleBatch hE dst batch
      | crdtAck dst entries => exact h.handleAck (List.mem_of_getElem? hf)
    · exact h

end

/-- **What an acknowledgement guarantees.**  In every state of every run, a version the sender has
on record as acked is one the other end was handed. -/
theorem acked_of_handed (hE : Handed E P) {e : Side → σ}
    (hn : Reaches (Net.exec E text) anyAction (init e) n) {s : Side} {k : String} {v : Version}
    (h : (n.peer s).acked.get k = some v) : P (n.peer s.other).engine k v := by
  have hinv : AckInv text P n := by
    refine hn.invariant ⟨?_, ?_⟩ fun m a hm _ => hm.exec hE a
    · intro s k v hg
      simp [init] at hg
    · intro s entries hm
      simp [init] at hm
  exact hinv.acked h

end Net

end Smg.Mesh
