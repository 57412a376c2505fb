import Smg.Mesh.LwwRuns
import Smg.Mesh.PeerStream

/-!
# Watermarks never withhold a last-writer-wins write

The gossip protocol of `Smg.Mesh.PeerStream` over last-writer-wins engines.  The engine state the
protocol runs on is a `LwwRun`, the engine together with every operation it was handed, so that
"the receiver has already seen" is a statement about the state.

`lww_acked_seen`: what the sender's watermark suppresses, the receiver has seen an equal or greater
operation for; and with unique operation ids the version it records for the key is at least that
one, so the suppressed operation would have lost.
-/

set_option autoImplicit false

namespace Smg.Mesh

/-- The last-writer-wins engine with its history, as the gossip layer drives it. -/
def lwwHistory (srt : LogSort) : NamespaceCrdtEngine LwwRun where
  putLocal r k v :=
    { r with
      engine := (r.engine.putLocal srt k v).1
      seen := r.seen ++ [r.engine.putOp k v] }
  deleteLocal r k :=
    { r with
      engine := (r.engine.deleteLocal srt k).1
      seen := r.seen ++ [r.engine.deleteOp k] }
  exportOps r := r.engine.log
  applyRemoteOps r ops :=
    { r with
      engine := (r.engine.applyRemoteOps srt ops).1
      seen := r.seen ++ ops }
  observe r t := { r with engine := { r.engine with clock := max r.engine.clock t } }

/-- An operation for `k` at least as new as `v` has been seen. -/
def LwwRun.SeenUpTo (r : LwwRun) (k : String) (v : Version) : Prop :=
  ∃ op ∈ r.seen, op.key = k ∧ v ≤ op.version

theorem LwwRun.SeenUpTo.mono {r r' : LwwRun} {k : String} {v : Version} (h : r.SeenUpTo k v)
    (hs : r.seen ⊆ r'.seen) : r'.SeenUpTo k v := by
  obtain ⟨op, hop, hk, hv⟩ := h
  exact ⟨op, hs hop, hk, hv⟩

theorem lwwHistory_handed (srt : LogSort) : Net.Handed (lwwHistory srt) LwwRun.SeenUpTo where
  putLocal _ _ h := h.mono (List.subset_append_left _ _)
  deleteLocal _ h := h.mono (List.subset_append_left _ _)
  observe _ h := h.mono (List.Subset.refl _)
  applyRemoteOps _ h := h.mono (List.subset_append_left _ _)
  handed hop := ⟨_, List.mem_append_right _ hop, rfl, le_rfl⟩

/-! ## Every engine of a run is in a reachable, quiescent state -/

/-- A state some run of the engine reaches, with no call under way. -/
structure LwwRun.Idle (srt : LogSort) (r : LwwRun) : Prop where
  reachable : ∃ replicaId clock, LwwRun.Reachable srt replicaId clock r
  tasks : r.tasks = []

variable {srt : LogSort}

theorem LwwRun.Idle.steps {r r' : LwwRun} (h : r.Idle srt)
    (hs : Relation.ReflTransGen (LwwRun.Step srt) r r') (ht : r'.tasks = r.tasks) :
    r'.Idle srt := by
  obtain ⟨replicaId, clock, hr⟩ := h.reachable
  exact ⟨⟨replicaId, clock, hr.trans hs⟩, ht.trans h.tasks⟩

theorem lwwHistory_idle {text : ReplicaText} {e : Side → LwwRun} (he : ∀ s, (e s).Idle srt)
    {n : Net LwwRun} (hn : Reaches (Net.exec (lwwHistory srt) text) anyAction (Net.init e) n)
    (s : Side) : (n.peer s).engine.Idle srt := by
  refine Net.engine_of_reaches ?_ ?_ ?_ ?_ he hn s
  · exact fun r k v h => h.steps (.single (.put r k v)) rfl
  · exact fun r k h => h.steps (.single (.delete r k)) rfl
  · exact fun r t h => h.steps (.single (.clock r _ (le_max_left _ _))) rfl
  · exact fun r ops h => h.steps (LwwRun.steps_of_applyRemoteOps srt r ops) rfl

/-- In an idle engine with unique ids, a seen version is recorded. -/
theorem LwwRun.Idle.exists_metadata {r : LwwRun} (h : r.Idle srt) (hu : UniqueIds r.seen)
    {k : String} {v : Version} (hv : r.SeenUpTo k v) :
    ∃ m : ValueMetadata, r.engine.metadata.lookup k = some [m] ∧ v ≤ m.versionKey := by
  obtain ⟨replicaId, clock, hr⟩ := h.reachable
  obtain ⟨op, hop, hk, hle⟩ := hv
  obtain ⟨cur, hh, -, hmax⟩ := (hr.inv hu).holds k
  have hp : op ∉ r.pending := by simp [LwwRun.pending, h.tasks]
  obtain ⟨c, hc, hcv⟩ := (hmax op hop hk).resolve_right hp
  cases Option.mem_def.mp hc
  exact ⟨c.metadata, by rw [hh.metadata]; rfl, by
    rw [Operation.versionKey_metadata]; exact hle.trans hcv⟩

/-- **A suppressed write is one the receiver does not need.**  In every run of two peers exchanging
batches and acks, with local writes, merges from third parties and any loss, duplication and
reordering, whatever operation the sender's watermark suppresses, in particular one of its log, the
receiver has seen an operation for that key with an equal or greater version.  When operation ids
are unique, the version the receiver records for the key is at least the suppressed one. -/
theorem lww_acked_seen {srt : LogSort} {text : ReplicaText} {e : Side → LwwRun}
    (he : ∀ s, (e s).Idle srt) {n : Net LwwRun}
    (hn : Reaches (Net.exec (lwwHistory srt) text) anyAction (Net.init e) n) (s : Side)
    (op : Operation) (h : (n.peer s).acked.allows op = false) :
    (∃ op' ∈ (n.peer s.other).engine.seen, op'.key = op.key ∧ op.version ≤ op'.version) ∧
      (UniqueIds (n.peer s.other).engine.seen →
        ∃ m : ValueMetadata,
          (n.peer s.other).engine.engine.metadata.lookup op.key = some [m] ∧
            op.version ≤ m.versionKey) := by
  obtain ⟨v, hv, hle⟩ := CrdtWatermark.exists_of_allows_eq_false h
  have hseen : (n.peer s.other).engine.SeenUpTo op.key op.version := by
    obtain ⟨op', hop', hk, hv'⟩ := Net.acked_of_handed (lwwHistory_handed srt) hn hv
    exact ⟨op', hop', hk, hle.trans hv'⟩
  exact ⟨hseen, fun hu => (lwwHistory_idle he hn s.other).exists_metadata hu hseen⟩

def lwwStart : Side → LwwRun
  | .dialer => .init 1 0
  | .acceptor => .init 2 0

/-- Put, collect, send, hand over the batch and then its ack. -/
def lwwPutActions : List Action :=
  [.put .dialer "worker:a" [7], .collect .dialer, .sendRound .dialer, .deliver 0, .deliver 1]

/-- After a put was sent and acknowledged, it is in the sender's log and suppressed, and the
receiver has it. -/
theorem lww_acked_seen_put :
    let n := lwwPutActions.foldl (Net.exec (lwwHistory .stable) uuidText) (Net.init lwwStart)
    let op : Operation := .insert "worker:a" [7] 1 1
    op ∈ (n.peer .dialer).engine.engine.log ∧ (n.peer .dialer).acked.allows op = false ∧
      ∃ op' ∈ (n.peer Side.dialer.other).engine.seen,
        op'.key = op.key ∧ op.version ≤ op'.version := by
  intro n op
  have hstart : ∀ s, (lwwStart s).Idle .stable
    | .dialer => ⟨⟨1, 0, .refl⟩, rfl⟩
    | .acceptor => ⟨⟨2, 0, .refl⟩, rfl⟩
  have hn : Reaches (Net.exec (lwwHistory .stable) uuidText) anyAction (Net.init lwwStart) n :=
    reaches_foldl (allOk_anyAction _ _ lwwPutActions)
  have hsup : (n.peer .dialer).acked.allows op = false := by decide +kernel
  exact ⟨by decide +kernel, hsup, (lww_acked_seen hstart hn .dialer op hsup).1⟩

end Smg.Mesh
