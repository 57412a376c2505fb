import Smg.Mesh.RateLimit

/-!
# Convergence of the rate-limit engine

Raw operations, inserts of application payloads and removes, reach an engine in any order, any
batching and any number of times, and some of them only as part of compacted operations that carry
the merged state of many.  `Derived` says which operations can be in circulation: raw ones, and what
`compactOperations` makes of operations in circulation.

`epochMaxWins_convergence`: the state of a key is the fold of the raw operations that reached the
engine, however many points its frontier has.
-/

set_option autoImplicit false

namespace Smg.Mesh

open RateLimitState LivePoint List RateLimitEngine
open Prod (fst snd)

/-! ## Raw operations -/

variable {raw : List Operation} {op : Operation} {p : LivePoint}

section Raw

variable (codec : ShardCodec)

/-- The operation is a remove, or its value is not itself a serialised shard. -/
def Operation.IsRaw : Operation → Prop
  | .insert _ v _ _ => decodeShard codec v = none
  | .remove _ _ _ => True

/-- The point a raw insert writes, `none` for a malformed payload. -/
def rawPoint : Operation → Option LivePoint
  | .insert _ v t r => (decodeRawEpochCount v).map fun v => ⟨v, ⟨t, r⟩⟩
  | .remove _ _ _ => none

def rawPoints (raw : List Operation) : Set LivePoint := {p | ∃ op ∈ raw, rawPoint op = some p}

def rawFacts (op : Operation) : List (Fact Version EpochCount) :=
  match op with
  | .insert _ _ _ _ => (rawPoint op).toList.map LivePoint.fact
  | .remove _ t r => [.tomb ⟨t, r⟩]

variable {codec}

theorem version_of_rawPoint (h : rawPoint op = some p) : p.version = op.version := by
  cases op with
  | insert k v t r =>
    obtain ⟨v, -, rfl⟩ := Option.map_eq_some_iff.mp h
    rfl
  | remove k t r => cases h

/-- A version stands for one point. -/
theorem injOn_rawPoints (hu : UniqueIds raw) : Set.InjOn version (rawPoints raw) := by
  rintro p ⟨op, hop, hp⟩ q ⟨op', hop', hq⟩ hv
  have hver : op.version = op'.version := by
    rw [← version_of_rawPoint hp, ← version_of_rawPoint hq, hv]
  rw [hu op hop op' hop' hver] at hp
  exact Option.some.inj (hp.symm.trans hq)

theorem operationState_insert_of_isRaw {k : String} {v : Bytes} {t : Timestamp} {r : ReplicaId}
    (h : (Operation.insert k v t r).IsRaw codec) :
    operationState codec (.insert k v t r) =
      (rawPoint (.insert k v t r)).map fun p => .live (.fromLivePoint p) := by
  have hd : decodeShard codec v = none := h
  rw [operationState, stateFromInsertValue, hd, rawPoint, Option.map_map]
  rfl

theorem opDen_of_isRaw (h : op.IsRaw codec) : opDen codec op = Fact.knows (rawFacts op) := by
  cases op with
  | insert k v t r =>
    rw [opDen, operationState_insert_of_isRaw h, rawFacts]
    cases rawPoint (.insert k v t r) with
    | none => exact Fact.knows_nil.symm
    | some p => rfl
  | remove k t r => rfl

theorem soundOps_of_isRaw (h : ∀ op ∈ raw, op.IsRaw codec) :
    SoundOps codec (rawPoints raw) raw := by
  intro op hop s hs
  refine ⟨?_, fun p hp => ⟨op, hop, ?_⟩, facts_ne_nil_of_operationState hs⟩
  all_goals
    cases op with
    | insert k v t r =>
      rw [operationState_insert_of_isRaw (h _ hop)] at hs
      obtain ⟨q, hq, rfl⟩ := Option.map_eq_some_iff.mp hs
      first
        | exact normal_fromLivePoint q
        | rw [hq, mem_singleton.mp hp]
    | remove k t r =>
      cases hs
      first
        | exact normal_tombstone _
        | simp [livePoints] at hp

theorem decodeShard_of_length_lt {bytes : Bytes} (h : bytes.length < 57) :
    decodeShard codec bytes = none := by
  cases hd : decodeShard codec bytes with
  | none => rfl
  | some s =>
    have hne := length_pos_of_ne_nil (livePoints_ne_nil_of_decodeShard hd)
    rw [decodeShard, Option.filter_eq_some_iff] at hd
    have hle := (codec.of_deserialize _ _ _ hd.1).length_le
    have hlt := codec.lt_length_serialize s
    omega

theorem isRaw_encode (k : String) (v : EpochCount) (t : Timestamp) (r : ReplicaId) :
    (Operation.insert k (encode v) t r).IsRaw codec :=
  decodeShard_of_length_lt (by simp [encode])

end Raw

def Operation.isRemove : Operation → Bool
  | .insert _ _ _ _ => false
  | .remove _ _ _ => true

/-! ## Operations in circulation -/

/-- `Derived codec raw w cover`: the operation `w` can be in circulation, and stands for the raw
operations `cover`.  It is one of `raw`, or what `compactOperations` made of operations in
circulation for one key. -/
inductive Derived (codec : ShardCodec) (raw : List Operation) : Operation → List Operation → Prop
  | raw {op : Operation} (h : op ∈ raw) : Derived codec raw op [op]
  | compact {parts : List (Operation × List Operation)} {w : Operation} (k : String)
      (hparts : ∀ p ∈ parts, Derived codec raw p.1 p.2) (hkey : ∀ p ∈ parts, p.1.key = k)
      (hw : compactOperations codec (parts.map fst) = some w) :
      Derived codec raw w (parts.flatMap snd)

section Derived

variable {codec : ShardCodec} {raw : List Operation}

/-- What an operation in circulation stands for: raw operations of its key, whose meaning it has. -/
structure StandsFor (codec : ShardCodec) (raw : List Operation) (w : Operation)
    (cover : List Operation) : Prop where
  subset : cover ⊆ raw
  key : ∀ op ∈ cover, op.key = w.key
  sound : ∀ s ∈ operationState codec w, Sound (rawPoints raw) s
  opDen_eq : opDen codec w = opsDen codec cover

theorem opsDen_parts {parts : List (Operation × List Operation)}
    (h : ∀ p ∈ parts, opDen codec p.1 = opsDen codec p.2) :
    opsDen codec (parts.map fst) = opsDen codec (parts.flatMap snd) := by
  induction parts with
  | nil => rfl
  | cons p parts ih =>
    rw [map_cons, opsDen_cons, flatMap_cons, opsDen_append,
      h p mem_cons_self, ih fun q hq => h q (mem_cons_of_mem _ hq)]

/-- **Operations in circulation mean what they stand for.** -/
theorem Derived.standsFor (hu : UniqueIds raw) (hraw : ∀ op ∈ raw, op.IsRaw codec) {w : Operation}
    {cover : List Operation} (h : Derived codec raw w cover) :
    StandsFor codec raw w cover := by
  induction h with
  | @raw op hop =>
    exact ⟨by simpa using hop, by simp, soundOps_of_isRaw hraw op hop, by simp⟩
  | @compact parts w k _ hkey hw ih =>
    have hS := injOn_rawPoints hu
    have hsub : ∀ op ∈ parts.flatMap snd, op ∈ raw :=
      forall_mem_flatMap.mpr fun p hp op hop => (ih p hp).subset hop
    have hsoundParts : SoundOps codec (rawPoints raw) (parts.map fst) :=
      forall_mem_map.mpr fun p hp => (ih p hp).sound
    obtain ⟨s, op, hs, hsound, hop, hinto⟩ :=
      exists_foldState_of_compactOperations hS hsoundParts hw
    obtain ⟨hwkey, hstate⟩ := operationState_intoOperation hsound hinto
    have hopkey : op.key = k := by
      obtain ⟨p, hp, rfl⟩ := mem_map.mp hop
      exact hkey p hp
    refine ⟨hsub, fun o ho => ?_, ?_, ?_⟩
    · obtain ⟨p, hp, ho⟩ := mem_flatMap.mp ho
      rw [(ih p hp).key o ho, hkey p hp, hwkey, hopkey]
    · rintro t ht
      rw [hstate] at ht
      cases ht
      exact hsound
    · have hden := (foldState_spec hS hsoundParts).2
      rw [hs, denOf_some] at hden
      rw [opDen, hstate, denOf_some, hden, opsDen_parts fun p hp => (ih p hp).opDen_eq]

end Derived

/-! ## Convergence -/

def RateLimitEngine.deliver (codec : ShardCodec) (srt : LogSort) (e : RateLimitEngine)
    (batches : List (List Operation)) : RateLimitEngine :=
  batches.foldl (fun e ops => (e.applyRemoteOps codec srt ops).1) e

variable {codec : ShardCodec}

theorem RateLimitEngine.keyDen_deliver {S : Set LivePoint} (hS : Set.InjOn version S)
    (srt : LogSort) {batches : List (List Operation)} (hops : ∀ ops ∈ batches, SoundOps codec S ops)
    {e : RateLimitEngine} (he : e.SoundEntries S) :
    (e.deliver codec srt batches).SoundEntries S ∧
      ∀ k, (e.deliver codec srt batches).keyDen k =
        e.keyDen k ⊔ opsDen codec (forKey k batches.flatten) := by
  induction batches generalizing e with
  | nil => exact ⟨he, fun k => by simp [deliver, forKey]⟩
  | cons ops batches ih =>
    obtain ⟨hs, hd⟩ := keyDen_applyRemoteOps hS (hops ops mem_cons_self) srt he
    obtain ⟨hs', hd'⟩ := ih (fun o ho => hops o (mem_cons_of_mem _ ho)) hs
    refine ⟨hs', fun k => ?_⟩
    have hsplit : forKey k (ops :: batches).flatten = forKey k ops ++ forKey k batches.flatten := by
      simp [forKey]
    rw [hsplit, opsDen_append, ← sup_assoc, ← hd k]
    exact hd' k

/-- **Convergence of the rate-limit engine.**  Let raw operations with unique versions reach an
engine in any order, batching and repetition, raw or inside compacted operations.  Then the state of
a key is the fold of the raw operations for it that reached the engine, arranged in any way; and no
insert comes back from behind a remove. -/
theorem epochMaxWins_convergence {codec : ShardCodec} {raw : List Operation} (hu : UniqueIds raw)
    (hraw : ∀ op ∈ raw, op.IsRaw codec) (srt : LogSort) (replicaId : ReplicaId) (clock : Timestamp)
    {batches : List (List (Operation × List Operation))}
    (h : ∀ b ∈ batches, ∀ p ∈ b, Derived codec raw p.1 p.2) (k : String)
    {ops : List Operation}
    (hops : ∀ op, op ∈ ops ↔ op.key = k ∧ ∃ b ∈ batches, ∃ p ∈ b, op ∈ p.2) :
    let e := (RateLimitEngine.new replicaId clock).deliver codec srt
      (batches.map fun b => b.map fst)
    e.entries.lookup k = foldState codec ops ∧
      ∀ rem ∈ ops, rem.isRemove = true → ∀ s ∈ e.entries.lookup k, ∀ p ∈ s.livePoints,
        rem.version < p.version := by
  intro e
  have hS := injOn_rawPoints hu
  have hst : ∀ b ∈ batches, ∀ p ∈ b, StandsFor codec raw p.1 p.2 := fun b hb p hp =>
    (h b hb p hp).standsFor hu hraw
  have hsound : ∀ l ∈ batches.map fun b => b.map fst, SoundOps codec (rawPoints raw) l := by
    intro l hl op hop
    obtain ⟨b, hb, rfl⟩ := mem_map.mp hl
    obtain ⟨p, hp, rfl⟩ := mem_map.mp hop
    exact (hst b hb p hp).sound
  obtain ⟨hentries, hkey⟩ := keyDen_deliver hS srt hsound
    (soundEntries_new (rawPoints raw) replicaId clock)
  have hsubset : ∀ op ∈ ops, op ∈ raw := by
    intro op hop
    obtain ⟨-, b, hb, p, hp, hop⟩ := (hops op).mp hop
    exact (hst b hb p hp).subset hop
  have hopsSound : SoundOps codec (rawPoints raw) ops := fun op hop =>
    soundOps_of_isRaw hraw op (hsubset op hop)
  obtain ⟨hfsound, hfden⟩ := foldState_spec hS hopsSound
  have hden : e.keyDen k = opsDen codec ops := by
    rw [hkey k, keyDen_new, bot_sup_eq]
    refine le_antisymm (opsDen_le fun w hw => ?_) (opsDen_le fun op hop => ?_)
    · rw [mem_forKey, mem_flatten] at hw
      obtain ⟨⟨l, hl, hw⟩, hwk⟩ := hw
      obtain ⟨b, hb, rfl⟩ := mem_map.mp hl
      obtain ⟨p, hp, rfl⟩ := mem_map.mp hw
      rw [(hst b hb p hp).opDen_eq]
      refine opsDen_mono fun op hop => (hops op).mpr ⟨?_, b, hb, p, hp, hop⟩
      rw [(hst b hb p hp).key op hop, hwk]
    · obtain ⟨hk, b, hb, p, hp, hop⟩ := (hops op).mp hop
      have hp1 : p.1 ∈ forKey k (batches.map fun b => b.map fst).flatten := by
        rw [mem_forKey, mem_flatten]
        refine ⟨⟨_, mem_map_of_mem hb, mem_map_of_mem hp⟩, ?_⟩
        rw [← (hst b hb p hp).key op hop, hk]
      calc opDen codec op ≤ opsDen codec p.2 := opDen_le_opsDen hop
        _ = opDen codec p.1 := ((hst b hb p hp).opDen_eq).symm
        _ ≤ _ := opDen_le_opsDen hp1
  have hstate : e.entries.lookup k = foldState codec ops :=
    eq_of_denOf_eq (hentries k) hfsound (by rw [hfden, ← hden]; rfl)
  refine ⟨hstate, fun rem hrem hisrem s hs p hp => ?_⟩
  have hsden : s.den = opsDen codec ops := by
    rw [← hfden, ← hstate, Option.mem_def.mp hs]
    rfl
  have htomb : Fact.tomb rem.version ∈ s.den := by
    rw [hsden]
    refine opDen_le_opsDen hrem ?_
    rw [opDen_of_isRaw (hraw rem (hsubset rem hrem))]
    refine Fact.mem_knows.mpr ⟨.tomb rem.version, ?_, le_rfl⟩
    cases rem with
    | insert k v t r => cases hisrem
    | remove k t r => simp [rawFacts]
  obtain ⟨g, hg, hle⟩ := htomb
  rcases RateLimitState.mem_facts.mp hg with ⟨q, -, rfl⟩ | ⟨v, hv, rfl⟩
  · exact absurd hle Fact.not_tomb_le_point
  · exact lt_of_le_of_lt hle ((hentries k s hs).normal.alive p hp v hv)

/-- Two inserts arrive compacted, then a remove of the first together with the first again. -/
theorem epochMaxWins_convergence_compacted :
    let a : Operation := .insert "rl:k" (encode ⟨1, ⟨9, by decide⟩⟩) 3 1
    let b : Operation := .insert "rl:k" (encode ⟨1, ⟨4, by decide⟩⟩) 5 1
    let d : Operation := .remove "rl:k" 4 2
    ∃ w, compactOperations fixintShards [a, b] = some w ∧
      ((new 2 0).deliver fixintShards .stable [[w], [d, a]]).entries.lookup "rl:k" =
        foldState fixintShards [a, b, d] := by
  intro a b d
  have hsome : (compactOperations fixintShards [a, b]).isSome = true := by decide +kernel
  obtain ⟨w, hw⟩ := Option.isSome_iff_exists.mp hsome
  refine ⟨w, hw, ?_⟩
  have hu : UniqueIds [a, b, d] := by decide
  have hraw : ∀ op ∈ [a, b, d], op.IsRaw fixintShards := by
    simp only [forall_mem_cons]
    exact ⟨isRaw_encode _ _ _ _, isRaw_encode _ _ _ _, trivial, by simp⟩
  have hderived : Derived fixintShards [a, b, d] w [a, b] := by
    have hparts : ∀ p ∈ [(a, [a]), (b, [b])],
        Derived fixintShards [a, b, d] p.1 p.2 := by
      simp only [forall_mem_cons]
      exact ⟨.raw (by simp), .raw (by simp), by simp⟩
    exact Derived.compact "rl:k" hparts (by simp [a, b]) hw
  have hbatches : ∀ l ∈ [[(w, [a, b])], [(d, [d]), (a, [a])]], ∀ p ∈ l,
      Derived fixintShards [a, b, d] p.1 p.2 := by
    simp only [forall_mem_cons]
    exact ⟨⟨hderived, by simp⟩, ⟨.raw (by simp), .raw (by simp), by simp⟩, by simp⟩
  refine (epochMaxWins_convergence hu hraw .stable 2 0 hbatches "rl:k" ?_).1
  · intro op
    simp only [mem_cons, not_mem_nil, or_false, exists_eq_or_imp, exists_eq_left]
    constructor
    · rintro (rfl | rfl | rfl) <;> simp [a, b, d]
    · rintro ⟨-, h⟩
      tauto

end Smg.Mesh
