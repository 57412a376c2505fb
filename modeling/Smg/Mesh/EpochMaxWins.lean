import Smg.Lib.Codec
import Smg.Lib.Frontier
import Smg.Mesh.Operation

/-!
# Rate-limit shards

`crdt_kv/epoch_max_wins.rs`.  The state of a rate-limit key is either live, a frontier of points
(value and version) with the newest tombstone it has survived, or a tombstone.  `merge` joins two
states, `compactOperations` folds the operations of a key into one that carries the merged state.

Shards are serialised by a third-party crate, a parameter here: `ShardCodec` gives its documented
behaviour, fixed-width integers and trailing bytes allowed.  `decodeShard` hands the crate a byte
limit, but the crate sets limits aside when it reads from memory, so no law depends on it: shards of
any size are read back.

What states mean and what merging does to the meaning is in `Smg.Mesh.EpochMaxWinsMerge`.
-/

set_option autoImplicit false

namespace Smg.Mesh

open List

/-! ## Values -/

/-- A signed 64-bit count. -/
@[ext]
structure Count where
  val : Int
  inRange : -2 ^ 63 ≤ val ∧ val < 2 ^ 63
  deriving DecidableEq

namespace Count

theorem val_injective : Function.Injective val := fun _ _ h => Count.ext h

instance : LinearOrder Count := @LinearOrder.lift' Count Int Int.instLinearOrder val val_injective

theorem lt_def {a b : Count} : a < b ↔ a.val < b.val := .rfl

end Count

/-- The application's value: an epoch and a count within it. -/
@[ext]
structure EpochCount where
  epoch : Fin (2 ^ 64)
  count : Count
  deriving DecidableEq

namespace EpochCount

def toPair (v : EpochCount) : Fin (2 ^ 64) ×ₗ Count := toLex (v.epoch, v.count)

theorem toPair_injective : Function.Injective toPair := by
  intro a b h
  have h' := Prod.ext_iff.mp (toLex_inj.mp h)
  exact EpochCount.ext h'.1 h'.2

instance : LinearOrder EpochCount := LinearOrder.lift' toPair toPair_injective

theorem lt_def {a b : EpochCount} :
    a < b ↔ a.epoch < b.epoch ∨ a.epoch = b.epoch ∧ a.count < b.count :=
  Prod.Lex.toLex_lt_toLex

end EpochCount

/-- Which of two values is greater. -/
inductive ValueWinner where
  | localValue
  | remoteValue
  | equal
  deriving DecidableEq, Repr

def compareEpochCount (localValue remoteValue : EpochCount) : ValueWinner :=
  match cmp localValue.epoch remoteValue.epoch with
  | .gt => .localValue
  | .lt => .remoteValue
  | .eq =>
    match cmp localValue.count remoteValue.count with
    | .gt => .localValue
    | .lt => .remoteValue
    | .eq => .equal

theorem compareEpochCount_iff {a b : EpochCount} :
    (compareEpochCount a b = .localValue ↔ b < a) ∧
      (compareEpochCount a b = .remoteValue ↔ a < b) := by
  rw [compareEpochCount, EpochCount.lt_def, EpochCount.lt_def]
  cases he : cmp a.epoch b.epoch with
  | gt => rw [cmp_eq_gt_iff] at he; simp [he, he.not_gt, he.ne']
  | lt => rw [cmp_eq_lt_iff] at he; simp [he, he.not_gt, he.ne']
  | eq =>
    rw [cmp_eq_eq_iff] at he
    cases hc : cmp a.count b.count with
    | gt => rw [cmp_eq_gt_iff] at hc; simp [he, hc, hc.not_gt]
    | lt => rw [cmp_eq_lt_iff] at hc; simp [he, hc, hc.not_gt]
    | eq => rw [cmp_eq_eq_iff] at hc; simp [he, hc]

/-! ## Shards and states -/

/-- A value that has not been deleted, with the version it was written at. -/
@[ext]
structure LivePoint where
  value : EpochCount
  version : Version
  deriving DecidableEq

/-- A live key: its frontier and the newest tombstone it has survived. -/
structure RateLimitShard where
  livePoints : List LivePoint
  tombstoneVersion : Option Version
  deriving DecidableEq

/-- The state of a rate-limit key. -/
inductive RateLimitState where
  | live (shard : RateLimitShard)
  | tombstone (version : Version)
  deriving DecidableEq

/-- The greater of two optional versions, `none` being the least. -/
def maxVersion : Option Version → Option Version → Option Version
  | some a, some b => some (max a b)
  | some a, none => some a
  | none, b => b

namespace RateLimitShard

def fromLivePoint (point : LivePoint) : RateLimitShard := ⟨[point], none⟩

/-- The greatest value, the first such one on ties. -/
def currentValue (s : RateLimitShard) : Option EpochCount :=
  match s.livePoints.map (·.value) with
  | [] => none
  | v :: vs =>
    some (vs.foldl (fun current candidate =>
      match compareEpochCount current candidate with
      | .remoteValue => candidate
      | _ => current) v)

def newestLiveVersion (s : RateLimitShard) : Option Version :=
  (s.livePoints.map (·.version)).max?

def survives (tombstone : Option Version) (p : LivePoint) : Bool :=
  match tombstone with
  | none => true
  | some t => decide (t < p.version)

/-- The sweep of `merged`: keep the points better than every newer one. -/
def frontierFrom (suffixBest : Option EpochCount) : List LivePoint → List LivePoint
  | [] => []
  | point :: points =>
    let keep : Bool :=
      match suffixBest with
      | none => true
      | some best => compareEpochCount point.value best == .localValue
    if keep then
      let best :=
        match suffixBest with
        | some best =>
          match compareEpochCount best point.value with
          | .remoteValue => point.value
          | _ => best
        | none => point.value
      point :: frontierFrom (some best) points
    else frontierFrom suffixBest points

/-- The shard of these points under that tombstone, `none` when no point survives it. -/
def merged (points : List LivePoint) (tombstone : Option Version) : Option RateLimitShard :=
  let points := points.filter (survives tombstone)
  if points.isEmpty then none
  else
    some ⟨sortByKey (·.version) (frontierFrom none
      (sortByKey (fun p : LivePoint => OrderDual.toDual p.version) points)), tombstone⟩

def livePointsAfterTombstone (s : RateLimitShard) (tombstone : Option Version) : List LivePoint :=
  s.livePoints.filter (survives tombstone)

end RateLimitShard

namespace RateLimitState

def tombstoneVersion : RateLimitState → Option Version
  | live s => s.tombstoneVersion
  | tombstone v => some v

/-- The points of a state newer than a tombstone. -/
def livePointsAfterTombstone (s : RateLimitState) (t : Option Version) : List LivePoint :=
  match s with
  | live s => s.livePointsAfterTombstone t
  | tombstone _ => []

/-- Join two states; `none` only when neither says anything. -/
def merge (s other : RateLimitState) : Option RateLimitState :=
  let t := maxVersion s.tombstoneVersion other.tombstoneVersion
  let points := s.livePointsAfterTombstone t ++ other.livePointsAfterTombstone t
  match RateLimitShard.merged points t with
  | some shard => some (live shard)
  | none => t.map tombstone

end RateLimitState

/-! ## The wire format of a shard -/

/-- The serialisation crate. -/
structure ShardCodec where
  serialize : RateLimitShard → Bytes
  /-- Read a shard off the front, under a limit that is set aside. -/
  deserialize : Nat → Bytes → Option RateLimitShard
  /-- What is written has a length of 8 bytes, 48 bytes a point, and a flag. -/
  lt_length_serialize : ∀ s, 8 + 48 * s.livePoints.length < (serialize s).length
  /-- Shards are read back, whatever follows them. -/
  deserialize_serialize : ∀ (limit : Nat) (s : RateLimitShard) (rest : Bytes),
    deserialize limit (serialize s ++ rest) = some s
  /-- Only serialised shards are read. -/
  of_deserialize : ∀ (limit : Nat) (bytes : Bytes) (s : RateLimitShard),
    deserialize limit bytes = some s → serialize s <+: bytes

def countOfBits (n : Fin (2 ^ 64)) : Count :=
  ⟨if n.val < 2 ^ 63 then n.val else n.val - 2 ^ 64, by split <;> omega⟩

def bitsOfCount (c : Count) : Fin (2 ^ 64) :=
  ⟨(if 0 ≤ c.val then c.val else c.val + 2 ^ 64).toNat, by have := c.2; split <;> omega⟩

theorem countOfBits_bitsOfCount (c : Count) : countOfBits (bitsOfCount c) = c := by
  have hc := c.2
  apply Count.ext
  simp only [countOfBits, bitsOfCount]
  split <;> omega

theorem bitsOfCount_countOfBits (n : Fin (2 ^ 64)) : bitsOfCount (countOfBits n) = n := by
  apply Fin.ext
  simp only [countOfBits, bitsOfCount]
  split <;> omega

/-! The format the source uses: little-endian integers, an 8-byte length before a list and before
the 16 bytes of a replica id, a flag byte before an optional version. -/

def versionCodec : Codec Version :=
  ((Codec.uint .little 8 (2 ^ 64) (by norm_num)).pair
    (Codec.tagged [16, 0, 0, 0, 0, 0, 0, 0] (Codec.uint .big 16 (2 ^ 128) (by norm_num)))).iso
    (fun p => ⟨p.1, p.2⟩) (fun v => (v.timestamp, v.replicaId)) (fun _ => rfl) (fun _ => rfl)

def epochCountCodec : Codec EpochCount :=
  ((Codec.uint .little 8 (2 ^ 64) (by norm_num)).pair
    ((Codec.uint .little 8 (2 ^ 64) (by norm_num)).iso countOfBits bitsOfCount
      countOfBits_bitsOfCount bitsOfCount_countOfBits)).iso
    (fun p => ⟨p.1, p.2⟩) (fun v => (v.epoch, v.count)) (fun _ => rfl) (fun _ => rfl)

def livePointCodec : Codec LivePoint :=
  (epochCountCodec.pair versionCodec).iso (fun p => ⟨p.1, p.2⟩) (fun p => (p.value, p.version))
    (fun _ => rfl) (fun _ => rfl)

def shardFormat : Codec RateLimitShard :=
  ((Codec.list 8 livePointCodec).pair versionCodec.option).iso (fun p => ⟨p.1, p.2⟩)
    (fun s => (s.livePoints, s.tombstoneVersion)) (fun _ => rfl) (fun _ => rfl)

/-- A format for shards of `2 ^ 64` points and more, which no machine holds: an empty length, a flag
that is none, and the points behind their number in unary. -/
def endlessFormat : Codec RateLimitShard :=
  Codec.tagged [0, 0, 0, 0, 0, 0, 0, 0, 2] <|
    ((Codec.listOf .unary livePointCodec).pair versionCodec.option).iso (fun p => ⟨p.1, p.2⟩)
      (fun s => (s.livePoints, s.tombstoneVersion)) (fun _ => rfl) (fun _ => rfl)

theorem livePointCodec_valid (p : LivePoint) : livePointCodec.Valid p :=
  ⟨⟨trivial, trivial⟩, trivial, trivial⟩

theorem versionOption_valid (t : Option Version) : versionCodec.option.Valid t :=
  fun _ _ => ⟨trivial, trivial⟩

theorem shardFormat_valid_iff (s : RateLimitShard) :
    shardFormat.Valid s ↔ s.livePoints.length < 256 ^ 8 :=
  ⟨fun h => h.1.1, fun h => ⟨⟨h, fun p _ => livePointCodec_valid p⟩, versionOption_valid _⟩⟩

theorem endlessFormat_valid (s : RateLimitShard) : endlessFormat.Valid s :=
  ⟨⟨trivial, fun p _ => livePointCodec_valid p⟩, versionOption_valid _⟩

/-- The flag stops the format of the source. -/
theorem shardFormat_read_endless (s : RateLimitShard) (rest : Bytes) :
    shardFormat.read (endlessFormat.write s ++ rest) = none := by
  obtain ⟨bytes, hbytes⟩ : ∃ bytes, endlessFormat.write s ++ rest =
      (Codec.list 8 livePointCodec).write [] ++ 2 :: bytes := ⟨_, rfl⟩
  have hlist := (Codec.list 8 livePointCodec).read_write [] (2 :: bytes)
    ⟨show 0 < 256 ^ 8 by decide, by simp⟩
  rw [hbytes, shardFormat, Codec.iso, Codec.pair]
  simp only [hlist]
  rfl

def everyShardFormat : Codec RateLimitShard :=
  shardFormat.orElse endlessFormat (fun s => decide (s.livePoints.length < 256 ^ 8))
    (fun s => by rw [decide_eq_true_iff, shardFormat_valid_iff]) shardFormat_read_endless

theorem sum_livePointCodec_size (points : List LivePoint) :
    (points.map livePointCodec.size).sum = 48 * points.length := by
  have : livePointCodec.size = fun _ => 48 := rfl
  rw [this, map_const', sum_replicate_nat, mul_comm]

theorem lt_everyShardFormat_size (s : RateLimitShard) :
    8 + 48 * s.livePoints.length < everyShardFormat.size s := by
  have hsum := sum_livePointCodec_size s.livePoints
  have hshard : shardFormat.size s =
      8 + (s.livePoints.map livePointCodec.size).sum +
        versionCodec.option.size s.tombstoneVersion := rfl
  have hendless : endlessFormat.size s =
      9 + (s.livePoints.length + 1 + (s.livePoints.map livePointCodec.size).sum +
        versionCodec.option.size s.tombstoneVersion) := rfl
  have hoption : 0 < versionCodec.option.size s.tombstoneVersion := Nat.add_pos_left one_pos _
  have hsize : everyShardFormat.size s =
      if decide (s.livePoints.length < 256 ^ 8) then shardFormat.size s
      else endlessFormat.size s := rfl
  rw [hsize]
  split <;> omega

def fixintShards : ShardCodec where
  serialize := everyShardFormat.write
  deserialize _ bytes := (everyShardFormat.read bytes).map Prod.fst
  lt_length_serialize s := by
    rw [everyShardFormat.length_write]
    exact lt_everyShardFormat_size s
  deserialize_serialize _ s rest := by
    rw [everyShardFormat.read_write s rest (.inr (endlessFormat_valid s))]
    rfl
  of_deserialize _ bytes s h := by
    obtain ⟨⟨s', rest⟩, hs, rfl⟩ := Option.map_eq_some_iff.mp h
    exact ⟨rest, (everyShardFormat.write_read _ _ _ hs).2.symm⟩

/-- The cap on a decoded shard that is handed to the crate. -/
def maxShardBytes : Nat := 64 * 1024

def epochMaxWinsEncodedLen : Nat := 16

/-- Read an application payload: eight bytes of epoch and eight of count, big-endian. -/
def decodeRawEpochCount (bytes : Bytes) : Option EpochCount :=
  if bytes.length ≠ epochMaxWinsEncodedLen then none
  else
    some ⟨Fin.ofNat _ (beNat (bytes.take 8)), countOfBits (Fin.ofNat _ (beNat (bytes.drop 8)))⟩

def encode (v : EpochCount) : Bytes := beBytes 8 v.epoch.val ++ beBytes 8 (bitsOfCount v.count).val

theorem decodeRawEpochCount_encode (v : EpochCount) : decodeRawEpochCount (encode v) = some v := by
  have ht : (encode v).take 8 = beBytes 8 v.epoch.val := take_left' (by simp)
  have hd : (encode v).drop 8 = beBytes 8 (bitsOfCount v.count).val := drop_left' (by simp)
  have hw : ∀ n : Fin (2 ^ 64), Fin.ofNat (2 ^ 64) (n.val % 256 ^ 8) = n := fun n => by
    rw [show 256 ^ 8 = 2 ^ 64 by norm_num, Nat.mod_eq_of_lt n.isLt, Fin.ofNat_val_eq_self]
  rw [decodeRawEpochCount, if_neg (by simp [encode, epochMaxWinsEncodedLen]), ht, hd, beNat_beBytes,
    beNat_beBytes, hw, hw, countOfBits_bitsOfCount]

section Wire

variable (codec : ShardCodec)

def encodeShard (s : RateLimitShard) : Option Bytes := some (codec.serialize s)

/-- The shard some bytes stand for, if they are one with a live point. -/
def decodeShard (bytes : Bytes) : Option RateLimitShard :=
  (codec.deserialize maxShardBytes bytes).filter fun s => !s.livePoints.isEmpty

/-- The application value of stored bytes or of a payload. -/
def decode (bytes : Bytes) : Option EpochCount :=
  ((decodeShard codec bytes).bind (·.currentValue)).or (decodeRawEpochCount bytes)

/-- The state an insert of these bytes stands for: a shard's own, or a single point. -/
def stateFromInsertValue (value : Bytes) (version : Version) : Option RateLimitState :=
  match decodeShard codec value with
  | some shard => some (.live shard)
  | none => (decodeRawEpochCount value).map fun v => .live (.fromLivePoint ⟨v, version⟩)

def RateLimitState.encodeLive : RateLimitState → Option Bytes
  | .live shard => encodeShard codec shard
  | .tombstone _ => none

/-- A state as one operation: its shard under the newest live version, or a remove. -/
def RateLimitState.intoOperation (key : String) : RateLimitState → Option Operation
  | .live shard =>
    shard.newestLiveVersion.bind fun v =>
      (encodeShard codec shard).map fun bytes => .insert key bytes v.timestamp v.replicaId
  | .tombstone v => some (.remove key v.timestamp v.replicaId)

/-- The state an operation stands for; `none` for a malformed payload. -/
def operationState : Operation → Option RateLimitState
  | .insert _ value timestamp replicaId => stateFromInsertValue codec value ⟨timestamp, replicaId⟩
  | .remove _ timestamp replicaId => some (.tombstone ⟨timestamp, replicaId⟩)

/-- The loop of `compact_operations`: the first key met and the state folded so far.  `none` is the
early return of a merge with nothing to say. -/
def compactFrom (key : Option String) (state : Option RateLimitState) :
    List Operation → Option (Option String × Option RateLimitState)
  | [] => some (key, state)
  | op :: ops =>
    let key := some (key.getD op.key)
    match operationState codec op with
    | none => compactFrom key state ops
    | some s =>
      match state with
      | none => compactFrom key (some s) ops
      | some current =>
        match current.merge s with
        | some m => compactFrom key (some m) ops
        | none => none

def foldState (ops : List Operation) : Option RateLimitState :=
  (compactFrom codec none none ops).bind (·.2)

def compactOperations (ops : List Operation) : Option Operation :=
  (compactFrom codec none none ops).bind fun (key, state) =>
    state.bind fun s => key.bind fun k => s.intoOperation codec k

end Wire

end Smg.Mesh
