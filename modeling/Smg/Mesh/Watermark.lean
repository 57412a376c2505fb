import Smg.Mesh.Operation

/-!
# Per-peer send watermarks and the wire format

`crdt_kv/watermark.rs` and `transport/crdt_batch.rs`.  A watermark maps a key to the operation id a
peer has acknowledged for it; the sender skips operations that are not newer.  A receiver answers a
batch with the watermark of the operations it decoded.

Replica ids travel as text.  Rendering and parsing belong to a third-party crate, so they are a
parameter, `ReplicaText`, with the two facts the protocol rests on: a rendered id parses back to
itself, and no id renders to the empty text.

* `mem_fromOps` — an entry of an ack is the id of one of the operations acknowledged;
* `get_mergeMax` — merging an ack invents no version;
* `flatten_buildCrdtBatches` — splitting into frames keeps every operation, in order;
* `crdtAckToWatermark_watermarkToCrdtAck` — an ack survives the wire.
-/

set_option autoImplicit false

namespace Smg.Mesh

open List

/-- The op-id a peer has acknowledged for each key. -/
structure CrdtWatermark where
  versions : Table String Version

variable {v : Version} {k : String}

namespace CrdtWatermark

/-- The watermark under which every operation is sent. -/
def new : CrdtWatermark := ⟨∅⟩

def get (w : CrdtWatermark) (key : String) : Option Version := w.versions.lookup key

/-- Raise one key's entry to at least `id`. -/
def raise (w : CrdtWatermark) (key : String) (id : Version) : CrdtWatermark :=
  match w.versions.lookup key with
  | some existing => ⟨w.versions.insert key (max existing id)⟩
  | none => ⟨w.versions.insert key id⟩

/-- The greatest op-id per key of a list of operations. -/
def fromOps (ops : List Operation) : CrdtWatermark :=
  ops.foldl (fun w op => w.raise op.key op.version) new

/-- Is this a newer write than what the peer has acked for its key? -/
def allows (w : CrdtWatermark) (op : Operation) : Bool :=
  match w.get op.key with
  | some acked => decide (acked < op.version)
  | none => true

/-- Advance from `(key, op-id)` pairs. -/
def mergeMaxOwned (w : CrdtWatermark) (pairs : List (String × Version)) : CrdtWatermark :=
  pairs.foldl (fun w p => w.raise p.1 p.2) w

def iter (w : CrdtWatermark) : List (String × Version) :=
  w.versions.entries.map fun e => (e.1, e.2)

/-- Advance toward `other`, taking the per-key maximum. -/
def mergeMax (w other : CrdtWatermark) : CrdtWatermark := w.mergeMaxOwned other.iter

/-- Build from `(key, op-id)` pairs, keeping the greatest per key. -/
def fromPairs (pairs : List (String × Version)) : CrdtWatermark := new.mergeMaxOwned pairs

def isEmpty (w : CrdtWatermark) : Bool := w.versions.entries.isEmpty

/-! ## What entries can be -/

@[simp] theorem get_new (k : String) : new.get k = none := rfl

theorem get_raise (w : CrdtWatermark) (k k' : String) (v : Version) :
    (w.raise k v).get k' =
      if k' = k then some ((w.get k).elim v fun existing => max existing v) else w.get k' := by
  rw [raise, get, get, get]
  split <;> rename_i h <;> by_cases hk : k' = k
  · subst hk
    simp [h]
  · simp [hk]
  · subst hk
    simp [h]
  · simp [hk]

variable {w : CrdtWatermark}

/-- Raising an entry gives a version that was there or is the new one. -/
theorem eq_or_of_get_raise {k' : String} {u : Version} (h : (w.raise k v).get k' = some u) :
    (k' = k ∧ u = v) ∨ w.get k' = some u := by
  rw [get_raise] at h
  split at h
  · rename_i hk
    subst hk
    cases hg : w.get k' with
    | none =>
      rw [hg] at h
      exact .inl ⟨rfl, (Option.some.inj h).symm⟩
    | some e =>
      rw [hg, Option.elim_some, Option.some.injEq] at h
      rcases max_choice e v with hm | hm
      · exact .inr (by rw [← h, hm])
      · exact .inl ⟨rfl, by rw [← h, hm]⟩
  · exact .inr h

theorem get_mergeMaxOwned {pairs : List (String × Version)}
    (h : (w.mergeMaxOwned pairs).get k = some v) : (k, v) ∈ pairs ∨ w.get k = some v := by
  induction pairs generalizing w with
  | nil => exact .inr h
  | cons p pairs ih =>
    rcases ih h with h | h
    · exact .inl (mem_cons_of_mem _ h)
    · rcases eq_or_of_get_raise h with ⟨rfl, rfl⟩ | h
      · exact .inl mem_cons_self
      · exact .inr h

theorem mem_iter : (k, v) ∈ w.iter ↔ w.get k = some v := by
  rw [iter, get, ← Option.mem_def, AList.mem_lookup_iff, mem_map]
  constructor
  · rintro ⟨⟨k', v'⟩, he, heq⟩
    cases heq
    exact he
  · exact fun h => ⟨⟨k, v⟩, h, rfl⟩

theorem get_mergeMax {other : CrdtWatermark} (h : (w.mergeMax other).get k = some v) :
    other.get k = some v ∨ w.get k = some v :=
  (get_mergeMaxOwned h).imp_left mem_iter.mp

theorem mem_fromOps {ops : List Operation} (h : (fromOps ops).get k = some v) :
    ∃ op ∈ ops, op.key = k ∧ op.version = v := by
  have hp : fromOps ops = new.mergeMaxOwned (ops.map fun op => (op.key, op.version)) := by
    rw [fromOps, mergeMaxOwned, foldl_map]
  rw [hp] at h
  rcases get_mergeMaxOwned h with h | h
  · obtain ⟨op, hop, he⟩ := mem_map.mp h
    exact ⟨op, hop, congrArg Prod.fst he, congrArg Prod.snd he⟩
  · simp at h

/-- What is withheld is not newer than an acked version of its key. -/
theorem exists_of_allows_eq_false {op : Operation} (h : w.allows op = false) :
    ∃ v, w.get op.key = some v ∧ op.version ≤ v := by
  rw [allows] at h
  split at h
  · rename_i acked hacked
    exact ⟨acked, hacked, not_lt.mp (of_decide_eq_false h)⟩
  · cases h

end CrdtWatermark

/-! ## The wire -/

/-- How replica ids are written on the wire. -/
structure ReplicaText where
  /-- `to_string`. -/
  render : ReplicaId → String
  /-- `from_string`. -/
  parse : String → Option ReplicaId
  /-- A rendered id parses back to itself. -/
  parse_render : ∀ r, parse (render r) = some r
  /-- No id renders to the empty text. -/
  render_ne_empty : ∀ r, render r ≠ ""

/-- An operation on the wire. -/
structure CrdtOp where
  key : String
  /-- The value, empty for a remove. -/
  value : Bytes
  tombstone : Bool
  timestamp : Timestamp
  replicaId : String
  deriving DecidableEq, Repr

/-- One acknowledged key on the wire. -/
structure CrdtKeyVersion where
  key : String
  version : Timestamp
  /-- The replica id, as text; empty from a legacy peer. -/
  replicaId : String
  deriving DecidableEq, Repr

/-- The budget of one frame: the message cap of 10 MiB less 64 KiB for the envelope. -/
def maxStreamChunkBytes : Nat := 10 * 1024 * 1024 - 64 * 1024

section Wire

variable (text : ReplicaText)

def opToProto : Operation → CrdtOp
  | .insert key value timestamp replicaId =>
    ⟨key, value, false, timestamp, text.render replicaId⟩
  | .remove key timestamp replicaId => ⟨key, [], true, timestamp, text.render replicaId⟩

/-- The operation a wire form stands for; `none` when its replica id does not parse. -/
def protoToOp (op : CrdtOp) : Option Operation :=
  (text.parse op.replicaId).map fun replicaId =>
    if op.tombstone then .remove op.key op.timestamp replicaId
    else .insert op.key op.value op.timestamp replicaId

/-- Conservative estimate of an operation's encoded size. -/
def estimatedOpSize (op : CrdtOp) : Nat :=
  op.key.utf8ByteSize + op.value.length + op.replicaId.utf8ByteSize + 24

/-- The loop of `build_crdt_batches`, with the batch being filled and its size. -/
def buildCrdtBatchesFrom (maxBytes : Nat) (current : List CrdtOp) (currentBytes : Nat) :
    List Operation → List (List CrdtOp)
  | [] => if current.isEmpty then [] else [current]
  | op :: ops =>
    let proto := opToProto text op
    let size := estimatedOpSize proto
    if !current.isEmpty && decide (currentBytes + size > maxBytes) then
      current :: buildCrdtBatchesFrom maxBytes [proto] size ops
    else buildCrdtBatchesFrom maxBytes (current ++ [proto]) (currentBytes + size) ops

/-- Split a log snapshot into batches of at most about `maxBytes` each. -/
def buildCrdtBatches (ops : List Operation) (maxBytes : Nat) : List (List CrdtOp) :=
  buildCrdtBatchesFrom text maxBytes [] 0 ops

def watermarkToCrdtAck (w : CrdtWatermark) : List CrdtKeyVersion :=
  w.iter.map fun p => ⟨p.1, p.2.timestamp, text.render p.2.replicaId⟩

def keyVersionToPair (e : CrdtKeyVersion) : Option (String × Version) :=
  if e.replicaId = "" then some (e.key, ⟨e.version, ReplicaId.max⟩)
  else (text.parse e.replicaId).map fun r => (e.key, ⟨e.version, r⟩)

def crdtAckToWatermark (ack : List CrdtKeyVersion) : CrdtWatermark :=
  .fromPairs (ack.filterMap (keyVersionToPair text))

variable {text}

@[simp] theorem protoToOp_opToProto (op : Operation) :
    protoToOp text (opToProto text op) = some op := by
  cases op <;> simp [opToProto, protoToOp, text.parse_render]

theorem flatten_buildCrdtBatchesFrom (maxBytes : Nat) (current : List CrdtOp) (bytes : Nat)
    (ops : List Operation) :
    (buildCrdtBatchesFrom text maxBytes current bytes ops).flatten =
      current ++ ops.map (opToProto text) := by
  induction ops generalizing current bytes with
  | nil => cases current <;> simp [buildCrdtBatchesFrom]
  | cons op ops ih =>
    rw [buildCrdtBatchesFrom]
    split
    · rw [flatten_cons, ih, map_cons, singleton_append]
    · rw [ih, map_cons, append_assoc, singleton_append]

/-- Splitting into frames keeps every operation, in order. -/
theorem flatten_buildCrdtBatches (ops : List Operation) (maxBytes : Nat) :
    (buildCrdtBatches text ops maxBytes).flatten = ops.map (opToProto text) :=
  flatten_buildCrdtBatchesFrom maxBytes [] 0 ops

/-- **A log survives the wire**, split into frames of any size. -/
theorem log_survives_wire (ops : List Operation) (maxBytes : Nat) :
    (buildCrdtBatches text ops maxBytes).flatten.filterMap (protoToOp text) = ops := by
  simp [flatten_buildCrdtBatches]

/-- An ack survives the wire: what the sender reads is what the receiver wrote. -/
theorem crdtAckToWatermark_watermarkToCrdtAck {w : CrdtWatermark}
    (h : (crdtAckToWatermark text (watermarkToCrdtAck text w)).get k = some v) :
    w.get k = some v := by
  obtain ⟨e, he, hpair⟩ := mem_filterMap.mp
    ((CrdtWatermark.get_mergeMaxOwned h).resolve_right (by simp))
  obtain ⟨p, hp, rfl⟩ := mem_map.mp he
  rw [keyVersionToPair, if_neg (text.render_ne_empty _), text.parse_render] at hpair
  cases hpair
  exact CrdtWatermark.mem_iter.mp hp

end Wire

/-! ## UUID text

The text the source uses: 32 hexadecimal digits in hyphenated groups.  This reader is more lenient
than the crate's, taking hyphens anywhere. -/

def hexAlphabet : List Char :=
  ['0', '1', '2', '3', '4', '5', '6', '7', '8', '9', 'a', 'b', 'c', 'd', 'e', 'f']

def hexChar (n : Nat) : Char := hexAlphabet.getD n '0'

/-- A number in a fixed count of hexadecimal digits. -/
def hexDigits : Nat → Nat → List Char
  | 0, _ => []
  | w + 1, n => hexDigits w (n / 16) ++ [hexChar (n % 16)]

def readHexDigit (acc : Nat) (c : Char) : Option Nat :=
  (hexAlphabet.idxOf? c).map fun d => acc * 16 + d

def hyphenate : List Nat → List Char → List Char
  | [], l => l
  | n :: ns, l => l.take n ++ '-' :: hyphenate ns (l.drop n)

theorem hexChar_spec : ∀ n < 16, hexAlphabet.idxOf? (hexChar n) = some n ∧ hexChar n ≠ '-' := by
  decide

theorem foldlM_hexDigits (w n : Nat) :
    (hexDigits w n).foldlM readHexDigit 0 = some (n % 16 ^ w) := by
  induction w generalizing n with
  | zero => simp [hexDigits, Nat.mod_one]
  | succ w ih =>
    have hn := (hexChar_spec (n % 16) (Nat.mod_lt _ (by omega))).1
    rw [hexDigits, foldlM_append, ih]
    simp only [Option.bind_eq_bind, Option.bind_some, foldlM_cons, foldlM_nil,
      readHexDigit, hn, Option.map_some, Option.pure_def]
    rw [pow_succ, mul_comm (16 ^ w) 16, Nat.mod_mul, mul_comm, add_comm]

theorem hyphen_notMem_hexDigits (w n : Nat) : '-' ∉ hexDigits w n := by
  induction w generalizing n with
  | zero => simp [hexDigits]
  | succ w ih =>
    have hn := (hexChar_spec (n % 16) (Nat.mod_lt _ (by omega))).2
    simpa [hexDigits, ih] using hn.symm

theorem filter_hyphenate (ns : List Nat) (l : List Char) (h : '-' ∉ l) :
    (hyphenate ns l).filter (· != '-') = l := by
  induction ns generalizing l with
  | nil =>
    refine filter_eq_self.mpr fun c hc => ?_
    simpa using fun e : c = '-' => h (e ▸ hc)
  | cons n ns ih =>
    have ht : (l.take n).filter (· != '-') = l.take n := by
      refine filter_eq_self.mpr fun c hc => ?_
      simpa using fun e : c = '-' => h (e ▸ mem_of_mem_take hc)
    rw [hyphenate, filter_append, ht, filter_cons_of_neg (by simp),
      ih _ (fun hc => h (mem_of_mem_drop hc)), take_append_drop]

/-- Hyphenated UUID text, the form the source renders. -/
def uuidText : ReplicaText where
  render r := String.ofList (hyphenate [8, 4, 4, 4] (hexDigits 32 r.val))
  parse s :=
    ((s.toList.filter (· != '-')).foldlM readHexDigit 0).bind fun n =>
      if h : n < 2 ^ 128 then some ⟨n, h⟩ else none
  parse_render r := by
    have hr : r.val % 16 ^ 32 = r.val := Nat.mod_eq_of_lt (by omega)
    rw [String.toList_ofList, filter_hyphenate _ _ (hyphen_notMem_hexDigits _ _),
      foldlM_hexDigits, hr]
    simp
  render_ne_empty r h := by
    have hl := congrArg (fun s => s.toList.filter (· != '-')) h
    simp only [String.toList_ofList, filter_hyphenate _ _ (hyphen_notMem_hexDigits _ _)] at hl
    simp [hexDigits] at hl

end Smg.Mesh
