import Mathlib.Data.PNat.Basic
import Smg.Mesh.Operation

/-!
# Splitting a stream value into chunks, and packing chunks into batches

The sending half of `transport/chunking.rs`.  A published value is cut by `chunkValue` into entries
that carry the publish's generation, their own index and the number of chunks; the entries of a
round are packed by `buildStreamBatches` into messages bounded by a count and a byte cap.

* `Publish.flatten_entries`: the chunks of a value, joined, are the value.
* `Publish.getElem_of_mem`: as long as the chunk count fits in 32 bits, an entry says where it
  belongs: it is the chunk of its publish at its own index.
-/

set_option autoImplicit false

namespace Smg.Mesh

open List

/-- The number of values of a 32-bit unsigned integer: an `as u32` cast is a remainder by it. -/
def u32Size : Nat := 2 ^ 32

/-- The largest `usize`, where saturating additions stop. -/
def usizeMax : Nat := 2 ^ 64 - 1

/-- Addition of two `usize` values that stops at the largest one. -/
def saturatingAdd (a b : Nat) : Nat := min (a + b) usizeMax

/-- One chunk of a stream value on the wire. -/
structure StreamEntry where
  key : String
  generation : Nat
  /-- Which chunk this is, a 32-bit number. -/
  chunkIndex : Nat
  /-- How many chunks there are, a 32-bit number. -/
  totalChunks : Nat
  data : Bytes
  deriving DecidableEq, Repr

/-- One message of stream entries. -/
structure StreamBatch where
  /-- The entries, in the order they were packed. -/
  entries : List StreamEntry
  deriving DecidableEq, Repr

/-! ## Splitting -/

/-- `usize::div_ceil`. -/
def divCeil (n d : Nat) : Nat := (n + d - 1) / d

/-- The bytes of chunk `index`: `value.slice(start..end)`. -/
def chunkAt (value : Bytes) (maxChunkBytes index : Nat) : Bytes :=
  let start := index * maxChunkBytes
  let stop := min (start + maxChunkBytes) value.length
  (value.drop start).take (stop - start)

/-- Split a stream value into one or more entries.  The assertion that the chunk size is not zero is
the type of `maxChunkBytes`. -/
def chunkValue (key : String) (generation : Nat) (value : Bytes) (maxChunkBytes : ℕ+) :
    List StreamEntry :=
  if value.length ≤ maxChunkBytes then
    [{ key, generation, chunkIndex := 0, totalChunks := 1, data := value }]
  else
    let totalChunks := divCeil value.length maxChunkBytes
    (List.range totalChunks).map fun index =>
      { key, generation, chunkIndex := index % u32Size, totalChunks := totalChunks % u32Size,
        data := chunkAt value maxChunkBytes index }

theorem chunkAt_eq (value : Bytes) (m index : Nat) :
    chunkAt value m index = (value.drop (index * m)).take m := by
  rw [chunkAt]
  rcases le_total (index * m + m) value.length with h | h
  · rw [min_eq_left h, Nat.add_sub_cancel_left]
  · rw [min_eq_right h, take_of_length_le (by rw [length_drop]),
      take_of_length_le (by rw [length_drop]; omega)]

/-- The first `n` chunks, joined, are the first `n * m` bytes. -/
theorem flatten_chunkAt (value : Bytes) (m n : Nat) :
    ((range n).map (chunkAt value m)).flatten = value.take (n * m) := by
  induction n with
  | zero => simp
  | succ n ih =>
    rw [range_succ, map_append, flatten_append, ih, map_singleton,
      flatten_singleton, chunkAt_eq, Nat.succ_mul, take_add]

theorem le_divCeil_mul (n : Nat) (d : ℕ+) : n ≤ divCeil n d * d := by
  have hd : 0 < (d : Nat) := d.pos
  have h := Nat.div_add_mod (n + d - 1) d
  have hm := Nat.mod_lt (n + d - 1) hd
  rw [divCeil, mul_comm]
  omega

/-! ## Publishes -/

/-- One value published by one peer, with the arguments `chunkValue` is called with. -/
structure Publish where
  peer : String
  key : String
  generation : Nat
  value : Bytes
  /-- The chunk size the sender splits with. -/
  maxChunkBytes : ℕ+
  deriving DecidableEq

namespace Publish

def entries (p : Publish) : List StreamEntry :=
  chunkValue p.key p.generation p.value p.maxChunkBytes

def chunkCount (p : Publish) : Nat := p.entries.length

/-- **The chunks of a value, joined, are the value.** -/
theorem flatten_entries (p : Publish) : (p.entries.map StreamEntry.data).flatten = p.value := by
  rw [entries, chunkValue]
  split
  · simp
  · rw [map_map]
    have h : StreamEntry.data ∘ (fun index => ({
        key := p.key, generation := p.generation, chunkIndex := index % u32Size,
        totalChunks := divCeil p.value.length p.maxChunkBytes % u32Size,
        data := chunkAt p.value p.maxChunkBytes index } : StreamEntry))
        = chunkAt p.value p.maxChunkBytes := rfl
    rw [h, flatten_chunkAt]
    exact take_of_length_le (le_divCeil_mul _ _)

variable {p : Publish} {e : StreamEntry}

theorem key_of_mem (h : e ∈ p.entries) : e.key = p.key := by
  rw [entries, chunkValue] at h
  split at h
  · rw [mem_singleton.mp h]
  · obtain ⟨i, -, rfl⟩ := mem_map.mp h
    rfl

theorem generation_of_mem (h : e ∈ p.entries) : e.generation = p.generation := by
  rw [entries, chunkValue] at h
  split at h
  · rw [mem_singleton.mp h]
  · obtain ⟨i, -, rfl⟩ := mem_map.mp h
    rfl

theorem totalChunks_of_mem (hp : p.chunkCount < u32Size) (h : e ∈ p.entries) :
    e.totalChunks = p.chunkCount := by
  rw [chunkCount] at *
  revert h hp
  rw [entries, chunkValue]
  split
  · intro _ h
    rw [mem_singleton.mp h, length_singleton]
  · rw [length_map, length_range]
    intro hp h
    obtain ⟨i, -, rfl⟩ := mem_map.mp h
    exact Nat.mod_eq_of_lt hp

theorem chunkIndex_of_getElem (hp : p.chunkCount < u32Size) {i : Nat} (h : p.entries[i]? = some e) :
    e.chunkIndex = i := by
  rw [chunkCount] at hp
  revert h hp
  rw [entries, chunkValue]
  split
  · intro _ h
    obtain ⟨hi, rfl⟩ := List.getElem?_eq_some_iff.mp h
    rw [length_singleton, Nat.lt_one_iff] at hi
    subst hi
    rfl
  · rw [length_map, length_range]
    intro hp h
    obtain ⟨hi, rfl⟩ := List.getElem?_eq_some_iff.mp h
    rw [length_map, length_range] at hi
    rw [getElem_map, getElem_range]
    exact Nat.mod_eq_of_lt (hi.trans hp)

/-- **An entry says where it belongs.**  The entry a publish has at the index an entry of it states
is that entry. -/
theorem getElem_of_mem (hp : p.chunkCount < u32Size) (h : e ∈ p.entries) :
    p.entries[e.chunkIndex]? = some e := by
  obtain ⟨i, hi⟩ := mem_iff_getElem?.mp h
  rwa [chunkIndex_of_getElem hp hi]

theorem chunkCount_pos (p : Publish) : 0 < p.chunkCount := by
  rw [chunkCount, entries, chunkValue]
  split
  · exact one_pos
  · next h =>
    rw [length_map, length_range]
    exact Nat.div_pos (by omega) p.maxChunkBytes.pos

theorem data_of_chunkCount_eq_one (hp : p.chunkCount = 1) (h : e ∈ p.entries) :
    e.data = p.value := by
  obtain ⟨e', he'⟩ := length_eq_one_iff.mp hp
  have hflat := p.flatten_entries
  rw [he'] at h hflat
  rw [mem_singleton.mp h, ← hflat]
  simp

end Publish

/-! ## Packing -/

/-- The loop of `buildStreamBatches`: the batch being filled and its size are threaded through. -/
def packEntries (maxChunksPerBatch maxBytesPerBatch : Nat) :
    List StreamEntry → List StreamEntry → Nat → List StreamBatch
  | [], current, _ => if current.isEmpty then [] else [{ entries := current }]
  | entry :: rest, current, currentBytes =>
    let entryBytes := entry.data.length
    let atCountCap := maxChunksPerBatch ≤ current.length
    let wouldExceedBytes :=
      current ≠ [] ∧ maxBytesPerBatch < saturatingAdd currentBytes entryBytes
    if atCountCap ∨ wouldExceedBytes then
      { entries := current } :: packEntries maxChunksPerBatch maxBytesPerBatch rest [entry]
        (saturatingAdd 0 entryBytes)
    else
      packEntries maxChunksPerBatch maxBytesPerBatch rest (current ++ [entry])
        (saturatingAdd currentBytes entryBytes)

/-- Pack entries into batches, starting a new one whenever the next entry would pass the count cap
or the byte cap.  An entry that alone passes the byte cap goes out alone. -/
def buildStreamBatches (entries : List StreamEntry) (maxChunksPerBatch maxBytesPerBatch : Nat) :
    List StreamBatch :=
  if maxChunksPerBatch = 0 ∨ maxBytesPerBatch = 0 ∨ entries = [] then []
  else packEntries maxChunksPerBatch maxBytesPerBatch entries [] 0

theorem flatten_packEntries (c b : Nat) (entries current : List StreamEntry) (n : Nat) :
    ((packEntries c b entries current n).map StreamBatch.entries).flatten = current ++ entries := by
  induction entries generalizing current n with
  | nil =>
    rw [packEntries]
    split
    · simp_all
    · simp
  | cons e rest ih =>
    rw [packEntries]
    split
    · rw [map_cons, flatten_cons, ih, singleton_append]
    · rw [ih, append_assoc, singleton_append]

/-- Nothing is sent that was not to be sent, whatever the caps. -/
theorem mem_of_mem_buildStreamBatches {c b : Nat} {entries : List StreamEntry}
    {batch : StreamBatch} (hbatch : batch ∈ buildStreamBatches entries c b) {e : StreamEntry}
    (he : e ∈ batch.entries) : e ∈ entries := by
  rw [buildStreamBatches] at hbatch
  split at hbatch
  · exact absurd hbatch not_mem_nil
  · rw [← nil_append entries, ← flatten_packEntries c b entries [] 0, mem_flatten]
    exact ⟨batch.entries, mem_map_of_mem hbatch, he⟩

end Smg.Mesh
