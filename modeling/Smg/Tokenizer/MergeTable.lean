import Smg.Lib.LinearProbe
import Smg.Tokenizer.ScanRoles

/-!
# The table of merges

`merge.rs`: the table and its lookup.  The merges of a vocabulary are kept in buckets of four
entries, open-addressed by the hash of the pair, behind a filter of two bits for each pair, and the
merges of two bytes once more in a grid.  `mergeOf` reads the table; `insert` fills it, and a pair
that is inserted twice keeps the later merge.

The pieces are merged in `Smg.Tokenizer.PieceMerge`; the tables are made in
`Smg.Tokenizer.MergeLoad`.

A read outside of a list is a panic and a loop over the buckets that comes round without an answer
goes on for ever; both are `none`.
-/

set_option autoImplicit false

namespace Smg.Tokenizer

def write {α : Type} (xs : List α) (i : Nat) (x : α) : Option (List α) :=
  if i < xs.length then some (xs.set i x) else none

def packed (hi lo : UInt32) : UInt64 := hi.toUInt64 <<< 32 ||| lo.toUInt64

def noRank : UInt32 := 0xFFFFFFFF

/-- A merge in one word: its rank over the id that it produces. -/
structure Merge where
  word : UInt64
deriving DecidableEq

namespace Merge

/-- No merge: `Merge::NONE`. -/
def none : Merge := ⟨0xFFFFFFFFFFFFFFFF⟩

def new (rank product : UInt32) : Merge := ⟨packed rank product⟩

def rank (merge : Merge) : UInt32 := (merge.word >>> 32).toUInt32

def product (merge : Merge) : UInt32 := merge.word.toUInt32

end Merge

def bucketSize : Nat := 4

def emptyKey : UInt64 := 0xFFFFFFFFFFFFFFFF

/-- An entry of the table: a pair and its merge. -/
structure Entry where
  key : UInt64
  merge : Merge

def Entry.empty : Entry := ⟨emptyKey, Merge.none⟩

abbrev Bucket := List Entry

def Bucket.empty : Bucket := List.replicate bucketSize Entry.empty

/-- The merges of a model. -/
structure MergeTable where
  byteIds : List UInt32
  /-- The merge of each pair of bytes; nothing for a table whose pieces start from characters. -/
  byteGrid : List Merge
  buckets : List Bucket
  /-- The bits that a key's hash is shifted by to give its first bucket. -/
  shift : Nat
  pairFilter : List UInt64
  /-- The bits that a key's filter hash is shifted by to give its word. -/
  pairFilterShift : Nat
  /-- The model's `ignore_merges`, for the caller. -/
  ignoreMerges : Bool

/-- The power of two that is next to `n`, in its exponent: the least `k` with `n ≤ 2 ^ k`. -/
def powerFor (n : Nat) : Nat := if n ≤ 1 then 0 else (n - 1).log2 + 1

namespace MergeTable

/-- An empty table for `merges` pairs, with the grid if pieces start from bytes. -/
def withCapacity (merges : Nat) (ignoreMerges byteGrid : Bool) : MergeTable :=
  -- `div_ceil`, `next_power_of_two` and `max`
  let bucketBits := max (powerFor ((merges + bucketSize / 2 - 1) / (bucketSize / 2))) 1
  let filterBits := max (powerFor ((merges * 8 + 63) / 64)) 10
  { byteIds := List.replicate 256 0
    byteGrid := if byteGrid then List.replicate 65536 Merge.none else []
    buckets := List.replicate (2 ^ bucketBits) Bucket.empty
    shift := 64 - bucketBits
    pairFilter := List.replicate (2 ^ filterBits) 0
    pairFilterShift := 64 - filterBits
    ignoreMerges }

def pairKey (a b : UInt32) : UInt64 := packed a b

def firstBucket (table : MergeTable) (key : UInt64) : Nat :=
  ((key * 0x9E3779B97F4A7C15) >>> UInt64.ofNat table.shift).toNat

def pairFilterSlot (table : MergeTable) (key : UInt64) : Nat × UInt64 :=
  let hash := key * 0xD6E8FEB86659FD93
  let word := (hash >>> UInt64.ofNat table.pairFilterShift).toNat
  let bits := (1 : UInt64) <<< (hash &&& 63) ||| (1 : UInt64) <<< (hash >>> 6 &&& 63)
  (word, bits)

/-- The slot that a pair goes to: the one that holds it or else the first that is empty. -/
def slotFor (key : UInt64) (entry : Entry) : Bool := entry.key == key || entry.key == emptyKey

/-- The loop of `insert` over the buckets. -/
def insertFrom (key : UInt64) (merge : Merge) (buckets : List Bucket) :
    (turns : Nat) → (bucket : Nat) → Option (List Bucket)
  | 0, _ => none
  | turns + 1, bucket =>
    match buckets[bucket]? with
    | none => none
    | some entries =>
      match entries.findIdx? (slotFor key) with
      | some slot => some (buckets.set bucket (entries.set slot ⟨key, merge⟩))
      | none => insertFrom key merge buckets turns ((bucket + 1) &&& (buckets.length - 1))

/-- Record a pair; one that is recorded twice keeps the later merge. -/
def insert (table : MergeTable) (a b : UInt32) (merge : Merge) : Option MergeTable := do
  let key := pairKey a b
  let (word, bits) := table.pairFilterSlot key
  let old ← table.pairFilter[word]?
  let buckets ← insertFrom key merge table.buckets table.buckets.length (table.firstBucket key)
  return { table with pairFilter := table.pairFilter.set word (old ||| bits), buckets }

/-- What one bucket says of a pair: its merge, the last one if there were several, and whether an
entry is empty. -/
def bucketLook (key : UInt64) (entries : Bucket) : Merge × Bool :=
  entries.foldl
    (fun seen entry =>
      (if entry.key = key then entry.merge else seen.1, seen.2 || entry.key == emptyKey))
    (Merge.none, false)

/-- The loop of `merge_of` over the buckets. -/
def mergeFrom (key : UInt64) (buckets : List Bucket) :
    (turns : Nat) → (bucket : Nat) → Option Merge
  | 0, _ => none
  | turns + 1, bucket =>
    match buckets[bucket]? with
    | none => none
    | some entries =>
      let (found, empty) := bucketLook key entries
      if found ≠ Merge.none || empty then some found
      else mergeFrom key buckets turns ((bucket + 1) &&& (buckets.length - 1))

/-- The merge of a pair, `Merge.none` if it is none: the filter first, then the buckets. -/
def mergeOf (table : MergeTable) (a b : UInt32) : Option Merge := do
  let key := pairKey a b
  let (word, bits) := table.pairFilterSlot key
  let filter ← table.pairFilter[word]?
  if filter &&& bits ≠ bits then return Merge.none
  mergeFrom key table.buckets table.buckets.length (table.firstBucket key)

def bytePair (table : MergeTable) (a b : UInt8) : Option Merge :=
  table.byteGrid[a.toNat * 256 + b.toNat]?

/-- `byte_ids[byte]`. -/
def byteId (table : MergeTable) (byte : UInt8) : Option UInt32 := table.byteIds[byte.toNat]?

/-- The merge of the tokens of the bytes that a place in the grid is for. -/
def gridEntry (table : MergeTable) (i : Nat) : Option Merge := do
  let a ← table.byteIds[i / 256]?
  let b ← table.byteIds[i % 256]?
  table.mergeOf a b

/-- Fill the grid from the buckets; nothing to fill for a table without one. -/
def fillByteGrid (table : MergeTable) : Option MergeTable :=
  if table.byteGrid.isEmpty then some table
  else (List.range 65536).mapM table.gridEntry |>.map fun byteGrid => { table with byteGrid }

end MergeTable

end Smg.Tokenizer
