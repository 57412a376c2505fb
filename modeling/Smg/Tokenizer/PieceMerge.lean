import Smg.Tokenizer.MergeTable

/-!
# Merging a piece

`merge.rs`: the merges of one piece over the table.  A piece of up to 128 symbols is merged on
arrays, as a linked list with a key of rank and position for each pair (`ShortMerge`); a longer one
on a linked list with a heap of candidates (`mergeLongFrom`).

A read outside of an array is a panic, and a loop that has had more turns than the symbols allow has
not ended; both are `none`.
-/

set_option autoImplicit false

namespace Smg.Tokenizer

open MergeTable

/-- Pieces of up to this many symbols merge on arrays. -/
def shortPieceSymbols : Nat := 128

def shortPieceSmall : Nat := 32

def shortPieceTiny : Nat := 16

def shortKeyBits : UInt32 := 7

def shortKeyMask : UInt32 := 127

def noKey : UInt32 := 0xFFFFFFFF

/-! ## Short pieces -/

/-- The merge of a short piece: the live symbols as a linked list over arrays. -/
structure ShortMerge where
  symbols : List UInt32
  /-- The id that the pair of each live symbol produces, if it is a merge. -/
  products : List UInt32
  keys : List UInt32
  /-- The live neighbours: `next` of the last symbol is `n`, `prev` of the first is 255. -/
  next : List UInt8
  prev : List UInt8
  n : Nat

namespace ShortMerge

/-- The list of the initial symbols on arrays of `size`, no pair looked up. -/
def ofSymbols (size : Nat) (symbols : List UInt32) : ShortMerge where
  symbols := symbols.take size ++ List.replicate (size - symbols.length) 0
  products := List.replicate size 0
  keys := List.replicate size noKey
  next := (List.range (min symbols.length size)).map (fun i => UInt8.ofNat (i + 1)) ++
    List.replicate (size - symbols.length) 0
  prev := (List.range (min symbols.length size)).map (fun i => UInt8.ofNat i - 1) ++
    List.replicate (size - symbols.length) 0
  n := symbols.length

/-- Record the pair that the symbol at `at'` starts; the answer is its key. -/
def setPair (m : ShortMerge) (at' : Nat) (merge : Merge) : Option (ShortMerge × UInt32) := do
  if merge = Merge.none then
    let keys ← write m.keys at' noKey
    return ({ m with keys }, noKey)
  else
    let products ← write m.products at' merge.product
    let key := merge.rank <<< shortKeyBits ||| UInt32.ofNat at'
    let keys ← write m.keys at' key
    return ({ m with products, keys }, key)

def lanes (size : Nat) : (chunks : Nat) → (keys : List UInt32) → (acc : List UInt32) → List UInt32
  | 0, _, acc => acc
  | chunks + 1, keys, acc =>
    lanes size chunks (keys.drop size) (List.zipWith min acc (keys.take size))

/-- The least of the first `len` keys, eight lanes at a time. -/
def least (m : ShortMerge) (len : Nat) : Option UInt32 :=
  let lim := (len + 7) / 8 * 8
  if lim ≤ m.keys.length then
    some ((lanes 8 (lim / 8) m.keys (List.replicate 8 noKey)).foldl min noKey)
  else none

/-- The pair that the product forms with the symbol after it. -/
def aheadOf (m : ShortMerge) (table : MergeTable) (at' right : Nat) :
    Option (ShortMerge × Merge) := do
  if right < m.n then
    let prev ← write m.prev right (UInt8.ofNat at')
    let merge ← table.mergeOf (← m.symbols[at']?) (← m.symbols[right]?)
    return ({ m with prev }, merge)
  else return (m, Merge.none)

/-- The pair that the product forms with the symbol before it. -/
def behindOf (m : ShortMerge) (table : MergeTable) (at' left : Nat) :
    Option (ShortMerge × Merge) := do
  if left < m.n then
    let keys ← write m.keys left noKey
    let merge ← table.mergeOf (← m.symbols[left]?) (← m.symbols[at']?)
    return ({ m with keys }, merge)
  else return (m, Merge.none)

/-- Record the pair of the symbol before the product, if there is one. -/
def setLeft (m : ShortMerge) (left : Nat) (merge : Merge) : Option (ShortMerge × UInt32) :=
  if left < m.n then m.setPair left merge else some (m, noKey)

/-- Take the symbol after `at'` out of the list, and write the product. -/
def unlink (m : ShortMerge) (at' : Nat) : Option (ShortMerge × Nat × Nat) := do
  let product ← m.products[at']?
  let symbols ← write m.symbols at' product
  let dead := (← m.next[at']?).toNat
  let right ← m.next[dead]?
  let next ← write m.next at' right
  let left ← m.prev[at']?
  let keys ← write m.keys dead noKey
  let keys ← write keys at' noKey
  return ({ m with symbols, next, keys }, right.toNat, left.toNat)

/-- Merge the pair that the symbol at `at'` starts; the answer is the least key after it. -/
def mergeAt (m : ShortMerge) (table : MergeTable) (at' : Nat) : Option (ShortMerge × UInt32) := do
  let (m, right, left) ← m.unlink at'
  let (m, ahead) ← m.aheadOf table at' right
  let (m, behind) ← m.behindOf table at' left
  let others ← m.least (m.n - 1)
  let (m, keyAt) ← m.setPair at' ahead
  let (m, keyLeft) ← m.setLeft left behind
  return (m, min (min others keyAt) keyLeft)

def settleFrom (table : MergeTable) : (turns : Nat) → ShortMerge → (best : UInt32) →
    Option ShortMerge
  | 0, _, _ => none
  | turns + 1, m, best =>
    if best = noKey then some m
    else
      match m.mergeAt table (best &&& shortKeyMask).toNat with
      | none => none
      | some (m, best) => settleFrom table turns m best

def liveFrom (m : ShortMerge) : (turns : Nat) → (at' : Nat) → Option (List UInt32)
  | 0, _ => none
  | turns + 1, at' =>
    if at' < m.n then do
      let id ← m.symbols[at']?
      let next ← m.next[at']?
      let rest ← liveFrom m turns next.toNat
      return id :: rest
    else some []

/-- Merge from the pairs of the first round until no pair is a merge, and append the ids. -/
def settle (m : ShortMerge) (table : MergeTable) (pairs : Nat) (ids : List UInt32) :
    Option (List UInt32) := do
  let best ← m.least pairs
  let m ← settleFrom table (m.n + 1) m best
  let live ← m.liveFrom (m.n + 1) 0
  return ids ++ live

/-- Record the pairs of the first round, from a position on. -/
def setPairs (m : ShortMerge) : (at' : Nat) → (merges : List Merge) → Option ShortMerge
  | _, [] => some m
  | at', merge :: merges =>
    match m.setPair at' merge with
    | none => none
    | some (m, _) => setPairs m (at' + 1) merges

end ShortMerge

/-- The merges of neighbours: `windows(2)`, looked up one by one. -/
def neighbours {α : Type} (look : α → α → Option Merge) : List α → Option (List Merge)
  | a :: b :: rest => do
    let merge ← look a b
    let merges ← neighbours look (b :: rest)
    return merge :: merges
  | _ => some []

namespace ShortMerge

/-- Merge on arrays of `size` after the first round's merges. -/
def runWith (size : Nat) (table : MergeTable) (symbols : List UInt32) (merges : List Merge)
    (ids : List UInt32) : Option (List UInt32) := do
  let m ← (ofSymbols size symbols).setPairs 0 merges
  m.settle table (symbols.length - 1) ids

/-- The arrays that hold `n` symbols. -/
def sizeFor (n : Nat) : Nat :=
  if n ≤ shortPieceTiny then shortPieceTiny
  else if n ≤ shortPieceSmall then shortPieceSmall
  else shortPieceSymbols

end ShortMerge

/-! ## Long pieces -/

/-- No neighbour, and the id of a symbol that was merged away. -/
def noSymbol : UInt32 := 0xFFFFFFFF

/-- A symbol of a long piece: its id and its live neighbours. -/
structure Symbol where
  id : UInt32
  prev : UInt32
  next : UInt32

def linked (ids : List UInt32) : List Symbol :=
  ids.zipIdx.map fun x =>
    { id := x.1
      prev := if x.2 = 0 then noSymbol else UInt32.ofNat x.2 - 1
      next := if x.2 = ids.length - 1 then noSymbol else UInt32.ofNat x.2 + 1 }

abbrev Candidate := UInt32 × UInt32

/-- The order of the heap: by rank, then by position. -/
def earlier (x y : Candidate) : Bool := x.1 < y.1 || x.1 == y.1 && x.2 < y.2

def popLeast : List Candidate → Option (Candidate × List Candidate)
  | [] => none
  | x :: heap =>
    match popLeast heap with
    | none => some (x, [])
    | some (y, rest) => if earlier y x then some (y, x :: rest) else some (x, heap)

def candidate (merge : Merge) (pos : UInt32) : List Candidate :=
  if merge = Merge.none then [] else [(merge.rank, pos)]

def candidates (merges : List Merge) : List Candidate :=
  merges.zipIdx.flatMap fun x => candidate x.1 (UInt32.ofNat x.2)

namespace MergeTable

/-- The candidate that a product forms with the symbol after it; that symbol is linked to it. -/
def longAhead (table : MergeTable) (symbols : List Symbol) (pos next id : UInt32) :
    Option (List Symbol × List Candidate) := do
  if next ≠ noSymbol then
    let right ← symbols[next.toNat]?
    let symbols ← write symbols next.toNat { right with prev := pos }
    let ahead ← table.mergeOf id right.id
    return (symbols, candidate ahead pos)
  else return (symbols, [])

/-- The candidate that a product forms with the symbol before it. -/
def longBehind (table : MergeTable) (symbols : List Symbol) (prev id : UInt32) :
    Option (List Candidate) := do
  if prev ≠ noSymbol then
    let left ← symbols[prev.toNat]?
    let behind ← table.mergeOf left.id id
    return candidate behind prev
  else return []

/-- Take one candidate: nothing is done if it is stale. -/
def longStep (table : MergeTable) (symbols : List Symbol) (heap : List Candidate)
    (rank pos : UInt32) : Option (List Symbol × List Candidate) := do
  let left ← symbols[pos.toNat]?
  if left.id = noSymbol ∨ left.next = noSymbol then return (symbols, heap)
  let right ← symbols[left.next.toNat]?
  let merge ← table.mergeOf left.id right.id
  if merge.rank ≠ rank then return (symbols, heap)
  let symbols ← write symbols pos.toNat { left with id := merge.product, next := right.next }
  let symbols ← write symbols left.next.toNat { right with id := noSymbol }
  let (symbols, ahead) ← table.longAhead symbols pos right.next merge.product
  let behind ← table.longBehind symbols left.prev merge.product
  return (symbols, behind ++ (ahead ++ heap))

/-- The merges of a long piece, until no candidate is left. -/
def longLoop (table : MergeTable) :
    (turns : Nat) → List Symbol → (heap : List Candidate) → Option (List Symbol)
  | 0, _, _ => none
  | turns + 1, symbols, heap =>
    match popLeast heap with
    | none => some symbols
    | some ((rank, pos), heap) =>
      match table.longStep symbols heap rank pos with
      | none => none
      | some (symbols, heap) => longLoop table turns symbols heap

/-- Merge from the first round's candidates until none is left, and append the ids.  Every merge
takes one symbol away and leaves two candidates more at most. -/
def mergeLongFrom (table : MergeTable) (symbols : List Symbol) (heap : List Candidate)
    (ids : List UInt32) : Option (List UInt32) := do
  let symbols ← table.longLoop (heap.length + 2 * symbols.length + 1) symbols heap
  return ids ++ (symbols.map Symbol.id).filter (· ≠ noSymbol)

/-! ## Pieces -/

/-- Merge some symbols after the first round's merges: on arrays if they fit. -/
def mergeWith (table : MergeTable) (symbols : List UInt32) (merges : List Merge)
    (ids : List UInt32) : Option (List UInt32) :=
  if symbols.length ≤ shortPieceSymbols then
    ShortMerge.runWith (ShortMerge.sizeFor symbols.length) table symbols merges ids
  else table.mergeLongFrom (linked symbols) (candidates merges) ids

/-- The merge of a piece from its bytes' tokens: the first round reads the grid. -/
def mergeBytes (table : MergeTable) (piece : List UInt8) (ids : List UInt32) :
    Option (List UInt32) := do
  let symbols ← piece.mapM table.byteId
  let merges ← neighbours table.bytePair piece
  table.mergeWith symbols merges ids

/-- `merge`: append the ids that a piece merges to. -/
def merge (table : MergeTable) (piece : List UInt8) (ids : List UInt32) : Option (List UInt32) :=
  if piece.isEmpty then some ids else table.mergeBytes piece ids

/-- `merge_symbols`: append the ids that some symbols merge to; the first round reads the buckets.
-/
def mergeSymbols (table : MergeTable) (symbols : List UInt32) (ids : List UInt32) :
    Option (List UInt32) := do
  if symbols.isEmpty then return ids
  let merges ← neighbours table.mergeOf symbols
  table.mergeWith symbols merges ids

end MergeTable

end Smg.Tokenizer
