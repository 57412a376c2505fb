import Smg.Tokenizer.PieceMerge

/-!
# Making a table of merges

`merge.rs`: the tables of a BPE model (`fromModel`) and of a tiktoken vocabulary (`fromRanks`).
Which characters pre-form is left out: only `merge_preformed` reads it.

What the model of the `tokenizers` library gives is its fields: the vocabulary, as the entries of
its map in the order it gives them, and the merges that its serialization reads back to, in rank
order.

A result `none` is a panic or a loop that does not end; `some (.error _)` is a model that is
declined.
-/

set_option autoImplicit false

namespace Smg.Tokenizer

open MergeTable

/-- Why a model keeps its own merge. -/
inductive Declined where
  /-- `the model is not BPE` -/
  | notBpe
  /-- `the model merges with dropout` -/
  | dropout
  /-- `the model marks subwords with a prefix or a suffix` -/
  | subwordMarks
  /-- `byte .. has no token` -/
  | byteWithoutToken (byte : Nat)
  /-- `the model does not serialize` -/
  | notSerialized
  /-- `the model's merges do not read back` -/
  | notReadBack
  /-- `more merges than a short merge's keys carry` -/
  | tooManyMerges
  /-- `more merges than the table ranks` -/
  | tooManyRanks
  /-- `merge .. + .. names a token outside the vocabulary` -/
  | outsideVocabulary (left right : Text)
  /-- `ranks up to .. on a table bounded at ..` -/
  | ranksBeyond (stop : Nat)
  /-- `token .. is no two tokens' concatenation` -/
  | noSplit (rank : UInt32)
  /-- `token .. is not the merge of its bytes` -/
  | notMerged (rank : UInt32)
deriving DecidableEq

/-! ## The byte tokens -/

/-- Whether a byte is its own character in GPT-2's alphabet. -/
def printable (byte : Nat) : Bool :=
  (0x21 ≤ byte && byte ≤ 0x7E) || (0xA1 ≤ byte && byte ≤ 0xAC) || (0xAE ≤ byte && byte ≤ 0xFF)

/-- The characters of some bytes, where `escape` is the next one for a byte that is not printable.
-/
def bytesCharFrom : (bytes : List Nat) → (escape : Nat) → List Char
  | [], _ => []
  | byte :: bytes, escape =>
    if printable byte then Char.ofNat byte :: bytesCharFrom bytes escape
    else Char.ofNat escape :: bytesCharFrom bytes (escape + 1)

/-- GPT-2's `bytes_to_unicode`: the character of each byte. -/
def bytesChar : List Char := bytesCharFrom (List.range 256) 0x100

/-- Which tokens stand for the bytes. -/
inductive ByteTokens where
  | alphabet
  | hex
deriving DecidableEq

def hexDigit (n : Nat) : Char := if n < 10 then Char.ofNat (48 + n) else Char.ofNat (55 + n)

def spelling (tokens : ByteTokens) (byte : Nat) : Text :=
  match tokens with
  | .alphabet => [(bytesChar[byte]?).getD '\x00']
  | .hex => ['<', '0', 'x', hexDigit (byte / 16), hexDigit (byte % 16), '>']

def byteIdsOf (idOf : Nat → Option UInt32) : Except Declined (List UInt32) :=
  (List.range 256).mapM fun byte =>
    match idOf byte with
    | some id => .ok id
    | none => .error (.byteWithoutToken byte)

/-! ## Filling a table -/

/-- A pair, its rank and what it produces. -/
structure MergeEntry where
  rank : UInt32
  a : UInt32
  b : UInt32
  product : UInt32
deriving DecidableEq

namespace MergeTable

def insertAll (table : MergeTable) (entries : List MergeEntry) : Option MergeTable :=
  entries.foldlM (fun table e => table.insert e.a e.b (Merge.new e.rank e.product)) table

def ofEntries (byteIds : List UInt32) (entries : List MergeEntry) (ignoreMerges grid : Bool) :
    Option MergeTable := do
  let table ← { withCapacity entries.length ignoreMerges grid with byteIds }.insertAll entries
  table.fillByteGrid

end MergeTable

/-! ## From a model -/

/-- A BPE model of the library. -/
structure BpeModel where
  /-- The entries of the vocabulary. -/
  vocab : List (Text × UInt32)
  /-- The merges that the serialization of the model reads back to, in rank order. -/
  merges : Except Declined (List (Text × Text))
  /-- Whether merges are dropped at random: a dropout above zero. -/
  dropout : Bool
  continuingSubwordPrefix : Option Text
  endOfWordSuffix : Option Text
  ignoreMerges : Bool

/-- A model of the library. -/
inductive ModelWrapper where
  | bpe (model : BpeModel)
  | other

def BpeModel.tokenToId (model : BpeModel) (token : Text) : Option UInt32 := model.vocab.lookup token

/-- Ranks that a key carries: a model with as many merges is declined. -/
def maxRanks : Nat := 2 ^ 25

/-- The rank of the merge at an index of the list, if it is one of the table. -/
def rankOf (index : Nat) : Option UInt32 :=
  if index < 2 ^ 32 - 1 then some (UInt32.ofNat index) else none

def readMerge (model : BpeModel) (merge : (Text × Text) × Nat) : Except Declined MergeEntry :=
  match rankOf merge.2 with
  | none => .error .tooManyRanks
  | some rank =>
    match model.tokenToId merge.1.1, model.tokenToId merge.1.2,
        model.tokenToId (merge.1.1 ++ merge.1.2) with
    | some a, some b, some product => .ok { rank, a, b, product }
    | _, _, _ => .error (.outsideVocabulary merge.1.1 merge.1.2)

def marks (mark : Option Text) : Bool := mark.any fun mark => !mark.isEmpty

/-- The byte tokens and the merges of a model, or why it is declined. -/
def readModel (model : BpeModel) (tokens : ByteTokens) :
    Except Declined (List UInt32 × List MergeEntry) := do
  if model.dropout then throw .dropout
  if marks model.continuingSubwordPrefix || marks model.endOfWordSuffix then throw .subwordMarks
  let byteIds ← byteIdsOf fun byte => model.tokenToId (spelling tokens byte)
  let merges ← model.merges
  if maxRanks ≤ merges.length then throw .tooManyMerges
  let entries ← merges.zipIdx.mapM (readMerge model)
  return (byteIds, entries)

def MergeTable.fromModel (model : ModelWrapper) (tokens : ByteTokens) :
    Option (Except Declined MergeTable) :=
  match model with
  | .other => some (.error .notBpe)
  | .bpe model =>
    match readModel model tokens with
    | .error why => some (.error why)
    | .ok (byteIds, entries) => do
      let table ← ofEntries byteIds entries model.ignoreMerges (tokens = .alphabet)
      return .ok table

/-! ## From ranks -/

/-- A tiktoken vocabulary: the entries of its map, the bytes of each token and its rank. -/
abbrev Ranks := List (List UInt8 × UInt32)

def maxByteLevelTableIds : Nat := 2 ^ 22

def ranksEnd (ranks : Ranks) : Nat := (ranks.map fun token => token.2.toNat + 1).foldl max 0

/-- The splits of a token into two tokens, at its rank. -/
def splitsOf (ranks : Ranks) (token : List UInt8) (rank : UInt32) : List MergeEntry :=
  (List.range (token.length - 1)).filterMap fun i =>
    match ranks.lookup (token.take (i + 1)), ranks.lookup (token.drop (i + 1)) with
    | some a, some b => some { rank, a, b, product := rank }
    | _, _ => none

/-- The splits of a token of the vocabulary, or that there are none. -/
def readSplits (ranks : Ranks) (token : List UInt8 × UInt32) : Except Declined (List MergeEntry) :=
  if token.1.length < 2 then .ok []
  else
    match splitsOf ranks token.1 token.2 with
    | [] => .error (.noSplit token.2)
    | splits => .ok splits

/-- The byte tokens and the merges of a vocabulary, or why it is declined. -/
def readRanks (ranks : Ranks) : Except Declined (List UInt32 × List MergeEntry) := do
  let byteIds ← byteIdsOf fun byte => ranks.lookup [UInt8.ofNat byte]
  if maxByteLevelTableIds < ranksEnd ranks then throw (.ranksBeyond (ranksEnd ranks))
  let splits ← ranks.mapM (readSplits ranks)
  return (byteIds, splits.flatten)

/-- The first token that its own bytes do not merge to. -/
def notMerged (table : MergeTable) : Ranks → Option (Option UInt32)
  | [] => some none
  | (token, rank) :: ranks =>
    if token.length < 2 then notMerged table ranks
    else
      match table.merge token [] with
      | none => none
      | some ids => if ids ≠ [rank] then some (some rank) else notMerged table ranks

def MergeTable.fromRanks (ranks : Ranks) : Option (Except Declined MergeTable) :=
  match readRanks ranks with
  | .error why => some (.error why)
  | .ok (byteIds, entries) => do
    let table ← ofEntries byteIds entries false true
    match ← notMerged table ranks with
    | some rank => return .error (.notMerged rank)
    | none => return .ok table

end Smg.Tokenizer
