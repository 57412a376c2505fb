import Smg.Lib.Utf8

/-!
# The stop-sequence decoder

`stop.rs`, function by function.  Generated tokens become text through a `Sequence`, which is given
here; the decoder looks for stop strings in that text as it arrives, and holds back in its *jail*
what may still become one.  A hidden stop string is cut off, a visible one is kept.

Strings are lists of characters.  The source searches, measures and slices their bytes, and so does
the model: a slice that would cut a character, and an error of the sequence, are `none`.  The
automaton that searches is a parameter, `find`.
-/

set_option autoImplicit false

namespace Smg.Tokenizer

open Utf8

abbrev TokenId := UInt32

abbrev Text := List Char

/-- What a call did with its text. -/
inductive SequenceDecoderStep
  | text
  /-- Nothing was appended: the text is held, or completes no character. -/
  | held
  /-- A stop matched, with nothing appended. -/
  | stopped
  /-- A stop matched, with text appended before it or with it. -/
  | stoppedWithText
  deriving DecidableEq

def SequenceDecoderStep.isStop : SequenceDecoderStep → Bool
  | .stopped | .stoppedWithText => true
  | .text | .held => false

/-- Tokens and strings that end a generation, cut off or kept. -/
structure StopSequenceConfig where
  stopTokens : List TokenId
  stopSequences : List Text
  visibleStopTokens : List TokenId
  visibleStopSequences : List Text

/-- A match of the automaton: which pattern, and its bytes. -/
structure Match where
  pattern : Nat
  start : Nat
  stop : Nat
  deriving DecidableEq

/-- The automaton: patterns, the bytes searched, and the match it reports. -/
abbrev Find := List (List UInt8) → List UInt8 → Option Match

/-- The sequence decoder: the text a token releases, the text at the end, and a token on its own. -/
structure SequenceOps (σ : Type) where
  appendTokenInto : σ → TokenId → Option (σ × Text)
  finish : σ → Option (σ × Text)
  decode : σ → TokenId → Option Text
  clear : σ → σ

/-- What the stop parameters of a request compile to. -/
structure StopRules where
  /-- The stop strings, hidden before visible. -/
  patterns : List Text
  /-- Patterns from this index on are visible. -/
  visibleBoundaryIdx : Nat
  hiddenStopIds : List TokenId
  visibleStopIds : List TokenId

namespace StopRules

def new (config : StopSequenceConfig) : StopRules :=
  let hidden := config.stopSequences.filter fun s => !s.isEmpty
  { patterns := hidden ++ config.visibleStopSequences.filter fun s => !s.isEmpty
    visibleBoundaryIdx := hidden.length
    hiddenStopIds := config.stopTokens
    visibleStopIds := config.visibleStopTokens }

/-- There are no stop strings, and no jail is needed. -/
def tokenOnly (r : StopRules) : Bool := r.patterns.isEmpty

end StopRules

structure StopSequenceDecoder (σ : Type) where
  sequence : σ
  rules : StopRules
  /-- Text that may still become a stop string. -/
  jailBuffer : Text
  stopped : Bool
  /-- The stop string that matched. -/
  matchedStop : Option Text

namespace StopSequenceDecoder

variable {σ : Type}

def withSequence (sequence : σ) (rules : StopRules) : StopSequenceDecoder σ :=
  ⟨sequence, rules, [], false, none⟩

/-! ## What is held -/

/-- The first `n` with the property, from `hi` down to above `lo`; `lo` if there is none. -/
def scanDown (ok : Nat → Bool) (lo : Nat) : Nat → Nat
  | 0 => lo
  | hi + 1 => if hi + 1 ≤ lo then lo else if ok (hi + 1) then hi + 1 else scanDown ok lo hi

/-- The buffer ends with the first `n` bytes of a pattern, which are whole characters.  The last
byte is compared first. -/
def endsWithPrefix (buf : List UInt8) (last : UInt8) (pattern : Text) (n : Nat) : Bool :=
  (encode pattern)[n - 1]? = some last && isCharBoundary pattern n &&
    ((encode pattern).take n).isSuffixOf buf

/-- The longest prefix of a pattern, short of the whole, that the buffer ends with, if it is longer
than the longest so far. -/
def longerPrefix (buf : List UInt8) (last : UInt8) (longest : Nat) (pattern : Text) : Nat :=
  scanDown (endsWithPrefix buf last pattern) longest
    (min ((encode pattern).length - 1) buf.length)

/-- Byte length of the longest suffix of the jail that is a proper prefix of some stop string. -/
def pendingMatchLen (rules : StopRules) (jail : Text) : Nat :=
  match (encode jail).getLast? with
  | none => 0
  | some last => rules.patterns.foldl (longerPrefix (encode jail) last) 0

/-! ## Tokens -/

/-- What a call leaves: the decoder, the text appended, and what it did. -/
abbrev Outcome (σ : Type) := StopSequenceDecoder σ × Text × SequenceDecoderStep

/-- Let go of everything up to a stop string, or of everything that cannot become one. -/
def release (find : Find) (d : StopSequenceDecoder σ) : Option (Outcome σ) :=
  if d.rules.tokenOnly then
    if d.jailBuffer.isEmpty then some (d, [], .held)
    else some ({ d with jailBuffer := [] }, d.jailBuffer, .text)
  else
    match find (d.rules.patterns.map encode) (encode d.jailBuffer) with
    | some m => do
      let upTo ← sliceTo d.jailBuffer m.stop
      let matched ← sliceFrom upTo m.start
      let isVisible := d.rules.visibleBoundaryIdx ≤ m.pattern
      let stop := if isVisible then m.stop else m.start
      let out ← sliceTo d.jailBuffer stop
      some ({ d with stopped := true, matchedStop := some matched, jailBuffer := [] }, out,
        if stop = 0 then .stopped else .stoppedWithText)
    | none =>
      let drainTo := (encode d.jailBuffer).length - pendingMatchLen d.rules d.jailBuffer
      if 0 < drainTo then do
        let out ← sliceTo d.jailBuffer drainTo
        let rest ← sliceFrom d.jailBuffer drainTo
        some ({ d with jailBuffer := rest }, out, .text)
      else some (d, [], .held)

variable (ops : SequenceOps σ) (find : Find)

/-- Process a token: the text it releases is appended. -/
def processTokenInto (d : StopSequenceDecoder σ) (token : TokenId) : Option (Outcome σ) :=
  if d.stopped then some (d, [], .stopped)
  else
    let hiddenStop := d.rules.hiddenStopIds.contains token
    let visibleStop := d.rules.visibleStopIds.contains token
    if d.rules.tokenOnly && !hiddenStop && !visibleStop then do
      let (sequence, text) ← ops.appendTokenInto d.sequence token
      some ({ d with sequence }, text, if text.isEmpty then .held else .text)
    else if hiddenStop || visibleStop then do
      let stopText ← if visibleStop && !hiddenStop then (ops.decode d.sequence token).map some
        else some none
      let (sequence, pending) ← ops.finish d.sequence
      let (d, out, tail) ← release find { d with sequence, jailBuffer := d.jailBuffer ++ pending }
      if d.stopped then some (d, out, tail)
      else
        let out := out ++ d.jailBuffer ++ stopText.getD []
        some ({ d with jailBuffer := [], stopped := true }, out,
          if out.isEmpty && hiddenStop then .stopped else .stoppedWithText)
    else do
      let (sequence, text) ← ops.appendTokenInto d.sequence token
      release find { d with sequence, jailBuffer := d.jailBuffer ++ text }

def flushInto (d : StopSequenceDecoder σ) : Outcome σ :=
  if d.jailBuffer.isEmpty then (d, [], .held)
  else ({ d with jailBuffer := [] }, d.jailBuffer, .text)

/-- Finish decoding, look for stops in its tail, then release held text. -/
def finishInto (d : StopSequenceDecoder σ) : Option (Outcome σ) :=
  if d.stopped then some (d, [], .held)
  else do
    let (sequence, pending) ← ops.finish d.sequence
    let (d, out, step) ← release find { d with sequence, jailBuffer := d.jailBuffer ++ pending }
    match step with
    | .text =>
      let (d, rest, _) := flushInto d
      some (d, out ++ rest, .text)
    | .held =>
      let (d, rest, step) := flushInto d
      some (d, out ++ rest, step)
    | stop => some (d, out, stop)

def reset (d : StopSequenceDecoder σ) : StopSequenceDecoder σ :=
  { d with
    sequence := ops.clear d.sequence, jailBuffer := [], stopped := false, matchedStop := none }

/-- Go on after a match that does not count: what of it may begin a later stop stays in the jail. -/
def resume (d : StopSequenceDecoder σ) : Option (StopSequenceDecoder σ) :=
  if !d.stopped then some d
  else
    match d.matchedStop with
    | none => some { d with stopped := false }
    | some matched => do
      let drainTo := (encode matched).length - pendingMatchLen d.rules matched
      let rest ← sliceFrom matched drainTo
      some { d with stopped := false, matchedStop := none, jailBuffer := rest }

/-! ## A stream -/

/-- Tokens one after another, their text appended to one buffer. -/
def processTokens : StopSequenceDecoder σ → List TokenId → Option (StopSequenceDecoder σ × Text)
  | d, [] => some (d, [])
  | d, token :: tokens => do
    let (d, out, _) ← processTokenInto ops find d token
    let (d, rest) ← processTokens d tokens
    some (d, out ++ rest)

def stream (d : StopSequenceDecoder σ) (tokens : List TokenId) :
    Option (StopSequenceDecoder σ × Text) := do
  let (d, out) ← processTokens ops find d tokens
  let (d, rest, _) ← finishInto ops find d
  some (d, out ++ rest)

end StopSequenceDecoder

namespace SequenceOps

variable {σ : Type} (ops : SequenceOps σ)

/-- The texts the sequence decoder releases for tokens. -/
def texts : σ → List TokenId → Option (σ × List Text)
  | s, [] => some (s, [])
  | s, token :: tokens => do
    let (s, text) ← ops.appendTokenInto s token
    let (s, rest) ← texts s tokens
    some (s, text :: rest)

end SequenceOps

end Smg.Tokenizer
