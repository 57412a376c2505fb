import Mathlib.Algebra.Ring.Nat
import Smg.Lib.Acts
import Smg.Lib.Utf8

/-!
# Re-slicing streamed chat completions

`SseRechunker` of the gateway takes the body of a chat-completion stream chunk by chunk, buffers
the text of its deltas (`content`, `reasoning_content`, `reasoning` and tool-call `arguments`) and
writes it again in slices of moderate size.  Whatever else an event carries is written in order
around the text; what the stage does not understand is forwarded as it came.  Every slice is shown
to an observer first, who may end the stream.

The stage is a function of its state, as `Act`: a call gives the state after it and its *effects*,
the pieces written to `out` and the calls of the observer, in one order.  The bytes a call returns
are its pieces rendered.  A piece is kept as the event it is, a JSON object of keys and values, so
what a reader of the stream finds in it is read from the object; `Piece.render` writes it as the
source does.  `serde_json`'s readers are a parameter, `Serde`; a value read but not looked into
stays the text it came as.

`fields` and `tool_args` of the source are one map here, ordered as the source goes through them:
the payload fields, then the tool calls by index.  A field without an entry has an empty buffer.
The counter of events forwarded whole only feeds a log line and is left out.
-/

set_option autoImplicit false

namespace Smg.Sse

abbrev Bytes := List UInt8

/-- A JSON value as the text it came as (`RawValue`). -/
abbrev Raw := Bytes

abbrev Text := List Char

/-- A JSON object as its keys and untouched values, in order (`RawObject`). -/
abbrev RawObject := List (String × Raw)

def ascii (s : String) : Bytes := Utf8.encode s.toList

/-! ## Reading JSON -/

/-- What `serde_json` reads out of a value's text: the members of an object, the elements of an
array, the characters of a string. -/
structure Serde where
  parseObject : Raw → Option RawObject
  parseArray : Raw → Option (List Raw)
  decodeText : Raw → Option Text

def Serde.ofTable (objects : List (String × List (String × String)))
    (arrays : List (String × List String)) (texts : List (String × String)) : Serde where
  parseObject raw := (objects.find? fun entry => ascii entry.1 == raw).map fun entry =>
    entry.2.map fun member => (member.1, ascii member.2)
  parseArray raw := (arrays.find? fun entry => ascii entry.1 == raw).map fun entry =>
    entry.2.map ascii
  decodeText raw := (texts.find? fun entry => ascii entry.1 == raw).map fun entry => entry.2.toList

namespace RawObject

def get {ν : Type} (object : List (String × ν)) (key : String) : Option ν :=
  (object.find? fun member => member.1 == key).map (·.2)

end RawObject

def isNull (raw : Raw) : Bool := raw == ascii "null"

def isString (raw : Raw) : Bool := raw.head? == some 34

def Serde.parseText (serde : Serde) (raw : Raw) : Option Text :=
  if isString raw then serde.decodeText raw else none

def digits (raw : Raw) : Option Nat :=
  if raw ≠ [] ∧ raw.all fun b => 48 ≤ b ∧ b ≤ 57 then
    let n := raw.foldl (fun n b => 10 * n + (b.toNat - 48)) 0
    if n < 2 ^ 64 then some n else none
  else none

/-- Reading a `u64`, as `str::parse` does: digits, with an optional sign before them. -/
def parseU64 : Raw → Option Nat
  | 43 :: rest => digits rest
  | raw => digits raw

/-! ## Slices and their observer -/

/-- Delta fields whose text is buffered. -/
inductive Payload
  | reasoningContent
  | reasoning
  | content
  deriving DecidableEq, Repr

/-- `PAYLOAD_FIELDS`, in the order they are emitted. -/
def payloadFields : List Payload := [.reasoningContent, .reasoning, .content]

def Payload.key : Payload → String
  | .reasoningContent => "reasoning_content"
  | .reasoning => "reasoning"
  | .content => "content"

def Payload.ofKey (key : String) : Option Payload :=
  payloadFields.find? fun field => field.key == key

/-- Which buffer a piece of text belongs to. -/
inductive Slot
  | field (payload : Payload)
  | toolArgs (index : Option Nat)
  deriving DecidableEq, Repr

/-- The place of a slot's buffer among the others. -/
def Slot.rank : Slot → Nat
  | .field .reasoningContent => 0
  | .field .reasoning => 1
  | .field .content => 2
  | .toolArgs none => 3
  | .toolArgs (some index) => 4 + index

/-- One slice: its text and where it belongs in the delta. -/
structure DeltaSlice where
  field : Slot
  text : Text
  deriving DecidableEq, Repr

/-- Why an observer ended a stream. -/
structure StreamStop where
  message : Text
  errorType : Text
  deriving DecidableEq, Repr

/-- An observer's answer to a slice. -/
inductive Verdict
  | proceed
  | terminate (stop : StreamStop)
  deriving DecidableEq, Repr

/-- Sees the slices of one stream in the order the client receives them. -/
structure DeltaObserver (O : Type) where
  open_ : O → O
  onSlice : O → DeltaSlice → Verdict × O
  end_ : O → O

/-! ## What is written -/

/-- A JSON value as it is written: a value that came, or one put together. -/
inductive Value
  | raw (raw : Raw)
  | text (text : Text)
  | number (n : Nat)
  | object (members : List (String × Value))
  | array (elements : List Value)

def writeChar (c : Char) : Bytes :=
  match c.toNat with
  | 34 => ascii "\\\""
  | 92 => ascii "\\\\"
  | 8 => ascii "\\b"
  | 9 => ascii "\\t"
  | 10 => ascii "\\n"
  | 12 => ascii "\\f"
  | 13 => ascii "\\r"
  | n =>
    if n < 32 then ascii "\\u00" ++ Utf8.encode [(n / 16).digitChar, (n % 16).digitChar]
    else Utf8.encode [c]

def writeJson (text : Text) : Bytes := ascii "\"" ++ text.flatMap writeChar ++ ascii "\""

mutual

def Value.render : Value → Bytes
  | .raw raw => raw
  | .text text => writeJson text
  | .number n => ascii (Nat.repr n)
  | .object members => ascii "\x7b" ++ renderMembers false members ++ ascii "\x7d"
  | .array elements => ascii "[" ++ renderElements false elements ++ ascii "]"

/-- The members of an object; `started` says that a comma is due (`Comma`). -/
def renderMembers (started : Bool) : List (String × Value) → Bytes
  | [] => []
  | (key, value) :: members =>
    (if started then ascii "," else []) ++ writeJson key.toList ++ ascii ":" ++ value.render
      ++ renderMembers true members

def renderElements (started : Bool) : List Value → Bytes
  | [] => []
  | value :: elements =>
    (if started then ascii "," else []) ++ value.render ++ renderElements true elements

end

/-- A synthesized event: the latest event's envelope around one slice. -/
def synthesized (envelope : RawObject) (usageNull : Bool) (slice : DeltaSlice) :
    List (String × Value) :=
  let delta := match slice.field with
    | .field payload => [(payload.key, Value.text slice.text)]
    | .toolArgs index =>
      [("tool_calls", .array [.object ((match index with
        | some i => [("index", Value.number i)]
        | none => []) ++ [("function", .object [("arguments", .text slice.text)])])])]
  envelope.map (fun member => (member.1, Value.raw member.2))
    ++ [("choices", .array [.object [("index", .raw (ascii "0")), ("delta", .object delta),
          ("finish_reason", .raw (ascii "null"))]])]
    ++ if usageNull then [("usage", .raw (ascii "null"))] else []

/-- One write to `out`. -/
inductive Piece
  /-- Bytes of the body, as they came. -/
  | forwarded (bytes : Bytes)
  /-- An event of the body without the text that was taken from it. -/
  | structural (event : List (String × Value))
  | slice (envelope : RawObject) (usageNull : Bool) (shown : DeltaSlice)
  /-- The event that ends a stream the observer stopped. -/
  | error (stop : StreamStop)

def renderEvent (event : List (String × Value)) : Bytes :=
  ascii "data: " ++ (Value.object event).render ++ ascii "\n\n"

def Piece.render : Piece → Bytes
  | .forwarded bytes => bytes
  | .structural event => renderEvent event
  | .slice envelope usageNull shown => renderEvent (synthesized envelope usageNull shown)
  | .error stop => renderEvent [("error",
      .object [("message", .text stop.message), ("type", .text stop.errorType)])]

/-- What a call does that its caller or the observer notices; and, for the books, the text it takes
from an event into a buffer. -/
inductive Effect
  | wrote (piece : Piece)
  | shown (slice : DeltaSlice) (verdict : Verdict)
  | ended
  | took (slot : Slot) (text : Text)

def Effect.piece? : Effect → Option Piece
  | .wrote piece => some piece
  | _ => none

def returned (effects : List Effect) : Bytes :=
  (effects.filterMap Effect.piece?).flatMap Piece.render

/-! ## The stage -/

def sliceChars : Nat := 160
def emitThreshold : Nat := 80
def minTailChars : Nat := 5
def maxFrameBytes : Nat := 2 ^ 20

/-- Text waiting to be emitted, with its length in characters. -/
structure Pending where
  text : Text := []
  chars : Nat := 0

namespace Pending

/-- The characters of the next slice: at most `sliceChars`, leaving `keep` characters and never a
tail shorter than `minTailChars` beyond them. -/
def nextSlice (p : Pending) (keep : Nat) : Nat :=
  let free := p.chars - keep
  if free ≤ sliceChars then free
  else if free - sliceChars < minTailChars then free - minTailChars
  else sliceChars

def cut (p : Pending) (chars : Nat) : Pending := ⟨p.text.drop chars, p.chars - chars⟩

def push (p : Pending) (text : Text) : Pending := ⟨p.text ++ text, p.chars + text.length⟩

end Pending

abbrev Buffers := List (Slot × Pending)

/-- Appends text to the buffer of a slot, which is created where it belongs. -/
def Buffers.push (slot : Slot) (text : Text) : Buffers → Buffers
  | [] => [(slot, Pending.push {} text)]
  | (other, p) :: rest =>
    if other = slot then (other, p.push text) :: rest
    else if slot.rank < other.rank then (slot, Pending.push {} text) :: (other, p) :: rest
    else (other, p) :: Buffers.push slot text rest

structure Rechunker (O : Type) where
  /-- Start of a frame whose delimiter has not arrived yet (`partial`). -/
  partialFrame : Bytes
  /-- Bytes of it already searched for a delimiter. -/
  scanned : Nat
  /-- Top-level fields of the latest event except `choices` and `usage`. -/
  envelope : RawObject
  /-- The latest text-bearing event carried the `usage: null` placeholder. -/
  usageNull : Bool
  buffers : Buffers
  /-- The buffer that received text last. -/
  last : Option Slot
  roleSent : Bool
  /-- Forward everything verbatim from here on. -/
  passthrough : Bool
  observer : O
  /-- The stop the observer ended the stream with. -/
  stopped : Option StreamStop
  /-- The observer was told the stream ended. -/
  ended : Bool

/-- How a pass over the buffers cuts one of them: those of at least `gate` characters, while they
hold `least`, leaving `keep`. -/
structure Cut where
  gate : Nat
  least : Nat
  keep : Nat

/-- `emit_ready`: what holds enough text; the arguments of a tool call keep a tail back. -/
def readyCut : Slot → Cut
  | .field _ => ⟨emitThreshold, emitThreshold, 0⟩
  | .toolArgs _ => ⟨emitThreshold + minTailChars, emitThreshold + minTailChars, minTailChars⟩

/-- `emit_from`: the buffers of at least `minChars`, all but the last `held` of a tool call's. -/
def fromCut (minChars held : Nat) : Slot → Cut
  | .field _ => ⟨minChars, 1, 0⟩
  | .toolArgs _ => ⟨minChars + held, held + 1, held⟩

/-- What a pass leaves: its effects, the observer, and what is buffered or the observer's stop. -/
structure Emitted (O α : Type) where
  effects : List Effect
  observer : O
  result : Except StreamStop α

/-- One pass after another, unless the observer stopped the first (`?`). -/
def Emitted.andThen {O α β : Type} (e : Emitted O α) (f : O → α → Emitted O β) : Emitted O β :=
  match e.result with
  | .ok a => { f e.observer a with effects := e.effects ++ (f e.observer a).effects }
  | .error reason => ⟨e.effects, e.observer, .error reason⟩

section Stage

variable {O : Type} (serde : Serde) (obs : DeltaObserver O)

section Emit

variable (envelope : RawObject) (usageNull : Bool)

/-- Shows the next slice of a buffer and writes it, unless the observer ends the stream on it
(`emit_text`, `emit_arguments`). -/
def emitSlice (slot : Slot) (keep : Nat) (o : O) (p : Pending) : Emitted O Pending :=
  let chars := p.nextSlice keep
  let slice : DeltaSlice := ⟨slot, p.text.take chars⟩
  match obs.onSlice o slice with
  | (.proceed, o') =>
    ⟨[.shown slice .proceed, .wrote (.slice envelope usageNull slice)], o', .ok (p.cut chars)⟩
  | (.terminate stop, o') => ⟨[.shown slice (.terminate stop)], o', .error stop⟩

/-- The `while` loop of a pass over one buffer; every slice takes a character at least, so as many
rounds as there are characters are enough. -/
def emitWhile (slot : Slot) (cut : Cut) : Nat → O → Pending → Emitted O Pending
  | 0, o, p => ⟨[], o, .ok p⟩
  | fuel + 1, o, p =>
    if cut.least ≤ p.chars then
      (emitSlice obs envelope usageNull slot cut.keep o p).andThen (emitWhile slot cut fuel)
    else ⟨[], o, .ok p⟩

def emitPending (slot : Slot) (cut : Cut) (o : O) (p : Pending) : Emitted O Pending :=
  if cut.gate ≤ p.chars then emitWhile obs envelope usageNull slot cut p.chars o p
  else ⟨[], o, .ok p⟩

/-- A pass over the buffers, to the end or to the observer's stop. -/
def emitBuffers (cutOf : Slot → Cut) : O → Buffers → Emitted O Buffers
  | o, [] => ⟨[], o, .ok []⟩
  | o, (slot, p) :: rest =>
    (emitPending obs envelope usageNull slot (cutOf slot) o p).andThen fun o p =>
      (emitBuffers cutOf o rest).andThen fun o rest => ⟨[], o, .ok ((slot, p) :: rest)⟩

end Emit

/-- Ends the stream on the observer's verdict: the text still buffered is dropped and the error
event written. -/
def stop (reason : StreamStop) : Act (Rechunker O) Effect :=
  fun r => ({ r with buffers := [], last := none, stopped := some reason },
    [.wrote (.error reason)])

/-- A pass over the buffers, and the stop it may end in (`drain_ready`, `flush_from`). -/
def emit (cutOf : Slot → Cut) : Act (Rechunker O) Effect := fun r =>
  let pass := emitBuffers obs r.envelope r.usageNull cutOf r.observer r.buffers
  match pass.result with
  | .ok buffers => ({ r with observer := pass.observer, buffers := buffers }, pass.effects)
  | .error reason =>
    let after := stop reason { r with observer := pass.observer }
    (after.1, pass.effects ++ after.2)

def drainReady : Act (Rechunker O) Effect := emit obs readyCut

/-- Emits every buffered slice: the stream moves on. -/
def flush : Act (Rechunker O) Effect := emit obs (fromCut 1 0)

/-- Writes, unless the observer ended the stream. -/
def write (piece : Piece) : Act (Rechunker O) Effect :=
  fun r => (r, if r.stopped.isNone then [.wrote piece] else [])

/-- Writes the buffered text, then the frame as it came. -/
def forward (frame : Bytes) : Act (Rechunker O) Effect := (flush obs).seq (write (.forwarded frame))

/-- Appends text to a buffer, unless the observer ended the stream. -/
def append (slot : Slot) (text : Text) : Act (Rechunker O) Effect := fun r =>
  if r.stopped.isSome then (r, [])
  else ({ r with last := some slot, buffers := r.buffers.push slot text }, [.took slot text])

/-- Text for another buffer flushes the one that received text last. -/
def push (slot : Slot) (text : Text) : Act (Rechunker O) Effect := fun r =>
  if r.last.any fun last => last ≠ slot then (flush obs).seq (append slot text) r
  else append slot text r

/-! ### Events -/

/-- A tool-call entry of a delta. -/
structure ToolCall where
  raw : Raw
  /-- `none` when the entry is not an object. -/
  object : Option RawObject
  function : Option RawObject
  index : Option Nat
  arguments : Option Text

/-- What an event carries besides the text that gets buffered. -/
structure Shape where
  /-- Something later text attaches to: it must be written before that text. -/
  opens : Bool := false
  /-- Something that ends earlier text: it must be written after that text. -/
  closes : Bool := false
  firstRole : Bool := false
  /-- Every tool-call entry was emptied by taking its arguments. -/
  dropToolCalls : Bool := false
  texts : Payload → Option Text := fun _ => none
  toolCalls : List ToolCall := []

def present (value : Option Raw) : Bool := value.any fun raw => !isNull raw

def toolCall (raw : Raw) : ToolCall :=
  let object := serde.parseObject raw
  let function := (object.bind fun object => RawObject.get object "function").bind serde.parseObject
  { raw := raw, object := object, function := function
    index := (object.bind fun object => RawObject.get object "index").bind parseU64
    arguments := (((function.bind fun function => RawObject.get function "arguments").filter
      fun arguments => !isNull arguments).bind serde.parseText).filter fun text => !text.isEmpty }

def ToolCall.identity (call : ToolCall) : Bool :=
  present (call.function.bind fun function => RawObject.get function "name")
    || present (call.object.bind fun object => RawObject.get object "id")

/-- A tool-call entry left with nothing but its index, type, or an emptied function. -/
def ToolCall.isShell (call : ToolCall) : Bool :=
  call.object.any fun object => object.all fun member =>
    isNull member.2 || member.1 == "index" || member.1 == "type"
      || (member.1 == "function" && call.function.any fun function =>
        function.all fun member => isNull member.2 || member.1 == "arguments")

/-- Records the tool-call entries of a delta; false when the array holds something the stage does
not merge. -/
def inspectToolCalls (value : Raw) (shape : Shape) : Bool × Shape :=
  match serde.parseArray value with
  | none => (false, { shape with closes := true })
  | some entries =>
    let calls := entries.map (toolCall serde)
    let shape := { shape with toolCalls := shape.toolCalls ++ calls }
    if calls.any ToolCall.identity then (true, { shape with opens := true })
    else if (calls.all fun call => call.object.isSome) && shape.toolCalls.all ToolCall.isShell then
      (true, { shape with dropToolCalls := true })
    else (false, { shape with closes := true })

/-- A delta being inspected. -/
structure Inspection where
  roleSent : Bool
  shape : Shape
  unknown : Bool := false

def inspectMember (i : Inspection) (member : String × Raw) : Inspection :=
  if isNull member.2 then i
  else if member.1 = "role" then
    if i.roleSent then i
    else { i with roleSent := true, shape := { i.shape with firstRole := true, opens := true } }
  else if member.1 = "tool_calls" then
    let inspected := inspectToolCalls serde member.2 i.shape
    { i with shape := inspected.2, unknown := i.unknown || !inspected.1 }
  else match Payload.ofKey member.1 with
    | some payload =>
      match serde.parseText member.2 with
      | some text =>
        if text.isEmpty then i
        else { i with shape :=
          { i.shape with texts := fun f => if f = payload then some text else i.shape.texts f } }
      | none => { i with unknown := true }
    | none => { i with unknown := true }

/-- Sorts the delta's fields into buffered text and the parts that must be forwarded in order. -/
def inspectDelta (roleSent : Bool) (shape : Shape) (delta : RawObject) : Bool × Shape :=
  let i := delta.foldl (inspectMember serde) { roleSent := roleSent, shape := shape }
  (i.roleSent, if i.unknown then { i.shape with closes := true } else i.shape)

/-- The text an event gives to the buffers, in the order it is pushed. -/
def Shape.pushed (shape : Shape) : List (Slot × Text) :=
  (payloadFields.filterMap fun f => (shape.texts f).map fun text => (.field f, text))
    ++ shape.toolCalls.filterMap fun call =>
      call.arguments.map fun text => (.toolArgs call.index, text)

def pushText (shape : Shape) : Act (Rechunker O) Effect :=
  Act.each (fun text => push obs text.1 text.2) shape.pushed

inductive Variant
  | whole
  /-- The event minus what ends the stream. -/
  | opening
  /-- The event with an empty delta. -/
  | closing
  deriving DecidableEq

def writeFunction (function : RawObject) : List (String × Value) :=
  function.filterMap fun member =>
    if isNull member.2 || (member.1 == "arguments" && isString member.2) then none
    else some (member.1, .raw member.2)

def writeToolCall (call : ToolCall) : Value :=
  match call.object with
  | none => .raw call.raw
  | some object => .object (object.filterMap fun member =>
      if isNull member.2 then none
      else match call.function with
        | some function =>
          if member.1 = "function" then some (member.1, .object (writeFunction function))
          else some (member.1, .raw member.2)
        | none => some (member.1, .raw member.2))

/-- One member of the delta, without the text that was buffered, null fields, repeated roles and
emptied tool-call entries. -/
def writeDeltaMember (shape : Shape) (member : String × Raw) : Option (String × Value) :=
  if isNull member.2 then none
  else if member.1 = "role" ∧ shape.firstRole = false then none
  else if member.1 = "tool_calls" ∧ shape.dropToolCalls then none
  else if member.1 = "tool_calls" ∧ shape.toolCalls ≠ [] then
    some (member.1, .array (shape.toolCalls.map writeToolCall))
  else if (Payload.ofKey member.1).isSome ∧ isString member.2 then none
  else some (member.1, .raw member.2)

def writeDelta (shape : Shape) (delta : RawObject) : List (String × Value) :=
  delta.filterMap (writeDeltaMember shape)

/-- The parts of an event that are written back after its text was taken. -/
structure Structural where
  event : RawObject
  choice : Option RawObject
  delta : Option RawObject
  shape : Shape

def writeChoice (s : Structural) (variant : Variant) (choice : RawObject) : List (String × Value) :=
  choice.map fun member =>
    if member.1 = "delta" ∧ variant = .closing then (member.1, .object [])
    else match s.delta with
      | some delta =>
        if member.1 = "delta" then (member.1, .object (writeDelta s.shape delta))
        else if member.1 = "finish_reason" ∧ variant = .opening then
          (member.1, .raw (ascii "null"))
        else (member.1, .raw member.2)
      | none =>
        if member.1 = "finish_reason" ∧ variant = .opening then (member.1, .raw (ascii "null"))
        else (member.1, .raw member.2)

def writeEvent (s : Structural) (variant : Variant) : List (String × Value) :=
  s.event.filterMap fun member =>
    match s.choice with
    | some choice =>
      if member.1 = "choices" then
        some (member.1, .array [.object (writeChoice s variant choice)])
      else if member.1 = "usage" ∧ variant = .opening ∧ isNull member.2 = false then none
      else some (member.1, .raw member.2)
    | none =>
      if member.1 = "usage" ∧ variant = .opening ∧ isNull member.2 = false then none
      else some (member.1, .raw member.2)

/-- Whether the choice carries a non-null field beyond index, delta and finish_reason. -/
def hasChoiceMetadata (choice : RawObject) : Bool :=
  choice.any fun member =>
    !(member.1 == "index" || member.1 == "delta" || member.1 == "finish_reason")
      && !isNull member.2

/-- Keeps the envelope, and the placeholder flag, in step with the latest event. -/
def updateEnvelope (event : RawObject) (r : Rechunker O) : Rechunker O :=
  let usageNull := event.foldl
    (fun flag member => if member.1 = "usage" then
      (if isNull member.2 then some true else none) else flag) (some false)
  { r with
    envelope := event.filter fun member => member.1 != "choices" && member.1 != "usage"
    usageNull := usageNull.getD r.usageNull }

/-- What `handle_event` reads of an event before it decides. -/
structure Reading where
  choices : List Raw
  choice : Option RawObject
  delta : Option RawObject

def readEvent (event : RawObject) : Reading :=
  let choices := ((RawObject.get event "choices").bind serde.parseArray).getD []
  let choice := choices.head?.bind serde.parseObject
  { choices := choices, choice := choice
    delta := (choice.bind fun choice => RawObject.get choice "delta").bind serde.parseObject }

/-- The event holds more than one choice, or one of a later index. -/
def Reading.severalChoices (reading : Reading) : Bool :=
  reading.choices.length > 1
    || ((reading.choice.bind fun choice => RawObject.get choice "index").bind parseU64).any
      fun index => index ≠ 0

/-- Whether the event ends the text before it, whatever its delta holds. -/
def Reading.closes (reading : Reading) (event : RawObject) : Bool :=
  reading.choice.isNone || reading.delta.isNone || present (RawObject.get event "usage")
    || present (reading.choice.bind fun choice => RawObject.get choice "finish_reason")

def writeAround (s : Structural) : Act (Rechunker O) Effect :=
  match s.shape.opens, s.shape.closes with
  | true, true =>
    (flush obs).seq ((write (.structural (writeEvent s .opening))).seq
      ((pushText obs s.shape).seq ((flush obs).seq
        (write (.structural (writeEvent s .closing))))))
  | true, false =>
    (flush obs).seq ((write (.structural (writeEvent s .whole))).seq
      ((pushText obs s.shape).seq (drainReady obs)))
  | false, true =>
    (pushText obs s.shape).seq ((flush obs).seq (write (.structural (writeEvent s .whole))))
  | false, false => (pushText obs s.shape).seq (drainReady obs)

/-- The event's shape, and whether a role has been sent once it is through. -/
def shapeOf (reading : Reading) (event : RawObject) (roleSent : Bool) : Bool × Shape :=
  let shape : Shape := { closes := reading.closes event }
  match reading.delta with
  | some delta => inspectDelta serde roleSent shape delta
  | none => (roleSent, shape)

def setPassthrough : Act (Rechunker O) Effect := fun r => ({ r with passthrough := true }, [])

def handleEvent (event : RawObject) (frame : Bytes) : Act (Rechunker O) Effect := fun r =>
  let reading := readEvent serde event
  if reading.severalChoices then ((forward obs frame).seq setPassthrough) r
  else if reading.choice.any hasChoiceMetadata then
    -- The metadata describes this event's own text, so the event stays whole.
    let role := present (reading.delta.bind fun delta => RawObject.get delta "role")
    forward obs frame { r with roleSent := r.roleSent || role }
  else
    let inspected := shapeOf serde reading event r.roleSent
    let r := { r with roleSent := inspected.1 }
    let r := if reading.choices.length = 1 then updateEnvelope event r else r
    writeAround obs ⟨event, reading.choice, reading.delta, inspected.2⟩ r

/-! ### Frames -/

inductive Frame
  /-- A frame made of exactly one `data:` line. -/
  | data (data : Bytes)
  /-- A comment or keep-alive: no `data:` line at all. -/
  | comment
  | other

/-- What follows a leading text, if the bytes begin with it. -/
def afterLead (lead bytes : Bytes) : Option Bytes :=
  if lead.isPrefixOf bytes then some (bytes.drop lead.length) else none

def classifyFrame (frame : Bytes) : Frame :=
  let lines := (frame.splitOnP fun b => b == 10 || b == 13).filter fun line => !line.isEmpty
  let datas := lines.filterMap (afterLead (ascii "data:"))
  match datas with
  | [] => .comment
  | [data] =>
    if lines.length = 1 then .data ((afterLead (ascii " ") data).getD data) else .other
  | _ => .other

def handleFrame (frame : Bytes) : Act (Rechunker O) Effect := fun r =>
  match classifyFrame frame with
  | .comment => (r, [.wrote (.forwarded frame)])
  | .other => forward obs frame r
  | .data data =>
    if (ascii "[DONE]").isPrefixOf data then (forward obs frame).seq setPassthrough r
    else match serde.parseObject data with
      | some event => handleEvent serde obs event frame r
      | none => forward obs frame r

/-- The length of the delimiter the bytes begin with: `\r\n\r\n`, `\n\n` or `\r\r`. -/
def delimiter : Bytes → Option Nat
  | 13 :: 10 :: 13 :: 10 :: _ => some 4
  | 10 :: 10 :: _ => some 2
  | 13 :: 13 :: _ => some 2
  | _ => none

/-- Position and length of the first delimiter, positions counted from `i`. -/
def findDelimiter (i : Nat) : Bytes → Option (Nat × Nat)
  | [] => none
  | b :: bs =>
    match delimiter (b :: bs) with
    | some length => some (i, length)
    | none => findDelimiter (i + 1) bs

/-- Position and length of the first frame delimiter at or after `start`. -/
def findFrameEnd (buf : Bytes) (start : Nat) : Option (Nat × Nat) :=
  findDelimiter start (buf.drop start)

/-- Handles every complete frame and returns the unterminated rest; the search for the first
delimiter begins at `start`.  A frame is two bytes at least, so as many rounds as there are bytes
are enough. -/
def consumeFrom : Nat → Bytes → Nat → Rechunker O → (Rechunker O × List Effect) × Bytes
  | 0, input, _, r => ((r, []), input)
  | fuel + 1, input, start, r =>
    match findFrameEnd input start with
    | none => ((r, []), input)
    | some (position, length) =>
      let handled := handleFrame serde obs (input.take (position + length)) r
      let rest := input.drop (position + length)
      if handled.1.stopped.isSome then (handled, [])
      else if handled.1.passthrough then
        ((handled.1, handled.2 ++ [.wrote (.forwarded rest)]), [])
      else
        let others := consumeFrom fuel rest 0 handled.1
        ((others.1.1, handled.2 ++ others.1.2), others.2)

/-- A delimiter is up to four bytes long and may straddle the boundary of what was searched. -/
def consume (input : Bytes) (searched : Nat) (r : Rechunker O) :
    (Rechunker O × List Effect) × Bytes :=
  consumeFrom serde obs input.length input (searched - 3) r

/-! ### Calls -/

/-- An unterminated frame that is too long is forwarded as it comes, and all that follows it. -/
def giveUp : Act (Rechunker O) Effect :=
  (flush obs).seq fun r =>
    if r.stopped.isNone then
      ({ r with partialFrame := [], passthrough := true }, [.wrote (.forwarded r.partialFrame)])
    else (r, [])

/-- The frames a chunk completes; what it leaves unfinished is kept. -/
def feedFrames (chunk : Bytes) : Act (Rechunker O) Effect := fun r =>
  let searched := if r.partialFrame.isEmpty then 0 else r.scanned
  let consumed := consume serde obs (r.partialFrame ++ chunk) searched { r with partialFrame := [] }
  ({ consumed.1.1 with partialFrame := consumed.2 }, consumed.1.2)

def checkPartial : Act (Rechunker O) Effect := fun r =>
  if r.partialFrame.length > maxFrameBytes then giveUp obs r else (r, [])

def setScanned : Act (Rechunker O) Effect :=
  fun r => ({ r with scanned := r.partialFrame.length }, [])

def feed (chunk : Bytes) : Act (Rechunker O) Effect := fun r =>
  if r.stopped.isSome then (r, [])
  else if r.passthrough then (r, [.wrote (.forwarded chunk)])
  else (feedFrames serde obs chunk).seq ((checkPartial obs).seq setScanned) r

/-- Emits the buffered text without waiting for more input, except a short remainder and the tail a
tool call's arguments keep. -/
def flushPending : Act (Rechunker O) Effect := emit obs (fromCut minTailChars minTailChars)

/-- Emits all buffered text, then whatever is left of an unfinished frame. -/
def finish : Act (Rechunker O) Effect :=
  (flush obs).seq fun r =>
    if r.stopped.isNone then
      ({ r with partialFrame := [], scanned := 0, ended := true
                observer := if r.ended then r.observer else obs.end_ r.observer },
        .wrote (.forwarded r.partialFrame) :: if r.ended then [] else [.ended])
    else ({ r with scanned := 0 }, [])

/-- A call of the stage. -/
inductive Call
  | feed (chunk : Bytes)
  | flushPending
  | finish

def Call.act : Call → Act (Rechunker O) Effect
  | .feed chunk => Sse.feed serde obs chunk
  | .flushPending => Sse.flushPending obs
  | .finish => Sse.finish obs

/-- A stage whose slices the observer sees; it is told the stream opened. -/
def withObserver (o : O) : Rechunker O :=
  { partialFrame := [], scanned := 0, envelope := [], usageNull := false, buffers := []
    last := none, roleSent := false, passthrough := false, observer := obs.open_ o
    stopped := none, ended := false }

/-- The stage after some calls, and all they did. -/
def calling (calls : List Call) : Act (Rechunker O) Effect := Act.each (Call.act serde obs) calls

end Stage

end Smg.Sse
