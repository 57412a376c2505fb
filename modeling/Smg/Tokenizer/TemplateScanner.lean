import Smg.Tokenizer.PatternProgram
import Smg.Tokenizer.ScanRoles

/-!
# The template scanner

The `Scanner` of `pattern.rs`, which stands in for the program when a pattern has the shape of the
GPT-4 family's template, with whatever classes, clitics and digit bound.  Each of the template's
seven alternatives is decided at a position by a few class tests and class runs.

Alternatives three to seven (digits, punctuation, whitespace ending in line breaks, whitespace
before a non-space, whitespace) are those of the cased-letter template too, word for word, so they
stand here once: `Tail` is their classes, `tailMatch` their scanner.  A role of the tail is one bit
at its place behind the roles that come before it, `base` many.

What the scanners find is said in characters in `Smg.Tokenizer.ScannerTail`.
-/

set_option autoImplicit false

namespace Smg.Tokenizer

open Backtrack Utf8

/-! ## Shapes -/

/-- The class of a node that is one character of a class. -/
def plainClass : Node → Option Nat
  | .charClass cls => some cls
  | _ => none

/-- The class of a node that is a run of `min` to `max` characters of one class. -/
def repeatClass (min max : Nat) : Node → Option Nat
  | .classRepeat cls min' max' => if min' = min ∧ max' = max then some cls else none
  | _ => none

/-- The classes of a clitic's characters in order. -/
def cliticClasses : Node → Option (List Nat)
  | .charClass cls => some [cls]
  | .concat nodes => nodes.mapM plainClass
  | _ => none

/-- The class of the digit rule, and the most digits it takes at once. -/
def digitRule : Node → Option (Nat × Nat)
  | .charClass cls => some (cls, 1)
  | .classRepeat cls 1 max => some (cls, max)
  | _ => none

/-- The roles of the alternatives that both templates end in. -/
inductive TailRole
  /-- A digit, up to the digit cap at once. -/
  | digit
  /-- The optional space before a punctuation run. -/
  | punctLead
  | punct
  /-- The run after a punctuation run. -/
  | punctBreak
  /-- The whitespace before line breaks. -/
  | breakSpace
  | lineBreak
  /-- Whitespace that leaves its last character to what follows. -/
  | trailSpace
  /-- What may not follow that whitespace. -/
  | notTrail
  | space
  deriving DecidableEq

namespace TailRole

def index : TailRole → Nat
  | digit => 0
  | punctLead => 1
  | punct => 2
  | punctBreak => 3
  | breakSpace => 4
  | lineBreak => 5
  | trailSpace => 6
  | notTrail => 7
  | space => 8

def all : List TailRole :=
  [digit, punctLead, punct, punctBreak, breakSpace, lineBreak, trailSpace, notTrail, space]

theorem all_index (r : TailRole) : all[r.index]? = some r := by
  cases r <;> rfl

/-- The bit of a role behind `base` others. -/
def bit (base : Nat) (r : TailRole) : Bits := 1 <<< (base + r.index)

end TailRole

/-- The classes of the tail, by their roles, and the digit cap. -/
structure Tail where
  cls : TailRole → Nat
  digitCap : Nat

namespace Tail

/-- The classes of the tail's alternatives, if they have its shape. -/
def recognize : (digits punct breaks trail space : Node) → Option Tail
  | digits, .concat [punctLead, punctRun, punctBreak], .concat [breakSpace, breakRun],
      .concat [trailSpace, .notAhead notTrail], space => do
    let (digit, digitCap) ← digitRule digits
    let punctLead ← repeatClass 0 1 punctLead
    let punct ← repeatClass 1 unbounded punctRun
    let punctBreak ← repeatClass 0 unbounded punctBreak
    let breakSpace ← repeatClass 0 unbounded breakSpace
    let lineBreak ← repeatClass 1 unbounded breakRun
    let trailSpace ← repeatClass 1 unbounded trailSpace
    let space ← repeatClass 1 unbounded space
    let cls : TailRole → Nat := fun
      | .digit => digit
      | .punctLead => punctLead
      | .punct => punct
      | .punctBreak => punctBreak
      | .breakSpace => breakSpace
      | .lineBreak => lineBreak
      | .trailSpace => trailSpace
      | .notTrail => notTrail
      | .space => space
    some { cls, digitCap }
  | _, _, _, _, _ => none

end Tail

/-! ## Clitics -/

section Clitics

variable (M : Membership) (classes : List Class)

/-- Whether a clitic may begin with an ASCII character. -/
def cliticStart (clitics : List (List Nat)) (code : Nat) : Bool :=
  clitics.any fun alternative => alternative.head?.any fun cls =>
    Node.holds M classes cls (Char.ofNat code)

def cliticBeyondAscii (clitics : List (List Nat)) : Bool :=
  clitics.any fun alternative => alternative.head?.any fun cls =>
    (classes[cls]?).any Class.mayHoldBeyondAscii

/-- Where the characters of a clitic end, if they follow. -/
def cliticEnd (text : Text) : (alternative : List Nat) → (pos : Nat) → Option Nat
  | [], pos => some pos
  | cls :: alternative, pos =>
    match nextChar text pos with
    | some (c, len) =>
      if Node.holds M classes cls c then cliticEnd text alternative (pos + len) else none
    | none => none

def cliticMatch (text : Text) (pos : Nat) (clitics : List (List Nat)) : Option Nat :=
  clitics.findSome? fun alternative => cliticEnd M classes text alternative pos

/-- Whether a clitic may begin with the character at a position, by its first byte. -/
def mayStartClitic (text : Text) (pos : Nat) (clitics : List (List Nat)) : Bool :=
  ((encode text)[pos]?).any fun byte =>
    if byte < 0x80 then cliticStart M classes clitics byte.toNat
    else cliticBeyondAscii classes clitics

end Clitics

/-! ## The tail -/

namespace Roles

section Tail

variable (M : Membership) (R : Roles) (text : Text)

/-- The end of a run of at least one character with a bit. -/
def plusEnd (pos : Nat) (bit : Bits) : Option Nat :=
  match R.bitsAt M text pos with
  | some (bits, len) => if bits.has bit then some (R.runEnd M text (pos + len) bit) else none
  | none => none

/-- The end of a run of at most `left` characters with a bit. -/
def cappedEnd (bit : Bits) : (left pos : Nat) → Nat
  | 0, pos => pos
  | left + 1, pos =>
    match R.bitsAt M text pos with
    | some (bits, len) => if bits.has bit then cappedEnd bit left (pos + len) else pos
    | none => pos

/-- The last position at which a line break stands, in the run of whitespace or right after it. -/
def lastBreakFrom (base : Nat) : (turns pos : Nat) → (last : Option Nat) → Option Nat
  | 0, _, last => last
  | turns + 1, pos, last =>
    match R.bitsAt M text pos with
    | some (bits, len) =>
      if bits.has (TailRole.bit base .breakSpace) then
        lastBreakFrom base turns (pos + len)
          (if bits.has (TailRole.bit base .lineBreak) then some pos else last)
      else if bits.has (TailRole.bit base .lineBreak) then some pos
      else last
    | none => last

def blocked (base pos : Nat) : Bool :=
  match R.bitsAt M text pos with
  | some (bits, _) => bits.has (TailRole.bit base .notTrail)
  | none => false

/-- The run of whitespace gives back its last character while a non-space follows, down to one. -/
def trailFrom (base start : Nat) : (turns stop : Nat) → Option Nat
  | 0, _ => none
  | turns + 1, stop =>
    if R.blocked M text base stop then
      let shorter := previousBoundary text stop
      if shorter = start then none else trailFrom base start turns shorter
    else some stop

/-! The alternatives at a position whose character has the bits `c` and ends at `after`. -/

def digitMatch (base digitCap : Nat) (c : Bits) (after : Nat) : Option Nat :=
  if c.has (TailRole.bit base .digit) then
    some (R.cappedEnd M text (TailRole.bit base .digit) (digitCap - 1) after)
  else none

/-- A punctuation run, with the space when punctuation follows it, and the run after it. -/
def punctMatch (base pos : Nat) (c : Bits) (after : Nat) : Option Nat :=
  let withLead :=
    if c.has (TailRole.bit base .punctLead) then R.plusEnd M text after (TailRole.bit base .punct)
    else none
  (withLead.or (R.plusEnd M text pos (TailRole.bit base .punct))).map fun stop =>
    R.runEnd M text stop (TailRole.bit base .punctBreak)

def breakMatch (base pos : Nat) : Option Nat :=
  (R.lastBreakFrom M text base (encode text).length pos none).map fun start =>
    R.runEnd M text start (TailRole.bit base .lineBreak)

def trailMatch (base pos : Nat) (c : Bits) (after : Nat) : Option Nat :=
  if c.has (TailRole.bit base .trailSpace) then
    R.trailFrom M text base pos (encode text).length
      (R.runEnd M text after (TailRole.bit base .trailSpace))
  else none

def tailMatch (base digitCap pos : Nat) (c : Bits) (after : Nat) : Option Nat :=
  (R.digitMatch M text base digitCap c after).or <|
  (R.punctMatch M text base pos c after).or <|
  (R.breakMatch M text base pos).or <|
  (R.trailMatch M text base pos c after).or <|
  R.plusEnd M text pos (TailRole.bit base .space)

end Tail

end Roles

/-! ## The scanner -/

namespace Template

/-- The bit of the optional lead-in of a letter run. -/
def wordLead : Bits := 1 <<< 0

def word : Bits := 1 <<< 1

def tailBase : Nat := 2

/-- The scanner of a template. -/
structure Scanner where
  roles : Roles
  /-- The clitics, each the classes of its characters in order. -/
  clitics : List (List Nat)
  digitCap : Nat

namespace Scanner

variable (M : Membership) (classes : List Class)

def recognize : Node → Option Scanner
  | .alt [.alt clitics, .concat [lead, run], digits, punct, breaks, trail, space] => do
    let clitics ← clitics.mapM cliticClasses
    if clitics.any List.isEmpty then none
    else
      let lead ← repeatClass 0 1 lead
      let run ← repeatClass 1 unbounded run
      let tail ← Tail.recognize digits punct breaks trail space
      let roleClasses ← (lead :: run :: TailRole.all.map tail.cls).mapM fun cls => classes[cls]?
      some { roles := Roles.build M roleClasses, clitics, digitCap := tail.digitCap }
  | _ => none

/-- The end of the piece that starts at a position: the first of the seven alternatives that matches
there. -/
def matchAt (sc : Scanner) (text : Text) (pos : Nat) : Option Nat :=
  match sc.roles.bitsAt M text pos with
  | none => none
  | some (c, len) =>
    let after := pos + len
    let clitic :=
      if mayStartClitic M classes text pos sc.clitics then cliticMatch M classes text pos sc.clitics
      else none
    let withLead := if c.has wordLead then sc.roles.plusEnd M text after word else none
    clitic.or <| withLead.or <| (sc.roles.plusEnd M text pos word).or <|
      sc.roles.tailMatch M text tailBase sc.digitCap pos c after

end Scanner

end Template

end Smg.Tokenizer
