import Smg.Lib.Machine
import Smg.Lib.Utf8Cursor
import Smg.Tokenizer.PatternTree

/-!
# Pre-tokenizer patterns: the program and its matcher

The second half of `pattern.rs`.  A tree is flattened into a list of operations with splits and
jumps (`compile`, which appends operations and fills in their targets afterwards, as the source
does), and a match is a loop over them with an explicit stack of choices (`Pattern.step`).  The
stack is an array of `maxChoices` entries, so a push onto a full stack is a panic; so is an index
outside of the program, of the classes or of the first-character sets.

`Pattern.findIter` collects the matches of a text.  Both of its loops take a bound on their turns
here, and a run that needs more has no answer.  `Node.ranges` is what it is compared with: at every
position the tree is attempted, and the next attempt is at the end of the match, or one character
on.

Targets are `none` where the source has `NO_NEXT`.  A parsed pattern keeps its tree, which the
source drops once the program is compiled.
-/

set_option autoImplicit false

namespace Smg.Tokenizer

open Utf8

/-- One instruction. -/
inductive Op
  | char (cls : Nat)
  | run (cls min max : Nat)
  /-- The next character is not of the class. -/
  | notAhead (cls : Nat)
  /-- What follows is tried first, then `next`; a character outside of the set `first` goes to
  `next` at once. -/
  | split (next : Option Nat) (first : Nat)
  | jump (target : Option Nat)
  | done
  deriving DecidableEq

/-- What is compiled so far. -/
structure Code where
  ops : List Op := []
  /-- The sets that the splits refer to. -/
  firsts : List First := []

namespace Code

def push (code : Code) (op : Op) : Code := { code with ops := code.ops ++ [op] }

/-- A split whose target is not known yet, with its set. -/
def pushSplit (code : Code) (first : First) : Code where
  ops := code.ops ++ [.split none code.firsts.length]
  firsts := code.firsts ++ [first]

def setNext (code : Code) (split next : Nat) : Code :=
  match code.ops[split]? with
  | some (.split _ set) => { code with ops := code.ops.set split (.split (some next) set) }
  | _ => code

/-- The target of all the jumps out of an alternation. -/
def setJumps (code : Code) (jumps : List Nat) (target : Nat) : Code :=
  { code with ops := jumps.foldl (fun ops jump => ops.set jump (.jump (some target))) code.ops }

end Code

namespace Node

section Compile

variable (M : Membership) (classes : List Class)

mutual

def compile : Node → Code → Code
  | .charClass cls, code => code.push (.char cls)
  | .classRepeat cls min max, code => code.push (.run cls min max)
  | .repeatGroup node min max, code =>
    if max = 0 then code
    else if min = 0 then
      let split := code.ops.length
      let code := compile node (code.pushSplit (firstSets M classes node))
      code.setNext split code.ops.length
    else compile node code
  | .concat nodes, code => compileSeq nodes code
  | .alt alternatives, code =>
    let (jumps, code) := compileAlt alternatives none [] code
    code.setJumps jumps code.ops.length
  | .notAhead cls, code => code.push (.notAhead cls)

def compileSeq : List Node → Code → Code
  | [], code => code
  | node :: nodes, code => compileSeq nodes (compile node code)

/-- The alternatives from one on: the split before them, if there is one, leads to the next, and
every alternative but the last ends in a jump. -/
def compileAlt : List Node → (previousSplit : Option Nat) → (jumps : List Nat) → Code →
    List Nat × Code
  | [], _, jumps, code => (jumps, code)
  | node :: nodes, previousSplit, jumps, code =>
    let split := code.ops.length
    let code := previousSplit.elim code fun previous => code.setNext previous split
    let code := compile node (code.pushSplit (firstSets M classes node))
    if nodes.isEmpty then compileAlt nodes (some split) jumps code
    else compileAlt nodes (some split) (jumps ++ [code.ops.length]) (code.push (.jump none))

end

end Compile

end Node

/-- A parsed pattern. -/
structure Pattern where
  root : Node
  classes : List Class
  program : List Op
  firsts : List First

/-- A choice the matcher may come back to. -/
structure Choice where
  pc : Nat
  pos : Nat
  /-- How many characters the run holds. -/
  count : Nat
  deriving DecidableEq

def maxChoices : Nat := 32

namespace Pattern

/-- A pattern from its text, or `none` outside of the subset. -/
def parse (M : Membership) (alphanumeric : Char → Bool) (fuel : Nat) (pattern : Text) :
    Option Pattern := do
  let (root, parser) ← Parser.parseAlternation alphanumeric fuel { chars := pattern }
  if parser.chars ≠ [] then none
  else if root.canMatchEmpty then none
  else if maxChoices < root.choices then none
  else
    let code := (root.compile M parser.classes {}).push .done
    some { root, classes := parser.classes, program := code.ops, firsts := code.firsts }

/-- Where the matcher is. -/
inductive State
  | running (pc pos : Nat) (choices : List Choice)
  /-- On its way back to the latest choice. -/
  | failing (choices : List Choice)

/-- How a match ends. -/
inductive Verdict
  | matched (stop : Nat)
  | unmatched
  | panicked
  deriving DecidableEq

section Matcher

variable (M : Membership) (p : Pattern) (text : Text)

/-- How many characters of the class stand at a position, `left` at most, and where they end. -/
def runEnd (K : Class) : (left count pos : Nat) → Nat × Nat
  | 0, count, pos => (count, pos)
  | left + 1, count, pos =>
    match nextChar text pos with
    | some (c, len) =>
      if M.contains K c then runEnd K left (count + 1) (pos + len) else (count, pos)
    | none => (count, pos)

/-- A choice on the stack, which has `maxChoices` places. -/
def pushChoice (choice : Choice) (choices : List Choice) (next : List Choice → State) :
    State ⊕ Verdict :=
  if choices.length < maxChoices then .inl (next (choice :: choices)) else .inr .panicked

def exec (pc pos : Nat) (choices : List Choice) : Op → State ⊕ Verdict
  | .char cls =>
    match nextChar text pos with
    | none => .inl (.failing choices)
    | some (c, len) =>
      match p.classes[cls]? with
      | none => .inr .panicked
      | some K =>
        if M.contains K c then .inl (.running (pc + 1) (pos + len) choices)
        else .inl (.failing choices)
  | .run cls min max =>
    match p.classes[cls]? with
    | none => .inr .panicked
    | some K =>
      let (count, stop) := runEnd M text K max 0 pos
      if count < min then .inl (.failing choices)
      else pushChoice { pc, pos := stop, count } choices fun choices =>
        .running (pc + 1) stop choices
  | .notAhead cls =>
    match nextChar text pos with
    | none => .inl (.running (pc + 1) pos choices)
    | some (c, _) =>
      match p.classes[cls]? with
      | none => .inr .panicked
      | some K =>
        if M.contains K c then .inl (.failing choices) else .inl (.running (pc + 1) pos choices)
  | .split next first =>
    let excluded : Option Bool :=
      match nextChar text pos with
      | none => some false
      | some (c, _) => (p.firsts[first]?).map fun f => !f.mayStart c
    match excluded, next with
    | none, _ => .inr .panicked
    | some true, none => .inl (.failing choices)
    | some true, some next => .inl (.running next pos choices)
    | some false, none => .inl (.running (pc + 1) pos choices)
    | some false, some _ =>
      pushChoice { pc, pos, count := 0 } choices fun choices => .running (pc + 1) pos choices
  | .jump (some target) => .inl (.running target pos choices)
  | .jump none => .inr .panicked
  | .done => .inr (.matched pos)

/-- Back to a choice: a run gives back one character, a split goes its other way. -/
def resume (choice : Choice) (choices : List Choice) : Op → State ⊕ Verdict
  | .run _ min _ =>
    if min < choice.count then
      let pos := previousBoundary text choice.pos
      .inl (.running (choice.pc + 1) pos
        ({ choice with pos, count := choice.count - 1 } :: choices))
    else .inl (.failing choices)
  | .split (some next) _ => .inl (.running next choice.pos choices)
  | .split none _ => .inr .panicked
  | _ => .inl (.failing choices)

def step : State → State ⊕ Verdict
  | .running pc pos choices =>
    match p.program[pc]? with
    | some op => exec M p text pc pos choices op
    | none => .inr .panicked
  | .failing [] => .inr .unmatched
  | .failing (choice :: choices) =>
    match p.program[choice.pc]? with
    | some op => resume text choice choices op
    | none => .inr .panicked

/-- How the match that starts exactly at a position ends. -/
def matchAt (fuel pos : Nat) : Option Verdict :=
  Machine.runFor (step M p text) fuel (.running 0 pos [])

/-- The matches from a position on, leftmost first. -/
def findFrom (fuel : Nat) : (turns pos : Nat) → Option (List (Nat × Nat))
  | 0, _ => none
  | turns + 1, start =>
    if start < (encode text).length then
      match matchAt M p text fuel start with
      | none | some .panicked => none
      | some (.matched stop) =>
        if start < stop then (findFrom fuel turns stop).map ((start, stop) :: ·)
        else onward fuel turns start
      | some .unmatched => onward fuel turns start
    else some []
where
  /-- No match starts here: on by one character. -/
  onward (fuel turns start : Nat) : Option (List (Nat × Nat)) :=
    match nextChar text start with
    | some (_, len) => findFrom fuel turns (start + len)
    | none => some []

def findIter (fuel : Nat) : Option (List (Nat × Nat)) := findFrom M p text fuel fuel 0

end Matcher

end Pattern

/-! ## What the program is compared with -/

/-- The ranges of a text at which `find` matches, scanned from the left: on to the end of a match,
or by one character where there is none. -/
def scan (find : Text → Option Text) (text : Text) : (turns : Nat) → Text → List (Nat × Nat)
  | 0, _ => []
  | _ + 1, [] => []
  | turns + 1, c :: rest =>
    match find (c :: rest) with
    | some after =>
      (offset text (c :: rest), offset text after) :: scan find text turns after
    | none => scan find text turns rest

def Node.ranges (M : Membership) (classes : List Class) (node : Node) (text : Text) :
    List (Nat × Nat) :=
  scan (fun s => node.attempt M classes s some) text text.length text

end Smg.Tokenizer
