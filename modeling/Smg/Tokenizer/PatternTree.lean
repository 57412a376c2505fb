import Smg.Lib.Bisect
import Mathlib.Algebra.Ring.Nat
import Mathlib.Data.List.Sort
import Smg.Lib.Backtrack
import Smg.Tokenizer.StopDecoder

/-!
# Pre-tokenizer patterns: classes, trees and the parser

The first half of `pattern.rs`: character classes, the tree a pattern is parsed into, and the
recursive-descent parser that declines everything outside of its subset.  What a tree matches is
said by the matchers of `Smg.Lib.Backtrack`, tried in the order in which an engine that backtracks
tries them.

Membership of a character in a class is given: a `Membership` answers it for every class, and all
that is required of it is that a class with nothing beyond ASCII in it holds nothing beyond ASCII.
`Class.membership` is the source's own, over any category tables.

Numbers of repetitions are `u32` in the source, and `u32::MAX` stands for "no bound"; here they are
natural numbers below `2 ^ 32`.  A class is an index into the pattern's list of classes.  The sets
of first characters, which the source stores in the tree once the classes are final, are computed
where they are used.  The parser recurses on the nesting of groups, so it is given a bound on its
depth.
-/

set_option autoImplicit false

namespace Smg.Tokenizer

open Backtrack Option

/-! ## Classes -/

/-- A set of characters: categories, ranges of code points, a negation. -/
structure Class where
  negated : Bool := false
  categories : UInt16 := 0
  ranges : List (Nat × Nat) := []
  /-- Categories taken out of the class before any negation. -/
  without : UInt16 := 0
  deriving DecidableEq, Inhabited

namespace Class

/-- Whether the class may hold a character beyond ASCII. -/
def mayHoldBeyondAscii (K : Class) : Bool :=
  K.negated || K.categories != 0 || K.ranges.any fun r => decide (128 ≤ r.2)

end Class

/-- An answer to which characters a class holds. -/
structure Membership where
  contains : Class → Char → Bool
  /-- A class without anything beyond ASCII holds nothing there. -/
  beyond : ∀ K c, contains K c = true → 128 ≤ c.toNat → K.mayHoldBeyondAscii = true

namespace Class

/-- The tables of the categories, each with its bit. -/
abbrev Tables := List (UInt16 × List (Nat × Nat))

/-- Whether a code point is in a sorted list of ranges. -/
def inRanges (ranges : List (Nat × Nat)) (code : Nat) : Bool :=
  (ranges[partitionPoint (fun r => decide (r.2 < code)) ranges]?).any fun r => decide (r.1 ≤ code)

def inCategories (tables : Tables) (categories : UInt16) (code : Nat) : Bool :=
  tables.any fun t => categories &&& t.1 != 0 && inRanges t.2 code

/-- Membership by search, which fills the ASCII table and serves above the plane. -/
def containsSlow (tables : Tables) (K : Class) (code : Nat) : Bool :=
  let hit := inRanges K.ranges code
  let hit := if !hit && K.categories != 0 then inCategories tables K.categories code else hit
  let hit := if hit && K.without != 0 then !inCategories tables K.without code else hit
  hit != K.negated

/-- Whether one of the ranges covers the code point. -/
def covers (ranges : List (Nat × Nat)) (code : Nat) : Bool :=
  ranges.any fun r => decide (r.1 ≤ code) && decide (code ≤ r.2)

/-- Membership in the bitmap of the Basic Multilingual Plane. -/
def planeContains (tables : Tables) (K : Class) (code : Nat) : Bool :=
  let inTables (categories : UInt16) :=
    tables.any fun t => categories &&& t.1 != 0 && covers t.2 code
  ((covers K.ranges code || inTables K.categories) && !inTables K.without) != K.negated

def contains (tables : Tables) (K : Class) (c : Char) : Bool :=
  let code := c.toNat
  if 128 ≤ code && decide (code < 0x10000) then planeContains tables K code
  else containsSlow tables K code

theorem inRanges_eq_false {ranges : List (Nat × Nat)} {code : Nat}
    (h : ∀ r ∈ ranges, r.2 < code) : inRanges ranges code = false := by
  have hlen : partitionPoint (fun r => decide (r.2 < code)) ranges = ranges.length := by
    refine partitionPoint_eq fun i => ?_
    by_cases hi : i < ranges.length
    · simp [hi, h _ (List.getElem_mem hi)]
    · simp [hi]
  rw [inRanges, hlen, List.getElem?_eq_none (le_refl _)]
  rfl

theorem covers_eq_false {ranges : List (Nat × Nat)} {code : Nat}
    (h : ∀ r ∈ ranges, r.2 < code) : covers ranges code = false := by
  rw [covers, List.any_eq_false]
  intro r hr
  have := h r hr
  simp only [Bool.and_eq_true, decide_eq_true_eq]
  omega

def membership (tables : Tables) : Membership where
  contains := contains tables
  beyond K c hc hcode := by
    by_contra hno
    obtain ⟨hcat, hranges⟩ := Bool.or_eq_false_iff.mp (Bool.not_eq_true _ ▸ hno)
    obtain ⟨hneg, hcat⟩ := Bool.or_eq_false_iff.mp hcat
    have hbelow : ∀ r ∈ K.ranges, r.2 < c.toNat := by
      intro r hr
      have := List.any_eq_false.mp hranges r hr
      simp only [decide_eq_true_eq, not_le] at this
      omega
    have hzero : K.categories = 0 := by simpa using hcat
    simp [contains, planeContains, containsSlow, inRanges_eq_false hbelow, covers_eq_false hbelow,
      hneg, hzero] at hc

end Class

/-! ## First characters -/

/-- The characters a match of a node can begin with: exact below U+0080, one bit for the rest, and
whether the node can match without reading a character. -/
structure First where
  ascii : Nat → Bool := fun _ => false
  nonAscii : Bool := false
  nullable : Bool := false

namespace First

/-- Whether the character is in the set, the empty match set aside. -/
def holds (f : First) (c : Char) : Bool :=
  if c.toNat < 128 then f.ascii c.toNat else f.nonAscii

def mayStart (f : First) (c : Char) : Bool := f.nullable || f.holds c

/-- The set of a node followed by another: the other widens it only if the node can match empty. -/
def andThen (f next : First) : First :=
  if f.nullable then
    { ascii := fun n => f.ascii n || next.ascii n
      nonAscii := f.nonAscii || next.nonAscii
      nullable := next.nullable }
  else f

def or (f other : First) : First where
  ascii n := f.ascii n || other.ascii n
  nonAscii := f.nonAscii || other.nonAscii
  nullable := f.nullable || other.nullable

end First

/-- The characters a class may hold, as the beginning of a match. -/
def Class.first (M : Membership) (K : Class) : First where
  ascii n := M.contains K (Char.ofNat n)
  nonAscii := K.mayHoldBeyondAscii
  nullable := false

/-! ## Trees -/

/-- A parsed pattern.  A class is an index. -/
inductive Node
  | charClass (cls : Nat)
  /-- Greedy repetition of one character of the class. -/
  | classRepeat (cls min max : Nat)
  /-- Greedy repetition of a group. -/
  | repeatGroup (node : Node) (min max : Nat)
  | concat (nodes : List Node)
  /-- Alternatives, tried in order. -/
  | alt (alternatives : List Node)
  /-- The next character is not of the class. -/
  | notAhead (cls : Nat)

namespace Node

/-- Whether the class at an index holds a character. -/
def holds (M : Membership) (classes : List Class) (cls : Nat) (c : Char) : Bool :=
  (classes[cls]?).any fun K => M.contains K c

section Attempt

variable {ρ : Type} (M : Membership) (classes : List Class)

mutual

/-- **What a tree matches**: every way of the tree is offered to the continuation, leftmost
alternative and longest repetition first. -/
def attempt : Node → Matcher Char ρ
  | .charClass cls => single (holds M classes cls)
  | .classRepeat cls min max => greedy (single (holds M classes cls)) min max
  | .repeatGroup node min max => greedy (attempt node) min max
  | .concat nodes => attemptSeq nodes
  | .alt alternatives => attemptAlt alternatives
  | .notAhead cls => Backtrack.notAhead (holds M classes cls)

/-- The nodes of a sequence, one after the other. -/
def attemptSeq : List Node → Matcher Char ρ
  | [] => fun s k => k s
  | node :: nodes => fun s k => attempt node s fun s' => attemptSeq nodes s' k

/-- The first alternative that lets the rest match. -/
def attemptAlt : List Node → Matcher Char ρ
  | [] => fun _ _ => none
  | node :: nodes => fun s k => (attempt node s k).or (attemptAlt nodes s k)

end

end Attempt

mutual

def canMatchEmpty : Node → Bool
  | .charClass _ => false
  | .classRepeat _ min _ => min == 0
  | .repeatGroup node min _ => min == 0 || canMatchEmpty node
  | .concat nodes => allCanMatchEmpty nodes
  | .alt alternatives => anyCanMatchEmpty alternatives
  | .notAhead _ => true

def allCanMatchEmpty : List Node → Bool
  | [] => true
  | node :: nodes => canMatchEmpty node && allCanMatchEmpty nodes

def anyCanMatchEmpty : List Node → Bool
  | [] => false
  | node :: nodes => canMatchEmpty node || anyCanMatchEmpty nodes

end

mutual

/-- The most choices a match of the node can hold at once. -/
def choices : Node → Nat
  | .charClass _ | .notAhead _ => 0
  | .classRepeat _ _ _ => 1
  | .repeatGroup node _ max => if max = 0 then 0 else 1 + choices node
  | .concat nodes => sumChoices nodes
  | .alt alternatives => 1 + maxChoices alternatives

def sumChoices : List Node → Nat
  | [] => 0
  | node :: nodes => choices node + sumChoices nodes

def maxChoices : List Node → Nat
  | [] => 0
  | node :: nodes => max (choices node) (maxChoices nodes)

end

def classFirst (M : Membership) (classes : List Class) (cls : Nat) : First :=
  match classes[cls]? with
  | some K => K.first M
  | none => {}

mutual

/-- The characters a match of the node can begin with. -/
def firstSets (M : Membership) (classes : List Class) : Node → First
  | .charClass cls => classFirst M classes cls
  | .classRepeat cls min _ => { classFirst M classes cls with nullable := min == 0 }
  | .repeatGroup node min _ =>
    let first := firstSets M classes node
    { first with nullable := min == 0 || first.nullable }
  | .concat nodes => firstSeq M classes nodes { nullable := true }
  | .alt alternatives => firstAlt M classes alternatives {}
  | .notAhead _ => { nullable := true }

/-- The set of a sequence, behind a part of it whose set is `first`. -/
def firstSeq (M : Membership) (classes : List Class) : List Node → First → First
  | [], first => first
  | node :: nodes, first => firstSeq M classes nodes (first.andThen (firstSets M classes node))

def firstAlt (M : Membership) (classes : List Class) : List Node → First → First
  | [], all => all
  | node :: nodes, all => firstAlt M classes nodes (all.or (firstSets M classes node))

end

end Node

/-! ## The parser -/

/-- No bound on a repetition: `u32::MAX`. -/
def unbounded : Nat := 2 ^ 32 - 1

/-- The bit of whitespace, the one category with an escape of its own. -/
def catSpace : UInt16 := 1024

def category : List Char → Option UInt16
  | ['L'] => some 1
  | ['M'] => some 2
  | ['N'] => some 4
  | ['P'] => some 8
  | ['S'] => some 16
  | ['L', 'u'] => some 32
  | ['L', 'l'] => some 64
  | ['L', 't'] => some 128
  | ['L', 'm'] => some 256
  | ['L', 'o'] => some 512
  | ['H', 'a', 'n'] => some 2048
  | _ => none

/-- Pairs of letters that are the full case folding of one character. -/
def multiCharacterFolds : List (Char × Char) :=
  [('s', 's'), ('s', 't'), ('f', 'f'), ('f', 'i'), ('f', 'l')]

/-- What else folds together with an ASCII letter. -/
def foldExtra : Char → List Char
  | 'k' => ['\u212a']
  | 's' => ['\u017f']
  | _ => []

/-- What is left to read, the classes so far, and whether a group `(?i:` is open. -/
structure Parser where
  chars : List Char
  classes : List Class := []
  caseInsensitive : Bool := false

namespace Parser

section

/-! Whether a character is alphanumeric is for the standard library to say: it is a parameter. -/

variable (alphanumeric : Char → Bool)

/-- The character an escape stands for, when it is a plain literal escape. -/
def escapedLiteral : Char → Option Char
  | 'r' => some '\r'
  | 'n' => some '\n'
  | 't' => some '\t'
  | 'f' => some '\x0c'
  | 'v' => some '\x0b'
  | 'e' => some '\x1b'
  | 'a' => some '\x07'
  | c => if alphanumeric c then none else some c

def propertyName : List Char → Option (List Char × List Char)
  | [] => none
  | '\x7d' :: chars => some ([], chars)
  | c :: chars => (propertyName chars).map fun (name, rest) => (c :: name, rest)

def parseProperty : List Char → Option (UInt16 × List Char)
  | '\x7b' :: chars => do
    let (name, chars) ← propertyName chars
    let bit ← category name
    some (bit, chars)
  | _ => none

/-- An escape outside of a class, as a class of its own. -/
def parseEscapeAsClass : List Char → Option (Class × List Char)
  | [] => none
  | 'p' :: chars => do
    let (bit, chars) ← parseProperty chars
    some ({ categories := bit }, chars)
  | 'P' :: chars => do
    let (bit, chars) ← parseProperty chars
    some ({ categories := bit, negated := true }, chars)
  | 's' :: chars => some ({ categories := catSpace }, chars)
  | 'S' :: chars => some ({ categories := catSpace, negated := true }, chars)
  | other :: chars => do
    let c ← escapedLiteral alphanumeric other
    some ({ ranges := [(c.toNat, c.toNat)] }, chars)

/-- The properties an intersection takes out of a class, after its opening `[^`. -/
def subtractedProperties : (fuel : Nat) → UInt16 → List Char → Option (UInt16 × List Char)
  | 0, _, _ => none
  | _ + 1, categories, ']' :: chars => if categories != 0 then some (categories, chars) else none
  | fuel + 1, categories, '\\' :: 'p' :: chars => do
    let (bit, chars) ← parseProperty chars
    subtractedProperties fuel (categories ||| bit) chars
  | _ + 1, _, _ => none

/-- The ranges that an item of a class body begins: the item, or a range up to another. -/
def rangeFrom (item : Char) : List Char → Option (List (Nat × Nat) × List Char)
  | '-' :: chars =>
    match chars with
    | [] => none
    | ']' :: _ => some ([(item.toNat, item.toNat), ('-'.toNat, '-'.toNat)], chars)
    | '\\' :: rest =>
      match rest with
      | [] => none
      | other :: rest =>
        if other ∈ ['p', 's', 'P', 'S'] then none
        else do
          let last ← escapedLiteral alphanumeric other
          if last < item then none else some ([(item.toNat, last.toNat)], rest)
    | last :: rest =>
      if last = '[' ∨ last < item then none else some ([(item.toNat, last.toNat)], rest)
  | chars => some ([(item.toNat, item.toNat)], chars)

/-- The order of `sort_unstable` on pairs. -/
def pairLe (r r' : Nat × Nat) : Bool := r.1 < r'.1 || (r.1 == r'.1 && r.2 ≤ r'.2)

def sorted (K : Class) : Class :=
  { K with ranges := K.ranges.insertionSort fun r r' => pairLe r r' }

/-- The body of `[...]` from an item on. -/
def classItems : (fuel : Nat) → Class → (first : Bool) → List Char → Option (Class × List Char)
  | 0, _, _, _ => none
  | _ + 1, _, _, [] => none
  | fuel + 1, K, first, c :: chars =>
    let add (item : Char) (chars : List Char) : Option (Class × List Char) := do
      let (ranges, chars) ← rangeFrom alphanumeric item chars
      classItems fuel { K with ranges := K.ranges ++ ranges } false chars
    if c = ']' ∧ first = false then some (sorted K, chars)
    else if c = '\\' then
      match chars with
      | [] => none
      | 'p' :: chars => do
        let (bit, chars) ← parseProperty chars
        classItems fuel { K with categories := K.categories ||| bit } false chars
      | 's' :: chars =>
        classItems fuel { K with categories := K.categories ||| catSpace } false chars
      | other :: chars =>
        if other ∈ ['P', 'S', 'd', 'D', 'w', 'W', 'h', 'H'] then none
        else do
          let item ← escapedLiteral alphanumeric other
          add item chars
    else if c = '&' ∧ chars.head? = some '&' then
      if first then none
      else
        match chars.tail with
        | '[' :: '^' :: chars => do
          let (without, chars) ← subtractedProperties fuel 0 chars
          match chars with
          | ']' :: chars => some (sorted { K with without }, chars)
          | _ => none
        | _ => none
    else if c = '[' then none
    else add c chars

/-- The body of `[...]`, after the opening bracket. -/
def parseClassBody (fuel : Nat) : List Char → Option (Class × List Char)
  | '^' :: chars => classItems alphanumeric fuel { negated := true } true chars
  | chars => classItems alphanumeric fuel {} true chars

/-- The class of a lookahead, after its opening character. -/
def parseAhead (fuel : Nat) (opening : Char) (chars : List Char) : Option (Class × List Char) :=
  if opening = '\\' then parseEscapeAsClass alphanumeric chars
  else if opening = '[' then parseClassBody alphanumeric fuel chars
  else none

/-- The class of a literal: itself, or inside `(?i:` every character that folds together with it. -/
def literalClass (caseInsensitive : Bool) (c : Char) : Class :=
  if caseInsensitive && c.isAlpha then
    let lower := c.toLower
    sorted { ranges := (lower :: c.toUpper :: foldExtra lower).map fun e => (e.toNat, e.toNat) }
  else { ranges := [(c.toNat, c.toNat)] }

/-- The class added to the pattern's, under the next index. -/
def addClass (p : Parser) (K : Class) : Nat × Parser :=
  (p.classes.length, { p with classes := p.classes ++ [K] })

/-- A decimal number that fits `u32`. -/
def parseNumber (chars : List Char) : Option (Nat × List Char) :=
  let digits := chars.takeWhile Char.isDigit
  let value := digits.foldl (fun n d => 10 * n + (d.toNat - '0'.toNat)) 0
  if digits = [] ∨ 2 ^ 32 ≤ value then none else some (value, chars.dropWhile Char.isDigit)

/-- A node with a quantifier: a repetition of one class, or a group with at most one repetition. -/
def quantified (p : Parser) (atom : Node) (min max : Nat) : Option (Node × Parser) :=
  -- lazy and possessive forms are declined
  if p.chars.head? = some '?' ∨ p.chars.head? = some '+' then none
  else
    match atom with
    | .charClass cls => some (.classRepeat cls min max, p)
    | .notAhead _ => none
    | node => if 1 < max then none else some (.repeatGroup node min max, p)

/-- The upper bound of a quantifier in braces, after the lower one. -/
def parseMax (min : Nat) : List Char → Option (Nat × List Char)
  | '\x7d' :: chars => some (min, chars)
  | ',' :: chars => if chars.head? = some '\x7d' then some (unbounded, chars) else parseNumber chars
  | _ => none

/-- The closing brace of `{m,n}`, which is read only when the bounds differ. -/
def closeBounds (min max : Nat) : List Char → Option (List Char)
  | '\x7d' :: chars => if max = min then some ('\x7d' :: chars) else some chars
  | chars => if max = min then some chars else none

/-- The braces of a quantifier, after the opening one. -/
def parseBounds (chars : List Char) : Option ((Nat × Nat) × List Char) := do
  let (min, chars) ← parseNumber chars
  let (max, chars) ← parseMax min chars
  let chars ← closeBounds min max chars
  if max < min then none else some ((min, max), chars)

def alternation : List Node → Node
  | [node] => node
  | nodes => .alt nodes

def sequence : List Node → Node
  | [node] => node
  | nodes => .concat nodes

mutual

def parseAlternation : (fuel : Nat) → Parser → Option (Node × Parser)
  | 0, _ => none
  | fuel + 1, p => do
    let (node, p) ← parseConcat fuel p
    parseAlternatives fuel [node] p

/-- The alternatives that follow those already read. -/
def parseAlternatives : (fuel : Nat) → List Node → Parser → Option (Node × Parser)
  | 0, _, _ => none
  | fuel + 1, alternatives, p =>
    match p.chars with
    | '|' :: chars => do
      let (node, p) ← parseConcat fuel { p with chars }
      parseAlternatives fuel (alternatives ++ [node]) p
    | _ => some (alternation alternatives, p)

def parseConcat : (fuel : Nat) → Parser → Option (Node × Parser)
  | 0, _ => none
  | fuel + 1, p => parseNodes fuel [] none p

/-- The nodes of a sequence that follow those already read, the last of them a folded letter. -/
def parseNodes : (fuel : Nat) → List Node → (previousLetter : Option Char) → Parser →
    Option (Node × Parser)
  | 0, _, _, _ => none
  | fuel + 1, nodes, previousLetter, p =>
    match p.chars with
    | c :: _ =>
      if c = '|' ∨ c = ')' then some (sequence nodes, p)
      else do
        let (node, p) ← parseQuantified fuel p
        let isClass := match node with | .charClass _ => true | _ => false
        let letter := if p.caseInsensitive && c.isAlpha && isClass then some c.toLower else none
        match previousLetter, letter with
        | some first, some second =>
          if (first, second) ∈ multiCharacterFolds then none
          else parseNodes fuel (nodes ++ [node]) letter p
        | _, _ => parseNodes fuel (nodes ++ [node]) letter p
    | [] => some (sequence nodes, p)

def parseQuantified : (fuel : Nat) → Parser → Option (Node × Parser)
  | 0, _ => none
  | fuel + 1, p => do
    let (atom, p) ← parseAtom fuel p
    match p.chars with
    | '?' :: chars => quantified { p with chars } atom 0 1
    | '*' :: chars => quantified { p with chars } atom 0 unbounded
    | '+' :: chars => quantified { p with chars } atom 1 unbounded
    | '\x7b' :: chars => do
      let ((min, max), chars) ← parseBounds chars
      quantified { p with chars } atom min max
    | _ => some (atom, p)

def parseAtom : (fuel : Nat) → Parser → Option (Node × Parser)
  | 0, _ => none
  | fuel + 1, p =>
    match p.chars with
    | [] => none
    | c :: chars =>
      if p.caseInsensitive ∧ (c = '[' ∨ c = '\\' ∨ ¬ c.toNat < 128) then none
      else if c = '(' then parseGroup fuel { p with chars }
      else if c = '[' then do
        let (K, chars) ← parseClassBody alphanumeric fuel chars
        let (cls, p) := addClass { p with chars } K
        some (.charClass cls, p)
      else if c = '\\' then do
        let (K, chars) ← parseEscapeAsClass alphanumeric chars
        let (cls, p) := addClass { p with chars } K
        some (.charClass cls, p)
      else if c ∈ ['.', '^', '$', '*', '+', '?', '\x7b', '\x7d', ')', '|', ']'] then none
      else
        let (cls, p) := addClass { p with chars } (literalClass p.caseInsensitive c)
        some (.charClass cls, p)

def parseGroup : (fuel : Nat) → Parser → Option (Node × Parser)
  | 0, _ => none
  | fuel + 1, p =>
    match p.chars with
    | '?' :: ':' :: chars => do
      let (inner, p) ← parseAlternation fuel { p with chars }
      match p.chars with
      | ')' :: chars => some (inner, { p with chars })
      | _ => none
    | '?' :: 'i' :: ':' :: chars => do
      let was := p.caseInsensitive
      let (inner, p) ← parseAlternation fuel { p with chars, caseInsensitive := true }
      match p.chars with
      | ')' :: chars => some (inner, { p with chars, caseInsensitive := was })
      | _ => none
    | '?' :: '!' :: opening :: chars =>
      if p.caseInsensitive then none
      else do
        let (K, chars) ← parseAhead alphanumeric fuel opening chars
        match chars with
        | ')' :: chars =>
          let (cls, p) := addClass { p with chars } K
          some (.notAhead cls, p)
        | _ => none
    | _ => none

end

end

end Parser

/-! ## What the parser returns -/

variable {nodes : List Node} {n : Nat}

namespace Node

mutual

/-- The classes exist, the bounds of a repetition are in order, a group is repeated at most once and
an alternation has alternatives. -/
def Wf (count : Nat) : Node → Prop
  | .charClass cls => cls < count
  | .classRepeat cls min max => cls < count ∧ min ≤ max
  | .repeatGroup node min max => Wf count node ∧ min ≤ max ∧ max ≤ 1
  | .concat nodes => WfAll count nodes
  | .alt alternatives => alternatives ≠ [] ∧ WfAll count alternatives
  | .notAhead cls => cls < count

def WfAll (count : Nat) : List Node → Prop
  | [] => True
  | node :: nodes => Wf count node ∧ WfAll count nodes

end

mutual

theorem Wf.mono {m : Nat} (hnm : n ≤ m) : ∀ {node : Node}, node.Wf n → node.Wf m
  | .charClass _, h => lt_of_lt_of_le h hnm
  | .classRepeat _ _ _, h => ⟨lt_of_lt_of_le h.1 hnm, h.2⟩
  | .repeatGroup _ _ _, h => ⟨Wf.mono hnm h.1, h.2⟩
  | .concat _, h => WfAll.mono hnm h
  | .alt _, h => ⟨h.1, WfAll.mono hnm h.2⟩
  | .notAhead _, h => lt_of_lt_of_le h hnm

theorem WfAll.mono {m : Nat} (hnm : n ≤ m) : ∀ {nodes : List Node}, WfAll n nodes → WfAll m nodes
  | [], _ => trivial
  | _ :: _, h => ⟨Wf.mono hnm h.1, WfAll.mono hnm h.2⟩

end

theorem WfAll.concat {node : Node} (h : WfAll n nodes) (hn : node.Wf n) :
    WfAll n (nodes ++ [node]) := by
  induction nodes with
  | nil => exact ⟨hn, trivial⟩
  | cons a nodes ih => exact ⟨h.1, ih h.2⟩

end Node

namespace Parser

section

variable {alphanumeric : Char → Bool}

/-- In the order of `sort_unstable`. -/
def Sorted (K : Class) : Prop := K.ranges.Pairwise fun r r' => pairLe r r'

theorem sorted_sorted (K : Class) : Sorted (sorted K) := by
  have hle : ∀ r r', pairLe r r' = true ↔ r.1 < r'.1 ∨ r.1 = r'.1 ∧ r.2 ≤ r'.2 := by simp [pairLe]
  have : Std.Total fun r r' => pairLe r r' = true := ⟨fun r r' => by simp only [hle]; omega⟩
  have : IsTrans _ fun r r' => pairLe r r' = true := ⟨fun r r' r'' => by simp only [hle]; omega⟩
  exact List.pairwise_insertionSort _ K.ranges

theorem sorted_classItems {fuel : Nat} {K : Class} {first : Bool} {chars : List Char}
    {r : Class × List Char} (h : classItems alphanumeric fuel K first chars = some r) :
    Sorted r.1 := by
  fun_induction classItems alphanumeric fuel K first chars <;>
    grind [sorted_sorted, bind_eq_some_iff]

theorem sorted_parseClassBody {fuel : Nat} {chars : List Char} {r : Class × List Char}
    (h : parseClassBody alphanumeric fuel chars = some r) : Sorted r.1 := by
  unfold parseClassBody at h
  split at h <;> exact sorted_classItems h

theorem sorted_parseEscapeAsClass {chars : List Char} {r : Class × List Char}
    (h : parseEscapeAsClass alphanumeric chars = some r) : Sorted r.1 := by
  unfold parseEscapeAsClass at h
  split at h <;> simp only [bind_eq_bind, bind_eq_some_iff, reduceCtorEq, some.injEq] at h
  · obtain ⟨x, -, rfl⟩ := h
    exact List.Pairwise.nil
  · obtain ⟨x, -, rfl⟩ := h
    exact List.Pairwise.nil
  · exact h ▸ List.Pairwise.nil
  · exact h ▸ List.Pairwise.nil
  · obtain ⟨x, -, rfl⟩ := h
    exact List.pairwise_singleton _ _

theorem sorted_parseAhead {fuel : Nat} {opening : Char} {chars : List Char} {r : Class × List Char}
    (h : parseAhead alphanumeric fuel opening chars = some r) : Sorted r.1 := by
  unfold parseAhead at h
  split at h
  · exact sorted_parseEscapeAsClass h
  · split at h
    · exact sorted_parseClassBody h
    · cases h

theorem sorted_literalClass (ci : Bool) (c : Char) : Sorted (literalClass ci c) := by
  unfold literalClass
  split
  · exact sorted_sorted _
  · exact List.pairwise_singleton _ _

end

def Adds (p p' : Parser) : Prop :=
  p.classes.length ≤ p'.classes.length ∧ ∀ K ∈ p'.classes, K ∈ p.classes ∨ Sorted K

theorem Adds.refl (p : Parser) : Adds p p := ⟨le_rfl, fun _ hK => .inl hK⟩

/-- A step of the parser: the node is made of the classes there are. -/
def Gives (p : Parser) (r : Node × Parser) : Prop := Adds p r.2 ∧ r.1.Wf r.2.classes.length

theorem Gives.trans {p p' : Parser} {r : Node × Parser} (h : Adds p p') (hr : Gives p' r) :
    Gives p r :=
  ⟨⟨h.1.trans hr.1.1, fun K hK => (hr.1.2 K hK).elim (h.2 K) .inr⟩, hr.2⟩

theorem gives_quantified {p : Parser} {atom : Node} {min max : Nat} {r : Node × Parser}
    (ha : atom.Wf p.classes.length) (hmax : min ≤ max)
    (h : quantified p atom min max = some r) : Gives p r := by
  unfold quantified at h
  split at h
  · cases h
  · split at h
    · cases h
      exact ⟨Adds.refl p, ha, hmax⟩
    · cases h
    · split at h
      · cases h
      · cases h
        exact ⟨Adds.refl p, ha, hmax, by omega⟩

theorem le_of_parseBounds {chars chars' : List Char} {min max : Nat}
    (h : parseBounds chars = some ((min, max), chars')) : min ≤ max := by
  simp only [parseBounds, bind_eq_bind, bind_eq_some_iff, Prod.exists] at h
  obtain ⟨m, _, -, M, _, -, _, -, hle⟩ := h
  split at hle
  · cases hle
  · cases hle
    omega

section

variable {alphanumeric : Char → Bool}

/-- What all the mutually recursive functions of the parser keep, at one depth. -/
structure Keeps (alphanumeric : Char → Bool) (fuel : Nat) : Prop where
  alternation : ∀ p r, parseAlternation alphanumeric fuel p = some r → Gives p r
  alternatives : ∀ nodes p r, nodes ≠ [] → Node.WfAll p.classes.length nodes →
    parseAlternatives alphanumeric fuel nodes p = some r → Gives p r
  concat : ∀ p r, parseConcat alphanumeric fuel p = some r → Gives p r
  nodes : ∀ nodes letter p r, Node.WfAll p.classes.length nodes →
    parseNodes alphanumeric fuel nodes letter p = some r → Gives p r
  quantified : ∀ p r, parseQuantified alphanumeric fuel p = some r → Gives p r
  atom : ∀ p r, parseAtom alphanumeric fuel p = some r → Gives p r
  group : ∀ p r, parseGroup alphanumeric fuel p = some r → Gives p r

theorem wf_alternation (hne : nodes ≠ []) (hw : Node.WfAll n nodes) : (alternation nodes).Wf n := by
  unfold alternation
  split
  · exact hw.1
  · exact ⟨hne, hw⟩

theorem wf_sequence (hw : Node.WfAll n nodes) : (sequence nodes).Wf n := by
  unfold sequence
  split
  · exact hw.1
  · exact hw

theorem gives_addClass {p : Parser} {K : Class} (hK : Sorted K) (f : Nat → Node)
    (hf : ∀ cls n, cls < n → (f cls).Wf n) : Gives p (f (addClass p K).1, (addClass p K).2) := by
  exact ⟨⟨by simp [addClass], List.forall_mem_append.mpr
    ⟨fun _ => .inl, List.forall_mem_singleton.mpr (.inr hK)⟩⟩, hf _ _ (by simp [addClass])⟩

theorem keeps (fuel : Nat) : Keeps alphanumeric fuel := by
  induction fuel with
  | zero =>
    constructor <;> simp_all [parseAlternation, parseAlternatives, parseConcat,
      parseNodes, parseQuantified, parseAtom, parseGroup]
  | succ fuel ih =>
    constructor
    case alternation =>
      intro p r h
      obtain ⟨⟨node, p'⟩, hc, ha⟩ := bind_eq_some_iff.mp h
      have hg := ih.concat p _ hc
      exact (ih.alternatives [node] p' r (by simp) ⟨hg.2, trivial⟩ ha).trans hg.1
    case alternatives =>
      intro nodes p r hne hw h
      rw [parseAlternatives] at h
      split at h
      · obtain ⟨⟨node, p'⟩, hc, ha⟩ := bind_eq_some_iff.mp h
        have hg := ih.concat _ _ hc
        exact (ih.alternatives _ p' r (by simp) ((hw.mono hg.1.1).concat hg.2) ha).trans hg.1
      · cases h
        exact ⟨Adds.refl p, wf_alternation hne hw⟩
    case concat =>
      intro p r h
      exact ih.nodes [] none p r trivial h
    case nodes =>
      intro nodes letter p r hw h
      rw [parseNodes] at h
      split at h
      · split at h
        · cases h
          exact ⟨Adds.refl p, wf_sequence hw⟩
        · obtain ⟨⟨node, p'⟩, hc, ha⟩ := bind_eq_some_iff.mp h
          have hg := ih.quantified _ _ hc
          have hw' := (hw.mono hg.1.1).concat hg.2
          dsimp only at ha
          split at ha
          · split at ha
            · cases ha
            · exact (ih.nodes _ _ p' r hw' ha).trans hg.1
          · exact (ih.nodes _ _ p' r hw' ha).trans hg.1
      · cases h
        exact ⟨Adds.refl p, wf_sequence hw⟩
    case quantified =>
      intro p r h
      obtain ⟨⟨node, p'⟩, hc, ha⟩ := bind_eq_some_iff.mp h
      have hg := ih.atom _ _ hc
      dsimp only at ha
      have hquant : ∀ chars min max, min ≤ max →
          Parser.quantified { p' with chars } node min max = some r → Gives p r :=
        fun chars _ _ hmax hq =>
          Gives.trans hg.1 (gives_quantified (p := { p' with chars }) hg.2 hmax hq)
      split at ha
      · exact hquant _ 0 1 (by omega) ha
      · exact hquant _ 0 unbounded (by omega) ha
      · exact hquant _ 1 unbounded (by decide) ha
      · obtain ⟨⟨⟨min, max⟩, chars⟩, hb, hq⟩ := bind_eq_some_iff.mp ha
        exact hquant _ min max (le_of_parseBounds hb) hq
      · cases ha
        exact hg
    case atom =>
      intro p r h
      rw [parseAtom] at h
      split at h
      · cases h
      · split at h
        · cases h
        · split at h
          · have hg := ih.group _ r h
            exact hg
          · split at h
            · obtain ⟨⟨K, chars⟩, hK, hr⟩ := bind_eq_some_iff.mp h
              cases hr
              exact gives_addClass (sorted_parseClassBody hK) _ fun _ _ h => h
            · split at h
              · obtain ⟨⟨K, chars⟩, hK, hr⟩ := bind_eq_some_iff.mp h
                cases hr
                exact gives_addClass (sorted_parseEscapeAsClass hK) _ fun _ _ h => h
              · split at h
                · cases h
                · cases h
                  exact gives_addClass (sorted_literalClass _ _) _ fun _ _ h => h
    case group =>
      intro p r h
      rw [parseGroup] at h
      split at h
      · obtain ⟨⟨inner, p'⟩, hp, hr⟩ := bind_eq_some_iff.mp h
        have hg := ih.alternation _ _ hp
        dsimp only at hr
        split at hr
        · cases hr
          exact hg
        · cases hr
      · obtain ⟨⟨inner, p'⟩, hp, hr⟩ := bind_eq_some_iff.mp h
        have hg := ih.alternation _ _ hp
        dsimp only at hr
        split at hr
        · cases hr
          exact hg
        · cases hr
      · split at h
        · cases h
        · obtain ⟨⟨K, chars⟩, hK, hr⟩ := bind_eq_some_iff.mp h
          dsimp only at hr
          split at hr
          · cases hr
            exact gives_addClass (sorted_parseAhead hK) _ fun _ _ h => h
          · cases hr
      · cases h

end

end Parser

end Smg.Tokenizer
