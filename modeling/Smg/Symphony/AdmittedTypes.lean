import Mathlib.Data.List.ReduceOption
import Mathlib.Data.Finset.Insert
import Mathlib.Data.Finset.Lattice.Basic
import Mathlib.Logic.Equiv.Basic
import Mathlib.Logic.Relation

/-!
# The types a schema admits

A tagged format writes an argument as text, and the schema a tool declares for the parameter says
how to read it: `Types::admitted` collects the types the schema admits, through `anyOf`, `oneOf`,
`allOf` and `$ref`, and `Kind::of` reads the text's kind off them.  A lookup keeps a record of the
nodes it has read; a node met again while it is being read admits nothing there.

What such a node admits is then recorded for good by the nodes below it, so inside a cycle the
record depends on where the cycle was entered (`reordered_cycle`).  Where what a node admits is the
same on every way to it (`Steady`), the record holds what a reading without any record finds
(`lookup_eq`), and that does not depend on the order of any list: `admitted_of_reorders`.
-/

set_option autoImplicit false

namespace Smg.Schema

open List Function

/-! ## Sets of types -/

/-- JSON Schema's types, and one that every other name shares. -/
inductive TypeName
  | string | null | integer | array | object | number | boolean | other
  deriving DecidableEq

abbrev Types := Finset TypeName

def Types.named : String → Types
  | "string" => {.string}
  | "null" => {.null}
  | "integer" => {.integer}
  | "array" => {.array}
  | "object" => {.object}
  | "number" => {.number}
  | "boolean" => {.boolean}
  | _ => {.other}

/-- The types both sets admit; `number` admits every integer. -/
def Types.meet (s t : Types) : Types :=
  if .number ∈ s ∧ .integer ∈ t ∨ .integer ∈ s ∧ .number ∈ t then s ∩ t ∪ {.integer} else s ∩ t

theorem Types.mem_meet {s t : Types} {x : TypeName} : x ∈ s.meet t ↔ x ∈ s ∧ x ∈ t ∨
    x = .integer ∧ (.number ∈ s ∧ .integer ∈ t ∨ .integer ∈ s ∧ .number ∈ t) := by
  rw [meet]
  split
  next h => rw [Finset.mem_union, Finset.mem_inter, Finset.mem_singleton, and_iff_left h]
  next h => simp [h]

instance : RightCommutative Types.meet where
  right_comm s t u := by
    ext x
    grind [Types.mem_meet]

/-- `reduce(Types::meet)`, or nothing. -/
def Types.meetAll : List Types → Types
  | [] => ∅
  | t :: ts => ts.foldl meet t

theorem Types.meetAll_perm {ts us : List Types} (h : ts.Perm us) : meetAll ts = meetAll us := by
  induction h with
  | nil => rfl
  | cons t h => exact h.foldl_eq t
  | swap t u ts =>
    have hcomm : u.meet t = t.meet u := by
      ext x
      grind [mem_meet]
    rw [meetAll, meetAll, foldl_cons, foldl_cons, hcomm]
  | trans _ _ ih ih' => exact ih.trans ih'

/-- How a parameter's text is read. -/
inductive Kind
  | string | nullableString | integer | array | object
  deriving DecidableEq

def Kind.of (admitted : Types) : Option Kind :=
  if .string ∈ admitted then some (if .null ∈ admitted then .nullableString else .string)
  else if admitted = {.integer} then some .integer
  else if admitted = {.array} then some .array
  else if admitted = {.object} then some .object
  else none

/-! ## Values and where they stand -/

inductive Value
  | null
  | bool (b : Bool)
  | number (text : String)
  | string (text : String)
  | array (items : List Value)
  | object (members : List (String × Value))

/-- What a match on a value sees of it, without what is inside. -/
inductive Shape
  | null
  | bool (b : Bool)
  | number
  | string (text : String)
  | array (length : Nat)
  | object

/-- The elements to iterate over: none where there is no list. -/
def count : Option Shape → Nat
  | some (.array n) => n
  | _ => 0

namespace Value

def shape : Value → Shape
  | null => .null
  | bool b => .bool b
  | number _ => .number
  | string text => .string text
  | array items => .array items.length
  | object _ => .object

def get? : Value → String → Option Value
  | object members, key => members.lookup key
  | _, _ => none

def item? : Value → Nat → Option Value
  | array items, i => items[i]?
  | _, _ => none

end Value

/-- The address of a value: the root schema, the parameter's schema when it stands outside the root,
or a place inside one of them. -/
inductive Addr
  | root
  | own
  | field (a : Addr) (key : String)
  | item (a : Addr) (i : Nat)
  deriving DecidableEq

/-- How `serde_json` reads a JSON pointer: its tokens, and a token as an index. -/
structure Pointers where
  tokens : List Char → Option (List String)
  index : String → Option Nat

/-- What a lookup is given. -/
structure Doc (P : Pointers) where
  root : Value
  own : Value

namespace Doc

variable {P : Pointers} (d : Doc P)

/-- The value at an address, if the address leads somewhere. -/
def value : Addr → Option Value
  | .root => some d.root
  | .own => some d.own
  | .field a key => (value a).bind (·.get? key)
  | .item a i => (value a).bind (·.item? i)

def shape (a : Addr) : Option Shape := (d.value a).map Value.shape

def asStr (a : Addr) : Option String :=
  match d.shape a with
  | some (.string text) => some text
  | _ => none

def items (a : Addr) : List Addr := (range (count (d.shape a))).map a.item

/-- `Value::pointer`, from an address on. -/
def pointer : List String → Addr → Option Addr
  | [], a => (d.shape a).map fun _ => a
  | t :: ts, a =>
    match d.shape a with
    | some .object => pointer ts (a.field t)
    | some (.array _) => (P.index t).bind fun i => pointer ts (a.item i)
    | _ => none

/-- The schema with its `$ref`s followed, so many at most. -/
def resolve : Nat → Addr → Option Addr
  | 0, a => if (d.shape (a.field "$ref")).isNone then some a else none
  | hops + 1, a =>
    match d.asStr (a.field "$ref") with
    | none => some a
    | some text =>
      match text.toList with
      | '#' :: p => ((P.tokens p).bind (d.pointer · .root)).bind (resolve hops)
      | _ => none

abbrev hops : Nat := 16

/-! ## What a node admits -/

/-- The types a node's `type` names, and whether it has one. -/
def declared (a : Addr) : Types × Bool :=
  match d.shape (a.field "type") with
  | some (.string name) => (.named name, true)
  | some (.array _) =>
    ((((d.items (a.field "type")).map d.asStr).reduceOption.map Types.named).foldl (· ∪ ·) ∅, true)
  | _ => (∅, false)

/-- The values of an `enum`, a `const` being an `enum` of one. -/
def values (a : Addr) : List Addr :=
  match d.shape (a.field "enum"), d.shape (a.field "const") with
  | some (.array _), _ => d.items (a.field "enum")
  | _, some _ => [a.field "const"]
  | _, none => []

/-- What an `enum` of strings, and perhaps `null`, admits. -/
def constants (shapes : List (Option Shape)) : Types :=
  if shapes.all (fun v => v matches some (.string _) | some .null) &&
      shapes.any (· matches some (.string _)) then
    if shapes.any (· matches some .null) then {.string, .null} else {.string}
  else ∅

/-- The members of a wrapper: a one-member `allOf` is one. -/
def members (a : Addr) : List Addr :=
  d.items (a.field "anyOf") ++ d.items (a.field "oneOf") ++
    if (d.items (a.field "allOf")).length = 1 then d.items (a.field "allOf") else []

/-- The members an `allOf` of several narrows to. -/
def narrowing (a : Addr) : List Addr :=
  if 1 < (d.items (a.field "allOf")).length then d.items (a.field "allOf") else []

/-- What a node admits, given what its members and those of a narrowing `allOf` do. -/
def admits (a : Addr) (members all : List Types) : Types :=
  let types := members.foldl (· ∪ ·) (d.declared a).1
  let types :=
    if (d.declared a).2 then types else types ∪ constants ((d.values a).map d.shape)
  let types := Types.meetAll ((all ++ [types]).filter (· ≠ ∅))
  match d.shape (a.field "nullable") with
  | some (.bool true) => types ∪ {.null}
  | _ => types

/-! ## The lookup -/

/-- What each node read admits; `some none` while the node is being read. -/
abbrev Memo := Addr → Option (Option Types)

def readAll (admitted : Addr → Memo → Types × Memo) : List Addr → Memo → List Types × Memo
  | [], read => ([], read)
  | a :: as, read =>
    let (t, read) := admitted a read
    let (ts, read) := readAll admitted as read
    (t :: ts, read)

def readNode (admitted : Addr → Memo → Types × Memo) (node : Addr) (read : Memo) : Types × Memo :=
  let (members, read) := readAll admitted (d.members node) read
  let (all, read) := readAll admitted (d.narrowing node) read
  (d.admits node members all, read)

/-- `Lookup::admitted`; the fuel bounds the nodes on the way down. -/
def lookup : Nat → Addr → Memo → Types × Memo
  | 0, _, read => (∅, read)
  | fuel + 1, a, read =>
    match d.resolve hops a with
    | none => (∅, read)
    | some node =>
      match read node with
      | some (some types) => (types, read)
      | some none => (∅, read)
      | none =>
        let (types, read) := d.readNode (lookup fuel) node (update read node (some none))
        (types, update read node (some (some types)))

def admitted (fuel : Nat) (schema : Addr) : Types := (d.lookup fuel schema fun _ => none).1

/-! ## Reading without a record -/

/-- The node of a schema, unless it is being read. -/
def next (reading : List Addr) (a : Addr) : Option Addr :=
  (d.resolve hops a).filter (· ∉ reading)

/-- What a node admits when nodes are read wherever they are met.  On the way to it the nodes
`reading` are being read; they admit nothing. -/
def meaning : Nat → List Addr → Addr → Types
  | 0, _, _ => ∅
  | n + 1, reading, node =>
    let means := fun a => ((d.next (node :: reading) a).map (meaning n (node :: reading))).getD ∅
    d.admits node ((d.members node).map means) ((d.narrowing node).map means)

def means (n : Nat) (reading : List Addr) (a : Addr) : Types :=
  ((d.next reading a).map (d.meaning n reading)).getD ∅

/-- A node where it is met: what is left of the fuel, and the nodes that are being read. -/
structure Visit where
  fuel : Nat
  reading : List Addr
  node : Addr

def visits : Nat → List Addr → Addr → List Visit
  | 0, reading, node => [⟨0, reading, node⟩]
  | n + 1, reading, node =>
    ⟨n + 1, reading, node⟩ :: (d.members node ++ d.narrowing node).flatMap fun a =>
      (d.next (node :: reading) a).toList.flatMap (visits n (node :: reading))

def ways (n : Nat) (reading : List Addr) (a : Addr) : List Visit :=
  (d.next reading a).toList.flatMap (d.visits n reading)

/-- **What a node admits is the same on every way to it**, and the ways down from the schema end
within so many nodes. -/
structure Steady (n : Nat) (a : Addr) : Prop where
  ends : ∀ v ∈ d.ways n [] a, v.fuel ≠ 0
  same : ∀ v ∈ d.ways n [] a, ∀ w ∈ d.ways n [] a, v.node = w.node →
    d.meaning v.fuel v.reading v.node = d.meaning w.fuel w.reading w.node

/-- A record: which nodes are being read, and what the finished ones admit. -/
structure Keeps (reading : List Addr) (admitted : Addr → Types) (read : Memo) : Prop where
  reading_iff : ∀ {node}, read node = some none ↔ node ∈ reading
  sound : ∀ {node types}, read node = some (some types) → types = admitted node

variable {d}

theorem meaning_succ (n : Nat) (reading : List Addr) (node : Addr) :
    d.meaning (n + 1) reading node =
      d.admits node ((d.members node).map (d.means n (node :: reading)))
        ((d.narrowing node).map (d.means n (node :: reading))) := rfl

theorem mem_visits (n : Nat) (reading : List Addr) (node : Addr) :
    ⟨n, reading, node⟩ ∈ d.visits n reading node := by
  cases n <;> simp [visits]

theorem mem_visits_succ {n : Nat} {reading : List Addr} {node b : Addr} {v : Visit}
    (hb : b ∈ d.members node ++ d.narrowing node) (hv : v ∈ d.ways n (node :: reading) b) :
    v ∈ d.visits (n + 1) reading node :=
  mem_cons_of_mem _ (mem_flatMap.mpr ⟨b, hb, hv⟩)

theorem readAll_eq {K : Memo → Prop} {f : Addr → Memo → Types × Memo} {g : Addr → Types}
    {as : List Addr} (hf : ∀ a ∈ as, ∀ read, K read → (f a read).1 = g a ∧ K (f a read).2)
    {read : Memo} (h : K read) :
    (readAll f as read).1 = as.map g ∧ K (readAll f as read).2 := by
  induction as generalizing read with
  | nil => exact ⟨rfl, h⟩
  | cons a as ih =>
    obtain ⟨ht, hread⟩ := hf a mem_cons_self read h
    obtain ⟨hts, hread⟩ := ih (fun b hb => hf b (mem_cons_of_mem _ hb)) hread
    exact ⟨by rw [readAll, map_cons, ← ht, ← hts], hread⟩

namespace Keeps

variable {reading : List Addr} {admitted : Addr → Types} {read : Memo} {node : Addr}

/-- A node that was not met is being read from now on. -/
theorem begin (h : Keeps reading admitted read) (node : Addr) :
    Keeps (node :: reading) admitted (update read node (some none)) where
  reading_iff {x} := by
    rcases eq_or_ne x node with rfl | hne
    · simp
    · rw [update_of_ne hne, h.reading_iff, mem_cons, or_iff_right hne]
  sound {x types} hx := by
    rcases eq_or_ne x node with rfl | hne
    · simp at hx
    · rw [update_of_ne hne] at hx
      exact h.sound hx

theorem finish (h : Keeps (node :: reading) admitted read) (hnot : node ∉ reading) :
    Keeps reading admitted (update read node (some (some (admitted node)))) where
  reading_iff {x} := by
    rcases eq_or_ne x node with rfl | hne
    · simp [hnot]
    · rw [update_of_ne hne, h.reading_iff, mem_cons, or_iff_right hne]
  sound {x types} hx := by
    rcases eq_or_ne x node with rfl | hne
    · simpa using hx.symm
    · rw [update_of_ne hne] at hx
      exact h.sound hx

end Keeps

/-- **The record holds what is found without one**, if that is the same on every way. -/
theorem lookup_eq {admitted : Addr → Types} {n : Nat} {reading : List Addr} {a : Addr} {read : Memo}
    (h : Keeps reading admitted read) (hways : ∀ v ∈ d.ways n reading a,
      d.meaning v.fuel v.reading v.node = admitted v.node) :
    (d.lookup n a read).1 = d.means n reading a ∧ Keeps reading admitted (d.lookup n a read).2 := by
  induction n generalizing reading a read with
  | zero =>
    refine ⟨?_, h⟩
    rw [means]
    cases d.next reading a <;> rfl
  | succ n ih =>
    rw [lookup, means]
    rcases hr : d.resolve hops a with _ | node
    · exact ⟨by rw [next, hr]; rfl, h⟩
    have hnext : d.next reading a = if node ∈ reading then none else some node := by
      rw [next, hr]
      by_cases hin : node ∈ reading <;> simp [hin]
    dsimp only
    rcases hm : read node with _ | _ | types
    · have hnot : node ∉ reading := fun hin => by
        rw [h.reading_iff.mpr hin] at hm
        cases hm
      rw [if_neg hnot] at hnext
      have hvisits : ∀ v ∈ d.visits (n + 1) reading node,
          d.meaning v.fuel v.reading v.node = admitted v.node := fun v hv =>
        hways v (by rw [ways, hnext]; simpa using hv)
      have hbelow : ∀ b ∈ d.members node ++ d.narrowing node, ∀ read,
          Keeps (node :: reading) admitted read →
            (d.lookup n b read).1 = d.means n (node :: reading) b ∧
              Keeps (node :: reading) admitted (d.lookup n b read).2 := fun b hb read hk =>
        ih hk fun v hv => hvisits v (mem_visits_succ hb hv)
      obtain ⟨hmembers, hk⟩ :=
        readAll_eq (fun b hb => hbelow b (mem_append_left _ hb)) (h.begin node)
      obtain ⟨hall, hk⟩ := readAll_eq (fun b hb => hbelow b (mem_append_right _ hb)) hk
      have ht : (d.readNode (d.lookup n) node (update read node (some none))).1 =
          d.meaning (n + 1) reading node := by
        rw [meaning_succ, ← hmembers, ← hall]
        rfl
      have hnode := hvisits _ (mem_visits (n + 1) reading node)
      refine ⟨by rw [hnext]; exact ht, ?_⟩
      dsimp only
      rw [ht, hnode]
      exact hk.finish hnot
    · rw [if_pos (h.reading_iff.mp hm)] at hnext
      exact ⟨by rw [hnext]; rfl, h⟩
    · have hnot : node ∉ reading := fun hin => by
        rw [h.reading_iff.mpr hin] at hm
        cases hm
      rw [if_neg hnot] at hnext
      have hnode := hways ⟨n + 1, reading, node⟩ (by
        rw [ways, hnext]
        simpa using mem_visits (n + 1) reading node)
      exact ⟨by rw [hnext, h.sound hm, ← hnode]; rfl, h⟩

/-- **A lookup finds what a reading without a record does.** -/
theorem Steady.admitted_eq {n : Nat} {a : Addr} (h : d.Steady n a) :
    d.admitted n a = d.means n [] a := by
  classical
  have hstart : Keeps [] (fun node =>
      if hv : ∃ v ∈ d.ways n [] a, v.node = node then
        d.meaning hv.choose.fuel hv.choose.reading hv.choose.node
      else ∅) fun _ => none := ⟨by simp, nofun⟩
  refine (lookup_eq hstart fun v hv => ?_).1
  have hnode : ∃ w ∈ d.ways n [] a, w.node = v.node := ⟨v, hv, rfl⟩
  rw [dif_pos hnode]
  exact h.same v hv _ hnode.choose_spec.1 hnode.choose_spec.2.symm

end Doc

/-! ## Lists in another order -/

/-- What stands at a place, and the same with lists in another order, where none of the pointers `T`
leads into such a list. -/
inductive Reorder (P : Pointers) : Set (List String) → Option Value → Option Value → Prop
  | refl {T} (o : Option Value) : Reorder P T o o
  | perm {T l l'} (hT : ∀ p ∈ T, p = []) (h : l.Perm l') :
    Reorder P T (some (.array l)) (some (.array l'))
  | items {T l l'} (hlen : l.length = l'.length)
    (h : ∀ i : Nat, Reorder P { p | ∃ t, P.index t = some i ∧ t :: p ∈ T } l[i]? l'[i]?) :
    Reorder P T (some (.array l)) (some (.array l'))
  | fields {T m m'}
    (h : ∀ key, Reorder P { p | key :: p ∈ T } (m.lookup key) (m'.lookup key)) :
    Reorder P T (some (.object m)) (some (.object m'))

/-- Elements in another order, by their places. -/
theorem exists_perm_getElem? {α : Type} {l k : List α} (h : l.Perm k) :
    ∃ σ : Equiv.Perm Nat, ∀ i, k[σ i]? = l[i]? := by
  induction h with
  | nil => exact ⟨.refl _, fun _ => rfl⟩
  | cons x _ ih =>
    obtain ⟨σ, hσ⟩ := ih
    refine ⟨⟨fun i => i.casesOn 0 (σ · + 1), fun i => i.casesOn 0 (σ.symm · + 1), ?_, ?_⟩, ?_⟩ <;>
      rintro (_ | i)
    · rfl
    · simp
    · rfl
    · simp
    · rfl
    · exact hσ i
  | swap x y l =>
    refine ⟨Equiv.swap 0 1, fun i => ?_⟩
    rcases i with _ | _ | i
    · rfl
    · rfl
    · rw [Equiv.swap_apply_of_ne_of_ne (by omega) (by omega)]
      rfl
  | trans _ _ ih ih' =>
    obtain ⟨σ, hσ⟩ := ih
    obtain ⟨τ, hτ⟩ := ih'
    exact ⟨σ.trans τ, fun i => (hτ (σ i)).trans (hσ i)⟩

namespace Reorder

variable {P : Pointers} {T : Set (List String)} {o o' : Option Value} (h : Reorder P T o o')

include h

theorem shape_eq : o.map Value.shape = o'.map Value.shape := by
  cases h with
  | refl | fields => rfl
  | perm hT h => exact congrArg (some <| Shape.array ·) h.length_eq
  | items hlen => exact congrArg (some <| Shape.array ·) hlen

theorem get? (key : String) :
    Reorder P { p | key :: p ∈ T } (o.bind (·.get? key)) (o'.bind (·.get? key)) := by
  cases h with
  | refl | perm | items => exact .refl _
  | fields h => exact h key

/-- The places of the elements of a list in another order: where a pointer leads into the list, they
are the same. -/
theorem exists_perm : ∃ σ : Equiv.Perm Nat,
    (∀ i, Reorder P { p | ∃ t, P.index t = some i ∧ t :: p ∈ T }
      (o.bind (·.item? i)) (o'.bind (·.item? (σ i)))) ∧ ((∃ t p, t :: p ∈ T) → σ = .refl _) := by
  cases h with
  | refl => exact ⟨.refl _, fun i => .refl _, fun _ => rfl⟩
  | perm hT h =>
    obtain ⟨σ, hσ⟩ := exists_perm_getElem? h
    refine ⟨σ, fun i => ?_, fun ⟨t, p, hp⟩ => nomatch hT _ hp⟩
    simp only [Option.bind_some, Value.item?, hσ]
    exact .refl _
  | items hlen h => exact ⟨.refl _, h, fun _ => rfl⟩
  | fields => exact ⟨.refl _, fun i => .refl _, fun _ => rfl⟩

end Reorder

namespace Doc

variable {P : Pointers}

/-- The pointers of the references of a document. -/
def refs (d : Doc P) : Set (List String) :=
  { p | ∃ a text q, d.asStr (.field a "$ref") = some text ∧ text.toList = '#' :: q ∧
    P.tokens q = some p }

/-! ## Where a place has gone -/

/-- Of the pointers `T` from the root on, what is left of those that pass a place. -/
def passing (P : Pointers) (T : Set (List String)) : Addr → Set (List String)
  | .root => T
  | .own => ∅
  | .field a key => { p | key :: p ∈ passing P T a }
  | .item a i => { p | ∃ t, P.index t = some i ∧ t :: p ∈ passing P T a }

open Classical in
/-- The places of elements that were put in another order. -/
noncomputable def shuffle (P : Pointers) (T : Set (List String)) (o o' : Option Value) :
    Equiv.Perm Nat :=
  if h : Reorder P T o o' then h.exists_perm.choose else .refl _

/-- Where a place of a document has gone in the same document with its lists in another order. -/
noncomputable def moved (d d' : Doc P) (T : Set (List String)) : Addr → Addr
  | .root => .root
  | .own => .own
  | .field a key => (moved d d' T a).field key
  | .item a i =>
    (moved d d' T a).item
      (shuffle P (passing P T a) (d.value a) (d'.value (moved d d' T a)) i)

/-- The documents are the same but for the order of lists that none of the pointers `T` leads into.
-/
structure Alike (d d' : Doc P) (T : Set (List String)) : Prop where
  root : Reorder P T (some d.root) (some d'.root)
  own : Reorder P ∅ (some d.own) (some d'.own)

theorem isSome_value_item (d : Doc P) (a : Addr) (i : Nat) :
    (d.value (a.item i)).isSome ↔ i < count (d.shape a) := by
  rw [value, shape]
  rcases d.value a with _ | _ | _ | _ | _ | _ | _ <;> simp [count, Value.item?, Value.shape]

namespace Alike

variable {d d' : Doc P} {T : Set (List String)} (h : Alike d d' T)

include h

theorem reorder (a : Addr) :
    Reorder P (passing P T a) (d.value a) (d'.value (moved d d' T a)) := by
  induction a with
  | root => exact h.root
  | own => exact h.own
  | field a key ih => exact ih.get? key
  | item a i ih =>
    rw [moved, shuffle, dif_pos ih]
    exact ih.exists_perm.choose_spec.1 i

theorem shape (a : Addr) : d'.shape (moved d d' T a) = d.shape a := (h.reorder a).shape_eq.symm

theorem asStr (a : Addr) : d'.asStr (moved d d' T a) = d.asStr a := by
  rw [Doc.asStr, Doc.asStr, h.shape]

omit h in
theorem moved_injective : Injective (moved d d' T) := by
  intro a
  induction a with
  | root => rintro (_ | _ | _ | _) hab <;> simp_all [moved]
  | own => rintro (_ | _ | _ | _) hab <;> simp_all [moved]
  | field a key ih =>
    rintro (_ | _ | ⟨b, key'⟩ | _) hab <;> simp only [moved, reduceCtorEq, Addr.field.injEq] at hab
    rw [ih hab.1, hab.2]
  | item a i ih =>
    rintro (_ | _ | _ | ⟨b, j⟩) hab <;> simp only [moved, reduceCtorEq, Addr.item.injEq] at hab
    obtain rfl := ih hab.1
    rw [(Equiv.injective _) hab.2]

/-- A place that a pointer leads to has not gone elsewhere. -/
theorem pointer {a : Addr} (ha : moved d d' T a = a) {p : List String} (hp : p ∈ passing P T a) :
    d'.pointer p a = d.pointer p a ∧ ∀ b, d.pointer p a = some b → moved d d' T b = b := by
  have hshape : d'.shape a = d.shape a := by
    rw [← h.shape a, ha]
  induction p generalizing a with
  | nil =>
    refine ⟨by rw [Doc.pointer, Doc.pointer, hshape], fun b hb => ?_⟩
    obtain ⟨-, -, rfl⟩ := Option.map_eq_some_iff.mp hb
    exact ha
  | cons t p ih =>
    rw [Doc.pointer, Doc.pointer, hshape]
    split
    · have hfield : moved d d' T (a.field t) = a.field t := by rw [moved, ha]
      exact ih hfield hp (by rw [← h.shape (a.field t), hfield])
    · rcases ht : P.index t with _ | i
      · exact ⟨rfl, nofun⟩
      · have hitem : moved d d' T (a.item i) = a.item i := by
          have hsame := (h.reorder a).exists_perm.choose_spec.2 ⟨t, p, hp⟩
          rw [moved, shuffle, dif_pos (h.reorder a), hsame, ha]
          rfl
        exact ih hitem ⟨t, ht, hp⟩ (by rw [← h.shape (a.item i), hitem])
    · exact ⟨rfl, nofun⟩

theorem resolve (hT : d.refs ⊆ T) (n : Nat) (a : Addr) :
    d'.resolve n (moved d d' T a) = (d.resolve n a).map (moved d d' T) := by
  have href : (moved d d' T a).field "$ref" = moved d d' T (a.field "$ref") := rfl
  induction n generalizing a with
  | zero =>
    rw [Doc.resolve, Doc.resolve, href, h.shape]
    split <;> rfl
  | succ n ih =>
    rw [Doc.resolve, Doc.resolve, href, h.asStr]
    split
    · rfl
    next text htext =>
      split
      next q hq =>
        rcases hp : P.tokens q with _ | p
        · rfl
        · obtain ⟨hto, hfixed⟩ := h.pointer (a := .root) rfl (hT ⟨a, text, q, htext, hq, hp⟩)
          rw [Option.bind_some, Option.bind_some, hto]
          rcases hb : d.pointer p .root with _ | b
          · rfl
          · rw [Option.bind_some, Option.bind_some]
            conv_lhs => rw [← hfixed b hb]
            exact ih b rfl
      · rfl

theorem items (a : Addr) : ((d.items a).map (moved d d' T)).Perm (d'.items (moved d d' T a)) := by
  obtain ⟨σ, hσ⟩ : ∃ σ, σ = shuffle P (passing P T a) (d.value a) (d'.value (moved d d' T a)) :=
    ⟨_, rfl⟩
  have hlt : ∀ i, σ i < count (d.shape a) ↔ i < count (d.shape a) := by
    intro i
    have hitem := congrArg Option.isSome (h.shape (a.item i))
    rw [Doc.shape, Doc.shape, Option.isSome_map, Option.isSome_map, moved, ← hσ] at hitem
    rw [← isSome_value_item d a i, ← hitem, isSome_value_item, h.shape]
  have hrange : ((range (count (d.shape a))).map σ).Perm (range (count (d.shape a))) := by
    refine (perm_ext_iff_of_nodup (nodup_range.map σ.injective) nodup_range).mpr fun j => ?_
    rw [mem_map, mem_range]
    constructor
    · rintro ⟨i, hi, rfl⟩
      exact (hlt i).mpr (mem_range.mp hi)
    · exact fun hj => ⟨σ.symm j, mem_range.mpr ((hlt _).mp (by simpa using hj)),
        σ.apply_symm_apply j⟩
  have hmap := hrange.map (moved d d' T a).item
  rw [map_map] at hmap
  rw [Doc.items, Doc.items, map_map, h.shape]
  refine .trans (.of_eq (map_congr_left fun i _ => ?_)) hmap
  rw [comp_apply, comp_apply, moved, ← hσ]

theorem members (a : Addr) :
    ((d.members a).map (moved d d' T)).Perm (d'.members (moved d d' T a)) ∧
      ((d.narrowing a).map (moved d d' T)).Perm (d'.narrowing (moved d d' T a)) := by
  have hany := h.items (a.field "anyOf")
  have hone := h.items (a.field "oneOf")
  have hall := h.items (a.field "allOf")
  have hlen := hall.length_eq
  rw [length_map] at hlen
  rw [Doc.members, Doc.members, Doc.narrowing, Doc.narrowing, map_append, map_append]
  rw [moved] at hany hone hall hlen
  rw [← hlen]
  refine ⟨(hany.append hone).append ?_, ?_⟩ <;> split
  all_goals first | exact hall | exact .refl _

theorem declared (a : Addr) : d'.declared (moved d d' T a) = d.declared a := by
  have hnames := ((h.items (a.field "type")).map d'.asStr).symm
  rw [map_map, show d'.asStr ∘ moved d d' T = d.asStr from funext h.asStr] at hnames
  have htype := h.shape (a.field "type")
  rw [moved] at hnames htype
  rw [Doc.declared, Doc.declared, htype]
  split
  · rfl
  · rw [reduceOption, ((hnames.filterMap id).map Types.named).foldl_eq]
  · rfl

theorem values (a : Addr) :
    ((d'.values (moved d d' T a)).map d'.shape).Perm ((d.values a).map d.shape) := by
  have hitems := ((h.items (a.field "enum")).map d'.shape).symm
  rw [map_map, show d'.shape ∘ moved d d' T = d.shape from funext h.shape] at hitems
  have henum := h.shape (a.field "enum")
  have hconst := h.shape (a.field "const")
  rw [moved] at hitems henum hconst
  rw [Doc.values, Doc.values, henum, hconst]
  split
  · exact hitems
  · rw [map_singleton, map_singleton, hconst]
  · exact .refl _

theorem admits (a : Addr) {members members' all all' : List Types} (hm : members'.Perm members)
    (hall : all'.Perm all) :
    d'.admits (moved d d' T a) members' all' = d.admits a members all := by
  have hnullable := h.shape (a.field "nullable")
  rw [moved] at hnullable
  rw [Doc.admits, Doc.admits, h.declared, constants, constants, (h.values a).all_eq,
    (h.values a).any_eq, (h.values a).any_eq, hm.foldl_eq,
    Types.meetAll_perm ((hall.append_right _).filter _), hnullable]

/-! ## A reading has gone with its nodes -/

section Reading

variable (hT : d.refs ⊆ T)

include hT

theorem next (reading : List Addr) (a : Addr) :
    d'.next (reading.map (moved d d' T)) (moved d d' T a) =
      (d.next reading a).map (moved d d' T) := by
  rw [Doc.next, Doc.next, h.resolve hT]
  rcases d.resolve hops a with _ | node
  · rfl
  · have hiff := @mem_map_of_injective _ _ (moved d d' T) moved_injective node reading
    rw [Option.map_some, Option.filter_some, Option.filter_some]
    by_cases hin : node ∈ reading
    · rw [if_neg fun hnot => absurd (hiff.mpr hin) (of_decide_eq_true hnot),
        if_neg fun hnot => absurd hin (of_decide_eq_true hnot)]
      rfl
    · rw [if_pos (decide_eq_true (mt hiff.mp hin)), if_pos (decide_eq_true hin)]
      rfl

theorem means_of_meaning {n : Nat} (hmeaning : ∀ reading node,
      d'.meaning n (reading.map (moved d d' T)) (moved d d' T node) = d.meaning n reading node)
    (reading : List Addr) (a : Addr) :
    d'.means n (reading.map (moved d d' T)) (moved d d' T a) = d.means n reading a := by
  rw [means, means, h.next hT]
  rcases d.next reading a with _ | node
  · rw [Option.map_none, Option.map_none, Option.map_none]
  · exact hmeaning reading node

theorem meaning (n : Nat) (reading : List Addr) (node : Addr) :
    d'.meaning n (reading.map (moved d d' T)) (moved d d' T node) = d.meaning n reading node := by
  induction n generalizing reading node with
  | zero => rfl
  | succ n ih =>
    have hperm : ∀ {l l' : List Addr}, (l.map (moved d d' T)).Perm l' →
        (l'.map (d'.means n ((node :: reading).map (moved d d' T)))).Perm
          (l.map (d.means n (node :: reading))) := by
      intro l l' hl
      refine (hl.symm.map _).trans (.of_eq ?_)
      rw [map_map]
      exact map_congr_left fun a _ => h.means_of_meaning hT ih (node :: reading) a
    rw [meaning_succ, meaning_succ]
    exact h.admits node (hperm (h.members node).1) (hperm (h.members node).2)

theorem exists_visit (n : Nat) {reading : List Addr} {node : Addr} {v : Visit}
    (hv : v ∈ d'.visits n (reading.map (moved d d' T)) (moved d d' T node)) :
    ∃ w ∈ d.visits n reading node,
      v = ⟨w.fuel, w.reading.map (moved d d' T), moved d d' T w.node⟩ := by
  induction n generalizing reading node with
  | zero =>
    rw [visits, mem_singleton] at hv
    exact ⟨_, mem_visits 0 reading node, hv⟩
  | succ n ih =>
    rw [visits, mem_cons, mem_flatMap] at hv
    rcases hv with rfl | ⟨b', hb', hv⟩
    · exact ⟨_, mem_visits (n + 1) reading node, rfl⟩
    · have hperm := (h.members node).1.append (h.members node).2
      rw [← map_append] at hperm
      obtain ⟨b, hb, rfl⟩ := mem_map.mp (hperm.mem_iff.mpr hb')
      rw [← map_cons, h.next hT] at hv
      rcases hnext : d.next (node :: reading) b with _ | x
      · rw [hnext] at hv
        cases hv
      · rw [hnext] at hv
        rw [Option.map_some, Option.toList_some, flatMap_singleton] at hv
        obtain ⟨w, hw, rfl⟩ := ih hv
        exact ⟨w, mem_visits_succ hb (by rw [ways, hnext]; simpa using hw), rfl⟩

theorem steady {n : Nat} {a : Addr} (ha : d.Steady n a) : d'.Steady n (moved d d' T a) := by
  have hways : ∀ v ∈ d'.ways n [] (moved d d' T a), ∃ w ∈ d.ways n [] a,
      v = ⟨w.fuel, w.reading.map (moved d d' T), moved d d' T w.node⟩ := by
    intro v hv
    have hnext := h.next hT [] a
    rw [map_nil] at hnext
    rw [ways, hnext] at hv
    rw [ways]
    rcases hx : d.next [] a with _ | x <;> rw [hx] at hv
    · cases hv
    · rw [Option.map_some, Option.toList_some, flatMap_singleton] at hv
      obtain ⟨w, hw, heq⟩ := @exists_visit _ _ _ _ h hT n [] x v hv
      exact ⟨w, by simpa using hw, heq⟩
  refine ⟨fun v hv => ?_, fun v hv w hw hnode => ?_⟩
  · obtain ⟨v', hv', rfl⟩ := hways v hv
    exact ha.ends v' hv'
  · obtain ⟨v', hv', rfl⟩ := hways v hv
    obtain ⟨w', hw', rfl⟩ := hways w hw
    rw [h.meaning hT, h.meaning hT]
    exact ha.same v' hv' w' hw' (moved_injective hnode)

end Reading

end Alike

end Doc

/-- Lists written in another order: in a schema that stands outside of the root, and in the root
where neither a reference nor the way to the schema leads into them. -/
structure Reorders {P : Pointers} (x y : Doc P × Addr) : Prop where
  root : Reorder P (x.1.refs ∪ { p | x.1.pointer p .root = some x.2 }) (some x.1.root)
    (some y.1.root)
  own : Reorder P ∅ (some x.1.own) (some y.1.own)
  schema : x.2 = .own ∨ ∃ p, x.1.pointer p .root = some x.2
  stays : y.2 = x.2

theorem Reorders.steady_and_means {P : Pointers} {x y : Doc P × Addr} (h : Reorders x y) {n : Nat}
    (hx : x.1.Steady n x.2) :
    y.1.Steady n y.2 ∧ y.1.means n [] y.2 = x.1.means n [] x.2 := by
  have halike : x.1.Alike y.1 _ := ⟨h.root, h.own⟩
  have hT : x.1.refs ⊆ x.1.refs ∪ { p | x.1.pointer p .root = some x.2 } := Set.subset_union_left
  have hmoved :
      Doc.moved x.1 y.1 (x.1.refs ∪ { p | x.1.pointer p .root = some x.2 }) x.2 = x.2 := by
    rcases h.schema with hown | ⟨p, hp⟩
    · rw [hown]
      rfl
    · exact (halike.pointer (a := .root) rfl (.inr hp)).2 x.2 hp
  have hsteady := halike.steady hT hx
  have hmeans := halike.means_of_meaning hT (halike.meaning hT n) [] x.2
  rw [h.stays]
  rw [hmoved] at hsteady hmeans
  exact ⟨hsteady, hmeans⟩

theorem reorders_own {P : Pointers} (root : Value) (key : String) {l l' : List Value}
    (h : l.Perm l') : Reorders ((⟨root, .object [(key, .array l)]⟩ : Doc P), .own)
      (⟨root, .object [(key, .array l')]⟩, .own) := by
  refine ⟨.refl _, .fields fun k => ?_, .inl rfl, rfl⟩
  rw [lookup_cons, lookup_cons]
  split
  · exact .perm (fun _ => False.elim) h
  · exact .refl _

def plain : Pointers where
  tokens
    | [] => some []
    | '/' :: p => some ((p.splitOn '/').map String.ofList)
    | _ => none
  index _ := none

def ofType (name : String) : Value := .object [("type", .string name)]

def ref (text : String) : Value := .object [("$ref", .string text)]

/-- `A` is a string or a `B`, and `B` an integer or an `A`. -/
def cycle (all : List Value) : Doc plain where
  root := .object [("$defs", .object [
    ("A", .object [("anyOf", .array [ofType "string", ref "#/$defs/B"])]),
    ("B", .object [("anyOf", .array [ofType "integer", ref "#/$defs/A"])])])]
  own := .object [("allOf", .array all)]

/-- `A` is a string, `null` or an `A`. -/
def selfCycle (all : List Value) : Doc plain where
  root := .object [("$defs", .object [
    ("A", .object [("anyOf", .array [ofType "string", ofType "null", ref "#/$defs/A"])])])]
  own := .object [("allOf", .array all)]

end Smg.Schema
