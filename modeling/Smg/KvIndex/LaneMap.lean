import Mathlib.Data.UInt
import Mathlib.Data.Nat.Bitwise
import Smg.Lib.Grouping
import Smg.Lib.LinearProbe

/-!
# The lane map

`ChainBlockMap` is one worker's blocks by engine hash: an open-addressing table of slots with a tag
byte beside each, Fibonacci home slot, linear probing over the tags, at most three quarters full,
doubling growth and backward-shift deletion.

The loops of the source run on fuel, one unit for each cell of the table, and every read of a slot
or a tag is checked, so an operation of the model answers `none` where the code would index out of
bounds or go round its table for ever.  Sizes are unbounded, where the code would fail to allocate.
-/

set_option autoImplicit false

namespace Smg.KvIndex

open LinearProbe

/-- Where a block lives in the chain index. -/
structure BlockRef where
  run : UInt32
  offset : UInt32
deriving DecidableEq, Repr

/-! ## The table -/

def MIN_SLOTS : Nat := 16

def AHEAD : Nat := 8

def EMPTY : UInt32 := 0xFFFFFFFF

def VACANT : UInt8 := 0

structure Slot where
  key : UInt64
  /-- The run, or `EMPTY`. -/
  run : UInt32
  offset : UInt32
deriving DecidableEq, Repr

def EMPTY_SLOT : Slot := { key := 0, run := EMPTY, offset := 0 }

/-- One worker's blocks by engine hash. -/
structure ChainBlockMap where
  /-- Power-of-two length, or empty before the first insert. -/
  slots : List Slot
  /-- One tag per slot: `VACANT`, or the key's fingerprint. -/
  tags : List UInt8
  len : Nat
  /-- What brings a hash down to a slot. -/
  shift : Nat
deriving DecidableEq, Repr

/-- Seven bits of the key with the top bit set, so it is never `VACANT`. -/
def fingerprint (key : UInt64) : UInt8 := (key >>> 25).toUInt8 ||| 0x80

/-- The zero bits below the lowest set bit of a word. -/
def trailingZeros (n : Nat) : Nat := (List.range 64).findIdx fun i => n.testBit i

/-- `a.wrapping_sub(b) & mask`: the mask leaves the difference modulo the table size. -/
def maskedSub (mask a b : Nat) : Nat := (a + (mask + 1) - b) &&& mask

def Slot.place (s : Slot) : BlockRef := { run := s.run, offset := s.offset }

namespace ChainBlockMap

def new : ChainBlockMap := { slots := [], tags := [], len := 0, shift := 64 }

def home (m : ChainBlockMap) (key : UInt64) : Nat :=
  (key * 0x9E3779B97F4A7C15).toNat >>> m.shift

def mask (m : ChainBlockMap) : Nat := m.slots.length - 1

/-- The loop of `probe`. -/
def probeLoop (m : ChainBlockMap) (key : UInt64) : Nat → Nat → Option (Except Nat Nat)
  | 0, _ => none
  | fuel + 1, index => do
    let found ← m.tags[index]?
    if found = VACANT then
      return .error index
    let slot ← m.slots[index]?
    if found = fingerprint key ∧ slot.key = key then
      return .ok index
    m.probeLoop key fuel ((index + 1) &&& m.mask)

/-- The slot holding `key`, or else the empty slot that ends its probe run. -/
def probe (m : ChainBlockMap) (key : UInt64) : Option (Except Nat Nat) :=
  m.probeLoop key m.slots.length (m.home key)

def find (m : ChainBlockMap) (key : UInt64) : Option (Option Nat) :=
  if m.len = 0 then
    some none
  else
    (m.probe key).map Except.toOption

def containsKey (m : ChainBlockMap) (key : UInt64) : Option Bool :=
  (m.find key).map Option.isSome

def get (m : ChainBlockMap) (key : UInt64) : Option (Option BlockRef) := do
  match ← m.find key with
  | none => return none
  | some index =>
    let slot ← m.slots[index]?
    return some slot.place

def write (m : ChainBlockMap) (index : Nat) (slot : Slot) (tag : UInt8) : ChainBlockMap :=
  { m with slots := m.slots.set index slot, tags := m.tags.set index tag }

/-- Doubling until `needed` entries are at most three quarters. -/
def grow (needed : Nat) : Nat → Nat → Option Nat
  | 0, capacity => if needed * 4 > capacity * 3 then none else some capacity
  | fuel + 1, capacity =>
    if needed * 4 > capacity * 3 then grow needed fuel (capacity * 2) else some capacity

/-- The first vacant slot from `index` on. -/
def vacantFrom (m : ChainBlockMap) : Nat → Nat → Option Nat
  | 0, _ => none
  | fuel + 1, index => do
    let tag ← m.tags[index]?
    if tag = VACANT then
      return index
    m.vacantFrom fuel ((index + 1) &&& m.mask)

def rehash (m : ChainBlockMap) (slot : Slot) : Option ChainBlockMap := do
  let index ← m.vacantFrom m.slots.length (m.home slot.key)
  return m.write index slot (fingerprint slot.key)

/-- Room for `additional` more entries under three-quarters load. -/
def reserve (m : ChainBlockMap) (additional : Nat) : Option ChainBlockMap := do
  let needed := m.len + additional
  if needed * 4 ≤ m.slots.length * 3 then
    return m
  let capacity ← grow needed needed (max m.slots.length MIN_SLOTS)
  let fresh : ChainBlockMap :=
    { slots := List.replicate capacity EMPTY_SLOT
      tags := List.replicate capacity VACANT
      len := m.len
      shift := 64 - trailingZeros capacity }
  (m.slots.filter fun slot => slot.run ≠ EMPTY).foldlM rehash fresh

/-- Insert or replace; the previous location when the key was present. -/
def insert (m : ChainBlockMap) (key : UInt64) (at' : BlockRef) :
    Option (ChainBlockMap × Option BlockRef) := do
  let m ← m.reserve 1
  match ← m.probe key with
  | .ok index =>
    let slot ← m.slots[index]?
    let written := { slot with run := at'.run, offset := at'.offset }
    return ({ m with slots := m.slots.set index written }, some slot.place)
  | .error empty =>
    let m := m.write empty { key, run := at'.run, offset := at'.offset } (fingerprint key)
    return ({ m with len := m.len + 1 }, none)

/-- Backward-shift deletion: pull later entries of the probe run into the hole whenever the hole
lies between their home slot and their current slot. -/
def backshift : Nat → ChainBlockMap → Nat → Nat → Option ChainBlockMap
  | 0, _, _, _ => none
  | fuel + 1, m, hole, next => do
    let next := (next + 1) &&& m.mask
    let tag ← m.tags[next]?
    if tag = VACANT then
      return m
    let slot ← m.slots[next]?
    let home := m.home slot.key
    if maskedSub m.mask next home ≥ maskedSub m.mask next hole then
      backshift fuel ((m.write hole slot tag).write next EMPTY_SLOT VACANT) next next
    else
      backshift fuel m hole next

/-- Remove `key`; its location when it was present. -/
def remove (m : ChainBlockMap) (key : UInt64) : Option (ChainBlockMap × Option BlockRef) := do
  match ← m.find key with
  | none => return (m, none)
  | some hole =>
    let slot ← m.slots[hole]?
    let m := { m.write hole EMPTY_SLOT VACANT with len := m.len - 1 }
    let m ← backshift m.slots.length m hole hole
    return (m, some slot.place)

/-- A prefetch of the home slot of `key`: no effect but that of indexing. -/
def touch (m : ChainBlockMap) (key : UInt64) : Option Unit :=
  if m.slots.isEmpty then
    some ()
  else do
    let home := m.home key
    let _ ← m.tags[home]?
    let _ ← m.slots[home]?
    return ()

/-- The key `AHEAD` places on is touched, if there is one. -/
def touchAhead (m : ChainBlockMap) (keys : List UInt64) : Option Unit :=
  match keys[AHEAD]? with
  | some next => m.touch next
  | none => some ()

/-- The loop of `remove_all`, over the keys left. -/
def removeLoop : ChainBlockMap → List UInt64 → Option (ChainBlockMap × List BlockRef)
  | m, [] => some (m, [])
  | m, key :: keys => do
    m.touchAhead (key :: keys)
    let (m, at') ← m.remove key
    let (m, removed) ← m.removeLoop keys
    return (m, at'.toList ++ removed)

/-- Remove every key of a batch, reporting each present one's location. -/
def removeAll (m : ChainBlockMap) (keys : List UInt64) :
    Option (ChainBlockMap × List BlockRef) :=
  if m.len = 0 then
    some (m, [])
  else do
    (keys.take AHEAD).forM m.touch
    m.removeLoop keys

/-- The loop of `insert_run`: the keys left, and the index of the first of them. -/
def insertLoop (first : BlockRef) :
    ChainBlockMap → Nat → List UInt64 → Option (ChainBlockMap × List (BlockRef × BlockRef))
  | m, _, [] => some (m, [])
  | m, index, key :: keys => do
    m.touchAhead (key :: keys)
    let at' : BlockRef := { run := first.run, offset := first.offset + UInt32.ofNat index }
    match ← m.probe key with
    | .ok slot =>
      let found ← m.slots[slot]?
      let written := { found with run := at'.run, offset := at'.offset }
      let (m, moved) ← insertLoop first { m with slots := m.slots.set slot written }
        (index + 1) keys
      return (m, if found.place ≠ at' then (found.place, at') :: moved else moved)
    | .error empty =>
      let m := m.write empty { key, run := at'.run, offset := at'.offset } (fingerprint key)
      insertLoop first { m with len := m.len + 1 } (index + 1) keys

/-- Insert consecutive blocks starting at `first` for the keys given, reporting the old and the new
place of each key that moved. -/
def insertRun (m : ChainBlockMap) (keys : List UInt64) (first : BlockRef) :
    Option (ChainBlockMap × List (BlockRef × BlockRef)) := do
  let m ← m.reserve keys.length
  (keys.take AHEAD).forM m.touch
  m.insertLoop first 0 keys

def iter (m : ChainBlockMap) : List (UInt64 × BlockRef) :=
  (m.slots.filter fun slot => slot.run ≠ EMPTY).map fun slot => (slot.key, slot.place)

end ChainBlockMap

end Smg.KvIndex
