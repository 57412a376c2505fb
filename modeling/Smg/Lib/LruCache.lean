import Mathlib.Data.List.Basic

/-!
# Caches that forget what was used least recently

`LruCrate` is such a cache as a library offers it: its operations, and what they are documented to
do to the keys in the order of their last use, the most recent one first.  `push` puts an entry in
front; in a full cache the last entry is given back.  An entry that was there under the same key is
given back too, and is not a loss of another one.

`LruCrate.listed` is the cache that is a list of its entries.
-/

set_option autoImplicit false

namespace Smg

/-- A cache library. -/
structure LruCrate (κ ν : Type) where
  Cache : Type
  /-- A cache with room for so many entries. -/
  new : Nat → Cache
  capacity : Cache → Nat
  /-- The keys, the most recently used first. -/
  keys : Cache → List κ
  /-- Whether there is an entry; this is no use of it. -/
  contains : Cache → κ → Bool
  /-- The value of an entry, which is used now. -/
  get : Cache → κ → Option ν × Cache
  /-- Put an entry in; the answer is the entry it replaces, or the one it drives out. -/
  push : Cache → κ → ν → Option (κ × ν) × Cache
  new_spec : ∀ n, capacity (new n) = n ∧ keys (new n) = []
  contains_iff : ∀ {c key}, contains c key = true ↔ key ∈ keys c
  /-- A key that is not there is not found. -/
  get_of_notMem : ∀ {c key}, key ∉ keys c → get c key = (none, c)
  capacity_push : ∀ c key value, capacity (push c key value).2 = capacity c
  /-- A new key in a cache with room. -/
  push_of_lt : ∀ {c key} (value : ν), key ∉ keys c → (keys c).length < capacity c →
    (push c key value).1 = none ∧ keys (push c key value).2 = key :: keys c
  push_of_le : ∀ {c key} (value : ν), key ∉ keys c → capacity c ≤ (keys c).length →
    (push c key value).1.map Prod.fst = (keys c).getLast? ∧
      keys (push c key value).2 = key :: (keys c).dropLast

/-- Entries by their last use, the most recent first. -/
structure LruCache (κ ν : Type) where
  entries : List (κ × ν)
  capacity : Nat

namespace LruCache

variable {κ ν : Type} [DecidableEq κ]

def keys (c : LruCache κ ν) : List κ := c.entries.map Prod.fst

def contains (c : LruCache κ ν) (key : κ) : Bool := c.entries.any fun e => e.1 == key

def get (c : LruCache κ ν) (key : κ) : Option ν × LruCache κ ν :=
  match c.entries.find? fun e => e.1 == key with
  | some e => (some e.2, { c with entries := e :: c.entries.filter fun e => e.1 != key })
  | none => (none, c)

def push (c : LruCache κ ν) (key : κ) (value : ν) : Option (κ × ν) × LruCache κ ν :=
  match c.entries.find? fun e => e.1 == key with
  | some e => (some e, { c with entries := (key, value) :: c.entries.filter fun e => e.1 != key })
  | none =>
    if c.capacity ≤ c.entries.length then
      (c.entries.getLast?, { c with entries := (key, value) :: c.entries.dropLast })
    else (none, { c with entries := (key, value) :: c.entries })

variable {c : LruCache κ ν} {key : κ}

theorem find?_eq_none (h : key ∉ c.keys) : c.entries.find? (fun e => e.1 == key) = none := by
  rw [List.find?_eq_none]
  intro e he heq
  exact h (beq_iff_eq.mp heq ▸ List.mem_map_of_mem he)

end LruCache

def LruCrate.listed {κ ν : Type} [DecidableEq κ] : LruCrate κ ν where
  Cache := LruCache κ ν
  new := .mk []
  capacity := LruCache.capacity
  keys := LruCache.keys
  contains := LruCache.contains
  get := LruCache.get
  push := LruCache.push
  new_spec _ := ⟨rfl, rfl⟩
  contains_iff := by simp [LruCache.contains, LruCache.keys]
  get_of_notMem h := by rw [LruCache.get, LruCache.find?_eq_none h]
  capacity_push c key value := by
    rw [LruCache.push]
    split
    · rfl
    · split <;> rfl
  push_of_lt value h hlt := by
    have hroom := Nat.not_le.mpr hlt
    rw [LruCache.keys, List.length_map] at hroom
    rw [LruCache.push, LruCache.find?_eq_none h]
    simp [LruCache.keys, hroom]
  push_of_le value h hle := by
    rw [LruCache.keys, List.length_map] at hle
    rw [LruCache.push, LruCache.find?_eq_none h]
    simp [LruCache.keys, hle, List.getLast?_map, List.map_dropLast]

end Smg
