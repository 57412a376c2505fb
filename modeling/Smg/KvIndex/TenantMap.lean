import Mathlib.Data.UInt
import Smg.Lib.Grouping
import Smg.Lib.Unordered

/-!
# The tenants of a tree node

Both radix trees keep, at every node, the tenants that own it with the time of their last access, in
a concurrent hash map.  The order such a map is iterated in is not specified: writing to an entry
that is there keeps it, a new entry may rearrange the whole map.  So the map here is a table in its
iteration order, and every new entry shuffles it (`Shuffle`), in any way at all.
-/

set_option autoImplicit false

namespace Smg.KvIndex

abbrev TenantId := String

/-- Candidate cap for the `matched_tenants` of a match result. -/
def MATCHED_TENANTS_CAP : Nat := 8

/-- The tenants of a node with their last access, in iteration order. -/
abbrev TenantMap := Table TenantId UInt64

abbrev EntryOrder := Shuffle (Sigma fun _ : TenantId => UInt64)

namespace TenantMap

def arrange (o : EntryOrder) (m : TenantMap) : TenantMap :=
  ⟨o.fn m.entries, (List.perm_nodupKeys (o.perm m.entries)).mpr m.nodupKeys⟩

/-- Write an entry, in place if the tenant has one. -/
def write (o : EntryOrder) (t : TenantId) (ts : UInt64) (m : TenantMap) : TenantMap :=
  if t ∈ m then m.replace t ts else arrange o (m.insert t ts)

def enter (o : EntryOrder) (t : TenantId) (ts : UInt64) (m : TenantMap) : TenantMap :=
  if t ∈ m then m else arrange o (m.insert t ts)

variable {o : EntryOrder} {m : TenantMap} {t : TenantId}

theorem mem_arrange : t ∈ arrange o m ↔ t ∈ m :=
  AList.mem_of_perm (o.perm m.entries)

theorem mem_write {t' : TenantId} {ts : UInt64} : t' ∈ write o t ts m ↔ t' = t ∨ t' ∈ m := by
  rw [write]
  split
  · rename_i h
    rw [AList.mem_replace]
    exact ⟨.inr, fun h' => h'.elim (fun heq => heq ▸ h) id⟩
  · rw [mem_arrange, AList.mem_insert]

end TenantMap

end Smg.KvIndex
