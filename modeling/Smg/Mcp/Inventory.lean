import Smg.Lib.Grouping

/-!
# The tool inventory

`inventory/index.rs`: the tools of all connected servers, by qualified name, with an index by simple
name, one by server and one by category, and the aliases.  The prompts and resources of a server,
which are cleared with its tools and which nothing here reads, are left out; so is what a tool entry
holds besides its tool and its category.

What a caller sees of one category is `listByCategory`.  Its answer comes from two indexes, so the
lemmas about it are stated for inventories in which the two agree on the category (`Agrees`).
-/

set_option autoImplicit false

namespace Smg.Mcp

inductive ToolCategory where
  | static
  | alias
  | dynamic
  | custom
  | builtin
deriving DecidableEq

/-- `ALIAS_SERVER_KEY`: the server key of the entries that stand for aliases. -/
def aliasServerKey : String := "alias"

/-- A server key and a tool name. -/
structure QualifiedToolName where
  serverKey : String
  toolName : String
deriving DecidableEq

/-- A tool as a server lists it: its name, and what else the server says about it. -/
structure Tool (δ : Type) where
  name : String
  definition : δ
deriving DecidableEq

/-- An entry of the inventory. -/
structure ToolEntry (δ : Type) where
  qualifiedName : QualifiedToolName
  tool : Tool δ
  category : ToolCategory
deriving DecidableEq

/-- `ToolEntry::from_server_tool`, with a category. -/
def ToolEntry.fromServerTool {δ : Type} (serverKey : String) (tool : Tool δ)
    (category : ToolCategory) : ToolEntry δ :=
  ⟨⟨serverKey, tool.name⟩, tool, category⟩

structure ToolInventory (δ : Type) where
  toolsByQualified : Table QualifiedToolName (ToolEntry δ)
  toolsBySimpleName : Table String (List QualifiedToolName)
  toolsByServer : Table String (List String)
  toolsByCategory : Table ToolCategory (List QualifiedToolName)
  aliases : Table String QualifiedToolName

namespace ToolInventory

variable {δ : Type}

def new : ToolInventory δ := ⟨∅, ∅, ∅, ∅, ∅⟩

/-- The names of a set that may not be there yet. -/
def namesOf {κ ν : Type} [DecidableEq κ] (t : Table κ (List ν)) (k : κ) : List ν :=
  (t.lookup k).getD []

def insertEntry (inv : ToolInventory δ) (entry : ToolEntry δ) : ToolInventory δ :=
  let q := entry.qualifiedName
  { inv with
    toolsByCategory := inv.toolsByCategory.insert entry.category
      ((namesOf inv.toolsByCategory entry.category).insert q)
    toolsByQualified := inv.toolsByQualified.insert q entry
    toolsBySimpleName := inv.toolsBySimpleName.insert q.toolName
      (let names := namesOf inv.toolsBySimpleName q.toolName
       if q ∈ names then names else names ++ [q])
    toolsByServer := inv.toolsByServer.insert q.serverKey
      ((namesOf inv.toolsByServer q.serverKey).insert q.toolName) }

/-- `remove_entry`: from the primary, category and simple-name indexes. -/
def removeEntry (inv : ToolInventory δ) (q : QualifiedToolName) : ToolInventory δ :=
  let names := (namesOf inv.toolsBySimpleName q.toolName).filter (· ≠ q)
  { inv with
    toolsByQualified := inv.toolsByQualified.erase q
    toolsByCategory :=
      match inv.toolsByQualified.lookup q with
      | some entry =>
        match inv.toolsByCategory.lookup entry.category with
        | some set => inv.toolsByCategory.insert entry.category (set.filter (· ≠ q))
        | none => inv.toolsByCategory
      | none => inv.toolsByCategory
    toolsBySimpleName :=
      if names.isEmpty then inv.toolsBySimpleName.erase q.toolName
      else inv.toolsBySimpleName.insert q.toolName names }

/-- Remove an alias that pointed to a cleared server, and the entry that stands for it. -/
def clearAlias (inv : ToolInventory δ) (name : String) : ToolInventory δ :=
  let inv := { inv with aliases := inv.aliases.erase name }
  let inv := inv.removeEntry ⟨aliasServerKey, name⟩
  match inv.toolsByServer.lookup aliasServerKey with
  | none => inv
  | some names =>
    let names := names.filter (· ≠ name)
    { inv with
      toolsByServer :=
        if names.isEmpty then inv.toolsByServer.erase aliasServerKey
        else inv.toolsByServer.insert aliasServerKey names }

def removeEntries (inv : ToolInventory δ) (serverKey : String) (names : List String) :
    ToolInventory δ :=
  names.foldl (fun inv name => inv.removeEntry ⟨serverKey, name⟩) inv

def aliasesTo (inv : ToolInventory δ) (serverKey : String) : List String :=
  (inv.aliases.entries.filter fun e => e.2.serverKey = serverKey).map Sigma.fst

/-- `clear_server_tool_entries`: the tools of a server, and the aliases that target them. -/
def clearServerToolEntries (inv : ToolInventory δ) (serverKey : String) : ToolInventory δ :=
  let names := namesOf inv.toolsByServer serverKey
  let inv := { inv with toolsByServer := inv.toolsByServer.erase serverKey }
  let inv := inv.removeEntries serverKey names
  (inv.aliasesTo serverKey).foldl clearAlias inv

def clearServerTools (inv : ToolInventory δ) (serverKey : String) : ToolInventory δ :=
  inv.clearServerToolEntries serverKey

def listByCategory (inv : ToolInventory δ) (category : ToolCategory) : List (ToolEntry δ) :=
  (namesOf inv.toolsByCategory category).filterMap inv.toolsByQualified.lookup

/-! ## The Dynamic tools -/

def dynamicAt (inv : ToolInventory δ) (q : QualifiedToolName) : Option (ToolEntry δ) :=
  (inv.toolsByQualified.lookup q).filter fun entry => entry.category = .dynamic

/-- The indexes agree on the Dynamic tools, and none of them stands for an alias. -/
structure Agrees (inv : ToolInventory δ) : Prop where
  category : ∀ q, q ∈ namesOf inv.toolsByCategory .dynamic ↔ (inv.dynamicAt q).isSome
  server : ∀ q, (inv.dynamicAt q).isSome → q.toolName ∈ namesOf inv.toolsByServer q.serverKey
  notAlias : ∀ q, (inv.dynamicAt q).isSome → q.serverKey ≠ aliasServerKey

section

variable {κ ν : Type} [DecidableEq κ]

theorem namesOf_insert (t : Table κ (List ν)) (k k' : κ) (names : List ν) :
    namesOf (t.insert k names) k' = if k' = k then names else namesOf t k' := by
  rw [namesOf, Table.lookup_insert_if]
  split <;> rfl

theorem namesOf_erase (t : Table κ (List ν)) (k k' : κ) :
    namesOf (t.erase k) k' = if k' = k then [] else namesOf t k' := by
  rw [namesOf, Table.lookup_erase_if]
  split <;> rfl

end

variable {inv : ToolInventory δ}

variable {entry : ToolEntry δ}

theorem dynamicAt_eq_some {q : QualifiedToolName} :
    inv.dynamicAt q = some entry ↔
      inv.toolsByQualified.lookup q = some entry ∧ entry.category = .dynamic := by
  rw [dynamicAt, Option.filter_eq_some_iff, decide_eq_true_eq]

/-- **What the inventory lists as Dynamic** are the Dynamic tools under all names. -/
theorem mem_listByCategory (h : inv.Agrees) :
    entry ∈ inv.listByCategory .dynamic ↔ ∃ q, inv.dynamicAt q = some entry := by
  rw [listByCategory, List.mem_filterMap]
  constructor
  · rintro ⟨q, hq, hlookup⟩
    obtain ⟨found, hfound⟩ := Option.isSome_iff_exists.mp ((h.category q).mp hq)
    have hsame := (dynamicAt_eq_some.mp hfound).1
    rw [hlookup] at hsame
    exact ⟨q, hsame ▸ hfound⟩
  · rintro ⟨q, hq⟩
    exact ⟨q, (h.category q).mpr (by rw [hq]; rfl), (dynamicAt_eq_some.mp hq).1⟩

/-! ### Inserting -/

theorem dynamicAt_insertEntry (hcat : entry.category = .dynamic) (q : QualifiedToolName) :
    (inv.insertEntry entry).dynamicAt q =
      if q = entry.qualifiedName then some entry else inv.dynamicAt q := by
  rw [dynamicAt, insertEntry, Table.lookup_insert_if]
  split
  next => rw [Option.filter_some, hcat]; rfl
  next => rfl

theorem Agrees.insertEntry (h : inv.Agrees) (hcat : entry.category = .dynamic)
    (hserver : entry.qualifiedName.serverKey ≠ aliasServerKey) :
    (inv.insertEntry entry).Agrees where
  category q := by
    rw [dynamicAt_insertEntry hcat, ToolInventory.insertEntry, hcat, namesOf_insert, if_pos rfl,
      List.mem_insert_iff, h.category]
    split <;> simp_all
  server q hq := by
    rw [dynamicAt_insertEntry hcat] at hq
    rw [ToolInventory.insertEntry, namesOf_insert]
    split at hq
    next heq => rw [heq, if_pos rfl, List.mem_insert_iff]; exact .inl rfl
    next =>
      split
      next hkey => rw [List.mem_insert_iff, ← hkey]; exact .inr (h.server q hq)
      next => exact h.server q hq
  notAlias q hq := by
    rw [dynamicAt_insertEntry hcat] at hq
    split at hq
    next heq => exact heq ▸ hserver
    next => exact h.notAlias q hq

/-! ### Clearing -/

theorem dynamicAt_removeEntry (q q' : QualifiedToolName) :
    (inv.removeEntry q).dynamicAt q' = if q' = q then none else inv.dynamicAt q' := by
  change ((inv.toolsByQualified.erase q).lookup q').filter _ = _
  rw [Table.lookup_erase_if]
  split <;> rfl

theorem mem_category_removeEntry {q : QualifiedToolName}
    (h : ∀ q, q ∈ namesOf inv.toolsByCategory .dynamic ↔ (inv.dynamicAt q).isSome)
    (q' : QualifiedToolName) :
    q' ∈ namesOf (inv.removeEntry q).toolsByCategory .dynamic ↔
      ((inv.removeEntry q).dynamicAt q').isSome := by
  rw [dynamicAt_removeEntry, removeEntry]
  have hnot : (∀ entry, inv.toolsByQualified.lookup q = some entry → entry.category ≠ .dynamic) →
      (q' ∈ namesOf inv.toolsByCategory .dynamic ↔
        (if q' = q then none else inv.dynamicAt q').isSome) := by
    intro hcat
    rw [h]
    split
    next heq =>
      subst heq
      refine iff_of_false (fun hsome => ?_) (by simp)
      obtain ⟨entry, hentry⟩ := Option.isSome_iff_exists.mp hsome
      obtain ⟨hlookup, hdyn⟩ := dynamicAt_eq_some.mp hentry
      exact hcat entry hlookup hdyn
    next => rfl
  rcases hq : inv.toolsByQualified.lookup q with _ | entry
  · exact hnot (by simp [hq])
  · dsimp only
    by_cases hcat : entry.category = .dynamic
    · have hmem : q ∈ namesOf inv.toolsByCategory .dynamic := by
        rw [h, dynamicAt_eq_some.mpr ⟨hq, hcat⟩]
        rfl
      rcases hset : inv.toolsByCategory.lookup entry.category with _ | set
      · rw [namesOf, ← hcat, hset] at hmem
        exact absurd hmem List.not_mem_nil
      · have hnames : namesOf inv.toolsByCategory .dynamic = set := by
          rw [namesOf, ← hcat, hset]
          rfl
        rw [hcat, namesOf_insert, if_pos rfl, List.mem_filter, ← hnames]
        split <;> simp_all
    · have hnone := hnot fun e he => by
        rw [hq, Option.some.injEq] at he
        exact he ▸ hcat
      rcases hset : inv.toolsByCategory.lookup entry.category with _ | set
      · exact hnone
      · rw [namesOf_insert, if_neg (Ne.symm hcat)]
        exact hnone

/-- An inventory that holds the Dynamic tools of another but for some. -/
structure Without (inv inv' : ToolInventory δ) (gone : QualifiedToolName → Prop) : Prop where
  eq_none : ∀ q, gone q → inv'.dynamicAt q = none
  kept : ∀ q, ¬ gone q → inv'.dynamicAt q = inv.dynamicAt q
  category : ∀ q, q ∈ namesOf inv'.toolsByCategory .dynamic ↔ (inv'.dynamicAt q).isSome

variable {start : ToolInventory δ} {gone : QualifiedToolName → Prop}

section

variable (h : start.Without inv gone)

include h

theorem Without.congr {gone' : QualifiedToolName → Prop} (hiff : ∀ q, gone' q ↔ gone q) :
    start.Without inv gone' where
  eq_none q hq := h.eq_none q ((hiff q).mp hq)
  kept q hq := h.kept q fun hgone => hq ((hiff q).mpr hgone)
  category := h.category

theorem without_removeEntry (q : QualifiedToolName) :
    start.Without (inv.removeEntry q) fun q' => gone q' ∨ q' = q where
  eq_none q' hq' := by
    rw [dynamicAt_removeEntry]
    split
    · rfl
    next hne => exact h.eq_none q' (hq'.resolve_right hne)
  kept q' hq' := by
    rw [dynamicAt_removeEntry, if_neg (not_or.mp hq').2]
    exact h.kept q' (not_or.mp hq').1
  category := mem_category_removeEntry h.category

theorem without_removeEntries (serverKey : String) (names : List String) :
    start.Without (inv.removeEntries serverKey names)
        (fun q => gone q ∨ q.serverKey = serverKey ∧ q.toolName ∈ names) ∧
      (inv.removeEntries serverKey names).toolsByServer = inv.toolsByServer := by
  induction names generalizing inv gone with
  | nil => exact ⟨h.congr (by simp), rfl⟩
  | cons name names ih =>
    obtain ⟨hrest, hserver⟩ := ih (without_removeEntry h ⟨serverKey, name⟩)
    refine ⟨hrest.congr fun q => ?_, hserver⟩
    rw [or_assoc]
    refine or_congr .rfl ?_
    rcases q with ⟨key, tool⟩
    simp only [List.mem_cons, QualifiedToolName.mk.injEq]
    tauto

theorem without_clearAlias (name : String) :
    start.Without (inv.clearAlias name) (fun q => gone q ∨ q = ⟨aliasServerKey, name⟩) ∧
      ∀ k, k ≠ aliasServerKey →
        namesOf (inv.clearAlias name).toolsByServer k = namesOf inv.toolsByServer k := by
  have hw : start.Without { inv with aliases := inv.aliases.erase name } gone :=
    ⟨h.eq_none, h.kept, h.category⟩
  have hremoved := without_removeEntry hw ⟨aliasServerKey, name⟩
  rw [clearAlias]
  split
  · exact ⟨hremoved, fun _ _ => rfl⟩
  next names hnames =>
    refine ⟨⟨hremoved.eq_none, hremoved.kept, hremoved.category⟩, fun k hk => ?_⟩
    dsimp only
    split
    · rw [namesOf_erase, if_neg hk]
      rfl
    · rw [namesOf_insert, if_neg hk]
      rfl

theorem without_clearAliases (names : List String) : start.Without (names.foldl clearAlias inv)
        (fun q => gone q ∨ q.serverKey = aliasServerKey ∧ q.toolName ∈ names) ∧
      ∀ k, k ≠ aliasServerKey →
        namesOf (names.foldl clearAlias inv).toolsByServer k = namesOf inv.toolsByServer k := by
  induction names generalizing inv gone with
  | nil => exact ⟨h.congr (by simp), fun _ _ => rfl⟩
  | cons name names ih =>
    obtain ⟨hone, hserver⟩ := without_clearAlias h name
    obtain ⟨hrest, hservers⟩ := ih hone
    refine ⟨hrest.congr fun q => ?_, fun k hk => (hservers k hk).trans (hserver k hk)⟩
    rw [or_assoc]
    refine or_congr .rfl ?_
    rcases q with ⟨key, tool⟩
    simp only [List.mem_cons, QualifiedToolName.mk.injEq]
    tauto

end

/-- **Clearing a server** takes away its Dynamic tools and no others. -/
theorem dynamicAt_clear (h : inv.Agrees) (serverKey : String) :
    (inv.clearServerTools serverKey).Agrees ∧
      ∀ q, (inv.clearServerTools serverKey).dynamicAt q =
        if q.serverKey = serverKey then none else inv.dynamicAt q := by
  have hstart : inv.Without { inv with toolsByServer := inv.toolsByServer.erase serverKey }
      fun _ => False := ⟨fun _ => False.elim, fun _ _ => rfl, h.category⟩
  obtain ⟨hremoved, hserver⟩ :=
    without_removeEntries hstart serverKey (namesOf inv.toolsByServer serverKey)
  obtain ⟨hcleared, hservers⟩ := without_clearAliases hremoved (aliasesTo _ serverKey)
  change inv.Without (inv.clearServerTools serverKey) _ at hcleared
  have hat : ∀ q, (inv.clearServerTools serverKey).dynamicAt q =
      if q.serverKey = serverKey then none else inv.dynamicAt q := by
    intro q
    rcases hq : inv.dynamicAt q with _ | entry
    · rw [ite_self]
      rcases Classical.em _ with hgone | hkept
      · exact hcleared.eq_none q hgone
      · exact (hcleared.kept q hkept).trans hq
    · have hsome : (inv.dynamicAt q).isSome := by rw [hq]; rfl
      by_cases hkey : q.serverKey = serverKey
      · rw [if_pos hkey]
        exact hcleared.eq_none q (.inl (.inr ⟨hkey, hkey ▸ h.server q hsome⟩))
      · rw [if_neg hkey, ← hq]
        refine hcleared.kept q ?_
        rintro ((hfalse | hserver) | halias)
        · exact hfalse
        · exact hkey hserver.1
        · exact h.notAlias q hsome halias.1
  refine ⟨⟨hcleared.category, fun q hq => ?_, fun q hq => ?_⟩, hat⟩
  · rw [hat] at hq
    split at hq
    · cases hq
    next hkey =>
      rw [ToolInventory.clearServerTools, clearServerToolEntries, hservers _ (h.notAlias q hq),
        hserver, namesOf_erase, if_neg hkey]
      exact h.server q hq
  · rw [hat] at hq
    split at hq
    · cases hq
    · exact h.notAlias q hq

end ToolInventory

end Smg.Mcp
