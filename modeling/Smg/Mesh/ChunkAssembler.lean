import Mathlib.Algebra.Order.BigOperators.Group.List
import Mathlib.Data.List.MinMax
import Smg.Mesh.Chunking

/-!
# Reassembling chunks on the receiver

`transport/chunk_assembler.rs`.  In-flight assemblies are scoped by sending peer and application
key.  A chunk of a newer generation resets an assembly, one of an older generation is dropped, one
of the same generation is recorded; a full assembly is taken out and handed over.  What stays
behind is bounded: past the concurrency cap the oldest assembly goes, past the byte cap the largest
one, and a periodic sweep removes those older than a timeout.

The order in which the concurrent map is iterated decides ties between equally old or equally large
assemblies.  Here the map is a list of entries and its order is part of the state; the runs of
`Smg.Mesh.StreamDelivery` may permute it at any time.

* `enforceBounds_sublist`, `gc_sublist`: eviction removes assemblies and changes none.
* `assembler_within_bounds`: after any calls both caps hold.
-/

set_option autoImplicit false

namespace Smg.Mesh

open List Option

/-- The largest chunk count a chunk may advertise. -/
def maxTotalChunks : Nat := 1024

/-- The sender and the application key an assembly belongs to. -/
abbrev AssemblyKey := String × String

/-- A partial value.  The count of filled slots is kept beside the slots, and is exact. -/
structure AssemblyState where
  generation : Nat
  receivedCount : Nat
  chunks : List (Option Bytes)
  /-- When the assembly was started. -/
  createdAt : Nat
  counted : receivedCount = chunks.countP Option.isSome
  deriving DecidableEq

namespace AssemblyState

def new (now generation total : Nat) : AssemblyState where
  generation
  receivedCount := 0
  chunks := List.replicate total none
  createdAt := now
  counted := by simp [List.countP_replicate]

def isComplete (s : AssemblyState) : Bool := s.receivedCount == s.chunks.length

/-- The memory an assembly holds: its payloads, and `slotBytes` for each slot. -/
def bytesHeld (slotBytes : Nat) (s : AssemblyState) : Nat :=
  (s.chunks.reduceOption.map List.length).sum + s.chunks.length * slotBytes

def assemble (s : AssemblyState) : List Bytes := s.chunks.reduceOption

theorem countP_set_isSome (chunks : List (Option Bytes)) (index : Nat) (data : Bytes) :
    (chunks.set index (some data)).countP isSome
      = if chunks[index]? = some none then chunks.countP isSome + 1
        else chunks.countP isSome := by
  induction chunks generalizing index with
  | nil => simp
  | cons c cs ih =>
    rcases index with _ | index
    · rcases c with _ | c <;> simp
    · rw [set_cons_succ, countP_cons, ih, getElem?_cons_succ, countP_cons]
      split <;> omega

def record (s : AssemblyState) (index : Nat) (data : Bytes) : AssemblyState where
  generation := s.generation
  receivedCount := if s.chunks[index]? = some none then s.receivedCount + 1 else s.receivedCount
  chunks := s.chunks.set index (some data)
  createdAt := s.createdAt
  counted := by rw [countP_set_isSome, s.counted]

@[simp] theorem record_generation (s : AssemblyState) (index : Nat) (data : Bytes) :
    (s.record index data).generation = s.generation := rfl

@[simp] theorem record_chunks (s : AssemblyState) (index : Nat) (data : Bytes) :
    (s.record index data).chunks = s.chunks.set index (some data) := rfl

theorem isComplete_iff (s : AssemblyState) : s.isComplete = true ↔ ∀ c ∈ s.chunks, c.isSome := by
  rw [isComplete, beq_iff_eq, s.counted, countP_eq_length]

/-- A full assembly is its slots' contents. -/
theorem map_some_assemble {s : AssemblyState} (h : s.isComplete = true) :
    s.assemble.map some = s.chunks := by
  rw [isComplete_iff] at h
  rw [assemble]
  generalize s.chunks = cs at h
  induction cs with
  | nil => rfl
  | cons c cs ih =>
    obtain ⟨d, rfl⟩ := isSome_iff_exists.mp (h c mem_cons_self)
    exact congrArg _ (ih fun c hc => h c (mem_cons_of_mem _ hc))

end AssemblyState

abbrev Assemblies := Table AssemblyKey AssemblyState

/-- What bounds a receiver's memory. -/
structure AssemblerLimits where
  /-- How many assemblies may be in flight. -/
  maxConcurrent : Nat
  /-- How many bytes they may hold together. -/
  maxBytes : Nat
  /-- The size of one slot of a chunk vector, `size_of::<Option<Bytes>>()`. -/
  slotBytes : Nat

namespace Assemblies

/-- `DashMap::remove_if`: remove an entry that satisfies the condition, and return it. -/
def removeIf (t : Assemblies) (k : AssemblyKey) (cond : AssemblyState → Bool) :
    Assemblies × Option AssemblyState :=
  match t.lookup k with
  | some s => if cond s then (t.erase k, some s) else (t, none)
  | none => (t, none)

def incomplete (t : Assemblies) : List (Sigma fun _ : AssemblyKey => AssemblyState) :=
  t.entries.filter fun e => !e.2.isComplete

def incompleteCount (t : Assemblies) : Nat := t.incomplete.length

/-- How many bytes the assemblies that are not full hold. -/
def incompleteBytes (slotBytes : Nat) (t : Assemblies) : Nat :=
  (t.incomplete.map fun e => e.2.bytesHeld slotBytes).sum

/-- The assembly that was started first, and its generation. -/
def oldestIncomplete (t : Assemblies) : Option (AssemblyKey × Nat) :=
  (t.incomplete.argmin fun e => e.2.createdAt).map fun e => (e.1, e.2.generation)

/-- The assembly that holds most bytes, and its generation. -/
def largestIncomplete (slotBytes : Nat) (t : Assemblies) : Option (AssemblyKey × Nat) :=
  (lastMax (fun e => e.2.bytesHeld slotBytes) t.incomplete).map fun e => (e.1, e.2.generation)

/-- Remove an assembly if it is still the one that was picked. -/
def tryEvictStale (t : Assemblies) (k : AssemblyKey) (gen : Nat) : Assemblies :=
  (t.removeIf k fun s => s.generation == gen && !s.isComplete).1

/-- A `while` loop that evicts: as long as `excess` says there is too much, remove what `pick`
names.  `fuel` bounds the number of rounds; the number of entries is enough, see
`evictWhile_done`. -/
def evictWhile (excess : Assemblies → Bool) (pick : Assemblies → Option (AssemblyKey × Nat)) :
    Nat → Assemblies → Assemblies
  | 0, t => t
  | fuel + 1, t =>
    if excess t then
      match pick t with
      | none => t
      | some (k, gen) => evictWhile excess pick fuel (t.tryEvictStale k gen)
    else t

/-- Evict partial assemblies until the bounds hold: the oldest over the concurrency cap, the largest
over the byte cap. -/
def enforceBounds (lim : AssemblerLimits) (t : Assemblies) : Assemblies :=
  let t := evictWhile (fun t => lim.maxConcurrent < t.incompleteCount) oldestIncomplete
    t.entries.length t
  evictWhile (fun t => lim.maxBytes < t.incompleteBytes lim.slotBytes)
    (largestIncomplete lim.slotBytes) t.entries.length t

/-- What `receive_chunk` finds or makes under the key of a chunk: the assembly the chunk is to be
recorded in, or nothing if the chunk is stale or disagrees about the count. -/
def entryFor (now : Nat) (entry : Option AssemblyState) (generation total : Nat) :
    Option AssemblyState :=
  let entry := entry.getD (.new now generation total)
  match compare generation entry.generation with
  | .gt => some (.new now generation total)
  | .lt => none
  | .eq => if entry.chunks.length ≠ total then none else some entry

/-- The part of `receive_chunk` that runs under the map's lock: the map with the chunk recorded, and
the assembly it was recorded in; nothing if the chunk is malformed or turned away. -/
def recordChunk (now : Nat) (t : Assemblies) (peerId key : String)
    (generation index total : Nat) (data : Bytes) : Option (Assemblies × AssemblyState) :=
  if total = 0 ∨ maxTotalChunks < total ∨ total ≤ index then none
  else
    let asmKey : AssemblyKey := (peerId, key)
    match entryFor now (t.lookup asmKey) generation total with
    | none => none
    | some entry =>
      let recorded := entry.record index data
      some (t.insert asmKey recorded, recorded)

/-- Record an incoming chunk.  The second component is the whole value once every chunk of the
current generation has arrived. -/
def receiveChunk (lim : AssemblerLimits) (now : Nat) (t : Assemblies) (peerId key : String)
    (generation index total : Nat) (data : Bytes) : Assemblies × Option (List Bytes) :=
  match recordChunk now t peerId key generation index total data with
  | none => (t, none)
  | some (t, recorded) =>
    if !recorded.isComplete then (enforceBounds lim t, none)
    else
      let (t, taken) :=
        removeIf t (peerId, key) fun s => s.generation == generation && s.isComplete
      (t, taken.map AssemblyState.assemble)

/-- Invalidate any pending partial assembly of a peer under a key, whatever its generation. -/
def dropPending (t : Assemblies) (peerId key : String) : Assemblies := t.erase (peerId, key)

/-- A partial assembly that is at least `timeout` old. -/
def expired (now timeout : Nat) (s : AssemblyState) : Bool :=
  decide (timeout ≤ now - s.createdAt) && !s.isComplete

/-- Drop partial assemblies older than `timeout`: collect their keys, then remove those that are
still expired. -/
def gc (now timeout : Nat) (t : Assemblies) : Assemblies :=
  let keys := (t.entries.filter fun e => expired now timeout e.2).map Sigma.fst
  keys.foldl (fun t k => (removeIf t k (expired now timeout)).1) t

/-! ## Eviction removes assemblies and changes none -/

/-- Every assembly of `t'` is one of `t`. -/
def Sub (t' t : Assemblies) : Prop :=
  ∀ (k : AssemblyKey) (s : AssemblyState), t'.lookup k = some s → t.lookup k = some s

variable {t : Assemblies}

theorem sub_of_sublist {t' : Assemblies} (h : t'.entries <+ t.entries) : Sub t' t :=
  fun _ _ hs => AList.mem_lookup_iff.mpr (h.subset (AList.mem_lookup_iff.mp hs))

theorem erase_sublist (t : Assemblies) (k : AssemblyKey) : (t.erase k).entries <+ t.entries :=
  eraseP_sublist

theorem removeIf_sublist (t : Assemblies) (k : AssemblyKey) (cond : AssemblyState → Bool) :
    (removeIf t k cond).1.entries <+ t.entries := by
  rw [removeIf]
  split
  · split
    · exact erase_sublist t k
    · exact .refl _
  · exact .refl _

theorem evictWhile_sublist (excess : Assemblies → Bool)
    (pick : Assemblies → Option (AssemblyKey × Nat)) (fuel : Nat) (t : Assemblies) :
    (evictWhile excess pick fuel t).entries <+ t.entries := by
  induction fuel generalizing t with
  | zero => exact .refl _
  | succ fuel ih =>
    rw [evictWhile]
    split
    · split
      · exact .refl _
      · exact (ih _).trans (removeIf_sublist _ _ _)
    · exact .refl _

variable (lim : AssemblerLimits)

theorem enforceBounds_sublist (t : Assemblies) : (enforceBounds lim t).entries <+ t.entries :=
  (evictWhile_sublist _ _ _ _).trans (evictWhile_sublist _ _ _ _)

theorem gc_sublist (now timeout : Nat) (t : Assemblies) :
    (gc now timeout t).entries <+ t.entries := by
  rw [gc]
  generalize (t.entries.filter fun e => expired now timeout e.2).map Sigma.fst = keys
  induction keys generalizing t with
  | nil => exact .refl _
  | cons k keys ih => exact (ih _).trans (removeIf_sublist _ _ _)

/-! ## After an eviction loop the bound holds -/

/-- A pick names an assembly that is not full, and there is one whenever any is left. -/
def Picks (pick : Assemblies → Option (AssemblyKey × Nat)) : Prop :=
  ∀ t : Assemblies, incomplete t ≠ [] →
    ∃ e ∈ incomplete t, pick t = some (e.1, e.2.generation)

theorem picks_oldestIncomplete : Picks oldestIncomplete := by
  intro t ht
  rw [oldestIncomplete]
  rcases h : (incomplete t).argmin fun e => e.2.createdAt with _ | e
  · exact absurd (argmin_eq_none.mp h) ht
  · exact ⟨e, argmin_mem h, by rw [h]; rfl⟩

theorem picks_largestIncomplete (slotBytes : Nat) : Picks (largestIncomplete slotBytes) := by
  intro t ht
  rw [largestIncomplete]
  obtain ⟨e, he⟩ := exists_lastMax (fun e => e.2.bytesHeld slotBytes) ht
  exact ⟨e, (lastMax_spec he).1, by rw [he]; rfl⟩

/-- Evicting a picked assembly leaves one entry less. -/
theorem length_tryEvictStale {e : Sigma fun _ : AssemblyKey => AssemblyState}
    (h : e ∈ incomplete t) :
    (tryEvictStale t e.1 e.2.generation).entries.length + 1 = t.entries.length := by
  obtain ⟨hmem, hc⟩ := mem_filter.mp h
  rw [Bool.not_eq_true'] at hc
  have hl := AList.mem_lookup_iff.mpr hmem
  rw [tryEvictStale, removeIf, hl]
  simp only [hc, beq_self_eq_true, Bool.not_false, Bool.and_self, if_true]
  have hlen : (t.erase e.1).entries.length = t.entries.length - 1 :=
    length_eraseP_of_mem hmem (by simp)
  have hpos := length_pos_of_mem hmem
  omega

/-- **An eviction loop reaches its bound.**  A bound that an empty list of partial assemblies meets
is met after as many rounds as there are entries. -/
theorem evictWhile_done (excess : Assemblies → Bool)
    {pick : Assemblies → Option (AssemblyKey × Nat)} (hpick : Picks pick)
    (hnone : ∀ t, incomplete t = [] → excess t = false) :
    ∀ (fuel : Nat) (t : Assemblies), t.entries.length ≤ fuel →
      excess (evictWhile excess pick fuel t) = false
  | 0, t, h => by
    rw [evictWhile]
    apply hnone
    rw [incomplete, eq_nil_of_length_eq_zero (Nat.le_zero.mp h), filter_nil]
  | fuel + 1, t, h => by
    rw [evictWhile]
    split
    · next hex =>
      have hne : incomplete t ≠ [] := fun h0 => by
        rw [hnone t h0] at hex
        cases hex
      obtain ⟨e, he, hp⟩ := hpick t hne
      rw [hp]
      have hlen := length_tryEvictStale he
      exact evictWhile_done excess hpick hnone fuel _ (by omega)
    · next hex => simpa using hex

variable {fuel : Nat}

theorem evictWhile_count (h : t.entries.length ≤ fuel) :
    incompleteCount (evictWhile (fun t => lim.maxConcurrent < incompleteCount t) oldestIncomplete
      fuel t) ≤ lim.maxConcurrent := by
  have hdone := evictWhile_done (fun t => lim.maxConcurrent < incompleteCount t)
    picks_oldestIncomplete (fun t ht => by rw [incompleteCount, ht]; simp) fuel t h
  simpa using hdone

theorem evictWhile_bytes (h : t.entries.length ≤ fuel) :
    incompleteBytes lim.slotBytes
      (evictWhile (fun t => lim.maxBytes < incompleteBytes lim.slotBytes t)
        (largestIncomplete lim.slotBytes) fuel t) ≤ lim.maxBytes := by
  have hdone := evictWhile_done (fun t => lim.maxBytes < incompleteBytes lim.slotBytes t)
    (picks_largestIncomplete lim.slotBytes) (fun t ht => by rw [incompleteBytes, ht]; simp) fuel t h
  simpa using hdone

/-! ## What receiving a chunk can do -/

variable {now generation total : Nat}

theorem entryFor_cases {entry : Option AssemblyState} {s : AssemblyState}
    (h : entryFor now entry generation total = some s) :
    s.generation = generation ∧ s.chunks.length = total ∧
      ((s = .new now generation total ∧ ∀ s' ∈ entry, s'.generation < generation) ∨
        entry = some s) := by
  rw [entryFor] at h
  rcases entry with _ | old
  · simp only [getD_none, AssemblyState.new, Std.compare_self, length_replicate, ne_eq,
      not_true_eq_false, if_false, some.injEq] at h
    subst h
    exact ⟨rfl, length_replicate, .inl ⟨rfl, by simp⟩⟩
  · split at h
    · next hcmp =>
      rw [some.injEq] at h
      subst h
      refine ⟨rfl, length_replicate, .inl ⟨rfl, fun s' hs' => ?_⟩⟩
      rw [← some.inj hs']
      exact Nat.compare_eq_gt.mp hcmp
    · cases h
    · next hcmp =>
      split at h
      · cases h
      · next hlen =>
        rw [some.injEq] at h
        subst h
        exact ⟨(Nat.compare_eq_eq.mp hcmp).symm, by simpa using hlen, .inr rfl⟩

/-- A chunk is turned away only by an assembly of a newer generation, or by one of its own that
disagrees about the count. -/
theorem entryFor_eq_none {entry : Option AssemblyState}
    (h : entryFor now entry generation total = none) :
    ∃ s, entry = some s ∧ (generation < s.generation ∨
      (generation = s.generation ∧ s.chunks.length ≠ total)) := by
  rw [entryFor] at h
  rcases entry with _ | old
  · simp [AssemblyState.new] at h
  · refine ⟨old, rfl, ?_⟩
    split at h
    · cases h
    · next hcmp => exact .inl (Nat.compare_eq_lt.mp hcmp)
    · next hcmp =>
      split at h
      · next hlen => exact .inr ⟨Nat.compare_eq_eq.mp hcmp, hlen⟩
      · cases h

variable {peerId key : String} {index : Nat} {data : Bytes}

theorem recordChunk_eq {s : AssemblyState} (hok : total ≤ maxTotalChunks ∧ index < total)
    (h : entryFor now (t.lookup (peerId, key)) generation total = some s) :
    recordChunk now t peerId key generation index total data =
      some (t.insert (peerId, key) (s.record index data), s.record index data) := by
  rw [recordChunk, if_neg (by omega)]
  simp only [h]

/-- **What receiving a chunk can do.**  It is turned away, or malformed; or it is recorded, and the
assembly stays partial, after which the bounds are enforced, or is completed and taken out. -/
theorem receiveChunk_cases :
    (receiveChunk lim now t peerId key generation index total data = (t, none) ∧
        (total ≠ 0 → total ≤ maxTotalChunks → index < total →
          entryFor now (t.lookup (peerId, key)) generation total = none)) ∨
      ∃ s, entryFor now (t.lookup (peerId, key)) generation total = some s ∧
        (total ≤ maxTotalChunks ∧ index < total) ∧
        ((s.record index data).isComplete = false ∧
            receiveChunk lim now t peerId key generation index total data =
              (enforceBounds lim (t.insert (peerId, key) (s.record index data)), none) ∨
          (s.record index data).isComplete = true ∧
            receiveChunk lim now t peerId key generation index total data =
              (t.erase (peerId, key), some (s.record index data).assemble)) := by
  rw [receiveChunk]
  by_cases hok : total = 0 ∨ maxTotalChunks < total ∨ total ≤ index
  · rw [recordChunk, if_pos hok]
    exact .inl ⟨rfl, fun _ _ _ => by omega⟩
  rcases hentry : entryFor now (t.lookup (peerId, key)) generation total with _ | s
  · rw [recordChunk, if_neg hok]
    simp only [hentry]
    exact .inl ⟨trivial, fun _ _ _ => trivial⟩
  refine .inr ⟨s, rfl, by omega, ?_⟩
  rw [recordChunk_eq (by omega) hentry]
  rcases hc : (s.record index data).isComplete
  · exact .inl ⟨rfl, by simp [hc]⟩
  · have herase : (t.insert (peerId, key) (s.record index data)).erase (peerId, key) =
        t.erase (peerId, key) := AList.ext (kerase_cons_eq rfl)
    exact .inr ⟨rfl, by simp [hc, removeIf, (entryFor_cases hentry).1, herase]⟩

/-! ## The bounds over whole runs -/

/-- A call of the assembler, or a change of the order in which its map is iterated. -/
inductive AssemblerCall where
  | receiveChunk (now : Nat) (peerId key : String) (generation index total : Nat) (data : Bytes)
  | dropPending (peerId key : String)
  | gc (now timeout : Nat)
  /-- The map is iterated in another order from now on. -/
  | reorder (t : Assemblies)

def exec (lim : AssemblerLimits) (t : Assemblies) : AssemblerCall → Assemblies
  | .receiveChunk now peerId key generation index total data =>
    (receiveChunk lim now t peerId key generation index total data).1
  | .dropPending peerId key => dropPending t peerId key
  | .gc now timeout => gc now timeout t
  | .reorder t' => if t'.entries.Perm t.entries then t' else t

/-- The lengths of the chunks buffered in the assemblies that are not full. -/
def bufferedBytes (t : Assemblies) : Nat :=
  (t.incomplete.map fun e => (e.2.assemble.map List.length).sum).sum

def WithinCaps (t : Assemblies) : Prop :=
  incompleteCount t ≤ lim.maxConcurrent ∧ incompleteBytes lim.slotBytes t ≤ lim.maxBytes

variable {lim}

/-- The caps go on holding while partial assemblies only go. -/
theorem WithinCaps.of_subperm {t' : Assemblies} (h : WithinCaps lim t)
    (hsub : t'.entries <+~ t.entries) : WithinCaps lim t' := by
  have hin : incomplete t' <+~ incomplete t := hsub.filter _
  refine ⟨hin.length_le.trans h.1, le_trans ?_ h.2⟩
  obtain ⟨es, hperm, hes⟩ := hin
  rw [incompleteBytes, ← (hperm.map _).sum_nat]
  exact (hes.map _).sum_le_sum fun _ _ => Nat.zero_le _

theorem withinCaps_enforceBounds (t : Assemblies) : WithinCaps lim (enforceBounds lim t) :=
  ⟨((evictWhile_sublist _ _ _ _).filter _).length_le.trans (evictWhile_count lim le_rfl),
    evictWhile_bytes lim le_rfl⟩

/-- **One call keeps the caps.** -/
theorem WithinCaps.exec (h : WithinCaps lim t) (c : AssemblerCall) :
    WithinCaps lim (exec lim t c) := by
  cases c with
  | receiveChunk now peerId key generation index total data =>
    rw [Assemblies.exec]
    rcases receiveChunk_cases lim with ⟨hr, -⟩ | ⟨s, -, -, ⟨-, hr⟩ | ⟨-, hr⟩⟩ <;> rw [hr]
    · exact h
    · exact withinCaps_enforceBounds _
    · exact h.of_subperm (erase_sublist _ _).subperm
  | dropPending peerId key => exact h.of_subperm (erase_sublist _ _).subperm
  | gc now timeout => exact h.of_subperm (gc_sublist _ _ _).subperm
  | reorder t' =>
    rw [Assemblies.exec]
    split
    · next hperm => exact h.of_subperm hperm.subperm
    · exact h

/-- **The assembler's bounds.**  After any calls at most `maxConcurrent` assemblies are partial, and
the bytes counted for them are at most `maxBytes`; what is counted is the lengths of their buffered
chunks and `slotBytes` for each of their slots.  In any state both loops of an eviction leave with
their condition false, after at most as many rounds as there are entries. -/
theorem assembler_within_bounds (lim : AssemblerLimits) (calls : List AssemblerCall) :
    WithinCaps lim (calls.foldl (exec lim) ∅) ∧
      (∀ t, incompleteBytes lim.slotBytes t = bufferedBytes t +
        ((incomplete t).map fun e => e.2.chunks.length).sum * lim.slotBytes) ∧
      ∀ t fuel, t.entries.length ≤ fuel →
        incompleteCount (evictWhile (fun t => lim.maxConcurrent < incompleteCount t)
          oldestIncomplete fuel t) ≤ lim.maxConcurrent ∧
        incompleteBytes lim.slotBytes
          (evictWhile (fun t => lim.maxBytes < incompleteBytes lim.slotBytes t)
            (largestIncomplete lim.slotBytes) fuel t) ≤ lim.maxBytes := by
  refine ⟨?_, fun t => ?_, fun t fuel h => ?_⟩
  · have hstart : WithinCaps lim ∅ := ⟨Nat.zero_le _, Nat.zero_le _⟩
    generalize (∅ : Assemblies) = t at hstart
    induction calls generalizing t with
    | nil => exact hstart
    | cons c calls ih => exact ih _ (hstart.exec c)
  · rw [incompleteBytes, bufferedBytes]
    induction incomplete t with
    | nil => simp
    | cons e es ih =>
      rw [map_cons, sum_cons, ih, AssemblyState.bytesHeld, map_cons, sum_cons, map_cons, sum_cons,
        Nat.add_mul, AssemblyState.assemble]
      omega
  · exact ⟨evictWhile_count lim h, evictWhile_bytes lim h⟩

/-- One byte in the first of two slots of 32 bytes is counted as 65 bytes. -/
theorem byte_figure_counts_slots :
    let lim : AssemblerLimits := ⟨20, 1000, 32⟩
    let t := exec lim ∅ (.receiveChunk 0 "peer" "key" 1 0 2 [7])
    bufferedBytes t = 1 ∧ incompleteBytes lim.slotBytes t = 65 := by
  decide

end Assemblies

end Smg.Mesh
