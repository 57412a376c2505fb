import Smg.Lib.Trace
import Smg.Mesh.ChunkAssembler

/-!
# Chunked stream delivery

The receiving half of `transport/sync_stream.rs`: entries of received batches are dispatched one by
one.  An entry that is a whole value goes straight to the subscribers and drops whatever partial
assembly its sender has under its key; any other entry goes through the assembler, and the
subscribers hear of it when its value is complete.

A run of the receiver interleaves dispatched entries with sweeps of the garbage collector, the
passing of time and changes of the map's iteration order.  An entry may be dispatched whenever its
sender has put it in a batch at all (`Sent`), so entries may be lost, repeated and reordered at
will.

* `Receiver.Exact` is the invariant: every partial assembly is a part of one publish, and every
  value handed over is one publish.
* `Receiver.Tracks` follows one publish through the arrival of its chunks.
* A single-chunk entry drops the partial assembly of its key without comparing generations, which
  `Receiver.dropsNewer` describes and `stream_stale_value_drops_newer` shows to lose a value.
-/

set_option autoImplicit false

namespace Smg.Mesh

open Assemblies Publish AssemblyState List AList

/-- One call of the subscribers. -/
structure HandedOver where
  /-- The peer the value came from. -/
  peer : String
  /-- The key it was published under. -/
  key : String
  /-- The tag of the entry that completed it. -/
  generation : Nat
  fragments : List Bytes
  deriving DecidableEq, Repr

/-- The receiving side of a node. -/
structure Receiver where
  assemblies : Assemblies
  now : Nat
  /-- What the subscribers were given, oldest first. -/
  handed : List HandedOver

/-- What can happen at a receiver. -/
inductive StreamAction where
  /-- An entry of a received batch is dispatched. -/
  | receive (peerId : String) (entry : StreamEntry)
  | collect (timeout : Nat)
  | wait (elapsed : Nat)
  /-- The map of assemblies is iterated in another order from now on. -/
  | reorder (assemblies : Assemblies)
  deriving DecidableEq

/-- A publish has been handed over, with the bytes it was published with. -/
def Publish.IsHanded (p : Publish) (v : HandedOver) : Prop :=
  p.peer = v.peer ∧ p.key = v.key ∧ p.generation = v.generation ∧ v.fragments.flatten = p.value

variable (lim : AssemblerLimits)

namespace Receiver

def new : Receiver := { assemblies := ∅, now := 0, handed := [] }

/-- The body of the loop of `dispatch_stream_batch`. -/
def dispatchEntry (lim : AssemblerLimits) (peerId : String) (r : Receiver) (entry : StreamEntry) :
    Receiver :=
  if entry.totalChunks = 1 then
    { r with
      assemblies := r.assemblies.dropPending peerId entry.key
      handed := r.handed ++ [⟨peerId, entry.key, entry.generation, [entry.data]⟩] }
  else
    match r.assemblies.receiveChunk lim r.now peerId entry.key entry.generation entry.chunkIndex
      entry.totalChunks entry.data with
    | (t, some fragments) =>
      { r with
        assemblies := t
        handed := r.handed ++ [⟨peerId, entry.key, entry.generation, fragments⟩] }
    | (t, none) => { r with assemblies := t }

/-- A chunk is well formed, and is recorded in an assembly. -/
structure Takes (peerId : String) (r : Receiver) (e : StreamEntry) (s : AssemblyState) : Prop where
  one : e.totalChunks ≠ 1
  ok : e.totalChunks ≤ maxTotalChunks ∧ e.chunkIndex < e.totalChunks
  entry : entryFor r.now (r.assemblies.lookup (peerId, e.key)) e.generation e.totalChunks = some s

/-- **What dispatching an entry can do.**  A whole value is handed over; a chunk is turned away, or
malformed; or it is recorded, and the assembly stays partial, after which the bounds are enforced,
or is completed and handed over. -/
@[elab_as_elim]
theorem dispatchEntry_cases (lim : AssemblerLimits) (peerId : String) (r : Receiver)
    (e : StreamEntry) {motive : Receiver → Prop}
    (whole : e.totalChunks = 1 → motive { r with
      assemblies := r.assemblies.erase (peerId, e.key)
      handed := r.handed ++ [⟨peerId, e.key, e.generation, [e.data]⟩] })
    (ignored : (e.totalChunks ≠ 0 → e.totalChunks ≤ maxTotalChunks → e.chunkIndex < e.totalChunks →
      entryFor r.now (r.assemblies.lookup (peerId, e.key)) e.generation e.totalChunks = none) →
      motive r)
    (recorded : ∀ s, Takes peerId r e s → (s.record e.chunkIndex e.data).isComplete = false →
      motive { r with
        assemblies := enforceBounds lim
          (r.assemblies.insert (peerId, e.key) (s.record e.chunkIndex e.data)) })
    (completed : ∀ s, Takes peerId r e s → (s.record e.chunkIndex e.data).isComplete = true →
      motive { r with
        assemblies := r.assemblies.erase (peerId, e.key)
        handed := r.handed ++
          [⟨peerId, e.key, e.generation, (s.record e.chunkIndex e.data).assemble⟩] }) :
    motive (dispatchEntry lim peerId r e) := by
  rw [dispatchEntry]
  split
  · next hone => exact whole hone
  · next hone =>
    rcases receiveChunk_cases lim with ⟨hr, hnone⟩ | ⟨s, hs, hok, ⟨hc, hr⟩ | ⟨hc, hr⟩⟩ <;> rw [hr]
    · exact ignored hnone
    · exact recorded s ⟨hone, hok, hs⟩ hc
    · exact completed s ⟨hone, hok, hs⟩ hc

def dispatchStreamBatch (lim : AssemblerLimits) (r : Receiver) (peerId : String)
    (batch : StreamBatch) : Receiver :=
  batch.entries.foldl (dispatchEntry lim peerId) r

def exec (lim : AssemblerLimits) (r : Receiver) : StreamAction → Receiver
  | .receive peerId entry => dispatchEntry lim peerId r entry
  | .collect timeout => { r with assemblies := Assemblies.gc r.now timeout r.assemblies }
  | .wait elapsed => { r with now := r.now + elapsed }
  | .reorder t => if t.entries.Perm r.assemblies.entries then { r with assemblies := t } else r

/-- A batch is a run of its entries: runs of single entries cover batches, and batches of several
peers that are dispatched concurrently. -/
theorem dispatchStreamBatch_eq (r : Receiver) (peerId : String) (batch : StreamBatch) :
    dispatchStreamBatch lim r peerId batch
      = (batch.entries.map (StreamAction.receive peerId)).foldl (exec lim) r := by
  rw [foldl_map]
  rfl

/-- **Packing makes no difference to the receiver**: batches of any size, dispatched in turn, leave
it as the entries do one by one.  With a cap of zero nothing is sent. -/
theorem batches_dispatched (r : Receiver) (peerId : String) (entries : List StreamEntry)
    (c b : Nat) :
    (buildStreamBatches entries c b).foldl (dispatchStreamBatch lim · peerId ·) r =
      if c = 0 ∨ b = 0 then r else (entries.map (.receive peerId)).foldl (exec lim) r := by
  rw [buildStreamBatches]
  split_ifs with h0 hcap
  · rfl
  · simp_all
  · simp_all
  · have hflat := flatten_packEntries c b entries [] 0
    rw [nil_append] at hflat
    conv_rhs => rw [← hflat, map_flatten, foldl_flatten, map_map, foldl_map]
    simp only [dispatchStreamBatch_eq]
    rfl

end Receiver

/-! ## What may be received -/

/-- An entry that `peerId` has put in a batch: the entries of some of its publishes, packed with
some caps. -/
def Sent (pubs : Set Publish) (peerId : String) (entry : StreamEntry) : Prop :=
  ∃ (round : List Publish) (maxChunks maxBytes : Nat),
    (∀ p ∈ round, p ∈ pubs ∧ p.peer = peerId) ∧
      ∃ batch ∈ buildStreamBatches (round.flatMap Publish.entries) maxChunks maxBytes,
        entry ∈ batch.entries

def OnlySent (pubs : Set Publish) (_ : Receiver) : StreamAction → Prop
  | .receive peerId entry => Sent pubs peerId entry
  | _ => True

/-- No two publishes of one peer under one key have the same generation. -/
def DistinctGenerations (pubs : Set Publish) : Prop :=
  ∀ p ∈ pubs, ∀ q ∈ pubs, p.peer = q.peer → p.key = q.key → p.generation = q.generation → p = q

variable {pubs : Set Publish} {peerId : String}

theorem Sent.exists_publish {entry : StreamEntry} (h : Sent pubs peerId entry) :
    ∃ p ∈ pubs, p.peer = peerId ∧ entry ∈ p.entries := by
  obtain ⟨round, c, b, hround, batch, hbatch, he⟩ := h
  obtain ⟨p, hp, hep⟩ := mem_flatMap.mp (mem_of_mem_buildStreamBatches hbatch he)
  exact ⟨p, (hround p hp).1, (hround p hp).2, hep⟩

/-! ## Exactness -/

/-- A partial assembly of `p`: each recorded chunk is the chunk of `p` at its index. -/
structure PartOf (p : Publish) (s : AssemblyState) : Prop where
  generation : s.generation = p.generation
  /-- It has a slot for each chunk. -/
  length : s.chunks.length = p.chunkCount
  /-- What is recorded is `p`'s. -/
  recorded : ∀ (i : Nat) (d : Bytes), s.chunks[i]? = some (some d) →
    ∃ e, p.entries[i]? = some e ∧ e.data = d

variable {e : StreamEntry} {s : AssemblyState} {p : Publish}

namespace PartOf

theorem new (now : Nat) (p : Publish) :
    PartOf p (.new now p.generation p.chunkCount) where
  generation := rfl
  length := length_replicate
  recorded i d h := by
    rw [AssemblyState.new, getElem?_replicate] at h
    split at h <;> simp at h

/-- Recording an entry of `p` where it says it belongs keeps a part of `p` one. -/
theorem record (h : PartOf p s) (he : p.entries[e.chunkIndex]? = some e) :
    PartOf p (s.record e.chunkIndex e.data) where
  generation := h.generation
  length := by rw [record_chunks, length_set, h.length]
  recorded i d hd := by
    rw [record_chunks, getElem?_set] at hd
    split at hd
    · next hi =>
      split at hd
      · obtain rfl : e.data = d := by simpa using hd
        exact ⟨e, hi ▸ he, rfl⟩
      · cases hd
    · exact h.recorded i d hd

/-- **A complete part of a publish is the publish.** -/
theorem assemble_eq (h : PartOf p s) (hc : s.isComplete = true) :
    s.assemble = p.entries.map StreamEntry.data := by
  have hsome := map_some_assemble hc
  have hlen : s.assemble.length = p.entries.length := by
    have := congrArg List.length hsome
    rwa [length_map, h.length] at this
  refine ext_getElem? fun i => ?_
  rcases hi : s.assemble[i]? with _ | d
  · rw [getElem?_eq_none_iff] at hi
    rw [eq_comm, getElem?_eq_none_iff, length_map]
    omega
  · have hd : s.chunks[i]? = some (some d) := by
      rw [← hsome, getElem?_map, hi]
      rfl
    obtain ⟨e, he, rfl⟩ := h.recorded i d hd
    rw [getElem?_map, he]
    rfl

end PartOf

namespace Receiver

/-- Every partial assembly is incomplete and a part of one publish, and every value handed over is
one publish. -/
structure Exact (pubs : Set Publish) (r : Receiver) : Prop where
  /-- Assemblies are parts of publishes. -/
  partOf : ∀ (k : AssemblyKey) (s : AssemblyState), r.assemblies.lookup k = some s →
    s.isComplete = false ∧ ∃ p ∈ pubs, (p.peer, p.key) = k ∧ PartOf p s
  /-- Values handed over are publishes. -/
  handed : ∀ v ∈ r.handed, ∃ p ∈ pubs, p.IsHanded v

variable {r : Receiver} {t : Assemblies}

/-- Losing assemblies keeps exactness. -/
theorem Exact.sub (h : Exact pubs r) (ht : Assemblies.Sub t r.assemblies) :
    Exact pubs { r with assemblies := t } where
  partOf k s hs := h.partOf k s (ht k s hs)
  handed := h.handed

variable {p : Publish}

theorem Exact.hand (h : Exact pubs r) {v : HandedOver} (hp : p ∈ pubs) (hv : p.IsHanded v) :
    Exact pubs { r with handed := r.handed ++ [v] } where
  partOf := h.partOf
  handed := forall_mem_append.mpr ⟨h.handed, forall_mem_singleton.mpr ⟨p, hp, hv⟩⟩

section Step

variable {lim : AssemblerLimits} {pubs : Set Publish} (hgen : DistinctGenerations pubs)
  (hcount : ∀ p ∈ pubs, p.chunkCount < u32Size)

variable {r : Receiver}

include hgen

theorem Exact.partOf_of_generation (hp : p ∈ pubs) (hex : Exact pubs r)
    (hs : r.assemblies.lookup (p.peer, p.key) = some s) (hg : s.generation = p.generation) :
    PartOf p s := by
  obtain ⟨-, q, hq, hk, hpart⟩ := hex.partOf _ _ hs
  rw [Prod.mk.injEq] at hk
  have hqp : q = p := hgen q hq p hp hk.1 hk.2 (hpart.generation.symm.trans hg)
  exact hqp ▸ hpart

include hcount

theorem Exact.partOf_record (h : Exact pubs r) (hp : p ∈ pubs) (he : e ∈ p.entries)
    (hs : entryFor r.now (r.assemblies.lookup (p.peer, e.key)) e.generation e.totalChunks =
      some s) :
    PartOf p (s.record e.chunkIndex e.data) := by
  refine PartOf.record ?_ (getElem_of_mem (hcount p hp) he)
  rw [key_of_mem he, generation_of_mem he,
    totalChunks_of_mem (hcount p hp) he] at hs
  obtain ⟨hg, -, ⟨rfl, -⟩ | hold⟩ := entryFor_cases hs
  · exact PartOf.new r.now p
  · exact h.partOf_of_generation hgen hp hold hg

theorem Exact.dispatchEntry (h : Exact pubs r) (hp : p ∈ pubs) (he : e ∈ p.entries) :
    Exact pubs (dispatchEntry lim p.peer r e) := by
  have hkey := key_of_mem he
  have hgeneration := generation_of_mem he
  refine dispatchEntry_cases lim p.peer r e (fun hone => ?_) (fun _ => h) (fun s hs hc => ?_)
    fun s hs hc => ?_
  · have hc : p.chunkCount = 1 := (totalChunks_of_mem (hcount p hp) he).symm.trans hone
    refine (h.sub (sub_of_sublist (erase_sublist r.assemblies (p.peer, e.key)))).hand hp
      ⟨rfl, hkey.symm, hgeneration.symm, ?_⟩
    rw [flatten_singleton, data_of_chunkCount_eq_one hc he]
  · have hins : Exact pubs { r with
        assemblies := r.assemblies.insert (p.peer, e.key) (s.record e.chunkIndex e.data) } := by
      refine ⟨fun k s' hs' => ?_, h.handed⟩
      rcases Table.lookup_insert_eq_some.mp hs' with ⟨-, hs'⟩ | ⟨rfl, rfl⟩
      · exact h.partOf k s' hs'
      · exact ⟨hc, p, hp, by rw [hkey], h.partOf_record hgen hcount hp he hs.entry⟩
    exact hins.sub (sub_of_sublist (enforceBounds_sublist lim _))
  · refine (h.sub (sub_of_sublist (erase_sublist r.assemblies (p.peer, e.key)))).hand hp
      ⟨rfl, hkey.symm, hgeneration.symm, ?_⟩
    rw [(h.partOf_record hgen hcount hp he hs.entry).assemble_eq hc, flatten_entries]

/-- **Exactness is kept by every action.** -/
theorem Exact.exec (h : Exact pubs r) {a : StreamAction} (ha : OnlySent pubs r a) :
    Exact pubs (exec lim r a) := by
  rcases a with ⟨peerId, entry⟩ | timeout | elapsed | t
  · obtain ⟨p, hp, rfl, he⟩ := ha.exists_publish
    exact h.dispatchEntry hgen hcount hp he
  · exact h.sub (sub_of_sublist (gc_sublist r.now timeout r.assemblies))
  · exact ⟨h.partOf, h.handed⟩
  · rw [Receiver.exec]
    split
    · next hperm =>
      exact h.sub fun k s hs => by rwa [perm_lookup hperm] at hs
    · exact h

end Step

/-! ## Delivery -/

/-- An assembly is in `t` and no longer in `t'`. -/
def lost (t t' : Assemblies) (k : AssemblyKey) : Bool :=
  (t.lookup k).isSome && (t'.lookup k).isNone

/-- The action evicts the assembly under `k`: enforcing the bounds after a chunk was recorded does,
or the garbage collector does. -/
def evicts (lim : AssemblerLimits) (r : Receiver) (k : AssemblyKey) : StreamAction → Bool
  | .receive peerId entry =>
    entry.totalChunks != 1 &&
      match r.assemblies.recordChunk r.now peerId entry.key entry.generation entry.chunkIndex
        entry.totalChunks entry.data with
      | none => false
      | some (t, recorded) => !recorded.isComplete && lost t (Assemblies.enforceBounds lim t) k
  | .collect timeout => lost r.assemblies (Assemblies.gc r.now timeout r.assemblies) k
  | .wait _ => false
  | .reorder _ => false

/-- The action supersedes the assembly of `p`: a well-formed entry of a newer generation of the same
peer and key arrives. -/
def supersedes (p : Publish) : StreamAction → Bool
  | .receive peerId entry =>
    peerId == p.peer && entry.key == p.key && decide (p.generation < entry.generation) &&
      (entry.totalChunks == 1 ||
        (decide (entry.totalChunks ≤ maxTotalChunks) &&
          decide (entry.chunkIndex < entry.totalChunks)))
  | _ => false

/-- The action is the arrival of a whole value of `p`'s peer and key, of an older generation, while
`p` is being assembled. -/
def dropsNewer (p : Publish) (r : Receiver) : StreamAction → Bool
  | .receive peerId entry =>
    peerId == p.peer && entry.key == p.key && entry.totalChunks == 1 &&
      decide (entry.generation < p.generation) &&
        (r.assemblies.lookup (p.peer, p.key)).any fun s => s.generation == p.generation
  | _ => false

/-- No assembly of a newer generation than `p`'s stands in `p`'s place. -/
def NotSuperseded (p : Publish) (r : Receiver) : Prop :=
  ∀ s, r.assemblies.lookup (p.peer, p.key) = some s → s.generation ≤ p.generation

/-- The subscribers were given `p` after the first `n` calls. -/
def HandedSince (p : Publish) (n : Nat) (r : Receiver) : Prop :=
  ∃ v ∈ r.handed.drop n, p.IsHanded v

/-- The action may happen, and it neither evicts nor supersedes `p`'s assembly, nor is it a delayed
older value that drops it. -/
def Undisturbed (lim : AssemblerLimits) (pubs : Set Publish) (p : Publish) (r : Receiver)
    (a : StreamAction) : Prop :=
  OnlySent pubs r a ∧ dropsNewer p r a = false ∧ evicts lim r (p.peer, p.key) a = false ∧
    supersedes p a = false

/-- The entries of `seen` have arrived: they are recorded in an assembly of `p`, or nothing has
arrived yet. -/
structure Tracks (p : Publish) (seen : List StreamEntry) (r : Receiver) : Prop where
  entries : ∀ e ∈ seen, e ∈ p.entries
  notSuperseded : NotSuperseded p r
  recorded : ∀ e ∈ seen, ∃ s, r.assemblies.lookup (p.peer, p.key) = some s ∧
    s.generation = p.generation ∧ s.chunks[e.chunkIndex]? = some (some e.data)

/-- What is tracked depends only on the assembly under `p`'s key. -/
theorem Tracks.congr {seen : List StreamEntry} {r' : Receiver} (h : Tracks p seen r)
    (heq : r'.assemblies.lookup (p.peer, p.key) = r.assemblies.lookup (p.peer, p.key)) :
    Tracks p seen r' where
  entries := h.entries
  notSuperseded s hs := h.notSuperseded s (heq ▸ hs)
  recorded e he := by
    rw [heq]
    exact h.recorded e he

variable {k : AssemblyKey}

/-- An assembly that is removed by an eviction from which `p` is spared stays as it was. -/
theorem lookup_of_not_lost {t' : Assemblies} (hsub : Assemblies.Sub t' t)
    (h : lost t t' k = false) : t'.lookup k = t.lookup k := by
  rcases ht' : t'.lookup k with _ | s
  · rcases ht : t.lookup k with _ | s
    · rfl
    · simp [lost, ht, ht'] at h
  · exact (hsub k s ht').symm

theorem handed_exec (r : Receiver) (a : StreamAction) : r.handed <+: (exec lim r a).handed := by
  rcases a with ⟨peerId, entry⟩ | timeout | elapsed | t
  · rw [exec]
    exact dispatchEntry_cases lim peerId r entry (fun _ => prefix_append _ _) (fun _ => prefix_rfl)
      (fun _ _ _ => prefix_rfl) fun _ _ _ => prefix_append _ _
  · exact prefix_rfl
  · exact prefix_rfl
  · rw [exec]
    split <;> exact prefix_rfl

theorem handed_foldl (r : Receiver) (as : List StreamAction) :
    r.handed <+: (as.foldl (exec lim) r).handed := by
  induction as generalizing r with
  | nil => exact prefix_rfl
  | cons a as ih => exact (handed_exec lim r a).trans (ih _)

variable {n : Nat}

theorem HandedSince.of_prefix {r' : Receiver} (h : HandedSince p n r)
    (hp : r.handed <+: r'.handed) : HandedSince p n r' := by
  obtain ⟨v, hv, hpv⟩ := h
  obtain ⟨l, hl⟩ := hp
  refine ⟨v, ?_, hpv⟩
  rw [← hl, drop_append]
  exact mem_append_left _ hv

theorem handedSince_append (hn : n ≤ r.handed.length) {v : HandedOver} (hv : p.IsHanded v)
    (t : Assemblies) : HandedSince p n { r with assemblies := t, handed := r.handed ++ [v] } := by
  refine ⟨v, ?_, hv⟩
  rw [drop_append_of_le_length hn]
  exact mem_append_right _ (mem_singleton_self v)

variable {lim : AssemblerLimits} {e : StreamEntry}

/-- Enforcing the bounds leaves what is under `k`, unless it evicts it. -/
theorem Takes.lookup_enforceBounds (hs : Takes peerId r e s)
    (hc : (s.record e.chunkIndex e.data).isComplete = false)
    (hev : evicts lim r k (.receive peerId e) = false) :
    (enforceBounds lim (r.assemblies.insert (peerId, e.key) (s.record e.chunkIndex e.data))).lookup
      k = (r.assemblies.insert (peerId, e.key) (s.record e.chunkIndex e.data)).lookup k := by
  refine lookup_of_not_lost (sub_of_sublist (enforceBounds_sublist lim _)) ?_
  simpa [evicts, hs.one, recordChunk_eq hs.ok hs.entry, hc] using hev

theorem lookup_dispatchEntry_ne (hk : k ≠ (peerId, e.key))
    (hev : evicts lim r k (.receive peerId e) = false) :
    (dispatchEntry lim peerId r e).assemblies.lookup k = r.assemblies.lookup k :=
  dispatchEntry_cases lim peerId r e (fun _ => lookup_erase_ne hk) (fun _ => rfl)
    (fun _ hs hc => (hs.lookup_enforceBounds hc hev).trans (lookup_insert_ne hk))
    fun _ _ _ => lookup_erase_ne hk

/-- An entry of an older generation of `p`'s peer and key does no harm, unless it is a whole value
that drops a newer assembly. -/
theorem Tracks.dispatchEntry_older {seen : List StreamEntry} (h : Tracks p seen r)
    (hkey : e.key = p.key) (hlt : e.generation < p.generation)
    (hdrop : dropsNewer p r (.receive p.peer e) = false)
    (hev : evicts lim r (p.peer, p.key) (.receive p.peer e) = false) :
    Tracks p seen (dispatchEntry lim p.peer r e) := by
  -- an assembly of `p` would have been dropped, or would have turned the entry away
  have hseen : ∀ s, r.assemblies.lookup (p.peer, p.key) = some s → s.generation ≤ e.generation →
      ∀ e' ∈ seen, False := by
    intro s hs hle e' he'
    obtain ⟨s', hs', hg, -⟩ := h.recorded e' he'
    rw [hs, Option.some.injEq] at hs'
    subst hs'
    omega
  have hnone : ∀ s, Takes p.peer r e s → ∀ e' ∈ seen, False := by
    intro s hs e' he'
    obtain ⟨hg, -, hold⟩ := entryFor_cases hs.entry
    obtain ⟨s', hs', -, -⟩ := h.recorded e' he'
    rw [hkey, hs'] at hold
    rcases hold with ⟨-, hold⟩ | hold
    · exact hseen s' hs' (hold s' rfl).le e' he'
    · exact hseen s' hs' (by rw [Option.some.inj hold, hg]) e' he'
  refine dispatchEntry_cases lim p.peer r e (fun hone => ?_) (fun _ => h) (fun s hs hc => ?_)
    fun s hs hc => ?_
  · refine ⟨h.entries, fun s hs => ?_, fun e' he' => ?_⟩
    · rw [← hkey] at hs
      simp at hs
    · obtain ⟨s, hs, hg, -⟩ := h.recorded e' he'
      simp [dropsNewer, hkey, hone, hlt, hs, hg] at hdrop
  · refine ⟨h.entries, fun s' hs' => ?_, fun e' he' => (hnone s hs e' he').elim⟩
    have hlook := hs.lookup_enforceBounds hc hev
    rw [hkey, lookup_insert] at hlook
    rw [hkey] at hs'
    rw [← Option.some.inj (hlook.symm.trans hs'), record_generation, (entryFor_cases hs.entry).1]
    exact hlt.le
  · refine ⟨h.entries, fun s' hs' => ?_, fun e' he' => (hnone s hs e' he').elim⟩
    rw [hkey] at hs'
    simp at hs'

/-- A newer entry that does not supersede `p` is too long to be assembled, and is ignored. -/
theorem dispatchEntry_newer (hkey : e.key = p.key) (hlt : p.generation < e.generation)
    (hsup : supersedes p (.receive p.peer e) = false) : dispatchEntry lim p.peer r e = r := by
  have hbad : e.totalChunks ≠ 1 ∧
      (e.totalChunks ≤ maxTotalChunks → e.totalChunks ≤ e.chunkIndex) := by
    simpa [supersedes, hkey, hlt] using hsup
  refine dispatchEntry_cases lim p.peer r e (fun hone => absurd hone hbad.1) (fun _ => rfl) ?_ ?_
  · intro s hs
    have := hs.ok
    omega
  · intro s hs
    have := hs.ok
    omega

section Delivery

variable {lim : AssemblerLimits} {pubs : Set Publish} (hgen : DistinctGenerations pubs)
  (hcount : ∀ p ∈ pubs, p.chunkCount < u32Size) {p : Publish} (hp : p ∈ pubs)

include hgen hp hcount

variable {r : Receiver} {seen : List StreamEntry}

/-- **A chunk of `p` is recorded, or completes `p`.** -/
theorem Tracks.dispatchEntry_self (hex : Exact pubs r) (h : Tracks p seen r)
    (hone : p.chunkCount ≠ 1) (hmax : p.chunkCount ≤ maxTotalChunks) (hn : n ≤ r.handed.length)
    (he : e ∈ p.entries) (hev : evicts lim r (p.peer, p.key) (.receive p.peer e) = false) :
    HandedSince p n (dispatchEntry lim p.peer r e) ∨
      Tracks p (e :: seen) (dispatchEntry lim p.peer r e) := by
  have hkey := key_of_mem he
  have hg := generation_of_mem he
  have htotal := totalChunks_of_mem (hcount p hp) he
  have hindex : e.chunkIndex < p.chunkCount :=
    (List.getElem?_eq_some_iff.mp (getElem_of_mem (hcount p hp) he)).1
  have hone' : e.totalChunks ≠ 1 := by rwa [htotal]
  refine dispatchEntry_cases lim p.peer r e (fun hone => absurd hone hone') (fun hnone => ?_)
    (fun s hs hc => ?_) fun s hs hc => ?_
  · -- nothing turns a chunk of `p` away
    obtain ⟨s, hs, hbad⟩ := entryFor_eq_none (hnone (by omega) (by omega) (by omega))
    rw [hkey] at hs
    rcases hbad with hbad | ⟨hsame, hlen⟩
    · have := h.notSuperseded s hs
      omega
    · have hpart := hex.partOf_of_generation hgen hp hs (by omega)
      exact absurd (hpart.length.trans htotal.symm) hlen
  · have hpart := hex.partOf_record hgen hcount hp he hs.entry
    have hlook := hs.lookup_enforceBounds hc hev
    rw [hkey, lookup_insert] at hlook
    refine .inr ⟨?_, fun s' hs' => ?_, fun e' he' => ⟨_, by rw [hkey]; exact hlook,
      hpart.generation, ?_⟩⟩
    · exact forall_mem_cons.mpr ⟨he, h.entries⟩
    · rw [hkey] at hs'
      rw [← Option.some.inj (hlook.symm.trans hs'), hpart.generation]
    · obtain ⟨-, hlen, hold⟩ := entryFor_cases hs.entry
      rw [record_chunks, getElem?_set]
      have hin : e.chunkIndex < s.chunks.length := by omega
      split
      · next hi =>
        -- the same index is the same entry
        have he'mem := forall_mem_cons.mpr ⟨he, h.entries⟩ e' he'
        have h1 := getElem_of_mem (hcount p hp) he
        have h2 := getElem_of_mem (hcount p hp) he'mem
        rw [← hi, h1, Option.some.injEq] at h2
        rw [h2]
      · next hi =>
        rcases mem_cons.mp he' with rfl | he'
        · exact absurd rfl hi
        · obtain ⟨s', hs', hg', hc'⟩ := h.recorded e' he'
          rw [hkey, hs'] at hold
          rcases hold with ⟨-, hold⟩ | hold
          · have := hold s' rfl
            omega
          · rwa [← Option.some.inj hold]
  · refine .inl (handedSince_append hn ⟨rfl, hkey.symm, hg.symm, ?_⟩ _)
    rw [(hex.partOf_record hgen hcount hp he hs.entry).assemble_eq hc, flatten_entries]

/-- **One undisturbed action.**  Either `p` is handed over, or all its chunks that have arrived are
still recorded. -/
theorem Tracks.exec (hex : Exact pubs r) (h : Tracks p seen r) (hone : p.chunkCount ≠ 1)
    (hmax : p.chunkCount ≤ maxTotalChunks) (hn : n ≤ r.handed.length) {a : StreamAction}
    (ha : Undisturbed lim pubs p r a) : HandedSince p n (exec lim r a) ∨
      ∃ seen', seen ⊆ seen' ∧ (∀ e ∈ p.entries, a = .receive p.peer e → e ∈ seen') ∧
        Tracks p seen' (exec lim r a) := by
  obtain ⟨hsent, hdrop, hev, hsup⟩ := ha
  rcases a with ⟨peerId, entry⟩ | timeout | elapsed | t
  · obtain ⟨q, hq, rfl, he⟩ := hsent.exists_publish
    by_cases hqp : q = p
    · subst hqp
      rcases h.dispatchEntry_self hgen hcount hp hex hone hmax hn he hev with hh | hh
      · exact .inl hh
      · refine .inr ⟨entry :: seen, subset_cons_self _ _, fun e _ heq => ?_, hh⟩
        rw [StreamAction.receive.injEq] at heq
        rw [heq.2]
        exact mem_cons_self
    · -- an entry of another publish
      have hother : Tracks p seen (dispatchEntry lim q.peer r entry) := by
        by_cases hk : (q.peer, q.key) = (p.peer, p.key)
        · rw [Prod.mk.injEq] at hk
          have hkey := (key_of_mem he).trans hk.2
          have hg := generation_of_mem he
          rw [hk.1] at hdrop hev hsup ⊢
          rcases lt_trichotomy entry.generation p.generation with hlt | heq | hlt
          · exact h.dispatchEntry_older hkey hlt hdrop hev
          · exact absurd (hgen q hq p hp hk.1 hk.2 (hg.symm.trans heq)) hqp
          · rw [dispatchEntry_newer hkey hlt hsup]
            exact h
        · refine h.congr (lookup_dispatchEntry_ne ?_ hev)
          rw [key_of_mem he]
          exact Ne.symm hk
      refine .inr ⟨seen, Subset.refl _, fun e hep heq => ?_, hother⟩
      rw [StreamAction.receive.injEq] at heq
      obtain ⟨hpeer, rfl⟩ := heq
      exact absurd (hgen q hq p hp hpeer
        ((key_of_mem he).symm.trans (key_of_mem hep))
        ((generation_of_mem he).symm.trans (generation_of_mem hep))) hqp
  · refine .inr ⟨seen, Subset.refl _, fun e _ heq => absurd heq (by simp), h.congr ?_⟩
    exact lookup_of_not_lost (sub_of_sublist (gc_sublist r.now timeout r.assemblies)) hev
  · exact .inr ⟨seen, Subset.refl _, fun e _ heq => absurd heq (by simp), h.congr rfl⟩
  · refine .inr ⟨seen, Subset.refl _, fun e _ heq => absurd heq (by simp), h.congr ?_⟩
    rw [Receiver.exec]
    split
    · next hperm => exact perm_lookup hperm
    · rfl

/-- **An undisturbed run**, by induction on its actions. -/
theorem Tracks.foldl (hone : p.chunkCount ≠ 1) (hmax : p.chunkCount ≤ maxTotalChunks) :
    ∀ {window : List StreamAction} {r : Receiver} {seen : List StreamEntry}, Exact pubs r →
      Tracks p seen r → n ≤ r.handed.length →
      AllOk (Receiver.exec lim) (Undisturbed lim pubs p) r window →
      HandedSince p n (window.foldl (Receiver.exec lim) r) ∨
        ∃ seen', seen ⊆ seen' ∧ (∀ e ∈ p.entries, .receive p.peer e ∈ window → e ∈ seen') ∧
          Exact pubs (window.foldl (Receiver.exec lim) r) ∧
          Tracks p seen' (window.foldl (Receiver.exec lim) r)
  | [], r, seen, hex, h, _, _ =>
    .inr ⟨seen, Subset.refl _, nofun, hex, h⟩
  | a :: window, r, seen, hex, h, hn, hall => by
    rcases h.exec hgen hcount hp hex hone hmax hn hall.1 with hh | ⟨seen1, hsub, hmem, h1⟩
    · exact .inl (hh.of_prefix (handed_foldl lim _ window))
    · have hex1 : Exact pubs (Receiver.exec lim r a) := hex.exec hgen hcount hall.1.1
      have hn1 := hn.trans (handed_exec lim r a).length_le
      rcases Tracks.foldl hone hmax hex1 h1 hn1 hall.2 with hh | ⟨seen2, hsub2, hmem2, hex2, h2⟩
      · exact .inl hh
      · refine .inr ⟨seen2, fun e he => hsub2 (hsub he), fun e he hw => ?_, hex2, h2⟩
        rcases mem_cons.mp hw with rfl | hw
        · exact hsub2 (hmem e he rfl)
        · exact hmem2 e he hw

theorem Tracks.not_all (hex : Exact pubs r) (h : Tracks p seen r) :
    ¬ ∀ e ∈ p.entries, e ∈ seen := by
  intro hall
  obtain ⟨e0, he0⟩ := exists_mem_of_length_pos p.chunkCount_pos
  obtain ⟨s, hs, hg, -⟩ := h.recorded e0 (hall e0 he0)
  have hpart := hex.partOf_of_generation hgen hp hs hg
  have hcomplete : s.isComplete = true := by
    rw [isComplete_iff]
    intro c hc
    obtain ⟨i, hi⟩ := mem_iff_getElem?.mp hc
    have hlt : i < p.entries.length := by
      have := (List.getElem?_eq_some_iff.mp hi).1
      rwa [hpart.length] at this
    have hei : p.entries[i]? = some p.entries[i] := getElem?_eq_getElem hlt
    obtain ⟨s', hs', -, hrec⟩ := h.recorded _ (hall _ (getElem_mem hlt))
    rw [Option.some.inj (hs'.symm.trans hs), chunkIndex_of_getElem (hcount p hp) hei, hi,
      Option.some.injEq] at hrec
    rw [hrec]
    rfl
  exact absurd hcomplete (by rw [(hex.partOf _ _ hs).1]; decide)

omit hgen in
theorem handedSince_single (hone : p.chunkCount = 1) (he : e ∈ p.entries) :
    ∀ {window : List StreamAction} {r : Receiver} {n : Nat}, n ≤ r.handed.length →
      StreamAction.receive p.peer e ∈ window →
      HandedSince p n (window.foldl (Receiver.exec lim) r)
  | [], _, _, _, hmem => absurd hmem not_mem_nil
  | a :: window, r, n, hn, hmem => by
    rw [foldl_cons]
    rcases mem_cons.mp hmem with rfl | hmem
    · refine HandedSince.of_prefix ?_ (handed_foldl lim _ window)
      rw [Receiver.exec, dispatchEntry,
        if_pos ((totalChunks_of_mem (hcount p hp) he).trans hone)]
      refine handedSince_append hn ⟨rfl, (key_of_mem he).symm,
        (generation_of_mem he).symm, ?_⟩ _
      rw [flatten_singleton, data_of_chunkCount_eq_one hone he]
    · exact handedSince_single hone he (hn.trans (handed_exec lim r a).length_le) hmem

end Delivery

end Receiver

open Receiver

/-! ## The delivery theorem -/

/-- **Chunked stream delivery is exact.**  Let every publish of a peer under a key have its own
generation and fewer than `2 ^ 32` chunks, and let a receiver run with any interleaving of entries
that were sent, lost, repeated and reordered.  Then every value it hands over is, byte for byte, a
value its sender published under that key; and a value of at most `maxTotalChunks` chunks all of
which arrive is handed over, as long as meanwhile its assembly is not evicted and not superseded,
and no delayed whole value of an older generation of its peer and key arrives. -/
theorem chunked_delivery (lim : AssemblerLimits) (pubs : Set Publish)
    (hgen : DistinctGenerations pubs) (hcount : ∀ p ∈ pubs, p.chunkCount < u32Size) {r : Receiver}
    (hr : Reaches (Receiver.exec lim) (OnlySent pubs) Receiver.new r) :
    (∀ v ∈ r.handed, ∃ p ∈ pubs, p.IsHanded v) ∧
      ∀ p ∈ pubs, p.chunkCount ≤ maxTotalChunks → NotSuperseded p r →
        ∀ window : List StreamAction,
          AllOk (Receiver.exec lim) (Receiver.Undisturbed lim pubs p) r window →
          (∀ e ∈ p.entries, StreamAction.receive p.peer e ∈ window) →
          HandedSince p r.handed.length (window.foldl (exec lim) r) := by
  have hex : Exact pubs r :=
    hr.invariant ⟨nofun, nofun⟩ fun _ _ h ha => h.exec hgen hcount ha
  refine ⟨hex.handed, fun p hp hmax hnot window hall harr => ?_⟩
  by_cases hone : p.chunkCount = 1
  · obtain ⟨e, he⟩ := exists_mem_of_length_pos p.chunkCount_pos
    exact handedSince_single hcount hp hone he le_rfl (harr e he)
  · have htrack : Tracks p [] r :=
      ⟨nofun, hnot, nofun⟩
    rcases htrack.foldl hgen hcount hp hone hmax hex le_rfl hall with
      hh | ⟨seen, -, hmem, hex', htrack'⟩
    · exact hh
    · exact absurd (fun e he => hmem e he (harr e he)) (htrack'.not_all hgen hcount hp hex')

/-! ## A run that delivers, and one that does not -/

/-- The limits of a receiver by default, where an optional buffer takes 32 bytes. -/
def AssemblerLimits.default : AssemblerLimits where
  maxConcurrent := 20
  maxBytes := 512 * 1024 * 1024
  slotBytes := 32

def shortPublish : Publish := ⟨"peer", "td:key", 1, [7], 1⟩

/-- A later value of two chunks under the same key. -/
def longPublish : Publish := ⟨"peer", "td:key", 2, [8, 9], 1⟩

def twoPublishes : Set Publish := {shortPublish, longPublish}

/-- The chunk of `longPublish` at an index, as it is sent. -/
def longChunk (index : Nat) : StreamEntry := ⟨"td:key", 2, index, 2, [8 + index.toUInt8]⟩

/-- The whole value `shortPublish`, as it is sent. -/
def shortChunk : StreamEntry := ⟨"td:key", 1, 0, 1, [7]⟩

theorem twoPublishes_distinct : DistinctGenerations twoPublishes := by
  rintro p (rfl | rfl) q (rfl | rfl) - - h
  · rfl
  · cases h
  · cases h
  · rfl

theorem twoPublishes_chunkCount : ∀ p ∈ twoPublishes, p.chunkCount < u32Size := by
  rintro p (rfl | rfl) <;> decide

theorem sent_shortChunk : Sent twoPublishes "peer" shortChunk :=
  ⟨[shortPublish], 5, 16, by simp [twoPublishes, shortPublish], ⟨[shortChunk]⟩, by decide,
    by decide⟩

theorem sent_longChunk {index : Nat} (h : index < 2) :
    Sent twoPublishes "peer" (longChunk index) := by
  refine ⟨[longPublish], 5, 16, by simp [twoPublishes, longPublish], ⟨[longChunk 0, longChunk 1]⟩,
    by decide, ?_⟩
  rcases Nat.lt_succ_iff_lt_or_eq.mp h with h | rfl
  · rw [Nat.lt_one_iff.mp h]
    decide
  · decide

/-- The last chunk first, a sweep, a repetition, the first chunk. -/
def reorderedWindow : List StreamAction :=
  [.receive "peer" (longChunk 1), .wait 10, .collect 30, .receive "peer" (longChunk 1),
    .receive "peer" (longChunk 0)]

/-- The receiver after the short value has arrived. -/
def afterShort : Receiver := Receiver.new.exec .default (.receive "peer" shortChunk)

/-- The theorem applied: after the short value, the long one arrives out of order. -/
theorem chunked_delivery_reordered :
    (∀ v ∈ afterShort.handed, ∃ p ∈ twoPublishes, p.IsHanded v) ∧
      HandedSince longPublish afterShort.handed.length
        (reorderedWindow.foldl (exec .default) afterShort) := by
  have hr : Reaches (Receiver.exec .default) (OnlySent twoPublishes) Receiver.new afterShort :=
    Reaches.init.step (StreamAction.receive "peer" shortChunk) sent_shortChunk
  have h := chunked_delivery .default twoPublishes twoPublishes_distinct twoPublishes_chunkCount hr
  refine ⟨h.1, h.2 longPublish (by simp [twoPublishes]) (by decide) ?_ reorderedWindow ?_ ?_⟩
  · intro s hs
    have hnone : afterShort.assemblies.lookup (longPublish.peer, longPublish.key) = none := by
      decide
    exact absurd (hnone.symm.trans hs) (by simp)
  · have h0 : Sent twoPublishes "peer" (longChunk 0) := sent_longChunk (by decide)
    have h1 : Sent twoPublishes "peer" (longChunk 1) := sent_longChunk (by decide)
    refine ⟨⟨h1, ?_⟩, ⟨trivial, ?_⟩, ⟨trivial, ?_⟩, ⟨h1, ?_⟩, ⟨h0, ?_⟩, trivial⟩ <;>
      decide +kernel
  · decide

/-- The short value, delayed, arrives between the chunks of the later one. -/
def delayedWindow : List StreamAction :=
  [.receive "peer" (longChunk 0), .receive "peer" shortChunk, .receive "peer" (longChunk 1)]

/-- **A delayed whole value drops a newer assembly.**  All chunks of the later value arrive; its
assembly is neither evicted nor superseded by a newer generation; the value is not handed over. -/
theorem stream_stale_value_drops_newer :
    DistinctGenerations twoPublishes ∧ (∀ p ∈ twoPublishes, p.chunkCount < u32Size) ∧
      longPublish ∈ twoPublishes ∧ longPublish.chunkCount ≤ maxTotalChunks ∧
      NotSuperseded longPublish new ∧
      AllOk (Receiver.exec .default) (fun r a => OnlySent twoPublishes r a ∧
        Receiver.evicts .default r (longPublish.peer, longPublish.key) a = false ∧
        supersedes longPublish a = false) new delayedWindow ∧
      (∀ e ∈ longPublish.entries, StreamAction.receive longPublish.peer e ∈ delayedWindow) ∧
      ¬ HandedSince longPublish 0
        (delayedWindow.foldl (exec .default) new) := by
  refine ⟨twoPublishes_distinct, twoPublishes_chunkCount, by simp [twoPublishes], by decide, ?_, ?_,
    by decide, ?_⟩
  · intro s hs
    rw [Receiver.new] at hs
    cases hs
  · refine ⟨⟨sent_longChunk (by decide), ?_⟩, ⟨sent_shortChunk, ?_⟩,
      ⟨sent_longChunk (by decide), ?_⟩, trivial⟩ <;> decide +kernel
  · rintro ⟨v, hv, -, -, hg, -⟩
    have hall : ∀ v ∈ ((delayedWindow.foldl (Receiver.exec .default) Receiver.new).handed.drop 0),
        v.generation = 1 := by decide +kernel
    rw [hall v hv] at hg
    cases hg

end Smg.Mesh
