import Smg.Lib.Codec
import Smg.Mesh.Chunking

/-!
# Paging a tree out for repair

The responding half of the repair protocol in `mesh/adapters/tree_sync.rs`.  A request names a tree
and, on a retry, a cursor: a count of entries to skip.  The responder walks its tree in order,
skips, and fills byte-capped pages with what remains; an entry too large for any page is dropped but
counted, and each page but the last carries the count to resume from.

* `Paged` describes a response without the paging iterator: where each page starts and ends, what it
  carries, and which cursor it announces.
* `paged_respondPages`: what the iterator produces is such a response.
* `Paged.flatMap_entries`: all pages together carry every entry that fits in a page.
-/

set_option autoImplicit false

namespace Smg.Gateway

open Mesh (Bytes saturatingAdd u32Size)
open List

/-! ## Entries, requests and pages -/

/-- Which of a model's two trees is meant. -/
inductive TreeKind where
  | string
  /-- The tree over token prefixes. -/
  | token
  deriving DecidableEq, Repr

/-- One node of a tree with the workers that hold it and their epochs. -/
inductive RepairEntry where
  | string (path : String) (tenants : List (String × Nat))
  | token (tokens : List Nat) (tenants : List (String × Nat))
  deriving DecidableEq, Repr

def RepairEntry.kind : RepairEntry → TreeKind
  | string _ _ => .string
  | token _ _ => .token

abbrev SessionId := Nat

/-- A request for repair, addressed to one peer. -/
structure TreeRepairRequest where
  /-- The session the request opens. -/
  sessionId : SessionId
  requesterPeerId : String
  targetPeerId : String
  /-- The model whose tree is asked for. -/
  modelId : String
  treeKind : TreeKind
  /-- Where to resume; nothing to start from the beginning. -/
  cursor : Option Bytes
  /-- The hash that was not known, for the log. -/
  reason : Nat
  deriving DecidableEq, Repr

/-- One page of a response. -/
structure TreeRepairPage where
  sessionId : SessionId
  modelId : String
  treeKind : TreeKind
  /-- The number of the page in its session, 32 bits. -/
  pageIndex : Nat
  entries : List RepairEntry
  /-- Where a later request can resume. -/
  nextCursor : Option Bytes
  isLast : Bool
  deriving DecidableEq, Repr

/-- What the protocol uses of the serialisation library: sizes of entries, and a format for 64-bit
counts that reads back what it wrote. -/
structure RepairFormat where
  /-- The serialised size of an entry, if it can be serialised. -/
  serializedSize : RepairEntry → Option Nat
  serialize : Nat → Option Bytes
  deserialize : Bytes → Option Nat
  /-- A 64-bit count can be written and is read back. -/
  deserialize_serialize : ∀ n < 2 ^ 64, ∃ bytes, serialize n = some bytes ∧
    deserialize bytes = some n

def treeRepairPageByteCap : Nat := 2 * 1024 * 1024

def treeRepairPageHeaderOverhead : Nat := 256

/-- The most a page may take on the wire: the largest stream chunk. -/
def treeRepairPageHardCeiling : Nat := 10 * 1024 * 1024 - 64 * 1024

def repairEntryHardCeiling : Nat := treeRepairPageHardCeiling - treeRepairPageHeaderOverhead

namespace RepairFormat

variable (fmt : RepairFormat)

def entrySize (entry : RepairEntry) : Nat :=
  (fmt.serializedSize entry).getD repairEntryHardCeiling

def sendable (entry : RepairEntry) : Bool := decide (fmt.entrySize entry ≤ repairEntryHardCeiling)

/-- The count a cursor stands for; a cursor that cannot be read starts over. -/
def decodeCursor (cursor : Option Bytes) : Nat := (cursor.bind fmt.deserialize).getD 0

def encodeCursor (n : Nat) : Bytes := (fmt.serialize n).getD []

theorem decodeCursor_encodeCursor {n : Nat} (hn : n < 2 ^ 64) :
    fmt.decodeCursor (some (fmt.encodeCursor n)) = n := by
  obtain ⟨bytes, hbytes, hread⟩ := fmt.deserialize_serialize n hn
  simp [decodeCursor, encodeCursor, hbytes, hread]

end RepairFormat

/-! ## The paging iterator -/

/-- The state of the iterator that cuts a stream into pages. -/
structure PagingIter where
  stream : List RepairEntry
  /-- An entry taken from the stream that did not fit in the previous page. -/
  deferred : Option RepairEntry
  sessionId : SessionId
  modelId : String
  treeKind : TreeKind
  /-- The bytes of entries a page may hold. -/
  entryBudget : Nat
  /-- How many entries of the stream are used up, those skipped at the start included. -/
  cumulativeConsumed : Nat
  pageIndex : Nat
  finished : Bool

/-- A page being filled. -/
structure Filling where
  entries : List RepairEntry
  size : Nat
  /-- How many entries are used up. -/
  consumed : Nat

/-- What a page was filled with, and what is left. -/
structure Filled where
  entries : List RepairEntry
  /-- How many entries are used up. -/
  consumed : Nat
  deferred : Option RepairEntry
  stream : List RepairEntry

namespace PagingIter

/-- An iterator that skips the first `startSkip` entries, or all if there are fewer. -/
def new (stream : List RepairEntry) (sessionId : SessionId) (modelId : String)
    (treeKind : TreeKind) (byteCap startSkip : Nat) : PagingIter where
  stream := stream.drop startSkip
  deferred := none
  sessionId
  modelId
  treeKind
  entryBudget := byteCap - treeRepairPageHeaderOverhead
  cumulativeConsumed := startSkip
  pageIndex := 0
  finished := false

/-- Pack an entry into the page being filled.  The second component is the entry if it must wait for
the next page; an entry over the ceiling is dropped. -/
def tryPackEntry (fmt : RepairFormat) (entryBudget : Nat) (p : Filling) (entry : RepairEntry) :
    Filling × Option RepairEntry :=
  let entrySize := fmt.entrySize entry
  if repairEntryHardCeiling < entrySize then ({ p with consumed := p.consumed + 1 }, none)
  else if p.entries ≠ [] ∧ entryBudget < p.size + entrySize then (p, some entry)
  else ({ entries := p.entries ++ [entry], size := p.size + entrySize,
          consumed := p.consumed + 1 }, none)

/-- The loop of `next`: pack entries until one has to wait or none is left. -/
def fillPage (fmt : RepairFormat) (entryBudget : Nat) : List RepairEntry → Filling → Filled
  | [], p => { entries := p.entries, consumed := p.consumed, deferred := none, stream := [] }
  | entry :: rest, p =>
    match tryPackEntry fmt entryBudget p entry with
    | (p, none) => fillPage fmt entryBudget rest p
    | (p, some deferred) =>
      { entries := p.entries, consumed := p.consumed, deferred := some deferred, stream := rest }

/-- The next page.  The entry deferred by the previous page comes first. -/
def next (fmt : RepairFormat) (it : PagingIter) : Option (TreeRepairPage × PagingIter) :=
  if it.finished then none
  else
    let filled := fillPage fmt it.entryBudget (it.deferred.toList ++ it.stream)
      { entries := [], size := 0, consumed := it.cumulativeConsumed }
    let isLast := filled.deferred.isNone
    some
      ({ sessionId := it.sessionId
         modelId := it.modelId
         treeKind := it.treeKind
         pageIndex := it.pageIndex
         entries := filled.entries
         nextCursor := if isLast then none else some (fmt.encodeCursor filled.consumed)
         isLast },
       { it with
         stream := filled.stream
         deferred := filled.deferred
         cumulativeConsumed := filled.consumed
         pageIndex := (it.pageIndex + 1) % u32Size
         finished := isLast })

/-- All pages of an iterator that has at most `fuel` of them. -/
def collect (fmt : RepairFormat) : Nat → PagingIter → List TreeRepairPage
  | 0, _ => []
  | fuel + 1, it =>
    match next fmt it with
    | none => []
    | some (page, it) => page :: collect fmt fuel it

end PagingIter

/-- The pages of a stream from a count of entries on.  There is a page for each entry at most, and
always one. -/
def pagesFrom (fmt : RepairFormat) (sessionId : SessionId) (modelId : String) (treeKind : TreeKind)
    (stream : List RepairEntry) (byteCap startSkip : Nat) : List TreeRepairPage :=
  PagingIter.collect fmt (stream.length + 1)
    (PagingIter.new stream sessionId modelId treeKind byteCap startSkip)

/-- The pages a responder publishes for a request, `stream` being its tree's entries. -/
def respondPages (fmt : RepairFormat) (stream : List RepairEntry) (request : TreeRepairRequest) :
    List TreeRepairPage :=
  pagesFrom fmt request.sessionId request.modelId request.treeKind stream treeRepairPageByteCap
    (fmt.decodeCursor request.cursor)

variable (fmt : RepairFormat)

theorem PagingIter.length_collect_le (fuel : Nat) (it : PagingIter) :
    (collect fmt fuel it).length ≤ fuel := by
  induction fuel generalizing it with
  | zero => exact le_rfl
  | succ fuel ih =>
    rw [collect]
    split
    · exact Nat.zero_le _
    · exact Nat.succ_le_succ (ih _)

open PagingIter

/-! ## What a response looks like -/

section Paged

variable (fmt : RepairFormat) (sessionId : SessionId) (modelId : String) (treeKind : TreeKind)

/-- The page numbered `index` that carries what fits of `es`. -/
def pageOf (index : Nat) (es : List RepairEntry) (nextCursor : Option Bytes) (isLast : Bool) :
    TreeRepairPage where
  sessionId
  modelId
  treeKind
  pageIndex := index % u32Size
  entries := es.filter fmt.sendable
  nextCursor
  isLast

/-- `Paged … consumed index es pages`: the pages, numbered from `index`, carry the entries `es` in
order, `consumed` entries having been used up before. -/
inductive Paged : Nat → Nat → List RepairEntry → List TreeRepairPage → Prop
  /-- The last page takes all that is left. -/
  | last (consumed index : Nat) (es : List RepairEntry) :
      Paged consumed index es [pageOf fmt sessionId modelId treeKind index es none true]
  /-- Any other page takes the next `k + 1` entries. -/
  | cons {consumed index : Nat} {es : List RepairEntry} {pages : List TreeRepairPage} (k : Nat)
      (hk : k < es.length)
      (h : Paged (consumed + (k + 1)) (index + 1) (es.drop (k + 1)) pages) :
      Paged consumed index es
        (pageOf fmt sessionId modelId treeKind index (es.take (k + 1))
          (some (fmt.encodeCursor (consumed + (k + 1)))) false :: pages)

end Paged

/-- **Filling a page** uses up a piece at the front of what is pending: all of it, or up to the
entry that did not fit. -/
theorem fillPage_spec (budget : Nat) (pending : List RepairEntry) (p : Filling) :
    let f := fillPage fmt budget pending p
    ∃ k ≤ pending.length, f.entries = p.entries ++ (pending.take k).filter fmt.sendable ∧
      f.consumed = p.consumed + k ∧ f.deferred.toList ++ f.stream = pending.drop k ∧
      (f.deferred = none → k = pending.length) ∧
      (f.deferred ≠ none → f.entries ≠ []) := by
  induction pending generalizing p with
  | nil => exact ⟨0, le_rfl, by simp [fillPage]⟩
  | cons entry rest ih =>
    -- an entry that is packed or dropped is one more that is used up
    have hstep : ∀ p' : Filling, p'.entries = p.entries ++ [entry].filter fmt.sendable →
        p'.consumed = p.consumed + 1 →
        tryPackEntry fmt budget p entry = (p', none) →
        let f := fillPage fmt budget (entry :: rest) p
        ∃ k ≤ (entry :: rest).length,
          f.entries = p.entries ++ ((entry :: rest).take k).filter fmt.sendable ∧
          f.consumed = p.consumed + k ∧ f.deferred.toList ++ f.stream = (entry :: rest).drop k ∧
          (f.deferred = none → k = (entry :: rest).length) ∧
          (f.deferred ≠ none → f.entries ≠ []) := by
      intro p' hentries hconsumed htry
      rw [fillPage, htry]
      obtain ⟨k, hk, h1, h2, h3, h4, h5⟩ := ih p'
      refine ⟨k + 1, Nat.succ_le_succ hk, ?_, ?_, h3, fun h => congrArg (· + 1) (h4 h), h5⟩
      · rw [h1, hentries, take_succ_cons, append_assoc, ← filter_append,
          singleton_append]
      · rw [h2]
        omega
    by_cases hbig : repairEntryHardCeiling < fmt.entrySize entry
    · refine hstep { p with consumed := p.consumed + 1 } ?_ rfl ?_
      · simp [RepairFormat.sendable, not_le.mpr hbig]
      · rw [tryPackEntry, if_pos hbig]
    · by_cases hfull : p.entries ≠ [] ∧ budget < p.size + fmt.entrySize entry
      · refine ⟨0, Nat.zero_le _, ?_⟩
        rw [fillPage, tryPackEntry, if_neg hbig, if_pos hfull]
        simpa using hfull.1
      · refine hstep ⟨p.entries ++ [entry], p.size + fmt.entrySize entry, p.consumed + 1⟩ ?_ rfl ?_
        · simp [RepairFormat.sendable, not_lt.mp hbig]
        · rw [tryPackEntry, if_neg hbig, if_neg hfull]

/-- **The pages of an iterator.** -/
theorem paged_collect (fuel : Nat) (it : PagingIter) (index : Nat) (hfin : it.finished = false)
    (hindex : it.pageIndex = index % u32Size)
    (hfuel : (it.deferred.toList ++ it.stream).length < fuel) :
    Paged fmt it.sessionId it.modelId it.treeKind it.cumulativeConsumed index
      (it.deferred.toList ++ it.stream) (collect fmt fuel it) := by
  induction fuel generalizing it index with
  | zero => omega
  | succ fuel ih =>
    rw [collect, PagingIter.next, hfin, if_neg (by decide)]
    obtain ⟨k, hk, h1, h2, h3, h4, h5⟩ := fillPage_spec fmt it.entryBudget
      (it.deferred.toList ++ it.stream) ⟨[], 0, it.cumulativeConsumed⟩
    generalize hpend : it.deferred.toList ++ it.stream = pending at hk h1 h2 h3 h4 h5 hfuel ⊢
    generalize fillPage fmt it.entryBudget pending ⟨[], 0, it.cumulativeConsumed⟩ = f
      at h1 h2 h3 h4 h5
    rcases hd : f.deferred with _ | d
    · -- nothing is left: this is the last page, and the iterator is finished
      have hall := h4 hd
      rw [hall, take_length] at h1
      have hnil : ∀ it' : PagingIter, it'.finished = true → collect fmt fuel it' = [] := by
        intro it' hit'
        rcases fuel with _ | fuel
        · rfl
        · rw [collect, PagingIter.next, if_pos hit']
      simp only [hd, Option.isNone_none]
      rw [hnil _ rfl, hindex, h1]
      exact Paged.last _ _ _
    · have hpos : 0 < k := by
        have hne := h5 (by rw [hd]; simp)
        rw [h1] at hne
        rcases k with _ | k
        · exact absurd rfl hne
        · omega
      obtain ⟨k, rfl⟩ := Nat.exists_eq_succ_of_ne_zero hpos.ne'
      simp only [hd, Option.isNone_some, Bool.false_eq_true]
      rw [hindex, h1, h2]
      rw [hd] at h3
      refine Paged.cons k hk ?_
      have hrest := ih
        { it with
          stream := f.stream
          deferred := some d
          cumulativeConsumed := it.cumulativeConsumed + (k + 1)
          pageIndex := (index % u32Size + 1) % u32Size
          finished := false } (index + 1) rfl (by simp)
        (by
          rw [h3, length_drop]
          omega)
      rw [← h3]
      exact hrest

theorem paged_pagesFrom (sessionId : SessionId) (modelId : String) (treeKind : TreeKind)
    (stream : List RepairEntry) (byteCap startSkip : Nat) :
    Paged fmt sessionId modelId treeKind startSkip 0 (stream.drop startSkip)
      (pagesFrom fmt sessionId modelId treeKind stream byteCap startSkip) := by
  refine paged_collect fmt (stream.length + 1)
    (PagingIter.new stream sessionId modelId treeKind byteCap startSkip) 0 rfl rfl ?_
  show (stream.drop startSkip).length < stream.length + 1
  rw [length_drop]
  omega

/-- **A response is its tree, paged** from the request's cursor on. -/
theorem paged_respondPages (stream : List RepairEntry) (request : TreeRepairRequest) :
    Paged fmt request.sessionId request.modelId request.treeKind (fmt.decodeCursor request.cursor) 0
      (stream.drop (fmt.decodeCursor request.cursor)) (respondPages fmt stream request) :=
  paged_pagesFrom ..

namespace Paged

variable {fmt : RepairFormat} {sessionId : SessionId} {modelId : String} {treeKind : TreeKind}
  {consumed index : Nat} {es : List RepairEntry} {pages : List TreeRepairPage}

variable {page : TreeRepairPage}

section

variable (h : Paged fmt sessionId modelId treeKind consumed index es pages)

include h

theorem header_eq (hp : page ∈ pages) :
    page.sessionId = sessionId ∧ page.modelId = modelId ∧ page.treeKind = treeKind := by
  induction h with
  | last =>
    rw [mem_singleton.mp hp]
    exact ⟨rfl, rfl, rfl⟩
  | cons k hk h ih =>
    rcases mem_cons.mp hp with rfl | hp
    · exact ⟨rfl, rfl, rfl⟩
    · exact ih hp

theorem pageIndex_eq {i : Nat} (hp : pages[i]? = some page) :
    page.pageIndex = (index + i) % u32Size := by
  induction h generalizing i with
  | last consumed index es =>
    rcases i with _ | i
    · rw [← Option.some.inj hp]
      rfl
    · simp at hp
  | @cons consumed index es pages k hk h ih =>
    rcases i with _ | i
    · rw [← Option.some.inj hp]
      rfl
    · rw [ih hp]
      congr 1
      omega

theorem length_of_isLast {i : Nat} (hp : pages[i]? = some page) (hl : page.isLast = true) :
    pages.length = i + 1 := by
  induction h generalizing i with
  | last consumed index es =>
    rcases i with _ | i
    · rfl
    · simp at hp
  | @cons consumed index es pages k hk h ih =>
    rcases i with _ | i
    · rw [← Option.some.inj hp] at hl
      exact absurd hl (by simp [pageOf])
    · rw [length_cons, ih hp]

/-- **All pages together carry every entry that fits in a page.** -/
theorem flatMap_entries : pages.flatMap TreeRepairPage.entries = es.filter fmt.sendable := by
  induction h with
  | last => simp [pageOf]
  | @cons consumed index es pages k hk h ih =>
    rw [flatMap_cons, ih]
    show (es.take (k + 1)).filter fmt.sendable ++ (es.drop (k + 1)).filter fmt.sendable = _
    rw [← filter_append, take_append_drop]

theorem exists_last : ∃ front page, pages = front ++ [page] ∧ page.isLast = true ∧
    ∀ p ∈ front, p.isLast = false := by
  induction h with
  | last => exact ⟨[], _, rfl, rfl, nofun⟩
  | cons k hk h ih =>
    obtain ⟨front, page, rfl, hlast, hfront⟩ := ih
    exact ⟨_ :: front, page, rfl, hlast, forall_mem_cons.mpr ⟨rfl, hfront⟩⟩

theorem exists_cursor {i : Nat} {cursor : Bytes} (hp : pages[i]? = some page)
    (hc : page.nextCursor = some cursor) :
    ∃ k < es.length, cursor = fmt.encodeCursor (consumed + (k + 1)) ∧
      (pages.drop (i + 1)).flatMap TreeRepairPage.entries =
        (es.drop (k + 1)).filter fmt.sendable := by
  induction h generalizing i with
  | last =>
    rcases i with _ | i
    · cases hp
      cases hc
    · simp at hp
  | @cons consumed index es pages k hk h ih =>
    rcases i with _ | i
    · cases hp
      cases hc
      exact ⟨k, hk, rfl, h.flatMap_entries⟩
    · obtain ⟨k', hk', hcur, hrest⟩ := ih hp
      rw [length_drop] at hk'
      refine ⟨k + 1 + k', by omega, ?_, ?_⟩
      · rw [hcur, Nat.add_assoc, ← Nat.add_assoc (k + 1)]
      · rw [drop_succ_cons, hrest, drop_drop, ← Nat.add_assoc]

theorem flatMap_take {i k : Nat} (hrest : (pages.drop (i + 1)).flatMap TreeRepairPage.entries =
      (es.drop (k + 1)).filter fmt.sendable) :
    (pages.take (i + 1)).flatMap TreeRepairPage.entries =
      (es.take (k + 1)).filter fmt.sendable := by
  have hall := calc
    (pages.take (i + 1)).flatMap TreeRepairPage.entries ++ (es.drop (k + 1)).filter fmt.sendable
      = (pages.take (i + 1) ++ pages.drop (i + 1)).flatMap TreeRepairPage.entries := by
        rw [flatMap_append, hrest]
    _ = es.filter fmt.sendable := by rw [take_append_drop, h.flatMap_entries]
    _ = (es.take (k + 1)).filter fmt.sendable ++ (es.drop (k + 1)).filter fmt.sendable := by
        rw [← filter_append, take_append_drop]
  exact append_cancel_right hall

end

end Paged

/-! ## Budgets and restarts -/

/-- The entries are within the budget, or there is one at most. -/
def WithinBudget (budget : Nat) (entries : List RepairEntry) : Prop :=
  (entries.map fmt.entrySize).sum ≤ budget ∨ entries.length ≤ 1

theorem fillPage_budget {budget : Nat} (pending : List RepairEntry) {p : Filling}
    (hsize : p.size = (p.entries.map fmt.entrySize).sum) (hp : WithinBudget fmt budget p.entries) :
    WithinBudget fmt budget (fillPage fmt budget pending p).entries := by
  induction pending generalizing p with
  | nil => exact hp
  | cons entry rest ih =>
    rw [fillPage, tryPackEntry]
    by_cases hbig : repairEntryHardCeiling < fmt.entrySize entry
    · simp only [if_pos hbig]
      exact ih hsize hp
    · by_cases hfull : p.entries ≠ [] ∧ budget < p.size + fmt.entrySize entry
      · simp only [if_neg hbig, if_pos hfull]
        exact hp
      · simp only [if_neg hbig, if_neg hfull]
        have hsum : p.size + fmt.entrySize entry =
            ((p.entries ++ [entry]).map fmt.entrySize).sum := by simp [hsize]
        refine ih hsum ?_
        by_cases hnil : p.entries = []
        · exact .inr (by simp [hnil])
        · exact .inl (hsum ▸ not_lt.mp fun hlt => hfull ⟨hnil, hlt⟩)

/-- Every page is within the budget, or carries one entry. -/
theorem collect_budget {fuel budget : Nat} {it : PagingIter} (hit : it.entryBudget = budget)
    {page : TreeRepairPage} (hpage : page ∈ collect fmt fuel it) :
    WithinBudget fmt budget page.entries := by
  induction fuel generalizing it with
  | zero => cases hpage
  | succ fuel ih =>
    rw [collect, PagingIter.next] at hpage
    split_ifs at hpage
    · cases hpage
    · rcases mem_cons.mp hpage with rfl | hpage
      · rw [hit]
        exact fillPage_budget fmt _ rfl (.inl (Nat.zero_le _))
      · refine ih ?_ hpage
        exact hit

/-- **Repair paging.**  The pages of a stream carry, in order and once each, the entries from the
starting count on that fit in a page; the last page and no other is marked; a page is within the
budget unless it carries a single entry; and restarting at a page's cursor brings what came after
that page. -/
theorem repair_paging (sessionId : SessionId) (modelId : String) (treeKind : TreeKind)
    (stream : List RepairEntry) (hstream : stream.length < 2 ^ 64) (byteCap startSkip : Nat) :
    let pages := pagesFrom fmt sessionId modelId treeKind stream byteCap startSkip
    pages.flatMap TreeRepairPage.entries = (stream.drop startSkip).filter fmt.sendable ∧
    (∃ front page, pages = front ++ [page] ∧ page.isLast = true ∧ ∀ p ∈ front, p.isLast = false) ∧
    (∀ page ∈ pages, WithinBudget fmt (byteCap - treeRepairPageHeaderOverhead) page.entries) ∧
    ∀ i page cursor, pages[i]? = some page → page.nextCursor = some cursor →
      (pagesFrom fmt sessionId modelId treeKind stream byteCap
        (fmt.decodeCursor (some cursor))).flatMap TreeRepairPage.entries =
        (pages.drop (i + 1)).flatMap TreeRepairPage.entries := by
  intro pages
  have h := paged_pagesFrom fmt sessionId modelId treeKind stream byteCap startSkip
  refine ⟨h.flatMap_entries, h.exists_last, fun page hp => collect_budget fmt (by rfl) hp, ?_⟩
  intro i page cursor hp hc
  obtain ⟨k, hk, rfl, hrest⟩ := h.exists_cursor hp hc
  rw [length_drop] at hk
  rw [hrest, fmt.decodeCursor_encodeCursor (by omega), drop_drop,
    (paged_pagesFrom ..).flatMap_entries]

def tenantsSize (tenants : List (String × Nat)) : Nat :=
  8 + (tenants.map fun t => 8 + t.1.utf8ByteSize + 8).sum

/-- Fixed-width little-endian serialisation: a variant is four bytes, a length eight, a token
four. -/
def fixintRepair : RepairFormat where
  serializedSize
    | .string path tenants => some (4 + (8 + path.utf8ByteSize) + tenantsSize tenants)
    | .token tokens tenants => some (4 + (8 + 4 * tokens.length) + tenantsSize tenants)
  serialize n := some (beBytes 8 n).reverse
  deserialize bytes := if bytes.length < 8 then none else some (beNat (bytes.take 8).reverse)
  deserialize_serialize n hn := by
    refine ⟨_, rfl, ?_⟩
    rw [length_reverse, length_beBytes, if_neg (by decide), take_of_length_le (by simp),
      reverse_reverse, beNat_beBytes, Nat.mod_eq_of_lt (by simpa using hn)]

def shortEntry : RepairEntry := .token [1, 2] [("w1", 5)]

/-- **A page can exceed its budget**: the first entry of a page is packed whatever its size. -/
theorem page_exceeds_budget :
    ∃ page ∈ pagesFrom fixintRepair 1 "m" .token [shortEntry] 256 0,
      256 - treeRepairPageHeaderOverhead < (page.entries.map fixintRepair.entrySize).sum := by
  decide +kernel

def oneToken (token : Nat) : RepairEntry := .token [token] [("w1", 5)]

def hugeTokens : List Nat := List.replicate 2700000 0

theorem length_hugeTokens : hugeTokens.length = 2700000 := length_replicate

def hugeEntry : RepairEntry := .token hugeTokens []

theorem entrySize_token (tokens : List Nat) (tenants : List (String × Nat)) :
    fixintRepair.entrySize (.token tokens tenants) =
      4 + (8 + 4 * tokens.length) + tenantsSize tenants := rfl

theorem entrySize_oneToken (token : Nat) : fixintRepair.entrySize (oneToken token) = 42 := by
  have htenants : tenantsSize [("w1", 5)] = 26 := by decide
  rw [oneToken, entrySize_token, htenants, length_singleton]

theorem entrySize_hugeEntry : fixintRepair.entrySize hugeEntry = 10800020 := by
  have hsize := entrySize_token hugeTokens []
  rw [length_hugeTokens, show tenantsSize [] = 8 from rfl] at hsize
  exact hsize

/-- An entry that fits no page is counted into the cursor; one that a page has no room for is held
over for the next. -/
theorem pagesFrom_heldOver {a b c d : RepairEntry} {byteCap : Nat}
    (ha : fmt.entrySize a ≤ repairEntryHardCeiling) (hb : repairEntryHardCeiling < fmt.entrySize b)
    (hc : fmt.entrySize c ≤ repairEntryHardCeiling) (hd : fmt.entrySize d ≤ repairEntryHardCeiling)
    (hac : byteCap - treeRepairPageHeaderOverhead < fmt.entrySize a + fmt.entrySize c)
    (hcd : byteCap - treeRepairPageHeaderOverhead < fmt.entrySize c + fmt.entrySize d) :
    pagesFrom fmt 1 "m" .token [a, b, c, d] byteCap 0 =
      [⟨1, "m", .token, 0, [a], some (fmt.encodeCursor 2), false⟩,
        ⟨1, "m", .token, 1, [c], some (fmt.encodeCursor 3), false⟩,
        ⟨1, "m", .token, 2, [d], none, true⟩] := by
  simp [pagesFrom, collect, PagingIter.next, PagingIter.new, fillPage, tryPackEntry, not_lt.mpr ha,
    hb, not_lt.mpr hc, not_lt.mpr hd, hac, hcd, u32Size]

/-- Three pages of one node each.  The huge node is counted into the cursor of the first page, and
the node behind it, for which that page has no room, is held over for the second; restarting at the
first page's cursor brings the last two. -/
theorem repair_paging_resumed :
    let stream := [oneToken 1, hugeEntry, oneToken 2, oneToken 3]
    let pages := pagesFrom fixintRepair 1 "m" .token stream 316 0
    let cursor := fixintRepair.encodeCursor 2
    pages = [⟨1, "m", .token, 0, [oneToken 1], some cursor, false⟩,
        ⟨1, "m", .token, 1, [oneToken 2], some (fixintRepair.encodeCursor 3), false⟩,
        ⟨1, "m", .token, 2, [oneToken 3], none, true⟩] ∧
      (∀ page ∈ pages, WithinBudget fixintRepair 60 page.entries) ∧
      (pagesFrom fixintRepair 1 "m" .token stream 316
        (fixintRepair.decodeCursor (some cursor))).flatMap TreeRepairPage.entries =
          [oneToken 2, oneToken 3] := by
  intro stream pages cursor
  have hone : ∀ token, fixintRepair.entrySize (oneToken token) ≤ repairEntryHardCeiling :=
    fun token => by rw [entrySize_oneToken]; decide
  have hroom : ∀ t u, 316 - treeRepairPageHeaderOverhead <
      fixintRepair.entrySize (oneToken t) + fixintRepair.entrySize (oneToken u) :=
    fun t u => by rw [entrySize_oneToken, entrySize_oneToken]; decide
  have hhuge : repairEntryHardCeiling < fixintRepair.entrySize hugeEntry := by
    rw [entrySize_hugeEntry]
    decide
  have hpages := pagesFrom_heldOver fixintRepair (hone 1) hhuge (hone 2) (hone 3) (hroom 1 2)
    (hroom 2 3)
  obtain ⟨-, -, hbudget, hrestart⟩ :=
    repair_paging fixintRepair 1 "m" .token stream (by decide) 316 0
  refine ⟨hpages, hbudget, ?_⟩
  have hfirst : pages[0]? = some ⟨1, "m", .token, 0, [oneToken 1], some cursor, false⟩ :=
    congrArg (·[0]?) hpages
  rw [hrestart 0 _ cursor hfirst rfl, hpages]
  rfl

end Smg.Gateway
