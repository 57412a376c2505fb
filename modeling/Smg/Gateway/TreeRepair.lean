import Smg.Lib.Trace
import Smg.Gateway.RepairPaging

/-!
# The tree-repair protocol

A gateway that hears of a tree node it does not know asks a peer for its whole tree; the peer
answers with numbered pages, the requester applies each page once, and the session ends when every
page up to the last has been applied.  A session that makes no progress is retried: under a new
identifier, with the cursor of the pages applied so far, and preferably at another peer.

The system is one requester and the trees of its peers, which stay as they are.  Every request and
every page ever published stays in the network and may be delivered at any time, any number of times
or never.  The two places where the code lets go of a session's lock in the middle are two actions
each: applying a page and removing the session it completed, and publishing a retry and replacing
the session it is for.

* `RepairInv` is the invariant, kept by every action (`RepairInv.exec`) as long as a retry's cursor
  only skips what has been applied (`RetryCovered`).
* `tree_repair_complete`: a session that ends as complete has brought over the whole tree of the
  peer that served its last page; `tree_repair_skips_other_peer` is a run where a retry at another
  peer skips entries that were never applied.
-/

set_option autoImplicit false

namespace Smg.Gateway

open List

open Mesh (Bytes u32Size)

/-! ## Trees -/

def normalizeModelKey (modelId : String) : String := if modelId.isEmpty then "unknown" else modelId

def InMemory {α : Type} (l : List α) : Prop := l.length < 2 ^ 64

/-- The trees of a peer, by model: the nodes of each in the order they are walked in. -/
structure PeerTrees where
  stringTrees : String → Option { l : List (String × List (String × Nat)) // InMemory l }
  tokenTrees : String → Option { l : List (List Nat × List (String × Nat)) // InMemory l }

abbrev RepairKey := String × TreeKind

variable {key : RepairKey} {e : RepairEntry}

namespace PeerTrees

/-- The entries of one tree, in order; nothing if the peer does not have it. -/
def openRepairStream (t : PeerTrees) (key : RepairKey) : Option (List RepairEntry) :=
  match key.2 with
  | .string => (t.stringTrees (normalizeModelKey key.1)).map fun l =>
      l.val.map fun node => .string node.1 node.2
  | .token => (t.tokenTrees (normalizeModelKey key.1)).map fun l =>
      l.val.map fun node => .token node.1 node.2

/-- The stream a peer answers with, empty if it does not have the tree. -/
def stream (t : PeerTrees) (key : RepairKey) : List RepairEntry := (t.openRepairStream key).getD []

theorem length_stream_lt (t : PeerTrees) (key : RepairKey) : (t.stream key).length < 2 ^ 64 := by
  obtain ⟨modelId, kind⟩ := key
  cases hopen : t.openRepairStream (modelId, kind) with
  | none => simp [stream, hopen]
  | some entries =>
    rw [stream, hopen]
    cases kind
    all_goals
      obtain ⟨nodes, -, rfl⟩ := Option.map_eq_some_iff.mp hopen
      rw [Option.getD_some, length_map]
      exact nodes.property

theorem kind_of_mem_stream {t : PeerTrees} (h : e ∈ t.stream key) : e.kind = key.2 := by
  obtain ⟨modelId, kind⟩ := key
  cases hopen : t.openRepairStream (modelId, kind) with
  | none => simp [stream, hopen] at h
  | some entries =>
    rw [stream, hopen] at h
    cases kind
    all_goals
      obtain ⟨nodes, -, rfl⟩ := Option.map_eq_some_iff.mp hopen
      obtain ⟨node, -, rfl⟩ := mem_map.mp h
      rfl

end PeerTrees

/-! ## Sessions -/

/-- What is known of a session in flight. -/
structure RepairProgress where
  sessionId : SessionId
  targetPeerId : String
  startedAt : Nat
  /-- When a page was last applied. -/
  lastActivityAt : Nat
  /-- How often the session has been retried. -/
  retryCount : Nat
  /-- The pages applied, with their cursors. -/
  applied : Table Nat (Option Bytes)
  /-- The number of the last page, once it has been seen. -/
  terminalPageIndex : Option Nat

namespace RepairProgress

def new (sessionId : SessionId) (targetPeerId : String) (now : Nat) : RepairProgress where
  sessionId
  targetPeerId
  startedAt := now
  lastActivityAt := now
  retryCount := 0
  applied := ∅
  terminalPageIndex := none

def recordPage (p : RepairProgress) (page : TreeRepairPage) (now : Nat) : RepairProgress :=
  { p with
    applied := p.applied.insert page.pageIndex page.nextCursor
    lastActivityAt := now
    terminalPageIndex := if page.isLast then some page.pageIndex else p.terminalPageIndex }

/-- The loop of `contiguousCursor` over the applied pages in order. -/
def contiguousFrom : Nat → List (Sigma fun _ : Nat => Option Bytes) → Option Bytes → Option Bytes
  | _, [], cursor => cursor
  | expected, page :: rest, cursor =>
    if page.1 ≠ expected then cursor else contiguousFrom (expected + 1) rest page.2

/-- The cursor at the end of the applied pages that have no gap before them. -/
def contiguousCursor (p : RepairProgress) : Option Bytes :=
  contiguousFrom 0 (sortByKey Sigma.fst p.applied.entries) none

def isContiguouslyComplete (p : RepairProgress) : Bool :=
  match p.terminalPageIndex with
  | none => false
  | some lastPageIndex => (List.range (lastPageIndex + 1)).all fun i => (p.applied.lookup i).isSome

end RepairProgress

/-! ## The protocol -/

/-- What `scan_for_retries` remembers of a session between publishing a retry and replacing it. -/
structure RetrySnapshot where
  key : RepairKey
  sessionId : SessionId
  retryCount : Nat
  newSessionId : SessionId
  /-- The peer the retry is sent to. -/
  target : String
  now : Nat
  retryTimeout : Nat

/-- The requester and the network. -/
structure RepairNet where
  outstanding : Table RepairKey RepairProgress
  /-- Every entry that a page brought to the requester's tree, with the model. -/
  inserted : List (String × RepairEntry)
  requests : List TreeRepairRequest
  /-- Every page published, with the peer that served it. -/
  pages : List (String × TreeRepairPage)
  /-- The session that was found complete and is about to be removed. -/
  finishing : Option (RepairKey × SessionId)
  /-- The session a retry was published for and that is about to be replaced. -/
  scanning : Option RetrySnapshot
  /-- The sessions that were removed as complete. -/
  completed : List (RepairKey × SessionId)

/-- What can happen. -/
inductive RepairAction where
  /-- An unknown hash is heard of; one of the peers alive is picked. -/
  | unknownHash (key : RepairKey) (nodeHash : Nat) (alive : List String) (pick : Nat)
      (sessionId : SessionId) (now : Nat)
  /-- A request arrives at a peer, which answers. -/
  | deliverRequest (peer : String) (request : TreeRepairRequest)
  /-- A page arrives at the requester. -/
  | deliverPage (page : TreeRepairPage) (now : Nat)
  /-- The session that a page completed is removed. -/
  | finishPage
  /-- The retry scan comes to a session. -/
  | scanKey (key : RepairKey) (now retryTimeout maxRetries : Nat) (alive aliveAgain : List String)
      (pick : Nat) (newSessionId : SessionId)
  /-- The retry scan replaces the session it published a retry for. -/
  | replaceProgress

def choose (l : List String) (pick : Nat) : Option String := l[pick % l.length]?

/-- The peer a retry goes to: another one than before, if there is any. -/
def retryTarget (prevTarget : String) (alive aliveAgain : List String) (pick : Nat) :
    Option String :=
  let others := alive.filter (· ≠ prevTarget)
  choose (if others.isEmpty then aliveAgain else others) pick

namespace RepairNet

def new : RepairNet where
  outstanding := ∅
  inserted := []
  requests := []
  pages := []
  finishing := none
  scanning := none
  completed := []

/-- Ask a peer for the tree with an unknown node, unless a session for that tree is in flight. -/
def requestRepairForUnknownHash (nodeName : String) (n : RepairNet) (key : RepairKey)
    (nodeHash : Nat) (alive : List String) (pick : Nat) (sessionId : SessionId) (now : Nat) :
    RepairNet :=
  if (n.outstanding.lookup key).isSome then n
  else
    match choose alive pick with
    | none => n
    | some target =>
      { n with
        requests := n.requests ++ [{
          sessionId, requesterPeerId := nodeName, targetPeerId := target, modelId := key.1,
          treeKind := key.2, cursor := none, reason := nodeHash }]
        outstanding := n.outstanding.insert key (.new sessionId target now) }

/-- A request that is not addressed to the peer is dropped. -/
def handleIncomingRepairRequest (fmt : RepairFormat) (trees : String → PeerTrees) (n : RepairNet)
    (peer : String) (request : TreeRepairRequest) : RepairNet :=
  if request.targetPeerId ≠ peer then n
  else
    let stream := (trees peer).stream (request.modelId, request.treeKind)
    { n with pages := n.pages ++ (respondPages fmt stream request).map fun page => (peer, page) }

/-- What applying a page adds to the requester's tree; an entry of the other kind is skipped. -/
def applyRepairPage (page : TreeRepairPage) : List (String × RepairEntry) :=
  (page.entries.filter fun e => e.kind = page.treeKind).map fun e =>
    (normalizeModelKey page.modelId, e)

/-- Apply a page of the session in flight, unless it has been applied before. -/
def handleIncomingRepairPage (n : RepairNet) (page : TreeRepairPage) (now : Nat) : RepairNet :=
  let key := (page.modelId, page.treeKind)
  match n.outstanding.lookup key with
  | none => n
  | some entry =>
    if entry.sessionId ≠ page.sessionId then n
    else if (entry.applied.lookup page.pageIndex).isSome then n
    else
      let entry := entry.recordPage page now
      { n with
        inserted := n.inserted ++ applyRepairPage page
        outstanding := n.outstanding.insert key entry
        finishing :=
          if entry.isContiguouslyComplete then some (key, page.sessionId) else n.finishing }

/-- Remove the completed session, if it is still the one in flight. -/
def removeComplete (n : RepairNet) : RepairNet :=
  match n.finishing with
  | none => n
  | some (key, sessionId) =>
    match n.outstanding.lookup key with
    | none => { n with finishing := none }
    | some progress =>
      if progress.sessionId = sessionId then
        { n with
          outstanding := n.outstanding.erase key
          finishing := none
          completed := n.completed ++ [(key, sessionId)] }
      else { n with finishing := none }

/-- The scan's work on one session, up to the publishing of a retry: a session that is not stale is
left alone, one that was retried too often is given up. -/
def scanKey (nodeName : String) (n : RepairNet) (key : RepairKey)
    (now retryTimeout maxRetries : Nat) (alive aliveAgain : List String) (pick : Nat)
    (newSessionId : SessionId) : RepairNet :=
  match n.outstanding.lookup key with
  | none => n
  | some p =>
    if now - p.lastActivityAt < retryTimeout then n
    else if maxRetries ≤ p.retryCount then { n with outstanding := n.outstanding.erase key }
    else
      match retryTarget p.targetPeerId alive aliveAgain pick with
      | none => n
      | some target =>
        { n with
          requests := n.requests ++ [{
            sessionId := newSessionId, requesterPeerId := nodeName, targetPeerId := target,
            modelId := key.1, treeKind := key.2, cursor := p.contiguousCursor, reason := 0 }]
          scanning := some {
            key, sessionId := p.sessionId, retryCount := p.retryCount,
            newSessionId := newSessionId, target, now, retryTimeout } }

/-- The rest of the scan's work on a session: start over under the new identifier, unless the
session changed or made progress since. -/
def replaceProgress (n : RepairNet) : RepairNet :=
  match n.scanning with
  | none => n
  | some s =>
    match n.outstanding.lookup s.key with
    | none => { n with scanning := none }
    | some progress =>
      if progress.sessionId ≠ s.sessionId ∨ progress.retryCount ≠ s.retryCount ∨
          s.now - progress.lastActivityAt < s.retryTimeout then { n with scanning := none }
      else
        { n with
          scanning := none
          outstanding := n.outstanding.insert s.key {
            sessionId := s.newSessionId, targetPeerId := s.target, startedAt := s.now,
            lastActivityAt := s.now, retryCount := s.retryCount + 1, applied := ∅,
            terminalPageIndex := none } }

/-- What an action does.  The task that handles pages takes the next page only when it is done with
the one before, and so does the scan. -/
def exec (fmt : RepairFormat) (trees : String → PeerTrees) (nodeName : String) (n : RepairNet) :
    RepairAction → RepairNet
  | .unknownHash key nodeHash alive pick sessionId now =>
    n.requestRepairForUnknownHash nodeName key nodeHash alive pick sessionId now
  | .deliverRequest peer request => n.handleIncomingRepairRequest fmt trees peer request
  | .deliverPage page now =>
    if n.finishing.isSome then n else n.handleIncomingRepairPage page now
  | .finishPage => n.removeComplete
  | .scanKey key now retryTimeout maxRetries alive aliveAgain pick newSessionId =>
    if n.scanning.isSome then n
    else n.scanKey nodeName key now retryTimeout maxRetries alive aliveAgain pick newSessionId
  | .replaceProgress => n.replaceProgress

def requestKey (r : TreeRepairRequest) : RepairKey := (r.modelId, r.treeKind)

/-- The response of the peer a request is addressed to. -/
def responsePages (fmt : RepairFormat) (trees : String → PeerTrees) (r : TreeRepairRequest) :
    List TreeRepairPage :=
  respondPages fmt ((trees r.targetPeerId).stream (requestKey r)) r

/-- A request that arrives where it is addressed to is answered. -/
theorem exec_deliverRequest {fmt : RepairFormat} {trees : String → PeerTrees} {nodeName : String}
    {n : RepairNet} {r : TreeRepairRequest} {pages : List TreeRepairPage}
    (h : responsePages fmt trees r = pages) :
    n.exec fmt trees nodeName (.deliverRequest r.targetPeerId r)
      = { n with pages := n.pages ++ pages.map fun page => (r.targetPeerId, page) } := by
  rw [exec, handleIncomingRepairRequest, if_neg (by simp), ← h]
  rfl

/-- No request was ever issued under this identifier. -/
def Fresh (n : RepairNet) (sessionId : SessionId) : Prop :=
  ∀ r ∈ n.requests, r.sessionId ≠ sessionId

/-- Only what was published is delivered, and new sessions get new identifiers. -/
def Permitted (n : RepairNet) : RepairAction → Prop
  | .unknownHash _ _ _ _ sessionId _ => n.Fresh sessionId
  | .deliverRequest _ request => request ∈ n.requests
  | .deliverPage page _ => ∃ peer, (peer, page) ∈ n.pages
  | .finishPage => True
  | .scanKey _ _ _ _ _ _ _ newSessionId => n.Fresh newSessionId
  | .replaceProgress => True

/-! ## The invariant -/

section Invariant

variable (fmt : RepairFormat) (trees : String → PeerTrees)

/-- What fits in a page of the first `count` entries of a peer's tree has been applied. -/
def Covered (n : RepairNet) (peer : String) (key : RepairKey) (count : Nat) : Prop :=
  ∀ e ∈ ((trees peer).stream key).take count, fmt.sendable e = true →
    (normalizeModelKey key.1, e) ∈ n.inserted

/-- A retry only skips what has been applied: when the scan is about to publish one, the entries of
the new target's tree that the session's cursor counts have all been applied. -/
def RetryCovered (n : RepairNet) : RepairAction → Prop
  | .scanKey key now retryTimeout maxRetries alive aliveAgain pick _ =>
    ∀ p target, n.outstanding.lookup key = some p → retryTimeout ≤ now - p.lastActivityAt →
      p.retryCount < maxRetries → retryTarget p.targetPeerId alive aliveAgain pick = some target →
      Covered fmt trees n target key (fmt.decodeCursor p.contiguousCursor)
  | _ => True

/-- What a session says it has applied are pages of the response to its request, and they have been
applied. -/
structure Recorded (inserted : List (String × RepairEntry))
    (served : List (String × TreeRepairPage)) (r : TreeRepairRequest) (p : RepairProgress) :
    Prop where
  applied : ∀ (i : Nat) (cursor : Option Bytes), p.applied.lookup i = some cursor →
    ∃ page, (responsePages fmt trees r)[i]? = some page ∧ page.nextCursor = cursor ∧
      ∀ e ∈ page.entries, (normalizeModelKey r.modelId, e) ∈ inserted
  terminal : ∀ i, p.terminalPageIndex = some i →
    ∃ page, (responsePages fmt trees r)[i]? = some page ∧ page.isLast = true ∧
      (r.targetPeerId, page) ∈ served

/-- A session is done: its last page was served by the peer it was addressed to, and the whole tree
of that peer has been applied. -/
def Done (n : RepairNet) (key : RepairKey) (sessionId : SessionId) : Prop :=
  ∃ r ∈ n.requests, r.sessionId = sessionId ∧ requestKey r = key ∧
    (∃ page, (r.targetPeerId, page) ∈ n.pages ∧ page.sessionId = sessionId ∧
      page.isLast = true) ∧
    Covered fmt trees n r.targetPeerId key ((trees r.targetPeerId).stream key).length

/-- The invariant of the protocol. -/
structure RepairInv (n : RepairNet) : Prop where
  unique : ∀ r ∈ n.requests, ∀ r' ∈ n.requests, r.sessionId = r'.sessionId → r = r'
  /-- What a request skips has been applied. -/
  covered : ∀ r ∈ n.requests,
    Covered fmt trees n r.targetPeerId (requestKey r) (fmt.decodeCursor r.cursor)
  /-- Pages are parts of responses. -/
  pages : ∀ peer page, (peer, page) ∈ n.pages →
    ∃ r ∈ n.requests, r.targetPeerId = peer ∧ page ∈ responsePages fmt trees r
  /-- Sessions in flight record what has been applied. -/
  session : ∀ key p, n.outstanding.lookup key = some p →
    ∃ r ∈ n.requests, r.sessionId = p.sessionId ∧ requestKey r = key ∧
      r.targetPeerId = p.targetPeerId ∧ Recorded fmt trees n.inserted n.pages r p
  /-- A retry that was published is a request. -/
  scanning : ∀ s, n.scanning = some s →
    ∃ r ∈ n.requests, r.sessionId = s.newSessionId ∧ requestKey r = s.key ∧
      r.targetPeerId = s.target
  /-- A session about to be removed is done. -/
  finishing : ∀ key sessionId, n.finishing = some (key, sessionId) →
    Done fmt trees n key sessionId
  /-- A session that was removed as complete is done. -/
  completed : ∀ key sessionId, (key, sessionId) ∈ n.completed → Done fmt trees n key sessionId

end Invariant

section Preservation

variable {fmt : RepairFormat} {trees : String → PeerTrees} {n n' : RepairNet}

/-- The network and the tree have only grown. -/
structure Grows (n n' : RepairNet) : Prop where
  inserted : n.inserted ⊆ n'.inserted
  requests : n.requests ⊆ n'.requests
  pages : n.pages ⊆ n'.pages

theorem Covered.grow {peer : String} {count : Nat} (h : Covered fmt trees n peer key count)
    (hg : Grows n n') : Covered fmt trees n' peer key count :=
  fun e he hs => hg.inserted (h e he hs)

variable {r : TreeRepairRequest} {p : RepairProgress}

theorem Recorded.grow (h : Recorded fmt trees n.inserted n.pages r p) (hg : Grows n n') :
    Recorded fmt trees n'.inserted n'.pages r p where
  applied i cursor hi := by
    obtain ⟨page, hp, hc, he⟩ := h.applied i cursor hi
    exact ⟨page, hp, hc, fun e hmem => hg.inserted (he e hmem)⟩
  terminal i hi := by
    obtain ⟨page, hp, hl, hs⟩ := h.terminal i hi
    exact ⟨page, hp, hl, hg.pages hs⟩

theorem Done.grow {sessionId : SessionId} (h : Done fmt trees n key sessionId) (hg : Grows n n') :
    Done fmt trees n' key sessionId := by
  obtain ⟨r, hr, hs, hk, ⟨page, hp, hps, hl⟩, hc⟩ := h
  exact ⟨r, hg.requests hr, hs, hk, ⟨page, hg.pages hp, hps, hl⟩, hc.grow hg⟩

/-- A session of which nothing has been received records nothing. -/
theorem recorded_empty (r : TreeRepairRequest) (ha : p.applied = ∅)
    (ht : p.terminalPageIndex = none) : Recorded fmt trees n.inserted n.pages r p where
  applied i cursor hi := by
    rw [ha] at hi
    cases hi
  terminal i hi := by
    rw [ht] at hi
    cases hi

theorem paged_responsePages (fmt : RepairFormat) (trees : String → PeerTrees)
    (r : TreeRepairRequest) :
    Paged fmt r.sessionId r.modelId r.treeKind (fmt.decodeCursor r.cursor) 0
      (((trees r.targetPeerId).stream (requestKey r)).drop (fmt.decodeCursor r.cursor))
      (responsePages fmt trees r) :=
  paged_respondPages fmt _ r

variable {page : TreeRepairPage}

theorem mem_stream_of_mem_page (hp : page ∈ responsePages fmt trees r) (he : e ∈ page.entries) :
    e ∈ (trees r.targetPeerId).stream (requestKey r) := by
  have hmem : e ∈ (responsePages fmt trees r).flatMap TreeRepairPage.entries :=
    mem_flatMap.mpr ⟨page, hp, he⟩
  rw [(paged_responsePages fmt trees r).flatMap_entries] at hmem
  exact mem_of_mem_drop (mem_filter.mp hmem).1

theorem applyRepairPage_eq (hp : page ∈ responsePages fmt trees r) (he : e ∈ page.entries) :
    (normalizeModelKey r.modelId, e) ∈ applyRepairPage page := by
  obtain ⟨-, hm, hk⟩ := (paged_responsePages fmt trees r).header_eq hp
  have hkind : e.kind = page.treeKind :=
    (PeerTrees.kind_of_mem_stream (mem_stream_of_mem_page hp he)).trans hk.symm
  rw [applyRepairPage, hm]
  exact mem_map_of_mem (mem_filter.mpr ⟨he, by simpa using hkind⟩)

/-- **All pages applied is the whole tree applied.** -/
theorem covered_of_complete
    (hskip : Covered fmt trees n r.targetPeerId (requestKey r) (fmt.decodeCursor r.cursor))
    (hrec : Recorded fmt trees n.inserted n.pages r p) (hc : p.isContiguouslyComplete = true) :
    (∃ page, (r.targetPeerId, page) ∈ n.pages ∧ page.sessionId = r.sessionId ∧
      page.isLast = true) ∧
    Covered fmt trees n r.targetPeerId (requestKey r)
      ((trees r.targetPeerId).stream (requestKey r)).length := by
  rw [RepairProgress.isContiguouslyComplete] at hc
  rcases ht : p.terminalPageIndex with _ | t
  · simp [ht] at hc
  · simp only [ht, all_eq_true, mem_range] at hc
    obtain ⟨lastPage, hlast, hisLast, hserved⟩ := hrec.terminal t ht
    have hpaged := paged_responsePages fmt trees r
    have hlen := hpaged.length_of_isLast hlast hisLast
    have hmem := mem_of_getElem? hlast
    refine ⟨⟨lastPage, hserved, (hpaged.header_eq hmem).1, hisLast⟩, fun e he hs => ?_⟩
    rw [take_length] at he
    -- an entry was skipped, or is on a page
    rw [← take_append_drop (fmt.decodeCursor r.cursor) ((trees r.targetPeerId).stream _),
      mem_append] at he
    rcases he with he | he
    · exact hskip e he hs
    · have hflat : e ∈ (responsePages fmt trees r).flatMap TreeRepairPage.entries := by
        rw [hpaged.flatMap_entries]
        exact mem_filter.mpr ⟨he, hs⟩
      obtain ⟨page, hpage, hepage⟩ := mem_flatMap.mp hflat
      obtain ⟨i, hi⟩ := mem_iff_getElem?.mp hpage
      have hlt : i < t + 1 := by
        rw [← hlen]
        exact (List.getElem?_eq_some_iff.mp hi).1
      obtain ⟨cursor, hcur⟩ := Option.isSome_iff_exists.mp (hc i hlt)
      obtain ⟨page', hp', -, hins⟩ := hrec.applied i cursor hcur
      rw [hi, Option.some.injEq] at hp'
      exact hins e (hp' ▸ hepage)

theorem exists_of_contiguousFrom {expected : Nat} {pages : List (Sigma fun _ : Nat => Option Bytes)}
    {start : Option Bytes} {cursor : Bytes}
    (h : RepairProgress.contiguousFrom expected pages start = some cursor) :
    start = some cursor ∨ ∃ i, ⟨i, some cursor⟩ ∈ pages ∧
      ∀ j, expected ≤ j → j ≤ i → ∃ c, ⟨j, c⟩ ∈ pages := by
  induction pages generalizing expected start with
  | nil => exact .inl h
  | cons page pages ih =>
    rw [RepairProgress.contiguousFrom] at h
    split at h
    · exact .inl h
    next heq =>
      obtain ⟨number, next⟩ := page
      obtain rfl : number = expected := not_not.mp heq
      refine .inr ?_
      rcases ih h with hnext | ⟨i, hi, hbefore⟩
      · obtain rfl : next = some cursor := hnext
        refine ⟨number, mem_cons_self, fun j hj hji => ⟨some cursor, ?_⟩⟩
        rw [le_antisymm hji hj]
        exact mem_cons_self
      · refine ⟨i, mem_cons_of_mem _ hi, fun j hj hji => ?_⟩
        rcases hj.eq_or_lt with rfl | hlt
        · exact ⟨next, mem_cons_self⟩
        · obtain ⟨c, hc⟩ := hbefore j hlt hji
          exact ⟨c, mem_cons_of_mem _ hc⟩

/-- **What the cursor of a session counts has been applied**, at the peer it was addressed to. -/
theorem covered_contiguousCursor
    (hskip : Covered fmt trees n r.targetPeerId (requestKey r) (fmt.decodeCursor r.cursor))
    (hrec : Recorded fmt trees n.inserted n.pages r p) :
    Covered fmt trees n r.targetPeerId (requestKey r) (fmt.decodeCursor p.contiguousCursor) := by
  cases hcursor : p.contiguousCursor with
  | none => exact fun e he => absurd he (by simp [RepairFormat.decodeCursor])
  | some cursor =>
    have hsorted : ∀ {x : Sigma fun _ : Nat => Option Bytes},
        x ∈ sortByKey Sigma.fst p.applied.entries → p.applied.lookup x.1 = some x.2 := fun hx =>
      AList.mem_lookup_iff.mpr (mem_sortByKey.mp hx)
    obtain ⟨i, hi, hbefore⟩ := (exists_of_contiguousFrom hcursor).resolve_left (by simp)
    obtain ⟨page, hpage, hnext, -⟩ := hrec.applied i (some cursor) (hsorted hi)
    have hpaged := paged_responsePages fmt trees r
    obtain ⟨k, hk, rfl, hrest⟩ := hpaged.exists_cursor hpage hnext
    have hlen := (trees r.targetPeerId).length_stream_lt (requestKey r)
    rw [length_drop] at hk
    rw [fmt.decodeCursor_encodeCursor (by omega)]
    intro e he hs
    rw [take_add, mem_append] at he
    rcases he with he | he
    · exact hskip e he hs
    · -- the pages up to that one carry the entries between the two cursors
      have hfront := hpaged.flatMap_take hrest
      obtain ⟨page', hpage', he'⟩ : ∃ page' ∈ (responsePages fmt trees r).take (i + 1),
          e ∈ page'.entries := by
        rw [← mem_flatMap, hfront]
        exact mem_filter.mpr ⟨he, hs⟩
      obtain ⟨j, hj⟩ := mem_iff_getElem?.mp hpage'
      rw [getElem?_take] at hj
      split at hj
      next hji =>
        obtain ⟨c, hc⟩ := hbefore j (Nat.zero_le j) (Nat.le_of_lt_succ hji)
        obtain ⟨page'', hpage'', -, hins⟩ := hrec.applied j c (hsorted hc)
        rw [hj, Option.some.injEq] at hpage''
        exact hins e (hpage'' ▸ he')
      next => cases hj

/-! ### One action -/

section

variable (h : RepairInv fmt trees n)

include h

theorem RepairInv.grow {inserted : List (String × RepairEntry)} {requests : List TreeRepairRequest}
    {pages : List (String × TreeRepairPage)} (hg : Grows n { n with inserted, requests, pages })
    (hunique : ∀ r ∈ requests, ∀ r' ∈ requests, r.sessionId = r'.sessionId → r = r')
    (hcov : ∀ r ∈ requests, r ∈ n.requests ∨
      Covered fmt trees n r.targetPeerId (requestKey r) (fmt.decodeCursor r.cursor))
    (hpages : ∀ peer page, (peer, page) ∈ pages → (peer, page) ∈ n.pages ∨
      ∃ r ∈ requests, r.targetPeerId = peer ∧ page ∈ responsePages fmt trees r) :
    RepairInv fmt trees { n with inserted, requests, pages } where
  unique := hunique
  covered r hr := ((hcov r hr).elim (h.covered r) id).grow hg
  pages peer page hp := by
    rcases hpages peer page hp with hp | hp
    · obtain ⟨r, hr, hrest⟩ := h.pages peer page hp
      exact ⟨r, hg.requests hr, hrest⟩
    · exact hp
  session key p hp := by
    obtain ⟨r, hr, hs, hk, ht, hrec⟩ := h.session key p hp
    exact ⟨r, hg.requests hr, hs, hk, ht, hrec.grow hg⟩
  scanning s hs := by
    obtain ⟨r, hr, hrest⟩ := h.scanning s hs
    exact ⟨r, hg.requests hr, hrest⟩
  finishing key sid hf := (h.finishing key sid hf).grow hg
  completed key sid hc := (h.completed key sid hc).grow hg

theorem RepairInv.addRequest (hfresh : n.Fresh r.sessionId)
    (hcov : Covered fmt trees n r.targetPeerId (requestKey r) (fmt.decodeCursor r.cursor)) :
    RepairInv fmt trees { n with requests := n.requests ++ [r] } := by
  refine h.grow ⟨Subset.refl _, subset_append_left _ _, Subset.refl _⟩ (fun r1 h1 r2 h2 heq => ?_)
    (fun r' hr' => ?_) fun _ _ hp => .inl hp
  · rcases mem_append.mp h1 with h1 | h1 <;> rcases mem_append.mp h2 with h2 | h2
    · exact h.unique r1 h1 r2 h2 heq
    · rw [mem_singleton.mp h2] at heq
      exact absurd heq (hfresh r1 h1)
    · rw [mem_singleton.mp h1] at heq
      exact absurd heq.symm (hfresh r2 h2)
    · rw [mem_singleton.mp h1, mem_singleton.mp h2]
  · refine (mem_append.mp hr').imp_right fun hr' => ?_
    rwa [mem_singleton.mp hr']

theorem RepairInv.addPages (hr : r ∈ n.requests) : RepairInv fmt trees { n with
      pages := n.pages ++ (responsePages fmt trees r).map fun page => (r.targetPeerId, page) } := by
  refine h.grow ⟨Subset.refl _, Subset.refl _, subset_append_left _ _⟩ h.unique
    (fun _ hr => .inl hr) fun peer page hp => (mem_append.mp hp).imp_right fun hp => ?_
  obtain ⟨page', hpage', heq⟩ := mem_map.mp hp
  rw [Prod.mk.injEq] at heq
  exact ⟨r, hr, heq.1, heq.2 ▸ hpage'⟩

theorem RepairInv.insert
    (hp : ∃ r ∈ n.requests, r.sessionId = p.sessionId ∧ requestKey r = key ∧
      r.targetPeerId = p.targetPeerId ∧ Recorded fmt trees n.inserted n.pages r p) :
    RepairInv fmt trees { n with outstanding := n.outstanding.insert key p } := by
  refine { h with session := fun key' p' hp' => ?_ }
  rcases Table.lookup_insert_eq_some.mp hp' with ⟨-, hp'⟩ | ⟨rfl, rfl⟩
  · exact h.session key' p' hp'
  · exact hp

theorem RepairInv.erase (key : RepairKey) :
    RepairInv fmt trees { n with outstanding := n.outstanding.erase key } :=
  { h with
    session := fun key' p' hp' => h.session key' p' (Table.lookup_erase_eq_some.mp hp').2 }

end

/-- An entry under a page's number is that page, as long as page numbers do not wrap around. -/
theorem getElem_pageIndex (hlen : (responsePages fmt trees r).length ≤ u32Size)
    (hp : page ∈ responsePages fmt trees r) :
    (responsePages fmt trees r)[page.pageIndex]? = some page := by
  obtain ⟨i, hi⟩ := mem_iff_getElem?.mp hp
  have hlt := (List.getElem?_eq_some_iff.mp hi).1
  rw [(paged_responsePages fmt trees r).pageIndex_eq hi, zero_add,
    Nat.mod_eq_of_lt (hlt.trans_le hlen), hi]

theorem Recorded.addPage (hlen : (responsePages fmt trees r).length ≤ u32Size)
    (h : Recorded fmt trees n.inserted n.pages r p) (hpage : page ∈ responsePages fmt trees r)
    (hserved : (r.targetPeerId, page) ∈ n.pages)
    (hins : ∀ e ∈ page.entries, (normalizeModelKey r.modelId, e) ∈ n.inserted) (now : Nat) :
    Recorded fmt trees n.inserted n.pages r (p.recordPage page now) where
  applied i cursor hi := by
    rw [RepairProgress.recordPage] at hi
    rcases Table.lookup_insert_eq_some.mp hi with ⟨-, hi⟩ | ⟨rfl, rfl⟩
    · exact h.applied i cursor hi
    · exact ⟨page, getElem_pageIndex hlen hpage, rfl, hins⟩
  terminal i hi := by
    rw [RepairProgress.recordPage] at hi
    by_cases hl : page.isLast = true
    · simp only [hl, if_true, Option.some.injEq] at hi
      subst hi
      exact ⟨page, getElem_pageIndex hlen hpage, hl, hserved⟩
    · simp only [hl] at hi
      exact h.terminal i hi

section

variable (h : RepairInv fmt trees n)

include h

/-- **A page arrives.** -/
theorem RepairInv.handleIncomingRepairPage
    (hlen : ∀ r, (responsePages fmt trees r).length ≤ u32Size) {peer : String}
    (hpage : (peer, page) ∈ n.pages) (now : Nat) :
    RepairInv fmt trees (n.handleIncomingRepairPage page now) := by
  obtain ⟨r, hr, rfl, hmem⟩ := h.pages peer page hpage
  obtain ⟨hsid, hmodel, hkind⟩ := (paged_responsePages fmt trees r).header_eq hmem
  rw [RepairNet.handleIncomingRepairPage]
  rcases hp : n.outstanding.lookup (page.modelId, page.treeKind) with _ | p
  · exact h
  · dsimp only
    split
    · exact h
    · next hsame =>
      split
      · exact h
      · rw [not_not] at hsame
        -- the session's request is the one this page answers
        obtain ⟨r', hr', hs', hk', ht', hrec⟩ := h.session _ p hp
        have hrr : r' = r := h.unique r' hr' r hr (hs'.trans (hsame.trans hsid))
        subst hrr
        have hg : Grows n { n with inserted := n.inserted ++ applyRepairPage page } :=
          ⟨subset_append_left _ _, Subset.refl _, Subset.refl _⟩
        have h1 := h.grow hg h.unique (fun _ hr => .inl hr) fun _ _ hp => .inl hp
        have hrec2 := (hrec.grow hg).addPage (hlen r') hmem hpage
          (fun e he => mem_append_right _ (applyRepairPage_eq hmem he)) now
        have h2 := h1.insert (p := p.recordPage page now) ⟨r', hr', hs', hk', ht', hrec2⟩
        refine { h2 with finishing := fun key sid hf => ?_ }
        split at hf
        · next hc =>
          obtain ⟨rfl, rfl⟩ := hf
          have hcov := h2.covered r' hr'
          rw [← hk']
          exact ⟨r', hr', hsid.symm, rfl, hsid ▸ covered_of_complete hcov hrec2 hc⟩
        · exact h2.finishing key sid hf

theorem RepairInv.removeComplete : RepairInv fmt trees n.removeComplete := by
  rw [RepairNet.removeComplete]
  rcases hf : n.finishing with _ | ⟨key, sid⟩
  · exact h
  · dsimp only
    have hdone := h.finishing key sid hf
    have h1 : RepairInv fmt trees { n with finishing := none } :=
      { h with finishing := fun _ _ hf => absurd hf (by simp) }
    split
    · exact h1
    · split
      · refine { h1.erase key with completed := fun key' sid' hc => ?_ }
        rcases mem_append.mp hc with hc | hc
        · exact h.completed key' sid' hc
        · rw [mem_singleton, Prod.mk.injEq] at hc
          rw [hc.1, hc.2]
          exact hdone
      · exact h1

theorem RepairInv.requestRepairForUnknownHash (nodeName : String) (key : RepairKey)
    (nodeHash : Nat) (alive : List String) (pick : Nat) {sessionId : SessionId}
    (hfresh : n.Fresh sessionId) (now : Nat) : RepairInv fmt trees
      (n.requestRepairForUnknownHash nodeName key nodeHash alive pick sessionId now) := by
  rw [RepairNet.requestRepairForUnknownHash]
  split
  · exact h
  · split
    · exact h
    · next target _ =>
      have h1 := h.addRequest (r := ⟨sessionId, nodeName, target, key.1, key.2, none, nodeHash⟩)
        hfresh (fun e he => by simp [RepairFormat.decodeCursor] at he)
      exact h1.insert
        ⟨_, mem_append_right _ (mem_singleton_self _), rfl, rfl, rfl,
          recorded_empty _ rfl rfl⟩

theorem RepairInv.scanKey (nodeName : String) (key : RepairKey)
    (now retryTimeout maxRetries : Nat) (alive aliveAgain : List String) (pick : Nat)
    {newSessionId : SessionId} (hfresh : n.Fresh newSessionId)
    (hcov : RetryCovered fmt trees n
      (.scanKey key now retryTimeout maxRetries alive aliveAgain pick newSessionId)) :
    RepairInv fmt trees
      (n.scanKey nodeName key now retryTimeout maxRetries alive aliveAgain pick newSessionId) := by
  rw [RepairNet.scanKey]
  split
  · exact h
  · next p hp =>
    split
    · exact h
    · next hstale =>
      split
      · exact h.erase key
      · next hretry =>
        split
        · exact h
        · next target htarget =>
          have hskip := hcov p target hp (by omega) (by omega) htarget
          have h1 := h.addRequest
            (r := ⟨newSessionId, nodeName, target, key.1, key.2, p.contiguousCursor, 0⟩)
            hfresh hskip
          refine { h1 with scanning := fun s hs => ?_ }
          rw [← Option.some.inj hs]
          exact ⟨_, mem_append_right _ (mem_singleton_self _), rfl, rfl, rfl⟩

theorem RepairInv.replaceProgress : RepairInv fmt trees n.replaceProgress := by
  rw [RepairNet.replaceProgress]
  rcases hs : n.scanning with _ | s
  · exact h
  · dsimp only
    have h1 : RepairInv fmt trees { n with scanning := none } :=
      { h with scanning := fun _ hs => absurd hs (by simp) }
    split
    · exact h1
    · split
      · exact h1
      · obtain ⟨r, hr, hsid, hkey, htarget⟩ := h.scanning s hs
        exact h1.insert
          ⟨r, hr, hsid, hkey, htarget, recorded_empty r rfl rfl⟩

/-- **The invariant is kept** by every permitted action that is not a retry past what has been
applied. -/
theorem RepairInv.exec (hlen : ∀ r, (responsePages fmt trees r).length ≤ u32Size)
    (nodeName : String) {a : RepairAction} (ha : n.Permitted a)
    (hcov : RetryCovered fmt trees n a) : RepairInv fmt trees (n.exec fmt trees nodeName a) := by
  rcases a with ⟨key, nodeHash, alive, pick, sessionId, now⟩ | ⟨peer, request⟩ | ⟨page, now⟩ | _ |
    ⟨key, now, retryTimeout, maxRetries, alive, aliveAgain, pick, newSessionId⟩ | _
  · exact h.requestRepairForUnknownHash nodeName key nodeHash alive pick ha now
  · by_cases heq : request.targetPeerId = peer
    · subst heq
      rw [exec_deliverRequest rfl]
      exact h.addPages ha
    · rw [RepairNet.exec, handleIncomingRepairRequest, if_pos heq]
      exact h
  · rw [RepairNet.exec]
    split
    · exact h
    · obtain ⟨peer, hpage⟩ := ha
      exact h.handleIncomingRepairPage hlen hpage now
  · exact h.removeComplete
  · rw [RepairNet.exec]
    split
    · exact h
    · exact h.scanKey nodeName key now retryTimeout maxRetries alive aliveAgain pick ha hcov
  · exact h.replaceProgress

/-- **A retry at the same peer, or without a cursor**, skips only what has been applied. -/
theorem RepairInv.retryCovered {key : RepairKey} {now retryTimeout maxRetries : Nat}
    {alive aliveAgain : List String} {pick : Nat} {newSessionId : SessionId}
    (hsame : ∀ p target, n.outstanding.lookup key = some p →
      retryTarget p.targetPeerId alive aliveAgain pick = some target →
        target = p.targetPeerId ∨ p.contiguousCursor = none) :
    RetryCovered fmt trees n
      (.scanKey key now retryTimeout maxRetries alive aliveAgain pick newSessionId) := by
  intro p target hp _ _ htarget
  obtain ⟨r, hr, -, rfl, hpeer, hrec⟩ := h.session key p hp
  rcases hsame p target hp htarget with rfl | hnone
  · rw [← hpeer]
    exact covered_contiguousCursor (h.covered r hr) hrec
  · rw [hnone]
    exact fun e he => absurd he (by simp [RepairFormat.decodeCursor])

end

end Preservation

def ServedLast (n : RepairNet) (sessionId : SessionId) (peer : String) : Prop :=
  ∃ page, (peer, page) ∈ n.pages ∧ page.sessionId = sessionId ∧ page.isLast = true

end RepairNet

open RepairNet

/-- **Repair is complete.**  In every run in which a retry only skips what has been applied, and no
response has more pages than there are page numbers: a session that is removed as complete has had
its last page served, and every entry that fits in a page of the tree of the peer that served it has
been applied at the requester. -/
theorem tree_repair_complete (fmt : RepairFormat) (trees : String → PeerTrees) (nodeName : String)
    (hlen : ∀ r, (responsePages fmt trees r).length ≤ u32Size) {n : RepairNet}
    (hn : Reaches (exec fmt trees nodeName)
      (fun n a => n.Permitted a ∧ RetryCovered fmt trees n a) new n)
    {key : RepairKey} {sessionId : SessionId} (hc : (key, sessionId) ∈ n.completed) :
    (∃ peer, n.ServedLast sessionId peer) ∧
      ∀ peer, n.ServedLast sessionId peer → ∀ e ∈ (trees peer).stream key,
        fmt.sendable e = true → (normalizeModelKey key.1, e) ∈ n.inserted := by
  have h : RepairInv fmt trees n :=
    hn.invariant ⟨nofun, nofun, nofun, nofun, nofun, nofun, nofun⟩ fun _ _ h ha =>
      h.exec hlen nodeName ha.1 ha.2
  obtain ⟨r, hr, hsid, hkey, ⟨page, hpage, hps, hlast⟩, hcov⟩ := h.completed key sessionId hc
  refine ⟨⟨r.targetPeerId, page, hpage, hps, hlast⟩, ?_⟩
  rintro peer ⟨page', hpage', hps', -⟩ e he hs
  -- the page answers the session's one request, so it came from the peer that was asked
  obtain ⟨r', hr', rfl, hmem⟩ := h.pages peer page' hpage'
  have hsid' := ((paged_responsePages fmt trees r').header_eq hmem).1
  have hrr : r' = r := h.unique r' hr' r hr (hsid'.symm.trans (hps'.trans hsid.symm))
  subst hrr
  exact hcov e (by rwa [take_length]) hs

/-! ## A retry at the same peer, and one at another -/

def longTokens : List Nat := List.replicate 600000 1

theorem length_longTokens : longTokens.length = 600000 := length_replicate

def longEntry : RepairEntry := .token longTokens [("w1", 5)]

def otherEntry : RepairEntry := .token [3] [("w2", 6)]

/-- One peer has a long and a short node, the other a node of its own. -/
def exampleTrees (peer : String) : PeerTrees where
  stringTrees _ := none
  tokenTrees model :=
    if model = "m" then
      if peer = "a" then
        some ⟨[(longTokens, [("w1", 5)]), ([1, 2], [("w1", 5)])], by simp [InMemory]⟩
      else if peer = "b" then some ⟨[([3], [("w2", 6)])], by simp [InMemory]⟩
      else none
    else none

def exampleKey : RepairKey := ("m", .token)

def firstRequest : TreeRepairRequest := ⟨1, "self", "a", "m", .token, none, 7⟩

def retryRequest (target : String) : TreeRepairRequest :=
  ⟨2, "self", target, "m", .token, some (fixintRepair.encodeCursor 1), 0⟩

def firstPage : TreeRepairPage :=
  ⟨1, "m", .token, 0, [longEntry], some (fixintRepair.encodeCursor 1), false⟩

def secondPage : TreeRepairPage := ⟨1, "m", .token, 1, [shortEntry], none, true⟩

def retryPage (entries : List RepairEntry) : TreeRepairPage :=
  ⟨2, "m", .token, 0, entries, none, true⟩

theorem entrySize_longEntry : fixintRepair.entrySize longEntry = 2400038 := by
  have h : tenantsSize [("w1", 5)] = 26 := by decide
  simp [RepairFormat.entrySize, fixintRepair, longEntry, length_longTokens, h]

/-- An entry over the soft cap has a page of its own. -/
theorem respondPages_pair {fmt : RepairFormat} {x y : RepairEntry} {r : TreeRepairRequest}
    (hx : fmt.entrySize x ≤ repairEntryHardCeiling) (hbig : treeRepairPageByteCap < fmt.entrySize x)
    (hy : fmt.entrySize y ≤ repairEntryHardCeiling) (hr : r.cursor = none) :
    respondPages fmt [x, y] r
      = [⟨r.sessionId, r.modelId, r.treeKind, 0, [x], some (fmt.encodeCursor 1), false⟩,
          ⟨r.sessionId, r.modelId, r.treeKind, 1, [y], none, true⟩] := by
  have hfull : treeRepairPageByteCap - treeRepairPageHeaderOverhead
      < fmt.entrySize x + fmt.entrySize y := by omega
  simp [respondPages, pagesFrom, PagingIter.collect, PagingIter.next, PagingIter.new,
    PagingIter.fillPage, PagingIter.tryPackEntry, hr, RepairFormat.decodeCursor, not_lt.mpr hx,
    not_lt.mpr hy, hfull, u32Size]

theorem stream_a : (exampleTrees "a").stream exampleKey = [longEntry, shortEntry] := by
  have h : normalizeModelKey "m" = "m" := by decide
  simp [PeerTrees.stream, PeerTrees.openRepairStream, exampleTrees, exampleKey, h, longEntry,
    shortEntry]

/-- The first session after its first page, whose lock is about to be taken by the scan. -/
def staleProgress : RepairProgress :=
  (RepairProgress.new 1 "a" 0).recordPage firstPage 1

/-- The system after the first page of the first session, the second page having been lost. -/
def afterFirstPage : RepairNet where
  outstanding := (∅ : Table RepairKey RepairProgress).insert exampleKey staleProgress
  inserted := [("m", longEntry)]
  requests := [firstRequest]
  pages := [("a", firstPage), ("a", secondPage)]
  finishing := none
  scanning := none
  completed := []

def firstActions : List RepairAction :=
  [.unknownHash exampleKey 7 ["a"] 0 1 0, .deliverRequest firstRequest.targetPeerId firstRequest,
    .deliverPage firstPage 1]

theorem responsePages_first :
    responsePages fixintRepair exampleTrees firstRequest = [firstPage, secondPage] := by
  have h : (exampleTrees firstRequest.targetPeerId).stream (requestKey firstRequest)
      = [longEntry, shortEntry] := stream_a
  rw [responsePages, h]
  exact respondPages_pair (by rw [entrySize_longEntry]; decide)
    (by rw [entrySize_longEntry]; decide) (by decide) rfl

theorem responsePages_retry_a :
    responsePages fixintRepair exampleTrees (retryRequest "a")
      = [retryPage [shortEntry]] := by
  decide +kernel

theorem responsePages_retry_b :
    responsePages fixintRepair exampleTrees (retryRequest "b") = [retryPage []] := by
  decide +kernel

theorem foldl_firstActions :
    firstActions.foldl (exec fixintRepair exampleTrees "self") .new = afterFirstPage := by
  rw [firstActions, foldl_cons, foldl_cons,
    exec_deliverRequest responsePages_first]
  rfl

/-- The scan finds the first session stale and retries it at `target`; the response arrives, and the
session it completes is removed. -/
def retryActions (target : String) (page : TreeRepairPage) : List RepairAction :=
  [.scanKey exampleKey 10 5 3 [target] [target] 0 2, .replaceProgress,
    .deliverRequest (retryRequest target).targetPeerId (retryRequest target), .deliverPage page 11,
    .finishPage]

/-- The system after the retry, with what its page brought. -/
def afterRetry (target : String) (page : TreeRepairPage) : RepairNet where
  outstanding := ∅
  inserted := ("m", longEntry) :: page.entries.map fun e => ("m", e)
  requests := [firstRequest, retryRequest target]
  pages := [("a", firstPage), ("a", secondPage), (target, page)]
  finishing := none
  scanning := none
  completed := [(exampleKey, 2)]

theorem foldl_retry_a :
    (retryActions "a" (retryPage [shortEntry])).foldl
      (exec fixintRepair exampleTrees "self") afterFirstPage
        = afterRetry "a" (retryPage [shortEntry]) := by
  rw [retryActions, foldl_cons, foldl_cons, foldl_cons,
    exec_deliverRequest responsePages_retry_a]
  rfl

theorem foldl_retry_b :
    (retryActions "b" (retryPage [])).foldl
      (exec fixintRepair exampleTrees "self") afterFirstPage
        = afterRetry "b" (retryPage []) := by
  rw [retryActions, foldl_cons, foldl_cons, foldl_cons,
    exec_deliverRequest responsePages_retry_b]
  rfl

theorem length_responsePages_example (r : TreeRepairRequest) :
    (responsePages fixintRepair exampleTrees r).length ≤ u32Size := by
  refine (PagingIter.length_collect_le _ _ _).trans ?_
  have hlen : ∀ peer key, ((exampleTrees peer).stream key).length ≤ 2 := by
    rintro peer ⟨model, _ | _⟩
    · exact Nat.zero_le 2
    · simp only [PeerTrees.stream, PeerTrees.openRepairStream, exampleTrees]
      split
      · split
        · exact le_rfl
        · split <;> decide
      · exact Nat.zero_le 2
  exact (Nat.succ_le_succ (hlen _ _)).trans (by decide)

theorem permitted_firstActions :
    AllOk (exec fixintRepair exampleTrees "self") Permitted .new
      firstActions := by
  refine ⟨nofun, mem_singleton_self _, ⟨"a", ?_⟩, trivial⟩
  rw [exec_deliverRequest responsePages_first]
  exact mem_cons_self

theorem permitted_retryActions {target : String} {page : TreeRepairPage}
    (htarget : retryTarget "a" [target] [target] 0 = some target)
    (hresp : responsePages fixintRepair exampleTrees (retryRequest target) = [page]) :
    AllOk (exec fixintRepair exampleTrees "self") Permitted afterFirstPage
      (retryActions target page) := by
  have hscan : afterFirstPage.exec fixintRepair exampleTrees "self"
      (.scanKey exampleKey 10 5 3 [target] [target] 0 2)
      = { afterFirstPage with
          requests := [firstRequest, retryRequest target]
          scanning := some ⟨exampleKey, 1, 0, 2, target, 10, 5⟩ } := by
    show (match retryTarget "a" [target] [target] 0 with
      | none => afterFirstPage
      | some target => _) = _
    rw [htarget]
    rfl
  refine ⟨fun r hr => ?_, trivial, ?_, ⟨target, ?_⟩, trivial, trivial⟩
  · rw [mem_singleton.mp hr]
    decide
  · rw [hscan]
    exact mem_cons_of_mem _ (mem_singleton_self _)
  · rw [exec_deliverRequest hresp]
    exact mem_append_right _ (mem_singleton_self _)

/-- The theorem applied: the second page of the first session is lost, and the retry at the same
peer brings the rest. -/
theorem tree_repair_complete_same_peer :
    (∃ peer, (afterRetry "a" (retryPage [shortEntry])).ServedLast 2 peer) ∧
      ∀ peer, (afterRetry "a" (retryPage [shortEntry])).ServedLast 2 peer →
        ∀ e ∈ (exampleTrees peer).stream exampleKey, fixintRepair.sendable e = true →
          (normalizeModelKey exampleKey.1, e) ∈
            (afterRetry "a" (retryPage [shortEntry])).inserted := by
  have hcov : RetryCovered fixintRepair exampleTrees afterFirstPage
      (.scanKey exampleKey 10 5 3 ["a"] ["a"] 0 2) := by
    intro p target hp _ _ htarget
    obtain rfl : staleProgress = p := Option.some.inj hp
    obtain rfl : "a" = target := Option.some.inj htarget
    intro e he _
    have hcount : fixintRepair.decodeCursor staleProgress.contiguousCursor = 1 := by decide +kernel
    rw [hcount, stream_a, take_succ_cons, take_zero, mem_singleton] at he
    rw [he]
    exact mem_cons_self
  have h1 := permitted_firstActions
  have h2 := permitted_retryActions (by decide) responsePages_retry_a
  have hreach : Reaches (exec fixintRepair exampleTrees "self")
      (fun n a => n.Permitted a ∧ RetryCovered fixintRepair exampleTrees n a) .new
      (afterRetry "a" (retryPage [shortEntry])) := by
    rw [← foldl_retry_a, ← foldl_firstActions]
    rw [← foldl_firstActions] at h2 hcov
    refine (reaches_foldl ?_).foldl ?_
    · exact ⟨⟨h1.1, trivial⟩, ⟨h1.2.1, trivial⟩, ⟨h1.2.2.1, trivial⟩, trivial⟩
    · exact ⟨⟨h2.1, hcov⟩, ⟨h2.2.1, trivial⟩, ⟨h2.2.2.1, trivial⟩, ⟨h2.2.2.2.1, trivial⟩,
        ⟨h2.2.2.2.2.1, trivial⟩, trivial⟩
  exact tree_repair_complete fixintRepair exampleTrees "self" length_responsePages_example hreach
    (mem_singleton_self _)

/-- **A retry at another peer skips entries that were never applied.**  The cursor counts entries of
the first peer's tree; the second peer skips as many of its own, answers with an empty last page,
and the session ends as complete without the second peer's one node. -/
theorem tree_repair_skips_other_peer :
    Reaches (exec fixintRepair exampleTrees "self") Permitted .new
        (afterRetry "b" (retryPage [])) ∧
      (exampleKey, 2) ∈ (afterRetry "b" (retryPage [])).completed ∧
      (afterRetry "b" (retryPage [])).ServedLast 2 "b" ∧
      otherEntry ∈ (exampleTrees "b").stream exampleKey ∧
      fixintRepair.sendable otherEntry = true ∧
      (normalizeModelKey exampleKey.1, otherEntry) ∉ (afterRetry "b" (retryPage [])).inserted := by
  have h1 := permitted_firstActions
  have h2 := permitted_retryActions (by decide) responsePages_retry_b
  refine ⟨?_, mem_singleton_self _, ⟨retryPage [], ?_, rfl, rfl⟩, ?_, by decide, ?_⟩
  · rw [← foldl_retry_b, ← foldl_firstActions]
    rw [← foldl_firstActions] at h2
    exact (reaches_foldl h1).foldl h2
  · exact mem_cons_of_mem _ (mem_cons_of_mem _ (mem_singleton_self _))
  · exact mem_singleton_self _
  · intro hmem
    have heq : otherEntry = longEntry := (Prod.mk.inj (mem_singleton.mp hmem)).2
    have hlen := congrArg length (RepairEntry.token.inj heq).1
    rw [length_longTokens] at hlen
    cases hlen

end Smg.Gateway
