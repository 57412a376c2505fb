import Smg.KvIndex.TenantMap
import Smg.Lib.ForestPaths
import Smg.Lib.Tally

/-!
# The token tree

`TokenTree` is the radix tree of the gRPC router: token sequences, cut to whole pages, with the
tenants that have each of them cached.  A node has an edge of tokens, its children by a digest of
their first page, and the tenants that own it; the tree counts the tokens of each tenant.

Here is the tree as one thread sees it.  The nodes are a `Forest` below the root, so a node is named
by the page keys on its way, where the source holds a reference; within one call nodes are detached
but never moved, and a detached node is empty for good.  What guards against other threads (the
parent check of a walk, `try_write`, the shard locks) always succeeds here.  The orders in which the
hash maps are iterated are parameters (`Config`).  Counts are unbounded, clocks and hit counts wrap.
-/

set_option autoImplicit false

namespace Smg.KvIndex

abbrev TokenId := UInt32

abbrev TokenPageKey := UInt64

/-- Which leaf goes first. -/
inductive EvictionPolicy
  | lru
  | lfu
  | fifo
  | mru
  | filo
  | priority
  deriving DecidableEq

def alignToPage (len pageSize : Nat) : Nat := len / pageSize * pageSize

def mixTokens (tokens : List TokenId) : TokenPageKey :=
  tokens.foldl (fun acc tok => (acc + tok.toUInt64) * 0x517cc1b727220a95) 0

/-- Digest of the first `pageSize` tokens. -/
def pageKeyOf (tokens : List TokenId) (pageSize : Nat) : TokenPageKey :=
  mixTokens (tokens.take pageSize)

/-! ## Nodes -/

/-- A node, without its edge and its children. -/
structure TokenNode where
  /-- Tenants that own the node, with last access timestamps. -/
  tenants : TenantMap
  lastTenant : Option TenantId
  hitCount : UInt64
  creationTime : UInt64
  priority : Int32
  deriving DecidableEq

namespace TokenNode

def new (now : UInt64) : TokenNode := ⟨∅, none, 0, now, 0⟩

def newRoot : TokenNode := ⟨∅, none, 0, 0, Int32.minValue⟩

def holds (t : TenantId) (d : TokenNode) : Bool := t ∈ d.tenants

/-- The cached tenant, if it still owns the node. -/
def cached (d : TokenNode) : Option TenantId := d.lastTenant.filter fun t => d.holds t

/-- Any tenant that owns the node: the cached one, or the first, which is then cached. -/
def getAnyTenant (d : TokenNode) : Option TenantId × TokenNode :=
  match d.cached with
  | some t => (some t, d)
  | none =>
    match d.tenants.keys.head? with
    | none => (none, d)
    | some t => (some t, { d with lastTenant := some t })

/-- Up to `MATCHED_TENANTS_CAP` tenants of the node, in map order. -/
def matchedTenants (d : TokenNode) : List TenantId := d.tenants.keys.take MATCHED_TENANTS_CAP

def hit (trackLfu : Bool) (d : TokenNode) : TokenNode :=
  { d with hitCount := if trackLfu then d.hitCount + 1 else d.hitCount }

/-- One timestamp in sixteen refreshes the cache. -/
def refreshes (ts : UInt64) : Bool := ts &&& 0xF = 0

/-- Stamp a tenant, attaching it where it is new. -/
def touchTenant (o : EntryOrder) (t : TenantId) (ts : UInt64) (trackLfu : Bool) (d : TokenNode) :
    TokenNode :=
  { d.hit trackLfu with
    tenants := TenantMap.write o t ts d.tenants
    lastTenant := if refreshes ts then some t else d.lastTenant }

/-- `touchTenant` attaches the tenant. -/
def newlyAttached (t : TenantId) (d : TokenNode) : Bool := !d.holds t

/-- `getAnyTenant` and `touchTenant` in one: nothing happens to a node nobody owns. -/
def touchAnyTenant (o : EntryOrder) (ts : UInt64) (trackLfu : Bool) (d : TokenNode) :
    Option (TenantId × TokenNode) :=
  let stamp := fun t missed =>
    (t, { d.hit trackLfu with
      tenants := TenantMap.write o t ts d.tenants
      lastTenant := if missed || refreshes ts then some t else d.lastTenant })
  match d.cached with
  | some t => some (stamp t false)
  | none => d.tenants.keys.head?.map fun t => stamp t true

def drop (t : TenantId) (d : TokenNode) : TokenNode := { d with tenants := d.tenants.erase t }

def evictionPriority (policy : EvictionPolicy) (d : TokenNode) (lastAccessTime : UInt64) :
    Int64 × UInt64 :=
  match policy with
  | .lru => (lastAccessTime.toInt64, 0)
  | .lfu => (d.hitCount.toInt64, lastAccessTime)
  | .fifo => (d.creationTime.toInt64, 0)
  | .mru => (-lastAccessTime.toInt64, 0)
  | .filo => (-d.creationTime.toInt64, 0)
  | .priority => (d.priority.toInt64, lastAccessTime)

end TokenNode

abbrev TokenForest := Forest TokenPageKey TokenId TokenNode

/-- A node, by the page keys that lead to it from the root. -/
abbrev TokenPath := List TokenPageKey

/-- A node and a tenant that owns it and none of its children. -/
structure TenantLeaf where
  tenant : TenantId
  node : TokenNode
  ts : UInt64

/-- The radix tree. -/
structure TokenTree where
  root : TokenNode
  children : TokenForest
  /-- `tenant_token_count` and `total_token_count`. -/
  counts : Tally TenantId
  /-- The global timestamp counter. -/
  clock : UInt64

/-- Result of a prefix match with token counts. -/
structure PrefixMatchResult where
  /-- The tenant that owns the matched prefix. -/
  tenant : TenantId
  matchedTokenCount : Nat
  inputTokenCount : Nat
  /-- Tenants holding the deepest matched node. -/
  matchedTenants : List TenantId
  deriving DecidableEq

namespace TokenTree

/-- An entry of the heap: its priority, and whose leaf it is. -/
structure HeapEntry where
  priority : Int64 × UInt64
  path : TokenPath
  tenant : TenantId
  deriving DecidableEq

/-- What is fixed in the life of a tree, and the orders its maps are iterated in. -/
structure Config where
  pageSize : Nat
  pageSize_pos : 0 < pageSize
  policy : EvictionPolicy
  entries : EntryOrder
  /-- The tenant-leaves a walk collects. -/
  leaves : Shuffle (TokenPath × TenantLeaf)
  /-- The nodes a walk collects, with the length of their edges. -/
  nodes : Shuffle (TokenPath × Nat)
  /-- Entries of equal priority, in each round of an eviction. -/
  ties : Nat → Shuffle HeapEntry

variable (c : Config)

def Config.paging : Keying TokenPageKey TokenId := ⟨c.pageSize, c.pageSize_pos, mixTokens⟩

def Config.trackLfu : Bool := c.policy = .lfu

def withConfig : TokenTree := ⟨.newRoot, .nil, .empty, 0⟩

/-! ## Insert -/

/-- Descend, inserting for a tenant at time `ts`; a node made on the way has the next timestamp. -/
def insertFrom (t : TenantId) (ts now : UInt64) (F : TokenForest) (remaining : List TokenId) :
    Forest.Inserted TokenPageKey TokenId TokenNode :=
  F.insert c.paging ((TokenNode.new now).touchTenant c.entries t ts c.trackLfu)
    (TokenNode.touchTenant c.entries t ts c.trackLfu) id (TokenNode.newlyAttached t) remaining

/-- The root has the tenant, and the tenant has a count. -/
def enterTenant (s : TokenTree) (t : TenantId) : TokenTree :=
  { s with
    root := { s.root with tenants := TenantMap.enter c.entries t 0 s.root.tenants }
    counts := s.counts.enter t }

def insertTokens (s : TokenTree) (tokens : List TokenId) (tenant : TenantId) : TokenTree :=
  let aligned := alignToPage tokens.length c.pageSize
  if aligned = 0 then s
  else
    let s := s.enterTenant c tenant
    let r := insertFrom c tenant s.clock (s.clock + 1) s.children (tokens.take aligned)
    { s with
      children := r.forest
      counts := s.counts.add tenant r.added
      clock := s.clock + 1 + if r.created then 1 else 0 }

/-! ## Match -/

/-- What a match walk leaves: the touched nodes, the clock, how much matched, and the tenant of the
deepest matched node with the tenants it has. -/
structure Matched where
  forest : TokenForest
  clock : UInt64
  matched : Nat
  deepest : Option (TenantId × List TenantId)

/-- Walk down as far as nodes match and are owned, stamping a tenant of each. -/
def matchFrom : TokenForest → List TokenId → UInt64 → Matched
  | .nil, _, now => ⟨.nil, now, 0, none⟩
  | .cons k e d cs ss, remaining, now =>
    if remaining.length < c.pageSize then ⟨.cons k e d cs ss, now, 0, none⟩
    else if k = pageKeyOf remaining c.pageSize then
      let len := c.paging.common remaining e
      if len = 0 then ⟨.cons k e d cs ss, now, 0, none⟩
      else
        match d.getAnyTenant with
        | (none, _) => ⟨.cons k e d cs ss, now, 0, none⟩
        | (some t, d) =>
          let d := d.touchTenant c.entries t now c.trackLfu
          let here := (t, d.matchedTenants)
          if len < e.length then ⟨.cons k e d cs ss, now + 1, len, some here⟩
          else
            let r := matchFrom cs (remaining.drop len) (now + 1)
            ⟨.cons k e d r.forest ss, r.clock, len + r.matched, r.deepest.or (some here)⟩
    else
      let r := matchFrom ss remaining now
      { r with forest := .cons k e d cs r.forest }

def matchResult (tokens : List TokenId) (matched : Nat)
    (deepest : Option (TenantId × List TenantId)) :
    PrefixMatchResult :=
  ⟨(deepest.map Prod.fst).getD "empty", matched, tokens.length, (deepest.map Prod.snd).getD []⟩

/-- The answer for a sequence shorter than a page names any tenant of the root. -/
def matchShort (s : TokenTree) (tokens : List TokenId) : PrefixMatchResult × TokenTree :=
  let r := s.root.getAnyTenant
  (⟨r.1.getD "empty", 0, tokens.length, []⟩, { s with root := r.2 })

def matchPrefixWithCounts (s : TokenTree) (tokens : List TokenId) : PrefixMatchResult × TokenTree :=
  let aligned := alignToPage tokens.length c.pageSize
  if aligned = 0 then s.matchShort tokens
  else
    let r := matchFrom c s.children (tokens.take aligned) s.clock
    (matchResult tokens r.matched r.deepest, { s with children := r.forest, clock := r.clock })

/-! ## Match and insert in one descent -/

/-- What the first phase leaves: the touched nodes, how much matched, the deepest match, every edge
descended with the tenant the match stamped there, and what remains at the fall-off. -/
structure Fused where
  forest : TokenForest
  matched : Nat
  deepest : Option (TenantId × List TenantId)
  path : List (TokenPageKey × Option TenantId)
  remaining : List TokenId

/-- The match descent with one timestamp.  It goes on after the match is frozen, as far as an insert
would. -/
def fuseFrom (ts : UInt64) : TokenForest → List TokenId → Bool → Fused
  | .nil, remaining, _ => ⟨.nil, 0, none, [], remaining⟩
  | .cons k e d cs ss, remaining, frozen =>
    if remaining.length < c.pageSize then ⟨.cons k e d cs ss, 0, none, [], remaining⟩
    else if k = pageKeyOf remaining c.pageSize then
      let len := c.paging.common remaining e
      if len = 0 then ⟨.cons k e d cs ss, 0, none, [], remaining⟩
      else
        -- a frozen match stamps nothing
        let stamped := if frozen then none else d.touchAnyTenant c.entries ts c.trackLfu
        match stamped with
        | none =>
          if len < e.length then ⟨.cons k e d cs ss, 0, none, [], remaining⟩
          else
            let r := fuseFrom ts cs (remaining.drop len) true
            ⟨.cons k e d r.forest ss, r.matched, r.deepest, (k, none) :: r.path, r.remaining⟩
        | some (t, d) =>
          let here := (t, d.matchedTenants)
          if len < e.length then ⟨.cons k e d cs ss, len, some here, [], remaining⟩
          else
            let r := fuseFrom ts cs (remaining.drop len) false
            ⟨.cons k e d r.forest ss, len + r.matched, r.deepest.or (some here),
              (k, some t) :: r.path, r.remaining⟩
    else
      let r := fuseFrom ts ss remaining frozen
      { r with forest := .cons k e d cs r.forest }

/-- What the replay leaves: the nodes, the tokens newly attached, and whether an edge was gone. -/
structure Replayed where
  forest : TokenForest
  added : Nat
  lostEdge : Bool

/-- Do an insert's work on every edge descended.  Where the match stamped this very tenant only the
hit is still owed. -/
def replay (t : TenantId) (ts : UInt64) :
    TokenForest → List (TokenPageKey × Option TenantId) → Replayed
  | F, [] => ⟨F, 0, false⟩
  | .nil, _ :: _ => ⟨.nil, 0, true⟩
  | .cons k e d cs ss, (x, stamped) :: path =>
    if k = x then
      let r := replay t ts cs path
      if stamped = some t ∧ d.holds t then
        ⟨.cons k e (d.hit c.trackLfu) r.forest ss, r.added, r.lostEdge⟩
      else
        ⟨.cons k e (d.touchTenant c.entries t ts c.trackLfu) r.forest ss,
          (if d.newlyAttached t then e.length else 0) + r.added, r.lostEdge⟩
    else
      let r := replay t ts ss ((x, stamped) :: path)
      { r with forest := .cons k e d cs r.forest }

def spliceAt (t : TenantId) (ts now : UInt64) (F : TokenForest) (path : TokenPath)
    (remaining : List TokenId) : Forest.Inserted TokenPageKey TokenId TokenNode :=
  F.insertAt c.paging ((TokenNode.new now).touchTenant c.entries t ts c.trackLfu)
    (TokenNode.touchTenant c.entries t ts c.trackLfu) id (TokenNode.newlyAttached t) path remaining

/-- The second phase: replay, then insert what remains at the fall-off, or everything from the root
if an edge was lost. -/
def insertReplay (t : TenantId) (ts now : UInt64) (tokens : List TokenId) (w : Fused) :
    Forest.Inserted TokenPageKey TokenId TokenNode :=
  let r := replay c t ts w.forest w.path
  let spliced :=
    if r.lostEdge then insertFrom c t ts now r.forest tokens
    else if w.remaining.length < c.pageSize then ⟨r.forest, 0, false⟩
    else spliceAt c t ts now r.forest (w.path.map Prod.fst) w.remaining
  { spliced with added := r.added + spliced.added }

/-- Match, then insert for the tenant chosen from the result, in a single descent. -/
def matchAndInsertWith (s : TokenTree) (tokens : List TokenId)
    (select : PrefixMatchResult → Option TenantId) : PrefixMatchResult × TokenTree :=
  let aligned := alignToPage tokens.length c.pageSize
  if aligned = 0 then s.matchShort tokens
  else
    let ts := s.clock
    let w := fuseFrom c ts s.children (tokens.take aligned) false
    let result := matchResult tokens w.matched w.deepest
    match select result with
    | none => (result, { s with children := w.forest, clock := ts + 1 })
    | some t =>
      let s := s.enterTenant c t
      let r := insertReplay c t ts (ts + 1) (tokens.take aligned) w
      (result, { s with
        children := r.forest
        counts := s.counts.add t r.added
        clock := ts + 1 + if r.created then 1 else 0 })

/-! ## Eviction -/

/-- The node at a path; the empty path is the root. -/
def nodeAt (s : TokenTree) (path : TokenPath) : Option TokenNode :=
  if path = [] then some s.root else (s.children.get? path).map Prod.snd

/-- The length of the edge to the node at a path. -/
def edgeLen (s : TokenTree) (path : TokenPath) : Nat :=
  ((s.children.get? path).map fun x => x.1.length).getD 0

def modifyNode (s : TokenTree) (path : TokenPath) (g : TokenNode → TokenNode) : TokenTree :=
  if path = [] then { s with root := g s.root }
  else { s with children := s.children.modifyAt g path }

def isEmpty (s : TokenTree) (path : TokenPath) : Bool :=
  (s.nodeAt path).any (fun d => d.tenants.entries.isEmpty) && s.children.under path = .nil

/-- The tenant owns the node and none of its children. -/
def isTenantLeaf (s : TokenTree) (path : TokenPath) (t : TenantId) : Bool :=
  (s.nodeAt path).any (TokenNode.holds t) && !(s.children.under path).anyTop (TokenNode.holds t)

/-- The node as a leaf of the tenant, if it is one. -/
def tenantLeaf? (s : TokenTree) (path : TokenPath) (t : TenantId) :
    Option (TokenPath × TenantLeaf) :=
  if s.isTenantLeaf path t then
    (s.nodeAt path).bind fun d => (d.tenants.lookup t).map fun ts => (path, ⟨t, d, ts⟩)
  else none

/-- Detach empty nodes walking up, from the node whose path is given backwards, and tell the first
parent that became a leaf of the tenant.  The root has no parent to be detached from. -/
def cleanupEmptyAncestors (t : TenantId) : TokenTree → TokenPath →
    TokenTree × Option (TokenPath × TenantLeaf)
  | s, [] => if s.isEmpty [] then (s, none) else (s, s.tenantLeaf? [] t)
  | s, k :: up =>
    if s.isEmpty (k :: up).reverse then
      let s := { s with children := s.children.detachAt (k :: up).reverse }
      let r := cleanupEmptyAncestors t s up
      (r.1, (s.tenantLeaf? up.reverse t).or r.2)
    else (s, s.tenantLeaf? (k :: up).reverse t)

/-- Take a tenant off a node and clean up: the tree, the tokens removed, and the parent that became
a leaf. -/
def removeTenantAndCleanup (s : TokenTree) (path : TokenPath) (t : TenantId) :
    TokenTree × Nat × Option (TokenPath × TenantLeaf) :=
  if (s.nodeAt path).any (TokenNode.holds t) then
    let r := cleanupEmptyAncestors t (s.modifyNode path (TokenNode.drop t)) path.reverse
    (r.1, s.edgeLen path, r.2)
  else (s, 0, none)

def collectTenantLeaves (t : TenantId) (F : TokenForest) : List (TokenPath × TenantLeaf) :=
  F.gather fun _ d cs =>
    if cs.anyTop (TokenNode.holds t) then []
    else (d.tenants.lookup t).toList.map fun ts => ⟨t, d, ts⟩

def collectAllTenantLeaves (F : TokenForest) : List (TokenPath × TenantLeaf) :=
  F.gather fun _ d cs =>
    d.tenants.entries.filterMap fun entry =>
      if cs.anyTop (TokenNode.holds entry.1) then none else some ⟨entry.1, d, entry.2⟩

def HeapEntry.ofLeaf (policy : EvictionPolicy) (leaf : TokenPath × TenantLeaf) : HeapEntry :=
  ⟨leaf.2.node.evictionPriority policy leaf.2.ts, leaf.1, leaf.2.tenant⟩

def HeapEntry.le (a b : HeapEntry) : Bool :=
  a.priority.1 < b.priority.1 || (a.priority.1 = b.priority.1 && a.priority.2 ≤ b.priority.2)

/-- The attachments of tenants to nodes: a bound for the leaves that can still be promoted. -/
def attachments (s : TokenTree) : Nat :=
  s.root.tenants.entries.length + s.children.weigh fun _ d => d.tenants.entries.length

/-- Evict leaves of one tenant until enough tokens are gone. -/
def evictLoop (t : TenantId) (toEvict : Nat) : Nat → TokenTree → List HeapEntry → Nat →
    TokenTree × Nat
  | 0, s, _, evicted => (s, evicted)
  | fuel + 1, s, heap, evicted =>
    if evicted < toEvict then
      match pop (c.ties fuel) HeapEntry.le heap with
      | none => (s, evicted)
      | some (entry, heap) =>
        let r := s.removeTenantAndCleanup entry.path t
        if 0 < r.2.1 then
          evictLoop t toEvict fuel r.1 (heap ++ r.2.2.toList.map (HeapEntry.ofLeaf c.policy))
            (evicted + r.2.1)
        else evictLoop t toEvict fuel r.1 heap evicted
    else (s, evicted)

/-- Evict entries of a tenant to reduce it to `maxTokens`. -/
def evictTenant (s : TokenTree) (t : TenantId) (maxTokens : Nat) : TokenTree :=
  let current := s.counts.get t
  if current ≤ maxTokens then s
  else
    let heap := (c.leaves.fn (collectTenantLeaves t s.children)).map (HeapEntry.ofLeaf c.policy)
    let r := evictLoop c t (current - maxTokens) (heap.length + s.attachments) s heap 0
    { r.1 with counts := r.1.counts.sub t r.2 }

/-- Evict leaves of all tenants until the total is within the budget. -/
def evictBySizeLoop (maxSize : Nat) : Nat → TokenTree → List HeapEntry → TokenTree
  | 0, s, _ => s
  | fuel + 1, s, heap =>
    if maxSize < s.counts.total then
      match pop (c.ties fuel) HeapEntry.le heap with
      | none => s
      | some (entry, heap) =>
        if s.isTenantLeaf entry.path entry.tenant then
          let r := s.removeTenantAndCleanup entry.path entry.tenant
          if 0 < r.2.1 then
            evictBySizeLoop maxSize fuel { r.1 with counts := r.1.counts.sub entry.tenant r.2.1 }
              (heap ++ r.2.2.toList.map (HeapEntry.ofLeaf c.policy))
          else evictBySizeLoop maxSize fuel r.1 heap
        else evictBySizeLoop maxSize fuel s heap
    else s

/-- Evict until the tree-wide total is at or under `maxSize`. -/
def evictTenantBySize (s : TokenTree) (maxSize : Nat) : TokenTree :=
  if s.counts.total ≤ maxSize then s
  else
    let heap := (c.leaves.fn (collectAllTenantLeaves s.children)).map (HeapEntry.ofLeaf c.policy)
    evictBySizeLoop c maxSize (heap.length + s.attachments) s heap

/-! ## Removing a tenant, clearing the tree -/

/-- The nodes of a tenant with the length of their edges, found through nodes of the tenant only. -/
def collectTenantNodesPruned (t : TenantId) : TokenForest → List (TokenPath × Nat)
  | .nil => []
  | .cons k e d cs ss =>
    (if d.holds t then
      ([k], e.length) :: (collectTenantNodesPruned t cs).map fun x => (k :: x.1, x.2)
    else []) ++ collectTenantNodesPruned t ss

/-- Every node of a tenant with the length of its edge. -/
def collectTenantNodes (t : TenantId) (F : TokenForest) : List (TokenPath × Nat) :=
  F.gather fun e d _ => if d.holds t then [e.length] else []

/-- Remove a tenant from every node, the root included, and drop its count. -/
def removeTenantAll (s : TokenTree) (t : TenantId) : TokenTree :=
  let expected := s.counts.get t
  let s := { s with root := s.root.drop t }
  if expected = 0 then { s with counts := s.counts.forget t }
  else
    let pruned := c.nodes.fn (collectTenantNodesPruned t s.children)
    let nodes :=
      if (pruned.map Prod.snd).sum = expected then pruned
      else c.nodes.fn (collectTenantNodes t s.children)
    let s := nodes.foldl (fun s node => (s.removeTenantAndCleanup node.1 t).1) s
    { s with counts := s.counts.remove t }

def clear (s : TokenTree) : TokenTree :=
  { s with
    children := .nil
    root := { s.root with tenants := ∅ }
    counts := .empty }

/-! ## One call after another -/

inductive Call
  | insertTokens (tokens : List TokenId) (tenant : TenantId)
  | matchPrefixWithCounts (tokens : List TokenId)
  | matchAndInsertWith (tokens : List TokenId) (select : PrefixMatchResult → Option TenantId)
  | evictTenant (t : TenantId) (maxTokens : Nat)
  | evictTenantBySize (maxSize : Nat)
  | removeTenantAll (t : TenantId)
  | clear
  /-- Other trees draw timestamps from the same counter. -/
  | tick (n : UInt64)

def exec (s : TokenTree) : Call → TokenTree
  | .insertTokens tokens tenant => s.insertTokens c tokens tenant
  | .matchPrefixWithCounts tokens => (s.matchPrefixWithCounts c tokens).2
  | .matchAndInsertWith tokens select => (s.matchAndInsertWith c tokens select).2
  | .evictTenant t maxTokens => s.evictTenant c t maxTokens
  | .evictTenantBySize maxSize => s.evictTenantBySize c maxSize
  | .removeTenantAll t => s.removeTenantAll c t
  | .clear => s.clear
  | .tick n => { s with clock := s.clock + n }

end TokenTree

end Smg.KvIndex
