import Smg.Lib.LruCache
import Smg.Lib.Trace
import Smg.Mcp.Inventory

/-!
# Dynamic servers

`core/pool.rs` and the part of `core/orchestrator.rs` that connects a server a request names.  The
pool is keyed by URL, credentials and tenant; the inventory holds the tools under the URL alone.  A
connection that the pool drives out takes the tools of its URL out of the inventory.  The pool is a
cache of a third-party crate, `LruCrate`, a parameter here.

So the tools follow the pool as long as the connection that is driven out was the last one of its
URL (`dynamic_tools_follow_pool`).  Where another connection of the URL stays in the pool, its tools
are gone all the same, and no later connect brings them back (`eviction_clears_shared_url`).
-/

set_option autoImplicit false

namespace Smg.Mcp

open ToolInventory ToolEntry List

/-! ## The pool -/

/-- How a server is reached. -/
inductive McpTransport where
  | streamable (url : String) (token : Option String) (headers : Table String String)
  | sse (url : String) (token : Option String) (headers : Table String String)
  | stdio (command : String) (args : List String)

/-- A server to connect to. -/
structure McpServerConfig where
  name : String
  transport : McpTransport

/-- The key of a connection: the credentials are hashed. -/
structure PoolKey where
  url : String
  authHash : UInt64
  tenantId : Option String
deriving DecidableEq

/-- What the hash of the standard library makes of a token and of headers sorted by their names. -/
abbrev AuthHasher := Option String → List (String × String) → UInt64

def hashAuth (hasher : AuthHasher) (token : Option String) (headers : Table String String) :
    UInt64 :=
  if token.isNone && headers.entries.isEmpty then 0
  else
    hasher token ((headers.entries.map fun e => (e.1, e.2)).mergeSort fun a b => decide (a.1 ≤ b.1))

def PoolKey.fromConfig (hasher : AuthHasher) (config : McpServerConfig) (tenantId : Option String) :
    PoolKey :=
  match config.transport with
  | .streamable url token headers => ⟨url, hashAuth hasher token headers, tenantId⟩
  | .sse url token headers => ⟨url, hashAuth hasher token headers, tenantId⟩
  | .stdio command args => ⟨command ++ ":" ++ " ".intercalate args, 0, tenantId⟩

/-- Why a dynamic server was not connected. -/
inductive McpError where
  /-- `streamable: ..` -/
  | connectionFailed
  | sseUnsupported (name : String)
  /-- `Stdio not supported for dynamic connections` -/
  | transport
deriving DecidableEq

/-- What the servers answer: whether a connection is made, and the tools that are listed over it. -/
structure Servers (δ : Type) where
  connects : McpServerConfig → Bool
  lists : McpServerConfig → Option (List (Tool δ))

def connectTransport {δ : Type} (servers : Servers δ) (config : McpServerConfig) :
    Except McpError McpServerConfig :=
  match config.transport with
  | .streamable _ _ _ => if servers.connects config then .ok config else .error .connectionFailed
  | .sse _ _ _ => .error (.sseUnsupported config.name)
  | .stdio _ _ => .error .transport

/-- The caches of connections; each one is kept with the configuration it was made from. -/
abbrev PoolCrate := LruCrate PoolKey McpServerConfig

/-- `with_full_config`: room for one connection at least. -/
def McpConnectionPool.withCapacity (crate : PoolCrate) (maxConnections : Nat) : crate.Cache :=
  crate.new (max maxConnections 1)

/-! ## The orchestrator -/

/-- What a dynamic connect reads and writes. -/
structure McpOrchestrator (crate : PoolCrate) (δ : Type) where
  pool : crate.Cache
  inventory : ToolInventory δ

namespace McpOrchestrator

variable {crate : PoolCrate} {δ : Type}

/-- The eviction callback: tools are registered by URL, so they are cleared by URL. -/
def evicted (inventory : ToolInventory δ) (replaced : Option (PoolKey × McpServerConfig)) :
    ToolInventory δ :=
  match replaced with
  | some (key, _) => inventory.clearServerTools key.url
  | none => inventory

/-- `get_or_create`, with the callback on the inventory. -/
def getOrCreate (servers : Servers δ) (o : McpOrchestrator crate δ) (key : PoolKey)
    (config : McpServerConfig) : Except McpError McpServerConfig × McpOrchestrator crate δ :=
  match crate.get o.pool key with
  | (some client, pool) => (.ok client, { o with pool })
  | (none, pool) =>
    match connectTransport servers config with
    | .error e => (.error e, { o with pool })
    | .ok client =>
      let (replaced, pool) := crate.push pool key client
      (.ok client, ⟨pool, evicted o.inventory replaced⟩)

/-- `tools_of`, as Dynamic tools of a URL; nothing if the listing failed. -/
def toolsOf (servers : Servers δ) (client : McpServerConfig) (serverKey : String) :
    List (ToolEntry δ) :=
  ((servers.lists client).getD []).map fun tool => ToolEntry.fromServerTool serverKey tool .dynamic

/-- `connect_dynamic_server_with_tenant`. -/
def connectDynamicServerWithTenant (hasher : AuthHasher) (servers : Servers δ)
    (o : McpOrchestrator crate δ) (config : McpServerConfig) (tenantId : Option String) :
    Except McpError String × McpOrchestrator crate δ :=
  let key := PoolKey.fromConfig hasher config tenantId
  if crate.contains o.pool key then (.ok key.url, o)
  else
    match getOrCreate servers o key config with
    | (.error e, o) => (.error e, o)
    | (.ok client, o) =>
      (.ok key.url,
        { o with inventory := (toolsOf servers client key.url).foldl insertEntry o.inventory })

end McpOrchestrator

/-- One call: a server and the tenant it is for. -/
structure Connect where
  config : McpServerConfig
  tenantId : Option String

def Connect.exec {crate : PoolCrate} {δ : Type} (hasher : AuthHasher) (servers : Servers δ)
    (o : McpOrchestrator crate δ) (call : Connect) : McpOrchestrator crate δ :=
  (o.connectDynamicServerWithTenant hasher servers call.config call.tenantId).2

/-! ## The tools that should be there -/

section

variable {δ : Type}

/-- The tool that a listing has under a name: the last one of them. -/
def lastNamed (tools : List (Tool δ)) (name : String) : Option (Tool δ) :=
  tools.reverse.find? fun tool => tool.name = name

def dynamicOf (tools : String → List (Tool δ)) (q : QualifiedToolName) : Option (ToolEntry δ) :=
  (lastNamed (tools q.serverKey) q.toolName).map fun tool =>
    ToolEntry.fromServerTool q.serverKey tool .dynamic

theorem lastNamed_cons (tool : Tool δ) (tools : List (Tool δ)) (name : String) :
    lastNamed (tool :: tools) name =
      (lastNamed tools name).or (if tool.name = name then some tool else none) := by
  rw [lastNamed, reverse_cons, find?_append, find?_singleton]
  simp only [decide_eq_true_eq]
  rfl

/-- Inserting the tools of a URL puts them in the place of what was there. -/
theorem insert_tools {inv : ToolInventory δ} (h : inv.Agrees) {url : String}
    (hurl : url ≠ aliasServerKey) (tools : List (Tool δ)) :
    ((tools.map fun tool => fromServerTool url tool .dynamic).foldl insertEntry inv).Agrees ∧
      ∀ q, ((tools.map fun tool =>
          fromServerTool url tool .dynamic).foldl insertEntry inv).dynamicAt q =
        if q.serverKey = url then
          ((lastNamed tools q.toolName).map fun tool =>
            fromServerTool url tool .dynamic).or (inv.dynamicAt q)
        else inv.dynamicAt q := by
  induction tools generalizing inv with
  | nil => exact ⟨h, fun q => by split <;> rfl⟩
  | cons tool tools ih =>
    have hcat : (fromServerTool url tool .dynamic).category = .dynamic := rfl
    obtain ⟨hagrees, hat⟩ := ih (h.insertEntry hcat hurl)
    refine ⟨hagrees, fun q => ?_⟩
    rw [map_cons, foldl_cons, hat, dynamicAt_insertEntry hcat, lastNamed_cons]
    rcases q with ⟨server, name⟩
    simp only [fromServerTool]
    by_cases hserver : server = url
    · rcases lastNamed tools name with _ | found
      · by_cases hname : tool.name = name
        · simp [hname]
        · simp [hname, Ne.symm hname]
      · simp [hserver]
    · simp [hserver]

end

/-! ## Runs of connects -/

section

variable {crate : PoolCrate} {δ : Type} (hasher : AuthHasher) (servers : Servers δ)
  (tools : String → List (Tool δ))

/-- A connect that succeeds, to a URL that lists its tools. -/
def Connect.Succeeds (call : Connect) : Prop :=
  ∃ url token headers, call.config.transport = .streamable url token headers ∧
    servers.connects call.config = true ∧ servers.lists call.config = some (tools url)

def Connect.key (call : Connect) : PoolKey := PoolKey.fromConfig hasher call.config call.tenantId

/-- If the call drives a connection out of the pool, no other one of its URL stays there, unless it
is the URL that is connected; and the URL of the call is not the key that stands for aliases. -/
structure Connect.Spares (o : McpOrchestrator crate δ) (call : Connect) : Prop where
  last : call.key hasher ∉ crate.keys o.pool → crate.capacity o.pool ≤ (crate.keys o.pool).length →
    ∀ key, (crate.keys o.pool).getLast? = some key → key.url = (call.key hasher).url ∨
      ∀ other ∈ (crate.keys o.pool).dropLast, other.url ≠ key.url
  notAlias : (call.key hasher).url ≠ aliasServerKey

/-- An inventory whose Dynamic tools are those of some URLs. -/
structure ToolsOf (inv : ToolInventory δ) (urls : String → Prop) : Prop where
  agrees : inv.Agrees
  listed : ∀ q, urls q.serverKey → inv.dynamicAt q = dynamicOf tools q
  unlisted : ∀ q, ¬ urls q.serverKey → inv.dynamicAt q = none

/-- The Dynamic tools are those of the URLs in the pool. -/
structure Follows (o : McpOrchestrator crate δ) : Prop where
  capacity : 1 ≤ crate.capacity o.pool
  toolsOf : ToolsOf tools o.inventory fun url => url ∈ (crate.keys o.pool).map PoolKey.url

/-- An inventory that holds no Dynamic tool. -/
structure Static (inv : ToolInventory δ) : Prop where
  none : ∀ q entry, inv.toolsByQualified.lookup q = some entry → entry.category ≠ .dynamic
  index : namesOf inv.toolsByCategory .dynamic = []

variable {hasher servers tools}

variable {inv : ToolInventory δ}

theorem follows_start (h : Static inv) (maxConnections : Nat) :
    Follows tools ⟨McpConnectionPool.withCapacity crate maxConnections, inv⟩ := by
  obtain ⟨hcap, hkeys⟩ := crate.new_spec (max maxConnections 1)
  have hnone : ∀ q, inv.dynamicAt q = none := by
    intro q
    rw [Option.eq_none_iff_forall_ne_some]
    intro entry hentry
    obtain ⟨hlookup, hcat⟩ := dynamicAt_eq_some.mp hentry
    exact h.none q entry hlookup hcat
  refine ⟨hcap.symm ▸ le_max_right _ _, ⟨fun q => ?_, fun q hq => ?_, fun q hq => ?_⟩,
    fun q hq => ?_, fun q _ => hnone q⟩
  · rw [h.index, hnone]
    simp
  · rw [hnone] at hq
    cases hq
  · rw [hnone] at hq
    cases hq
  · rw [McpConnectionPool.withCapacity, hkeys] at hq
    exact absurd hq not_mem_nil

variable {o : McpOrchestrator crate δ}

/-- What a connect of a new key does. -/
theorem exec_of_new {call : Connect} (hnew : call.key hasher ∉ crate.keys o.pool)
    (hsucceeds : call.Succeeds servers tools) :
    call.exec hasher servers o =
      ⟨(crate.push o.pool (call.key hasher) call.config).2,
        ((tools (call.key hasher).url).map fun tool =>
          fromServerTool (call.key hasher).url tool .dynamic).foldl insertEntry
            (McpOrchestrator.evicted o.inventory
              (crate.push o.pool (call.key hasher) call.config).1)⟩ := by
  obtain ⟨url, token, headers, htransport, hconnects, hlists⟩ := hsucceeds
  have hcontains : crate.contains o.pool (call.key hasher) = false := by
    rw [← Bool.not_eq_true, crate.contains_iff]
    exact hnew
  have hurl : (call.key hasher).url = url := by
    rw [Connect.key, PoolKey.fromConfig, htransport]
  have hconnect : connectTransport servers call.config = .ok call.config := by
    rw [connectTransport, htransport]
    exact if_pos hconnects
  have hget := crate.get_of_notMem hnew
  rw [Connect.key] at hcontains hget hurl ⊢
  rw [Connect.exec, McpOrchestrator.connectDynamicServerWithTenant]
  simp only [hcontains, Bool.false_eq_true, if_false, McpOrchestrator.getOrCreate, hget, hconnect]
  rw [McpOrchestrator.toolsOf, hlists, Option.getD_some, hurl]

variable {urls : String → Prop}

theorem ToolsOf.insert (h : ToolsOf tools inv urls) {url : String} (hurl : url ≠ aliasServerKey) :
    ToolsOf tools (((tools url).map fun tool =>
        fromServerTool url tool .dynamic).foldl insertEntry inv)
      fun server => server = url ∨ urls server := by
  obtain ⟨hagrees, hat⟩ := insert_tools h.agrees hurl (tools url)
  refine ⟨hagrees, fun q hq => ?_, fun q hq => ?_⟩
  · rw [hat]
    split
    next hserver =>
      rw [dynamicOf, hserver]
      by_cases hlisted : urls q.serverKey
      · rw [h.listed q hlisted, dynamicOf, hserver, Option.or_self]
      · rw [h.unlisted q hlisted, Option.or_none]
    next hserver => exact h.listed q (hq.resolve_left hserver)
  · rw [hat, if_neg (not_or.mp hq).1]
    exact h.unlisted q (not_or.mp hq).2

theorem ToolsOf.clear (h : ToolsOf tools inv urls) (url : String) :
    ToolsOf tools (inv.clearServerTools url) fun server => urls server ∧ server ≠ url := by
  obtain ⟨hagrees, hat⟩ := dynamicAt_clear h.agrees url
  refine ⟨hagrees, fun q hq => ?_, fun q hq => ?_⟩
  · rw [hat, if_neg hq.2]
    exact h.listed q hq.1
  · rw [hat]
    split
    · rfl
    next hne => exact h.unlisted q fun hlisted => hq ⟨hlisted, hne⟩

theorem ToolsOf.congr {urls' : String → Prop} (h : ToolsOf tools inv urls)
    (hiff : ∀ server, urls' server ↔ urls server) : ToolsOf tools inv urls' where
  agrees := h.agrees
  listed q hq := h.listed q ((hiff _).mp hq)
  unlisted q hq := h.unlisted q fun hurls => hq ((hiff _).mpr hurls)

/-- **One connect** keeps the tools with the pool. -/
theorem Follows.exec (h : Follows tools o) {call : Connect}
    (hsucceeds : call.Succeeds servers tools) (hspares : call.Spares hasher o) :
    Follows tools (call.exec hasher servers o) := by
  by_cases hold : call.key hasher ∈ crate.keys o.pool
  · have hsame : call.exec hasher servers o = o := by
      rw [Connect.exec, McpOrchestrator.connectDynamicServerWithTenant]
      rw [Connect.key, ← crate.contains_iff] at hold
      simp only [hold, if_true]
    rw [hsame]
    exact h
  · obtain ⟨hcap, htools⟩ := h
    rw [exec_of_new hold hsucceeds]
    have hlast := hspares.last hold
    have hurl := hspares.notAlias
    generalize call.key hasher = key at *
    refine ⟨(crate.capacity_push _ _ _).symm ▸ hcap, ?_⟩
    rcases lt_or_ge (crate.keys o.pool).length (crate.capacity o.pool) with hroom | hfull
    · obtain ⟨hnone, hkeys⟩ := crate.push_of_lt call.config hold hroom
      simp only [hnone, hkeys]
      exact (htools.insert hurl).congr fun server => by simp
    · obtain ⟨hgone, hkeys⟩ := crate.push_of_le call.config hold hfull
      -- the pool is not empty, so its last connection goes
      obtain ⟨keys, gone, hsplit⟩ := (eq_nil_or_concat' (crate.keys o.pool)).resolve_left
        fun hnil => by simp [hnil] at hfull; omega
      have hspared := hlast hfull gone (by rw [hsplit, getLast?_concat])
      rw [hsplit, getLast?_concat] at hgone
      rw [hsplit, dropLast_concat] at hkeys hspared
      rw [hsplit] at htools
      obtain ⟨⟨gone, client⟩, hpush, rfl⟩ := Option.map_eq_some_iff.mp hgone
      simp only [hpush, hkeys]
      refine ((htools.clear gone.url).insert hurl).congr fun server => ?_
      simp only [map_cons, map_append, map_nil, mem_cons, mem_append, not_mem_nil, or_false]
      constructor
      · rintro (hserver | hserver)
        · exact .inl hserver
        · by_cases hsame : server = key.url
          · exact .inl hsame
          · refine .inr ⟨.inl hserver, fun hgone => ?_⟩
            obtain ⟨other, hother, hurl'⟩ := mem_map.mp hserver
            rcases hspared with heq | hnone
            · exact hsame (hgone.trans heq)
            · exact hnone other hother (hurl'.trans hgone)
      · rintro (hserver | ⟨hserver | hserver, hne⟩)
        · exact .inl hserver
        · exact .inr hserver
        · exact absurd hserver hne

/-- **Dynamic tools follow the pool.** -/
theorem dynamic_tools_follow_pool (crate : PoolCrate) (hasher : AuthHasher) (servers : Servers δ)
    (tools : String → List (Tool δ)) (maxConnections : Nat) (inv : ToolInventory δ)
    (hinv : Static inv) (o : McpOrchestrator crate δ)
    (h : Reaches (Connect.exec hasher servers)
      (fun o call => call.Succeeds servers tools ∧ call.Spares hasher o)
      ⟨McpConnectionPool.withCapacity crate maxConnections, inv⟩ o) (entry : ToolEntry δ) :
    entry ∈ o.inventory.listByCategory .dynamic ↔
      ∃ key ∈ crate.keys o.pool, ∃ name tool, lastNamed (tools key.url) name = some tool ∧
        entry = ToolEntry.fromServerTool key.url tool .dynamic := by
  have hfollows : Follows tools o :=
    h.invariant (follows_start hinv maxConnections) fun o call ho hcall => ho.exec hcall.1 hcall.2
  rw [mem_listByCategory hfollows.toolsOf.agrees]
  constructor
  · rintro ⟨q, hq⟩
    by_cases hurl : q.serverKey ∈ (crate.keys o.pool).map PoolKey.url
    · rw [hfollows.toolsOf.listed q hurl] at hq
      obtain ⟨key, hkey, hserver⟩ := mem_map.mp hurl
      obtain ⟨tool, htool, rfl⟩ := Option.map_eq_some_iff.mp hq
      exact ⟨key, hkey, q.toolName, tool, hserver ▸ htool, by rw [hserver]⟩
    · rw [hfollows.toolsOf.unlisted q hurl] at hq
      cases hq
  · rintro ⟨key, hkey, name, tool, htool, rfl⟩
    refine ⟨⟨key.url, name⟩, ?_⟩
    rw [hfollows.toolsOf.listed _ (mem_map_of_mem hkey), dynamicOf, htool]
    rfl

end

/-! ## Two runs -/

/-- A hash of credentials that tells tokens of different length apart. -/
def lengthHasher : AuthHasher := fun token _ => UInt64.ofNat ((token.map String.length).getD 0)

/-- Every server lists one tool, with its own URL for a definition. -/
def echoTools (url : String) : List (Tool String) := [⟨"echo", url⟩]

def echoServers : Servers String where
  connects _ := true
  lists config :=
    match config.transport with
    | .streamable url _ _ => some (echoTools url)
    | _ => none

def connectTo (url token : String) : Connect :=
  ⟨⟨url, .streamable url (some token) ∅⟩, none⟩

theorem connectTo_succeeds (url token : String) :
    (connectTo url token).Succeeds echoServers echoTools :=
  ⟨url, some token, ∅, rfl, rfl, rfl⟩

/-- The state after some connects, with room for two connections. -/
def twoAfter (calls : List Connect) : McpOrchestrator .listed String :=
  calls.foldl (Connect.exec lengthHasher echoServers)
    ⟨McpConnectionPool.withCapacity .listed 2, ToolInventory.new⟩

/-- The URLs of the pool after some connects, the last one first. -/
def urlsAfter (calls : List Connect) : List String :=
  (LruCrate.listed.keys (twoAfter calls).pool).map PoolKey.url

theorem dynamic_tools_follow_pool_two :
    urlsAfter [connectTo "u" "a", connectTo "v" "a", connectTo "w" "a"] = ["w", "v"] ∧
      (ToolEntry.fromServerTool "v" ⟨"echo", "v"⟩ .dynamic) ∈
        (twoAfter
          [connectTo "u" "a", connectTo "v" "a", connectTo "w" "a"]).inventory.listByCategory
          .dynamic := by
  have hrun : AllOk (Connect.exec lengthHasher echoServers)
      (fun o call => call.Succeeds echoServers echoTools ∧ call.Spares lengthHasher o)
      ⟨McpConnectionPool.withCapacity .listed 2, ToolInventory.new⟩
      [connectTo "u" "a", connectTo "v" "a", connectTo "w" "a"] := by
    refine ⟨⟨connectTo_succeeds _ _, ⟨fun _ hfull => ?_, by decide⟩⟩,
      ⟨connectTo_succeeds _ _, ⟨fun _ hfull => ?_, by decide⟩⟩,
      ⟨connectTo_succeeds _ _, ⟨fun _ _ key hkey => ?_, by decide⟩⟩, trivial⟩
    · exact absurd hfull (by decide +kernel)
    · exact absurd hfull (by decide +kernel)
    · have hlast : (LruCrate.listed.keys (twoAfter [connectTo "u" "a",
          connectTo "v" "a"]).pool).getLast? = some ⟨"u", 1, none⟩ := by decide +kernel
      obtain rfl := Option.some.inj (hlast.symm.trans hkey)
      exact .inr (by decide +kernel)
  refine ⟨by rfl, ?_⟩
  refine (dynamic_tools_follow_pool .listed lengthHasher echoServers echoTools 2 ToolInventory.new
    ⟨nofun, rfl⟩ _ (reaches_foldl hrun) _).mpr ⟨⟨"v", 1, none⟩, ?_, "echo", ⟨"echo", "v"⟩,
      by decide, rfl⟩
  change _ ∈ LruCrate.listed.keys
    (twoAfter [connectTo "u" "a", connectTo "v" "a", connectTo "w" "a"]).pool
  decide

/-- **A shared URL loses its tools.**  Two connections to `u` with different tokens, then one to
`v`: the first one to `u` is driven out and the tools of `u` are cleared, although the second one
stays in the pool; connecting it again does not list them. -/
theorem eviction_clears_shared_url :
    (∀ call ∈ [connectTo "u" "a", connectTo "u" "bb", connectTo "v" "a", connectTo "u" "bb"],
      call.Succeeds echoServers echoTools) ∧
    ∀ o ∈ [twoAfter [connectTo "u" "a", connectTo "u" "bb", connectTo "v" "a"],
        twoAfter [connectTo "u" "a", connectTo "u" "bb", connectTo "v" "a", connectTo "u" "bb"]],
      LruCrate.listed.keys o.pool = [⟨"v", 1, none⟩, ⟨"u", 2, none⟩] ∧
        o.inventory.listByCategory .dynamic =
          [ToolEntry.fromServerTool "v" ⟨"echo", "v"⟩ .dynamic] := by
  refine ⟨fun call hcall => ?_, by decide +kernel⟩
  simp only [mem_cons, not_mem_nil, or_false] at hcall
  rcases hcall with rfl | rfl | rfl | rfl <;> exact connectTo_succeeds _ _

end Smg.Mcp
