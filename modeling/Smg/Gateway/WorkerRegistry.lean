import Smg.Gateway.HashRing

/-!
# The worker registry

`worker/registry.rs`: the workers a gateway routes to, by id, with everything that is kept next to
them so that a request finds its candidates without a walk: the index by model, the aliases of the
models, a hash ring for each model and one for all workers, the ids by type and by connection mode,
the number of overloaded workers of each model, and a snapshot of all workers that is rebuilt when
it is read after a change.

A worker object is a handle.  What a worker says of itself does not change, so it is a function of
the handle (`Fleet.worker`).  The runtime of a worker, which holds its overload flag and its
revision, is a cell that objects may share: a clone shares that of its original, and a replacement
adopts that of the worker it replaces.  Two objects that are built apart share no cell, and a clone
has the URL of its original: that is `Fleet.runtime_url`.

Hash sets and concurrent maps yield their keys in an order that is not specified; an operation takes
that order as a `Shuffle`.  Calls are executed one after another, so the locks are left out.  Left
out too, because no function here reads them: the retry settings of the models, the status of the
workers, the metrics and the events.  The mesh imports, which replace a worker under one more
condition, are not here.
-/

set_option autoImplicit false

namespace Smg.Gateway

/-- `UNKNOWN_MODEL_ID`: the model id of workers that declare none, and of requests that name
none. -/
def unknownModelId : String := "unknown"

/-- A model that a worker serves, and other names for it. -/
structure ModelCard where
  id : String
  aliases : List String
deriving DecidableEq

inductive WorkerType where
  | regular
  | prefill
  | decode
  | encode
deriving DecidableEq

/-- How a worker is talked to. -/
inductive ConnectionMode where
  | http
  | grpc
  | zmq
deriving DecidableEq

/-- Where a registration came from. -/
inductive WorkerOrigin where
  | localNode
  | mesh
deriving DecidableEq

/-- What a worker object says of itself. -/
structure Worker where
  url : String
  models : List ModelCard
  /-- `model_id()`: the model id when there are no model cards. -/
  modelId : String
  workerType : WorkerType
  connectionMode : ConnectionMode
deriving DecidableEq

def Worker.modelIds (w : Worker) : List String :=
  let ids := (w.models.map ModelCard.id).eraseDups
  if ids.isEmpty then [w.modelId] else ids

def Worker.declaresAlias (w : Worker) (canonicalId name : String) : Bool :=
  w.models.any fun model => model.id == canonicalId && model.aliases.contains name

/-- The worker objects there are. -/
structure Fleet (H : Type) where
  worker : H → Worker
  /-- The runtime that an object was built with. -/
  runtime : H → Nat
  runtime_url : ∀ h h', runtime h = runtime h' → (worker h).url = (worker h').url

variable {H : Type} [DecidableEq H] (fleet : Fleet H) (placing : Placing)

/-! ## The indexes by model -/

/-- The index by model, the aliases and the rings. -/
structure Indexes (H : Type) where
  modelIndex : Table String (List H)
  modelAliasIndex : Table String String
  hashRings : Table String HashRing

namespace Indexes

/-- Add a worker to the list of a model, in the place of one with its URL. -/
def addWorker (modelIndex : Table String (List H)) (modelId : String) (h : H) :
    Table String (List H) :=
  modelIndex.insert modelId <|
    match modelIndex.lookup modelId with
    | some existing => existing.filter (fun w => (fleet.worker w).url ≠ (fleet.worker h).url) ++ [h]
    | none => [h]

/-- Drop a URL from the list of a model, and the list when it is empty. -/
def dropWorker (modelIndex : Table String (List H)) (modelId workerUrl : String) :
    Table String (List H) :=
  match modelIndex.lookup modelId with
  | none => modelIndex
  | some existing =>
    let newWorkers := existing.filter fun w => (fleet.worker w).url ≠ workerUrl
    if newWorkers.isEmpty then modelIndex.erase modelId else modelIndex.insert modelId newWorkers

def addWorkerToModelIndex (idx : Indexes H) (modelId : String) (h : H) : Indexes H :=
  { idx with modelIndex := addWorker fleet idx.modelIndex modelId h }

def urlsOf (hs : List H) : List String := hs.map fun h => (fleet.worker h).url

/-- A ring for some URLs: reconciled from the one there was, if there was one. -/
def ringFor (previous : Option HashRing) (urls : List String) : HashRing :=
  match previous with
  | some previous => previous.updated placing urls
  | none => HashRing.new placing urls

def rebuildWildcardHashRing (order : Shuffle String) (idx : Indexes H) : Indexes H :=
  match order.fn idx.modelIndex.keys with
  | [] => { idx with hashRings := idx.hashRings.erase unknownModelId }
  | [only] =>
    -- A single model covers every worker, so its ring is shared.
    match idx.hashRings.lookup only with
    | some ring => { idx with hashRings := idx.hashRings.insert unknownModelId ring }
    | none => { idx with hashRings := idx.hashRings.erase unknownModelId }
  | _ =>
    let urls := order.fn (idx.modelIndex.entries.flatMap fun e => urlsOf fleet e.2).eraseDups
    { idx with
      hashRings := idx.hashRings.insert unknownModelId
        (ringFor placing (idx.hashRings.lookup unknownModelId) urls) }

def rebuildHashRing (order : Shuffle String) (idx : Indexes H) (modelId : String) : Indexes H :=
  rebuildWildcardHashRing fleet placing order <|
    match idx.modelIndex.lookup modelId with
    | some workers =>
      { idx with
        hashRings := idx.hashRings.insert modelId
          (ringFor placing (idx.hashRings.lookup modelId) (urlsOf fleet workers)) }
    | none => { idx with hashRings := idx.hashRings.erase modelId }

def removeWorkerFromModelIndex (order : Shuffle String) (workerUrl : String) (idx : Indexes H)
    (modelId : String) : Indexes H :=
  rebuildHashRing fleet placing order
    { idx with modelIndex := dropWorker fleet idx.modelIndex modelId workerUrl } modelId

def dropAliasShadowedByModel (idx : Indexes H) (modelId : String) : Indexes H :=
  { idx with modelAliasIndex := idx.modelAliasIndex.erase modelId }

def modelDeclaresAlias (idx : Indexes H) (canonicalId name : String) : Bool :=
  (idx.modelIndex.lookup canonicalId).any fun workers =>
    workers.any fun h => (fleet.worker h).declaresAlias canonicalId name

def findModelDeclaringAlias (order : Shuffle String) (idx : Indexes H) (name exclude : String) :
    Option String :=
  (order.fn idx.modelIndex.keys).find? fun canonicalId =>
    canonicalId ≠ exclude && idx.modelDeclaresAlias fleet canonicalId name

def addModelAlias (idx : Indexes H) (name canonicalId : String) : Indexes H :=
  if name = canonicalId then idx
  else if name = unknownModelId then idx
  else if (idx.modelIndex.lookup name).isSome then
    { idx with modelAliasIndex := idx.modelAliasIndex.erase name }
  else
    match idx.modelAliasIndex.lookup name with
    | some _ => idx
    | none => { idx with modelAliasIndex := idx.modelAliasIndex.insert name canonicalId }

def removeModelAliasIfUnused (order : Shuffle String) (idx : Indexes H)
    (name canonicalId : String) : Indexes H :=
  match idx.modelAliasIndex.lookup name with
  | none => idx
  | some current =>
    if current ≠ canonicalId then idx
    else if idx.modelDeclaresAlias fleet canonicalId name then idx
    else
      match idx.findModelDeclaringAlias fleet order name canonicalId with
      | some next => { idx with modelAliasIndex := idx.modelAliasIndex.insert name next }
      | none => { idx with modelAliasIndex := idx.modelAliasIndex.erase name }

/-- The models of a worker and their aliases, in the order they are gone through. -/
def declaredAliases (w : Worker) : List (String × String) :=
  w.models.flatMap fun model => model.aliases.map fun name => (name, model.id)

/-- Index a worker under a model: its list, its ring, and no alias of that name. -/
def enterModel (order : Shuffle String) (h : H) (idx : Indexes H) (modelId : String) : Indexes H :=
  ((idx.addWorkerToModelIndex fleet modelId h).rebuildHashRing fleet placing order
    modelId).dropAliasShadowedByModel modelId

/-- A replacement takes the place of its worker under a model both serve. -/
def renewModel (order : Shuffle String) (h : H) (idx : Indexes H) (modelId : String) : Indexes H :=
  (idx.addWorkerToModelIndex fleet modelId h).rebuildHashRing fleet placing order modelId

def releaseAliases (order : Shuffle String) (w : Worker) (idx : Indexes H) : Indexes H :=
  (declaredAliases w).foldl (fun idx a => idx.removeModelAliasIfUnused fleet order a.1 a.2) idx

def declareAliases (w : Worker) (idx : Indexes H) : Indexes H :=
  (declaredAliases w).foldl (fun idx a => idx.addModelAlias a.1 a.2) idx

def register (order : Shuffle String) (idx : Indexes H) (h : H) : Indexes H :=
  declareAliases (fleet.worker h)
    ((fleet.worker h).modelIds.foldl (enterModel fleet placing order h) idx)

/-- The indexes by model when a worker is replaced: what it no longer serves, what it serves now,
and what it serves still. -/
def replaceModels (order : Shuffle String) (idx : Indexes H) (old new : H) : Indexes H :=
  let oldModels := (fleet.worker old).modelIds
  let newModels := (fleet.worker new).modelIds
  let idx := (order.fn (oldModels.filter (· ∉ newModels))).foldl
    (removeWorkerFromModelIndex fleet placing order (fleet.worker old).url) idx
  let idx := (order.fn (newModels.filter (· ∉ oldModels))).foldl
    (enterModel fleet placing order new) idx
  (order.fn (oldModels.filter (· ∈ newModels))).foldl (renewModel fleet placing order new) idx

def replace (order : Shuffle String) (idx : Indexes H) (old new : H) : Indexes H :=
  declareAliases (fleet.worker new)
    (releaseAliases fleet order (fleet.worker old)
      (idx.replaceModels fleet placing order old new))

def remove (order : Shuffle String) (idx : Indexes H) (h : H) : Indexes H :=
  releaseAliases fleet order (fleet.worker h)
    ((fleet.worker h).modelIds.foldl
      (removeWorkerFromModelIndex fleet placing order (fleet.worker h).url) idx)

end Indexes

/-! ## Lists of ids -/

def idsAt {κ : Type} [DecidableEq κ] (t : Table κ (List Nat)) (k : κ) : List Nat :=
  (t.lookup k).getD []

def pushId {κ : Type} [DecidableEq κ] (t : Table κ (List Nat)) (k : κ) (id : Nat) :
    Table κ (List Nat) :=
  t.insert k (idsAt t k ++ [id])

def retainOthers {κ : Type} [DecidableEq κ] (t : Table κ (List Nat)) (k : κ) (id : Nat) :
    Table κ (List Nat) :=
  match t.lookup k with
  | some ids => t.insert k (ids.filter (· ≠ id))
  | none => t

/-- Move an id from the list of one key to that of another. -/
def moveId {κ : Type} [DecidableEq κ] (t : Table κ (List Nat)) (k k' : κ) (id : Nat) :
    Table κ (List Nat) :=
  if k = k' then t else pushId (retainOthers t k id) k' id

/-! ## The registry -/

/-- The runtimes of the worker objects. -/
structure Runtimes (H : Type) where
  /-- The cell an object refers to. -/
  cell : H → Nat
  overloaded : Nat → Bool
  /-- How often the worker of a cell was replaced. -/
  revision : Nat → Nat

def Runtimes.isOverloaded (r : Runtimes H) (h : H) : Bool := r.overloaded (r.cell h)

def Runtimes.setOverloaded (r : Runtimes H) (h : H) (overloaded : Bool) : Runtimes H :=
  { r with overloaded := Function.update r.overloaded (r.cell h) overloaded }

/-- `inherit_shared_state_from`. -/
def Runtimes.inherit (r : Runtimes H) (new old : H) : Runtimes H :=
  { r with
    cell := Function.update r.cell new (r.cell old)
    revision := Function.update r.revision (r.cell old) (r.revision (r.cell old) + 1) }

def usizeMax : Nat := 2 ^ 64 - 1

/-- The snapshot of all workers, and the epoch it was built at. -/
structure GlobalRoutingSnapshot (H : Type) where
  epoch : Nat
  snapshot : List H

structure Registry (H : Type) where
  workers : Table Nat H
  urlToId : Table String Nat
  workerOrigins : Table Nat WorkerOrigin
  indexes : Indexes H
  typeWorkers : Table WorkerType (List Nat)
  connectionWorkers : Table ConnectionMode (List Nat)
  modelOverloaded : Table String Nat
  globalRoutingSnapshot : GlobalRoutingSnapshot H
  globalEpoch : Nat
  runtimes : Runtimes H
  /-- The ids given so far; a new one is none of them. -/
  nextId : Nat

namespace Registry

/-- `WorkerRegistry::new`, among the worker objects of a fleet, none of which is flagged. -/
def new : Registry H where
  workers := ∅
  urlToId := ∅
  workerOrigins := ∅
  indexes := ⟨∅, ∅, ∅⟩
  typeWorkers := ∅
  connectionWorkers := ∅
  modelOverloaded := ∅
  globalRoutingSnapshot := ⟨0, []⟩
  globalEpoch := 0
  runtimes := ⟨fleet.runtime, fun _ => false, fun _ => 0⟩
  nextId := 0

def bumpGlobalRoutingEpoch (s : Registry H) : Registry H :=
  { s with
    globalEpoch := (s.globalEpoch + 1) % 2 ^ 64
    globalRoutingSnapshot := ⟨usizeMax, []⟩ }

/-- `current_global_routing_snapshot`: the snapshot that is served, and the registry after it was
rebuilt if it was stale. -/
def currentGlobalRoutingSnapshot (order : Shuffle H) (s : Registry H) : Registry H × List H :=
  if s.globalRoutingSnapshot.epoch = s.globalEpoch then (s, s.globalRoutingSnapshot.snapshot)
  else
    let fresh := order.fn (s.workers.entries.map Sigma.snd)
    ({ s with globalRoutingSnapshot := ⟨s.globalEpoch, fresh⟩ }, fresh)

def isCurrentHandle (s : Registry H) (h : H) : Bool :=
  match s.urlToId.lookup (fleet.worker h).url with
  | none => false
  | some id => s.workers.lookup id == some h

def countOf (counts : Table String Nat) (modelId : String) : Nat := (counts.lookup modelId).getD 0

/-- `adjust_model_overloaded`: the updated count. -/
def adjustedCount (count : Nat) (overloaded : Bool) : Nat :=
  if overloaded then (count + 1) % 2 ^ 64 else count - 1

/-- The counters of some models after `adjust_model_overloaded`, and the updated counts. -/
def adjustCounts (counts : Table String Nat) (overloaded : Bool) :
    List String → Table String Nat × List (String × Nat)
  | [] => (counts, [])
  | modelId :: rest =>
    let updated := adjustedCount (countOf counts modelId) overloaded
    let (counts, updates) := adjustCounts (counts.insert modelId updated) overloaded rest
    (counts, (modelId, updated) :: updates)

/-- Forget a counter that was updated to zero and is zero still. -/
def collectCount (counts : Table String Nat) (update : String × Nat) : Table String Nat :=
  if update.2 = 0 ∧ counts.lookup update.1 = some 0 then counts.erase update.1 else counts

def setWorkerOverloaded (s : Registry H) (h : H) (overloaded : Bool) : Registry H :=
  if s.runtimes.isOverloaded h = overloaded then s
  else if !s.isCurrentHandle fleet h then s
  else
    let adjusted := adjustCounts s.modelOverloaded overloaded (fleet.worker h).modelIds
    { s with
      runtimes := s.runtimes.setOverloaded h overloaded
      modelOverloaded := adjusted.2.foldl collectCount adjusted.1 }

/-- `get_by_model`: the workers of a model or of an alias. -/
def getByModel (s : Registry H) (modelId : String) : List H :=
  match s.indexes.modelIndex.lookup modelId with
  | some workers => workers
  | none =>
    match s.indexes.modelAliasIndex.lookup modelId with
    | some canonicalId => (s.indexes.modelIndex.lookup canonicalId).getD []
    | none => []

def overloadedWorkerCount (s : Registry H) (modelId : String) : Nat :=
  match s.modelOverloaded.lookup modelId with
  | some count => count
  | none =>
    match s.indexes.modelAliasIndex.lookup modelId with
    | some canonicalId => countOf s.modelOverloaded canonicalId
    | none => 0

def resolveId (s : Registry H) (url : String) : Registry H × Nat :=
  match s.urlToId.lookup url with
  | some id => (s, id)
  | none =>
    ({ s with urlToId := s.urlToId.insert url s.nextId, nextId := s.nextId + 1 }, s.nextId)

def enter (order : Shuffle String) (s : Registry H) (id : Nat) (h : H) (origin : WorkerOrigin) :
    Registry H :=
  bumpGlobalRoutingEpoch
    { s with
      workerOrigins := s.workerOrigins.insert id origin
      workers := s.workers.insert id h
      indexes := s.indexes.register fleet placing order h
      typeWorkers := pushId s.typeWorkers (fleet.worker h).workerType id
      connectionWorkers := pushId s.connectionWorkers (fleet.worker h).connectionMode id }

def registerInner (order : Shuffle String) (s : Registry H) (h : H) (origin : WorkerOrigin) :
    Registry H × Option Nat :=
  let (s, id) := s.resolveId (fleet.worker h).url
  if (s.workers.lookup id).isSome then (s, none)
  else (s.enter fleet placing order id h origin, some id)

/-- A worker takes the place of another under its id. -/
def renew (order : Shuffle String) (s : Registry H) (id : Nat) (old new : H)
    (promoteOrigin : Option WorkerOrigin) : Registry H :=
  -- The verdict is released while `old` is still the current handle.
  let s := s.setWorkerOverloaded fleet old false
  bumpGlobalRoutingEpoch
    { s with
      runtimes := s.runtimes.inherit new old
      workers := s.workers.insert id new
      indexes := s.indexes.replace fleet placing order old new
      typeWorkers := moveId s.typeWorkers (fleet.worker old).workerType
        (fleet.worker new).workerType id
      connectionWorkers := moveId s.connectionWorkers (fleet.worker old).connectionMode
        (fleet.worker new).connectionMode id
      workerOrigins :=
        match promoteOrigin with
        | some origin => s.workerOrigins.insert id origin
        | none => s.workerOrigins }

def replaceInner (order : Shuffle String) (s : Registry H) (id : Nat) (new : H)
    (promoteOrigin : Option WorkerOrigin) (expectedRevision : Option Nat) : Registry H × Bool :=
  match s.workers.lookup id with
  | none => (s, false)
  | some old =>
    if expectedRevision.any fun expected =>
        s.runtimes.revision (s.runtimes.cell old) ≠ expected then
      (s, false)
    else if (fleet.worker old).url ≠ (fleet.worker new).url then (s, false)
    else (s.renew fleet placing order id old new promoteOrigin, true)

def leave (order : Shuffle String) (s : Registry H) (id : Nat) (h : H) : Registry H :=
  -- The count is released before the worker leaves the map.
  let s := s.setWorkerOverloaded fleet h false
  bumpGlobalRoutingEpoch
    { s with
      workers := s.workers.erase id
      urlToId := s.urlToId.erase (fleet.worker h).url
      workerOrigins := s.workerOrigins.erase id
      indexes := s.indexes.remove fleet placing order h
      typeWorkers := retainOthers s.typeWorkers (fleet.worker h).workerType id
      connectionWorkers := retainOthers s.connectionWorkers (fleet.worker h).connectionMode id }

def removeInner (order : Shuffle String) (s : Registry H) (id : Nat)
    (expectOrigin : Option WorkerOrigin) : Registry H × Option H :=
  if expectOrigin.any fun expected => s.workerOrigins.lookup id ≠ some expected then (s, none)
  else
    match s.workers.lookup id with
    | none => (s, none)
    | some h => (s.leave fleet placing order id h, some h)

def register (order : Shuffle String) (s : Registry H) (h : H) : Registry H × Option Nat :=
  s.registerInner fleet placing order h .localNode

def registerOrReplace (order : Shuffle String) (s : Registry H) (h : H) : Registry H × Nat :=
  match s.register fleet placing order h with
  | (s, some id) => (s, id)
  | (s, none) =>
    match s.urlToId.lookup (fleet.worker h).url with
    | some existingId =>
      ((s.replaceInner fleet placing order existingId h (some .localNode) none).1, existingId)
    | none =>
      -- A stale entry is cleared and the registration made again.
      let s := { s with urlToId := s.urlToId.erase (fleet.worker h).url }
      match s.register fleet placing order h with
      | (s, some id) => (s, id)
      | (s, none) => ({ s with nextId := s.nextId + 1 }, s.nextId)

/-! ## Calls -/

/-- What callers do. -/
inductive Call (H : Type) where
  | register (order : Shuffle String) (h : H)
  | registerOrReplace (order : Shuffle String) (h : H)
  | replace (order : Shuffle String) (id : Nat) (h : H)
  | replaceClaimingLocal (order : Shuffle String) (id : Nat) (h : H) (expectedRevision : Nat)
  | remove (order : Shuffle String) (id : Nat)
  | setWorkerOverloaded (h : H) (overloaded : Bool)
  /-- A read of the snapshot of all workers, which rebuilds it when it is stale. -/
  | getRoutingWorkers (order : Shuffle H)

def exec (s : Registry H) : Call H → Registry H
  | .register order h => (s.register fleet placing order h).1
  | .registerOrReplace order h => (s.registerOrReplace fleet placing order h).1
  | .replace order id h => (s.replaceInner fleet placing order id h none none).1
  | .replaceClaimingLocal order id h expected =>
    (s.replaceInner fleet placing order id h (some .localNode) (some expected)).1
  | .remove order id => (s.removeInner fleet placing order id none).1
  | .setWorkerOverloaded h overloaded => s.setWorkerOverloaded fleet h overloaded
  | .getRoutingWorkers order => (s.currentGlobalRoutingSnapshot order).1

end Registry

end Smg.Gateway
