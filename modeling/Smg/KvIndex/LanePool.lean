import Smg.KvIndex.LaneMap
import Smg.Lib.Interleave
import Smg.Lib.Mailbox

/-!
# The lane pool

Per-worker queues of events, served by lanes that take whole workers from one another.  Producers
call `enqueue`; a lane is a thread in `run_lane`.  Both are processes of an interleaving
(`Interleave.Program`): `step` is one atomic access to what they share (a queue, a ready list or a
thread handle under its lock, one exchange, swap, load or store of an atomic), and a program counter
stands between any two of them.

What a step does not decide is in its `Choice`: what the hooks `pump` and `wait` answer, what
`apply` leaves in the worker's state, and whether a `try_lock` finds the lock taken.  A thread
parked in `park_lane` may go on at any time, since it wakes on a timeout as well.  Hooks that call
back into the pool do so as further processes.  Counters and clocks are left out.

The steal of a worker from a lane that is not serving reads the worker's queue while it holds the
lane's list, so it is one step; a steal that follows the `stealable` bits is one step too, which
clears the bit of a list it has emptied.
-/

set_option autoImplicit false

namespace Smg.KvIndex

open Mailbox

/-- Shape of a pool. -/
structure LanePoolConfig where
  /-- Lanes, each with its own ready list. -/
  lanes : Nat
  maxWorkers : Nat
  /-- Queued events a worker may hold. -/
  depthCap : Nat
  /-- Events a lane applies from one worker before releasing it. -/
  batch : Nat
  /-- Events queued for a ready worker before any lane may take it from a lane that is not
  serving. -/
  stealAfter : Nat
deriving DecidableEq, Repr

/-- A worker: its state word, its queue and what the hooks keep for it. -/
structure WorkerSlot (W E : Type) where
  /-- `IDLE`, `READY` or `RUNNING`. -/
  state : Phase
  queue : List E
  /-- The worker's state, which moves with the worker. -/
  held : Option W
  /-- Every event `enqueue` took, in order (kept for the statements). -/
  accepted : List E
  /-- Every event applied, in order (kept for the statements). -/
  applied : List E

/-- A lane's list and flags. -/
structure Lane where
  /-- The ready workers, oldest first. -/
  ready : List Nat
  /-- The lane's thread sleeps or is about to. -/
  parked : Bool
  /-- The lane is inside `serve`. -/
  serving : Bool
  thread : Bool
  /-- That thread was unparked and has not noticed yet. -/
  token : Bool

structure LanePool (W E : Type) where
  config : LanePoolConfig
  workers : Nat → WorkerSlot W E
  lanes : List Lane
  /-- One bit per lane: it is serving and has more on its list. -/
  stealable : List UInt64

/-- What a hook answers. -/
inductive Control
  | continue
  | stop
deriving DecidableEq, Repr

/-- What a step leaves to the outside. -/
structure Choice (W : Type) where
  /-- The answer of `pump` or `wait`. -/
  control : Control
  /-- `wait` calls `park_lane`. -/
  park : Bool
  /-- `try_lock` finds the lock taken. -/
  contended : Bool
  /-- What `apply` leaves in the worker's state. -/
  held : Option W

/-- A lane's thread: its lane and the seed it picks victims with. -/
structure LaneThread where
  lane : Nat
  seed : UInt64
deriving DecidableEq, Repr

/-- Where a process is.  `back` says who called `make_ready`: a producer (`none`), or the lane's own
thread with its seed. -/
inductive Process (E : Type)
  /-- `enqueue` was called. -/
  | enqueue (lane worker : Nat) (event : E)
  /-- `enqueue`: before the exchange of the worker's state. -/
  | exchange (lane worker : Nat)
  /-- `make_ready`: before the push on the list. -/
  | makeReady (back : Option UInt64) (lane worker : Nat)
  /-- `make_ready`: before reading the lane's `serving`. -/
  | mark (back : Option UInt64) (lane : Nat)
  /-- `make_ready`: before swapping the lane's `parked`. -/
  | wake (back : Option UInt64) (lane : Nat)
  /-- `make_ready`: before swapping the `parked` of another lane. -/
  | wakeOther (back : Option UInt64) (lane index : Nat)
  /-- `unpark`. -/
  | unpark (back : Option UInt64) (lane target : Nat)
  /-- `run_lane` was called. -/
  | runLane (lane : Nat)
  /-- The top of a turn, in `pump`. -/
  | pump (t : LaneThread)
  /-- Before looking at the own list. -/
  | pop (t : LaneThread)
  /-- `steal`: before loading a word of `stealable`. -/
  | load (t : LaneThread) (step : Nat)
  /-- `steal`: the bits left of that word. -/
  | rob (t : LaneThread) (step : Nat) (word : UInt64)
  /-- `steal`: before reading `serving` of a lane that may not be running. -/
  | peek (t : LaneThread) (step : Nat)
  /-- `steal`: before looking at that lane's list. -/
  | rescue (t : LaneThread) (step : Nat)
  /-- In `wait`. -/
  | wait (t : LaneThread)
  /-- `park_lane`: before looking at the own list. -/
  | park (t : LaneThread)
  /-- `park_lane`: asleep. -/
  | asleep (t : LaneThread)
  /-- `park_lane`: before clearing `parked`. -/
  | wakeUp (t : LaneThread)
  /-- `serve`: before the exchange that claims the worker. -/
  | claim (t : LaneThread) (worker : Nat)
  /-- `serve`: before setting `serving`. -/
  | enter (t : LaneThread) (worker : Nat)
  /-- `serve`: before looking whether there is more on the own list. -/
  | announce (t : LaneThread) (worker : Nat)
  /-- `serve`: before taking an event, with so many applied. -/
  | serve (t : LaneThread) (worker applied : Nat)
  /-- `serve`: in `apply`. -/
  | apply (t : LaneThread) (worker applied : Nat) (event : E)
  /-- `serve`: before clearing `serving`. -/
  | leave (t : LaneThread) (worker : Nat)
  /-- `serve`: before clearing the bit in `stealable`. -/
  | unmark (t : LaneThread) (worker : Nat)
  /-- `serve`: before storing `IDLE`. -/
  | release (t : LaneThread) (worker : Nat)
  /-- `serve`: before looking at the queue again. -/
  | recheck (t : LaneThread) (worker : Nat)
  /-- `serve`: before the exchange of the worker's state. -/
  | retry (t : LaneThread) (worker : Nat)
  /-- Returned, or panicked on an index out of range. -/
  | done

namespace LanePool

variable {W E : Type}

/-- A new pool; the configuration must have lanes, workers, a cap and a batch. -/
def new (config : LanePoolConfig) : Option (LanePool W E) :=
  if config.lanes > 0 ∧ config.maxWorkers > 0 ∧ config.depthCap > 0 ∧ config.batch > 0 then
    some
      { config
        workers := fun _ =>
          { state := .idle, queue := [], held := none, accepted := [], applied := [] }
        lanes := List.replicate config.lanes
          { ready := [], parked := false, serving := false, thread := false, token := false }
        stealable := List.replicate ((config.lanes + 63) / 64) 0 }
  else
    none

def modifyWorker (s : LanePool W E) (worker : Nat) (f : WorkerSlot W E → WorkerSlot W E) :
    LanePool W E :=
  { s with workers := Function.update s.workers worker (f (s.workers worker)) }

def modifyLane (s : LanePool W E) (lane : Nat) (f : Lane → Lane) : LanePool W E :=
  { s with lanes := s.lanes.modify lane f }

def markStealable (s : LanePool W E) (lane : Nat) (on : Bool) : LanePool W E :=
  let bit := (1 : UInt64) <<< UInt64.ofNat (lane % 64)
  { s with stealable := s.stealable.modify (lane / 64) fun word =>
      if on then word ||| bit else word &&& ~~~bit }

def ready (s : LanePool W E) (lane : Nat) : List Nat := (s.lanes[lane]?.map Lane.ready).getD []

def popReady (s : LanePool W E) (lane : Nat) : LanePool W E :=
  s.modifyLane lane fun l => { l with ready := l.ready.tail }

/-- Where a process goes when `make_ready` returns. -/
def returnTo {E : Type} (back : Option UInt64) (lane : Nat) : Process E :=
  match back with
  | none => .done
  | some seed => .pump { lane, seed }

def xorshift (seed : UInt64) : UInt64 :=
  let seed := seed ^^^ (seed <<< 13)
  let seed := seed ^^^ (seed >>> 7)
  seed ^^^ (seed <<< 17)

/-- The word of `stealable` that a thief loads in turn `step`. -/
def wordIndex (s : LanePool W E) (t : LaneThread) (step : Nat) : Nat :=
  (t.seed.toNat % s.stealable.length + step) % s.stealable.length

/-- The lane a thief looks at in turn `step` when no bit is set. -/
def victimIndex (s : LanePool W E) (t : LaneThread) (step : Nat) : Nat :=
  (t.seed.toNat % s.lanes.length + step) % s.lanes.length

/-- The exchange of a worker's state from one value to another. -/
def exchangeState (s : LanePool W E) (worker : Nat) (old new' : Phase) : LanePool W E :=
  s.modifyWorker worker fun w => { w with state := if w.state = old then new' else w.state }

def stopLane (s : LanePool W E) (t : LaneThread) : LanePool W E :=
  s.modifyLane t.lane fun l => { l with thread := false }

/-- One atomic step of `enqueue` and `make_ready`. -/
def stepEnqueue (s : LanePool W E) : Process E → LanePool W E × Process E
  | .enqueue lane worker event =>
    if worker < s.config.maxWorkers ∧ lane < s.lanes.length then
      if (s.workers worker).queue.length ≥ s.config.depthCap then
        (s, .done)
      else
        (s.modifyWorker worker fun w =>
            { w with queue := w.queue ++ [event], accepted := w.accepted ++ [event] },
          .exchange lane worker)
    else
      (s, .done)
  | .exchange lane worker =>
    if (s.workers worker).state = .idle then
      (s.exchangeState worker .idle .ready, .makeReady none lane worker)
    else
      (s, .done)
  | .makeReady back lane worker =>
    (s.modifyLane lane fun l => { l with ready := l.ready ++ [worker] }, .mark back lane)
  | .mark back lane =>
    (if (s.lanes[lane]?).any Lane.serving then s.markStealable lane true else s, .wake back lane)
  | .wake back lane =>
    if (s.lanes[lane]?).any Lane.parked then
      (s.modifyLane lane fun l => { l with parked := false }, .unpark back lane lane)
    else
      (s, .wakeOther back lane 0)
  | .wakeOther back lane index =>
    if index < s.lanes.length then
      if index ≠ lane ∧ (s.lanes[index]?).any Lane.parked then
        (s.modifyLane index fun l => { l with parked := false }, .unpark back lane index)
      else
        (s, .wakeOther back lane (index + 1))
    else
      (s, returnTo back lane)
  | .unpark back lane target =>
    (s.modifyLane target fun l => { l with token := l.token || l.thread }, returnTo back lane)
  | p => (s, p)

/-- One atomic step of `run_lane`, `steal` and `park_lane`. -/
def stepLane (s : LanePool W E) (c : Choice W) : Process E → LanePool W E × Process E
  | .runLane lane =>
    if lane < s.lanes.length then
      (s.modifyLane lane fun l => { l with thread := true },
        .pump { lane, seed := (UInt64.ofNat lane * 0x9E3779B97F4A7C15) ||| 1 })
    else
      (s, .done)
  | .pump t => if c.control = .stop then (s.stopLane t, .done) else (s, .pop t)
  | .pop t =>
    match s.ready t.lane with
    | worker :: _ => (s.popReady t.lane, .claim t worker)
    | [] =>
      if s.lanes.length = 1 then
        (s, .wait t)
      else
        (s, .load { t with seed := xorshift t.seed } 0)
  | .load t step =>
    if step < s.stealable.length then
      let index := s.wordIndex t step
      let word := s.stealable[index]?.getD 0
      let own := (1 : UInt64) <<< UInt64.ofNat (t.lane % 64)
      (s, .rob t step (if index = t.lane / 64 then word &&& ~~~own else word))
    else
      (s, if s.config.stealAfter = 0 then .wait t else .peek t 0)
  | .rob t step word =>
    if word = 0 then
      (s, .load t (step + 1))
    else
      let victim := s.wordIndex t step * 64 + trailingZeros word.toNat
      let word := word &&& (word - 1)
      if c.contended then
        (s, .rob t step word)
      else
        let s' := s.popReady victim
        let s'' := if s'.ready victim = [] then s'.markStealable victim false else s'
        match s.ready victim with
        | worker :: _ => (s'', .claim t worker)
        | [] => (s'', .rob t step word)
  | .peek t step =>
    if step < s.lanes.length then
      let victim := s.victimIndex t step
      if victim = t.lane ∨ (s.lanes[victim]?).any Lane.serving then
        (s, .peek t (step + 1))
      else
        (s, .rescue t step)
    else
      (s, .wait t)
  | .rescue t step =>
    let victim := s.victimIndex t step
    if c.contended then
      (s, .peek t (step + 1))
    else
      match s.ready victim with
      | [] => (s, .peek t (step + 1))
      | worker :: _ =>
        if (s.workers worker).queue.length < s.config.stealAfter then
          (s, .peek t (step + 1))
        else
          (s.popReady victim, .claim t worker)
  | .wait t =>
    if c.park then
      (s.modifyLane t.lane fun l => { l with parked := true }, .park t)
    else if c.control = .stop then
      (s.stopLane t, .done)
    else
      (s, .pump t)
  | .park t => (s, if s.ready t.lane = [] then .asleep t else .wakeUp t)
  | .asleep t => (s.modifyLane t.lane fun l => { l with token := false }, .wakeUp t)
  | .wakeUp t => (s.modifyLane t.lane fun l => { l with parked := false }, .wait t)
  | p => (s, p)

/-- One atomic step of `serve`. -/
def stepServe (s : LanePool W E) (c : Choice W) : Process E → LanePool W E × Process E
  | .claim t worker => (s.exchangeState worker .ready .running, .enter t worker)
  | .enter t worker => (s.modifyLane t.lane fun l => { l with serving := true }, .announce t worker)
  | .announce t worker =>
    (if s.ready t.lane = [] then s else s.markStealable t.lane true, .serve t worker 0)
  | .serve t worker applied =>
    if applied < s.config.batch then
      match (s.workers worker).queue with
      | [] => (s, .leave t worker)
      | event :: rest =>
        (s.modifyWorker worker fun w => { w with queue := rest }, .apply t worker applied event)
    else
      (s, .leave t worker)
  | .apply t worker applied event =>
    (s.modifyWorker worker fun w => { w with held := c.held, applied := w.applied ++ [event] },
      .serve t worker (applied + 1))
  | .leave t worker => (s.modifyLane t.lane fun l => { l with serving := false }, .unmark t worker)
  | .unmark t worker => (s.markStealable t.lane false, .release t worker)
  | .release t worker =>
    (s.modifyWorker worker fun w => { w with state := .idle }, .recheck t worker)
  | .recheck t worker =>
    (s, if (s.workers worker).queue = [] then .pump t else .retry t worker)
  | .retry t worker =>
    if (s.workers worker).state = .idle then
      (s.exchangeState worker .idle .ready, .makeReady (some t.seed) t.lane worker)
    else
      (s, .pump t)
  | p => (s, p)

def step (s : LanePool W E) (p : Process E) (c : Choice W) : LanePool W E × Process E :=
  match p with
  | .enqueue .. | .exchange .. | .makeReady .. | .mark .. | .wake .. | .wakeOther .. | .unpark .. =>
    s.stepEnqueue p
  | .runLane .. | .pump .. | .pop .. | .load .. | .rob .. | .peek .. | .rescue .. | .wait .. |
    .park .. | .asleep .. | .wakeUp .. => s.stepLane c p
  | .claim .. | .enter .. | .announce .. | .serve .. | .apply .. | .leave .. | .unmark .. |
    .release .. | .recheck .. | .retry .. => s.stepServe c p
  | .done => (s, .done)

end LanePool

/-- The calls that start a process. -/
inductive PoolCall (E : Type)
  | enqueue (lane worker : Nat) (event : E)
  | runLane (lane : Nat)

def lanePool (W E : Type) :
    Interleave.Program (LanePool W E) (Process E) (Choice W) (PoolCall E) where
  start
    | .enqueue lane worker event => .enqueue lane worker event
    | .runLane lane => .runLane lane
  next := LanePool.step

end Smg.KvIndex
