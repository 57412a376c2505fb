import Mathlib.Data.Prod.Lex
import Smg.Lib.Grouping
import Smg.Lib.Interleave
import Smg.Scheduler.Slots

/-!
# The priority scheduler

Admissions, permits, the dispatcher and capacity changes as processes over the slot pool, the class
queues and the in-flight registry.  `Process` is where one of them stands between two atomic
accesses to what they share; `step` is one access.

* `admit` tries the pool, may preempt a victim and poll, and otherwise queues a waiter, nudges the
  dispatcher and waits for a permit, the queue timeout or a cancellation.  Its future may be dropped
  at every await.  Admitted, the same process holds the permit until it drops it.
* `wake_next_waiter` is a pass over the queues, first for starved heads and then by priority; a pass
  that has a slot pops waiters until one still listens and hands it a permit over its channel.
* `apply_new_capacity` publishes reservations and capacity one store at a time.
* the dispatcher is a loop over both, woken by the stored permit of the notifier, by the tick or by
  a new capacity.

What the code leaves to time and to the outside is in `Choice`: timers, which arm of a `select!` is
taken, when a permit is dropped, which capacity the watch shows, and a weak exchange that fails.
The share of a reservation (`ceil(reserved_per_slot × capacity)`, in floating point) is a parameter.
Metrics and logs are left out.
-/

set_option autoImplicit false

namespace Smg.Scheduler

open Function (update)

/-- A request: its id and the class it is admitted under. -/
structure Request where
  id : String
  cls : Class
deriving DecidableEq, Repr

/-- What the registry keeps of an admitted request. -/
structure Handle where
  cls : Class
  admittedAt : Nat
deriving DecidableEq, Repr

structure ClassConfig where
  queueSize : Nat
  /-- May this class preempt a lower one? -/
  canPreempt : Bool
  /-- Slots reserved whatever the capacity. -/
  reservedFloor : UInt16
  /-- The share of a capacity, rounded up. -/
  share : UInt16 → Nat

structure Sched where
  config : Class → ClassConfig
  pool : SlotPool
  /-- The waiters of each class, oldest first. -/
  queues : Class → List Request
  registry : Table String Handle
  /-- `first_byte_at` of each handle: 0, the preempted sentinel, or the time to first byte. -/
  firstByte : String → UInt64
  /-- The handles whose cancel token has fired. -/
  preempted : String → Bool
  /-- The callers' tokens that have fired. -/
  clientCancelled : String → Bool
  /-- The waiters' own tokens that have fired. -/
  waiterCancelled : String → Bool
  /-- The channels whose receiver is gone. -/
  receiverClosed : String → Bool
  /-- The channels whose sender is gone without a permit. -/
  senderGone : String → Bool
  /-- The permits that lie in a channel. -/
  sent : List Request
  /-- The stored permit of `release_notify`. -/
  notified : Bool

/-- What a `select!` takes. -/
inductive Arm
  /-- The awaited result: a permit, or the end of a sleep. -/
  | result
  | timeout
  | cancel
  | drop
deriving DecidableEq, Repr

/-- What wakes the dispatcher. -/
inductive Wake
  | notified
  | tick
  | capacity (new : UInt16)
deriving DecidableEq, Repr

/-- What a step leaves to the outside. -/
structure Choice where
  /-- The arm of a `select!`. -/
  arm : Arm
  wake : Wake
  /-- The head waiter is past its starvation threshold. -/
  starved : Bool
  /-- A weak exchange fails for no reason. -/
  spurious : Bool
  now : Nat

/-- Who runs a pass or a capacity change: a single call, or the dispatcher's loop. -/
inductive Driver
  | once
  | loop
deriving DecidableEq, Repr

/-- Where a pass over the queues is: whether it honours reservations, and the classes left. -/
structure Pass where
  /-- By priority, honouring reservations, or for starved heads. -/
  guarded : Bool
  left : List Class
deriving DecidableEq, Repr

/-- What follows the drop of a permit. -/
inductive After
  | done
  /-- The exit guard of a queued admission. -/
  | unguard
  /-- The end of a pass that has admitted a waiter. -/
  | passed (d : Driver)
deriving DecidableEq, Repr

/-- Where a process is. -/
inductive Process
  /-- `admit` was called. -/
  | admission (r : Request)
  /-- `try_acquire`, on the fast path or polling after a preemption. -/
  | acquire (r : Request) (polling : Bool) (a : Acquire)
  /-- `register_inflight`, with a slot. -/
  | register (r : Request)
  | preempt (r : Request)
  /-- `find_preemption_victim`. -/
  | seek (r : Request)
  /-- `try_mark_preempted`. -/
  | mark (r : Request) (victim : String)
  | cancelVictim (r : Request) (victim : String)
  /-- `wait_for_slot`: refused once more. -/
  | poll (r : Request)
  /-- `wait_for_slot` returned nothing. -/
  | afterPoll (r : Request)
  /-- `try_enqueue`. -/
  | enqueue (r : Request)
  /-- Queued, before the lost-wakeup guard. -/
  | nudge (r : Request)
  /-- In the `select!`. -/
  | waiting (r : Request)
  /-- The exit guard, before the waiter's token fires; with a permit or not. -/
  | unguard (r : Request) (permit : Bool)
  /-- The exit guard, before the notification. -/
  | kick (r : Request) (permit : Bool)
  | holding (r : Request)
  /-- `release_inflight`, before the removal from the registry. -/
  | remove (r : Request) (k : After)
  /-- `release_inflight`, in the release of the slot. -/
  | release (r : Request) (rel : Release) (k : After)
  /-- `release_inflight`, before the notification. -/
  | announce (r : Request) (k : After)
  /-- A client fires the token of its request. -/
  | cancelClient (id : String)
  | idle
  /-- A pass, before it drops the cancelled heads of the next class. -/
  | scan (d : Driver) (s : Pass)
  /-- A pass, before it looks at the head or the depth of a queue. -/
  | look (d : Driver) (s : Pass) (cls : Class)
  | take (d : Driver) (s : Pass) (cls : Class) (a : Acquire)
  /-- `send_to_head`, before it pops. -/
  | send (d : Driver) (s : Pass) (cls : Class)
  /-- `send_to_head`, with a waiter. -/
  | check (d : Driver) (s : Pass) (cls : Class) (id : String)
  /-- `send_to_head`, before the waiter is registered. -/
  | enlist (d : Driver) (r : Request)
  /-- `send_to_head`, before the permit is sent. -/
  | deliver (d : Driver) (r : Request)
  /-- A pass returns a slot nobody wanted. -/
  | giveBack (d : Driver) (s : Pass) (cls : Class) (rel : Release)
  /-- `apply_new_capacity`. -/
  | resize (d : Driver) (new : UInt16)
  /-- Growing: the reservations left to publish. -/
  | growReserved (d : Driver) (new : UInt16) (reserved : Lanes) (left : List Class)
  /-- Growing: before the capacity is published. -/
  | growCapacity (d : Driver) (new : UInt16)
  /-- Growing: before the notification. -/
  | growNotify (d : Driver)
  /-- Shrinking: before the capacity is published. -/
  | shrinkCapacity (d : Driver) (new : UInt16) (reserved : Lanes)
  /-- Shrinking: the reservations left to publish. -/
  | shrinkReserved (d : Driver) (reserved : Lanes) (left : List Class)
  /-- Returned; for an admission, whose. -/
  | finished (r : Option Request)

/-! ## Reservations -/

/-- Desired reservations at a capacity: the floor or the share, at most the capacity. -/
def desiredReservations (config : Class → ClassConfig) (capacity : UInt16) : Lanes := fun c =>
  UInt16.ofNat
    (min (max (config c).reservedFloor.toNat ((config c).share capacity)) capacity.toNat)

def totalOf (reserved : Lanes) : Nat := (Class.all.map fun c => (reserved c).toNat).sum

/-- Every class keeps the same fraction of what it asked for; if that still fills the pool, the
largest reservation, the highest class on a tie, gives one slot back. -/
def clampReservationsToCapacity (desired : Lanes) (capacity : UInt16) : Lanes :=
  if totalOf desired ≤ capacity.toNat then
    desired
  else
    let out : Lanes := fun c =>
      UInt16.ofNat ((desired c).toNat * capacity.toNat / totalOf desired)
    if capacity.toNat > 0 ∧ totalOf out ≥ capacity.toNat then
      match lastMax (fun c => (out c).toNat) Class.all with
      | some largest => update out largest (satSub (out largest) 1)
      | none => out
    else
      out

/-- The reservations `apply_new_capacity` publishes. -/
def newReservations (config : Class → ClassConfig) (capacity : UInt16) : Lanes :=
  let desired := desiredReservations config capacity
  if totalOf desired > capacity.toNat then clampReservationsToCapacity desired capacity else desired

namespace Sched

def new (config : Class → ClassConfig) (capacity : UInt16) : Option Sched :=
  let desired := desiredReservations config capacity
  if totalOf desired > capacity.toNat then
    none
  else
    some
      { config
        pool := SlotPool.new capacity desired
        queues := fun _ => []
        registry := ∅
        firstByte := fun _ => 0
        preempted := fun _ => false
        clientCancelled := fun _ => false
        waiterCancelled := fun _ => false
        receiverClosed := fun _ => false
        senderGone := fun _ => false
        sent := []
        notified := false }

def PREEMPTED_SENTINEL : UInt64 := 0xFFFFFFFFFFFFFFFF

def notifyOne (s : Sched) : Sched := { s with notified := true }

/-- The waiter's token, a child of the caller's, has fired. -/
def isCancelled (s : Sched) (id : String) : Bool := s.clientCancelled id || s.waiterCancelled id

def registerInflight (s : Sched) (r : Request) (now : Nat) : Sched :=
  { s with registry := s.registry.insert r.id { cls := r.cls, admittedAt := now } }

/-- The best victim: of the lowest class, the most recently admitted. -/
def findPreemptionVictim (s : Sched) (cls : Class) : Option String :=
  let eligible := s.registry.entries.filter fun e =>
    e.2.cls.rank < cls.rank ∧ s.firstByte e.1 = 0
  let rank : (Sigma fun _ : String => Handle) → Lex (Nat × Nat) := fun e =>
    toLex (3 - e.2.cls.rank, e.2.admittedAt)
  (lastMax rank eligible).map Sigma.fst

/-- Mark the first byte, unless it is marked or the request was preempted. -/
def tryMarkFirstByte (s : Sched) (id : String) (now : Nat) : Sched :=
  if s.firstByte id = 0 then
    { s with
      firstByte := update s.firstByte id
        (UInt64.ofNat (max 1 (min now (PREEMPTED_SENTINEL.toNat - 1)))) }
  else
    s

/-- Drop the leading cancelled waiters of a class, and their senders. -/
def dropCancelledHead (s : Sched) (cls : Class) : Sched :=
  let gone := (s.queues cls).takeWhile fun w => s.isCancelled w.id
  { s with
    queues := update s.queues cls ((s.queues cls).dropWhile fun w => s.isCancelled w.id)
    senderGone := fun id => s.senderGone id || gone.any fun w => w.id = id }

/-- Where a pass or a capacity change returns to. -/
def returnTo : Driver → Process
  | .once => .finished none
  | .loop => .idle

/-- The start of a pass: starved heads first, lowest class first. -/
def firstPass : Pass := { guarded := false, left := [.bulk, .default, .interactive] }

/-- The second half of a pass: highest class first. -/
def secondPass : Pass := { guarded := true, left := [.system, .interactive, .default, .bulk] }

/-- A pass that has admitted a waiter: the dispatcher drains on. -/
def passed : Driver → Process
  | .once => .finished none
  | .loop => .scan .loop firstPass

def after (r : Request) : After → Process
  | .done => .finished (some r)
  | .unguard => .unguard r false
  | .passed d => passed d

/-- One access of `admit` up to the queue. -/
def stepAdmit (s : Sched) (c : Choice) : Process → Sched × Process
  | .admission r => (s, .acquire r false .load)
  | .acquire r polling a =>
    let (pool, result) := stepAcquire s.pool r.cls true c.spurious a
    ({ s with pool },
      match result with
      | .inl a => .acquire r polling a
      | .inr true => .register r
      | .inr false => if polling then .poll r else .preempt r)
  | .register r => (s.registerInflight r c.now, .holding r)
  | .preempt r =>
    (s, if (s.config r.cls).canPreempt then
        if s.clientCancelled r.id then .finished (some r) else .seek r
      else .enqueue r)
  | .seek r =>
    (s, match s.findPreemptionVictim r.cls with
      | some victim => .mark r victim
      | none => .enqueue r)
  | .mark r victim =>
    if s.firstByte victim = 0 then
      ({ s with firstByte := update s.firstByte victim PREEMPTED_SENTINEL },
        .cancelVictim r victim)
    else
      (s, .enqueue r)
  | .cancelVictim r victim =>
    ({ s with preempted := update s.preempted victim true }, .acquire r true .load)
  | .poll r =>
    (s, match c.arm with
      | .timeout => .afterPoll r
      | .result => .acquire r true .load
      | .cancel => if s.clientCancelled r.id then .afterPoll r else .poll r
      | .drop => .finished (some r))
  | .afterPoll r => (s, if s.clientCancelled r.id then .finished (some r) else .enqueue r)
  | .enqueue r =>
    if (s.queues r.cls).length ≥ (s.config r.cls).queueSize then
      (s, .finished (some r))
    else
      ({ s with queues := update s.queues r.cls (s.queues r.cls ++ [r]) }, .nudge r)
  | p => (s, p)

/-- The receiver of a queued admission goes away, with the permit that may lie in its channel. -/
def closeReceiver (s : Sched) (r : Request) : Sched × Process :=
  ({ s with
      receiverClosed := update s.receiverClosed r.id true
      sent := s.sent.erase r },
    if r ∈ s.sent then .remove r .unguard else .unguard r false)

/-- One access of a queued admission, and of a permit. -/
def stepPermit (s : Sched) (c : Choice) : Process → Sched × Process
  | .nudge r => (s.notifyOne, .waiting r)
  | .waiting r =>
    match c.arm with
    | .result =>
      if r ∈ s.sent then
        ({ s with
            receiverClosed := update s.receiverClosed r.id true
            sent := s.sent.erase r }, .unguard r true)
      else if s.senderGone r.id then
        s.closeReceiver r
      else
        (s, .waiting r)
    | .timeout => s.closeReceiver r
    | .cancel => if s.clientCancelled r.id then s.closeReceiver r else (s, .waiting r)
    | .drop => s.closeReceiver r
  | .unguard r permit =>
    ({ s with waiterCancelled := update s.waiterCancelled r.id true }, .kick r permit)
  | .kick r permit => (s.notifyOne, if permit then .holding r else .finished (some r))
  | .holding r =>
    match c.arm with
    | .drop => (s, .remove r .done)
    | _ => (s.tryMarkFirstByte r.id c.now, .holding r)
  | .remove r k => ({ s with registry := s.registry.erase r.id }, .release r .load k)
  | .release r rel k =>
    let (pool, rest) := stepRelease s.pool r.cls c.spurious rel
    ({ s with pool },
      match rest with
      | some rel => .release r rel k
      | none => .announce r k)
  | .announce r k => (s.notifyOne, after r k)
  | .cancelClient id =>
    ({ s with clientCancelled := update s.clientCancelled id true }, .finished none)
  | p => (s, p)

def stepPass (s : Sched) (c : Choice) : Process → Sched × Process
  | .idle =>
    match c.wake with
    | .notified =>
      if s.notified then ({ s with notified := false }, .scan .loop firstPass) else (s, .idle)
    | .tick => (s, .scan .loop firstPass)
    | .capacity new => (s, .resize .loop new)
  | .scan d t =>
    match t.left with
    | [] => (s, if t.guarded then returnTo d else .scan d secondPass)
    | cls :: left => (s.dropCancelledHead cls, .look d { t with left } cls)
  | .look d t cls =>
    (s, if s.queues cls = [] then .scan d t
      else if t.guarded = false ∧ c.starved = false then .scan d t
      else .take d t cls .load)
  | .take d t cls a =>
    let (pool, result) := stepAcquire s.pool cls t.guarded c.spurious a
    ({ s with pool },
      match result with
      | .inl a => .take d t cls a
      | .inr true => .send d t cls
      | .inr false => .scan d t)
  | .send d t cls =>
    match s.queues cls with
    | [] => (s, .giveBack d t cls .load)
    | w :: rest =>
      ({ s with queues := update s.queues cls rest }, .check d t cls w.id)
  | .check d t cls id =>
    if s.receiverClosed id then
      ({ s with senderGone := update s.senderGone id true }, .send d t cls)
    else
      (s, .enlist d { id, cls })
  | .enlist d r => (s.registerInflight r c.now, .deliver d r)
  | .deliver d r =>
    if s.receiverClosed r.id then
      (s, .remove r (.passed d))
    else
      ({ s with sent := r :: s.sent }, passed d)
  | .giveBack d t cls rel =>
    let (pool, rest) := stepRelease s.pool cls c.spurious rel
    ({ s with pool },
      match rest with
      | some rel => .giveBack d t cls rel
      | none => .scan d t)
  | p => (s, p)

/-- One store of `set_reserved`. -/
def setReserved (s : Sched) (cls : Class) (reserved : Lanes) : Sched :=
  { s with pool.reserved := update s.pool.reserved cls (reserved cls) }

/-- One access of `apply_new_capacity`. -/
def stepResize (s : Sched) : Process → Sched × Process
  | .resize d new =>
    (s, if new = s.pool.capacity then returnTo d
      else if s.pool.capacity.toNat < new.toNat then
        .growReserved d new (newReservations s.config new) Class.all
      else .shrinkCapacity d new (newReservations s.config new))
  | .growReserved d new reserved left =>
    match left with
    | [] => (s, .growCapacity d new)
    | cls :: left => (s.setReserved cls reserved, .growReserved d new reserved left)
  | .growCapacity d new => ({ s with pool.capacity := new }, .growNotify d)
  | .growNotify d => (s.notifyOne, returnTo d)
  | .shrinkCapacity d new reserved =>
    ({ s with pool.capacity := new }, .shrinkReserved d reserved Class.all)
  | .shrinkReserved d reserved left =>
    match left with
    | [] => (s, returnTo d)
    | cls :: left => (s.setReserved cls reserved, .shrinkReserved d reserved left)
  | p => (s, p)

def step (s : Sched) (p : Process) (c : Choice) : Sched × Process :=
  match p with
  | .admission .. | .acquire .. | .register .. | .preempt .. | .seek .. | .mark .. |
    .cancelVictim .. |
    .poll .. | .afterPoll .. | .enqueue .. => s.stepAdmit c p
  | .nudge .. | .waiting .. | .unguard .. | .kick .. | .holding .. | .remove .. | .release .. |
    .announce .. | .cancelClient .. => s.stepPermit c p
  | .idle | .scan .. | .look .. | .take .. | .send .. | .check .. | .enlist .. | .deliver .. |
    .giveBack .. => s.stepPass c p
  | .resize .. | .growReserved .. | .growCapacity .. | .growNotify .. | .shrinkCapacity .. |
    .shrinkReserved .. => s.stepResize p
  | .finished r => (s, .finished r)

end Sched

/-- The calls that start a process. -/
inductive Call
  | admission (r : Request)
  | cancel (id : String)
  /-- A single `wake_next_waiter`. -/
  | wake
  /-- A single `apply_new_capacity`. -/
  | resize (new : UInt16)
  | dispatcher

/-- Admissions, permits, passes, capacity changes and the dispatcher over one scheduler. -/
def scheduler : Interleave.Program Sched Process Choice Call where
  start
    | .admission r => .admission r
    | .cancel id => .cancelClient id
    | .wake => .scan .once Sched.firstPass
    | .resize new => .resize .once new
    | .dispatcher => .idle
  next := Sched.step

end Smg.Scheduler
