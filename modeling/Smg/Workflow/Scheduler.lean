import Mathlib.Algebra.Ring.Nat
import Smg.Lib.Trace
import Smg.Lib.Unordered
import Smg.Workflow.Definition

/-!
# The scheduler of one workflow

One task runs `execute_workflow`: a loop that finds the steps that may run, launches each on a task
of its own and waits for one of them to report.  What they share is a tracker behind a lock, the
sets of steps by what has become of them, and a bounded channel on which a step that is done names
itself.  The scheduler never looks at all steps: it checks a step when a message says that one of
its dependencies is done, and forgets the check when it fails.

`Instance.exec` is the system the scheduler is part of.  Its actions are what runs without another
task in between: one move of the scheduler, from one access of the shared state to the next; the
end of a step's task, which `settle` makes one move; a cancellation, and the removal of a workflow
that has ended.  Where the scheduler is between two moves is its `Pc`.  The clocks it reads and the
order a hash map is iterated in come with the action, so a run may have any.

`launched` and `refused` are not part of the source: they record which steps were given a task, in
order, and which messages the channel did not take.

Durations are counted in nanoseconds.  Adding to one may overflow, and the scheduler's task then
dies (`Pc.panicked`).  The time a sleep takes, the events published and the state of each step that
is kept beside the status of the workflow decide nothing here and are left out.
-/

set_option autoImplicit false

namespace Smg.Workflow

/-- What came of a step. -/
inductive StepResult
  | success
  | failure
  | skip
  deriving DecidableEq, Repr

/-- Step execution status. -/
inductive StepStatus
  | pending
  | running
  | succeeded
  | failed
  | retrying
  | skipped
  deriving DecidableEq, Repr

/-- Workflow execution status. -/
inductive WorkflowStatus
  | pending
  | running
  | paused
  | completed
  | failed
  | cancelled
  deriving DecidableEq, Repr

/-! ## How a step reports -/

/-- The verdict of a step's condition, read before the step runs. -/
inductive Gate
  /-- No condition, or the condition held. -/
  | run
  | skip
  /-- The context the condition reads could not be loaded. -/
  | fail (error : String)

/-- How a finished step reports itself: the signal its dependents get, and the step state to write
after the tracker lock is released, on the paths that owe one. -/
structure Completion where
  signal : StepResult
  state : Option (StepStatus × Option String)

namespace Completion

/-- The step's own result folded with its failure action; `none` is an error of the engine. -/
def of (result : Option StepResult) (onFailure : FailureAction) : Completion :=
  match result with
  | some .success => ⟨.success, none⟩
  | some .skip => ⟨.skip, none⟩
  | some .failure | none =>
    match onFailure with
    | .failWorkflow | .retryIndefinitely => ⟨.failure, none⟩
    | .continueNextStep => ⟨.skip, some (.skipped, none)⟩

def skipped : Completion := ⟨.skip, some (.skipped, none)⟩

/-- A step that failed before it ran, with the reason for its state. -/
def failed (error : String) : Completion := ⟨.failure, some (.failed, some error)⟩

def ofStep (s : StepDefinition) (gate : Gate) (result : Option StepResult) : Completion :=
  match gate with
  | .run => of result s.onFailure
  | .skip => skipped
  | .fail error => failed error

end Completion

/-! ## The tracker -/

/-- The steps by what has become of them. -/
structure StepTracker (d : WorkflowDefinition) where
  completed : Finset StepId := ∅
  failed : Finset StepId := ∅
  skipped : Finset StepId := ∅
  running : Finset StepId := ∅
  /-- When the steps waiting for their delay or schedule are ready. -/
  waitingUntil : Table d.Idx Nat := ∅

namespace StepTracker

variable {d : WorkflowDefinition} (t : StepTracker d)

def totalProcessed : Nat := t.completed.card + t.failed.card + t.skipped.card

def isStepProcessable (i : d.Idx) : Bool :=
  d.idOf i ∉ t.completed && d.idOf i ∉ t.failed && d.idOf i ∉ t.skipped && d.idOf i ∉ t.running &&
    !(t.waitingUntil.lookup i).isSome

/-- The waiting steps that are ready at `now`. -/
def getReadyWaitingIndices (now : Nat) : List d.Idx :=
  t.waitingUntil.entries.filterMap fun e => if e.2 ≤ now then some e.1 else none

def setWaiting (i : d.Idx) (readyAt : Nat) : StepTracker d :=
  { t with waitingUntil := t.waitingUntil.insert i readyAt }

def clearWaiting (i : d.Idx) : StepTracker d :=
  { t with waitingUntil := t.waitingUntil.erase i }

def areDependenciesSatisfied (dependsOn : List StepId) : Bool :=
  dependsOn.all fun dep => dep ∈ t.completed || dep ∈ t.skipped

/-- There are no dependencies, or one is completed or skipped. -/
def isAnyDependencySatisfied (dependsOnAny : List StepId) : Bool :=
  dependsOnAny.isEmpty || dependsOnAny.any fun dep => dep ∈ t.completed || dep ∈ t.skipped

def hasFailedDependency (dependsOn : List StepId) : Bool :=
  dependsOn.any fun dep => dep ∈ t.failed

def haveAllAnyDepsFailed (dependsOnAny : List StepId) : Bool :=
  !dependsOnAny.isEmpty && dependsOnAny.all fun dep => dep ∈ t.failed

/-- A step leaves `running` for the set its signal names. -/
def settle (id : StepId) (signal : StepResult) : StepTracker d :=
  let t := { t with running := t.running.erase id }
  match signal with
  | .success => { t with completed := insert id t.completed }
  | .skip => { t with skipped := insert id t.skipped }
  | .failure => { t with failed := insert id t.failed }

end StepTracker

/-! ## One pass over what may be ready -/

abbrev Message := StepId × StepResult

/-- What a move of the scheduler reads from outside: the monotonic clock, the wall clock each time
it is asked, and the order a hash map is iterated in. -/
structure Reading (d : WorkflowDefinition) where
  now : Nat
  utc : Nat → Int
  order : Shuffle d.Idx

/-- What the scheduler reads off the tracker at the top of an iteration. -/
structure ReadyScan (d : WorkflowDefinition) where
  waitReady : List d.Idx
  /-- Steps whose dependencies are satisfied, from the pending checks. -/
  depsReady : List d.Idx
  totalProcessed : Nat
  running : Nat
  waiting : Nat

variable {d : WorkflowDefinition}

/-- A pending check passes: nothing has become of the step yet and its dependencies allow it. -/
def passesCheck (t : StepTracker d) (i : d.Idx) : Bool :=
  t.isStepProcessable i && t.areDependenciesSatisfied (d.step i).dependsOn &&
    t.isAnyDependencySatisfied (d.step i).dependsOnAny &&
    !t.hasFailedDependency (d.step i).dependsOn &&
    !t.haveAllAnyDepsFailed (d.step i).dependsOnAny

/-- The steps ready to run or wait, and the counts the blocked verdict reads.  The pending checks
are used up. -/
def scanReady (r : Reading d) (t : StepTracker d) (pendingCheck : List d.Idx) : ReadyScan d where
  waitReady := r.order.fn (t.getReadyWaitingIndices r.now)
  depsReady := pendingCheck.filter (passesCheck t)
  totalProcessed := t.totalProcessed
  running := t.running.card
  waiting := t.waitingUntil.keys.length

/-- A step that succeeded or was skipped puts its dependents up for a check. -/
def enqueueDependents (message : Message) (pendingCheck : List d.Idx) : List d.Idx :=
  match message.2 with
  | .success | .skip => pendingCheck ++ d.getDependentIndices message.1
  | .failure => pendingCheck

/-- The longest duration there is: 64 bits of seconds, and the nanoseconds below one. -/
def durationMax : Nat := 2 ^ 64 * 10 ^ 9 - 1

/-- The last point of the monotonic clock: 63 bits of seconds. -/
def instantMax : Nat := 2 ^ 63 * 10 ^ 9 - 1

def checkedAdd (limit a b : Nat) : Option Nat := if a + b ≤ limit then some (a + b) else none

/-- How long until the scheduled time of a step, if that is still to come. -/
def scheduleWait (s : StepDefinition) (now : Int) : Option Nat :=
  s.scheduledAt.bind fun time => if now < time then some (time - now).toNat else none

/-- How long a step needs to wait for its delay and its schedule, if it has any; the outer `none`
is an overflow. -/
def calculateWaitDuration (s : StepDefinition) (now : Int) : Option (Option Nat) :=
  match s.delay, scheduleWait s now with
  | some delay, some schedule => (checkedAdd durationMax delay schedule).map some
  | some delay, none => some (some delay)
  | none, some schedule => some (some schedule)
  | none, none => some none

/-- The second phase of an iteration at work. -/
structure Scheduling (d : WorkflowDefinition) where
  tracker : StepTracker d
  seen : Finset d.Idx := ∅
  ready : List d.Idx := []
  addedToWaiting : Nat := 0

namespace Scheduling

variable (p : Scheduling d)

def launch (i : d.Idx) : Scheduling d :=
  if i ∈ p.seen then p else { p with seen := insert i p.seen, ready := p.ready ++ [i] }

/-- A step whose dependencies are satisfied waits or launches, by what the wall clock says when it
is its turn. -/
def place (now : Nat) (utc : Int) (i : d.Idx) : Option (Scheduling d) :=
  match calculateWaitDuration (d.step i) utc with
  | none => none
  | some none => some (p.launch i)
  | some (some duration) =>
    if 0 < duration then
      (checkedAdd instantMax now duration).map fun readyAt =>
        { p with tracker := p.tracker.setWaiting i readyAt, addedToWaiting := p.addedToWaiting + 1 }
    else some (p.launch i)

/-- Each step in turn; the wall clock is asked anew for each. -/
def placeAll (now : Nat) (utc : Nat → Int) : Nat → List d.Idx → Scheduling d →
    Option (Scheduling d)
  | _, [], p => some p
  | k, i :: is, p =>
    match p.place now (utc k) i with
    | none => none
    | some p' => placeAll now utc (k + 1) is p'

end Scheduling

/-- The steps that launch now, and how many went to wait for their delay or schedule instead. -/
def scheduleReady (r : Reading d) (t : StepTracker d) (scan : ReadyScan d) :
    Option (Scheduling d) :=
  let cleared := scan.waitReady.foldl StepTracker.clearWaiting t
  let begun := scan.waitReady.foldl Scheduling.launch { tracker := cleared }
  begun.placeAll r.now r.utc 0 scan.depsReady

/-! ## The scheduler's task -/

/-- Where the scheduler is. -/
inductive Pc (d : WorkflowDefinition)
  /-- About to ask whether the workflow was cancelled. -/
  | top
  /-- Taking the completions the channel holds. -/
  | drain
  | scan
  /-- About to write the tracker, with what was read. -/
  | schedule (scan : ReadyScan d)
  /-- About to mark the steps that launch as running. -/
  | mark (ready : List d.Idx)
  /-- Launching these steps; whether there were any. -/
  | spawn (rest : List d.Idx) (tasksLaunched : Bool)
  /-- About to look whether something runs or waits. -/
  | look (tasksLaunched : Bool)
  | recv
  /-- Sleeping until a step is ready. -/
  | sleep
  /-- Nothing is ready, runs or waits: taking the completions that came meanwhile. -/
  | redrain (drained : Bool)
  | blocked
  | finish
  /-- About to write the final status. -/
  | write (status : WorkflowStatus)
  | done
  | panicked

/-- The tasks of one workflow and what they share. -/
structure Run (d : WorkflowDefinition) where
  tracker : StepTracker d := {}
  channel : List Message := []
  pendingCheck : List d.Idx
  /-- The steps whose task has not settled. -/
  tasks : List d.Idx := []
  pc : Pc d := .top
  /-- The steps launched so far, in order. -/
  launched : List d.Idx := []
  /-- The messages the channel did not take. -/
  refused : List Message := []

namespace Run

/-- A fresh scheduler: the steps without dependencies are up for a check. -/
def start (d : WorkflowDefinition) : Run d := { pendingCheck := d.getInitialStepIndices }

variable (run : Run d)

/-- The receiver of the channel lives as long as the scheduler. -/
def closed : Bool :=
  match run.pc with
  | .done | .panicked => true
  | _ => false

/-- The channel takes a message while it is open and has fewer than there are steps. -/
def send (message : Message) : Run d :=
  if !run.closed && run.channel.length < max d.steps.length 1 then
    { run with channel := run.channel ++ [message] }
  else { run with refused := run.refused ++ [message] }

/-- The end of a step's task: the step leaves `running` and its dependents are told, in one lock
scope. -/
def settle (i : d.Idx) (gate : Gate) (result : Option StepResult) : Run d :=
  if i ∈ run.tasks then
    let signal := (Completion.ofStep (d.step i) gate result).signal
    { run with
      tasks := run.tasks.erase i
      tracker := run.tracker.settle (d.idOf i) signal }.send (d.idOf i, signal)
  else run

/-- Take a completion and put up for a check what it unblocks. -/
def take (message : Message) (rest : List Message) : Run d :=
  { run with
    channel := rest
    pendingCheck := enqueueDependents message run.pendingCheck }

/-- Where a pass leads: to the end, to the blocked test or to the launches. -/
def verdict (scan : ReadyScan d) (p : Scheduling d) (pendingCheck : List d.Idx) : Pc d :=
  if scan.totalProcessed = d.steps.length then .finish
  else if p.ready = [] ∧ scan.running = 0 ∧ scan.waiting + p.addedToWaiting = 0 ∧
      pendingCheck = [] then .redrain false
  else .mark p.ready

/-- One move of the scheduler; `stored` is the status the store has for the workflow. -/
def advance (r : Reading d) (stored : Option WorkflowStatus) : Run d :=
  match run.pc with
  | .top =>
    match stored with
    | none | some .cancelled => { run with pc := .done }
    | some _ => { run with pc := .drain }
  | .drain =>
    match run.channel with
    | [] => { run with pc := .scan }
    | message :: rest => run.take message rest
  | .scan =>
    { run with pendingCheck := [], pc := .schedule (scanReady r run.tracker run.pendingCheck) }
  | .schedule scan =>
    match scheduleReady r run.tracker scan with
    | none => { run with pc := .panicked }
    | some p => { run with tracker := p.tracker, pc := verdict scan p run.pendingCheck }
  | .mark ready =>
    { run with
      tracker :=
        { run.tracker with running := run.tracker.running ∪ (ready.map d.idOf).toFinset }
      pc := .spawn ready (!ready.isEmpty) }
  | .spawn [] tasksLaunched => { run with pc := .look tasksLaunched }
  | .spawn (i :: rest) tasksLaunched =>
    { run with
      tasks := run.tasks ++ [i]
      launched := run.launched ++ [i]
      pc := .spawn rest tasksLaunched }
  | .look tasksLaunched =>
    if tasksLaunched ∨ run.tracker.running ≠ ∅ then { run with pc := .recv }
    else if run.tracker.waitingUntil.keys ≠ [] then { run with pc := .sleep }
    else { run with pc := .top }
  | .recv =>
    match run.channel with
    | [] => run
    | message :: rest => { run.take message rest with pc := .top }
  | .sleep => { run with pc := .top }
  | .redrain drained =>
    match run.channel with
    | [] => { run with pc := if drained then .top else .blocked }
    | message :: rest => { run.take message rest with pc := .redrain true }
  | .blocked => { run with pc := .write .failed }
  | .finish =>
    { run with pc := .write (if run.tracker.failed = ∅ then .completed else .failed) }
  | .write _ => { run with pc := .done }
  | .done | .panicked => run

/-- What a move of the scheduler leaves of the stored status: a final status is written over
whatever is stored. -/
def stores (stored : Option WorkflowStatus) : Option WorkflowStatus :=
  match run.pc with
  | .write status => stored.map fun _ => status
  | _ => stored

end Run

/-! ## The instance -/

/-- One workflow: its tasks, and its status while it is stored. -/
structure Instance (d : WorkflowDefinition) where
  run : Run d
  status : Option WorkflowStatus

/-- What can happen to a workflow. -/
inductive Action (d : WorkflowDefinition)
  | sched (r : Reading d)
  | settle (i : d.Idx) (gate : Gate) (result : Option StepResult)
  | cancel
  /-- A workflow that has ended is removed from the store. -/
  | cleanup

def WorkflowStatus.isTerminal : WorkflowStatus → Bool
  | .completed | .failed | .cancelled => true
  | .pending | .running | .paused => false

def cancelStatus (stored : Option WorkflowStatus) : Option WorkflowStatus :=
  stored.map fun _ => .cancelled

def cleanupStatus (stored : Option WorkflowStatus) : Option WorkflowStatus :=
  stored.filter fun status => !status.isTerminal

namespace Instance

def start (d : WorkflowDefinition) : Instance d := ⟨.start d, some .running⟩

def exec (x : Instance d) : Action d → Instance d
  | .sched r => ⟨x.run.advance r x.status, x.run.stores x.status⟩
  | .settle i gate result => { x with run := x.run.settle i gate result }
  | .cancel => { x with status := cancelStatus x.status }
  | .cleanup => { x with status := cleanupStatus x.status }

end Instance

end Smg.Workflow
