import Smg.Workflow.Scheduler

/-!
# Cancelling workflows

The engine runs any number of workflows over one store of statuses.  A cancellation writes
`cancelled` over whatever is stored, and the scheduler of a workflow asks for it once per iteration,
at the top; what it writes at the end of the workflow it writes without asking again.

So whether a status that ends a workflow is final depends on when the cancellation comes.  Between
the question and the end of the iteration the scheduler is `Pc.committed`: it may have nothing left
to do but write a final status.  A cancellation then is acknowledged and overwritten
(`completed_after_cancelled`), and one that comes after the end overwrites the result.  In every run
whose cancellations come at other times, statuses that end a workflow are final
(`terminal_absorbing`).

## What is here

* `Engine`, `Engine.exec`: workflows are registered, started, run, cancelled one by one or all at
  once, and removed.  Cancelling all is a list of the active workflows and then one cancellation
  after the other, with anything in between.
* `Consistent`: of one workflow, that a final status leaves the scheduler nothing to write; kept by
  every action (`Consistent.exec`).
* `EngineInv`, `terminal_absorbing`.

Counting the active workflows, which only a shutdown waits for, is left out.
-/

set_option autoImplicit false

namespace Smg.Workflow

abbrev WorkflowId := String

/-- A started workflow; each start takes a fresh one. -/
abbrev InstanceId := Nat

/-- The engine: what is registered, the stored statuses, and the tasks of every workflow that was
started. -/
structure Engine where
  definitions : Table WorkflowId WorkflowDefinition := ∅
  store : Table InstanceId WorkflowStatus := ∅
  runs : Table InstanceId (Σ d : WorkflowDefinition, Run d) := ∅
  nextId : InstanceId := 0
  shuttingDown : Bool := false
  /-- For each call that cancels all workflows, those it has still to cancel. -/
  sweeps : List (List InstanceId) := []

/-- What can happen to an engine. -/
inductive EngineAction
  | registerWorkflow (id : WorkflowId) (definition : WorkflowDefinition)
  | shutdown
  | startWorkflow (id : WorkflowId)
  /-- The scheduler of a workflow makes a move. -/
  | sched (i : InstanceId) (r : (d : WorkflowDefinition) → Reading d)
  | settle (i : InstanceId) (step : Nat) (gate : Gate) (result : Option StepResult)
  | cancelWorkflow (i : InstanceId)
  /-- A call that cancels all workflows lists the active ones. -/
  | forceCancelAll (order : Shuffle InstanceId)
  /-- Such a call cancels the next one. -/
  | forceCancelNext (call : Nat)
  /-- A workflow that has ended is removed. -/
  | cleanup (i : InstanceId)

namespace Engine

variable (e : Engine)

def act (i : InstanceId) (f : (d : WorkflowDefinition) → Option (Action d)) : Engine :=
  match e.runs.lookup i with
  | none => e
  | some ⟨d, run⟩ =>
    match f d with
    | none => e
    | some a =>
      let x := (Instance.mk run (e.store.lookup i)).exec a
      { e with
        runs := e.runs.insert i ⟨d, x.run⟩
        store := match x.status with
          | some status => e.store.insert i status
          | none => e.store.erase i }

def listActive : List InstanceId :=
  e.store.entries.filterMap fun entry =>
    match entry.2 with
    | .running | .pending => some entry.1
    | _ => none

def exec : EngineAction → Engine
  | .registerWorkflow id definition =>
    match definition.validate with
    | some (.ok d) => { e with definitions := e.definitions.insert id d }
    | _ => e
  | .shutdown => { e with shuttingDown := true }
  | .startWorkflow id =>
    if e.shuttingDown then e
    else
      match e.definitions.lookup id with
      | none => e
      | some d =>
        { e with
          store := e.store.insert e.nextId .running
          runs := e.runs.insert e.nextId ⟨d, .start d⟩
          nextId := e.nextId + 1 }
  | .sched i r => e.act i fun d => some (.sched (r d))
  | .settle i step gate result =>
    e.act i fun d => if h : step < d.steps.length then some (.settle ⟨step, h⟩ gate result)
    else none
  | .cancelWorkflow i => e.act i fun _ => some .cancel
  | .forceCancelAll order => { e with sweeps := e.sweeps ++ [order.fn e.listActive] }
  | .forceCancelNext call =>
    match e.sweeps[call]? with
    | some (i :: rest) =>
      { e with sweeps := e.sweeps.set call rest }.act i fun _ => some .cancel
    | _ => e
  | .cleanup i => e.act i fun _ => some .cleanup

end Engine

/-! ## One workflow -/

variable {d : WorkflowDefinition}

/-- Between the question whether the workflow was cancelled and the end of the iteration. -/
def Pc.committed : Pc d → Bool
  | .drain | .scan | .schedule _ | .redrain _ | .blocked | .finish | .write _ => true
  | .top | .mark _ | .spawn _ _ | .look _ | .recv | .sleep | .done | .panicked => false

/-- A final status leaves the scheduler nothing to write: it is not past the question in this
iteration, and has returned unless the status is `cancelled`. -/
def Consistent (x : Instance d) : Prop :=
  ∀ status, x.status = some status → status.isTerminal →
    x.run.pc.committed = false ∧ (status ≠ .cancelled → x.run.pc = .done)

/-- The workflow may be cancelled: it is not stored, is cancelled already, or has not ended and its
scheduler will ask again before it writes. -/
def Instance.MayCancel (x : Instance d) : Prop :=
  ∀ status, x.status = some status →
    status = .cancelled ∨ status.isTerminal = false ∧ x.run.pc.committed = false

theorem pc_settle (run : Run d) (i : d.Idx) (gate : Gate) (result : Option StepResult) :
    (run.settle i gate result).pc = run.pc := by
  rw [Run.settle]
  split
  · rw [Run.send]
    split <;> rfl
  · rfl

/-- A scheduler that is not past the question, with a cancelled workflow, stays so. -/
theorem committed_advance {run : Run d} (r : Reading d) (h : run.pc.committed = false) :
    (run.advance r (some .cancelled)).pc.committed = false := by
  cases hpc : run.pc with
  | spawn rest b => cases rest <;> simp only [Run.advance, hpc] <;> rfl
  | look b =>
    simp only [Run.advance, hpc]
    split
    · rfl
    · split <;> rfl
  | recv =>
    simp only [Run.advance, hpc]
    split
    · exact h
    · rfl
  | top | mark ready | sleep => simp only [Run.advance, hpc]; rfl
  | done | panicked => simp only [Run.advance, hpc]; rfl
  | drain | scan | schedule scan | redrain drained | blocked | finish | write status =>
    simp [hpc, Pc.committed] at h

variable {x : Instance d} {status : WorkflowStatus}

theorem Consistent.stores (hx : Consistent x) (hst : x.status = some status)
    (hterm : status.isTerminal) : x.run.stores x.status = some status := by
  rw [Run.stores]
  split
  · rename_i st hpc
    have hc := (hx status hst hterm).1
    simp [hpc, Pc.committed] at hc
  · exact hst

theorem Consistent.sched (hx : Consistent x) (r : Reading d) : Consistent (x.exec (.sched r)) := by
  intro status hst hterm
  by_cases hwrite : ∃ st, x.run.pc = .write st
  · obtain ⟨st, hpc⟩ := hwrite
    have hpc' : (x.run.advance r x.status).pc = .done := by simp [Run.advance, hpc]
    rw [Instance.exec, hpc']
    exact ⟨rfl, fun _ => rfl⟩
  · have hsame : x.run.stores x.status = x.status := by
      rw [Run.stores]
      split
      · rename_i st hpc
        exact absurd ⟨st, hpc⟩ hwrite
      · rfl
    simp only [Instance.exec, hsame] at hst ⊢
    obtain ⟨hc, hdone⟩ := hx status hst hterm
    by_cases hcan : status = .cancelled
    · subst hcan
      rw [hst]
      exact ⟨committed_advance r hc, fun h => absurd rfl h⟩
    · have hadv : (x.run.advance r x.status).pc = .done := by
        simp [Run.advance, hdone hcan]
      rw [hadv]
      exact ⟨rfl, fun _ => rfl⟩

/-- **Every action of a workflow that is cancelled in time keeps it consistent.** -/
theorem Consistent.exec (hx : Consistent x) {a : Action d} (ha : a = .cancel → x.MayCancel) :
    Consistent (x.exec a) := by
  cases a with
  | sched r => exact hx.sched r
  | settle i gate result =>
    intro status hst hterm
    simp only [Instance.exec, pc_settle]
    exact hx status hst hterm
  | cancel =>
    intro status hst hterm
    obtain ⟨st, hst', rfl⟩ := Option.map_eq_some_iff.mp hst
    refine ⟨?_, fun h => absurd rfl h⟩
    rcases ha rfl st hst' with rfl | ⟨-, hc⟩
    · exact (hx _ hst' rfl).1
    · exact hc
  | cleanup =>
    intro status hst hterm
    obtain ⟨-, hnot⟩ := Option.filter_eq_some_iff.mp hst
    exact absurd hterm (by simpa using hnot)

/-- **A final status stays, or the workflow is removed.** -/
theorem Consistent.status_exec (hx : Consistent x) {a : Action d} (ha : a = .cancel → x.MayCancel)
    (hst : x.status = some status) (hterm : status.isTerminal) :
    (x.exec a).status = some status ∨ (x.exec a).status = none := by
  cases a with
  | sched r => exact .inl (hx.stores hst hterm)
  | settle i gate result => exact .inl hst
  | cancel =>
    rcases ha rfl status hst with rfl | ⟨hn, -⟩
    · exact .inl (by simp [Instance.exec, cancelStatus, hst])
    · simp [hterm] at hn
  | cleanup => exact .inr (by simp [Instance.exec, cleanupStatus, hst, hterm])

/-! ## The engine -/

namespace Engine

def mayCancel (e : Engine) (i : InstanceId) : Bool :=
  match e.store.lookup i, e.runs.lookup i with
  | none, _ | some .cancelled, _ => true
  | some status, some ⟨_, run⟩ => !status.isTerminal && !run.pc.committed
  | some _, none => false

/-- A cancellation, of one workflow or as part of cancelling all, comes when it may. -/
def Timely (e : Engine) : EngineAction → Prop
  | .cancelWorkflow i => e.mayCancel i = true
  | .forceCancelNext call => ∀ i rest, e.sweeps[call]? = some (i :: rest) → e.mayCancel i = true
  | _ => True

/-- What is stored was started, ids are fresh, and every workflow is consistent. -/
structure EngineInv (e : Engine) : Prop where
  fresh : ∀ i, e.nextId ≤ i → e.runs.lookup i = none
  stored : ∀ i, e.runs.lookup i = none → e.store.lookup i = none
  consistent : ∀ i d run, e.runs.lookup i = some ⟨d, run⟩ →
    Consistent ⟨run, e.store.lookup i⟩

theorem mayCancel_iff {e : Engine} {i : InstanceId} {run : Run d}
    (hr : e.runs.lookup i = some ⟨d, run⟩) (h : e.mayCancel i = true) :
    Instance.MayCancel ⟨run, e.store.lookup i⟩ := by
  intro status hst
  simp only at hst
  rw [mayCancel] at h
  cases status <;> simp_all [WorkflowStatus.isTerminal]

variable {e : Engine} {i : InstanceId} {f : (d : WorkflowDefinition) → Option (Action d)}

/-- What is known after something happened to one workflow: of it, what its own action gives; of the
others, nothing changed. -/
theorem act_cases (e : Engine) (i : InstanceId)
    (f : (d : WorkflowDefinition) → Option (Action d)) :
    e.act i f = e ∨ ∃ d run a, e.runs.lookup i = some ⟨d, run⟩ ∧ f d = some a ∧
      (e.act i f).nextId = e.nextId ∧
      (∀ j, (e.act i f).runs.lookup j = if j = i then
        some ⟨d, ((Instance.mk run (e.store.lookup i)).exec a).run⟩ else e.runs.lookup j) ∧
      ∀ j, (e.act i f).store.lookup j = if j = i then
        ((Instance.mk run (e.store.lookup i)).exec a).status else e.store.lookup j := by
  rw [act]
  rcases hr : e.runs.lookup i with _ | ⟨d, run⟩
  · exact .inl rfl
  rcases hf : f d with _ | a
  · simp only [hf, true_or]
  · refine .inr ⟨d, run, a, rfl, hf, ?_⟩
    simp only [hf]
    refine ⟨trivial, fun j => Table.lookup_insert_if _ _ _ _, fun j => ?_⟩
    rcases ((Instance.mk run (e.store.lookup i)).exec a).status with _ | status
    · exact Table.lookup_erase_if _ _ _
    · exact Table.lookup_insert_if _ _ _ _

theorem EngineInv.act (he : EngineInv e)
    (hf : ∀ d run, e.runs.lookup i = some ⟨d, run⟩ → f d = some .cancel →
      Instance.MayCancel ⟨run, e.store.lookup i⟩) : EngineInv (e.act i f) := by
  rcases act_cases e i f with h | ⟨d, run, a, hr, hfa, hn, hruns, hstore⟩
  · rw [h]
    exact he
  have hx := (he.consistent i d run hr).exec fun ha => hf d run hr (ha ▸ hfa)
  refine ⟨fun j hj => ?_, fun j hj => ?_, fun j d' run' hj => ?_⟩
  · rw [hn] at hj
    have hnone := he.fresh j hj
    have hji : j ≠ i := fun h => by
      rw [h, hr] at hnone
      cases hnone
    rw [hruns, if_neg hji]
    exact hnone
  · rw [hruns] at hj
    by_cases hji : j = i
    · simp [hji] at hj
    · rw [if_neg hji] at hj
      rw [hstore, if_neg hji]
      exact he.stored j hj
  · rw [hruns] at hj
    rw [hstore]
    by_cases hji : j = i
    · rw [if_pos hji] at hj
      obtain ⟨rfl, hrun⟩ := Sigma.mk.inj (Option.some.inj hj)
      rw [if_pos hji, ← eq_of_heq hrun]
      exact hx
    · rw [if_neg hji] at hj
      rw [if_neg hji]
      exact he.consistent j d' run' hj

variable {a : EngineAction}

/-- What an action may do to the engine: nothing to its workflows, something to one of them that may
be cancelled if that is what happens, or the start of a fresh one. -/
theorem exec_cases (e : Engine) (ha : e.Timely a) :
    ((e.exec a).runs = e.runs ∧ (e.exec a).store = e.store ∧ (e.exec a).nextId = e.nextId) ∨
    (∃ i f, (∀ d, f d = some .cancel → e.mayCancel i = true) ∧
      (e.exec a).runs = (e.act i f).runs ∧ (e.exec a).store = (e.act i f).store ∧
      (e.exec a).nextId = (e.act i f).nextId) ∨
    ∃ d, (e.exec a).store = e.store.insert e.nextId .running ∧
      (e.exec a).runs = e.runs.insert e.nextId ⟨d, .start d⟩ ∧
      (e.exec a).nextId = e.nextId + 1 := by
  cases a with
  | registerWorkflow id definition =>
    rw [exec]
    split <;> exact .inl ⟨rfl, rfl, rfl⟩
  | shutdown => exact .inl ⟨rfl, rfl, rfl⟩
  | startWorkflow id =>
    rw [exec]
    split
    · exact .inl ⟨rfl, rfl, rfl⟩
    · split
      · exact .inl ⟨rfl, rfl, rfl⟩
      · exact .inr (.inr ⟨_, rfl, rfl, rfl⟩)
  | sched i r => exact .inr (.inl ⟨i, _, fun d h => by simp at h, rfl, rfl, rfl⟩)
  | settle i step gate result =>
    refine .inr (.inl ⟨i, _, fun d h => ?_, rfl, rfl, rfl⟩)
    by_cases hs : step < d.steps.length <;> simp [hs] at h
  | cancelWorkflow i => exact .inr (.inl ⟨i, _, fun _ _ => ha, rfl, rfl, rfl⟩)
  | forceCancelAll order => exact .inl ⟨rfl, rfl, rfl⟩
  | forceCancelNext call =>
    rcases hs : e.sweeps[call]? with _ | _ | ⟨i, rest⟩
    · exact .inl (by simp [exec, hs])
    · exact .inl (by simp [exec, hs])
    · refine .inr (.inl ⟨i, fun _ => some .cancel, fun _ _ => ha i rest hs, ?_⟩)
      simp only [exec, hs, act]
      split <;> exact ⟨rfl, rfl, rfl⟩
  | cleanup i => exact .inr (.inl ⟨i, _, fun d h => by simp at h, rfl, rfl, rfl⟩)

theorem EngineInv.congr {e' : Engine} (he : EngineInv e) (hr : e'.runs = e.runs)
    (hs : e'.store = e.store) (hn : e'.nextId = e.nextId) : EngineInv e' := by
  refine ⟨fun i hi => ?_, fun i hi => ?_, fun i d run hi => ?_⟩
  · rw [hr]
    exact he.fresh i (hn ▸ hi)
  · rw [hs]
    exact he.stored i (hr ▸ hi)
  · rw [hs]
    exact he.consistent i d run (hr ▸ hi)

theorem engineInv_new : EngineInv {} :=
  ⟨fun _ _ => rfl, fun _ _ => rfl, fun i d run h => by simp at h⟩

/-- **Every action keeps the workflows consistent**, if cancellations come in time. -/
theorem EngineInv.exec (he : EngineInv e) (ha : e.Timely a) : EngineInv (e.exec a) := by
  rcases exec_cases e ha with ⟨hr, hs, hn⟩ | ⟨i, f, hf, hr, hs, hn⟩ | ⟨d, hs, hr, hn⟩
  · exact he.congr hr hs hn
  · exact (he.act fun d run hrun hc => mayCancel_iff hrun (hf d hc)).congr hr hs hn
  · refine ⟨fun i hi => ?_, fun i hi => ?_, fun i d' run hi => ?_⟩
    · rw [hn] at hi
      rw [hr, Table.lookup_insert_if, if_neg (ne_of_gt hi)]
      exact he.fresh i (Nat.le_of_succ_le hi)
    · rw [hr, Table.lookup_insert_if] at hi
      rw [hs, Table.lookup_insert_if]
      by_cases hin : i = e.nextId
      · simp [hin] at hi
      · rw [if_neg hin] at hi ⊢
        exact he.stored i hi
    · rw [hr, Table.lookup_insert_if] at hi
      rw [hs, Table.lookup_insert_if]
      by_cases hin : i = e.nextId
      · rw [if_pos hin]
        intro status hst hterm
        rw [← Option.some.inj hst] at hterm
        cases hterm
      · rw [if_neg hin] at hi ⊢
        exact he.consistent i d' run hi

/-- What was stored with a final status is stored with it still, or was removed for good. -/
def Final (i : InstanceId) (status : WorkflowStatus) (e : Engine) : Prop :=
  e.store.lookup i = some status ∨ e.store.lookup i = none ∧ i < e.nextId

theorem Final.exec (hterm : status.isTerminal) (he : EngineInv e) (h : Final i status e)
    (ha : e.Timely a) : Final i status (e.exec a) := by
  have hlt : i < e.nextId := by
    rcases h with h | ⟨-, h⟩
    · by_contra hge
      have hnone := he.stored i (he.fresh i (Nat.le_of_not_lt hge))
      rw [h] at hnone
      cases hnone
    · exact h
  rcases exec_cases e ha with ⟨-, hs, hn⟩ | ⟨j, f, hf, -, hs, hn⟩ | ⟨d, hs, -, hn⟩
  · rw [Final, hs, hn]
    exact h
  · rw [Final, hs, hn]
    rcases act_cases e j f with hact | ⟨d, run, b, hr, hfb, hn', -, hstore⟩
    · rw [hact]
      exact h
    rw [hstore, hn']
    by_cases hij : i = j
    · subst hij
      rw [if_pos rfl]
      rcases h with h | ⟨h, -⟩
      · have hcan : b = .cancel → Instance.MayCancel ⟨run, e.store.lookup i⟩ :=
          fun hb => mayCancel_iff hr (hf d (hb ▸ hfb))
        rcases (he.consistent i d run hr).status_exec hcan h hterm with hst | hst
        · exact .inl hst
        · exact .inr ⟨hst, hlt⟩
      · refine .inr ⟨?_, hlt⟩
        cases b with
        | sched r => simp only [Instance.exec, h, Run.stores]; split <;> rfl
        | settle k gate result => exact h
        | cancel => simp [Instance.exec, cancelStatus, h]
        | cleanup => simp [Instance.exec, cleanupStatus, h]
    · rw [if_neg hij]
      exact h
  · rw [Final, hs, hn, Table.lookup_insert_if, if_neg (ne_of_lt hlt)]
    exact h.imp_right fun h => ⟨h.1, Nat.lt_succ_of_lt hlt⟩

end Engine

open Engine

/-- **Statuses that end a workflow are final**: in every run of the engine whose cancellations come
in time, a workflow stored as completed, failed or cancelled is never stored as anything else. -/
theorem terminal_absorbing {e e' : Engine} (h : Reaches Engine.exec Timely {} e)
    (h' : Reaches Engine.exec Timely e e') {i : InstanceId} {status status' : WorkflowStatus}
    (hst : e.store.lookup i = some status) (hterm : status.isTerminal)
    (hst' : e'.store.lookup i = some status') : status' = status := by
  have he : EngineInv e := h.invariant engineInv_new fun e a he ha => he.exec ha
  have hfinal : EngineInv e' ∧ Final i status e' :=
    h'.invariant (I := fun e => EngineInv e ∧ Final i status e) ⟨he, .inl hst⟩
      fun e a he ha => ⟨he.1.exec ha, he.2.exec hterm he.1 ha⟩
  rcases hfinal.2 with hs | ⟨hs, -⟩ <;> rw [hst'] at hs
  · exact Option.some.inj hs
  · cases hs

/-! ## Cancelling in time and too late -/

def oneStep : WorkflowDefinition where
  steps := [{ id := "only" }]

/-- The workflow is registered and started, and its scheduler makes some moves. -/
def begun (moves : Nat) : List EngineAction :=
  [.registerWorkflow "w" oneStep, .startWorkflow "w"] ++
    List.replicate moves (.sched 0 fun d => ⟨0, fun _ => 0, .still d.Idx⟩)

/-- Its step succeeds, and its scheduler makes some more. -/
def continued (moves : Nat) : List EngineAction :=
  .settle 0 0 .run (some .success) ::
    List.replicate moves (.sched 0 fun d => ⟨0, fun _ => 0, .still d.Idx⟩)

theorem timely_begun (moves : Nat) : ∀ a ∈ begun moves, ∀ e : Engine, e.Timely a := by
  intro a ha e
  simp only [begun, List.mem_append, List.mem_cons, List.not_mem_nil, or_false,
    List.mem_replicate] at ha
  rcases ha with (rfl | rfl) | ⟨-, rfl⟩ <;> trivial

theorem timely_continued (moves : Nat) : ∀ a ∈ continued moves, ∀ e : Engine, e.Timely a := by
  intro a ha e
  simp only [continued, List.mem_cons, List.mem_replicate] at ha
  rcases ha with rfl | ⟨-, rfl⟩ <;> trivial

/-- The workflow is cancelled while its step runs: the scheduler finds out and stops. -/
theorem terminal_absorbing_oneStep :
    (((begun 9).foldl Engine.exec {}).exec (.cancelWorkflow 0)).store.lookup 0 =
        some .cancelled ∧
      (((continued 9).foldl Engine.exec
        (((begun 9).foldl Engine.exec {}).exec (.cancelWorkflow 0))).store.lookup 0 =
          some .cancelled ∧
      ∀ status', ((continued 9).foldl Engine.exec
        (((begun 9).foldl Engine.exec {}).exec (.cancelWorkflow 0))).store.lookup 0 =
          some status' → status' = .cancelled) :=
  ⟨by decide +kernel, by decide +kernel, fun _ h =>
    terminal_absorbing
      ((reaches_foldl (allOk_of_forall (timely_begun 9) _)).step (.cancelWorkflow 0)
        (show Engine.mayCancel _ 0 = true by decide +kernel))
      (reaches_foldl (allOk_of_forall (timely_continued 9) _)) (by decide +kernel) rfl h⟩

/-- **A cancellation that comes after the question is acknowledged and overwritten**: the workflow
is cancelled, and completed afterwards. -/
theorem completed_after_cancelled :
    ∃ e e', Reaches Engine.exec anyAction {} e ∧ Reaches Engine.exec anyAction e e' ∧
      e.store.lookup 0 = some .cancelled ∧ e'.store.lookup 0 = some .completed :=
  ⟨(begun 9 ++ continued 6 ++ [EngineAction.cancelWorkflow 0]).foldl Engine.exec {},
    (continued 1).foldl Engine.exec
      ((begun 9 ++ continued 6 ++ [EngineAction.cancelWorkflow 0]).foldl Engine.exec {}),
    reaches_foldl (allOk_anyAction _ _ _), reaches_foldl (allOk_anyAction _ _ _),
    by decide +kernel, by decide +kernel⟩

end Smg.Workflow
