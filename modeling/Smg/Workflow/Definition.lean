import Mathlib.Data.List.FinRange
import Smg.Lib.CycleSearch
import Smg.Lib.Grouping

/-!
# Workflow definitions

A workflow is a list of steps, each with the steps it has to wait for: all of `dependsOn`, and at
least one of `dependsOnAny` when there are any.  `WorkflowDefinition.validate` refuses a workflow
that names a step it does not have or whose dependencies go round in a circle, and computes for an
accepted one what the scheduler looks up while it runs: which steps to check when a given one is
done, and which can start at once.

Steps are told apart by their position; the scheduler keeps positions in its queues and ids in its
sets.  A position is a `Fin` of the number of steps, so a queue never holds one that is not there.

## What is here

* `WorkflowDefinition`, `validate`, `getDependentIndices`, `getInitialStepIndices`, as the source
  has them; `validate` searches for a cycle with fuel, and always has enough (`validate_isSome`).
* `WorkflowDefinition.Valid`: what the scheduler relies on, and `valid_of_validate`, that an
  accepted definition has it.
* `Runnable`, and `validate_decides`: a definition is accepted exactly when its steps can be run.
* `Valid.induction`: induction along the dependencies, which acceptance is what justifies.

Names, executors, retry policies and timeouts of steps decide how long a step takes and what comes
of it; the scheduler does not read them and they are left out, as is the condition of a step.
-/

set_option autoImplicit false

namespace Smg.Workflow

open List

abbrev StepId := String

/-- What becomes of the workflow when a step fails. -/
inductive FailureAction
  | failWorkflow
  /-- Skip this step and continue to the next. -/
  | continueNextStep
  /-- Keep retrying indefinitely until manual intervention. -/
  | retryIndefinitely
  deriving DecidableEq, Repr

/-- A step of a workflow.  Durations are in nanoseconds, points in time in nanoseconds since the
epoch. -/
structure StepDefinition where
  id : StepId
  onFailure : FailureAction := .failWorkflow
  /-- Dependencies that must all complete before this step runs. -/
  dependsOn : List StepId := []
  /-- Dependencies of which one has to complete. -/
  dependsOnAny : List StepId := []
  /-- Delay before starting the step, once its dependencies are satisfied. -/
  delay : Option Nat := none
  /-- Run the step at or after this time. -/
  scheduledAt : Option Int := none

def StepDefinition.allDependencies (s : StepDefinition) : List StepId :=
  s.dependsOn ++ s.dependsOnAny

/-- Why a definition is refused. -/
inductive ValidationError
  /-- A step depends on another step that doesn't exist. -/
  | missingDependency (step dependency : StepId)
  | cycleDetected (step : StepId)
  deriving DecidableEq, Repr

/-- A workflow, with what validation computes for the scheduler. -/
structure WorkflowDefinition where
  steps : List StepDefinition
  /-- For each step id, the positions of the steps that depend on it. -/
  reverseDeps : Table StepId (List (Fin steps.length)) := ∅
  /-- The positions of the steps without dependencies. -/
  initialStepIndices : List (Fin steps.length) := []

/-! ## Validation -/

/-- The steps by id; of two with one id, the later. -/
def stepsMap (steps : List StepDefinition) : Table StepId StepDefinition :=
  steps.foldl (fun m s => m.insert s.id s) ∅

def dependenciesOf (steps : List StepDefinition) (id : StepId) : List StepId :=
  ((stepsMap steps).lookup id).elim [] StepDefinition.allDependencies

/-- The first step, with the first of its dependencies, that does not exist. -/
def missingDependency (steps : List StepDefinition) : Option (StepId × StepId) :=
  steps.findSome? fun s =>
    (s.allDependencies.find? fun dep => !((stepsMap steps).lookup dep).isSome).map (s.id, ·)

def pushDependent {ι : Type} (m : Table StepId (List ι)) (dep : StepId) (i : ι) :
    Table StepId (List ι) :=
  m.insert dep ((m.lookup dep).getD [] ++ [i])

/-- For each id, the positions of the steps that depend on it. -/
def buildReverseDeps (steps : List StepDefinition) : Table StepId (List (Fin steps.length)) :=
  (List.finRange steps.length).foldl (fun m i =>
    (steps.get i).allDependencies.foldl (fun m dep => pushDependent m dep i) m) ∅

/-- The positions of the steps that depend on nothing. -/
def findInitialSteps (steps : List StepDefinition) : List (Fin steps.length) :=
  (List.finRange steps.length).filter fun i =>
    (steps.get i).dependsOn.isEmpty && (steps.get i).dependsOnAny.isEmpty

namespace WorkflowDefinition

/-- Check the dependencies and build the tables the scheduler reads.  `none` is a cycle search that
ran out of fuel, which `validate_isSome` excludes. -/
def validate (d : WorkflowDefinition) : Option (Except ValidationError WorkflowDefinition) :=
  match missingDependency d.steps with
  | some (step, dependency) => some (.error (.missingDependency step dependency))
  | none =>
    match firstCycle (dependenciesOf d.steps) (d.steps.length + 1) (d.steps.map (·.id)) .start with
    | none => none
    | some (some step) => some (.error (.cycleDetected step))
    | some none =>
      some (.ok
        { steps := d.steps
          reverseDeps := buildReverseDeps d.steps
          initialStepIndices := findInitialSteps d.steps })

variable (d : WorkflowDefinition)

abbrev Idx := Fin d.steps.length

def step (i : d.Idx) : StepDefinition := d.steps.get i

def idOf (i : d.Idx) : StepId := (d.step i).id

/-- The positions of the steps that depend on the given step. -/
def getDependentIndices (id : StepId) : List d.Idx := (d.reverseDeps.lookup id).getD []

/-- The positions of the steps with no dependencies. -/
def getInitialStepIndices : List d.Idx := d.initialStepIndices

def DistinctIds : Prop := (d.steps.map (·.id)).Nodup

instance : Decidable d.DistinctIds := inferInstanceAs (Decidable (List.Nodup _))

end WorkflowDefinition

/-! ## The tables -/

theorem lookup_foldl_insert (steps : List StepDefinition) (m : Table StepId StepDefinition)
    (id : StepId) : (steps.foldl (fun m s => m.insert s.id s) m).lookup id =
      (steps.reverse.find? (·.id = id)).or (m.lookup id) := by
  induction steps generalizing m with
  | nil => simp
  | cons s steps ih =>
    rw [foldl_cons, ih, reverse_cons, find?_append, Table.lookup_insert_if]
    by_cases hs : id = s.id
    · simp [hs]
    · simp [hs, Ne.symm hs]

theorem lookup_stepsMap (steps : List StepDefinition) (id : StepId) :
    (stepsMap steps).lookup id = steps.reverse.find? (·.id = id) := by
  rw [stepsMap, lookup_foldl_insert, AList.lookup_empty, Option.or_none]

variable {steps : List StepDefinition}

theorem isSome_lookup_stepsMap {id : StepId} :
    ((stepsMap steps).lookup id).isSome ↔ ∃ s ∈ steps, s.id = id := by
  simp [lookup_stepsMap]

/-- With distinct ids a step is the one its id names. -/
theorem lookup_stepsMap_id (hids : (steps.map (·.id)).Nodup) {s : StepDefinition} (hs : s ∈ steps) :
    (stepsMap steps).lookup s.id = some s := by
  obtain ⟨s', hs'⟩ := Option.isSome_iff_exists.mp (isSome_lookup_stepsMap.mpr ⟨s, hs, rfl⟩)
  have hfind := hs'
  rw [lookup_stepsMap] at hfind
  have hid : s'.id = s.id := by simpa using find?_some hfind
  have hmem : s' ∈ steps := mem_reverse.mp (mem_of_find?_eq_some hfind)
  rw [hs', inj_on_of_nodup_map hids hmem hs hid]

theorem missingDependency_eq_none (h : missingDependency steps = none) {s : StepDefinition}
    (hs : s ∈ steps) {dep : StepId} (hdep : dep ∈ s.allDependencies) :
    ∃ s' ∈ steps, s'.id = dep := by
  have hnone := findSome?_eq_none_iff.mp h s hs
  have hall := find?_eq_none.mp (Option.map_eq_none_iff.mp hnone) dep hdep
  exact isSome_lookup_stepsMap.mp (by simpa [Option.isSome_iff_ne_none] using hall)

theorem mem_foldl_pushDependent {ι : Type} {j : ι} {dep : StepId} (pairs : List (ι × StepId))
    (m : Table StepId (List ι)) :
    j ∈ ((pairs.foldl (fun m p => pushDependent m p.2 p.1) m).lookup dep).getD [] ↔
      j ∈ (m.lookup dep).getD [] ∨ (j, dep) ∈ pairs := by
  induction pairs generalizing m with
  | nil => simp
  | cons p pairs ih =>
    rw [foldl_cons, ih, pushDependent, mem_cons, ← or_assoc, Prod.ext_iff]
    by_cases h : dep = p.2
    · subst h
      simp
    · simp [h]

theorem mem_buildReverseDeps {dep : StepId} {j : Fin steps.length} :
    j ∈ ((buildReverseDeps steps).lookup dep).getD [] ↔
      dep ∈ (steps.get j).allDependencies := by
  have h := @mem_foldl_pushDependent _ j dep ((finRange steps.length).flatMap fun i =>
    (steps.get i).allDependencies.map (i, ·)) ∅
  rw [foldl_flatMap] at h
  simp only [foldl_map] at h
  rw [buildReverseDeps, h]
  simp

theorem mem_findInitialSteps {j : Fin steps.length} :
    j ∈ findInitialSteps steps ↔ (steps.get j).allDependencies = [] := by
  simp [findInitialSteps, StepDefinition.allDependencies]

/-! ## What an accepted definition has -/

namespace WorkflowDefinition

variable {d d' : WorkflowDefinition}

/-- What the scheduler relies on: the tables are what their names say, every dependency is a step,
and the steps can be listed with each behind its dependents. -/
structure Valid (d : WorkflowDefinition) : Prop where
  dependents : ∀ id i, i ∈ d.getDependentIndices id ↔ id ∈ (d.step i).allDependencies
  initial : ∀ i, i ∈ d.getInitialStepIndices ↔ (d.step i).allDependencies = []
  known : ∀ i, ∀ dep ∈ (d.step i).allDependencies, ∃ j, d.idOf j = dep
  ranked : ∃ order, Ranked (dependenciesOf d.steps) order ∧ ∀ i, d.idOf i ∈ order

/-- Validation that accepts computes the tables and changes nothing else. -/
theorem validate_eq_ok (h : d.validate = some (.ok d')) :
    missingDependency d.steps = none ∧
      firstCycle (dependenciesOf d.steps) (d.steps.length + 1) (d.steps.map (·.id)) .start
        = some none ∧
      d' = ⟨d.steps, buildReverseDeps d.steps, findInitialSteps d.steps⟩ := by
  rw [validate] at h
  rcases hm : missingDependency d.steps with _ | ⟨s, dep⟩ <;> simp only [hm] at h
  · rcases hc : firstCycle (dependenciesOf d.steps) (d.steps.length + 1) (d.steps.map (·.id))
        .start with _ | _ | s <;> simp only [hc] at h
    · cases h
    · exact ⟨rfl, hc, by simpa using h.symm⟩
    · cases h
  · cases h

theorem steps_eq_of_validate (h : d.validate = some (.ok d')) : d'.steps = d.steps := by
  rw [(validate_eq_ok h).2.2]

/-- **An accepted definition is valid.** -/
theorem valid_of_validate (h : d.validate = some (.ok d')) : d'.Valid := by
  obtain ⟨hm, hc, rfl⟩ := validate_eq_ok h
  obtain ⟨order, hr, -, hall⟩ := ranked_of_firstCycle ⟨by simp [Search.start], .nil⟩ rfl hc
  refine ⟨fun id i => mem_buildReverseDeps, fun i => mem_findInitialSteps, ?_, order, hr, ?_⟩
  · intro i dep hdep
    obtain ⟨s, hs, rfl⟩ := missingDependency_eq_none hm (get_mem _ i) hdep
    obtain ⟨j, rfl⟩ := get_of_mem hs
    exact ⟨j, rfl⟩
  · exact fun i => hall _ (mem_map_of_mem (get_mem _ i))

/-- **Validation always answers**: the cycle search never runs out of fuel. -/
theorem validate_isSome (d : WorkflowDefinition) : d.validate.isSome := by
  rw [validate]
  rcases hm : missingDependency d.steps with _ | ⟨s, dep⟩
  · have hclosed : ∀ id ∈ (d.steps.map (·.id)).toFinset, ∀ dep ∈ dependenciesOf d.steps id,
        dep ∈ (d.steps.map (·.id)).toFinset := by
      intro id _ dep hdep
      rw [dependenciesOf] at hdep
      rcases hl : (stepsMap d.steps).lookup id with _ | s <;> rw [hl] at hdep
      · cases hdep
      · rw [lookup_stepsMap] at hl
        have hs : s ∈ d.steps := mem_reverse.mp (mem_of_find?_eq_some hl)
        obtain ⟨s', hs', rfl⟩ := missingDependency_eq_none hm hs hdep
        exact mem_toFinset.mpr (mem_map_of_mem hs')
    have hcard : (d.steps.map (·.id)).toFinset.card < d.steps.length + 1 := by
      have hle := toFinset_card_le (d.steps.map (·.id))
      rw [length_map] at hle
      omega
    have hsome := firstCycle_isSome hclosed hcard (d.steps.map (·.id))
      (fun id hid => mem_toFinset.mpr hid) .start rfl
    obtain ⟨found, hfound⟩ := Option.isSome_iff_exists.mp hsome
    rcases found with _ | s <;> simp only [hfound] <;> rfl
  · rfl

/-! ## Distinct ids -/

theorem DistinctIds.idOf_injective (h : d.DistinctIds) {i j : d.Idx} (hij : d.idOf i = d.idOf j) :
    i = j := by
  have hlen : d.steps.length = (d.steps.map (·.id)).length := length_map _ |>.symm
  have hget : ∀ k : d.Idx, d.idOf k = (d.steps.map (·.id)).get (k.cast hlen) := fun k => by
    simp [idOf, step]
  rw [hget, hget] at hij
  exact Fin.cast_injective hlen ((Nodup.get_inj_iff h).mp hij)

theorem DistinctIds.dependenciesOf_eq (h : d.DistinctIds) (i : d.Idx) :
    dependenciesOf d.steps (d.idOf i) = (d.step i).allDependencies := by
  rw [dependenciesOf, idOf, step, lookup_stepsMap_id h (get_mem _ i)]
  rfl

/-- A step waits for another, be it through others. -/
def WaitsFor (d : WorkflowDefinition) : StepId → StepId → Prop :=
  Relation.TransGen fun id dep => ∃ s ∈ d.steps, s.id = id ∧ dep ∈ s.allDependencies

/-- The steps can be run one after the other: every dependency is a step, and no step waits for
itself. -/
structure Runnable (d : WorkflowDefinition) : Prop where
  known : ∀ s ∈ d.steps, ∀ dep ∈ s.allDependencies, ∃ s' ∈ d.steps, s'.id = dep
  acyclic : ∀ id, ¬ d.WaitsFor id id

theorem mem_dependenciesOf {id dep : StepId} (h : dep ∈ dependenciesOf steps id) :
    ∃ s ∈ steps, s.id = id ∧ dep ∈ s.allDependencies := by
  rw [dependenciesOf, lookup_stepsMap] at h
  rcases hs : steps.reverse.find? (·.id = id) with _ | s <;> rw [hs] at h
  · cases h
  · exact ⟨s, mem_reverse.mp (mem_of_find?_eq_some hs), by simpa using find?_some hs, h⟩

/-- With distinct ids the search follows what the steps wait for. -/
theorem DistinctIds.leads_iff (h : d.DistinctIds) {id dep : StepId} :
    Leads (dependenciesOf d.steps) id dep ↔ d.WaitsFor id dep := by
  have hstep : (fun id dep => dep ∈ dependenciesOf d.steps id) =
      fun id dep => ∃ s ∈ d.steps, s.id = id ∧ dep ∈ s.allDependencies := by
    funext id dep
    refine propext ⟨mem_dependenciesOf, ?_⟩
    rintro ⟨s, hs, rfl, hdep⟩
    rw [dependenciesOf, lookup_stepsMap_id h hs]
    exact hdep
  rw [Leads, WaitsFor, hstep]

theorem runnable_of_validate (hids : d.DistinctIds) (h : d.validate = some (.ok d')) :
    d.Runnable := by
  obtain ⟨hm, hc, -⟩ := validate_eq_ok h
  obtain ⟨order, hr, -, hall⟩ := ranked_of_firstCycle ⟨by simp [Search.start], .nil⟩ rfl hc
  refine ⟨fun s hs dep => missingDependency_eq_none hm hs, fun id hid => ?_⟩
  obtain ⟨_, ⟨s, hs, rfl, -⟩, -⟩ := Relation.TransGen.head'_iff.mp hid
  exact hr.not_leads s.id (hall _ (mem_map_of_mem hs)) (hids.leads_iff.mpr hid)

theorem not_runnable_of_validate (hids : d.DistinctIds) {e : ValidationError}
    (h : d.validate = some (.error e)) : ¬ d.Runnable := by
  rintro ⟨hknown, hacyclic⟩
  rw [validate] at h
  split at h
  next step dependency hm =>
    obtain ⟨s, hs, hfind⟩ := exists_of_findSome?_eq_some hm
    obtain ⟨dep, hdep, -⟩ := Option.map_eq_some_iff.mp hfind
    have hmissing := find?_some hdep
    have hstep := isSome_lookup_stepsMap.mpr (hknown s hs dep (mem_of_find?_eq_some hdep))
    simp [hstep] at hmissing
  · split at h
    · cases h
    next step hc =>
      obtain ⟨id, hid⟩ := exists_leads_of_firstCycle rfl hc
      exact hacyclic id (hids.leads_iff.mp hid)
    · cases h

/-- **Validation decides**: where no two steps share an id, a definition whose steps can be run is
accepted with its steps as they were and valid, and every other one is refused with an error. -/
theorem validate_decides (d : WorkflowDefinition) (hids : d.DistinctIds) :
    (d.Runnable → ∃ d', d.validate = some (.ok d') ∧ d'.steps = d.steps ∧ d'.Valid) ∧
      (¬ d.Runnable → ∃ e, d.validate = some (.error e)) := by
  obtain ⟨e | d', h⟩ := Option.isSome_iff_exists.mp d.validate_isSome
  · exact ⟨fun hrun => absurd hrun (not_runnable_of_validate hids h), fun _ => ⟨e, h⟩⟩
  · exact ⟨fun _ => ⟨d', h, steps_eq_of_validate h, valid_of_validate h⟩,
      fun hnot => absurd (runnable_of_validate hids h) hnot⟩

/-- Three steps: the second waits for the first, and the last for both. -/
def threeSteps (first : List StepId) : WorkflowDefinition where
  steps :=
    [{ id := "a", dependsOn := first }, { id := "b", dependsOn := ["a"] },
      { id := "c", dependsOn := ["a"], dependsOnAny := ["b"] }]

/-- They can be run when the first waits for nothing, and not when it waits for the last. -/
theorem validate_decides_three : (threeSteps []).Runnable ∧ ¬ (threeSteps ["c"]).Runnable := by
  constructor
  · by_contra hnot
    obtain ⟨e, he⟩ := (validate_decides (threeSteps []) (by decide)).2 hnot
    have hok : (threeSteps []).validate.map Except.isOk = some true := by decide
    simp [he, Except.isOk, Except.toBool] at hok
  · intro hrun
    obtain ⟨d', hd', -⟩ := (validate_decides (threeSteps ["c"]) (by decide)).1 hrun
    have hok : (threeSteps ["c"]).validate.map Except.isOk = some false := by decide
    simp [hd', Except.isOk, Except.toBool] at hok

/-- **Induction along the dependencies**: what passes from all dependencies of a step to the step
holds of every step. -/
theorem Valid.induction (hd : d.Valid) (hids : d.DistinctIds) {P : d.Idx → Prop}
    (hP : ∀ i, (∀ j, d.idOf j ∈ (d.step i).allDependencies → P j) → P i) (i : d.Idx) : P i := by
  obtain ⟨order, hr, hall⟩ := hd.ranked
  have hids' : ∀ id ∈ order, ∀ i, d.idOf i = id → P i := by
    refine hr.induction fun id _ ih i hi => hP i fun j hj => ?_
    rw [← hids.dependenciesOf_eq, hi] at hj
    exact ih (d.idOf j) hj j rfl
  exact hids' (d.idOf i) (hall i) i rfl

end WorkflowDefinition

end Smg.Workflow
