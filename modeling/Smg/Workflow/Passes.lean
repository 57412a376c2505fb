import Smg.Workflow.Scheduler

/-!
# What one pass of the scheduler does

The specification of each function the scheduler is made of, in terms of what a step has come to:
`StepTracker.Done`, completed or skipped; `StepTracker.Settled`, done or failed; and of
`Satisfied`, that the dependencies of a step allow it.
-/

set_option autoImplicit false

namespace Smg.Workflow

open StepTracker List Scheduling
open Option hiding all_eq_false any_eq_false or_assoc

variable {d : WorkflowDefinition}

/-! ## What has become of a step -/

namespace StepTracker

variable (t : StepTracker d)

/-- The step completed or was skipped: its dependents may go on. -/
def Done (id : StepId) : Prop := id ∈ t.completed ∨ id ∈ t.skipped

def Settled (id : StepId) : Prop := t.Done id ∨ id ∈ t.failed

instance (id : StepId) : Decidable (t.Done id) := inferInstanceAs (Decidable (_ ∨ _))

variable {t} {id id' : StepId} {signal : StepResult}

theorem done_settle :
    (t.settle id signal).Done id' ↔ t.Done id' ∨ id' = id ∧ signal ≠ .failure := by
  rcases signal with _ | _ | _ <;> simp [settle, Done]
  · tauto
  · tauto

theorem mem_failed_settle :
    id' ∈ (t.settle id signal).failed ↔ id' ∈ t.failed ∨ id' = id ∧ signal = .failure := by
  rcases signal with _ | _ | _ <;> simp [settle]
  tauto

theorem settled_settle : (t.settle id signal).Settled id' ↔ t.Settled id' ∨ id' = id := by
  rw [Settled, done_settle, mem_failed_settle, Settled]
  by_cases hs : signal = .failure <;> simp [hs] <;> tauto

theorem running_settle : (t.settle id signal).running = t.running.erase id := by
  rcases signal with _ | _ | _ <;> rfl

theorem waitingUntil_settle : (t.settle id signal).waitingUntil = t.waitingUntil := by
  rcases signal with _ | _ | _ <;> rfl

theorem totalProcessed_settle (h : ¬ t.Settled id) :
    (t.settle id signal).totalProcessed = t.totalProcessed + 1 := by
  rw [Settled, Done, not_or, not_or] at h
  rcases signal with _ | _ | _ <;> simp [settle, totalProcessed, h] <;> omega

end StepTracker

def Satisfied (t : StepTracker d) (i : d.Idx) : Prop :=
  (∀ dep ∈ (d.step i).dependsOn, t.Done dep) ∧
    ((d.step i).dependsOnAny = [] ∨ ∃ dep ∈ (d.step i).dependsOnAny, t.Done dep)

variable {i : d.Idx} {t : StepTracker d}

theorem Satisfied.mono {t' : StepTracker d} (h : Satisfied t i)
    (hle : ∀ id, t.Done id → t'.Done id) : Satisfied t' i := by
  refine ⟨fun dep hdep => hle dep (h.1 dep hdep), h.2.imp_right ?_⟩
  rintro ⟨dep, hdep, hdone⟩
  exact ⟨dep, hdep, hle dep hdone⟩

/-- Where dependencies of a step came to be satisfied, one of them came to be done. -/
theorem Satisfied.exists_new {t' : StepTracker d} (h : Satisfied t' i) (hn : ¬ Satisfied t i) :
    ∃ dep ∈ (d.step i).allDependencies, t'.Done dep ∧ ¬ t.Done dep := by
  by_contra hall
  push Not at hall
  have hdone : ∀ dep ∈ (d.step i).allDependencies, t'.Done dep → t.Done dep := hall
  refine hn ⟨fun dep hdep => ?_, h.2.imp_right ?_⟩
  · exact hdone dep (mem_append_left _ hdep) (h.1 dep hdep)
  · rintro ⟨dep, hdep, hd⟩
    exact ⟨dep, hdep, hdone dep (mem_append_right _ hdep) hd⟩

/-- A pending check passes when nothing has become of the step and its dependencies allow it; no
failed dependency is looked for in vain where what is done has not failed. -/
theorem passesCheck_iff (ht : ∀ id, t.Done id → id ∉ t.failed) (i : d.Idx) :
    passesCheck t i = true ↔ ¬ t.Settled (d.idOf i) ∧ d.idOf i ∉ t.running ∧
      i ∉ t.waitingUntil ∧ Satisfied t i := by
  have hproc : t.isStepProcessable i = true ↔ ¬ t.Settled (d.idOf i) ∧ d.idOf i ∉ t.running ∧
      i ∉ t.waitingUntil := by
    have hw : i ∈ t.waitingUntil ↔ (t.waitingUntil.lookup i).isSome = true :=
      AList.lookup_isSome.symm
    rw [hw]
    simp only [isStepProcessable, StepTracker.Settled, StepTracker.Done,
      Bool.and_eq_true, decide_eq_true_eq, Bool.not_eq_true']
    simp only [Bool.not_eq_true]
    tauto
  have hsat : Satisfied t i → t.hasFailedDependency (d.step i).dependsOn = false ∧
      t.haveAllAnyDepsFailed (d.step i).dependsOnAny = false := by
    rintro ⟨hall, hany⟩
    constructor
    · simp only [hasFailedDependency, any_eq_false, decide_eq_true_eq]
      exact fun dep hdep => ht dep (hall dep hdep)
    · rcases hany with hnil | ⟨dep, hdep, hdone⟩
      · simp [haveAllAnyDepsFailed, hnil]
      · simp only [haveAllAnyDepsFailed, Bool.and_eq_false_iff, all_eq_false]
        exact .inr ⟨dep, hdep, by simpa using ht dep hdone⟩
  have hdeps : Satisfied t i ↔ t.areDependenciesSatisfied (d.step i).dependsOn = true ∧
      t.isAnyDependencySatisfied (d.step i).dependsOnAny = true := by
    simp [Satisfied, areDependenciesSatisfied, isAnyDependencySatisfied,
      StepTracker.Done]
  simp only [passesCheck, Bool.and_eq_true, hproc, Bool.not_eq_true', hdeps]
  constructor
  · rintro ⟨⟨⟨⟨hp, ha⟩, hb⟩, -⟩, -⟩
    exact ⟨hp.1, hp.2.1, hp.2.2, ha, hb⟩
  · rintro ⟨h1, h2, h3, ha, hb⟩
    obtain ⟨hf, hf'⟩ := hsat (hdeps.mpr ⟨ha, hb⟩)
    exact ⟨⟨⟨⟨⟨h1, h2, h3⟩, ha⟩, hb⟩, hf⟩, hf'⟩

theorem mem_enqueueDependents (hd : d.Valid) {message : Message} {pendingCheck : List d.Idx} :
    i ∈ enqueueDependents message pendingCheck ↔ i ∈ pendingCheck ∨
      message.2 ≠ .failure ∧ message.1 ∈ (d.step i).allDependencies := by
  obtain ⟨id, signal⟩ := message
  rcases signal with _ | _ | _ <;> simp [enqueueDependents, hd.dependents]

variable {now : Nat}

theorem mem_getReadyWaitingIndices (h : i ∈ t.getReadyWaitingIndices now) : i ∈ t.waitingUntil := by
  rw [getReadyWaitingIndices, mem_filterMap] at h
  obtain ⟨e, he, hi⟩ := h
  by_cases hr : e.2 ≤ now
  · rw [if_pos hr] at hi
    rw [← some.inj hi]
    exact mem_map_of_mem he
  · exact absurd hi (by simp [hr])

/-! ## Waiting or launching -/

/-- At this reading of the wall clock the step has to wait. -/
def Waits (s : StepDefinition) (now : Int) : Prop :=
  0 < s.delay.getD 0 ∨ ∃ time, s.scheduledAt = some time ∧ now < time

theorem scheduleWait_eq (s : StepDefinition) (now : Int) :
    (∃ time, s.scheduledAt = some time ∧ now < time) ∧ 0 < (scheduleWait s now).getD 0 ∨
      (¬ ∃ time, s.scheduledAt = some time ∧ now < time) ∧ scheduleWait s now = none := by
  rcases hs : s.scheduledAt with _ | time
  · exact .inr ⟨by simp, by simp [scheduleWait, hs]⟩
  by_cases hlt : now < time
  · refine .inl ⟨⟨time, rfl, hlt⟩, ?_⟩
    simp only [scheduleWait, hs, bind_some, if_pos hlt, getD_some]
    omega
  · refine .inr ⟨?_, by simp [scheduleWait, hs, hlt]⟩
    rintro ⟨_, htime, hlt'⟩
    exact hlt (some.inj htime ▸ hlt')

/-- A wait that is computed is positive exactly when the step has to wait. -/
theorem waits_iff {s : StepDefinition} {now : Int} {wait : Option Nat}
    (h : calculateWaitDuration s now = some wait) : Waits s now ↔ 0 < wait.getD 0 := by
  rw [calculateWaitDuration] at h
  rcases scheduleWait_eq s now with ⟨hw, hpos⟩ | ⟨hw, hnone⟩
  · rcases hsched : scheduleWait s now with _ | schedule
    · simp [hsched] at hpos
    rw [hsched, getD_some] at hpos
    rcases hdelay : s.delay with _ | delay
    · simp only [hdelay, hsched, some.injEq] at h
      simp [Waits, hw, ← h, hpos]
    · simp only [hdelay, hsched, checkedAdd] at h
      split at h
      · simp only [map_some, some.injEq] at h
        simp only [Waits, hw, or_true, ← h, getD_some, true_iff]
        omega
      · simp at h
  · rcases hdelay : s.delay with _ | delay
    · simp only [hdelay, hnone, some.injEq] at h
      simp [Waits, hdelay, hw, ← h]
    · simp only [hdelay, hnone, some.injEq] at h
      simp [Waits, hdelay, hw, ← h]

namespace Scheduling

variable {p p' : Scheduling d} {now : Nat} {utc : Int} {i j : d.Idx}

theorem place_eq (h : p.place now utc i = some p') :
    Waits (d.step i) utc ∧ (∃ readyAt, p' = { p with
      tracker := p.tracker.setWaiting i readyAt
      addedToWaiting := p.addedToWaiting + 1 }) ∨
    ¬ Waits (d.step i) utc ∧ p' = p.launch i := by
  rw [place] at h
  rcases hw : calculateWaitDuration (d.step i) utc with _ | _ | duration <;> simp only [hw] at h
  · cases h
  · exact .inr ⟨by simp [waits_iff hw], (some.inj h).symm⟩
  · by_cases hpos : 0 < duration
    · rw [if_pos hpos] at h
      obtain ⟨readyAt, -, hp⟩ := map_eq_some_iff.mp h
      exact .inl ⟨by simpa [waits_iff hw] using hpos, readyAt, hp.symm⟩
    · rw [if_neg hpos] at h
      exact .inr ⟨by simpa [waits_iff hw] using hpos, (some.inj h).symm⟩

/-- What was seen is what launches, and launches once. -/
structure Once (p : Scheduling d) : Prop where
  seen_iff : ∀ i, i ∈ p.seen ↔ i ∈ p.ready
  nodup : p.ready.Nodup

theorem tracker_launch : (p.launch i).tracker = p.tracker := by
  rw [launch]
  split <;> rfl

theorem addedToWaiting_launch : (p.launch i).addedToWaiting = p.addedToWaiting := by
  rw [launch]
  split <;> rfl

theorem Once.mem_launch (hp : p.Once) : j ∈ (p.launch i).ready ↔ j ∈ p.ready ∨ j = i := by
  rw [launch]
  split
  · rename_i hi
    exact ⟨.inl, fun h => h.elim id fun hj => hj ▸ (hp.seen_iff i).mp hi⟩
  · simp

theorem Once.launch (hp : p.Once) : (p.launch i).Once := by
  by_cases hi : i ∈ p.seen
  · rw [Scheduling.launch, if_pos hi]
    exact hp
  · have hready : i ∉ p.ready := fun h => hi ((hp.seen_iff i).mpr h)
    rw [Scheduling.launch, if_neg hi]
    refine ⟨fun j => ?_, ?_⟩
    · simp only [Finset.mem_insert, hp.seen_iff, mem_append, mem_singleton]
      tauto
    · exact nodup_append.mpr ⟨hp.nodup, nodup_singleton i, fun a ha b hb => by
        rintro rfl
        exact hready (mem_singleton.mp hb ▸ ha)⟩

/-- Launching each of a list of steps. -/
theorem Once.foldl_launch (hp : p.Once) (is : List d.Idx) :
    (is.foldl Scheduling.launch p).Once ∧
      (∀ j, j ∈ (is.foldl Scheduling.launch p).ready ↔ j ∈ p.ready ∨ j ∈ is) ∧
      (is.foldl Scheduling.launch p).tracker = p.tracker ∧
      (is.foldl Scheduling.launch p).addedToWaiting = p.addedToWaiting := by
  induction is generalizing p with
  | nil => exact ⟨hp, by simp, rfl, rfl⟩
  | cons i is ih =>
    obtain ⟨ho, hr, ht, ha⟩ := ih (hp.launch)
    refine ⟨ho, fun j => ?_, ht.trans tracker_launch, ha.trans addedToWaiting_launch⟩
    rw [foldl_cons, hr, hp.mem_launch, mem_cons, or_assoc]

end Scheduling

theorem exists_getElem?_cons {α : Type} {a b : α} {l : List α} {k₀ : Nat} {P : Nat → Prop} :
    (∃ k, (a :: l)[k]? = some b ∧ P (k₀ + k)) ↔
      b = a ∧ P k₀ ∨ ∃ k, l[k]? = some b ∧ P (k₀ + 1 + k) := by
  constructor
  · rintro ⟨_ | k, hk, hP⟩
    · exact .inl ⟨(some.inj hk).symm, hP⟩
    · exact .inr ⟨k, by simpa using hk, by rwa [Nat.add_right_comm]⟩
  · rintro (⟨rfl, hP⟩ | ⟨k, hk, hP⟩)
    · exact ⟨0, rfl, hP⟩
    · exact ⟨k + 1, by simpa using hk, by rwa [Nat.add_right_comm] at hP⟩

/-- What placing a list of steps leaves, `p` being where it started: who waits, who launches, and
that a pass that put nobody to wait had nobody who has to. -/
structure PlacedAll (utc : Nat → Int) (k₀ : Nat) (is : List d.Idx) (p p' : Scheduling d) :
    Prop where
  rest : p'.tracker = { p.tracker with waitingUntil := p'.tracker.waitingUntil }
  waiting_iff : ∀ j, j ∈ p'.tracker.waitingUntil ↔ j ∈ p.tracker.waitingUntil ∨
    ∃ k, is[k]? = some j ∧ Waits (d.step j) (utc (k₀ + k))
  ready_iff : ∀ j, j ∈ p'.ready ↔ j ∈ p.ready ∨
    ∃ k, is[k]? = some j ∧ ¬ Waits (d.step j) (utc (k₀ + k))
  once : p'.Once
  le_added : p.addedToWaiting ≤ p'.addedToWaiting
  added : p'.addedToWaiting = p.addedToWaiting →
    ∀ j k, is[k]? = some j → ¬ Waits (d.step j) (utc (k₀ + k))

theorem Scheduling.placedAll {utc : Nat → Int} : ∀ {is : List d.Idx} {k₀ : Nat}
    {p p' : Scheduling d}, p.Once → p.placeAll now utc k₀ is = some p' →
      PlacedAll utc k₀ is p p' := by
  intro is
  induction is with
  | nil =>
    intro k₀ p p' hp h
    obtain rfl : p = p' := by simpa [placeAll] using h
    exact ⟨rfl, by simp, by simp, hp, le_rfl, by simp⟩
  | cons i is ih =>
    intro k₀ p p' hp h
    rw [placeAll] at h
    rcases hplace : p.place now (utc k₀) i with _ | p1 <;> simp only [hplace] at h
    · cases h
    rcases place_eq hplace with ⟨hw, readyAt, rfl⟩ | ⟨hw, rfl⟩
    · have hi := ih (p := { p with
        tracker := p.tracker.setWaiting i readyAt
        addedToWaiting := p.addedToWaiting + 1 }) ⟨hp.seen_iff, hp.nodup⟩ h
      refine ⟨hi.rest, fun j => ?_, fun j => ?_, hi.once, ?_, fun ha => ?_⟩
      · rw [hi.waiting_iff, exists_getElem?_cons (P := fun k => Waits (d.step j) (utc k))]
        have hhead : j = i ∧ Waits (d.step j) (utc k₀) ↔ j = i :=
          and_iff_left_of_imp fun h => h ▸ hw
        rw [hhead, setWaiting, AList.mem_insert, or_comm (a := j = i), or_assoc]
      · have hhead : ¬ (j = i ∧ ¬ Waits (d.step j) (utc k₀)) := fun h => h.2 (h.1 ▸ hw)
        rw [hi.ready_iff, exists_getElem?_cons (P := fun k => ¬ Waits (d.step j) (utc k)),
          or_iff_right hhead]
      · exact (Nat.le_succ _).trans hi.le_added
      · exact absurd hi.le_added (by simp only [ha]; omega)
    · have hi := ih hp.launch h
      have htr : (p.launch i).tracker = p.tracker := tracker_launch
      refine ⟨by rw [hi.rest, htr], fun j => ?_, fun j => ?_, hi.once, ?_, fun ha => ?_⟩
      · have hhead : ¬ (j = i ∧ Waits (d.step j) (utc k₀)) := fun h => hw (h.1 ▸ h.2)
        rw [hi.waiting_iff, htr, exists_getElem?_cons (P := fun k => Waits (d.step j) (utc k)),
          or_iff_right hhead]
      · have hhead : j = i ∧ ¬ Waits (d.step j) (utc k₀) ↔ j = i :=
          and_iff_left_of_imp fun h => h ▸ hw
        rw [hi.ready_iff, hp.mem_launch,
          exists_getElem?_cons (P := fun k => ¬ Waits (d.step j) (utc k)), hhead, or_assoc]
      · exact addedToWaiting_launch.symm.le.trans hi.le_added
      · intro j k hk
        rcases k with _ | k
        · obtain rfl : i = j := some.inj hk
          exact hw
        · rw [show k₀ + (k + 1) = k₀ + 1 + k by omega]
          exact hi.added (ha.trans addedToWaiting_launch.symm) j k (by simpa using hk)

theorem foldl_clearWaiting (is : List d.Idx) (t : StepTracker d) :
    (is.foldl clearWaiting t) =
      { t with waitingUntil := (is.foldl clearWaiting t).waitingUntil } ∧
    ∀ j, j ∈ (is.foldl clearWaiting t).waitingUntil ↔ j ∈ t.waitingUntil ∧ j ∉ is := by
  induction is generalizing t with
  | nil => exact ⟨rfl, by simp⟩
  | cons i is ih =>
    obtain ⟨hrest, hmem⟩ := ih (t.clearWaiting i)
    refine ⟨hrest, fun j => ?_⟩
    rw [foldl_cons, hmem, clearWaiting, AList.mem_erase, mem_cons, not_or]
    tauto

/-- What a pass leaves: who waits, who launches, and that a pass that put nobody to wait had nobody
who has to. -/
structure Scheduled (utc : Nat → Int) (t : StepTracker d) (scan : ReadyScan d)
    (p : Scheduling d) : Prop where
  rest : p.tracker = { t with waitingUntil := p.tracker.waitingUntil }
  waiting_iff : ∀ j, j ∈ p.tracker.waitingUntil ↔ j ∈ t.waitingUntil ∧ j ∉ scan.waitReady ∨
    ∃ k, scan.depsReady[k]? = some j ∧ Waits (d.step j) (utc k)
  ready_iff : ∀ j, j ∈ p.ready ↔ j ∈ scan.waitReady ∨
    ∃ k, scan.depsReady[k]? = some j ∧ ¬ Waits (d.step j) (utc k)
  nodup : p.ready.Nodup
  added : p.addedToWaiting = 0 → ∀ j k, scan.depsReady[k]? = some j → ¬ Waits (d.step j) (utc k)

theorem scheduleReady_spec {r : Reading d} {scan : ReadyScan d} {p : Scheduling d}
    (h : scheduleReady r t scan = some p) : Scheduled r.utc t scan p := by
  obtain ⟨hrest, hclear⟩ := foldl_clearWaiting scan.waitReady t
  have hbegun : (mk (scan.waitReady.foldl clearWaiting t) ∅ [] 0).Once :=
    ⟨by simp, nodup_nil⟩
  obtain ⟨honce, hready, htr, hadd⟩ := hbegun.foldl_launch scan.waitReady
  have hp := placedAll honce h
  refine ⟨?_, fun j => ?_, fun j => ?_, hp.once.nodup, fun ha => ?_⟩
  · rw [hp.rest, htr, hrest]
  · rw [hp.waiting_iff, htr, hclear]
    simp
  · rw [hp.ready_iff, hready]
    simp
  · have hzero := hp.added (ha.trans hadd.symm)
    simpa using hzero

/-! ## Readings that agree -/

/-- No step that is entered twice has to wait by one reading of the wall clock and not by
another. -/
def Steady (r : Reading d) (scan : ReadyScan d) : Prop :=
  ∀ i j k, scan.depsReady[j]? = some i → scan.depsReady[k]? = some i →
    (Waits (d.step i) (r.utc j) ↔ Waits (d.step i) (r.utc k))

def InRange (r : Reading d) (scan : ReadyScan d) : Prop :=
  ∀ i k, scan.depsReady[k]? = some i →
    r.now + ((d.step i).delay.getD 0 + (scheduleWait (d.step i) (r.utc k)).getD 0) ≤ instantMax

theorem place_isSome {p : Scheduling d} {utc : Int}
    (h : now + ((d.step i).delay.getD 0 + (scheduleWait (d.step i) utc).getD 0) ≤ instantMax) :
    (p.place now utc i).isSome := by
  have hmax : instantMax ≤ durationMax := by decide
  have hwait : ∃ wait, calculateWaitDuration (d.step i) utc = some wait ∧
      now + wait.getD 0 ≤ instantMax := by
    rw [calculateWaitDuration]
    rcases hdelay : (d.step i).delay with _ | delay <;>
      rcases hsched : scheduleWait (d.step i) utc with _ | schedule <;>
      simp only [hdelay, hsched, getD_some] at h
    · exact ⟨none, rfl, by simpa using h⟩
    · exact ⟨some schedule, rfl, by simpa using h⟩
    · exact ⟨some delay, rfl, by simpa using h⟩
    · refine ⟨some (delay + schedule), ?_, h⟩
      simp [checkedAdd, if_pos (show delay + schedule ≤ durationMax by omega)]
  obtain ⟨wait, hw, hle⟩ := hwait
  rw [place, hw]
  rcases wait with _ | duration
  · rfl
  · by_cases hpos : 0 < duration
    · simp only [if_pos hpos, checkedAdd, if_pos (show now + duration ≤ instantMax from hle)]
      rfl
    · simp only [if_neg hpos]
      rfl

/-- **A pass in range ends.** -/
theorem scheduleReady_isSome {r : Reading d} {scan : ReadyScan d} (h : InRange r scan)
    (t : StepTracker d) : (scheduleReady r t scan).isSome := by
  have hall : ∀ (is : List d.Idx) (k₀ : Nat) (p : Scheduling d),
      (∀ i k, is[k]? = some i → r.now + ((d.step i).delay.getD 0 +
        (scheduleWait (d.step i) (r.utc (k₀ + k))).getD 0) ≤ instantMax) →
      (p.placeAll r.now r.utc k₀ is).isSome := by
    intro is
    induction is with
    | nil => exact fun _ _ _ => rfl
    | cons i is ih =>
      intro k₀ p hle
      obtain ⟨p1, hp1⟩ := isSome_iff_exists.mp
        (place_isSome (hle i 0 rfl))
      rw [placeAll]
      simp only [Nat.add_zero] at hp1
      rw [hp1]
      refine ih (k₀ + 1) p1 fun j k hk => ?_
      have hj := hle j (k + 1) (by simpa using hk)
      rwa [show k₀ + (k + 1) = k₀ + 1 + k by omega] at hj
  exact hall scan.depsReady 0 _ fun i k hk => by simpa using h i k hk

end Smg.Workflow
