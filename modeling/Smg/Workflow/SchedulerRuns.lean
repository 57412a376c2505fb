import Mathlib.Data.Fintype.Card
import Smg.Workflow.Passes

/-!
# Every run of the scheduler

What holds in every state a workflow can reach that is not cancelled: each step is launched at most
once and not before its dependencies allow it, the channel takes every message, and the workflow
ends with every step accounted for.

The difficulty is that a check that fails is forgotten.  `Awake` is what makes that safe: a step
whose dependencies allow it has been launched, or waits, or is up for a check, or is in the hands of
the scheduler, or one of its dependencies has a message in the channel.  A check that fails may be
dropped because the step is not satisfied, and what satisfies it later leaves a message.

One hypothesis is needed besides: `Steady`, that in one pass the wall clock does not pass the
scheduled time of a step that is entered twice between its two readings.  Without it the step both
waits and launches, and launches a second time when the wait is over (`launched_twice`).
-/

set_option autoImplicit false

namespace Smg.Workflow

open Run StepTracker Pc
open List hiding take

variable {d : WorkflowDefinition}

/-! ## Moves -/

variable {i : d.Idx} {pc : Pc d}

namespace Pc

def launching : Pc d → List d.Idx
  | .mark ready => ready
  | .spawn rest _ => rest
  | _ => []

/-- The steps the scheduler has in hand: those whose check passed, or those about to be launched. -/
def held : Pc d → List d.Idx
  | .schedule found => found.depsReady
  | pc => pc.launching

/-- The steps that are marked as running and have no task yet. -/
def unspawned : Pc d → List d.Idx
  | .spawn rest _ => rest
  | _ => []

theorem unspawned_subset (h : i ∈ pc.unspawned) : i ∈ pc.held := by
  rcases pc with _ | _ | _ | _ | _ | _ | _ | _ | _ | _ | _ | _ | _ | _ | _ <;>
    simp_all [unspawned, held, launching]

theorem unspawned_eq_nil (h : pc.held = []) : pc.unspawned = [] :=
  eq_nil_iff_forall_not_mem.mpr fun i hi => by simpa [h] using unspawned_subset hi

theorem launching_eq_nil (h : pc.held = []) : pc.launching = [] := by
  rcases pc with _ | _ | _ | _ | _ | _ | _ | _ | _ | _ | _ | _ | _ | _ | _ <;>
    simp_all [held, launching]

end Pc

/-- The moves of a workflow that nobody cancels. -/
inductive Move (run : Run d) : Run d → Prop
  /-- The scheduler goes on with nothing in hand. -/
  | idle (pc : Pc d) (h : run.pc.held = []) (h' : pc.held = []) : Move run { run with pc := pc }
  /-- The scheduler takes a message. -/
  | take (message : Message) (rest : List Message) (pc : Pc d)
    (hc : run.channel = message :: rest) (h : run.pc.held = []) (h' : pc.held = []) :
    Move run { run.take message rest with pc := pc }
  /-- The scheduler reads the tracker. -/
  | scan (r : Reading d) (h : run.pc.held = []) :
    Move run { run with
      pendingCheck := []
      pc := .schedule (scanReady r run.tracker run.pendingCheck) }
  /-- The scheduler makes a pass with readings that agree. -/
  | schedule (r : Reading d) (scan : ReadyScan d) (p : Scheduling d)
    (hpc : run.pc = .schedule scan) (hp : scheduleReady r run.tracker scan = some p)
    (hs : Steady r scan) :
    Move run { run with tracker := p.tracker, pc := Run.verdict scan p run.pendingCheck }
  /-- The scheduler marks what it launches. -/
  | mark (ready : List d.Idx) (hpc : run.pc = .mark ready) :
    Move run { run with
      tracker := { run.tracker with running := run.tracker.running ∪ (ready.map d.idOf).toFinset }
      pc := .spawn ready (!ready.isEmpty) }
  /-- The scheduler launches a step. -/
  | spawn (i : d.Idx) (rest : List d.Idx) (b : Bool) (hpc : run.pc = .spawn (i :: rest) b) :
    Move run { run with
      tasks := run.tasks ++ [i]
      launched := run.launched ++ [i]
      pc := .spawn rest b }
  | settle (i : d.Idx) (signal : StepResult) (hi : i ∈ run.tasks) :
    Move run { run with
      tasks := run.tasks.erase i
      tracker := run.tracker.settle (d.idOf i) signal
      channel := run.channel ++ [(d.idOf i, signal)] }

variable {scan : ReadyScan d} {p : Scheduling d}

/-- After a pass the scheduler has in hand what launches, or nothing. -/
theorem held_verdict {pending : List d.Idx} :
    (verdict scan p pending).held = (verdict scan p pending).launching ∧
    (verdict scan p pending).unspawned = [] ∧
    ((verdict scan p pending).held = p.ready ∨ (verdict scan p pending).held = []) := by
  rw [verdict]
  split
  · exact ⟨rfl, rfl, .inr rfl⟩
  · split
    · exact ⟨rfl, rfl, .inr rfl⟩
    · exact ⟨rfl, rfl, .inl rfl⟩

/-! ## The books -/

/-- The sets of the tracker against the launches: a step has settled when it was launched and its
task is gone, and it is marked running while it has a task or is about to get one. -/
structure Books (run : Run d) : Prop where
  launched_nodup : run.launched.Nodup
  tasks_nodup : run.tasks.Nodup
  tasks_launched : ∀ i ∈ run.tasks, i ∈ run.launched
  settled_iff : ∀ i, run.tracker.Settled (d.idOf i) ↔ i ∈ run.launched ∧ i ∉ run.tasks
  known : ∀ id, run.tracker.Settled id → ∃ i, d.idOf i = id
  done_not_failed : ∀ id, run.tracker.Done id → id ∉ run.tracker.failed
  running_iff : ∀ i, d.idOf i ∈ run.tracker.running ↔ i ∈ run.tasks ∨ i ∈ run.pc.unspawned
  count : run.tracker.totalProcessed + run.tasks.length = run.launched.length

/-- What launches, waits or is in the scheduler's hands is allowed to, and a step is at one of these
stages only. -/
structure Cleared (run : Run d) : Prop where
  launched : ∀ i ∈ run.launched, Satisfied run.tracker i
  waiting : ∀ i ∈ run.tracker.waitingUntil, i ∉ run.launched ∧ Satisfied run.tracker i
  held : ∀ i ∈ run.pc.held, i ∉ run.launched ∧ i ∉ run.tracker.waitingUntil ∧
    Satisfied run.tracker i
  launching_nodup : run.pc.launching.Nodup

/-- **No check is lost**: a satisfied step is somewhere on its way. -/
def Awake (run : Run d) : Prop :=
  ∀ i, Satisfied run.tracker i → i ∈ run.launched ∨ i ∈ run.tracker.waitingUntil ∨
    i ∈ run.pendingCheck ∨ i ∈ run.pc.held ∨
    ∃ m ∈ run.channel, m.2 ≠ .failure ∧ m.1 ∈ (d.step i).allDependencies

/-- The channel holds a message of each settled step at most, and has taken them all. -/
structure Carried (run : Run d) : Prop where
  length_le : run.channel.length + run.tasks.length ≤ run.launched.length
  refused : run.refused = []

/-- Nothing runs or waits, and there are steps that have not settled. -/
structure Quiet (run : Run d) : Prop where
  tasks : run.tasks = []
  waiting : ∀ i, i ∉ run.tracker.waitingUntil
  total : run.tracker.totalProcessed ≠ d.steps.length

def finalStatus (t : StepTracker d) : WorkflowStatus :=
  if ∀ i, t.Done (d.idOf i) then .completed else .failed

/-- No task is left, every step that may run has, and the status says whether all are done. -/
structure Ended (run : Run d) (status : WorkflowStatus) : Prop where
  tasks : run.tasks = []
  launched : ∀ i, Satisfied run.tracker i → i ∈ run.launched
  status_eq : status = finalStatus run.tracker

/-- What the scheduler read is still true where it matters: who waits changes through the scheduler
only, and a count of no running steps stays one. -/
structure ScanHolds (run : Run d) (scan : ReadyScan d) : Prop where
  pending : run.pendingCheck = []
  waitReady : ∀ i ∈ scan.waitReady, i ∈ run.tracker.waitingUntil
  total_le : scan.totalProcessed ≤ run.tracker.totalProcessed
  running : scan.running = 0 → run.tasks = [] ∧ scan.totalProcessed = run.tracker.totalProcessed
  waiting : scan.waiting = 0 → ∀ i, i ∉ run.tracker.waitingUntil

def AtPc (run : Run d) : Pc d → Prop
  | .schedule scan => ScanHolds run scan
  | .redrain drained => Quiet run ∧ (drained = false → run.pendingCheck = [])
  | .blocked => Quiet run ∧ run.pendingCheck = [] ∧ run.channel = []
  | .finish => run.tracker.totalProcessed = d.steps.length
  | .write status => Ended run status
  | .panicked => False
  | _ => True

/-! ## Counting -/

section Counting

variable {run : Run d}

theorem Books.length_le (hb : Books run) : run.launched.length ≤ d.steps.length := by
  simpa using hb.launched_nodup.length_le_card

/-- Once as many steps have settled as there are, all were launched and no task is left. -/
theorem Books.all_of_total (hb : Books run)
    (h : run.tracker.totalProcessed = d.steps.length) :
    run.tasks = [] ∧ ∀ i, i ∈ run.launched := by
  have hle := hb.length_le
  have hcount := hb.count
  refine ⟨length_eq_zero_iff.mp (by omega), fun i => ?_⟩
  have hcard : run.launched.toFinset.card = Fintype.card d.Idx := by
    rw [toFinset_card_of_nodup hb.launched_nodup, Fintype.card_fin]
    omega
  exact mem_toFinset.mp (Finset.eq_univ_of_card _ hcard ▸ Finset.mem_univ i)

/-- While nothing runs and fewer have settled than there are, some step was never launched. -/
theorem Quiet.exists_unlaunched (hq : Quiet run) (hb : Books run) : ∃ i, i ∉ run.launched := by
  by_contra hall
  push Not at hall
  have hle : d.steps.length ≤ run.launched.length := by
    have hsub : (Finset.univ : Finset d.Idx) ⊆ run.launched.toFinset :=
      fun i _ => mem_toFinset.mpr (hall i)
    have hcard := (Finset.card_le_card hsub).trans (toFinset_card_le _)
    simpa using hcard
  have hcount := hb.count
  rw [hq.tasks, length_nil] at hcount
  exact hq.total (hcount.trans (le_antisymm hb.length_le hle))

end Counting

/-! ## What a move keeps -/

variable {r : Reading d}

section Kept

variable {run run' : Run d}

theorem Books.settle (hids : d.DistinctIds) (hb : Books run) (hc : Cleared run)
    (hi : i ∈ run.tasks) (signal : StepResult) {channel : List Message} : Books { run with
      tasks := run.tasks.erase i
      tracker := run.tracker.settle (d.idOf i) signal
      channel := channel } := by
  have hns : ¬ run.tracker.Settled (d.idOf i) := fun h => ((hb.settled_iff i).mp h).2 hi
  have hlen := length_erase_of_mem hi
  have hpos := length_pos_of_mem hi
  have herase : ∀ j, j ∈ run.tasks.erase i ↔ j ≠ i ∧ j ∈ run.tasks :=
    fun j => hb.tasks_nodup.mem_erase_iff
  have hinj : ∀ j, d.idOf j = d.idOf i ↔ j = i :=
    fun j => ⟨fun h => hids.idOf_injective h, fun h => h ▸ rfl⟩
  constructor
  case launched_nodup => exact hb.launched_nodup
  case tasks_nodup => exact hb.tasks_nodup.erase i
  case tasks_launched => exact fun j hj => hb.tasks_launched j (mem_of_mem_erase hj)
  case settled_iff =>
    intro j
    rw [settled_settle, hb.settled_iff, hinj, herase]
    by_cases hj : j = i
    · simp [hj, hb.tasks_launched i hi]
    · simp [hj]
  case known =>
    intro id hid
    rcases settled_settle.mp hid with h | rfl
    · exact hb.known id h
    · exact ⟨i, rfl⟩
  case done_not_failed =>
    intro id hdone hfail
    rw [done_settle] at hdone
    rw [mem_failed_settle] at hfail
    rcases hdone with hdone | ⟨rfl, hs⟩ <;> rcases hfail with hfail | ⟨hid, hs'⟩
    · exact hb.done_not_failed id hdone hfail
    · exact hns (.inl (hid ▸ hdone))
    · exact hns (.inr hfail)
    · exact hs hs'
  case running_iff =>
    intro j
    rw [running_settle, Finset.mem_erase, hb.running_iff, herase, Ne, hinj]
    have hun : j ∈ run.pc.unspawned → j ≠ i := by
      rintro hj rfl
      exact (hc.held j (unspawned_subset hj)).1 (hb.tasks_launched j hi)
    tauto
  case count =>
    simp only [totalProcessed_settle hns]
    have hcount := hb.count
    omega

theorem Books.spawn (hb : Books run) (hc : Cleared run) {rest : List d.Idx} {b : Bool}
    (hpc : run.pc = .spawn (i :: rest) b) : Books { run with
      tasks := run.tasks ++ [i]
      launched := run.launched ++ [i]
      pc := .spawn rest b } := by
  have hi : i ∉ run.launched := (hc.held i (by simp [hpc, Pc.held, launching])).1
  have hit : i ∉ run.tasks := fun h => hi (hb.tasks_launched i h)
  constructor
  case launched_nodup => simpa using hb.launched_nodup.concat hi
  case tasks_nodup => simpa using hb.tasks_nodup.concat hit
  case tasks_launched =>
    intro j hj
    rcases mem_append.mp hj with hj | hj
    · exact mem_append_left _ (hb.tasks_launched j hj)
    · exact mem_append_right _ hj
  case settled_iff =>
    intro j
    rw [hb.settled_iff]
    by_cases hj : j = i
    · simp [hj, hi]
    · simp [hj]
  case known => exact hb.known
  case done_not_failed => exact hb.done_not_failed
  case running_iff =>
    intro j
    rw [hb.running_iff, hpc]
    simp [unspawned, or_assoc]
  case count =>
    have hcount := hb.count
    simp only [length_append]
    omega

/-- **The books stay right.** -/
theorem Books.move (hids : d.DistinctIds) (hb : Books run) (hc : Cleared run)
    (hm : Move run run') : Books run' := by
  cases hm with
  | idle pc h h' =>
    refine { hb with running_iff := fun i => ?_ }
    rw [hb.running_iff, unspawned_eq_nil h, unspawned_eq_nil h']
  | take message rest pc hch h h' =>
    refine { hb with running_iff := fun i => ?_ }
    rw [take, hb.running_iff, unspawned_eq_nil h, unspawned_eq_nil h']
  | scan r h =>
    refine { hb with running_iff := fun i => ?_ }
    rw [hb.running_iff, unspawned_eq_nil h]
    rfl
  | schedule r scan p hpc hp hs =>
    have hrest := (scheduleReady_spec hp).rest
    have hun : run.pc.unspawned = [] := by rw [hpc]; rfl
    rw [hrest]
    refine { hb with running_iff := fun i => ?_ }
    rw [hb.running_iff, hun, held_verdict.2.1]
  | mark ready hpc =>
    refine { hb with running_iff := fun i => ?_ }
    have hun : run.pc.unspawned = [] := by rw [hpc]; rfl
    have hmem : d.idOf i ∈ ready.map d.idOf ↔ i ∈ ready := by
      refine ⟨fun h => ?_, mem_map_of_mem⟩
      obtain ⟨j, hj, hji⟩ := mem_map.mp h
      exact hids.idOf_injective hji ▸ hj
    rw [Finset.mem_union, mem_toFinset, hmem, hb.running_iff, hun]
    simp [unspawned]
  | spawn i rest b hpc => exact hb.spawn hc hpc
  | settle i signal hi => exact hb.settle hids hc hi signal

theorem Scheduled.not_waiting {t : StepTracker d} (hp : Scheduled r.utc t scan p)
    (hs : Steady r scan) (hwait : ∀ i ∈ scan.waitReady, i ∈ t.waitingUntil)
    (hdeps : ∀ i ∈ scan.depsReady, i ∉ t.waitingUntil) (hi : i ∈ p.ready) :
    i ∉ p.tracker.waitingUntil := by
  rw [hp.waiting_iff]
  rcases (hp.ready_iff i).mp hi with hi | ⟨k, hk, hw⟩
  · rintro (⟨-, hn⟩ | ⟨k, hk, -⟩)
    · exact hn hi
    · exact hdeps i (mem_of_getElem? hk) (hwait i hi)
  · rintro (⟨hw', -⟩ | ⟨j, hj, hw'⟩)
    · exact hdeps i (mem_of_getElem? hk) hw'
    · exact hw ((hs i j k hj hk).mp hw')

theorem Cleared.schedule (hc : Cleared run) (hpc : run.pc = .schedule scan)
    (hp : scheduleReady r run.tracker scan = some p) (hs : Steady r scan)
    (hat : ScanHolds run scan) :
    Cleared { run with tracker := p.tracker, pc := verdict scan p run.pendingCheck } := by
  have hspec := scheduleReady_spec hp
  have hsat : ∀ i, Satisfied run.tracker i → Satisfied p.tracker i := fun i h => by
    rw [hspec.rest]
    exact h
  have hheld : ∀ i ∈ scan.depsReady, i ∉ run.launched ∧ i ∉ run.tracker.waitingUntil ∧
      Satisfied run.tracker i := by
    simpa [hpc, Pc.held] using hc.held
  have hready : ∀ i ∈ p.ready, i ∉ run.launched ∧ Satisfied run.tracker i := by
    intro i hi
    rcases (hspec.ready_iff i).mp hi with hi | ⟨k, hk, -⟩
    · exact hc.waiting i (hat.waitReady i hi)
    · obtain ⟨hl, -, hsi⟩ := hheld i (mem_of_getElem? hk)
      exact ⟨hl, hsi⟩
  constructor
  case launched => exact fun i hi => hsat i (hc.launched i hi)
  case waiting =>
    intro i hi
    rcases (hspec.waiting_iff i).mp hi with ⟨hw, -⟩ | ⟨k, hk, -⟩
    · exact ⟨(hc.waiting i hw).1, hsat i (hc.waiting i hw).2⟩
    · obtain ⟨hl, -, hsi⟩ := hheld i (mem_of_getElem? hk)
      exact ⟨hl, hsat i hsi⟩
  case held =>
    intro i hi
    have hi : i ∈ p.ready := by
      rcases held_verdict.2.2 with h | h
      · exact h ▸ hi
      · exact absurd (h ▸ hi) (by simp)
    exact ⟨(hready i hi).1, hspec.not_waiting hs hat.waitReady (fun j hj => (hheld j hj).2.1) hi,
      hsat i (hready i hi).2⟩
  case launching_nodup =>
    rw [← held_verdict.1]
    rcases held_verdict.2.2 with h | h <;> rw [h]
    · exact hspec.nodup
    · exact nodup_nil

/-- **What is launched, waits or is about to be launched stays cleared for it.** -/
theorem Cleared.move (hb : Books run) (hc : Cleared run)
    (hat : ∀ scan, run.pc = .schedule scan → ScanHolds run scan) (hm : Move run run') :
    Cleared run' := by
  cases hm with
  | idle pc h h' =>
    exact { hc with held := by simp [h'], launching_nodup := by simp [launching_eq_nil h'] }
  | take message rest pc hch h h' =>
    exact { hc with held := by simp [h'], launching_nodup := by simp [launching_eq_nil h'] }
  | scan r h =>
    refine { hc with held := fun i hi => ?_, launching_nodup := nodup_nil }
    have hpass : passesCheck run.tracker i = true := (mem_filter.mp hi).2
    obtain ⟨hns, hnr, hnw, hsat⟩ := (passesCheck_iff hb.done_not_failed i).mp hpass
    refine ⟨fun hl => ?_, hnw, hsat⟩
    by_cases ht : i ∈ run.tasks
    · exact hnr ((hb.running_iff i).mpr (.inl ht))
    · exact hns ((hb.settled_iff i).mpr ⟨hl, ht⟩)
  | schedule r scan p hpc hp hs => exact hc.schedule hpc hp hs (hat scan hpc)
  | mark ready hpc =>
    have hheld := hc.held
    have hnodup := hc.launching_nodup
    rw [hpc] at hheld hnodup
    exact ⟨hc.launched, hc.waiting, hheld, hnodup⟩
  | spawn i rest b hpc =>
    have hheld := hc.held
    have hnodup := hc.launching_nodup
    rw [hpc] at hheld hnodup
    obtain ⟨hil, hiw, his⟩ := hheld i mem_cons_self
    obtain ⟨hir, hrest⟩ := nodup_cons.mp hnodup
    constructor
    case launched =>
      exact forall_mem_append.mpr ⟨hc.launched, forall_mem_singleton.mpr his⟩
    case waiting =>
      intro j hj
      refine ⟨fun hl => ?_, (hc.waiting j hj).2⟩
      rcases mem_append.mp hl with hl | hl
      · exact (hc.waiting j hj).1 hl
      · exact hiw (mem_singleton.mp hl ▸ hj)
    case held =>
      intro j hj
      obtain ⟨hjl, hjw, hjs⟩ := hheld j (mem_cons_of_mem i hj)
      refine ⟨fun hl => ?_, hjw, hjs⟩
      rcases mem_append.mp hl with hl | hl
      · exact hjl hl
      · exact hir (mem_singleton.mp hl ▸ hj)
    case launching_nodup => exact hrest
  | settle i signal hi =>
    have hmono : ∀ j, Satisfied run.tracker j →
        Satisfied (run.tracker.settle (d.idOf i) signal) j :=
      fun j h => h.mono fun id hid => done_settle.mpr (.inl hid)
    have hw := @waitingUntil_settle d run.tracker (d.idOf i) signal
    constructor
    case launched => exact fun j hj => hmono j (hc.launched j hj)
    case waiting =>
      intro j hj
      obtain ⟨hl, hs⟩ := hc.waiting j (hw ▸ hj)
      exact ⟨hl, hmono j hs⟩
    case held =>
      intro j hj
      obtain ⟨hl, hnw, hs⟩ := hc.held j hj
      exact ⟨hl, by rw [hw]; exact hnw, hmono j hs⟩
    case launching_nodup => exact hc.launching_nodup

theorem Awake.schedule (hw : Awake run) (hb : Books run) (hpc : run.pc = .schedule scan)
    (hp : scheduleReady r run.tracker scan = some p) (hat : ScanHolds run scan) :
    Awake { run with tracker := p.tracker, pc := verdict scan p run.pendingCheck } := by
  have hspec := scheduleReady_spec hp
  intro i hi
  have hsat : Satisfied run.tracker i := by
    rw [hspec.rest] at hi
    exact hi
  -- a step that waited or was in hand waits or launches
  have hplaced : i ∈ run.tracker.waitingUntil ∨ i ∈ run.pc.held →
      i ∈ p.tracker.waitingUntil ∨ i ∈ p.ready := by
    rw [hpc, hspec.waiting_iff, hspec.ready_iff]
    rintro (hi | hi)
    · by_cases hr : i ∈ scan.waitReady
      · exact .inr (.inl hr)
      · exact .inl (.inl ⟨hi, hr⟩)
    · obtain ⟨k, hk⟩ := mem_iff_getElem?.mp hi
      by_cases hwt : Waits (d.step i) (r.utc k)
      · exact .inl (.inr ⟨k, hk, hwt⟩)
      · exact .inr (.inr ⟨k, hk, hwt⟩)
  have hready : i ∈ p.ready → i ∈ run.launched ∨
      i ∈ (verdict scan p run.pendingCheck).held := by
    intro hr
    rw [verdict]
    split
    · have hle := hat.total_le
      have hcount := hb.count
      have hlen := hb.length_le
      exact .inl ((hb.all_of_total (by omega)).2 i)
    · split
      · rename_i hnil
        exact absurd hr (by simp [hnil.1])
      · exact .inr hr
  rcases hw i hsat with h | h | h | h | h
  · exact .inl h
  · rcases hplaced (.inl h) with h | h
    · exact .inr (.inl h)
    · exact (hready h).imp_right fun h => .inr (.inr (.inl h))
  · exact .inr (.inr (.inl h))
  · rcases hplaced (.inr h) with h | h
    · exact .inr (.inl h)
    · exact (hready h).imp_right fun h => .inr (.inr (.inl h))
  · exact .inr (.inr (.inr (.inr h)))

/-- **No move loses a check.** -/
theorem Awake.move (hd : d.Valid) (hw : Awake run) (hb : Books run)
    (hat : ∀ scan, run.pc = .schedule scan → ScanHolds run scan) (hm : Move run run') :
    Awake run' := by
  cases hm with
  | idle pc h h' =>
    intro i hi
    have hi' := hw i hi
    rw [h] at hi'
    rw [h']
    exact hi'
  | take message rest pc hch h h' =>
    intro i hi
    have hi' := hw i hi
    rw [h, hch] at hi'
    simp only [take, mem_enqueueDependents hd]
    rcases hi' with hi' | hi' | hi' | hi' | ⟨m, hm, hmi⟩
    · exact .inl hi'
    · exact .inr (.inl hi')
    · exact .inr (.inr (.inl (.inl hi')))
    · cases hi'
    · rcases mem_cons.mp hm with rfl | hm
      · exact .inr (.inr (.inl (.inr hmi)))
      · exact .inr (.inr (.inr (.inr ⟨m, hm, hmi⟩)))
  | scan r h =>
    intro i hi
    have hi' := hw i hi
    rw [h] at hi'
    by_cases hl : i ∈ run.launched
    · exact .inl hl
    by_cases hwt : i ∈ run.tracker.waitingUntil
    · exact .inr (.inl hwt)
    rcases hi' with hi' | hi' | hi' | hi' | hi'
    · exact absurd hi' hl
    · exact absurd hi' hwt
    · -- nothing has become of the step, so its check passes
      have hns : ¬ run.tracker.Settled (d.idOf i) := fun hs => hl ((hb.settled_iff i).mp hs).1
      have hnr : d.idOf i ∉ run.tracker.running := by
        rw [hb.running_iff, unspawned_eq_nil h]
        rintro (ht | ht)
        · exact hl (hb.tasks_launched i ht)
        · simp at ht
      have hpass := (passesCheck_iff hb.done_not_failed i).mpr ⟨hns, hnr, hwt, hi⟩
      exact .inr (.inr (.inr (.inl (mem_filter.mpr ⟨hi', hpass⟩))))
    · cases hi'
    · exact .inr (.inr (.inr (.inr hi')))
  | schedule r scan p hpc hp hs => exact hw.schedule hb hpc hp (hat scan hpc)
  | mark ready hpc =>
    intro i hi
    have hi' := hw i hi
    rw [hpc] at hi'
    exact hi'
  | spawn j rest b hpc =>
    intro i hi
    have hi' := hw i hi
    rw [hpc] at hi'
    rcases hi' with hi' | hi' | hi' | hi' | hi'
    · exact .inl (mem_append_left _ hi')
    · exact .inr (.inl hi')
    · exact .inr (.inr (.inl hi'))
    · rcases mem_cons.mp hi' with rfl | hi'
      · exact .inl (by simp)
      · exact .inr (.inr (.inr (.inl hi')))
    · exact .inr (.inr (.inr (.inr hi')))
  | settle j signal hj =>
    intro i hi
    have hwt := @waitingUntil_settle d run.tracker (d.idOf j) signal
    by_cases hold : Satisfied run.tracker i
    · rcases hw i hold with hi' | hi' | hi' | hi' | ⟨m, hm, hmi⟩
      · exact .inl hi'
      · exact .inr (.inl (by rw [hwt]; exact hi'))
      · exact .inr (.inr (.inl hi'))
      · exact .inr (.inr (.inr (.inl hi')))
      · exact .inr (.inr (.inr (.inr ⟨m, mem_append_left _ hm, hmi⟩)))
    · -- what satisfies the step now is the one that settles, and it leaves a message
      obtain ⟨dep, hdep, hdone, hnot⟩ := hi.exists_new hold
      rcases done_settle.mp hdone with hdone | ⟨rfl, hs⟩
      · exact absurd hdone hnot
      · exact .inr (.inr (.inr (.inr ⟨(d.idOf j, signal), by simp, hs, hdep⟩)))

/-- **The channel never holds more than have settled.** -/
theorem Carried.move (hk : Carried run) (hm : Move run run') : Carried run' := by
  have hle := hk.length_le
  cases hm with
  | idle pc h h' => exact ⟨hle, hk.refused⟩
  | take message rest pc hch h h' =>
    rw [hch, length_cons] at hle
    exact ⟨by simp only [take]; omega, hk.refused⟩
  | scan r h => exact ⟨hle, hk.refused⟩
  | schedule r scan p hpc hp hs => exact ⟨hle, hk.refused⟩
  | mark ready hpc => exact ⟨hle, hk.refused⟩
  | spawn i rest b hpc =>
    exact ⟨by simp only [length_append]; omega, hk.refused⟩
  | settle i signal hi =>
    have hlen := length_erase_of_mem hi
    have hpos := length_pos_of_mem hi
    exact ⟨by simp only [length_append, length_singleton]; omega, hk.refused⟩

end Kept

/-! ## The invariant -/

/-- What holds in every state of a workflow that nobody cancels: the parts above, what is known
where the scheduler is, and that the status is written at the end. -/
structure Inv (x : Instance d) : Prop where
  books : Books x.run
  cleared : Cleared x.run
  awake : Awake x.run
  carried : Carried x.run
  atPc : AtPc x.run x.run.pc
  running : x.run.pc ≠ .done → x.status = some .running
  ended : x.run.pc = .done → ∃ status, x.status = some status ∧ Ended x.run status

/-- An action of a run without cancellation: a pass of the scheduler whose readings agree and in
which the clock does not overflow, any other move of it, or the end of a task. -/
def Undisturbed (x : Instance d) : Action d → Prop
  | .sched r => ∀ scan, x.run.pc = .schedule scan → Steady r scan ∧ InRange r scan
  | .settle _ _ _ => True
  | .cancel => False
  | .cleanup => False

theorem inv_start (hd : d.Valid) : Inv (Instance.start d) := by
  refine ⟨⟨?_, ?_, ?_, ?_, ?_, ?_, ?_, ?_⟩, ⟨?_, ?_, ?_, ?_⟩, ?_, ⟨?_, rfl⟩, trivial, fun _ => rfl,
    ?_⟩
  all_goals
    simp [Instance.start, start, StepTracker.Settled, StepTracker.Done,
      totalProcessed, unspawned, Pc.held, launching]
  intro i hi
  -- with nothing done, only a step without dependencies is satisfied
  have hnil : (d.step i).allDependencies = [] := by
    obtain ⟨hall, hany⟩ := hi
    have hon : (d.step i).dependsOn = [] :=
      eq_nil_iff_forall_not_mem.mpr fun dep hdep => by
        simpa [StepTracker.Done] using hall dep hdep
    rcases hany with hany | ⟨dep, -, hdone⟩
    · simp [StepDefinition.allDependencies, hon, hany]
    · simp [StepTracker.Done] at hdone
  exact .inr (.inr (.inl ((hd.initial i).mpr hnil)))

section Steps

variable {x : Instance d}

theorem Inv.here (hx : Inv x) (hpc : x.run.pc = pc) : AtPc x.run pc := hpc ▸ hx.atPc

/-- What a move of the system gives, with what is known where it leads and of the status. -/
theorem Inv.move (hd : d.Valid) (hids : d.DistinctIds) (hx : Inv x) {run' : Run d}
    (hm : Move x.run run') {status : Option WorkflowStatus}
    (hat : AtPc run' run'.pc) (hrun : run'.pc ≠ .done → status = some .running)
    (hend : run'.pc = .done → ∃ st, status = some st ∧ Ended run' st) : Inv ⟨run', status⟩ := by
  have hscan : ∀ scan, x.run.pc = .schedule scan → ScanHolds x.run scan := fun scan => hx.here
  exact ⟨hx.books.move hids hx.cleared hm, hx.cleared.move hx.books hscan hm,
    hx.awake.move hd hx.books hscan hm, hx.carried.move hm, hat, hrun, hend⟩

variable {run : Run d}

/-- What is known where the scheduler is survives the end of a task; where it relies on there being
none, none ends. -/
theorem AtPc.settle (hb : Books run) (hi : i ∈ run.tasks) (signal : StepResult)
    (hat : AtPc run pc) : AtPc { run with
      tasks := run.tasks.erase i
      tracker := run.tracker.settle (d.idOf i) signal
      channel := run.channel ++ [(d.idOf i, signal)] } pc := by
  have hne : run.tasks ≠ [] := ne_nil_of_mem hi
  have hns : ¬ run.tracker.Settled (d.idOf i) := fun h => ((hb.settled_iff i).mp h).2 hi
  have hw := @waitingUntil_settle d run.tracker (d.idOf i) signal
  cases pc with
  | schedule scan =>
    obtain ⟨hp, hwr, hle, hrun, hwait⟩ := hat
    refine ⟨hp, fun j hj => by rw [hw]; exact hwr j hj, ?_, fun h => absurd (hrun h).1 hne,
      fun h => by rw [hw]; exact hwait h⟩
    simp only [totalProcessed_settle hns]
    omega
  | redrain drained => exact absurd hat.1.tasks hne
  | blocked => exact absurd hat.1.tasks hne
  | finish => exact absurd (hb.all_of_total hat).1 hne
  | write status => exact absurd hat.tasks hne
  | panicked => exact hat
  | _ => trivial

/-- **The end of a task keeps the invariant**; in particular the channel takes its message. -/
theorem Inv.settle (hd : d.Valid) (hids : d.DistinctIds) (hx : Inv x) (i : d.Idx) (gate : Gate)
    (result : Option StepResult) : Inv { x with run := x.run.settle i gate result } := by
  by_cases hi : i ∈ x.run.tasks
  swap
  · rw [Run.settle, if_neg hi]
    exact hx
  have hne : x.run.tasks ≠ [] := ne_nil_of_mem hi
  have hdone : x.run.pc ≠ .done := fun hpc => by
    obtain ⟨_, -, hend⟩ := hx.ended hpc
    exact hne hend.tasks
  have hopen : x.run.closed = false := by
    rw [closed]
    split
    · rename_i hpc
      exact absurd hpc hdone
    · rename_i hpc
      exact (hx.here hpc).elim
    · rfl
  have hroom : x.run.channel.length < max d.steps.length 1 := by
    have hpos := length_pos_of_mem hi
    have hle := hx.carried.length_le
    have hlen := hx.books.length_le
    omega
  have hsettle : x.run.settle i gate result = { x.run with
      tasks := x.run.tasks.erase i
      tracker := x.run.tracker.settle (d.idOf i) (Completion.ofStep (d.step i) gate result).signal
      channel := x.run.channel ++
        [(d.idOf i, (Completion.ofStep (d.step i) gate result).signal)] } := by
    rw [Run.settle, if_pos hi]
    simp [send, hroom]
    exact hopen
  rw [hsettle]
  exact hx.move hd hids (.settle i _ hi) (hx.atPc.settle hx.books hi _) hx.running
    fun h => absurd h hdone

theorem Books.scanHolds (hb : Books run) (r : Reading d) : ScanHolds { run with
      pendingCheck := []
      pc := .schedule (scanReady r run.tracker run.pendingCheck) }
      (scanReady r run.tracker run.pendingCheck) := by
  refine ⟨rfl, fun i hi => ?_, le_rfl, fun h => ⟨?_, rfl⟩, fun h i hi => ?_⟩
  · exact mem_getReadyWaitingIndices (r.order.mem.mp hi)
  · have hempty : run.tracker.running = ∅ := Finset.card_eq_zero.mp h
    refine eq_nil_iff_forall_not_mem.mpr fun i hi => ?_
    have hmem := (hb.running_iff i).mpr (.inl hi)
    simp [hempty] at hmem
  · have hnil : run.tracker.waitingUntil.keys = [] := length_eq_zero_iff.mp h
    rw [AList.mem_keys, hnil] at hi
    simp at hi

/-- A pass leads to the end when all steps have settled, and to the blocked test when nothing runs
or waits. -/
theorem ScanHolds.verdict (hb : Books run) (hp : scheduleReady r run.tracker scan = some p)
    (hat : ScanHolds run scan) :
    AtPc { run with tracker := p.tracker, pc := verdict scan p run.pendingCheck }
      (verdict scan p run.pendingCheck) := by
  have hspec := scheduleReady_spec hp
  have htotal : p.tracker.totalProcessed = run.tracker.totalProcessed := by
    rw [hspec.rest]
    rfl
  by_cases hall : scan.totalProcessed = d.steps.length
  · have hv : Run.verdict scan p run.pendingCheck = .finish := by rw [Run.verdict, if_pos hall]
    have hle := hat.total_le
    have hcount := hb.count
    have hlen := hb.length_le
    rw [hv]
    exact htotal.trans (by omega)
  by_cases hstuck : p.ready = [] ∧ scan.running = 0 ∧ scan.waiting + p.addedToWaiting = 0 ∧
      run.pendingCheck = []
  · have hv : Run.verdict scan p run.pendingCheck = .redrain false := by
      rw [Run.verdict, if_neg hall, if_pos hstuck]
    obtain ⟨hready, hrunning, hwaiting, hpending⟩ := hstuck
    obtain ⟨htasks, heq⟩ := hat.running hrunning
    rw [hv]
    refine ⟨⟨htasks, fun i hi => ?_, ?_⟩, fun _ => hpending⟩
    · rcases (hspec.waiting_iff i).mp hi with ⟨hw, -⟩ | ⟨k, hk, hw⟩
      · exact hat.waiting (by omega) i hw
      · exact hspec.added (by omega) i k hk hw
    · rw [htotal, ← heq]
      exact hall
  · rw [Run.verdict, if_neg hall, if_neg hstuck]
    trivial

/-- A workflow that is blocked has launched every step that may run, and not every step. -/
theorem Inv.ended_of_blocked (hx : Inv x) (hpc : x.run.pc = .blocked) :
    Ended x.run .failed := by
  obtain ⟨hq, hpending, hchannel⟩ := hx.here hpc
  refine ⟨hq.tasks, fun i hi => ?_, ?_⟩
  · rcases hx.awake i hi with h | h | h | h | ⟨m, hm, -⟩
    · exact h
    · exact absurd h (hq.waiting i)
    · simp [hpending] at h
    · simp [hpc, Pc.held, launching] at h
    · simp [hchannel] at hm
  · obtain ⟨i, hi⟩ := hq.exists_unlaunched hx.books
    rw [finalStatus, if_neg]
    exact fun hall => hi ((hx.books.settled_iff i).mp (.inl (hall i))).1

/-- A workflow all of whose steps have settled is completed unless one of them failed. -/
theorem Inv.ended_of_finish (hx : Inv x) (hpc : x.run.pc = .finish) :
    Ended x.run (if x.run.tracker.failed = ∅ then .completed else .failed) := by
  obtain ⟨htasks, hall⟩ := hx.books.all_of_total (hx.here hpc)
  refine ⟨htasks, fun i _ => hall i, ?_⟩
  by_cases hf : x.run.tracker.failed = ∅
  · have hdone : ∀ i, x.run.tracker.Done (d.idOf i) := fun i => by
      have hs := (hx.books.settled_iff i).mpr ⟨hall i, by simp [htasks]⟩
      exact hs.resolve_right (by simp [hf])
    rw [if_pos hf, finalStatus, if_pos hdone]
  · obtain ⟨id, hid⟩ := Finset.nonempty_of_ne_empty hf
    obtain ⟨i, rfl⟩ := hx.books.known id (.inr hid)
    rw [if_neg hf, finalStatus, if_neg]
    exact fun hdone => hx.books.done_not_failed _ (hdone i) hid

/-- Where the scheduler neither has ended nor is about to write the status. -/
def Pc.Midway : Pc d → Prop
  | .done | .write _ => False
  | _ => True

section Sched

variable (hd : d.Valid) (hids : d.DistinctIds) (hx : Inv x) {pc : Pc d}
  (hpc : x.run.pc = pc) (hmid : pc.Midway)

include hd hids hx hpc hmid

/-- A move that neither ends the workflow nor writes its status. -/
theorem Inv.go {run' : Run d} (hm : Move x.run run') (hat : AtPc run' run'.pc)
    (hdone : run'.pc ≠ .done) : Inv ⟨run', x.run.stores x.status⟩ := by
  have hstores : x.run.stores x.status = some .running := by
    rw [stores, hpc]
    split
    · exact hmid.elim
    · exact hx.running fun h => by rw [← hpc, h] at hmid; exact hmid
  exact hx.move hd hids hm hat (fun _ => hstores) fun h => absurd h hdone

theorem Inv.jump {pc' : Pc d} (hheld : pc.held = []) (hheld' : pc'.held = [])
    (hat : AtPc { x.run with pc := pc' } pc') (hdone : pc' ≠ .done) :
    Inv ⟨{ x.run with pc := pc' }, x.run.stores x.status⟩ :=
  hx.go hd hids hpc hmid (.idle _ (hpc ▸ hheld) hheld') hat hdone

end Sched

/-- **A move of the scheduler keeps the invariant.** -/
theorem Inv.sched (hd : d.Valid) (hids : d.DistinctIds) (hx : Inv x) (r : Reading d)
    (hr : ∀ scan, x.run.pc = .schedule scan → Steady r scan ∧ InRange r scan) :
    Inv ⟨x.run.advance r x.status, x.run.stores x.status⟩ := by
  rw [advance.eq_def]
  cases hpc : x.run.pc with dsimp only
  | top =>
    have hgo : Inv ⟨{ x.run with pc := .drain }, x.run.stores x.status⟩ :=
      hx.jump hd hids hpc trivial rfl rfl trivial nofun
    rw [hx.running (by simp [hpc])] at hgo ⊢
    exact hgo
  | drain =>
    split
    · exact hx.jump hd hids hpc trivial rfl rfl trivial nofun
    · rename_i message rest hch
      have htake : x.run.take message rest = { x.run.take message rest with pc := .drain } := by
        rw [take, hpc]
      rw [htake]
      exact hx.go hd hids hpc trivial (.take _ _ _ hch (by rw [hpc]; rfl) rfl) trivial nofun
  | scan =>
    exact hx.go hd hids hpc trivial (.scan r (by rw [hpc]; rfl)) (hx.books.scanHolds r) nofun
  | schedule scan =>
    obtain ⟨hsteady, hrange⟩ := hr scan hpc
    obtain ⟨p, hp⟩ := Option.isSome_iff_exists.mp (scheduleReady_isSome hrange x.run.tracker)
    rw [hp]
    refine hx.go hd hids hpc trivial (.schedule r scan p hpc hp hsteady)
      (ScanHolds.verdict hx.books hp (hx.here hpc)) ?_
    simp only [verdict]
    split
    · simp
    · split <;> simp
  | mark ready => exact hx.go hd hids hpc trivial (.mark ready hpc) trivial nofun
  | spawn ready b =>
    cases ready with
    | nil => exact hx.jump hd hids hpc trivial rfl rfl trivial nofun
    | cons i rest => exact hx.go hd hids hpc trivial (.spawn i rest b hpc) trivial nofun
  | look b =>
    split
    · exact hx.jump hd hids hpc trivial rfl rfl trivial nofun
    · split <;> exact hx.jump hd hids hpc trivial rfl rfl trivial nofun
  | recv =>
    split
    · rw [stores, hpc]
      exact hx
    · rename_i message rest hch
      exact hx.go hd hids hpc trivial (.take _ _ _ hch (by rw [hpc]; rfl) rfl) trivial nofun
  | sleep => exact hx.jump hd hids hpc trivial rfl rfl trivial nofun
  | redrain drained =>
    obtain ⟨hq, hpending⟩ := hx.here hpc
    split
    · rename_i hch
      cases drained with
      | false =>
        exact hx.jump hd hids hpc trivial rfl rfl
          ⟨⟨hq.tasks, hq.waiting, hq.total⟩, hpending rfl, hch⟩ nofun
      | true => exact hx.jump hd hids hpc trivial rfl rfl trivial nofun
    · rename_i message rest hch
      exact hx.go hd hids hpc trivial (.take _ _ _ hch (by rw [hpc]; rfl) rfl)
        ⟨⟨hq.tasks, hq.waiting, hq.total⟩, nofun⟩ nofun
  | blocked =>
    have hend := hx.ended_of_blocked hpc
    exact hx.jump hd hids hpc trivial rfl rfl ⟨hend.tasks, hend.launched, hend.status_eq⟩ nofun
  | finish =>
    have hend := hx.ended_of_finish hpc
    exact hx.jump hd hids hpc trivial rfl rfl ⟨hend.tasks, hend.launched, hend.status_eq⟩ nofun
  | write st =>
    have hstores : x.run.stores x.status = some st := by
      simp [stores, hpc, hx.running (by simp [hpc])]
    have hat := hx.here hpc
    rw [hstores]
    exact hx.move hd hids (.idle _ (by rw [hpc]; rfl) rfl) trivial (by simp)
      fun _ => ⟨st, rfl, hat.tasks, hat.launched, hat.status_eq⟩
  | done =>
    rw [stores, hpc]
    exact hx
  | panicked => exact (hx.here hpc).elim

/-- **The invariant holds in every state a workflow reaches that nobody cancels.** -/
theorem inv_of_reaches (hd : d.Valid) (hids : d.DistinctIds)
    (hx : Reaches Instance.exec Undisturbed (Instance.start d) x) : Inv x := by
  refine hx.invariant (inv_start hd) fun x a hinv ha => ?_
  cases a with
  | sched r => exact hinv.sched hd hids r ha
  | settle i gate result => exact hinv.settle hd hids i gate result
  | cancel => exact ha.elim
  | cleanup => exact ha.elim

end Steps

/-! ## What a run owes -/

/-- A dependency that did not come about: it failed, or was never launched. -/
def Run.Missed (run : Run d) (dep : StepId) : Prop :=
  dep ∈ run.tracker.failed ∨ ∀ j ∈ run.launched, d.idOf j ≠ dep

/-- What is promised of every state of a workflow that nobody cancels. -/
structure SoundlyScheduled (x : Instance d) : Prop where
  once : x.run.launched.Nodup
  /-- A step about to be launched has its dependencies. -/
  atLaunch : ∀ i rest b, x.run.pc = .spawn (i :: rest) b → Satisfied x.run.tracker i
  /-- A step that was launched has its dependencies. -/
  launched : ∀ i ∈ x.run.launched, Satisfied x.run.tracker i
  /-- The channel took every message. -/
  taken : x.run.refused = []
  alive : x.run.pc ≠ .panicked
  /-- The blocked verdict has a failed step. -/
  blocked : x.run.pc = .blocked → ∃ i, d.idOf i ∈ x.run.tracker.failed
  /-- At the end, a step that was never launched could not be. -/
  stuck : x.run.pc = .done → ∀ i, i ∉ x.run.launched →
    (∃ dep ∈ (d.step i).dependsOn, x.run.Missed dep) ∨
      (d.step i).dependsOnAny ≠ [] ∧ ∀ dep ∈ (d.step i).dependsOnAny, x.run.Missed dep
  /-- At the end, the stored status says whether all steps completed or were skipped. -/
  status : x.run.pc = .done → x.status = some (finalStatus x.run.tracker)

section Owed

variable {x : Instance d}

/-- With no task left, a dependency that is not done was missed. -/
theorem Inv.missed (hx : Inv x) (htasks : x.run.tasks = []) {dep : StepId}
    (hdep : ¬ x.run.tracker.Done dep) : x.run.Missed dep := by
  by_cases hf : dep ∈ x.run.tracker.failed
  · exact .inl hf
  · refine .inr fun j hj hid => ?_
    have hs := (hx.books.settled_iff j).mpr ⟨hj, by simp [htasks]⟩
    rw [hid] at hs
    exact hs.elim hdep hf

/-- **The blocked verdict is never reached without a failed step**: along the dependencies, every
step would have been launched. -/
theorem Inv.failed_of_blocked (hd : d.Valid) (hids : d.DistinctIds) (hx : Inv x)
    (hpc : x.run.pc = .blocked) : ∃ i, d.idOf i ∈ x.run.tracker.failed := by
  have hend := hx.ended_of_blocked hpc
  by_contra hnone
  push Not at hnone
  have hall : ∀ i, i ∈ x.run.launched := by
    refine hd.induction hids fun i ih => hend.launched i ?_
    have hdone : ∀ dep ∈ (d.step i).allDependencies, x.run.tracker.Done dep := by
      intro dep hdep
      obtain ⟨j, rfl⟩ := hd.known i dep hdep
      have hs := (hx.books.settled_iff j).mpr ⟨ih j hdep, by simp [hend.tasks]⟩
      exact hs.resolve_right (hnone j)
    refine ⟨fun dep hdep => hdone dep (mem_append_left _ hdep), ?_⟩
    rcases hany : (d.step i).dependsOnAny with _ | ⟨dep, deps⟩
    · exact .inl rfl
    · refine .inr ⟨dep, mem_cons_self, hdone dep (mem_append_right _ ?_)⟩
      rw [hany]
      exact mem_cons_self
  obtain ⟨i, hi⟩ := (hx.here hpc).1.exists_unlaunched hx.books
  exact hi (hall i)

theorem Inv.stuck (hx : Inv x) (hpc : x.run.pc = .done) (hi : i ∉ x.run.launched) :
    (∃ dep ∈ (d.step i).dependsOn, x.run.Missed dep) ∨
      (d.step i).dependsOnAny ≠ [] ∧ ∀ dep ∈ (d.step i).dependsOnAny, x.run.Missed dep := by
  obtain ⟨_, -, hend⟩ := hx.ended hpc
  have hns : ¬ Satisfied x.run.tracker i := fun h => hi (hend.launched i h)
  by_cases hall : ∀ dep ∈ (d.step i).dependsOn, x.run.tracker.Done dep
  · refine .inr ⟨fun hnil => hns ⟨hall, .inl hnil⟩, fun dep hdep => hx.missed hend.tasks ?_⟩
    exact fun hdone => hns ⟨hall, .inr ⟨dep, hdep, hdone⟩⟩
  · push Not at hall
    obtain ⟨dep, hdep, hnot⟩ := hall
    exact .inl ⟨dep, hdep, hx.missed hend.tasks hnot⟩

end Owed

/-- **Workflow scheduling is sound**: for every accepted definition with distinct step ids, in every
state reached by a run without cancellation in whose passes the readings of the wall clock agree
about each step and the clock does not overflow. -/
theorem scheduled_soundly {w : WorkflowDefinition} (hw : w.validate = some (.ok d))
    (hids : w.DistinctIds) {x : Instance d}
    (hx : Reaches Instance.exec Undisturbed (Instance.start d) x) : SoundlyScheduled x := by
  have hd := WorkflowDefinition.valid_of_validate hw
  have hids' : d.DistinctIds := by
    rw [WorkflowDefinition.DistinctIds, WorkflowDefinition.steps_eq_of_validate hw]
    exact hids
  have hinv := inv_of_reaches hd hids' hx
  refine ⟨hinv.books.launched_nodup, fun i rest b hpc => ?_, hinv.cleared.launched,
    hinv.carried.refused, fun hpc => ?_, hinv.failed_of_blocked hd hids',
    fun hpc i hi => hinv.stuck hpc hi, fun hpc => ?_⟩
  · exact (hinv.cleared.held i (by simp [hpc, Pc.held, Pc.launching])).2.2
  · exact hinv.here hpc
  · obtain ⟨status, hst, hend⟩ := hinv.ended hpc
    rw [hst, hend.status_eq]

/-! ## Two runs of one workflow -/

/-- Three steps that start at once, and one that waits for two of them and for a point in time. -/
def joinWorkflow : WorkflowDefinition where
  steps := [{ id := "a" }, { id := "b" }, { id := "slow" },
    { id := "join", dependsOn := ["a", "b"], scheduledAt := some 10 }]

def joinAccepted : WorkflowDefinition where
  steps := joinWorkflow.steps
  reverseDeps := buildReverseDeps joinWorkflow.steps
  initialStepIndices := findInitialSteps joinWorkflow.steps

theorem validate_joinWorkflow : joinWorkflow.validate = some (.ok joinAccepted) := by
  have hm : missingDependency joinWorkflow.steps = none := by decide +kernel
  have hc : firstCycle (dependenciesOf joinWorkflow.steps) (joinWorkflow.steps.length + 1)
      (joinWorkflow.steps.map (·.id)) .start = some none := by decide +kernel
  simp only [WorkflowDefinition.validate, hm, hc]
  rfl

/-- A move at a given point of the monotonic clock, and of the wall clock at each asking. -/
def moveAt (now : Nat) (utc : Nat → Int) : Action joinAccepted :=
  .sched ⟨now, utc, .still _⟩

def succeed (i : joinAccepted.Idx) : Action joinAccepted := .settle i .run (some .success)

/-- The first two steps are done and both their messages are there when the last step is scheduled;
then the third is done.  The wall clock reads `utc` at that pass, the monotonic one `later`
afterwards. -/
def joinRun (utc : Nat → Int) (later : Nat) : List (Action joinAccepted) :=
  List.replicate 10 (moveAt 0 fun _ => 9) ++ [succeed ⟨0, by decide⟩, succeed ⟨1, by decide⟩] ++
    List.replicate 10 (moveAt 0 utc) ++ [succeed ⟨2, by decide⟩] ++
    List.replicate 7 (moveAt later fun _ => 10)

/-- Readings that do not change agree. -/
theorem undisturbed_moveAt {now : Nat} (hnow : now ≤ 100) {utc : Int} (hutc : 0 ≤ utc)
    (x : Instance joinAccepted) : Undisturbed x (moveAt now fun _ => utc) := by
  refine fun scan _ => ⟨fun _ _ _ _ _ => .rfl, fun i k _ => ?_⟩
  have hsteps : ∀ i : joinAccepted.Idx, (joinAccepted.step i).delay = none ∧
      ((joinAccepted.step i).scheduledAt = none ∨
        (joinAccepted.step i).scheduledAt = some 10) := by
    decide +kernel
  have hmax : 110 ≤ instantMax := by decide
  have hwait : (scheduleWait (joinAccepted.step i) utc).getD 0 ≤ 10 := by
    rw [scheduleWait]
    rcases (hsteps i).2 with h | h <;> rw [h]
    · simp
    · by_cases hlt : utc < 10
      · simp only [Option.bind_some, if_pos hlt, Option.getD_some]
        omega
      · simp [hlt]
  simp only [(hsteps i).1, Option.getD_none]
  omega

def joinRunSteady : List (Action joinAccepted) :=
  joinRun (fun _ => 10) 100 ++ [succeed ⟨3, by decide⟩] ++
    List.replicate 8 (moveAt 100 fun _ => 10)

theorem undisturbed_joinRunSteady :
    ∀ a ∈ joinRunSteady, ∀ x : Instance joinAccepted, Undisturbed x a := by
  intro a ha x
  simp only [joinRunSteady, joinRun, mem_append, mem_replicate, mem_cons,
    not_mem_nil, or_false] at ha
  rcases ha with (((((⟨-, rfl⟩ | rfl | rfl) | ⟨-, rfl⟩) | rfl) | ⟨-, rfl⟩) | rfl) | ⟨-, rfl⟩
  · exact undisturbed_moveAt (by decide) (by decide) x
  · trivial
  · trivial
  · exact undisturbed_moveAt (by decide) (by decide) x
  · trivial
  · exact undisturbed_moveAt (by decide) (by decide) x
  · trivial
  · exact undisturbed_moveAt (by decide) (by decide) x

theorem scheduled_soundly_join :
    joinWorkflow.validate = some (.ok joinAccepted) ∧ joinWorkflow.DistinctIds ∧
      (joinRunSteady.foldl Instance.exec (Instance.start joinAccepted)).status = some .completed ∧
      SoundlyScheduled (joinRunSteady.foldl Instance.exec (Instance.start joinAccepted)) :=
  ⟨validate_joinWorkflow, by decide +kernel, by decide +kernel,
    scheduled_soundly validate_joinWorkflow (by decide +kernel)
      (reaches_foldl (allOk_of_forall undisturbed_joinRunSteady _))⟩

def Uncancelled (_ : Instance d) : Action d → Prop
  | .sched _ => True
  | .settle _ _ _ => True
  | .cancel => False
  | .cleanup => False

/-- **The wall clock passing the scheduled time within one pass launches a step twice.**  The last
step is entered once for each of its two dependencies; by the first reading it has to wait, by the
second it does not, so it launches and waits, and launches again when the wait is over. -/
theorem launched_twice :
    ∃ (w d : WorkflowDefinition) (x : Instance d), w.validate = some (.ok d) ∧ w.DistinctIds ∧
      Reaches Instance.exec Uncancelled (Instance.start d) x ∧ ¬ x.run.launched.Nodup := by
  refine ⟨joinWorkflow, joinAccepted, _, validate_joinWorkflow, by decide +kernel,
    @reaches_foldl _ _ _ _ _ (joinRun (fun k => if k = 0 then 9 else 10) 100)
      (allOk_of_forall (fun a ha x => ?_) _), by decide +kernel⟩
  simp only [joinRun, mem_append, mem_replicate, mem_cons, not_mem_nil,
    or_false] at ha
  rcases ha with (((⟨-, rfl⟩ | rfl | rfl) | ⟨-, rfl⟩) | rfl) | ⟨-, rfl⟩ <;> trivial

end Smg.Workflow
