import Smg.KvIndex.LanePool

/-!
# Delivery through the lane pool

The pool is an instance of mailboxes served one at a time (`Mailbox`): a worker is a mailbox, its
state word the phase, and being on a list is being on any lane's ready list.  `role` says what each
program counter has to do with which worker, and `step_move` that every atomic step is one of the
moves of that pattern.  What the pattern guarantees in all interleavings then holds of the pool.
-/

set_option autoImplicit false

namespace Smg.KvIndex

open Mailbox List LanePool Process
open Function (update update_self update_of_ne update_eq_self)

variable {W E : Type}

/-! ## The pool as mailboxes -/

def onLists (lanes : List Lane) (worker : Nat) : Nat :=
  (lanes.map fun l => l.ready.count worker).sum

def LanePool.board (s : LanePool W E) : Board Nat E where
  phase w := (s.workers w).state
  queue w := (s.workers w).queue
  listed := onLists s.lanes
  accepted w := (s.workers w).accepted
  applied w := (s.workers w).applied

def Process.role : Process E → Role Nat E
  | .exchange _ w => .watch w
  | .makeReady _ _ w => .carry w
  | .claim _ w => .carry w
  | .enter _ w => .run w
  | .announce _ w => .run w
  | .serve _ w _ => .run w
  | .apply _ w _ e => .hand w e
  | .leave _ w => .run w
  | .unmark _ w => .run w
  | .release _ w => .run w
  | .recheck _ w => .watch w
  | .retry _ w => .watch w
  | _ => .free

/-- The lane a process works for, once it was found to exist. -/
def Process.lane? : Process E → Option Nat
  | .enqueue .. | .runLane .. | .done => none
  | .exchange lane _ | .makeReady _ lane _ | .mark _ lane | .wake _ lane | .wakeOther _ lane _ |
    .unpark _ lane _ => some lane
  | .pump t | .pop t | .load t _ | .rob t _ _ | .peek t _ | .rescue t _ | .wait t | .park t |
    .asleep t | .wakeUp t | .claim t _ | .enter t _ | .announce t _ | .serve t _ _ |
    .apply t _ _ _ | .leave t _ | .unmark t _ | .release t _ | .recheck t _ | .retry t _ =>
    some t.lane

/-- The process works for one of `n` lanes. -/
def Process.Within (n : Nat) (p : Process E) : Prop := ∀ l ∈ p.lane?, l < n

@[simp] theorem role_returnTo (back : Option UInt64) (lane : Nat) :
    (returnTo (E := E) back lane).role = .free := by
  cases back <;> rfl

/-! ## Lists -/

variable {f : Lane → Lane}

theorem onLists_modify_of_ready_eq (hf : ∀ l, (f l).ready = l.ready) (lanes : List Lane) (i : Nat) :
    onLists (lanes.modify i f) = onLists lanes := by
  funext w
  rw [onLists]
  congr 1
  refine ext_getElem? fun j => ?_
  rw [getElem?_map, getElem?_map, getElem?_modify]
  cases lanes[j]? with
  | none => rfl
  | some l =>
    by_cases hij : i = j
    · simp [hij, hf]
    · simp [hij]

/-- What a change of one list does to the count. -/
theorem onLists_modify {lanes : List Lane} {i : Nat} {l : Lane} (hl : lanes[i]? = some l)
    (w : Nat) :
    onLists (lanes.modify i f) w + l.ready.count w = onLists lanes w + (f l).ready.count w := by
  obtain ⟨L, R, hsplit, hset⟩ := exists_around hl
  have hmod : lanes.modify i f = L ++ f l :: R := by
    rw [← hset, modify_eq_set_getElem?, hl]
    rfl
  rw [hmod]
  conv_rhs => rw [hsplit]
  simp only [onLists, map_append, map_cons, sum_append, sum_cons]
  omega

variable {p : Process E}

namespace LanePool

variable {s : LanePool W E}

@[simp] theorem length_modifyLane (s : LanePool W E) (lane : Nat) (f : Lane → Lane) :
    (s.modifyLane lane f).lanes.length = s.lanes.length := by
  simp [modifyLane]

@[simp] theorem length_modifyWorker (s : LanePool W E) (worker : Nat)
    (f : WorkerSlot W E → WorkerSlot W E) : (s.modifyWorker worker f).lanes.length =
      s.lanes.length :=
  rfl

@[simp] theorem length_markStealable (s : LanePool W E) (lane : Nat) (on : Bool) :
    (s.markStealable lane on).lanes.length = s.lanes.length := rfl

variable {lane : Nat}

theorem board_push (hlane : lane < s.lanes.length) (worker : Nat) :
    (s.modifyLane lane fun l => { l with ready := l.ready ++ [worker] }).board =
      { s.board with
        listed := update s.board.listed worker (s.board.listed worker + 1) } := by
  have hcount := onLists_modify (f := fun l => { l with ready := l.ready ++ [worker] })
    (getElem?_eq_getElem hlane)
  show Board.mk _ _ (onLists (s.lanes.modify lane _)) _ _ = Board.mk _ _ _ _ _
  congr 1
  funext w
  have := hcount w
  rw [count_append, count_singleton] at this
  show _ = update (onLists s.lanes) worker (onLists s.lanes worker + 1) w
  by_cases hw : w = worker
  · subst hw
    rw [update_self]
    simp only [beq_self_eq_true, if_true] at this
    omega
  · rw [update_of_ne hw]
    simp only [beq_iff_eq, Ne.symm hw, if_false] at this
    omega

variable {worker : Nat}

theorem board_pop {rest : List Nat} (h : s.ready lane = worker :: rest) :
    ∃ n, s.board.listed worker = n + 1 ∧
      (s.popReady lane).board =
        { s.board with listed := update s.board.listed worker n } := by
  obtain ⟨l, hl, hready⟩ : ∃ l, s.lanes[lane]? = some l ∧ l.ready = worker :: rest := by
    rw [ready] at h
    cases hl : s.lanes[lane]? with
    | none => simp [hl] at h
    | some l => exact ⟨l, rfl, by simpa [hl] using h⟩
  have hcount := onLists_modify (f := fun l => { l with ready := l.ready.tail }) hl
  have hself := hcount worker
  simp only [hready, count_cons, beq_self_eq_true, if_true, tail_cons] at hself
  refine ⟨onLists s.lanes worker - 1, ?_, ?_⟩
  · show onLists s.lanes worker = onLists s.lanes worker - 1 + 1
    omega
  · show Board.mk _ _ (onLists (s.lanes.modify lane _)) _ _ = Board.mk _ _ _ _ _
    congr 1
    funext w
    have := hcount w
    show _ = update (onLists s.lanes) worker (onLists s.lanes worker - 1) w
    by_cases hw : w = worker
    · subst hw
      rw [update_self]
      omega
    · rw [update_of_ne hw]
      simp only [hready, count_cons, beq_iff_eq, Ne.symm hw, if_false, tail_cons] at this
      omega

theorem board_pop_nil (h : s.ready lane = []) : (s.popReady lane).board = s.board := by
  show Board.mk _ _ (onLists (s.lanes.modify lane _)) _ _ = s.board
  congr 1
  funext w
  cases hl : s.lanes[lane]? with
  | none =>
    rw [modify_eq_set_getElem?, hl]
    rfl
  | some l =>
    have hnil : l.ready = [] := by
      rw [ready, hl] at h
      exact h
    have := onLists_modify (f := fun l => { l with ready := l.ready.tail }) hl w
    simp only [hnil] at this
    exact Nat.add_right_cancel this

/-! ## A change of one worker -/

theorem board_modifyWorker (s : LanePool W E) (worker : Nat)
    (f : WorkerSlot W E → WorkerSlot W E) :
    (s.modifyWorker worker f).board =
      { phase := update s.board.phase worker (f (s.workers worker)).state
        queue := update s.board.queue worker (f (s.workers worker)).queue
        listed := s.board.listed
        accepted := update s.board.accepted worker (f (s.workers worker)).accepted
        applied := update s.board.applied worker (f (s.workers worker)).applied } := by
  have hcomp : ∀ {γ : Type} (g : WorkerSlot W E → γ),
      (fun w => g (update s.workers worker (f (s.workers worker)) w)) =
        update (fun w => g (s.workers w)) worker (g (f (s.workers worker))) :=
    fun g => funext fun w => Function.apply_update (fun _ => g) s.workers worker _ w
  show Board.mk _ _ _ _ _ = Board.mk _ _ _ _ _
  congr 1
  · exact hcomp WorkerSlot.state
  · exact hcomp WorkerSlot.queue
  · exact hcomp WorkerSlot.accepted
  · exact hcomp WorkerSlot.applied

section Workers

variable (s : LanePool W E) (worker : Nat)

theorem board_update_self :
    update s.board.phase worker (s.workers worker).state = s.board.phase ∧
      update s.board.queue worker (s.workers worker).queue = s.board.queue ∧
      update s.board.accepted worker (s.workers worker).accepted = s.board.accepted ∧
      update s.board.applied worker (s.workers worker).applied = s.board.applied :=
  ⟨update_eq_self _ _, update_eq_self _ _, update_eq_self _ _,
    update_eq_self _ _⟩

end Workers

/-! ## One step is one move -/

theorem quiet_move {s' : LanePool W E} {r r' : Role Nat E} (hs : s'.board = s.board) (hr : r' = r) :
    ∃ w, Move w s.board r s'.board r' :=
  ⟨0, by rw [hs, hr]; exact .quiet _ _⟩

theorem quiet_modifyLane {r r' : Role Nat E} (hr : r' = r)
    (hf : ∀ l, (f l).ready = l.ready := by intro _; rfl) :
    ∃ w, Move w s.board r (s.modifyLane lane f).board r' := by
  refine quiet_move ?_ hr
  show Board.mk _ _ (onLists (s.lanes.modify lane f)) _ _ = s.board
  rw [onLists_modify_of_ready_eq hf]
  rfl

theorem win_move (h : (s.workers worker).state = .idle) :
    Move worker s.board (.watch worker) (s.exchangeState worker .idle .ready).board
      (.carry worker) := by
  simp only [exchangeState, board_modifyWorker, board_update_self, if_pos h]
  exact .win h

theorem take_move {rest : List Nat} (h : s.ready lane = worker :: rest) :
    Move worker s.board .free (s.popReady lane).board (.carry worker) := by
  obtain ⟨n, hn, hb⟩ := board_pop h
  rw [hb]
  exact .take hn

theorem stepEnqueue_move (hp : p.Within s.lanes.length) :
    ∃ w, Move w s.board p.role (s.stepEnqueue p).1.board (s.stepEnqueue p).2.role := by
  rw [stepEnqueue.eq_def]
  split
  · rename_i lane worker event
    split
    · split
      · exact quiet_move rfl rfl
      · refine ⟨worker, ?_⟩
        simp only [board_modifyWorker, board_update_self]
        exact .accept _ _
    · exact quiet_move rfl rfl
  · rename_i lane worker
    split
    · rename_i hidle
      exact ⟨worker, win_move hidle⟩
    · rename_i hidle
      exact ⟨worker, .yield hidle⟩
  · rename_i back lane worker
    refine ⟨worker, ?_⟩
    rw [board_push (hp lane rfl)]
    exact .list _
  · refine quiet_move ?_ rfl
    split <;> rfl
  · split
    · exact quiet_modifyLane rfl
    · exact quiet_move rfl rfl
  · split
    · split
      · exact quiet_modifyLane rfl
      · exact quiet_move rfl rfl
    · exact quiet_move rfl (role_returnTo _ _)
  · exact quiet_modifyLane (role_returnTo _ _)
  · exact quiet_move rfl rfl

theorem stepLane_move (s : LanePool W E) (c : Choice W) (p : Process E) :
    ∃ w, Move w s.board p.role (s.stepLane c p).1.board (s.stepLane c p).2.role := by
  rw [stepLane.eq_def]
  split
  · split
    · exact quiet_modifyLane rfl
    · exact quiet_move rfl rfl
  · split
    · exact quiet_modifyLane rfl
    · exact quiet_move rfl rfl
  · split
    · rename_i worker _ hready
      exact ⟨worker, take_move hready⟩
    · split <;> exact quiet_move rfl rfl
  · split
    · exact quiet_move rfl rfl
    · refine quiet_move rfl ?_
      split <;> rfl
  · rename_i t step word
    split
    · exact quiet_move rfl rfl
    · dsimp only
      split
      · exact quiet_move rfl rfl
      · -- clearing the bit of an emptied list is nothing to the mailboxes
        set victim := s.wordIndex t step * 64 + trailingZeros word.toNat with hvictim
        have hbit : (if (s.popReady victim).ready victim = [] then
            (s.popReady victim).markStealable victim false else s.popReady victim).board =
            (s.popReady victim).board := by
          split <;> rfl
        split
        · rename_i worker _ hready
          refine ⟨worker, ?_⟩
          rw [hbit]
          exact take_move hready
        · rename_i hready
          exact quiet_move (hbit.trans (board_pop_nil hready)) rfl
  · split
    · dsimp only
      split <;> exact quiet_move rfl rfl
    · exact quiet_move rfl rfl
  · dsimp only
    split
    · exact quiet_move rfl rfl
    · split
      · exact quiet_move rfl rfl
      · rename_i worker _ hready
        split
        · exact quiet_move rfl rfl
        · exact ⟨worker, take_move hready⟩
  · split
    · exact quiet_modifyLane rfl
    · split
      · exact quiet_modifyLane rfl
      · exact quiet_move rfl rfl
  · refine quiet_move rfl ?_
    split <;> rfl
  · exact quiet_modifyLane rfl
  · exact quiet_modifyLane rfl
  · exact quiet_move rfl rfl

theorem stepServe_move (s : LanePool W E) (c : Choice W) (p : Process E) :
    ∃ w, Move w s.board p.role (s.stepServe c p).1.board (s.stepServe c p).2.role := by
  rw [stepServe.eq_def]
  split
  · rename_i t worker
    refine ⟨worker, ?_⟩
    simp only [exchangeState, board_modifyWorker, board_update_self]
    exact .claim _
  · exact quiet_modifyLane rfl
  · refine quiet_move ?_ rfl
    split <;> rfl
  · rename_i t worker applied
    split
    · split
      · exact quiet_move rfl rfl
      · rename_i event rest hq
        refine ⟨worker, ?_⟩
        simp only [board_modifyWorker, board_update_self]
        exact .pop hq
    · exact quiet_move rfl rfl
  · rename_i t worker applied event
    refine ⟨worker, ?_⟩
    simp only [board_modifyWorker, board_update_self]
    exact .apply _ _
  · exact quiet_modifyLane rfl
  · exact quiet_move rfl rfl
  · rename_i t worker
    refine ⟨worker, ?_⟩
    simp only [board_modifyWorker, board_update_self]
    exact .release _
  · rename_i t worker
    split
    · rename_i hq
      exact ⟨worker, .calm hq⟩
    · exact quiet_move rfl rfl
  · rename_i t worker
    split
    · rename_i hidle
      exact ⟨worker, win_move hidle⟩
    · rename_i hidle
      exact ⟨worker, .yield hidle⟩
  · exact quiet_move rfl rfl

/-- **One atomic step is one move.** -/
theorem step_move (hp : p.Within s.lanes.length) (c : Choice W) :
    ∃ w, Move w s.board p.role (s.step p c).1.board (s.step p c).2.role := by
  rw [step.eq_def]
  split
  all_goals
    first
    | exact stepEnqueue_move hp
    | exact stepLane_move s c _
    | exact stepServe_move s c _

/-! ## Processes keep to their lanes -/

@[simp] theorem length_popReady (s : LanePool W E) (lane : Nat) :
    (s.popReady lane).lanes.length = s.lanes.length := length_modifyLane _ _ _

@[simp] theorem length_stopLane (s : LanePool W E) (t : LaneThread) :
    (s.stopLane t).lanes.length = s.lanes.length := length_modifyLane _ _ _

@[simp] theorem length_exchangeState (s : LanePool W E) (worker : Nat) (old new' : Phase) :
    (s.exchangeState worker old new').lanes.length = s.lanes.length := rfl

theorem length_step (s : LanePool W E) (p : Process E) (c : Choice W) :
    (s.step p c).1.lanes.length = s.lanes.length := by
  have henqueue : (s.stepEnqueue p).1.lanes.length = s.lanes.length := by
    rw [stepEnqueue.eq_def]
    repeat' split
    all_goals simp
  have hlane : (s.stepLane c p).1.lanes.length = s.lanes.length := by
    rw [stepLane.eq_def]
    repeat' split
    all_goals simp
    all_goals repeat' split
    all_goals simp
  have hserve : (s.stepServe c p).1.lanes.length = s.lanes.length := by
    rw [stepServe.eq_def]
    repeat' split
    all_goals simp
  rw [step.eq_def]
  split
  all_goals first | exact henqueue | exact hlane | exact hserve

theorem lane_returnTo {back : Option UInt64} {l : Nat}
    (h : (returnTo (E := E) back lane).lane? = some l) : l = lane := by
  cases back with
  | none => cases h
  | some seed => exact (Option.some.inj h).symm

theorem within_step (hp : p.Within s.lanes.length) (c : Choice W) :
    (s.step p c).2.Within s.lanes.length := by
  have hdone : (done : Process E).Within s.lanes.length := nofun
  have henqueue : (s.stepEnqueue p).2.Within s.lanes.length := by
    rw [stepEnqueue.eq_def]
    repeat' split
    case isTrue.isFalse h _ =>
      intro l hl
      cases hl
      exact h.2
    all_goals
      first
      | exact hdone
      | exact hp
      | exact fun l hl => lane_returnTo hl ▸ hp _ rfl
  have hlane : (s.stepLane c p).2.Within s.lanes.length := by
    rw [stepLane.eq_def]
    repeat' split
    case h_1.isTrue h =>
      intro l hl
      cases hl
      exact h
    all_goals first | exact hdone | exact hp | dsimp only
    all_goals repeat' split
    all_goals exact hp
  have hserve : (s.stepServe c p).2.Within s.lanes.length := by
    rw [stepServe.eq_def]
    repeat' split
    all_goals exact hp
  rw [step.eq_def]
  split
  all_goals first | exact henqueue | exact hlane | exact hserve

end LanePool

/-! ## Every interleaving -/

/-- A lane is inside `serve` with the worker, between claiming and releasing it. -/
def Process.running (w : Nat) (p : Process E) : Bool := p.role.serves w

/-- The process is in the middle of handing the worker on: it has queued an event or let go of the
worker and must still look whether to list it, or it has made the worker ready and must still list
it, or has taken it off a list and must still claim it. -/
def Process.inFlight (w : Nat) (p : Process E) : Bool := p.role.watches w || p.role.carries w

/-- The event of the worker that the process is applying. -/
def Process.applying (w : Nat) (p : Process E) : List E := p.role.inHand w

/-- What holds in every interleaving, for the pool and its processes. -/
def PoolInv (s : LanePool W E) (ps : List (Process E)) : Prop :=
  Inv s.board (ps.map Process.role) ∧ ∀ p ∈ ps, p.Within s.lanes.length

theorem poolInv_step {s : LanePool W E} {L R : List (Process E)} (c : Choice W)
    (h : PoolInv s (L ++ p :: R)) : PoolInv (s.step p c).1 (L ++ (s.step p c).2 :: R) := by
  have hp : p.Within s.lanes.length := h.2 p (by simp)
  refine ⟨?_, ?_⟩
  · obtain ⟨w, hm⟩ := step_move hp c
    have hinv := h.1
    rw [map_append] at hinv ⊢
    exact hinv.move hm
  · obtain ⟨hL, hR⟩ := forall_mem_append.mp h.2
    rw [length_step]
    exact forall_mem_append.mpr ⟨hL, forall_mem_cons.mpr
      ⟨within_step hp c, (forall_mem_cons.mp hR).2⟩⟩

theorem poolInv_call {s : LanePool W E} {ps : List (Process E)} (b : PoolCall E)
    (h : PoolInv s ps) : PoolInv s (ps ++ [(lanePool W E).start b]) := by
  have hrole : ((lanePool W E).start b).role = .free := by rcases b with _ | _ <;> rfl
  refine ⟨?_, forall_mem_append.mpr ⟨h.2, forall_mem_singleton.mpr ?_⟩⟩
  · rw [map_append, map_singleton, hrole]
    exact h.1.free
  · rcases b with _ | _ <;> exact nofun

theorem poolInv_new {config : LanePoolConfig} {pool : LanePool W E}
    (h : new config = some pool) : PoolInv pool [] := by
  rw [new] at h
  split at h
  · cases h
    refine ⟨inv_empty (fun _ => rfl) (fun _ => rfl) (fun w => ?_) (fun _ => rfl) fun _ => rfl,
      nofun⟩
    show onLists (replicate _ _) w = 0
    simp [onLists]
  · cases h

theorem countP_map_role (f : Role Nat E → Bool) (ps : List (Process E)) :
    (ps.map role).countP f = ps.countP fun p => f p.role := by
  rw [countP_map]
  rfl

/-- **Delivery through the lane pool**, in every interleaving of any number of producers and lane
threads.  A worker is on at most one ready list, once, or running on one lane, never both; the
events applied, the one being applied and those still queued are, in this order, exactly those
accepted; and a worker with queued events that no process is about to hand on is on exactly one
ready list or being served. -/
theorem lanePool_delivery {config : LanePoolConfig} {pool : LanePool W E}
    (hnew : LanePool.new config = some pool) {n : Interleave.Net (LanePool W E) (Process E)}
    (h : Reaches (lanePool W E).exec anyAction ⟨pool, []⟩ n) (w : Nat) :
    onLists n.shared.lanes w + n.procs.countP (Process.running w) ≤ 1 ∧
      (n.shared.workers w).applied ++ n.procs.flatMap (Process.applying w) ++
        (n.shared.workers w).queue = (n.shared.workers w).accepted ∧
      ((∀ p ∈ n.procs, p.inFlight w = false) → (n.shared.workers w).queue ≠ [] →
        onLists n.shared.lanes w + n.procs.countP (Process.running w) = 1) := by
  have hinv : PoolInv n.shared n.procs :=
    Interleave.Program.invariant (I := PoolInv) (poolInv_new hnew)
      (fun _ _ b _ hI => poolInv_call b hI) (fun _ _ _ _ _ c _ _ hI => poolInv_step c hI) h
  have hserves : (n.procs.map role).countP (Role.serves w) =
      n.procs.countP (running w) := countP_map_role _ _
  refine ⟨?_, ?_, fun hflight hq => ?_⟩
  · rw [← hserves]
    exact hinv.1.listed_add_servers_le w
  · have hdel := (hinv.1 w).delivered
    rw [flatMap_map] at hdel
    exact hdel
  · rw [← hserves]
    refine hinv.1.listed_add_servers_eq hq ?_ ?_
    all_goals
      rw [countP_map_role, countP_eq_zero]
      intro p hp
      have hfalse := hflight p hp
      rw [inFlight, Bool.or_eq_false_iff] at hfalse
      simp [hfalse]

/-- A run with two producers and a lane: one event is applied and another queued meanwhile. -/
def servedRun : List (Interleave.Act (Choice Nat) (PoolCall Nat)) :=
  let c : Choice Nat := ⟨.continue, false, false, none⟩
  [.call (.enqueue 0 0 7)] ++ List.replicate 3 (.step 0 c) ++ [.call (.runLane 0)] ++
    List.replicate 8 (.step 1 c) ++ [.call (.enqueue 0 0 8)] ++ List.replicate 2 (.step 2 c)

/-- An event queued while the worker is being served: one lane has it, and the event waits. -/
theorem lanePool_delivery_while_served :
    ∃ pool : LanePool Nat Nat, LanePool.new ⟨2, 1, 4, 1, 0⟩ = some pool ∧
      let n := servedRun.foldl (lanePool Nat Nat).exec ⟨pool, []⟩
      (n.shared.workers 0).applied = [7] ∧ (n.shared.workers 0).queue = [8] ∧
      (n.shared.workers 0).applied ++ n.procs.flatMap (applying 0) ++
        (n.shared.workers 0).queue = (n.shared.workers 0).accepted ∧
      onLists n.shared.lanes 0 + n.procs.countP (running 0) = 1 := by
  refine ⟨(LanePool.new ⟨2, 1, 4, 1, 0⟩).get rfl, rfl, by decide +kernel, by decide +kernel, ?_⟩
  have hall := lanePool_delivery
    (show LanePool.new ⟨2, 1, 4, 1, 0⟩ = some ((LanePool.new ⟨2, 1, 4, 1, 0⟩).get rfl) from rfl)
    (reaches_foldl (allOk_anyAction (lanePool Nat Nat).exec
      ⟨(LanePool.new ⟨2, 1, 4, 1, 0⟩).get rfl, []⟩ servedRun)) 0
  exact ⟨hall.2.1, hall.2.2 (by decide +kernel) (by decide +kernel)⟩

end Smg.KvIndex
