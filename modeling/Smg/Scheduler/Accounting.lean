import Smg.Lib.Permits
import Smg.Scheduler.Engine

/-!
# Slot accounting

Conservation of slots in every interleaving of admissions, permit drops, passes and capacity
changes, as an instance of `Permits`: `ledger` and `place` say what the scheduler's state and a
process's position are there, and `step_effect` that every access is one of the moves.

Two things are needed beside conservation itself.  A release must find its lane counted, since it
gives up silently where it does not; this is conservation again (`Inv.counts_pos`).  And an acquire
at its exchange must remember why it may take the slot (`Acquire.Ready`).
-/

set_option autoImplicit false

namespace Smg.Scheduler

open Permits Sched Function List

/-! ## The instance -/

def Request.toPermit (r : Request) : Permit Class String := ⟨r.id, r.cls⟩

/-- What a process has in hand: an admission its ticket, until it is queued or over; whoever has
acquired, the slot, with the request it is for once that is known; and a permit from its
registration until it is unregistered. -/
def place : Process → Place Class String
  | .admission r | .acquire r _ _ | .preempt r | .seek r | .mark r _ | .cancelVictim r _ | .poll r |
    .afterPoll r | .enqueue r => .ticket r.id
  | .register r | .enlist _ r => .slotted r.toPermit
  | .check _ _ cls id => .slotted ⟨id, cls⟩
  | .unguard r true | .kick r true | .holding r | .remove r _ | .deliver _ r => .permit r.toPermit
  | .release r _ _ => .bare r.cls
  | .send _ _ cls | .giveBack _ _ cls _ => .bare cls
  | _ => .nothing

def registered (e : Sigma fun _ : String => Handle) : Permit Class String := ⟨e.1, e.2.cls⟩

def queuedIds (queues : Class → List Request) : List String :=
  Class.all.flatMap fun c => (queues c).map Request.id

/-- The counts, the registry, the channels and the queues. -/
def ledger (s : Sched) : Ledger Class String where
  counts c := (s.pool.inflight c).toNat
  registered := s.registry.entries.map registered
  sent := s.sent.map Request.toPermit
  queued := queuedIds s.queues

def owner : Process → Option String
  | .admission r | .acquire r _ _ | .register r | .preempt r | .seek r | .mark r _ |
    .cancelVictim r _ | .poll r | .afterPoll r | .enqueue r | .nudge r | .waiting r | .unguard r _ |
    .kick r _ | .holding r => some r.id
  | .remove _ (.passed _) | .release _ _ (.passed _) | .announce _ (.passed _) => none
  | .remove r _ | .release r _ _ | .announce r _ => some r.id
  | .finished r => r.map Request.id
  | _ => none

/-- What a process that acquires or releases knows. -/
def Process.Ready : Process → Prop
  | .acquire r _ a => a.Ready r.cls true
  | .take _ t cls a => a.Ready cls t.guarded
  | .release r rel _ => rel.Ready r.cls
  | .giveBack _ _ cls rel => rel.Ready cls
  | _ => True

/-- What an access of a process comes to. -/
structure Effect (s : Sched) (p : Process) (t : Sched × Process) : Prop where
  move : Move (ledger s) (place p) (ledger t.1) (place t.2)
  /-- The process knows what it needs. -/
  ready : t.2.Ready
  /-- It remains the same admission. -/
  owner : owner t.2 = owner p

variable {p : Process} {s : Sched}

/-- An access that the ledger does not see. -/
theorem Effect.quiet {t : Sched × Process} (hl : ledger t.1 = ledger s) (hp : place t.2 = place p)
    (hr : t.2.Ready) (ho : Scheduler.owner t.2 = Scheduler.owner p) : Effect s p t where
  move := by rw [hl, hp]; exact .quiet _ _
  ready := hr
  owner := ho

/-! ## The queues and the registry -/

variable (queues : Class → List Request)

theorem queuedIds_update (cls : Class) (l : List Request) :
    (queuedIds (update queues cls l) ++ (queues cls).map Request.id).Perm
      (l.map Request.id ++ queuedIds queues) := by
  rw [perm_iff_count]
  intro id
  rcases cls with _ | _ | _ | _ <;>
    simp [queuedIds, Class.all] <;> omega

theorem queuedIds_append (r : Request) :
    (queuedIds (update queues r.cls (queues r.cls ++ [r]))).Perm
      (r.id :: queuedIds queues) := by
  have h := queuedIds_update queues r.cls (queues r.cls ++ [r])
  rw [perm_iff_count] at h ⊢
  intro id
  have := h id
  simp only [map_append, map_cons, map_nil, count_append, count_cons,
    count_nil] at this ⊢
  omega

theorem queuedIds_dropWhile (cls : Class) (f : Request → Bool) :
    (queuedIds queues).Perm (((queues cls).takeWhile f).map Request.id ++
      queuedIds (update queues cls ((queues cls).dropWhile f))) := by
  have h := queuedIds_update queues cls ((queues cls).dropWhile f)
  rw [perm_iff_count] at h ⊢
  intro id
  have := h id
  conv at this in (queues cls).map Request.id =>
    rw [← @takeWhile_append_dropWhile _ f (queues cls), map_append]
  simp only [count_append] at this ⊢
  omega

theorem queuedIds_tail {queues : Class → List Request} {cls : Class} {w : Request}
    {rest : List Request} (hq : queues cls = w :: rest) :
    (queuedIds queues).Perm (w.id :: queuedIds (update queues cls rest)) := by
  have h := queuedIds_update queues cls rest
  rw [hq, perm_iff_count] at h
  rw [perm_iff_count]
  intro id
  have := h id
  simp only [map_cons, count_append, count_cons] at this ⊢
  omega

theorem kerase_eq_filter {l : List (Sigma fun _ : String => Handle)} (hl : l.NodupKeys)
    (id : String) : l.kerase id = l.filter fun e => e.1 ≠ id := by
  induction l with
  | nil => rfl
  | cons e l ih =>
    obtain ⟨hnot, hl⟩ := nodupKeys_cons.mp hl
    by_cases he : id = e.1
    · rw [kerase_cons_eq he, filter_cons_of_neg (by simp [he])]
      refine (filter_eq_self.mpr fun e' he' => ?_).symm
      exact decide_eq_true fun h => hnot (he ▸ h ▸ mem_map_of_mem he')
    · rw [kerase_cons_ne he, ih hl, filter_cons_of_pos (by simp [Ne.symm he])]

theorem registered_erase (t : Table String Handle) (id : String) :
    (t.erase id).entries.map registered =
      (t.entries.map registered).filter fun q => q.id ≠ id := by
  rw [filter_map, show (t.erase id).entries = t.entries.kerase id from rfl,
    kerase_eq_filter t.nodupKeys]
  rfl

/-! ## Every access is a move -/

variable {a : Acquire}

section Effects

variable {s : Sched} {c : Choice} {r : Request}

variable {cls : Class}

theorem ledger_take (h : (s.pool.inflight cls).toNat < 65535) :
    ledger { s with pool := s.pool.take cls } =
      { ledger s with
        counts := update (ledger s).counts cls ((ledger s).counts cls + 1) } := by
  rw [ledger, ledger]
  congr 1
  funext c
  rw [inflight_take, toNat_raise h]
  split <;> simp_all

theorem ledger_give (h : s.pool.inflight cls ≠ 0) :
    ∃ n, (ledger s).counts cls = n + 1 ∧ ledger { s with pool := s.pool.give cls } =
      { ledger s with counts := update (ledger s).counts cls n } := by
  have hl := toNat_lower h
  refine ⟨(lower s.pool.inflight cls cls).toNat, ?_, ?_⟩
  · have := hl cls
    rw [if_pos rfl] at this
    exact this.symm
  · rw [ledger]
    congr 1
    funext c
    have := hl c
    rw [inflight_give, update_apply]
    split at this
    · rename_i hc
      rw [if_pos hc, hc]
    · rename_i hc
      rw [if_neg hc]
      exact this

theorem acquire_effect {polling : Bool} (ha : a.Ready r.cls true) :
    Effect s (.acquire r polling a) (s.stepAdmit c (.acquire r polling a)) := by
  rcases stepAcquire_cases s.pool r.cls c.spurious ha with
    ⟨a', h, ha'⟩ | h | ⟨_, _, _, _, _, h, hlane, _⟩ <;>
    simp only [stepAdmit, h]
  · exact .quiet rfl rfl ha' rfl
  · cases polling <;> exact .quiet rfl rfl trivial rfl
  · exact ⟨ledger_take hlane ▸ .acquire (ledger s) r.toPermit, trivial, rfl⟩

variable {d : Driver} {t : Pass}

theorem take_effect (ha : a.Ready cls t.guarded) :
    Effect s (.take d t cls a) (s.stepPass c (.take d t cls a)) := by
  rcases stepAcquire_cases s.pool cls c.spurious ha with
    ⟨a', h, ha'⟩ | h | ⟨_, _, _, _, _, h, hlane, _⟩ <;>
    simp only [stepPass, h]
  · exact .quiet rfl rfl ha' rfl
  · exact .quiet rfl rfl trivial rfl
  · exact { move := ledger_take hlane ▸ .take (ledger s) cls, ready := trivial, owner := rfl }

variable {k : After}

theorem release_effect {rel : Release} (hr : rel.Ready r.cls) (hs : s.pool.inflight r.cls ≠ 0) :
    Effect s (.release r rel k) (s.stepPermit c (.release r rel k)) := by
  rcases stepRelease_cases hs c.spurious hr with ⟨rel', h, hr'⟩ | h <;>
    simp only [stepPermit, h]
  · exact .quiet rfl rfl hr' (by cases k <;> rfl)
  · obtain ⟨n, hn, hl⟩ := ledger_give hs
    exact { move := hl ▸ .give hn, ready := trivial, owner := by cases k <;> rfl }

theorem giveBack_effect {rel : Release} (hr : rel.Ready cls) (hs : s.pool.inflight cls ≠ 0) :
    Effect s (.giveBack d t cls rel) (s.stepPass c (.giveBack d t cls rel)) := by
  rcases stepRelease_cases hs c.spurious hr with ⟨rel', h, hr'⟩ | h <;>
    simp only [stepPass, h]
  · exact .quiet rfl rfl hr' rfl
  · obtain ⟨n, hn, hl⟩ := ledger_give hs
    exact { move := hl ▸ .give hn, ready := trivial, owner := rfl }

theorem toPermit_injective : Function.Injective Request.toPermit := by
  rintro ⟨id, cls⟩ ⟨id', cls'⟩ h
  simpa [Request.toPermit] using h

theorem receive_effect (hr : r ∈ s.sent) (hp : place p = .permit r.toPermit) (hready : p.Ready)
    (ho : owner p = some r.id) : Effect s (.waiting r)
      ({ s with
          receiverClosed := update s.receiverClosed r.id true
          sent := s.sent.erase r }, p) where
  move := by
    have h : r.toPermit ∈ (ledger s).sent := mem_map_of_mem hr
    have := Move.receive h
    rw [hp]
    show Move (ledger s) .nothing { ledger s with sent := (s.sent.erase r).map Request.toPermit } _
    rw [map_erase toPermit_injective]
    exact this
  ready := hready
  owner := ho

theorem closeReceiver_effect : Effect s (.waiting r) (s.closeReceiver r) := by
  rw [closeReceiver]
  split
  · rename_i hr
    exact receive_effect hr rfl trivial rfl
  · rename_i hr
    rw [erase_of_not_mem hr]
    exact .quiet rfl rfl trivial rfl

theorem register_effect {p' : Process} (hp : place p = .slotted r.toPermit)
    (hp' : place p' = .permit r.toPermit) (hready : p'.Ready) (ho : owner p' = owner p) :
    Effect s p (s.registerInflight r c.now, p') where
  move := by
    have := Move.register (ledger s) r.toPermit
    rw [hp, hp']
    show Move (ledger s) _
      { ledger s with registered := r.toPermit :: (s.registry.erase r.id).entries.map registered } _
    rw [registered_erase]
    exact this
  ready := hready
  owner := ho

theorem discard_effect (hp : place p = .ticket r.id) (ho : owner p = some r.id) :
    Effect s p (s, .finished (some r)) where
  move := by rw [hp]; exact .discard (ledger s) r.id
  ready := trivial
  owner := ho.symm

theorem preempt_effect : Effect s (.preempt r) (s.stepAdmit c (.preempt r)) := by
  rw [stepAdmit]
  split
  · split
    · exact discard_effect rfl rfl
    · exact .quiet rfl rfl trivial rfl
  · exact .quiet rfl rfl trivial rfl

theorem poll_effect : Effect s (.poll r) (s.stepAdmit c (.poll r)) := by
  rw [stepAdmit]
  split
  · exact .quiet rfl rfl trivial rfl
  · exact .quiet rfl rfl trivial rfl
  · split <;> exact .quiet rfl rfl trivial rfl
  · exact discard_effect rfl rfl

theorem afterPoll_effect : Effect s (.afterPoll r) (s.stepAdmit c (.afterPoll r)) := by
  rw [stepAdmit]
  split
  · exact discard_effect rfl rfl
  · exact .quiet rfl rfl trivial rfl

theorem enqueue_effect : Effect s (.enqueue r) (s.stepAdmit c (.enqueue r)) := by
  rw [stepAdmit]
  split
  · exact discard_effect rfl rfl
  · exact { move := .enqueue (queuedIds_append s.queues r), ready := trivial, owner := rfl }

theorem waiting_effect : Effect s (.waiting r) (s.stepPermit c (.waiting r)) := by
  rw [stepPermit]
  split
  · split
    · rename_i hr
      exact receive_effect hr rfl trivial rfl
    · split
      · exact closeReceiver_effect
      · exact .quiet rfl rfl trivial rfl
  · exact closeReceiver_effect
  · split
    · exact closeReceiver_effect
    · exact .quiet rfl rfl trivial rfl
  · exact closeReceiver_effect

theorem holding_effect : Effect s (.holding r) (s.stepPermit c (.holding r)) := by
  rw [stepPermit]
  split
  · exact .quiet rfl rfl trivial rfl
  · refine .quiet ?_ rfl trivial rfl
    rw [tryMarkFirstByte]
    split <;> rfl

theorem remove_effect : Effect s (.remove r k) (s.stepPermit c (.remove r k)) where
  move := by
    have := Move.unregister (ledger s) r.toPermit
    show Move (ledger s) _
      { ledger s with registered := (s.registry.erase r.id).entries.map registered } _
    rw [registered_erase]
    exact this
  ready := trivial
  owner := by cases k <;> rfl

theorem returnTo_effect {s' : Sched} (d : Driver) (hl : ledger s' = ledger s)
    (hp : place p = .nothing) (ho : owner p = none) : Effect s p (s', returnTo d) := by
  cases d <;> exact .quiet hl hp.symm trivial ho.symm

theorem place_passed (d : Driver) : place (passed d) = .nothing := by cases d <;> rfl

theorem ready_passed (d : Driver) : (passed d).Ready := by cases d <;> trivial

theorem owner_passed (d : Driver) : owner (passed d) = none := by cases d <;> rfl

theorem announce_effect : Effect s (.announce r k) (s.stepPermit c (.announce r k)) := by
  rcases k with _ | _ | d
  · exact .quiet rfl rfl trivial rfl
  · exact .quiet rfl rfl trivial rfl
  · exact .quiet rfl (place_passed d) (ready_passed d) (owner_passed d)

theorem idle_effect : Effect s .idle (s.stepPass c .idle) := by
  rw [stepPass]
  split
  · split <;> exact .quiet rfl rfl trivial rfl
  · exact .quiet rfl rfl trivial rfl
  · exact .quiet rfl rfl trivial rfl

theorem scan_effect : Effect s (.scan d t) (s.stepPass c (.scan d t)) := by
  rcases t with ⟨guarded, _ | ⟨cls, left⟩⟩
  · rcases guarded with _ | _
    · exact .quiet rfl rfl trivial rfl
    · exact returnTo_effect d rfl rfl rfl
  · exact
      { move := .sweep (queuedIds_dropWhile s.queues cls fun w => s.isCancelled w.id)
        ready := trivial
        owner := rfl }

theorem look_effect : Effect s (.look d t cls) (s.stepPass c (.look d t cls)) := by
  rw [stepPass]
  split
  · exact .quiet rfl rfl trivial rfl
  · split <;> exact .quiet rfl rfl trivial rfl

theorem send_effect {cls : Class} : Effect s (.send d t cls) (s.stepPass c (.send d t cls)) := by
  rw [stepPass]
  split
  · exact .quiet rfl rfl trivial rfl
  · rename_i w rest hq
    exact
      { move := @Move.pop _ _ _ _ (ledger s) ⟨w.id, cls⟩ _ (queuedIds_tail hq)
        ready := trivial
        owner := rfl }

theorem check_effect {cls : Class} {id : String} :
    Effect s (.check d t cls id) (s.stepPass c (.check d t cls id)) := by
  rw [stepPass]
  split
  · exact { move := .skip (ledger s) ⟨id, cls⟩, ready := trivial, owner := rfl }
  · exact .quiet rfl rfl trivial rfl

theorem deliver_effect : Effect s (.deliver d r) (s.stepPass c (.deliver d r)) := by
  rw [stepPass]
  split
  · exact .quiet rfl rfl trivial rfl
  · exact
      { move := by rw [place_passed]; exact .send (ledger s) r.toPermit
        ready := ready_passed d
        owner := owner_passed d }

theorem resize_effect {new : UInt16} : Effect s (.resize d new) (s.stepResize (.resize d new)) := by
  rw [stepResize]
  split
  · exact returnTo_effect d rfl rfl rfl
  · split <;> exact .quiet rfl rfl trivial rfl

/-- **Every access is a move.** -/
theorem step_effect (hp : p.Ready)
    (hslot : ∀ cls, (place p).slot = some cls → s.pool.inflight cls ≠ 0) :
    Effect s p (s.step p c) := by
  cases p with
  | admission r => exact .quiet rfl rfl trivial rfl
  | acquire r polling a => exact acquire_effect hp
  | register r => exact register_effect rfl rfl trivial rfl
  | preempt r => exact @preempt_effect s c r
  | seek r | mark r =>
    simp only [step, stepAdmit]
    split <;> exact .quiet rfl rfl trivial rfl
  | cancelVictim r victim => exact .quiet rfl rfl trivial rfl
  | poll r => exact poll_effect
  | afterPoll r => exact @afterPoll_effect s c r
  | enqueue r => exact @enqueue_effect s c r
  | nudge r => exact .quiet rfl rfl trivial rfl
  | waiting r => exact waiting_effect
  | unguard r permit => cases permit <;> exact .quiet rfl rfl trivial rfl
  | kick r permit => cases permit <;> exact .quiet rfl rfl trivial rfl
  | holding r => exact holding_effect
  | remove r k => exact @remove_effect s c r k
  | release r rel k => exact release_effect hp (hslot _ rfl)
  | announce r k => exact @announce_effect s c r k
  | cancelClient id => exact .quiet rfl rfl trivial rfl
  | idle => exact idle_effect
  | scan d t => exact @scan_effect s c d t
  | look d t cls => exact look_effect
  | take d t cls a => exact take_effect hp
  | send d t cls => exact @send_effect s c d t cls
  | check d t cls id => exact @check_effect s c d t cls id
  | enlist d r => exact register_effect rfl rfl trivial rfl
  | deliver d r => exact @deliver_effect s c r d
  | giveBack d t cls rel => exact giveBack_effect hp (hslot _ rfl)
  | resize d new => exact resize_effect
  | growReserved d new reserved left => cases left <;> exact .quiet rfl rfl trivial rfl
  | growCapacity d new => exact .quiet rfl rfl trivial rfl
  | growNotify d => exact returnTo_effect d rfl rfl rfl
  | shrinkCapacity d new reserved => exact .quiet rfl rfl trivial rfl
  | shrinkReserved d reserved left =>
    cases left with
    | nil => exact returnTo_effect d rfl rfl rfl
    | cons cls left => exact .quiet rfl rfl trivial rfl
  | finished r => exact .quiet rfl rfl trivial rfl

end Effects

/-! ## Whole runs -/

/-- Request ids are distinct: an admission comes with the id of no other. -/
def distinctIds (n : Interleave.Net Sched Process) : Interleave.Act Choice Call → Prop
  | .call (.admission r) => ∀ p ∈ n.procs, owner p ≠ some r.id
  | _ => True

/-- Conservation, with what makes it inductive. -/
structure Accounted (s : Sched) (ps : List Process) : Prop where
  /-- Slots, permits and tickets are conserved. -/
  inv : Permits.Inv (ledger s) (ps.map place)
  /-- Every ticket is an admission's. -/
  owned : ∀ id ∈ tickets (ledger s) (ps.map place), some id ∈ ps.map owner
  /-- Whoever acquires or releases knows what it needs. -/
  ready : ∀ p ∈ ps, p.Ready

theorem accounted_new {config : Class → ClassConfig} {capacity : UInt16} {s₀ : Sched}
    (h₀ : new config capacity = some s₀) : Accounted s₀ [] := by
  rw [new] at h₀
  split at h₀
  · exact absurd h₀ nofun
  · cases h₀
    exact
      { inv := Permits.inv_empty (fun c => by simp [ledger, SlotPool.new, SlotPool.inflight])
          rfl rfl rfl
        owned := by simp [tickets, ledger, queuedIds, Class.all]
        ready := by simp }

theorem start_owned (b : Call) {id : String} (hid : id ∈ (place (scheduler.start b)).tickets) :
    owner (scheduler.start b) = some id := by
  rcases b with r | _ | _ | _ | _ <;> simp_all [scheduler, place, owner, Place.tickets]

theorem Accounted.call {ps : List Process} (h : Accounted s ps) {b : Call}
    (hok : distinctIds ⟨s, ps⟩ (.call b)) : Accounted s (ps ++ [scheduler.start b]) where
  inv := by
    rw [map_append]
    rcases b with r | _ | _ | _ | _
    · refine h.inv.issue fun hid => ?_
      obtain ⟨p, hp, ho⟩ := mem_map.mp (h.owned r.id hid)
      exact hok p hp ho
    all_goals exact h.inv.nothing
  owned id hid := by
    rw [map_append, map_singleton, (tickets_around _).mem_iff, append_nil,
      mem_append] at hid
    rw [map_append, mem_append]
    rcases hid with hid | hid
    · exact .inr (mem_singleton.mpr (start_owned b hid).symm)
    · exact .inl (h.owned id hid)
  ready p hp := by
    rcases mem_append.mp hp with hp | hp
    · exact h.ready p hp
    · obtain rfl := mem_singleton.mp hp
      cases b <;> trivial

/-- Whoever has a slot in hand finds it counted. -/
theorem Accounted.inflight_ne_zero {ps : List Process} (h : Accounted s ps) (hp : p ∈ ps)
    {cls : Class} (hs : (place p).slot = some cls) : s.pool.inflight cls ≠ 0 := by
  intro h0
  have hpos : 0 < (s.pool.inflight cls).toNat := h.inv.counts_pos (mem_map_of_mem hp) hs
  rw [h0] at hpos
  exact absurd hpos (lt_irrefl 0)

theorem Accounted.step {L R : List Process} (h : Accounted s (L ++ p :: R)) (c : Choice) :
    Accounted (s.step p c).1 (L ++ (s.step p c).2 :: R) := by
  have hp : p ∈ L ++ p :: R := by simp
  have he : Effect s p (s.step p c) :=
    step_effect (h.ready p hp) fun cls hs => h.inflight_ne_zero hp hs
  obtain ⟨inv, owned, ready⟩ := h
  rw [map_append] at inv owned
  refine { inv := ?_, owned := fun id hid => ?_, ready := fun q hq => ?_ }
  · rw [map_append]
    exact inv.move he.move
  · rw [map_append, map_cons] at hid ⊢
    rw [he.owner]
    have := owned id (he.move.mem_tickets hid)
    rwa [map_append] at this
  · rcases mem_append.mp hq with hq | hq
    · exact ready q (mem_append_left _ hq)
    · rcases mem_cons.mp hq with rfl | hq
      · exact he.ready
      · exact ready q (mem_append_right _ (mem_cons_of_mem _ hq))

theorem accounted {config : Class → ClassConfig} {capacity : UInt16} {s₀ : Sched}
    (h₀ : new config capacity = some s₀) {n : Interleave.Net Sched Process}
    (h : Reaches scheduler.exec distinctIds ⟨s₀, []⟩ n) : Accounted n.shared n.procs :=
  Interleave.Program.invariant (accounted_new h₀) (fun _ _ _ hok h => h.call hok)
    (fun _ _ _ _ _ c _ _ h => h.step c) h

/-- The live permits: those that processes hold, from registration until they are unregistered, and
those in channels. -/
def livePermits (n : Interleave.Net Sched Process) : List (Permit Class String) :=
  (n.procs.map place).flatMap Place.permits ++ n.shared.sent.map Request.toPermit

/-- The slots acquired and not yet handed over or returned. -/
def inTransit (n : Interleave.Net Sched Process) : List Class :=
  (n.procs.map place).filterMap Place.loose

/-- The release a process is in, and of which class. -/
def Process.releasing : Process → Option Class
  | .release r _ _ => some r.cls
  | .giveBack _ _ cls _ => some cls
  | _ => none

/-- The acquire a process is in: its class, whether it is guarded, and its position. -/
def Process.acquiring : Process → Option (Class × Bool × Acquire)
  | .acquire r _ a => some (r.cls, true, a)
  | .take _ t cls a => some (cls, t.guarded, a)
  | _ => none

theorem Process.Ready.acquiring (hp : p.Ready) {cls : Class} {guarded : Bool}
    (h : p.acquiring = some (cls, guarded, a)) : a.Ready cls guarded := by
  rcases p <;> simp_all [Process.acquiring, Process.Ready]

theorem slot_of_releasing {cls : Class} (h : p.releasing = some cls) :
    (place p).slot = some cls := by
  rcases p <;> simp_all [Process.releasing, place, Place.slot]

/-- **Slot accounting.**  In every interleaving with distinct request ids: a class's in-flight count
is the number of its live permits and of its slots in transit; the registry holds exactly the
handles of the live permits, each its own request's; every release finds its slot counted; and an
acquire that succeeds leaves the total at most the capacity it read and, if it is guarded, leaves
the higher classes what they had reserved, as it read it, and not used. -/
theorem slot_accounting {config : Class → ClassConfig} {capacity : UInt16} {s₀ : Sched}
    (h₀ : Sched.new config capacity = some s₀) {n : Interleave.Net Sched Process}
    (h : Reaches scheduler.exec distinctIds ⟨s₀, []⟩ n) :
    (∀ c, (n.shared.pool.inflight c).toNat =
      (livePermits n).countP (fun q => q.cls = c) + (inTransit n).count c) ∧
    (n.shared.registry.entries.map registered).Perm (livePermits n) ∧
    ((livePermits n).map Permit.id).Nodup ∧
    (∀ p ∈ n.procs, ∀ cls, p.releasing = some cls → n.shared.pool.inflight cls ≠ 0) ∧
    ∀ p ∈ n.procs, ∀ cls guarded a spurious pool, p.acquiring = some (cls, guarded, a) →
      stepAcquire n.shared.pool cls guarded spurious a = (pool, .inr true) →
      ∃ cur cap seen, a = .swap cur cap seen ∧ used pool.inflight ≤ cap.toNat ∧
        (guarded = true → used pool.inflight + unused pool.inflight seen cls ≤ cap.toNat) := by
  have hacc := accounted h₀ h
  refine ⟨fun c => ?_, hacc.inv.registered, hacc.inv.nodup_permits, fun p hp cls hr => ?_, ?_⟩
  · have := hacc.inv.counts c
    rw [countP_slot] at this
    rw [livePermits, inTransit, countP_append]
    simp only [ledger] at this
    omega
  · exact hacc.inflight_ne_zero hp (slot_of_releasing hr)
  · intro p hp cls guarded a spurious pool ha hstep
    rcases stepAcquire_cases n.shared.pool cls spurious ((hacc.ready p hp).acquiring ha) with
      ⟨a', h, -⟩ | h | ⟨cur, cap, seen, hcur, -, h, -, hused, hguard⟩
    · exact absurd (h.symm.trans hstep) (by simp)
    · exact absurd (h.symm.trans hstep) (by simp)
    · obtain ⟨rfl, -⟩ := Prod.mk.inj (h.symm.trans hstep)
      exact ⟨cur, cap, seen, hcur, hused, hguard⟩

def plainConfig : Class → ClassConfig := fun _ =>
  { queueSize := 4, canPreempt := false, reservedFloor := 0, share := fun _ => 0 }

def twoSlots : Sched := (Sched.new plainConfig 2).get (by decide +kernel)

def onwards : Choice :=
  { arm := .result, wake := .notified, starved := false, spurious := false, now := 0 }

/-- One request is admitted; the other has its slot and is not yet registered. -/
def twoRequests : List (Interleave.Act Choice Call) :=
  .call (.admission ⟨"a", .bulk⟩) :: .call (.admission ⟨"b", .system⟩) ::
    (List.replicate 10 (.step 0 onwards) ++ List.replicate 9 (.step 1 onwards))

theorem allOk_twoRequests : AllOk scheduler.exec distinctIds ⟨twoSlots, []⟩ twoRequests := by
  refine ⟨nofun, ?_, ?_⟩
  · intro p hp
    obtain rfl := mem_singleton.mp hp
    decide
  · trivial

theorem slot_accounting_two_requests :
    let n := twoRequests.foldl scheduler.exec ⟨twoSlots, []⟩
    livePermits n = [⟨"a", .bulk⟩] ∧ inTransit n = [.system] ∧
      ∀ c, (n.shared.pool.inflight c).toNat =
        (livePermits n).countP (fun q => q.cls = c) + (inTransit n).count c := by
  refine ⟨by decide +kernel, by decide +kernel, ?_⟩
  exact (slot_accounting (Option.some_get _).symm (reaches_foldl allOk_twoRequests)).1

end Smg.Scheduler
