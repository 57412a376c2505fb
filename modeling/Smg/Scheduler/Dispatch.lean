import Smg.Scheduler.Engine

/-!
# No stranded waiter

When the dispatcher is idle and no notification is under way, is every waiter that still listens one
the pool would refuse?  Headroom appears when a slot is released and when the capacity grows, a
waiter appears when it is queued, and each of these notifies.  A capacity that shrinks does not:
the reservations are recomputed with it, and where they are lowered, a class below them may gain
headroom that nobody looks at (`stranded_after_shrink`).

What is here:

* `pending`: a notification is stored, or some process stands right before giving one;
* `Ebbs`: the changes other processes make without a notification.  Headroom and waiters only go;
* `Settled`: what the dispatcher knows at each position of a pass, if nothing is pending: the
  classes it has checked have nobody to admit or no headroom;
* `no_stranded_waiter`: the property, in every run in which a smaller capacity lowers no
  reservation.
-/

set_option autoImplicit false

namespace Smg.Scheduler

open Sched Function List Process

/-! ## What is asked -/

def SlotPool.Refuses (p : SlotPool) (cls : Class) : Prop :=
  decideGuarded cls p.inflightPacked p.capacity p.reserved = .inr false

/-- A waiter that is neither cancelled nor abandoned. -/
def Sched.Live (s : Sched) (w : Request) : Prop :=
  s.isCancelled w.id = false ∧ s.receiverClosed w.id = false

/-- The process stands right before a notification that follows a change. -/
def Process.announces : Process → Bool
  | .nudge _ | .announce _ _ | .growNotify _ => true
  | _ => false

def pending (s : Sched) (ps : List Process) : Prop :=
  s.notified = true ∨ ∃ p ∈ ps, p.announces = true

/-- No class with a waiter that listens could be admitted, or somebody is about to look. -/
def NoneStranded (n : Interleave.Net Sched Process) : Prop :=
  Process.idle ∈ n.procs → ¬pending n.shared n.procs →
    ∀ cls, (∃ w ∈ n.shared.queues cls, n.shared.Live w) → n.shared.pool.Refuses cls

/-- The reservations are the classes' floors at both capacities. -/
def FloorsHold (config : Class → ClassConfig) (old new : UInt16) : Prop :=
  (∀ c, (config c).share old ≤ (config c).reservedFloor.toNat ∧
    (config c).share new ≤ (config c).reservedFloor.toNat) ∧
  totalOf (fun c => (config c).reservedFloor) ≤ new.toNat

/-- Requests come and go; the one dispatcher takes the new capacities. -/
def served (_ : Interleave.Net Sched Process) : Interleave.Act Choice Call → Prop
  | .call (.admission _) | .call (.cancel _) | .step _ _ => True
  | _ => False

/-- As `served`, and a capacity the dispatcher takes is no smaller than the current one, or leaves
the reservations at the floors. -/
def servedSteadily (n : Interleave.Net Sched Process) (a : Interleave.Act Choice Call) : Prop :=
  served n a ∧ ∀ i c new, a = .step i c → n.procs[i]? = some .idle → c.wake = .capacity new →
    n.shared.pool.capacity.toNat ≤ new.toNat ∨
      FloorsHold n.shared.config n.shared.pool.capacity new

variable {cls : Class}

theorem refuses_iff {p : SlotPool} :
    p.Refuses cls ↔ p.capacity.toNat ≤ used p.inflight + unused p.inflight p.reserved cls := by
  rw [SlotPool.Refuses]
  rcases decideGuarded_cases cls p.inflightPacked p.capacity p.reserved with ⟨h, hle⟩ | ⟨h, hlt⟩
  · exact ⟨fun _ => hle, fun _ => h⟩
  · rw [h]
    exact ⟨nofun, fun hle => absurd hlt (not_lt.mpr hle)⟩

/-! ## A capacity that shrinks -/

/-- Two slots reserved for each of the two higher classes. -/
def reservingConfig : Class → ClassConfig
  | .bulk | .default =>
    { queueSize := 4, canPreempt := false, reservedFloor := 0, share := fun _ => 0 }
  | .interactive | .system =>
    { queueSize := 4, canPreempt := false, reservedFloor := 2, share := fun _ => 0 }

def fourSlots : Sched := (Sched.new reservingConfig 4).get (by decide +kernel)

/-- Everything goes on as it can, and nobody is starved. -/
def going (wake : Wake) : Choice :=
  { arm := .result, wake, starved := false, spurious := false, now := 0 }

/-- A bulk request is refused and queued, the dispatcher looks at it in vain, and then the capacity
goes down by one. -/
def shrinkRun : List (Interleave.Act Choice Call) :=
  .call (.admission ⟨"a", .bulk⟩) :: (List.replicate 11 (.step 1 (going .notified)) ++
    List.replicate 24 (.step 0 (going .notified)) ++
    List.replicate 8 (.step 0 (going (.capacity 3))))

instance (s : Sched) (ps : List Process) : Decidable (pending s ps) :=
  inferInstanceAs (Decidable (_ ∨ _))

instance (s : Sched) (w : Request) : Decidable (s.Live w) := inferInstanceAs (Decidable (_ ∧ _))

def Process.isIdle : Process → Bool
  | .idle => true
  | _ => false

theorem idle_mem_of_any {ps : List Process} (h : ps.any isIdle = true) : .idle ∈ ps := by
  obtain ⟨p, hp, hidle⟩ := any_eq_true.mp h
  have : p = .idle := by
    rcases p <;> first | rfl | exact absurd hidle (by simp [isIdle])
  exact this ▸ hp

/-- **A waiter is stranded**: the smaller capacity has lowered the reservations above it, its class
has a slot, and nobody is told. -/
theorem stranded_after_shrink :
    Sched.new reservingConfig 4 = some fourSlots ∧
      Reaches scheduler.exec served ⟨fourSlots, [.idle]⟩
        (shrinkRun.foldl scheduler.exec ⟨fourSlots, [.idle]⟩) ∧
      ¬NoneStranded (shrinkRun.foldl scheduler.exec ⟨fourSlots, [.idle]⟩) := by
  refine ⟨(Option.some_get _).symm, reaches_foldl (by trivial), fun h => ?_⟩
  have hrefuses := h (idle_mem_of_any (by decide +kernel)) (by decide +kernel) .bulk
    ⟨⟨"a", .bulk⟩, by decide +kernel⟩
  exact absurd (refuses_iff.mp hrefuses) (by decide +kernel)

/-! ## What other processes do -/

def Sched.NoneLive (s : Sched) (cls : Class) : Prop := ∀ w ∈ s.queues cls, ¬s.Live w

def Sched.Calm (s : Sched) (cls : Class) : Prop := s.NoneLive cls ∨ s.pool.Refuses cls

/-- The configuration, the capacity and the reservations stay. -/
structure Fixed (s s' : Sched) : Prop where
  config : s'.config = s.config
  capacity : s'.pool.capacity = s.pool.capacity
  reserved : s'.pool.reserved = s.pool.reserved

/-- Slots only go, and so do waiters. -/
structure Ebbs (s s' : Sched) : Prop where
  counts : ∀ c, (s.pool.inflight c).toNat ≤ (s'.pool.inflight c).toNat
  waiters : ∀ c, ∀ w ∈ s'.queues c, s'.Live w → w ∈ s.queues c ∧ s.Live w

variable {s : Sched}

theorem Fixed.rfl : Fixed s s := ⟨Eq.refl _, Eq.refl _, Eq.refl _⟩

theorem Ebbs.rfl : Ebbs s s := ⟨fun _ => le_refl _, fun _ _ hw hl => ⟨hw, hl⟩⟩

variable {a : Acquire} {p : Process} {rel : Release}

section Ebbing

variable {s s' : Sched}

theorem Ebbs.noneLive (h : Ebbs s s') (hn : s.NoneLive cls) : s'.NoneLive cls := by
  intro w hw hl
  obtain ⟨hw, hl⟩ := h.waiters cls w hw hl
  exact hn w hw hl

theorem Ebbs.refuses (h : Ebbs s s') (hf : Fixed s s') (hr : s.pool.Refuses cls) :
    s'.pool.Refuses cls := by
  rw [refuses_iff] at hr ⊢
  rw [hf.capacity, hf.reserved]
  exact hr.trans (headroom_anti h.counts _ cls)

theorem Ebbs.calm (h : Ebbs s s') (hf : Fixed s s') (hc : s.Calm cls) : s'.Calm cls :=
  hc.imp h.noneLive (h.refuses hf)

theorem le_raise (counts : Lanes) (cls c : Class) :
    (counts c).toNat ≤ (raise counts cls c).toNat := by
  have := (counts c).toNat_lt
  rw [raise, update_apply]
  split
  · rename_i hc
    rw [toNat_satAdd, hc]
    rw [hc] at this
    omega
  · exact le_refl _

def Process.drives : Process → Bool
  | .idle | .scan .. | .look .. | .take .. | .send .. | .check .. | .enlist .. | .deliver .. |
    .giveBack .. | .resize .. | .growReserved .. | .growCapacity .. | .growNotify .. |
    .shrinkCapacity .. | .shrinkReserved .. | .remove _ (.passed _) | .release _ _ (.passed _) |
    .announce _ (.passed _) => true
  | _ => false

/-- What an access of another process than the dispatcher comes to: a notification, the position
right before one, or nothing that would call for one. -/
structure Outside (s : Sched) (p : Process) (t : Sched × Process) : Prop where
  /-- It does not become the dispatcher. -/
  other : t.2.drives = false
  /-- It leaves the capacity and the reservations alone. -/
  fixed : Fixed s t.1
  /-- A notification stays stored, and one that was due is given. -/
  notified : s.notified = true ∨ p.announces = true → t.1.notified = true
  /-- It notifies, is about to, or need not. -/
  ebbs : t.1.notified = true ∨ t.2.announces = true ∨ Ebbs s t.1

variable {p' : Process}

/-- An access that notifies. -/
theorem Outside.notify (hp' : p'.drives = false) : Outside s p (s.notifyOne, p') where
  other := hp'
  fixed := ⟨rfl, rfl, rfl⟩
  notified _ := rfl
  ebbs := .inl rfl

theorem Outside.ebb (hp' : p'.drives = false) (hf : Fixed s s') (hn : s'.notified = s.notified)
    (hp : p.announces = false) (he : Ebbs s s') : Outside s p (s', p') where
  other := hp'
  fixed := hf
  notified h := by
    rcases h with h | h
    · exact hn.trans h
    · rw [hp] at h
      cases h
  ebbs := .inr (.inr he)

theorem Outside.idle (hp' : p'.drives = false) (hp : p.announces = false) : Outside s p (s, p') :=
  .ebb hp' Fixed.rfl rfl hp Ebbs.rfl

theorem outside_acquire {r : Request} {polling : Bool} {c : Choice} :
    Outside s (.acquire r polling a) (s.stepAdmit c (.acquire r polling a)) := by
  have hpool := stepAcquire_pool s.pool r.cls true c.spurious a
  rw [stepAdmit]
  generalize stepAcquire s.pool r.cls true c.spurious a = t at hpool
  obtain ⟨pool, result⟩ := t
  refine .ebb ?_ ?_ rfl rfl ?_
  · rcases result with a | _ | _
    · rfl
    · cases polling <;> rfl
    · rfl
  · rcases hpool with h | h <;> subst h <;> exact ⟨rfl, rfl, rfl⟩
  · rcases hpool with h | h <;> subst h
    · exact Ebbs.rfl
    · refine ⟨fun c => ?_, fun _ _ hw hl => ⟨hw, hl⟩⟩
      rw [inflight_take]
      exact le_raise _ _ _

theorem outside_release {r : Request} {k : After} {c : Choice}
    (hk : (release r rel k).drives = false) :
    Outside s (.release r rel k) (s.stepPermit c (.release r rel k)) := by
  obtain ⟨hcap, hres, hpool⟩ := stepRelease_pool s.pool r.cls c.spurious rel
  rw [stepPermit]
  generalize stepRelease s.pool r.cls c.spurious rel = t at hcap hres hpool
  obtain ⟨pool, rest⟩ := t
  have hf : Fixed s { s with pool } := ⟨rfl, hcap, hres⟩
  have hannounce : (announce r k).drives = false := by
    rcases k with _ | _ | _ <;> first | rfl | exact hk
  rcases rest with _ | rel
  · exact
      { other := hannounce
        fixed := hf
        notified := fun h => h.resolve_right (by simp [announces])
        ebbs := .inr (.inl rfl) }
  · refine .ebb ?_ hf rfl rfl ?_
    · rcases k with _ | _ | _ <;> first | rfl | exact hk
    · simp only [reduceCtorEq, or_false] at hpool
      subst hpool
      exact Ebbs.rfl

theorem outside_hush (hp' : p'.drives = false) (hp : p.announces = false)
    (hpool : s'.pool = s.pool) (hconfig : s'.config = s.config) (hn : s'.notified = s.notified)
    (hq : s'.queues = s.queues) (hl : ∀ w, s'.Live w → s.Live w) : Outside s p (s', p') := by
  refine .ebb hp' ⟨hconfig, by rw [hpool], by rw [hpool]⟩ hn hp ⟨fun c => by rw [hpool], ?_⟩
  intro c w hw hlive
  rw [hq] at hw
  exact ⟨hw, hl w hlive⟩

theorem eq_false_of_update {f : String → Bool} {k x : String}
    (h : update f k true x = false) : f x = false := by
  rw [update_apply] at h
  split at h
  · cases h
  · exact h

theorem outside_receiverClosed {r : Request} {sent : List Request} (hp' : p'.drives = false) :
    Outside s (.waiting r)
      ({ s with receiverClosed := update s.receiverClosed r.id true, sent }, p') :=
  outside_hush hp' rfl rfl rfl rfl rfl fun _ hw => ⟨hw.1, eq_false_of_update hw.2⟩

theorem outside_waiting {r : Request} {c : Choice} :
    Outside s (.waiting r) (s.stepPermit c (.waiting r)) := by
  have hclose : Outside s (.waiting r) (s.closeReceiver r) := by
    refine outside_receiverClosed ?_
    split <;> rfl
  rw [stepPermit]
  split
  · split
    · exact outside_receiverClosed rfl
    · split
      · exact hclose
      · exact .idle rfl rfl
  · exact hclose
  · split
    · exact hclose
    · exact .idle rfl rfl
  · exact hclose

theorem outside_enqueue {r : Request} {c : Choice} :
    Outside s (.enqueue r) (s.stepAdmit c (.enqueue r)) := by
  rw [stepAdmit]
  split
  · exact .idle rfl rfl
  · exact
      { other := rfl
        fixed := ⟨rfl, rfl, rfl⟩
        notified := fun h => h.resolve_right (by simp [announces])
        ebbs := .inr (.inl rfl) }

/-- **The other processes notify where it matters.** -/
theorem outside_step (hp : p.drives = false) (c : Choice) : Outside s p (s.step p c) := by
  cases p with
  | admission r => exact .idle rfl rfl
  | acquire r polling a => exact outside_acquire
  | register r => exact outside_hush rfl rfl rfl rfl rfl rfl fun _ hw => hw
  | preempt r =>
    refine Outside.idle ?_ rfl
    split
    · split <;> rfl
    · rfl
  | seek r =>
    refine Outside.idle ?_ rfl
    split <;> rfl
  | mark r victim =>
    rw [show s.step (.mark r victim) c = s.stepAdmit c (.mark r victim) from rfl, stepAdmit]
    split
    · exact outside_hush rfl rfl rfl rfl rfl rfl fun _ hw => hw
    · exact .idle rfl rfl
  | cancelVictim r victim => exact outside_hush rfl rfl rfl rfl rfl rfl fun _ hw => hw
  | poll r =>
    refine Outside.idle ?_ rfl
    split <;> first | rfl | split <;> rfl
  | afterPoll r =>
    refine Outside.idle ?_ rfl
    split <;> rfl
  | enqueue r => exact @outside_enqueue s r c
  | nudge r => exact .notify rfl
  | waiting r => exact outside_waiting
  | unguard r permit =>
    refine outside_hush rfl rfl rfl rfl rfl rfl fun w hw => ⟨?_, hw.2⟩
    have := Bool.or_eq_false_iff.mp hw.1
    exact Bool.or_eq_false_iff.mpr ⟨this.1, eq_false_of_update this.2⟩
  | kick r permit => exact .notify (by cases permit <;> rfl)
  | holding r =>
    rw [show s.step (.holding r) c = s.stepPermit c (.holding r) from rfl, stepPermit]
    split
    · exact .idle rfl rfl
    · rw [tryMarkFirstByte]
      split <;> exact outside_hush rfl rfl rfl rfl rfl rfl fun _ hw => hw
  | remove r k =>
    refine outside_hush ?_ rfl rfl rfl rfl rfl fun _ hw => hw
    rcases k with _ | _ | _ <;> first | rfl | exact hp
  | release r rel k => exact outside_release hp
  | announce r k =>
    refine Outside.notify ?_
    rcases k with _ | _ | _ <;> first | rfl | exact absurd hp (by simp [drives])
  | cancelClient id =>
    refine outside_hush rfl rfl rfl rfl rfl rfl fun w hw => ⟨?_, hw.2⟩
    have := Bool.or_eq_false_iff.mp hw.1
    exact Bool.or_eq_false_iff.mpr ⟨eq_false_of_update this.1, this.2⟩
  | finished r => exact .idle rfl rfl
  | _ => exact absurd hp (by simp [drives])

end Ebbing

/-! ## What the dispatcher knows -/

/-- The classes of the second half of a pass below a rank. -/
def below (k : Nat) : List Class := Sched.secondPass.left.filter fun c => c.rank < k

def Sched.Steady (s : Sched) : Prop := s.pool.reserved = newReservations s.config s.pool.capacity

/-- Where the dispatcher can be, whatever is pending. -/
def Shape (s : Sched) : Process → Prop
  | .idle | .growNotify .loop | .enlist .loop _ | .deliver .loop _ | .remove _ (.passed .loop) |
    .release _ _ (.passed .loop) | .announce _ (.passed .loop) => s.Steady
  | .scan .loop t => s.Steady ∧ (t.guarded = true → ∃ k, t.left = below k)
  | .look .loop t cls | .take .loop t cls _ | .send .loop t cls | .check .loop t cls _ |
    .giveBack .loop t cls _ => s.Steady ∧ (t.guarded = true → t.left = below cls.rank)
  | .resize .loop new => s.Steady ∧
    (s.pool.capacity.toNat ≤ new.toNat ∨ FloorsHold s.config s.pool.capacity new)
  | .growReserved .loop new reserved left =>
    reserved = newReservations s.config new ∧ ∀ c ∉ left, s.pool.reserved c = reserved c
  | .growCapacity .loop new => s.pool.reserved = newReservations s.config new
  | .shrinkCapacity .loop new reserved =>
    s.pool.reserved = reserved ∧ newReservations s.config new = reserved ∧
      new.toNat ≤ s.pool.capacity.toNat
  | .shrinkReserved .loop reserved _ => s.Steady ∧ s.pool.reserved = reserved
  | _ => False

/-- What a guarded acquire of the dispatcher has read is what there is, but for slots taken since.
-/
def Acquire.Current (s : Sched) (cls : Class) : Acquire → Prop
  | .load => True
  | .capacity cur => ∀ c, (unpack cur c).toNat ≤ (s.pool.inflight c).toNat
  | .reserved cur cap seen left => (∀ c, (unpack cur c).toNat ≤ (s.pool.inflight c).toNat) ∧
    cap = s.pool.capacity ∧ ∀ c ∉ left, seen c = s.pool.reserved c
  | .swap cur cap seen => cap = s.pool.capacity ∧ seen = s.pool.reserved ∧
    used (unpack cur) + unused (unpack cur) seen cls < cap.toNat

/-- What the dispatcher knows if nothing is pending. -/
def Settled (s : Sched) : Process → Prop
  | .idle | .resize .. | .shrinkCapacity .. | .shrinkReserved .. => ∀ c, s.Calm c
  | .scan _ t => t.guarded = true → ∀ c ∉ t.left, s.Calm c
  | .look _ t cls => t.guarded = true → ∀ c : Class, cls.rank < c.rank → s.Calm c
  | .take _ t cls a =>
    t.guarded = true → (∀ c : Class, cls.rank < c.rank → s.Calm c) ∧ a.Current s cls
  | .send _ t cls | .check _ t cls _ =>
    t.guarded = true → ∀ c : Class, cls.rank < c.rank → s.NoneLive c
  | .giveBack _ t cls _ => t.guarded = true → ∀ c : Class, cls.rank ≤ c.rank → s.NoneLive c
  | _ => True

variable {s' : Sched}

theorem Acquire.Current.ebb (hf : Fixed s s') (he : Ebbs s s') (h : a.Current s cls) :
    a.Current s' cls := by
  rcases a with _ | cur | ⟨cur, cap, seen, left⟩ | ⟨cur, cap, seen⟩
  · trivial
  · exact fun c => (h c).trans (he.counts c)
  · exact ⟨fun c => (h.1 c).trans (he.counts c), h.2.1.trans hf.capacity.symm,
      fun c hc => (h.2.2 c hc).trans (congrFun hf.reserved.symm c)⟩
  · exact ⟨h.1.trans hf.capacity.symm, h.2.1.trans hf.reserved.symm, h.2.2⟩

variable {q : Process}

/-- What the dispatcher knows outlasts what others do without notifying. -/
theorem Settled.ebb (hf : Fixed s s') (he : Ebbs s s') (h : Settled s q) : Settled s' q := by
  cases q with
  | idle => exact fun c => he.calm hf (h c)
  | resize d new => exact fun c => he.calm hf (h c)
  | shrinkCapacity d new reserved => exact fun c => he.calm hf (h c)
  | shrinkReserved d reserved left => exact fun c => he.calm hf (h c)
  | scan d t => exact fun hg c hc => he.calm hf (h hg c hc)
  | look d t cls => exact fun hg c hc => he.calm hf (h hg c hc)
  | take d t cls a => exact fun hg => ⟨fun c hc => he.calm hf ((h hg).1 c hc), (h hg).2.ebb hf he⟩
  | send d t cls => exact fun hg c hc => he.noneLive (h hg c hc)
  | check d t cls id => exact fun hg c hc => he.noneLive (h hg c hc)
  | giveBack d t cls rel => exact fun hg c hc => he.noneLive (h hg c hc)
  | _ => trivial

theorem Sched.Steady.fixed (hf : Fixed s s') (h : s.Steady) : s'.Steady := by
  rw [Sched.Steady, hf.reserved, hf.config, hf.capacity]
  exact h

theorem Shape.fixed (hf : Fixed s s') (h : Shape s q) : Shape s' q := by
  have hs : s.Steady → s'.Steady := Sched.Steady.fixed hf
  unfold Shape at h ⊢
  rw [hf.config, hf.capacity, hf.reserved]
  split at h <;> first | exact hs h | exact ⟨hs h.1, h.2⟩ | exact h

/-! ## The order of a pass -/

theorem mem_below {c : Class} {k : Nat} : c ∈ below k ↔ c.rank < k := by
  rw [below, mem_filter]
  cases c <;> simp [secondPass]

theorem eq_or_rank_lt {c d : Class} (h : c.rank ≤ d.rank) : d = c ∨ c.rank < d.rank := by
  rcases c <;> rcases d <;> simp_all [Class.rank]

variable {left : List Class}

theorem below_eq_cons {k : Nat} (h : below k = cls :: left) :
    left = below cls.rank ∧ ∀ c : Class, cls.rank < c.rank → c ∉ below k := by
  -- all classes are below rank 4, so that the larger `k` are like it
  have hk : ∃ k' ≤ 4, below k = below k' := by
    rcases le_total k 4 with h4 | h4
    · exact ⟨k, h4, rfl⟩
    · refine ⟨4, le_refl 4, filter_congr fun c _ => ?_⟩
      have : c.rank < 4 := by cases c <;> decide
      simp only [decide_eq_decide]
      omega
  obtain ⟨k', h4, hk⟩ := hk
  rw [hk] at h ⊢
  interval_cases k' <;> obtain ⟨rfl, rfl⟩ := h
  all_goals exact ⟨by decide, fun c => by cases c <;> decide⟩

/-! ## The dispatcher's accesses -/

/-- Somebody is about to look, or the dispatcher knows there is nothing to see. -/
def Awake (s : Sched) (q : Process) : Prop :=
  s.notified = true ∨ q.announces = true ∨ Settled s q

/-- What an access of the dispatcher comes to. -/
structure Drive (s : Sched) (q : Process) (t : Sched × Process) : Prop where
  /-- It goes to one of its positions. -/
  shape : Shape t.1 t.2
  awake : Awake s q → Awake t.1 t.2

section Driving

variable {s s' : Sched} {c : Choice} {t : Pass} {cls : Class}

/-- An access that does not notify. -/
theorem Drive.silent {q' : Process} (hshape : Shape s' q') (hn : s'.notified = s.notified)
    (hq : q.announces = false) (h : Settled s q → Settled s' q') : Drive s q (s', q') where
  shape := hshape
  awake ha := by
    rcases ha with ha | ha | ha
    · exact .inl (hn.trans ha)
    · rw [hq] at ha
      cases ha
    · exact .inr (.inr (h ha))

theorem Drive.begin (hs : s'.Steady) : Drive s q (s', .scan .loop firstPass) where
  shape := ⟨hs, nofun⟩
  awake _ := .inr (.inr nofun)

theorem ebbs_queues {queues : Class → List Request} {gone : String → Bool}
    (h : ∀ c, ∀ w ∈ queues c, w ∈ s.queues c) :
    Ebbs s { s with queues, senderGone := gone } :=
  ⟨fun _ => le_refl _, fun c w hw hl => ⟨h c w hw, hl⟩⟩

theorem mem_of_update {queues : Class → List Request} {l : List Request}
    (hl : ∀ w ∈ l, w ∈ queues cls) (c : Class) :
    ∀ w ∈ update queues cls l c, w ∈ queues c := by
  intro w hw
  rw [update_apply] at hw
  split at hw
  · rename_i hc
    exact hc ▸ hl w hw
  · exact hw

/-- A guarded acquire of the dispatcher goes on, is refused where the pool refuses, or succeeds
where it does not. -/
theorem acquire_current {guarded : Bool} (hg : guarded = true) (h : a.Current s cls)
    (spurious : Bool) :
    (∃ a', stepAcquire s.pool cls guarded spurious a = (s.pool, .inl a') ∧ a'.Current s cls) ∨
      (stepAcquire s.pool cls guarded spurious a = (s.pool, .inr false) ∧ s.pool.Refuses cls) ∨
      (stepAcquire s.pool cls guarded spurious a = (s.pool.take cls, .inr true) ∧
        ¬s.pool.Refuses cls) := by
  subst hg
  rcases a with _ | cur | ⟨cur, cap, seen, _ | ⟨c, left⟩⟩ | ⟨cur, cap, seen⟩
  · exact .inl ⟨_, rfl, fun _ => le_refl _⟩
  · refine .inl ⟨_, rfl, h, rfl, fun c hc => absurd ?_ hc⟩
    cases c <;> decide
  · obtain ⟨hcur, rfl, hseen⟩ := h
    obtain rfl : seen = s.pool.reserved := funext fun c => hseen c not_mem_nil
    rw [stepAcquire]
    rcases decideGuarded_cases cls cur s.pool.capacity s.pool.reserved with ⟨h, hle⟩ | ⟨h, hlt⟩
    · refine .inr (.inl ⟨by rw [h], refuses_iff.mpr ?_⟩)
      exact hle.trans (headroom_anti hcur _ cls)
    · exact .inl ⟨.swap cur s.pool.capacity s.pool.reserved, by rw [h], rfl, rfl, hlt⟩
  · refine .inl ⟨_, rfl, h.1, h.2.1, fun c' hc' => ?_⟩
    rw [update_apply]
    split
    · rename_i hc
      rw [hc]
    · rename_i hc
      exact h.2.2 c' (not_mem_cons_of_ne_of_not_mem hc hc')
  · obtain ⟨rfl, rfl, hlt⟩ := h
    rw [stepAcquire]
    split
    · rename_i hswap
      have hcounts : s.pool.inflight = unpack cur := congrArg unpack hswap.1
      refine .inr (.inr ⟨by rw [SlotPool.take, hcounts], fun hr => ?_⟩)
      rw [refuses_iff, hcounts] at hr
      omega
    · exact .inl ⟨_, rfl, fun _ => le_refl _⟩

theorem fixed_stepAcquire (guarded spurious : Bool) (a : Acquire) :
    Fixed s { s with pool := (stepAcquire s.pool cls guarded spurious a).1 } := by
  rcases stepAcquire_pool s.pool cls guarded spurious a with h | h <;> rw [h] <;>
    exact ⟨rfl, rfl, rfl⟩

/-- Where a class has headroom, so have those above: if one of them is calm, nobody there listens.
-/
theorem noneLive_of_calm {c : Class} (hr : ¬s.pool.Refuses cls) (hc : cls.rank < c.rank)
    (h : s.Calm c) : s.NoneLive c := by
  refine h.resolve_right fun hrc => hr ?_
  rw [refuses_iff] at hrc ⊢
  have := unused_mono s.pool.inflight s.pool.reserved hc.le
  omega

theorem fixed_stepRelease (spurious : Bool) (rel : Release) :
    Fixed s { s with pool := (stepRelease s.pool cls spurious rel).1 } :=
  have h := stepRelease_pool s.pool cls spurious rel
  ⟨rfl, h.1, h.2.1⟩

section

variable (hs : s.Steady)

include hs

theorem drive_idle
    (hcap : ∀ new, c.wake = .capacity new → s.pool.capacity.toNat ≤ new.toNat ∨
      FloorsHold s.config s.pool.capacity new) : Drive s .idle (s.stepPass c .idle) := by
  rw [stepPass]
  split
  · split
    · exact .begin hs
    · exact .silent hs rfl rfl id
  · exact .begin hs
  · rename_i new hwake
    exact .silent ⟨hs, hcap new hwake⟩ rfl rfl id

theorem drive_scan (ht : t.guarded = true → ∃ k, t.left = below k) :
    Drive s (.scan .loop t) (s.stepPass c (.scan .loop t)) := by
  rcases t with ⟨guarded, _ | ⟨cls, left⟩⟩
  · rcases guarded with _ | _
    · refine .silent ⟨hs, fun _ => ⟨4, rfl⟩⟩ rfl rfl fun _ _ c hc => ?_
      exact absurd (mem_below.mpr (show c.rank < 4 by cases c <;> decide)) hc
    · exact .silent hs rfl rfl fun h c => h rfl c not_mem_nil
  · have he : Ebbs s (s.dropCancelledHead cls) :=
      ebbs_queues (mem_of_update fun w hw => (dropWhile_suffix _).mem hw)
    have hf : Fixed s (s.dropCancelledHead cls) := ⟨rfl, rfl, rfl⟩
    refine .silent ⟨hs, fun hg => ?_⟩ rfl rfl fun h hg c hc => ?_
    · obtain ⟨k, hk⟩ := ht hg
      exact (below_eq_cons hk.symm).1
    · obtain ⟨k, hk⟩ := ht hg
      refine he.calm hf (h hg c ?_)
      rw [hk]
      exact (below_eq_cons hk.symm).2 c hc

theorem drive_deliver {r : Request} :
    Drive s (.deliver .loop r) (s.stepPass c (.deliver .loop r)) := by
  rw [stepPass]
  split
  · exact .silent hs rfl rfl fun _ => trivial
  · exact .begin hs

theorem drive_release {r : Request} :
    Drive s (.release r rel (.passed .loop)) (s.stepPermit c (.release r rel (.passed .loop))) := by
  have hsteady := hs.fixed (@fixed_stepRelease s r.cls c.spurious rel)
  rw [stepPermit]
  generalize stepRelease s.pool r.cls c.spurious rel = t at hsteady
  obtain ⟨pool, _ | rel⟩ := t
  · exact ⟨hsteady, fun _ => .inr (.inl rfl)⟩
  · exact .silent hsteady rfl rfl fun _ => trivial

variable (ht : t.guarded = true → t.left = below cls.rank)

include ht

theorem drive_look :
    Drive s (.look .loop t cls) (s.stepPass c (.look .loop t cls)) := by
  rw [stepPass]
  split
  · rename_i hq
    refine .silent ⟨hs, fun hg => ⟨_, ht hg⟩⟩ rfl rfl fun h hg c hc => ?_
    rw [ht hg, mem_below, not_lt] at hc
    rcases eq_or_rank_lt hc with rfl | hlt
    · exact .inl fun w hw => absurd (hq ▸ hw) not_mem_nil
    · exact h hg c hlt
  · split
    · rename_i hg'
      exact .silent ⟨hs, fun hg => ⟨_, ht hg⟩⟩ rfl rfl fun _ hg =>
        absurd (hg.symm.trans hg'.1) nofun
    · exact .silent ⟨hs, ht⟩ rfl rfl fun h hg => ⟨h hg, trivial⟩

theorem drive_take :
    Drive s (.take .loop t cls a) (s.stepPass c (.take .loop t cls a)) := by
  have hsteady := hs.fixed (@fixed_stepAcquire s cls t.guarded c.spurious a)
  have hcur := fun (h : Settled s (.take .loop t cls a)) (hg : t.guarded = true) =>
    acquire_current hg (h hg).2 c.spurious
  rw [stepPass]
  generalize stepAcquire s.pool cls t.guarded c.spurious a = r at hsteady hcur
  obtain ⟨pool, a' | _ | _⟩ := r
  · refine .silent ⟨hsteady, ht⟩ rfl rfl fun h hg => ⟨?_, ?_⟩
    all_goals
      obtain ⟨a'', heq, ha⟩ := (hcur h hg).resolve_right (by rintro (⟨h, -⟩ | ⟨h, -⟩) <;> cases h)
      cases heq
    · exact (h hg).1
    · exact ha
  · refine .silent ⟨hsteady, fun hg => ⟨_, ht hg⟩⟩ rfl rfl fun h hg c hc => ?_
    rw [ht hg, mem_below, not_lt] at hc
    rcases hcur h hg with ⟨_, heq, _⟩ | ⟨heq, hr⟩ | ⟨heq, _⟩ <;> cases heq
    rcases eq_or_rank_lt hc with rfl | hlt
    · exact .inr hr
    · exact (h hg).1 c hlt
  · refine .silent ⟨hsteady, ht⟩ rfl rfl fun h hg c hc => ?_
    rcases hcur h hg with ⟨_, heq, _⟩ | ⟨heq, _⟩ | ⟨_, hr⟩
    · cases heq
    · cases heq
    · have hnone := noneLive_of_calm hr hc ((h hg).1 c hc)
      exact fun w hw hl => hnone w hw hl

theorem drive_send :
    Drive s (.send .loop t cls) (s.stepPass c (.send .loop t cls)) := by
  rw [stepPass]
  split
  · rename_i hq
    refine .silent ⟨hs, ht⟩ rfl rfl fun h hg c hc => ?_
    rcases eq_or_rank_lt hc with rfl | hlt
    · exact fun w hw => absurd (hq ▸ hw) not_mem_nil
    · exact h hg c hlt
  · rename_i w rest hq
    refine .silent ⟨hs, ht⟩ rfl rfl fun h hg c hc => ?_
    have he : Ebbs s { s with queues := update s.queues cls rest } :=
      ebbs_queues (mem_of_update fun w hw => hq ▸ mem_cons_of_mem _ hw)
    exact he.noneLive (h hg c hc)

theorem drive_check {id : String} :
    Drive s (.check .loop t cls id) (s.stepPass c (.check .loop t cls id)) := by
  rw [stepPass]
  split
  · exact .silent ⟨hs, ht⟩ rfl rfl fun h => h
  · exact .silent hs rfl rfl fun _ => trivial

theorem drive_giveBack :
    Drive s (.giveBack .loop t cls rel) (s.stepPass c (.giveBack .loop t cls rel)) := by
  have hsteady := hs.fixed (@fixed_stepRelease s cls c.spurious rel)
  rw [stepPass]
  generalize stepRelease s.pool cls c.spurious rel = r at hsteady
  obtain ⟨pool, _ | rel⟩ := r
  · refine .silent ⟨hsteady, fun hg => ⟨_, ht hg⟩⟩ rfl rfl fun h hg c hc => ?_
    rw [ht hg, mem_below, not_lt] at hc
    exact .inl (h hg c hc)
  · exact .silent ⟨hsteady, ht⟩ rfl rfl id

end

/-! ## Capacity changes -/

theorem newReservations_eq_floors {config : Class → ClassConfig} {capacity : UInt16}
    (hshare : ∀ c, (config c).share capacity ≤ (config c).reservedFloor.toNat)
    (hfit : totalOf (fun c => (config c).reservedFloor) ≤ capacity.toNat) :
    newReservations config capacity = fun c => (config c).reservedFloor := by
  have hdesired : desiredReservations config capacity = fun c => (config c).reservedFloor := by
    funext c
    have := toNat_le_used (fun c => (config c).reservedFloor) c
    rw [desiredReservations, max_eq_left (hshare c), min_eq_left (this.trans hfit)]
    exact UInt16.ofNat_toNat
  rw [newReservations, hdesired, if_neg (not_lt.mpr hfit)]

variable {new : UInt16}

theorem drive_resize (hs : s.Steady)
    (hcap : s.pool.capacity.toNat ≤ new.toNat ∨ FloorsHold s.config s.pool.capacity new) :
    Drive s (.resize .loop new) (s.stepResize (.resize .loop new)) := by
  rw [stepResize]
  split
  · exact .silent hs rfl rfl id
  · rename_i hne
    split
    · exact .silent ⟨rfl, fun c hc => absurd (show c ∈ Class.all by cases c <;> decide) hc⟩ rfl rfl
        fun _ => trivial
    · rename_i hlt
      obtain ⟨hshare, hfit⟩ := hcap.resolve_left fun hle =>
        hne (UInt16.toNat_inj.mp (le_antisymm (not_lt.mp hlt) hle))
      refine .silent ⟨hs.trans ?_, rfl, not_lt.mp hlt⟩ rfl rfl id
      rw [newReservations_eq_floors (fun c => (hshare c).1) (hfit.trans (not_lt.mp hlt)),
        newReservations_eq_floors (fun c => (hshare c).2) hfit]

variable {reserved : Lanes}

theorem drive_growReserved (hnew : reserved = newReservations s.config new)
    (hdone : ∀ c ∉ left, s.pool.reserved c = reserved c) :
    Drive s (.growReserved .loop new reserved left)
      (s.stepResize (.growReserved .loop new reserved left)) := by
  rcases left with _ | ⟨cls, left⟩
  · refine .silent ?_ rfl rfl fun _ => trivial
    exact (funext fun c => hdone c not_mem_nil).trans hnew
  · refine .silent ⟨hnew, fun c hc => ?_⟩ rfl rfl fun _ => trivial
    show update s.pool.reserved cls (reserved cls) c = reserved c
    rw [update_apply]
    split
    · rename_i h
      rw [h]
    · rename_i h
      exact hdone c (not_mem_cons_of_ne_of_not_mem h hc)

theorem drive_shrinkCapacity (hr : s.pool.reserved = reserved)
    (hnew : newReservations s.config new = reserved) (hle : new.toNat ≤ s.pool.capacity.toNat) :
    Drive s (.shrinkCapacity .loop new reserved)
      (s.stepResize (.shrinkCapacity .loop new reserved)) := by
  refine .silent ⟨hr.trans hnew.symm, hr⟩ rfl rfl fun h c => ?_
  refine (h c).imp id fun hrefuses => ?_
  rw [refuses_iff] at hrefuses ⊢
  exact hle.trans hrefuses

theorem drive_shrinkReserved (hs : s.Steady) (hr : s.pool.reserved = reserved) :
    Drive s (.shrinkReserved .loop reserved left)
      (s.stepResize (.shrinkReserved .loop reserved left)) := by
  rcases left with _ | ⟨cls, left⟩
  · exact .silent hs rfl rfl id
  · have hset : s.setReserved cls reserved = s := by
      rw [setReserved, ← hr, update_eq_self]
    rw [stepResize, hset]
    exact .silent ⟨hs, hr⟩ rfl rfl id

/-- **The dispatcher forgets nobody.** -/
theorem drive_step (hq : Shape s q)
    (hcap : q = .idle → ∀ new, c.wake = .capacity new → s.pool.capacity.toNat ≤ new.toNat ∨
      FloorsHold s.config s.pool.capacity new) :
    Drive s q (s.step q c) := by
  unfold Shape at hq
  split at hq
  · exact drive_idle hq (hcap rfl)
  · exact ⟨hq, fun _ => .inl rfl⟩
  · exact .silent hq rfl rfl fun _ => trivial
  · exact drive_deliver (c := c) hq
  · exact .silent hq rfl rfl fun _ => trivial
  · exact drive_release hq
  · exact .begin hq
  · exact drive_scan (c := c) hq.1 hq.2
  · exact drive_look hq.1 hq.2
  · exact drive_take hq.1 hq.2
  · exact drive_send (c := c) hq.1 hq.2
  · exact drive_check (c := c) hq.1 hq.2
  · exact drive_giveBack hq.1 hq.2
  · exact drive_resize hq.1 hq.2
  · exact drive_growReserved hq.1 hq.2
  · exact ⟨hq, fun _ => .inr (.inl rfl)⟩
  · exact drive_shrinkCapacity hq.1 hq.2.1 hq.2.2
  · exact drive_shrinkReserved hq.1 hq.2
  · exact hq.elim

end Driving

/-! ## Whole runs -/

/-- The dispatcher, first among the processes, is where it can be; and somebody is about to look, or
it knows there is nothing to see. -/
def Attended (s : Sched) (ps : List Process) : Prop :=
  ∃ q rest, ps = q :: rest ∧ (∀ p ∈ rest, p.drives = false) ∧ Shape s q ∧
    (Awake s q ∨ ∃ p ∈ rest, p.announces = true)

theorem attended_new {config : Class → ClassConfig} {capacity : UInt16} {s₀ : Sched}
    (h₀ : new config capacity = some s₀) : Attended s₀ [.idle] := by
  rw [new] at h₀
  split at h₀
  · exact absurd h₀ nofun
  · rename_i hfit
    cases h₀
    refine ⟨.idle, [], rfl, nofun, ?_, .inl (.inr (.inr fun c => .inl nofun))⟩
    show desiredReservations config capacity = newReservations config capacity
    rw [newReservations, if_neg hfit]

theorem Attended.call {ps : List Process} (h : Attended s ps) {b : Call}
    (hb : served ⟨s, ps⟩ (.call b)) : Attended s (ps ++ [scheduler.start b]) := by
  obtain ⟨q, rest, rfl, hrest, hq, hawake⟩ := h
  refine ⟨q, rest ++ [scheduler.start b], rfl, forall_mem_append.mpr
    ⟨hrest, forall_mem_singleton.mpr ?_⟩, hq, hawake.imp_right ?_⟩
  · rcases b with _ | _ | _ | _ | _ <;> first | rfl | exact hb.elim
  · rintro ⟨p, hp, hann⟩
    exact ⟨p, mem_append_left _ hp, hann⟩

/-- A step of another process. -/
theorem Attended.outside {L R : List Process} {t : Sched × Process}
    (hrest : ∀ p' ∈ L ++ p :: R, p'.drives = false) (hq : Shape s q) (ht : Outside s p t)
    (h : Awake s q ∨ ∃ p' ∈ L ++ p :: R, p'.announces = true) :
    Attended t.1 (q :: (L ++ t.2 :: R)) := by
  refine ⟨q, L ++ t.2 :: R, rfl, ?_, hq.fixed ht.fixed, ?_⟩
  · obtain ⟨hL, hR⟩ := forall_mem_append.mp hrest
    exact forall_mem_append.mpr ⟨hL, forall_mem_cons.mpr ⟨ht.other, (forall_mem_cons.mp hR).2⟩⟩
  · rcases h with (hn | hann | hset) | ⟨p', hp', hann⟩
    · exact .inl (.inl (ht.notified (.inl hn)))
    · exact .inl (.inr (.inl hann))
    · rcases ht.ebbs with hn | hann | he
      · exact .inl (.inl hn)
      · exact .inr ⟨t.2, mem_append_right _ mem_cons_self, hann⟩
      · exact .inl (.inr (.inr (hset.ebb ht.fixed he)))
    · rcases mem_append.mp hp' with hp' | hp'
      · exact .inr ⟨p', mem_append_left _ hp', hann⟩
      · rcases mem_cons.mp hp' with rfl | hp'
        · exact .inl (.inl (ht.notified (.inr hann)))
        · exact .inr ⟨p', mem_append_right _ (mem_cons_of_mem _ hp'), hann⟩

theorem Attended.step {s : Sched} {L R : List Process} {i : Nat} {c : Choice}
    (hi : (L ++ p :: R)[i]? = some p) (hok : servedSteadily ⟨s, L ++ p :: R⟩ (.step i c))
    (h : Attended s (L ++ p :: R)) : Attended (s.step p c).1 (L ++ (s.step p c).2 :: R) := by
  obtain ⟨q, rest, hps, hrest, hq, hawake⟩ := h
  rcases L with _ | ⟨q', L⟩
  · cases hps
    have ht := drive_step hq fun hidle new hwake => hok.2 i c new rfl (hidle ▸ hi) hwake
    exact ⟨_, _, rfl, hrest, ht.shape, hawake.imp_left ht.awake⟩
  · cases hps
    exact Attended.outside hrest hq (outside_step (hrest p (by simp)) c) hawake

/-- **No stranded waiter**, where a capacity the dispatcher takes is no smaller than the current one
or leaves the reservations at the floors. -/
theorem no_stranded_waiter {config : Class → ClassConfig} {capacity : UInt16} {s₀ : Sched}
    (h₀ : Sched.new config capacity = some s₀) {n : Interleave.Net Sched Process}
    (h : Reaches scheduler.exec servedSteadily ⟨s₀, [.idle]⟩ n) : NoneStranded n := by
  have hatt : Attended n.shared n.procs :=
    Interleave.Program.invariant (attended_new h₀) (fun _ _ _ hok h => h.call hok.1)
      (fun _ _ _ _ _ _ hi hok h => h.step hi hok) h
  obtain ⟨q, rest, hps, hrest, -, hawake⟩ := hatt
  intro hidle hquiet cls hw
  obtain rfl : q = .idle := by
    rw [hps] at hidle
    rcases mem_cons.mp hidle with h | h
    · exact h.symm
    · exact absurd (hrest _ h) (by decide)
  have hcalm : ∀ c, n.shared.Calm c := by
    rcases hawake with (hn | hann | hset) | ⟨p, hp, hann⟩
    · exact absurd (.inl hn) hquiet
    · cases hann
    · exact hset
    · exact absurd (.inr ⟨p, hps ▸ mem_cons_of_mem _ hp, hann⟩) hquiet
  obtain ⟨w, hw, hlive⟩ := hw
  exact (hcalm cls).resolve_left fun hnone => hnone w hw hlive

/-- The refused request waits, and the dispatcher has looked. -/
def waitRun : List (Interleave.Act Choice Call) :=
  .call (.admission ⟨"a", .bulk⟩) :: (List.replicate 11 (.step 1 (going .notified)) ++
    List.replicate 24 (.step 0 (going .notified)))

theorem servedSteadily_waitRun : ∀ a ∈ waitRun, ∀ n, servedSteadily n a := by
  intro a ha n
  rcases mem_cons.mp ha with rfl | ha
  · exact ⟨trivial, nofun⟩
  · have hstep : ∃ i, a = .step i (going .notified) := by
      rcases mem_append.mp ha with ha | ha
      · exact ⟨1, eq_of_mem_replicate ha⟩
      · exact ⟨0, eq_of_mem_replicate ha⟩
    obtain ⟨i, rfl⟩ := hstep
    refine ⟨trivial, fun j c new heq _ hwake => ?_⟩
    cases heq
    exact absurd hwake nofun

theorem no_stranded_waiter_refused :
    (waitRun.foldl scheduler.exec ⟨fourSlots, [.idle]⟩).shared.pool.Refuses .bulk :=
  no_stranded_waiter (Option.some_get _).symm
    (reaches_foldl (allOk_of_forall servedSteadily_waitRun _))
    (idle_mem_of_any (by decide +kernel)) (by decide +kernel) .bulk
    ⟨⟨"a", .bulk⟩, by decide +kernel⟩

end Smg.Scheduler
