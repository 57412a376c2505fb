import Mathlib.Data.UInt
import Mathlib.Tactic.IntervalCases

/-!
# Packed slot accounting

The in-flight counts of the four classes are packed into one word, so that an admission can check
and claim with a single exchange.  An acquire is a loop: load the word, read the capacity and the
four reservations, and exchange the word for one with the class's lane raised if the class has
headroom; a failed exchange starts over from the word it saw.

`Acquire` and `Release` are the loops' positions between two atomic accesses; `stepAcquire` and
`stepRelease` are one access each.
-/

set_option autoImplicit false

namespace Smg.Scheduler

/-- Service class, in ascending priority. -/
inductive Class
  | bulk
  | default
  | interactive
  | system
deriving DecidableEq, Repr

def Class.rank : Class → Nat
  | .bulk => 0
  | .default => 1
  | .interactive => 2
  | .system => 3

def Class.all : List Class := [.bulk, .default, .interactive, .system]

abbrev Lanes := Class → UInt16

def unpack (packed : UInt64) : Lanes
  | .bulk => (packed &&& 0xFFFF).toUInt16
  | .default => ((packed >>> 16) &&& 0xFFFF).toUInt16
  | .interactive => ((packed >>> 32) &&& 0xFFFF).toUInt16
  | .system => ((packed >>> 48) &&& 0xFFFF).toUInt16

def pack (counts : Lanes) : UInt64 :=
  (counts .bulk).toUInt64 ||| ((counts .default).toUInt64 <<< 16) |||
    ((counts .interactive).toUInt64 <<< 32) ||| ((counts .system).toUInt64 <<< 48)

/-- `saturating_add` on 16 bits. -/
def satAdd (a b : UInt16) : UInt16 := if a.toNat + b.toNat < 2 ^ 16 then a + b else 0xFFFF

/-- `saturating_sub` on 16 bits. -/
def satSub (a b : UInt16) : UInt16 := if b.toNat ≤ a.toNat then a - b else 0

def usedTotal (counts : Lanes) : UInt16 := (Class.all.map counts).foldl satAdd 0

/-- How many slots a `cls` admission may consume: higher classes hold what they have reserved and
not used. -/
def slotsAvailableTo (counts reserved : Lanes) (capacity : UInt16) (cls : Class) : UInt16 :=
  let unavailable := ((Class.all.filter fun c => cls.rank < c.rank).map fun c =>
    satSub (reserved c) (counts c)).foldl satAdd 0
  satSub (satSub capacity (usedTotal counts)) unavailable

structure SlotPool where
  capacity : UInt16
  /-- The in-flight counts, packed. -/
  inflightPacked : UInt64
  /-- What each class has reserved. -/
  reserved : Lanes

def SlotPool.new (capacity : UInt16) (reserved : Lanes) : SlotPool :=
  { capacity, inflightPacked := 0, reserved }

def SlotPool.inflight (p : SlotPool) : Lanes := unpack p.inflightPacked

def raise (counts : Lanes) (cls : Class) : Lanes :=
  Function.update counts cls (satAdd (counts cls) 1)

def lower (counts : Lanes) (cls : Class) : Lanes :=
  Function.update counts cls (counts cls - 1)

/-! ## Acquiring -/

/-- Where an acquire is. -/
inductive Acquire
  | load
  | capacity (cur : UInt64)
  /-- Before reading the reservations of the classes left, with those read so far. -/
  | reserved (cur : UInt64) (capacity : UInt16) (seen : Lanes) (left : List Class)
  | swap (cur : UInt64) (capacity : UInt16) (seen : Lanes)

/-- `try_acquire` decides on what it has read: with headroom it goes on to the exchange. -/
def decideGuarded (cls : Class) (cur : UInt64) (capacity : UInt16) (seen : Lanes) :
    Sum Acquire Bool :=
  if slotsAvailableTo (unpack cur) seen capacity cls = 0 then .inr false
  else .inl (.swap cur capacity seen)

/-- `try_acquire_ignoring_reservations` decides on the capacity alone. -/
def decideUnguarded (cur : UInt64) (capacity : UInt16) : Sum Acquire Bool :=
  if (usedTotal (unpack cur)).toNat ≥ capacity.toNat then .inr false
  else .inl (.swap cur capacity fun _ => 0)

/-- One access of an acquire, guarded by the reservations or not: the position after it, or the
answer.  `spurious` is a weak exchange that fails for no reason. -/
def stepAcquire (p : SlotPool) (cls : Class) (guarded spurious : Bool) :
    Acquire → SlotPool × Sum Acquire Bool
  | .load => (p, .inl (.capacity p.inflightPacked))
  | .capacity cur =>
    (p, if guarded then .inl (.reserved cur p.capacity (fun _ => 0) Class.all)
      else decideUnguarded cur p.capacity)
  | .reserved cur capacity seen left =>
    match left with
    | [] => (p, decideGuarded cls cur capacity seen)
    | c :: left =>
      (p, .inl (.reserved cur capacity (Function.update seen c (p.reserved c)) left))
  | .swap cur _ _ =>
    if p.inflightPacked = cur ∧ spurious = false then
      ({ p with inflightPacked := pack (raise (unpack cur) cls) }, .inr true)
    else
      (p, .inl (.capacity p.inflightPacked))

/-! ## Releasing -/

/-- Where a release is. -/
inductive Release
  | load
  | swap (cur : UInt64)
deriving DecidableEq

/-- One access of a release; `none` when it is over. -/
def stepRelease (p : SlotPool) (cls : Class) (spurious : Bool) : Release → SlotPool × Option Release
  | .load =>
    (p, if unpack p.inflightPacked cls = 0 then none else some (.swap p.inflightPacked))
  | .swap cur =>
    if p.inflightPacked = cur ∧ spurious = false then
      ({ p with inflightPacked := pack (lower (unpack cur) cls) }, none)
    else
      (p, if unpack p.inflightPacked cls = 0 then none else some (.swap p.inflightPacked))

/-! ## The packed word -/

/-- **Lanes do not interfere.** -/
@[simp] theorem unpack_pack (counts : Lanes) : unpack (pack counts) = counts := by
  funext c
  rcases c with _ | _ | _ | _
  all_goals
    refine UInt16.toBitVec_inj.mp (BitVec.eq_of_getLsbD_eq fun i hi => ?_)
    simp only [unpack, pack]
    interval_cases i <;> simp

@[simp] theorem unpack_zero (cls : Class) : unpack 0 cls = 0 := by
  cases cls <;> rfl

/-! ## Headroom -/

theorem toNat_satAdd (a b : UInt16) : (satAdd a b).toNat = min (a.toNat + b.toNat) 65535 := by
  rw [satAdd]
  split
  · rename_i h
    rw [UInt16.toNat_add, Nat.mod_eq_of_lt h]
    omega
  · rw [show (65535 : UInt16).toNat = 65535 from rfl]
    omega

theorem toNat_satSub (a b : UInt16) : (satSub a b).toNat = a.toNat - b.toNat := by
  rw [satSub]
  split
  · rename_i h
    exact UInt16.toNat_sub_of_le _ _ (UInt16.le_iff_toNat_le.mpr h)
  · rw [show (0 : UInt16).toNat = 0 from rfl]
    omega

theorem toNat_foldl_satAdd (l : List UInt16) (a : UInt16) :
    (l.foldl satAdd a).toNat = min (a.toNat + (l.map UInt16.toNat).sum) 65535 := by
  induction l generalizing a with
  | nil =>
    have := a.toNat_lt
    simp
    omega
  | cons b l ih =>
    rw [List.foldl_cons, ih, toNat_satAdd, List.map_cons, List.sum_cons]
    omega

def used (counts : Lanes) : Nat := (Class.all.map fun c => (counts c).toNat).sum

/-- What the classes above `cls` have reserved and not used. -/
def unused (counts reserved : Lanes) (cls : Class) : Nat :=
  ((Class.all.filter fun c => cls.rank < c.rank).map fun c =>
    (reserved c).toNat - (counts c).toNat).sum

theorem toNat_usedTotal (counts : Lanes) : (usedTotal counts).toNat = min (used counts) 65535 := by
  rw [usedTotal, toNat_foldl_satAdd, show (0 : UInt16).toNat = 0 from rfl,
    zero_add]
  rfl

/-- **Saturation never matters**: past the largest capacity there is no headroom either way. -/
theorem toNat_slotsAvailableTo (counts reserved : Lanes) (capacity : UInt16) (cls : Class) :
    (slotsAvailableTo counts reserved capacity cls).toNat =
      capacity.toNat - used counts - unused counts reserved cls := by
  have hcap := capacity.toNat_lt
  rw [slotsAvailableTo, toNat_satSub, toNat_satSub, toNat_usedTotal, toNat_foldl_satAdd,
    List.map_map, unused]
  simp only [Function.comp_def, toNat_satSub]
  rw [show (0 : UInt16).toNat = 0 from rfl]
  omega

variable {counts : Lanes} {cls : Class}

theorem slotsAvailableTo_eq_zero {reserved : Lanes} {capacity : UInt16} :
    slotsAvailableTo counts reserved capacity cls = 0 ↔
      capacity.toNat ≤ used counts + unused counts reserved cls := by
  rw [← UInt16.toNat_inj, toNat_slotsAvailableTo, show (0 : UInt16).toNat = 0 from rfl]
  omega

theorem used_eq (counts : Lanes) :
    used counts = (counts .bulk).toNat + (counts .default).toNat + (counts .interactive).toNat +
      (counts .system).toNat := by
  simp only [used, Class.all, List.map_cons, List.map_nil, List.sum_cons, List.sum_nil]
  omega

theorem unused_eq (counts reserved : Lanes) (cls : Class) :
    unused counts reserved cls =
      (if cls.rank < 1 then (reserved .default).toNat - (counts .default).toNat else 0) +
        (if cls.rank < 2 then (reserved .interactive).toNat - (counts .interactive).toNat else 0) +
        (if cls.rank < 3 then (reserved .system).toNat - (counts .system).toNat else 0) := by
  cases cls <;> simp [unused, Class.all, Class.rank, add_assoc]

theorem unused_mono (counts reserved : Lanes) {c d : Class} (h : c.rank ≤ d.rank) :
    unused counts reserved d ≤ unused counts reserved c := by
  rw [unused_eq, unused_eq]
  repeat' split
  all_goals omega

/-- **More in flight never leaves more headroom**: a slot taken by a class within its reservation
was not free to the classes below. -/
theorem headroom_anti {counts' : Lanes} (h : ∀ c, (counts c).toNat ≤ (counts' c).toNat)
    (reserved : Lanes) (cls : Class) :
    used counts + unused counts reserved cls ≤ used counts' + unused counts' reserved cls := by
  have h0 := h .bulk
  have h1 := h .default
  have h2 := h .interactive
  have h3 := h .system
  rw [used_eq, used_eq, unused_eq, unused_eq]
  repeat' split
  all_goals omega

/-! ## What an exchange does to the counts -/

theorem toNat_le_used (counts : Lanes) (cls : Class) : (counts cls).toNat ≤ used counts := by
  rw [used_eq]
  cases cls <;> omega

theorem toNat_raise (h : (counts cls).toNat < 65535) (c : Class) :
    (raise counts cls c).toNat = (counts c).toNat + if c = cls then 1 else 0 := by
  rw [raise]
  by_cases hc : c = cls
  · rw [hc, Function.update_self, toNat_satAdd, if_pos rfl]
    rw [show (1 : UInt16).toNat = 1 from rfl]
    omega
  · rw [Function.update_of_ne hc, if_neg hc, add_zero]

theorem toNat_lower (h : counts cls ≠ 0) (c : Class) :
    (lower counts cls c).toNat + (if c = cls then 1 else 0) = (counts c).toNat := by
  have hpos : 1 ≤ (counts cls).toNat := by
    refine Nat.one_le_iff_ne_zero.mpr fun h0 => h (UInt16.toNat_inj.mp ?_)
    rw [h0]
    rfl
  rw [lower]
  by_cases hc : c = cls
  · rw [hc, Function.update_self, if_pos rfl, UInt16.toNat_sub_of_le (counts cls) 1
      (UInt16.le_iff_toNat_le.mpr hpos)]
    rw [show (1 : UInt16).toNat = 1 from rfl]
    omega
  · rw [Function.update_of_ne hc, if_neg hc, add_zero]

theorem used_raise (h : (counts cls).toNat < 65535) :
    used (raise counts cls) = used counts + 1 := by
  have hr := toNat_raise h
  rw [used_eq, used_eq, hr, hr, hr, hr]
  cases cls <;> simp <;> omega

theorem unused_raise (counts reserved : Lanes) (cls : Class) :
    unused (raise counts cls) reserved cls = unused counts reserved cls := by
  rw [unused_eq, unused_eq, raise]
  cases cls <;> simp [Class.rank]

/-- What an acquire that has come to its exchange knows. -/
def Acquire.Ready (cls : Class) (guarded : Bool) : Acquire → Prop
  | .swap cur cap seen =>
    used (unpack cur) < cap.toNat ∧
      (guarded = true → used (unpack cur) + unused (unpack cur) seen cls < cap.toNat)
  | _ => True

def SlotPool.take (p : SlotPool) (cls : Class) : SlotPool :=
  { p with inflightPacked := pack (raise p.inflight cls) }

def SlotPool.give (p : SlotPool) (cls : Class) : SlotPool :=
  { p with inflightPacked := pack (lower p.inflight cls) }

variable (p : SlotPool)

@[simp] theorem inflight_take (cls : Class) :
    (p.take cls).inflight = raise p.inflight cls := unpack_pack _

@[simp] theorem inflight_give (cls : Class) :
    (p.give cls).inflight = lower p.inflight cls := unpack_pack _

theorem decideGuarded_cases (cls : Class) (cur : UInt64) (cap : UInt16) (seen : Lanes) :
    (decideGuarded cls cur cap seen = .inr false ∧
        cap.toNat ≤ used (unpack cur) + unused (unpack cur) seen cls) ∨
      decideGuarded cls cur cap seen = .inl (.swap cur cap seen) ∧
        used (unpack cur) + unused (unpack cur) seen cls < cap.toNat := by
  rw [decideGuarded]
  split
  · rename_i h
    exact .inl ⟨rfl, slotsAvailableTo_eq_zero.mp h⟩
  · rename_i h
    exact .inr ⟨rfl, not_le.mp (mt slotsAvailableTo_eq_zero.mpr h)⟩

theorem decideUnguarded_cases (cls : Class) (cur : UInt64) (cap : UInt16) :
    decideUnguarded cur cap = .inr false ∨
      ∃ a, decideUnguarded cur cap = .inl a ∧ a.Ready cls false := by
  have hcap := cap.toNat_lt
  rw [decideUnguarded]
  split
  · exact .inl rfl
  · rename_i h
    rw [toNat_usedTotal] at h
    exact .inr ⟨_, rfl, by omega, nofun⟩

/-- **One access of an acquire.**  It goes on, or is refused, without a trace in the pool; or it
succeeds: then its lane rises by one, the total is at most the capacity it read and, if it is
guarded, the higher classes are left what they have reserved and not used. -/
theorem stepAcquire_cases (cls : Class) {guarded : Bool} (spurious : Bool) {a : Acquire}
    (ha : a.Ready cls guarded) :
    (∃ a', stepAcquire p cls guarded spurious a = (p, .inl a') ∧ a'.Ready cls guarded) ∨
      stepAcquire p cls guarded spurious a = (p, .inr false) ∨
      ∃ cur cap seen, a = .swap cur cap seen ∧ p.inflightPacked = cur ∧
        stepAcquire p cls guarded spurious a = (p.take cls, .inr true) ∧
        (p.inflight cls).toNat < 65535 ∧ used (p.take cls).inflight ≤ cap.toNat ∧
        (guarded = true →
          used (p.take cls).inflight + unused (p.take cls).inflight seen cls ≤ cap.toNat) := by
  rcases a with _ | cur | ⟨cur, cap, seen, left⟩ | ⟨cur, cap, seen⟩
  · exact .inl ⟨_, rfl, trivial⟩
  · rw [stepAcquire]
    cases guarded with
    | true => exact .inl ⟨_, rfl, trivial⟩
    | false =>
      rcases decideUnguarded_cases cls cur p.capacity with h | ⟨a', h, ha'⟩
      · exact .inr (.inl (by rw [if_neg (by simp), h]))
      · exact .inl ⟨a', by rw [if_neg (by simp), h], ha'⟩
  · rcases left with _ | ⟨c, left⟩
    · rw [stepAcquire]
      rcases decideGuarded_cases cls cur cap seen with ⟨h, -⟩ | ⟨h, hlt⟩
      · exact .inr (.inl (by rw [h]))
      · exact .inl ⟨.swap cur cap seen, by rw [h], by omega, fun _ => hlt⟩
    · exact .inl ⟨_, rfl, trivial⟩
  · rw [stepAcquire]
    split
    · rename_i h
      obtain ⟨hcur, -⟩ := h
      have hcounts : p.inflight = unpack cur := congrArg unpack hcur
      obtain ⟨hused, hguard⟩ := ha
      rw [← hcounts] at hused hguard
      have hlane : (p.inflight cls).toNat < 65535 := by
        have := toNat_le_used p.inflight cls
        have := cap.toNat_lt
        omega
      refine .inr (.inr ⟨cur, cap, seen, rfl, hcur, ?_, hlane, ?_, fun hg => ?_⟩)
      · rw [SlotPool.take, hcounts]
      · rw [inflight_take, used_raise hlane]
        omega
      · have := hguard hg
        rw [inflight_take, used_raise hlane, unused_raise]
        omega
    · exact .inl ⟨_, rfl, trivial⟩

/-- Whatever an acquire does, the pool is left as it was or has one slot less. -/
theorem stepAcquire_pool (cls : Class) (guarded spurious : Bool) (a : Acquire) :
    (stepAcquire p cls guarded spurious a).1 = p ∨
      (stepAcquire p cls guarded spurious a).1 = p.take cls := by
  rcases a with _ | cur | ⟨cur, cap, seen, _ | ⟨c, left⟩⟩ | ⟨cur, cap, seen⟩
  · exact .inl rfl
  · exact .inl rfl
  · exact .inl rfl
  · exact .inl rfl
  · rw [stepAcquire]
    split
    · rename_i h
      right
      rw [SlotPool.take, show p.inflight = unpack cur from congrArg unpack h.1]
    · exact .inl rfl

/-- What a release that has come to its exchange knows. -/
def Release.Ready (cls : Class) : Release → Prop
  | .swap cur => unpack cur cls ≠ 0
  | .load => True

/-- **One access of a release** of a slot that is counted: it goes on without a trace, or gives the
slot back. -/
theorem stepRelease_cases {p : SlotPool} (hp : p.inflight cls ≠ 0) (spurious : Bool) {r : Release}
    (hr : r.Ready cls) :
    (∃ r', stepRelease p cls spurious r = (p, some r') ∧ r'.Ready cls) ∨
      stepRelease p cls spurious r = (p.give cls, none) := by
  have hload : (if unpack p.inflightPacked cls = 0 then none else some (.swap p.inflightPacked)) =
      some (Release.swap p.inflightPacked) := if_neg hp
  rcases r with _ | cur
  · exact .inl ⟨.swap p.inflightPacked, by rw [stepRelease, hload], hp⟩
  · rw [stepRelease]
    split
    · rename_i h
      right
      rw [SlotPool.give, show p.inflight = unpack cur from congrArg unpack h.1]
    · exact .inl ⟨.swap p.inflightPacked, by rw [hload], hp⟩

/-- Whatever a release does, the capacity and the reservations stay, and so does the pool until it
is over. -/
theorem stepRelease_pool (cls : Class) (spurious : Bool) (r : Release) :
    (stepRelease p cls spurious r).1.capacity = p.capacity ∧
      (stepRelease p cls spurious r).1.reserved = p.reserved ∧
      ((stepRelease p cls spurious r).1 = p ∨ (stepRelease p cls spurious r).2 = none) := by
  rcases r with _ | cur
  · exact ⟨rfl, rfl, .inl rfl⟩
  · rw [stepRelease]
    split
    · exact ⟨rfl, rfl, .inr rfl⟩
    · exact ⟨rfl, rfl, .inl rfl⟩

end Smg.Scheduler
