import Mathlib.Data.List.Perm.Basic
import Mathlib.Data.List.Nodup

/-!
# Slots, tickets and permits

A pool of slots counts, per class, how many are taken.  A request comes with a ticket; where it gets
a slot of its class it is registered and becomes a permit, which is the right to the slot until it
is unregistered and the slot given back.  On the way a ticket may lie in a queue, where a server
with a slot of its own picks it up, and a permit may lie in a channel to whoever asked for it.

A process has at any time at most one of these in hand (`Place`); what lies about is in the
`Ledger`. The moves are all the ways things change hands, and `Inv.move` is conservation in all
their interleavings: **the count of a class is the number of its slots in hands and in channels, and
what is registered are exactly the permits**.  It rests on every ticket existing once.
-/

set_option autoImplicit false

namespace Smg.Permits

open List Function

/-- A request with the class of its slot. -/
structure Permit (κ ι : Type) where
  id : ι
  cls : κ
deriving DecidableEq, Repr

/-- The counts and what lies about. -/
structure Ledger (κ ι : Type) where
  counts : κ → Nat
  registered : List (Permit κ ι)
  sent : List (Permit κ ι)
  queued : List ι

/-- What a process has in hand. -/
inductive Place (κ ι : Type)
  | nothing
  | ticket (id : ι)
  | bare (c : κ)
  /-- A slot for a request not yet registered. -/
  | slotted (p : Permit κ ι)
  | permit (p : Permit κ ι)

variable {κ ι : Type}

def Place.slot : Place κ ι → Option κ
  | .nothing | .ticket _ => none
  | .bare c => some c
  | .slotted p | .permit p => some p.cls

def Place.tickets : Place κ ι → List ι
  | .nothing | .bare _ => []
  | .ticket id => [id]
  | .slotted p | .permit p => [p.id]

def Place.permits : Place κ ι → List (Permit κ ι)
  | .permit p => [p]
  | _ => []

/-- The class of a slot in hand that is no permit's. -/
def Place.loose : Place κ ι → Option κ
  | .bare c => some c
  | .slotted p => some p.cls
  | _ => none

def tickets (b : Ledger κ ι) (ps : List (Place κ ι)) : List ι :=
  ps.flatMap Place.tickets ++ (b.queued ++ b.sent.map Permit.id)

section Moves

variable [DecidableEq κ]

/-- Conservation. -/
structure Inv (b : Ledger κ ι) (ps : List (Place κ ι)) : Prop where
  /-- Every slot taken is in a hand or in a channel. -/
  counts : ∀ c, b.counts c =
    ps.countP (fun p => p.slot = some c) + b.sent.countP (fun p => p.cls = c)
  /-- What is registered are the permits. -/
  registered : b.registered.Perm (ps.flatMap Place.permits ++ b.sent)
  nodup : (tickets b ps).Nodup

variable {b : Ledger κ ι}

theorem inv_empty (hc : ∀ c, b.counts c = 0) (hr : b.registered = []) (hs : b.sent = [])
    (hq : b.queued = []) : Inv b ([] : List (Place κ ι)) where
  counts c := by simp [hc, hs]
  registered := by simp [hr, hs]
  nodup := by simp [tickets, hs, hq]

variable {ps : List (Place κ ι)}

/-- A process with nothing in hand. -/
theorem Inv.nothing (h : Inv b ps) :
    Inv b (ps ++ [.nothing]) where
  counts c := by simpa [Place.slot] using h.counts c
  registered := by simpa [Place.permits] using h.registered
  nodup := by simpa [tickets, Place.tickets] using h.nodup

theorem Inv.issue (h : Inv b ps) {id : ι} (hid : id ∉ tickets b ps) :
    Inv b (ps ++ [.ticket id]) where
  counts c := by simpa [Place.slot] using h.counts c
  registered := by simpa [Place.permits] using h.registered
  nodup := by
    have hperm : (tickets b (ps ++ [.ticket id])).Perm (id :: tickets b ps) := by
      rw [tickets, flatMap_append, append_assoc]
      exact perm_middle
    exact hperm.nodup_iff.mpr (nodup_cons.mpr ⟨hid, h.nodup⟩)

theorem countP_slot (ps : List (Place κ ι)) (c : κ) :
    ps.countP (fun p => p.slot = some c) =
      (ps.flatMap Place.permits).countP (fun q => q.cls = c) +
        (ps.filterMap Place.loose).count c := by
  induction ps with
  | nil => rfl
  | cons p ps ih =>
    rw [countP_cons, ih, flatMap_cons, filterMap_cons]
    rcases p with _ | _ | _ | _ | _ <;>
      simp [Place.slot, Place.permits, Place.loose, count_cons, countP_cons] <;> omega

omit [DecidableEq κ] in
theorem ids_sublist_tickets (ps : List (Place κ ι)) :
    ((ps.flatMap Place.permits).map Permit.id).Sublist (ps.flatMap Place.tickets) := by
  induction ps with
  | nil => exact Sublist.slnil
  | cons p ps ih =>
    rw [flatMap_cons, map_append]
    refine Sublist.append ?_ ih
    rcases p with _ | _ | _ | _ | _ <;> simp [Place.permits, Place.tickets]

/-- No request has two permits. -/
theorem Inv.nodup_permits (h : Inv b ps) :
    ((ps.flatMap Place.permits ++ b.sent).map Permit.id).Nodup := by
  rw [map_append]
  exact h.nodup.sublist
    ((ids_sublist_tickets ps).append (sublist_append_right b.queued _))

theorem Inv.counts_pos {p : Place κ ι} (h : Inv b ps) (hp : p ∈ ps) {c : κ} (hs : p.slot = some c) :
    0 < b.counts c := by
  rw [h.counts c]
  have : 0 < ps.countP (fun p => p.slot = some c) :=
    countP_pos_iff.mpr ⟨p, hp, by simpa using hs⟩
  omega

variable [DecidableEq ι]

/-- What a process may do. -/
inductive Move : Ledger κ ι → Place κ ι → Ledger κ ι → Place κ ι → Prop
  | quiet (b : Ledger κ ι) (p : Place κ ι) : Move b p b p
  | acquire (b : Ledger κ ι) (r : Permit κ ι) :
    Move b (.ticket r.id) { b with counts := Function.update b.counts r.cls (b.counts r.cls + 1) }
      (.slotted r)
  | take (b : Ledger κ ι) (c : κ) :
    Move b .nothing { b with counts := Function.update b.counts c (b.counts c + 1) } (.bare c)
  | give {b : Ledger κ ι} {c : κ} {n : Nat} (h : b.counts c = n + 1) :
    Move b (.bare c) { b with counts := Function.update b.counts c n } .nothing
  /-- Register, in place of whatever was registered under that id. -/
  | register (b : Ledger κ ι) (r : Permit κ ι) :
    Move b (.slotted r) { b with registered := r :: b.registered.filter fun q => q.id ≠ r.id }
      (.permit r)
  /-- Unregister whatever is registered under the id. -/
  | unregister (b : Ledger κ ι) (r : Permit κ ι) :
    Move b (.permit r) { b with registered := b.registered.filter fun q => q.id ≠ r.id }
      (.bare r.cls)
  | enqueue {b : Ledger κ ι} {id : ι} {queued : List ι} (h : queued.Perm (id :: b.queued)) :
    Move b (.ticket id) { b with queued } .nothing
  | discard (b : Ledger κ ι) (id : ι) : Move b (.ticket id) b .nothing
  | sweep {b : Ledger κ ι} {gone queued : List ι} (h : b.queued.Perm (gone ++ queued)) :
    Move b .nothing { b with queued } .nothing
  /-- Put a queued ticket to a slot. -/
  | pop {b : Ledger κ ι} {r : Permit κ ι} {queued : List ι} (h : b.queued.Perm (r.id :: queued)) :
    Move b (.bare r.cls) { b with queued } (.slotted r)
  /-- Throw away the ticket put to a slot. -/
  | skip (b : Ledger κ ι) (r : Permit κ ι) : Move b (.slotted r) b (.bare r.cls)
  | send (b : Ledger κ ι) (r : Permit κ ι) :
    Move b (.permit r) { b with sent := r :: b.sent } .nothing
  | receive {b : Ledger κ ι} {r : Permit κ ι} (h : r ∈ b.sent) :
    Move b .nothing { b with sent := b.sent.erase r } (.permit r)

variable {b b' : Ledger κ ι} {L R : List (Place κ ι)} {p p' : Place κ ι}

omit [DecidableEq κ] [DecidableEq ι] in
/-- The tickets, with those of one process first. -/
theorem tickets_around (b : Ledger κ ι) :
    (tickets b (L ++ p :: R)).Perm (p.tickets ++ tickets b (L ++ R)) := by
  rw [tickets, tickets, flatMap_append, flatMap_cons, flatMap_append]
  simp only [append_assoc]
  exact perm_append_comm_assoc _ _ _

theorem Move.count_tickets (hm : Move b p b' p') (l : List (Place κ ι)) (x : ι) :
    (p'.tickets ++ tickets b' l).count x ≤ (p.tickets ++ tickets b l).count x := by
  rcases hm with _ | _ | _ | _ | _ | _ | h | _ | h | h | _ | _ | h <;>
    simp only [tickets, Place.tickets, count_append, count_cons, count_nil,
      map_cons] <;>
    try omega
  case enqueue => have := h.count_eq x; rw [count_cons] at this; omega
  case sweep => have := h.count_eq x; rw [count_append] at this; omega
  case pop => have := h.count_eq x; rw [count_cons] at this; omega
  case receive =>
    have := ((perm_cons_erase h).map Permit.id).count_eq x
    rw [map_cons, count_cons] at this
    omega

/-- A slot taken or given is one in hand; a slot sent or received one in a channel. -/
theorem Move.counts (hm : Move b p b' p') (c : κ) :
    b'.counts c + ((if p.slot = some c then 1 else 0) + b.sent.countP (fun q => q.cls = c)) =
      b.counts c + ((if p'.slot = some c then 1 else 0) + b'.sent.countP (fun q => q.cls = c)) := by
  rcases hm with _ | r | c' | h | _ | _ | h | _ | h | h | _ | _ | h <;>
    simp only [Place.slot, Option.some.injEq, reduceCtorEq, if_false, countP_cons,
      decide_eq_true_eq] <;>
    try omega
  case acquire | take | give =>
    simp only [update_apply, @eq_comm _ c]
    split
    next hc => subst hc; omega
    next => rfl
  case receive =>
    have := (perm_cons_erase h).countP_eq (fun q => decide (q.cls = c))
    rw [countP_cons] at this
    simp only [decide_eq_true_eq] at this
    omega

/-- Where the tickets of `p` are like no other, registering and unregistering leave alone what
others have registered. -/
theorem Move.registered (hm : Move b p b' p') {l : List (Permit κ ι)}
    (hr : b.registered.Perm (p.permits ++ (l ++ b.sent)))
    (hid : ∀ id ∈ p.tickets, ∀ q ∈ l ++ b.sent, q.id ≠ id) :
    b'.registered.Perm (p'.permits ++ (l ++ b'.sent)) := by
  have hkeep : ∀ r : Permit κ ι, p.tickets = [r.id] →
      (l ++ b.sent).filter (fun q => q.id ≠ r.id) = l ++ b.sent := by
    intro r hp
    rw [filter_eq_self]
    intro q hq
    simpa using hid r.id (by rw [hp]; exact mem_singleton_self _) q hq
  rcases hm with _ | _ | _ | _ | r | r | h | _ | h | h | _ | r | h
  case register =>
    have := hr.filter (fun q => q.id ≠ r.id)
    rw [show (Place.slotted r).permits = [] from rfl, nil_append, hkeep r rfl] at this
    exact this.cons r
  case unregister =>
    have := hr.filter (fun q => q.id ≠ r.id)
    rw [Place.permits, singleton_append, filter_cons_of_neg (by simp), hkeep r rfl] at this
    exact this
  case send => exact hr.trans (@perm_middle _ r l b.sent).symm
  case receive =>
    refine hr.trans ?_
    exact ((perm_cons_erase h).append_left l).trans perm_middle
  all_goals exact hr

omit [DecidableEq κ] [DecidableEq ι] in
theorem permit_mem_tickets {q : Permit κ ι} (hq : q ∈ ps.flatMap Place.permits ++ b.sent) :
    q.id ∈ tickets b ps := by
  rcases mem_append.mp hq with hq | hq
  · obtain ⟨p, hp, hq⟩ := mem_flatMap.mp hq
    refine mem_append_left _ (mem_flatMap.mpr ⟨p, hp, ?_⟩)
    rcases p with _ | _ | _ | _ | p <;> simp_all [Place.permits, Place.tickets]
  · exact mem_append_right _ (mem_append_right _ (mem_map_of_mem hq))

omit [DecidableEq κ] [DecidableEq ι] in
theorem permits_around (b : Ledger κ ι) :
    ((L ++ p :: R).flatMap Place.permits ++ b.sent).Perm
      (p.permits ++ ((L ++ R).flatMap Place.permits ++ b.sent)) := by
  rw [flatMap_append, flatMap_cons, flatMap_append]
  simp only [append_assoc]
  exact perm_append_comm_assoc _ _ _

/-- **Conservation in every interleaving.** -/
theorem Inv.move (h : Inv b (L ++ p :: R)) (hm : Move b p b' p') : Inv b' (L ++ p' :: R) where
  counts c := by
    have hc := h.counts c
    have hm := hm.counts c
    simp only [countP_append, countP_cons, decide_eq_true_eq] at hc hm ⊢
    omega
  registered := by
    refine (hm.registered (h.registered.trans (permits_around b)) ?_).trans (permits_around b').symm
    intro id hid q hq heq
    have hnd := (tickets_around b).nodup_iff.mp h.nodup
    exact disjoint_of_nodup_append hnd hid (heq ▸ permit_mem_tickets hq)
  nodup := by
    refine (tickets_around b').nodup_iff.mpr (nodup_iff_count_le_one.mpr fun x => ?_)
    refine Nat.le_trans (hm.count_tickets (L ++ R) x) ?_
    exact nodup_iff_count_le_one.mp ((tickets_around b).nodup_iff.mp h.nodup) x

theorem Move.mem_tickets (hm : Move b p b' p') {x : ι} (hx : x ∈ tickets b' (L ++ p' :: R)) :
    x ∈ tickets b (L ++ p :: R) := by
  rw [(tickets_around _).mem_iff, ← count_pos_iff] at hx ⊢
  exact Nat.lt_of_lt_of_le hx (hm.count_tickets (L ++ R) x)

end Moves

end Smg.Permits
