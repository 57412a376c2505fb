import Mathlib.Data.List.Count

/-!
# Mailboxes served one at a time

Many producers put events into mailboxes; many servers apply them.  The events of one mailbox must
be applied in order, so a mailbox is served by one server at a time, and a small word beside it says
where it is: `idle` (nobody has it), `ready` (it is on a list from which a server will take it) or
`running` (a server has it).

What the processes do to a mailbox `k` is a handful of moves.  A process is `free` of it, or

* `watch`es it: it has put an event in, or has just let go of the mailbox, and must still look
  whether the mailbox needs listing;
* `carry`s its token: it has made it ready and must still list it, or has taken it off a list and
  must still claim it;
* `run`s it, possibly with an event `hand`ed out and not yet applied.

`Inv.move` is the invariant of all interleavings of these moves: one token per ready mailbox, one
server per running one, no event lost, repeated or overtaken, and a non-empty mailbox that is idle
is being watched.
-/

set_option autoImplicit false

namespace Smg.Mailbox

open Function
open Function (update)

/-- Where a mailbox is. -/
inductive Phase
  | idle
  | ready
  | running
deriving DecidableEq, Repr

/-- The mailboxes, with what was put into each and what was applied. -/
structure Board (κ E : Type) where
  phase : κ → Phase
  queue : κ → List E
  listed : κ → Nat
  accepted : κ → List E
  applied : κ → List E

/-- What a process has to do with mailboxes. -/
inductive Role (κ E : Type)
  | free
  | watch (k : κ)
  | carry (k : κ)
  | run (k : κ)
  | hand (k : κ) (e : E)
deriving DecidableEq, Repr

variable {κ E : Type} [DecidableEq κ]

/-- Does the process carry the token of `k`? -/
def Role.carries (k : κ) : Role κ E → Bool
  | .carry k' => k' = k
  | _ => false

/-- Does the process serve `k`? -/
def Role.serves (k : κ) : Role κ E → Bool
  | .run k' => k' = k
  | .hand k' _ => k' = k
  | _ => false

/-- Does the process watch `k`? -/
def Role.watches (k : κ) : Role κ E → Bool
  | .watch k' => k' = k
  | _ => false

/-- The events of `k` the process has taken out and not applied. -/
def Role.inHand (k : κ) : Role κ E → List E
  | .hand k' e => if k' = k then [e] else []
  | _ => []

/-- What a process may do to the mailbox `k`. -/
inductive Move (k : κ) : Board κ E → Role κ E → Board κ E → Role κ E → Prop
  | quiet (b : Board κ E) (r : Role κ E) : Move k b r b r
  | accept (b : Board κ E) (e : E) :
    Move k b .free
      { b with
        queue := update b.queue k (b.queue k ++ [e])
        accepted := update b.accepted k (b.accepted k ++ [e]) } (.watch k)
  | win {b : Board κ E} (h : b.phase k = .idle) :
    Move k b (.watch k) { b with phase := update b.phase k .ready } (.carry k)
  /-- Leave a mailbox that is not idle to whoever has it. -/
  | yield {b : Board κ E} (h : b.phase k ≠ .idle) : Move k b (.watch k) b .free
  | calm {b : Board κ E} (h : b.queue k = []) : Move k b (.watch k) b .free
  | list (b : Board κ E) :
    Move k b (.carry k) { b with listed := update b.listed k (b.listed k + 1) } .free
  | take {b : Board κ E} {n : Nat} (h : b.listed k = n + 1) :
    Move k b .free { b with listed := update b.listed k n } (.carry k)
  /-- Claim a mailbox, whose word says ready unless something went wrong. -/
  | claim (b : Board κ E) :
    Move k b (.carry k)
      { b with
        phase := update b.phase k (if b.phase k = .ready then .running else b.phase k) }
      (.run k)
  | pop {b : Board κ E} {e : E} {rest : List E} (h : b.queue k = e :: rest) :
    Move k b (.run k) { b with queue := update b.queue k rest } (.hand k e)
  | apply (b : Board κ E) (e : E) :
    Move k b (.hand k e) { b with applied := update b.applied k (b.applied k ++ [e]) }
      (.run k)
  | release (b : Board κ E) :
    Move k b (.run k) { b with phase := update b.phase k .idle } (.watch k)

/-- What holds of one mailbox in all interleavings. -/
@[mk_iff]
structure Fits (b : Board κ E) (rs : List (Role κ E)) (k : κ) : Prop where
  /-- A ready mailbox is on one list, or carried by one process. -/
  tokens : b.listed k + rs.countP (Role.carries k) = if b.phase k = .ready then 1 else 0
  /-- A running mailbox has one server. -/
  servers : rs.countP (Role.serves k) = if b.phase k = .running then 1 else 0
  /-- An idle mailbox with events is watched. -/
  noticed : b.queue k ≠ [] → b.phase k = .idle → 0 < rs.countP (Role.watches k)
  /-- Every event is applied, taken out or waiting, in the order it was put in. -/
  delivered : b.applied k ++ rs.flatMap (Role.inHand k) ++ b.queue k = b.accepted k

def Inv (b : Board κ E) (rs : List (Role κ E)) : Prop := ∀ k, Fits b rs k

/-- Before anything was put in. -/
theorem inv_empty {b : Board κ E} (hphase : ∀ k, b.phase k = .idle) (hqueue : ∀ k, b.queue k = [])
    (hlisted : ∀ k, b.listed k = 0) (haccepted : ∀ k, b.accepted k = [])
    (happlied : ∀ k, b.applied k = []) : Inv b [] := fun k =>
  { tokens := by simp [hphase k, hlisted k]
    servers := by simp [hphase k]
    noticed := fun h => absurd (hqueue k) h
    delivered := by simp [hqueue k, haccepted k, happlied k] }

open Role

theorem Inv.free {b : Board κ E} {rs : List (Role κ E)} (h : Inv b rs) : Inv b (rs ++ [.free]) :=
  fun k =>
  { tokens := by simpa [carries] using (h k).tokens
    servers := by simpa [serves] using (h k).servers
    noticed := fun hq hp => by simpa [watches] using (h k).noticed hq hp
    delivered := by simpa [inHand] using (h k).delivered }

theorem inHand_eq_nil {k : κ} {rs : List (Role κ E)} (h : rs.countP (serves k) = 0) :
    rs.flatMap (inHand k) = [] := by
  rw [List.flatMap_eq_nil_iff]
  intro r hr
  have hns := List.countP_eq_zero.mp h r hr
  rcases r with _ | _ | _ | _ | ⟨k', e⟩
  all_goals try rfl
  rw [inHand]
  simpa [serves] using hns

section Move

variable {b b' : Board κ E} {L R : List (Role κ E)} {r r' : Role κ E} {k : κ}

omit [DecidableEq κ] in
theorem countP_around (f : Role κ E → Bool) :
    (L ++ r :: R).countP f = L.countP f + R.countP f + (f r).toNat := by
  rw [List.countP_append, List.countP_cons]
  cases f r <;> rfl

omit [DecidableEq κ] in
theorem flatMap_around (f : Role κ E → List E) :
    (L ++ r :: R).flatMap f = L.flatMap f ++ (f r ++ R.flatMap f) := by
  rw [List.flatMap_append, List.flatMap_cons]

theorem Fits.alone (h : Fits b (L ++ r :: R) k) (hr : r.serves k = true) :
    b.phase k = .running ∧ L.countP (serves k) = 0 ∧ R.countP (serves k) = 0 := by
  have hs := h.servers
  rw [countP_around, hr, Bool.toNat_true] at hs
  split at hs
  · exact ⟨by assumption, by omega, by omega⟩
  · omega

theorem Fits.only (h : Fits b (L ++ r :: R) k) (hr : r.carries k = true) :
    b.phase k = .ready ∧ b.listed k = 0 ∧ L.countP (carries k) = 0 ∧
      R.countP (carries k) = 0 := by
  have hs := h.tokens
  rw [countP_around, hr, Bool.toNat_true] at hs
  split at hs
  · exact ⟨by assumption, by omega, by omega, by omega⟩
  · omega

/-- Two processes have as much to do with a mailbox. -/
structure Role.SameAt (j : κ) (r r' : Role κ E) : Prop where
  carries : r'.carries j = r.carries j
  serves : r'.serves j = r.serves j
  watches : r'.watches j = r.watches j
  inHand : r'.inHand j = r.inHand j

/-- Two boards say the same of a mailbox. -/
structure Board.SameAt (j : κ) (b b' : Board κ E) : Prop where
  phase : b'.phase j = b.phase j
  queue : b'.queue j = b.queue j
  listed : b'.listed j = b.listed j
  accepted : b'.accepted j = b.accepted j
  applied : b'.applied j = b.applied j

/-- What holds of a mailbox is kept by a step that does not concern it. -/
theorem Fits.frame (h : Fits b (L ++ r :: R) k) (hb : b.SameAt k b') (hr : r.SameAt k r') :
    Fits b' (L ++ r' :: R) k := by
  rw [fits_iff, countP_around, countP_around, countP_around, flatMap_around] at h ⊢
  rw [hb.listed, hb.phase, hb.queue, hb.applied, hb.accepted, hr.carries, hr.serves, hr.watches,
    hr.inHand]
  exact h

theorem Move.frame (hm : Move k b r b' r') {j : κ} (hj : j ≠ k) :
    b.SameAt j b' ∧ r.SameAt j r' := by
  cases hm
  all_goals
    refine ⟨⟨?_, ?_, ?_, ?_, ?_⟩, ⟨?_, ?_, ?_, ?_⟩⟩
    all_goals
      first
      | rfl
      | exact update_of_ne hj _ _
      | simp only [carries, serves, watches, inHand, Ne.symm hj, decide_false,
          if_false]

theorem Fits.move (h : Fits b (L ++ r :: R) k) (hm : Move k b r b' r') :
    Fits b' (L ++ r' :: R) k := by
  have hfits := h
  rw [fits_iff, countP_around, countP_around, countP_around, flatMap_around] at hfits ⊢
  obtain ⟨htok, hsrv, hnot, hdel⟩ := hfits
  cases hm with
  | quiet => exact ⟨htok, hsrv, hnot, hdel⟩
  | accept e =>
    refine ⟨htok, hsrv, fun _ _ => ?_, ?_⟩
    · simp [watches]
    · simp [← hdel, inHand]
  | win hk =>
    rw [hk] at htok hsrv
    refine ⟨?_, ?_, fun _ hp => ?_, hdel⟩
    · simp only [update_self, carries, decide_true, Bool.toNat_true, if_true]
      simp only [carries, reduceCtorEq, if_false] at htok
      omega
    · simpa only [update_self, serves, reduceCtorEq] using hsrv
    · simp at hp
  | yield hk => exact ⟨htok, hsrv, fun _ hp => absurd hp hk, hdel⟩
  | calm hk => exact ⟨htok, hsrv, fun hq _ => absurd hk hq, hdel⟩
  | list =>
    obtain ⟨hready, h0, hL, hR⟩ := h.only (by simp [carries])
    refine ⟨?_, hsrv, fun _ hp => ?_, hdel⟩
    · rw [hL, hR, hready, if_pos rfl]
      simp [h0, carries]
    · exact absurd (hready.symm.trans hp) (by simp)
  | @take n hk =>
    refine ⟨?_, hsrv, fun hq hp => ?_, hdel⟩
    · rw [← htok]
      simp only [update_self, carries, decide_true, Bool.toNat_true,
        Bool.toNat_false]
      omega
    · have hp' : b.phase k = .idle := hp
      rw [hp'] at htok
      simp only [reduceCtorEq, if_false] at htok
      omega
  | claim =>
    obtain ⟨hready, h0, hL, hR⟩ := h.only (by simp [carries])
    rw [hready] at hsrv
    refine ⟨?_, ?_, fun _ hp => ?_, hdel⟩
    · rw [hL, hR, h0]
      simp [carries, hready]
    · simp only [serves, reduceCtorEq, if_false] at hsrv
      simp only [update_self, hready, serves, decide_true, Bool.toNat_true, if_true]
      omega
    · simp [hready] at hp
  | pop hk =>
    obtain ⟨hrun, hL, hR⟩ := h.alone (by simp [serves])
    refine ⟨htok, hsrv, fun _ hp => ?_, ?_⟩
    · exact absurd (hrun.symm.trans hp) (by simp)
    · rw [inHand_eq_nil hL, inHand_eq_nil hR, hk] at hdel
      rw [inHand_eq_nil hL, inHand_eq_nil hR]
      simpa [inHand] using hdel
  | apply e =>
    obtain ⟨hrun, hL, hR⟩ := h.alone (by simp [serves])
    refine ⟨htok, hsrv, fun _ hp => ?_, ?_⟩
    · exact absurd (hrun.symm.trans hp) (by simp)
    · rw [inHand_eq_nil hL, inHand_eq_nil hR] at hdel ⊢
      simpa [inHand] using hdel
  | release =>
    obtain ⟨hrun, hL, hR⟩ := h.alone (by simp [serves])
    rw [hrun] at htok
    refine ⟨?_, ?_, fun _ _ => ?_, hdel⟩
    · simpa only [update_self, carries, reduceCtorEq] using htok
    · simp [hL, hR, serves]
    · simp [watches]

/-- **Every move of every process keeps the invariant.** -/
theorem Inv.move (h : Inv b (L ++ r :: R)) (hm : Move k b r b' r') : Inv b' (L ++ r' :: R) := by
  intro j
  by_cases hj : j = k
  · rw [hj]
    exact (h k).move hm
  · obtain ⟨hb, hr⟩ := hm.frame hj
    exact (h j).frame hb hr

end Move

/-! ## What follows -/

section Consequences

variable {b : Board κ E} {rs : List (Role κ E)}

/-- A mailbox is on at most one list or served by one server, never both. -/
theorem Inv.listed_add_servers_le (h : Inv b rs) (k : κ) :
    b.listed k + rs.countP (serves k) ≤ 1 := by
  have ht := (h k).tokens
  have hs := (h k).servers
  by_cases hr : b.phase k = .ready
  · rw [if_neg (by simp [hr])] at hs
    rw [if_pos hr] at ht
    omega
  · rw [if_neg hr] at ht
    split at hs <;> omega

/-- A mailbox with events that no process is about to look at is on one list or being served. -/
theorem Inv.listed_add_servers_eq (h : Inv b rs) {k : κ} (hq : b.queue k ≠ [])
    (hwatch : rs.countP (watches k) = 0) (hcarry : rs.countP (carries k) = 0) :
    b.listed k + rs.countP (serves k) = 1 := by
  have ht := (h k).tokens
  have hs := (h k).servers
  rcases hp : b.phase k with _ | _ | _
  · have := (h k).noticed hq hp
    omega
  · rw [hp, if_pos rfl] at ht
    rw [hp, if_neg (by simp)] at hs
    omega
  · rw [hp, if_neg (by simp)] at ht
    rw [hp, if_pos rfl] at hs
    omega

end Consequences

end Smg.Mailbox
