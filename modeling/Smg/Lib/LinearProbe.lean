import Mathlib.Data.Nat.ModEq

/-!
# Linear probing with backward-shift deletion

An open-addressing table has `n` cells in a circle.  A key belongs at its home cell and is put into
the first free cell from there on.  What makes every key findable is that **the cells from a key's
home up to the cell it is in are all occupied**: a search that starts at home and stops at the first
free cell cannot stop before it.

Deleting leaves a hole that may break this for later keys.  Backward-shift deletion walks on from
the hole and pulls into it each key whose way from home crosses the hole, which moves the hole to
where that key was, until the walk meets a free cell.

A table is a function from cells to what they hold; `dist n a b` is the number of steps from `a` to
`b` around the circle, so "`p` is on the way from `a` to `b`" is `dist n a p < dist n a b`.

## What is here

* `walk`: looking at cell after cell until one answers, and where it ends (`walk_spec`).
* `Probing n home tbl`: the invariant.  It survives writing a key where a search for it stops
  (`Probing.put`, `exists_put`).
* `Probing.absent`: a search that stops has shown that the key is nowhere else.
* `Shifting n home tbl hole next`: the invariant of the walk after a deletion, with its four rules:
  it holds when the walk starts, when a key is left where it is, when one is pulled into the hole,
  and it gives `Probing` back when the walk meets a free cell.
-/

set_option autoImplicit false

namespace Smg.LinearProbe

open Function Nat

/-- The steps from `a` to `b` around a circle of `n` cells. -/
def dist (n a b : Nat) : Nat := if a ≤ b then b - a else b + n - a

section Circle

variable {n a b c : Nat}

theorem dist_self (n a : Nat) : dist n a a = 0 := by simp [dist]

theorem dist_lt (ha : a < n) (hb : b < n) : dist n a b < n := by
  rw [dist]
  split <;> omega

theorem dist_eq_zero (ha : a < n) : dist n a b = 0 ↔ a = b := by
  rw [dist]
  split <;> omega

/-- Cells at one distance are one. -/
theorem dist_inj (ha : a < n) (hb : b < n) (hc : c < n) (h : dist n a b = dist n a c) : b = c := by
  rw [dist, dist] at h
  split at h <;> split at h <;> omega

theorem succ_lt (ha : a < n) : (a + 1) % n < n := mod_lt _ (by omega)

theorem succ_eq (ha : a < n) : (a + 1) % n = if a + 1 = n then 0 else a + 1 := by
  split
  · rename_i h
    rw [h, mod_self]
  · exact mod_eq_of_lt (by omega)

theorem dist_succ (ha : a < n) (hb : b < n) (h : (b + 1) % n ≠ a) :
    dist n a ((b + 1) % n) = dist n a b + 1 := by
  rw [succ_eq hb] at h ⊢
  by_cases hlast : b + 1 = n
  · rw [if_pos hlast] at h ⊢
    rw [dist, dist]
    split <;> split <;> omega
  · rw [if_neg hlast] at h ⊢
    rw [dist, dist]
    split <;> split <;> omega

theorem dist_succ_left (ha : a < n) (hb : b < n) (h : a ≠ b) :
    dist n a b = dist n ((a + 1) % n) b + 1 := by
  rw [succ_eq ha, dist]
  by_cases hlast : a + 1 = n
  · rw [dist]
    split <;> split <;> omega
  · rw [dist]
    split <;> split <;> omega

theorem dist_of_succ_eq (ha : a < n) (hb : b < n) (h : (b + 1) % n = a) : dist n a b + 1 = n := by
  rw [succ_eq hb] at h
  rw [dist]
  split at h <;> split <;> omega

theorem dist_split (ha : a < n) (hb : b < n) (hc : c < n) (h : dist n a b ≤ dist n a c) :
    dist n a c = dist n a b + dist n b c := by
  rw [dist, dist] at h
  rw [dist, dist, dist]
  split at h <;> split at h <;> split <;> (try split) <;> omega

theorem dist_between {d : Nat} (ha : a < n) (hb : b < n) (hc : c < n) (hd : d < n)
    (h : dist n a b ≤ dist n a d) (h' : dist n b c < dist n b d) :
    dist n a c < dist n a d := by
  have hsplit := dist_split ha hb hd h
  have hlt := dist_lt ha hd
  rw [dist] at h'
  rw [dist, dist] at hsplit
  rw [dist] at hlt ⊢
  rw [dist]
  grind

theorem le_dist_iff (ha : a < n) (hb : b < n) (hc : c < n) :
    dist n b c ≤ dist n a c ↔ dist n a b ≤ dist n a c := by
  rw [dist, dist, dist]
  split <;> split <;> (try split) <;> omega

theorem dist_eq_mod (ha : a < n) (hb : b < n) : dist n a b = (b + n - a) % n := by
  rw [dist]
  split
  · have : b + n - a = (b - a) + n := by omega
    rw [this, add_mod_right, mod_eq_of_lt (by omega)]
  · rw [mod_eq_of_lt (by omega)]

/-- Cells in blocks of `m`, from the start of a block: first the blocks on the way, then the cells
of the last one. -/
theorem dist_block {m p : Nat} (hm : 0 < m) (ha : a < n) :
    dist (m * n) (m * a) p = m * dist n a (p / m) + p % m := by
  have hp : m * (p / m) + p % m = p := div_add_mod p m
  have hr : p % m < m := mod_lt p hm
  generalize p / m = q at hp ⊢
  generalize p % m = r at hp hr ⊢
  subst hp
  have hiff : m * a ≤ m * q + r ↔ a ≤ q := by
    constructor
    · intro h
      by_contra hlt
      have := mul_le_mul_left m (show q + 1 ≤ a by omega)
      rw [mul_succ] at this
      omega
    · intro h
      have := mul_le_mul_left m h
      omega
  rw [dist, dist]
  simp only [hiff]
  split
  · rename_i h
    have := mul_le_mul_left m h
    rw [Nat.mul_sub]
    omega
  · have := mul_le_mul_left m ha.le
    rw [Nat.mul_sub, mul_add]
    omega

end Circle

/-! ## Walking on until something is found -/

section Walk

variable {β : Type} {n : Nat} {look : Nat → Option β}

/-- Look at the cells from `i` on, at most `fuel` of them, for the first that answers. -/
def walk (n : Nat) (look : Nat → Option β) : Nat → Nat → Option β
  | 0, _ => none
  | fuel + 1, i =>
    match look i with
    | some b => some b
    | none => walk n look fuel ((i + 1) % n)

/-- **A walk towards a cell that answers ends at the first one that does.** -/
theorem walk_spec {goal : Nat} (hgoal : goal < n) (hb : (look goal).isSome) :
    ∀ (fuel i : Nat), i < n → dist n i goal < fuel →
      ∃ j < n, ∃ b, walk n look fuel i = some b ∧ look j = some b ∧
        ∀ p < n, dist n i p < dist n i j → look p = none := by
  intro fuel
  induction fuel with
  | zero => exact fun i _ h => absurd h (not_lt_zero _)
  | succ fuel ih =>
    intro i hi hlt
    rw [walk]
    cases hl : look i with
    | some b =>
      refine ⟨i, hi, b, rfl, hl, fun p _ hp => ?_⟩
      rw [dist_self] at hp
      exact absurd hp (not_lt_zero _)
    | none =>
      have hne : i ≠ goal := fun he => by
        rw [← he, hl] at hb
        cases hb
      rw [dist_succ_left hi hgoal hne] at hlt
      obtain ⟨j, hj, b, hw, hjb, hp⟩ := ih _ (succ_lt hi) (by omega)
      refine ⟨j, hj, b, hw, hjb, fun p hpn hlt' => ?_⟩
      by_cases hip : i = p
      · exact hip ▸ hl
      · have hij : i ≠ j := fun he => by
          rw [← he, hl] at hjb
          cases hjb
        rw [dist_succ_left hi hpn hip, dist_succ_left hi hj hij] at hlt'
        exact hp p hpn (by omega)

end Walk

/-! ## The invariant of the table -/

section Table

variable {κ ν : Type} {n : Nat} {home : κ → Nat} {tbl : Nat → Option (κ × ν)}

/-- Every key is in one cell, and the cells on the way there from its home are occupied. -/
structure Probing (n : Nat) (home : κ → Nat) (tbl : Nat → Option (κ × ν)) : Prop where
  /-- The way from home is occupied. -/
  reach : ∀ j < n, ∀ k v, tbl j = some (k, v) →
    ∀ p < n, dist n (home k) p < dist n (home k) j → tbl p ≠ none
  unique : ∀ j < n, ∀ j' < n, ∀ k v v', tbl j = some (k, v) → tbl j' = some (k, v') → j = j'

/-- An empty table. -/
theorem probing_empty (h : ∀ j < n, tbl j = none) : Probing n home tbl where
  reach j hj k v hv := by
    rw [h j hj] at hv
    cases hv
  unique j hj j' _ k v v' hv := by
    rw [h j hj] at hv
    cases hv

variable {k : κ} {j : Nat}

/-- **Where a search stops shows that the key is nowhere else.** -/
theorem Probing.absent (h : Probing n home tbl) (hj : j < n) (hhome : home k < n)
    (hstop : ∀ k' v, tbl j = some (k', v) → k' = k)
    (hpassed : ∀ p < n, dist n (home k) p < dist n (home k) j → ∀ v, tbl p ≠ some (k, v)) :
    ∀ p < n, p ≠ j → ∀ v, tbl p ≠ some (k, v) := by
  intro p hp hne v hv
  rcases lt_trichotomy (dist n (home k) p) (dist n (home k) j) with hlt | heq | hgt
  · exact hpassed p hp hlt v hv
  · exact hne (dist_inj hhome hp hj heq)
  · obtain ⟨⟨k', v'⟩, hx⟩ := Option.ne_none_iff_exists'.mp (h.reach p hp k v hv j hj hgt)
    rw [hstop k' v' hx] at hx
    exact hne (h.unique p hp j hj k v v' hv hx)

theorem update_eq_some {α β : Type} [DecidableEq α] {f : α → Option β} {x : Option β} {i j : α}
    {b : β} : update f j x i = some b ↔ i = j ∧ x = some b ∨ i ≠ j ∧ f i = some b := by
  by_cases hij : i = j
  · subst hij
    simp
  · simp [hij]

section Put

variable {v : ν} (habsent : ∀ p < n, p ≠ j → ∀ v, tbl p ≠ some (k, v))

include habsent

theorem Probing.put (h : Probing n home tbl)
    (hway : ∀ p < n, dist n (home k) p < dist n (home k) j → tbl p ≠ none) :
    Probing n home (update tbl j (some (k, v))) where
  reach i hi k' v' hv p hp hlt := by
    have hold : tbl p ≠ none := by
      rcases update_eq_some.mp hv with ⟨rfl, he⟩ | ⟨-, hold⟩
      · cases he
        exact hway p hp hlt
      · exact h.reach i hi k' v' hold p hp hlt
    by_cases hpj : p = j
    · simp [hpj]
    · rwa [update_of_ne hpj]
  unique i hi i' hi' k' v' v'' hv hv' := by
    rcases update_eq_some.mp hv with ⟨rfl, he⟩ | ⟨hij, hold⟩
    · rcases update_eq_some.mp hv' with ⟨rfl, -⟩ | ⟨hij', hold'⟩
      · rfl
      · cases he
        exact absurd hold' (habsent i' hi' hij' v'')
    · rcases update_eq_some.mp hv' with ⟨rfl, he⟩ | ⟨-, hold'⟩
      · cases he
        exact absurd hold (habsent i hi hij v')
      · exact h.unique i hi i' hi' k' v' v'' hold hold'

theorem exists_put (hj : j < n) (hstop : ∀ k' v, tbl j = some (k', v) → k' = k) (k' : κ) (v' : ν) :
    (∃ p < n, update tbl j (some (k, v)) p = some (k', v')) ↔
      k' ≠ k ∧ (∃ p < n, tbl p = some (k', v')) ∨ k' = k ∧ v' = v := by
  constructor
  · rintro ⟨p, hp, hpv⟩
    rcases update_eq_some.mp hpv with ⟨-, he⟩ | ⟨hne, hold⟩
    · cases he
      exact .inr ⟨rfl, rfl⟩
    · exact .inl ⟨fun hk => habsent p hp hne v' (hk ▸ hold), p, hp, hold⟩
  · rintro (⟨hk, p, hp, hold⟩ | ⟨rfl, rfl⟩)
    · exact ⟨p, hp, update_eq_some.mpr (.inr ⟨fun hpj => hk (hstop k' v' (hpj ▸ hold)), hold⟩)⟩
    · exact ⟨j, hj, update_self _ _ _⟩

end Put

/-! ## Deleting -/

/-- The walk after a deletion: `hole` is free, the walk has come to `next`, and the keys whose way
from home crosses the hole are further on. -/
structure Shifting (n : Nat) (home : κ → Nat) (tbl : Nat → Option (κ × ν)) (hole next : Nat) :
    Prop where
  hole_lt : hole < n
  next_lt : next < n
  hole_free : tbl hole = none
  /-- The way from home is occupied, but for the hole. -/
  reach : ∀ j < n, ∀ k v, tbl j = some (k, v) →
    ∀ p < n, dist n (home k) p < dist n (home k) j → p ≠ hole → tbl p ≠ none
  unique : ∀ j < n, ∀ j' < n, ∀ k v v', tbl j = some (k, v) → tbl j' = some (k, v') → j = j'
  /-- Keys that cross the hole are beyond the walk. -/
  beyond : ∀ j < n, ∀ k v, tbl j = some (k, v) →
    dist n (home k) hole < dist n (home k) j → dist n hole next < dist n hole j

/-- The walk starts at the cell that was emptied. -/
theorem Probing.erase (h : Probing n home tbl) {hole : Nat} (hhole : hole < n) :
    Shifting n home (update tbl hole none) hole hole := by
  have hne : ∀ j k v, update tbl hole none j = some (k, v) → j ≠ hole ∧
      tbl j = some (k, v) := by
    intro j k v hv
    exact (update_eq_some.mp hv).resolve_left fun he => nomatch he.2
  refine ⟨hhole, hhole, update_self _ _ _, fun j hj k v hv p hp hlt hpne => ?_,
    fun j hj j' hj' k v v' hv hv' => ?_, fun j hj k v hv _ => ?_⟩
  · rw [update_of_ne hpne]
    exact h.reach j hj k v (hne j k v hv).2 p hp hlt
  · exact h.unique j hj j' hj' k v v' (hne j k v hv).2 (hne j' k v' hv').2
  · rw [dist_self]
    refine Nat.pos_of_ne_zero fun h0 => (hne j k v hv).1 ?_
    exact ((dist_eq_zero hhole).mp h0).symm

theorem dist_next {hole next : Nat} (hh : hole < n) (hn : next < n) (hj : j < n)
    (hlt : dist n hole next < dist n hole j) :
    (next + 1) % n ≠ hole ∧ dist n hole ((next + 1) % n) = dist n hole next + 1 := by
  have hwrap : (next + 1) % n ≠ hole := fun he => by
    have h1 := dist_of_succ_eq hh hn he
    have h2 := dist_lt hh hj
    omega
  exact ⟨hwrap, dist_succ hh hn hwrap⟩

theorem Shifting.keep {hole next : Nat} (h : Shifting n home tbl hole next) {v : ν}
    (hhome : ∀ k, home k < n) (hv : tbl ((next + 1) % n) = some (k, v))
    (hstay : dist n (home k) ((next + 1) % n) < dist n hole ((next + 1) % n)) :
    Shifting n home tbl hole ((next + 1) % n) := by
  refine { h with next_lt := succ_lt h.next_lt, beyond := fun j hj k' v' hv' hcross => ?_ }
  have hlt := h.beyond j hj k' v' hv' hcross
  obtain ⟨hwrap, hd⟩ := dist_next h.hole_lt h.next_lt hj hlt
  rcases lt_or_ge (dist n hole ((next + 1) % n)) (dist n hole j) with hlt' | hge
  · exact hlt'
  · -- otherwise it is the key at the next cell, which does not cross
    have hjn : j = (next + 1) % n :=
      dist_inj h.hole_lt hj (succ_lt h.next_lt) (by omega)
    rw [hjn, hv] at hv'
    cases hv'
    rw [hjn] at hcross
    have := (le_dist_iff (hhome k) h.hole_lt (succ_lt h.next_lt)).mpr hcross.le
    omega

theorem Shifting.pull {hole next : Nat} (h : Shifting n home tbl hole next) {v : ν}
    (hhome : ∀ k, home k < n) (hv : tbl ((next + 1) % n) = some (k, v))
    (hmove : dist n hole ((next + 1) % n) ≤ dist n (home k) ((next + 1) % n)) : Shifting n home
      (update (update tbl hole (some (k, v))) ((next + 1) % n) none)
      ((next + 1) % n) ((next + 1) % n) := by
  set cell := (next + 1) % n with hcell
  have hcell_lt : cell < n := succ_lt h.next_lt
  have hne : cell ≠ hole := fun he => by
    rw [he, h.hole_free] at hv
    cases hv
  have hway := (le_dist_iff (hhome k) h.hole_lt hcell_lt).mp hmove
  have hcross : dist n (home k) hole < dist n (home k) cell :=
    lt_of_le_of_ne hway fun he => hne (dist_inj (hhome k) h.hole_lt hcell_lt he).symm
  -- what a cell of the new table holds it held before, but for the key that moved
  have hcases : ∀ j k' v',
      update (update tbl hole (some (k, v))) cell none j = some (k', v') →
      (j = hole ∧ k' = k ∧ v' = v) ∨ (j ≠ hole ∧ j ≠ cell ∧ tbl j = some (k', v')) := by
    intro j k' v' hj
    rcases update_eq_some.mp hj with ⟨-, he⟩ | ⟨hjc, hj⟩
    · cases he
    · rcases update_eq_some.mp hj with ⟨hjh, he⟩ | ⟨hjh, hj⟩
      · cases he
        exact .inl ⟨hjh, rfl, rfl⟩
      · exact .inr ⟨hjh, hjc, hj⟩
  have hocc : ∀ p, p ≠ cell → (p ≠ hole → tbl p ≠ none) →
      update (update tbl hole (some (k, v))) cell none p ≠ none := by
    intro p hpc hp
    rw [update_of_ne hpc]
    by_cases hph : p = hole
    · rw [hph]
      simp
    · rw [update_of_ne hph]
      exact hp hph
  refine ⟨hcell_lt, hcell_lt, update_self _ _ _, fun j hj k' v' hv' p hp hlt hpc => ?_,
    fun j hj j' hj' k' v1 v2 hv1 hv2 => ?_, fun j hj k' v' hv' _ => ?_⟩
  · refine hocc p hpc fun hph => ?_
    rcases hcases j k' v' hv' with ⟨rfl, rfl, rfl⟩ | ⟨-, -, hold⟩
    · exact h.reach cell hcell_lt k' v' hv p hp (hlt.trans hcross) hph
    · exact h.reach j hj k' v' hold p hp hlt hph
  · rcases hcases j k' v1 hv1 with ⟨rfl, rfl, rfl⟩ | ⟨hjh, hjc, hold⟩
    · rcases hcases j' k' v2 hv2 with ⟨rfl, -, -⟩ | ⟨-, hjc', hold'⟩
      · rfl
      · exact absurd (h.unique j' hj' cell hcell_lt k' v2 v1 hold' hv) hjc'
    · rcases hcases j' k' v2 hv2 with ⟨rfl, rfl, rfl⟩ | ⟨-, -, hold'⟩
      · exact absurd (h.unique j hj cell hcell_lt k' v1 v2 hold hv) hjc
      · exact h.unique j hj j' hj' k' v1 v2 hold hold'
  · rw [dist_self]
    refine Nat.pos_of_ne_zero fun h0 => ?_
    have hjc : cell = j := (dist_eq_zero hcell_lt).mp h0
    rcases hcases j k' v' hv' with ⟨hjh, -, -⟩ | ⟨-, hjc', -⟩
    · exact hne (hjc.trans hjh)
    · exact hjc' hjc.symm

/-- **The walk ends at a free cell, and the table is sound again.** -/
theorem Shifting.finish {hole next : Nat} (h : Shifting n home tbl hole next)
    (hhome : ∀ k, home k < n) (hfree : tbl ((next + 1) % n) = none) : Probing n home tbl := by
  refine ⟨fun j hj k v hv p hp hlt hnone => ?_, h.unique⟩
  by_cases hph : p = hole
  · subst hph
    have hbeyond := h.beyond j hj k v hv hlt
    obtain ⟨hwrap, hd⟩ := dist_next h.hole_lt h.next_lt hj hbeyond
    have hcell_lt := succ_lt h.next_lt
    -- the free cell would be on the way of a key that crosses the hole
    have hle : dist n p ((next + 1) % n) < dist n p j := by
      refine lt_of_le_of_ne (by omega) fun he => ?_
      rw [← dist_inj h.hole_lt hcell_lt hj he, hfree] at hv
      cases hv
    have hway := dist_between (hhome k) h.hole_lt hcell_lt hj hlt.le hle
    exact h.reach j hj k v hv _ hcell_lt hway hwrap hfree
  · exact h.reach j hj k v hv p hp hlt hph hnone

end Table

end Smg.LinearProbe
