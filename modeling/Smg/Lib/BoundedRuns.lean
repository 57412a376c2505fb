import Mathlib.Data.List.TakeWhile
import Smg.Lib.Backtrack

/-!
# Runs with and without a bound

A repetition that takes as many letters as it can stops at its bound, and one without a bound goes
on. With one run the two differ just where the run is longer than the bound.  With a second run
after the first they may still read the same: the second takes up what the first had to leave, as
long as it may read those letters and stays within its own bound.  That is `Fits`, and `cut_of_star`
says that it is exactly when two runs with bounds read as much as two without.

An alternation takes the first alternative that matches, so `or_eq_or_iff` asks `Fits` of that one.
-/

set_option autoImplicit false

namespace Smg.Backtrack

open List Option

variable {α ρ : Type} {p q : α → Bool} {g : List α → Bool} {s t u : List α} {n m : Nat}

/-! ## Where a run ends -/

theorem Local.suffix {m : Matcher α (List α)} (h : Local m) (hr : m s some = some t) : t <:+ s := by
  obtain ⟨s', hs, heq⟩ := h s some t hr
  cases heq
  exact hs

theorem local_star : Local (star p : Matcher α ρ) := by
  intro s k r hr
  rw [← greedy_zero_eq_star p k (le_refl s.length)] at hr
  exact local_greedy (consumes_single p).toLocal 0 _ s k r hr

theorem local_plus : Local (plus p : Matcher α ρ) := by
  intro s k r hr
  rw [← greedy_one_eq_plus p k (Nat.le_succ s.length) (Nat.succ_ne_zero _)] at hr
  exact local_greedy (consumes_single p).toLocal 1 _ s k r hr

section

variable {k k' : List α → Option ρ} (hk : ∀ s, k s = none → k' s = none)

include hk

theorem greedy_zero_eq_none (h : star p s k = none) (n : Nat) :
    greedy (single p) 0 n s k' = none := by
  induction s generalizing n with
  | nil => cases n <;> simpa [greedy] using hk [] h
  | cons a s ih =>
    rw [star_cons, or_eq_none_iff] at h
    cases n with
    | zero => exact hk _ h.2
    | succ n =>
      rw [greedy_zero_succ, single_cons, hk _ h.2, or_none]
      split
      next ha => exact ih (by simpa [ha] using h.1) n
      · rfl

theorem greedy_one_eq_none (h : plus p s k = none) (n : Nat) :
    greedy (single p) 1 (n + 1) s k' = none := by
  cases s with
  | nil => rfl
  | cons a s =>
    rw [plus_cons] at h
    rw [greedy_succ_succ, single_cons]
    split
    next ha => exact greedy_zero_eq_none hk (by simpa [ha] using h) n
    · rfl

end

theorem greedy_map {ρ' : Type} (min max : Nat) (s : List α) (k : List α → Option ρ) (f : ρ → ρ') :
    greedy (single p) min max s (fun s' => (k s').map f) =
      (greedy (single p) min max s k).map f := by
  have hsingle : ∀ (s : List α) (k : List α → Option ρ),
      single p s (fun s' => (k s').map f) = (single p s k).map f := by
    intro s k
    cases s with
    | nil => rfl
    | cons a s => rw [single_cons, single_cons, apply_ite (Option.map f), Option.map_none]
  induction max generalizing min s with
  | zero => simp
  | succ max ih =>
    cases min with
    | zero => simp only [greedy_zero_succ, ih, hsingle, map_or]
    | succ min => simp only [greedy_succ_succ, ih, hsingle]

/-! ## Two runs -/

def behind (m : Nat) (q : α → Bool) (t : List α) : List α := t.drop (runLength q m t)

/-- **Two runs that fit**, each within its bound: the second takes up what is beyond the bound of
the first. -/
structure Fits (n m : Nat) (q : α → Bool) (u t : List α) : Prop where
  spill : ∀ a ∈ u.drop n, q a = true
  within : u.length - n + (t.takeWhile q).length ≤ m

theorem runLength_eq_min (q : α → Bool) (m : Nat) (t : List α) :
    runLength q m t = min m (t.takeWhile q).length := by
  rw [runLength, ← take_takeWhile, length_take]

theorem behind_append_iff : behind m q (u ++ t) = t.dropWhile q ↔ Fits 0 m q u t := by
  have hdrop : t.dropWhile q = (u ++ t).drop (u.length + (t.takeWhile q).length) := by
    rw [drop_append, drop_eq_nil_of_le (Nat.le_add_right _ _), Nat.add_sub_cancel_left,
      nil_append, ← drop_runLength (le_refl t.length), runLength, take_length]
  have hinj : ∀ i ≤ (u ++ t).length, ∀ j ≤ (u ++ t).length,
      ((u ++ t).drop i = (u ++ t).drop j ↔ i = j) := by
    refine fun i hi j hj => ⟨fun h => ?_, fun h => h ▸ rfl⟩
    have := congrArg length h
    rw [length_drop, length_drop] at this
    omega
  have hfits : Fits 0 m q u t ↔ (∀ a ∈ u, q a = true) ∧ u.length + (t.takeWhile q).length ≤ m :=
    ⟨fun h => ⟨h.spill, h.within⟩, fun h => ⟨h.1, h.2⟩⟩
  have hall := (takeWhile_sublist q (l := u ++ t)).length_le
  have hu := (takeWhile_sublist q (l := u)).length_le
  have ht := (takeWhile_sublist q (l := t)).length_le
  rw [behind, runLength_eq_min, hdrop, hinj _ ((min_le_right _ _).trans hall) _
    (by rw [length_append]; omega), hfits, ← takeWhile_eq_self_iff, takeWhile_append]
  split
  next heq =>
    rw [length_append, and_iff_right ((takeWhile_sublist q).eq_of_length heq)]
    omega
  next hne => exact ⟨fun h => by omega, fun h => absurd (congrArg length h.1) hne⟩

theorem length_dropWhile_le_behind :
    (t.dropWhile q).length ≤ (behind m q (u ++ t)).length := by
  have hsplit := congrArg length (takeWhile_append_dropWhile (p := q) (l := t))
  have hle : ((u ++ t).takeWhile q).length ≤ u.length + (t.takeWhile q).length := by
    rw [takeWhile_append]
    split
    · rw [length_append]
    · exact (takeWhile_sublist q).length_le.trans (Nat.le_add_right _ _)
  rw [length_append] at hsplit
  rw [behind, runLength_eq_min, length_drop, length_append]
  omega

/-- What a run without a bound finds is behind letters of the class, and a bound that is not before
it changes nothing. -/
theorem star_guard (h : star p s (guard g) = some t) :
    ∃ u, s = u ++ t ∧ (∀ a ∈ u, p a = true) ∧
      ∀ n, u.length ≤ n → greedy (single p) 0 n s (guard g) = some t := by
  induction s with
  | nil =>
    obtain ⟨rfl, hg⟩ := guard_eq_some_iff.mp h
    exact ⟨[], rfl, nofun, fun n _ => by cases n <;> simp [greedy, Option.guard, hg]⟩
  | cons a s ih =>
    rw [star_cons, or_eq_some_iff] at h
    rcases h with h | ⟨hnone, h⟩
    · split at h
      next ha =>
        obtain ⟨u, rfl, hu, hn⟩ := ih h
        refine ⟨a :: u, rfl, forall_mem_cons.mpr ⟨ha, hu⟩, fun n hle => ?_⟩
        obtain ⟨n, rfl⟩ := Nat.exists_eq_succ_of_ne_zero (ne_of_gt (Nat.zero_lt_of_lt hle))
        rw [greedy_zero_succ, single_cons, if_pos ha, hn n (by simpa using hle), some_or]
      next => cases h
    · obtain ⟨rfl, hg⟩ := guard_eq_some_iff.mp h
      refine ⟨[], rfl, nofun, fun n _ => ?_⟩
      cases n with
      | zero => exact h
      | succ n =>
        rw [greedy_zero_succ, single_cons, h]
        split
        next ha =>
          rw [greedy_zero_eq_none (fun _ h => h) (by simpa [ha] using hnone), none_or]
        next => rfl

theorem exists_append_of_greedy {min : Nat} (h : greedy (single p) min n s (guard g) = some t) :
    ∃ u, s = u ++ t ∧ u.length ≤ n := by
  have hskip : ∀ n s, guard g s = some t → ∃ u, s = u ++ t ∧ u.length ≤ n := fun n s h =>
    ⟨[], (guard_eq_some_iff.mp h).1, Nat.zero_le n⟩
  have hread : ∀ n s (k : List α → Option (List α)), (∀ s, k s = some t → ∃ u, s = u ++ t ∧
      u.length ≤ n) → single p s k = some t → ∃ u, s = u ++ t ∧ u.length ≤ n + 1 := by
    intro n s k hk h
    cases s with
    | nil => cases h
    | cons a s =>
      rw [single_cons] at h
      split at h
      · obtain ⟨u, rfl, hle⟩ := hk s h
        exact ⟨a :: u, rfl, Nat.succ_le_succ hle⟩
      · cases h
  induction n generalizing s min with
  | zero => exact hskip 0 s (by simpa using h)
  | succ n ih =>
    cases min with
    | zero =>
      rw [greedy_zero_succ, or_eq_some_iff] at h
      rcases h with h | ⟨-, h⟩
      · exact hread n s _ (fun s h => ih h) h
      · exact hskip _ s h
    | succ min => exact hread n s _ (fun s h => ih h) h

theorem length_le_of_greedy {min : Nat} (h : greedy (single p) min n s (guard g) = some t) :
    s.length - t.length ≤ n := by
  obtain ⟨u, rfl, hle⟩ := exists_append_of_greedy h
  simpa using hle

theorem greedy_append (hu : ∀ a ∈ u, p a = true) (ht : g t = true) :
    greedy (single p) 0 u.length (u ++ t) (guard g) = some t := by
  induction u with
  | nil => simp [Option.guard, ht]
  | cons a u ih =>
    rw [length_cons, cons_append, greedy_zero_succ, single_cons, if_pos (hu a mem_cons_self),
      ih fun b hb => hu b (mem_cons_of_mem a hb), some_or]

/-- What a run with a bound leads to, against what one without a bound does: `found` is behind the
first run, with the second still to come. -/
structure Cut (n m : Nat) (q : α → Bool) (s t : List α) (found : Option (List α)) : Prop where
  short : s.length - t.length ≤ n → found = some t
  iff : found.map (behind m q) = some (t.dropWhile q) ↔
    Fits n m q (s.take (s.length - t.length)) t
  long : ∀ x ∈ found.map (behind m q), (t.dropWhile q).length ≤ x.length

theorem take_of_append {s u t : List α} (h : s = u ++ t) :
    s.take (s.length - t.length) = u ∧ s.length - t.length = u.length := by
  subst h
  simp

/-- Whatever its bound, a run leaves no less than without one. -/
theorem exists_drop_of_greedy {t' : List α} (h : star p s (guard g) = some t)
    (ht' : greedy (single p) 0 n s (guard g) = some t') :
    ∃ x ≤ n, t' = (s.take (s.length - t.length)).drop x ++ t := by
  obtain ⟨u, hs, -, hshort⟩ := star_guard h
  rw [(take_of_append hs).1]
  rcases le_or_gt u.length n with hle | hgt
  · rw [hshort n hle] at ht'
    exact ⟨u.length, hle, by rw [drop_length, nil_append, some.inj ht']⟩
  · obtain ⟨x, hx, hle⟩ := exists_append_of_greedy ht'
    refine ⟨x.length, hle, ?_⟩
    rw [← drop_append_of_le_length (by omega), ← hs, hx, drop_left]

/-- **When two runs with bounds read as much as without.** -/
theorem cut_of_star (hq : ∀ a s, q a = true → g (a :: s) = true)
    (h : star p s (guard g) = some t) (n m : Nat) :
    Cut n m q s t (greedy (single p) 0 n s (guard g)) := by
  obtain ⟨u, hs, hu, hshort⟩ := star_guard h
  obtain ⟨htake, hlen⟩ := take_of_append hs
  have hleft : ∀ t' ∈ greedy (single p) 0 n s (guard g), ∃ x ≤ n, t' = u.drop x ++ t :=
    fun t' ht' => htake ▸ exists_drop_of_greedy h ht'
  refine ⟨fun hle => hshort n (hlen ▸ hle), ?_, fun x hx => by
    obtain ⟨t', ht', rfl⟩ := map_eq_some_iff.mp hx
    obtain ⟨x, -, rfl⟩ := hleft t' ht'
    exact length_dropWhile_le_behind⟩
  have hsplit : Fits n m q u t ↔ Fits 0 m q (u.drop n) t :=
    ⟨fun h => ⟨h.spill, by simpa using h.within⟩, fun h => ⟨h.spill, by simpa using h.within⟩⟩
  rw [htake, hsplit]
  rcases le_or_gt u.length n with hle | hgt
  · rw [hshort n hle, drop_eq_nil_of_le hle, map_some, some.injEq]
    exact @behind_append_iff _ q t [] m
  -- the first run ends at its bound if the second can go on from there
  have hcut : (∀ a ∈ u.drop n, q a = true) →
      greedy (single p) 0 n s (guard g) = some (u.drop n ++ t) := by
    intro hspill
    have hg : g (u.drop n ++ t) = true := by
      obtain ⟨a, w, hw⟩ := exists_cons_of_ne_nil (drop_eq_nil_iff.not.mpr (not_le.mpr hgt))
      rw [hw]
      exact hq a _ (hspill a (hw ▸ mem_cons_self))
    have := greedy_append (fun a ha => hu a (mem_of_mem_take ha)) hg (u := u.take n)
    rwa [length_take_of_le hgt.le, ← append_assoc, take_append_drop, ← hs] at this
  constructor
  · intro heq
    obtain ⟨t', ht', heq⟩ := map_eq_some_iff.mp heq
    obtain ⟨x, hle, rfl⟩ := hleft t' ht'
    have hdrop : u.drop n = (u.drop x).drop (n - x) := by rw [drop_drop, Nat.add_sub_cancel' hle]
    have hfits := behind_append_iff.mp heq
    rw [hcut fun a ha => hfits.spill a (mem_of_mem_drop (hdrop ▸ ha)), some.injEq,
      append_cancel_right_eq] at ht'
    rwa [← ht'] at hfits
  · intro hfits
    rw [hcut hfits.spill, map_some, behind_append_iff.mpr hfits]

theorem cut_of_plus (hq : ∀ a s, q a = true → g (a :: s) = true)
    (h : plus p s (guard g) = some t) (n m : Nat) :
    Cut (n + 1) m q s t (greedy (single p) 1 (n + 1) s (guard g)) := by
  cases s with
  | nil => cases h
  | cons a s =>
    rw [plus_cons] at h
    split at h
    next ha =>
      obtain ⟨hshort, hiff, hlong⟩ := cut_of_star hq h n m
      obtain ⟨u, hs, -⟩ := star_guard h
      have hcons : a :: s = (a :: u) ++ t := by rw [hs, cons_append]
      obtain ⟨htake, hlen⟩ := take_of_append hs
      obtain ⟨htake', hlen'⟩ := take_of_append hcons
      have hfits : Fits (n + 1) m q (a :: u) t ↔ Fits n m q u t :=
        ⟨fun h => ⟨h.spill, by simpa using h.within⟩, fun h => ⟨h.spill, by simpa using h.within⟩⟩
      rw [greedy_succ_succ, single_cons, if_pos ha]
      refine ⟨fun hle => hshort ?_, ?_, hlong⟩
      · rw [hlen', length_cons] at hle
        omega
      · rw [htake', hfits, ← htake]
        exact hiff
    next => cases h

/-- An alternative whose first run is cut so short that it fails leaves what is behind it to others,
and none of them reads as far. -/
theorem Cut.or_eq_iff {found later : Option (List α)} (h : Cut n m q s t found)
    (hlater : found = none → ∀ r ∈ later, s.length - r.length ≤ n) :
    (found.map (behind m q)).or later = some (t.dropWhile q) ↔
      Fits n m q (s.take (s.length - t.length)) t := by
  rw [← h.iff]
  cases hfound : found with
  | some t' => rfl
  | none =>
    refine ⟨fun heq => absurd (h.short ?_) (by rw [hfound]; nofun), nofun⟩
    have := hlater hfound _ heq
    have := (dropWhile_suffix q (l := t)).length_le
    omega

/-! ## Alternatives -/

def byFirst {σ : Type} (found : Option σ) (fits : σ → Prop) (later : Prop) : Prop :=
  found.elim later fits

theorem byFirst_of {σ : Type} {found : Option σ} {fits : σ → Prop} {later : Prop}
    (h : ∀ t, found = some t → fits t) (hlater : later) : byFirst found fits later := by
  cases found with
  | none => exact hlater
  | some t => exact h t rfl

theorem or_eq_or_iff {σ : Type} {b b' v v' : Option ρ} {u : Option σ} {f : σ → ρ} {fits : σ → Prop}
    {later : Prop} (hv : v = u.map f) (hnone : u = none → b = none)
    (hsome : ∀ t, u = some t → (b.or b' = some (f t) ↔ fits t)) (hlater : b' = v' ↔ later) :
    b.or b' = v.or v' ↔ byFirst u fits later := by
  subst hv
  cases u with
  | none =>
    rw [hnone rfl, none_or, map_none, none_or]
    exact hlater
  | some t => exact hsome t rfl

/-- The runs of a match, of which the first leaves `t`, fit their bounds. -/
def FitsAt (n : Nat) (q : α → Bool) (s t : List α) : Prop :=
  Fits n n q (s.take (s.length - t.length)) t

theorem fitsAt_of_length_le (h : s.length ≤ n) (ht : t <:+ s) : FitsAt n q s t := by
  have := ht.length_le
  have := (takeWhile_sublist q (l := t)).length_le
  refine ⟨fun a ha => ?_, ?_⟩
  · rw [drop_eq_nil_of_le (by rw [length_take]; omega)] at ha
    cases ha
  · rw [length_take]
    omega

theorem greedy_then_star (min n m : Nat) (s : List α) :
    (greedy (single p) min n s fun s => greedy (single q) 0 m s some) =
      (greedy (single p) min n s some).map (behind m q) := by
  rw [← greedy_map]
  exact congrArg _ (funext fun t => greedy_single_some q m t id)

theorem greedy_then_plus (min n m : Nat) (s : List α) :
    (greedy (single p) min n s fun s => greedy (single q) 1 (m + 1) s some) =
      (greedy (single p) min n s (here q)).map (behind (m + 1) q) := by
  rw [← greedy_map]
  refine congrArg _ (funext fun t => ?_)
  cases t with
  | nil => rfl
  | cons a t =>
    rw [greedy_succ_succ, single_cons, here]
    split
    next ha =>
      refine (greedy_single_some q m t id).trans ?_
      rw [map_some, behind, runLength_cons_pos ha]
      rfl
    next => rfl

/-- A second run that reads nothing. -/
theorem map_behind_false (m : Nat) (found : Option (List α)) :
    found.map (behind m fun _ => false) = found := by
  cases found with
  | none => rfl
  | some t => cases t <;> cases m <;> simp [behind, runLength]

theorem dropWhile_false (t : List α) : t.dropWhile (fun _ => false) = t := by
  cases t <;> rfl

theorem plus_or_iff (q : α → Bool) (h : plus p s some = some t) (later : Option (List α)) :
    ((greedy (single p) 1 (n + 1) s some).map (behind (n + 1) q)).or later =
      some (t.dropWhile q) ↔ FitsAt (n + 1) q s t := by
  refine (cut_of_plus (g := fun _ => true) (fun _ _ _ => rfl) h n (n + 1)).or_eq_iff fun hnone => ?_
  cases s with
  | nil => cases h
  | cons a s =>
    rw [plus_cons] at h
    rw [greedy_succ_succ, single_cons] at hnone
    split at h
    next ha =>
      rw [if_pos ha] at hnone
      exact absurd ((greedy_single_some p n s id).symm.trans hnone) nofun
    next => cases h

end Smg.Backtrack
