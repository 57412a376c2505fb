import Mathlib.Data.List.Infix

/-!
# Backtracking matchers

A matcher reads a list from the left and hands what is left to a continuation; the continuation may
refuse, and then the matcher tries its next way.  The first way that the continuation accepts wins,
so alternatives are tried in order and repetitions take as much as they can and give back one piece
at a time.  Nothing here knows what the letters are, or what a successful match returns.

## What is here

* `single`, `notAhead`, `greedy`: one letter, a look at the next one, a repetition;
* `Local`, `Consumes`: a matcher goes on only at suffixes, or at proper suffixes, of where it stood;
* `Opens`: what the first letter says about a match, before it is attempted;
* `greedy_single`: **a repetition of one letter is its longest run, given back one letter at a
  time**, and `backOff` is that giving back;
* `star`, `plus`: repetitions of one letter with no bound that matters, by recursion on the list.
-/

set_option autoImplicit false

namespace Smg.Backtrack

open List

variable {α ρ : Type}

/-- A matcher: where it stands, and what must accept the rest. -/
abbrev Matcher (α ρ : Type) := List α → (List α → Option ρ) → Option ρ

def single (p : α → Bool) : Matcher α ρ
  | [], _ => none
  | a :: s, k => if p a then k s else none

/-- Nothing is read; the next letter, if there is one, is not of the class. -/
def notAhead (p : α → Bool) : Matcher α ρ
  | [], k => k []
  | a :: s, k => if p a then none else k (a :: s)

/-- `min` to `max` repetitions, as many as possible first. -/
def greedy (m : Matcher α ρ) : (min max : Nat) → Matcher α ρ
  | _, 0, s, k => k s
  | 0, max + 1, s, k => (m s fun s' => greedy m 0 max s' k).or (k s)
  | min + 1, max + 1, s, k => m s fun s' => greedy m min max s' k

section

variable (k : List α → Option ρ) (p : α → Bool)

@[simp] theorem single_nil : single p [] k = none := rfl

theorem single_cons (a : α) (s : List α) :
    single p (a :: s) k = if p a then k s else none := rfl

@[simp] theorem notAhead_nil : notAhead p [] k = k [] := rfl

theorem notAhead_cons (a : α) (s : List α) :
    notAhead p (a :: s) k = if p a then none else k (a :: s) := rfl

@[simp] theorem greedy_zero_max (m : Matcher α ρ) (min : Nat) (s : List α) :
    greedy m min 0 s k = k s := by
  cases min <;> rfl

end

variable (p : α → Bool)

theorem notAhead_some (s : List α) :
    notAhead p s some = if s.head?.any p then none else some s := by
  cases s <;> rfl

theorem greedy_zero_succ (m : Matcher α ρ) (max : Nat) (s : List α) (k : List α → Option ρ) :
    greedy m 0 (max + 1) s k = (m s fun s' => greedy m 0 max s' k).or (k s) := rfl

theorem greedy_succ_succ (m : Matcher α ρ) (min max : Nat) (s : List α) (k : List α → Option ρ) :
    greedy m (min + 1) (max + 1) s k = m s fun s' => greedy m min max s' k := rfl

/-! ## Where a matcher goes on -/

/-- Whatever a match returns, the continuation returned at a suffix. -/
def Local (m : Matcher α ρ) : Prop :=
  ∀ s k r, m s k = some r → ∃ s', s' <:+ s ∧ k s' = some r

/-- Whatever a match returns, the continuation returned at a proper suffix: something was read. -/
def Consumes (m : Matcher α ρ) : Prop :=
  ∀ s k r, m s k = some r → ∃ s', s' <:+ s ∧ s'.length < s.length ∧ k s' = some r

variable {m : Matcher α ρ}

theorem Consumes.toLocal (h : Consumes m) : Local m := by
  intro s k r hr
  obtain ⟨s', hs, -, hk⟩ := h s k r hr
  exact ⟨s', hs, hk⟩

theorem consumes_single : Consumes (single p : Matcher α ρ) := by
  intro s k r hr
  cases s with
  | nil => cases hr
  | cons a s =>
    rw [single_cons] at hr
    split at hr
    · exact ⟨s, suffix_cons a s, by simp, hr⟩
    · cases hr

theorem local_notAhead : Local (notAhead p : Matcher α ρ) := by
  intro s k r hr
  cases s with
  | nil => exact ⟨[], suffix_refl _, hr⟩
  | cons a s =>
    rw [notAhead_cons] at hr
    split at hr
    · cases hr
    · exact ⟨a :: s, suffix_refl _, hr⟩

variable {m' : Matcher α ρ}

theorem Local.seq (h : Local m) (h' : Local m') : Local fun s k => m s fun s' => m' s' k := by
  intro s k r hr
  obtain ⟨t, ht, hk⟩ := h s _ r hr
  obtain ⟨u, hu, hku⟩ := h' t k r hk
  exact ⟨u, hu.trans ht, hku⟩

theorem Consumes.seq (h : Consumes m) (h' : Local m') :
    Consumes fun s k => m s fun s' => m' s' k := by
  intro s k r hr
  obtain ⟨t, ht, hlt, hk⟩ := h s _ r hr
  obtain ⟨u, hu, hku⟩ := h' t k r hk
  exact ⟨u, hu.trans ht, hu.length_le.trans_lt hlt, hku⟩

theorem Local.seq_consumes (h : Local m) (h' : Consumes m') :
    Consumes fun s k => m s fun s' => m' s' k := by
  intro s k r hr
  obtain ⟨t, ht, hk⟩ := h s _ r hr
  obtain ⟨u, hu, hlt, hku⟩ := h' t k r hk
  exact ⟨u, hu.trans ht, hlt.trans_le ht.length_le, hku⟩

theorem Local.alt (h : Local m) (h' : Local m') : Local fun s k => (m s k).or (m' s k) := by
  intro s k r hr
  rcases Option.or_eq_some_iff.mp hr with hm | ⟨-, hm⟩
  · exact h s k r hm
  · exact h' s k r hm

theorem Consumes.alt (h : Consumes m) (h' : Consumes m') :
    Consumes fun s k => (m s k).or (m' s k) := by
  intro s k r hr
  rcases Option.or_eq_some_iff.mp hr with hm | ⟨-, hm⟩
  · exact h s k r hm
  · exact h' s k r hm

theorem local_skip : Local fun (s : List α) (k : List α → Option ρ) => k s :=
  fun s _ _ hr => ⟨s, suffix_refl _, hr⟩

theorem local_greedy (h : Local m) (min max : Nat) : Local (greedy m min max) := by
  induction max generalizing min with
  | zero =>
    intro s k r hr
    exact local_skip s k r (by simpa using hr)
  | succ max ih =>
    cases min with
    | zero => exact (h.seq (ih 0)).alt local_skip
    | succ min => exact h.seq (ih min)

variable {max : Nat}

theorem consumes_greedy (h : Consumes m) {min : Nat} (hmin : min ≠ 0) (hmax : min ≤ max) :
    Consumes (greedy m min max) := by
  obtain ⟨min, rfl⟩ := Nat.exists_eq_succ_of_ne_zero hmin
  obtain ⟨max, rfl⟩ : ∃ n, max = n + 1 := ⟨max - 1, by omega⟩
  exact h.seq (local_greedy h.toLocal min max)

/-! ## The first letter of a match -/

/-- What a set of first letters says about a matcher: on a letter outside of it nothing is read, and
if nothing is never a match, then there is none. -/
structure Opens (m : Matcher α ρ) (first : α → Bool) (nullable : Bool) : Prop where
  /-- Outside of the set the continuation is asked where the matcher stands, or not at all. -/
  skips : ∀ a s k, first a = false → k (a :: s) = none → m (a :: s) k = none
  /-- Where a match must read something, it must begin in the set. -/
  fails : ∀ a s k, first a = false → nullable = false → m (a :: s) k = none

theorem opens_single : Opens (single p : Matcher α ρ) p false where
  skips a s k ha _ := by rw [single_cons, ha]; rfl
  fails a s k ha _ := by rw [single_cons, ha]; rfl

theorem opens_skip : Opens (fun s k => k s : Matcher α ρ) (fun _ => false) true where
  skips _ _ _ _ hk := hk
  fails _ _ _ _ h := nomatch h

theorem opens_notAhead :
    Opens (notAhead p : Matcher α ρ) (fun _ => false) true where
  skips a s k _ hk := by rw [notAhead_cons, hk, ite_self]
  fails _ _ _ _ h := nomatch h

variable {f : α → Bool} {n n' : Bool}

theorem Opens.mono {g : α → Bool} (h : Opens m f n) (hf : ∀ a, g a = false → f a = false)
    (hn : n' = false → n = false) : Opens m g n' where
  skips a s k ha hk := h.skips a s k (hf a ha) hk
  fails a s k ha hnull := h.fails a s k (hf a ha) (hn hnull)

theorem Opens.seq {f' : α → Bool} (h : Opens m f true) (h' : Opens m' f' n') :
    Opens (fun s k => m s fun s' => m' s' k) (fun a => f a || f' a) n' where
  skips a s k ha hk := by
    obtain ⟨hf, hf'⟩ := Bool.or_eq_false_iff.mp ha
    exact h.skips a s _ hf (h'.skips a s k hf' hk)
  fails a s k ha hn := by
    obtain ⟨hf, hf'⟩ := Bool.or_eq_false_iff.mp ha
    exact h.skips a s _ hf (h'.fails a s k hf' hn)

theorem Opens.seq_of_false (h : Opens m f false) :
    Opens (fun s k => m s fun s' => m' s' k) f false where
  skips a s _ ha _ := h.fails a s _ ha rfl
  fails a s _ ha _ := h.fails a s _ ha rfl

theorem Opens.alt {f' : α → Bool} (h : Opens m f n) (h' : Opens m' f' n') :
    Opens (fun s k => (m s k).or (m' s k)) (fun a => f a || f' a) (n || n') where
  skips a s k ha hk := by
    obtain ⟨hf, hf'⟩ := Bool.or_eq_false_iff.mp ha
    simp only [h.skips a s k hf hk, h'.skips a s k hf' hk, Option.or_none]
  fails a s k ha hn := by
    obtain ⟨hf, hf'⟩ := Bool.or_eq_false_iff.mp ha
    obtain ⟨hn, hn'⟩ := Bool.or_eq_false_iff.mp hn
    simp only [h.fails a s k hf hn, h'.fails a s k hf' hn', Option.or_none]

theorem Opens.greedy_skips (h : Opens m f n) (min max : Nat) (a : α) (s : List α)
    (k : List α → Option ρ) (ha : f a = false) (hk : k (a :: s) = none) :
    greedy m min max (a :: s) k = none := by
  induction max generalizing min with
  | zero => simpa using hk
  | succ max ih =>
    cases min with
    | zero => rw [greedy_zero_succ, h.skips a s _ ha (ih 0), hk, Option.or_none]
    | succ min => exact h.skips a s _ ha (ih min)

theorem opens_greedy (h : Opens m f n) {min : Nat} (hmax : min ≤ max) :
    Opens (greedy m min max) f (min == 0 || n) where
  skips := h.greedy_skips min max
  fails a s k ha hn := by
    obtain ⟨hmin, hn⟩ := Bool.or_eq_false_iff.mp hn
    obtain ⟨min, rfl⟩ := Nat.exists_eq_succ_of_ne_zero (beq_eq_false_iff_ne.mp hmin)
    obtain ⟨max, rfl⟩ : ∃ n, max = n + 1 := ⟨max - 1, by omega⟩
    exact h.fails a s _ ha hn

/-! ## Runs of one class -/

/-- The continuation after `min + extra` letters, then after one fewer, down to `min`. -/
def backOff (s : List α) (k : List α → Option ρ) (min : Nat) : (extra : Nat) → Option ρ
  | 0 => k (s.drop min)
  | extra + 1 => (k (s.drop (min + extra + 1))).or (backOff s k min extra)

/-- How many letters of the class stand at the front, `max` at most. -/
def runLength (p : α → Bool) (max : Nat) (s : List α) : Nat := ((s.take max).takeWhile p).length

theorem runLength_le (max : Nat) (s : List α) : runLength p max s ≤ s.length :=
  (takeWhile_sublist p).length_le.trans (take_sublist max s).length_le

theorem runLength_nil (max : Nat) : runLength p max [] = 0 := by
  simp [runLength]

@[simp] theorem runLength_zero (s : List α) : runLength p 0 s = 0 := by
  simp [runLength]

variable {p} {a : α}

theorem runLength_cons_pos (ha : p a = true) (max : Nat) (s : List α) :
    runLength p (max + 1) (a :: s) = runLength p max s + 1 := by
  simp [runLength, ha]

theorem runLength_cons_neg (ha : p a = false) (max : Nat) (s : List α) :
    runLength p max (a :: s) = 0 := by
  cases max <;> simp [runLength, ha]

section

variable (a) (s : List α) (k : List α → Option ρ)

theorem backOff_cons (min extra : Nat) :
    backOff (a :: s) k (min + 1) extra = backOff s k min extra := by
  induction extra with
  | zero => rfl
  | succ extra ih =>
    rw [backOff, backOff, ih, show min + 1 + extra + 1 = min + extra + 1 + 1 by omega,
      drop_succ_cons]

theorem backOff_zero_cons (extra : Nat) :
    backOff (a :: s) k 0 (extra + 1) = (backOff s k 0 extra).or (k (a :: s)) := by
  induction extra with
  | zero => rfl
  | succ extra ih =>
    rw [backOff, ih, backOff, Option.or_assoc]
    simp

end

variable (p)

/-- **A repetition of one class is its longest run, given back one letter at a time.** -/
theorem greedy_single (min max : Nat) (s : List α) (k : List α → Option ρ)
    (hmax : min ≤ max) :
    greedy (single p) min max s k =
      if runLength p max s < min then none else backOff s k min (runLength p max s - min) := by
  induction max generalizing min s with
  | zero =>
    obtain rfl : min = 0 := by omega
    simp [backOff]
  | succ max ih =>
    cases s with
    | nil =>
      rw [runLength_nil]
      cases min with
      | zero => simp [greedy_zero_succ, backOff]
      | succ min => simp [greedy_succ_succ]
    | cons a s =>
      cases ha : p a with
      | false =>
        rw [runLength_cons_neg ha]
        cases min with
        | zero => simp [greedy_zero_succ, single_cons, ha, backOff]
        | succ min => simp [greedy_succ_succ, single_cons, ha]
      | true =>
        rw [runLength_cons_pos ha]
        cases min with
        | zero =>
          rw [greedy_zero_succ, single_cons, if_pos ha, ih 0 s (Nat.zero_le _), if_neg (by omega),
            if_neg (by omega), Nat.sub_zero, Nat.sub_zero, backOff_zero_cons]
        | succ min =>
          rw [greedy_succ_succ, single_cons, if_pos ha, ih min s (by omega), backOff_cons,
            Nat.add_sub_add_right]
          simp

theorem greedy_single_some (max : Nat) (s : List α) (f : List α → ρ) :
    greedy (single p) 0 max s (fun s' => some (f s')) = some (f (s.drop (runLength p max s))) := by
  rw [greedy_single p 0 max s _ (Nat.zero_le max)]
  cases runLength p max s with
  | zero => rfl
  | succ n => simp [backOff]

variable {p} {s : List α}

theorem drop_runLength (h : s.length ≤ max) : s.drop (runLength p max s) = s.dropWhile p := by
  rw [runLength, take_of_length_le h]
  calc s.drop (s.takeWhile p).length
      = (s.takeWhile p ++ s.dropWhile p).drop (s.takeWhile p).length := by
        rw [takeWhile_append_dropWhile]
    _ = s.dropWhile p := drop_left

/-! ## Repetitions without a bound -/

/-- Letters of a class, any number of them, as many as possible first. -/
def star (p : α → Bool) : Matcher α ρ
  | [], k => k []
  | a :: s, k => (if p a then star p s k else none).or (k (a :: s))

def plus (p : α → Bool) : Matcher α ρ
  | [], _ => none
  | a :: s, k => if p a then star p s k else none

section

variable (p a s) (k : List α → Option ρ)

theorem star_cons :
    star p (a :: s) k = (if p a then star p s k else none).or (k (a :: s)) := rfl

theorem plus_cons :
    plus p (a :: s) k = if p a then star p s k else none := rfl

end

variable (p)

/-- A bound that the list does not reach is none. -/
theorem greedy_zero_eq_star (k : List α → Option ρ) (h : s.length ≤ max) :
    greedy (single p) 0 max s k = star p s k := by
  induction s generalizing max with
  | nil => cases max <;> simp [greedy, star]
  | cons a s ih =>
    obtain ⟨max, rfl⟩ : ∃ m, max = m + 1 := ⟨max - 1, by simp at h; omega⟩
    rw [greedy_zero_succ, single_cons, star_cons, ih (by simpa using h)]

theorem greedy_one_eq_plus (k : List α → Option ρ) (h : s.length ≤ max)
    (hmax : max ≠ 0) : greedy (single p) 1 max s k = plus p s k := by
  obtain ⟨max, rfl⟩ := Nat.exists_eq_succ_of_ne_zero hmax
  cases s with
  | nil => rfl
  | cons a s =>
    rw [greedy_succ_succ, single_cons, plus_cons, greedy_zero_eq_star p k (by simpa using h)]

theorem star_some (s : List α) (f : List α → ρ) :
    star p s (fun s' => some (f s')) = some (f (s.dropWhile p)) := by
  rw [← greedy_zero_eq_star p _ (le_refl s.length), greedy_single_some, drop_runLength (le_refl _)]

theorem plus_some (a : α) (s : List α) (f : List α → ρ) :
    plus p (a :: s) (fun s' => some (f s')) = if p a then some (f (s.dropWhile p)) else none := by
  rw [plus_cons, star_some]

variable {p} in
theorem greedy_replicate (ha : p a = true) (max n : Nat) (f : List α → ρ) :
    greedy (single p) 1 (max + 1) (replicate (max + 1 + n) a) (fun s' => some (f s')) =
      some (f (replicate n a)) := by
  have hrun : runLength p max (replicate (max + n) a) = max := by
    rw [runLength, take_replicate, min_eq_left (Nat.le_add_right _ _),
      takeWhile_replicate, if_pos ha, length_replicate]
  rw [Nat.add_right_comm, replicate_succ, greedy_succ_succ, single_cons, if_pos ha,
    greedy_single_some, hrun, drop_replicate, Nat.add_sub_cancel_left]

theorem star_map {ρ' : Type} (s : List α) (k : List α → Option ρ) (f : ρ → ρ') :
    star p s (fun s' => (k s').map f) = (star p s k).map f := by
  induction s with
  | nil => rfl
  | cons a s ih =>
    rw [star_cons, star_cons, ih, Option.map_or]
    cases p a <;> rfl

theorem plus_map {ρ' : Type} (s : List α) (k : List α → Option ρ) (f : ρ → ρ') :
    plus p s (fun s' => (k s').map f) = (plus p s k).map f := by
  cases s with
  | nil => rfl
  | cons a s =>
    rw [plus_cons, plus_cons, star_map]
    cases p a <;> rfl

theorem star_eq_backOff (s : List α) (k : List α → Option ρ) :
    star p s k = backOff s k 0 (runLength p s.length s) := by
  rw [← greedy_zero_eq_star p k (le_refl s.length), greedy_single p 0 _ s k (Nat.zero_le _),
    if_neg (Nat.not_lt_zero _), Nat.sub_zero]

/-- A letter of the class stands here; nothing is read. -/
def here (p : α → Bool) : List α → Option (List α)
  | [] => none
  | a :: s => if p a then some (a :: s) else none

theorem plus_eq_here (s : List α) :
    plus p s some = (here p s).map (dropWhile p) := by
  cases s with
  | nil => rfl
  | cons a s =>
    rw [plus_some, here]
    cases ha : p a <;> simp [ha]

/-- What is behind the last letter of a second class in the run of a first one. -/
def lastMarked (p q : α → Bool) : List α → Option (List α)
  | [] => none
  | a :: s => if p a then (lastMarked p q s).or (if q a then some s else none) else none

/-- **A run in front of a required class gives back to its last letter of that class**, and the
required run is that letter alone. -/
theorem star_plus_eq (p q : α → Bool) (s : List α) :
    (star p s fun s' => plus q s' some) =
      (plus q (s.dropWhile p) some).or (lastMarked p q s) := by
  induction s with
  | nil => rfl
  | cons a s ih =>
    rw [star_cons, lastMarked, dropWhile_cons]
    cases ha : p a with
    | false => simp
    | true =>
      rw [if_pos rfl, if_pos rfl, ih]
      cases hp : plus q (s.dropWhile p) some with
      | some r => rfl
      | none =>
        cases hm : lastMarked p q s with
        | some r => rfl
        | none =>
          -- neither the next letter of the run nor what follows the run is of the class
          have hstop : s.dropWhile q = s := by
            cases s with
            | nil => rfl
            | cons b s =>
              cases hb : q b with
              | false => simp [hb]
              | true =>
                cases hpb : p b with
                | false =>
                  rw [dropWhile_cons_of_neg (by simp [hpb]), plus_eq_here] at hp
                  simp [here, hb] at hp
                | true => simp [lastMarked, hpb, hb] at hm
          have hplus := plus_some q a s id
          simp only [hstop] at hplus
          simpa using hplus

theorem greedy_optional (p : α → Bool) (a : α) (s : List α) (k : List α → Option ρ) :
    greedy (single p) 0 1 (a :: s) k = (if p a then k s else none).or (k (a :: s)) := by
  rw [greedy_zero_succ, single_cons, greedy_zero_max]

end Smg.Backtrack
