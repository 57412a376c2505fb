import Smg.Lib.BoundedRuns
import Smg.Tokenizer.TemplateScanner

/-!
# What the scanners' loops find

The scanners walk bytes; what they find is said here in characters.  Every loop of a scanner that
stands before `rest` leads to the position of some part of `rest`: a run ends where `dropWhile`
does, the last line break is where a greedy run of whitespace gives back to, and the whitespace
before a non-space gives back one character at a time.

`tailFind` puts the alternatives three to seven together with the repetitions of
`Smg.Lib.Backtrack`, and `tailMatch_eq` says that the scanner finds the same.  `tailWithin` has
bounds on the runs; `tailFits` says when they make no difference.
-/

set_option autoImplicit false

namespace Smg.Tokenizer

open Backtrack Utf8 List TailRole Option

variable {M : Membership} {text rest : Text} {pos : Nat}

namespace Bits

theorem has_holds (roleClasses : List Class) (c : Char) (slot : Nat) :
    has (ofClasses M roleClasses c) (1 <<< slot) = Node.holds M roleClasses slot c := by
  rw [has_shiftLeft, testBit_ofClasses]
  rfl

end Bits

namespace Roles

variable {roleClasses : List Class}

theorem length_le_encode (s : Text) : s.length ≤ (encode s).length := by
  induction s with
  | nil => exact le_refl 0
  | cons c s ih =>
    have : 0 < (String.utf8EncodeChar c).length := size_pos c
    rw [encode_cons, length_append, length_cons]
    omega

theorem offset_inj {r r' : Text} (h : r <:+ text) (h' : r' <:+ text)
    (heq : offset text r = offset text r') : r = r' := by
  have key : ∀ {a b : Text}, a <:+ b → b <:+ text → offset text a = offset text b → a = b := by
    rintro a _ ⟨x, rfl⟩ hb heq
    have := length_encode_le hb
    have := length_le_encode x
    rw [offset, offset, encode_append, length_append] at *
    obtain rfl : x = [] := length_eq_zero_iff.mp (by omega)
    rfl
  rcases suffix_or_suffix_of_suffix h h' with hr | hr
  · exact key hr h' heq
  · exact (key hr h heq.symm).symm

theorem map_offset_inj {o o' : Option Text} (h : ∀ r ∈ o, r <:+ text) (h' : ∀ r ∈ o', r <:+ text) :
    o.map (offset text) = o'.map (offset text) ↔ o = o' := by
  refine ⟨fun heq => ?_, congrArg _⟩
  cases o with
  | none => exact (map_eq_none_iff.mp heq.symm).symm
  | some r =>
    obtain ⟨r', hr', heq⟩ := map_eq_some_iff.mp heq.symm
    rw [hr', offset_inj (h' r' hr') (h r rfl) heq]

theorem length_le_turns (h : Stands text pos rest) : rest.length ≤ (encode text).length :=
  (length_le_encode rest).trans (length_encode_le h.suffix)

variable {slot turns : Nat}

section

variable (h : Stands text pos rest)

include h

theorem runEndFrom_eq (ht : rest.length ≤ turns) :
    (build M roleClasses).runEndFrom M text (1 <<< slot) turns pos =
      offset text (rest.dropWhile (Node.holds M roleClasses slot)) := by
  induction turns generalizing pos rest with
  | zero =>
    obtain rfl := length_eq_zero_iff.mp (Nat.le_zero.mp ht)
    exact h.offset_eq.symm
  | succ turns ih =>
    cases rest with
    | nil => simp [runEndFrom, bitsAt_nil h, h.offset_eq]
    | cons c rest =>
      rw [runEndFrom, bitsAt_cons h]
      simp only [Bits.has_holds, dropWhile_cons]
      split
      · exact ih h.next (by simpa using ht)
      · exact h.offset_eq.symm

theorem runEnd_eq : (build M roleClasses).runEnd M text pos (1 <<< slot) =
      offset text (rest.dropWhile (Node.holds M roleClasses slot)) :=
  runEndFrom_eq h (length_le_turns h)

theorem stands_dropWhile (p : Char → Bool) :
    Stands text (offset text (rest.dropWhile p)) (rest.dropWhile p) :=
  stands_offset ((dropWhile_suffix p).trans h.suffix)

theorem plusEnd_eq : (build M roleClasses).plusEnd M text pos (1 <<< slot) =
      (plus (Node.holds M roleClasses slot) rest some).map (offset text) := by
  cases rest with
  | nil => simp [plusEnd, bitsAt_nil h, plus]
  | cons c rest =>
    rw [plusEnd, bitsAt_cons h]
    simp only [Bits.has_holds, runEnd_eq h.next]
    rw [plus_some]
    split <;> rfl

theorem cappedEnd_eq {left : Nat} : (build M roleClasses).cappedEnd M text (1 <<< slot) left pos =
      offset text (rest.drop (runLength (Node.holds M roleClasses slot) left rest)) := by
  induction left generalizing pos rest with
  | zero => simp [cappedEnd, h.offset_eq]
  | succ left ih =>
    cases rest with
    | nil => simp [cappedEnd, bitsAt_nil h, h.offset_eq]
    | cons c rest =>
      rw [cappedEnd, bitsAt_cons h]
      simp only [Bits.has_holds]
      split
      next hc => rw [ih h.next, runLength_cons_pos hc, drop_succ_cons]
      next hc =>
        rw [runLength_cons_neg (Bool.not_eq_true _ ▸ hc), drop_zero, h.offset_eq]

end

/-- What the role of a tail behind `base` others holds. -/
def tailHolds (M : Membership) (roleClasses : List Class) (base : Nat) (r : TailRole) (c : Char) :
    Bool :=
  Node.holds M roleClasses (base + r.index) c

theorem has_tailHolds (base : Nat) (r : TailRole) (c : Char) :
    (Bits.ofClasses M roleClasses c).has (bit base r) =
      tailHolds M roleClasses base r c :=
  Bits.has_holds roleClasses c _

variable {base : Nat}

theorem lastBreakFrom_eq {last : Option Nat} (h : Stands text pos rest) (ht : rest.length ≤ turns) :
    (build M roleClasses).lastBreakFrom M text base turns pos last =
      ((star (tailHolds M roleClasses base .breakSpace) rest
        (here (tailHolds M roleClasses base .lineBreak))).map (offset text)).or last := by
  induction turns generalizing pos rest last with
  | zero =>
    obtain rfl := length_eq_zero_iff.mp (Nat.le_zero.mp ht)
    rfl
  | succ turns ih =>
    cases rest with
    | nil => simp [lastBreakFrom, bitsAt_nil h, Backtrack.star, here]
    | cons c rest =>
      rw [lastBreakFrom, bitsAt_cons h, star_cons, here, Option.map_or, Option.or_assoc]
      simp only [has_tailHolds]
      split
      next hspace =>
        rw [ih h.next (by simpa using ht)]
        split <;> simp [h.offset_eq]
      next hspace =>
        split <;> simp [h.offset_eq]

theorem blocked_eq (base : Nat) (h : Stands text pos rest) :
    (build M roleClasses).blocked M text base pos =
      rest.head?.any (tailHolds M roleClasses base .notTrail) := by
  cases rest with
  | nil => rw [blocked, bitsAt_nil h]; rfl
  | cons c rest =>
    rw [blocked, bitsAt_cons h]
    exact has_tailHolds base .notTrail c

variable {c : Char}

/-- Going back from the end of a run of whitespace, one character at a time. -/
theorem trailFrom_eq {start extra : Nat} (hstart : Stands text start (c :: rest))
    (hextra : extra ≤ rest.length) (ht : extra < turns) :
    (build M roleClasses).trailFrom M text base start turns (offset text (rest.drop extra)) =
      (backOff rest (fun s => notAhead (tailHolds M roleClasses base .notTrail) s some) 0
        extra).map (offset text) := by
  induction extra generalizing turns with
  | zero =>
    obtain ⟨turns, rfl⟩ := Nat.exists_eq_succ_of_ne_zero (ne_of_gt ht)
    have hst : Stands text (offset text rest) rest := stands_offset hstart.next.suffix
    have hprev : previousBoundary text (offset text rest) = start := by
      rw [hstart.next.offset_eq, hstart.previousBoundary]
    rw [trailFrom, backOff, notAhead_some, drop_zero, blocked_eq base hst,
      hprev]
    split <;> simp
  | succ extra ih =>
    obtain ⟨turns, rfl⟩ := Nat.exists_eq_succ_of_ne_zero (ne_of_gt (Nat.zero_lt_of_lt ht))
    have hdrop : rest.drop extra = rest[extra] :: rest.drop (extra + 1) :=
      drop_eq_getElem_cons hextra
    have hbefore := stands_offset ((drop_suffix extra rest).trans hstart.next.suffix)
    have hst := stands_offset ((drop_suffix (extra + 1) rest).trans hstart.next.suffix)
    have hprev : previousBoundary text (offset text (rest.drop (extra + 1))) =
        offset text (rest.drop extra) := by
      generalize offset text (rest.drop extra) = before at hbefore ⊢
      rw [hdrop] at hbefore
      rw [hbefore.next.offset_eq, hbefore.previousBoundary]
    have hne : offset text (rest.drop extra) ≠ start := by
      have h1 := hbefore.length_eq
      have h2 := hstart.length_eq
      have h3 := length_encode_le (drop_suffix extra rest)
      have h4 : 0 < (String.utf8EncodeChar c).length := size_pos c
      rw [encode_cons, length_append] at h2
      omega
    rw [trailFrom, blocked_eq base hst, hprev, if_neg hne,
      ih (Nat.le_of_succ_le hextra) (Nat.lt_of_succ_lt_succ ht), backOff, zero_add,
      notAhead_some]
    split <;> simp

/-! ## The tail -/

/-- Alternatives three to seven: what is left of the text when the first of them has matched. -/
def tailFind (holds : TailRole → Char → Bool) (digitCap : Nat) (s : Text) : Option Text :=
  (greedy (single (holds .digit)) 1 digitCap s some).or <|
  (greedy (single (holds .punctLead)) 0 1 s fun s =>
    plus (holds .punct) s fun s => Backtrack.star (holds .punctBreak) s some).or <|
  (Backtrack.star (holds .breakSpace) s fun s => plus (holds .lineBreak) s some).or <|
  (plus (holds .trailSpace) s fun s => notAhead (holds .notTrail) s some).or <|
  plus (holds .space) s some

/-- A run found at some rest of the text is followed by another. -/
theorem map_runEnd_eq {found : Option Text} (hfound : ∀ s ∈ found, s <:+ text) :
    (found.map (offset text)).map ((build M roleClasses).runEnd M text · (1 <<< slot)) =
      (found.map (dropWhile (Node.holds M roleClasses slot))).map (offset text) := by
  cases found with
  | none => rfl
  | some s => simp [runEnd_eq (stands_offset (hfound s rfl))]

theorem suffix_of_plus {p : Char → Bool} {s r : Text} (h : plus p s some = some r) : r <:+ s :=
  local_plus.suffix h

theorem here_eq_guard (p : Char → Bool) : here p = guard fun s => s.head?.any p := by
  funext s
  cases s <;> rfl

theorem suffix_of_star_here {p q : Char → Bool} {s r : Text} (h : star p s (here q) = some r) :
    r <:+ s := by
  rw [here_eq_guard] at h
  obtain ⟨u, hs, -⟩ := star_guard h
  exact ⟨u, hs.symm⟩

theorem digits_eq (p : Char → Bool) {cap : Nat} (hcap : cap ≠ 0) (c : Char) (s : Text) :
    greedy (single p) 1 cap (c :: s) some =
      if p c then some (s.drop (runLength p (cap - 1) s)) else none := by
  obtain ⟨cap, rfl⟩ := Nat.exists_eq_succ_of_ne_zero hcap
  exact congrArg (fun o => if p c then o else none) (greedy_single_some p cap s id)

theorem star_id (p : Char → Bool) (s : Text) : star p s some = some (s.dropWhile p) :=
  star_some p s id

theorem punct_eq (lead punct brk : Char → Bool) (c : Char) (s : Text) :
    (greedy (single lead) 0 1 (c :: s) fun s =>
      plus punct s fun s => star brk s some) =
      ((if lead c then plus punct s some else none).or (plus punct (c :: s) some)).map
        (dropWhile brk) := by
  have hplus : ∀ s, (plus punct s fun s => star brk s some) =
      (plus punct s some).map (dropWhile brk) := fun s => by
    rw [← plus_map]
    exact congrArg (plus punct s) (funext fun s => star_id brk s)
  rw [greedy_optional, hplus, hplus, map_or]
  split <;> rfl

theorem breaks_eq (space brk : Char → Bool) (s : Text) :
    (star space s fun s => plus brk s some) =
      (star space s (here brk)).map (dropWhile brk) := by
  rw [← star_map]
  exact congrArg (star space s) (funext fun s => plus_eq_here brk s)

theorem digitMatch_eq {digitCap : Nat} (hcap : digitCap ≠ 0) (h : Stands text pos (c :: rest)) :
    (build M roleClasses).digitMatch M text base digitCap (Bits.ofClasses M roleClasses c)
      (pos + size c) =
      (greedy (single (tailHolds M roleClasses base .digit)) 1 digitCap (c :: rest) some).map
        (offset text) := by
  rw [digitMatch, has_tailHolds, digits_eq _ hcap, bit, cappedEnd_eq h.next]
  split <;> rfl

theorem punctMatch_eq (h : Stands text pos (c :: rest)) :
    (build M roleClasses).punctMatch M text base pos (Bits.ofClasses M roleClasses c)
      (pos + size c) =
      (greedy (single (tailHolds M roleClasses base .punctLead)) 0 1 (c :: rest) fun s =>
        plus (tailHolds M roleClasses base .punct) s fun s =>
          star (tailHolds M roleClasses base .punctBreak) s some).map (offset text) := by
  have hstop : (if tailHolds M roleClasses base .punctLead c then
        (build M roleClasses).plusEnd M text (pos + size c) (bit base .punct)
      else none).or ((build M roleClasses).plusEnd M text pos (bit base .punct)) =
      ((if tailHolds M roleClasses base .punctLead c then
        plus (tailHolds M roleClasses base .punct) rest some else none).or
        (plus (tailHolds M roleClasses base .punct) (c :: rest) some)).map (offset text) := by
    rw [map_or, bit, plusEnd_eq h.next, plusEnd_eq h]
    split <;> rfl
  rw [punctMatch, has_tailHolds, hstop, punct_eq]
  refine map_runEnd_eq fun s hs => ?_
  rcases or_eq_some_iff.mp hs with hs | ⟨-, hs⟩
  · split at hs
    · exact (suffix_of_plus hs).trans h.next.suffix
    · cases hs
  · exact (suffix_of_plus hs).trans h.suffix

theorem breakMatch_eq (h : Stands text pos rest) :
    (build M roleClasses).breakMatch M text base pos =
      (star (tailHolds M roleClasses base .breakSpace) rest fun s =>
        plus (tailHolds M roleClasses base .lineBreak) s some).map (offset text) := by
  rw [breakMatch, lastBreakFrom_eq h (length_le_turns h), or_none, breaks_eq]
  exact map_runEnd_eq fun s hs => (suffix_of_star_here hs).trans h.suffix

theorem trailMatch_eq (h : Stands text pos (c :: rest)) :
    (build M roleClasses).trailMatch M text base pos (Bits.ofClasses M roleClasses c)
      (pos + size c) =
      (plus (tailHolds M roleClasses base .trailSpace) (c :: rest) fun s =>
        notAhead (tailHolds M roleClasses base .notTrail) s some).map (offset text) := by
  have hlen := length_le_turns h
  have hle := runLength_le (tailHolds M roleClasses base .trailSpace) rest.length rest
  have hend : (build M roleClasses).runEnd M text (pos + size c) (bit base .trailSpace) =
      offset text (rest.drop
        (runLength (tailHolds M roleClasses base .trailSpace) rest.length rest)) := by
    rw [drop_runLength (le_refl _), bit, runEnd_eq h.next]
    rfl
  rw [trailMatch, has_tailHolds, hend, trailFrom_eq h hle (by simp at hlen; omega), plus_cons,
    star_eq_backOff]
  split <;> rfl

/-- **The scanner of the tail finds what the tail's alternatives match.** -/
theorem tailMatch_eq {digitCap : Nat} (hcap : digitCap ≠ 0) (h : Stands text pos (c :: rest)) :
    (build M roleClasses).tailMatch M text base digitCap pos (Bits.ofClasses M roleClasses c)
      (pos + size c) =
      (tailFind (tailHolds M roleClasses base) digitCap (c :: rest)).map (offset text) := by
  rw [tailMatch, tailFind, digitMatch_eq hcap h, punctMatch_eq h, breakMatch_eq h, trailMatch_eq h,
    bit, plusEnd_eq h]
  simp only [map_or]
  rfl

/-! ## The tail with bounds -/

section

variable {p q : Char → Bool} {b' v' : Option Text} {later : Prop} {n : Nat} {s : Text}
  (hlater : b' = v' ↔ later) (lead : Bool)

include hlater

theorem runs_or_iff :
    (if lead then (greedy (single p) 1 (n + 1) s some).map (behind (n + 1) q) else none).or b' =
        ((if lead then plus p s some else none).map (dropWhile q)).or v' ↔
      byFirst (if lead then plus p s some else none) (FitsAt (n + 1) q s) later := by
  refine or_eq_or_iff rfl (fun hnone => ?_) (fun t ht => ?_) hlater
  · split
    next hlead =>
      rw [if_pos hlead] at hnone
      rw [greedy_one_eq_none (fun _ h => h) hnone, map_none]
    next => rfl
  · cases lead with
    | true => exact plus_or_iff q ht b'
    | false => cases ht

theorem run_or_iff :
    (if lead then greedy (single p) 1 (n + 1) s some else none).or b' =
        (if lead then plus p s some else none).or v' ↔
      byFirst (if lead then plus p s some else none) (FitsAt (n + 1) (fun _ => false) s) later := by
  have := @runs_or_iff p (fun _ => false) b' v' later n s hlater lead
  rwa [map_behind_false, show dropWhile (fun _ : Char => false) = id from funext dropWhile_false,
    map_id_apply] at this

end

/-- The alternatives of `tailFind` with every run bounded. -/
def tailWithin (bound : Nat) (holds : TailRole → Char → Bool) (digitCap : Nat) (s : Text) :
    Option Text :=
  (greedy (single (holds .digit)) 1 digitCap s some).or <|
  (greedy (single (holds .punctLead)) 0 1 s fun s =>
    greedy (single (holds .punct)) 1 bound s fun s =>
      greedy (single (holds .punctBreak)) 0 bound s some).or <|
  (greedy (single (holds .breakSpace)) 0 bound s fun s =>
    greedy (single (holds .lineBreak)) 1 bound s some).or <|
  (greedy (single (holds .trailSpace)) 1 bound s fun s => notAhead (holds .notTrail) s some).or <|
  greedy (single (holds .space)) 1 bound s some

/-- The runs of the first alternative that matches fit the bound. -/
def tailFits (bound : Nat) (holds : TailRole → Char → Bool) (digitCap : Nat) (c : Char) (s : Text) :
    Prop :=
  byFirst (greedy (single (holds .digit)) 1 digitCap (c :: s) some) (fun _ => True) <|
  byFirst (if holds .punctLead c then plus (holds .punct) s some else none)
    (FitsAt bound (holds .punctBreak) s) <|
  byFirst (plus (holds .punct) (c :: s) some) (FitsAt bound (holds .punctBreak) (c :: s)) <|
  byFirst (star (holds .breakSpace) (c :: s) (here (holds .lineBreak)))
    (FitsAt bound (holds .lineBreak) (c :: s)) <|
  byFirst (plus (holds .trailSpace) (c :: s) fun s => notAhead (holds .notTrail) s some)
    (FitsAt bound (fun _ => false) (c :: s)) <|
  byFirst (plus (holds .space) (c :: s) some) (FitsAt bound (fun _ => false) (c :: s)) True

variable {holds : TailRole → Char → Bool} {digitCap n : Nat} {s r : Text}

theorem notAhead_eq_guard (p : Char → Bool) :
    (fun s => notAhead p s some) = guard fun s => !s.head?.any p := by
  funext s
  rw [notAhead_some, Option.guard]
  cases s.head?.any p <;> rfl

/-- **When bounds make no difference to the tail.** -/
theorem tailWithin_eq_iff : tailWithin (n + 1) holds digitCap (c :: s) =
    tailFind holds digitCap (c :: s) ↔ tailFits (n + 1) holds digitCap c s := by
  have hspace : ∀ r ∈ greedy (single (holds .space)) 1 (n + 1) (c :: s) some,
      (c :: s).length - r.length ≤ n + 1 := fun r hr => length_le_of_greedy (g := fun _ => true) hr
  rw [tailWithin, tailFind, tailFits, punct_eq, breaks_eq, greedy_optional,
    greedy_then_star, greedy_then_star, greedy_then_plus, notAhead_eq_guard, Option.map_or,
    Option.or_assoc, Option.or_assoc]
  refine or_eq_or_iff (f := id) (by simp) id (fun t ht => by simp [ht]) ?_
  refine runs_or_iff (runs_or_iff ?_ true) _
  refine or_eq_or_iff rfl (fun hnone => ?_) (fun t ht => ?_) ?_
  · rw [greedy_zero_eq_none (fun _ h => h) hnone, map_none]
  · rw [here_eq_guard] at ht ⊢
    refine (cut_of_star (fun a s ha => ha) ht _ _).or_eq_iff fun _ r hr => ?_
    rcases or_eq_some_iff.mp hr with hr | ⟨-, hr⟩
    · exact length_le_of_greedy hr
    · exact hspace r hr
  refine or_eq_or_iff (f := id) (by simp) (fun hnone => ?_) (fun t ht => ?_) ?_
  · exact greedy_one_eq_none (fun _ h => h) hnone n
  · have := (cut_of_plus (q := fun _ => false) nofun ht n (n + 1)).or_eq_iff fun _ => hspace
    rwa [map_behind_false, dropWhile_false] at this
  have hlast := @run_or_iff (holds .space) none none True n (c :: s) (iff_of_true rfl trivial) true
  rwa [or_none, or_none] at hlast

theorem suffix_of_tailFind (h : tailFind holds digitCap s = some r) : r <:+ s := by
  have hsingle : ∀ p : Char → Bool, Local (single p : Matcher Char Text) := fun p =>
    (consumes_single p).toLocal
  have hlocal := (local_greedy (hsingle (holds .digit)) 1 digitCap).alt <|
    ((local_greedy (hsingle (holds .punctLead)) 0 1).seq
      ((local_plus (p := holds .punct)).seq (local_star (p := holds .punctBreak)))).alt <|
    ((local_star (p := holds .breakSpace)).seq (local_plus (p := holds .lineBreak))).alt <|
    ((local_plus (p := holds .trailSpace)).seq (local_notAhead (holds .notTrail))).alt
    (local_plus (p := holds .space))
  exact hlocal.suffix h

theorem tailFits_of_length_le (h : (c :: s).length ≤ n) : tailFits n holds digitCap c s := by
  refine byFirst_of (fun _ _ => trivial) (byFirst_of (fun t ht => ?_) (byFirst_of (fun t ht => ?_)
    (byFirst_of (fun t ht => ?_)
      (byFirst_of (fun t ht => ?_) (byFirst_of (fun t ht => ?_) trivial)))))
  · split at ht
    · exact fitsAt_of_length_le (Nat.le_of_succ_le h) (suffix_of_plus ht)
    · cases ht
  · exact fitsAt_of_length_le h (suffix_of_plus ht)
  · exact fitsAt_of_length_le h (suffix_of_star_here ht)
  · exact fitsAt_of_length_le h ((local_plus.seq (local_notAhead _)).suffix ht)
  · exact fitsAt_of_length_le h (suffix_of_plus ht)

end Roles

end Smg.Tokenizer
