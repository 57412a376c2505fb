import Smg.Tokenizer.TemplateCorrect

/-!
# The cased-letter scanner

`cased.rs`.  The template whose letter runs are cut by case: two letter alternatives, each with an
optional lead-in, an upper run and a lower run, of which one is required, and perhaps a clitic; then
the alternatives of `Smg.Tokenizer.TemplateScanner`'s tail.

The upper and the lower class may share characters, and then the upper run of the first alternative
has to give back.  The scanner does not try: if no lower character follows the upper run, it cuts
behind the last character of the run that is also a lower one, `lastMarked`.  `star_plus_eq` is why:
**a run gives back to its last character of the required class, and takes that one alone**.

Against the bound of the program the letters are two runs like others, but for what follows them: a
clitic may begin where the runs are cut and end where the unbounded match does, and so may the
alternatives after a letter alternative that the bound makes fail.  So `LetterRuns.Fit` asks of the
first letter alternative that matches that its runs fit, or that what they leave is `TakenUp`.
-/

set_option autoImplicit false

namespace Smg.Tokenizer

open Backtrack Utf8 Node Roles Option List

namespace Cased

/-! ## Shapes -/

/-- The clitics of an optional group of literal sequences. -/
def cliticGroup : Node → Option (List (List Nat))
  | .repeatGroup (.alt alternatives) 0 1 => do
    let clitics ← alternatives.mapM cliticClasses
    if clitics = [] ∨ clitics.any List.isEmpty then none else some clitics
  | _ => none

/-- A letter alternative: its classes, and its clitics. -/
structure Letters where
  lead : Nat
  upper : Nat
  lower : Nat
  clitics : List (List Nat)

/-- The letter alternative whose runs have the given minimums. -/
def letters (upperMin lowerMin : Nat) : Node → Option Letters
  | .concat [lead, upper, lower] => do
    some {
      lead := ← repeatClass 0 1 lead
      upper := ← repeatClass upperMin unbounded upper
      lower := ← repeatClass lowerMin unbounded lower
      clitics := [] }
  | .concat [lead, upper, lower, clitics] => do
    some {
      lead := ← repeatClass 0 1 lead
      upper := ← repeatClass upperMin unbounded upper
      lower := ← repeatClass lowerMin unbounded lower
      clitics := ← cliticGroup clitics }
  | _ => none

/-! ## The scanner -/

def lead1 : Bits := 1 <<< 0

def upper1 : Bits := 1 <<< 1

def lower1 : Bits := 1 <<< 2

def lead2 : Bits := 1 <<< 3

def upper2 : Bits := 1 <<< 4

def lower2 : Bits := 1 <<< 5

def tailBase : Nat := 6

structure Scanner where
  roles : Roles
  clitics1 : List (List Nat)
  clitics2 : List (List Nat)
  digitCap : Nat

namespace Scanner

section

variable (M : Membership) (classes : List Class)

def recognize : Node → Option Scanner
  | .alt [first, second, digits, punct, breaks, trail, space] => do
    let first ← letters 0 1 first
    let second ← letters 1 0 second
    if first.clitics.isEmpty ≠ second.clitics.isEmpty then none
    else
      let tail ← Tail.recognize digits punct breaks trail space
      let roleClasses ← ([first.lead, first.upper, first.lower, second.lead, second.upper,
        second.lower] ++ TailRole.all.map tail.cls).mapM fun cls => classes[cls]?
      some
        { roles := Roles.build M roleClasses
          clitics1 := first.clitics
          clitics2 := second.clitics
          digitCap := tail.digitCap }
  | _ => none

variable (sc : Scanner) (text : Text)

/-- The end of the clitic that follows, or else where the letters end. -/
def cliticEnd (stop : Nat) (clitics : List (List Nat)) : Nat :=
  if clitics.isEmpty then stop
  else if mayStartClitic M classes text stop (sc.clitics1 ++ sc.clitics2) then
    (cliticMatch M classes text stop clitics).getD stop
  else stop

/-- The body of the first letter alternative: the upper run, the lower run that must follow it, then
the clitic. -/
def lowerBody (q : Nat) (upper lower : Bits) (clitics : List (List Nat)) : Option Nat :=
  let (stop, lastLowerEnd) := sc.roles.runEndMarked M text q upper lower
  ((sc.roles.plusEnd M text stop lower).or lastLowerEnd).map fun stop =>
    sc.cliticEnd M classes text stop clitics

/-- The body of the second letter alternative: an upper run that must be there, the lower run after
it, then the clitic. -/
def upperBody (q : Nat) (upper lower : Bits) (clitics : List (List Nat)) : Option Nat :=
  (sc.roles.plusEnd M text q upper).map fun stop =>
    sc.cliticEnd M classes text (sc.roles.runEnd M text stop lower) clitics

/-- The end of the piece that starts at a position: the first of the seven alternatives that matches
there. -/
def matchAt (pos : Nat) : Option Nat :=
  match sc.roles.bitsAt M text pos with
  | none => none
  | some (c, len) =>
    let after := pos + len
    let lower (q : Nat) := sc.lowerBody M classes text q upper1 lower1 sc.clitics1
    let upper (q : Nat) := sc.upperBody M classes text q upper2 lower2 sc.clitics2
    (if c.has lead1 then lower after else none).or <|
    (if c.has (upper1 ||| lower1) then lower pos else none).or <|
    (if c.has lead2 then upper after else none).or <|
    if c.has upper2 then upper pos
    else sc.roles.tailMatch M text tailBase sc.digitCap pos c after

end

/-! ## What its loops find -/

variable {M : Membership} {classes : List Class} {text rest : Text} {pos : Nat}
variable {roleClasses : List Class}

theorem runEndMarkedFrom_eq {bit marked turns : Nat} {last : Option Nat}
    (h : Stands text pos rest) (ht : rest.length ≤ turns) :
    (build M roleClasses).runEndMarkedFrom M text (1 <<< bit) (1 <<< marked) turns pos last =
      (offset text (rest.dropWhile (holds M roleClasses bit)),
        ((lastMarked (holds M roleClasses bit) (holds M roleClasses marked) rest).map
          (offset text)).or last) := by
  induction turns generalizing pos rest last with
  | zero =>
    obtain rfl := length_eq_zero_iff.mp (Nat.le_zero.mp ht)
    simp [runEndMarkedFrom, lastMarked, h.offset_eq]
  | succ turns ih =>
    cases rest with
    | nil => simp [runEndMarkedFrom, bitsAt_nil h, lastMarked, h.offset_eq]
    | cons c rest =>
      rw [runEndMarkedFrom, bitsAt_cons h, lastMarked, dropWhile_cons]
      simp only [Bits.has_holds]
      split
      · rw [ih h.next (by simpa using ht), map_or]
        split <;> simp [h.next.offset_eq]
      · simp [h.offset_eq]

/-- What is left after the clitic, if one follows. -/
def cliticTail (M : Membership) (classes : List Class) (clitics : List (List Nat)) (s : Text) :
    Text :=
  (cliticRest M classes clitics s).getD s

variable {clitics : List (List Nat)}

theorem cliticRest_nil (hne : clitics.any isEmpty = false) :
    cliticRest M classes clitics [] = none := by
  rw [cliticRest, findSome?_eq_none_iff]
  intro alternative halt
  have := any_eq_false.mp hne alternative halt
  cases alternative with
  | nil => simp at this
  | cons cls alternative => rfl

theorem mayStartClitic_append {clitics' : List (List Nat)}
    (h : mayStartClitic M classes text pos (clitics ++ clitics') = false) :
    mayStartClitic M classes text pos clitics = false ∧
      mayStartClitic M classes text pos clitics' = false := by
  unfold mayStartClitic at h ⊢
  cases hb : (encode text)[pos]? with
  | none => exact ⟨rfl, rfl⟩
  | some byte =>
    rw [hb, any_some] at h
    simp only [any_some]
    split at h
    next hlt =>
      rw [cliticStart, any_append, Bool.or_eq_false_iff] at h
      rw [if_pos hlt, if_pos hlt]
      exact h
    next hge =>
      rw [cliticBeyondAscii, any_append, Bool.or_eq_false_iff] at h
      rw [if_neg hge, if_neg hge]
      exact h

variable {sc : Scanner}

theorem cliticEnd_of (hne : clitics.any isEmpty = false)
    (hmay : ∀ pos, mayStartClitic M classes text pos (sc.clitics1 ++ sc.clitics2) = false →
      mayStartClitic M classes text pos clitics = false) (h : Stands text pos rest) :
    sc.cliticEnd M classes text pos clitics =
      offset text (cliticTail M classes clitics rest) := by
  have hnone : ∀ {o : Option Text}, o = none → offset text (o.getD rest) = pos := by
    rintro o rfl
    exact h.offset_eq
  unfold Scanner.cliticEnd cliticTail
  split
  next hnil =>
    obtain rfl := isEmpty_iff.mp hnil
    exact (hnone rfl).symm
  next =>
    split
    · rw [cliticMatch_eq clitics h]
      cases cliticRest M classes clitics rest with
      | none => exact h.offset_eq.symm
      | some s => rfl
    next hno =>
      refine (hnone ?_).symm
      cases rest with
      | nil => exact cliticRest_nil hne
      | cons c rest =>
        exact cliticRest_of_not_mayStart hne h (hmay pos (Bool.not_eq_true _ ▸ hno))

/-- The letters of the first alternative, behind the lead-in: what is left after them. -/
def lowerFind (upper lower : Char → Bool) (tail : Text → Text) (s : Text) : Option Text :=
  Backtrack.star upper s fun s => plus lower s fun s => some (tail s)

def upperFind (upper lower : Char → Bool) (tail : Text → Text) (s : Text) : Option Text :=
  plus upper s fun s => Backtrack.star lower s fun s => some (tail s)

theorem lowerFind_eq (upper lower : Char → Bool) (tail : Text → Text) (s : Text) :
    lowerFind upper lower tail s =
      ((plus lower (s.dropWhile upper) some).or (lastMarked upper lower s)).map tail := by
  rw [← star_plus_eq, ← star_map]
  exact congrArg (Backtrack.star upper s) (funext fun s => plus_map lower s some tail)

theorem lowerFind_eq_map (upper lower : Char → Bool) (tail : Text → Text) (s : Text) :
    lowerFind upper lower tail s =
      (Backtrack.star upper s (here lower)).map fun s => tail (s.dropWhile lower) := by
  rw [lowerFind_eq, ← star_plus_eq, breaks_eq, Option.map_map]
  rfl

theorem upperFind_eq (upper lower : Char → Bool) (tail : Text → Text) (s : Text) :
    upperFind upper lower tail s =
      (plus upper s some).map fun s => tail (s.dropWhile lower) := by
  rw [← plus_map]
  exact congrArg (plus upper s) (funext fun s => star_some lower s tail)

/-- The clitics of a scanner, as one of its letter alternatives has them. -/
structure Served (M : Membership) (classes : List Class) (text : Text) (sc : Scanner)
    (clitics : List (List Nat)) : Prop where
  nonempty : clitics.any List.isEmpty = false
  mayStart : ∀ pos, mayStartClitic M classes text pos (sc.clitics1 ++ sc.clitics2) = false →
    mayStartClitic M classes text pos clitics = false

section

variable (hsc : Served M classes text sc clitics)

include hsc

theorem map_cliticEnd {found : Option Text} (hfound : ∀ s ∈ found, s <:+ text) :
    (found.map (offset text)).map (sc.cliticEnd M classes text · clitics) =
      (found.map (cliticTail M classes clitics)).map (offset text) := by
  cases found with
  | none => rfl
  | some s => simp [cliticEnd_of hsc.nonempty hsc.mayStart (stands_offset (hfound s rfl))]

theorem lowerBody_eq (hroles : sc.roles = build M roleClasses) {upper lower : Nat}
    (h : Stands text pos rest) :
    sc.lowerBody M classes text pos (1 <<< upper) (1 <<< lower) clitics =
      (lowerFind (holds M roleClasses upper) (holds M roleClasses lower)
        (cliticTail M classes clitics) rest).map (offset text) := by
  rw [Scanner.lowerBody, hroles, runEndMarked, runEndMarkedFrom_eq h (length_le_turns h), or_none,
    lowerFind_eq]
  simp only [plusEnd_eq (stands_dropWhile h _), ← map_or]
  refine map_cliticEnd hsc fun s hs => ?_
  rw [← star_plus_eq] at hs
  exact ((local_star.seq local_plus).suffix hs).trans h.suffix

theorem upperBody_eq (hroles : sc.roles = build M roleClasses) {upper lower : Nat}
    (h : Stands text pos rest) :
    sc.upperBody M classes text pos (1 <<< upper) (1 <<< lower) clitics =
      (upperFind (holds M roleClasses upper) (holds M roleClasses lower)
        (cliticTail M classes clitics) rest).map (offset text) := by
  rw [Scanner.upperBody, hroles, upperFind_eq, plusEnd_eq h]
  cases hfound : plus (holds M roleClasses upper) rest some with
  | none => rfl
  | some s =>
    have hs := stands_offset ((suffix_of_plus hfound).trans h.suffix)
    have hdrop := stands_dropWhile hs (holds M roleClasses lower)
    simp [runEnd_eq hs, cliticEnd_of hsc.nonempty hsc.mayStart hdrop]

end

/-! ## What the tree matches -/

variable {node : Node}

theorem cliticGroup_spec {clitics : List (List Nat)} (h : cliticGroup node = some clitics)
    (s : Text) : clitics.any isEmpty = false ∧
      node.attempt M classes s some = some (cliticTail M classes clitics s) := by
  unfold cliticGroup at h
  split at h
  · next alternatives =>
    simp only [bind_eq_bind, bind_eq_some_iff] at h
    obtain ⟨cs, hcs, h⟩ := h
    split at h
    · cases h
    next hok =>
      obtain rfl := some.inj h
      refine ⟨Bool.not_eq_true _ ▸ fun hany => hok (.inr hany), ?_⟩
      have halt := @attemptAlt_eq_cliticRest M classes _ _ hcs s
      simp only [attempt, greedy_zero_succ, greedy_zero_max]
      rw [halt, cliticTail]
      cases cliticRest M classes cs s <;> rfl
  · cases h

variable {L : Letters}

/-- What a letter alternative is: a lead-in, two runs, and perhaps clitics. -/
theorem letters_spec {upperMin lowerMin : Nat} (h : letters upperMin lowerMin node = some L)
    (s : Text) : L.clitics.any isEmpty = false ∧
      node.attempt M classes s some =
        greedy (single (holds M classes L.lead)) 0 1 s fun s =>
          greedy (single (holds M classes L.upper)) upperMin unbounded s fun s =>
            greedy (single (holds M classes L.lower)) lowerMin unbounded s fun s =>
              some (cliticTail M classes L.clitics s) := by
  unfold letters at h
  split at h
  · simp only [bind_eq_bind, bind_eq_some_iff] at h
    obtain ⟨lead, hlead, upper, hupper, lower, hlower, h⟩ := h
    obtain rfl := repeatClass_eq_some hlead
    obtain rfl := repeatClass_eq_some hupper
    obtain rfl := repeatClass_eq_some hlower
    cases h
    exact ⟨rfl, rfl⟩
  · simp only [bind_eq_bind, bind_eq_some_iff] at h
    obtain ⟨lead, hlead, upper, hupper, lower, hlower, clitics, hclitics, h⟩ := h
    obtain rfl := repeatClass_eq_some hlead
    obtain rfl := repeatClass_eq_some hupper
    obtain rfl := repeatClass_eq_some hlower
    cases h
    refine ⟨(@cliticGroup_spec M classes _ _ hclitics s).1, ?_⟩
    simp [attempt, attemptSeq, (cliticGroup_spec hclitics _).2]
  · cases h

variable {c : Char}

theorem lowerFind_guard (upper lower : Char → Bool) (tail : Text → Text) (c : Char) (s : Text) :
    (if (upper c || lower c) = true then (lowerFind upper lower tail (c :: s)).map (offset text)
      else none) = (lowerFind upper lower tail (c :: s)).map (offset text) := by
  split
  · rfl
  next hno =>
    obtain ⟨hu, hl⟩ := Bool.or_eq_false_iff.mp (Bool.not_eq_true _ ▸ hno)
    rw [lowerFind, star_cons, plus_cons, hu, hl]
    rfl

theorem upperFind_guard (upper lower : Char → Bool) (tail : Text → Text) (c : Char) (s : Text)
    (other : Option Nat) :
    (if upper c = true then (upperFind upper lower tail (c :: s)).map (offset text) else other) =
      ((upperFind upper lower tail (c :: s)).map (offset text)).or other := by
  rw [upperFind_eq, plus_cons, star_id]
  split <;> simp

/-! ## The letters with bounds -/

theorem suffix_of_cliticTail (s : Text) : cliticTail M classes clitics s <:+ s := by
  rw [cliticTail]
  cases h : cliticRest M classes clitics s with
  | none => exact suffix_refl s
  | some r => exact Template.suffix_of_cliticRest h

/-- From a longer text the clitic leads to where it does from a shorter one if it takes up what the
one has more. -/
theorem cliticTail_eq_iff {x y : Text} (hlen : y.length ≤ x.length) :
    cliticTail M classes clitics x = cliticTail M classes clitics y ↔
      x = y ∨ cliticRest M classes clitics x = some (cliticTail M classes clitics y) := by
  have hsuffix := @suffix_of_cliticTail M classes clitics y
  refine ⟨fun heq => ?_, ?_⟩
  · rw [cliticTail] at heq
    cases hx : cliticRest M classes clitics x with
    | none =>
      rw [hx, getD_none] at heq
      exact .inl (heq.trans (hsuffix.eq_of_length_le (heq ▸ hlen)))
    | some z =>
      rw [hx, getD_some] at heq
      exact .inr (congrArg some heq)
  · rintro (rfl | hrest)
    · rfl
    · rw [cliticTail, hrest, getD_some]

/-- A letter alternative at a place: what its first run leaves there, and what its two runs leave
with bounds, before the clitic. -/
structure LetterRuns where
  start : Text
  first : Option Text
  second : Char → Bool
  cut : Option Text
  clitics : List (List Nat)

namespace LetterRuns

section

variable (M classes) (a : LetterRuns)

def found : Option Text :=
  a.first.map fun t => cliticTail M classes a.clitics (t.dropWhile a.second)

def within : Option Text := a.cut.map (cliticTail M classes a.clitics)

/-- What the first alternative that matches leaves. -/
def leaves (read : LetterRuns → Option Text) (tail : Option Text) (as : List LetterRuns) :
    Option Text :=
  as.foldr (fun a later => (read a).or later) tail

/-- **What the bounds cut off is taken up**: by a clitic that begins there and ends with the match,
or by the later alternatives if the cut makes this one fail. -/
def TakenUp (later : Option Text) (r : Text) : Prop :=
  a.cut.elim (later = some r) fun x => cliticRest M classes a.clitics x = some r

/-- The runs of the first alternative that matches fit the bound, or what is cut off is taken up. -/
def Fit (bound : Nat) (tail : Option Text) (tailFits : Prop) : List LetterRuns → Prop
  | [] => tailFits
  | a :: as =>
    byFirst a.first (fun t => FitsAt bound a.second a.start t ∨
      a.TakenUp M classes (leaves (within M classes) tail as)
        (cliticTail M classes a.clitics (t.dropWhile a.second))) (Fit bound tail tailFits as)

end

/-- What a bound does to an alternative at a place of a text. -/
structure Cuts (bound : Nat) (text : Text) (a : LetterRuns) : Prop where
  start_suffix : a.start <:+ text
  first_suffix : ∀ t, a.first = some t → t <:+ a.start
  fails : a.first = none → a.cut = none
  iff : ∀ t, a.first = some t →
    (a.cut = some (t.dropWhile a.second) ↔ FitsAt bound a.second a.start t)
  long : ∀ t, a.first = some t → ∀ x ∈ a.cut, (t.dropWhile a.second).length ≤ x.length

variable {bound : Nat} {s : Text} {a : LetterRuns} {as : List LetterRuns}
  {tail tail' : Option Text} {tailFits : Prop}

theorem Cuts.within_or_iff (h : a.Cuts bound s) {t : Text} (ht : a.first = some t)
    (later : Option Text) :
    (a.within M classes).or later = some (cliticTail M classes a.clitics (t.dropWhile a.second)) ↔
      FitsAt bound a.second a.start t ∨
        a.TakenUp M classes later (cliticTail M classes a.clitics (t.dropWhile a.second)) := by
  rw [← h.iff t ht, within, TakenUp]
  cases hcut : a.cut with
  | none => simp
  | some x =>
    rw [map_some, some_or, some.injEq, some.injEq]
    exact cliticTail_eq_iff (h.long t ht x hcut)

/-- **When bounds make no difference to alternatives**, by the first that matches without them. -/
theorem leaves_eq_iff (h : ∀ a ∈ as, a.Cuts bound s) (htail : tail = tail' ↔ tailFits) :
    leaves (within M classes) tail as = leaves (found M classes) tail' as ↔
      Fit M classes bound tail tailFits as := by
  induction as with
  | nil => exact htail
  | cons a as ih =>
    have ha := h a mem_cons_self
    exact or_eq_or_iff rfl (fun hnone => by rw [within, ha.fails hnone, map_none])
      (fun t ht => ha.within_or_iff ht _) (ih fun b hb => h b (mem_cons_of_mem a hb))

theorem fit_of_length_le (h : ∀ a ∈ as, a.Cuts bound s) (hs : s.length ≤ bound)
    (htail : tailFits) : Fit M classes bound tail tailFits as := by
  induction as with
  | nil => exact htail
  | cons a as ih =>
    have ha := h a mem_cons_self
    exact byFirst_of (fun t ht => .inl
        (fitsAt_of_length_le (ha.start_suffix.length_le.trans hs) (ha.first_suffix t ht)))
      (ih fun b hb => h b (mem_cons_of_mem a hb))

theorem suffix_of_leaves (h : ∀ a ∈ as, a.Cuts bound s) (htail : ∀ r ∈ tail, r <:+ s) {r : Text}
    (hr : leaves (found M classes) tail as = some r) : r <:+ s := by
  induction as with
  | nil => exact htail r hr
  | cons a as ih =>
    have ha := h a mem_cons_self
    rcases or_eq_some_iff.mp hr with hr | ⟨-, hr⟩
    · obtain ⟨t, ht, rfl⟩ := map_eq_some_iff.mp hr
      exact (((suffix_of_cliticTail _).trans (dropWhile_suffix _)).trans
        (ha.first_suffix t ht)).trans ha.start_suffix
    · exact ih (fun b hb => h b (mem_cons_of_mem a hb)) hr

/-- An alternative whose first run leaves `first` without a bound and `cut` with it, if there is its
lead-in. -/
def led (bound : Nat) (lead : Bool) (start : Text) (first cut : Option Text)
    (second : Char → Bool) (clitics : List (List Nat)) : LetterRuns where
  start
  first := if lead then first else none
  second
  cut := if lead then cut.map (behind bound second) else none
  clitics

theorem cuts_led {start : Text} {first cut : Option Text} {second : Char → Bool}
    (hstart : start <:+ s) (hsuffix : ∀ t, first = some t → t <:+ start)
    (hfails : first = none → cut = none)
    (hcut : ∀ t, first = some t → Cut bound bound second start t cut) (lead : Bool)
    (clitics : List (List Nat)) : (led bound lead start first cut second clitics).Cuts bound s := by
  cases lead with
  | false => exact ⟨hstart, nofun, fun _ => rfl, nofun, nofun⟩
  | true =>
    exact ⟨hstart, hsuffix, fun h => congrArg (Option.map _) (hfails h),
      fun t ht => (hcut t ht).iff, fun t ht => (hcut t ht).long⟩

section

variable (bound : Nat) (upper lower : Char → Bool) (clitics : List (List Nat)) (lead : Bool)
variable {start : Text}

def lowerAt (start : Text) : LetterRuns :=
  led bound lead start (Backtrack.star upper start (here lower))
    (greedy (single upper) 0 bound start (here lower)) lower clitics

def upperAt (start : Text) : LetterRuns :=
  led bound lead start (plus upper start some) (greedy (single upper) 1 bound start some) lower
    clitics

theorem cuts_lowerAt (hstart : start <:+ s) :
    (lowerAt (bound + 1) upper lower clitics lead start).Cuts (bound + 1) s := by
  refine cuts_led hstart (fun _ => suffix_of_star_here)
    (fun h => greedy_zero_eq_none (fun _ h => h) h _) (fun t ht => ?_) lead clitics
  rw [here_eq_guard] at ht ⊢
  exact cut_of_star (fun a s ha => ha) ht _ _

theorem cuts_upperAt (hstart : start <:+ s) :
    (upperAt (bound + 1) upper lower clitics lead start).Cuts (bound + 1) s :=
  cuts_led hstart (fun _ => suffix_of_plus) (fun h => greedy_one_eq_none (fun _ h => h) h _)
    (fun _ ht => cut_of_plus (g := fun _ => true) (fun _ _ _ => rfl) ht _ _) lead clitics

end

end LetterRuns

open LetterRuns

section

variable (M) (sc : Scanner) (bound : Nat) (c : Char) (s : Text)

/-- The letter alternatives of a scanner, each with and without its lead-in. -/
def alternatives : List LetterRuns :=
  let run (i : Nat) := holds M sc.roles.classes i
  let lower := lowerAt bound (run 1) (run 2) sc.clitics1
  let upper := upperAt bound (run 4) (run 5) sc.clitics2
  [lower (run 0 c) s, lower true (c :: s), upper (run 3 c) s, upper true (c :: s)]

theorem cuts_alternatives : ∀ a ∈ sc.alternatives M (bound + 1) c s,
    a.Cuts (bound + 1) (c :: s) := by
  have hs := suffix_cons c s
  have hcs := suffix_refl (c :: s)
  simp only [alternatives, forall_mem_cons]
  exact ⟨cuts_lowerAt _ _ _ _ _ hs, cuts_lowerAt _ _ _ _ _ hcs,
    cuts_upperAt _ _ _ _ _ hs, cuts_upperAt _ _ _ _ _ hcs, nofun⟩

end

/-- **The runs at a position fit the bound of the program.** -/
def RunsFit (M : Membership) (classes : List Class) (sc : Scanner) : Text → Prop
  | [] => True
  | c :: s =>
    let tail := tailHolds M sc.roles.classes tailBase
    Fit M classes unbounded (tailWithin unbounded tail sc.digitCap (c :: s))
      (tailFits unbounded tail sc.digitCap c s) (sc.alternatives M unbounded c s)

theorem runsFit_of_length_le {s : Text} (h : s.length ≤ unbounded) : sc.RunsFit M classes s := by
  obtain ⟨max, hmax⟩ : ∃ max, unbounded = max + 1 := ⟨4294967294, rfl⟩
  cases s with
  | nil => trivial
  | cons c s =>
    rw [RunsFit, hmax]
    rw [hmax] at h
    exact fit_of_length_le (cuts_alternatives M sc max c s) h (tailFits_of_length_le h)

theorem found_led {found first : Option Text} {lower : Char → Bool}
    (h : found = first.map fun s => cliticTail M classes clitics (s.dropWhile lower))
    (bound : Nat) (lead : Bool) (s : Text) (cut : Option Text) :
    (led bound lead s first cut lower clitics).found M classes =
      if lead then found else none := by
  cases lead with
  | false => rfl
  | true => exact h.symm

theorem within_led {n upperMin lowerMin : Nat} {s : Text} {upper lower : Char → Bool}
    {cut : Option Text}
    (h : (greedy (single upper) upperMin (n + 1) s fun s =>
      greedy (single lower) lowerMin (n + 1) s some) = cut.map (behind (n + 1) lower))
    (lead : Bool) (first : Option Text) :
    (led (n + 1) lead s first cut lower clitics).within M classes =
      if lead then greedy (single upper) upperMin (n + 1) s fun s =>
        greedy (single lower) lowerMin (n + 1) s fun s => some (cliticTail M classes clitics s)
      else none := by
  cases lead with
  | false => rfl
  | true =>
    refine (congrArg (Option.map _) h.symm).trans ?_
    rw [← greedy_map]
    exact congrArg _ (funext fun s => (greedy_map lowerMin (n + 1) s some _).symm)

/-- **The scanner finds what the template matches just where the runs fit**, at every position that
has a character. -/
theorem matchAt_eq_iff {root : Node} {sc : Scanner} (h : Scanner.recognize M classes root = some sc)
    {n : Nat} (hw : root.Wf n) (hst : Stands text pos (c :: rest)) :
    (root.attempt M classes (c :: rest) some).map (offset text) = sc.matchAt M classes text pos ↔
      sc.RunsFit M classes (c :: rest) := by
  unfold Scanner.recognize at h
  split at h
  · next first second digits punct breaks trail space =>
    simp only [bind_eq_bind, bind_eq_some_iff] at h
    obtain ⟨L1, h1, L2, h2, h⟩ := h
    split at h
    · cases h
    simp only [bind_eq_some_iff] at h
    obtain ⟨tail, htail, roleClasses, hroles, hsc⟩ := h
    have hserved₁ : Served M classes text sc L1.clitics :=
      ⟨(@letters_spec M classes _ _ _ _ h1 []).1, fun pos hno =>
        (mayStartClitic_append (by cases hsc; exact hno)).1⟩
    have hserved₂ : Served M classes text sc L2.clitics :=
      ⟨(@letters_spec M classes _ _ _ _ h2 []).1, fun pos hno =>
        (mayStartClitic_append (by cases hsc; exact hno)).2⟩
    obtain ⟨hcap, htree⟩ := @tail_spec M classes _ _ _ _ _ _ _ htail hw.2.2.2.1
    have htailHolds : tailHolds M roleClasses tailBase = _ := tailHolds_of_mapM hroles
    have hholds (i cls : Nat) := @holds_of_mapM M classes _ _ hroles i cls
    have hbuild : (build M roleClasses).classes = roleClasses := rfl
    obtain ⟨max, hmax⟩ : ∃ max, unbounded = max + 1 := ⟨4294967294, rfl⟩
    have hscan : sc.matchAt M classes text pos = (leaves (found M classes)
        (tailFind (tailHolds M sc.roles.classes tailBase) sc.digitCap (c :: rest))
        (sc.alternatives M (max + 1) c rest)).map (offset text) := by
      cases hsc
      rw [Scanner.matchAt, bitsAt_cons hst]
      simp only [lead1, upper1, lower1, lead2, upper2, lower2, Bits.has_or, Bits.has_holds,
        lowerBody_eq hserved₁ rfl hst, lowerBody_eq hserved₁ rfl hst.next,
        upperBody_eq hserved₂ rfl hst, upperBody_eq hserved₂ rfl hst.next, tailMatch_eq hcap hst]
      rw [lowerFind_guard, upperFind_guard]
      simp only [alternatives, lowerAt, upperAt, leaves, foldr_cons, foldr_nil, map_or, hbuild,
        if_true, found_led (lowerFind_eq_map _ _ _ _), found_led (upperFind_eq _ _ _ _)]
      congr 1
      · split <;> rfl
      · split <;> rfl
    have hroot : attempt M classes (.alt [first, second, digits, punct, breaks, trail, space])
        (c :: rest) some = leaves (within M classes) (tailWithin (max + 1)
          (tailHolds M sc.roles.classes tailBase) sc.digitCap (c :: rest))
          (sc.alternatives M (max + 1) c rest) := by
      have hor : attempt M classes (.alt [first, second, digits, punct, breaks, trail, space])
          (c :: rest) some = (first.attempt M classes (c :: rest) some).or
            ((second.attempt M classes (c :: rest) some).or
              (attemptAlt M classes [digits, punct, breaks, trail, space] (c :: rest) some)) := rfl
      cases hsc
      rw [hor, (letters_spec h1 _).2, (letters_spec h2 _).2, greedy_optional, greedy_optional,
        htree, hmax]
      simp only [alternatives, lowerAt, upperAt, leaves, foldr_cons, foldr_nil, hbuild, if_true,
        within_led (greedy_then_plus 0 (max + 1) max _),
        within_led (greedy_then_star 1 (max + 1) (max + 1) _), Option.or_assoc, htailHolds,
        hholds 0 L1.lead rfl, hholds 1 L1.upper rfl, hholds 2 L1.lower rfl, hholds 3 L2.lead rfl,
        hholds 4 L2.upper rfl, hholds 5 L2.lower rfl]
    have hcuts := cuts_alternatives M sc max c rest
    rw [hscan, map_offset_inj, hroot, RunsFit, hmax]
    · exact leaves_eq_iff hcuts tailWithin_eq_iff
    · exact fun r hr => ((local_attempt _).suffix hr).trans hst.suffix
    · exact fun r hr =>
        (suffix_of_leaves hcuts (fun _ => suffix_of_tailFind) hr).trans hst.suffix
  · cases h

end Scanner

end Cased

end Smg.Tokenizer
