import Smg.Tokenizer.CasedScanner

/-!
# The scanners against the program

For a pattern that one of the scanners recognizes, the scanner and the compiled program find the
same match at every position of every text, whatever classes stand in the template's places,
whatever the digit bound and whatever the clitics: `scanners_match_program`.

There is one exception, of length.  A repetition without a bound is written `u32::MAX` in the tree,
and the program takes that as a bound: after 4294967295 characters it ends a run that the scanner
goes on with (`run_of_four_billion`).  They find the same just where the runs at the position fit
the bound, `RunsFit`.
-/

set_option autoImplicit false

namespace Smg.Tokenizer

open Backtrack Utf8 Template.Scanner List

def verdictAt : Option Nat → Pattern.Verdict
  | some stop => .matched stop
  | none => .unmatched

theorem verdict_eq (text : Text) (o : Option Text) :
    Pattern.verdict text o = verdictAt (o.map (offset text)) := by
  cases o <;> rfl

theorem verdictAt_inj {o o' : Option Nat} : verdictAt o = verdictAt o' ↔ o = o' := by
  cases o <;> cases o' <;> simp [verdictAt]

/-- **The scanners find what the program finds just where the runs fit**: for every pattern the
parser accepts, with any class membership, and every character position of every text, the matcher
of the program stops with the end that the scanner returns, or with none if it returns none, if and
only if the runs at the position fit the bound `u32::MAX`.  They do if at most that many characters
follow. -/
theorem scanners_match_program (M : Membership) (alphanumeric : Char → Bool) (depth : Nat)
    (pattern : Text) (p : Pattern) (h : Pattern.parse M alphanumeric depth pattern = some p)
    (text : Text) (pos : Nat) (rest : Text) (hst : Stands text pos rest) :
    (∀ sc, Template.Scanner.recognize M p.classes p.root = some sc →
      (∃ N, ∀ fuel, N ≤ fuel →
        (p.matchAt M text fuel pos = some (verdictAt (sc.matchAt M p.classes text pos)) ↔
          sc.RunsFit M p.classes rest)) ∧
      (rest.length ≤ 4294967295 → sc.RunsFit M p.classes rest)) ∧
    (∀ sc, Cased.Scanner.recognize M p.classes p.root = some sc →
      (∃ N, ∀ fuel, N ≤ fuel →
        (p.matchAt M text fuel pos = some (verdictAt (sc.matchAt M p.classes text pos)) ↔
          sc.RunsFit M p.classes rest)) ∧
      (rest.length ≤ 4294967295 → sc.RunsFit M p.classes rest)) := by
  have hp := Pattern.compiled_of_parse h
  obtain ⟨N, hN⟩ := hp.matchAt hst
  rw [verdict_eq] at hN
  cases rest with
  | nil =>
    have hnone : p.root.attempt M p.classes [] some = none := by
      by_contra hne
      obtain ⟨r, hr⟩ := Option.ne_none_iff_exists'.mp hne
      exact absurd (hp.shorter hr).2 (Nat.not_lt_zero _)
    rw [hnone] at hN
    refine ⟨fun sc _ => ⟨⟨N, fun fuel hfuel => iff_of_true ?_ trivial⟩, fun _ => trivial⟩,
      fun sc _ => ⟨⟨N, fun fuel hfuel => iff_of_true ?_ trivial⟩, fun _ => trivial⟩⟩
    · rw [matchAt, Roles.bitsAt_nil hst]
      exact hN fuel hfuel
    · rw [Cased.Scanner.matchAt, Roles.bitsAt_nil hst]
      exact hN fuel hfuel
  | cons c rest =>
    refine ⟨fun sc hsc => ⟨⟨N, fun fuel hfuel => ?_⟩, sc.runsFit_of_length_le⟩,
      fun sc hsc => ⟨⟨N, fun fuel hfuel => ?_⟩, Cased.Scanner.runsFit_of_length_le⟩⟩
    · rw [hN fuel hfuel, Option.some.injEq, verdictAt_inj]
      exact matchAt_eq_iff hsc hp.wf hst
    · rw [hN fuel hfuel, Option.some.injEq, verdictAt_inj]
      exact Cased.Scanner.matchAt_eq_iff hsc hp.wf hst

/-- A template of the first kind: `(?:'s|'t)|[^a]?a+|0|_?!+;*|\s*;+|\s+(?!\S)|\s+`. -/
def smallTemplate : Text :=
  ['(', '?', ':', '\'', 's', '|', '\'', 't', ')', '|', '[', '^', 'a', ']', '?', 'a', '+', '|',
    '0', '|', '_', '?', '!', '+', ';', '*', '|', '\\', 's', '*', ';', '+', '|', '\\', 's', '+', '(',
    '?', '!', '\\', 'S', ')', '|', '\\', 's', '+']

/-- After the clitic the scanner, and so the program, takes the word with its lead-in. -/
theorem scanners_match_program_smallTemplate :
    ∃ p sc, Pattern.parse spaceOnly Char.isAlphanum 40 smallTemplate = some p ∧
      Template.Scanner.recognize spaceOnly p.classes p.root = some sc ∧
      ∃ N, ∀ fuel, N ≤ fuel →
        p.matchAt spaceOnly ['\'', 's', '_', 'a', 'a', '_', '!', ';'] fuel 2 =
          some (.matched 5) := by
  have hfound : ((Pattern.parse spaceOnly Char.isAlphanum 40 smallTemplate).bind fun p =>
      (recognize spaceOnly p.classes p.root).bind fun sc =>
        sc.matchAt spaceOnly p.classes ['\'', 's', '_', 'a', 'a', '_', '!', ';'] 2) =
      some 5 := by
    decide +kernel
  obtain ⟨p, hp, hfound⟩ := Option.bind_eq_some_iff.mp hfound
  obtain ⟨sc, hsc, hfound⟩ := Option.bind_eq_some_iff.mp hfound
  obtain ⟨⟨N, hN⟩, hshort⟩ :=
    (scanners_match_program spaceOnly Char.isAlphanum 40 smallTemplate p hp
    ['\'', 's', '_', 'a', 'a', '_', '!', ';'] 2 ['_', 'a', 'a', '_', '!', ';']
    ⟨['\'', 's'], rfl, rfl⟩).1 sc hsc
  rw [hfound] at hN
  exact ⟨p, sc, hp, hsc, N, fun fuel hfuel => (hN fuel hfuel).mpr (hshort (by decide))⟩

/-! ## A run longer than `u32::MAX` -/

variable {c : Char}

theorem encode_replicate_length (hc : c.toNat < 128) (n : Nat) :
    (encode (replicate n c)).length = n := by
  induction n with
  | zero => rfl
  | succ n ih => rw [replicate_succ, encode_cons, encode_of_lt hc, length_append, ih,
      length_singleton, add_comm]

namespace Template

variable {M : Membership} {classes : List Class} {root : Node} {sc : Scanner}
  (S : Shape M classes root sc) (hc : c.toNat < 128)
  (hclitic : cliticStart M classes sc.clitics c.toNat = false)

include S hc hclitic

theorem Shape.cliticRest_eq_none (rest : Text) :
    cliticRest M classes sc.clitics (c :: rest) = none := by
  refine cliticRest_of_not_mayStart S.nonempty (stands_start (c :: rest)) ?_
  obtain ⟨hnat, hascii⟩ := ascii_byte hc
  simp [mayStartClitic, encode_of_lt hc, hascii, hnat, hclitic]

variable (hlead : Node.holds M classes S.lead c = false)
  (hrun : Node.holds M classes S.run c = true)

include hlead hrun

theorem Shape.matchAt_replicate (hcap : S.tail.digitCap ≠ 0) (n : Nat) :
    sc.matchAt M classes (replicate (n + 1) c) 0 = some (n + 1) := by
  have hst : Stands (replicate (n + 1) c) 0 (c :: replicate n c) := stands_start _
  have hplus : plus (Node.holds M classes S.run) (c :: replicate n c) some = some [] := by
    refine (plus_some _ c (replicate n c) id).trans ?_
    rw [if_pos hrun, dropWhile_replicate, if_pos hrun, id]
  rw [S.matchAt_eq hcap hst, S.cliticRest_eq_none hc hclitic, hlead, hplus]
  simp [offset, encode_replicate_length hc]

theorem Shape.attempt_replicate {max : Nat} (hmax : unbounded = max + 1) (n : Nat) :
    root.attempt M classes (replicate (max + 1 + n) c) some =
      some (replicate n c) := by
  have hcons : replicate (max + 1 + n) c = c :: replicate (max + n) c := by
    rw [add_right_comm, replicate_succ]
  have hword : Node.attempt M classes (.concat [.classRepeat S.lead 0 1,
      .classRepeat S.run 1 unbounded]) (replicate (max + 1 + n) c) some =
      some (replicate n c) := by
    simp only [Node.attempt, Node.attemptSeq]
    rw [hcons, greedy_optional, hlead, ← hcons, hmax]
    exact greedy_replicate hrun max n id
  rw [S.attempt_root, hword, hcons, S.cliticRest_eq_none hc hclitic]
  rfl

end Template

/-- **A run of 4294967296 letters** is one match for the scanner; the program ends it one letter
before. -/
theorem run_of_four_billion :
    ∃ p sc, Pattern.parse spaceOnly Char.isAlphanum 40 smallTemplate = some p ∧
      Template.Scanner.recognize spaceOnly p.classes p.root = some sc ∧
      sc.matchAt spaceOnly p.classes (List.replicate 4294967296 'a') 0 = some 4294967296 ∧
      ∃ N, ∀ fuel, N ≤ fuel →
        p.matchAt spaceOnly (List.replicate 4294967296 'a') fuel 0 =
          some (.matched 4294967295) := by
  have hfound : ((Pattern.parse spaceOnly Char.isAlphanum 40 smallTemplate).bind fun p =>
      (recognize spaceOnly p.classes p.root).map fun sc =>
        (cliticStart spaceOnly p.classes sc.clitics 97, Node.holds spaceOnly sc.roles.classes 0 'a',
          Node.holds spaceOnly sc.roles.classes 1 'a', sc.digitCap)) =
      some (false, false, true, 1) := by
    decide +kernel
  obtain ⟨p, hp, hfound⟩ := Option.bind_eq_some_iff.mp hfound
  obtain ⟨sc, hsc, hfound⟩ := Option.map_eq_some_iff.mp hfound
  simp only [Prod.mk.injEq] at hfound
  obtain ⟨hclitic, hlead, hrun, hcap⟩ := hfound
  obtain ⟨S⟩ := exists_shape hsc
  have hclasses : sc.roles.classes = S.roleClasses := congrArg Roles.classes S.roles_eq
  rw [hclasses, S.holds_lead] at hlead
  rw [hclasses, S.holds_run] at hrun
  have hc : ('a' : Char).toNat < 128 := by decide
  refine ⟨p, sc, hp, hsc, ?_, ?_⟩
  · refine S.matchAt_replicate hc hclitic hlead hrun ?_ 4294967295
    rw [← S.cap_eq, hcap]
    exact one_ne_zero
  · have hcompiled := Pattern.compiled_of_parse hp
    obtain ⟨N, hN⟩ := hcompiled.matchAt (stands_start (replicate 4294967296 'a'))
    have hmax : unbounded = 4294967294 + 1 := rfl
    have htree := S.attempt_replicate hc hclitic hlead hrun hmax 1
    rw [htree, Pattern.verdict, offset, encode_replicate_length hc] at hN
    exact ⟨N, hN⟩

end Smg.Tokenizer
