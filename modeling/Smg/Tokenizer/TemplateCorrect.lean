import Smg.Tokenizer.PatternCorrect
import Smg.Tokenizer.ScannerTail

/-!
# The template scanner finds what the tree matches

A tree that the scanner recognizes is an alternation of seven shapes, with a class in every place
and nothing assumed about the classes: they may overlap in any way.

A bound is what separates the two.  The program stops a run after `u32::MAX` characters, because
that is the number the parser writes for "no bound"; the scanner's runs have none.
`Scanner.RunsFit` says of the runs at a position that this makes no difference, and `matchAt_eq_iff`
that they find the same just then.
-/

set_option autoImplicit false

namespace Smg.Tokenizer

open Backtrack Utf8 Node Option Roles
open List hiding pure_def

variable {M : Membership} {classes : List Class} {text rest : Text} {pos : Nat}

/-! ## Shapes of the tree -/

theorem repeatClass_eq_some {min max cls : Nat} {node : Node}
    (h : repeatClass min max node = some cls) : node = .classRepeat cls min max := by
  cases node with
  | classRepeat cls' min' max' =>
    rw [repeatClass] at h
    split at h
    · next hb =>
      obtain ⟨rfl, rfl⟩ := hb
      rw [some.inj h]
    · cases h
  | _ => cases h

theorem getElem?_of_mapM {α β : Type} {f : α → Option β} {l : List α} {l' : List β}
    (h : l.mapM f = some l') (i : Nat) : l'[i]? = l[i]?.bind f := by
  induction l generalizing l' i with
  | nil =>
    obtain rfl : [] = l' := by simpa using h
    rfl
  | cons a l ih =>
    simp only [mapM_cons, bind_eq_bind, bind_eq_some_iff, pure_def,
      some.injEq] at h
    obtain ⟨b, hb, bs, hbs, rfl⟩ := h
    cases i with
    | zero => simp [hb]
    | succ i => simpa using ih hbs i

theorem digitRule_spec {digits : Node} {cls cap n : Nat} (h : digitRule digits = some (cls, cap))
    (hw : digits.Wf n) : cap ≠ 0 ∧ ∀ s, digits.attempt M classes s some =
      greedy (single (holds M classes cls)) 1 cap s some := by
  unfold digitRule at h
  split at h
  · cases h
    exact ⟨one_ne_zero, fun s => by cases s <;> rfl⟩
  · cases h
    exact ⟨ne_of_gt hw.2, fun s => rfl⟩
  · cases h

theorem tail_spec {digits punct breaks trail space : Node} {tail : Tail} {n : Nat}
    (h : Tail.recognize digits punct breaks trail space = some tail) (hw : digits.Wf n) :
    tail.digitCap ≠ 0 ∧ ∀ s, attemptAlt M classes [digits, punct, breaks, trail, space] s some =
      tailWithin unbounded (fun r => holds M classes (tail.cls r)) tail.digitCap s := by
  unfold Tail.recognize at h
  split at h
  · simp only [bind_eq_bind, bind_eq_some_iff, Prod.exists] at h
    obtain ⟨digit, cap, hdigit, lead, hlead, run, hrun, brk, hbrk, bspace, hbspace, bline, hbline,
      tspace, htspace, sp, hsp, htail⟩ := h
    obtain rfl := repeatClass_eq_some hlead
    obtain rfl := repeatClass_eq_some hrun
    obtain rfl := repeatClass_eq_some hbrk
    obtain rfl := repeatClass_eq_some hbspace
    obtain rfl := repeatClass_eq_some hbline
    obtain rfl := repeatClass_eq_some htspace
    obtain rfl := repeatClass_eq_some hsp
    cases htail
    obtain ⟨hcap, hdigits⟩ := @digitRule_spec M classes _ _ _ _ hdigit hw
    refine ⟨hcap, fun s => ?_⟩
    simp only [attemptAlt, attempt, or_none, hdigits]
    rfl
  · cases h

/-! ## Clitics -/

/-- What is left when the characters of a clitic have been read. -/
def follow (M : Membership) (classes : List Class) : List Nat → Text → Option Text
  | [], s => some s
  | _ :: _, [] => none
  | cls :: alternative, c :: s =>
    if Node.holds M classes cls c then follow M classes alternative s else none

/-- What is left after the first clitic that follows. -/
def cliticRest (M : Membership) (classes : List Class) (clitics : List (List Nat)) (s : Text) :
    Option Text :=
  clitics.findSome? fun alternative => follow M classes alternative s

theorem cliticEnd_eq (alternative : List Nat) (h : Stands text pos rest) :
    cliticEnd M classes text alternative pos =
      (follow M classes alternative rest).map (offset text) := by
  induction alternative generalizing pos rest with
  | nil => simp [cliticEnd, follow, h.offset_eq]
  | cons cls alternative ih =>
    cases rest with
    | nil => simp [cliticEnd, follow, h.nextChar_nil]
    | cons c rest =>
      rw [cliticEnd, h.nextChar_cons, follow]
      simp only [ih h.next]
      split <;> rfl

theorem cliticMatch_eq (clitics : List (List Nat)) (h : Stands text pos rest) :
    cliticMatch M classes text pos clitics =
      (cliticRest M classes clitics rest).map (offset text) := by
  induction clitics with
  | nil => rfl
  | cons alternative clitics ih =>
    rw [cliticMatch, cliticRest, findSome?_cons, findSome?_cons, cliticEnd_eq _ h]
    cases follow M classes alternative rest with
    | none => exact ih
    | some s => rfl

theorem attemptSeq_eq_follow {nodes : List Node} {alternative : List Nat}
    (h : nodes.mapM plainClass = some alternative) (s : Text) :
    attemptSeq M classes nodes s some = follow M classes alternative s := by
  induction nodes generalizing alternative s with
  | nil =>
    obtain rfl : [] = alternative := by simpa using h
    rfl
  | cons node nodes ih =>
    simp only [mapM_cons, bind_eq_bind, bind_eq_some_iff, pure_def,
      some.injEq] at h
    obtain ⟨cls, hcls, rest, hrest, rfl⟩ := h
    unfold plainClass at hcls
    split at hcls
    · cases hcls
      cases s with
      | nil => rfl
      | cons c s =>
        rw [follow, ← ih hrest s]
        rfl
    · cases hcls

theorem attempt_eq_follow {node : Node} {alternative : List Nat}
    (h : cliticClasses node = some alternative) (s : Text) :
    node.attempt M classes s some = follow M classes alternative s := by
  unfold cliticClasses at h
  split at h
  · cases h
    cases s <;> rfl
  · exact attemptSeq_eq_follow h s
  · cases h

theorem attemptAlt_eq_cliticRest {nodes : List Node} {clitics : List (List Nat)}
    (h : nodes.mapM cliticClasses = some clitics) (s : Text) :
    attemptAlt M classes nodes s some = cliticRest M classes clitics s := by
  induction nodes generalizing clitics with
  | nil =>
    obtain rfl : [] = clitics := by simpa using h
    rfl
  | cons node nodes ih =>
    simp only [mapM_cons, bind_eq_bind, bind_eq_some_iff, pure_def,
      some.injEq] at h
    obtain ⟨alternative, halt, rest, hrest, rfl⟩ := h
    simp only [attemptAlt]
    rw [attempt_eq_follow halt, ih hrest, cliticRest, cliticRest, findSome?_cons]
    cases follow M classes alternative s <;> rfl

variable {c : Char}

/-- The first byte decides rightly that no clitic follows. -/
theorem cliticRest_of_not_mayStart {clitics : List (List Nat)}
    (hne : clitics.any List.isEmpty = false) (h : Stands text pos (c :: rest))
    (hno : mayStartClitic M classes text pos clitics = false) :
    cliticRest M classes clitics (c :: rest) = none := by
  have hbyte := h.getElem? 0
  rw [add_zero, encode_cons] at hbyte
  have hheads : ∀ alternative ∈ clitics, ∀ cls ∈ alternative.head?,
      holds M classes cls c = false := by
    intro alternative halt cls hcls
    rcases lt_or_ge c.toNat 128 with hc | hc
    · obtain ⟨hnat, hascii⟩ := ascii_byte hc
      rw [encode_of_lt hc] at hbyte
      simp only [mayStartClitic, hbyte, singleton_append, getElem?_cons_zero,
        any_some, if_pos hascii, hnat] at hno
      have halt' := Bool.not_eq_true _ ▸ (any_eq_false.mp hno alternative halt)
      rw [hcls, Char.ofNat_toNat] at halt'
      exact halt'
    · obtain ⟨b, v, hcons, hlead⟩ := exists_lead_of_le hc
      rw [hcons] at hbyte
      simp only [mayStartClitic, hbyte, cons_append, getElem?_cons_zero,
        any_some, if_neg hlead] at hno
      have halt' := Bool.not_eq_true _ ▸ (any_eq_false.mp hno alternative halt)
      rw [hcls, any_some] at halt'
      rw [holds]
      cases hK : classes[cls]? with
      | none => rfl
      | some K =>
        rw [hK, any_some] at halt'
        by_contra hcon
        have := M.beyond K c (Bool.not_eq_false _ ▸ hcon) hc
        rw [this] at halt'
        cases halt'
  rw [cliticRest, findSome?_eq_none_iff]
  intro alternative halt
  have hnonempty := any_eq_false.mp hne alternative halt
  cases alternative with
  | nil => simp at hnonempty
  | cons cls alternative =>
    rw [follow, hheads _ halt cls rfl]
    rfl

/-! ## The scanner -/

theorem holds_of_mapM {indices : List Nat} {roleClasses : List Class}
    (h : indices.mapM (fun cls => classes[cls]?) = some roleClasses) {slot cls : Nat}
    (hslot : indices[slot]? = some cls) :
    holds M roleClasses slot = holds M classes cls := by
  funext c
  rw [holds, getElem?_of_mapM h, hslot]
  rfl

theorem tailHolds_of_mapM {before : List Nat} {tail : Tail} {roleClasses : List Class}
    (h : (before ++ TailRole.all.map tail.cls).mapM (fun cls => classes[cls]?) =
      some roleClasses) :
    tailHolds M roleClasses before.length = fun r => holds M classes (tail.cls r) := by
  funext r
  refine holds_of_mapM h ?_
  rw [getElem?_append_right (Nat.le_add_right _ _), Nat.add_sub_cancel_left,
    getElem?_map, TailRole.all_index]
  rfl

namespace Template

/-- The tree that a scanner was made from. -/
structure Shape (M : Membership) (classes : List Class) (root : Node) (sc : Scanner) where
  clitics : List Node
  lead : Nat
  run : Nat
  digits : Node
  punct : Node
  breaks : Node
  trail : Node
  space : Node
  tail : Tail
  roleClasses : List Class
  root_eq : root = .alt [.alt clitics, .concat [.classRepeat lead 0 1,
    .classRepeat run 1 unbounded], digits, punct, breaks, trail, space]
  clitics_eq : clitics.mapM cliticClasses = some sc.clitics
  nonempty : sc.clitics.any List.isEmpty = false
  tail_eq : Tail.recognize digits punct breaks trail space = some tail
  classes_eq :
    ([lead, run] ++ TailRole.all.map tail.cls).mapM (fun cls => classes[cls]?) = some roleClasses
  roles_eq : sc.roles = Roles.build M roleClasses
  cap_eq : sc.digitCap = tail.digitCap

theorem Scanner.exists_shape {root : Node} {sc : Scanner}
    (h : Scanner.recognize M classes root = some sc) : Nonempty (Shape M classes root sc) := by
  unfold Scanner.recognize at h
  split at h
  · next cnodes lead run digits punct breaks trail space =>
    simp only [bind_eq_bind, bind_eq_some_iff] at h
    obtain ⟨clitics, hclitics, h⟩ := h
    split at h
    · cases h
    next hempty =>
      simp only [bind_eq_some_iff] at h
      obtain ⟨leadCls, hlead, runCls, hrun, tail, htail, roleClasses, hroles, hsc⟩ := h
      obtain rfl := repeatClass_eq_some hlead
      obtain rfl := repeatClass_eq_some hrun
      cases hsc
      exact ⟨⟨cnodes, leadCls, runCls, digits, punct, breaks, trail, space, tail, roleClasses, rfl,
        hclitics, Bool.not_eq_true _ ▸ hempty, htail, hroles, rfl, rfl⟩⟩
  · cases h

namespace Shape

variable {root : Node} {sc : Scanner}

section

variable (S : Shape M classes root sc)

include S

theorem holds_lead : holds M S.roleClasses 0 = holds M classes S.lead :=
  holds_of_mapM S.classes_eq rfl

theorem holds_run : holds M S.roleClasses 1 = holds M classes S.run :=
  holds_of_mapM S.classes_eq rfl

/-- The alternatives of the tree, those of the tail together. -/
theorem attempt_root (s : Text) : root.attempt M classes s some =
      (cliticRest M classes sc.clitics s).or
        ((attempt M classes (.concat [.classRepeat S.lead 0 1,
          .classRepeat S.run 1 unbounded]) s some).or
          (attemptAlt M classes [S.digits, S.punct, S.breaks, S.trail, S.space] s some)) := by
  rw [← attemptAlt_eq_cliticRest S.clitics_eq]
  exact congrArg (fun node => node.attempt M classes s some) S.root_eq

theorem clitic_eq (hst : Stands text pos (c :: rest)) :
    (if mayStartClitic M classes text pos sc.clitics then
      cliticMatch M classes text pos sc.clitics else none) =
      (cliticRest M classes sc.clitics (c :: rest)).map (offset text) := by
  split
  · exact cliticMatch_eq sc.clitics hst
  next hno =>
    rw [cliticRest_of_not_mayStart S.nonempty hst (Bool.not_eq_true _ ▸ hno)]
    rfl

/-- **What the scanner finds**, at every position that has a character and however long the text. -/
theorem matchAt_eq (hcap : S.tail.digitCap ≠ 0) (hst : Stands text pos (c :: rest)) :
    sc.matchAt M classes text pos =
      ((cliticRest M classes sc.clitics (c :: rest)).or
        ((if holds M classes S.lead c then plus (holds M classes S.run) rest some
          else none).or
        ((plus (holds M classes S.run) (c :: rest) some).or
          (tailFind (fun r => holds M classes (S.tail.cls r)) S.tail.digitCap
            (c :: rest))))).map (offset text) := by
  have htail : tailHolds M S.roleClasses 2 = _ := tailHolds_of_mapM S.classes_eq
  rw [Scanner.matchAt, S.roles_eq, S.cap_eq, bitsAt_cons hst]
  simp only [S.clitic_eq hst, wordLead, word, Bits.has_holds, plusEnd_eq hst.next,
    plusEnd_eq hst, tailBase, tailMatch_eq hcap hst, S.holds_lead, S.holds_run, htail,
    map_or]
  split <;> rfl

end

end Shape

/-- **The runs at a position fit the bound of the program**: those of the first alternative that
matches there.  A word is one run; what fits is said in `Backtrack.Fits`. -/
def Scanner.RunsFit (M : Membership) (classes : List Class) (sc : Scanner) : Text → Prop
  | [] => True
  | c :: s =>
    byFirst (cliticRest M classes sc.clitics (c :: s)) (fun _ => True) <|
    byFirst
      (if holds M sc.roles.classes 0 c then plus (holds M sc.roles.classes 1) s some else none)
      (FitsAt unbounded (fun _ => false) s) <|
    byFirst (plus (holds M sc.roles.classes 1) (c :: s) some)
      (FitsAt unbounded (fun _ => false) (c :: s)) <|
    tailFits unbounded (tailHolds M sc.roles.classes tailBase) sc.digitCap c s

theorem Scanner.runsFit_of_length_le (sc : Scanner) {s : Text} (h : s.length ≤ unbounded) :
    sc.RunsFit M classes s := by
  cases s with
  | nil => trivial
  | cons c s =>
    refine byFirst_of (fun _ _ => trivial) (byFirst_of (fun t ht => ?_) (byFirst_of (fun t ht => ?_)
      (tailFits_of_length_le h)))
    · split at ht
      · exact fitsAt_of_length_le (Nat.le_of_succ_le h) (suffix_of_plus ht)
      · cases ht
    · exact fitsAt_of_length_le h (suffix_of_plus ht)

theorem suffix_of_follow {alternative : List Nat} {s r : Text}
    (h : follow M classes alternative s = some r) : r <:+ s := by
  induction alternative generalizing s with
  | nil =>
    cases h
    exact suffix_refl _
  | cons cls alternative ih =>
    cases s with
    | nil => cases h
    | cons c s =>
      rw [follow] at h
      split at h
      · exact (ih h).trans (suffix_cons c s)
      · cases h

theorem suffix_of_cliticRest {clitics : List (List Nat)} {s r : Text}
    (h : cliticRest M classes clitics s = some r) : r <:+ s := by
  obtain ⟨alternative, -, h⟩ := exists_of_findSome?_eq_some h
  exact suffix_of_follow h

/-- **The scanner finds what the template matches just where the runs fit**, at every position that
has a character. -/
theorem Scanner.matchAt_eq_iff {root : Node} {sc : Scanner}
    (h : Scanner.recognize M classes root = some sc) {n : Nat} (hw : root.Wf n)
    (hst : Stands text pos (c :: rest)) :
    (root.attempt M classes (c :: rest) some).map (offset text) = sc.matchAt M classes text pos ↔
      sc.RunsFit M classes (c :: rest) := by
  obtain ⟨S⟩ := Scanner.exists_shape h
  have hdigits : S.digits.Wf n := by
    have hall := S.root_eq ▸ hw
    exact hall.2.2.2.1
  have hclasses : sc.roles.classes = S.roleClasses := congrArg Roles.classes S.roles_eq
  have htailHolds : tailHolds M S.roleClasses tailBase = _ := tailHolds_of_mapM S.classes_eq
  obtain ⟨hcap, htree⟩ := @tail_spec M classes _ _ _ _ _ _ _ S.tail_eq hdigits
  rw [S.matchAt_eq hcap hst, map_offset_inj, S.attempt_root, htree, RunsFit, hclasses, S.holds_lead,
    S.holds_run, htailHolds, S.cap_eq]
  · obtain ⟨max, hmax⟩ : ∃ max, unbounded = max + 1 := ⟨4294967294, rfl⟩
    simp only [attempt, attemptSeq, hmax]
    rw [greedy_optional, Option.or_assoc]
    exact or_eq_or_iff (f := id) (by simp) id (fun t ht => by simp [ht])
      (run_or_iff (run_or_iff tailWithin_eq_iff true) _)
  · exact fun r hr => ((local_attempt root).suffix hr).trans hst.suffix
  · intro r hr
    refine IsSuffix.trans ?_ hst.suffix
    rcases or_eq_some_iff.mp hr with hr | ⟨-, hr⟩
    · exact suffix_of_cliticRest hr
    rcases or_eq_some_iff.mp hr with hr | ⟨-, hr⟩
    · split at hr
      · exact (suffix_of_plus hr).trans (suffix_cons c rest)
      · cases hr
    rcases or_eq_some_iff.mp hr with hr | ⟨-, hr⟩
    · exact suffix_of_plus hr
    · exact suffix_of_tailFind hr

end Template

end Smg.Tokenizer
