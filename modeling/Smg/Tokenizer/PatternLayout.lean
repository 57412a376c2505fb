import Smg.Tokenizer.PatternProgram

/-!
# Pre-tokenizer patterns: how a tree is laid out

`compile` appends operations and fills in targets later, some of them after many other operations.
What a reader of the program needs is the outcome: from which address to which address the
operations of a node stand, and where its splits and jumps lead.  `Laid` says that, by recursion on
the node, and `laid_compile` that the compiler produces it.

The compiler keeps everything that was there before a node (`Extends`), and what is laid out
somewhere depends on nothing outside of its addresses (`Laid.frame`), so filling in the targets
around a node does not disturb it.
-/

set_option autoImplicit false

namespace Smg.Tokenizer

open Code List

variable {M : Membership} {classes : List Class} {jumps : List Nat} {first : First}

namespace Code

def SplitAt (code : Code) (addr : Nat) (next : Option Nat) (first : First) : Prop :=
  ∃ set, code.ops[addr]? = some (.split next set) ∧ code.firsts[set]? = some first

/-- Operations were appended, and sets: nothing that was there has changed. -/
structure Extends (code code' : Code) : Prop where
  length_le : code.ops.length ≤ code'.ops.length
  ops : ∀ i, i < code.ops.length → code'.ops[i]? = code.ops[i]?
  firsts : ∀ (j : Nat) (f : First), code.firsts[j]? = some f → code'.firsts[j]? = some f

theorem Extends.refl (code : Code) : Extends code code := ⟨le_rfl, fun _ _ => rfl, fun _ _ h => h⟩

theorem Extends.trans {a b c : Code} (h : Extends a b) (h' : Extends b c) : Extends a c where
  length_le := h.length_le.trans h'.length_le
  ops i hi := (h'.ops i (hi.trans_le h.length_le)).trans (h.ops i hi)
  firsts j f hf := h'.firsts j f (h.firsts j f hf)

section

variable (code : Code)

theorem extends_push (op : Op) : Extends code (code.push op) where
  length_le := by simp [push]
  ops i hi := getElem?_append_left hi
  firsts _ _ h := h

@[simp] theorem length_push (op : Op) : (code.push op).ops.length = code.ops.length + 1 := by
  simp [push]

@[simp] theorem push_length (op : Op) : (code.push op).ops[code.ops.length]? = some op := by
  simp [push]

theorem extends_pushSplit (first : First) : Extends code (code.pushSplit first) where
  length_le := by simp [pushSplit]
  ops i hi := getElem?_append_left hi
  firsts j f h := by
    obtain ⟨hj, -⟩ := List.getElem?_eq_some_iff.mp h
    exact (getElem?_append_left hj).trans h

@[simp] theorem length_pushSplit (first : First) :
    (code.pushSplit first).ops.length = code.ops.length + 1 := by
  simp [pushSplit]

@[simp] theorem length_setNext (split next : Nat) :
    (code.setNext split next).ops.length = code.ops.length := by
  unfold setNext
  split <;> simp

@[simp] theorem firsts_setNext (split next : Nat) :
    (code.setNext split next).firsts = code.firsts := by
  unfold setNext
  split <;> rfl

end

variable {code : Code}

theorem setNext_of_ne {split next i : Nat} (hi : i ≠ split) :
    (code.setNext split next).ops[i]? = code.ops[i]? := by
  unfold setNext
  split
  · exact getElem?_set_ne hi.symm
  · rfl

theorem SplitAt.setNext {addr : Nat} {old : Option Nat} (h : code.SplitAt addr old first)
    (next : Nat) : (code.setNext addr next).SplitAt addr (some next) first := by
  obtain ⟨set, hop, hf⟩ := h
  obtain ⟨hlt, -⟩ := List.getElem?_eq_some_iff.mp hop
  refine ⟨set, ?_, by simpa using hf⟩
  simp only [Code.setNext, hop]
  exact getElem?_set_self hlt

theorem SplitAt.congr {code' : Code} {addr : Nat} {next : Option Nat}
    (h : code.SplitAt addr next first) (hop : code'.ops[addr]? = code.ops[addr]?)
    (hf : ∀ (j : Nat) (f : First), code.firsts[j]? = some f → code'.firsts[j]? = some f) :
    code'.SplitAt addr next first := by
  obtain ⟨set, hs, hfirst⟩ := h
  exact ⟨set, hop.trans hs, hf _ _ hfirst⟩

@[simp] theorem length_setJumps (code : Code) (jumps : List Nat) (target : Nat) :
    (code.setJumps jumps target).ops.length = code.ops.length := by
  simp only [setJumps]
  induction jumps using reverseRecOn with
  | nil => rfl
  | append_singleton jumps j ih => simp [ih]

theorem setJumps_of_notMem {target i : Nat} (hi : i ∉ jumps) :
    (code.setJumps jumps target).ops[i]? = code.ops[i]? := by
  simp only [setJumps]
  induction jumps using reverseRecOn with
  | nil => rfl
  | append_singleton jumps j ih =>
    simp only [mem_append, mem_singleton, not_or] at hi
    rw [foldl_append, foldl_cons, foldl_nil, getElem?_set_ne (Ne.symm hi.2),
      ih hi.1]

theorem setJumps_of_mem {target i : Nat} (hi : i ∈ jumps) (hlt : i < code.ops.length) :
    (code.setJumps jumps target).ops[i]? = some (.jump (some target)) := by
  induction jumps using reverseRecOn with
  | nil => cases hi
  | append_singleton jumps j ih =>
    have hlen := length_setJumps code jumps target
    simp only [setJumps] at ih hlen ⊢
    rw [foldl_append, foldl_cons, foldl_nil]
    by_cases hij : j = i
    · subst hij
      exact getElem?_set_self (hlen.symm ▸ hlt)
    · rw [getElem?_set_ne hij]
      refine ih ((mem_append.mp hi).resolve_right ?_)
      simpa using Ne.symm hij

/-- Filling in the target of a later split changes nothing before it. -/
theorem Extends.setNext {a b : Code} (h : Extends a b) {split next : Nat}
    (hs : a.ops.length ≤ split) : Extends a (b.setNext split next) where
  length_le := by simpa using h.length_le
  ops i hi := (setNext_of_ne (by omega)).trans (h.ops i hi)
  firsts j f hf := by simpa using h.firsts j f hf

theorem Extends.setJumps {a b : Code} (h : Extends a b) {target : Nat}
    (hj : ∀ j ∈ jumps, a.ops.length ≤ j) : Extends a (b.setJumps jumps target) where
  length_le := by simpa using h.length_le
  ops i hi := by
    have hnot : i ∉ jumps := fun hmem => by
      have := hj i hmem
      omega
    exact (setJumps_of_notMem hnot).trans (h.ops i hi)
  firsts := h.firsts

end Code

namespace Node

mutual

/-- The operations of a node stand from one address up to another. -/
def Laid (M : Membership) (classes : List Class) (code : Code) : Node → (first last : Nat) → Prop
  | .charClass cls, b, e => code.ops[b]? = some (.char cls) ∧ e = b + 1
  | .classRepeat cls min max, b, e => code.ops[b]? = some (.run cls min max) ∧ e = b + 1
  | .repeatGroup node min max, b, e =>
    if max = 0 then e = b
    else if min = 0 then
      code.SplitAt b (some e) (firstSets M classes node) ∧ Laid M classes code node (b + 1) e
    else Laid M classes code node b e
  | .concat nodes, b, e => LaidSeq M classes code nodes b e
  | .alt alternatives, b, e => LaidAlt M classes code alternatives b e
  | .notAhead cls, b, e => code.ops[b]? = some (.notAhead cls) ∧ e = b + 1

/-- Those of a sequence, one node after the other. -/
def LaidSeq (M : Membership) (classes : List Class) (code : Code) : List Node → Nat → Nat → Prop
  | [], b, e => e = b
  | node :: nodes, b, e =>
    ∃ mid, Laid M classes code node b mid ∧ LaidSeq M classes code nodes mid e

/-- Those of alternatives: a split before each, which leads to the next one's, and a jump to the end
after each but the last. -/
def LaidAlt (M : Membership) (classes : List Class) (code : Code) : List Node → Nat → Nat → Prop
  | [], b, e => e = b
  | [node], b, e =>
    code.SplitAt b none (firstSets M classes node) ∧ Laid M classes code node (b + 1) e
  | node :: other :: nodes, b, e =>
    ∃ mid, code.SplitAt b (some (mid + 1)) (firstSets M classes node) ∧
      Laid M classes code node (b + 1) mid ∧ code.ops[mid]? = some (.jump (some e)) ∧
      LaidAlt M classes code (other :: nodes) (mid + 1) e

end

variable {code : Code}

mutual

theorem Laid.le : ∀ {node : Node} {b e : Nat}, Laid M classes code node b e → b ≤ e
  | .charClass _, _, _, h => by have := h.2; omega
  | .classRepeat _ _ _, _, _, h => by have := h.2; omega
  | .repeatGroup node min max, b, e, h => by
    rw [Laid] at h
    split_ifs at h
    · omega
    · have := Laid.le h.2
      omega
    · exact Laid.le h
  | .concat nodes, b, e, h => LaidSeq.le (show LaidSeq M classes code nodes b e from h)
  | .alt nodes, b, e, h => LaidAlt.le (show LaidAlt M classes code nodes b e from h)
  | .notAhead _, _, _, h => by have := h.2; omega

theorem LaidSeq.le : ∀ {nodes : List Node} {b e : Nat}, LaidSeq M classes code nodes b e → b ≤ e
  | [], _, _, h => by rw [LaidSeq] at h; omega
  | _ :: _, _, _, h => by
    obtain ⟨mid, hn, hs⟩ := h
    exact (Laid.le hn).trans (LaidSeq.le hs)

theorem LaidAlt.le : ∀ {nodes : List Node} {b e : Nat}, LaidAlt M classes code nodes b e → b ≤ e
  | [], _, _, h => by rw [LaidAlt] at h; omega
  | [_], _, _, h => by
    have := Laid.le h.2
    omega
  | _ :: _ :: _, _, _, h => by
    obtain ⟨mid, -, hn, -, hs⟩ := h
    have := Laid.le hn
    have := LaidAlt.le hs
    omega

end

section Frame

variable (code' : Code)
  (hf : ∀ (j : Nat) (f : First), code.firsts[j]? = some f → code'.firsts[j]? = some f)
include hf

-- sequences use `hf` through their nodes only
set_option linter.unusedSectionVars false in
mutual

/-- What is laid out between two addresses depends on nothing else. -/
theorem Laid.frame :
    ∀ {node : Node} {b e : Nat}, Laid M classes code node b e →
      (∀ i, b ≤ i → i < e → code'.ops[i]? = code.ops[i]?) → Laid M classes code' node b e
  | .charClass _, b, e, h, ho => ⟨(ho b le_rfl (by have := h.2; omega)).trans h.1, h.2⟩
  | .classRepeat _ _ _, b, e, h, ho => ⟨(ho b le_rfl (by have := h.2; omega)).trans h.1, h.2⟩
  | .repeatGroup node min max, b, e, h, ho => by
    rw [Laid] at h ⊢
    split_ifs at h ⊢
    · exact h
    · have hle := Laid.le h.2
      exact ⟨h.1.congr (ho b le_rfl (by omega)) hf,
        Laid.frame h.2 fun i hi hie => ho i (by omega) hie⟩
    · exact Laid.frame h ho
  | .concat nodes, b, e, h, ho => LaidSeq.frame (show LaidSeq M classes code nodes b e from h) ho
  | .alt nodes, b, e, h, ho => LaidAlt.frame (show LaidAlt M classes code nodes b e from h) ho
  | .notAhead _, b, e, h, ho => ⟨(ho b le_rfl (by have := h.2; omega)).trans h.1, h.2⟩

theorem LaidSeq.frame :
    ∀ {nodes : List Node} {b e : Nat}, LaidSeq M classes code nodes b e →
      (∀ i, b ≤ i → i < e → code'.ops[i]? = code.ops[i]?) → LaidSeq M classes code' nodes b e
  | [], _, _, h, _ => h
  | _ :: _, b, e, h, ho => by
    obtain ⟨mid, hn, hs⟩ := h
    have hle := Laid.le hn
    have hle' := LaidSeq.le hs
    exact ⟨mid, Laid.frame hn fun i hi hie => ho i hi (by omega),
      LaidSeq.frame hs fun i hi hie => ho i (by omega) hie⟩

theorem LaidAlt.frame :
    ∀ {nodes : List Node} {b e : Nat}, LaidAlt M classes code nodes b e →
      (∀ i, b ≤ i → i < e → code'.ops[i]? = code.ops[i]?) → LaidAlt M classes code' nodes b e
  | [], _, _, h, _ => h
  | [_], b, e, h, ho => by
    have hle := Laid.le h.2
    exact ⟨h.1.congr (ho b le_rfl (by omega)) hf,
      Laid.frame h.2 fun i hi hie => ho i (by omega) hie⟩
  | _ :: _ :: _, b, e, h, ho => by
    obtain ⟨mid, hsplit, hn, hjump, hs⟩ := h
    have hle := Laid.le hn
    have hle' := LaidAlt.le hs
    exact ⟨mid, hsplit.congr (ho b le_rfl (by omega)) hf,
      Laid.frame hn fun i hi hie => ho i (by omega) (by omega),
      (ho mid (by omega) (by omega)).trans hjump,
      LaidAlt.frame hs fun i hi hie => ho i (by omega) hie⟩

end

end Frame

/-! ## The compiler -/

/-- What compiling the alternatives from one on has done, when their jumps will lead to the end. -/
structure AltCompiled (M : Membership) (classes : List Class) (nodes : List Node)
    (before : Code) (jumps : List Nat) (result : List Nat × Code) (js : List Nat) : Prop where
  jumps_eq : result.1 = jumps ++ js
  jumps_ge : ∀ j ∈ js, before.ops.length ≤ j
  jumps_lt : ∀ j ∈ js, j < result.2.ops.length
  extended : before.Extends result.2
  laid : LaidAlt M classes (result.2.setJumps js result.2.ops.length) nodes before.ops.length
    result.2.ops.length

/-- The split before the alternatives, if there is one, leads to them. -/
def link (previous : Option Nat) (code : Code) : Code :=
  previous.elim code fun split => code.setNext split code.ops.length

@[simp] theorem length_link (previous : Option Nat) (code : Code) :
    (link previous code).ops.length = code.ops.length := by
  cases previous <;> simp [link]

/-- The split before a body stands where it was pushed. -/
theorem splitAt_body {body : Code} (hext : (code.pushSplit first).Extends body) :
    body.SplitAt code.ops.length none first :=
  SplitAt.congr ⟨code.firsts.length, by simp [pushSplit], by simp [pushSplit]⟩
    (hext.ops _ (by simp)) hext.firsts

/-- An alternative in front of others: its split leads to theirs, its jump to their end. -/
theorem AltCompiled.cons {node other : Node} {nodes : List Node} {body : Code} {js : List Nat}
    {r : List Nat × Code} (hext : (code.pushSplit (firstSets M classes node)).Extends body)
    (hlaid : Laid M classes body node (code.ops.length + 1) body.ops.length)
    (h : AltCompiled M classes (other :: nodes) (link (some code.ops.length) (body.push
      (.jump none))) (jumps ++ [body.ops.length]) r js) :
    AltCompiled M classes (node :: other :: nodes) code jumps r (body.ops.length :: js) := by
  have hpush := extends_push body (.jump none)
  have hlen : code.ops.length < body.ops.length := by
    have := hext.length_le
    rwa [length_pushSplit] at this
  have hmid : body.ops.length < r.2.ops.length := by
    have := h.extended.length_le
    rwa [length_link, length_push] at this
  have hge : ∀ j ∈ body.ops.length :: js, body.ops.length ≤ j := by
    intro j hj
    rcases mem_cons.mp hj with rfl | hj
    · exact le_rfl
    · have := h.jumps_ge j hj
      rw [length_link, length_push] at this
      omega
  have hnot : ∀ i, i < body.ops.length → i ∉ body.ops.length :: js := fun i hi hmem =>
    absurd (hge i hmem) (by omega)
  -- up to the jump only the target of the split has changed
  have hkeep : ∀ i, i < body.ops.length →
      (r.2.setJumps (body.ops.length :: js) r.2.ops.length).ops[i]? =
        (link (some code.ops.length) (body.push (.jump none))).ops[i]? := fun i hi =>
    (setJumps_of_notMem (hnot i hi)).trans (h.extended.ops i (by simp; omega))
  have hfirsts : ∀ (j : Nat) (f : First), body.firsts[j]? = some f →
      r.2.firsts[j]? = some f := fun j f hf =>
    h.extended.firsts j f (by simpa [link] using hpush.firsts j f hf)
  refine ⟨?_, ?_, ?_, ?_, body.ops.length, ?_, ?_, ?_, ?_⟩
  · rw [h.jumps_eq, append_assoc]
    rfl
  · exact fun j hj => hlen.le.trans (hge j hj)
  · exact forall_mem_cons.mpr ⟨hmid, h.jumps_lt⟩
  · refine Code.Extends.trans ?_ h.extended
    exact (((extends_pushSplit _ _).trans hext).trans hpush).setNext le_rfl
  · have hnext := ((splitAt_body hext).congr (hpush.ops _ hlen) hpush.firsts).setNext
      (body.ops.length + 1)
    refine hnext.congr ?_ fun j f hf => h.extended.firsts j f (by simpa [link] using hf)
    rw [hkeep _ hlen]
    simp [link]
  · refine Laid.frame _ ?_ hlaid fun i hi hlt => ?_
    · exact hfirsts
    rw [hkeep i hlt]
    exact (setNext_of_ne (by omega)).trans (hpush.ops i hlt)
  · exact setJumps_of_mem (by simp) hmid
  · have hrest := h.laid
    rw [length_link, length_push] at hrest
    refine LaidAlt.frame _ ?_ hrest fun i hi _ => ?_
    · exact fun _ _ hf => hf
    by_cases hmem : i ∈ js
    · rw [setJumps_of_mem (mem_cons_of_mem _ hmem) (h.jumps_lt i hmem),
        setJumps_of_mem hmem (h.jumps_lt i hmem)]
    · have hne : i ≠ body.ops.length := by omega
      rw [setJumps_of_notMem (by simp [hmem, hne]), setJumps_of_notMem hmem]

mutual

/-- **The compiler lays out the node** behind what was there. -/
theorem laid_compile : ∀ (node : Node) (code : Code),
    code.Extends (compile M classes node code) ∧
      Laid M classes (compile M classes node code) node code.ops.length
        (compile M classes node code).ops.length
  | .charClass cls, code =>
    ⟨extends_push code _, push_length code _, length_push code _⟩
  | .classRepeat cls min max, code =>
    ⟨extends_push code _, push_length code _, length_push code _⟩
  | .repeatGroup node min max, code => by
    rw [compile, Laid]
    split_ifs
    · exact ⟨.refl code, rfl⟩
    · obtain ⟨hext, hlaid⟩ := laid_compile node (code.pushSplit (firstSets M classes node))
      rw [length_pushSplit] at hlaid
      refine ⟨((extends_pushSplit code _).trans hext).setNext le_rfl, ?_, ?_⟩
      · rw [length_setNext]
        exact (splitAt_body hext).setNext _
      · rw [length_setNext]
        exact hlaid.frame _ (by simp) fun i hi _ => setNext_of_ne (by omega)
    · exact laid_compile node code
  | .concat nodes, code => laid_compileSeq nodes code
  | .alt [], code => ⟨.refl code, rfl⟩
  | .alt (node :: nodes), code => by
    obtain ⟨js, h⟩ := laid_compileAlt (node :: nodes) (by simp) none [] code
    have hjs := h.jumps_eq
    rw [compile]
    simp only [hjs, length_setJumps]
    exact ⟨h.extended.setJumps h.jumps_ge, h.laid⟩
  | .notAhead cls, code =>
    ⟨extends_push code _, push_length code _, length_push code _⟩

theorem laid_compileSeq : ∀ (nodes : List Node) (code : Code),
    code.Extends (compileSeq M classes nodes code) ∧
      LaidSeq M classes (compileSeq M classes nodes code) nodes code.ops.length
        (compileSeq M classes nodes code).ops.length
  | [], code => ⟨.refl code, rfl⟩
  | node :: nodes, code => by
    obtain ⟨hext, hlaid⟩ := laid_compile node code
    obtain ⟨hext', hlaid'⟩ := laid_compileSeq nodes (compile M classes node code)
    refine ⟨hext.trans hext', _, ?_, hlaid'⟩
    exact hlaid.frame _ hext'.firsts fun i _ hi => hext'.ops i hi

theorem laid_compileAlt : ∀ (nodes : List Node) (_ : nodes ≠ []) (previous : Option Nat)
    (jumps : List Nat) (code : Code),
    ∃ js, AltCompiled M classes nodes (link previous code) jumps
      (compileAlt M classes nodes previous jumps code) js
  | [], hne, _, _, _ => absurd rfl hne
  | [node], _, previous, jumps, code => by
    obtain ⟨hext, hlaid⟩ :=
      laid_compile node ((link previous code).pushSplit (firstSets M classes node))
    rw [length_pushSplit] at hlaid
    rw [compileAlt, compileAlt]
    exact ⟨[], by simp, by simp, by simp, (extends_pushSplit _ _).trans hext,
      splitAt_body hext, hlaid⟩
  | node :: other :: nodes, _, previous, jumps, code => by
    obtain ⟨hext, hlaid⟩ :=
      laid_compile node ((link previous code).pushSplit (firstSets M classes node))
    rw [length_pushSplit] at hlaid
    obtain ⟨js, h⟩ := laid_compileAlt (other :: nodes) (by simp)
      (some (link previous code).ops.length) (jumps ++ [_]) _
    have hcons := AltCompiled.cons hext hlaid h
    rw [length_link] at hcons
    exact ⟨_, hcons⟩

end

end Node

end Smg.Tokenizer
