import Smg.Tokenizer.PatternLayout

/-!
# Pre-tokenizer patterns: the program matches what the tree matches

The program of a parsed pattern, run by the matcher with its stack of at most `maxChoices` choices,
finds at every position of every text the match that backtracking over the tree finds, or finds none
if there is none.

The argument follows the tree.  `Accepts addr depth k` says of an address that a matcher arriving
there, with at most `depth` choices on its stack, ends as the continuation `k` of the tree's matcher
would: with its result, or back at the choices that were there.  If the address behind a node
accepts a continuation, then the address of the node accepts the node in front of that continuation
(`accepts_attempt`); the address behind the whole program accepts everything, and so the beginning
accepts the whole tree.

What the splits skip is nothing: `opens_attempt` says of the sets of first characters that a
character outside of them begins no match.
-/

set_option autoImplicit false

namespace Smg.Tokenizer

open Backtrack Utf8 Node List

variable {M : Membership} {classes : List Class} {n : Nat}

namespace Node

/-! ## What a match reads -/

section Reads

variable {ρ : Type}

mutual

theorem local_attempt : ∀ node : Node, Local (attempt M classes node : Matcher Char ρ)
  | .charClass _ => (consumes_single _).toLocal
  | .classRepeat _ min max => local_greedy (consumes_single _).toLocal min max
  | .repeatGroup node min max => local_greedy (local_attempt node) min max
  | .concat nodes => local_attemptSeq nodes
  | .alt nodes => local_attemptAlt nodes
  | .notAhead _ => local_notAhead _

theorem local_attemptSeq :
    ∀ nodes : List Node, Local (attemptSeq M classes nodes : Matcher Char ρ)
  | [] => local_skip
  | node :: nodes => (local_attempt node).seq (local_attemptSeq nodes)

theorem local_attemptAlt :
    ∀ nodes : List Node, Local (attemptAlt M classes nodes : Matcher Char ρ)
  | [] => fun _ _ _ h => nomatch h
  | node :: nodes => (local_attempt node).alt (local_attemptAlt nodes)

end

mutual

theorem consumes_attempt : ∀ node : Node, node.Wf n → node.canMatchEmpty = false →
    Consumes (attempt M classes node : Matcher Char ρ)
  | .charClass _, _, _ => consumes_single _
  | .classRepeat _ min max, hw, he =>
    consumes_greedy (consumes_single _) (beq_eq_false_iff_ne.mp he) hw.2
  | .repeatGroup node min max, hw, he => by
    obtain ⟨hmin, hnode⟩ := Bool.or_eq_false_iff.mp he
    exact consumes_greedy (consumes_attempt node hw.1 hnode) (beq_eq_false_iff_ne.mp hmin) hw.2.1
  | .concat nodes, hw, he => consumes_attemptSeq nodes hw he
  | .alt nodes, hw, he => consumes_attemptAlt nodes hw.2 he

theorem consumes_attemptSeq : ∀ nodes : List Node, WfAll n nodes →
    allCanMatchEmpty nodes = false → Consumes (attemptSeq M classes nodes : Matcher Char ρ)
  | node :: nodes, hw, he => by
    rw [allCanMatchEmpty, Bool.and_eq_false_iff] at he
    rcases he with he | he
    · exact (consumes_attempt node hw.1 he).seq (local_attemptSeq nodes)
    · exact (local_attempt node).seq_consumes (consumes_attemptSeq nodes hw.2 he)

theorem consumes_attemptAlt : ∀ nodes : List Node, WfAll n nodes →
    anyCanMatchEmpty nodes = false → Consumes (attemptAlt M classes nodes : Matcher Char ρ)
  | [], _, _ => fun _ _ _ h => nomatch h
  | node :: nodes, hw, he => by
    obtain ⟨hnode, hnodes⟩ := Bool.or_eq_false_iff.mp he
    exact (consumes_attempt node hw.1 hnode).alt (consumes_attemptAlt nodes hw.2 hnodes)

end

end Reads

end Node

/-! ## The sets of first characters -/

namespace First

theorem holds_or (f g : First) (c : Char) : (f.or g).holds c = (f.holds c || g.holds c) := by
  unfold holds or
  split <;> rfl

variable {ρ : Type}

theorem opens_andThen {m m' : Matcher Char ρ} {f g : First} (h : Opens m f.holds f.nullable)
    (h' : Opens m' g.holds g.nullable) :
    Opens (fun s k => m s fun s' => m' s' k) (f.andThen g).holds (f.andThen g).nullable := by
  unfold andThen
  cases hn : f.nullable with
  | false =>
    rw [hn] at h
    rw [if_neg Bool.false_ne_true, hn]
    exact h.seq_of_false
  | true =>
    rw [hn] at h
    rw [if_pos rfl]
    refine (h.seq h').mono (fun c hc => ?_) fun hnull => hnull
    rw [← hc]
    unfold holds
    split <;> rfl

end First

variable {cls : Nat} {node : Node}

namespace Node

theorem holds_of_classFirst {c : Char} (h : (classFirst M classes cls).holds c = false) :
    holds M classes cls c = false := by
  unfold classFirst at h
  unfold holds
  cases hK : classes[cls]? with
  | none => rfl
  | some K =>
    rw [hK] at h
    change M.contains K c = false
    simp only [First.holds, Class.first] at h
    split_ifs at h with hc
    · rwa [Char.ofNat_toNat] at h
    · by_contra hcon
      have := M.beyond K c (Bool.not_eq_false _ ▸ hcon) (by omega)
      rw [this] at h
      cases h

section Opens

variable {ρ : Type}

theorem opens_class (cls : Nat) : Opens (single (holds M classes cls) : Matcher Char ρ)
    (classFirst M classes cls).holds false :=
  (opens_single _).mono (fun _ => holds_of_classFirst) fun h => h

mutual

/-- **A character outside of the set of a node begins no match of it.** -/
theorem opens_attempt : ∀ node : Node, node.Wf n →
    Opens (attempt M classes node : Matcher Char ρ) (firstSets M classes node).holds
      (firstSets M classes node).nullable
  | .charClass cls, _ => by
    refine (opens_class cls).mono (fun _ h => h) fun _ => rfl
  | .classRepeat cls min max, hw =>
    (opens_greedy (opens_class cls) hw.2).mono (fun _ h => h) fun h => by
      simpa [firstSets] using h
  | .repeatGroup node min max, hw => opens_greedy (opens_attempt node hw.1) hw.2.1
  | .concat nodes, hw => by
    have hskip : Opens (fun s k => k s : Matcher Char ρ)
        (First.holds { nullable := true }) true :=
      opens_skip.mono (fun _ _ => rfl) fun h => h
    exact opens_attemptSeq nodes hw hskip
  | .alt nodes, hw => by
    refine opens_attemptAlt nodes hw.2 (m := fun _ _ => none) ⟨fun _ _ _ _ _ => rfl, ?_⟩
    exact fun _ _ _ _ _ => rfl
  | .notAhead cls, _ => (opens_notAhead _).mono (fun _ _ => rfl) fun h => h

theorem opens_attemptSeq {m : Matcher Char ρ} : ∀ (nodes : List Node) {first : First},
    WfAll n nodes → Opens m first.holds first.nullable →
    Opens (fun s k => m s fun s' => attemptSeq M classes nodes s' k)
      (firstSeq M classes nodes first).holds (firstSeq M classes nodes first).nullable
  | [], _, _, h => h
  | node :: nodes, _, hw, h =>
    opens_attemptSeq nodes hw.2 (First.opens_andThen h (opens_attempt node hw.1))

theorem opens_attemptAlt {m : Matcher Char ρ} : ∀ (nodes : List Node) {all : First},
    WfAll n nodes → Opens m all.holds all.nullable →
    Opens (fun s k => (m s k).or (attemptAlt M classes nodes s k))
      (firstAlt M classes nodes all).holds (firstAlt M classes nodes all).nullable
  | [], _, _, h => by simpa [attemptAlt, firstAlt] using h
  | node :: nodes, all, hw, h => by
    have := opens_attemptAlt nodes hw.2 ((h.alt (opens_attempt node hw.1)).mono
      (fun c hc => (First.holds_or _ _ c).symm.trans hc) fun hn => hn)
    simpa only [attemptAlt, firstAlt, Option.or_assoc] using this

end

theorem attempt_eq_none (hw : node.Wf n) {c : Char}
    (hc : (firstSets M classes node).mayStart c = false) (s : Text) (k : Text → Option ρ) :
    attempt M classes node (c :: s) k = none := by
  obtain ⟨hnull, hfirst⟩ := Bool.or_eq_false_iff.mp hc
  exact (opens_attempt node hw).fails c s k hfirst hnull

end Opens

end Node

/-! ## The matcher -/

namespace Pattern

variable {rest : Text} {depth pos : Nat}

section Matcher

open Machine

variable {p : Pattern} {text : Text}

/-- The matcher in a state ends as an outcome says: with the match, or as it would from the choices.
-/
def Yields (M : Membership) (p : Pattern) (text : Text) (s : State) (choices : List Choice) :
    Option Text → Prop
  | some r => Ends (step M p text) s (.matched (offset text r))
  | none => ∀ v, Ends (step M p text) (.failing choices) v → Ends (step M p text) s v

/-- Whoever arrives at an address, with not too many choices, ends as the continuation does there.
-/
def Accepts (M : Membership) (p : Pattern) (text : Text) (addr depth : Nat)
    (k : Text → Option Text) : Prop :=
  ∀ rest pos choices, Stands text pos rest → choices.length ≤ depth →
    Yields M p text (.running addr pos choices) choices (k rest)

variable {choices : List Choice}

theorem Yields.of_step {s s' : State} {o : Option Text} (h : Yields M p text s' choices o)
    (hs : step M p text s = .inl s') : Yields M p text s choices o := by
  cases o with
  | some r => exact .next hs h
  | none => exact fun v hv => .next hs (h v hv)

theorem yields_failing (choices : List Choice) :
    Yields M p text (.failing choices) choices none := fun _ hv => hv

/-- A choice that leads to another state offers what that state yields. -/
theorem Yields.or {s s' : State} {choice : Choice} {o o' : Option Text}
    (h : Yields M p text s (choice :: choices) o)
    (hs : step M p text (.failing (choice :: choices)) = .inl s')
    (h' : Yields M p text s' choices o') : Yields M p text s choices (o.or o') := by
  cases o with
  | some r => exact h
  | none =>
    cases o' with
    | some r => exact h _ (.next hs h')
    | none => exact fun v hv => h v (.next hs (h' v hv))

variable {k : Text → Option Text} {addr : Nat}

theorem Accepts.mono {depth' : Nat} (h : Accepts M p text addr depth k) (hd : depth' ≤ depth) :
    Accepts M p text addr depth' k :=
  fun rest pos choices hst hlen => h rest pos choices hst (hlen.trans hd)

/-! ### Runs -/

theorem runEnd_eq (K : Class) (left count : Nat) (h : Stands text pos rest) :
    ∃ stop, runEnd M text K left count pos = (count + runLength (M.contains K) left rest, stop) ∧
      Stands text stop (rest.drop (runLength (M.contains K) left rest)) := by
  induction left generalizing count pos rest with
  | zero => exact ⟨pos, by simp [runEnd], by simpa using h⟩
  | succ left ih =>
    cases rest with
    | nil =>
      refine ⟨pos, ?_, by simpa [runLength_nil] using h⟩
      rw [runEnd, h.nextChar_nil]
      simp [runLength_nil]
    | cons c rest =>
      rw [runEnd, h.nextChar_cons]
      cases hc : M.contains K c with
      | false =>
        refine ⟨pos, ?_, by simpa [runLength_cons_neg hc] using h⟩
        simp [hc, runLength_cons_neg hc]
      | true =>
        obtain ⟨stop, heq, hst⟩ := ih (count + 1) h.next
        refine ⟨stop, ?_, by simpa [runLength_cons_pos hc] using hst⟩
        simp only [hc, if_true, heq, runLength_cons_pos hc]
        congr 1
        omega

theorem yields_backOff {min max : Nat} (hop : p.program[addr]? = some (.run cls min max))
    (hk : Accepts M p text (addr + 1) (choices.length + 1) k) :
    ∀ {extra stop : Nat}, Stands text stop (rest.drop (min + extra)) →
      min + extra ≤ rest.length → rest <:+ text →
      Yields M p text (.running (addr + 1) stop (⟨addr, stop, min + extra⟩ :: choices)) choices
        (backOff rest k min extra)
  | 0, stop, hst, _, _ => by
    have h := hk _ stop (⟨addr, stop, min + 0⟩ :: choices) hst (by simp)
    have hback : step M p text (.failing (⟨addr, stop, min + 0⟩ :: choices)) =
        .inl (.failing choices) := by
      simp [step, hop, resume]
    simpa [backOff] using h.or hback (yields_failing choices)
  | extra + 1, stop, hst, hlen, hsuf => by
    have hlt : min + extra < rest.length := by omega
    have hdrop : rest.drop (min + extra) = rest[min + extra] :: rest.drop (min + (extra + 1)) :=
      drop_eq_getElem_cons hlt
    have hbefore := stands_offset ((drop_suffix (min + extra) rest).trans hsuf)
    generalize hpos : offset text (rest.drop (min + extra)) = before at hbefore
    have hnext := hbefore
    rw [hdrop] at hnext
    obtain rfl : stop = before + size rest[min + extra] := by
      rw [← hst.offset_eq, ← hnext.next.offset_eq]
    have hback : step M p text (.failing
        (⟨addr, before + size rest[min + extra], min + (extra + 1)⟩ :: choices)) =
        .inl (.running (addr + 1) before (⟨addr, before, min + extra⟩ :: choices)) := by
      simp only [step, hop, resume, hnext.previousBoundary]
      rw [if_pos (by omega)]
      congr 3
    have h := hk _ _ (⟨addr, before + size rest[min + extra], min + (extra + 1)⟩ :: choices) hst
      (by simp)
    exact h.or hback (yields_backOff hop hk hbefore (by omega) hsuf)

section OfClass

variable {K : Class} (hK : p.classes[cls]? = some K)
include hK

theorem holds_of_getElem? : holds M p.classes cls = M.contains K := by
  funext c
  simp [holds, hK]

theorem accepts_char (hop : p.program[addr]? = some (.char cls))
    (hk : Accepts M p text (addr + 1) depth k) :
    Accepts M p text addr depth fun s => single (holds M p.classes cls) s k := by
  intro rest pos choices hst hlen
  beta_reduce
  rw [holds_of_getElem? hK]
  cases rest with
  | nil => exact (yields_failing choices).of_step (by simp [step, hop, exec, hst.nextChar_nil])
  | cons c rest =>
    rw [single_cons]
    split
    next hc =>
      exact (hk rest _ choices hst.next hlen).of_step
        (by simp [step, hop, exec, hst.nextChar_cons, hK, hc])
    next hc =>
      exact (yields_failing choices).of_step
        (by simp [step, hop, exec, hst.nextChar_cons, hK, hc])

theorem accepts_notAhead (hop : p.program[addr]? = some (.notAhead cls))
    (hk : Accepts M p text (addr + 1) depth k) :
    Accepts M p text addr depth fun s => notAhead (holds M p.classes cls) s k := by
  intro rest pos choices hst hlen
  beta_reduce
  rw [holds_of_getElem? hK]
  cases rest with
  | nil =>
    exact (hk [] pos choices hst hlen).of_step (by simp [step, hop, exec, hst.nextChar_nil])
  | cons c rest =>
    rw [notAhead_cons]
    split
    next hc =>
      exact (yields_failing choices).of_step
        (by simp [step, hop, exec, hst.nextChar_cons, hK, hc])
    next hc =>
      exact (hk (c :: rest) pos choices hst hlen).of_step
        (by simp [step, hop, exec, hst.nextChar_cons, hK, hc])

theorem accepts_run {min max : Nat} (hop : p.program[addr]? = some (.run cls min max))
    (hmax : min ≤ max) (hdepth : depth < maxChoices)
    (hk : Accepts M p text (addr + 1) (depth + 1) k) :
    Accepts M p text addr depth fun s => greedy (single (holds M p.classes cls)) min max s k := by
  intro rest pos choices hst hlen
  beta_reduce
  obtain ⟨stop, hrun, hstop⟩ := runEnd_eq (M := M) K max 0 hst
  rw [holds_of_getElem? hK, greedy_single _ _ _ _ _ hmax]
  split
  next hlt => exact (yields_failing choices).of_step (by simp [step, hop, exec, hK, hrun, hlt])
  next hge =>
    obtain ⟨extra, hextra⟩ := Nat.exists_eq_add_of_le (not_lt.mp hge)
    rw [hextra] at hrun hstop ⊢
    have hle : min + extra ≤ rest.length := by
      rw [← hextra]
      exact runLength_le _ _ _
    rw [Nat.add_sub_cancel_left]
    refine (yields_backOff hop (hk.mono (by omega)) hstop hle hst.suffix).of_step ?_
    have hpush : choices.length < maxChoices := by omega
    simp [step, hop, exec, hK, hrun, pushChoice, hpush]

end OfClass

theorem accepts_jump {target : Nat} (hop : p.program[addr]? = some (.jump (some target)))
    (hk : Accepts M p text target depth k) : Accepts M p text addr depth k :=
  fun rest pos choices hst hlen =>
    (hk rest pos choices hst hlen).of_step (by simp [step, hop, exec])

def code (p : Pattern) : Code := ⟨p.program, p.firsts⟩

/-- A split tries what follows it, and then its other way; the way it skips would have failed. -/
theorem accepts_split {next : Nat} {first : First} {k' : Text → Option Text}
    (hop : p.code.SplitAt addr (some next) first) (hdepth : depth < maxChoices)
    (hfirst : ∀ c s, first.mayStart c = false → k (c :: s) = none)
    (hk : Accepts M p text (addr + 1) (depth + 1) k) (hk' : Accepts M p text next depth k') :
    Accepts M p text addr depth fun s => (k s).or (k' s) := by
  obtain ⟨set, hop, hset⟩ := hop
  simp only [code] at hop hset
  intro rest pos choices hst hlen
  beta_reduce
  have hpush : choices.length < maxChoices := by omega
  have hback : step M p text (.failing (⟨addr, pos, 0⟩ :: choices)) =
      .inl (.running next pos choices) := by
    simp [step, hop, resume]
  have hboth : Yields M p text (.running (addr + 1) pos (⟨addr, pos, 0⟩ :: choices)) choices
      ((k rest).or (k' rest)) :=
    (hk rest pos _ hst (by simpa using hlen)).or hback (hk' rest pos choices hst hlen)
  cases rest with
  | nil =>
    exact hboth.of_step (by simp [step, hop, exec, hst.nextChar_nil, pushChoice, hpush])
  | cons c rest =>
    cases hc : first.mayStart c with
    | true =>
      exact hboth.of_step
        (by simp [step, hop, exec, hst.nextChar_cons, hset, hc, pushChoice, hpush])
    | false =>
      rw [hfirst c rest hc]
      exact (hk' (c :: rest) pos choices hst hlen).of_step
        (by simp [step, hop, exec, hst.nextChar_cons, hset, hc])

theorem accepts_split_none {first : First} (hop : p.code.SplitAt addr none first)
    (hfirst : ∀ c s, first.mayStart c = false → k (c :: s) = none)
    (hk : Accepts M p text (addr + 1) depth k) : Accepts M p text addr depth k := by
  obtain ⟨set, hop, hset⟩ := hop
  simp only [code] at hop hset
  intro rest pos choices hst hlen
  have h := hk rest pos choices hst hlen
  cases rest with
  | nil => exact h.of_step (by simp [step, hop, exec, hst.nextChar_nil])
  | cons c rest =>
    cases hc : first.mayStart c with
    | true => exact h.of_step (by simp [step, hop, exec, hst.nextChar_cons, hset, hc])
    | false =>
      rw [hfirst c rest hc]
      exact (yields_failing choices).of_step
        (by simp [step, hop, exec, hst.nextChar_cons, hset, hc])

mutual

/-- **The address of a node accepts the node** in front of what the address behind it accepts. -/
theorem accepts_attempt : ∀ (node : Node) {b e depth : Nat} {k : Text → Option Text},
    Node.Laid M p.classes p.code node b e → node.Wf p.classes.length →
    depth + node.choices ≤ maxChoices → Accepts M p text e (depth + node.choices) k →
    Accepts M p text b depth fun s => node.attempt M p.classes s k
  | .charClass cls, b, e, depth, k, hlaid, hw, hd, hk => by
    obtain ⟨hop, rfl⟩ := hlaid
    exact accepts_char (getElem?_eq_getElem hw) hop hk
  | .classRepeat cls min max, b, e, depth, k, hlaid, hw, hd, hk => by
    obtain ⟨hop, rfl⟩ := hlaid
    exact accepts_run (getElem?_eq_getElem hw.1) hop hw.2 hd hk
  | .repeatGroup node min max, b, e, depth, k, hlaid, hw, hd, hk => by
    obtain ⟨hnode, hmin, hmax⟩ := hw
    rw [Node.Laid] at hlaid
    rw [choices] at hd hk
    simp only [attempt]
    rcases Nat.eq_zero_or_pos max with rfl | hpos
    · subst hlaid
      simpa using hk
    obtain rfl : max = 1 := by omega
    rw [if_neg Nat.one_ne_zero] at hlaid hd hk
    rcases Nat.eq_zero_or_pos min with rfl | hpos
    · have hbody := accepts_attempt node hlaid.2 hnode (by omega)
        (hk.mono (le_of_eq (Nat.add_assoc depth 1 _)))
      refine accepts_split hlaid.1 (by omega) ?_ hbody (hk.mono (by omega))
      exact fun c s hc => attempt_eq_none hnode hc s k
    · obtain rfl : min = 1 := by omega
      exact accepts_attempt node hlaid hnode (by omega) (hk.mono (by omega))
  | .concat nodes, b, e, depth, k, hlaid, hw, hd, hk => accepts_attemptSeq nodes hlaid hw hd hk
  | .alt nodes, b, e, depth, k, hlaid, hw, hd, hk => accepts_attemptAlt nodes hlaid hw.1 hw.2 hd hk
  | .notAhead cls, b, e, depth, k, hlaid, hw, hd, hk => by
    obtain ⟨hop, rfl⟩ := hlaid
    exact accepts_notAhead (getElem?_eq_getElem hw) hop hk

theorem accepts_attemptSeq : ∀ (nodes : List Node) {b e depth : Nat} {k : Text → Option Text},
    Node.LaidSeq M p.classes p.code nodes b e → Node.WfAll p.classes.length nodes →
    depth + sumChoices nodes ≤ maxChoices →
    Accepts M p text e (depth + sumChoices nodes) k →
    Accepts M p text b depth fun s => attemptSeq M p.classes nodes s k
  | [], b, e, depth, k, hlaid, _, _, hk => by
    subst hlaid
    exact hk
  | node :: nodes, b, e, depth, k, hlaid, hw, hd, hk => by
    obtain ⟨mid, hnode, hnodes⟩ := hlaid
    rw [sumChoices, ← Nat.add_assoc] at hd hk
    exact accepts_attempt node hnode hw.1 (by omega) (accepts_attemptSeq nodes hnodes hw.2 hd hk)

theorem accepts_attemptAlt : ∀ (nodes : List Node) {b e depth : Nat} {k : Text → Option Text},
    Node.LaidAlt M p.classes p.code nodes b e → nodes ≠ [] → Node.WfAll p.classes.length nodes →
    depth + (1 + Node.maxChoices nodes) ≤ maxChoices →
    Accepts M p text e (depth + (1 + Node.maxChoices nodes)) k →
    Accepts M p text b depth fun s => Node.attemptAlt M p.classes nodes s k
  | [], _, _, _, _, _, hne, _, _, _ => absurd rfl hne
  | [node], b, e, depth, k, hlaid, _, hw, hd, hk => by
    have hle : node.choices ≤ Node.maxChoices [node] := by simp [Node.maxChoices]
    have hbody := accepts_attempt node hlaid.2 hw.1 (by omega)
      (Accepts.mono hk (Nat.add_le_add_left (by omega) depth))
    simp only [Node.attemptAlt, Option.or_none]
    exact accepts_split_none hlaid.1 (fun c s hc => attempt_eq_none hw.1 hc s k) hbody
  | node :: other :: nodes, b, e, depth, k, hlaid, _, hw, hd, hk => by
    obtain ⟨mid, hsplit, hnode, hjump, hrest⟩ := hlaid
    rw [Node.maxChoices] at hd hk
    have hmid : Accepts M p text mid (depth + 1 + node.choices) k :=
      accepts_jump hjump (hk.mono (by omega))
    have hbody := accepts_attempt node hnode hw.1 (by omega) hmid
    have hothers := accepts_attemptAlt (other :: nodes) hrest (by simp) hw.2 (by omega)
      (Accepts.mono hk (Nat.add_le_add_left (by omega) depth))
    exact accepts_split hsplit (by omega) (fun c s hc => attempt_eq_none hw.1 hc s k) hbody
      hothers

end

end Matcher

/-! ## Whole texts -/

/-- What the parser guarantees of a pattern. -/
structure Compiled (M : Membership) (p : Pattern) : Prop where
  wf : p.root.Wf p.classes.length
  nonempty : p.root.canMatchEmpty = false
  choices_le : p.root.choices ≤ maxChoices
  laid : ∃ last, Node.Laid M p.classes p.code p.root 0 last ∧ p.program[last]? = some .done

theorem compiled_of_parse {alphanumeric : Char → Bool} {pattern : Text} {p : Pattern}
    (h : parse M alphanumeric depth pattern = some p) : Compiled M p := by
  simp only [parse, Option.bind_eq_bind, Option.bind_eq_some_iff, Prod.exists] at h
  obtain ⟨root, parser, hroot, h⟩ := h
  have hwf := ((Parser.keeps depth).alternation _ _ hroot).2
  split_ifs at h with hchars hempty hchoices
  cases h
  obtain ⟨hext, hlaid⟩ := @laid_compile M parser.classes root {}
  have hpush := Code.extends_push (root.compile M parser.classes {}) .done
  refine ⟨hwf, Bool.not_eq_true _ ▸ hempty, not_lt.mp hchoices, _, ?_, Code.push_length _ _⟩
  exact hlaid.frame _ hpush.firsts fun i _ hi => hpush.ops i hi

section Texts

variable {p : Pattern} {text : Text}

/-- How a match ends, from what the tree matches. -/
def verdict (text : Text) : Option Text → Verdict
  | some r => .matched (offset text r)
  | none => .unmatched

/-- **The matcher finds what the tree matches at a position**, and it stops. -/
theorem Compiled.matchAt (h : Compiled M p) (hst : Stands text pos rest) : ∃ N, ∀ fuel, N ≤ fuel →
      p.matchAt M text fuel pos = some (verdict text (p.root.attempt M p.classes rest some)) := by
  obtain ⟨last, hlaid, hdone⟩ := h.laid
  have hlast : Accepts M p text last (0 + p.root.choices) some := by
    intro rest pos choices hst _
    refine .last ?_
    simp [step, hdone, exec, hst.offset_eq]
  have hroot := accepts_attempt p.root hlaid h.wf (by simpa using h.choices_le) hlast rest pos []
    hst le_rfl
  refine Machine.Ends.exists_runFor ?_
  cases hm : p.root.attempt M p.classes rest some with
  | some r =>
    simp only [hm] at hroot
    exact hroot
  | none =>
    simp only [hm] at hroot
    exact hroot _ (.last rfl)

theorem Compiled.shorter (h : Compiled M p) {r : Text}
    (hm : p.root.attempt M p.classes rest some = some r) : r <:+ rest ∧ r.length < rest.length := by
  obtain ⟨r', hsuf, hlt, hr⟩ := consumes_attempt p.root h.wf h.nonempty rest some r hm
  cases hr
  exact ⟨hsuf, hlt⟩

theorem offset_lt {r : Text} (hrest : rest <:+ text) (hsuf : r <:+ rest)
    (hlt : r.length < rest.length) : offset text rest < offset text r := by
  obtain ⟨before, rfl⟩ := hsuf
  have hne : before ≠ [] := by
    rintro rfl
    simp at hlt
  have hpos := length_pos_iff.mpr (mt encode_eq_nil.mp hne)
  have hle := length_encode_le hrest
  simp only [offset, encode_append, length_append] at hle ⊢
  omega

theorem Compiled.findFrom (h : Compiled M p) (hst : Stands text pos rest) :
    ∃ N, ∀ fuel, N ≤ fuel → ∀ turns n, rest.length < turns → rest.length ≤ n →
      p.findFrom M text fuel turns pos =
        some (scan (fun s => p.root.attempt M p.classes s some) text n rest) := by
  induction hlen : rest.length using Nat.strong_induction_on generalizing rest pos with
  | _ l ih =>
    subst hlen
    cases rest with
    | nil =>
      refine ⟨0, fun fuel _ turns n ht _ => ?_⟩
      obtain ⟨turns, rfl⟩ := Nat.exists_eq_add_of_lt ht
      have hend : ¬ pos < (encode text).length := by simp [hst.lt_iff]
      simp only [Pattern.findFrom, if_neg hend]
      cases n <;> rfl
    | cons c rest =>
      obtain ⟨N, hN⟩ := h.matchAt hst
      have hin : pos < (encode text).length := hst.lt_iff.mpr (by simp)
      cases hm : p.root.attempt M p.classes (c :: rest) some with
      | none =>
        obtain ⟨N', hN'⟩ := ih rest.length (by simp) hst.next rfl
        refine ⟨max N N', fun fuel hfuel turns n ht hn => ?_⟩
        obtain ⟨turns, rfl⟩ : ∃ t, turns = t + 1 := ⟨turns - 1, by omega⟩
        obtain ⟨n, rfl⟩ : ∃ m, n = m + 1 := ⟨n - 1, by simp at hn; omega⟩
        rw [Pattern.findFrom, if_pos hin, hN fuel (by omega)]
        simp only [Pattern.findFrom.onward, hst.nextChar_cons, scan, hm]
        exact hN' fuel (by omega) turns n (by simp at ht; omega) (by simp at hn; omega)
      | some r =>
        obtain ⟨hsuf, hlt⟩ := h.shorter hm
        have hr := stands_offset (hsuf.trans hst.suffix)
        obtain ⟨N', hN'⟩ := ih r.length hlt hr rfl
        refine ⟨max N N', fun fuel hfuel turns n ht hn => ?_⟩
        obtain ⟨turns, rfl⟩ : ∃ t, turns = t + 1 := ⟨turns - 1, by omega⟩
        obtain ⟨n, rfl⟩ : ∃ m, n = m + 1 := ⟨n - 1, by omega⟩
        have hgrow := offset_lt hst.suffix hsuf hlt
        rw [hst.offset_eq] at hgrow
        rw [Pattern.findFrom, if_pos hin, hN fuel (by omega)]
        simp only [verdict, if_pos hgrow, scan, hm, hst.offset_eq]
        rw [hN' fuel (by omega) turns n (by omega) (by omega)]
        rfl

theorem Compiled.ranges_nonempty (h : Compiled M p) (n : Nat) (hsuf : rest <:+ text) :
    ∀ r ∈ scan (fun s => p.root.attempt M p.classes s some) text n rest, r.1 < r.2 := by
  induction n generalizing rest with
  | zero => simp [scan]
  | succ n ih =>
    cases rest with
    | nil => simp [scan]
    | cons c rest =>
      intro r hr
      rw [scan] at hr
      cases hm : p.root.attempt M p.classes (c :: rest) some with
      | none =>
        simp only [hm] at hr
        exact ih ((suffix_cons c rest).trans hsuf) r hr
      | some after =>
        obtain ⟨hafter, hlt⟩ := h.shorter hm
        simp only [hm, mem_cons] at hr
        rcases hr with rfl | hr
        · exact offset_lt hsuf hafter hlt
        · exact ih (hafter.trans hsuf) r hr

end Texts

end Pattern

namespace Node

/-- A node of a tree. -/
inductive Part (node : Node) : Node → Prop
  | whole : Part node node
  | group {inner : Node} {min max : Nat} : Part node inner → Part node (.repeatGroup inner min max)
  | concat {inner : Node} {nodes : List Node} :
    inner ∈ nodes → Part node inner → Part node (.concat nodes)
  | alt {inner : Node} {nodes : List Node} :
    inner ∈ nodes → Part node inner → Part node (.alt nodes)

theorem WfAll.of_mem : ∀ {nodes : List Node}, WfAll n nodes →
    node ∈ nodes → node.Wf n
  | _ :: _, h, hmem => by
    rcases List.mem_cons.mp hmem with rfl | hmem
    · exact h.1
    · exact h.2.of_mem hmem

theorem Part.wf {root : Node} (h : Part node root) (hw : root.Wf n) : node.Wf n := by
  induction h with
  | whole => exact hw
  | group _ ih => exact ih hw.1
  | concat hmem _ ih => exact ih (WfAll.of_mem hw hmem)
  | alt hmem _ ih => exact ih (hw.2.of_mem hmem)

end Node

/-- **Compiled patterns are correct.**  For every pattern the parser accepts and every text, with
any class membership: the program's matches are the ranges that backtracking over the tree gives;
the matcher stops at every position with what the tree matches there, so that it never runs out of
places for its choices; no match is empty; and a character outside of the first-character set of a
node of the tree begins no match of that node, whatever follows. -/
theorem program_matches_tree (M : Membership) (alphanumeric : Char → Bool) (depth : Nat)
    (pattern : Text) (p : Pattern) (h : Pattern.parse M alphanumeric depth pattern = some p)
    (text : Text) :
    (∃ N, ∀ fuel, N ≤ fuel → p.findIter M text fuel = some (p.root.ranges M p.classes text)) ∧
    (∀ pos rest, Stands text pos rest → ∃ N, ∀ fuel, N ≤ fuel →
      p.matchAt M text fuel pos =
        some (Pattern.verdict text (p.root.attempt M p.classes rest some))) ∧
    (∀ r ∈ p.root.ranges M p.classes text, r.1 < r.2) ∧
    (∀ node, Node.Part node p.root → ∀ c s (k : Text → Option Text),
      (node.firstSets M p.classes).mayStart c = false →
      node.attempt M p.classes (c :: s) k = none) := by
  have hp := Pattern.compiled_of_parse h
  refine ⟨?_, fun pos rest hst => hp.matchAt hst, ?_, ?_⟩
  · obtain ⟨N, hN⟩ := hp.findFrom (stands_start text)
    refine ⟨max N (text.length + 1), fun fuel hfuel => ?_⟩
    exact hN fuel (by omega) fuel text.length (by omega) le_rfl
  · exact hp.ranges_nonempty text.length (suffix_refl text)
  · exact fun node hnode c s k hc => Node.attempt_eq_none (hnode.wf hp.wf) hc s k

/-- Membership with a single category, of the space and the line break. -/
def spaceOnly : Membership := Class.membership [(catSpace, [(10, 10), (32, 32)])]

/-- `(?:ab)?c+|\s+(?!d)` -/
def optionalPair : Text :=
  ['(', '?', ':', 'a', 'b', ')', '?', 'c', '+', '|', '\\', 's', '+',
  '(', '?', '!', '[', 'd', ']', ')']

/-- The pair is taken where it leads on, and the run of spaces gives one back before a `d`. -/
theorem program_matches_tree_optionalPair :
    ∃ p, Pattern.parse spaceOnly Char.isAlphanum 20 optionalPair = some p ∧
      ∃ N, ∀ fuel, N ≤ fuel →
        p.findIter spaceOnly ['a', 'b', 'c', 'c', 'a', 'c', ' ', ' ', ' ', 'd'] fuel =
          some [(0, 4), (5, 6), (6, 8)] := by
  have hranges : (Pattern.parse spaceOnly Char.isAlphanum 20 optionalPair).map
      (fun p => p.root.ranges spaceOnly p.classes
        ['a', 'b', 'c', 'c', 'a', 'c', ' ', ' ', ' ', 'd']) = some [(0, 4), (5, 6), (6, 8)] := by
    decide +kernel
  obtain ⟨p, hp, hr⟩ := Option.map_eq_some_iff.mp hranges
  obtain ⟨N, hN⟩ := (program_matches_tree spaceOnly Char.isAlphanum 20 optionalPair p hp _).1
  exact ⟨p, hp, N, fun fuel hfuel => (hN fuel hfuel).trans (congrArg some hr)⟩

end Smg.Tokenizer
