import Smg.Tokenizer.StopDecoder

/-!
# Stop strings and the text between tokens

The decoder sees a text in whatever pieces the tokens give, and keeps only the end of it.  It finds
every stop string all the same.  What it keeps is the longest end of the text that begins a stop
string (`Held`), so a stop string that is completed later begins inside it
(`Held.covers_occurrence`), and the longest such end of a longer text is found from it alone
(`Held.covers_held`).

* `pendingMatchLen_spec`: the byte arithmetic of the jail computes the held text;
* `release_spec`: one piece of text, from held text to held text or to the stop;
* `processTokens_spec`: any number of tokens;
* `stop_strings_honoured`: the whole stream.
-/

set_option autoImplicit false

namespace Smg.Tokenizer

open Utf8 List Option

/-! ## Occurrences -/

def Occurs (pats : List Text) (X : Text) : Prop := ∃ p ∈ pats, p <:+: X

/-- Pattern `i` is `p` and is found after `a`, and no pattern is found that ends earlier. -/
structure Earliest (pats : List Text) (X : Text) (i : Nat) (a p b : Text) : Prop where
  pattern : pats[i]? = some p
  eq : X = a ++ p ++ b
  first : ∀ p' ∈ pats, ∀ a' b', X = a' ++ p' ++ b' → (a ++ p).length ≤ (a' ++ p').length

/-- The search reports an occurrence that ends no later than any other. -/
structure FindsEarliest (find : Find) : Prop where
  of_none : ∀ {pats hay}, find pats hay = none → ∀ p ∈ pats, ¬p <:+: hay
  of_some : ∀ {pats hay m}, find pats hay = some m → ∃ p u v, pats[m.pattern]? = some p ∧
    hay = u ++ p ++ v ∧ m.start = u.length ∧ m.stop = (u ++ p).length ∧
    ∀ p' ∈ pats, ∀ u' v', hay = u' ++ p' ++ v' → m.stop ≤ (u' ++ p').length

variable {find : Find} {pats : List Text} {X : Text} {i : Nat}

/-- More text after it changes nothing for an occurrence that ends earliest. -/
theorem Earliest.append {a p b : Text} (h : Earliest pats X i a p b) (w : Text) :
    Earliest pats (X ++ w) i a p (b ++ w) where
  pattern := h.pattern
  eq := by rw [h.eq]; simp
  first p' hp' a' b' heq := by
    by_contra hlt
    rw [not_le] at hlt
    have hX : (a ++ p).length ≤ X.length := by rw [h.eq]; simp
    have hpre : a' ++ p' <+: X := prefix_of_prefix_length_le ⟨b', heq.symm⟩
      (prefix_append X w) (by omega)
    obtain ⟨r, hr⟩ := hpre
    exact absurd (h.first p' hp' a' r hr.symm) (not_le.mpr hlt)

theorem FindsEarliest.not_occurs (hfind : FindsEarliest find)
    (h : find (pats.map encode) (encode X) = none) : ¬Occurs pats X := by
  rintro ⟨p, hp, hocc⟩
  exact hfind.of_none h (encode p) (mem_map_of_mem hp) (encode_infix_iff.mpr hocc)

theorem length_le_of_encode {q q' : Text} (h : q <:+: q' ∨ q' <:+: q)
    (hle : (encode q).length ≤ (encode q').length) : q.length ≤ q'.length := by
  rcases h with h | h
  · exact h.length_le
  · have heq : encode q' = encode q := (encode_infix_iff.mpr h).sublist.eq_of_length_le hle
    exact (encode_infix_iff.mp (heq ▸ infix_rfl)).length_le

theorem FindsEarliest.earliest (hfind : FindsEarliest find) (hne : ∀ p ∈ pats, p ≠ []) {m : Match}
    (h : find (pats.map encode) (encode X) = some m) :
    ∃ a p b, Earliest pats X m.pattern a p b ∧ m.start = (encode a).length ∧
      m.stop = (encode (a ++ p)).length := by
  obtain ⟨bs, u, v, hbs, heq, hstart, hstop, hfirst⟩ := hfind.of_some h
  rw [getElem?_map, map_eq_some_iff] at hbs
  obtain ⟨p, hp, rfl⟩ := hbs
  obtain ⟨a, b, hX, rfl, rfl⟩ := exists_of_encode_eq (hne p (mem_of_getElem? hp)) heq
  have hstop' : m.stop = (encode (a ++ p)).length := by rw [hstop, encode_append]
  refine ⟨a, p, b, ⟨hp, hX, fun p' hp' a' b' hX' => ?_⟩, hstart, hstop'⟩
  refine length_le_of_encode (.imp IsPrefix.isInfix IsPrefix.isInfix <|
    prefix_or_prefix_of_prefix ⟨b, hX.symm⟩ ⟨b', hX'.symm⟩) ?_
  rw [← hstop', encode_append]
  exact hfirst _ (mem_map_of_mem hp') (encode a') (encode b') (by rw [hX']; simp)

/-! ## Held text -/

/-- A text that is the beginning of a stop string, short of the whole. -/
def Begins (pats : List Text) (h : Text) : Prop := ∃ p ∈ pats, h <+: p ∧ h ≠ p

/-- The longest end of a text that begins a stop string. -/
structure Held (pats : List Text) (X h : Text) : Prop where
  suffix : h <:+ X
  begins : h = [] ∨ Begins pats h
  longest : ∀ h', h' <:+ X → Begins pats h' → h'.length ≤ h.length

theorem Held.nil : Held pats [] [] :=
  ⟨suffix_rfl, .inl rfl, fun h' hs _ => by rw [suffix_nil.mp hs]⟩

theorem Held.of_patterns_nil (h : pats = []) : Held pats X [] ∧ ¬Occurs pats X := by
  subst h
  exact ⟨⟨nil_suffix, .inl rfl, fun _ _ ⟨_, hp, _⟩ => nomatch hp⟩, fun ⟨_, hp, _⟩ => nomatch hp⟩

/-- **A stop string that ends in later text begins in the held text.** -/
theorem Held.covers_ending {out h w a p b : Text} (hh : Held pats (out ++ h) h) (hp : p ∈ pats)
    (heq : out ++ h ++ w = a ++ p ++ b) (hend : (out ++ h).length < (a ++ p).length) :
    out <+: a := by
  have ha : a <+: out ++ h ++ w := ⟨p ++ b, by rw [heq]; simp⟩
  have hout : out <+: out ++ h ++ w := ⟨h ++ w, by simp⟩
  refine prefix_of_prefix_length_le hout ha ?_
  by_contra hlt
  rw [not_le] at hlt
  -- otherwise what of `p` was there before is a longer end of the text than `h`
  obtain ⟨q, hq⟩ : a <+: out ++ h := prefix_of_prefix_length_le ha
    (prefix_append _ w) (by simp only [length_append]; omega)
  have hlen := congrArg length hq
  simp only [length_append] at hlen hend
  have hqw : q ++ w = p ++ b := by
    rw [← hq, append_assoc, append_assoc] at heq
    exact append_cancel_left heq
  have hqp : q <+: p := prefix_of_prefix_length_le ⟨w, hqw⟩ (prefix_append p b) (by omega)
  have hne : q ≠ p := by
    rintro rfl
    omega
  have hle := hh.longest q ⟨a, hq⟩ ⟨p, hp, hqp, hne⟩
  omega

/-- **A stop string that is completed later begins in the held text.** -/
theorem Held.covers_occurrence {out h w a p b : Text} (hh : Held pats (out ++ h) h)
    (hno : ¬Occurs pats (out ++ h)) (hp : p ∈ pats) (heq : out ++ h ++ w = a ++ p ++ b) :
    out <+: a := by
  refine hh.covers_ending hp heq ?_
  by_contra hle
  obtain ⟨r, hr⟩ := prefix_of_prefix_length_le ⟨b, heq.symm⟩ (prefix_append _ w)
    (Nat.le_of_not_lt hle)
  exact hno ⟨p, hp, ⟨a, r, hr⟩⟩

/-- **The held text of a longer text is an end of the held text and what is new.** -/
theorem Held.covers_held {out h w h' : Text} (hh : Held pats (out ++ h) h)
    (hs : h' <:+ out ++ h ++ w) (hb : Begins pats h') : h' <:+ h ++ w := by
  have hw : h ++ w <:+ out ++ h ++ w := ⟨out, by simp⟩
  refine suffix_of_suffix_length_le hs hw ?_
  by_contra hlt
  rw [not_le] at hlt
  obtain ⟨q, rfl⟩ := suffix_of_suffix_length_le hw hs hlt.le
  obtain ⟨p, hp, ⟨r, hr⟩, hne⟩ := hb
  have hq : q ++ h <:+ out ++ h := by
    obtain ⟨t, ht⟩ := hs
    have ht' : t ++ (q ++ h) ++ w = out ++ h ++ w := by rw [← ht]; simp
    exact ⟨t, append_cancel_right ht'⟩
  have hbq : Begins pats (q ++ h) := by
    refine ⟨p, hp, ⟨w ++ r, by rw [← hr]; simp⟩, ?_⟩
    rintro rfl
    have hlen := congrArg length hr
    simp only [length_append] at hlen
    have hr' : r = [] := length_eq_zero_iff.mp (by omega)
    exact hne (by rw [← hr, hr', append_nil])
  have := hh.longest _ hq hbq
  simp only [length_append] at this hlt
  omega

theorem Held.of_append {out h w h' : Text} (hh : Held pats (out ++ h) h)
    (hh' : Held pats (h ++ w) h') : Held pats (out ++ h ++ w) h' where
  suffix := hh'.suffix.trans ⟨out, by simp⟩
  begins := hh'.begins
  longest q hq hb := hh'.longest q (hh.covers_held hq hb) hb

/-! ## The byte arithmetic of the jail -/

namespace StopSequenceDecoder

theorem scanDown_spec (ok : Nat → Bool) (lo hi : Nat) :
    lo ≤ scanDown ok lo hi ∧
      (scanDown ok lo hi = lo ∨
        lo < scanDown ok lo hi ∧ scanDown ok lo hi ≤ hi ∧ ok (scanDown ok lo hi) = true) ∧
      ∀ n ≤ hi, ok n = true → n ≤ scanDown ok lo hi := by
  induction hi with
  | zero => exact ⟨le_rfl, .inl rfl, fun n hn _ => hn.trans (Nat.zero_le _)⟩
  | succ hi ih =>
    rw [scanDown]
    split
    · rename_i hlo
      exact ⟨le_rfl, .inl rfl, fun n hn _ => hn.trans hlo⟩
    · split
      · rename_i hok
        exact ⟨by omega, .inr ⟨by omega, le_rfl, hok⟩, fun n hn _ => hn⟩
      · rename_i hok
        obtain ⟨h1, h2, h3⟩ := ih
        refine ⟨h1, h2.imp id fun h => ⟨h.1, by omega, h.2.2⟩, fun n hn hn' => ?_⟩
        rcases lt_or_eq_of_le hn with hlt | rfl
        · exact h3 n (by omega) hn'
        · exact absurd hn' hok

variable {jail : Text} {last : UInt8}

/-- The length of the longest end of the jail that is as asked, if that is more than `lo`. -/
structure Longest (jail : Text) (asked : Text → Prop) (lo n : Nat) : Prop where
  le : lo ≤ n
  reached : n = lo ∨ ∃ h, h <:+ jail ∧ asked h ∧ (encode h).length = n
  bound : ∀ h, h <:+ jail → asked h → (encode h).length ≤ n

section

variable (hlast : (encode jail).getLast? = some last)

include hlast

/-- What the search in a pattern accepts: the ends of the jail that begin the pattern. -/
theorem endsWithPrefix_iff {pattern h r : Text} (hp : pattern = h ++ r) (hh : h ≠ []) :
    endsWithPrefix (encode jail) last pattern (encode h).length = true ↔ h <:+ jail := by
  subst hp
  simp only [endsWithPrefix, Bool.and_eq_true, decide_eq_true_eq, isSuffixOf_iff_suffix,
    encode_append, take_left, encode_suffix_iff]
  refine ⟨And.right, fun hs => ⟨⟨?_, isCharBoundary_iff.mpr ⟨h, r, rfl, rfl⟩⟩, hs⟩⟩
  have hne : encode h ≠ [] := mt encode_eq_nil.mp hh
  have hlen := length_pos_iff.mpr hne
  obtain ⟨t, rfl⟩ := hs
  rw [encode_append, getLast?_append_of_ne_nil _ hne, getLast?_eq_getElem?] at hlast
  rw [getElem?_append_left (by omega), hlast]

theorem longerPrefix_spec (longest : Nat) (pattern : Text) :
    Longest jail (fun h => h <+: pattern ∧ h ≠ pattern) longest
      (longerPrefix (encode jail) last longest pattern) := by
  obtain ⟨h1, h2, h3⟩ := scanDown_spec (endsWithPrefix (encode jail) last pattern) longest
    (min ((encode pattern).length - 1) (encode jail).length)
  refine ⟨h1, h2.imp id ?_, ?_⟩
  · rintro ⟨hlt, hle, hok⟩
    have hb := hok
    simp only [endsWithPrefix, Bool.and_eq_true] at hb
    obtain ⟨h, r, hr, hlen⟩ := isCharBoundary_iff.mp hb.1.2
    have hh : h ≠ [] := by
      rintro rfl
      simp at hlen
      omega
    rw [← hlen] at hok
    refine ⟨h, (endsWithPrefix_iff hlast hr hh).mp hok, ⟨⟨r, hr.symm⟩, ?_⟩, hlen⟩
    rintro rfl
    omega
  · rintro h hs ⟨⟨r, hr⟩, hne⟩
    by_cases hh : h = []
    · simp [hh]
    · refine h3 _ (le_min ?_ (length_encode_le hs)) ((endsWithPrefix_iff hlast hr.symm hh).mpr hs)
      have hr' : r ≠ [] := by
        rintro rfl
        exact hne (by rw [← hr, append_nil])
      have := length_pos_iff.mpr (mt encode_eq_nil.mp hr')
      rw [← hr, encode_append, length_append]
      omega

theorem foldl_longerPrefix_spec (pats : List Text) (longest : Nat) :
    Longest jail (Begins pats) longest (pats.foldl (longerPrefix (encode jail) last) longest) := by
  induction pats generalizing longest with
  | nil =>
    refine ⟨le_rfl, .inl rfl, ?_⟩
    rintro h - ⟨p, hp, -⟩
    cases hp
  | cons p pats ih =>
    obtain ⟨h1, h2, h3⟩ := longerPrefix_spec hlast longest p
    obtain ⟨ih1, ih2, ih3⟩ := ih (longerPrefix (encode jail) last longest p)
    rw [foldl_cons]
    refine ⟨h1.trans ih1, ?_, ?_⟩
    · rcases ih2 with heq | ⟨h, hs, ⟨p', hp', hb⟩, hlen⟩
      · rw [heq]
        refine h2.imp id ?_
        rintro ⟨h, hs, hb, hlen⟩
        exact ⟨h, hs, ⟨p, mem_cons_self, hb⟩, hlen⟩
      · exact .inr ⟨h, hs, ⟨p', mem_cons_of_mem _ hp', hb⟩, hlen⟩
    · rintro h hs ⟨p', hp', hb⟩
      rcases mem_cons.mp hp' with rfl | hp'
      · exact (h3 h hs hb).trans ih1
      · exact ih3 h hs ⟨p', hp', hb⟩

end

/-- **The jail holds the held text**: the byte length is that of the longest end of the jail that
begins a stop string. -/
theorem pendingMatchLen_spec (rules : StopRules) (jail : Text) :
    ∃ h, Held rules.patterns jail h ∧ pendingMatchLen rules jail = (encode h).length := by
  rw [pendingMatchLen]
  split
  · rename_i hlast
    obtain rfl := encode_eq_nil.mp (getLast?_eq_none_iff.mp hlast)
    exact ⟨[], .nil, rfl⟩
  · rename_i last hlast
    obtain ⟨-, h2, h3⟩ := foldl_longerPrefix_spec hlast rules.patterns 0
    have hlongest : ∀ {h h' : Text}, h <:+ jail → h' <:+ jail →
        (encode h').length ≤ (encode h).length → h'.length ≤ h.length := fun hs hs' =>
      length_le_of_encode
        ((suffix_or_suffix_of_suffix hs' hs).imp IsSuffix.isInfix IsSuffix.isInfix)
    rcases h2 with heq | ⟨h, hs, hb, hlen⟩
    · refine ⟨[], ⟨nil_suffix, .inl rfl, fun h' hs' hb' => ?_⟩, heq⟩
      exact hlongest nil_suffix hs' ((h3 h' hs' hb').trans heq.le)
    · exact ⟨h, ⟨hs, .inr hb, fun h' hs' hb' => hlongest hs hs' (hlen ▸ h3 h' hs' hb')⟩, hlen.symm⟩

/-! ## From held text to held text, or to the stop -/

variable {σ : Type} {rules : StopRules} {out : Text}

/-- The automaton, searching what was not let go of the text, reports pattern `i` there; all
patterns that end there it has before it. -/
def Reported (find : Find) (pats : List Text) (i : Nat) (a p b : Text) : Prop :=
  ∃ u v b₁ b₂, a = u ++ v ∧ b = b₁ ++ b₂ ∧
    find (pats.map encode) (encode (v ++ p ++ b₁)) =
      some ⟨i, (encode v).length, (encode (v ++ p)).length⟩ ∧
    ∀ p' ∈ pats, p' <:+ a ++ p → p' <:+ v ++ p

/-- What a text is cut to: up to the stop string that ends earliest, with it if it is visible. -/
def Cut (find : Find) (rules : StopRules) (X out : Text) : Prop :=
  ∃ i a p b, Earliest rules.patterns X i a p b ∧ Reported find rules.patterns i a p b ∧
    out = if rules.visibleBoundaryIdx ≤ i then a ++ p else a

theorem Cut.occurs (h : Cut find rules X out) : Occurs rules.patterns X := by
  obtain ⟨i, a, p, b, he, -⟩ := h
  exact ⟨p, mem_of_getElem? he.pattern, ⟨a, b, he.eq.symm⟩⟩

theorem Cut.append (h : Cut find rules X out) (w : Text) : Cut find rules (X ++ w) out := by
  obtain ⟨i, a, p, b, he, ⟨u, v, b₁, b₂, ha, hb, hf, hall⟩, hout⟩ := h
  refine ⟨i, a, p, b ++ w, he.append w, ⟨u, v, b₁, b₂ ++ w, ha, ?_, hf, hall⟩, hout⟩
  rw [hb, append_assoc]

/-- A decoder that has let `out` go of the text `X`, and holds the rest. -/
structure Jailed (rules : StopRules) (X out : Text) (s : σ) (d : StopSequenceDecoder σ) : Prop where
  running : d.stopped = false
  rules_eq : d.rules = rules
  sequence_eq : d.sequence = s
  eq : X = out ++ d.jailBuffer
  none : ¬Occurs rules.patterns X
  held : Held rules.patterns X d.jailBuffer

/-- A decoder that has stopped, with `out` of the text `X` let go. -/
structure Halted (find : Find) (rules : StopRules) (X out : Text) (d : StopSequenceDecoder σ) :
    Prop where
  stopped : d.stopped = true
  cut : Cut find rules X out

variable {d : StopSequenceDecoder σ} {s : σ}

/-- Occurrences in the whole text are occurrences in what was not let go. -/
theorem Jailed.occurrence (h : Jailed rules X out s d) {w a p b : Text} (hp : p ∈ rules.patterns)
    (heq : X ++ w = a ++ p ++ b) : ∃ a', a = out ++ a' ∧ d.jailBuffer ++ w = a' ++ p ++ b := by
  have hX := h.eq
  subst hX
  obtain ⟨a', rfl⟩ := h.held.covers_occurrence h.none hp heq
  refine ⟨a', rfl, append_cancel_left (?_ : out ++ _ = out ++ _)⟩
  simpa using heq

theorem Jailed.drain {s' : σ} (h : Jailed rules X out s d) {w t h' : Text}
    (hno : ¬Occurs rules.patterns (d.jailBuffer ++ w))
    (hh' : Held rules.patterns (d.jailBuffer ++ w) h') (ht : d.jailBuffer ++ w = t ++ h') :
    Jailed rules (X ++ w) (out ++ t) s' { d with sequence := s', jailBuffer := h' } where
  running := h.running
  rules_eq := h.rules_eq
  sequence_eq := rfl
  eq := by rw [h.eq, append_assoc, ht, append_assoc]
  none := by
    rintro ⟨p, hp, a, b, heq⟩
    obtain ⟨a', -, hbuf⟩ := h.occurrence hp heq.symm
    exact hno ⟨p, hp, ⟨a', b, hbuf.symm⟩⟩
  held := by
    have hX := h.eq
    subst hX
    exact h.held.of_append hh'

theorem Jailed.cut (h : Jailed rules X out s d) {w : Text} {a p b : Text}
    (he : Earliest rules.patterns (d.jailBuffer ++ w) i a p b)
    (hf : find (rules.patterns.map encode) (encode (d.jailBuffer ++ w)) =
      some ⟨i, (encode a).length, (encode (a ++ p)).length⟩) :
    Cut find rules (X ++ w) (out ++ if rules.visibleBoundaryIdx ≤ i then a ++ p else a) := by
  have heq : X ++ w = out ++ a ++ p ++ b := by rw [h.eq, append_assoc, he.eq]; simp
  refine ⟨i, out ++ a, p, b, ⟨he.pattern, heq, fun p' hp' a' b' heq' => ?_⟩,
    ⟨out, a, b, [], rfl, by simp, he.eq ▸ hf, fun p' hp' hs => ?_⟩, ?_⟩
  · obtain ⟨a'', rfl, hbuf⟩ := h.occurrence hp' heq'
    have := he.first p' hp' a'' b' hbuf
    simp only [length_append] at this ⊢
    omega
  · obtain ⟨t, ht⟩ := hs
    obtain ⟨a', rfl, hbuf⟩ := h.occurrence hp' (heq.trans (by rw [← ht]))
    refine ⟨a', append_cancel_left (?_ : out ++ _ = out ++ _)⟩
    simpa using ht
  · split <;> simp

/-- What is done with the jail: without a stop string in it, everything but the held text goes;
otherwise it is cut at the stop string that ends earliest. -/
theorem release_cases (hfind : FindsEarliest find) (d : StopSequenceDecoder σ)
    (hne : ∀ p ∈ d.rules.patterns, p ≠ []) :
    (∃ t h step, ¬Occurs d.rules.patterns d.jailBuffer ∧ Held d.rules.patterns d.jailBuffer h ∧
      d.jailBuffer = t ++ h ∧ (step = .text ∨ step = .held ∧ t = []) ∧
      release find d = some ({ d with jailBuffer := h }, t, step)) ∨
    ∃ i a p b step, Earliest d.rules.patterns d.jailBuffer i a p b ∧
      find (d.rules.patterns.map encode) (encode d.jailBuffer) =
        some ⟨i, (encode a).length, (encode (a ++ p)).length⟩ ∧ step.isStop = true ∧
      release find d = some ({ d with stopped := true, matchedStop := some p, jailBuffer := [] },
        if d.rules.visibleBoundaryIdx ≤ i then a ++ p else a, step) := by
  rw [release]
  by_cases honly : d.rules.tokenOnly = true
  · -- without stop strings everything goes
    obtain ⟨hheld, hno⟩ := Held.of_patterns_nil (X := d.jailBuffer) (isEmpty_iff.mp honly)
    rw [if_pos honly]
    split
    · rename_i hempty
      have hnil := isEmpty_iff.mp hempty
      refine .inl ⟨[], [], .held, hno, hheld, by rw [hnil]; rfl, .inr ⟨rfl, rfl⟩, ?_⟩
      rw [← hnil]
    · exact .inl ⟨_, [], .text, hno, hheld, by simp, .inl rfl, rfl⟩
  rw [if_neg honly]
  rcases hf : find (d.rules.patterns.map encode) (encode d.jailBuffer) with _ | m
  · have hno := hfind.not_occurs hf
    obtain ⟨h, hh, hpend⟩ := pendingMatchLen_spec d.rules d.jailBuffer
    obtain ⟨t, ht⟩ := hh.suffix
    have hlen : (encode d.jailBuffer).length - pendingMatchLen d.rules d.jailBuffer =
        (encode t).length := by
      rw [hpend, ← ht, encode_append, length_append]
      omega
    simp only [hlen]
    split
    · refine .inl ⟨t, h, .text, hno, hh, ht.symm, .inl rfl, ?_⟩
      rw [← ht, (slice_append ..).1, (slice_append ..).2]
      rfl
    · rename_i hzero
      obtain rfl := encode_eq_nil.mp (length_eq_zero_iff.mp (Nat.eq_zero_of_not_pos hzero))
      refine .inl ⟨[], h, .held, hno, hh, ht.symm, .inr ⟨rfl, rfl⟩, ?_⟩
      rw [nil_append] at ht
      rw [ht]
  · obtain ⟨a, p, b, he, hstart, hstop⟩ := hfind.earliest hne hf
    have hupTo : sliceTo d.jailBuffer m.stop = some (a ++ p) := by
      rw [hstop, he.eq, (slice_append ..).1]
    have hmatched : sliceFrom (a ++ p) m.start = some p := by rw [hstart, (slice_append ..).2]
    have hout : sliceTo d.jailBuffer
        (if d.rules.visibleBoundaryIdx ≤ m.pattern then m.stop else m.start) =
        some (if d.rules.visibleBoundaryIdx ≤ m.pattern then a ++ p else a) := by
      split
      · exact hupTo
      · rw [hstart, he.eq, append_assoc, (slice_append ..).1]
    simp only [hupTo, hmatched, bind_eq_bind, bind_some, hout]
    refine .inr ⟨m.pattern, a, p, b, _, he, by rw [← hstart, ← hstop], ?_, rfl⟩
    split_ifs <;> rfl

/-- **One piece of text**: the decoder goes on holding the held text, or it stops where the text
should be cut. -/
theorem release_spec (hfind : FindsEarliest find) (hne : ∀ p ∈ rules.patterns, p ≠ [])
    (h : Jailed rules X out s d) (s' : σ) (w : Text) : ∃ d' o step,
      release find { d with sequence := s', jailBuffer := d.jailBuffer ++ w } = some (d', o, step) ∧
      (Jailed rules (X ++ w) (out ++ o) s' d' ∧ (step = .text ∨ step = .held ∧ o = []) ∨
        Halted find rules (X ++ w) (out ++ o) d' ∧ step.isStop = true) := by
  obtain rfl := h.rules_eq
  rcases release_cases hfind { d with sequence := s', jailBuffer := d.jailBuffer ++ w } hne with
    ⟨t, h', step, hno, hh', ht, hstep, hrel⟩ | ⟨i, a, p, b, step, he, hf, hstep, hrel⟩
  · exact ⟨_, _, _, hrel, .inl ⟨h.drain hno hh' ht, hstep⟩⟩
  · exact ⟨_, _, _, hrel, .inr ⟨⟨rfl, h.cut he hf⟩, hstep⟩⟩

/-! ## Any number of tokens -/

variable {ops : SequenceOps σ}

theorem Jailed.jail_eq_nil (h : Jailed rules X out s d) (hnone : rules.patterns = []) :
    d.jailBuffer = [] := by
  rcases h.held.begins with hnil | ⟨p, hp, -⟩
  · exact hnil
  · rw [hnone] at hp
    cases hp

theorem processTokenInto_spec (hfind : FindsEarliest find) (hne : ∀ p ∈ rules.patterns, p ≠ [])
    {s' : σ} (h : Jailed rules X out s d) {token : TokenId} {w : Text}
    (hstop : token ∉ rules.hiddenStopIds ∧ token ∉ rules.visibleStopIds)
    (happ : ops.appendTokenInto s token = some (s', w)) :
    ∃ d' o step, processTokenInto ops find d token = some (d', o, step) ∧
      (Jailed rules (X ++ w) (out ++ o) s' d' ∨ Halted find rules (X ++ w) (out ++ o) d') := by
  obtain rfl := h.rules_eq
  obtain rfl := h.sequence_eq
  have hhidden : d.rules.hiddenStopIds.contains token = false := by simpa using hstop.1
  have hvisible : d.rules.visibleStopIds.contains token = false := by simpa using hstop.2
  rw [processTokenInto, if_neg (Bool.not_eq_true _ ▸ h.running)]
  simp only [Bool.false_eq_true, if_false, hhidden, hvisible, happ, Bool.not_false, Bool.and_true,
    Bool.or_false, bind_eq_bind]
  split
  · rename_i honly
    have hnone : d.rules.patterns = [] := isEmpty_iff.mp honly
    have hjail := h.jail_eq_nil hnone
    refine ⟨_, _, _, rfl, .inl ?_⟩
    obtain ⟨hheld, hno⟩ := Held.of_patterns_nil (X := d.jailBuffer ++ w) hnone
    have hdrain : Jailed d.rules (X ++ w) (out ++ w) s'
        { d with sequence := s', jailBuffer := [] } :=
      h.drain hno hheld (by rw [hjail]; simp)
    rwa [← hjail] at hdrain
  · obtain ⟨d', o, step, hrel, hcase⟩ := release_spec hfind hne h s' w
    exact ⟨d', o, step, hrel, hcase.imp And.left And.left⟩

theorem processTokens_halted (h : d.stopped = true) (tokens : List TokenId) :
    processTokens ops find d tokens = some (d, []) := by
  induction tokens with
  | nil => rfl
  | cons token tokens ih =>
    simp only [processTokens, processTokenInto, if_pos h, bind_eq_bind, bind_some, ih, append_nil]

variable {tokens : List TokenId}

/-- **Any number of tokens**: what the decoder let go and what it holds depend on the text alone. -/
theorem processTokens_spec (hfind : FindsEarliest find) (hne : ∀ p ∈ rules.patterns, p ≠ [])
    {s₁ : σ} (h : Jailed rules X out s d) {ws : List Text}
    (hstop : ∀ token ∈ tokens, token ∉ rules.hiddenStopIds ∧ token ∉ rules.visibleStopIds)
    (htexts : ops.texts s tokens = some (s₁, ws)) :
    ∃ d' o, processTokens ops find d tokens = some (d', o) ∧
      (Jailed rules (X ++ ws.flatten) (out ++ o) s₁ d' ∨
        Halted find rules (X ++ ws.flatten) (out ++ o) d') := by
  induction tokens generalizing s d X out ws with
  | nil =>
    cases htexts
    exact ⟨d, [], rfl, .inl (by simpa using h)⟩
  | cons token tokens ih =>
    simp only [SequenceOps.texts, bind_eq_bind, bind_eq_some_iff] at htexts
    obtain ⟨⟨s', w⟩, happ, ⟨s'', ws'⟩, hrest, heq⟩ := htexts
    cases heq
    obtain ⟨d', o, step, hstep, hcase⟩ := processTokenInto_spec hfind hne h
      (hstop token mem_cons_self) happ
    rw [flatten_cons, ← append_assoc]
    simp only [processTokens, hstep, bind_eq_bind, bind_some]
    rcases hcase with hj | hhalt
    · obtain ⟨d'', o', hrun, hcase'⟩ := ih hj
        (fun t ht => hstop t (mem_cons_of_mem _ ht)) hrest
      rw [hrun]
      refine ⟨d'', o ++ o', rfl, ?_⟩
      rwa [← append_assoc]
    · rw [processTokens_halted hhalt.stopped]
      refine ⟨d', o ++ [], rfl, .inr ⟨hhalt.stopped, ?_⟩⟩
      rw [append_nil]
      exact hhalt.cut.append _

theorem finishInto_spec (hfind : FindsEarliest find) (hne : ∀ p ∈ rules.patterns, p ≠ []) {s₂ : σ}
    (h : Jailed rules X out s d) {tail : Text} (htail : ops.finish s = some (s₂, tail)) :
    ∃ d' o step, finishInto ops find d = some (d', o, step) ∧
      (out ++ o = X ++ tail ∧ ¬Occurs rules.patterns (X ++ tail) ∧ d'.stopped = false ∨
        Halted find rules (X ++ tail) (out ++ o) d') := by
  obtain rfl := h.sequence_eq
  obtain ⟨d', o, step, hrel, hcase⟩ := release_spec hfind hne h s₂ tail
  rw [finishInto, if_neg (Bool.not_eq_true _ ▸ h.running)]
  simp only [htail, hrel, bind_eq_bind, bind_some]
  rcases hcase with ⟨hj, hstep⟩ | ⟨hhalt, hstep⟩
  · have hflush : (flushInto d').1.stopped = false ∧ (flushInto d').2.1 = d'.jailBuffer := by
      rw [flushInto]
      split
      · rename_i hempty
        exact ⟨hj.running, (isEmpty_iff.mp hempty).symm⟩
      · exact ⟨hj.running, rfl⟩
    have hall : out ++ (o ++ (flushInto d').2.1) = X ++ tail := by
      rw [hflush.2, hj.eq, append_assoc]
    rcases hstep with rfl | ⟨rfl, -⟩
    · exact ⟨_, _, _, rfl, .inl ⟨hall, hj.none, hflush.1⟩⟩
    · exact ⟨_, _, _, rfl, .inl ⟨hall, hj.none, hflush.1⟩⟩
  · rcases step with _ | _ | _ | _
    · cases hstep
    · cases hstep
    · exact ⟨_, _, _, rfl, .inr hhalt⟩
    · exact ⟨_, _, _, rfl, .inr hhalt⟩

/-! ## The whole stream -/

section Config

variable (config : StopSequenceConfig)

/-- The hidden stop strings that can occur: an empty one is ignored. -/
def hiddenStrings : List Text := config.stopSequences.filter (· ≠ [])

def visibleStrings : List Text := config.visibleStopSequences.filter (· ≠ [])

/-- The stop strings of a configuration, the hidden ones first. -/
def stopStrings : List Text := hiddenStrings config ++ visibleStrings config

/-- A text cut at a stop string that ends earliest, the one that is reported: in front of it if it
is a hidden one, behind it if it is a visible one. -/
def CutAtStop (find : Find) (X out : Text) : Prop :=
  ∃ i a p b, Earliest (stopStrings config) X i a p b ∧ Reported find (stopStrings config) i a p b ∧
    (((hiddenStrings config)[i]? = some p ∧ out = a) ∨
      ∃ j, i = (hiddenStrings config).length + j ∧ (visibleStrings config)[j]? = some p ∧
        out = a ++ p)

theorem filter_ne_nil (l : List Text) : l.filter (fun s => !s.isEmpty) = l.filter (· ≠ []) :=
  filter_congr fun s _ => by cases s <;> simp

theorem patterns_new : (StopRules.new config).patterns = stopStrings config := by
  rw [StopRules.new, filter_ne_nil, filter_ne_nil]
  rfl

theorem visibleBoundaryIdx_new :
    (StopRules.new config).visibleBoundaryIdx = (hiddenStrings config).length := by
  rw [StopRules.new, filter_ne_nil]
  rfl

variable {config}

theorem Cut.cutAtStop {out : Text} (h : Cut find (StopRules.new config) X out) :
    CutAtStop config find X out := by
  obtain ⟨i, a, p, b, hearliest, hreported, rfl⟩ := h
  rw [patterns_new] at hearliest hreported
  refine ⟨i, a, p, b, hearliest, hreported, ?_⟩
  have hpattern := hearliest.pattern
  rw [visibleBoundaryIdx_new]
  split
  next hle =>
    rw [stopStrings, getElem?_append_right hle] at hpattern
    exact .inr ⟨i - (hiddenStrings config).length, by omega, hpattern, rfl⟩
  next hlt =>
    rw [stopStrings, getElem?_append_left (by omega)] at hpattern
    exact .inl ⟨hpattern, rfl⟩

theorem ne_nil_of_mem_stopStrings {p : Text} (hp : p ∈ stopStrings config) : p ≠ [] := by
  rcases mem_append.mp hp with hp | hp
  · simpa using (mem_filter.mp hp).2
  · simpa using (mem_filter.mp hp).2

end Config

open StopRules

theorem patterns_ne_nil (config : StopSequenceConfig) :
    ∀ p ∈ (new config).patterns, p ≠ [] :=
  fun _ hp => ne_nil_of_mem_stopStrings (patterns_new config ▸ hp)

theorem jailed_start (s : σ) (config : StopSequenceConfig) :
    Jailed (new config) [] [] s (withSequence s (new config)) where
  running := rfl
  rules_eq := rfl
  sequence_eq := rfl
  eq := rfl
  none := by
    rintro ⟨p, hp, hocc⟩
    exact patterns_ne_nil config p hp (infix_nil.mp hocc)
  held := .nil

theorem processTokens_append_of_stopped {d' : StopSequenceDecoder σ} {o : Text} {l : List TokenId}
    (h : processTokens ops find d l = some (d', o)) (hstop : d'.stopped = true) (r : List TokenId) :
    processTokens ops find d (l ++ r) = some (d', o) := by
  induction l generalizing d o with
  | nil =>
    cases h
    exact processTokens_halted hstop r
  | cons token l ih =>
    simp only [processTokens, bind_eq_bind, bind_eq_some_iff] at h
    obtain ⟨⟨d1, o1, step⟩, hstep, ⟨d2, o2⟩, hrest, heq⟩ := h
    cases heq
    simp [processTokens, hstep, ih hrest]

theorem texts_take {s₁ : σ} {ws : List Text} (k : Nat) (h : ops.texts s tokens = some (s₁, ws)) :
    ∃ s', ops.texts s (tokens.take k) = some (s', ws.take k) := by
  induction tokens generalizing s ws k with
  | nil =>
    obtain ⟨rfl, rfl⟩ := Prod.mk.inj (some.inj h)
    exact ⟨s, by simp [SequenceOps.texts]⟩
  | cons token tokens ih =>
    simp only [SequenceOps.texts, bind_eq_bind, bind_eq_some_iff] at h
    obtain ⟨⟨s', w⟩, happ, ⟨s'', ws'⟩, hrest, heq⟩ := h
    cases heq
    rcases k with _ | k
    · exact ⟨s, rfl⟩
    · obtain ⟨s₂, hs2⟩ := ih k hrest
      exact ⟨s₂, by simp [SequenceOps.texts, happ, hs2]⟩

/-- A stopped decoder emits nothing more, whatever comes. -/
theorem stream_of_stopped {d' : StopSequenceDecoder σ} {o : Text} {k : Nat}
    (h : processTokens ops find d (tokens.take k) = some (d', o)) (hstop : d'.stopped = true) :
    stream ops find d tokens = some (d', o) := by
  have hall : processTokens ops find d tokens = some (d', o) := by
    have := processTokens_append_of_stopped h hstop (tokens.drop k)
    rwa [take_append_drop] at this
  simp [stream, hall, finishInto, hstop]

/-- **Stop strings are honoured, however the text is cut into tokens.**  Let `T` be the text of all
tokens and of the end.  The decoder emits `T` if no stop string occurs in it, and otherwise `T` cut
at the stop string that ends earliest, the one the automaton reports.  After each token it has
stopped exactly if a stop string occurs in the text so far; then it emits nothing more; and if not,
it holds back no more than the longest end of that text that begins a stop string. -/
theorem stop_strings_honoured (hfind : FindsEarliest find) (config : StopSequenceConfig)
    {s₀ s₁ s₂ : σ} {tokens : List TokenId} {ws : List Text} {tail : Text}
    (hstop : ∀ token ∈ tokens, token ∉ config.stopTokens ∧ token ∉ config.visibleStopTokens)
    (htexts : ops.texts s₀ tokens = some (s₁, ws)) (htail : ops.finish s₁ = some (s₂, tail)) :
    (∃ d out,
      stream ops find (withSequence s₀ (new config)) tokens = some (d, out) ∧
      (¬Occurs (stopStrings config) (ws.flatten ++ tail) →
        out = ws.flatten ++ tail ∧ d.stopped = false) ∧
      (Occurs (stopStrings config) (ws.flatten ++ tail) →
        CutAtStop config find (ws.flatten ++ tail) out ∧ d.stopped = true)) ∧
    ∀ k, ∃ d out,
      processTokens ops find (withSequence s₀ (new config)) (tokens.take k) =
        some (d, out) ∧
      (d.stopped = true ↔ Occurs (stopStrings config) (ws.take k).flatten) ∧
      (d.stopped = true → ∃ d',
        stream ops find (withSequence s₀ (new config)) tokens = some (d', out)) ∧
      (d.stopped = false → ∃ held, (ws.take k).flatten = out ++ held ∧
        Held (stopStrings config) (ws.take k).flatten held) := by
  rw [← patterns_new]
  have hne := patterns_ne_nil config
  have hj := jailed_start s₀ config
  constructor
  · obtain ⟨d, out, hrun, hcase⟩ := processTokens_spec hfind hne hj hstop htexts
    rcases hcase with hj' | hhalt
    · obtain ⟨d', o, step, hfin, hcase'⟩ := finishInto_spec hfind hne hj' htail
      refine ⟨d', out ++ o, by simp [stream, hrun, hfin], ?_⟩
      rcases hcase' with ⟨hall, hno, hrunning⟩ | hhalt
      · exact ⟨fun _ => ⟨hall, hrunning⟩, fun hocc => absurd hocc hno⟩
      · exact ⟨fun hno => absurd hhalt.cut.occurs hno,
          fun _ => ⟨hhalt.cut.cutAtStop, hhalt.stopped⟩⟩
    · have hcut := hhalt.cut.append tail
      refine ⟨d, out, by simp [stream, hrun, finishInto, hhalt.stopped], ?_⟩
      exact ⟨fun hno => absurd hcut.occurs hno, fun _ => ⟨hcut.cutAtStop, hhalt.stopped⟩⟩
  · intro k
    obtain ⟨s', htake⟩ := texts_take k htexts
    obtain ⟨d, out, hrun, hcase⟩ := processTokens_spec hfind hne hj
      (fun token ht => hstop token (mem_of_mem_take ht)) htake
    refine ⟨d, out, hrun, ?_, fun h => ⟨d, stream_of_stopped hrun h⟩, fun h => ?_⟩
    · rcases hcase with hj' | hhalt
      · exact ⟨fun h => absurd (h.symm.trans hj'.running) nofun, fun h => absurd h hj'.none⟩
      · exact ⟨fun _ => hhalt.cut.occurs, fun _ => hhalt.stopped⟩
    · rcases hcase with hj' | hhalt
      · exact ⟨d.jailBuffer, hj'.eq, hj'.held⟩
      · exact absurd (h.symm.trans hhalt.stopped) nofun

/-! ## An automaton and a sequence -/

/-- The first pattern that the text up to `n` ends with. -/
def endingAt (pats : List (List UInt8)) (hay : List UInt8) (n : Nat) : Option Match :=
  (pats.findIdx? fun p => p.isSuffixOf (hay.take n)).map fun i =>
    ⟨i, n - ((pats[i]?).getD []).length, n⟩

def scanFind : Find := fun pats hay => (List.range (hay.length + 1)).findSome? (endingAt pats hay)

theorem endingAt_eq_none {pats : List (List UInt8)} {hay u p v : List UInt8} (hp : p ∈ pats)
    (heq : hay = u ++ p ++ v) : endingAt pats hay (u ++ p).length ≠ none := by
  intro h
  rw [endingAt, map_eq_none_iff, findIdx?_eq_none_iff] at h
  have := h p hp
  rw [heq, take_left, Bool.eq_false_iff] at this
  exact this (isSuffixOf_iff_suffix.mpr (suffix_append u p))

theorem findsEarliest_scanFind : FindsEarliest scanFind where
  of_none {pats hay} h p hp := by
    rintro ⟨u, v, heq⟩
    refine endingAt_eq_none hp heq.symm (findSome?_eq_none_iff.mp h _ ?_)
    rw [mem_range, ← heq]
    simp only [length_append]
    omega
  of_some {pats hay m} h := by
    obtain ⟨l1, n, l2, hrange, hend, hbefore⟩ := findSome?_eq_some_iff.mp h
    rw [endingAt, map_eq_some_iff] at hend
    obtain ⟨i, hi, rfl⟩ := hend
    obtain ⟨hlt, hsuf, -⟩ := findIdx?_eq_some_iff_getElem.mp hi
    obtain ⟨u, hu⟩ := isSuffixOf_iff_suffix.mp hsuf
    -- the ends before `n` are those tried before
    have hn : n = l1.length := by
      have := congrArg (·[l1.length]?) hrange
      simp only [getElem?_append_right le_rfl, Nat.sub_self, getElem?_cons_zero] at this
      rw [getElem?_eq_some_iff] at this
      obtain ⟨hlen, hget⟩ := this
      rw [← hget, getElem_range]
    have hle : n ≤ hay.length := by
      have : n ∈ range (hay.length + 1) := by rw [hrange]; simp
      rw [mem_range] at this
      omega
    have hl1 : l1 = range n := by
      have := congrArg (take l1.length) hrange
      rw [take_left, take_range, ← hn, min_eq_left (by omega)] at this
      exact this.symm
    have hulen : n = (u ++ pats[i]).length := by rw [hu, length_take_of_le hle]
    have hget : pats[i]? = some pats[i] := getElem?_eq_getElem hlt
    refine ⟨pats[i], u, hay.drop n, hget, ?_, ?_, hulen, fun p' hp' u' v' heq => ?_⟩
    · rw [hu, take_append_drop]
    · rw [length_append] at hulen
      show n - ((pats[i]?).getD []).length = u.length
      rw [hget, getD_some]
      omega
    · by_contra hlt'
      rw [not_le] at hlt'
      exact endingAt_eq_none hp' heq (hbefore _ (by rw [hl1, mem_range]; exact hlt'))

def echo : SequenceOps Unit where
  appendTokenInto _ token := some ((), [Char.ofNat token.toNat])
  finish _ := some ((), [])
  decode _ token := some [Char.ofNat token.toNat]
  clear _ := ()

/-- A hidden stop string that runs through a visible one. -/
def overlapping : StopSequenceConfig := ⟨[], ["bcd".toList], [], ["cde".toList, []]⟩

/-- The characters `a`, `b`, `c`, `d`, `e` one by one. -/
def letters : List TokenId := [97, 98, 99, 100, 101]

theorem stop_strings_honoured_letters :
    CutAtStop overlapping scanFind "abcde".toList ['a'] := by
  have hno : ∀ token ∈ letters,
      token ∉ overlapping.stopTokens ∧ token ∉ overlapping.visibleStopTokens :=
    fun _ _ => ⟨not_mem_nil, not_mem_nil⟩
  have h := @stop_strings_honoured scanFind Unit echo findsEarliest_scanFind overlapping () () ()
    letters _ _ hno rfl rfl
  obtain ⟨d, out, hstream, -, hcut⟩ := h.1
  have hrun : (stream echo scanFind (withSequence () (new overlapping)) letters).map
      Prod.snd = some ['a'] := by decide +kernel
  rw [hstream] at hrun
  rw [← some.inj hrun]
  exact (hcut ⟨"bcd".toList, by decide, ⟨['a'], ['e'], by decide⟩⟩).1

/-- An empty stop string is in every text, and ends before it begins.  It is ignored: the text is
not cut. -/
theorem empty_stop_string_ignored :
    Earliest [[]] ['a'] 0 [] [] ['a'] ∧
      (stream echo scanFind (withSequence () (new ⟨[], [[]], [], []⟩)) [97]).map
        Prod.snd = some ['a'] :=
  ⟨⟨rfl, rfl, fun _ _ _ _ _ => Nat.zero_le _⟩, by decide +kernel⟩

end StopSequenceDecoder

end Smg.Tokenizer
