import Mathlib.Algebra.Ring.Nat
import Smg.Tokenizer.StopStrings

/-!
# Stop strings that count only later

An engine that sees token ids has its stop strings matched for it, and only past `min_tokens`: a
match inside the window is dropped and the decoder goes on.  What it goes on with is rebuilt from
the matched string alone, and that is where text is lost: what followed the match in its token, and
what came before it, are gone, although both can begin a later stop string.

`Keeps` says when nothing is lost.  Whatever stop string ends at a token of the window, the longest
end of it that begins a stop string is the longest such end of the whole text, and has no stop
string in it.  Then the matcher reports exactly what it should (`stop_matched_past_min`); in general
it does not (`overlapped_stop_missed`).
-/

set_option autoImplicit false

namespace Smg.Tokenizer

open Utf8 StopSequenceDecoder List

/-- The stop matcher of one choice. -/
structure StopMatcher (σ : Type) where
  decoder : Option (StopSequenceDecoder σ)
  minTokens : UInt32
  /-- The number of tokens, as far as 32 bits count. -/
  generated : Nat := 0
  /-- Not in the source: the number of tokens looked at. -/
  taken : Nat := 0

/-- The matcher's decoder, if there are stop strings. -/
def stopDecoder {σ : Type} (sequence : σ) (stops : List Text) : Option (StopSequenceDecoder σ) :=
  if stops.isEmpty then none else some (withSequence sequence (.new ⟨[], stops, [], []⟩))

namespace StopMatcher

variable {σ : Type} (ops : SequenceOps σ) (find : Find)

/-- Addition in 32 bits that stays at the largest number. -/
def saturatingAdd (a b : Nat) : Nat := min (a + b) (2 ^ 32 - 1)

/-- The tokens of a call one after another; the matched stop string when one matched. -/
def feedTokens : List TokenId → StopSequenceDecoder σ → StopMatcher σ →
    Option (StopMatcher σ × Option Text)
  | [], d, m => some ({ m with decoder := some d }, none)
  | token :: tokens, d, m =>
    let m := { m with generated := saturatingAdd m.generated 1, taken := m.taken + 1 }
    match processTokenInto ops find d token with
    | none => none
    | some (d, _, _) =>
      if !d.stopped then feedTokens tokens d m
      else if m.generated ≤ m.minTokens.toNat then
        match d.resume with
        | none => none
        | some d => feedTokens tokens d m
      else some ({ m with decoder := some d }, some (d.matchedStop.getD []))

def feed (m : StopMatcher σ) (tokens : List TokenId) : Option (StopMatcher σ × Option Text) :=
  match m.decoder with
  | none => some ({ m with
      generated := saturatingAdd m.generated (min tokens.length (2 ^ 32 - 1))
      taken := m.taken + tokens.length }, none)
  | some d => feedTokens ops find tokens d m

/-- Calls one after another, up to the first that reports a match. -/
def feeds : StopMatcher σ → List (List TokenId) → Option (StopMatcher σ × Option Text)
  | m, [] => some (m, none)
  | m, tokens :: calls =>
    match feed ops find m tokens with
    | none => none
    | some (m, some stop) => some (m, some stop)
    | some (m, none) => feeds m calls

end StopMatcher

/-! ## What should be reported -/

/-- The text released after `k` tokens. -/
def released (ws : List Text) (k : Nat) : Text := (ws.take k).flatten

/-- The string occurs in the text after `k` tokens, and ends past the text before the last. -/
def EndsAt (p : Text) (ws : List Text) (k : Nat) : Prop :=
  ∃ a b, released ws k = a ++ p ++ b ∧ (released ws (k - 1)).length < (a ++ p).length

/-- The first token past the window at which a stop string ends. -/
structure FirstStop (stops : List Text) (minTokens : Nat) (ws : List Text) (k : Nat) : Prop where
  past : minTokens < k
  ends : ∃ p ∈ stops, p ≠ [] ∧ EndsAt p ws k
  first : ∀ j, minTokens < j → j < k → ¬∃ p ∈ stops, p ≠ [] ∧ EndsAt p ws j

/-- Of every stop string that ends at token `k`, the longest end that begins a stop string is that
of the whole text, and has no stop string in it. -/
def Keeps (pats ws : List Text) (k : Nat) : Prop :=
  ∀ p ∈ pats, EndsAt p ws k → ∀ h, Held pats p h → Held pats (released ws k) h ∧ ¬Occurs pats h

variable {w : Text}

theorem released_succ {ws rest : List Text} {k : Nat} (h : ws.drop k = w :: rest) :
    released ws (k + 1) = released ws k ++ w := by
  have hw : ws[k]? = some w := by rw [← head?_drop, h]; rfl
  rw [released, take_add_one, hw]
  simp [released]

/-! ## One token -/

namespace StopSequenceDecoder

variable {σ : Type} {ops : SequenceOps σ} {find : Find} {rules : StopRules}

/-- A running decoder that holds the held text of what was released so far, with no stop string in
it; what was released may have some. -/
structure Primed (rules : StopRules) (X : Text) (s : σ) (d : StopSequenceDecoder σ) : Prop where
  running : d.stopped = false
  rules_eq : d.rules = rules
  sequence_eq : d.sequence = s
  held : Held rules.patterns X d.jailBuffer
  clean : ¬Occurs rules.patterns d.jailBuffer

variable {d : StopSequenceDecoder σ}

/-- Stop strings in the jail and the new text are those that end in the new text. -/
theorem Primed.occurs_iff {X : Text} {s : σ} (h : Primed rules X s d) {p : Text}
    (hp : p ∈ rules.patterns) :
    p <:+: d.jailBuffer ++ w ↔ ∃ a b, X ++ w = a ++ p ++ b ∧ X.length < (a ++ p).length := by
  obtain ⟨out, rfl⟩ := h.held.suffix
  constructor
  · rintro ⟨a, b, hab⟩
    refine ⟨out ++ a, b, by rw [append_assoc, ← hab]; simp, ?_⟩
    by_contra hle
    simp only [length_append] at hle
    obtain ⟨r, hr⟩ : a ++ p <+: d.jailBuffer := prefix_of_prefix_length_le ⟨b, hab⟩
      (prefix_append _ w) (by simp only [length_append]; omega)
    exact h.clean ⟨p, hp, ⟨a, r, hr⟩⟩
  · rintro ⟨a, b, hab, hlt⟩
    obtain ⟨a', rfl⟩ := h.held.covers_ending hp hab hlt
    refine ⟨a', b, append_cancel_left (?_ : out ++ _ = out ++ _)⟩
    simpa using hab.symm

/-- **One token**: if no stop string ends in its text the decoder goes on holding the held text,
otherwise it stops and names one that does. -/
theorem Primed.step (hfind : FindsEarliest find) (hne : ∀ p ∈ rules.patterns, p ≠ [])
    (hids : rules.hiddenStopIds = [] ∧ rules.visibleStopIds = []) {X : Text} {s s' : σ}
    {d : StopSequenceDecoder σ} (h : Primed rules X s d) {token : TokenId}
    (happ : ops.appendTokenInto s token = some (s', w)) :
    ∃ d' o step, processTokenInto ops find d token = some (d', o, step) ∧
      (Primed rules (X ++ w) s' d' ∧ (∀ p ∈ rules.patterns,
          ¬∃ a b, X ++ w = a ++ p ++ b ∧ X.length < (a ++ p).length) ∨
        ∃ p ∈ rules.patterns, (∃ a b, X ++ w = a ++ p ++ b ∧ X.length < (a ++ p).length) ∧
          d' = { d with
            sequence := s', stopped := true, matchedStop := some p, jailBuffer := [] }) := by
  obtain rfl := h.rules_eq
  obtain rfl := h.sequence_eq
  obtain ⟨out, hX⟩ := h.held.suffix
  by_cases honly : d.rules.tokenOnly = true
  · have hnone : d.rules.patterns = [] := isEmpty_iff.mp honly
    have hjail : d.jailBuffer = [] := by
      rcases h.held.begins with hnil | ⟨p, hp, -⟩
      · exact hnil
      · simp [hnone] at hp
    have hproc : processTokenInto ops find d token = some ({ d with sequence := s' }, w,
        if w.isEmpty then .held else .text) := by
      simp [processTokenInto, h.running, hids.1, hids.2, honly, happ]
    refine ⟨_, _, _, hproc, .inl ⟨?_, ?_⟩⟩
    · refine ⟨h.running, rfl, rfl, ?_, h.clean⟩
      simp only [hjail]
      refine ⟨nil_suffix, .inl rfl, ?_⟩
      rintro h' - ⟨p, hp, -⟩
      simp [hnone] at hp
    · simp [hnone]
  have hproc : processTokenInto ops find d token =
      release find { d with sequence := s', jailBuffer := d.jailBuffer ++ w } := by
    simp [processTokenInto, h.running, hids.1, hids.2, honly, happ]
  rw [hproc]
  rcases release_cases hfind { d with sequence := s', jailBuffer := d.jailBuffer ++ w } hne with
    ⟨t, h', step, hno, hh', -, -, hrel⟩ | ⟨i, a, p, b, step, he, -, -, hrel⟩
  · refine ⟨_, _, _, hrel, .inl ⟨⟨h.running, rfl, rfl, ?_, ?_⟩, fun p hp hend => ?_⟩⟩
    · have hheld := h.held
      rw [← hX] at hheld ⊢
      exact hheld.of_append hh'
    · rintro ⟨p, hp, hocc⟩
      exact hno ⟨p, hp, hocc.trans hh'.suffix.isInfix⟩
    · exact hno ⟨p, hp, (h.occurs_iff hp).mpr hend⟩
  · have hp := mem_of_getElem? he.pattern
    exact ⟨_, _, _, hrel, .inr ⟨p, hp, (h.occurs_iff hp).mp ⟨a, b, he.eq.symm⟩, rfl⟩⟩

theorem resume_eq {p : Text} (hstop : d.stopped = true) (hmatch : d.matchedStop = some p) :
    ∃ h, Held d.rules.patterns p h ∧
      d.resume = some { d with stopped := false, matchedStop := none, jailBuffer := h } := by
  obtain ⟨h, hh, hlen⟩ := pendingMatchLen_spec d.rules p
  obtain ⟨t, rfl⟩ := hh.suffix
  refine ⟨h, hh, ?_⟩
  have hdrain : (encode (t ++ h)).length - pendingMatchLen d.rules (t ++ h) =
      (encode t).length := by
    rw [encode_append, length_append]
    omega
  simp only [resume, hstop, hmatch, Bool.not_true, Bool.false_eq_true, if_false, hdrain,
    slice_append, Option.bind_eq_bind, Option.bind_some]

end StopSequenceDecoder

/-! ## Any number of tokens, in any calls -/

namespace StopMatcher

variable {σ : Type} {ops : SequenceOps σ} {find : Find}

theorem feedTokens_stored (tokens : List TokenId) (d : StopSequenceDecoder σ) (m : StopMatcher σ)
    (x : Option (StopSequenceDecoder σ)) :
    feedTokens ops find tokens d { m with decoder := x } = feedTokens ops find tokens d m := by
  induction tokens generalizing d m with
  | nil => rfl
  | cons token tokens ih =>
    simp only [feedTokens]
    rcases processTokenInto ops find d token with _ | ⟨d', o, step⟩
    · rfl
    · simp only
      rw [ih d' { m with generated := saturatingAdd m.generated 1, taken := m.taken + 1 }]
      rcases d'.resume with _ | d''
      · rfl
      · simp [ih d'' { m with generated := saturatingAdd m.generated 1, taken := m.taken + 1 }]

/-- A call with more tokens is the call with the first and then, if nothing matched, the others. -/
theorem feedTokens_append (tokens rest : List TokenId) (d : StopSequenceDecoder σ)
    (m : StopMatcher σ) : feedTokens ops find (tokens ++ rest) d m =
      (feedTokens ops find tokens d m).bind fun r =>
        match r with
        | (m', none) => feed ops find m' rest
        | (m', some stop) => some (m', some stop) := by
  induction tokens generalizing d m with
  | nil => exact (feedTokens_stored rest d m (some d)).symm
  | cons token tokens ih =>
    rw [cons_append, feedTokens, feedTokens]
    rcases processTokenInto ops find d token with _ | ⟨d', o, step⟩
    · rfl
    · dsimp only
      split
      · exact ih _ _
      · split
        · rcases d'.resume with _ | d''
          · rfl
          · exact ih _ _
        · rfl

theorem feedTokens_decoder {tokens : List TokenId} {d : StopSequenceDecoder σ}
    {m m' : StopMatcher σ} {r : Option Text} (h : feedTokens ops find tokens d m = some (m', r)) :
    m'.decoder.isSome := by
  induction tokens generalizing d m with
  | nil =>
    cases h
    rfl
  | cons token tokens ih =>
    rw [feedTokens] at h
    rcases hp : processTokenInto ops find d token with _ | ⟨d', o, step⟩ <;> simp only [hp] at h
    · cases h
    · split at h
      · exact ih h
      · split at h
        · rcases hr : d'.resume with _ | d'' <;> rw [hr] at h
          · cases h
          · exact ih h
        · cases h
          rfl

/-- **How tokens are split into calls makes no difference.** -/
theorem feeds_eq (calls : List (List TokenId)) {m : StopMatcher σ} {d : StopSequenceDecoder σ}
    (hm : m.decoder = some d) : feeds ops find m calls = feedTokens ops find calls.flatten d m := by
  induction calls generalizing m d with
  | nil =>
    rw [feeds, flatten_nil, feedTokens, ← hm]
  | cons tokens calls ih =>
    rw [feeds, flatten_cons, feedTokens_append]
    simp only [feed, hm]
    rcases hf : feedTokens ops find tokens d m with _ | ⟨m', _ | stop⟩
    · rfl
    · obtain ⟨d', hd'⟩ := Option.isSome_iff_exists.mp (feedTokens_decoder hf)
      simp only [Option.bind_some, ih hd', hd']
    · rfl

/-- The answer to tokens from the one after `taken` on: nothing, and no stop string ends past the
window; or the first that does, at the token looked at last. -/
def Answers (pats ws : List Text) (minTokens taken : Nat) (m : StopMatcher σ) (r : Option Text) :
    Prop :=
  r = none ∧ (∀ k, taken < k → minTokens < k → ¬∃ p ∈ pats, EndsAt p ws k) ∨
    ∃ p ∈ pats, r = some p ∧ EndsAt p ws m.taken ∧ minTokens < m.taken ∧
      ∀ k, taken < k → k < m.taken → minTokens < k → ¬∃ p ∈ pats, EndsAt p ws k

/-- An answer from the next token on is one from this token on, if this one may be passed. -/
theorem Answers.of_succ {pats ws : List Text} {minTokens taken : Nat} {m : StopMatcher σ}
    {r : Option Text} (h : Answers pats ws minTokens (taken + 1) m r)
    (hhere : minTokens < taken + 1 → ¬∃ p ∈ pats, EndsAt p ws (taken + 1)) :
    Answers pats ws minTokens taken m r := by
  rcases h with ⟨hnone, hno⟩ | ⟨p, hp, hr, hend, hmin, hno⟩
  · refine .inl ⟨hnone, fun k hk hmin => ?_⟩
    rcases Nat.lt_or_eq_of_le hk with hk | rfl
    · exact hno k hk hmin
    · exact hhere hmin
  · refine .inr ⟨p, hp, hr, hend, hmin, fun k hk hkm hmink => ?_⟩
    rcases Nat.lt_or_eq_of_le hk with hk | rfl
    · exact hno k hk hkm hmink
    · exact hhere hmink

/-- **Any number of tokens**: nothing was reported and no stop string ended past the window, or the
first that did was reported. -/
theorem feedTokens_spec (hfind : FindsEarliest find) {rules : StopRules}
    (hne : ∀ p ∈ rules.patterns, p ≠ [])
    (hids : rules.hiddenStopIds = [] ∧ rules.visibleStopIds = []) {ws : List Text}
    {tokens : List TokenId} {s s' : σ} {d : StopSequenceDecoder σ} {m : StopMatcher σ}
    (hd : Primed rules (released ws m.taken) s d)
    (htexts : ops.texts s tokens = some (s', ws.drop m.taken))
    (hgen : m.generated = min m.taken (2 ^ 32 - 1))
    (hcount : m.minTokens.toNat < 2 ^ 32 - 1 ∨ m.taken + tokens.length ≤ 2 ^ 32 - 1)
    (hkeep : ∀ k ≤ m.minTokens.toNat, Keeps rules.patterns ws k) :
    ∃ m' r, feedTokens ops find tokens d m = some (m', r) ∧
      Answers rules.patterns ws m.minTokens.toNat m.taken m' r := by
  induction tokens generalizing s d m with
  | nil =>
    refine ⟨_, none, rfl, .inl ⟨rfl, fun k hk _ => ?_⟩⟩
    obtain ⟨-, hdrop⟩ := Prod.mk.inj (Option.some.inj htexts)
    -- there is no text left to end in
    rintro ⟨p, hp, a, b, hab, hlt⟩
    have hlen : ws.length ≤ m.taken := drop_eq_nil_iff.mp hdrop.symm
    have hsame : released ws k = released ws (k - 1) := by
      rw [released, released, take_of_length_le (by omega), take_of_length_le (by omega)]
    rw [← hsame, hab] at hlt
    simp only [length_append] at hlt
    omega
  | cons token tokens ih =>
    simp only [SequenceOps.texts, Option.bind_eq_bind, Option.bind_eq_some_iff] at htexts
    obtain ⟨⟨s₁, w⟩, happ, ⟨s₂, vs⟩, hrest, heq⟩ := htexts
    obtain ⟨rfl, hdrop⟩ := Prod.mk.inj (Option.some.inj heq)
    have htext := released_succ hdrop.symm
    have hvs : vs = ws.drop (m.taken + 1) := by rw [← tail_drop, ← hdrop]; rfl
    have hgen' : saturatingAdd m.generated 1 = min (m.taken + 1) (2 ^ 32 - 1) := by
      rw [saturatingAdd]
      omega
    have hends : ∀ p, EndsAt p ws (m.taken + 1) ↔ ∃ a b, released ws m.taken ++ w = a ++ p ++ b ∧
        (released ws m.taken).length < (a ++ p).length := fun p => by
      rw [EndsAt, htext, Nat.add_sub_cancel]
    rw [length_cons] at hcount
    obtain ⟨d', o, step, hproc, hcase⟩ := hd.step hfind hne hids happ
    -- the rest of the tokens, from a decoder that is primed after this one
    have hrec : ∀ d'' : StopSequenceDecoder σ, Primed rules (released ws (m.taken + 1)) s₁ d'' →
        (m.minTokens.toNat < m.taken + 1 → ¬∃ p ∈ rules.patterns, EndsAt p ws (m.taken + 1)) →
        ∃ m' r, feedTokens ops find tokens d'' { m with
            generated := saturatingAdd m.generated 1, taken := m.taken + 1 } = some (m', r) ∧
          Answers rules.patterns ws m.minTokens.toNat m.taken m' r := by
      intro d'' hd'' hhere
      obtain ⟨m', r, hfeed, hr⟩ := ih (m := { m with
        generated := saturatingAdd m.generated 1, taken := m.taken + 1 }) hd''
        (by rw [hrest, hvs]) hgen' (hcount.imp_right fun h => by simp only; omega) hkeep
      exact ⟨m', r, hfeed, hr.of_succ hhere⟩
    rcases hcase with ⟨hprimed, hno⟩ | ⟨p, hp, hend, rfl⟩
    · obtain ⟨m', r, hfeed, hr⟩ := hrec d' (htext ▸ hprimed) (by
        rintro - ⟨p, hp, he⟩
        exact hno p hp ((hends p).mp he))
      refine ⟨m', r, ?_, hr⟩
      simp only [feedTokens, hproc, hprimed.running, Bool.not_false]
      exact hfeed
    have hend' := (hends p).mpr hend
    by_cases hwin : saturatingAdd m.generated 1 ≤ m.minTokens.toNat
    · -- a match inside the window: what the decoder goes on with is the held text
      have hle : m.taken + 1 ≤ m.minTokens.toNat := by omega
      obtain ⟨h, hh, hres⟩ := resume_eq (d := { d with
        sequence := s₁, stopped := true, matchedStop := some p, jailBuffer := [] }) rfl rfl
      obtain ⟨hheld, hclean⟩ := hkeep _ hle p hp hend' h (hd.rules_eq ▸ hh)
      obtain ⟨m', r, hfeed, hr⟩ := hrec { d with
        sequence := s₁, stopped := false, matchedStop := none, jailBuffer := h }
        ⟨rfl, hd.rules_eq, rfl, hheld, hclean⟩ fun h => absurd h (by omega)
      refine ⟨m', r, ?_, hr⟩
      simp only [feedTokens, hproc, Bool.not_true, Bool.false_eq_true, if_pos hwin, hres]
      exact hfeed
    · have hfeed : feedTokens ops find (token :: tokens) d m = some ({ m with
          generated := saturatingAdd m.generated 1
          taken := m.taken + 1
          decoder := some { d with
            sequence := s₁, stopped := true, matchedStop := some p, jailBuffer := [] } },
          some p) := by
        simp only [feedTokens, hproc, Bool.not_true, Bool.false_eq_true, if_false, if_neg hwin,
          Option.getD_some]
      refine ⟨_, _, hfeed, .inr ⟨p, hp, rfl, hend', ?_, fun k hk hkm => ?_⟩⟩
      · simp only
        omega
      · simp only at hkm
        omega

theorem feeds_none (calls : List (List TokenId)) {m : StopMatcher σ} (hm : m.decoder = none) :
    ∃ m', feeds ops find m calls = some (m', none) := by
  induction calls generalizing m with
  | nil => exact ⟨m, rfl⟩
  | cons tokens calls ih =>
    simp only [feeds, feed, hm]
    exact ih rfl

end StopMatcher

open StopMatcher

variable {σ : Type} {ops : SequenceOps σ} {find : Find}

theorem primed_start (s : σ) (stops : List Text) :
    Primed (.new ⟨[], stops, [], []⟩) [] s (withSequence s (.new ⟨[], stops, [], []⟩)) :=
  ⟨rfl, rfl, rfl, .nil, (jailed_start s _).none⟩

/-- **Stop matching past `min_tokens`.**  For every list of stop strings, every `min_tokens` and
every split of a token sequence into calls: if no stop string that ends inside the window loses
text, the matcher reports a match exactly at the first token past the window at which a stop string
ends, and none if there is no such token. -/
theorem stop_matched_past_min (hfind : FindsEarliest find) (stops : List Text) (minTokens : UInt32)
    (calls : List (List TokenId)) {s₀ s₁ : σ} {ws : List Text}
    (htexts : ops.texts s₀ calls.flatten = some (s₁, ws))
    (hcount : minTokens.toNat < 2 ^ 32 - 1 ∨ calls.flatten.length ≤ 2 ^ 32 - 1)
    (hkeep : ∀ k ≤ minTokens.toNat, Keeps (stops.filter fun p => !p.isEmpty) ws k) :
    ∃ m r, feeds ops find { decoder := stopDecoder s₀ stops, minTokens := minTokens } calls =
        some (m, r) ∧
      (∀ k, FirstStop stops minTokens.toNat ws k →
        m.taken = k ∧ ∃ p ∈ stops, p ≠ [] ∧ EndsAt p ws k ∧ r = some p) ∧
      ((¬∃ k, FirstStop stops minTokens.toNat ws k) → r = none) := by
  by_cases hnil : stops = []
  · obtain ⟨m, hm⟩ := @feeds_none σ ops find calls
      { decoder := stopDecoder s₀ stops, minTokens := minTokens } (by simp [stopDecoder, hnil])
    refine ⟨m, none, hm, fun k hk => ?_, fun _ => rfl⟩
    obtain ⟨p, hp, -⟩ := hk.ends
    simp [hnil] at hp
  have hpats : (StopRules.new ⟨[], stops, [], []⟩).patterns = stops.filter fun p => !p.isEmpty := by
    simp [StopRules.new]
  have hmem : ∀ k, (∃ p ∈ (StopRules.new ⟨[], stops, [], []⟩).patterns, EndsAt p ws k) ↔
      ∃ p ∈ stops, p ≠ [] ∧ EndsAt p ws k := fun k => by simp [hpats, and_assoc]
  have hdec : stopDecoder s₀ stops = some (withSequence s₀ (.new ⟨[], stops, [], []⟩)) := by
    simp [stopDecoder, hnil]
  obtain ⟨m, r, hfeed, hr⟩ := @feedTokens_spec σ ops find hfind (.new ⟨[], stops, [], []⟩)
    (patterns_ne_nil _) ⟨rfl, rfl⟩ ws calls.flatten s₀ s₁ _
    { decoder := stopDecoder s₀ stops, minTokens := minTokens } (primed_start s₀ stops)
    (by simpa using htexts) rfl (by simpa using hcount) (hpats ▸ hkeep)
  refine ⟨m, r, (feeds_eq calls hdec).trans hfeed, ?_⟩
  simp only [Answers, hmem] at hr
  rcases hr with ⟨rfl, hno⟩ | ⟨p, hp, rfl, hend, hmin, hno⟩
  · refine ⟨fun k hk => absurd hk.ends (hno k ?_ hk.past), fun _ => rfl⟩
    exact lt_of_le_of_lt (Nat.zero_le _) hk.past
  · have hp' : p ∈ stops ∧ p ≠ [] := by simpa [hpats] using hp
    have hfirst : FirstStop stops minTokens.toNat ws m.taken :=
      ⟨hmin, ⟨p, hp'.1, hp'.2, hend⟩, fun k hk hkm =>
        hno k (lt_of_le_of_lt (Nat.zero_le _) hk) hkm hk⟩
    refine ⟨fun k hk => ?_, fun h => absurd ⟨_, hfirst⟩ h⟩
    rcases lt_trichotomy m.taken k with hlt | rfl | hlt
    · exact absurd hfirst.ends (hk.first _ hmin hlt)
    · exact ⟨rfl, p, hp'.1, hp'.2, hend, rfl⟩
    · exact absurd hk.ends (hfirst.first _ hk.past hlt)

/-! ## A window with a stop string in it -/

def pair : List Text := ["ab".toList]

/-- The text `abab`, in two calls. -/
def ababCalls : List (List TokenId) := [[97, 98, 97], [98]]

theorem keeps_pair (k : Nat) (hk : k ≤ 2) :
    Keeps (pair.filter fun p => !p.isEmpty) [['a'], ['b'], ['a'], ['b']] k := by
  have hpair : (pair.filter fun p => !p.isEmpty) = [['a', 'b']] := by decide
  rw [hpair]
  intro p hp hend h hh
  obtain rfl : p = ['a', 'b'] := mem_singleton.mp hp
  constructor
  · obtain ⟨a, b, hab, -⟩ := hend
    have hlen := congrArg length hab
    rcases k with _ | _ | _ | k
    · simp [released] at hlen
    · simp [released] at hlen
      omega
    · exact hh
    · omega
  · rintro ⟨q, hq, hocc⟩
    obtain rfl : q = ['a', 'b'] := mem_singleton.mp hq
    rcases hh.begins with rfl | ⟨q, hq, hpre, hne⟩
    · simp at hocc
    · obtain rfl : q = ['a', 'b'] := mem_singleton.mp hq
      exact hne (hpre.eq_of_length_le hocc.length_le)

/-- The first `ab` is inside the window; the second is reported, at the last token. -/
theorem stop_matched_past_min_pair :
    (feeds echo scanFind { decoder := stopDecoder () pair, minTokens := 2 } ababCalls).map
        (fun r => (r.1.taken, r.2)) = some (4, some ['a', 'b']) ∧
      ∃ m r, feeds echo scanFind { decoder := stopDecoder () pair, minTokens := 2 } ababCalls =
          some (m, r) ∧
        (∀ k, FirstStop pair 2 [['a'], ['b'], ['a'], ['b']] k →
          m.taken = k ∧ ∃ p ∈ pair, p ≠ [] ∧ EndsAt p [['a'], ['b'], ['a'], ['b']] k ∧
            r = some p) ∧
        ((¬∃ k, FirstStop pair 2 [['a'], ['b'], ['a'], ['b']] k) → r = none) :=
  ⟨by decide +kernel, @stop_matched_past_min Unit echo scanFind findsEarliest_scanFind pair 2
    ababCalls () () [['a'], ['b'], ['a'], ['b']] rfl (.inl (by decide)) keeps_pair⟩

def around : List Text := ["abcd".toList, "bc".toList]

/-- **A stop string around one that ends inside the window is missed**: with the stop strings `abcd`
and `bc` and the first three of the characters `a`, `b`, `c`, `d` in the window, the match of `bc`
is dropped, and `a` with it.  `abcd` ends at the fourth token and is not reported. -/
theorem overlapped_stop_missed :
    FirstStop around 3 [['a'], ['b'], ['c'], ['d']] 4 ∧
      echo.texts () [97, 98, 99, 100] = some ((), [['a'], ['b'], ['c'], ['d']]) ∧
      (feeds echo scanFind { decoder := stopDecoder () around, minTokens := 3 }
        [[97, 98, 99, 100]]).map Prod.snd = some none := by
  refine ⟨⟨by decide, ⟨"abcd".toList, by simp [around], by decide, [], [], by decide, by decide⟩,
    fun j hj hj' => ?_⟩, rfl, by decide +kernel⟩
  omega

end Smg.Tokenizer
