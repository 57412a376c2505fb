import Mathlib.Data.List.Forall2
import Smg.Gateway.SseRechunk

/-!
# A veto is final and sees everything

The effects of a call of `SseRechunker` are kept in one order, so what the observer may rely on is
a statement about them.

* `Fit` is the invariant of the stage: counts are right, only the buffer that received text last
  holds any, and a stopped stage holds none.
* `Orderly` says what any step does, whatever it is made of: nothing once the stage is stopped;
  otherwise slices shown, accepted and written one by one among other writes, perhaps up to one
  that is refused, followed by the error event and nothing else.  The text written and the text
  still buffered are together the text that was taken.
* `Orderly` survives concatenation (`composable_keeps`), so it is shown of a pass over the
  buffers, of a write and of taking text (`obeys_emit`, `obeys_write`, `obeys_push`), and holds of
  every sequence of calls (`obeys_calling`).
* `veto_final` reads the promises to the observer off it.
-/

set_option autoImplicit false

namespace Smg.Sse

open List Pending Effect Option

/-! ## Keeping the books -/

/-- Text by characters, each with the slot it belongs to. -/
def atoms (slot : Slot) (text : Text) : List (Slot × Char) := text.map fun c => (slot, c)

def DeltaSlice.atoms (s : DeltaSlice) : List (Slot × Char) := Sse.atoms s.field s.text

def buffered (buffers : Buffers) : List (Slot × Char) :=
  buffers.flatMap fun entry => atoms entry.1 entry.2.text

def Effect.slice? : Effect → Option DeltaSlice
  | .wrote (.slice _ _ s) => some s
  | _ => none

def Effect.showing? : Effect → Option (DeltaSlice × Verdict)
  | .shown s verdict => some (s, verdict)
  | _ => none

def Effect.taken : Effect → List (Slot × Char)
  | .took slot text => atoms slot text
  | _ => []

def Effect.isEnded : Effect → Bool
  | .ended => true
  | _ => false

/-- The slices of the synthesized events written. -/
def slices (es : List Effect) : List DeltaSlice := es.filterMap Effect.slice?

def sliceText (es : List Effect) : List (Slot × Char) := (slices es).flatMap DeltaSlice.atoms

/-- The slices shown to the observer, each with its answer. -/
def showings (es : List Effect) : List (DeltaSlice × Verdict) := es.filterMap Effect.showing?

def taken (es : List Effect) : List (Slot × Char) := es.flatMap Effect.taken

/-- How often the observer was told the stream ended. -/
def endings (es : List Effect) : Nat := es.countP Effect.isEnded

/-- Slices shown, let out and written one after the other. -/
def sliced (envelope : RawObject) (usageNull : Bool) (ss : List DeltaSlice) : List Effect :=
  ss.flatMap fun s => [.shown s .proceed, .wrote (.slice envelope usageNull s)]

section Books

variable (es fs : List Effect) (envelope : RawObject) (usageNull : Bool) (ss : List DeltaSlice)

@[simp] theorem slices_append : slices (es ++ fs) = slices es ++ slices fs := by simp [slices]

@[simp] theorem sliceText_append : sliceText (es ++ fs) = sliceText es ++ sliceText fs := by
  simp [sliceText]

@[simp] theorem showings_append : showings (es ++ fs) = showings es ++ showings fs := by
  simp [showings]

@[simp] theorem taken_append : taken (es ++ fs) = taken es ++ taken fs := by simp [taken]

@[simp] theorem endings_append : endings (es ++ fs) = endings es + endings fs := by simp [endings]

@[simp] theorem slices_sliced : slices (sliced envelope usageNull ss) = ss := by
  induction ss with
  | nil => rfl
  | cons s ss ih => exact congrArg (s :: ·) ih

@[simp] theorem sliceText_sliced :
    sliceText (sliced envelope usageNull ss) = ss.flatMap DeltaSlice.atoms := by simp [sliceText]

@[simp] theorem taken_sliced : taken (sliced envelope usageNull ss) = [] := by
  induction ss with
  | nil => rfl
  | cons s ss ih => exact ih

@[simp] theorem endings_sliced : endings (sliced envelope usageNull ss) = 0 := by
  induction ss with
  | nil => rfl
  | cons s ss ih => exact ih

@[simp] theorem showings_sliced :
    showings (sliced envelope usageNull ss) = ss.map fun s => (s, .proceed) := by
  induction ss with
  | nil => rfl
  | cons s ss ih => exact congrArg ((s, Verdict.proceed) :: ·) ih

end Books

/-! ## Events without their text -/

/-- In the rewritten parts of an event no payload field of the delta and no function's arguments
are a string: the places text is taken from. -/
def Stripped (event : List (String × Value)) : Prop :=
  ∀ choice, ("choices", Value.array [.object choice]) ∈ event →
    ∀ delta, ("delta", Value.object delta) ∈ choice →
      (∀ key value, (key, value) ∈ delta → (Payload.ofKey key).isSome →
        ∃ raw, value = .raw raw ∧ isString raw = false) ∧
      ∀ calls, ("tool_calls", Value.array calls) ∈ delta → ∀ call, Value.object call ∈ calls →
        ∀ function, ("function", Value.object function) ∈ call →
          ∀ value, ("arguments", value) ∈ function → ∃ raw, value = .raw raw ∧ isString raw = false

theorem writeFunction_arguments {function : RawObject} {value : Value}
    (h : ("arguments", value) ∈ writeFunction function) :
    ∃ raw, value = .raw raw ∧ isString raw = false := by
  obtain ⟨⟨key, raw⟩, -, hraw⟩ := mem_filterMap.1 h
  by_cases hskip : (isNull raw || (key == "arguments" && isString raw)) = true
  · simp [hskip] at hraw
  · rw [if_neg hskip] at hraw
    cases hraw
    simp only [beq_self_eq_true, Bool.or_eq_true, not_or] at hskip
    exact ⟨raw, rfl, by simpa using hskip.2⟩

theorem writeToolCall_function {call : ToolCall} {members function : List (String × Value)}
    (h : writeToolCall call = .object members)
    (hf : ("function", Value.object function) ∈ members) :
    ∃ raw, function = writeFunction raw := by
  rw [writeToolCall] at h
  cases hobj : call.object with
  | none => rw [hobj] at h; cases h
  | some object =>
    rw [hobj] at h
    cases h
    obtain ⟨⟨key, raw⟩, -, hraw⟩ := mem_filterMap.1 hf
    cases hfun : call.function with
    | none => grind
    | some f =>
      exact ⟨f, by grind⟩

theorem writeDelta_payload {shape : Shape} {delta : RawObject} {key : String} {value : Value}
    (h : (key, value) ∈ writeDelta shape delta) (hkey : (Payload.ofKey key).isSome) :
    ∃ raw, value = .raw raw ∧ isString raw = false := by
  obtain ⟨⟨key', raw⟩, -, hraw⟩ := mem_filterMap.1 h
  have hk : key ≠ "role" ∧ key ≠ "tool_calls" := by
    refine ⟨?_, ?_⟩ <;> (rintro rfl; cases hkey)
  simp only [writeDeltaMember] at hraw
  grind

theorem writeDelta_toolCalls {shape : Shape} {delta : RawObject} {calls : List Value}
    (h : ("tool_calls", Value.array calls) ∈ writeDelta shape delta) :
    calls = shape.toolCalls.map writeToolCall := by
  obtain ⟨⟨key, raw⟩, -, hraw⟩ := mem_filterMap.1 h
  simp only [writeDeltaMember] at hraw
  grind

theorem stripped_writeEvent (s : Structural) (variant : Variant) :
    Stripped (writeEvent s variant) := by
  intro choice hchoice delta hdelta
  -- The written choice is the event's own, and its delta is empty or the rewritten one.
  have hdelta' : delta = [] ∨ ∃ members, delta = writeDelta s.shape members := by
    obtain ⟨⟨key, raw⟩, -, hraw⟩ := mem_filterMap.1 hchoice
    cases hc : s.choice with
    | none => grind
    | some members =>
      rw [hc] at hraw
      have hmem : ("delta", Value.object delta) ∈ writeChoice s variant members := by grind
      obtain ⟨⟨key', raw'⟩, -, hraw'⟩ := mem_map.1 hmem
      cases hd : s.delta with
      | none => grind
      | some parsed => rw [hd] at hraw'; grind
  rcases hdelta' with rfl | ⟨members, rfl⟩
  · exact ⟨by simp, by simp⟩
  · refine ⟨fun key value h => writeDelta_payload h, fun calls hcalls call hcall => ?_⟩
    rw [writeDelta_toolCalls hcalls] at hcall
    obtain ⟨entry, -, hentry⟩ := mem_map.1 hcall
    intro function hfunction value hvalue
    obtain ⟨raw, rfl⟩ := writeToolCall_function hentry hfunction
    exact writeFunction_arguments hvalue

/-! ## Buffers -/

/-- What holds of the buffers whoever looks: each entry counts its characters, the slots are in
order, and only `last` holds text. -/
structure Sound (buffers : Buffers) (last : Option Slot) : Prop where
  counted : ∀ entry ∈ buffers, entry.2.chars = entry.2.text.length
  sorted : buffers.Pairwise fun a b => a.1.rank < b.1.rank
  single : ∀ entry ∈ buffers, entry.2.text ≠ [] → last = some entry.1

theorem Slot.rank_injective {a b : Slot} (h : a.rank = b.rank) : a = b := by
  rcases a with (_ | _ | _) | (_ | i) <;> rcases b with (_ | _ | _) | (_ | j) <;>
    simp [Slot.rank] at h ⊢ <;> omega

variable {slot : Slot}

variable {buffers : Buffers}

theorem buffered_eq_nil : buffered buffers = [] ↔ ∀ entry ∈ buffers, entry.2.text = [] := by
  simp [buffered, atoms]

/-- Where text goes: between the entries of earlier and of later slots. -/
theorem push_split (slot : Slot) (text : Text)
    (hs : buffers.Pairwise fun a b => a.1.rank < b.1.rank) :
    ∃ (pre : Buffers) (p : Pending) (post : Buffers),
      (buffers = pre ++ (slot, p) :: post ∨ p = {} ∧ buffers = pre ++ post) ∧
      buffers.push slot text = pre ++ (slot, p.push text) :: post ∧
      (∀ entry ∈ pre, entry.1.rank < slot.rank) ∧ ∀ entry ∈ post, slot.rank < entry.1.rank := by
  induction buffers with
  | nil => exact ⟨[], {}, [], .inr ⟨rfl, rfl⟩, rfl, by simp, by simp⟩
  | cons head rest ih =>
    obtain ⟨other, p⟩ := head
    obtain ⟨hhead, hrest⟩ := pairwise_cons.1 hs
    rw [Buffers.push]
    split
    · rename_i h
      subst h
      exact ⟨[], p, rest, .inl rfl, rfl, by simp, hhead⟩
    · rename_i hne
      split
      · rename_i hlt
        exact ⟨[], {}, (other, p) :: rest, .inr ⟨rfl, rfl⟩, rfl, by simp,
          forall_mem_cons.2 ⟨hlt, fun entry he => hlt.trans (hhead entry he)⟩⟩
      · obtain ⟨pre, q, post, hb, hpush, hpre, hpost⟩ := ih hrest
        have hlt : other.rank < slot.rank := by
          have : other.rank ≠ slot.rank := fun h => hne (Slot.rank_injective h)
          omega
        exact ⟨(other, p) :: pre, q, post, hb.imp (congrArg _) (.imp_right (congrArg _)),
          congrArg _ hpush, forall_mem_cons.2 ⟨hlt, hpre⟩, hpost⟩

variable {last : Option Slot}

theorem buffered_push {text : Text} (hs : buffers.Pairwise fun a b => a.1.rank < b.1.rank)
    (hone : ∀ entry ∈ buffers, entry.2.text ≠ [] → entry.1 = slot) :
    buffered (buffers.push slot text) = buffered buffers ++ atoms slot text := by
  obtain ⟨pre, p, post, hb, hpush, -, hpost⟩ := push_split slot text hs
  have hnil : buffered post = [] := buffered_eq_nil.2 fun entry he => by
    by_contra h
    have hmem : entry ∈ buffers := by rcases hb with rfl | ⟨-, rfl⟩ <;> simp [he]
    exact (hpost entry he).ne' (congrArg _ (hone entry hmem h))
  rw [hpush]
  simp only [buffered, atoms] at hnil
  rcases hb with rfl | ⟨rfl, rfl⟩ <;> simp [buffered, atoms, Pending.push, hnil]

theorem Sound.push {text : Text} (h : Sound buffers last)
    (hone : ∀ entry ∈ buffers, entry.2.text ≠ [] → entry.1 = slot) :
    Sound (buffers.push slot text) (some slot) := by
  obtain ⟨pre, p, post, hb, hpush, hpre, hpost⟩ := push_split slot text h.sorted
  have hsub : pre ++ post <+ buffers := by rcases hb with rfl | ⟨-, rfl⟩ <;> simp
  have hp : p.chars = p.text.length := by
    rcases hb with rfl | ⟨rfl, -⟩
    · exact h.counted (slot, p) (by simp)
    · rfl
  have hmem : ∀ entry ∈ buffers.push slot text, entry ∈ buffers ∨ entry = (slot, p.push text) := by
    intro entry he
    rw [hpush] at he
    exact (mem_cons.1 (perm_middle.mem_iff.1 he)).symm.imp_left fun h => hsub.subset h
  refine ⟨fun entry he => ?_, ?_, fun entry he hne => ?_⟩
  · rcases hmem entry he with he | rfl
    · exact h.counted entry he
    · simp [Pending.push, hp]
  · obtain ⟨h1, h2, h12⟩ := pairwise_append.1 (h.sorted.sublist hsub)
    rw [hpush]
    exact pairwise_append.2 ⟨h1, pairwise_cons.2 ⟨hpost, h2⟩,
      fun a ha => forall_mem_cons.2 ⟨hpre a ha, h12 a ha⟩⟩
  · rcases hmem entry he with he | rfl
    · rw [hone entry he hne]
    · rfl

/-! ## A pass over the buffers -/

section Stage

variable {O : Type} (obs : DeltaObserver O)

/-- A pass cuts slices off the front of the text: all it is going to, or up to a refused one. -/
inductive Cuts {α : Type} (envelope : RawObject) (usageNull : Bool) (left : α → Prop)
    (text : α → List (Slot × Char)) (before : List (Slot × Char)) (e : Emitted O α) : Prop
  | done (a : α) (ss : List DeltaSlice) (result : e.result = .ok a)
      (effects : e.effects = sliced envelope usageNull ss) (left : left a)
      (books : ss.flatMap DeltaSlice.atoms ++ text a = before)
  | refused (ss : List DeltaSlice) (s : DeltaSlice) (reason : StreamStop)
      (rest : List (Slot × Char)) (result : e.result = .error reason)
      (effects : e.effects = sliced envelope usageNull ss ++ [.shown s (.terminate reason)])
      (books : ss.flatMap DeltaSlice.atoms ++ (s.atoms ++ rest) = before)
      (verdict : ∃ o, (obs.onSlice o s).1 = .terminate reason)

/-- What a pass leaves of one buffer. -/
structure Left (p : Pending) (least : Nat) (drained : Prop) (p' : Pending) : Prop where
  counted : p'.chars = p'.text.length
  empty : p.text = [] → p'.text = []
  drained : drained → p'.chars < least

variable {p : Pending}

theorem Pending.nextSlice_pos {keep : Nat} (h : keep < p.chars) : 0 < p.nextSlice keep := by
  have hslice : sliceChars = 160 := rfl
  have htail : minTailChars = 5 := rfl
  unfold nextSlice
  dsimp only
  split_ifs <;> omega

variable {α β : Type} {envelope : RawObject} {usageNull : Bool} {whole : List (Slot × Char)}
  {left : α → Prop} {text : α → List (Slot × Char)}

theorem Cuts.none {a : α} (o : O) (h : left a) :
    Cuts obs envelope usageNull left text (text a) ⟨[], o, .ok a⟩ :=
  .done a [] rfl rfl h rfl

variable {e : Emitted O α}

section

variable (h : Cuts obs envelope usageNull left text whole e)

include h

theorem Cuts.imp {left' : α → Prop} (himp : ∀ a, left a → left' a) :
    Cuts obs envelope usageNull left' text whole e := by
  rcases h with ⟨a, ss, hres, heff, hleft, hbooks⟩ | ⟨ss, s, reason, rest, hres, heff, hbooks, hv⟩
  · exact .done a ss hres heff (himp a hleft) hbooks
  · exact .refused ss s reason rest hres heff hbooks hv

theorem Cuts.andThen {f : O → α → Emitted O β} {left' : β → Prop} {text' : β → List (Slot × Char)}
    (hf : ∀ o a, left a → Cuts obs envelope usageNull left' text' (text a) (f o a)) :
    Cuts obs envelope usageNull left' text' whole (e.andThen f) := by
  rcases h with ⟨a, ss, hres, heff, hleft, hbooks⟩ | ⟨ss, s, reason, rest, hres, heff, hbooks, hv⟩
  · rcases hf e.observer a hleft with ⟨b, ss', hres', heff', hleft', hbooks'⟩ |
      ⟨ss', s, reason, rest, hres', heff', hbooks', hv⟩
    · refine .done b (ss ++ ss') (by simp [Emitted.andThen, hres, hres']) ?_ hleft' ?_
      · simp [Emitted.andThen, hres, heff, heff', sliced]
      · rw [flatMap_append, append_assoc, hbooks', hbooks]
    · refine .refused (ss ++ ss') s reason rest (by simp [Emitted.andThen, hres, hres']) ?_ ?_ hv
      · simp [Emitted.andThen, hres, heff, heff', sliced]
      · rw [flatMap_append, append_assoc, hbooks', hbooks]
  · exact .refused ss s reason rest (by simp [Emitted.andThen, hres])
      (by simp [Emitted.andThen, hres, heff]) hbooks hv

/-- Text that stands behind, or none of which is there, stays where it is. -/
theorem Cuts.frame (front back : List (Slot × Char)) (hfront : front = [] ∨ whole = []) :
    Cuts obs envelope usageNull left (fun a => front ++ (text a ++ back)) (front ++ (whole ++ back))
      e := by
  rcases h with ⟨a, ss, hres, heff, hleft, hbooks⟩ | ⟨ss, s, reason, rest, hres, heff, hbooks, hv⟩
  · refine .done a ss hres heff hleft ?_
    rcases hfront with rfl | rfl
    · simp [← hbooks]
    · simp_all
  · rcases hfront with rfl | rfl
    · exact .refused ss s reason (rest ++ back) hres heff (by simp [← hbooks]) hv
    · exact .refused ss s reason (front ++ back) hres heff (by simp_all) hv

end

variable (envelope usageNull)

theorem emitSlice_cuts (hp : p.chars = p.text.length) (slot : Slot) (keep : Nat) (o : O) :
    Cuts obs envelope usageNull
      (fun p' => Left p p.chars (keep < p.chars) p') (fun p' => atoms slot p'.text)
      (atoms slot p.text) (emitSlice obs envelope usageNull slot keep o p) := by
  have htext (n : Nat) : atoms slot (p.text.take n) ++ atoms slot (p.text.drop n)
      = atoms slot p.text := by
    rw [atoms, atoms, ← map_append, take_append_drop, atoms]
  rcases hv : obs.onSlice o ⟨slot, p.text.take (p.nextSlice keep)⟩ with ⟨_ | reason, o'⟩
  · refine .done (p.cut (p.nextSlice keep)) [⟨slot, p.text.take (p.nextSlice keep)⟩]
      (by simp [emitSlice, hv]) (by simp [emitSlice, hv, sliced]) ⟨?_, ?_, ?_⟩ ?_
    · simp [cut, hp]
    · intro h
      simp [cut, h]
    · intro h
      have := nextSlice_pos h
      simp only [cut]
      omega
    · simpa [DeltaSlice.atoms, cut] using htext _
  · exact .refused [] ⟨slot, p.text.take (p.nextSlice keep)⟩ reason
      (atoms slot (p.text.drop (p.nextSlice keep)))
      (by simp [emitSlice, hv]) (by simp only [emitSlice, hv]; rfl) (htext _) ⟨o, by rw [hv]⟩

theorem emitWhile_cuts (slot : Slot) (cut : Cut) (fuel : Nat) (hp : p.chars = p.text.length)
    (o : O) : Cuts obs envelope usageNull
      (fun p' => Left p cut.least (cut.keep < cut.least ∧ p.chars ≤ fuel) p')
      (fun p' => atoms slot p'.text) (atoms slot p.text)
      (emitWhile obs envelope usageNull slot cut fuel o p) := by
  induction fuel generalizing p o with
  | zero => exact .none obs o ⟨hp, id, fun h => by omega⟩
  | succ fuel ih =>
    rw [emitWhile]
    split
    · have hslice := emitSlice_cuts obs envelope usageNull hp slot cut.keep o
      refine hslice.andThen obs fun o p' hleft => (ih hleft.counted o).imp obs fun p2 hleft2 =>
        ⟨hleft2.counted, fun h => hleft2.empty (hleft.empty h), fun h => hleft2.drained ?_⟩
      have := hleft.drained (by omega)
      omega
    · exact .none obs o ⟨hp, id, fun h => by omega⟩

theorem emitPending_cuts (hp : p.chars = p.text.length) (slot : Slot) (cut : Cut) (o : O) :
    Cuts obs envelope usageNull
      (fun p' => Left p cut.least (cut.keep < cut.least ∧ cut.gate ≤ cut.least) p')
      (fun p' => atoms slot p'.text) (atoms slot p.text)
      (emitPending obs envelope usageNull slot cut o p) := by
  rw [emitPending]
  split
  · exact (emitWhile_cuts obs envelope usageNull slot cut p.chars hp o).imp obs fun p' hleft =>
      ⟨hleft.counted, hleft.empty, fun h => hleft.drained ⟨h.1, le_rfl⟩⟩
  · exact .none obs o ⟨hp, id, fun h => by omega⟩

/-- What a pass leaves of the buffers, entry by entry. -/
def LeftAll (cutOf : Slot → Cut) : Buffers → Buffers → Prop :=
  List.Forall₂ fun entry entry' => entry'.1 = entry.1 ∧
    Left entry.2 (cutOf entry.1).least
      ((cutOf entry.1).keep < (cutOf entry.1).least ∧ (cutOf entry.1).gate ≤ (cutOf entry.1).least)
      entry'.2

variable (cutOf : Slot → Cut)

theorem emitBuffers_cuts (hcount : ∀ entry ∈ buffers, entry.2.chars = entry.2.text.length)
    (hone : buffers.Pairwise fun a b => a.2.text = [] ∨ b.2.text = []) (o : O) :
    Cuts obs envelope usageNull (LeftAll cutOf buffers) buffered (buffered buffers)
      (emitBuffers obs envelope usageNull cutOf o buffers) := by
  induction buffers generalizing o with
  | nil => exact .none obs o .nil
  | cons head rest ih =>
    obtain ⟨slot, p⟩ := head
    obtain ⟨hhead, hrest⟩ := pairwise_cons.1 hone
    have hpending := (emitPending_cuts obs envelope usageNull (hcount _ mem_cons_self) slot
      (cutOf slot) o).frame obs [] (buffered rest) (.inl rfl)
    refine hpending.andThen obs fun o p' hleft => ?_
    -- This buffer is empty or the others are, so the order between them does not matter.
    have hor : atoms slot p'.text = [] ∨ buffered rest = [] := by
      by_cases h : p.text = []
      · exact .inl (by simp [atoms, hleft.empty h])
      · exact .inr (buffered_eq_nil.2 fun entry he => (hhead entry he).resolve_left h)
    have hrestCount := fun entry he => hcount entry (mem_cons_of_mem (slot, p) he)
    have hothers := (ih hrestCount hrest o).frame obs (atoms slot p'.text) [] hor
    simp only [append_nil] at hothers
    exact hothers.andThen obs fun o rest' hleft' =>
      .done ((slot, p') :: rest') [] rfl rfl (.cons ⟨rfl, hleft⟩ hleft') rfl

/-! ## What a step does -/

/-- The invariant of the stage: its buffers are sound, and a stopped stage holds no text. -/
structure Fit (r : Rechunker O) : Prop where
  sound : Sound r.buffers r.last
  dropped : r.stopped.isSome → r.buffers = [] ∧ r.last = none

/-- Effects of a stage that was not stopped: every slice shown is let out and written, and no event
is written with its text. -/
structure Accepted (es : List Effect) : Prop where
  letOut : showings es = (slices es).map fun s => (s, .proceed)
  stripped : ∀ event, .wrote (.structural event) ∈ es → Stripped event

theorem Accepted.append {es fs : List Effect} (h : Accepted es) (hf : Accepted fs) :
    Accepted (es ++ fs) where
  letOut := by simp [h.letOut, hf.letOut]
  stripped event he := (mem_append.1 he).elim (h.stripped event) (hf.stripped event)

theorem accepted_sliced (ss : List DeltaSlice) : Accepted (sliced envelope usageNull ss) where
  letOut := by simp
  stripped event he := by simp [sliced] at he

theorem mem_of_mem_showings {es : List Effect} {s : DeltaSlice} {verdict : Verdict}
    (h : (s, verdict) ∈ showings es) : .shown s verdict ∈ es := by
  obtain ⟨effect, he, hshown⟩ := mem_filterMap.1 h
  cases effect <;> simp_all [showing?]

theorem Accepted.not_terminate {es : List Effect} (h : Accepted es) {s : DeltaSlice}
    {reason : StreamStop} : .shown s (.terminate reason) ∉ es := by
  intro hmem
  have hshown : (s, Verdict.terminate reason) ∈ showings es :=
    mem_filterMap.2 ⟨_, hmem, rfl⟩
  rw [h.letOut] at hshown
  simp at hshown

/-- What any step does, between the stage before and after it. -/
inductive Orderly (r : Rechunker O) (es : List Effect) (r' : Rechunker O) : Prop
  /-- A stopped stage does nothing. -/
  | silent (before : r.stopped.isSome) (effects : es = []) (after : r'.stopped = r.stopped)
  /-- The text written and the text still buffered are the text there was and was taken. -/
  | going (before : r.stopped = none) (after : r'.stopped = none) (accepted : Accepted es)
      (books : sliceText es ++ buffered r'.buffers = buffered r.buffers ++ taken es)
      (told : endings es + r.ended.toNat = r'.ended.toNat)
  /-- After a refused slice there is only the error event; the slice and what follows it of the
  text are not written. -/
  | refused (pre : List Effect) (s : DeltaSlice) (reason : StreamStop) (rest : List (Slot × Char))
      (before : r.stopped = none) (after : r'.stopped = some reason)
      (effects : es = pre ++ [.shown s (.terminate reason), .wrote (.error reason)])
      (accepted : Accepted pre)
      (books : sliceText pre ++ (s.atoms ++ rest) = buffered r.buffers ++ taken pre)
      (told : endings pre + r.ended.toNat ≤ 1)
      (verdict : ∃ o, (obs.onSlice o s).1 = .terminate reason)

/-- A step that keeps the stage fit and is orderly. -/
def Keeps (r : Rechunker O) (x : Rechunker O × List Effect) : Prop :=
  Fit r → Fit x.1 ∧ Orderly obs r x.2 x.1

variable {r r' : Rechunker O}

def core (r : Rechunker O) : Buffers × Option Slot × Option StreamStop × Bool :=
  (r.buffers, r.last, r.stopped, r.ended)

theorem orderly_nil (hcore : core r' = core r) : Orderly obs r [] r' := by
  simp only [core, Prod.mk.injEq] at hcore
  obtain ⟨hbuf, -, hstop, hended⟩ := hcore
  cases h : r.stopped with
  | none =>
    exact .going h (hstop.trans h) ⟨rfl, by simp⟩ (by rw [hbuf]; simp [sliceText, slices, taken])
      (by rw [hended]; simp [endings])
  | some reason => exact .silent (by rw [h]; rfl) rfl hstop

theorem concat_books {a b c p q s t : List (Slot × Char)} (h1 : s ++ b = a ++ p)
    (h2 : t ++ c = b ++ q) : (s ++ t) ++ c = a ++ (p ++ q) := by
  rw [append_assoc, h2, ← append_assoc, h1, append_assoc]

theorem composable_keeps : Act.Composable (Keeps obs) where
  nothing r h := ⟨h, orderly_nil obs rfl⟩
  concat := by
    rintro r ⟨r1, es⟩ ⟨r2, fs⟩ h1 h2 hfit
    obtain ⟨hfit1, ho1⟩ := h1 hfit
    obtain ⟨hfit2, ho2⟩ := h2 hfit1
    refine ⟨hfit2, ?_⟩
    dsimp only at ho1 ho2 ⊢
    rcases ho1 with ⟨hb1, rfl, ha1⟩ | ⟨hb1, ha1, hacc1, hbooks1, htold1⟩ |
      ⟨pre, s, reason, rest, hb1, ha1, rfl, hacc1, hbooks1, htold1, hv⟩
    · rcases ho2 with ⟨-, rfl, ha2⟩ | ⟨hb2, -⟩ | ⟨_, _, _, _, hb2, -⟩
      · exact .silent hb1 rfl (ha2.trans ha1)
      all_goals
        rw [← ha1, hb2] at hb1
        cases hb1
    · rcases ho2 with ⟨hb2, -⟩ | ⟨-, ha2, hacc2, hbooks2, htold2⟩ |
        ⟨pre, s, reason, rest, -, ha2, rfl, hacc2, hbooks2, htold2, hv⟩
      · rw [ha1] at hb2
        cases hb2
      · refine .going hb1 ha2 (hacc1.append hacc2) ?_ (by rw [endings_append]; omega)
        rw [sliceText_append, taken_append]
        exact concat_books hbooks1 hbooks2
      · refine .refused (es ++ pre) s reason rest hb1 ha2 (by simp) (hacc1.append hacc2) ?_
          (by rw [endings_append]; omega) hv
        rw [sliceText_append, taken_append]
        exact concat_books hbooks1 hbooks2
    · rcases ho2 with ⟨-, rfl, ha2⟩ | ⟨hb2, -⟩ | ⟨_, _, _, _, hb2, -⟩
      · exact .refused pre s reason rest hb1 (ha2.trans ha1) (by simp) hacc1 hbooks1 htold1 hv
      all_goals
        rw [ha1] at hb2
        cases hb2

/-! ## The stage's own steps -/

theorem Sound.pairwise (h : Sound buffers last) :
    buffers.Pairwise fun a b => a.2.text = [] ∨ b.2.text = [] := by
  refine h.sorted.imp_of_mem fun {a b} ha hb hlt => ?_
  by_contra hne
  obtain ⟨h1, h2⟩ := not_or.1 hne
  have heq : a.1 = b.1 := some.inj ((h.single a ha h1).symm.trans (h.single b hb h2))
  rw [heq] at hlt
  exact absurd hlt (lt_irrefl _)

section

variable {cutOf} {buffers' : Buffers} (h : LeftAll cutOf buffers buffers')

include h

theorem LeftAll.mem {entry' : Slot × Pending} (he : entry' ∈ buffers') :
    ∃ entry ∈ buffers, entry'.1 = entry.1 ∧ Left entry.2 (cutOf entry.1).least
      ((cutOf entry.1).keep < (cutOf entry.1).least ∧ (cutOf entry.1).gate ≤ (cutOf entry.1).least)
      entry'.2 := by
  induction h with
  | nil => simp at he
  | @cons a b _ _ hhead _ ih =>
    rcases mem_cons.1 he with rfl | he
    · exact ⟨a, mem_cons_self, hhead⟩
    · obtain ⟨entry, hentry, hrest⟩ := ih he
      exact ⟨entry, mem_cons_of_mem _ hentry, hrest⟩

theorem LeftAll.sound (hs : Sound buffers last) : Sound buffers' last := by
  have hslots : buffers'.map (·.1.rank) = buffers.map (·.1.rank) := by
    clear hs
    induction h with
    | nil => rfl
    | cons hhead _ ih => simp only [map_cons, hhead.1, ih]
  refine ⟨fun entry' he => ?_, ?_, fun entry' he hne => ?_⟩
  · obtain ⟨_, -, -, hleft⟩ := h.mem he
    exact hleft.counted
  · have hsorted := pairwise_map.2 hs.sorted
    rw [← hslots] at hsorted
    exact pairwise_map.1 hsorted
  · obtain ⟨entry, hentry, hslot, hleft⟩ := h.mem he
    rw [hslot]
    exact hs.single entry hentry fun h => hne (hleft.empty h)

end

/-- A pass over the buffers leaves sound buffers, or stops the stage. -/
theorem emit_cases (hfit : Fit r) : (∃ o buffers ss, emit obs cutOf r
        = ({ r with observer := o, buffers := buffers }, sliced r.envelope r.usageNull ss) ∧
      LeftAll cutOf r.buffers buffers ∧
      ss.flatMap DeltaSlice.atoms ++ buffered buffers = buffered r.buffers) ∨
    ∃ o ss s reason rest, emit obs cutOf r
        = ({ r with observer := o, buffers := [], last := none, stopped := some reason },
          sliced r.envelope r.usageNull ss
            ++ [.shown s (.terminate reason), .wrote (.error reason)]) ∧
      ss.flatMap DeltaSlice.atoms ++ (s.atoms ++ rest) = buffered r.buffers ∧
      ∃ o, (obs.onSlice o s).1 = .terminate reason := by
  rcases emitBuffers_cuts obs r.envelope r.usageNull cutOf hfit.sound.counted hfit.sound.pairwise
    r.observer with ⟨buffers, ss, hres, heff, hleft, hbooks⟩ |
      ⟨ss, s, reason, rest, hres, heff, hbooks, hverdict⟩
  · exact .inl ⟨_, buffers, ss, by simp only [emit, hres, heff]; rfl, hleft, hbooks⟩
  · refine .inr ⟨(emitBuffers obs r.envelope r.usageNull cutOf r.observer r.buffers).observer,
      ss, s, reason, rest, ?_, hbooks, hverdict⟩
    simp [emit, hres, heff, stop]

theorem obeys_emit : Act.Obeys (Keeps obs) (emit obs cutOf) := by
  intro r hfit
  cases hr : r.stopped with
  | some reason =>
    obtain ⟨hbuf, hlast⟩ := hfit.dropped (by rw [hr]; rfl)
    have he : emit obs cutOf r = (r, []) := by
      obtain ⟨⟩ := r
      subst hbuf
      rfl
    rw [he]
    exact ⟨hfit, orderly_nil obs rfl⟩
  | none =>
    rcases emit_cases obs cutOf hfit with
      ⟨o, buffers, ss, he, hleft, hbooks⟩ | ⟨o, ss, s, reason, rest, he, hbooks, hverdict⟩
    · rw [he]
      refine ⟨⟨hleft.sound hfit.sound, fun h => absurd h (by simp [hr])⟩, ?_⟩
      exact .going hr hr (accepted_sliced _ _ ss) (by simpa using hbooks) (by simp)
    · rw [he]
      refine ⟨⟨⟨by simp, .nil, by simp⟩, fun _ => ⟨rfl, rfl⟩⟩, ?_⟩
      exact .refused _ s reason rest hr rfl rfl (accepted_sliced _ _ ss) (by simpa using hbooks)
        (by cases r.ended <;> simp) hverdict

theorem buffered_flush (hfit : Fit r) (h : (flush obs r).1.stopped = none) :
    buffered (flush obs r).1.buffers = [] := by
  cases hr : r.stopped with
  | some reason =>
    obtain ⟨hbuf, -⟩ := hfit.dropped (by rw [hr]; rfl)
    simp [flush, emit, hbuf, emitBuffers, buffered]
  | none =>
    rcases emit_cases obs (fromCut 1 0) hfit with ⟨o, buffers, ss, he, hleft, -⟩ |
      ⟨o, ss, s, reason, rest, he, -⟩
    · rw [flush, he]
      refine buffered_eq_nil.2 fun entry hentry => ?_
      obtain ⟨before, -, -, hleft⟩ := hleft.mem hentry
      have hlt := hleft.drained (by cases before.1 <;> simp [fromCut])
      have hleast : (fromCut 1 0 before.1).least = 1 := by cases before.1 <;> rfl
      rw [hleft.counted] at hlt
      exact length_eq_zero_iff.1 (by omega)
    · rw [flush, he] at h
      cases h

theorem keeps_append {text : Text}
    (hone : ∀ entry ∈ r.buffers, entry.2.text ≠ [] → entry.1 = slot) :
    Keeps obs r (append slot text r) := by
  intro hfit
  cases hr : r.stopped with
  | some reason =>
    simp only [append, hr, isSome_some]
    exact ⟨hfit, orderly_nil obs rfl⟩
  | none =>
    simp only [append, hr, isSome_none, Bool.false_eq_true, if_false]
    refine ⟨⟨hfit.sound.push hone, fun h => absurd h (by simp)⟩, ?_⟩
    refine .going hr rfl ⟨rfl, by simp⟩ ?_ (by simp [endings, isEnded])
    rw [show taken [took slot text] = atoms slot text from append_nil _]
    exact buffered_push hfit.sound.sorted hone

theorem obeys_push (slot : Slot) (text : Text) : Act.Obeys (Keeps obs) (push obs slot text) := by
  intro r hfit
  by_cases hlast : (r.last.any fun last => last ≠ slot) = true
  · rw [push, if_pos hlast]
    have hfit1 : Fit (flush obs r).1 := (obeys_emit obs (fromCut 1 0) r hfit).1
    refine (composable_keeps obs).concat (obeys_emit obs (fromCut 1 0) r) (keeps_append obs ?_) hfit
    cases hr : (flush obs r).1.stopped with
    | some reason =>
      rw [(hfit1.dropped (by rw [hr]; rfl)).1]
      simp
    | none =>
      intro entry he hne
      exact absurd (buffered_eq_nil.1 (buffered_flush obs hfit hr) entry he) hne
  · rw [push, if_neg hlast]
    refine keeps_append obs (fun entry he hne => ?_) hfit
    rw [hfit.sound.single entry he hne] at hlast
    simpa using hlast

theorem obeys_write {piece : Piece} (hplain : slices [.wrote piece] = [])
    (hacc : Accepted [.wrote piece]) : Act.Obeys (Keeps obs) (write piece) := by
  intro r hfit
  refine ⟨hfit, ?_⟩
  cases hr : r.stopped with
  | some reason => simpa [write, hr] using orderly_nil obs rfl
  | none =>
    rw [write, if_pos (by rw [hr]; rfl)]
    exact .going hr hr hacc (by simp [sliceText, hplain, taken, Effect.taken])
      (by simp [endings, isEnded])

theorem accepted_forwarded (bytes : Bytes) : Accepted [.wrote (.forwarded bytes)] :=
  ⟨rfl, by simp⟩

theorem obeys_forward (frame : Bytes) : Act.Obeys (Keeps obs) (forward obs frame) :=
  (obeys_emit obs _).seq (composable_keeps obs) (obeys_write obs rfl (accepted_forwarded frame))

theorem obeys_pushText (shape : Shape) : Act.Obeys (Keeps obs) (pushText obs shape) :=
  Act.Obeys.each (composable_keeps obs) fun text _ => obeys_push obs text.1 text.2

theorem obeys_writeAround (s : Structural) : Act.Obeys (Keeps obs) (writeAround obs s) := by
  have hc := composable_keeps obs
  have hflush : Act.Obeys (Keeps obs) (flush obs) := obeys_emit obs _
  have hdrain : Act.Obeys (Keeps obs) (drainReady obs) := obeys_emit obs _
  have hpush := obeys_pushText obs s.shape
  have hwrite (variant : Variant) :
      Act.Obeys (Keeps obs) (write (.structural (writeEvent s variant))) :=
    obeys_write obs rfl ⟨rfl, by simpa using stripped_writeEvent s variant⟩
  rw [writeAround]
  cases s.shape.opens <;> cases s.shape.closes
  · exact hpush.seq hc hdrain
  · exact hpush.seq hc (hflush.seq hc (hwrite _))
  · exact hflush.seq hc ((hwrite _).seq hc (hpush.seq hc hdrain))
  · exact hflush.seq hc ((hwrite _).seq hc (hpush.seq hc (hflush.seq hc (hwrite _))))

theorem keeps_same (hcore : core r' = core r) : Keeps obs r (r', []) := by
  intro hfit
  have horderly := orderly_nil obs hcore
  simp only [core, Prod.mk.injEq] at hcore
  obtain ⟨hbuf, hlast, hstop, -⟩ := hcore
  refine ⟨⟨?_, ?_⟩, horderly⟩
  · rw [hbuf, hlast]
    exact hfit.sound
  · rw [hbuf, hlast, hstop]
    exact hfit.dropped

theorem Keeps.from {x : Rechunker O × List Effect} (h : Keeps obs r' x)
    (hcore : core r' = core r) : Keeps obs r x :=
  (composable_keeps obs).concat (keeps_same obs hcore) h

theorem Keeps.after {x : Rechunker O × List Effect} (h : Keeps obs r x)
    (hcore : core r' = core x.1) : Keeps obs r (r', x.2) := by
  have := (composable_keeps obs).concat h (keeps_same obs hcore)
  rwa [append_nil] at this

theorem keeps_wrote (bytes : Bytes) (hr : r.stopped = none) :
    Keeps obs r (r, [.wrote (.forwarded bytes)]) := by
  have hwrite := obeys_write obs rfl (accepted_forwarded bytes) r
  rwa [write, if_pos (by rw [hr]; rfl)] at hwrite

theorem obeys_setPassthrough : Act.Obeys (Keeps obs) (setPassthrough : Act (Rechunker O) Effect) :=
  fun _ => keeps_same obs rfl

variable (serde : Serde)

theorem obeys_handleEvent (event : RawObject) (frame : Bytes) :
    Act.Obeys (Keeps obs) (handleEvent serde obs event frame) := by
  have hc := composable_keeps obs
  intro r
  rw [handleEvent]
  split
  · exact (obeys_forward obs frame).seq hc (obeys_setPassthrough obs) r
  · split
    · exact (obeys_forward obs frame _).from obs rfl
    · refine (obeys_writeAround obs _ _).from obs ?_
      split <;> rfl

/-- A comment goes out without asking whether the stage is stopped, so a frame is handled in order
only by a stage that is not. -/
theorem keeps_handleFrame (frame : Bytes) (hr : r.stopped = none) :
    Keeps obs r (handleFrame serde obs frame r) := by
  have hforward := obeys_forward obs frame
  unfold handleFrame
  split
  · exact keeps_wrote obs frame hr
  · exact hforward r
  · split
    · exact hforward.seq (composable_keeps obs) (obeys_setPassthrough obs) r
    · split
      · exact obeys_handleEvent obs serde _ frame r
      · exact hforward r

theorem keeps_consumeFrom (fuel : Nat) (input : Bytes) (start : Nat) (hr : r.stopped = none) :
    Keeps obs r (consumeFrom serde obs fuel input start r).1 := by
  have hc := composable_keeps obs
  induction fuel generalizing input start r with
  | zero => exact hc.nothing r
  | succ fuel ih =>
    rw [consumeFrom]
    split
    · exact hc.nothing r
    · rename_i position length _
      have hhandle := keeps_handleFrame obs serde (input.take (position + length)) hr
      dsimp only
      split
      · exact hhandle
      · rename_i hgoing
        have hnone := not_isSome_iff_eq_none.1 hgoing
        split
        · exact hc.concat hhandle (keeps_wrote obs _ hnone)
        · exact hc.concat hhandle (ih _ 0 hnone)

theorem obeys_giveUp : Act.Obeys (Keeps obs) (giveUp obs) := by
  refine (obeys_emit obs _).seq (composable_keeps obs) fun r => ?_
  split
  · rename_i hr
    exact (keeps_wrote obs _ (isNone_iff_eq_none.1 hr)).after obs rfl
  · exact (composable_keeps obs).nothing r

theorem obeys_checkPartial : Act.Obeys (Keeps obs) (checkPartial obs) := by
  intro r
  rw [checkPartial]
  split
  · exact obeys_giveUp obs r
  · exact (composable_keeps obs).nothing r

theorem keeps_feedFrames (chunk : Bytes) (hr : r.stopped = none) :
    Keeps obs r (feedFrames serde obs chunk r) := by
  have hconsume : Keeps obs r (consume serde obs (r.partialFrame ++ chunk)
      (if r.partialFrame.isEmpty then 0 else r.scanned) { r with partialFrame := [] }).1 :=
    Keeps.from obs (keeps_consumeFrom obs serde _ _ _ hr) rfl
  exact hconsume.after obs rfl

theorem obeys_feed (chunk : Bytes) : Act.Obeys (Keeps obs) (feed serde obs chunk) := by
  have hc := composable_keeps obs
  intro r
  rw [feed]
  split
  · exact hc.nothing r
  · rename_i hgoing
    have hr := not_isSome_iff_eq_none.1 hgoing
    split
    · exact keeps_wrote obs chunk hr
    · exact hc.concat (keeps_feedFrames obs serde chunk hr)
        ((obeys_checkPartial obs).seq hc (g := setScanned) (fun _ => keeps_same obs rfl) _)

theorem obeys_finish : Act.Obeys (Keeps obs) (finish obs) := by
  refine (obeys_emit obs _).seq (composable_keeps obs) fun r => ?_
  split
  · rename_i hr
    have hr := isNone_iff_eq_none.1 hr
    intro hfit
    refine ⟨⟨hfit.sound, hfit.dropped⟩, .going hr hr ?_ ?_ ?_⟩
    · cases r.ended <;> exact ⟨rfl, by simp⟩
    · cases r.ended <;> simp [sliceText, slices, Effect.slice?, taken, Effect.taken]
    · cases r.ended <;> simp [endings, isEnded]
  · exact keeps_same obs rfl

theorem obeys_act (call : Call) : Act.Obeys (Keeps obs) (call.act serde obs) := by
  cases call with
  | feed chunk => exact obeys_feed obs serde chunk
  | flushPending => exact obeys_emit obs _
  | finish => exact obeys_finish obs

theorem obeys_calling (calls : List Call) : Act.Obeys (Keeps obs) (calling serde obs calls) :=
  Act.Obeys.each (composable_keeps obs) fun call _ => obeys_act obs serde call

/-! ## What the observer may rely on -/

theorem fit_withObserver (o : O) : Fit (withObserver obs o) :=
  ⟨⟨by simp [withObserver], .nil, by simp [withObserver]⟩, by simp [withObserver]⟩

/-- **A veto is final and sees everything.**  Over any calls, the slices shown are the slices of
the synthesized events written, in order, and perhaps one refused at the end, and the observer is
told of the end once at most.  If a call refuses a slice, the bytes it returns end with the error
event; of the text taken from the body, only what came before the slice is in events written so
far, and no other event it writes carries its text; later calls do nothing at all. -/
theorem veto_final (o : O) (calls : List Call) :
    (∃ refused : Option (DeltaSlice × StreamStop),
      showings (calling serde obs calls (withObserver obs o)).2
        = (slices (calling serde obs calls (withObserver obs o)).2).map (fun s => (s, .proceed))
          ++ refused.toList.map fun x => (x.1, .terminate x.2)) ∧
    endings (calling serde obs calls (withObserver obs o)).2 ≤ 1 ∧
    ∀ earlier call later, calls = earlier ++ call :: later →
      ∀ before now, before = calling serde obs earlier (withObserver obs o) →
        now = call.act serde obs before.1 →
        ∀ s reason, .shown s (.terminate reason) ∈ now.2 →
          (∃ written, now.2 = written ++ [.shown s (.terminate reason), .wrote (.error reason)] ∧
            returned now.2 = returned written ++ (Piece.error reason).render ∧
            (∀ event, .wrote (.structural event) ∈ written → Stripped event) ∧
            ∃ dropped, sliceText (before.2 ++ written) ++ (s.atoms ++ dropped)
              = taken (before.2 ++ written)) ∧
          (calling serde obs later now.1).2 = [] := by
  have hfit := fit_withObserver obs o
  obtain ⟨-, hall⟩ := obeys_calling obs serde calls _ hfit
  refine ⟨?_, ?_, ?_⟩
  · rcases hall with ⟨hb, -⟩ | ⟨-, -, hacc, -⟩ | ⟨pre, s, reason, -, -, -, heff, hacc, -⟩
    · exact absurd hb (by simp [withObserver])
    · exact ⟨none, by simpa using hacc.letOut⟩
    · refine ⟨some (s, reason), ?_⟩
      rw [heff, showings_append, slices_append, hacc.letOut]
      simp [slices, showings, filterMap, slice?, showing?]
  · rcases hall with ⟨hb, -⟩ | ⟨-, -, -, -, htold⟩ | ⟨pre, s, reason, -, -, -, heff, -, -, htold, -⟩
    · exact absurd hb (by simp [withObserver])
    · have := Bool.toNat_le (calling serde obs calls (withObserver obs o)).1.ended
      omega
    · rw [heff]
      simpa [endings, isEnded, withObserver] using htold
  · rintro earlier call later - before now rfl rfl s reason hshown
    obtain ⟨hfit1, hbefore⟩ := obeys_calling obs serde earlier _ hfit
    obtain ⟨hfit2, hnow⟩ := obeys_act obs serde call _ hfit1
    rcases hnow with ⟨-, heff, -⟩ | ⟨-, -, hacc, -⟩ |
      ⟨written, s', reason', dropped, hb, ha, heff, hacc, hbooks, -⟩
    · rw [heff] at hshown
      simp at hshown
    · exact absurd hshown hacc.not_terminate
    · obtain ⟨rfl, rfl⟩ : s = s' ∧ reason = reason' := by
        rw [heff] at hshown
        rcases mem_append.1 hshown with h | h
        · exact absurd h hacc.not_terminate
        · simpa using h
      have hreturned : returned (written ++ [.shown s (.terminate reason), .wrote (.error reason)])
          = returned written ++ (Piece.error reason).render := by
        simp [returned, filterMap, piece?]
      refine ⟨⟨written, heff, heff ▸ hreturned, hacc.stripped, dropped, ?_⟩, ?_⟩
      · -- The stage was not stopped before the call, so its books were open.
        rcases hbefore with ⟨hb', -⟩ | ⟨-, -, -, hbooks0, -⟩ | ⟨_, _, _, _, -, ha', -⟩
        · exact absurd hb' (by simp [withObserver])
        · rw [sliceText_append, taken_append]
          exact concat_books hbooks0 hbooks
        · rw [ha'] at hb
          cases hb
      · rcases (obeys_calling obs serde later _ hfit2).2 with ⟨-, heff, -⟩ | ⟨hb', -⟩ |
          ⟨_, _, _, _, hb', -⟩
        · exact heff
        all_goals
          rw [ha] at hb'
          cases hb'

end Stage

/-! A stream with one short text: it is held until the end, where an observer that refuses
everything stops it. -/

def helloDelta : String := "\x7b\"content\":\"hello\"\x7d"
def helloChoice : String := "\x7b\"index\":0,\"delta\":" ++ helloDelta ++ "\x7d"
def helloEvent : String := "\x7b\"choices\":[" ++ helloChoice ++ "]\x7d"

def helloSerde : Serde := .ofTable
  [(helloEvent, [("choices", "[" ++ helloChoice ++ "]")]),
    (helloChoice, [("index", "0"), ("delta", helloDelta)]),
    (helloDelta, [("content", "\"hello\"")])]
  [("[" ++ helloChoice ++ "]", [helloChoice])] [("\"hello\"", "hello")]

def refusing : DeltaObserver Unit where
  open_ o := o
  onSlice o _ := (.terminate ⟨"refused".toList, "policy".toList⟩, o)
  end_ o := o

def helloCall : Call := .feed (ascii ("data: " ++ helloEvent ++ "\n\n"))

def refusedEnd : Rechunker Unit × List Effect :=
  Call.finish.act helloSerde refusing
    (calling helloSerde refusing [helloCall] (withObserver refusing ())).1

theorem veto_final_hello :
    showings refusedEnd.2
        = [(⟨.field .content, "hello".toList⟩, .terminate ⟨"refused".toList, "policy".toList⟩)] ∧
      (calling helloSerde refusing [.finish] refusedEnd.1).2 = [] := by
  have hshown : showings refusedEnd.2 = [(⟨.field .content, "hello".toList⟩,
      .terminate ⟨"refused".toList, "policy".toList⟩)] := by decide +kernel
  obtain ⟨-, -, hveto⟩ := veto_final refusing helloSerde () [helloCall, .finish, .finish]
  have hmem := mem_of_mem_showings (hshown ▸ mem_singleton_self _)
  exact ⟨hshown, (hveto [helloCall] .finish [.finish] rfl _ refusedEnd rfl rfl _ _ hmem).2⟩

end Smg.Sse
