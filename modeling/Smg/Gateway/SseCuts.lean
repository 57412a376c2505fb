import Smg.Gateway.SseVeto

/-!
# A body may be cut anywhere

`SseRechunker::feed` takes the body as it arrives, so a delimiter, a character or the frame that
ends the re-slicing may be spread over several calls.  What a body does as a whole is `absorb`,
which handles its frames one after another; cut in two it is absorbed in two (`absorb_append`),
because the first delimiter of what has arrived stays the first when more arrives.  A call of
`feed` absorbs its chunk behind the unfinished frame (`feed_holding`), although it looks for the
delimiter only from three bytes before the old end.  So the bytes returned depend on the body alone.
-/

set_option autoImplicit false

namespace Smg.Sse

open List

/-! ## Delimiters -/

variable {bs q : Bytes} {i p l : Nat}

theorem delimiter_bounds (h : delimiter bs = some l) : 2 ≤ l ∧ l ≤ bs.length := by
  unfold delimiter at h
  split at h <;> cases h <;> simp

theorem delimiter_append (h : delimiter bs = some l) : delimiter (bs ++ q) = some l := by
  unfold delimiter at h
  split at h <;> cases h <;> rfl

theorem delimiter_completed (hno : delimiter bs = none) (h : delimiter (bs ++ q) = some l) :
    bs.length < l ∧ l ≤ 4 ∧ findDelimiter i bs = none := by
  rcases bs with _ | ⟨a, _ | ⟨b, _ | ⟨c, _ | ⟨d, bs⟩⟩⟩⟩
  all_goals
    unfold delimiter at h
    split at h <;> cases h <;> simp_all [findDelimiter, delimiter]

theorem findDelimiter_bounds (h : findDelimiter i bs = some (p, l)) :
    i ≤ p ∧ 2 ≤ l ∧ p + l ≤ i + bs.length := by
  induction bs generalizing i with
  | nil => cases h
  | cons b bs ih =>
    rw [findDelimiter] at h
    split at h
    next hd =>
      cases h
      have := delimiter_bounds hd
      omega
    next hd =>
      have := ih h
      rw [length_cons]
      omega

/-- **The first delimiter stays the first.** -/
theorem findDelimiter_append (h : findDelimiter i bs = some (p, l)) :
    findDelimiter i (bs ++ q) = some (p, l) := by
  induction bs generalizing i with
  | nil => cases h
  | cons b bs ih =>
    rw [cons_append, findDelimiter, ← cons_append]
    cases hd : delimiter (b :: bs) with
    | some n =>
      rw [findDelimiter, hd] at h
      rw [delimiter_append hd]
      exact h
    | none =>
      cases hq : delimiter (b :: bs ++ q) with
      | some n => cases h.symm.trans (delimiter_completed hd hq).2.2
      | none =>
        rw [findDelimiter, hd] at h
        exact ih h

theorem findDelimiter_lt (hno : findDelimiter i bs = none)
    (h : findDelimiter i (bs ++ q) = some (p, l)) : i + bs.length < p + l := by
  induction bs generalizing i with
  | nil =>
    have := findDelimiter_bounds h
    rw [length_nil]
    omega
  | cons b bs ih =>
    rw [findDelimiter] at hno
    rw [cons_append, findDelimiter, ← cons_append] at h
    cases hd : delimiter (b :: bs) with
    | some n => simp [hd] at hno
    | none =>
      rw [hd] at hno
      cases hq : delimiter (b :: bs ++ q) with
      | some n =>
        have := (delimiter_completed (i := 0) hd hq).1
        rw [hq] at h
        cases h
        omega
      | none =>
        rw [hq] at h
        have := ih hno h
        rw [length_cons]
        omega

theorem findDelimiter_rescan (hno : findDelimiter i bs = none) :
    findDelimiter (i + (bs.length - 3)) ((bs ++ q).drop (bs.length - 3)) =
      findDelimiter i (bs ++ q) := by
  induction bs generalizing i with
  | nil => rfl
  | cons b bs ih =>
    rw [findDelimiter] at hno
    cases hd : delimiter (b :: bs) with
    | some n => simp [hd] at hno
    | none =>
      rw [hd] at hno
      rcases Nat.lt_or_ge bs.length 3 with hlt | hge
      · rw [Nat.sub_eq_zero_of_le (show (b :: bs).length ≤ 3 from hlt)]
        rfl
      · have hsub : (b :: bs).length - 3 = bs.length - 3 + 1 := Nat.succ_sub hge
        have hq : delimiter (b :: (bs ++ q)) = none := by
          by_contra hne
          obtain ⟨n, hn⟩ := Option.ne_none_iff_exists'.mp hne
          have := delimiter_completed (i := 0) (q := q) hd hn
          rw [length_cons] at this
          omega
        rw [hsub, cons_append, drop_succ_cons, findDelimiter, hq, ← ih hno]
        congr 1
        omega

theorem findFrameEnd_bounds (h : findFrameEnd bs 0 = some (p, l)) : 2 ≤ l ∧ p + l ≤ bs.length := by
  have hb := findDelimiter_bounds h
  rw [drop_zero, Nat.zero_add] at hb
  exact hb.2

/-! ## Bodies -/

/-- No frame of the body, nor what is left behind the last one, is too long. -/
inductive FramesFit : Bytes → Prop
  | tail {bytes : Bytes} (h : findFrameEnd bytes 0 = none) (hlen : bytes.length ≤ maxFrameBytes) :
    FramesFit bytes
  | frame {bytes : Bytes} {p l : Nat} (h : findFrameEnd bytes 0 = some (p, l))
    (hlen : p + l ≤ maxFrameBytes) (hrest : FramesFit (bytes.drop (p + l))) : FramesFit bytes

/-- A frame that has no end yet fits. -/
theorem FramesFit.length_le (h : FramesFit (bs ++ q)) (hno : findFrameEnd bs 0 = none) :
    bs.length ≤ maxFrameBytes := by
  cases h with
  | tail h hlen =>
    rw [length_append] at hlen
    omega
  | frame h hlen hrest =>
    have hlt : 0 + bs.length < _ := findDelimiter_lt hno h
    omega

theorem FramesFit.drop (h : FramesFit (bs ++ q)) (hend : findFrameEnd bs 0 = some (p, l)) :
    FramesFit (bs.drop (p + l) ++ q) := by
  have hend' : findFrameEnd (bs ++ q) 0 = some (p, l) := findDelimiter_append hend
  rw [← drop_append_of_le_length (findFrameEnd_bounds hend).2]
  cases h with
  | tail h hlen => cases h.symm.trans hend'
  | frame h hlen hrest =>
    cases h.symm.trans hend'
    exact hrest

/-- What a body leaves: the stage, the bytes returned, and the frame that has no end yet. -/
structure Absorbed (O : Type) where
  stage : Rechunker O
  out : Bytes
  rest : Bytes

section Body

variable {O : Type} (serde : Serde) (obs : DeltaObserver O)

def absorb (input : Bytes) (r : Rechunker O) : Absorbed O :=
  if r.stopped.isSome then ⟨r, [], []⟩
  else if r.passthrough then ⟨r, input, []⟩
  else match _hend : findFrameEnd input 0 with
    | none => ⟨r, [], input⟩
    | some (position, length) =>
      let handled := handleFrame serde obs (input.take (position + length)) r
      let others := absorb (input.drop (position + length)) handled.1
      { others with out := returned handled.2 ++ others.out }
termination_by input.length
decreasing_by
  have := findFrameEnd_bounds _hend
  rw [length_drop]
  omega

variable {serde obs} {r : Rechunker O} {input c : Bytes}

theorem absorb_stopped (h : r.stopped.isSome) : absorb serde obs input r = ⟨r, [], []⟩ := by
  rw [absorb, if_pos h]

theorem absorb_passthrough (hs : ¬r.stopped.isSome) (hp : r.passthrough) :
    absorb serde obs input r = ⟨r, input, []⟩ := by
  rw [absorb, if_neg hs, if_pos hp]

theorem absorb_none (hs : ¬r.stopped.isSome) (hp : ¬r.passthrough)
    (h : findFrameEnd input 0 = none) : absorb serde obs input r = ⟨r, [], input⟩ := by
  rw [absorb, if_neg hs, if_neg hp]
  split
  · rfl
  next h' => cases h.symm.trans h'

theorem absorb_some (hs : ¬r.stopped.isSome) (hp : ¬r.passthrough)
    (h : findFrameEnd input 0 = some (p, l)) :
    absorb serde obs input r =
      let handled := handleFrame serde obs (input.take (p + l)) r
      let others := absorb serde obs (input.drop (p + l)) handled.1
      { others with out := returned handled.2 ++ others.out } := by
  rw [absorb, if_neg hs, if_neg hp]
  split
  next h' => cases h.symm.trans h'
  next h' => cases h.symm.trans h'; rfl

variable (serde obs)

/-- What is left has no end. -/
theorem findFrameEnd_rest (input : Bytes) (r : Rechunker O) :
    findFrameEnd (absorb serde obs input r).rest 0 = none := by
  fun_induction absorb serde obs input r with
  | case1 | case2 => rfl
  | case3 r _ _ _ h => exact h
  | case4 _ _ _ _ _ _ _ _ _ ih => exact ih

variable {serde obs} in
theorem rest_eq_nil (h : (absorb serde obs input r).stage.stopped.isSome ∨
    (absorb serde obs input r).stage.passthrough) :
    (absorb serde obs input r).rest = [] := by
  fun_induction absorb serde obs input r with
  | case1 | case2 => rfl
  | case3 r _ hs hp _ => exact absurd h (by simp_all)
  | case4 _ _ _ _ _ _ _ _ _ ih => exact ih h

/-- **A body cut in two is absorbed in two.** -/
theorem absorb_append (input c : Bytes) (r : Rechunker O) :
    absorb serde obs (input ++ c) r =
      let x := absorb serde obs input r
      let y := absorb serde obs (x.rest ++ c) x.stage
      { y with out := x.out ++ y.out } := by
  fun_induction absorb serde obs input r with
  | case1 input r hs => simp [absorb_stopped hs]
  | case2 input r hs hp => simp [absorb_passthrough hs hp]
  | case3 input r hs hp h => rfl
  | case4 input r hs hp p l h handled others ih =>
    have hle := (findFrameEnd_bounds h).2
    have hend : findFrameEnd (input ++ c) 0 = some (p, l) := findDelimiter_append h
    rw [absorb_some hs hp hend, take_append_of_le_length hle, drop_append_of_le_length hle]
    dsimp only
    rw [ih]
    simp [handled, others]

variable {serde obs} in
theorem FramesFit.rest_le (h : FramesFit (input ++ c)) :
    (absorb serde obs input r).rest.length ≤ maxFrameBytes := by
  fun_induction absorb serde obs input r with
  | case1 | case2 => exact Nat.zero_le _
  | case3 r _ _ _ hend => exact h.length_le hend
  | case4 input r _ _ p l hend _ _ ih => exact ih (h.drop hend)

/-! ## The unfinished frame -/

def holding (rest : Bytes) (scanned : Nat) (r : Rechunker O) : Rechunker O :=
  { r with partialFrame := rest, scanned := scanned }

/-- A step neither reads nor writes the unfinished frame. -/
def Blind (f : Act (Rechunker O) Effect) : Prop :=
  ∀ rest scanned r, f (holding rest scanned r) = (holding rest scanned (f r).1, (f r).2)

theorem Blind.seq {f g : Act (Rechunker O) Effect} (hf : Blind f) (hg : Blind g) :
    Blind (f.seq g) := fun rest scanned r => by
  simp only [Act.seq, hf rest scanned r, hg rest scanned (f r).1]

theorem Blind.each {α : Type} {f : α → Act (Rechunker O) Effect} (hf : ∀ a, Blind (f a))
    (as : List α) : Blind (Act.each f as) := by
  induction as with
  | nil => exact fun _ _ _ => rfl
  | cons a as ih => exact (hf a).seq ih

theorem blind_emit (cutOf : Slot → Cut) : Blind (emit obs cutOf) := by
  intro rest scanned r
  simp only [emit, holding]
  split <;> rfl

theorem blind_write (piece : Piece) : Blind (write piece : Act (Rechunker O) Effect) :=
  fun _ _ _ => rfl

theorem blind_push (text : Slot × Text) : Blind (push obs text.1 text.2) := by
  have happend : Blind (append text.1 text.2 : Act (Rechunker O) Effect) := by
    intro rest scanned r
    by_cases h : r.stopped.isSome <;> simp [append, holding, h]
  intro rest scanned r
  by_cases h : r.last.any fun last => last ≠ text.1
  · simp only [push, if_pos h, if_pos (show (holding rest scanned r).last.any _ from h)]
    exact (blind_emit obs _).seq happend rest scanned r
  · simp only [push, if_neg h, if_neg (show ¬(holding rest scanned r).last.any _ from h)]
    exact happend rest scanned r

theorem blind_writeAround (s : Structural) : Blind (writeAround obs s) := by
  have hemit := blind_emit obs
  have hpush : Blind (pushText obs s.shape) := .each (blind_push obs) _
  unfold writeAround
  split
  · exact (hemit _).seq ((blind_write _).seq (hpush.seq ((hemit _).seq (blind_write _))))
  · exact (hemit _).seq ((blind_write _).seq (hpush.seq (hemit _)))
  · exact hpush.seq ((hemit _).seq (blind_write _))
  · exact hpush.seq (hemit _)

theorem blind_handleFrame (frame : Bytes) : Blind (handleFrame serde obs frame) := by
  have hforward : Blind (forward obs frame) := (blind_emit obs _).seq (blind_write _)
  have hpass : Blind ((forward obs frame).seq setPassthrough) := hforward.seq fun _ _ _ => rfl
  intro rest scanned r
  unfold handleFrame
  split
  · rfl
  · exact hforward _ _ r
  · split
    · exact hpass _ _ r
    · split
      next event _ =>
        unfold handleEvent
        dsimp only
        split
        · exact hpass _ _ r
        · split
          · exact hforward _ _ { r with roleSent := _ }
          · split
            · exact blind_writeAround obs _ _ _ (updateEnvelope event { r with roleSent := _ })
            · exact blind_writeAround obs _ _ _ { r with roleSent := _ }
      · exact hforward _ _ r

/-- `consume` absorbs what it is given. -/
theorem consumeFrom_holding {fuel start : Nat} (hlen : input.length ≤ fuel)
    (hstart : findFrameEnd input start = findFrameEnd input 0) (hs : ¬r.stopped.isSome)
    (hp : ¬r.passthrough) (rest : Bytes) (scanned : Nat) :
    ∃ es, consumeFrom serde obs fuel input start (holding rest scanned r) =
        ((holding rest scanned (absorb serde obs input r).stage, es),
          (absorb serde obs input r).rest) ∧
      returned es = (absorb serde obs input r).out := by
  induction fuel generalizing input start r with
  | zero =>
    obtain rfl := length_eq_zero_iff.mp (Nat.le_zero.mp hlen)
    rw [absorb_none hs hp rfl]
    exact ⟨[], rfl, rfl⟩
  | succ fuel ih =>
    rw [consumeFrom, hstart]
    cases hend : findFrameEnd input 0 with
    | none =>
      rw [absorb_none hs hp hend]
      exact ⟨[], rfl, rfl⟩
    | some x =>
      obtain ⟨p, l⟩ := x
      have hb := findFrameEnd_bounds hend
      rw [absorb_some hs hp hend]
      dsimp only
      rw [blind_handleFrame]
      generalize handleFrame serde obs (input.take (p + l)) r = handled
      by_cases hs' : handled.1.stopped.isSome
      · rw [absorb_stopped hs']
        exact ⟨handled.2, if_pos hs', by simp⟩
      by_cases hp' : handled.1.passthrough
      · rw [absorb_passthrough hs' hp']
        refine ⟨_, (if_neg hs').trans (if_pos hp'), ?_⟩
        simp [returned, Effect.piece?, Piece.render]
      · have hlen' : (input.drop (p + l)).length ≤ fuel := by
          rw [length_drop]
          omega
        obtain ⟨es, hes, hout⟩ := ih hlen' rfl hs' hp'
        refine ⟨handled.2 ++ es, ((if_neg hs').trans (if_neg hp')).trans (by rw [hes]), ?_⟩
        simp [returned, ← hout]

def Absorbed.held (x : Absorbed O) : Rechunker O := holding x.rest x.rest.length x.stage

/-- **A call absorbs its chunk behind the unfinished frame.** -/
theorem feed_held (hfit : (absorb serde obs (input ++ c) r).rest.length ≤ maxFrameBytes) :
    ∃ es, feed serde obs c (absorb serde obs input r).held =
        ((absorb serde obs (input ++ c) r).held, es) ∧
      (absorb serde obs input r).out ++ returned es = (absorb serde obs (input ++ c) r).out := by
  have hnone := findFrameEnd_rest serde obs input r
  have hnil := @rest_eq_nil O serde obs r input
  rw [absorb_append] at hfit ⊢
  generalize absorb serde obs input r = x at *
  dsimp only at hfit ⊢
  by_cases hs : x.stage.stopped.isSome
  · rw [absorb_stopped hs]
    refine ⟨[], (if_pos hs).trans ?_, rfl⟩
    rw [Absorbed.held, hnil (.inl hs)]
    rfl
  by_cases hp : x.stage.passthrough
  · rw [absorb_passthrough hs hp]
    refine ⟨_, ((if_neg hs).trans (if_pos hp)).trans (Prod.ext ?_ rfl), ?_⟩
    · rw [Absorbed.held, hnil (.inr hp)]
      rfl
    · simp [returned, Effect.piece?, Piece.render, hnil (.inr hp)]
  have hstart : findFrameEnd (x.rest ++ c) (x.rest.length - 3) = findFrameEnd (x.rest ++ c) 0 := by
    have hrescan := findDelimiter_rescan (q := c) hnone
    rwa [drop_zero, Nat.zero_add] at hrescan
  obtain ⟨es, hes, hout⟩ := consumeFrom_holding serde obs le_rfl hstart hs hp [] x.rest.length
  refine ⟨es, ((if_neg hs).trans (if_neg hp)).trans ?_, by rw [hout]⟩
  have hsearched : (if x.held.partialFrame.isEmpty then 0 else x.held.scanned) = x.rest.length := by
    show (if x.rest.isEmpty then 0 else x.rest.length) = x.rest.length
    cases x.rest <;> rfl
  have hframes : feedFrames serde obs c x.held =
      (holding (absorb serde obs (x.rest ++ c) x.stage).rest x.rest.length
        (absorb serde obs (x.rest ++ c) x.stage).stage, es) := by
    simp only [feedFrames]
    rw [hsearched]
    exact congrArg (fun y : (Rechunker O × List Effect) × Bytes =>
      ({ y.1.1 with partialFrame := y.2 }, y.1.2)) hes
  rw [Act.seq, hframes]
  simp [Act.seq, checkPartial, holding, Nat.not_lt.mpr hfit, setScanned, Absorbed.held]

theorem calling_concat (calls : List Call) (call : Call) (r : Rechunker O) :
    calling serde obs (calls ++ [call]) r =
      let before := calling serde obs calls r
      ((call.act serde obs before.1).1, before.2 ++ (call.act serde obs before.1).2) := by
  simp [calling, Act.each_append, Act.each, Act.seq, Act.skip]

theorem feeds_held (o : O) {chunks : List Bytes} (hfit : FramesFit (chunks.flatten ++ q)) :
    ∃ es, calling serde obs (chunks.map .feed) (withObserver obs o) =
        ((absorb serde obs chunks.flatten (withObserver obs o)).held, es) ∧
      returned es = (absorb serde obs chunks.flatten (withObserver obs o)).out := by
  induction chunks using reverseRecOn generalizing q with
  | nil =>
    rw [flatten_nil, absorb_none (by simp [withObserver]) (by simp [withObserver]) rfl]
    exact ⟨[], rfl, rfl⟩
  | append_singleton chunks c ih =>
    rw [flatten_concat, append_assoc] at hfit
    obtain ⟨es, hes, hout⟩ := ih hfit
    rw [← append_assoc] at hfit
    obtain ⟨fs, hfs, hfout⟩ := feed_held serde obs (r := withObserver obs o) hfit.rest_le
    refine ⟨es ++ fs, ?_, ?_⟩
    · rw [map_append, map_singleton, calling_concat, hes, flatten_concat]
      simp only [Call.act, hfs]
    · rw [flatten_concat, ← hfout, ← hout]
      simp [returned]

end Body

/-- **The bytes returned do not depend on how the body was cut.** -/
theorem same_output_of_cuts {O : Type} (serde : Serde) (obs : DeltaObserver O) (o : O)
    {body : Bytes} (hfit : FramesFit body) {chunks chunks' : List Bytes}
    (h : chunks.flatten = body) (h' : chunks'.flatten = body) :
    returned (calling serde obs (chunks.map .feed ++ [.finish]) (withObserver obs o)).2 =
      returned (calling serde obs (chunks'.map .feed ++ [.finish]) (withObserver obs o)).2 := by
  have key : ∀ chunks : List Bytes, chunks.flatten = body →
      returned (calling serde obs (chunks.map .feed ++ [.finish]) (withObserver obs o)).2 =
        (absorb serde obs body (withObserver obs o)).out ++
          returned (finish obs (absorb serde obs body (withObserver obs o)).held).2 := by
    rintro chunks rfl
    obtain ⟨es, hes, hout⟩ := feeds_held serde obs o (q := []) (by simpa using hfit)
    rw [calling_concat, hes, ← hout]
    simp [returned, Call.act]
  rw [key chunks h, key chunks' h']

def helloBody : Bytes := ascii ("data: " ++ helloEvent ++ "\n\n")

/-- The whole body at once, or byte by byte. -/
theorem same_output_of_cuts_hello :
    FramesFit helloBody ∧
      returned (calling helloSerde refusing ([helloBody].map .feed ++ [.finish])
          (withObserver refusing ())).2 =
        returned (calling helloSerde refusing ((helloBody.map fun b => [b]).map .feed ++ [.finish])
          (withObserver refusing ())).2 := by
  have hend : findFrameEnd helloBody 0 = some (59, 2) := by decide +kernel
  have hfit : FramesFit helloBody :=
    .frame hend (by decide) (.tail (by decide +kernel) (by decide +kernel))
  exact ⟨hfit, same_output_of_cuts helloSerde refusing () hfit (by simp) (by decide +kernel)⟩

end Smg.Sse
