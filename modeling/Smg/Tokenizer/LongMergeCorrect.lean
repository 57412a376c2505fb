import Smg.Tokenizer.ShortMergeCorrect

/-!
# Long pieces are merged by the rule

`merge_long_from` keeps a linked list of symbols and a heap of candidates, each a rank and a
position. A candidate is not taken out when its pair changes; it is recognised as stale when it is
popped, because the pair at its position has another rank or is gone.  `Holds symbols heap live`
says that the symbols are linked as the list `live`, that every other symbol is marked as merged
away, and that **every pair of `live` that merges has a candidate with its rank and position**.  A
stale candidate changes nothing; one that is not stale is the place of least rank and position,
because no candidate comes before it.

The mark of a symbol that is merged away is an id.  A live symbol of that id is taken for one, so a
pair that it begins is never merged, and it is dropped at the end: a long piece is merged by the
rule without those pairs, `unmarked`, and what is left of the mark is lost (`mergeLongFrom_eq`).
-/

set_option autoImplicit false

namespace Smg.Tokenizer

open PairMerge LinkedCells MergeTable List Option
open Prod (fst snd)

/-! ## The heap -/

theorem earlier_iff {x y : Candidate} :
    earlier x y = true ↔ x.1.toNat < y.1.toNat ∨ x.1.toNat = y.1.toNat ∧ x.2.toNat < y.2.toNat := by
  simp [earlier, UInt32.lt_iff_toNat_lt, UInt32.toNat_inj]

theorem popLeast_eq_none {heap : List Candidate} (h : popLeast heap = none) : heap = [] := by
  rcases heap with _ | ⟨x, heap⟩
  · rfl
  · rw [popLeast] at h
    split at h
    · cases h
    · split at h <;> cases h

variable {c : Candidate} {rest : List Candidate}

theorem popLeast_spec {heap : List Candidate} (h : popLeast heap = some (c, rest)) :
    heap.Perm (c :: rest) ∧ ∀ x ∈ heap, earlier x c = false := by
  induction heap generalizing c rest with
  | nil => exact absurd h (by simp [popLeast])
  | cons x heap ih =>
    have hself : earlier x x = false := by
      rw [← Bool.not_eq_true, earlier_iff]
      omega
    rw [popLeast] at h
    split at h
    next hnone =>
      obtain ⟨rfl, rfl⟩ : x = c ∧ [] = rest := by simpa using h
      obtain rfl := popLeast_eq_none hnone
      exact ⟨Perm.refl _, by simpa using hself⟩
    next y rest' hpop =>
      obtain ⟨hperm, hleast⟩ := ih hpop
      split at h
      next hyx =>
        obtain ⟨rfl, rfl⟩ : y = c ∧ x :: rest' = rest := by simpa using h
        refine ⟨(hperm.cons x).trans (Perm.swap _ _ _), forall_mem_cons.mpr ⟨?_, hleast⟩⟩
        rw [← Bool.not_eq_true, earlier_iff]
        rw [earlier_iff] at hyx
        omega
      next hyx =>
        obtain ⟨rfl, rfl⟩ : x = c ∧ heap = rest := by simpa using h
        refine ⟨Perm.refl _, forall_mem_cons.mpr ⟨hself, fun z hz => ?_⟩⟩
        have hzy := hleast z hz
        rw [← Bool.not_eq_true, earlier_iff] at hzy ⊢
        rw [earlier_iff] at hyx
        omega

/-! ## The symbols as linked cells -/

def position (pos : UInt32) : Option Nat := if pos = noSymbol then none else some pos.toNat

namespace LongMerge

variable {look : UInt32 → UInt32 → Merge} {symbols : List Symbol} {heap : List Candidate}
  {live : List (Nat × UInt32)} {table : MergeTable}

def cells (symbols : List Symbol) : Cells UInt32 where
  sym p := (symbols[p]?).map Symbol.id
  next p := (symbols[p]?).bind fun s => position s.next
  prev p := (symbols[p]?).bind fun s => position s.prev

/-- The merges of the pairs that do not begin with the mark. -/
def unmarked (look : UInt32 → UInt32 → Merge) (a b : UInt32) : Merge :=
  if a = noSymbol then Merge.none else look a b

theorem unmarked_ne_none {a b : UInt32} :
    unmarked look a b ≠ Merge.none ↔ a ≠ noSymbol ∧ look a b ≠ Merge.none := by
  rw [unmarked]
  split <;> simp_all

theorem unmarked_of_ne {a b : UInt32} (ha : a ≠ noSymbol) : unmarked look a b = look a b :=
  if_neg ha

/-- The symbols are linked as the live ones, and every pair that merges has a candidate. -/
structure Holds (symbols : List Symbol) (heap : List Candidate) (look : UInt32 → UInt32 → Merge)
    (live : List (Nat × UInt32)) : Prop where
  length_le : symbols.length ≤ 4294967295
  sorted : (live.map fst).Pairwise (· < ·)
  below : ∀ x ∈ live, x.1 < symbols.length
  linked : Linked (cells symbols) none live
  /-- A symbol that is not live is marked. -/
  dead : ∀ i s, symbols[i]? = some s → i ∉ live.map fst → s.id = noSymbol
  covered : ∀ k x, Meets (unmarked look) live k x →
    ∃ c ∈ heap, c.1.toNat = k ∧ c.2.toNat = x.1
  real : ∀ c ∈ heap, c.1 ≠ noRank ∧ c.2.toNat < symbols.length

theorem rank_ne (h : Looks table look) {a b : UInt32} (hm : look a b ≠ Merge.none) :
    (look a b).rank ≠ noRank := by
  intro heq
  have := h.rank_lt a b hm
  rw [heq] at this
  exact absurd this (by decide)

variable {x : Nat × UInt32} {s : Symbol} {i : Nat}

namespace Holds

theorem position_eq_some {pos : UInt32} {p : Nat} (h : position pos = some p) :
    pos ≠ noSymbol ∧ pos.toNat = p := by
  rw [position] at h
  split at h
  · cases h
  next hne => exact ⟨hne, some.inj h⟩

variable (h : Holds symbols heap look live)

include h

/-- The cell of a live symbol. -/
theorem item {l r : List (Nat × UInt32)}
    (hlive : live = l ++ x :: r) : ∃ s, symbols[x.1]? = some s ∧ s.id = x.2 ∧
      position s.prev = l.getLast?.map fst ∧ position s.next = r.head?.map fst := by
  subst hlive
  obtain ⟨hsym, hprev, hnext, -⟩ := h.linked.item
  have hlt := h.below x (by simp)
  have hget := getElem?_eq_getElem hlt
  refine ⟨_, hget, ?_⟩
  simp only [cells, hget, map_some, bind_some] at hsym hprev hnext
  rw [or_none] at hprev
  exact ⟨some.inj hsym, hprev, hnext⟩

theorem item_at {l r : List (Nat × UInt32)}
    (hlive : live = l ++ x :: r) (hs : symbols[x.1]? = some s) :
    s.id = x.2 ∧ position s.prev = l.getLast?.map fst ∧
      position s.next = r.head?.map fst := by
  obtain ⟨s', hs', hitem⟩ := h.item hlive
  rw [hs, some.injEq] at hs'
  exact hs' ▸ hitem

theorem exists_live (hs : symbols[i]? = some s)
    (hid : s.id ≠ noSymbol) : ∃ l r, live = l ++ (i, s.id) :: r := by
  have hmem : i ∈ live.map fst := by
    by_contra hnot
    exact hid (h.dead i s hs hnot)
  obtain ⟨x, hx, rfl⟩ := mem_map.mp hmem
  obtain ⟨l, r, hlive⟩ := append_of_mem hx
  exact ⟨l, r, by rw [(h.item_at hlive hs).1]; exact hlive⟩

theorem exists_pair (hs : symbols[i]? = some s)
    (hid : s.id ≠ noSymbol) (hnext : s.next ≠ noSymbol) : ∃ l r t, symbols[s.next.toNat]? = some t ∧
      live = l ++ (i, s.id) :: (s.next.toNat, t.id) :: r := by
  obtain ⟨l, r, hlive⟩ := h.exists_live hs hid
  obtain ⟨-, -, hn⟩ := h.item_at hlive hs
  rw [position, if_neg hnext] at hn
  obtain ⟨y, hy, hpos⟩ := map_eq_some_iff.mp hn.symm
  obtain ⟨r', rfl⟩ := head?_eq_some_iff.mp hy
  obtain ⟨t, ht, hid', -⟩ := h.item (l := l ++ [(i, s.id)]) (by simpa using hlive)
  rw [← hpos]
  exact ⟨l, r', t, ht, by rw [hid']; exact hlive⟩

/-- Only the candidate of a pair stands for it: a stale one can go. -/
theorem of_stale (hperm : heap.Perm (c :: rest))
    (hstale : ∀ k x, Meets (unmarked look) live k x → c.2.toNat = x.1 → c.1.toNat ≠ k) :
    Holds symbols rest look live := by
  refine { h with covered := fun k x hx => ?_, real := fun d hd => ?_ }
  · obtain ⟨d, hd, hk, hpos⟩ := h.covered k x hx
    rcases mem_cons.mp (hperm.mem_iff.mp hd) with rfl | hd
    · exact absurd hk (hstale k x hx hpos)
    · exact ⟨d, hd, hk, hpos⟩
  · exact h.real d (hperm.mem_iff.mpr (mem_cons_of_mem c hd))

theorem mem_iff : x ∈ live ∧ x.2 ≠ noSymbol ↔
    ∃ s, symbols[x.1]? = some s ∧ s.id = x.2 ∧ s.id ≠ noSymbol := by
  constructor
  · rintro ⟨hx, hne⟩
    obtain ⟨l, r, hlive⟩ := append_of_mem hx
    obtain ⟨s, hs, hid, -⟩ := h.item hlive
    exact ⟨s, hs, hid, hid ▸ hne⟩
  · rintro ⟨s, hs, hid, hne⟩
    obtain ⟨l, r, hlive⟩ := h.exists_live hs hne
    rw [hid] at hlive
    exact ⟨by simp [hlive], hid ▸ hne⟩

theorem filter_eq :
    (symbols.map Symbol.id).filter (· ≠ noSymbol) = (live.map snd).filter (· ≠ noSymbol) := by
  have hlive : live.filter (·.2 ≠ noSymbol) =
      (numbered (symbols.map Symbol.id) 0).filter (·.2 ≠ noSymbol) := by
    refine ((pairwise_map.mp h.sorted).filter _).eq_of_mem_iff
      ((pairwise_map.mp (sorted_numbered _ 0)).filter _) fun x => ?_
    rw [mem_filter, decide_eq_true_eq, h.mem_iff, mem_filter, mem_iff_getElem?]
    simp only [getElem?_numbered, getElem?_map, map_eq_some_iff]
    grind
  rw [← map_snd_numbered (symbols.map Symbol.id) 0, List.filter_map, List.filter_map]
  exact congrArg (List.map snd) hlive.symm

end Holds

/-! ## A merge -/

/-- The candidate of a pair whose other symbol may be missing. -/
def candidateFor (item : Option (Nat × UInt32)) (merge : UInt32 → Merge) (pos : UInt32) :
    List Candidate :=
  (item.map fun v => candidate (merge v.2) pos).getD []

theorem position_eq_none {pos : UInt32} : position pos = none ↔ pos = noSymbol := by
  simp [position]

theorem longAhead_spec (hlooks : Looks table look) {pos next id : UInt32}
    {item : Option (Nat × UInt32)} (hnext : position next = item.map fst)
    (hitem : ∀ v, item = some v → ∃ w, symbols[v.1]? = some w ∧ w.id = v.2) :
    ∃ symbols', table.longAhead symbols pos next id =
        some (symbols', candidateFor item (look id) pos) ∧
      symbols'.length = symbols.length ∧
      ∀ i, symbols'[i]? = (symbols[i]?).map fun w =>
        if item.map fst = some i then { w with prev := pos } else w := by
  rw [longAhead]
  rcases item with _ | v
  · rw [if_neg (not_not.mpr (position_eq_none.mp hnext))]
    exact ⟨symbols, rfl, rfl, fun i => by simp⟩
  · obtain ⟨hne, hpos⟩ := Holds.position_eq_some hnext
    obtain ⟨w, hw, hid⟩ := hitem v rfl
    obtain ⟨hlt, -⟩ := List.getElem?_eq_some_iff.mp hw
    rw [if_pos hne, hpos, hw]
    simp only [bind_eq_bind, bind_some, write_eq hlt, hlooks.mergeOf_eq, hid]
    refine ⟨_, rfl, length_set, fun i => ?_⟩
    rw [getElem?_set']
    by_cases hi : v.1 = i
    · rw [← hi, hw]
      simp [hid]
    · simp [hi]

theorem longBehind_eq (hlooks : Looks table look) {prev id : UInt32} {item : Option (Nat × UInt32)}
    (hprev : position prev = item.map fst)
    (hitem : ∀ u, item = some u → ∃ w, symbols[u.1]? = some w ∧ w.id = u.2) :
    table.longBehind symbols prev id = some (candidateFor item (look · id) prev) := by
  rw [longBehind]
  rcases item with _ | u
  · rw [if_neg (not_not.mpr (position_eq_none.mp hprev))]
    rfl
  · obtain ⟨hne, hpos⟩ := Holds.position_eq_some hprev
    obtain ⟨w, hw, hid⟩ := hitem u rfl
    rw [if_pos hne, hpos, hw]
    simp only [bind_eq_bind, bind_some, hlooks.mergeOf_eq, hid]
    rfl

/-- What a merge of two neighbours makes of the symbols. -/
structure Merged (symbols symbols' : List Symbol) (a b : Nat × UInt32) (prod : UInt32)
    (pos next : UInt32) (r : List (Nat × UInt32)) : Prop where
  length_eq : symbols'.length = symbols.length
  getElem?_eq : ∀ i, symbols'[i]? = (symbols[i]?).map fun w =>
    if i = a.1 then { w with id := prod, next := next }
    else if i = b.1 then { w with id := noSymbol }
    else if r.head?.map fst = some i then { w with prev := pos } else w

theorem longStep_merge (h : Holds symbols heap look live) (hlooks : Looks table look)
    {pos : UInt32} {t : Symbol} (hs : symbols[pos.toNat]? = some s) (hid : s.id ≠ noSymbol)
    (hnext : s.next ≠ noSymbol) (ht : symbols[s.next.toNat]? = some t) {l r : List (Nat × UInt32)}
    (hlive : live = l ++ (pos.toNat, s.id) :: (s.next.toNat, t.id) :: r) (rest : List Candidate) :
    ∃ symbols', table.longStep symbols rest (look s.id t.id).rank pos =
        some (symbols', candidateFor l.getLast? (look · (look s.id t.id).product) s.prev ++
          (candidateFor r.head? (look (look s.id t.id).product) pos ++ rest)) ∧
      Merged symbols symbols' (pos.toNat, s.id) (s.next.toNat, t.id) (look s.id t.id).product pos
        t.next r := by
  have hapart := apart (hlive ▸ h.sorted)
  have hab := hapart.lt
  have hne : pos.toNat ≠ s.next.toNat := ne_of_lt hab
  obtain ⟨hlt, -⟩ := List.getElem?_eq_some_iff.mp hs
  obtain ⟨hlt', -⟩ := List.getElem?_eq_some_iff.mp ht
  obtain ⟨-, hprev, -⟩ := h.item_at hlive hs
  obtain ⟨-, -, htnext⟩ := h.item_at (l := l ++ [(pos.toNat, s.id)]) (by simpa using hlive) ht
  -- the symbols with the second one marked
  obtain ⟨symbols₁, hsymbols₁⟩ : ∃ symbols₁, symbols₁ =
    (symbols.set pos.toNat { s with id := (look s.id t.id).product, next := t.next }).set
      s.next.toNat { t with id := noSymbol } := ⟨_, rfl⟩
  have hget1 : ∀ i, symbols₁[i]? = (symbols[i]?).map fun w =>
      if i = pos.toNat then { w with id := (look s.id t.id).product, next := t.next }
      else if i = s.next.toNat then { w with id := noSymbol } else w := by
    intro i
    rw [hsymbols₁, getElem?_set', getElem?_set']
    by_cases hi : s.next.toNat = i
    · rw [← hi, if_neg hne, ht]
      simp [Ne.symm hne]
    · rw [if_neg hi]
      by_cases hi' : pos.toNat = i
      · rw [← hi', hs]
        simp
      · simp [hi', Ne.symm hi', Ne.symm hi]
  have hright : ∀ v, r.head? = some v → ∃ w, symbols₁[v.1]? = some w ∧ w.id = v.2 := by
    intro v hv
    obtain ⟨r', rfl⟩ := head?_eq_some_iff.mp hv
    obtain ⟨w, hw, hwid, -⟩ := h.item (l := l ++ [(pos.toNat, s.id), (s.next.toNat, t.id)])
      (by simpa using hlive)
    obtain ⟨h1, h2⟩ := hapart.head_ne hv
    exact ⟨w, by rw [hget1, hw]; simp [h1, h2], hwid⟩
  obtain ⟨symbols₂, hahead, hlen2, hget2⟩ :=
    @longAhead_spec look symbols₁ table hlooks pos t.next (look s.id t.id).product r.head?
      htnext hright
  have hleft : ∀ u, l.getLast? = some u → ∃ w, symbols₂[u.1]? = some w ∧ w.id = u.2 := by
    intro u hu
    obtain ⟨l', rfl⟩ := getLast?_eq_some_iff.mp hu
    obtain ⟨w, hw, hwid, -⟩ := h.item
      (by simpa using hlive)
    have hlt : u.1 < pos.toNat := hapart.left_lt u (by simp)
    have h3 : r.head?.map fst ≠ some u.1 := by
      intro heq
      obtain ⟨v, hv, hvu⟩ := map_eq_some_iff.mp heq
      have := hapart.right_gt v (mem_of_mem_head? hv)
      omega
    have h1 : u.1 ≠ pos.toNat := by omega
    have h2 : u.1 ≠ s.next.toNat := by omega
    exact ⟨w, by rw [hget2, hget1, hw]; simp [h1, h2, h3], hwid⟩
  refine ⟨symbols₂, ?_, ?_, fun i => ?_⟩
  · rw [longStep, hs]
    simp only [bind_eq_bind, bind_some]
    rw [if_neg (by simp [hid, hnext]), ht]
    simp only [bind_some, hlooks.mergeOf_eq]
    rw [if_neg (not_not.mpr rfl), write_eq hlt]
    simp only [bind_some]
    rw [write_eq (by rw [length_set]; exact hlt')]
    simp only [bind_some]
    rw [← hsymbols₁, hahead]
    simp only [bind_some]
    rw [longBehind_eq hlooks hprev hleft]
    rfl
  · rw [hlen2, hsymbols₁, length_set, length_set]
  · rw [hget2, hget1, Option.map_map]
    refine congrArg (fun f => Option.map f symbols[i]?) (funext fun w => ?_)
    have h1 : ∀ p, p = pos.toNat ∨ p = s.next.toNat → r.head?.map fst ≠ some p := by
      intro p hp heq
      obtain ⟨v, hv, hvp⟩ := map_eq_some_iff.mp heq
      have := hapart.head_ne hv
      omega
    by_cases hi : i = pos.toNat
    · simp [hi, h1]
    · by_cases hi' : i = s.next.toNat
      · simp [hi', h1]
      · simp only [Function.comp, if_neg hi, if_neg hi']

theorem mem_candidateFor {item : Option (Nat × UInt32)} {merge : UInt32 → Merge} {pos : UInt32} :
    c ∈ candidateFor item merge pos ↔
      ∃ v, item = some v ∧ merge v.2 ≠ Merge.none ∧ c = ((merge v.2).rank, pos) := by
  rcases item with _ | v
  · simp [candidateFor]
  · simp only [candidateFor, map_some, candidate, some.injEq]
    split <;> simp_all

theorem length_candidateFor_le (item : Option (Nat × UInt32)) (merge : UInt32 → Merge)
    (pos : UInt32) : (candidateFor item merge pos).length ≤ 1 := by
  rcases item with _ | v
  · exact Nat.zero_le _
  · change (candidate (merge v.2) pos).length ≤ 1
    rw [candidate]
    split <;> simp

variable {rank : UInt32}

section Merged

variable {symbols' : List Symbol} {pos : UInt32} {s t : Symbol} {prod : UInt32}
  {l r : List (Nat × UInt32)} {rest : List Candidate}

variable (h : Holds symbols heap look live) (hs : symbols[pos.toNat]? = some s)
  (hlive : live = l ++ (pos.toNat, s.id) :: (s.next.toNat, t.id) :: r)

include h hs hlive

/-- The candidates after a merge: those of the other pairs, and those of the product. -/
theorem covered_merged (hperm : heap.Perm ((rank, pos) :: rest)) {k : Nat}
    (hfires : Meets (unmarked look) (l ++ (pos.toNat, prod) :: r) k x) :
    ∃ c ∈ candidateFor l.getLast? (look · prod) s.prev ++
      (candidateFor r.head? (look prod) pos ++ rest), c.1.toNat = k ∧ c.2.toNat = x.1 := by
  obtain ⟨-, hprev, -⟩ := h.item_at hlive hs
  have hapart := apart (hlive ▸ h.sorted)
  -- a pair elsewhere keeps its candidate, which is not the one that was taken
  have hkept : Meets (unmarked look) live k x → x.1 ≠ pos.toNat →
      ∃ c ∈ rest, c.1.toNat = k ∧ c.2.toNat = x.1 := by
    intro hold hne
    obtain ⟨c, hc, hk, hx⟩ := h.covered k x hold
    rcases mem_cons.mp (hperm.mem_iff.mp hc) with rfl | hc
    · exact absurd hx.symm hne
    · exact ⟨c, hc, hk, hx⟩
  rcases fires_append_cons.mp hfires with hleft | ⟨u, hu, hrule⟩ | ⟨v, hv, hrule⟩ | hright
  · obtain ⟨c, hc, hcx⟩ := hkept (hlive ▸ fires_append_cons.mpr (.inl hleft))
      (ShortMerge.Holds.untouched_left hapart hleft).2.1
    exact ⟨c, by simp [hc], hcx⟩
  · obtain ⟨hx, hrule⟩ := positioned_eq_some.mp hrule
    obtain ⟨hm, hk, -⟩ := ruleOf_eq_some.mp hrule
    obtain ⟨hne, hm⟩ := unmarked_ne_none.mp hm
    rw [unmarked_of_ne hne] at hk
    rw [hu] at hprev
    refine ⟨((look u.2 prod).rank, s.prev), ?_, hk.symm, ?_⟩
    · exact mem_append_left _ (mem_candidateFor.mpr ⟨u, hu, hm, rfl⟩)
    · rw [hx]
      exact (Holds.position_eq_some hprev).2
  · obtain ⟨hx, hrule⟩ := positioned_eq_some.mp hrule
    obtain ⟨hm, hk, -⟩ := ruleOf_eq_some.mp hrule
    obtain ⟨hne, hm⟩ := unmarked_ne_none.mp hm
    rw [unmarked_of_ne hne] at hk
    refine ⟨((look prod v.2).rank, pos), ?_, hk.symm, hx.symm⟩
    exact mem_append_right _ (mem_append_left _ (mem_candidateFor.mpr ⟨v, hv, hm, rfl⟩))
  · obtain ⟨c, hc, hcx⟩ := hkept (hlive ▸ ShortMerge.Holds.fires_of_right hright)
      (ShortMerge.Holds.untouched_right hapart hright).2.1
    exact ⟨c, by simp [hc], hcx⟩

variable (ht : symbols[s.next.toNat]? = some t)
  (hm : Merged symbols symbols' (pos.toNat, s.id) (s.next.toNat, t.id) prod pos t.next r)

include ht hm

theorem joined :
    Joined (cells symbols) (cells symbols') pos.toNat s.next.toNat prod := by
  obtain ⟨hlt, -⟩ := List.getElem?_eq_some_iff.mp hs
  have hpos : position pos = some pos.toNat := by
    rw [position, if_neg]
    rintro rfl
    exact absurd (lt_of_lt_of_le hlt h.length_le) (by decide)
  obtain ⟨-, -, hnext⟩ := h.item_at (l := l ++ [(pos.toNat, s.id)]) (by simpa using hlive) ht
  have hq : (cells symbols).next s.next.toNat = r.head?.map fst := by
    simp [cells, ht, hnext]
  refine ⟨?_, fun i hi hi' => ?_, ?_, fun i hi => ?_, fun i hi => ?_, fun i hi => ?_⟩
  · simp [cells, hm.getElem?_eq, hs]
  · simp only [cells, hm.getElem?_eq, hi, hi', if_false]
    rcases symbols[i]? with _ | w
    · rfl
    · split <;> rfl
  · rw [hq, ← hnext]
    simp [cells, hm.getElem?_eq, hs]
  · simp only [cells, hm.getElem?_eq, hi, if_false]
    rcases symbols[i]? with _ | w
    · rfl
    · split
      · rfl
      · split <;> rfl
  · rw [hq] at hi
    obtain ⟨v, hv, rfl⟩ := map_eq_some_iff.mp hi
    obtain ⟨h1, h2⟩ := (apart (hlive ▸ h.sorted)).head_ne hv
    have hlt' := h.below v (by rw [hlive]; simp [mem_of_mem_head? hv])
    simp only [cells, hm.getElem?_eq, getElem?_eq_getElem hlt', map_some, bind_some,
      h1, h2, if_false, hi, if_true, hpos]
  · rw [hq] at hi
    simp only [cells, hm.getElem?_eq]
    rcases symbols[i]? with _ | w
    · rfl
    · split
      · rfl
      · split <;> rfl

theorem holds_merged (hlooks : Looks table look)
    (hperm : heap.Perm ((rank, pos) :: rest)) : Holds symbols'
      (candidateFor l.getLast? (look · prod) s.prev ++
        (candidateFor r.head? (look prod) pos ++ rest))
      look (l ++ (pos.toNat, prod) :: r) := by
  have hmap : ((l ++ (pos.toNat, prod) :: r).map fst).Sublist (live.map fst) := by
    rw [hlive]
    simp only [map_append]
    exact (Sublist.refl _).append ((sublist_cons_self _ _).cons_cons _)
  have hposlt : pos.toNat < symbols.length := (List.getElem?_eq_some_iff.mp hs).1
  constructor
  · exact hm.length_eq ▸ h.length_le
  · exact h.sorted.sublist hmap
  · intro x hx
    obtain ⟨y, hy, hyx⟩ := mem_map.mp (hmap.subset (mem_map_of_mem hx))
    rw [hm.length_eq, ← hyx]
    exact h.below y hy
  · have hlinked := h.linked
    rw [hlive] at hlinked
    exact hlinked.join (hlive ▸ h.sorted.imp ne_of_lt) (joined h hs hlive ht hm)
  · intro i w hw hi
    rw [hm.getElem?_eq, map_eq_some_iff] at hw
    obtain ⟨w', hw', rfl⟩ := hw
    have hip : i ≠ pos.toNat := by
      rintro rfl
      exact hi (by simp)
    rw [if_neg hip]
    by_cases hiq : i = s.next.toNat
    · rw [if_pos hiq]
    · have hdead : w'.id = noSymbol := by
        refine h.dead i w' hw' fun hmem => ?_
        rw [hlive] at hmem
        simp only [map_append, map_cons, mem_append, mem_cons, hiq,
          false_or] at hmem hi
        exact hi hmem
      rw [if_neg hiq]
      split <;> exact hdead
  · exact fun k x hx => covered_merged h hs hlive hperm hx
  · intro c hc
    rw [hm.length_eq]
    rcases mem_append.mp hc with hc | hc
    · obtain ⟨u, hu, hne, rfl⟩ := mem_candidateFor.mp hc
      obtain ⟨-, hprev, -⟩ := h.item_at hlive hs
      rw [hu] at hprev
      refine ⟨rank_ne hlooks hne, ?_⟩
      rw [(Holds.position_eq_some hprev).2]
      exact h.below u (by rw [hlive]; simp [mem_of_getLast? hu])
    · rcases mem_append.mp hc with hc | hc
      · obtain ⟨v, -, hne, rfl⟩ := mem_candidateFor.mp hc
        exact ⟨rank_ne hlooks hne, hposlt⟩
      · exact h.real c (hperm.mem_iff.mpr (mem_cons_of_mem _ hc))

end Merged

/-! ## The run -/

/-- The candidate that is taken stands for the place of least rank, if it is not stale. -/
theorem least_of_popped (h : Holds symbols heap look live)
    (hleast : ∀ d ∈ heap, earlier d c = false) {l r : List (Nat × UInt32)} {a b : Nat × UInt32}
    (hlive : live = l ++ a :: b :: r) (ha : a.1 = c.2.toNat) (hid : a.2 ≠ noSymbol)
    (hm : look a.2 b.2 ≠ Merge.none) (hrank : (look a.2 b.2).rank = c.1) :
    Least (positioned (ruleOf (unmarked look))) live l c.1.toNat
      (a.1, (look a.2 b.2).product) r := by
  refine least_of_sorted h.sorted ⟨a, b, hlive, positioned_eq_some.mpr ⟨rfl, ?_⟩⟩ fun k x hx => ?_
  · exact ruleOf_eq_some.mpr
      ⟨unmarked_ne_none.mpr ⟨hid, hm⟩, by rw [unmarked_of_ne hid, hrank],
        by rw [unmarked_of_ne hid]⟩
  · obtain ⟨d, hd, hk, hpos⟩ := h.covered k x hx
    have hnot := hleast d hd
    rw [← Bool.not_eq_true, earlier_iff] at hnot
    omega

/-- **One candidate**: the symbols that are left have the same result, and less is left to do. -/
theorem longStep_spec (h : Holds symbols heap look live) (hlooks : Looks table look)
    {pos : UInt32} (hpop : popLeast heap = some ((rank, pos), rest)) :
    ∃ symbols' heap' live', table.longStep symbols rest rank pos = some (symbols', heap') ∧
      Holds symbols' heap' look live' ∧
      reduce (positioned (ruleOf (unmarked look))) live' =
        reduce (positioned (ruleOf (unmarked look))) live ∧
      heap'.length + 2 * live'.length < heap.length + 2 * live.length := by
  obtain ⟨hperm, hleast⟩ := popLeast_spec hpop
  have hlen : heap.length = rest.length + 1 := hperm.length_eq
  obtain ⟨hreal, hlt⟩ := h.real (rank, pos) (hperm.mem_iff.mpr mem_cons_self)
  have hs := getElem?_eq_getElem hlt
  generalize symbols[pos.toNat] = s at hs
  by_cases hgone : s.id = noSymbol ∨ s.next = noSymbol
  · refine ⟨symbols, rest, live, by simp [longStep, hs, hgone], h.of_stale hperm
      fun k x ⟨l, r, a, b, hlive, hrule⟩ hx => ?_, rfl, by omega⟩
    -- the first symbol of a pair does not have the id of the mark, and names its neighbour
    obtain ⟨hpos, hrule⟩ := positioned_eq_some.mp hrule
    rw [hx, hpos] at hs
    obtain ⟨hid, -, hnext⟩ := h.item_at hlive hs
    have hne := (unmarked_ne_none.mp (ruleOf_eq_some.mp hrule).1).1
    exact absurd hgone (not_or.mpr ⟨hid ▸ hne, (Holds.position_eq_some hnext).1⟩)
  · obtain ⟨hid, hnext⟩ := not_or.mp hgone
    obtain ⟨l, r, t, ht, hlive⟩ := h.exists_pair hs hid hnext
    by_cases hrank : (look s.id t.id).rank = rank
    · have hm : look s.id t.id ≠ Merge.none := by
        intro hnone
        rw [hnone] at hrank
        exact hreal (hrank.symm.trans (by decide))
      obtain ⟨symbols', hstep, hmerged⟩ := longStep_merge h hlooks hs hid hnext ht hlive rest
      rw [hrank] at hstep
      refine ⟨symbols', _, _, hstep,
        holds_merged h hs hlive ht hmerged hlooks hperm, ?_, ?_⟩
      · exact (reduce_least (least_of_popped h hleast hlive rfl hid hm hrank)).symm
      · have h1 := length_candidateFor_le l.getLast? (look · (look s.id t.id).product) s.prev
        have h2 := length_candidateFor_le r.head? (look (look s.id t.id).product) pos
        rw [hlive]
        simp only [length_append, length_cons]
        omega
    · refine ⟨symbols, rest, live, ?_, h.of_stale hperm
        fun k x ⟨l', r', a, b, hlive', hrule⟩ hx hk => ?_, rfl, by omega⟩
      · simp [longStep, hs, ht, hlooks.mergeOf_eq, hrank]
      · obtain ⟨hpos, hrule⟩ := positioned_eq_some.mp hrule
        -- the pair at this position is the one whose rank was looked up
        rw [hx, hpos] at hs
        obtain ⟨hida, -, hn⟩ := h.item_at hlive' hs
        rw [(Holds.position_eq_some hn).2] at ht
        obtain ⟨hidb, -⟩ := h.item_at (l := l' ++ [a]) (by simpa using hlive') ht
        rw [← hida, ← hidb, ruleOf_eq_some, unmarked_of_ne hid] at hrule
        exact hrank (UInt32.toNat_inj.mp (hrule.2.1.symm.trans hk.symm))

/-- **The whole run** leaves the result of the symbols that were live. -/
theorem longLoop_spec (hlooks : Looks table look) {turns : Nat}
    (h : Holds symbols heap look live) (hturns : heap.length + 2 * live.length < turns) :
    ∃ symbols', table.longLoop turns symbols heap = some symbols' ∧
      Holds symbols' [] look (reduce (positioned (ruleOf (unmarked look))) live) := by
  induction turns generalizing symbols heap live with
  | zero => exact absurd hturns (Nat.not_lt_zero _)
  | succ turns ih =>
    rw [longLoop]
    rcases hpop : popLeast heap with _ | ⟨⟨rank, pos⟩, rest⟩
    · obtain rfl := popLeast_eq_none hpop
      refine ⟨symbols, rfl, ?_⟩
      rw [reduce_of_none (next_eq_none_iff.mpr fun l k x r hsite => ?_)]
      · exact h
      · obtain ⟨c, hc, -⟩ := h.covered k x hsite.fires
        exact not_mem_nil hc
    · obtain ⟨symbols', heap', live', hstep, h', hresult, hless⟩ := longStep_spec h hlooks hpop
      simp only [hstep]
      rw [← hresult]
      exact ih h' (by omega)

/-! ## The start -/

theorem getElem?_linked (ids : List UInt32) (i : Nat) :
    (Tokenizer.linked ids)[i]? = (ids[i]?).map fun id =>
      { id
        prev := if i = 0 then noSymbol else UInt32.ofNat i - 1
        next := if i = ids.length - 1 then noSymbol else UInt32.ofNat i + 1 } := by
  rw [Tokenizer.linked, getElem?_map, getElem?_zipIdx, Option.map_map, zero_add]
  rfl

theorem length_linked (ids : List UInt32) : (Tokenizer.linked ids).length = ids.length := by
  rw [Tokenizer.linked, length_map, length_zipIdx]

theorem position_ofNat (h : i < 4294967295) : position (UInt32.ofNat i) = some i := by
  have hi : (UInt32.ofNat i).toNat = i := UInt32.toNat_ofNat_of_lt' (by
    change i < 4294967296
    omega)
  rw [position, if_neg, hi]
  intro heq
  rw [heq] at hi
  have : i = 4294967295 := hi.symm
  omega

theorem mem_candidates {merges : List Merge} : c ∈ candidates merges ↔
      ∃ i m, merges[i]? = some m ∧ m ≠ Merge.none ∧ c = (m.rank, UInt32.ofNat i) := by
  rw [candidates, mem_flatMap]
  constructor
  · rintro ⟨⟨m, i⟩, hmem, hc⟩
    rw [candidate] at hc
    split at hc
    · exact absurd hc not_mem_nil
    next hne => exact ⟨i, m, mk_mem_zipIdx_iff_getElem?.mp hmem, hne, mem_singleton.mp hc⟩
  · rintro ⟨i, m, hget, hne, rfl⟩
    refine ⟨(m, i), mk_mem_zipIdx_iff_getElem?.mpr hget, ?_⟩
    rw [candidate, if_neg hne]
    exact mem_singleton_self _

theorem linked_cells {ids : List UInt32} (hlen : ids.length ≤ 4294967295) :
    Linked (cells (Tokenizer.linked ids)) none (numbered ids 0) := by
  refine linked_numbered (fun i a ha => ?_) (fun i hi => ?_) (fun i hi => ?_)
  · simp only [cells, zero_add, getElem?_linked, ha, map_some]
  · simp only [cells, zero_add, getElem?_linked, getElem?_eq_getElem hi, map_some,
      bind_some]
    by_cases hlast : i = ids.length - 1
    · rw [if_pos hlast, if_neg (by omega)]
      rfl
    · rw [if_neg hlast, if_pos (by omega), ← UInt32.ofNat_one, ← UInt32.ofNat_add]
      exact position_ofNat (by omega)
  · simp only [cells, zero_add, getElem?_linked, getElem?_eq_getElem hi, map_some]
    by_cases hfirst : i = 0
    · rw [if_pos hfirst, if_pos hfirst]
      rfl
    · obtain ⟨j, rfl⟩ : ∃ j, i = j + 1 := ⟨i - 1, by omega⟩
      rw [UInt32.ofNat_add, UInt32.ofNat_one, UInt32.add_sub_cancel]
      exact position_ofNat (by omega)

theorem holds_start (hlooks : Looks table look) {ids : List UInt32}
    (hlen : ids.length ≤ 4294967295) :
    Holds (Tokenizer.linked ids) (candidates (pairMerges look ids)) look (numbered ids 0) where
  length_le := by rwa [length_linked]
  sorted := sorted_numbered ids 0
  below x hx := by
    have hlt := (bounds_of_mem_numbered hx).2
    rwa [zero_add, ← length_linked] at hlt
  linked := linked_cells hlen
  dead i s hs hi := by
    refine absurd ?_ hi
    rw [getElem?_linked, map_eq_some_iff] at hs
    obtain ⟨id, hid, -⟩ := hs
    have hget : (numbered ids 0)[i]? = some (i, id) := by
      rw [getElem?_numbered, hid, map_some, zero_add]
    exact mem_map_of_mem (mem_of_getElem? hget)
  covered k x hx := by
    obtain ⟨a, b, ha, hb, hrule⟩ := ShortMerge.fires_numbered.mp hx
    obtain ⟨hne, hk, -⟩ := ruleOf_eq_some.mp hrule
    obtain ⟨hmark, hne⟩ := unmarked_ne_none.mp hne
    rw [unmarked_of_ne hmark] at hk
    obtain ⟨hlt, -⟩ := List.getElem?_eq_some_iff.mp ha
    refine ⟨_, mem_candidates.mpr ⟨x.1, look a b, ShortMerge.getElem?_pairMerges ha hb, hne, rfl⟩,
      hk.symm, ?_⟩
    exact (Holds.position_eq_some (position_ofNat (by omega))).2
  real c hc := by
    obtain ⟨i, m, hget, hne, rfl⟩ := mem_candidates.mp hc
    obtain ⟨hlt, -⟩ := List.getElem?_eq_some_iff.mp hget
    rw [ShortMerge.length_pairMerges] at hlt
    have hi : i < ids.length := by omega
    have hi' : i + 1 < ids.length := by omega
    rw [ShortMerge.getElem?_pairMerges (getElem?_eq_getElem hi) (getElem?_eq_getElem hi'),
      some.injEq] at hget
    subst hget
    refine ⟨rank_ne hlooks hne, ?_⟩
    rw [(Holds.position_eq_some (position_ofNat (by omega))).2, length_linked]
    exact hi

end LongMerge

/-- **Long pieces are merged by the rule without the pairs that begin with the mark**, and what has
the id of the mark is dropped. -/
theorem mergeLongFrom_eq {table : MergeTable} {look : UInt32 → UInt32 → Merge}
    (hlooks : Looks table look) {symbols : List UInt32}
    (hlen : symbols.length ≤ 4294967295) (ids : List UInt32) :
    table.mergeLongFrom (linked symbols) (candidates (pairMerges look symbols)) ids =
      some (ids ++ (reduce (ruleOf (LongMerge.unmarked look)) symbols).filter (· ≠ noSymbol)) := by
  have h := LongMerge.holds_start hlooks hlen
  obtain ⟨symbols', hloop, h'⟩ := LongMerge.longLoop_spec hlooks h (Nat.lt_succ_self _)
  rw [numbered, length_map, length_zipIdx, ← LongMerge.length_linked symbols] at hloop
  rw [mergeLongFrom, hloop]
  simp only [bind_eq_bind, bind_some]
  rw [h'.filter_eq, ← reduce_positioned, map_snd_numbered]
  rfl

end Smg.Tokenizer
