import Mathlib.Data.List.Infix

/-!
# Merging adjacent pairs by rank

A rule says of some pairs of symbols that they merge, with a rank and a product.  The list is
rewritten until no two neighbours merge: each time the pair of least rank is replaced by its
product, the leftmost one of those that share the rank.  Byte-pair encoding is this rewriting over
the tokens of a vocabulary.

## What is here

* `next`, `reduce`: one rewriting and the whole run, by recursion on the list.
* `Site`, `Least`: a place where two neighbours merge, and the one that `next` takes, in terms of
  what stands before and after it (`next_eq_none_iff`).
* `reduce_least`, `reduce_of_none`: what an implementation has to show of a step and at the end.
* `Agree`: rules that agree on the symbols that can come up have the same result.
* `positioned`: the rule on symbols that carry a position.  Positions that increase make the
  leftmost place the one of least position (`least_of_sorted`), and do not change the result.
-/

set_option autoImplicit false

namespace Smg.PairMerge

open List

variable {α : Type}

/-- Which pairs merge, with their rank and their product. -/
abbrev Rule (α : Type) : Type := α → α → Option (Nat × α)

/-- The rank of the merge that is next and the list after it: the least rank, leftmost. -/
def next (rule : Rule α) : List α → Option (Nat × List α)
  | a :: b :: rest =>
    match rule a b, next rule (b :: rest) with
    | some (k, p), some (k', s) => if k' < k then some (k', a :: s) else some (k, p :: rest)
    | some (k, p), none => some (k, p :: rest)
    | none, some (k', s) => some (k', a :: s)
    | none, none => none
  | _ => none

/-- At most `n` merges. -/
def reduceFor (rule : Rule α) : Nat → List α → List α
  | 0, s => s
  | n + 1, s =>
    match next rule s with
    | some (_, s') => reduceFor rule n s'
    | none => s

/-- **The list after all merges.**  Each one makes it shorter, so its length is turns enough. -/
def reduce (rule : Rule α) (s : List α) : List α := reduceFor rule s.length s

variable {rule : Rule α} {s s' l l' r r' : List α} {k k' : Nat} {p p' : α}

/-! ## The place that is merged -/

/-- Two neighbours merge between `l` and `r`. -/
def Site (rule : Rule α) (s l : List α) (k : Nat) (p : α) (r : List α) : Prop :=
  ∃ a b, s = l ++ a :: b :: r ∧ rule a b = some (k, p)

/-- The place of least rank, the leftmost of its rank. -/
structure Least (rule : Rule α) (s l : List α) (k : Nat) (p : α) (r : List α) : Prop where
  site : Site rule s l k p r
  le : ∀ l' k' p' r', Site rule s l' k' p' r' → k ≤ k'
  first : ∀ l' p' r', Site rule s l' k p' r' → l.length ≤ l'.length

theorem Site.cons (a : α) (h : Site rule s l k p r) : Site rule (a :: s) (a :: l) k p r := by
  obtain ⟨x, y, rfl, hrule⟩ := h
  exact ⟨x, y, rfl, hrule⟩

/-- A place in a longer list is at its start or after its first symbol. -/
theorem site_cons_iff {a : α} :
    Site rule (a :: s) l k p r ↔
      (∃ b, l = [] ∧ s = b :: r ∧ rule a b = some (k, p)) ∨
        ∃ t, l = a :: t ∧ Site rule s t k p r := by
  constructor
  · rintro ⟨x, y, hs, hrule⟩
    cases l with
    | nil =>
      cases hs
      exact .inl ⟨y, rfl, rfl, hrule⟩
    | cons z t =>
      cases hs
      exact .inr ⟨t, rfl, x, y, rfl, hrule⟩
  · rintro (⟨b, rfl, rfl, hrule⟩ | ⟨t, rfl, hsite⟩)
    · exact ⟨a, b, rfl, hrule⟩
    · exact hsite.cons a

theorem not_site_nil : ¬ Site rule [] l k p r := by
  rintro ⟨x, y, hs, -⟩
  cases l <;> cases hs

theorem next_eq_none_iff :
    next rule s = none ↔ ∀ l k p r, ¬ Site rule s l k p r := by
  induction s with
  | nil => exact ⟨fun _ _ _ _ _ => not_site_nil, fun _ => rfl⟩
  | cons a s ih =>
    cases s with
    | nil =>
      refine ⟨fun _ l k p r h => ?_, fun _ => rfl⟩
      rcases site_cons_iff.mp h with ⟨b, -, hb, -⟩ | ⟨t, -, ht⟩
      · cases hb
      · exact not_site_nil ht
    | cons b s =>
      have hsplit :
          next rule (a :: b :: s) = none ↔ rule a b = none ∧ next rule (b :: s) = none := by
        rw [next]
        cases rule a b with
        | none => cases next rule (b :: s) <;> simp
        | some m =>
          cases next rule (b :: s) with
          | none => simp
          | some n =>
            simp only [reduceCtorEq, false_and, iff_false]
            split <;> exact Option.some_ne_none _
      rw [hsplit, ih]
      constructor
      · rintro ⟨hab, hrest⟩ l k p r h
        rcases site_cons_iff.mp h with ⟨b', -, hb, hrule⟩ | ⟨t, -, ht⟩
        · cases hb
          rw [hab] at hrule
          cases hrule
        · exact hrest t k p r ht
      · intro h
        refine ⟨?_, fun l k p r hsite => h _ _ _ _ (hsite.cons a)⟩
        rw [Option.eq_none_iff_forall_ne_some]
        rintro ⟨k, p⟩ hrule
        exact h [] k p s ⟨a, b, rfl, hrule⟩

theorem least_nil {a b : α} {rest : List α} (hab : rule a b = some (k, p))
    (h : ∀ l k' p' r, Site rule (b :: rest) l k' p' r → k ≤ k') :
    Least rule (a :: b :: rest) [] k p rest where
  site := ⟨a, b, rfl, hab⟩
  le l' k' p' r' hsite := by
    rcases site_cons_iff.mp hsite with ⟨b', -, hb, hrule⟩ | ⟨t, -, ht⟩
    · cases hb
      rw [hab] at hrule
      cases hrule
      exact le_refl k
    · exact h t k' p' r' ht
  first _ _ _ _ := Nat.zero_le _

theorem Least.cons {a : α} (h : Least rule s l k p r)
    (ha : ∀ b t k' p', s = b :: t → rule a b = some (k', p') → k < k') :
    Least rule (a :: s) (a :: l) k p r where
  site := h.site.cons a
  le l' k' p' r' hsite := by
    rcases site_cons_iff.mp hsite with ⟨b, -, hs, hrule⟩ | ⟨t, -, ht⟩
    · exact (ha b r' k' p' hs hrule).le
    · exact h.le t k' p' r' ht
  first l' p' r' hsite := by
    rcases site_cons_iff.mp hsite with ⟨b, -, hs, hrule⟩ | ⟨t, rfl, ht⟩
    · exact absurd (ha b r' k p' hs hrule) (lt_irrefl k)
    · exact Nat.succ_le_succ (h.first t p' r' ht)

theorem exists_least (h : next rule s = some (k, s')) :
    ∃ l p r, Least rule s l k p r ∧ s' = l ++ p :: r := by
  induction s generalizing k s' with
  | nil => cases h
  | cons a s ih =>
    cases s with
    | nil => cases h
    | cons b s =>
      rw [next] at h
      cases hab : rule a b with
      | none =>
        cases hrest : next rule (b :: s) with
        | none => simp [hab, hrest] at h
        | some m =>
          simp only [hab, hrest, Option.some.injEq] at h
          obtain ⟨rfl, rfl⟩ := h
          obtain ⟨l, p, r, hl, hs⟩ := ih hrest
          refine ⟨a :: l, p, r, hl.cons ?_, by rw [hs, cons_append]⟩
          intro b' t k' p' hb hrule
          cases hb
          rw [hab] at hrule
          cases hrule
      | some m =>
        obtain ⟨ka, pa⟩ := m
        cases hrest : next rule (b :: s) with
        | none =>
          simp only [hab, hrest, Option.some.injEq] at h
          obtain ⟨rfl, rfl⟩ := h
          exact ⟨[], pa, s, least_nil hab fun l k' p' r hsite =>
            absurd hsite (next_eq_none_iff.mp hrest l k' p' r), rfl⟩
        | some m =>
          obtain ⟨l, p, r, hl, hs⟩ := ih hrest
          simp only [hab, hrest] at h
          split at h
          next hlt =>
            obtain ⟨rfl, rfl⟩ := h
            refine ⟨a :: l, p, r, hl.cons ?_, by rw [hs, cons_append]⟩
            intro b' t k' p' hb hrule
            cases hb
            rw [hab] at hrule
            cases hrule
            exact hlt
          next hge =>
            obtain ⟨rfl, rfl⟩ := h
            exact ⟨[], pa, s, least_nil hab fun l' k' p' r' hsite =>
              (not_lt.mp hge).trans (hl.le l' k' p' r' hsite), rfl⟩

theorem Least.next (h : Least rule s l k p r) : next rule s = some (k, l ++ p :: r) := by
  cases hn : PairMerge.next rule s with
  | none => exact absurd h.site (next_eq_none_iff.mp hn l k p r)
  | some m =>
    obtain ⟨k', s'⟩ := m
    obtain ⟨l', p', r', h', rfl⟩ := exists_least hn
    obtain rfl : k' = k := le_antisymm (h'.le l k p r h.site) (h.le l' k' p' r' h'.site)
    have hlen := le_antisymm (h.first l' p' r' h'.site) (h'.first l p r h.site)
    obtain ⟨a, b, hs, hrule⟩ := h.site
    obtain ⟨a', b', hs', hrule'⟩ := h'.site
    obtain ⟨rfl, hr⟩ := append_inj (hs.symm.trans hs') hlen
    obtain ⟨rfl, rfl, rfl⟩ := hr
    rw [hrule] at hrule'
    cases hrule'
    rfl

/-! ## The run -/

theorem length_next (h : next rule s = some (k, s')) : s'.length + 1 = s.length := by
  obtain ⟨l, p, r, hl, rfl⟩ := exists_least h
  obtain ⟨a, b, rfl, -⟩ := hl.site
  simp only [length_append, length_cons]
  omega

theorem reduceFor_of_none (h : next rule s = none) (n : Nat) : reduceFor rule n s = s := by
  cases n with
  | zero => rfl
  | succ n => rw [reduceFor, h]

theorem reduce_of_none (h : next rule s = none) : reduce rule s = s :=
  reduceFor_of_none h s.length

theorem reduce_least (h : Least rule s l k p r) : reduce rule s = reduce rule (l ++ p :: r) := by
  rw [reduce, ← length_next h.next, reduceFor, h.next]
  rfl

/-! ## Rules that agree -/

/-- Two rules agree on the symbols of a kind, and a product of such symbols is of the kind. -/
structure Agree (P : α → Prop) (rule rule' : Rule α) : Prop where
  eq : ∀ a b, P a → P b → rule a b = rule' a b
  closed : ∀ a b k p, P a → P b → rule a b = some (k, p) → P p

section Agree

variable {P : α → Prop} {rule' : Rule α}

theorem Agree.next_eq (h : Agree P rule rule') (hs : ∀ a ∈ s, P a) :
    next rule s = next rule' s := by
  induction s with
  | nil => rfl
  | cons a s ih =>
    cases s with
    | nil => rfl
    | cons b s =>
      rw [next, next, h.eq a b (hs a (by simp)) (hs b (by simp)),
        ih fun c hc => hs c (mem_cons_of_mem a hc)]

theorem Agree.of_next (h : Agree P rule rule') (hs : ∀ a ∈ s, P a)
    (hn : next rule s = some (k, s')) : ∀ a ∈ s', P a := by
  obtain ⟨l, p, r, hl, rfl⟩ := exists_least hn
  obtain ⟨a, b, rfl, hrule⟩ := hl.site
  intro c hc
  rcases mem_append.mp hc with hc | hc
  · exact hs c (mem_append_left _ hc)
  · rcases mem_cons.mp hc with rfl | hc
    · exact h.closed a b k c (hs a (by simp)) (hs b (by simp)) hrule
    · exact hs c (by simp [hc])

/-- **Rules that agree have the same result**, all of it of the kind. -/
theorem Agree.reduce_eq (h : Agree P rule rule') (hs : ∀ a ∈ s, P a) :
    reduce rule s = reduce rule' s ∧ ∀ a ∈ reduce rule s, P a := by
  rw [reduce, reduce]
  generalize s.length = n
  induction n generalizing s with
  | zero => exact ⟨rfl, hs⟩
  | succ n ih =>
    rw [reduceFor, reduceFor, ← h.next_eq hs]
    cases hn : next rule s with
    | none => exact ⟨rfl, hs⟩
    | some m => exact ih (h.of_next hs hn)

end Agree

/-! ## Symbols at positions -/

/-- Somewhere in the list two neighbours merge with this rank and this product. -/
def Fires (rule : Rule α) (s : List α) (k : Nat) (p : α) : Prop := ∃ l r, Site rule s l k p r

theorem Site.fires (h : Site rule s l k p r) : Fires rule s k p := ⟨l, r, h⟩

theorem not_fires_nil : ¬ Fires rule [] k p := fun ⟨_, _, h⟩ => not_site_nil h

theorem fires_cons {a : α} : Fires rule (a :: r) k p ↔
    (∃ b, r.head? = some b ∧ rule a b = some (k, p)) ∨ Fires rule r k p := by
  constructor
  · rintro ⟨l', r', h⟩
    rcases site_cons_iff.mp h with ⟨b, -, rfl, hrule⟩ | ⟨u, -, hu⟩
    · exact .inl ⟨b, rfl, hrule⟩
    · exact .inr hu.fires
  · rintro (⟨b, hb, hrule⟩ | ⟨l', r', h⟩)
    · obtain ⟨u, rfl⟩ := head?_eq_some_iff.mp hb
      exact ⟨[], u, a, b, rfl, hrule⟩
    · exact (h.cons a).fires

/-- The neighbours around a symbol: before it, with it on either side, and after it. -/
theorem fires_append_cons {m : α} :
    Fires rule (l ++ m :: r) k p ↔
      Fires rule l k p ∨ (∃ u, l.getLast? = some u ∧ rule u m = some (k, p)) ∨
        (∃ v, r.head? = some v ∧ rule m v = some (k, p)) ∨ Fires rule r k p := by
  induction l with
  | nil => simp [fires_cons, not_fires_nil]
  | cons a l ih =>
    rw [cons_append, fires_cons, fires_cons, ih]
    cases l with
    | nil => simp [not_fires_nil]
    | cons b l =>
      simp only [cons_append, head?_cons, getLast?_cons_cons, or_assoc]

/-- The rule on symbols at positions: a product stands where its first symbol stood. -/
def positioned (rule : Rule α) : Rule (Nat × α) :=
  fun x y => (rule x.2 y.2).map fun m => (m.1, (x.1, m.2))

theorem positioned_eq_some {x y z : Nat × α} :
    positioned rule x y = some (k, z) ↔ z.1 = x.1 ∧ rule x.2 y.2 = some (k, z.2) := by
  rw [positioned, Option.map_eq_some_iff]
  constructor
  · rintro ⟨m, hm, heq⟩
    cases heq
    exact ⟨rfl, hm⟩
  · rintro ⟨hpos, hm⟩
    exact ⟨(k, z.2), hm, by rw [← hpos]⟩

/-- A rule that comes from another by a map of the symbols has its runs. -/
theorem next_map {β : Type} {rule' : Rule β} {f : β → α}
    (hf : ∀ x y, (rule' x y).map (Prod.map id f) = rule (f x) (f y)) (t : List β) :
    next rule (t.map f) = (next rule' t).map (Prod.map id (map f)) := by
  induction t with
  | nil => rfl
  | cons x t ih =>
    cases t with
    | nil => rfl
    | cons y t =>
      rw [map_cons, map_cons] at *
      rw [next, next, ih, ← hf x y]
      cases rule' x y with
      | none => cases next rule' (y :: t) <;> rfl
      | some m =>
        cases next rule' (y :: t) with
        | none => rfl
        | some n =>
          simp only [Option.map_some, Prod.map_fst, id_eq]
          split <;> rfl

theorem reduceFor_map {β : Type} {rule' : Rule β} {f : β → α}
    (hf : ∀ x y, (rule' x y).map (Prod.map id f) = rule (f x) (f y)) (n : Nat) (t : List β) :
    reduceFor rule n (t.map f) = (reduceFor rule' n t).map f := by
  induction n generalizing t with
  | zero => rfl
  | succ n ih =>
    rw [reduceFor, reduceFor, next_map hf]
    cases next rule' t with
    | none => rfl
    | some m => exact ih m.2

/-- **Positions do not change the result.** -/
theorem reduce_positioned (live : List (Nat × α)) :
    reduce rule (live.map Prod.snd) = (reduce (positioned rule) live).map Prod.snd := by
  rw [reduce, length_map]
  refine reduceFor_map (fun x y => ?_) _ live
  rw [positioned]
  cases rule x.2 y.2 <;> rfl

/-- **The place of least rank and position**, where positions increase. -/
theorem least_of_sorted {live l r : List (Nat × α)} {x : Nat × α}
    (hsorted : (live.map Prod.fst).Pairwise (· < ·)) (hsite : Site (positioned rule) live l k x r)
    (hleast : ∀ k' x', Fires (positioned rule) live k' x' → k < k' ∨ k = k' ∧ x.1 ≤ x'.1) :
    Least (positioned rule) live l k x r where
  site := hsite
  le l' k' x' r' h := by
    rcases hleast k' x' h.fires with hlt | ⟨heq, -⟩
    · exact hlt.le
    · exact heq.le
  first l' x' r' h := by
    have hle : x.1 ≤ x'.1 := ((hleast k x' h.fires).resolve_left (lt_irrefl k)).2
    obtain ⟨a, b, rfl, hrule⟩ := hsite
    obtain ⟨a', b', heq, hrule'⟩ := h
    rw [positioned_eq_some] at hrule hrule'
    by_contra hlt
    -- a shorter prefix is a prefix of the longer one, and its symbol has a smaller position
    have hpre : l' ++ [a'] <+: l ++ a :: b :: r := ⟨b' :: r', by rw [heq]; simp⟩
    have hlen : (l' ++ [a']).length ≤ l.length := by
      rw [length_append]
      exact not_le.mp hlt
    obtain ⟨t, rfl⟩ := prefix_of_prefix_length_le hpre ⟨_, rfl⟩ hlen
    rw [map_append, pairwise_append] at hsorted
    have := hsorted.2.2 a'.1 (by simp) a.1 (by simp)
    omega

end Smg.PairMerge
