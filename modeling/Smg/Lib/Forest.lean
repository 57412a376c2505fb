import Mathlib.Data.List.Infix
import Mathlib.Data.List.Nodup
import Mathlib.Data.Set.Function

/-!
# Radix forests

A radix tree keeps strings by their common beginnings: an edge carries a string, the node it leads
to carries data for every position on the edge, and the children of a node hang under a *key*, taken
from the first page of their edges.  A page is a fixed number of letters; edges, and the strings
that are kept, are whole pages.  With pages of one letter and the letter as key this is the plain
radix tree; with long pages and a digest as key, different pages may share a key.

`Forest κ α δ` is the children of one node: letters `α`, data `δ`, keys `κ`.

## What is here

* `Keying`: the page size and the key, and `Keying.common`, the common pages of two strings;
* `Forest.WF`: every edge hangs under the key of its first page, no two under the same;
* `Forest.dataAt`: what a forest means, the data at every position of every string.
  `dataAt_split` says an edge may be cut in two;
* `Forest.insert`, with what it does to the meaning (`inserts_insert`).
-/

set_option autoImplicit false

namespace Smg

open List

/-! ## Common beginnings -/

section Common

variable {α : Type} [DecidableEq α]

/-- How many letters two strings share from the start. -/
def commonLen (a b : List α) : Nat := ((a.zip b).takeWhile fun x => x.1 = x.2).length

@[simp] theorem commonLen_nil_left (b : List α) : commonLen [] b = 0 := rfl

@[simp] theorem commonLen_nil_right (a : List α) : commonLen a [] = 0 := by
  cases a <;> rfl

theorem commonLen_cons (x y : α) (a b : List α) :
    commonLen (x :: a) (y :: b) = if x = y then commonLen a b + 1 else 0 := by
  rw [commonLen, commonLen, zip_cons_cons]
  by_cases h : x = y <;> simp [h]

theorem commonLen_le_left (a b : List α) : commonLen a b ≤ a.length := by
  induction a generalizing b with
  | nil => simp
  | cons x a ih =>
    rcases b with _ | ⟨y, b⟩
    · simp
    · rw [commonLen_cons]
      have := ih b
      split <;> simp
      omega

theorem commonLen_comm (a b : List α) : commonLen a b = commonLen b a := by
  induction a generalizing b with
  | nil => simp
  | cons x a ih =>
    rcases b with _ | ⟨y, b⟩
    · simp
    · rw [commonLen_cons, commonLen_cons, ih b]
      simp [eq_comm]

theorem commonLen_le_right (a b : List α) : commonLen a b ≤ b.length :=
  commonLen_comm a b ▸ commonLen_le_left b a

/-- **The common length is the longest.** -/
theorem take_eq_take_iff_le_commonLen {a b : List α} {n : Nat} (ha : n ≤ a.length)
    (hb : n ≤ b.length) : a.take n = b.take n ↔ n ≤ commonLen a b := by
  induction n generalizing a b with
  | zero => simp
  | succ n ih =>
    rcases a with _ | ⟨x, a⟩
    · simp at ha
    · rcases b with _ | ⟨y, b⟩
      · simp at hb
      · rw [take_succ_cons, take_succ_cons, cons.injEq, commonLen_cons]
        rw [ih (by simpa using ha) (by simpa using hb)]
        by_cases h : x = y <;> simp [h]

omit [DecidableEq α] in
theorem prefix_take_append {l r : List α} {n : Nat} (h : r <+: l.drop n) : l.take n ++ r <+: l := by
  obtain ⟨t, ht⟩ := h
  exact ⟨t, by rw [append_assoc, ht, take_append_drop]⟩

theorem length_le_commonLen {r a b : List α} (ha : r <+: a) (hb : r <+: b) :
    r.length ≤ commonLen a b := by
  refine (take_eq_take_iff_le_commonLen ha.length_le hb.length_le).mp ?_
  rw [← prefix_iff_eq_take.mp ha, ← prefix_iff_eq_take.mp hb]

end Common

/-! ## Pages and keys -/

/-- The page size of a radix tree, and the key of a page. -/
structure Keying (κ α : Type) where
  page : Nat
  page_pos : 0 < page
  key : List α → κ

namespace Keying

variable {κ α : Type} (K : Keying κ α)

def keyOf (l : List α) : κ := K.key (l.take K.page)

def align (n : Nat) : Nat := n / K.page * K.page

def Whole (l : List α) : Prop := l ≠ [] ∧ K.page ∣ l.length

/-- All pages of a string are among `S`. -/
def Within (S : Set (List α)) (l : List α) : Prop :=
  ∀ a b c, l = a ++ b ++ c → K.page ∣ a.length → b.length = K.page → b ∈ S

theorem align_le (n : Nat) : K.align n ≤ n := Nat.div_mul_le_self n K.page

theorem dvd_align (n : Nat) : K.page ∣ K.align n := Nat.dvd_mul_left _ _

theorem le_align {n m : Nat} (hn : K.page ∣ n) (h : n ≤ m) : n ≤ K.align m := by
  obtain ⟨k, rfl⟩ := hn
  rw [Nat.mul_comm]
  exact Nat.mul_le_mul_right _ ((Nat.le_div_iff_mul_le K.page_pos).mpr (by rwa [Nat.mul_comm]))

variable {K} {S : Set (List α)} {l : List α}

theorem Whole.page_le (h : K.Whole l) : K.page ≤ l.length :=
  Nat.le_of_dvd (length_pos_iff.mpr h.1) h.2

theorem Within.take_page (h : K.Within S l) (hl : K.page ≤ l.length) : l.take K.page ∈ S :=
  h [] (l.take K.page) (l.drop K.page) (by simp) (by simp) (length_take_of_le hl)

theorem Within.append_left {l' : List α} (h : K.Within S (l ++ l')) : K.Within S l := by
  rintro a b c rfl ha hb
  exact h a b (c ++ l') (by simp) ha hb

theorem Within.append_right {l' : List α} (h : K.Within S (l ++ l')) (hl : K.page ∣ l.length) :
    K.Within S l' := by
  rintro a b c rfl ha hb
  exact h (l ++ a) b c (by simp) (by rw [length_append]; exact Nat.dvd_add hl ha) hb

theorem keyOf_append {u : List α} (hu : K.page ≤ u.length) (l l' : List α) :
    K.keyOf (u ++ l) = K.keyOf (u ++ l') := by
  rw [keyOf, keyOf, take_append_of_le_length hu, take_append_of_le_length hu]

/-- The pages of a string, one after another. -/
theorem within_of_pages (h : ∀ i < l.length / K.page, (l.drop (i * K.page)).take K.page ∈ S) :
    K.Within S l := by
  rintro a b c rfl ⟨i, hi⟩ hb
  have hpos := K.page_pos
  have hlt : i < (a ++ b ++ c).length / K.page := by
    rw [Nat.lt_div_iff_mul_lt hpos]
    simp only [length_append]
    rw [Nat.mul_comm]
    omega
  have := h i hlt
  rwa [Nat.mul_comm, ← hi, append_assoc, drop_left, ← hb, take_left] at this

theorem Whole.keyOf_eq {q p : List α} (hq : K.Whole q) (h : q <+: p) : K.keyOf q = K.keyOf p := by
  obtain ⟨t, rfl⟩ := h
  rw [← K.keyOf_append hq.page_le [] t, append_nil]

theorem Whole.of_append {u q : List α} (h : K.Whole (u ++ q)) (hu : K.page ∣ u.length)
    (hq : q ≠ []) : K.Whole q :=
  ⟨hq, (Nat.dvd_add_right hu).mp (length_append ▸ h.2)⟩

section Common

variable [DecidableEq α]

/-- How many letters of common pages two strings share from the start. -/
def common (K : Keying κ α) (a b : List α) : Nat := K.align (commonLen a b)

/-- The whole strings that both `p` and `e` begin with are those that `u` begins with, where `u` is
their common part. -/
theorem exists_common (p e : List α) :
    ∃ u p' e', p = u ++ p' ∧ e = u ++ e' ∧ u.length = K.common p e ∧
      ∀ r, K.Whole r → r <+: p' → ¬r <+: e' := by
  have hp : K.common p e ≤ p.length := (K.align_le _).trans (commonLen_le_left p e)
  have he : K.common p e ≤ e.length := (K.align_le _).trans (commonLen_le_right p e)
  have htake := (take_eq_take_iff_le_commonLen hp he).mpr (K.align_le _)
  refine ⟨p.take (K.common p e), p.drop (K.common p e), e.drop (K.common p e),
    (take_append_drop _ _).symm, ?_, length_take_of_le hp, ?_⟩
  · rw [htake, take_append_drop]
  · rintro r ⟨hr, hdvd⟩ hp' he'
    -- a longer common part would be whole pages too
    have hlen : (p.take (K.common p e) ++ r).length ≤ commonLen p e :=
      length_le_commonLen (prefix_take_append hp') (htake ▸ prefix_take_append he')
    rw [length_append, length_take_of_le hp] at hlen
    have := K.le_align (Nat.dvd_add (K.dvd_align _) hdvd) hlen
    have hpos := length_pos_iff.mpr hr
    omega

end Common

end Keying

/-! ## Forests -/

/-- The children of a node, each under its key. -/
inductive Forest (κ α δ : Type)
  | nil
  /-- A child, with its own children, and its siblings. -/
  | cons (key : κ) (edge : List α) (data : δ) (children siblings : Forest κ α δ)
deriving DecidableEq

namespace Forest

variable {κ α δ : Type}

def keys : Forest κ α δ → List κ
  | .nil => []
  | .cons k _ _ _ ss => k :: ss.keys

/-- Every edge is of whole pages among `S` and hangs under the key of its first page, no two under
the same. -/
def WF (K : Keying κ α) (S : Set (List α)) : Forest κ α δ → Prop
  | .nil => True
  | .cons k e _ cs ss =>
    k = K.keyOf e ∧ K.Whole e ∧ K.Within S e ∧ k ∉ ss.keys ∧ cs.WF K S ∧ ss.WF K S

variable {F cs ss : Forest κ α δ}

section Meaning

variable [DecidableEq α]

/-- **What a forest means**: the data at the end of a whole string. -/
def dataAt : Forest κ α δ → List α → Option δ
  | .nil, _ => none
  | .cons _ e d cs ss, q =>
    if q <+: e then some d
    else if e <+: q then cs.dataAt (q.drop e.length)
    else ss.dataAt q

variable {K : Keying κ α} {S : Set (List α)}

variable {k : κ} {e q : List α} {d : δ}

/-- Below an edge. -/
theorem dataAt_cons_append (hq : q ≠ []) : (cons k e d cs ss).dataAt (e ++ q) = cs.dataAt q := by
  have h : ¬e ++ q <+: e := by
    intro h
    have := h.length_le
    rw [length_append] at this
    exact hq (length_eq_zero_iff.mp (by omega))
  rw [dataAt, if_neg h, if_pos (prefix_append e q), drop_left]

theorem dataAt_eq_none (hF : F.WF K S) (hq : K.Whole q) (h : K.keyOf q ∉ F.keys) :
    F.dataAt q = none := by
  induction F with
  | nil => rfl
  | cons k e d cs ss _ ih =>
    obtain ⟨rfl, he, -, -, -, hss⟩ := hF
    rw [keys, mem_cons, not_or] at h
    have hne : ¬q <+: e ∧ ¬e <+: q := by
      constructor
      · rintro ⟨t, rfl⟩
        exact h.1 (K.keyOf_append hq.page_le [] t ▸ by simp)
      · rintro ⟨t, rfl⟩
        exact h.1 (K.keyOf_append he.page_le [] t ▸ by simp)
    rw [dataAt, if_neg hne.1, if_neg hne.2]
    exact ih hss h.2

theorem keyOf_mem_keys (hF : F.WF K S) (hq : K.Whole q) (h : F.dataAt q = some d) :
    K.keyOf q ∈ F.keys := by
  by_contra hk
  rw [dataAt_eq_none hF hq hk] at h
  cases h

theorem dataAt_cons_within (hq : q <+: e) : (cons k e d cs ss).dataAt q = some d := if_pos hq

theorem dataAt_cons_of_not (h1 : ¬q <+: e) (h2 : ¬e <+: q) :
    (cons k e d cs ss).dataAt q = ss.dataAt q := by
  rw [dataAt, if_neg h1, if_neg h2]

theorem dataAt_leaf (hq : ¬q <+: e) : (cons k e d nil nil).dataAt q = none := by
  show (if q <+: e then _ else _) = _
  rw [if_neg hq]
  split <;> rfl

omit [DecidableEq α] in
theorem prefix_trichotomy (q e : List α) :
    q <+: e ∨ (∃ q', q' ≠ [] ∧ q = e ++ q') ∨ ¬q <+: e ∧ ¬e <+: q := by
  by_cases h1 : q <+: e
  · exact .inl h1
  · by_cases h2 : e <+: q
    · obtain ⟨q', rfl⟩ := h2
      refine .inr (.inl ⟨q', ?_, rfl⟩)
      rintro rfl
      exact h1 (by simp)
    · exact .inr (.inr ⟨h1, h2⟩)

omit [DecidableEq α] in
theorem not_prefix_append {u : List α} (h1 : ¬q <+: u) (h2 : ¬u <+: q) (e : List α) :
    ¬q <+: u ++ e ∧ ¬u ++ e <+: q := by
  refine ⟨fun h => ?_, fun h => h2 ((prefix_append u e).trans h)⟩
  rcases le_total q.length u.length with hle | hle
  · exact h1 (prefix_of_prefix_length_le h (prefix_append u e) hle)
  · exact h2 (prefix_of_prefix_length_le (prefix_append u e) h hle)

/-- **An edge may be cut in two**, where no sibling begins like it. -/
theorem dataAt_split (k' : κ) {u : List α} (hss : u <+: q → ss.dataAt q = none) :
    (cons k (u ++ e) d cs ss).dataAt q =
      (cons k u d (cons k' e d cs nil) ss).dataAt q := by
  rcases prefix_trichotomy q u with h | ⟨q', hq', rfl⟩ | ⟨h1, h2⟩
  · rw [dataAt_cons_within h, dataAt_cons_within (h.trans (prefix_append u e))]
  · rw [dataAt_cons_append hq']
    rcases prefix_trichotomy q' e with h | ⟨r, hr, rfl⟩ | ⟨h1, h2⟩
    · rw [dataAt_cons_within h,
        dataAt_cons_within ((prefix_append_right_inj u).mpr h)]
    · rw [dataAt_cons_append hr, ← append_assoc, dataAt_cons_append hr]
    · rw [dataAt_cons_of_not h1 h2, dataAt_cons_of_not
        (mt (prefix_append_right_inj u).mp h1) (mt (prefix_append_right_inj u).mp h2)]
      exact hss (prefix_append u q')
  · obtain ⟨h3, h4⟩ := not_prefix_append h1 h2 e
    rw [dataAt_cons_of_not h1 h2, dataAt_cons_of_not h3 h4]

theorem dataAt_cons_of_key_ne (hF : (cons k e d cs ss).WF K S) (hq : K.Whole q)
    (hk : k ≠ K.keyOf q) : (cons k e d cs ss).dataAt q = ss.dataAt q := by
  obtain ⟨hke, he, -⟩ := hF
  refine dataAt_cons_of_not (fun h => hk ?_) fun h => hk ?_
  · rw [hke, hq.keyOf_eq h]
  · rw [hke, he.keyOf_eq h]

/-- Under the key of a string that shares `u` with an edge and then parts from it: beyond `u` the
forest goes on only if the edge ends there. -/
theorem dataAt_cons_beyond {u p : List α} (hF : (cons k (u ++ e) d cs ss).WF K S)
    (hu : K.page ∣ u.length) (hapart : ∀ r, K.Whole r → r <+: p → ¬r <+: e)
    (hk : k = K.keyOf (u ++ p)) (hq : K.Whole q) (hqp : q <+: u ++ p) (hqu : ¬q <+: u) :
    ∃ q', q = u ++ q' ∧ K.Whole q' ∧ q' <+: p ∧
      (cons k (u ++ e) d cs ss).dataAt q = if e = [] then cs.dataAt q' else none := by
  obtain ⟨-, he, -, hkss, -, hss⟩ := hF
  obtain ⟨q', hq', rfl⟩ : ∃ q', q' ≠ [] ∧ q = u ++ q' := by
    rcases prefix_trichotomy q u with h | h | ⟨h1, h2⟩
    · exact absurd h hqu
    · exact h
    · exact absurd hqp (not_prefix_append h1 h2 p).1
  have hwhole := hq.of_append hu hq'
  have hq'p := (prefix_append_right_inj u).mp hqp
  refine ⟨q', rfl, hwhole, hq'p, ?_⟩
  split
  · rename_i h
    rw [h, append_nil, dataAt_cons_append hq']
  · rename_i h
    rw [dataAt_cons_of_not]
    · exact dataAt_eq_none hss hq (by rwa [hq.keyOf_eq hqp, ← hk])
    · exact fun h' => hapart q' hwhole hq'p ((prefix_append_right_inj u).mp h')
    · intro h'
      have heq' := (prefix_append_right_inj u).mp h'
      exact hapart e (he.of_append hu h) (heq'.trans hq'p) (prefix_refl e)

end Meaning

/-! ## Insertion -/

/-- What an insertion leaves. -/
structure Inserted (κ α δ : Type) where
  forest : Forest κ α δ
  /-- The letters on the edges credited. -/
  added : Nat
  /-- A node was made for the rest of the string. -/
  created : Bool

section Insertion

variable [DecidableEq α] [DecidableEq κ] (K : Keying κ α)
  (fresh : δ) (touch finish : δ → δ) (isNew : δ → Bool)

/-- The letters credited for an edge: all, if its data are new. -/
def credit (isNew : δ → Bool) (d : δ) (n : Nat) : Nat := if isNew d then n else 0

/-- Walk down a string and make every edge on the way end at a node.  A node passed is touched, the
node the string ends at is touched and finished, and where the string leaves the forest a fresh node
takes the rest.  An edge the string leaves in the middle is split: the new upper node has the data
of the lower one. -/
def insert : Forest κ α δ → List α → Inserted κ α δ
  | .nil, p => ⟨.cons (K.keyOf p) p fresh .nil .nil, p.length, true⟩
  | .cons k e d cs ss, p =>
    if k = K.keyOf p then
      let c := K.common p e
      if c = 0 then
        -- another page with this key: nothing is inserted
        ⟨.cons k e d cs ss, 0, false⟩
      else if c = e.length then
        if p.length - c < K.page then
          ⟨.cons k e (finish (touch d)) cs ss, credit isNew d c, false⟩
        else
          let below := insert cs (p.drop c)
          ⟨.cons k e (touch d) below.forest ss, credit isNew d c + below.added, below.created⟩
      else
        let low := K.keyOf (e.drop c)
        let lower := fun siblings => Forest.cons low (e.drop c) d cs siblings
        if p.length ≤ c then
          ⟨.cons k (e.take c) (finish (touch d)) (lower .nil) ss, credit isNew d c, false⟩
        else if (p.drop c).length < K.page then
          ⟨.cons k (e.take c) (touch d) (lower .nil) ss, credit isNew d c, false⟩
        else
          let new := K.keyOf (p.drop c)
          let branch := Forest.cons new (p.drop c) fresh .nil .nil
          -- under the key of the lower part it would take its place
          ⟨.cons k (e.take c) (touch d) (if new = low then branch else lower branch) ss,
            (p.drop c).length + credit isNew d c, true⟩
    else
      let beside := insert ss p
      ⟨.cons k e d cs beside.forest, beside.added, beside.created⟩

variable {K fresh touch finish isNew} {S : Set (List α)}

theorem mem_keys_insert (F : Forest κ α δ) (p : List α) {x : κ}
    (hx : x ∈ (F.insert K fresh touch finish isNew p).forest.keys) : x = K.keyOf p ∨
      x ∈ F.keys := by
  induction F generalizing p with
  | nil => exact .inl (mem_singleton.mp hx)
  | cons k e d cs ss _ ih =>
    rw [insert] at hx
    split at hx
    · refine .inr ?_
      simp only at hx
      split_ifs at hx <;> exact hx
    · simp only [keys, mem_cons] at hx ⊢
      rcases hx with hx | hx
      · exact .inr (.inl hx)
      · exact (ih p hx).imp id .inr

variable {k : κ} {d : δ}

variable (fresh touch finish isNew) in
/-- **Insertion at the right key**, where keys tell pages apart: `u` is the common part of the
string and the edge.  Both end there, or one of them, or they part there. -/
theorem insert_cons_cases (hinj : Set.InjOn K.key S) {e p : List α}
    (hF : (cons k e d cs ss).WF K S) (hp : K.Whole p) (hpS : K.Within S p) (hk : k = K.keyOf p) :
    ∃ u p' e', p = u ++ p' ∧ e = u ++ e' ∧ K.Whole u ∧
      (e' = [] ∧ p' = [] ∧ (cons k e d cs ss).insert K fresh touch finish isNew p =
          ⟨cons k u (finish (touch d)) cs ss, credit isNew d u.length, false⟩ ∨
        e' = [] ∧ K.Whole p' ∧ (cons k e d cs ss).insert K fresh touch finish isNew p =
          ⟨cons k u (touch d) (cs.insert K fresh touch finish isNew p').forest ss,
            credit isNew d u.length + (cs.insert K fresh touch finish isNew p').added,
            (cs.insert K fresh touch finish isNew p').created⟩ ∨
        K.Whole e' ∧ p' = [] ∧ (cons k e d cs ss).insert K fresh touch finish isNew p =
          ⟨cons k u (finish (touch d)) (cons (K.keyOf e') e' d cs nil) ss,
            credit isNew d u.length, false⟩ ∨
        K.Whole e' ∧ K.Whole p' ∧ K.keyOf p' ≠ K.keyOf e' ∧
          (cons k e d cs ss).insert K fresh touch finish isNew p =
          ⟨cons k u (touch d)
              (cons (K.keyOf e') e' d cs (cons (K.keyOf p') p' fresh nil nil)) ss,
            p'.length + credit isNew d u.length, true⟩) := by
  obtain ⟨hke, he, heS, -, -, -⟩ := hF
  -- the keys agree, so the first pages do
  have hfirst : p.take K.page = e.take K.page :=
    hinj (hpS.take_page hp.page_le) (heS.take_page he.page_le) (hk.symm.trans hke)
  obtain ⟨u, p', e', rfl, rfl, hu, hapart⟩ := K.exists_common p e
  have hcommon : K.page ≤ u.length := by
    rw [hu]
    refine K.le_align (Nat.dvd_refl _) ((take_eq_take_iff_le_commonLen ?_ ?_).mp hfirst)
    · exact hp.page_le
    · exact he.page_le
  have hudvd : K.page ∣ u.length := hu ▸ K.dvd_align _
  have hu0 : u ≠ [] := by
    rintro rfl
    have := K.page_pos
    simp at hcommon
    omega
  have hwhole : ∀ {l : List α}, K.Whole (u ++ l) → l = [] ∨ K.Whole l := by
    intro l hl
    by_cases h : l = []
    · exact .inl h
    · refine .inr ⟨h, (Nat.dvd_add_right hudvd).mp ?_⟩
      rw [← length_append]
      exact hl.2
  refine ⟨u, p', e', rfl, rfl, ⟨hu0, hudvd⟩, ?_⟩
  have hpage := K.page_pos
  rw [insert, if_pos hk]
  simp only [← hu, drop_left, take_left, length_append]
  rw [if_neg (by omega)]
  rcases hwhole he with rfl | he'
  · rw [if_pos (by simp), append_nil]
    rcases hwhole hp with rfl | hp'
    · exact .inl ⟨rfl, rfl, if_pos (by simpa using hpage)⟩
    · exact .inr (.inl ⟨rfl, hp', if_neg (by have := hp'.page_le; omega)⟩)
  · have := he'.page_le
    rw [if_neg (by omega)]
    rcases hwhole hp with rfl | hp'
    · exact .inr (.inr (.inl ⟨he', rfl, if_pos (by simp)⟩))
    · have := hp'.page_le
      have hne : K.keyOf p' ≠ K.keyOf e' := by
        intro hkey
        have htake := hinj ((hpS.append_right hudvd).take_page hp'.page_le)
          ((heS.append_right hudvd).take_page he'.page_le) hkey
        refine hapart (p'.take K.page) ⟨?_, ?_⟩ (List.take_prefix _ _)
          (htake ▸ take_prefix _ _)
        · rw [← length_pos_iff, length_take_of_le hp'.page_le]
          exact hpage
        · exact ⟨1, by rw [length_take_of_le hp'.page_le, Nat.mul_one]⟩
      refine .inr (.inr (.inr ⟨he', hp', hne, ?_⟩))
      rw [if_neg (by omega), if_neg (by omega), if_neg hne]

theorem WF.insert (hinj : Set.InjOn K.key S) (hF : F.WF K S) {p : List α} (hp : K.Whole p)
    (hpS : K.Within S p) : (F.insert K fresh touch finish isNew p).forest.WF K S := by
  induction F generalizing p with
  | nil => exact ⟨rfl, hp, hpS, not_mem_nil, trivial, trivial⟩
  | cons k e d cs ss ihcs ihss =>
    have ⟨hke, he, heS, hkss, hcs, hss⟩ := hF
    by_cases hk : k = K.keyOf p
    · obtain ⟨u, p', e', rfl, rfl, hu, hcases⟩ :=
        insert_cons_cases fresh touch finish isNew hinj hF hp hpS hk
      have hku : k = K.keyOf u := by
        rw [hke, K.keyOf_append hu.page_le e' [], append_nil]
      have hp'S := hpS.append_right hu.2
      have he'S := heS.append_right hu.2
      rcases hcases with ⟨rfl, rfl, h⟩ | ⟨rfl, hp', h⟩ | ⟨he', rfl, h⟩ | ⟨he', hp', hne, h⟩ <;>
        rw [h]
      · exact ⟨hku, hu, heS.append_left, hkss, hcs, hss⟩
      · exact ⟨hku, hu, heS.append_left, hkss, ihcs hcs hp' hp'S, hss⟩
      · exact ⟨hku, hu, heS.append_left, hkss,
          ⟨rfl, he', he'S, not_mem_nil, hcs, trivial⟩, hss⟩
      · refine ⟨hku, hu, heS.append_left, hkss, ⟨rfl, he', he'S, ?_, hcs, ?_⟩, hss⟩
        · exact fun hmem => hne (mem_singleton.mp hmem).symm
        · exact ⟨rfl, hp', hp'S, not_mem_nil, trivial, trivial⟩
    · rw [Forest.insert, if_neg hk]
      refine ⟨hke, he, heS, fun hmem => ?_, hcs, ihss hss hp hpS⟩
      exact (mem_keys_insert ss p hmem).elim hk hkss

omit [DecidableEq κ] in
theorem WF.siblings_dataAt {e : List α} (hF : (cons k e d cs ss).WF K S) {q u : List α}
    (hq : K.Whole q) (hu : K.Whole u) (hue : u <+: e) (huq : u <+: q) : ss.dataAt q = none := by
  obtain ⟨hke, -, -, hkss, -, hss⟩ := hF
  refine dataAt_eq_none hss hq ?_
  obtain ⟨e', rfl⟩ := hue
  obtain ⟨q', rfl⟩ := huq
  rwa [K.keyOf_append hu.page_le q' e', ← hke]

/-- What insertion makes of the data at a position of the string. -/
def Updates (fresh : δ) (touch finish : δ → δ) : Option δ → δ → Prop
  | none, d' => d' = fresh
  | some d, d' => d' = touch d ∨ d' = finish (touch d)

/-- `F'` is `F` with the data at the positions of `p` updated. -/
def Inserts (K : Keying κ α) (fresh : δ) (touch finish : δ → δ) (F F' : Forest κ α δ)
    (p : List α) : Prop :=
  ∀ q, K.Whole q →
    (q <+: p → ∃ d, F'.dataAt q = some d ∧ Updates fresh touch finish (F.dataAt q) d) ∧
      (¬q <+: p → F'.dataAt q = F.dataAt q)

omit [DecidableEq κ] in
theorem inserts_nil (F : Forest κ α δ) : Inserts K fresh touch finish F F [] :=
  fun _ hq => ⟨fun h => absurd (prefix_nil.mp h) hq.1, fun _ => rfl⟩

omit [DecidableEq κ] in
theorem inserts_leaf (k : κ) (p : List α) :
    Inserts K fresh touch finish nil (cons k p fresh nil nil) p := fun _ _ =>
  ⟨fun h => ⟨fresh, dataAt_cons_within h, rfl⟩, fun h => dataAt_leaf h⟩

omit [DecidableEq κ] in
/-- Insertion beside an edge with another key. -/
theorem inserts_beside {e p : List α} {ss' : Forest κ α δ} (he : K.Whole e)
    (hne : K.keyOf p ≠ K.keyOf e) (h : Inserts K fresh touch finish ss ss' p) :
    Inserts K fresh touch finish (cons k e d cs ss) (cons k e d cs ss') p := by
  have hkey : ∀ {r : List α}, K.Whole r → r <+: e → ¬r <+: p := by
    rintro r hr ⟨e', rfl⟩ ⟨p', rfl⟩
    exact hne (K.keyOf_append hr.page_le p' e')
  intro q hq
  rcases prefix_trichotomy q e with h1 | ⟨r, hr, rfl⟩ | ⟨h1, h2⟩
  · refine ⟨fun hqp => absurd hqp (hkey hq h1), fun _ => ?_⟩
    rw [dataAt_cons_within h1, dataAt_cons_within h1]
  · refine ⟨fun hqp => ?_, fun _ => by rw [dataAt_cons_append hr, dataAt_cons_append hr]⟩
    exact absurd ((prefix_append e r).trans hqp) (hkey he (prefix_refl e))
  · rw [dataAt_cons_of_not h1 h2, dataAt_cons_of_not h1 h2]
    exact h q hq

omit [DecidableEq κ] in
theorem inserts_below {k' : κ} {u p e : List α} {d' : δ} {B B' : Forest κ α δ}
    (hF : (cons k (u ++ e) d cs ss).WF K S) (hu : K.Whole u)
    (hB : ∀ q, q ≠ [] → (cons k' e d cs nil).dataAt q = B.dataAt q)
    (hd : d' = touch d ∨ d' = finish (touch d)) (h : Inserts K fresh touch finish B B' p) :
    Inserts K fresh touch finish (cons k (u ++ e) d cs ss) (cons k u d' B' ss) (u ++ p) := by
  intro q hq
  rcases prefix_trichotomy q u with hqu | ⟨q', hq', rfl⟩ | ⟨h1, h2⟩
  · refine ⟨fun _ => ⟨d', dataAt_cons_within hqu, ?_⟩, fun hn => ?_⟩
    · rw [dataAt_cons_within (hqu.trans (prefix_append u e))]
      exact hd
    · exact absurd (hqu.trans (prefix_append u p)) hn
  · rw [dataAt_split k' fun huq => hF.siblings_dataAt hq hu (prefix_append u e) huq,
      dataAt_cons_append hq', dataAt_cons_append hq', hB q' hq', prefix_append_right_inj]
    refine h q' ⟨hq', (Nat.dvd_add_right hu.2).mp ?_⟩
    rw [← length_append]
    exact hq.2
  · obtain ⟨h3, h4⟩ := not_prefix_append h1 h2 e
    rw [dataAt_cons_of_not h1 h2, dataAt_cons_of_not h3 h4]
    exact ⟨fun hqp => absurd hqp (not_prefix_append h1 h2 p).1, fun _ => rfl⟩

variable (fresh touch finish isNew) in
/-- **What insertion means**: at the positions of the string the data are touched, finished or
fresh; everywhere else they stay. -/
theorem inserts_insert (hinj : Set.InjOn K.key S) (hF : F.WF K S) {p : List α} (hp : K.Whole p)
    (hpS : K.Within S p) :
    Inserts K fresh touch finish F (F.insert K fresh touch finish isNew p).forest p := by
  induction F generalizing p with
  | nil => exact inserts_leaf _ p
  | cons k e d cs ss ihcs ihss =>
    have ⟨hke, he, heS, hkss, hcs, hss⟩ := hF
    by_cases hk : k = K.keyOf p
    · obtain ⟨u, p', e', rfl, rfl, hu, hcases⟩ :=
        insert_cons_cases fresh touch finish isNew hinj hF hp hpS hk
      have hnil : ∀ q : List α, q ≠ [] → (cons k ([] : List α) d cs nil).dataAt q = cs.dataAt q :=
        fun q hq => dataAt_cons_append hq
      rcases hcases with ⟨rfl, rfl, h⟩ | ⟨rfl, hp', h⟩ | ⟨he', rfl, h⟩ | ⟨he', hp', hne, h⟩ <;>
        rw [h]
      · exact inserts_below hF hu hnil (.inr rfl) (inserts_nil cs)
      · exact inserts_below hF hu hnil (.inl rfl) (ihcs hcs hp' (hpS.append_right hu.2))
      · exact inserts_below hF hu (fun _ _ => rfl) (.inr rfl) (inserts_nil _)
      · exact inserts_below hF hu (fun _ _ => rfl) (.inl rfl)
          (inserts_beside he' hne (inserts_leaf _ p'))
    · rw [Forest.insert, if_neg hk]
      exact inserts_beside he (fun h => hk (hke.trans h.symm)) (ihss hss hp hpS)

end Insertion

end Forest

end Smg
