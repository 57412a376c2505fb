import Mathlib.Data.Set.Card
import Smg.Lib.Forest

/-!
# The owned part of a radix forest

Data that meet a condition `f`, an owner's mark say, own the positions they stand at.  Here are the
facts about the owned positions that do not depend on where edges are cut:

* `Forest.Owned`: the owned positions, as a set of strings;
* `Forest.Closed`: a node is owned where a node below it is, and `Closed.owned_beginning`: then so
  is every beginning of an owned string;
* `Forest.size`: the letters on owned edges, and `size_eq_ncard`: **they are the letters of the
  owned pages**;
* `Marks` and what `Forest.insert` does to all of these for a condition that it sets or leaves
  alone.
-/

set_option autoImplicit false

namespace Smg.Forest

open List

variable {κ α δ : Type} [DecidableEq α]

def Owned (K : Keying κ α) (f : δ → Bool) (F : Forest κ α δ) : Set (List α) :=
  { q | K.Whole q ∧ ∃ d, F.dataAt q = some d ∧ f d = true }

omit [DecidableEq α] in
/-- Every node below an owned one is owned; `up` says whether the node above is. -/
def Closed (f : δ → Bool) : Bool → Forest κ α δ → Prop
  | _, .nil => True
  | up, .cons _ _ d cs ss => (f d = true → up = true) ∧ cs.Closed f (f d) ∧ ss.Closed f up

omit [DecidableEq α] in
def size (f : δ → Bool) : Forest κ α δ → Nat
  | .nil => 0
  | .cons _ e d cs ss => (if f d = true then e.length else 0) + cs.size f + ss.size f

def All (P : δ → Prop) : Forest κ α δ → Prop
  | .nil => True
  | .cons _ _ d cs ss => P d ∧ cs.All P ∧ ss.All P

def map {δ' : Type} (g : δ → δ') : Forest κ α δ → Forest κ α δ'
  | .nil => .nil
  | .cons k e d cs ss => .cons k e (g d) (cs.map g) (ss.map g)

variable {K : Keying κ α} {S : Set (List α)} {f : δ → Bool}

/-! ## Beginnings -/

variable {F : Forest κ α δ} {q : List α}

theorem Closed.up {up : Bool} (hF : F.Closed f up) {d : δ} (hq : F.dataAt q = some d)
    (hd : f d = true) : up = true := by
  induction F generalizing up q with
  | nil => cases hq
  | cons k e d' cs ss ihcs ihss =>
    obtain ⟨h1, h2, h3⟩ := hF
    rw [dataAt] at hq
    split at hq
    · cases hq
      exact h1 hd
    · split at hq
      · exact h1 (ihcs h2 hq)
      · exact ihss h3 hq

omit [DecidableEq α] in
theorem Closed.mono {up up' : Bool} (hF : F.Closed f up) (h : up = true → up' = true) :
    F.Closed f up' := by
  induction F with
  | nil => trivial
  | cons k e d cs ss _ ih => exact ⟨fun hd => h (hF.1 hd), hF.2.1, ih hF.2.2⟩

variable {p : List α}

/-- **Beginnings of owned strings are owned.** -/
theorem Closed.owned_beginning {up : Bool} (hF : F.Closed f up) (hp : K.Whole p) (hpq : p <+: q)
    (hq : q ∈ F.Owned K f) (hwf : F.WF K S) : p ∈ F.Owned K f := by
  obtain ⟨hq, d, hd, hf⟩ := hq
  refine ⟨hp, ?_⟩
  induction F generalizing up p q with
  | nil => cases hd
  | cons k e d' cs ss ihcs ihss =>
    obtain ⟨h1, h2, h3⟩ := hF
    obtain ⟨hke, he, -, hkss, hcs, hss⟩ := hwf
    rcases prefix_trichotomy q e with h | ⟨r, hr, rfl⟩ | ⟨hn1, hn2⟩
    · rw [dataAt_cons_within h] at hd
      obtain rfl := Option.some.inj hd
      exact ⟨d', dataAt_cons_within (hpq.trans h), hf⟩
    · rw [dataAt_cons_append hr] at hd
      rcases prefix_trichotomy p e with h | ⟨p', hp', rfl⟩ | ⟨hn1, hn2⟩
      · exact ⟨d', dataAt_cons_within h, h2.up hd hf⟩
      · rw [dataAt_cons_append hp']
        refine ihcs h2 ⟨hp', ?_⟩ ((prefix_append_right_inj e).mp hpq) hcs ⟨hr, ?_⟩ hd
        · exact (Nat.dvd_add_right he.2).mp (length_append ▸ hp.2)
        · exact (Nat.dvd_add_right he.2).mp (length_append ▸ hq.2)
      · exact absurd hpq (not_prefix_append hn1 hn2 r |>.1)
    · rw [dataAt_cons_of_not hn1 hn2] at hd
      have hpe : ¬p <+: e := by
        rintro ⟨e', rfl⟩
        obtain ⟨q', rfl⟩ := hpq
        refine hkss (hke ▸ K.keyOf_append hp.page_le q' e' ▸ keyOf_mem_keys hss hq hd)
      rw [dataAt_cons_of_not hpe fun h => hn2 (h.trans hpq)]
      exact ihss h3 hp hpq hss hq hd

/-! ## Positions and letters -/

def positions (page : Nat) (f : δ → Bool) : Forest κ α δ → List (List α)
  | .nil => []
  | .cons _ e d cs ss =>
    (if f d = true then (List.range (e.length / page)).map fun i => e.take
      ((i + 1) * page) else []) ++
      (cs.positions page f).map (e ++ ·) ++ ss.positions page f

/-- The owned positions of a forest: on the first edge, below it, and among the siblings. -/
theorem mem_owned_cons {k : κ} {e : List α} {d : δ} {cs ss : Forest κ α δ}
    (hF : (cons k e d cs ss).WF K S) : q ∈ (cons k e d cs ss).Owned K f ↔
      (K.Whole q ∧ q <+: e ∧ f d = true) ∨ (∃ r ∈ cs.Owned K f, q = e ++ r) ∨ q ∈ ss.Owned K f := by
  have ⟨hke, he, _, hkss, hcs, hss⟩ := hF
  constructor
  · rintro ⟨hq, d', hd, hf⟩
    rcases prefix_trichotomy q e with h | ⟨r, hr, rfl⟩ | ⟨h1, h2⟩
    · rw [dataAt_cons_within h] at hd
      cases hd
      exact .inl ⟨hq, h, hf⟩
    · rw [dataAt_cons_append hr] at hd
      refine .inr (.inl ⟨r, ⟨⟨hr, ?_⟩, d', hd, hf⟩, rfl⟩)
      exact (Nat.dvd_add_right he.2).mp (length_append ▸ hq.2)
    · rw [dataAt_cons_of_not h1 h2] at hd
      exact .inr (.inr ⟨hq, d', hd, hf⟩)
  · rintro (⟨hq, h, hf⟩ | ⟨r, ⟨hr, d', hd, hf⟩, rfl⟩ | ⟨hq, d', hd, hf⟩)
    · exact ⟨hq, d, dataAt_cons_within h, hf⟩
    · refine ⟨⟨by simp [hr.1], ?_⟩, d', by rw [dataAt_cons_append hr.1, hd], hf⟩
      rw [length_append]
      exact Nat.dvd_add he.2 hr.2
    · have hkq := keyOf_mem_keys hss hq hd
      refine ⟨hq, d', ?_, hf⟩
      rw [dataAt_cons_of_not, hd]
      · rintro ⟨e', rfl⟩
        exact hkss (hke ▸ K.keyOf_append hq.page_le e' [] ▸ (append_nil q).symm ▸ hkq)
      · rintro ⟨q', rfl⟩
        exact hkss (hke ▸ (append_nil e) ▸ K.keyOf_append he.page_le q' [] ▸ hkq)

omit [DecidableEq α] in
theorem whole_and_prefix_iff {e : List α} :
    K.Whole q ∧ q <+: e ↔ ∃ i < e.length / K.page, e.take ((i + 1) * K.page) = q := by
  have hpage := K.page_pos
  constructor
  · rintro ⟨hq, he⟩
    obtain ⟨n, hn⟩ := hq.2
    have hn0 : n ≠ 0 := by rintro rfl; simp at hn; exact hq.1 hn
    refine ⟨n - 1, ?_, ?_⟩
    · have : n ≤ e.length / K.page := by
        rw [Nat.le_div_iff_mul_le hpage, mul_comm, ← hn]
        exact he.length_le
      omega
    · rw [Nat.sub_add_cancel (pos_of_ne_zero hn0), mul_comm, ← hn]
      exact (prefix_iff_eq_take.mp he).symm
  · rintro ⟨i, hi, rfl⟩
    have hle : (i + 1) * K.page ≤ e.length := (Nat.le_div_iff_mul_le hpage).mp hi
    refine ⟨⟨?_, ?_⟩, take_prefix _ _⟩
    · rw [← length_pos_iff, length_take_of_le hle]
      exact mul_pos i.succ_pos hpage
    · rw [length_take_of_le hle]
      exact dvd_mul_left _ _

theorem mem_positions (hF : F.WF K S) : q ∈ F.positions K.page f ↔ q ∈ F.Owned K f := by
  induction F generalizing q with
  | nil => simp [positions, Owned, dataAt]
  | cons k e d cs ss ihcs ihss =>
    rw [mem_owned_cons hF, positions, mem_append, mem_append]
    obtain ⟨-, -, -, -, hcs, hss⟩ := hF
    rw [ihss hss, or_assoc]
    refine or_congr ?_ (or_congr ?_ .rfl)
    · rw [← and_assoc, whole_and_prefix_iff]
      split
      · rename_i hf
        simp [hf]
      · rename_i hf
        simp [hf]
    · simp only [mem_map, ihcs hcs]
      exact exists_congr fun r => and_congr .rfl eq_comm

theorem nodup_positions (hF : F.WF K S) : (F.positions K.page f).Nodup := by
  induction F with
  | nil => exact nodup_nil
  | cons k e d cs ss ihcs ihss =>
    have ⟨hke, he, _, hkss, hcs, hss⟩ := hF
    have hedge : ∀ q ∈ (if f d = true then (range (e.length / K.page)).map fun i =>
        e.take ((i + 1) * K.page) else []), K.Whole q ∧ q <+: e := by
      intro q hq
      split at hq
      · obtain ⟨i, hi, rfl⟩ := mem_map.mp hq
        exact whole_and_prefix_iff.mpr ⟨i, mem_range.mp hi, rfl⟩
      · cases hq
    have hbelow : ∀ q ∈ (cs.positions K.page f).map (e ++ ·), ∃ r, r ≠ [] ∧ q = e ++ r := by
      intro q hq
      obtain ⟨r, hr, rfl⟩ := mem_map.mp hq
      exact ⟨r, ((mem_positions hcs).mp hr).1.1, rfl⟩
    refine nodup_append.mpr ⟨nodup_append.mpr ⟨?_, ?_, ?_⟩, ihss hss, ?_⟩
    · split
      · refine Nodup.map_on (fun i hi j hj h => ?_) nodup_range
        have hlen := congrArg length h
        rw [mem_range, ← Nat.succ_le_iff, Nat.le_div_iff_mul_le K.page_pos] at hi hj
        rw [length_take_of_le hi, length_take_of_le hj] at hlen
        exact Nat.succ_injective (Nat.eq_of_mul_eq_mul_right K.page_pos hlen)
      · exact nodup_nil
    · exact (ihcs hcs).map (append_right_injective e)
    · rintro a ha b hb rfl
      obtain ⟨r, hr, rfl⟩ := hbelow a hb
      have := (hedge _ ha).2.length_le
      rw [length_append] at this
      exact hr (length_eq_zero_iff.mp (by omega))
    · -- what is on or below the edge has its key, the siblings have others
      rintro a ha b hb rfl
      obtain ⟨hwhole, d', hd, -⟩ := (mem_positions hss).mp hb
      have hkey : K.keyOf a = k := by
        rw [hke]
        rcases mem_append.mp ha with ha | ha
        · obtain ⟨hw, e', rfl⟩ := hedge a ha
          rw [K.keyOf_append hw.page_le e' [], append_nil]
        · obtain ⟨r, -, rfl⟩ := hbelow a ha
          rw [K.keyOf_append he.page_le r [], append_nil]
      exact hkss (hkey ▸ keyOf_mem_keys hss hwhole hd)

omit [DecidableEq α] in
theorem length_positions (hF : F.WF K S) : F.size f = K.page * (F.positions K.page f).length := by
  induction F with
  | nil => rfl
  | cons k e d cs ss ihcs ihss =>
    obtain ⟨-, he, -, -, hcs, hss⟩ := hF
    rw [size, positions, length_append, length_append, mul_add, mul_add,
      length_map, ihcs hcs, ihss hss]
    split
    · rw [length_map, length_range, Nat.mul_div_cancel' he.2]
    · rfl

/-- **The letters on owned edges are the letters of the owned pages.** -/
theorem size_eq_ncard (hF : F.WF K S) : F.size f = K.page * (F.Owned K f).ncard := by
  have hset : F.Owned K f = ((F.positions K.page f).toFinset : Set (List α)) := by
    ext q
    rw [Finset.mem_coe, mem_toFinset, mem_positions hF]
  rw [length_positions hF, hset, Set.ncard_coe_finset,
    toFinset_card_of_nodup (nodup_positions hF)]

theorem finite_owned (hF : F.WF K S) : (F.Owned K f).Finite :=
  (F.positions K.page f).finite_toSet.subset fun _ hq => (mem_positions hF).mpr hq

/-! ## Insertion -/

/-- An insertion sets the mark `f` wherever it comes (`m`), or leaves it alone. -/
structure Marks (f : δ → Bool) (m : Bool) (fresh : δ) (touch finish : δ → δ) : Prop where
  fresh_eq : f fresh = m
  touch_eq : ∀ d, f (touch d) = (f d || m)
  finish_eq : ∀ d, f (finish (touch d)) = (f d || m)

variable {F : Forest κ α δ}

section Insertion

variable [DecidableEq κ] {m : Bool} {fresh : δ} {touch finish : δ → δ} {isNew : δ → Bool}

omit [DecidableEq α] [DecidableEq κ] in
theorem Updates.mark (hm : Marks f m fresh touch finish) {o : Option δ} {d : δ}
    (h : Updates fresh touch finish o d) : f d = ((o.map f).getD false || m) := by
  rcases o with _ | d0
  · rw [h, hm.fresh_eq]
    rfl
  · rcases h with rfl | rfl
    · exact hm.touch_eq d0
    · exact hm.finish_eq d0

variable {F : Forest κ α δ}

/-- **Insertion owns the beginnings of its string**, for a mark it sets; it changes nothing for one
it leaves alone. -/
theorem mem_owned_insert (hinj : Set.InjOn K.key S) (hm : Marks f m fresh touch finish)
    (hF : F.WF K S) (hp : K.Whole p) (hpS : K.Within S p) :
    q ∈ (F.insert K fresh touch finish isNew p).forest.Owned K f ↔
      q ∈ F.Owned K f ∨ (m = true ∧ K.Whole q ∧ q <+: p) := by
  have hown : ∀ F : Forest κ α δ,
      q ∈ F.Owned K f ↔ K.Whole q ∧ ((F.dataAt q).map f).getD false = true := by
    intro F
    refine and_congr .rfl ?_
    rcases F.dataAt q with _ | d <;> simp
  rw [hown, hown]
  by_cases hq : K.Whole q
  · obtain ⟨hon, hoff⟩ := inserts_insert fresh touch finish isNew hinj hF hp hpS q hq
    by_cases hqp : q <+: p
    · obtain ⟨d, hd, hupd⟩ := hon hqp
      rw [hd, Option.map_some, Option.getD_some, hupd.mark hm, Bool.or_eq_true]
      tauto
    · rw [hoff hqp]
      tauto
  · tauto

/-- **Insertion credits what it owns anew**, for a mark it sets. -/
theorem size_insert (hinj : Set.InjOn K.key S) (hm : Marks f true fresh touch finish)
    (hnew : ∀ d, isNew d = !f d) (hF : F.WF K S) (hp : K.Whole p) (hpS : K.Within S p) :
    (F.insert K fresh touch finish isNew p).forest.size f =
      F.size f + (F.insert K fresh touch finish isNew p).added := by
  have hfresh := hm.fresh_eq
  have htouch : ∀ d, f (touch d) = true := fun d => by rw [hm.touch_eq, Bool.or_true]
  have hfinish : ∀ d, f (finish (touch d)) = true := fun d => by rw [hm.finish_eq, Bool.or_true]
  induction F generalizing p with
  | nil => simp [Forest.insert, size, hfresh]
  | cons k e d cs ss ihcs ihss =>
    by_cases hk : k = K.keyOf p
    · obtain ⟨u, p', e', rfl, rfl, hu, hcases⟩ :=
        insert_cons_cases fresh touch finish isNew hinj hF hp hpS hk
      obtain ⟨-, -, -, -, hcs, -⟩ := hF
      have hcredit : (if f d = true then u.length else 0) + credit isNew d u.length = u.length := by
        rw [credit, hnew]
        cases f d <;> simp
      rcases hcases with ⟨rfl, rfl, h⟩ | ⟨rfl, hp', h⟩ | ⟨he', rfl, h⟩ | ⟨he', hp', hne, h⟩ <;>
        rw [h]
      · simp only [size, hfinish, append_nil, if_true]
        omega
      · simp only [size, htouch, append_nil, if_true, ihcs hcs hp' (hpS.append_right hu.2)]
        omega
      · simp only [size, hfinish]
        split at hcredit <;> simp_all <;> omega
      · simp only [size, hfresh]
        split at hcredit <;> simp_all <;> omega
    · obtain ⟨-, -, -, -, -, hss⟩ := hF
      rw [Forest.insert, if_neg hk]
      simp only [size, ihss hss hp hpS]
      omega

theorem Closed.insert (hinj : Set.InjOn K.key S) (hm : Marks f m fresh touch finish)
    (hF : F.WF K S) {up : Bool} (hc : F.Closed f up) (hup : m = true → up = true) (hp : K.Whole p)
    (hpS : K.Within S p) : (F.insert K fresh touch finish isNew p).forest.Closed f up := by
  induction F generalizing up p with
  | nil => exact ⟨fun h => hup (hm.fresh_eq ▸ h), trivial, trivial⟩
  | cons k e d cs ss ihcs ihss =>
    have ⟨_, _, _, _, hcs, hss⟩ := hF
    obtain ⟨hd, hdown, hside⟩ := hc
    by_cases hk : k = K.keyOf p
    · obtain ⟨u, p', e', rfl, rfl, hu, hcases⟩ :=
        insert_cons_cases fresh touch finish isNew hinj hF hp hpS hk
      have htouch : f (touch d) = true → up = true := by
        rw [hm.touch_eq, Bool.or_eq_true]
        exact fun h => h.elim hd hup
      have hold : f d = true → f (touch d) = true := by
        rw [hm.touch_eq, Bool.or_eq_true]
        exact .inl
      have hset : m = true → f (touch d) = true := by
        rw [hm.touch_eq, Bool.or_eq_true]
        exact .inr
      have hfinish : f (finish (touch d)) = f (touch d) := by rw [hm.finish_eq, hm.touch_eq]
      rcases hcases with ⟨rfl, rfl, h⟩ | ⟨rfl, hp', h⟩ | ⟨he', rfl, h⟩ | ⟨he', hp', hne, h⟩ <;>
        rw [h]
      · exact ⟨hfinish ▸ htouch, hdown.mono (hfinish ▸ hold), hside⟩
      · exact ⟨htouch, ihcs hcs (hdown.mono hold) hset hp' (hpS.append_right hu.2), hside⟩
      · exact ⟨hfinish ▸ htouch, ⟨hfinish ▸ hold, hdown, trivial⟩, hside⟩
      · exact ⟨htouch, ⟨hold, hdown, fun h => hset (hm.fresh_eq ▸ h), trivial, trivial⟩, hside⟩
    · rw [Forest.insert, if_neg hk]
      exact ⟨hd, hdown, ihss hss hside hup hp hpS⟩

theorem All.insert {P : δ → Prop} (hfresh : P fresh) (htouch : ∀ d, P d → P (touch d))
    (hfinish : ∀ d, P d → P (finish d)) (hF : F.All P) (p : List α) :
    (F.insert K fresh touch finish isNew p).forest.All P := by
  induction F generalizing p with
  | nil => exact ⟨hfresh, trivial, trivial⟩
  | cons k e d cs ss ihcs ihss =>
    obtain ⟨hd, hcs, hss⟩ := hF
    have hend := hfinish _ (htouch _ hd)
    simp only [Forest.insert]
    split_ifs
    · exact ⟨hd, hcs, hss⟩
    · exact ⟨hend, hcs, hss⟩
    · exact ⟨htouch _ hd, ihcs hcs _, hss⟩
    · exact ⟨hend, ⟨hd, hcs, trivial⟩, hss⟩
    · exact ⟨htouch _ hd, ⟨hd, hcs, trivial⟩, hss⟩
    · exact ⟨htouch _ hd, ⟨hfresh, trivial, trivial⟩, hss⟩
    · exact ⟨htouch _ hd, ⟨hd, hcs, hfresh, trivial, trivial⟩, hss⟩
    · exact ⟨hd, hcs, ihss hss _⟩

end Insertion

/-! ## Other data -/

section Map

variable {δ' : Type} (g : δ → δ') (F : Forest κ α δ)

omit [DecidableEq α] in
@[simp] theorem keys_map : (F.map g).keys = F.keys := by
  induction F with
  | nil => rfl
  | cons k e d cs ss _ ih => rw [map, keys, keys, ih]

omit [DecidableEq α] in
theorem wf_map : (F.map g).WF K S ↔ F.WF K S := by
  induction F with
  | nil => rfl
  | cons k e d cs ss ihcs ihss => rw [map, WF, WF, keys_map, ihcs, ihss]

omit [DecidableEq α] in
theorem closed_map {f : δ' → Bool} {up : Bool} : (F.map g).Closed f up ↔ F.Closed (f ∘ g) up := by
  induction F generalizing up with
  | nil => rfl
  | cons k e d cs ss ihcs ihss => rw [map, Closed, ihcs, ihss]; rfl

omit [DecidableEq α] in
theorem size_map (f : δ' → Bool) : (F.map g).size f = F.size (f ∘ g) := by
  induction F with
  | nil => rfl
  | cons k e d cs ss ihcs ihss => rw [map, size, ihcs, ihss]; rfl

omit [DecidableEq α] in
theorem all_map {P : δ' → Prop} : (F.map g).All P ↔ F.All (P ∘ g) := by
  induction F with
  | nil => rfl
  | cons k e d cs ss ihcs ihss => rw [map, All, ihcs, ihss]; rfl

theorem dataAt_map (q : List α) : (F.map g).dataAt q = (F.dataAt q).map g := by
  induction F generalizing q with
  | nil => rfl
  | cons k e d cs ss ihcs ihss =>
    rw [map, dataAt, dataAt]
    split
    · rfl
    · split
      · exact ihcs _
      · exact ihss _

theorem owned_map (f : δ' → Bool) : (F.map g).Owned K f = F.Owned K (f ∘ g) := by
  ext q
  refine and_congr .rfl ?_
  rw [dataAt_map]
  rcases F.dataAt q with _ | d <;> simp

/-- What an insertion leaves, with its data mapped. -/
def Inserted.map (g : δ → δ') (r : Inserted κ α δ) : Inserted κ α δ' :=
  ⟨r.forest.map g, r.added, r.created⟩

/-- Insertion that writes corresponding data makes corresponding forests. -/
theorem insert_map [DecidableEq κ] {fresh : δ} {touch finish : δ → δ} {isNew : δ → Bool}
    {touch' finish' : δ' → δ'} {isNew' : δ' → Bool} (htouch : ∀ d, g (touch d) = touch' (g d))
    (hfinish : ∀ d, g (finish d) = finish' (g d)) (hnew : ∀ d, isNew d = isNew' (g d))
    (F : Forest κ α δ) (p : List α) :
    (F.map g).insert K (g fresh) touch' finish' isNew' p =
      (F.insert K fresh touch finish isNew p).map g := by
  have hcredit : ∀ d n, credit isNew' (g d) n = credit isNew d n := fun d n => by
    rw [credit, credit, hnew]
  induction F generalizing p with
  | nil => rfl
  | cons k e d cs ss ihcs ihss =>
    simp only [map, insert, ihcs, ihss, ← htouch, ← hfinish, hcredit]
    split_ifs <;> rfl

end Map

end Smg.Forest
