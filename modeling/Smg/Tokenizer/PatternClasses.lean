import Smg.Tokenizer.PatternProgram

/-!
# What a class of a pattern holds

A class is a list of ranges and two sets of categories, and three things are made of it: a table for
ASCII and the answer above the Basic Multilingual Plane by searching the list, and a bitmap of the
plane by going through it.  The search halves the list, so it is right where both the beginnings and
the ends of the ranges ascend.  The parser sorts the ranges by their beginnings, which is not
enough: a range inside of one that begins before it breaks the order of the ends, and the search can
then miss what only the outer one covers.

`class_holds_listed` says where exactly, over any category tables in order: at a code point below or
above what the bitmap answers, in no category the class lists or takes out, that a range of the
class covers but none behind some range the search compares with and finds to end before it.
-/

set_option autoImplicit false

namespace Smg.Tokenizer

open Option

namespace Class

/-- Ranges in the order of their beginnings and of their ends. -/
def Ascending (ranges : List (Nat × Nat)) : Prop :=
  ranges.Pairwise fun r r' => r.1 ≤ r'.1 ∧ r.2 ≤ r'.2

def InRange (ranges : List (Nat × Nat)) (code : Nat) : Prop :=
  ∃ r ∈ ranges, r.1 ≤ code ∧ code ≤ r.2

def InCategory (tables : Tables) (categories : UInt16) (code : Nat) : Prop :=
  ∃ t ∈ tables, categories &&& t.1 ≠ 0 ∧ InRange t.2 code

/-- **What a class lists**: its ranges and categories, without those taken out, or all else. -/
def Lists (tables : Tables) (K : Class) (code : Nat) : Prop :=
  (K.negated = false) ↔ (InRange K.ranges code ∨ InCategory tables K.categories code) ∧
    ¬ InCategory tables K.without code

variable {ranges : List (Nat × Nat)} {tables : Tables} {K : Class}

theorem covers_iff {code : Nat} : covers ranges code = true ↔ InRange ranges code := by
  simp [covers, InRange]

instance (code : Nat) : Decidable (InRange ranges code) := decidable_of_iff _ covers_iff

/-- **The search passes by no code point that is covered**: at every range it compares with and
finds to end before the code point, one further on covers it if any does. -/
def Ahead (ranges : List (Nat × Nat)) (code : Nat) : Prop :=
  ∀ i ∈ probes (fun r => decide (r.2 < code)) ranges,
    (ranges[i]?).any (fun r => decide (r.2 < code)) → InRange ranges code →
      InRange (ranges.drop (i + 1)) code

instance (code : Nat) : Decidable (Ahead ranges code) :=
  inferInstanceAs (Decidable (∀ i ∈ _, _ → _ → _))

def Begun (ranges : List (Nat × Nat)) : Prop := ranges.Pairwise fun r r' => r.1 ≤ r'.1

theorem inRange_iff_getElem {code : Nat} : InRange ranges code ↔
    ∃ (j : Nat) (h : j < ranges.length), ranges[j].1 ≤ code ∧ code ≤ ranges[j].2 := by
  simp only [InRange, List.mem_iff_getElem]
  constructor
  · rintro ⟨_, ⟨j, hj, rfl⟩, hr⟩
    exact ⟨j, hj, hr⟩
  · rintro ⟨j, hj, hr⟩
    exact ⟨_, ⟨j, hj, rfl⟩, hr⟩

theorem inRange_drop_iff {code n : Nat} : InRange (ranges.drop n) code ↔
    ∃ (j : Nat) (h : j < ranges.length), n ≤ j ∧ ranges[j].1 ≤ code ∧ code ≤ ranges[j].2 := by
  simp only [inRange_iff_getElem, List.getElem_drop, List.length_drop]
  constructor
  · rintro ⟨j, hj, hr⟩
    exact ⟨n + j, by omega, by omega, hr⟩
  · rintro ⟨j, hj, hn, hr⟩
    exact ⟨j - n, by omega, by simpa [Nat.add_sub_cancel' hn] using hr⟩

/-- What the search finds is covered, by the range it stops at. -/
theorem inRanges_iff (code : Nat) : inRanges ranges code = true ↔
    ∃ h : partitionPoint (fun r => decide (r.2 < code)) ranges < ranges.length,
      ranges[partitionPoint (fun r => decide (r.2 < code)) ranges].1 ≤ code ∧
        code ≤ ranges[partitionPoint (fun r => decide (r.2 < code)) ranges].2 := by
  have hend := (partitionPoint_spec (fun r => decide (r.2 < code)) ranges).1
  rw [inRanges]
  by_cases h : partitionPoint (fun r => decide (r.2 < code)) ranges < ranges.length
  · simp only [List.getElem?_eq_getElem h, any_some, decide_eq_true_eq, decide_eq_false_iff_not,
      not_lt] at hend ⊢
    exact ⟨fun hle => ⟨h, hle, hend⟩, fun hle => hle.2.1⟩
  · simp [h]

/-- **The search finds what the ranges cover, just where it passes by no code point.** -/
theorem inRanges_iff_inRange_iff (h : Begun ranges) (code : Nat) :
    (inRanges ranges code = true ↔ InRange ranges code) ↔ Ahead ranges code := by
  rw [inRanges_iff]
  constructor
  · intro heq i hi hlt hin
    obtain ⟨hp, hcov⟩ := heq.mpr hin
    exact inRange_drop_iff.mpr ⟨_, hp, lt_partitionPoint_of_mem_probes hi hlt, hcov⟩
  · intro hahead
    refine ⟨fun ⟨hp, hcov⟩ => inRange_iff_getElem.mpr ⟨_, hp, hcov⟩, fun hin => ?_⟩
    obtain ⟨hend, hbegin⟩ := partitionPoint_spec (fun r => decide (r.2 < code)) ranges
    -- a range that covers the code stands at or behind the place where the search stops
    obtain ⟨j, hj, hle, hcov⟩ : ∃ (j : Nat) (h : j < ranges.length),
        partitionPoint (fun r => decide (r.2 < code)) ranges ≤ j ∧
          ranges[j].1 ≤ code ∧ code ≤ ranges[j].2 := by
      rcases hbegin with h0 | ⟨i, hi, hlt, heq⟩
      · rw [h0]
        obtain ⟨j, hj, hcov⟩ := inRange_iff_getElem.mp hin
        exact ⟨j, hj, Nat.zero_le j, hcov⟩
      · rw [heq]
        exact inRange_drop_iff.mp (hahead i hi hlt hin)
    have hp := lt_of_le_of_lt hle hj
    have hstart := List.pairwise_iff_getElem.mp h _ j hp hj
    refine ⟨hp, ?_, by simpa [List.getElem?_eq_getElem hp] using hend⟩
    rcases lt_or_eq_of_le hle with hlt | heq
    · exact (hstart hlt).trans hcov.1
    · simpa [heq] using hcov.1

theorem Ascending.begun (h : Ascending ranges) : Begun ranges := h.imp And.left

/-- In ranges that ascend, one that ends before the code point stands in front of those that cover
it. -/
theorem Ascending.ahead (h : Ascending ranges) (code : Nat) : Ahead ranges code := by
  intro i _ hlt hin
  obtain ⟨j, hj, hcov⟩ := inRange_iff_getElem.mp hin
  refine inRange_drop_iff.mpr ⟨j, hj, ?_, hcov⟩
  by_contra hji
  have hi : i < ranges.length := by
    by_contra hge
    simp [hge] at hlt
  have hends := List.pairwise_iff_getElem.mp h j i hj hi
  simp only [List.getElem?_eq_getElem hi, any_some, decide_eq_true_eq] at hlt
  rcases lt_or_eq_of_le (Nat.le_of_not_lt hji) with hlt' | rfl
  · have := (hends (by omega)).2
    omega
  · omega

theorem inCategories_iff (htables : ∀ t ∈ tables, Ascending t.2) {categories : UInt16}
    {code : Nat} :
    inCategories tables categories code = true ↔ InCategory tables categories code := by
  rw [inCategories, List.any_eq_true]
  refine exists_congr fun t => and_congr_right fun ht => ?_
  have hranges := (inRanges_iff_inRange_iff (htables t ht).begun code).mpr
    ((htables t ht).ahead code)
  simp [hranges]

theorem planeContains_iff (code : Nat) :
    planeContains tables K code = true ↔ Lists tables K code := by
  have hcat : ∀ categories,
      (tables.any fun t => categories &&& t.1 != 0 && covers t.2 code) = true ↔
      InCategory tables categories code := fun categories => by
    simp [InCategory, covers_iff]
  rw [planeContains, Lists, bne_iff_ne, ne_eq, Bool.eq_iff_iff, Bool.and_eq_true, Bool.or_eq_true,
    covers_iff, hcat, Bool.not_eq_true', ← Bool.not_eq_true, hcat]
  cases K.negated <;> simp

theorem not_inCategory_zero (code : Nat) : ¬ InCategory tables 0 code := by
  rintro ⟨t, -, hbit, -⟩
  exact hbit (by simp)

theorem containsSlow_iff (htables : ∀ t ∈ tables, Ascending t.2) (code : Nat) :
    containsSlow tables K code = true ↔ ((K.negated = false) ↔
      (inRanges K.ranges code = true ∨ InCategory tables K.categories code) ∧
        ¬ InCategory tables K.without code) := by
  have hzero := @not_inCategory_zero tables code
  have hlisted : (if !inRanges K.ranges code && K.categories != 0
      then inCategories tables K.categories code else inRanges K.ranges code) = true ↔
      inRanges K.ranges code = true ∨ InCategory tables K.categories code := by
    rw [← inCategories_iff htables]
    by_cases hc : K.categories = 0
    · simp [hc, inCategories_iff htables, hzero]
    · cases inRanges K.ranges code <;> simp [hc]
  have htaken : ∀ hit, (if hit && K.without != 0
      then !inCategories tables K.without code else hit) = true ↔
      hit = true ∧ ¬ InCategory tables K.without code := by
    intro hit
    rw [← inCategories_iff htables]
    by_cases hw : K.without = 0
    · simp [hw, inCategories_iff htables, hzero]
    · cases hit <;> simp [hw]
  have hbne : ∀ hit negated : Bool, (hit != negated) = true ↔ (negated = false ↔ hit = true) := by
    decide
  rw [← hlisted, ← htaken]
  exact hbne _ _

/-- Where the search through the ranges of a class does not decide, or passes by nothing. -/
def SearchRight (tables : Tables) (K : Class) (code : Nat) : Prop :=
  InCategory tables K.categories code ∨ InCategory tables K.without code ∨ Ahead K.ranges code

/-- **The search through a class is right just there.** -/
theorem containsSlow_iff_lists (htables : ∀ t ∈ tables, Ascending t.2) (h : Begun K.ranges)
    (code : Nat) : (containsSlow tables K code = true ↔ Lists tables K code) ↔
      SearchRight tables K code := by
  rw [containsSlow_iff htables, Lists, SearchRight, ← inRanges_iff_inRange_iff h]
  tauto

end Class

theorem Parser.Sorted.begun {K : Class} (h : Parser.Sorted K) : Class.Begun K.ranges := by
  refine List.Pairwise.imp (fun {r r'} hle => ?_) h
  simp [Parser.pairLe] at hle
  omega

theorem Pattern.sorted_of_parse {membership : Membership} {alphanumeric : Char → Bool} {depth : Nat}
    {pattern : Text} {p : Pattern}
    (h : Pattern.parse membership alphanumeric depth pattern = some p)
    {K : Class} (hK : K ∈ p.classes) : Parser.Sorted K := by
  simp only [Pattern.parse, bind_eq_bind, bind_eq_some_iff] at h
  obtain ⟨r, hr, hp⟩ := h
  have hadds := ((Parser.keeps depth).alternation _ _ hr).1.2 K
  grind

end Smg.Tokenizer
