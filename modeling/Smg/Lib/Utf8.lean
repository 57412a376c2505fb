import Mathlib.Data.List.Infix

/-!
# Strings and their bytes

A string of a program is a list of characters; what the program compares, searches and slices are
its UTF-8 bytes.  The two agree because the encoding is prefix-free and self-synchronising: the
bytes of a string are found among the bytes of another only where the string is found among its
characters.

## What is here

* `encode`, and `encode_prefix_iff`, `encode_suffix_iff`: a string begins or ends with another
  exactly if its bytes do;
* `exists_of_encode_eq`: **bytes of a string inside a text are characters of the text**;
* `isCharBoundary`, and `sliceTo`, `sliceFrom`, which fail where the slice would cut a character.
-/

set_option autoImplicit false

namespace Smg.Utf8

open List
open String (utf8EncodeChar)

def encode (s : List Char) : List UInt8 := s.flatMap utf8EncodeChar

@[simp] theorem encode_nil : encode [] = [] := rfl

@[simp] theorem encode_cons (c : Char) (s : List Char) :
    encode (c :: s) = utf8EncodeChar c ++ encode s := rfl

@[simp] theorem encode_append (s t : List Char) : encode (s ++ t) = encode s ++ encode t :=
  flatMap_append

variable {s : List Char}

theorem encode_eq_nil : encode s = [] ↔ s = [] := by
  rcases s with _ | ⟨c, s⟩
  · simp
  · simp

/-- A character can be read off its bytes, whatever follows. -/
theorem append_inj {x y : Char} {r r' : List UInt8}
    (h : utf8EncodeChar x ++ r = utf8EncodeChar y ++ r') : x = y ∧ r = r' := by
  have hx := @ByteArray.utf8DecodeChar?_utf8EncodeChar_append r.toByteArray x
  have hy := @ByteArray.utf8DecodeChar?_utf8EncodeChar_append r'.toByteArray y
  rw [← toByteArray_append, h, toByteArray_append, hy] at hx
  cases hx
  exact ⟨rfl, append_cancel_left h⟩

variable {p : List Char}

theorem encode_prefix_iff : encode p <+: encode s ↔ p <+: s := by
  induction p generalizing s with
  | nil => simp
  | cons x p ih =>
    constructor
    · rintro ⟨r, hr⟩
      rcases s with _ | ⟨y, s⟩
      · have := encode_eq_nil.mp (append_eq_nil_iff.mp hr).1
        cases this
      · rw [encode_cons, append_assoc] at hr
        obtain ⟨rfl, hrest⟩ := append_inj hr
        exact cons_prefix_cons.mpr ⟨rfl, ih.mp ⟨r, hrest⟩⟩
    · rintro ⟨r, rfl⟩
      exact ⟨encode r, by rw [encode_append]⟩

theorem eq_nil_of_first {c : Char} {u v : List UInt8} {b : UInt8} (hb : b.IsUTF8FirstByte)
    (h : utf8EncodeChar c = u ++ b :: v) : u = [] := by
  have hlt : u.length < (utf8EncodeChar c).length := by rw [h]; simp
  have hget : (utf8EncodeChar c)[u.length] = b := by simp [h]
  refine length_eq_zero_iff.mp ?_
  rw [← hget] at hb
  exact UInt8.isUTF8FirstByte_getElem_utf8EncodeChar.mp hb

theorem exists_first (c : Char) :
    ∃ b v, utf8EncodeChar c = b :: v ∧ b.IsUTF8FirstByte := by
  obtain ⟨b, v, h⟩ := exists_cons_of_ne_nil (@String.utf8EncodeChar_ne_nil c)
  have hfirst := @UInt8.isUTF8FirstByte_getElem_zero_utf8EncodeChar c
  simp only [h] at hfirst
  exact ⟨b, v, h, hfirst⟩

theorem exists_of_first {u v : List UInt8} {b : UInt8} (hb : b.IsUTF8FirstByte)
    (h : encode s = u ++ b :: v) : ∃ a r, s = a ++ r ∧ u = encode a ∧ b :: v = encode r := by
  induction s generalizing u with
  | nil => simp at h
  | cons c s ih =>
    rw [encode_cons] at h
    rcases append_eq_append_iff.mp h with ⟨w, hu, hrest⟩ | ⟨w, hc, hrest⟩
    · obtain ⟨a, r, rfl, rfl, hr⟩ := ih hrest
      exact ⟨c :: a, r, rfl, hu, hr⟩
    -- otherwise the character `c` ends after `u`
    · rcases w with _ | ⟨b', w⟩
      · obtain ⟨a, r, rfl, ha, hr⟩ := @ih [] hrest.symm
        obtain rfl := encode_eq_nil.mp ha.symm
        exact ⟨[c], r, rfl, by simpa using hc.symm, hr⟩
      · cases hrest
        obtain rfl := eq_nil_of_first hb hc
        exact ⟨[], c :: s, rfl, rfl, by simp [hc]⟩

/-- **Bytes of a string inside a text are characters of the text.** -/
theorem exists_of_encode_eq {u v : List UInt8} (hp : p ≠ []) (h : encode s = u ++ encode p ++ v) :
    ∃ a b, s = a ++ p ++ b ∧ u = encode a ∧ v = encode b := by
  obtain ⟨c, p', rfl⟩ := exists_cons_of_ne_nil hp
  obtain ⟨b, w, hc, hb⟩ := exists_first c
  have h' : encode s = u ++ b :: (w ++ encode p' ++ v) := by simp [h, hc]
  obtain ⟨a, r, rfl, rfl, hr⟩ := exists_of_first hb h'
  have hpre : encode (c :: p') <+: encode r := ⟨v, by rw [← hr]; simp [hc]⟩
  obtain ⟨q, rfl⟩ := encode_prefix_iff.mp hpre
  refine ⟨a, q, by simp, rfl, ?_⟩
  rw [encode_append, encode_append, ← append_assoc] at h
  exact (append_cancel_left h).symm

theorem encode_suffix_iff : encode p <:+ encode s ↔ p <:+ s := by
  constructor
  · rintro ⟨u, hu⟩
    by_cases hp : p = []
    · subst hp
      exact nil_suffix
    · have h : encode s = u ++ encode p ++ [] := by rw [append_nil, hu]
      obtain ⟨a, b, rfl, -, hb⟩ := exists_of_encode_eq hp h
      obtain rfl := encode_eq_nil.mp hb.symm
      exact ⟨a, by simp⟩
  · rintro ⟨a, rfl⟩
    exact ⟨encode a, by rw [encode_append]⟩

theorem encode_infix_iff : encode p <:+: encode s ↔ p <:+: s := by
  constructor
  · rintro ⟨u, v, h⟩
    by_cases hp : p = []
    · subst hp
      exact nil_infix
    · obtain ⟨a, b, hs, -, -⟩ := exists_of_encode_eq hp h.symm
      exact ⟨a, b, hs.symm⟩
  · rintro ⟨a, b, rfl⟩
    exact ⟨encode a, encode b, by simp⟩

theorem length_encode_le {q : List Char} (h : p <:+ q) : (encode p).length ≤ (encode q).length := by
  obtain ⟨a, rfl⟩ := h
  simp

/-! ## Boundaries and slices -/

/-- The byte at `n` is the first of a character, or `n` is the end of the string. -/
def isCharBoundary (s : List Char) (n : Nat) : Bool :=
  n = 0 || n = (encode s).length || (encode s)[n]?.any fun b => b.IsUTF8FirstByte

theorem isCharBoundary_iff {n : Nat} :
    isCharBoundary s n = true ↔ ∃ a b, s = a ++ b ∧ (encode a).length = n := by
  simp only [isCharBoundary, Bool.or_eq_true, decide_eq_true_eq]
  constructor
  · rintro ((rfl | rfl) | h)
    · exact ⟨[], s, rfl, rfl⟩
    · exact ⟨s, [], by simp, rfl⟩
    · obtain ⟨b, hb, hfirst⟩ := (Option.any_eq_true _ _).mp h
      obtain ⟨hn, rfl⟩ := List.getElem?_eq_some_iff.mp hb
      have hsplit : encode s = (encode s).take n ++ (encode s)[n] :: (encode s).drop (n + 1) := by
        rw [getElem_cons_drop, take_append_drop]
      obtain ⟨a, r, hs, ha, -⟩ := exists_of_first (of_decide_eq_true hfirst) hsplit
      exact ⟨a, r, hs, by rw [← ha, length_take_of_le hn.le]⟩
  · rintro ⟨a, b, rfl, rfl⟩
    rcases b with _ | ⟨c, b⟩
    · simp
    · obtain ⟨x, v, hc, hx⟩ := exists_first c
      simp [hc, hx]

/-- The characters of the first `n` bytes. -/
def sliceTo : List Char → Nat → Option (List Char)
  | _, 0 => some []
  | [], _ + 1 => none
  | c :: s, n + 1 =>
    if (utf8EncodeChar c).length ≤ n + 1 then
      (sliceTo s (n + 1 - (utf8EncodeChar c).length)).map (c :: ·)
    else none

/-- The characters after the first `n` bytes. -/
def sliceFrom : List Char → Nat → Option (List Char)
  | s, 0 => some s
  | [], _ + 1 => none
  | c :: s, n + 1 =>
    if (utf8EncodeChar c).length ≤ n + 1 then
      sliceFrom s (n + 1 - (utf8EncodeChar c).length)
    else none

/-- A character has bytes. -/
theorem exists_length_cons (c : Char) (a : List Char) :
    ∃ w, (utf8EncodeChar c).length = w + 1 ∧
      (encode (c :: a)).length = w + (encode a).length + 1 := by
  obtain ⟨b, v, h, -⟩ := exists_first c
  refine ⟨v.length, by rw [h, length_cons], ?_⟩
  rw [encode_cons, length_append, h, length_cons]
  omega

@[simp] theorem slice_append (a b : List Char) :
    sliceTo (a ++ b) (encode a).length = some a ∧
      sliceFrom (a ++ b) (encode a).length = some b := by
  induction a with
  | nil => cases b <;> exact ⟨rfl, rfl⟩
  | cons c a ih =>
    obtain ⟨w, hw, hlen⟩ := exists_length_cons c a
    rw [hlen, cons_append, sliceTo, sliceFrom, hw, if_pos (by omega), if_pos (by omega),
      show w + (encode a).length + 1 - (w + 1) = (encode a).length by omega, ih.1]
    exact ⟨rfl, ih.2⟩

end Smg.Utf8
