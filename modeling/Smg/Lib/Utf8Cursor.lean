import Smg.Lib.Utf8

/-!
# Walking a string by byte positions

A scanner keeps a byte position and moves it by whole characters, forwards by the length of the
character it reads and backwards to the last boundary.  `Stands text pos rest` says what such a
position is: the characters of `text` from byte `pos` on are `rest`.  Everything a scanner does with
its position is then a statement about `rest`.
-/

set_option autoImplicit false

namespace Smg.Utf8

open List

/-- The characters of the text from a byte position on. -/
def Stands (text : List Char) (pos : Nat) (rest : List Char) : Prop :=
  ∃ before, text = before ++ rest ∧ (encode before).length = pos

def offset (text rest : List Char) : Nat := (encode text).length - (encode rest).length

abbrev size (c : Char) : Nat := (String.utf8EncodeChar c).length

variable {text rest : List Char} {pos : Nat} {c : Char}

theorem stands_start (text : List Char) : Stands text 0 text := ⟨[], rfl, rfl⟩

theorem Stands.offset_eq (h : Stands text pos rest) : offset text rest = pos := by
  obtain ⟨before, rfl, rfl⟩ := h
  simp [offset]

theorem Stands.suffix (h : Stands text pos rest) : rest <:+ text := by
  obtain ⟨before, rfl, -⟩ := h
  exact suffix_append before rest

theorem stands_offset (h : rest <:+ text) : Stands text (offset text rest) rest := by
  obtain ⟨before, rfl⟩ := h
  exact ⟨before, rfl, by simp [offset]⟩

theorem Stands.next (h : Stands text pos (c :: rest)) : Stands text (pos + size c) rest := by
  obtain ⟨before, rfl, rfl⟩ := h
  exact ⟨before ++ [c], by simp, by simp⟩

theorem Stands.length_eq (h : Stands text pos rest) :
    pos + (encode rest).length = (encode text).length := by
  obtain ⟨before, rfl, rfl⟩ := h
  simp

/-- The bytes from a position on are those of the rest. -/
theorem Stands.getElem? (h : Stands text pos rest) (i : Nat) :
    (encode text)[pos + i]? = (encode rest)[i]? := by
  obtain ⟨before, rfl, rfl⟩ := h
  rw [encode_append, getElem?_append_right (Nat.le_add_right _ _), Nat.add_sub_cancel_left]

theorem size_pos (c : Char) : 0 < size c := length_pos_iff.mpr String.utf8EncodeChar_ne_nil

theorem Stands.lt_iff (h : Stands text pos rest) : pos < (encode text).length ↔ rest ≠ [] := by
  have hlen := h.length_eq
  rw [Ne, ← encode_eq_nil, ← length_eq_zero_iff]
  omega

/-! ## Forwards -/

/-- The character at a byte position, and its length. -/
def nextChar (text : List Char) (pos : Nat) : Option (Char × Nat) :=
  match (encode text)[pos]? with
  | none => none
  | some byte =>
    if byte < 0x80 then some (Char.ofNat byte.toNat, 1)
    else ((sliceFrom text pos).bind List.head?).map fun c => (c, size c)

/-- A character that begins with an ASCII byte is that byte. -/
theorem encode_of_lt (hc : c.toNat < 128) : String.utf8EncodeChar c = [UInt8.ofNat c.toNat] := by
  have hval : c.val.toNat ≤ 127 := Nat.le_of_lt_succ hc
  rw [String.utf8EncodeChar, if_pos hval]
  rfl

theorem ascii_byte (hc : c.toNat < 128) :
    (UInt8.ofNat c.toNat).toNat = c.toNat ∧ UInt8.ofNat c.toNat < 0x80 := by
  have hnat : (UInt8.ofNat c.toNat).toNat = c.toNat :=
    UInt8.toNat_ofNat_of_lt' (hc.trans (by decide))
  rw [UInt8.lt_iff_toNat_lt, hnat]
  exact ⟨rfl, hc⟩

theorem exists_lead_of_le (hc : 128 ≤ c.toNat) :
    ∃ b v, String.utf8EncodeChar c = b :: v ∧ ¬ b < 0x80 := by
  have hval : ¬ c.val.toNat ≤ 127 := not_le.mpr hc
  rw [String.utf8EncodeChar, if_neg hval]
  have hlead : ∀ n : Nat, 128 ≤ n → n < 256 → ¬ UInt8.ofNat n < 0x80 := by
    intro n hn hlt
    rw [UInt8.lt_iff_toNat_lt, UInt8.toNat_ofNat_of_lt' hlt]
    exact not_lt.mpr hn
  split_ifs
  · exact ⟨_, _, rfl, hlead _ (by omega) (by omega)⟩
  · exact ⟨_, _, rfl, hlead _ (by omega) (by omega)⟩
  · exact ⟨_, _, rfl, hlead _ (by omega) (by omega)⟩

theorem Stands.nextChar_cons (h : Stands text pos (c :: rest)) :
    nextChar text pos = some (c, size c) := by
  have hbyte := h.getElem? 0
  rw [Nat.add_zero, encode_cons] at hbyte
  rcases lt_or_ge c.toNat 128 with hc | hc
  · obtain ⟨hnat, hascii⟩ := ascii_byte hc
    rw [nextChar, hbyte]
    simp only [singleton_append, getElem?_cons_zero, if_pos hascii, hnat,
      Char.ofNat_toNat, size, encode_of_lt hc, length_singleton]
  · obtain ⟨b, v, hb, hlead⟩ := exists_lead_of_le hc
    rw [hb] at hbyte
    obtain ⟨before, rfl, rfl⟩ := h
    rw [nextChar, hbyte]
    simp [if_neg hlead]

theorem Stands.nextChar_nil (h : Stands text pos []) : nextChar text pos = none := by
  have hbyte := h.getElem? 0
  rw [Nat.add_zero] at hbyte
  simp [nextChar, hbyte]

/-! ## Backwards -/

def previousBoundary (text : List Char) : (pos : Nat) → Nat
  | 0 => 0
  | pos + 1 => if isCharBoundary text pos then pos else previousBoundary text pos

/-- Between two positions of one character there is no boundary. -/
theorem previousBoundary_eq {p q : Nat} (hp : isCharBoundary text p = true) (hlt : p < q)
    (hno : ∀ i, p < i → i < q → isCharBoundary text i = false) : previousBoundary text q = p := by
  induction q with
  | zero => omega
  | succ q ih =>
    rw [previousBoundary]
    rcases lt_or_ge p q with h | h
    · rw [hno q h (Nat.lt_succ_self q), if_neg Bool.false_ne_true,
        ih h fun i hi hiq => hno i hi (by omega)]
    · obtain rfl : p = q := by omega
      rw [hp, if_pos rfl]

theorem Stands.previousBoundary (h : Stands text pos (c :: rest)) :
    previousBoundary text (pos + size c) = pos := by
  obtain ⟨before, rfl, rfl⟩ := h
  refine previousBoundary_eq (isCharBoundary_iff.mpr ⟨before, c :: rest, rfl, rfl⟩)
    (Nat.lt_add_of_pos_right (size_pos c)) fun i hi hlt => ?_
  by_contra hb
  obtain ⟨a, b, hab, rfl⟩ := isCharBoundary_iff.mp (Bool.not_eq_false _ ▸ hb)
  -- a boundary strictly inside of the character would end a prefix between the two
  rcases append_eq_append_iff.mp hab with ⟨d, rfl, hd⟩ | ⟨d, rfl, -⟩
  · rcases d with _ | ⟨x, d⟩
    · simp at hi
    · obtain ⟨rfl, -⟩ := cons_eq_cons.mp hd
      simp only [encode_append, encode_cons, length_append, size] at hlt
      omega
  · simp only [encode_append, length_append] at hi
    omega

end Smg.Utf8
