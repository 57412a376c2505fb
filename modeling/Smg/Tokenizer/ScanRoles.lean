import Mathlib.Data.Nat.Bitwise
import Smg.Lib.Utf8Cursor
import Smg.Tokenizer.PatternTree

/-!
# Role bits

`scan.rs`.  A scanner decides on a character by the classes it is in, each in a role of the
scanner's template.  `Roles` answers all of them in one read: a table of role bits for the ASCII
bytes, one for the code points of the Basic Multilingual Plane, kept by blocks that share equal
rows, and the classes themselves above the plane.  A character beyond ASCII is decoded from its
bytes in place.

`bitsAt_cons` says that whatever stands at a position, its role bits are those of its character and
its length is that of the character.  With it a scanner's position is what it has left to read, and
`runEnd`, `runEndMarked` are `dropWhile`.

Role bits are natural numbers: there are at most sixteen roles, and no bit is shifted out.  The
loops take the number of bytes of the text as a bound on their turns, which is never reached.
-/

set_option autoImplicit false

namespace Smg.Tokenizer

open Utf8 List
open UInt8 (ofNat lt_iff_toNat_lt)

abbrev Bits := Nat

namespace Bits

/-- The bits of a character that is in some of the classes. -/
def ofClasses (M : Membership) (classes : List Class) (c : Char) : Bits :=
  classes.zipIdx.foldl (fun bits K => if M.contains K.1 c then bits ||| 1 <<< K.2 else bits) 0

def has (bits mask : Bits) : Bool := bits &&& mask != 0

theorem has_shiftLeft (bits slot : Nat) : has bits (1 <<< slot) = bits.testBit slot := by
  rw [has, Nat.one_shiftLeft, Nat.and_two_pow]
  cases bits.testBit slot with
  | false => simp
  | true => simp

theorem has_or (bits a b : Bits) : has bits (a ||| b) = (has bits a || has bits b) := by
  rw [has, has, has, Nat.and_or_distrib_left, Bool.eq_iff_iff]
  simp only [bne_iff_ne, ne_eq, Nat.or_eq_zero_iff, Bool.or_eq_true]
  tauto

theorem testBit_ofClasses (M : Membership) (classes : List Class) (c : Char) (slot : Nat) :
    (ofClasses M classes c).testBit slot = (classes[slot]?).any fun K => M.contains K c := by
  rw [ofClasses]
  induction classes using reverseRecOn with
  | nil => simp
  | append_singleton classes K ih =>
    rw [zipIdx_append, foldl_append]
    generalize foldl _ 0 classes.zipIdx = bits at ih ⊢
    rcases lt_trichotomy slot classes.length with h | rfl | h
    · rw [getElem?_append_left h, ← ih]
      cases hK : M.contains K c <;>
        simp [hK, Nat.one_shiftLeft, h.ne']
    · have hnone : bits.testBit classes.length = false := by rw [ih]; simp
      cases hK : M.contains K c <;> simp [hK, hnone]
    · have hnone : bits.testBit slot = false := by
        rw [ih, getElem?_eq_none (by omega)]
        rfl
      rw [getElem?_eq_none (by simp; omega)]
      cases hK : M.contains K c <;>
        simp [hK, hnone, Nat.one_shiftLeft, h.ne]

end Bits

/-- The role tables of one scanner. -/
structure Roles where
  /-- The bits of the ASCII bytes; none beyond. -/
  bytes : List Bits
  /-- For each block of the plane, its row. -/
  blockRows : List Nat
  rows : List (List Bits)
  classes : List Class

namespace Roles

section Build

variable (M : Membership) (classes : List Class)

/-- The bits of a code point, none if it is not a character. -/
def bitsOfCode (code : Nat) : Bits :=
  if code.isValidChar then Bits.ofClasses M classes (Char.ofNat code) else 0

def blockBits (block : Nat) : List Bits :=
  (List.range 256).map fun low => bitsOfCode M classes (block * 256 + low)

/-- The row of a block: that of an equal one, or a new row. -/
def addBlock (tables : List Nat × List (List Bits)) (block : Nat) : List Nat × List (List Bits) :=
  let row := blockBits M classes block
  if row ∈ tables.2 then (tables.1 ++ [tables.2.idxOf row], tables.2)
  else (tables.1 ++ [tables.2.length], tables.2 ++ [row])

def planeTables : List Nat × List (List Bits) :=
  (List.range 256).foldl (addBlock M classes) ([], [])

/-- The tables of some classes, one for each role. -/
def build : Roles where
  bytes := (List.range 256).map fun code => if code < 128 then bitsOfCode M classes code else 0
  blockRows := (planeTables M classes).1
  rows := (planeTables M classes).2
  classes := classes

end Build

/-- The six bits of a continuation byte; a missing byte reads as zero. -/
def tailBits (bytes : List UInt8) (pos : Nat) : Nat := ((bytes[pos]?).getD 0).toNat &&& 0x3F

/-- The code point of a character beyond ASCII, from its bytes, and its length. -/
def decode (bytes : List UInt8) (pos : Nat) (lead : UInt8) : Nat × Nat :=
  let tail (i : Nat) : Nat := tailBits bytes (pos + i)
  if lead < 0xE0 then (((lead.toNat &&& 0x1F) <<< 6) ||| tail 1, 2)
  else if lead < 0xF0 then (((lead.toNat &&& 0x0F) <<< 12) ||| (tail 1 <<< 6) ||| tail 2, 3)
  else (((lead.toNat &&& 0x07) <<< 18) ||| (tail 1 <<< 12) ||| (tail 2 <<< 6) ||| tail 3, 4)

section Read

variable (M : Membership) (R : Roles) (text : Text)

/-- The bits of a character beyond ASCII, and its length. -/
def beyond (pos : Nat) (lead : UInt8) : Bits × Nat :=
  let (code, len) := decode (encode text) pos lead
  if code < 0x10000 then
    let row := (R.rows[(R.blockRows[code >>> 8]?).getD 0]?).getD []
    ((row[code &&& 0xFF]?).getD 0, len)
  else (bitsOfCode M R.classes code, len)

/-- The bits of the character at a position, and its length. -/
def bitsAt (pos : Nat) : Option (Bits × Nat) :=
  match (encode text)[pos]? with
  | none => none
  | some lead =>
    if lead < 0x80 then some ((R.bytes[lead.toNat]?).getD 0, 1) else some (R.beyond M text pos lead)

def runEndFrom (bit : Bits) : (turns pos : Nat) → Nat
  | 0, pos => pos
  | turns + 1, pos =>
    match R.bitsAt M text pos with
    | some (bits, len) => if bits.has bit then runEndFrom bit turns (pos + len) else pos
    | none => pos

def runEnd (pos : Nat) (bit : Bits) : Nat := R.runEndFrom M text bit (encode text).length pos

/-- The end of the run of characters with a bit, and that of its last character with another. -/
def runEndMarkedFrom (bit marked : Bits) : (turns pos : Nat) → (last : Option Nat) →
    Nat × Option Nat
  | 0, pos, last => (pos, last)
  | turns + 1, pos, last =>
    match R.bitsAt M text pos with
    | some (bits, len) =>
      if bits.has bit then
        runEndMarkedFrom bit marked turns (pos + len)
          (if bits.has marked then some (pos + len) else last)
      else (pos, last)
    | none => (pos, last)

def runEndMarked (pos : Nat) (bit marked : Bits) : Nat × Option Nat :=
  R.runEndMarkedFrom M text bit marked (encode text).length pos none

end Read

/-! ## The tables -/

section Tables

variable {M : Membership} {classes : List Class}

/-- The tables of the first blocks read back what the blocks hold. -/
structure Reads (M : Membership) (classes : List Class) (n : Nat)
    (tables : List Nat × List (List Bits)) : Prop where
  length_eq : tables.1.length = n
  row : ∀ b, b < n → ∃ r, tables.1[b]? = some r ∧ tables.2[r]? = some (blockBits M classes b)

theorem Reads.addBlock {n : Nat} {tables : List Nat × List (List Bits)}
    (h : Reads M classes n tables) : Reads M classes (n + 1) (addBlock M classes tables n) := by
  have hold : ∀ (r : Nat) (rows : List (List Bits)) (b : Nat), b < n → ∃ r',
      (tables.1 ++ [r])[b]? = some r' ∧ (tables.2 ++ rows)[r']? = some (blockBits M classes b) := by
    intro r rows b hb
    obtain ⟨r', hr', hrow⟩ := h.row b hb
    obtain ⟨hlt, -⟩ := List.getElem?_eq_some_iff.mp hrow
    refine ⟨r', ?_, ?_⟩
    · rw [getElem?_append_left (h.length_eq.symm ▸ hb), hr']
    · rw [getElem?_append_left hlt, hrow]
  have hnew : ∀ r : Nat, (tables.1 ++ [r])[n]? = some r := fun r => by
    rw [← h.length_eq]
    simp
  simp only [Roles.addBlock]
  split
  next hmem =>
    refine ⟨by simp [h.length_eq], fun b hb => ?_⟩
    rcases Nat.lt_succ_iff_lt_or_eq.mp hb with hb | rfl
    · obtain ⟨r', hr', hrow⟩ := hold (tables.2.idxOf (blockBits M classes n)) [] b hb
      exact ⟨r', hr', by simpa using hrow⟩
    · refine ⟨_, hnew _, ?_⟩
      have hlt := idxOf_lt_length_iff.mpr hmem
      rw [getElem?_eq_getElem hlt, getElem_idxOf]
  next hmem =>
    refine ⟨by simp [h.length_eq], fun b hb => ?_⟩
    rcases Nat.lt_succ_iff_lt_or_eq.mp hb with hb | rfl
    · exact hold _ _ b hb
    · exact ⟨_, hnew _, by simp⟩

theorem reads_blocks (n : Nat) :
    Reads M classes n ((range n).foldl (Roles.addBlock M classes) ([], [])) := by
  induction n with
  | zero => exact ⟨rfl, fun b hb => absurd hb (Nat.not_lt_zero b)⟩
  | succ n ih =>
    rw [range_succ, foldl_append]
    exact ih.addBlock

theorem reads_planeTables : Reads M classes 256 (planeTables M classes) := reads_blocks 256

theorem bitsOfCode_toNat (c : Char) :
    bitsOfCode M classes c.toNat = Bits.ofClasses M classes c := by
  have hvalid : c.toNat.isValidChar := c.valid
  rw [bitsOfCode, if_pos hvalid, Char.ofNat_toNat]

/-- Bits more at the low end. -/
theorem shiftLeft_or (a b i : Nat) (hb : b < 2 ^ i) : (a <<< i) ||| b = a * 2 ^ i + b := by
  rw [← Nat.shiftLeft_add_eq_or_of_lt hb, Nat.shiftLeft_eq]

theorem toNat_ofNat_of_lt {n : Nat} (hn : n < 256) : (ofNat n).toNat = n :=
  UInt8.toNat_ofNat_of_lt' hn

variable {pos : Nat}

theorem tailBits_eq {bytes : List UInt8} {x : Nat}
    (h : bytes[pos]? = some (ofNat (x % 64 + 128))) : tailBits bytes pos = x % 64 := by
  have hmask : x % 64 + 128 &&& 63 = (x % 64 + 128) % 64 :=
    Nat.and_two_pow_sub_one_eq_mod (x % 64 + 128) 6
  rw [tailBits, h, Option.getD_some, toNat_ofNat_of_lt (by omega)]
  omega

theorem decode_eq {bytes : List UInt8} {c : Char} {lead : UInt8} (hc : 128 ≤ c.toNat)
    (hlead : (String.utf8EncodeChar c)[0]? = some lead)
    (htail : ∀ i, i < size c → bytes[pos + i]? = (String.utf8EncodeChar c)[i]?) :
    decode bytes pos lead = (c.toNat, size c) := by
  have hmax : c.val.toNat < 1114112 := by
    rcases c.valid with h | h
    · exact h.trans (by decide)
    · exact h.2
  have hnat : c.toNat = c.val.toNat := rfl
  rw [hnat] at hc ⊢
  rw [size, String.utf8EncodeChar] at htail
  rw [size, String.utf8EncodeChar]
  rw [String.utf8EncodeChar] at hlead
  generalize c.val.toNat = v at hc hmax hlead htail ⊢
  rw [if_neg (show ¬ v ≤ 127 by omega)] at hlead htail ⊢
  split_ifs at hlead htail ⊢ with h2 h3
  · have h1 := tailBits_eq (htail 1 (by simp))
    obtain rfl := Option.some.inj hlead
    have hlt : ofNat (v / 64 % 32 + 192) < 0xE0 := by
      rw [lt_iff_toNat_lt, toNat_ofNat_of_lt (by omega)]
      change _ < 224
      omega
    have hbits : v / 64 % 32 + 192 &&& 31 = (v / 64 % 32 + 192) % 32 :=
      Nat.and_two_pow_sub_one_eq_mod (v / 64 % 32 + 192) 5
    simp only [decode, if_pos hlt, length_cons,
      toNat_ofNat_of_lt (show v / 64 % 32 + 192 < 256 by omega)]
    rw [shiftLeft_or _ _ _ (by omega)]
    congr 1
    omega
  · have h1 := tailBits_eq (htail 1 (by simp))
    have h2' := tailBits_eq (htail 2 (by simp))
    obtain rfl := Option.some.inj hlead
    have hle : ¬ ofNat (v / 4096 % 16 + 224) < 0xE0 := by
      rw [lt_iff_toNat_lt, toNat_ofNat_of_lt (by omega)]
      change ¬ _ < 224
      omega
    have hlt : ofNat (v / 4096 % 16 + 224) < 0xF0 := by
      rw [lt_iff_toNat_lt, toNat_ofNat_of_lt (by omega)]
      change _ < 240
      omega
    have hbits : v / 4096 % 16 + 224 &&& 15 = (v / 4096 % 16 + 224) % 16 :=
      Nat.and_two_pow_sub_one_eq_mod (v / 4096 % 16 + 224) 4
    simp only [decode, if_neg hle, if_pos hlt,
      toNat_ofNat_of_lt (show v / 4096 % 16 + 224 < 256 by omega), h1, length_cons]
    rw [Nat.or_assoc, shiftLeft_or (v / 64 % 64) _ _ (by omega), shiftLeft_or _ _ _ (by omega)]
    congr 1
    omega
  · have h1 := tailBits_eq (htail 1 (by simp))
    have h2' := tailBits_eq (htail 2 (by simp))
    have h3' := tailBits_eq (htail 3 (by simp))
    obtain rfl := Option.some.inj hlead
    have hle : ¬ ofNat (v / 262144 % 8 + 240) < 0xE0 := by
      rw [lt_iff_toNat_lt, toNat_ofNat_of_lt (by omega)]
      change ¬ _ < 224
      omega
    have hle' : ¬ ofNat (v / 262144 % 8 + 240) < 0xF0 := by
      rw [lt_iff_toNat_lt, toNat_ofNat_of_lt (by omega)]
      change ¬ _ < 240
      omega
    have hbits : v / 262144 % 8 + 240 &&& 7 = (v / 262144 % 8 + 240) % 8 :=
      Nat.and_two_pow_sub_one_eq_mod (v / 262144 % 8 + 240) 3
    simp only [decode, if_neg hle, if_neg hle',
      toNat_ofNat_of_lt (show v / 262144 % 8 + 240 < 256 by omega), h1, h2', length_cons]
    rw [Nat.or_assoc, Nat.or_assoc, shiftLeft_or (v / 64 % 64) _ _ (by omega),
      shiftLeft_or (v / 4096 % 64) _ _ (by omega), shiftLeft_or _ _ _ (by omega)]
    congr 1
    omega

theorem bitsAt_cons {text rest : Text} {c : Char} (h : Stands text pos (c :: rest)) :
    (build M classes).bitsAt M text pos = some (Bits.ofClasses M classes c, size c) := by
  have hbytes : ∀ i, i < size c → (encode text)[pos + i]? = (String.utf8EncodeChar c)[i]? := by
    intro i hi
    rw [h.getElem?, encode_cons, getElem?_append_left hi]
  have hpos := hbytes 0 (size_pos c)
  rw [add_zero] at hpos
  rcases lt_or_ge c.toNat 128 with hc | hc
  · obtain ⟨hnat, hascii⟩ := ascii_byte hc
    have hentry : (build M classes).bytes[c.toNat]? = some (Bits.ofClasses M classes c) := by
      rw [← bitsOfCode_toNat, build, getElem?_map, getElem?_range (by omega),
        Option.map_some, if_pos hc]
    simp [bitsAt, hpos, hascii, hnat, hentry, size, encode_of_lt hc]
  · obtain ⟨lead, v, hcons, hlead⟩ := exists_lead_of_le hc
    rw [hcons, getElem?_cons_zero] at hpos
    have hdecode := decode_eq hc (by rw [hcons, getElem?_cons_zero]) hbytes
    simp only [bitsAt, hpos, if_neg hlead, beyond, hdecode]
    split
    next hplane =>
      have hblock : c.toNat >>> 8 < 256 := by
        omega
      obtain ⟨r, hr, hrow⟩ := (@reads_planeTables M classes).row _ hblock
      have hlow : c.toNat &&& 0xFF = c.toNat % 256 := Nat.and_two_pow_sub_one_eq_mod c.toNat 8
      have hcode : c.toNat / 256 * 256 + c.toNat % 256 = c.toNat := Nat.div_add_mod' _ _
      have hentry : (blockBits M classes (c.toNat >>> 8))[c.toNat % 256]? =
          some (Bits.ofClasses M classes c) := by
        rw [blockBits, getElem?_map, getElem?_range (Nat.mod_lt _ (by omega)),
          Option.map_some, Nat.shiftRight_eq_div_pow, hcode, bitsOfCode_toNat]
      simp [build, hr, hrow, hlow, hentry]
    next => rw [← bitsOfCode_toNat]; rfl

theorem bitsAt_nil {text : Text} {R : Roles} (h : Stands text pos []) :
    R.bitsAt M text pos = none := by
  have hbyte := h.getElem? 0
  rw [add_zero] at hbyte
  simp [bitsAt, hbyte]

end Tables

end Roles

end Smg.Tokenizer
