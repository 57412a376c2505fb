import Mathlib.Data.List.Basic
import Mathlib.Data.List.Induction
import Mathlib.Tactic.Ring

/-!
# Binary formats that read back what they wrote

A `Codec α` writes values as bytes and reads a value off the front of a byte string, leaving the
rest.  It comes with its laws: how many bytes a value takes, that reading undoes writing, and that
what is read is exactly what would have been written.  A format is assembled from fixed-width
integers by the combinators below, and the laws come with it.
-/

set_option autoImplicit false

namespace Smg

open List Option

/-! ## Fixed-width integers -/

def beNat (bs : List UInt8) : Nat := bs.foldl (fun acc b => acc * 256 + b.toNat) 0

/-- A number modulo `256 ^ w` in `w` bytes, most significant first. -/
def beBytes : Nat → Nat → List UInt8
  | 0, _ => []
  | w + 1, n => beBytes w (n / 256) ++ [UInt8.ofNat n]

@[simp] theorem length_beBytes (w n : Nat) : (beBytes w n).length = w := by
  induction w generalizing n with
  | zero => rfl
  | succ w ih => simp [beBytes, ih]

theorem beNat_append_singleton (bs : List UInt8) (b : UInt8) :
    beNat (bs ++ [b]) = beNat bs * 256 + b.toNat := by
  simp [beNat]

theorem beNat_beBytes (w n : Nat) : beNat (beBytes w n) = n % 256 ^ w := by
  induction w generalizing n with
  | zero => simp [beBytes, beNat, Nat.mod_one]
  | succ w ih =>
    rw [beBytes, beNat_append_singleton, ih, pow_succ, mul_comm (256 ^ w) 256, Nat.mod_mul,
      UInt8.toNat_ofNat']
    omega

theorem beNat_lt (bs : List UInt8) : beNat bs < 256 ^ bs.length := by
  induction bs using reverseRecOn with
  | nil => simp [beNat]
  | append_singleton bs b ih =>
    have hb := b.toNat_lt
    rw [beNat_append_singleton, length_append, length_singleton]
    omega

theorem beBytes_beNat (bs : List UInt8) : beBytes bs.length (beNat bs) = bs := by
  induction bs using reverseRecOn with
  | nil => rfl
  | append_singleton bs b ih =>
    have hb := b.toNat_lt
    have hdiv : (beNat bs * 256 + b.toNat) / 256 = beNat bs := by omega
    have hmod : UInt8.ofNat (beNat bs * 256 + b.toNat) = b := by
      rw [← UInt8.toNat_inj, UInt8.toNat_ofNat']
      omega
    rw [length_append, length_singleton, beBytes, beNat_append_singleton, hdiv, hmod, ih]

/-- The order of an integer's bytes. -/
inductive Endian where
  | big
  | little
  deriving DecidableEq

def Endian.arrange : Endian → List UInt8 → List UInt8
  | big, bs => bs
  | little, bs => bs.reverse

@[simp] theorem Endian.arrange_arrange (e : Endian) (bs : List UInt8) :
    e.arrange (e.arrange bs) = bs := by
  cases e <;> simp [arrange]

@[simp] theorem Endian.length_arrange (e : Endian) (bs : List UInt8) :
    (e.arrange bs).length = bs.length := by
  cases e <;> simp [arrange]

/-! ## Codecs -/

/-- A binary format for `α`, with its laws. -/
structure Codec (α : Type) where
  /-- The number of bytes a value takes. -/
  size : α → Nat
  /-- The values that can be written faithfully. -/
  Valid : α → Prop
  write : α → List UInt8
  read : List UInt8 → Option (α × List UInt8)
  length_write : ∀ a, (write a).length = size a
  read_write : ∀ a rest, Valid a → read (write a ++ rest) = some (a, rest)
  /-- What is read is what would have been written. -/
  write_read : ∀ bs a rest, read bs = some (a, rest) → Valid a ∧ bs = write a ++ rest

namespace Codec

variable {α β : Type}

/-- Integers below `n` in `w` bytes. -/
def uint (e : Endian) (w n : Nat) (hn : n = 256 ^ w) : Codec (Fin n) where
  size _ := w
  Valid _ := True
  write a := e.arrange (beBytes w a.val)
  read bs :=
    if h : w ≤ bs.length then
      some (⟨beNat (e.arrange (bs.take w)), by
        have := beNat_lt (e.arrange (bs.take w))
        rw [e.length_arrange, List.length_take, Nat.min_eq_left h] at this
        exact hn ▸ this⟩, bs.drop w)
    else none
  length_write a := by simp
  read_write a rest _ := by
    have hl : (e.arrange (beBytes w a.val)).length = w := by simp
    have ht : (e.arrange (beBytes w a.val) ++ rest).take w = e.arrange (beBytes w a.val) :=
      List.take_left' hl
    have hd : (e.arrange (beBytes w a.val) ++ rest).drop w = rest := List.drop_left' hl
    have ha : a.val % 256 ^ w = a.val := Nat.mod_eq_of_lt (hn ▸ a.isLt)
    rw [dif_pos (by simp)]
    simp only [ht, hd, e.arrange_arrange, beNat_beBytes, ha]
  write_read bs a rest h := by
    split at h
    · rename_i hw
      cases h
      refine ⟨trivial, ?_⟩
      have hl : (e.arrange (bs.take w)).length = w := by simp [hw]
      have hb := beBytes_beNat (e.arrange (bs.take w))
      rw [hl] at hb
      dsimp only
      rw [hb, e.arrange_arrange, List.take_append_drop]
    · cases h

def pair (c : Codec α) (d : Codec β) : Codec (α × β) where
  size p := c.size p.1 + d.size p.2
  Valid p := c.Valid p.1 ∧ d.Valid p.2
  write p := c.write p.1 ++ d.write p.2
  read bs := (c.read bs).bind fun (a, bs) => (d.read bs).map fun (b, bs) => ((a, b), bs)
  length_write p := by rw [List.length_append, c.length_write, d.length_write]
  read_write p rest h := by
    rw [List.append_assoc, c.read_write _ _ h.1, bind_some]
    dsimp only
    rw [d.read_write _ _ h.2, map_some]
  write_read bs p rest h := by
    obtain ⟨⟨a, bs'⟩, ha, hb⟩ := bind_eq_some_iff.mp h
    obtain ⟨⟨b, bs''⟩, hb, he⟩ := map_eq_some_iff.mp hb
    cases he
    obtain ⟨hva, rfl⟩ := c.write_read _ _ _ ha
    obtain ⟨hvb, rfl⟩ := d.write_read _ _ _ hb
    exact ⟨⟨hva, hvb⟩, by rw [List.append_assoc]⟩

def iso (c : Codec α) (f : α → β) (g : β → α) (hfg : ∀ b, f (g b) = b) (hgf : ∀ a, g (f a) = a) :
    Codec β where
  size b := c.size (g b)
  Valid b := c.Valid (g b)
  write b := c.write (g b)
  read bs := (c.read bs).map fun p => (f p.1, p.2)
  length_write b := c.length_write _
  read_write b rest h := by rw [c.read_write _ _ h, map_some, hfg]
  write_read bs b rest h := by
    obtain ⟨⟨a, bs'⟩, ha, he⟩ := map_eq_some_iff.mp h
    cases he
    rw [hgf]
    exact c.write_read _ _ _ ha

def tagged (tag : List UInt8) (c : Codec α) : Codec α where
  size a := tag.length + c.size a
  Valid := c.Valid
  write a := tag ++ c.write a
  read bs := if tag <+: bs then c.read (bs.drop tag.length) else none
  length_write a := by rw [List.length_append, c.length_write]
  read_write a rest h := by
    rw [List.append_assoc, if_pos (List.prefix_append _ _), List.drop_left, c.read_write _ _ h]
  write_read bs a rest h := by
    split at h
    · rename_i hp
      obtain ⟨t, rfl⟩ := hp
      rw [List.drop_left] at h
      obtain ⟨hv, rfl⟩ := c.write_read _ _ _ h
      exact ⟨hv, (List.append_assoc _ _ _).symm⟩
    · cases h

def option (c : Codec α) : Codec (Option α) where
  size o := 1 + o.elim 0 c.size
  Valid o := ∀ a ∈ o, c.Valid a
  write
    | none => [0]
    | some a => 1 :: c.write a
  read
    | [] => none
    | b :: bs =>
      if b = 0 then some (none, bs)
      else if b = 1 then (c.read bs).map fun p => (some p.1, p.2)
      else none
  length_write o := by
    cases o with
    | none => rfl
    | some a => simp [c.length_write, Nat.add_comm]
  read_write o rest h := by
    cases o with
    | none => rfl
    | some a => simp [c.read_write a rest (h a rfl)]
  write_read bs o rest h := by
    match bs with
    | [] => cases h
    | b :: bs =>
      dsimp only at h
      split at h
      · rename_i hb
        cases h
        exact ⟨by simp, by rw [hb]; rfl⟩
      · split at h
        · rename_i hb
          obtain ⟨⟨a, bs'⟩, ha, he⟩ := map_eq_some_iff.mp h
          cases he
          obtain ⟨hv, rfl⟩ := c.write_read _ _ _ ha
          exact ⟨fun a' ha' => (some.inj ha') ▸ hv, by rw [hb]; rfl⟩
        · cases h

/-- Read `n` values. -/
def readN (c : Codec α) : Nat → List UInt8 → Option (List α × List UInt8)
  | 0, bs => some ([], bs)
  | n + 1, bs => (c.read bs).bind fun (a, bs) => (c.readN n bs).map fun (l, bs) => (a :: l, bs)

variable (c : Codec α)

theorem readN_write {l : List α} (h : ∀ a ∈ l, c.Valid a) (rest : List UInt8) :
    c.readN l.length (l.flatMap c.write ++ rest) = some (l, rest) := by
  induction l with
  | nil => rfl
  | cons a l ih =>
    rw [length_cons, flatMap_cons, append_assoc, readN,
      c.read_write _ _ (h a mem_cons_self), bind_some]
    dsimp only
    rw [ih fun b hb => h b (mem_cons_of_mem _ hb), map_some]

theorem write_readN {n : Nat} {bs rest : List UInt8} {l : List α}
    (h : c.readN n bs = some (l, rest)) :
    l.length = n ∧ (∀ a ∈ l, c.Valid a) ∧ bs = l.flatMap c.write ++ rest := by
  induction n generalizing bs l with
  | zero =>
    cases h
    simp
  | succ n ih =>
    obtain ⟨⟨a, bs'⟩, ha, hb⟩ := bind_eq_some_iff.mp h
    obtain ⟨⟨l', bs''⟩, hl, he⟩ := map_eq_some_iff.mp hb
    cases he
    obtain ⟨hv, rfl⟩ := c.write_read _ _ _ ha
    obtain ⟨hlen, hvs, rfl⟩ := ih hl
    refine ⟨by simp [hlen], ?_, by simp⟩
    simpa using ⟨hv, hvs⟩

/-- A length in a format of its own, and that many values. -/
def listOf (len : Codec Nat) (c : Codec α) : Codec (List α) where
  size l := len.size l.length + (l.map c.size).sum
  Valid l := len.Valid l.length ∧ ∀ a ∈ l, c.Valid a
  write l := len.write l.length ++ l.flatMap c.write
  read bs := (len.read bs).bind fun (n, bs) => c.readN n bs
  length_write l := by
    simp [List.length_flatMap, c.length_write, len.length_write]
  read_write l rest h := by
    rw [List.append_assoc, len.read_write _ _ h.1, bind_some]
    exact c.readN_write h.2 rest
  write_read bs l rest h := by
    obtain ⟨⟨n, bs'⟩, hn, hl⟩ := bind_eq_some_iff.mp h
    obtain ⟨hv, rfl⟩ := len.write_read _ _ _ hn
    obtain ⟨rfl, hvs, rfl⟩ := c.write_readN hl
    exact ⟨⟨hv, hvs⟩, (List.append_assoc _ _ _).symm⟩

/-- Natural numbers below `256 ^ w` in `w` bytes. -/
def nat (e : Endian) (w : Nat) : Codec Nat where
  size _ := w
  Valid n := n < 256 ^ w
  write n := e.arrange (beBytes w n)
  read bs := ((uint e w (256 ^ w) rfl).read bs).map fun p => (p.1.val, p.2)
  length_write n := by simp
  read_write n rest h :=
    congrArg (Option.map fun p => (p.1.val, p.2))
      ((uint e w (256 ^ w) rfl).read_write ⟨n, h⟩ rest trivial)
  write_read bs n rest h := by
    obtain ⟨⟨a, bs'⟩, ha, he⟩ := Option.map_eq_some_iff.mp h
    cases he
    exact ⟨a.isLt, ((uint e w (256 ^ w) rfl).write_read _ _ _ ha).2⟩

/-- A length in `w` little-endian bytes, and that many values. -/
def list (w : Nat) (c : Codec α) : Codec (List α) := listOf (nat .little w) c

def readUnary : List UInt8 → Option (Nat × List UInt8)
  | [] => none
  | b :: bs =>
    if b = 0 then some (0, bs)
    else if b = 1 then (readUnary bs).map fun p => (p.1 + 1, p.2)
    else none

theorem readUnary_replicate (n : Nat) (rest : List UInt8) :
    readUnary (replicate n 1 ++ 0 :: rest) = some (n, rest) := by
  induction n with
  | zero => rfl
  | succ n ih =>
    rw [replicate_succ, cons_append, readUnary, if_neg (by decide), if_pos rfl, ih]
    rfl

theorem eq_of_readUnary {bs rest : List UInt8} {n : Nat} (h : readUnary bs = some (n, rest)) :
    bs = replicate n 1 ++ 0 :: rest := by
  induction bs generalizing n with
  | nil => cases h
  | cons b bs ih =>
    rw [readUnary] at h
    split at h
    · next hb =>
      cases h
      rw [hb]
      rfl
    · split at h
      · next hb =>
        obtain ⟨⟨m, bs'⟩, hm, he⟩ := map_eq_some_iff.mp h
        cases he
        rw [ih hm, hb]
        rfl
      · cases h

/-- Any natural number, as so many ones before a zero. -/
def unary : Codec Nat where
  size n := n + 1
  Valid _ := True
  write n := replicate n 1 ++ [0]
  read := readUnary
  length_write n := by simp
  read_write n rest _ := by simpa using readUnary_replicate n rest
  write_read bs n rest h := ⟨trivial, by simpa using eq_of_readUnary h⟩

/-- The first format for the values it can write, the second for the others, where the first reads
nothing that the second writes. -/
def orElse (c d : Codec α) (first : α → Bool) (hfirst : ∀ a, first a = true ↔ c.Valid a)
    (hc : ∀ a rest, c.read (d.write a ++ rest) = none) : Codec α where
  size a := if first a then c.size a else d.size a
  Valid a := c.Valid a ∨ d.Valid a
  write a := if first a then c.write a else d.write a
  read bs := (c.read bs).or ((d.read bs).filter fun p => !first p.1)
  length_write a := by split <;> simp [c.length_write, d.length_write]
  read_write a rest h := by
    split
    · next ha => rw [c.read_write _ _ ((hfirst a).mp ha), some_or]
    · next ha =>
      have hv : d.Valid a := h.resolve_left fun hv => ha ((hfirst a).mpr hv)
      rw [hc, d.read_write _ _ hv, none_or]
      simp [ha]
  write_read bs a rest h := by
    rcases or_eq_some_iff.mp h with h | ⟨-, h⟩
    · obtain ⟨hv, rfl⟩ := c.write_read _ _ _ h
      exact ⟨.inl hv, by rw [if_pos ((hfirst a).mpr hv)]⟩
    · obtain ⟨h, hno⟩ := filter_eq_some_iff.mp h
      obtain ⟨hv, rfl⟩ := d.write_read _ _ _ h
      exact ⟨.inr hv, by simp_all⟩

end Codec

end Smg
