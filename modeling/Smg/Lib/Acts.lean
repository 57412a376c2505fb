import Mathlib.Data.List.Basic

/-!
# Steps that emit

A step of a program that has a state and writes as it goes is a function `Act σ ε`: from the state
to the state after it and the effects it had, in order.  Steps compose by `Act.seq` and over a list
by `Act.each`.

A relation `R s (t, es)` between the state before, the state after and the effects is `Composable`
if it holds of doing nothing and survives concatenation; then `Act.Obeys R` of the parts gives it
of the whole (`Act.Obeys.seq`, `Act.Obeys.each`).
-/

set_option autoImplicit false

namespace Smg

/-- A step: the state after it, and the effects it had. -/
abbrev Act (σ ε : Type) := σ → σ × List ε

namespace Act

variable {σ ε α : Type}

def skip : Act σ ε := fun s => (s, [])

def seq (f g : Act σ ε) : Act σ ε :=
  fun s => ((g (f s).1).1, (f s).2 ++ (g (f s).1).2)

def each (f : α → Act σ ε) : List α → Act σ ε
  | [] => skip
  | a :: as => seq (f a) (each f as)

theorem each_append (f : α → Act σ ε) (as bs : List α) :
    each f (as ++ bs) = seq (each f as) (each f bs) := by
  induction as with
  | nil => rfl
  | cons a as ih =>
    funext s
    simp [each, ih, seq]

/-- A relation that holds of doing nothing and survives concatenation. -/
structure Composable (R : σ → σ × List ε → Prop) : Prop where
  nothing : ∀ s, R s (s, [])
  concat : ∀ {s : σ} {x y : σ × List ε}, R s x → R x.1 y → R s (y.1, x.2 ++ y.2)

/-- The relation holds between the state before and what the step makes of it, whatever state it
starts in. -/
def Obeys (R : σ → σ × List ε → Prop) (f : Act σ ε) : Prop := ∀ s, R s (f s)

variable {R : σ → σ × List ε → Prop}

theorem Obeys.skip (hR : Composable R) : Obeys R (Act.skip : Act σ ε) := hR.nothing

theorem Obeys.seq (hR : Composable R) {f g : Act σ ε} (hf : Obeys R f) (hg : Obeys R g) :
    Obeys R (Act.seq f g) :=
  fun s => hR.concat (hf s) (hg (f s).1)

theorem Obeys.each (hR : Composable R) {f : α → Act σ ε} {as : List α}
    (hf : ∀ a ∈ as, Obeys R (f a)) : Obeys R (Act.each f as) := by
  induction as with
  | nil => exact Obeys.skip hR
  | cons a as ih =>
    exact (hf a List.mem_cons_self).seq hR (ih fun b hb => hf b (List.mem_cons_of_mem a hb))

end Act

end Smg
