import Mathlib.Data.List.Basic

/-!
# Runs of a system that acts

A system is a function `exec : σ → α → σ`: what an action does to the state.  Nondeterminism is in
the choice of the next action, so a run is a sequence of actions.  `Reaches exec ok s₀ s` says that
`s` is the state after some run from `s₀` each of whose actions met the condition `ok` in the state
it was taken in; with `ok` always true it says `s` is reachable.

* `Reaches.invariant`: what holds at the start and survives every permitted action holds always;
* `reaches_foldl`: a list of permitted actions, executed, is a run.
-/

set_option autoImplicit false

namespace Smg

section Trace

variable {σ α : Type} {exec : σ → α → σ} {ok : σ → α → Prop} {s₀ : σ}

/-- The states reached by runs whose every action is permitted when it is taken. -/
inductive Reaches (exec : σ → α → σ) (ok : σ → α → Prop) (s₀ : σ) : σ → Prop
  | init : Reaches exec ok s₀ s₀
  | step {s : σ} (h : Reaches exec ok s₀ s) (a : α) (ha : ok s a) : Reaches exec ok s₀ (exec s a)

def anyAction : σ → α → Prop := fun _ _ => True

theorem Reaches.invariant {I : σ → Prop} (h0 : I s₀)
    (hs : ∀ (s : σ) (a : α), I s → ok s a → I (exec s a)) {s : σ} (h : Reaches exec ok s₀ s) :
    I s := by
  induction h with
  | init => exact h0
  | step _ a ha ih => exact hs _ a ih ha

/-- Every action of a list is permitted when its turn comes. -/
def AllOk (exec : σ → α → σ) (ok : σ → α → Prop) : σ → List α → Prop
  | _, [] => True
  | s, a :: as => ok s a ∧ AllOk exec ok (exec s a) as

variable {as : List α}

theorem Reaches.foldl {s : σ} (h : Reaches exec ok s₀ s) (has : AllOk exec ok s as) :
    Reaches exec ok s₀ (as.foldl exec s) := by
  induction as generalizing s with
  | nil => exact h
  | cons a as ih => exact ih (h.step a has.1) has.2

theorem reaches_foldl (h : AllOk exec ok s₀ as) : Reaches exec ok s₀ (as.foldl exec s₀) :=
  Reaches.init.foldl h

/-- Actions that are permitted in every state make a permitted list. -/
theorem allOk_of_forall (h : ∀ a ∈ as, ∀ s, ok s a) (s : σ) : AllOk exec ok s as := by
  induction as generalizing s with
  | nil => trivial
  | cons a as ih =>
    exact ⟨h a List.mem_cons_self s, ih (fun b hb => h b (List.mem_cons_of_mem _ hb)) (exec s a)⟩

theorem allOk_anyAction (exec : σ → α → σ) (s : σ) (as : List α) : AllOk exec anyAction s as :=
  allOk_of_forall (fun _ _ _ => trivial) s

end Trace

end Smg
