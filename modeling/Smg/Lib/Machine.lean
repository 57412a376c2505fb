/-!
# Machines that stop

A machine is a step function: a step leads to another state or to an answer.  `Ends` says that the
machine stops, and with which answer; `runFor` is the machine with a bound on its steps, which is
what can be executed.
-/

set_option autoImplicit false

namespace Smg.Machine

variable {σ ρ : Type}

/-- The machine stops with an answer. -/
inductive Ends (step : σ → σ ⊕ ρ) : σ → ρ → Prop
  | last {s : σ} {r : ρ} : step s = .inr r → Ends step s r
  /-- After this step the machine stops with the answer. -/
  | next {s s' : σ} {r : ρ} : step s = .inl s' → Ends step s' r → Ends step s r

/-- The answer, if the machine has it within `fuel` steps. -/
def runFor (step : σ → σ ⊕ ρ) : (fuel : Nat) → σ → Option ρ
  | 0, _ => none
  | fuel + 1, s =>
    match step s with
    | .inl s' => runFor step fuel s'
    | .inr r => some r

variable {step : σ → σ ⊕ ρ} {s : σ} {r : ρ}

/-- A machine that stops gives its answer with enough fuel. -/
theorem Ends.exists_runFor (h : Ends step s r) :
    ∃ N, ∀ fuel, N ≤ fuel → runFor step fuel s = some r := by
  induction h with
  | last hstep =>
    refine ⟨1, fun fuel hfuel => ?_⟩
    obtain ⟨fuel, rfl⟩ := Nat.exists_eq_add_of_le' hfuel
    simp [runFor, hstep]
  | next hstep _ ih =>
    obtain ⟨N, hN⟩ := ih
    refine ⟨N + 1, fun fuel hfuel => ?_⟩
    obtain ⟨fuel, rfl⟩ := Nat.exists_eq_add_of_le' (Nat.le_trans (Nat.le_add_left 1 N) hfuel)
    rw [runFor, hstep]
    exact hN fuel (Nat.le_of_succ_le_succ hfuel)

end Smg.Machine
