import Mathlib.Algebra.BigOperators.Group.List.Basic
import Smg.Lib.Trace

/-!
# Sequential processes over a shared state

Any number of processes take atomic steps on a state they share, in any order.  A process is its
program counter with its local variables; `Program.next` is one atomic step of one process, with a
choice that stands for everything the step does not decide itself (what a hook returns, whether a
lock is contended, whether a timer has fired).  Calls start new processes at any time.

Everything proved about such a system has one shape: an invariant of the shared state and of the
list of processes, in which a step replaces one element of the list.  `Program.invariant` is that
rule; the list is handed out as `L ++ p :: R`, so that what an invariant says about the processes (a
count, a sum, what they all satisfy) splits into what it says about `p` and about the rest.
-/

set_option autoImplicit false

namespace Smg

theorem exists_around {α : Type} {l : List α} {i : Nat} {a : α} (h : l[i]? = some a) :
    ∃ L R, l = L ++ a :: R ∧ ∀ b, l.set i b = L ++ b :: R := by
  obtain ⟨hi, rfl⟩ := getElem?_eq_some_iff.mp h
  refine ⟨l.take i, l.drop (i + 1), ?_, fun b => ?_⟩
  · rw [← List.drop_eq_getElem_cons hi, List.take_append_drop]
  · rw [List.set_eq_take_append_cons_drop, if_pos hi]

namespace Interleave

variable {σ π α β : Type}

/-- What processes do: where a call starts, and one step. -/
structure Program (σ π α β : Type) where
  /-- A call's first program counter. -/
  start : β → π
  next : σ → π → α → σ × π

/-- The shared state and the processes. -/
structure Net (σ π : Type) where
  /-- What all processes read and write. -/
  shared : σ
  /-- The processes, each at its program counter. -/
  procs : List π

/-- A call, or a step of a process. -/
inductive Act (α β : Type)
  | call (b : β)
  /-- The process at this index takes a step. -/
  | step (i : Nat) (a : α)

def Program.exec (P : Program σ π α β) (n : Net σ π) : Act α β → Net σ π
  | .call b => { n with procs := n.procs ++ [P.start b] }
  | .step i a =>
    match n.procs[i]? with
    | none => n
    | some p =>
      let (s, p') := P.next n.shared p a
      { shared := s, procs := n.procs.set i p' }

/-- **The invariant rule.**  What holds before any call, survives every call and survives every step
of one process among the others holds in every state reached. -/
theorem Program.invariant {P : Program σ π α β} {ok : Net σ π → Act α β → Prop} {n0 : Net σ π}
    {I : σ → List π → Prop} (h0 : I n0.shared n0.procs)
    (hcall : ∀ s ps b, ok ⟨s, ps⟩ (.call b) → I s ps → I s (ps ++ [P.start b]))
    (hstep : ∀ s L p R i a, (L ++ p :: R)[i]? = some p → ok ⟨s, L ++ p :: R⟩ (.step i a) →
      I s (L ++ p :: R) → I (P.next s p a).1 (L ++ (P.next s p a).2 :: R))
    {n : Net σ π} (h : Reaches P.exec ok n0 n) : I n.shared n.procs := by
  refine h.invariant (I := fun n => I n.shared n.procs) h0 fun n a hI hok => ?_
  rcases a with b | ⟨i, a⟩
  · exact hcall n.shared n.procs b hok hI
  · rw [Program.exec]
    cases hp : n.procs[i]? with
    | none => exact hI
    | some p =>
      obtain ⟨L, R, hl, hset⟩ := exists_around hp
      have hn : n = ⟨n.shared, L ++ p :: R⟩ := by rw [← hl]
      have := hstep n.shared L p R i a (hl ▸ hp) (hn ▸ hok) (hl ▸ hI)
      simpa only [hset] using this

/-- The invariant rule for an invariant of the shared state and one that every process has of it. -/
theorem Program.invariant_each {P : Program σ π α β} {ok : Net σ π → Act α β → Prop} {n0 : Net σ π}
    {G : σ → Prop} {S : σ → π → Prop} (h0 : G n0.shared)
    (hs0 : ∀ p ∈ n0.procs, S n0.shared p) (hcall : ∀ s b, S s (P.start b))
    (hstep : ∀ n i p a, n.procs[i]? = some p → ok n (.step i a) → G n.shared →
      (∀ q ∈ n.procs, S n.shared q) → G (P.next n.shared p a).1 ∧
        S (P.next n.shared p a).1 (P.next n.shared p a).2 ∧
        ∀ q ∈ n.procs, S (P.next n.shared p a).1 q)
    {n : Net σ π} (h : Reaches P.exec ok n0 n) :
    G n.shared ∧ ∀ p ∈ n.procs, S n.shared p := by
  refine h.invariant (I := fun n => G n.shared ∧ ∀ p ∈ n.procs, S n.shared p) ⟨h0, hs0⟩
    fun n a hI hok => ?_
  rcases a with b | ⟨i, a⟩
  · exact ⟨hI.1, List.forall_mem_append.mpr ⟨hI.2, List.forall_mem_singleton.mpr (hcall _ b)⟩⟩
  · rw [Program.exec]
    cases hp : n.procs[i]? with
    | none => exact hI
    | some p =>
      obtain ⟨hg, hp', hrest⟩ := hstep n i p a hp hok hI.1 hI.2
      refine ⟨hg, fun q hq => ?_⟩
      rcases List.mem_or_eq_of_mem_set hq with hq | rfl
      · exact hrest q hq
      · exact hp'

end Interleave
end Smg
