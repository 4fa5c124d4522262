/-
  Two machines that take the same actions.

  If a function on states takes one machine to another, step by step from the reachable states, it
  takes the runs of the first to the runs of the second (`run_map`): the second machine IS the
  first, seen through the function.
-/
import KernelModules.Lib.Machine

namespace KernelModules.Lib.Machine

variable {σ τ α : Type} {M : Machine σ α} {N : Machine τ α}

/-- **Functional refinement**, for whole runs. -/
theorem run_map (f : σ → τ) (hinit : N.init = f M.init)
    (hstep : ∀ s a, M.Reachable s → N.step (f s) a = (M.step s a).map f) (acts : List α) :
    N.run acts = (M.run acts).map f := by
  induction acts using List.reverseRecOn with
  | nil => exact congrArg some hinit
  | append_singleton acts a ih =>
    rw [run_concat, run_concat, ih]
    cases hrun : M.run acts with
    | none => rfl
    | some s => exact hstep s a (reachable_iff_run.mpr ⟨acts, hrun⟩)

end KernelModules.Lib.Machine
