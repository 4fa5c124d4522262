/-
  Code that is run one statement at a time.

  A statement acts on the state and says which statements come next, before the rest of the code:
  an assignment none, a branch those of one of its sides, a loop its body and itself.  What is left
  to run is therefore a list, and a statement that cannot be run is a fault.

  * `Does`  — the code runs to its end, and every statement on the way keeps what somebody outside
              may look at;
  * `Ends`  — the same, but for the LAST statement, which may do anything.

  `Ends` is what makes a critical section atomic for those outside: whenever they look before it is
  over, they see what they would have seen before it began.  `Ends.step` is the form in which a
  machine that runs the code statement by statement uses it.
-/
import Mathlib.Init

namespace KernelModules.Lib

variable {β ι : Type} {exec : ι → β → Option (β × List ι)} {keep : β → β → Prop}

section Definitions

variable (exec keep)

/-- The code runs from `b` to `b'`, and every statement keeps. -/
inductive Does : List ι → β → β → Prop
  | nil {b : β} : Does [] b b
  | cons {x : ι} {more rest : List ι} {b b₁ b' : β} : exec x b = some (b₁, more) → keep b b₁ →
      Does (more ++ rest) b₁ b' → Does (x :: rest) b b'

/-- The code runs from `b` to `b'`, and every statement but the last keeps. -/
inductive Ends : List ι → β → β → Prop
  | last {x : ι} {b b' : β} : exec x b = some (b', []) → Ends [x] b b'
  | more {x : ι} {more rest : List ι} {b b₁ b' : β} : exec x b = some (b₁, more) → keep b b₁ →
      Ends (more ++ rest) b₁ b' → Ends (x :: rest) b b'

end Definitions

/-! ## One piece of code after another -/

/-- Two pieces of code that keep are one that keeps.  The induction is on the first, whose
    statements bring their own before the rest. -/
theorem Does.append {xs ys : List ι} {b b₁ b₂ : β} (hxs : Does exec keep xs b b₁)
    (hys : Does exec keep ys b₁ b₂) : Does exec keep (xs ++ ys) b b₂ := by
  induction hxs with
  | nil => exact hys
  | cons hexec hkeep _ ih =>
    have hrest := ih hys
    rw [List.append_assoc] at hrest
    exact .cons hexec hkeep hrest

/-- Code that keeps may stand before code that keeps up to its last statement ... -/
theorem Does.ends_append {xs ys : List ι} {b b₁ b₂ : β} (hxs : Does exec keep xs b b₁)
    (hys : Ends exec keep ys b₁ b₂) : Ends exec keep (xs ++ ys) b b₂ := by
  induction hxs with
  | nil => exact hys
  | cons hexec hkeep _ ih =>
    have hrest := ih hys
    rw [List.append_assoc] at hrest
    exact .more hexec hkeep hrest

/-- ... and is such code itself, if there is any of it. -/
theorem Does.ends {xs : List ι} {b b' : β} (h : Does exec keep xs b b') (hne : xs ≠ []) :
    Ends exec keep xs b b' := by
  induction h with
  | nil => exact absurd rfl hne
  | @cons x more rest b b₁ b' hexec hkeep hrest ih =>
    by_cases hlast : more ++ rest = []
    · obtain ⟨rfl, rfl⟩ := List.append_eq_nil_iff.mp hlast
      cases hrest
      exact .last hexec
    · exact .more hexec hkeep (ih hlast)

/-! ## Where the code ends -/

theorem Ends.ne_nil {xs : List ι} {b b' : β} (h : Ends exec keep xs b b') : xs ≠ [] := by
  cases h <;> exact List.cons_ne_nil _ _

/-- **The next statement** of code that ends can be run.  Either it was the last, or it has kept and
    what is left ends in the same state. -/
theorem Ends.step {x : ι} {rest : List ι} {b b' : β} (h : Ends exec keep (x :: rest) b b') :
    ∃ b₁ more, exec x b = some (b₁, more) ∧ (more ++ rest = [] ∧ b₁ = b' ∨
      more ++ rest ≠ [] ∧ keep b b₁ ∧ Ends exec keep (more ++ rest) b₁ b') := by
  cases h with
  | last hexec => exact ⟨b', [], hexec, Or.inl ⟨rfl, rfl⟩⟩
  | more hexec hkeep hrest => exact ⟨_, _, hexec, Or.inr ⟨hrest.ne_nil, hkeep, hrest⟩⟩

/-- Code ends in one state only, for a statement leaves one state and one list of statements to
    come. -/
theorem Ends.unique {xs : List ι} {b b' b'' : β} (h : Ends exec keep xs b b')
    (h' : Ends exec keep xs b b'') : b' = b'' := by
  induction h with
  | last hexec =>
    obtain ⟨b₁, more, hexec', hcase⟩ := h'.step
    obtain ⟨rfl, rfl⟩ := Prod.mk.inj (Option.some.inj (hexec.symm.trans hexec'))
    rcases hcase with ⟨_, rfl⟩ | ⟨hne, _⟩
    · rfl
    · exact absurd rfl hne
  | more hexec _ hrest ih =>
    obtain ⟨b₁, more, hexec', hcase⟩ := h'.step
    obtain ⟨rfl, rfl⟩ := Prod.mk.inj (Option.some.inj (hexec.symm.trans hexec'))
    rcases hcase with ⟨hnil, _⟩ | ⟨_, _, hrest'⟩
    · exact absurd hnil hrest.ne_nil
    · exact ih hrest'

end KernelModules.Lib
