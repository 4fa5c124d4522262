/-
  When an action can be delayed.

  An action `a` of a machine is to be taken before a schedule or after it.  If, wherever both `a`
  and the next action of the schedule can be taken, they can be taken in either order with results
  that look the same (`Diamond`), and if states that look the same take the same steps to states
  that look the same (`Blind`), then before and after are the same (`delay`).

  What the states look like is a function `view`; which actions the diamond is asked for may depend
  on the state, and the schedule is one of the machine restricted to them.
-/
import KernelModules.Lib.Sequence

namespace KernelModules.Lib.Machine

variable {σ α ω : Type} {M : Machine σ α} {view : σ → ω} {c : σ → α → Bool} {a : α}

/-- The machine does not see more of a reachable state than `view` does. -/
def Blind (M : Machine σ α) (view : σ → ω) : Prop :=
  ∀ s t a s', M.Reachable s → view s = view t → M.step s a = some s' →
    ∃ t', M.step t a = some t' ∧ view s' = view t'

/-- From reachable states, `a` commutes with every action that meets the condition. -/
def Diamond (M : Machine σ α) (view : σ → ω) (c : σ → α → Bool) (a : α) : Prop :=
  ∀ s b s₁ t₁, M.Reachable s → c s b = true → M.step s a = some s₁ → M.step s b = some t₁ →
    ∃ s₂ t₂, M.step s₁ b = some s₂ ∧ M.step t₁ a = some t₂ ∧ view s₂ = view t₂

/-- A machine that is blind to a difference stays so along a whole run, from what it can reach:
    what it does on the one side it does on the other. -/
theorem Blind.runFrom (h : M.Blind view) {s t s' : σ} {acts : List α} (hr : M.Reachable s)
    (hview : view s = view t) (hrun : M.runFrom s acts = some s') :
    ∃ t', M.runFrom t acts = some t' ∧ view s' = view t' := by
  induction acts generalizing s t with
  | nil =>
    obtain rfl := Option.some.inj hrun
    exact ⟨t, rfl, hview⟩
  | cons b acts ih =>
    rw [Machine.runFrom, Option.bind_eq_some_iff] at hrun
    obtain ⟨s₁, hs₁, hrest⟩ := hrun
    obtain ⟨t₁, ht₁, hview₁⟩ := h s t b s₁ hr hview hs₁
    rw [runFrom_cons ht₁]
    exact ih (hr.step hs₁) hview₁ hrest

/-- **Delaying an action.**  Where `a` can be taken at the beginning of a schedule that is
    indifferent to it, the schedule goes through with and without it, `a` can be taken at the end
    instead, and the results look the same. -/
theorem delay (hblind : M.Blind view) (hdiamond : M.Diamond view c a) {s s₁ u : σ} {mid : List α}
    (hr : M.Reachable s) (ha : M.step s a = some s₁)
    (hmid : (M.restrict c).runFrom s mid = some u) :
    ∃ s' t, M.runFrom s₁ mid = some s' ∧ M.step u a = some t ∧ view s' = view t := by
  induction mid generalizing s s₁ with
  | nil =>
    obtain rfl := Option.some.inj hmid
    exact ⟨s₁, s₁, rfl, ha, rfl⟩
  | cons b mid ih =>
    rw [Machine.runFrom, Option.bind_eq_some_iff] at hmid
    obtain ⟨t₁, ht₁, hrest⟩ := hmid
    obtain ⟨hb, hc⟩ := restrict_step.mp ht₁
    obtain ⟨s₂, t₂, hs₂, ht₂, hview⟩ := hdiamond s b s₁ t₁ hr hc ha hb
    -- the rest of the schedule, from where `a` comes second
    obtain ⟨s'', t, hs'', ht, hview''⟩ := ih (hr.step hb) ht₂ hrest
    obtain ⟨s', hs', hview'⟩ := hblind.runFrom ((hr.step hb).step ht₂) hview.symm hs''
    exact ⟨s', t, (runFrom_cons hs₂ mid).trans hs', ht, hview'.symm.trans hview''⟩

end KernelModules.Lib.Machine
