/-
  Direction and next floor across restarts.

  Every move phase that moves the cabin leaves `e.direction` and `e.next` in agreement, whatever
  they were before; `start_elevator` is the only writer that does not.  It resets the position to
  floor 0 with next floor 1 and keeps the direction of the sweep during which the elevator went
  offline, where `initElevator` sets it to 1 along with the other two.  So a run keeps the two
  fields in agreement throughout exactly when each of its restarts happens to find direction 1
  (`coherent_iff_upward_restarts`); `downwardRestart` is a run that does not.
-/
import KernelModules.Part3.Runs

namespace KernelModules.Part3

open Relation KernelModules.Lib

instance (e : Elevator) : Decidable (Coherent e) := inferInstanceAs (Decidable (_ ∧ _))

/-! ## Who writes the position -/

/-- A load phase does not touch the position, so wherever the cabin was on the sweep, it still
    is. -/
theorem LoadStep.at_chain {s s' : Sys} {x : Nat} (hst : ReflTransGen LoadStep s s')
    (h : At s.b.e x) : At s'.b.e x := by
  obtain ⟨hc, hn, hd, _⟩ := LoadStep.frame hst
  exact h.congr hc hn hd

/-- A move phase stays where it is or makes one step of the sweep. -/
theorem MoveStep.at_next {s s' : Sys} {x : Nat} (hst : MoveStep s s') (h : At s.b.e x) :
    ∃ y, At s'.b.e y := by
  cases hst with
  | rest => exact ⟨x, h⟩
  | idle => exact ⟨x, h.congr rfl rfl rfl⟩
  | goOffline => exact ⟨x, h.congr rfl rfl rfl⟩
  | advance => exact ⟨x + 1, moveCabin_at h⟩

/-- Of the calls, only a successful restart writes the position; it keeps the direction, so it
    lands on the sweep exactly if that is up. -/
theorem CallStep.at_next {s s' : Sys} {a : Act} {x : Nat} (hst : CallStep s a s')
    (h : At s.b.e x)
    (hrestart : a = .start → s.b.e.status = .offline → s.b.e.direction = 1) :
    ∃ y, At s'.b.e y := by
  cases hst with
  | refuse => exact ⟨x, h⟩
  | request => exact ⟨x, h⟩
  | insert => exact ⟨x, h.congr rfl rfl rfl⟩
  | start hoff => exact ⟨0, rfl, rfl, hrestart rfl hoff⟩
  | stop => exact ⟨x, h.congr rfl rfl rfl⟩

/-- Every step but a restart that finds direction 0 keeps the cabin on the sweep. -/
theorem at_step {s s' : Sys} {a : Act} {x : Nat} (hs : Sound s)
    (hst : loose.step s a = some s') (h : At s.b.e x)
    (hrestart : a = .start → s.b.e.status = .offline → s.b.e.direction = 1) :
    ∃ y, At s'.b.e y := by
  rcases step_cases hs hst with ⟨_, hst'⟩ | ⟨_, hst'⟩ | hst'
  · exact ⟨x, LoadStep.at_chain hst' h⟩
  · exact hst'.at_next h
  · exact hst'.at_next h hrestart

/-! ## Coherence along a run -/

/-- Every restart in the schedule finds the elevator heading up. -/
def UpwardRestarts (acts : List Act) : Prop :=
  ∀ pre t, pre ++ [Act.start] <+: acts → system.run pre = some t →
    t.b.e.status = .offline → t.b.e.direction = 1

theorem at_of_upwardRestarts {acts : List Act} (hup : UpwardRestarts acts) :
    ∀ pre t, pre <+: acts → system.run pre = some t → ∃ x, At t.b.e x := by
  refine Machine.prefix_invariant (M := system) ⟨0, At.init⟩ ?_
  rintro pre a s s' hpre hrun ⟨x, hx⟩ hst
  have hs := Sound.reachable (Machine.reachable_iff_run.mpr ⟨pre, loose_run_of_system hrun⟩)
  refine at_step hs (loose_step_of_system hst) hx ?_
  rintro rfl hoff
  exact hup pre s hpre hrun hoff

/-- **Direction coherence.**  Along a run of the module, direction and next floor agree in every
    state exactly when every successful `start_elevator` of the run finds `e.direction = 1`. -/
theorem coherent_iff_upward_restarts (acts : List Act) :
    (∀ pre t, pre <+: acts → system.run pre = some t → Coherent t.b.e) ↔ UpwardRestarts acts := by
  constructor
  · intro hcoh pre t hpre ht hoff
    -- the restart itself writes floor 0 and next floor 1, so agreement afterwards means up
    have hstep : system.run (pre ++ [Act.start])
        = some (startElevator .ok t).2 := by
      rw [Machine.run_concat, ht]
      rfl
    have hc := hcoh _ _ hpre hstep
    rw [startElevator, if_pos (by rfl), if_neg (not_not.mpr hoff)] at hc
    exact hc.1.mpr rfl
  · intro hup pre t hpre ht
    obtain ⟨x, hx⟩ := at_of_upwardRestarts hup pre t hpre ht
    exact hx.coherent

/-- A request from floor 10 brings the cabin to the top; it is stopped there, on its way down,
    and started again. -/
def downwardRestart : List Act :=
  [.start, .request 1 10 9, .insert ⟨0, .adult, 9, 8⟩]
    ++ (List.replicate 9 [Act.load, .move]).flatten ++ [.stop, .load, .move, .start]

theorem restart_keeps_stale_direction :
    ¬ ∀ s, system.Reachable s → Coherent s.b.e := by
  intro hall
  have h := hall _ (Machine.reachable_get (M := system) downwardRestart (by decide +kernel))
  exact absurd h (by decide +kernel)

end KernelModules.Part3
