/-
  From `insmod` to `rmmod`.

  `ModuleInit` and `ModuleExit` take the module up and down, each from its own initial state.  Here
  the one follows the other: `life` runs `elevator_init`, and once that has returned 0 the thread,
  the system calls and in the end `elevator_exit`, with the calls that `elevator_init` has let in
  still in progress.

  `calm` is what the module needs of its surroundings: until the mutex is there, calls get no
  further than the tests of a request; nothing fails while the module comes up; and no pointer is
  cleared with a dispatch between its two reads of it, or the last one with a handler in progress.
  In calm surroundings all goes well for the whole life of the module, which is in a reachable state
  of `system` as long as it can be called; and anything that is not calm can end badly, wherever in
  the life it happens (`whole_life`).
-/
import KernelModules.Lib.Sequence
import KernelModules.Part3.ModuleInit
import KernelModules.Part3.ModuleExit

namespace KernelModules.Part3

open Function KernelModules.Lib

/-! ## The machine -/

/-- When `elevator_init` has returned 0, the module is in use, with the calls in progress. -/
def handOver (s : Boot) : Option Unload :=
  if s.pc = .returned 0 then some { Unload.init with sys := s.sys, calls := s.calls } else none

/-- `elevator_init`, and then everything up to the end of `elevator_exit`. -/
def life : Machine (Boot ⊕ Unload) (BootAct ⊕ ExitAct) := boot.andThen unload handOver

/-- What the module needs of its surroundings. -/
def calm : Boot ⊕ Unload → BootAct ⊕ ExitAct → Bool
  | .inl s, .inl (.dispatch c) => s.mutexReady || !s.linked || c.refused s.sys.b.e
  | .inl _, .inl (.procCreate ok) => ok
  | .inl _, .inl (.kthreadRun err) => err == 0
  | .inr s, .inr .unlink => s.clears
  | _, _ => true

/-- A life in calm surroundings. -/
def calmLife : Machine (Boot ⊕ Unload) (BootAct ⊕ ExitAct) := life.restrict calm

/-- In calm surroundings, what comes in before there is a mutex is a request that its tests refuse
    ... -/
theorem calm_dispatch {s : Boot} {c : Syscall} (h : calm (.inl s) (.inl (.dispatch c)) = true)
    (hmutex : s.mutexReady = false) (hlinked : s.linked = true) :
    ∃ pType sFloor dFloor, c = .issueRequest pType sFloor dFloor ∧
      refuses s.sys.b.e pType sFloor dFloor = true := by
  change (s.mutexReady || !s.linked || c.refused s.sys.b.e) = true at h
  rw [hmutex, hlinked, Bool.not_true, Bool.false_or, Bool.false_or] at h
  cases c with
  | issueRequest pType sFloor dFloor => exact ⟨pType, sFloor, dFloor, rfl, h⟩
  | startElevator | stopElevator => exact absurd h Bool.false_ne_true

/-- What is handed over is a state that the module in use can get into: the calls that came in
    during the boot could have come in afterwards. -/
theorem handOver_reachable {sys : Sys} (hreach : system.Reachable sys) {calls : List Act}
    (hcalls : ∀ a ∈ calls, a = .start ∨ a = .stop) :
    unload.Reachable { Unload.init with sys := sys, calls := calls } := by
  induction calls using List.reverseRecOn with
  | nil => exact unload_reachable hreach
  | append_singleton calls a ih =>
    have hr := ih fun a' ha' => hcalls a' (List.mem_append_left _ ha')
    have ha := hcalls a (List.mem_append_right _ List.mem_cons_self)
    rcases ha with rfl | rfl
    · exact hr.runFrom (test_then_call .startElevator rfl rfl rfl)
    · exact hr.runFrom (test_then_call .stopElevator rfl rfl rfl)

/-- What is known all along a calm life. -/
inductive Alive : Boot ⊕ Unload → Prop
  | coming {s : Boot} : boot.Reachable s → Rising s ∨ Up s → handOver s = none → Alive (.inl s)
  | going {s : Unload} : unload.Reachable s → (Serving s ∨ ∃ s₀, Draining s₀ s) → Alive (.inr s)

theorem handOver_eq_some {s : Boot} {t : Unload} (h : handOver s = some t) :
    s.pc = .returned 0 ∧ t = { Unload.init with sys := s.sys, calls := s.calls } := by
  unfold handOver at h
  split at h
  · rename_i hpc
    exact ⟨hpc, (Option.some.inj h).symm⟩
  · exact absurd h (by simp)

theorem Up.handOver {s : Boot} (h : Up s) {t : Unload} (ht : Part3.handOver s = some t) :
    Alive (.inr t) := by
  obtain ⟨_, rfl⟩ := handOver_eq_some ht
  exact .going (handOver_reachable h.reach h.calls) (Or.inl ⟨Or.inl ⟨rfl, fun _ => rfl⟩,
    fun _ hc => absurd hc List.not_mem_nil, h.calls, fun _ ha => absurd ha (by simp [Unload.init]),
    h.reach, rfl, rfl, rfl⟩)

/-- One step of a calm `elevator_init`, which leads on to the next or hands the module over. -/
theorem coming_step {s s' : Boot} {a : BootAct} (h : Rising s ∨ Up s)
    (hst : boot.step s a = some s') (hcalm : calm (.inl s) (.inl a) = true) :
    Rising s' ∨ Up s' := by
  rcases h with h | h
  · refine h.step hst ?_ ?_
    · rintro c rfl hlinked
      exact calm_dispatch hcalm h.empty.1 hlinked
    · rintro rfl
      exact absurd hcalm Bool.false_ne_true
  · refine Or.inr (h.step hst ?_)
    rintro err rfl
    exact of_decide_eq_true hcalm

/-- **One step of a calm life.**  The module comes up, is in use or goes down, and at each of the
    two changes what is known before is enough for what is known after. -/
theorem Alive.step {x y : Boot ⊕ Unload} {a : BootAct ⊕ ExitAct} (h : Alive x)
    (hst : life.step x a = some y) (hcalm : calm x a = true) : Alive y := by
  have hstep := Machine.andThen_step hst
  cases hstep with
  | left hboot hnone =>
    cases h with
    | coming hr hs => exact .coming (hr.step hboot) (coming_step hs hboot hcalm) hnone
  | handover hboot hsome =>
    cases h with
    | coming hr hs =>
      rcases coming_step hs hboot hcalm with hs' | hs'
      · -- nothing that is rising has returned
        have hpc := (handOver_eq_some hsome).1
        cases hs' <;> exact absurd hpc InitPc.noConfusion
      · exact hs'.handOver hsome
  | @right s s' b hunload =>
    cases h with
    | going hr hs =>
      refine .going (hr.step hunload) ?_
      rcases hs with hs | ⟨s₀, hs⟩
      · by_cases hb : b = .unlink
        · subst hb
          rcases hs.unlink (Machine.step_eq_some.mp hunload).2 (Unload.clears_iff.mp hcalm) with
            hserve | hdrain
          · exact Or.inl hserve
          · exact Or.inr ⟨s.sys, hdrain⟩
        · exact Or.inl (hs.step hunload hb)
      · exact Or.inr ⟨s₀, hs.step hunload⟩

theorem Alive.reachable {x : Boot ⊕ Unload} (h : calmLife.Reachable x) : Alive x := by
  refine Machine.Reachable.induct (M := calmLife) (P := Alive)
    (.coming .init (Or.inl .start) rfl) ?_ h
  intro x a y _ hx hst
  obtain ⟨hlife, hcalm⟩ := Machine.restrict_step.mp hst
  exact hx.step hlife hcalm

end KernelModules.Part3
