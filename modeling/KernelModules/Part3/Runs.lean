/-
  Runs: the invariant rule of the machine, and the thread's iterations as a total function.

  `step_cases` is the one inversion of the machine's step: a load phase, a move phase or a call.
  From it come the two rules by which every later invariant is
  proved — `loose_invariant`, for the phases in any order, and `system_invariant`, where a move
  phase may assume that the thread is due to move.

  A sound state cannot fault, so on the subtype `SoundSys` the thread's loop is a total function
  `turn`, and `n` turns with no call in between are `turn^[n]` (`iterations_eq`).
-/
import KernelModules.Part3.Loops

namespace KernelModules.Part3

open Relation KernelModules.Lib

/-! ## What an action does -/

/-- After the load phase the thread is due to move: it has released the mutex, and takes it again
    for its second region. -/
theorem loadPhase_pc {s s' : Sys} (hload : loadPhase s = some s') : s'.pc = .move := by
  obtain ⟨t, _, rfl⟩ := Option.map_eq_some_iff.mp hload
  rfl

/-- `movePhase`, case by case: with nobody to serve it idles or goes offline, otherwise the cabin
    moves on, and an offline elevator rests. -/
theorem movePhase_step (s : Sys) : MoveStep s (movePhase s) := by
  unfold movePhase moveBody
  by_cases hoff : s.b.e.status = .offline
  · rw [if_neg (not_not.mpr hoff)]
    exact .rest hoff
  · rw [if_pos hoff]
    cases hserv : checkElevator s.b.e with
    | true =>
      have hfull : ¬ s.b.e.Empty := fun h => by
        rw [checkElevator_eq_false.mpr h] at hserv
        exact absurd hserv (by decide)
      exact .advance hoff (Or.inl hfull)
    | false =>
      have hempty := checkElevator_eq_false.mp hserv
      cases hwait : checkBuilding s.b with
      | false => exact .idle hoff hempty (checkBuilding_eq_false.mp hwait)
      | true =>
        have hsome : ¬ s.b.NoneWaiting := fun h => by
          rw [checkBuilding_eq_false.mpr h] at hwait
          exact absurd hwait (by decide)
        by_cases hsd : s.b.e.shutdown = 0
        · simp only [hsd]
          exact .advance hoff (Or.inr ⟨hsome, hsd⟩)
        · have hsd' : (s.b.e.shutdown != 0) = true := by simpa using hsd
          simp only [hsd']
          exact .goOffline hoff hempty hsome hsd

/-- A system call, case by case: refused for the reason its test gives, or done.  An insertion is
    never refused, since whoever is in the gap has passed the tests. -/
theorem call_step {s s' : Sys} {a : Act} (hs : Sound s) (hload : a ≠ .load) (hmove : a ≠ .move)
    (hg : loose.guard s a = true) (h : exec s a = some s') : CallStep s a s' := by
  cases a with
  | load => exact absurd rfl hload
  | move => exact absurd rfl hmove
  | request pType sFloor dFloor =>
    rw [exec] at h
    cases href : refuses s.b.e pType sFloor dFloor with
    | true =>
      rw [href, if_pos rfl] at h
      rw [← Option.some.inj h]
      exact .refuse href
    | false =>
      rw [href, if_neg (by decide)] at h
      rw [← Option.some.inj h]
      exact .request href
  | insert p =>
    have hin : p ∈ s.inflight := of_decide_eq_true hg
    have hvalid := hs.census.valid p (List.mem_append_right _ hin)
    obtain ⟨i, hi⟩ := hvalid.src
    rw [exec, enqueue, addPass_spec _ hvalid hi, Option.map_some, Option.some.injEq] at h
    rw [← h]
    exact .insert hin hvalid hi
  | start =>
    rw [exec, Option.some.injEq, startElevator, if_pos (by rfl)] at h
    by_cases hoff : s.b.e.status = .offline
    · rw [if_neg (not_not.mpr hoff)] at h
      rw [← h]
      exact .start hoff
    · rw [if_pos hoff] at h
      rw [← h]
      exact .refuse hoff
  | stop =>
    rw [exec, Option.some.injEq, stopElevator, if_pos (by rfl)] at h
    by_cases hsd : s.b.e.shutdown = 0
    · rw [if_neg (not_not.mpr hsd)] at h
      rw [← h]
      exact .stop hsd
    · rw [if_pos hsd] at h
      rw [← h]
      exact .refuse hsd

/-- **What one step of the machine can do**, from a sound state.  Every invariant here is proved by
    these cases, and none by unfolding the functions of the program. -/
theorem step_cases {s s' : Sys} {a : Act} (hs : Sound s) (h : loose.step s a = some s') :
    (a = .load ∧ ReflTransGen LoadStep s s') ∨ (a = .move ∧ MoveStep s s') ∨ CallStep s a s' := by
  obtain ⟨hg, he⟩ := Machine.step_eq_some.mp h
  by_cases hload : a = .load
  · subst hload
    obtain ⟨t, ht, _, hchain⟩ := loadPhase_spec hs
    have he' : loadPhase s = some s' := he
    rw [ht, Option.some.injEq] at he'
    exact Or.inl ⟨rfl, he' ▸ hchain⟩
  · by_cases hmove : a = .move
    · subst hmove
      have he' : some (movePhase s) = some s' := he
      rw [Option.some.injEq] at he'
      exact Or.inr (Or.inl ⟨rfl, he' ▸ movePhase_step s⟩)
    · exact Or.inr (Or.inr (call_step hs hload hmove hg he))

/-! ## The invariant rules -/

/-- The invariant rule of a load phase.  What its turns preserve from sound states, the phase
    preserves. -/
theorem LoadStep.chain {P : Sys → Prop} (hP : ∀ s s', Sound s → P s → LoadStep s s' → P s')
    {s s' : Sys} (hs : Sound s) (hst : ReflTransGen LoadStep s s') (hp : P s) : P s' := by
  induction hst with
  | refl => exact hp
  | tail hchain hstep ih => exact hP _ _ (LoadStep.sound_chain hs hchain) ih hstep

/-- A load phase leaves position and shutdown flag alone: it writes the status, the lists and the
    counters. -/
theorem LoadStep.frame {s s' : Sys} (hst : ReflTransGen LoadStep s s') :
    s'.b.e.current = s.b.e.current ∧ s'.b.e.next = s.b.e.next ∧
      s'.b.e.direction = s.b.e.direction ∧ s'.b.e.shutdown = s.b.e.shutdown := by
  induction hst with
  | refl => exact ⟨rfl, rfl, rfl, rfl⟩
  | tail _ hstep ih => cases hstep <;> exact ih

/-- One action, whichever it is and whoever takes it, keeps the invariant. -/
theorem Sound.step {s s' : Sys} {a : Act} (hs : Sound s) (h : loose.step s a = some s') :
    Sound s' := by
  rcases step_cases hs h with ⟨_, hst⟩ | ⟨_, hst⟩ | hst
  · exact LoadStep.sound_chain hs hst
  · exact hst.sound hs
  · exact hst.sound hs

/-- **Every reachable state is sound**, the phases running in any order, and so is every state of
    `system`. -/
theorem Sound.reachable {s : Sys} (h : loose.Reachable s) : Sound s :=
  Machine.Reachable.induct (M := loose) Sound.init (fun _ _ _ _ hs hst => hs.step hst) h

/-- The invariant rule, the phases running in any order: it is enough to look at one turn of a
    load phase, one move phase and one call. -/
theorem loose_invariant {P : Sys → Prop} (hinit : P .init)
    (hload : ∀ s s', Sound s → P s → LoadStep s s' → P s')
    (hmove : ∀ s s', Sound s → P s → MoveStep s s' → P s')
    (hcall : ∀ s a s', Sound s → P s → CallStep s a s' → P s') {s : Sys} (h : loose.Reachable s) :
    P s := by
  refine Machine.Reachable.induct (M := loose) hinit ?_ h
  intro s a s' hr hp hst
  have hs := Sound.reachable hr
  rcases step_cases hs hst with ⟨_, hst⟩ | ⟨_, hst⟩ | hst
  · exact LoadStep.chain hload hs hst hp
  · exact hmove s s' hs hp hst
  · exact hcall s a s' hs hp hst

/-- The freer scheduler has every step of the stricter one, so the case analysis of a step is done
    once, for `loose`. -/
theorem loose_step_of_system {s s' : Sys} {a : Act} (h : system.step s a = some s') :
    loose.step s a = some s' := by
  obtain ⟨hg, he⟩ := Machine.step_eq_some.mp h
  exact Machine.step_eq_some.mpr ⟨loose_guard_of_system s a hg, he⟩

/-- The invariant rule, the phases alternating: a move phase starts when the thread is due to
    move. -/
theorem system_invariant {P : Sys → Prop} (hinit : P .init)
    (hload : ∀ s s', Sound s → P s → LoadStep s s' → P s')
    (hmove : ∀ s s', Sound s → s.pc = .move → P s → MoveStep s s' → P s')
    (hcall : ∀ s a s', Sound s → P s → CallStep s a s' → P s') {s : Sys} (h : system.Reachable s) :
    P s := by
  refine Machine.Reachable.induct (M := system) hinit ?_ h
  intro s a s' hr hp hst
  have hs := Sound.reachable (loose_of_system hr)
  rcases step_cases hs (loose_step_of_system hst) with ⟨_, hst'⟩ | ⟨rfl, hst'⟩ | hst'
  · exact LoadStep.chain hload hs hst' hp
  · have hpc : s.pc = .move := of_decide_eq_true (Machine.step_eq_some.mp hst).1
    exact hmove s s' hs hpc hp hst'
  · exact hcall s a s' hs hp hst'

/-! ## The thread's loop on sound states -/

/-- A sound state of the module. -/
abbrev SoundSys := { s : Sys // Sound s }

theorem loadPhase_isSome (s : SoundSys) : (loadPhase s.1).isSome := by
  obtain ⟨t, ht, _⟩ := loadPhase_spec s.2
  rw [ht]
  rfl

/-- The state after the load phase. -/
def SoundSys.afterLoad (s : SoundSys) : Sys := (loadPhase s.1).get (loadPhase_isSome s)

theorem SoundSys.stop (s : SoundSys) : Stop s.1 s.afterLoad := by
  obtain ⟨t, ht, hstop, _⟩ := loadPhase_spec s.2
  simpa [afterLoad, ht] using hstop

theorem SoundSys.chain (s : SoundSys) : ReflTransGen LoadStep s.1 s.afterLoad := by
  obtain ⟨t, ht, _, hchain⟩ := loadPhase_spec s.2
  simpa [afterLoad, ht] using hchain

/-- One turn of the thread's loop. -/
def turn (s : SoundSys) : SoundSys :=
  ⟨movePhase s.afterLoad,
    (movePhase_step s.afterLoad).sound (LoadStep.sound_chain s.2 s.chain)⟩

theorem iteration_eq (s : SoundSys) : iteration s.1 = some (turn s).1 := by
  rw [iteration, ← Option.some_get (loadPhase_isSome s)]
  rfl

/-- **The thread's iterations never fault**: they are the turns of a total function, and can be
    iterated as such. -/
theorem iterations_eq (n : Nat) (s : SoundSys) : iterations n s.1 = some (turn^[n] s).1 := by
  induction n generalizing s with
  | zero => rfl
  | succ n ih =>
    rw [iterations, iteration_eq, Option.bind_some, ih]
    rfl

end KernelModules.Part3
