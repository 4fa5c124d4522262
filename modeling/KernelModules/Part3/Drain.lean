/-
  The building drains: left alone, a running elevator serves everybody and goes idle.

  Twenty turns do at least one unit of work while there is work that can be done (`progress`), and
  with every accepted trip between two different floors all of it can.  So the library's
  `iterate_drain` empties the lists within twenty times the work, one more turn sets the status to
  idle, and what the counters must then say follows from the invariants of `Stock` and `Tally`.
-/
import KernelModules.Part3.Progress

namespace KernelModules.Part3

open Function Relation KernelModules.Lib

/-! ## Turns stay within the reachable states -/

theorem turn_reachable {s : SoundSys} (h : loose.Reachable s.1) : loose.Reachable (turn s).1 := by
  have hload : loose.step s.1 .load = some s.afterLoad :=
    Machine.step_eq_some.mpr ⟨rfl, (Option.some_get (loadPhase_isSome s)).symm⟩
  have hmove : loose.step s.afterLoad .move = some (turn s).1 :=
    Machine.step_eq_some.mpr ⟨rfl, rfl⟩
  exact (h.step hload).step hmove

theorem turn_accepted (s : SoundSys) : accepted (turn s).1.log = accepted s.1.log :=
  (turn_move s).accepted_eq.trans (LoadStep.accepted_eq s.2 s.chain)

/-- Without a shutdown, a turn does not take the elevator offline: the move phase does so only
    when it finds `e.shutdown` set. -/
theorem turn_online {s : SoundSys} (hon : s.1.b.e.status ≠ .offline)
    (hsd : s.1.b.e.shutdown = 0) : (turn s).1.b.e.status ≠ .offline := by
  have hon' := s.stop.online hon
  have hsd' := (LoadStep.frame s.chain).2.2.2
  have hmove := turn_move s
  generalize (turn s).1 = t at hmove
  cases hmove with
  | rest hoff => exact absurd hoff hon'
  | idle =>
    show State.idle ≠ State.offline
    decide
  | goOffline _ _ _ h => omega
  | advance => exact (moveCabin_status _).2

/-- The elevator runs, having accepted `ps`. -/
structure Running (ps : List Passenger) (s : SoundSys) : Prop where
  reachable : loose.Reachable s.1
  online : s.1.b.e.status ≠ .offline
  flag : s.1.b.e.shutdown = 0
  accepted : accepted s.1.log = ps

/-- It keeps running, and accepts nobody, when left alone.  Acceptances and stops are calls, and a
    turn makes none. -/
theorem Running.turn {ps : List Passenger} {s : SoundSys} (h : Running ps s) :
    Running ps (turn s) where
  reachable := turn_reachable h.reachable
  online := turn_online h.online h.flag
  flag := (turn_shutdown s).trans h.flag
  accepted := (turn_accepted s).trans h.accepted

/-! ## Draining -/

variable {ps : List Passenger} {s : SoundSys}

/-- If all trips are between different floors, whatever is left to do can be done. -/
theorem Running.pending (h : Running ps s) (htrips : ∀ p ∈ ps, p.sFloor ≠ p.dFloor)
    (hpos : 0 < work s.1.b) : Pending s.1.b := by
  by_cases hempty : s.1.b.e.Empty
  · have hsome : ¬ s.1.b.NoneWaiting := by
      intro hnone
      have := work_eq_zero.mpr ⟨hempty, hnone⟩
      omega
    obtain ⟨c, hc⟩ := not_forall.mp hsome
    obtain ⟨q, l, hq⟩ := List.exists_cons_of_ne_nil hc
    have hacc := s.2.census.known (Sum.inl c) q (by
      show q ∈ (s.1.b.f c).waiting
      rw [hq]
      exact List.mem_cons_self)
    rw [h.accepted] at hacc
    refine Or.inr ⟨c, q, l, hq, fun hground => htrips q hacc ?_⟩
    rw [hground.1, hground.2]
  · exact Or.inl hempty

/-- The lists empty within twenty turns for each unit of work: a period of the sweep is eighteen
    turns, and it does some work on its way. -/
theorem Running.drains (h : Running ps s) (htrips : ∀ p ∈ ps, p.sFloor ≠ p.dFloor) :
    work (Part3.turn^[20 * work s.1.b] s).1.b = 0 := by
  refine iterate_drain (f := Part3.turn) (P := Running ps) (μ := fun t : SoundSys => work t.1.b)
    (fun t ht => ht.turn) ?_ ?_ (work s.1.b) h (Nat.le_refl _)
  · intro t ht hpos
    exact progress ht.online ht.flag (ht.pending htrips hpos) hpos
  · intro t _ hzero
    have := turn_work_le t
    omega

/-- With nothing to do, a turn sets the status to idle. -/
theorem turn_idle (hon : s.1.b.e.status ≠ .offline) (hwork : work s.1.b = 0) :
    (turn s).1.b.e.status = .idle := by
  have hon' := s.stop.online hon
  have hleft := LoadStep.work_le s.chain
  obtain ⟨hempty, hnone⟩ := work_eq_zero.mp (by omega : work s.afterLoad.b = 0)
  have hmove := turn_move s
  generalize (turn s).1 = t at hmove
  cases hmove with
  | rest hoff => exact absurd hoff hon'
  | idle => rfl
  | goOffline _ _ hsome => exact absurd hnone hsome
  | advance _ hgo =>
    rcases hgo with hfull | ⟨hsome, _⟩
    · exact absurd hempty hfull
    · exact absurd hnone hsome

/-- A building at rest: everybody was served, and every counter says so. -/
structure AtRest (ps : List Passenger) (b : Building) : Prop where
  waiting : ∀ i, (b.f i).waiting = []
  riding : ∀ j, b.e.p j = []
  status : b.e.status = .idle
  floors : ∀ i, (b.f i).toLoad = ⟨0, 0, 0, 0, 0, 0⟩
  cabin : b.e.toLoad = ⟨0, 0, 0, 0, 0, 0⟩
  serviced : ∀ i : Slot, (b.f i).serviced = ps.countP fun p => p.sFloor = (i : Int)

/-- An idle elevator with nothing to do is at rest. -/
theorem atRest_of_idle (hr : loose.Reachable s.1) (hacc : Part3.accepted s.1.log = ps)
    (hwork : work s.1.b = 0) (hidle : s.1.b.e.status = .idle) : AtRest ps s.1.b := by
  obtain ⟨hempty, hnone⟩ := work_eq_zero.mp hwork
  refine ⟨hnone, hempty, hidle, fun i => ?_, ?_, fun i => ?_⟩
  · rw [s.2.stock.floors i, hnone i]
    rfl
  · rw [s.2.stock.cabin]
    exact total_empty _ hempty
  · have htally := Tally.reachable hr i
    rw [hacc, hnone i, total_empty _ hempty] at htally
    simpa using htally

theorem Running.atRest (h : Running ps s) (hwork : work s.1.b = 0)
    (hidle : s.1.b.e.status = .idle) : AtRest ps s.1.b :=
  atRest_of_idle h.reachable h.accepted hwork hidle

/-- One turn after the lists are empty, a running elevator is idle: the move phase finds nobody on
    board and nobody waiting. -/
theorem Running.settles (h : Running ps s) (htrips : ∀ p ∈ ps, p.sFloor ≠ p.dFloor) :
    Running ps (Part3.turn^[20 * work s.1.b + 1] s) ∧
      work (Part3.turn^[20 * work s.1.b + 1] s).1.b = 0 ∧
      (Part3.turn^[20 * work s.1.b + 1] s).1.b.e.status = .idle := by
  have hdrained := h.drains htrips
  have hlate := iterate_preserves (P := Running ps) (fun t ht => ht.turn) (20 * work s.1.b) h
  rw [iterate_succ_apply']
  refine ⟨hlate.turn, ?_, turn_idle hlate.online hdrained⟩
  exact Nat.le_zero.mp ((turn_work_le _).trans hdrained.le)

/-- **Nobody is stranded.**  Take any run of the module after which the elevator is neither
    offline nor shut down, with every request inserted so far between two different floors.  With
    `W` passengers waiting and `B` on board, `20 (2 W + B) + 1` further iterations without a call
    leave every list empty, the elevator idle, all load counters zero, and each floor's serviced
    counter equal to the number of requests ever inserted there. -/
theorem drains_to_rest {acts : List Act} {s : Sys} (hrun : system.run acts = some s)
    (hon : s.b.e.status ≠ .offline) (hsd : s.b.e.shutdown = 0)
    (htrips : ∀ p ∈ inserted acts, p.sFloor ≠ p.dFloor) :
    ∃ s', iterations (20 * (2 * (queued s.b).length + (onboard s.b.e).length) + 1) s = some s' ∧
      AtRest (inserted acts) s'.b := by
  have hloose := loose_run_of_system hrun
  have hr := Machine.reachable_iff_run.mpr ⟨acts, hloose⟩
  have hstart : Running (inserted acts) ⟨s, Sound.reachable hr⟩ :=
    ⟨hr, hon, hsd, accepted_run hloose⟩
  obtain ⟨hend, hzero, hidle⟩ := hstart.settles htrips
  exact ⟨_, iterations_eq _ ⟨s, Sound.reachable hr⟩, hend.atRest hzero hidle⟩

theorem drains_to_rest_shortRun :
    ∃ s, system.run shortRun = some s ∧ s.pc = .load ∧
      ∃ s', iterations 21 s = some s' ∧ AtRest [⟨0, .bell, 0, 2⟩] s'.b := by
  have hrun := Machine.run_get (M := system) shortRun (by decide)
  exact ⟨_, hrun, by decide, drains_to_rest hrun (by decide) (by decide) (by decide)⟩

end KernelModules.Part3
