/-
  Stopping the elevator and starting it again.

  `Shutdown` follows a stop until the cabin is empty, and `Drain` follows a running elevator until
  everybody is served.  An operator does one after the other: `stop_elevator`, some time for the
  cabin to empty, `start_elevator`, and some time for the queues that the stop has left behind.

  The start takes over whatever the stop left: the queues as they were, the cabin back at the
  ground floor with the direction it had, a stale one included.  Everybody is served all the same.
  Only where nobody was waiting is there no restart, for the elevator never went offline; then
  nobody is left to serve, and the module goes on refusing requests (`restart_cycle`).
-/
import KernelModules.Part3.Drain
import KernelModules.Part3.Shutdown

namespace KernelModules.Part3

open Function KernelModules.Lib

/-- `n` iterations after a stop, `start_elevator`, and `m` more iterations. -/
def restartCycle (n m : Nat) (s : Sys) : Option Sys :=
  (iterations n s).bind fun s' => iterations m (startElevator .ok s').2

variable {s : SoundSys}

/-- A stopped elevator stays offline: an OFFLINE turn does nothing at all. -/
theorem turns_offline (hoff : s.1.b.e.status = .offline) (n : Nat) :
    (turn^[n] s).1.b.e.status = .offline :=
  iterate_preserves (P := fun t : SoundSys => t.1.b.e.status = .offline)
    (fun _ ht => (congrArg (fun b => b.e.status) (turn_offline ht)).trans ht) n hoff

/-- The twentieth turn after a stop ends offline exactly if somebody waits, or if the elevator was
    offline already. -/
theorem offline_iff (hsd : s.1.b.e.shutdown = 1) :
    (turn^[20] s).1.b.e.status = .offline ↔ s.1.b.e.status = .offline ∨ ¬ s.1.b.NoneWaiting := by
  constructor
  · intro hoff
    by_contra hnot
    obtain ⟨hon, hnone⟩ := not_or.mp hnot
    have hwedged : Wedged s := ⟨hsd, not_not.mp hnone, hon⟩
    exact hwedged.never_offline 20 hoff
  · rintro (hoff | hsome)
    · exact turns_offline hoff 20
    · obtain ⟨n, hn⟩ : ∃ n, n + 1 = 20 := ⟨19, rfl⟩
      rw [← hn]
      exact (shut_offline_iff hsd hsome n).mpr (shut_empties hsd hn.ge)

/-- What is left to do twenty turns after a stop: the queues, and nothing else, for the cabin is
    empty by then. -/
theorem work_after_stop (hsd : s.1.b.e.shutdown = 1) :
    work (turn^[20] s).1.b = 2 * (queued s.1.b).length := by
  have hempty := onboard_eq_nil.mpr (shut_empties hsd (Nat.le_refl 20))
  have hqueue : queued (turn^[20] s).1.b = queued s.1.b :=
    List.flatMap_congr fun i _ => (turns_queue_kept hsd 20 i).1
  rw [work, hempty, hqueue]
  rfl

/-- **An offline elevator picks up where it left off.**  The queues are as they were, and a start is
    all it takes to serve them. -/
theorem started_again {ps : List Passenger} (hr : loose.Reachable s.1)
    (hacc : accepted s.1.log = ps) (hoff : s.1.b.e.status = .offline) :
    ∃ t : SoundSys, (startElevator .ok s.1).2 = t.1 ∧ work t.1.b = work s.1.b ∧ Running ps t := by
  let t : Sys := (s.1.setE { s.1.b.e with
    status := .idle, current := 0, next := 1, shutdown := 0 }).record .started
  have hstart : (startElevator .ok s.1).2 = t := by
    rw [startElevator, if_pos (by rfl), if_neg (not_not.mpr hoff)]
  have ht : loose.Reachable t :=
    hr.step (a := .start) (Machine.step_eq_some.mpr ⟨rfl, congrArg some hstart⟩)
  have hacc' : accepted t.log = ps :=
    (accepted_append _ _).trans ((List.append_nil _).trans hacc)
  exact ⟨⟨t, Sound.reachable ht⟩, hstart, work_congr (fun _ => rfl) rfl, ht, State.noConfusion, rfl,
    hacc'⟩

/-- **Stop and restart.**  Take any run of the module after which `e.shutdown` is set, with every
    request inserted so far between two different floors.  Twenty iterations, `start_elevator`,
    and `40 W + 1` iterations more, for `W` passengers waiting at the beginning, bring the building
    to rest with everybody served; and requests are taken again exactly if the elevator was
    offline, or somebody was waiting. -/
theorem restart_cycle {acts : List Act} {s : Sys} (hrun : system.run acts = some s)
    (hsd : s.b.e.shutdown = 1) (htrips : ∀ p ∈ inserted acts, p.sFloor ≠ p.dFloor) :
    ∃ s', restartCycle 20 (40 * (queued s.b).length + 1) s = some s' ∧
      AtRest (inserted acts) s'.b ∧
      (s'.b.e.shutdown = 0 ↔ s.b.e.status = .offline ∨ ¬ s.b.NoneWaiting) := by
  have hloose := loose_run_of_system hrun
  have hr := Machine.reachable_iff_run.mpr ⟨acts, hloose⟩
  let s₀ : SoundSys := ⟨s, Sound.reachable hr⟩
  obtain ⟨hreach, hacc⟩ := turns_reachable (s := s₀) hr (accepted_run hloose) 20
  have hwork := work_after_stop (s := s₀) hsd
  have hiff := offline_iff (s := s₀) hsd
  have hflag : (turn^[20] s₀).1.b.e.shutdown = 1 := (turns_shutdown 20 s₀).trans hsd
  have hcycle : ∀ m, restartCycle 20 m s
      = iterations m (startElevator .ok (turn^[20] s₀).1).2 := fun m => by
    rw [restartCycle, iterations_eq 20 s₀]
    rfl
  rw [hcycle]
  -- from here on nothing but these facts matters of the twenty turns
  generalize turn^[20] s₀ = t at hreach hacc hwork hiff hflag
  change work t.1.b = 2 * (queued s.b).length at hwork
  by_cases hoff : t.1.b.e.status = .offline
  · obtain ⟨t', ht, hsame, hrunning⟩ := started_again hreach hacc hoff
    obtain ⟨hend, hzero, hidle⟩ := hrunning.settles htrips
    have hlen : 20 * work t'.1.b + 1 = 40 * (queued s.b).length + 1 := by
      rw [hsame, hwork]
      omega
    rw [hlen] at hend hzero hidle
    refine ⟨_, ?_, hend.atRest hzero hidle, iff_of_true hend.flag (hiff.mp hoff)⟩
    rw [ht]
    exact iterations_eq _ t'
  · -- the elevator has not gone offline, since nobody was waiting
    have hnot : ¬ (s.b.e.status = .offline ∨ ¬ s.b.NoneWaiting) := fun h => hoff (hiff.mpr h)
    have hqueue : queued s.b = [] := queued_eq_nil.mpr (not_not.mp fun h => hnot (Or.inr h))
    rw [hqueue] at hwork
    have hstart : (startElevator .ok t.1).2 = t.1 := by
      rw [startElevator, if_pos (by rfl), if_pos hoff]
    refine ⟨(turn t).1, ?_, ?_, iff_of_false ?_ hnot⟩
    · rw [hqueue, hstart]
      exact iterations_eq 1 t
    · refine atRest_of_idle (turn_reachable hreach) ((turn_accepted t).trans hacc) ?_
        (turn_idle hoff hwork)
      exact Nat.le_zero.mp ((turn_work_le t).trans hwork.le)
    · rw [turn_shutdown, hflag]
      decide

theorem restart_cycle_shortRun :
    ∃ s, system.run (shortRun.take 3 ++ [.stop]) = some s ∧ s.b.e.status = .idle ∧
      ∃ s', restartCycle 20 41 s = some s' ∧ AtRest [⟨0, .bell, 0, 2⟩] s'.b := by
  have hrun := Machine.run_get (M := system) (shortRun.take 3 ++ [.stop]) (by decide)
  obtain ⟨s', hcycle, hrest, _⟩ := restart_cycle hrun (by decide) (by decide)
  exact ⟨_, hrun, by decide, s', hcycle, hrest⟩

end KernelModules.Part3
