/-
  After a stop: the cabin empties, and the elevator goes offline if it still can.

  With `e.shutdown` set nobody boards any more, so a turn does two things: it empties the list of
  the floor it stands at, and it sweeps on (`shut_turn`).  The queues stay as they are, and within
  a period of the sweep the cabin is empty (`shut_empties`), everybody on board having been let
  off at their floor — `orderly_shutdown`.

  What happens to the empty cabin is decided by the order of the tests of the move phase.  The
  first one, nobody on board and nobody waiting, sets the status to idle, and only the second one
  looks at `e.shutdown`.  So an elevator that is stopped with nobody waiting never goes offline,
  and `start_elevator`, which asks for an offline one, never succeeds again (`restartable_iff`).
-/
import KernelModules.Part3.Service
import KernelModules.Part3.Race
import KernelModules.Part3.Ride

namespace KernelModules.Part3

open Function Relation KernelModules.Lib

variable {s : SoundSys}

/-! ## One turn of a stopped elevator -/

/-- A stop after a shutdown takes nobody on board, for its second loop is not entered ... -/
theorem Stop.queue_kept {s t : Sys} (h : Stop s t) (hsd : s.b.e.shutdown = 1) (i : Slot) :
    (t.b.f i).waiting = (s.b.f i).waiting ∧ (t.b.f i).toLoad = (s.b.f i).toLoad := by
  cases h with
  | offline => exact ⟨rfl, rfl⟩
  | nobody => exact ⟨rfl, rfl⟩
  | @serve c took kept _ _ hsplit _ hnone _ =>
    obtain rfl : took = [] := hnone hsd
    have hkept : (((openDoors s).unloaded c (s.b.e.p c) []).b.f c).waiting = kept := hsplit
    show ((s.served c [] kept).b.f i).waiting = _ ∧ ((s.served c [] kept).b.f i).toLoad = _
    rw [Sys.served, Sys.loaded_nil hkept]
    exact ⟨rfl, rfl⟩

/-- ... and lets off everybody who is at their floor. -/
theorem Stop.riding_left {s t : Sys} (h : Stop s t) (hsd : s.b.e.shutdown = 1)
    (hon : s.b.e.status ≠ .offline) {c : Slot} (hc : s.b.e.current = c) :
    t.b.e.p = update s.b.e.p c [] := by
  cases h with
  | offline hoff => exact absurd hoff hon
  | @nobody k _ hk _ hp =>
    obtain rfl : k = c := Fin.ext (by omega)
    rw [← hp, update_eq_self]
  | @serve k took kept _ hk _ _ hnone _ =>
    obtain rfl : k = c := Fin.ext (by omega)
    rw [hnone hsd]
    funext j
    show update s.b.e.p k [] j ++ [] = _
    rw [List.append_nil]

/-- A turn of a stopped elevator leaves the queues as they are, and all that is counted of them. -/
theorem turn_queue_kept (hsd : s.1.b.e.shutdown = 1) (i : Slot) :
    ((turn s).1.b.f i).waiting = (s.1.b.f i).waiting ∧
      ((turn s).1.b.f i).toLoad = (s.1.b.f i).toLoad := by
  rw [(turn_move s).same.f]
  exact s.stop.queue_kept hsd i

/-- A stopped elevator takes nobody on board, so its load phase leaves the building as full or
    empty as it was. -/
theorem afterLoad_noneWaiting (hsd : s.1.b.e.shutdown = 1) :
    s.afterLoad.b.NoneWaiting ↔ s.1.b.NoneWaiting := by
  constructor
  · intro hnone i
    rw [← (s.stop.queue_kept hsd i).1]
    exact hnone i
  · intro hnone i
    rw [(s.stop.queue_kept hsd i).1]
    exact hnone i

/-- **A turn of a stopped elevator** lets off whoever is at their floor.  If that empties the
    cabin, the elevator goes offline exactly when somebody waits; if not, it moves on. -/
theorem shut_turn (hsd : s.1.b.e.shutdown = 1) (hon : s.1.b.e.status ≠ .offline) {c : Slot}
    (hc : s.1.b.e.current = c) :
    (turn s).1.b.e.p = update s.1.b.e.p c [] ∧
      ((turn s).1.b.e.Empty ∧ ((turn s).1.b.e.status = .offline ↔ ¬ s.1.b.NoneWaiting) ∨
        ¬ (turn s).1.b.e.Empty ∧ (turn s).1.b.e.status ≠ .offline ∧
          Sweeps s.1.b.e (turn s).1.b.e) := by
  have hon' := s.stop.online hon
  have hleft := s.stop.riding_left hsd hon hc
  have hsd' := (LoadStep.frame s.chain).2.2.2
  have hsame := (turn_move s).same
  have hsweep := turn_sweeps (s := s)
  refine ⟨hsame.p.trans hleft, ?_⟩
  have hmove := turn_move s
  rw [← afterLoad_noneWaiting hsd]
  generalize (turn s).1 = t at hmove hsame hsweep
  cases hmove with
  | rest hoff => exact absurd hoff hon'
  | idle _ hempty hnone =>
    refine Or.inl ⟨hempty, ?_⟩
    exact iff_of_false (show State.idle ≠ State.offline by decide) (not_not.mpr hnone)
  | goOffline _ hempty hsome => exact Or.inl ⟨hempty, iff_of_true rfl hsome⟩
  | advance _ hgo =>
    refine Or.inr ⟨?_, (moveCabin_status _).2, hsweep rfl⟩
    rcases hgo with hfull | ⟨_, hzero⟩
    · intro hempty
      refine hfull fun j => ?_
      rw [← hsame.p]
      exact hempty j
    · omega

/-- An offline elevator stays as it is: both phases find the status and do nothing. -/
theorem turn_offline (hoff : s.1.b.e.status = .offline) :
    (turn s).1.b = s.1.b := by
  have hafter : s.afterLoad.b = s.1.b := by
    have hstop := s.stop
    generalize s.afterLoad = t at hstop
    cases hstop with
    | offline => rfl
    | nobody hon => exact absurd hoff hon
    | serve hon => exact absurd hoff hon
  have hmove := turn_move s
  rw [← hafter] at hoff ⊢
  generalize (turn s).1 = t at hmove
  cases hmove with
  | rest => rfl
  | idle hon => exact absurd hoff hon
  | goOffline hon => exact absurd hoff hon
  | advance hon => exact absurd hoff hon

/-- A stopped elevator that is empty stays empty, since nobody gets on any more. -/
theorem turn_empty (hsd : s.1.b.e.shutdown = 1) (hempty : s.1.b.e.Empty) :
    (turn s).1.b.e.Empty := by
  by_cases hoff : s.1.b.e.status = .offline
  · rw [turn_offline hoff]
    exact hempty
  · obtain ⟨c, hc⟩ := s.2.motion.track.slot
    intro j
    rw [(shut_turn hsd hoff hc).1]
    by_cases hj : j = c
    · rw [hj, update_self]
    · rw [update_of_ne hj]
      exact hempty j

/-! ## Turns of a stopped elevator -/

/-- **The frame.**  With a stop in force every waiting list, and all that is counted of it, stays as
    it is. -/
theorem turns_queue_kept (hsd : s.1.b.e.shutdown = 1) (n : Nat) (i : Slot) :
    ((turn^[n] s).1.b.f i).waiting = (s.1.b.f i).waiting ∧
      ((turn^[n] s).1.b.f i).toLoad = (s.1.b.f i).toLoad := by
  induction n with
  | zero => exact ⟨rfl, rfl⟩
  | succ n ih =>
    obtain ⟨hw, hl⟩ := turn_queue_kept ((turns_shutdown n s).trans hsd) i
    rw [iterate_succ_apply', hw, hl]
    exact ih

theorem turns_noneWaiting (hsd : s.1.b.e.shutdown = 1) (n : Nat) :
    (turn^[n] s).1.b.NoneWaiting ↔ s.1.b.NoneWaiting := by
  constructor
  · intro hnone i
    rw [← (turns_queue_kept hsd n i).1]
    exact hnone i
  · intro hnone i
    rw [(turns_queue_kept hsd n i).1]
    exact hnone i

theorem turns_empty (hsd : s.1.b.e.shutdown = 1) {m n : Nat} (h : m ≤ n)
    (hempty : (turn^[m] s).1.b.e.Empty) : (turn^[n] s).1.b.e.Empty := by
  induction h with
  | refl => exact hempty
  | step _ ih =>
    rw [iterate_succ_apply']
    exact turn_empty ((turns_shutdown _ s).trans hsd) ih

/-- As long as somebody is on board, `n` turns have emptied the lists of the `n` floors the sweep
    came by. -/
theorem shut_window (hsd : s.1.b.e.shutdown = 1) {x : Nat} (hx : At s.1.b.e x) :
    ∀ n, ¬ (turn^[n] s).1.b.e.Empty →
      At (turn^[n] s).1.b.e (x + n) ∧
        ∀ k (j : Slot), k < n → Scan.level 9 (x + k) = j → (turn^[n] s).1.b.e.p j = [] := by
  intro n
  induction n with
  | zero =>
    intro _
    exact ⟨hx, fun k j hk => absurd hk (Nat.not_lt_zero k)⟩
  | succ n ih =>
    intro hfull
    have hsd' := (turns_shutdown n s).trans hsd
    rw [iterate_succ_apply'] at hfull ⊢
    have hfull' : ¬ (turn^[n] s).1.b.e.Empty := fun hempty => hfull (turn_empty hsd' hempty)
    obtain ⟨hat, hempty⟩ := ih hfull'
    have hon : (turn^[n] s).1.b.e.status ≠ .offline := fun hoff =>
      hfull' ((turn^[n] s).2.motion.parked (Or.inr hoff))
    obtain ⟨c, hc⟩ := (turn^[n] s).2.motion.track.slot
    obtain ⟨hp, ⟨hempty', _⟩ | ⟨_, _, hsweep⟩⟩ := shut_turn hsd' hon hc
    · exact absurd hempty' hfull
    · refine ⟨hsweep.track _ hat, fun k j hk hl => ?_⟩
      rw [hp]
      by_cases hj : j = c
      · rw [hj, update_self]
      · rw [update_of_ne hj]
        -- another floor was visited before
        refine hempty k j ?_ hl
        rcases Nat.lt_succ_iff_lt_or_eq.mp hk with hk | rfl
        · exact hk
        · have := hat.current
          exact absurd (Fin.ext (by omega)) hj

/-- **A stopped elevator is empty** within twenty turns, and stays so: the sweep passes every
    floor in that time, and whoever is for it gets off. -/
theorem shut_empties (hsd : s.1.b.e.shutdown = 1) {n : Nat} (hn : 20 ≤ n) :
    (turn^[n] s).1.b.e.Empty := by
  rcases s.2.motion.track with ⟨x, hx⟩ | hstale
  · -- in a period the sweep comes by every floor
    have h18 : (turn^[18] s).1.b.e.Empty := by
      by_contra hfull
      refine hfull fun j => ?_
      have hlt := j.isLt
      obtain ⟨k, hk, hl⟩ := @Scan.visits_level 9 (by omega) j (by omega) x
      exact (shut_window hsd hx 18 hfull).2 k j hk hl
    exact turns_empty hsd (by omega) h18
  · -- after a stale restart only passengers to the ground floor are on board
    by_cases hoff : s.1.b.e.status = .offline
    · exact turns_empty (m := 0) hsd (Nat.zero_le n) (s.2.motion.parked (Or.inr hoff))
    · have hone : (turn^[1] s).1.b.e.Empty := by
        intro j
        show (turn s).1.b.e.p j = []
        rw [(shut_turn hsd hoff (c := 0) hstale.current).1]
        by_cases hj : j = 0
        · rw [hj, update_self]
        · rw [update_of_ne hj]
          exact s.2.motion.ground hstale j hj
      exact turns_empty hsd (by omega) hone

/-- With somebody waiting, a turn ends offline exactly when it ends with an empty cabin: the move
    phase then finds nobody on board and the flag set. -/
theorem shut_offline_iff (hsd : s.1.b.e.shutdown = 1) (hsome : ¬ s.1.b.NoneWaiting) (n : Nat) :
    (turn^[n + 1] s).1.b.e.status = .offline ↔ (turn^[n + 1] s).1.b.e.Empty := by
  refine ⟨fun hoff => (turn^[n + 1] s).2.motion.parked (Or.inr hoff), fun hempty => ?_⟩
  have hsd' := (turns_shutdown n s).trans hsd
  have hsome' := fun hnone => hsome ((turns_noneWaiting hsd n).mp hnone)
  rw [iterate_succ_apply'] at hempty ⊢
  by_cases hoff : (turn^[n] s).1.b.e.status = .offline
  · rw [turn_offline hoff]
    exact hoff
  · obtain ⟨c, hc⟩ := (turn^[n] s).2.motion.track.slot
    obtain ⟨_, ⟨_, hiff⟩ | ⟨hfull, _⟩⟩ := shut_turn hsd' hoff hc
    · exact hiff.mpr hsome'
    · exact absurd hempty hfull

/-- **A stopped elevator with somebody waiting goes offline** within twenty turns. -/
theorem closing_ends (hsd : s.1.b.e.shutdown = 1) (hsome : ¬ s.1.b.NoneWaiting) :
    ∃ n, n ≤ 20 ∧ (turn^[n] s).1.b.e.status = .offline := by
  obtain ⟨n, hn⟩ : ∃ n, n + 1 = 20 := ⟨19, rfl⟩
  exact ⟨n + 1, by omega, (shut_offline_iff hsd hsome n).mpr (shut_empties hsd (by omega))⟩

/-- A stopped elevator in an empty building, or on its way to empty it. -/
def Wedged (s : SoundSys) : Prop :=
  s.1.b.e.shutdown = 1 ∧ s.1.b.NoneWaiting ∧ s.1.b.e.status ≠ .offline

/-- Such an elevator idles with every turn, and an IDLE elevator is not OFFLINE. -/
theorem Wedged.turn (h : Wedged s) : Wedged (turn s) := by
  obtain ⟨hsd, hnone, hon⟩ := h
  refine ⟨(turn_shutdown s).trans hsd, (turns_noneWaiting hsd 1).mpr hnone, ?_⟩
  have hon' := s.stop.online hon
  have hnone' := (afterLoad_noneWaiting hsd).mpr hnone
  have hmove := turn_move s
  generalize (Part3.turn s).1 = t' at hmove
  cases hmove with
  | rest hoff => exact absurd hoff hon'
  | idle =>
    show State.idle ≠ State.offline
    decide
  | goOffline _ _ hsome => exact absurd hnone' hsome
  | advance => exact (moveCabin_status _).2

/-- It never goes offline, and so it cannot be started again either. -/
theorem Wedged.never_offline (h : Wedged s) (n : Nat) :
    (Part3.turn^[n] s).1.b.e.status ≠ .offline :=
  (iterate_preserves (P := Wedged) (fun _ ht => ht.turn) n h).2.2

/-! ## Stop and restart -/

/-- Within twenty iterations the elevator is offline, and can be started again. -/
def Restartable (s : Sys) : Prop :=
  ∃ n, n ≤ 20 ∧ ∃ s', iterations n s = some s' ∧ s'.b.e.status = .offline ∧
    ∃ s'', startElevator .ok s' = (0, s'') ∧ s''.b.e.status = .idle ∧ s''.b.e.shutdown = 0

/-- An offline elevator can be started, which is the one thing that `start_elevator` tests. -/
theorem restart_of_offline {s : Sys} (hoff : s.b.e.status = .offline) :
    ∃ s', startElevator .ok s = (0, s') ∧ s'.b.e.status = .idle ∧ s'.b.e.shutdown = 0 := by
  rw [startElevator, if_pos (by rfl), if_neg (not_not.mpr hoff)]
  exact ⟨_, rfl, rfl, rfl⟩

/-- **After a stop.**  In every reachable state with `e.shutdown` set, the elevator goes offline
    within twenty further iterations without a call, ready for a restart, exactly when it is
    offline already or somebody is waiting. -/
theorem restartable_iff {s : Sys} (hr : system.Reachable s) (hsd : s.b.e.shutdown = 1) :
    Restartable s ↔ (s.b.e.status = .offline ∨ ¬ s.b.NoneWaiting) := by
  have hsound := Sound.reachable (loose_of_system hr)
  constructor
  · rintro ⟨n, _, s', hit, hoff, _⟩
    by_contra hnot
    obtain ⟨hon, hnone⟩ := not_or.mp hnot
    have hwedged : Wedged ⟨s, hsound⟩ := ⟨hsd, not_not.mp hnone, hon⟩
    rw [iterations_eq n ⟨s, hsound⟩, Option.some.injEq] at hit
    rw [← hit] at hoff
    exact hwedged.never_offline n hoff
  · rintro (hoff | hsome)
    · exact ⟨0, by omega, s, rfl, hoff, restart_of_offline hoff⟩
    · obtain ⟨n, hn, hoff⟩ := closing_ends (s := ⟨s, hsound⟩) hsd hsome
      exact ⟨n, hn, _, iterations_eq n ⟨s, hsound⟩, hoff, restart_of_offline hoff⟩

/-- Somebody waits when the stop comes, so the elevator goes offline and can be started again. -/
theorem restartable_iff_waiting :
    Restartable ((system.run (shortRun.take 3 ++ [.stop])).get (by decide)) :=
  (restartable_iff (Machine.reachable_get (M := system) (shortRun.take 3 ++ [.stop]) (by decide))
    (by decide)).mpr (Or.inr fun hnone => absurd (hnone 0) (by decide))

/-- **The stop that cannot be taken back.**  Stopped while nobody is anywhere, the elevator idles
    and never goes offline. -/
theorem idle_stop_never_offline :
    ¬ ∀ s, system.Reachable s → s.pc = .load → s.b.e.shutdown = 1 → Restartable s := by
  intro hall
  have hr := Machine.reachable_get (M := system) [.start, .stop] (by decide)
  obtain ⟨n, _, s', hit, hoff, _⟩ := hall _ hr (by decide) (by decide)
  have hsound := Sound.reachable (loose_of_system hr)
  have hnone : ∀ i, (((system.run [.start, .stop]).get (by decide)).b.f i).waiting = [] := by
    decide
  have hwedged : Wedged ⟨_, hsound⟩ :=
    ⟨show ((system.run [.start, .stop]).get (by decide)).b.e.shutdown = 1 by decide, hnone,
      show ((system.run [.start, .stop]).get (by decide)).b.e.status ≠ .offline by decide⟩
  rw [iterations_eq n ⟨_, hsound⟩, Option.some.injEq] at hit
  rw [← hit] at hoff
  exact hwedged.never_offline n hoff

/-! ## An orderly shutdown -/

/-- A turn only adds to the history, so what has happened stays in it. -/
theorem turns_log (n : Nat) (s : SoundSys) : ∃ evs, (turn^[n] s).1.log = s.1.log ++ evs := by
  induction n with
  | zero => exact ⟨[], (List.append_nil _).symm⟩
  | succ n ih =>
    obtain ⟨evs, hlog⟩ := ih
    obtain ⟨evs₁, hload⟩ := LoadStep.threadOnly_chain (turn^[n] s).chain
    obtain ⟨evs₂, hmove⟩ := (turn_move (turn^[n] s)).threadOnly
    refine ⟨evs ++ evs₁ ++ evs₂, ?_⟩
    rw [iterate_succ_apply', hmove.log, hload.log, hlog, List.append_assoc, List.append_assoc,
      List.append_assoc]

/-- Turns stay within the reachable states, and accept nobody. -/
theorem turns_reachable {s : SoundSys} {ps : List Passenger} (hr : loose.Reachable s.1)
    (hacc : accepted s.1.log = ps) (n : Nat) :
    loose.Reachable (turn^[n] s).1 ∧ accepted (turn^[n] s).1.log = ps :=
  iterate_preserves (P := fun t : SoundSys => loose.Reachable t.1 ∧ accepted t.1.log = ps)
    (fun t ht => ⟨turn_reachable ht.1, (turn_accepted t).trans ht.2⟩) n ⟨hr, hacc⟩

/-- From `s` to `s'` everybody on board got off, at their own floor, and was counted there. -/
structure Emptied (s s' : Sys) : Prop where
  empty : ∀ j, s'.b.e.p j = []
  delivered : ∃ evs, s'.log = s.log ++ evs ∧ (delivered evs).Perm (onboard s.b.e) ∧
    ∀ p floor, Event.delivered p floor ∈ evs → floor = p.dFloor
  serviced : ∀ i : Slot, (s'.b.f i).serviced
    = (s.b.f i).serviced + ((onboard s.b.e).countP fun p => p.sFloor = (i : Int))

/-- With the queues and the accepted requests as they were, an empty cabin was emptied: whoever
    was on board has been delivered. -/
theorem emptied_of_empty {s s' : Sys} (hr : loose.Reachable s) (hr' : loose.Reachable s')
    (hempty : s'.b.e.Empty) (hqueue : ∀ i, (s'.b.f i).waiting = (s.b.f i).waiting)
    (hacc : accepted s'.log = accepted s.log) {evs : List Event} (hlog : s'.log = s.log ++ evs) :
    Emptied s s' := by
  refine ⟨hempty, ⟨evs, hlog, ?_, ?_⟩, ?_⟩
  · -- the accepted requests are the delivered, those on board and those waiting, before and after
    have hperm := (Conserved.reachable hr).perm
    have hperm' := (Conserved.reachable hr').perm
    have hq : queued s'.b = queued s.b := by simp only [queued, hqueue]
    rw [hacc, hlog, delivered_append, onboard_eq_nil.mpr hempty, List.append_nil, hq] at hperm'
    have hsame := hperm'.symm.trans hperm
    exact (List.perm_append_left_iff _).mp ((List.perm_append_right_iff _).mp hsame)
  · intro p floor hmem
    refine (Witnessed.reachable hr').delivered p floor ?_
    rw [hlog]
    exact List.mem_append_right _ hmem
  · intro i
    have htally := Tally.reachable hr i
    have htally' := Tally.reachable hr' i
    rw [hacc, hqueue, total_empty _ hempty, ← htally, total_onboard] at htally'
    rw [← sum_indicator]
    simp only [decide_eq_true_eq]
    omega

/-- **An orderly shutdown.**  From every reachable state with `e.shutdown` set: however many
    iterations follow without a call, the waiting lists and their counters stay as they are; from
    the twentieth on the cabin is empty, everybody who was on board having been delivered at their
    own floor and counted once at the floor they came from; and if somebody waits, there is a first
    iteration to end with an empty cabin, within the first twenty, the elevator being offline at the
    end of every iteration from that one on and of none before. -/
theorem orderly_shutdown {s : Sys} (hr : system.Reachable s) (hsd : s.b.e.shutdown = 1) :
    (∀ n, ∃ s', iterations n s = some s' ∧ ∀ i, (s'.b.f i).waiting = (s.b.f i).waiting ∧
      (s'.b.f i).toLoad = (s.b.f i).toLoad) ∧
    (∀ n, 20 ≤ n → ∃ s', iterations n s = some s' ∧ Emptied s s') ∧
    (¬ s.b.NoneWaiting → ∃ n, 1 ≤ n ∧ n ≤ 20 ∧ ∀ m, 1 ≤ m → ∃ s', iterations m s = some s' ∧
      (n ≤ m → s'.b.e.Empty ∧ s'.b.e.status = .offline) ∧
      (m < n → ¬ s'.b.e.Empty ∧ s'.b.e.status ≠ .offline)) := by
  have hloose := loose_of_system hr
  have hsound := Sound.reachable hloose
  refine ⟨fun n => ?_, fun n hn => ?_, fun hsome => ?_⟩
  · exact ⟨_, iterations_eq n ⟨s, hsound⟩, turns_queue_kept (s := ⟨s, hsound⟩) hsd n⟩
  · refine ⟨_, iterations_eq n ⟨s, hsound⟩, ?_⟩
    obtain ⟨evs, hlog⟩ := turns_log n ⟨s, hsound⟩
    obtain ⟨hlate, hacc⟩ := turns_reachable (s := ⟨s, hsound⟩) hloose rfl n
    exact emptied_of_empty hloose hlate (shut_empties (s := ⟨s, hsound⟩) hsd hn)
      (fun i => (turns_queue_kept (s := ⟨s, hsound⟩) hsd n i).1) hacc hlog
  · -- the least number of turns, not zero, after which the cabin is empty
    have hex : ∃ k, (turn^[k + 1] ⟨s, hsound⟩).1.b.e.Empty :=
      ⟨19, shut_empties (s := ⟨s, hsound⟩) hsd (by omega)⟩
    classical
    obtain ⟨k, hk, hleast⟩ := Nat.findX hex
    have hk20 : k ≤ 19 := by
      by_contra hlt
      exact hleast 19 (by omega) (shut_empties (s := ⟨s, hsound⟩) hsd (by omega))
    refine ⟨k + 1, by omega, by omega, fun m hm => ⟨_, iterations_eq m ⟨s, hsound⟩, ?_, ?_⟩⟩
    · intro hkm
      have hempty := turns_empty (s := ⟨s, hsound⟩) hsd hkm hk
      obtain ⟨l, rfl⟩ : ∃ l, m = l + 1 := ⟨m - 1, by omega⟩
      exact ⟨hempty, (shut_offline_iff (s := ⟨s, hsound⟩) hsd hsome l).mpr hempty⟩
    · intro hmk
      obtain ⟨l, rfl⟩ : ∃ l, m = l + 1 := ⟨m - 1, by omega⟩
      have hfull := hleast l (by omega)
      exact ⟨hfull, fun hoff =>
        hfull ((shut_offline_iff (s := ⟨s, hsound⟩) hsd hsome l).mp hoff)⟩

/-- Three bellhops on board when the stop comes, and one waiting: the three are delivered, and the
    one still waits. -/
theorem orderly_shutdown_sevenBells :
    ∃ s s', system.run (sevenBells ++ [.stop]) = some s ∧
      (onboard s.b.e).map Passenger.node = [3, 4, 5] ∧
      (s.b.f 0).waiting.map Passenger.node = [6] ∧ iterations 20 s = some s' ∧ Emptied s s' ∧
      (s'.b.f 0).waiting = (s.b.f 0).waiting ∧ s'.b.e.status = .offline := by
  have hrun := Machine.run_get (M := system) (sevenBells ++ [.stop]) (by decide)
  obtain ⟨hkept, hemptied, hoffline⟩ :=
    orderly_shutdown (Machine.reachable_iff_run.mpr ⟨_, hrun⟩) (by decide)
  obtain ⟨s', hit, hkept⟩ := hkept 20
  obtain ⟨t, ht, hemptied⟩ := hemptied 20 (Nat.le_refl 20)
  obtain ⟨n, _, hn, hlater⟩ := hoffline fun hnone => absurd (hnone 0) (by decide)
  obtain ⟨u, hu, hend, _⟩ := hlater 20 (by decide)
  obtain rfl : s' = t := Option.some.inj (hit.symm.trans ht)
  obtain rfl : s' = u := Option.some.inj (hit.symm.trans hu)
  exact ⟨_, s', hrun, by decide, by decide, hit, hemptied, (hkept 0).1, (hend hn).2⟩

end KernelModules.Part3
