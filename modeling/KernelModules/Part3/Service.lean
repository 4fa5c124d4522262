/-
  Who gets on board: the head of a queue, followed until it boards.

  Whoever is at the head of a waiting list stays there until the load loop takes it (`Ahead`).
  While it stays, the cabin has work it can do as long as the head's trip can be served at all, so
  the work falls every twenty turns and the head must board before it runs out.

  One trip cannot be served: `issue_request` accepts a request from floor 1 to floor 1, whose
  `pDirection` is 0, and on the sweep the cabin is never at the ground floor heading down.  Such a
  head blocks its queue (`Stuck`).  The one moment it can board is directly after a restart that
  left direction 0 at the ground floor.  `boards_iff_servable` puts the two together.
-/
import KernelModules.Part3.Drain

namespace KernelModules.Part3

open Function Relation KernelModules.Lib

variable {i : Slot} {h : Passenger}

/-! ## The head of a queue stays until it boards -/

/-- `h` has boarded at floor `i`, or is at the head of its queue. -/
def Ahead (i : Slot) (h : Passenger) (s : Sys) : Prop :=
  h ∈ boardedAt i s.log ∨ ∃ l, (s.b.f i).waiting = h :: l

/-- **A turn of the load phase** takes the head of a list or leaves it there; nobody gets in front
    of it. -/
theorem LoadStep.ahead {s s' : Sys} (ha : Ahead i h s) (hst : LoadStep s s') : Ahead i h s' := by
  cases hst with
  | enter => exact ha
  | close => exact ha
  | @deliver k c p l hld hc hp hk =>
    rcases ha with hlog | ⟨l', hw⟩
    · refine Or.inl ?_
      rw [Sys.record_log, boardedAt_append]
      exact List.mem_append_left _ hlog
    · refine Or.inr ⟨l', ?_⟩
      rw [Sys.record_b, s.b.waiting_delivered]
      exact hw
  | @board c j p l hld hsd hc hw hj hfit hdir =>
    rcases ha with hlog | ⟨l', hw'⟩
    · refine Or.inl ?_
      rw [Sys.record_log, boardedAt_append]
      exact List.mem_append_left _ hlog
    · by_cases hic : i = c
      · -- the passenger who boards is the head
        subst hic
        rw [hw] at hw'
        obtain ⟨rfl, _⟩ := List.cons.inj hw'
        refine Or.inl ?_
        rw [Sys.record_log, boardedAt_append]
        exact List.mem_append_right _ (by simp [boardedAt, hc])
      · refine Or.inr ⟨l', ?_⟩
        show ((s.b.boarded c j p l).f i).waiting = _
        simpa [Building.boarded, hic] using hw'

/-- Nobody boards in a move phase. -/
theorem MoveStep.boardedAt_eq {s s' : Sys} (hst : MoveStep s s') (c : Int) :
    boardedAt c s'.log = boardedAt c s.log := by
  cases hst with
  | rest => rfl
  | idle => simp [boardedAt]
  | goOffline => simp [boardedAt]
  | advance => simp [boardedAt]

theorem MoveStep.ahead {s s' : Sys} (ha : Ahead i h s) (hst : MoveStep s s') : Ahead i h s' := by
  rw [Ahead, hst.boardedAt_eq, hst.same.f]
  exact ha

/-- So the head of a queue stays its head from turn to turn, until it boards, whatever happens
    elsewhere. -/
theorem turn_ahead {s : SoundSys} (ha : Ahead i h s.1) : Ahead i h (turn s).1 := by
  refine (turn_move s).ahead ?_
  exact LoadStep.chain (P := Ahead i h) (fun _ _ _ hp hst => hst.ahead hp) s.2 s.chain ha

/-! ## A servable head boards -/

/-- A head that waits is work to do, so the bound by the work is not reached before it boards. -/
theorem work_pos_of_head {b : Building} {l : List Passenger} (hw : (b.f i).waiting = h :: l) :
    0 < work b := by
  rcases Nat.eq_zero_or_pos (work b) with hzero | hpos
  · have hnone := (work_eq_zero.mp hzero).2 i
    rw [hw] at hnone
    exact absurd hnone (by simp)
  · exact hpos

/-- A servable head boards, by induction on a bound of the work: each window of twenty turns has
    done some, or has taken the head. -/
theorem servable_boards {ps : List Passenger} (hserv : h.Servable) :
    ∀ (m : Nat) {s : SoundSys}, Running ps s → Ahead i h s.1 → work s.1.b ≤ m →
      ∃ n, h ∈ boardedAt i (turn^[n] s).1.log := by
  intro m
  induction m with
  | zero =>
    intro s _ ha hm
    rcases ha with hlog | ⟨l, hw⟩
    · exact ⟨0, hlog⟩
    · have := work_pos_of_head hw
      omega
  | succ m ih =>
    intro s hrun ha hm
    rcases ha with hlog | ⟨l, hw⟩
    · exact ⟨0, hlog⟩
    · have hless := progress hrun.online hrun.flag (Or.inr ⟨i, h, l, hw, hserv⟩)
        (work_pos_of_head hw)
      have hrun' := iterate_preserves (P := Running ps) (fun t ht => ht.turn) 20 hrun
      have ha' := iterate_preserves (P := fun t : SoundSys => Ahead i h t.1)
        (fun t ht => turn_ahead ht) 20 (Or.inr ⟨l, hw⟩ : Ahead i h s.1)
      obtain ⟨n, hn⟩ := ih hrun' ha' (Nat.lt_succ_iff.mp (Nat.lt_of_lt_of_le hless hm))
      refine ⟨n + 20, ?_⟩
      rw [iterate_add_apply]
      exact hn

/-! ## A head for the ground floor, at the ground floor -/

/-- After a stale restart the head of the ground floor's queue boards at once if it does not go
    up: whoever was on board gets off first. -/
theorem stale_boards {s : SoundSys} (hstale : Stale s.1.b.e) (hon : s.1.b.e.status ≠ .offline)
    (hsd : s.1.b.e.shutdown = 0) {l : List Passenger} (hw : (s.1.b.f 0).waiting = h :: l)
    (hdir : pDirection h = 0) : h ∈ boardedAt (0 : Slot) (turn s).1.log := by
  have hvalid := (s.2.stock.waiting_head hw).1
  have hafter : h ∈ boardedAt (0 : Slot) s.afterLoad.log := by
    have hcur := hstale.current
    have hsound := LoadStep.sound_chain s.2 s.chain
    have hstop := s.stop
    generalize s.afterLoad = t at hstop hsound
    cases hstop with
    | offline hoff => exact absurd hoff hon
    | @nobody c _ hc hnone _ =>
      obtain rfl : c = 0 := Fin.ext (by show (c : Nat) = 0; omega)
      rw [hw] at hnone
      exact absurd hnone (by simp)
    | @serve c took kept _ hc hsplit _ _ hstop =>
      obtain rfl : c = 0 := Fin.ext (by show (c : Nat) = 0; omega)
      cases took with
      | cons p took =>
        rw [hw] at hsplit
        obtain ⟨rfl, _⟩ := List.cons.inj hsplit
        show h ∈ boardedAt (0 : Slot) ((s.1.log ++ _) ++ (Event.boarded h s.1.b.e.current :: _))
        rw [boardedAt_append, hcur]
        refine List.mem_append_right _ ?_
        simp [boardedAt]
      | nil =>
        -- nobody boarded, so the cabin is empty in front of a head it would take
        have hempty : (s.1.served 0 [] kept).b.e.Empty := by
          intro j
          show update s.1.b.e.p 0 [] j ++ [] = []
          rw [List.append_nil]
          by_cases hj : j = 0
          · rw [hj, update_self]
          · rw [update_of_ne hj]
            exact s.2.motion.ground hstale j hj
        have htakes := boards_empty (b := (s.1.served 0 [] kept).b) hsound.stock hempty hvalid (by
          show pDirection h = s.1.b.e.direction
          rw [hdir, hstale.direction])
        rw [List.nil_append, hw] at hsplit
        rw [hstop (by rw [hsd]; decide) h l hsplit.symm] at htakes
        exact absurd htakes (by decide)
  rw [(turn_move s).boardedAt_eq]
  exact hafter

/-- On the sweep, with a head at the ground floor that does not go up. -/
def Stuck (h : Passenger) (s : Sys) : Prop :=
  (∃ x, At s.b.e x) ∧ ∃ l, (s.b.f 0).waiting = h :: l

/-- A head that does not go up never boards at the ground floor, where the cabin always goes up:
    the loop ends in front of it. -/
theorem LoadStep.stuck (hdir : pDirection h = 0) {s s' : Sys} (hs : Stuck h s)
    (hst : LoadStep s s') : Stuck h s' := by
  obtain ⟨⟨x, hx⟩, l', hw'⟩ := hs
  cases hst with
  | enter => exact ⟨⟨x, hx.congr rfl rfl rfl⟩, l', hw'⟩
  | close => exact ⟨⟨x, hx⟩, l', hw'⟩
  | @deliver k c p l hld hc hp hk =>
    refine ⟨⟨x, hx.congr rfl rfl rfl⟩, l', ?_⟩
    rw [Sys.record_b, s.b.waiting_delivered]
    exact hw'
  | @board c j p l hld hsd hc hw hj hfit hpd =>
    refine ⟨⟨x, hx.congr rfl rfl rfl⟩, l', ?_⟩
    have hc0 : (0 : Slot) ≠ c := by
      intro hc0
      subst hc0
      rw [hw] at hw'
      obtain ⟨rfl, _⟩ := List.cons.inj hw'
      -- at the ground floor the sweep goes up
      have hcur : s.b.e.current = 0 := hc
      rcases hx.cases with hup | hdown
      · omega
      · omega
    show ((s.b.boarded c j p l).f 0).waiting = _
    simpa [Building.boarded, hc0] using hw'

/-- Nor does the cabin ever come there in another direction: a move leaves it on the sweep. -/
theorem turn_stuck (hdir : pDirection h = 0) {s : SoundSys} (hs : Stuck h s.1) :
    Stuck h (turn s).1 := by
  have hload : Stuck h s.afterLoad :=
    LoadStep.chain (P := Stuck h) (fun _ _ _ hp hst => hst.stuck hdir hp) s.2 s.chain hs
  obtain ⟨⟨x, hx⟩, l, hw⟩ := hload
  have hmove := turn_move s
  refine ⟨?_, l, by rw [hmove.same.f]; exact hw⟩
  generalize (turn s).1 = t at hmove
  cases hmove with
  | rest => exact ⟨x, hx⟩
  | idle => exact ⟨x, hx.congr rfl rfl rfl⟩
  | goOffline => exact ⟨x, hx.congr rfl rfl rfl⟩
  | advance => exact ⟨x + 1, moveCabin_at hx⟩

/-- Who waits has not boarded. -/
theorem not_boarded_of_waiting {s : Sys} (hr : loose.Reachable s) {l : List Passenger}
    (hw : (s.b.f i).waiting = h :: l) : h ∉ boardedAt i s.log := by
  intro hmem
  have hqueue := (Fifo.reachable hr).queue i
  have hnodup := (Sound.reachable hr).census.nodup
  rw [List.map_append, List.nodup_append] at hnodup
  have hacc := (List.Nodup.of_map _ hnodup.1).filter (startsAt i)
  rw [hqueue, List.nodup_append] at hacc
  exact hacc.2.2 h hmem h (by rw [hw]; exact List.mem_cons_self) rfl

/-- A stuck head never boards, however long the thread runs, and nobody behind it does. -/
theorem stuck_never_boards (hdir : pDirection h = 0) {s : SoundSys} (hr : loose.Reachable s.1)
    (hs : Stuck h s.1) (n : Nat) : h ∉ boardedAt (0 : Slot) (turn^[n] s).1.log := by
  have hlate := iterate_preserves (f := turn)
    (P := fun t : SoundSys => loose.Reachable t.1 ∧ Stuck h t.1)
    (fun t ht => ⟨turn_reachable ht.1, turn_stuck hdir ht.2⟩) n ⟨hr, hs⟩
  obtain ⟨hr', _, l, hw⟩ := hlate
  exact not_boarded_of_waiting hr' hw

/-! ## Exactly who boards -/

/-- **Who boards.**  In every reachable state in which the elevator is neither offline nor shut
    down, the head of a queue boards after some number of further iterations without a call
    exactly when its trip is not the one from the ground floor to itself, or the cabin is at the
    ground floor with direction 0. -/
theorem boards_iff_servable {s : Sys} (hr : system.Reachable s) (hon : s.b.e.status ≠ .offline)
    (hsd : s.b.e.shutdown = 0) {l : List Passenger} (hw : (s.b.f i).waiting = h :: l) :
    (∃ n s', iterations n s = some s' ∧ h ∈ boardedAt i s'.log) ↔
      (¬ (h.sFloor = 0 ∧ h.dFloor = 0) ∨ (s.b.e.current = 0 ∧ s.b.e.direction = 0)) := by
  have hloose := loose_of_system hr
  have hsound := Sound.reachable hloose
  have hrun : Running (accepted s.log) ⟨s, hsound⟩ := ⟨hloose, hon, hsd, rfl⟩
  have hsrc := (hsound.stock.waiting_head hw).2
  constructor
  · rintro ⟨n, s', hit, hmem⟩
    by_contra hnot
    obtain ⟨hground, hoff⟩ := not_or.mp hnot
    obtain ⟨hs0, hd0⟩ := not_not.mp hground
    obtain rfl : i = 0 := Fin.ext (by show (i : Nat) = 0; omega)
    have hdir : pDirection h = 0 := by rw [pDirection, if_neg (by omega)]
    rw [iterations_eq n ⟨s, hsound⟩, Option.some.injEq] at hit
    rw [← hit] at hmem
    rcases hsound.motion.track with hx | hstale
    · exact stuck_never_boards hdir hloose ⟨hx, l, hw⟩ n hmem
    · exact hoff ⟨hstale.current, hstale.direction⟩
  · intro hcond
    by_cases hserv : h.Servable
    · obtain ⟨n, hn⟩ := servable_boards hserv (work s.b) hrun (Or.inr ⟨l, hw⟩) (Nat.le_refl _)
      exact ⟨n, _, iterations_eq n ⟨s, hsound⟩, hn⟩
    · -- the trip cannot be served, so the cabin is where a stale restart left it
      obtain ⟨hs0, hd0⟩ := not_not.mp hserv
      rcases hcond with hcond | ⟨hcur, hdown⟩
      · exact absurd hcond hserv
      · obtain rfl : i = 0 := Fin.ext (by show (i : Nat) = 0; omega)
        have hstale : Stale s.b.e := by
          rcases hsound.motion.track with ⟨x, hx⟩ | hstale
          · rcases hx.cases with hup | hdown'
            · omega
            · omega
          · exact hstale
        have hdir : pDirection h = 0 := by rw [pDirection, if_neg (by omega)]
        exact ⟨1, _, iterations_eq 1 ⟨s, hsound⟩,
          stale_boards (s := ⟨s, hsound⟩) hstale hon hsd hw hdir⟩

/-- A bellhop who waits on the ground floor for the second floor is taken, as the theorem says. -/
theorem boards_iff_servable_bell :
    let s := (system.run (shortRun.take 3)).get (by decide)
    ∃ n s', iterations n s = some s' ∧ (⟨0, .bell, 0, 2⟩ : Passenger) ∈ boardedAt (0 : Slot) s'.log :=
  (boards_iff_servable (i := 0) (l := [])
    (Machine.reachable_get (M := system) (shortRun.take 3) (by decide)) (by decide) (by decide)
    (by decide)).mpr (Or.inl (by decide))

/-- An adult asks for a ride from floor 1 to floor 1. -/
def groundTrip : List Act := [.start, .request 1 1 1, .insert ⟨0, .adult, 0, 0⟩]

/-- **The one who is never served.**  A request from the ground floor to the ground floor waits for
    ever, and everybody behind it does. -/
theorem ground_trip_never_boards :
    ¬ ∀ s, system.Reachable s → s.pc = .load → s.b.e.status ≠ .offline → s.b.e.shutdown = 0 →
      ∀ (i : Slot) (h : Passenger) (l : List Passenger), (s.b.f i).waiting = h :: l →
        ∃ n s', iterations n s = some s' ∧ h ∈ boardedAt i s'.log := by
  intro hall
  have hr := Machine.reachable_get (M := system) groundTrip (by decide)
  have hloose := loose_of_system hr
  have hw : (((system.run groundTrip).get (by decide)).b.f 0).waiting
      = [⟨0, .adult, 0, 0⟩] := by decide
  have hat : At ((system.run groundTrip).get (by decide)).b.e 0 := by
    constructor <;> decide
  obtain ⟨n, s', hit, hmem⟩ := hall _ hr (by decide) (by decide) (by decide) 0 _ _ hw
  rw [iterations_eq n ⟨_, Sound.reachable hloose⟩, Option.some.injEq] at hit
  rw [← hit] at hmem
  exact stuck_never_boards (by decide) hloose ⟨⟨0, hat⟩, [], hw⟩ n hmem

end KernelModules.Part3
