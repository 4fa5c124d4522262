/-
  Progress of the thread's loop: every turn either serves somebody or goes on sweeping.

  `work` weighs the passengers still to be served: two for one who waits (to board, to get off),
  one for one on board.  No turn raises it, and it falls by one with every event of a load phase,
  so a turn at which it does NOT fall is fully known (`turn_quiet`): no list and no load changed,
  the cabin moved one step along the sweep, nobody was to get off at the floor it stood at, and
  the head of the queue there was not taken.

  The sweep meets every floor with every heading within a period.  So a turn at which the work
  does not fall cannot repeat for long while there is somebody on board, or somebody waiting that
  an empty cabin would take (`progress`).
-/
import KernelModules.Part3.Fifo

namespace KernelModules.Part3

open Function Relation KernelModules.Lib

/-! ## Counting passengers -/

/-- The passengers still to be served, those waiting counting twice. -/
def work (b : Building) : Nat := 2 * (queued b).length + (onboard b.e).length

theorem total_one (l : List Passenger) : (l.map fun _ => (1 : Int)).sum = l.length := by
  simp

theorem length_onboard (e : Elevator) :
    ((onboard e).length : Int) = total (fun _ => (1 : Int)) e.p := by
  rw [total_onboard, total_one]

theorem length_queued (b : Building) :
    ((queued b).length : Int) = total (fun _ => (1 : Int)) fun i => (b.f i).waiting := by
  rw [← total_one, queued, List.map_flatMap, List.flatMap_def, List.sum_flatten, List.map_map,
    ← Fin.sum_univ_def]
  rfl

theorem onboard_eq_nil {e : Elevator} : onboard e = [] ↔ e.Empty := by
  simp [onboard, Elevator.Empty]

theorem queued_eq_nil {b : Building} : queued b = [] ↔ b.NoneWaiting := by
  simp [queued, Building.NoneWaiting]

/-- No work is left exactly when all lists are empty, which is when the elevator idles. -/
theorem work_eq_zero {b : Building} : work b = 0 ↔ b.e.Empty ∧ b.NoneWaiting := by
  rw [← onboard_eq_nil, ← queued_eq_nil, ← List.length_eq_zero_iff, ← List.length_eq_zero_iff, work]
  omega

/-- Work reads the lists only: counters, position and status do not show in it. -/
theorem work_congr {b b' : Building} (hf : ∀ i, (b'.f i).waiting = (b.f i).waiting)
    (hp : b'.e.p = b.e.p) : work b' = work b := by
  have hq : queued b' = queued b := by simp only [queued, hf]
  have ho : onboard b'.e = onboard b.e := by rw [onboard, hp]; rfl
  rw [work, hq, ho]
  rfl

/-- A delivery is one unit of work: one ride less to finish, and nobody else is nearer or
    further. -/
theorem work_delivered {b : Building} {i c : Slot} {p : Passenger} {l : List Passenger}
    (hp : b.e.p c = p :: l) : work (b.delivered i c p l) + 1 = work b := by
  have hq : queued (b.delivered i c p l) = queued b := by
    simp only [queued, b.waiting_delivered]
  have ho : ((onboard (b.delivered i c p l).e).length : Int) = (onboard b.e).length - 1 := by
    rw [length_onboard, length_onboard]
    exact total_drop_head _ hp
  rw [work, work, hq]
  omega

/-- So is a boarding: a passenger who waits has two steps to go, and one on board has one. -/
theorem work_boarded {b : Building} {c j : Slot} {p : Passenger} {l : List Passenger}
    (hw : (b.f c).waiting = p :: l) : work (b.boarded c j p l) + 1 = work b := by
  have hfam : (fun k => ((b.boarded c j p l).f k).waiting)
      = update (fun k => (b.f k).waiting) c l := by
    funext k
    by_cases hk : k = c
    · subst hk; simp [Building.boarded]
    · simp [Building.boarded, hk]
  have hq : ((queued (b.boarded c j p l)).length : Int) = (queued b).length - 1 := by
    rw [length_queued, length_queued, hfam]
    exact total_drop_head _ hw
  have ho : ((onboard (b.boarded c j p l).e).length : Int) = (onboard b.e).length + 1 := by
    rw [length_onboard, length_onboard]
    exact total_pushTail _ j p b.e.p
  rw [work, work]
  omega

/-- Every event of a load phase is one unit of work done.  The doors themselves are neither event
    nor work. -/
theorem LoadStep.work_log {s s' : Sys} (hst : LoadStep s s') :
    ∃ n, s'.log.length = s.log.length + n ∧ work s'.b + n = work s.b := by
  cases hst with
  | enter => exact ⟨0, rfl, rfl⟩
  | close => exact ⟨0, rfl, rfl⟩
  | deliver _ _ hp _ => exact ⟨1, List.length_append, work_delivered hp⟩
  | board _ _ _ hw _ _ _ => exact ⟨1, List.length_append, work_boarded hw⟩

/-- Along a load phase the work falls by one with every event, and with nothing else, so as many
    events as there are tell how much has been done. -/
theorem LoadStep.work_log_chain {s s' : Sys} (hst : ReflTransGen LoadStep s s') :
    ∃ n, s'.log.length = s.log.length + n ∧ work s'.b + n = work s.b := by
  induction hst with
  | refl => exact ⟨0, rfl, rfl⟩
  | tail _ hstep ih =>
    obtain ⟨n, hlog, hwork⟩ := ih
    obtain ⟨m, hlog', hwork'⟩ := hstep.work_log
    exact ⟨n + m, by omega, by omega⟩

theorem LoadStep.work_le {s s' : Sys} (hst : ReflTransGen LoadStep s s') :
    work s'.b ≤ work s.b := by
  obtain ⟨n, _, hwork⟩ := LoadStep.work_log_chain hst
  omega

/-! ## A load phase that serves nobody -/

/-- Nobody gets off here, and the head of the queue is not taken. -/
def Quiet (s : Sys) : Prop :=
  ∀ c : Slot, s.b.e.current = c → s.b.e.p c = [] ∧
    (s.b.e.shutdown ≠ 1 → ∀ q qs, (s.b.f c).waiting = q :: qs → boards q s.b.e = false)

/-- The passengers and the loads are the same. -/
structure SameLists (b b' : Building) : Prop where
  f : b'.f = b.f
  p : b'.e.p = b.e.p
  toLoad : b'.e.toLoad = b.e.toLoad

theorem SameLists.trans {a b c : Building} (h : SameLists a b) (h' : SameLists b c) :
    SameLists a c :=
  ⟨h'.f.trans h.f, h'.p.trans h.p, h'.toLoad.trans h.toLoad⟩

theorem SameLists.work_eq {b b' : Building} (h : SameLists b b') : work b' = work b :=
  work_congr (fun i => by rw [h.f]) h.p

/-- One stop does some work, or finds a quiet floor and changes no list: nobody for this floor on
    board, and nobody here to be taken. -/
theorem Stop.work_cases {s t : Sys} (h : Stop s t) (hchain : ReflTransGen LoadStep s t)
    (hon : s.b.e.status ≠ .offline) :
    work t.b < work s.b ∨ SameLists s.b t.b ∧ Quiet s := by
  obtain ⟨n, hgrown, hwork⟩ := LoadStep.work_log_chain hchain
  cases h with
  | offline hoff => exact absurd hoff hon
  | @nobody c _ hc hw hp =>
    refine Or.inr ⟨⟨rfl, rfl, rfl⟩, fun k hk => ?_⟩
    obtain rfl : k = c := Fin.ext (by omega)
    refine ⟨hp, fun _ q qs hq => ?_⟩
    rw [hw] at hq
    exact absurd hq (by simp)
  | @serve c took kept _ hc hsplit _ _ hstop =>
    -- the history grows by one event for each passenger served
    have hlog : (s.served c took kept).log.length
        = s.log.length + (s.b.e.p c).length + took.length := by
      show ((s.log ++ _) ++ _).length = _
      rw [List.length_append, List.length_append, List.length_map, List.length_map]
    have hgrown' : (s.served c took kept).log.length = s.log.length + n := hgrown
    have hwork' : work (s.served c took kept).b + n = work s.b := hwork
    by_cases hnone : s.b.e.p c = [] ∧ took = []
    · obtain ⟨hp, rfl⟩ := hnone
      rw [List.nil_append] at hsplit
      have hserved : s.served c [] kept = openDoors s := by
        have hp' : (openDoors s).b.e.p c = [] := hp
        rw [Sys.served, hp, Sys.unloaded_nil hp']
        exact Sys.loaded_nil hsplit
      rw [hserved] at hstop ⊢
      refine Or.inr ⟨⟨rfl, rfl, rfl⟩, fun k hk => ?_⟩
      obtain rfl : k = c := Fin.ext (by omega)
      refine ⟨hp, fun hsd q qs hq => hstop hsd q qs ?_⟩
      rw [← hsplit, hq]
    · refine Or.inl ?_
      have hpos : 0 < (s.b.e.p c).length + took.length := by
        by_contra hzero
        refine hnone ⟨List.length_eq_zero_iff.mp (by omega), List.length_eq_zero_iff.mp (by omega)⟩
      show work (s.served c took kept).b < work s.b
      omega

/-! ## A turn that serves nobody -/

theorem turn_move (s : SoundSys) : MoveStep s.afterLoad (turn s).1 := movePhase_step s.afterLoad

/-- A turn does not touch the shutdown flag: the thread reads it twice, and the calls write it. -/
theorem turn_shutdown (s : SoundSys) : (turn s).1.b.e.shutdown = s.1.b.e.shutdown := by
  have hframe := (LoadStep.frame s.chain).2.2.2
  have hmove := turn_move s
  generalize (turn s).1 = t at hmove
  cases hmove with
  | rest => exact hframe
  | idle => exact hframe
  | goOffline => exact hframe
  | advance => exact (moveCabin_shutdown _).trans hframe

theorem MoveStep.same {s s' : Sys} (h : MoveStep s s') : SameLists s.b s'.b := by
  cases h with
  | rest => exact ⟨rfl, rfl, rfl⟩
  | idle => exact ⟨rfl, rfl, rfl⟩
  | goOffline => exact ⟨rfl, rfl, rfl⟩
  | advance => exact ⟨rfl, moveCabin_p _, moveCabin_toLoad _⟩

/-- No turn raises the work: its load phase may lower it, and its move phase moves nobody. -/
theorem turn_work_le (s : SoundSys) : work (turn s).1.b ≤ work s.1.b := by
  rw [(turn_move s).same.work_eq]
  exact LoadStep.work_le s.chain

/-- One step of the travel: along the sweep, or onto it after a stale restart. -/
structure Sweeps (e e' : Elevator) : Prop where
  track : ∀ x, At e x → At e' (x + 1)
  stale : Stale e → At e' 17

/-- A move phase that moves the cabin, after a load phase that kept its position, is one step of
    the sweep. -/
theorem turn_sweeps {s : SoundSys} (h : (turn s).1.b.e = moveCabin s.afterLoad.b.e) :
    Sweeps s.1.b.e (turn s).1.b.e := by
  obtain ⟨hc, hn, hd, _⟩ := LoadStep.frame s.chain
  rw [h]
  exact ⟨fun x hx => moveCabin_at (hx.congr hc hn hd), fun hst => moveCabin_stale (hst.congr hc hn hd)⟩

/-- A load phase does not take the elevator offline; only a move phase can, in a turn of its own. -/
theorem Stop.online {s t : Sys} (h : Stop s t) (hon : s.b.e.status ≠ .offline) :
    t.b.e.status ≠ .offline := by
  cases h with
  | offline hoff => exact hon
  | nobody => exact hon
  | serve =>
    show State.loading ≠ State.offline
    decide

/-- **A turn with work to do** does some of it, or finds a quiet floor and sweeps on.  There is no
    third way, since the elevator is running and somebody is there. -/
theorem turn_quiet {s : SoundSys} (hon : s.1.b.e.status ≠ .offline)
    (hsd : s.1.b.e.shutdown = 0) (hwork : work (turn s).1.b = work s.1.b)
    (hpos : 0 < work s.1.b) :
    SameLists s.1.b (turn s).1.b ∧ Quiet s.1 ∧ (turn s).1.b.e.status ≠ .offline ∧
      Sweeps s.1.b.e (turn s).1.b.e := by
  have hmoved := (turn_move s).same
  rcases s.stop.work_cases s.chain hon with hlt | ⟨hsame, hquiet⟩
  · have := hmoved.work_eq
    omega
  · have hon' := s.stop.online hon
    have hframe := (LoadStep.frame s.chain).2.2.2
    have hgo : (turn s).1.b.e = moveCabin s.afterLoad.b.e := by
      have hmove := turn_move s
      have hleft := hsame.work_eq
      generalize (turn s).1 = t at hmove
      cases hmove with
      | rest hoff => exact absurd hoff hon'
      | idle _ hempty hnone =>
        have := work_eq_zero.mpr ⟨hempty, hnone⟩
        omega
      | goOffline _ _ _ hsd' => omega
      | advance => rfl
    refine ⟨hsame.trans hmoved, hquiet, ?_, turn_sweeps hgo⟩
    rw [hgo]
    exact (moveCabin_status _).2

/-! ## Turns in a row that serve nobody -/

/-- The thread reads `e.shutdown` and never writes it, however many turns it takes. -/
theorem turns_shutdown (n : Nat) (s : SoundSys) :
    (turn^[n] s).1.b.e.shutdown = s.1.b.e.shutdown :=
  iterate_preserves (P := fun t : SoundSys => t.1.b.e.shutdown = s.1.b.e.shutdown)
    (fun t ht => (turn_shutdown t).trans ht) n rfl

/-- Later turns never have more work than earlier ones, if no call comes between. -/
theorem turns_work_le (s : SoundSys) {m n : Nat} (h : m ≤ n) :
    work (turn^[n] s).1.b ≤ work (turn^[m] s).1.b := by
  have hle := iterate_le (P := fun _ => True) (μ := fun t : SoundSys => work t.1.b)
    (fun _ _ => trivial) (fun t _ => turn_work_le t) (n - m) (s := turn^[m] s) trivial
  rwa [← iterate_add_apply, Nat.sub_add_cancel h] at hle

/-- What is known after `n` turns that did no work. -/
structure Window (s : SoundSys) (n : Nat) : Prop where
  same : SameLists s.1.b (turn^[n] s).1.b
  online : (turn^[n] s).1.b.e.status ≠ .offline
  track : ∀ x, At s.1.b.e x → At (turn^[n] s).1.b.e (x + n)
  quiet : ∀ k, k < n → Quiet (turn^[k] s).1

/-- **A window without work**: the lists stand still and the sweep goes on, one position with
    every turn. -/
theorem quiet_window {s : SoundSys} (hon : s.1.b.e.status ≠ .offline)
    (hsd : s.1.b.e.shutdown = 0) (hpos : 0 < work s.1.b) (n : Nat)
    (hwork : work (turn^[n] s).1.b = work s.1.b) : Window s n := by
  induction n with
  | zero =>
    exact ⟨⟨rfl, rfl, rfl⟩, hon, fun x hx => hx, fun k hk => absurd hk (Nat.not_lt_zero k)⟩
  | succ n ih =>
    rw [iterate_succ_apply'] at hwork
    -- the work cannot have fallen earlier and risen again
    have hle : work (turn^[n] s).1.b ≤ work s.1.b := turns_work_le s (Nat.zero_le n)
    have hlast := turn_work_le (turn^[n] s)
    obtain ⟨hsame, honline, htrack, hquiet⟩ := ih (by omega)
    obtain ⟨hsame', hq, hon', hsweep⟩ := turn_quiet honline
      ((turns_shutdown n s).trans hsd) (by omega) (by omega)
    constructor
    · rw [iterate_succ_apply']
      exact hsame.trans hsame'
    · rw [iterate_succ_apply']
      exact hon'
    · intro x hx
      rw [iterate_succ_apply']
      exact hsweep.track _ (htrack x hx)
    · intro k hk
      rcases Nat.lt_succ_iff_lt_or_eq.mp hk with hk | rfl
      · exact hquiet k hk
      · exact hq

/-! ## Progress -/

/-- Some position of the sweep has the passenger's start floor and heading: all trips but the one
    from the ground floor to itself. -/
def Passenger.Servable (p : Passenger) : Prop := ¬ (p.sFloor = 0 ∧ p.dFloor = 0)

/-- The cabin has somebody to bring home, or somebody at the head of a queue that it can pick
    up. -/
def Pending (b : Building) : Prop :=
  ¬ b.e.Empty ∨ ∃ c h l, (b.f c).waiting = h :: l ∧ h.Servable

theorem Pending.congr {b b' : Building} (h : SameLists b b') (hp : Pending b) : Pending b' := by
  rcases hp with hfull | ⟨c, q, l, hw, hq⟩
  · refine Or.inl fun hempty => hfull fun j => ?_
    rw [← h.p]
    exact hempty j
  · refine Or.inr ⟨c, q, l, ?_, hq⟩
    rw [h.f]
    exact hw

/-- An empty cabin takes every valid passenger with the right heading: nobody is too heavy for it
    alone. -/
theorem boards_empty {b : Building} (h : Stock b) (hempty : b.e.Empty) {p : Passenger}
    (hp : p.Valid) (hdir : pDirection p = b.e.direction) : boards p b.e = true := by
  have hload : b.e.toLoad = 0 := by
    rw [h.cabin]
    exact total_empty _ hempty
  have hw := Passenger.getWeight_range hp.known
  have hq := Passenger.getPass_range hp.known
  have hw0 : b.e.wUnits = 0 := by rw [hload]; rfl
  have hq0 : b.e.pUnits = 0 := by rw [hload]; rfl
  have hfit : canFit p b.e = true := by
    simp only [canFit, hw0, hq0, maxW, maxP, Bool.and_eq_true, decide_eq_true_eq]
    omega
  rw [boards, hfit, hdir]
  simp

/-- The sweep meets the start floor of a servable passenger with its heading, within a period: a
    floor between the ends is met with both headings, and an end with the one it is left with. -/
theorem meets_servable {p : Passenger} {c : Slot} (hp : p.Valid) (hc : p.sFloor = c)
    (hs : p.Servable) (x : Nat) :
    ∃ n, n < 18 ∧ Scan.level 9 (x + n) = c ∧
      pDirection p = if Scan.rising 9 (x + n) then 1 else 0 := by
  obtain ⟨j, hj⟩ := hp.dst
  have hlt := c.isLt
  have hjlt := j.isLt
  by_cases hup : p.dFloor > p.sFloor
  · obtain ⟨n, hn, hl, hr⟩ := @Scan.visits 9 c true (fun _ => by omega) (by simp) x
    refine ⟨n, hn, hl, ?_⟩
    rw [pDirection, if_pos hup, hr]
    rfl
  · have hpos : 0 < (c : Nat) := by
      rcases Nat.eq_zero_or_pos (c : Nat) with h0 | h0
      · exact absurd ⟨by omega, by omega⟩ hs
      · exact h0
    obtain ⟨n, hn, hl, hr⟩ := @Scan.visits 9 c false (by simp) (fun _ => ⟨hpos, by omega⟩) x
    refine ⟨n, hn, hl, ?_⟩
    rw [pDirection, if_neg hup, hr]
    rfl

/-- On the sweep, one period suffices: without work in it the cabin would come to the destination
    of a rider, or to somebody it can take. -/
theorem progress_at {s : SoundSys} {x : Nat} (hx : At s.1.b.e x)
    (hon : s.1.b.e.status ≠ .offline) (hsd : s.1.b.e.shutdown = 0) (hp : Pending s.1.b)
    (hpos : 0 < work s.1.b) : work (turn^[18] s).1.b ≠ work s.1.b := by
  intro hwork
  have hwin := quiet_window hon hsd hpos 18 hwork
  have hkeep : ∀ n, n < 18 → SameLists s.1.b (turn^[n] s).1.b ∧
      At (turn^[n] s).1.b.e (x + n) := by
    intro n hn
    have hle : work (turn^[n] s).1.b ≤ work s.1.b := turns_work_le s (Nat.zero_le n)
    have hge := turns_work_le s (Nat.le_of_lt hn)
    have hw := quiet_window hon hsd hpos n (by omega)
    exact ⟨hw.same, hw.track x hx⟩
  by_cases hempty : s.1.b.e.Empty
  · -- the cabin is empty: it would take the head of the queue when it comes by
    rcases hp with hfull | ⟨c, h, l, hw, hserv⟩
    · exact hfull hempty
    · obtain ⟨hvalid, hsrc⟩ := s.2.stock.waiting_head hw
      obtain ⟨n, hn, hl, hdir⟩ := meets_servable hvalid hsrc hserv x
      obtain ⟨hsame, hat⟩ := hkeep n hn
      have hcur : (turn^[n] s).1.b.e.current = c := by rw [hat.current, hl]
      have hq := (hwin.quiet n hn c hcur).2 (by rw [turns_shutdown, hsd]; decide) h l
        (by rw [hsame.f]; exact hw)
      rw [boards_empty (turn^[n] s).2.stock (by rw [Elevator.Empty, hsame.p]; exact hempty)
        hvalid (by rw [hat.direction, hdir])] at hq
      exact absurd hq (by decide)
  · -- somebody is on board: the cabin comes by the floor they go to
    obtain ⟨j, hj⟩ := not_forall.mp hempty
    have hlt := j.isLt
    obtain ⟨n, hn, hl⟩ := @Scan.visits_level 9 (by omega) j (by omega) x
    obtain ⟨hsame, hat⟩ := hkeep n hn
    have hcur : (turn^[n] s).1.b.e.current = j := by rw [hat.current, hl]
    have hq := (hwin.quiet n hn j hcur).1
    rw [hsame.p] at hq
    exact hj hq

/-- **Progress.**  While somebody is on board or can be picked up, twenty turns do some work: at
    most one to get onto the sweep, and a period there. -/
theorem progress {s : SoundSys} (hon : s.1.b.e.status ≠ .offline) (hsd : s.1.b.e.shutdown = 0)
    (hp : Pending s.1.b) (hpos : 0 < work s.1.b) : work (turn^[20] s).1.b < work s.1.b := by
  rcases s.2.motion.track with ⟨x, hx⟩ | hstale
  · have hne := progress_at hx hon hsd hp hpos
    have h18 : work (turn^[18] s).1.b ≤ work s.1.b := turns_work_le s (Nat.zero_le 18)
    exact Nat.lt_of_le_of_lt (turns_work_le s (by omega : 18 ≤ 20)) (Nat.lt_of_le_of_ne h18 hne)
  · -- after a stale restart, the first turn works or reaches the sweep
    have h1 := turn_work_le s
    have h18 : work (turn^[18] (turn s)).1.b ≤ work (turn s).1.b :=
      turns_work_le (m := 0) (turn s) (Nat.zero_le 18)
    have h19 := turns_work_le (turn s) (by omega : 18 ≤ 19)
    show work (turn^[19] (turn s)).1.b < work s.1.b
    by_cases hwork : work (turn s).1.b = work s.1.b
    · obtain ⟨hsame, _, hon', hsweep⟩ := turn_quiet hon hsd hwork hpos
      have hne := progress_at (hsweep.stale hstale) hon' ((turn_shutdown s).trans hsd)
        (hp.congr hsame) (by omega)
      exact Nat.lt_of_le_of_lt h19 (by omega)
    · exact Nat.lt_of_le_of_lt h19 (by omega)

end KernelModules.Part3
