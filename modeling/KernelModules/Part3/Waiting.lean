/-
  How long one waits at an end of the building, while others keep arriving.

  The other results on service leave the thread alone: no call comes in between.  Here requests
  keep coming, and the question is for how many iterations a passenger can be kept waiting.  When
  the cabin gets to floor 0 or 9, everybody on board gets off there (`empty_at_end`), and everybody
  waiting there wants to go the way the cabin goes next.  An empty cabin takes any three passengers
  (`three_board`), so every period of the sweep brings a passenger three places forward, whoever
  arrives behind: `Due` counts the iterations that are left, and the library's countdown does the
  rest (`waits_at_end`).
-/
import KernelModules.Part3.Boarding
import KernelModules.Part3.Ride
import KernelModules.Part3.Service

namespace KernelModules.Part3

open Function Relation KernelModules.Lib

/-! ## One load phase, from a sound state -/

/-- A load phase moves nothing but passengers: position and flag are as they were when it is
    over. -/
theorem loadPhase_frame {s s' : Sys} (hs : Sound s) (hload : loadPhase s = some s') :
    s'.b.e.current = s.b.e.current ∧ s'.b.e.next = s.b.e.next ∧
      s'.b.e.direction = s.b.e.direction ∧ s'.b.e.shutdown = s.b.e.shutdown := by
  obtain ⟨t, ht, _, hchain⟩ := loadPhase_spec hs
  obtain rfl : t = s' := Option.some.inj (ht.symm.trans hload)
  exact LoadStep.frame hchain

/-- A running elevator with somebody waiting moves. -/
theorem movePhase_advances {s : Sys} (hon : s.b.e.status ≠ .offline) (hsd : s.b.e.shutdown = 0)
    (hsome : ¬ s.b.NoneWaiting) : movePhase s = { (s.setE (moveCabin s.b.e)).record
      (.moved s.b.e.current s.b.e.next) with pc := .load } := by
  have hst := movePhase_step s
  generalize movePhase s = t at hst ⊢
  cases hst with
  | rest hoff => exact absurd hoff hon
  | idle _ _ hnone => exact absurd hnone hsome
  | goOffline _ _ _ hsd' => exact absurd hsd hsd'
  | advance => rfl

/-! ## The cabin is empty at the ends -/

/-- When the thread is due to unload, the cabin has left the start floor of everybody on board. -/
def LeftStart (s : Sys) : Prop :=
  s.pc = .load → ∀ p ∈ onboard s.b.e, p.sFloor ≠ p.dFloor → p.sFloor ≠ s.b.e.current

theorem leftStart_reachable {s : Sys} (h : system.Reachable s) : LeftStart s := by
  refine Machine.Reachable.induct ?_ ?_ h
  · intro _ p hp
    obtain ⟨j, hj⟩ := mem_onboard.mp hp
    exact absurd hj List.not_mem_nil
  · intro s a s' hs ih hst
    have hsound := Sound.reachable (loose_of_system hs)
    obtain ⟨hguard, hexec⟩ := Machine.step_eq_some.mp hst
    rcases step_cases hsound (loose_step_of_system hst) with ⟨rfl, _⟩ | ⟨rfl, hmove⟩ | hcall
    · intro hpc
      rw [loadPhase_pc hexec] at hpc
      exact absurd hpc (by decide)
    · intro _ p hp hne
      have hpc : s.pc = .move := of_decide_eq_true hguard
      obtain rfl : movePhase s = s' := Option.some.inj hexec
      have haboard : p ∈ onboard s.b.e := by
        obtain ⟨j, hj⟩ := mem_onboard.mp hp
        exact mem_onboard.mpr ⟨j, by rw [← hmove.same.p]; exact hj⟩
      obtain ⟨evs, k, hway⟩ := underWay_of_aboard hs hne haboard
      rw [(movePhase_of_underWay hsound hway hpc).1, hway.current]
      unfold Passenger.heading
      split <;> omega
    · intro hpc p hp hne
      cases hcall with
      | refuse => exact ih hpc p hp hne
      | request => exact ih hpc p hp hne
      | insert => exact ih hpc p hp hne
      | start hoff => exact absurd hoff (status_of_aboard hsound hp).2
      | stop => exact ih hpc p hp hne

/-- The sweep is at an end floor once a period. -/
theorem level_eq_end {c : Slot} (hc : c = 0 ∨ c = 9) (x : Nat) :
    Scan.level 9 x = c ↔ x % 18 = c := by
  unfold Scan.level
  rcases hc with rfl | rfl <;> split <;> simp <;> omega

/-- The heading with which the cabin leaves an end floor. -/
theorem direction_at_end {e : Elevator} {c : Slot} (hc : c = 0 ∨ c = 9) {x : Nat} (hx : At e x)
    (hlevel : x % 18 = c) : e.direction = if c = 0 then 1 else 0 := by
  rw [hx.direction]
  have hrising : Scan.rising 9 x = decide (c = 0) := by
    unfold Scan.rising
    rw [show 2 * 9 = 18 from rfl, hlevel]
    rcases hc with rfl | rfl <;> decide
  rw [hrising]
  exact if_congr decide_eq_true_iff rfl rfl

/-- **At an end floor everybody gets off.**  Whoever is on board goes the way the cabin goes, and it
    goes no further. -/
theorem empty_at_end {s : Sys} (h : system.Reachable s) (hpc : s.pc = .load) {c : Slot}
    (hc : c = 0 ∨ c = 9) {x : Nat} (hx : At s.b.e x) (hlevel : x % 18 = c) {p : Passenger}
    (hp : p ∈ onboard s.b.e) (hne : p.sFloor ≠ p.dFloor) : p.dFloor = c := by
  obtain ⟨evs, k, hway⟩ := underWay_of_aboard h hne hp
  have hleft := leftStart_reachable h hpc p hp hne
  have hcur : s.b.e.current = c := hx.current.trans (by rw [(level_eq_end hc x).mpr hlevel])
  obtain ⟨j, hj⟩ := mem_onboard.mp hp
  obtain ⟨⟨_, ⟨i, hi⟩, _⟩, _⟩ := (Sound.reachable (loose_of_system h)).stock.riding hj
  rcases Nat.lt_or_ge k p.distance with hk | hk
  · -- short of their floor, they would have boarded here
    have hdir := hway.direction hk
    rw [direction_at_end hc hx hlevel, pDirection_eq] at hdir
    have hway' := hway.current
    rcases before_arrival hk with ⟨hup, hlt⟩ | ⟨hdown, hlt⟩ <;> rcases hc with rfl | rfl
    · rw [hup] at hway'
      simp only [Fin.coe_ofNat_eq_mod] at hcur
      omega
    · rw [hup] at hdir
      simp at hdir
    · rw [hdown] at hdir
      simp at hdir
    · rw [hdown] at hway'
      simp only [Fin.coe_ofNat_eq_mod] at hcur
      omega
  · have hway' := hway.current
    have hbound := hway.bound
    rw [← hcur, hway']
    unfold Passenger.heading
    unfold Passenger.distance at hk hbound
    split <;> omega

/-- With different floors on every trip, the doors at an end floor leave nobody on board. -/
theorem onboard_without_end {s : Sys} (h : system.Reachable s) (hpc : s.pc = .load) {c : Slot}
    (hc : c = 0 ∨ c = 9) {x : Nat} (hx : At s.b.e x) (hlevel : x % 18 = c)
    (htrips : ∀ q ∈ accepted s.log, q.sFloor ≠ q.dFloor) : onboard (s.b.e.without c) = [] := by
  have hs := Sound.reachable (loose_of_system h)
  refine onboard_eq_nil.mpr fun j => ?_
  show update s.b.e.p c [] j = []
  by_cases hj : j = c
  · rw [hj, update_self]
  · rw [update_of_ne hj]
    refine List.eq_nil_iff_forall_not_mem.mpr fun p hp => hj (Fin.ext ?_)
    have hend := empty_at_end h hpc hc hx hlevel (mem_onboard.mpr ⟨j, hp⟩)
      (htrips p (hs.census.known (Sum.inr j) p hp))
    have hdst := (hs.stock.riding hp).2
    omega

/-! ## Three at a time -/

/-- An empty cabin takes any three passengers who go its way. -/
theorem fits_three {e : Elevator} (hempty : onboard e = []) {ps : List Passenger}
    (hlen : ps.length ≤ 3) (hvalid : ∀ p ∈ ps, p.Valid)
    (hdir : ∀ p ∈ ps, pDirection p = e.direction) : Fits e ps := by
  have hw := List.sum_le_card_nsmul (ps.map getWeight) 8 fun w hw => by
    obtain ⟨p, hp, rfl⟩ := List.mem_map.mp hw
    exact (Passenger.getWeight_range (hvalid p hp).known).2
  have hq := List.sum_le_card_nsmul (ps.map getPass) 2 fun q hq => by
    obtain ⟨p, hp, rfl⟩ := List.mem_map.mp hq
    exact (Passenger.getPass_range (hvalid p hp).known).2
  rw [List.length_map, nsmul_eq_mul] at hw hq
  refine ⟨hdir, ?_, ?_⟩
  · rw [hempty]
    show (0 : Int) + _ ≤ 30
    omega
  · rw [hempty]
    show (0 : Int) + _ ≤ 10
    omega

/-- So the group that boards is the whole queue or has at least three members: no two weigh so
    much that a third does not fit. -/
theorem three_board {e : Elevator} (hempty : onboard e = []) {took w : List Passenger}
    (hvalid : ∀ p ∈ w, p.Valid) (hdir : ∀ p ∈ w, pDirection p = e.direction)
    (hlongest : LongestPrefix (Fits e) took w) : min 3 w.length ≤ took.length := by
  have hsub : ∀ p ∈ w.take 3, p ∈ w := fun p hp => List.mem_of_mem_take hp
  have hfits := fits_three hempty (List.length_take_le 3 w) (fun p hp => hvalid p (hsub p hp))
    fun p hp => hdir p (hsub p hp)
  have := hlongest.longest (w.take 3) (List.take_prefix 3 w) hfits
  rwa [List.length_take] at this

/-- At an end floor everybody goes the way the cabin goes next: there is no other. -/
theorem direction_of_waiting {s : Sys} (hs : Sound s) {c : Slot} (hc : c = 0 ∨ c = 9) {x : Nat}
    (hx : At s.b.e x) (hlevel : x % 18 = c)
    (htrips : ∀ q ∈ accepted s.log, q.sFloor ≠ q.dFloor) {q : Passenger}
    (hq : q ∈ (s.b.f c).waiting) : pDirection q = s.b.e.direction := by
  have hne := htrips q (hs.census.known (Sum.inl c) q hq)
  obtain ⟨⟨_, _, ⟨j, hj⟩⟩, hsrc⟩ := hs.stock.waiting hq
  have hjlt := j.isLt
  rw [direction_at_end hc hx hlevel]
  unfold pDirection
  rcases hc with rfl | rfl
  · rw [if_pos rfl, if_pos]
    simp only [Fin.coe_ofNat_eq_mod] at hsrc
    omega
  · rw [if_neg (show (9 : Slot) ≠ 0 by decide), if_neg]
    simp only [Fin.coe_ofNat_eq_mod] at hsrc
    omega

/-! ## The wait at an end floor -/

/-- The position of the sweep at which the doors open next. -/
def Opens (s : Sys) (x : Nat) : Prop :=
  match s.pc with
  | .load => At s.b.e x ∨ Stale s.b.e ∧ x = 16
  | .move => At (moveCabin s.b.e) x

/-- The moves between position `x` and the next visit to floor `c`. -/
def gap (c : Slot) (x : Nat) : Nat := (c + 18 - x % 18) % 18

/-- `p` has boarded at floor `c`, or will have done so within `n` load phases: three of those ahead
    of `p` board at each visit of the cabin. -/
def Due (c : Slot) (p : Passenger) (n : Nat) (s : Sys) : Prop :=
  p ∈ boardedAt c s.log ∨ s.b.e.status ≠ .offline ∧ s.b.e.shutdown = 0 ∧
    ∃ x pre post, Opens s x ∧ (s.b.f c).waiting = pre ++ p :: post ∧
      18 * (pre.length / 3) + gap c x < n

theorem gap_succ {c : Slot} {x : Nat} (h : x % 18 ≠ c) : gap c (x + 1) + 1 = gap c x := by
  have := c.isLt
  unfold gap
  omega

theorem gap_here {c : Slot} {x : Nat} (h : x % 18 = c) : gap c x = 0 ∧ gap c (x + 1) = 17 := by
  have := c.isLt
  unfold gap
  omega

/-- Every reachable state has a position at which the doors open next. -/
theorem opens_exists {s : Sys} (hs : Sound s) : ∃ x, Opens s x := by
  unfold Opens
  cases s.pc with
  | load =>
    rcases hs.motion.track with ⟨x, hx⟩ | hstale
    · exact ⟨x, Or.inl hx⟩
    · exact ⟨16, Or.inr ⟨hstale, rfl⟩⟩
  | move => exact moveCabin_onTrack hs.motion.track

/-- After a load phase the doors open one position further on, when the move phase has been. -/
theorem Opens.loaded {s s' : Sys} {x : Nat} (hs : Sound s) (hpc : s.pc = .load)
    (hload : loadPhase s = some s') (h : Opens s x) : Opens s' (x + 1) := by
  unfold Opens at h ⊢
  rw [hpc] at h
  rw [loadPhase_pc hload]
  obtain ⟨hc, hn, hd, _⟩ := loadPhase_frame hs hload
  rcases h with hx | ⟨hstale, rfl⟩
  · exact moveCabin_at (hx.congr hc hn hd)
  · exact moveCabin_stale (hstale.congr hc hn hd)

/-- A member of a queue that loses a prefix has been taken with it, or is closer to its head. -/
theorem split_of_prefix {α : Type} {took kept pre post : List α} {p : α}
    (h : took ++ kept = pre ++ p :: post) :
    p ∈ took ∨ kept = pre.drop took.length ++ p :: post ∧ took.length ≤ pre.length := by
  rcases List.append_eq_append_iff.mp h with ⟨l, hpre, hkept⟩ | ⟨l, htook, hpost⟩
  · refine Or.inr ⟨?_, ?_⟩
    · rw [hkept, hpre, List.drop_left]
    · rw [hpre, List.length_append]
      omega
  · cases l with
    | nil =>
      rw [List.append_nil] at htook
      refine Or.inr ⟨?_, ?_⟩
      · rw [htook, List.drop_length]
        exact hpost.symm
      · rw [htook]
    | cons q l =>
      obtain ⟨rfl, _⟩ := List.cons.inj hpost
      exact Or.inl (by rw [htook]; simp)

/-- The doors open next at end floor `c`, on the sweep. -/
theorem Opens.at_end {s : Sys} {x : Nat} (h : Opens s x) (hpc : s.pc = .load) {c : Slot}
    (hc : c = 0 ∨ c = 9) (hlevel : x % 18 = c) : At s.b.e x ∧ s.b.e.current = c := by
  unfold Opens at h
  rw [hpc] at h
  rcases h with hx | ⟨_, rfl⟩
  · exact ⟨hx, hx.current.trans (by rw [(level_eq_end hc x).mpr hlevel])⟩
  · rcases hc with rfl | rfl <;> simp at hlevel

/-- The visit of an end floor: the whole queue boards, or at least three do, since the cabin is
    empty and goes everybody's way. -/
theorem visit_boards {s : Sys} (h : system.Reachable s) (hpc : s.pc = .load) {c : Slot}
    (hc : c = 0 ∨ c = 9) {x : Nat} (hx : At s.b.e x) (hlevel : x % 18 = c)
    (htrips : ∀ q ∈ accepted s.log, q.sFloor ≠ q.dFloor) {took : List Passenger}
    (hlongest : LongestPrefix (Fits (s.b.e.without c)) took (s.b.f c).waiting) :
    min 3 (s.b.f c).waiting.length ≤ took.length := by
  have hs := Sound.reachable (loose_of_system h)
  refine three_board (onboard_without_end h hpc hc hx hlevel htrips) ?_ ?_ hlongest
  · intro q hq
    exact (hs.stock.waiting hq).1
  · intro q hq
    exact direction_of_waiting hs hc hx hlevel htrips hq

/-- A load phase brings `p` one unit closer to boarding: to the next visit of the floor, or at it
    to the head of the queue. -/
theorem Due.load {c : Slot} {p : Passenger} {n : Nat} {s s' : Sys} (hc : c = 0 ∨ c = 9)
    (h : system.Reachable s) (hpc : s.pc = .load)
    (htrips : ∀ q ∈ accepted s.log, q.sFloor ≠ q.dFloor) (hload : loadPhase s = some s')
    (hdue : Due c p (n + 1) s) : Due c p n s' := by
  have hs := Sound.reachable (loose_of_system h)
  obtain ⟨t, ht, hstop, hchain⟩ := loadPhase_spec hs
  obtain rfl : t = s' := Option.some.inj (ht.symm.trans hload)
  rcases hdue with hboarded | ⟨hon, hsd, x, pre, post, hopens, hqueue, hn⟩
  · obtain ⟨evs, hlog, _⟩ := LoadStep.boarded_direction hchain
    refine Or.inl ?_
    rw [hlog, boardedAt_append]
    exact List.mem_append_left _ hboarded
  · obtain ⟨k, hk⟩ := hs.motion.track.slot
    obtain ⟨took, kept, hsplit, hserved, _, hopen⟩ := loadPhase_stop hs hon hload hk
    have hlongest := hopen (by omega)
    have hsd' : t.b.e.shutdown = 0 := (LoadStep.frame hchain).2.2.2.trans hsd
    have hopens' := hopens.loaded hs hpc hload
    by_cases hkc : k = c
    · subst hkc
      rcases split_of_prefix (hsplit.symm.trans hqueue) with htook | ⟨hkept, hle⟩
      · refine Or.inl ?_
        rw [hserved.log, hk, boardedAt_append]
        refine List.mem_append_right _ (List.mem_filterMap.mpr ⟨.boarded p k, ?_, if_pos rfl⟩)
        exact List.mem_map_of_mem htook
      · refine Or.inr ⟨hstop.online hon, hsd', x + 1, pre.drop took.length, post, hopens', ?_, ?_⟩
        · rw [hserved.floor]
          exact hkept
        · rw [List.length_drop]
          rcases eq_or_ne (x % 18) k with hlevel | hlevel
          · have hthree := visit_boards h hpc hc (hopens.at_end hpc hc hlevel).1 hlevel htrips
              hlongest
            rw [hqueue, List.length_append, List.length_cons] at hthree
            obtain ⟨hgap, hgap'⟩ := gap_here hlevel
            omega
          · -- directly after a restart the cabin may stand here without being on the sweep
            have := gap_succ hlevel
            omega
    · have hlevel : x % 18 ≠ c := fun hlevel => hkc (Fin.ext (by
        have := hk.symm.trans (hopens.at_end hpc hc hlevel).2
        omega))
      refine Or.inr ⟨hstop.online hon, hsd', x + 1, pre, post, hopens', ?_, ?_⟩
      · rw [hserved.floors c (Ne.symm hkc)]
        exact hqueue
      · have := gap_succ hlevel
        omega

/-- A move phase brings `p` no further away. -/
theorem Due.move {c : Slot} {p : Passenger} {n : Nat} {s : Sys} (hpc : s.pc = .move)
    (hdue : Due c p n s) : Due c p n (movePhase s) := by
  rcases hdue with hboarded | ⟨hon, hsd, x, pre, post, hopens, hqueue, hn⟩
  · refine Or.inl ?_
    rw [(movePhase_step s).boardedAt_eq]
    exact hboarded
  · have hsome : ¬ s.b.NoneWaiting := by
      intro hnone
      rw [hnone c] at hqueue
      exact absurd hqueue.symm (by simp)
    rw [movePhase_advances hon hsd hsome]
    refine Or.inr ⟨(moveCabin_status _).2, ?_, x, pre, post, ?_, hqueue, hn⟩
    · exact (moveCabin_shutdown s.b.e).trans hsd
    · unfold Opens at hopens
      rw [hpc] at hopens
      exact Or.inl hopens

/-- Nor does a call, other than a stop. -/
theorem CallStep.due {c : Slot} {p : Passenger} {n : Nat} {s s' : Sys} {a : Act} (ha : a ≠ .stop)
    (hdue : Due c p n s) (hst : CallStep s a s') : Due c p n s' := by
  rcases hdue with hboarded | ⟨hon, hsd, x, pre, post, hopens, hqueue, hn⟩
  · refine Or.inl ?_
    cases hst with
    | refuse => exact hboarded
    | request => exact hboarded
    | insert | start | stop =>
      rw [Sys.record_log, boardedAt_append]
      exact List.mem_append_left _ hboarded
  · cases hst with
    | refuse => exact Or.inr ⟨hon, hsd, x, pre, post, hopens, hqueue, hn⟩
    | request => exact Or.inr ⟨hon, hsd, x, pre, post, hopens, hqueue, hn⟩
    | @insert i q _ _ _ =>
      by_cases hi : c = i
      · -- whoever comes later stands behind
        subst hi
        refine Or.inr ⟨hon, hsd, x, pre, post ++ [q], hopens, ?_, hn⟩
        show (update s.b.f c _ c).waiting = _
        rw [update_self, hqueue, List.append_assoc]
        rfl
      · refine Or.inr ⟨hon, hsd, x, pre, post, hopens, ?_, hn⟩
        show (update s.b.f i _ c).waiting = _
        rw [update_of_ne hi]
        exact hqueue
    | start hoff => exact absurd hoff hon
    | stop => exact absurd rfl ha

/-! ## Waiting at most so long -/

/-- At floor `c`, a passenger with `k` others ahead has boarded after `n` further iterations —
    whatever else happened between them, short of a shutdown — if all trips are between different
    floors. -/
def WaitsAtMost (c : Slot) (k n : Nat) : Prop :=
  ∀ acts later s s' pre p post, system.run acts = some s → s.b.e.status ≠ .offline →
    s.b.e.shutdown = 0 → (s.b.f c).waiting = pre ++ p :: post → pre.length = k →
    system.runFrom s later = some s' → .stop ∉ later →
    (∀ q ∈ inserted (acts ++ later), q.sFloor ≠ q.dFloor) → n ≤ later.count .load →
    p ∈ boardedAt c s'.log

/-- What the countdown carries along. -/
structure Awaited (c : Slot) (p : Passenger) (n : Nat) (s : Sys) : Prop where
  reachable : system.Reachable s
  trips : ∀ q ∈ accepted s.log, q.sFloor ≠ q.dFloor
  due : Due c p n s

/-- An action that neither stops the elevator nor inserts a trip to where it starts. -/
def Ordinary (a : Act) : Prop := a ≠ .stop ∧ ∀ q, a = .insert q → q.sFloor ≠ q.dFloor

/-- A step keeps the trips between different floors, if the schedule asks for no others. -/
theorem trips_step {s s' : Sys} {a : Act} (hs : Sound s) (ha : Ordinary a)
    (h : ∀ q ∈ accepted s.log, q.sFloor ≠ q.dFloor) (hst : system.step s a = some s') :
    ∀ q ∈ accepted s'.log, q.sFloor ≠ q.dFloor := by
  intro q hq
  rw [accepted_step hs (Machine.step_eq_some.mp hst).2] at hq
  rcases List.mem_append.mp hq with hq | hq
  · exact h q hq
  · obtain ⟨x, hx, hqx⟩ := List.mem_filterMap.mp hq
    obtain rfl := List.mem_singleton.mp hx
    cases x with
    | insert r => exact ha.2 q (by rw [Option.some.inj hqx])
    | _ => exact absurd hqx (by simp)

theorem Awaited.load {c : Slot} (hc : c = 0 ∨ c = 9) {p : Passenger} {n : Nat} {s s' : Sys}
    (h : Awaited c p (n + 1) s) (hst : system.step s .load = some s') : Awaited c p n s' := by
  obtain ⟨hguard, hexec⟩ := Machine.step_eq_some.mp hst
  have hs := Sound.reachable (loose_of_system h.reachable)
  refine ⟨h.reachable.step hst, trips_step hs ⟨by decide, by simp⟩ h.trips hst, ?_⟩
  exact h.due.load hc h.reachable (of_decide_eq_true hguard) h.trips hexec

theorem Awaited.other {c : Slot} {p : Passenger} {n : Nat} {s s' : Sys} {a : Act}
    (h : Awaited c p n s) (ha : Ordinary a) (hload : a ≠ .load)
    (hst : system.step s a = some s') : Awaited c p n s' := by
  obtain ⟨hguard, hexec⟩ := Machine.step_eq_some.mp hst
  have hs := Sound.reachable (loose_of_system h.reachable)
  refine ⟨h.reachable.step hst, trips_step hs ha h.trips hst, ?_⟩
  by_cases hmove : a = .move
  · subst hmove
    rw [← Option.some.inj hexec]
    exact h.due.move (of_decide_eq_true hguard)
  · exact CallStep.due ha.1 h.due
      (call_step hs hload hmove (loose_guard_of_system s a hguard) hexec)

/-- **At an end floor the wait is bounded**, by the number of those in front, whatever calls come
    in meanwhile. -/
theorem waits_at_end {c : Slot} (hc : c = 0 ∨ c = 9) (k : Nat) :
    WaitsAtMost c k (18 * (k / 3 + 1)) := by
  intro acts later s s' pre p post hrun hon hsd hqueue hk hlater hstop htrips hn
  have hs : system.Reachable s := Machine.reachable_iff_run.mpr ⟨acts, hrun⟩
  have hok : ∀ a ∈ later, Ordinary a := by
    intro a ha
    refine ⟨fun heq => hstop (heq ▸ ha), fun q heq => htrips q ?_⟩
    exact List.mem_filterMap.mpr ⟨a, List.mem_append_right _ ha, by rw [heq]⟩
  have hacc : ∀ q ∈ accepted s.log, q.sFloor ≠ q.dFloor := by
    intro q hq
    rw [accepted_run (loose_run_of_system hrun)] at hq
    obtain ⟨a, ha, hqa⟩ := List.mem_filterMap.mp hq
    exact htrips q (List.mem_filterMap.mpr ⟨a, List.mem_append_left _ ha, hqa⟩)
  obtain ⟨x, hx⟩ := opens_exists (Sound.reachable (loose_of_system hs))
  have hgap : gap c x < 18 := Nat.mod_lt _ (by decide)
  have hdue : Due c p (0 + later.countP (· == .load)) s := by
    refine Or.inr ⟨hon, hsd, x, pre, post, hx, hqueue, ?_⟩
    have : later.count .load = later.countP (· == .load) := rfl
    omega
  have hend : Awaited c p 0 s' := by
    refine Machine.runFrom_countdown (M := system) ?_ ?_ later hok ⟨hs, hacc, hdue⟩ hlater
    · intro n t a t' ha htick h hst
      obtain rfl : a = .load := eq_of_beq htick
      exact h.load hc hst
    · intro n t a t' ha htick h hst
      exact h.other ha (fun heq => by simp [heq] at htick) hst
  rcases hend.due with hboarded | ⟨_, _, _, _, _, _, _, hlt⟩
  · exact hboarded
  · exact absurd hlt (Nat.not_lt_zero _)

end KernelModules.Part3
