/-
  The module is a lift.

  `Lib.Lift` says what a lift is: riders who wait, riders aboard, a carriage on its way, and which
  events may happen when.  It knows nothing of the module's twenty lists, of its counters, of
  `next`, or of the six values of `status`.  Here the module is shown to be one: the history of
  every run is a history that `lift` accepts, and it ends in a state the building implements
  (`implements_lift`).

  `Implements` is the data refinement.  Each waiting list is the part of ONE list of waiting riders
  with that origin, and the floor's counters are sums over it; each cabin list is the part of ONE
  list of riders aboard with that destination, and the cabin's counters are sums over the whole of
  it; `serviced` counts the part of the riders taken from that floor; `next` is a function of
  position and direction, and so is `status`, but for the doors, which the lift knows nothing of.

  From the library it follows, for every passenger and every run, that the history tells of them
  what it should: accepted, boarded at their own floor, delivered at their own floor, in this order
  and once each, and as far as the list they are on says (`passenger_story`).
-/
import KernelModules.Lib.Lift
import KernelModules.Part3.Fifo

namespace KernelModules.Part3

open Function Relation KernelModules.Lib

/-! ## The lift the module should be -/

/-- The passengers as riders: the cabin holds `MAX_W` half units and `MAX_P` units. -/
def riders : Riders Passenger where
  origin := Passenger.sFloor
  dest := Passenger.dFloor
  fits := fun ps => decide ((ps.map getWeight).sum ≤ maxW) && decide ((ps.map getPass).sum ≤ maxP)

/-- The history, in the lift's words. -/
def Event.label : Event → LiftEvent Passenger
  | .accepted p => .arrive p
  | .boarded p floor => .board p floor
  | .delivered p floor => .alight p floor
  | .moved src dst => .travel src dst
  | .idled => .park
  | .wentOffline => .halt
  | .started => .resume
  | .stopped => .stop

/-- The history of a state, in the lift's words. -/
def history (s : Sys) : List (LiftEvent Passenger) := s.log.map Event.label

/-- The status of a lift with its doors closed. -/
def posture (t : Lift Passenger) : State :=
  if t.running = false then .offline else if t.parked then .idle else if t.up then .up else .down

/-- The building implements the state `t` of the lift. -/
structure Implements (s : Sys) (t : Lift Passenger) : Prop where
  waiting : ∀ i : Slot, (s.b.f i).waiting = t.queue riders i
  aboard : ∀ j : Slot, s.b.e.p j = t.riding riders j
  valid : ∀ p, p ∈ t.waiting ∨ p ∈ t.aboard → p.Valid
  /-- The counters of each floor ... -/
  floors : ∀ i : Slot, (s.b.f i).toLoad = ((t.queue riders i).map Passenger.unit).sum
  /-- ... and of the cabin. -/
  load : s.b.e.toLoad = (t.aboard.map Passenger.unit).sum
  serviced : ∀ i : Slot, (s.b.f i).serviced = (t.taken riders i).length
  level : s.b.e.current = t.level
  up : s.b.e.direction = if t.up then 1 else 0
  next : s.b.e.next = t.nextLevel
  running : t.running = true ↔ s.b.e.status ≠ .offline
  /-- A running lift may have its doors open. -/
  status : s.b.e.status = posture t ∨ t.running = true ∧ s.b.e.status = .loading
  closing : s.b.e.shutdown = if t.closing then 1 else 0
  /-- When the thread is due to move, whoever is to get off here has. -/
  doors : s.pc = .move → s.b.e.status ≠ .offline → ∀ (j : Slot) p, s.b.e.current = j →
    p ∈ s.b.e.p j → p.sFloor = j

/-- The history is one of a lift, and ends in a state the building implements. -/
def IsLift (s : Sys) : Prop :=
  ∃ t, (lift riders 9).run (history s) = some t ∧ Implements s t

/-! ## One change at a time -/

/-- A change the lift does not notice: the history is as it was, and the same lift is still
    implemented. -/
theorem IsLift.silent {s s' : Sys} (h : IsLift s) (hlog : s'.log = s.log)
    (himp : ∀ t, Implements s t → Implements s' t) : IsLift s' := by
  obtain ⟨t, ht, hst⟩ := h
  exact ⟨t, by rw [history, hlog]; exact ht, himp t hst⟩

/-- A change that is one event of the lift: it is allowed there, and what it leaves is what the
    building now implements. -/
theorem IsLift.event {s s' : Sys} (h : IsLift s) {ev : Event} (hlog : s'.log = s.log ++ [ev])
    (himp : ∀ t, Implements s t →
      t.allows riders 9 ev.label = true ∧ Implements s' (t.after 9 ev.label)) : IsLift s' := by
  obtain ⟨t, ht, hst⟩ := h
  obtain ⟨hallowed, hst'⟩ := himp t hst
  refine ⟨_, ?_, hst'⟩
  rw [history, hlog, List.map_append, List.map_singleton, Machine.run_concat]
  rw [history] at ht
  rw [ht]
  exact lift_step.mpr ⟨hallowed, rfl⟩

namespace Implements

variable {s : Sys} {t : Lift Passenger}

theorem running_of (h : Implements s t) (hon : s.b.e.status ≠ .offline) : t.running = true :=
  h.running.mpr hon

/-- An empty cabin is a carriage with nobody aboard ... -/
theorem aboard_eq_nil (h : Implements s t) : t.aboard = [] ↔ s.b.e.Empty := by
  constructor
  · intro hnil j
    rw [h.aboard, Lift.riding, hnil, List.filter_nil]
  · intro hempty
    refine List.eq_nil_iff_forall_not_mem.mpr fun p hp => ?_
    obtain ⟨j, hj⟩ := (h.valid p (Or.inr hp)).dst
    have hmem : p ∈ t.riding riders j := List.mem_filter.mpr ⟨hp, decide_eq_true hj⟩
    rw [← h.aboard, hempty j] at hmem
    exact absurd hmem List.not_mem_nil

/-- ... and empty waiting lists are nobody waiting. -/
theorem waiting_eq_nil (h : Implements s t) : t.waiting = [] ↔ s.b.NoneWaiting := by
  constructor
  · intro hnil i
    rw [h.waiting, Lift.queue, hnil, List.filter_nil]
  · intro hnone
    refine List.eq_nil_iff_forall_not_mem.mpr fun p hp => ?_
    obtain ⟨i, hi⟩ := (h.valid p (Or.inl hp)).src
    have hmem : p ∈ t.queue riders i := List.mem_filter.mpr ⟨hp, decide_eq_true hi⟩
    rw [← h.waiting, hnone i] at hmem
    exact absurd hmem List.not_mem_nil

theorem closing_eq_false (h : Implements s t) (hsd : s.b.e.shutdown ≠ 1) : t.closing = false := by
  cases hc : t.closing with
  | false => rfl
  | true =>
    have := h.closing
    rw [hc, if_pos rfl] at this
    exact absurd this hsd

theorem closing_eq_true (h : Implements s t) (hsd : s.b.e.shutdown ≠ 0) : t.closing = true := by
  cases hc : t.closing with
  | true => rfl
  | false =>
    have := h.closing
    rw [hc, if_neg (by decide)] at this
    exact absurd this hsd

/-- The passenger's heading is the cabin's: `pDirection` on floor numbers, and the lift's on
    levels. -/
theorem goesUp_eq (h : Implements s t) {p : Passenger} (hdir : pDirection p = s.b.e.direction) :
    riders.goesUp p = t.up := by
  rw [h.up, pDirection] at hdir
  show decide (p.sFloor < p.dFloor) = t.up
  by_cases hp : p.dFloor > p.sFloor
  · rw [if_pos hp] at hdir
    rw [decide_eq_true hp]
    cases hup : t.up with
    | true => rfl
    | false => rw [hup] at hdir; exact absurd hdir (by decide)
  · rw [if_neg hp] at hdir
    rw [decide_eq_false hp]
    cases hup : t.up with
    | false => rfl
    | true => rw [hup] at hdir; exact absurd hdir (by decide)

/-- `canFit`, on the counters, decides whether the riders fit together, since the counters are
    their sum. -/
theorem fits_eq (h : Implements s t) {p : Passenger} (hfit : canFit p s.b.e = true) :
    riders.fits (t.aboard ++ [p]) = true := by
  have hcounts := counts_sum_unit t.aboard
  rw [← h.load] at hcounts
  have hw := hcounts.wUnits
  have hq := hcounts.pUnits
  simp only [canFit, Bool.and_eq_true, decide_eq_true_eq] at hfit
  simp only [riders, List.map_append, List.sum_append, List.map_singleton, List.sum_singleton,
    Bool.and_eq_true, decide_eq_true_eq]
  omega

/-! ### Steps of a load phase -/

/-- Opening the doors, which the lift does not know of: it only sees who gets on and off. -/
theorem enter (h : Implements s t) (hon : s.b.e.status ≠ .offline) :
    Implements (openDoors s) t where
  waiting := h.waiting
  aboard := h.aboard
  valid := h.valid
  floors := h.floors
  load := h.load
  serviced := h.serviced
  level := h.level
  up := h.up
  next := h.next
  running := iff_of_true (h.running_of hon) (by simp [openDoors])
  status := Or.inr ⟨h.running_of hon, rfl⟩
  closing := h.closing
  doors hpc _ := h.doors hpc hon

/-- `delPass` is a rider alighting: one fewer on board, one more who has been taken, and the
    ledger of the floor says so. -/
theorem deliver (h : Implements s t) {i c : Slot} {p : Passenger} {l : List Passenger}
    (hld : s.b.e.status = .loading) (hc : s.b.e.current = c) (hp : s.b.e.p c = p :: l)
    (hdst : p.dFloor = c) (hi : p.sFloor = i) :
    t.allows riders 9 (.alight p s.b.e.current) = true ∧
      Implements (({ s with b := s.b.delivered i c p l } : Sys).record
        (.delivered p s.b.e.current)) (t.after 9 (.alight p s.b.e.current)) := by
  have hon : s.b.e.status ≠ .offline := by simp [hld]
  have hlevel : t.level = c := h.level.symm.trans hc
  have hriding : t.riding riders c = p :: l := (h.aboard c).symm.trans hp
  have hmem : p ∈ t.aboard := (mem_of_filter_head (q := fun q => riders.dest q = c)
    (by rw [← Lift.riding, hriding]; rfl)).1
  refine ⟨?_, ?_⟩
  · rw [Lift.allows, h.running_of hon, hc, hlevel, hriding]
    simp
  · refine ⟨fun k => ?_, fun j => ?_, fun q hq => ?_, fun k => ?_, ?_, fun k => ?_, h.level, h.up,
      h.next, h.running, Or.inr ⟨h.running_of hon, hld⟩, h.closing, fun hpc hon' j q hj hq => ?_⟩
    · rw [Sys.record_b, s.b.waiting_delivered]
      exact h.waiting k
    · show update s.b.e.p c l j = (t.aboard.erase p).filter _
      by_cases hj : j = c
      · subst hj
        rw [update_self, filter_erase_head hriding]
      · rw [update_of_ne hj, h.aboard j, filter_erase_of_neg]
        · rfl
        · exact decide_eq_false fun heq => hj (Fin.ext (by
            have : p.dFloor = (j : Int) := heq
            omega))
    · exact h.valid q (hq.imp_right List.mem_of_mem_erase)
    · rw [Sys.record_b, s.b.toLoad_delivered]
      exact h.floors k
    · show s.b.e.toLoad - p.unit = ((t.aboard.erase p).map Passenger.unit).sum
      rw [h.load, ← List.sum_map_erase Passenger.unit hmem, add_sub_cancel_left]
    · show (update s.b.f i _ k).serviced = ((t.done ++ [p]).filter _).length
      by_cases hk : k = i
      · subst hk
        rw [update_self, filter_concat t.done (decide_eq_true hi), List.length_append]
        show (s.b.f k).serviced + 1 = _
        rw [h.serviced k, Lift.taken]
        rfl
      · rw [update_of_ne hk, h.serviced k, filter_concat_of_neg]
        · rfl
        · exact decide_eq_false fun heq => hk (Fin.ext (by
            have : p.sFloor = (k : Int) := heq
            omega))
    · have hq' : q ∈ update s.b.e.p c l j := hq
      refine h.doors hpc hon j q hj ?_
      by_cases hjc : j = c
      · subst hjc
        rw [update_self] at hq'
        rw [hp]
        exact List.mem_cons_of_mem p hq'
      · rwa [update_of_ne hjc] at hq'

/-- `movePass` is a rider boarding: the head of the queue on the level, on the side of the
    heading, with room left. -/
theorem board (h : Implements s t) (hstock : Stock s.b) {c j : Slot} {p : Passenger}
    {l : List Passenger} (hld : s.b.e.status = .loading) (hsd : s.b.e.shutdown ≠ 1)
    (hc : s.b.e.current = c) (hw : (s.b.f c).waiting = p :: l) (hj : p.dFloor = j)
    (hfit : canFit p s.b.e = true) (hdir : pDirection p = s.b.e.direction) :
    t.allows riders 9 (.board p s.b.e.current) = true ∧
      Implements (({ s with b := s.b.boarded c j p l } : Sys).record (.boarded p s.b.e.current))
        (t.after 9 (.board p s.b.e.current)) := by
  obtain ⟨hvalid, hsrc⟩ := hstock.waiting_head hw
  have hon : s.b.e.status ≠ .offline := by simp [hld]
  have hlevel : t.level = c := h.level.symm.trans hc
  have hqueue : t.queue riders c = p :: l := (h.waiting c).symm.trans hw
  refine ⟨?_, ?_⟩
  · rw [Lift.allows, h.running_of hon, h.closing_eq_false hsd, hc, hlevel, hqueue,
      h.goesUp_eq hdir, h.fits_eq hfit]
    simp
  · have hother : ∀ k, k ≠ c → (t.waiting.erase p).filter (fun q => riders.origin q = (k : Int))
        = t.queue riders k := by
      intro k hk
      refine filter_erase_of_neg (decide_eq_false fun heq => hk (Fin.ext ?_))
      have : p.sFloor = (k : Int) := heq
      omega
    refine ⟨fun k => ?_, fun k => ?_, fun q hq => ?_, fun k => ?_, ?_, fun k => ?_, h.level, h.up,
      h.next, h.running, Or.inr ⟨h.running_of hon, hld⟩, h.closing, fun hpc hon' k q hk hq => ?_⟩
    · show (update s.b.f c _ k).waiting = (t.waiting.erase p).filter _
      by_cases hk : k = c
      · subst hk
        rw [update_self, filter_erase_head hqueue]
      · rw [update_of_ne hk, h.waiting k, hother k hk]
    · show pushTail j p s.b.e.p k = (t.aboard ++ [p]).filter _
      rw [pushTail]
      by_cases hk : k = j
      · subst hk
        rw [update_self, h.aboard k, filter_concat t.aboard (decide_eq_true hj)]
        rfl
      · rw [update_of_ne hk, h.aboard k, filter_concat_of_neg]
        · rfl
        · exact decide_eq_false fun heq => hk (Fin.ext (by
            have : p.dFloor = (k : Int) := heq
            omega))
    · rcases hq with hq | hq
      · exact h.valid q (Or.inl (List.mem_of_mem_erase hq))
      · rcases List.mem_append.mp hq with hq | hq
        · exact h.valid q (Or.inr hq)
        · rw [List.mem_singleton.mp hq]
          exact hvalid
    · show (update s.b.f c _ k).toLoad
        = (((t.waiting.erase p).filter fun q => riders.origin q = k).map Passenger.unit).sum
      by_cases hk : k = c
      · subst hk
        rw [update_self, filter_erase_head hqueue]
        show (s.b.f k).toLoad - p.unit = _
        rw [h.floors k, hqueue, List.map_cons, List.sum_cons, add_sub_cancel_left]
      · rw [update_of_ne hk, h.floors k, hother k hk]
    · show s.b.e.toLoad + p.unit = ((t.aboard ++ [p]).map Passenger.unit).sum
      rw [h.load, List.map_append, List.sum_append, List.map_singleton, List.sum_singleton]
    · rw [Sys.record_b, s.b.serviced_boarded]
      exact h.serviced k
    · rcases mem_pushTail.mp hq with hq | ⟨rfl, rfl⟩
      · exact h.doors hpc hon k q hk hq
      · -- who boards for this very floor has boarded here
        have hk' : s.b.e.current = k := hk
        rw [hsrc, ← hc, hk']

/-! ### A move phase -/

/-- The doors are done when the thread moves: whoever wanted to get off here has, and only those
    are left who boarded here. -/
theorem doorsDone (h : Implements s t) (hpc : s.pc = .move) (hon : s.b.e.status ≠ .offline)
    (hslot : ∃ c : Slot, s.b.e.current = c) : t.doorsDone riders = true := by
  obtain ⟨c, hc⟩ := hslot
  have hlevel : t.level = c := h.level.symm.trans hc
  refine List.all_eq_true.mpr fun p hp => decide_eq_true ?_
  rw [hlevel] at hp ⊢
  rw [← h.aboard] at hp
  exact h.doors hpc hon c p hc hp

/-- A move of the cabin is the carriage travelling one level on; at the ends of the building both
    turn. -/
theorem advance (h : Implements s t) (hpc : s.pc = .move) (hon : s.b.e.status ≠ .offline)
    (hslot : ∃ c : Slot, s.b.e.current = c)
    (hgo : ¬ s.b.e.Empty ∨ ¬ s.b.NoneWaiting ∧ s.b.e.shutdown = 0) :
    t.allows riders 9 (.travel s.b.e.current s.b.e.next) = true ∧
      Implements { (s.setE (moveCabin s.b.e)).record (.moved s.b.e.current s.b.e.next)
        with pc := .load } (t.after 9 (.travel s.b.e.current s.b.e.next)) := by
  have hwork : t.hasWork = true := by
    rw [Lift.hasWork, Bool.or_eq_true]
    rcases hgo with hfull | ⟨hsome, hsd⟩
    · refine Or.inl ?_
      rw [← h.aboard_eq_nil] at hfull
      simpa using hfull
    · refine Or.inr ?_
      rw [← h.waiting_eq_nil] at hsome
      rw [h.closing_eq_false (by omega)]
      simpa using hsome
  refine ⟨?_, ?_⟩
  · rw [Lift.allows, h.running_of hon, hwork, h.doorsDone hpc hon hslot, h.level, h.next]
    simp
  · have hposture : (moveCabin s.b.e).status
        = posture (t.after 9 (.travel s.b.e.current s.b.e.next)) := by
      have hd := h.up
      rw [posture, Lift.after, if_neg (by rw [h.running_of hon]; decide), if_neg Bool.false_ne_true]
      unfold moveCabin
      by_cases h0 : s.b.e.next = 0
      · simp [h0]
      · by_cases h9 : s.b.e.next = 9
        · simp [h9]
        · cases hu : t.up with
          | true =>
            rw [hu, if_pos rfl] at hd
            simp [h0, h9, hd]
          | false =>
            rw [hu, if_neg (by decide)] at hd
            simp [h0, h9, hd]
    have hup : (moveCabin s.b.e).direction
        = if (if s.b.e.next = 0 then true else if s.b.e.next = 9 then false else t.up)
          then 1 else 0 := by
      have hd := h.up
      unfold moveCabin
      split
      · rfl
      · split
        · rfl
        · split <;> exact hd
    refine ⟨h.waiting, fun j => ?_, h.valid, h.floors, ?_, h.serviced, ?_, hup, ?_, ?_,
      Or.inl hposture, ?_, fun hpc' => absurd hpc' (by simp)⟩
    · show (moveCabin s.b.e).p j = _
      rw [moveCabin_p]
      exact h.aboard j
    · show (moveCabin s.b.e).toLoad = _
      rw [moveCabin_toLoad]
      exact h.load
    · show (moveCabin s.b.e).current = _
      exact moveCabin_current s.b.e
    · -- `next` is again the level the carriage would go to
      show (moveCabin s.b.e).next = _
      have hd := h.up
      unfold Lift.nextLevel moveCabin Lift.after
      by_cases h0 : s.b.e.next = 0
      · simp [h0]
      · by_cases h9 : s.b.e.next = 9
        · simp [h9]
        · cases hu : t.up with
          | true =>
            rw [hu, if_pos rfl] at hd
            simp [h0, h9, hd]
          | false =>
            rw [hu, if_neg (by decide)] at hd
            simp [h0, h9, hd]
    · exact iff_of_true (h.running_of hon) (moveCabin_status s.b.e).2
    · show (moveCabin s.b.e).shutdown = _
      rw [moveCabin_shutdown]
      exact h.closing

end Implements

/-! ## Every step -/

/-- **A turn of the load phase** is one event of the lift, or none: doors that open or close are
    not the lift's affair. -/
theorem LoadStep.isLift {s s' : Sys} (hs : Sound s) (h : IsLift s) (hst : LoadStep s s') :
    IsLift s' := by
  cases hst with
  | enter hon => exact h.silent rfl fun t ht => ht.enter hon
  | @deliver i c p l hld hc hp hi =>
    exact h.event rfl fun t ht =>
      ht.deliver hld hc hp (hs.stock.riding_head hp).2 hi
  | @board c j p l hld hsd hc hw hj hfit hdir =>
    exact h.event rfl fun t ht =>
      ht.board hs.stock hld hsd hc hw hj hfit hdir
  | close hleft => exact h.silent rfl fun t ht => { ht with doors := fun _ => hleft }

/-- **A move phase** is one event of the lift: it moves, comes to rest or shuts down.  Only an
    offline elevator has none. -/
theorem MoveStep.isLift {s s' : Sys} (hs : Sound s) (hpc : s.pc = .move) (h : IsLift s)
    (hst : MoveStep s s') : IsLift s' := by
  cases hst with
  | rest hoff =>
    exact h.silent rfl fun t ht => { ht with doors := fun hpc' => absurd hpc' (by simp) }
  | idle hon hempty hnone =>
    refine h.event rfl fun t ht => ⟨?_, { ht with
      running := iff_of_true (ht.running_of hon) (by simp)
      status := Or.inl ?_
      doors := fun hpc' => absurd hpc' (by simp) }⟩
    swap
    · show State.idle = posture (t.after 9 .park)
      rw [posture, Lift.after, if_neg (by rw [ht.running_of hon]; decide), if_pos rfl]
    show Lift.allows _ _ _ .park = true
    rw [Lift.allows, ht.running_of hon, ht.aboard_eq_nil.mpr hempty, ht.waiting_eq_nil.mpr hnone]
    rfl
  | goOffline hon hempty hsome hsd =>
    refine h.event rfl fun t ht => ⟨?_, { ht with
      running := iff_of_false (by simp [Event.label, Lift.after]) (by simp)
      status := Or.inl rfl
      doors := fun hpc' => absurd hpc' (by simp) }⟩
    show Lift.allows _ _ _ .halt = true
    rw [← ht.waiting_eq_nil] at hsome
    rw [Lift.allows, ht.running_of hon, ht.aboard_eq_nil.mpr hempty, ht.closing_eq_true hsd]
    simpa using hsome
  | advance hon hgo => exact h.event rfl fun t ht => ht.advance hpc hon hs.motion.track.slot hgo

/-- **A call** is one event of the lift if it is granted, and none if it is refused or still in
    the gap. -/
theorem CallStep.isLift {s s' : Sys} {a : Act} (hs : Sound s) (h : IsLift s)
    (hst : CallStep s a s') : IsLift s' := by
  cases hst with
  | refuse => exact h
  | request hok => exact h.silent rfl fun t ht => { ht with }
  | @insert i p hin hp hi =>
    refine h.event rfl fun t ht => ⟨?_, { ht with
      waiting := fun k => ?_
      valid := fun q hq => ?_
      floors := fun k => ?_
      serviced := fun k => ?_ }⟩
    · obtain ⟨j, hj⟩ := hp.dst
      have hi9 := i.isLt
      have hj9 := j.isLt
      refine decide_eq_true ?_
      show 0 ≤ p.sFloor ∧ p.sFloor ≤ 9 ∧ 0 ≤ p.dFloor ∧ p.dFloor ≤ 9
      omega
    · show (update s.b.f i _ k).waiting = (t.waiting ++ [p]).filter _
      by_cases hk : k = i
      · subst hk
        rw [update_self, filter_concat t.waiting (decide_eq_true hi)]
        show (s.b.f k).waiting ++ [p] = _
        rw [ht.waiting k]
        rfl
      · rw [update_of_ne hk, filter_concat_of_neg]
        · exact ht.waiting k
        · exact decide_eq_false fun heq => hk (Fin.ext (by
            have : p.sFloor = (k : Int) := heq
            omega))
    · rcases hq with hq | hq
      · rcases List.mem_append.mp hq with hq | hq
        · exact ht.valid q (Or.inl hq)
        · rw [List.mem_singleton.mp hq]
          exact hp
      · exact ht.valid q (Or.inr hq)
    · show (update s.b.f i _ k).toLoad
        = (((t.waiting ++ [p]).filter fun q => riders.origin q = k).map Passenger.unit).sum
      by_cases hk : k = i
      · subst hk
        rw [update_self, filter_concat t.waiting (decide_eq_true hi), List.map_append,
          List.sum_append, List.map_singleton, List.sum_singleton]
        show (s.b.f k).toLoad + p.unit = _
        rw [ht.floors k]
        rfl
      · rw [update_of_ne hk, filter_concat_of_neg]
        · exact ht.floors k
        · exact decide_eq_false fun heq => hk (Fin.ext (by
            have : p.sFloor = (k : Int) := heq
            omega))
    · rw [Sys.record_b, s.b.serviced_queued]
      exact ht.serviced k
  | start hoff =>
    refine h.event rfl fun t ht => ?_
    have hrun : t.running = false := by
      cases hr : t.running with
      | false => rfl
      | true => exact absurd hoff (ht.running.mp hr)
    refine ⟨by rw [Event.label, Lift.allows, hrun]; rfl, { ht with
      level := rfl
      next := ?_
      running := iff_of_true rfl (by simp)
      status := Or.inl rfl
      closing := rfl
      doors := fun _ _ j p _ hp => ?_ }⟩
    · simp [Lift.nextLevel, Lift.after, Event.label]
    · -- an elevator that is offline is empty
      have hp' : p ∈ s.b.e.p j := hp
      rw [hs.motion.parked (Or.inr hoff) j] at hp'
      exact absurd hp' List.not_mem_nil
  | stop hsd =>
    refine h.event rfl fun t ht => ⟨?_, { ht with closing := rfl }⟩
    rw [Event.label, Lift.allows, ht.closing_eq_false (by omega)]
    rfl

theorem isLift_init : IsLift .init :=
  ⟨.init, rfl,
    { waiting := fun _ => rfl
      aboard := fun _ => rfl
      valid := fun p hp => by rcases hp with hp | hp <;> exact absurd hp List.not_mem_nil
      floors := fun _ => rfl
      load := rfl
      serviced := fun _ => rfl
      level := rfl
      up := rfl
      next := rfl
      running := by simp [Sys.init, initBuilding, initElevator, Lift.init]
      status := Or.inl rfl
      closing := rfl
      doors := fun hpc => absurd hpc (by simp [Sys.init]) }⟩

/-- In every reachable state the history is one of the lift, and the building implements what it
    leads to. -/
theorem isLift_reachable {s : Sys} (h : system.Reachable s) : IsLift s :=
  system_invariant isLift_init (fun _ _ hs hp hst => hst.isLift hs hp)
    (fun _ _ hs hpc hp hst => hst.isLift hs hpc hp) (fun _ _ _ hs hp hst => hst.isLift hs hp) h

/-- The events about `p`, in order. -/
def storyOf (p : Passenger) (log : List Event) : List Event :=
  log.filter fun ev => ev.label.about p

/-- What is to happen to `p`. -/
def Passenger.itinerary (p : Passenger) : List Event :=
  [.accepted p, .boarded p p.sFloor, .delivered p p.dFloor]

theorem label_injective : Injective Event.label := by
  intro a b h
  cases a <;> cases b <;> simp_all [Event.label]

/-- What the lift remembers of a passenger is what the module does, event by event. -/
theorem story_history (p : Passenger) (s : Sys) :
    story p (history s) = (storyOf p s.log).map Event.label := by
  rw [story, history, List.filter_map]
  rfl

theorem arrivals_history (s : Sys) : arrivals (history s) = accepted s.log := by
  rw [arrivals, history, List.filterMap_map, accepted]
  refine congrArg (fun g => s.log.filterMap g) (funext fun ev => ?_)
  cases ev <;> rfl

/-- Everybody who waits is waiting somewhere, ... -/
theorem Implements.mem_waiting {s : Sys} {t : Lift Passenger} (h : Implements s t)
    (p : Passenger) : p ∈ t.waiting ↔ p ∈ queued s.b := by
  simp only [queued, List.mem_flatMap, List.mem_finRange, true_and, h.waiting, Lift.queue,
    List.mem_filter]
  constructor
  · intro hp
    obtain ⟨i, hi⟩ := (h.valid p (Or.inl hp)).src
    exact ⟨i, hp, decide_eq_true hi⟩
  · rintro ⟨_, hp, _⟩
    exact hp

/-- ... and everybody aboard is aboard for somewhere. -/
theorem Implements.mem_aboard {s : Sys} {t : Lift Passenger} (h : Implements s t)
    (p : Passenger) : p ∈ t.aboard ↔ p ∈ onboard s.b.e := by
  simp only [mem_onboard, h.aboard, Lift.riding, List.mem_filter]
  constructor
  · intro hp
    obtain ⟨j, hj⟩ := (h.valid p (Or.inr hp)).dst
    exact ⟨j, hp, decide_eq_true hj⟩
  · rintro ⟨_, hp, _⟩
    exact hp

/-- **The story of one passenger.**  In the history of every run the events about a passenger are
    the beginning of their itinerary: accepted, boarded at their start floor, delivered at their
    destination, in this order and each at most once.  The passenger is on a waiting list exactly
    while only the first has happened, and on board exactly while the first two have. -/
theorem passenger_story {s : Sys} (h : system.Reachable s) (p : Passenger) :
    storyOf p s.log <+: p.itinerary ∧
      (p ∈ queued s.b ↔ storyOf p s.log = p.itinerary.take 1) ∧
      (p ∈ onboard s.b.e ↔ storyOf p s.log = p.itinerary.take 2) := by
  obtain ⟨t, ht, himp⟩ := isLift_reachable h
  have hnodup : (arrivals (history s)).Nodup := by
    have hcensus := (Sound.reachable (loose_of_system h)).census.nodup
    rw [List.map_append, List.nodup_append] at hcensus
    rw [arrivals_history]
    exact List.Nodup.of_map _ hcensus.1
  obtain ⟨hpre, hwaiting, haboard⟩ := story_prefix ht hnodup p
  have hmap : ∀ k, (Lib.itinerary riders p).take k = (p.itinerary.take k).map Event.label := by
    intro k
    rw [List.map_take]
    rfl
  have hinj := List.map_injective_iff.mpr label_injective
  rw [story_history] at hpre hwaiting haboard
  refine ⟨(List.prefix_map_iff_of_injective label_injective).mp hpre, ?_, ?_⟩
  · rw [← himp.mem_waiting, hwaiting, hmap]
    exact hinj.eq_iff
  · rw [← himp.mem_aboard, haboard, hmap]
    exact hinj.eq_iff

/-- A passenger on board has been accepted and has boarded, once and in this order; the delivery
    is yet to come. -/
theorem passenger_story_shortRun :
    let s := (system.run shortRun).get (by decide)
    (⟨0, .bell, 0, 2⟩ : Passenger) ∈ onboard s.b.e ∧
      storyOf ⟨0, .bell, 0, 2⟩ s.log = [.accepted ⟨0, .bell, 0, 2⟩, .boarded ⟨0, .bell, 0, 2⟩ 0] := by
  have h := (passenger_story (Machine.reachable_get (M := system) shortRun (by decide))
    ⟨0, .bell, 0, 2⟩).2.2
  have haboard : (⟨0, .bell, 0, 2⟩ : Passenger)
      ∈ onboard ((system.run shortRun).get (by decide)).b.e := by decide
  exact ⟨haboard, h.mp haboard⟩

end KernelModules.Part3
