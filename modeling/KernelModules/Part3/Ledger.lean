/-
  The ledger: the counters the module keeps are the sums they stand for, in every reachable state.

  `Stock` says it in the group of loads; here it is read back in the counters' own terms
  (`Load.Counts`: sums of `getWeight` and `getPass`, numbers of passengers of each type) and
  completed by the serviced counters, which balance against the requests accepted so far
  (`Tally`).  The last section is the cabin's capacity: the counters `canFit` reads are the true
  loads, so the bound it enforces is a bound on the passengers actually on board — at the ends of
  the phases and between any two turns of their loops (`During`).
-/
import Mathlib.Algebra.Order.BigOperators.Group.List
import KernelModules.Part3.Runs

namespace KernelModules.Part3

open Function Relation KernelModules.Lib

/-! ## Sums and counts over a list of passengers -/

/-- The counters `l` are the sums and counts over the passengers `ps`. -/
structure Load.Counts (l : Load) (ps : List Passenger) : Prop where
  wUnits : l.wUnits = (ps.map getWeight).sum
  pUnits : l.pUnits = (ps.map getPass).sum
  adult : l.adult = ps.countP fun p => p.type = .adult
  child : l.child = ps.countP fun p => p.type = .child
  room : l.room = ps.countP fun p => p.type = .room
  bell : l.bell = ps.countP fun p => p.type = .bell

/-- Counting is adding up indicators.  The six counters of a group are sums in this way. -/
theorem sum_indicator (q : Passenger → Bool) (ps : List Passenger) :
    (ps.map fun p => if q p then (1 : Int) else 0).sum = ps.countP q := by
  induction ps with
  | nil => rfl
  | cons p ps ih =>
    rw [List.map_cons, List.sum_cons, ih, List.countP_cons]
    cases q p with
    | true => simp [add_comm]
    | false => simp

/-- Adding up units is adding up each counter, so a counter that is right for the sum is right for
    the group. -/
theorem counts_sum_unit (ps : List Passenger) :
    (ps.map Passenger.unit).sum.Counts ps := by
  induction ps with
  | nil => exact ⟨rfl, rfl, rfl, rfl, rfl, rfl⟩
  | cons p ps ih =>
    obtain ⟨h1, h2, h3, h4, h5, h6⟩ := ih
    rw [List.map_cons, List.sum_cons, Load.add_def]
    constructor
    · show getWeight p + _ = _
      rw [h1, List.map_cons, List.sum_cons]
    · show getPass p + _ = _
      rw [h2, List.map_cons, List.sum_cons]
    · show (if p.type = .adult then (1 : Int) else 0) + _ = _
      rw [h3, List.countP_cons]
      split <;> simp_all [add_comm]
    · show (if p.type = .child then (1 : Int) else 0) + _ = _
      rw [h4, List.countP_cons]
      split <;> simp_all [add_comm]
    · show (if p.type = .room then (1 : Int) else 0) + _ = _
      rw [h5, List.countP_cons]
      split <;> simp_all [add_comm]
    · show (if p.type = .bell then (1 : Int) else 0) + _ = _
      rw [h6, List.countP_cons]
      split <;> simp_all [add_comm]

/-- All passengers on board, list by list. -/
def onboard (e : Elevator) : List Passenger := (List.finRange 10).flatMap e.p

theorem mem_onboard {e : Elevator} {p : Passenger} : p ∈ onboard e ↔ ∃ j, p ∈ e.p j := by
  simp [onboard]

/-- A weight added up over the cabin's family is added up over the passengers on board. -/
theorem total_onboard {G : Type} [AddCommMonoid G] (g : Passenger → G) (e : Elevator) :
    total g e.p = ((onboard e).map g).sum := by
  rw [total, Fin.sum_univ_def, onboard, List.map_flatMap, List.flatMap_def, List.sum_flatten,
    List.map_map]
  rfl

/-! ## The serviced counters -/

/-- `serviced`, the waiting list and the cabin account for every request accepted at the floor. -/
def Tally (s : Sys) : Prop :=
  ∀ i : Slot, (s.b.f i).serviced + (s.b.f i).waiting.length
      + total (fun p => if p.sFloor = (i : Int) then (1 : Int) else 0) s.b.e.p
    = (accepted s.log).countP fun p => p.sFloor = (i : Int)

theorem Tally.init : Tally Sys.init := by
  intro i
  have htot : total (fun p => if p.sFloor = (i : Int) then (1 : Int) else 0) Sys.init.b.e.p = 0 :=
    total_empty _ fun _ => rfl
  rw [htot]
  rfl

theorem Tally.congr {s s' : Sys} (h : Tally s) (hf : s'.b.f = s.b.f) (hp : s'.b.e.p = s.b.e.p)
    (ha : accepted s'.log = accepted s.log) : Tally s' := by
  intro i
  rw [hf, hp, ha]
  exact h i

/-- **A turn of the load phase.**  A boarding moves one passenger from a floor to the cabin, and a
    delivery from there to the ledger of the floor the trip began at. -/
theorem LoadStep.tally {s s' : Sys} (hs : Sound s) (h : Tally s) (hst : LoadStep s s') :
    Tally s' := by
  cases hst with
  | enter hon => exact h.congr rfl rfl rfl
  | close hleft => exact h.congr rfl rfl rfl
  | @deliver i c p l hld hc hp hi =>
    intro k
    have hk := h k
    show ((s.b.delivered i c p l).f k).serviced
        + (((s.b.delivered i c p l).f k).waiting.length : Int) + total _ (update s.b.e.p c l)
      = (accepted (s.log ++ [.delivered p s.b.e.current])).countP _
    rw [total_drop_head _ hp, s.b.waiting_delivered, accepted_append,
      show accepted [Event.delivered p s.b.e.current] = [] from rfl, List.append_nil]
    by_cases hki : k = i
    · subst hki
      have hserv : ((s.b.delivered k c p l).f k).serviced = (s.b.f k).serviced + 1 := by
        simp [Building.delivered]
      rw [hserv, if_pos hi]
      omega
    · have hserv : ((s.b.delivered i c p l).f k).serviced = (s.b.f k).serviced := by
        simp [Building.delivered, hki]
      have hne : ¬ p.sFloor = (k : Int) := fun h => hki (Fin.ext (by omega))
      rw [hserv, if_neg hne]
      omega
  | @board c j p l hld hsd hc hw hj hfit hdir =>
    intro k
    have hk := h k
    have hsrc := (hs.stock.waiting_head hw).2
    show ((s.b.boarded c j p l).f k).serviced
        + (((s.b.boarded c j p l).f k).waiting.length : Int) + total _ (pushTail j p s.b.e.p)
      = (accepted (s.log ++ [.boarded p s.b.e.current])).countP _
    rw [total_pushTail, accepted_append,
      show accepted [Event.boarded p s.b.e.current] = [] from rfl, List.append_nil]
    by_cases hkc : k = c
    · subst hkc
      have hfk : ((s.b.boarded k j p l).f k).serviced = (s.b.f k).serviced ∧
          ((s.b.boarded k j p l).f k).waiting = l := by simp [Building.boarded]
      rw [hfk.1, hfk.2, if_pos hsrc]
      rw [hw, List.length_cons] at hk
      omega
    · have hfk : (s.b.boarded c j p l).f k = s.b.f k := by simp [Building.boarded, hkc]
      have hne : ¬ p.sFloor = (k : Int) := fun h => hkc (Fin.ext (by omega))
      rw [hfk, if_neg hne]
      omega

theorem MoveStep.tally {s s' : Sys} (h : Tally s) (hst : MoveStep s s') : Tally s' := by
  cases hst with
  | rest hoff => exact h.congr rfl rfl rfl
  | idle hon hempty hnone => exact h.congr rfl rfl (by simp [accepted])
  | goOffline hon hempty hsome hsd => exact h.congr rfl rfl (by simp [accepted])
  | advance hon hgo => exact h.congr rfl (moveCabin_p _) (by simp [accepted])

/-- A call adds the passenger it accepts to the floor where the trip begins, and to nobody else's
    counters. -/
theorem CallStep.tally {s s' : Sys} {a : Act} (h : Tally s) (hst : CallStep s a s') :
    Tally s' := by
  cases hst with
  | refuse => exact h
  | request hok => exact h.congr rfl rfl rfl
  | start hoff => exact h.congr rfl rfl (by simp [accepted])
  | stop hsd => exact h.congr rfl rfl (by simp [accepted])
  | @insert i p hin hp hi =>
    intro k
    have hk := h k
    show ((s.b.queued i p).f k).serviced + (((s.b.queued i p).f k).waiting.length : Int)
        + total _ s.b.e.p
      = (accepted (s.log ++ [.accepted p])).countP _
    rw [accepted_append, show accepted [Event.accepted p] = [p] from rfl, List.countP_append,
      List.countP_singleton]
    by_cases hki : k = i
    · subst hki
      have hfk : ((s.b.queued k p).f k).serviced = (s.b.f k).serviced ∧
          ((s.b.queued k p).f k).waiting = (s.b.f k).waiting ++ [p] := by
        simp [Building.queued, Building.onFloor]
      rw [hfk.1, hfk.2, List.length_append, List.length_singleton, decide_eq_true hi, if_pos rfl]
      push_cast
      omega
    · have hfk : (s.b.queued i p).f k = s.b.f k := by
        simp [Building.queued, Building.onFloor, hki]
      have hne : ¬ p.sFloor = (k : Int) := fun h => hki (Fin.ext (by omega))
      rw [hfk, decide_eq_false hne, if_neg (by decide)]
      push_cast
      omega

theorem Tally.reachable {s : Sys} (h : loose.Reachable s) : Tally s :=
  loose_invariant Tally.init (fun _ _ hs hp hst => hst.tally hs hp)
    (fun _ _ _ hp hst => hst.tally hp) (fun _ _ _ _ hp hst => hst.tally hp) h

/-! ## The ledger of a run -/

/-- The passengers a schedule inserts, in order: the calls of `issue_request` that succeed. -/
def inserted (acts : List Act) : List Passenger :=
  acts.filterMap fun | .insert p => some p | _ => none

/-- The thread accepts nobody: not in a load phase ... -/
theorem LoadStep.accepted_eq {s s' : Sys} (hs : Sound s) (hst : ReflTransGen LoadStep s s') :
    accepted s'.log = accepted s.log := by
  refine LoadStep.chain (P := fun t => accepted t.log = accepted s.log) ?_ hs hst rfl
  intro u v _ hu hstep
  cases hstep with
  | enter => exact hu
  | close => exact hu
  | deliver => simpa [accepted] using hu
  | board => simpa [accepted] using hu

/-- ... and not in a move phase. -/
theorem MoveStep.accepted_eq {s s' : Sys} (hst : MoveStep s s') :
    accepted s'.log = accepted s.log := by
  cases hst with
  | rest => rfl
  | idle => simp [accepted]
  | goOffline => simp [accepted]
  | advance => simp [accepted]

/-- The history records the insertions of the schedule, step by step ... -/
theorem accepted_step {s s' : Sys} {a : Act} (hs : Sound s) (h : exec s a = some s') :
    accepted s'.log = accepted s.log ++ inserted [a] := by
  cases a with
  | load =>
    obtain ⟨t, ht, _, hchain⟩ := loadPhase_spec hs
    rw [exec, ht, Option.some.injEq] at h
    rw [← h, LoadStep.accepted_eq hs hchain]
    exact (List.append_nil _).symm
  | move =>
    rw [exec, Option.some.injEq] at h
    rw [← h, (movePhase_step s).accepted_eq]
    exact (List.append_nil _).symm
  | insert p =>
    rw [exec, enqueue, Option.map_eq_some_iff] at h
    obtain ⟨b, _, rfl⟩ := h
    simp [accepted, inserted]
  | request pType sFloor dFloor =>
    rw [exec] at h
    split at h <;> (rw [← Option.some.inj h]; exact (List.append_nil _).symm)
  | start =>
    rw [exec, Option.some.injEq, startElevator, if_pos (by rfl)] at h
    split at h <;> (rw [← h]; simp [accepted, inserted])
  | stop =>
    rw [exec, Option.some.injEq, stopElevator, if_pos (by rfl)] at h
    split at h <;> (rw [← h]; simp [accepted, inserted])

/-- ... and over a whole run, so that what is known of the history is known of the schedule. -/
theorem accepted_run {acts : List Act} {s : Sys} (h : loose.run acts = some s) :
    accepted s.log = inserted acts := by
  induction acts using List.reverseRecOn generalizing s with
  | nil =>
    have h' : Sys.init = s := Option.some.inj h
    rw [← h']
    rfl
  | append_singleton acts a ih =>
    rw [Machine.run_concat, Option.bind_eq_some_iff] at h
    obtain ⟨t, ht, hst⟩ := h
    have hs := Sound.reachable (Machine.reachable_iff_run.mpr ⟨acts, ht⟩)
    rw [accepted_step hs (Machine.step_eq_some.mp hst).2, ih ht]
    exact List.filterMap_append.symm

/-- **The ledger.**  After any schedule of the calls and the two phases, in any order, every
    counter of a floor is the sum over its waiting list, every counter of the cabin the sum over
    the passengers on board, and the serviced counter of floor `i` accounts for every request the
    schedule inserted at `i` that is neither waiting nor on board. -/
theorem counters_match_lists {acts : List Act} {s : Sys} (h : loose.run acts = some s) :
    (∀ i, (s.b.f i).toLoad.Counts (s.b.f i).waiting) ∧
    s.b.e.toLoad.Counts (onboard s.b.e) ∧
    ∀ i : Slot, (s.b.f i).serviced + (s.b.f i).waiting.length
        + ((onboard s.b.e).countP fun p => p.sFloor = (i : Int))
      = ((inserted acts).countP fun p => p.sFloor = (i : Int)) := by
  have hr := Machine.reachable_iff_run.mpr ⟨acts, h⟩
  have hs := Sound.reachable hr
  refine ⟨fun i => ?_, ?_, fun i => ?_⟩
  · rw [hs.stock.floors i]
    exact counts_sum_unit _
  · rw [hs.stock.cabin, total_onboard]
    exact counts_sum_unit _
  · have ht := Tally.reachable hr i
    rw [total_onboard, accepted_run h] at ht
    rw [← ht, ← sum_indicator]
    simp

/-- A bell hop is asked for at floor 1, picked up, and on the way to floor 3. -/
def shortRun : List Act :=
  [.start, .request 4 1 3, .insert ⟨0, .bell, 0, 2⟩, .load, .move]

/-- The theorem applied to a run of the freer scheduler. -/
theorem counters_match_lists_shortRun :
    let s := (loose.run shortRun).get (by decide)
    s.b.e.toLoad.Counts (onboard s.b.e) ∧ s.b.e.wUnits = 8 :=
  ⟨(counters_match_lists (Machine.run_get (M := loose) shortRun (by decide))).2.1,
    by decide⟩

/-! ## Capacity -/

/-- The states of a load phase between two turns of its loops: after `k` turns of the first, or
    after the first and `k` turns of the second. -/
inductive During (s : Sys) : Sys → Prop
  | unloading {c : Slot} {t : Sys} (k : Nat) : s.b.e.status ≠ .offline →
      slot s.b.e.current = some c → ((s.b.f c).waiting ≠ [] ∨ s.b.e.p c ≠ []) →
      unloadLoop ((s.b.e.p c).take k) (openDoors s) = some t → During s t
  | loading {c : Slot} {u t : Sys} (k : Nat) : s.b.e.status ≠ .offline →
      slot s.b.e.current = some c → ((s.b.f c).waiting ≠ [] ∨ s.b.e.p c ≠ []) →
      unloadHere c (openDoors s) = some u → u.b.e.shutdown ≠ 1 →
      loadLoop ((u.b.f c).waiting.take k) u = some t → During s t

/-- The invariant holds inside a load phase too: every turn of its loops is one of the steps that
    keep it. -/
theorem During.sound {s t : Sys} (hs : Sound s) (h : During s t) : Sound t := by
  cases h with
  | @unloading c t k hon hslot _ hrun =>
    have hc := slot_eq_some hslot
    have hs₁ := (LoadStep.enter hon).sound hs
    obtain ⟨hspec, hchain⟩ := unloadLoop_spec ((s.b.e.p c).take k) ((s.b.e.p c).drop k) (c := c)
      hs₁ rfl hc (List.take_append_drop k _).symm
    rw [hspec, Option.some.injEq] at hrun
    rw [← hrun]
    exact LoadStep.sound_chain hs₁ hchain
  | @loading c u t k hon hslot _ hun hsd hrun =>
    have hc := slot_eq_some hslot
    have hs₁ := (LoadStep.enter hon).sound hs
    obtain ⟨hspec, hchain⟩ := unloadHere_spec (c := c) hs₁ rfl hc
    rw [hspec, Option.some.injEq] at hun
    subst hun
    have hs₂ := LoadStep.sound_chain hs₁ hchain
    obtain ⟨took, kept, _, hload, hchain', _⟩ :=
      loadLoop_spec _ (List.drop k (s.b.f c).waiting) (c := c) hs₂ rfl hsd hc
        (List.take_append_drop k (s.b.f c).waiting).symm
    have hload' := hload.symm.trans hrun
    rw [Option.some.injEq] at hload'
    rw [← hload']
    exact LoadStep.sound_chain hs₂ hchain'

/-- The passengers on board, and the counters that stand for them, are within the limits. -/
structure WithinCapacity (b : Building) : Prop where
  weight : 0 ≤ ((onboard b.e).map getWeight).sum ∧ ((onboard b.e).map getWeight).sum ≤ maxW
  pass : 0 ≤ ((onboard b.e).map getPass).sum ∧ ((onboard b.e).map getPass).sum ≤ maxP
  wUnits : 0 ≤ b.e.wUnits ∧ b.e.wUnits ≤ maxW
  pUnits : 0 ≤ b.e.pUnits ∧ b.e.pUnits ≤ maxP

/-- The invariant bounds the counters of the cabin, and says that they are those of its lists. -/
theorem Stock.withinCapacity {b : Building} (h : Stock b) : WithinCapacity b := by
  have hcounts : b.e.toLoad.Counts (onboard b.e) := by
    rw [h.cabin, total_onboard]
    exact counts_sum_unit _
  have hvalid : ∀ p ∈ onboard b.e, p.Valid := by
    intro p hp
    obtain ⟨j, hj⟩ := mem_onboard.mp hp
    exact (h.riding hj).1
  have hw : 0 ≤ ((onboard b.e).map getWeight).sum := by
    refine List.sum_nonneg fun w hw => ?_
    obtain ⟨p, hp, rfl⟩ := List.mem_map.mp hw
    have := Passenger.getWeight_range (hvalid p hp).known
    omega
  have hq : 0 ≤ ((onboard b.e).map getPass).sum := by
    refine List.sum_nonneg fun w hw => ?_
    obtain ⟨p, hp, rfl⟩ := List.mem_map.mp hw
    have := Passenger.getPass_range (hvalid p hp).known
    omega
  have hfit := h.fits
  rw [hcounts.wUnits, hcounts.pUnits] at hfit
  refine ⟨⟨hw, hfit.1⟩, ⟨hq, hfit.2⟩, ?_, ?_⟩
  · rw [hcounts.wUnits]
    exact ⟨hw, hfit.1⟩
  · rw [hcounts.pUnits]
    exact ⟨hq, hfit.2⟩

/-- **Capacity.**  In every reachable state, and between any two turns of the loops of a load
    phase entered from one, the cabin is within its limits. -/
theorem cabin_within_capacity {s : Sys} (h : system.Reachable s) :
    WithinCapacity s.b ∧ ∀ t, During s t → WithinCapacity t.b := by
  have hs := Sound.reachable (loose_of_system h)
  exact ⟨hs.stock.withinCapacity, fun t ht => (ht.sound hs).stock.withinCapacity⟩

/-- Seven bell hops want to go one floor up, three of whom fit.  Three are delivered before the
    elevator is stopped and started again, three board after that, and one waits. -/
def sevenBells : List Act :=
  .start :: ((List.range 7).flatMap fun k => [.request 4 1 2, .insert ⟨k, .bell, 0, 1⟩])
    ++ [.load, .move, .load, .stop, .move, .start, .load]

/-- The last load phase of `sevenBells`, after two turns of its second loop. -/
theorem sevenBells_during : ∃ s t, system.run (sevenBells.take 21) = some s ∧ During s t ∧
    t.b.e.wUnits = 16 ∧ (t.b.f 0).waiting = [⟨5, .bell, 0, 1⟩, ⟨6, .bell, 0, 1⟩] := by
  have hrun : ((system.run (sevenBells.take 21)).bind fun s =>
      (unloadHere 0 (openDoors s)).bind fun u =>
        (loadLoop ((u.b.f 0).waiting.take 2) u).map fun t =>
          decide (s.b.e.status ≠ .offline ∧ s.b.e.current = (0 : Slot) ∧ (s.b.f 0).waiting ≠ [] ∧
            u.b.e.shutdown ≠ 1 ∧ t.b.e.wUnits = 16 ∧
            (t.b.f 0).waiting = [⟨5, .bell, 0, 1⟩, ⟨6, .bell, 0, 1⟩])) = some true := by decide
  obtain ⟨s, hs, hrun⟩ := Option.bind_eq_some_iff.mp hrun
  obtain ⟨u, hu, hrun⟩ := Option.bind_eq_some_iff.mp hrun
  obtain ⟨t, ht, hrun⟩ := Option.map_eq_some_iff.mp hrun
  obtain ⟨hon, hc, hsome, hsd, hw, hrest⟩ := of_decide_eq_true hrun
  exact ⟨s, t, hs, .loading 2 hon (hc ▸ slot_coe 0) (Or.inl hsome) hu hsd ht, hw, hrest⟩

/-- In the middle of a load phase, with two bellhops on board. -/
theorem cabin_within_capacity_sevenBells : ∃ s t, system.run (sevenBells.take 21) = some s ∧
    During s t ∧ t.b.e.wUnits = 16 ∧ WithinCapacity s.b ∧ WithinCapacity t.b := by
  obtain ⟨s, t, hrun, hduring, hw, _⟩ := sevenBells_during
  obtain ⟨hcabin, hinside⟩ :=
    cabin_within_capacity (Machine.reachable_iff_run.mpr ⟨sevenBells.take 21, hrun⟩)
  exact ⟨s, t, hrun, hduring, hw, hcabin, hinside t hduring⟩

end KernelModules.Part3
