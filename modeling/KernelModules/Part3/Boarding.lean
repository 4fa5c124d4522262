/-
  One stop serves exactly the right people.

  The load phase, stated without its loops: everybody in the list of the current floor gets off,
  and of the queue there boards the longest prefix that goes the cabin's way and fits beside those
  who stayed on board (`Fits`).  The load loop decides passenger by passenger on counters that the
  passengers before have changed, and breaks at the first refusal; that this finds the longest
  prefix is the library's `LongestPrefix.of_stop`, since every prefix of a group that fits fits.
-/
import KernelModules.Part3.Ledger

namespace KernelModules.Part3

open Function Relation KernelModules.Lib

/-! ## The group that boards -/

/-- The elevator once everybody for floor `c` has got off. -/
def Elevator.without (e : Elevator) (c : Slot) : Elevator := { e with p := update e.p c [] }

/-- The group `ps` goes the cabin's way and fits beside the passengers of `e`. -/
structure Fits (e : Elevator) (ps : List Passenger) : Prop where
  direction : ∀ p ∈ ps, pDirection p = e.direction
  weight : ((onboard e).map getWeight).sum + (ps.map getWeight).sum ≤ maxW
  pass : ((onboard e).map getPass).sum + (ps.map getPass).sum ≤ maxP

/-- A prefix of a group of valid passengers that fits, fits: whoever is left out weighed
    something. -/
theorem Fits.shorter {e : Elevator} {ps ps' : List Passenger} (hvalid : ∀ p ∈ ps', p.Valid)
    (hpre : ps <+: ps') (h : Fits e ps') : Fits e ps := by
  obtain ⟨more, rfl⟩ := hpre
  have hmore : 0 ≤ (more.map getWeight).sum ∧ 0 ≤ (more.map getPass).sum := by
    constructor
    · refine List.sum_nonneg fun w hw => ?_
      obtain ⟨p, hp, rfl⟩ := List.mem_map.mp hw
      have := Passenger.getWeight_range (hvalid p (List.mem_append_right _ hp)).known
      omega
    · refine List.sum_nonneg fun w hw => ?_
      obtain ⟨p, hp, rfl⟩ := List.mem_map.mp hw
      have := Passenger.getPass_range (hvalid p (List.mem_append_right _ hp)).known
      omega
  have hw := h.weight
  have hq := h.pass
  rw [List.map_append, List.sum_append] at hw hq
  exact ⟨fun p hp => h.direction p (List.mem_append_left _ hp), by omega, by omega⟩

/-- `canFit` decides whether a valid passenger fits as a last one. -/
theorem fits_concat_iff {e e₀ : Elevator} {took : List Passenger}
    (hw : e.wUnits = ((onboard e₀).map getWeight).sum + (took.map getWeight).sum)
    (hq : e.pUnits = ((onboard e₀).map getPass).sum + (took.map getPass).sum)
    (hdir : e.direction = e₀.direction) (htook : ∀ p ∈ took, pDirection p = e₀.direction)
    (q : Passenger) : Fits e₀ (took ++ [q]) ↔ boards q e = true := by
  have hsums : ((took ++ [q]).map getWeight).sum = (took.map getWeight).sum + getWeight q ∧
      ((took ++ [q]).map getPass).sum = (took.map getPass).sum + getPass q := by
    simp
  simp only [boards, canFit, hw, hq, hdir, Bool.and_eq_true, decide_eq_true_eq, beq_iff_eq]
  constructor
  · intro hfits
    have h1 := hfits.weight
    have h2 := hfits.pass
    refine ⟨⟨by omega, by omega⟩, ?_⟩
    exact hfits.direction q (List.mem_append_right _ (List.mem_singleton.mpr rfl))
  · rintro ⟨⟨h1, h2⟩, h3⟩
    refine ⟨fun p hp => ?_, by omega, by omega⟩
    rcases List.mem_append.mp hp with hp | hp
    · exact htook p hp
    · rw [List.mem_singleton.mp hp]
      exact h3

/-- Everybody who boards in a load phase goes the cabin's way; the loop stops in front of the
    first who does not. -/
theorem LoadStep.boarded_direction {s s' : Sys} (hst : ReflTransGen LoadStep s s') :
    ∃ evs, s'.log = s.log ++ evs ∧
      ∀ p floor, Event.boarded p floor ∈ evs → pDirection p = s.b.e.direction := by
  induction hst with
  | refl => exact ⟨[], (List.append_nil _).symm, fun p floor h => absurd h List.not_mem_nil⟩
  | @tail u v hchain hstep ih =>
    obtain ⟨evs, hlog, hdir⟩ := ih
    have hsame := (LoadStep.frame hchain).2.2.1
    cases hstep with
    | enter => exact ⟨evs, hlog, hdir⟩
    | close => exact ⟨evs, hlog, hdir⟩
    | @deliver i c q l _ _ _ _ =>
      refine ⟨evs ++ [.delivered q u.b.e.current], by rw [Sys.record_log, hlog, List.append_assoc],
        fun p floor hmem => ?_⟩
      rcases List.mem_append.mp hmem with hmem | hmem
      · exact hdir p floor hmem
      · exact absurd (List.mem_singleton.mp hmem) (by simp)
    | @board c j q l _ _ _ _ _ _ hq =>
      refine ⟨evs ++ [.boarded q u.b.e.current], by rw [Sys.record_log, hlog, List.append_assoc],
        fun p floor hmem => ?_⟩
      rcases List.mem_append.mp hmem with hmem | hmem
      · exact hdir p floor hmem
      · rw [(Event.boarded.inj (List.mem_singleton.mp hmem)).1, hq, hsame]

/-! ## One stop -/

/-- The state after a stop at floor `c` at which `took` boarded and `kept` stayed in the queue:
    everybody for this floor was delivered, and nothing else happened to any floor or list. -/
structure ServedAt (s s' : Sys) (c : Slot) (took kept : List Passenger) : Prop where
  log : s'.log = s.log ++ ((s.b.e.p c).map fun p => Event.delivered p s.b.e.current)
    ++ took.map fun p => Event.boarded p s.b.e.current
  floor : s'.b.f c = { s.b.f c with
    waiting := kept
    toLoad := (s.b.f c).toLoad - (took.map Passenger.unit).sum
    serviced := (s.b.f c).serviced + ((s.b.e.p c).countP fun p => p.sFloor = (c : Int)) }
  floors : ∀ i : Slot, i ≠ c → s'.b.f i = { s.b.f i with
    serviced := (s.b.f i).serviced + ((s.b.e.p c).countP fun p => p.sFloor = (i : Int)) }
  riding : ∀ j : Slot, s'.b.e.p j
    = (if j = c then [] else s.b.e.p j) ++ took.filter fun p => p.dFloor = (j : Int)

/-- Nobody here: a stop at which nobody gets off or on. -/
theorem servedAt_nobody {s : Sys} {c : Slot} (hw : (s.b.f c).waiting = [])
    (hp : s.b.e.p c = []) : ServedAt s { s with pc := .move } c [] [] := by
  have hfloor : ∀ i, s.b.f i = { s.b.f i with
      serviced := (s.b.f i).serviced + ((s.b.e.p c).countP fun p => p.sFloor = (i : Int)) } := by
    intro i
    rw [hp]
    simp
  constructor
  · rw [hp]
    simp
  · rw [hp]
    have hsame : s.b.f c = { s.b.f c with waiting := (s.b.f c).waiting } := rfl
    rw [hw] at hsame
    simpa using hsame
  · intro i _
    exact hfloor i
  · intro j
    show s.b.e.p j = _
    by_cases hj : j = c
    · rw [if_pos hj, hj, hp]
      rfl
    · rw [if_neg hj]
      simp

theorem servedAt_served (s : Sys) (c : Slot) (took kept : List Passenger) :
    ServedAt s { s.served c took kept with pc := .move } c took kept := by
  constructor
  · rfl
  · show update _ c _ c = _
    rw [update_self]
    rfl
  · intro i hi
    show update _ c _ i = _
    rw [update_of_ne hi]
    rfl
  · intro j
    show update s.b.e.p c [] j ++ _ = _
    by_cases hj : j = c
    · rw [hj, update_self, if_pos rfl]
    · rw [update_of_ne hj, if_neg hj]

/-- The loads of a served cabin, in terms of those who stayed and those who boarded. -/
theorem served_counts {s : Sys} {c : Slot} (hs : Sound s) (hon : s.b.e.status ≠ .offline)
    (hc : s.b.e.current = c) (took kept : List Passenger) :
    (s.served c took kept).b.e.wUnits = ((onboard (s.b.e.without c)).map getWeight).sum
        + (took.map getWeight).sum ∧
      (s.served c took kept).b.e.pUnits = ((onboard (s.b.e.without c)).map getPass).sum
        + (took.map getPass).sum := by
  -- the counters are right once everybody has got off
  have hs₁ := (LoadStep.enter hon).sound hs
  have hs₂ := LoadStep.sound_chain hs₁ (unloadHere_spec (c := c) hs₁ rfl hc).2
  have hstay : ((openDoors s).unloaded c (s.b.e.p c) []).b.e.toLoad.Counts
      (onboard (s.b.e.without c)) := by
    have hcabin : ((openDoors s).unloaded c (s.b.e.p c) []).b.e.toLoad
        = total Passenger.unit (s.b.e.without c).p := hs₂.stock.cabin
    rw [hcabin, total_onboard]
    exact counts_sum_unit _
  have htook := counts_sum_unit took
  constructor
  · show (_ + _ : Load).wUnits = _
    rw [Load.wUnits_add, hstay.wUnits, htook.wUnits]
  · show (_ + _ : Load).pUnits = _
    rw [Load.pUnits_add, hstay.pUnits, htook.pUnits]

/-- Who boards is the longest prefix of the queue that fits. -/
theorem served_longest {s : Sys} {c : Slot} {took kept : List Passenger} (pc : Phase) (hs : Sound s)
    (hon : s.b.e.status ≠ .offline) (hc : s.b.e.current = c)
    (hsplit : (s.b.f c).waiting = took ++ kept)
    (hchain : ReflTransGen LoadStep s { s.served c took kept with pc := pc })
    (hstop : ∀ q qs, kept = q :: qs → boards q (s.served c took kept).b.e = false) :
    LongestPrefix (Fits (s.b.e.without c)) took (s.b.f c).waiting := by
  obtain ⟨hw, hq⟩ := served_counts hs hon hc took kept
  have hstock : Stock (s.served c took kept).b := (LoadStep.sound_chain hs hchain).stock
  have hdir : ∀ p ∈ took, pDirection p = s.b.e.direction := by
    obtain ⟨evs, hlog, hdir⟩ := LoadStep.boarded_direction hchain
    have hlog' := (servedAt_served s c took kept).log
    rw [List.append_assoc] at hlog'
    obtain rfl := List.append_cancel_left (hlog.symm.trans hlog')
    intro p hp
    refine hdir p s.b.e.current (List.mem_append_right _ ?_)
    exact List.mem_map_of_mem hp
  have hvalid : ∀ p ∈ took ++ kept, p.Valid := by
    intro p hp
    rw [← hsplit] at hp
    exact (hs.stock.waiting hp).1
  rw [hsplit]
  refine LongestPrefix.of_stop ?_ ?_ ?_
  · have hfits := hstock.fits
    exact ⟨hdir, by omega, by omega⟩
  · intro p p' hpre hp' hfits
    exact hfits.shorter (fun q hq => hvalid q (hp'.subset hq)) hpre
  · intro q qs hkept hfits
    have htakes := (fits_concat_iff (e := (s.served c took kept).b.e) hw hq rfl hdir q).mp hfits
    rw [hstop q qs hkept] at htakes
    exact absurd htakes (by decide)

/-- `hasSpace`, which nobody calls, says whether there is any passenger that `canFit` would admit: a
    child, if nobody else. -/
theorem hasSpace_iff (e : Elevator) :
    hasSpace e = true ↔ ∃ p : Passenger, p.Valid ∧ canFit p e = true := by
  simp only [hasSpace, canFit, Bool.and_eq_true, decide_eq_true_eq]
  constructor
  · rintro ⟨hw, hq⟩
    refine ⟨⟨0, .child, 0, 0⟩, ⟨by simp, ⟨0, rfl⟩, ⟨0, rfl⟩⟩, ?_, ?_⟩
    · show 1 + e.wUnits ≤ maxW
      omega
    · show 1 + e.pUnits ≤ maxP
      omega
  · rintro ⟨p, hvalid, hw, hq⟩
    have hweight := Passenger.getWeight_range hvalid.known
    have hpass := Passenger.getPass_range hvalid.known
    omega

/-- The load phase of an elevator that is not offline is one stop, at the floor where the cabin
    stands. -/
theorem loadPhase_stop {s s' : Sys} (hs : Sound s) (hon : s.b.e.status ≠ .offline)
    (hload : loadPhase s = some s') {c : Slot} (hc : s.b.e.current = c) :
    ∃ took kept, (s.b.f c).waiting = took ++ kept ∧ ServedAt s s' c took kept ∧
      (s.b.e.shutdown = 1 → took = []) ∧
      (s.b.e.shutdown ≠ 1 → LongestPrefix (Fits (s.b.e.without c)) took (s.b.f c).waiting) := by
  obtain ⟨t, ht, hstop, hchain⟩ := loadPhase_spec hs
  obtain rfl : t = s' := Option.some.inj (ht.symm.trans hload)
  cases hstop with
  | offline hoff => exact absurd hoff hon
  | @nobody k _ hk hw hp =>
    obtain rfl : k = c := Fin.ext (by have := hk.symm.trans hc; omega)
    refine ⟨[], [], hw, servedAt_nobody hw hp, fun _ => rfl, fun _ => ?_⟩
    -- with nobody to serve, the doors might as well have opened
    obtain ⟨took, kept, hsplit, _, hchain', _⟩ := serveFloor_spec hs hon hk
    obtain ⟨rfl, rfl⟩ := List.append_eq_nil_iff.mp (hsplit.symm.trans hw)
    exact served_longest s.pc hs hon hk hw hchain' (by simp)
  | @serve k took kept _ hk hsplit _ hnone hrefuse =>
    obtain rfl : k = c := Fin.ext (by have := hk.symm.trans hc; omega)
    exact ⟨took, kept, hsplit, servedAt_served s k took kept, hnone, fun hsd =>
      served_longest .move hs hon hk hsplit hchain (hrefuse hsd)⟩

/-- **One stop serves exactly the right people.**  In every reachable state with the elevator not
    offline, the load phase delivers everybody in the list of the current floor, in order; takes
    on board nobody after a shutdown, and otherwise the longest prefix of the queue that goes the
    cabin's way and fits beside those who stay; and leaves everything else as it was. -/
theorem one_stop {s : Sys} (h : system.Reachable s) (hon : s.b.e.status ≠ .offline) :
    ∃ (c : Slot) (s' : Sys) (took kept : List Passenger), s.b.e.current = c ∧
      loadPhase s = some s' ∧ (s.b.f c).waiting = took ++ kept ∧ ServedAt s s' c took kept ∧
      (s.b.e.shutdown = 1 → took = []) ∧
      (s.b.e.shutdown ≠ 1 → LongestPrefix (Fits (s.b.e.without c)) took (s.b.f c).waiting) := by
  have hs := Sound.reachable (loose_of_system h)
  obtain ⟨c, hc⟩ := hs.motion.track.slot
  obtain ⟨s', hload, _⟩ := loadPhase_spec hs
  obtain ⟨took, kept, hstop⟩ := loadPhase_stop hs hon hload hc
  exact ⟨c, s', took, kept, hc, hload, hstop⟩

/-- On its way up the cabin comes to floor 1 with a bell hop who gets off there.  A child waits who
    goes up, then an adult who goes down, and behind the adult another child who goes up. -/
def crossing : List Act :=
  [.start, .request 4 1 2, .insert ⟨0, .bell, 0, 1⟩, .request 2 2 5, .insert ⟨1, .child, 1, 4⟩,
    .request 1 2 1, .insert ⟨2, .adult, 1, 0⟩, .request 2 2 3, .insert ⟨3, .child, 1, 2⟩,
    .load, .move]

theorem one_stop_crossing : ∃ s s', system.run crossing = some s ∧ loadPhase s = some s' ∧
    s.b.e.p 1 = [⟨0, .bell, 0, 1⟩] ∧
    ServedAt s s' 1 [⟨1, .child, 1, 4⟩] [⟨2, .adult, 1, 0⟩, ⟨3, .child, 1, 2⟩] ∧
    LongestPrefix (Fits (s.b.e.without 1)) [⟨1, .child, 1, 4⟩] (s.b.f 1).waiting := by
  have hcomputed : ((system.run crossing).bind fun s => (loadPhase s).map fun s' =>
      decide (s.b.e.status ≠ .offline ∧ s.b.e.shutdown ≠ 1 ∧ s.b.e.current = (1 : Slot) ∧
        s.b.e.p 1 = [⟨0, .bell, 0, 1⟩] ∧
        (s.b.f 1).waiting = [⟨1, .child, 1, 4⟩] ++ [⟨2, .adult, 1, 0⟩, ⟨3, .child, 1, 2⟩] ∧
        (s'.b.f 1).waiting = [⟨2, .adult, 1, 0⟩, ⟨3, .child, 1, 2⟩])) = some true := by decide
  obtain ⟨s, hrun, hcomputed⟩ := Option.bind_eq_some_iff.mp hcomputed
  obtain ⟨s₁, hs₁, hcomputed⟩ := Option.map_eq_some_iff.mp hcomputed
  obtain ⟨hon, hsd, hcur, hrider, hw, hkept'⟩ := of_decide_eq_true hcomputed
  obtain ⟨c, s', took, kept, hc, hload, hsplit, hserved, _, hlongest⟩ :=
    one_stop (Machine.reachable_iff_run.mpr ⟨crossing, hrun⟩) hon
  obtain rfl : c = 1 := Fin.ext (by have := hc.symm.trans hcur; omega)
  obtain rfl : s₁ = s' := Option.some.inj (hs₁.symm.trans hload)
  -- who was kept is read off the state after the stop
  have hleft : (s₁.b.f 1).waiting = kept := congrArg Floors.waiting hserved.floor
  obtain rfl := hleft.symm.trans hkept'
  obtain rfl := List.append_cancel_right (hsplit.symm.trans hw)
  exact ⟨s, s₁, hrun, hload, hrider, hserved, hlongest hsd⟩

end KernelModules.Part3
