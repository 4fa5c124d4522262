/-
  At what moment a request arrives.

  A request that has passed its tests is inserted at whatever moment its caller gets the mutex.  In
  most cases it makes no difference when: the loops of a load phase read the queue of one floor
  only, and the move phase asks no more of the queues than whether there is anybody at all.  So an
  insertion commutes with

  * all system calls, but for an insertion into the same queue;
  * a load phase at any other floor, and any phase of an offline elevator;
  * a move phase, if there is somebody on board, or waiting, without it.

  Over a whole schedule: what happens between two moments at which the insertion could take place
  is the same, and so is the state afterwards, if all that happens is of these kinds
  (`time_of_arrival`).
-/
import KernelModules.Lib.Commute
import KernelModules.Part3.Race

namespace KernelModules.Part3

open Function Relation KernelModules.Lib

/-! ## What a load phase does not notice -/

/-- A relation between states that a load phase at a floor in `C` keeps, if the passengers it
    handles are all in `Q`: it does not notice the difference. -/
structure Unseen (C : Slot → Prop) (Q : Passenger → Prop) (ρ : Sys → Sys → Prop) : Prop where
  e {s t : Sys} : ρ s t → t.b.e = s.b.e
  waiting {s t : Sys} {c : Slot} : ρ s t → C c → (t.b.f c).waiting = (s.b.f c).waiting
  setE {s t : Sys} (e : Elevator) : ρ s t → ρ (s.setE e) (t.setE e)
  record {s t : Sys} (ev : Event) : ρ s t → ρ (s.record ev) (t.record ev)
  phase {s t : Sys} (pc : Phase) : ρ s t → ρ { s with pc := pc } { t with pc := pc }
  delPass {s t : Sys} {q : Passenger} {b : Building} : ρ s t → Q q → delPass s.b q = some b →
    ∃ b', delPass t.b q = some b' ∧ ρ { s with b := b } { t with b := b' }
  movePass {s t : Sys} {q : Passenger} {c : Slot} {b : Building} : ρ s t → Q q → C c →
    q.sFloor = c → movePass s.b q = some b →
    ∃ b', movePass t.b q = some b' ∧ ρ { s with b := b } { t with b := b' }

variable {C : Slot → Prop} {Q : Passenger → Prop} {ρ : Sys → Sys → Prop}

/-- The loop over the cabin's list, run on both sides: whoever gets off on the one gets off on the
    other, turn by turn ... -/
theorem Unseen.unloadLoop (h : Unseen C Q ρ) : ∀ (ps : List Passenger) {s t s' : Sys}, ρ s t →
    (∀ q ∈ ps, Q q) → unloadLoop ps s = some s' → ∃ t', unloadLoop ps t = some t' ∧ ρ s' t' := by
  intro ps
  induction ps with
  | nil =>
    intro s t s' hρ _ hrun
    obtain rfl := Option.some.inj hrun
    exact ⟨t, rfl, hρ⟩
  | cons q ps ih =>
    intro s t s' hρ hQ hrun
    have hrest : ∀ r ∈ ps, Q r := fun r hr => hQ r (List.mem_cons_of_mem q hr)
    unfold Part3.unloadLoop at hrun ⊢
    rw [h.e hρ]
    by_cases hdst : q.dFloor = s.b.e.current
    · rw [if_pos hdst] at hrun ⊢
      obtain ⟨b, hb, hrun⟩ := Option.bind_eq_some_iff.mp hrun
      obtain ⟨b', hb', hρ'⟩ := h.delPass hρ (hQ q List.mem_cons_self) hb
      rw [hb']
      exact ih (h.record _ hρ') hrest hrun
    · rw [if_neg hdst] at hrun ⊢
      exact ih hρ hrest hrun

/-- ... and so with the loop over a waiting list, at a floor where there is nothing to see. -/
theorem Unseen.loadLoop (h : Unseen C Q ρ) {c : Slot} (hc : C c) : ∀ (ps : List Passenger)
    {s t s' : Sys}, ρ s t → (∀ q ∈ ps, Q q ∧ q.sFloor = c) → loadLoop ps s = some s' →
    ∃ t', loadLoop ps t = some t' ∧ ρ s' t' := by
  intro ps
  induction ps with
  | nil =>
    intro s t s' hρ _ hrun
    obtain rfl := Option.some.inj hrun
    exact ⟨t, rfl, hρ⟩
  | cons q ps ih =>
    intro s t s' hρ hQ hrun
    obtain ⟨hq, hsrc⟩ := hQ q List.mem_cons_self
    have hrest : ∀ r ∈ ps, Q r ∧ r.sFloor = c := fun r hr => hQ r (List.mem_cons_of_mem q hr)
    unfold Part3.loadLoop at hrun ⊢
    rw [h.e hρ]
    by_cases hboards : (canFit q s.b.e && pDirection q == s.b.e.direction) = true
    · rw [if_pos hboards] at hrun ⊢
      by_cases hhere : q.sFloor = s.b.e.current
      · rw [if_pos hhere] at hrun ⊢
        obtain ⟨b, hb, hrun⟩ := Option.bind_eq_some_iff.mp hrun
        obtain ⟨b', hb', hρ'⟩ := h.movePass hρ hq hc hsrc hb
        rw [hb']
        exact ih (h.record _ hρ') hrest hrun
      · rw [if_neg hhere] at hrun ⊢
        exact ih hρ hrest hrun
    · rw [if_neg hboards] at hrun ⊢
      obtain rfl := Option.some.inj hrun
      exact ⟨t, rfl, hρ⟩

/-- The two inner conditions of the load phase see the same on both sides, so both sides enter
    their loops or neither does ... -/
theorem Unseen.unloadHere (h : Unseen C Q ρ) {s t s' : Sys} {c : Slot} (hρ : ρ s t)
    (hQ : ∀ q ∈ s.b.e.p c, Q q) (hrun : unloadHere c s = some s') :
    ∃ t', unloadHere c t = some t' ∧ ρ s' t' := by
  unfold Part3.unloadHere at hrun ⊢
  rw [h.e hρ]
  by_cases hany : s.b.e.p c ≠ []
  · rw [if_pos hany] at hrun ⊢
    exact h.unloadLoop _ hρ hQ hrun
  · rw [if_neg hany] at hrun ⊢
    obtain rfl := Option.some.inj hrun
    exact ⟨t, rfl, hρ⟩

/-- ... and what the loops leave is related again. -/
theorem Unseen.loadHere (h : Unseen C Q ρ) {s t s' : Sys} {c : Slot} (hρ : ρ s t) (hCc : C c)
    (hc : s.b.e.current = c) (hQ : ∀ q ∈ (s.b.f c).waiting, Q q ∧ q.sFloor = c)
    (hrun : loadHere c s = some s') : ∃ t', loadHere c t = some t' ∧ ρ s' t' := by
  have heq : ∀ u : Sys, u.b.e.current = c → Part3.loadHere c u =
      if !(u.b.f c).waiting.isEmpty && u.b.e.shutdown != 1 then
        Part3.loadLoop (u.b.f c).waiting u else some u := by
    intro u hu
    rw [Part3.loadHere, checkFloor, hu, slot_coe]
    rfl
  rw [heq s hc] at hrun
  rw [heq t (by rw [h.e hρ]; exact hc), h.e hρ, h.waiting hρ hCc]
  by_cases hany : (!(s.b.f c).waiting.isEmpty && s.b.e.shutdown != 1) = true
  · rw [if_pos hany] at hrun ⊢
    exact h.loadLoop hCc _ hρ hQ hrun
  · rw [if_neg hany] at hrun ⊢
    obtain rfl := Option.some.inj hrun
    exact ⟨t, rfl, hρ⟩

/-- **A load phase does not notice the difference.**  Both sides open the same doors, and run the
    same two loops over the same passengers. -/
theorem Unseen.loadPhase (h : Unseen C Q ρ) {s t s' : Sys} (hs : Sound s) (hρ : ρ s t)
    (hC : s.b.e.status ≠ .offline → ∀ c : Slot, s.b.e.current = c → C c)
    (hQ : ∀ x, ∀ q ∈ s.b.lists x, Q q) (hrun : loadPhase s = some s') :
    ∃ t', loadPhase t = some t' ∧ ρ s' t' := by
  have hbody : ∀ u, loadBody s = some u → ∃ v, loadBody t = some v ∧ ρ u v := by
    intro u hu
    unfold loadBody at hu ⊢
    rw [h.e hρ]
    by_cases hon : s.b.e.status ≠ .offline
    · rw [if_pos hon] at hu ⊢
      obtain ⟨c, hc⟩ := hs.motion.track.slot
      have hCc := hC hon c hc
      rw [hc, slot_coe] at hu ⊢
      change (if (s.b.f c).waiting ≠ [] ∨ s.b.e.p c ≠ [] then serveFloor c s else some s)
        = some u at hu
      show ∃ v, (if (t.b.f c).waiting ≠ [] ∨ s.b.e.p c ≠ [] then serveFloor c t else some t)
        = some v ∧ ρ u v
      rw [h.waiting hρ hCc]
      by_cases hany : (s.b.f c).waiting ≠ [] ∨ s.b.e.p c ≠ []
      · rw [if_pos hany] at hu ⊢
        have hopen : ρ (openDoors s) (openDoors t) := by
          rw [openDoors, openDoors, h.e hρ]
          exact h.setE _ hρ
        obtain ⟨hun, _⟩ := unloadHere_spec (c := c) ((LoadStep.enter hon).sound hs) rfl hc
        rw [serveFloor, hun] at hu
        obtain ⟨w, hw, hρ'⟩ := h.unloadHere hopen (hQ (.inr c)) hun
        rw [serveFloor, hw]
        exact h.loadHere hρ' hCc hc
          (fun q hq => ⟨hQ (.inl c) q hq, (hs.stock.waiting hq).2⟩) hu
      · rw [if_neg hany] at hu ⊢
        obtain rfl := Option.some.inj hu
        exact ⟨t, rfl, hρ⟩
    · rw [if_neg hon] at hu ⊢
      obtain rfl := Option.some.inj hu
      exact ⟨t, rfl, hρ⟩
  obtain ⟨u, hu, rfl⟩ := Option.map_eq_some_iff.mp hrun
  obtain ⟨v, hv, hρ'⟩ := hbody u hu
  exact ⟨{ v with pc := .move }, by rw [Part3.loadPhase, hv]; rfl, h.phase .move hρ'⟩

/-! ## States that differ in one place -/

/-- The history but for the arrival of `p`. -/
def others (p : Passenger) (log : List Event) : List Event :=
  log.filter fun ev => decide (ev ≠ .accepted p)

@[simp] theorem others_append (p : Passenger) (xs ys : List Event) :
    others p (xs ++ ys) = others p xs ++ others p ys := List.filter_append _ _

/-- The same state, but for a change `β` of the building, a change `g` of the requests on their
    way, and the place of the arrival of `p` in the history. -/
structure Differs (p : Passenger) (β : Building → Building) (g : List Passenger → List Passenger)
    (s t : Sys) : Prop where
  b : t.b = β s.b
  pc : t.pc = s.pc
  nodes : t.nodes = s.nodes
  inflight : t.inflight = g s.inflight
  log : others p t.log = others p s.log

/-- A change of the building that leaves the cabin and the queues in `C` alone. -/
structure Aside (C : Slot → Prop) (Q : Passenger → Prop) (β : Building → Building) : Prop where
  e (b : Building) : (β b).e = b.e
  setE (b : Building) (e : Elevator) : β { b with e := e } = { β b with e := e }
  waiting (b : Building) {c : Slot} : C c → ((β b).f c).waiting = (b.f c).waiting
  delPass (b : Building) {q : Passenger} : Q q → delPass (β b) q = (delPass b q).map β
  movePass (b : Building) {q : Passenger} {c : Slot} : Q q → C c → q.sFloor = c →
    movePass (β b) q = (movePass b q).map β

variable {p : Passenger} {β : Building → Building} {g : List Passenger → List Passenger}
  {s t s' : Sys}

/-- Fields of the elevator that are set on both sides leave the difference as it was, for it is
    not there. -/
theorem Aside.differs_setE (hβ : Aside C Q β) (h : Differs p β g s t) (e : Elevator) :
    Differs p β g (s.setE e) (t.setE e) where
  b := by
    show ({ t.b with e := e } : Building) = β { s.b with e := e }
    rw [hβ.setE, h.b]
  pc := h.pc
  nodes := h.nodes
  inflight := h.inflight
  log := h.log

theorem Differs.record (h : Differs p β g s t) (ev : Event) :
    Differs p β g (s.record ev) (t.record ev) where
  b := h.b
  pc := h.pc
  nodes := h.nodes
  inflight := h.inflight
  log := by rw [Sys.record_log, Sys.record_log, others_append, others_append, h.log]

theorem Differs.phase (h : Differs p β g s t) (pc : Phase) :
    Differs p β g { s with pc := pc } { t with pc := pc } :=
  ⟨h.b, rfl, h.nodes, h.inflight, h.log⟩

/-- A difference that stands aside is one that a load phase does not see. -/
theorem Aside.unseen (hβ : Aside C Q β) : Unseen C Q (Differs p β g) where
  e h := by rw [h.b, hβ.e]
  waiting h hc := by rw [h.b, hβ.waiting _ hc]
  setE e h := hβ.differs_setE h e
  record ev h := h.record ev
  phase pc h := h.phase pc
  delPass {s t q b} h hq hb := by
    refine ⟨β b, ?_, rfl, h.pc, h.nodes, h.inflight, h.log⟩
    rw [h.b, hβ.delPass _ hq, hb]
    rfl
  movePass {s t q c b} h hq hc hsrc hb := by
    refine ⟨β b, ?_, rfl, h.pc, h.nodes, h.inflight, h.log⟩
    rw [h.b, hβ.movePass _ hq hc hsrc, hb]
    rfl

/-! ### One action on both -/

/-- **A load phase** at a floor where the difference is not, and over lists that hold other
    passengers, leaves the difference as it was. -/
theorem Aside.load (hβ : Aside C Q β) (hs : Sound s) (h : Differs p β g s t)
    (hC : s.b.e.status ≠ .offline → ∀ c : Slot, s.b.e.current = c → C c)
    (hQ : ∀ x, ∀ q ∈ s.b.lists x, Q q) (hst : system.step s .load = some s') :
    ∃ t', system.step t .load = some t' ∧ Differs p β g s' t' := by
  obtain ⟨hguard, hexec⟩ := Machine.step_eq_some.mp hst
  obtain ⟨t', ht', h'⟩ := hβ.unseen.loadPhase hs h hC hQ hexec
  refine ⟨t', Machine.step_eq_some.mpr ⟨?_, ht'⟩, h'⟩
  show decide (t.pc = .load) = true
  rw [h.pc]
  exact hguard

/-- The move phase asks of the queues only whether somebody waits, so a difference that leaves the
    answer alone leaves the move alone. -/
theorem Aside.move (hβ : Aside C Q β) (h : Differs p β g s t)
    (hwaiting : s.b.e.status = .offline ∨ checkElevator s.b.e = true ∨
      checkBuilding (β s.b) = checkBuilding s.b) (hst : system.step s .move = some s') :
    ∃ t', system.step t .move = some t' ∧ Differs p β g s' t' := by
  obtain ⟨hguard, hexec⟩ := Machine.step_eq_some.mp hst
  obtain rfl : movePhase s = s' := Option.some.inj hexec
  refine ⟨movePhase t, Machine.step_eq_some.mpr ⟨?_, rfl⟩, ?_⟩
  · show decide (t.pc = .move) = true
    rw [h.pc]
    exact hguard
  refine Differs.phase ?_ .load
  have he : t.b.e = s.b.e := by rw [h.b, hβ.e]
  unfold moveBody
  rw [he]
  by_cases hon : s.b.e.status ≠ .offline
  · rw [if_pos hon, if_pos hon]
    have hidle : (!checkElevator s.b.e && !checkBuilding t.b)
        = (!checkElevator s.b.e && !checkBuilding s.b) := by
      rcases hwaiting with hoff | hfull | heq
      · exact absurd hoff hon
      · rw [hfull]
        rfl
      · rw [h.b, heq]
    simp only [hidle]
    by_cases hrest : (!checkElevator s.b.e && !checkBuilding s.b) = true
    · simp only [if_pos hrest]
      exact (hβ.differs_setE h _).record _
    · by_cases hshut : (!checkElevator s.b.e && s.b.e.shutdown != 0) = true
      · simp only [if_neg hrest, if_pos hshut]
        exact (hβ.differs_setE h _).record _
      · simp only [if_neg hrest, if_neg hshut]
        exact (hβ.differs_setE h _).record _
  · rw [if_neg hon, if_neg hon]
    exact h

theorem Aside.start (hβ : Aside C Q β) (h : Differs p β g s t)
    (hst : system.step s .start = some s') :
    ∃ t', system.step t .start = some t' ∧ Differs p β g s' t' := by
  obtain rfl : (startElevator .ok s).2 = s' := Option.some.inj (Machine.step_eq_some.mp hst).2
  refine ⟨(startElevator .ok t).2, Machine.step_eq_some.mpr ⟨rfl, rfl⟩, ?_⟩
  have he : t.b.e = s.b.e := by rw [h.b, hβ.e]
  have hok : Outcome.ok.lock = true := rfl
  rw [startElevator, startElevator, if_pos hok, if_pos hok, he]
  by_cases hon : s.b.e.status ≠ .offline
  · rw [if_pos hon, if_pos hon]
    exact h
  · rw [if_neg hon, if_neg hon]
    exact (hβ.differs_setE h _).record _

theorem Aside.stop (hβ : Aside C Q β) (h : Differs p β g s t)
    (hst : system.step s .stop = some s') :
    ∃ t', system.step t .stop = some t' ∧ Differs p β g s' t' := by
  obtain rfl : (stopElevator .ok s).2 = s' := Option.some.inj (Machine.step_eq_some.mp hst).2
  refine ⟨(stopElevator .ok t).2, Machine.step_eq_some.mpr ⟨rfl, rfl⟩, ?_⟩
  have he : t.b.e = s.b.e := by rw [h.b, hβ.e]
  have hok : Outcome.ok.lock = true := rfl
  rw [stopElevator, stopElevator, if_pos hok, if_pos hok, he]
  by_cases hshut : s.b.e.shutdown ≠ 0
  · rw [if_pos hshut, if_pos hshut]
    exact h
  · rw [if_neg hshut, if_neg hshut]
    exact (hβ.differs_setE h _).record _

/-- **A request** finds the same `e.shutdown` and the same next node on both sides.  The two gaps
    differ as before, with the new passenger at the end of both. -/
theorem Aside.request (hβ : Aside C Q β) (h : Differs p β g s t) {pType sFloor dFloor : Int}
    (hg : ∀ q, g (s.inflight ++ [q]) = g s.inflight ++ [q])
    (hst : system.step s (.request pType sFloor dFloor) = some s') :
    ∃ t', system.step t (.request pType sFloor dFloor) = some t' ∧ Differs p β g s' t' := by
  have hexec := (Machine.step_eq_some.mp hst).2
  change (if refuses s.b.e pType sFloor dFloor then some s else some _) = some s' at hexec
  have he : t.b.e = s.b.e := by rw [h.b, hβ.e]
  have hstep : ∀ {t'}, (if refuses s.b.e pType sFloor dFloor then some t else some { t with
      nodes := t.nodes + 1
      inflight := t.inflight ++ [newPassenger t pType sFloor dFloor] }) = some t' →
      system.step t (.request pType sFloor dFloor) = some t' := by
    intro t' ht'
    rw [← he] at ht'
    exact Machine.step_eq_some.mpr ⟨rfl, ht'⟩
  by_cases href : refuses s.b.e pType sFloor dFloor = true
  · rw [if_pos href] at hexec hstep
    obtain rfl := Option.some.inj hexec
    exact ⟨t, hstep rfl, h⟩
  · rw [if_neg href] at hexec hstep
    obtain rfl := Option.some.inj hexec
    refine ⟨_, hstep rfl, h.b, h.pc, congrArg (· + 1) h.nodes, ?_, h.log⟩
    show t.inflight ++ [newPassenger t pType sFloor dFloor] = g (s.inflight ++ [_])
    rw [hg, h.inflight, newPassenger, newPassenger, h.nodes]

/-- **An insertion** of somebody who is in both gaps, if `addPass` does not mind the difference. -/
theorem Aside.insert (h : Differs p β g s t) {q : Passenger}
    (hadd : addPass (β s.b) q = (addPass s.b q).map β) (hmem : q ∈ g s.inflight)
    (hg : g (s.inflight.erase q) = (g s.inflight).erase q)
    (hst : system.step s (.insert q) = some s') :
    ∃ t', system.step t (.insert q) = some t' ∧ Differs p β g s' t' := by
  have hexec := (Machine.step_eq_some.mp hst).2
  obtain ⟨b, hb, rfl⟩ := Option.map_eq_some_iff.mp
    (show (addPass s.b q).map _ = some s' from hexec)
  have hb' : addPass t.b q = some (β b) := by
    rw [h.b, hadd, hb]
    rfl
  have hnext : Differs p β g ({ s with b := b, inflight := s.inflight.erase q } : Sys)
      { t with b := β b, inflight := t.inflight.erase q } := by
    refine ⟨rfl, h.pc, h.nodes, ?_, h.log⟩
    show t.inflight.erase q = g (s.inflight.erase q)
    rw [hg, h.inflight]
  refine ⟨_, Machine.step_eq_some.mpr ⟨?_, ?_⟩, hnext.record (.accepted q)⟩
  · show decide (q ∈ t.inflight) = true
    rw [h.inflight]
    exact decide_eq_true hmem
  · show (addPass t.b q).map _ = _
    rw [hb']
    rfl

/-! ## No difference at all -/

theorem Aside.id : Aside (fun _ => True) (fun _ => True) id where
  e _ := rfl
  setE _ _ := rfl
  waiting _ _ _ := rfl
  delPass _ _ _ := Option.map_id_apply.symm
  movePass _ _ _ _ _ _ := Option.map_id_apply.symm

/-- What a state looks like if one does not ask when `p` arrived. -/
def Sys.view (p : Passenger) (s : Sys) : Sys := { s with log := others p s.log }

/-- Two states have one view if they agree in everything but the place of the arrival in the
    history. -/
theorem view_eq : s.view p = t.view p ↔ Differs p id id s t := by
  constructor
  · intro h
    obtain ⟨hb, hpc, hnodes, hinflight, hlog⟩ := Sys.mk.inj h
    exact ⟨hb.symm, hpc.symm, hnodes.symm, hinflight.symm, hlog.symm⟩
  · rintro ⟨hb, hpc, hnodes, hinflight, hlog⟩
    unfold Sys.view
    rw [hb, hpc, hnodes, hinflight, hlog]
    rfl

/-- The module never asks when somebody arrived: no test of the program reads the history. -/
theorem system_blind (p : Passenger) : system.Blind (Sys.view p) := by
  intro s t a s' hr hview hst
  have h := view_eq.mp hview
  suffices hnext : ∃ t', system.step t a = some t' ∧ Differs p id id s' t' by
    obtain ⟨t', ht', h'⟩ := hnext
    exact ⟨t', ht', view_eq.mpr h'⟩
  cases a with
  | load =>
    exact Aside.id.load (Sound.reachable (loose_of_system hr)) h (fun _ _ _ => trivial)
      (fun _ _ _ => trivial) hst
  | move => exact Aside.id.move h (Or.inr (Or.inr rfl)) hst
  | start => exact Aside.id.start h hst
  | stop => exact Aside.id.stop h hst
  | request => exact Aside.id.request h (fun _ => rfl) hst
  | insert q =>
    have hmem : q ∈ s.inflight := of_decide_eq_true (Machine.step_eq_some.mp hst).1
    exact Aside.insert h Option.map_id_apply.symm hmem rfl hst

/-! ## Somebody more in a queue -/

variable {i : Slot}

/-- Changes of floors commute: on two floors they do not meet, and on one floor if the changes
    themselves commute. -/
theorem Building.onFloor_comm (b : Building) {k : Slot} {g h : Floors → Floors}
    (hsame : k = i → ∀ fl, h (g fl) = g (h fl)) :
    (b.onFloor i g).onFloor k h = (b.onFloor k h).onFloor i g := by
  unfold Building.onFloor
  by_cases hk : k = i
  · subst hk
    simp only [update_self, update_idem, hsame rfl]
  · have hk' : i ≠ k := fun heq => hk heq.symm
    simp only [update_of_ne hk, update_of_ne hk', update_comm hk]

/-- Unlinking another passenger takes another node, so a newcomer at the end of a queue stays
    where it is. -/
theorem Building.listDel_queued (b : Building) {q : Passenger} (hq : q.node ≠ p.node) :
    (b.queued i p).listDel q = (b.listDel q).queued i p := by
  refine Building.ext (funext fun k => ?_) rfl
  by_cases hk : k = i
  · subst hk
    have hkeep : [p].filter (fun a => decide (a.node ≠ q.node)) = [p] :=
      List.filter_eq_self.mpr fun a ha => by
        rw [List.mem_singleton.mp ha]
        exact decide_eq_true hq.symm
    simp only [listDel, queued, onFloor, unlink, update_self, List.filter_append, hkeep]
  · simp only [listDel, queued, onFloor, unlink, update_of_ne hk]

/-- A change of a floor, and then the unlinking of another passenger. -/
theorem Building.handled_queued (b : Building) {q : Passenger} (hq : q.node ≠ p.node) {k : Slot}
    {h : Floors → Floors} (hsame : k = i → ∀ fl : Floors,
      h { fl with waiting := fl.waiting ++ [p], toLoad := fl.toLoad + p.unit }
        = { h fl with waiting := (h fl).waiting ++ [p], toLoad := (h fl).toLoad + p.unit }) :
    ((b.queued i p).onFloor k h).listDel q = ((b.onFloor k h).listDel q).queued i p := by
  rw [← Building.listDel_queued _ hq, queued, queued, Building.onFloor_comm b hsame]

/-- The list functions and a late arrival at floor `i`: a delivery takes another node off another
    list ... -/
theorem delPass_queued (b : Building) {q : Passenger} (hq : q.node ≠ p.node) :
    delPass (b.queued i p) q = (delPass b q).map fun b => b.queued i p := by
  unfold Part3.delPass
  by_cases hinv : getWeight q = -1 ∨ getPass q = -1
  · rw [if_pos hinv, if_pos hinv]
    rfl
  · rw [if_neg hinv, if_neg hinv]
    cases slot q.sFloor with
    | none => rfl
    | some k =>
      -- both may change the same floor, but not the same fields
      have hf := congrArg Building.f (b.handled_queued (i := i) (k := k)
        (h := fun fl => { fl with serviced := fl.serviced + 1 }) hq fun _ _ => rfl)
      exact congrArg some (Building.ext hf rfl)

/-- ... a boarding at another floor does not come near the queue of `i` ... -/
theorem movePass_queued (b : Building) {q : Passenger} (hq : q.node ≠ p.node) {c : Slot}
    (hc : c ≠ i) (hsrc : q.sFloor = c) :
    movePass (b.queued i p) q = (movePass b q).map fun b => b.queued i p := by
  unfold Part3.movePass
  by_cases hinv : getWeight q = -1 ∨ getPass q = -1
  · rw [if_pos hinv, if_pos hinv]
    rfl
  · rw [if_neg hinv, if_neg hinv, hsrc, slot_coe]
    cases slot q.dFloor with
    | none => rfl
    | some j =>
      have hf := congrArg Building.f (b.handled_queued (i := i) (k := c)
        (h := fun fl => { fl with
          toLoad := (fl.toLoad.count q.type (-1)).weigh (-getWeight q) (-getPass q) }) hq
        fun hci => absurd hci hc)
      exact congrArg some (Building.ext hf rfl)

/-- ... and an insertion at another floor is in no order with this one. -/
theorem addPass_queued (b : Building) {q : Passenger} (hq : q.sFloor ≠ i) :
    addPass (b.queued i p) q = (addPass b q).map fun b => b.queued i p := by
  unfold Part3.addPass
  by_cases hinv : getWeight q = -1 ∨ getPass q = -1
  · rw [if_pos hinv, if_pos hinv]
    rfl
  · rw [if_neg hinv, if_neg hinv]
    cases hslot : slot q.sFloor with
    | none => rfl
    | some k =>
      refine congrArg some (Building.onFloor_comm b fun hk => ?_)
      rw [slot_eq_some hslot, hk] at hq
      exact absurd rfl hq

/-- So a passenger queued at floor `i` stands aside of every load phase at the other floors. -/
theorem Aside.queued (p : Passenger) (i : Slot) :
    Aside (fun c => c ≠ i) (fun q => q.node ≠ p.node) (fun b => b.queued i p) where
  e _ := rfl
  setE _ _ := rfl
  waiting b _ hc := congrArg Floors.waiting (update_of_ne hc _ b.f)
  delPass b _ hq := delPass_queued b hq
  movePass b _ _ hq hc hsrc := movePass_queued b hq hc hsrc

/-- With `p` in the queue, somebody waits, so a move phase after the arrival moves the cabin
    rather than parking it. -/
theorem checkBuilding_queued (b : Building) (p : Passenger) (i : Slot) :
    checkBuilding (b.queued i p) = true := by
  rw [← Bool.not_eq_false, checkBuilding_eq_false]
  intro hnone
  have hqueue : ((b.queued i p).f i).waiting = (b.f i).waiting ++ [p] :=
    congrArg Floors.waiting (update_self i _ b.f)
  rw [hnone i] at hqueue
  exact absurd hqueue.symm (by simp)

/-! ## When the moment does not matter -/

/-- What happens is the same, and leads to the same, with and without `p` in its queue. -/
def indifferent (p : Passenger) (s : Sys) : Act → Bool
  | .load => decide (s.b.e.status = .offline) || decide (p.sFloor ≠ s.b.e.current)
  | .move => decide (s.b.e.status = .offline) || checkElevator s.b.e || checkBuilding s.b
  | .insert q => decide (q.sFloor ≠ p.sFloor)
  | .request .. | .start | .stop => true

/-- `t` is `s` with `p` inserted, at whatever moment. -/
abbrev Joined (p : Passenger) (i : Slot) : Sys → Sys → Prop :=
  Differs p (fun b => b.queued i p) fun l => l.erase p

/-- Whoever is on the way can be inserted, at any time: the guard asks for nothing else. -/
theorem joins (hs : Sound s) (hmem : p ∈ s.inflight) (hi : p.sFloor = i) :
    ∃ t, system.step s (.insert p) = some t ∧ Joined p i s t := by
  have hvalid : p.Valid := hs.census.valid p (List.mem_append_right _ hmem)
  have hadd := addPass_spec s.b hvalid hi
  have hothers : others p (s.log ++ [.accepted p]) = others p s.log := by
    have hself : others p [.accepted p] = [] := List.filter_cons_of_neg (by simp)
    rw [others_append, hself, List.append_nil]
  refine ⟨({ s with b := s.b.queued i p, inflight := s.inflight.erase p } : Sys).record
    (.accepted p), Machine.step_eq_some.mpr ⟨decide_eq_true hmem, ?_⟩, rfl, rfl, rfl, rfl, hothers⟩
  show (addPass s.b p).map _ = _
  rw [hadd]
  rfl

/-- Where `p` arrived is all that two insertions can differ in: the building and the gap are the
    same afterwards. -/
theorem Differs.view (h : Differs p β g s t) (h' : Differs p β g s s') : t.view p = s'.view p := by
  unfold Sys.view
  rw [h.b, h'.b, h.pc, h'.pc, h.nodes, h'.nodes, h.inflight, h'.inflight, h.log, h'.log]

/-- Requests leave the way by their own insertion only, so `p` can still be inserted at the end of
    a schedule that does not. -/
theorem stays_inflight (hs : Sound s) (hmem : p ∈ s.inflight) {a : Act}
    (hne : a ≠ .insert p) (hst : system.step s a = some s') : p ∈ s'.inflight := by
  rcases thread_or_call hs (loose_step_of_system hst) with ⟨evs, honly⟩ | hcall
  · rw [honly.inflight]
    exact hmem
  · cases hcall with
    | refuse | start | stop => exact hmem
    | request => exact List.mem_append_left _ hmem
    | @insert j q => exact (List.mem_erase_of_ne fun heq => hne (by rw [heq])).mpr hmem

/-- **One action.**  What is indifferent to `p` commutes with its insertion. -/
theorem system_diamond (p : Passenger) :
    system.Diamond (Sys.view p) (indifferent p) (.insert p) := by
  intro s a s₁ t₁ hr hcalm hins hst
  have hs := Sound.reachable (loose_of_system hr)
  have hmem : p ∈ s.inflight := of_decide_eq_true (Machine.step_eq_some.mp hins).1
  obtain ⟨i, hi⟩ := (hs.census.valid p (List.mem_append_right _ hmem)).src
  obtain ⟨s₁', hins', hjoined⟩ := joins hs hmem hi
  obtain rfl : s₁' = s₁ := Option.some.inj (hins'.symm.trans hins)
  have hne : a ≠ .insert p := by
    rintro rfl
    exact absurd rfl (of_decide_eq_true hcalm)
  -- `p` has a node of its own
  have hnode : ∀ x, ∀ q ∈ s.b.lists x, q.node ≠ p.node := by
    intro x q hq heq
    have hnodup := hs.census.nodup
    rw [List.map_append] at hnodup
    exact (List.disjoint_of_nodup_append hnodup)
      (List.mem_map_of_mem (hs.census.known x q hq)) (heq ▸ List.mem_map_of_mem hmem)
  obtain ⟨s₂, hs₂, hjoined₂⟩ : ∃ s₂, system.step s₁' a = some s₂ ∧ Joined p i t₁ s₂ := by
    cases a with
    | load =>
      refine (Aside.queued p i).load hs hjoined (fun hon c hc heq => ?_) hnode hst
      rcases (Bool.or_eq_true _ _).mp hcalm with hoff | hother
      · exact hon (of_decide_eq_true hoff)
      · exact of_decide_eq_true hother (by rw [hi, hc, heq])
    | move =>
      refine (Aside.queued p i).move hjoined ?_ hst
      rcases (Bool.or_eq_true _ _).mp hcalm with h | hsome
      · exact (Bool.or_eq_true _ _).mp h |>.imp of_decide_eq_true Or.inl
      · exact Or.inr (Or.inr ((checkBuilding_queued ..).trans hsome.symm))
    | start => exact (Aside.queued p i).start hjoined hst
    | stop => exact (Aside.queued p i).stop hjoined hst
    | request =>
      exact (Aside.queued p i).request hjoined (fun q => List.erase_append_left [q] hmem) hst
    | insert q =>
      have hfloor : q.sFloor ≠ i := hi ▸ of_decide_eq_true hcalm
      have hq : q ∈ s.inflight := of_decide_eq_true (Machine.step_eq_some.mp hst).1
      have hqp : q ≠ p := fun heq => hne (by rw [heq])
      exact Aside.insert hjoined (addPass_queued s.b hfloor)
        ((List.mem_erase_of_ne hqp).mpr hq) (List.erase_comm q p) hst
  obtain ⟨t₂, ht₂, hjoined'⟩ :=
    joins (Sound.reachable (loose_of_system (hr.step hst))) (stays_inflight hs hmem hne hst) hi
  exact ⟨s₂, t₂, hs₂, ht₂, hjoined₂.view hjoined'⟩

/-- **The moment of an arrival.**  A request that could be inserted now can as well be inserted
    later, as long as what happens in between is indifferent to it: calls, insertions at other
    floors, load phases at other floors, and move phases that do not find the building empty.  What
    happens in between can happen all the same, and afterwards the module is in the same state, the
    place of the arrival in the history aside. -/
theorem time_of_arrival {s s₁ u : Sys} {mid : List Act} (hr : system.Reachable s)
    (hins : system.step s (.insert p) = some s₁)
    (hmid : (system.restrict (indifferent p)).runFrom s mid = some u) :
    ∃ s' t, system.runFrom s₁ mid = some s' ∧ system.step u (.insert p) = some t ∧
      s'.view p = t.view p :=
  Machine.delay (system_blind p) (system_diamond p) hr hins hmid

/-- One passenger on board, another one on the way, at a floor above. -/
def underway : List Act :=
  [.start, .request 1 1 3, .insert ⟨0, .adult, 0, 2⟩, .load, .request 2 5 2]

/-- Who is on the way. -/
def latecomer : Passenger := ⟨1, .child, 4, 1⟩

/-- Two floors up, where the first passenger gets off. -/
def twoFloors : List Act := [.move, .load, .move, .load]

/-- A passenger who comes to the top floor while two others are served below, early or late: the
    two final states look the same. -/
theorem time_of_arrival_twoFloors : ∃ s s₁ s' u t, system.run underway = some s ∧
    system.step s (.insert latecomer) = some s₁ ∧ system.runFrom s₁ twoFloors = some s' ∧
    (system.restrict (indifferent latecomer)).runFrom s twoFloors = some u ∧
    system.step u (.insert latecomer) = some t ∧ s'.view latecomer = t.view latecomer := by
  have hrun := Machine.run_get (M := system) underway (by decide)
  have hfirst : (system.step ((system.run underway).get (by decide))
      (.insert latecomer)).isSome := by decide
  have hbetween : ((system.restrict (indifferent latecomer)).runFrom
      ((system.run underway).get (by decide)) twoFloors).isSome := by decide
  obtain ⟨s₁, hins⟩ := Option.isSome_iff_exists.mp hfirst
  obtain ⟨u, hmid⟩ := Option.isSome_iff_exists.mp hbetween
  obtain ⟨s', t, hs', ht, hview⟩ :=
    time_of_arrival (Machine.reachable_iff_run.mpr ⟨underway, hrun⟩) hins hmid
  exact ⟨_, s₁, s', u, t, hrun, hins, hs', hmid, ht, hview⟩

end KernelModules.Part3
