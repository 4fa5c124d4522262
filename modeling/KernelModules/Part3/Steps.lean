/-
  What one step can do: the module's atomic actions, resolved into single changes of the state.

  A load phase calls `delPass` and `movePass` any number of times; a move phase does one of four
  things; a call does one, or is refused.  This file names each of these changes once —
  `LoadStep`, `MoveStep`, `CallStep`, with every guard the code has tested by then.  That the
  machine's actions ARE such changes is shown in `Loops` (the load phase, a chain of `LoadStep`s)
  and `Runs` (the rest); invariants are proved about the three relations, one case per
  constructor, beginning here with the invariant of the module, `Sound`.
-/
import Mathlib.Logic.Relation
import KernelModules.Part3.Stock
import KernelModules.Part3.Sweep

namespace KernelModules.Part3

open Function Relation KernelModules.Lib

/-! ## Emptiness -/

/-- Nobody is on board. -/
def Elevator.Empty (e : Elevator) : Prop := ∀ j, e.p j = []

/-- Nobody is waiting. -/
def Building.NoneWaiting (b : Building) : Prop := ∀ i, (b.f i).waiting = []

/-- `checkElevator` finds nobody exactly when the ten lists of the cabin are empty. -/
theorem checkElevator_eq_false {e : Elevator} : checkElevator e = false ↔ e.Empty := by
  simp [checkElevator, Elevator.Empty]

/-- `checkBuilding` finds nobody exactly when the ten waiting lists are; the cabin's lists are not
    its business. -/
theorem checkBuilding_eq_false {b : Building} : checkBuilding b = false ↔ b.NoneWaiting := by
  simp [checkBuilding, Building.NoneWaiting]

/-! ## The state record -/

/-- `setE` changes the fields of the elevator, and leaves the floors, the schedule and the history
    as they are. -/
@[simp] theorem Sys.setE_e (s : Sys) (e : Elevator) : (s.setE e).b.e = e := rfl
@[simp] theorem Sys.setE_f (s : Sys) (e : Elevator) : (s.setE e).b.f = s.b.f := rfl
@[simp] theorem Sys.setE_pc (s : Sys) (e : Elevator) : (s.setE e).pc = s.pc := rfl
@[simp] theorem Sys.setE_nodes (s : Sys) (e : Elevator) : (s.setE e).nodes = s.nodes := rfl
@[simp] theorem Sys.setE_inflight (s : Sys) (e : Elevator) :
    (s.setE e).inflight = s.inflight := rfl
@[simp] theorem Sys.setE_log (s : Sys) (e : Elevator) : (s.setE e).log = s.log := rfl

/-- `record` changes the history, and nothing that the program knows of. -/
@[simp] theorem Sys.record_b (s : Sys) (ev : Event) : (s.record ev).b = s.b := rfl
@[simp] theorem Sys.record_pc (s : Sys) (ev : Event) : (s.record ev).pc = s.pc := rfl
@[simp] theorem Sys.record_nodes (s : Sys) (ev : Event) : (s.record ev).nodes = s.nodes := rfl
@[simp] theorem Sys.record_inflight (s : Sys) (ev : Event) :
    (s.record ev).inflight = s.inflight := rfl
@[simp] theorem Sys.record_log (s : Sys) (ev : Event) : (s.record ev).log = s.log ++ [ev] := rfl

/-! ## The single changes -/

/-- Inside a load phase. -/
inductive LoadStep (s : Sys) : Sys → Prop
  /-- The doors open: somebody waits or arrives here. -/
  | enter : s.b.e.status ≠ .offline → LoadStep s (openDoors s)
  /-- `delPass` of the head of the list of the current floor. -/
  | deliver {i c : Slot} {p : Passenger} {l : List Passenger} :
      s.b.e.status = .loading → s.b.e.current = c → s.b.e.p c = p :: l → p.sFloor = i →
      LoadStep s (({ s with b := s.b.delivered i c p l } : Sys).record
        (.delivered p s.b.e.current))
  /-- `movePass` of the head of the waiting list of the current floor. -/
  | board {c j : Slot} {p : Passenger} {l : List Passenger} :
      s.b.e.status = .loading → s.b.e.shutdown ≠ 1 → s.b.e.current = c →
      (s.b.f c).waiting = p :: l → p.dFloor = j → canFit p s.b.e = true →
      pDirection p = s.b.e.direction →
      LoadStep s (({ s with b := s.b.boarded c j p l } : Sys).record (.boarded p s.b.e.current))
  /-- The lock is released.  Whoever is still in the list of the current floor boarded here. -/
  | close : (s.b.e.status ≠ .offline → ∀ j p, s.b.e.current = (j : Slot) → p ∈ s.b.e.p j →
      p.sFloor = j) → LoadStep s { s with pc := .move }

/-- A whole move phase. -/
inductive MoveStep (s : Sys) : Sys → Prop
  | rest : s.b.e.status = .offline → MoveStep s { s with pc := .load }
  | idle : s.b.e.status ≠ .offline → s.b.e.Empty → s.b.NoneWaiting →
      MoveStep s { (s.setE { s.b.e with status := .idle }).record .idled with pc := .load }
  | goOffline : s.b.e.status ≠ .offline → s.b.e.Empty → ¬ s.b.NoneWaiting →
      s.b.e.shutdown ≠ 0 →
      MoveStep s { (s.setE { s.b.e with status := .offline }).record .wentOffline with pc := .load }
  | advance : s.b.e.status ≠ .offline →
      (¬ s.b.e.Empty ∨ ¬ s.b.NoneWaiting ∧ s.b.e.shutdown = 0) →
      MoveStep s { (s.setE (moveCabin s.b.e)).record (.moved s.b.e.current s.b.e.next)
        with pc := .load }

/-- The calls that return 1. -/
def Refused (s : Sys) : Act → Prop
  | .request pType sFloor dFloor => refuses s.b.e pType sFloor dFloor = true
  | .start => s.b.e.status ≠ .offline
  | .stop => s.b.e.shutdown ≠ 0
  | _ => False

/-- A half of a request, or another call. -/
inductive CallStep (s : Sys) : Act → Sys → Prop
  | refuse {a : Act} : Refused s a → CallStep s a s
  | request {pType sFloor dFloor : Int} : refuses s.b.e pType sFloor dFloor = false →
      CallStep s (.request pType sFloor dFloor) { s with
        nodes := s.nodes + 1
        inflight := s.inflight ++ [newPassenger s pType sFloor dFloor] }
  | insert {i : Slot} {p : Passenger} : p ∈ s.inflight → p.Valid → p.sFloor = i →
      CallStep s (.insert p) (({ s with
        b := s.b.queued i p
        inflight := s.inflight.erase p } : Sys).record (.accepted p))
  | start : s.b.e.status = .offline →
      CallStep s .start ((s.setE { s.b.e with
        status := .idle, current := 0, next := 1, shutdown := 0 }).record .started)
  | stop : s.b.e.shutdown = 0 →
      CallStep s .stop ((s.setE { s.b.e with shutdown := 1 }).record .stopped)

/-! ## Sound states -/

/-- The passengers the history has seen accepted, in order. -/
def accepted (log : List Event) : List Passenger :=
  log.filterMap fun | .accepted p => some p | _ => none

@[simp] theorem accepted_append (xs ys : List Event) :
    accepted (xs ++ ys) = accepted xs ++ accepted ys := List.filterMap_append

/-- The invariant of position, flags and status. -/
structure Motion (e : Elevator) : Prop where
  track : OnTrack e
  flag : e.shutdown = 0 ∨ e.shutdown = 1
  /-- An idle or offline cabin is empty. -/
  parked : e.status = .idle ∨ e.status = .offline → e.Empty
  /-- After a stale restart only passengers to the ground floor can be on board. -/
  ground : Stale e → ∀ j, j ≠ 0 → e.p j = []

/-- The invariant of the passengers' identities. -/
structure Census (s : Sys) : Prop where
  /-- Whoever is on a list was accepted. -/
  known : ∀ x p, p ∈ s.b.lists x → p ∈ accepted s.log
  /-- No two requests share a node ... -/
  nodup : ((accepted s.log ++ s.inflight).map Passenger.node).Nodup
  /-- ... or have one that is yet to be allocated. -/
  bound : ∀ p, p ∈ accepted s.log ++ s.inflight → p.node < s.nodes
  valid : ∀ p, p ∈ accepted s.log ++ s.inflight → p.Valid

/-- The invariant of the module. -/
structure Sound (s : Sys) : Prop where
  stock : Stock s.b
  motion : Motion s.b.e
  census : Census s

theorem Sound.init : Sound Sys.init where
  stock := Stock.init
  motion := ⟨Or.inl ⟨0, At.init⟩, Or.inl rfl, fun _ _ => rfl, fun _ _ _ => rfl⟩
  census :=
    { known := fun x p h => by cases x <;> exact absurd h List.not_mem_nil
      nodup := List.nodup_nil
      bound := fun p h => absurd h List.not_mem_nil
      valid := fun p h => absurd h List.not_mem_nil }

theorem Stale.congr {e e' : Elevator} (h : Stale e) (hc : e'.current = e.current)
    (hn : e'.next = e.next) (hd : e'.direction = e.direction) : Stale e' :=
  ⟨hc.trans h.current, hn.trans h.next, hd.trans h.direction⟩

theorem At.congr {e e' : Elevator} {x : Nat} (h : At e x) (hc : e'.current = e.current)
    (hn : e'.next = e.next) (hd : e'.direction = e.direction) : At e' x :=
  ⟨hc.trans h.current, hn.trans h.next, hd.trans h.direction⟩

theorem OnTrack.congr {e e' : Elevator} (h : OnTrack e) (hc : e'.current = e.current)
    (hn : e'.next = e.next) (hd : e'.direction = e.direction) : OnTrack e' := by
  rcases h with ⟨x, h⟩ | h
  · exact Or.inl ⟨x, h.congr hc hn hd⟩
  · exact Or.inr (h.congr hc hn hd)

/-- The census reads the lists, the accepted passengers and the requests in flight only; whoever
    moves nobody keeps it. -/
theorem Census.congr {s s' : Sys} (h : Census s)
    (hl : ∀ x p, p ∈ s'.b.lists x → ∃ y, p ∈ s.b.lists y)
    (ha : accepted s'.log = accepted s.log) (hf : s'.inflight = s.inflight)
    (hn : s'.nodes = s.nodes) : Census s' where
  known x p hp := by
    obtain ⟨y, hy⟩ := hl x p hp
    rw [ha]
    exact h.known y p hy
  nodup := by rw [ha, hf]; exact h.nodup
  bound := by rw [ha, hf, hn]; exact h.bound
  valid := by rw [ha, hf]; exact h.valid

/-! ### The invariant survives a load phase -/

/-- **A turn of the load phase** keeps the invariant.  One case for each of the steps: the doors
    open, somebody gets off, somebody boards, the phase is over. -/
theorem LoadStep.sound {s s' : Sys} (h : Sound s) (hst : LoadStep s s') : Sound s' := by
  cases hst with
  | enter hon =>
    refine ⟨h.stock.setE rfl rfl, ?_, h.census.congr (fun x p hp => ⟨x, ?_⟩) rfl rfl rfl⟩
    · exact ⟨h.motion.track.congr rfl rfl rfl, h.motion.flag,
        fun hpark => absurd hpark (by simp [openDoors]),
        fun hstale => h.motion.ground (hstale.congr rfl rfl rfl)⟩
    · cases x <;> exact hp
  | @deliver i c p l hld hc hp hi =>
    refine ⟨h.stock.delivered hp, ?_, h.census.congr (fun x q hq => ⟨x, ?_⟩) ?_ rfl rfl⟩
    · refine ⟨h.motion.track.congr rfl rfl rfl, h.motion.flag, fun hpark => ?_,
        fun hstale j hj => ?_⟩
      · have : s.b.e.status = .idle ∨ s.b.e.status = .offline := hpark
        rw [hld] at this
        exact absurd this (by simp)
      · show update s.b.e.p c l j = []
        have hempty := h.motion.ground (hstale.congr rfl rfl rfl) j hj
        by_cases hjc : j = c
        · rw [hjc, hp] at hempty
          exact absurd hempty (by simp)
        · rw [update_of_ne hjc]
          exact hempty
    · rw [Sys.record_b, s.b.lists_delivered] at hq
      by_cases hx : x = Sum.inr c
      · subst hx
        rw [update_self] at hq
        show q ∈ s.b.e.p c
        rw [hp]
        exact List.mem_cons_of_mem p hq
      · rwa [update_of_ne hx] at hq
    · simp [accepted]
  | @board c j p l hld hsd hc hw hj hfit hdir =>
    have hpin : p ∈ (s.b.f c).waiting := by rw [hw]; exact List.mem_cons_self
    refine ⟨h.stock.boarded hw hj hfit, ?_, h.census.congr (fun x q hq => ?_) ?_ rfl rfl⟩
    · refine ⟨h.motion.track.congr rfl rfl rfl, h.motion.flag, fun hpark => ?_,
        fun hstale k hk => ?_⟩
      · have : s.b.e.status = .idle ∨ s.b.e.status = .offline := hpark
        rw [hld] at this
        exact absurd this (by simp)
      · -- at floor 0 with direction 0 only a passenger to floor 0 boards
        have hstale' : Stale s.b.e := hstale.congr rfl rfl rfl
        have hempty := h.motion.ground hstale' k hk
        show pushTail j p s.b.e.p k = []
        have hkj : k ≠ j := by
          have hs := (h.stock.waiting hpin).2
          have hcur := hstale'.current
          have hd := hstale'.direction
          intro hkj
          subst hkj
          refine hk (Fin.ext ?_)
          rw [hd] at hdir
          unfold pDirection at hdir
          split at hdir
          · exact absurd hdir (by decide)
          · show (k : Nat) = 0
            omega
        rw [pushTail, update_of_ne hkj]
        exact hempty
    · rw [Sys.record_b, s.b.lists_boarded] at hq
      by_cases hx : x = Sum.inr j
      · subst hx
        rw [pushTail, update_self, update_of_ne (by simp), List.mem_append,
          List.mem_singleton] at hq
        rcases hq with hq | rfl
        · exact ⟨_, hq⟩
        · exact ⟨Sum.inl c, hpin⟩
      · rw [pushTail, update_of_ne hx] at hq
        refine ⟨x, ?_⟩
        by_cases hxc : x = Sum.inl c
        · subst hxc
          rw [update_self] at hq
          show q ∈ (s.b.f c).waiting
          rw [hw]
          exact List.mem_cons_of_mem p hq
        · rwa [update_of_ne hxc] at hq
    · simp [accepted]
  | close hleft =>
    exact ⟨h.stock, h.motion, h.census.congr (fun x p hp => ⟨x, hp⟩) rfl rfl rfl⟩

/-- So does the whole phase, however many turns its two loops take, by induction on their number. -/
theorem LoadStep.sound_chain {s s' : Sys} (h : Sound s) (hst : ReflTransGen LoadStep s s') :
    Sound s' := by
  induction hst with
  | refl => exact h
  | tail _ hstep ih => exact hstep.sound ih

/-! ### The invariant survives a move phase and a call -/

/-- With nobody on board the status may be anything: what the invariant asks of an idle or offline
    elevator is that it is empty. -/
theorem Motion.setStatus {e : Elevator} (h : Motion e) (hempty : e.Empty) (st : State) :
    Motion { e with status := st } where
  track := h.track.congr rfl rfl rfl
  flag := h.flag
  parked _ := hempty
  ground hstale := h.ground (hstale.congr rfl rfl rfl)

/-- A change of the elevator's own fields, recorded by an event that accepts nobody, only has its
    motion to answer for. -/
theorem Sound.setE {s : Sys} (h : Sound s) (pc : Phase) {e : Elevator} {ev : Event}
    (hload : e.toLoad = s.b.e.toLoad) (hp : e.p = s.b.e.p) (hm : Motion e)
    (hev : accepted [ev] = []) : Sound { (s.setE e).record ev with pc := pc } where
  stock := h.stock.setE hload hp
  motion := hm
  census := by
    refine h.census.congr (fun x q hq => ⟨x, ?_⟩) ?_ rfl rfl
    · cases x with
      | inl i => exact hq
      | inr j =>
        have hq' : q ∈ e.p j := hq
        show q ∈ s.b.e.p j
        rwa [hp] at hq'
    · show accepted (s.log ++ [ev]) = _
      rw [accepted_append, hev, List.append_nil]

/-- **A move phase** keeps the invariant.  It is the one phase that changes the position, and it
    touches no list. -/
theorem MoveStep.sound {s s' : Sys} (h : Sound s) (hst : MoveStep s s') : Sound s' := by
  cases hst with
  | rest hoff => exact ⟨h.stock, h.motion, h.census.congr (fun x p hp => ⟨x, hp⟩) rfl rfl rfl⟩
  | idle hon hempty hnone => exact h.setE _ rfl rfl (h.motion.setStatus hempty _) rfl
  | goOffline hon hempty hsome hsd => exact h.setE _ rfl rfl (h.motion.setStatus hempty _) rfl
  | advance hon hgo =>
    refine h.setE _ (moveCabin_toLoad _) (moveCabin_p _) ?_ rfl
    obtain ⟨x, hx⟩ := moveCabin_onTrack h.motion.track
    refine ⟨Or.inl ⟨x, hx⟩, by rw [moveCabin_shutdown]; exact h.motion.flag, fun hpark => ?_,
      fun hstale => absurd hstale hx.not_stale⟩
    have hst := moveCabin_status s.b.e
    rcases hpark with hp | hp
    · exact absurd hp hst.1
    · exact absurd hp hst.2

/-- A move phase closes the doors. -/
theorem MoveStep.not_loading {s s' : Sys} (hst : MoveStep s s') : s'.b.e.status ≠ .loading := by
  cases hst with
  | rest hoff =>
    show s.b.e.status ≠ .loading
    rw [hoff]
    decide
  | idle =>
    show State.idle ≠ State.loading
    decide
  | goOffline =>
    show State.offline ≠ State.loading
    decide
  | advance =>
    obtain ⟨_, _, _, hst, heq⟩ := moveCabin_form s.b.e
    show (moveCabin s.b.e).status ≠ .loading
    rw [heq]
    rcases hst with rfl | rfl <;> simp

/-- A request that passes the tests builds a valid passenger. -/
theorem newPassenger_valid {s : Sys} {pType sFloor dFloor : Int}
    (h : refuses s.b.e pType sFloor dFloor = false) :
    (newPassenger s pType sFloor dFloor).Valid := by
  simp only [refuses, Bool.or_eq_false_iff, decide_eq_false_iff_not] at h
  obtain ⟨⟨⟨htype, hsrc⟩, hdst⟩, _⟩ := h
  refine ⟨fun v hv => ?_, slot_of_range ?_ ?_, slot_of_range ?_ ?_⟩
  · have hcases : pType = 1 ∨ pType = 2 ∨ pType = 3 ∨ pType = 4 := by omega
    rcases hcases with rfl | rfl | rfl | rfl <;> simp [newPassenger, PType.ofInt] at hv
  all_goals
    simp only [newPassenger]
    omega

/-- **A call** keeps the invariant.  A request takes a fresh node, an insertion takes its passenger
    out of the gap, and a start puts the cabin back on the ground floor, on the sweep or stale. -/
theorem CallStep.sound {s s' : Sys} {a : Act} (h : Sound s) (hst : CallStep s a s') :
    Sound s' := by
  cases hst with
  | refuse => exact h
  | @request pType sFloor dFloor hok =>
    refine ⟨h.stock, h.motion, ?_⟩
    have hnew := newPassenger_valid (s := s) hok
    refine ⟨h.census.known, ?_, fun p hp => ?_, fun p hp => ?_⟩
    · show ((accepted s.log ++ (s.inflight ++ [_])).map Passenger.node).Nodup
      rw [← List.append_assoc, List.map_append, List.nodup_append]
      refine ⟨h.census.nodup, List.nodup_singleton _, fun n hn m hm heq => ?_⟩
      -- the new node is past every node allocated so far
      obtain ⟨p, hp, rfl⟩ := List.mem_map.mp hn
      have hlt := h.census.bound p hp
      have hm' : m = s.nodes := by simpa [newPassenger] using hm
      omega
    · rw [← List.append_assoc, List.mem_append, List.mem_singleton] at hp
      show p.node < s.nodes + 1
      rcases hp with hp | rfl
      · have := h.census.bound p hp
        omega
      · exact Nat.lt_succ_self _
    · rw [← List.append_assoc, List.mem_append, List.mem_singleton] at hp
      rcases hp with hp | rfl
      · exact h.census.valid p hp
      · exact hnew
  | @insert i p hin hp hi =>
    have hperm : List.Perm (accepted s.log ++ [p] ++ s.inflight.erase p)
        (accepted s.log ++ s.inflight) := by
      rw [List.append_assoc]
      exact List.Perm.append_left _ (List.perm_cons_erase hin).symm
    have hacc : accepted (s.log ++ [.accepted p]) = accepted s.log ++ [p] := by simp [accepted]
    have hfresh : ∀ x c, c ∈ s.b.lists x → c.node ≠ p.node := by
      intro x c hc heq
      have hnd := h.census.nodup
      rw [List.map_append, List.nodup_append] at hnd
      exact hnd.2.2 _ (List.mem_map_of_mem (h.census.known x c hc)) _ (List.mem_map_of_mem hin) heq
    refine ⟨h.stock.queued hp hi hfresh, h.motion, ?_⟩
    refine ⟨fun x q hq => ?_, ?_, fun q hq => ?_, fun q hq => ?_⟩
    · rw [Sys.record_log, hacc, List.mem_append, List.mem_singleton]
      rw [Sys.record_b, s.b.lists_queued] at hq
      by_cases hx : x = Sum.inl i
      · subst hx
        rw [pushTail, update_self, List.mem_append, List.mem_singleton] at hq
        exact hq.imp_left (h.census.known _ q)
      · rw [pushTail, update_of_ne hx] at hq
        exact Or.inl (h.census.known x q hq)
    · rw [Sys.record_log, hacc]
      exact (hperm.map _).nodup_iff.mpr h.census.nodup
    · rw [Sys.record_log, hacc] at hq
      exact h.census.bound q (hperm.mem_iff.mp hq)
    · rw [Sys.record_log, hacc] at hq
      exact h.census.valid q (hperm.mem_iff.mp hq)
  | start hoff =>
    have hempty := h.motion.parked (Or.inr hoff)
    refine h.setE s.pc rfl rfl ⟨?_, Or.inl rfl, fun _ => hempty, fun _ j _ => hempty j⟩ rfl
    -- the direction survives the restart
    rcases h.motion.track with ⟨x, hx⟩ | hstale
    · rcases hx.cases with hup | hdown
      · exact Or.inl ⟨0, rfl, rfl, hup.1⟩
      · exact Or.inr ⟨rfl, rfl, hdown.1⟩
    · exact Or.inr ⟨rfl, rfl, hstale.direction⟩
  | stop hsd =>
    exact h.setE s.pc rfl rfl ⟨h.motion.track.congr rfl rfl rfl, Or.inr rfl,
      h.motion.parked, fun hstale => h.motion.ground (hstale.congr rfl rfl rfl)⟩ rfl

end KernelModules.Part3
