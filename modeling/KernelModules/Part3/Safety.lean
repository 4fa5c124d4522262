/-
  Safety: no index leaves its array, nobody is on the wrong list, and the status tells the truth.

  `e.next` is incremented and decremented without a range check, list indices are the floors that
  came with the request, and the branches for an invalid passenger type return silently.  That
  none of it goes wrong is the invariant `Sound`, read here in the terms of the code: positions,
  types and floors in range, everybody on the list of their floor (`Placed`), in every reachable
  state and between any two turns of the loops, so that no action of the machine faults.

  The second half reads the status.  An idle or offline elevator is empty, a status of up or down
  is the direction of the next move, and a move phase never leaves the doors open.
-/
import KernelModules.Part3.Ledger

namespace KernelModules.Part3

open Relation KernelModules.Lib

/-! ## Positions, types and places -/

/-- An enumerated type and two floors of the building. -/
structure Passenger.InRange (p : Passenger) : Prop where
  type : p.type = .adult ∨ p.type = .child ∨ p.type = .room ∨ p.type = .bell
  src : 0 ≤ p.sFloor ∧ p.sFloor ≤ 9
  dst : 0 ≤ p.dFloor ∧ p.dFloor ≤ 9
  /-- The branch `Invalid p->type` is not taken. -/
  weight : getWeight p ≠ -1
  pass : getPass p ≠ -1

/-- The position is in the building, and everybody is on the list of their floor. -/
structure Placed (b : Building) : Prop where
  current : 0 ≤ b.e.current ∧ b.e.current ≤ 9
  next : 0 ≤ b.e.next ∧ b.e.next ≤ 9
  adjacent : (b.e.next - b.e.current).natAbs = 1
  inRange : ∀ x p, p ∈ b.lists x → p.InRange
  waiting : ∀ (i : Slot) p, p ∈ (b.f i).waiting → p.sFloor = i
  riding : ∀ (j : Slot) p, p ∈ b.e.p j → p.dFloor = j
  /-- The tests of the two loops succeed for everybody they walk over. -/
  unload : ∀ c, slot b.e.current = some c → ∀ p ∈ b.e.p c, p.dFloor = b.e.current
  load : ∀ c, slot b.e.current = some c → ∀ p ∈ (b.f c).waiting, p.sFloor = b.e.current

/-- A valid passenger in the terms of the code: a type of the enumeration, two floors from 0 to 9,
    and a weight and a size that are not the -1 of an invalid type. -/
theorem Passenger.Valid.inRange {p : Passenger} (h : p.Valid) : p.InRange := by
  obtain ⟨i, hi⟩ := h.src
  obtain ⟨j, hj⟩ := h.dst
  have hilt := i.isLt
  have hjlt := j.isLt
  have hw := getWeight_range h.known
  have hq := getPass_range h.known
  refine ⟨?_, by omega, by omega, by omega, by omega⟩
  rcases ht : p.type with _ | _ | _ | _ | v
  case raw => exact absurd ht (h.known v)
  all_goals simp

/-- On the sweep or after a stale restart, position and next floor are neighbours in the
    building. -/
theorem OnTrack.neighbours {e : Elevator} (h : OnTrack e) :
    (0 ≤ e.current ∧ e.current ≤ 9) ∧ (0 ≤ e.next ∧ e.next ≤ 9) ∧
      (e.next - e.current).natAbs = 1 := by
  rcases h with ⟨x, hx⟩ | hstale
  · rcases hx.cases with hup | hdown
    · omega
    · omega
  · have hc := hstale.current
    have hn := hstale.next
    omega

/-- The invariant in the terms of the code.  The tests of the two loops succeed, for everybody on a
    list is there because of the floor it belongs to. -/
theorem Sound.placed {s : Sys} (h : Sound s) : Placed s.b := by
  obtain ⟨hcur, hnext, hadj⟩ := h.motion.track.neighbours
  have hwait : ∀ (i : Slot) p, p ∈ (s.b.f i).waiting → p.sFloor = i := by
    intro i p hp
    exact (h.stock.waiting hp).2
  have hride : ∀ (j : Slot) p, p ∈ s.b.e.p j → p.dFloor = j := by
    intro j p hp
    exact (h.stock.riding hp).2
  refine ⟨hcur, hnext, hadj, ?_, hwait, hride, ?_, ?_⟩
  · intro x p hp
    exact (h.census.valid p (List.mem_append_left _ (h.census.known x p hp))).inRange
  · intro c hc p hp
    rw [hride c p hp, slot_eq_some hc]
  · intro c hc p hp
    rw [hwait c p hp, slot_eq_some hc]

/-- No action that may be scheduled in a sound state faults: the indices it uses are those of
    valid passengers and of a cabin in the building. -/
theorem exec_isSome {s : Sys} (h : Sound s) {a : Act} (hg : loose.guard s a = true) :
    (exec s a).isSome = true := by
  cases a with
  | load => exact loadPhase_isSome ⟨s, h⟩
  | move => rfl
  | start => rfl
  | stop => rfl
  | request pType sFloor dFloor =>
    rw [exec]
    split <;> rfl
  | insert p =>
    have hin : p ∈ s.inflight := of_decide_eq_true hg
    have hvalid := h.census.valid p (List.mem_append_right _ hin)
    obtain ⟨i, hi⟩ := hvalid.src
    rw [exec, enqueue, addPass_spec _ hvalid hi]
    rfl

/-- **Index safety and placement.**  In every reachable state, and between any two turns of the
    loops of a load phase entered from one, position, types, floors and places are in order;
    whoever is about to be queued is in range too; and no action faults: every index of `addPass`,
    `movePass`, `delPass` and `runElevator` is in bounds. -/
theorem placed_and_never_faults {s : Sys} (h : system.Reachable s) :
    Placed s.b ∧ (∀ t, During s t → Placed t.b) ∧ (∀ p ∈ s.inflight, p.InRange) ∧
      ∀ a, system.guard s a = true → (exec s a).isSome = true := by
  have hs := Sound.reachable (loose_of_system h)
  refine ⟨hs.placed, fun t ht => (ht.sound hs).placed, ?_, ?_⟩
  · intro p hp
    exact (hs.census.valid p (List.mem_append_right _ hp)).inRange
  · intro a ha
    exact exec_isSome hs (loose_guard_of_system s a ha)

/-- In the middle of a load phase, with four of the bellhops on board, two still in the list the
    loop walks over, and everybody in place. -/
theorem placed_and_never_faults_sevenBells : ∃ s t, system.run (sevenBells.take 21) = some s ∧
    During s t ∧ (t.b.f 0).waiting = [⟨5, .bell, 0, 1⟩, ⟨6, .bell, 0, 1⟩] ∧ Placed s.b ∧
      Placed t.b ∧ (exec s .stop).isSome = true := by
  obtain ⟨s, t, hrun, hduring, _, hrest⟩ := sevenBells_during
  obtain ⟨hplaced, hinside, _, hexec⟩ :=
    placed_and_never_faults (Machine.reachable_iff_run.mpr ⟨sevenBells.take 21, hrun⟩)
  exact ⟨s, t, hrun, hduring, hrest, hplaced, hinside t hduring, hexec .stop rfl⟩

/-! ## The status -/

/-- A status of up or down is the direction of the next move. -/
structure Heading (e : Elevator) : Prop where
  up : e.status = .up → e.direction = 1 ∧ e.next = e.current + 1
  down : e.status = .down → e.direction = 0 ∧ e.next = e.current - 1

theorem Heading.congr {e e' : Elevator} (h : Heading e) (hst : e'.status = e.status)
    (hc : e'.current = e.current) (hn : e'.next = e.next) (hd : e'.direction = e.direction) :
    Heading e' := by
  constructor
  · rw [hst, hc, hn, hd]
    exact h.up
  · rw [hst, hc, hn, hd]
    exact h.down

/-- A status that names no direction promises nothing, so there is nothing to keep. -/
theorem Heading.of_ne {e : Elevator} (hup : e.status ≠ .up) (hdown : e.status ≠ .down) :
    Heading e :=
  ⟨fun h => absurd h hup, fun h => absurd h hdown⟩

/-- A move sets the status to the direction of the move that comes next, at either end of the
    building too. -/
theorem moveCabin_heading {e : Elevator} (h : OnTrack e) : Heading (moveCabin e) := by
  have hdir : e.direction = 1 ∨ e.direction = 0 := by
    rcases h with ⟨x, hx⟩ | hstale
    · rcases hx.cases with hup | hdown
      · exact Or.inl hup.1
      · exact Or.inr hdown.1
    · exact Or.inr hstale.direction
  unfold moveCabin
  split
  · exact ⟨fun _ => ⟨rfl, rfl⟩, fun h => absurd h (by simp)⟩
  · split
    · exact ⟨fun h => absurd h (by simp), fun _ => ⟨rfl, rfl⟩⟩
    · split
      · rename_i h1
        exact ⟨fun _ => ⟨h1, rfl⟩, fun h => absurd h (by simp)⟩
      · -- the last branch is taken with direction 0 only
        rename_i h1
        exact ⟨fun h => absurd h (by simp), fun _ => ⟨hdir.resolve_left h1, rfl⟩⟩

/-- A turn of the load phase opens the doors, and then the status names no direction, or it
    changes nothing that the heading is about. -/
theorem LoadStep.heading {s s' : Sys} (h : Heading s.b.e) (hst : LoadStep s s') :
    Heading s'.b.e := by
  cases hst with
  | enter =>
    refine Heading.of_ne ?_ ?_
    · show State.loading ≠ State.up
      decide
    · show State.loading ≠ State.down
      decide
  | deliver => exact h.congr rfl rfl rfl rfl
  | board => exact h.congr rfl rfl rfl rfl
  | close => exact h

/-- A move phase idles, goes offline or moves the cabin: a status without a heading, or one that
    tells the truth. -/
theorem MoveStep.heading {s s' : Sys} (hs : Sound s) (h : Heading s.b.e) (hst : MoveStep s s') :
    Heading s'.b.e := by
  cases hst with
  | rest => exact h
  | idle => exact ⟨fun h => absurd h (by simp), fun h => absurd h (by simp)⟩
  | goOffline => exact ⟨fun h => absurd h (by simp), fun h => absurd h (by simp)⟩
  | advance => exact moveCabin_heading hs.motion.track

theorem CallStep.heading {s s' : Sys} {a : Act} (h : Heading s.b.e) (hst : CallStep s a s') :
    Heading s'.b.e := by
  cases hst with
  | refuse => exact h
  | request => exact h
  | insert => exact h.congr rfl rfl rfl rfl
  | start => exact ⟨fun h => absurd h (by simp), fun h => absurd h (by simp)⟩
  | stop => exact h.congr rfl rfl rfl rfl

theorem Heading.reachable {s : Sys} (h : loose.Reachable s) : Heading s.b.e := by
  refine loose_invariant (P := fun s => Heading s.b.e) ?_ (fun _ _ _ hp hst => hst.heading hp)
    (fun _ _ hs hp hst => hst.heading hs hp) (fun _ _ _ _ hp hst => hst.heading hp) h
  exact ⟨fun h => absurd h (by decide), fun h => absurd h (by decide)⟩

/-- **The status tells the truth.**  In every reachable state an idle or offline elevator has
    empty lists and counters at zero, a status of up or down agrees with direction and next floor,
    and no move phase ends with the doors open. -/
theorem status_is_truthful {s : Sys} (h : system.Reachable s) :
    (s.b.e.status = .idle ∨ s.b.e.status = .offline →
      (∀ j, s.b.e.p j = []) ∧ s.b.e.toLoad = ⟨0, 0, 0, 0, 0, 0⟩) ∧
    (s.b.e.status = .up → s.b.e.direction = 1 ∧ s.b.e.next = s.b.e.current + 1) ∧
    (s.b.e.status = .down → s.b.e.direction = 0 ∧ s.b.e.next = s.b.e.current - 1) ∧
    (∀ s', system.step s .move = some s' → s'.b.e.status ≠ .loading) := by
  have hloose := loose_of_system h
  have hs := Sound.reachable hloose
  have hheading := Heading.reachable hloose
  refine ⟨fun hpark => ?_, hheading.up, hheading.down, fun s' hst => ?_⟩
  · have hempty := hs.motion.parked hpark
    refine ⟨hempty, ?_⟩
    rw [hs.stock.cabin]
    exact total_empty _ hempty
  · have hmoved : some (movePhase s) = some s' := (Machine.step_eq_some.mp hst).2
    rw [← Option.some.inj hmoved]
    exact (movePhase_step s).not_loading

/-- A cabin on its way up: status, direction and next floor agree. -/
theorem status_is_truthful_shortRun :
    let s := (system.run shortRun).get (by decide)
    s.b.e.status = .up ∧ s.b.e.direction = 1 ∧ s.b.e.next = s.b.e.current + 1 :=
  ⟨by decide, (status_is_truthful
    (Machine.reachable_get (M := system) shortRun (by decide))).2.1 (by decide)⟩

end KernelModules.Part3
