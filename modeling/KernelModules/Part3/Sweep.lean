/-
  The cabin's travel: `e._current`, `e.next` and `e.direction` as one position of the SCAN sweep.

  The three fields are redundant.  `At e x` says that they are the level, the next level and the
  heading of position `x` of the sweep between floors 0 and 9, and a move phase that moves the
  cabin takes `x` to `x + 1` (`moveCabin_at`).  There is exactly one more combination the module
  can be in: `start_elevator` puts the cabin at floor 0 with next floor 1 but does not touch the
  direction, so a restart after a downward sweep leaves direction 0 there — `Stale`.  One move
  later the cabin is on the sweep again (`moveCabin_stale`).
-/
import KernelModules.Lib.Scan
import KernelModules.Part3.Driver

namespace KernelModules.Part3

open KernelModules.Lib

/-! ## Positions -/

/-- The elevator is at position `x` of the sweep. -/
structure At (e : Elevator) (x : Nat) : Prop where
  current : e.current = Scan.level 9 x
  next : e.next = Scan.level 9 (x + 1)
  direction : e.direction = if Scan.rising 9 x then 1 else 0

/-- The combination a restart after a downward sweep leaves. -/
structure Stale (e : Elevator) : Prop where
  current : e.current = 0
  next : e.next = 1
  direction : e.direction = 0

/-- The positions the module can be in. -/
def OnTrack (e : Elevator) : Prop := (∃ x, At e x) ∨ Stale e

/-- Direction and next floor agree. -/
def Coherent (e : Elevator) : Prop :=
  (e.direction = 1 ↔ e.next = e.current + 1) ∧ (e.direction = 0 ↔ e.next = e.current - 1)

theorem At.init : At initElevator 0 where
  current := rfl
  next := rfl
  direction := rfl

/-- Going up: the next floor is one above, and the cabin is below the top floor. -/
theorem At.rising {e : Elevator} {x : Nat} (h : At e x) (hup : Scan.rising 9 x = true) :
    e.direction = 1 ∧ e.next = e.current + 1 ∧ 0 ≤ e.current ∧ e.current < 9 := by
  have hlt := Scan.level_lt_of_rising hup
  have hs := Scan.level_succ_of_rising hup
  have hd := h.direction
  have hc := h.current
  have hn := h.next
  rw [if_pos hup] at hd
  omega

/-- Going down: the next floor is one below, and the cabin is above the ground floor. -/
theorem At.falling {e : Elevator} {x : Nat} (h : At e x) (hup : Scan.rising 9 x = false) :
    e.direction = 0 ∧ e.next = e.current - 1 ∧ 0 < e.current ∧ e.current ≤ 9 := by
  have hpos := Scan.level_pos_of_falling (by omega) hup
  have hs := Scan.level_succ_of_falling (by omega) hup
  have hle := Scan.level_le (by omega : 0 < 9) x
  have hd := h.direction
  have hc := h.current
  have hn := h.next
  rw [hup, if_neg (by decide)] at hd
  omega

/-- On the sweep the cabin goes up and is below the top floor, or goes down and is above the
    ground floor. -/
theorem At.cases {e : Elevator} {x : Nat} (h : At e x) :
    (e.direction = 1 ∧ e.next = e.current + 1 ∧ 0 ≤ e.current ∧ e.current < 9) ∨
    (e.direction = 0 ∧ e.next = e.current - 1 ∧ 0 < e.current ∧ e.current ≤ 9) := by
  cases hup : Scan.rising 9 x with
  | true => exact Or.inl (h.rising hup)
  | false => exact Or.inr (h.falling hup)

theorem At.coherent {e : Elevator} {x : Nat} (h : At e x) : Coherent e := by
  unfold Coherent
  rcases h.cases with hup | hdown <;> constructor <;> omega

theorem Stale.not_coherent {e : Elevator} (h : Stale e) : ¬ Coherent e := by
  intro hc
  have hd := hc.2.mp h.direction
  have hn := h.next
  have hcur := h.current
  omega

theorem At.not_stale {e : Elevator} {x : Nat} (h : At e x) : ¬ Stale e :=
  fun hs => hs.not_coherent h.coherent

/-- The cabin stands at a floor of the building, so the lists it looks at are there. -/
theorem OnTrack.slot {e : Elevator} (h : OnTrack e) : ∃ c : Slot, e.current = c := by
  rcases h with ⟨x, h⟩ | h
  · rcases h.cases with hup | hdown
    · exact slot_of_range (by omega) (by omega)
    · exact slot_of_range (by omega) (by omega)
  · exact slot_of_range (by rw [h.current]) (by rw [h.current]; decide)

/-! ## Moving the cabin -/

/-- **One move is one step of the sweep.**  The branches for floor 0 and floor 9 are where it
    turns. -/
theorem moveCabin_at {e : Elevator} {x : Nat} (h : At e x) : At (moveCabin e) (x + 1) := by
  have hrise := Scan.rising_succ (by omega : 0 < 9) x
  have hle := Scan.level_le (by omega : 0 < 9) (x + 1)
  have hnext := h.next
  unfold moveCabin
  by_cases h0 : e.next = 0
  · -- arrived at the ground floor: turn upwards
    rw [if_pos h0]
    have hl : Scan.level 9 (x + 1) = 0 := by omega
    have hup : Scan.rising 9 (x + 1) = true := by rw [hrise, if_pos hl]
    refine ⟨hnext, ?_, ?_⟩
    · show e.next + 1 = _
      rw [Scan.level_succ_of_rising hup]
      omega
    · rw [hup]; rfl
  · have hl0 : Scan.level 9 (x + 1) ≠ 0 := by omega
    rw [if_neg hl0] at hrise
    rw [if_neg h0]
    by_cases h9 : e.next = 9
    · -- arrived at the top floor: turn downwards
      rw [if_pos h9]
      have hl : Scan.level 9 (x + 1) = 9 := by omega
      have hdown : Scan.rising 9 (x + 1) = false := by rw [hrise, if_pos hl]
      refine ⟨hnext, ?_, ?_⟩
      · show e.next - 1 = _
        have := Scan.level_succ_of_falling (by omega) hdown
        omega
      · rw [hdown]; rfl
    · have hl9 : Scan.level 9 (x + 1) ≠ 9 := by omega
      rw [if_neg hl9] at hrise
      rw [if_neg h9]
      cases hup : Scan.rising 9 x with
      | true =>
        rw [hup] at hrise
        rw [if_pos (h.rising hup).1]
        refine ⟨hnext, ?_, ?_⟩
        · show e.next + 1 = _
          rw [Scan.level_succ_of_rising hrise]
          omega
        · rw [hrise]; exact (h.rising hup).1
      | false =>
        rw [hup] at hrise
        have hd := (h.falling hup).1
        rw [if_neg (by omega)]
        refine ⟨hnext, ?_, ?_⟩
        · show e.next - 1 = _
          have := Scan.level_succ_of_falling (by omega) hrise
          omega
        · rw [hrise]; exact hd

/-- From the combination of a stale restart, the first move enters the sweep at floor 1, heading
    down. -/
theorem moveCabin_stale {e : Elevator} (h : Stale e) : At (moveCabin e) 17 := by
  have hn := h.next
  have hd := h.direction
  unfold moveCabin
  rw [if_neg (by omega), if_neg (by omega), if_neg (by omega)]
  refine ⟨?_, ?_, hd⟩
  · show e.next = 1
    exact hn
  · show e.next - 1 = 0
    omega

/-- **A move** leads onto the sweep, from wherever the module can be: the one move after a stale
    restart goes to the second floor and finds its direction at the end. -/
theorem moveCabin_onTrack {e : Elevator} (h : OnTrack e) : ∃ x, At (moveCabin e) x := by
  rcases h with ⟨x, h⟩ | h
  · exact ⟨x + 1, moveCabin_at h⟩
  · exact ⟨17, moveCabin_stale h⟩

/-- All four branches bring the cabin to `e.next`, say which way it went, and touch the position
    fields only. -/
theorem moveCabin_form (e : Elevator) : ∃ next direction status,
    (status = State.up ∨ status = State.down) ∧ moveCabin e
      = { e with current := e.next, next := next, direction := direction, status := status } := by
  unfold moveCabin
  split
  · exact ⟨_, _, _, Or.inl rfl, rfl⟩
  · split
    · exact ⟨_, _, _, Or.inr rfl, rfl⟩
    · split
      · exact ⟨_, e.direction, _, Or.inl rfl, rfl⟩
      · exact ⟨_, e.direction, _, Or.inr rfl, rfl⟩

/-- A move changes position, direction and status, and nothing else. -/
@[simp] theorem moveCabin_p (e : Elevator) : (moveCabin e).p = e.p := by
  obtain ⟨_, _, _, _, h⟩ := moveCabin_form e
  rw [h]

@[simp] theorem moveCabin_toLoad (e : Elevator) : (moveCabin e).toLoad = e.toLoad := by
  obtain ⟨_, _, _, _, h⟩ := moveCabin_form e
  rw [h]

@[simp] theorem moveCabin_shutdown (e : Elevator) : (moveCabin e).shutdown = e.shutdown := by
  obtain ⟨_, _, _, _, h⟩ := moveCabin_form e
  rw [h]

@[simp] theorem moveCabin_current (e : Elevator) : (moveCabin e).current = e.next := by
  obtain ⟨_, _, _, _, h⟩ := moveCabin_form e
  rw [h]

/-- The cabin turns at the ends of the building only. -/
theorem moveCabin_direction {e : Elevator} (h0 : e.next ≠ 0) (h9 : e.next ≠ 9) :
    (moveCabin e).direction = e.direction := by
  unfold moveCabin
  rw [if_neg h0, if_neg h9]
  split <;> rfl

/-- A moving cabin is neither idle nor offline: each of the four branches names a direction. -/
theorem moveCabin_status (e : Elevator) :
    (moveCabin e).status ≠ .idle ∧ (moveCabin e).status ≠ .offline := by
  obtain ⟨_, _, _, hst, h⟩ := moveCabin_form e
  rw [h]
  rcases hst with rfl | rfl <;> exact ⟨by simp, by simp⟩

end KernelModules.Part3
