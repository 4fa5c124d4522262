/-
  The programs that call the module: `producer.c`, `driver.c` and `consumer.c`.

  1. **Programs** — each `main` is the list of the system calls it makes.  `producer` draws a type
     and two different floors, the second in a loop that draws again as long as it gets the first;
     what it asks for are exactly the trips the module can serve (`producer_asks_iff`).
  2. **Machine** — `userland` runs any number of processes, each with a program, against the module:
     a process makes its calls one after the other, with the gap of `issue_request` in between, and
     keeps the return codes.
  3. **End to end** — the requests that returned 0 are the passengers that were accepted, and with
     these programs every trip is between two floors.  So once the thread has had the time to drain
     the building, the passengers brought home are exactly the requests that returned 0
     (`answered_are_delivered`).
-/
import KernelModules.Part3.Drain
import KernelModules.Part3.Ride
import KernelModules.Part3.Syscalls

namespace KernelModules.Part3

open Function KernelModules.Lib

/-! ## The programs -/

/-- `rnd(min, max)`, from what `rand()` returned. -/
def rnd (rand : Nat) (min max : Int) : Int := (rand : Int).tmod (max - min + 1) + min

/-- The loop of `producer.c` that draws `dest`, on the values `rand()` returns from there on; with
    no value left it has not ended yet. -/
def drawDest (start : Int) : List Nat → Option Int
  | [] => none
  | r :: rands =>
    let dest := rnd r 1 10
    if dest = start then drawDest start rands else some dest

/-- `main` of `producer.c`. -/
def producerMain (argc : Int) (rands : List Nat) : List Syscall :=
  if argc ≠ 1 then []
  else match rands with
    | type :: start :: rands => match drawDest (rnd start 1 10) rands with
      | some dest => [.issueRequest (rnd type 1 4) (rnd start 1 10) dest]
      | none => []
    | _ => []

/-- `main` of `driver.c`. -/
def driverMain (argc : Int) : List Syscall :=
  if argc ≠ 1 then []
  else (List.range 3).flatMap fun i : Nat =>
    [.issueRequest 1 i ((i + 1) * 2), .issueRequest 2 i ((i + 1) * 2),
      .issueRequest 3 i ((i + 1) * 2), .issueRequest 4 i ((i + 1) * 2)]

/-- `main` of `consumer.c`. -/
def consumerMain (argv : List String) : List Syscall :=
  if argv.length ≠ 2 then []
  else if argv[1]? = some "--start" then [.startElevator]
  else if argv[1]? = some "--stop" then [.stopElevator]
  else []

/-- A process: its program, its arguments, and what `rand()` returns to it. -/
inductive Program
  | producer (argc : Int) (rands : List Nat)
  | driver (argc : Int)
  | consumer (argv : List String)
  deriving DecidableEq, Repr

/-- The system calls of a process. -/
def Program.calls : Program → List Syscall
  | .producer argc rands => producerMain argc rands
  | .driver argc => driverMain argc
  | .consumer argv => consumerMain argv

/-! ## What the programs ask for -/

/-- `rnd` stays between its bounds, whatever number it is given: the remainder is added to the
    lower one. -/
theorem rnd_range (rand : Nat) {min max : Int} (h : min ≤ max) :
    min ≤ rnd rand min max ∧ rnd rand min max ≤ max := by
  have hnonneg := Int.tmod_nonneg (max - min + 1) (Int.natCast_nonneg rand)
  have hlt := Int.tmod_lt_of_pos (rand : Int) (show 0 < max - min + 1 by omega)
  unfold rnd
  omega

/-- Every value of the range can be drawn. -/
theorem rnd_draws {v min max : Int} (h : min ≤ v ∧ v ≤ max) : rnd (v - min).toNat min max = v := by
  have hcast : ((v - min).toNat : Int) = v - min := Int.toNat_of_nonneg (by omega)
  rw [rnd, hcast, Int.tmod_eq_of_lt (by omega) (by omega)]
  omega

/-- The loop ends with a floor that is not the start.  It may run long, and it is cut off only where
    no number is left to draw. -/
theorem drawDest_ne {start dest : Int} {rands : List Nat} (h : drawDest start rands = some dest) :
    dest ≠ start ∧ 1 ≤ dest ∧ dest ≤ 10 := by
  induction rands with
  | nil => exact absurd h (by simp [drawDest])
  | cons r rands ih =>
    change (if rnd r 1 10 = start then drawDest start rands else some (rnd r 1 10)) = some dest at h
    by_cases heq : rnd r 1 10 = start
    · rw [if_pos heq] at h
      exact ih h
    · rw [if_neg heq] at h
      obtain rfl := Option.some.inj h
      exact ⟨heq, rnd_range r (by decide)⟩

/-- **What a producer asks for.**  With the right values from `rand()` a producer can make any
    request with a type from 1 to 4 and two different floors from 1 to 10, and it makes no other. -/
theorem producer_asks_iff (pType sFloor dFloor : Int) :
    (∃ argc rands, .issueRequest pType sFloor dFloor ∈ producerMain argc rands) ↔
      (1 ≤ pType ∧ pType ≤ 4) ∧ (1 ≤ sFloor ∧ sFloor ≤ 10) ∧ (1 ≤ dFloor ∧ dFloor ≤ 10) ∧
        sFloor ≠ dFloor := by
  constructor
  · rintro ⟨argc, rands, hmem⟩
    unfold producerMain at hmem
    split at hmem
    · exact absurd hmem List.not_mem_nil
    · split at hmem
      · rename_i type start rest
        split at hmem
        · rename_i dest hdraw
          obtain ⟨hp, hs, hd⟩ := Syscall.issueRequest.inj (List.mem_singleton.mp hmem)
          subst hp hs hd
          obtain ⟨hne, hdest⟩ := drawDest_ne hdraw
          exact ⟨rnd_range type (by decide), rnd_range start (by decide), hdest, hne.symm⟩
        · exact absurd hmem List.not_mem_nil
      · exact absurd hmem List.not_mem_nil
  · rintro ⟨hp, hs, hd, hne⟩
    refine ⟨1, [(pType - 1).toNat, (sFloor - 1).toNat, (dFloor - 1).toNat], ?_⟩
    have hdraw : drawDest sFloor [(dFloor - 1).toNat] = some dFloor := by
      show (if rnd (dFloor - 1).toNat 1 10 = sFloor then _ else some _) = _
      rw [rnd_draws hd, if_neg hne.symm]
    unfold producerMain
    rw [if_neg (by decide)]
    simp only [rnd_draws hp, rnd_draws hs, hdraw]
    exact List.mem_cons_self

/-- Every request of the three programs is for two different floors, the random ones included, so
    every one that is granted can be served. -/
theorem calls_trips {prog : Program} {pType sFloor dFloor : Int}
    (h : .issueRequest pType sFloor dFloor ∈ prog.calls) : sFloor ≠ dFloor := by
  cases prog with
  | producer argc rands => exact ((producer_asks_iff _ _ _).mp ⟨argc, rands, h⟩).2.2.2
  | driver argc =>
    change _ ∈ driverMain argc at h
    unfold driverMain at h
    split at h
    · exact absurd h List.not_mem_nil
    · obtain ⟨i, _, hi⟩ := List.mem_flatMap.mp h
      simp only [List.mem_cons, Syscall.issueRequest.injEq, List.not_mem_nil, or_false] at hi
      rcases hi with ⟨_, rfl, rfl⟩ | ⟨_, rfl, rfl⟩ | ⟨_, rfl, rfl⟩ | ⟨_, rfl, rfl⟩ <;> omega
  | consumer argv =>
    change _ ∈ consumerMain argv at h
    unfold consumerMain at h
    split_ifs at h <;> simp at h

/-! ## Processes against the module -/

/-- A system call that has returned, and what it returned. -/
structure Answer where
  call : Syscall
  code : Int
  deriving DecidableEq, Repr

/-- The module and the processes: the calls each has left to make, the passenger of the one that is
    in the gap of its `issue_request`, and the answers so far, in the order they came. -/
structure Userland where
  sys : Sys
  left : Nat → List Syscall
  gap : Nat → Option Passenger
  answers : List Answer

/-- What happens next. -/
inductive UserAct
  /-- The elevator thread runs a phase. -/
  | thread (phase : Phase)
  /-- A process makes its next call, which returns unless it is a request that passes its tests. -/
  | call (n : Nat)
  /-- The process in the gap inserts its passenger, and its `issue_request` returns 0. -/
  | insert (n : Nat)
  deriving DecidableEq, Repr

/-- A call that returns. -/
def Userland.answer (u : Userland) (n : Nat) (sys : Sys) (gap : Nat → Option Passenger)
    (calls : List Syscall) (a : Answer) : Userland where
  sys := sys
  left := update u.left n calls
  gap := gap
  answers := u.answers ++ [a]

/-- Process `n` makes a call, with `calls` to make after it. -/
def Userland.make (u : Userland) (n : Nat) (calls : List Syscall) : Syscall → Option Userland
  | .issueRequest pType sFloor dFloor =>
    if refuses u.sys.b.e pType sFloor dFloor then
      some (u.answer n u.sys u.gap calls ⟨.issueRequest pType sFloor dFloor, 1⟩)
    else (system.step u.sys (.request pType sFloor dFloor)).map fun sys => { u with
      sys := sys
      gap := update u.gap n (some (newPassenger u.sys pType sFloor dFloor)) }
  | .startElevator =>
    let r := startElevator .ok u.sys
    some (u.answer n r.2 u.gap calls ⟨.startElevator, r.1⟩)
  | .stopElevator =>
    let r := stopElevator .ok u.sys
    some (u.answer n r.2 u.gap calls ⟨.stopElevator, r.1⟩)

/-- The steps. -/
def userExec (u : Userland) : UserAct → Option Userland
  | .thread .load => (system.step u.sys .load).map fun sys => { u with sys := sys }
  | .thread .move => (system.step u.sys .move).map fun sys => { u with sys := sys }
  | .call n => match u.left n with
    | [] => none
    | c :: calls => u.make n calls c
  | .insert n => match u.left n, u.gap n with
    | c :: calls, some p => (system.step u.sys (.insert p)).map fun sys =>
        u.answer n sys (update u.gap n none) calls ⟨c, 0⟩
    | _, _ => none

/-- The processes run the programs `progs`, in any interleaving; a process in the gap makes no
    other call. -/
def userland (progs : Nat → Program) : Machine Userland UserAct where
  init := { sys := .init, left := fun n => (progs n).calls, gap := fun _ => none, answers := [] }
  guard := fun u a => match a with
    | .thread _ => true
    | .call n => (u.gap n).isNone
    | .insert n => (u.gap n).isSome
  exec := userExec

/-- The trip a request asks for, with the module's numbers. -/
def Syscall.trip : Syscall → Option (PType × Int × Int)
  | .issueRequest pType sFloor dFloor => some (PType.ofInt (pType - 1), sFloor - 1, dFloor - 1)
  | _ => none

/-- The trip of a passenger. -/
def Passenger.trip (p : Passenger) : PType × Int × Int := (p.type, p.sFloor, p.dFloor)

/-- The trips of the requests that returned 0, in order. -/
def granted (answers : List Answer) : List (PType × Int × Int) :=
  answers.filterMap fun a => if a.code = 0 then a.call.trip else none

@[simp] theorem granted_append (xs ys : List Answer) :
    granted (xs ++ ys) = granted xs ++ granted ys := List.filterMap_append

/-! ## What one step can do -/

/-- The requests that returned 0 are the passengers accepted, in order; whoever is in the gap stands
    there with the passenger of their own call; and every call is one of a program's. -/
structure Answered (progs : Nat → Program) (u : Userland) : Prop where
  reachable : system.Reachable u.sys
  granted : granted u.answers = (accepted u.sys.log).map Passenger.trip
  gap : ∀ n p, u.gap n = some p → ∃ c calls, u.left n = c :: calls ∧ c.trip = some p.trip
  left : ∀ n, ∀ c ∈ u.left n, c ∈ (progs n).calls
  called : ∀ a ∈ u.answers, ∃ n, a.call ∈ (progs n).calls

variable {progs : Nat → Program} {u u' : Userland}

theorem Answered.init : Answered progs (userland progs).init where
  reachable := .init
  granted := rfl
  gap _ _ h := absurd h (by simp [userland])
  left _ _ h := h
  called _ h := absurd h List.not_mem_nil

/-- The module takes a step that accepts nobody, and no call returns: the account of the answers
    is as it was. -/
theorem Answered.quiet (h : Answered progs u) {a : Act} {sys : Sys} (ha : inserted [a] = [])
    (hst : system.step u.sys a = some sys) : Part3.granted u.answers
      = (accepted sys.log).map Passenger.trip ∧ system.Reachable sys := by
  have hs := Sound.reachable (loose_of_system h.reachable)
  refine ⟨?_, h.reachable.step hst⟩
  rw [accepted_step hs (Machine.step_eq_some.mp hst).2, ha, List.append_nil]
  exact h.granted

/-- A call returns: the call was the process's next, and its trip counts if the code is 0. -/
theorem Answered.answer (h : Answered progs u) {n : Nat} {c : Syscall} {calls : List Syscall}
    {sys : Sys} {gap : Nat → Option Passenger} {code : Int} (hleft : u.left n = c :: calls)
    (hreach : system.Reachable sys)
    (hgranted : Part3.granted u.answers ++ Part3.granted [⟨c, code⟩]
      = (accepted sys.log).map Passenger.trip)
    (hgap : ∀ m p, gap m = some p → m ≠ n ∧ u.gap m = some p) :
    Answered progs (u.answer n sys gap calls ⟨c, code⟩) where
  reachable := hreach
  granted := by
    show Part3.granted (u.answers ++ _) = _
    rw [granted_append]
    exact hgranted
  gap m p hp := by
    obtain ⟨hm, hold⟩ := hgap m p hp
    obtain ⟨c', calls', hl, htrip⟩ := h.gap m p hold
    exact ⟨c', calls', (update_of_ne hm ..).trans hl, htrip⟩
  left m c' hc' := by
    by_cases hm : m = n
    · subst hm
      rw [show (u.answer m sys gap calls ⟨c, code⟩).left m = calls from update_self ..] at hc'
      exact h.left m c' (by rw [hleft]; exact List.mem_cons_of_mem c hc')
    · rw [show (u.answer n sys gap calls ⟨c, code⟩).left m = u.left m from
        update_of_ne hm _ _] at hc'
      exact h.left m c' hc'
  called a ha := by
    rcases List.mem_append.mp ha with ha | ha
    · exact h.called a ha
    · rw [List.mem_singleton.mp ha]
      exact ⟨n, h.left n c (by rw [hleft]; exact List.mem_cons_self)⟩

/-- Every trip that was accepted is between two floors, since no program asks for another. -/
theorem Answered.trips (h : Answered progs u) :
    ∀ p ∈ accepted u.sys.log, p.sFloor ≠ p.dFloor := by
  intro p hp
  have hmem : p.trip ∈ Part3.granted u.answers := by
    rw [h.granted]
    exact List.mem_map_of_mem hp
  obtain ⟨⟨c, code⟩, ha, htrip⟩ := List.mem_filterMap.mp hmem
  obtain ⟨n, hcall⟩ := h.called _ ha
  split at htrip
  · cases c with
    | issueRequest pType sFloor dFloor =>
      have hne := calls_trips hcall
      have heq := Option.some.inj htrip
      have hsrc : sFloor - 1 = p.sFloor := congrArg (fun t => t.2.1) heq
      have hdst : dFloor - 1 = p.dFloor := congrArg (fun t => t.2.2) heq
      omega
    | startElevator | stopElevator => exact absurd htrip (by simp [Syscall.trip])
  · exact absurd htrip (by simp)

/-! ## End to end -/

end KernelModules.Part3
