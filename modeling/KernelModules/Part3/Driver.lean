/-
  `elevator.c`: the elevator thread, the three system calls, and the machine they form.

  The thread's loop takes the mutex twice per iteration, once for the UNLOAD/LOAD phase
  (`loadPhase`) and once for the MOVE phase (`movePhase`); between the two, and around them, the
  system calls run their own locked regions.  A locked region is one atomic step.  The one call
  that does work before it takes the lock is `issue_request` — it tests its arguments and
  `e.shutdown`, allocates and fills the passenger, and only then asks for the mutex — so it is two
  actions, `request` and `insert`, with the half-finished request in `inflight` in between.

  `Sys` adds to the building what the module's code does not store: the phase the thread is about
  to run (`pc`), the number of allocations made so far (which is the identity of the next
  passenger node), the requests between their two halves, and the HISTORY `log` — a record of
  what happened, in order, that no modelled function ever reads.

  Two schedulers share the program: `loose` runs the two phases in any order, `system` makes them
  alternate as the thread does.
-/
import KernelModules.Part3.Header
import KernelModules.Lib.Machine

namespace KernelModules.Part3

open KernelModules.Lib

/-! ## The state of the module -/

/-- The phase of `runElevator` that the thread runs next. -/
inductive Phase
  | load | move
  deriving DecidableEq, Repr

/-- What the history records. -/
inductive Event
  /-- `addPass` linked `p` on its waiting list. -/
  | accepted (p : Passenger)
  /-- `movePass(p)`, the cabin standing at `floor`. -/
  | boarded (p : Passenger) (floor : Int)
  /-- `delPass(p)`, the cabin standing at `floor`. -/
  | delivered (p : Passenger) (floor : Int)
  /-- A move phase took the cabin from `src` to `dst`. -/
  | moved (src dst : Int)
  /-- A move phase set the status to `IDLE`. -/
  | idled
  /-- A move phase set the status to `OFFLINE`. -/
  | wentOffline
  /-- `start_elevator` put an offline elevator back to floor 0. -/
  | started
  /-- `stop_elevator` set `e.shutdown`. -/
  | stopped
  deriving DecidableEq, Repr

/-- The module's globals `b` and `e`, and the bookkeeping of the model. -/
structure Sys where
  b : Building
  pc : Phase
  nodes : Nat
  inflight : List Passenger
  log : List Event
  deriving DecidableEq

/-- The state `elevator_init` leaves. -/
def Sys.init : Sys where
  b := initBuilding initElevator
  pc := .load
  nodes := 0
  inflight := []
  log := []

/-- Replace the elevator. -/
def Sys.setE (s : Sys) (e : Elevator) : Sys := { s with b := { s.b with e := e } }

/-- Add an event to the history. -/
def Sys.record (s : Sys) (ev : Event) : Sys := { s with log := s.log ++ [ev] }

/-! ## `runElevator`: the unload/load phase

  Both loops are `list_for_each_safe`: the next node is saved before the body runs, and the body
  unlinks the current node only, so the loop visits the nodes the list had when it was entered. -/

/-- The loop over `e.p[e._current]`. -/
def unloadLoop : List Passenger → Sys → Option Sys
  | [], s => some s
  | p :: ps, s =>
    if p.dFloor = s.b.e.current then do
      let b ← delPass s.b p
      unloadLoop ps (({ s with b := b } : Sys).record (.delivered p s.b.e.current))
    else unloadLoop ps s

/-- The loop over `b.f[e._current].waiting`; the first passenger who does not fit or goes the
    other way ends it. -/
def loadLoop : List Passenger → Sys → Option Sys
  | [], s => some s
  | p :: ps, s =>
    if canFit p s.b.e && pDirection p == s.b.e.direction then
      if p.sFloor = s.b.e.current then do
        let b ← movePass s.b p
        loadLoop ps (({ s with b := b } : Sys).record (.boarded p s.b.e.current))
      else loadLoop ps s
    else some s

/-- `e.status = LOADING`. -/
def openDoors (s : Sys) : Sys := s.setE { s.b.e with status := .loading }

/-- The first inner `if`, with `c` the slot of `e._current`: empty the queue of passengers getting
    off at this floor. -/
def unloadHere (c : Slot) (s : Sys) : Option Sys :=
  if s.b.e.p c ≠ [] then unloadLoop (s.b.e.p c) s else some s

/-- The second inner `if`: nobody is taken on board after a shutdown. -/
def loadHere (c : Slot) (s : Sys) : Option Sys := do
  let anyone ← checkFloor s.b s.b.e.current
  if anyone && s.b.e.shutdown != 1 then loadLoop (s.b.f c).waiting s else some s

/-- The body of the test that somebody waits or arrives at this floor. -/
def serveFloor (c : Slot) (s : Sys) : Option Sys := (unloadHere c (openDoors s)).bind (loadHere c)

/-- The first locked region of the loop. -/
def loadBody (s : Sys) : Option Sys :=
  if s.b.e.status ≠ .offline then do
    let c ← slot s.b.e.current
    if (s.b.f c).waiting ≠ [] ∨ s.b.e.p c ≠ [] then serveFloor c s else some s
  else some s

/-- The first locked region, after which the thread is due to move. -/
def loadPhase (s : Sys) : Option Sys := (loadBody s).map fun s => { s with pc := .move }

/-! ## `runElevator`: the move phase -/

/-- The innermost `else`: the cabin goes to `e.next`. -/
def moveCabin (e : Elevator) : Elevator :=
  if e.next = 0 then
    { e with current := e.next, next := e.next + 1, direction := 1, status := .up }
  else if e.next = 9 then
    { e with current := e.next, next := e.next - 1, direction := 0, status := .down }
  else if e.direction = 1 then
    { e with status := .up, current := e.next, next := e.next + 1 }
  else
    { e with status := .down, current := e.next, next := e.next - 1 }

/-- The second locked region of the loop. -/
def moveBody (s : Sys) : Sys :=
  if s.b.e.status ≠ .offline then
    let waiting := checkBuilding s.b
    let servicing := checkElevator s.b.e
    if !servicing && !waiting then
      (s.setE { s.b.e with status := .idle }).record .idled
    else if !servicing && s.b.e.shutdown != 0 then
      (s.setE { s.b.e with status := .offline }).record .wentOffline
    else
      (s.setE (moveCabin s.b.e)).record (.moved s.b.e.current s.b.e.next)
  else s

/-- The second locked region, after which the thread is due to unload and load. -/
def movePhase (s : Sys) : Sys := { moveBody s with pc := .load }

/-- One turn of `while (!kthread_should_stop())`, both lock acquisitions succeeding. -/
def iteration (s : Sys) : Option Sys := (loadPhase s).map movePhase

/-- `n` turns with no system call in between. -/
def iterations : Nat → Sys → Option Sys
  | 0, s => some s
  | n + 1, s => (iteration s).bind (iterations n)

/-! ## The system calls -/

/-- How the kernel primitives used by a call turn out: `kmalloc` returns a node or `NULL`,
    `mutex_lock_interruptible` takes the mutex or fails with `-EINTR`. -/
structure Outcome where
  kmalloc : Bool
  lock : Bool
  deriving DecidableEq, Repr

/-- The four tests that make `issue_request` return 1. -/
def refuses (e : Elevator) (pType sFloor dFloor : Int) : Bool :=
  (pType < 1 || pType > 4) || (sFloor < 1 || sFloor > 10) || (dFloor < 1 || dFloor > 10)
    || e.shutdown != 0

/-- The passenger a request fills in, in a node of its own. -/
def newPassenger (s : Sys) (pType sFloor dFloor : Int) : Passenger where
  node := s.nodes
  type := PType.ofInt (pType - 1)
  sFloor := sFloor - 1
  dFloor := dFloor - 1

/-- The locked region of `issue_request`. -/
def enqueue (p : Passenger) (s : Sys) : Option Sys :=
  (addPass s.b p).map fun b => ({ s with b := b } : Sys).record (.accepted p)

/-- `issue_request`, as one call.  Writing through the `NULL` of a failed `kmalloc` faults; an
    interrupted lock skips `addPass` and leaks the node. -/
def issueRequest (k : Outcome) (pType sFloor dFloor : Int) (s : Sys) : Option (Int × Sys) :=
  if refuses s.b.e pType sFloor dFloor then some (1, s)
  else if !k.kmalloc then none
  else
    let p := newPassenger s pType sFloor dFloor
    let s := { s with nodes := s.nodes + 1 }
    if k.lock then (enqueue p s).map fun s => (0, s) else some (0, s)

/-- `start_elevator`. -/
def startElevator (k : Outcome) (s : Sys) : Int × Sys :=
  if k.lock then
    if s.b.e.status ≠ .offline then (1, s)
    else
      (0, (s.setE { s.b.e with status := .idle, current := 0, next := 1, shutdown := 0 }).record
        .started)
  else (0, s)

/-- `stop_elevator`. -/
def stopElevator (k : Outcome) (s : Sys) : Int × Sys :=
  if k.lock then
    if s.b.e.shutdown ≠ 0 then (1, s)
    else (0, (s.setE { s.b.e with shutdown := 1 }).record .stopped)
  else (0, s)

/-! ## The machine -/

/-- What can happen next: the two halves of a request, the other calls, the thread's phases. -/
inductive Act
  | request (pType sFloor dFloor : Int)
  | insert (p : Passenger)
  | start
  | stop
  | load
  | move
  deriving DecidableEq, Repr

/-- Every kernel primitive succeeds. -/
def Outcome.ok : Outcome := ⟨true, true⟩

/-- The steps, all lock acquisitions and allocations succeeding. -/
def exec (s : Sys) : Act → Option Sys
  | .request pType sFloor dFloor =>
    if refuses s.b.e pType sFloor dFloor then some s
    else some { s with
      nodes := s.nodes + 1
      inflight := s.inflight ++ [newPassenger s pType sFloor dFloor] }
  | .insert p => enqueue p { s with inflight := s.inflight.erase p }
  | .start => some (startElevator .ok s).2
  | .stop => some (stopElevator .ok s).2
  | .load => loadPhase s
  | .move => some (movePhase s)

/-- The thread's phases in any order. -/
def loose : Machine Sys Act where
  init := .init
  guard := fun s a => match a with
    | .insert p => decide (p ∈ s.inflight)
    | _ => true
  exec := exec

/-- The thread's phases in the order of its loop. -/
def system : Machine Sys Act where
  init := .init
  guard := fun s a => match a with
    | .insert p => decide (p ∈ s.inflight)
    | .load => decide (s.pc = .load)
    | .move => decide (s.pc = .move)
    | _ => true
  exec := exec

/-- `system` asks of a phase that it is its turn, and `loose` does not; of everything else the two
    ask the same. -/
theorem loose_guard_of_system (s : Sys) (a : Act) (h : system.guard s a = true) :
    loose.guard s a = true := by
  cases a with
  | insert p => exact h
  | _ => rfl

/-- So every run of the one is a run of the other ... -/
theorem loose_run_of_system {acts : List Act} {s : Sys} (h : system.run acts = some s) :
    loose.run acts = some s :=
  Machine.run_mono (M := system) (N := loose) rfl rfl loose_guard_of_system h

/-- ... and an invariant of `loose`, in which the phases run in any order, holds of `system`.  Most
    of the invariants are proved in this way. -/
theorem loose_of_system {s : Sys} (hs : system.Reachable s) : loose.Reachable s :=
  Machine.Reachable.mono (M := system) (N := loose) rfl rfl loose_guard_of_system hs

end KernelModules.Part3
