/-
  `elevator_exit`: taking the module away under the feet of its callers.

  `elevator_exit` stops the thread, sets the three `STUB_*` pointers back to `NULL`, one after the
  other, frees whoever is still on one of the twenty lists, floor by floor and WITHOUT the mutex,
  and destroys the mutex.  A system call in progress is not waited for.  It may be

  * between the test of its pointer and the call through it, which reads the pointer AGAIN;
  * in its handler, at the first statement: the tests of a request, which read `e.shutdown`;
  * in its handler, before the lock, a request with its passenger allocated;
  * in its locked region, with its work to do or with the mutex to release;
  * done with the mutex, and gone.

  The machine `unload` interleaves the steps of `elevator_exit` with any number of calls, each of
  them at any of these points.  `Unloaded` says what the unload should leave: no call through
  `NULL`, every passenger ever allocated freed exactly once, by `delPass` or by the drain, and
  nothing touched after the end.  It holds along every run in which a pointer is only cleared with
  no dispatch between its two reads of it, and the last one with no handler in progress, but for
  requests that their tests refuse; and wherever `unlink_syscalls` clears a pointer that is in
  somebody's way, some continuation breaks it (`unload_is_clean`).
-/
import Mathlib.Tactic.IntervalCases
import Mathlib.Tactic.MkIffOfInductiveProp
import KernelModules.Part3.Syscalls
import KernelModules.Part3.Fifo

namespace KernelModules.Part3

open Function KernelModules.Lib

/-! ## The state while the module goes down -/

/-- The pointers `STUB_issue_request`, `STUB_start_elevator` and `STUB_stop_elevator`. -/
inductive Stub
  | issueRequest | startElevator | stopElevator
  deriving DecidableEq, Repr

/-- The pointer a system call goes through. -/
def Syscall.stub : Syscall → Stub
  | .issueRequest .. => .issueRequest
  | .startElevator => .startElevator
  | .stopElevator => .stopElevator

/-- The order in which `unlink_syscalls` clears them. -/
def stubOrder : List Stub := [.issueRequest, .startElevator, .stopElevator]

/-- The step of `elevator_exit` that is next. -/
inductive ExitPc
  /-- `kthread_stop`; until then the thread is at work. -/
  | kthreadStop
  /-- `unlink_syscalls`, with the pointers it has yet to clear. -/
  | unlink (rest : List Stub)
  /-- The drain, with the lists it has yet to empty. -/
  | drain (rest : List (Slot ⊕ Slot))
  | finished
  deriving DecidableEq, Repr

/-- The handler that holds the mutex: its locked code is to run, or has run. -/
inductive Holder
  | working (a : Act)
  | leaving (a : Act)
  deriving DecidableEq, Repr

structure Unload where
  sys : Sys
  pc : ExitPc
  /-- Which of the `STUB_*` pointers are set. -/
  linked : Stub → Bool
  /-- The dispatches that have found their pointer set, and have yet to call through it. -/
  tested : List Syscall
  /-- The handlers that have been called, and have yet to do anything. -/
  entered : List Syscall
  /-- The calls of `start_elevator` and `stop_elevator` that have yet to lock; requests in the same
      place are in `sys.inflight`. -/
  calls : List Act
  holder : Option Holder
  /-- Whom the drain has freed. -/
  drained : List Passenger
  /-- The calls through `NULL`. -/
  nulls : List Syscall
  /-- The handlers that were at work after the end. -/
  late : List Act

/-- The module up and running. -/
def Unload.init : Unload where
  sys := .init
  pc := .kthreadStop
  linked := fun _ => true
  tested := []
  entered := []
  calls := []
  holder := none
  drained := []
  nulls := []
  late := []

/-- The order of the drain: for each floor the cabin's list, then the queue. -/
def drainOrder : List (Slot ⊕ Slot) := (List.finRange 10).flatMap fun i => [.inr i, .inl i]

/-- A list emptied; the drain leaves the counters alone. -/
def Building.cleared (b : Building) : Slot ⊕ Slot → Building
  | .inl i => b.onFloor i fun fl => { fl with waiting := [] }
  | .inr j => { b with e := { b.e with p := update b.e.p j [] } }

/-- Everybody whose node has been freed, by `delPass` or by the drain. -/
def Unload.freed (s : Unload) : List Passenger := delivered s.sys.log ++ s.drained

/-! ## The steps -/

inductive ExitAct
  /-- A phase of the thread, from its lock to its unlock. -/
  | thread (a : Act)
  /-- `if (STUB_x != NULL)`. -/
  | test (c : Syscall)
  /-- `return STUB_x(...)`. -/
  | call (c : Syscall)
  /-- A handler comes to its lock, or returns before it. -/
  | enter (c : Syscall)
  /-- A handler takes the mutex. -/
  | lock (a : Act)
  /-- It does its work. -/
  | work (a : Act)
  /-- It releases the mutex. -/
  | unlock (a : Act)
  | kthreadStop
  /-- `unlink_syscalls` clears the next pointer. -/
  | unlink
  /-- The drain empties the next list. -/
  | drain
  | mutexDestroy
  deriving DecidableEq, Repr

/-- A handler up to its lock: a request tests its arguments and `e.shutdown`, and allocates. -/
def enterHandler (s : Unload) : Syscall → Unload
  | .issueRequest pType sFloor dFloor =>
    if refuses s.sys.b.e pType sFloor dFloor then s
    else { s with sys := { s.sys with
      nodes := s.sys.nodes + 1
      inflight := s.sys.inflight ++ [newPassenger s.sys pType sFloor dFloor] } }
  | .startElevator => { s with calls := s.calls ++ [.start] }
  | .stopElevator => { s with calls := s.calls ++ [.stop] }

/-- Does a handler stand in front of its lock? -/
def Unload.waits (s : Unload) : Act → Bool
  | .insert p => decide (p ∈ s.sys.inflight)
  | a => decide (a ∈ s.calls)

/-- The record of late work, a handler having touched the mutex or a passenger. -/
def Unload.touched (s : Unload) (a : Act) : List Act :=
  if s.pc = .finished then s.late ++ [a] else s.late

def unloadExec (s : Unload) : ExitAct → Option Unload
  | .thread a => (exec s.sys a).map fun sys => { s with sys := sys }
  | .test c => if s.linked c.stub then some { s with tested := s.tested ++ [c] } else some s
  | .call c =>
    let s := { s with tested := s.tested.erase c }
    -- the pointer is read a second time
    if s.linked c.stub then some { s with entered := s.entered ++ [c] }
    else some { s with nulls := s.nulls ++ [c] }
  | .enter c => some (enterHandler { s with entered := s.entered.erase c } c)
  | .lock a => some { s with
      calls := s.calls.erase a
      holder := some (.working a)
      late := s.touched a }
  | .work a =>
    -- what it does to the lists after the end is left open
    if s.pc = .finished then some { s with holder := some (.leaving a), late := s.touched a }
    else (exec s.sys a).map fun sys => { s with sys := sys, holder := some (.leaving a) }
  | .unlock a => some { s with holder := none, late := s.touched a }
  | .kthreadStop => some { s with pc := .unlink stubOrder }
  | .unlink => match s.pc with
    | .unlink (x :: rest) => some { s with
        pc := if rest = [] then .drain drainOrder else .unlink rest
        linked := update s.linked x false }
    | _ => none
  | .drain => match s.pc with
    | .drain (x :: rest) => some { s with
        pc := .drain rest
        sys := { s.sys with b := s.sys.b.cleared x }
        drained := s.drained ++ s.sys.b.lists x }
    | _ => none
  | .mutexDestroy => some { s with pc := .finished }

/-- The steps of `elevator_exit` in their order, the calls at any time.  `elevator_exit` does not
    take the mutex; the thread does, and ends at the test of its loop, before a load phase. -/
def unload : Machine Unload ExitAct where
  init := .init
  guard := fun s a => match a with
    | .thread a => decide (s.pc = .kthreadStop) && s.holder.isNone && (a == .load || a == .move)
        && system.guard s.sys a
    | .test _ => true
    | .call c => decide (c ∈ s.tested)
    | .enter c => decide (c ∈ s.entered)
    | .lock a => s.waits a && s.holder.isNone
    | .work a => decide (s.holder = some (.working a))
    | .unlock a => decide (s.holder = some (.leaving a))
    | .kthreadStop => decide (s.pc = .kthreadStop) && decide (s.sys.pc = .load)
    | .unlink => true
    | .drain => true
    | .mutexDestroy => decide (s.pc = .drain [])
  exec := unloadExec

/-! ## What an unload should leave -/

/-- No call through `NULL`; at the end, every node ever allocated freed exactly once; and nothing
    touched after the end. -/
structure Unloaded (s : Unload) : Prop where
  called : s.nulls = []
  freed : s.pc = .finished → (s.freed.map Passenger.node).Perm (List.range s.sys.nodes)
  ended : s.late = []

/-- The call is a request that its tests refuse. -/
def Syscall.refused (e : Elevator) : Syscall → Bool
  | .issueRequest pType sFloor dFloor => refuses e pType sFloor dFloor
  | _ => false

/-- No handler is in progress, but for requests that their tests will refuse. -/
@[mk_iff] structure Idle (s : Unload) : Prop where
  entered : ∀ c ∈ s.entered, c.refused s.sys.b.e = true
  calls : s.calls = []
  inflight : s.sys.inflight = []
  holder : s.holder = none

/-- `unlink_syscalls` can clear `x`, with `rest` to come: no dispatch is between its two reads of
    `x`, and if it is the last pointer no handler is in progress. -/
@[mk_iff] structure Clear (s : Unload) (x : Stub) (rest : List Stub) : Prop where
  tested : ∀ c ∈ s.tested, c.stub ≠ x
  idle : rest = [] → Idle s

instance (s : Unload) : Decidable (Idle s) := decidable_of_iff' _ (idle_iff s)

instance (s : Unload) (x : Stub) (rest : List Stub) : Decidable (Clear s x rest) :=
  decidable_of_iff' _ (clear_iff s x rest)

/-- Is the pointer that `unlink_syscalls` clears next in nobody's way? -/
def Unload.clears (s : Unload) : Bool := match s.pc with
  | .unlink (x :: rest) => decide (Clear s x rest)
  | _ => true

theorem Unload.clears_iff {s : Unload} :
    s.clears = true ↔ ∀ x rest, s.pc = .unlink (x :: rest) → Clear s x rest := by
  unfold clears
  split
  · rename_i x rest hpc
    rw [decide_eq_true_iff, hpc]
    refine ⟨fun h y l heq => ?_, fun h => h x rest rfl⟩
    obtain ⟨rfl, rfl⟩ := List.cons.inj (ExitPc.unlink.inj heq)
    exact h
  · rename_i hpc
    exact iff_of_true rfl fun x rest heq => absurd heq (hpc x rest)

/-- No pointer is in anybody's way when it is cleared. -/
def Undisturbed (acts : List ExitAct) : Prop :=
  ∀ pre s x rest, pre ++ [.unlink] <+: acts → unload.run pre = some s → s.pc = .unlink (x :: rest) →
    Clear s x rest

/-! ## Every state of the module -/

/-- A dispatch that is not disturbed, whoever else is past its tests: it finds its pointer set
    twice, and the handler comes to its lock or returns. -/
theorem test_then_call {s : Unload} (c : Syscall) (hlinked : s.linked c.stub = true)
    (htested : s.tested = []) (hentered : s.entered = []) :
    unload.runFrom s [.test c, .call c, .enter c] = some (enterHandler s c) := by
  obtain ⟨sys, pc, linked, tested, entered, calls, holder, drained, nulls, late⟩ := s
  obtain rfl : tested = [] := htested
  obtain rfl : entered = [] := hentered
  change linked c.stub = true at hlinked
  have htest : unload.step ⟨sys, pc, linked, [], [], calls, holder, drained, nulls, late⟩ (.test c)
      = some ⟨sys, pc, linked, [c], [], calls, holder, drained, nulls, late⟩ := by
    refine Machine.step_eq_some.mpr ⟨rfl, ?_⟩
    show (if linked c.stub then _ else _) = _
    rw [if_pos hlinked]
    rfl
  have hcall : unload.step ⟨sys, pc, linked, [c], [], calls, holder, drained, nulls, late⟩ (.call c)
      = some ⟨sys, pc, linked, [], [c], calls, holder, drained, nulls, late⟩ := by
    refine Machine.step_eq_some.mpr ⟨decide_eq_true List.mem_cons_self, ?_⟩
    show (if linked c.stub then some _ else _) = _
    rw [if_pos hlinked, List.erase_cons_head]
    rfl
  have henter : unload.step ⟨sys, pc, linked, [], [c], calls, holder, drained, nulls, late⟩
      (.enter c) = some (enterHandler
        ⟨sys, pc, linked, [], [c].erase c, calls, holder, drained, nulls, late⟩ c) :=
    Machine.step_eq_some.mpr ⟨decide_eq_true List.mem_cons_self, rfl⟩
  rw [List.erase_cons_head] at henter
  rw [Machine.runFrom_cons htest, Machine.runFrom_cons hcall, Machine.runFrom_cons henter]
  rfl

/-- A handler that nobody keeps waiting: it takes the mutex, does its work and is gone.  These are
    three steps, so others may come between them. -/
theorem lock_work_unlock {s : Unload} {a : Act} {sys : Sys} (hwaits : s.waits a = true)
    (hfree : s.holder = none) (hpc : s.pc ≠ .finished) (hexec : exec s.sys a = some sys) :
    unload.runFrom s [.lock a, .work a, .unlock a]
      = some { s with sys := sys, calls := s.calls.erase a } := by
  obtain ⟨m, pc, linked, tested, entered, calls, holder, drained, nulls, late⟩ := s
  obtain rfl : holder = none := hfree
  have htouched : ∀ t : Unload, t.pc = pc → t.touched a = t.late := fun t ht =>
    if_neg (by rw [ht]; exact hpc)
  have hlock : unload.step ⟨m, pc, linked, tested, entered, calls, none, drained, nulls, late⟩
      (.lock a) = some ⟨m, pc, linked, tested, entered, calls.erase a, some (.working a), drained,
        nulls, late⟩ := by
    refine Machine.step_eq_some.mpr ⟨Bool.and_eq_true_iff.mpr ⟨hwaits, rfl⟩, ?_⟩
    show some (Unload.mk _ _ _ _ _ _ _ _ _ (Unload.touched _ a)) = _
    rw [htouched _ rfl]
  have hwork : unload.step ⟨m, pc, linked, tested, entered, calls.erase a, some (.working a),
      drained, nulls, late⟩ (.work a) = some ⟨sys, pc, linked, tested, entered, calls.erase a,
        some (.leaving a), drained, nulls, late⟩ := by
    refine Machine.step_eq_some.mpr ⟨decide_eq_true rfl, ?_⟩
    show (if pc = .finished then _ else (exec m a).map _) = _
    rw [if_neg hpc, show exec m a = some sys from hexec]
    rfl
  have hunlock : unload.step ⟨sys, pc, linked, tested, entered, calls.erase a, some (.leaving a),
      drained, nulls, late⟩ (.unlock a) = some ⟨sys, pc, linked, tested, entered, calls.erase a,
        none, drained, nulls, late⟩ := by
    refine Machine.step_eq_some.mpr ⟨decide_eq_true rfl, ?_⟩
    show some (Unload.mk _ _ _ _ _ _ _ _ _ (Unload.touched _ a)) = _
    rw [htouched _ rfl]
  rw [Machine.runFrom_cons hlock, Machine.runFrom_cons hwork, Machine.runFrom_cons hunlock]
  rfl

/-- Before `elevator_exit`, the module gets to every reachable state of `system`. -/
theorem unload_reachable {s : Sys} (h : system.Reachable s) :
    unload.Reachable { Unload.init with sys := s } := by
  refine Machine.Reachable.induct (M := system)
    (P := fun s => unload.Reachable { Unload.init with sys := s }) .init ?_ h
  intro s a s' _ hs hst
  obtain ⟨hg, he⟩ := Machine.step_eq_some.mp hst
  have hpc : ExitPc.kthreadStop ≠ ExitPc.finished := ExitPc.noConfusion
  have hphase : ∀ a, (a == Act.load || a == Act.move) = true → system.guard s a = true →
      exec s a = some s' → unload.Reachable { Unload.init with sys := s' } := by
    intro a ha hg he
    refine hs.step (a := .thread a) (Machine.step_eq_some.mpr ⟨?_, congrArg (Option.map _) he⟩)
    exact Bool.and_eq_true_iff.mpr ⟨Bool.and_eq_true_iff.mpr ⟨rfl, ha⟩, hg⟩
  -- a call that locks and is gone
  have hcall : ∀ c, (a = .start ∨ a = .stop) →
      enterHandler { Unload.init with sys := s } c = { Unload.init with sys := s, calls := [a] } →
      unload.Reachable { Unload.init with sys := s' } := by
    intro c ha hc
    have hr := hs.runFrom (test_then_call c rfl rfl rfl)
    rw [hc] at hr
    have hwaits : ({ Unload.init with sys := s, calls := [a] } : Unload).waits a = true := by
      rcases ha with rfl | rfl <;> rfl
    have hr' := hr.runFrom (lock_work_unlock hwaits rfl hpc he)
    rw [show ({ Unload.init with sys := s, calls := [a] } : Unload).calls = [a] from rfl,
      List.erase_cons_head] at hr'
    exact hr'
  cases a with
  | request pType sFloor dFloor =>
    have hr := hs.runFrom (test_then_call (.issueRequest pType sFloor dFloor) rfl rfl rfl)
    have he' : (if refuses s.b.e pType sFloor dFloor then some s else _) = some s' := he
    rw [enterHandler] at hr
    split at he'
    · rename_i href
      rw [if_pos href, Option.some.inj he'] at hr
      exact hr
    · rename_i href
      rw [if_neg href] at hr
      rw [← Option.some.inj he']
      exact hr
  | insert p => exact hs.runFrom (lock_work_unlock (a := .insert p) hg rfl hpc he)
  | start => exact hcall .startElevator (Or.inl rfl) rfl
  | stop => exact hcall .stopElevator (Or.inr rfl) rfl
  | load => exact hphase .load rfl hg he
  | move => exact hphase .move rfl hg he

/-! ## Every node is accounted for -/

/-- Every node ever allocated is a request's, accepted or on its way, so there are as many of them
    as of these. -/
theorem allocated_length {s : Sys} (h : loose.Reachable s) :
    (accepted s.log ++ s.inflight).length = s.nodes := by
  refine loose_invariant (P := fun s => (accepted s.log ++ s.inflight).length = s.nodes) rfl
    ?_ ?_ ?_ h
  · intro s s' _ hp hst
    cases hst <;> simpa [accepted, openDoors] using hp
  · intro s s' _ hp hst
    cases hst <;> simpa [accepted] using hp
  · intro s a s' _ hp hst
    cases hst with
    | refuse => exact hp
    | request =>
      simp only [List.length_append, List.length_cons, List.length_nil] at hp ⊢
      omega
    | insert hin =>
      have hlen := List.length_erase_of_mem hin
      have hpos := List.length_pos_of_mem hin
      simp only [Sys.record_log, accepted_append, List.length_append] at hp ⊢
      show _ + _ + (s.inflight.erase _).length = s.nodes
      rw [hlen, show (accepted [Event.accepted _]).length = 1 from rfl]
      omega
    | start => simpa [accepted] using hp
    | stop => simpa [accepted] using hp

/-- The nodes in use are the first `nodes` numbers, each once. -/
theorem allocated_perm {s : Sys} (h : loose.Reachable s) :
    ((accepted s.log ++ s.inflight).map Passenger.node).Perm (List.range s.nodes) := by
  have hcensus := (Sound.reachable h).census
  have hsub : (accepted s.log ++ s.inflight).map Passenger.node ⊆ List.range s.nodes := by
    intro n hn
    obtain ⟨p, hp, rfl⟩ := List.mem_map.mp hn
    exact List.mem_range.mpr (hcensus.bound p hp)
  apply (hcensus.nodup.subperm hsub).perm_of_length_le
  rw [List.length_range, List.length_map, allocated_length h]

/-- The drain visits every list, though in an order of its own. -/
theorem drainOrder_perm (b : Building) :
    (drainOrder.flatMap b.lists).Perm (onboard b.e ++ queued b) := by
  have hlists : drainOrder.flatMap b.lists
      = (List.finRange 10).flatMap fun i => b.e.p i ++ (b.f i).waiting := by
    rw [drainOrder, List.flatMap_assoc]
    congr 1
    funext i
    simp [Building.lists]
  rw [hlists]
  exact (List.flatMap_append_perm _ _ _).symm

theorem drainOrder_nodup : drainOrder.Nodup := by decide

/-- Emptying one list leaves the others alone. -/
theorem Building.lists_cleared (b : Building) {x y : Slot ⊕ Slot} (h : y ≠ x) :
    (b.cleared x).lists y = b.lists y := by
  cases x with
  | inl i =>
    cases y with
    | inl j =>
      have hji : j ≠ i := fun heq => h (by rw [heq])
      simp [cleared, lists, onFloor, hji]
    | inr j => rfl
  | inr i =>
    cases y with
    | inl j => rfl
    | inr j =>
      have hji : j ≠ i := fun heq => h (by rw [heq])
      simp [cleared, lists, hji]

/-! ## Before the last pointer is cleared -/

/-- The states with a pointer still set: the module is a reachable state of `system`, and whoever
    has found a pointer set will find it set again. -/
structure Serving (s : Unload) : Prop where
  pc : s.pc = .kthreadStop ∧ (∀ x, s.linked x = true) ∨
    ∃ rest, rest ≠ [] ∧ rest.Nodup ∧ s.pc = .unlink rest ∧ ∀ x, s.linked x = true ↔ x ∈ rest
  tested : ∀ c ∈ s.tested, s.linked c.stub = true
  calls : ∀ a ∈ s.calls, a = .start ∨ a = .stop
  /-- Who is inside can do its work. -/
  holder : ∀ a, s.holder = some (.working a) → system.guard s.sys a = true
  reach : system.Reachable s.sys
  drained : s.drained = []
  nulls : s.nulls = []
  late : s.late = []

theorem Serving.not_finished {s : Unload} (h : Serving s) : s.pc ≠ .finished := by
  rcases h.pc with ⟨hk, _⟩ | ⟨rest, _, _, hu, _⟩
  · rw [hk]
    exact ExitPc.noConfusion
  · rw [hu]
    exact ExitPc.noConfusion

/-- Nothing is too late as long as the module serves. -/
theorem Serving.touched {s : Unload} (h : Serving s) (a : Act) : s.touched a = [] := by
  rw [Unload.touched, if_neg h.not_finished, h.late]

/-- The module takes a step of its own, and leaves the handler that is inside with its work. -/
theorem Serving.sys {s : Unload} (h : Serving s) {a : Act} {sys : Sys}
    (hg : system.guard s.sys a = true) (he : exec s.sys a = some sys) (holder : Option Holder)
    (hholder : ∀ a, holder = some (.working a) → system.guard sys a = true) :
    Serving { s with sys := sys, holder := holder } :=
  ⟨h.pc, h.tested, h.calls, hholder, h.reach.step (Machine.step_eq_some.mpr ⟨hg, he⟩), h.drained,
    h.nulls, h.late⟩

/-- A handler comes to its lock. -/
theorem Serving.enterHandler {s : Unload} (h : Serving s) (c : Syscall) :
    Serving (enterHandler s c) := by
  have hcall : ∀ a, a = .start ∨ a = .stop → Serving { s with calls := s.calls ++ [a] } := by
    intro a ha
    have hcalls := List.forall_mem_append.mpr ⟨h.calls, List.forall_mem_singleton.mpr ha⟩
    exact ⟨h.pc, h.tested, hcalls, h.holder, h.reach, h.drained, h.nulls, h.late⟩
  cases c with
  | startElevator => exact hcall .start (Or.inl rfl)
  | stopElevator => exact hcall .stop (Or.inr rfl)
  | issueRequest pType sFloor dFloor =>
    rw [Part3.enterHandler]
    split
    · exact h
    · rename_i href
      refine h.sys (a := .request pType sFloor dFloor) rfl (if_neg href) s.holder ?_
      intro a ha
      have hg := h.holder a ha
      cases a with
      | insert p => exact decide_eq_true (List.mem_append_left _ (of_decide_eq_true hg))
      | _ => exact hg

/-- Who waits for the mutex has something to do that the module allows. -/
theorem Serving.waits {s : Unload} (h : Serving s) {a : Act} (hw : s.waits a = true) :
    system.guard s.sys a = true := by
  cases a with
  | insert p => exact hw
  | _ =>
    rcases h.calls _ (of_decide_eq_true hw) with heq | heq
    · rw [heq]
      rfl
    · rw [heq]
      rfl

/-- **One step of anything but `unlink_syscalls`.**  The module serves on: a dispatch comes in, a
    handler takes the mutex, works or leaves it, or the thread runs a phase. -/
theorem Serving.step {s s' : Unload} {a : ExitAct} (h : Serving s) (hst : unload.step s a = some s')
    (ha : a ≠ .unlink) : Serving s' := by
  obtain ⟨hg, he⟩ := Machine.step_eq_some.mp hst
  have hfree : ∀ {o : Option Holder}, o = none → ∀ (sys : Sys) (a : Act),
      o = some (.working a) → system.guard sys a = true := by
    intro o ho sys a ho'
    rw [ho] at ho'
    exact absurd ho' (by simp)
  cases a with
  | thread a =>
    obtain ⟨hrest, hguard⟩ := Bool.and_eq_true_iff.mp hg
    have hnone := Option.isNone_iff_eq_none.mp
      (Bool.and_eq_true_iff.mp (Bool.and_eq_true_iff.mp hrest).1).2
    obtain ⟨sys, hsys, rfl⟩ := Option.map_eq_some_iff.mp he
    exact h.sys hguard hsys _ (hfree hnone sys)
  | test c =>
    change (if s.linked c.stub then _ else _) = _ at he
    split at he
    · rename_i hlinked
      rw [← Option.some.inj he]
      have htested := List.forall_mem_append.mpr ⟨h.tested, List.forall_mem_singleton.mpr hlinked⟩
      exact ⟨h.pc, htested, h.calls, h.holder, h.reach, h.drained, h.nulls, h.late⟩
    · rw [← Option.some.inj he]
      exact h
  | call c =>
    have hlinked := h.tested c (of_decide_eq_true hg)
    change (if s.linked c.stub then _ else _) = _ at he
    rw [if_pos hlinked] at he
    rw [← Option.some.inj he]
    exact ⟨h.pc, fun c hc => h.tested c (List.mem_of_mem_erase hc), h.calls, h.holder, h.reach,
      h.drained, h.nulls, h.late⟩
  | enter c =>
    rw [← Option.some.inj he]
    have hs : Serving { s with entered := s.entered.erase c } :=
      ⟨h.pc, h.tested, h.calls, h.holder, h.reach, h.drained, h.nulls, h.late⟩
    exact hs.enterHandler c
  | lock a =>
    rw [← Option.some.inj he]
    refine ⟨h.pc, h.tested, fun x hx => h.calls x (List.mem_of_mem_erase hx), ?_, h.reach,
      h.drained, h.nulls, h.touched a⟩
    intro a' ha'
    obtain rfl := Holder.working.inj (Option.some.inj ha')
    exact h.waits (Bool.and_eq_true_iff.mp hg).1
  | work a =>
    change (if s.pc = .finished then _ else _) = _ at he
    rw [if_neg h.not_finished] at he
    obtain ⟨sys, hsys, rfl⟩ := Option.map_eq_some_iff.mp he
    exact h.sys (h.holder a (of_decide_eq_true hg)) hsys _ fun a' ha' => absurd ha' (by simp)
  | unlock a =>
    rw [← Option.some.inj he]
    exact ⟨h.pc, h.tested, h.calls, hfree rfl s.sys, h.reach, h.drained, h.nulls, h.touched a⟩
  | kthreadStop =>
    have hk : s.pc = .kthreadStop := of_decide_eq_true (Bool.and_eq_true_iff.mp hg).1
    have hall : ∀ x, s.linked x = true := by
      rcases h.pc with ⟨_, hall⟩ | ⟨rest, _, _, hpc, _⟩
      · exact hall
      · rw [hk] at hpc
        exact absurd hpc ExitPc.noConfusion
    rw [← Option.some.inj he]
    refine ⟨Or.inr ⟨stubOrder, by decide, by decide, rfl, fun x => iff_of_true (hall x) ?_⟩,
      h.tested, h.calls, h.holder, h.reach, h.drained, h.nulls, h.late⟩
    cases x <;> decide
  | unlink => exact absurd rfl ha
  | drain =>
    change (match s.pc with | .drain (x :: rest) => _ | _ => none) = _ at he
    rcases h.pc with ⟨hpc, _⟩ | ⟨rest, _, _, hpc, _⟩ <;>
      · rw [hpc] at he
        exact absurd he (by simp)
  | mutexDestroy =>
    have hdone : s.pc = .drain [] := of_decide_eq_true hg
    rcases h.pc with ⟨hpc, _⟩ | ⟨rest, _, _, hpc, _⟩ <;>
      · rw [hpc] at hdone
        exact absurd hdone ExitPc.noConfusion

/-! ## The drain -/

/-- The states after `unlink_syscalls`, if no handler was in progress at its end.  `s₀` is the
    module as it was then: the lists drained so far are those of `s₀`, and the others have not
    changed. -/
structure Draining (s₀ : Sys) (s : Unload) : Prop where
  reach : system.Reachable s₀
  settled : s₀.inflight = []
  linked : ∀ x, s.linked x = false
  tested : s.tested = []
  idle : Idle s
  nulls : s.nulls = []
  late : s.late = []
  log : s.sys.log = s₀.log
  nodes : s.sys.nodes = s₀.nodes
  order : ∃ done rest, drainOrder = done ++ rest ∧ s.drained = done.flatMap s₀.b.lists ∧
    (s.pc = .drain rest ∧ (∀ x ∈ rest, s.sys.b.lists x = s₀.b.lists x) ∨
      rest = [] ∧ s.pc = .finished)

/-- What `unlink_syscalls` does with the next pointer. -/
theorem unlink_exec {s s' : Unload} {x : Stub} {rest : List Stub} (hpc : s.pc = .unlink (x :: rest))
    (he : unloadExec s .unlink = some s') : s' = { s with
      pc := if rest = [] then .drain drainOrder else .unlink rest
      linked := update s.linked x false } := by
  rw [unloadExec, hpc] at he
  exact (Option.some.inj he).symm

/-- `unlink_syscalls` has a pointer to clear when it is due: it has not cleared them all, or it
    would not be its turn. -/
theorem Serving.next_stub {s s' : Unload} (h : Serving s) (he : unloadExec s .unlink = some s') :
    ∃ x rest, s.pc = .unlink (x :: rest) ∧ (x :: rest).Nodup ∧
      ∀ y, s.linked y = true ↔ y = x ∨ y ∈ rest := by
  rcases h.pc with ⟨hpc, _⟩ | ⟨rest, hrest, hnodup, hpc, hlinked⟩
  · rw [unloadExec, hpc] at he
    exact absurd he (by simp)
  · obtain ⟨x, rest, rfl⟩ := List.exists_cons_of_ne_nil hrest
    exact ⟨x, rest, hpc, hnodup, fun y => (hlinked y).trans List.mem_cons⟩

/-- **A pointer cleared that is in nobody's way**: the module serves on, or the drain begins. -/
theorem Serving.unlink {s s' : Unload} (h : Serving s) (he : unloadExec s .unlink = some s')
    (hclear : ∀ x rest, s.pc = .unlink (x :: rest) → Clear s x rest) :
    Serving s' ∨ Draining s.sys s' := by
  obtain ⟨x, rest, hpc, hnodup, hlinked⟩ := h.next_stub he
  obtain ⟨hx_rest, hnodup⟩ := List.nodup_cons.mp hnodup
  have hx := hclear x rest hpc
  obtain rfl := unlink_exec hpc he
  have hstill : ∀ y, update s.linked x false y = true ↔ y ∈ rest := by
    intro y
    by_cases hy : y = x
    · rw [hy, update_self]
      exact iff_of_false Bool.false_ne_true hx_rest
    · rw [update_of_ne hy, hlinked, or_iff_right hy]
  -- whoever has tested a pointer has tested one that is still set
  have htested : ∀ c ∈ s.tested, c.stub ∈ rest := fun c hc =>
    ((hlinked c.stub).mp (h.tested c hc)).resolve_left (hx.tested c hc)
  by_cases hrest : rest = []
  · subst hrest
    have hidle := hx.idle rfl
    refine Or.inr ⟨h.reach, hidle.inflight, fun y => ?_, ?_, ?_, h.nulls, h.late, rfl, rfl, [],
      drainOrder, rfl, h.drained, Or.inl ⟨rfl, fun _ _ => rfl⟩⟩
    · exact Bool.eq_false_iff.mpr fun hy => List.not_mem_nil ((hstill y).mp hy)
    · exact List.eq_nil_iff_forall_not_mem.mpr fun c hc => List.not_mem_nil (htested c hc)
    · exact ⟨hidle.entered, hidle.calls, hidle.inflight, hidle.holder⟩
  · exact Or.inl ⟨Or.inr ⟨rest, hrest, hnodup, if_neg hrest, hstill⟩,
      fun c hc => (hstill c.stub).mpr (htested c hc), h.calls, h.holder, h.reach, h.drained, h.nulls,
      h.late⟩

/-- A request that is refused returns at once, so it does not matter that the mutex may be gone. -/
theorem enterHandler_refused {s : Unload} {c : Syscall} (h : c.refused s.sys.b.e = true) :
    enterHandler s c = s := by
  cases c with
  | issueRequest => exact if_pos h
  | startElevator | stopElevator => exact absurd h Bool.false_ne_true

/-- The drain does not touch what the tests of a request read, so a request that would be refused
    still is. -/
theorem Building.refused_cleared (b : Building) (x : Slot ⊕ Slot) (c : Syscall) :
    c.refused (b.cleared x).e = c.refused b.e := by
  cases x <;> cases c <;> rfl

/-- **One step of the drain**, which has the module to itself: nobody can come in any more, and
    nobody is inside. -/
theorem Draining.step {s₀ : Sys} {s s' : Unload} {a : ExitAct} (h : Draining s₀ s)
    (hst : unload.step s a = some s') : Draining s₀ s' := by
  obtain ⟨hg, he⟩ := Machine.step_eq_some.mp hst
  obtain ⟨done, rest, hsplit, hdrained, hpc⟩ := h.order
  have hnot : ∀ q, (∀ l, q ≠ .drain l) → q ≠ .finished → s.pc ≠ q := by
    intro q hq hq' heq
    rcases hpc with ⟨hpc, _⟩ | ⟨_, hpc⟩
    · exact hq rest (heq.symm.trans hpc)
    · exact hq' (heq.symm.trans hpc)
  have hnobody : ∀ {o : Holder}, ¬ decide (s.holder = some o) = true := by
    intro o ho
    rw [h.idle.holder] at ho
    exact absurd (of_decide_eq_true ho) (by simp)
  cases a with
  | thread a =>
    have hk := (Bool.and_eq_true_iff.mp (Bool.and_eq_true_iff.mp
      (Bool.and_eq_true_iff.mp hg).1).1).1
    exact absurd (of_decide_eq_true hk) (hnot _ (by simp) (by simp))
  | test c =>
    change (if s.linked c.stub then _ else _) = _ at he
    rw [if_neg (by rw [h.linked]; decide)] at he
    rw [← Option.some.inj he]
    exact h
  | call c =>
    have hin : c ∈ s.tested := of_decide_eq_true hg
    rw [h.tested] at hin
    exact absurd hin List.not_mem_nil
  | enter c =>
    -- whoever is still in a handler is refused
    have hc := h.idle.entered c (of_decide_eq_true hg)
    obtain rfl : { s with entered := s.entered.erase c } = s' :=
      (enterHandler_refused (s := { s with entered := s.entered.erase c }) hc).symm.trans
        (Option.some.inj he)
    exact ⟨h.reach, h.settled, h.linked, h.tested, ⟨fun c hc => h.idle.entered c
      (List.mem_of_mem_erase hc), h.idle.calls, h.idle.inflight, h.idle.holder⟩, h.nulls, h.late,
      h.log, h.nodes, h.order⟩
  | lock a =>
    have hw := (Bool.and_eq_true_iff.mp hg).1
    cases a <;> simp [Unload.waits, h.idle.calls, h.idle.inflight] at hw
  | work a => exact absurd hg hnobody
  | unlock a => exact absurd hg hnobody
  | kthreadStop =>
    exact absurd (of_decide_eq_true (Bool.and_eq_true_iff.mp hg).1) (hnot _ (by simp) (by simp))
  | unlink =>
    change (match s.pc with | .unlink (x :: rest) => _ | _ => none) = _ at he
    rcases hpc with ⟨hpc, _⟩ | ⟨_, hpc⟩ <;>
      · rw [hpc] at he
        exact absurd he (by simp)
  | mutexDestroy =>
    rw [← Option.some.inj he]
    have hempty : s.pc = .drain [] := of_decide_eq_true hg
    have hrest : rest = [] := by
      rcases hpc with ⟨hpc, _⟩ | ⟨hrest, _⟩
      · exact ExitPc.drain.inj (hpc.symm.trans hempty)
      · exact hrest
    exact ⟨h.reach, h.settled, h.linked, h.tested, ⟨h.idle.entered, h.idle.calls, h.idle.inflight,
      h.idle.holder⟩, h.nulls, h.late, h.log, h.nodes, done, rest, hsplit, hdrained,
      Or.inr ⟨hrest, rfl⟩⟩
  | drain =>
    change (match s.pc with | .drain (x :: rest) => _ | _ => none) = _ at he
    rcases hpc with ⟨hpc, hsame⟩ | ⟨_, hpc⟩
    · rw [hpc] at he
      cases rest with
      | nil => exact absurd he (by simp)
      | cons x rest =>
        rw [← Option.some.inj he]
        have hidle : ∀ c ∈ s.entered, c.refused (s.sys.b.cleared x).e = true := fun c hc =>
          (s.sys.b.refused_cleared x c).trans (h.idle.entered c hc)
        refine ⟨h.reach, h.settled, h.linked, h.tested, ⟨hidle, h.idle.calls, h.idle.inflight,
          h.idle.holder⟩, h.nulls, h.late, h.log, h.nodes, done ++ [x], rest, ?_, ?_,
          Or.inl ⟨rfl, ?_⟩⟩
        · rw [hsplit, List.append_assoc]
          rfl
        · show s.drained ++ s.sys.b.lists x = _
          rw [hdrained, hsame x List.mem_cons_self, List.flatMap_append, List.flatMap_singleton]
        · intro y hy
          -- no list is in the order of the drain twice
          have hyx : y ≠ x := by
            rintro rfl
            have hnd := drainOrder_nodup
            rw [hsplit] at hnd
            exact (List.nodup_cons.mp (List.nodup_append.mp hnd).2.1).1 hy
          show (s.sys.b.cleared x).lists y = _
          rw [s.sys.b.lists_cleared hyx]
          exact hsame y (List.mem_cons_of_mem x hy)
    · rw [hpc] at he
      exact absurd he (by simp)

/-- A run that clears no pointer in anybody's way serves, and then drains. -/
theorem draining_run {acts : List ExitAct} (h : Undisturbed acts) :
    ∀ pre s, pre <+: acts → unload.run pre = some s → Serving s ∨ ∃ s₀, Draining s₀ s := by
  refine Machine.prefix_invariant (M := unload) ?_ ?_
  · exact Or.inl ⟨Or.inl ⟨rfl, fun _ => rfl⟩, fun _ hc => absurd hc List.not_mem_nil,
      fun _ ha => absurd ha List.not_mem_nil, fun _ ha => absurd ha (by simp [unload, Unload.init]),
      .init, rfl, rfl, rfl⟩
  · intro pre a s s' hpre hrun hs hst
    rcases hs with hs | ⟨s₀, hs⟩
    · by_cases ha : a = .unlink
      · subst ha
        rcases hs.unlink (Machine.step_eq_some.mp hst).2 fun x rest hpc =>
          h pre s x rest hpre hrun hpc with hserve | hdrain
        · exact Or.inl hserve
        · exact Or.inr ⟨s.sys, hdrain⟩
      · exact Or.inl (hs.step hst ha)
    · exact Or.inr ⟨s₀, hs.step hst⟩

theorem Serving.unloaded {s : Unload} (h : Serving s) : Unloaded s :=
  ⟨h.nulls, fun hpc => absurd hpc h.not_finished, h.late⟩

/-- At the end of an undisturbed drain every node has been freed once: those on the lists by the
    drain, and the others at their delivery. -/
theorem Draining.unloaded {s₀ : Sys} {s : Unload} (h : Draining s₀ s) : Unloaded s := by
  refine ⟨h.nulls, fun hfin => ?_, h.late⟩
  obtain ⟨done, rest, hsplit, hdrained, hpc⟩ := h.order
  have hrest : rest = [] := by
    rcases hpc with ⟨hpc, _⟩ | ⟨hrest, _⟩
    · rw [hpc] at hfin
      exact absurd hfin ExitPc.noConfusion
    · exact hrest
  rw [hrest, List.append_nil] at hsplit
  have hloose := loose_of_system h.reach
  have hall := allocated_perm hloose
  rw [h.settled, List.append_nil] at hall
  have hfreed : s.freed.Perm (accepted s₀.log) := by
    rw [Unload.freed, h.log, hdrained, ← hsplit]
    apply ((drainOrder_perm s₀.b).append_left _).trans
    rw [← List.append_assoc]
    exact (Conserved.reachable hloose).perm.symm
  rw [h.nodes]
  exact (hfreed.map _).trans hall

/-! ## Calls in progress -/

/-- `unlink_syscalls` waits for nobody: its step is there whatever a dispatch or a handler is
    doing. -/
theorem unlink_step {s : Unload} {x : Stub} {rest : List Stub} (hpc : s.pc = .unlink (x :: rest)) :
    unload.step s .unlink = some { s with
      pc := if rest = [] then .drain drainOrder else .unlink rest
      linked := update s.linked x false } := by
  refine Machine.step_eq_some.mpr ⟨rfl, ?_⟩
  show (match s.pc with | .unlink (x :: rest) => _ | _ => none) = _
  rw [hpc]

/-- A dispatch caught between its two reads of the pointer that is cleared. -/
theorem caught_between_reads {s : Unload} {c : Syscall} {rest : List Stub}
    (hpc : s.pc = .unlink (c.stub :: rest)) (hc : c ∈ s.tested) :
    ∃ t, unload.runFrom s [.unlink, .call c] = some t ∧ ¬ Unloaded t := by
  obtain ⟨t, hcall, hnulls⟩ : ∃ t, unload.step { s with
      pc := if rest = [] then .drain drainOrder else .unlink rest
      linked := update s.linked c.stub false } (.call c) = some t ∧ t.nulls = s.nulls ++ [c] := by
    refine ⟨{ s with
      pc := if rest = [] then .drain drainOrder else .unlink rest
      linked := update s.linked c.stub false
      tested := s.tested.erase c
      nulls := s.nulls ++ [c] }, Machine.step_eq_some.mpr ⟨decide_eq_true hc, ?_⟩, rfl⟩
    show (if update s.linked c.stub false c.stub then _ else some _) = _
    rw [update_self, if_neg Bool.false_ne_true]
  refine ⟨t, ?_, fun h => ?_⟩
  · rw [Machine.runFrom_cons (unlink_step hpc), Machine.runFrom_cons hcall]
    rfl
  · have hnone := h.called
    rw [hnulls] at hnone
    exact absurd hnone (by simp)

/-- What the steps of `elevator_exit` leave of the calls in progress: everything. -/
structure SameCalls (s t : Unload) : Prop where
  entered : t.entered = s.entered
  calls : t.calls = s.calls
  inflight : t.sys.inflight = s.sys.inflight
  holder : t.holder = s.holder
  refused : ∀ c : Syscall, c.refused t.sys.b.e = c.refused s.sys.b.e

/-- The drain runs to its end, whatever is in progress, for it takes no mutex and waits for
    nobody. -/
theorem drain_runs (rest : List (Slot ⊕ Slot)) {s : Unload} (hpc : s.pc = .drain rest) :
    ∃ t, unload.runFrom s (List.replicate rest.length .drain) = some t ∧ t.pc = .drain [] ∧
      SameCalls s t := by
  induction rest generalizing s with
  | nil => exact ⟨s, rfl, hpc, rfl, rfl, rfl, rfl, fun _ => rfl⟩
  | cons x rest ih =>
    have hstep : unload.step s .drain = some { s with
        pc := .drain rest
        sys := { s.sys with b := s.sys.b.cleared x }
        drained := s.drained ++ s.sys.b.lists x } := by
      refine Machine.step_eq_some.mpr ⟨rfl, ?_⟩
      show (match s.pc with | .drain (x :: rest) => _ | _ => none) = _
      rw [hpc]
    obtain ⟨t, ht, hend, hsame⟩ := ih (s := { s with
      pc := .drain rest
      sys := { s.sys with b := s.sys.b.cleared x }
      drained := s.drained ++ s.sys.b.lists x }) rfl
    refine ⟨t, ?_, hend, hsame.entered, hsame.calls, hsame.inflight, hsame.holder, fun c => ?_⟩
    · rw [List.length_cons, List.replicate_succ, Machine.runFrom_cons hstep]
      exact ht
    · exact (hsame.refused c).trans (s.sys.b.refused_cleared x c)

/-- From the last pointer on, `elevator_exit` runs to its end, whatever is in progress. -/
theorem exit_runs {s : Unload} {x : Stub} (hpc : s.pc = .unlink [x]) :
    ∃ more t, unload.runFrom s (.unlink :: more) = some t ∧ t.pc = .finished ∧ SameCalls s t := by
  obtain ⟨t, ht, hend, hsame⟩ := drain_runs drainOrder
    (s := { s with pc := .drain drainOrder, linked := update s.linked x false }) rfl
  have hdestroy : unload.step t .mutexDestroy = some { t with pc := .finished } :=
    Machine.step_eq_some.mpr ⟨decide_eq_true hend, rfl⟩
  refine ⟨List.replicate drainOrder.length .drain ++ [.mutexDestroy], { t with pc := .finished }, ?_,
    rfl, hsame.entered, hsame.calls, hsame.inflight, hsame.holder, hsame.refused⟩
  rw [Machine.runFrom_cons (unlink_step hpc), if_pos rfl, Machine.runFrom_append, ht,
    Option.bind_some, Machine.runFrom_cons hdestroy]
  rfl

/-- Only the calls without a passenger are in `calls`. -/
theorem calls_reachable {s : Unload} (h : unload.Reachable s) :
    ∀ a ∈ s.calls, a = .start ∨ a = .stop := by
  refine Machine.Reachable.induct (M := unload)
    (P := fun s => ∀ a ∈ s.calls, a = .start ∨ a = .stop)
    (fun a ha => absurd ha List.not_mem_nil) ?_ h
  intro s a s' _ hs hst
  have he := (Machine.step_eq_some.mp hst).2
  have hmore : ∀ x, x = .start ∨ x = .stop → ∀ a ∈ s.calls ++ [x], a = .start ∨ a = .stop := by
    intro x hx
    exact List.forall_mem_append.mpr ⟨hs, List.forall_mem_singleton.mpr hx⟩
  have hsame : s'.calls = s.calls → ∀ a ∈ s'.calls, a = .start ∨ a = .stop := by
    intro heq
    rw [heq]
    exact hs
  cases a with
  | thread a =>
    obtain ⟨sys, _, rfl⟩ := Option.map_eq_some_iff.mp he
    exact hs
  | test c | call c =>
    change (if s.linked c.stub then _ else _) = _ at he
    refine hsame ?_
    split at he <;> rw [← Option.some.inj he]
  | enter c =>
    rw [← Option.some.inj he]
    cases c with
    | startElevator => exact hmore .start (Or.inl rfl)
    | stopElevator => exact hmore .stop (Or.inr rfl)
    | issueRequest pType sFloor dFloor =>
      rw [enterHandler]
      split <;> exact hs
  | lock a =>
    rw [← Option.some.inj he]
    exact fun x hx => hs x (List.mem_of_mem_erase hx)
  | work a =>
    change (if s.pc = .finished then _ else _) = _ at he
    split at he
    · rw [← Option.some.inj he]
      exact hs
    · obtain ⟨sys, _, rfl⟩ := Option.map_eq_some_iff.mp he
      exact hs
  | unlink =>
    change (match s.pc with | .unlink (x :: rest) => _ | _ => none) = _ at he
    split at he
    · rw [← Option.some.inj he]
      exact hs
    · exact absurd he (by simp)
  | drain =>
    change (match s.pc with | .drain (x :: rest) => _ | _ => none) = _ at he
    split at he
    · rw [← Option.some.inj he]
      exact hs
    · exact absurd he (by simp)
  | unlock | kthreadStop | mutexDestroy =>
    rw [← Option.some.inj he]
    exact hs

section Late

variable {s : Unload}

/-- A handler that takes the mutex after the end takes one that has been destroyed. -/
theorem late_lock (hpc : s.pc = .finished) {a : Act} (hwaits : s.waits a = true)
    (hfree : s.holder = none) : ∃ t, unload.runFrom s [.lock a] = some t ∧ ¬ Unloaded t := by
  refine ⟨_, Machine.runFrom_cons (Machine.step_eq_some.mpr ⟨?_, rfl⟩) [], fun h => ?_⟩
  · exact Bool.and_eq_true_iff.mpr ⟨hwaits, Option.isNone_iff_eq_none.mpr hfree⟩
  · have hlate : s.touched a = [] := h.ended
    rw [Unload.touched, if_pos hpc] at hlate
    exact absurd hlate (by simp)

/-- A handler that is inside after the end: it has yet to work, or to release the mutex. -/
theorem late_holder (hpc : s.pc = .finished) {o : Holder} (ho : s.holder = some o) :
    ∃ more t, unload.runFrom s more = some t ∧ ¬ Unloaded t := by
  have hbad : ∀ a (t : Unload), t.late = s.touched a → ¬ Unloaded t := by
    intro a t ht h
    have hlate := h.ended
    rw [ht, Unload.touched, if_pos hpc] at hlate
    exact absurd hlate (by simp)
  cases o with
  | working a =>
    refine ⟨[.work a], { s with holder := some (.leaving a), late := s.touched a },
      Machine.runFrom_cons (Machine.step_eq_some.mpr ⟨decide_eq_true ho, ?_⟩) [], hbad a _ rfl⟩
    exact if_pos hpc
  | leaving a =>
    exact ⟨[.unlock a], { s with holder := none, late := s.touched a },
      Machine.runFrom_cons (Machine.step_eq_some.mpr ⟨decide_eq_true ho, rfl⟩) [], hbad a _ rfl⟩

/-- A handler that is at its first statement at the end, and will not be refused. -/
theorem late_enter (hpc : s.pc = .finished) (hfree : s.holder = none) {c : Syscall}
    (hc : c ∈ s.entered) (href : c.refused s.sys.b.e = false) :
    ∃ more t, unload.runFrom s more = some t ∧ ¬ Unloaded t := by
  obtain ⟨s₁, hs₁⟩ : ∃ s₁ : Unload, s₁ = { s with entered := s.entered.erase c } := ⟨_, rfl⟩
  have henter : unload.step s (.enter c) = some (enterHandler s₁ c) := by
    rw [hs₁]
    exact Machine.step_eq_some.mpr ⟨decide_eq_true hc, rfl⟩
  have hkept : (enterHandler s₁ c).pc = .finished ∧ (enterHandler s₁ c).holder = none := by
    rw [hs₁]
    cases c with
    | startElevator | stopElevator => exact ⟨hpc, hfree⟩
    | issueRequest =>
      rw [enterHandler]
      split <;> exact ⟨hpc, hfree⟩
  obtain ⟨a, hwaits⟩ : ∃ a, (enterHandler s₁ c).waits a = true := by
    rw [hs₁]
    cases c with
    | startElevator => exact ⟨.start, decide_eq_true (List.mem_append_right _ List.mem_cons_self)⟩
    | stopElevator => exact ⟨.stop, decide_eq_true (List.mem_append_right _ List.mem_cons_self)⟩
    | issueRequest pType sFloor dFloor =>
      refine ⟨.insert (newPassenger s.sys pType sFloor dFloor), ?_⟩
      rw [enterHandler, if_neg (by rw [show refuses s.sys.b.e _ _ _ = false from href]; decide)]
      exact decide_eq_true (List.mem_append_right _ List.mem_cons_self)
  obtain ⟨t, ht, hbad⟩ := late_lock hkept.1 hwaits hkept.2
  exact ⟨[.enter c, .lock a], t, (Machine.runFrom_cons henter _).trans ht, hbad⟩

/-- A handler in progress at the end, wherever it is, touches something that is gone. -/
theorem late_handler (hpc : s.pc = .finished) (hcalls : ∀ a ∈ s.calls, a = .start ∨ a = .stop)
    (h : ¬ Idle s) : ∃ more t, unload.runFrom s more = some t ∧ ¬ Unloaded t := by
  cases hholder : s.holder with
  | some o => exact late_holder hpc hholder
  | none =>
    have hwaiting : ∀ a, s.waits a = true →
        ∃ more t, unload.runFrom s more = some t ∧ ¬ Unloaded t := by
      intro a ha
      obtain ⟨t, ht, hbad⟩ := late_lock hpc ha hholder
      exact ⟨[.lock a], t, ht, hbad⟩
    by_cases hnone : s.calls = []
    · by_cases hin : s.sys.inflight = []
      · by_cases hall : ∀ c ∈ s.entered, c.refused s.sys.b.e = true
        · exact absurd ⟨hall, hnone, hin, hholder⟩ h
        · push Not at hall
          obtain ⟨c, hc, href⟩ := hall
          exact late_enter hpc hholder hc (Bool.eq_false_iff.mpr href)
      · obtain ⟨p, hp⟩ := List.exists_mem_of_ne_nil _ hin
        exact hwaiting (.insert p) (decide_eq_true hp)
    · obtain ⟨a, ha⟩ := List.exists_mem_of_ne_nil _ hnone
      refine hwaiting a ?_
      rcases hcalls a ha with rfl | rfl <;> exact decide_eq_true ha

/-- A pointer that is cleared in somebody's way can go wrong: who was caught goes on after the
    end, or at once. -/
theorem disturbed (hr : unload.Reachable s) {x : Stub} {rest : List Stub}
    (hpc : s.pc = .unlink (x :: rest)) (h : ¬ Clear s x rest) :
    ∃ more t, unload.runFrom s (.unlink :: more) = some t ∧ ¬ Unloaded t := by
  by_cases htested : ∀ c ∈ s.tested, c.stub ≠ x
  · have hlast : ¬ (rest = [] → Idle s) := fun hidle => h ⟨htested, hidle⟩
    push Not at hlast
    obtain ⟨rfl, hbusy⟩ := hlast
    obtain ⟨more, t, ht, hfin, hsame⟩ := exit_runs hpc
    have hcalls : ∀ a ∈ t.calls, a = .start ∨ a = .stop := by
      rw [hsame.calls]
      exact calls_reachable hr
    obtain ⟨more', u, hu, hbad⟩ := late_handler hfin hcalls fun hidle => hbusy
      ⟨fun c hc => (hsame.refused c).symm.trans (hidle.entered c (hsame.entered ▸ hc)),
        hsame.calls ▸ hidle.calls, hsame.inflight ▸ hidle.inflight, hsame.holder ▸ hidle.holder⟩
    refine ⟨more ++ more', u, ?_, hbad⟩
    rw [← List.cons_append, Machine.runFrom_append, ht]
    exact hu
  · push Not at htested
    obtain ⟨c, hc, rfl⟩ := htested
    obtain ⟨t, ht, hbad⟩ := caught_between_reads hpc hc
    exact ⟨[.call c], t, ht, hbad⟩

end Late

/-! ## The unload -/

/-- **The unload.**  In every run in which no pointer is cleared in anybody's way, no call goes
    through `NULL`, nothing is touched after the end, and at the end every passenger ever allocated
    has been freed exactly once, all along the run.  And wherever a pointer in somebody's way is due
    to be cleared, some continuation that clears it breaks this. -/
theorem unload_is_clean {acts : List ExitAct} {s : Unload} (hrun : unload.run acts = some s) :
    (Undisturbed acts → ∀ pre t, pre <+: acts → unload.run pre = some t → Unloaded t) ∧
    (∀ x rest, s.pc = .unlink (x :: rest) → ¬ Clear s x rest →
      ∃ more t, unload.run (acts ++ .unlink :: more) = some t ∧ ¬ Unloaded t) := by
  constructor
  · intro h pre t hpre ht
    rcases draining_run h pre t hpre ht with hs | ⟨s₀, hs⟩
    · exact hs.unloaded
    · exact hs.unloaded
  · intro x rest hpc hclear
    obtain ⟨more, t, ht, hnot⟩ :=
      disturbed (Machine.reachable_iff_run.mpr ⟨acts, hrun⟩) hpc hclear
    refine ⟨more, t, ?_, hnot⟩
    rw [Machine.run, Machine.runFrom_append,
      show unload.runFrom unload.init acts = some s from hrun]
    exact ht

/-- A request is accepted and inserted.  After the end of the thread a request with bad arguments
    gets as far as its tests, and a `start_elevator` that has tested its pointer goes through while
    the first of the pointers is cleared. -/
def cleanExit : List ExitAct :=
  [.test (.issueRequest 1 1 2), .call (.issueRequest 1 1 2), .enter (.issueRequest 1 1 2),
    .lock (.insert ⟨0, .adult, 0, 1⟩), .work (.insert ⟨0, .adult, 0, 1⟩),
    .unlock (.insert ⟨0, .adult, 0, 1⟩), .kthreadStop, .test (.issueRequest 9 1 1),
    .call (.issueRequest 9 1 1), .test .startElevator, .unlink, .call .startElevator,
    .enter .startElevator, .lock .start, .work .start, .unlock .start, .unlink, .unlink]
    ++ List.replicate 20 .drain ++ [.enter (.issueRequest 9 1 1), .mutexDestroy]

theorem unload_is_clean_cleanExit :
    ∃ s, unload.run cleanExit = some s ∧ s.pc = .finished ∧ s.sys.nodes = 1 ∧
      s.drained = [⟨0, .adult, 0, 1⟩] ∧ Unloaded s := by
  have hrun := Machine.run_get (M := unload) cleanExit (by decide)
  refine ⟨_, hrun, by decide, by decide, by decide,
    (unload_is_clean hrun).1 ?_ _ _ List.prefix_rfl hrun⟩
  intro pre s x rest hpre hs
  -- the pointers are cleared by the actions after ten, sixteen and seventeen others
  obtain ⟨htake, hget⟩ := Machine.position hpre
  have hwhere : pre.length = 10 ∨ pre.length = 16 ∨ pre.length = 17 := by
    have hlt : pre.length < 40 := (List.getElem?_eq_some_iff.mp hget).1
    interval_cases pre.length <;> simp [cleanExit] at hget ⊢
  have hclears : (unload.run (cleanExit.take pre.length)).map Unload.clears = some true := by
    rcases hwhere with h | h | h <;> rw [h] <;> decide
  rw [← htake, hs] at hclears
  exact Unload.clears_iff.mp (Option.some.inj hclears) x rest

/-- A `stop_elevator` that has tested its pointer when it is cleared. -/
def staleStop : List ExitAct :=
  [.test .stopElevator, .kthreadStop, .unlink, .unlink, .unlink, .call .stopElevator]

theorem stale_stop_calls_null : ¬ ∀ acts s, unload.run acts = some s → Unloaded s := by
  intro hall
  have hrun := Machine.run_get (M := unload) staleStop (by decide)
  have hnulls := (hall staleStop _ hrun).called
  exact absurd hnulls (by decide)

end KernelModules.Part3
