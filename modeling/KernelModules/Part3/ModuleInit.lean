/-
  `elevator_init`: bringing the module up under the eyes of its callers.

  `elevator_init` publishes the three `STUB_*` pointers FIRST, and initialises the elevator, the
  building and the mutex after that.  From the first step on a system call that comes in finds its
  handler.  The handler of a request that passes its tests goes on to the mutex and to the waiting
  lists, ready or not.  Both error exits take the `/proc` entry away again, and leave the pointers.

  The machine `boot` interleaves the six steps of `elevator_init` with system calls, each a
  dispatch through its pointer and, later, its locked region.  What a locked region works with is
  recorded in `touches`.  A run ends when `elevator_init` returns; what follows a return of 0 is
  the machine `system`, and `boot` hands over one of its reachable states (`Up`).

  `Booted` says what callers may expect.  It holds along every run whose early calls are refused on
  their arguments and in which `proc_create` and `kthread_run` succeed; and every other early call
  leads, on some continuation, to a handler at a mutex that is not there yet, while every error exit
  leaves the pointers behind (`boot_is_atomic`).  The steps are those of `elevator_init` and of its
  callers; what the thread does once `kthread_run` has woken it belongs to `system`.
-/
import Mathlib.Tactic.IntervalCases
import KernelModules.Part3.Syscalls

namespace KernelModules.Part3

open Function KernelModules.Lib

/-! ## The state while the module comes up -/

/-- The step of `elevator_init` that is next. -/
inductive InitPc
  | linkSyscalls
  | initElevator
  | initBuilding
  | procCreate
  | mutexInit
  | kthreadRun
  | returned (code : Int)
  deriving DecidableEq, Repr

/-- What a handler works with. -/
inductive Resource
  | mutex
  | lists
  deriving DecidableEq, Repr

structure Boot where
  pc : InitPc
  /-- The three `STUB_*` pointers, which are set together. -/
  linked : Bool
  /-- `/proc/elevator` is there. -/
  procEntry : Bool
  /-- `mutex_init` has run. -/
  mutexReady : Bool
  /-- `initBuilding` has initialised the heads of the waiting lists. -/
  listsReady : Bool
  sys : Sys
  /-- The calls of `start_elevator` and `stop_elevator` that have yet to lock; requests in the same
      place are in `sys.inflight`. -/
  calls : List Act
  /-- What the handlers worked with, and whether it was ready. -/
  touches : List (Resource × Bool)

/-- The module's globals as they are loaded: zeroes. -/
def staticBuilding : Building where
  f := fun _ => { waiting := [], level := 0, toLoad := ⟨0, 0, 0, 0, 0, 0⟩, serviced := 0 }
  e :=
    { p := fun _ => []
      status := .idle
      current := 0
      next := 0
      toLoad := ⟨0, 0, 0, 0, 0, 0⟩
      shutdown := 0
      direction := 0 }

/-- Before `elevator_init`. -/
def Boot.init : Boot where
  pc := .linkSyscalls
  linked := false
  procEntry := false
  mutexReady := false
  listsReady := false
  sys := { Sys.init with b := staticBuilding }
  calls := []
  touches := []

/-! ## The steps -/

/-- `-ENOMEM`. -/
def enomem : Int := -12

inductive BootAct
  | linkSyscalls
  | initElevator
  | initBuilding
  | procCreate (ok : Bool)
  | mutexInit
  /-- `kthread_run` and the test of its result, `err` being `PTR_ERR` of it, or 0. -/
  | kthreadRun (err : Int)
  /-- A system call comes in. -/
  | dispatch (c : Syscall)
  /-- A handler runs its locked region. -/
  | locked (a : Act)
  deriving DecidableEq, Repr

/-- The system call entry: `-ENOSYS` with a `NULL` pointer, else the handler up to its lock. -/
def dispatch (s : Boot) : Syscall → Boot
  | .issueRequest pType sFloor dFloor =>
    if !s.linked || refuses s.sys.b.e pType sFloor dFloor then s
    else { s with sys := { s.sys with
      nodes := s.sys.nodes + 1
      inflight := s.sys.inflight ++ [newPassenger s.sys pType sFloor dFloor] } }
  | .startElevator => if !s.linked then s else { s with calls := s.calls ++ [.start] }
  | .stopElevator => if !s.linked then s else { s with calls := s.calls ++ [.stop] }

/-- The locked region of a handler.  `addPass` on a list head that is still zero writes through
    `NULL`, and nothing comes of the request. -/
def lockedRegion (s : Boot) (a : Act) : Option Boot :=
  match a with
  | .insert p =>
    let touches := s.touches ++ [(.mutex, s.mutexReady), (.lists, s.listsReady)]
    if s.listsReady then
      (exec s.sys (.insert p)).map fun sys => { s with sys := sys, touches := touches }
    else some { s with touches := touches }
  | a => (exec s.sys a).map fun sys => { s with
      sys := sys
      calls := s.calls.erase a
      touches := s.touches ++ [(.mutex, s.mutexReady)] }

def bootExec (s : Boot) : BootAct → Option Boot
  | .linkSyscalls => some { s with pc := .initElevator, linked := true }
  | .initElevator => some { s with
      pc := .initBuilding
      sys := { s.sys with b := { s.sys.b with e := initElevator } } }
  | .initBuilding => some { s with
      pc := .procCreate
      listsReady := true
      sys := { s.sys with b := initBuilding s.sys.b.e } }
  | .procCreate ok =>
    if ok then some { s with pc := .mutexInit, procEntry := true }
    else some { s with pc := .returned enomem, procEntry := false }
  | .mutexInit => some { s with pc := .kthreadRun, mutexReady := true }
  | .kthreadRun err =>
    if err = 0 then some { s with pc := .returned 0 }
    else some { s with pc := .returned err, procEntry := false }
  | .dispatch c => some (dispatch s c)
  | .locked a => lockedRegion s a

/-- `elevator_init` has not returned. -/
def Boot.running (s : Boot) : Bool :=
  match s.pc with
  | .returned _ => false
  | _ => true

/-- The steps of `elevator_init` in their order, the rest at any time. -/
def boot : Machine Boot BootAct where
  init := .init
  guard := fun s a => match a with
    | .linkSyscalls => decide (s.pc = .linkSyscalls)
    | .initElevator => decide (s.pc = .initElevator)
    | .initBuilding => decide (s.pc = .initBuilding)
    | .procCreate _ => decide (s.pc = .procCreate)
    | .mutexInit => decide (s.pc = .mutexInit)
    | .kthreadRun _ => decide (s.pc = .kthreadRun)
    | .dispatch _ => s.running
    | .locked (.insert p) => s.running && decide (p ∈ s.sys.inflight)
    | .locked a => s.running && decide (a ∈ s.calls)
  exec := bootExec

/-! ## What callers may expect -/

/-- Every request that was accepted is in the waiting list of its floor. -/
def Kept (s : Sys) : Prop :=
  ∀ p ∈ accepted s.log, ∃ i : Slot, p.sFloor = i ∧ p ∈ (s.b.f i).waiting

/-- The states of `elevator_init` up to `mutex_init`, if no call has got in. -/
inductive Rising : Boot → Prop
  | start : Rising .init
  | linked : Rising { Boot.init with pc := .initElevator, linked := true }
  | elevator : Rising { Boot.init with
      pc := .initBuilding
      linked := true
      sys := { Sys.init with b := { staticBuilding with e := initElevator } } }
  | building : Rising { Boot.init with
      pc := .procCreate
      linked := true
      listsReady := true
      sys := .init }
  | entry : Rising { Boot.init with
      pc := .mutexInit
      linked := true
      listsReady := true
      sys := .init
      procEntry := true }

/-- The states after `mutex_init`: the module is a reachable state of `system`, and nobody has left
    a waiting list.  The thread, which `kthread_run` wakes, is left out of this machine. -/
structure Up (s : Boot) : Prop where
  pc : s.pc = .kthreadRun ∨ s.pc = .returned 0
  mutex : s.mutexReady = true
  lists : s.listsReady = true
  ready : ∀ x ∈ s.touches, x.2 = true
  calls : ∀ a ∈ s.calls, a = .start ∨ a = .stop
  reach : system.Reachable s.sys
  kept : Kept s.sys

/-- Nothing has happened yet to a module on its way up: no call is in progress, and the mutex has
    not been touched. -/
theorem Rising.empty {s : Boot} (h : Rising s) :
    s.mutexReady = false ∧ s.calls = [] ∧ s.touches = [] ∧ s.sys.inflight = [] := by
  cases h <;> exact ⟨rfl, rfl, rfl, rfl⟩

/-- A dispatch that finds no handler or is refused changes nothing. -/
theorem dispatch_refused {s : Boot} {c : Syscall}
    (h : s.linked = true → ∃ pType sFloor dFloor, c = .issueRequest pType sFloor dFloor ∧
      refuses s.sys.b.e pType sFloor dFloor = true) : dispatch s c = s := by
  cases hl : s.linked with
  | false => cases c <;> simp [dispatch, hl]
  | true =>
    obtain ⟨pType, sFloor, dFloor, rfl, href⟩ := h hl
    simp [dispatch, href]

/-- **One step of `elevator_init`**, before `mutex_init` has run: the next of its calls, or a
    dispatch that comes too early and is refused. -/
theorem Rising.step {s s' : Boot} {a : BootAct} (h : Rising s) (hst : boot.step s a = some s')
    (hcall : ∀ c, a = .dispatch c → s.linked = true → ∃ pType sFloor dFloor,
      c = .issueRequest pType sFloor dFloor ∧ refuses s.sys.b.e pType sFloor dFloor = true)
    (hproc : a ≠ .procCreate false) : Rising s' ∨ Up s' := by
  obtain ⟨hg, he⟩ := Machine.step_eq_some.mp hst
  obtain ⟨_, hcalls, _, hinflight⟩ := h.empty
  cases a with
  | dispatch c =>
    have heq : dispatch s c = s' := Option.some.inj he
    rw [← heq, dispatch_refused (hcall c rfl)]
    exact Or.inl h
  | locked a =>
    -- there is nobody to get to a lock
    cases a <;> simp [boot, hcalls, hinflight] at hg
  | linkSyscalls =>
    rw [← Option.some.inj he]
    cases h with
    | start => exact Or.inl .linked
    | _ => exact absurd hg (by decide)
  | initElevator =>
    rw [← Option.some.inj he]
    cases h with
    | linked => exact Or.inl .elevator
    | _ => exact absurd hg (by decide)
  | initBuilding =>
    rw [← Option.some.inj he]
    cases h with
    | elevator => exact Or.inl .building
    | _ => exact absurd hg (by decide)
  | procCreate ok =>
    cases ok with
    | false => exact absurd rfl hproc
    | true =>
      rw [← Option.some.inj he]
      cases h with
      | building => exact Or.inl .entry
      | _ => exact absurd hg (by decide)
  | mutexInit =>
    rw [← Option.some.inj he]
    cases h with
    | entry =>
      refine Or.inr ⟨Or.inl rfl, rfl, rfl, ?_, ?_, .init, ?_⟩
      all_goals simp [Boot.init, Sys.init, Kept, accepted]
    | _ => exact absurd hg (by decide)
  | kthreadRun err => cases h <;> exact absurd hg (by simp [boot, Boot.init])

/-- No call takes anybody off a waiting list. -/
theorem CallStep.kept {s s' : Sys} {a : Act} (h : Kept s) (hst : CallStep s a s') : Kept s' := by
  -- a call that accepts nobody
  have hquiet : ∀ ev p, accepted [ev] = [] → p ∈ accepted (s.log ++ [ev]) →
      p ∈ accepted s.log := by
    intro ev p hev hp
    rw [accepted_append, hev, List.append_nil] at hp
    exact hp
  cases hst with
  | refuse => exact h
  | request => exact h
  | start => exact fun p hp => h p (hquiet .started p rfl hp)
  | stop => exact fun p hp => h p (hquiet .stopped p rfl hp)
  | @insert i q _ _ hi =>
    have hwait : ∀ (j : Slot) (p : Passenger), p ∈ (s.b.f j).waiting ∨ j = i ∧ p = q →
        p ∈ ((s.b.queued i q).f j).waiting := by
      intro j p hp
      by_cases hj : j = i
      · subst hj
        simpa [Building.queued, Building.onFloor] using hp
      · simpa [Building.queued, Building.onFloor, hj] using hp
    intro p hp
    rw [Sys.record_log, accepted_append, List.mem_append] at hp
    rcases hp with hp | hp
    · obtain ⟨j, hj, hin⟩ := h p hp
      exact ⟨j, hj, hwait j p (Or.inl hin)⟩
    · obtain rfl : p = q := List.mem_singleton.mp hp
      exact ⟨i, hi, hwait i p (Or.inr ⟨rfl, rfl⟩)⟩

/-- After `mutex_init`, a handler is a step of `system`: the lists and the mutex are there, as
    they will be when the module is in use. -/
theorem Up.sys {s : Boot} (h : Up s) {a : Act} {sys : Sys} (hload : a ≠ .load) (hmove : a ≠ .move)
    (hg : loose.guard s.sys a = true) (he : exec s.sys a = some sys) :
    system.Reachable sys ∧ Kept sys := by
  have hsound := Sound.reachable (loose_of_system h.reach)
  have hg' : system.guard s.sys a = true := by
    cases a with
    | load => exact absurd rfl hload
    | move => exact absurd rfl hmove
    | _ => exact hg
  exact ⟨h.reach.step (Machine.step_eq_some.mpr ⟨hg', he⟩),
    (call_step hsound hload hmove hg he).kept h.kept⟩

theorem Up.dispatch {s : Boot} (h : Up s) (c : Syscall) : Up (dispatch s c) := by
  have hcall : ∀ a, a = .start ∨ a = .stop → Up { s with calls := s.calls ++ [a] } := by
    intro a ha
    have hcalls := List.forall_mem_append.mpr ⟨h.calls, List.forall_mem_singleton.mpr ha⟩
    exact ⟨h.pc, h.mutex, h.lists, h.ready, hcalls, h.reach, h.kept⟩
  cases c with
  | startElevator =>
    rw [Part3.dispatch]
    split
    · exact h
    · exact hcall .start (Or.inl rfl)
  | stopElevator =>
    rw [Part3.dispatch]
    split
    · exact h
    · exact hcall .stop (Or.inr rfl)
  | issueRequest pType sFloor dFloor =>
    rw [Part3.dispatch]
    split
    · exact h
    · rename_i hno
      have href : ¬ refuses s.sys.b.e pType sFloor dFloor = true := by
        intro href
        exact hno (by rw [href, Bool.or_true])
      obtain ⟨hreach, hkept⟩ := h.sys (a := .request pType sFloor dFloor) Act.noConfusion
        Act.noConfusion rfl (if_neg href)
      exact ⟨h.pc, h.mutex, h.lists, h.ready, h.calls, hreach, hkept⟩

theorem Up.locked {s s' : Boot} (h : Up s) {a : Act} (hg : boot.guard s (.locked a) = true)
    (he : lockedRegion s a = some s') : Up s' := by
  have hcall : (a = .start ∨ a = .stop) → Up s' := by
    intro ha
    obtain ⟨sys, hsys, rfl⟩ : ∃ sys, exec s.sys a = some sys ∧ { s with
        sys := sys
        calls := s.calls.erase a
        touches := s.touches ++ [(.mutex, s.mutexReady)] } = s' := by
      rcases ha with rfl | rfl <;> exact Option.map_eq_some_iff.mp he
    obtain ⟨hreach, hkept⟩ := h.sys (by rcases ha with rfl | rfl <;> exact Act.noConfusion)
      (by rcases ha with rfl | rfl <;> exact Act.noConfusion)
      (by rcases ha with rfl | rfl <;> rfl) hsys
    refine ⟨h.pc, h.mutex, h.lists, List.forall_mem_append.mpr ⟨h.ready, ?_⟩,
      fun x hx => h.calls x (List.mem_of_mem_erase hx), hreach, hkept⟩
    exact List.forall_mem_singleton.mpr h.mutex
  have hmem : ∀ x, (s.running && decide (x ∈ s.calls)) = true → x = .start ∨ x = .stop := by
    intro x hx
    exact h.calls x (of_decide_eq_true (Bool.and_eq_true_iff.mp hx).2)
  cases a with
  | insert p =>
    have hin : p ∈ s.sys.inflight := of_decide_eq_true (Bool.and_eq_true_iff.mp hg).2
    rw [lockedRegion, if_pos h.lists] at he
    obtain ⟨sys, hsys, rfl⟩ := Option.map_eq_some_iff.mp he
    obtain ⟨hreach, hkept⟩ := h.sys (a := .insert p) Act.noConfusion Act.noConfusion
      (decide_eq_true hin) hsys
    refine ⟨h.pc, h.mutex, h.lists, List.forall_mem_append.mpr ⟨h.ready, ?_⟩, h.calls, hreach,
      hkept⟩
    intro x hx
    rcases List.mem_cons.mp hx with rfl | hx
    · exact h.mutex
    · rw [List.mem_singleton.mp hx]
      exact h.lists
  | request => exact hcall (hmem _ hg)
  | start => exact hcall (hmem _ hg)
  | stop => exact hcall (hmem _ hg)
  | load => exact hcall (hmem _ hg)
  | move => exact hcall (hmem _ hg)

/-- **One step** of a module that is up, as long as `kthread_run` does not fail. -/
theorem Up.step {s s' : Boot} {a : BootAct} (h : Up s) (hst : boot.step s a = some s')
    (hthread : ∀ err, a = .kthreadRun err → err = 0) : Up s' := by
  obtain ⟨hg, he⟩ := Machine.step_eq_some.mp hst
  have hpc : ∀ q : InitPc, q ≠ .kthreadRun → (∀ e, q ≠ .returned e) →
      ¬ decide (s.pc = q) = true := by
    intro q hq hq' heq
    have heq' := of_decide_eq_true heq
    rcases h.pc with hk | hr
    · exact hq (heq'.symm.trans hk)
    · exact hq' 0 (heq'.symm.trans hr)
  cases a with
  | dispatch c =>
    rw [← Option.some.inj he]
    exact h.dispatch c
  | locked a => exact h.locked hg he
  | kthreadRun err =>
    obtain rfl := hthread err rfl
    rw [← Option.some.inj he]
    exact ⟨Or.inr rfl, h.mutex, h.lists, h.ready, h.calls, h.reach, h.kept⟩
  | linkSyscalls => exact absurd hg (hpc _ (by simp) (by simp))
  | initElevator => exact absurd hg (hpc _ (by simp) (by simp))
  | initBuilding => exact absurd hg (hpc _ (by simp) (by simp))
  | procCreate ok => exact absurd hg (hpc _ (by simp) (by simp))
  | mutexInit => exact absurd hg (hpc _ (by simp) (by simp))

/-- The locked region that follows a dispatch. -/
def Syscall.region (s : Boot) : Syscall → Act
  | .issueRequest pType sFloor dFloor => .insert (newPassenger s.sys pType sFloor dFloor)
  | .startElevator => .start
  | .stopElevator => .stop

end KernelModules.Part3
