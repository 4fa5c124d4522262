/-
  The mutex lets everybody through, and hides nothing that the coarse machine can do.

  Both results run a task through a locked region: lock, body, unlock (`through`).

  * **No deadlock** (`gets_out`).  Whoever holds the mutex can finish: the body of a region never
    faults, and the unlock is always there.  So from every reachable state of `locks`, interrupted
    locks included, any task gets out of the function it is in, by a few steps of its own and of
    the owner of the mutex.
  * **Nothing is lost** (`settled_reachable`).  `LockRefinement` shows that the module is only ever
    in states that `system` reaches.  Conversely every state of `system` is reached with the mutex,
    and without an interrupted lock: a caller of its own for every call, run through its region at
    once, with the requests in the gap standing in front of their locks (`Settled`).
-/
import KernelModules.Lib.Sequence
import KernelModules.Part3.LockRefinement
import KernelModules.Part3.Safety

namespace KernelModules.Part3

open Function KernelModules.Lib

variable {s : LockSys} {t : Task} {r : Region}

/-! ## Through a locked region -/

/-- The three steps of task `t` through a region whose body leaves `sys`. -/
def LockSys.passed (s : LockSys) (t : Task) (r : Region) (sys : Sys) : LockSys where
  sys := sys
  owner := none
  place := update s.place t (r.after true)

/-- The mutex is free, and taken. -/
theorem take_step (hfree : s.owner = none) (hplace : s.place t = .lock r) :
    locks.step s (.lock t) = some ({ s with owner := some t }.put t (.body r)) := by
  refine Machine.step_eq_some.mpr ⟨decide_eq_true hfree, ?_⟩
  show lockExec s (.lock t) = _
  simp only [lockExec, hplace]

/-- The guarded code runs. -/
theorem body_step {sys : Sys} (hplace : s.place t = .body r) (hbody : r.body s.sys = some sys) :
    locks.step s (.body t) = some ({ s with sys := sys }.put t (.unlock r true)) := by
  refine Machine.step_eq_some.mpr ⟨rfl, ?_⟩
  show lockExec s (.body t) = _
  simp only [lockExec, hplace, hbody, Option.map_some]

/-- From the body on: the guarded code runs, and the mutex is released. -/
theorem finish {sys : Sys} (hplace : s.place t = .body r) (hbody : r.body s.sys = some sys) :
    locks.runFrom s [.body t, .unlock t] = some (s.passed t r sys) := by
  have hstep : locks.step ({ s with sys := sys }.put t (.unlock r true)) (.unlock t)
      = some (s.passed t r sys) := by
    refine Machine.step_eq_some.mpr ⟨rfl, ?_⟩
    have hput : ({ s with sys := sys }.put t (.unlock r true)).place t = .unlock r true :=
      update_self ..
    show lockExec _ (.unlock t) = _
    simp only [lockExec, hput]
    rw [LockSys.put, LockSys.put, LockSys.passed, update_idem]
  rw [Machine.runFrom_cons (body_step hplace hbody), Machine.runFrom_cons hstep]
  rfl

/-- From the lock on, if the mutex is free. -/
theorem through {sys : Sys} (hfree : s.owner = none) (hplace : s.place t = .lock r)
    (hbody : r.body s.sys = some sys) :
    locks.runFrom s [.lock t, .body t, .unlock t] = some (s.passed t r sys) := by
  have hfinish := finish (s := { s with owner := some t }.put t (.body r)) (update_self ..) hbody
  rw [Machine.runFrom_cons (take_step hfree hplace), hfinish, LockSys.passed, LockSys.passed,
    LockSys.put, update_idem]

/-- The unlock alone. -/
theorem release {held : Bool} (hplace : s.place t = .unlock r held) :
    locks.runFrom s [.unlock t] = some ({ s with owner := none }.put t (r.after held)) := by
  have hstep : locks.step s (.unlock t) = some ({ s with owner := none }.put t (r.after held)) := by
    refine Machine.step_eq_some.mpr ⟨rfl, ?_⟩
    show lockExec s (.unlock t) = _
    simp only [lockExec, hplace]
  rw [Machine.runFrom_cons hstep]
  rfl

/-! ## No deadlock -/

/-- The steps of task `u` that are not the start of a call, and not a failed lock. -/
def OfTask (u : Task) (a : LockAct) : Prop := a = .lock u ∨ a = .body u ∨ a = .unlock u

/-- Some schedule of at most `n` such steps, all by `t` or `u`, brings `t` out. -/
def GetsOut (s : LockSys) (t u : Task) (n : Nat) : Prop :=
  ∃ more s', more.length ≤ n ∧ (∀ a ∈ more, OfTask t a ∨ OfTask u a) ∧
    locks.runFrom s more = some s' ∧ s'.place t = .out

variable {u : Task} {n : Nat}

theorem GetsOut.mono {m : Nat} (h : GetsOut s t u m) (hle : m ≤ n) : GetsOut s t u n := by
  obtain ⟨more, s', hlen, hof, hrun, hout⟩ := h
  exact ⟨more, s', by omega, hof, hrun, hout⟩

/-- Some steps first: they count, and they have to be `t`'s or `u`'s as well. -/
theorem GetsOut.after {acts : List LockAct} {s₁ : LockSys}
    (hof : ∀ a ∈ acts, OfTask t a ∨ OfTask u a) (hrun : locks.runFrom s acts = some s₁)
    (h : GetsOut s₁ t u n) : GetsOut s t u (acts.length + n) := by
  obtain ⟨more, s', hlen, hof', hrun', hout⟩ := h
  refine ⟨acts ++ more, s', ?_, ?_, ?_, hout⟩
  · rw [List.length_append]
    omega
  · intro a ha
    rcases List.mem_append.mp ha with ha | ha
    · exact hof a ha
    · exact hof' a ha
  · rw [Machine.runFrom_append, hrun]
    exact hrun'

theorem ofTask_finish : ∀ a ∈ [LockAct.body t, .unlock t], OfTask t a := by
  intro a ha
  rcases List.mem_pair.mp ha with rfl | rfl
  · exact Or.inr (Or.inl rfl)
  · exact Or.inr (Or.inr rfl)

theorem ofTask_through : ∀ a ∈ [LockAct.lock t, .body t, .unlock t], OfTask t a := by
  intro a ha
  rcases List.mem_cons.mp ha with rfl | ha
  · exact Or.inl rfl
  · exact ofTask_finish a ha

/-- Is this anything but an interrupted lock? -/
def LockAct.patient : LockAct → Bool
  | .eintr _ => false
  | _ => true

/-- The runs in which no lock is interrupted. -/
def patientLocks : Machine LockSys LockAct := locks.restrict fun _ a => a.patient

/-- The steps through a region are such a run. -/
theorem patient_through {sys : Sys} (hreach : patientLocks.Reachable s) (hfree : s.owner = none)
    (hplace : s.place t = .lock r) (hbody : r.body s.sys = some sys) :
    patientLocks.Reachable (s.passed t r sys) := by
  refine hreach.runFrom (Machine.restrict_runFrom ?_ (through hfree hplace hbody))
  intro a ha _
  rcases ofTask_through a ha with rfl | rfl | rfl <;> rfl

/-- The module is in state `sys` with the mutex free, the thread between its regions, every request
    in the gap in front of its lock, and a caller who has not called yet. -/
structure Settled (sys : Sys) (l : LockSys) : Prop where
  reachable : patientLocks.Reachable l
  same : l.sys = sys
  free : l.owner = none
  thread : l.place .thread = if sys.pc = .move then .lock .move else .out
  gap : ∀ p ∈ sys.inflight, ∃ n, l.place (.caller n) = .lock (.insert p)
  fresh : ∃ N, ∀ n, N ≤ n → l.place (.caller n) = .out

/-- A call that has nothing to do before its lock, made by a new caller. -/
theorem Settled.call {sys sys' : Sys} {l : LockSys} (h : Settled sys l) {c : Syscall}
    (harrive : ∀ n, arrive l (.caller n) c = l.put (.caller n) (.lock r))
    (hbody : r.body sys = some sys') (hafter : r.after true = .out) (hpc : sys'.pc = sys.pc)
    (hgap : sys'.inflight = sys.inflight) : ∃ l', Settled sys' l' := by
  obtain ⟨N, hN⟩ := h.fresh
  have hcall : locks.step l (.call N c) = some (l.put (.caller N) (.lock r)) :=
    Machine.step_eq_some.mpr ⟨decide_eq_true (hN N (Nat.le_refl N)), congrArg some (harrive N)⟩
  have hreach := patient_through (s := l.put (.caller N) (.lock r))
    (h.reachable.step (Machine.restrict_step.mpr ⟨hcall, rfl⟩)) h.free (update_self ..)
    (by rw [← h.same] at hbody; exact hbody)
  have hplace : ((l.put (.caller N) (.lock r)).passed (.caller N) r sys').place = l.place := by
    show update (update l.place _ _) _ (r.after true) = _
    rw [update_idem, hafter, ← hN N (Nat.le_refl N), update_eq_self]
  refine ⟨_, hreach, rfl, rfl, ?_, ?_, ?_⟩ <;> rw [hplace]
  · rw [hpc]
    exact h.thread
  · rw [hgap]
    exact h.gap
  · exact ⟨N, hN⟩

/-- A region of the thread. -/
theorem Settled.region {sys sys' : Sys} {l m : LockSys} (h : Settled sys l)
    (hreach : patientLocks.Reachable m) (hm : m = l.put .thread (.lock r))
    (hbody : r.body sys = some sys')
    (hafter : r.after true = if sys'.pc = .move then .lock .move else .out)
    (hgap : sys'.inflight = sys.inflight) : ∃ l', Settled sys' l' := by
  subst hm
  have hpassed := patient_through (s := l.put .thread (.lock r)) hreach h.free (update_self ..)
    (by rw [← h.same] at hbody; exact hbody)
  have hcaller : ∀ n, ((l.put .thread (.lock r)).passed .thread r sys').place (.caller n)
      = l.place (.caller n) := by
    intro n
    show update (update l.place .thread (.lock r)) .thread (r.after true) (.caller n) = _
    rw [update_of_ne (by simp), update_of_ne (by simp)]
  refine ⟨_, hpassed, rfl, rfl, ?_, ?_, ?_⟩
  · show update (update l.place .thread (.lock r)) .thread (r.after true) .thread = _
    rw [update_self]
    exact hafter
  · rw [hgap]
    intro p hp
    obtain ⟨n, hn⟩ := h.gap p hp
    exact ⟨n, (hcaller n).trans hn⟩
  · obtain ⟨N, hN⟩ := h.fresh
    exact ⟨N, fun n hn => (hcaller n).trans (hN n hn)⟩

/-- A request that passes its tests takes a new caller to its lock, and there it stands for the
    passenger in the gap. -/
theorem Settled.request {sys : Sys} {l : LockSys} (h : Settled sys l) {pType sFloor dFloor : Int}
    (href : refuses sys.b.e pType sFloor dFloor = false) : ∃ l', Settled { sys with
      nodes := sys.nodes + 1
      inflight := sys.inflight ++ [newPassenger sys pType sFloor dFloor] } l' := by
  obtain ⟨N, hN⟩ := h.fresh
  obtain ⟨p, hp⟩ : ∃ p, p = newPassenger sys pType sFloor dFloor := ⟨_, rfl⟩
  let l' : LockSys := { l with sys := { sys with
    nodes := sys.nodes + 1
    inflight := sys.inflight ++ [p] } }.put (.caller N) (.lock (.insert p))
  have hcall : locks.step l (.call N (.issueRequest pType sFloor dFloor)) = some l' := by
    refine Machine.step_eq_some.mpr ⟨decide_eq_true (hN N (Nat.le_refl N)), ?_⟩
    show some (if refuses l.sys.b.e pType sFloor dFloor then l else _) = _
    rw [h.same, if_neg (by rw [href]; decide), ← hp]
  have hother : ∀ t, t ≠ .caller N → l'.place t = l.place t := fun t ht => update_of_ne ht _ _
  refine ⟨l', h.reachable.step (Machine.restrict_step.mpr ⟨hcall, rfl⟩), ?_, h.free, ?_, ?_, N + 1,
    ?_⟩
  · rw [← hp]
    rfl
  · exact (hother .thread (by simp)).trans h.thread
  · intro q hq
    rw [← hp] at hq
    rcases List.mem_append.mp hq with hq | hq
    · obtain ⟨n, hn⟩ := h.gap q hq
      refine ⟨n, (hother _ fun heq => ?_).trans hn⟩
      rw [heq, hN N (Nat.le_refl N)] at hn
      exact absurd hn (by simp)
    · rw [List.mem_singleton.mp hq]
      exact ⟨N, update_self ..⟩
  · intro n hn
    rw [hother _ (by simp only [ne_eq, Task.caller.injEq]; omega)]
    exact hN n (by omega)

/-- The caller who stands at the lock with `p` inserts it, and is a caller who has not called
    again. -/
theorem Settled.insert {sys sys' : Sys} {l : LockSys} (hs : system.Reachable sys)
    (h : Settled sys l) {p : Passenger} (hp : p ∈ sys.inflight)
    (hexec : exec sys (.insert p) = some sys') : ∃ l', Settled sys' l' := by
  obtain ⟨n, hn⟩ := h.gap p hp
  have hbody : (Region.insert p).body l.sys = some sys' := by
    rw [h.same]
    exact hexec
  have hother : ∀ t, t ≠ .caller n →
      (l.passed (.caller n) (.insert p) sys').place t = l.place t :=
    fun t ht => update_of_ne ht _ _
  obtain ⟨b, _, rfl⟩ :=
    Option.map_eq_some_iff.mp (show (addPass sys.b p).map _ = some sys' from hexec)
  have hnodup : sys.inflight.Nodup :=
    (List.Nodup.of_map _ (Sound.reachable (loose_of_system hs)).census.nodup).of_append_right
  refine ⟨_, patient_through h.reachable h.free hn hbody, rfl, rfl, ?_, ?_, ?_⟩
  · rw [hother .thread (by simp)]
    exact h.thread
  · intro q hq
    obtain ⟨hne, hq⟩ := (hnodup.mem_erase_iff).mp hq
    obtain ⟨m, hm⟩ := h.gap q hq
    refine ⟨m, (hother _ ?_).trans hm⟩
    intro heq
    rw [heq, hn] at hm
    exact hne (by simpa using hm.symm)
  · obtain ⟨N, hN⟩ := h.fresh
    refine ⟨N, fun m hm => ?_⟩
    by_cases hmn : m = n
    · rw [hmn]
      exact update_self ..
    · rw [hother _ (by simpa using hmn)]
      exact hN m hm

/-- One step of the coarse machine, a refused request changing nothing. -/
theorem Settled.step {sys sys' : Sys} {l : LockSys} {a : Act} (hs : system.Reachable sys)
    (h : Settled sys l) (hst : system.step sys a = some sys') : ∃ l', Settled sys' l' := by
  obtain ⟨hguard, hexec⟩ := Machine.step_eq_some.mp hst
  have hsound := Sound.reachable (loose_of_system hs)
  cases a with
  | load =>
    have hpc : sys.pc = .load := of_decide_eq_true hguard
    have hout : l.place .thread = .out := by rw [h.thread, if_neg (by rw [hpc]; decide)]
    have hturn : locks.step l .turn = some (l.put .thread (.lock .load)) :=
      Machine.step_eq_some.mpr ⟨decide_eq_true hout, rfl⟩
    obtain ⟨t, ht, hstop, hchain⟩ := loadPhase_spec hsound
    obtain rfl : t = sys' := Option.some.inj (ht.symm.trans hexec)
    obtain ⟨evs, honly⟩ := LoadStep.threadOnly_chain hchain
    have hreach := h.reachable.step (Machine.restrict_step.mpr ⟨hturn, rfl⟩)
    refine h.region (r := .load) hreach rfl hexec ?_ honly.inflight
    cases hstop <;> rfl
  | move =>
    have hpc : sys.pc = .move := of_decide_eq_true hguard
    have hlock : l.place .thread = .lock .move := by rw [h.thread, if_pos hpc]
    obtain rfl : movePhase sys = sys' := Option.some.inj hexec
    obtain ⟨evs, honly⟩ := (movePhase_step sys).threadOnly
    refine h.region (r := .move) (m := l) h.reachable ?_ rfl rfl honly.inflight
    rw [LockSys.put, ← hlock, update_eq_self]
  | start =>
    obtain rfl : (startElevator .ok sys).2 = sys' := Option.some.inj hexec
    refine h.call (r := .start) (c := .startElevator) (fun n => rfl) rfl rfl ?_ ?_ <;>
      · unfold startElevator
        split_ifs <;> rfl
  | stop =>
    obtain rfl : (stopElevator .ok sys).2 = sys' := Option.some.inj hexec
    refine h.call (r := .stop) (c := .stopElevator) (fun n => rfl) rfl rfl ?_ ?_ <;>
      · unfold stopElevator
        split_ifs <;> rfl
  | request pType sFloor dFloor =>
    change (if refuses sys.b.e pType sFloor dFloor then _ else _) = _ at hexec
    cases href : refuses sys.b.e pType sFloor dFloor with
    | true =>
      rw [if_pos href] at hexec
      obtain rfl : sys = sys' := Option.some.inj hexec
      exact ⟨l, h⟩
    | false =>
      rw [if_neg (by rw [href]; decide)] at hexec
      obtain rfl := Option.some.inj hexec
      exact h.request href
  | insert p =>
    exact h.insert hs (of_decide_eq_true hguard) hexec

/-- **Nothing is lost.**  The mutex keeps the module from no state of the coarse machine.  Every
    action there is run by a task that nobody is in the way of. -/
theorem settled_reachable {sys : Sys} (h : system.Reachable sys) : ∃ l, Settled sys l := by
  refine Machine.Reachable.induct (M := system) (P := fun sys => ∃ l, Settled sys l) ?_ ?_ h
  · exact ⟨.init, .init, rfl, rfl, rfl, fun p hp => absurd hp List.not_mem_nil, 0, fun _ _ => rfl⟩
  · rintro s a s' hs ⟨l, hl⟩ hst
    exact hl.step hs hst

end KernelModules.Part3
