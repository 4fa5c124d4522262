/-
  The mutex: who holds it, who releases it, and who is inside.

  All five functions that take `e_tp.mutx` do it in the same way,

      if (mutex_lock_interruptible(&e_tp.mutx) == 0)
          body
      mutex_unlock(&e_tp.mutx);

  with the unlock AFTER the `if` and not in it.  Here the lock, the body and the unlock are three
  steps, taken in any interleaving by the elevator thread and any number of callers, and a caller's
  lock may fail with `-EINTR`.

  A caller whose lock fails goes on to release a mutex it does not hold.  While somebody else is
  inside, that lets a third party in.  So the discipline — every unlock by the owner, at most one
  task inside — holds in exactly the runs in which no lock is interrupted (`disciplined_run`), and
  the schedule `twoInside` ends with two tasks inside.
-/
import KernelModules.Part3.Syscalls

namespace KernelModules.Part3

open Function KernelModules.Lib

/-! ## Tasks and places -/

/-- The elevator thread, or one of the processes that call in. -/
inductive Task
  | thread
  | caller (n : Nat)
  deriving DecidableEq, Repr

/-- The six locked regions, a request with the passenger it has filled in. -/
inductive Region
  /-- The first region of `runElevator`. -/
  | load
  /-- The second region of `runElevator`. -/
  | move
  /-- `issue_request`. -/
  | insert (p : Passenger)
  /-- `start_elevator`. -/
  | start
  /-- `stop_elevator`. -/
  | stop
  /-- `elevator_open`. -/
  | print
  deriving DecidableEq, Repr

/-- Where a task is. -/
inductive Place
  /-- In none of the functions, or past its last unlock. -/
  | out
  /-- About to call `mutex_lock_interruptible`. -/
  | lock (r : Region)
  /-- `mutex_lock_interruptible` returned 0. -/
  | body (r : Region)
  /-- About to call `mutex_unlock`; `held` says whether the lock was taken. -/
  | unlock (r : Region) (held : Bool)
  deriving DecidableEq, Repr

/-- In a region guarded by a successful lock. -/
def Place.inside : Place → Bool
  | .body _ => true
  | .unlock _ held => held
  | _ => false

/-- The module, its mutex, and where everybody is. -/
structure LockSys where
  sys : Sys
  owner : Option Task
  place : Task → Place

/-- What the body of a region does to the module, as one step; printing changes nothing.  Here it
    matters only who is where, and when.  In the runs without an interrupted lock the module itself
    is as if the bodies were run statement by statement, and in other runs it need not be: that is
    the subject of `Atomic`. -/
def Region.body (s : Sys) : Region → Option Sys
  | .load => exec s .load
  | .move => exec s .move
  | .insert p => exec s (.insert p)
  | .start => exec s .start
  | .stop => exec s .stop
  | .print => some s

/-- Where the code goes on after `mutex_unlock`.  The thread goes from its first region to its
    second; `elevator_open` tries again until it has printed (`printStats` never returns 0). -/
def Region.after (r : Region) (held : Bool) : Place :=
  match r with
  | .load => .lock .move
  | .print => if held then .out else .lock .print
  | _ => .out

/-! ## The machine -/

/-- What a task does next. -/
inductive LockAct
  /-- The thread starts another turn of its loop. -/
  | turn
  /-- A process makes a system call. -/
  | call (n : Nat) (c : Syscall)
  /-- A process opens `/proc/elevator`. -/
  | elevatorOpen (n : Nat)
  /-- `mutex_lock_interruptible` takes the mutex. -/
  | lock (t : Task)
  /-- `mutex_lock_interruptible` fails with `-EINTR`. -/
  | eintr (n : Nat)
  /-- The guarded code runs. -/
  | body (t : Task)
  /-- `mutex_unlock`. -/
  | unlock (t : Task)
  deriving DecidableEq, Repr

/-- Task `t` is now at `p`. -/
def LockSys.put (s : LockSys) (t : Task) (p : Place) : LockSys :=
  { s with place := update s.place t p }

/-- A system call up to its lock.  Only `issue_request` does something before it. -/
def arrive (s : LockSys) (t : Task) : Syscall → LockSys
  | .issueRequest pType sFloor dFloor =>
    if refuses s.sys.b.e pType sFloor dFloor then s
    else
      let p := newPassenger s.sys pType sFloor dFloor
      { s with sys := { s.sys with
          nodes := s.sys.nodes + 1
          inflight := s.sys.inflight ++ [p] } }.put t (.lock (.insert p))
  | .startElevator => s.put t (.lock .start)
  | .stopElevator => s.put t (.lock .stop)

/-- The steps. -/
def lockExec (s : LockSys) : LockAct → Option LockSys
  | .turn => some (s.put .thread (.lock .load))
  | .call n c => some (arrive s (.caller n) c)
  | .elevatorOpen n => some (s.put (.caller n) (.lock .print))
  | .lock t => match s.place t with
    | .lock r => some ({ s with owner := some t }.put t (.body r))
    | _ => none
  | .eintr n => match s.place (.caller n) with
    | .lock r => some (s.put (.caller n) (.unlock r false))
    | _ => none
  | .body t => match s.place t with
    | .body r => (r.body s.sys).map fun sys => { s with sys := sys }.put t (.unlock r true)
    | _ => none
  | .unlock t => match s.place t with
    | .unlock r held => some ({ s with owner := none }.put t (r.after held))
    | _ => none

/-- The module after `elevator_init`, and nobody anywhere. -/
def LockSys.init : LockSys where
  sys := .init
  owner := none
  place := fun _ => .out

/-- Any interleaving: a function is entered from outside, the mutex is taken when it is free. -/
def locks : Machine LockSys LockAct where
  init := .init
  guard := fun s a => match a with
    | .turn => decide (s.place .thread = .out)
    | .call n _ => decide (s.place (.caller n) = .out)
    | .elevatorOpen n => decide (s.place (.caller n) = .out)
    | .lock _ => decide (s.owner = none)
    | _ => true
  exec := lockExec

/-! ## What one step can do -/

/-- The actions that enter a function. -/
def LockAct.enters : LockAct → Bool
  | .turn => true
  | .call _ _ => true
  | .elevatorOpen _ => true
  | _ => false

/-- A step moves one task.  `sys` is what it leaves of the module. -/
inductive LockStep (s : LockSys) : LockAct → LockSys → Prop
  /-- A request is refused. -/
  | refuse {n : Nat} {c : Syscall} : LockStep s (.call n c) s
  /-- A task comes to a lock. -/
  | arrive {a : LockAct} {t : Task} {r : Region} : a.enters = true → s.place t = .out →
      (t = .thread ∧ r = .load ∨ (∃ n, t = .caller n) ∧ (r = .start ∨ r = .stop ∨ r = .print)) →
      LockStep s a (s.put t (.lock r))
  /-- `issue_request` comes to its lock, with a passenger. -/
  | request {n : Nat} {pType sFloor dFloor : Int} : s.place (.caller n) = .out →
      refuses s.sys.b.e pType sFloor dFloor = false →
      LockStep s (.call n (.issueRequest pType sFloor dFloor))
        ({ s with sys := { s.sys with
            nodes := s.sys.nodes + 1
            inflight := s.sys.inflight ++ [newPassenger s.sys pType sFloor dFloor] } }.put
          (.caller n) (.lock (.insert (newPassenger s.sys pType sFloor dFloor))))
  | take {t : Task} {r : Region} : s.owner = none → s.place t = .lock r →
      LockStep s (.lock t) ({ s with owner := some t }.put t (.body r))
  | fail {n : Nat} {r : Region} : s.place (.caller n) = .lock r →
      LockStep s (.eintr n) (s.put (.caller n) (.unlock r false))
  | body {t : Task} {r : Region} {sys : Sys} : s.place t = .body r → r.body s.sys = some sys →
      LockStep s (.body t) ({ s with sys := sys }.put t (.unlock r true))
  | release {t : Task} {r : Region} {held : Bool} : s.place t = .unlock r held →
      LockStep s (.unlock t) ({ s with owner := none }.put t (r.after held))

theorem lock_step {s s' : LockSys} {a : LockAct} (h : locks.step s a = some s') :
    LockStep s a s' := by
  obtain ⟨hg, he⟩ := Machine.step_eq_some.mp h
  cases a with
  | turn =>
    have hout : s.place .thread = .out := of_decide_eq_true hg
    rw [← Option.some.inj he]
    exact .arrive rfl hout (Or.inl ⟨rfl, rfl⟩)
  | elevatorOpen n =>
    have hout : s.place (.caller n) = .out := of_decide_eq_true hg
    rw [← Option.some.inj he]
    exact .arrive rfl hout (Or.inr ⟨⟨n, rfl⟩, by simp⟩)
  | call n c =>
    have hout : s.place (.caller n) = .out := of_decide_eq_true hg
    rw [← Option.some.inj he]
    cases c with
    | startElevator => exact .arrive rfl hout (Or.inr ⟨⟨n, rfl⟩, by simp⟩)
    | stopElevator => exact .arrive rfl hout (Or.inr ⟨⟨n, rfl⟩, by simp⟩)
    | issueRequest pType sFloor dFloor =>
      rw [arrive]
      cases href : refuses s.sys.b.e pType sFloor dFloor with
      | true => exact .refuse
      | false => exact .request hout href
  | lock t =>
    have hfree : s.owner = none := of_decide_eq_true hg
    change (match s.place t with | .lock r => _ | _ => none) = _ at he
    split at he
    · rename_i r hp
      rw [← Option.some.inj he]
      exact .take hfree hp
    · exact absurd he (by simp)
  | eintr n =>
    change (match s.place (.caller n) with | .lock r => _ | _ => none) = _ at he
    split at he
    · rename_i r hp
      rw [← Option.some.inj he]
      exact .fail hp
    · exact absurd he (by simp)
  | body t =>
    change (match s.place t with | .body r => _ | _ => none) = _ at he
    split at he
    · rename_i r hp
      obtain ⟨sys, hsys, rfl⟩ := Option.map_eq_some_iff.mp he
      exact .body hp hsys
    · exact absurd he (by simp)
  | unlock t =>
    change (match s.place t with | .unlock r held => _ | _ => none) = _ at he
    split at he
    · rename_i r held hp
      rw [← Option.some.inj he]
      exact .release hp
    · exact absurd he (by simp)

/-! ## The discipline -/

/-- In every state along the schedule at most one task is inside, and every unlock is made by the
    task that owns the mutex. -/
structure Disciplined (acts : List LockAct) : Prop where
  exclusive : ∀ pre s, pre <+: acts → locks.run pre = some s →
    ∀ t t', (s.place t).inside = true → (s.place t').inside = true → t = t'
  unlocks : ∀ pre s t, pre ++ [.unlock t] <+: acts → locks.run pre = some s → s.owner = some t

/-- The owner is who is inside, and nobody is about to unlock without having locked. -/
structure Clean (s : LockSys) : Prop where
  owner : ∀ t, (s.place t).inside = true ↔ s.owner = some t
  held : ∀ t r, s.place t ≠ .unlock r false

theorem Clean.init : Clean .init := by
  constructor
  · intro t
    exact iff_of_false (by simp [LockSys.init, Place.inside]) (by simp [LockSys.init])
  · intro t r
    simp [LockSys.init]

/-- A task that moves without crossing the edge of a region leaves the owner as it was, and the
    others too. -/
theorem Clean.stay {s : LockSys} (h : Clean s) {t : Task} {p : Place} (sys : Sys)
    (hin : p.inside = (s.place t).inside) (hp : ∀ r, p ≠ .unlock r false) :
    Clean ({ s with sys := sys }.put t p) := by
  constructor
  · intro u
    show ((update s.place t p) u).inside = true ↔ s.owner = some u
    rw [← h.owner u]
    by_cases hu : u = t
    · rw [hu, update_self, hin]
    · rw [update_of_ne hu]
  · intro u r
    show (update s.place t p) u ≠ _
    by_cases hu : u = t
    · rw [hu, update_self]
      exact hp r
    · rw [update_of_ne hu]
      exact h.held u r

theorem Clean.take {s : LockSys} (h : Clean s) (hfree : s.owner = none) (t : Task) (r : Region) :
    Clean ({ s with owner := some t }.put t (.body r)) := by
  constructor
  · intro u
    show ((update s.place t (.body r)) u).inside = true ↔ some t = some u
    by_cases hu : u = t
    · rw [hu, update_self]
      exact iff_of_true rfl rfl
    · rw [update_of_ne hu, h.owner u, hfree]
      exact iff_of_false (by simp) fun heq => hu (Option.some.inj heq).symm
  · intro u r'
    show (update s.place t (.body r)) u ≠ _
    by_cases hu : u = t
    · rw [hu, update_self]
      exact Place.noConfusion
    · rw [update_of_ne hu]
      exact h.held u r'

theorem Clean.release {s : LockSys} (h : Clean s) {t : Task} {p : Place} (hown : s.owner = some t)
    (hp : p.inside = false) (hp' : ∀ r, p ≠ .unlock r false) :
    Clean ({ s with owner := none }.put t p) := by
  constructor
  · intro u
    show ((update s.place t p) u).inside = true ↔ none = some u
    refine iff_of_false ?_ (by simp)
    by_cases hu : u = t
    · rw [hu, update_self, hp]
      decide
    · rw [update_of_ne hu, h.owner u, hown]
      exact fun heq => hu (Option.some.inj heq).symm
  · intro u r
    show (update s.place t p) u ≠ _
    by_cases hu : u = t
    · rw [hu, update_self]
      exact hp' r
    · rw [update_of_ne hu]
      exact h.held u r

/-- Past its unlock a task is outside, and not about to unlock again. -/
theorem Region.after_outside (r : Region) (held : Bool) :
    (r.after held).inside = false ∧ ∀ r', r.after held ≠ .unlock r' false := by
  cases r <;> cases held <;> simp [Region.after, Place.inside]

/-- A clean state stays clean, unless a lock is interrupted.  The unlock is then the owner's,
    because whoever is at it has locked. -/
theorem LockStep.clean {s s' : LockSys} {a : LockAct} (h : Clean s) (hst : LockStep s a s')
    (ha : ∀ n, a ≠ .eintr n) : Clean s' := by
  cases hst with
  | refuse => exact h
  | arrive _ hout => exact h.stay s.sys (by rw [hout]; rfl) (by simp)
  | request hout => exact h.stay _ (by rw [hout]; rfl) (by simp)
  | take hfree => exact h.take hfree _ _
  | @fail n => exact absurd rfl (ha n)
  | body hp => exact h.stay _ (by rw [hp]; rfl) (by simp)
  | @release t r held hp =>
    have hheld : held = true := by
      cases held with
      | true => rfl
      | false => exact absurd hp (h.held t r)
    have hin : (s.place t).inside = true := by rw [hp, hheld]; rfl
    obtain ⟨hout, hne⟩ := r.after_outside held
    exact h.release ((h.owner t).mp hin) hout hne

/-- All along a schedule without an interrupted lock the state is clean. -/
theorem clean_run {acts : List LockAct} (h : ∀ n, .eintr n ∉ acts) :
    ∀ pre s, pre <+: acts → locks.run pre = some s → Clean s := by
  refine Machine.prefix_invariant (M := locks) Clean.init ?_
  intro pre a s s' hpre _ hs hst
  apply (lock_step hst).clean hs
  rintro n rfl
  exact h n (hpre.subset (List.mem_append_right _ List.mem_cons_self))

/-- A step of the schedule, with the states before and after it. -/
theorem step_of_run {acts pre : List LockAct} {a : LockAct} {s s₁ : LockSys}
    (hrun : locks.run acts = some s) (hpre : pre ++ [a] <+: acts) (hs : locks.run pre = some s₁) :
    ∃ s₂, LockStep s₁ a s₂ := by
  obtain ⟨s₂, hs₂⟩ := Machine.run_initial hrun hpre
  rw [Machine.run_concat, hs, Option.bind_some] at hs₂
  exact ⟨s₂, lock_step hs₂⟩

/-- Without an interrupted lock the run is disciplined: every state along it is clean, and a clean
    state is all that is asked for. -/
theorem disciplined_of_uninterrupted {acts : List LockAct} {s : LockSys}
    (hrun : locks.run acts = some s) (h : ∀ n, .eintr n ∉ acts) : Disciplined acts := by
  constructor
  · intro pre s₁ hpre hs₁ t t' ht ht'
    have hclean := clean_run h pre s₁ hpre hs₁
    exact Option.some.inj (((hclean.owner t).mp ht).symm.trans ((hclean.owner t').mp ht'))
  · intro pre s₁ t hpre hs₁
    have hclean := clean_run h pre s₁ ((List.prefix_append pre _).trans hpre) hs₁
    obtain ⟨s₂, hst⟩ := step_of_run hrun hpre hs₁
    cases hst with
    | arrive henter => exact absurd henter (by simp [LockAct.enters])
    | @release _ r held hp =>
      have hin : (s₁.place t).inside = true := by
        rw [hp]
        cases held with
        | true => rfl
        | false => exact absurd hp (hclean.held t r)
      exact (hclean.owner t).mp hin

/-- In every run, an owner is inside: the mutex is taken on the way in and freed on the way out. -/
def OwnerInside (s : LockSys) : Prop := ∀ t, s.owner = some t → (s.place t).inside = true

/-- **One step**, interrupted locks included: an owner comes in with the lock and is forgotten
    with the unlock, whoever makes it. -/
theorem LockStep.ownerInside {s s' : LockSys} {a : LockAct} (h : OwnerInside s)
    (hst : LockStep s a s') : OwnerInside s' := by
  have hmove : ∀ {t p} (sys : Sys), p.inside = (s.place t).inside →
      OwnerInside ({ s with sys := sys }.put t p) := by
    intro t p sys hin u hu
    show ((update s.place t p) u).inside = true
    by_cases hut : u = t
    · rw [hut, update_self, hin]
      exact h t (hut ▸ hu)
    · rw [update_of_ne hut]
      exact h u hu
  cases hst with
  | refuse => exact h
  | arrive _ hout => exact hmove s.sys (by rw [hout]; rfl)
  | request hout => exact hmove _ (by rw [hout]; rfl)
  | fail hp => exact hmove s.sys (by rw [hp]; rfl)
  | body hp => exact hmove _ (by rw [hp]; rfl)
  | @take t r hfree =>
    intro u hu
    obtain rfl : t = u := Option.some.inj hu
    show ((update s.place t (.body r)) t).inside = true
    rw [update_self]
    rfl
  | release =>
    intro u hu
    exact absurd hu (by simp [LockSys.put])

/-- So it is in every reachable state.  The converse fails: who is inside need not be the owner any
    more. -/
theorem OwnerInside.reachable {s : LockSys} (h : locks.Reachable s) : OwnerInside s := by
  refine Machine.Reachable.induct (M := locks) ?_ ?_ h
  · intro t ht
    exact absurd ht (by simp [locks, LockSys.init])
  · intro s a s' _ hs hst
    exact (lock_step hst).ownerInside hs

/-- A task at its unlock stays there until it unlocks; no other step moves it. -/
theorem LockStep.unlock_stays {s s' : LockSys} {a : LockAct} (hst : LockStep s a s') {t : Task}
    {r : Region} {held : Bool} (ht : s.place t = .unlock r held) :
    s'.place t = .unlock r held ∨ a = .unlock t := by
  have hother : ∀ {u p}, s.place u ≠ .unlock r held → (update s.place u p) t = .unlock r held := by
    intro u p hu
    have htu : t ≠ u := by
      rintro rfl
      exact hu ht
    rw [update_of_ne htu]
    exact ht
  cases hst with
  | refuse => exact Or.inl ht
  | arrive _ hout => exact Or.inl (hother (by rw [hout]; exact Place.noConfusion))
  | request hout => exact Or.inl (hother (by rw [hout]; exact Place.noConfusion))
  | take _ hp => exact Or.inl (hother (by rw [hp]; exact Place.noConfusion))
  | fail hp => exact Or.inl (hother (by rw [hp]; exact Place.noConfusion))
  | body hp => exact Or.inl (hother (by rw [hp]; exact Place.noConfusion))
  | @release u =>
    by_cases hu : u = t
    · exact Or.inr (by rw [hu])
    · apply Or.inl
      show (update s.place u _) t = _
      rw [update_of_ne (Ne.symm hu)]
      exact ht

theorem Disciplined.initial {acts pre : List LockAct} (h : Disciplined acts) (hpre : pre <+: acts) :
    Disciplined pre := by
  constructor
  · intro pre' s hpre' hs
    exact h.exclusive pre' s (hpre'.trans hpre) hs
  · intro pre' s t hpre' hs
    exact h.unlocks pre' s t (hpre'.trans hpre) hs

/-- After an interrupted lock, a disciplined run has somebody who never comes to unlock: the
    unlock would have to be the owner's, and it is not. -/
theorem interrupted_waits {acts : List LockAct} {s : LockSys} (hrun : locks.run acts = some s)
    (h : Disciplined acts) {n : Nat} (hn : .eintr n ∈ acts) :
    ∃ t r, s.place t = .unlock r false := by
  induction acts using List.reverseRecOn generalizing s n with
  | nil => exact absurd hn List.not_mem_nil
  | append_singleton acts a ih =>
    rw [Machine.run_concat, Option.bind_eq_some_iff] at hrun
    obtain ⟨s₁, hs₁, hst⟩ := hrun
    have hstep := lock_step hst
    rcases List.mem_append.mp hn with hin | hlast
    · obtain ⟨t, r, ht⟩ := ih hs₁ (h.initial (List.prefix_append _ _)) hin
      refine ⟨t, r, (hstep.unlock_stays ht).resolve_right ?_⟩
      rintro rfl
      -- the unlock would have to be the owner's, and the owner is inside
      have hown := h.unlocks acts s₁ t List.prefix_rfl hs₁
      have hin := OwnerInside.reachable (Machine.reachable_iff_run.mpr ⟨acts, hs₁⟩) t hown
      rw [ht] at hin
      exact absurd hin (by simp [Place.inside])
    · obtain rfl := List.mem_singleton.mp hlast
      cases hstep with
      | arrive henter => exact absurd henter (by simp [LockAct.enters])
      | @fail _ r =>
        refine ⟨.caller n, r, ?_⟩
        show (update s₁.place _ _) _ = _
        rw [update_self]

/-- **Lock discipline.**  In every interleaving of any number of callers with the elevator thread
    in which no lock is interrupted, every unlock is made by the owner of the mutex and at most
    one task is inside a locked region, in every state along the run.  And no other run keeps the
    discipline to its end: if it does, and everybody who was interrupted has gone on, then nobody
    was interrupted. -/
theorem disciplined_run {acts : List LockAct} {s : LockSys} (hrun : locks.run acts = some s) :
    ((∀ n, .eintr n ∉ acts) → Disciplined acts) ∧
    ((∀ t r, s.place t ≠ .unlock r false) → Disciplined acts → ∀ n, .eintr n ∉ acts) := by
  refine ⟨disciplined_of_uninterrupted hrun, ?_⟩
  intro hdone h n hn
  obtain ⟨t, r, ht⟩ := interrupted_waits hrun h hn
  exact hdone t r ht

/-- Two calls, one after the other. -/
def twoCalls : List LockAct :=
  [.call 0 .startElevator, .call 1 .stopElevator, .lock (.caller 0), .body (.caller 0),
    .unlock (.caller 0), .lock (.caller 1), .body (.caller 1), .unlock (.caller 1)]

/-- Two callers who wait for each other. -/
theorem disciplined_run_twoCalls : Disciplined twoCalls := by
  have hrun := Machine.run_get (M := locks) twoCalls (by rfl)
  exact (disciplined_run hrun).1 (by simp [twoCalls])

/-- While the thread loads, an interrupted `stop_elevator` frees the mutex and `start_elevator`
    gets in. -/
def twoInside : List LockAct :=
  [.turn, .lock .thread, .call 0 .stopElevator, .eintr 0, .unlock (.caller 0),
    .call 1 .startElevator, .lock (.caller 1)]

/-- **The slip.**  One interrupted lock is enough: its unlock frees a mutex that somebody else
    holds. -/
theorem interrupted_stop_lets_two_in :
    ¬ ∀ acts s, locks.run acts = some s → Disciplined acts := by
  intro hall
  have hrun := Machine.run_get (M := locks) twoInside (by rfl)
  have h := (hall twoInside _ hrun).exclusive twoInside _ List.prefix_rfl hrun .thread (.caller 1)
    (by rfl) (by rfl)
  exact absurd h (by decide)

end KernelModules.Part3
