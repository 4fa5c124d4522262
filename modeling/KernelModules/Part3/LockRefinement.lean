/-
  The machine of locks, bodies and unlocks refines the coarse machine `system`.

  `system` takes a locked region as one atomic action.  In `locks` a region is three steps of one
  task among many, and a lock may be interrupted; its body is still one of the three.  The bodies
  come in an order `system` allows: `Simulated` relates the two — the thread's place says which
  phase is due, and each request on its way to `addPass` is one of `system`'s requests in the gap —
  and every step of `locks` is a step of `system` or none.  So every invariant of `system` holds of
  the module in every state of `locks` (`sys_reachable`).

  That a body may be taken for one step is a matter of its own, which `Atomic` settles: it may in
  the runs without an interrupted lock, and not in all the others.
-/
import KernelModules.Part3.Locks
import KernelModules.Part3.Race

namespace KernelModules.Part3

open Function KernelModules.Lib

/-! ## The simulation relation -/

/-- The region a task is in or about. -/
def Place.region : Place → Option Region
  | .out => none
  | .lock r => some r
  | .body r => some r
  | .unlock r _ => some r

/-- The regions of `runElevator`. -/
def Region.isThread : Region → Bool
  | .load => true
  | .move => true
  | _ => false

/-- The passenger a request has yet to insert. -/
def Place.pending : Place → Option Passenger
  | .lock (.insert p) => some p
  | .body (.insert p) => some p
  | _ => none

/-- The phase the thread runs next. -/
def Place.phase : Place → Phase
  | .lock .move => .move
  | .body .move => .move
  | .unlock .load _ => .move
  | _ => .load

/-- The module is in a state of the coarse machine, its thread in the phase the place says, and
    every request that has not come to its `addPass` is in the gap, on its own. -/
structure Simulated (s : LockSys) : Prop where
  reach : system.Reachable s.sys
  phase : s.sys.pc = (s.place .thread).phase
  roles : ∀ t r, (s.place t).region = some r → (r.isThread = true ↔ t = .thread)
  inflight : ∀ t p, (s.place t).pending = some p → p ∈ s.sys.inflight
  apart : ∀ t u p, (s.place t).pending = some p → (s.place u).pending = some p → t = u

/-- One task moves, and the module with it.  What has to be shown is about this task and about the
    gap; the others stay where they are. -/
theorem Simulated.move {s : LockSys} (h : Simulated s) {t : Task} {q : Place} (sys : Sys)
    (hreach : system.Reachable sys)
    (hphase : sys.pc = if t = .thread then q.phase else s.sys.pc)
    (hrole : ∀ r, q.region = some r → (r.isThread = true ↔ t = .thread))
    (hothers : ∀ u p, u ≠ t → (s.place u).pending = some p → p ∈ sys.inflight)
    (hnew : ∀ p, q.pending = some p → p ∈ sys.inflight ∧
      ∀ u, u ≠ t → (s.place u).pending ≠ some p) :
    Simulated ({ s with sys := sys }.put t q) := by
  have hself : ({ s with sys := sys }.put t q).place t = q := update_self ..
  have hother : ∀ {u}, u ≠ t → ({ s with sys := sys }.put t q).place u = s.place u :=
    fun hu => update_of_ne hu ..
  refine ⟨hreach, ?_, ?_, ?_, ?_⟩
  · show sys.pc = _
    by_cases ht : t = .thread
    · rw [hphase, if_pos ht, ← ht, hself]
    · rw [hphase, if_neg ht, hother (Ne.symm ht)]
      exact h.phase
  · intro u r hr
    by_cases hu : u = t
    · subst hu
      rw [hself] at hr
      exact hrole r hr
    · rw [hother hu] at hr
      exact h.roles u r hr
  · intro u p hp
    by_cases hu : u = t
    · subst hu
      rw [hself] at hp
      exact (hnew p hp).1
    · rw [hother hu] at hp
      exact hothers u p hu hp
  · intro u v p hu hv
    by_cases hut : u = t <;> by_cases hvt : v = t
    · rw [hut, hvt]
    · subst hut
      rw [hself] at hu
      rw [hother hvt] at hv
      exact absurd hv ((hnew p hu).2 v hvt)
    · subst hvt
      rw [hself] at hv
      rw [hother hut] at hu
      exact absurd hu ((hnew p hv).2 u hut)
    · rw [hother hut] at hu
      rw [hother hvt] at hv
      exact h.apart u v p hu hv

/-- One task moves, and the module stays as it is: the phase that is due and the passenger that is
    pending have to be the same as before. -/
theorem Simulated.walk {s : LockSys} (h : Simulated s) {t : Task} {q : Place}
    (hphase : t = .thread → q.phase = (s.place t).phase)
    (hrole : ∀ r, q.region = some r → (r.isThread = true ↔ t = .thread))
    (hpend : ∀ p, q.pending = some p → (s.place t).pending = some p) (owner : Option Task) :
    Simulated ({ s with owner := owner }.put t q) := by
  have hmoved : Simulated (s.put t q) := by
    refine h.move s.sys h.reach ?_ hrole (fun u p _ hp => h.inflight u p hp) ?_
    · by_cases ht : t = .thread
      · rw [if_pos ht, hphase ht, ht]
        exact h.phase
      · rw [if_neg ht]
    · intro p hp
      refine ⟨h.inflight t p (hpend p hp), fun u hu hup => hu ?_⟩
      exact h.apart u t p hup (hpend p hp)
  exact ⟨hmoved.reach, hmoved.phase, hmoved.roles, hmoved.inflight, hmoved.apart⟩

/-! ## One step -/

/-- The body of a region is a step of the coarse machine, or no step at all.  It takes nobody out of
    the gap but its own passenger. -/
theorem Region.body_step {s sys : Sys} {r : Region} (hs : system.Reachable s)
    (hload : r = .load → s.pc = .load) (hmove : r = .move → s.pc = .move)
    (hins : ∀ p, r = .insert p → p ∈ s.inflight) (h : r.body s = some sys) :
    system.Reachable sys ∧
      sys.pc = (if r.isThread = true then (Place.unlock r true).phase else s.pc) ∧
      ∀ p, p ∈ s.inflight → r ≠ .insert p → p ∈ sys.inflight := by
  have hsound := Sound.reachable (loose_of_system hs)
  cases r with
  | print =>
    obtain rfl : s = sys := Option.some.inj h
    exact ⟨hs, rfl, fun p hp _ => hp⟩
  | load =>
    have hst : system.step s .load = some sys :=
      Machine.step_eq_some.mpr ⟨decide_eq_true (hload rfl), h⟩
    have hpc : sys.pc = .move := by
      obtain ⟨t, _, rfl⟩ := Option.map_eq_some_iff.mp (show (loadBody s).map _ = some sys from h)
      rfl
    obtain ⟨t, ht, _, hchain⟩ := loadPhase_spec hsound
    obtain rfl : sys = t := Option.some.inj ((show loadPhase s = some sys from h).symm.trans ht)
    obtain ⟨evs, honly⟩ := LoadStep.threadOnly_chain hchain
    exact ⟨hs.step hst, hpc, fun p hp _ => by rw [honly.inflight]; exact hp⟩
  | move =>
    have hst : system.step s .move = some sys :=
      Machine.step_eq_some.mpr ⟨decide_eq_true (hmove rfl), h⟩
    obtain rfl : movePhase s = sys := Option.some.inj h
    obtain ⟨evs, honly⟩ := (movePhase_step s).threadOnly
    exact ⟨hs.step hst, rfl, fun p hp _ => by rw [honly.inflight]; exact hp⟩
  | insert q =>
    have hg : system.guard s (.insert q) = true := decide_eq_true (hins q rfl)
    have hst := call_step (a := .insert q) hsound Act.noConfusion Act.noConfusion hg h
    refine ⟨hs.step (Machine.step_eq_some.mpr ⟨hg, h⟩), ?_⟩
    cases hst with
    | refuse href => exact href.elim
    | insert =>
      refine ⟨rfl, fun p hp hne => ?_⟩
      exact (List.mem_erase_of_ne fun heq => hne (by rw [heq])).mpr hp
  | start =>
    have hst := call_step (a := .start) hsound Act.noConfusion Act.noConfusion rfl h
    refine ⟨hs.step (a := .start) (Machine.step_eq_some.mpr ⟨rfl, h⟩), ?_⟩
    cases hst with
    | refuse => exact ⟨rfl, fun p hp _ => hp⟩
    | start => exact ⟨rfl, fun p hp _ => hp⟩
  | stop =>
    have hst := call_step (a := .stop) hsound Act.noConfusion Act.noConfusion rfl h
    refine ⟨hs.step (a := .stop) (Machine.step_eq_some.mpr ⟨rfl, h⟩), ?_⟩
    cases hst with
    | refuse => exact ⟨rfl, fun p hp _ => hp⟩
    | stop => exact ⟨rfl, fun p hp _ => hp⟩

theorem LockStep.simulated {s s' : LockSys} {a : LockAct} (h : Simulated s)
    (hst : LockStep s a s') : Simulated s' := by
  cases hst with
  | refuse => exact h
  | @arrive _ t r _ hout hwho =>
    refine h.walk ?_ ?_ ?_ s.owner
    · intro ht
      rw [hout]
      rcases hwho with ⟨_, rfl⟩ | ⟨⟨n, rfl⟩, _⟩
      · rfl
      · exact absurd ht (by simp)
    · intro r' hr'
      obtain rfl : r = r' := Option.some.inj hr'
      rcases hwho with ⟨rfl, rfl⟩ | ⟨⟨n, rfl⟩, rfl | rfl | rfl⟩ <;> simp [Region.isThread]
    · intro p hp
      rcases hwho with ⟨rfl, rfl⟩ | ⟨⟨n, rfl⟩, rfl | rfl | rfl⟩ <;>
        exact absurd hp (by simp [Place.pending])
  | @request n pType sFloor dFloor hout href =>
    have hfresh : ∀ u p, (s.place u).pending = some p →
        p ≠ newPassenger s.sys pType sFloor dFloor := by
      rintro u p hp rfl
      have hsound := Sound.reachable (loose_of_system h.reach)
      exact Nat.lt_irrefl _
        (hsound.census.bound _ (List.mem_append_right _ (h.inflight u _ hp)))
    refine h.move _ (h.reach.step (a := .request pType sFloor dFloor) ?_) ?_ ?_ ?_ ?_
    · refine Machine.step_eq_some.mpr ⟨rfl, ?_⟩
      show (if _ then _ else _) = _
      rw [if_neg (by rw [href]; decide)]
    · rw [if_neg (by simp)]
    · intro r hr
      rw [← Option.some.inj hr]
      simp [Region.isThread]
    · intro u p _ hp
      exact List.mem_append_left _ (h.inflight u p hp)
    · intro p hp
      rw [← Option.some.inj hp]
      exact ⟨List.mem_append_right _ List.mem_cons_self, fun u _ hu => hfresh u _ hu rfl⟩
  | @take t r _ hp =>
    refine h.walk ?_ ?_ ?_ (some t)
    · intro _
      rw [hp]
      cases r <;> rfl
    · intro r' hr'
      exact h.roles t r' (by rw [hp]; exact hr')
    · intro p hpend
      rw [hp]
      cases r <;> exact hpend
  | @fail n r hp =>
    refine h.walk (fun ht => absurd ht (by simp)) ?_ (by simp [Place.pending]) s.owner
    intro r' hr'
    exact h.roles (.caller n) r' (by rw [hp]; exact hr')
  | @body t r sys hp hbody =>
    have hrole := h.roles t r (by rw [hp]; rfl)
    have hphase : t = .thread → s.sys.pc = (Place.body r).phase := by
      rintro rfl
      rw [h.phase, hp]
    obtain ⟨hreach, hpc, hin⟩ := Region.body_step h.reach
      (fun hr => by rw [hphase (hrole.mp (by rw [hr]; rfl)), hr]; rfl)
      (fun hr => by rw [hphase (hrole.mp (by rw [hr]; rfl)), hr]; rfl)
      (fun p hr => h.inflight t p (by rw [hp, hr]; rfl)) hbody
    refine h.move sys hreach ?_ ?_ ?_ (by simp [Place.pending])
    · rw [hpc]
      simp only [hrole]
    · intro r' hr'
      exact h.roles t r' (by rw [hp]; exact hr')
    · intro u p hu hup
      apply hin p (h.inflight u p hup)
      rintro rfl
      exact hu (h.apart u t p hup (by rw [hp]; rfl))
  | @release t r held hp =>
    have hrole := h.roles t r (by rw [hp]; rfl)
    refine h.walk ?_ ?_ ?_ none
    · intro ht
      have hthread := hrole.mpr ht
      rw [hp]
      cases r with
      | load => rfl
      | move => rfl
      | _ => exact absurd hthread (by simp [Region.isThread])
    · intro r' hr'
      rw [← hrole]
      cases r <;> cases held <;> simp [Region.after, Place.region] at hr' <;> rw [← hr'] <;> rfl
    · intro p hpend
      cases r <;> cases held <;> exact absurd hpend (by simp [Region.after, Place.pending])

theorem Simulated.reachable {s : LockSys} (h : locks.Reachable s) : Simulated s := by
  refine Machine.Reachable.induct (M := locks) (P := Simulated) ?_ ?_ h
  · exact ⟨.init, rfl, fun _ _ h => absurd h (by simp [locks, LockSys.init, Place.region]),
      fun _ _ h => absurd h (by simp [locks, LockSys.init, Place.pending]),
      fun _ _ _ h => absurd h (by simp [locks, LockSys.init, Place.pending])⟩
  · intro s a s' _ hs hst
    exact (lock_step hst).simulated hs

/-- **The machine of locks refines the coarse one.**  Whatever interleaving of locks, whole bodies
    and unlocks led here, the module itself is in a reachable state of `system`. -/
theorem sys_reachable {s : LockSys} (h : locks.Reachable s) : system.Reachable s.sys :=
  (Simulated.reachable h).reach

end KernelModules.Part3
