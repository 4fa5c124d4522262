/-
  Is a locked region one step?

  `system` runs a locked region as one action, and so do the proofs about it.  Here the mutex and
  the code are together: in the machine `fineLocks` any number of tasks come to their locks, take
  the mutex, run their regions one STATEMENT at a time and release it, in any interleaving.  A
  request up to its lock is a step of its own, for it reads `e.shutdown` without the mutex.

  * In the runs in which no lock is interrupted, whenever nobody is between two statements of a
    region, the module is in a state of `system`; and every state of `system` is reached so.  The
    region takes effect with its last statement: `Atomically` says what is true before it, namely
    that what is left to run ends where the whole region would have, and that `e.shutdown` still
    is what it was, so that a request cannot tell.
  * One interrupted lock is enough to make this false: `tornStart` ends with an elevator that is
    IDLE, and somebody on board.
-/
import KernelModules.Lib.Sequence
import KernelModules.Part3.Statements
import KernelModules.Part3.LockProgress

namespace KernelModules.Part3

open Function KernelModules.Lib

/-! ## The machine -/

/-- The module, its mutex, where everybody is, and the statements they have yet to run there. -/
structure FineSys extends LockSys where
  todo : Task → List Stmt

/-- Task `t`, in region `r`, runs `x`.  With its last statement it comes to its unlock. -/
def runStmt (f : FineSys) (t : Task) (r : Region) (x : Stmt) (rest : List Stmt) :
    Option FineSys :=
  (x.exec f.sys.store).map fun after =>
    if (after.2 ++ rest).isEmpty then
      { toLockSys := { f.toLockSys with sys := r.ended (f.sys.withStore after.1) }.put t
          (.unlock r true)
        todo := update f.todo t [] }
    else
      { toLockSys := { f.toLockSys with sys := f.sys.withStore after.1 }
        todo := update f.todo t (after.2 ++ rest) }

/-- The steps: those of `locks`, but for a region, which is as many steps as it has statements. -/
def fineExec (f : FineSys) : LockAct → Option FineSys
  | .lock t => match f.place t with
    | .lock r => some
      { toLockSys := { f.toLockSys with owner := some t }.put t (.body r)
        todo := update f.todo t r.code }
    | _ => none
  | .body t => match f.place t, f.todo t with
    | .body r, x :: rest => runStmt f t r x rest
    | _, _ => none
  | a => (lockExec f.toLockSys a).map fun l => { toLockSys := l, todo := f.todo }

/-- The module after `elevator_init`, and nobody anywhere. -/
def FineSys.init : FineSys where
  toLockSys := .init
  todo := fun _ => []

/-- Any interleaving of the statements. -/
def fineLocks : Machine FineSys LockAct where
  init := .init
  guard := fun f a => locks.guard f.toLockSys a
  exec := fineExec

/-- The runs in which no lock is interrupted. -/
def patientFine : Machine FineSys LockAct := fineLocks.restrict fun _ a => a.patient

/-- Nobody is between two statements of a region. -/
def FineSys.Between (f : FineSys) : Prop := ∀ t r, f.place t ≠ .body r

/-! ## What one step can do -/

inductive FineStep (f : FineSys) : LockAct → FineSys → Prop
  /-- Outside of the regions. -/
  | outside {a : LockAct} {l : LockSys} : (∀ t, a ≠ .lock t) → (∀ t, a ≠ .body t) →
      locks.step f.toLockSys a = some l → FineStep f a ⟨l, f.todo⟩
  | take {t : Task} {r : Region} : f.owner = none → f.place t = .lock r →
      FineStep f (.lock t)
        ⟨{ f.toLockSys with owner := some t }.put t (.body r), update f.todo t r.code⟩
  /-- A statement that is not the last. -/
  | go {t : Task} {r : Region} {x : Stmt} {rest more : List Stmt} {st : Store} :
      f.place t = .body r → f.todo t = x :: rest → x.exec f.sys.store = some (st, more) →
      more ++ rest ≠ [] → FineStep f (.body t)
        ⟨{ f.toLockSys with sys := f.sys.withStore st }, update f.todo t (more ++ rest)⟩
  /-- The last statement. -/
  | last {t : Task} {r : Region} {x : Stmt} {rest more : List Stmt} {st : Store} :
      f.place t = .body r → f.todo t = x :: rest → x.exec f.sys.store = some (st, more) →
      more ++ rest = [] → FineStep f (.body t)
        ⟨{ f.toLockSys with sys := r.ended (f.sys.withStore st) }.put t (.unlock r true),
          update f.todo t []⟩

theorem fine_step {f f' : FineSys} {a : LockAct} (h : fineLocks.step f a = some f') :
    FineStep f a f' := by
  obtain ⟨hg, he⟩ := Machine.step_eq_some.mp h
  have houtside : (∀ t, a ≠ .lock t) → (∀ t, a ≠ .body t) →
      (lockExec f.toLockSys a).map (fun l => FineSys.mk l f.todo) = some f' → FineStep f a f' := by
    intro hlock hbody hmap
    obtain ⟨l, hl, rfl⟩ := Option.map_eq_some_iff.mp hmap
    exact .outside hlock hbody (Machine.step_eq_some.mpr ⟨hg, hl⟩)
  cases a with
  | lock t =>
    have hfree : f.owner = none := of_decide_eq_true hg
    change (match f.place t with | .lock r => _ | _ => none) = _ at he
    split at he
    · rename_i r hp
      rw [← Option.some.inj he]
      exact .take hfree hp
    · exact absurd he (by simp)
  | body t =>
    change (match f.place t, f.todo t with | .body r, x :: rest => _ | _, _ => none) = _ at he
    split at he
    · rename_i r x rest hp htodo
      obtain ⟨⟨st, more⟩, hexec, rfl⟩ := Option.map_eq_some_iff.mp he
      by_cases hlast : more ++ rest = []
      · rw [if_pos (List.isEmpty_iff.mpr hlast)]
        exact .last hp htodo hexec hlast
      · rw [if_neg (fun h => hlast (List.isEmpty_iff.mp h))]
        exact .go hp htodo hexec hlast
    · exact absurd he (by simp)
  | turn | call | elevatorOpen | eintr | unlock =>
    exact houtside (fun _ => LockAct.noConfusion) (fun _ => LockAct.noConfusion) he

/-! ## A region takes effect with its last statement -/

/-- The same machine with another building and history. -/
def LockSys.withStore (l : LockSys) (st : Store) : LockSys := { l with sys := l.sys.withStore st }

/-- `l` is what the machine is to those who take a region for one step, at its end.  The two
    differ in what the statements act on, and there only while somebody is inside; what that task
    has yet to run ends where its whole region would have, and `e.shutdown` waits until then. -/
structure Atomically (f : FineSys) (l : LockSys) : Prop where
  reach : locks.Reachable l
  clean : Clean l
  same : f.toLockSys = l.withStore f.sys.store
  shutdown : SameShutdown l.sys.store f.sys.store
  idle : (∀ t r, l.place t ≠ .body r) → f.sys.store = l.sys.store
  busy : ∀ t r, l.place t = .body r →
    ∃ st, RunsOut r.code l.sys.store st ∧ RunsOut (f.todo t) f.sys.store st

/-- Between two regions there is no difference. -/
theorem Atomically.eq {f : FineSys} {l : LockSys} (h : Atomically f l)
    (hnobody : ∀ t r, l.place t ≠ .body r) : f.toLockSys = l := by
  rw [h.same, h.idle hnobody]
  rfl

theorem Atomically.place {f : FineSys} {l : LockSys} (h : Atomically f l) : f.place = l.place := by
  rw [h.same]
  rfl

/-- The code of a region somebody has come to: the module is sound, and a request's passenger is
    valid, so the code ends where the function does. -/
theorem code_ends_at {l : LockSys} (hl : locks.Reachable l) {t : Task} {r : Region}
    (hplace : l.place t = .lock r ∨ l.place t = .body r) : ∃ sys, r.body l.sys = some sys ∧
      RunsOut r.code l.sys.store sys.store ∧ sys = r.ended (l.sys.withStore sys.store) := by
  have hs := Sound.reachable (loose_of_system (sys_reachable hl))
  refine code_ends hs ?_
  rintro p rfl
  have hpending : (l.place t).pending = some p := by
    rcases hplace with hp | hp <;> rw [hp] <;> rfl
  exact hs.census.valid p
    (List.mem_append_right _ ((Simulated.reachable hl).inflight t p hpending))

/-- A step that is neither a lock nor a body writes nothing in the building, and lets nobody in or
    out. -/
theorem LockStep.outside {l l' : LockSys} {a : LockAct} (hst : LockStep l a l')
    (hlock : ∀ t, a ≠ .lock t) (hbody : ∀ t, a ≠ .body t) :
    l'.sys.store = l.sys.store ∧ ∀ t r, l'.place t = .body r ↔ l.place t = .body r := by
  have hmoved : ∀ {u p}, (∀ r, p ≠ .body r) → (∀ r, l.place u ≠ .body r) →
      ∀ t r, (update l.place u p) t = .body r ↔ l.place t = .body r := by
    intro u p hp hu t r
    by_cases htu : t = u
    · rw [htu, update_self]
      exact iff_of_false (hp r) (hu r)
    · rw [update_of_ne htu]
  have hleft : ∀ {u p}, l.place u = p → (∀ r, p ≠ .body r) → ∀ r, l.place u ≠ .body r :=
    fun hp hne => hp ▸ hne
  cases hst with
  | refuse => exact ⟨rfl, fun _ _ => Iff.rfl⟩
  | arrive _ hout => exact ⟨rfl, hmoved (by simp) (hleft hout (by simp))⟩
  | request hout => exact ⟨rfl, hmoved (by simp) (hleft hout (by simp))⟩
  | @take u => exact absurd rfl (hlock u)
  | fail hp => exact ⟨rfl, hmoved (by simp) (hleft hp (by simp))⟩
  | @body u => exact absurd rfl (hbody u)
  | @release u r held hp =>
    refine ⟨rfl, hmoved (fun r' hafter => ?_) (hleft hp (by simp))⟩
    have hout := (r.after_outside held).1
    rw [hafter] at hout
    exact Bool.noConfusion hout

/-- And it reads nothing there but `e.shutdown`, so it does the same whether the statements of a
    region have been run or are yet to be. -/
theorem outside_exec {l : LockSys} {st : Store} {a : LockAct} (hsd : SameShutdown l.sys.store st)
    (hlock : ∀ t, a ≠ .lock t) (hbody : ∀ t, a ≠ .body t) :
    lockExec (l.withStore st) a = (lockExec l a).map fun l' => l'.withStore st := by
  cases a with
  | lock t => exact absurd rfl (hlock t)
  | body t => exact absurd rfl (hbody t)
  | turn | elevatorOpen n => rfl
  | call n c =>
    cases c with
    | startElevator | stopElevator => rfl
    | issueRequest pType sFloor dFloor =>
      have href : refuses st.1.e pType sFloor dFloor
          = refuses l.sys.b.e pType sFloor dFloor := by
        rw [refuses, refuses, hsd]
        rfl
      show some (if refuses st.1.e pType sFloor dFloor then _ else _)
        = some (LockSys.withStore (if refuses l.sys.b.e pType sFloor dFloor then _ else _) st)
      rw [href]
      split <;> rfl
  | eintr n =>
    have hplace : (l.withStore st).place (.caller n) = l.place (.caller n) := rfl
    cases hp : l.place (.caller n) <;> simp only [lockExec, hplace, hp] <;> rfl
  | unlock t =>
    have hplace : (l.withStore st).place t = l.place t := rfl
    cases hp : l.place t <;> simp only [lockExec, hplace, hp] <;> rfl

/-- So it is the same step before a region has taken effect and after. -/
theorem outside_step {l l₁ : LockSys} {st : Store} {a : LockAct}
    (hsd : SameShutdown l.sys.store st) (hlock : ∀ t, a ≠ .lock t) (hbody : ∀ t, a ≠ .body t)
    (h : locks.step (l.withStore st) a = some l₁) :
    ∃ l', locks.step l a = some l' ∧ l₁ = l'.withStore st := by
  obtain ⟨hg, he⟩ := Machine.step_eq_some.mp h
  have hg' : locks.guard l a = true := by cases a <;> exact hg
  have he' : lockExec (l.withStore st) a = some l₁ := he
  rw [outside_exec hsd hlock hbody] at he'
  obtain ⟨l', hl', rfl⟩ := Option.map_eq_some_iff.mp he'
  exact ⟨l', Machine.step_eq_some.mpr ⟨hg', hl'⟩, rfl⟩

/-- Who is inside after task `t` has gone to `q`: `t`, if `q` is inside, or somebody who was. -/
theorem inside_of_update {place : Task → Place} {t u : Task} {q : Place} {r : Region}
    (h : update place t q u = .body r) :
    (u = t ∧ q = .body r) ∨ (u ≠ t ∧ place u = .body r) := by
  by_cases hut : u = t
  · subst hut
    exact Or.inl ⟨rfl, (update_self ..).symm.trans h⟩
  · exact Or.inr ⟨hut, (update_of_ne hut ..).symm.trans h⟩

/-- Nobody is in a region while the mutex is free ... -/
theorem Clean.nobody {l : LockSys} (h : Clean l) (hfree : l.owner = none) (t : Task) (r : Region) :
    l.place t ≠ .body r := by
  intro ht
  have hown := (h.owner t).mp (by rw [ht]; rfl)
  rw [hfree] at hown
  exact absurd hown (by simp)

/-- ... and nobody else while somebody is, for the owner is one task. -/
theorem Clean.alone {l : LockSys} (h : Clean l) {t u : Task} {r r' : Region}
    (ht : l.place t = .body r) (hu : l.place u = .body r') : u = t := by
  have hownt := (h.owner t).mp (by rw [ht]; rfl)
  have hownu := (h.owner u).mp (by rw [hu]; rfl)
  exact Option.some.inj (hownu.symm.trans hownt)

/-- A step outside of the regions is the same step of `locks`.  Whoever is midway stays so, and
    nobody else has come in. -/
theorem Atomically.outside {f : FineSys} {l l₁ : LockSys} {a : LockAct} (h : Atomically f l)
    (hlock : ∀ t, a ≠ .lock t) (hbody : ∀ t, a ≠ .body t) (hne : ∀ n, a ≠ .eintr n)
    (hst : locks.step f.toLockSys a = some l₁) : ∃ l', Atomically ⟨l₁, f.todo⟩ l' := by
  rw [h.same] at hst
  obtain ⟨l', hl', rfl⟩ := outside_step h.shutdown hlock hbody hst
  obtain ⟨hstore, hplaces⟩ := (lock_step hl').outside hlock hbody
  refine ⟨l', h.reach.step hl', (lock_step hl').clean h.clean hne, rfl, ?_, fun hnobody => ?_,
    fun t r ht => ?_⟩
  · show SameShutdown l'.sys.store f.sys.store
    rw [hstore]
    exact h.shutdown
  · show f.sys.store = l'.sys.store
    rw [hstore]
    exact h.idle fun t r ht => hnobody t r ((hplaces t r).mpr ht)
  · rw [hstore]
    exact h.busy t r ((hplaces t r).mp ht)

/-- The mutex is taken: all of the region is still to run, from the state that `locks` is in as
    well. -/
theorem Atomically.take {f : FineSys} {l : LockSys} {t : Task} {r : Region} (h : Atomically f l)
    (hfree : f.owner = none) (hp : f.place t = .lock r) :
    ∃ l', Atomically ⟨{ f.toLockSys with owner := some t }.put t (.body r),
      update f.todo t r.code⟩ l' := by
  have hfree' : l.owner = none := by
    rw [h.same] at hfree
    exact hfree
  have hp' : l.place t = .lock r := h.place ▸ hp
  have hnobody := h.clean.nobody hfree'
  have heq := h.eq hnobody
  have hstep := take_step hfree' hp'
  have hclean := (lock_step hstep).clean h.clean fun _ => LockAct.noConfusion
  refine ⟨_, h.reach.step hstep, hclean, ?_, ?_,
    fun hnobody' => absurd (update_self ..) (hnobody' t r), fun u r' hu => ?_⟩
  · rw [heq]
    rfl
  · rw [heq]
    rfl
  · obtain ⟨rfl, hbody⟩ := (inside_of_update hu).resolve_right fun hother => hnobody u r' hother.2
    obtain rfl : r = r' := Place.body.inj hbody
    obtain ⟨sys, _, hends, _⟩ := code_ends_at h.reach (Or.inl hp')
    refine ⟨sys.store, hends, ?_⟩
    show RunsOut (update f.todo u r.code u) f.sys.store sys.store
    rw [update_self, heq]
    exact hends

section Statements

variable {f : FineSys} {l : LockSys} {t : Task} {r : Region} {x : Stmt} {rest more : List Stmt}
  {st : Store}

/-- What a statement leaves to run ends where the region does, unless it was the last. -/
theorem Atomically.ends (h : Atomically f l) (hp : f.place t = .body r)
    (htodo : f.todo t = x :: rest) (hexec : x.exec f.sys.store = some (st, more)) :
    ∃ st', RunsOut r.code l.sys.store st' ∧ (more ++ rest = [] ∧ st = st' ∨
      more ++ rest ≠ [] ∧ SameShutdown f.sys.store st ∧ RunsOut (more ++ rest) st st') := by
  obtain ⟨st', hcode, hrest⟩ := h.busy t r (h.place ▸ hp)
  rw [htodo] at hrest
  obtain ⟨st₁, more', hexec', hcase⟩ := hrest.step
  obtain ⟨rfl, rfl⟩ := Prod.mk.inj (Option.some.inj (hexec.symm.trans hexec'))
  exact ⟨st', hcode, hcase⟩

/-- A statement that is not the last is no step of `locks`.  What is left still ends where the
    region does. -/
theorem Atomically.go (h : Atomically f l) (hp : f.place t = .body r)
    (htodo : f.todo t = x :: rest) (hexec : x.exec f.sys.store = some (st, more))
    (hmore : more ++ rest ≠ []) :
    Atomically ⟨{ f.toLockSys with sys := f.sys.withStore st }, update f.todo t (more ++ rest)⟩
      l := by
  have hp' : l.place t = .body r := h.place ▸ hp
  obtain ⟨st', hcode, ⟨hnil, _⟩ | ⟨_, hkeep, hrest⟩⟩ := h.ends hp htodo hexec
  · exact absurd hnil hmore
  · refine ⟨h.reach, h.clean, ?_, hkeep.trans h.shutdown, fun hnobody => absurd hp' (hnobody t r),
      fun u r' hu => ?_⟩
    · show f.toLockSys.withStore st = l.withStore st
      rw [h.same]
      rfl
    · obtain rfl := h.clean.alone hp' hu
      obtain rfl : r = r' := Place.body.inj (hp'.symm.trans hu)
      refine ⟨st', hcode, ?_⟩
      show RunsOut (update f.todo u (more ++ rest) u) st st'
      rw [update_self]
      exact hrest

/-- The last statement is the whole region: `locks` takes its one step now, and arrives at the
    same state. -/
theorem Atomically.last (h : Atomically f l) (hp : f.place t = .body r)
    (htodo : f.todo t = x :: rest) (hexec : x.exec f.sys.store = some (st, more))
    (hlast : more ++ rest = []) :
    ∃ l', Atomically ⟨{ f.toLockSys with sys := r.ended (f.sys.withStore st) }.put t
      (.unlock r true), update f.todo t []⟩ l' := by
  have hp' : l.place t = .body r := h.place ▸ hp
  obtain ⟨st', hcode, ⟨_, rfl⟩ | ⟨hmore, _⟩⟩ := h.ends hp htodo hexec
  · obtain ⟨sys, hbody, hends, hsys⟩ := code_ends_at h.reach (Or.inr hp')
    rw [← hcode.unique hends] at hsys
    have heq : { f.toLockSys with sys := r.ended (f.sys.withStore st) }.put t (.unlock r true)
        = { l with sys := sys }.put t (.unlock r true) := by
      rw [hsys, h.same]
      rfl
    have hstep := body_step hp' hbody
    have hclean := (lock_step hstep).clean h.clean fun _ => LockAct.noConfusion
    rw [heq]
    refine ⟨_, h.reach.step hstep, hclean, rfl, rfl, fun _ => rfl, fun u r' hu => ?_⟩
    obtain ⟨hut, hu'⟩ := (inside_of_update hu).resolve_left fun hself => Place.noConfusion hself.2
    exact absurd (h.clean.alone hp' hu') hut
  · exact absurd hlast hmore

end Statements

/-- **Patient runs.**  As long as no lock is interrupted, the fine machine does what `locks` does,
    a statement before the last of a region being no step at all. -/
theorem atomically_reachable {f : FineSys} (h : patientFine.Reachable f) :
    ∃ l, Atomically f l := by
  refine Machine.Reachable.induct (M := patientFine) (P := fun f => ∃ l, Atomically f l) ?_ ?_ h
  · exact ⟨.init, .init, .init, rfl, rfl, fun _ => rfl, fun _ _ ht => Place.noConfusion ht⟩
  · rintro f a f' _ ⟨l, hl⟩ hst
    obtain ⟨hfine, hpatient⟩ := Machine.restrict_step.mp hst
    have hne : ∀ n, a ≠ .eintr n := by
      rintro n rfl
      exact Bool.noConfusion hpatient
    cases fine_step hfine with
    | outside hlock hbody hl₁ => exact hl.outside hlock hbody hne hl₁
    | take hfree hp => exact hl.take hfree hp
    | go hp htodo hexec hmore => exact ⟨l, hl.go hp htodo hexec hmore⟩
    | last hp htodo hexec hlast => exact hl.last hp htodo hexec hlast

/-! ## No state is missing -/

/-- Whoever is inside runs the code it has before it to the end, by induction on how it ends, with
    nobody else taking a step. -/
theorem runs_to_unlock {t : Task} {r : Region} {todo : List Stmt} {st st' : Store}
    (hends : RunsOut todo st st') : ∀ {f : FineSys}, patientFine.Reachable f →
      f.place t = .body r → f.todo t = todo → f.sys.store = st →
      patientFine.Reachable ⟨{ f.toLockSys with sys := r.ended (f.sys.withStore st') }.put t
        (.unlock r true), update f.todo t []⟩ := by
  have hstep : ∀ {f : FineSys} {x : Stmt} {rest : List Stmt}, f.place t = .body r →
      f.todo t = x :: rest → patientFine.step f (.body t) = runStmt f t r x rest := by
    intro f x rest hp htodo
    show fineExec f (.body t) = _
    simp only [fineExec, hp, htodo]
  induction hends with
  | @last x b b' hexec =>
    intro f hf hp htodo hb
    refine hf.step ((hstep hp htodo).trans ?_)
    rw [runStmt, hb, hexec]
    rfl
  | @more x more rest b b₁ b' hexec _ hrest ih =>
    intro f hf hp htodo hb
    have hgo : patientFine.step f (.body t) = some
        ⟨{ f.toLockSys with sys := f.sys.withStore b₁ }, update f.todo t (more ++ rest)⟩ := by
      rw [hstep hp htodo, runStmt, hb, hexec, Option.map_some,
        if_neg (fun h => hrest.ne_nil (List.isEmpty_iff.mp h))]
    have hnext := ih (hf.step hgo) hp (update_self ..) rfl
    rw [update_idem] at hnext
    exact hnext

/-- The states of `locks`, with everybody inside at the first statement: each step there is a step
    here, or the whole code of a region. -/
theorem reaches_fine {l : LockSys} (h : patientLocks.Reachable l) : ∃ todo : Task → List Stmt,
    patientFine.Reachable ⟨l, todo⟩ ∧ ∀ t r, l.place t = .body r → todo t = r.code := by
  refine Machine.Reachable.induct (M := patientLocks) (P := fun l => ∃ todo : Task → List Stmt,
    patientFine.Reachable ⟨l, todo⟩ ∧ ∀ t r, l.place t = .body r → todo t = r.code) ?_ ?_ h
  · exact ⟨fun _ => [], .init, fun _ _ ht => Place.noConfusion ht⟩
  · rintro l a l' hl ⟨todo, hf, htodo⟩ hst
    obtain ⟨hlocks, hpatient⟩ := Machine.restrict_step.mp hst
    obtain ⟨hg, he⟩ := Machine.step_eq_some.mp hlocks
    have houtside : (∀ t, a ≠ .lock t) → (∀ t, a ≠ .body t) →
        fineExec ⟨l, todo⟩ a = (lockExec l a).map (fun k => ⟨k, todo⟩) →
          ∃ todo : Task → List Stmt, patientFine.Reachable ⟨l', todo⟩ ∧
            ∀ t r, l'.place t = .body r → todo t = r.code := by
      intro hlock hbody hexec
      have hfine : fineLocks.step ⟨l, todo⟩ a = some ⟨l', todo⟩ :=
        Machine.step_eq_some.mpr ⟨hg, hexec.trans (congrArg (Option.map _) he)⟩
      refine ⟨todo, hf.step (Machine.restrict_step.mpr ⟨hfine, hpatient⟩), fun t r ht => ?_⟩
      exact htodo t r ((((lock_step hlocks).outside hlock hbody).2 t r).mp ht)
    cases a with
    | lock t =>
      cases lock_step hlocks with
      | arrive henter => exact absurd henter (by simp [LockAct.enters])
      | @take _ r _ hp =>
        have hfine : fineLocks.step ⟨l, todo⟩ (.lock t)
            = some ⟨{ l with owner := some t }.put t (.body r), update todo t r.code⟩ := by
          refine Machine.step_eq_some.mpr ⟨hg, ?_⟩
          show fineExec _ (.lock t) = _
          simp only [fineExec, hp]
        refine ⟨_, hf.step (Machine.restrict_step.mpr ⟨hfine, hpatient⟩), fun u r' hu => ?_⟩
        rcases inside_of_update hu with ⟨rfl, hbody⟩ | ⟨hut, hu'⟩
        · obtain rfl : r = r' := Place.body.inj hbody
          exact update_self ..
        · rw [update_of_ne hut]
          exact htodo u r' hu'
    | body t =>
      cases lock_step hlocks with
      | arrive henter => exact absurd henter (by simp [LockAct.enters])
      | @body _ r sys hp hbody =>
        obtain ⟨sys', hbody', hends, hsys⟩ := code_ends_at hl.of_restrict (Or.inr hp)
        obtain rfl : sys' = sys := Option.some.inj (hbody'.symm.trans hbody)
        have hunlock := runs_to_unlock hends hf hp (htodo t r hp) rfl
        refine ⟨update todo t [], ?_, fun u r' hu => ?_⟩
        · rw [hsys]
          exact hunlock
        · obtain ⟨hut, hu'⟩ :=
            (inside_of_update hu).resolve_left fun hself => Place.noConfusion hself.2
          rw [update_of_ne hut]
          exact htodo u r' hu'
    | turn | call | elevatorOpen | eintr | unlock =>
      exact houtside (fun _ => LockAct.noConfusion) (fun _ => LockAct.noConfusion) rfl

/-! ## A torn region -/

/-- `start_elevator` has found the elevator offline when an interrupted `stop_elevator` releases the
    mutex.  Another `start_elevator` and a request get in, the thread takes the passenger on board,
    and only then does the first caller go on: it sets the elevator IDLE. -/
def tornStart : List LockAct := List.flatten [
  [.call 0 .startElevator, .lock (.caller 0), .body (.caller 0)],
  [.call 1 .stopElevator, .eintr 1, .unlock (.caller 1)],
  [.call 2 .startElevator, .lock (.caller 2)], List.replicate 6 (.body (.caller 2)),
  [.unlock (.caller 2)],
  [.call 3 (.issueRequest 4 1 2), .lock (.caller 3)], List.replicate 5 (.body (.caller 3)),
  [.unlock (.caller 3)],
  [.turn, .lock .thread], List.replicate 19 (.body .thread), [.unlock .thread],
  List.replicate 5 (.body (.caller 0)), [.unlock (.caller 0)]]

theorem tornStart_runs : (fineLocks.run tornStart).isSome = true := by decide +kernel

/-- Where it ends. -/
def tornEnd : FineSys := (fineLocks.run tornStart).get tornStart_runs

/-- Nobody is inside: four of the callers have been there and left, and the thread is on its way to
    its second region. -/
theorem tornEnd_between : tornEnd.Between := by
  have hplace : ∀ t, tornEnd.place t = .out ∨ tornEnd.place t = .lock .move := by
    intro t
    cases t with
    | thread => exact Or.inr (by decide +kernel)
    | caller n =>
      apply Or.inl
      rcases n with _ | _ | _ | _ | n
      case succ.succ.succ.succ => rfl
      all_goals decide +kernel
  intro t r ht
  rcases hplace t with hp | hp <;> exact absurd (ht.symm.trans hp) (by simp)

/-- The elevator is IDLE, and somebody is on board, which the atomic machine never brings about. -/
theorem tornEnd_torn : tornEnd.sys.b.e.status = .idle ∧ tornEnd.sys.b.e.p 1 ≠ [] := by
  decide +kernel

/-- **Atomicity.**  The module with every locked region as one step and the module with one step for
    every statement, under the mutex, reach the same states, those of the latter taken when nobody
    is between two statements of a region: in the runs in which no lock is interrupted, and not in
    all the others. -/
theorem regions_are_atomic :
    (∀ sys, system.Reachable sys ↔ ∃ f, patientFine.Reachable f ∧ f.Between ∧ f.sys = sys) ∧
    ∃ f, fineLocks.Reachable f ∧ f.Between ∧ ¬ system.Reachable f.sys := by
  refine ⟨fun sys => ⟨fun h => ?_, ?_⟩, ?_⟩
  · obtain ⟨l, hl⟩ := settled_reachable h
    obtain ⟨todo, hf, _⟩ := reaches_fine hl.reachable
    obtain ⟨l', hl'⟩ := atomically_reachable hf
    refine ⟨⟨l, todo⟩, hf, fun t r ht => ?_, hl.same⟩
    have hsame : l = l'.withStore l.sys.store := hl'.same
    have hfree : l'.owner = none := by
      rw [← hl.free, hsame]
      rfl
    exact hl'.clean.nobody hfree t r (hl'.place ▸ ht)
  · rintro ⟨f, hf, hbetween, rfl⟩
    obtain ⟨l, hl⟩ := atomically_reachable hf
    have hnobody : ∀ t r, l.place t ≠ .body r := fun t r => hl.place ▸ hbetween t r
    rw [hl.eq hnobody]
    exact sys_reachable hl.reach
  · refine ⟨tornEnd, Machine.reachable_get _ _, tornEnd_between, fun hreach => ?_⟩
    obtain ⟨hidle, haboard⟩ := tornEnd_torn
    exact haboard ((Sound.reachable (loose_of_system hreach)).motion.parked (Or.inl hidle) 1)

end KernelModules.Part3
