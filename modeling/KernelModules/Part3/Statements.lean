/-
  The locked regions, statement by statement.

  Elsewhere a locked region is one function on the state of the module.  Here it is the code of
  the source: its assignments, conditions, list operations and turns of loops one by one, each of
  them a `Stmt`, with the local variables it uses.  A statement acts on the building (and, for the
  model's record, on the history) and says which statements come next, in the sense of
  `Lib.Stepwise`.

  `list_for_each_safe(pos, n, head)` keeps two cursors; it reads `n = pos->next` from the list as it
  is at that moment, before the body of the loop runs.  A cursor is a node or the head of a list.
  A statement that follows a cursor whose node is no longer there, or that takes the head of
  another list for a node, is a fault.

  From a sound state the code of every region ends, in the state the function of the region gives;
  and until its last statement it leaves `e.shutdown` alone, the one variable that is read outside
  of the mutex (`code_ends`).
-/
import KernelModules.Lib.Stepwise
import KernelModules.Part3.LockRefinement

namespace KernelModules.Part3

open Function KernelModules.Lib

/-! ## Statements -/

/-- What the statements act on. -/
abbrev Store := Building × List Event

/-- What a cursor of a loop points to. -/
inductive Cursor
  /-- The head of the list of this floor: the end of the loop. -/
  | head (c : Slot)
  | node (p : Passenger)

/-- The first of what is left of the list of floor `c`. -/
def cursor (c : Slot) : List Passenger → Cursor
  | [] => .head c
  | p :: _ => .node p

inductive Stmt
  /-- An assignment or a list operation; `none` is an index out of bounds. -/
  | write (f : Building → Option Building)
  /-- The model's record of what happens. -/
  | record (ev : Building → Event)
  /-- `if (cond) yes else no`. -/
  | branch (cond : Building → Option Bool) (yes no : List Stmt)
  /-- The head of the loop over `e.p[e._current]`. -/
  | unloadFirst
  /-- The test of its cursor, and its body. -/
  | unloadEach (pos n : Cursor)
  /-- `pos = n, n = pos->next`. -/
  | unloadNext (n : Cursor)
  /-- The head of the loop over `b.f[e._current].waiting`. -/
  | loadFirst
  | loadEach (pos n : Cursor)
  | loadNext (n : Cursor)
  /-- `printStats`, which changes nothing. -/
  | print

/-- An assignment to a field of `e`. -/
def Stmt.assign (g : Elevator → Elevator) : Stmt := .write fun b => some { b with e := g b.e }

/-- An assignment to a field of `b.f[i]`. -/
def Stmt.assignFloor (i : Int) (g : Floors → Floors) : Stmt :=
  .write fun b => (slot i).map fun k => b.onFloor k g

/-- `pos->next`, for the node of `p` on the list of floor `c`. -/
def nextOn (c : Slot) : List Passenger → Passenger → Option Cursor
  | [], _ => none
  | q :: l, p => if q.node = p.node then some (cursor c l) else nextOn c l p

/-! ## The code -/

/-- `addPass`. -/
def addPassCode (p : Passenger) : List Stmt :=
  if getWeight p = -1 ∨ getPass p = -1 then []
  else [
    .assignFloor p.sFloor fun fl => { fl with waiting := fl.waiting ++ [p] },
    .assignFloor p.sFloor fun fl => { fl with wUnits := fl.wUnits + getWeight p },
    .assignFloor p.sFloor fun fl => { fl with pUnits := fl.pUnits + getPass p },
    .assignFloor p.sFloor fun fl => { fl with toLoad := fl.toLoad.count p.type 1 }]

/-- `delPass`. -/
def delPassCode (p : Passenger) : List Stmt :=
  if getWeight p = -1 ∨ getPass p = -1 then []
  else [
    .assign fun e => { e with toLoad := e.toLoad.count p.type (-1) },
    .assign fun e => { e with wUnits := e.wUnits - getWeight p },
    .assign fun e => { e with pUnits := e.pUnits - getPass p },
    .assignFloor p.sFloor fun fl => { fl with serviced := fl.serviced + 1 },
    .write fun b => some (b.listDel p)]

/-- `movePass`. -/
def movePassCode (p : Passenger) : List Stmt :=
  if getWeight p = -1 ∨ getPass p = -1 then []
  else [
    .assignFloor p.sFloor fun fl => { fl with toLoad := fl.toLoad.count p.type (-1) },
    .assign fun e => { e with toLoad := e.toLoad.count p.type 1 },
    .assignFloor p.sFloor fun fl => { fl with wUnits := fl.wUnits - getWeight p },
    .assignFloor p.sFloor fun fl => { fl with pUnits := fl.pUnits - getPass p },
    .assign fun e => { e with wUnits := e.wUnits + getWeight p },
    .assign fun e => { e with pUnits := e.pUnits + getPass p },
    -- list_move_tail
    .write fun b => (slot p.dFloor).map fun j =>
      { b.listDel p with e := { (b.listDel p).e with p := pushTail j p (b.listDel p).e.p } }]

/-- `e.status != OFFLINE`. -/
def isOnline (b : Building) : Option Bool := some (b.e.status != .offline)

/-- `!list_empty(&b.f[e._current].waiting) || !list_empty(&e.p[e._current])`. -/
def anybodyHere (b : Building) : Option Bool :=
  (slot b.e.current).map fun c => !(b.f c).waiting.isEmpty || !(b.e.p c).isEmpty

/-- `!list_empty(&e.p[e._current])`. -/
def anybodyArrives (b : Building) : Option Bool :=
  (slot b.e.current).map fun c => !(b.e.p c).isEmpty

/-- `checkFloor(&b, e._current) && e.shutdown != 1`. -/
def anybodyBoards (b : Building) : Option Bool :=
  (checkFloor b b.e.current).map fun anyone => anyone && b.e.shutdown != 1

/-- The first region of `runElevator`. -/
def loadCode : List Stmt :=
  [.branch isOnline
    [.branch anybodyHere
      [.assign fun e => { e with status := .loading },
        .branch anybodyArrives [.unloadFirst] [],
        .branch anybodyBoards [.loadFirst] []]
      []]
    []]

/-- The innermost `else` of the second region: the cabin goes to `e.next`. -/
def moveCabinCode : List Stmt :=
  [.record fun b => .moved b.e.current b.e.next,
    .branch (fun b => some (b.e.next == 0))
      [.assign fun e => { e with current := e.next },
        .assign fun e => { e with next := e.next + 1 },
        .assign fun e => { e with direction := 1 },
        .assign fun e => { e with status := .up }]
      [.branch (fun b => some (b.e.next == 9))
        [.assign fun e => { e with current := e.next },
          .assign fun e => { e with next := e.next - 1 },
          .assign fun e => { e with direction := 0 },
          .assign fun e => { e with status := .down }]
        [.branch (fun b => some (b.e.direction == 1))
          [.assign fun e => { e with status := .up },
            .assign fun e => { e with current := e.next },
            .assign fun e => { e with next := e.next + 1 }]
          [.assign fun e => { e with status := .down },
            .assign fun e => { e with current := e.next },
            .assign fun e => { e with next := e.next - 1 }]]]]

/-- The second region of `runElevator`.  `waiting` and `servicing` are read one after the other; the
    branch taken remembers them. -/
def moveCode : List Stmt :=
  [.branch isOnline
    [.branch (fun b => some (checkBuilding b))
      [.branch (fun b => some (checkElevator b.e))
        moveCabinCode
        [.branch (fun b => some (b.e.shutdown != 0))
          [.record fun _ => .wentOffline, .assign fun e => { e with status := .offline }]
          moveCabinCode]]
      [.branch (fun b => some (checkElevator b.e))
        moveCabinCode
        [.record fun _ => .idled, .assign fun e => { e with status := .idle }]]]
    []]

/-- The region of `issue_request`. -/
def insertCode (p : Passenger) : List Stmt := (.record fun _ => .accepted p) :: addPassCode p

/-- The region of `start_elevator`. -/
def startCode : List Stmt :=
  [.branch isOnline
    []
    [.record fun _ => .started,
      .assign fun e => { e with status := .idle },
      .assign fun e => { e with current := 0 },
      .assign fun e => { e with next := 1 },
      .assign fun e => { e with shutdown := 0 }]]

/-- The region of `stop_elevator`. -/
def stopCode : List Stmt :=
  [.branch (fun b => some (b.e.shutdown != 0))
    []
    [.record fun _ => .stopped, .assign fun e => { e with shutdown := 1 }]]

/-- The code of a locked region. -/
def Region.code : Region → List Stmt
  | .load => loadCode
  | .move => moveCode
  | .insert p => insertCode p
  | .start => startCode
  | .stop => stopCode
  | .print => [.print]

/-- The body of the loop over the cabin's list. -/
def unloadTurn (p : Passenger) : Stmt :=
  .branch (fun b => some (decide (p.dFloor = b.e.current)))
    ((.record fun b => .delivered p b.e.current) :: delPassCode p) []

/-- The body of the loop over the waiting list; its `else` is the `break`. -/
def loadTurn (p : Passenger) (n : Cursor) : Stmt :=
  .branch (fun b => some (canFit p b.e && pDirection p == b.e.direction))
    [.branch (fun b => some (decide (p.sFloor = b.e.current)))
      ((.record fun b => .boarded p b.e.current) :: movePassCode p) [],
      .loadNext n]
    []

/-- Running one statement. -/
def Stmt.exec : Stmt → Store → Option (Store × List Stmt)
  | .write f, (b, log) => (f b).map fun b' => ((b', log), [])
  | .record ev, (b, log) => some ((b, log ++ [ev b]), [])
  | .branch cond yes no, st => (cond st.1).map fun taken => (st, if taken then yes else no)
  | .unloadFirst, st => (slot st.1.e.current).map fun c =>
    (st, [.unloadEach (cursor c (st.1.e.p c)) (cursor c (st.1.e.p c).tail)])
  | .unloadEach (.head c) _, st => if st.1.e.current = c then some (st, []) else none
  | .unloadEach (.node p) n, st => some (st, [unloadTurn p, .unloadNext n])
  | .unloadNext (.head c), st => some (st, [.unloadEach (.head c) (cursor c (st.1.e.p c))])
  | .unloadNext (.node p), st => do
    let c ← slot st.1.e.current
    let n ← nextOn c (st.1.e.p c) p
    some (st, [.unloadEach (.node p) n])
  | .loadFirst, st => (slot st.1.e.current).map fun c =>
    (st, [.loadEach (cursor c (st.1.f c).waiting) (cursor c (st.1.f c).waiting.tail)])
  | .loadEach (.head c) _, st => if st.1.e.current = c then some (st, []) else none
  | .loadEach (.node p) n, st => some (st, [loadTurn p n])
  | .loadNext (.head c), st => some (st, [.loadEach (.head c) (cursor c (st.1.f c).waiting)])
  | .loadNext (.node p), st => do
    let c ← slot st.1.e.current
    let n ← nextOn c (st.1.f c).waiting p
    some (st, [.loadEach (.node p) n])
  | .print, st => some (st, [])

/-- `e.shutdown` is as it was. -/
def SameShutdown (st st' : Store) : Prop := st'.1.e.shutdown = st.1.e.shutdown

/-- What the statements act on, in a state of the module ... -/
def Sys.store (s : Sys) : Store := (s.b, s.log)

/-- ... and the state after they have. -/
def Sys.withStore (s : Sys) (st : Store) : Sys := { s with b := st.1, log := st.2 }

/-- Code that leaves `e.shutdown` alone. -/
abbrev Runs := Does Stmt.exec SameShutdown

/-- Code that leaves `e.shutdown` alone, but for its last statement. -/
abbrev RunsOut := Ends Stmt.exec SameShutdown

/-! ## Single statements -/

variable {b b' : Building} {log : List Event} {rest : List Stmt} {st : Store}

theorem Runs.write {f : Building → Option Building} (hf : f b = some b')
    (hsd : b'.e.shutdown = b.e.shutdown) (hrest : Runs rest (b', log) st) :
    Runs (.write f :: rest) (b, log) st := by
  have hexec : Stmt.exec (.write f) (b, log) = some ((b', log), []) := by
    show (f b).map _ = _
    rw [hf]
    rfl
  exact Does.cons hexec hsd hrest

theorem Runs.assign {g : Elevator → Elevator} (hsd : (g b.e).shutdown = b.e.shutdown)
    (hrest : Runs rest ({ b with e := g b.e }, log) st) :
    Runs (.assign g :: rest) (b, log) st := Runs.write rfl hsd hrest

theorem Runs.assignFloor {i : Int} {k : Slot} {g : Floors → Floors} (hi : i = k)
    (hrest : Runs rest (b.onFloor k g, log) st) : Runs (.assignFloor i g :: rest) (b, log) st := by
  have hslot : (slot i).map (fun k => b.onFloor k g) = some (b.onFloor k g) := by
    rw [hi, slot_coe]
    rfl
  exact Runs.write hslot rfl hrest

theorem Runs.record {ev : Building → Event} (hrest : Runs rest (b, log ++ [ev b]) st) :
    Runs (.record ev :: rest) (b, log) st := by
  have hexec : Stmt.exec (.record ev) (b, log) = some ((b, log ++ [ev b]), []) := rfl
  exact Does.cons hexec rfl hrest

/-- A condition whose indices are in bounds has a value, and goes on with one of its sides. -/
theorem branch_exec {cond : Building → Option Bool} {taken : Bool} (hcond : cond b = some taken)
    (yes no : List Stmt) : Stmt.exec (.branch cond yes no) (b, log)
      = some ((b, log), if taken then yes else no) := by
  show (cond b).map _ = _
  rw [hcond]
  rfl

/-- A branch goes on with the side its condition says.  Conditions only look, so `e.shutdown` is
    left alone by all of them. -/
theorem Runs.branch {cond : Building → Option Bool} {taken : Bool} {yes no : List Stmt}
    (hcond : cond b = some taken)
    (hrest : Runs ((if taken then yes else no) ++ rest) (b, log) st) :
    Runs (.branch cond yes no :: rest) (b, log) st :=
  Does.cons (branch_exec hcond yes no) rfl hrest

/-- The same for code whose last statement may write `e.shutdown`. -/
theorem RunsOut.branch {cond : Building → Option Bool} {taken : Bool} {yes no : List Stmt}
    (hcond : cond b = some taken)
    (hrest : RunsOut ((if taken then yes else no) ++ rest) (b, log) st) :
    RunsOut (.branch cond yes no :: rest) (b, log) st :=
  Ends.more (branch_exec hcond yes no) rfl hrest

theorem isOnline_eq_false (hoff : b.e.status = .offline) : isOnline b = some false := by
  rw [isOnline, hoff]
  rfl

theorem isOnline_eq_true (hon : b.e.status ≠ .offline) : isOnline b = some true :=
  congrArg some (bne_iff_ne.mpr hon)

/-! ## The list functions -/

/-- `addPass`, for a passenger of the building: its four assignments in a row leave what the
    function leaves. -/
theorem addPass_runs {p : Passenger} {i : Slot} (hp : p.Valid) (hi : p.sFloor = i) :
    Runs (addPassCode p) (b, log) (b.queued i p, log) := by
  have hspec := addPass_spec b hp hi
  rw [addPass, if_neg hp.not_invalid, hi, slot_coe] at hspec
  rw [addPassCode, if_neg hp.not_invalid]
  refine Runs.assignFloor hi (Runs.assignFloor hi (Runs.assignFloor hi (Runs.assignFloor hi ?_)))
  rw [← Option.some.inj hspec]
  simp only [Building.onFloor, update_idem, update_self]
  exact Does.nil

/-- `delPass`, for the head of one of the cabin's lists.  The counters are written before the node
    is unlinked. -/
theorem delPass_runs {p : Passenger} {i j : Slot} {l : List Passenger}
    (hL : Linked Passenger.node b.lists) (hp : p.Valid) (hi : p.sFloor = i)
    (hj : b.e.p j = p :: l) : Runs (delPassCode p) (b, log) (b.delivered i j p l, log) := by
  have hspec := delPass_spec hL hp hi hj
  rw [delPass, if_neg hp.not_invalid, hi, slot_coe] at hspec
  rw [delPassCode, if_neg hp.not_invalid]
  refine Runs.assign rfl (Runs.assign rfl (Runs.assign rfl (Runs.assignFloor hi ?_)))
  refine Runs.write rfl rfl ?_
  rw [← Option.some.inj hspec]
  exact Does.nil

/-- `movePass`, for the head of a waiting list: six assignments to the counters of two places, and
    then the node changes lists. -/
theorem movePass_runs {p : Passenger} {i j : Slot} {l : List Passenger}
    (hL : Linked Passenger.node b.lists) (hp : p.Valid) (hi : p.sFloor = i) (hj : p.dFloor = j)
    (hw : (b.f i).waiting = p :: l) : Runs (movePassCode p) (b, log) (b.boarded i j p l, log) := by
  have hspec := movePass_spec hL hp hi hj hw
  rw [movePass, if_neg hp.not_invalid, hi, hj, slot_coe, slot_coe] at hspec
  rw [movePassCode, if_neg hp.not_invalid]
  refine Runs.assignFloor hi (Runs.assign rfl (Runs.assignFloor hi (Runs.assignFloor hi ?_)))
  refine Runs.assign rfl (Runs.assign rfl ?_)
  have hslot : slot p.dFloor = some j := by rw [hj, slot_coe]
  refine Runs.write (congrArg (Option.map _) hslot) rfl ?_
  rw [← Option.some.inj hspec]
  simp only [Building.onFloor, update_idem, update_self]
  exact Does.nil

/-! ## The loops -/

/-- A statement that only looks goes on with what it finds; it is a step all the same. -/
theorem Runs.look {x : Stmt} {more : List Stmt} (hexec : x.exec st = some (st, more))
    {st' : Store} (hrest : Runs (more ++ rest) st st') : Runs (x :: rest) st st' :=
  Does.cons hexec rfl hrest

theorem nextOn_head (c : Slot) (p : Passenger) (l : List Passenger) :
    nextOn c (p :: l) p = some (cursor c l) := if_pos rfl

/-- At the head of the list the loop is over. -/
theorem eachHead_exec {c : Slot} (hc : st.1.e.current = c) (n : Cursor) :
    Stmt.exec (.unloadEach (.head c) n) st = some (st, []) ∧
      Stmt.exec (.loadEach (.head c) n) st = some (st, []) := ⟨if_pos hc, if_pos hc⟩

/-- `pos = n, n = pos->next` in the cabin's list, once the node in front of `n` is gone ... -/
theorem unloadNext_exec {c : Slot} {l : List Passenger} (hc : st.1.e.current = c)
    (hp : st.1.e.p c = l) : Stmt.exec (.unloadNext (cursor c l)) st
      = some (st, [.unloadEach (cursor c l) (cursor c l.tail)]) := by
  cases l with
  | nil =>
    show some (st, [Stmt.unloadEach (.head c) (cursor c (st.1.e.p c))]) = _
    rw [hp]
    rfl
  | cons q l =>
    show (slot st.1.e.current).bind _ = _
    rw [hc, slot_coe]
    show (nextOn c (st.1.e.p c) q).bind _ = _
    rw [hp, nextOn_head]
    rfl

/-- ... and in a waiting list. -/
theorem loadNext_exec {c : Slot} {l : List Passenger} (hc : st.1.e.current = c)
    (hw : (st.1.f c).waiting = l) : Stmt.exec (.loadNext (cursor c l)) st
      = some (st, [.loadEach (cursor c l) (cursor c l.tail)]) := by
  cases l with
  | nil =>
    show some (st, [Stmt.loadEach (.head c) (cursor c (st.1.f c).waiting)]) = _
    rw [hw]
    rfl
  | cons q l =>
    show (slot st.1.e.current).bind _ = _
    rw [hc, slot_coe]
    show (nextOn c (st.1.f c).waiting q).bind _ = _
    rw [hw, nextOn_head]
    rfl

/-- **The loop over the cabin's list**, at the first node: everybody is delivered.  By induction on
    the list; the cursor that was read ahead is the new first node. -/
theorem unloadEach_runs : ∀ (ps : List Passenger) {s : Sys} {c : Slot}, Sound s →
    s.b.e.status = .loading → s.b.e.current = c → s.b.e.p c = ps →
    Runs [.unloadEach (cursor c ps) (cursor c ps.tail)] s.store (s.unloaded c ps []).store := by
  intro ps
  induction ps with
  | nil =>
    intro s c _ _ hc hp
    rw [Sys.unloaded_nil hp]
    exact Runs.look (eachHead_exec hc _).1 .nil
  | cons p ps ih =>
    intro s c hs hld hc hp
    obtain ⟨hvalid, hdst⟩ := hs.stock.riding_head hp
    obtain ⟨i, hi⟩ := hvalid.src
    have hstep := LoadStep.deliver hld hc hp hi
    have hp' : ({ s with b := s.b.delivered i c p ps } : Sys).b.e.p c = ps := update_self ..
    have hnext := ih (c := c) (hstep.sound hs) hld hc hp'
    rw [s.unloaded_cons hi] at hnext
    have hhere : some (decide (p.dFloor = s.b.e.current)) = some true :=
      congrArg some (decide_eq_true (hdst.trans hc.symm))
    refine Runs.look rfl (Runs.branch hhere ?_)
    refine Does.append (Runs.record (delPass_runs hs.stock.linked hvalid hi hp)) ?_
    exact Runs.look (unloadNext_exec hc hp') hnext

/-- **The loop over a waiting list**, at the first node: whoever `loadLoop` takes has boarded.  It
    breaks where `loadLoop` stops. -/
theorem loadEach_runs : ∀ (ps : List Passenger) {s : Sys} {c : Slot}, Sound s →
    s.b.e.status = .loading → s.b.e.shutdown ≠ 1 → s.b.e.current = c → (s.b.f c).waiting = ps →
    ∃ s', loadLoop ps s = some s' ∧
      Runs [.loadEach (cursor c ps) (cursor c ps.tail)] s.store s'.store := by
  intro ps
  induction ps with
  | nil => exact fun {s c} _ _ _ hc _ => ⟨s, rfl, Runs.look (eachHead_exec hc _).2 .nil⟩
  | cons p ps ih =>
    intro s c hs hld hsd hc hw
    obtain ⟨hvalid, hsrc⟩ := hs.stock.waiting_head hw
    obtain ⟨j, hj⟩ := hvalid.dst
    cases hb : boards p s.b.e with
    | false =>
      -- the loop breaks here
      have hb' : (canFit p s.b.e && pDirection p == s.b.e.direction) = false := hb
      refine ⟨s, ?_, Runs.look rfl (Runs.branch (congrArg some hb') .nil)⟩
      rw [loadLoop, hb']
      rfl
    | true =>
      have hb' : (canFit p s.b.e && pDirection p == s.b.e.direction) = true := hb
      obtain ⟨hfit, hdir⟩ : canFit p s.b.e = true ∧ pDirection p = s.b.e.direction := by
        simpa using hb'
      have hstep := LoadStep.board hld hsd hc hw hj hfit hdir
      have hw' : (({ s with b := s.b.boarded c j p ps } : Sys).b.f c).waiting = ps := by
        show (update s.b.f c _ c).waiting = _
        rw [update_self]
      obtain ⟨s', hrun, hnext⟩ := ih (c := c) (hstep.sound hs) hld hsd hc hw'
      have hhere : some (decide (p.sFloor = s.b.e.current)) = some true :=
        congrArg some (decide_eq_true (hsrc.trans hc.symm))
      refine ⟨s', ?_, Runs.look rfl (Runs.branch (congrArg some hb') (Runs.branch hhere ?_))⟩
      · rw [loadLoop, if_pos hb', if_pos (hsrc.trans hc.symm),
          movePass_spec hs.stock.linked hvalid hsrc hj hw]
        exact hrun
      · refine Does.append (Runs.record (movePass_runs hs.stock.linked hvalid hsrc hj hw)) ?_
        exact Runs.look (loadNext_exec hc hw') hnext

/-! ## The regions -/

/-- The first inner `if` of the load phase. -/
theorem unloadHere_runs {s : Sys} {c : Slot} (hs : Sound s) (hld : s.b.e.status = .loading)
    (hc : s.b.e.current = c) : Runs [.branch anybodyArrives [.unloadFirst] []] s.store
      (s.unloaded c (s.b.e.p c) []).store := by
  have hcond : anybodyArrives s.b = some (!(s.b.e.p c).isEmpty) := by
    rw [anybodyArrives, hc, slot_coe]
    rfl
  refine Runs.branch hcond ?_
  cases hp : s.b.e.p c with
  | nil =>
    rw [Sys.unloaded_nil hp]
    exact Does.nil
  | cons p ps =>
    have hfirst : Stmt.exec .unloadFirst s.store
        = some (s.store, [.unloadEach (cursor c (p :: ps)) (cursor c (p :: ps).tail)]) := by
      show (slot s.b.e.current).map _ = _
      rw [hc, slot_coe, ← hp]
      rfl
    exact Runs.look hfirst (unloadEach_runs (p :: ps) hs hld hc hp)

/-- The second inner `if` of the load phase. -/
theorem loadHere_runs {s : Sys} {c : Slot} (hs : Sound s) (hld : s.b.e.status = .loading)
    (hc : s.b.e.current = c) : ∃ s', loadHere c s = some s' ∧
      Runs [.branch anybodyBoards [.loadFirst] []] s.store s'.store := by
  have hfloor : checkFloor s.b s.b.e.current = some (!(s.b.f c).waiting.isEmpty) := by
    rw [checkFloor, hc, slot_coe]
    rfl
  have hcond : anybodyBoards s.b
      = some (!(s.b.f c).waiting.isEmpty && s.b.e.shutdown != 1) := by
    rw [anybodyBoards, hfloor]
    rfl
  have hhere : loadHere c s = if !(s.b.f c).waiting.isEmpty && s.b.e.shutdown != 1 then
      loadLoop (s.b.f c).waiting s else some s := by
    rw [loadHere, hfloor]
    rfl
  cases htaken : !(s.b.f c).waiting.isEmpty && s.b.e.shutdown != 1 with
  | false =>
    rw [htaken] at hcond hhere
    exact ⟨s, hhere, Runs.branch hcond .nil⟩
  | true =>
    have hsd : s.b.e.shutdown ≠ 1 := bne_iff_ne.mp (Bool.and_eq_true_iff.mp htaken).2
    obtain ⟨s', hloop, hruns⟩ := loadEach_runs (s.b.f c).waiting hs hld hsd hc rfl
    rw [htaken] at hcond hhere
    refine ⟨s', hhere.trans hloop, Runs.branch hcond ?_⟩
    have hfirst : Stmt.exec .loadFirst s.store
        = some (s.store,
          [.loadEach (cursor c (s.b.f c).waiting) (cursor c (s.b.f c).waiting.tail)]) := by
      show (slot s.b.e.current).map _ = _
      rw [hc, slot_coe]
      rfl
    exact Runs.look hfirst hruns

/-- **The first region** of `runElevator`: offline or with nobody here it is over after its tests,
    and otherwise it runs both inner loops. -/
theorem loadCode_runs {s : Sys} (hs : Sound s) :
    ∃ s', loadBody s = some s' ∧ Runs loadCode s.store s'.store := by
  by_cases hoff : s.b.e.status = .offline
  · refine ⟨s, ?_, Runs.branch (isOnline_eq_false hoff) .nil⟩
    rw [loadBody, if_neg (not_not.mpr hoff)]
  · have hon := isOnline_eq_true hoff
    obtain ⟨c, hc⟩ := hs.motion.track.slot
    have hcond : anybodyHere s.b = some (!(s.b.f c).waiting.isEmpty || !(s.b.e.p c).isEmpty) := by
      rw [anybodyHere, hc, slot_coe]
      rfl
    have hbody : loadBody s = if (s.b.f c).waiting ≠ [] ∨ s.b.e.p c ≠ [] then serveFloor c s
        else some s := by
      rw [loadBody, if_pos hoff, hc, slot_coe]
      rfl
    by_cases hany : (s.b.f c).waiting ≠ [] ∨ s.b.e.p c ≠ []
    · have htaken : (!(s.b.f c).waiting.isEmpty || !(s.b.e.p c).isEmpty) = true := by
        simpa using hany
      have henter := LoadStep.enter hoff
      have hs₁ := henter.sound hs
      obtain ⟨hunload, hchain⟩ := unloadHere_spec (c := c) hs₁ rfl hc
      obtain ⟨s', hload, hboard⟩ :=
        loadHere_runs (c := c) (LoadStep.sound_chain hs₁ hchain) rfl hc
      refine ⟨s', ?_, Runs.branch hon (Runs.branch (hcond.trans (congrArg some htaken)) ?_)⟩
      · rw [hbody, if_pos hany, serveFloor, hunload]
        exact hload
      · have hrest := Does.append (unloadHere_runs (c := c) hs₁ rfl hc) hboard
        exact Runs.assign rfl hrest
    · have htaken : (!(s.b.f c).waiting.isEmpty || !(s.b.e.p c).isEmpty) = false := by
        simpa [not_or] using hany
      refine ⟨s, by rw [hbody, if_neg hany], Runs.branch hon ?_⟩
      exact Runs.branch (hcond.trans (congrArg some htaken)) .nil

/-- The assignments of a move, in the order of the source: the new position is read by those that
    come after it. -/
theorem moveCabin_runs (s : Sys) : Runs moveCabinCode s.store
    ((s.setE (moveCabin s.b.e)).record (.moved s.b.e.current s.b.e.next)).store := by
  refine Runs.record ?_
  unfold moveCabin
  by_cases h0 : s.b.e.next = 0
  · refine Runs.branch (congrArg some (beq_iff_eq.mpr h0)) ?_
    rw [if_pos h0]
    exact Runs.assign rfl (Runs.assign rfl (Runs.assign rfl (Runs.assign rfl .nil)))
  · refine Runs.branch (congrArg some (beq_eq_false_iff_ne.mpr h0)) ?_
    rw [if_neg h0]
    by_cases h9 : s.b.e.next = 9
    · refine Runs.branch (congrArg some (beq_iff_eq.mpr h9)) ?_
      rw [if_pos h9]
      exact Runs.assign rfl (Runs.assign rfl (Runs.assign rfl (Runs.assign rfl .nil)))
    · refine Runs.branch (congrArg some (beq_eq_false_iff_ne.mpr h9)) ?_
      rw [if_neg h9]
      by_cases hup : s.b.e.direction = 1
      · refine Runs.branch (congrArg some (beq_iff_eq.mpr hup)) ?_
        rw [if_pos hup]
        exact Runs.assign rfl (Runs.assign rfl (Runs.assign rfl .nil))
      · refine Runs.branch (congrArg some (beq_eq_false_iff_ne.mpr hup)) ?_
        rw [if_neg hup]
        exact Runs.assign rfl (Runs.assign rfl (Runs.assign rfl .nil))

/-- **The second region** of `runElevator`, one case for each way through its tests. -/
theorem moveCode_runs (s : Sys) : Runs moveCode s.store (moveBody s).store := by
  unfold moveBody
  by_cases hoff : s.b.e.status = .offline
  · rw [if_neg (not_not.mpr hoff)]
    exact Runs.branch (isOnline_eq_false hoff) .nil
  · rw [if_pos hoff]
    refine Runs.branch (isOnline_eq_true hoff) ?_
    cases hwait : checkBuilding s.b with
    | true =>
      refine Runs.branch (congrArg some hwait) ?_
      cases hserv : checkElevator s.b.e with
      | true => exact Runs.branch (congrArg some hserv) (moveCabin_runs s)
      | false =>
        refine Runs.branch (congrArg some hserv) ?_
        cases hsd : s.b.e.shutdown != 0 with
        | true => exact Runs.branch (congrArg some hsd) (Runs.record (Runs.assign rfl .nil))
        | false => exact Runs.branch (congrArg some hsd) (moveCabin_runs s)
    | false =>
      refine Runs.branch (congrArg some hwait) ?_
      cases hserv : checkElevator s.b.e with
      | true => exact Runs.branch (congrArg some hserv) (moveCabin_runs s)
      | false => exact Runs.branch (congrArg some hserv) (Runs.record (Runs.assign rfl .nil))

/-- **The region of `start_elevator`.**  `e.shutdown` is assigned last, so nobody outside sees a
    start before it is over. -/
theorem startCode_runs (s : Sys) : RunsOut startCode s.store (startElevator .ok s).2.store := by
  unfold startElevator
  rw [if_pos (by rfl)]
  by_cases hoff : s.b.e.status = .offline
  · rw [if_neg (not_not.mpr hoff)]
    refine RunsOut.branch (isOnline_eq_false hoff) ?_
    exact (Runs.record (Runs.assign rfl (Runs.assign rfl (Runs.assign rfl .nil)))).ends_append
      (.last rfl)
  · rw [if_pos hoff]
    exact (Runs.branch (isOnline_eq_true hoff) .nil).ends (List.cons_ne_nil _ _)

/-- **The region of `stop_elevator`.**  It assigns nothing but `e.shutdown`, and that last. -/
theorem stopCode_runs (s : Sys) : RunsOut stopCode s.store (stopElevator .ok s).2.store := by
  unfold stopElevator
  rw [if_pos (by rfl)]
  by_cases hsd : s.b.e.shutdown = 0
  · have hup : some (s.b.e.shutdown != 0) = some false := by rw [hsd]; rfl
    rw [if_neg (not_not.mpr hsd)]
    exact RunsOut.branch hup ((Runs.record .nil).ends_append (.last rfl))
  · have hup : some (s.b.e.shutdown != 0) = some true := congrArg some (bne_iff_ne.mpr hsd)
    rw [if_pos hsd]
    exact (Runs.branch hup .nil).ends (List.cons_ne_nil _ _)

/-- The model's bookkeeping at the end of a region: whose turn it is, and who is in the gap. -/
def Region.ended (s : Sys) : Region → Sys
  | .load => { s with pc := .move }
  | .move => { s with pc := .load }
  | .insert p => { s with inflight := s.inflight.erase p }
  | .start | .stop | .print => s

/-- A new building and a longer history, and nothing else: the module is what its statements have
    made of it. -/
theorem Sys.eq_withStore {s t : Sys} {pc : Phase} (hpc : t.pc = pc) (hnodes : t.nodes = s.nodes)
    (hin : t.inflight = s.inflight) : t = { s.withStore t.store with pc := pc } := by
  rw [← hpc, Sys.withStore, ← hnodes, ← hin]
  rfl

/-- **The code of a region**, run from a sound state without interruption, does what the function
    of the region says; and all the while, up to its last statement, `e.shutdown` stays as it was. -/
theorem code_ends {s : Sys} (hs : Sound s) {r : Region} (hr : ∀ p, r = .insert p → p.Valid) :
    ∃ sys, r.body s = some sys ∧ RunsOut r.code s.store sys.store ∧
      sys = r.ended (s.withStore sys.store) := by
  cases r with
  | load =>
    obtain ⟨t, hphase, hstop, _⟩ := loadPhase_spec hs
    obtain ⟨s', hbody, hruns⟩ := loadCode_runs hs
    have ht : t = { s' with pc := .move } := by
      rw [loadPhase, hbody] at hphase
      exact (Option.some.inj hphase).symm
    refine ⟨t, hphase, ?_, ?_⟩
    · rw [ht]
      exact hruns.ends (List.cons_ne_nil _ _)
    · cases hstop <;> exact Sys.eq_withStore rfl rfl rfl
  | move =>
    refine ⟨movePhase s, rfl, (moveCode_runs s).ends (List.cons_ne_nil _ _), ?_⟩
    generalize ht : movePhase s = t
    cases ht ▸ movePhase_step s <;> exact Sys.eq_withStore rfl rfl rfl
  | insert p =>
    have hp := hr p rfl
    obtain ⟨i, hi⟩ := hp.src
    have hruns : Runs (insertCode p) s.store (s.b.queued i p, s.log ++ [.accepted p]) :=
      Runs.record (addPass_runs hp hi)
    refine ⟨({ s with
      b := s.b.queued i p
      inflight := s.inflight.erase p } : Sys).record (.accepted p), ?_,
      hruns.ends (List.cons_ne_nil _ _), rfl⟩
    show enqueue p _ = _
    rw [enqueue, addPass_spec _ hp hi]
    rfl
  | start =>
    refine ⟨(startElevator .ok s).2, rfl, startCode_runs s, ?_⟩
    unfold startElevator
    split_ifs <;> rfl
  | stop =>
    refine ⟨(stopElevator .ok s).2, rfl, stopCode_runs s, ?_⟩
    unfold stopElevator
    split_ifs <;> rfl
  | print => exact ⟨s, rfl, Ends.last rfl, rfl⟩

end KernelModules.Part3
