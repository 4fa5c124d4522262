/-
  The module on 32-bit counters.

  `Header` and `Driver` count in exact integers.  The source counts in `int`, and the kernel is built
  so that signed arithmetic wraps around: whatever is stored in a counter is stored modulo 2³².
  Here the functions that count are written down a second time, with every sum going through `wrap`
  as it is stored, and so is the machine that runs them, `system32`.

  1. **Program** — the 32-bit functions, each beside the source as its exact counterpart is.
  2. **Step** — wrapping commutes with everything the module computes.  For the additions this is
     arithmetic modulo 2³²; the one place where a counter DECIDES something is `canFit`, and the
     two counters it reads are within `MAX_W` and `MAX_P` in every sound state, so there nothing
     has wrapped.
  3. **Run** — `int_run`: on every schedule the 32-bit module does exactly what the exact one does —
     the same lists, the same moves, the same history — and what its floors count is the exact
     count modulo 2³².  No overflow ever sends a passenger astray; and nothing wraps at all before
     2²⁸ requests have been accepted at one floor.
-/
import KernelModules.Lib.Refinement
import KernelModules.Part3.Fifo
import KernelModules.Part3.Report
import KernelModules.Part3.Safety

namespace KernelModules.Part3

open Function Relation KernelModules.Lib

/-! ## The program -/

/-- What an `int` holds when `v` is stored in it. -/
def wrap (v : Int) : Int := v.bmod (2 ^ 32)

namespace Load

/-- `w_units += w`, `p_units += q`. -/
def weigh32 (l : Load) (w q : Int) : Load :=
  { l with wUnits := wrap (l.wUnits + w), pUnits := wrap (l.pUnits + q) }

/-- `switch (p->type)`: the counter of that type changes by `k`. -/
def count32 (l : Load) (t : PType) (k : Int) : Load :=
  match t with
  | .adult => { l with adult := wrap (l.adult + k) }
  | .child => { l with child := wrap (l.child + k) }
  | .room => { l with room := wrap (l.room + k) }
  | .bell => { l with bell := wrap (l.bell + k) }
  | .raw _ => l

end Load

/-- `canFit`. -/
def canFit32 (p : Passenger) (e : Elevator) : Bool :=
  wrap (getWeight p + e.wUnits) ≤ maxW && wrap (getPass p + e.pUnits) ≤ maxP

/-- `addPass`. -/
def addPass32 (b : Building) (p : Passenger) : Option Building :=
  if getWeight p = -1 ∨ getPass p = -1 then some b
  else do
    let i ← slot p.sFloor
    some (b.onFloor i fun fl => { fl with
      waiting := fl.waiting ++ [p]
      toLoad := (fl.toLoad.weigh32 (getWeight p) (getPass p)).count32 p.type 1 })

/-- `delPass`. -/
def delPass32 (b : Building) (p : Passenger) : Option Building :=
  if getWeight p = -1 ∨ getPass p = -1 then some b
  else do
    let i ← slot p.sFloor
    let b := { b with e := { b.e with
      toLoad := (b.e.toLoad.count32 p.type (-1)).weigh32 (-getWeight p) (-getPass p) } }
    let b := b.onFloor i fun fl => { fl with serviced := wrap (fl.serviced + 1) }
    some (b.listDel p)

/-- `movePass`. -/
def movePass32 (b : Building) (p : Passenger) : Option Building :=
  if getWeight p = -1 ∨ getPass p = -1 then some b
  else do
    let i ← slot p.sFloor
    let j ← slot p.dFloor
    let b := b.onFloor i fun fl => { fl with
      toLoad := (fl.toLoad.count32 p.type (-1)).weigh32 (-getWeight p) (-getPass p) }
    let b := { b with e := { b.e with
      toLoad := (b.e.toLoad.count32 p.type 1).weigh32 (getWeight p) (getPass p) } }
    let b := b.listDel p
    some { b with e := { b.e with p := pushTail j p b.e.p } }

/-- The loop over `e.p[e._current]`. -/
def unloadLoop32 : List Passenger → Sys → Option Sys
  | [], s => some s
  | p :: ps, s =>
    if p.dFloor = s.b.e.current then do
      let b ← delPass32 s.b p
      unloadLoop32 ps (({ s with b := b } : Sys).record (.delivered p s.b.e.current))
    else unloadLoop32 ps s

/-- The loop over `b.f[e._current].waiting`. -/
def loadLoop32 : List Passenger → Sys → Option Sys
  | [], s => some s
  | p :: ps, s =>
    if canFit32 p s.b.e && pDirection p == s.b.e.direction then
      if p.sFloor = s.b.e.current then do
        let b ← movePass32 s.b p
        loadLoop32 ps (({ s with b := b } : Sys).record (.boarded p s.b.e.current))
      else loadLoop32 ps s
    else some s

/-- The first inner `if` of the load phase. -/
def unloadHere32 (c : Slot) (s : Sys) : Option Sys :=
  if s.b.e.p c ≠ [] then unloadLoop32 (s.b.e.p c) s else some s

/-- The second inner `if`. -/
def loadHere32 (c : Slot) (s : Sys) : Option Sys := do
  let anyone ← checkFloor s.b s.b.e.current
  if anyone && s.b.e.shutdown != 1 then loadLoop32 (s.b.f c).waiting s else some s

/-- The first locked region of the loop, after which the thread is due to move. -/
def loadPhase32 (s : Sys) : Option Sys :=
  (if s.b.e.status ≠ .offline then do
    let c ← slot s.b.e.current
    if (s.b.f c).waiting ≠ [] ∨ s.b.e.p c ≠ [] then
      (unloadHere32 c (openDoors s)).bind (loadHere32 c)
    else some s
  else some s).map fun s => { s with pc := .move }

/-- The innermost `else` of the move phase. -/
def moveCabin32 (e : Elevator) : Elevator :=
  if e.next = 0 then
    { e with current := e.next, next := wrap (e.next + 1), direction := 1, status := .up }
  else if e.next = 9 then
    { e with current := e.next, next := wrap (e.next - 1), direction := 0, status := .down }
  else if e.direction = 1 then
    { e with status := .up, current := e.next, next := wrap (e.next + 1) }
  else
    { e with status := .down, current := e.next, next := wrap (e.next - 1) }

/-- The second locked region of the loop, after which the thread is due to load. -/
def movePhase32 (s : Sys) : Sys :=
  { (if s.b.e.status ≠ .offline then
      let waiting := checkBuilding s.b
      let servicing := checkElevator s.b.e
      if !servicing && !waiting then
        (s.setE { s.b.e with status := .idle }).record .idled
      else if !servicing && s.b.e.shutdown != 0 then
        (s.setE { s.b.e with status := .offline }).record .wentOffline
      else
        (s.setE (moveCabin32 s.b.e)).record (.moved s.b.e.current s.b.e.next)
    else s) with pc := .load }

/-- The steps.  The calls but `issue_request` count nothing. -/
def exec32 (s : Sys) : Act → Option Sys
  | .insert p => (addPass32 s.b p).map fun b =>
      ({ s with b := b, inflight := s.inflight.erase p } : Sys).record (.accepted p)
  | .load => loadPhase32 s
  | .move => some (movePhase32 s)
  | a => exec s a

/-- The module on 32-bit counters, under the scheduler of `system`. -/
def system32 : Machine Sys Act := { system with exec := exec32 }

/-! ## Wrapped counters -/

/-- Wrapping once more changes nothing, so a sum of stored counters is stored as the sum of what
    they count. -/
theorem wrap_add (a b : Int) : wrap (wrap a + b) = wrap (a + b) := Int.bmod_add_bmod

theorem add_wrap (a b : Int) : wrap (a + wrap b) = wrap (a + b) := Int.add_bmod_bmod

theorem wrap_of_isInt {v : Int} (h : IsInt v) : wrap v = v := by
  obtain ⟨hlo, hhi⟩ := h
  exact Int.bmod_eq_of_le (by norm_num; omega) (by norm_num; omega)

theorem isInt_wrap (v : Int) : IsInt (wrap v) := by
  have hlo := Int.le_bmod (x := v) (m := 2 ^ 32) (by decide)
  have hhi := Int.bmod_lt (x := v) (m := 2 ^ 32) (by decide)
  unfold IsInt wrap
  norm_num at hlo hhi ⊢
  omega

/-- The counters, as `int`s hold them. -/
def Load.wrap (l : Load) : Load :=
  ⟨Part3.wrap l.wUnits, Part3.wrap l.pUnits, Part3.wrap l.adult, Part3.wrap l.child,
    Part3.wrap l.room, Part3.wrap l.bell⟩

theorem Load.weigh32_wrap (l : Load) (w q : Int) : l.wrap.weigh32 w q = (l.weigh w q).wrap := by
  simp only [weigh32, wrap, weigh, wrap_add]

theorem Load.count32_wrap (l : Load) (t : PType) (k : Int) :
    l.wrap.count32 t k = (l.count t k).wrap := by
  cases t <;> simp only [count32, wrap, count, wrap_add]

/-- A floor with its counters wrapped. -/
def Floors.wrap (fl : Floors) : Floors :=
  { fl with toLoad := fl.toLoad.wrap, serviced := Part3.wrap fl.serviced }

/-- A building with the counters of its floors wrapped. -/
def Building.wrap (b : Building) : Building := { b with f := fun i => (b.f i).wrap }

/-- A building with all its counters wrapped. -/
def Building.wrapAll (b : Building) : Building where
  f := fun i => (b.f i).wrap
  e := { b.e with toLoad := b.e.toLoad.wrap }

/-- The module with the counters of its floors wrapped. -/
def Sys.wrap (s : Sys) : Sys := { s with b := s.b.wrap }

/-- The module with all its counters wrapped. -/
def Sys.wrapAll (s : Sys) : Sys := { s with b := s.b.wrapAll }

/-! ### The cabin's counters never wrap -/

/-- The cabin's counters are small. -/
structure Small (l : Load) : Prop where
  wUnits : 0 ≤ l.wUnits ∧ l.wUnits ≤ 30
  pUnits : 0 ≤ l.pUnits ∧ l.pUnits ≤ 10
  adult : 0 ≤ l.adult ∧ l.adult ≤ 10
  child : 0 ≤ l.child ∧ l.child ≤ 10
  room : 0 ≤ l.room ∧ l.room ≤ 10
  bell : 0 ≤ l.bell ∧ l.bell ≤ 10

/-- Every passenger takes at least one unit of room.  This is what bounds the number of passengers
    of each type. -/
theorem length_le_pass {l : List Passenger} (h : ∀ p ∈ l, p.Valid) :
    (l.length : Int) ≤ (l.map getPass).sum := by
  induction l with
  | nil => exact Int.le_refl 0
  | cons p ps ih =>
    have hp := Passenger.getPass_range (h p List.mem_cons_self).known
    have hps := ih fun q hq => h q (List.mem_cons_of_mem p hq)
    rw [List.map_cons, List.sum_cons, List.length_cons]
    push_cast
    omega

/-- The capacity bounds the counters of the cabin, and nobody takes less than one unit of room:
    they are small, and none of them can have wrapped. -/
theorem Stock.small {b : Building} (h : Stock b) : Small b.e.toLoad := by
  have hcap := h.withinCapacity
  have hcounts : b.e.toLoad.Counts (onboard b.e) := by
    rw [h.cabin, total_onboard]
    exact counts_sum_unit _
  have hlen : ((onboard b.e).length : Int) ≤ 10 := by
    refine Int.le_trans (length_le_pass fun p hp => ?_) hcap.pass.2
    obtain ⟨j, hj⟩ := mem_onboard.mp hp
    exact (h.riding hj).1
  have hcount : ∀ q : Passenger → Bool, ((onboard b.e).countP q : Int) ≤ 10 := by
    intro q
    have : ((onboard b.e).countP q : Int) ≤ (onboard b.e).length := by
      exact_mod_cast List.countP_le_length
    omega
  refine ⟨hcap.wUnits, hcap.pUnits, ?_, ?_, ?_, ?_⟩
  · rw [hcounts.adult]; exact ⟨Int.natCast_nonneg _, hcount _⟩
  · rw [hcounts.child]; exact ⟨Int.natCast_nonneg _, hcount _⟩
  · rw [hcounts.room]; exact ⟨Int.natCast_nonneg _, hcount _⟩
  · rw [hcounts.bell]; exact ⟨Int.natCast_nonneg _, hcount _⟩

theorem Small.wrap {l : Load} (h : Small l) : l.wrap = l := by
  have hint : ∀ {v : Int}, 0 ≤ v ∧ v ≤ 30 → Part3.wrap v = v := by
    intro v hv
    exact wrap_of_isInt ⟨by omega, by omega⟩
  obtain ⟨hw, hq, ha, hc, hr, hb⟩ := h
  rw [Load.wrap, hint hw, hint (v := l.pUnits) (by omega), hint (v := l.adult) (by omega),
    hint (v := l.child) (by omega), hint (v := l.room) (by omega), hint (v := l.bell) (by omega)]

/-- In a sound state it does not matter whether the cabin's counters are wrapped too: they are
    small. -/
theorem Sys.wrapAll_eq {s : Sys} (h : Stock s.b) : s.wrapAll = s.wrap := by
  unfold wrapAll wrap Building.wrapAll Building.wrap
  rw [h.small.wrap]

/-! ## One function at a time -/

/-- A change of one floor commutes with wrapping, if it does so on the floor; the other floors are
    not touched on either side. -/
theorem Building.onFloor_wrapAll (b : Building) (i : Slot) {g g' : Floors → Floors}
    (h : ∀ fl, g' fl.wrap = (g fl).wrap) : b.wrapAll.onFloor i g' = (b.onFloor i g).wrapAll := by
  refine Building.ext (funext fun k => ?_) rfl
  show update (fun j => (b.f j).wrap) i (g' (b.f i).wrap) k = (update b.f i (g (b.f i)) k).wrap
  by_cases hk : k = i
  · rw [hk, update_self, update_self, h]
  · rw [update_of_ne hk, update_of_ne hk]

/-- The three list functions in `int`, from a wrapped building, are the exact ones with their result
    wrapped.  None of them compares two counters ... -/
theorem addPass32_wrapAll (b : Building) (p : Passenger) :
    addPass32 b.wrapAll p = (addPass b p).map Building.wrapAll := by
  unfold addPass32 addPass
  split
  · rfl
  · cases slot p.sFloor with
    | none => rfl
    | some i =>
      refine congrArg some (b.onFloor_wrapAll i fun fl => ?_)
      simp only [Floors.wrap, Load.weigh32_wrap, Load.count32_wrap]

/-- ... they only add to them, whatever the passenger's type ... -/
theorem delPass32_wrapAll (b : Building) (p : Passenger) :
    delPass32 b.wrapAll p = (delPass b p).map Building.wrapAll := by
  unfold delPass32 delPass
  split
  · rfl
  · cases slot p.sFloor with
    | none => rfl
    | some i =>
      simp only [Option.bind_eq_bind, Option.bind_some, Option.map_some, Building.wrapAll,
        Load.count32_wrap, Load.weigh32_wrap]
      refine congrArg some ?_
      show (Building.onFloor (Building.wrapAll { b with e := { b.e with
        toLoad := (b.e.toLoad.count p.type (-1)).weigh (-getWeight p) (-getPass p) } }) i
          fun fl => { fl with serviced := wrap (fl.serviced + 1) }).listDel p = _
      rw [Building.onFloor_wrapAll (g := fun fl => { fl with serviced := fl.serviced + 1 })]
      · rfl
      · intro fl
        simp only [Floors.wrap, wrap_add]

/-- ... or, here, take from a floor what they give to the cabin. -/
theorem movePass32_wrapAll (b : Building) (p : Passenger) :
    movePass32 b.wrapAll p = (movePass b p).map Building.wrapAll := by
  unfold movePass32 movePass
  split
  · rfl
  · cases slot p.sFloor with
    | none => rfl
    | some i =>
      cases slot p.dFloor with
      | none => rfl
      | some j =>
        simp only [Option.bind_eq_bind, Option.bind_some, Option.map_some]
        rw [b.onFloor_wrapAll i (g := fun fl => { fl with
          toLoad := (fl.toLoad.count p.type (-1)).weigh (-getWeight p) (-getPass p) })]
        · simp only [Building.onFloor, Building.wrapAll, Load.count32_wrap, Load.weigh32_wrap]
          rfl
        · intro fl
          simp only [Floors.wrap, Load.weigh32_wrap, Load.count32_wrap]

/-- The cabin has counters that `canFit` can be asked about. -/
def Roomy (e : Elevator) : Prop :=
  (0 ≤ e.wUnits ∧ e.wUnits ≤ maxW) ∧ 0 ≤ e.pUnits ∧ e.pUnits ≤ maxP

/-- No sum that `canFit` forms can wrap: at most eight units are added to what is at most the
    capacity. -/
theorem canFit32_wrapAll {b : Building} (h : Roomy b.e) (p : Passenger) :
    canFit32 p b.wrapAll.e = canFit p b.e := by
  have hw : -1 ≤ getWeight p ∧ getWeight p ≤ 8 := by unfold getWeight; split_ifs <;> decide
  have hq : -1 ≤ getPass p ∧ getPass p ≤ 2 := by unfold getPass; split_ifs <;> decide
  obtain ⟨hwu, hpu⟩ := h
  unfold maxW at hwu
  unfold maxP at hpu
  have hwi : IsInt (getWeight p + b.e.wUnits) := ⟨by omega, by omega⟩
  have hqi : IsInt (getPass p + b.e.pUnits) := ⟨by omega, by omega⟩
  show (decide (wrap (getWeight p + wrap b.e.wUnits) ≤ maxW)
    && decide (wrap (getPass p + wrap b.e.pUnits) ≤ maxP)) = _
  rw [add_wrap, add_wrap, wrap_of_isInt hwi, wrap_of_isInt hqi]
  rfl

/-- Whoever fits leaves counters that `canFit` can be asked about, since they are those it has
    just compared. -/
theorem Roomy.movePass {b b' : Building} (h : Roomy b.e) {p : Passenger}
    (hfit : canFit p b.e = true) (hmove : movePass b p = some b') : Roomy b'.e := by
  simp only [canFit, Bool.and_eq_true, decide_eq_true_eq] at hfit
  unfold Part3.movePass at hmove
  split at hmove
  · rw [← Option.some.inj hmove]
    exact h
  · rename_i hknown
    have hvalid : ∀ v, p.type ≠ .raw v := by
      intro v hv
      refine hknown (Or.inl ?_)
      simp [getWeight, hv]
    have hw := Passenger.getWeight_range hvalid
    have hq := Passenger.getPass_range hvalid
    simp only [Option.bind_eq_bind, Option.bind_eq_some_iff, Option.some.injEq] at hmove
    obtain ⟨i, _, j, _, rfl⟩ := hmove
    show Roomy { b.e with
      p := _
      toLoad := (b.e.toLoad.count p.type 1).weigh (getWeight p) (getPass p) }
    rw [Load.count_weigh]
    obtain ⟨hwu, hpu⟩ := h
    unfold Roomy
    simp only [Load.wUnits_add, Load.pUnits_add, Passenger.unit]
    omega

/-! ## The phases -/

/-- The loop over the cabin's list: turn by turn the same passengers get off. -/
theorem unloadLoop32_wrapAll : ∀ (ps : List Passenger) (s : Sys),
    unloadLoop32 ps s.wrapAll = (unloadLoop ps s).map Sys.wrapAll := by
  intro ps
  induction ps with
  | nil => intro s; rfl
  | cons p ps ih =>
    intro s
    by_cases harrived : p.dFloor = s.b.e.current
    · rw [unloadLoop32, unloadLoop, if_pos harrived,
        if_pos (show p.dFloor = s.wrapAll.b.e.current from harrived),
        show s.wrapAll.b = s.b.wrapAll from rfl, delPass32_wrapAll]
      cases delPass s.b p with
      | none => rfl
      | some b => exact ih (({ s with b := b } : Sys).record (.delivered p s.b.e.current))
    · rw [unloadLoop32, unloadLoop, if_neg harrived,
        if_neg (show ¬ p.dFloor = s.wrapAll.b.e.current from harrived)]
      exact ih s

/-- The loop over a waiting list.  `canFit` does compare, so here no sum may wrap that it forms: the
    cabin is `Roomy`, and boarding keeps it so. -/
theorem loadLoop32_wrapAll : ∀ (ps : List Passenger) (s : Sys), Roomy s.b.e →
    loadLoop32 ps s.wrapAll = (loadLoop ps s).map Sys.wrapAll := by
  intro ps
  induction ps with
  | nil => intro s _; rfl
  | cons p ps ih =>
    intro s hroomy
    rw [loadLoop32, loadLoop, show s.wrapAll.b = s.b.wrapAll from rfl, canFit32_wrapAll hroomy,
      show s.b.wrapAll.e.direction = s.b.e.direction from rfl,
      show s.b.wrapAll.e.current = s.b.e.current from rfl]
    by_cases hboards : (canFit p s.b.e && pDirection p == s.b.e.direction) = true
    · rw [if_pos hboards, if_pos hboards]
      by_cases hhere : p.sFloor = s.b.e.current
      · rw [if_pos hhere, if_pos hhere, movePass32_wrapAll]
        cases hmove : movePass s.b p with
        | none => rfl
        | some b =>
          rw [Bool.and_eq_true] at hboards
          exact ih (({ s with b := b } : Sys).record (.boarded p s.b.e.current))
            (hroomy.movePass hboards.1 hmove)
      · rw [if_neg hhere, if_neg hhere]
        exact ih s hroomy
    · rw [if_neg hboards, if_neg hboards]
      rfl

/-- A load phase in `int`, from a wrapped sound state, is the exact one with its result wrapped. -/
theorem loadPhase32_wrapAll {s : Sys} (hs : Sound s) :
    loadPhase32 s.wrapAll = (loadPhase s).map Sys.wrapAll := by
  have hserve : ∀ c : Slot, s.b.e.status ≠ .offline → s.b.e.current = c →
      (unloadHere32 c (openDoors s).wrapAll).bind (loadHere32 c)
        = (serveFloor c s).map Sys.wrapAll := by
    intro c hon hc
    have henter := LoadStep.enter hon
    obtain ⟨hun, hchain⟩ := unloadHere_spec (c := c) (henter.sound hs) rfl hc
    have hsound := LoadStep.sound_chain (henter.sound hs) hchain
    have hfirst : unloadHere32 c (openDoors s).wrapAll
        = (unloadHere c (openDoors s)).map Sys.wrapAll := by
      unfold unloadHere32 unloadHere
      rw [apply_ite (Option.map Sys.wrapAll), ← unloadLoop32_wrapAll]
      rfl
    rw [hfirst, serveFloor, hun, Option.map_some, Option.bind_some, Option.bind_some]
    generalize (openDoors s).unloaded c ((openDoors s).b.e.p c) [] = u at hsound
    have hroomy : Roomy u.b.e := ⟨hsound.stock.withinCapacity.wUnits,
      hsound.stock.withinCapacity.pUnits⟩
    unfold loadHere32 loadHere
    show (checkFloor u.b u.b.e.current).bind _ = _
    cases checkFloor u.b u.b.e.current with
    | none => rfl
    | some anyone =>
      simp only [Option.bind_eq_bind, Option.bind_some]
      rw [apply_ite (Option.map Sys.wrapAll), ← loadLoop32_wrapAll _ _ hroomy]
      rfl
  obtain ⟨c, hc⟩ := hs.motion.track.slot
  have hbody : ∀ t : Sys, t.b.e.current = c → slot t.b.e.current = some c := by
    intro t ht
    rw [ht, slot_coe]
  unfold loadPhase32 loadPhase loadBody
  show Option.map _ (if s.b.e.status ≠ .offline then _ else _) = _
  split
  · rename_i hon
    rw [hbody s.wrapAll hc, hbody s hc]
    simp only [Option.bind_eq_bind, Option.bind_some]
    rw [show openDoors s.wrapAll = (openDoors s).wrapAll from rfl, hserve c hon hc]
    show Option.map _ (if (s.b.f c).waiting ≠ [] ∨ s.b.e.p c ≠ [] then _ else _) = _
    by_cases hany : (s.b.f c).waiting ≠ [] ∨ s.b.e.p c ≠ []
    · rw [if_pos hany, if_pos hany, Option.map_map, Option.map_map]
      rfl
    · rw [if_neg hany, if_neg hany]
      rfl
  · rfl

/-- A move phase reads the lists and the position, and none of the counters, so it makes the same
    move on both sides. -/
theorem movePhase32_wrapAll {s : Sys} (hs : Sound s) :
    movePhase32 s.wrapAll = (movePhase s).wrapAll := by
  -- the next floor is on the sweep, so its neighbours do not wrap
  have hnext : IsInt (s.b.e.next + 1) ∧ IsInt (s.b.e.next - 1) := by
    obtain ⟨_, hrange, _⟩ := hs.motion.track.neighbours
    constructor <;> constructor <;> omega
  have hcabin :
      moveCabin32 s.wrapAll.b.e = { moveCabin s.b.e with toLoad := s.b.e.toLoad.wrap } := by
    unfold moveCabin32 moveCabin
    rw [show s.wrapAll.b.e.next = s.b.e.next from rfl,
      show s.wrapAll.b.e.direction = s.b.e.direction from rfl, wrap_of_isInt hnext.1,
      wrap_of_isInt hnext.2]
    split_ifs <;> rfl
  unfold movePhase32 movePhase moveBody
  rw [hcabin, show s.wrapAll.b.e.status = s.b.e.status from rfl,
    show s.wrapAll.b.e.shutdown = s.b.e.shutdown from rfl,
    show checkBuilding s.wrapAll.b = checkBuilding s.b from rfl,
    show checkElevator s.wrapAll.b.e = checkElevator s.b.e from rfl]
  by_cases hon : s.b.e.status ≠ .offline
  · rw [if_pos hon, if_pos hon]
    by_cases hidle : (!checkElevator s.b.e && !checkBuilding s.b) = true
    · simp only [if_pos hidle]
      rfl
    · by_cases hoff : (!checkElevator s.b.e && s.b.e.shutdown != 0) = true
      · simp only [if_neg hidle, if_pos hoff]
        rfl
      · simp only [if_neg hidle, if_neg hoff]
        unfold Sys.wrapAll Building.wrapAll Sys.setE Sys.record
        simp only [moveCabin_toLoad]
  · rw [if_neg hon, if_neg hon]
    rfl

/-- **One step.**  Wrapping commutes with every action of the module, from a sound state. -/
theorem exec32_wrapAll {s : Sys} (hs : Sound s) (a : Act) :
    exec32 s.wrapAll a = (exec s a).map Sys.wrapAll := by
  cases a with
  | load => exact loadPhase32_wrapAll hs
  | move => exact congrArg some (movePhase32_wrapAll hs)
  | insert p =>
    show Option.map _ (addPass32 s.b.wrapAll p) = Option.map _ (Option.map _ (addPass s.b p))
    rw [addPass32_wrapAll, Option.map_map, Option.map_map]
    rfl
  | request pType sFloor dFloor =>
    show (if refuses s.b.e pType sFloor dFloor = true then _ else _)
      = Option.map _ (if refuses s.b.e pType sFloor dFloor = true then _ else _)
    split <;> rfl
  | start =>
    refine congrArg some ?_
    show (startElevator .ok s.wrapAll).2 = (startElevator .ok s).2.wrapAll
    rw [startElevator, startElevator, if_pos (by decide),
      show s.wrapAll.b.e.status = s.b.e.status from rfl]
    by_cases hon : s.b.e.status ≠ .offline
    · rw [if_pos hon, if_pos (by decide), if_pos hon]
    · rw [if_neg hon, if_pos (by decide), if_neg hon]
      rfl
  | stop =>
    refine congrArg some ?_
    show (stopElevator .ok s.wrapAll).2 = (stopElevator .ok s).2.wrapAll
    rw [stopElevator, stopElevator, if_pos (by decide),
      show s.wrapAll.b.e.shutdown = s.b.e.shutdown from rfl]
    by_cases hsd : s.b.e.shutdown ≠ 0
    · rw [if_pos hsd, if_pos (by decide), if_pos hsd]
    · rw [if_neg hsd, if_pos (by decide), if_neg hsd]
      rfl

theorem system32_init : system32.init = Sys.wrapAll system.init := by
  have hfloor :
      ∀ i : Slot, (initBuilding initElevator).f i = ((initBuilding initElevator).f i).wrap :=
    fun i => Floors.ext rfl rfl rfl rfl rfl rfl rfl rfl rfl
  show Sys.init = Sys.init.wrapAll
  unfold Sys.wrapAll Building.wrapAll
  refine congrArg (fun b => ({ Sys.init with b := b } : Sys)) ?_
  exact Building.ext (funext hfloor) rfl

/-- **One step.**  From a reachable state, wrapping before a step of the `int` machine or after the
    exact one is the same. -/
theorem system32_step (s : Sys) (a : Act) (h : system.Reachable s) :
    system32.step s.wrapAll a = (system.step s a).map Sys.wrapAll := by
  have hguard : system32.guard s.wrapAll a = system.guard s a := by cases a <;> rfl
  unfold Machine.step
  rw [hguard]
  split
  · exact exec32_wrapAll (Sound.reachable (loose_of_system h)) a
  · rfl

/-! ## Whole runs -/

/-- Only the floors' counters can have wrapped: the `int` machine runs side by side with the exact
    one, and fails where it fails. -/
theorem system32_run (acts : List Act) : system32.run acts = (system.run acts).map Sys.wrap := by
  rw [Machine.run_map Sys.wrapAll system32_init system32_step]
  refine Option.map_congr fun s hs => Sys.wrapAll_eq ?_
  have hr := Machine.reachable_iff_run.mpr ⟨acts, hs⟩
  exact (Sound.reachable (loose_of_system hr)).stock

/-- What a floor counts is bounded by the requests accepted there. -/
structure Bounded (fl : Floors) (n : Int) : Prop where
  wUnits : 0 ≤ fl.wUnits ∧ fl.wUnits ≤ 8 * n
  pUnits : 0 ≤ fl.pUnits ∧ fl.pUnits ≤ 2 * n
  adult : 0 ≤ fl.adult ∧ fl.adult ≤ n
  child : 0 ≤ fl.child ∧ fl.child ≤ n
  room : 0 ≤ fl.room ∧ fl.room ≤ n
  bell : 0 ≤ fl.bell ∧ fl.bell ≤ n
  serviced : -10 ≤ fl.serviced ∧ fl.serviced ≤ n

/-- A sum of values in a range. -/
theorem sum_range {g : Passenger → Int} {k : Int} {l : List Passenger}
    (h : ∀ p ∈ l, 0 ≤ g p ∧ g p ≤ k) :
    0 ≤ (l.map g).sum ∧ (l.map g).sum ≤ k * l.length := by
  constructor
  · refine List.sum_nonneg fun v hv => ?_
    obtain ⟨p, hp, rfl⟩ := List.mem_map.mp hv
    exact (h p hp).1
  · have hle := List.sum_le_card_nsmul (l.map g) k fun v hv => by
      obtain ⟨p, hp, rfl⟩ := List.mem_map.mp hv
      exact (h p hp).2
    rw [List.length_map, nsmul_eq_mul] at hle
    rw [mul_comm]
    exact hle

/-- The counters of a floor are bounded by the requests accepted there so far: nobody weighs more
    than eight half units or takes more than two of room. -/
theorem bounded_reachable {s : Sys} (h : loose.Reachable s) (i : Slot) :
    Bounded (s.b.f i) ((accepted s.log).countP fun p => p.sFloor = (i : Int)) := by
  have hstock := (Sound.reachable h).stock
  have hvalid : ∀ p ∈ (s.b.f i).waiting, p.Valid := fun p hp => (hstock.waiting hp).1
  have hlen : ((s.b.f i).waiting.length : Int)
      ≤ (accepted s.log).countP fun p => p.sFloor = (i : Int) := by
    have hqueue := congrArg List.length ((Fifo.reachable h).queue i)
    rw [List.length_append, ← List.countP_eq_length_filter] at hqueue
    have : (accepted s.log).countP (startsAt i)
        = (accepted s.log).countP fun p => p.sFloor = (i : Int) := rfl
    omega
  have hcounts : (s.b.f i).toLoad.Counts (s.b.f i).waiting := by
    rw [hstock.floors i]
    exact counts_sum_unit _
  have hw := sum_range (g := getWeight) (k := 8) (l := (s.b.f i).waiting) fun p hp => by
    have := Passenger.getWeight_range (hvalid p hp).known
    omega
  have hq := sum_range (g := getPass) (k := 2) (l := (s.b.f i).waiting) fun p hp => by
    have := Passenger.getPass_range (hvalid p hp).known
    omega
  have hcount : ∀ q : Passenger → Bool, 0 ≤ ((s.b.f i).waiting.countP q : Int) ∧
      ((s.b.f i).waiting.countP q : Int)
        ≤ (accepted s.log).countP fun p => p.sFloor = (i : Int) := by
    intro q
    have := List.countP_le_length (p := q) (l := (s.b.f i).waiting)
    omega
  -- what is neither waiting nor on board has been serviced, and few are on board
  have honboard : total (fun p => if p.sFloor = (i : Int) then (1 : Int) else 0) s.b.e.p ≤ 10 ∧
      0 ≤ total (fun p => if p.sFloor = (i : Int) then (1 : Int) else 0) s.b.e.p := by
    have hpass := length_le_pass (l := onboard s.b.e) fun p hp => by
      obtain ⟨j, hj⟩ := mem_onboard.mp hp
      exact (hstock.riding hj).1
    have hcap := hstock.withinCapacity.pass.2
    have hind := sum_range (g := fun p : Passenger => if p.sFloor = (i : Int) then (1 : Int) else 0)
      (k := 1) (l := onboard s.b.e) fun p _ => by split <;> decide
    rw [total_onboard]
    unfold maxP at hcap
    omega
  have htally := Tally.reachable h i
  refine ⟨?_, ?_, ?_, ?_, ?_, ?_, ?_⟩
  · rw [hcounts.wUnits]; omega
  · rw [hcounts.pUnits]; omega
  · rw [hcounts.adult]; exact hcount _
  · rw [hcounts.child]; exact hcount _
  · rw [hcounts.room]; exact hcount _
  · rw [hcounts.bell]; exact hcount _
  · omega

/-- Below 2²⁸ accepted requests no counter of the floor wraps, for none is more than eight times
    their number. -/
theorem Bounded.wrap {fl : Floors} {n : Int} (h : Bounded fl n) (hn : n < 2 ^ 28) :
    fl.wrap = fl := by
  obtain ⟨hw, hq, ha, hc, hr, hb, hserv⟩ := h
  have hint : ∀ {v : Int}, -10 ≤ v ∧ v < 2 ^ 31 → Part3.wrap v = v := by
    intro v hv
    exact wrap_of_isInt ⟨by omega, by omega⟩
  unfold Floors.wrap Load.wrap
  rw [hint (v := fl.wUnits) (by omega), hint (v := fl.pUnits) (by omega),
    hint (v := fl.adult) (by omega), hint (v := fl.child) (by omega),
    hint (v := fl.room) (by omega), hint (v := fl.bell) (by omega),
    hint (v := fl.serviced) (by omega)]

/-- **The module on 32-bit counters.**  Whatever the schedule, and however often counters overflow,
    the module with 32-bit counters is in the state of the module with exact counters, up to the
    counters of the floors, which hold the exact values modulo 2³²: the lists, the cabin with its
    counters, its position, status and flags, and the whole history are the same.  As long as fewer
    than 2²⁸ requests have been inserted at each floor, the floors' counters are the same, too. -/
theorem int_run (acts : List Act) :
    system32.run acts = (system.run acts).map Sys.wrap ∧
    ((∀ i : Slot, (inserted acts).countP (fun p => p.sFloor = (i : Int)) < 2 ^ 28) →
      system32.run acts = system.run acts) := by
  refine ⟨system32_run acts, fun hfew => ?_⟩
  rw [system32_run]
  cases hrun : system.run acts with
  | none => rfl
  | some s =>
    have hloose := loose_run_of_system hrun
    have hr := Machine.reachable_iff_run.mpr ⟨acts, hloose⟩
    have hfloors : (fun i => (s.b.f i).wrap) = s.b.f := by
      funext i
      refine (bounded_reachable hr i).wrap ?_
      rw [accepted_run hloose]
      exact_mod_cast hfew i
    rw [Option.map_some, Sys.wrap, Building.wrap, hfloors]

/-- A short run stays far below the bound. -/
theorem int_run_shortRun : system32.run shortRun = system.run shortRun :=
  (int_run shortRun).2 (by decide)

/-- Every counter of the 32-bit module is an `int`, and the cabin is in the building.  This is all
    that the bound on the report asks for. -/
theorem intFields_wrap {s : Sys} (hs : Sound s) : IntFields s.wrap.b := by
  obtain ⟨hcurrent, hnext, _⟩ := hs.motion.track.neighbours
  have hcap := hs.stock.withinCapacity
  have hw := hcap.wUnits
  have hq := hcap.pUnits
  unfold maxW at hw
  unfold maxP at hq
  exact
    { current := hcurrent
      next := hnext
      pUnits := ⟨by show _ ≤ s.b.e.pUnits; omega, by show s.b.e.pUnits < _; omega⟩
      wUnits := ⟨by show _ ≤ s.b.e.wUnits; omega, by show s.b.e.wUnits < _; omega⟩
      floor_pUnits := fun i => isInt_wrap _
      floor_wUnits := fun i => isInt_wrap _
      floor_serviced := fun i => isInt_wrap _ }

/-- **The report always fits.**  In every state that the module with 32-bit counters can reach,
    however long it has run, `printStats` stays within a buffer of `ENTRY_SIZE` bytes, ends the text
    with a NUL, and returns the length of what it wrote, which is not 0. -/
theorem int_report_fits {s : Sys} (h : system32.Reachable s) {buf : List Char}
    (hbuf : buf.length = entrySize) :
    strlen (printStats s.b buf).2 + 1 ≤ entrySize ∧ (printStats s.b buf).2.length = entrySize ∧
      (printStats s.b buf).1 = strlen (printStats s.b buf).2 ∧ (printStats s.b buf).1 ≠ 0 := by
  obtain ⟨acts, hrun⟩ := Machine.reachable_iff_run.mp h
  rw [system32_run, Option.map_eq_some_iff] at hrun
  obtain ⟨s₀, hs₀, rfl⟩ := hrun
  have hr := Machine.reachable_iff_run.mpr ⟨acts, hs₀⟩
  have hlen := report_length_le (intFields_wrap (Sound.reachable (loose_of_system hr)))
  have hpos := report_length_pos s₀.wrap.b
  have hstr : strlen (printStats s₀.wrap.b buf).2 = (report s₀.wrap.b).length := by
    rw [strlen, cstring_printStats]
  rw [hstr, printStats_eq, List.length_append, List.length_cons, List.length_drop, hbuf]
  unfold entrySize
  refine ⟨?_, ?_, rfl, ?_⟩ <;> omega

theorem int_report_fits_shortRun :
    ∃ s, system32.run shortRun = some s ∧
      strlen (printStats s.b (List.replicate entrySize nul)).2 + 1 ≤ entrySize := by
  have hrun := Machine.run_get (M := system32) shortRun (by decide)
  exact ⟨_, hrun, (int_report_fits (Machine.reachable_iff_run.mpr ⟨shortRun, hrun⟩)
    List.length_replicate).1⟩

end KernelModules.Part3
