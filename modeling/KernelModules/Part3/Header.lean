/-
  `elevator.h`: the data model of the elevator module and its helper functions.

  Data.  The six load counters that `floors_type` and `elevator_type` both declare are one
  structure `Load`, which `Floors` and `Elevator` extend.  A `list_head` is the `List` of the
  passengers linked on it, in list order, and a passenger carries the identity `node` of its own
  link, so that `list_del` unlinks a passenger without being told the list it is on
  (`Building.listDel`).  `building.e` always points at the one static elevator, so `Building`
  holds it by value.  The two C enumerations are inductive types with one extra constructor `raw`
  for the integers outside the enumerators: the code tests for them.

  Indices.  Floor numbers are C `int`s, and `b->f[i]`, `e->p[i]` are only defined for
  `0 ≤ i < 10`.  `slot` is the bounds check the C code does not make: a function that indexes an
  array is an `Option`, and `none` is the undefined behaviour of an index out of bounds.

  Counters are exact integers.
-/
import KernelModules.Lib.Lists

namespace KernelModules.Part3

open Function KernelModules.Lib

/-! ## Constants and enumerations -/

/-- `MAX_W`, in half units. -/
def maxW : Int := 30
/-- `MAX_P`. -/
def maxP : Int := 10

/-- An index of `building.f` or `elevator.p`, both of length `MAX_FLOOR = 10`. -/
abbrev Slot := Fin 10

/-- The array slot a C index denotes, if it is in bounds. -/
def slot (i : Int) : Option Slot :=
  if h : 0 ≤ i ∧ i < 10 then some ⟨i.toNat, by omega⟩ else none

@[simp] theorem slot_coe (i : Slot) : slot (i : Int) = some i := by
  have hi := i.isLt
  rw [slot, dif_pos (by omega)]
  simp

theorem slot_eq_some {i : Int} {k : Slot} (h : slot i = some k) : i = (k : Int) := by
  unfold slot at h
  split at h
  · rename_i hb
    rw [← Option.some.inj h]
    show i = ((i.toNat : Nat) : Int)
    omega
  · exact absurd h (by simp)

theorem slot_of_range {i : Int} (h0 : 0 ≤ i) (h9 : i ≤ 9) : ∃ k : Slot, i = (k : Int) :=
  ⟨⟨i.toNat, by omega⟩, by show i = ((i.toNat : Nat) : Int); omega⟩

/-- `STATE`. -/
inductive State
  | idle | offline | loading | up | down
  | raw (v : Int)
  deriving DecidableEq, Repr

/-- `P_TYPE`. -/
inductive PType
  | adult | child | room | bell
  | raw (v : Int)
  deriving DecidableEq, Repr

/-- The conversion of an `int` to `P_TYPE`. -/
def PType.ofInt (v : Int) : PType :=
  if v = 0 then .adult else if v = 1 then .child else if v = 2 then .room
  else if v = 3 then .bell else .raw v

/-! ## Structures -/

/-- `passenger`.  `node` is the identity of the allocated object: two allocations never share it. -/
structure Passenger where
  node : Nat
  type : PType
  sFloor : Int
  dFloor : Int
  deriving DecidableEq, Repr

/-- The counters `floors_type` and `elevator_type` have in common. -/
@[ext] structure Load where
  wUnits : Int
  pUnits : Int
  adult : Int
  child : Int
  room : Int
  bell : Int
  deriving DecidableEq, Repr

/-- `floors`. -/
@[ext] structure Floors extends Load where
  waiting : List Passenger
  level : Int
  serviced : Int
  deriving DecidableEq

/-- `elevator`. -/
@[ext] structure Elevator extends Load where
  /-- Passengers on board, listed by destination floor. -/
  p : Slot → List Passenger
  status : State
  current : Int
  next : Int
  /-- 1 once shutdown has been called. -/
  shutdown : Int
  /-- 1 if going up, 0 if going down. -/
  direction : Int
  deriving DecidableEq

/-- `building`, with the elevator its pointer `e` refers to. -/
@[ext] structure Building where
  f : Slot → Floors
  e : Elevator
  deriving DecidableEq

/-! ## Load arithmetic

  The three list functions of the header change the counters in the same way, up to a sign.
  `Load` is the group these changes live in. -/

namespace Load

instance : Zero Load := ⟨⟨0, 0, 0, 0, 0, 0⟩⟩

instance : Add Load := ⟨fun a b =>
  ⟨a.wUnits + b.wUnits, a.pUnits + b.pUnits, a.adult + b.adult, a.child + b.child,
    a.room + b.room, a.bell + b.bell⟩⟩

instance : Neg Load := ⟨fun a =>
  ⟨-a.wUnits, -a.pUnits, -a.adult, -a.child, -a.room, -a.bell⟩⟩

/-- Six counters are added, negated and subtracted one by one. -/
theorem add_def (a b : Load) : a + b =
    ⟨a.wUnits + b.wUnits, a.pUnits + b.pUnits, a.adult + b.adult, a.child + b.child,
      a.room + b.room, a.bell + b.bell⟩ := rfl

theorem neg_def (a : Load) : -a =
    ⟨-a.wUnits, -a.pUnits, -a.adult, -a.child, -a.room, -a.bell⟩ := rfl

theorem zero_def : (0 : Load) = ⟨0, 0, 0, 0, 0, 0⟩ := rfl

instance : AddCommGroup Load where
  add_assoc a b c := by ext <;> simp only [add_def] <;> omega
  zero_add a := by ext <;> simp only [add_def, zero_def] <;> omega
  add_zero a := by ext <;> simp only [add_def, zero_def] <;> omega
  add_comm a b := by ext <;> simp only [add_def] <;> omega
  neg_add_cancel a := by ext <;> simp only [add_def, neg_def, zero_def] <;> omega
  nsmul := nsmulRec
  zsmul := zsmulRec

@[simp] theorem wUnits_add (a b : Load) : (a + b).wUnits = a.wUnits + b.wUnits := rfl
@[simp] theorem pUnits_add (a b : Load) : (a + b).pUnits = a.pUnits + b.pUnits := rfl

theorem sub_def (a b : Load) : a - b =
    ⟨a.wUnits - b.wUnits, a.pUnits - b.pUnits, a.adult - b.adult, a.child - b.child,
      a.room - b.room, a.bell - b.bell⟩ := by
  rw [sub_eq_add_neg, add_def, neg_def]
  rfl

@[simp] theorem wUnits_sub (a b : Load) : (a - b).wUnits = a.wUnits - b.wUnits := by rw [sub_def]
@[simp] theorem pUnits_sub (a b : Load) : (a - b).pUnits = a.pUnits - b.pUnits := by rw [sub_def]

/-- `w_units += w`, `p_units += q`. -/
def weigh (l : Load) (w q : Int) : Load := { l with wUnits := l.wUnits + w, pUnits := l.pUnits + q }

/-- `switch (p->type)`: the counter of that type changes by `k`. -/
def count (l : Load) (t : PType) (k : Int) : Load :=
  match t with
  | .adult => { l with adult := l.adult + k }
  | .child => { l with child := l.child + k }
  | .room => { l with room := l.room + k }
  | .bell => { l with bell := l.bell + k }
  | .raw _ => l

end Load

/-! ## Initialisation -/

/-- `initElevator`. -/
def initElevator : Elevator where
  p := fun _ => []
  status := .offline
  current := 0
  next := 1
  toLoad := ⟨0, 0, 0, 0, 0, 0⟩
  shutdown := 0
  direction := 1

/-- `initBuilding`. -/
def initBuilding (e : Elevator) : Building where
  f := fun i =>
    { waiting := [], level := i, toLoad := ⟨0, 0, 0, 0, 0, 0⟩, serviced := 0 }
  e := e

/-! ## Passengers -/

/-- `getPass`. -/
def getPass (p : Passenger) : Int :=
  if p.type = .child ∨ p.type = .adult then 1
  else if p.type = .room ∨ p.type = .bell then 2
  else -1

/-- `getWeight`, in half units. -/
def getWeight (p : Passenger) : Int :=
  if p.type = .child then 1
  else if p.type = .adult then 2
  else if p.type = .room then 4
  else if p.type = .bell then 8
  else -1

/-- `pDirection`: 1 if the passenger is going up, 0 otherwise. -/
def pDirection (p : Passenger) : Int := if p.dFloor > p.sFloor then 1 else 0

/-- `hasSpace`. -/
def hasSpace (e : Elevator) : Bool := e.wUnits < maxW && e.pUnits < maxP

/-- `canFit`. -/
def canFit (p : Passenger) (e : Elevator) : Bool :=
  getWeight p + e.wUnits ≤ maxW && getPass p + e.pUnits ≤ maxP

/-! ## The three list functions -/

/-- Apply `g` to the floor in slot `i`. -/
def Building.onFloor (b : Building) (i : Slot) (g : Floors → Floors) : Building :=
  { b with f := update b.f i (g (b.f i)) }

/-- `list_del(&p->node)`: unlink `p` from the list it is on. -/
def Building.listDel (b : Building) (p : Passenger) : Building where
  f := fun i => { b.f i with waiting := unlink Passenger.node p.node (fun k => (b.f k).waiting) i }
  e := { b.e with p := unlink Passenger.node p.node b.e.p }

/-- `addPass`: append `p` to the waiting list of its start floor. -/
def addPass (b : Building) (p : Passenger) : Option Building :=
  if getWeight p = -1 ∨ getPass p = -1 then some b
  else do
    let i ← slot p.sFloor
    some (b.onFloor i fun fl => { fl with
      waiting := fl.waiting ++ [p]
      toLoad := (fl.toLoad.weigh (getWeight p) (getPass p)).count p.type 1 })

/-- `delPass`: take `p` off the elevator, served. -/
def delPass (b : Building) (p : Passenger) : Option Building :=
  if getWeight p = -1 ∨ getPass p = -1 then some b
  else do
    let i ← slot p.sFloor
    let b := { b with e := { b.e with
      toLoad := (b.e.toLoad.count p.type (-1)).weigh (-getWeight p) (-getPass p) } }
    let b := b.onFloor i fun fl => { fl with serviced := fl.serviced + 1 }
    some (b.listDel p)

/-- `movePass`: move `p` from its waiting list to the elevator's list of its destination. -/
def movePass (b : Building) (p : Passenger) : Option Building :=
  if getWeight p = -1 ∨ getPass p = -1 then some b
  else do
    let i ← slot p.sFloor
    let j ← slot p.dFloor
    let b := b.onFloor i fun fl => { fl with
      toLoad := (fl.toLoad.count p.type (-1)).weigh (-getWeight p) (-getPass p) }
    let b := { b with e := { b.e with
      toLoad := (b.e.toLoad.count p.type 1).weigh (getWeight p) (getPass p) } }
    -- list_move_tail is list_del followed by list_add_tail
    let b := b.listDel p
    some { b with e := { b.e with p := pushTail j p b.e.p } }

/-! ## Emptiness tests -/

/-- `checkFloor`: is anyone waiting on floor `i`? -/
def checkFloor (b : Building) (i : Int) : Option Bool :=
  (slot i).map fun k => !(b.f k).waiting.isEmpty

/-- `checkBuilding`: is anyone waiting on any floor? -/
def checkBuilding (b : Building) : Bool :=
  (List.finRange 10).any fun i => !(b.f i).waiting.isEmpty

/-- `checkElevator`: is anyone on board? -/
def checkElevator (e : Elevator) : Bool :=
  (List.finRange 10).any fun i => !(e.p i).isEmpty

end KernelModules.Part3
