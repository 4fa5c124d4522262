/-
  The stock of passengers: what `addPass`, `movePass` and `delPass` do to the twenty lists and to
  the counters that shadow them.

  The twenty lists are one family `Building.lists`, indexed by `Slot ⊕ Slot` (a floor's waiting
  list, or the cabin's list of a destination), and the intrusive-list library says what unlinking
  does to it.  Each list function has one specification — `queued`, `boarded`, `delivered`, the
  building it leaves when it is called as the module calls it — and the rest of the development
  never unfolds the three functions again.

  `Stock` is the invariant of the data: every passenger is where its floors say, the lists are
  properly linked, every counter is the sum it stands for, and the cabin is within its limits.
-/
import KernelModules.Part3.Header

namespace KernelModules.Part3

open Function KernelModules.Lib

/-! ## Valid passengers and their unit of load -/

namespace Passenger

/-- A passenger as `issue_request` builds them: an enumerated type, floors in the building. -/
structure Valid (p : Passenger) : Prop where
  known : ∀ v, p.type ≠ .raw v
  src : ∃ i : Slot, p.sFloor = i
  dst : ∃ j : Slot, p.dFloor = j

/-- What one passenger adds to the six counters. -/
def unit (p : Passenger) : Load where
  wUnits := getWeight p
  pUnits := getPass p
  adult := if p.type = .adult then 1 else 0
  child := if p.type = .child then 1 else 0
  room := if p.type = .room then 1 else 0
  bell := if p.type = .bell then 1 else 0

theorem getWeight_range {p : Passenger} (hp : ∀ v, p.type ≠ .raw v) :
    1 ≤ getWeight p ∧ getWeight p ≤ 8 := by
  unfold getWeight
  rcases ht : p.type with _ | _ | _ | _ | v
  case raw => exact absurd ht (hp v)
  all_goals simp

theorem getPass_range {p : Passenger} (hp : ∀ v, p.type ≠ .raw v) :
    1 ≤ getPass p ∧ getPass p ≤ 2 := by
  unfold getPass
  rcases ht : p.type with _ | _ | _ | _ | v
  case raw => exact absurd ht (hp v)
  all_goals simp

/-- The `Invalid p->type` branch is not taken for a valid passenger, in any of the three list
    functions. -/
theorem Valid.not_invalid {p : Passenger} (hp : p.Valid) :
    ¬ (getWeight p = -1 ∨ getPass p = -1) := by
  have hw := getWeight_range hp.known
  have hq := getPass_range hp.known
  omega

end Passenger

namespace Load

/-- Both orders in which the code counts a passenger in amount to adding its unit ... -/
theorem count_weigh (l : Load) (p : Passenger) :
    (l.count p.type 1).weigh (getWeight p) (getPass p) = l + p.unit := by
  unfold count weigh
  rcases ht : p.type with _ | _ | _ | _ | v <;>
    (ext <;> simp only [add_def, Passenger.unit, ht] <;> simp)

theorem weigh_count (l : Load) (p : Passenger) :
    (l.weigh (getWeight p) (getPass p)).count p.type 1 = l + p.unit := by
  rw [← count_weigh]
  unfold count weigh
  rcases p.type with _ | _ | _ | _ | v <;> rfl

/-- ... and counting it out amounts to subtracting it. -/
theorem count_weigh_neg (l : Load) (p : Passenger) :
    (l.count p.type (-1)).weigh (-getWeight p) (-getPass p) = l - p.unit := by
  unfold count weigh
  rcases ht : p.type with _ | _ | _ | _ | v <;>
    (ext <;> simp only [sub_def, Passenger.unit, ht] <;> first | omega | simp [sub_eq_add_neg])

end Load

/-! ## The twenty lists -/

/-- The waiting lists and the cabin's lists, as one family. -/
def Building.lists (b : Building) : Slot ⊕ Slot → List Passenger
  | .inl i => (b.f i).waiting
  | .inr j => b.e.p j

/-- The discipline of the lists does not depend on anything else in the building: counters and
    status may change freely. -/
theorem Building.linked_congr {b b' : Building} (hL : Linked Passenger.node b.lists)
    (hf : ∀ i, (b'.f i).waiting = (b.f i).waiting) (he : b'.e.p = b.e.p) :
    Linked Passenger.node b'.lists := by
  have heq : b'.lists = b.lists := by
    funext x
    cases x with
    | inl i => exact hf i
    | inr j => exact congrFun he j
  rw [heq]
  exact hL

/-- An update of one floor that keeps something about it, such as its waiting list, keeps that
    about every floor. -/
theorem field_update {α : Type} (g : Floors → α) {f : Slot → Floors} {i : Slot} {fl : Floors}
    (h : g fl = g (f i)) (k : Slot) : g (update f i fl k) = g (f k) := by
  by_cases hk : k = i
  · rw [hk, update_self, h]
  · rw [update_of_ne hk]

/-- Unlinking the head of a cabin list. -/
theorem Building.listDel_cabin {b : Building} {p : Passenger} {j : Slot} {l : List Passenger}
    (hL : Linked Passenger.node b.lists) (hj : b.e.p j = p :: l) :
    b.listDel p = { b with e := { b.e with p := update b.e.p j l } } := by
  have hun := @Linked.unlink_head _ _ _ _ _ _ _ hL (Sum.inr j) p l hj
  have hf : ∀ k, unlink Passenger.node p.node (fun k => (b.f k).waiting) k = (b.f k).waiting :=
    fun k => congrFun hun (Sum.inl k)
  have he : unlink Passenger.node p.node b.e.p = update b.e.p j l := by
    funext k
    have h : unlink Passenger.node p.node b.e.p k = update b.lists (Sum.inr j) l (Sum.inr k) :=
      congrFun hun (Sum.inr k)
    rw [h]
    by_cases hk : k = j
    · rw [hk, update_self, update_self]
    · rw [update_of_ne hk, update_of_ne (fun h => hk (Sum.inr.inj h))]
      rfl
  unfold listDel
  rw [he]
  simp only [hf]

/-- Unlinking the head of a waiting list. -/
theorem Building.listDel_waiting {b : Building} {p : Passenger} {i : Slot} {l : List Passenger}
    (hL : Linked Passenger.node b.lists) (hi : (b.f i).waiting = p :: l) :
    b.listDel p = b.onFloor i fun fl => { fl with waiting := l } := by
  have hun := @Linked.unlink_head _ _ _ _ _ _ _ hL (Sum.inl i) p l hi
  have he : unlink Passenger.node p.node b.e.p = b.e.p := by
    funext k
    exact congrFun hun (Sum.inr k)
  have hf : ∀ k, unlink Passenger.node p.node (fun k => (b.f k).waiting) k
      = update b.lists (Sum.inl i) l (Sum.inl k) := fun k => congrFun hun (Sum.inl k)
  unfold listDel onFloor
  rw [he]
  refine Building.ext (funext fun k => ?_) rfl
  show ({ b.f k with waiting := unlink Passenger.node p.node (fun k => (b.f k).waiting) k } : Floors)
    = update b.f i { b.f i with waiting := l } k
  rw [hf]
  by_cases hk : k = i
  · rw [hk, update_self, update_self]
  · rw [update_of_ne hk, update_of_ne (fun h => hk (Sum.inl.inj h))]
    rfl

/-! ## The buildings the three functions leave -/

/-- After `addPass`. -/
def Building.queued (b : Building) (i : Slot) (p : Passenger) : Building :=
  b.onFloor i fun fl => { fl with waiting := fl.waiting ++ [p], toLoad := fl.toLoad + p.unit }

/-- After `delPass`, for `p` at the head of the cabin's list `j`. -/
def Building.delivered (b : Building) (i j : Slot) (p : Passenger) (l : List Passenger) :
    Building where
  f := update b.f i { b.f i with serviced := (b.f i).serviced + 1 }
  e := { b.e with toLoad := b.e.toLoad - p.unit, p := update b.e.p j l }

/-- After `movePass`, for `p` at the head of the waiting list `i`. -/
def Building.boarded (b : Building) (i j : Slot) (p : Passenger) (l : List Passenger) :
    Building where
  f := update b.f i { b.f i with toLoad := (b.f i).toLoad - p.unit, waiting := l }
  e := { b.e with toLoad := b.e.toLoad + p.unit, p := pushTail j p b.e.p }

/-- **`addPass`**, for a valid passenger: the passenger is queued at the floor of the trip. -/
theorem addPass_spec (b : Building) {p : Passenger} {i : Slot} (hp : p.Valid)
    (hi : p.sFloor = i) : addPass b p = some (b.queued i p) := by
  rw [addPass, if_neg hp.not_invalid, hi, slot_coe]
  show some (b.onFloor i _) = _
  simp only [Load.weigh_count]
  rfl

/-- **`delPass`**, for the head of a list of the cabin: the node is gone from that list and from
    nowhere else, since the lists are linked. -/
theorem delPass_spec {b : Building} {p : Passenger} {i j : Slot} {l : List Passenger}
    (hL : Linked Passenger.node b.lists) (hp : p.Valid) (hi : p.sFloor = i)
    (hj : b.e.p j = p :: l) : delPass b p = some (b.delivered i j p l) := by
  rw [delPass, if_neg hp.not_invalid, hi, slot_coe]
  simp only [Option.bind_eq_bind, Option.bind_some, Load.count_weigh_neg]
  rw [Building.listDel_cabin (j := j) (l := l)]
  · rfl
  · exact Building.linked_congr hL (field_update Floors.waiting rfl) rfl
  · exact hj

/-- **`movePass`**, for the head of a waiting list: the node goes to the end of the list of its
    destination. -/
theorem movePass_spec {b : Building} {p : Passenger} {i j : Slot} {l : List Passenger}
    (hL : Linked Passenger.node b.lists) (hp : p.Valid) (hi : p.sFloor = i) (hj : p.dFloor = j)
    (hw : (b.f i).waiting = p :: l) : movePass b p = some (b.boarded i j p l) := by
  rw [movePass, if_neg hp.not_invalid, hi, hj, slot_coe, slot_coe]
  simp only [Option.bind_eq_bind, Option.bind_some, Load.count_weigh_neg, Load.count_weigh]
  rw [Building.listDel_waiting (i := i) (l := l)]
  · simp only [Building.onFloor, Building.boarded, update_self, update_idem]
  · exact Building.linked_congr hL (field_update Floors.waiting rfl) rfl
  · show (update b.f i _ i).waiting = _
    rw [update_self]
    exact hw

/-! ## How the three buildings differ from the one before -/

/-- The three operations on all twenty lists at once: one list longer ... -/
theorem Building.lists_queued (b : Building) (i : Slot) (p : Passenger) :
    (b.queued i p).lists = pushTail (.inl i) p b.lists := by
  funext x
  cases x with
  | inl k =>
    by_cases hk : k = i
    · subst hk; simp [lists, queued, onFloor, pushTail]
    · simp [lists, queued, onFloor, pushTail, hk]
  | inr j => simp [lists, queued, onFloor, pushTail]

/-- A delivery leaves the waiting lists alone, ... -/
theorem Building.waiting_delivered (b : Building) (i j : Slot) (p : Passenger)
    (l : List Passenger) (k : Slot) :
    ((b.delivered i j p l).f k).waiting = (b.f k).waiting :=
  field_update Floors.waiting (by rfl) k

/-- ... and so it does the floors' other counters. -/
theorem Building.toLoad_delivered (b : Building) (i j : Slot) (p : Passenger)
    (l : List Passenger) (k : Slot) : ((b.delivered i j p l).f k).toLoad = (b.f k).toLoad :=
  field_update Floors.toLoad (by rfl) k

/-- Nobody is serviced by getting on the cabin, ... -/
theorem Building.serviced_boarded (b : Building) (i j : Slot) (p : Passenger)
    (l : List Passenger) (k : Slot) : ((b.boarded i j p l).f k).serviced = (b.f k).serviced :=
  field_update Floors.serviced (by rfl) k

/-- ... or by getting on a waiting list. -/
theorem Building.serviced_queued (b : Building) (i : Slot) (p : Passenger) (k : Slot) :
    ((b.queued i p).f k).serviced = (b.f k).serviced :=
  field_update Floors.serviced (by rfl) k

/-- ... one list shorter ... -/
theorem Building.lists_delivered (b : Building) (i j : Slot) (p : Passenger)
    (l : List Passenger) : (b.delivered i j p l).lists = update b.lists (.inr j) l := by
  funext x
  cases x with
  | inl k =>
    by_cases hk : k = i
    · subst hk; simp [lists, delivered]
    · simp [lists, delivered, hk]
  | inr k =>
    by_cases hk : k = j
    · subst hk; simp [lists, delivered]
    · simp [lists, delivered, hk]

/-- ... and a node taken from one and added to another. -/
theorem Building.lists_boarded (b : Building) (i j : Slot) (p : Passenger)
    (l : List Passenger) :
    (b.boarded i j p l).lists = pushTail (.inr j) p (update b.lists (.inl i) l) := by
  funext x
  cases x with
  | inl k =>
    by_cases hk : k = i
    · subst hk; simp [lists, boarded, pushTail]
    · simp [lists, boarded, pushTail, hk]
  | inr k =>
    by_cases hk : k = j
    · subst hk; simp [lists, boarded, pushTail]
    · simp [lists, boarded, pushTail, hk]

theorem mem_pushTail {j k : Slot} {p q : Passenger} {L : Slot → List Passenger} :
    q ∈ pushTail j p L k ↔ q ∈ L k ∨ k = j ∧ q = p := by
  by_cases hk : k = j
  · subst hk; simp [pushTail]
  · simp [pushTail, hk]

/-! ## The invariant of the data -/

/-- The invariant of the lists and of the counters that shadow them. -/
structure Stock (b : Building) : Prop where
  /-- No passenger is on two lists, or twice on one. -/
  linked : Linked Passenger.node b.lists
  /-- Who waits on floor `i` is valid and starts there. -/
  waiting : ∀ {i p}, p ∈ (b.f i).waiting → p.Valid ∧ p.sFloor = i
  /-- Who rides in list `j` is valid and goes there. -/
  riding : ∀ {j p}, p ∈ b.e.p j → p.Valid ∧ p.dFloor = j
  /-- A floor's counters add up its waiting list ... -/
  floors : ∀ i, (b.f i).toLoad = ((b.f i).waiting.map Passenger.unit).sum
  /-- ... and the cabin's counters its ten lists. -/
  cabin : b.e.toLoad = total Passenger.unit b.e.p
  /-- The cabin is within its limits. -/
  fits : b.e.wUnits ≤ maxW ∧ b.e.pUnits ≤ maxP

namespace Stock

variable {b : Building}

/-- The head of a waiting list is valid and starts there ... -/
theorem waiting_head (h : Stock b) {i : Slot} {p : Passenger} {l : List Passenger}
    (hw : (b.f i).waiting = p :: l) : p.Valid ∧ p.sFloor = i := by
  refine h.waiting ?_
  rw [hw]
  exact List.mem_cons_self

/-- ... and the head of a cabin list is valid and goes there. -/
theorem riding_head (h : Stock b) {j : Slot} {p : Passenger} {l : List Passenger}
    (hp : b.e.p j = p :: l) : p.Valid ∧ p.dFloor = j := by
  refine h.riding ?_
  rw [hp]
  exact List.mem_cons_self

theorem init : Stock (initBuilding initElevator) where
  linked := .empty fun x => by cases x <;> rfl
  waiting h := absurd h List.not_mem_nil
  riding h := absurd h List.not_mem_nil
  floors _ := rfl
  cabin := (total_empty _ fun _ => rfl).symm
  fits := by decide

/-- Nothing here reads the elevator's position, status or flags, so any of them may be written. -/
theorem setE (h : Stock b) {e : Elevator} (hload : e.toLoad = b.e.toLoad) (hp : e.p = b.e.p) :
    Stock { b with e := e } where
  linked := Building.linked_congr h.linked (fun _ => rfl) hp
  waiting := h.waiting
  riding hq := by
    have hq' : _ ∈ e.p _ := hq
    rw [hp] at hq'
    exact h.riding hq'
  floors := h.floors
  cabin := by
    show e.toLoad = total Passenger.unit e.p
    rw [hload, hp]
    exact h.cabin
  fits := by
    show e.toLoad.wUnits ≤ maxW ∧ e.toLoad.pUnits ≤ maxP
    rw [hload]
    exact h.fits

/-- `addPass` of a valid passenger in a fresh node keeps the invariant: the lists stay linked, and
    the floor counts one more. -/
theorem queued (h : Stock b) {p : Passenger} {i : Slot} (hp : p.Valid) (hi : p.sFloor = i)
    (hfresh : ∀ x c, c ∈ b.lists x → c.node ≠ p.node) : Stock (b.queued i p) where
  linked := by
    rw [b.lists_queued]
    exact h.linked.push hfresh
  waiting {k q} hq := by
    by_cases hk : k = i
    · subst hk
      have hq' : q ∈ (b.f k).waiting ++ [p] := by
        simpa [Building.queued, Building.onFloor] using hq
      rcases List.mem_append.mp hq' with hq | hq
      · exact h.waiting hq
      · rw [List.mem_singleton.mp hq]
        exact ⟨hp, hi⟩
    · refine h.waiting (i := k) ?_
      simpa [Building.queued, Building.onFloor, hk] using hq
  riding hq := h.riding hq
  floors k := by
    by_cases hk : k = i
    · subst hk
      simp [Building.queued, Building.onFloor, h.floors k]
    · simp [Building.queued, Building.onFloor, hk, h.floors k]
  cabin := h.cabin
  fits := h.fits

/-- `delPass` of the head of a cabin list keeps the invariant: the cabin counts one fewer, and its
    lists are one shorter. -/
theorem delivered (h : Stock b) {p : Passenger} {i j : Slot} {l : List Passenger}
    (hj : b.e.p j = p :: l) : Stock (b.delivered i j p l) where
  linked := by
    rw [b.lists_delivered]
    exact h.linked.drop_head (i := Sum.inr j) hj
  waiting {k q} hq := by
    rw [b.waiting_delivered] at hq
    exact h.waiting hq
  riding {k q} hq := by
    by_cases hk : k = j
    · subst hk
      refine h.riding ?_
      rw [hj]
      refine List.mem_cons_of_mem p ?_
      simpa [Building.delivered] using hq
    · refine h.riding (j := k) ?_
      simpa [Building.delivered, hk] using hq
  floors k := by
    by_cases hk : k = i
    · subst hk
      simp [Building.delivered, h.floors k]
    · simp [Building.delivered, hk, h.floors k]
  cabin := by
    show b.e.toLoad - p.unit = total Passenger.unit (update b.e.p j l)
    rw [total_drop_head _ hj, h.cabin]
  fits := by
    have hp := (h.riding_head hj).1
    have hw := Passenger.getWeight_range hp.known
    have hq := Passenger.getPass_range hp.known
    have hfit := h.fits
    show (b.e.toLoad - p.unit).wUnits ≤ maxW ∧ (b.e.toLoad - p.unit).pUnits ≤ maxP
    simp only [Load.wUnits_sub, Load.pUnits_sub, Passenger.unit]
    omega

/-- `movePass` of the head of a waiting list, if it fits, keeps the invariant: what the floor no
    longer counts the cabin does, within its capacity. -/
theorem boarded (h : Stock b) {p : Passenger} {i j : Slot} {l : List Passenger}
    (hw : (b.f i).waiting = p :: l) (hj : p.dFloor = j) (hfit : canFit p b.e = true) :
    Stock (b.boarded i j p l) where
  linked := by
    rw [b.lists_boarded]
    exact (h.linked.drop_head (i := Sum.inl i) hw).push (h.linked.fresh_of_drop hw)
  waiting {k q} hq := by
    by_cases hk : k = i
    · subst hk
      refine h.waiting ?_
      rw [hw]
      refine List.mem_cons_of_mem p ?_
      simpa [Building.boarded] using hq
    · refine h.waiting (i := k) ?_
      simpa [Building.boarded, hk] using hq
  riding {k q} hq := by
    rcases mem_pushTail.mp hq with hq | ⟨rfl, rfl⟩
    · exact h.riding hq
    · exact ⟨(h.waiting_head hw).1, hj⟩
  floors k := by
    by_cases hk : k = i
    · subst hk
      simp [Building.boarded, h.floors k, hw]
    · simp [Building.boarded, hk, h.floors k]
  cabin := by
    show b.e.toLoad + p.unit = total Passenger.unit (pushTail j p b.e.p)
    rw [total_pushTail, h.cabin]
  fits := by
    have hfit' : getWeight p + b.e.wUnits ≤ maxW ∧ getPass p + b.e.pUnits ≤ maxP := by
      simpa [canFit] using hfit
    show (b.e.toLoad + p.unit).wUnits ≤ maxW ∧ (b.e.toLoad + p.unit).pUnits ≤ maxP
    simp only [Load.wUnits_add, Load.pUnits_add, Passenger.unit]
    omega

end Stock

end KernelModules.Part3
