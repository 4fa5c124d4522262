/-
  First in, first out, with nobody lost and nobody duplicated.

  Two equations between the history and the lists carry the ordering.  `Fifo.queue`: the
  passengers accepted at a floor are those who boarded there, followed by its waiting list.
  `Fifo.trip`: for each pair of floors, the accepted passengers are the delivered ones, followed
  by those on board, followed by those waiting — each in order, so a delivered passenger never
  overtook one with the same trip.

  `Conserved` counts every single passenger: it is on as many lists as it was accepted times less
  the times it was delivered.  With the census (no two requests share a node) the lists and the
  delivered passengers together are a rearrangement, without repetition, of the accepted ones.
-/
import KernelModules.Part3.Ledger

namespace KernelModules.Part3

open Function Relation KernelModules.Lib

/-! ## Readings of the history -/

/-- The passengers who boarded at floor `c`, in order. -/
def boardedAt (c : Int) (log : List Event) : List Passenger :=
  log.filterMap fun | .boarded p floor => if floor = c then some p else none | _ => none

/-- The passengers delivered, in order. -/
def delivered (log : List Event) : List Passenger :=
  log.filterMap fun | .delivered p _ => some p | _ => none

@[simp] theorem boardedAt_append (c : Int) (xs ys : List Event) :
    boardedAt c (xs ++ ys) = boardedAt c xs ++ boardedAt c ys := List.filterMap_append

@[simp] theorem delivered_append (xs ys : List Event) :
    delivered (xs ++ ys) = delivered xs ++ delivered ys := List.filterMap_append

/-- Does the trip start at floor `i`? -/
def startsAt (i : Slot) (p : Passenger) : Bool := p.sFloor = (i : Int)
/-- Does the trip end at floor `j`? -/
def endsAt (j : Slot) (p : Passenger) : Bool := p.dFloor = (j : Int)
/-- Is it a trip from floor `i` to floor `j`? -/
def fromTo (i j : Slot) (p : Passenger) : Bool := startsAt i p && endsAt j p

/-- The floors of a valid passenger are slots, so the two filters compare slots, and each
    passenger is in one group. -/
theorem startsAt_iff {i k : Slot} {p : Passenger} (h : p.sFloor = i) :
    startsAt k p = decide (k = i) := by
  rw [startsAt, h]
  exact decide_eq_decide.mpr ⟨fun h => Fin.ext (by omega), fun h => by rw [h]⟩

theorem endsAt_iff {j k : Slot} {p : Passenger} (h : p.dFloor = j) :
    endsAt k p = decide (k = j) := by
  rw [endsAt, h]
  exact decide_eq_decide.mpr ⟨fun h => Fin.ext (by omega), fun h => by rw [h]⟩

/-! ## The ordering invariant -/

/-- The two equations between history and lists. -/
structure Fifo (s : Sys) : Prop where
  queue : ∀ i : Slot,
    (accepted s.log).filter (startsAt i) = boardedAt i s.log ++ (s.b.f i).waiting
  trip : ∀ i j : Slot, (accepted s.log).filter (fromTo i j)
    = (delivered s.log).filter (fromTo i j) ++ (s.b.e.p j).filter (startsAt i)
      ++ (s.b.f i).waiting.filter (endsAt j)

theorem Fifo.init : Fifo Sys.init := ⟨fun _ => rfl, fun _ _ => rfl⟩

/-- A step that adds an event about no passenger, and moves nobody: both sides of both equations
    are as they were. -/
theorem Fifo.congr {s s' : Sys} (h : Fifo s) (hf : s'.b.f = s.b.f) (hp : s'.b.e.p = s.b.e.p)
    {evs : List Event} (hlog : s'.log = s.log ++ evs) (ha : accepted evs = [])
    (hb : ∀ c, boardedAt c evs = []) (hd : delivered evs = []) : Fifo s' := by
  refine ⟨fun i => ?_, fun i j => ?_⟩
  · rw [hf, hlog, accepted_append, boardedAt_append, ha, hb, List.append_nil, List.append_nil]
    exact h.queue i
  · rw [hf, hp, hlog, accepted_append, delivered_append, ha, hd, List.append_nil, List.append_nil]
    exact h.trip i j

/-- **A turn of the load phase.**  Whoever boards leaves the head of the waiting list for the end of
    a list of the cabin; whoever gets off leaves the head of that for the end of the delivered. -/
theorem LoadStep.fifo {s s' : Sys} (hs : Sound s) (h : Fifo s) (hst : LoadStep s s') :
    Fifo s' := by
  cases hst with
  | enter hon => exact h.congr rfl rfl (List.append_nil _).symm rfl (fun _ => rfl) rfl
  | close hleft => exact h.congr rfl rfl (List.append_nil _).symm rfl (fun _ => rfl) rfl
  | @deliver i c p l hld hc hp hi =>
    have hdst := (hs.stock.riding_head hp).2
    have hacc : accepted [Event.delivered p s.b.e.current] = [] := rfl
    have hdel : delivered [Event.delivered p s.b.e.current] = [p] := rfl
    refine ⟨fun k => ?_, fun k j => ?_⟩
    · show (accepted (s.log ++ [.delivered p s.b.e.current])).filter _
        = boardedAt k (s.log ++ [.delivered p s.b.e.current]) ++ ((s.b.delivered i c p l).f k).waiting
      rw [s.b.waiting_delivered, accepted_append, boardedAt_append, hacc, List.append_nil,
        show boardedAt k [Event.delivered p s.b.e.current] = [] from rfl, List.append_nil]
      exact h.queue k
    · show (accepted (s.log ++ [.delivered p s.b.e.current])).filter _
        = (delivered (s.log ++ [.delivered p s.b.e.current])).filter _
          ++ (update s.b.e.p c l j).filter _ ++ ((s.b.delivered i c p l).f k).waiting.filter _
      rw [s.b.waiting_delivered, accepted_append, delivered_append, hacc, hdel, List.append_nil,
        h.trip k j, List.filter_append]
      by_cases hj : j = c
      · -- the head of the list becomes the last one delivered
        subst hj
        rw [update_self, hp, List.filter_cons]
        have hend : endsAt j p = true := by rw [endsAt_iff hdst]; exact decide_eq_true rfl
        cases hstart : startsAt k p <;> simp [fromTo, hstart, hend]
      · rw [update_of_ne hj]
        have hend : endsAt j p = false := by rw [endsAt_iff hdst]; exact decide_eq_false hj
        simp [fromTo, hend]
  | @board c j p l hld hsd hc hw hj hfit hdir =>
    have hsrc := (hs.stock.waiting_head hw).2
    have hacc : accepted [Event.boarded p s.b.e.current] = [] := rfl
    have hdel : delivered [Event.boarded p s.b.e.current] = [] := rfl
    have hfc : ((s.b.boarded c j p l).f c).waiting = l := by simp [Building.boarded]
    have hfk : ∀ k, k ≠ c → (s.b.boarded c j p l).f k = s.b.f k := by
      intro k hk
      simp [Building.boarded, hk]
    refine ⟨fun k => ?_, fun k m => ?_⟩
    · show (accepted (s.log ++ [.boarded p s.b.e.current])).filter _
        = boardedAt k (s.log ++ [.boarded p s.b.e.current]) ++ ((s.b.boarded c j p l).f k).waiting
      rw [accepted_append, boardedAt_append, hacc, List.append_nil, h.queue k]
      by_cases hk : k = c
      · subst hk
        have hb : boardedAt k [Event.boarded p s.b.e.current] = [p] := by
          simp [boardedAt, hc]
        rw [hfc, hb, hw, List.append_assoc]
        rfl
      · have hb : boardedAt k [Event.boarded p s.b.e.current] = [] := by
          have hne : ¬ s.b.e.current = (k : Int) := fun h => hk (Fin.ext (by omega))
          simp [boardedAt, hne]
        rw [hfk k hk, hb, List.append_nil]
    · show (accepted (s.log ++ [.boarded p s.b.e.current])).filter _
        = (delivered (s.log ++ [.boarded p s.b.e.current])).filter _
          ++ (pushTail j p s.b.e.p m).filter _ ++ ((s.b.boarded c j p l).f k).waiting.filter _
      rw [accepted_append, delivered_append, hacc, hdel, List.append_nil, List.append_nil,
        h.trip k m]
      have hstart := startsAt_iff (k := k) hsrc
      have hend := endsAt_iff (k := m) hj
      -- the head of the queue becomes the last one on board, for its own trip only
      have hpush : (pushTail j p s.b.e.p m).filter (startsAt k)
          = (s.b.e.p m).filter (startsAt k) ++ if k = c ∧ m = j then [p] else [] := by
        by_cases hm : m = j
        · subst hm
          by_cases hk : k = c
          · subst hk; simp [pushTail, hstart]
          · simp [pushTail, hstart, hk]
        · simp [pushTail, hm]
      have hwait : (s.b.f k).waiting.filter (endsAt m)
          = (if k = c ∧ m = j then [p] else [])
            ++ ((s.b.boarded c j p l).f k).waiting.filter (endsAt m) := by
        by_cases hk : k = c
        · subst hk
          rw [hfc, hw]
          by_cases hm : m = j
          · subst hm; simp [hend]
          · simp [hend, hm]
        · simp [hfk k hk, hk]
      rw [hpush, hwait]
      simp only [List.append_assoc]

theorem MoveStep.fifo {s s' : Sys} (h : Fifo s) (hst : MoveStep s s') : Fifo s' := by
  cases hst with
  | rest hoff => exact h.congr rfl rfl (List.append_nil _).symm rfl (fun _ => rfl) rfl
  | idle hon hempty hnone => exact h.congr rfl rfl rfl rfl (fun _ => rfl) rfl
  | goOffline hon hempty hsome hsd => exact h.congr rfl rfl rfl rfl (fun _ => rfl) rfl
  | advance hon hgo => exact h.congr rfl (moveCabin_p _) rfl rfl (fun _ => rfl) rfl

/-- **A call.**  Only an insertion counts: the passenger goes to the end of the history and to the
    end of the waiting list, under the same filter. -/
theorem CallStep.fifo {s s' : Sys} {a : Act} (h : Fifo s) (hst : CallStep s a s') :
    Fifo s' := by
  cases hst with
  | refuse => exact h
  | request hok => exact h.congr rfl rfl (List.append_nil _).symm rfl (fun _ => rfl) rfl
  | start hoff => exact h.congr rfl rfl rfl rfl (fun _ => rfl) rfl
  | stop hsd => exact h.congr rfl rfl rfl rfl (fun _ => rfl) rfl
  | @insert i p hin hp hi =>
    have hacc : accepted [Event.accepted p] = [p] := rfl
    have hdel : delivered [Event.accepted p] = [] := rfl
    have hbrd : ∀ c, boardedAt c [Event.accepted p] = [] := fun _ => rfl
    have hwait : ∀ k, ((s.b.queued i p).f k).waiting
        = (s.b.f k).waiting ++ [p].filter (startsAt k) := by
      intro k
      have hstart := startsAt_iff (k := k) hi
      by_cases hk : k = i
      · subst hk
        simp [Building.queued, Building.onFloor, hstart]
      · simp [Building.queued, Building.onFloor, hk, hstart]
    refine ⟨fun k => ?_, fun k j => ?_⟩
    · show (accepted (s.log ++ [.accepted p])).filter _
        = boardedAt k (s.log ++ [.accepted p]) ++ ((s.b.queued i p).f k).waiting
      rw [accepted_append, boardedAt_append, hacc, hbrd, List.append_nil, List.filter_append,
        h.queue k, hwait, List.append_assoc]
    · show (accepted (s.log ++ [.accepted p])).filter _
        = (delivered (s.log ++ [.accepted p])).filter _ ++ (s.b.e.p j).filter _
          ++ ((s.b.queued i p).f k).waiting.filter _
      rw [accepted_append, delivered_append, hacc, hdel, List.append_nil, List.filter_append,
        h.trip k j, hwait, List.filter_append, List.filter_filter, ← List.append_assoc]
      congr 1
      refine List.filter_congr fun q _ => ?_
      rw [fromTo, Bool.and_comm]

theorem Fifo.reachable {s : Sys} (h : loose.Reachable s) : Fifo s :=
  loose_invariant Fifo.init (fun _ _ hs hp hst => hst.fifo hs hp)
    (fun _ _ _ hp hst => hst.fifo hp) (fun _ _ _ _ hp hst => hst.fifo hp) h

/-! ## Nobody is lost, nobody is duplicated -/

/-- Everybody waiting, floor by floor. -/
def queued (b : Building) : List Passenger := (List.finRange 10).flatMap fun i => (b.f i).waiting

/-- Every passenger is on as many lists as it was accepted times less the times it was
    delivered. -/
def Conserved (s : Sys) : Prop :=
  ∀ q, ((accepted s.log).count q : Int) = (delivered s.log).count q
    + total (fun p => if p = q then (1 : Int) else 0) s.b.lists

theorem Conserved.init : Conserved Sys.init := by
  intro q
  have htot : total (fun p => if p = q then (1 : Int) else 0) Sys.init.b.lists = 0 :=
    total_empty _ fun x => by cases x <;> rfl
  rw [htot]
  rfl

/-- A step with the same lists and no event about a passenger. -/
theorem Conserved.congr {s s' : Sys} (h : Conserved s) (hf : s'.b.f = s.b.f)
    (hp : s'.b.e.p = s.b.e.p) {evs : List Event} (hlog : s'.log = s.log ++ evs)
    (ha : accepted evs = []) (hd : delivered evs = []) : Conserved s' := by
  have hl : s'.b.lists = s.b.lists := by
    funext x
    cases x with
    | inl i => show (s'.b.f i).waiting = _; rw [hf]; rfl
    | inr j => show s'.b.e.p j = _; rw [hp]; rfl
  intro q
  rw [hlog, accepted_append, delivered_append, ha, hd, List.append_nil, List.append_nil, hl]
  exact h q

/-- A turn of the load phase only takes passengers from one place to another: from a floor into
    the cabin, or out of it. -/
theorem LoadStep.conserved {s s' : Sys} (h : Conserved s) (hst : LoadStep s s') :
    Conserved s' := by
  cases hst with
  | enter hon => exact h.congr rfl rfl (List.append_nil _).symm rfl rfl
  | close hleft => exact h.congr rfl rfl (List.append_nil _).symm rfl rfl
  | @deliver i c p l hld hc hp hi =>
    intro q
    have hq := h q
    show ((accepted (s.log ++ [.delivered p s.b.e.current])).count q : Int)
      = (delivered (s.log ++ [.delivered p s.b.e.current])).count q
        + total _ (s.b.delivered i c p l).lists
    have hdrop := total_drop_head (fun p => if p = q then (1 : Int) else 0)
      (L := s.b.lists) (i := Sum.inr c) (a := p) (l := l) hp
    rw [s.b.lists_delivered, hdrop, accepted_append, delivered_append,
      show accepted [Event.delivered p s.b.e.current] = [] from rfl,
      show delivered [Event.delivered p s.b.e.current] = [p] from rfl, List.append_nil,
      List.count_append, List.count_singleton]
    by_cases hpq : p = q <;> simp [hpq] <;> omega
  | @board c j p l hld hsd hc hw hj hfit hdir =>
    intro q
    have hq := h q
    show ((accepted (s.log ++ [.boarded p s.b.e.current])).count q : Int)
      = (delivered (s.log ++ [.boarded p s.b.e.current])).count q
        + total _ (s.b.boarded c j p l).lists
    have hdrop := total_drop_head (fun p => if p = q then (1 : Int) else 0)
      (L := s.b.lists) (i := Sum.inl c) (a := p) (l := l) hw
    -- what leaves the waiting list enters the cabin
    rw [s.b.lists_boarded, total_pushTail, hdrop, sub_add_cancel, accepted_append,
      delivered_append, show accepted [Event.boarded p s.b.e.current] = [] from rfl,
      show delivered [Event.boarded p s.b.e.current] = [] from rfl, List.append_nil,
      List.append_nil]
    exact hq

theorem MoveStep.conserved {s s' : Sys} (h : Conserved s) (hst : MoveStep s s') :
    Conserved s' := by
  cases hst with
  | rest hoff => exact h.congr rfl rfl (List.append_nil _).symm rfl rfl
  | idle hon hempty hnone => exact h.congr rfl rfl rfl rfl rfl
  | goOffline hon hempty hsome hsd => exact h.congr rfl rfl rfl rfl rfl
  | advance hon hgo => exact h.congr rfl (moveCabin_p _) rfl rfl rfl

/-- A call adds the passenger it accepts, on both sides of the balance; the other calls do not
    show in it. -/
theorem CallStep.conserved {s s' : Sys} {a : Act} (h : Conserved s) (hst : CallStep s a s') :
    Conserved s' := by
  cases hst with
  | refuse => exact h
  | request hok => exact h.congr rfl rfl (List.append_nil _).symm rfl rfl
  | start hoff => exact h.congr rfl rfl rfl rfl rfl
  | stop hsd => exact h.congr rfl rfl rfl rfl rfl
  | @insert i p hin hp hi =>
    intro q
    have hq := h q
    show ((accepted (s.log ++ [.accepted p])).count q : Int)
      = (delivered (s.log ++ [.accepted p])).count q + total _ (s.b.queued i p).lists
    rw [s.b.lists_queued, total_pushTail, accepted_append, delivered_append,
      show accepted [Event.accepted p] = [p] from rfl,
      show delivered [Event.accepted p] = [] from rfl, List.append_nil, List.count_append,
      List.count_singleton]
    by_cases hpq : p = q <;> simp [hpq] <;> omega

theorem Conserved.reachable {s : Sys} (h : loose.Reachable s) : Conserved s :=
  loose_invariant Conserved.init (fun _ _ _ hp hst => hst.conserved hp)
    (fun _ _ _ hp hst => hst.conserved hp) (fun _ _ _ _ hp hst => hst.conserved hp) h

/-- The passengers accepted are the ones delivered, on board and waiting, rearranged: nobody is
    lost, and nobody is there twice. -/
theorem Conserved.perm {s : Sys} (h : Conserved s) :
    (accepted s.log).Perm (delivered s.log ++ onboard s.b.e ++ queued s.b) := by
  refine List.perm_iff_count.mpr fun q => ?_
  have hsplit : total (fun p => if p = q then (1 : Int) else 0) s.b.lists
      = (queued s.b).count q + (onboard s.b.e).count q := by
    have hcount : ∀ l : List Passenger,
        (l.map fun p => if p = q then (1 : Int) else 0).sum = l.count q := by
      intro l
      rw [List.count_eq_countP, ← sum_indicator]
      simp
    rw [← hcount, ← hcount, ← total_onboard, total, Fintype.sum_sum_type, queued,
      List.map_flatMap, List.flatMap_def, List.sum_flatten, List.map_map, ← Fin.sum_univ_def]
    rfl
  have hq := h q
  rw [List.count_append, List.count_append]
  omega

/-- **First in, first out, with no loss and no duplication.**  After any run of the module:
    the passengers accepted at floor `i` are, in order, those who boarded there and those still
    waiting; those accepted for the trip from `i` to `j` are, in order, the delivered, the ones on
    board and the ones waiting; all requests have nodes of their own, and the delivered, the
    passengers on board and those waiting are together a rearrangement of the accepted. -/
theorem fifo_nobody_lost {acts : List Act} {s : Sys} (h : system.run acts = some s) :
    (∀ i : Slot,
      (inserted acts).filter (startsAt i) = boardedAt i s.log ++ (s.b.f i).waiting) ∧
    (∀ i j : Slot, (inserted acts).filter (fromTo i j)
      = (delivered s.log).filter (fromTo i j) ++ (s.b.e.p j).filter (startsAt i)
        ++ (s.b.f i).waiting.filter (endsAt j)) ∧
    (inserted acts).Perm (delivered s.log ++ onboard s.b.e ++ queued s.b) ∧
    ((delivered s.log ++ onboard s.b.e ++ queued s.b).map Passenger.node).Nodup := by
  have hloose := loose_run_of_system h
  have hr := Machine.reachable_iff_run.mpr ⟨acts, hloose⟩
  have hacc := accepted_run hloose
  have hfifo := Fifo.reachable hr
  have hperm := (Conserved.reachable hr).perm
  have hnodup := (Sound.reachable hr).census.nodup
  rw [List.map_append, List.nodup_append] at hnodup
  rw [← hacc]
  exact ⟨hfifo.queue, hfifo.trip, hperm, (hperm.map _).nodup_iff.mp hnodup.1⟩

/-- Seven bellhops on the same trip, of whom three have arrived, three are on board and one waits:
    both equations, in the order of the nodes. -/
theorem fifo_nobody_lost_sevenBells :
    ∃ s, system.run sevenBells = some s ∧
      (delivered s.log).map Passenger.node = [0, 1, 2] ∧
      (s.b.e.p 1).map Passenger.node = [3, 4, 5] ∧
      (s.b.f 0).waiting.map Passenger.node = [6] ∧
      (inserted sevenBells).filter (startsAt 0) = boardedAt 0 s.log ++ (s.b.f 0).waiting ∧
      (inserted sevenBells).filter (fromTo 0 1) = (delivered s.log).filter (fromTo 0 1)
        ++ (s.b.e.p 1).filter (startsAt 0) ++ (s.b.f 0).waiting.filter (endsAt 1) := by
  have hrun := Machine.run_get (M := system) sevenBells (by decide)
  obtain ⟨hqueue, htrip, _⟩ := fifo_nobody_lost hrun
  exact ⟨_, hrun, by decide, by decide, by decide, hqueue 0, htrip 0 1⟩

end KernelModules.Part3
