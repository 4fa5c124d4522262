/-
  The ride of one passenger, from `movePass` to `delPass`.

  A passenger who boards goes straight to their floor: the cabin comes by no floor twice on the
  way, does not turn, is not put back to floor 0, and is neither idle nor offline meanwhile.  The
  history since the boarding says so (`UnderWay`, `Finished`), and the invariant `Trip` carries it
  through every step of the machine.

  What keeps it going is the heading.  A passenger boards only if their heading is the cabin's,
  and the cabin turns at floors 0 and 9 only, which no passenger can still be short of when they
  get there.  The one state in which heading and next floor disagree, after a stale restart, lets
  nobody on board whose trip goes anywhere.  The other ingredient is the thread's loop: it stops
  to unload between any two moves, so nobody is carried past their floor.
-/
import KernelModules.Part3.Fifo

namespace KernelModules.Part3

open Function Relation KernelModules.Lib

/-! ## The way from one floor to another -/

/-- The number of floors to travel. -/
def Passenger.distance (p : Passenger) : Nat := (p.dFloor - p.sFloor).natAbs

/-- One floor towards the destination. -/
def Passenger.heading (p : Passenger) : Int := if p.dFloor > p.sFloor then 1 else -1

/-- The first `k` moves of the direct way. -/
def ride (p : Passenger) (k : Nat) : List (Int × Int) :=
  (List.range k).map fun n : Nat => (p.sFloor + p.heading * n, p.sFloor + p.heading * (n + 1))

theorem ride_succ (p : Passenger) (k : Nat) : ride p (k + 1)
    = ride p k ++ [(p.sFloor + p.heading * k, p.sFloor + p.heading * (k + 1))] := by
  rw [ride, List.range_succ, List.map_append]
  rfl

/-- At the destination, the whole distance has been travelled: floors travelled and floors to go
    add up to it. -/
theorem arrived {p : Passenger} {k : Nat} (hk : k ≤ p.distance)
    (h : p.dFloor = p.sFloor + p.heading * k) : k = p.distance := by
  unfold Passenger.heading at h
  unfold Passenger.distance at hk ⊢
  split at h <;> omega

/-- Short of the destination, the next floor is not past it, so no cabin overshoots. -/
theorem before_arrival {p : Passenger} {k : Nat} (hk : k < p.distance) :
    p.heading = 1 ∧ p.sFloor + k < p.dFloor ∨ p.heading = -1 ∧ p.dFloor < p.sFloor - k := by
  unfold Passenger.heading
  unfold Passenger.distance at hk
  split
  · exact Or.inl ⟨rfl, by omega⟩
  · exact Or.inr ⟨rfl, by omega⟩

theorem pDirection_eq (p : Passenger) : pDirection p = if p.heading = 1 then 1 else 0 := by
  unfold pDirection Passenger.heading
  split <;> rfl

/-! ## Reading the history -/

/-- The moves of the cabin, in order. -/
def moves (log : List Event) : List (Int × Int) :=
  log.filterMap fun | .moved src dst => some (src, dst) | _ => none

@[simp] theorem moves_append (xs ys : List Event) : moves (xs ++ ys) = moves xs ++ moves ys :=
  List.filterMap_append

/-- The events that must not occur while `p` is on board. -/
def disturbs (p : Passenger) : Event → Bool
  | .started | .idled | .wentOffline => true
  | .delivered q _ => q = p
  | _ => false

/-- The history since `p` boarded, once `p` was delivered: the moves up to the delivery are the
    direct way, with nothing to disturb the ride. -/
def Finished (p : Passenger) (evs : List Event) : Prop :=
  ∃ before after, evs = before ++ .delivered p p.dFloor :: after ∧
    moves before = ride p p.distance ∧ ∀ ev ∈ before, disturbs p ev = false

/-- The history since `p` boarded, `p` being on board after `k` moves. -/
structure UnderWay (p : Passenger) (evs : List Event) (s : Sys) (k : Nat) : Prop where
  aboard : p ∈ onboard s.b.e
  calm : ∀ ev ∈ evs, disturbs p ev = false
  moves : moves evs = ride p k
  bound : k ≤ p.distance
  current : s.b.e.current = p.sFloor + p.heading * k
  /-- Until the destination, the cabin goes the passenger's way ... -/
  direction : k < p.distance → s.b.e.direction = pDirection p
  track : ∃ x, At s.b.e x
  /-- ... and there the thread is about to unload. -/
  due : k = p.distance → s.pc = .load

theorem Finished.append {p : Passenger} {evs : List Event} (h : Finished p evs)
    (more : List Event) : Finished p (evs ++ more) := by
  obtain ⟨before, after, rfl, hmoves, hcalm⟩ := h
  exact ⟨before, after ++ more, by rw [List.append_assoc]; rfl, hmoves, hcalm⟩

/-- An event that neither disturbs the ride nor moves the cabin leaves it as far on its way as it
    was. -/
theorem UnderWay.concat {p : Passenger} {evs : List Event} {s s' : Sys} {k : Nat} {ev : Event}
    (h : UnderWay p evs s k) (hev : disturbs p ev = false) (hmoves : Part3.moves [ev] = [])
    (haboard : p ∈ onboard s'.b.e) (hc : s'.b.e.current = s.b.e.current)
    (hn : s'.b.e.next = s.b.e.next) (hd : s'.b.e.direction = s.b.e.direction)
    (hpc : s'.pc = s.pc) : UnderWay p (evs ++ [ev]) s' k where
  aboard := haboard
  calm e he := by
    rcases List.mem_append.mp he with he | he
    · exact h.calm e he
    · rw [List.mem_singleton.mp he]
      exact hev
  moves := by rw [moves_append, hmoves, List.append_nil, h.moves]
  bound := h.bound
  current := hc.trans h.current
  direction hk := hd.trans (h.direction hk)
  track := by
    obtain ⟨x, hx⟩ := h.track
    exact ⟨x, hx.congr hc hn hd⟩
  due hk := hpc.trans (h.due hk)

/-! ## The invariant -/

/-- Since each of its boardings, `p` rode directly to its floor or is on the direct way there. -/
def Trip (p : Passenger) (s : Sys) : Prop :=
  ∀ before floor since, s.log = before ++ .boarded p floor :: since →
    floor = p.sFloor ∧ (Finished p since ∨ ∃ k, UnderWay p since s k)

/-- Where an event is in a history with one more event. -/
theorem split_concat {log before since : List Event} {ev e : Event}
    (h : log ++ [ev] = before ++ e :: since) :
    (since = [] ∧ before = log ∧ e = ev) ∨
      ∃ since', since = since' ++ [ev] ∧ log = before ++ e :: since' := by
  rcases List.eq_nil_or_concat since with rfl | ⟨since', last, rfl⟩
  · obtain ⟨hlog, hev⟩ := List.append_inj' h rfl
    exact Or.inl ⟨rfl, hlog.symm, (List.cons.inj hev).1.symm⟩
  · rw [List.concat_eq_append] at h ⊢
    rw [← List.cons_append, ← List.append_assoc] at h
    obtain ⟨hlog, hev⟩ := List.append_inj' h rfl
    rw [(List.cons.inj hev).1]
    exact Or.inr ⟨since', rfl, hlog⟩

/-- A step that adds one event to the history.  Either that is the boarding of `p`, or it comes
    after one. -/
theorem Trip.concat {p : Passenger} {s s' : Sys} {ev : Event} (h : Trip p s)
    (hlog : s'.log = s.log ++ [ev])
    (hnew : ∀ floor, ev = .boarded p floor → floor = p.sFloor ∧ ∃ k, UnderWay p [] s' k)
    (hold : ∀ evs k, UnderWay p evs s k →
      Finished p (evs ++ [ev]) ∨ ∃ k', UnderWay p (evs ++ [ev]) s' k') : Trip p s' := by
  intro before floor since hsplit
  rw [hlog] at hsplit
  rcases split_concat hsplit with ⟨rfl, _, hev⟩ | ⟨since', rfl, hsplit'⟩
  · obtain ⟨hfloor, hway⟩ := hnew floor hev.symm
    exact ⟨hfloor, Or.inr hway⟩
  · obtain ⟨hfloor, hdone | ⟨k, hway⟩⟩ := h before floor since' hsplit'
    · exact ⟨hfloor, Or.inl (hdone.append [ev])⟩
    · exact ⟨hfloor, hold since' k hway⟩

/-- A step that leaves the history as it is. -/
theorem Trip.congr {p : Passenger} {s s' : Sys} (h : Trip p s) (hlog : s'.log = s.log)
    (hold : ∀ evs k, UnderWay p evs s k → UnderWay p evs s' k) : Trip p s' := by
  intro before floor since hsplit
  rw [hlog] at hsplit
  obtain ⟨hfloor, hdone | ⟨k, hway⟩⟩ := h before floor since hsplit
  · exact ⟨hfloor, Or.inl hdone⟩
  · exact ⟨hfloor, Or.inr ⟨k, hold since k hway⟩⟩

/-! ### Steps of a load phase -/

theorem not_empty_of_aboard {e : Elevator} {p : Passenger} (h : p ∈ onboard e) : ¬ e.Empty := by
  intro hempty
  obtain ⟨j, hj⟩ := mem_onboard.mp h
  rw [hempty j] at hj
  exact absurd hj List.not_mem_nil

/-- Whoever is on board, the elevator is neither idle nor offline: in both it is empty. -/
theorem status_of_aboard {s : Sys} (hs : Sound s) {p : Passenger} (h : p ∈ onboard s.b.e) :
    s.b.e.status ≠ .idle ∧ s.b.e.status ≠ .offline := by
  have hfull := not_empty_of_aboard h
  exact ⟨fun h => hfull (hs.motion.parked (Or.inl h)),
    fun h => hfull (hs.motion.parked (Or.inr h))⟩

/-- The passenger who gets off now rode directly: the moves since the boarding are the ride, and
    nothing disturbed it. -/
theorem UnderWay.delivered {p : Passenger} {evs : List Event} {s : Sys} {k : Nat} {c : Slot}
    (h : UnderWay p evs s k) (hc : s.b.e.current = c) (hdst : p.dFloor = c) :
    Finished p (evs ++ [.delivered p s.b.e.current]) := by
  have hcur := h.current
  have hk : k = p.distance := arrived h.bound (by omega)
  refine ⟨evs, [], ?_, ?_, h.calm⟩
  · rw [hc, hdst]
  · rw [h.moves, hk]

/-- A passenger who boards for another floor begins a direct ride, for the cabin goes their way. -/
theorem underWay_boarded {s : Sys} (hs : Sound s) {p : Passenger} {c j : Slot}
    {l : List Passenger} (hne : p.sFloor ≠ p.dFloor) (hc : s.b.e.current = c)
    (hsrc : p.sFloor = c) (hj : p.dFloor = j) (hdir : pDirection p = s.b.e.direction) :
    UnderWay p [] (({ s with b := s.b.boarded c j p l } : Sys).record
      (.boarded p s.b.e.current)) 0 where
  aboard := by
    refine mem_onboard.mpr ⟨j, ?_⟩
    show p ∈ pushTail j p s.b.e.p j
    exact mem_pushTail.mpr (Or.inr ⟨rfl, rfl⟩)
  calm ev hev := absurd hev List.not_mem_nil
  moves := rfl
  bound := Nat.zero_le _
  current := by
    show s.b.e.current = p.sFloor + p.heading * ((0 : Nat) : Int)
    rw [hc, hsrc, Nat.cast_zero, mul_zero, add_zero]
  direction _ := hdir.symm
  track := by
    rcases hs.motion.track with ⟨x, hx⟩ | hstale
    · exact ⟨x, hx.congr rfl rfl rfl⟩
    · -- after a stale restart only a trip from the ground floor to itself begins
      have hcur := hstale.current
      have hd := hstale.direction
      unfold pDirection at hdir
      split at hdir <;> omega
  due hk := by
    have hpos : 0 < p.distance := by unfold Passenger.distance; omega
    omega

/-- **A turn of the load phase.**  A boarding begins a trip of no floors yet, and a delivery ends
    one at the floor it was for. -/
theorem LoadStep.trip {p : Passenger} (hne : p.sFloor ≠ p.dFloor) {s s' : Sys} (hs : Sound s)
    (h : Trip p s) (hst : LoadStep s s') : Trip p s' := by
  cases hst with
  | enter =>
    refine h.congr rfl fun evs k hway => ?_
    obtain ⟨x, hx⟩ := hway.track
    exact ⟨hway.aboard, hway.calm, hway.moves, hway.bound, hway.current, hway.direction,
      ⟨x, hx.congr rfl rfl rfl⟩, hway.due⟩
  | @deliver i c q l hld hc hq hi =>
    have hdst := (hs.stock.riding_head hq).2
    refine h.concat rfl (by simp) fun evs k hway => ?_
    by_cases hqp : q = p
    · subst hqp
      exact Or.inl (hway.delivered hc hdst)
    · -- somebody else gets off
      refine Or.inr ⟨k, hway.concat (by simp [disturbs, hqp]) rfl ?_ rfl rfl rfl rfl⟩
      obtain ⟨j, hj⟩ := mem_onboard.mp hway.aboard
      refine mem_onboard.mpr ⟨j, ?_⟩
      show p ∈ update s.b.e.p c l j
      by_cases hjc : j = c
      · subst hjc
        rw [hq] at hj
        rw [update_self]
        exact (List.mem_cons.mp hj).resolve_left (Ne.symm hqp)
      · rwa [update_of_ne hjc]
  | @board c j q l hld hsd hc hw hj hfit hdir =>
    have hsrc := (hs.stock.waiting_head hw).2
    refine h.concat rfl ?_ fun evs k hway => ?_
    · intro floor hev
      obtain ⟨rfl, rfl⟩ := Event.boarded.inj hev
      exact ⟨hc.trans hsrc.symm, 0, underWay_boarded hs hne hc hsrc hj hdir⟩
    · refine Or.inr ⟨k, hway.concat rfl rfl ?_ rfl rfl rfl rfl⟩
      obtain ⟨m, hm⟩ := mem_onboard.mp hway.aboard
      exact mem_onboard.mpr ⟨m, mem_pushTail.mpr (Or.inl hm)⟩
  | close hleft =>
    refine h.congr rfl fun evs k hway => ?_
    refine ⟨hway.aboard, hway.calm, hway.moves, hway.bound, hway.current, hway.direction,
      hway.track, fun hk => ?_⟩
    -- at the destination the list was emptied, so the passenger is not there any more
    obtain ⟨j, hj⟩ := mem_onboard.mp hway.aboard
    have hdst := (hs.stock.riding hj).2
    have hcur := hway.current
    have hdist : p.dFloor = p.sFloor + p.heading * p.distance := by
      unfold Passenger.heading Passenger.distance
      split <;> omega
    have hon := (status_of_aboard hs hway.aboard).2
    have hsame := hleft hon j p (by rw [hcur, hk, ← hdist, hdst]) hj
    exact absurd (hsame.trans hdst.symm) hne

/-! ### Move phases and calls -/

/-- Short of the destination, the next floor is one floor towards it: the cabin has their heading
    until they get off. -/
theorem UnderWay.next {p : Passenger} {evs : List Event} {s : Sys} {k : Nat}
    (h : UnderWay p evs s k) (hk : k < p.distance) :
    s.b.e.next = s.b.e.current + p.heading := by
  obtain ⟨x, hx⟩ := h.track
  have hdir := h.direction hk
  rw [pDirection_eq] at hdir
  rcases before_arrival hk with ⟨hh, _⟩ | ⟨hh, _⟩
  · rw [hh, if_pos rfl] at hdir
    rw [hh]
    rcases hx.cases with hup | hdown
    · exact hup.2.1
    · omega
  · rw [hh, if_neg (by decide)] at hdir
    rw [hh]
    rcases hx.cases with hup | hdown
    · omega
    · rw [hdown.2.1]
      rfl

/-- One move takes the passenger one floor further, along the ride they are on. -/
theorem UnderWay.advance {p : Passenger} {evs : List Event} {s s' : Sys} {k : Nat} (hp : p.Valid)
    (h : UnderWay p evs s k) (hk : k < p.distance) (he : s'.b.e = moveCabin s.b.e)
    (hpc : s'.pc = .load) :
    UnderWay p (evs ++ [.moved s.b.e.current s.b.e.next]) s' (k + 1) := by
  have hnext := h.next hk
  have hcur := h.current
  have hstep : s.b.e.next = p.sFloor + p.heading * ((k + 1 : Nat) : Int) := by
    rw [hnext, hcur, Nat.cast_add, Nat.cast_one, mul_add, mul_one, add_assoc]
  obtain ⟨x, hx⟩ := h.track
  constructor
  · obtain ⟨j, hj⟩ := mem_onboard.mp h.aboard
    refine mem_onboard.mpr ⟨j, ?_⟩
    rw [he, moveCabin_p]
    exact hj
  · intro ev hev
    rcases List.mem_append.mp hev with hev | hev
    · exact h.calm ev hev
    · rw [List.mem_singleton.mp hev]
      rfl
  · rw [moves_append, h.moves, ride_succ]
    show _ ++ [(s.b.e.current, s.b.e.next)] = _
    rw [hstep, hcur, Nat.cast_add, Nat.cast_one]
  · exact hk
  · rw [he, moveCabin_current, hstep]
  · intro hk'
    -- the cabin turns at the ends of the building only, and neither is short of the destination
    have hdir := h.direction hk
    obtain ⟨j, hj⟩ := hp.dst
    have hlt := j.isLt
    rw [he, moveCabin_direction]
    · exact hdir
    · rcases before_arrival hk' with ⟨hh, hb⟩ | ⟨hh, hb⟩
      · rw [hh] at hstep
        obtain ⟨i, hi⟩ := hp.src
        push_cast at hstep hb
        omega
      · rw [hh] at hstep
        push_cast at hstep hb
        omega
    · rcases before_arrival hk' with ⟨hh, hb⟩ | ⟨hh, hb⟩
      · rw [hh] at hstep
        push_cast at hstep hb
        omega
      · rw [hh] at hstep
        obtain ⟨i, hi⟩ := hp.src
        have hilt := i.isLt
        push_cast at hstep hb
        omega
  · rw [he]
    exact ⟨x + 1, moveCabin_at hx⟩
  · intro _
    exact hpc

/-- When the thread is due to move, whoever is on board is short of their floor: at it they would
    have got off. -/
theorem UnderWay.short {p : Passenger} {evs : List Event} {s : Sys} {k : Nat}
    (h : UnderWay p evs s k) (hpc : s.pc = .move) : k < p.distance := by
  refine Nat.lt_of_le_of_ne h.bound fun hk => ?_
  rw [h.due hk] at hpc
  exact absurd hpc (by decide)

/-- **A move phase** adds a floor to every trip that is under way.  It neither idles nor goes
    offline, for somebody is on board. -/
theorem MoveStep.trip {p : Passenger} {s s' : Sys} (hs : Sound s) (hpc : s.pc = .move)
    (h : Trip p s) (hst : MoveStep s s') : Trip p s' := by
  -- with the passenger on board, the phase moves the cabin
  cases hst with
  | rest hoff =>
    refine h.congr rfl fun evs k hway => ?_
    exact absurd hoff (status_of_aboard hs hway.aboard).2
  | idle _ hempty =>
    exact h.concat rfl (by simp) fun evs k hway =>
      absurd hempty (not_empty_of_aboard hway.aboard)
  | goOffline _ hempty =>
    exact h.concat rfl (by simp) fun evs k hway =>
      absurd hempty (not_empty_of_aboard hway.aboard)
  | advance =>
    refine h.concat rfl (by simp) fun evs k hway => Or.inr ⟨k + 1, ?_⟩
    obtain ⟨j, hj⟩ := mem_onboard.mp hway.aboard
    exact hway.advance (hs.stock.riding hj).1 (hway.short hpc) rfl rfl

/-- **A call** does not move the cabin.  A restart would, but an offline elevator has nobody on
    board. -/
theorem CallStep.trip {p : Passenger} {s s' : Sys} {a : Act} (hs : Sound s) (h : Trip p s)
    (hst : CallStep s a s') : Trip p s' := by
  cases hst with
  | refuse => exact h
  | request =>
    refine h.congr rfl fun evs k hway => ?_
    exact ⟨hway.aboard, hway.calm, hway.moves, hway.bound, hway.current, hway.direction,
      hway.track, hway.due⟩
  | insert =>
    refine h.concat rfl (by simp) fun evs k hway => Or.inr ⟨k, ?_⟩
    exact hway.concat rfl rfl hway.aboard rfl rfl rfl rfl
  | start hoff =>
    refine h.concat rfl (by simp) fun evs k hway => ?_
    exact absurd hoff (status_of_aboard hs hway.aboard).2
  | stop =>
    refine h.concat rfl (by simp) fun evs k hway => Or.inr ⟨k, ?_⟩
    exact hway.concat rfl rfl hway.aboard rfl rfl rfl rfl

/-- In every reachable state, each of a passenger's boardings was followed by a direct ride so
    far. -/
theorem Trip.reachable {p : Passenger} (hne : p.sFloor ≠ p.dFloor) {s : Sys}
    (h : system.Reachable s) : Trip p s := by
  refine system_invariant (P := Trip p) ?_ (fun _ _ hs hp hst => hst.trip hne hs hp)
    (fun _ _ hs hpc hp hst => hst.trip hs hpc hp) (fun _ _ _ hs hp hst => hst.trip hs hp) h
  intro before floor since hsplit
  have hlen := congrArg List.length hsplit
  simp [Sys.init] at hlen

/-! ## What the history knows of the cabin -/

/-- Whoever is on board has boarded, and everybody was let off at their own floor. -/
structure Witnessed (s : Sys) : Prop where
  boarded : ∀ p, p ∈ onboard s.b.e → ∃ floor, Event.boarded p floor ∈ s.log
  delivered : ∀ p floor, Event.delivered p floor ∈ s.log → floor = p.dFloor

/-- A step that lets nobody in or out. -/
theorem Witnessed.congr {s s' : Sys} (h : Witnessed s) (hp : s'.b.e.p = s.b.e.p)
    {evs : List Event} (hlog : s'.log = s.log ++ evs)
    (hev : ∀ p floor, Event.delivered p floor ∉ evs) : Witnessed s' := by
  refine ⟨fun p haboard => ?_, fun p floor hmem => ?_⟩
  · rw [onboard, hp] at haboard
    obtain ⟨floor, hmem⟩ := h.boarded p haboard
    exact ⟨floor, by rw [hlog]; exact List.mem_append_left _ hmem⟩
  · rw [hlog] at hmem
    rcases List.mem_append.mp hmem with hmem | hmem
    · exact h.delivered p floor hmem
    · exact absurd hmem (hev p floor)

/-- A boarding leaves its event, and a delivery is at the floor of the list it empties. -/
theorem LoadStep.witnessed {s s' : Sys} (hs : Sound s) (h : Witnessed s) (hst : LoadStep s s') :
    Witnessed s' := by
  cases hst with
  | enter => exact h.congr rfl (List.append_nil _).symm (by simp)
  | close => exact h.congr rfl (List.append_nil _).symm (by simp)
  | @deliver i c q l hld hc hq hi =>
    have hdst := (hs.stock.riding_head hq).2
    refine ⟨fun p haboard => ?_, fun p floor hmem => ?_⟩
    · obtain ⟨j, hj⟩ := mem_onboard.mp haboard
      have hj' : p ∈ update s.b.e.p c l j := hj
      have hold : p ∈ s.b.e.p j := by
        by_cases hjc : j = c
        · subst hjc
          rw [update_self] at hj'
          rw [hq]
          exact List.mem_cons_of_mem q hj'
        · rwa [update_of_ne hjc] at hj'
      obtain ⟨floor, hmem⟩ := h.boarded p (mem_onboard.mpr ⟨j, hold⟩)
      exact ⟨floor, List.mem_append_left _ hmem⟩
    · rcases List.mem_append.mp hmem with hmem | hmem
      · exact h.delivered p floor hmem
      · obtain ⟨rfl, rfl⟩ := Event.delivered.inj (List.mem_singleton.mp hmem)
        exact hc.trans hdst.symm
  | @board c j q l hld hsd hc hw hj hfit hdir =>
    refine ⟨fun p haboard => ?_, fun p floor hmem => ?_⟩
    · obtain ⟨m, hm⟩ := mem_onboard.mp haboard
      rcases mem_pushTail.mp hm with hm | ⟨rfl, rfl⟩
      · obtain ⟨floor, hmem⟩ := h.boarded p (mem_onboard.mpr ⟨m, hm⟩)
        exact ⟨floor, List.mem_append_left _ hmem⟩
      · exact ⟨s.b.e.current, List.mem_append_right _ (List.mem_singleton.mpr rfl)⟩
    · rcases List.mem_append.mp hmem with hmem | hmem
      · exact h.delivered p floor hmem
      · exact absurd (List.mem_singleton.mp hmem) (by simp)

theorem MoveStep.witnessed {s s' : Sys} (h : Witnessed s) (hst : MoveStep s s') :
    Witnessed s' := by
  cases hst with
  | rest => exact h.congr rfl (List.append_nil _).symm (by simp)
  | idle => exact h.congr rfl rfl (by simp)
  | goOffline => exact h.congr rfl rfl (by simp)
  | advance => exact h.congr (moveCabin_p _) rfl (by simp)

theorem CallStep.witnessed {s s' : Sys} {a : Act} (h : Witnessed s) (hst : CallStep s a s') :
    Witnessed s' := by
  cases hst with
  | refuse => exact h
  | request => exact h.congr rfl (List.append_nil _).symm (by simp)
  | insert => exact h.congr rfl rfl (by simp)
  | start => exact h.congr rfl rfl (by simp)
  | stop => exact h.congr rfl rfl (by simp)

theorem Witnessed.reachable {s : Sys} (h : loose.Reachable s) : Witnessed s := by
  refine loose_invariant (P := Witnessed) ?_ (fun _ _ hs hp hst => hst.witnessed hs hp)
    (fun _ _ _ hp hst => hst.witnessed hp) (fun _ _ _ _ hp hst => hst.witnessed hp) h
  refine ⟨fun p haboard => ?_, fun p floor hmem => absurd hmem List.not_mem_nil⟩
  obtain ⟨j, hj⟩ := mem_onboard.mp haboard
  exact absurd hj List.not_mem_nil

/-- Nobody who was delivered is on board. -/
theorem not_aboard_of_delivered {s : Sys} (h : loose.Reachable s) {p : Passenger} {floor : Int}
    (hmem : Event.delivered p floor ∈ s.log) : p ∉ onboard s.b.e := by
  intro haboard
  have hnodup := (Sound.reachable h).census.nodup
  rw [List.map_append, List.nodup_append] at hnodup
  have hperm := (Conserved.reachable h).perm.nodup_iff.mp (List.Nodup.of_map _ hnodup.1)
  rw [List.nodup_append, List.nodup_append] at hperm
  have hdel : p ∈ delivered s.log := by
    rw [delivered, List.mem_filterMap]
    exact ⟨_, hmem, rfl⟩
  exact hperm.1.2.2 p hdel p haboard rfl

/-- Whoever is on board, for another floor than their own, is on the direct way there: they have
    boarded, and have not been delivered since. -/
theorem underWay_of_aboard {s : Sys} (h : system.Reachable s) {p : Passenger}
    (hne : p.sFloor ≠ p.dFloor) (haboard : p ∈ onboard s.b.e) : ∃ evs k, UnderWay p evs s k := by
  have hloose := loose_of_system h
  obtain ⟨floor, hmem⟩ := (Witnessed.reachable hloose).boarded p haboard
  obtain ⟨before, since, hsplit⟩ := List.append_of_mem hmem
  obtain ⟨_, hdone | ⟨k, hway⟩⟩ := Trip.reachable hne h before floor since hsplit
  · obtain ⟨pre, post, rfl, _⟩ := hdone
    have hdel : Event.delivered p p.dFloor ∈ s.log := by
      rw [hsplit]
      simp
    exact absurd haboard (not_aboard_of_delivered hloose hdel)
  · exact ⟨since, k, hway⟩

/-- A move phase with such a passenger on board moves the cabin one floor their way. -/
theorem movePhase_of_underWay {p : Passenger} {evs : List Event} {s : Sys} {k : Nat}
    (hs : Sound s) (h : UnderWay p evs s k) (hpc : s.pc = .move) :
    (movePhase s).b.e.current = s.b.e.current + p.heading ∧
      (movePhase s).log = s.log ++ [.moved s.b.e.current (s.b.e.current + p.heading)] := by
  have hnext := h.next (h.short hpc)
  have hfull := not_empty_of_aboard h.aboard
  have hst := movePhase_step s
  generalize movePhase s = t at hst
  cases hst with
  | rest hoff => exact absurd hoff (status_of_aboard hs h.aboard).2
  | idle _ hempty => exact absurd hempty hfull
  | goOffline _ hempty => exact absurd hempty hfull
  | advance =>
    refine ⟨(moveCabin_current _).trans hnext, ?_⟩
    rw [← hnext]
    rfl

/-! ## Direct rides -/

/-- **Direct rides.**  After every run of the module and for every passenger with two different
    floors: each boarding was at the start floor and the ride since then is direct — either it is
    over, with a delivery at the destination after exactly the moves of the direct way, or it is
    under way along it, in both cases with no restart, no idling and no going offline in between;
    every delivery was at the destination; and while the passenger is on board the elevator is
    neither idle nor offline, and every move phase moves the cabin one floor towards the
    destination. -/
theorem rides_are_direct {s : Sys} (h : system.Reachable s) {p : Passenger}
    (hne : p.sFloor ≠ p.dFloor) :
    (∀ before floor since, s.log = before ++ .boarded p floor :: since →
      floor = p.sFloor ∧ (Finished p since ∨ ∃ k, UnderWay p since s k)) ∧
    (∀ floor, Event.delivered p floor ∈ s.log → floor = p.dFloor) ∧
    (p ∈ onboard s.b.e → s.b.e.status ≠ .idle ∧ s.b.e.status ≠ .offline ∧
      (s.pc = .move → (movePhase s).b.e.current = s.b.e.current + p.heading ∧
        (movePhase s).log = s.log ++ [.moved s.b.e.current (s.b.e.current + p.heading)])) := by
  have hloose := loose_of_system h
  have hs := Sound.reachable hloose
  refine ⟨Trip.reachable hne h, (Witnessed.reachable hloose).delivered p, fun haboard => ?_⟩
  obtain ⟨hidle, hoff⟩ := status_of_aboard hs haboard
  obtain ⟨evs, k, hway⟩ := underWay_of_aboard h hne haboard
  exact ⟨hidle, hoff, movePhase_of_underWay hs hway⟩

/-- Two floors up, with nothing but the two moves between boarding and delivery. -/
theorem rides_are_direct_shortRun :
    let s := (system.run (shortRun ++ [.load, .move, .load])).get (by decide)
    Finished ⟨0, .bell, 0, 2⟩ [.moved 0 1, .moved 1 2, .delivered ⟨0, .bell, 0, 2⟩ 2] ∨
      ∃ k, UnderWay ⟨0, .bell, 0, 2⟩ [.moved 0 1, .moved 1 2, .delivered ⟨0, .bell, 0, 2⟩ 2] s k := by
  have hr := Machine.reachable_get (M := system) (shortRun ++ [.load, .move, .load]) (by decide)
  exact ((rides_are_direct hr (p := ⟨0, .bell, 0, 2⟩) (by decide)).1
    [.started, .accepted ⟨0, .bell, 0, 2⟩] 0 _ (by decide)).2

end KernelModules.Part3
