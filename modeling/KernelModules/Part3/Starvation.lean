/-
  Between the ends of the building one can wait for ever.

  The cabin comes by an inner floor with passengers on board.  Ten children who get on at floor 0
  in time for every upward sweep, all of them for floor 9, leave no room for anybody before the
  top, and on the way down a passenger who goes up is not taken.  `Jam` is the state in between:
  one sweep of eighteen iterations leads from a jam to a jam (`Jam.sweep`), and so does any number
  of them.

  With the bound at the ends (`Waiting`), this says exactly at which floors the wait is bounded
  (`bounded_wait_iff`).
-/
import KernelModules.Part3.Waiting

namespace KernelModules.Part3

open Function Relation KernelModules.Lib

/-! ## Schedules, piece by piece -/

/-- Some schedule with `n` iterations of the thread, and ordinary calls, leads from `s` to `u`. -/
def Leads (s : Sys) (n : Nat) (u : Sys) : Prop :=
  ∃ acts, system.runFrom s acts = some u ∧ (∀ a ∈ acts, Ordinary a) ∧ acts.count .load = n

theorem Leads.refl (s : Sys) : Leads s 0 s := ⟨[], rfl, by simp, rfl⟩

theorem Leads.trans {s t u : Sys} {m n : Nat} (h : Leads s m t) (h' : Leads t n u) :
    Leads s (m + n) u := by
  obtain ⟨acts, hrun, hord, hcount⟩ := h
  obtain ⟨acts', hrun', hord', hcount'⟩ := h'
  refine ⟨acts ++ acts', ?_, ?_, ?_⟩
  · rw [Machine.runFrom_append, hrun]
    exact hrun'
  · intro a ha
    rcases List.mem_append.mp ha with ha | ha
    · exact hord a ha
    · exact hord' a ha
  · rw [List.count_append, hcount, hcount']

/-- The elevator runs, about to open the doors at position `x`, with the waiting lists `W` and the
    passengers `R` on board. -/
structure Stands (x : Nat) (W R : Slot → List Passenger) (s : Sys) : Prop where
  reachable : system.Reachable s
  track : At s.b.e x
  pc : s.pc = .load
  online : s.b.e.status ≠ .offline
  flag : s.b.e.shutdown = 0
  waiting : ∀ i, (s.b.f i).waiting = W i
  riding : s.b.e.p = R

/-- One iteration: the longest prefix that fits gets on, and the cabin goes to the next position if
    somebody is left waiting. -/
theorem Stands.turn {x : Nat} {W R : Slot → List Passenger} {s : Sys} (h : Stands x W R s)
    {k : Slot} (hk : Scan.level 9 x = k) : ∃ took kept, W k = took ++ kept ∧
      LongestPrefix (Fits (s.b.e.without k)) took (W k) ∧
      ((∃ i, update W k kept i ≠ []) → ∃ u, Leads s 1 u ∧ Stands (x + 1) (update W k kept)
        (fun j => (if j = k then [] else R j) ++ took.filter fun q => q.dFloor = (j : Int)) u) := by
  have hs := Sound.reachable (loose_of_system h.reachable)
  have hcur : s.b.e.current = k := h.track.current.trans (by rw [hk])
  obtain ⟨t, hload, hstop, hchain⟩ := loadPhase_spec hs
  obtain ⟨took, kept, hsplit, hserved, _, hopen⟩ := loadPhase_stop hs h.online hload hcur
  have hlongest := hopen (by rw [h.flag]; decide)
  rw [h.waiting] at hsplit hlongest
  refine ⟨took, kept, hsplit, hlongest, fun hleft => ?_⟩
  have hW : ∀ i, (t.b.f i).waiting = update W k kept i := by
    intro i
    by_cases hi : i = k
    · subst hi
      rw [hserved.floor, update_self]
    · rw [hserved.floors i hi, update_of_ne hi]
      exact h.waiting i
  have hsome : ¬ t.b.NoneWaiting := by
    intro hnone
    obtain ⟨i, hi⟩ := hleft
    exact hi ((hW i).symm.trans (hnone i))
  obtain ⟨hc, hn, hd, hsd⟩ := LoadStep.frame hchain
  have hmove := movePhase_advances (hstop.online h.online) (hsd.trans h.flag) hsome
  have hstep : system.step s .load = some t :=
    Machine.step_eq_some.mpr ⟨decide_eq_true h.pc, hload⟩
  have hstep' : system.step t .move = some (movePhase t) :=
    Machine.step_eq_some.mpr ⟨decide_eq_true (loadPhase_pc hload), rfl⟩
  refine ⟨movePhase t, ⟨[.load, .move], ?_, ?_, rfl⟩, ?_⟩
  · rw [Machine.runFrom_cons hstep, Machine.runFrom_cons hstep']
    rfl
  · intro a ha
    rcases List.mem_pair.mp ha with rfl | rfl <;> exact ⟨by decide, by simp⟩
  · refine ⟨(h.reachable.step hstep).step hstep', ?_, rfl, ?_, ?_, ?_, ?_⟩ <;> rw [hmove]
    · exact moveCabin_at (h.track.congr hc hn hd)
    · exact (moveCabin_status _).2
    · exact (moveCabin_shutdown _).trans (hsd.trans h.flag)
    · exact hW
    · funext j
      show (moveCabin t.b.e).p j = _
      rw [moveCabin_p, hserved.riding j, h.riding]

/-- One request: the passenger stands at the end of the queue of their start floor, in a node of
    their own. -/
theorem Stands.request {x : Nat} {W R : Slot → List Passenger} {s : Sys} (h : Stands x W R s)
    {t : PType} {v : Int} (hv : 1 ≤ v ∧ v ≤ 4) (ht : PType.ofInt (v - 1) = t) {i j : Slot}
    (hij : i ≠ j) : ∃ q u, q.type = t ∧ q.sFloor = (i : Int) ∧ q.dFloor = (j : Int) ∧ Leads s 0 u ∧
      Stands x (pushTail i q W) R u := by
  have hi := i.isLt
  have hj := j.isLt
  obtain ⟨q, hq⟩ : ∃ q, q = newPassenger s v (i + 1) (j + 1) := ⟨_, rfl⟩
  have hrefuse : refuses s.b.e v (i + 1) (j + 1) = false := by
    unfold refuses
    simp only [Bool.or_eq_false_iff, decide_eq_false_iff_not, bne_eq_false_iff_eq]
    refine ⟨⟨⟨?_, ?_⟩, ?_⟩, h.flag⟩ <;> omega
  have hvalid : q.Valid := hq ▸ newPassenger_valid hrefuse
  have hsrc : q.sFloor = i := by rw [hq]; exact Int.add_sub_cancel _ _
  have hdst : q.dFloor = j := by rw [hq]; exact Int.add_sub_cancel _ _
  let s₁ : Sys := { s with nodes := s.nodes + 1, inflight := s.inflight ++ [q] }
  let s₂ : Sys := ({ s₁ with
    b := s.b.queued i q, inflight := s₁.inflight.erase q } : Sys).record (.accepted q)
  have hstep₁ : system.step s (.request v (i + 1) (j + 1)) = some s₁ := by
    refine Machine.step_eq_some.mpr ⟨rfl, ?_⟩
    show (if _ then _ else _) = _
    rw [hrefuse, ← hq]
    rfl
  have hstep₂ : system.step s₁ (.insert q) = some s₂ := by
    refine Machine.step_eq_some.mpr ⟨decide_eq_true (by simp [s₁]), ?_⟩
    show (addPass s.b q).map _ = _
    rw [addPass_spec s.b hvalid hsrc]
    rfl
  refine ⟨q, s₂, by rw [hq]; exact ht, hsrc, hdst,
    ⟨[.request v (i + 1) (j + 1), .insert q], ?_, ?_, rfl⟩, ?_⟩
  · rw [Machine.runFrom_cons hstep₁, Machine.runFrom_cons hstep₂]
    rfl
  · intro a ha
    rcases List.mem_pair.mp ha with rfl | rfl
    · exact ⟨by simp, by simp⟩
    · refine ⟨by simp, fun r hr => ?_⟩
      obtain rfl : q = r := Act.insert.inj hr
      rw [hsrc, hdst]
      exact fun heq => hij (Fin.ext (by omega))
  · refine ⟨(h.reachable.step hstep₁).step hstep₂, h.track, h.pc, h.online, h.flag, ?_, h.riding⟩
    intro k
    show ((s.b.queued i q).lists (.inl k)) = _
    rw [Building.lists_queued]
    by_cases hk : k = i
    · subst hk
      rw [pushTail, update_self, pushTail, update_self, ← h.waiting]
      rfl
    · rw [pushTail, update_of_ne (by simpa using hk), pushTail, update_of_ne hk, ← h.waiting]
      rfl

/-! ## The jam -/

/-- A child from floor 0 to floor 9. -/
structure Child (q : Passenger) : Prop where
  type : q.type = .child
  src : q.sFloor = 0
  dst : q.dFloor = 9

/-- The list `l` at `c`, and nothing anywhere else. -/
def only (c : Slot) (l : List Passenger) : Slot → List Passenger := update (fun _ => []) c l

theorem only_self (c : Slot) (l : List Passenger) : only c l c = l := update_self ..

theorem only_of_ne {c i : Slot} (h : i ≠ c) (l : List Passenger) : only c l i = [] :=
  update_of_ne h ..

theorem only_nil (c : Slot) : only c [] = fun _ => [] := update_eq_self ..

/-- `p` waits at floor `c`; the others wait at floor 0 (`queue`) or ride (`riders`) for floor 9. -/
structure Jam (c : Slot) (p : Passenger) (queue riders : List Passenger) (x : Nat) (s : Sys) :
    Prop where
  stands : Stands x (update (only 0 queue) c [p]) (only 9 riders) s

variable {c : Slot} {p : Passenger} {queue riders : List Passenger} {x : Nat} {s : Sys}

/-- The floor at which the cabin stands, as a slot. -/
def stop (x : Nat) : Slot := ⟨Scan.level 9 x, by have := Scan.level_le (by decide : 0 < 9) x; omega⟩

/-! ### What a stop does to the lists -/

/-- Floor 0 is empty once its queue has boarded. -/
theorem queue_left (hc : c ≠ 0) :
    update (update (only 0 queue) c [p]) 0 [] = update (only 0 []) c [p] := by
  rw [update_comm hc, only, update_idem]
  rfl

/-- The riders get off at floor 9. -/
theorem riders_left (k : Slot) :
    (fun j : Slot => (if j = k then [] else only 9 riders j)
      ++ ([] : List Passenger).filter fun q => q.dFloor = (j : Int))
      = only 9 (if k = 9 then [] else riders) := by
  funext j
  rw [List.filter_nil, List.append_nil]
  by_cases hk : k = 9
  · rw [if_pos hk, hk, only_nil]
    by_cases hj : j = 9
    · rw [if_pos hj]
    · rw [if_neg hj, only_of_ne hj]
  · rw [if_neg hk]
    by_cases hj : j = k
    · rw [if_pos hj, hj, only_of_ne hk]
    · rw [if_neg hj]

/-- Children who get on at floor 0 ride for floor 9. -/
theorem riders_joined (hchild : ∀ q ∈ queue, Child q) :
    (fun j : Slot => (if j = 0 then [] else only 9 [] j)
      ++ queue.filter fun q => q.dFloor = (j : Int)) = only 9 queue := by
  funext j
  rw [only_nil, ite_self, List.nil_append]
  by_cases hj : j = 9
  · rw [hj, only_self, List.filter_eq_self]
    intro q hq
    exact decide_eq_true (hchild q hq).dst
  · rw [only_of_ne hj, List.filter_eq_nil_iff]
    intro q hq hqj
    have hdst := of_decide_eq_true hqj
    rw [(hchild q hq).dst] at hdst
    exact hj (Fin.ext (by exact_mod_cast hdst.symm))

/-! ### One iteration in a jam -/

/-- Children weigh one unit and take one place each. -/
theorem sum_children (h : ∀ q ∈ riders, Child q) : (riders.map getWeight).sum = riders.length ∧
    (riders.map getPass).sum = riders.length := by
  have hone : ∀ g : Passenger → Int, (∀ q, q.type = .child → g q = 1) →
      (riders.map g).sum = riders.length := by
    intro g hg
    rw [List.map_congr_left fun q hq => hg q (h q hq).type]
    exact total_one riders
  refine ⟨hone getWeight fun q hq => ?_, hone getPass fun q hq => ?_⟩
  · rw [getWeight, if_pos hq]
  · rw [getPass, if_pos (Or.inl hq)]

/-- What the riders take up when the doors open before floor 9: all that they took before, for
    none of them gets off yet. -/
theorem Jam.taken (h : Jam c p queue riders x s) (hc9 : c ≠ 9) (g : Passenger → Int) :
    ((onboard (s.b.e.without c)).map g).sum = (riders.map g).sum := by
  have hlists : (s.b.e.without c).p = only 9 riders := by
    show update s.b.e.p c [] = _
    rw [h.stands.riding]
    refine update_eq_self_iff.mpr ?_
    rw [only_of_ne hc9]
  rw [← total_onboard, hlists]
  have hupdate := total_update g (fun _ : Slot => []) 9 riders
  rw [total_empty g fun _ => rfl] at hupdate
  simpa [only] using hupdate

/-- At a floor above the ground where `p` is not taken, only riders for that floor get off, and
    there are none before floor 9. -/
theorem Jam.passes (h : Jam c p queue riders x s) (h0 : stop x ≠ 0)
    (hno : stop x = c → ¬ Fits (s.b.e.without c) [p]) :
    ∃ u, Leads s 1 u ∧ Jam c p queue (if stop x = 9 then [] else riders) (x + 1) u := by
  obtain ⟨took, kept, hsplit, hlongest, hnext⟩ := h.stands.turn (k := stop x) rfl
  have htook : took = [] := by
    by_cases hc : stop x = c
    · rw [hc, update_self] at hsplit
      cases took with
      | nil => rfl
      | cons q l =>
        obtain ⟨rfl, hl⟩ := List.cons.inj hsplit
        obtain ⟨rfl, _⟩ := List.append_eq_nil_iff.mp hl.symm
        rw [hc] at hlongest
        exact absurd hlongest.holds (hno hc)
    · rw [update_of_ne hc, only_of_ne h0] at hsplit
      exact (List.append_eq_nil_iff.mp hsplit.symm).1
  subst htook
  rw [List.nil_append] at hsplit
  rw [← hsplit, update_eq_self, riders_left] at hnext
  obtain ⟨u, hlead, hstands⟩ := hnext ⟨c, by rw [update_self]; exact List.cons_ne_nil _ _⟩
  exact ⟨u, hlead, ⟨hstands⟩⟩

/-- At floor 0 everybody gets on who fits, and ten children do. -/
theorem Jam.boards (h : Jam c p queue [] 0 s) (hc : c ≠ 0) (hchild : ∀ q ∈ queue, Child q)
    (hlen : queue.length ≤ 10) : ∃ u, Leads s 1 u ∧ Jam c p [] queue 1 u := by
  obtain ⟨took, kept, hsplit, hlongest, hnext⟩ := h.stands.turn (k := 0) rfl
  rw [update_of_ne hc.symm, only_self] at hsplit hlongest
  obtain ⟨hweight, hpass⟩ := sum_children hchild
  have hnobody : onboard (s.b.e.without 0) = [] := by
    refine onboard_eq_nil.mpr fun j => ?_
    show update s.b.e.p 0 [] j = []
    rw [h.stands.riding, only_nil, update_eq_self]
  have hfits : Fits (s.b.e.without 0) queue := by
    refine ⟨fun q hq => ?_, ?_, ?_⟩
    · show _ = s.b.e.direction
      rw [h.stands.track.direction, pDirection, (hchild q hq).src, (hchild q hq).dst]
      rfl
    · rw [hnobody, hweight]
      show (0 : Int) + _ ≤ 30
      omega
    · rw [hnobody, hpass]
      show (0 : Int) + _ ≤ 10
      omega
  have hall := hlongest.longest queue List.prefix_rfl hfits
  obtain rfl : kept = [] := by
    rw [hsplit, List.length_append] at hall
    exact List.length_eq_zero_iff.mp (by omega)
  rw [List.append_nil] at hsplit
  subst hsplit
  rw [queue_left hc, riders_joined hchild] at hnext
  obtain ⟨u, hlead, hstands⟩ := hnext ⟨c, by rw [update_self]; exact List.cons_ne_nil _ _⟩
  exact ⟨u, hlead, ⟨hstands⟩⟩

/-! ### One sweep in a jam -/

/-- Any number of children can be waiting at floor 0 before the doors open there; their requests
    are calls, and take no iteration. -/
theorem Jam.children (h : Jam c p [] [] x s) (hc : c ≠ 0) (n : Nat) : ∃ q u, q.length = n ∧
    (∀ r ∈ q, Child r) ∧ Leads s 0 u ∧ Jam c p q [] x u := by
  induction n with
  | zero => exact ⟨[], s, rfl, by simp, Leads.refl s, h⟩
  | succ n ih =>
    obtain ⟨q, t, hlen, hchild, hlead, hjam⟩ := ih
    obtain ⟨r, u, htype, hsrc, hdst, hlead', hstands⟩ := hjam.stands.request (v := 2) (by decide)
      rfl (show (0 : Slot) ≠ 9 by decide)
    refine ⟨q ++ [r], u, by rw [List.length_append, hlen]; rfl, ?_, hlead.trans hlead', ⟨?_⟩⟩
    · intro a ha
      rcases List.mem_append.mp ha with ha | ha
      · exact hchild a ha
      · rw [List.mem_singleton.mp ha]
        exact ⟨htype, hsrc, hdst⟩
    · have hqueue : pushTail 0 r (update (only 0 q) c [p]) = update (only 0 (q ++ [r])) c [p] := by
        rw [pushTail, update_of_ne hc.symm, only_self, update_comm hc, only, update_idem]
        rfl
      rw [hqueue] at hstands
      exact hstands

/-- Between the ends a jam stays a jam, as long as `p` is not taken, floor by floor. -/
theorem Jam.run (h : Jam c p queue riders x s) (n : Nat)
    (hends : ∀ m, m < n → stop (x + m) ≠ 0 ∧ stop (x + m) ≠ 9)
    (hno : ∀ m t, m < n → stop (x + m) = c → Jam c p queue riders (x + m) t →
      ¬ Fits (t.b.e.without c) [p]) : ∃ u, Leads s n u ∧ Jam c p queue riders (x + n) u := by
  induction n with
  | zero => exact ⟨s, Leads.refl s, h⟩
  | succ n ih =>
    obtain ⟨t, hlead, hjam⟩ := ih (fun m hm => hends m (by omega))
      fun m t hm => hno m t (by omega)
    obtain ⟨h0, h9⟩ := hends n (Nat.lt_succ_self n)
    obtain ⟨u, hlead', hjam'⟩ := hjam.passes h0 fun hc => hno n t (Nat.lt_succ_self n) hc hjam
    rw [if_neg h9] at hjam'
    exact ⟨u, hlead.trans hlead', hjam'⟩

/-- With ten children on board, nobody else fits, not even another child. -/
theorem Jam.full (h : Jam c p queue riders x s) (hc9 : c ≠ 9) (hchild : ∀ q ∈ riders, Child q)
    (hlen : riders.length = 10) : ¬ Fits (s.b.e.without c) [p] := by
  intro hfits
  have hwaits : p ∈ (s.b.f c).waiting := by
    rw [h.stands.waiting, update_self]
    exact List.mem_cons_self
  have hp := (Sound.reachable (loose_of_system h.stands.reachable)).stock.waiting hwaits
  have hone := Passenger.getPass_range hp.1.known
  have hpass := hfits.pass
  rw [h.taken hc9, (sum_children hchild).2, hlen, List.map_singleton, List.sum_singleton] at hpass
  unfold maxP at hpass
  omega

/-- On the way down a passenger who goes up is not taken, full cabin or not. -/
theorem Jam.wrongWay (h : Jam c p queue riders x s) (hup : p.sFloor < p.dFloor)
    (hdown : Scan.rising 9 x = false) : ¬ Fits (s.b.e.without c) [p] := by
  intro hfits
  have hdir := hfits.direction p List.mem_cons_self
  rw [show (s.b.e.without c).direction = s.b.e.direction from rfl, h.stands.track.direction, hdown,
    pDirection, if_pos hup] at hdir
  exact absurd hdir (by decide)

/-- **One sweep leads from a jam to a jam**: the children get on at floor 0 and off at floor 9, and
    `p` is still waiting. -/
theorem Jam.sweep (h : Jam c p [] [] 0 s) (hc : ¬ (c = 0 ∨ c = 9)) (hup : p.sFloor < p.dFloor) :
    ∃ u, Leads s 18 u ∧ Jam c p [] [] 0 u := by
  have hc0 : c ≠ 0 := fun heq => hc (Or.inl heq)
  have hc9 : c ≠ 9 := fun heq => hc (Or.inr heq)
  obtain ⟨q, s₀, hlen, hchild, hlead₀, hjam₀⟩ := h.children hc0 10
  obtain ⟨s₁, hlead₁, hjam₁⟩ := hjam₀.boards hc0 hchild (by omega)
  -- up to floor 9, with a full cabin
  obtain ⟨s₂, hlead₂, hjam₂⟩ := hjam₁.run 8 (by decide) fun m t _ _ ht => ht.full hc9 hchild hlen
  obtain ⟨s₃, hlead₃, hjam₃⟩ := hjam₂.passes (by decide) fun heq => absurd heq.symm hc9
  -- down to floor 0, with an empty one
  have hdown : ∀ m, m < 8 → Scan.rising 9 (10 + m) = false := by decide
  obtain ⟨s₄, hlead₄, hjam₄⟩ := hjam₃.run 8 (by decide) fun m t hm _ ht =>
    ht.wrongWay hup (hdown m hm)
  have hend := hjam₄.stands
  refine ⟨s₄, (((hlead₀.trans hlead₁).trans hlead₂).trans hlead₃).trans hlead₄, ⟨?_⟩⟩
  exact { hend with track := ⟨hend.track.current, hend.track.next, hend.track.direction⟩ }

/-- Any number of sweeps lead from a jam to a jam: up with ten children, and down to fetch the
    next ten. -/
theorem Jam.sweeps (h : Jam c p [] [] 0 s) (hc : ¬ (c = 0 ∨ c = 9)) (hup : p.sFloor < p.dFloor)
    (n : Nat) : ∃ u, Leads s (18 * n) u ∧ Jam c p [] [] 0 u := by
  induction n with
  | zero => exact ⟨s, Leads.refl s, h⟩
  | succ n ih =>
    obtain ⟨t, hlead, hjam⟩ := ih
    obtain ⟨u, hlead', hjam'⟩ := hjam.sweep hc hup
    exact ⟨u, hlead.trans hlead', hjam'⟩

/-- A passenger to floor 9 waits at floor `c` before the first sweep. -/
theorem jam_start (hc9 : c ≠ 9) :
    ∃ p s, p.sFloor < p.dFloor ∧ Leads .init 0 s ∧ Jam c p [] [] 0 s := by
  let s₀ := (system.run [.start]).get (by decide)
  have hlead₀ : Leads .init 0 s₀ := by
    refine ⟨[.start], Machine.run_get (M := system) [.start] (by decide), ?_, rfl⟩
    intro a ha
    rw [List.mem_singleton.mp ha]
    exact ⟨by decide, by simp⟩
  have hstands : Stands 0 (fun _ => []) (fun _ => []) s₀ :=
    ⟨Machine.reachable_get _ _, ⟨rfl, rfl, rfl⟩, rfl, by decide, rfl, fun i => rfl, rfl⟩
  obtain ⟨p, s, _, hsrc, hdst, hlead, hjam⟩ := hstands.request (v := 1) (by decide) rfl hc9
  refine ⟨p, s, ?_, hlead₀.trans hlead, ?_⟩
  · have := c.isLt
    have hc : (c : Nat) ≠ 9 := fun heq => hc9 (Fin.ext heq)
    have h9 : ((9 : Slot) : Nat) = 9 := rfl
    omega
  · refine ⟨?_⟩
    rw [only_nil, only_nil]
    exact hjam

/-- **Between the ends nobody's wait is bounded**, not even that of the head of a queue.  For any
    bound there is a schedule that keeps them waiting longer. -/
theorem waits_between (hc : ¬ (c = 0 ∨ c = 9)) (n : Nat) : ¬ WaitsAtMost c 0 n := by
  intro hwaits
  obtain ⟨p, s, hup, ⟨acts, hrun, hord, _⟩, hjam⟩ := jam_start fun heq => hc (Or.inr heq)
  obtain ⟨u, ⟨later, hlater, hord', hcount⟩, hjam'⟩ := hjam.sweeps hc hup n
  have hqueue : ∀ {t}, Jam c p [] [] 0 t → (t.b.f c).waiting = [] ++ p :: [] := by
    intro t ht
    rw [ht.stands.waiting, update_self]
    rfl
  refine not_boarded_of_waiting (loose_of_system hjam'.stands.reachable) (hqueue hjam') ?_
  refine hwaits acts later s u [] p [] hrun hjam.stands.online hjam.stands.flag (hqueue hjam) rfl
    hlater ?_ ?_ ?_
  · exact fun hstop => (hord' _ hstop).1 rfl
  · intro q hq
    obtain ⟨a, ha, hqa⟩ := List.mem_filterMap.mp hq
    have hordinary : Ordinary a := by
      rcases List.mem_append.mp ha with ha | ha
      · exact hord a ha
      · exact hord' a ha
    cases a with
    | insert r =>
      obtain rfl : r = q := Option.some.inj hqa
      exact hordinary.2 r rfl
    | _ => exact absurd hqa (by simp)
  · omega

/-- **Where the wait is bounded.**  At the two end floors, and only there, the head of a queue has
    boarded within some fixed number of iterations, whatever is requested meanwhile.  At the end
    floors a passenger with `k` others ahead has boarded within `18 * (k / 3 + 1)` iterations. -/
theorem bounded_wait_iff (c : Slot) : ((∃ n, WaitsAtMost c 0 n) ↔ c = 0 ∨ c = 9) ∧
    (c = 0 ∨ c = 9 → ∀ k, WaitsAtMost c k (18 * (k / 3 + 1))) := by
  refine ⟨⟨?_, ?_⟩, ?_⟩
  · rintro ⟨n, hn⟩
    by_contra hc
    exact waits_between hc n hn
  · intro hc
    exact ⟨_, waits_at_end hc 0⟩
  · intro hc k
    exact waits_at_end hc k

end KernelModules.Part3
