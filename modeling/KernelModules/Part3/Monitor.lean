/-
  What a monitor learns from `/proc/elevator`.

  A program that opens the file, reads it and parses the text gets a `Stats`.  Three results have to
  come together before this says anything about passengers: the bytes are those of the report of
  some building (`ProcFs`), the report can be read back (`Report`), and the printed counters are
  the sums they stand for (`Ledger`).  Here they do: every reading goes back to the open of its own
  session (`Traced`), and a first read gives, floor by floor, how many waited and how many had been
  brought home at that open, as the history of the module has it (`reader_learns`).

  Two readings in a row are comparable, too: no floor's serviced count goes down from one to the
  next (`serviced_never_falls`).
-/
import KernelModules.Part3.Fifo
import KernelModules.Part3.ProcFs
import KernelModules.Part3.Race
import KernelModules.Part3.Safety

namespace KernelModules.Part3

open Function Relation KernelModules.Lib

/-! ## The counters, read off the history -/

/-- Everybody who ever boarded, in order. -/
def boarded (log : List Event) : List Passenger :=
  log.filterMap fun | .boarded p _ => some p | _ => none

@[simp] theorem boarded_append (xs ys : List Event) :
    boarded (xs ++ ys) = boarded xs ++ boarded ys := List.filterMap_append

/-- The cabin holds who has boarded and was not delivered, and a floor's serviced counter counts the
    delivered passengers from there. -/
structure Account (s : Sys) : Prop where
  cabin : ∀ g : Passenger → Int,
    total g s.b.e.p + ((delivered s.log).map g).sum = ((boarded s.log).map g).sum
  serviced : ∀ i : Slot, (s.b.f i).serviced = (delivered s.log).countP (startsAt i)

theorem Account.init : Account Sys.init where
  cabin g := by
    show total g (fun _ : Slot => []) + 0 = 0
    rw [total_empty g fun _ => rfl]
    rfl
  serviced _ := rfl

/-- A step that lets nobody in or out leaves both sides of the account as they were. -/
theorem Account.congr {s s' : Sys} (h : Account s) (hp : s'.b.e.p = s.b.e.p)
    (hf : ∀ i, (s'.b.f i).serviced = (s.b.f i).serviced) {evs : List Event}
    (hlog : s'.log = s.log ++ evs) (hb : boarded evs = []) (hd : delivered evs = []) :
    Account s' where
  cabin g := by
    rw [hp, hlog, boarded_append, delivered_append, hb, hd, List.append_nil, List.append_nil]
    exact h.cabin g
  serviced i := by
    rw [hf, hlog, delivered_append, hd, List.append_nil]
    exact h.serviced i

/-- **A turn of the load phase.**  Whoever boards is counted in the cabin from now on, and whoever
    gets off no more. -/
theorem LoadStep.account {s s' : Sys} (h : Account s) (hst : LoadStep s s') : Account s' := by
  cases hst with
  | enter => exact h.congr rfl (fun _ => rfl) (List.append_nil _).symm rfl rfl
  | close => exact h.congr rfl (fun _ => rfl) (List.append_nil _).symm rfl rfl
  | @deliver i c p l _ _ hp hsrc =>
    refine ⟨fun g => ?_, fun k => ?_⟩
    · have hcabin := h.cabin g
      show total g (update s.b.e.p c l) + ((delivered (s.log ++ [.delivered p _])).map g).sum
        = ((boarded (s.log ++ [.delivered p _])).map g).sum
      rw [total_drop_head g hp, boarded_append, delivered_append, List.map_append, List.map_append,
        List.sum_append, List.sum_append]
      show _ - g p + (_ + (g p + 0)) = _ + 0
      omega
    · have hserved := h.serviced k
      show (update s.b.f i _ k).serviced
        = (delivered (s.log ++ [.delivered p _])).countP (startsAt k)
      rw [delivered_append, List.countP_append]
      show _ = ((_ + [p].countP (startsAt k) : Nat) : Int)
      rw [List.countP_singleton, startsAt_iff hsrc]
      by_cases hk : k = i
      · subst hk
        rw [update_self, decide_eq_true rfl, if_pos rfl, hserved]
        rfl
      · rw [update_of_ne hk, decide_eq_false hk, if_neg (by decide)]
        exact hserved
  | @board c j p l _ _ _ hw _ _ _ =>
    refine ⟨fun g => ?_, fun k => ?_⟩
    · have hcabin := h.cabin g
      show total g (pushTail j p s.b.e.p) + ((delivered (s.log ++ [.boarded p _])).map g).sum
        = ((boarded (s.log ++ [.boarded p _])).map g).sum
      rw [total_pushTail, boarded_append, delivered_append, List.map_append, List.map_append,
        List.sum_append, List.sum_append]
      show _ + g p + (_ + 0) = _ + (g p + 0)
      omega
    · have hserved := h.serviced k
      show (update s.b.f c _ k).serviced
        = (delivered (s.log ++ [.boarded p _])).countP (startsAt k)
      rw [delivered_append, List.countP_append]
      show _ = ((_ + 0 : Nat) : Int)
      exact (s.b.serviced_boarded c j p l k).trans hserved

theorem MoveStep.account {s s' : Sys} (h : Account s) (hst : MoveStep s s') : Account s' := by
  cases hst with
  | rest => exact h.congr rfl (fun _ => rfl) (List.append_nil _).symm rfl rfl
  | idle | goOffline => exact h.congr rfl (fun _ => rfl) rfl rfl rfl
  | advance => exact h.congr (moveCabin_p s.b.e) (fun _ => rfl) rfl rfl rfl

/-- A call accepts or it does not; nobody boards or gets off by it, and no ledger changes. -/
theorem CallStep.account {s s' : Sys} {a : Act} (h : Account s) (hst : CallStep s a s') :
    Account s' := by
  cases hst with
  | refuse | request => exact h.congr rfl (fun _ => rfl) (List.append_nil _).symm rfl rfl
  | start | stop => exact h.congr rfl (fun _ => rfl) rfl rfl rfl
  | @insert i p => exact h.congr rfl (s.b.serviced_queued i p) rfl rfl rfl

theorem Account.reachable {s : Sys} (h : loose.Reachable s) : Account s :=
  loose_invariant Account.init (fun _ _ _ hs hst => hst.account hs)
    (fun _ _ _ hs hst => hst.account hs) (fun _ _ _ _ hs hst => hst.account hs) h

/-! ## A report that can be read -/

/-- The status is always one of the five enumerators, so the report has a word for it. -/
theorem status_named {s : Sys} (h : loose.Reachable s) : ∀ v, s.b.e.status ≠ .raw v := by
  refine loose_invariant (P := fun s => ∀ v, s.b.e.status ≠ .raw v) (fun _ => State.noConfusion)
    ?_ ?_ ?_ h
  · intro s s' _ hs hst v
    cases hst with
    | enter => exact State.noConfusion
    | deliver | board | close => exact hs v
  · intro s s' _ hs hst v
    cases hst with
    | rest => exact hs v
    | idle | goOffline => exact State.noConfusion
    | advance =>
      obtain ⟨next, direction, status, hst, heq⟩ := moveCabin_form s.b.e
      show (moveCabin s.b.e).status ≠ _
      rw [heq]
      rcases hst with rfl | rfl <;> exact State.noConfusion
  · intro s a s' _ hs hst v
    cases hst with
    | refuse | request | insert | stop => exact hs v
    | start => exact State.noConfusion

/-- In a reachable state the report can be read back: floors, weights and status are what the
    reader expects. -/
theorem reportable_reachable {s : Sys} (h : loose.Reachable s) : Reportable s.b := by
  have hs := Sound.reachable h
  obtain ⟨hcur, hnext, _⟩ := hs.motion.track.neighbours
  refine ⟨status_named h, hcur, hnext, hs.stock.withinCapacity.wUnits.1, fun i => ?_⟩
  have hcounts : (s.b.f i).toLoad.Counts (s.b.f i).waiting := by
    rw [hs.stock.floors i]
    exact counts_sum_unit _
  rw [hcounts.wUnits]
  refine List.sum_nonneg fun w hw => ?_
  obtain ⟨p, hp, rfl⟩ := List.mem_map.mp hw
  have := Passenger.getWeight_range (hs.stock.waiting hp).1.known
  omega

/-- Does reader `n` read? -/
def ProcAct.readBy (n : Nat) : ProcAct → Bool
  | .elevatorRead m => m == n
  | _ => false

/-- After the schedule `acts` reader `n` has the session `se`: it has opened the file in state `t`,
    has not released it since, and has read it as often as the session says. -/
def OpenedIn (acts : List ProcAct) (n : Nat) (se : Session) (t : ProcFs) : Prop :=
  ∃ pre junk since, acts = pre ++ .elevatorOpen n junk :: since ∧ procfs.run pre = some t ∧
    (∀ a ∈ since, a ≠ .elevatorRelease n) ∧
    se = ⟨t.sys.b, t.heap.length, since.countP (ProcAct.readBy n)⟩

/-- The reading `r` is one of the schedule, made in a session that was opened in state `t`. -/
def ReadIn (acts : List ProcAct) (r : ReadEvent) (t : ProcFs) : Prop :=
  ∃ pre n u v, pre ++ [.elevatorRead n] <+: acts ∧ OpenedIn pre n r.session t ∧
    procfs.run pre = some u ∧ procfs.step u (.elevatorRead n) = some v ∧ v.reads = u.reads ++ [r]

/-- Every session, and every reading, goes back to its open. -/
structure Traced (acts : List ProcAct) (s : ProcFs) : Prop where
  sessions : ∀ n se, s.sessions n = some se → ∃ t, OpenedIn acts n se t
  reads : ∀ r ∈ s.reads, ∃ t, ReadIn acts r t

/-- An action that is none of reader `n`'s leaves the session of `n` as it is: opened where it
    was, and by as many reads. -/
theorem OpenedIn.other {acts : List ProcAct} {n : Nat} {se : Session} {t : ProcFs}
    (h : OpenedIn acts n se t) {a : ProcAct} (hread : a.readBy n = false)
    (hrelease : a ≠ .elevatorRelease n) : OpenedIn (acts ++ [a]) n se t := by
  obtain ⟨pre, junk, since, rfl, hrun, hkept, rfl⟩ := h
  refine ⟨pre, junk, since ++ [a], by simp, hrun, ?_, ?_⟩
  · exact List.forall_mem_append.mpr ⟨hkept, List.forall_mem_singleton.mpr hrelease⟩
  · rw [List.countP_append, List.countP_singleton, hread]
    rfl

/-- A read counts in its session, which was opened where it was before. -/
theorem OpenedIn.read {acts : List ProcAct} {n : Nat} {se : Session} {t : ProcFs}
    (h : OpenedIn acts n se t) :
    OpenedIn (acts ++ [.elevatorRead n]) n { se with reads := se.reads + 1 } t := by
  obtain ⟨pre, junk, since, rfl, hrun, hkept, rfl⟩ := h
  refine ⟨pre, junk, since ++ [.elevatorRead n], by simp, hrun, ?_, ?_⟩
  · exact List.forall_mem_append.mpr ⟨hkept, List.forall_mem_singleton.mpr ProcAct.noConfusion⟩
  · rw [List.countP_append, List.countP_singleton, ProcAct.readBy, beq_self_eq_true]
    rfl

/-- A reading of a schedule is one of every longer schedule: what it came from does not change. -/
theorem ReadIn.mono {acts acts' : List ProcAct} (hpre : acts <+: acts') {r : ReadEvent}
    {t : ProcFs} (h : ReadIn acts r t) : ReadIn acts' r t := by
  obtain ⟨pre, n, u, v, hread, hopened, hrun, hst, hlast⟩ := h
  exact ⟨pre, n, u, v, hread.trans hpre, hopened, hrun, hst, hlast⟩

/-- One read, for the session it is made in, for the other sessions and for the readings so far. -/
theorem Traced.read {acts : List ProcAct} {s s' : ProcFs} (hs : Traced acts s)
    (hrun : procfs.run acts = some s) {n : Nat} {se : Session} {r : ReadEvent}
    (hse : s.sessions n = some se) (hst : procfs.step s (.elevatorRead n) = some s')
    (hsessions : s'.sessions = update s.sessions n (some { se with reads := se.reads + 1 }))
    (hreads : s'.reads = s.reads ++ [r]) (hr : r.session = se) :
    Traced (acts ++ [.elevatorRead n]) s' := by
  obtain ⟨t, ht⟩ := hs.sessions n se hse
  refine ⟨fun m se' hm => ?_, fun q hq => ?_⟩
  · rw [hsessions] at hm
    rcases session_cases hm with ⟨rfl, hnew⟩ | ⟨hne, hold⟩
    · obtain rfl := Option.some.inj hnew
      exact ⟨t, ht.read⟩
    · obtain ⟨t', ht'⟩ := hs.sessions m se' hold
      exact ⟨t', ht'.other (beq_false_of_ne (Ne.symm hne)) ProcAct.noConfusion⟩
  · rw [hreads] at hq
    rcases List.mem_append.mp hq with hq | hq
    · obtain ⟨t', ht'⟩ := hs.reads q hq
      exact ⟨t', ht'.mono (List.prefix_append _ _)⟩
    · obtain rfl := List.mem_singleton.mp hq
      exact ⟨t, acts, n, s, s', List.prefix_rfl, hr ▸ ht, hrun, hst, hreads⟩

/-- **Every read is of its own session.**  After every run the record of the reads is traced back,
    each to the open that printed its text. -/
theorem traced_run {acts : List ProcAct} {s : ProcFs} (hrun : procfs.run acts = some s) :
    Traced acts s := by
  induction acts using List.reverseRecOn generalizing s with
  | nil =>
    rw [← Option.some.inj hrun]
    exact ⟨fun _ _ h => absurd h (by simp [procfs, ProcFs.init]),
      fun _ h => absurd h List.not_mem_nil⟩
  | append_singleton acts a ih =>
    rw [Machine.run_concat, Option.bind_eq_some_iff] at hrun
    obtain ⟨t, ht, hst⟩ := hrun
    have hs := ih ht
    have hreads : ∀ r ∈ t.reads, ∃ u, ReadIn (acts ++ [a]) r u := fun r hr => by
      obtain ⟨u, hu⟩ := hs.reads r hr
      exact ⟨u, hu.mono (List.prefix_append _ _)⟩
    cases proc_step hst with
    | sys =>
      refine ⟨fun n se hse => ?_, hreads⟩
      obtain ⟨u, hu⟩ := hs.sessions n se hse
      exact ⟨u, hu.other rfl ProcAct.noConfusion⟩
    | @opened n junk hnone =>
      refine ⟨fun m se hse => ?_, hreads⟩
      rcases session_cases hse with ⟨rfl, hnew⟩ | ⟨_, hold⟩
      · obtain rfl := Option.some.inj hnew
        exact ⟨t, acts, some junk, [], rfl, ht, fun _ h => absurd h List.not_mem_nil, rfl⟩
      · obtain ⟨u, hu⟩ := hs.sessions m se hold
        exact ⟨u, hu.other rfl ProcAct.noConfusion⟩
    | copied hn | ended hn => exact hs.read ht hn hst rfl rfl rfl
    | @released n se hn =>
      refine ⟨fun m se' hse => ?_, hreads⟩
      rcases session_cases hse with ⟨_, hnew⟩ | ⟨hm, hold⟩
      · exact absurd hnew (by simp)
      · obtain ⟨u, hu⟩ := hs.sessions m se' hold
        exact ⟨u, hu.other rfl fun heq => hm (ProcAct.elevatorRelease.inj heq).symm⟩

/-- Whatever the readers do, the module is in a state it reaches by itself: an open only looks at
    it. -/
theorem proc_sys_reachable {s : ProcFs} (h : procfs.Reachable s) : system.Reachable s.sys := by
  refine Machine.Reachable.induct (M := procfs) (P := fun s => system.Reachable s.sys) .init ?_ h
  intro s a s' _ hs hst
  cases proc_step hst with
  | sys hsys => exact hs.step hsys
  | opened | copied | ended | released => exact hs

/-- A session is opened in a state the machine gets to, with the building as it is then. -/
theorem OpenedIn.reachable {acts : List ProcAct} {n : Nat} {se : Session} {t : ProcFs}
    (h : OpenedIn acts n se t) : procfs.Reachable t ∧ se.b = t.sys.b := by
  obtain ⟨pre, _, _, _, hrun, _, rfl⟩ := h
  exact ⟨Machine.reachable_iff_run.mpr ⟨pre, hrun⟩, rfl⟩

/-- A first read is the report of the building at the open of its own session, whatever else has
    been opened, read or moved since. -/
theorem first_read {acts : List ProcAct} {s : ProcFs} (hrun : procfs.run acts = some s)
    (h : NeverOverlap acts) {r : ReadEvent} (hr : r ∈ s.reads) (hfirst : r.session.reads = 0) :
    ∃ t, ReadIn acts r t ∧ readReport.run r.result = some (stats t.sys.b, []) ∧
      r.session.b = t.sys.b ∧ system.Reachable t.sys := by
  obtain ⟨t, ht⟩ := (traced_run hrun).reads r hr
  have ⟨_, _, _, _, _, hopened, _⟩ := ht
  obtain ⟨hreach, hb⟩ := hopened.reachable
  have hsys := proc_sys_reachable hreach
  refine ⟨t, ht, ?_, hb, hsys⟩
  have hrecord := (orderly_run h acts s List.prefix_rfl hrun).record
  rw [hrecord.first r hr hfirst [], cstring_printStats, hb]
  exact readReport_report (reportable_reachable (loose_of_system hsys))

/-! ## One reading -/

/-- The history only grows, so whoever was delivered at one reading is so at the next. -/
theorem log_grows {s s' : Sys} {a : Act} (hs : Sound s) (hst : loose.step s a = some s') :
    ∃ evs, s'.log = s.log ++ evs := by
  rcases thread_or_call hs hst with ⟨evs, honly⟩ | hcall
  · exact ⟨evs, honly.log⟩
  · cases hcall with
    | refuse | request => exact ⟨[], (List.append_nil _).symm⟩
    | insert | start | stop => exact ⟨_, rfl⟩

/-- No floor has served fewer in `b'` than in `b`. -/
def ServedLess (b b' : Building) : Prop := ∀ i : Slot, (b.f i).serviced ≤ (b'.f i).serviced

theorem ServedLess.trans {b b' b'' : Building} (h : ServedLess b b') (h' : ServedLess b' b'') :
    ServedLess b b'' := fun i => Int.le_trans (h i) (h' i)

/-- No step takes a serviced counter back: a delivery adds one, and nothing else writes it. -/
theorem servedLess_step {s s' : Sys} {a : Act} (hs : system.Reachable s)
    (hst : system.step s a = some s') : ServedLess s.b s'.b := by
  intro i
  have hloose := loose_of_system hs
  obtain ⟨evs, hlog⟩ := log_grows (Sound.reachable hloose) (loose_step_of_system hst)
  rw [(Account.reachable hloose).serviced,
    (Account.reachable (loose_of_system (hs.step hst))).serviced, hlog, delivered_append,
    List.countP_append]
  omega

/-- The readings so far are in order, and none is ahead of the open session or of the module. -/
structure InOrder (s : ProcFs) : Prop where
  reads : s.reads.Pairwise fun r r' => ServedLess r.session.b r'.session.b
  now : ∀ r ∈ s.reads, ServedLess r.session.b s.sys.b
  session : ∀ n se, s.sessions n = some se → ServedLess se.b s.sys.b ∧
    ∀ r ∈ s.reads, ServedLess r.session.b se.b

/-- A read by the one reader adds its own session, the latest, at the end of those read before. -/
theorem InOrder.read {s : ProcFs} (h : InOrder s) {n : Nat} {se : Session} (hs : Solo s n se)
    (readP : Int) {r : ReadEvent} (hr : r.session = se) :
    InOrder { s with
      readP := readP
      sessions := update s.sessions n (some { se with reads := se.reads + 1 })
      reads := s.reads ++ [r] } := by
  obtain ⟨hnow, hbefore⟩ := h.session n se hs.here
  refine ⟨?_, fun q hq => ?_, fun m se' hse' => ?_⟩
  · refine List.pairwise_append.mpr ⟨h.reads, List.pairwise_singleton _ _, fun q hq q' hq' => ?_⟩
    rw [List.mem_singleton.mp hq', hr]
    exact hbefore q hq
  · rcases List.mem_append.mp hq with hq | hq
    · exact h.now q hq
    · rw [List.mem_singleton.mp hq, hr]
      exact hnow
  · rcases session_cases hse' with ⟨_, hnew⟩ | ⟨hm, hold⟩
    · obtain rfl := Option.some.inj hnew
      refine ⟨hnow, fun q hq => ?_⟩
      rcases List.mem_append.mp hq with hq | hq
      · exact hbefore q hq
      · rw [List.mem_singleton.mp hq, hr]
        exact fun i => Int.le_refl _
    · rw [hs.others m hm] at hold
      exact absurd hold (by simp)

/-- All along a schedule in which sessions never overlap, the readings come in the order in which
    they were printed. -/
theorem inOrder_run {acts : List ProcAct} (h : NeverOverlap acts) :
    ∀ pre s, pre <+: acts → procfs.run pre = some s → InOrder s := by
  refine Machine.prefix_invariant ⟨List.Pairwise.nil, fun _ h => absurd h List.not_mem_nil,
    fun _ _ h => absurd h (by simp [procfs, ProcFs.init])⟩ ?_
  intro pre a s s' hpre hrun hs hst
  have hreach : procfs.Reachable s := Machine.reachable_iff_run.mpr ⟨pre, hrun⟩
  have hsolo : ∀ {n se}, s.sessions n = some se → Solo s n se := by
    intro n se hse
    rcases (orderly_run h pre s ((List.prefix_append _ _).trans hpre) hrun).alone with
      hnone | ⟨m, se', hm⟩
    · rw [hnone n] at hse
      exact absurd hse (by simp)
    · obtain ⟨rfl, rfl⟩ := hm.unique hse
      exact hm
  cases proc_step hst with
  | sys hsys =>
    have hless := servedLess_step (proc_sys_reachable hreach) hsys
    refine ⟨hs.reads, fun r hr => (hs.now r hr).trans hless, fun n se hse => ?_⟩
    exact ⟨(hs.session n se hse).1.trans hless, (hs.session n se hse).2⟩
  | @opened n junk hnone =>
    refine ⟨hs.reads, hs.now, fun m se hse => ?_⟩
    rcases session_cases hse with ⟨_, hnew⟩ | ⟨_, hold⟩
    · obtain rfl := Option.some.inj hnew
      exact ⟨fun i => Int.le_refl _, hs.now⟩
    · exact hs.session m se hold
  | copied hn => exact hs.read (hsolo hn) 0 rfl
  | ended hn => exact hs.read (hsolo hn) 1 rfl
  | released =>
    refine ⟨hs.reads, hs.now, fun m se hse => ?_⟩
    rcases session_cases hse with ⟨_, hnew⟩ | ⟨_, hold⟩
    · exact absurd hnew (by simp)
    · exact hs.session m se hold

/-- **The serviced counts never fall.**  In every run in which each open finds the file closed, of
    two readings the later one reports, floor by floor, at least as many passengers serviced. -/
theorem serviced_never_falls {acts : List ProcAct} {s : ProcFs} (hrun : procfs.run acts = some s)
    (h : NeverOverlap acts) : s.reads.Pairwise fun r r' =>
      r.session.reads = 0 → r'.session.reads = 0 → ∃ st st',
        readReport.run r.result = some (st, []) ∧ readReport.run r'.result = some (st', []) ∧
        List.Forall₂ (fun fl fl' => fl.level = fl'.level ∧ fl.serviced ≤ fl'.serviced)
          st.floors st'.floors := by
  refine (inOrder_run h acts s List.prefix_rfl hrun).reads.imp_of_mem ?_
  intro r r' hr hr' hless hfirst hfirst'
  obtain ⟨_, _, hread, hb, _⟩ := first_read hrun h hr hfirst
  obtain ⟨_, _, hread', hb', _⟩ := first_read hrun h hr' hfirst'
  rw [← hb] at hread
  rw [← hb'] at hread'
  refine ⟨_, _, hread, hread', ?_⟩
  refine List.forall₂_map_left_iff.mpr (List.forall₂_map_right_iff.mpr (List.forall₂_same.mpr ?_))
  exact fun i _ => ⟨rfl, hless i⟩

/-- The first readings of the two sessions of `twoReadings`, before and after the delivery. -/
theorem serviced_never_falls_twoReadings : ∃ s r r' st st', procfs.run twoReadings = some s ∧
    s.reads[0]? = some r ∧ s.reads[2]? = some r' ∧
    readReport.run r.result = some (st, []) ∧ readReport.run r'.result = some (st', []) ∧
    List.Forall₂ (fun fl fl' => fl.level = fl'.level ∧ fl.serviced ≤ fl'.serviced)
      st.floors st'.floors ∧
    st.floors.map FloorStats.serviced = [0, 0, 0, 0, 0, 0, 0, 0, 0, 0] ∧
    st'.floors.map FloorStats.serviced = [0, 0, 0, 0, 0, 0, 0, 0, 0, 1] := by
  have hrun := Machine.run_get (M := procfs) twoReadings (by rfl)
  have hlen : ((procfs.run twoReadings).get (by rfl)).reads.length = 4 := by rfl
  have hfirst : 0 < ((procfs.run twoReadings).get (by rfl)).reads.length := by omega
  have hthird : 2 < ((procfs.run twoReadings).get (by rfl)).reads.length := by omega
  obtain ⟨st, st', hread, hread', hless⟩ := List.pairwise_iff_getElem.mp
    (serviced_never_falls hrun neverOverlap_twoReadings) 0 2 hfirst hthird (by decide) (by rfl)
      (by rfl)
  refine ⟨_, _, _, st, st', hrun, List.getElem?_eq_getElem hfirst, List.getElem?_eq_getElem hthird,
    hread, hread', hless, ?_, ?_⟩
  · obtain ⟨_, _, hsaid, hb, _⟩ :=
      first_read hrun neverOverlap_twoReadings (List.getElem_mem hfirst) (by rfl)
    rw [hread, ← hb] at hsaid
    rw [(Prod.mk.inj (Option.some.inj hsaid)).1]
    rfl
  · obtain ⟨_, _, hsaid, hb, _⟩ :=
      first_read hrun neverOverlap_twoReadings (List.getElem_mem hthird) (by rfl)
    rw [hread', ← hb] at hsaid
    rw [(Prod.mk.inj (Option.some.inj hsaid)).1]
    rfl

end KernelModules.Part3
