/-
  Requests against stops: `issue_request` tests `e.shutdown` before it takes the lock.

  Between the test and `addPass` stand an allocation and a wait for the mutex, and a
  `stop_elevator` can come in there.  `start_elevator` and `stop_elevator` test under the lock, so
  for them no such gap exists.  The requests in the gap are the model's `inflight`.

  `stopInForce` reads from the history whether a stop is in force, and agrees with `e.shutdown` in
  every reachable state (`shutdown_eq_stopInForce`).  If every successful stop of a run finds no
  request in the gap, then nobody is queued while a stop is in force; and a stop that finds one is
  always followed, on some continuation, by a passenger queued behind it.
-/
import KernelModules.Part3.Ledger

namespace KernelModules.Part3

open Relation KernelModules.Lib

/-! ## Reading the history -/

/-- The events the system calls record. -/
def Event.isCall : Event → Bool
  | .accepted _ | .started | .stopped => true
  | _ => false

/-- Is a stop in force at the end of this history? -/
def stopInForce (log : List Event) : Bool :=
  log.foldl (fun shut ev => match ev with | .stopped => true | .started => false | _ => shut) false

/-- The last event decides, if it is a start or a stop; any other leaves what was in force before
    it. -/
theorem stopInForce_concat (log : List Event) (ev : Event) :
    stopInForce (log ++ [ev])
      = match ev with | .stopped => true | .started => false | _ => stopInForce log := by
  rw [stopInForce, List.foldl_append]
  rfl

/-- Only calls change whether a stop is in force; whatever the thread records in between does
    not. -/
theorem stopInForce_append {log evs : List Event} (h : ∀ ev ∈ evs, ev.isCall = false) :
    stopInForce (log ++ evs) = stopInForce log := by
  induction evs using List.reverseRecOn with
  | nil => rw [List.append_nil]
  | append_singleton evs ev ih =>
    have hev := h ev (List.mem_append_right _ (List.mem_singleton.mpr rfl))
    rw [← List.append_assoc, stopInForce_concat,
      ih fun e he => h e (List.mem_append_left _ he)]
    cases ev with
    | accepted => exact absurd hev (by simp [Event.isCall])
    | started => exact absurd hev (by simp [Event.isCall])
    | stopped => exact absurd hev (by simp [Event.isCall])
    | _ => rfl

/-- A history without calls has accepted nobody: an acceptance is what a call records. -/
theorem accepted_eq_nil {evs : List Event} (h : ∀ ev ∈ evs, ev.isCall = false) :
    accepted evs = [] := by
  rw [accepted, List.filterMap_eq_nil_iff]
  intro ev hev
  have := h ev hev
  cases ev with
  | accepted => exact absurd this (by simp [Event.isCall])
  | _ => rfl

/-! ## The thread leaves the calls alone -/

/-- What the thread does is invisible to the calls: it records events of its own, and touches
    neither `e.shutdown` nor the requests in the gap. -/
structure ThreadOnly (s s' : Sys) (evs : List Event) : Prop where
  log : s'.log = s.log ++ evs
  quiet : ∀ ev ∈ evs, ev.isCall = false
  shutdown : s'.b.e.shutdown = s.b.e.shutdown
  inflight : s'.inflight = s.inflight

theorem ThreadOnly.refl {s s' : Sys} (hlog : s'.log = s.log)
    (hsd : s'.b.e.shutdown = s.b.e.shutdown) (hf : s'.inflight = s.inflight) :
    ThreadOnly s s' [] :=
  ⟨by rw [List.append_nil]; exact hlog, fun ev hev => absurd hev List.not_mem_nil, hsd, hf⟩

theorem ThreadOnly.single {s s' : Sys} {ev : Event} (hlog : s'.log = s.log ++ [ev])
    (hev : ev.isCall = false) (hsd : s'.b.e.shutdown = s.b.e.shutdown)
    (hf : s'.inflight = s.inflight) : ThreadOnly s s' [ev] :=
  ⟨hlog, fun e he => by rw [List.mem_singleton.mp he]; exact hev, hsd, hf⟩

/-- A turn of the load phase is the thread's affair: boarding and delivery are no calls, and
    neither of them looks at the gap. -/
theorem LoadStep.threadOnly {s s' : Sys} (hst : LoadStep s s') : ∃ evs, ThreadOnly s s' evs := by
  cases hst with
  | enter => exact ⟨_, .refl rfl rfl rfl⟩
  | close => exact ⟨_, .refl rfl rfl rfl⟩
  | deliver => exact ⟨_, .single rfl rfl rfl rfl⟩
  | board => exact ⟨_, .single rfl rfl rfl rfl⟩

/-- The events of a whole load phase are those of its turns, one after the other, and none of them
    is a call's. -/
theorem LoadStep.threadOnly_chain {s s' : Sys} (hst : ReflTransGen LoadStep s s') :
    ∃ evs, ThreadOnly s s' evs := by
  induction hst with
  | refl => exact ⟨_, .refl rfl rfl rfl⟩
  | tail _ hstep ih =>
    obtain ⟨evs, h⟩ := ih
    obtain ⟨evs', h'⟩ := hstep.threadOnly
    refine ⟨evs ++ evs', ?_, ?_, h'.shutdown.trans h.shutdown, h'.inflight.trans h.inflight⟩
    · rw [h'.log, h.log, List.append_assoc]
    · intro ev hev
      rcases List.mem_append.mp hev with hev | hev
      · exact h.quiet ev hev
      · exact h'.quiet ev hev

/-- A move phase is the thread's affair as well, although it reads `e.shutdown` to go offline. -/
theorem MoveStep.threadOnly {s s' : Sys} (hst : MoveStep s s') : ∃ evs, ThreadOnly s s' evs := by
  cases hst with
  | rest => exact ⟨_, .refl rfl rfl rfl⟩
  | idle => exact ⟨_, .single rfl rfl rfl rfl⟩
  | goOffline => exact ⟨_, .single rfl rfl rfl rfl⟩
  | advance => exact ⟨_, .single rfl rfl (moveCabin_shutdown _) rfl⟩

/-- One step of the machine is the thread's or a call's.  The thread's leave the gap and
    `e.shutdown` alone, so only the calls have to be looked at. -/
theorem thread_or_call {s s' : Sys} {a : Act} (hs : Sound s) (h : loose.step s a = some s') :
    (∃ evs, ThreadOnly s s' evs) ∨ CallStep s a s' := by
  rcases step_cases hs h with ⟨_, hst⟩ | ⟨_, hst⟩ | hst
  · exact Or.inl (LoadStep.threadOnly_chain hst)
  · exact Or.inl hst.threadOnly
  · exact Or.inr hst

/-- A request that passes the tests found no stop in force, at the time of the tests. -/
theorem shutdown_of_not_refused {e : Elevator} {pType sFloor dFloor : Int}
    (h : refuses e pType sFloor dFloor = false) : e.shutdown = 0 := by
  simp only [refuses, Bool.or_eq_false_iff] at h
  simpa using h.2

/-- **`e.shutdown` is what the history says**, after every run: a start clears the flag and a stop
    sets it, and nothing else writes it. -/
theorem shutdown_eq_stopInForce {s : Sys} (h : loose.Reachable s) :
    s.b.e.shutdown = if stopInForce s.log then 1 else 0 := by
  refine Machine.Reachable.induct (M := loose)
    (P := fun s => s.b.e.shutdown = if stopInForce s.log then 1 else 0) rfl ?_ h
  intro s a s' hr hp hst
  rcases thread_or_call (Sound.reachable hr) hst with ⟨evs, ht⟩ | hcall
  · rw [ht.shutdown, ht.log, stopInForce_append ht.quiet]
    exact hp
  · cases hcall with
    | refuse => exact hp
    | request => exact hp
    | insert => rw [Sys.record_log, stopInForce_concat]; exact hp
    | start => rw [Sys.record_log, stopInForce_concat]; rfl
    | stop => rw [Sys.record_log, stopInForce_concat]; rfl

/-! ## Runs whose stops find the gap empty -/

/-- Every successful stop of the schedule finds no request between its two halves. -/
def EmptyGapStops (acts : List Act) : Prop :=
  ∀ pre t, pre ++ [Act.stop] <+: acts → system.run pre = some t → t.b.e.shutdown = 0 →
    t.inflight = []

/-- Nobody was queued while a stop was in force. -/
def NoneAfterStop (log : List Event) : Prop :=
  ∀ pre p, pre ++ [.accepted p] <+: log → stopInForce pre = false

/-- One event more: it is enough that no passenger is accepted while a stop is in force.  What came
    before is a shorter history. -/
theorem NoneAfterStop.concat {log : List Event} {ev : Event} (h : NoneAfterStop log)
    (hev : ∀ p, ev = .accepted p → stopInForce log = false) : NoneAfterStop (log ++ [ev]) := by
  intro pre p hpre
  rcases List.prefix_concat_iff.mp hpre with heq | hpre
  · obtain ⟨rfl, hlast⟩ := List.append_inj' heq rfl
    exact hev p (List.cons.inj hlast).1.symm
  · exact h pre p hpre

theorem NoneAfterStop.append {log evs : List Event} (h : NoneAfterStop log)
    (hev : ∀ ev ∈ evs, ev.isCall = false) : NoneAfterStop (log ++ evs) := by
  induction evs using List.reverseRecOn with
  | nil => rwa [List.append_nil]
  | append_singleton evs ev ih =>
    have hlast := hev ev (List.mem_append_right _ (List.mem_singleton.mpr rfl))
    rw [← List.append_assoc]
    refine (ih fun e he => hev e (List.mem_append_left _ he)).concat ?_
    rintro p rfl
    exact absurd hlast (by simp [Event.isCall])

/-- The invariant of such runs: while a stop is in force the gap is empty. -/
structure Fenced (s : Sys) : Prop where
  gap : s.b.e.shutdown ≠ 0 → s.inflight = []
  log : NoneAfterStop s.log

theorem Fenced.init : Fenced Sys.init where
  gap h := absurd rfl h
  log pre p hpre := by
    have := hpre.length_le
    simp [Sys.init] at this

/-- **One step.**  A stop that finds the gap empty fences it, a start takes the fence away, and
    while it stands a request does not get into the gap. -/
theorem Fenced.step {s s' : Sys} {a : Act} (hr : loose.Reachable s) (h : Fenced s)
    (hst : loose.step s a = some s')
    (hstop : a = .stop → s.b.e.shutdown = 0 → s.inflight = []) : Fenced s' := by
  rcases thread_or_call (Sound.reachable hr) hst with ⟨evs, ht⟩ | hcall
  · constructor
    · rw [ht.shutdown, ht.inflight]
      exact h.gap
    · rw [ht.log]
      exact h.log.append ht.quiet
  · cases hcall with
    | refuse => exact h
    | request href =>
      refine ⟨fun hsd => ?_, h.log⟩
      exact absurd (shutdown_of_not_refused href) hsd
    | @insert i p hin hp hi =>
      -- somebody is in the gap, so no stop is in force
      have hopen : s.b.e.shutdown = 0 := by
        by_contra hsd
        rw [h.gap hsd] at hin
        exact absurd hin List.not_mem_nil
      refine ⟨fun hsd => absurd hopen hsd, h.log.concat fun _ _ => ?_⟩
      have hforce := shutdown_eq_stopInForce hr
      rw [hopen] at hforce
      cases hb : stopInForce s.log with
      | false => rfl
      | true =>
        rw [hb] at hforce
        exact absurd hforce (by decide)
    | start hoff =>
      exact ⟨fun hsd => absurd rfl hsd, h.log.concat (by simp)⟩
    | stop hsd =>
      exact ⟨fun _ => hstop rfl hsd, h.log.concat (by simp)⟩

/-- All along a schedule whose successful stops find the gap empty, the gap stays fenced. -/
theorem fenced_of_emptyGapStops {acts : List Act} (hgap : EmptyGapStops acts) :
    ∀ pre t, pre <+: acts → system.run pre = some t → Fenced t := by
  refine Machine.prefix_invariant (M := system) Fenced.init ?_
  intro pre a s s' hpre hrun hfenced hst
  have hr := Machine.reachable_iff_run.mpr ⟨pre, loose_run_of_system hrun⟩
  refine hfenced.step hr (loose_step_of_system hst) ?_
  rintro rfl
  exact hgap pre s hpre hrun

/-! ## What can follow a stop -/

/-- On no continuation is anybody queued before the next start. -/
def StopHolds (s : Sys) : Prop :=
  ∀ more t, system.runFrom s more = some t → ∀ evs, t.log = s.log ++ evs → Event.started ∉ evs →
    accepted evs = []

/-- With the gap empty, a stop in force stays in force until the next start, and nobody gets into
    the gap meanwhile. -/
theorem gap_stays_empty {s : Sys} (hr : system.Reachable s) (hsd : s.b.e.shutdown = 1)
    (hgap : s.inflight = []) : ∀ more t, system.runFrom s more = some t →
      ∃ evs, t.log = s.log ++ evs ∧ (Event.started ∉ evs →
        t.b.e.shutdown = 1 ∧ t.inflight = [] ∧ accepted evs = []) := by
  intro more
  induction more using List.reverseRecOn with
  | nil =>
    intro t ht
    have ht' : s = t := Option.some.inj ht
    subst ht'
    exact ⟨[], (List.append_nil _).symm, fun _ => ⟨hsd, hgap, rfl⟩⟩
  | append_singleton more a ih =>
    intro t ht
    rw [Machine.runFrom_append, Option.bind_eq_some_iff] at ht
    obtain ⟨u, hu, hlast⟩ := ht
    obtain ⟨v, hst, hv⟩ := Option.bind_eq_some_iff.mp hlast
    obtain rfl : v = t := Option.some.inj hv
    obtain ⟨evs, hlog, hkeep⟩ := ih u hu
    have hsound := Sound.reachable (loose_of_system (hr.runFrom hu))
    rcases thread_or_call hsound (loose_step_of_system hst) with ⟨evs', ht⟩ | hcall
    · refine ⟨evs ++ evs', by rw [ht.log, hlog, List.append_assoc], fun hno => ?_⟩
      obtain ⟨hsd', hgap', hacc⟩ := hkeep fun h => hno (List.mem_append_left _ h)
      refine ⟨ht.shutdown.trans hsd', ht.inflight.trans hgap', ?_⟩
      rw [accepted_append, hacc, accepted_eq_nil ht.quiet]
      rfl
    · cases hcall with
      | refuse => exact ⟨evs, hlog, hkeep⟩
      | request href =>
        refine ⟨evs, hlog, fun hno => ?_⟩
        obtain ⟨hsd', _⟩ := hkeep hno
        have := shutdown_of_not_refused href
        omega
      | @insert i p hin hp hi =>
        refine ⟨evs ++ [.accepted p], by rw [Sys.record_log, hlog, List.append_assoc],
          fun hno => ?_⟩
        obtain ⟨_, hgap', _⟩ := hkeep fun h => hno (List.mem_append_left _ h)
        rw [hgap'] at hin
        exact absurd hin List.not_mem_nil
      | start =>
        refine ⟨evs ++ [.started], by rw [Sys.record_log, Sys.setE_log, hlog, List.append_assoc],
          fun hno => ?_⟩
        exact absurd (List.mem_append_right _ (List.mem_singleton.mpr rfl)) hno
      | stop hopen =>
        refine ⟨evs ++ [.stopped], by rw [Sys.record_log, Sys.setE_log, hlog, List.append_assoc],
          fun hno => ?_⟩
        obtain ⟨hsd', _⟩ := hkeep fun h => hno (List.mem_append_left _ h)
        omega

/-- A stop in force holds exactly when the gap is empty: whoever is in it is queued next, by a
    continuation that inserts them at once. -/
theorem stopHolds_iff {s : Sys} (hr : system.Reachable s) (hsd : s.b.e.shutdown = 1) :
    StopHolds s ↔ s.inflight = [] := by
  constructor
  · intro hholds
    by_contra hsome
    obtain ⟨p, ps, hp⟩ := List.exists_cons_of_ne_nil hsome
    have hin : p ∈ s.inflight := by rw [hp]; exact List.mem_cons_self
    have hvalid := (Sound.reachable (loose_of_system hr)).census.valid p
      (List.mem_append_right _ hin)
    obtain ⟨i, hi⟩ := hvalid.src
    -- the request in the gap takes the lock next
    have hstep : system.runFrom s [.insert p]
        = some (({ s with
            b := s.b.queued i p
            inflight := s.inflight.erase p } : Sys).record (.accepted p)) := by
      have hg : system.guard s (.insert p) = true := decide_eq_true hin
      have he : system.exec s (.insert p) = some (({ s with
            b := s.b.queued i p
            inflight := s.inflight.erase p } : Sys).record (.accepted p)) := by
        show enqueue p _ = _
        rw [enqueue, addPass_spec _ hvalid hi]
        rfl
      rw [Machine.runFrom, Machine.step_eq_some.mpr ⟨hg, he⟩]
      rfl
    have hacc := hholds _ _ hstep [.accepted p] rfl (by simp)
    exact absurd hacc (by simp [accepted])
  · intro hgap more t ht evs hlog hno
    obtain ⟨evs', hlog', hkeep⟩ := gap_stays_empty hr hsd hgap more t ht
    obtain rfl : evs = evs' := List.append_cancel_left (hlog.symm.trans hlog')
    exact (hkeep hno).2.2

/-! ## No request behind a stop -/

/-- **Requests and stops.**  In every run whose successful stops all find no request between its
    unlocked test and its locked insertion, nobody is ever queued while a stop is in force.  And
    the condition is exact at each stop: after a successful `stop_elevator` nobody is queued
    before the next start on any continuation precisely if the stop found no request there. -/
theorem no_request_behind_stop {acts : List Act} {s : Sys} (h : system.run acts = some s) :
    (EmptyGapStops acts → NoneAfterStop s.log) ∧
    (s.b.e.shutdown = 0 → (StopHolds (stopElevator .ok s).2 ↔ s.inflight = [])) := by
  have hr := Machine.reachable_iff_run.mpr ⟨acts, h⟩
  refine ⟨fun hgap => (fenced_of_emptyGapStops hgap acts s (List.prefix_refl _) h).log,
    fun hsd => ?_⟩
  have hstep : system.step s .stop = some (stopElevator .ok s).2 := rfl
  have hstopped : stopElevator .ok s
      = (0, (s.setE { s.b.e with shutdown := 1 }).record .stopped) := by
    rw [stopElevator, if_pos (by rfl), if_neg (not_not.mpr hsd)]
  have hiff := stopHolds_iff (hr.step hstep) (by rw [hstopped]; rfl)
  rw [hstopped] at hiff ⊢
  exact hiff

/-- The theorem applied to a run with seven requests, whose one stop comes when all of them have
    been queued. -/
theorem no_request_behind_stop_sevenBells :
    ∃ s, system.run sevenBells = some s ∧ NoneAfterStop s.log ∧
      StopHolds (stopElevator .ok s).2 := by
  have hrun := Machine.run_get (M := system) sevenBells (by decide)
  obtain ⟨hnone, hholds⟩ := no_request_behind_stop hrun
  refine ⟨_, hrun, hnone ?_, (hholds (by decide)).mpr (by decide)⟩
  intro pre s hpre hs _
  -- the one stop comes after eighteen other actions
  obtain ⟨htake, hget⟩ := Machine.position hpre
  have hwhere : ∀ k < 22, sevenBells[k]? = some .stop → k = 18 := by decide
  have hlt : pre.length < 22 := (List.getElem?_eq_some_iff.mp hget).1
  rw [htake, hwhere _ hlt hget] at hs
  have hgap : (system.run (sevenBells.take 18)).map Sys.inflight = some [] := by decide
  rw [hs] at hgap
  exact Option.some.inj hgap

/-- A request passes the tests, a stop comes in, and the request is queued behind it. -/
def overtaken : List Act := [.start, .request 1 1 2, .stop, .insert ⟨0, .adult, 0, 1⟩]

/-- **The race.**  A request that has passed its tests when the stop comes is queued behind it. -/
theorem request_queued_behind_stop :
    ¬ ∀ acts s, system.run acts = some s → NoneAfterStop s.log := by
  intro hall
  have h := hall overtaken _ (Machine.run_get (M := system) overtaken (by decide))
  have hforce := h [.started, .stopped] ⟨0, .adult, 0, 1⟩ (by decide)
  exact absurd hforce (by decide)

end KernelModules.Part3
