/-
  `/proc/timed` over whole runs: elapsed time is measured from the previous report.

  Any number of readers open, read and release, one call at a time and in any order, while the
  kernel's clock goes on.  The three functions never look at the file they are called on, so a
  schedule does not say whose call it is.  A read runs only while `message` is allocated.

  1. **Machine** — `timed`; the reads that produce data append to `reports`.
  2. **Invariant** — `Measured`: between two calls `prev_t` is the time of the last report, and
     `called` says whether there is one, whatever the opens and the toggled `read_p` did in the
     meantime.  The history that results is `History`: the first report has no second line, every
     other one has the difference to its predecessor on it.
  3. **Result** — `elapsed_since_previous`; the differences add up, so that no time is lost or
     counted twice between any two reports.
-/
import Mathlib.Algebra.BigOperators.Group.List.Basic
import KernelModules.Lib.Machine
import KernelModules.Part2.MyXtime

namespace KernelModules.Part2

open KernelModules.Lib

/-! ## The machine -/

/-- What happens next. -/
inductive TimedAct
  /-- The kernel's clock is now `t`. -/
  | tick (t : Timespec)
  | procOpen (junk : Option Block)
  | procRead
  | procRelease

/-- Is `message` allocated? -/
def Timed.Allocated (s : Timed) : Bool :=
  match s.message with
  | none => false
  | some id => decide (id ∉ s.freed)

variable (timespecSub : Timespec → Timespec → Timespec)

/-- The steps. -/
def timedExec (s : Timed) : TimedAct → Option Timed
  | .tick t => some { s with clock := t }
  | .procOpen junk => some (myxtimeProcOpen s junk).1
  | .procRead => (myxtimeProcRead timespecSub s).map Prod.fst
  | .procRelease => some (myxtimeProcRelease s)

/-- Any order of the calls; the clock is normalised and does not go back. -/
def timed : Machine Timed TimedAct where
  init := .init
  guard := fun s a => match a with
    | .tick t => decide (t.IsTime) && decide (s.clock.ns ≤ t.ns)
    | .procRead => s.Allocated
    | _ => true
  exec := timedExec timespecSub

/-! ## What one step can do -/

/-- The report a read would make now. -/
def Timed.due (s : Timed) : Report :=
  ⟨s.clock, s.elapsed timespecSub, reportText s.clock (s.elapsed timespecSub)⟩

inductive TimedStep (s s' : Timed) : Prop
  /-- The clock may go on; nothing is reported. -/
  | quiet : s'.reports = s.reports → s'.prevT = s.prevT → s'.called = s.called →
      (s'.clock = s.clock ∨ s'.clock.IsTime ∧ s.clock.ns ≤ s'.clock.ns) → TimedStep s s'
  /-- A read produces data. -/
  | report : s'.reports = s.reports ++ [s.due timespecSub] → s'.prevT = s.clock →
      s'.called ≠ 0 → s'.clock = s.clock → TimedStep s s'

/-- A read either ends the file or makes the report that is due, in a buffer that is there.  Which
    of the two it is depends on the flag that the read before it has left. -/
theorem read_cases {s : Timed} {r : Timed × Nat} (h : myxtimeProcRead timespecSub s = some r) :
    (s.readP = 0 ∧ r = ({ s with readP := 1 }, 0)) ∨
    (s.readP ≠ 0 ∧ ∃ id buf, s.message = some id ∧ s.heap[id]? = some buf) := by
  by_cases hread : s.readP = 0
  · rw [read_end timespecSub hread] at h
    exact Or.inl ⟨hread, (Option.some.inj h).symm⟩
  · refine Or.inr ⟨hread, ?_⟩
    simp only [myxtimeProcRead, hread, if_false] at h
    obtain ⟨id, hid, h⟩ := Option.bind_eq_some_iff.mp h
    obtain ⟨buf, hbuf, _⟩ := Option.bind_eq_some_iff.mp h
    exact ⟨id, buf, hid, hbuf⟩

/-- What one step can do: a session is opened, the clock goes on, a report is read, or nothing
    happens that anybody could see. -/
theorem timed_step {s s' : Timed} {a : TimedAct} (h : (timed timespecSub).step s a = some s') :
    TimedStep timespecSub s s' := by
  obtain ⟨hg, he⟩ := Machine.step_eq_some.mp h
  cases a with
  | tick t =>
    obtain ⟨ht, hle⟩ := Bool.and_eq_true_iff.mp hg
    rw [← Option.some.inj he]
    exact .quiet rfl rfl rfl (Or.inr ⟨of_decide_eq_true ht, of_decide_eq_true hle⟩)
  | procOpen junk =>
    rw [← Option.some.inj he]
    cases junk with
    | none => exact .quiet rfl rfl rfl (Or.inl rfl)
    | some junk => exact .quiet rfl rfl rfl (Or.inl rfl)
  | procRead =>
    obtain ⟨r, hr, rfl⟩ := Option.map_eq_some_iff.mp he
    rcases read_cases timespecSub hr with ⟨_, rfl⟩ | ⟨hread, id, buf, hid, hbuf⟩
    · exact .quiet rfl rfl rfl (Or.inl rfl)
    · rw [read_data timespecSub hread hid hbuf rfl] at hr
      rw [← Option.some.inj hr]
      refine .report rfl rfl ?_ rfl
      show (if s.called = 0 then (1 : Int) else s.called) ≠ 0
      split
      · decide
      · assumption
  | procRelease =>
    rw [← Option.some.inj he]
    exact .quiet rfl rfl rfl (Or.inl rfl)

/-! ## The history -/

/-- The reports so far, in order. -/
structure History (rs : List Report) : Prop where
  time : ∀ r ∈ rs, r.time.IsTime
  text : ∀ r ∈ rs, r.text = reportText r.time r.elapsed
  sorted : rs.Pairwise fun q r => q.time.ns ≤ r.time.ns
  first : ∀ r, [r] <+: rs → r.elapsed = none
  next : ∀ q r, [q, r] <:+: rs →
    ∃ d, r.elapsed = some d ∧ d.Normal ∧ d.ns = r.time.ns - q.time.ns

theorem History.nil : History [] where
  time _ h := absurd h List.not_mem_nil
  text _ h := absurd h List.not_mem_nil
  sorted := List.Pairwise.nil
  first _ h := absurd (List.prefix_nil.mp h) (List.cons_ne_nil _ _)
  next _ _ h := absurd (List.infix_nil.mp h) (List.cons_ne_nil _ _)

/-- The very first report has no elapsed time, and no report before it to be compared with. -/
theorem History.single {r : Report} (htime : r.time.IsTime)
    (htext : r.text = reportText r.time r.elapsed) (hnone : r.elapsed = none) : History [r] where
  time r' h := by
    rw [List.mem_singleton.mp h]
    exact htime
  text r' h := by
    rw [List.mem_singleton.mp h]
    exact htext
  sorted := List.pairwise_singleton _ _
  first r' h := by
    rw [(List.cons_prefix_cons.mp h).1]
    exact hnone
  next q r' h := absurd h.length_le (by simp)

/-- One more report, after `q`.  Its elapsed time is that since `q`, and the other pairs of
    neighbours are as they were. -/
theorem History.concat {rs : List Report} {q r : Report} (h : History (rs ++ [q]))
    (htime : r.time.IsTime) (htext : r.text = reportText r.time r.elapsed)
    (hle : q.time.ns ≤ r.time.ns)
    (hnext : ∃ d, r.elapsed = some d ∧ d.Normal ∧ d.ns = r.time.ns - q.time.ns) :
    History (rs ++ [q] ++ [r]) where
  time := List.forall_mem_append.mpr ⟨h.time, List.forall_mem_singleton.mpr htime⟩
  text := List.forall_mem_append.mpr ⟨h.text, List.forall_mem_singleton.mpr htext⟩
  sorted := by
    refine List.pairwise_append.mpr ⟨h.sorted, List.pairwise_singleton _ _, ?_⟩
    intro p hp r' hr'
    rw [List.mem_singleton.mp hr']
    rcases List.mem_append.mp hp with hp | hp
    · exact ((List.pairwise_append.mp h.sorted).2.2 p hp q (List.mem_singleton.mpr rfl)).trans hle
    · rw [List.mem_singleton.mp hp]
      exact hle
  first r' hpre := by
    rcases List.prefix_concat_iff.mp hpre with heq | hpre
    · exact absurd (congrArg List.length heq) (by simp)
    · exact h.first r' hpre
  next p r' hin := by
    rcases List.infix_concat_iff.mp hin with hend | hin
    · -- the new report is the second of the two
      obtain ⟨front, hfront⟩ := hend
      have hsplit : front ++ [p] ++ [r'] = rs ++ [q] ++ [r] := by
        rw [List.append_assoc]
        exact hfront
      obtain ⟨hinit, hlast⟩ := List.append_inj' hsplit rfl
      obtain ⟨_, hlast'⟩ := List.append_inj' hinit rfl
      rw [(List.cons.inj hlast).1, (List.cons.inj hlast').1]
      exact hnext
    · exact h.next p r' hin

/-- The differences between the first report of a history and any later one add up to the time
    between the two. -/
theorem History.sum_elapsed {rs : List Report} (h : History rs) :
    ∀ pre q r, pre <+: rs → pre.head? = some q → pre.getLast? = some r →
      ((pre.filterMap Report.elapsed).map Timespec.ns).sum = r.time.ns - q.time.ns := by
  intro pre
  induction pre using List.reverseRecOn with
  | nil =>
    intro q r _ hq
    exact absurd hq (by simp)
  | append_singleton pre p ih =>
    intro q r hpre hq hr
    obtain rfl : p = r := by simpa using hr
    rcases List.eq_nil_or_concat' pre with rfl | ⟨init, l, rfl⟩
    · -- the first report alone
      obtain rfl : p = q := by simpa using hq
      rw [List.nil_append, List.filterMap_cons_none (h.first p hpre)]
      simp
    · have hpre' : init ++ [l] <+: rs := (List.prefix_append _ _).trans hpre
      have hpair : [l, p] <:+: rs := by
        have hsuffix : [l, p] <:+ init ++ [l] ++ [p] := ⟨init, by simp⟩
        exact hsuffix.isInfix.trans hpre.isInfix
      obtain ⟨d, hd, _, hns⟩ := h.next l p hpair
      have hhead : (init ++ [l]).head? = some q := by
        rw [List.head?_append_of_ne_nil _ (by simp)] at hq
        exact hq
      have hsum := ih q l hpre' hhead (by simp)
      rw [List.filterMap_append, List.map_append, List.sum_append, hsum]
      rw [List.filterMap_cons_some hd, List.filterMap_nil, List.map_cons, List.map_nil,
        List.sum_singleton, hns]
      omega

/-! ## The invariant -/

/-- Between two calls: `prev_t` is the time of the last report, if there is one, and `called` says
    whether there is. -/
structure Measured (s : Timed) : Prop where
  history : History s.reports
  clock : s.clock.IsTime
  fresh : s.reports = [] → s.called = 0
  last : ∀ rs r, s.reports = rs ++ [r] →
    s.called ≠ 0 ∧ s.prevT = r.time ∧ r.time.ns ≤ s.clock.ns

theorem Measured.init : Measured Timed.init where
  history := History.nil
  clock := by decide
  fresh _ := rfl
  last rs r h := absurd h.symm (by simp [Timed.init])

variable {timespecSub}

/-- **One step.**  A new report is of the time on the clock, and of what has passed since the report
    before it; the clock never goes back. -/
theorem TimedStep.measured (hsub : Subtracts timespecSub) {s s' : Timed} (h : Measured s)
    (hst : TimedStep timespecSub s s') : Measured s' := by
  cases hst with
  | quiet hreports hprev hcalled hclock =>
    have hlater : s'.clock.IsTime ∧ s.clock.ns ≤ s'.clock.ns := by
      rcases hclock with heq | hlater
      · rw [heq]
        exact ⟨h.clock, Int.le_refl _⟩
      · exact hlater
    constructor
    · rw [hreports]
      exact h.history
    · exact hlater.1
    · rw [hreports, hcalled]
      exact h.fresh
    · intro rs r hr
      rw [hreports] at hr
      obtain ⟨hne, hlast, hle⟩ := h.last rs r hr
      rw [hcalled, hprev]
      exact ⟨hne, hlast, hle.trans hlater.2⟩
  | report hreports hprev hcalled hclock =>
    constructor
    · rw [hreports]
      rcases List.eq_nil_or_concat' s.reports with hnil | ⟨rs, q, hq⟩
      · rw [hnil]
        refine History.single h.clock rfl ?_
        show s.elapsed timespecSub = none
        rw [Timed.elapsed, if_neg (not_not.mpr (h.fresh hnil))]
      · -- the difference is taken from the time of the last report
        obtain ⟨hne, hlast, hle⟩ := h.last rs q hq
        have hhist := h.history
        rw [hq] at hhist ⊢
        refine hhist.concat h.clock rfl hle ⟨timespecSub s.clock q.time, ?_, ?_⟩
        · show s.elapsed timespecSub = _
          rw [Timed.elapsed, if_pos hne, hlast]
        · exact hsub _ _ h.clock (hhist.time q (by simp)) hle
    · rw [hclock]
      exact h.clock
    · intro hnil
      rw [hreports] at hnil
      exact absurd hnil (by simp)
    · intro rs r hr
      rw [hreports] at hr
      obtain ⟨_, hlast⟩ := List.append_inj' hr rfl
      rw [← (List.cons.inj hlast).1, hclock]
      exact ⟨hcalled, hprev, Int.le_refl _⟩

/-- The reports are right after every run, whatever subtraction the kernel uses. -/
theorem Measured.reachable (hsub : Subtracts timespecSub) {s : Timed}
    (h : (timed timespecSub).Reachable s) : Measured s := by
  refine Machine.Reachable.induct (M := timed timespecSub) Measured.init ?_ h
  intro s a s' _ hs hst
  exact (timed_step timespecSub hst).measured hsub hs

/-- `message` is a buffer that was allocated: the pointer is set by an open, to the block that
    open has allocated. -/
theorem message_lt {s : Timed} (h : (timed timespecSub).Reachable s) :
    ∀ id, s.message = some id → id < s.heap.length := by
  refine Machine.Reachable.induct (M := timed timespecSub)
    (P := fun s => ∀ id, s.message = some id → id < s.heap.length) ?_ ?_ h
  · intro id hid
    exact absurd hid (by simp [timed, Timed.init])
  · intro s a s' _ hs hst
    have he := (Machine.step_eq_some.mp hst).2
    cases a with
    | tick t =>
      rw [← Option.some.inj he]
      exact hs
    | procOpen junk =>
      rw [← Option.some.inj he]
      intro id hid
      cases junk with
      | none => exact absurd hid (by simp [myxtimeProcOpen])
      | some junk =>
        rw [← Option.some.inj hid]
        simp [myxtimeProcOpen]
    | procRead =>
      obtain ⟨r, hr, rfl⟩ := Option.map_eq_some_iff.mp he
      rcases read_cases timespecSub hr with ⟨_, rfl⟩ | ⟨hread, id, buf, hid, hbuf⟩
      · exact hs
      · rw [read_data timespecSub hread hid hbuf rfl] at hr
        rw [← Option.some.inj hr]
        intro id' hid'
        rw [List.length_set]
        exact hs id' hid'
    | procRelease =>
      rw [← Option.some.inj he]
      exact hs

/-- Every call returns: a read that has something to print finds a buffer to print it to. -/
theorem timed_returns {s : Timed} (h : (timed timespecSub).Reachable s) {a : TimedAct}
    (hg : (timed timespecSub).guard s a = true) : (timedExec timespecSub s a).isSome := by
  cases a with
  | tick t => rfl
  | procOpen junk => rfl
  | procRelease => rfl
  | procRead =>
    rw [timedExec, Option.isSome_map]
    by_cases hread : s.readP = 0
    · rw [read_end timespecSub hread]
      rfl
    · cases hid : s.message with
      | none =>
        have hnot : s.Allocated = false := by rw [Timed.Allocated, hid]
        exact absurd hg (by simp [timed, hnot])
      | some id =>
        have hbuf := List.getElem?_eq_getElem (message_lt h id hid)
        rw [read_data timespecSub hread hid hbuf rfl]
        rfl

/-- **Elapsed time is measured from the previous report.**  In every run, the first read that
    produces data prints no second line; every other prints, on its second line, exactly the time
    since the report before it; the differences printed up to any report add up to the time since
    the first; and every call returns. -/
theorem elapsed_since_previous (hsub : Subtracts timespecSub) {acts : List TimedAct} {s : Timed}
    (hrun : (timed timespecSub).run acts = some s) :
    (∀ r, [r] <+: s.reports → r.elapsed = none ∧ r.text = currentLine r.time) ∧
    (∀ q r, [q, r] <:+: s.reports → ∃ d, r.elapsed = some d ∧
      r.text = currentLine r.time ++ elapsedLine d ∧ d.Normal ∧ d.ns = r.time.ns - q.time.ns) ∧
    (∀ pre q r, pre <+: s.reports → pre.head? = some q → pre.getLast? = some r →
      ((pre.filterMap Report.elapsed).map Timespec.ns).sum = r.time.ns - q.time.ns) ∧
    (∀ a, (timed timespecSub).guard s a = true → (timedExec timespecSub s a).isSome = true) := by
  have hreach := Machine.reachable_iff_run.mpr ⟨acts, hrun⟩
  have h := (Measured.reachable hsub hreach).history
  refine ⟨?_, ?_, h.sum_elapsed, fun a => timed_returns hreach⟩
  · intro r hr
    have hnone := h.first r hr
    refine ⟨hnone, ?_⟩
    rw [h.text r (hr.subset List.mem_cons_self), hnone]
    rfl
  · intro q r hr
    obtain ⟨d, hd, hnormal, hns⟩ := h.next q r hr
    refine ⟨d, hd, ?_, hnormal, hns⟩
    rw [h.text r (hr.subset (by simp)), hd]
    rfl

/-- A fresh buffer. -/
def zeroed : Block := ⟨List.replicate entrySize nul, List.length_replicate ..⟩

/-- Two readers, the second of whom opens the file before the first has read to its end. -/
def twoReaders : List TimedAct :=
  [.tick ⟨5, 20⟩, .procOpen (some zeroed), .procRead, .procOpen (some zeroed), .tick ⟨7, 10⟩,
    .procRead, .procRead, .procRelease]

/-- Two readers in turn: the first report has no elapsed time, and the second has that since the
    first. -/
theorem elapsed_since_previous_twoReaders :
    ∃ s, (timed borrowSub).run twoReaders = some s ∧
      s.reports.map Report.elapsed = [none, some ⟨1, 999999990⟩] ∧
      ∀ q r, [q, r] <:+: s.reports → ∃ d, r.elapsed = some d ∧
        r.text = currentLine r.time ++ elapsedLine d ∧ d.Normal ∧ d.ns = r.time.ns - q.time.ns := by
  have hrun := Machine.run_get (M := timed borrowSub) twoReaders (by decide)
  exact ⟨_, hrun, by decide, (elapsed_since_previous borrowSub_subtracts hrun).2.1⟩

end KernelModules.Part2
