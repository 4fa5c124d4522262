/-
  Do the printed times denote the measured times?

  A report prints seconds and nanoseconds as two integers with a point between them.  Read as a
  decimal number, that is the time only if the nanoseconds are printed with all nine of their
  digits, and `%lu` leaves the zeros in front away: 1 s and 5 ns print as `1.5`, and 5 ns later
  the same clock prints `1.10`.

  1. **Reading** — `readTimes` takes a report apart and reads its numbers as rationals.
  2. **Specification** — `Faithful`: the numbers are the time and the time elapsed, and a later
     report never shows a smaller time.
  3. **Result** — `printed_times_iff`: along every run this holds exactly if all nanoseconds that
     are printed, of the times and of the differences, are zero or at least `10 ^ 8`.
-/
import KernelModules.Lib.Decimals
import KernelModules.Part2.Elapsed

namespace KernelModules.Part2

open KernelModules.Lib

/-! ## Reading a report -/

/-- Read the time and, if there is a second line, the time elapsed. -/
def readTimes : Reader (ℚ × Option ℚ) := do
  lit "current time: ".toList
  let now ← decimalNumber
  lit ['\n']
  let more ← isNext "elapsed time: ".toList
  if more then
    let elapsed ← decimalNumber
    lit ['\n']
    pure (now, some elapsed)
  else pure (now, none)

namespace Timespec

/-- The time in seconds. -/
def seconds (t : Timespec) : ℚ := t.tvSec.toInt + t.tvNsec.toInt / 10 ^ 9

/-- What a line shows of the time. -/
def shown (t : Timespec) : ℚ := t.tvSec.toNat + t.tvNsec.toNat / 10 ^ (unsigned t.tvNsec).length

end Timespec

/-- The two numbers of a line, read as one; the newline after them ends the second. -/
theorem run_decimal {β : Type} {f : ℚ → Reader β} (t : Timespec) (rest : List Char) :
    (decimalNumber >>= f).run
        (unsigned t.tvSec ++ ('.' :: (unsigned t.tvNsec ++ (['\n'] ++ rest))))
      = (f t.shown).run (['\n'] ++ rest) :=
  run_next (decimalNumber_toDigits _ _ (stops_cons (by decide)))

/-- What is read off a report is what its lines show: one time, or two. -/
theorem readTimes_reportText (t : Timespec) (o : Option Timespec) :
    readTimes.run (reportText t o) = some ((t.shown, o.map Timespec.shown), []) := by
  have hline : ∀ (label : List Char) (d : Timespec) (rest : List Char),
      timeLine label d ++ rest
        = label ++ (unsigned d.tvSec ++ ('.' :: (unsigned d.tvNsec ++ (['\n'] ++ rest)))) := by
    intro label d rest
    simp [timeLine]
  cases o with
  | none =>
    have hnext : (isNext "elapsed time: ".toList).run [] = some (false, []) := rfl
    rw [reportText, currentLine_eq, ← List.append_nil (timeLine _ _), hline, readTimes, run_lit,
      run_decimal, run_lit, run_next hnext]
    rfl
  | some d =>
    rw [reportText, currentLine_eq, elapsedLine_eq, ← List.append_nil (timeLine _ d), hline, hline,
      readTimes, run_lit, run_decimal, run_lit, run_next (isNext_append _ _), if_pos rfl,
      run_decimal, run_lit]
    rfl

/-! ## When a line shows its time -/

/-- Printed without padding, these nanoseconds still have the right value. -/
def NineDigits (n : Int) : Prop := n = 0 ∨ 10 ^ 8 ≤ n

instance : DecidablePred NineDigits := fun _ => inferInstanceAs (Decidable (_ ∨ _))

/-- A line shows the right time exactly when the nanoseconds have no leading zeros to lose, or are
    none. -/
theorem shown_eq_seconds_iff {t : Timespec} (h : t.IsTime) :
    t.shown = t.seconds ↔ NineDigits t.tvNsec.toInt := by
  have hsec := toNat_of_nonneg h.2
  have hnsec := toNat_of_nonneg h.1.1
  have hlt : t.tvNsec.toNat < 10 ^ (8 + 1) := by
    have := h.1.2
    omega
  have hfraction := fraction_toDigits_eq_iff (k := 8) (by decide) hlt
  rw [Timespec.shown, Timespec.seconds, NineDigits, ← hsec, ← hnsec]
  simp only [Int.cast_natCast, add_right_inj]
  rw [unsigned, hfraction]
  omega

/-- Nanoseconds to seconds. -/
theorem seconds_eq_ns (t : Timespec) : t.seconds = t.ns / 10 ^ 9 := by
  rw [Timespec.seconds, Timespec.ns, Int.cast_add, Int.cast_mul, Int.cast_pow, Int.cast_ofNat,
    add_div, mul_div_cancel_right₀ _ (by positivity)]

theorem seconds_le_iff {a b : Timespec} : a.seconds ≤ b.seconds ↔ a.ns ≤ b.ns := by
  rw [seconds_eq_ns, seconds_eq_ns, div_le_div_iff_of_pos_right (by positivity), Int.cast_le]

/-- Of two times, the difference in seconds has the nanoseconds of the difference; it is shown
    right exactly if these have no zeros to lose. -/
theorem shown_elapsed_iff {d : Timespec} {n : Int} (hnormal : d.Normal) (hns : d.ns = n)
    (hn : 0 ≤ n) : d.shown = n / 10 ^ 9 ↔ NineDigits (n % 10 ^ 9) := by
  obtain ⟨hlo, hhi⟩ := hnormal
  have hunfold : d.ns = d.tvSec.toInt * 10 ^ 9 + d.tvNsec.toInt := rfl
  have hsec : 0 ≤ d.tvSec.toInt := by omega
  have hnsec : d.tvNsec.toInt = n % 10 ^ 9 := by omega
  have hseconds : d.seconds = n / 10 ^ 9 := by rw [seconds_eq_ns, hns]
  rw [← hseconds, shown_eq_seconds_iff ⟨⟨hlo, hhi⟩, hsec⟩, hnsec]

/-! ## Printed times over runs -/

/-- The text of the report reads as these numbers. -/
def Report.Reads (r : Report) (now : ℚ) (elapsed : Option ℚ) : Prop :=
  readTimes.run r.text = some ((now, elapsed), [])

/-- The printed times denote the measured times, and a later time never prints as a smaller
    number. -/
structure Faithful (rs : List Report) : Prop where
  first : ∀ r, [r] <+: rs → r.Reads r.time.seconds none
  next : ∀ q r, [q, r] <:+: rs →
    r.Reads r.time.seconds (some (r.time.seconds - q.time.seconds))
  later : ∀ q r, [q, r].Sublist rs → ∀ u v o p, q.Reads u o → r.Reads v p → u ≤ v

/-- No printed nanoseconds have a zero in front. -/
structure AllDigits (rs : List Report) : Prop where
  current : ∀ r ∈ rs, NineDigits r.time.tvNsec.toInt
  elapsed : ∀ q r, [q, r] <:+: rs → NineDigits ((r.time.ns - q.time.ns) % 10 ^ 9)

/-- What a report of a history reads as: the times that its lines show, right or wrong. -/
theorem History.reads_iff {rs : List Report} (h : History rs) {r : Report} (hr : r ∈ rs) {u : ℚ}
    {o : Option ℚ} : r.Reads u o ↔ r.time.shown = u ∧ r.elapsed.map Timespec.shown = o := by
  rw [Report.Reads, h.text r hr, readTimes_reportText]
  simp

/-- Every report is the first one or comes after another, and what is known of the two kinds is
    all there is to know. -/
theorem first_or_next {rs : List Report} {r : Report} (hr : r ∈ rs) :
    [r] <+: rs ∨ ∃ q, [q, r] <:+: rs := by
  obtain ⟨before, after, rfl⟩ := List.append_of_mem hr
  rcases List.eq_nil_or_concat' before with rfl | ⟨init, q, rfl⟩
  · exact Or.inl ⟨after, rfl⟩
  · exact Or.inr ⟨q, init, after, by simp⟩

/-- The elapsed line of a report is right exactly when the difference to the report before it has
    no zeros to lose. -/
theorem History.shown_next_iff {rs : List Report} (h : History rs) {q r : Report}
    (hin : [q, r] <:+: rs) : r.elapsed.map Timespec.shown = some (r.time.seconds - q.time.seconds) ↔
      NineDigits ((r.time.ns - q.time.ns) % 10 ^ 9) := by
  obtain ⟨d, hd, hnormal, hns⟩ := h.next q r hin
  have hle : q.time.ns ≤ r.time.ns := List.pairwise_iff_forall_sublist.mp h.sorted hin.sublist
  have hdiff : r.time.seconds - q.time.seconds = ((r.time.ns - q.time.ns : Int) : ℚ) / 10 ^ 9 := by
    rw [seconds_eq_ns, seconds_eq_ns, Int.cast_sub, sub_div]
  rw [hd, Option.map_some, Option.some_inj, hdiff, shown_elapsed_iff hnormal hns (by omega)]

/-- If no time and no difference has zeros to lose, every line is right ... -/
theorem History.faithful {rs : List Report} (h : History rs) (hdigits : AllDigits rs) :
    Faithful rs := by
  have hshown : ∀ r ∈ rs, r.time.shown = r.time.seconds := by
    intro r hr
    exact (shown_eq_seconds_iff (h.time r hr)).mpr (hdigits.current r hr)
  constructor
  · intro r hr
    have hmem : r ∈ rs := hr.subset List.mem_cons_self
    refine (h.reads_iff hmem).mpr ⟨hshown r hmem, ?_⟩
    rw [h.first r hr]
    rfl
  · intro q r hin
    have hmem : r ∈ rs := hin.subset (by simp)
    exact (h.reads_iff hmem).mpr
      ⟨hshown r hmem, (h.shown_next_iff hin).mpr (hdigits.elapsed q r hin)⟩
  · intro q r hsub u v o p hu hv
    have hq : q ∈ rs := hsub.subset List.mem_cons_self
    have hr : r ∈ rs := hsub.subset (by simp)
    rw [← ((h.reads_iff hq).mp hu).1, ← ((h.reads_iff hr).mp hv).1, hshown q hq, hshown r hr,
      seconds_le_iff]
    exact List.pairwise_iff_forall_sublist.mp h.sorted hsub

/-- ... and only then. -/
theorem History.allDigits {rs : List Report} (h : History rs) (hfaithful : Faithful rs) :
    AllDigits rs := by
  constructor
  · intro r hr
    rw [← shown_eq_seconds_iff (h.time r hr)]
    rcases first_or_next hr with hfirst | ⟨q, hin⟩
    · exact ((h.reads_iff hr).mp (hfaithful.first r hfirst)).1
    · exact ((h.reads_iff hr).mp (hfaithful.next q r hin)).1
  · intro q r hin
    have hr : r ∈ rs := hin.subset (by simp)
    exact (h.shown_next_iff hin).mp ((h.reads_iff hr).mp (hfaithful.next q r hin)).2

/-- **Printed times.**  Along every run, the printed times denote the measured times if and only if
    no nanoseconds, of a time or of a difference, are printed with fewer digits than they have:
    they are zero or at least `10 ^ 8`. -/
theorem printed_times_iff {timespecSub : Timespec → Timespec → Timespec}
    (hsub : Subtracts timespecSub) {acts : List TimedAct} {s : Timed}
    (hrun : (timed timespecSub).run acts = some s) :
    Faithful s.reports ↔ AllDigits s.reports := by
  have h := (Measured.reachable hsub (Machine.reachable_iff_run.mpr ⟨acts, hrun⟩)).history
  exact ⟨h.allDigits, h.faithful⟩

/-- Two reports, at 5 s and at 7.5 s. -/
def wholeDigits : List TimedAct :=
  [.procOpen (some zeroed), .tick ⟨5, 0⟩, .procRead, .procRead, .tick ⟨7, 500000000⟩, .procRead]

theorem printed_times_iff_wholeDigits :
    ∃ s, (timed borrowSub).run wholeDigits = some s ∧ s.reports.length = 2 ∧
      Faithful s.reports := by
  have hrun := Machine.run_get (M := timed borrowSub) wholeDigits (by decide)
  have hlen : (((timed borrowSub).run wholeDigits).get (by decide)).reports.length = 2 := by decide
  refine ⟨_, hrun, hlen, (printed_times_iff borrowSub_subtracts hrun).mpr ⟨by decide, ?_⟩⟩
  intro q r hin
  obtain ⟨rfl, hr⟩ := List.cons.inj (hin.eq_of_length hlen.symm)
  obtain ⟨rfl, _⟩ := List.cons.inj hr
  decide

/-- Two reports, 5 ns apart: `1.5`, and then `1.10`. -/
def lostZeros : List TimedAct :=
  [.procOpen (some zeroed), .tick ⟨1, 5⟩, .procRead, .procRead, .tick ⟨1, 10⟩, .procRead]

/-- **The lost zeros.**  Nanoseconds are printed without the zeros in front, so five of them look
    like half a second. -/
theorem lost_zeros_not_faithful :
    ¬ ∀ timespecSub, Subtracts timespecSub → ∀ acts s,
      (timed timespecSub).run acts = some s → Faithful s.reports := by
  intro hall
  have hrun := Machine.run_get (M := timed borrowSub) lostZeros (by decide)
  have h := (Measured.reachable borrowSub_subtracts
    (Machine.reachable_iff_run.mpr ⟨lostZeros, hrun⟩)).history
  have hdigits := h.allDigits (hall borrowSub borrowSub_subtracts lostZeros _ hrun)
  exact absurd hdigits.current (by decide)

end KernelModules.Part2
