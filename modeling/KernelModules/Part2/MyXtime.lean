/-
  `my_xtime.c`: the module behind `/proc/timed`.

  A read prints the kernel's time into the buffer `message` and, if a time has been printed before,
  a second line with the time elapsed since.  `prev_t` has two uses: it is the time of the last
  report, and for the length of two statements it is the difference.

  Two functions are the kernel's own.  `current_kernel_time` returns the field `clock` of the state.
  `timespec_sub` is the parameter `timespecSub`, and what the module may expect of it is stated as
  `Normalises` and `Subtracts`; `borrowSub` has both properties.

  What a read that produces data does is said once, by `read_data`: it writes `reportText` and
  nothing else.  With normalised times the text fits `ENTRY_SIZE` bytes, whatever the seconds
  (`time_report_fits`): two lines of 14 + 20 + 1 + 9 + 1 characters, and the NUL.
-/
import KernelModules.Lib.Text

namespace KernelModules.Part2

open KernelModules.Lib

/-! ## Times -/

/-- `long`. -/
abbrev Long := BitVec 64

/-- `struct timespec`. -/
structure Timespec where
  tvSec : Long
  tvNsec : Long
  deriving DecidableEq, Repr

namespace Timespec

/-- The time in nanoseconds. -/
def ns (t : Timespec) : Int := t.tvSec.toInt * 10 ^ 9 + t.tvNsec.toInt

/-- The nanoseconds are less than a second. -/
def Normal (t : Timespec) : Prop := 0 ≤ t.tvNsec.toInt ∧ t.tvNsec.toInt < 10 ^ 9

instance : DecidablePred Normal := fun _ => inferInstanceAs (Decidable (_ ∧ _))

/-- A value of the clock. -/
def IsTime (t : Timespec) : Prop := t.Normal ∧ 0 ≤ t.tvSec.toInt

instance : DecidablePred IsTime := fun _ => inferInstanceAs (Decidable (_ ∧ _))

end Timespec

/-- `timespec_sub` returns a normalised time. -/
def Normalises (timespecSub : Timespec → Timespec → Timespec) : Prop :=
  ∀ a b, a.Normal → b.Normal → (timespecSub a b).Normal

/-- `timespec_sub` of two clock values, the later one first, is the exact difference. -/
def Subtracts (timespecSub : Timespec → Timespec → Timespec) : Prop :=
  ∀ a b, a.IsTime → b.IsTime → b.ns ≤ a.ns →
    (timespecSub a b).Normal ∧ (timespecSub a b).ns = a.ns - b.ns

/-- Subtraction by fields, with a borrow. -/
def borrowSub (a b : Timespec) : Timespec :=
  if (a.tvNsec - b.tvNsec).toInt < 0 then
    ⟨a.tvSec - b.tvSec - 1, a.tvNsec - b.tvNsec + 1000000000⟩
  else ⟨a.tvSec - b.tvSec, a.tvNsec - b.tvNsec⟩

/-- The nanoseconds of two times differ by less than a second, so their difference does not
    overflow. -/
theorem toInt_sub_of_normal {a b : Timespec} (ha : a.Normal) (hb : b.Normal) :
    (a.tvNsec - b.tvNsec).toInt = a.tvNsec.toInt - b.tvNsec.toInt := by
  obtain ⟨ha0, ha9⟩ := ha
  obtain ⟨hb0, hb9⟩ := hb
  rw [BitVec.toInt_sub, Int.bmod_eq_of_le (by omega) (by omega)]

/-- Subtraction with a borrow gives nanoseconds within a second, whichever of the two times is
    later ... -/
theorem borrowSub_normalises : Normalises borrowSub := by
  intro a b ha hb
  have hsub := toInt_sub_of_normal ha hb
  have hbillion : (1000000000 : Long).toInt = 10 ^ 9 := by decide
  obtain ⟨ha0, ha9⟩ := ha
  obtain ⟨hb0, hb9⟩ := hb
  by_cases hneg : (a.tvNsec - b.tvNsec).toInt < 0
  · rw [borrowSub, if_pos hneg, Timespec.Normal, BitVec.toInt_add, hbillion,
      Int.bmod_eq_of_le (by omega) (by omega)]
    omega
  · rw [borrowSub, if_neg hneg, Timespec.Normal, hsub]
    omega

/-- ... and the right time, as long as the seconds do not overflow. -/
theorem borrowSub_subtracts : Subtracts borrowSub := by
  intro a b ha hb _
  refine ⟨borrowSub_normalises a b ha.1 hb.1, ?_⟩
  have hsub := toInt_sub_of_normal ha.1 hb.1
  have hone : (1 : Long).toInt = 1 := by decide
  have hbillion : (1000000000 : Long).toInt = 10 ^ 9 := by decide
  obtain ⟨⟨ha0, ha9⟩, hasec⟩ := ha
  obtain ⟨⟨hb0, hb9⟩, hbsec⟩ := hb
  have halt := BitVec.toInt_lt (x := a.tvSec)
  have hblt := BitVec.toInt_lt (x := b.tvSec)
  have hsec : (a.tvSec - b.tvSec).toInt = a.tvSec.toInt - b.tvSec.toInt := by
    rw [BitVec.toInt_sub, Int.bmod_eq_of_le (by omega) (by omega)]
  by_cases hneg : (a.tvNsec - b.tvNsec).toInt < 0
  · have hborrow : (a.tvSec - b.tvSec - 1).toInt = a.tvSec.toInt - b.tvSec.toInt - 1 := by
      rw [BitVec.toInt_sub, hone, hsec, Int.bmod_eq_of_le (by omega) (by omega)]
    rw [borrowSub, if_pos hneg, Timespec.ns, hborrow, BitVec.toInt_add, hbillion,
      Int.bmod_eq_of_le (by omega) (by omega), Timespec.ns, Timespec.ns]
    omega
  · rw [borrowSub, if_neg hneg, Timespec.ns, hsec, hsub, Timespec.ns, Timespec.ns]
    omega

/-! ## The program -/

/-- What is known of a read: the kernel's clock as it was, the difference on the second line if
    there was one, and the bytes copied to the reader. -/
structure Report where
  time : Timespec
  elapsed : Option Timespec
  text : List Char
  deriving DecidableEq

/-- The variables of the module, the kernel's clock, the buffers, and the record of the reports. -/
structure Timed where
  currT : Timespec
  prevT : Timespec
  /-- `message`; `NULL` until the first open. -/
  message : Option Nat
  readP : Int
  called : Int
  /-- The contents of every buffer allocated so far, freed or not. -/
  heap : List (List Char)
  freed : List Nat
  clock : Timespec
  reports : List Report
  deriving DecidableEq

/-- `ENTRY_SIZE`. -/
def entrySize : Nat := 100

/-- What `kmalloc(ENTRY_SIZE)` returns, with whatever it held before. -/
abbrev Block := { junk : List Char // junk.length = entrySize }

/-- `myxtime_proc_open`: the new state, and 0 or `-ENOMEM`. -/
def myxtimeProcOpen (s : Timed) : Option Block → Timed × Int
  | none => ({ s with readP := 1, message := none }, -12)
  | some junk =>
    ({ s with readP := 1, message := some s.heap.length, heap := s.heap ++ [junk.1] }, 0)

/-- `len = sprintf(message, ...)`. -/
def printCurrent (t : Timespec) (buf : List Char) : List Char × Nat :=
  let text := formatLu "current time: %lu.%lu\n".toList [t.tvSec, t.tvNsec]
  (sprintfAt buf 0 text, text.length)

/-- `len += sprintf(message + len, ...)`. -/
def printElapsed (t : Timespec) (buf : List Char) (len : Nat) : List Char × Nat :=
  let text := formatLu "elapsed time: %lu.%lu\n".toList [t.tvSec, t.tvNsec]
  (sprintfAt buf len text, len + text.length)

/-- `kfree(message)`; `kfree(NULL)` does nothing. -/
def myxtimeProcRelease (s : Timed) : Timed := { s with freed := s.freed ++ s.message.toList }

variable (timespecSub : Timespec → Timespec → Timespec)

/-- The second line, printed from `prev_t`, if `called` is set. -/
def measure (s : Timed) (buf : List Char) (len : Nat) : Timed × Option Timespec × List Char × Nat :=
  if s.called ≠ 0 then
    let s := { s with prevT := timespecSub s.currT s.prevT }
    (s, some s.prevT, printElapsed s.prevT buf len)
  else (s, none, buf, len)

/-- `myxtime_proc_read`: the new state, and what is returned.  `size` and the offset are not looked
    at.  Printing through a `NULL` faults. -/
def myxtimeProcRead (s : Timed) : Option (Timed × Nat) :=
  let s := { s with readP := if s.readP = 0 then 1 else 0 }
  if s.readP ≠ 0 then some (s, 0)
  else do
    let s := { s with currT := s.clock }
    let id ← s.message
    let buf ← s.heap[id]?
    let (buf, len) := printCurrent s.currT buf
    let (s, elapsed, buf, len) := measure timespecSub s buf len
    -- copy_to_user(buf, message, len)
    let r : Report := ⟨s.clock, elapsed, buf.take len⟩
    let s := { s with heap := s.heap.set id buf, reports := s.reports ++ [r] }
    let s := { s with prevT := s.currT }
    let s := if s.called = 0 then { s with called := 1 } else s
    some (s, len)

/-- The variables as `myxtime_init` leaves them. -/
def Timed.init : Timed where
  currT := ⟨0, 0⟩
  prevT := ⟨0, 0⟩
  message := none
  readP := 0
  called := 0
  heap := []
  freed := []
  clock := ⟨0, 0⟩
  reports := []

/-! ## What a read writes -/

/-- The first line. -/
def currentLine (t : Timespec) : List Char :=
  formatLu "current time: %lu.%lu\n".toList [t.tvSec, t.tvNsec]

/-- The second line. -/
def elapsedLine (t : Timespec) : List Char :=
  formatLu "elapsed time: %lu.%lu\n".toList [t.tvSec, t.tvNsec]

/-- A report, with or without its second line. -/
def reportText (t : Timespec) : Option Timespec → List Char
  | none => currentLine t
  | some d => currentLine t ++ elapsedLine d

/-- The difference a read would print now. -/
def Timed.elapsed (s : Timed) : Option Timespec :=
  if s.called ≠ 0 then some (timespecSub s.clock s.prevT) else none

/-- **A read that produces data** writes one report, of the clock as it is now, and remembers that
    time for the next. -/
theorem read_data {s : Timed} {id : Nat} {buf text : List Char} (hread : s.readP ≠ 0)
    (hmsg : s.message = some id) (hbuf : s.heap[id]? = some buf)
    (htext : text = reportText s.clock (s.elapsed timespecSub)) :
    myxtimeProcRead timespecSub s = some ({ s with
      currT := s.clock
      prevT := s.clock
      readP := 0
      called := if s.called = 0 then 1 else s.called
      heap := s.heap.set id (text ++ nul :: buf.drop (text.length + 1))
      reports := s.reports ++ [⟨s.clock, s.elapsed timespecSub, text⟩] }, text.length) := by
  have hfirst : printCurrent s.clock buf
      = (currentLine s.clock ++ nul :: buf.drop ((currentLine s.clock).length + 1),
        (currentLine s.clock).length) :=
    Prod.ext (sprintfAt_zero _ _) rfl
  subst htext
  by_cases hcalled : s.called = 0
  · simp [myxtimeProcRead, hread, hmsg, hbuf, hfirst, measure, hcalled, Timed.elapsed, reportText]
  · have hsecond : ∀ d, printElapsed d
        (currentLine s.clock ++ nul :: buf.drop ((currentLine s.clock).length + 1))
        (currentLine s.clock).length
        = (reportText s.clock (some d) ++
            nul :: buf.drop ((reportText s.clock (some d)).length + 1),
          (reportText s.clock (some d)).length) :=
      fun d => Prod.ext (sprintfAt_length _ _ _) List.length_append.symm
    simp [myxtimeProcRead, hread, hmsg, hbuf, hfirst, measure, hcalled, Timed.elapsed, hsecond]

/-- The other reads return 0, and leave the clock they remember alone. -/
theorem read_end {s : Timed} (hread : s.readP = 0) :
    myxtimeProcRead timespecSub s = some ({ s with readP := 1 }, 0) := by
  simp [myxtimeProcRead, hread]

/-! ## The report fits its buffer -/

theorem toNat_of_nonneg {v : Long} (h : 0 ≤ v.toInt) : (v.toNat : Int) = v.toInt := by
  have hlt := v.isLt
  rw [BitVec.toInt_eq_toNat_cond] at h ⊢
  by_cases hv : 2 * v.toNat < 2 ^ 64
  · rw [if_pos hv]
  · rw [if_neg hv] at h
    omega

/-- A line is a label, the seconds, a point, and the nanoseconds. -/
def timeLine (label : List Char) (t : Timespec) : List Char :=
  label ++ (unsigned t.tvSec ++ ('.' :: (unsigned t.tvNsec ++ ['\n'])))

theorem currentLine_eq (t : Timespec) : currentLine t = timeLine "current time: ".toList t := rfl

theorem elapsedLine_eq (t : Timespec) : elapsedLine t = timeLine "elapsed time: ".toList t := rfl

/-- Twenty digits for any `long`, nine for normalised nanoseconds, and the point between them. -/
theorem timeLine_length_le (label : List Char) {t : Timespec} (h : t.Normal) :
    (timeLine label t).length ≤ label.length + 31 := by
  have hsec : (unsigned t.tvSec).length ≤ 20 :=
    unsigned_length_le (by decide) (t.tvSec.isLt.trans (by decide))
  have hnsec : (unsigned t.tvNsec).length ≤ 9 := by
    have hnat := toNat_of_nonneg h.1
    have hlt := h.2
    exact unsigned_length_le (by decide) (by omega)
  simp only [timeLine, List.length_append, List.length_cons, List.length_nil]
  omega

theorem nul_not_mem_timeLine {label : List Char} (h : nul ∉ label) (t : Timespec) :
    nul ∉ timeLine label t := by
  have hend : nul ∉ ['\n'] := by decide
  have hpoint : nul ≠ '.' := by decide
  simp [timeLine, h, hend, hpoint, nul_not_mem_unsigned]

/-- Two lines with ten to twenty digits of seconds and nine of nanoseconds each. -/
theorem reportText_length_le {t : Timespec} {o : Option Timespec} (ht : t.Normal)
    (ho : ∀ d ∈ o, d.Normal) : (reportText t o).length ≤ 90 := by
  have hcurrent : (currentLine t).length ≤ 45 := timeLine_length_le "current time: ".toList ht
  cases o with
  | none => exact hcurrent.trans (by decide)
  | some d =>
    have helapsed : (elapsedLine d).length ≤ 45 :=
      timeLine_length_le "elapsed time: ".toList (ho d rfl)
    rw [reportText, List.length_append]
    omega

theorem nul_not_mem_reportText (t : Timespec) (o : Option Timespec) : nul ∉ reportText t o := by
  have hcurrent : nul ∉ currentLine t := by
    rw [currentLine_eq]
    exact nul_not_mem_timeLine (by decide) t
  cases o with
  | none => exact hcurrent
  | some d =>
    have helapsed : nul ∉ elapsedLine d := by
      rw [elapsedLine_eq]
      exact nul_not_mem_timeLine (by decide) d
    exact fun h => (List.mem_append.mp h).elim hcurrent helapsed

variable {timespecSub}

/-- **The report fits its buffer.**  With a normalised clock and a normalised last time, a read
    that produces data writes its report and the NUL within the `ENTRY_SIZE` bytes of `message`,
    and returns the length of the report. -/
theorem time_report_fits (hsub : Normalises timespecSub) {s : Timed} {id : Nat} {buf : List Char}
    (hread : s.readP ≠ 0) (hmsg : s.message = some id) (hbuf : s.heap[id]? = some buf)
    (hsize : buf.length = entrySize) (hcurr : s.clock.Normal) (hprev : s.prevT.Normal) :
    ∃ s' len buf', myxtimeProcRead timespecSub s = some (s', len) ∧ s'.heap[id]? = some buf' ∧
      cstring buf' = reportText s.clock (s.elapsed timespecSub) ∧ strlen buf' + 1 ≤ entrySize ∧
      buf'.length = entrySize ∧ len = strlen buf' := by
  have helapsed : ∀ d ∈ s.elapsed timespecSub, d.Normal := by
    intro d hd
    unfold Timed.elapsed at hd
    split at hd
    · rw [← Option.some.inj hd]
      exact hsub _ _ hcurr hprev
    · exact absurd hd (by simp)
  have hlen := reportText_length_le hcurr helapsed
  have htext : cstring (reportText s.clock (s.elapsed timespecSub) ++
      nul :: buf.drop ((reportText s.clock (s.elapsed timespecSub)).length + 1))
      = reportText s.clock (s.elapsed timespecSub) :=
    cstring_append (nul_not_mem_reportText _ _)
  refine ⟨_, _, _, read_data timespecSub hread hmsg hbuf rfl, ?_, htext, ?_, ?_, ?_⟩
  · rw [List.getElem?_set_self (List.getElem?_eq_some_iff.mp hbuf).1]
  · rw [strlen, htext]
    exact Nat.succ_le_of_lt (Nat.lt_of_le_of_lt hlen (by decide))
  · rw [List.length_append, List.length_cons, List.length_drop, hsize]
    have hentry : entrySize = 100 := rfl
    omega
  · rw [strlen, htext]

/-- A clock that has been set back: the difference is negative, and prints with twenty digits. -/
def setBack : Timed where
  currT := ⟨1, 10⟩
  prevT := ⟨1, 10⟩
  message := some 0
  readP := 1
  called := 1
  heap := [List.replicate entrySize nul]
  freed := []
  clock := ⟨0, 5⟩
  reports := []

/-- The clock has been set back since the last report, so the elapsed seconds are negative, and
    printed as a large number: it still fits. -/
theorem time_report_fits_setBack :
    ∃ s' len buf', myxtimeProcRead borrowSub setBack = some (s', len) ∧ s'.heap[0]? = some buf' ∧
      cstring buf' = reportText setBack.clock (setBack.elapsed borrowSub) ∧
      strlen buf' + 1 ≤ entrySize ∧ buf'.length = entrySize ∧ len = strlen buf' :=
  time_report_fits borrowSub_normalises (by decide) rfl rfl (by decide) (by decide) (by decide)

end KernelModules.Part2
