/-
  `printStats`: the status report.

  The report is built by fourteen `sprintf`s into one buffer.  Weights are kept in half units and
  printed as an integer quotient with an optional `.5`; which of its two formats a line uses is
  decided by a local flag `half`, which the loop over the floors sets and clears.

  1. **Program** — `printStats` is the source's function, buffer, `len` and flag included.
  2. **Text** — `report` says what it writes, line by line, each line from its own data.  That
     `printStats` writes exactly this (`printStats_eq`) is where the flag is shown never to leak
     from one floor to the next: it is 0 at the head of every turn of the loop.
  3. **Reading it back** — `readReport` recovers every printed field, so the report is lossless
     (`report_lossless`); and with 32-bit fields it fits the buffer (`report_fits`).
-/
import Mathlib.Algebra.Order.BigOperators.Group.List
import Mathlib.Algebra.Order.Group.Nat
import KernelModules.Part3.Header
import KernelModules.Lib.Text

namespace KernelModules.Part3

open KernelModules.Lib

/-! ## The program -/

/-- `getState`. -/
def getState (e : Elevator) : String :=
  if e.status = .idle then "Idle"
  else if e.status = .offline then "Offline"
  else if e.status = .loading then "Loading"
  else if e.status = .up then "Up"
  else if e.status = .down then "Down"
  else "Not Set"

/-- `buf`, and the locals `len` and `half` of `printStats`. -/
structure Printer where
  buf : List Char
  len : Nat
  half : Int

/-- `len += sprintf(buf + len, fmt, ...)`. -/
def Printer.sprintf (pr : Printer) (fmt : String) (args : List Arg) : Printer :=
  let text := format fmt.toList args
  { pr with buf := sprintfAt pr.buf pr.len text, len := pr.len + text.length }

/-- One turn of the loop over the floors. -/
def printFloor (b : Building) (pr : Printer) (i : Slot) : Printer :=
  let pr := if (b.f i).wUnits.tmod 2 ≠ 0 then { pr with half := 1 } else pr
  if pr.half ≠ 0 then
    let pr := pr.sprintf "Floor %d: %d/%d%s waiting (P/W) and %d serviced\n"
      [.d (i + 1), .d (b.f i).pUnits, .d ((b.f i).wUnits.tdiv 2), .s ".5".toList,
        .d (b.f i).serviced]
    { pr with half := 0 }
  else
    pr.sprintf "Floor %d: %d/%d waiting (P/W) and %d serviced\n"
      [.d (i + 1), .d (b.f i).pUnits, .d ((b.f i).wUnits.tdiv 2), .d (b.f i).serviced]

/-- The line of the elevator's load. -/
def printLoad (e : Elevator) (pr : Printer) : Printer :=
  if pr.half ≠ 0 then
    pr.sprintf "Elevator Load (P/W): %d/%d%s\n" [.d e.pUnits, .d (e.wUnits.tdiv 2), .s ".5".toList]
  else
    pr.sprintf "Elevator Load (P/W):  %d/%d\n" [.d e.pUnits, .d (e.wUnits.tdiv 2)]

/-- The lines before the loop. -/
def printElevator (e : Elevator) (pr : Printer) : Printer :=
  let pr := if e.wUnits.tmod 2 ≠ 0 then { pr with half := 1 } else pr
  let pr := pr.sprintf "State: %s\n" [.s (getState e).toList]
  let pr := pr.sprintf "Current Floor: %d\n" [.d (e.current + 1)]
  let pr := pr.sprintf "Next Floor: %d\n" [.d (e.next + 1)]
  printLoad e pr

/-- `printStats`: the length it returns, and the buffer it leaves. -/
def printStats (b : Building) (buf : List Char) : Nat × List Char :=
  let pr := printElevator b.e { buf := buf, len := 0, half := 0 }
  -- for (i = 9; i >= 0; i--)
  let pr := (List.finRange 10).reverse.foldl (printFloor b) { pr with half := 0 }
  (pr.len, pr.buf)

/-! ## The text -/

/-- The line of a floor. -/
def floorLine (i : Slot) (fl : Floors) : List Char :=
  if fl.wUnits.tmod 2 ≠ 0 then
    format "Floor %d: %d/%d%s waiting (P/W) and %d serviced\n".toList
      [.d (i + 1), .d fl.pUnits, .d (fl.wUnits.tdiv 2), .s ".5".toList, .d fl.serviced]
  else
    format "Floor %d: %d/%d waiting (P/W) and %d serviced\n".toList
      [.d (i + 1), .d fl.pUnits, .d (fl.wUnits.tdiv 2), .d fl.serviced]

/-- The line of the elevator's load; without a half unit it has one blank more. -/
def loadLine (e : Elevator) : List Char :=
  if e.wUnits.tmod 2 ≠ 0 then
    format "Elevator Load (P/W): %d/%d%s\n".toList
      [.d e.pUnits, .d (e.wUnits.tdiv 2), .s ".5".toList]
  else
    format "Elevator Load (P/W):  %d/%d\n".toList [.d e.pUnits, .d (e.wUnits.tdiv 2)]

/-- The lines of the elevator. -/
def elevatorLines (e : Elevator) : List Char :=
  format "State: %s\n".toList [.s (getState e).toList]
    ++ format "Current Floor: %d\n".toList [.d (e.current + 1)]
    ++ format "Next Floor: %d\n".toList [.d (e.next + 1)] ++ loadLine e

/-- The report, top floor first. -/
def report (b : Building) : List Char :=
  elevatorLines b.e ++ (List.finRange 10).reverse.flatMap fun i => floorLine i (b.f i)

/-- `text` has been written to `buf`, and `half` is as given. -/
structure Printer.Wrote (pr : Printer) (buf text : List Char) (half : Int) : Prop where
  buf : pr.buf = text ++ nul :: buf.drop (text.length + 1)
  len : pr.len = text.length
  half : pr.half = half

/-- One `sprintf` more, at the end of what has been written so far, which is where `len` points. -/
theorem Printer.Wrote.sprintf {pr : Printer} {buf text : List Char} {half : Int}
    (h : pr.Wrote buf text half) (fmt : String) (args : List Arg) :
    (pr.sprintf fmt args).Wrote buf (text ++ format fmt.toList args) half := by
  refine ⟨?_, ?_, h.half⟩
  · show sprintfAt pr.buf pr.len _ = _
    rw [h.buf, h.len, sprintfAt_length]
  · show pr.len + _ = _
    rw [h.len, List.length_append]

/-- Setting the flag writes nothing; it only says what the next line has to add. -/
theorem Printer.Wrote.flag {pr : Printer} {buf text : List Char} {half : Int}
    (h : pr.Wrote buf text half) (v : Int) : ({ pr with half := v } : Printer).Wrote buf text v :=
  ⟨h.buf, h.len, rfl⟩

/-- One turn of the loop writes the line of its floor, and leaves the flag clear for the next. -/
theorem printFloor_wrote {pr : Printer} {buf text : List Char} (b : Building)
    (h : pr.Wrote buf text 0) (i : Slot) :
    (printFloor b pr i).Wrote buf (text ++ floorLine i (b.f i)) 0 := by
  unfold printFloor floorLine
  by_cases hodd : (b.f i).wUnits.tmod 2 ≠ 0
  · rw [if_pos hodd, if_pos (show (1 : Int) ≠ 0 by decide), if_pos hodd]
    -- the line that uses the flag clears it
    exact ((h.flag 1).sprintf _ _).flag 0
  · rw [if_neg hodd, if_neg (not_not.mpr h.half), if_neg hodd]
    exact h.sprintf _ _

theorem printFloors_wrote (b : Building) (is : List Slot) {pr : Printer} {buf text : List Char}
    (h : pr.Wrote buf text 0) :
    (is.foldl (printFloor b) pr).Wrote buf (text ++ is.flatMap fun i => floorLine i (b.f i)) 0 := by
  induction is generalizing pr text with
  | nil =>
    rw [List.flatMap_nil, List.append_nil]
    exact h
  | cons i is ih =>
    rw [List.foldl_cons, List.flatMap_cons, ← List.append_assoc]
    exact ih (printFloor_wrote b h i)

/-- The line of the weight, whose `.5` depends on the flag that the line before has left. -/
theorem printLoad_wrote {pr : Printer} {buf text : List Char} {e : Elevator}
    (h : pr.Wrote buf text (if e.wUnits.tmod 2 ≠ 0 then 1 else 0)) :
    ({ printLoad e pr with half := 0 } : Printer).Wrote buf (text ++ loadLine e) 0 := by
  unfold printLoad loadLine
  by_cases hodd : e.wUnits.tmod 2 ≠ 0
  · rw [if_pos hodd] at h ⊢
    rw [if_pos (show pr.half ≠ 0 by rw [h.half]; decide)]
    exact (h.sprintf _ _).flag 0
  · rw [if_neg hodd] at h ⊢
    rw [if_neg (not_not.mpr h.half)]
    exact (h.sprintf _ _).flag 0

/-- The lines of the elevator, from the beginning of the block: whatever stood there is
    overwritten. -/
theorem printElevator_wrote (e : Elevator) (buf : List Char) :
    ({ printElevator e { buf := buf, len := 0, half := 0 } with half := 0 } : Printer).Wrote buf
      (elevatorLines e) 0 := by
  have hflag : (if e.wUnits.tmod 2 ≠ 0 then
      ({ buf := buf, len := 0, half := 1 } : Printer) else { buf := buf, len := 0, half := 0 })
      = { buf := buf, len := 0, half := if e.wUnits.tmod 2 ≠ 0 then 1 else 0 } := by
    split <;> rfl
  have hstate : (({ buf := buf, len := 0, half := if e.wUnits.tmod 2 ≠ 0 then 1 else 0 } :
      Printer).sprintf "State: %s\n" [.s (getState e).toList]).Wrote buf
      (format "State: %s\n".toList [.s (getState e).toList])
      (if e.wUnits.tmod 2 ≠ 0 then 1 else 0) :=
    ⟨sprintfAt_zero _ _, Nat.zero_add _, rfl⟩
  unfold printElevator elevatorLines
  rw [hflag]
  exact printLoad_wrote ((hstate.sprintf _ _).sprintf _ _)

/-- **What `printStats` writes** to any buffer, and what it returns: the report, a NUL, and the
    length without it. -/
theorem printStats_eq (b : Building) (buf : List Char) :
    printStats b buf
      = ((report b).length, report b ++ nul :: buf.drop ((report b).length + 1)) := by
  have h := printFloors_wrote b (List.finRange 10).reverse (printElevator_wrote b.e buf)
  exact Prod.ext h.len h.buf

theorem nul_not_mem_getState (e : Elevator) : nul ∉ (getState e).toList := by
  unfold getState
  repeat' split
  all_goals decide

theorem nul_not_mem_report (b : Building) : nul ∉ report b := by
  have hhalf : ∀ args : List Arg, (∀ t, Arg.s t ∈ args → t = ".5".toList) →
      ∀ t, Arg.s t ∈ args → nul ∉ t := by
    intro args h t ht
    rw [h t ht]
    decide
  unfold report elevatorLines
  simp only [List.mem_append, List.mem_flatMap, not_or]
  refine ⟨⟨⟨⟨?_, ?_⟩, ?_⟩, ?_⟩, ?_⟩
  · apply nul_not_mem_format (by decide)
    intro t ht
    rw [Arg.s.inj (List.mem_singleton.mp ht)]
    exact nul_not_mem_getState b.e
  · exact nul_not_mem_format (by decide) (by simp)
  · exact nul_not_mem_format (by decide) (by simp)
  · unfold loadLine
    split
    · exact nul_not_mem_format (by decide) (hhalf _ (by simp))
    · exact nul_not_mem_format (by decide) (by simp)
  · rintro ⟨i, _, hi⟩
    revert hi
    unfold floorLine
    split
    · exact nul_not_mem_format (by decide) (hhalf _ (by simp))
    · exact nul_not_mem_format (by decide) (by simp)

/-- The string in the buffer is the report, whatever stood in the buffer before. -/
theorem cstring_printStats (b : Building) (buf : List Char) :
    cstring (printStats b buf).2 = report b := by
  rw [printStats_eq]
  exact cstring_append (nul_not_mem_report b)

/-! ## The report fits its buffer -/

/-- `ENTRY_SIZE`. -/
def entrySize : Nat := 1024

/-- A value of the type `int`. -/
def IsInt (v : Int) : Prop := -2 ^ 31 ≤ v ∧ v < 2 ^ 31

/-- The printed fields hold `int`s, and the positions are floors of the building. -/
structure IntFields (b : Building) : Prop where
  current : 0 ≤ b.e.current ∧ b.e.current ≤ 9
  next : 0 ≤ b.e.next ∧ b.e.next ≤ 9
  pUnits : IsInt b.e.pUnits
  wUnits : IsInt b.e.wUnits
  floor_pUnits : ∀ i, IsInt (b.f i).pUnits
  floor_wUnits : ∀ i, IsInt (b.f i).wUnits
  floor_serviced : ∀ i, IsInt (b.f i).serviced

theorem decimal_int {v : Int} (h : IsInt v) : (decimal v).length ≤ 11 := by
  obtain ⟨hlo, hhi⟩ := h
  exact decimal_length_le (k := 10) (by decide) (by omega) (by omega)

theorem decimal_half {v : Int} (h : IsInt v) : (decimal (v.tdiv 2)).length ≤ 11 := by
  obtain ⟨hlo, hhi⟩ := h
  have habs : (v.tdiv 2).natAbs = v.natAbs / 2 := Int.natAbs_tdiv v 2
  exact decimal_int ⟨by omega, by omega⟩

theorem decimal_floor {v : Int} (h : 0 ≤ v ∧ v ≤ 9) : (decimal (v + 1)).length ≤ 3 := by
  obtain ⟨hlo, hhi⟩ := h
  exact decimal_length_le (k := 2) (by decide) (by omega) (by omega)

theorem getState_length_le (e : Elevator) : (getState e).toList.length ≤ 7 := by
  unfold getState
  repeat' split
  all_goals decide

theorem floorLine_length_le {b : Building} (h : IntFields b) (i : Slot) :
    (floorLine i (b.f i)).length ≤ 86 := by
  have hi := decimal_floor (v := (i : Int)) (by have := i.isLt; omega)
  have hp := decimal_int (h.floor_pUnits i)
  have hw := decimal_half (h.floor_wUnits i)
  have hs := decimal_int (h.floor_serviced i)
  unfold floorLine
  split
  · apply (format_length_le _ _).trans
    simp [Arg.text]
    omega
  · apply (format_length_le _ _).trans
    simp [Arg.text]
    omega

theorem loadLine_length_le {b : Building} (h : IntFields b) : (loadLine b.e).length ≤ 53 := by
  have hp := decimal_int h.pUnits
  have hw := decimal_half h.wUnits
  unfold loadLine
  split
  · apply (format_length_le _ _).trans
    simp [Arg.text]
    omega
  · apply (format_length_le _ _).trans
    simp [Arg.text]
    omega

theorem elevatorLines_length_le {b : Building} (h : IntFields b) :
    (elevatorLines b.e).length ≤ 109 := by
  have hstate : (format "State: %s\n".toList [.s (getState b.e).toList]).length ≤ 17 :=
    (format_length_le _ _).trans (Nat.add_le_add_left (getState_length_le b.e) 10)
  have hcurrent : (format "Current Floor: %d\n".toList [.d (b.e.current + 1)]).length ≤ 21 :=
    (format_length_le _ _).trans (Nat.add_le_add_left (decimal_floor h.current) 18)
  have hnext : (format "Next Floor: %d\n".toList [.d (b.e.next + 1)]).length ≤ 18 :=
    (format_length_le _ _).trans (Nat.add_le_add_left (decimal_floor h.next) 15)
  have hload := loadLine_length_le h
  rw [elevatorLines, List.length_append, List.length_append, List.length_append]
  omega

/-- The report leaves room for its NUL, with every field as long as an `int` can be ... -/
theorem report_length_le {b : Building} (h : IntFields b) : (report b).length ≤ 969 := by
  have hhead := elevatorLines_length_le h
  have hfloors : ((List.finRange 10).reverse.flatMap fun i => floorLine i (b.f i)).length
      ≤ 10 * 86 := by
    rw [List.length_flatMap]
    refine (List.sum_le_card_nsmul _ 86 ?_).trans ?_
    · intro n hn
      obtain ⟨i, _, rfl⟩ := List.mem_map.mp hn
      exact floorLine_length_le h i
    · simp
  rw [report, List.length_append]
  omega

/-- ... and is never empty. -/
theorem report_length_pos (b : Building) : 0 < (report b).length := by
  have hhead : 0 < (format "State: %s\n".toList [.s (getState b.e).toList]).length :=
    Nat.succ_pos _
  simp only [report, elevatorLines, List.length_append]
  omega

/-- **The report fits its buffer.**  Whatever `int`s the fields hold and whatever the buffer of
    `ENTRY_SIZE` bytes held before, the report and its NUL fit, the buffer is not overrun, and the
    value returned is positive and the `strlen` of what was written. -/
theorem report_fits {b : Building} (h : IntFields b) {buf : List Char}
    (hbuf : buf.length = entrySize) :
    strlen (printStats b buf).2 + 1 ≤ entrySize ∧ (printStats b buf).2.length = entrySize ∧
      0 < (printStats b buf).1 ∧ (printStats b buf).1 = strlen (printStats b buf).2 := by
  have hle := report_length_le h
  have hsize : entrySize = 1024 := rfl
  rw [strlen, cstring_printStats, printStats_eq]
  refine ⟨by omega, ?_, report_length_pos b, rfl⟩
  rw [List.length_append, List.length_cons, List.length_drop]
  omega

/-- Counters at both ends of the `int`s, every weight an odd number of half units, the cabin on the
    top floor. -/
def extremes : Building where
  f i := {
    waiting := []
    level := i
    serviced := -2 ^ 31
    pUnits := if i.val % 2 = 0 then -2 ^ 31 else 2 ^ 31 - 1
    wUnits := if i.val % 2 = 0 then 1 - 2 ^ 31 else 2 ^ 31 - 1
    adult := 0
    child := 0
    bell := 0
    room := 0 }
  e := { initElevator with
    pUnits := -2 ^ 31
    wUnits := 1 - 2 ^ 31
    status := .loading
    current := 9
    next := 9 }

/-- A building whose counters are all as long as an `int` can be, and whose weights are odd: 826
    of the bytes are used. -/
theorem report_fits_extremes :
    strlen (printStats extremes (List.replicate entrySize 'x')).2 + 1 ≤ entrySize ∧
      (printStats extremes (List.replicate entrySize 'x')).2.length = entrySize ∧
      0 < (printStats extremes (List.replicate entrySize 'x')).1 ∧
      (printStats extremes (List.replicate entrySize 'x')).1
        = strlen (printStats extremes (List.replicate entrySize 'x')).2 ∧
      (printStats extremes (List.replicate entrySize 'x')).1 = 826 := by
  have hmin : IsInt (-2 ^ 31) := ⟨by decide, by decide⟩
  have hmax : IsInt (2 ^ 31 - 1) := ⟨by decide, by decide⟩
  have hodd : IsInt (1 - 2 ^ 31) := ⟨by decide, by decide⟩
  have hfields : IntFields extremes := by
    refine ⟨by decide, by decide, hmin, hodd, fun i => ?_, fun i => ?_, fun _ => hmin⟩
    · show IsInt (if i.val % 2 = 0 then _ else _)
      split
      · exact hmin
      · exact hmax
    · show IsInt (if i.val % 2 = 0 then _ else _)
      split
      · exact hodd
      · exact hmax
  obtain ⟨hfits, hbuf, hpos, hlen⟩ := report_fits hfields
    (List.length_replicate (n := entrySize) (a := 'x'))
  refine ⟨hfits, hbuf, hpos, hlen, ?_⟩
  rw [printStats_eq]
  decide +kernel

/-! ## Reading the report back -/

/-- What the report says about a floor. -/
@[ext] structure FloorStats where
  level : Int
  pUnits : Int
  wUnits : Int
  serviced : Int
  deriving DecidableEq, Repr

/-- What the report says. -/
@[ext] structure Stats where
  status : State
  current : Int
  next : Int
  pUnits : Int
  wUnits : Int
  floors : List FloorStats
  deriving DecidableEq, Repr

/-- The printed fields of a floor. -/
def floorStats (i : Slot) (fl : Floors) : FloorStats :=
  ⟨i, fl.pUnits, fl.wUnits, fl.serviced⟩

/-- The printed fields of a building, top floor first. -/
def stats (b : Building) : Stats where
  status := b.e.status
  current := b.e.current
  next := b.e.next
  pUnits := b.e.pUnits
  wUnits := b.e.wUnits
  floors := (List.finRange 10).reverse.map fun i => floorStats i (b.f i)

/-- Read a weight: the integer part, doubled, and one half unit more if `.5` follows. -/
def readWeight : Reader Int := do
  let q ← number
  let half ← isNext ".5".toList
  pure (if half then 2 * q + 1 else 2 * q)

/-- Read the line of a floor. -/
def readFloor : Reader FloorStats := do
  lit "Floor ".toList
  let level ← number
  lit ": ".toList
  let pUnits ← number
  lit "/".toList
  let wUnits ← readWeight
  lit " waiting (P/W) and ".toList
  let serviced ← number
  lit " serviced\n".toList
  pure ⟨level - 1, pUnits, wUnits, serviced⟩

/-- Read a state. -/
def readState : Reader State := do
  let word ← span Char.isAlpha
  if word = "Idle".toList then pure .idle
  else if word = "Offline".toList then pure .offline
  else if word = "Loading".toList then pure .loading
  else if word = "Up".toList then pure .up
  else if word = "Down".toList then pure .down
  else failure

/-- Read the report. -/
def readReport : Reader Stats := do
  lit "State: ".toList
  let status ← readState
  lit "\nCurrent Floor: ".toList
  let current ← number
  lit "\nNext Floor: ".toList
  let next ← number
  lit "\nElevator Load (P/W): ".toList
  let _ ← isNext " ".toList
  let pUnits ← number
  lit "/".toList
  let wUnits ← readWeight
  lit "\n".toList
  let floors ← many readFloor 10
  pure ⟨status, current - 1, next - 1, pUnits, wUnits, floors⟩

/-- A weight is read back as it was written: with a `.5` ... -/
theorem readWeight_half {w : Int} (hw : 0 ≤ w) (hodd : w.tmod 2 ≠ 0) (rest : List Char) :
    readWeight.run (decimal (w.tdiv 2) ++ (".5".toList ++ rest)) = some (w, rest) := by
  have hstops : Stops Char.isDigit (".5".toList ++ rest) := stops_cons (by decide)
  have hw' : 2 * w.tdiv 2 + 1 = w := by
    rw [Int.tmod_eq_emod_of_nonneg hw] at hodd
    rw [Int.tdiv_eq_ediv_of_nonneg hw]
    omega
  rw [readWeight, run_next (number_decimal _ hstops), run_next (isNext_append _ _), if_pos rfl, hw']
  rfl

/-- ... and without, where the next character is neither a digit nor a point. -/
theorem readWeight_whole {w : Int} (hw : 0 ≤ w) (heven : ¬ w.tmod 2 ≠ 0) {c : Char}
    (hdigit : c.isDigit = false) (hdot : '.' ≠ c) (rest : List Char) :
    readWeight.run (decimal (w.tdiv 2) ++ c :: rest) = some (w, c :: rest) := by
  have hnext : (isNext ".5".toList).run (c :: rest) = some (false, c :: rest) := isNext_of_ne hdot
  have hw' : 2 * w.tdiv 2 = w := by
    rw [Int.tmod_eq_emod_of_nonneg hw] at heven
    rw [Int.tdiv_eq_ediv_of_nonneg hw]
    omega
  rw [readWeight, run_next (number_decimal _ (stops_cons hdigit)), run_next hnext,
    if_neg (by decide), hw']
  rfl

/-- A weight is read back, with or without its half, `next` being what follows it in the line and
    is no digit. -/
theorem run_weight {β : Type} {f : Int → Reader β} {w : Int} {next rest : List Char} (hw : 0 ≤ w)
    (hnext : next.head?.any (fun c => !c.isDigit && c != '.') = true) :
    (readWeight >>= f).run (decimal (w.tdiv 2) ++
      ((if w.tmod 2 ≠ 0 then ".5".toList else []) ++ (next ++ rest))) =
        (f w).run (next ++ rest) := by
  apply run_next
  split
  · rename_i hodd
    exact readWeight_half hw hodd _
  · rename_i heven
    cases next with
    | nil => exact absurd hnext (by simp)
    | cons c next =>
      have hc : c.isDigit = false ∧ ¬ c = '.' := by simpa using hnext
      exact readWeight_whole hw heven hc.1 (Ne.symm hc.2) _

/-- The line of a floor, cut into its numbers and what is between them, in the order in which a
    reader needs them. -/
theorem floorLine_split (i : Slot) (fl : Floors) (rest : List Char) :
    floorLine i fl ++ rest = "Floor ".toList ++ (decimal (i + 1) ++ (": ".toList ++
      (decimal fl.pUnits ++ ("/".toList ++ (decimal (fl.wUnits.tdiv 2) ++
        ((if fl.wUnits.tmod 2 ≠ 0 then ".5".toList else []) ++ (" waiting (P/W) and ".toList ++
          (decimal fl.serviced ++ (" serviced\n".toList ++ rest))))))))) := by
  unfold floorLine
  split <;> simp [format]

/-- The line of a floor is read back.  Its weight is not negative, so the sign of a half cannot be
    lost. -/
theorem readFloor_floorLine (i : Slot) {fl : Floors} (hw : 0 ≤ fl.wUnits) (rest : List Char) :
    readFloor.run (floorLine i fl ++ rest) = some (floorStats i fl, rest) := by
  have hi : ((i : Int) + 1) - 1 = i := by omega
  rw [floorLine_split, readFloor, run_lit, run_number, run_lit, run_number, run_lit, run_weight hw,
    run_lit, run_number, run_lit, hi]
  · rfl
  all_goals decide

/-- The lines of the elevator, cut the same way. -/
theorem elevatorLines_split (e : Elevator) (rest : List Char) :
    elevatorLines e ++ rest = "State: ".toList ++ ((getState e).toList ++
      ("\nCurrent Floor: ".toList ++ (decimal (e.current + 1) ++ ("\nNext Floor: ".toList ++
        (decimal (e.next + 1) ++ ("\nElevator Load (P/W): ".toList ++
          ((if e.wUnits.tmod 2 ≠ 0 then [] else " ".toList) ++ (decimal e.pUnits ++ ("/".toList ++
            (decimal (e.wUnits.tdiv 2) ++ ((if e.wUnits.tmod 2 ≠ 0 then ".5".toList else []) ++
              ("\n".toList ++ rest)))))))))))) := by
  unfold elevatorLines loadLine
  split <;> simp [format]

/-- The status is read back, whatever is read after it. -/
theorem run_state {β : Type} {f : State → Reader β} {e : Elevator} (he : ∀ v, e.status ≠ .raw v)
    (rest : List Char) :
    (readState >>= f).run ((getState e).toList ++ ("\nCurrent Floor: ".toList ++ rest))
      = (f e.status).run ("\nCurrent Floor: ".toList ++ rest) := by
  apply run_next
  have hword : ∀ w : List Char, w.all Char.isAlpha = true →
      (span Char.isAlpha).run (w ++ ("\nCurrent Floor: ".toList ++ rest))
        = some (w, "\nCurrent Floor: ".toList ++ rest) := by
    intro w hw
    exact span_append (List.all_eq_true.mp hw) (stops_cons (by decide))
  unfold getState
  rcases hst : e.status with _ | _ | _ | _ | _ | v
  case raw => exact absurd hst (he v)
  all_goals
    rw [readState, run_next (hword _ (by decide))]
    rfl

/-- The blank of the second format of the load is skipped. -/
theorem run_blank {β : Type} {r : Reader β} {q : Prop} [Decidable q] (v : Int) (rest : List Char) :
    (isNext " ".toList >>= fun _ => r).run ((if q then [] else " ".toList) ++ (decimal v ++ rest))
      = r.run (decimal v ++ rest) := by
  split
  · exact run_next (isNext_decimal (by decide) (by decide) v rest)
  · exact run_next (isNext_append _ _)

/-- What makes a report readable: a proper state, floors of the building, no negative weight. -/
structure Reportable (b : Building) : Prop where
  status : ∀ v, b.e.status ≠ .raw v
  current : 0 ≤ b.e.current ∧ b.e.current ≤ 9
  next : 0 ≤ b.e.next ∧ b.e.next ≤ 9
  cabin : 0 ≤ b.e.wUnits
  floors : ∀ i, 0 ≤ (b.f i).wUnits

/-- **The report is read back**, to its last character: status, two floors, two loads, and then
    floor by floor. -/
theorem readReport_report {b : Building} (hb : Reportable b) :
    readReport.run (report b) = some (stats b, []) := by
  have hc : (b.e.current + 1) - 1 = b.e.current := by omega
  have hn : (b.e.next + 1) - 1 = b.e.next := by omega
  have hfloors := many_flatMap (List.finRange 10).reverse
    (fun i _ rest => readFloor_floorLine i (hb.floors i) rest) []
  rw [List.append_nil, List.length_reverse, List.length_finRange] at hfloors
  rw [report, elevatorLines_split, readReport, run_lit, run_state hb.status, run_lit, run_number,
    run_lit, run_number, run_lit, run_blank, run_number, run_lit, run_weight hb.cabin, run_lit,
    run_next hfloors, hc, hn]
  · rfl
  all_goals decide

/-- What the report shows of two buildings is the same exactly when the fields it prints are. -/
theorem stats_eq_iff {b b' : Building} : stats b = stats b' ↔
    b.e.status = b'.e.status ∧ b.e.current = b'.e.current ∧ b.e.next = b'.e.next ∧
      b.e.pUnits = b'.e.pUnits ∧ b.e.wUnits = b'.e.wUnits ∧
      ∀ i, (b.f i).pUnits = (b'.f i).pUnits ∧ (b.f i).wUnits = (b'.f i).wUnits ∧
        (b.f i).serviced = (b'.f i).serviced := by
  have hfloors : (stats b).floors = (stats b').floors ↔
      ∀ i, (b.f i).pUnits = (b'.f i).pUnits ∧ (b.f i).wUnits = (b'.f i).wUnits ∧
        (b.f i).serviced = (b'.f i).serviced := by
    simp [stats, floorStats]
  rw [Stats.ext_iff, hfloors]
  rfl

/-- The report depends on nothing but the printed fields; counters that are not printed do not
    show in it. -/
theorem report_congr {b b' : Building} (h : stats b = stats b') : report b = report b' := by
  obtain ⟨hst, hc, hn, hp, hw, hf⟩ := stats_eq_iff.mp h
  have hstate : getState b.e = getState b'.e := by
    unfold getState
    rw [hst]
  have hlines : ∀ i, floorLine i (b.f i) = floorLine i (b'.f i) := by
    intro i
    obtain ⟨hp, hw, hs⟩ := hf i
    unfold floorLine
    rw [hp, hw, hs]
  unfold report elevatorLines loadLine
  simp only [hstate, hc, hn, hp, hw, hlines]

/-- **The report is lossless.**  Two buildings have the same report exactly if they agree on every
    printed field; the report is the concatenation of the elevator's lines and of one line per
    floor, each from the data of that floor alone; and `readReport` recovers all of it. -/
theorem report_lossless {b b' : Building} (hb : Reportable b) (hb' : Reportable b')
    (buf buf' : List Char) :
    (cstring (printStats b buf).2 = cstring (printStats b' buf').2 ↔
      b.e.status = b'.e.status ∧ b.e.current = b'.e.current ∧ b.e.next = b'.e.next ∧
        b.e.pUnits = b'.e.pUnits ∧ b.e.wUnits = b'.e.wUnits ∧
        ∀ i, (b.f i).pUnits = (b'.f i).pUnits ∧ (b.f i).wUnits = (b'.f i).wUnits ∧
          (b.f i).serviced = (b'.f i).serviced) ∧
    cstring (printStats b buf).2
      = elevatorLines b.e ++ ((List.finRange 10).reverse.flatMap fun i => floorLine i (b.f i)) ∧
    readReport.run (cstring (printStats b buf).2) = some (stats b, []) := by
  rw [cstring_printStats, cstring_printStats, ← stats_eq_iff]
  refine ⟨⟨fun heq => ?_, report_congr⟩, rfl, readReport_report hb⟩
  have hread := readReport_report hb
  rw [heq, readReport_report hb'] at hread
  exact (Prod.mk.inj (Option.some.inj hread)).1.symm

/-- One child on board, half a unit: the report differs from that of an empty building. -/
theorem report_lossless_child :
    ¬ cstring (printStats (initBuilding initElevator) []).2
      = cstring (printStats (initBuilding { initElevator with
          toLoad := ⟨1, 1, 0, 1, 0, 0⟩ }) []).2 := by
  have hzero : ∀ (e : Elevator) (i : Slot), 0 ≤ ((initBuilding e).f i).wUnits := by
    intro e i
    exact Int.le_refl 0
  have hb : Reportable (initBuilding initElevator) :=
    ⟨fun v => State.noConfusion, by decide, by decide, by decide, hzero _⟩
  have hb' : Reportable (initBuilding { initElevator with toLoad := ⟨1, 1, 0, 1, 0, 0⟩ }) :=
    ⟨fun v => State.noConfusion, by decide, by decide, by decide, hzero _⟩
  intro heq
  obtain ⟨_, _, _, hp, _⟩ := (report_lossless hb hb' [] []).1.mp heq
  exact absurd hp (by decide)

end KernelModules.Part3
