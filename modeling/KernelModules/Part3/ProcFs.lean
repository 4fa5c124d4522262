/-
  `/proc/elevator`: `elevator_open`, `elevator_read`, `elevator_release`.

  An open allocates a buffer and prints the report into it, a read copies the report out and the
  read after it returns 0, a release frees the buffer.  What the three functions know of the reader
  they work for is in two GLOBAL variables, `message` and `read_p`, and not in the open file.

  Here any number of readers open, read and release, one call at a time, in any order and in any
  interleaving with the module itself.  The buffers are numbered by allocation.  `sessions` (what
  a reader opened, and how often it has read), `reads` and `frees` are the model's record of what
  happened; no modelled function looks at them.

  `Served` is what a reader may expect.  It holds all along every run in which each open finds the
  file closed (`readers_served`), for then the globals are the one reader's own.  It fails for good
  as soon as two sessions overlap and the first of them is released: `message` has moved on, and
  the first buffer is never freed.
-/
import KernelModules.Part3.Driver
import KernelModules.Part3.Report

namespace KernelModules.Part3

open Function KernelModules.Lib

/-! ## The three functions -/

/-- What a reader has open: the building as it was at the open, the buffer that was allocated, and
    the number of reads made since. -/
structure Session where
  b : Building
  buf : Nat
  reads : Nat

/-- What a read did: the session before it, what it copied out (nothing if it returned 0), and
    whether the buffer it copied from was still allocated. -/
structure ReadEvent where
  session : Session
  result : List Char
  live : Bool

/-- What a release did: the session it ended, and the buffer it freed. -/
structure FreeEvent where
  session : Session
  buf : Nat

/-- The module, the globals of the `/proc` file, the buffers, and the record of the readers. -/
structure ProcFs where
  sys : Sys
  /-- `message`; `NULL` until the first open. -/
  message : Option Nat
  /-- `read_p`. -/
  readP : Int
  /-- The contents of every buffer allocated so far, freed or not. -/
  heap : List (List Char)
  sessions : Nat → Option Session
  reads : List ReadEvent
  frees : List FreeEvent

/-- What `kmalloc(ENTRY_SIZE)` returns, with whatever it held before. -/
abbrev Block := { junk : List Char // junk.length = entrySize }

/-- The buffers freed so far, in order. -/
def ProcFs.freed (s : ProcFs) : List Nat := s.frees.map FreeEvent.buf

/-- `elevator_open`.  A lock that is interrupted is tried again, so the call ends with the report
    printed.  With no memory, `printStats` writes through `NULL`: the test of `message` comes after
    it. -/
def elevatorOpen (s : ProcFs) : Option Block → Option ProcFs
  | none => none
  | some junk => some { s with
      readP := 1
      message := some s.heap.length
      heap := s.heap ++ [(printStats s.sys.b junk.1).2] }

/-- `elevator_read`: what is copied out and whether it came from a live buffer. -/
def elevatorRead (s : ProcFs) : Option (ProcFs × List Char × Bool) :=
  let s := { s with readP := if s.readP = 0 then 1 else 0 }
  if s.readP ≠ 0 then some (s, [], true)
  else do
    let buf ← s.message
    let text ← s.heap[buf]?
    some (s, cstring text, decide (buf ∉ s.freed))

/-! ## The machine -/

/-- What happens next. -/
inductive ProcAct
  /-- The module takes a step of its own. -/
  | sys (a : Act)
  | elevatorOpen (n : Nat) (junk : Option Block)
  | elevatorRead (n : Nat)
  | elevatorRelease (n : Nat)

/-- The steps.  `elevator_release` is `kfree(message)`, and `kfree(NULL)` does nothing. -/
def procExec (s : ProcFs) : ProcAct → Option ProcFs
  | .sys a => (system.step s.sys a).map fun sys => { s with sys := sys }
  | .elevatorOpen n junk => (elevatorOpen s junk).map fun s' => { s' with
      sessions := update s.sessions n (some ⟨s.sys.b, s.heap.length, 0⟩) }
  | .elevatorRead n => do
      let se ← s.sessions n
      let (s', result, live) ← elevatorRead s
      some { s' with
        sessions := update s.sessions n (some { se with reads := se.reads + 1 })
        reads := s.reads ++ [⟨se, result, live⟩] }
  | .elevatorRelease n => do
      let se ← s.sessions n
      some { s with
        sessions := update s.sessions n none
        frees := s.frees ++ (s.message.map fun buf => ⟨se, buf⟩).toList }

/-- The module just loaded, and nobody reading. -/
def ProcFs.init : ProcFs where
  sys := .init
  message := none
  readP := 0
  heap := []
  sessions := fun _ => none
  reads := []
  frees := []

/-- Any interleaving in which a reader opens before it reads, and releases what it opened. -/
def procfs : Machine ProcFs ProcAct where
  init := .init
  guard := fun s a => match a with
    | .sys _ => true
    | .elevatorOpen n _ => (s.sessions n).isNone
    | .elevatorRead n => (s.sessions n).isSome
    | .elevatorRelease n => (s.sessions n).isSome
  exec := procExec

/-! ## What a reader may expect -/

/-- First reads returned the report of the building at the reader's own open, second reads returned
    0; no buffer was read once freed; and every buffer was freed by the release of the session it
    was allocated for, once. -/
structure Record (s : ProcFs) : Prop where
  first : ∀ r ∈ s.reads, r.session.reads = 0 →
    ∀ junk, r.result = cstring (printStats r.session.b junk).2
  second : ∀ r ∈ s.reads, r.session.reads = 1 → r.result = []
  live : ∀ r ∈ s.reads, r.live = true
  matched : ∀ f ∈ s.frees, f.buf = f.session.buf
  unfreed : ∀ n se, s.sessions n = some se → se.buf ∉ s.freed
  once : ∀ buf < s.heap.length, (∀ n se, s.sessions n = some se → se.buf ≠ buf) →
    s.freed.count buf = 1

/-- So far the readers got what they may expect, and their next calls return. -/
structure Served (s : ProcFs) : Prop extends Record s where
  returns : ∀ n, (s.sessions n).isSome = true → (procExec s (.elevatorRead n)).isSome = true ∧
    (procExec s (.elevatorRelease n)).isSome = true

/-- Every open of the schedule finds the file closed. -/
def NeverOverlap (acts : List ProcAct) : Prop :=
  ∀ pre n junk s, pre ++ [.elevatorOpen n junk] <+: acts → procfs.run pre = some s →
    ∀ m, s.sessions m = none

/-! ## What one step can do -/

inductive ProcStep (s : ProcFs) : ProcAct → ProcFs → Prop
  | sys {a : Act} {sys : Sys} : system.step s.sys a = some sys →
      ProcStep s (.sys a) { s with sys := sys }
  | opened {n : Nat} {junk : Block} : s.sessions n = none →
      ProcStep s (.elevatorOpen n (some junk)) { s with
        readP := 1
        message := some s.heap.length
        heap := s.heap ++ [(printStats s.sys.b junk.1).2]
        sessions := update s.sessions n (some ⟨s.sys.b, s.heap.length, 0⟩) }
  /-- A read that copies the string in `message`. -/
  | copied {n : Nat} {se : Session} {buf : Nat} {text : List Char} : s.sessions n = some se →
      s.readP ≠ 0 → s.message = some buf → s.heap[buf]? = some text →
      ProcStep s (.elevatorRead n) { s with
        readP := 0
        sessions := update s.sessions n (some { se with reads := se.reads + 1 })
        reads := s.reads ++ [⟨se, cstring text, decide (buf ∉ s.freed)⟩] }
  /-- A read that returns 0. -/
  | ended {n : Nat} {se : Session} : s.sessions n = some se → s.readP = 0 →
      ProcStep s (.elevatorRead n) { s with
        readP := 1
        sessions := update s.sessions n (some { se with reads := se.reads + 1 })
        reads := s.reads ++ [⟨se, [], true⟩] }
  | released {n : Nat} {se : Session} : s.sessions n = some se →
      ProcStep s (.elevatorRelease n) { s with
        sessions := update s.sessions n none
        frees := s.frees ++ (s.message.map fun buf => ⟨se, buf⟩).toList }

/-- A read, case by case: with the flag down it raises it and ends the file, and with the flag up
    it lowers it and hands out the text of the current block. -/
theorem elevatorRead_eq_some {s : ProcFs} {r : ProcFs × List Char × Bool}
    (h : elevatorRead s = some r) :
    (s.readP = 0 ∧ r = ({ s with readP := 1 }, [], true)) ∨
    (s.readP ≠ 0 ∧ ∃ buf text, s.message = some buf ∧ s.heap[buf]? = some text ∧
      r = ({ s with readP := 0 }, cstring text, decide (buf ∉ s.freed))) := by
  unfold elevatorRead at h
  by_cases hp : s.readP = 0
  · simp only [hp, if_true] at h
    exact Or.inl ⟨hp, (Option.some.inj h).symm⟩
  · simp only [hp, if_false] at h
    refine Or.inr ⟨hp, ?_⟩
    obtain ⟨buf, hbuf, h⟩ := Option.bind_eq_some_iff.mp h
    obtain ⟨text, htext, h⟩ := Option.bind_eq_some_iff.mp h
    exact ⟨buf, text, hbuf, htext, (Option.some.inj h).symm⟩

theorem proc_step {s s' : ProcFs} {a : ProcAct} (h : procfs.step s a = some s') :
    ProcStep s a s' := by
  obtain ⟨hg, he⟩ := Machine.step_eq_some.mp h
  cases a with
  | sys a =>
    obtain ⟨sys, hsys, rfl⟩ := Option.map_eq_some_iff.mp he
    exact .sys hsys
  | elevatorOpen n junk =>
    have hn : s.sessions n = none := Option.isNone_iff_eq_none.mp hg
    cases junk with
    | none => exact absurd he (by simp [procfs, procExec, elevatorOpen])
    | some junk =>
      rw [← Option.some.inj he]
      exact .opened hn
  | elevatorRead n =>
    obtain ⟨se, hse, he⟩ := Option.bind_eq_some_iff.mp he
    obtain ⟨r, hr, he⟩ := Option.bind_eq_some_iff.mp he
    rw [← Option.some.inj he]
    rcases elevatorRead_eq_some hr with ⟨hp, rfl⟩ | ⟨hp, buf, text, hbuf, htext, rfl⟩
    · exact .ended hse hp
    · exact .copied hse hp hbuf htext
  | elevatorRelease n =>
    obtain ⟨se, hse, he⟩ := Option.bind_eq_some_iff.mp he
    rw [← Option.some.inj he]
    exact .released hse

/-! ## Every run -/

/-- Buffers in use are allocated, and `message` is one of them as long as somebody reads. -/
structure Backed (s : ProcFs) : Prop where
  message : ∀ n se, s.sessions n = some se → ∃ buf, s.message = some buf ∧ buf < s.heap.length
  sessions : ∀ n se, s.sessions n = some se → se.buf < s.heap.length
  frees : ∀ buf ∈ s.freed, buf < s.heap.length

/-- Sessions after one of them has changed: that one is what it was made, and any other is as it
    was. -/
theorem session_cases {f : Nat → Option Session} {n m : Nat} {o : Option Session} {se : Session}
    (h : update f n o m = some se) : (m = n ∧ o = some se) ∨ (m ≠ n ∧ f m = some se) := by
  by_cases hm : m = n
  · rw [hm, update_self] at h
    exact Or.inl ⟨hm, h⟩
  · rw [update_of_ne hm] at h
    exact Or.inr ⟨hm, h⟩

/-- A read counts in its session, and changes nothing else of it; its block is still there. -/
theorem Backed.read {s : ProcFs} (h : Backed s) {n : Nat} {se : Session}
    (hse : s.sessions n = some se) (readP : Int) (reads : List ReadEvent) :
    Backed { s with
      readP := readP
      sessions := update s.sessions n (some { se with reads := se.reads + 1 })
      reads := reads } := by
  refine ⟨?_, ?_, h.frees⟩
  · intro m se' _
    exact h.message n se hse
  · intro m se' hm
    rcases session_cases hm with ⟨_, heq⟩ | ⟨_, hm⟩
    · rw [← Option.some.inj heq]
      exact h.sessions n se hse
    · exact h.sessions m se' hm

/-- Whoever is in a session has a block of memory, and it is not freed: an open allocates, and
    only the close of the session frees. -/
theorem ProcStep.backed {s s' : ProcFs} {a : ProcAct} (h : Backed s) (hst : ProcStep s a s') :
    Backed s' := by
  cases hst with
  | sys => exact ⟨h.message, h.sessions, h.frees⟩
  | opened =>
    have hlen : ∀ {k}, k < s.heap.length → ∀ text, k < (s.heap ++ [text]).length := by
      intro k hk text
      rw [List.length_append]
      exact Nat.lt_add_right _ hk
    refine ⟨fun m se _ => ⟨s.heap.length, rfl, by simp⟩, ?_,
      fun buf hbuf => hlen (h.frees buf hbuf) _⟩
    intro m se hm
    rcases session_cases hm with ⟨_, heq⟩ | ⟨_, hm⟩
    · rw [← Option.some.inj heq]
      simp
    · exact hlen (h.sessions m se hm) _
  | copied hse => exact h.read hse 0 _
  | ended hse => exact h.read hse 1 _
  | @released n se hse =>
    obtain ⟨buf, hbuf, hlt⟩ := h.message n se hse
    have hold : ∀ m se', update s.sessions n none m = some se' → s.sessions m = some se' := by
      intro m se' hm
      rcases session_cases hm with ⟨_, heq⟩ | ⟨_, hm⟩
      · exact absurd heq (by simp)
      · exact hm
    refine ⟨fun m se' hm => h.message m se' (hold m se' hm),
      fun m se' hm => h.sessions m se' (hold m se' hm), ?_⟩
    intro k hk
    rw [hbuf] at hk
    simp only [ProcFs.freed, Option.map_some, Option.toList_some, List.map_append, List.map_cons,
      List.map_nil, List.mem_append, List.mem_singleton] at hk
    rcases hk with hk | rfl
    · exact h.frees k hk
    · exact hlt

theorem Backed.reachable {s : ProcFs} (h : procfs.Reachable s) : Backed s := by
  refine Machine.Reachable.induct (M := procfs) ?_ ?_ h
  · exact ⟨fun _ _ h => absurd h (by simp [procfs, ProcFs.init]),
      fun _ _ h => absurd h (by simp [procfs, ProcFs.init]),
      fun _ h => absurd h (by simp [procfs, ProcFs.init, ProcFs.freed])⟩
  · intro s a s' _ hs hst
    exact (proc_step hst).backed hs

/-- The calls of a reader that has the file open return: there is a block to read, and one to
    free. -/
theorem Backed.returns {s : ProcFs} (h : Backed s) (n : Nat) (hn : (s.sessions n).isSome = true) :
    (procExec s (.elevatorRead n)).isSome = true ∧
      (procExec s (.elevatorRelease n)).isSome = true := by
  obtain ⟨se, hse⟩ := Option.isSome_iff_exists.mp hn
  obtain ⟨buf, hbuf, hlt⟩ := h.message n se hse
  have htext : s.heap[buf]? = some s.heap[buf] := List.getElem?_eq_getElem hlt
  constructor
  · by_cases hp : s.readP = 0 <;> simp [procExec, elevatorRead, hse, hp, hbuf, htext]
  · simp [procExec, hse]

/-! ## One reader at a time -/

/-- Reader `n` has the file to itself: `message` is its buffer, with its report, and `read_p` says
    whether it has read an even number of times. -/
structure Solo (s : ProcFs) (n : Nat) (se : Session) : Prop where
  here : s.sessions n = some se
  others : ∀ m, m ≠ n → s.sessions m = none
  message : s.message = some se.buf
  text : ∃ text, s.heap[se.buf]? = some text ∧
    ∀ junk, cstring text = cstring (printStats se.b junk).2
  flag : s.readP = if se.reads % 2 = 0 then 1 else 0

/-- Whoever has the file open is the one reader, so what is known of the one is known of all. -/
theorem Solo.unique {s : ProcFs} {n m : Nat} {se se' : Session} (h : Solo s n se)
    (hm : s.sessions m = some se') : m = n ∧ se = se' := by
  have hmn : m = n := by
    by_contra hne
    rw [h.others m hne] at hm
    exact absurd hm (by simp)
  refine ⟨hmn, ?_⟩
  rw [hmn, h.here] at hm
  exact Option.some.inj hm

theorem Solo.opened {s : ProcFs} (hnone : ∀ m, s.sessions m = none) (n : Nat) (junk : Block) :
    Solo { s with
      readP := 1
      message := some s.heap.length
      heap := s.heap ++ [(printStats s.sys.b junk.1).2]
      sessions := update s.sessions n (some ⟨s.sys.b, s.heap.length, 0⟩) }
      n ⟨s.sys.b, s.heap.length, 0⟩ where
  here := update_self ..
  others m hm := (update_of_ne hm ..).trans (hnone m)
  message := rfl
  text := by
    refine ⟨(printStats s.sys.b junk.1).2, List.getElem?_concat_length .., fun junk' => ?_⟩
    rw [cstring_printStats, cstring_printStats]
  flag := rfl

theorem Solo.read {s : ProcFs} {n : Nat} {se : Session} (h : Solo s n se) {readP : Int}
    (hflag : readP = if (se.reads + 1) % 2 = 0 then 1 else 0) (reads : List ReadEvent) :
    Solo { s with
      readP := readP
      sessions := update s.sessions n (some { se with reads := se.reads + 1 })
      reads := reads } n { se with reads := se.reads + 1 } where
  here := update_self ..
  others m hm := (update_of_ne hm ..).trans (h.others m hm)
  message := h.message
  text := h.text
  flag := hflag

theorem Record.opened {s : ProcFs} (h : Record s) (hb : Backed s)
    (hnone : ∀ m, s.sessions m = none) (n : Nat) (junk : Block) :
    Record { s with
      readP := 1
      message := some s.heap.length
      heap := s.heap ++ [(printStats s.sys.b junk.1).2]
      sessions := update s.sessions n (some ⟨s.sys.b, s.heap.length, 0⟩) } := by
  refine ⟨h.first, h.second, h.live, h.matched, ?_, ?_⟩
  · intro m se hm hfreed
    rcases session_cases hm with ⟨_, heq⟩ | ⟨_, hm⟩
    · rw [← Option.some.inj heq] at hfreed
      exact Nat.lt_irrefl _ (hb.frees _ hfreed)
    · exact h.unfreed m se hm hfreed
  · intro buf hbuf hno
    have hne : s.heap.length ≠ buf := hno n _ (update_self ..)
    have hlt : buf < s.heap.length := by
      have hbuf' : buf < s.heap.length + 1 := by simpa using hbuf
      omega
    refine h.once buf hlt fun m se hm => ?_
    rw [hnone m] at hm
    exact absurd hm (by simp)

/-- A read that returns what its place in the session asks for: the report, and then nothing. -/
theorem Record.read {s : ProcFs} (h : Record s) {n : Nat} {se : Session}
    (hse : s.sessions n = some se) (readP : Int) {r : ReadEvent}
    (hfirst : r.session.reads = 0 → ∀ junk, r.result = cstring (printStats r.session.b junk).2)
    (hsecond : r.session.reads = 1 → r.result = []) (hlive : r.live = true) :
    Record { s with
      readP := readP
      sessions := update s.sessions n (some { se with reads := se.reads + 1 })
      reads := s.reads ++ [r] } := by
  have hall : ∀ P : ReadEvent → Prop, (∀ x ∈ s.reads, P x) → P r → ∀ x ∈ s.reads ++ [r], P x := by
    intro P hold hr
    exact List.forall_mem_append.mpr ⟨hold, List.forall_mem_singleton.mpr hr⟩
  refine ⟨hall _ h.first hfirst, hall _ h.second hsecond, hall _ h.live hlive, h.matched, ?_, ?_⟩
  · intro m se' hm
    rcases session_cases hm with ⟨_, heq⟩ | ⟨_, hm⟩
    · rw [← Option.some.inj heq]
      exact h.unfreed n se hse
    · exact h.unfreed m se' hm
  · intro buf hbuf hno
    refine h.once buf hbuf fun m se' hm => ?_
    by_cases hmn : m = n
    · rw [hmn, hse] at hm
      rw [← Option.some.inj hm]
      exact hno n { se with reads := se.reads + 1 } (update_self ..)
    · exact hno m se' (by rw [← hm]; exact update_of_ne hmn ..)

/-- A close frees the block of its own session, which nobody has freed before: a block belongs to
    one session. -/
theorem Record.released {s : ProcFs} (h : Record s) {n : Nat} {se : Session} (hs : Solo s n se) :
    Record { s with
      sessions := update s.sessions n none
      frees := s.frees ++ [⟨se, se.buf⟩] } := by
  have hnone : ∀ m, update s.sessions n none m = none := by
    intro m
    by_cases hm : m = n
    · rw [hm, update_self]
    · rw [update_of_ne hm]
      exact hs.others m hm
  refine ⟨h.first, h.second, h.live, ?_, ?_, ?_⟩
  · exact List.forall_mem_append.mpr ⟨h.matched, List.forall_mem_singleton.mpr rfl⟩
  · intro m se' hm
    have hm' : update s.sessions n none m = some se' := hm
    rw [hnone m] at hm'
    exact absurd hm' (by simp)
  · intro buf hbuf _
    show ((s.frees ++ [(⟨se, se.buf⟩ : FreeEvent)]).map FreeEvent.buf).count buf = 1
    rw [List.map_append, List.count_append]
    by_cases hbuf' : se.buf = buf
    · have hzero : s.freed.count buf = 0 :=
        List.count_eq_zero.mpr (hbuf' ▸ h.unfreed n se hs.here)
      rw [show (s.frees.map FreeEvent.buf).count buf = 0 from hzero]
      simp [hbuf']
    · have hone : s.freed.count buf = 1 := by
        refine h.once buf hbuf fun m se' hm => ?_
        rw [← (hs.unique hm).2]
        exact hbuf'
      rw [show (s.frees.map FreeEvent.buf).count buf = 1 from hone]
      simp [hbuf']

/-- In order: the record so far, and nobody reading or one reader alone. -/
structure Orderly (s : ProcFs) : Prop where
  record : Record s
  alone : (∀ m, s.sessions m = none) ∨ ∃ n se, Solo s n se

/-- **One step.**  Everything stays in order as long as a session is opened only when there is no
    other. -/
theorem ProcStep.orderly {s s' : ProcFs} {a : ProcAct} (h : Orderly s) (hb : Backed s)
    (hst : ProcStep s a s')
    (hopen : ∀ n junk, a = .elevatorOpen n junk → ∀ m, s.sessions m = none) : Orderly s' := by
  have hsolo : ∀ {n se}, s.sessions n = some se → Solo s n se := by
    intro n se hse
    rcases h.alone with hnone | ⟨n', se', hs⟩
    · rw [hnone n] at hse
      exact absurd hse (by simp)
    · obtain ⟨rfl, rfl⟩ := hs.unique hse
      exact hs
  cases hst with
  | sys =>
    obtain ⟨h1, h2, h3, h4, h5, h6⟩ := h.record
    refine ⟨⟨h1, h2, h3, h4, h5, h6⟩, h.alone.imp id ?_⟩
    rintro ⟨n, se, hs⟩
    exact ⟨n, se, hs.here, hs.others, hs.message, hs.text, hs.flag⟩
  | @opened n junk =>
    have hnone := hopen n (some junk) rfl
    exact ⟨h.record.opened hb hnone n junk, Or.inr ⟨n, _, Solo.opened hnone n junk⟩⟩
  | @copied n se buf text hse hp hbuf htext =>
    have hs := hsolo hse
    -- `read_p` is set, so the number of reads is even
    have heven : se.reads % 2 = 0 := by
      by_contra hodd
      rw [hs.flag, if_neg hodd] at hp
      exact hp rfl
    obtain rfl : se.buf = buf := Option.some.inj (hs.message.symm.trans hbuf)
    obtain ⟨text', htext', hprint⟩ := hs.text
    obtain rfl : text' = text := Option.some.inj (htext'.symm.trans htext)
    refine ⟨h.record.read hse 0 (fun _ => hprint) ?_ ?_, Or.inr ⟨n, _, hs.read ?_ _⟩⟩
    · intro hone
      have hone' : se.reads = 1 := hone
      omega
    · exact decide_eq_true (h.record.unfreed n se hse)
    · rw [if_neg (by omega)]
  | @ended n se hse hp =>
    have hs := hsolo hse
    have hodd : se.reads % 2 ≠ 0 := by
      intro heven
      rw [hs.flag, if_pos heven] at hp
      exact absurd hp (by decide)
    refine ⟨h.record.read hse 1 ?_ (fun _ => rfl) rfl, Or.inr ⟨n, _, hs.read ?_ _⟩⟩
    · intro hzero
      have hzero' : se.reads = 0 := hzero
      omega
    · rw [if_pos (by omega)]
  | @released n se hse =>
    have hs := hsolo hse
    have hown : (s.message.map fun buf => (⟨se, buf⟩ : FreeEvent)).toList = [⟨se, se.buf⟩] := by
      rw [hs.message]
      rfl
    rw [hown]
    refine ⟨h.record.released hs, Or.inl fun m => ?_⟩
    show update s.sessions n none m = none
    by_cases hm : m = n
    · rw [hm, update_self]
    · rw [update_of_ne hm]
      exact hs.others m hm

/-- All along a schedule in which sessions never overlap, everything is in order: whoever has the
    file open has it alone. -/
theorem orderly_run {acts : List ProcAct} (h : NeverOverlap acts) :
    ∀ pre s, pre <+: acts → procfs.run pre = some s → Orderly s := by
  refine Machine.prefix_invariant (M := procfs) ?_ ?_
  · refine ⟨⟨?_, ?_, ?_, ?_, ?_, ?_⟩, Or.inl fun _ => rfl⟩
    all_goals simp [procfs, ProcFs.init, ProcFs.freed]
  · intro pre a s s' hpre hrun hs hst
    have hb := Backed.reachable (Machine.reachable_iff_run.mpr ⟨pre, hrun⟩)
    apply (proc_step hst).orderly hs hb
    rintro n junk rfl
    exact h pre n junk s hpre hrun

/-! ## Overlapping sessions -/

/-- A release has freed somebody else's buffer, or is going to: a reader has the file open, and
    `message` has moved on. -/
def Adrift (s : ProcFs) : Prop :=
  (∃ f ∈ s.frees, f.buf ≠ f.session.buf) ∨ ∃ n se, s.sessions n = some se ∧ s.message ≠ some se.buf

/-- An open beside another session takes its block away from it: from now on somebody is adrift
    ... -/
theorem Adrift.opened {s : ProcFs} (hb : Backed s) {n m : Nat} {se : Session}
    (hm : s.sessions m = some se) (hn : s.sessions n = none) (junk : Block) :
    Adrift { s with
      readP := 1
      message := some s.heap.length
      heap := s.heap ++ [(printStats s.sys.b junk.1).2]
      sessions := update s.sessions n (some ⟨s.sys.b, s.heap.length, 0⟩) } := by
  have hmn : m ≠ n := by
    rintro rfl
    rw [hn] at hm
    exact absurd hm (by simp)
  refine Or.inr ⟨m, se, (update_of_ne hmn ..).trans hm, fun heq => ?_⟩
  have hlt := hb.sessions m se hm
  have hlen : s.heap.length = se.buf := Option.some.inj heq
  omega

/-- ... which no read puts right. -/
theorem Adrift.read {s : ProcFs} (h : Adrift s) {n : Nat} {se : Session}
    (hse : s.sessions n = some se) (readP : Int) (reads : List ReadEvent) :
    Adrift { s with
      readP := readP
      sessions := update s.sessions n (some { se with reads := se.reads + 1 })
      reads := reads } := by
  rcases h with hfree | ⟨m, se', hm, hne⟩
  · exact Or.inl hfree
  · by_cases hmn : m = n
    · subst hmn
      obtain rfl : se = se' := Option.some.inj (hse.symm.trans hm)
      exact Or.inr ⟨m, { se with reads := se.reads + 1 }, update_self .., hne⟩
    · exact Or.inr ⟨m, se', (update_of_ne hmn ..).trans hm, hne⟩

/-- Once adrift, always adrift: the block that was lost is not found again by any later step. -/
theorem ProcStep.adrift {s s' : ProcFs} {a : ProcAct} (h : Adrift s) (hb : Backed s)
    (hst : ProcStep s a s') : Adrift s' := by
  cases hst with
  | sys => exact h
  | @opened n junk hn =>
    rcases h with hfree | ⟨m, se, hm, _⟩
    · exact Or.inl hfree
    · exact Adrift.opened hb hm hn junk
  | copied hse => exact h.read hse 0 _
  | ended hse => exact h.read hse 1 _
  | @released n se hse =>
    rcases h with ⟨f, hf, hne⟩ | ⟨m, se', hm, hne⟩
    · exact Or.inl ⟨f, List.mem_append_left _ hf, hne⟩
    · by_cases hmn : m = n
      · -- this is the release that frees the wrong buffer
        subst hmn
        obtain rfl : se = se' := Option.some.inj (hse.symm.trans hm)
        obtain ⟨buf, hbuf, _⟩ := hb.message m se hse
        refine Or.inl ⟨⟨se, buf⟩, List.mem_append_right _ ?_, fun heq => hne ?_⟩
        · rw [hbuf]
          exact List.mem_cons_self
        · rw [hbuf]
          exact congrArg some heq
      · exact Or.inr ⟨m, se', (update_of_ne hmn ..).trans hm, hne⟩

/-- Nothing has overlapped yet. -/
theorem neverOverlap_nil : NeverOverlap [] := fun pre _ _ _ hpre =>
  absurd (List.prefix_nil.mp hpre) (by simp)

/-- After an overlap the state is adrift, however the run goes on, so its record or its end shows
    it. -/
theorem adrift_of_overlap {acts : List ProcAct} {s : ProcFs} (hrun : procfs.run acts = some s)
    (h : ¬ NeverOverlap acts) : Adrift s := by
  induction acts using List.reverseRecOn generalizing s with
  | nil => exact absurd neverOverlap_nil h
  | append_singleton acts a ih =>
    rw [Machine.run_concat, Option.bind_eq_some_iff] at hrun
    obtain ⟨t, ht, hst⟩ := hrun
    have hb := Backed.reachable (Machine.reachable_iff_run.mpr ⟨acts, ht⟩)
    by_cases hearlier : NeverOverlap acts
    · -- the last action is the open that finds the file in use
      unfold NeverOverlap at h
      push Not at h
      obtain ⟨pre, n, junk, t', hpre, ht', m, hm⟩ := h
      rcases List.prefix_concat_iff.mp hpre with heq | hpre
      · obtain ⟨rfl, hlast⟩ := List.append_inj' heq rfl
        obtain rfl : t = t' := Option.some.inj (ht.symm.trans ht')
        obtain ⟨se, hse⟩ := Option.ne_none_iff_exists'.mp hm
        have hstep := proc_step hst
        rw [← (List.cons.inj hlast).1] at hstep
        cases hstep with
        | @opened _ junk hn => exact Adrift.opened hb hse hn junk
      · exact absurd (hearlier pre n junk t' hpre ht' m) hm
    · exact (proc_step hst).adrift (ih ht hearlier) hb

/-! ## Readers of `/proc/elevator` -/

/-- **Readers of `/proc/elevator`.**  In every run in which each open finds the file closed, all
    readers are served, in every state along the run: own report first, then 0, every buffer freed
    once, by its own release, and not read after.  And no other run serves its readers to the end:
    once every reader has released the file, they were served only if no two sessions overlapped. -/
theorem readers_served {acts : List ProcAct} {s : ProcFs} (hrun : procfs.run acts = some s) :
    (NeverOverlap acts → ∀ pre t, pre <+: acts → procfs.run pre = some t → Served t) ∧
    ((∀ n, s.sessions n = none) → Served s → NeverOverlap acts) := by
  constructor
  · intro h pre t hpre ht
    have hb := Backed.reachable (Machine.reachable_iff_run.mpr ⟨pre, ht⟩)
    exact ⟨(orderly_run h pre t hpre ht).record, hb.returns⟩
  · intro hclosed hserved
    by_contra h
    rcases adrift_of_overlap hrun h with ⟨f, hf, hne⟩ | ⟨n, se, hse, _⟩
    · exact hne (hserved.matched f hf)
    · rw [hclosed n] at hse
      exact absurd hse (by simp)

/-- A fresh block. -/
def zeroed : Block := ⟨List.replicate entrySize nul, List.length_replicate ..⟩

/-- One reader: the report, the end of the file, and the release. -/
def oneReader : List ProcAct :=
  [.elevatorOpen 0 (some zeroed), .elevatorRead 0, .elevatorRead 0, .elevatorRelease 0]

/-- A bell hop is taken from floor 1 to floor 2. -/
def oneTrip : List ProcAct :=
  [.sys .start, .sys (.request 4 1 2), .sys (.insert ⟨0, .bell, 0, 1⟩), .sys .load, .sys .move,
    .sys .load]

/-- Two readings, one after the other, with a delivery in between. -/
def twoReadings : List ProcAct := oneReader ++ oneTrip ++ oneReader

/-- A schedule with one more open, of a file that is closed by then, still never overlaps. -/
theorem NeverOverlap.openOnce {acts rest : List ProcAct} {n : Nat} {junk : Option Block}
    (h : NeverOverlap acts) (hclosed : ∀ s, procfs.run acts = some s → ∀ m, s.sessions m = none)
    (hrest : ∀ a ∈ rest, ∀ n junk, a ≠ .elevatorOpen n junk) :
    NeverOverlap (acts ++ .elevatorOpen n junk :: rest) := by
  induction rest using List.reverseRecOn with
  | nil =>
    intro pre n' junk' s hpre hrun
    rcases List.prefix_concat_iff.mp hpre with heq | hpre
    · obtain rfl := (List.append_inj' heq rfl).1
      exact hclosed s hrun
    · exact h pre n' junk' s hpre hrun
  | append_singleton rest a ih =>
    intro pre n' junk' s hpre hrun
    rw [← List.cons_append, ← List.append_assoc] at hpre
    rcases List.prefix_concat_iff.mp hpre with heq | hpre
    · have hlast := (List.append_inj' heq rfl).2
      exact absurd (List.cons.inj hlast).1.symm
        (hrest a (List.mem_append_right _ List.mem_cons_self) n' junk')
    · exact ih (fun x hx => hrest x (List.mem_append_left _ hx)) pre n' junk' s hpre hrun

/-- The second session of the schedule is opened after the first is closed. -/
theorem neverOverlap_twoReadings : NeverOverlap twoReadings := by
  have hfirst : NeverOverlap (oneReader ++ oneTrip) := by
    refine neverOverlap_nil.openOnce (fun s hs m => ?_) ?_
    · rw [← Option.some.inj hs]
      rfl
    · simp [oneTrip]
  refine hfirst.openOnce (fun s hs m => ?_) (by simp)
  have hmap : (procfs.run (oneReader ++ oneTrip)).map (fun t => t.sessions m) = some none := by
    cases m <;> rfl
  rw [hs] at hmap
  exact Option.some.inj hmap

/-- Two sessions of two reads each: all four are served as they should be, and both blocks are
    freed. -/
theorem readers_served_twoReadings :
    ∃ s, procfs.run twoReadings = some s ∧ s.reads.length = 4 ∧ s.freed = [0, 1] ∧
      ∀ pre t, pre <+: twoReadings → procfs.run pre = some t → Served t := by
  have hrun := Machine.run_get (M := procfs) twoReadings (by rfl)
  exact ⟨_, hrun, by rfl, by rfl, (readers_served hrun).1 neverOverlap_twoReadings⟩

/-- The second reader opens before the first releases. -/
def overlapping : List ProcAct :=
  [.elevatorOpen 0 (some zeroed), .elevatorOpen 1 (some zeroed), .elevatorRelease 0,
    .elevatorRead 1]

/-- The release of the first reader frees the buffer of the second, which the second then reads. -/
theorem overlapping_readers_not_served :
    ¬ ∀ acts s, procfs.run acts = some s → Served s := by
  intro hall
  have hrun := Machine.run_get (M := procfs) overlapping (by rfl)
  have hlive := (hall overlapping _ hrun).live _ (List.mem_singleton.mpr rfl)
  exact absurd hlive (by decide)

end KernelModules.Part3
