/-
  Reading `/proc/elevator` into buffers of any size.

  A read is told the `size` of the caller's buffer and should fill at most that; a reader with a
  small buffer comes back until a read returns 0.  `elevator_read` looks neither at `size` nor at
  the offset: the first read after an open copies the whole report, the second returns 0, and the
  flag `read_p` is all it knows of the end of the file.

  `reader s` is the machine of one reader that has the file open in the state `s`, reading with any
  positive sizes until a read returns 0 while the module goes on.  `Contract` is what the reader
  relies on.  The bytes it gets are always the whole report, and in two reads; but they fit its
  buffers if and only if the first was large enough for all of it (`read_contract_iff`).
-/
import KernelModules.Part3.ProcFs

namespace KernelModules.Part3

open KernelModules.Lib

/-! ## The reader -/

/-- What a read did: the size asked for, the bytes written to the caller's buffer, and the value
    returned. -/
structure Chunk where
  size : Nat
  bytes : List Char
  ret : Nat
  deriving DecidableEq

/-- The state of the `/proc` file, and the reads so far. -/
structure Reading where
  proc : ProcFs
  chunks : List Chunk

/-- Has a read returned 0? -/
def Reading.ended (r : Reading) : Bool := r.chunks.any fun c => c.ret == 0

/-- What happens next. -/
inductive ReaderAct
  /-- The module takes a step of its own. -/
  | sys (a : Act)
  | read (size : Nat)

/-- The steps.  What `elevator_read` returns is the number of bytes it has written. -/
def readerExec (r : Reading) : ReaderAct → Option Reading
  | .sys a => (system.step r.proc.sys a).map fun sys => { r with
      proc := { r.proc with sys := sys } }
  | .read size => (elevatorRead r.proc).map fun (s, bytes, _) =>
      { proc := s, chunks := r.chunks ++ [⟨size, bytes, bytes.length⟩] }

/-- One reader, with the file open in the state `s`, until the end of the file. -/
def reader (s : ProcFs) : Machine Reading ReaderAct where
  init := ⟨s, []⟩
  guard := fun r a => match a with
    | .sys _ => true
    | .read size => decide (0 < size) && !r.ended
  exec := readerExec

/-- The sizes a schedule asks for. -/
def sizes (acts : List ReaderAct) : List Nat :=
  acts.filterMap fun | .read size => some size | _ => none

/-- No read writes or returns more than its size, and the bytes returned, up to the end of the file,
    are the text. -/
structure Contract (text : List Char) (r : Reading) : Prop where
  within : ∀ c ∈ r.chunks, c.bytes.length ≤ c.size ∧ c.ret ≤ c.size
  whole : r.ended = true → (r.chunks.flatMap fun c => c.bytes.take c.ret) = text

/-! ## What a run can do -/

/-- `message` is a buffer that holds `text`. -/
def Holds (text : List Char) (s : ProcFs) : Prop :=
  ∃ id buf, s.message = some id ∧ s.heap[id]? = some buf ∧ cstring buf = text

/-- How far the reader is: nothing read yet, the text read, or the end of the file seen. -/
inductive Stage (text : List Char) (r : Reading) : Prop
  | fresh : r.chunks = [] → r.proc.readP ≠ 0 → Stage text r
  | copied {n : Nat} : r.chunks = [⟨n, text, text.length⟩] → r.proc.readP = 0 → Stage text r
  | ended {n m : Nat} : r.chunks = [⟨n, text, text.length⟩, ⟨m, [], 0⟩] → Stage text r

/-- With the flag up a read copies the text, however much was asked for; and the flag is down
    after it. -/
theorem elevatorRead_copies {text : List Char} {s : ProcFs} (h : Holds text s) (hp : s.readP ≠ 0) :
    ∃ live, elevatorRead s = some ({ s with readP := 0 }, text, live) := by
  obtain ⟨id, buf, hid, hbuf, rfl⟩ := h
  refine ⟨decide (id ∉ s.freed), ?_⟩
  simp [elevatorRead, hp, hid, hbuf, ProcFs.freed]

theorem elevatorRead_ends {s : ProcFs} (hp : s.readP = 0) :
    elevatorRead s = some ({ s with readP := 1 }, [], true) := by
  simp [elevatorRead, hp]

/-- Along a run the text stays in `message`, the reader gets from one stage to the next, and the
    reads are those of the schedule. -/
structure Progress (text : List Char) (acts : List ReaderAct) (r : Reading) : Prop where
  holds : Holds text r.proc
  stage : Stage text r
  asked : r.chunks.map Chunk.size = sizes acts

/-- A step of the module changes nothing for the reader: the text was printed when the file was
    opened. -/
theorem Progress.sys {text : List Char} {acts : List ReaderAct} {r : Reading}
    (h : Progress text acts r) (a : Act) (sys : Sys) :
    Progress text (acts ++ [.sys a]) { r with proc := { r.proc with sys := sys } } where
  holds := h.holds
  stage := by
    cases h.stage with
    | fresh hnil hp => exact .fresh hnil hp
    | copied hone hp => exact .copied hone hp
    | ended htwo => exact .ended htwo
  asked := by
    rw [sizes, List.filterMap_append]
    exact h.asked.trans (List.append_nil _).symm

/-- **One read.**  The first hands out the whole text, whatever its size; the second ends the
    file. -/
theorem Progress.read {text : List Char} {acts : List ReaderAct} {r r' : Reading} {size : Nat}
    (h : Progress text acts r) (hend : r.ended = false)
    (hst : readerExec r (.read size) = some r') : Progress text (acts ++ [.read size]) r' := by
  have hasked : ∀ bytes : List Char,
      (r.chunks ++ [(⟨size, bytes, bytes.length⟩ : Chunk)]).map Chunk.size
        = sizes (acts ++ [.read size]) := by
    intro bytes
    rw [sizes, List.filterMap_append, List.map_append, h.asked]
    rfl
  cases h.stage with
  | fresh hnil hp =>
    obtain ⟨live, hread⟩ := elevatorRead_copies h.holds hp
    rw [readerExec, hread] at hst
    rw [← Option.some.inj hst]
    refine ⟨h.holds, .copied (n := size) ?_ rfl, hasked text⟩
    show r.chunks ++ _ = _
    rw [hnil]
    rfl
  | @copied n hone hp =>
    rw [readerExec, elevatorRead_ends hp] at hst
    rw [← Option.some.inj hst]
    refine ⟨h.holds, .ended (n := n) (m := size) ?_, hasked []⟩
    show r.chunks ++ _ = _
    rw [hone]
    rfl
  | ended htwo =>
    -- the reader has stopped
    rw [Reading.ended, htwo] at hend
    exact absurd hend (by simp)

theorem Progress.run {s : ProcFs} {text : List Char} (hs : Holds text s) (hp : s.readP ≠ 0)
    {acts : List ReaderAct} {r : Reading} (hrun : (reader s).run acts = some r) :
    Progress text acts r := by
  induction acts using List.reverseRecOn generalizing r with
  | nil =>
    rw [← Option.some.inj hrun]
    exact ⟨hs, .fresh rfl hp, rfl⟩
  | append_singleton acts a ih =>
    rw [Machine.run_concat, Option.bind_eq_some_iff] at hrun
    obtain ⟨t, ht, hst⟩ := hrun
    obtain ⟨hg, he⟩ := Machine.step_eq_some.mp hst
    cases a with
    | sys a =>
      obtain ⟨sys, _, rfl⟩ := Option.map_eq_some_iff.mp he
      exact (ih ht).sys a sys
    | read size =>
      have hend : t.ended = false := by
        have hguard := (Bool.and_eq_true_iff.mp hg).2
        simpa using hguard
      exact (ih ht).read hend he

/-! ## The contract -/

/-- The file ends at the second read, whatever the first was given. -/
theorem Stage.ended_iff {text : List Char} {r : Reading} (h : Stage text r)
    (hpos : 0 < text.length) : r.ended = true ↔ r.chunks.length = 2 := by
  cases h with
  | fresh hnil => simp [Reading.ended, hnil]
  | copied hone =>
    have hne : text ≠ [] := List.ne_nil_of_length_pos hpos
    simp [Reading.ended, hone, hne]
  | ended htwo => simp [Reading.ended, htwo]

/-- The contract is kept exactly when the first read has room for the whole text, if there is a
    read. -/
theorem Progress.contract_iff {text : List Char} {acts : List ReaderAct} {r : Reading}
    (h : Progress text acts r) (hpos : 0 < text.length) :
    Contract text r ↔ ∀ n ∈ (sizes acts).head?, text.length ≤ n := by
  have hended := h.stage.ended_iff hpos
  rw [← h.asked]
  cases h.stage with
  | fresh hnil =>
    rw [hnil] at hended ⊢
    refine ⟨fun _ n hn => absurd hn (by simp), fun _ => ⟨?_, fun hend => ?_⟩⟩
    · rw [hnil]
      exact fun c hc => absurd hc List.not_mem_nil
    · exact absurd (hended.mp hend) (by simp)
  | @copied n hone =>
    rw [hone] at hended ⊢
    constructor
    · intro hc m hm
      obtain rfl : n = m := Option.some.inj hm
      exact (hc.within _ (by rw [hone]; exact List.mem_cons_self)).1
    · intro hn
      have hle := hn n rfl
      refine ⟨?_, fun hend => absurd (hended.mp hend) (by simp)⟩
      rw [hone]
      exact List.forall_mem_singleton.mpr ⟨hle, hle⟩
  | @ended n m htwo =>
    rw [htwo]
    constructor
    · intro hc k hk
      obtain rfl : n = k := Option.some.inj hk
      exact (hc.within _ (by rw [htwo]; exact List.mem_cons_self)).1
    · intro hn
      have hle := hn n rfl
      constructor
      · rw [htwo]
        exact List.forall_mem_cons.mpr
          ⟨⟨hle, hle⟩, List.forall_mem_singleton.mpr ⟨Nat.zero_le _, Nat.zero_le _⟩⟩
      · intro _
        rw [htwo]
        simp

/-- An open leaves its report in `message`, to be read from the start, with the flag up. -/
theorem elevatorOpen_holds {s s' : ProcFs} {junk : Block}
    (hopen : elevatorOpen s (some junk) = some s') :
    Holds (report s.sys.b) s' ∧ s'.readP ≠ 0 := by
  rw [← Option.some.inj hopen]
  exact ⟨⟨s.heap.length, _, rfl, List.getElem?_concat_length, cstring_printStats _ _⟩,
    Int.one_ne_zero⟩

/-- **Reading with any sizes.**  A single reader opens the file and reads with any positive sizes
    until a read returns 0, the module doing what it will in between.  Every read returns, and the
    second ends the file; and the contract of `read` is kept if and only if the first size is at
    least the length of the report taken at the open. -/
theorem read_contract_iff {s s' : ProcFs} {junk : Block}
    (hopen : elevatorOpen s (some junk) = some s') {acts : List ReaderAct} {r : Reading}
    (hrun : (reader s').run acts = some r) :
    (Contract (cstring (printStats s.sys.b junk.1).2) r ↔
      ∀ n ∈ (sizes acts).head?, (printStats s.sys.b junk.1).1 ≤ n) ∧
    (∀ size, (reader s').guard r (.read size) = true →
      (readerExec r (.read size)).isSome = true) ∧
    (r.ended = true ↔ r.chunks.length = 2) := by
  have hlen : (printStats s.sys.b junk.1).1 = (report s.sys.b).length := by rw [printStats_eq]
  have hpos := report_length_pos s.sys.b
  rw [cstring_printStats, hlen]
  obtain ⟨hs, hp⟩ := elevatorOpen_holds hopen
  have h := Progress.run hs hp hrun
  refine ⟨h.contract_iff hpos, ?_, h.stage.ended_iff hpos⟩
  intro size _
  rw [readerExec, Option.isSome_map]
  by_cases hread : r.proc.readP = 0
  · rw [elevatorRead_ends hread]
    rfl
  · obtain ⟨live, hcopy⟩ := elevatorRead_copies h.holds hread
    rw [hcopy]
    rfl

/-- The file opened in the module just loaded. -/
def firstOpen : ProcFs := (elevatorOpen .init (some zeroed)).get rfl

/-- A reader with room for everything. -/
def largeBuffer : List ReaderAct := [.read 1024, .sys .start, .read 1]

/-- A reader whose buffer is large enough reads to the end, and gets what it should. -/
theorem read_contract_iff_largeBuffer :
    ∃ r, elevatorOpen .init (some zeroed) = some firstOpen ∧
      (reader firstOpen).run largeBuffer = some r ∧ r.ended = true ∧
      Contract (cstring (printStats Sys.init.b zeroed.1).2) r := by
  have hopen : elevatorOpen .init (some zeroed) = some firstOpen := rfl
  have hrun := Machine.run_get (M := reader firstOpen) largeBuffer (by decide +kernel)
  have h := read_contract_iff hopen hrun
  refine ⟨_, hopen, hrun, h.2.2.mpr (by decide +kernel), h.1.mpr ?_⟩
  intro n hn
  obtain rfl : 1024 = n := Option.some.inj hn
  decide +kernel

/-- A reader with room for one byte. -/
def smallBuffer : List ReaderAct := [.read 1, .read 1]

/-- **The overrun.**  A reader who asks for less than the text gets all of it, past the end of the
    buffer. -/
theorem small_buffer_overrun :
    ¬ ∀ s s' junk acts r, elevatorOpen s (some junk) = some s' →
      (reader s').run acts = some r → Contract (cstring (printStats s.sys.b junk.1).2) r := by
  intro hall
  have hopen : elevatorOpen .init (some zeroed) = some firstOpen := rfl
  have hrun := Machine.run_get (M := reader firstOpen) smallBuffer (by decide +kernel)
  have hcontract := hall _ _ zeroed smallBuffer _ hopen hrun
  rw [cstring_printStats] at hcontract
  obtain ⟨hs, hp⟩ := elevatorOpen_holds hopen
  have hfits := ((Progress.run hs hp hrun).contract_iff (report_length_pos _)).mp hcontract 1 rfl
  exact absurd hfits (by decide +kernel)

end KernelModules.Part3
