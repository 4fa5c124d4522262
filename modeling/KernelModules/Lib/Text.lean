/-
  Text as a C program writes it: decimal numbers, `printf` formats, NUL-terminated buffers — and
  readers that take it apart again.

  * `decimal v`         — what `%d` prints, with the bound `decimal_length_le` on its length;
  * `format fmt args`   — a format string with `%d` and `%s`, filled in; `formatLu` is the same for
                          `%lu`, whose numbers are 64-bit words;
  * `sprintfAt`         — writing a text and its NUL into a buffer at an offset; `cstring` is the
                          text a buffer holds up to its first NUL;
  * `Reader`            — a reader takes what it understands off the front of a text.

  The one fact behind every round trip is `number_decimal`: a number can be read back from the
  front of a text as long as what FOLLOWS it does not start with a digit (`Stops`).  So a format
  that puts a literal after each of its numbers can be read back, whatever the values.
-/
import Mathlib.Algebra.Order.Ring.Int
import Mathlib.Data.List.TakeWhile

namespace KernelModules.Lib

/-! ## Printing -/

/-- `%d`. -/
def decimal : Int → List Char
  | .ofNat n => Nat.toDigits 10 n
  | .negSucc n => '-' :: Nat.toDigits 10 (n + 1)

/-- An argument of a format. -/
inductive Arg
  | d (v : Int)
  | s (t : List Char)

/-- What an argument prints as. -/
def Arg.text : Arg → List Char
  | .d v => decimal v
  | .s t => t

/-- A format string, filled in with its arguments. -/
def format : List Char → List Arg → List Char
  | '%' :: 'd' :: fmt, .d v :: args => decimal v ++ format fmt args
  | '%' :: 's' :: fmt, .s t :: args => t ++ format fmt args
  | c :: fmt, args => c :: format fmt args
  | [], _ => []

/-- `%lu`, an `unsigned long` having 64 bits. -/
def unsigned (v : BitVec 64) : List Char := Nat.toDigits 10 v.toNat

/-- A format string whose conversions are all `%lu`, filled in with its arguments. -/
def formatLu : List Char → List (BitVec 64) → List Char
  | '%' :: 'l' :: 'u' :: fmt, v :: args => unsigned v ++ formatLu fmt args
  | c :: fmt, args => c :: formatLu fmt args
  | [], _ => []

/-- A number of at most `k` digits prints in at most `k + 1` characters, the one more being the
    sign. -/
theorem decimal_length_le {v : Int} {k : Nat} (hk : 0 < k) (hlo : -(10 ^ k : Nat) < v)
    (hhi : v < (10 ^ k : Nat)) : (decimal v).length ≤ k + 1 := by
  cases v with
  | ofNat n =>
    have hn : n < 10 ^ k := Int.ofNat_lt.mp hhi
    exact Nat.le_succ_of_le ((Nat.length_toDigits_le_iff (by decide) hk).mpr hn)
  | negSucc n =>
    have hn : n + 1 < 10 ^ k := by
      rw [Int.negSucc_eq] at hlo
      omega
    exact Nat.succ_le_succ ((Nat.length_toDigits_le_iff (by decide) hk).mpr hn)

/-- A number prints as digits, after a sign at most. -/
theorem mem_decimal {v : Int} {c : Char} (h : c ∈ decimal v) : c = '-' ∨ c.isDigit = true := by
  cases v with
  | ofNat n => exact Or.inr (Nat.isDigit_of_mem_toDigits (by decide) (by decide) h)
  | negSucc n =>
    rcases List.mem_cons.mp h with rfl | hd
    · exact Or.inl rfl
    · exact Or.inr (Nat.isDigit_of_mem_toDigits (by decide) (by decide) hd)

/-- A number below a power of ten has no more digits than that. -/
theorem unsigned_length_le {v : BitVec 64} {k : Nat} (hk : 0 < k) (hv : v.toNat < 10 ^ k) :
    (unsigned v).length ≤ k :=
  (Nat.length_toDigits_le_iff (by decide) hk).mpr hv

theorem isDigit_of_mem_unsigned {v : BitVec 64} {c : Char} (h : c ∈ unsigned v) :
    c.isDigit = true :=
  Nat.isDigit_of_mem_toDigits (by decide) (by decide) h

/-- Filling in a format adds at most the texts of the arguments, whatever conversions stand in
    it. -/
theorem format_length_le (fmt : List Char) (args : List Arg) :
    (format fmt args).length ≤ fmt.length + (args.map fun a => a.text.length).sum := by
  fun_induction format fmt args with
  | case1 fmt v args ih =>
    have htext : (Arg.d v).text = decimal v := rfl
    simp only [List.length_append, List.length_cons, List.map_cons, List.sum_cons, htext]
    omega
  | case2 fmt t args ih =>
    have htext : (Arg.s t).text = t := rfl
    simp only [List.length_append, List.length_cons, List.map_cons, List.sum_cons, htext]
    omega
  | case3 c fmt args _ _ ih =>
    simp only [List.length_cons]
    omega
  | case4 args => exact Nat.zero_le _

/-- Every character of a filled-in format is one of the format or of an argument; a conversion
    leaves none of its own. -/
theorem mem_format {c : Char} {fmt : List Char} {args : List Arg} (h : c ∈ format fmt args) :
    c ∈ fmt ∨ ∃ a ∈ args, c ∈ a.text := by
  fun_induction format fmt args with
  | case1 fmt v args ih =>
    rcases List.mem_append.mp h with hv | hrest
    · exact Or.inr ⟨.d v, List.mem_cons_self, hv⟩
    · rcases ih hrest with hfmt | ⟨a, ha, hc⟩
      · exact Or.inl (List.mem_cons_of_mem _ (List.mem_cons_of_mem _ hfmt))
      · exact Or.inr ⟨a, List.mem_cons_of_mem _ ha, hc⟩
  | case2 fmt t args ih =>
    rcases List.mem_append.mp h with ht | hrest
    · exact Or.inr ⟨.s t, List.mem_cons_self, ht⟩
    · rcases ih hrest with hfmt | ⟨a, ha, hc⟩
      · exact Or.inl (List.mem_cons_of_mem _ (List.mem_cons_of_mem _ hfmt))
      · exact Or.inr ⟨a, List.mem_cons_of_mem _ ha, hc⟩
  | case3 d fmt args _ _ ih =>
    rcases List.mem_cons.mp h with rfl | hrest
    · exact Or.inl List.mem_cons_self
    · rcases ih hrest with hfmt | harg
      · exact Or.inl (List.mem_cons_of_mem _ hfmt)
      · exact Or.inr harg
  | case4 args => exact absurd h List.not_mem_nil

/-! ## Buffers -/

/-- The character that ends a string. -/
def nul : Char := Char.ofNat 0

/-- `sprintf(buf + len, ...)`, `text` being the filled-in format: the text and its NUL replace
    what the buffer had there.  A buffer that comes out LONGER was overrun. -/
def sprintfAt (buf : List Char) (len : Nat) (text : List Char) : List Char :=
  buf.take len ++ text ++ nul :: buf.drop (len + text.length + 1)

/-- The string in a buffer. -/
def cstring (buf : List Char) : List Char := buf.takeWhile fun c => c ≠ nul

/-- `strlen`. -/
def strlen (buf : List Char) : Nat := (cstring buf).length

theorem nul_not_mem_decimal (v : Int) : nul ∉ decimal v := by
  intro h
  rcases mem_decimal h with h | h
  · exact absurd h (by decide)
  · exact absurd h (by decide)

theorem nul_not_mem_unsigned (v : BitVec 64) : nul ∉ unsigned v := by
  intro h
  exact absurd (isDigit_of_mem_unsigned h) (by decide)

/-- A format has no NUL if its arguments have none. -/
theorem nul_not_mem_format {fmt : List Char} {args : List Arg} (hfmt : nul ∉ fmt)
    (hargs : ∀ t, Arg.s t ∈ args → nul ∉ t) : nul ∉ format fmt args := by
  intro h
  rcases mem_format h with h | ⟨a, ha, h⟩
  · exact hfmt h
  · cases a with
    | d v => exact nul_not_mem_decimal v h
    | s t => exact hargs t ha h

/-- The string at the start of a block is what stands before its first NUL. -/
theorem cstring_append {text rest : List Char} (h : nul ∉ text) :
    cstring (text ++ nul :: rest) = text := by
  have hall : ∀ c ∈ text, decide (c ≠ nul) = true := by
    intro c hc
    exact decide_eq_true fun heq => h (heq ▸ hc)
  rw [cstring, List.takeWhile_append_of_pos hall, List.takeWhile_cons_of_neg (by simp),
    List.append_nil]

/-- The first text written to a buffer ... -/
theorem sprintfAt_zero (buf text : List Char) :
    sprintfAt buf 0 text = text ++ nul :: buf.drop (text.length + 1) := by
  rw [sprintfAt, List.take_zero, List.nil_append, Nat.zero_add]

/-- ... and the next, which overwrites the NUL of the one before. -/
theorem sprintfAt_length (buf text next : List Char) :
    sprintfAt (text ++ nul :: buf.drop (text.length + 1)) text.length next
      = (text ++ next) ++ nul :: buf.drop ((text ++ next).length + 1) := by
  have hdrop : (nul :: buf.drop (text.length + 1)).drop (next.length + 1)
      = buf.drop ((text ++ next).length + 1) := by
    rw [List.drop_succ_cons, List.drop_drop, List.length_append]
    congr 1
    omega
  rw [sprintfAt, List.take_left, Nat.add_assoc, ← List.drop_drop, List.drop_left, hdrop]

/-! ## Reading -/

/-- A reader takes what it understands off the front of a text, and leaves the rest. -/
abbrev Reader := StateT (List Char) Option

/-- Read exactly `w`. -/
def lit (w : List Char) : Reader Unit := fun t =>
  if w.isPrefixOf t then some ((), t.drop w.length) else none

/-- Is `w` next?  Then read it. -/
def isNext (w : List Char) : Reader Bool := fun t =>
  if w.isPrefixOf t then some (true, t.drop w.length) else some (false, t)

/-- Read as long as `p` holds. -/
def span (p : Char → Bool) : Reader (List Char) := fun t => some (t.takeWhile p, t.dropWhile p)

/-- Read an unsigned number. -/
def natural : Reader Nat := do
  let ds ← span Char.isDigit
  if ds = [] then failure else pure (Nat.ofDigitChars 10 ds 0)

/-- Read a number. -/
def number : Reader Int := do
  let negative ← isNext ['-']
  let n ← natural
  pure (if negative then -(n : Int) else n)

/-- `n` times the same reader. -/
def many {α : Type} (r : Reader α) : Nat → Reader (List α)
  | 0 => pure []
  | n + 1 => do
    let a ← r
    let as ← many r n
    pure (a :: as)

/-- What a reader leaves is read by the next.  Readers of whole lines are put together with this and
    nothing else. -/
theorem run_next {α β : Type} {r : Reader α} {f : α → Reader β} {t t' : List Char} {a : α}
    (h : r.run t = some (a, t')) : (r >>= f).run t = (f a).run t' := by
  rw [StateT.run_bind, h]
  rfl

/-- The text does not go on with a character that satisfies `p`. -/
def Stops (p : Char → Bool) (t : List Char) : Prop := ∀ c ∈ t.head?, p c = false

theorem stops_cons {p : Char → Bool} {c : Char} {t : List Char} (h : p c = false) :
    Stops p (c :: t) := by
  intro c' hc'
  rw [List.head?_cons, Option.mem_some_iff] at hc'
  rw [← hc']
  exact h

theorem lit_append (w rest : List Char) : (lit w).run (w ++ rest) = some ((), rest) := by
  show (if _ then _ else _) = _
  rw [if_pos (by simp), List.drop_left]

theorem run_lit {β : Type} {f : Unit → Reader β} (w rest : List Char) :
    (lit w >>= f).run (w ++ rest) = (f ()).run rest :=
  run_next (lit_append w rest)

theorem isNext_append (w rest : List Char) :
    (isNext w).run (w ++ rest) = some (true, rest) := by
  show (if _ then _ else _) = _
  rw [if_pos (by simp), List.drop_left]

theorem isNext_of_ne {w : List Char} {c d : Char} {t : List Char} (h : c ≠ d) :
    (isNext (c :: w)).run (d :: t) = some (false, d :: t) := by
  show (if _ then _ else _) = _
  rw [if_neg (by simp [List.isPrefixOf, h])]

/-- A span is read up to where it stops: all of `w` is meant, and what comes after it is not. -/
theorem span_append {p : Char → Bool} {w rest : List Char} (hw : ∀ c ∈ w, p c = true)
    (hrest : Stops p rest) : (span p).run (w ++ rest) = some (w, rest) := by
  show some (_, _) = _
  rw [List.takeWhile_append_of_pos hw, List.dropWhile_append_of_pos hw]
  cases rest with
  | nil => simp
  | cons c t =>
    have hc := hrest c (by simp)
    rw [List.takeWhile_cons_of_neg (by simp [hc]), List.dropWhile_cons_of_neg (by simp [hc]),
      List.append_nil]

/-- A number is read back from its digits, if no digit follows that would be taken for one of it. -/
theorem natural_toDigits (n : Nat) {rest : List Char} (hrest : Stops Char.isDigit rest) :
    natural.run (Nat.toDigits 10 n ++ rest) = some (n, rest) := by
  have hdigits : ∀ c ∈ Nat.toDigits 10 n, c.isDigit = true := by
    intro c hc
    exact Nat.isDigit_of_mem_toDigits (by decide) (by decide) hc
  rw [natural, run_next (span_append hdigits hrest), if_neg Nat.toDigits_ne_nil, StateT.run_pure,
    Nat.ofDigitChars_ten_toDigits]
  rfl

/-- No sign and no digit: not the beginning of a number. -/
theorem isNext_decimal {c : Char} {w : List Char} (hsign : c ≠ '-') (hdigit : c.isDigit = false)
    (v : Int) (rest : List Char) :
    (isNext (c :: w)).run (decimal v ++ rest) = some (false, decimal v ++ rest) := by
  have hne : decimal v ≠ [] := by
    cases v with
    | ofNat n => exact Nat.toDigits_ne_nil
    | negSucc n => exact List.cons_ne_nil _ _
  obtain ⟨d, ds, hds⟩ := List.exists_cons_of_ne_nil hne
  have hd : d ∈ decimal v := by
    rw [hds]
    exact List.mem_cons_self
  rw [hds, List.cons_append]
  apply isNext_of_ne
  rintro rfl
  rcases mem_decimal hd with h | h
  · exact hsign h
  · rw [hdigit] at h
    exact absurd h (by decide)

/-- **A number can be read back** from the front of any text that goes on with a non-digit. -/
theorem number_decimal (v : Int) {rest : List Char} (hrest : Stops Char.isDigit rest) :
    number.run (decimal v ++ rest) = some (v, rest) := by
  cases v with
  | ofNat n =>
    -- the first character is a digit, so no sign is read
    have hsign : (isNext ['-']).run (Nat.toDigits 10 n ++ rest)
        = some (false, Nat.toDigits 10 n ++ rest) := by
      obtain ⟨d, ds, hds⟩ := List.exists_cons_of_ne_nil (Nat.toDigits_ne_nil (n := n) (b := 10))
      have hd : d.isDigit = true :=
        Nat.isDigit_of_mem_toDigits (b := 10) (n := n) (by decide) (by decide) (by simp [hds])
      rw [hds, List.cons_append]
      apply isNext_of_ne
      rintro rfl
      exact absurd hd (by decide)
    show number.run (Nat.toDigits 10 n ++ rest) = _
    rw [number, run_next hsign, run_next (natural_toDigits n hrest)]
    rfl
  | negSucc n =>
    show number.run (['-'] ++ (Nat.toDigits 10 (n + 1) ++ rest)) = _
    rw [number, run_next (isNext_append _ _), run_next (natural_toDigits (n + 1) hrest)]
    rfl

/-- The form of it in a format: `w` is the literal after the number. -/
theorem run_number {β : Type} {f : Int → Reader β} (v : Int) {w rest : List Char}
    (hw : w.head?.any (fun c => !c.isDigit) = true) :
    (number >>= f).run (decimal v ++ (w ++ rest)) = (f v).run (w ++ rest) := by
  cases w with
  | nil => exact absurd hw (by simp)
  | cons c w =>
    refine run_next (number_decimal v (stops_cons ?_))
    simpa using hw

/-- A text made of pieces that `r` reads one by one is read by `many r`, if it is told how many
    there are. -/
theorem many_flatMap {α β : Type} {r : Reader α} {text : β → List Char} {val : β → α}
    (bs : List β) (h : ∀ b ∈ bs, ∀ rest, r.run (text b ++ rest) = some (val b, rest))
    (rest : List Char) :
    (many r bs.length).run (bs.flatMap text ++ rest) = some (bs.map val, rest) := by
  induction bs with
  | nil => rfl
  | cons b bs ih =>
    have ih' := ih fun c hc => h c (List.mem_cons_of_mem b hc)
    rw [List.length_cons, many, List.flatMap_cons, List.append_assoc,
      run_next (h b List.mem_cons_self _), run_next ih']
    rfl

end KernelModules.Lib
