/-
  Decimal fractions: texts such as `12.034`, and the numbers they denote.

  `fraction ds` is the value of the digits after the point, each worth a tenth of the one before,
  and `decimalNumber` reads a whole number, a point and digits as a rational number.

  A program that prints the two sides of the point as two independent integers loses the zeros that
  should stand in front of the right one.  `fraction_toDigits_eq_iff` says when it gets away with
  it: of the numbers below `10 ^ k`, meant as so many `10 ^ k`-ths, exactly zero and those with all
  of their `k` digits are read as what they were.
-/
import Mathlib.Algebra.Order.Field.Rat
import Mathlib.Tactic.Positivity
import KernelModules.Lib.Text

namespace KernelModules.Lib

/-- The digits after a decimal point. -/
def fraction (ds : List Char) : ℚ := Nat.ofDigitChars 10 ds 0 / 10 ^ ds.length

/-- Read a number with a decimal point, digits on both sides of it. -/
def decimalNumber : Reader ℚ := do
  let n ← natural
  lit ['.']
  let ds ← span Char.isDigit
  if ds = [] then failure else pure (n + fraction ds)

/-- A number written behind the point is divided by as many tens as it has digits. -/
theorem fraction_toDigits (n : Nat) :
    fraction (Nat.toDigits 10 n) = n / 10 ^ (Nat.toDigits 10 n).length := by
  rw [fraction, Nat.ofDigitChars_ten_toDigits]

/-- Two integers with a point between them, as a decimal number. -/
theorem decimalNumber_toDigits (n m : Nat) {rest : List Char} (hrest : Stops Char.isDigit rest) :
    decimalNumber.run (Nat.toDigits 10 n ++ ('.' :: (Nat.toDigits 10 m ++ rest)))
      = some ((n : ℚ) + m / 10 ^ (Nat.toDigits 10 m).length, rest) := by
  have hdigits : ∀ c ∈ Nat.toDigits 10 m, c.isDigit = true := by
    intro c hc
    exact Nat.isDigit_of_mem_toDigits (by decide) (by decide) hc
  have hpoint : (lit ['.']).run ('.' :: (Nat.toDigits 10 m ++ rest))
      = some ((), Nat.toDigits 10 m ++ rest) := lit_append ['.'] _
  rw [decimalNumber, run_next (natural_toDigits n (stops_cons (by decide))), run_next hpoint,
    run_next (span_append hdigits hrest), if_neg Nat.toDigits_ne_nil, StateT.run_pure,
    fraction_toDigits]
  rfl

/-- A number below `10 ^ k` has `k` digits from `10 ^ (k - 1)` on, and fewer below: it is the
    zeros in front that are missing. -/
theorem length_toDigits_eq_iff {n k : Nat} (hk : 0 < k) (hn : n < 10 ^ (k + 1)) :
    (Nat.toDigits 10 n).length = k + 1 ↔ 10 ^ k ≤ n := by
  have hle := (Nat.length_toDigits_le_iff (b := 10) (n := n) (by decide) (Nat.succ_pos k)).mpr hn
  have hlt := Nat.length_toDigits_le_iff (b := 10) (n := n) (by decide) hk
  omega

/-- **When a missing zero does no harm.**  Digits written without leading zeros have their value
    behind the point if none is missing, or if they are all zero. -/
theorem fraction_toDigits_eq_iff {n k : Nat} (hk : 0 < k) (hn : n < 10 ^ (k + 1)) :
    (n : ℚ) / 10 ^ (Nat.toDigits 10 n).length = n / 10 ^ (k + 1) ↔ n = 0 ∨ 10 ^ k ≤ n := by
  rw [← length_toDigits_eq_iff hk hn]
  rcases Nat.eq_zero_or_pos n with rfl | hpos
  · simp
  · have hn0 : (n : ℚ) ≠ 0 := Nat.cast_ne_zero.mpr (by omega)
    constructor
    · intro h
      refine Or.inr (Nat.pow_right_injective (show 2 ≤ 10 by decide) ?_)
      have hpow : (10 : ℚ) ^ (Nat.toDigits 10 n).length = 10 ^ (k + 1) := by
        rw [div_eq_div_iff (by positivity) (by positivity)] at h
        exact (mul_left_cancel₀ hn0 h).symm
      exact_mod_cast hpow
    · rintro (rfl | h)
      · exact absurd hpos (by decide)
      · rw [h]

end KernelModules.Lib
