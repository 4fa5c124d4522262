/-
  The SCAN sweep: one carriage travelling up and down between level `0` and level `top`.

  The travel is periodic, so a position is a single number `x`, read modulo the period `2 * top`:
  the first `top` positions rise from `0`, the other `top` fall from `top`.  The carriage's level
  and its heading are FUNCTIONS of `x` (`level`, `rising`), one move is `x + 1`, and the two
  questions a scheduler asks have arithmetic answers:

  * what does one move do?  `level` changes by exactly one in the heading's direction
    (`level_succ_of_rising`, `level_succ_of_falling`) and the heading turns at the two ends only
    (`rising_succ`);
  * when is a given stop served?  every (level, heading) pair that exists is met within one
    period, whatever the position one starts from (`visits`).
-/
import Mathlib.Data.Nat.ModEq

namespace KernelModules.Lib.Scan

variable (top : Nat)

/-- The level of position `x`. -/
def level (x : Nat) : Nat :=
  if x % (2 * top) ≤ top then x % (2 * top) else 2 * top - x % (2 * top)

/-- Is the carriage at position `x` heading up? -/
def rising (x : Nat) : Bool := decide (x % (2 * top) < top)

variable {top : Nat}

/-! ## One move -/

/-- The successor modulo `m`: one more, or a wrap to zero.  The scan turns at its two ends because
    its period does one or the other. -/
theorem succ_mod_cases (x : Nat) {m : Nat} (hm : 0 < m) :
    x % m + 1 < m ∧ (x + 1) % m = x % m + 1 ∨ x % m + 1 = m ∧ (x + 1) % m = 0 := by
  have hlt := Nat.mod_lt x hm
  rcases Nat.lt_or_ge (x % m + 1) m with h | h
  · refine Or.inl ⟨h, ?_⟩
    rw [← Nat.mod_add_mod, Nat.mod_eq_of_lt h]
  · have heq : x % m + 1 = m := by omega
    refine Or.inr ⟨heq, ?_⟩
    rw [← Nat.mod_add_mod, heq, Nat.mod_self]

/-- The scan stays between the bottom and the top. -/
theorem level_le (htop : 0 < top) (x : Nat) : level top x ≤ top := by
  have hlt := Nat.mod_lt x (by omega : 0 < 2 * top)
  unfold level
  split <;> omega

/-- A rising carriage is below the top: at the top the scan has turned already. -/
theorem level_lt_of_rising {x : Nat} (h : rising top x = true) : level top x < top := by
  have hx : x % (2 * top) < top := of_decide_eq_true h
  rw [level, if_pos (by omega)]
  exact hx

/-- A falling carriage is above the bottom: there the scan has turned again. -/
theorem level_pos_of_falling (htop : 0 < top) {x : Nat} (h : rising top x = false) :
    0 < level top x := by
  have hx : ¬ x % (2 * top) < top := of_decide_eq_false h
  have hlt := Nat.mod_lt x (by omega : 0 < 2 * top)
  unfold level
  split <;> omega

/-- While it rises, the scan goes up one level with every step ... -/
theorem level_succ_of_rising {x : Nat} (h : rising top x = true) :
    level top (x + 1) = level top x + 1 := by
  have hx : x % (2 * top) < top := of_decide_eq_true h
  unfold level
  rcases succ_mod_cases x (by omega : 0 < 2 * top) with ⟨_, hs⟩ | ⟨hw, hs⟩
  · rw [hs, if_pos (by omega), if_pos (by omega)]
  · rw [hs, if_pos (by omega), if_pos (by omega)]
    omega

/-- ... and down one level while it falls. -/
theorem level_succ_of_falling (htop : 0 < top) {x : Nat} (h : rising top x = false) :
    level top (x + 1) + 1 = level top x := by
  have hx : ¬ x % (2 * top) < top := of_decide_eq_false h
  have hlt := Nat.mod_lt x (by omega : 0 < 2 * top)
  unfold level
  rcases succ_mod_cases x (by omega : 0 < 2 * top) with ⟨_, hs⟩ | ⟨hw, hs⟩
  · rw [hs, if_neg (by omega)]
    split <;> omega
  · rw [hs, if_pos (by omega)]
    split <;> omega

/-- The heading after one move: up at the bottom, down at the top, unchanged in between. -/
theorem rising_succ (htop : 0 < top) (x : Nat) :
    rising top (x + 1)
      = if level top (x + 1) = 0 then true
        else if level top (x + 1) = top then false else rising top x := by
  have hlt := Nat.mod_lt x (by omega : 0 < 2 * top)
  unfold level rising
  rcases succ_mod_cases x (by omega : 0 < 2 * top) with ⟨h, hs⟩ | ⟨hw, hs⟩
  · rw [hs]
    split
    · rw [if_neg (by omega)]
      split
      · exact decide_eq_false (by omega)
      · exact decide_eq_decide.mpr (by omega)
    · rw [if_neg (by omega), if_neg (by omega)]
      exact decide_eq_decide.mpr (by omega)
  · rw [hs, if_pos (Nat.zero_le _), if_pos rfl]
    exact decide_eq_true htop

/-! ## Every stop is met within one period -/

/-- From any `x`, any residue `y` is met within `m` moves.  This is the bound behind every waiting
    time here. -/
theorem meets_residue (x : Nat) {y m : Nat} (hy : y < m) : ∃ n, n < m ∧ (x + n) % m = y := by
  have hm : 0 < m := by omega
  have hlt := Nat.mod_lt x hm
  refine ⟨(y + m - x % m) % m, Nat.mod_lt _ hm, ?_⟩
  rw [Nat.add_mod_mod, ← Nat.mod_add_mod, show x % m + (y + m - x % m) = y + m by omega,
    Nat.add_mod_right, Nat.mod_eq_of_lt hy]

/-- **Every stop is served once a period**: level `k` with heading `up`, whenever that pair
    exists (the bottom has no falling carriage, the top no rising one). -/
theorem visits {k : Nat} {up : Bool} (hup : up = true → k < top)
    (hdown : up = false → 0 < k ∧ k ≤ top) (x : Nat) :
    ∃ n, n < 2 * top ∧ level top (x + n) = k ∧ rising top (x + n) = up := by
  cases up with
  | true =>
    have hk := hup rfl
    obtain ⟨n, hn, hmod⟩ := meets_residue x (by omega : k < 2 * top)
    refine ⟨n, hn, ?_, ?_⟩
    · rw [level, hmod, if_pos (by omega)]
    · rw [rising, hmod]; exact decide_eq_true hk
  | false =>
    obtain ⟨hk, hkt⟩ := hdown rfl
    obtain ⟨n, hn, hmod⟩ := meets_residue x (by omega : 2 * top - k < 2 * top)
    refine ⟨n, hn, ?_, ?_⟩
    · rw [level, hmod]; split <;> omega
    · rw [rising, hmod]; exact decide_eq_false (by omega)

/-- Every level is served once a period, with one heading or the other; at the ends there is only
    one. -/
theorem visits_level (htop : 0 < top) {k : Nat} (hk : k ≤ top) (x : Nat) :
    ∃ n, n < 2 * top ∧ level top (x + n) = k := by
  rcases Nat.lt_or_ge k top with h | h
  · obtain ⟨n, hn, hl, _⟩ := @visits top k true (fun _ => h) (by simp) x
    exact ⟨n, hn, hl⟩
  · obtain ⟨n, hn, hl, _⟩ := @visits top k false (by simp) (fun _ => ⟨by omega, hk⟩) x
    exact ⟨n, hn, hl⟩

end KernelModules.Lib.Scan
