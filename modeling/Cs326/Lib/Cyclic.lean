import Mathlib.Order.Nat
import Mathlib.Tactic.SplitIfs

/-!
# Places on a cycle

`n` places numbered `0, ..., n - 1` in a circle. `turn n c i` counts the places from `c` forward to `i`, a full round
when `i = c`; `offset n a i` counts them from `a`, none when `i = a`. Who takes the nearest candidate forward from `c`
cannot pass a candidate: before it reaches `j` it stays between `a` and `j` (`offset_of_turn_le`), and behind `j` it
stays behind `j` until it is back at `a` (`offset_of_turn_le_start`).
-/

namespace Cs326

/-- The number of places from `c` forward to `i`, `n` when `i = c`. -/
def turn (n c i : Nat) : Nat := if c < i then i - c else n + i - c

/-- The number of places from `a` forward to `i`, `0` when `i = a`. -/
def offset (n a i : Nat) : Nat := if a ≤ i then i - a else n + i - a

variable {n a c i j p : Nat}

@[simp] theorem offset_self : offset n a a = 0 := by simp [offset]

theorem offset_pos (ha : a < n) (hne : i ≠ a) : 0 < offset n a i := by
  unfold offset; split <;> omega

/-- From a place short of `j`, a step no longer than the one to `j` ends at `j` or still short of it. -/
theorem offset_of_turn_le (ha : a < n) (hj : j < n) (hc : c < n) (hp : p < n) (hcj : offset n a c < offset n a j)
    (h : turn n c p ≤ turn n c j) : p = j ∨ offset n a c < offset n a p ∧ offset n a p < offset n a j := by
  unfold offset turn at *
  split_ifs at * <;> omega

/-- A step no longer than the one back to `a` ends at `a` or further away from it. -/
theorem offset_of_turn_le_start (ha : a < n) (hc : c < n) (hp : p < n) (h : turn n c p ≤ turn n c a) :
    p = a ∨ offset n a c < offset n a p := by
  unfold offset turn at *
  split_ifs at * <;> omega

end Cs326
