import Mathlib.Algebra.Ring.Nat

/-!
# Checked arithmetic and rounding

Arithmetic on an unsigned machine type, given by its largest value. An operation whose result does
not fit panics, which is `none`. `Rounds` says what the three ways to round a quotient are, without
dividing.
-/

namespace Substrate

namespace Checked

def add (max a b : Nat) : Option Nat := if a + b ≤ max then some (a + b) else none

def mul (max a b : Nat) : Option Nat := if a * b ≤ max then some (a * b) else none

def sub (a b : Nat) : Option Nat := if b ≤ a then some (a - b) else none

def div (a b : Nat) : Option Nat := if b = 0 then none else some (a / b)

def rem (a b : Nat) : Option Nat := if b = 0 then none else some (a % b)

/-- `a.try_into().expect(..)`. -/
def convert (max a : Nat) : Option Nat := if a ≤ max then some a else none

variable {max a b : Nat}

theorem add_of_le (h : a + b ≤ max) : add max a b = some (a + b) := if_pos h

theorem mul_of_le (h : a * b ≤ max) : mul max a b = some (a * b) := if_pos h

theorem sub_of_le (h : b ≤ a) : sub a b = some (a - b) := if_pos h

theorem div_of_pos (a : Nat) (h : 0 < b) : div a b = some (a / b) := if_neg (Nat.ne_of_gt h)

theorem rem_of_pos (a : Nat) (h : 0 < b) : rem a b = some (a % b) := if_neg (Nat.ne_of_gt h)

theorem convert_of_le (h : a ≤ max) : convert max a = some a := if_pos h

end Checked

/-- `nearest` rounds an exact half down. -/
inductive Rounding where
  | up
  | down
  | nearest
deriving Repr, DecidableEq

/-- `r` is `num / den` rounded. -/
def Rounds : Rounding → Nat → Nat → Nat → Prop
  | .up, num, den, r => num ≤ r * den ∧ r * den < num + den
  | .down, num, den, r => r * den ≤ num ∧ num < r * den + den
  | .nearest, num, den, r => 2 * num ≤ 2 * (r * den) + den ∧ 2 * (r * den) < 2 * num + den

namespace Rounds

variable {rounding : Rounding} {num den r : Nat}

theorem le (hr : Rounds rounding num den r) {y : Nat} (h : num ≤ y * den) : r ≤ y := by
  by_contra hlt
  have hmul : y * den + den ≤ r * den := by
    rw [← Nat.succ_mul]
    exact Nat.mul_le_mul_right den (Nat.lt_of_not_le hlt)
  cases rounding <;> simp only [Rounds] at hr <;> omega

theorem add_whole (hr : Rounds rounding num den r) (t : Nat) :
    Rounds rounding (t * den + num) den (t + r) := by
  have hadd : (t + r) * den = t * den + r * den := Nat.add_mul t r den
  cases rounding <;> simp only [Rounds, hadd] at hr ⊢ <;> omega

end Rounds

end Substrate
