import Mathlib.Tactic.Ring
import Substrate.Checked

/-!
# Parts per thing

The `PerThing` types of `primitives/arithmetic/src/per_things.rs`: fixed point fractions `parts /
ACCURACY`. A type is given by its accuracy and the largest values of `Inner` and `Upper`; a value of
it is its parts. The balance type `N` is given by its largest value; the conversion `Inner: Into<N>`
loses nothing and is not written.

Making a fraction out of `p / q` is not always rounded down: both are first divided by a common
factor, and what `q` loses there can outweigh what `p` loses.
-/

namespace Substrate

open Option Checked Nat

structure PerThing where
  accuracy : Nat
  innerMax : Nat
  upperMax : Nat
  accuracy_pos : 0 < accuracy
  accuracy_le : accuracy ≤ innerMax
  /-- `Upper` computes `ACCURACY^2`. -/
  square_le : accuracy * accuracy ≤ upperMax

namespace PerThing

def percent : PerThing := ⟨100, 2 ^ 8 - 1, 2 ^ 16 - 1, by decide, by decide, by decide⟩

def perU16 : PerThing := ⟨65535, 2 ^ 16 - 1, 2 ^ 32 - 1, by decide, by decide, by decide⟩

def permill : PerThing := ⟨1000000, 2 ^ 32 - 1, 2 ^ 64 - 1, by decide, by decide, by decide⟩

def perbill : PerThing := ⟨1000000000, 2 ^ 32 - 1, 2 ^ 64 - 1, by decide, by decide, by decide⟩

def perquintill : PerThing :=
  ⟨1000000000000000000, 2 ^ 64 - 1, 2 ^ 128 - 1, by decide, by decide, by decide⟩

def fromParts (P : PerThing) (parts : Nat) : Nat := min parts P.accuracy

variable (P : PerThing) {nMax : Nat}

/-! ## Multiplication -/

/-- The part of `x / denom * numer` that the division loses. -/
def rationalMulCorrection (x numer denom : Nat) (rounding : Rounding) : Option Nat := do
  let rem ← rem x denom
  let remInner := min rem P.innerMax
  let remMulUpper ← mul P.upperMax remInner numer
  let remMulDivInner := min (← div remMulUpper denom) P.innerMax
  let fraction ← Checked.rem remMulUpper denom
  match rounding with
  | .down => some remMulDivInner
  | .up => if fraction > 0 then add P.innerMax remMulDivInner 1 else some remMulDivInner
  | .nearest =>
    if fraction > denom / 2 then add P.innerMax remMulDivInner 1 else some remMulDivInner

def overflowPruneMul (nMax x part : Nat) (rounding : Rounding) : Option Nat := do
  let c ← P.rationalMulCorrection x part P.accuracy rounding
  let quotient ← div x P.accuracy
  let product ← mul nMax quotient part
  add nMax product c

/-- `saturating_reciprocal_mul`, the free function. -/
def saturatingReciprocal (nMax x part : Nat) (rounding : Rounding) : Option Nat := do
  let c ← P.rationalMulCorrection x P.accuracy part rounding
  let quotient ← div x part
  return min (min (quotient * P.accuracy) nMax + c) nMax

section

variable (nMax part b : Nat)

def mulFloor : Option Nat := P.overflowPruneMul nMax b part .down

def mulCeil : Option Nat := P.overflowPruneMul nMax b part .up

def mul : Option Nat := P.overflowPruneMul nMax b part .nearest

def saturatingReciprocalMul : Option Nat :=
  P.saturatingReciprocal nMax b part .nearest

def saturatingReciprocalMulFloor : Option Nat :=
  P.saturatingReciprocal nMax b part .down

def saturatingReciprocalMulCeil : Option Nat :=
  P.saturatingReciprocal nMax b part .up

end

variable {P}

theorem rationalMulCorrection_rounds {numer denom : Nat} (hnumer : numer ≤ P.accuracy)
    (hpos : 0 < denom) (hdenom : denom ≤ P.accuracy) (x : Nat) (rounding : Rounding) :
    ∃ c, P.rationalMulCorrection x numer denom rounding = some c ∧
      Rounds rounding (x % denom * numer) denom c := by
  have hrem : x % denom < denom := mod_lt x hpos
  have hinner := P.accuracy_le
  have hmul : x % denom * numer ≤ P.upperMax :=
    (Nat.mul_le_mul (hrem.le.trans hdenom) hnumer).trans P.square_le
  have hle : x % denom * numer ≤ numer * denom := by
    rw [mul_comm numer]
    exact mul_le_mul_right numer hrem.le
  have hquotient : x % denom * numer / denom ≤ P.innerMax :=
    (Nat.div_le_of_le_mul (hle.trans_eq (Nat.mul_comm ..))).trans (hnumer.trans hinner)
  have hdiv := div_add_mod' (x % denom * numer) denom
  have hfraction := mod_lt (x % denom * numer) hpos
  simp only [rationalMulCorrection, bind_eq_bind, bind_some,
    Checked.rem_of_pos _ hpos, min_eq_left (hrem.le.trans (hdenom.trans hinner)),
    Checked.mul_of_le hmul, Checked.div_of_pos _ hpos, min_eq_left hquotient]
  generalize x % denom * numer / denom = quotient, x % denom * numer % denom = fraction at *
  have hsucc : (quotient + 1) * denom = quotient * denom + denom := succ_mul quotient denom
  -- rounding up stays within the numerator, which fits
  have hround : Rounds rounding (x % denom * numer) denom (quotient + 1) →
      Checked.add P.innerMax quotient 1 = some (quotient + 1) := fun hr =>
    Checked.add_of_le ((hr.le hle).trans (hnumer.trans hinner))
  cases rounding with
  | down => exact ⟨quotient, rfl, by simp only [Rounds]; omega⟩
  | up =>
    by_cases hup : fraction > 0
    · have hr : Rounds .up (x % denom * numer) denom (quotient + 1) := by
        simp only [Rounds]
        omega
      exact ⟨quotient + 1, by rw [if_pos hup, hround hr], hr⟩
    · exact ⟨quotient, by rw [if_neg hup], by simp only [Rounds]; omega⟩
  | nearest =>
    by_cases hup : fraction > denom / 2
    · have hr : Rounds .nearest (x % denom * numer) denom (quotient + 1) := by
        simp only [Rounds]
        omega
      exact ⟨quotient + 1, by rw [if_pos hup, hround hr], hr⟩
    · exact ⟨quotient, by rw [if_neg hup], by simp only [Rounds]; omega⟩

theorem rounds_product {x numer denom c : Nat} {rounding : Rounding}
    (hc : Rounds rounding (x % denom * numer) denom c) :
    Rounds rounding (x * numer) denom (x / denom * numer + c) := by
  have hsplit : x * numer = x / denom * numer * denom + x % denom * numer := by
    rw [mul_right_comm, ← add_mul, div_add_mod']
  rw [hsplit]
  exact hc.add_whole _

theorem overflowPruneMul_rounds {part x : Nat} (hpart : part ≤ P.accuracy) (hx : x ≤ nMax)
    (rounding : Rounding) :
    ∃ r, P.overflowPruneMul nMax x part rounding = some r ∧
      Rounds rounding (x * part) P.accuracy r := by
  obtain ⟨c, hc, hrounds⟩ :=
    rationalMulCorrection_rounds hpart P.accuracy_pos (le_refl _) x rounding
  have hr := rounds_product hrounds
  have hle : x / P.accuracy * part + c ≤ nMax :=
    (hr.le (mul_le_mul_left x hpart)).trans hx
  refine ⟨_, ?_, hr⟩
  rw [overflowPruneMul, hc, div_of_pos x P.accuracy_pos]
  simp only [bind_eq_bind, bind_some]
  rw [mul_of_le ((le_add_right _ _).trans hle), bind_some, add_of_le hle]

theorem saturatingReciprocal_rounds {part : Nat} (hpos : 0 < part) (hpart : part ≤ P.accuracy)
    (x : Nat) (rounding : Rounding) :
    ∃ r, P.saturatingReciprocal nMax x part rounding = some (min r nMax) ∧
      Rounds rounding (x * P.accuracy) part r := by
  obtain ⟨c, hc, hrounds⟩ :=
    rationalMulCorrection_rounds (le_refl _) hpos hpart x rounding
  refine ⟨_, ?_, rounds_product hrounds⟩
  rw [saturatingReciprocal, hc, div_of_pos x hpos]
  simp only [bind_eq_bind, bind_some, pure_def, Option.some.injEq]
  omega

/-- **Multiplying a balance by a fraction or its reciprocal is exact.** Each operation returns the
rounded quotient, the reciprocal ones cut off at the largest balance. -/
theorem multiplications_exact (P : PerThing) {nMax part x : Nat} (hpart : part ≤ P.accuracy)
    (hx : x ≤ nMax) :
    (∃ r, P.mulFloor nMax part x = some r ∧ Rounds .down (x * part) P.accuracy r) ∧
    (∃ r, P.mulCeil nMax part x = some r ∧ Rounds .up (x * part) P.accuracy r) ∧
    (∃ r, P.mul nMax part x = some r ∧ Rounds .nearest (x * part) P.accuracy r) ∧
    (0 < part → (∃ r, P.saturatingReciprocalMul nMax part x = some (min r nMax) ∧
        Rounds .nearest (x * P.accuracy) part r) ∧
      (∃ r, P.saturatingReciprocalMulFloor nMax part x = some (min r nMax) ∧
        Rounds .down (x * P.accuracy) part r) ∧
      ∃ r, P.saturatingReciprocalMulCeil nMax part x = some (min r nMax) ∧
        Rounds .up (x * P.accuracy) part r) :=
  ⟨overflowPruneMul_rounds hpart hx .down, overflowPruneMul_rounds hpart hx .up,
    overflowPruneMul_rounds hpart hx .nearest, fun hpos =>
      ⟨saturatingReciprocal_rounds hpos hpart x .nearest,
        saturatingReciprocal_rounds hpos hpart x .down,
        saturatingReciprocal_rounds hpos hpart x .up⟩⟩

theorem multiplications_exact_third : ∃ r,
    perU16.mul (2 ^ 32 - 1) 21845 5 = some r ∧ Rounds .nearest (5 * 21845) 65535 r :=
  (multiplications_exact perU16 (by decide) (by decide)).2.2.1

/-! ## Fractions -/

/-- The closure `div_ceil` of `from_rational`. -/
def divCeil (nMax x f : Nat) : Option Nat := do
  let o ← div x f
  let r ← rem x f
  if r > 0 then add nMax o 1 else some o

def fromRational (P : PerThing) (nMax p q : Nat) : Option Nat := do
  let q := max q 1
  let p := min p q
  let factor := max (← divCeil nMax q P.accuracy) 1
  let qReduce ← convert P.innerMax (← div q factor)
  let pReduce ← convert P.innerMax (← div p factor)
  let part ← Checked.div (← Checked.mul P.upperMax pReduce P.accuracy) qReduce
  return part % (P.innerMax + 1)

/-- The least factor that brings the denominator within the accuracy. -/
def commonFactor (P : PerThing) (q : Nat) : Nat := (q + P.accuracy - 1) / P.accuracy

/-- What the denominator loses to the common factor `f` is outweighed by what the numerator loses
to it and the last division drops. Each loss is the remainder times the other side. -/
def LossOutweighed (P : PerThing) (p q : Nat) : Prop :=
  let f := P.commonFactor q
  q % f * (p / f) * P.accuracy ≤ p % f * (q / f) * P.accuracy + p / f * P.accuracy % (q / f) * q

instance (P : PerThing) (p q : Nat) : Decidable (P.LossOutweighed p q) :=
  inferInstanceAs (Decidable (_ ≤ _))

theorem divCeil_eq {x : Nat} (hx : x ≤ nMax) (P : PerThing) :
    divCeil nMax x P.accuracy = some (P.commonFactor x) := by
  have hpos := P.accuracy_pos
  have hdiv := div_add_mod x P.accuracy
  have hrem := mod_lt x hpos
  have hfactor : P.commonFactor x =
      x / P.accuracy + (x % P.accuracy + P.accuracy - 1) / P.accuracy := by
    rw [commonFactor, ← mul_add_div hpos]
    congr 1
    omega
  rw [divCeil, div_of_pos x hpos, rem_of_pos x hpos]
  simp only [bind_eq_bind, bind_some]
  by_cases hr : x % P.accuracy > 0
  · have hone : (x % P.accuracy + P.accuracy - 1) / P.accuracy = 1 :=
      Nat.div_eq_of_lt_le (by omega) (by omega)
    have hle : x / P.accuracy ≤ P.accuracy * (x / P.accuracy) := Nat.le_mul_of_pos_left _ hpos
    rw [if_pos hr, add_of_le (by omega), hfactor, hone]
  · have hzero : (x % P.accuracy + P.accuracy - 1) / P.accuracy = 0 :=
      div_eq_of_lt (by omega)
    rw [if_neg hr, hfactor, hzero, add_zero]

theorem commonFactor_pos {q : Nat} (hq : 0 < q) : 0 < P.commonFactor q :=
  div_pos (by omega) P.accuracy_pos

theorem commonFactor_le {q : Nat} (hq : 0 < q) : P.commonFactor q ≤ q := by
  obtain ⟨a, ha⟩ := Nat.exists_eq_succ_of_ne_zero P.accuracy_pos.ne'
  obtain ⟨b, rfl⟩ := Nat.exists_eq_succ_of_ne_zero hq.ne'
  refine Nat.div_le_of_le_mul ?_
  have hmul : P.accuracy * b.succ = a * b + a + b + 1 := by
    rw [ha, Nat.succ_eq_add_one, Nat.succ_eq_add_one]
    ring
  omega

theorem div_commonFactor_le (q : Nat) : q / P.commonFactor q ≤ P.accuracy := by
  have hdiv := div_add_mod (q + P.accuracy - 1) P.accuracy
  have hrem := mod_lt (q + P.accuracy - 1) P.accuracy_pos
  refine Nat.div_le_of_le_mul ?_
  rw [Nat.mul_comm]
  unfold commonFactor
  omega

theorem fromRational_max (p q : Nat) :
    P.fromRational nMax p q = P.fromRational nMax p (max q 1) := by
  simp [fromRational]

theorem fromRational_eq {p q : Nat} (hq : q ≤ nMax) (hpos : 1 ≤ q) (P : PerThing) :
    P.fromRational nMax p q =
      some (min p q / P.commonFactor q * P.accuracy / (q / P.commonFactor q)) := by
  have hfactor := P.commonFactor_pos hpos
  have hden : 0 < q / P.commonFactor q := div_pos (commonFactor_le hpos) hfactor
  have hle := div_commonFactor_le (P := P) q
  have hnum : min p q / P.commonFactor q ≤ q / P.commonFactor q :=
    Nat.div_le_div_right (min_le_right p q)
  have hinner := P.accuracy_le
  have hproduct : min p q / P.commonFactor q * P.accuracy ≤ P.upperMax :=
    (mul_le_mul_right _ (hnum.trans hle)).trans P.square_le
  have hpart : min p q / P.commonFactor q * P.accuracy / (q / P.commonFactor q) ≤ P.accuracy :=
    Nat.div_le_of_le_mul (Nat.mul_le_mul_right _ hnum)
  simp only [fromRational, max_eq_left hpos, divCeil_eq hq, max_eq_left (succ_le_of_lt hfactor),
    Checked.div_of_pos _ hfactor, Checked.convert_of_le (hle.trans hinner),
    Checked.convert_of_le (hnum.trans (hle.trans hinner)), Checked.mul_of_le hproduct,
    Checked.div_of_pos _ hden, bind_eq_bind, bind_some, pure_def]
  rw [mod_eq_of_lt (by omega)]

/-- **`from_rational` never fails, and rounds down exactly when the loss of the denominator is
outweighed.** -/
theorem fromRational_rounds_down_iff (P : PerThing) {nMax q : Nat} (hq : q ≤ nMax) (hpos : 1 ≤ q)
    (p : Nat) :
    ∃ parts, P.fromRational nMax p q = some parts ∧
      (parts * q ≤ min p q * P.accuracy ↔ P.LossOutweighed (min p q) q) := by
  refine ⟨_, P.fromRational_eq hq hpos, ?_⟩
  generalize min p q = p
  have hden : 0 < q / P.commonFactor q :=
    Nat.div_pos (commonFactor_le hpos) (commonFactor_pos hpos)
  have hp := Nat.div_add_mod p (P.commonFactor q)
  have hq := Nat.div_add_mod q (P.commonFactor q)
  have hlast := Nat.div_add_mod (p / P.commonFactor q * P.accuracy) (q / P.commonFactor q)
  unfold LossOutweighed
  dsimp only
  generalize P.commonFactor q = f at *
  generalize p / f = pReduce, p % f = pLost, q / f = qReduce, q % f = qLost at *
  generalize pReduce * P.accuracy / qReduce = parts, pReduce * P.accuracy % qReduce = dropped at *
  rw [← Nat.mul_le_mul_left_iff hden]
  -- both sides of the comparison, times the reduced denominator, differ by the three losses
  have hleft : qReduce * (parts * q) + (dropped * q + pLost * qReduce * P.accuracy) =
      qReduce * (p * P.accuracy) + qLost * pReduce * P.accuracy := by
    have hparts : qReduce * parts * q = pReduce * P.accuracy * q - dropped * q := by
      rw [← hlast, Nat.add_mul, Nat.add_sub_cancel]
    have hdropped : dropped * q ≤ pReduce * P.accuracy * q := by
      rw [← hlast, Nat.add_mul]
      exact Nat.le_add_left _ _
    rw [← Nat.mul_assoc, hparts, ← Nat.add_assoc, Nat.sub_add_cancel hdropped, ← hp]
    rw [← hq]
    ring
  omega

theorem fromRational_rounds_down_iff_half : ∃ parts,
    percent.fromRational (2 ^ 32 - 1) 100 200 = some parts ∧
      (parts * 200 ≤ min 100 200 * 100 ↔ percent.LossOutweighed (min 100 200) 200) :=
  fromRational_rounds_down_iff percent (by decide) (by decide) 100

/-- `100 / 101` becomes `100%`: the denominator loses one to the factor `2`, the numerator
nothing. -/
theorem fromRational_rounds_up : ∃ parts,
    percent.fromRational (2 ^ 32 - 1) 100 101 = some parts ∧ ¬parts * 101 ≤ min 100 101 * 100 :=
  ⟨100, by decide, by decide⟩

end PerThing

end Substrate
