import Substrate.Outcome
import Mathlib.Tactic.Ring

/-!
# Vote thresholds of referenda

`compare_rationals` compares two fractions by their continued fractions: the integer parts decide,
or else the fractions of the remainders, inverted and so with the sides exchanged. It never
multiplies, so on machine words of any width it gives the comparison of the products as unbounded
numbers. A threshold compares nays and ayes over the square roots of turnout and electorate.
-/

namespace Substrate.Referenda

open Nat

variable {w : Nat}

/-! ## The code -/

/-- Whether `n1 / d1 < n2 / d2`. A denominator of zero panics in the division. -/
def compareRationals (n1 d1 n2 d2 : BitVec w) : Outcome Empty Bool :=
  if d1 = 0 ∨ d2 = 0 then .panic
  else if n1 / d1 < n2 / d2 then .ok true
  else if n2 / d2 < n1 / d1 then .ok false
  else if n2 % d2 = 0 then .ok false
  else if n1 % d1 = 0 then .ok true
  else compareRationals d2 (n2 % d2) d1 (n1 % d1)
termination_by d1.toNat + d2.toNat
decreasing_by
  rename_i hd _ _ _ _
  rw [not_or, BitVec.toNat_eq, BitVec.toNat_eq] at hd
  rw [BitVec.toNat_umod, BitVec.toNat_umod]
  have h1 := mod_lt n1.toNat (pos_of_ne_zero hd.1)
  have h2 := mod_lt n2.toNat (pos_of_ne_zero hd.2)
  omega

inductive VoteThreshold where
  | superMajorityApprove
  | superMajorityAgainst
  | simpleMajority
deriving DecidableEq

structure Tally (w : Nat) where
  ayes : BitVec w
  nays : BitVec w
  turnout : BitVec w

/-- Of a crate outside the repository. All that counts is that no other number than zero has the
root zero. -/
structure IntegerSquareRoot (w : Nat) where
  integerSqrt : BitVec w → BitVec w
  ne_zero : ∀ n, n ≠ 0 → integerSqrt n ≠ 0

variable (S : IntegerSquareRoot w)

def approved (threshold : VoteThreshold) (tally : Tally w) (electorate : BitVec w) :
    Outcome Empty Bool :=
  let sqrtVoters := S.integerSqrt tally.turnout
  let sqrtElectorate := S.integerSqrt electorate
  if sqrtVoters = 0 then .ok false
  else
    match threshold with
    | .superMajorityApprove => compareRationals tally.nays sqrtVoters tally.ayes sqrtElectorate
    | .superMajorityAgainst => compareRationals tally.nays sqrtElectorate tally.ayes sqrtVoters
    | .simpleMajority => .ok (decide (tally.ayes > tally.nays))

/-! ## The comparison -/

section Cross

variable {n1 d1 n2 d2 : Nat}

theorem div_le_div_of_cross (hd1 : 0 < d1) (hd2 : 0 < d2) (h : n1 * d2 ≤ n2 * d1) :
    n1 / d1 ≤ n2 / d2 := by
  rw [le_div_iff_mul_le hd2]
  refine le_of_mul_le_mul_right ?_ hd1
  calc n1 / d1 * d2 * d1 = n1 / d1 * d1 * d2 := mul_right_comm ..
    _ ≤ n1 * d2 := mul_le_mul_right _ (div_mul_le_self ..)
    _ ≤ n2 * d1 := h

/-- With equal integer parts the remainders decide. -/
theorem cross_of_div_eq (h : n1 / d1 = n2 / d2) :
    n1 * d2 < n2 * d1 ↔ n1 % d1 * d2 < n2 % d2 * d1 := by
  have h1 : n1 * d2 = n1 / d1 * (d1 * d2) + n1 % d1 * d2 := by
    conv => lhs; rw [← div_add_mod n1 d1]
    ring
  have h2 : n2 * d1 = n1 / d1 * (d1 * d2) + n2 % d2 * d1 := by
    conv => lhs; rw [← div_add_mod n2 d2, ← h]
    ring
  omega

end Cross

theorem div_eq {n1 d1 n2 d2 : BitVec w} (hle : ¬n1 / d1 < n2 / d2) (hge : ¬n2 / d2 < n1 / d1) :
    n1.toNat / d1.toNat = n2.toNat / d2.toNat := by
  rw [BitVec.lt_def, BitVec.toNat_udiv, BitVec.toNat_udiv] at hle hge
  omega

theorem compareRationals_eq (n1 d1 n2 d2 : BitVec w) (hd1 : d1 ≠ 0) (hd2 : d2 ≠ 0) :
    compareRationals n1 d1 n2 d2 = .ok (decide (n1.toNat * d2.toNat < n2.toNat * d1.toNat)) := by
  have hpos : ∀ {d : BitVec w}, d ≠ 0 → 0 < d.toNat := fun hd =>
    pos_of_ne_zero fun hzero => hd (BitVec.eq_of_toNat_eq hzero)
  -- The recursion compares the inverted remainders, with the two sides exchanged.
  fun_induction compareRationals with
  | case1 n1 d1 n2 d2 hzero => exact absurd hzero (not_or.mpr ⟨hd1, hd2⟩)
  | case2 n1 d1 n2 d2 _ hlt =>
    rw [BitVec.lt_def, BitVec.toNat_udiv] at hlt
    rw [decide_eq_true]
    by_contra hge
    exact absurd (div_le_div_of_cross (hpos hd2) (hpos hd1) (Nat.le_of_not_lt hge)) (not_le.mpr hlt)
  | case3 n1 d1 n2 d2 _ _ hlt =>
    rw [BitVec.lt_def, BitVec.toNat_udiv] at hlt
    rw [decide_eq_false]
    intro hcross
    exact absurd (div_le_div_of_cross (hpos hd1) (hpos hd2) hcross.le) (not_le.mpr hlt)
  | case4 n1 d1 n2 d2 _ hle hle' hr2 =>
    rw [BitVec.toNat_eq, BitVec.toNat_umod] at hr2
    rw [decide_eq_false]
    rw [cross_of_div_eq (div_eq hle hle'), hr2]
    simp
  | case5 n1 d1 n2 d2 _ hle hle' hr2 hr1 =>
    have hr2' := hpos hr2
    rw [BitVec.toNat_umod] at hr2'
    rw [BitVec.toNat_eq, BitVec.toNat_umod] at hr1
    rw [decide_eq_true]
    rw [cross_of_div_eq (div_eq hle hle'), hr1]
    simpa using mul_pos hr2' (hpos hd1)
  | case6 n1 d1 n2 d2 _ hle hle' hr2 hr1 ih =>
    rw [ih hr2 hr1, BitVec.toNat_umod, BitVec.toNat_umod]
    congr 2
    rw [cross_of_div_eq (div_eq hle hle'), mul_comm d2.toNat, mul_comm d1.toNat]

/-! ## The verdict -/

/-- A verdict compares nays and ayes under weights that turnout and electorate fix. -/
theorem approved_weighs (threshold : VoteThreshold) (turnout : BitVec w) {electorate : BitVec w}
    (helectorate : electorate ≠ 0) :
    ∃ a b : Nat, ∀ ayes nays, approved S threshold ⟨ayes, nays, turnout⟩ electorate =
      .ok (decide (nays.toNat * a < ayes.toNat * b)) := by
  have hsqrt := S.ne_zero electorate helectorate
  by_cases hvoters : S.integerSqrt turnout = 0
  · refine ⟨0, 0, fun ayes nays => ?_⟩
    unfold approved
    rw [if_pos hvoters, decide_eq_false (by simp)]
  simp only [approved, if_neg hvoters]
  cases threshold with
  | superMajorityApprove => exact ⟨_, _, fun _ _ => compareRationals_eq _ _ _ _ hvoters hsqrt⟩
  | superMajorityAgainst => exact ⟨_, _, fun _ _ => compareRationals_eq _ _ _ _ hsqrt hvoters⟩
  | simpleMajority =>
    refine ⟨1, 1, fun ayes nays => ?_⟩
    simp [mul_one, BitVec.lt_def]

/-- **Referendum thresholds compare exactly.** On words of any width the comparison returns for
non-zero denominators, and decides the cross products as unbounded numbers. So with more ayes
or fewer nays at the same turnout an approval stays an approval. -/
theorem thresholds_exact :
    (∀ n1 d1 n2 d2 : BitVec w, d1 ≠ 0 → d2 ≠ 0 → compareRationals n1 d1 n2 d2 =
      .ok (decide (n1.toNat * d2.toNat < n2.toNat * d1.toNat))) ∧
    ∀ (threshold : VoteThreshold) (turnout electorate : BitVec w), electorate ≠ 0 →
      ∀ ayes ayes' nays nays' : BitVec w, ayes ≤ ayes' → nays' ≤ nays → ∃ verdict verdict',
          approved S threshold ⟨ayes, nays, turnout⟩ electorate = .ok verdict ∧
          approved S threshold ⟨ayes', nays', turnout⟩ electorate = .ok verdict' ∧
          (verdict = true → verdict' = true) := by
  refine ⟨compareRationals_eq, fun threshold turnout electorate helectorate => ?_⟩
  intro ayes ayes' nays nays' hayes hnays
  obtain ⟨a, b, heq⟩ := approved_weighs S threshold turnout helectorate
  refine ⟨_, _, heq ayes nays, heq ayes' nays', fun happroved => decide_eq_true ?_⟩
  calc nays'.toNat * a ≤ nays.toNat * a := mul_le_mul_right _ hnays
    _ < ayes.toNat * b := of_decide_eq_true happroved
    _ ≤ ayes'.toNat * b := mul_le_mul_right _ hayes

def floorRoot : IntegerSquareRoot w where
  integerSqrt n := .ofNat w n.toNat.sqrt
  ne_zero n h hzero := by
    have hlt : n.toNat.sqrt < 2 ^ w := lt_of_le_of_lt n.toNat.sqrt_le_self n.isLt
    rw [BitVec.toNat_eq, BitVec.toNat_ofNat, mod_eq_of_lt hlt] at hzero
    exact h (BitVec.eq_of_toNat_eq (sqrt_eq_zero.mp hzero))

theorem thresholds_exact_words : compareRationals 50#8 12#8 100#8 14#8 = .ok true ∧
      ∃ verdict verdict',
        approved floorRoot .superMajorityApprove ⟨60#8, 50#8, 150#8⟩ 210#8 = .ok verdict ∧
        approved floorRoot .superMajorityApprove ⟨100#8, 50#8, 150#8⟩ 210#8 = .ok verdict' ∧
        (verdict = true → verdict' = true) :=
  ⟨(thresholds_exact floorRoot).1 50#8 12#8 100#8 14#8 (by decide) (by decide),
    (thresholds_exact floorRoot).2 .superMajorityApprove 150#8 210#8 (by decide) 60#8 100#8 50#8 50#8
      (by decide) (by decide)⟩

end Substrate.Referenda
