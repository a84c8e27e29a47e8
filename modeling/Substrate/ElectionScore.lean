import Substrate.PerThings

/-!
# Comparing election scores

Model of `ThresholdOrd::tcmp` of `primitives/arithmetic/src/lib.rs` and of `is_score_better` of
`primitives/npos-elections/src/lib.rs`. The comparison with a threshold is not transitive, but it
never errs about the direction: a score that is better is ahead in the lexicographic order `Ahead`,
whatever the threshold.
-/

namespace Substrate.ElectionScore

open Nat Option PerThing

/-- `ThresholdOrd::tcmp` for an unsigned type with this largest value. -/
def tcmp (tMax self other threshold : Nat) : Ordering :=
  if threshold = 0 then compare self other
  else
    let upperBound := min (other + threshold) tMax
    let lowerBound := other - threshold
    if upperBound ≤ lowerBound then compare self other
    else
      match compare self lowerBound, compare self upperBound with
      | .gt, .gt => .gt
      | .lt, .lt => .lt
      | _, _ => .eq

section Threshold

variable {tMax self other threshold : Nat}

theorem tcmp_eq_gt (hother : other ≤ tMax) (h : tcmp tMax self other threshold = .gt) :
    other < self := by
  unfold tcmp at h
  split at h
  · exact Nat.compare_eq_gt.mp h
  dsimp only at h
  split at h
  · exact Nat.compare_eq_gt.mp h
  split at h
  · rename_i hupper
    have := Nat.compare_eq_gt.mp hupper
    omega
  · cases h
  · cases h

theorem tcmp_eq_lt (h : tcmp tMax self other threshold = .lt) : self < other := by
  unfold tcmp at h
  split at h
  · exact Nat.compare_eq_lt.mp h
  dsimp only at h
  split at h
  · exact Nat.compare_eq_lt.mp h
  split at h
  · cases h
  · rename_i hlower _
    have := Nat.compare_eq_lt.mp hlower
    omega
  · cases h

end Threshold

/-- `ExtendedBalance::max_value()`. -/
def balanceMax : Nat := 2 ^ 128 - 1

structure Score where
  minSupport : Fin (balanceMax + 1)
  sum : Fin (balanceMax + 1)
  sumSquared : Fin (balanceMax + 1)
deriving DecidableEq

def compared (P : PerThing) (epsilon : Nat) (thi tha : Fin (balanceMax + 1)) :
    Option (Bool × Ordering) :=
  (P.mulCeil balanceMax epsilon tha).map fun threshold =>
    (decide (tha ≤ thi), tcmp balanceMax thi tha threshold)

def isScoreBetter (P : PerThing) (this that : Score) (epsilon : Nat) : Option Bool := do
  let first ← compared P epsilon this.minSupport that.minSupport
  let second ← compared P epsilon this.sum that.sum
  let third ← compared P epsilon this.sumSquared that.sumSquared
  return match first, second, third with
    | (_, .gt), _, _ => true
    | (true, .eq), (_, .gt), _ => true
    | (true, .eq), (true, .eq), (_, .lt) => true
    | _, _, _ => false

/-- A larger support, a larger sum, a smaller sum of squares. -/
def Ahead (this that : Score) : Prop :=
  that.minSupport < this.minSupport ∨ that.minSupport = this.minSupport ∧
    (that.sum < this.sum ∨ that.sum = this.sum ∧ this.sumSquared < that.sumSquared)

instance (this that : Score) : Decidable (Ahead this that) :=
  inferInstanceAs (Decidable (_ ∨ _))

theorem Ahead.ne {this that : Score} (h : Ahead this that) : that ≠ this := by
  rintro rfl
  unfold Ahead at h
  omega

theorem Ahead.trans {s s' s'' : Score} (h : Ahead s' s) (h' : Ahead s'' s') : Ahead s'' s := by
  unfold Ahead at *
  omega

theorem Ahead.asymm {this that : Score} (h : Ahead this that) : ¬Ahead that this :=
  fun h' => (h.trans h').ne rfl

section Better

variable {P : PerThing} {epsilon : Nat} {this that : Score}

theorem compared_eq (hepsilon : epsilon ≤ P.accuracy) (thi tha : Fin (balanceMax + 1)) :
    ∃ threshold, compared P epsilon thi tha =
      some (decide (tha ≤ thi), tcmp balanceMax thi tha threshold) := by
  obtain ⟨threshold, hmul, -⟩ :=
    overflowPruneMul_rounds hepsilon (le_of_lt_succ tha.isLt) .up
  exact ⟨threshold, by rw [compared, mulCeil, hmul, map_some]⟩

theorem compared_zero (thi tha : Fin (balanceMax + 1)) :
    compared P 0 thi tha = some (decide (tha ≤ thi), compare thi.val tha.val) := by
  obtain ⟨threshold, hmul, hrounds⟩ := overflowPruneMul_rounds (zero_le _)
    (le_of_lt_succ tha.isLt) .up
  have hzero : threshold = 0 := le_zero.mp (hrounds.le (by simp))
  rw [compared, mulCeil, hmul, hzero]
  rfl

theorem isScoreBetter_returns (hepsilon : epsilon ≤ P.accuracy) (this that : Score) :
    ∃ better, isScoreBetter P this that epsilon = some better ∧
      (better = true → Ahead this that) := by
  obtain ⟨t1, h1⟩ := compared_eq hepsilon this.minSupport that.minSupport
  obtain ⟨t2, h2⟩ := compared_eq hepsilon this.sum that.sum
  obtain ⟨t3, h3⟩ := compared_eq hepsilon this.sumSquared that.sumSquared
  refine ⟨_, by rw [isScoreBetter, h1, h2, h3]; rfl, fun hbetter => ?_⟩
  have hle := le_of_lt_succ that.minSupport.isLt
  have hle' := le_of_lt_succ that.sum.isLt
  split at hbetter
  · rename_i hfirst
    exact .inl (tcmp_eq_gt hle (Prod.mk.inj hfirst).2)
  · rename_i hfirst hsecond
    have hge := of_decide_eq_true (Prod.mk.inj hfirst).1
    have hgt : that.sum < this.sum := tcmp_eq_gt hle' (Prod.mk.inj hsecond).2
    unfold Ahead
    omega
  · rename_i hfirst hsecond hthird
    have hge := of_decide_eq_true (Prod.mk.inj hfirst).1
    have hge' := of_decide_eq_true (Prod.mk.inj hsecond).1
    have hlt : this.sumSquared < that.sumSquared := tcmp_eq_lt (Prod.mk.inj hthird).2
    unfold Ahead
    omega
  · cases hbetter

theorem isScoreBetter_zero (P : PerThing) (this that : Score) :
    isScoreBetter P this that 0 = some (decide (Ahead this that)) := by
  rw [isScoreBetter, compared_zero, compared_zero, compared_zero]
  simp only [bind_eq_bind, bind_some, pure_def, some.injEq]
  -- component by component, as far as the scores agree
  rcases lt_trichotomy this.minSupport.val that.minSupport.val with h1 | h1 | h1
  · rw [Nat.compare_eq_lt.mpr h1]
    exact (decide_eq_false (by unfold Ahead; omega)).symm
  · have hge : that.minSupport ≤ this.minSupport := h1.ge
    rw [Nat.compare_eq_eq.mpr h1, decide_eq_true hge]
    rcases lt_trichotomy this.sum.val that.sum.val with h2 | h2 | h2
    · rw [Nat.compare_eq_lt.mpr h2]
      exact (decide_eq_false (by unfold Ahead; omega)).symm
    · have hge : that.sum ≤ this.sum := h2.ge
      rw [Nat.compare_eq_eq.mpr h2, decide_eq_true hge]
      rcases lt_trichotomy this.sumSquared.val that.sumSquared.val with h3 | h3 | h3
      · rw [Nat.compare_eq_lt.mpr h3]
        exact (decide_eq_true (by unfold Ahead; omega)).symm
      · rw [Nat.compare_eq_eq.mpr h3]
        exact (decide_eq_false (by unfold Ahead; omega)).symm
      · rw [Nat.compare_eq_gt.mpr h3]
        exact (decide_eq_false (by unfold Ahead; omega)).symm
    · rw [Nat.compare_eq_gt.mpr h2]
      exact (decide_eq_true (by unfold Ahead; omega)).symm
  · rw [Nat.compare_eq_gt.mpr h1]
    exact (decide_eq_true (by unfold Ahead; omega)).symm

end Better

def Improves (s s' : Score) : Prop :=
  ∃ (P : PerThing) (epsilon : Nat), epsilon ≤ P.accuracy ∧ isScoreBetter P s' s epsilon = some true

theorem Improves.ahead {s s' : Score} (h : Improves s s') : Ahead s' s := by
  obtain ⟨P, epsilon, hepsilon, hbetter⟩ := h
  obtain ⟨better, hreturns, hahead⟩ := isScoreBetter_returns hepsilon s' s
  exact hahead (some.inj (hreturns.symm.trans hbetter))

theorem ahead_of_improves {s : Nat → Score} {n : Nat} (hn : 1 ≤ n)
    (hstep : ∀ i < n, Improves (s i) (s (i + 1))) : Ahead (s n) (s 0) := by
  induction n, hn using le_induction with
  | base => exact (hstep 0 one_pos).ahead
  | succ n hn ih =>
    exact (ih fun i hi => hstep i (lt_succ_of_lt hi)).trans (hstep n (lt_succ_self n)).ahead

/-- **Improvements never come back**: after any number of them the score is another one, and the
first is not better than it for any fraction. Without a threshold a score is better exactly when
it is ahead in the lexicographic order. -/
theorem improvements_acyclic {s : Nat → Score} {n : Nat} (hn : 1 ≤ n)
    (hstep : ∀ i < n, Improves (s i) (s (i + 1))) :
    s 0 ≠ s n ∧
    (∀ (P : PerThing) (epsilon : Nat), epsilon ≤ P.accuracy →
      isScoreBetter P (s 0) (s n) epsilon = some false) ∧
    ∀ (P : PerThing) (this that : Score),
      isScoreBetter P this that 0 = some (decide (Ahead this that)) := by
  have hahead := ahead_of_improves hn hstep
  refine ⟨hahead.ne, fun P epsilon hepsilon => ?_, isScoreBetter_zero⟩
  obtain ⟨better, hreturns, hbetter⟩ := isScoreBetter_returns hepsilon (s 0) (s n)
  rw [hreturns, Bool.eq_false_iff.mpr fun h => hahead.asymm (hbetter h)]

/-- Improvements of different components, by different fractions. -/
theorem improvements_acyclic_twice : ∃ s s' s'' : Score,
    Improves s s' ∧ Improves s' s'' ∧ s ≠ s'' ∧ isScoreBetter .perbill s s'' 5 = some false := by
  have hfirst : Improves ⟨3, 8, 9⟩ ⟨5, 2, 9⟩ := ⟨.perbill, 5, by decide, by decide⟩
  have hsecond : Improves ⟨5, 2, 9⟩ ⟨5, 4, 9⟩ := ⟨.percent, 10, by decide, by decide⟩
  obtain ⟨hne, hworse, -⟩ := improvements_acyclic
    (s := fun i => if i = 0 then ⟨3, 8, 9⟩ else if i = 1 then ⟨5, 2, 9⟩ else ⟨5, 4, 9⟩)
    one_le_two fun i hi => by
      rcases (by omega : i = 0 ∨ i = 1) with rfl | rfl
      · exact hfirst
      · exact hsecond
  exact ⟨_, _, _, hfirst, hsecond, hne, hworse .perbill 5 (by decide)⟩

end Substrate.ElectionScore
