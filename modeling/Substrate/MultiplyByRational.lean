import Substrate.BigUint

/-!
# Multiplying by a fraction in 128 bits

Model of `multiply_by_rational` of `primitives/arithmetic/src/helpers_128bit.rs`. Where the product
fits, and where `c` divides a factor, the quotient is that of `u128`; otherwise it is computed on
big integers. A divisor of one limb rounds down and a longer one to the nearest. An error of a
conversion that is unwrapped panics, which is `none`.
-/

namespace Substrate.MultiplyByRational

open Nat Option Limbs

def u128Max : Nat := 2 ^ 128 - 1

/-- `split` of a `u128` into two `u64`, the high one first. -/
def split (a : Nat) : Nat × Nat := ((a >>> 64) % 2 ^ 64, a % 2 ^ 64)

def toBigUint (x : Nat) : BigUint :=
  BigUint.lstrip [(BigUint.split (split x).2).2, (BigUint.split (split x).2).1,
    (BigUint.split (split x).1).2, (BigUint.split (split x).1).1]

def wideQuotient (ab : BigUint) (c : Nat) : Option BigUint :=
  if (toBigUint c).length = 1 then BigUint.divUnit ab (.ofNat 32 c)
  else do
    let qr := (← BigUint.div ab (toBigUint c) true).getD ([0], [0])
    match ← BigUint.tryInto qr.2 with
    | .error _ => none
    | .ok r => if r > c / 2 then BigUint.add qr.1 (toBigUint 1) else some qr.1

/-- The branch on big integers. -/
def wide (a b c : Nat) : Option (Except String Nat) := do
  let ab ← BigUint.mul (toBigUint a) (toBigUint b)
  let q ← wideQuotient ab.lstrip c
  return (← BigUint.tryInto q.lstrip).mapError fun _ => "result cannot fit in u128"

/-- `multiply_by_rational` after the division of a factor. -/
def multiply (a b c : Nat) : Option (Except String Nat) :=
  match Checked.mul u128Max a b with
  | some x => (Checked.div x c).map .ok
  | none => wide a b c

/-- `multiply_by_rational` once `a` is the larger factor. -/
def divideFirst (a b c : Nat) : Option (Except String Nat) :=
  if a % c = 0 then multiply (a / c) b 1
  else if b % c = 0 then multiply a (b / c) 1
  else multiply a b c

def multiplyByRational (a b c : Nat) : Option (Except String Nat) :=
  if a = 0 ∨ b = 0 then some (.ok 0)
  else if b > a then divideFirst b a (max c 1)
  else divideFirst a b (max c 1)

/-! ## The quotient -/

/-- `n / c` rounded to the nearest, a half down. -/
def nearestDiv (n c : Nat) : Nat := if n % c > c / 2 then n / c + 1 else n / c

def quotient (n c : Nat) : Nat := if n ≤ u128Max ∨ c < 2 ^ 32 then n / c else nearestDiv n c

/-- An error if the quotient does not fit. -/
def outcome (q : Nat) : Except String Nat :=
  if q ≤ u128Max then .ok q else .error "result cannot fit in u128"

variable {a b c n n' q : Nat}

theorem nearestDiv_bounds (n c : Nat) : n / c ≤ nearestDiv n c ∧ nearestDiv n c ≤ n / c + 1 := by
  unfold nearestDiv
  split <;> omega

theorem nearestDiv_mono (h : n ≤ n') : nearestDiv n c ≤ nearestDiv n' c := by
  have hdiv : n / c ≤ n' / c := Nat.div_le_div_right h
  by_cases hlt : n / c < n' / c
  · have := (nearestDiv_bounds n c).2
    have := (nearestDiv_bounds n' c).1
    omega
  -- with equal quotients the remainders compare
  have heq : n' / c = n / c := by omega
  have hn := div_add_mod' n c
  have hn' := div_add_mod' n' c
  rw [heq] at hn'
  unfold nearestDiv
  rw [heq]
  split_ifs <;> omega

theorem quotient_bounds (n c : Nat) : n / c ≤ quotient n c ∧ quotient n c ≤ nearestDiv n c := by
  unfold quotient
  split
  · exact ⟨le_refl _, (nearestDiv_bounds n c).1⟩
  · exact ⟨(nearestDiv_bounds n c).1, le_refl _⟩

theorem quotient_mono (h : n ≤ n') : quotient n c ≤ quotient n' c := by
  by_cases hdown : n ≤ u128Max ∨ c < 2 ^ 32
  · rw [quotient, if_pos hdown]
    exact (Nat.div_le_div_right h).trans (quotient_bounds n' c).1
  · rw [quotient, quotient, if_neg hdown, if_neg (by omega)]
    exact nearestDiv_mono h

theorem quotient_of_dvd (h : c ∣ n) : quotient n c = n / c := by
  have hnearest : nearestDiv n c = n / c := by
    rw [nearestDiv, mod_eq_zero_of_dvd h, if_neg (not_lt_zero _)]
  unfold quotient
  split
  · rfl
  · exact hnearest

/-! ## The computation -/

theorem toBigUint_spec {x : Nat} (hx : x ≤ u128Max) :
    value (toBigUint x) = x ∧ (toBigUint x).Stripped := by
  have hmax : u128Max = 2 ^ 128 - 1 := rfl
  obtain ⟨hvalue, hs⟩ := BigUint.lstrip_spec [(BigUint.split (split x).2).2,
    (BigUint.split (split x).2).1, (BigUint.split (split x).1).2, (BigUint.split (split x).1).1]
  refine ⟨hvalue.trans ?_, hs⟩
  simp [BigUint.split, split, Nat.shiftRight_eq_div_pow]
  omega

theorem length_toBigUint_le_iff {x k : Nat} (hx : x ≤ u128Max) (hk : 1 ≤ k) :
    (toBigUint x).length ≤ k ↔ x < (2 ^ 32) ^ k := by
  obtain ⟨hvalue, hs⟩ := toBigUint_spec hx
  rw [hs.length_le_iff hk, hvalue]

theorem wideQuotient_eq {ab : BigUint} (hab : ab.Stripped) (hc : c ≤ u128Max) (hpos : 0 < c)
    (hn : u128Max < value ab) :
    ∃ q, wideQuotient ab c = some q ∧ value q = quotient (value ab) c := by
  have hmax : u128Max + 1 = 2 ^ 128 := by decide
  have hmod := mod_lt (value ab) hpos
  obtain ⟨hcvalue, hcs⟩ := toBigUint_spec hc
  have hone := length_toBigUint_le_iff hc (Nat.le_refl 1)
  obtain ⟨d, hd, hdne⟩ := hcs.msb_ne_zero (by omega)
  obtain ⟨e, he, hene⟩ := hab.msb_ne_zero (by omega)
  by_cases hsmall : c < 2 ^ 32
  · have hlimb : (BitVec.ofNat 32 c).toNat = c := by rw [BitVec.toNat_ofNat, mod_eq_of_lt hsmall]
    have hlength : (toBigUint c).length ≠ 0 := by
      intro hnil
      rw [List.length_eq_zero_iff.mp hnil] at hd
      cases hd
    have hne : ab ≠ [] := by
      rintro rfl
      cases he
    rw [wideQuotient, if_pos (by omega), quotient, if_pos (.inr hsmall)]
    have hexact := BigUint.divUnit_exact hne (hlimb ▸ hpos)
    rwa [hlimb] at hexact
  -- the divisor has two to four limbs, the dividend has more
  have hfour := length_toBigUint_le_iff hc (by decide : 1 ≤ 4)
  have hfive : ab.length ≤ 4 ↔ value ab < (2 ^ 32) ^ 4 := hab.length_le_iff (by decide)
  obtain ⟨q, r, hdiv, hq, hr⟩ := BigUint.div_exact true (by omega) (by omega) hd hdne he hene
  rw [hcvalue] at hq hr
  have hr := hr rfl
  have hfits : value r ≤ 2 ^ 128 - 1 := by omega
  obtain ⟨q', hq', -, hvalue⟩ := BigUint.add_exact q (toBigUint 1)
  have hlarge : ¬(value ab ≤ u128Max ∨ c < 2 ^ 32) := by omega
  simp only [wideQuotient, if_neg (by omega : ¬(toBigUint c).length = 1), hdiv,
    Option.bind_eq_bind, Option.bind_some, getD_some, BigUint.tryInto_exact, if_pos hfits, quotient,
    if_neg hlarge, nearestDiv, ← hr]
  split
  · exact ⟨q', hq', by rw [hvalue, hq, (toBigUint_spec (by decide)).1]⟩
  · exact ⟨q, rfl, hq⟩

theorem wide_eq (ha : a ≤ u128Max) (hb : b ≤ u128Max) (hc : c ≤ u128Max) (hpos : 0 < c)
    (hn : u128Max < a * b) : wide a b c = some (outcome (quotient (a * b) c)) := by
  obtain ⟨w, hw, -, hvalue⟩ := BigUint.mul_exact (toBigUint a) (toBigUint b)
  obtain ⟨hstrip, hs⟩ := BigUint.lstrip_spec w
  rw [(toBigUint_spec ha).1, (toBigUint_spec hb).1] at hvalue
  rw [hvalue] at hstrip
  obtain ⟨q, hq, hqvalue⟩ := wideQuotient_eq hs hc hpos (hstrip ▸ hn)
  simp only [wide, hw, hq, Option.bind_eq_bind, Option.bind_some, BigUint.tryInto_exact,
    (BigUint.lstrip_spec q).1, hqvalue, hstrip]
  by_cases hfits : quotient (a * b) c ≤ 2 ^ 128 - 1
  · rw [if_pos hfits, outcome, if_pos (show _ ≤ u128Max from hfits)]
    rfl
  · rw [if_neg hfits, outcome, if_neg (show ¬_ ≤ u128Max from hfits)]
    rfl

theorem multiply_eq (ha : a ≤ u128Max) (hb : b ≤ u128Max) (hc : c ≤ u128Max) (hpos : 0 < c) :
    multiply a b c = some (outcome (quotient (a * b) c)) := by
  by_cases hfits : a * b ≤ u128Max
  · rw [multiply, Checked.mul_of_le hfits, quotient, if_pos (.inl hfits), outcome,
      if_pos ((div_le_self _ _).trans hfits)]
    dsimp only
    rw [Checked.div_of_pos _ hpos]
    rfl
  · have hnone : Checked.mul u128Max a b = none := if_neg hfits
    rw [multiply, hnone]
    exact wide_eq ha hb hc hpos (Nat.lt_of_not_le hfits)

theorem multiply_exact {a' b' : Nat} (ha : a' ≤ u128Max) (hb : b' ≤ u128Max) (hpos : 0 < c)
    (hexact : a' * b' * c = a * b) : multiply a' b' 1 = some (outcome (quotient (a * b) c)) := by
  rw [multiply_eq ha hb (by decide) Nat.one_pos, quotient_of_dvd (Nat.one_dvd _), Nat.div_one,
    quotient_of_dvd (Dvd.intro_left _ hexact), ← hexact, Nat.mul_div_cancel _ hpos]

theorem divideFirst_eq (ha : a ≤ u128Max) (hb : b ≤ u128Max) (hc : c ≤ u128Max) (hpos : 0 < c) :
    divideFirst a b c = some (outcome (quotient (a * b) c)) := by
  unfold divideFirst
  split_ifs with hac hbc
  · refine multiply_exact ((div_le_self a c).trans ha) hb hpos ?_
    rw [Nat.mul_right_comm, Nat.div_mul_cancel (Nat.dvd_of_mod_eq_zero hac)]
  · refine multiply_exact ha ((div_le_self b c).trans hb) hpos ?_
    rw [Nat.mul_assoc, Nat.div_mul_cancel (Nat.dvd_of_mod_eq_zero hbc)]
  · exact multiply_eq ha hb hc hpos

theorem multiplyByRational_eq (ha : a ≤ u128Max) (hb : b ≤ u128Max) (hc : c ≤ u128Max)
    (hpos : 1 ≤ c) : multiplyByRational a b c = some (outcome (quotient (a * b) c)) := by
  unfold multiplyByRational
  rw [max_eq_left hpos]
  split_ifs with hzero hswap
  · rw [Nat.mul_eq_zero.mpr hzero, quotient_of_dvd (Nat.dvd_zero c), Nat.zero_div]
    rfl
  · rw [divideFirst_eq hb ha hc hpos, mul_comm]
  · exact divideFirst_eq ha hb hc hpos

theorem outcome_eq_ok {r : Nat} : outcome q = .ok r ↔ q ≤ u128Max ∧ q = r := by
  unfold outcome
  split
  · rename_i h
    simp [h]
  · rename_i h
    simp [h]

/-- **`multiply_by_rational` is total, accurate to one unit and monotone.** -/
theorem multiplyByRational_accurate (ha : a ≤ u128Max) (hb : b ≤ u128Max) (hc : c ≤ u128Max)
    (hpos : 1 ≤ c) : ∃ result, multiplyByRational a b c = some result ∧
      (∀ r, result = .ok r → a * b / c ≤ r ∧ r ≤ a * b / c + 1 ∧
        (a * b ≤ u128Max ∨ c < 2 ^ 32 ∨ c ∣ a * b → r = a * b / c)) ∧
      (∀ e, result = .error e → u128Max < nearestDiv (a * b) c) ∧
      ∀ a' b' r r', a ≤ a' → a' ≤ u128Max → b ≤ b' → b' ≤ u128Max → result = .ok r →
        multiplyByRational a' b' c = some (.ok r') → r ≤ r' := by
  have hbounds := quotient_bounds (a * b) c
  refine ⟨_, multiplyByRational_eq ha hb hc hpos, fun r hr => ?_, fun e he => ?_, ?_⟩
  · obtain ⟨-, rfl⟩ := outcome_eq_ok.mp hr
    refine ⟨hbounds.1, hbounds.2.trans (nearestDiv_bounds _ _).2, ?_⟩
    rintro (hfits | hsmall | hdvd)
    · exact if_pos (.inl hfits)
    · exact if_pos (.inr hsmall)
    · exact quotient_of_dvd hdvd
  · by_contra hfits
    rw [outcome, if_pos (hbounds.2.trans (Nat.le_of_not_lt hfits))] at he
    cases he
  · intro a' b' r r' hle ha' hle' hb' hr hr'
    rw [multiplyByRational_eq ha' hb' hc hpos] at hr'
    obtain ⟨-, rfl⟩ := outcome_eq_ok.mp hr
    obtain ⟨-, rfl⟩ := outcome_eq_ok.mp (some.inj hr')
    exact quotient_mono (Nat.mul_le_mul hle hle')

theorem multiplyByRational_accurate_wide :
    multiplyByRational (2 ^ 100) (2 ^ 100 + 2 ^ 99) (2 ^ 100 - 1) =
      some (.ok (2 ^ 100 + 2 ^ 99 + 2)) ∧
    2 ^ 100 + 2 ^ 99 + 2 ≤ 2 ^ 100 * (2 ^ 100 + 2 ^ 99) / (2 ^ 100 - 1) + 1 ∧
    ∀ r, multiplyByRational (2 ^ 101) (2 ^ 102 - 1) (2 ^ 100 - 1) = some (.ok r) →
      2 ^ 100 + 2 ^ 99 + 2 ≤ r := by
  have heval : multiplyByRational (2 ^ 100) (2 ^ 100 + 2 ^ 99) (2 ^ 100 - 1) =
      some (.ok (2 ^ 100 + 2 ^ 99 + 2)) := by decide +kernel
  obtain ⟨result, hresult, haccurate, -, hmono⟩ := multiplyByRational_accurate
    (by decide : 2 ^ 100 ≤ u128Max) (by decide : 2 ^ 100 + 2 ^ 99 ≤ u128Max)
    (by decide : 2 ^ 100 - 1 ≤ u128Max) (by decide)
  have hok := some.inj (hresult.symm.trans heval)
  exact ⟨heval, (haccurate _ hok).2.1, fun r => hmono (2 ^ 101) (2 ^ 102 - 1) _ r (by decide)
    (by decide) (by decide) (by decide) hok⟩

end Substrate.MultiplyByRational
