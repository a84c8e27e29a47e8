import Mathlib.Algebra.Order.Field.Rat
import Mathlib.Data.Nat.Cast.Field
import Mathlib.Data.Nat.Prime.Basic
import Mathlib.Tactic.FieldSimp
import Substrate.MultiplyByRational

/-!
# Fractions of 128-bit numbers

`Rational128` of `primitives/arithmetic/src/rational.rs` and `gcd` of `helpers_128bit.rs`. Fractions
are rescaled to the least common multiple of the denominators through `multiply_by_rational`, whose
quotients are whole there, so nothing is rounded.
-/

namespace Substrate

open MultiplyByRational Nat Option

structure Rational128 where
  n : Nat
  d : Nat
deriving Repr, DecidableEq

namespace Rational128

def gcd (a b : Nat) : Nat :=
  if a = b then b
  else if a = 0 then b
  else if b = 0 then a
  else if a % 2 = 0 then
    if b % 2 = 0 then gcd (a / 2) (b / 2) * 2 else gcd (a / 2) b
  else if b % 2 = 0 then gcd (b / 2) a
  else gcd ((max a b - min a b) / 2) (min a b)
termination_by a + b

def toDen (r : Rational128) (den : Nat) : ExceptT String Option Rational128 :=
  if den = r.d then pure r else (⟨·, den⟩) <$> multiplyByRational r.n den r.d

section

variable (a b : Rational128)

def lcm : ExceptT String Option Nat :=
  if a.d = b.d then pure a.d else multiplyByRational a.d b.d (gcd a.d b.d)

/-- What `checked_add` and `checked_sub` begin with. -/
def scaled : ExceptT String Option (Rational128 × Rational128) :=
  ExceptT.adapt (fun _ => "failed to scale to denominator") do
    let lcm ← lcm a b
    return (← a.toDen lcm, ← b.toDen lcm)

def checkedAdd : ExceptT String Option Rational128 := do
  let s ← scaled a b
  if s.1.n + s.2.n ≤ u128Max then pure ⟨s.1.n + s.2.n, s.1.d⟩
  else throw "overflow while adding numerators"

def checkedSub : ExceptT String Option Rational128 := do
  let s ← scaled a b
  if s.2.n ≤ s.1.n then pure ⟨s.1.n - s.2.n, s.1.d⟩
  else throw "overflow while subtracting numerators"

def crossProducts : Option (BigUint × BigUint) := do
  return (← BigUint.mul (toBigUint a.n) (toBigUint b.d),
    ← BigUint.mul (toBigUint b.n) (toBigUint a.d))

def cmp : Option Ordering :=
  if a.d = b.d then some (compare a.n b.n)
  else if a.d = 0 then some .gt
  else if b.d = 0 then some .lt
  else (crossProducts a b).map fun s => s.1.cmp s.2

def eq : Option Bool :=
  if a.d = b.d then some (a.n = b.n)
  else (crossProducts a b).map fun s => s.1.cmp s.2 == .eq

end

def value (r : Rational128) : ℚ := r.n / r.d

/-! ## The greatest common divisor -/

theorem gcd_half {a b : Nat} (ha : a % 2 = 0) (hb : b % 2 = 1) : (a / 2).gcd b = a.gcd b := by
  have htwo : Nat.Coprime 2 b := coprime_two_left.mpr (odd_iff.mpr hb)
  have hcancel := Nat.Coprime.gcd_mul_left_cancel (a / 2) htwo
  rw [← hcancel, Nat.mul_div_cancel' (dvd_of_mod_eq_zero ha)]

theorem gcd_eq (a b : Nat) : gcd a b = a.gcd b := by
  fun_induction gcd a b with
  | case1 b => exact (gcd_self b).symm
  | case2 b _ => exact (Nat.gcd_zero_left b).symm
  | case3 a _ _ => exact (Nat.gcd_zero_right a).symm
  | case4 a b _ _ _ ha hb ih =>
      rw [ih, Nat.mul_comm, ← Nat.gcd_mul_left, Nat.mul_div_cancel' (dvd_of_mod_eq_zero ha),
        Nat.mul_div_cancel' (dvd_of_mod_eq_zero hb)]
  | case5 a b _ _ _ ha hb ih =>
      rw [ih, gcd_half ha (by omega)]
  | case6 a b _ _ _ ha hb ih =>
      rw [ih, gcd_half hb (by omega), Nat.gcd_comm]
  | case7 a b _ _ _ ha hb ih =>
      -- the difference of two odd numbers is even
      rw [ih, gcd_half (by omega) (by omega)]
      rcases le_total a b with hle | hle
      · rw [max_eq_right hle, min_eq_left hle, gcd_sub_self_left hle, Nat.gcd_comm]
      · rw [max_eq_left hle, min_eq_right hle, gcd_sub_self_left hle]

/-! ## One denominator -/

/-- Both numbers are `u128`, and the denominator is not zero. -/
def Proper (r : Rational128) : Prop := 0 < r.d ∧ r.d ≤ u128Max ∧ r.n ≤ u128Max

instance : DecidablePred Proper := fun _ => inferInstanceAs (Decidable (_ ∧ _))

variable {a b r : Rational128}

theorem toDen_spec {den : Nat} (hr : r.Proper) (hdvd : r.d ∣ den) (hden : 0 < den)
    (hmax : den ≤ u128Max) :
    (∃ r', r.toDen den = some (.ok r') ∧ r'.d = den ∧ r'.value = r.value) ∨
      ∃ e, r.toDen den = some (.error e) := by
  by_cases heq : den = r.d
  · exact .inl ⟨r, if_pos heq, heq.symm, rfl⟩
  have hpos : (r.d : ℚ) ≠ 0 := cast_ne_zero.mpr hr.1.ne'
  have hden' : (den : ℚ) ≠ 0 := cast_ne_zero.mpr hden.ne'
  rw [toDen, if_neg heq, multiplyByRational_eq hr.2.2 hmax hr.2.1 hr.1,
    quotient_of_dvd (hdvd.mul_left r.n), outcome]
  split
  · refine .inl ⟨_, rfl, rfl, ?_⟩
    rw [value, value, cast_div (hdvd.mul_left r.n) hpos, cast_mul]
    field_simp
  · exact .inr ⟨_, rfl⟩

section

variable (ha : a.Proper) (hb : b.Proper)
include ha hb

theorem lcm_spec :
    (∃ den, lcm a b = some (.ok den) ∧ 0 < den ∧ den ≤ u128Max ∧ a.d ∣ den ∧ b.d ∣ den) ∨
      ∃ e, lcm a b = some (.error e) := by
  by_cases heq : a.d = b.d
  · exact .inl ⟨a.d, if_pos heq, ha.1, ha.2.1, dvd_refl _, heq ▸ dvd_refl _⟩
  have hgcd : 0 < a.d.gcd b.d := gcd_pos_of_pos_left _ ha.1
  have hle : a.d.gcd b.d ≤ u128Max := (gcd_le_left _ ha.1).trans ha.2.1
  have hdvd : a.d.gcd b.d ∣ a.d * b.d := (gcd_dvd_left _ _).mul_right _
  rw [lcm, if_neg heq, gcd_eq, multiplyByRational_eq ha.2.1 hb.2.1 hle hgcd, quotient_of_dvd hdvd,
    outcome]
  split
  · rename_i hmax
    exact .inl ⟨_, rfl, lcm_pos ha.1 hb.1, hmax, Nat.dvd_lcm_left _ _, Nat.dvd_lcm_right _ _⟩
  · exact .inr ⟨_, rfl⟩

theorem scaled_spec :
    (∃ x y, scaled a b = some (.ok (x, y)) ∧ 0 < x.d ∧ x.d = y.d ∧
      x.value = a.value ∧ y.value = b.value) ∨
      scaled a b = some (.error "failed to scale to denominator") := by
  unfold scaled
  rcases lcm_spec ha hb with ⟨den, hlcm, hden, hmax, hadvd, hbdvd⟩ | ⟨e, hlcm⟩
  · rw [hlcm]
    rcases toDen_spec ha hadvd hden hmax with ⟨x, hx, hxd, hxv⟩ | ⟨e, hx⟩
    · rcases toDen_spec hb hbdvd hden hmax with ⟨y, hy, hyd, hyv⟩ | ⟨e, hy⟩
      · refine .inl ⟨x, y, ?_, hxd ▸ hden, hxd.trans hyd.symm, hxv, hyv⟩
        simp only [bind, ExceptT.bind, ExceptT.mk, bind_some, ExceptT.bindCont, hx, hy]
        rfl
      · right
        simp only [bind, ExceptT.bind, ExceptT.mk, bind_some, ExceptT.bindCont, hx, hy]
        rfl
    · right
      simp only [bind, ExceptT.bind, ExceptT.mk, bind_some, ExceptT.bindCont, hx]
      rfl
  · right
    rw [hlcm]
    rfl

/-! ## Exactness -/

theorem checkedAdd_exact : ∃ result, a.checkedAdd b = some result ∧
      ∀ r, result = .ok r → r.d ≠ 0 ∧ r.value = a.value + b.value := by
  unfold checkedAdd
  rcases scaled_spec ha hb with ⟨x, y, hscaled, hpos, hd, hx, hy⟩ | hscaled
  · rw [hscaled]
    by_cases hfits : x.n + y.n ≤ u128Max
    · refine ⟨.ok ⟨x.n + y.n, x.d⟩, if_pos hfits, ?_⟩
      rintro r ⟨⟩
      refine ⟨hpos.ne', ?_⟩
      rw [← hx, ← hy, value, value, value, ← hd, cast_add, add_div]
    · refine ⟨.error _, if_neg hfits, ?_⟩
      rintro r ⟨⟩
  · rw [hscaled]
    refine ⟨.error _, rfl, ?_⟩
    rintro r ⟨⟩

end

theorem value_lt_iff (ha : 0 < a.d) (hb : 0 < b.d) : a.value < b.value ↔ a.n * b.d < b.n * a.d := by
  rw [value, value, div_lt_div_iff₀ (cast_pos.mpr ha) (cast_pos.mpr hb)]
  exact_mod_cast Iff.rfl

theorem value_lt_iff_of_eq (ha : 0 < a.d) (hd : a.d = b.d) : a.value < b.value ↔ a.n < b.n := by
  rw [value_lt_iff ha (hd ▸ ha), hd, Nat.mul_lt_mul_right (hd ▸ ha)]

theorem checkedSub_exact (ha : a.Proper) (hb : b.Proper) : ∃ result, a.checkedSub b = some result ∧
      (∀ r, result = .ok r → r.d ≠ 0 ∧ r.value = a.value - b.value) ∧
      (result = .error "overflow while subtracting numerators" ↔
        a.value < b.value ∧ ∃ s, scaled a b = some (.ok s)) := by
  unfold checkedSub
  rcases scaled_spec ha hb with ⟨x, y, hscaled, hpos, hd, hx, hy⟩ | hscaled
  · have hlt := value_lt_iff_of_eq hpos hd
    rw [hx, hy] at hlt
    rw [hscaled]
    by_cases hless : x.n < y.n
    · refine ⟨.error _, if_neg hless.not_ge, ?_, iff_of_true rfl ⟨hlt.mpr hless, _, rfl⟩⟩
      rintro r ⟨⟩
    have hfits := Nat.le_of_not_lt hless
    refine ⟨.ok ⟨x.n - y.n, x.d⟩, if_pos hfits, ?_, ?_⟩
    · rintro r ⟨⟩
      refine ⟨hpos.ne', ?_⟩
      rw [← hx, ← hy, value, value, value, ← hd, cast_sub hfits, sub_div]
    · exact iff_of_false (by simp) fun h => hless (hlt.mp h.1)
  · rw [hscaled]
    refine ⟨.error _, rfl, ?_, ?_⟩
    · rintro r ⟨⟩
    · refine iff_of_false (by decide) ?_
      rintro ⟨-, s, ⟨⟩⟩

theorem compare_congr {α β : Type} [LinearOrder α] [LinearOrder β] {x y : α} {x' y' : β}
    (hlt : x < y ↔ x' < y') (hgt : y < x ↔ y' < x') : compare x y = compare x' y' := by
  rcases lt_trichotomy x y with h | h | h
  · rw [compare_lt_iff_lt.mpr h, compare_lt_iff_lt.mpr (hlt.mp h)]
  · have heq : x' = y' := le_antisymm (not_lt.mp (mt hgt.mpr h.not_gt))
      (not_lt.mp (mt hlt.mpr h.not_lt))
    rw [compare_eq_iff_eq.mpr h, compare_eq_iff_eq.mpr heq]
  · rw [compare_gt_iff_gt.mpr h, compare_gt_iff_gt.mpr (hgt.mp h)]

theorem crossProducts_spec (ha : a.Proper) (hb : b.Proper) : ∃ x y,
    crossProducts a b = some (x, y) ∧ x.cmp y = compare (a.n * b.d) (b.n * a.d) := by
  obtain ⟨x, hx, -, hxvalue⟩ := BigUint.mul_exact (toBigUint a.n) (toBigUint b.d)
  obtain ⟨y, hy, -, hyvalue⟩ := BigUint.mul_exact (toBigUint b.n) (toBigUint a.d)
  refine ⟨x, y, by rw [crossProducts, hx, hy]; rfl, ?_⟩
  rw [BigUint.cmp_exact, hxvalue, hyvalue, (toBigUint_spec ha.2.2).1, (toBigUint_spec hb.2.1).1,
    (toBigUint_spec hb.2.2).1, (toBigUint_spec ha.2.1).1]

theorem cmp_exact (ha : a.Proper) (hb : b.Proper) : a.cmp b = some (compare a.value b.value) := by
  unfold cmp
  split
  · rename_i hd
    exact congrArg some
      (compare_congr (value_lt_iff_of_eq ha.1 hd).symm (value_lt_iff_of_eq hb.1 hd.symm).symm)
  · obtain ⟨x, y, hxy, hcmp⟩ := crossProducts_spec ha hb
    rw [if_neg ha.1.ne', if_neg hb.1.ne', hxy, map_some, hcmp]
    exact congrArg some (compare_congr (value_lt_iff ha.1 hb.1).symm (value_lt_iff hb.1 ha.1).symm)

theorem cmp_eq_iff (ha : a.Proper) (hb : b.Proper) : a.cmp b = some .eq ↔ a.eq b = some true := by
  unfold cmp eq
  split
  · rw [some.injEq, some.injEq, compare_eq_iff_eq, decide_eq_true_iff]
  · obtain ⟨x, y, hxy, -⟩ := crossProducts_spec ha hb
    rw [if_neg ha.1.ne', if_neg hb.1.ne', hxy, map_some, map_some, some.injEq,
      some.injEq, beq_iff_eq]

/-- **Addition, subtraction and comparison are exact.** -/
theorem rational_exact (ha : a.Proper) (hb : b.Proper) : (∃ result, a.checkedAdd b = some result ∧
      ∀ r, result = .ok r → r.d ≠ 0 ∧ r.value = a.value + b.value) ∧
    (∃ result, a.checkedSub b = some result ∧
      (∀ r, result = .ok r → r.d ≠ 0 ∧ r.value = a.value - b.value) ∧
      (result = .error "overflow while subtracting numerators" ↔
        a.value < b.value ∧ ∃ s, scaled a b = some (.ok s))) ∧
    a.cmp b = some (compare a.value b.value) ∧ (a.cmp b = some .eq ↔ a.eq b = some true) :=
  ⟨checkedAdd_exact ha hb, checkedSub_exact ha hb, cmp_exact ha hb, cmp_eq_iff ha hb⟩

theorem rational_exact_sixths :
    checkedAdd ⟨1, 2⟩ ⟨1, 3⟩ = some (.ok ⟨5, 6⟩) ∧
    value ⟨5, 6⟩ = value ⟨1, 2⟩ + value ⟨1, 3⟩ ∧
    cmp ⟨1, 2⟩ ⟨1, 3⟩ = some (compare (value ⟨1, 2⟩) (value ⟨1, 3⟩)) := by
  have hadd : (checkedAdd ⟨1, 2⟩ ⟨1, 3⟩).run = some (.ok ⟨5, 6⟩) := by decide +kernel
  obtain ⟨⟨result, hresult, hexact⟩, -, hcmp, -⟩ :=
    rational_exact (by decide : Proper ⟨1, 2⟩) (by decide : Proper ⟨1, 3⟩)
  exact ⟨hadd, (hexact _ (some.inj (hresult.symm.trans hadd))).2, hcmp⟩

end Rational128

end Substrate
