import Mathlib.Data.List.GetD
import Mathlib.Data.Nat.Digits.Lemmas
import Mathlib.Tactic.LinearCombination

/-!
# Numbers in limbs

A number in base `2 ^ w` as the list of its limbs from the least significant one, counted loops whose
body can fail, and the estimate of a digit of a quotient from the leading digits.
-/

namespace Substrate

open List Nat

/-! ## Counted loops -/

namespace Loop

variable {σ : Type} (f : Nat → σ → Option σ)

/-- `for i in 0..n`. -/
def up : Nat → σ → Option σ
  | 0, s => some s
  | n + 1, s => (up n s).bind (f n)

/-- `for i in (0..n).rev()`. -/
def down : Nat → σ → Option σ
  | 0, s => some s
  | n + 1, s => (f n s).bind (down n)

variable {f} {n : Nat} {s : σ} (P : Nat → σ → Prop)

theorem up_inv (h : P 0 s)
    (step : ∀ i < n, ∀ s, P i s → ∃ s', f i s = some s' ∧ P (i + 1) s') :
    ∃ s', up f n s = some s' ∧ P n s' := by
  induction n with
  | zero => exact ⟨s, rfl, h⟩
  | succ n ih =>
    obtain ⟨t, ht, hP⟩ := ih fun i hi => step i (hi.trans (lt_succ_self n))
    obtain ⟨t', ht', hP'⟩ := step n (lt_succ_self n) t hP
    exact ⟨t', by rw [up, ht, Option.bind_some, ht'], hP'⟩

theorem down_inv (h : P n s)
    (step : ∀ i < n, ∀ s, P (i + 1) s → ∃ s', f i s = some s' ∧ P i s') :
    ∃ s', down f n s = some s' ∧ P 0 s' := by
  induction n generalizing s with
  | zero => exact ⟨s, rfl, h⟩
  | succ n ih =>
    obtain ⟨t, ht, hP⟩ := step n (lt_succ_self n) s h
    obtain ⟨t', ht', hP'⟩ := ih hP fun i hi => step i (hi.trans (lt_succ_self n))
    exact ⟨t', by rw [down, ht, Option.bind_some, ht'], hP'⟩

end Loop

/-! ## The number that limbs stand for -/

namespace Limbs

variable {w i : Nat} {u v : List (BitVec w)} {d : BitVec w}

def value (u : List (BitVec w)) : Nat := ofDigits (2 ^ w) (u.map BitVec.toNat)

@[simp] theorem value_nil : value ([] : List (BitVec w)) = 0 := rfl

@[simp] theorem value_cons (d : BitVec w) (u : List (BitVec w)) :
    value (d :: u) = d.toNat + 2 ^ w * value u := ofDigits_cons

theorem value_append (u v : List (BitVec w)) :
    value (u ++ v) = value u + (2 ^ w) ^ u.length * value v := by
  simp [value, ofDigits_append]

@[simp] theorem value_replicate_zero (n : Nat) : value (replicate n (0 : BitVec w)) = 0 := by
  simp [value]

theorem value_lt (u : List (BitVec w)) : value u < (2 ^ w) ^ u.length := by
  induction u with
  | nil => exact Nat.one_pos
  | cons d u ih =>
    have hd := d.isLt
    have hle := Nat.mul_le_mul_left (2 ^ w) (succ_le_of_lt ih)
    rw [value_cons, length_cons, Nat.pow_succ']
    rw [Nat.mul_succ] at hle
    omega

theorem value_take_add_drop (u : List (BitVec w)) (i : Nat) :
    value (u.take i) + (2 ^ w) ^ i * value (u.drop i) = value u := by
  rcases Nat.le_total i u.length with hi | hi
  · conv_rhs => rw [← take_append_drop i u, value_append, length_take, min_eq_left hi]
  · rw [take_of_length_le hi, drop_of_length_le hi, value_nil, Nat.mul_zero, Nat.add_zero]

theorem value_take (u : List (BitVec w)) (i : Nat) : value (u.take i) = value u % (2 ^ w) ^ i := by
  have hlt : value (u.take i) < (2 ^ w) ^ i :=
    (value_lt _).trans_le (Nat.pow_le_pow_right (Nat.two_pow_pos w) (length_take_le i u))
  rw [← value_take_add_drop u i, Nat.add_mul_mod_self_left, mod_eq_of_lt hlt]

theorem value_drop_eq_zero (h : value u < (2 ^ w) ^ i) : value (u.drop i) = 0 := by
  have hsplit := value_take_add_drop u i
  by_contra hne
  have := Nat.mul_le_mul_left ((2 ^ w) ^ i) (one_le_iff_ne_zero.mpr hne)
  omega

/-- Limbs past the end are zero. -/
theorem value_drop (u : List (BitVec w)) (i : Nat) :
    value (u.drop i) = (u.getD i 0).toNat + 2 ^ w * value (u.drop (i + 1)) := by
  by_cases hi : i < u.length
  · rw [drop_eq_getElem_cons hi, value_cons, getD_eq_getElem _ _ hi]
  · have hle := Nat.le_of_not_lt hi
    rw [drop_of_length_le hle, drop_of_length_le (by omega), getD_eq_default _ _ hle]
    simp

theorem value_take_succ (u : List (BitVec w)) (i : Nat) :
    value (u.take (i + 1)) = value (u.take i) + (2 ^ w) ^ i * (u.getD i 0).toNat := by
  have hi := value_take_add_drop u i
  have hsucc := value_take_add_drop u (i + 1)
  rw [value_drop, Nat.mul_add] at hi
  rw [Nat.pow_succ, Nat.mul_assoc] at hsucc
  omega

theorem getD_eq_zero (h : value (u.drop i) = 0) : u.getD i 0 = 0 := by
  have hzero := value_drop u i
  rw [h] at hzero
  exact BitVec.eq_of_toNat_eq (by simpa using (Nat.add_eq_zero_iff.mp hzero.symm).1)

theorem value_set (hi : i < u.length) (d : BitVec w) :
    value (u.set i d) + (2 ^ w) ^ i * (u.getD i 0).toNat = value u + (2 ^ w) ^ i * d.toNat := by
  induction u generalizing i with
  | nil => cases hi
  | cons x u ih =>
    cases i with
    | zero => simp; omega
    | succ i =>
      have h := ih (Nat.lt_of_succ_lt_succ hi)
      rw [set_cons_succ, value_cons, value_cons, getD_cons_succ, Nat.pow_succ']
      linear_combination 2 ^ w * h

theorem value_set_top (hi : i < u.length) (h : value u < (2 ^ w) ^ i) (d : BitVec w) :
    value (u.set i d) = value u + (2 ^ w) ^ i * d.toNat ∧ value (u.set i d) < (2 ^ w) ^ (i + 1) := by
  have hset := value_set hi d
  have hle := Nat.mul_le_mul_left ((2 ^ w) ^ i) (succ_le_of_lt d.isLt)
  rw [getD_eq_zero (value_drop_eq_zero h)] at hset
  simp only [BitVec.ofNat_eq_ofNat, BitVec.toNat_zero, Nat.mul_zero, Nat.add_zero] at hset
  rw [Nat.mul_succ] at hle
  exact ⟨hset, by rw [hset, Nat.pow_succ]; omega⟩

theorem value_of_getLast (h : u.getLast? = some d) :
    (2 ^ w) ^ (u.length - 1) * d.toNat ≤ value u ∧
      value u < (2 ^ w) ^ (u.length - 1) * (d.toNat + 1) := by
  obtain ⟨init, rfl⟩ := getLast?_eq_some_iff.mp h
  have hlt := value_lt init
  simp only [value_append, value_cons, value_nil, length_append, length_singleton,
    Nat.add_sub_cancel, Nat.mul_zero, Nat.add_zero, Nat.mul_succ]
  omega

end Limbs

theorem compare_add_mul {p x y : Nat} (hx : x < p) (hy : y < p) (a b : Nat) :
    compare (x + p * a) (y + p * b) = (compare a b).then (compare x y) := by
  rcases lt_trichotomy a b with h | rfl | h
  · have := Nat.mul_le_mul_left p (succ_le_of_lt h)
    rw [mul_succ] at this
    rw [compare_lt_iff_lt.mpr h, compare_lt_iff_lt.mpr (by omega)]
    rfl
  · simp only [Nat.compare_eq_ite_lt, Nat.add_lt_add_iff_right, lt_irrefl, if_false]
    rfl
  · have := Nat.mul_le_mul_left p (succ_le_of_lt h)
    rw [mul_succ] at this
    rw [compare_gt_iff_gt.mpr h, compare_gt_iff_gt.mpr (by omega)]
    rfl

/-! ## The digits of a quotient -/

/-- The digits of `x` above those of weight `p` are `x₂` and, above it, `X`. -/
structure Leading (b p x X x₂ : Nat) : Prop where
  digit : x₂ < b
  le : X * (b * p) + x₂ * p ≤ x
  lt : x < X * (b * p) + (x₂ + 1) * p

namespace Leading

variable {b p x X x₂ v v₁ v₂ q r : Nat}

theorem lt_top (hx : Leading b p x X x₂) : x < (X + 1) * (b * p) :=
  calc x < X * (b * p) + (x₂ + 1) * p := hx.lt
    _ ≤ X * (b * p) + b * p := Nat.add_le_add_left (Nat.mul_le_mul_right p hx.digit) _
    _ = (X + 1) * (b * p) := (Nat.succ_mul ..).symm

theorem top_le (hx : Leading b p x X x₂) : X * (b * p) ≤ x := (Nat.le_add_right _ _).trans hx.le

theorem of_limbs {w : Nat} (u : List (BitVec w)) (i : Nat) :
    Leading (2 ^ w) ((2 ^ w) ^ i) (Limbs.value u) (Limbs.value (u.drop (i + 1)))
      (u.getD i 0).toNat := by
  have hsplit := Limbs.value_take_add_drop u i
  have hlt : Limbs.value (u.take i) < (2 ^ w) ^ i := by
    rw [Limbs.value_take]
    exact mod_lt _ (Nat.pow_pos (Nat.two_pow_pos w))
  rw [Limbs.value_drop] at hsplit
  refine ⟨(u.getD i 0).isLt, ?_, ?_⟩
  · linarith
  · linarith

section

variable (hx : Leading b p x X x₂) (hv : Leading b p v v₁ v₂)
include hx hv

theorem top_lt (h : x < b * v) : X < b * (v₁ + 1) := by
  refine Nat.lt_of_mul_lt_mul_right (a := b * p) ?_
  calc X * (b * p) ≤ x := hx.top_le
    _ < b * v := h
    _ ≤ b * ((v₁ + 1) * (b * p)) := Nat.mul_le_mul_left b hv.lt_top.le
    _ = b * (v₁ + 1) * (b * p) := (Nat.mul_assoc ..).symm

/-- The first estimate is not too small. -/
theorem div_le (hv₁ : 0 < v₁) : x / v ≤ X / v₁ := by
  rw [Nat.le_div_iff_mul_le hv₁, ← Nat.lt_succ_iff]
  refine Nat.lt_of_mul_lt_mul_right (a := b * p) ?_
  calc x / v * v₁ * (b * p) = x / v * (v₁ * (b * p)) := Nat.mul_assoc ..
    _ ≤ x / v * v := Nat.mul_le_mul_left _ hv.top_le
    _ ≤ x := Nat.div_mul_le_self x v
    _ < (X + 1) * (b * p) := hx.lt_top

variable (hX : q * v₁ + r = X)
include hX

/-- An estimate that the second digit shows to be too large. -/
theorem div_lt (h : b * r + x₂ < q * v₂) : x / v < q := by
  refine Nat.div_lt_of_lt_mul ?_
  calc x < X * (b * p) + (x₂ + 1) * p := hx.lt
    _ = q * (v₁ * (b * p)) + (b * r + x₂ + 1) * p := by rw [← hX]; ring
    _ ≤ q * (v₁ * (b * p)) + q * v₂ * p := Nat.add_le_add_left (Nat.mul_le_mul_right p h) _
    _ = q * (v₁ * (b * p) + v₂ * p) := by ring
    _ ≤ v * q := by rw [Nat.mul_comm v]; exact Nat.mul_le_mul_left q hv.le

/-- An estimate that the second digit does not show to be too large. -/
theorem le_div_succ (hpos : 0 < b * p) (hv₁ : 0 < v₁) (hq : q ≤ b) (h : q * v₂ ≤ b * r + x₂) :
    q ≤ x / v + 1 := by
  have hbase : b * p ≤ v := (Nat.le_mul_of_pos_left _ hv₁).trans hv.top_le
  rw [← Nat.add_div_right x (hpos.trans_le hbase), Nat.le_div_iff_mul_le (hpos.trans_le hbase)]
  calc q * v ≤ q * (v₁ * (b * p) + (v₂ + 1) * p) := Nat.mul_le_mul_left q hv.lt.le
    _ = q * v₁ * (b * p) + q * v₂ * p + q * p := by ring
    _ ≤ q * v₁ * (b * p) + (b * r + x₂) * p + b * p := by gcongr
    _ = X * (b * p) + x₂ * p + b * p := by rw [← hX]; ring
    _ ≤ x + v := Nat.add_le_add hx.le hbase

/-- An estimate that leaves more than the base is exact. -/
theorem lt_and_le_div (hpos : 0 < b * p) (hv₁ : 0 < v₁) (h : x < b * v) (hr : b ≤ r) :
    q < b ∧ q ≤ x / v := by
  have hbase : b * p ≤ v := (Nat.le_mul_of_pos_left _ hv₁).trans hv.top_le
  have htop := top_lt hx hv h
  have hq : q < b := by
    refine Nat.lt_of_mul_lt_mul_right (a := v₁) ?_
    rw [Nat.mul_succ] at htop
    omega
  refine ⟨hq, (Nat.le_div_iff_mul_le (hpos.trans_le hbase)).mpr ?_⟩
  calc q * v ≤ q * ((v₁ + 1) * (b * p)) := Nat.mul_le_mul_left q hv.lt_top.le
    _ = (q * v₁ + q) * (b * p) := by ring
    _ ≤ X * (b * p) := Nat.mul_le_mul_right _ (by omega)
    _ ≤ x := hx.top_le

end

end Leading

end Substrate
