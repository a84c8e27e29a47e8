import Mathlib.Data.List.Basic

/-!
# Bit masks as sets of indices

A 64-bit word as the set of the indices of its ones.
-/

namespace Substrate.BitMask

open BitVec

/-- `mask | 1 << i` -/
def setBit (mask : BitVec 64) (i : Nat) : BitVec 64 := mask ||| 1#64 <<< i

/-- `mask & !(1 << i)` -/
def clearBit (mask : BitVec 64) (i : Nat) : BitVec 64 := mask &&& ~~~(1#64 <<< i)

/-- `u64::trailing_ones` -/
def trailingOnes (mask : BitVec 64) : Nat :=
  ((List.range 64).find? (fun i => !mask.getLsbD i)).getD 64

theorem getLsbD_setBit {mask : BitVec 64} {i j : Nat} (hj : j < 64) :
    (setBit mask i).getLsbD j = true ↔ mask.getLsbD j = true ∨ j = i := by
  simp only [setBit, getLsbD_or, getLsbD_shiftLeft, getLsbD_one,
    Bool.or_eq_true, Bool.and_eq_true, decide_eq_true_eq, Bool.not_eq_true', decide_eq_false_iff_not]
  refine or_congr Iff.rfl ?_
  omega

theorem getLsbD_clearBit {mask : BitVec 64} {i j : Nat} (hj : j < 64) :
    (clearBit mask i).getLsbD j = true ↔ mask.getLsbD j = true ∧ j ≠ i := by
  simp only [clearBit, getLsbD_and, getLsbD_not, getLsbD_shiftLeft,
    getLsbD_one, Bool.and_eq_true, decide_eq_true_eq, Bool.not_eq_true',
    Bool.and_eq_false_iff, decide_eq_false_iff_not]
  refine and_congr Iff.rfl ?_
  simp
  omega

theorem getLsbD_trailingOnes (mask : BitVec 64) : mask.getLsbD (trailingOnes mask) = false := by
  unfold trailingOnes
  cases hfind : (List.range 64).find? (fun i => !mask.getLsbD i) with
  | none => exact getLsbD_of_ge mask 64 (Nat.le_refl _)
  | some j =>
    have := (List.find?_range_eq_some.mp hfind).1
    simpa using this

theorem clearBit_setBit_trailingOnes (mask : BitVec 64) :
    clearBit (setBit mask (trailingOnes mask)) (trailingOnes mask) = mask := by
  refine eq_of_getLsbD_eq fun j hj => ?_
  rw [Bool.eq_iff_iff, getLsbD_clearBit hj, getLsbD_setBit hj]
  constructor
  · rintro ⟨hset | rfl, hne⟩
    · exact hset
    · exact absurd rfl hne
  · intro hset
    refine ⟨.inl hset, ?_⟩
    rintro rfl
    rw [getLsbD_trailingOnes] at hset
    cases hset

end Substrate.BitMask
