import Mathlib.Algebra.Ring.Nat
import Mathlib.Algebra.Ring.Int.Defs
import Mathlib.Algebra.BigOperators.Group.List.Basic
import Substrate.FinMap

/-!
# Sums over a finite map

Two maps that agree off a key differ in the sum of a weight over their entries by what they have
under that key.
-/

namespace Substrate.FinMap

open List

variable {K V : Type}

def weightAt (f : K → V → Nat) (m : FinMap K V) (k : K) : Nat := ((m.get? k).map (f k)).getD 0

def sumOver (f : K → V → Nat) (m : FinMap K V) : Nat := (m.keys.map (m.weightAt f)).sum

def weight (f : V → Nat) (m : FinMap K V) (k : K) : Nat := ((m.get? k).map f).getD 0

def sumBy (f : V → Nat) (m : FinMap K V) : Nat := (m.keys.map (m.weight f)).sum

theorem weightAt_eq_zero (f : K → V → Nat) {m : FinMap K V} {k : K} (hk : k ∉ m.keys) :
    m.weightAt f k = 0 := by
  have hnone : m.get? k = none := by
    rw [m.mem_keys] at hk
    simpa using hk
  simp [weightAt, hnone]

variable [DecidableEq K]

theorem sumOver_eq_add (f : K → V → Nat) (m : FinMap K V) (k : K) :
    m.sumOver f = m.weightAt f k + ((m.keys.erase k).map (m.weightAt f)).sum := by
  by_cases hk : k ∈ m.keys
  · have hperm := (perm_cons_erase hk).map (m.weightAt f)
    rw [sumOver, hperm.sum_eq, map_cons, sum_cons]
  · rw [weightAt_eq_zero f hk, erase_of_not_mem hk, sumOver, Nat.zero_add]

theorem sumOver_add_weightAt (f : K → V → Nat) {m m' : FinMap K V} {k : K}
    (h : ∀ j, j ≠ k → m'.get? j = m.get? j) :
    m'.sumOver f + m.weightAt f k = m.sumOver f + m'.weightAt f k := by
  have hmem : ∀ j, j ∈ m'.keys.erase k ↔ j ∈ m.keys.erase k := by
    intro j
    rw [m'.nodup.mem_erase_iff, m.nodup.mem_erase_iff]
    refine and_congr_right fun hj => ?_
    rw [m'.mem_keys, m.mem_keys, h j hj]
  have hperm : (m'.keys.erase k).Perm (m.keys.erase k) :=
    (perm_ext_iff_of_nodup (m'.nodup.erase k) (m.nodup.erase k)).mpr hmem
  have hsum : ((m'.keys.erase k).map (m'.weightAt f)).sum =
      ((m.keys.erase k).map (m.weightAt f)).sum := by
    rw [(hperm.map (m'.weightAt f)).sum_eq]
    congr 1
    refine map_congr_left fun j hj => ?_
    have hne : j ≠ k := (m.nodup.mem_erase_iff.mp hj).1
    simp [weightAt, h j hne]
  rw [sumOver_eq_add f m' k, sumOver_eq_add f m k]
  omega

theorem sumBy_add_weight (f : V → Nat) {m m' : FinMap K V} {k : K}
    (h : ∀ j, j ≠ k → m'.get? j = m.get? j) :
    m'.sumBy f + m.weight f k = m.sumBy f + m'.weight f k :=
  sumOver_add_weightAt (fun _ => f) h

end Substrate.FinMap
