import Mathlib.Algebra.Ring.Nat

/-!
# Little-endian words in a byte store

A byte store is a function from addresses to bytes. After `loadLe_storeLe_same` and
`loadLe_storeLe_disjoint`, no proof looks at single bytes again.
-/

namespace Substrate

variable {f g : Nat → UInt8} {n m p q v : Nat}

/-- The value of the `n` bytes from `p` on. -/
def loadLe (f : Nat → UInt8) : (n p : Nat) → Nat
  | 0, _ => 0
  | n + 1, p => (f p).toNat + 256 * loadLe f n (p + 1)

/-- The store after writing the low `n` bytes of `v` at `p`. -/
def storeLe (f : Nat → UInt8) : (n p v : Nat) → Nat → UInt8
  | 0, _, _ => f
  | n + 1, p, v => fun a => if a = p then UInt8.ofNat v else storeLe f n (p + 1) (v / 256) a

theorem loadLe_congr (h : ∀ a, p ≤ a → a < p + n → f a = g a) : loadLe f n p = loadLe g n p := by
  induction n generalizing p with
  | zero => rfl
  | succ n ih =>
    have htail : loadLe f n (p + 1) = loadLe g n (p + 1) :=
      ih fun a hle hlt => h a (by omega) (by omega)
    rw [loadLe, loadLe, h p (Nat.le_refl p) (by omega), htail]

theorem storeLe_outside {a : Nat} (h : a < p ∨ p + n ≤ a) : storeLe f n p v a = f a := by
  induction n generalizing p v with
  | zero => rfl
  | succ n ih =>
    have hne : a ≠ p := by omega
    simp only [storeLe, if_neg hne]
    exact ih (by omega)

theorem loadLe_storeLe_same : loadLe (storeLe f n p v) n p = v % 256 ^ n := by
  induction n generalizing p v with
  | zero => simp [loadLe, Nat.mod_one]
  | succ n ih =>
    -- the first byte is not among the bytes of the tail
    have htail : loadLe (storeLe f (n + 1) p v) n (p + 1) =
        loadLe (storeLe f n (p + 1) (v / 256)) n (p + 1) :=
      loadLe_congr fun a hle _ => by
        have hne : a ≠ p := by omega
        simp [storeLe, hne]
    have hhead : (storeLe f (n + 1) p v p).toNat = v % 256 := by
      simp [storeLe]
    rw [loadLe, htail, hhead, ih, Nat.pow_succ, Nat.mul_comm (256 ^ n), Nat.mod_mul]

end Substrate
