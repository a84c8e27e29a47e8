import Mathlib.Data.List.DropRight
import Substrate.Checked
import Substrate.Limbs

/-!
# Big integers

Model of `BigUint` of `primitives/arithmetic/src/biguint.rs`: limbs of 32 bits, and the algorithms
on them. The limbs are listed from the least significant one, the way `get` and `set` count them;
the source stores them the other way. An index out of range, and an overflow or underflow of a
`Double` or a `Single`, panics, which is `none`.
-/

namespace Substrate

open Nat Limbs List
open Option (bind_eq_bind bind_some bind_eq_some_iff)

abbrev Single := BitVec 32

abbrev BigUint := List Single

def double (n : Nat) : Option Nat := if n < 2 ^ 64 then some n else none

namespace BigUint

/-- `split` of a `Double`, the high limb first. -/
def split (a : Nat) : Single × Single := (.ofNat 32 (a >>> 32), .ofNat 32 a)

def withCapacity (size : Nat) : BigUint := .replicate (max size 1) 0

def get (u : BigUint) (index : Nat) : Option Single := u[index]?

def set (u : BigUint) (index : Nat) (value : Single) : Option BigUint :=
  if index < u.length then some (List.set u index value) else none

def msb (u : BigUint) : Option Single := u.getLast?

/-- Without the zeros above the number. Zero keeps its lowest limb. -/
def lstrip (u : BigUint) : BigUint :=
  if u.rdropWhile (· == 0) = [] then u.take 1 else u.rdropWhile (· == 0)

/-- Zeros above the number, to `size` limbs. -/
def lpad (u : BigUint) (size : Nat) : BigUint := u ++ .replicate (size - u.length) 0

/-! ## Sums -/

/-- A round of `add`, with the limbs that are written and the carry. -/
def addRound (u v : BigUint) (j : Nat) (s : BigUint × Nat) : Option (BigUint × Nat) := do
  let t ← double ((u.getD j 0).toNat + (v.getD j 0).toNat + s.2)
  return (← set s.1 j (.ofNat 32 (t % 2 ^ 32)), t / 2 ^ 32)

def add (u v : BigUint) : Option BigUint := do
  let n := max u.length v.length
  let s ← Loop.up (addRound u v) n (withCapacity (n + 1), 0)
  set s.1 n (.ofNat 32 s.2)

/-- A limb of the difference, and the next borrow. -/
def subLimb (u v k : Nat) : Option (Nat × Nat) :=
  match (Checked.sub u v).bind (Checked.sub · k) with
  | some t => some (t, 0)
  | none => do return (← Checked.sub (← Checked.sub (← double (u + 2 ^ 32)) v) k, 1)

def subRound (u v : BigUint) (j : Nat) (s : BigUint × Nat) : Option (BigUint × Nat) := do
  let t ← subLimb (u.getD j 0).toNat (v.getD j 0).toNat s.2
  return (← set s.1 j (.ofNat 32 t.1), t.2)

/-- An error if there is a borrow at the end. -/
def sub (u v : BigUint) : Option (Except BigUint BigUint) := do
  let n := max u.length v.length
  let s ← Loop.up (subRound u v) n (withCapacity n, 0)
  return if s.2 = 0 then .ok s.1 else .error s.1

/-! ## Products -/

def mulRound (a : Single) (v : BigUint) (j i : Nat) (s : BigUint × Single) :
    Option (BigUint × Single) := do
  let t ← double (a.toNat * (← get v i).toNat + (← get s.1 (i + j)).toNat + s.2.toNat)
  return (← set s.1 (i + j) (.ofNat 32 (t % 2 ^ 32)), .ofNat 32 (t / 2 ^ 32))

def mulRow (u v : BigUint) (j : Nat) (w : BigUint) : Option BigUint := do
  let a ← get u j
  if a = 0 then return w
  let s ← Loop.up (mulRound a v j) v.length (w, 0)
  set s.1 (j + v.length) s.2

def mul (u v : BigUint) : Option BigUint :=
  Loop.up (mulRow u v) u.length (withCapacity (v.length + u.length))

/-! ## Quotients -/

/-- A round of `div_unit`, with the limbs that are written and the remainder. -/
def divUnitRound (u : BigUint) (other : Single) (d : Nat) (s : BigUint × Single) :
    Option (BigUint × Single) := do
  let t ← double (2 ^ 32 * s.2.toNat + (← get u d).toNat)
  let q ← Checked.div t other.toNat
  return (← set s.1 d (.ofNat 32 q), .ofNat 32 (t % other.toNat))

def divUnit (u : BigUint) (other : Single) : Option BigUint := do
  let s ← Loop.down (divUnitRound u (.ofNat 32 (max other.toNat 1))) u.length
    (withCapacity u.length, 0)
  return s.1

/-- The closure `test` of `div`, on `qhat` and `rhat`. The limbs `v₁` and `v₂` are the leading ones
of the divisor and `u₂` is the third of the dividend. -/
def test (v₁ v₂ u₂ : Single) (s : Nat × Nat) : Option (Bool × Nat × Nat) := do
  let lhs ← double (s.1 * v₂.toNat)
  let rhs ← double (2 ^ 32 * s.2 + u₂.toNat)
  if s.1 ≥ 2 ^ 32 ∨ lhs > rhs then
    return (true, ← Checked.sub s.1 1, ← double (s.2 + v₁.toNat))
  else return (false, s)

theorem test_lt {v₁ v₂ u₂ : Single} {s s' : Nat × Nat} (h : test v₁ v₂ u₂ s = some (true, s')) :
    s'.1 < s.1 := by
  simp only [test, bind_eq_bind, bind_eq_some_iff, Option.pure_def] at h
  obtain ⟨lhs, -, rhs, -, h⟩ := h
  split_ifs at h
  · simp only [Checked.sub, bind_eq_some_iff, Option.ite_none_right_eq_some,
      Option.some.injEq, Prod.mk.injEq, true_and] at h
    obtain ⟨q, ⟨hle, rfl⟩, r, -, rfl⟩ := h
    exact sub_lt hle Nat.one_pos
  · simp at h

def testWhile (v₁ v₂ u₂ : Single) (s : Nat × Nat) : Option Nat :=
  if s.2 < 2 ^ 32 then
    match _h : test v₁ v₂ u₂ s with
    | none => none
    | some (false, s') => some s'.1
    | some (true, s') => testWhile v₁ v₂ u₂ s'
  else some s.1
termination_by s.1
decreasing_by exact test_lt _h

/-- Steps D3.0 and D3.1: `qhat` for the limb `j` of the quotient by `v`, of `n` limbs. -/
def estimate (n : Nat) (v : BigUint) (j : Nat) (u : BigUint) : Option Nat := do
  let dividend ← double (2 ^ 32 * (← get u (j + n)).toNat + (← get u (j + n - 1)).toNat)
  let divisor ← get v (n - 1)
  let qhat ← Checked.div dividend divisor.toNat
  let v₂ ← get v (n - 2)
  let u₂ ← get u (j + n - 2)
  let s ← test divisor v₂ u₂ (qhat, dividend % divisor.toNat)
  testWhile divisor v₂ u₂ s.2

def window (u : BigUint) (j n : Nat) : Option BigUint :=
  if j + n < u.length then some ((u.drop j).take (n + 1)) else none

def setWindow (u : BigUint) (j n : Nat) (s : BigUint) : Option BigUint :=
  Loop.up (fun i u => do set u (j + i) (← get s i)) (n + 1) u

/-- `From<u64>`. -/
def fromDouble (a : Nat) : BigUint := [(split a).2, (split a).1]

/-- A round of step D2, on the normalized dividend and the quotient. -/
def divRound (n : Nat) (v : BigUint) (j : Nat) (s : BigUint × BigUint) :
    Option (BigUint × BigUint) := do
  let qhat ← estimate n v j s.1
  -- step D4
  let lhs ← window s.1 j n
  let rhs ← mul v (fromDouble qhat)
  match ← sub lhs rhs with
  | .ok t => return (← setWindow s.1 j n t, ← set s.2 j (.ofNat 32 qhat))
  | .error t =>
    let u ← setWindow s.1 j n t
    let q ← set s.2 j (.ofNat 32 qhat)
    -- step D6
    let digit ← Checked.sub (← get q j).toNat 1
    let r ← add v (← window u j n)
    return (← setWindow u j n r, ← set q j (.ofNat 32 digit))

/-- A round of undoing the normalization by `nb` bits. -/
def shiftRound (u : BigUint) (nb d : Nat) (r : BigUint) : Option BigUint := do
  set r d ((← get u d) >>> nb ||| (← get u (d + 1)) <<< (32 - nb))

def remainder (u : BigUint) (nb n : Nat) : Option BigUint :=
  if nb > 0 then do
    let r ← Loop.up (shiftRound u nb) (n - 1) (withCapacity n)
    set r (n - 1) ((← get u (n - 1)) >>> nb)
  else some u

/-- The quotient and, if `rem`, the remainder. `some none` is the `None` of an argument that is not
stripped or a divisor that is too short or too long. -/
def div (u other : BigUint) (rem : Bool) : Option (Option (BigUint × BigUint)) := do
  if other.length ≤ 1 then return none
  if (← msb other) = 0 then return none
  if (← msb u) = 0 ∨ u.length ≤ other.length then return none
  let n := other.length
  let m := u.length - n
  let nb := (← msb other).clz.toNat
  let normalizer : BigUint := [.ofNat 32 (2 ^ nb)]
  -- step D1
  let selfNorm := lpad (← mul u normalizer) (n + m + 1)
  let otherNorm := lstrip (← mul other normalizer)
  -- step D2
  let s ← Loop.down (divRound n otherNorm) (m + 1) (selfNorm, withCapacity (m + 1))
  return some (s.2, ← if rem then remainder s.1 nb n else some (withCapacity n))

/-! ## Comparison and conversion -/

/-- `Ord` of slices of one length. -/
def cmpSlices : List Single → List Single → Ordering
  | a :: as, b :: bs => (compare a.toNat b.toNat).then (cmpSlices as bs)
  | _, _ => .eq

/-- Without leading zeros, the most significant limb first. -/
def cmp (u v : BigUint) : Ordering :=
  match u.reverse.dropWhile (· == 0), v.reverse.dropWhile (· == 0) with
  | [], [] => .eq
  | _ :: _, [] => .gt
  | [], _ :: _ => .lt
  | lhs@(_ :: _), rhs@(_ :: _) => (compare lhs.length rhs.length).then (cmpSlices lhs rhs)

/-- `TryFrom<BigUint> for u128`. -/
def tryInto (u : BigUint) : Option (Except String Nat) :=
  if u.lstrip.length * 32 > 128 then some (.error "cannot fit a number into u128")
  else do
    let acc ← Loop.up (fun i acc => do
      Checked.add (2 ^ 128 - 1) acc (((← get u.lstrip i).toNat <<< (32 * i)) % 2 ^ 128))
      u.lstrip.length 0
    return .ok acc

/-! ## Correctness -/

theorem double_of_lt {n : Nat} (h : n < 2 ^ 64) : double n = some n := if_pos h

variable {u v w : BigUint} {i j k n : Nat}

theorem get_of_lt (h : i < u.length) : get u i = some (u.getD i 0) := by
  rw [get, getElem?_eq_getElem h, getD_eq_getElem _ _ h]

theorem set_of_lt (h : i < u.length) (d : Single) : set u i d = some (List.set u i d) := if_pos h

@[simp] theorem length_withCapacity (size : Nat) : (withCapacity size).length = max size 1 :=
  length_replicate

@[simp] theorem value_withCapacity (size : Nat) : value (withCapacity size) = 0 :=
  value_replicate_zero _

/-- What the rounds of `add` before `j` have written, and their carry. -/
structure Added (u v : BigUint) (n j : Nat) (s : BigUint × Nat) : Prop where
  length : s.1.length = n + 1
  carry : s.2 ≤ 1
  lt : value s.1 < (2 ^ 32) ^ j
  value : value s.1 + (2 ^ 32) ^ j * s.2 = value (u.take j) + value (v.take j)

theorem Added.round {s : BigUint × Nat} (h : Added u v n j s) (hj : j < n) :
    ∃ s', addRound u v j s = some s' ∧ Added u v n (j + 1) s' := by
  have hu := (u.getD j 0).isLt
  have hv := (v.getD j 0).isLt
  have hcarry := h.carry
  have hj' : j < s.1.length := by rw [h.length]; omega
  have hdiv := mod_add_div ((u.getD j 0).toNat + (v.getD j 0).toNat + s.2) (2 ^ 32)
  obtain ⟨hset, hlt⟩ := value_set_top hj' h.lt
    (.ofNat 32 (((u.getD j 0).toNat + (v.getD j 0).toNat + s.2) % 2 ^ 32))
  rw [addRound, double_of_lt (by omega)]
  simp only [bind_eq_bind, bind_some, set_of_lt hj']
  refine ⟨_, rfl, by rw [length_set, h.length], by dsimp only; omega, hlt, ?_⟩
  rw [hset, value_take_succ, value_take_succ, BitVec.toNat_ofNat, mod_mod]
  linear_combination h.value + (2 ^ 32) ^ j * hdiv

theorem add_exact (u v : BigUint) : ∃ w, add u v = some w ∧
    w.length = max u.length v.length + 1 ∧ value w = value u + value v := by
  obtain ⟨s, hs, h⟩ := Loop.up_inv (Added u v (max u.length v.length))
    (s := (withCapacity (max u.length v.length + 1), 0)) ⟨by simp, by simp, by simp, by simp⟩
    fun j hj s h => h.round hj
  have hn : max u.length v.length < s.1.length := by rw [h.length]; omega
  have hcarry := h.carry
  have hvalue := h.value
  rw [take_of_length_le (le_max_left ..), take_of_length_le (le_max_right ..)] at hvalue
  rw [add, hs]
  simp only [bind_eq_bind, bind_some, set_of_lt hn]
  refine ⟨_, rfl, by rw [length_set, h.length], ?_⟩
  rw [(value_set_top hn h.lt _).1, BitVec.toNat_ofNat, mod_eq_of_lt (by omega), hvalue]

theorem subLimb_spec (d e : Single) (hk : k ≤ 1) :
    ∃ t, subLimb d.toNat e.toNat k = some t ∧ t.1 < 2 ^ 32 ∧ t.2 ≤ 1 ∧
      d.toNat + 2 ^ 32 * t.2 = t.1 + e.toNat + k := by
  have hd := d.isLt
  have he := e.isLt
  by_cases hle : e.toNat + k ≤ d.toNat
  · have hsub : (Checked.sub d.toNat e.toNat).bind (Checked.sub · k) =
        some (d.toNat - e.toNat - k) := by
      rw [Checked.sub_of_le (by omega), bind_some, Checked.sub_of_le (by omega)]
    rw [subLimb, hsub]
    exact ⟨_, rfl, by dsimp only; omega, by dsimp only; omega, by dsimp only; omega⟩
  · have hnone : (Checked.sub d.toNat e.toNat).bind (Checked.sub · k) = none := by
      unfold Checked.sub
      split
      · exact if_neg (by omega)
      · rfl
    rw [subLimb, hnone, double_of_lt (by omega)]
    simp only [bind_eq_bind, bind_some]
    rw [Checked.sub_of_le (by omega), bind_some, Checked.sub_of_le (by omega)]
    exact ⟨_, rfl, by dsimp only; omega, by dsimp only; omega, by dsimp only; omega⟩

/-- What the rounds of `sub` before `j` have written, and their borrow. -/
structure Subtracted (u v : BigUint) (n j : Nat) (s : BigUint × Nat) : Prop where
  length : s.1.length = max n 1
  borrow : s.2 ≤ 1
  lt : value s.1 < (2 ^ 32) ^ j
  value : value (u.take j) + (2 ^ 32) ^ j * s.2 = value s.1 + value (v.take j)

theorem Subtracted.round {s : BigUint × Nat} (h : Subtracted u v n j s) (hj : j < n) :
    ∃ s', subRound u v j s = some s' ∧ Subtracted u v n (j + 1) s' := by
  obtain ⟨t, hlimb, ht, hborrow, hvalue⟩ := subLimb_spec (u.getD j 0) (v.getD j 0) h.borrow
  have hj' : j < s.1.length := by rw [h.length]; omega
  obtain ⟨hset, hlt⟩ := value_set_top hj' h.lt (.ofNat 32 t.1)
  rw [subRound, hlimb]
  simp only [bind_eq_bind, bind_some, set_of_lt hj']
  refine ⟨_, rfl, by rw [length_set, h.length], hborrow, hlt, ?_⟩
  rw [hset, value_take_succ, value_take_succ, BitVec.toNat_ofNat, mod_eq_of_lt ht]
  linear_combination h.value + (2 ^ 32) ^ j * hvalue

/-- The difference wraps around where it is negative. -/
theorem sub_exact (u v : BigUint) :
    (∃ w, sub u v = some (.ok w) ∧ w.length = max (max u.length v.length) 1 ∧
      value u = value w + value v) ∨
    ∃ w, sub u v = some (.error w) ∧ w.length = max (max u.length v.length) 1 ∧
      value u + (2 ^ 32) ^ max u.length v.length = value w + value v := by
  obtain ⟨s, hs, h⟩ := Loop.up_inv (Subtracted u v (max u.length v.length))
    (s := (withCapacity (max u.length v.length), 0)) ⟨by simp, by simp, by simp, by simp⟩
    fun j hj s h => h.round hj
  have hborrow := h.borrow
  have hvalue := h.value
  rw [take_of_length_le (le_max_left ..), take_of_length_le (le_max_right ..)] at hvalue
  rw [sub, hs]
  by_cases hzero : s.2 = 0
  · rw [hzero, Nat.mul_zero, Nat.add_zero] at hvalue
    exact .inl ⟨s.1, by simp [hzero], h.length, hvalue⟩
  · rw [(by omega : s.2 = 1), Nat.mul_one] at hvalue
    exact .inr ⟨s.1, by simp [hzero], h.length, hvalue⟩

/-- What the rounds before `i` of the row `j` of `mul` have written, and their carry. -/
structure Row (a : Single) (v : BigUint) (j : Nat) (w : BigUint) (i : Nat)
    (s : BigUint × Single) : Prop where
  length : s.1.length = w.length
  rest : s.1.drop (j + v.length) = w.drop (j + v.length)
  value : value s.1 + (2 ^ 32) ^ (i + j) * s.2.toNat =
    value w + (2 ^ 32) ^ j * (a.toNat * value (v.take i))

theorem Row.round {a : Single} {s : BigUint × Single} (h : Row a v j w i s)
    (hw : j + v.length < w.length) (hi : i < v.length) :
    ∃ s', mulRound a v j i s = some s' ∧ Row a v j w (i + 1) s' := by
  have hlimb := (s.1.getD (i + j) 0).isLt
  have hcarry := s.2.isLt
  have hij : i + j < s.1.length := by rw [h.length]; omega
  -- at most (B - 1) * (B - 1) + (B - 1) + (B - 1)
  have hle : a.toNat * (v.getD i 0).toNat ≤ (2 ^ 32 - 1) * (2 ^ 32 - 1) :=
    Nat.mul_le_mul (le_sub_one_of_lt a.isLt) (le_sub_one_of_lt (v.getD i 0).isLt)
  obtain ⟨t, ht⟩ : ∃ t, t =
      a.toNat * (v.getD i 0).toNat + (s.1.getD (i + j) 0).toNat + s.2.toNat := ⟨_, rfl⟩
  have hlt : t < 2 ^ 64 := by omega
  have hdiv := mod_add_div t (2 ^ 32)
  have hset := value_set hij (.ofNat 32 (t % 2 ^ 32))
  rw [mulRound, get_of_lt hi, get_of_lt hij]
  simp only [bind_eq_bind, bind_some]
  rw [← ht, double_of_lt hlt, bind_some, set_of_lt hij]
  refine ⟨_, rfl, by rw [length_set, h.length], ?_, ?_⟩
  · rw [drop_set_of_lt (by omega), h.rest]
  · have hcarry' : t / 2 ^ 32 < 2 ^ 32 := by omega
    rw [BitVec.toNat_ofNat, mod_mod] at hset
    rw [value_take_succ, BitVec.toNat_ofNat, mod_eq_of_lt hcarry']
    linear_combination hset + h.value + (2 ^ 32) ^ (i + j) * (hdiv.trans ht)

theorem mulRow_exact (hj : j < u.length) (hw : j + v.length < w.length)
    (hvalue : value w = value (u.take j) * value v) :
    ∃ w', mulRow u v j w = some w' ∧ w'.length = w.length ∧
      value w' = value (u.take (j + 1)) * value v := by
  have hzero : value (w.drop (j + v.length)) = 0 := by
    refine value_drop_eq_zero ?_
    rw [hvalue, Nat.pow_add, value_take]
    exact Nat.mul_lt_mul'' (mod_lt _ (by positivity)) (value_lt v)
  rw [mulRow, get_of_lt hj]
  simp only [bind_eq_bind, bind_some]
  rw [value_take_succ]
  split
  · rename_i ha
    refine ⟨w, rfl, rfl, ?_⟩
    rw [hvalue, ha]
    simp
  obtain ⟨s, hs, h⟩ := Loop.up_inv (Row (u.getD j 0) v j w) (n := v.length) (s := (w, 0))
    ⟨rfl, rfl, by simp⟩ fun i hi s h => h.round hw hi
  have htop : j + v.length < s.1.length := by rw [h.length]; exact hw
  have hset := value_set htop s.2
  have hlimb := getD_eq_zero (h.rest ▸ hzero : value (s.1.drop (j + v.length)) = 0)
  have hrow := h.value
  rw [hlimb] at hset
  rw [take_length] at hrow
  rw [hs, bind_some, set_of_lt htop]
  refine ⟨_, rfl, by rw [length_set, h.length], ?_⟩
  simp only [BitVec.ofNat_eq_ofNat, BitVec.toNat_zero, Nat.mul_zero, Nat.add_zero] at hset
  rw [hset, Nat.add_comm j, hrow, hvalue]
  ring

theorem mul_exact (u v : BigUint) : ∃ w, mul u v = some w ∧
    w.length = max (v.length + u.length) 1 ∧ value w = value u * value v := by
  obtain ⟨w, hw, hlength, hvalue⟩ := Loop.up_inv (f := mulRow u v) (n := u.length)
    (s := withCapacity (v.length + u.length))
    (fun j w => w.length = max (v.length + u.length) 1 ∧ value w = value (u.take j) * value v)
    (by simp) fun j hj w h => by
      obtain ⟨w', hw', hlength, hvalue⟩ := mulRow_exact hj (by omega) h.2
      exact ⟨w', hw', hlength.trans h.1, hvalue⟩
  rw [take_length] at hvalue
  exact ⟨w, hw, hlength, hvalue⟩

/-- What the rounds of `div_unit` down to `d` have written, and their remainder. -/
structure Divided (u : BigUint) (other : Single) (d : Nat) (s : BigUint × Single) : Prop where
  quotient : ∃ q, s.1 = List.replicate d 0 ++ q ∧ d + q.length = u.length ∧
    value (u.drop d) = value q * other.toNat + s.2.toNat
  lt : s.2.toNat < other.toNat

theorem set_append (d : Nat) (q : BigUint) (x y : Single) :
    set (List.replicate d 0 ++ x :: q) d y = some (List.replicate d 0 ++ y :: q) := by
  rw [set_of_lt (by simp), set_append_right _ _ (by simp)]
  simp

theorem set_replicate (d : Nat) (q : BigUint) (x : Single) :
    set (List.replicate (d + 1) 0 ++ q) d x = some (List.replicate d 0 ++ x :: q) := by
  rw [replicate_succ', append_assoc]
  exact set_append d q 0 x

theorem get_append (d : Nat) (q : BigUint) (x : Single) :
    get (List.replicate d 0 ++ x :: q) d = some x := by
  rw [get, getElem?_append_right (by simp)]
  simp

theorem Divided.round {other : Single} {d : Nat} {s : BigUint × Single}
    (h : Divided u other (d + 1) s) (hd : d < u.length) :
    ∃ s', divUnitRound u other d s = some s' ∧ Divided u other d s' := by
  obtain ⟨q, hq, hlength, hvalue⟩ := h.quotient
  have hlt := h.lt
  have ho := other.isLt
  have hu := (u.getD d 0).isLt
  obtain ⟨t, ht⟩ : ∃ t, t = 2 ^ 32 * s.2.toNat + (u.getD d 0).toNat := ⟨_, rfl⟩
  have hdigit : t / other.toNat < 2 ^ 32 := by
    refine Nat.div_lt_of_lt_mul ?_
    have hle := Nat.mul_le_mul_right (2 ^ 32) (succ_le_of_lt hlt)
    rw [succ_mul] at hle
    omega
  have hmod := mod_lt t (by omega : 0 < other.toNat)
  have hdiv := div_add_mod' t other.toNat
  rw [divUnitRound, get_of_lt hd]
  simp only [bind_eq_bind, bind_some]
  rw [← ht, double_of_lt (by omega), bind_some, Checked.div_of_pos _ (by omega),
    bind_some, hq, set_replicate]
  refine ⟨_, rfl, ⟨_, rfl, by simp; omega, ?_⟩, ?_⟩
  · rw [value_drop, hvalue, value_cons, BitVec.toNat_ofNat, BitVec.toNat_ofNat,
      mod_eq_of_lt hdigit, mod_eq_of_lt (hmod.trans ho)]
    linear_combination hdiv.symm + ht.symm
  · rw [BitVec.toNat_ofNat, mod_eq_of_lt (hmod.trans ho)]
    exact hmod

theorem divUnit_exact (hu : u ≠ []) {other : Single} (hpos : 0 < other.toNat) :
    ∃ q, divUnit u other = some q ∧ value q = value u / other.toNat := by
  have hlength := length_pos_iff.mpr hu
  obtain ⟨s, hs, h⟩ := Loop.down_inv (Divided u other) (n := u.length)
    (s := (withCapacity u.length, 0))
    ⟨⟨[], by simp [withCapacity, max_eq_left (succ_le_of_lt hlength)], by simp, by simp⟩,
      by simpa using hpos⟩
    fun d hd s h => h.round hd
  obtain ⟨q, hq, -, hvalue⟩ := h.quotient
  have hmax : BitVec.ofNat 32 (max other.toNat 1) = other := by
    rw [max_eq_left hpos, BitVec.ofNat_toNat, BitVec.setWidth_eq]
  rw [divUnit, hmax, hs]
  refine ⟨s.1, rfl, ?_⟩
  rw [hq, replicate_zero, nil_append]
  rw [drop_zero] at hvalue
  rw [hvalue, Nat.add_comm, add_mul_div_right _ _ hpos, div_eq_of_lt h.lt, Nat.zero_add]

/-! ## Long division -/

section Trial

variable {v₁ v₂ u₂ : Single} {p x X y q r : Nat}

theorem testWhile_of_test {again : Bool} {s : Nat × Nat} (hr : r < 2 ^ 32)
    (h : test v₁ v₂ u₂ (q, r) = some (again, s)) :
    testWhile v₁ v₂ u₂ (q, r) = if again then testWhile v₁ v₂ u₂ s else some s.1 := by
  rw [testWhile, if_pos hr]
  split <;> simp_all

/-- An estimate `q` of a digit that is not too small, and what it leaves of the leading limbs. -/
structure Estimate (v₁ : Single) (x X y q r : Nat) : Prop where
  eq : q * v₁.toNat + r = X
  le : x / y ≤ q
  small : q ≤ 2 ^ 32 + 1

variable (hx : Leading (2 ^ 32) p x X u₂.toNat) (hy : Leading (2 ^ 32) p y v₁.toNat v₂.toNat)
  (hp : 0 < p) (hnorm : 2 ^ 31 ≤ v₁.toNat) (hxy : x < 2 ^ 32 * y)
include hx hy hp hnorm hxy

theorem Estimate.test (h : Estimate v₁ x X y q r) (hr : r < 2 ^ 32) :
    (∃ q' r', test v₁ v₂ u₂ (q, r) = some (true, q', r') ∧ Estimate v₁ x X y q' r') ∨
      test v₁ v₂ u₂ (q, r) = some (false, q, r) ∧ q < 2 ^ 32 ∧ q ≤ x / y + 1 := by
  have hv₁ := v₁.isLt
  have hu₂ := u₂.isLt
  have hsmall := h.small
  have hlhs : q * v₂.toNat ≤ (2 ^ 32 + 1) * (2 ^ 32 - 1) :=
    Nat.mul_le_mul h.small (le_sub_one_of_lt v₂.isLt)
  have hdigit : x / y < 2 ^ 32 := Nat.div_lt_of_lt_mul (by rwa [Nat.mul_comm])
  have hrhs : 2 ^ 32 * r + u₂.toNat < 2 ^ 64 := by omega
  simp only [BigUint.test, bind_eq_bind, double_of_lt (hlhs.trans_lt (by decide)),
    double_of_lt hrhs, bind_some]
  by_cases htest : 2 ^ 32 ≤ q ∨ 2 ^ 32 * r + u₂.toNat < q * v₂.toNat
  · have hlt : x / y < q := by
      rcases htest with hlarge | hsecond
      · exact hdigit.trans_le hlarge
      · exact Leading.div_lt hx hy h.eq hsecond
    have hpos : 0 < q := (Nat.zero_le _).trans_lt hlt
    have heq : (q - 1) * v₁.toNat + (r + v₁.toNat) = X := by
      rw [← h.eq, Nat.sub_one_mul]
      have := Nat.le_mul_of_pos_left v₁.toNat hpos
      omega
    rw [if_pos htest, Checked.sub_of_le hpos, double_of_lt (by omega)]
    exact .inl ⟨_, _, rfl, heq, le_sub_one_of_lt hlt, by omega⟩
  · rw [if_neg htest]
    refine .inr ⟨rfl, by omega, ?_⟩
    exact Leading.le_div_succ hx hy h.eq (by positivity) (by omega) (by omega) (by omega)

theorem Estimate.testWhile (h : Estimate v₁ x X y q r) :
    ∃ q', testWhile v₁ v₂ u₂ (q, r) = some q' ∧ q' < 2 ^ 32 ∧ x / y ≤ q' ∧ q' ≤ x / y + 1 := by
  induction q using Nat.strong_induction_on generalizing r with
  | _ q ih =>
    by_cases hr : r < 2 ^ 32
    · rcases Estimate.test hx hy hp hnorm hxy h hr with ⟨q', r', htest, h'⟩ | ⟨htest, hq, hle⟩
      · rw [testWhile_of_test hr htest]
        exact ih q' (test_lt htest) h'
      · rw [testWhile_of_test hr htest]
        exact ⟨q, rfl, hq, h.le, hle⟩
    · rw [BigUint.testWhile, if_neg hr]
      obtain ⟨hq, hle⟩ := Leading.lt_and_le_div hx hy h.eq (by positivity) (by omega) hxy
        (Nat.le_of_not_lt hr)
      exact ⟨q, rfl, hq, h.le, hle.trans (le_succ _)⟩

end Trial

/-- Before the round `j`: what is left of the dividend above `j` is less than the divisor, which is
normalized. -/
structure Window (n : Nat) (v : BigUint) (j : Nat) (u : BigUint) : Prop where
  two_le : 2 ≤ n
  length_v : v.length = n
  normal : 2 ^ 31 ≤ (v.getD (n - 1) 0).toNat
  in_range : j + n < u.length
  lt : value (u.drop (j + 1)) < value v

namespace Window

variable (h : Window n v j u)
include h

theorem value_lt : value (u.drop j) < 2 ^ 32 * value v := by
  have hlimb := (u.getD j 0).isLt
  have hlt := h.lt
  rw [value_drop]
  omega

theorem divisor_lt : value v < (2 ^ 32) ^ n := h.length_v ▸ Limbs.value_lt v

theorem divisor_pos : 0 < value v := (Nat.zero_le _).trans_lt h.lt

theorem drop_eq_zero : value (u.drop (j + n + 1)) = 0 := by
  have hzero := value_drop_eq_zero (h.lt.trans h.divisor_lt)
  rwa [drop_drop, Nat.add_right_comm] at hzero

theorem estimate : ∃ q, estimate n v j u = some q ∧ q < 2 ^ 32 ∧
    value (u.drop j) / value v ≤ q ∧ q ≤ value (u.drop j) / value v + 1 := by
  obtain ⟨k, rfl⟩ := Nat.exists_eq_add_of_le' h.two_le
  have hrange := h.in_range
  have hlength := h.length_v
  have htop := (u.getD (j + (k + 2)) 0).isLt
  have hnext := (u.getD (j + (k + 1)) 0).isLt
  have hv₁ := (v.getD (k + 1) 0).isLt
  have hzero : value (u.drop (j + (k + 1) + 1 + 1)) = 0 := h.drop_eq_zero
  have hthird : (u.drop j).getD k 0 = u.getD (j + k) 0 := by
    simp [getD_eq_getElem?_getD]
  obtain ⟨X, hX⟩ : ∃ X, X =
      2 ^ 32 * (u.getD (j + (k + 2)) 0).toNat + (u.getD (j + (k + 1)) 0).toNat := ⟨_, rfl⟩
  have hlead : value (u.drop (j + (k + 1))) = X := by
    rw [value_drop, value_drop, hzero, hX, Nat.mul_zero, Nat.add_comm]
    rfl
  have hfirst : value (v.drop (k + 1)) = (v.getD (k + 1) 0).toNat := by
    rw [value_drop, drop_of_length_le (by omega), value_nil, Nat.mul_zero, Nat.add_zero]
  have hx := Leading.of_limbs (u.drop j) k
  have hy := Leading.of_limbs v k
  rw [drop_drop, hlead, hthird] at hx
  rw [hfirst] at hy
  have hnorm : 2 ^ 31 ≤ (v.getD (k + 1) 0).toNat := h.normal
  have hpos : 0 < (v.getD (k + 1) 0).toNat := lt_of_lt_of_le (by decide) hnorm
  have hsmall := Leading.top_lt hx hy h.value_lt
  have hr : X % (v.getD (k + 1) 0).toNat < 2 ^ 32 := (mod_lt X hpos).trans hv₁
  have hstart : Estimate (v.getD (k + 1) 0) (value (u.drop j)) X (value v)
      (X / (v.getD (k + 1) 0).toNat) (X % (v.getD (k + 1) 0).toNat) := by
    refine ⟨div_add_mod' _ _, Leading.div_le hx hy hpos, ?_⟩
    refine le_of_lt_succ (Nat.div_lt_of_lt_mul ?_)
    omega
  simp only [BigUint.estimate, bind_eq_bind, Nat.add_sub_cancel, ← Nat.add_assoc,
    reduceSubDiff, get_of_lt (by omega : j + k + 2 < u.length),
    get_of_lt (by omega : j + k + 1 < u.length), get_of_lt (by omega : j + k < u.length),
    get_of_lt (by omega : k + 1 < v.length), get_of_lt (by omega : k < v.length), bind_some]
  rw [← Nat.add_assoc, ← Nat.add_assoc] at hX
  rw [← hX, double_of_lt (by omega), bind_some, Checked.div_of_pos _ hpos, bind_some]
  rcases Estimate.test hx hy (by positivity) hnorm h.value_lt hstart hr with
    ⟨q', r', htest, h'⟩ | ⟨htest, -⟩
  · rw [htest]
    exact h'.testWhile hx hy (by positivity) hnorm h.value_lt
  · rw [htest]
    exact hstart.testWhile hx hy (by positivity) hnorm h.value_lt

end Window

theorem setWindow_eq {s : BigUint} (hu : j + n < u.length) (hs : n < s.length) :
    setWindow u j n s = some (u.take j ++ (s.take (n + 1) ++ u.drop (j + n + 1))) := by
  have hj : (u.take j).length = j := by rw [length_take]; omega
  -- the limbs below `i` of the window are set
  obtain ⟨u', hu', rfl⟩ := Loop.up_inv
    (f := fun i w => do BigUint.set w (j + i) (← BigUint.get s i)) (n := n + 1) (s := u)
    (fun i w => w = u.take j ++ (s.take i ++ u.drop (j + i))) (by simp) fun i hi w hw => by
      subst hw
      have hlimb : u.drop (j + i) = u[j + i] :: u.drop (j + i + 1) := drop_eq_getElem_cons _
      rw [BigUint.get, getElem?_eq_getElem (by omega : i < s.length)]
      simp only [bind_eq_bind, bind_some]
      rw [set_of_lt (by simp; omega)]
      refine ⟨_, rfl, ?_⟩
      rw [set_append_right _ _ (by omega), hj, Nat.add_sub_cancel_left,
        set_append_right _ _ (by simp), length_take, min_eq_left (by omega), Nat.sub_self,
        hlimb, set_cons_zero, take_succ_eq_append_getElem (by omega : i < s.length),
        append_assoc]
      rfl
  exact hu'

theorem setWindow_spec {s : BigUint} (hu : j + n < u.length) (hs : n < s.length)
    (hrest : value (u.drop (j + n + 1)) = 0) :
    ∃ u', setWindow u j n s = some u' ∧ u'.length = u.length ∧ u'.take j = u.take j ∧
      (u'.drop j).take (n + 1) = s.take (n + 1) ∧ value (u'.drop (j + n + 1)) = 0 ∧
      value (u'.drop j) = value s % (2 ^ 32) ^ (n + 1) := by
  have hj : (u.take j).length = j := by rw [length_take]; omega
  have hn : (s.take (n + 1)).length = n + 1 := by rw [length_take]; omega
  have hdrop : (u.take j ++ (s.take (n + 1) ++ u.drop (j + n + 1))).drop j =
      s.take (n + 1) ++ u.drop (j + n + 1) := drop_left' hj
  refine ⟨_, setWindow_eq hu hs, ?_, take_left' hj, ?_, ?_, ?_⟩
  · simp
    omega
  · rw [hdrop, take_left' hn]
  · have habove := congrArg (drop (n + 1)) hdrop
    rw [drop_drop, drop_left' hn, ← Nat.add_assoc] at habove
    rw [habove, hrest]
  · rw [hdrop, value_append, hrest, Nat.mul_zero, Nat.add_zero, value_take]

theorem value_fromDouble {a : Nat} (h : a < 2 ^ 64) : value (fromDouble a) = a := by
  simp [fromDouble, split, shiftRight_eq_div_pow]
  omega

namespace Window

theorem value_window (h : Window n v j u) :
    value ((u.drop j).take (n + 1)) = value (u.drop j) := by
  have hsplit := value_take_add_drop (u.drop j) (n + 1)
  rwa [drop_drop, ← Nat.add_assoc, h.drop_eq_zero, Nat.mul_zero, Nat.add_zero] at hsplit

theorem length_window (h : Window n v j u) : ((u.drop j).take (n + 1)).length = n + 1 := by
  have := h.in_range
  rw [length_take, length_drop]
  omega

theorem divRound (h : Window n v j u) (q : BigUint) :
    ∃ u' d, divRound n v j (u, .replicate (j + 1) 0 ++ q) = some (u', .replicate j 0 ++ d :: q) ∧
      u'.length = u.length ∧ u'.take j = u.take j ∧
      value (u'.drop j) = value (u.drop j) % value v ∧
      d.toNat = value (u.drop j) / value v := by
  obtain ⟨qhat, hqhat, hlt, hle, hge⟩ := h.estimate
  have hmod := mod_lt (value (u.drop j)) h.divisor_pos
  have hdiv := div_add_mod (value (u.drop j)) (value v)
  have hpow : (2 ^ 32) ^ n ≤ (2 ^ 32) ^ (n + 1) := Nat.pow_le_pow_right (by decide) (le_succ n)
  have hfits := mod_eq_of_lt (hmod.trans (h.divisor_lt.trans_le hpow))
  obtain ⟨rhs, hrhs, hlength, hvalue⟩ := mul_exact v (fromDouble qhat)
  rw [value_fromDouble (hlt.trans (by decide))] at hvalue
  have hmax : max ((u.drop j).take (n + 1)).length rhs.length = n + 2 := by
    rw [h.length_window, hlength, h.length_v]
    simp [fromDouble]
    omega
  simp only [BigUint.divRound, hqhat, window, if_pos h.in_range, hrhs, bind_eq_bind,
    bind_some]
  rcases sub_exact ((u.drop j).take (n + 1)) rhs with ⟨t, ht, htlength, htvalue⟩ |
    ⟨t, ht, htlength, htvalue⟩ <;>
    rw [h.value_window, hvalue] at htvalue <;>
    rw [hmax] at htlength <;>
    obtain ⟨u', hu', hulength, htake, hwindow, hrest, huvalue⟩ :=
      setWindow_spec h.in_range (by omega : n < t.length) h.drop_eq_zero <;>
    simp only [ht, hu', set_replicate, bind_some]
  · -- the estimate is the digit
    obtain rfl : qhat = value (u.drop j) / value v := by
      refine le_antisymm ((Nat.le_div_iff_mul_le h.divisor_pos).mpr ?_) hle
      rw [Nat.mul_comm]
      omega
    refine ⟨u', .ofNat 32 _, rfl, hulength, htake, ?_, ?_⟩
    · rw [huvalue, ← hfits]
      congr 1
      omega
    · rw [BitVec.toNat_ofNat, mod_eq_of_lt hlt]
  · -- the estimate is too large by one, and the divisor is added back
    have htlt := Limbs.value_lt t
    rw [htlength] at htlt
    rw [hmax] at htvalue
    obtain rfl : qhat = value (u.drop j) / value v + 1 := by
      refine le_antisymm hge (Nat.lt_of_le_of_ne hle ?_)
      rintro rfl
      simp only [max_eq_left (by omega : 1 ≤ n + 2)] at htlt
      omega
    obtain ⟨r, hr, hrlength, hrvalue⟩ := add_exact v ((u'.drop j).take (n + 1))
    have hrlt : n < r.length := by
      rw [hrlength, hwindow, length_take, htlength]
      omega
    have hwrap : value r % (2 ^ 32) ^ (n + 1) = value (u.drop j) % value v := by
      rw [hrvalue, hwindow, value_take, add_mod_mod, ← hfits,
        ← add_mul_mod_self_left (value (u.drop j) % value v) _ (2 ^ 32)]
      congr 1
      rw [mul_succ, Nat.pow_succ] at htvalue
      omega
    obtain ⟨u'', hu'', hulength', htake', -, -, huvalue'⟩ :=
      setWindow_spec (hulength ▸ h.in_range) hrlt hrest
    rw [get_append, if_pos (hulength ▸ h.in_range)]
    simp only [bind_some, BitVec.toNat_ofNat, mod_eq_of_lt hlt,
      Checked.sub_of_le (le_add_left 1 _), Nat.add_sub_cancel, hr, hu'', set_append]
    exact ⟨u'', .ofNat 32 _, rfl, hulength'.trans hulength, htake'.trans htake,
      huvalue'.trans hwrap, by rw [BitVec.toNat_ofNat, mod_eq_of_lt (by omega)]⟩

end Window

/-- The rounds of step D2 down to `j`, for the normalized dividend `U`. -/
structure Run (v U : BigUint) (j : Nat) (s : BigUint × BigUint) : Prop where
  length : s.1.length = U.length
  take : s.1.take j = U.take j
  lt : value (s.1.drop j) < value v
  quotient : ∃ q, s.2 = .replicate j 0 ++ q ∧
    value (U.drop j) = value q * value v + value (s.1.drop j)

theorem Run.round {U : BigUint} {s : BigUint × BigUint} (h : Run v U (j + 1) s) (hn : 2 ≤ n)
    (hv : v.length = n) (hnormal : 2 ^ 31 ≤ (v.getD (n - 1) 0).toNat) (hj : j + n < U.length) :
    ∃ s', divRound n v j s = some s' ∧ Run v U j s' := by
  obtain ⟨q, hq, hvalue⟩ := h.quotient
  have hw : Window n v j s.1 := ⟨hn, hv, hnormal, h.length ▸ hj, h.lt⟩
  obtain ⟨u', d, hround, hlength, htake, hrest, hd⟩ := hw.divRound q
  have hs : s = (s.1, .replicate (j + 1) 0 ++ q) := by rw [← hq]
  have hlimb : s.1.getD j 0 = U.getD j 0 := by
    have := congrArg (·.getD j 0) h.take
    simpa [getD_eq_getElem?_getD] using this
  have hbelow : s.1.take j = U.take j := by
    have := congrArg (List.take j) h.take
    simpa [take_take] using this
  have hdiv := div_add_mod (value (s.1.drop j)) (value v)
  rw [hs]
  refine ⟨_, hround, hlength.trans h.length, htake.trans hbelow, ?_, d :: q, rfl, ?_⟩
  · rw [hrest]
    exact mod_lt _ hw.divisor_pos
  · have hx := value_drop s.1 j
    rw [value_drop, hvalue, hrest, value_cons, hd, ← hlimb]
    linear_combination hx.symm + hdiv.symm

theorem shift_limb {nb : Nat} (hnb : nb < 32) (x y : Single) :
    2 ^ nb * (x >>> nb ||| y <<< (32 - nb)).toNat + x.toNat % 2 ^ nb =
      x.toNat + 2 ^ 32 * (y.toNat % 2 ^ nb) := by
  have hsplit : 2 ^ 32 = 2 ^ nb * 2 ^ (32 - nb) := by
    rw [← Nat.pow_add, Nat.add_sub_cancel' hnb.le]
  have hlow : x.toNat >>> nb < 2 ^ (32 - nb) := by
    rw [shiftRight_eq_div_pow]
    exact Nat.div_lt_of_lt_mul (hsplit ▸ x.isLt)
  have hhigh : (y.toNat <<< (32 - nb)) % 2 ^ 32 = (y.toNat % 2 ^ nb) <<< (32 - nb) := by
    rw [shiftLeft_eq, shiftLeft_eq, hsplit, mul_mod_mul_right]
  have hdiv := div_add_mod x.toNat (2 ^ nb)
  rw [BitVec.toNat_or, BitVec.toNat_ushiftRight, BitVec.toNat_shiftLeft, hhigh, Nat.or_comm,
    ← shiftLeft_add_eq_or_of_lt hlow, shiftLeft_eq, shiftRight_eq_div_pow, hsplit]
  linear_combination hdiv

structure Shifted (u : BigUint) (nb n d : Nat) (r : BigUint) : Prop where
  length : r.length = max n 1
  lt : value r < (2 ^ 32) ^ d
  value : 2 ^ nb * value r + value u % 2 ^ nb =
    value (u.take d) + (2 ^ 32) ^ d * ((u.getD d 0).toNat % 2 ^ nb)

theorem Shifted.set {nb d : Nat} {r : BigUint} (h : Shifted u nb n d r) (hnb : nb < 32)
    (hd : d < n) : ∃ r', set r d (u.getD d 0 >>> nb ||| u.getD (d + 1) 0 <<< (32 - nb)) = some r' ∧
      Shifted u nb n (d + 1) r' := by
  have hr : d < r.length := by rw [h.length]; omega
  have hlimb := shift_limb hnb (u.getD d 0) (u.getD (d + 1) 0)
  obtain ⟨hset, hlt⟩ := value_set_top hr h.lt
    (u.getD d 0 >>> nb ||| u.getD (d + 1) 0 <<< (32 - nb))
  refine ⟨_, set_of_lt hr _, by rw [length_set, h.length], hlt, ?_⟩
  rw [hset, value_take_succ]
  linear_combination h.value + (2 ^ 32) ^ d * hlimb

theorem remainder_exact {nb : Nat} (hnb : nb < 32) (hn : 1 ≤ n) (hu : n < u.length)
    (hlt : value u < (2 ^ 32) ^ n) :
    ∃ r, remainder u nb n = some r ∧ value r = value u / 2 ^ nb := by
  by_cases hpos : nb > 0
  · obtain ⟨k, rfl⟩ := Nat.exists_eq_add_of_le' hn
    have hdvd : 2 ^ nb ∣ 2 ^ 32 := Nat.pow_dvd_pow 2 hnb.le
    have hzero : value u % 2 ^ nb = (u.getD 0 0).toNat % 2 ^ nb := by
      rw [← drop_zero (l := u), value_drop, add_mod, mod_eq_zero_of_dvd (hdvd.mul_right _)]
      simp
    obtain ⟨r, hr, h⟩ := Loop.up_inv (f := shiftRound u nb) (n := k) (s := withCapacity (k + 1))
      (Shifted u nb (k + 1)) ⟨by simp, by simp, by simp [hzero]⟩ fun d hd r h => by
        rw [shiftRound, get_of_lt (by omega), get_of_lt (by omega)]
        exact h.set hnb (by omega)
    obtain ⟨r', hr', h'⟩ := h.set hnb (lt_succ_self k)
    -- nothing is left above the last limb
    have htop : u.getD (k + 1) 0 = 0#32 := getD_eq_zero (value_drop_eq_zero hlt)
    have hdiv := div_add_mod (value u) (2 ^ nb)
    have hvalue := h'.value
    rw [htop, value_take, mod_eq_of_lt hlt] at hvalue
    rw [htop, BitVec.zero_shiftLeft, BitVec.or_zero] at hr'
    rw [remainder, if_pos hpos, Nat.add_sub_cancel, hr, get_of_lt (by omega)]
    refine ⟨r', hr', Nat.eq_of_mul_eq_mul_left (Nat.two_pow_pos nb) ?_⟩
    simp at hvalue
    omega
  · obtain rfl : nb = 0 := by omega
    exact ⟨u, rfl, by simp⟩

/-! ## Leading zeros -/

theorem value_rdropWhile (u : BigUint) : value (u.rdropWhile (· == 0)) = value u := by
  have hzeros : u.rtakeWhile (· == 0) = .replicate (u.rtakeWhile (· == 0)).length 0 :=
    eq_replicate_of_mem fun d hd => by simpa using mem_rtakeWhile_imp hd
  have hsplit := congrArg value (rdropWhile_append_rtakeWhile (p := (· == 0)) (l := u))
  rwa [hzeros, value_append, value_replicate_zero, Nat.mul_zero, Nat.add_zero] at hsplit

/-- What `lstrip` makes: limbs without a leading zero, or one limb. -/
def Stripped (u : BigUint) : Prop := u.length ≤ 1 ∨ ∃ d, msb u = some d ∧ d ≠ 0

theorem lstrip_spec (u : BigUint) : value (lstrip u) = value u ∧ Stripped (lstrip u) := by
  have hvalue := value_rdropWhile u
  unfold lstrip
  split
  · rename_i hnil
    rw [hnil, value_nil] at hvalue
    exact ⟨by rw [value_take, ← hvalue, zero_mod], .inl (length_take_le 1 u)⟩
  · rename_i hnil
    have hlast := rdropWhile_last_not (· == 0) u hnil
    exact ⟨hvalue, .inr ⟨_, getLast?_eq_some_getLast hnil, by simpa using hlast⟩⟩

theorem toNat_pos {d : Single} (hd : d ≠ 0) : 0 < d.toNat :=
  Nat.pos_of_ne_zero fun h => hd (BitVec.eq_of_toNat_eq h)

namespace Stripped

theorem msb_ne_zero (h : Stripped u) (hne : value u ≠ 0) : ∃ d, msb u = some d ∧ d ≠ 0 := by
  refine h.elim (fun hone => ?_) id
  cases u with
  | nil => exact absurd rfl hne
  | cons d ds =>
    obtain rfl := length_eq_zero_iff.mp (le_zero.mp (le_of_succ_le_succ hone))
    refine ⟨d, rfl, ?_⟩
    rintro rfl
    exact hne rfl

theorem length_le_iff (h : Stripped u) (hk : 1 ≤ k) : u.length ≤ k ↔ value u < (2 ^ 32) ^ k := by
  constructor
  · intro hle
    exact (value_lt u).trans_le (Nat.pow_le_pow_right (by decide) hle)
  · intro hlt
    by_contra hlong
    obtain hone | ⟨d, hd, hne⟩ := h
    · omega
    have hge := (value_of_getLast hd).1
    have hpow : (2 ^ 32) ^ k ≤ (2 ^ 32) ^ (u.length - 1) :=
      Nat.pow_le_pow_right (by decide) (by omega)
    have hmul := Nat.le_mul_of_pos_right ((2 ^ 32) ^ (u.length - 1)) (toNat_pos hne)
    omega

end Stripped

/-! ## Normalization -/

theorem clz_spec {d : Single} (hd : d ≠ 0) : d.clz.toNat < 32 ∧
    2 ^ 31 ≤ d.toNat * 2 ^ d.clz.toNat ∧ (d.toNat + 1) * 2 ^ d.clz.toNat ≤ 2 ^ 32 := by
  have hlow := BitVec.two_pow_sub_clz_le_toNat_of_ne_zero (by decide) hd
  have hhigh := d.toNat_lt_two_pow_sub_clz
  have hpos := toNat_pos hd
  have hlt : d.clz.toNat < 32 := by
    by_contra hge
    rw [Nat.sub_eq_zero_of_le (Nat.le_of_not_lt hge), Nat.pow_zero] at hhigh
    omega
  refine ⟨hlt, ?_, ?_⟩
  · have hmul := Nat.mul_le_mul_right (2 ^ d.clz.toNat) hlow
    rwa [← Nat.pow_add, Nat.sub_add_cancel (by omega)] at hmul
  · have hmul := Nat.mul_le_mul_right (2 ^ d.clz.toNat) (succ_le_of_lt hhigh)
    rwa [← Nat.pow_add, Nat.sub_add_cancel hlt.le] at hmul

theorem mul_normalizer (u : BigUint) {nb : Nat} (hnb : nb < 32) :
    ∃ w, mul u [.ofNat 32 (2 ^ nb)] = some w ∧ w.length = u.length + 1 ∧
      value w = value u * 2 ^ nb := by
  obtain ⟨w, hw, hlength, hvalue⟩ := mul_exact u [.ofNat 32 (2 ^ nb)]
  have hpow : 2 ^ nb < 2 ^ 32 := Nat.pow_lt_pow_right (by decide) hnb
  rw [value_cons, value_nil, BitVec.toNat_ofNat, mod_eq_of_lt hpow, Nat.mul_zero,
    Nat.add_zero] at hvalue
  refine ⟨w, hw, ?_, hvalue⟩
  rw [hlength, length_singleton]
  omega

theorem normal_lstrip {d : Single} (hlength : 2 ≤ v.length) (hv : msb v = some d) (hd : d ≠ 0)
    (hvalue : value w = value v * 2 ^ d.clz.toNat) :
    (lstrip w).length = v.length ∧ 2 ^ 31 ≤ ((lstrip w).getD (v.length - 1) 0).toNat := by
  obtain ⟨n, hn⟩ : ∃ n, v.length = n + 1 := ⟨v.length - 1, by omega⟩
  obtain ⟨-, hlow, hhigh⟩ := clz_spec hd
  obtain ⟨hvlow, hvhigh⟩ := value_of_getLast hv
  obtain ⟨hstrip, hs⟩ := lstrip_spec w
  rw [hn, Nat.add_sub_cancel] at hvlow hvhigh ⊢
  have hlower : (2 ^ 32) ^ n * 2 ^ 31 ≤ value (lstrip w) :=
    calc (2 ^ 32) ^ n * 2 ^ 31 ≤ (2 ^ 32) ^ n * (d.toNat * 2 ^ d.clz.toNat) :=
          Nat.mul_le_mul_left _ hlow
      _ = (2 ^ 32) ^ n * d.toNat * 2 ^ d.clz.toNat := (Nat.mul_assoc ..).symm
      _ ≤ value v * 2 ^ d.clz.toNat := Nat.mul_le_mul_right _ hvlow
      _ = value (lstrip w) := by rw [hstrip, hvalue]
  have hupper : value (lstrip w) < (2 ^ 32) ^ (n + 1) :=
    calc value (lstrip w) = value v * 2 ^ d.clz.toNat := by rw [hstrip, hvalue]
      _ < (2 ^ 32) ^ n * (d.toNat + 1) * 2 ^ d.clz.toNat :=
          Nat.mul_lt_mul_of_pos_right hvhigh (Nat.two_pow_pos _)
      _ = (2 ^ 32) ^ n * ((d.toNat + 1) * 2 ^ d.clz.toNat) := Nat.mul_assoc ..
      _ ≤ (2 ^ 32) ^ n * 2 ^ 32 := Nat.mul_le_mul_left _ hhigh
      _ = (2 ^ 32) ^ (n + 1) := rfl
  have hle := (hs.length_le_iff (by omega : 1 ≤ n + 1)).mpr hupper
  have hge := mt (hs.length_le_iff (by omega : 1 ≤ n)).mp (by omega)
  have htop := value_take_succ (lstrip w) n
  rw [take_of_length_le hle, value_take] at htop
  have hrest : value (lstrip w) % (2 ^ 32) ^ n < (2 ^ 32) ^ n := mod_lt _ (by positivity)
  refine ⟨by omega, le_of_lt_succ (Nat.lt_of_mul_lt_mul_left (a := (2 ^ 32) ^ n) ?_)⟩
  rw [mul_succ]
  omega

/-- **Long division is exact.** -/
theorem div_exact {d e : Single} (rem : Bool) (hlength : 2 ≤ v.length)
    (hlonger : v.length < u.length) (hv : msb v = some d) (hd : d ≠ 0) (hu : msb u = some e)
    (he : e ≠ 0) :
    ∃ q r, div u v rem = some (some (q, r)) ∧ value q = value u / value v ∧
      (rem = true → value r = value u % value v) := by
  obtain ⟨m, hm⟩ : ∃ m, u.length = v.length + m := ⟨u.length - v.length, by omega⟩
  obtain ⟨hnb, -, -⟩ := clz_spec hd
  obtain ⟨selfNorm, hself, hselflength, hselfvalue⟩ := mul_normalizer u hnb
  obtain ⟨w, hw, -, hwvalue⟩ := mul_normalizer v hnb
  obtain ⟨hn, hnormal⟩ := normal_lstrip hlength hv hd hwvalue
  have hnorm := (lstrip_spec w).1.trans hwvalue
  have hlarge : (2 ^ 32) ^ (v.length - 1) ≤ value v :=
    (Nat.le_mul_of_pos_right _ (toNat_pos hd)).trans (value_of_getLast hv).1
  have hpad : lpad selfNorm (v.length + m + 1) = selfNorm := by
    rw [lpad, Nat.sub_eq_zero_of_le (by omega)]
    simp
  -- the first window is less than the divisor
  have hfirst : value (selfNorm.drop (m + 1)) < value (lstrip w) := by
    have hsplit := value_take_add_drop selfNorm (m + 1)
    have hpow : (2 ^ 32) ^ u.length = (2 ^ 32) ^ (m + 1) * (2 ^ 32) ^ (v.length - 1) := by
      rw [← Nat.pow_add]
      congr 1
      omega
    refine Nat.lt_of_mul_lt_mul_left (a := (2 ^ 32) ^ (m + 1)) ?_
    calc (2 ^ 32) ^ (m + 1) * value (selfNorm.drop (m + 1)) ≤ value u * 2 ^ d.clz.toNat := by omega
      _ < (2 ^ 32) ^ u.length * 2 ^ d.clz.toNat :=
          Nat.mul_lt_mul_of_pos_right (value_lt u) (Nat.two_pow_pos _)
      _ = (2 ^ 32) ^ (m + 1) * ((2 ^ 32) ^ (v.length - 1) * 2 ^ d.clz.toNat) := by
          rw [hpow, Nat.mul_assoc]
      _ ≤ (2 ^ 32) ^ (m + 1) * value (lstrip w) := by
          rw [hnorm]
          exact Nat.mul_le_mul_left _ (Nat.mul_le_mul_right _ hlarge)
  obtain ⟨s, hs, h⟩ := Loop.down_inv (f := divRound v.length (lstrip w)) (n := m + 1)
    (s := (selfNorm, withCapacity (m + 1))) (Run (lstrip w) selfNorm)
    ⟨rfl, rfl, hfirst, [], by simp [withCapacity], by simp⟩
    fun j hj s h => h.round hlength hn hnormal (by omega)
  obtain ⟨q, hq, hvalue⟩ := h.quotient
  have hlt := h.lt
  rw [replicate_zero, nil_append] at hq
  rw [drop_zero, drop_zero, hselfvalue, hnorm] at hvalue
  rw [drop_zero, hnorm] at hlt
  obtain ⟨r, hr, hrvalue⟩ := remainder_exact hnb (by omega : 1 ≤ v.length)
    (by rw [h.length]; omega : v.length < s.1.length)
    (by rw [← hn]; exact (hnorm ▸ hlt).trans (value_lt _))
  have hpow := Nat.two_pow_pos d.clz.toNat
  have hquotient : value q = value u / value v := by
    rw [← Nat.mul_div_mul_right _ _ hpow, hvalue, Nat.add_comm, add_mul_div_right _ _ (by omega),
      div_eq_of_lt hlt, Nat.zero_add]
  have hremainder : value s.1 = value u % value v * 2 ^ d.clz.toNat := by
    rw [← mul_mod_mul_right, hvalue, mul_add_mod', mod_eq_of_lt hlt]
  refine ⟨q, if rem then r else withCapacity v.length, ?_, hquotient, ?_⟩
  · have hm' : u.length - v.length = m := by omega
    have hnone : ¬(e = 0 ∨ u.length ≤ v.length) := not_or.mpr ⟨he, by omega⟩
    simp only [div, hv, hu, bind_eq_bind, bind_some, if_neg hd, hself, hw, hm',
      if_neg (by omega : ¬v.length ≤ 1), if_neg hnone, hpad, hs, hr, hq]
    cases rem <;> rfl
  · rintro rfl
    rw [if_pos rfl, hrvalue, hremainder, Nat.mul_div_cancel _ hpow]

/-! ## Comparison and conversion are exact -/

theorem cmpSlices_exact (as bs : List Single) (h : as.length = bs.length) :
    cmpSlices as bs = compare (value as.reverse) (value bs.reverse) := by
  induction as generalizing bs with
  | nil =>
    obtain rfl := length_eq_zero_iff.mp h.symm
    rfl
  | cons a as ih =>
    obtain ⟨b, bs, rfl⟩ := exists_cons_of_length_eq_add_one h.symm
    have hlength : as.length = bs.length := succ.inj h
    have ha := value_lt as.reverse
    have hb := value_lt bs.reverse
    rw [length_reverse] at ha hb
    rw [reverse_cons, reverse_cons, value_append, value_append, length_reverse,
      length_reverse, ← hlength, compare_add_mul ha (hlength ▸ hb), cmpSlices, ih bs hlength]
    simp

theorem value_of_dropWhile {a : Single} {as : List Single}
    (h : u.reverse.dropWhile (· == 0) = a :: as) : value (a :: as).reverse = value u ∧
      (2 ^ 32) ^ as.length ≤ value u ∧ value u < (2 ^ 32) ^ (as.length + 1) := by
  have hvalue : value (u.reverse.dropWhile (· == 0)).reverse = value u := value_rdropWhile u
  have hne := head?_dropWhile_not (· == 0) u.reverse
  rw [h] at hvalue hne
  have hlt := value_lt (a :: as).reverse
  have hmul := Nat.le_mul_of_pos_right ((2 ^ 32) ^ as.length) (toNat_pos (by simpa using hne))
  rw [hvalue, length_reverse, length_cons] at hlt
  refine ⟨hvalue, ?_, hlt⟩
  rw [← hvalue, reverse_cons, value_append, length_reverse, value_cons, value_nil,
    Nat.mul_zero, Nat.add_zero]
  omega

theorem cmp_exact (u v : BigUint) : cmp u v = compare (value u) (value v) := by
  have hzero {u : BigUint} (h : u.reverse.dropWhile (· == 0) = []) : value u = 0 := by
    rw [← value_rdropWhile, rdropWhile, h]
    rfl
  have hpos (k : Nat) : 0 < (2 ^ 32) ^ k := by positivity
  unfold cmp
  split
  · rename_i hu hv
    rw [hzero hu, hzero hv]
    rfl
  · rename_i a as hu hv
    rw [hzero hv, compare_gt_iff_gt.mpr ((hpos _).trans_le (value_of_dropWhile hu).2.1)]
  · rename_i b bs hu hv
    rw [hzero hu, compare_lt_iff_lt.mpr ((hpos _).trans_le (value_of_dropWhile hv).2.1)]
  · rename_i a as b bs hu hv
    obtain ⟨hu, hulow, huhigh⟩ := value_of_dropWhile hu
    obtain ⟨hv, hvlow, hvhigh⟩ := value_of_dropWhile hv
    rw [length_cons, length_cons]
    rcases lt_trichotomy as.length bs.length with h | h | h
    · have hpow : (2 ^ 32) ^ (as.length + 1) ≤ (2 ^ 32) ^ bs.length :=
        Nat.pow_le_pow_right (by decide) h
      rw [compare_lt_iff_lt.mpr (Nat.add_lt_add_right h 1), compare_lt_iff_lt.mpr (by omega)]
      rfl
    · rw [h, compare_eq_iff_eq.mpr rfl, cmpSlices_exact _ _ (congrArg (· + 1) h), hu, hv]
      rfl
    · have hpow : (2 ^ 32) ^ (bs.length + 1) ≤ (2 ^ 32) ^ as.length :=
        Nat.pow_le_pow_right (by decide) h
      rw [compare_gt_iff_gt.mpr (Nat.add_lt_add_right h 1), compare_gt_iff_gt.mpr (by omega)]
      rfl

theorem tryInto_exact (u : BigUint) : tryInto u = some
    (if value u ≤ 2 ^ 128 - 1 then .ok (value u) else .error "cannot fit a number into u128") := by
  obtain ⟨hvalue, hs⟩ := lstrip_spec u
  have hfour : u.lstrip.length ≤ 4 ↔ value u.lstrip < 2 ^ 128 := hs.length_le_iff (by decide)
  rw [hvalue] at hfour
  by_cases hle : value u ≤ 2 ^ 128 - 1
  · have hlength := hfour.mpr (by omega)
    obtain ⟨acc, hacc, rfl⟩ := Loop.up_inv (f := fun i acc => do
      Checked.add (2 ^ 128 - 1) acc (((← get u.lstrip i).toNat <<< (32 * i)) % 2 ^ 128))
      (n := u.lstrip.length) (s := 0) (fun i acc => acc = value (u.lstrip.take i)) (by simp)
      fun i hi acc hacc => by
        have hsplit := value_take_add_drop u.lstrip (i + 1)
        have hsucc := value_take_succ u.lstrip i
        have hshift : (u.lstrip.getD i 0).toNat <<< (32 * i) =
            (2 ^ 32) ^ i * (u.lstrip.getD i 0).toNat := by
          rw [shiftLeft_eq, Nat.mul_comm, Nat.pow_mul]
        subst hacc
        rw [get_of_lt hi]
        simp only [bind_eq_bind, bind_some]
        rw [hshift, mod_eq_of_lt (by omega), Checked.add_of_le (by omega)]
        exact ⟨_, rfl, hsucc.symm⟩
    rw [tryInto, if_neg (by omega), if_pos hle, hacc, take_length, hvalue]
    rfl
  · rw [tryInto, if_pos (by omega), if_neg hle]

end BigUint

end Substrate
