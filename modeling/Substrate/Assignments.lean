import Mathlib.Algebra.BigOperators.Ring.List
import Mathlib.Data.Nat.ModEq
import Substrate.ElectionScore
import Substrate.Normalize

/-!
# Assignments in stake and in ratios

Model of `primitives/npos-elections/src/assignments.rs`: a voter's stake over its targets, in
amounts and in fractions of a per-thing type, the conversion from the one to the other, and its
normalization. Dividing the parts one by one loses (`sum_div_le`), so the ratios together are at
most the whole although one may be rounded up.
-/

namespace Substrate.Elections

open List Nat PerThing
open ElectionScore (balanceMax)

variable {A : Type}

/-- A voter's assignment among targets, as ratios. -/
structure Assignment (A : Type) where
  who : A
  distribution : List (A × Nat)
deriving Repr, DecidableEq

structure StakedAssignment (A : Type) where
  who : A
  distribution : List (A × Nat)

abbrev amounts (distribution : List (A × Nat)) : List Nat := distribution.map Prod.snd

def StakedAssignment.total (self : StakedAssignment A) : Nat :=
  self.distribution.foldl (fun a b => min (a + b.2) balanceMax) 0

/-- The `filter_map` of `into_assignment`: ratios of zero are dropped. -/
def ratios (P : PerThing) (stake : Nat) : List (A × Nat) → Option (List (A × Nat))
  | [] => some []
  | (target, w) :: distribution => do
    let perThing ← P.fromRational balanceMax w stake
    let rest ← ratios P stake distribution
    return if perThing = 0 then rest else (target, perThing) :: rest

def StakedAssignment.intoAssignment (P : PerThing) (self : StakedAssignment A) :
    Option (Assignment A) :=
  (ratios P self.total self.distribution).map (⟨self.who, ·⟩)

def corrected : List (A × Nat) → List Nat → List (A × Nat)
  | (target, _) :: distribution, n :: ns => (target, n) :: corrected distribution ns
  | distribution, _ => distribution

def Assignment.tryNormalize (P : PerThing) (fuel : Nat) (self : Assignment A) :
    Outcome String (Assignment A) :=
  (Normalize.normalizeParts P fuel (amounts self.distribution) P.accuracy).map fun normalized =>
    { self with distribution := corrected self.distribution normalized }

theorem amounts_corrected {distribution : List (A × Nat)} {ns : List Nat}
    (h : ns.length = distribution.length) : amounts (corrected distribution ns) = ns := by
  induction distribution generalizing ns with
  | nil => simpa [corrected] using (length_eq_zero_iff.mp h).symm
  | cons x distribution ih =>
    cases ns with
    | nil => cases h
    | cons n ns => simpa [corrected] using ih (succ.inj h)

/-! ## The ratios of a stake -/

theorem sum_div_le (ns : List Nat) (d : Nat) : (ns.map (· / d)).sum ≤ ns.sum / d := by
  induction ns with
  | nil => simp
  | cons n ns ih =>
    rw [sum_cons]
    exact (Nat.add_le_add_left ih _).trans (Nat.div_add_div_le_add_div)

def share (P : PerThing) (stake w : Nat) : Nat :=
  let q := max stake 1
  w / P.commonFactor q * P.accuracy / (q / P.commonFactor q)

section Share

variable {P : PerThing} {stake w : Nat}

theorem fromRational_eq_share (hw : w ≤ stake) (hstake : stake ≤ balanceMax) :
    P.fromRational balanceMax w stake = some (share P stake w) := by
  have hq : max stake 1 ≤ balanceMax := max_le hstake (by decide)
  rw [fromRational_max, P.fromRational_eq hq (le_max_right _ _), min_eq_left (hw.trans (le_max_left _ _))]
  rfl

/-- A ratio is dropped unless the edge is worth one part of the stake. -/
theorem share_ne_zero_iff : share P stake w ≠ 0 ↔ 0 < w ∧ stake ≤ w * P.accuracy := by
  have hpos := P.accuracy_pos
  have hq : 0 < max stake 1 := by omega
  have hfactor := P.commonFactor_pos hq
  have hden := div_pos (commonFactor_le hq) hfactor
  have hone : P.commonFactor (max stake 1) ≤ w ↔ max stake 1 ≤ w * P.accuracy := by
    rw [commonFactor, ← Nat.lt_succ_iff, Nat.div_lt_iff_lt_mul hpos, Nat.succ_mul]
    omega
  have hshare : share P stake w ≠ 0 ↔ P.commonFactor (max stake 1) ≤ w := by
    constructor
    · intro hne
      by_contra hlt
      exact hne (by rw [share, Nat.div_eq_of_lt (Nat.not_le.mp hlt), Nat.zero_mul, Nat.zero_div])
    · intro hle
      refine ne_of_gt (div_pos ?_ hden)
      exact (div_commonFactor_le _).trans (Nat.le_mul_of_pos_left _ (Nat.div_pos hle hfactor))
  rw [hshare, hone]
  constructor
  · intro h
    exact ⟨Nat.pos_of_mul_pos_right (by omega : 0 < w * P.accuracy), by omega⟩
  · rintro ⟨hw, h⟩
    exact max_le h (mul_pos hw hpos)

theorem sum_share_le (ns : List Nat) (h : ns.sum ≤ stake) :
    (ns.map (share P stake)).sum ≤ P.accuracy := by
  set q := max stake 1
  set f := P.commonFactor q
  calc (ns.map (share P stake)).sum
      = (((ns.map (· / f)).map (· * P.accuracy)).map (· / (q / f))).sum := by
        simp only [map_map]
        rfl
    _ ≤ ((ns.map (· / f)).map (· * P.accuracy)).sum / (q / f) := sum_div_le _ _
    _ = (ns.map (· / f)).sum * P.accuracy / (q / f) := by rw [sum_map_mul_right, map_id']
    _ ≤ q / f * P.accuracy / (q / f) := by
        refine Nat.div_le_div_right (Nat.mul_le_mul_right _ ((sum_div_le ns f).trans ?_))
        exact Nat.div_le_div_right (h.trans (le_max_left _ _))
    _ ≤ P.accuracy := Nat.div_le_of_le_mul (Nat.le_refl _)

end Share

section Conversion

variable {P : PerThing}

theorem ratios_eq {stake : Nat} {distribution : List (A × Nat)}
    (hle : ∀ w ∈ amounts distribution, w ≤ stake) (hstake : stake ≤ balanceMax) :
    ∃ rs, ratios P stake distribution = some rs ∧
      amounts rs = ((amounts distribution).map (share P stake)).filter (· ≠ 0) := by
  induction distribution with
  | nil => exact ⟨[], rfl, rfl⟩
  | cons x distribution ih =>
    obtain ⟨target, w⟩ := x
    simp only [map_cons, forall_mem_cons] at hle ⊢
    obtain ⟨rs, hrs, hamounts⟩ := ih hle.2
    refine ⟨_, by rw [ratios, fromRational_eq_share hle.1 hstake, hrs]; rfl, ?_⟩
    by_cases hzero : share P stake w = 0
    · rw [if_pos hzero, filter_cons_of_neg (by simpa using hzero), hamounts]
    · rw [if_neg hzero, filter_cons_of_pos (by simpa using hzero), ← hamounts]
      rfl

theorem total_eq {self : StakedAssignment A} (hsum : (amounts self.distribution).sum ≤ balanceMax) :
    self.total = (amounts self.distribution).sum := by
  have hloop : ∀ (distribution : List (A × Nat)) (a : Nat),
      a + (amounts distribution).sum ≤ balanceMax →
      distribution.foldl (fun a b => min (a + b.2) balanceMax) a =
        a + (amounts distribution).sum := by
    intro distribution
    induction distribution with
    | nil => exact fun a _ => rfl
    | cons x distribution ih =>
      intro a h
      have hcons : (amounts (x :: distribution)).sum = x.2 + (amounts distribution).sum :=
        sum_cons
      rw [hcons] at h ⊢
      rw [foldl_cons, min_eq_left (by omega), ih _ (by omega), add_assoc]
  rw [StakedAssignment.total, hloop _ 0 (by omega), zero_add]

/-- **The ratios of a stake are at most the whole, and normalization makes them the whole exactly
when there is one.** An edge worth less than one part of the stake is dropped; if that leaves no
edge, nothing can be normalized, and `try_normalize` succeeds all the same. -/
theorem ratios_normalize_iff (P : PerThing) (self : StakedAssignment A)
    (hsum : (amounts self.distribution).sum ≤ balanceMax) :
    ∃ a, self.intoAssignment P = some a ∧ (amounts a.distribution).sum ≤ P.accuracy ∧
      ∃ n a', (∀ fuel, a.tryNormalize P (fuel + n) = .ok a') ∧
        ((amounts a'.distribution).sum = P.accuracy ↔ ∃ w ∈ amounts self.distribution,
            0 < w ∧ (amounts self.distribution).sum ≤ w * P.accuracy) := by
  obtain ⟨rs, hrs, hamounts⟩ := ratios_eq
    (fun w hw => single_le_sum (fun _ _ => Nat.zero_le _) w hw) hsum
  have hkept : (amounts rs).sum ≤ P.accuracy := by
    rw [hamounts]
    exact (filter_sublist.sum_le_sum fun _ _ => Nat.zero_le _).trans
      (sum_share_le _ (Nat.le_refl _))
  have hexists : (∃ w ∈ amounts self.distribution,
      0 < w ∧ (amounts self.distribution).sum ≤ w * P.accuracy) ↔ amounts rs ≠ [] := by
    rw [hamounts]
    generalize amounts self.distribution = ws
    simp [← share_ne_zero_iff]
  refine ⟨⟨self.who, rs⟩, by rw [StakedAssignment.intoAssignment, total_eq hsum, hrs]; rfl, hkept, ?_⟩
  rw [hexists]
  by_cases hne : amounts rs = []
  · refine ⟨0, ⟨self.who, rs⟩, fun fuel => ?_, ?_⟩
    · obtain rfl := map_eq_nil_iff.mp hne
      rfl
    · simpa [hne] using P.accuracy_pos.ne
  have hupper := (Nat.le_mul_of_pos_left _ P.accuracy_pos).trans P.square_le
  have hcount : (amounts rs).length ≤ (amounts rs).sum :=
    length_le_sum_of_one_le _ fun w hw => by
      rw [hamounts, mem_filter] at hw
      exact Nat.one_le_iff_ne_zero.mpr (of_decide_eq_true hw.2)
  obtain ⟨n, result, hresult, hlength, htotal⟩ := Normalize.normalizeParts_spec hne
    (hcount.trans (hkept.trans hupper)) (hkept.trans hupper) (Nat.le_refl P.accuracy)
  refine ⟨n, ⟨self.who, corrected rs result⟩, fun fuel => ?_, ?_⟩
  · rw [Assignment.tryNormalize, hresult, Outcome.map]
  · rw [amounts_corrected (by rw [hlength, length_map])]
    exact ⟨fun _ => hne, fun _ => htotal⟩

theorem ratios_normalize_iff_half : ∃ a,
    (⟨0, [(1, 5), (2, 6)]⟩ : StakedAssignment Nat).intoAssignment .percent = some a ∧
      (amounts a.distribution).sum ≤ 100 ∧
      ∃ n a', (∀ fuel, a.tryNormalize .percent (fuel + n) = .ok a') ∧
        ((amounts a'.distribution).sum = 100 ↔ ∃ w ∈ [5, 6], 0 < w ∧ 11 ≤ w * 100) :=
  ratios_normalize_iff .percent ⟨0, [(1, 5), (2, 6)]⟩ (by decide)

/-- A hundred and one equal edges are each less than one percent. None is kept, and what is
normalized to the whole is nothing. -/
theorem ratios_normalize_dropped :
    ∃ self : StakedAssignment Nat, (amounts self.distribution).sum ≤ balanceMax ∧
      ∃ a, self.intoAssignment .percent = some a ∧
        ∀ fuel, a.tryNormalize .percent fuel = .ok a ∧ (amounts a.distribution).sum ≠ 100 :=
  ⟨⟨0, (List.range 101).map (·, 1)⟩, by decide +kernel, ⟨0, []⟩, by decide +kernel,
    fun _ => ⟨rfl, by decide⟩⟩

end Conversion

end Substrate.Elections
