import Mathlib.Algebra.BigOperators.Group.List.Basic
import Substrate.Balances

/-!
# The staking ledger

`StakingLedger` of `frame/staking`: what a stash has at stake (`active`) and what it is unbonding
(`unlocking`, oldest first), with their sum kept in `total`.

An amount that is unbonded becomes a chunk, which is paid out from an era on. No operation changes
the era of a chunk: rebonding takes from the end of the list, slashing from the front, and
consolidating drops the chunks whose era has come.
-/

namespace Substrate.Staking

open List Nat Balances.Config

structure UnlockChunk where
  value : Nat
  era : Nat
deriving DecidableEq

structure StakingLedger (A : Type) where
  stash : A
  /-- `active` plus all the `unlocking` balances. -/
  total : Nat
  active : Nat
  unlocking : List UnlockChunk
  claimedRewards : List Nat
deriving DecidableEq

def maxUnlockingChunks : Nat := 32

def valueSum (chunks : List UnlockChunk) : Nat := (chunks.map UnlockChunk.value).sum

@[simp] theorem valueSum_nil : valueSum [] = 0 := rfl

@[simp] theorem valueSum_cons (c : UnlockChunk) (cs : List UnlockChunk) :
    valueSum (c :: cs) = c.value + valueSum cs := by
  simp [valueSum]

@[simp] theorem valueSum_append (cs ds : List UnlockChunk) :
    valueSum (cs ++ ds) = valueSum cs + valueSum ds := by
  simp [valueSum]

@[simp] theorem valueSum_reverse (cs : List UnlockChunk) : valueSum cs.reverse = valueSum cs := by
  simp [valueSum]

/-! ## Cutting chunks -/

/-- Some are dropped, others keep their era and a part of their value. -/
inductive Cut : List UnlockChunk → List UnlockChunk → Prop where
  | nil : Cut [] []
  | drop (c : UnlockChunk) {ds cs} (h : Cut ds cs) : Cut ds (c :: cs)
  | keep {c d ds cs} (hera : d.era = c.era)
      (hle : d.value ≤ c.value) (hpos : 0 < c.value → 0 < d.value) (h : Cut ds cs) :
      Cut (d :: ds) (c :: cs)

namespace Cut

variable {cs ds : List UnlockChunk}

theorem refl : (cs : List UnlockChunk) → Cut cs cs
  | [] => .nil
  | _ :: cs => .keep rfl (le_refl _) id (refl cs)

theorem of_sublist (h : ds.Sublist cs) : Cut ds cs := by
  induction h with
  | slnil => exact .nil
  | cons c _ ih => exact .drop c ih
  | cons_cons c _ ih => exact .keep rfl (le_refl _) id ih

section

variable (h : Cut ds cs)
include h

theorem append {cs' ds'} (h' : Cut ds' cs') : Cut (ds ++ ds') (cs ++ cs') := by
  induction h with
  | nil => exact h'
  | drop c _ ih => exact .drop c ih
  | keep hera hle hpos _ ih => exact .keep hera hle hpos ih

theorem reverse : Cut ds.reverse cs.reverse := by
  induction h with
  | nil => exact .nil
  | drop c _ ih =>
    rw [reverse_cons]
    simpa using ih.append (.drop c .nil)
  | keep hera hle hpos _ ih =>
    rw [reverse_cons, reverse_cons]
    exact ih.append (.keep hera hle hpos .nil)

theorem eras_sublist :
    (ds.map UnlockChunk.era).Sublist (cs.map UnlockChunk.era) := by
  induction h with
  | nil => exact .slnil
  | drop c _ ih => exact ih.cons _
  | keep hera _ _ _ ih =>
    rw [map_cons, hera]
    exact ih.cons_cons _

theorem positive (hcs : ∀ c ∈ cs, 0 < c.value) : ∀ d ∈ ds, 0 < d.value := by
  induction h with
  | nil => exact hcs
  | drop c _ ih => exact ih fun e he => hcs e (mem_cons_of_mem _ he)
  | keep _ _ hpos _ ih =>
    intro e he
    rcases mem_cons.mp he with rfl | he
    · exact hpos (hcs _ mem_cons_self)
    · exact ih (fun e he => hcs e (mem_cons_of_mem _ he)) e he

theorem valueSum_le (era : Nat) :
    valueSum (ds.filter fun c => decide (c.era = era)) ≤
      valueSum (cs.filter fun c => decide (c.era = era)) := by
  induction h with
  | nil => exact le_refl _
  | drop c _ ih =>
    by_cases hc : c.era = era
    · rw [filter_cons_of_pos (by simpa using hc), valueSum_cons]
      omega
    · rwa [filter_cons_of_neg (by simpa using hc)]
  | keep hera hle _ _ ih =>
    rename_i c d ds cs _
    by_cases hc : c.era = era
    · rw [filter_cons_of_pos (by simpa using hc),
        filter_cons_of_pos (by simpa [hera] using hc), valueSum_cons, valueSum_cons]
      omega
    · rwa [filter_cons_of_neg (by simpa using hc), filter_cons_of_neg (by simpa [hera] using hc)]

end

end Cut

namespace StakingLedger

variable {A : Type}

/-- It adds up, and its chunks are few, none of them empty, and in the order of their eras. -/
structure Sound (l : StakingLedger A) : Prop where
  total_eq : l.total = l.active + valueSum l.unlocking
  eras_sorted : (l.unlocking.map UnlockChunk.era).Pairwise (· ≤ ·)
  length_le : l.unlocking.length ≤ maxUnlockingChunks
  positive : ∀ c ∈ l.unlocking, 0 < c.value

variable {l : StakingLedger A}

theorem Sound.of_no_chunks (htotal : l.total = l.active) (hnone : l.unlocking = []) : l.Sound where
  total_eq := by rw [hnone, htotal, valueSum_nil, add_zero]
  eras_sorted := by rw [hnone]; exact .nil
  length_le := by rw [hnone]; exact zero_le _
  positive := by rw [hnone]; exact fun _ hc => nomatch hc

variable {l' : StakingLedger A}

theorem Sound.of_cut (h : l.Sound) (hsum : l'.total = l'.active + valueSum l'.unlocking)
    (hcut : Cut l'.unlocking l.unlocking) : l'.Sound where
  total_eq := hsum
  eras_sorted := h.eras_sorted.sublist hcut.eras_sublist
  length_le := by
    have := hcut.eras_sublist.length_le
    rw [length_map, length_map] at this
    exact le_trans this h.length_le
  positive := hcut.positive h.positive

/-! ## Consolidating -/

/-- Remove entries from `unlocking` that are sufficiently old. -/
def consolidateUnlocked (l : StakingLedger A) (currentEra : Nat) : StakingLedger A :=
  { l with
    total := (l.unlocking.filter fun c => decide (c.era ≤ currentEra)).foldl
      (fun total c => total - c.value) l.total
    unlocking := l.unlocking.filter fun c => decide (currentEra < c.era) }

def due (l : StakingLedger A) (currentEra : Nat) : Nat :=
  valueSum (l.unlocking.filter fun c => decide (c.era ≤ currentEra))

theorem foldl_sub (cs : List UnlockChunk) (total : Nat) :
    cs.foldl (fun total c => total - c.value) total = total - valueSum cs := by
  induction cs generalizing total with
  | nil => rfl
  | cons c cs ih =>
    rw [foldl_cons, ih, valueSum_cons]
    omega

theorem valueSum_filter (cs : List UnlockChunk) (n : Nat) :
    valueSum (cs.filter fun c => decide (c.era ≤ n)) +
      valueSum (cs.filter fun c => decide (n < c.era)) = valueSum cs := by
  induction cs with
  | nil => rfl
  | cons c cs ih =>
    by_cases h : c.era ≤ n
    · rw [filter_cons_of_pos (by simpa using h), filter_cons_of_neg (by simpa using h),
        valueSum_cons, valueSum_cons]
      omega
    · rw [filter_cons_of_neg (by simpa using h), filter_cons_of_pos (by simpa using h),
        valueSum_cons, valueSum_cons]
      omega

theorem total_consolidateUnlocked (h : l.Sound) (n : Nat) :
    (l.consolidateUnlocked n).total + l.due n = l.total := by
  have hsum := valueSum_filter l.unlocking n
  have htotal := h.total_eq
  simp only [consolidateUnlocked, due, foldl_sub]
  omega

theorem Sound.consolidateUnlocked (h : l.Sound) (n : Nat) : (l.consolidateUnlocked n).Sound := by
  refine h.of_cut ?_ (.of_sublist filter_sublist)
  have hsum := valueSum_filter l.unlocking n
  have htotal := h.total_eq
  simp only [StakingLedger.consolidateUnlocked, foldl_sub]
  omega

/-! ## Rebonding -/

/-- On the chunks in reverse. Sums that leave the balance type panic. -/
def rebondLoop (T : Balances.Config) (value : Nat) :
    Nat → Nat → List UnlockChunk → Option (Nat × List UnlockChunk)
  | _, active, [] => some (active, [])
  | unlockingBalance, active, last :: rest =>
    match T.checkedAdd unlockingBalance last.value with
    | none => none
    | some sum =>
      if sum ≤ value then
        match T.checkedAdd active last.value with
        | none => none
        | some active =>
          if value ≤ sum then some (active, rest) else rebondLoop T value sum active rest
      else
        -- the last chunk is split, and the loop ends
        match T.checkedAdd active (value - unlockingBalance) with
        | none => none
        | some active =>
          some (active, { last with value := last.value - (value - unlockingBalance) } :: rest)

def rebond (T : Balances.Config) (l : StakingLedger A) (value : Nat) : Option (StakingLedger A) :=
  (rebondLoop T value 0 l.active l.unlocking.reverse).map fun r =>
    { l with active := r.1, unlocking := r.2.reverse }

section Rebond

variable {T : Balances.Config} {value : Nat}

/-- It moves value from the chunks to the active balance, and keeps eras. -/
theorem rebondLoop_spec {chunks} {unlockingBalance active : Nat} {r}
    (h : rebondLoop T value unlockingBalance active chunks = some r) :
    r.1 + valueSum r.2 = active + valueSum chunks ∧ Cut r.2 chunks := by
  induction chunks generalizing unlockingBalance active with
  | nil =>
    obtain rfl := Option.some.inj h
    exact ⟨rfl, .nil⟩
  | cons last rest ih =>
    rw [rebondLoop] at h
    split at h
    · cases h
    rename_i sum hsum
    obtain ⟨-, rfl⟩ := checkedAdd_eq_some.mp hsum
    split at h
    · split at h
      · cases h
      · rename_i active' hactive
        obtain ⟨-, rfl⟩ := checkedAdd_eq_some.mp hactive
        split at h
        · obtain rfl := Option.some.inj h
          refine ⟨?_, .drop last (.refl rest)⟩
          simp only [valueSum_cons]
          omega
        obtain ⟨heq, hcut⟩ := ih h
        refine ⟨?_, .drop last hcut⟩
        rw [valueSum_cons]
        omega
    · split at h
      · cases h
      · rename_i hgt active' hactive
        obtain ⟨-, rfl⟩ := checkedAdd_eq_some.mp hactive
        obtain rfl := Option.some.inj h
        refine ⟨?_, .keep rfl (sub_le _ _) (fun _ => ?_) (.refl rest)⟩
        · simp only [valueSum_cons]
          omega
        · dsimp only
          omega

theorem Sound.rebond (h : l.Sound) (hrebond : l.rebond T value = some l') :
    l'.Sound ∧ l'.total = l.total ∧ Cut l'.unlocking l.unlocking := by
  obtain ⟨r, hr, rfl⟩ := Option.map_eq_some_iff.mp hrebond
  obtain ⟨heq, hcut⟩ := rebondLoop_spec hr
  have hback : Cut r.2.reverse l.unlocking := by simpa using hcut.reverse
  refine ⟨h.of_cut ?_ hback, rfl, hback⟩
  rw [h.total_eq, valueSum_reverse, heq, valueSum_reverse]

theorem rebond_stash (hrebond : l.rebond T value = some l') : l'.stash = l.stash := by
  obtain ⟨r, -, rfl⟩ := Option.map_eq_some_iff.mp hrebond
  rfl

end Rebond

/-! ## Slashing -/

/-- The total, the target and the value that remain. -/
def slashOutOf (minimumBalance total target value : Nat) : Nat × Nat × Nat :=
  let slashFromTarget := min value target
  if slashFromTarget = 0 then (total, target, value)
  else
    let target := target - slashFromTarget
    -- don't leave a dust balance in the staking system
    if target ≤ minimumBalance then
      (total - (slashFromTarget + target), 0, value + target - (slashFromTarget + target))
    else (total - slashFromTarget, target, value - slashFromTarget)

/-- It ends at the first chunk that is not fully consumed; those before are killed. -/
def slashChunks (minimumBalance : Nat) : Nat → Nat → List UnlockChunk → Nat × List UnlockChunk
  | total, _, [] => (total, [])
  | total, value, chunk :: chunks =>
    match slashOutOf minimumBalance total chunk.value value with
    | (total, left, value) =>
      if left = 0 then slashChunks minimumBalance total value chunks
      else (total, { chunk with value := left } :: chunks)

/-- This can grow the value of the slash in the case that the validator has less than
`minimum_balance` active funds. Returns the amount of funds actually slashed. -/
def slash (l : StakingLedger A) (value minimumBalance : Nat) : Nat × StakingLedger A :=
  match slashOutOf minimumBalance l.total l.active value with
  | (total, active, value) =>
    match slashChunks minimumBalance total value l.unlocking with
    | (total, unlocking) =>
      (l.total - total, { l with total := total, active := active, unlocking := unlocking })

variable {value : Nat}

section Slash

variable {minimumBalance : Nat} {chunks : List UnlockChunk} {total : Nat}

theorem slashOutOf_spec {target total' target' value' : Nat}
    (h : slashOutOf minimumBalance total target value = (total', target', value')) :
    (target ≤ total → total' + target = total + target') ∧ value' = value - target ∧
      min value target + target' ≤ target ∧ target ≤ target' + value + minimumBalance ∧
      (value = 0 → target' = target) := by
  unfold slashOutOf at h
  dsimp only at h
  split at h
  · obtain ⟨rfl, rfl, rfl⟩ := h
    omega
  split at h
  · obtain ⟨rfl, rfl, rfl⟩ := h
    omega
  · obtain ⟨rfl, rfl, rfl⟩ := h
    omega

/-- The chunks before some point are drained, and of the first that is left a part may be gone. -/
inductive Drained : List UnlockChunk → List UnlockChunk → Prop where
  | nil : Drained [] []
  | drain (c : UnlockChunk) {left chunks} (h : Drained left chunks) : Drained left (c :: chunks)
  | part (c : UnlockChunk) {value : Nat} (chunks : List UnlockChunk) (hpos : 0 < value)
      (hle : value ≤ c.value) : Drained ({ c with value := value } :: chunks) (c :: chunks)

theorem Drained.cut {left} (h : Drained left chunks) : Cut left chunks := by
  induction h with
  | nil => exact .nil
  | drain c _ ih => exact .drop c ih
  | part c chunks hpos hle => exact .keep rfl hle (fun _ => hpos) (.refl chunks)

theorem slashChunks_nothing (chunks : List UnlockChunk) :
    slashChunks minimumBalance total 0 chunks =
      (total, chunks.dropWhile fun c => decide (c.value = 0)) := by
  induction chunks with
  | nil => rfl
  | cons chunk chunks ih =>
    rw [slashChunks, slashOutOf, Nat.zero_min, if_pos rfl]
    dsimp only
    by_cases hzero : chunk.value = 0
    · rw [if_pos hzero, ih, dropWhile_cons_of_pos (by simpa using hzero)]
    · rw [if_neg hzero, dropWhile_cons_of_neg (by simpa using hzero)]

/-- The value goes as far as the chunks have it, and at most one dust amount more. -/
theorem slashChunks_spec (chunks : List UnlockChunk) (total value : Nat)
    (hle : valueSum chunks ≤ total) :
    (slashChunks minimumBalance total value chunks).1 + valueSum chunks =
        total + valueSum (slashChunks minimumBalance total value chunks).2 ∧
      min value (valueSum chunks) + (slashChunks minimumBalance total value chunks).1 ≤ total ∧
      total ≤ (slashChunks minimumBalance total value chunks).1 + value + minimumBalance ∧
      Drained (slashChunks minimumBalance total value chunks).2 chunks := by
  induction chunks generalizing total value with
  | nil => exact ⟨rfl, by simp [slashChunks], by simp only [slashChunks]; omega, .nil⟩
  | cons chunk chunks ih =>
    rw [valueSum_cons] at hle ⊢
    rw [slashChunks]
    rcases hout : slashOutOf minimumBalance total chunk.value value with ⟨total', left, value'⟩
    obtain ⟨htotal, hvalue, hlower, hupper, -⟩ := slashOutOf_spec hout
    dsimp only
    split
    · obtain ⟨hsum, hmin, hmax, hdrained⟩ := ih total' value' (by omega)
      refine ⟨by omega, by omega, ?_, .drain chunk hdrained⟩
      -- A value that goes on has taken no dust; without one the rest of the pass takes nothing.
      by_cases hdone : value' = 0
      · rw [hdone, slashChunks_nothing]
        omega
      · omega
    · rename_i hpos
      simp only [valueSum_cons]
      exact ⟨by omega, by omega, by omega,
        .part chunk chunks (Nat.pos_of_ne_zero hpos) (by omega)⟩

theorem Sound.slash (h : l.Sound) (value minimumBalance : Nat) :
    (l.slash value minimumBalance).2.Sound ∧
      Cut (l.slash value minimumBalance).2.unlocking l.unlocking := by
  have htotal := h.total_eq
  unfold StakingLedger.slash
  rcases hout : slashOutOf minimumBalance l.total l.active value with ⟨total, active, rest⟩
  obtain ⟨hactive, -⟩ := slashOutOf_spec hout
  obtain ⟨hsum, -, -, hdrained⟩ := slashChunks_spec l.unlocking total rest (by omega)
  refine ⟨h.of_cut ?_ hdrained.cut, hdrained.cut⟩
  dsimp only
  omega

/-- A slash reaches it last. -/
def lastStake (l : StakingLedger A) : Nat := (l.unlocking.getLast?.map UnlockChunk.value).getD l.active

/-- The slash reaches the last of the stakes, and leaves no more than the minimum balance of it:
then it takes all that is in the ledger. -/
def EmptiedBy (l : StakingLedger A) (value minimumBalance : Nat) : Prop :=
  l.total ≤ value + minimumBalance ∧ l.total < value + l.lastStake

theorem value_le_valueSum {c} (hc : c ∈ chunks) : c.value ≤ valueSum chunks := by
  obtain ⟨before, after, rfl⟩ := append_of_mem hc
  rw [valueSum_append, valueSum_cons]
  omega

/-- The chunks were within the minimum balance of the value, which reached the last of them. -/
theorem slashChunks_nil (hpos : ∀ c ∈ chunks, 0 < c.value) (hne : chunks ≠ [])
    (h : (slashChunks minimumBalance total value chunks).2 = []) :
    ∃ last, chunks.getLast? = some last ∧ valueSum chunks ≤ value + minimumBalance ∧
      valueSum chunks < value + last.value := by
  induction chunks generalizing total value with
  | nil => exact absurd rfl hne
  | cons chunk chunks ih =>
    rw [slashChunks] at h
    rcases hout : slashOutOf minimumBalance total chunk.value value with ⟨total', left, value'⟩
    rw [hout] at h
    dsimp only at h
    split at h
    · rename_i hzero
      subst hzero
      obtain ⟨-, hvalue, -, hle, hnothing⟩ := slashOutOf_spec hout
      have hchunk := hpos chunk mem_cons_self
      rw [valueSum_cons]
      by_cases hlast : chunks = []
      · subst hlast
        rw [valueSum_nil]
        exact ⟨chunk, rfl, by omega, by omega⟩
      obtain ⟨last, hgl, hsum, hlt⟩ :=
        ih (fun c hc => hpos c (mem_cons_of_mem _ hc)) hlast h
      have hlastle := value_le_valueSum (mem_of_getLast? hgl)
      refine ⟨last, ?_, by omega, by omega⟩
      rw [List.getLast?_cons_of_ne_nil hlast, hgl]
    · cases h

theorem eq_nil_of_valueSum (hpos : ∀ c ∈ chunks, 0 < c.value) (hsum : valueSum chunks = 0) :
    chunks = [] := by
  cases chunks with
  | nil => rfl
  | cons c cs =>
    have := hpos c mem_cons_self
    rw [valueSum_cons] at hsum
    omega

theorem Sound.slash_pos (h : l.Sound) (hkeeps : 0 < l.total → ¬l.EmptiedBy value minimumBalance)
    (hzero : (l.slash value minimumBalance).2.total = 0) : l.total = 0 := by
  by_contra hne
  refine hkeeps (Nat.pos_of_ne_zero hne) ?_
  have hsound := (h.slash value minimumBalance).1
  have hactive : (l.slash value minimumBalance).2.active = 0 := by
    have := hsound.total_eq
    omega
  have hnone : (l.slash value minimumBalance).2.unlocking = [] := by
    refine eq_nil_of_valueSum hsound.positive ?_
    have := hsound.total_eq
    omega
  have htotal := h.total_eq
  unfold StakingLedger.slash at hactive hnone
  rcases hout : slashOutOf minimumBalance l.total l.active value with ⟨total, active, rest⟩
  rw [hout] at hactive hnone
  subst hactive
  obtain ⟨-, hrest, -, hwiped, hnothing⟩ := slashOutOf_spec hout
  unfold EmptiedBy lastStake
  by_cases hchunks : l.unlocking = []
  · rw [hchunks] at htotal ⊢
    simp only [valueSum_nil, List.getLast?_nil, Option.map_none, Option.getD_none] at htotal ⊢
    omega
  obtain ⟨last, hgl, hsum, hlt⟩ := slashChunks_nil h.positive hchunks hnone
  have hlastle := value_le_valueSum (mem_of_getLast? hgl)
  rw [hgl]
  simp only [Option.map_some, Option.getD_some]
  omega

/-! ## The order of a slash -/

/-- **A slash is bounded and ordered.** The amount it returns is what the total lost: at least
the value as far as the ledger has it, and at most one minimum balance more. Of the chunks the
first go, and none is touched while something is active. A slash empties no chunk that it leaves. -/
theorem slash_bounded_ordered (h : l.total = l.active + valueSum l.unlocking)
    (value minimumBalance : Nat) :
    (l.slash value minimumBalance).1 + (l.slash value minimumBalance).2.total = l.total ∧
      min value l.total ≤ (l.slash value minimumBalance).1 ∧
      (l.slash value minimumBalance).1 ≤ value + minimumBalance ∧
      (l.slash value minimumBalance).2.total = (l.slash value minimumBalance).2.active +
        valueSum (l.slash value minimumBalance).2.unlocking ∧
      (l.slash value minimumBalance).2.active ≤ l.active ∧
      Drained (l.slash value minimumBalance).2.unlocking l.unlocking ∧
      ((l.slash value minimumBalance).2.active ≠ 0 → (l.slash value minimumBalance).2.unlocking =
        l.unlocking.dropWhile fun c => decide (c.value = 0)) ∧
      ((∀ c ∈ l.unlocking, 0 < c.value) →
        ∀ c ∈ (l.slash value minimumBalance).2.unlocking, 0 < c.value) := by
  unfold StakingLedger.slash
  rcases hout : slashOutOf minimumBalance l.total l.active value with ⟨total, active, rest⟩
  obtain ⟨hactive, hrest, hlower, hupper, -⟩ := slashOutOf_spec hout
  obtain ⟨hsum, hmin, hmax, hdrained⟩ := slashChunks_spec l.unlocking total rest (by omega)
  have hnothing : rest = 0 → slashChunks minimumBalance total rest l.unlocking =
      (total, l.unlocking.dropWhile fun c => decide (c.value = 0)) := by
    rintro rfl
    exact slashChunks_nothing l.unlocking
  dsimp only
  refine ⟨by omega, by omega, ?_, by omega, by omega, hdrained, fun hne => ?_,
    hdrained.cut.positive⟩
  · by_cases hdone : rest = 0
    · rw [hnothing hdone]
      omega
    · omega
  · rw [hnothing (by omega)]

/-- The active balance and the first chunk go, with the dust of the second. -/
theorem slash_bounded_ordered_dust :
    ((⟨0, 18, 5, [⟨6, 1⟩, ⟨7, 2⟩], []⟩ : StakingLedger Nat).slash 15 3).1 ≤ 15 + 3 :=
  (slash_bounded_ordered (by decide) 15 3).2.2.1

/-- A chunk that was empty before stays behind one that is not. -/
theorem slash_leaves_empty_chunk : ¬∀ (l : StakingLedger Nat) (value minimumBalance : Nat),
      l.total = l.active + valueSum l.unlocking →
        ∀ c ∈ (l.slash value minimumBalance).2.unlocking, 0 < c.value := by
  intro h
  have hzero := h ⟨0, 6, 1, [⟨5, 1⟩, ⟨0, 2⟩], []⟩ 0 0 (by decide) ⟨0, 2⟩ (by decide)
  exact absurd hzero (by decide)

end Slash

/-! ## Adding and unbonding -/

theorem Sound.bondMore (h : l.Sound) (extra : Nat) :
    Sound { l with total := l.total + extra, active := l.active + extra } where
  total_eq := by
    have := h.total_eq
    dsimp only
    omega
  eras_sorted := h.eras_sorted
  length_le := h.length_le
  positive := h.positive

theorem Sound.unbond (h : l.Sound) {era : Nat} (hpos : 0 < value) (hle : value ≤ l.active)
    (hlength : l.unlocking.length < maxUnlockingChunks) (heras : ∀ c ∈ l.unlocking, c.era ≤ era) :
    Sound { l with active := l.active - value, unlocking := l.unlocking ++ [⟨value, era⟩] } where
  total_eq := by
    have := h.total_eq
    simp only [valueSum_append, valueSum_cons, valueSum_nil]
    omega
  eras_sorted := by
    rw [map_append, pairwise_append]
    refine ⟨h.eras_sorted, pairwise_singleton _ _, fun e he e' he' => ?_⟩
    obtain ⟨c, hc, rfl⟩ := mem_map.mp he
    obtain rfl := mem_singleton.mp he'
    exact heras c hc
  length_le := by
    rw [length_append]
    exact hlength
  positive := by
    intro c hc
    rcases mem_append.mp hc with hc | hc
    · exact h.positive c hc
    · rw [mem_singleton.mp hc]
      exact hpos

/-! ## Edits -/

/-- The chunks that are due `bondingDuration` later. -/
def unbondedAt (bondingDuration : Nat) (l : StakingLedger A) (era : Nat) : Nat :=
  valueSum (l.unlocking.filter fun c => decide (c.era = era + bondingDuration))

theorem unbondedAt_consolidateUnlocked (l : StakingLedger A) {bondingDuration n e : Nat}
    (he : n < e + bondingDuration) :
    (l.consolidateUnlocked n).unbondedAt bondingDuration e = l.unbondedAt bondingDuration e := by
  unfold unbondedAt consolidateUnlocked
  rw [filter_filter]
  congr 1
  refine filter_congr fun c _ => ?_
  by_cases hc : c.era = e + bondingDuration
  · simp [hc, he]
  · simp [hc]

variable (T : Balances.Config) (bondingDuration : Nat) (era : Option Nat) in
inductive Edit : StakingLedger A → StakingLedger A → Prop where
  | bond (l : StakingLedger A) (extra : Nat) : Edit l
        { l with total := l.total + extra, active := l.active + extra }
  | unbond {l : StakingLedger A} {value : Nat} (hpos : 0 < value) (hle : value ≤ l.active)
      (hlength : l.unlocking.length < maxUnlockingChunks) : Edit l { l with
          active := l.active - value
          unlocking := l.unlocking ++ [⟨value, era.getD 0 + bondingDuration⟩] }
  | rebond {l l' : StakingLedger A} {value : Nat} (h : l.rebond T value = some l') : Edit l l'
  | consolidate (l : StakingLedger A) {n : Nat} (h : era = some n) :
      Edit l (l.consolidateUnlocked n)
  | keep (l : StakingLedger A) : Edit l l
  | slash (l : StakingLedger A) (value : Nat) : Edit l (l.slash value T.existentialDeposit).2

section Edit

variable {T : Balances.Config} {bondingDuration : Nat} {era : Option Nat} {l l' : StakingLedger A}

theorem Edit.stash_eq (h : Edit T bondingDuration era l l') : l'.stash = l.stash := by
  cases h with
  | bond extra => rfl
  | unbond hpos hle hlength => rfl
  | rebond h => exact rebond_stash h
  | consolidate h | keep | slash value => rfl

/-- Only unbonding adds a chunk; the others cut. -/
theorem Edit.cut (hl : l.Sound) (h : Edit T bondingDuration era l l') :
    Cut l'.unlocking l.unlocking ∨
      ∃ value, l'.unlocking = l.unlocking ++ [⟨value, era.getD 0 + bondingDuration⟩] := by
  cases h with
  | bond extra => exact .inl (.refl _)
  | @unbond value hpos hle hlength => exact .inr ⟨value, rfl⟩
  | rebond h => exact .inl (hl.rebond h).2.2
  | consolidate h => exact .inl (.of_sublist filter_sublist)
  | keep => exact .inl (.refl _)
  | slash value => exact .inl (hl.slash value _).2

def DueWithin (l : StakingLedger A) (era : Nat) : Prop := ∀ c ∈ l.unlocking, c.era ≤ era

theorem DueWithin.cut {n : Nat} (h : l.DueWithin n) (hcut : Cut l'.unlocking l.unlocking) :
    l'.DueWithin n := by
  intro c hc
  obtain ⟨c', hc', hera⟩ :=
    mem_map.mp (hcut.eras_sublist.subset (mem_map_of_mem hc))
  exact hera ▸ h c' hc'

section

variable (hl : l.Sound) (hdue : l.DueWithin (era.getD 0 + bondingDuration))
  (h : Edit T bondingDuration era l l')
include hl hdue h

/-- **Every edit keeps the ledger sound.** -/
theorem Sound.edit : l'.Sound := by
  cases h with
  | bond extra => exact hl.bondMore extra
  | unbond hpos hle hlength => exact hl.unbond hpos hle hlength hdue
  | rebond h => exact (hl.rebond h).1
  | consolidate h => exact hl.consolidateUnlocked _
  | keep => exact hl
  | slash value => exact (hl.slash value _).1

theorem DueWithin.edit : l'.DueWithin (era.getD 0 + bondingDuration) := by
  rcases h.cut hl with hcut | ⟨value, happend⟩
  · exact hdue.cut hcut
  intro c hc
  rw [happend] at hc
  rcases mem_append.mp hc with hc | hc
  · exact hdue c hc
  · exact le_of_eq (congrArg UnlockChunk.era (mem_singleton.mp hc))

end

/-- What was unbonded in another era never grows. -/
theorem Edit.unbondedAt_le (hl : l.Sound) (h : Edit T bondingDuration era l l') {e : Nat}
    (he : e ≠ era.getD 0) : l'.unbondedAt bondingDuration e ≤ l.unbondedAt bondingDuration e := by
  rcases h.cut hl with hcut | ⟨value, happend⟩
  · exact hcut.valueSum_le _
  · unfold unbondedAt
    rw [happend, filter_append, filter_cons_of_neg (by simp; omega)]
    simp

end Edit

end StakingLedger

end Substrate.Staking
