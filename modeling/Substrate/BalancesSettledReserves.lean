import Substrate.BalancesSettled

/-!
# Reserves, fungibles, dispatchables and locks settle

The operations beyond `Currency`. The locks alone change what is frozen.
-/

namespace Substrate.Balances

open Exec AccountData FrameSystem Nat Config

variable {A L I : Type} [DecidableEq A] {T : Config}
  {Below : A → Prop} {Lock Ok : Prop} {s : State A L I} {who : A}

/-! ## Reserves -/

variable {amount : Nat} {a : AccountData}

section Reserves

variable {value : Nat} {lossy : Prop} {bestEffort : Bool} {status : Status}

theorem AccountData.funds_reserve (h : value ≤ a.free) :
    a.free - value + (a.reserved + value) = a.funds := by
  simp only [funds]
  omega

section

variable (hadmits : Admits T Below Ok s who (s.data who).funds lossy)
include hadmits

theorem settled_reserve : Settles T Below Lock Ok (reserve T who value) s := by
  unfold reserve
  split
  · exact .refl ..
  refine settled_of_plain hadmits ?_
  rw [post_bind, post_okOr_sub]
  refine ⟨fun hle => ?_, fun _ => rfl⟩
  rw [post_bind, post_okOr_add]
  refine ⟨fun _ => ?_, fun _ => rfl⟩
  rw [post_bind, post_ensureCanWithdraw]
  refine ⟨fun _ => ?_, fun _ => rfl⟩
  rw [post_pure]
  exact ⟨rfl, fun _ => ⟨rfl, rfl⟩, fun _ => funds_reserve hle, fun _ => funds_reserve hle⟩

theorem settled_unreserve (hfits : Ok → (s.data who).funds ≤ T.maxValue) :
    Settles T Below Lock Ok (unreserve T who value) s := by
  unfold Settles unreserve
  split
  · exact .refl ..
  rw [post_bind, post_read]
  split
  · exact .refl ..
  rw [post_bind, post_attempt]
  refine (settled_of_plain hadmits ?_).imp (fun _ _ h => h)
  rw [post_pure]
  have hle := T.existentialDeposit_le
  refine ⟨rfl, fun _ => ⟨rfl, rfl⟩, fun hlt => ?_, fun hok => ?_⟩
  · have htotal := funds_eq_total hlt
    simp only [total_eq, funds, saturatingAdd] at hlt htotal ⊢
    omega
  · have := hfits hok
    simp only [funds, saturatingAdd] at this ⊢
    omega

theorem settled_hold : Settles T Below Lock Ok (hold T who amount) s := by
  unfold Settles hold
  split
  · exact .refl ..
  rw [post_bind, post_read, post_bind, post_ensure]
  refine ⟨fun _ => settled_of_plain hadmits ?_, fun _ => .refl ..⟩
  rw [post_bind, post_unwrap_sub]
  intro hle
  rw [post_bind, post_unwrap_add]
  intro _
  rw [post_pure]
  exact ⟨rfl, fun _ => ⟨rfl, rfl⟩, fun _ => funds_reserve hle, fun _ => funds_reserve hle⟩

theorem settled_release : Settles T Below Lock Ok (release T who amount bestEffort) s := by
  unfold release
  split
  · exact .refl ..
  refine settled_of_plain hadmits ?_
  rw [post_bind, post_unwrap_sub]
  intro hle
  rw [post_bind, post_ensure]
  refine ⟨fun _ => ?_, fun _ => rfl⟩
  rw [post_pure]
  have hfunds : T.saturatingAdd (s.data who).free (min amount (s.data who).reserved) +
      ((s.data who).reserved - (T.saturatingAdd (s.data who).free
        (min amount (s.data who).reserved) - (s.data who).free)) = (s.data who).funds := by
    simp only [funds, saturatingAdd] at hle ⊢
    omega
  exact ⟨rfl, fun _ => ⟨rfl, rfl⟩, fun _ => hfunds, fun _ => hfunds⟩

end

structure Repatriates (toAccount fromAccount : AccountData) (value : Nat)
    (p : AccountData × AccountData × Nat) : Prop where
  sender_frozen : SameFrozen fromAccount p.1
  receiver_frozen : SameFrozen toAccount p.2.1
  sender : p.1.funds + min fromAccount.reserved value = fromAccount.funds
  receiver : p.2.1.funds = toAccount.funds + min fromAccount.reserved value

omit [DecidableEq A] in
theorem post_transferReservedFrom {toAccount fromAccount} :
    Post (transferReservedFrom T value bestEffort status toAccount fromAccount) s
      (fun p s' => s' = s ∧ Repatriates toAccount fromAccount value p) (fun _ s' => s' = s) := by
  have hsender : ∀ r, fromAccount.free + (fromAccount.reserved - min fromAccount.reserved r) +
      min fromAccount.reserved r = fromAccount.funds := fun r => by
    simp only [funds]
    omega
  unfold transferReservedFrom
  rw [post_bind, post_ensure]
  refine ⟨fun _ => ?_, fun _ => rfl⟩
  rw [post_bind]
  cases status with
  | free | reserved =>
    unfold credit
    rw [post_bind, post_okOr_add]
    refine ⟨fun _ => ?_, fun _ => rfl⟩
    refine ⟨rfl, ⟨rfl, rfl⟩, ⟨rfl, rfl⟩, hsender value, ?_⟩
    simp only [funds]
    omega

theorem settled_transferReservedFrom (Lock : Prop) {slashed : A} (toAccount : AccountData)
    (hadmits : Admits T Below Ok s slashed
      ((s.data slashed).funds - min (s.data slashed).reserved value) False) :
    Post (tryMutateAccountWithDust T slashed fun fromAccount _ =>
        transferReservedFrom T value bestEffort status toAccount fromAccount) s
      (fun q s' => Settled T Below Lock Ok
          ((min (s.data slashed).reserved value : Nat) + worth q.2.dust) s s' ∧
        (∀ j, j ≠ slashed → s'.account.get? j = s.account.get? j) ∧
        SameFrozen toAccount q.1.1 ∧
        q.1.1.funds = toAccount.funds + min (s.data slashed).reserved value)
      (fun _ s' => Settled T Below Lock Ok 0 s s' ∧ True) := by
  refine (settled_withDust (fun _ => ((min (s.data slashed).reserved value : Nat) : Int)) ?_).and
    (frame_withDust (C := fun r : AccountData × Nat => SameFrozen toAccount r.1 ∧
      r.1.funds = toAccount.funds + min (s.data slashed).reserved value) ?_)
  · refine post_transferReservedFrom.mono ?_ ?_
    · rintro ⟨a, b, actual⟩ s' ⟨rfl, h⟩
      have hsender : a.funds + min (s'.data slashed).reserved value = (s'.data slashed).funds :=
        h.sender
      have hrest : a.funds = (s'.data slashed).funds - min (s'.data slashed).reserved value := by
        omega
      refine ⟨rfl, fun _ => h.sender_frozen, fun hlt => hadmits.below (le_of_eq hrest.symm) hlt,
        ⟨0, .refl .., fun _ => by dsimp only; omega⟩, fun hlt hp hcan => ?_⟩
      by_cases hok : Ok
      · rw [hadmits.dustOf_eq_none hok hrest hlt hp hcan]
        exact .refl ..
      · exact .drop_of_not _ hok
    · rintro _ s' rfl
      exact .refl ..
  · refine post_transferReservedFrom.mono ?_ fun _ _ _ => trivial
    rintro ⟨a, b, actual⟩ s' ⟨rfl, h⟩
    exact ⟨rfl, h.receiver_frozen, h.receiver⟩

structure Repatriable (T : Config) (Below : A → Prop) (Ok : Prop) (s : State A L I)
    (slashed beneficiary : A) (value : Nat) : Prop where
  fits : Ok → (s.data slashed).funds ≤ T.maxValue
  same : slashed = beneficiary → Admits T Below Ok s slashed (s.data slashed).funds False
  sender : slashed ≠ beneficiary → Admits T Below Ok s slashed
    ((s.data slashed).funds - min (s.data slashed).reserved value) False
  receiver : slashed ≠ beneficiary → Admits T Below Ok s beneficiary (s.data beneficiary).funds True

theorem settled_doTransferReserved {slashed beneficiary : A}
    (h : Repatriable T Below Ok s slashed beneficiary value) :
    Settles T Below Lock Ok (doTransferReserved T slashed beneficiary value bestEffort status) s := by
  unfold Settles doTransferReserved
  split
  · exact .refl ..
  split
  · rename_i heq
    cases status with
    | free => exact settled_unreserve (h.same heq) h.fits
    | reserved => exact .refl ..
  rename_i hne
  rw [post_bind]
  refine (settled_withDust (fun r : Nat × DustCleaner => worth r.2.dust) ?_).imp ?_
  · rw [post_bind, post_ensure]
    refine ⟨fun _ => ?_, fun _ => .refl ..⟩
    rw [post_bind]
    refine (settled_transferReservedFrom Lock (s.data beneficiary) (h.sender hne)).mono ?_
      fun _ _ he => he.1
    rintro ⟨⟨b, actual⟩, c⟩ s' ⟨hsettled, hframe, hfrozen, hfunds⟩
    rw [post_pure]
    have hle : (s.data beneficiary).funds ≤ b.funds := by
      dsimp only at hfunds
      omega
    refine ⟨hframe beneficiary (Ne.symm hne), fun _ => hfrozen,
      fun hlt => (h.receiver hne).below hle hlt, ⟨_, hsettled, fun _ => ?_⟩,
      fun hlt hp hcan => ?_⟩
    · dsimp only at hfunds ⊢
      omega
    · have hno : ¬Ok := fun hok =>
        (h.receiver hne).not_refused hok trivial hle hlt hp hcan
      exact (hsettled.trans (.drop_of_not (w := 0) _ hno)).congr fun hok => absurd hok hno
  · rintro ⟨⟨actual, c⟩, c'⟩ s' hsettled
    simp only [post_bind, post_modify, post_pure]
    exact ((hsettled.trans (.cleaner c')).trans (.cleaner c)).congr fun _ => by
      dsimp only [worth]
      omega

end Reserves

/-! ## Fungible -/

section Fungible

omit [DecidableEq A] in
theorem post_depositConsequence (hamount : amount ≠ 0) : Post (depositConsequence T amount a) s
      (fun _ s' => s' = s ∧ T.existentialDeposit ≤ a.funds + amount) (fun _ s' => s' = s) := by
  unfold depositConsequence
  rw [if_neg hamount, post_bind, post_read, post_bind, post_ensure]
  refine ⟨fun _ => ?_, fun _ => rfl⟩
  rw [post_bind, post_okOr_add]
  refine ⟨fun _ => ?_, fun _ => rfl⟩
  rw [post_ensure]
  refine ⟨fun hed => ⟨rfl, ?_⟩, fun _ => rfl⟩
  rw [total_eq] at hed
  omega

theorem settled_mintInto : Settles T Below Lock Ok (mintInto T who amount) s := by
  unfold Settles mintInto
  split
  · exact .refl ..
  rename_i hamount
  rw [post_bind]
  refine (settled_tryMutateAccount (fun _ => -(amount : Int)) ?_).imp ?_
  · rw [post_bind]
    refine (post_depositConsequence hamount).imp ?_
    rintro _ s' ⟨rfl, hed⟩
    rw [post_bind, post_unwrap_add]
    intro _
    rw [post_pure]
    -- the account is left with the existential deposit
    have hno : ¬AccountData.total T
        { s'.data who with free := (s'.data who).free + amount } < T.existentialDeposit := by
      intro hlt
      rw [funds_eq_total hlt] at hlt
      simp only [funds] at hed hlt
      omega
    refine ⟨rfl, fun _ => ⟨rfl, rfl⟩, fun hlt => absurd hlt hno, fun _ => ?_,
      fun _ hlt => absurd hlt hno⟩
    simp only [funds]
    omega
  · rintro _ s' hsettled
    rw [post_bind, post_read, post_bind, post_unwrap_add]
    intro hle
    rw [post_modify]
    have hissued : Settled T Below Lock Ok (amount : Int) s' _ :=
      .issuance (fun _ => hle) fun _ => Int.natCast_add ..
    exact (hsettled.trans hissued).congr fun _ => Int.add_left_neg _

def Withdrawable (T : Config) (who : A) (amount : Nat) (a : AccountData) (s : State A L I) : Prop :=
  amount ≤ s.totalIssuance ∧ amount ≤ a.total T ∧
    (a.total T - amount < T.existentialDeposit → s.canDec who = true) ∧
    amount + a.frozen .all ≤ a.free

/-- The dust that a withdrawal takes along. -/
def dustOn (T : Config) (amount : Nat) (a : AccountData) : Nat :=
  if a.total T - amount < T.existentialDeposit then a.total T - amount else 0

section

omit [DecidableEq A]

theorem sure_reducedToZero {n : Nat} {Q : Nat → State A L I → Prop} :
    Sure (reducedToZero T who n) s Q (fun _ s' => s' = s) ↔
      ((n < T.existentialDeposit → s.canDec who = true) →
        Q (if n < T.existentialDeposit then n else 0) s) := by
  unfold reducedToZero
  by_cases hlt : n < T.existentialDeposit
  · rw [if_pos hlt, if_pos hlt, sure_bind, sure_read, sure_bind, sure_ensure]
    by_cases hcan : canDecProvider s.account who = true
    · rw [if_pos hcan]
      exact ⟨fun h _ => h, fun h => h fun _ => hcan⟩
    · rw [if_neg hcan]
      exact ⟨fun _ h => absurd (h hlt) hcan, fun _ => rfl⟩
  · rw [if_neg hlt, if_neg hlt]
    exact ⟨fun h _ => h, fun h => h fun hlt' => absurd hlt' hlt⟩

theorem sure_withdrawConsequence (hamount : amount ≠ 0) {Q : Nat → State A L I → Prop} :
    Sure (withdrawConsequence T who amount a) s Q (fun _ s' => s' = s) ↔
      (Withdrawable T who amount a s → Q (dustOn T amount a) s) := by
  unfold withdrawConsequence Withdrawable dustOn
  rw [if_neg hamount, sure_bind, sure_read, sure_bind, sure_ensure]
  by_cases hissued : amount ≤ s.totalIssuance
  swap
  · rw [if_neg (by simp [checkedSub, hissued])]
    simp [hissued]
  rw [if_pos (by simp [checkedSub, hissued]), sure_bind, sure_okOr_sub]
  by_cases htotal : amount ≤ a.total T
  swap
  · rw [if_neg htotal]
    simp [htotal]
  rw [if_pos htotal, sure_bind, sure_reducedToZero]
  simp only [sure_bind, sure_okOr_sub, sure_ensure, sure_pure]
  by_cases hfree : amount + a.frozen .all ≤ a.free
  · rw [if_pos (by omega), if_pos (by omega)]
    simp [hissued, htotal, hfree, true_and]
  · simp only [hfree, and_false, false_implies, iff_true]
    intro _
    split_ifs <;> omega

theorem post_withdrawConsequence (hamount : amount ≠ 0) :
    Post (withdrawConsequence T who amount a) s (fun extra s' => s' = s ∧ amount ≤ a.total T ∧
        (a.total T - amount < T.existentialDeposit →
          s.canDec who = true ∧ extra = a.total T - amount) ∧
        (T.existentialDeposit ≤ a.total T - amount → extra = 0))
      (fun _ s' => s' = s) := by
  refine Sure.post ((sure_withdrawConsequence hamount).mpr ?_)
  rintro ⟨-, htotal, hcan, -⟩
  exact ⟨rfl, htotal, fun hlt => ⟨hcan hlt, if_pos hlt⟩, fun hge => if_neg (not_lt.mpr hge)⟩

end

theorem settled_burnFrom
    (hbelow : (s.data who).total T - amount < T.existentialDeposit → s.providing who = true →
      s.canDec who = true → Below who) : Settles T Below Lock Ok (burnFrom T who amount) s := by
  unfold Settles burnFrom
  split
  · exact .refl ..
  rename_i hamount
  rw [post_bind]
  refine (settled_tryMutateAccount (fun actual : Nat => (actual : Int)) ?_).imp ?_
  · rw [post_bind]
    refine (post_withdrawConsequence hamount).imp ?_
    rintro extra s' ⟨rfl, hle, hdead, halive⟩
    rw [post_bind, post_unwrap_add]
    intro _
    rw [post_bind, post_unwrap_sub]
    intro hfree
    rw [post_pure]
    have hsum : (s'.data who).free - (amount + extra) + (s'.data who).reserved +
        (amount + extra) = (s'.data who).funds := by
      simp only [funds]
      omega
    -- an account that is discarded was below the existential deposit without the dust
    have hdies : ∀ a : AccountData, a.total T < T.existentialDeposit →
        a.funds + (amount + extra) = (s'.data who).funds →
        (s'.data who).total T - amount < T.existentialDeposit := by
      intro a hlt hfunds
      by_contra hge
      have htotal : (s'.data who).total T ≤ (s'.data who).funds := min_le_left _ _
      rw [funds_eq_total hlt] at hlt
      omega
    refine ⟨rfl, fun _ => ⟨rfl, rfl⟩, fun hlt => hbelow (hdies _ hlt hsum), fun _ => ?_,
      fun _ hlt _ hcan => ?_⟩
    · rw [← hsum]
      simp only [funds]
      omega
    · rw [(hdead (hdies _ hlt hsum)).1] at hcan
      cases hcan
  · rintro actual s' hsettled
    rw [post_bind, post_read, post_bind, post_unwrap_sub]
    intro hle
    rw [post_bind, post_modify]
    have hissued : Settled T Below Lock Ok (-(actual : Int)) s' _ :=
      .issuance (fun h => le_trans (sub_le _ actual) h) fun _ => by omega
    exact (hsettled.trans hissued).congr fun _ => Int.add_right_neg _

end Fungible

/-! ## Dispatchables -/

section Dispatchables

def SquaresUp (T : Config) (issued old new : Nat) : Prop :=
  old - new ≤ issued ∧ issued + (new - old) ≤ T.maxValue

omit [DecidableEq A] in
theorem post_squareUp {old new : Nat} (Ok : Prop)
    (hfits : Ok → SquaresUp T s.totalIssuance old new) :
    Post (squareUp T old new) s (fun _ s' => ∃ n, s' = { s with totalIssuance := n } ∧
        (s.totalIssuance ≤ T.maxValue → n ≤ T.maxValue) ∧
        (Ok → (n : Int) = s.totalIssuance + (new - old))) (fun _ _ => False) := by
  unfold squareUp
  split
  · rw [post_modify]
    refine ⟨_, rfl, fun _ => min_le_right _ _, fun hok => ?_⟩
    have := (hfits hok).2
    simp only [saturatingAdd]
    omega
  split
  · rw [post_modify]
    refine ⟨_, rfl, fun h => le_trans (sub_le _ _) h, fun hok => ?_⟩
    have := (hfits hok).1
    dsimp only
    omega
  · rw [post_pure]
    exact ⟨s.totalIssuance, rfl, id, fun _ => by omega⟩

/-- What `set_balance` leaves of a balance. -/
def wipedOut (T : Config) (total amount : Nat) : Nat :=
  if total < T.existentialDeposit then 0 else amount

theorem settled_setBalance {newFree newReserved : Nat} (hfits : Ok →
      SquaresUp T s.totalIssuance (s.data who).free (wipedOut T (newFree + newReserved) newFree) ∧
      SquaresUp T (s.totalIssuance + wipedOut T (newFree + newReserved) newFree - (s.data who).free)
        (s.data who).reserved (wipedOut T (newFree + newReserved) newReserved))
    (hadmits : newFree + newReserved < T.existentialDeposit → Admits T Below Ok s who 0 True) :
    Settles T Below Lock Ok (setBalance T who newFree newReserved) s := by
  unfold Settles setBalance
  rw [post_bind, post_unwrap_add]
  intro hmax
  simp only [decide_eq_true_eq]
  change Post (mutateAccount T who fun account => do
    squareUp T account.free (wipedOut T (newFree + newReserved) newFree)
    squareUp T account.reserved (wipedOut T (newFree + newReserved) newReserved)
    pure ({ account with
      free := wipedOut T (newFree + newReserved) newFree
      reserved := wipedOut T (newFree + newReserved) newReserved }, ())) s _ _
  generalize hfree : wipedOut T (newFree + newReserved) newFree = free at hfits ⊢
  generalize hreserved : wipedOut T (newFree + newReserved) newReserved = reserved at hfits ⊢
  refine settled_mutation (fun _ => 0) ?_
  rw [post_bind]
  refine (post_squareUp Ok fun hok => (hfits hok).1).noErr ?_
  rintro _ _ ⟨n, rfl, hle, hn⟩
  rw [post_bind]
  refine (post_squareUp Ok fun hok => ?_).noErr ?_
  · have heq : n = s.totalIssuance + free - (s.data who).free := by
      have := hn hok
      omega
    rw [heq]
    exact (hfits hok).2
  · rintro _ _ ⟨n', rfl, hle', hn'⟩
    rw [post_pure]
    have hissued : Settled T Below Lock Ok
        ((free : Int) - (s.data who).free + (reserved - (s.data who).reserved)) s
        { s with totalIssuance := n' } :=
      .issuance (fun h => hle' (hle h)) fun hok => by
        have := hn hok
        have := hn' hok
        dsimp only at this
        omega
    have hzero : AccountData.total T
        { s.data who with free := free, reserved := reserved } < T.existentialDeposit →
          newFree + newReserved < T.existentialDeposit := by
      intro hlt
      by_contra hge
      rw [wipedOut, if_neg hge] at hfree hreserved
      rw [funds_eq_total hlt] at hlt
      simp only [funds] at hlt
      omega
    refine ⟨rfl, fun _ => ⟨rfl, rfl⟩, fun hlt => (hadmits (hzero hlt)).below (zero_le _) hlt,
      ⟨_, hissued, fun _ => ?_⟩, fun hlt hp hcan => ?_⟩
    · simp only [funds]
      omega
    · have hno : ¬Ok := fun hok =>
        (hadmits (hzero hlt)).not_refused hok trivial (zero_le _) hlt hp hcan
      exact (hissued.trans (.drop_of_not (w := 0) _ hno)).congr fun hok => absurd hok hno

end Dispatchables

/-! ## Locks -/

variable {lossy : Prop}

section Locks

def BalanceLock.covers (r : Reasons) (l : BalanceLock L) : Bool :=
  decide (l.reasons = .all ∨ l.reasons = r)

def maxLocked (r : Reasons) (locks : List (BalanceLock L)) : Nat :=
  ((locks.filter (BalanceLock.covers r)).map BalanceLock.amount).foldr max 0

theorem maxLocked_cons (r : Reasons) (l : BalanceLock L) (locks : List (BalanceLock L)) :
    maxLocked r (l :: locks) =
      if l.reasons = .all ∨ l.reasons = r then max l.amount (maxLocked r locks)
      else maxLocked r locks := by
  unfold maxLocked
  by_cases h : l.reasons = .all ∨ l.reasons = r
  · rw [List.filter_cons_of_pos (by simpa [BalanceLock.covers] using h), if_pos h]
    rfl
  · rw [List.filter_cons_of_neg (by simpa [BalanceLock.covers] using h), if_neg h]

theorem le_maxLocked {r : Reasons} {l : BalanceLock L} {locks : List (BalanceLock L)}
    (hl : l ∈ locks) (hcovers : l.covers r = true) : l.amount ≤ maxLocked r locks := by
  simp only [BalanceLock.covers, decide_eq_true_eq] at hcovers
  induction hl with
  | head ls =>
    rw [maxLocked_cons, if_pos hcovers]
    exact le_max_left _ _
  | tail m hmem ih =>
    rw [maxLocked_cons]
    split
    · exact le_trans ih (le_max_right _ _)
    · exact ih

theorem freeze_eq (a : AccountData) (locks : List (BalanceLock L)) : freeze a locks =
      { a with miscFrozen := maxLocked .misc locks, feeFrozen := maxLocked .fee locks } := by
  -- generalised over what the loop has frozen so far
  have hloop : ∀ b : AccountData, locks.foldl (fun b l =>
      { b with
        miscFrozen := if l.reasons = .all ∨ l.reasons = .misc then max b.miscFrozen l.amount
          else b.miscFrozen
        feeFrozen := if l.reasons = .all ∨ l.reasons = .fee then max b.feeFrozen l.amount
          else b.feeFrozen }) b =
      { b with
        miscFrozen := max b.miscFrozen (maxLocked .misc locks)
        feeFrozen := max b.feeFrozen (maxLocked .fee locks) } := by
    induction locks with
    | nil =>
      intro b
      simp [maxLocked]
    | cons l ls ih =>
      intro b
      rw [List.foldl_cons, ih, maxLocked_cons, maxLocked_cons]
      congr 1
      · dsimp only
        split <;> omega
      · dsimp only
        split <;> omega
  rw [freeze, hloop]
  simp

namespace State

variable (s : State A L I) (who : A) (locks : List (BalanceLock L))

@[simp] theorem setLocks_totalIssuance :
    (s.setLocks who locks).totalIssuance = s.totalIssuance := by
  unfold setLocks
  split <;> rfl

@[simp] theorem setLocks_dust : (s.setLocks who locks).dust = s.dust := by
  unfold setLocks
  split <;> rfl

theorem setLocks_get?_of_ne {j : A} (hj : j ≠ who) :
    (s.setLocks who locks).account.get? j = s.account.get? j := by
  unfold setLocks decConsumers incConsumers mutate
  split_ifs <;> simp [Function.update_of_ne hj]

theorem setLocks_info : ∃ c, (s.setLocks who locks).info who = { s.info who with consumers := c } ∧
    (0 < c → 0 < (s.info who).consumers ∨ 0 < (s.info who).providers) := by
  unfold setLocks
  split
  · split
    · exact ⟨_, get_decConsumers s.account who, fun h => .inl (by
        unfold info
        omega)⟩
    · exact ⟨_, rfl, .inl⟩
  split
  · exact ⟨_, rfl, .inl⟩
  by_cases hpos : 0 < (get s.account who).providers
  · exact ⟨_, get_incConsumers hpos, fun _ => .inr hpos⟩
  refine ⟨_, ?_, .inl⟩
  unfold incConsumers
  rw [if_neg hpos]
  rfl

theorem setLocks_data : (s.setLocks who locks).data who = s.data who := by
  obtain ⟨c, hinfo, -⟩ := s.setLocks_info who locks
  have := congrArg FrameSystem.AccountInfo.data hinfo
  exact this

end State

theorem Settled.setLocks (hlock : Lock) (locks : List (BalanceLock L)) :
    Settled T Below Lock Ok 0 s (s.setLocks who locks) where
  moves := .single (.lock s who locks hlock)
  issuance_le h := by rwa [State.setLocks_totalIssuance]
  gap _ := by
    have hheld := State.held_add_funds fun j hj => s.setLocks_get?_of_ne who locks hj
    rw [State.setLocks_data] at hheld
    simp [State.gap, Nat.add_right_cancel hheld]

variable (hlock : Lock) (hadmits : Admits T Below Ok s who (s.data who).funds lossy)
include hlock hadmits

theorem settled_updateLocks {locks} : Settles T Below Lock Ok (updateLocks T who locks) s := by
  have hmutate : Settles T Below Lock Ok (mutateAccount T who fun b => pure (freeze b locks, ())) s :=
    settled_of_plain hadmits (by
      rw [post_pure, freeze_eq]
      exact ⟨rfl, fun hno => absurd hlock hno, fun _ => rfl, fun _ => rfl⟩)
  unfold Settles updateLocks
  rw [post_bind, post_attempt]
  refine hmutate.mono (fun _ s' hs => ?_) fun _ s' hs => ?_
  · exact hs.trans (.setLocks hlock locks)
  · exact hs.trans (.setLocks hlock locks)

variable [DecidableEq L]

theorem settled_changeLock {f : BalanceLock L → BalanceLock L → BalanceLock L} {id : L} {reasons} :
    Settles T Below Lock Ok (changeLock T f id who amount reasons) s := by
  unfold Settles changeLock
  split
  · exact .refl ..
  · rw [post_bind]
    exact settled_updateLocks hlock hadmits

theorem settled_removeLock {id : L} : Settles T Below Lock Ok (removeLock T id who) s := by
  unfold Settles removeLock
  rw [post_bind]
  exact settled_updateLocks hlock hadmits

end Locks

/-! ## Named reserves -/

section NamedReserves

variable [LinearOrder I] {reserves : List (ReserveData I)} {value : Nat} {id : I}

omit [DecidableEq A] in
theorem post_addToReserve :
    Post (addToReserve T reserves id value) s (fun _ s' => s' = s) (fun _ s' => s' = s) := by
  unfold addToReserve tryInsert
  split
  · rfl
  · split
    · rfl
    · rfl

theorem settled_reserveNamed (hadmits : Admits T Below Ok s who (s.data who).funds lossy) :
    Settles T Below Lock Ok (reserveNamed T id who value) s := by
  unfold Settles reserveNamed
  split
  · exact .refl ..
  rw [post_bind, post_read, post_bind]
  refine post_addToReserve.mono ?_ ?_
  · rintro reserves s' rfl
    rw [post_bind]
    refine (settled_reserve hadmits).imp (fun _ s' hs => ?_)
    exact hs.trans (.reserves _)
  · rintro _ s' rfl
    exact .refl ..

omit [LinearOrder I] in
theorem post_leaveInReserve {index : Nat} : Post (leaveInReserve who reserves index amount) s
      (fun _ s' => ∃ m, s' = { s with reserves := m }) (fun _ _ => False) := by
  unfold leaveInReserve
  split
  · split
    · exact ⟨_, rfl⟩
    · exact ⟨_, rfl⟩
  · exact ⟨_, rfl⟩

theorem settled_unreserveNamed (hadmits : Admits T Below Ok s who (s.data who).funds lossy)
    (hfits : Ok → (s.data who).funds ≤ T.maxValue) :
    Settles T Below Lock Ok (unreserveNamed T id who value) s := by
  unfold Settles unreserveNamed
  split
  · exact .refl ..
  rw [post_bind, post_read]
  split
  · exact .refl ..
  split
  · exact .refl ..
  rw [post_bind]
  refine (settled_unreserve hadmits hfits).imp (fun remain s' hs => ?_)
  rw [post_bind]
  refine post_leaveInReserve.noErr ?_
  rintro _ _ ⟨m, rfl⟩
  exact hs.trans (.reserves m)

theorem settled_slashReservedNamed (hadmits : Admits T Below Ok s who ((s.data who).funds -
      min (s.data who).reserved (min (reservedBalanceNamed id who s) value)) True) :
    Settles T Below Lock Ok (slashReservedNamed T id who value) s := by
  unfold Settles slashReservedNamed
  split
  · exact .refl ..
  rw [post_bind, post_read]
  split
  · rename_i index hsearch
    simp only [reservedBalanceNamed, hsearch] at hadmits
    rw [post_bind]
    refine (settled_slashReserved hadmits).imp ?_
    rintro ⟨imbalance, remain⟩ s' hs
    exact (hs.trans (.reserves _)).congr fun _ => Int.add_zero _
  · exact .reserves _

section Repatriate

variable {id : I} {slashed beneficiary : A} {value : Nat} {status : Status}

omit [LinearOrder I] in
theorem settled_repatriateReserved (h : Repatriable T Below Ok s slashed beneficiary value) :
    Settles T Below Lock Ok (repatriateReserved T slashed beneficiary value status) s := by
  unfold Settles repatriateReserved
  rw [post_bind]
  exact settled_doTransferReserved h

theorem settled_repatriateAs {toChange : Nat}
    (hmoved : Settles T Below Lock Ok (repatriateReserved T slashed beneficiary toChange status) s) :
    Settles T Below Lock Ok (repatriateAs T id slashed beneficiary toChange status) s := by
  unfold Settles repatriateAs
  cases status with
  | free =>
    rw [post_bind]
    exact hmoved
  | reserved =>
    rw [post_bind, post_read, post_bind]
    refine hmoved.imp (fun remain s' hs => ?_)
    rw [post_bind]
    refine post_addToReserve.mono ?_ ?_
    · rintro reserves s'' rfl
      exact hs.trans (.reserves _)
    · rintro _ s'' rfl
      exact hs

theorem settled_repatriateReservedNamed (h : Repatriable T Below Ok s slashed beneficiary
      (min (reservedBalanceNamed id slashed s) value)) :
    Settles T Below Lock Ok (repatriateReservedNamed T id slashed beneficiary value status) s := by
  unfold Settles repatriateReservedNamed
  split
  · exact .refl ..
  split
  · rename_i heq
    cases status with
    | free => exact settled_unreserveNamed (h.same heq) h.fits
    | reserved => exact .refl ..
  rw [post_bind, post_read]
  split
  · rename_i index hsearch
    simp only [reservedBalanceNamed, hsearch] at h
    rw [post_bind]
    refine (settled_repatriateAs (settled_repatriateReserved h)).imp (fun actual s' hs => ?_)
    exact hs.trans (.reserves _)
  · exact .reserves _

end Repatriate

end NamedReserves

end Substrate.Balances
