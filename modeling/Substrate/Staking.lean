import Substrate.BalancesPallet
import Substrate.SlashingSpans
import Substrate.StakingLedger

/-!
# The staking pallet

`frame/staking` over the balances pallet: bonding and unbonding funds, with their ledger, the lock
on the stash, and the calls that slash and pay a stash. Every change of a ledger is stored with
`update_ledger`, which also sets the lock.

Of the roles of a stash only the membership in `Validators` and `Nominators` is kept, without the
counters. Origins, address lookups, events and weights are left out too. Sums that leave the balance
or the era type panic.
-/

namespace Substrate.Staking

open Exec Balances
open Balances (NegativeImbalance PositiveImbalance checkedSub)

/-! ## Data -/

structure Config (L : Type) where
  currency : Balances.Config
  bondingDuration : Nat
  stakingId : L

def maxEraIndex : Nat := 2 ^ 32 - 1

inductive RewardDestination (A : Type) where
  | staked
  | stash
  | controller
  | account (dest : A)
  | none
deriving DecidableEq

instance {A : Type} : Inhabited (RewardDestination A) := ⟨.staked⟩

inductive Error where
  | notController
  | notStash
  | alreadyBonded
  | alreadyPaired
  | insufficientBond
  | noMoreChunks
  | noUnlockChunk
  | fundedTarget
  | incorrectSlashingSpans
  | badState
deriving DecidableEq

structure State (A L I : Type) where
  balances : Balances.State A L I
  /-- From stash to controller. -/
  bonded : FinMap A A
  /-- From controller to the info regarding the staking. -/
  ledger : FinMap A (StakingLedger A)
  payee : FinMap A (RewardDestination A)
  currentEra : Option Nat
  historyDepth : Nat
  validators : KeySet A
  nominators : KeySet A
  minNominatorBond : Nat
  minValidatorBond : Nat
  slashingSpans : FinMap A SlashingSpans
  spanSlash : FinMap (A × Nat) SpanRecord

section Pallet

variable {A L I : Type} [DecidableEq A] [DecidableEq L] (T : Config L)

/-! ## Storage -/

def currency {α : Type} (m : Exec (Balances.State A L I) Balances.Error α) :
    Exec (State A L I) Error (Except Balances.Error α) :=
  within State.balances (fun b s => { s with balances := b }) m

def freeBalance (s : State A L I) (who : A) : Nat := (s.balances.data who).free

variable (stash : A) (numSlashingSpans : Nat)

/-- `Self::bonded(stash).ok_or(NotStash)?`. -/
def bondedOf : Exec (State A L I) Error A := do
  let controller ← read fun s => s.bonded.get? stash
  okOr controller .notStash

variable (controller : A) (ledger : StakingLedger A)

/-- `Self::ledger(controller).ok_or(NotController)?`. -/
def ledgerOf : Exec (State A L I) Error (StakingLedger A) := do
  let ledger ← read fun s => s.ledger.get? controller
  okOr ledger .notController

/-- This will also update the stash lock. -/
def updateLedger : Exec (State A L I) Error Unit := do
  let _ ← currency (setLock T.currency T.stakingId ledger.stash ledger.total .all)
  modify fun s => { s with ledger := s.ledger.insert controller ledger }

/-- `frame_system::inc_consumers`, with `BadState` for an error. -/
def incConsumers (who : A) : Exec (State A L I) Error Unit := do
  let r ← read fun s => FrameSystem.incConsumers s.balances.account who
  match r with
  | (.error _, _) => throw .badState
  | (.ok _, account) =>
    modify fun s => { s with balances := { s.balances with account := account } }

/-! ## Bonding -/

def bond (stash controller : A) (value : Nat) (payee : RewardDestination A) :
    Exec (State A L I) Error Unit := do
  let bonded ← read fun s => s.bonded.contains stash
  ensure (bonded = false) .alreadyBonded
  let paired ← read fun s => s.ledger.contains controller
  ensure (paired = false) .alreadyPaired
  -- reject a bond which is considered to be dust
  ensure (T.currency.existentialDeposit ≤ value) .insufficientBond
  incConsumers stash
  modify fun s =>
    { s with bonded := s.bonded.insert stash controller, payee := s.payee.insert stash payee }
  let currentEra ← read fun s => s.currentEra.getD 0
  let historyDepth ← read State.historyDepth
  let stashBalance ← read fun s => freeBalance s stash
  let lastRewardEra := currentEra - historyDepth
  let value := min value stashBalance
  updateLedger T controller
    { stash := stash, total := value, active := value, unlocking := []
      claimedRewards := List.range' lastRewardEra (currentEra - lastRewardEra) }

def bondExtra (maxAdditional : Nat) : Exec (State A L I) Error Unit := do
  let controller ← bondedOf stash
  let ledger ← ledgerOf controller
  let stashBalance ← read fun s => freeBalance s stash
  match checkedSub stashBalance ledger.total with
  | none => pure ()
  | some extra =>
    let extra := min extra maxAdditional
    let total ← unwrap (T.currency.checkedAdd ledger.total extra)
    let active ← unwrap (T.currency.checkedAdd ledger.active extra)
    -- the new active amount of ledger must be more than ED
    ensure (T.currency.existentialDeposit ≤ active) .insufficientBond
    updateLedger T controller { ledger with total := total, active := active }

/-- All that is active, if less than the minimum balance would be left. -/
def unbondValue (value : Nat) : Nat :=
  if ledger.active - value < T.currency.existentialDeposit then ledger.active else value

def minActiveBond (s : State A L I) (stash : A) : Nat :=
  if stash ∈ s.nominators then s.minNominatorBond
  else if stash ∈ s.validators then s.minValidatorBond
  else 0

def unbond (value : Nat) : Exec (State A L I) Error Unit := do
  let ledger ← ledgerOf controller
  ensure (ledger.unlocking.length < maxUnlockingChunks) .noMoreChunks
  let value := min value ledger.active
  if value = 0 then pure ()
  else
    -- avoid there being a dust balance left in the staking system
    let value := unbondValue T ledger value
    let active := ledger.active - value
    let minActive ← read fun s => minActiveBond s ledger.stash
    ensure (minActive ≤ active) .insufficientBond
    let currentEra ← read fun s => s.currentEra.getD 0
    let era ← unwrap
      (if currentEra + T.bondingDuration ≤ maxEraIndex then some (currentEra + T.bondingDuration)
      else none)
    updateLedger T controller
      { ledger with active := active, unlocking := ledger.unlocking ++ [⟨value, era⟩] }

def rebond (value : Nat) : Exec (State A L I) Error Unit := do
  let ledger ← ledgerOf controller
  ensure (ledger.unlocking ≠ []) .noUnlockChunk
  let ledger ← unwrap (ledger.rebond T.currency value)
  ensure (T.currency.existentialDeposit ≤ ledger.active) .insufficientBond
  updateLedger T controller ledger

/-! ## Leaving -/

def clearStashMetadata : Exec (State A L I) Error Unit := do
  let spans ← read fun s => s.slashingSpans.get? stash
  match spans with
  | none => pure ()
  | some spans =>
    let spans ← unwrap spans.iter
    ensure (spans.length ≤ numSlashingSpans) .incorrectSlashingSpans
    modify fun s =>
      { s with
        slashingSpans := s.slashingSpans.erase stash
        spanSlash := spans.foldl (fun m span => m.erase (stash, span.index)) s.spanSlash }

def killStash : Exec (State A L I) Error Unit := do
  let controller ← bondedOf stash
  clearStashMetadata stash numSlashingSpans
  modify fun s =>
    { s with
      bonded := s.bonded.erase stash
      ledger := s.ledger.erase controller
      payee := s.payee.erase stash
      validators := s.validators.erase stash
      nominators := s.nominators.erase stash
      balances :=
        { s.balances with account := FrameSystem.decConsumers s.balances.account stash } }

def killStashAndLock : Exec (State A L I) Error Unit := do
  killStash stash numSlashingSpans
  let _ ← currency (removeLock T.currency T.stakingId stash)
  pure ()

def withdrawUnbonded (numSlashingSpans : Nat) : Exec (State A L I) Error Unit := do
  let ledger ← ledgerOf controller
  let currentEra ← read State.currentEra
  let ledger := match currentEra with
    | some era => ledger.consolidateUnlocked era
    | none => ledger
  if ledger.unlocking = [] ∧ ledger.active < T.currency.existentialDeposit then
    killStashAndLock T ledger.stash numSlashingSpans
  else updateLedger T controller ledger

def reapStash : Exec (State A L I) Error Unit := do
  let total ← read fun s => (s.balances.data stash).total T.currency
  ensure (total = T.currency.existentialDeposit) .fundedTarget
  killStashAndLock T stash numSlashingSpans

def setController (stash controller : A) : Exec (State A L I) Error Unit := do
  let oldController ← bondedOf stash
  let paired ← read fun s => s.ledger.contains controller
  ensure (paired = false) .alreadyPaired
  if controller = oldController then pure ()
  else modify fun s =>
    { s with
      bonded := s.bonded.insert stash controller
      ledger := match s.ledger.get? oldController with
        | some l => (s.ledger.erase oldController).insert controller l
        | none => s.ledger }

def setPayee (payee : RewardDestination A) : Exec (State A L I) Error Unit := do
  let ledger ← ledgerOf controller
  modify fun s => { s with payee := s.payee.insert ledger.stash payee }

/-! ## Slashes and payouts -/

/-- Missing funds are deducted from the reward payout: what is left of that, and what was slashed.
-/
def doSlash (value rewardPayout : Nat) (slashedImbalance : NegativeImbalance) :
    Exec (State A L I) Error (Nat × NegativeImbalance) := do
  let maybeController ← read fun s => s.bonded.get? stash
  let maybeLedger ← read fun s => maybeController.bind s.ledger.get?
  match maybeController, maybeLedger with
  | some controller, some ledger =>
    let (value, ledger) := ledger.slash value T.currency.existentialDeposit
    if value = 0 then pure (rewardPayout, slashedImbalance)
    else
      let r ← currency (slash T.currency stash value)
      -- a slash does not fail
      let (imbalance, missing) := r.toOption.getD (⟨0⟩, value)
      updateLedger T controller ledger
      pure (rewardPayout - missing,
        ⟨T.currency.saturatingAdd slashedImbalance.amount imbalance.amount⟩)
  | _, _ => pure (rewardPayout, slashedImbalance)

def payStaked (amount : Nat) : Exec (State A L I) Error (Option PositiveImbalance) := do
  let maybeController ← read fun s => s.bonded.get? stash
  let maybeLedger ← read fun s => maybeController.bind s.ledger.get?
  match maybeController, maybeLedger with
  | some controller, some ledger =>
    let active ← unwrap (T.currency.checkedAdd ledger.active amount)
    let total ← unwrap (T.currency.checkedAdd ledger.total amount)
    let r ← currency (depositIntoExisting T.currency stash amount)
    updateLedger T controller { ledger with active := active, total := total }
    pure r.toOption
  | _, _ => pure none

def makePayout (amount : Nat) : Exec (State A L I) Error (Option PositiveImbalance) := do
  let dest ← read fun s => (s.payee.get? stash).getD default
  match dest with
  | .controller =>
    let maybeController ← read fun s => s.bonded.get? stash
    match maybeController with
    | none => pure none
    | some controller =>
      let r ← currency (depositCreating T.currency controller amount)
      pure r.toOption
  | .stash =>
    let r ← currency (depositIntoExisting T.currency stash amount)
    pure r.toOption
  | .staked => payStaked T stash amount
  | .account dest =>
    let r ← currency (depositCreating T.currency dest amount)
    pure r.toOption
  | .none => pure none

end Pallet

end Substrate.Staking
