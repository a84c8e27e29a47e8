import Substrate.Exec
import Substrate.SystemAccount

/-!
# The balances pallet

`frame/balances` with the system pallet as its account store. An account record is dropped when free
and reserved balance together fall below the existential deposit, and what was left becomes *dust*.
An imbalance is a token for funds created or destroyed without the opposite entry; dropping it
squares up the total issuance. Rust drops values by their type, which is what the class `Drop`
stands for: when the account store refuses a mutation, the result of the closure is dropped with
everything in it.

A balance is a number up to `Config.maxValue`. Unchecked arithmetic panics where it leaves the type.
`State.dust` lists the dust handed over to the runtime. Events, weights, origins and address lookups
are left out.
-/

namespace Substrate.Balances

open FrameSystem Exec
open FrameSystem (AccountInfo)

/-! ## Data -/

structure Config where
  existentialDeposit : Nat
  /-- `Balance::max_value()`. -/
  maxValue : Nat
  maxReserves : Nat
  existentialDeposit_le : existentialDeposit ≤ maxValue

namespace Config

def checkedAdd (T : Config) (a b : Nat) : Option Nat :=
  if a + b ≤ T.maxValue then some (a + b) else none

def saturatingAdd (T : Config) (a b : Nat) : Nat := min (a + b) T.maxValue

theorem checkedAdd_eq_some {T : Config} {a b c : Nat} :
    T.checkedAdd a b = some c ↔ a + b ≤ T.maxValue ∧ c = a + b := by
  unfold Config.checkedAdd
  split
  · simp [*, eq_comm]
  · simp [*]

end Config

def checkedSub (a b : Nat) : Option Nat := if b ≤ a then some (a - b) else none

theorem checkedSub_eq_some {a b c : Nat} : checkedSub a b = some c ↔ b ≤ a ∧ c = a - b := by
  unfold checkedSub
  split
  · simp [*, eq_comm]
  · simp [*]

inductive Reasons where
  | fee
  | misc
  | all
deriving DecidableEq

structure WithdrawReasons where
  transactionPayment : Bool
  transfer : Bool
  reserve : Bool
  fee : Bool
  tip : Bool
deriving DecidableEq

namespace WithdrawReasons

def empty : WithdrawReasons := ⟨false, false, false, false, false⟩

def all : WithdrawReasons := ⟨true, true, true, true, true⟩

def isEmpty (r : WithdrawReasons) : Bool := decide (r = empty)

def ofTransfer : WithdrawReasons := { empty with transfer := true }

def ofReserve : WithdrawReasons := { empty with reserve := true }

/-- `From<WithdrawReasons> for Reasons`. -/
def toReasons (r : WithdrawReasons) : Reasons :=
  if r = { empty with transactionPayment := true } then .fee
  else if r.transactionPayment then .all
  else .misc

end WithdrawReasons

/-- `BitOr for Reasons`. -/
def Reasons.bitor (a b : Reasons) : Reasons := if a = b then a else .all

structure BalanceLock (L : Type) where
  id : L
  amount : Nat
  reasons : Reasons
deriving DecidableEq

structure ReserveData (I : Type) where
  id : I
  amount : Nat
deriving DecidableEq

structure AccountData where
  free : Nat
  reserved : Nat
  miscFrozen : Nat
  feeFrozen : Nat
deriving DecidableEq

instance : Inhabited AccountData := ⟨⟨0, 0, 0, 0⟩⟩

namespace AccountData

/-- What the free balance may not be reduced below for these `reasons`. -/
def frozen (a : AccountData) : Reasons → Nat
  | .all => max a.miscFrozen a.feeFrozen
  | .misc => a.miscFrozen
  | .fee => a.feeFrozen

/-- The total balance, reserved included. -/
def total (T : Config) (a : AccountData) : Nat := T.saturatingAdd a.free a.reserved

end AccountData

/-- Funds have been created without any equal and opposite accounting. -/
structure PositiveImbalance where
  amount : Nat
deriving DecidableEq

/-- Funds have been destroyed without any equal and opposite accounting. -/
structure NegativeImbalance where
  amount : Nat
deriving DecidableEq

inductive SignedImbalance where
  | positive (imbalance : PositiveImbalance)
  | negative (imbalance : NegativeImbalance)
deriving DecidableEq

/-- Dust to be handed to the handler when it is dropped. -/
structure DustCleaner where
  dust : Option NegativeImbalance
deriving DecidableEq

inductive ExistenceRequirement where
  | keepAlive
  | allowDeath
deriving DecidableEq

inductive Status where
  | free
  | reserved
deriving DecidableEq

inductive Error where
  | liquidityRestrictions
  | insufficientBalance
  | existentialDeposit
  | keepAlive
  | deadAccount
  | tooManyReserves
  /-- `ArithmeticError`. -/
  | overflow
  | underflow
  /-- `TokenError`. -/
  | noFunds
  | wouldDie
  | belowMinimum
  | frozen
  /-- `StoredMapError::ConsumerRemaining`. -/
  | consumerRemaining
deriving DecidableEq

structure State (A L I : Type) where
  /-- `frame_system::Account`. -/
  account : FinMap A (AccountInfo AccountData)
  totalIssuance : Nat
  locks : FinMap A (List (BalanceLock L))
  reserves : FinMap A (List (ReserveData I))
  /-- The dust handed to `T::DustRemoval`. -/
  dust : List NegativeImbalance

/-! ## Dropping values -/

class Drop (T : Config) (S R : Type) where
  drop : R → S → S

section Drop

variable {T : Config} {A L I R R' : Type}

instance : Drop T (State A L I) Unit := ⟨fun _ s => s⟩

instance : Drop T (State A L I) Nat := ⟨fun _ s => s⟩

instance : Drop T (State A L I) AccountData := ⟨fun _ s => s⟩

instance : Drop T (State A L I) PositiveImbalance :=
  ⟨fun i s => { s with totalIssuance := T.saturatingAdd s.totalIssuance i.amount }⟩

instance : Drop T (State A L I) NegativeImbalance :=
  ⟨fun i s => { s with totalIssuance := s.totalIssuance - i.amount }⟩

instance : Drop T (State A L I) SignedImbalance where
  drop
    | .positive i => Drop.drop T i
    | .negative i => Drop.drop T i

instance : Drop T (State A L I) DustCleaner :=
  ⟨fun c s => { s with dust := c.dust.toList ++ s.dust }⟩

instance [Drop T (State A L I) R] : Drop T (State A L I) (Option R) where
  drop
    | none => id
    | some r => Drop.drop T r

instance [Drop T (State A L I) R] [Drop T (State A L I) R'] : Drop T (State A L I) (R × R') :=
  ⟨fun p s => Drop.drop T p.2 (Drop.drop T p.1 s)⟩

end Drop

/-! ## The account store -/

section Store

variable {A L I R : Type}

def State.data (s : State A L I) (who : A) : AccountData := (get s.account who).data

variable [DecidableEq A]

/-- `StoredMap::try_mutate_exists` of the system pallet. -/
def tryMutateExists (T : Config) [Drop T (State A L I) R] (k : A)
    (f : Option AccountData → Exec (State A L I) Error (Option AccountData × R)) :
    Exec (State A L I) Error R := do
  let account ← read fun s => get s.account k
  let wasProviding := isProviding account.data
  let (someData, result) ← f (if wasProviding then some account.data else none)
  let setData : Exec (State A L I) Error Unit := modify fun s =>
    { s with account := mutate s.account k fun a => { a with data := someData.getD default } }
  if wasProviding = false ∧ someData.isSome = true then
    modify fun s => { s with account := incProviders s.account k }
    setData
    pure result
  else if wasProviding = true ∧ someData.isSome = false then
    let status ← read fun s => decProviders s.account k
    match status with
    | (.error .consumerRemaining, _) =>
      modify (Drop.drop T result)
      throw .consumerRemaining
    | (.ok .reaped, account) =>
      modify fun s => { s with account := account }
      pure result
    | (.ok .exists, account) =>
      modify fun s => { s with account := account }
      setData
      pure result
  else if wasProviding = false ∧ someData.isSome = false then pure result
  else
    setData
    pure result

/-- The account, iff it has sufficient balance, and the dust to be dropped, iff some should be. -/
def postMutation (T : Config) (new : AccountData) : Option AccountData × Option NegativeImbalance :=
  let total := new.total T
  if total < T.existentialDeposit then
    if total = 0 then (none, none) else (none, some ⟨total⟩)
  else (some new, none)

/-- Mutate an account or delete it, with the `ExistentialDeposit` enforced. -/
def tryMutateAccountWithDust (T : Config) [Drop T (State A L I) R] (who : A)
    (f : AccountData → Bool → Exec (State A L I) Error (AccountData × R)) :
    Exec (State A L I) Error (R × DustCleaner) := do
  let (maybeDust, result) ← tryMutateExists T who fun maybeAccount => do
    let (account, result) ← f (maybeAccount.getD default) maybeAccount.isNone
    let (maybeAccount, maybeDust) := postMutation T account
    pure (maybeAccount, (maybeDust, result))
  pure (result, ⟨maybeDust⟩)

/-- `try_mutate_account_with_dust` with the dust cleaner dropped. -/
def tryMutateAccount (T : Config) [Drop T (State A L I) R] (who : A)
    (f : AccountData → Bool → Exec (State A L I) Error (AccountData × R)) :
    Exec (State A L I) Error R := do
  let (result, dustCleaner) ← tryMutateAccountWithDust T who f
  modify (Drop.drop T dustCleaner)
  pure result

def mutateAccount (T : Config) [Drop T (State A L I) R] (who : A)
    (f : AccountData → Exec (State A L I) Error (AccountData × R)) :
    Exec (State A L I) Error R :=
  tryMutateAccount T who fun account _ => f account

end Store

end Substrate.Balances
