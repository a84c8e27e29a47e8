import Substrate.Balances
import Substrate.BinarySearch

/-!
# The operations of the balances pallet

`Currency`, `ReservableCurrency`, the fungible traits, the dispatchables, `LockableCurrency`,
`NamedReservableCurrency` and the genesis build of `frame/balances`. Sums and differences that the
source notes as safe are plain ones here.
-/

namespace Substrate.Balances

open Exec FrameSystem State

/-! ## Currency -/

section Currency

variable {A L I : Type} (T : Config)

def ensureCanWithdraw (who : A) (amount : Nat) (reasons : WithdrawReasons) (newBalance : Nat) :
    Exec (State A L I) Error Unit :=
  if amount = 0 then pure ()
  else do
    let minBalance ← read fun s => (s.data who).frozen reasons.toReasons
    ensure (minBalance ≤ newBalance) .liquidityRestrictions

def burn (amount : Nat) : Exec (State A L I) Error PositiveImbalance :=
  if amount = 0 then pure ⟨0⟩
  else do
    let issued ← read totalIssuance
    match checkedSub issued amount with
    | some rest =>
      modify fun s => { s with totalIssuance := rest }
      pure ⟨amount⟩
    | none =>
      modify fun s => { s with totalIssuance := 0 }
      pure ⟨issued⟩

def issue (amount : Nat) : Exec (State A L I) Error NegativeImbalance :=
  if amount = 0 then pure ⟨0⟩
  else do
    let issued ← read totalIssuance
    match T.checkedAdd issued amount with
    | some total =>
      modify fun s => { s with totalIssuance := total }
      pure ⟨amount⟩
    | none =>
      modify fun s => { s with totalIssuance := T.maxValue }
      pure ⟨T.maxValue - issued⟩

variable [DecidableEq A]

/-- The inner closure of `transfer`: the sender, with the mutated receiver. -/
def transferFrom (transactor : A) (value : Nat) (requirement : ExistenceRequirement)
    (toAccount fromAccount : AccountData) :
    Exec (State A L I) Error (AccountData × AccountData) := do
  let fromFree ← okOr (checkedSub fromAccount.free value) .insufficientBalance
  let toFree ← okOr (T.checkedAdd toAccount.free value) .overflow
  let toAccount := { toAccount with free := toFree }
  ensure (T.existentialDeposit ≤ toAccount.total T) .existentialDeposit
  ensureCanWithdraw transactor value .ofTransfer fromFree
  let required ← read fun s => isProviderRequired s.account transactor
  let fromAccount := { fromAccount with free := fromFree }
  ensure ((requirement = .allowDeath ∧ required = false) ∨
    T.existentialDeposit ≤ fromAccount.total T) .keepAlive
  pure (fromAccount, toAccount)

def transfer (transactor dest : A) (value : Nat) (requirement : ExistenceRequirement) :
    Exec (State A L I) Error Unit :=
  if value = 0 ∨ transactor = dest then pure ()
  else do
    let cleaners ← tryMutateAccountWithDust T dest fun toAccount _ =>
      tryMutateAccountWithDust T transactor fun fromAccount _ =>
        transferFrom T transactor value requirement toAccount fromAccount
    modify (Drop.drop T cleaners)

/-- The most that can be slashed: the second attempt leaves the existential deposit. -/
def bestValue (account : AccountData) (value : Nat) (first : Bool) : Exec (State A L I) Error Nat :=
  if first then pure value
  else do
    let total ← unwrap (T.checkedAdd account.free account.reserved)
    pure (min value (total - T.existentialDeposit))

variable (who : A) (value : Nat)

def slashAttempt (first : Bool) : Exec (State A L I) Error (NegativeImbalance × Nat) :=
  tryMutateAccount T who fun account _ => do
    let best ← bestValue T account value first
    let freeSlash := min account.free best
    let account := { account with free := account.free - freeSlash }
    let remainingSlash := best - freeSlash
    if remainingSlash ≠ 0 then
      let reservedSlash := min account.reserved remainingSlash
      pure ({ account with reserved := account.reserved - reservedSlash },
        (⟨freeSlash + reservedSlash⟩, value - freeSlash - reservedSlash))
    else pure (account, (⟨freeSlash⟩, value - freeSlash))

/-- Try once, and once more after a refusal; in the end give up. -/
def twoAttempts (attempt : Bool → Exec (State A L I) Error (NegativeImbalance × Nat))
    (value : Nat) : Exec (State A L I) Error (NegativeImbalance × Nat) := do
  match ← Exec.attempt (attempt true) with
  | .ok r => pure r
  | .error _ =>
    match ← Exec.attempt (attempt false) with
    | .ok r => pure r
    | .error _ => pure (⟨0⟩, value)

/-- The imbalance created and the amount that could not be slashed. -/
def slash : Exec (State A L I) Error (NegativeImbalance × Nat) :=
  if value = 0 then pure (⟨0⟩, 0)
  else do
    let total ← read fun s => (s.data who).total T
    if total = 0 then pure (⟨0⟩, value)
    else twoAttempts (slashAttempt T who value) value

def depositIntoExisting : Exec (State A L I) Error PositiveImbalance :=
  if value = 0 then pure ⟨0⟩
  else tryMutateAccount T who fun account isNew => do
    ensure (isNew = false) .deadAccount
    let free ← okOr (T.checkedAdd account.free value) .overflow
    pure ({ account with free := free }, ⟨value⟩)

def depositCreating : Exec (State A L I) Error PositiveImbalance :=
  if value = 0 then pure ⟨0⟩
  else do
    let r ← attempt (tryMutateAccount T who fun account isNew => do
      ensure (T.existentialDeposit ≤ value ∨ isNew = false) .existentialDeposit
      match T.checkedAdd account.free value with
      | some free => pure ({ account with free := free }, (⟨value⟩ : PositiveImbalance))
      | none => pure (account, ⟨0⟩))
    match r with
    | .ok imbalance => pure imbalance
    | .error _ => pure ⟨0⟩

def wouldKill (account : AccountData) (newTotal : Nat) : Exec (State A L I) Error Bool :=
  if newTotal < T.existentialDeposit then do
    let total ← unwrap (T.checkedAdd account.free account.reserved)
    pure (decide (T.existentialDeposit ≤ total))
  else pure false

def withdraw (reasons : WithdrawReasons) (liveness : ExistenceRequirement) :
    Exec (State A L I) Error NegativeImbalance :=
  if value = 0 then pure ⟨0⟩
  else tryMutateAccount T who fun account _ => do
    let newFree ← okOr (checkedSub account.free value) .insufficientBalance
    let newTotal ← unwrap (T.checkedAdd newFree account.reserved)
    let kills ← wouldKill T account newTotal
    ensure (liveness = .allowDeath ∨ kills = false) .keepAlive
    ensureCanWithdraw who value reasons newFree
    pure ({ account with free := newFree }, ⟨value⟩)

def makeFreeBalanceBe : Exec (State A L I) Error SignedImbalance := do
  let r ← attempt (tryMutateAccount T who fun account isNew => do
    let total := T.saturatingAdd value account.reserved
    ensure (T.existentialDeposit ≤ total ∨ isNew = false) .existentialDeposit
    let imbalance : SignedImbalance :=
      if account.free ≤ value then .positive ⟨value - account.free⟩
      else .negative ⟨account.free - value⟩
    pure ({ account with free := value }, imbalance))
  match r with
  | .ok imbalance => pure imbalance
  | .error _ => pure (.positive ⟨0⟩)

end Currency

/-! ## Reserves -/

section Reserves

variable {A L I : Type} (T : Config)

def canReserve (who : A) (value : Nat) (s : State A L I) : Bool :=
  if value = 0 then true
  else
    match checkedSub (s.data who).free value with
    | none => false
    | some newBalance =>
      match ensureCanWithdraw who value .ofReserve newBalance s with
      | (.ok _, _) => true
      | _ => false

variable [DecidableEq A]

def reserve (who : A) (value : Nat) : Exec (State A L I) Error Unit :=
  if value = 0 then pure ()
  else tryMutateAccount T who fun account _ => do
    let free ← okOr (checkedSub account.free value) .insufficientBalance
    let reserved ← okOr (T.checkedAdd account.reserved value) .overflow
    ensureCanWithdraw who value .ofReserve free
    pure ({ account with free := free, reserved := reserved }, ())

/-- Returns what could not be unreserved. -/
def unreserve (who : A) (value : Nat) : Exec (State A L I) Error Nat :=
  if value = 0 then pure 0
  else do
    let total ← read fun s => (s.data who).total T
    if total = 0 then pure value
    else
      let r ← attempt (mutateAccount T who fun account =>
        let actual := min account.reserved value
        pure ({ account with
          reserved := account.reserved - actual
          free := T.saturatingAdd account.free actual }, actual))
      match r with
      | .ok actual => pure (value - actual)
      | .error _ => pure value

def slashReservedAttempt (who : A) (value : Nat) (first : Bool) :
    Exec (State A L I) Error (NegativeImbalance × Nat) :=
  mutateAccount T who fun account => do
    let best ← bestValue T account value first
    let actual := min account.reserved best
    pure ({ account with reserved := account.reserved - actual }, (⟨actual⟩, value - actual))

def slashReserved (who : A) (value : Nat) : Exec (State A L I) Error (NegativeImbalance × Nat) :=
  if value = 0 then pure (⟨0⟩, 0)
  else do
    let total ← read fun s => (s.data who).total T
    if total = 0 then pure (⟨0⟩, value)
    else twoAttempts (slashReservedAttempt T who value) value

def credit (account : AccountData) (status : Status) (amount : Nat) :
    Exec (State A L I) Error AccountData :=
  match status with
  | .free => do
    let free ← okOr (T.checkedAdd account.free amount) .overflow
    pure { account with free := free }
  | .reserved => do
    let reserved ← okOr (T.checkedAdd account.reserved amount) .overflow
    pure { account with reserved := reserved }

variable (slashed beneficiary : A) (value : Nat) (bestEffort : Bool) (status : Status)

/-- The inner closure of `do_transfer_reserved`: the slashed account, with the beneficiary and the
amount moved. -/
def transferReservedFrom (toAccount fromAccount : AccountData) :
    Exec (State A L I) Error (AccountData × AccountData × Nat) := do
  let actual := min fromAccount.reserved value
  ensure (bestEffort = true ∨ actual = value) .insufficientBalance
  let toAccount ← credit T toAccount status actual
  pure ({ fromAccount with reserved := fromAccount.reserved - actual }, toAccount, actual)

def doTransferReserved : Exec (State A L I) Error Nat :=
  if value = 0 then pure 0
  else if slashed = beneficiary then
    match status with
    | .free => unreserve T slashed value
    | .reserved => do
      let reserved ← read fun s => (s.data slashed).reserved
      pure (value - reserved)
  else do
    let ((actual, oneDust), otherDust) ←
      tryMutateAccountWithDust T beneficiary fun toAccount isNew => do
        ensure (isNew = false) .deadAccount
        let ((toAccount, actual), cleaner) ← tryMutateAccountWithDust T slashed
          fun fromAccount _ => transferReservedFrom T value bestEffort status toAccount fromAccount
        pure (toAccount, (actual, cleaner))
    modify (Drop.drop T otherDust)
    modify (Drop.drop T oneDust)
    pure actual

def repatriateReserved : Exec (State A L I) Error Nat := do
  let actual ← doTransferReserved T slashed beneficiary value true status
  pure (value - actual)

end Reserves

/-! ## Fungible -/

section Fungible

variable {A L I : Type} (T : Config)

/-- `deposit_consequence(..).into_result()`. -/
def depositConsequence (amount : Nat) (account : AccountData) : Exec (State A L I) Error Unit :=
  if amount = 0 then pure ()
  else do
    let issued ← read totalIssuance
    ensure ((T.checkedAdd issued amount).isSome = true) .overflow
    let newTotalBalance ← okOr (T.checkedAdd (account.total T) amount) .overflow
    ensure (T.existentialDeposit ≤ newTotalBalance) .belowMinimum

/-- The total balance cannot be reduced to zero if it cannot sustain the loss of a provider
reference. -/
def reducedToZero (who : A) (newTotalBalance : Nat) : Exec (State A L I) Error Nat :=
  if newTotalBalance < T.existentialDeposit then do
    let canDec ← read fun s => canDecProvider s.account who
    ensure (canDec = true) .wouldDie
    pure newTotalBalance
  else pure 0

/-- The amount by which the account will be reduced in addition. -/
def withdrawConsequence (who : A) (amount : Nat) (account : AccountData) :
    Exec (State A L I) Error Nat :=
  if amount = 0 then pure 0
  else do
    let issued ← read totalIssuance
    ensure ((checkedSub issued amount).isSome = true) .underflow
    let newTotalBalance ← okOr (checkedSub (account.total T) amount) .noFunds
    let success ← reducedToZero T who newTotalBalance
    let newFreeBalance ← okOr (checkedSub account.free amount) .noFunds
    ensure (account.frozen .all ≤ newFreeBalance) .frozen
    pure success

def reducibleBalance (who : A) (keepAlive : Bool) (s : State A L I) : Nat :=
  let a := s.data who
  let liquid := a.free - max a.feeFrozen a.miscFrozen
  if canDecProvider s.account who = true ∧ keepAlive = false then liquid
  else
    let mustRemainToExist := T.existentialDeposit - (a.total T - liquid)
    liquid - mustRemainToExist

variable [DecidableEq A]

def mintInto (who : A) (amount : Nat) : Exec (State A L I) Error Unit :=
  if amount = 0 then pure ()
  else do
    tryMutateAccount T who fun account _ => do
      depositConsequence T amount account
      let free ← unwrap (T.checkedAdd account.free amount)
      pure ({ account with free := free }, ())
    let issued ← read totalIssuance
    let total ← unwrap (T.checkedAdd issued amount)
    modify fun s => { s with totalIssuance := total }

/-- Decrease the balance of `who` by at least `amount`. -/
def burnFrom (who : A) (amount : Nat) : Exec (State A L I) Error Nat :=
  if amount = 0 then pure 0
  else do
    let actual ← tryMutateAccount T who fun account _ => do
      let extra ← withdrawConsequence T who amount account
      let actual ← unwrap (T.checkedAdd amount extra)
      let free ← unwrap (checkedSub account.free actual)
      pure ({ account with free := free }, actual)
    let issued ← read totalIssuance
    let rest ← unwrap (checkedSub issued actual)
    modify fun s => { s with totalIssuance := rest }
    pure actual

def hold (who : A) (amount : Nat) : Exec (State A L I) Error Unit :=
  if amount = 0 then pure ()
  else do
    let can ← read (canReserve who amount)
    ensure (can = true) .insufficientBalance
    mutateAccount T who fun a => do
      let free ← unwrap (checkedSub a.free amount)
      let reserved ← unwrap (T.checkedAdd a.reserved amount)
      pure ({ a with free := free, reserved := reserved }, ())

def release (who : A) (amount : Nat) (bestEffort : Bool) : Exec (State A L I) Error Nat :=
  if amount = 0 then pure amount
  else tryMutateAccount T who fun a _ => do
    let newFree := T.saturatingAdd a.free (min amount a.reserved)
    let actual ← unwrap (checkedSub newFree a.free)
    ensure (bestEffort = true ∨ actual = amount) .insufficientBalance
    pure ({ a with free := newFree, reserved := a.reserved - actual }, actual)

def transferHeld (source dest : A) (amount : Nat) (bestEffort onHold : Bool) :
    Exec (State A L I) Error Nat :=
  doTransferReserved T source dest amount bestEffort (if onHold then .reserved else .free)

end Fungible

/-! ## Dispatchables -/

section Dispatchables

variable {A L I : Type} [DecidableEq A] (T : Config)

/-- Square up the issuance for a part of an account that is set to a new value. -/
def squareUp (old new : Nat) : Exec (State A L I) Error Unit :=
  if old < new then modify (Drop.drop T (⟨new - old⟩ : PositiveImbalance))
  else if new < old then modify (Drop.drop T (⟨old - new⟩ : NegativeImbalance))
  else pure ()

def setBalance (who : A) (newFree newReserved : Nat) : Exec (State A L I) Error Unit := do
  let total ← unwrap (T.checkedAdd newFree newReserved)
  let wipeout := decide (total < T.existentialDeposit)
  let newFree := if wipeout then 0 else newFree
  let newReserved := if wipeout then 0 else newReserved
  mutateAccount T who fun account => do
    squareUp T account.free newFree
    squareUp T account.reserved newReserved
    pure ({ account with free := newFree, reserved := newReserved }, ())

def transferAll (transactor dest : A) (keepAlive : Bool) : Exec (State A L I) Error Unit := do
  let reducible ← read (reducibleBalance T transactor keepAlive)
  transfer T transactor dest reducible (if keepAlive then .keepAlive else .allowDeath)

end Dispatchables

/-! ## Locks -/

section Locks

variable {A L I : Type}

def State.locksOf (s : State A L I) (who : A) : List (BalanceLock L) :=
  (s.locks.get? who).getD []

/-- The loop of `update_locks` over the locks. -/
def freeze (account : AccountData) (locks : List (BalanceLock L)) : AccountData :=
  locks.foldl (fun b l =>
    { b with
      miscFrozen := if l.reasons = .all ∨ l.reasons = .misc then max b.miscFrozen l.amount
        else b.miscFrozen
      feeFrozen := if l.reasons = .all ∨ l.reasons = .fee then max b.feeFrozen l.amount
        else b.feeFrozen }) { account with miscFrozen := 0, feeFrozen := 0 }

variable [DecidableEq L]

/-- The first lock with the new one's identifier is combined with it, later ones are dropped. The
new lock is left if none had its identifier. -/
def combineLock (f : BalanceLock L → BalanceLock L → BalanceLock L) (id : L) :
    Option (BalanceLock L) → List (BalanceLock L) → List (BalanceLock L) × Option (BalanceLock L)
  | newLock, [] => ([], newLock)
  | newLock, l :: ls =>
    if l.id = id then
      match newLock with
      | some nl => ((f l nl :: (combineLock f id none ls).1), (combineLock f id none ls).2)
      | none => combineLock f id none ls
    else (l :: (combineLock f id newLock ls).1, (combineLock f id newLock ls).2)

variable [DecidableEq A] (T : Config)

/-- The second half of `update_locks`: a consumer while there are locks. Without a provider it is
not taken. -/
def State.setLocks (s : State A L I) (who : A) (locks : List (BalanceLock L)) : State A L I :=
  if locks.isEmpty then
    { s with
      locks := s.locks.erase who
      account := if s.locks.contains who then decConsumers s.account who
        else s.account }
  else
    { s with
      locks := s.locks.insert who locks
      account := if s.locks.contains who then s.account
        else (incConsumers s.account who).2 }

def updateLocks (who : A) (locks : List (BalanceLock L)) : Exec (State A L I) Error Unit := do
  -- the result is only looked at by a debug assertion
  let _ ← attempt (mutateAccount T who fun b => pure (freeze b locks, ()))
  modify fun s => s.setLocks who locks

/-- A no-op if the amount is zero or there are no reasons. -/
def changeLock (f : BalanceLock L → BalanceLock L → BalanceLock L) (id : L) (who : A)
    (amount : Nat) (reasons : WithdrawReasons) : Exec (State A L I) Error Unit :=
  if amount = 0 ∨ reasons.isEmpty then pure ()
  else do
    let locks ← read fun s => s.locksOf who
    let (locks, newLock) := combineLock f id (some ⟨id, amount, reasons.toReasons⟩) locks
    updateLocks T who (locks ++ newLock.toList)

def setLock (id : L) (who : A) (amount : Nat) (reasons : WithdrawReasons) :
    Exec (State A L I) Error Unit :=
  changeLock T (fun _ nl => nl) id who amount reasons

def extendLock (id : L) (who : A) (amount : Nat) (reasons : WithdrawReasons) :
    Exec (State A L I) Error Unit :=
  changeLock T (fun l nl => ⟨l.id, max l.amount nl.amount, l.reasons.bitor nl.reasons⟩)
    id who amount reasons

def removeLock (id : L) (who : A) : Exec (State A L I) Error Unit := do
  let locks ← read fun s => s.locksOf who
  updateLocks T who (locks.filter fun l => l.id ≠ id)

end Locks

/-! ## Named reserves -/

section NamedReserves

variable {A L I : Type} [DecidableEq A] [LinearOrder I] (T : Config)

def State.reservesOf (s : State A L I) (who : A) : List (ReserveData I) :=
  (s.reserves.get? who).getD []

variable (who : A) (reserves : List (ReserveData I))

def searchReserve (id : I) : Except Nat Nat :=
  Vec.binarySearchByKey reserves id ReserveData.id

def amountAt (index : Nat) : Nat :=
  (reserves[index]?.map ReserveData.amount).getD 0

def reservedBalanceNamed (id : I) (who : A) (s : State A L I) : Nat :=
  match searchReserve (s.reservesOf who) id with
  | .ok index => amountAt (s.reservesOf who) index
  | .error _ => 0

def setAmount (index amount : Nat) : List (ReserveData I) :=
  reserves.modify index fun r => { r with amount := amount }

def tryInsert (index : Nat) (r : ReserveData I) : Exec (State A L I) Error (List (ReserveData I)) :=
  if reserves.length < T.maxReserves then pure (reserves.insertIdx index r)
  else throw .tooManyReserves

def addToReserve (id : I) (value : Nat) : Exec (State A L I) Error (List (ReserveData I)) :=
  match searchReserve reserves id with
  | .ok index =>
    pure (setAmount reserves index (T.saturatingAdd (amountAt reserves index) value))
  | .error index => tryInsert T reserves index ⟨id, value⟩

def putReserves : Exec (State A L I) Error Unit :=
  modify fun s => { s with reserves := s.reserves.insert who reserves }

def reserveNamed (id : I) (who : A) (value : Nat) : Exec (State A L I) Error Unit :=
  if value = 0 then pure ()
  else do
    let reserves ← read fun s => s.reservesOf who
    let reserves ← addToReserve T reserves id value
    reserve T who value
    putReserves who reserves

/-- Leave an amount in a named reserve, which is removed when nothing is left. -/
def leaveInReserve (index amount : Nat) : Exec (State A L I) Error Unit :=
  if amount = 0 then
    if reserves.length = 1 then
      modify fun s => { s with reserves := s.reserves.erase who }
    else putReserves who (reserves.eraseIdx index)
  else putReserves who (setAmount reserves index amount)

def unreserveNamed (id : I) (who : A) (value : Nat) : Exec (State A L I) Error Nat :=
  if value = 0 then pure 0
  else do
    let maybeReserves ← read fun s => s.reserves.get? who
    match maybeReserves with
    | none => pure value
    | some reserves =>
      match searchReserve reserves id with
      | .error _ => pure value
      | .ok index =>
        let amount := amountAt reserves index
        let toChange := min amount value
        let remain ← unreserve T who toChange
        let actual := toChange - remain
        leaveInReserve who reserves index (amount - actual)
        pure (value - actual)

def slashReservedNamed (id : I) (who : A) (value : Nat) :
    Exec (State A L I) Error (NegativeImbalance × Nat) :=
  if value = 0 then pure (⟨0⟩, 0)
  else do
    let reserves ← read fun s => s.reservesOf who
    match searchReserve reserves id with
    | .ok index =>
      let amount := amountAt reserves index
      let toChange := min amount value
      let (imbalance, remain) ← slashReserved T who toChange
      let actual := toChange - remain
      putReserves who (setAmount reserves index (amount - actual))
      pure (imbalance, value - actual)
    | .error _ =>
      putReserves who reserves
      pure (⟨0⟩, value)

/-- The beneficiary's side of `repatriate_reserved_named`: what was moved. -/
def repatriateAs (id : I) (slashed beneficiary : A) (toChange : Nat) (status : Status) :
    Exec (State A L I) Error Nat :=
  match status with
  | .reserved => do
    let reserves ← read fun s => s.reservesOf beneficiary
    let remain ← repatriateReserved T slashed beneficiary toChange .reserved
    let actual := toChange - remain
    let reserves ← addToReserve T reserves id actual
    putReserves beneficiary reserves
    pure actual
  | .free => do
    let remain ← repatriateReserved T slashed beneficiary toChange .free
    pure (toChange - remain)

def repatriateReservedNamed (id : I) (slashed beneficiary : A) (value : Nat)
    (status : Status) : Exec (State A L I) Error Nat :=
  if value = 0 then pure 0
  else if slashed = beneficiary then
    match status with
    | .free => unreserveNamed T id slashed value
    | .reserved => do
      let named ← read (reservedBalanceNamed id slashed)
      pure (value - named)
  else do
    let reserves ← read fun s => s.reservesOf slashed
    match searchReserve reserves id with
    | .ok index =>
      let amount := amountAt reserves index
      let toChange := min amount value
      let actual ← repatriateAs T id slashed beneficiary toChange status
      putReserves slashed (setAmount reserves index (amount - actual))
      pure (value - actual)
    | .error _ =>
      putReserves slashed reserves
      pure value

end NamedReserves

/-! ## Genesis -/

section Genesis

variable {A L I : Type} [DecidableEq A] (T : Config)

def insertAccount (who : A) (data : AccountData) : Exec (State A L I) Error Unit :=
  tryMutateExists T who fun _ => pure (some data, ())

def build (balances : List (A × Nat)) : Exec (State A L I) Error Unit := do
  let total ← balances.foldlM (fun acc b => unwrap (T.checkedAdd acc b.2)) 0
  modify fun s => { s with totalIssuance := total }
  assert (∀ b ∈ balances, T.existentialDeposit ≤ b.2)
  assert (balances.map Prod.fst).Nodup
  balances.forM fun b => do
    let r ← attempt (insertAccount T b.1 { (default : AccountData) with free := b.2 })
    match r with
    | .ok _ => pure ()
    | .error _ => assert False

end Genesis

end Substrate.Balances
