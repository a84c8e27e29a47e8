import Substrate.BinarySearch
import Substrate.Exec
import Substrate.FinMap

/-!
# The democracy pallet

`frame/democracy`: accounts vote on referenda, directly or by delegating to another account, with a
conviction that weighs the vote and locks the balance. Each referendum keeps a tally that every call
adjusts, and each account the delegations it received and a lock for what it did before.

The currency is any `LockableCurrency`; only the lock under `DEMOCRACY_ID` is read. The proposal
queues, preimages and the verdict of the threshold are outside: whether a referendum is launched,
and which ones are approved, are arguments of `beginBlock`. A proposal without a delay is enacted by
the source right there, which is outside too. Origins, events and weights are left out.
-/

namespace Substrate.Democracy

open Function Exec

/-! ## Balances -/

def saturatingAdd (maxBalance a b : Nat) : Nat := min maxBalance (a + b)

def checkedAdd (maxBalance a b : Nat) : Option Nat :=
  if a + b ≤ maxBalance then some (a + b) else none

def checkedSub (a b : Nat) : Option Nat := if b ≤ a then some (a - b) else none

/-! ## Convictions -/

inductive Conviction where
  /-- 0.1x votes, unlocked. -/
  | none
  | locked1x
  | locked2x
  | locked3x
  | locked4x
  | locked5x
  | locked6x
deriving DecidableEq

def Conviction.toNat : Conviction → Nat
  | none => 0
  | locked1x => 1
  | locked2x => 2
  | locked3x => 3
  | locked4x => 4
  | locked5x => 5
  | locked6x => 6

def Conviction.lockPeriods : Conviction → Nat
  | none => 0
  | locked1x => 1
  | locked2x => 2
  | locked3x => 4
  | locked4x => 8
  | locked5x => 16
  | locked6x => 32

@[ext] structure Delegations where
  /-- Post-conviction. -/
  votes : Nat
  /-- Raw capital, used for the turnout. -/
  capital : Nat
deriving DecidableEq

def Delegations.zero : Delegations := ⟨0, 0⟩

def Delegations.saturatingAdd (maxBalance : Nat) (d o : Delegations) : Delegations :=
  ⟨Democracy.saturatingAdd maxBalance d.votes o.votes,
    Democracy.saturatingAdd maxBalance d.capital o.capital⟩

def Delegations.saturatingSub (d o : Delegations) : Delegations :=
  ⟨d.votes - o.votes, d.capital - o.capital⟩

def Conviction.votes (maxBalance : Nat) (conviction : Conviction) (capital : Nat) : Delegations :=
  match conviction with
  | none => ⟨capital / 10, capital⟩
  | x => ⟨if capital * x.toNat ≤ maxBalance then capital * x.toNat else maxBalance, capital⟩

/-! ## Votes -/

structure Vote where
  aye : Bool
  conviction : Conviction
deriving DecidableEq

inductive AccountVote where
  | standard (vote : Vote) (balance : Nat)
  | split (aye nay : Nat)
deriving DecidableEq

namespace AccountVote

/-- The lock periods if the referendum passed iff `approved`. -/
def lockedIf (approved : Bool) : AccountVote → Option (Nat × Nat)
  | standard vote balance =>
    if vote.aye = approved then some (vote.conviction.lockPeriods, balance) else none
  | split .. => none

def balance (maxBalance : Nat) : AccountVote → Nat
  | standard _ balance => balance
  | split aye nay => saturatingAdd maxBalance aye nay

def asStandard : AccountVote → Option Bool
  | standard vote _ => some vote.aye
  | split .. => none

end AccountVote

/-! ## Tallies -/

@[ext] structure Tally where
  ayes : Nat
  nays : Nat
  turnout : Nat
deriving DecidableEq

namespace Tally

def zero : Tally := ⟨0, 0, 0⟩

variable (maxBalance : Nat) (delegations : Delegations) (approve : Bool)

def add (vote : AccountVote) (t : Tally) : Option Tally :=
  match vote with
  | .standard vote balance => do
    let d := vote.conviction.votes maxBalance balance
    let turnout ← checkedAdd maxBalance t.turnout d.capital
    match vote.aye with
    | true => do
      let ayes ← checkedAdd maxBalance t.ayes d.votes
      pure { t with turnout, ayes }
    | false => do
      let nays ← checkedAdd maxBalance t.nays d.votes
      pure { t with turnout, nays }
  | .split aye nay => do
    let aye := Conviction.none.votes maxBalance aye
    let nay := Conviction.none.votes maxBalance nay
    let turnout ← checkedAdd maxBalance t.turnout aye.capital
    let turnout ← checkedAdd maxBalance turnout nay.capital
    let ayes ← checkedAdd maxBalance t.ayes aye.votes
    let nays ← checkedAdd maxBalance t.nays nay.votes
    pure ⟨ayes, nays, turnout⟩

def remove (vote : AccountVote) (t : Tally) : Option Tally :=
  match vote with
  | .standard vote balance => do
    let d := vote.conviction.votes maxBalance balance
    let turnout ← checkedSub t.turnout d.capital
    match vote.aye with
    | true => do
      let ayes ← checkedSub t.ayes d.votes
      pure { t with turnout, ayes }
    | false => do
      let nays ← checkedSub t.nays d.votes
      pure { t with turnout, nays }
  | .split aye nay => do
    let aye := Conviction.none.votes maxBalance aye
    let nay := Conviction.none.votes maxBalance nay
    let turnout ← checkedSub t.turnout aye.capital
    let turnout ← checkedSub turnout nay.capital
    let ayes ← checkedSub t.ayes aye.votes
    let nays ← checkedSub t.nays nay.votes
    pure ⟨ayes, nays, turnout⟩

def increase (t : Tally) : Tally :=
  let turnout := saturatingAdd maxBalance t.turnout delegations.capital
  match approve with
  | true => { t with turnout, ayes := saturatingAdd maxBalance t.ayes delegations.votes }
  | false => { t with turnout, nays := saturatingAdd maxBalance t.nays delegations.votes }

def reduce (t : Tally) : Tally :=
  let turnout := t.turnout - delegations.capital
  match approve with
  | true => { t with turnout, ayes := t.ayes - delegations.votes }
  | false => { t with turnout, nays := t.nays - delegations.votes }

/-- A change for the delegations behind a vote, if it is standard. -/
def forStandard (f : Bool → Tally → Tally) (vote : AccountVote) (t : Tally) : Tally :=
  match vote.asStandard with
  | some approve => f approve t
  | none => t

end Tally

/-! ## Accounts -/

/-- A lock for some now-forgotten reason. -/
structure PriorLock where
  until_ : Nat
  amount : Nat
deriving DecidableEq

namespace PriorLock

def zero : PriorLock := ⟨0, 0⟩

def accumulate (until_ amount : Nat) (p : PriorLock) : PriorLock :=
  ⟨max p.until_ until_, max p.amount amount⟩

def locked (p : PriorLock) : Nat := p.amount

def rejig (now : Nat) (p : PriorLock) : PriorLock := if p.until_ ≤ now then zero else p

end PriorLock

inductive Voting (A : Type) where
  | direct (votes : List (Nat × AccountVote)) (delegations : Delegations) (prior : PriorLock)
  | delegating (balance : Nat) (target : A) (conviction : Conviction) (delegations : Delegations)
    (prior : PriorLock)

namespace Voting

variable {A : Type}

def default : Voting A := direct [] .zero .zero

def delegations : Voting A → Delegations
  | direct _ delegations _ => delegations
  | delegating _ _ _ delegations _ => delegations

def prior : Voting A → PriorLock
  | direct _ _ prior => prior
  | delegating _ _ _ _ prior => prior

def setDelegations (delegations : Delegations) : Voting A → Voting A
  | direct votes _ prior => direct votes delegations prior
  | delegating balance target conviction _ prior =>
    delegating balance target conviction delegations prior

def rejig (now : Nat) : Voting A → Voting A
  | direct votes delegations prior => direct votes delegations (prior.rejig now)
  | delegating balance target conviction delegations prior =>
    delegating balance target conviction delegations (prior.rejig now)

def lockedBalance (maxBalance : Nat) : Voting A → Nat
  | direct votes _ prior =>
    (votes.map fun v => v.2.balance maxBalance).foldl (fun a i => max a i) prior.locked
  | delegating balance .. => balance

end Voting

/-! ## Referenda -/

structure ReferendumStatus where
  end_ : Nat
  tally : Tally
deriving DecidableEq

inductive ReferendumInfo where
  | ongoing (status : ReferendumStatus)
  | finished (approved : Bool) (end_ : Nat)
deriving DecidableEq

inductive UnvoteScope where
  | any
  /-- Only the changes that do not need the owner's permission. -/
  | onlyExpired
deriving DecidableEq

inductive Error where
  | referendumInvalid
  | insufficientFunds
  | maxVotesReached
  | alreadyDelegating
  | notVoter
  | noPermission
  | nonsense
  | votesExist
  | notDelegating
  /-- `ArithmeticError::Underflow`. -/
  | underflow
  /-- `ArithmeticError::Overflow`. -/
  | overflow
deriving DecidableEq

/-! ## The pallet -/

/-- A currency with locks. `locked` is the amount locked under `DEMOCRACY_ID`. -/
structure LockableCurrency (A : Type) [DecidableEq A] where
  State : Type
  freeBalance : State → A → Nat
  locked : State → A → Nat
  setLock : A → Nat → State → State
  extendLock : A → Nat → State → State
  removeLock : A → State → State
  locked_setLock : ∀ who amount s, amount ≠ 0 →
    locked (setLock who amount s) = update (locked s) who amount
  locked_extendLock : ∀ who amount s,
    locked (extendLock who amount s) = update (locked s) who (max (locked s who) amount)
  locked_removeLock : ∀ who s, locked (removeLock who s) = update (locked s) who 0

/-- Balances that never change, with their locks. -/
def LockableCurrency.fixed (A : Type) [DecidableEq A] (free : Nat) : LockableCurrency A where
  State := A → Nat
  freeBalance _ _ := free
  locked s := s
  setLock who amount s := if amount = 0 then s else update s who amount
  extendLock who amount s := update s who (max (s who) amount)
  removeLock who s := update s who 0
  locked_setLock _ _ _ h := if_neg h
  locked_extendLock _ _ _ := rfl
  locked_removeLock _ _ := rfl

structure Config where
  enactmentPeriod : Nat
  votingPeriod : Nat
  maxVotes : Nat
  /-- `Balance::max_value()`. -/
  maxBalance : Nat

section Pallet

variable {A : Type} [DecidableEq A] (C : LockableCurrency A)

structure State where
  currency : C.State
  votingOf : FinMap A (Voting A)
  referendumInfoOf : FinMap Nat ReferendumInfo
  referendumCount : Nat
  lowestUnbaked : Nat
  blockNumber : Nat

variable {C}

def State.voting (s : State C) (who : A) : Voting A := (s.votingOf.get? who).getD .default

def State.setVoting (s : State C) (who : A) (voting : Voting A) : State C :=
  { s with votingOf := s.votingOf.insert who voting }

def State.setInfo (s : State C) (index : Nat) (info : ReferendumInfo) : State C :=
  { s with referendumInfoOf := s.referendumInfoOf.insert index info }

abbrev Call (C : LockableCurrency A) (α : Type) : Type := Exec (State C) Error α

variable (T : Config) (who : A) (refIndex : Nat) (scope : UnvoteScope)

def extendLock (amount : Nat) : Call C Unit :=
  modify fun s => { s with currency := C.extendLock who amount s.currency }

def referendumStatus : Call C ReferendumStatus := do
  let info ← read fun s => s.referendumInfoOf.get? refIndex
  match info with
  | some (.ongoing status) => pure status
  | _ => throw .referendumInvalid

/-! ### Voting -/

/-- The rest of `try_vote`, without the old vote. -/
def placeVote (vote : AccountVote) (status : ReferendumStatus) (votes : List (Nat × AccountVote))
    (delegations : Delegations) (prior : PriorLock) (tally : Tally) : Call C Unit := do
  let tally ← okOr (tally.add T.maxBalance vote) .overflow
  let tally := Tally.forStandard (Tally.increase T.maxBalance delegations) vote tally
  modify fun s => s.setVoting who (.direct votes delegations prior)
  -- extend the lock rather than setting it since we don't know what other votes are in place
  extendLock who (vote.balance T.maxBalance)
  modify fun s => s.setInfo refIndex (.ongoing { status with tally })

def tryVote (vote : AccountVote) : Call C Unit := do
  let status ← referendumStatus refIndex
  let free ← read fun s => C.freeBalance s.currency who
  ensure (vote.balance T.maxBalance ≤ free) .insufficientFunds
  let voting ← read fun s => s.voting who
  match voting with
  | .delegating .. => throw .alreadyDelegating
  | .direct votes delegations prior =>
    match Vec.binarySearchByKey votes refIndex Prod.fst with
    | .ok i => do
      let old ← unwrap votes[i]?
      let tally ← okOr (status.tally.remove T.maxBalance old.2) .underflow
      let tally := Tally.forStandard (Tally.reduce delegations) old.2 tally
      placeVote T who refIndex vote status (votes.set i (old.1, vote)) delegations prior tally
    | .error i => do
      ensure (votes.length ≤ T.maxVotes) .maxVotesReached
      placeVote T who refIndex vote status (votes.take i ++ (refIndex, vote) :: votes.drop i)
        delegations prior status.tally

/-- The tally of an ongoing referendum, or the prior lock of the account. -/
def releaseVote (vote : AccountVote) (delegations : Delegations) (prior : PriorLock) :
    Call C PriorLock := do
  let info ← read fun s => s.referendumInfoOf.get? refIndex
  match info with
  | some (.ongoing status) => do
    ensure (scope = .any) .noPermission
    let tally ← okOr (status.tally.remove T.maxBalance vote) .underflow
    let tally := Tally.forStandard (Tally.reduce delegations) vote tally
    modify fun s => s.setInfo refIndex (.ongoing { status with tally })
    pure prior
  | some (.finished approved end_) =>
    match vote.lockedIf approved with
    | some (lockPeriods, balance) => do
      let now ← read State.blockNumber
      let unlockAt := end_ + T.enactmentPeriod * lockPeriods
      if now < unlockAt then do
        ensure (scope = .any) .noPermission
        pure (prior.accumulate unlockAt balance)
      else pure prior
    | none => pure prior
  -- referendum was cancelled
  | none => pure prior

def tryRemoveVote : Call C Unit := do
  let voting ← read fun s => s.voting who
  match voting with
  | .delegating .. => pure ()
  | .direct votes delegations prior =>
    match Vec.binarySearchByKey votes refIndex Prod.fst with
    | .error _ => throw .notVoter
    | .ok i => do
      let old ← unwrap votes[i]?
      let prior ← releaseVote T refIndex scope old.2 delegations prior
      modify fun s => s.setVoting who (.direct (votes.eraseIdx i) delegations prior)

/-! ### Delegating -/

def adjustTally (f : Tally → Tally) (refIndex : Nat) (infos : FinMap Nat ReferendumInfo) :
    FinMap Nat ReferendumInfo :=
  match infos.get? refIndex with
  | some (.ongoing status) =>
    infos.insert refIndex (.ongoing { status with tally := f status.tally })
  | _ => infos

/-- The loop over the votes of an account whose delegations change. -/
def adjustTallies (f : Bool → Tally → Tally) (votes : List (Nat × AccountVote))
    (infos : FinMap Nat ReferendumInfo) : FinMap Nat ReferendumInfo :=
  votes.foldl (fun infos v =>
    match v.2.asStandard with
    | some aye => adjustTally (f aye) v.1 infos
    | none => infos) infos

/-- Returns the number of votes. -/
def changeUpstreamDelegation (change : Delegations → Delegations) (f : Bool → Tally → Tally)
    (who : A) : Call C Nat := do
  let voting ← read fun s => s.voting who
  match voting with
  | .delegating balance target conviction delegations prior => do
    -- we don't support second level delegating, so we don't need to do anything more
    modify fun s =>
      s.setVoting who (.delegating balance target conviction (change delegations) prior)
    pure 1
  | .direct votes delegations prior => do
    modify fun s => (s.setVoting who (.direct votes (change delegations) prior))
    modify fun s => { s with referendumInfoOf := adjustTallies f votes s.referendumInfoOf }
    pure votes.length

def increaseUpstreamDelegation (amount : Delegations) : Call C Nat :=
  changeUpstreamDelegation (fun d => d.saturatingAdd T.maxBalance amount)
    (Tally.increase T.maxBalance amount) who

def reduceUpstreamDelegation (amount : Delegations) : Call C Nat :=
  changeUpstreamDelegation (fun d => d.saturatingSub amount) (Tally.reduce amount) who

/-- The rest of `try_delegate`. -/
def placeDelegation (who target : A) (conviction : Conviction) (balance : Nat)
    (delegations : Delegations) (prior : PriorLock) : Call C Nat := do
  let votes ← increaseUpstreamDelegation T target (conviction.votes T.maxBalance balance)
  -- extend the lock rather than setting it since we don't know what other votes are in place
  extendLock who balance
  modify fun s => s.setVoting who (.delegating balance target conviction delegations prior)
  pure votes

/-- Returns the upstream number of votes. -/
def tryDelegate (who target : A) (conviction : Conviction) (balance : Nat) : Call C Nat := do
  ensure (who ≠ target) .nonsense
  let free ← read fun s => C.freeBalance s.currency who
  ensure (balance ≤ free) .insufficientFunds
  let voting ← read fun s => s.voting who
  match voting with
  | .delegating oldBalance oldTarget oldConviction delegations prior => do
    -- remove any delegation votes to our current target
    let _ ← reduceUpstreamDelegation oldTarget (oldConviction.votes T.maxBalance oldBalance)
    placeDelegation T who target conviction balance delegations prior
  | .direct votes delegations prior => do
    -- here we just ensure that we're currently idling with no votes recorded
    ensure (votes.isEmpty = true) .votesExist
    placeDelegation T who target conviction balance delegations prior

def tryUndelegate : Call C Nat := do
  let voting ← read fun s => s.voting who
  match voting with
  | .direct .. => throw .notDelegating
  | .delegating balance target conviction delegations prior => do
    -- remove any delegation votes to our current target
    let votes ← reduceUpstreamDelegation target (conviction.votes T.maxBalance balance)
    let now ← read State.blockNumber
    let unlockAt := now + T.enactmentPeriod * conviction.lockPeriods
    modify fun s =>
      s.setVoting who (.direct [] delegations (prior.accumulate unlockAt balance))
    pure votes

def updateLock : Call C Unit := do
  let now ← read State.blockNumber
  let voting ← read fun s => (s.voting who).rejig now
  modify fun s => s.setVoting who voting
  let lockNeeded := voting.lockedBalance T.maxBalance
  modify fun s =>
    { s with
      currency := if lockNeeded = 0 then C.removeLock who s.currency
        else C.setLock who lockNeeded s.currency }

/-! ### Referenda -/

def injectReferendum (end_ : Nat) : Call C Nat := do
  let refIndex ← read State.referendumCount
  modify fun s =>
    { s.setInfo refIndex (.ongoing ⟨end_, .zero⟩) with referendumCount := refIndex + 1 }
  pure refIndex

def internalCancelReferendum : Call C Unit :=
  modify fun s => { s with referendumInfoOf := s.referendumInfoOf.erase refIndex }

def maturingReferendaAt (n : Nat) (s : State C) : List (Nat × ReferendumStatus) :=
  (List.range' s.lowestUnbaked (s.referendumCount - s.lowestUnbaked)).filterMap fun i =>
    match s.referendumInfoOf.get? i with
    | some (.ongoing status) => if status.end_ = n then some (i, status) else none
    | _ => none

/-- A proposal may be tabled, and the referenda that end are finished with the verdict of their
threshold. -/
def beginBlock (now : Nat) (launches : Bool) (approved : Nat → Bool) : Call C Unit := do
  modify fun s => { s with blockNumber := now }
  if launches then do
    let _ ← injectReferendum (now + T.votingPeriod)
    modify fun s =>
      (maturingReferendaAt now s).foldl (fun s r => s.setInfo r.1 (.finished (approved r.1) now)) s
  else
    modify fun s =>
      (maturingReferendaAt now s).foldl (fun s r => s.setInfo r.1 (.finished (approved r.1) now)) s

end Pallet

end Substrate.Democracy
