import Mathlib.Data.Prod.Lex
import Substrate.BinarySearch
import Substrate.ForkTree

/-!
# GRANDPA authority sets

`client/finality-grandpa/src/authorities.rs`: the authority set in force, the pending changes, and
the history of past sets. Standard changes wait in a fork tree and are enacted when a block at or
beyond their effective number is finalized; forced changes wait in a sorted vector and are enacted
when a block at exactly their effective number is imported. Both append to `authoritySetChanges` the
number of the last block of the set they end.

Authority ids are an arbitrary type `A`. Logging and telemetry are left out.
-/

namespace Substrate.Grandpa

abbrev AuthorityList (A : Type) := List (A × Nat)

inductive Error (N E : Type) where
  | invalidAuthoritySet
  | client (e : E)
  | duplicateAuthoritySetChange
  | multiplePendingForcedAuthoritySetChanges
  /-- A forced change must be applied after the pending standard change at this number. -/
  | forcedAuthoritySetChangeDependencyUnsatisfied (number : N)
  | forkTree (e : ForkTree.Error E)
deriving Repr, DecidableEq

/-- `From<fork_tree::Error<E>>`. -/
def Error.ofForkTree {N E : Type} : ForkTree.Error E → Error N E
  | .client e => .client e
  | .duplicate => .duplicateAuthoritySetChange
  | e => .forkTree e

inductive DelayKind (N : Type) where
  | finalized
  /-- Depth in best chain, with the median last finalized block when the change was signaled. -/
  | best (medianLastFinalized : N)
deriving Repr, DecidableEq

structure PendingChange (A H N : Type) where
  nextAuthorities : AuthorityList A
  delay : N
  canonHeight : N
  canonHash : H
  delayKind : DelayKind N
deriving Repr, DecidableEq

def PendingChange.effectiveNumber {A H N : Type} [Add N] (change : PendingChange A H N) : N :=
  change.canonHeight + change.delay

/-! ## The history of set changes -/

/-- The last block of each authority set, with the set's id. -/
abbrev AuthoritySetChanges (N : Type) := List (Nat × N)

inductive AuthoritySetChangeId (N : Type) where
  | latest
  | set (setId : Nat) (blockNumber : N)
  | unknown
deriving Repr, DecidableEq

namespace AuthoritySetChanges

variable {N : Type}

def append (changes : AuthoritySetChanges N) (setId : Nat) (blockNumber : N) :
    AuthoritySetChanges N :=
  changes ++ [(setId, blockNumber)]

variable [LinearOrder N]

def getSetId (changes : AuthoritySetChanges N) (blockNumber : N) : AuthoritySetChangeId N :=
  if (changes.getLast?.map fun last => decide (last.2 < blockNumber)).getD false then .latest
  else
    let idx := Vec.insertionPoint (Vec.binarySearchByKey changes blockNumber Prod.snd)
    match changes[idx]? with
    | some (setId, blockNumber) =>
      -- if this is the first index but not the first set id then we are missing data.
      if idx = 0 ∧ setId ≠ 0 then .unknown else .set setId blockNumber
    | none => .unknown

end AuthoritySetChanges

/-! ## The authority set -/

structure AuthoritySet (A H N : Type) where
  currentAuthorities : AuthorityList A
  setId : Nat
  pendingStandardChanges : ForkTree H N (PendingChange A H N)
  /-- Pending forced changes across different forks (at most one per fork). -/
  pendingForcedChanges : List (PendingChange A H N)
  authoritySetChanges : AuthoritySetChanges N

structure Status (H N : Type) where
  changed : Bool
  /-- The block where the set in force changed, if it did. -/
  newSetBlock : Option (H × N)
deriving Repr, DecidableEq

namespace AuthoritySet

variable {A H N E : Type}

/-- Authority sets must be non-empty and all weights must be greater than 0. -/
def invalidAuthorityList (authorities : AuthorityList A) : Bool :=
  authorities.isEmpty || authorities.any fun (_, w) => w == 0

def genesis (initial : AuthorityList A) : Option (AuthoritySet A H N) :=
  if invalidAuthorityList initial then none
  else some
    { currentAuthorities := initial
      setId := 0
      pendingStandardChanges := ForkTree.new
      pendingForcedChanges := []
      authoritySetChanges := [] }

variable [DecidableEq H] [LinearOrder N]

def addStandardChange (s : AuthoritySet A H N) (pending : PendingChange A H N)
    (isDescendentOf : H → H → Except E Bool) :
    Outcome (Error N E) Unit × AuthoritySet A H N :=
  match s.pendingStandardChanges.importBlock pending.canonHash pending.canonHeight pending
      isDescendentOf with
  | (.err e, t) => (.err (.ofForkTree e), { s with pendingStandardChanges := t })
  | (.panic, t) => (.panic, { s with pendingStandardChanges := t })
  | (.ok _, t) => (.ok (), { s with pendingStandardChanges := t })

/-- The loop of `add_forced_change` over the pending forced changes. -/
def forcedChangeAllowed (pending : PendingChange A H N) (isDescendentOf : H → H → Except E Bool) :
    List (PendingChange A H N) → Except (Error N E) Unit
  | [] => .ok ()
  | change :: rest =>
    if change.canonHash = pending.canonHash then .error .duplicateAuthoritySetChange
    else
      match isDescendentOf change.canonHash pending.canonHash with
      | .error e => .error (.client e)
      | .ok true => .error .multiplePendingForcedAuthoritySetChanges
      | .ok false => forcedChangeAllowed pending isDescendentOf rest

variable [Add N] (s : AuthoritySet A H N) (change : PendingChange A H N) (medianLastFinalized : N)

def forcedKey : N ×ₗ N :=
  toLex (change.effectiveNumber, change.canonHeight)

def addForcedChange (pending : PendingChange A H N) (isDescendentOf : H → H → Except E Bool) :
    Outcome (Error N E) Unit × AuthoritySet A H N :=
  match forcedChangeAllowed pending isDescendentOf s.pendingForcedChanges with
  | .error e => (.err e, s)
  | .ok () =>
    let idx := Vec.insertionPoint
      (Vec.binarySearchByKey s.pendingForcedChanges (forcedKey pending) forcedKey)
    (.ok (), { s with
      pendingForcedChanges :=
        s.pendingForcedChanges.take idx ++ pending :: s.pendingForcedChanges.drop idx })

/-- Note an upcoming pending transition. Changes of a branch are assumed to be added in order. -/
def addPendingChange (pending : PendingChange A H N) (isDescendentOf : H → H → Except E Bool) :
    Outcome (Error N E) Unit × AuthoritySet A H N :=
  if invalidAuthorityList pending.nextAuthorities then (.err .invalidAuthoritySet, s)
  else
    match pending.delayKind with
    | .best _ => s.addForcedChange pending isDescendentOf
    | .finalized => s.addStandardChange pending isDescendentOf

variable (finalizedHash : H) (finalizedNumber : N) (isDescendentOf : H → H → Except E Bool)

/-- The loop of `apply_forced_changes` over the roots. -/
def dependenciesSatisfied : List (ForkTree.Node H N (PendingChange A H N)) → Except (Error N E) Unit
  | [] => .ok ()
  | root :: rest =>
    match (if root.data.effectiveNumber ≤ medianLastFinalized then
        isDescendentOf root.data.canonHash change.canonHash else .ok false) with
    | .error e => .error (.client e)
    | .ok true =>
      .error (.forcedAuthoritySetChangeDependencyUnsatisfied root.data.effectiveNumber)
    | .ok false => dependenciesSatisfied rest

def enactForced : AuthoritySet A H N :=
  { currentAuthorities := change.nextAuthorities
    setId := s.setId + 1
    pendingStandardChanges := ForkTree.new -- new set, new changes.
    pendingForcedChanges := []
    authoritySetChanges := s.authoritySetChanges.append s.setId medianLastFinalized }

/-- The loop of `apply_forced_changes` over the changes effective at the best block. -/
def applyForcedLoop (bestHash : H) (isDescendentOf : H → H → Except E Bool) :
    List (PendingChange A H N) → Outcome (Error N E) (Option (N × AuthoritySet A H N))
  | [] => .ok none
  | change :: rest =>
    -- is the best block in the same branch as the block that signaled the change?
    match (if change.canonHash = bestHash then .ok true
        else isDescendentOf change.canonHash bestHash) with
    | .error e => .err (.client e)
    | .ok false => applyForcedLoop bestHash isDescendentOf rest
    | .ok true =>
      match change.delayKind with
      | .finalized => .panic
      | .best medianLastFinalized =>
        match dependenciesSatisfied change medianLastFinalized isDescendentOf
            s.pendingStandardChanges.roots with
        | .error e => .err e
        | .ok () => .ok (some (medianLastFinalized, s.enactForced change medianLastFinalized))

/-- Apply or prune pending transitions based on a best-block trigger. Returns the new set, and the
median last finalized block, when a forced change has occurred. -/
def applyForcedChanges (bestHash : H) (bestNumber : N) (isDescendentOf : H → H → Except E Bool) :
    Outcome (Error N E) (Option (N × AuthoritySet A H N)) :=
  s.applyForcedLoop bestHash isDescendentOf
    ((s.pendingForcedChanges.takeWhile fun c => decide (c.effectiveNumber ≤ bestNumber)).filter
      fun c => decide (c.effectiveNumber = bestNumber))

/-- The forced changes that `apply_standard_changes` keeps. A failing query leaves those pushed so
far. -/
def keepForced : List (PendingChange A H N) → Except E Unit × List (PendingChange A H N)
  | [] => (.ok (), [])
  | change :: rest =>
    match (if finalizedNumber < change.effectiveNumber then
        isDescendentOf finalizedHash change.canonHash else .ok false) with
    | .error e => (.error e, [])
    | .ok true =>
      let r := keepForced rest
      (r.1, change :: r.2)
    | .ok false => keepForced rest

def enactStandard : AuthoritySet A H N :=
  { s with
    authoritySetChanges := s.authoritySetChanges.append s.setId finalizedNumber
    currentAuthorities := change.nextAuthorities
    setId := s.setId + 1 }

/-- Apply or prune pending transitions based on a finality trigger. -/
def applyStandardChanges : Outcome (Error N E) (Status H N) × AuthoritySet A H N :=
  match s.pendingStandardChanges.finalizeWithDescendentIf finalizedHash finalizedNumber
      isDescendentOf (fun change => decide (change.effectiveNumber ≤ finalizedNumber)) with
  | (.err e, t) => (.err (.ofForkTree e), { s with pendingStandardChanges := t })
  | (.panic, t) => (.panic, { s with pendingStandardChanges := t })
  | (.ok .unchanged, t) => (.ok ⟨false, none⟩, { s with pendingStandardChanges := t })
  | (.ok (.changed change), t) =>
    match keepForced finalizedHash finalizedNumber isDescendentOf s.pendingForcedChanges with
    | (.error e, forced) =>
      (.err (.client e), { s with pendingStandardChanges := t, pendingForcedChanges := forced })
    | (.ok (), forced) =>
      let s' := { s with pendingStandardChanges := t, pendingForcedChanges := forced }
      match change with
      | none => (.ok ⟨true, none⟩, s')
      | some change =>
        (.ok ⟨true, some (finalizedHash, finalizedNumber)⟩, s'.enactStandard change finalizedNumber)

end AuthoritySet

end Substrate.Grandpa
