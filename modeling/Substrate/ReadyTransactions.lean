import Mathlib.Algebra.Ring.Nat
import Mathlib.Data.Prod.Lex
import Substrate.FinMap
import Substrate.Outcome
import Substrate.VecOps

/-!
# The ready queue of the transaction pool

The transactions of the pool whose required tags are all met. `provided_tags` says which ready
transaction provides a tag, each transaction lists in `unlocks` the ones that wait for it, once for
every tag, and counts in `requires_offset` the tags it requires that no transaction of the queue
provides. Those that wait for nothing in the queue stand in `best`.

Vectors are lists in their own order, stacks are lists with their top first. The counters of
`TrackedMap` are those of the map itself, and insertion ids do not run out.
-/

namespace Substrate.TxPool

open OrdSet

variable {H T : Type}

/-- Without the payload and the fields that the queues pass on unread. -/
structure Transaction (H T : Type) where
  bytes : Nat
  hash : H
  priority : Nat
  validTill : Nat
  requires : List T
  provides : List T
deriving DecidableEq, Repr

structure TransactionRef (H T : Type) where
  transaction : Transaction H T
  insertionId : Nat
deriving DecidableEq, Repr

/-- By priority, then the one that becomes invalid earlier, then the one inserted earlier. -/
def TransactionRef.key (r : TransactionRef H T) : ℕ ×ₗ ℕᵒᵈ ×ₗ ℕᵒᵈ :=
  toLex (r.transaction.priority,
    toLex (OrderDual.toDual r.transaction.validTill, OrderDual.toDual r.insertionId))

structure ReadyTx (H T : Type) where
  transaction : TransactionRef H T
  /-- the transactions that this one unlocks, once for each tag -/
  unlocks : List H
  /-- how many required tags are met by nothing in the queue -/
  requiresOffset : Nat
deriving DecidableEq, Repr

namespace ReadyTx

def hash (x : ReadyTx H T) : H := x.transaction.transaction.hash

def requires (x : ReadyTx H T) : List T := x.transaction.transaction.requires

def provides (x : ReadyTx H T) : List T := x.transaction.transaction.provides

end ReadyTx

/-- With the required tags that are not met yet, and the time of its import. -/
structure WaitingTransaction (H T : Type) where
  transaction : Transaction H T
  missingTags : List T
  importedAt : Nat
deriving DecidableEq, Repr

def WaitingTransaction.isReady (tx : WaitingTransaction H T) : Bool := tx.missingTags.isEmpty

inductive Error (H : Type) where
  | alreadyImported (hash : H)
  | rejectedFutureTransaction
  | tooLowPriority (old new : Nat)
  | cycleDetected
deriving DecidableEq, Repr

structure ReadyTransactions (H T : Type) where
  insertionId : Nat
  providedTags : FinMap T H
  ready : FinMap H (ReadyTx H T)
  best : List (TransactionRef H T)

variable [DecidableEq H] [DecidableEq T]

/-- The first occurrence goes, the last element takes its place. -/
def removeItem (vec : List H) (item : H) : List H :=
  match vec.findIdx? (fun i => decide (i = item)) with
  | some idx => Vec.swapRemove vec idx
  | none => vec

def saturatingAdd (a b : Nat) : Nat := min (a + b) (2 ^ 64 - 1)

namespace ReadyTransactions

def empty : ReadyTransactions H T := ⟨0, .empty, .empty, []⟩

variable (r : ReadyTransactions H T) (hash : H)

def contains : Bool := r.ready.contains hash

def len : Nat := r.ready.keys.length

def bytes : Nat :=
  (r.ready.keys.map fun h => ((r.ready.get? h).map (·.transaction.transaction.bytes)).getD 0).sum

/-! ## Removing subtrees -/

def invalidated (filter : Option (List T)) (tx : ReadyTx H T) : List T :=
  tx.provides.filter fun tag => match filter with
    | none => true
    | some tags => decide (tag ∉ tags)

/-- The provider of the tag is bound to the name of the removed hash, so it is its own hash that is
looked for among its `unlocks`. -/
def removeFromUnlocks (providedTags : FinMap T H) (ready : FinMap H (ReadyTx H T)) (tag : T) :
    FinMap H (ReadyTx H T) :=
  match providedTags.get? tag with
  | none => ready
  | some hash =>
    match ready.get? hash with
    | none => ready
    | some tx => ready.insert hash { tx with unlocks := removeItem tx.unlocks hash }

def removeOne (filter : Option (List T)) (hash : H) (tx : ReadyTx H T)
    (r : ReadyTransactions H T) : ReadyTransactions H T :=
  let providedTags := (invalidated filter tx).foldl FinMap.erase r.providedTags
  { r with
    providedTags
    ready := tx.requires.foldl (removeFromUnlocks providedTags) (r.ready.erase hash)
    best := remove TransactionRef.key r.best tx.transaction }

def popReady (ready : FinMap H (ReadyTx H T)) : List H → Option (H × ReadyTx H T × List H)
  | [] => none
  | hash :: toRemove =>
    match ready.get? hash with
    | some tx => some (hash, tx, toRemove)
    | none => popReady ready toRemove

/-- Every round takes one transaction out of the queue. -/
def removeLoop (filter : Option (List T)) : Nat → ReadyTransactions H T → List H →
    List (Transaction H T) → List (Transaction H T) × ReadyTransactions H T
  | 0, r, _, removed => (removed, r)
  | fuel + 1, r, toRemove, removed =>
    match popReady r.ready toRemove with
    | none => (removed, r)
    | some (hash, tx, toRemove) =>
      removeLoop filter fuel (removeOne filter hash tx r)
        (if (invalidated filter tx).isEmpty then toRemove else tx.unlocks.reverse ++ toRemove)
        (removed ++ [tx.transaction.transaction])

def removeSubtreeWithTagFilter (toRemove : List H) (filter : Option (List T)) :
    List (Transaction H T) × ReadyTransactions H T :=
  removeLoop filter r.len r toRemove.reverse []

def removeSubtree (hashes : List H) : List (Transaction H T) × ReadyTransactions H T :=
  r.removeSubtreeWithTagFilter hashes none

/-! ## Importing -/

def replaceHashes (tx : Transaction H T) : List H :=
  (tx.provides.filterMap r.providedTags.get?).dedup

/-- The transactions removed, and the ones that the new transaction unlocks in their place. -/
def replacePrevious (tx : Transaction H T) :
    Outcome (Error H) (List (Transaction H T) × List H) × ReadyTransactions H T :=
  let hashes := r.replaceHashes tx
  if hashes.isEmpty then (.ok ([], []), r)
  else
    let replaced := hashes.filterMap r.ready.get?
    let oldPriority :=
      replaced.foldl (fun total x => saturatingAdd total x.transaction.transaction.priority) 0
    if tx.priority ≤ oldPriority then (.err (.tooLowPriority oldPriority tx.priority), r)
    else
      let unlocks := replaced.flatMap (·.unlocks)
      let (removed, r') := r.removeSubtreeWithTagFilter hashes (some tx.provides)
      (.ok (removed, unlocks), r')

/-- Each provider of a required tag gets the new hash into its `unlocks`, the other tags are
counted. `none` is the failed `expect`. -/
def addLinks (providedTags : FinMap T H) :
    List T → FinMap H (ReadyTx H T) → Nat → Option (FinMap H (ReadyTx H T) × Nat)
  | [], ready, requiresOffset => some (ready, requiresOffset)
  | tag :: tags, ready, requiresOffset =>
    match providedTags.get? tag with
    | none => addLinks providedTags tags ready (requiresOffset + 1)
    | some other =>
      match ready.get? other with
      | none => none
      | some tx =>
        addLinks providedTags tags
          (ready.insert other { tx with unlocks := tx.unlocks ++ [hash] }) requiresOffset

def importTx (tx : WaitingTransaction H T) :
    Outcome (Error H) (List (Transaction H T)) × ReadyTransactions H T :=
  if ¬tx.isReady then (.panic, r)
  else if r.contains tx.transaction.hash then (.panic, r)
  else
    let r := { r with insertionId := r.insertionId + 1 }
    let transaction := tx.transaction
    match r.replacePrevious transaction with
    | (.panic, r) => (.panic, r)
    | (.err e, r) => (.err e, r)
    | (.ok (replaced, unlocks), r) =>
      match addLinks transaction.hash r.providedTags transaction.requires r.ready 0 with
      | none => (.panic, r)
      | some (ready, requiresOffset) =>
        let ref := ⟨transaction, r.insertionId⟩
        -- it goes to `best` if no required tag has a provider
        let goesToBest := transaction.requires.all fun tag => !r.providedTags.contains tag
        (.ok replaced, { r with
            providedTags := transaction.provides.foldl
              (fun tags tag => tags.insert tag transaction.hash) r.providedTags
            best := if goesToBest then insert TransactionRef.key r.best ref else r.best
            ready := ready.insert transaction.hash ⟨ref, unlocks, requiresOffset⟩ })

/-! ## Pruning tags -/

/-- Its entry and its provider leave the queue. -/
def popTag (r : ReadyTransactions H T) :
    List T → Option (T × ReadyTx H T × List T) × ReadyTransactions H T
  | [] => (none, r)
  | tag :: toRemove =>
    match r.providedTags.get? tag with
    | none => popTag r toRemove
    | some hash =>
      match r.ready.get? hash with
      | none => popTag { r with providedTags := r.providedTags.erase tag } toRemove
      | some tx =>
        (some (tag, tx, toRemove),
          { r with providedTags := r.providedTags.erase tag, ready := r.ready.erase hash })

/-- The provider of `tag` no longer unlocks `hash`, and its tags are pruned as well if it unlocks
nothing else. -/
def findPrevious (providedTags : FinMap T H) (s : FinMap H (ReadyTx H T) × List T) (tag : T) :
    FinMap H (ReadyTx H T) × List T :=
  match providedTags.get? tag with
  | none => s
  | some prevHash =>
    match s.1.get? prevHash with
    | none => s
    | some tx2 =>
      let unlocks := removeItem tx2.unlocks hash
      (s.1.insert prevHash { tx2 with unlocks },
        if unlocks.isEmpty then tx2.provides.reverse ++ s.2 else s.2)

/-- One more required tag is met from outside the queue. -/
def unlock (s : FinMap H (ReadyTx H T) × List (TransactionRef H T)) (hash : H) :
    FinMap H (ReadyTx H T) × List (TransactionRef H T) :=
  match s.1.get? hash with
  | none => s
  | some tx =>
    let requiresOffset := tx.requiresOffset + 1
    (s.1.insert hash { tx with requiresOffset },
      if requiresOffset = tx.requires.length then
        insert TransactionRef.key s.2 tx.transaction
      else s.2)

/-- `none` is the failed assertion on what was mapped. -/
def clearTags (currentTag : T) : List T → FinMap T H → Option (FinMap T H)
  | [], providedTags => some providedTags
  | tag :: tags, providedTags =>
    if providedTags.get? tag = (if currentTag = tag then none else some hash) then
      clearTags currentTag tags (providedTags.erase tag)
    else none

/-- For the transaction `tx`, taken out because of `tag`: the queue, and the tags still to be
pruned. -/
def pruneOne (tag : T) (tx : ReadyTx H T) (toRemove : List T) (r : ReadyTransactions H T) :
    Option (List T × ReadyTransactions H T) :=
  let best := remove TransactionRef.key r.best tx.transaction
  let (ready, toRemove) := tx.requires.foldl (findPrevious tx.hash r.providedTags) (r.ready, toRemove)
  let (ready, best) := tx.unlocks.foldl unlock (ready, best)
  (clearTags tx.hash tag tx.provides r.providedTags).map fun providedTags =>
    (toRemove, { r with providedTags, ready, best })

def pruneLoop : Nat → ReadyTransactions H T → List T → List (Transaction H T) →
    Option (List (Transaction H T) × ReadyTransactions H T)
  | 0, r, toRemove, removed => some (removed, (popTag r toRemove).2)
  | fuel + 1, r, toRemove, removed =>
    match popTag r toRemove with
    | (none, r) => some (removed, r)
    | (some (tag, tx, toRemove), r) =>
      match pruneOne tag tx toRemove r with
      | none => none
      | some (toRemove, r) => pruneLoop fuel r toRemove (removed ++ [tx.transaction.transaction])

def pruneTags (tag : T) : Option (List (Transaction H T) × ReadyTransactions H T) :=
  pruneLoop r.len r [tag] []

end ReadyTransactions

/-! ## The iterator -/

structure BestIterator (H T : Type) where
  all : FinMap H (ReadyTx H T)
  awaiting : FinMap H (Nat × TransactionRef H T)
  best : List (TransactionRef H T)

def ReadyTransactions.get (r : ReadyTransactions H T) : BestIterator H T :=
  ⟨r.ready, .empty, r.best⟩

namespace BestIterator

def bestOrAwaiting (it : BestIterator H T) (satisfied : Nat) (txRef : TransactionRef H T) :
    BestIterator H T :=
  if txRef.transaction.requires.length ≤ satisfied then
    { it with best := insert TransactionRef.key it.best txRef }
  else { it with awaiting := it.awaiting.insert txRef.transaction.hash (satisfied, txRef) }

def unlock (it : BestIterator H T) (hash : H) : BestIterator H T :=
  match it.awaiting.get? hash with
  | some (satisfied, txRef) =>
    { it with awaiting := it.awaiting.erase hash }.bestOrAwaiting (satisfied + 1) txRef
  | none =>
    match it.all.get? hash with
    | some next => it.bestOrAwaiting (next.requiresOffset + 1) next.transaction
    | none => it

/-- Every round takes one transaction out of `best`. -/
def nextLoop : Nat → BestIterator H T → Option (Transaction H T × BestIterator H T)
  | 0, _ => none
  | fuel + 1, it =>
    match last? TransactionRef.key it.best with
    | none => none
    | some best =>
      let it := { it with best := remove TransactionRef.key it.best best }
      match it.all.get? best.transaction.hash with
      | none => nextLoop fuel it
      | some ready => some (best.transaction, ready.unlocks.foldl unlock it)

def next (it : BestIterator H T) : Option (Transaction H T × BestIterator H T) :=
  nextLoop it.best.length it

def take : Nat → BestIterator H T → List (Transaction H T) × BestIterator H T
  | 0, it => ([], it)
  | n + 1, it =>
    match it.next with
    | none => ([], it)
    | some (tx, it) =>
      let (row, it) := take n it
      (tx :: row, it)

end BestIterator

end Substrate.TxPool
