import Substrate.FinMap
import Substrate.Outcome

/-!
# The transactional overlay map

`primitives/state-machine/src/overlayed_changes/changeset.rs`. An `OverlayedMap` stores for each
changed key the versions of its value, one for each open transaction that wrote it and possibly one
committed before, and for each open transaction the keys it wrote (`dirty_keys`). Both stacks are
lists with the innermost first.

A failed `expect` is `none` in the helpers and `Outcome.panic` in the calls; the state after a panic
is not modelled.
-/

namespace Substrate

inductive OverlayError where
  | noOpenTransaction
  | alreadyInRuntime
  | notInRuntime
deriving Repr, DecidableEq

inductive ExecutionMode where
  | client
  | runtime
deriving Repr, DecidableEq

/-- Oldest first. -/
abbrev Extrinsics := List Nat

def Extrinsics.copyExtrinsicsInto (es : Extrinsics) (dest : KeySet Nat) : KeySet Nat :=
  es.foldl (fun dest ext => (dest.insert ext).2) dest

def Extrinsics.insert (es : Extrinsics) (ext : Nat) : Extrinsics :=
  if some ext ≠ es.getLast? then es ++ [ext] else es

structure InnerValue (V : Type) where
  value : V
  extrinsics : Extrinsics
deriving Repr, DecidableEq

structure OverlayedEntry (V : Type) where
  transactions : List (InnerValue V)
deriving Repr, DecidableEq

namespace OverlayedEntry

variable {V : Type}

def default : OverlayedEntry V := ⟨[]⟩

variable (e : OverlayedEntry V)

def valueRef : Option V := e.transactions.head?.map InnerValue.value

def extrinsics : KeySet Nat :=
  e.transactions.reverse.foldl (fun set t => t.extrinsics.copyExtrinsicsInto set) .empty

def set (value : V) (firstWriteInTx : Bool) (atExtrinsic : Option Nat) : OverlayedEntry V :=
  let written : InnerValue V × List (InnerValue V) :=
    match firstWriteInTx, e.transactions with
    | false, last :: rest => ({ last with value := value }, rest)
    | _, transactions => (⟨value, []⟩, transactions)
  match atExtrinsic with
  | some extrinsic =>
    ⟨{ written.1 with extrinsics := written.1.extrinsics.insert extrinsic } :: written.2⟩
  | none => ⟨written.1 :: written.2⟩

def assign (f : V → V) : OverlayedEntry V :=
  match e.transactions with
  | last :: rest => ⟨{ last with value := f last.value } :: rest⟩
  | [] => e

end OverlayedEntry

/-- Returns whether there is an open transaction and this is its first write to the key. -/
def insertDirty {K : Type} [DecidableEq K] (sets : List (KeySet K)) (key : K) :
    Bool × List (KeySet K) :=
  match sets with
  | [] => (false, [])
  | last :: rest => ((last.insert key).1, (last.insert key).2 :: rest)

structure OverlayedMap (K V : Type) where
  changes : FinMap K (OverlayedEntry V)
  dirtyKeys : List (KeySet K)
  numClientTransactions : Nat
  executionMode : ExecutionMode

namespace OverlayedMap

variable {K V : Type}

def default : OverlayedMap K V := ⟨.empty, [], 0, .client⟩

section

variable (m : OverlayedMap K V)

def transactionDepth : Nat := m.dirtyKeys.length

def spawnChild : OverlayedMap K V :=
  ⟨.empty, List.replicate m.transactionDepth .empty, m.numClientTransactions, m.executionMode⟩

def isEmpty : Bool := m.changes.isEmpty

def get (key : K) : Option (OverlayedEntry V) := m.changes.get? key

def hasOpenRuntimeTransactions : Bool :=
  m.transactionDepth > m.numClientTransactions

def startTransaction : OverlayedMap K V :=
  { m with dirtyKeys := .empty :: m.dirtyKeys }

def enterRuntime : Outcome OverlayError Unit × OverlayedMap K V :=
  match m.executionMode with
  | .runtime => (.err .alreadyInRuntime, m)
  | .client =>
    (.ok (), { m with
      executionMode := .runtime
      numClientTransactions := m.transactionDepth })

end

variable [DecidableEq K]

section

variable (m : OverlayedMap K V) (rollback : Bool)

def set (key : K) (value : V) (atExtrinsic : Option Nat) : OverlayedMap K V :=
  let overlayed := (m.changes.get? key).getD .default
  let dirty := insertDirty m.dirtyKeys key
  { m with
    changes := m.changes.insert key (overlayed.set value dirty.1 atExtrinsic)
    dirtyKeys := dirty.2 }

/-- The body of the loop of `close_transaction`, for one dirty key. -/
def closeKey (s : FinMap K (OverlayedEntry V) × List (KeySet K)) (key : K) :
    Option (FinMap K (OverlayedEntry V) × List (KeySet K)) :=
  let (changes, dirtyKeys) := s
  match changes.get? key with
  | none => none
  | some overlayed =>
    if rollback then
      match overlayed.transactions with
      | [] => none
      | _ :: rest =>
        if rest.isEmpty then some (changes.erase key, dirtyKeys)
        else some (changes.insert key ⟨rest⟩, dirtyKeys)
    else
      let (hasPredecessor, dirtyKeys) :=
        match dirtyKeys with
        -- not the last tx: did the previous tx write to this key?
        | parent :: rest => (!(parent.insert key).1, (parent.insert key).2 :: rest)
        -- last tx: is there already a value in the committed set?
        | [] => (decide (overlayed.transactions.length > 1), [])
      if hasPredecessor then
        match overlayed.transactions with
        | dropped :: previous :: rest =>
          some (changes.insert key
            ⟨⟨dropped.value, previous.extrinsics ++ dropped.extrinsics⟩ :: rest⟩, dirtyKeys)
        | _ => none
      else some (changes, dirtyKeys)

def closeTransaction : Outcome OverlayError Unit × OverlayedMap K V :=
  -- runtime is not allowed to close transactions started by the client
  if m.executionMode = .runtime ∧ m.hasOpenRuntimeTransactions = false then
    (.err .noOpenTransaction, m)
  else
    match m.dirtyKeys with
    | [] => (.err .noOpenTransaction, m)
    | dirty :: rest =>
      match dirty.keys.foldlM (closeKey rollback) (m.changes, rest) with
      | none => (.panic, m)
      | some (changes, dirtyKeys) => (.ok (), { m with changes := changes, dirtyKeys := dirtyKeys })

def rollbackTransaction : Outcome OverlayError Unit × OverlayedMap K V :=
  m.closeTransaction true

def commitTransaction : Outcome OverlayError Unit × OverlayedMap K V :=
  m.closeTransaction false

/-- The loop of `exit_runtime`; it closes at most `fuel` transactions. -/
def rollbackRuntime : (fuel : Nat) → OverlayedMap K V → Outcome OverlayError Unit × OverlayedMap K V
  | 0, m => (.ok (), m)
  | fuel + 1, m =>
    if m.hasOpenRuntimeTransactions then
      match m.rollbackTransaction with
      | (.ok _, m) => rollbackRuntime fuel m
      | (_, m) => (.panic, m)
    else (.ok (), m)

def exitRuntime : Outcome OverlayError Unit × OverlayedMap K V :=
  match m.executionMode with
  | .client => (.err .notInRuntime, m)
  | .runtime => rollbackRuntime m.transactionDepth { m with executionMode := .client }

end

/-! ## Change sets of optional values -/

variable {S : Type}

def modify (m : OverlayedMap K (Option S)) (key : K) (init : S) (atExtrinsic : Option Nat)
    (f : Option S → Option S) : OverlayedMap K (Option S) :=
  let overlayed := (m.changes.get? key).getD .default
  let dirty := insertDirty m.dirtyKeys key
  let cloneIntoNewTx : Option (Option S) :=
    match overlayed.transactions with
    | tx :: _ => if dirty.1 then some tx.value else none
    | [] => some (some init)
  let overlayed :=
    match cloneIntoNewTx with
    | some cloned => overlayed.set cloned dirty.1 atExtrinsic
    | none => overlayed
  { m with
    changes := m.changes.insert key (overlayed.assign f)
    dirtyKeys := dirty.2 }

def matching (m : OverlayedMap K V) (predicate : K → OverlayedEntry V → Bool) (key : K) : Bool :=
  (m.changes.get? key).any (predicate key)

/-- The loop writes to a key only after the predicate was asked about it. -/
def clearWhere (m : OverlayedMap K (Option S))
    (predicate : K → OverlayedEntry (Option S) → Bool) (atExtrinsic : Option Nat) :
    OverlayedMap K (Option S) :=
  (m.changes.keys.filter (m.matching predicate)).foldl (fun m key => m.set key none atExtrinsic) m

end OverlayedMap

end Substrate
