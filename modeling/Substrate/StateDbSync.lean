import Substrate.NonCanonicalOverlay
import Substrate.RefWindow

/-!
# The state database

`StateDbSync` of `client/state-db/src/lib.rs`: the non-canonical overlay, the
pruning window behind it and the pins, under one pruning mode.
-/

namespace Substrate.StateDb

variable {H K V : Type}

structure Constraints where
  maxBlocks : Option Nat
  maxMem : Option Nat
deriving Repr, DecidableEq

inductive PruningMode where
  | constrained (constraints : Constraints)
  | archiveAll
  | archiveCanonical
deriving Repr, DecidableEq

def PruningMode.id : PruningMode → ModeId
  | .archiveAll => .archive
  | .archiveCanonical => .archiveCanonical
  | .constrained _ => .constrained

structure StateDbSync (H K V : Type) where
  mode : PruningMode
  nonCanonical : NonCanonicalOverlay H K V
  pruning : Option (RefWindow H K)
  pinned : FinMap H Nat

namespace StateDbSync

variable [DecidableEq H] [DecidableEq K]

def checkMeta (mode : PruningMode) (db : Db H K V) : Option Error :=
  match db.pruningMode with
  | some id => if id = mode.id then none else some (.invalidPruningMode id)
  | none => none

def new (mode : PruningMode) (refCounting : Bool) (db : Db H K V) :
    Outcome Error (StateDbSync H K V) :=
  match checkMeta mode db with
  | some e => .err e
  | none =>
    let nonCanonical := NonCanonicalOverlay.new db
    match mode with
    | .constrained ⟨_, some _⟩ => .panic
    | .constrained ⟨_, none⟩ =>
      match RefWindow.new db refCounting with
      | none => .panic
      | some window => .ok ⟨mode, nonCanonical, some window, .empty⟩
    | .archiveAll => .ok ⟨mode, nonCanonical, none, .empty⟩
    | .archiveCanonical => .ok ⟨mode, nonCanonical, none, .empty⟩

variable (s : StateDbSync H K V) (hash : H) (commit : CommitSet H K V)

def insertBlock (number : Nat) (parentHash : H) (changeset : ChangeSet K V) :
    Outcome Error (CommitSet H K V) × StateDbSync H K V :=
  -- save pruning mode when writing first block
  let metaInserted := if number = 0 then [.pruningMode s.mode.id] else []
  match s.mode with
  | .archiveAll =>
    -- write changes immediately
    (.ok ⟨{ changeset with deleted := [] }, metaInserted, []⟩, s)
  | .constrained _ | .archiveCanonical =>
    let (commit, nonCanonical) := s.nonCanonical.insert hash number parentHash changeset
    (commit.map fun c => { c with metaInserted := c.metaInserted ++ metaInserted },
      { s with nonCanonical := nonCanonical })

/-- At most `fuel` rows are pruned. -/
def pruneRows (constraints : Constraints) (pinned : FinMap H Nat) :
    Nat → RefWindow H K → CommitSet H K V → CommitSet H K V × RefWindow H K
  | 0, w, commit => (commit, w)
  | fuel + 1, w, commit =>
    if w.windowSize ≤ constraints.maxBlocks.getD 0 then (commit, w)
    else if (constraints.maxMem.any fun m => w.memUsed > m) = true then (commit, w)
    else if (w.nextHash.any fun h => pinned.contains h) = true then (commit, w)
    else
      let (commit, w) := w.pruneOne commit
      pruneRows constraints pinned fuel w commit

/-- Every round makes the window one block smaller, so its size bounds the loop. -/
def prune : CommitSet H K V × StateDbSync H K V :=
  match s.pruning, s.mode with
  | some w, .constrained constraints =>
    let (commit, w) := pruneRows constraints s.pinned w.windowSize w commit
    (commit, { s with pruning := some w })
  | _, _ => (commit, s)

def noteCanonical : Option (CommitSet H K V × StateDbSync H K V) :=
  match s.pruning with
  | none => some (commit, s)
  | some w =>
    match w.noteCanonical hash commit with
    | none => none
    | some (commit, w) => some (commit, { s with pruning := some w })

def canonicalizeBlock : Outcome Error (CommitSet H K V) × StateDbSync H K V :=
  if s.mode = .archiveAll then (.ok .empty, s)
  else
    match s.nonCanonical.canonicalize hash .empty with
    | (.err e, nonCanonical) => (.err e, { s with nonCanonical := nonCanonical })
    | (.panic, nonCanonical) => (.panic, { s with nonCanonical := nonCanonical })
    | (.ok commit, nonCanonical) =>
      let commit :=
        if s.mode = .archiveCanonical then
          { commit with data := { commit.data with deleted := [] } }
        else commit
      match noteCanonical { s with nonCanonical := nonCanonical } hash commit with
      | none => (.panic, { s with nonCanonical := nonCanonical })
      | some (commit, s) =>
        let (commit, s) := s.prune commit
        (.ok commit, s)

def bestCanonical : Option Nat :=
  s.nonCanonical.lastCanonicalizedBlockNumber

def isPruned (number : Nat) : Bool :=
  match s.mode with
  | .archiveAll => false
  | .archiveCanonical | .constrained _ =>
    if s.bestCanonical.all (fun c => number > c) then !s.nonCanonical.haveBlock hash
    else
      match s.pruning with
      | none => false
      | some w => decide (number < w.pending) || !w.haveBlock hash

def get (key : K) (db : Db H K V) : Option V :=
  match s.nonCanonical.get key with
  | some value => some value
  | none => db.data.get? key

def applyPending : Option (StateDbSync H K V) :=
  match s.nonCanonical.applyPending with
  | none => none
  | some nonCanonical =>
    match s.pruning with
    | none => some { s with nonCanonical := nonCanonical }
    | some w =>
      match w.applyPending with
      | none => none
      | some w => some { s with nonCanonical := nonCanonical, pruning := some w }

end StateDbSync

end Substrate.StateDb
