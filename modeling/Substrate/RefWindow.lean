import Substrate.StateDbTypes

/-!
# The pruning window

`client/state-db/src/pruning.rs`: for every canonical block in the window, the keys that die with
it. A key that is inserted again is taken out of its death row; `deathIndex` knows the row. Prunings
and canonicalizations are pending until `applyPending`.
-/

namespace Substrate.StateDb

variable {H K V : Type}

/-- `journalKey` is the number its journal record is stored under. -/
structure DeathRow (H K : Type) where
  hash : H
  journalKey : Nat
  deleted : KeySet K

structure RefWindow (H K : Type) where
  deathRows : List (DeathRow H K)
  deathIndex : FinMap K Nat
  pendingNumber : Nat
  pendingCanonicalizations : Nat
  pendingPrunings : Nat
  countInsertions : Bool

namespace RefWindow

variable [DecidableEq H] [DecidableEq K] (w : RefWindow H K) (hash : H) (commit : CommitSet H K V)

def reinsert (k : K) : Option (RefWindow H K) :=
  match w.deathIndex.get? k with
  | none => some w
  | some block =>
    match w.deathRows[block - w.pendingNumber]? with
    | none => none
    | some row =>
      some { w with
        deathIndex := w.deathIndex.erase k
        deathRows := w.deathRows.set (block - w.pendingNumber)
          { row with deleted := row.deleted.erase k } }

def importBlock (journalKey : Nat) (inserted deleted : List K) : Option (RefWindow H K) :=
  -- remove all re-inserted keys from death rows
  match if w.countInsertions then inserted.foldlM reinsert w else some w with
  | none => none
  | some w =>
    let importedBlock := w.pendingNumber + w.deathRows.length
    some { w with
      -- add new keys
      deathIndex :=
        if w.countInsertions then
          deleted.foldl (fun m k => m.insert k importedBlock) w.deathIndex
        else w.deathIndex
      deathRows := w.deathRows ++ [⟨hash, journalKey, .ofList deleted⟩] }

def readJournal (db : Db H K V) : Nat → Nat → RefWindow H K → Option (RefWindow H K)
  | 0, _, w => some w
  | fuel + 1, block, w =>
    match db.pruningJournal.get? block with
    | none => some w
    | some record =>
      match w.importBlock record.hash block record.inserted record.deleted with
      | none => none
      | some w => readJournal db fuel (block + 1) w

/-- The number of journal records bounds the loop. -/
def new (db : Db H K V) (countInsertions : Bool) : Option (RefWindow H K) :=
  let pendingNumber :=
    match db.lastPruned with
    | some n => n + 1
    | none => 0
  readJournal db (db.pruningJournal.keys.length + 1) pendingNumber
    { deathRows := []
      deathIndex := .empty
      pendingNumber := pendingNumber
      pendingCanonicalizations := 0
      pendingPrunings := 0
      countInsertions := countInsertions }

def windowSize : Nat := w.deathRows.length - w.pendingPrunings

def nextHash : Option H :=
  (w.deathRows[w.pendingPrunings]?).map DeathRow.hash

def memUsed (_ : RefWindow H K) : Nat := 0

def pending : Nat := w.pendingNumber + w.pendingPrunings

def haveBlock : Bool :=
  (w.deathRows.drop w.pendingPrunings).any fun row => row.hash = hash

def pruneOne : CommitSet H K V × RefWindow H K :=
  match w.deathRows[w.pendingPrunings]? with
  | none => (commit, w)
  | some row =>
    ({ data := ⟨commit.data.inserted, commit.data.deleted ++ row.deleted.keys⟩
       metaInserted := commit.metaInserted ++ [.lastPruned (w.pendingNumber + w.pendingPrunings)]
       metaDeleted := commit.metaDeleted ++ [.pruningJournal row.journalKey] },
      { w with pendingPrunings := w.pendingPrunings + 1 })

def noteCanonical : Option (CommitSet H K V × RefWindow H K) :=
  let inserted := if w.countInsertions then commit.data.inserted.map Prod.fst else []
  let deleted := commit.data.deleted
  let block := w.pendingNumber + w.deathRows.length
  match w.importBlock hash block inserted deleted with
  | none => none
  | some w' =>
    some ({ data := ⟨commit.data.inserted, []⟩
            metaInserted :=
              commit.metaInserted ++ [.pruningJournal block ⟨hash, inserted, deleted⟩]
            metaDeleted := commit.metaDeleted },
      { w' with pendingCanonicalizations := w'.pendingCanonicalizations + 1 })

def popFront : Option (RefWindow H K) :=
  match w.deathRows with
  | [] => none
  | row :: rows =>
    some { w with
      deathRows := rows
      deathIndex :=
        if w.countInsertions then row.deleted.keys.foldl FinMap.erase w.deathIndex
        else w.deathIndex
      pendingNumber := w.pendingNumber + 1 }

def popPruned : Nat → RefWindow H K → Option (RefWindow H K)
  | 0, w => some w
  | n + 1, w =>
    match w.popFront with
    | none => none
    | some w => popPruned n w

def applyPending : Option (RefWindow H K) :=
  match popPruned w.pendingPrunings w with
  | none => none
  | some w => some { w with pendingCanonicalizations := 0, pendingPrunings := 0 }

end RefWindow

end Substrate.StateDb
