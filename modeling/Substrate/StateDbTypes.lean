import Substrate.FinMap

/-!
# Changes to the backing database

The types that `client/state-db/src/lib.rs` exchanges with its callers and its backing database. The
metadata is kept decoded: the five key spaces have encodings of different lengths, so no two typed
keys share an encoded one, and a record is only ever decoded from what was encoded under the same
typed key. `Db.commit` is what a plain key/value map does with a commit set: all insertions, then
all deletions.
-/

namespace Substrate.StateDb

variable {H K V : Type}

structure ChangeSet (K V : Type) where
  inserted : List (K × V)
  deleted : List K
deriving Repr, DecidableEq

/-- Of a block in the non-canonical overlay. -/
structure JournalRecord (H K V : Type) where
  hash : H
  parentHash : H
  inserted : List (K × V)
  deleted : List K
deriving Repr, DecidableEq

/-- Of a block in the pruning window. -/
structure PruningRecord (H K : Type) where
  hash : H
  inserted : List K
  deleted : List K
deriving Repr, DecidableEq

inductive ModeId where
  | archive
  | archiveCanonical
  | constrained
deriving Repr, DecidableEq

/-- A suffix and the data encoded in front of it. -/
inductive MetaKey where
  | lastCanonical
  | nonCanonicalJournal (block index : Nat)
  | lastPruned
  | pruningJournal (block : Nat)
  | pruningMode
deriving Repr, DecidableEq

inductive MetaEntry (H K V : Type) where
  | lastCanonical (hash : H) (number : Nat)
  | nonCanonicalJournal (block index : Nat) (record : JournalRecord H K V)
  | lastPruned (number : Nat)
  | pruningJournal (block : Nat) (record : PruningRecord H K)
  | pruningMode (id : ModeId)
deriving Repr, DecidableEq

structure CommitSet (H K V : Type) where
  data : ChangeSet K V
  metaInserted : List (MetaEntry H K V)
  metaDeleted : List MetaKey
deriving Repr, DecidableEq

def CommitSet.empty : CommitSet H K V := ⟨⟨[], []⟩, [], []⟩

/-- Database and decoding errors do not occur on a plain map that only holds what was written to it.
-/
inductive Error where
  | invalidBlock
  | invalidBlockNumber
  | invalidParent
  | invalidPruningMode (expected : ModeId)
  | tooManySiblingBlocks
deriving Repr, DecidableEq

structure Db (H K V : Type) where
  data : FinMap K V
  lastCanonical : Option (H × Nat)
  journal : FinMap (Nat × Nat) (JournalRecord H K V)
  lastPruned : Option Nat
  pruningJournal : FinMap Nat (PruningRecord H K)
  pruningMode : Option ModeId

namespace Db

def insertMeta (db : Db H K V) : MetaEntry H K V → Db H K V
  | .lastCanonical hash number => { db with lastCanonical := some (hash, number) }
  | .nonCanonicalJournal block index record =>
    { db with journal := db.journal.insert (block, index) record }
  | .lastPruned number => { db with lastPruned := some number }
  | .pruningJournal block record =>
    { db with pruningJournal := db.pruningJournal.insert block record }
  | .pruningMode id => { db with pruningMode := some id }

def removeMeta (db : Db H K V) : MetaKey → Db H K V
  | .lastCanonical => { db with lastCanonical := none }
  | .nonCanonicalJournal block index => { db with journal := db.journal.erase (block, index) }
  | .lastPruned => { db with lastPruned := none }
  | .pruningJournal block => { db with pruningJournal := db.pruningJournal.erase block }
  | .pruningMode => { db with pruningMode := none }

def commit [DecidableEq K] (db : Db H K V) (c : CommitSet H K V) : Db H K V :=
  let data := c.data.inserted.foldl (fun m kv => m.insert kv.1 kv.2) db.data
  let db := { db with data := c.data.deleted.foldl FinMap.erase data }
  c.metaDeleted.foldl removeMeta (c.metaInserted.foldl insertMeta db)

/-! ## What a commit changes -/

@[simp] theorem data_insertMeta (db : Db H K V) (e : MetaEntry H K V) :
    (db.insertMeta e).data = db.data := by
  cases e <;> rfl

@[simp] theorem data_removeMeta (db : Db H K V) (k : MetaKey) :
    (db.removeMeta k).data = db.data := by
  cases k <;> rfl

theorem data_foldl_insertMeta (es : List (MetaEntry H K V)) (db : Db H K V) :
    (es.foldl insertMeta db).data = db.data := by
  induction es generalizing db with
  | nil => rfl
  | cons e es ih => rw [List.foldl_cons, ih, data_insertMeta]

theorem data_foldl_removeMeta (ks : List MetaKey) (db : Db H K V) :
    (ks.foldl removeMeta db).data = db.data := by
  induction ks generalizing db with
  | nil => rfl
  | cons k ks ih => rw [List.foldl_cons, ih, data_removeMeta]

variable [DecidableEq K]

theorem data_commit (db : Db H K V) (c : CommitSet H K V) :
    (db.commit c).data = c.data.deleted.foldl FinMap.erase
      (c.data.inserted.foldl (fun m kv => m.insert kv.1 kv.2) db.data) := by
  rw [commit, data_foldl_removeMeta, data_foldl_insertMeta]

end Db

end Substrate.StateDb
