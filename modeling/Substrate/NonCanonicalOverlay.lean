import Mathlib.Algebra.Ring.Nat
import Substrate.BitMask
import Substrate.Outcome
import Substrate.RefCount
import Substrate.StateDbTypes

/-!
# The non-canonical overlay

`client/state-db/src/noncanonical.rs`: the blocks above the last canonicalized one, kept in memory
as a queue of levels, one per block number, and journaled in the database. Their states share one
table of reference-counted values. Canonicalizations and insertions are pending until `applyPending`
or `revertPending`; a discarded block that a pin still needs moves to `pinnedInsertions`.

A failed `expect` is `none` in the helper functions and `Outcome.panic` in the calls that also
return errors. The debug assertions are not executed: that a value inserted again is the same, that
a discarded one is there, and that `remove` only empties the last level.
-/

namespace Substrate.StateDb

variable {H K V : Type}

def maxBlocksPerLevel : Nat := 32

/-- `journalKey` is the block number and the index its journal record is stored under. -/
structure BlockOverlay (H K : Type) where
  hash : H
  journalIndex : Nat
  journalKey : Nat × Nat
  inserted : List K
  deleted : List K
deriving Repr, DecidableEq

structure OverlayLevel (H K : Type) where
  blocks : List (BlockOverlay H K)
  usedIndicies : BitVec 64

namespace OverlayLevel

def new : OverlayLevel H K := ⟨[], 0⟩

def push (level : OverlayLevel H K) (overlay : BlockOverlay H K) : OverlayLevel H K :=
  ⟨level.blocks ++ [overlay], BitMask.setBit level.usedIndicies overlay.journalIndex⟩

def availableIndex (level : OverlayLevel H K) : Nat := BitMask.trailingOnes level.usedIndicies

def remove (level : OverlayLevel H K) (index : Nat) :
    Option (BlockOverlay H K × OverlayLevel H K) :=
  match level.blocks[index]? with
  | none => none
  | some overlay =>
    some (overlay, ⟨level.blocks.eraseIdx index,
      BitMask.clearBit level.usedIndicies overlay.journalIndex⟩)

end OverlayLevel

/-- A block's parent, the values its state needs, and what pins keep of it once it is discarded. -/
structure Tables (H K V : Type) where
  parents : FinMap H H
  values : FinMap K (Nat × V)
  pinnedInsertions : FinMap H (List K × Nat)

variable [DecidableEq H] [DecidableEq K]

def insertValues (values : FinMap K (Nat × V)) (inserted : List (K × V)) : FinMap K (Nat × V) :=
  inserted.foldl (fun m kv => RefCount.retain m kv.1 kv.2) values

def discardValues (values : FinMap K (Nat × V)) (inserted : List K) : FinMap K (Nat × V) :=
  inserted.foldl RefCount.release values

/-- Drop a block that was taken out of the levels, or keep its insertions as long as the `numPinned`
pinned blocks need them. -/
def Tables.dispose (t : Tables H K V) (overlay : BlockOverlay H K) (numPinned : Nat) :
    Tables H K V :=
  if numPinned ≠ 0 then
    { t with pinnedInsertions :=
        t.pinnedInsertions.insert overlay.hash (overlay.inserted, numPinned) }
  else
    { t with
      parents := t.parents.erase overlay.hash
      values := discardValues t.values overlay.inserted }

def pinnedCount (pinned : FinMap H Nat) (hash : H) : Nat := if pinned.contains hash then 1 else 0

def childPosition (parents : FinMap H H) (hash : H) : List (BlockOverlay H K) → Option (Option Nat)
  | [] => some none
  | overlay :: blocks =>
    match parents.get? overlay.hash with
    | none => none
    | some parent =>
      if parent = hash then some (some 0)
      else (childPosition parents hash blocks).map (Option.map (· + 1))

/-- The loop of `discard_descendants` over one level, each child after its own descendants in the
levels above. Returns how many pinned blocks were met. -/
def discardChildren (descend : List (OverlayLevel H K) → Tables H K V → H →
      Option (Nat × List (OverlayLevel H K) × Tables H K V))
    (pinned : FinMap H Nat) (hash : H) :
    Nat → OverlayLevel H K → List (OverlayLevel H K) → Tables H K V →
      Option (Nat × List (OverlayLevel H K) × Tables H K V)
  | 0, level, rest, t => some (0, level :: rest, t)
  | fuel + 1, level, rest, t =>
    match childPosition t.parents hash level.blocks with
    | none => none
    | some none => some (0, level :: rest, t)
    | some (some i) =>
      match level.remove i with
      | none => none
      | some (overlay, level) =>
        match descend rest t overlay.hash with
        | none => none
        | some (n, rest, t) =>
          let numPinned := n + pinnedCount pinned overlay.hash
          match discardChildren descend pinned hash fuel level rest
              (t.dispose overlay numPinned) with
          | none => none
          | some (m, levels, t) => some (numPinned + m, levels, t)

/-- The number of levels bounds the recursion. -/
def discardDescendants (pinned : FinMap H Nat) : Nat → List (OverlayLevel H K) → Tables H K V → H →
      Option (Nat × List (OverlayLevel H K) × Tables H K V)
  | depth + 1, level :: rest, t, hash =>
    discardChildren (discardDescendants pinned depth) pinned hash (level.blocks.length + 1)
      level rest t
  | _, levels, t, _ => some (0, levels, t)

structure NonCanonicalOverlay (H K V : Type) extends Tables H K V where
  lastCanonicalized : Option (H × Nat)
  levels : List (OverlayLevel H K)
  pendingCanonicalizations : List H
  pendingInsertions : List H
  pinned : FinMap H Nat

namespace NonCanonicalOverlay

/-! ## Reading the journal -/

def overlayOf (block index : Nat) (record : JournalRecord H K V) : BlockOverlay H K where
  hash := record.hash
  journalIndex := index
  journalKey := (block, index)
  inserted := record.inserted.map Prod.fst
  deleted := record.deleted

def readRecord (db : Db H K V) (block : Nat) (s : OverlayLevel H K × Tables H K V)
    (index : Nat) : OverlayLevel H K × Tables H K V :=
  match db.journal.get? (block, index) with
  | none => s
  | some record =>
    (s.1.push (overlayOf block index record), { s.2 with
        values := insertValues s.2.values record.inserted
        parents := s.2.parents.insert record.hash record.parentHash })

def readLevel (db : Db H K V) (block : Nat) (t : Tables H K V) : OverlayLevel H K × Tables H K V :=
  (List.range maxBlocksPerLevel).foldl (readRecord db block) (.new, t)

/-- Up to the first empty level. -/
def readLevels (db : Db H K V) : Nat → Nat → Tables H K V → List (OverlayLevel H K) × Tables H K V
  | 0, _, t => ([], t)
  | fuel + 1, block, t =>
    let (level, t) := readLevel db block t
    if level.blocks.isEmpty then ([], t)
    else
      let (levels, t) := readLevels db fuel (block + 1) t
      (level :: levels, t)

/-- A level that is not empty has a journal record, so the number of records bounds the loop. -/
def new (db : Db H K V) : NonCanonicalOverlay H K V :=
  let read : List (OverlayLevel H K) × Tables H K V :=
    match db.lastCanonical with
    | none => ([], ⟨.empty, .empty, .empty⟩)
    | some (_, block) =>
      readLevels db (db.journal.keys.length + 1) (block + 1) ⟨.empty, .empty, .empty⟩
  { toTables := read.2
    lastCanonicalized := db.lastCanonical
    levels := read.1
    pendingCanonicalizations := []
    pendingInsertions := []
    pinned := .empty }

/-! ## Inserting a block -/

variable (o : NonCanonicalOverlay H K V) (hash : H) (number : Nat) (parentHash : H)

def frontBlockNumber : Nat :=
  match o.lastCanonicalized with
  | some (_, n) => n + 1
  | none => 0

def insertError : Option Error :=
  match o.lastCanonicalized with
  | none => none
  | some (h, n) =>
    if number < o.frontBlockNumber ∨ number ≥ o.frontBlockNumber + o.levels.length + 1 then
      some .invalidBlockNumber
    -- check for valid parent if inserting on second level or higher
    else if number = o.frontBlockNumber then
      if h = parentHash ∧ n = number - 1 then none else some .invalidParent
    else if o.parents.contains parentHash then none
    else some .invalidParent

def insertAt (o : NonCanonicalOverlay H K V) (index : Nat) (hash : H) (number : Nat)
    (parentHash : H) (changeset : ChangeSet K V) (metaInserted : List (MetaEntry H K V)) :
    Outcome Error (CommitSet H K V) × NonCanonicalOverlay H K V :=
  match o.levels[index]? with
  | none => (.panic, o)
  | some level =>
    if level.blocks.length ≥ maxBlocksPerLevel then (.err .tooManySiblingBlocks, o)
    else
      let journalIndex := level.availableIndex
      let record : JournalRecord H K V :=
        ⟨hash, parentHash, changeset.inserted, changeset.deleted⟩
      (.ok { data := ⟨[], []⟩
             metaInserted :=
               metaInserted ++ [.nonCanonicalJournal number journalIndex record]
             metaDeleted := [] },
        { o with
          levels := o.levels.set index (level.push (overlayOf number journalIndex record))
          parents := o.parents.insert hash parentHash
          values := insertValues o.values changeset.inserted
          pendingInsertions := o.pendingInsertions ++ [hash] })

def insert (changeset : ChangeSet K V) :
    Outcome Error (CommitSet H K V) × NonCanonicalOverlay H K V :=
  let front := o.frontBlockNumber
  let assumed := o.levels.isEmpty ∧ o.lastCanonicalized.isNone ∧ number > 0
  match if assumed then none else o.insertError number parentHash with
  | some e => (.err e, o)
  | none =>
    -- assume that parent was canonicalized
    let metaInserted := if assumed then [.lastCanonical parentHash (number - 1)] else []
    let lastCanonicalized :=
      if assumed then some (parentHash, number - 1) else o.lastCanonicalized
    let onTop := o.levels.isEmpty ∨ number = front + o.levels.length
    let levels := if onTop then o.levels ++ [.new] else o.levels
    let index := if onTop then o.levels.length else number - front
    insertAt { o with lastCanonicalized := lastCanonicalized, levels := levels } index hash
      number parentHash changeset metaInserted

/-! ## Canonicalizing a block -/

/-- The results of `f` along a list, appended. -/
def collect {α β γ : Type} (f : α → Option (List β × List γ)) : List α → Option (List β × List γ)
  | [] => some ([], [])
  | a :: as =>
    match f a with
    | none => none
    | some (bs, cs) =>
      match collect f as with
      | none => none
      | some (bs', cs') => some (bs ++ bs', cs ++ cs')

/-- The journal keys and hashes of the descendants of `hash`. -/
def discardJournals (parents : FinMap H H) :
    List (OverlayLevel H K) → H → Option (List (Nat × Nat) × List H)
  | [], _ => some ([], [])
  | level :: rest, hash =>
    collect (fun overlay =>
      match parents.get? overlay.hash with
      | none => none
      | some parent =>
        if parent = hash then
          (discardJournals parents rest overlay.hash).map fun (journals, blocks) =>
            (overlay.journalKey :: journals, overlay.hash :: blocks)
        else some ([], []))
      level.blocks

/-- The loop of `canonicalize` over its level: everything in it and all descendants of the blocks
other than the one at `index`. -/
def discardedJournals (parents : FinMap H H) (rest : List (OverlayLevel H K)) (index : Nat) :
    Nat → List (BlockOverlay H K) → Option (List (Nat × Nat) × List H)
  | _, [] => some ([], [])
  | i, overlay :: blocks =>
    match if i ≠ index then discardJournals parents rest overlay.hash else some ([], []) with
    | none => none
    | some (journals, hashes) =>
      match discardedJournals parents rest index (i + 1) blocks with
      | none => none
      | some (journals', hashes') =>
        some (journals ++ overlay.journalKey :: journals', hashes ++ overlay.hash :: hashes')

def insertedValues (values : FinMap K (Nat × V)) (inserted : List K) : Option (List (K × V)) :=
  inserted.mapM fun k => (values.get? k).map fun entry => (k, entry.2)

/-- The discarded hashes are collected, but nothing reads them. -/
def canonicalize (commit : CommitSet H K V) :
    Outcome Error (CommitSet H K V) × NonCanonicalOverlay H K V :=
  match o.levels[o.pendingCanonicalizations.length]? with
  | none => (.err .invalidBlock, o)
  | some level =>
    match level.blocks.findIdx? (fun overlay => overlay.hash = hash) with
    | none => (.err .invalidBlock, o)
    | some index =>
      match level.blocks[index]?, discardedJournals o.parents
            (o.levels.drop (o.pendingCanonicalizations.length + 1)) index 0 level.blocks with
      | some overlay, some (journals, _) =>
        match insertedValues o.values overlay.inserted with
        | none => (.panic, o)
        | some inserted =>
          (.ok { data := ⟨commit.data.inserted ++ inserted, commit.data.deleted ++ overlay.deleted⟩
                 metaInserted := commit.metaInserted ++ [.lastCanonical hash
                     (o.frontBlockNumber + o.pendingCanonicalizations.length)]
                 metaDeleted := commit.metaDeleted ++
                   journals.map fun key => .nonCanonicalJournal key.1 key.2 },
            { o with
              pendingCanonicalizations := o.pendingCanonicalizations ++ [hash] })
      | _, _ => (.panic, o)

/-- Apart from the descendants of its block at `index`. -/
def discardLevel (pinned : FinMap H Nat) (index : Nat) :
    Nat → List (BlockOverlay H K) → List (OverlayLevel H K) → Tables H K V →
      Option (List (OverlayLevel H K) × Tables H K V)
  | _, [], rest, t => some (rest, t)
  | i, overlay :: blocks, rest, t =>
    match if i ≠ index then discardDescendants pinned rest.length rest t overlay.hash
      else some (0, rest, t) with
    | none => none
    | some (n, rest, t) =>
      discardLevel pinned index (i + 1) blocks rest
        (t.dispose overlay (n + pinnedCount pinned overlay.hash))

/-- One round of `apply_canonicalizations`. -/
def applyCanonicalization : Option (NonCanonicalOverlay H K V) :=
  match o.levels with
  | [] => none
  | level :: rest =>
    match level.blocks.findIdx? (fun overlay => overlay.hash = hash) with
    | none => none
    | some index =>
      match discardLevel o.pinned index 0 level.blocks rest o.toTables with
      | none => none
      | some (rest, t) => some { o with toTables := t, levels := rest }

def canonicalHead : Option (H × Nat) :=
  match o.pendingCanonicalizations.getLast? with
  | none => o.lastCanonicalized
  | some hash =>
    match o.lastCanonicalized with
    | some (_, n) => some (hash, n + o.pendingCanonicalizations.length)
    | none => some (hash, o.pendingCanonicalizations.length - 1)

def applyPending : Option (NonCanonicalOverlay H K V) :=
  match o.pendingCanonicalizations.foldlM applyCanonicalization o with
  | none => none
  | some o' =>
    some { o' with
      pendingCanonicalizations := []
      pendingInsertions := []
      lastCanonicalized := o.canonicalHead }

/-! ## Queries -/

def lastCanonicalizedBlockNumber : Option Nat :=
  match o.lastCanonicalized with
  | some (_, n) => some (n + o.pendingCanonicalizations.length)
  | none =>
    if o.pendingCanonicalizations.isEmpty then none
    else some o.pendingCanonicalizations.length

def get (key : K) : Option V :=
  (o.values.get? key).map Prod.snd

def haveBlock : Bool :=
  (o.parents.contains hash || o.pendingInsertions.contains hash)
    && !o.pendingCanonicalizations.contains hash

/-! ## Reverting -/

def revertOne : Option (CommitSet H K V) × NonCanonicalOverlay H K V :=
  match o.levels.getLast? with
  | none => (none, o)
  | some level =>
    (some { data := ⟨[], []⟩
            metaInserted := []
            metaDeleted := level.blocks.map fun overlay =>
              .nonCanonicalJournal overlay.journalKey.1 overlay.journalKey.2 },
      { o with
        levels := o.levels.dropLast
        toTables := level.blocks.foldl (fun t overlay => t.dispose overlay 0) o.toTables })

def findBlock (levels : List (OverlayLevel H K)) (hash : H) : Nat → Option (Nat × Nat)
  | 0 => none
  | n + 1 =>
    match levels[n]? with
    | none => findBlock levels hash n
    | some level =>
      match level.blocks.findIdx? (fun overlay => overlay.hash = hash) with
      | some index => some (n, index)
      | none => findBlock levels hash n

def dropEmptyLevel : NonCanonicalOverlay H K V :=
  match o.levels.getLast? with
  | none => o
  | some level => if level.blocks.isEmpty then { o with levels := o.levels.dropLast } else o

def remove (o : NonCanonicalOverlay H K V) (hash : H) :
    Option (CommitSet H K V) × NonCanonicalOverlay H K V :=
  match findBlock o.levels hash o.levels.length with
  | none => (none, o.dropEmptyLevel)
  | some (levelIndex, index) =>
    -- check that it does not have any children
    if levelIndex ≠ o.levels.length - 1
        ∧ (o.parents.keys.any fun h => o.parents.get? h = some hash) = true then (none, o)
    else
      match (o.levels[levelIndex]?).bind (·.remove index) with
      | none => (none, o)
      | some (overlay, level) =>
        (some { data := ⟨[], []⟩
                metaInserted := []
                metaDeleted :=
                  [.nonCanonicalJournal overlay.journalKey.1 overlay.journalKey.2] },
          dropEmptyLevel { o with
            levels := o.levels.set levelIndex level
            toTables := o.toTables.dispose overlay 0 })

def lastPosition : List (OverlayLevel H K) → Option (Option Nat)
  | [] => some none
  | level :: levels =>
    match level.blocks.getLast? with
    | none => none
    | some overlay =>
      if overlay.hash = hash then some (some 0)
      else (lastPosition levels).map (Option.map (· + 1))

/-- One round of `revert_insertions`. -/
def revertInsertion : Option (NonCanonicalOverlay H K V) :=
  match lastPosition hash o.levels with
  | some (some levelIndex) =>
    match (o.levels[levelIndex]?).bind fun level => level.remove (level.blocks.length - 1) with
    | none => none
    | some (overlay, level) =>
      let levels := o.levels.set levelIndex level
      some { o with
        parents := o.parents.erase hash
        values := discardValues o.values overlay.inserted
        levels := if level.blocks.isEmpty then levels.dropLast else levels }
  | _ => none

def revertPending : Option (NonCanonicalOverlay H K V) :=
  match o.pendingInsertions.reverse.foldlM revertInsertion
      { o with pendingCanonicalizations := [] } with
  | none => none
  | some o' => some { o' with pendingInsertions := [] }

/-! ## Pins -/

/-- Pinning pending state is not implemented. -/
def pin : NonCanonicalOverlay H K V :=
  if o.pendingInsertions.contains hash then o
  else { o with pinned := o.pinned.insert hash ((o.pinned.get? hash).getD 0 + 1) }

def pinnedTotal (t : Tables H K V) : Nat :=
  (t.pinnedInsertions.keys.map fun h => ((t.pinnedInsertions.get? h).map Prod.snd).getD 0).sum

/-- The walk of `unpin` up the parents. Every round lowers one count, so `pinnedTotal` bounds it. -/
def unpinWalk : Nat → Tables H K V → Option H → Tables H K V
  | fuel + 1, t, some hash =>
    let parent := t.parents.get? hash
    match t.pinnedInsertions.get? hash with
    | none => t
    | some (inserted, n) =>
      if n - 1 = 0 then
        unpinWalk fuel
          { parents := t.parents.erase hash
            values := discardValues t.values inserted
            pinnedInsertions := t.pinnedInsertions.erase hash } parent
      else
        unpinWalk fuel
          { t with pinnedInsertions := t.pinnedInsertions.insert hash (inserted, n - 1) }
          parent
  | _, t, _ => t

def unpin : NonCanonicalOverlay H K V :=
  match o.pinned.get? hash with
  | none => o
  | some n =>
    if n - 1 = 0 then
      { o with
        pinned := o.pinned.erase hash
        toTables := unpinWalk (pinnedTotal o.toTables + 1) o.toTables (some hash) }
    else { o with pinned := o.pinned.insert hash (n - 1) }

end NonCanonicalOverlay

end Substrate.StateDb
