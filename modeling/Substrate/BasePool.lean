import Substrate.ReadyTransactions

/-!
# The transaction pool

`FutureTransactions` holds the transactions that still wait for a tag, `BasePool` puts it next to
the ready queue: a transaction that becomes ready pulls what waited for its tags after it, and
pruning a tag does the same without a transaction. The order in which a hash set is walked is that
of its list.
-/

namespace Substrate.TxPool

variable {H T : Type}

/-! ## Transactions that wait -/

/-- The transactions that wait, and for each tag which of them want it. -/
structure FutureTransactions (H T : Type) where
  wantedTags : FinMap T (List H)
  waiting : FinMap H (WaitingTransaction H T)

variable [DecidableEq H] [DecidableEq T]

def WaitingTransaction.new (transaction : Transaction H T) (provided : FinMap T H)
    (recentlyPruned : List (List T)) (now : Nat) : WaitingTransaction H T where
  transaction
  missingTags := (transaction.requires.filter fun tag =>
    !(provided.contains tag || recentlyPruned.any fun x => decide (tag ∈ x))).dedup
  importedAt := now

def WaitingTransaction.satisfyTag (tx : WaitingTransaction H T) (tag : T) :
    WaitingTransaction H T :=
  { tx with missingTags := tx.missingTags.filter fun t => decide (t ≠ tag) }

namespace FutureTransactions

def empty : FutureTransactions H T := ⟨.empty, .empty⟩

variable (f : FutureTransactions H T) (hash : H)

def contains : Bool := f.waiting.contains hash

def len : Nat := f.waiting.keys.length

def bytes : Nat :=
  (f.waiting.keys.map fun h => ((f.waiting.get? h).map (·.transaction.bytes)).getD 0).sum

/-- `FutureTransactions::import`; `none` is a failed assertion. -/
def importTx (tx : WaitingTransaction H T) : Option (FutureTransactions H T) :=
  if tx.isReady then none
  else if f.waiting.contains tx.transaction.hash then none
  else some
    { wantedTags := tx.missingTags.foldl
        (fun wanted tag =>
          wanted.insert tag (((wanted.get? tag).getD []).insert tx.transaction.hash))
        f.wantedTags
      waiting := f.waiting.insert tx.transaction.hash tx }

/-- The inner loop of `satisfy_tags`. `none` is a failed `expect`. -/
def satisfyHashes (tag : T) : List H → FutureTransactions H T →
    Option (List (WaitingTransaction H T) × FutureTransactions H T)
  | [], f => some ([], f)
  | hash :: hashes, f =>
    match f.waiting.get? hash with
    | none => none
    | some tx =>
      let tx := tx.satisfyTag tag
      if tx.isReady then
        (satisfyHashes tag hashes { f with waiting := f.waiting.erase hash }).map
          fun (becameReady, f) => (tx :: becameReady, f)
      else satisfyHashes tag hashes { f with waiting := f.waiting.insert hash tx }

/-- Returns the transactions that became ready. -/
def satisfyTags : List T → FutureTransactions H T →
    Option (List (WaitingTransaction H T) × FutureTransactions H T)
  | [], f => some ([], f)
  | tag :: tags, f =>
    match f.wantedTags.get? tag with
    | none => satisfyTags tags f
    | some hashes =>
      (satisfyHashes tag hashes { f with wantedTags := f.wantedTags.erase tag }).bind
        fun (becameReady, f) =>
          (satisfyTags tags f).map fun (more, f) => (becameReady ++ more, f)

def dropWanted (wanted : FinMap T (List H)) (tag : T) : FinMap T (List H) :=
  match wanted.get? tag with
  | none => wanted
  | some hashes =>
    let hashes := hashes.filter fun h => decide (h ≠ hash)
    if hashes.isEmpty then wanted.erase tag else wanted.insert tag hashes

def remove : List H → FutureTransactions H T → List (Transaction H T) × FutureTransactions H T
  | [], f => ([], f)
  | hash :: hashes, f =>
    match f.waiting.get? hash with
    | none => remove hashes f
    | some tx =>
      let (removed, f) := remove hashes
        { wantedTags := tx.missingTags.foldl (dropWanted hash) f.wantedTags
          waiting := f.waiting.erase hash }
      (tx.transaction :: removed, f)

def clear : List (Transaction H T) × FutureTransactions H T :=
  (f.waiting.keys.filterMap fun h => (f.waiting.get? h).map (·.transaction), empty)

end FutureTransactions

/-! ## The pool -/

structure BasePool (H T : Type) where
  rejectFutureTransactions : Bool
  future : FutureTransactions H T
  ready : ReadyTransactions H T
  /-- the tags of the last two prunings -/
  recentlyPruned : List (List T)
  recentlyPrunedIndex : Nat

def recentlyPrunedTags : Nat := 2

inductive Imported (H T : Type) where
  | ready (hash : H) (promoted failed : List H) (removed : List (Transaction H T))
  | future (hash : H)
deriving DecidableEq, Repr

structure PruneStatus (H T : Type) where
  promoted : List (Imported H T)
  failed : List H
  pruned : List (Transaction H T)

structure Limit where
  count : Nat
  totalBytes : Nat

def Limit.isExceeded (limit : Limit) (count bytes : Nat) : Bool :=
  decide (limit.count < count) || decide (limit.totalBytes < bytes)

/-- The variables of `import_to_ready` at the head of its loop. -/
structure ImportState (H T : Type) where
  pool : BasePool H T
  first : Bool
  toImport : List (WaitingTransaction H T)
  promoted : List H
  failed : List H
  removed : List (Transaction H T)

namespace BasePool

def new (rejectFutureTransactions : Bool) : BasePool H T where
  rejectFutureTransactions
  future := .empty
  ready := .empty
  recentlyPruned := List.replicate recentlyPrunedTags []
  recentlyPrunedIndex := 0

variable (p : BasePool H T) (tx : WaitingTransaction H T)

def isImported (hash : H) : Bool :=
  p.future.contains hash || p.ready.contains hash

/-- The loop body of `import_to_ready` for the popped `tx`; an error leaves the function. -/
def importNext (s : ImportState H T) (tx : WaitingTransaction H T) :
    Outcome (Error H × BasePool H T) (ImportState H T) :=
  match s.pool.future.satisfyTags tx.transaction.provides with
  | none => .panic
  | some (becameReady, future) =>
    let toImport := becameReady.reverse ++ s.toImport
    let currentHash := tx.transaction.hash
    match s.pool.ready.importTx tx with
    | (.panic, _) => .panic
    | (.ok replaced, ready) => .ok { s with
        pool := { s.pool with future, ready }
        first := false
        toImport
        promoted := if s.first then s.promoted else s.promoted ++ [currentHash]
        removed := s.removed ++ replaced }
    | (.err e, ready) =>
      let pool := { s.pool with future, ready }
      if s.first then .err (e, pool)
      else .ok { s with pool, first := false, toImport, failed := s.failed ++ [currentHash] }

def importLoop : Nat → ImportState H T → Outcome (Error H × BasePool H T) (ImportState H T)
  | 0, s => match s.toImport with
    | [] => .ok s
    | _ => .panic
  | fuel + 1, s => match s.toImport with
    | [] => .ok s
    | tx :: toImport =>
      match importNext { s with toImport } tx with
      | .ok s => importLoop fuel s
      | .err e => .err e
      | .panic => .panic

def startImport : ImportState H T where
  pool := p
  first := true
  toImport := [tx]
  promoted := []
  failed := []
  removed := []

/-- The loop pops the transaction and, once each, transactions that waited. -/
def importToReady : Outcome (Error H) (Imported H T) × BasePool H T :=
  let hash := tx.transaction.hash
  match importLoop (p.future.len + 1) (p.startImport tx) with
  | .panic => (.panic, p)
  | .err (e, p) => (.err e, p)
  | .ok s =>
    if s.removed.any fun tx => decide (tx.hash = hash) then
      (.err .cycleDetected, { s.pool with ready := (s.pool.ready.removeSubtree s.promoted).2 })
    else (.ok (.ready hash s.promoted s.failed s.removed), s.pool)

/-- `BasePool::import`; `now` is the time of the call. -/
def importTx (p : BasePool H T) (tx : Transaction H T) (now : Nat) :
    Outcome (Error H) (Imported H T) × BasePool H T :=
  if p.isImported tx.hash then (.err (.alreadyImported tx.hash), p)
  else
    let waiting := WaitingTransaction.new tx p.ready.providedTags p.recentlyPruned now
    if waiting.isReady then p.importToReady waiting
    else if p.rejectFutureTransactions then (.err .rejectedFutureTransaction, p)
    else
      match p.future.importTx waiting with
      | none => (.panic, p)
      | some future => (.ok (.future tx.hash), { p with future })

def removeSubtree (hashes : List H) : List (Transaction H T) × BasePool H T :=
  let (removed, ready) := p.ready.removeSubtree hashes
  let (more, future) := p.future.remove hashes
  (removed ++ more, { p with ready, future })

def oldestReady (r : ReadyTransactions H T) : Option (TransactionRef H T) :=
  (r.ready.keys.filterMap r.ready.get?).foldl (fun minimal current => match minimal with
      | none => some current.transaction
      | some tx => if current.transaction.insertionId < tx.insertionId then
          some current.transaction else some tx)
    none

def oldestFuture (f : FutureTransactions H T) : Option (WaitingTransaction H T) :=
  (f.waiting.keys.filterMap f.waiting.get?).foldl (fun minimal current => match minimal with
      | none => some current
      | some tx => if current.importedAt < tx.importedAt then some current else some tx)
    none

/-- The first loop of `enforce_limits`; every round takes a transaction out of
the ready queue. -/
def enforceReady (limit : Limit) : Nat → BasePool H T → List (Transaction H T) →
    List (Transaction H T) × BasePool H T
  | 0, p, removed => (removed, p)
  | fuel + 1, p, removed =>
    if limit.isExceeded p.ready.len p.ready.bytes then
      match oldestReady p.ready with
      | none => (removed, p)
      | some minimal =>
        let (more, p) := p.removeSubtree [minimal.transaction.hash]
        enforceReady limit fuel p (removed ++ more)
    else (removed, p)

/-- The second loop of `enforce_limits`. -/
def enforceFuture (limit : Limit) : Nat → BasePool H T → List (Transaction H T) →
    List (Transaction H T) × BasePool H T
  | 0, p, removed => (removed, p)
  | fuel + 1, p, removed =>
    if limit.isExceeded p.future.len p.future.bytes then
      match oldestFuture p.future with
      | none => (removed, p)
      | some minimal =>
        let (more, p) := p.removeSubtree [minimal.transaction.hash]
        enforceFuture limit fuel p (removed ++ more)
    else (removed, p)

def enforceLimits (ready future : Limit) : List (Transaction H T) × BasePool H T :=
  let (removed, p) := enforceReady ready p.ready.len p []
  enforceFuture future p.future.len p removed

def clearFuture : List (Transaction H T) × BasePool H T :=
  let (removed, future) := p.future.clear
  (removed, { p with future })

/-- The first loop of `prune_tags`: the transactions that became ready, those pruned, and the pool.
-/
def pruneEach (slot : Nat) : List T → BasePool H T →
    Option (List (WaitingTransaction H T) × List (Transaction H T) × BasePool H T)
  | [], p => some ([], [], p)
  | tag :: tags, p =>
    match p.future.satisfyTags [tag], p.ready.pruneTags tag with
    | some (becameReady, future), some (gone, ready) =>
      (pruneEach slot tags { p with
          future
          ready
          recentlyPruned := p.recentlyPruned.modify slot (·.insert tag) }).map
        fun (toImport, pruned, p) => (becameReady ++ toImport, gone ++ pruned, p)
    | _, _ => none

/-- The second loop of `prune_tags`. -/
def promoteEach : List (WaitingTransaction H T) → BasePool H T →
    Option (List (Imported H T) × List H × BasePool H T)
  | [], p => some ([], [], p)
  | tx :: toImport, p =>
    match p.importToReady tx with
    | (.panic, _) => none
    | (.ok res, p) => (promoteEach toImport p).map
        fun (promoted, failed, p) => (res :: promoted, failed, p)
    | (.err _, p) => (promoteEach toImport p).map
        fun (promoted, failed, p) => (promoted, tx.transaction.hash :: failed, p)

/-- The slot of `recently_pruned` that a pruning empties, and the index moved on. -/
def startPrune : BasePool H T :=
  { p with
    recentlyPruned := p.recentlyPruned.set p.recentlyPrunedIndex []
    recentlyPrunedIndex := (p.recentlyPrunedIndex + 1) % recentlyPrunedTags }

/-- `BasePool::prune_tags`; `none` is a panic. -/
def pruneTags (tags : List T) : Option (PruneStatus H T × BasePool H T) :=
  (pruneEach p.recentlyPrunedIndex tags p.startPrune).bind fun (toImport, pruned, p) =>
    (promoteEach toImport p).map fun (promoted, failed, p) => (⟨promoted, failed, pruned⟩, p)

/-! ## Calls -/

inductive Call (H T : Type) where
  | importTx (tx : Transaction H T) (now : Nat)
  | removeSubtree (hashes : List H)
  | pruneTags (tags : List T)
  | enforceLimits (ready future : Limit)
  | clearFuture

/-- The pool after a call; `none` if the call panics. -/
def call : Call H T → Option (BasePool H T)
  | .importTx tx now =>
    match p.importTx tx now with
    | (.panic, _) => none
    | (_, p) => some p
  | .removeSubtree hashes => some (p.removeSubtree hashes).2
  | .pruneTags tags => (p.pruneTags tags).map (·.2)
  | .enforceLimits ready future => some (p.enforceLimits ready future).2
  | .clearFuture => some p.clearFuture.2

def calls (p : BasePool H T) : List (Call H T) → Option (BasePool H T)
  | [] => some p
  | c :: cs => (p.call c).bind fun p => p.calls cs

end BasePool

end Substrate.TxPool
