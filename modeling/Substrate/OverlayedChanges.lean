import Substrate.OverlayedMap

/-!
# Top, child and offchain changes

`primitives/state-machine/src/overlayed_changes/mod.rs`. `OverlayedChanges` keeps one overlay map
for the top storage, one for each child storage that was touched and one for offchain changes.
Transactions are opened and closed on all of them at once; child overlays appear when first written
and disappear when a rollback leaves them empty. A failed `expect` is a panic.
-/

namespace Substrate

open OverlayedEntry

abbrev StorageKey := List UInt8

abbrev StorageValue := List UInt8

abbrev OverlayedChangeSet := OverlayedMap StorageKey (Option StorageValue)

inductive OffchainOverlayedChange where
  | remove
  | setValue (value : StorageValue)
deriving Repr, DecidableEq

abbrev OffchainOverlay := OverlayedMap (StorageKey × StorageKey) OffchainOverlayedChange

structure ChildInfo where
  storageKey : StorageKey
deriving Repr, DecidableEq

def bytesOf (s : String) : StorageKey := s.toUTF8.toList

def noExtrinsicIndex : Nat := 0xffffffff

def extrinsicIndexKey : StorageKey := bytesOf ":extrinsic_index"

def offchainStorage : StorageKey := bytesOf "storage"

/-- Four bytes, least significant first; what follows is not read. -/
def decodeU32 : StorageValue → Option Nat
  | b0 :: b1 :: b2 :: b3 :: _ =>
    some (b0.toNat + 256 * (b1.toNat + 256 * (b2.toNat + 256 * b3.toNat)))
  | _ => none

structure OverlayedChanges where
  top : OverlayedChangeSet
  children : FinMap StorageKey (OverlayedChangeSet × ChildInfo)
  offchain : OffchainOverlay
  collectExtrinsics : Bool

namespace OverlayedChanges

def default : OverlayedChanges := ⟨.default, .empty, .default, false⟩

variable (c : OverlayedChanges) (childInfo : ChildInfo) (key : StorageKey)
  (val : Option StorageValue)

/-- `none` if the key is unknown, `some none` if it has been deleted. -/
def storage : Option (Option StorageValue) :=
  (c.top.get key).bind valueRef

def childStorage (c : OverlayedChanges) (childKey key : StorageKey) :
    Option (Option StorageValue) :=
  (c.children.get? childKey).bind fun p => (p.1.get key).bind valueRef

def offchainChange (c : OverlayedChanges) (key : StorageKey × StorageKey) :
    Option OffchainOverlayedChange :=
  (c.offchain.get key).bind valueRef

def extrinsicIndex : Option Nat :=
  match c.collectExtrinsics with
  | true =>
    some (((c.storage extrinsicIndexKey).bind fun idx => idx.bind decodeU32).getD noExtrinsicIndex)
  | false => none

def setCollectExtrinsics (collectExtrinsics : Bool) : OverlayedChanges :=
  { c with collectExtrinsics := collectExtrinsics }

/-! ## Writes -/

def setStorage : OverlayedChanges :=
  { c with top := c.top.set key val c.extrinsicIndex }

/-- The caller overwrites the value with `assign`. A deleted one is first initialised with the empty
one. -/
def valueMutOrInsertWith (init : StorageValue) (assign : StorageValue → StorageValue) :
    OverlayedChanges :=
  { c with top := c.top.modify key init c.extrinsicIndex fun v => some (assign (v.getD [])) }

/-- The overlay is created if there is none. -/
def updateChild (f : OverlayedChangeSet → OverlayedChangeSet) : OverlayedChanges :=
  let p := (c.children.get? childInfo.storageKey).getD (c.top.spawnChild, childInfo)
  { c with children := c.children.insert childInfo.storageKey (f p.1, p.2) }

def setChildStorage : OverlayedChanges :=
  c.updateChild childInfo fun changeset => changeset.set key val c.extrinsicIndex

def clearChildStorage : OverlayedChanges :=
  c.updateChild childInfo fun changeset =>
    changeset.clearWhere (fun _ _ => true) c.extrinsicIndex

def clearPrefix (pre : StorageKey) : OverlayedChanges :=
  { c with top := c.top.clearWhere (fun key _ => pre.isPrefixOf key) c.extrinsicIndex }

def clearChildPrefix (pre : StorageKey) : OverlayedChanges :=
  c.updateChild childInfo fun changeset =>
    changeset.clearWhere (fun key _ => pre.isPrefixOf key) c.extrinsicIndex

def setOffchainStorage (value : Option StorageValue) : OverlayedChanges :=
  let change := match value with
    | some value => .setValue value
    | none => .remove
  { c with offchain := c.offchain.set (offchainStorage, key) change none }

/-! ## Transactions -/

def startTransaction : OverlayedChanges :=
  { c with
    top := c.top.startTransaction
    children := c.children.map fun p => (p.1.startTransaction, p.2)
    offchain := c.offchain.startTransaction }

/-- `none` if one of the calls does not succeed. -/
def forEachChild (f : OverlayedChangeSet → Outcome OverlayError Unit × OverlayedChangeSet)
    (children : FinMap StorageKey (OverlayedChangeSet × ChildInfo)) :
    Option (FinMap StorageKey (OverlayedChangeSet × ChildInfo)) :=
  if children.all fun p => decide ((f p.1).1 = .ok ()) then
    some (children.map fun p => ((f p.1).2, p.2))
  else none

/-- A call on the top overlay, whose error is returned, then on the children and
the offchain overlay, which are expected to succeed with it. -/
def inLockstep (f : OverlayedChangeSet → Outcome OverlayError Unit × OverlayedChangeSet)
    (fOffchain : OffchainOverlay → Outcome OverlayError Unit × OffchainOverlay)
    (keep : OverlayedChangeSet → Bool) : Outcome OverlayError Unit × OverlayedChanges :=
  match f c.top with
  | (.err e, top) => (.err e, { c with top := top })
  | (.panic, _) => (.panic, c)
  | (.ok _, top) =>
    match forEachChild f c.children, fOffchain c.offchain with
    | some children, (.ok _, offchain) =>
      (.ok (), { c with
        top := top
        children := children.filterMap fun _ p => if keep p.1 then some p else none
        offchain := offchain })
    | _, _ => (.panic, c)

/-- Children that become empty are dropped. -/
def rollbackTransaction : Outcome OverlayError Unit × OverlayedChanges :=
  c.inLockstep OverlayedMap.rollbackTransaction OverlayedMap.rollbackTransaction
    fun changeset => !changeset.isEmpty

def commitTransaction : Outcome OverlayError Unit × OverlayedChanges :=
  c.inLockstep OverlayedMap.commitTransaction OverlayedMap.commitTransaction fun _ => true

def enterRuntime : Outcome OverlayError Unit × OverlayedChanges :=
  c.inLockstep OverlayedMap.enterRuntime OverlayedMap.enterRuntime fun _ => true

def exitRuntime : Outcome OverlayError Unit × OverlayedChanges :=
  c.inLockstep OverlayedMap.exitRuntime OverlayedMap.exitRuntime fun _ => true

end OverlayedChanges

end Substrate
