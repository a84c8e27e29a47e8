import Substrate.FinMap
import Substrate.ForkTreeSearch

/-!
# Epoch changes

`client/consensus/epochs`: the epochs signalled on all forks. A fork tree holds, for each block that
signals an epoch, the slots that epoch covers (`inner`); a map from the block's hash and number
holds the epoch's data (`epochs`). The first block of a chain signals two epochs at once, its own
and the next.

Ancestry queries come from a builder that may be told about one block that is not stored yet. The
hash made up for a future child (`fake_head_hash`) is an arbitrary function of the parent's hash
here.
-/

namespace Substrate.Epochs

class Epoch (Ep : Type) (Slot NextEpochDescriptor : outParam Type) where
  startSlot : Ep → Slot
  /-- Not inclusive. -/
  endSlot : Ep → Slot
  increment : Ep → NextEpochDescriptor → Ep

structure EpochHeader (Slot : Type) where
  startSlot : Slot
  endSlot : Slot
deriving Repr, DecidableEq

inductive EpochIdentifierPosition where
  | genesis0
  | genesis1
  | regular
deriving Repr, DecidableEq

structure EpochIdentifier (H : Type) where
  position : EpochIdentifierPosition
  hash : H
  number : Nat
deriving Repr, DecidableEq

inductive ViableEpoch (Ep : Type) where
  | unimportedGenesis (epoch : Ep)
  | signaled (epoch : Ep)
deriving Repr, DecidableEq

inductive ViableEpochDescriptor (H Slot : Type) where
  | unimportedGenesis (slot : Slot)
  | signaled (identifier : EpochIdentifier H) (header : EpochHeader Slot)
deriving Repr, DecidableEq

def ViableEpochDescriptor.startSlot {H Slot : Type} : ViableEpochDescriptor H Slot → Slot
  | unimportedGenesis slot => slot
  | signaled _ header => header.startSlot

inductive PersistedEpoch (Ep : Type) where
  | genesis (epoch0 epoch1 : Ep)
  | regular (epochN : Ep)
deriving Repr, DecidableEq

inductive PersistedEpochHeader (Slot : Type) where
  | genesis (epoch0 epoch1 : EpochHeader Slot)
  | regular (epochN : EpochHeader Slot)
deriving Repr, DecidableEq

section Headers

variable {Ep Slot D : Type} [Epoch Ep Slot D]

/-- `From<&E> for EpochHeader<E>`. -/
def EpochHeader.ofEpoch (epoch : Ep) : EpochHeader Slot :=
  ⟨Epoch.startSlot epoch, Epoch.endSlot epoch⟩

/-- `From<&PersistedEpoch<E>> for PersistedEpochHeader<E>`. -/
def PersistedEpochHeader.ofPersisted : PersistedEpoch Ep → PersistedEpochHeader Slot
  | .genesis epoch0 epoch1 => .genesis (.ofEpoch epoch0) (.ofEpoch epoch1)
  | .regular epochN => .regular (.ofEpoch epochN)

namespace ViableEpoch

def inner : ViableEpoch Ep → Ep
  | unimportedGenesis epoch => epoch
  | signaled epoch => epoch

/-- The epoch to be imported into the fork tree. -/
def increment (epoch : ViableEpoch Ep) (nextDescriptor : D) : PersistedEpoch Ep :=
  match epoch with
  | unimportedGenesis epoch0 => .genesis epoch0 (Epoch.increment epoch0 nextDescriptor)
  | signaled epoch => .regular (Epoch.increment epoch nextDescriptor)

end ViableEpoch

end Headers

structure EpochChanges (H Slot Ep : Type) where
  inner : ForkTree H Nat (PersistedEpochHeader Slot)
  epochs : FinMap (H × Nat) (PersistedEpoch Ep)

namespace EpochChanges

variable {H Slot Ep D E : Type}

def new : EpochChanges H Slot Ep := ⟨ForkTree.new, FinMap.empty⟩

section

variable (c : EpochChanges H Slot Ep) (descriptor : ViableEpochDescriptor H Slot)
  (makeGenesis : Slot → Ep)

def epoch (id : EpochIdentifier H) : Option Ep :=
  (c.epochs.get? (id.hash, id.number)).bind fun v =>
    match v, id.position with
    | .genesis epoch0 _, .genesis0 => some epoch0
    | .genesis _ epoch1, .genesis1 => some epoch1
    | .regular epochN, .regular => some epochN
    | _, _ => none

def viableEpoch : Option (ViableEpoch Ep) :=
  match descriptor with
  | .unimportedGenesis slot => some (.unimportedGenesis (makeGenesis slot))
  | .signaled identifier _ => (c.epoch identifier).map .signaled

def epochData : Option Ep :=
  match descriptor with
  | .unimportedGenesis slot => some (makeGenesis slot)
  | .signaled identifier _ => c.epoch identifier

end

variable [LinearOrder Slot]

/-- The internal epochs of a genesis node are told apart by their start slot. -/
def selectEpoch (slot : Slot) :
    PersistedEpochHeader Slot → EpochIdentifierPosition × EpochHeader Slot
  | .genesis epoch0 epoch1 =>
    if epoch1.startSlot ≤ slot then (.genesis1, epoch1) else (.genesis0, epoch0)
  | .regular epochN => (.regular, epochN)

/-- The predicate of `epoch_descriptor_for_child_of`: the epoch of the node has started. -/
def startedBy (slot : Slot) : PersistedEpochHeader Slot → Bool
  | .genesis epoch0 _ => decide (epoch0.startSlot ≤ slot)
  | .regular epochN => decide (epochN.startSlot ≤ slot)

/-- The predicate of `prune_finalized`: the epoch of the node is over. -/
def endedBy (slot : Slot) : PersistedEpochHeader Slot → Bool
  | .genesis _ epoch1 => decide (epoch1.endSlot ≤ slot)
  | .regular epochN => decide (epochN.endSlot ≤ slot)

/-- Finds the epoch for a child of the given block at a slot. -/
def epochDescriptorForChildOf (c : EpochChanges H Slot Ep) (fakeHeadHash : H → H)
    (buildIsDescendentOf : Option (H × H) → H → H → Except E Bool)
    (parentHash : H) (parentNumber : Nat) (slot : Slot) :
    Outcome (ForkTree.Error E) (Option (ViableEpochDescriptor H Slot)) :=
  if parentNumber = 0 then
    -- need to insert the genesis epoch.
    .ok (some (.unimportedGenesis slot))
  else
    (c.inner.findNodeWhere (fakeHeadHash parentHash) (parentNumber + 1)
      (buildIsDescendentOf (some (fakeHeadHash parentHash, parentHash)))
      (startedBy slot)).map fun n =>
        n.map fun node =>
          .signaled ⟨(selectEpoch slot node.data).1, node.hash, node.number⟩
            (selectEpoch slot node.data).2

variable [DecidableEq H]

/-- Prune out finalized epochs, except for the ancestor of the finalized block, which was authored
at `slot`. -/
def pruneFinalized (c : EpochChanges H Slot Ep)
    (buildIsDescendentOf : Option (H × H) → H → H → Except E Bool)
    (hash : H) (number : Nat) (slot : Slot) :
    Outcome (ForkTree.Error E) Unit × EpochChanges H Slot Ep :=
  match c.inner.prune hash number (buildIsDescendentOf none) (endedBy slot) with
  | (.err e, inner) => (.err e, { c with inner := inner })
  | (.panic, inner) => (.panic, { c with inner := inner })
  | (.ok removed, inner) =>
    (.ok (),
      { inner := inner
        epochs := ((ForkTree.entriesOf removed).map fun e => (e.1, e.2.1)).foldl
          FinMap.erase c.epochs })

def importEpoch [Epoch Ep Slot D] (c : EpochChanges H Slot Ep)
    (buildIsDescendentOf : Option (H × H) → H → H → Except E Bool)
    (hash : H) (number : Nat) (parentHash : H) (epoch : PersistedEpoch Ep) :
    Outcome (ForkTree.Error E) Unit × EpochChanges H Slot Ep :=
  match c.inner.importBlock hash number (PersistedEpochHeader.ofPersisted epoch)
      (buildIsDescendentOf (some (hash, parentHash))) with
  | (.ok _, inner) => (.ok (), ⟨inner, c.epochs.insert (hash, number) epoch⟩)
  | (.err .duplicate, inner) => (.ok (), ⟨inner, c.epochs.insert (hash, number) epoch⟩)
  | (.err e, inner) => (.err e, { c with inner := inner })
  | (.panic, inner) => (.panic, { c with inner := inner })

end EpochChanges

end Substrate.Epochs
