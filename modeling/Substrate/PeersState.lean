import Mathlib.Algebra.Ring.Nat
import Mathlib.Algebra.Ring.Int.Defs
import Substrate.FinMap

/-!
# The state storage of the peerset

`peersstate.rs`: the nodes we know about, with their reputation and, for each set, whether we are
connected to them; and for each set the counters of occupied slots with the nodes that don't occupy
any. The number of sets never changes, so a set is a `Fin n`.

Times are nanoseconds. A reputation is an `i32`; sums and differences of it saturate. A decrement of
a counter at zero is `none`.
-/

namespace Substrate.Peerset

/-! ## Data -/

inductive MembershipState where
  | notMember
  | ingoing
  | outgoing
  /-- Part of the set, but we are not connected to it. -/
  | notConnected (lastConnected : Nat)
deriving DecidableEq

def MembershipState.isConnected : MembershipState → Bool
  | ingoing | outgoing => true
  | notMember | notConnected _ => false

structure Node (n : Nat) where
  sets : Fin n → MembershipState
  reputation : Int

def Node.new (n : Nat) : Node n := ⟨fun _ => .notMember, 0⟩

/-- The node is not a member of any set and has no reputation. -/
def Node.forgettable {n : Nat} (node : Node n) : Bool :=
  decide (node.reputation = 0) && (List.finRange n).all fun set => node.sets set = .notMember

structure SetInfo (P : Type) where
  numIn : Nat
  numOut : Nat
  maxIn : Nat
  maxOut : Nat
  noSlotNodes : KeySet P

structure PeersState (P : Type) (n : Nat) where
  nodes : FinMap P (Node n)
  sets : Fin n → SetInfo P

inductive Peer where
  | connected
  | notConnected
  | unknown
deriving DecidableEq

/-! ## Arithmetic of reputations -/

def i32Min : Int := -2 ^ 31

def i32Max : Int := 2 ^ 31 - 1

def saturatingAdd (a b : Int) : Int := max i32Min (min i32Max (a + b))

def reputTick (reput : Int) : Int :=
  let diff := reput.tdiv 50
  let diff := if diff = 0 ∧ reput < 0 then -1 else if diff = 0 ∧ 0 < reput then 1 else diff
  saturatingAdd reput (-diff)

/-- We don't accept nodes whose reputation is under this value. -/
def bannedThreshold : Int := 82 * i32Min.tdiv 100

def disconnectReputationChange : Int := -256

def forgetAfter : Nat := 3600 * 10 ^ 9

namespace PeersState

variable {P : Type} {n : Nat} [DecidableEq P]

/-! ## Nodes and sets -/

variable (d : PeersState P n) (set : Fin n) (p : P) (now : Nat)

def membership : MembershipState :=
  match d.nodes.get? p with
  | some node => node.sets set
  | none => .notMember

def peer : Peer :=
  match d.membership set p with
  | .notMember => .unknown
  | .ingoing | .outgoing => .connected
  | .notConnected _ => .notConnected

def reputation : Int :=
  match d.nodes.get? p with
  | some node => node.reputation
  | none => 0

def setMembership (m : MembershipState) : PeersState P n :=
  match d.nodes.get? p with
  | some node =>
    { d with nodes := d.nodes.insert p { node with sets := Function.update node.sets set m } }
  | none => d

def updateSet (f : SetInfo P → SetInfo P) : PeersState P n :=
  { d with sets := Function.update d.sets set (f (d.sets set)) }

def isNoSlot : Bool :=
  decide (p ∈ (d.sets set).noSlotNodes)

def releaseSlot : MembershipState → Option (PeersState P n)
  | .ingoing =>
    if (d.sets set).numIn = 0 then none
    else some (d.updateSet set fun i => { i with numIn := i.numIn - 1 })
  | .outgoing =>
    if (d.sets set).numOut = 0 then none
    else some (d.updateSet set fun i => { i with numOut := i.numOut - 1 })
  | .notMember | .notConnected _ => some d

def occupySlot : MembershipState → PeersState P n
  | .ingoing => d.updateSet set fun i => { i with numIn := i.numIn + 1 }
  | .outgoing => d.updateSet set fun i => { i with numOut := i.numOut + 1 }
  | .notMember | .notConnected _ => d

/-! ## Operations -/

def hasFreeOutgoingSlot : Bool :=
  decide ((d.sets set).numOut < (d.sets set).maxOut)

def addNoSlotNode : Option (PeersState P n) :=
  if d.isNoSlot set p then some d
  else
    (d.updateSet set fun i => { i with noSlotNodes := (i.noSlotNodes.insert p).2 }).releaseSlot set
      (d.membership set p)

def removeNoSlotNode : PeersState P n :=
  if d.isNoSlot set p then
    (d.updateSet set fun i => { i with noSlotNodes := i.noSlotNodes.erase p }).occupySlot set
      (d.membership set p)
  else d

def discover : PeersState P n :=
  let node := (d.nodes.get? p).getD (Node.new n)
  { d with
    nodes := d.nodes.insert p
      { node with sets := Function.update node.sets set (.notConnected now) } }

def disconnect : Option (PeersState P n) :=
  if d.isNoSlot set p then some (d.setMembership set p (.notConnected now))
  else (d.releaseSlot set (d.membership set p)).map fun d =>
    d.setMembership set p (.notConnected now)

/-- It occupies a slot unless it is one that doesn't. -/
def connect (m : MembershipState) : PeersState P n :=
  if d.isNoSlot set p ∨ d.nodes.contains p = false then d.setMembership set p m
  else (d.setMembership set p m).occupySlot set m

/-- `none` if the slots are full. -/
def tryOutgoing : Option (PeersState P n) :=
  if d.hasFreeOutgoingSlot set = false ∧ d.isNoSlot set p = false then none
  else some (d.connect set p .outgoing)

def tryAcceptIncoming : Option (PeersState P n) :=
  if (d.sets set).maxIn ≤ (d.sets set).numIn ∧ d.isNoSlot set p = false then none
  else some (d.connect set p .ingoing)

def bumpLastConnectedOrDiscovered : PeersState P n :=
  match d.membership set p with
  | .notConnected _ => d.setMembership set p (.notConnected now)
  | _ => d

/-- If it isn't a member of any set and has no reputation. -/
def dropForgettable : PeersState P n :=
  match d.nodes.get? p with
  | some node => if node.forgettable then { d with nodes := d.nodes.erase p } else d
  | none => d

def forgetPeer : PeersState P n :=
  (d.setMembership set p .notMember).dropForgettable p

def setReputation (f : Int → Int) : PeersState P n :=
  match d.nodes.get? p with
  | some node => { d with nodes := d.nodes.insert p { node with reputation := f node.reputation } }
  | none => d

/-- Through `peer_reputation`: an unknown node is inserted for it, and a node that has become
forgettable is dropped with the handle. -/
def adjustReputation (f : Int → Int) : PeersState P n :=
  let d := if d.nodes.contains p then d else { d with nodes := d.nodes.insert p (Node.new n) }
  (d.setReputation p f).dropForgettable p

def connectedPeers : List P :=
  d.nodes.keys.filter fun p => (d.membership set p).isConnected

/-- The first one in the order of iteration. -/
def highestNotConnectedPeer (order : List P → List P) : Option P :=
  ((order d.nodes.keys).filter fun p => d.peer set p = .notConnected).foldl
    (fun cur p => match cur with
      | some c => if d.reputation p ≤ d.reputation c then some c else some p
      | none => some p) none

/-! ## Passing of time -/

/-- A peer with a reputation of 0 and no connection is forgotten after a while. -/
def forgetIdle : PeersState P n :=
  (List.finRange n).foldl (fun d set =>
    match d.membership set p with
    | .notConnected last => if last + forgetAfter < now then d.forgetPeer set p else d
    | _ => d) d

def fleeting (d : PeersState P n) (now : Nat) (p : P) : PeersState P n :=
  let after := reputTick (d.reputation p)
  let d := d.adjustReputation p fun _ => after
  if after = 0 then d.forgetIdle p now else d

def passSeconds : Nat → (Nat → List P → List P) → PeersState P n → PeersState P n
  | 0, _, d => d
  | k + 1, order, d =>
    passSeconds k order ((order k d.nodes.keys).foldl (fun d p => d.fleeting now p) d)

end PeersState

end Substrate.Peerset
