import Substrate.Exec
import Substrate.PeersState

/-!
# The peerset

`sc-peerset`: decides to which peers of each set we should be connected. It keeps the state of the
peers, the reserved nodes of each set with its reserved-only flag, and a queue of messages for the
network: `Connect` and `Drop` by its own decision, `Accept` or `Reject` for an incoming connection.

The clock and the orders in which hash maps and sets are iterated are outside: an `Environment` with
a reading and an order for every time they are asked for. The channel of the handle is left out: its
actions are the calls. A counter below zero panics.
-/

namespace Substrate.Peerset

open Exec

structure Environment (P : Type) where
  clock : Nat → Nat
  clock_mono : ∀ k, clock k ≤ clock (k + 1)
  order : Nat → Nat → List P → List P
  order_perm : ∀ k i ps, (order k i ps).Perm ps

inductive Message (P : Type) (n : Nat) where
  | connect (set : Fin n) (peer : P)
  | drop (set : Fin n) (peer : P)
  | accept (index : Nat)
  | reject (index : Nat)
deriving DecidableEq

structure SetConfig (P : Type) where
  inPeers : Nat
  outPeers : Nat
  bootnodes : List P
  reservedNodes : KeySet P
  reservedOnly : Bool

inductive DropReason where
  | unknown
  | refused
deriving DecidableEq

/-- With the number of times the environment was asked. -/
structure State (P : Type) (n : Nat) where
  data : PeersState P n
  reservedNodes : Fin n → KeySet P
  reservedOnly : Fin n → Bool
  messageQueue : List (Message P n)
  latestTimeUpdate : Nat
  created : Nat
  asked : Nat

section Calls

variable {P : Type} {n : Nat} [DecidableEq P] (E : Environment P)

abbrev Call (P : Type) (n : Nat) (α : Type) : Type := Exec (State P n) Empty α

/-! ## Helpers -/

def instantNow : Call P n Nat := do
  let asked ← read State.asked
  modify fun s => { s with asked := s.asked + 1 }
  pure (E.clock asked)

def iterate (ps : State P n → List P) : Call P n (List P) := do
  let asked ← read State.asked
  let ps ← read ps
  modify fun s => { s with asked := s.asked + 1 }
  pure (E.order asked 0 ps)

def modifyData (f : PeersState P n → PeersState P n) : Call P n Unit :=
  modify fun s => { s with data := f s.data }

/-- Panics if a counter would go below zero. -/
def tryData (f : PeersState P n → Option (PeersState P n)) : Call P n Unit := do
  let d ← read fun s => f s.data
  let d ← unwrap d
  modify fun s => { s with data := d }

def pushBack (m : Message P n) : Call P n Unit :=
  modify fun s => { s with messageQueue := s.messageQueue ++ [m] }

variable (set : Fin n) (p : P) (index : Nat)

def disconnectPeer : Call P n Unit := do
  let now ← instantNow E
  tryData fun d => d.disconnect set p now

def forEach {α : Type} (f : α → Call P n Unit) : List α → Call P n Unit
  | [] => pure ()
  | a :: as => do
    f a
    forEach f as

/-! ## Allocating slots -/

def updateTime : Call P n Unit := do
  let asked ← read State.asked
  let now ← instantNow E
  modify fun s =>
    { s with
      latestTimeUpdate := now
      data := s.data.passSeconds now
        ((now - s.created) / 10 ^ 9 - (s.latestTimeUpdate - s.created) / 10 ^ 9) (E.order asked) }

def connectOutgoing : Call P n Unit := do
  let d ← read fun s => s.data.tryOutgoing set p
  match d with
  | some d => do
    modify fun s => { s with data := d }
    pushBack (.connect set p)
  | none => pure ()

/-- Up to the first with an abysmal reputation. -/
def connectReserved : List P → Call P n Unit
  | [] => pure ()
  | p :: rest => do
    let peer ← read fun s => s.data.peer set p
    match peer with
    | .connected => connectReserved rest
    | _ => do
      let now ← instantNow E
      modifyData fun d => if peer = .unknown then d.discover set p now else d
      let reputation ← read fun s => s.data.reputation p
      if reputation < bannedThreshold then pure ()
      else do
        connectOutgoing set p
        connectReserved rest

/-- Running out of `fuel` would be a panic. -/
def fillSlots : Nat → Call P n Unit
  | 0 => unwrap none
  | fuel + 1 => do
    let free ← read fun s => s.data.hasFreeOutgoingSlot set
    if free then do
      let asked ← read State.asked
      let next ← read fun s => s.data.highestNotConnectedPeer set (E.order asked 0)
      modify fun s => { s with asked := s.asked + 1 }
      match next with
      | none => pure ()
      | some p => do
        let reputation ← read fun s => s.data.reputation p
        if reputation < bannedThreshold then pure ()
        else do
          connectOutgoing set p
          fillSlots fuel
    else pure ()

def allocSlots : Call P n Unit := do
  updateTime E
  let reserved ← iterate E fun s => (s.reservedNodes set).keys
  connectReserved E set reserved
  let reservedOnly ← read fun s => s.reservedOnly set
  if reservedOnly then pure ()
  else do
    let known ← read fun s => s.data.nodes.keys.length
    fillSlots E set (known + 1)

/-! ## Reserved peers -/

def onAddReservedPeer : Call P n Unit := do
  let reserved ← read fun s => decide (p ∈ s.reservedNodes set)
  if reserved then pure ()
  else do
    modify fun s =>
      { s with
        reservedNodes := Function.update s.reservedNodes set ((s.reservedNodes set).insert p).2 }
    tryData fun d => d.addNoSlotNode set p
    allocSlots E set

def onRemoveReservedPeer : Call P n Unit := do
  let reserved ← read fun s => decide (p ∈ s.reservedNodes set)
  if reserved then do
    modify fun s =>
      { s with
        reservedNodes := Function.update s.reservedNodes set ((s.reservedNodes set).erase p)
        data := s.data.removeNoSlotNode set p }
    -- in reserved-only mode the removed node needs to be disconnected
    let reservedOnly ← read fun s => s.reservedOnly set
    let peer ← read fun s => s.data.peer set p
    if reservedOnly ∧ peer = .connected then do
      disconnectPeer E set p
      pushBack (.drop set p)
    else pure ()
  else pure ()

def onSetReservedPeers (peers : KeySet P) : Call P n Unit := do
  let reserved ← read fun s => s.reservedNodes set
  let toInsert ← iterate E fun _ => peers.keys.filter fun p => p ∉ reserved
  let toRemove ← iterate E fun _ => reserved.keys.filter fun p => p ∉ peers
  forEach (onAddReservedPeer E set) toInsert
  forEach (onRemoveReservedPeer E set) toRemove

def disconnectUnreserved : Call P n Unit := do
  let reserved ← read fun s => decide (p ∈ s.reservedNodes set)
  if reserved then pure ()
  else do
    let peer ← read fun s => s.data.peer set p
    -- we are enumerating connected peers, therefore the peer is connected
    assert (peer = .connected)
    disconnectPeer E set p
    pushBack (.drop set p)

def onSetReservedOnly (reservedOnly : Bool) : Call P n Unit := do
  modify fun s =>
    { s with reservedOnly := Function.update s.reservedOnly set reservedOnly }
  if reservedOnly then do
    let connected ← iterate E fun s => s.data.connectedPeers set
    forEach (disconnectUnreserved E set) connected
  else allocSlots E set

/-! ## Members -/

def addToPeersSet : Call P n Unit := do
  let peer ← read fun s => s.data.peer set p
  if peer = .unknown then do
    let now ← instantNow E
    modifyData fun d => d.discover set p now
    allocSlots E set
  else pure ()

def onRemoveFromPeersSet : Call P n Unit := do
  let reserved ← read fun s => decide (p ∈ s.reservedNodes set)
  -- don't do anything if node is reserved
  if reserved then pure ()
  else do
    let peer ← read fun s => s.data.peer set p
    match peer with
    | .connected => do
      pushBack (.drop set p)
      disconnectPeer E set p
      modifyData fun d => d.forgetPeer set p
    | .notConnected => modifyData fun d => d.forgetPeer set p
    | .unknown => pure ()

/-! ## Reports and connections -/

/-- Its slot is given to others. -/
def disconnectBanned (p : P) (set : Fin n) : Call P n Unit := do
  let peer ← read fun s => s.data.peer set p
  if peer = .connected then do
    disconnectPeer E set p
    pushBack (.drop set p)
    allocSlots E set
  else pure ()

def onReportPeer (value : Int) : Call P n Unit := do
  -- we want reputations to be up-to-date before adjusting them
  updateTime E
  let reputation ← read fun s => saturatingAdd (s.data.reputation p) value
  modifyData fun d => d.adjustReputation p fun r => saturatingAdd r value
  if bannedThreshold ≤ reputation then pure ()
  else forEach (disconnectBanned E p) (List.finRange n)

def answer : Call P n Unit := do
  let reputation ← read fun s => s.data.reputation p
  if reputation < bannedThreshold then pushBack (.reject index)
  else do
    let d ← read fun s => s.data.tryAcceptIncoming set p
    match d with
    | some d => do
      modify fun s => { s with data := d }
      pushBack (.accept index)
    | none => pushBack (.reject index)

/-- It is answered with `Accept` or `Reject`, except if we were already connected to this peer. -/
def incoming : Call P n Unit := do
  updateTime E
  let refused ← read fun s => decide (s.reservedOnly set = true ∧ p ∉ s.reservedNodes set)
  if refused then pushBack (.reject index)
  else do
    let peer ← read fun s => s.data.peer set p
    match peer with
    -- if we're already connected, don't answer, as the docs mention
    | .connected => pure ()
    | .notConnected => do
      let now ← instantNow E
      modifyData fun d => d.bumpLastConnectedOrDiscovered set p now
      answer set p index
    | .unknown => do
      let now ← instantNow E
      modifyData fun d => d.discover set p now
      answer set p index

def dropped (reason : DropReason) : Call P n Unit := do
  -- we want reputations to be up-to-date before adjusting them
  updateTime E
  let peer ← read fun s => s.data.peer set p
  if peer = .connected then do
    -- decrease the node's reputation so that we don't try it again and again and again
    modifyData fun d => d.setReputation p fun r => saturatingAdd r disconnectReputationChange
    disconnectPeer E set p
  else pure ()
  if reason = .refused then onRemoveFromPeersSet E set p else pure ()
  allocSlots E set

/-! ## Start -/

/-- Unless it is listed twice. -/
def discoverBootnode : Call P n Unit := do
  let peer ← read fun s => s.data.peer set p
  if peer = .unknown then do
    let now ← instantNow E
    modifyData fun d => d.discover set p now
  else pure ()

def addConfigured (config : Fin n → SetConfig P) (set : Fin n) : Call P n Unit := do
  let reserved ← iterate E fun _ => (config set).reservedNodes.keys
  forEach (fun p => tryData fun d => d.addNoSlotNode set p) reserved
  forEach (discoverBootnode E set) (config set).bootnodes

def blank (config : Fin n → SetConfig P) : State P n where
  data := ⟨.empty, fun set => ⟨0, 0, (config set).inPeers, (config set).outPeers, .empty⟩⟩
  reservedNodes set := (config set).reservedNodes
  reservedOnly set := (config set).reservedOnly
  messageQueue := []
  latestTimeUpdate := E.clock 0
  created := E.clock 0
  asked := 1

def fromConfig (config : Fin n → SetConfig P) : Outcome Empty Unit × State P n :=
  (do
    forEach (addConfigured E config) (List.finRange n)
    forEach (allocSlots E) (List.finRange n)) (blank E config)

end Calls

end Substrate.Peerset
