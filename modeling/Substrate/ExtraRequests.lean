import Mathlib.Algebra.Ring.Nat
import Substrate.FinMap
import Substrate.ForkTree

/-!
# Requests for extra data

`ExtraRequests` of the network's chain sync: which blocks a justification is still wanted for, as a
fork tree of requests. The requests at the roots of the tree are worked on: each is queued, sent to
a peer, or its response is being imported. The peers are given in the order in which their hash map
is iterated, and the time as an argument.
-/

namespace Substrate.ExtraRequests

abbrev ExtraRequest (H : Type) : Type := H × Nat

/-- `EXTRA_RETRY_WAIT`, ten seconds. -/
def extraRetryWait : Nat := 10 * 10 ^ 9

structure PeerSync where
  /-- The state of the peer is `Available`. -/
  available : Bool
  bestNumber : Nat

structure State (H P : Type) where
  tree : ForkTree H Nat Unit
  bestSeenFinalizedNumber : Nat
  pendingRequests : List (ExtraRequest H)
  activeRequests : FinMap P (ExtraRequest H)
  failedRequests : FinMap (ExtraRequest H) (List (P × Nat))
  importingRequests : KeySet (ExtraRequest H)

section Calls

variable {H P E : Type} [DecidableEq H] [DecidableEq P]

def new : State H P := ⟨.new, 0, [], .empty, .empty, .empty⟩

def rootsOf (tree : ForkTree H Nat Unit) : List (ExtraRequest H) :=
  tree.roots.map fun root => (root.hash, root.number)

def schedule (request : ExtraRequest H) (isDescendentOf : H → H → Except E Bool) (s : State H P) :
    State H P :=
  match s.tree.importBlock request.1 request.2 () isDescendentOf with
  -- this is a new root so we add it to the current `pending_requests`
  | (.ok true, tree) => { s with tree, pendingRequests := s.pendingRequests ++ [request] }
  | (_, tree) => { s with tree }

def peerDisconnected (who : P) (s : State H P) : State H P :=
  match s.activeRequests.get? who with
  | some request =>
    { s with
      activeRequests := s.activeRequests.erase who
      pendingRequests := request :: s.pendingRequests }
  | none => s

def onResponse {R : Type} (who : P) (resp : Option R) (now : Nat) (s : State H P) :
    Option (P × H × Nat × R) × State H P :=
  match s.activeRequests.get? who with
  | some request =>
    match resp with
    | some r =>
      (some (who, request.1, request.2, r), { s with
          activeRequests := s.activeRequests.erase who
          importingRequests := (s.importingRequests.insert request).2 })
    | none =>
      (none, { s with
          activeRequests := s.activeRequests.erase who
          failedRequests := s.failedRequests.insert request
            ((s.failedRequests.get? request).getD [] ++ [(who, now)])
          pendingRequests := request :: s.pendingRequests })
  | none => (none, s)

/-- Returns true if import of this request has been scheduled. -/
def tryFinalizeRoot {Er : Type} (request : ExtraRequest H) (result : Except Er (ExtraRequest H))
    (rescheduleOnFailure : Bool) (s : State H P) : Bool × State H P :=
  if request ∈ s.importingRequests then
    let s := { s with importingRequests := s.importingRequests.erase request }
    match result with
    | .error _ =>
      (true,
        if rescheduleOnFailure then { s with pendingRequests := request :: s.pendingRequests }
        else s)
    | .ok (finalizedHash, finalizedNumber) =>
      match s.tree.finalizeRoot finalizedHash with
      | (none, _) => (true, s)
      | (some _, tree) =>
        (true, { s with
            tree
            failedRequests := .empty
            activeRequests := .empty
            pendingRequests := rootsOf tree
            bestSeenFinalizedNumber := finalizedNumber })
  else (false, s)

def retainRoots (s : State H P) : State H P :=
  { s with
    pendingRequests := s.pendingRequests.filter fun request => request ∈ rootsOf s.tree
    activeRequests := s.activeRequests.filterMap fun _ request =>
      if request ∈ rootsOf s.tree then some request else none
    failedRequests := s.failedRequests.filterMap fun request failed =>
      if request ∈ rootsOf s.tree then some failed else none }

/-- Removes pending requests for blocks lower than the finalized one. -/
def onBlockFinalized (bestFinalizedHash : H) (bestFinalizedNumber : Nat)
    (isDescendentOf : H → H → Except E Bool) (s : State H P) :
    Outcome (ForkTree.Error E) Unit × State H P :=
  let request := (bestFinalizedHash, bestFinalizedNumber)
  match tryFinalizeRoot request (.ok request : Except Empty _) false s with
  | (true, s) => (.ok (), s)
  | (false, s) =>
    if s.bestSeenFinalizedNumber < bestFinalizedNumber then
      match s.tree.finalizeWithAncestors bestFinalizedHash bestFinalizedNumber isDescendentOf with
      | (.panic, tree) => (.panic, { s with tree })
      -- we might have finalized further already, which we can safely ignore
      | (.err .revert, tree) | (.ok _, tree) =>
        (.ok (), retainRoots { s with tree, bestSeenFinalizedNumber := bestFinalizedNumber })
      | (.err e, tree) => (.err e, { s with tree })
    else (.ok (), retainRoots s)

/-! ## Matching peers -/

/-- It is synced up to the block, has no active request, and the same request has not failed for it
before. -/
def suits (request : ExtraRequest H) (s : State H P) (peer : P × PeerSync) : Bool :=
  peer.2.available && decide (request.2 ≤ peer.2.bestNumber) && !s.activeRequests.contains peer.1 &&
    !((s.failedRequests.get? request).getD []).any fun failed => failed.1 = peer.1

/-- The loop of `Matcher::next`, with the number of pending requests not looked at. -/
def matchPending (peers : List (P × PeerSync)) :
    Nat → State H P → Option (P × ExtraRequest H) × Nat × State H P
  | 0, s => (none, 0, s)
  | remaining + 1, s =>
    match s.pendingRequests with
    | [] => (none, remaining + 1, s)
    | request :: rest =>
      match peers.find? (suits request s) with
      | some (peer, _) =>
        (some (peer, request), remaining + 1, { s with
            pendingRequests := rest
            activeRequests := s.activeRequests.insert peer request })
      | none => matchPending peers remaining { s with pendingRequests := rest ++ [request] }

def next (peers : List (P × PeerSync)) (now remaining : Nat) (s : State H P) :
    Option (P × ExtraRequest H) × Nat × State H P :=
  if remaining = 0 then (none, 0, s)
  else
    -- clean up previously failed requests so we can retry again
    matchPending peers remaining { s with
        failedRequests := s.failedRequests.map fun failed =>
          failed.filter fun f => now - f.2 < extraRetryWait }

end Calls

end Substrate.ExtraRequests
