import Mathlib.Data.List.Sort
import Substrate.Outcome
import Substrate.VecOps

/-!
# The fork tree

`utils/fork-tree`: a forest of blocks that is pruned as blocks are finalized. The client supplies
`is_descendent_of`, a fallible query answering whether its second argument descends from its first;
a failure is passed on as `Error.client`.

Operations on `&mut self` return the tree they leave behind next to their outcome, also when they
fail: the source moves `self.roots` out with `mem::take`, or edits it in place, before queries that
can still fail. Vectors used as index stacks are lists with the top of the stack first.
-/

namespace Substrate

namespace ForkTree

inductive Error (E : Type) where
  | duplicate
  | unfinalizedAncestor
  | revert
  | client (e : E)
deriving Repr, DecidableEq

inductive FinalizationResult (V : Type) where
  | changed (data : Option V)
  | unchanged
deriving Repr, DecidableEq

inductive FindOutcome (α : Type) where
  | found (a : α)
  /-- The flag says whether the block was a descendent of it. -/
  | failure (descendent : Bool)
  | abort
deriving Repr, DecidableEq

inductive Node (H N V : Type) where
  | mk (hash : H) (number : N) (data : V) (children : List (Node H N V))
deriving Repr

namespace Node

variable {H N V : Type}

def hash : Node H N V → H
  | mk h _ _ _ => h

def number : Node H N V → N
  | mk _ n _ _ => n

def data : Node H N V → V
  | mk _ _ v _ => v

def children : Node H N V → List (Node H N V)
  | mk _ _ _ cs => cs

section

variable (h : H) (n : N) (v : V)
include h n v

section

variable (cs : List (Node H N V))
include cs

@[simp] theorem hash_mk : (mk h n v cs).hash = h := rfl

@[simp] theorem number_mk : (mk h n v cs).number = n := rfl

@[simp] theorem data_mk : (mk h n v cs).data = v := rfl

@[simp] theorem children_mk : (mk h n v cs).children = cs := rfl

end

end

theorem induct {motive : Node H N V → Prop}
    (mk : ∀ h n v cs, (∀ c ∈ cs, motive c) → motive (.mk h n v cs)) :
    ∀ node, motive node
  | .mk h n v cs => mk h n v cs (fun c _ => induct mk c)

/-! ## Depth and order of branches -/

mutual

def maxDepth : Node H N V → Nat
  | mk _ _ _ cs => maxDepthList cs + 1

def maxDepthList : List (Node H N V) → Nat
  | [] => 0
  | c :: cs => max c.maxDepth (maxDepthList cs)

end

/-- Stable, deepest branch first. -/
def sortByDepth (nodes : List (Node H N V)) : List (Node H N V) :=
  nodes.insertionSort (fun a b => b.maxDepth ≤ a.maxDepth)

mutual

/-- The source sorts the children before it descends into them; `rebalance_mk` shows that this is
the same. -/
def rebalance : Node H N V → Node H N V
  | mk h n v cs => mk h n v (sortByDepth (rebalanceList cs))

def rebalanceList : List (Node H N V) → List (Node H N V)
  | [] => []
  | c :: cs => c.rebalance :: rebalanceList cs

end

/-! ## Import below a node -/

section Import

variable {E : Type} [DecidableEq H] [LinearOrder N]

mutual

/-- `none` when the block was attached below this node, otherwise the block is handed back. -/
def importNode (isDescendentOf : H → H → Except E Bool) (hash : H) (number : N) (data : V) :
    Node H N V → Except (Error E) (Option (H × N × V)) × Node H N V
  | mk h n v cs =>
    if h = hash then (.error .duplicate, mk h n v cs)
    else if number ≤ n then (.ok (some (hash, number, data)), mk h n v cs)
    else
      match importChildren isDescendentOf hash number data cs with
      | (.error e, cs') => (.error e, mk h n v cs')
      | (.ok none, cs') => (.ok none, mk h n v cs')
      | (.ok (some (hash, number, data)), cs') =>
        match isDescendentOf h hash with
        | .error e => (.error (.client e), mk h n v cs')
        | .ok true => (.ok none, mk h n v (cs' ++ [mk hash number data []]))
        | .ok false => (.ok (some (hash, number, data)), mk h n v cs')

/-- The loop of `Node::import` over the children. -/
def importChildren (isDescendentOf : H → H → Except E Bool) (hash : H) (number : N) (data : V) :
    List (Node H N V) → Except (Error E) (Option (H × N × V)) × List (Node H N V)
  | [] => (.ok (some (hash, number, data)), [])
  | c :: cs =>
    match importNode isDescendentOf hash number data c with
    | (.error e, c') => (.error e, c' :: cs)
    | (.ok none, c') => (.ok none, c' :: cs)
    | (.ok (some (h, n, d)), c') =>
      let r := importChildren isDescendentOf h n d cs
      (r.1, c' :: r.2)

end

end Import

/-! ## Search below a node -/

section Find

variable {E : Type} [DecidableEq H] [LinearOrder N]
  (hash : H) (number : N) (isDescendentOf : H → H → Except E Bool) (predicate : V → Bool)

mutual

/-- The deepest ancestor of the block that passes the predicate, as the path of child indices
leading to it. -/
def findNodeIndexWhere : Node H N V → Except (Error E) (FindOutcome (List Nat))
  | mk h n v cs =>
    -- stop searching this branch
    if number < n then .ok (.failure false)
    else
      match findChildren 0 cs with
      | .error e => .error e
      | .ok .abort => .ok .abort
      | .ok (.found path) => .ok (.found path)
      | .ok (.failure knownDescendentOf) =>
        match (if knownDescendentOf then .ok true else isDescendentOf h hash) with
        | .error e => .error (.client e)
        | .ok isDescendent =>
          if isDescendent && predicate v then .ok (.found [])
          else .ok (.failure isDescendent)

/-- The depth-first loop over the children from index `i` on. `failure true` means that some child
contains the block, so that its later siblings are not searched. -/
def findChildren (i : Nat) : List (Node H N V) → Except (Error E) (FindOutcome (List Nat))
  | [] => .ok (.failure false)
  | c :: cs =>
    match findNodeIndexWhere c with
    | .error e => .error e
    | .ok .abort => .ok .abort
    | .ok (.found path) => .ok (.found (i :: path))
    | .ok (.failure true) => .ok (.failure true)
    | .ok (.failure false) =>
      findChildren (i + 1) cs

end

end Find

/-! ## The nodes of a forest -/

mutual

/-- A node and everything below it, in pre-order. -/
def nodes : Node H N V → List (Node H N V)
  | mk h n v cs => mk h n v cs :: nodesList cs

def nodesList : List (Node H N V) → List (Node H N V)
  | [] => []
  | c :: cs => c.nodes ++ nodesList cs

end

def descendants (node : Node H N V) : List (Node H N V) := nodesList node.children

end Node

end ForkTree

structure ForkTree (H N V : Type) where
  roots : List (ForkTree.Node H N V)
  bestFinalizedNumber : Option N
deriving Repr

namespace ForkTree

variable {H N V E : Type}

def new : ForkTree H N V := ⟨[], none⟩

def nodes (t : ForkTree H N V) : List (Node H N V) := Node.nodesList t.roots

def rebalance (t : ForkTree H N V) : ForkTree H N V :=
  { t with roots := (Node.sortByDepth t.roots).map Node.rebalance }

variable [DecidableEq H] [LinearOrder N]
  (t : ForkTree H N V) (hash : H) (number : N) (isDescendentOf : H → H → Except E Bool)
  (predicate : V → Bool)

/-- The guard of every mutating operation. -/
def isReverted : Bool :=
  match t.bestFinalizedNumber with
  | some best => decide (number ≤ best)
  | none => false

def importRoots (isDescendentOf : H → H → Except E Bool) (hash : H) (number : N) (data : V) :
    List (Node H N V) → Except (Error E) (Option (H × N × V)) × List (Node H N V)
  | [] => (.ok (some (hash, number, data)), [])
  | root :: rest =>
    if root.hash = hash then (.error .duplicate, root :: rest)
    else
      match root.importNode isDescendentOf hash number data with
      | (.error e, root') => (.error e, root' :: rest)
      | (.ok none, root') => (.ok none, root' :: rest)
      | (.ok (some (h, n, d)), root') =>
        let r := importRoots isDescendentOf h n d rest
        (r.1, root' :: r.2)

/-- Returns `true` if the imported node is a root. -/
def importBlock (t : ForkTree H N V) (hash : H) (number : N) (data : V)
    (isDescendentOf : H → H → Except E Bool) :
    Outcome (Error E) Bool × ForkTree H N V :=
  if t.isReverted number then (.err .revert, t)
  else
    match importRoots isDescendentOf hash number data t.roots with
    | (.error e, roots) => (.err e, { t with roots := roots })
    | (.ok none, roots) => (.ok false, rebalance { t with roots := roots })
    | (.ok (some (hash, number, data)), roots) =>
      (.ok true, rebalance { t with roots := roots ++ [.mk hash number data []] })

/-- Search from all roots, in order. -/
def findNodeIndexWhere : Except (Error E) (Option (List Nat)) :=
  go 0 t.roots
where
  go (i : Nat) : List (Node H N V) → Except (Error E) (Option (List Nat))
    | [] => .ok none
    | root :: rest =>
      match root.findNodeIndexWhere hash number isDescendentOf predicate with
      | .error e => .error e
      | .ok (.found path) => .ok (some (i :: path))
      | .ok _ => go (i + 1) rest

/-- The walk of `prune` along an index path: take the node at its end out of the forest. `none` is a
panic. -/
def takeAt : List Nat → List (Node H N V) → Option (Node H N V × List (Node H N V))
  | [], _ => none
  | [i], nodes => nodes[i]?.map (fun root => (root, nodes.eraseIdx i))
  | i :: j :: path, nodes =>
    match nodes[i]? with
    | none => none
    | some (.mk h n v cs) =>
      (takeAt (j :: path) cs).map (fun r => (r.1, nodes.set i (.mk h n v r.2)))

/-- The first child that is the block or an ancestor of it is kept, the others join `removed`. -/
def pruneChildren (isFirst : Bool) :
    List (Node H N V) → Except E (List (Node H N V) × List (Node H N V))
  | [] => .ok ([], [])
  | child :: rest =>
    match (if isFirst then
        if child.number = number ∧ child.hash = hash then .ok true
        else if child.number < number then isDescendentOf child.hash hash
        else .ok false
      else .ok false) with
    | .error e => .error e
    | .ok true =>
      match pruneChildren false rest with
      | .error e => .error e
      | .ok (kept, removed) => .ok (child :: kept, removed)
    | .ok false =>
      match pruneChildren isFirst rest with
      | .error e => .error e
      | .ok (kept, removed) => .ok (kept, child :: removed)

/-- Re-root the tree at the deepest ancestor of the given hash that passes the predicate. Returns
the stack of the iterator over the pruned nodes. -/
def prune : Outcome (Error E) (List (Node H N V)) × ForkTree H N V :=
  match t.findNodeIndexWhere hash number isDescendentOf predicate with
  | .error e => (.err e, t)
  | .ok none => (.ok [], t.rebalance)
  | .ok (some rootIndex) =>
    -- `self.roots` is taken here and assigned again only after the last query
    match takeAt rootIndex t.roots with
    | none => (.panic, { t with roots := [] })
    | some (.mk h n v children, oldRoots) =>
      match pruneChildren hash number isDescendentOf true children with
      | .error e => (.err (.client e), { t with roots := [] })
      | .ok (kept, removed) =>
        (.ok (oldRoots ++ removed),
          ({ t with roots := [.mk h n v kept] } : ForkTree H N V).rebalance)

/-- All other roots are pruned and the children of the finalized node become the new roots. What
`swap_remove` leaves of the old roots is overwritten. -/
def finalizeRootAt (node : Node H N V) : V × ForkTree H N V :=
  (node.data, ⟨node.children, some node.number⟩)

def finalizeRoot : Option V × ForkTree H N V :=
  match t.roots.find? (fun node => node.hash = hash) with
  | some node => (some (finalizeRootAt node).1, (finalizeRootAt node).2)
  | none => (none, t)

/-- The first loop of `finalize`. -/
def descendsFromRoot : List (Node H N V) → Except E Bool
  | [] => .ok false
  | root :: rest =>
    match (if root.number < number then isDescendentOf root.hash hash else .ok false) with
    | .error e => .error e
    | .ok true => .ok true
    | .ok false => descendsFromRoot rest

/-- The loops that rebuild `self.roots`: each root that passes is pushed back, the others set
`changed`. A failing query leaves the roots pushed so far. -/
def retainRoots (retain : Node H N V → Except E Bool) :
    List (Node H N V) → Except E Bool × List (Node H N V)
  | [] => (.ok false, [])
  | root :: rest =>
    match retain root with
    | .error e => (.error e, [])
    | .ok true =>
      let r := retainRoots retain rest
      (r.1, root :: r.2)
    | .ok false =>
      let r := retainRoots retain rest
      (r.1.map (fun _ => true), r.2)

/-- The node has to be an existing root, or from a competing branch not in the tree. -/
def finalize : Outcome (Error E) (FinalizationResult V) × ForkTree H N V :=
  if t.isReverted number then (.err .revert, t)
  else
    match t.finalizeRoot hash with
    | (some data, t') => (.ok (.changed (some data)), t')
    | (none, _) =>
      match descendsFromRoot hash number isDescendentOf t.roots with
      | .error e => (.err (.client e), t)
      | .ok true => (.err .unfinalizedAncestor, t)
      | .ok false =>
        match retainRoots (fun root =>
            if number < root.number then isDescendentOf hash root.hash else .ok false)
            t.roots with
        | (.error e, roots) => (.err (.client e), { t with roots := roots })
        | (.ok changed, roots) =>
          (.ok (if changed then .changed none else .unchanged), ⟨roots, some number⟩)

/-- `(is_finalized, is_descendant, is_ancestor)` of `finalize_with_ancestors`. -/
def rootPosition (root : Node H N V) : Except E (Bool × Bool × Bool) :=
  if root.hash = hash then .ok (true, false, false)
  else
    match (if number < root.number then isDescendentOf hash root.hash else .ok false) with
    | .error e => .error e
    | .ok true => .ok (false, true, false)
    | .ok false =>
      match (if root.number < number then isDescendentOf root.hash hash else .ok false) with
      | .error e => .error e
      | .ok isAncestor => .ok (false, false, isAncestor)

/-- The worklist loop of `finalize_with_ancestors` from index `idx` on. -/
def ancestorsLoop : (fuel : Nat) → (roots : List (Node H N V)) → (idx : Nat) → (changed : Bool) →
      Outcome (Error E) (FinalizationResult V) × ForkTree H N V
  | fuel, roots, idx, changed =>
    match roots[idx]? with
    | none =>
      (.ok (if changed then .changed none else .unchanged), ⟨roots, some number⟩)
    | some root =>
      match fuel with
      | 0 => (.panic, { t with roots := roots })
      | fuel + 1 =>
        match rootPosition hash number isDescendentOf root with
        | .error e => (.err (.client e), { t with roots := roots })
        | .ok (isFinalized, isDescendant, isAncestor) =>
          -- if we have met finalized root - open it and return
          if isFinalized then
            (.ok (.changed (some (finalizeRootAt root).1)), (finalizeRootAt root).2)
          -- if node is descendant of finalized block - just leave it as is
          else if isDescendant then
            ancestorsLoop fuel roots (idx + 1) changed
          -- if node is ancestor of finalized block - remove it and continue with children
          else if isAncestor then
            ancestorsLoop fuel (Vec.swapRemove roots idx ++ root.children) idx true
          -- if node is neither ancestor, nor descendant of the finalized block - remove it
          else
            ancestorsLoop fuel (Vec.swapRemove roots idx) idx true

def finalizeWithAncestors : Outcome (Error E) (FinalizationResult V) × ForkTree H N V :=
  if t.isReverted number then (.err .revert, t)
  else
    match t.finalizeRoot hash with
    | (some data, t') => (.ok (.changed (some data)), t')
    | (none, _) =>
      -- the loop visits every node at most once
      ancestorsLoop t hash number isDescendentOf t.nodes.length t.roots 0 false

/-- The check against finalizing past a child. -/
def passesChild : List (Node H N V) → Except E Bool
  | [] => .ok false
  | node :: rest =>
    match (if node.number ≤ number then isDescendentOf node.hash hash else .ok false) with
    | .error e => .error e
    | .ok true => .ok true
    | .ok false => passesChild rest

/-- The first loop of `finalize_with_descendent_if`: the root that is finalized. -/
def finalizedRoot : List (Node H N V) → Except (Error E) (Option (Node H N V))
  | [] => .ok none
  | root :: rest =>
    if predicate root.data then
      match (if root.hash = hash then .ok true else isDescendentOf root.hash hash) with
      | .error e => .error (.client e)
      | .ok true =>
        match passesChild hash number isDescendentOf root.children with
        | .error e => .error (.client e)
        | .ok true => .error .unfinalizedAncestor
        | .ok false => .ok (some root)
      | .ok false => finalizedRoot rest
    else finalizedRoot rest

/-- Open the root found by `finalizedRoot`, if any. -/
def finalizePosition : Option (Node H N V) → Option V × ForkTree H N V
  | some node => (some (finalizeRootAt node).1, (finalizeRootAt node).2)
  | none => (none, t)

/-- The three-way retain condition of `finalize_with_descendent_if`. -/
def retainDescendent (root : Node H N V) : Except E Bool :=
  match (if number < root.number then isDescendentOf hash root.hash else .ok false) with
  | .error e => .error e
  | .ok true => .ok true
  | .ok false =>
    if root.number = number ∧ root.hash = hash then .ok true
    else isDescendentOf root.hash hash

/-- Finalize a root by finalizing the node itself or a child node that's not in the tree. -/
def finalizeWithDescendentIf : Outcome (Error E) (FinalizationResult V) × ForkTree H N V :=
  if t.isReverted number then (.err .revert, t)
  else
    match finalizedRoot hash number isDescendentOf predicate t.roots with
    | .error e => (.err e, t)
    | .ok position =>
      let opened := t.finalizePosition position
      match retainRoots (retainDescendent hash number isDescendentOf) opened.2.roots with
      | (.error e, roots) => (.err (.client e), { opened.2 with roots := roots })
      | (.ok changed, roots) =>
        (.ok (match opened.1, changed with
          | some data, _ => .changed (some data)
          | none, true => .changed none
          | none, false => .unchanged), ⟨roots, some number⟩)

end ForkTree

end Substrate
