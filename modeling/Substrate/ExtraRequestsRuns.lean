import Substrate.ExtraRequests
import Substrate.ForkTreeGrowth

/-!
# Runs of the extra requests

The requests are `Tracked` if the roots of the tree are exactly what is worked on. Two calls break
this. A finalization notice opens the roots at or above the finalized block, and does not queue the
requests below them that become roots. The failed import of a request that is no longer a root
queues it again. `Op.Keeps` excludes both.
-/

namespace Substrate.ExtraRequests

open Function List ForkTree FinMap KeySet

variable {H P E : Type} {T : BlockTree H}

/-! ## What is worked on -/

def Active (active : FinMap P (ExtraRequest H)) (request : ExtraRequest H) : Prop :=
  ∃ who, active.get? who = some request

structure Tracked (T : BlockTree H) (s : State H P) : Prop where
  grown : ∀ root ∈ s.tree.roots, root.Grown T
  covered : ∀ request ∈ rootsOf s.tree, request ∈ s.pendingRequests ∨ Active s.activeRequests request ∨
    request ∈ s.importingRequests
  live : ∀ request, request ∈ s.pendingRequests ∨ Active s.activeRequests request → request ∈ rootsOf s.tree

theorem tracked_new : Tracked T (new : State H P) where
  grown _ h := absurd h not_mem_nil
  covered _ h := absurd h not_mem_nil
  live _ h := by
    rcases h with h | ⟨_, h⟩
    · exact absurd h not_mem_nil
    · cases h

variable {s s' : State H P}

theorem Tracked.of_same (h : Tracked T s) (htree : s'.tree = s.tree)
    (hlive : ∀ request, request ∈ s'.pendingRequests ∨ Active s'.activeRequests request →
      request ∈ s.pendingRequests ∨ Active s.activeRequests request)
    (hcovered : ∀ request ∈ rootsOf s.tree,
      request ∈ s.pendingRequests ∨ Active s.activeRequests request ∨ request ∈ s.importingRequests →
      request ∈ s'.pendingRequests ∨ Active s'.activeRequests request ∨ request ∈ s'.importingRequests) :
    Tracked T s' where
  grown := htree ▸ h.grown
  covered request hrequest := by
    rw [htree] at hrequest
    exact hcovered request hrequest (h.covered request hrequest)
  live request hrequest := htree ▸ h.live request (hlive request hrequest)

/-! ## Scheduling -/

section Schedule

variable {t : ForkTree H Nat Unit}

theorem mem_rootsOf_rebalance {request} : request ∈ rootsOf t.rebalance ↔ request ∈ rootsOf t := by
  have hsame : ∀ node : ForkTree.Node H Nat Unit,
      (node.rebalance.hash, node.rebalance.number) = (node.hash, node.number) := by
    rintro ⟨h, n, v, cs⟩
    rw [ForkTree.Node.rebalance_mk]
    rfl
  unfold rootsOf
  simp only [mem_map, mem_roots_rebalance]
  constructor
  · rintro ⟨_, ⟨root, hroot, rfl⟩, rfl⟩
    exact ⟨root, hroot, (hsame root).symm⟩
  · rintro ⟨root, hroot, rfl⟩
    exact ⟨_, ⟨root, hroot, rfl⟩, hsame root⟩

theorem grown_rebalance (h : ∀ root ∈ t.roots, root.Grown T) :
    ∀ root ∈ t.rebalance.roots, root.Grown T := by
  intro x hx
  obtain ⟨root, hroot, rfl⟩ := mem_roots_rebalance.mp hx
  exact ForkTree.Node.grown_rebalance (h root hroot)

variable {isDescendentOf : H → H → Except E Bool}

theorem rootsOf_attachesIn {hash : H} {number : Nat} {roots}
    (h : ForkTree.AttachesIn isDescendentOf hash number () t.roots roots) :
    rootsOf { t with roots := roots } = rootsOf t := by
  obtain ⟨before, c, c', after, hroots, rfl, hattach⟩ := h
  unfold rootsOf
  rw [hroots]
  simp [hattach.hash_eq, hattach.number_eq]

variable [DecidableEq H]

theorem Tracked.schedule (h : Tracked T s) (hd : ForkTree.Decides T isDescendentOf) (hash : H) :
    Tracked T (schedule (hash, T.number hash) isDescendentOf s) := by
  unfold ExtraRequests.schedule
  rcases importBlock_cases s.tree hash (T.number hash) () isDescendentOf with
    ⟨-, heq⟩ | ⟨-, ⟨e, -, heq⟩ | ⟨-, heq⟩ | ⟨roots, hattach, heq⟩⟩
  · rw [heq]
    exact ⟨h.grown, h.covered, h.live⟩
  · rw [heq]
    exact ⟨h.grown, h.covered, h.live⟩
  · -- a new root is queued
    rw [heq]
    have hroots : ∀ request, request ∈ rootsOf { s.tree with
          roots := s.tree.roots ++ [.mk hash (T.number hash) () []] } ↔
        request ∈ rootsOf s.tree ∨ request = (hash, T.number hash) := by
      intro request
      simp [rootsOf]
    refine ⟨grown_rebalance fun root hroot => ?_, fun request hrequest => ?_,
      fun request hrequest => ?_⟩
    · rcases mem_append.mp hroot with hold | hnew
      · exact h.grown root hold
      · rw [mem_singleton.mp hnew]
        exact ForkTree.Node.grown_mk.mpr ⟨rfl, fun _ hc => absurd hc not_mem_nil⟩
    · rcases (hroots request).mp (mem_rootsOf_rebalance.mp hrequest) with hold | rfl
      · exact (h.covered request hold).imp_left fun hp => mem_append_left _ hp
      · exact .inl (mem_append_right _ (mem_singleton_self _))
    · refine mem_rootsOf_rebalance.mpr ((hroots request).mpr ?_)
      rcases hrequest with hpending | hactive
      · rcases mem_append.mp hpending with hold | hnew
        · exact .inl (h.live request (.inl hold))
        · exact .inr (mem_singleton.mp hnew)
      · exact .inl (h.live request (.inr hactive))
  · rw [heq]
    have hroots : ∀ request, request ∈ rootsOf (rebalance { s.tree with roots := roots }) ↔
        request ∈ rootsOf s.tree := fun request => by
      rw [mem_rootsOf_rebalance, rootsOf_attachesIn hattach]
    refine ⟨grown_rebalance (hattach.grown hd h.grown),
      fun request hrequest => h.covered request ((hroots request).mp hrequest),
      fun request hrequest => (hroots request).mpr (h.live request hrequest)⟩

end Schedule

/-! ## Peers -/

section Peers

variable [DecidableEq P] {active : FinMap P (ExtraRequest H)} {who : P} {request r : ExtraRequest H}

theorem active_erase (hwho : active.get? who = some request) :
    (Active active r → r = request ∨ Active (active.erase who) r) ∧
      (Active (active.erase who) r → Active active r) := by
  constructor
  · rintro ⟨w, hw⟩
    by_cases hww : w = who
    · rw [hww, hwho] at hw
      exact .inl (Option.some.inj hw).symm
    · refine .inr ⟨w, ?_⟩
      rwa [get?_erase, update_of_ne hww]
  · rintro ⟨w, hw⟩
    refine ⟨w, ?_⟩
    rw [get?_erase] at hw
    by_cases hww : w = who
    · rw [hww, update_self] at hw
      cases hw
    · rwa [update_of_ne hww] at hw

theorem active_insert (hwho : active.get? who = none) :
    Active (active.insert who request) r ↔ r = request ∨ Active active r := by
  constructor
  · rintro ⟨w, hw⟩
    rw [get?_insert] at hw
    by_cases hww : w = who
    · rw [hww, update_self] at hw
      exact .inl (Option.some.inj hw).symm
    · rw [update_of_ne hww] at hw
      exact .inr ⟨w, hw⟩
  · rintro (rfl | ⟨w, hw⟩)
    · exact ⟨who, by rw [get?_insert, update_self]⟩
    · have hww : w ≠ who := by
        rintro rfl
        rw [hwho] at hw
        cases hw
      exact ⟨w, by rw [get?_insert, update_of_ne hww]; exact hw⟩

theorem Tracked.requeue (h : Tracked T s) (hwho : s.activeRequests.get? who = some request)
    (hactive : s'.activeRequests = s.activeRequests.erase who) (htree : s'.tree = s.tree)
    (hpending : s'.pendingRequests = request :: s.pendingRequests)
    (himporting : s'.importingRequests = s.importingRequests) : Tracked T s' := by
  refine h.of_same htree (fun r hr => ?_) fun r _ hr => ?_
  · rw [hpending, hactive] at hr
    rcases hr with hmem | hmem
    · rcases mem_cons.mp hmem with rfl | hold
      · exact .inr ⟨who, hwho⟩
      · exact .inl hold
    · exact .inr ((active_erase hwho).2 hmem)
  · rw [hpending, hactive, himporting]
    rcases hr with hmem | hmem | hmem
    · exact .inl (mem_cons_of_mem _ hmem)
    · rcases (active_erase hwho).1 hmem with rfl | hmem
      · exact .inl mem_cons_self
      · exact .inr (.inl hmem)
    · exact .inr (.inr hmem)

theorem Tracked.peerDisconnected (h : Tracked T s) (who : P) :
    Tracked T (peerDisconnected who s) := by
  unfold ExtraRequests.peerDisconnected
  split
  · next request hwho => exact h.requeue hwho rfl rfl rfl rfl
  · exact h

theorem Tracked.matchPending (peers : List (P × PeerSync)) {remaining : Nat} (h : Tracked T s) :
    Tracked T (matchPending peers remaining s).2.2 := by
  induction remaining generalizing s with
  | zero => exact h
  | succ remaining ih =>
    rw [ExtraRequests.matchPending]
    cases hpending : s.pendingRequests with
    | nil => exact h
    | cons request rest =>
      dsimp only
      have hmem : ∀ r, r ∈ s.pendingRequests ↔ r = request ∨ r ∈ rest := fun r => by
        rw [hpending, mem_cons]
      cases hfind : peers.find? (suits request s) with
      | none =>
        refine ih (h.of_same rfl (fun r hr => hr.imp_left fun hr => ?_)
          fun r _ hr => hr.imp_left fun hr => ?_)
        · rw [hmem, or_comm]
          simpa using hr
        · rw [hmem, or_comm] at hr
          simpa using hr
      | some peer =>
        have hfree : s.activeRequests.get? peer.1 = none := by
          have hsuits := List.find?_some hfind
          simp only [suits, Bool.and_eq_true, Bool.not_eq_true'] at hsuits
          exact contains_eq_false.mp hsuits.1.2
        refine h.of_same rfl (fun r hr => ?_) fun r _ hr => ?_
        · rw [active_insert hfree] at hr
          rw [hmem]
          rcases hr with hrest | hsent | hactive
          · exact .inl (.inr hrest)
          · exact .inl (.inl hsent)
          · exact .inr hactive
        · rw [hmem] at hr
          rw [active_insert hfree]
          rcases hr with (hsent | hrest) | hactive | himporting
          · exact .inr (.inl (.inl hsent))
          · exact .inl hrest
          · exact .inr (.inl (.inr hactive))
          · exact .inr (.inr himporting)

theorem Tracked.next (h : Tracked T s) (peers : List (P × PeerSync)) (now remaining : Nat) :
    Tracked T (next peers now remaining s).2.2 := by
  unfold ExtraRequests.next
  split
  · exact h
  · exact Tracked.matchPending peers ⟨h.grown, h.covered, h.live⟩

variable [DecidableEq H]

theorem Tracked.onResponse {R : Type} (h : Tracked T s) (who : P) (resp : Option R) (now : Nat) :
    Tracked T (onResponse who resp now s).2 := by
  unfold ExtraRequests.onResponse
  split
  · rename_i request hwho
    cases resp with
    | none => exact h.requeue hwho rfl rfl rfl rfl
    | some r =>
      refine h.of_same rfl (fun r hr => ?_) fun r _ hr => ?_
      · exact hr.imp_right fun hmem => (active_erase hwho).2 hmem
      · rcases hr with hmem | hmem | hmem
        · exact .inl hmem
        · rcases (active_erase hwho).1 hmem with rfl | hmem
          · exact .inr (.inr (mem_insert.mpr (.inl rfl)))
          · exact .inr (.inl hmem)
        · exact .inr (.inr (mem_insert.mpr (.inr hmem)))
  · exact h

end Peers

/-! ## Finalization -/

section Finalization

variable [DecidableEq H] {request : ExtraRequest H}

theorem Tracked.failed (h : Tracked T s) (hroot : request ∈ s.importingRequests →
      request ∈ rootsOf s.tree) {Er : Type} (e : Er) :
    Tracked T (tryFinalizeRoot request (.error e) true s).2 := by
  unfold tryFinalizeRoot
  split
  · rename_i himporting
    refine ⟨h.grown, fun r hr => ?_, fun r hr => ?_⟩
    · by_cases hrr : r = request
      · rw [hrr]
        exact .inl mem_cons_self
      · rcases h.covered r hr with hmem | hmem | hmem
        · exact .inl (mem_cons_of_mem _ hmem)
        · exact .inr (.inl hmem)
        · exact .inr (.inr (mem_erase.mpr ⟨hrr, hmem⟩))
    · rcases hr with hmem | hmem
      · rcases mem_cons.mp hmem with rfl | hmem
        · exact hroot himporting
        · exact h.live r (.inl hmem)
      · exact h.live r (.inr hmem)
  · exact h

theorem Tracked.imported (h : Tracked T s) {Er : Type} (reschedule : Bool) :
    Tracked T (tryFinalizeRoot request (.ok request : Except Er _) reschedule s).2 := by
  unfold tryFinalizeRoot
  split
  · dsimp only
    cases hfind : s.tree.roots.find? (fun node => node.hash = request.1) with
    | none =>
      have hnone : s.tree.finalizeRoot request.1 = (none, s.tree) := by
        simp [finalizeRoot, hfind]
      rw [hnone]
      refine h.of_same rfl (fun _ hr => hr) fun r hr => ?_
      -- the request is not at a root
      have hne : r ≠ request := by
        rintro rfl
        obtain ⟨root, hroot, rfl⟩ := mem_map.mp hr
        exact List.find?_eq_none.mp hfind root hroot (decide_eq_true rfl)
      exact Or.imp_right (Or.imp_right fun hmem => mem_erase.mpr ⟨hne, hmem⟩)
    | some node =>
      have hsome : s.tree.finalizeRoot request.1 =
          (some node.data, ⟨node.children, some node.number⟩) := by
        simp [finalizeRoot, hfind, finalizeRootAt]
      rw [hsome]
      refine ⟨fun c hc => ?_, fun r hr => .inl hr, fun r hr => ?_⟩
      · exact (h.grown node (mem_of_find?_eq_some hfind)).child hc
      · rcases hr with hmem | ⟨_, hw⟩
        · exact hmem
        · cases hw
  · exact h

theorem Tracked.retainRoots (h : Tracked T s) (hgrown : ∀ root ∈ s'.tree.roots, root.Grown T)
    (hroots : ∀ r ∈ rootsOf s'.tree, r ∈ rootsOf s.tree)
    (hpending : s'.pendingRequests = s.pendingRequests)
    (hactive : s'.activeRequests = s.activeRequests)
    (himporting : s'.importingRequests = s.importingRequests) :
    Tracked T (retainRoots s') := by
  refine ⟨hgrown, fun r hr => ?_, fun r hr => ?_⟩
  · rcases h.covered r (hroots r hr) with hmem | ⟨w, hw⟩ | hmem
    · refine .inl (mem_filter.mpr ⟨hpending ▸ hmem, decide_eq_true hr⟩)
    · refine .inr (.inl ⟨w, ?_⟩)
      change (s'.activeRequests.get? w).bind _ = _
      rw [hactive, hw]
      exact if_pos hr
    · exact .inr (.inr (himporting ▸ hmem))
  · rcases hr with hmem | ⟨w, hw⟩
    · exact of_decide_eq_true (mem_filter.mp hmem).2
    · obtain ⟨x, -, hx⟩ := Option.bind_eq_some_iff.mp hw
      dsimp only at hx
      split at hx
      · next hmem => exact Option.some.inj hx ▸ hmem
      · cases hx

variable {isDescendentOf : H → H → Except E Bool}

theorem Tracked.onBlockFinalized (h : Tracked T s) (hd : ForkTree.Decides T isDescendentOf)
    {hash : H} (hkeeps : (hash, T.number hash) ∈ s.importingRequests ∨
      ∀ x, ¬ForkTree.Promoted T hash s.tree.roots x) :
    Tracked T (onBlockFinalized hash (T.number hash) isDescendentOf s).2 := by
  unfold ExtraRequests.onBlockFinalized
  have himported : Tracked T (tryFinalizeRoot (hash, T.number hash)
      (.ok (hash, T.number hash) : Except Empty _) false s).2 := h.imported false
  dsimp only
  by_cases himporting : (hash, T.number hash) ∈ s.importingRequests
  · have htrue : (tryFinalizeRoot (hash, T.number hash)
        (.ok (hash, T.number hash) : Except Empty _) false s).1 = true := by
      unfold tryFinalizeRoot
      rw [if_pos himporting]
      dsimp only
      split <;> rfl
    generalize tryFinalizeRoot (hash, T.number hash)
      (.ok (hash, T.number hash) : Except Empty _) false s = result at himported htrue ⊢
    obtain ⟨b, s1⟩ := result
    obtain rfl := htrue
    exact himported
  · have hfalse : tryFinalizeRoot (hash, T.number hash)
        (.ok (hash, T.number hash) : Except Empty _) false s = (false, s) := if_neg himporting
    have hpromoted := hkeeps.resolve_left himporting
    rw [hfalse]
    dsimp only
    split
    · rcases finalizeWithAncestors_fromRoots hd h.grown with
        hrevert | ⟨result, hok, hfrom⟩
      · rw [hrevert]
        exact h.retainRoots h.grown (fun r hr => hr) rfl rfl rfl
      · have hsub : ∀ x ∈ (s.tree.finalizeWithAncestors hash (T.number hash)
            isDescendentOf).2.roots, x ∈ s.tree.roots := fun x hx =>
          (hfrom x hx).resolve_right (hpromoted x)
        generalize s.tree.finalizeWithAncestors hash (T.number hash) isDescendentOf = out
          at hok hsub ⊢
        obtain ⟨o, tree⟩ := out
        obtain rfl := hok
        refine h.retainRoots (fun root hroot => h.grown root (hsub root hroot)) (fun r hr => ?_)
          rfl rfl rfl
        obtain ⟨root, hroot, rfl⟩ := mem_map.mp hr
        exact mem_map.mpr ⟨root, hsub root hroot, rfl⟩
    · exact h.retainRoots h.grown (fun r hr => hr) rfl rfl rfl

end Finalization

/-! ## Runs -/

/-- Blocks are given by hash; their number is the block tree's. -/
inductive Op (H P : Type) where
  | schedule (hash : H)
  | next (peers : List (P × PeerSync)) (now remaining : Nat)
  | onResponse (who : P) (found : Bool) (now : Nat)
  | peerDisconnected (who : P)
  | tryFinalizeRoot (request : ExtraRequest H) (success : Bool)
  | onBlockFinalized (hash : H)

section Runs

variable [DecidableEq H] [DecidableEq P]

def perform (T : BlockTree H) (isDescendentOf : H → H → Except E Bool) (s : State H P) :
    Op H P → State H P
  | .schedule hash => schedule (hash, T.number hash) isDescendentOf s
  | .next peers now remaining => (next peers now remaining s).2.2
  | .onResponse who found now => (onResponse who (if found then some () else none) now s).2
  | .peerDisconnected who => peerDisconnected who s
  | .tryFinalizeRoot request success =>
    (tryFinalizeRoot request (if success then .ok request else .error ()) true s).2
  | .onBlockFinalized hash => (onBlockFinalized hash (T.number hash) isDescendentOf s).2

/-- A failed import is of a request that is still at a root. A block is finalized by its own
request, or no root at or above the block has a request for one of its descendants below it. -/
def Op.Keeps (T : BlockTree H) (s : State H P) : Op H P → Prop
  | .tryFinalizeRoot request false =>
    request ∈ s.importingRequests → request ∈ rootsOf s.tree
  | .onBlockFinalized hash => (hash, T.number hash) ∈ s.importingRequests ∨
    ∀ root ∈ s.tree.roots, T.ancEq root.hash hash → ∀ x ∈ root.descendants, ¬T.anc hash x.hash
  | _ => True

variable (T : BlockTree H) (isDescendentOf : H → H → Except E Bool)
  (Cond : State H P → Op H P → Prop) in
inductive Run : State H P → Prop where
  | new : Run new
  | call {s : State H P} (op : Op H P) (h : Run s) (hcond : Cond s op) :
      Run (perform T isDescendentOf s op)

variable {isDescendentOf : H → H → Except E Bool}

theorem Tracked.perform (h : Tracked T s) (hd : ForkTree.Decides T isDescendentOf) {op : Op H P}
    (hkeeps : op.Keeps T s) : Tracked T (perform T isDescendentOf s op) := by
  cases op with
  | schedule hash => exact h.schedule hd hash
  | next peers now remaining => exact h.next peers now remaining
  | onResponse who found now => exact h.onResponse who _ now
  | peerDisconnected who => exact h.peerDisconnected who
  | tryFinalizeRoot request success =>
    cases success with
    | true => exact h.imported true
    | false => exact h.failed hkeeps ()
  | onBlockFinalized hash =>
    refine h.onBlockFinalized hd (hkeeps.imp_right fun hno x => ?_)
    rintro ⟨root, hroot, habove, hx, hanc⟩
    exact hno root hroot habove x hx hanc

theorem Run.tracked (hd : ForkTree.Decides T isDescendentOf)
    (h : Run T isDescendentOf (fun s op => Op.Keeps T s op) s) : Tracked T s := by
  induction h with
  | new => exact tracked_new
  | call op _ hcond ih => exact ih.perform hd hcond

/-- **No request is lost** in a run in which no notice promotes a request and no failed import is of
a request that is no longer a root. -/
theorem roots_are_worked_on (hd : ForkTree.Decides T isDescendentOf)
    (h : Run T isDescendentOf (fun s op => Op.Keeps T s op) s) :
    (∀ request ∈ rootsOf s.tree, request ∈ s.pendingRequests ∨
      (∃ who, s.activeRequests.get? who = some request) ∨ request ∈ s.importingRequests) ∧
    ∀ request, request ∈ s.pendingRequests ∨
      (∃ who, s.activeRequests.get? who = some request) → request ∈ rootsOf s.tree :=
  ⟨(h.tracked hd).covered, (h.tracked hd).live⟩

end Runs

/-! Calls on the chain, with one peer. -/

def performAll (ops : List (Op Nat Nat)) : State Nat Nat :=
  ops.foldl (perform chain chainQuery) new

/-- The justification of block 1 is imported, and the notice that it is finalized follows. -/
def importedFirst : State Nat Nat :=
  performAll [.schedule 1, .schedule 2, .next [(0, ⟨true, 9⟩)] 0 1, .onResponse 0 true 0,
    .tryFinalizeRoot (1, 1) true, .onBlockFinalized 1]

theorem imported_first_worked_on :
    Run chain chainQuery (fun s op => Op.Keeps chain s op) importedFirst ∧
      rootsOf importedFirst.tree = [(2, 2)] ∧ importedFirst.pendingRequests = [(2, 2)] ∧
      ∀ request ∈ rootsOf importedFirst.tree, request ∈ importedFirst.pendingRequests ∨
        (∃ who, importedFirst.activeRequests.get? who = some request) ∨
        request ∈ importedFirst.importingRequests := by
  have hrun : Run chain chainQuery (fun s op => Op.Keeps chain s op)
      importedFirst := by
    refine .call (.onBlockFinalized 1) (.call _ (.call _ (.call _ (.call _ (.call _ .new trivial)
      trivial) trivial) trivial) trivial) (.inr fun root hroot _ x hx => ?_)
    -- the request for block 2 has nothing below it
    obtain rfl := mem_singleton.mp hroot
    exact absurd hx not_mem_nil
  exact ⟨hrun, by decide, by decide, (roots_are_worked_on chainQuery_decides hrun).1⟩

/-- The notice that block 1 is finalized comes first. -/
def finalizedFirst : State Nat Nat :=
  performAll [.schedule 1, .schedule 2, .onBlockFinalized 1]

/-- Block 2 is finalized before the import of the justification of block 1 fails. -/
def failedLate : State Nat Nat :=
  performAll [.schedule 1, .next [(0, ⟨true, 9⟩)] 0 1, .onResponse 0 true 0, .onBlockFinalized 2,
    .tryFinalizeRoot (1, 1) false]

/-- The request for block 2 becomes a root that nobody works on, and the failed one for block 1 is
queued although it is no longer in the tree. -/
theorem promoted_request_lost : (Run chain chainQuery (fun _ _ => True) finalizedFirst ∧
      (2, 2) ∈ rootsOf finalizedFirst.tree ∧ (2, 2) ∉ finalizedFirst.pendingRequests ∧
      (∀ who, finalizedFirst.activeRequests.get? who ≠ some (2, 2)) ∧
      (2, 2) ∉ finalizedFirst.importingRequests) ∧
    Run chain chainQuery (fun _ _ => True) failedLate ∧
      (1, 1) ∈ failedLate.pendingRequests ∧ (1, 1) ∉ rootsOf failedLate.tree := by
  refine ⟨⟨?_, by decide, by decide, fun who hwho => ?_, by decide⟩, ?_, by decide, by decide⟩
  · exact .call (.onBlockFinalized 1) (.call _ (.call _ .new trivial) trivial) trivial
  · cases hwho
  · exact .call (.tryFinalizeRoot (1, 1) false) (.call _ (.call _ (.call _ (.call _ .new trivial)
      trivial) trivial) trivial) trivial

end Substrate.ExtraRequests
