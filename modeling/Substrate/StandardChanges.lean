import Substrate.AuthoritySetCalls

/-!
# Standard changes are enacted in order

Runs in which standard changes are added in order and blocks of one chain are finalized, with a log:
the standard changes that were signalled, and each authority list that became current with the block
that was finalized then.

The finalized blocks form a chain, and with respect to its head every signalled change is enacted,
still in the tree, or on another branch; what is enacted lies above everything in the tree that can
still be enacted (`Enacted`). For every change related to the finalized block lies below the one
root related to it.
-/

namespace Substrate.Grandpa

open List ForkTree ForkTree.Node AuthoritySet

variable {A H E : Type} {T : BlockTree H} {isDescendentOf : H → H → Except E Bool}

/-! ## Runs with a log -/

structure StandardLog (A H : Type) where
  set : AuthoritySet A H Nat
  /-- The last block `apply_standard_changes` accepted. -/
  finalized : Option H
  signalled : List (PendingChange A H Nat)
  became : List (H × AuthorityList A)

namespace StandardLog

variable [DecidableEq H]

/-- A standard change that is accepted is noted. -/
def addPendingChange (w : StandardLog A H) (pending : PendingChange A H Nat)
    (isDescendentOf : H → H → Except E Bool) : StandardLog A H :=
  match w.set.addPendingChange pending isDescendentOf with
  | (.ok (), s) =>
    { w with
      set := s
      signalled := if pending.delayKind = .finalized then w.signalled ++ [pending]
        else w.signalled }
  | (_, s) => { w with set := s }

/-- If the status says that the set has changed, the authorities now current are noted. -/
def applyStandardChanges (T : BlockTree H) (w : StandardLog A H) (hash : H)
    (isDescendentOf : H → H → Except E Bool) : StandardLog A H :=
  match w.set.applyStandardChanges hash (T.number hash) isDescendentOf with
  | (.ok status, s) =>
    { w with
      set := s
      finalized := some hash
      became := if status.newSetBlock.isSome then w.became ++ [(hash, s.currentAuthorities)]
        else w.became }
  | (_, s) => { w with set := s }

end StandardLog

variable [DecidableEq H] (T : BlockTree H) (isDescendentOf : H → H → Except E Bool)
  (s₀ : AuthoritySet A H Nat) in
/-- From no pending standard changes, as at genesis or after a forced change: standard changes are
added in order on each branch, and blocks are finalized along one chain. Forced changes may be
added; they are not applied. -/
inductive StandardRun : StandardLog A H → Prop
  | start (h : s₀.pendingStandardChanges = new) : StandardRun ⟨s₀, none, [], []⟩
  | add {w} (h : StandardRun w) (pending : PendingChange A H Nat)
      (hheight : pending.canonHeight = T.number pending.canonHash)
      (horder : pending.delayKind = .finalized →
        ∀ x ∈ w.set.pendingStandardChanges.nodes, ¬T.anc pending.canonHash x.hash) :
      StandardRun (w.addPendingChange pending isDescendentOf)
  | finalize {w} (h : StandardRun w) (hash : H)
      (hchain : ∀ f, w.finalized = some f → T.anc f hash) :
      StandardRun (w.applyStandardChanges T hash isDescendentOf)

/-! ## The invariant -/

/-- The block is on no other branch than the last finalized one. -/
def OnBranch (T : BlockTree H) (finalized : Option H) (hash : H) : Prop :=
  ∀ f, finalized = some f → ¬T.Unrelated f hash

/-- For the changes enacted so far and the blocks they were enacted at. -/
structure Enacted (T : BlockTree H) (s₀ : AuthoritySet A H Nat) (w : StandardLog A H)
    (enacted : List (H × PendingChange A H Nat)) : Prop where
  wf : ForkTree.ForestWf T w.set.pendingStandardChanges.roots
  best : w.set.pendingStandardChanges.bestFinalizedNumber = w.finalized.map T.number
  /-- The tree holds signalled changes, at the blocks that signalled them. -/
  pending : ∀ x ∈ w.set.pendingStandardChanges.nodes,
    x.data ∈ w.signalled ∧ x.data.canonHash = x.hash
  became : w.became = enacted.map fun e => (e.1, e.2.nextAuthorities)
  current : w.set.currentAuthorities = (w.became.getLast?.map Prod.snd).getD s₀.currentAuthorities
  /-- A change is enacted at a finalized block at or below the one that signalled it. -/
  onChain : ∀ e ∈ enacted, e.2 ∈ w.signalled ∧ T.ancEq e.2.canonHash e.1 ∧
    e.2.effectiveNumber ≤ T.number e.1 ∧ ∃ f, w.finalized = some f ∧ T.ancEq e.1 f
  /-- Along the chain, one at a block. -/
  inOrder : enacted.Pairwise fun a b =>
    T.anc a.2.canonHash b.2.canonHash ∧ T.anc a.1 b.1
  /-- What is still to come on the chain comes after what is enacted. -/
  later : ∀ e ∈ enacted, ∀ x ∈ w.set.pendingStandardChanges.nodes,
    OnBranch T w.finalized x.hash → T.anc e.2.canonHash x.hash
  /-- Nothing on the chain is lost. -/
  kept : ∀ c ∈ w.signalled, OnBranch T w.finalized c.canonHash →
    c ∈ enacted.map Prod.snd ∨ ∃ x ∈ w.set.pendingStandardChanges.nodes, x.data = c

theorem OnBranch.of_later {finalized} {hash x : H} (hchain : ∀ f, finalized = some f → T.anc f hash)
    (h : ¬T.Unrelated hash x) : OnBranch T finalized x := by
  intro f hf hun
  exact h (hun.mono (.inr (hchain f hf)) (.inl rfl))

theorem related_cases {a b : H} (h : ¬T.Unrelated a b) : T.ancEq b a ∨ T.anc a b := by
  by_contra hnot
  rw [not_or] at hnot
  exact h ⟨fun heq => hnot.1 (.inl heq.symm), hnot.2, fun hanc => hnot.1 (.inr hanc)⟩

theorem not_unrelated_of_above {a b c : H} (hcb : T.ancEq c b) (h : ¬T.Unrelated a b) :
    ¬T.Unrelated a c :=
  fun hun => h (hun.mono (.inl rfl) hcb)

theorem mem_nodes_of_finalizes {V : Type} {hash : H} {predicate : V → Bool} {t t' result}
    (hwf : ForkTree.ForestWf T t.roots) (h : ForkTree.Finalizes T hash predicate t t' result) {x}
    (hx : x ∈ t.nodes) (hrel : ¬T.Unrelated hash x.hash) :
    x ∈ t'.nodes ∨ result = .changed (some x.data) := by
  obtain ⟨-, r, hr, hxr, hrx⟩ := hwf.mem_nodes hx
  cases h with
  | none _ _ _ hroots =>
    refine .inl (mem_nodesList.mpr ⟨r, (hroots r).mpr ⟨hr, ?_⟩, hxr⟩)
    exact not_unrelated_of_above hrx hrel
  | root y hy _ habove _ hroots =>
    -- the opened root is the one above `x`
    obtain rfl : y = r := by
      rcases related_cases hrel with hup | hdown
      · refine hwf.root_unique hy hr habove ?_
        rcases hup with heq | hanc
        · exact heq ▸ hrx
        · exact .inr (hrx.trans_anc hanc)
      · exact hwf.root_unique hy hr (.inr (habove.trans_anc hdown)) hrx
    rcases mem_nodes_iff.mp hxr with rfl | hdesc
    · exact .inr rfl
    obtain ⟨c, hc, hxc⟩ := mem_nodesList.mp hdesc
    have hcx := (((hwf.wf y hy).children.wf c hc).nodes x hxc).2
    refine .inl (mem_nodesList.mpr ⟨c, (hroots c).mpr ⟨hc, ?_⟩, hxc⟩)
    exact not_unrelated_of_above hcx hrel

namespace Enacted

variable {s₀ : AuthoritySet A H Nat} {w : StandardLog A H}
  {enacted : List (H × PendingChange A H Nat)}

theorem start (h : s₀.pendingStandardChanges = new) : Enacted T s₀ ⟨s₀, none, [], []⟩ [] := by
  refine
    { wf := ?_, best := ?_, pending := fun x hx => ?_, became := rfl, current := rfl
      onChain := by simp, inOrder := List.Pairwise.nil, later := by simp, kept := by simp }
  · rw [h]
    exact ForkTree.ForestWf.nil
  · rw [h]
    rfl
  · rw [h] at hx
    cases hx

theorem congr (h : Enacted T s₀ w enacted) {s}
    (htree : s.pendingStandardChanges = w.set.pendingStandardChanges)
    (hcurrent : s.currentAuthorities = w.set.currentAuthorities) :
    Enacted T s₀ { w with set := s } enacted := by
  obtain ⟨hwf, hbest, hpending, hbecame, hcur, honChain, hinOrder, hlater, hkept⟩ := h
  refine ⟨?_, ?_, ?_, hbecame, hcurrent.trans hcur, honChain, hinOrder, ?_, ?_⟩
  all_goals rw [htree]; assumption

section Add

variable [DecidableEq H]

/-- On the branch of the finalized chain it comes after its head, hence after everything enacted. -/
theorem addStandard (hd : ForkTree.Decides T isDescendentOf) (h : Enacted T s₀ w enacted)
    {pending t} {b : Bool} (hheight : pending.canonHeight = T.number pending.canonHash)
    (horder : ∀ x ∈ w.set.pendingStandardChanges.nodes, ¬T.anc pending.canonHash x.hash)
    (himport : w.set.pendingStandardChanges.importBlock pending.canonHash pending.canonHeight
      pending isDescendentOf = (.ok b, t)) :
    Enacted T s₀ { w with
      set := { w.set with pendingStandardChanges := t }
      signalled := w.signalled ++ [pending] } enacted := by
  have hwf := importBlock_wf hd h.wf pending.canonHash pending horder
  rw [← hheight, himport] at hwf
  obtain ⟨hperm, hbest, hrev⟩ : t.entries.Perm ((pending.canonHash, pending.canonHeight, pending) ::
      w.set.pendingStandardChanges.entries) ∧
      t.bestFinalizedNumber = w.set.pendingStandardChanges.bestFinalizedNumber ∧
      w.set.pendingStandardChanges.isReverted pending.canonHeight = false := by
    rcases w.set.pendingStandardChanges.importBlock_entries pending.canonHash
      pending.canonHeight pending isDescendentOf with ⟨b', -, hperm, hbest, hrev⟩ | ⟨e, he⟩
    · rw [himport] at hperm hbest
      exact ⟨hperm, hbest, hrev⟩
    · rw [himport] at he
      cases he
  -- a node of the new tree is the new one or has the entry of an old one
  have hnodes : ∀ x ∈ t.nodes, (x.hash = pending.canonHash ∧ x.data = pending) ∨
      ∃ y ∈ w.set.pendingStandardChanges.nodes, y.hash = x.hash ∧ y.data = x.data := by
    intro x hx
    rcases mem_cons.mp (hperm.mem_iff.mp (entry_mem_entriesOf hx)) with hnew | hold
    · exact .inl ⟨congrArg Prod.fst hnew, congrArg (fun e => e.2.2) hnew⟩
    · obtain ⟨y, hy, hyx⟩ := mem_entriesOf.mp hold
      exact .inr ⟨y, hy, congrArg Prod.fst hyx, congrArg (fun e => e.2.2) hyx⟩
  have hstays : ∀ e ∈ (pending.canonHash, pending.canonHeight, pending) ::
      w.set.pendingStandardChanges.entries, ∃ x ∈ t.nodes, x.data = e.2.2 := by
    intro e he
    obtain ⟨x, hx, hxe⟩ := mem_entriesOf.mp (hperm.mem_iff.mpr he)
    exact ⟨x, hx, congrArg (fun e => e.2.2) hxe⟩
  refine
    { wf := hwf
      best := hbest.trans h.best
      pending := fun x hx => ?_
      became := h.became
      current := h.current
      onChain := fun e he => ?_
      inOrder := h.inOrder
      later := fun e he x hx hx' => ?_
      kept := fun c hc hbranch => ?_ }
  · rcases hnodes x hx with ⟨hhash, hdata⟩ | ⟨y, hy, hhash, hdata⟩
    · rw [hdata, hhash]
      exact ⟨by simp, rfl⟩
    · obtain ⟨hmem, hcanon⟩ := h.pending y hy
      rw [← hdata, ← hhash]
      exact ⟨mem_append_left _ hmem, hcanon⟩
  · obtain ⟨hmem, hrest⟩ := h.onChain e he
    exact ⟨mem_append_left _ hmem, hrest⟩
  · rcases hnodes x hx with ⟨hhash, -⟩ | ⟨y, hy, hhash, -⟩
    · obtain ⟨-, hcanon, -, f, hf, hef⟩ := h.onChain e he
      -- the new block is above the finalized number, so it is below the finalized block
      have hlt : T.number f < T.number pending.canonHash := by
        have hbestf := h.best
        rw [hf] at hbestf
        unfold isReverted at hrev
        rw [hbestf] at hrev
        simpa [hheight] using hrev
      have hanc : T.anc f x.hash := by
        rcases related_cases (hx' f hf) with habove | hbelow
        · rcases habove with heq | hup
          · rw [heq] at hhash
            rw [hhash] at hlt
            omega
          · have hup' := BlockTree.anc_number_lt hup
            rw [hhash] at hup'
            omega
        · exact hbelow
      exact hcanon.trans_anc (hef.trans_anc hanc)
    · rw [← hhash] at hx' ⊢
      exact h.later e he y hy hx'
  · rcases mem_append.mp hc with hc | hc
    · refine (h.kept c hc hbranch).imp id fun ⟨x, hx, hdata⟩ => ?_
      obtain ⟨y, hy, hy'⟩ := hstays x.entry (mem_cons_of_mem _ (entry_mem_entriesOf hx))
      exact ⟨y, hy, hy'.trans hdata⟩
    · obtain rfl := mem_singleton.mp hc
      exact .inr (hstays _ (mem_cons_self ..))

end Add

section Finalize

variable {hash : H} {t : ForkTree H Nat (PendingChange A H Nat)}

theorem enact (h : Enacted T s₀ w enacted) {change}
    (hchain : ∀ f, w.finalized = some f → T.anc f hash)
    (hfin : ForkTree.Finalizes T hash (effectiveBy (T.number hash))
      w.set.pendingStandardChanges t (.changed (some change))) (hwf : ForkTree.ForestWf T t.roots)
    (hbest : t.bestFinalizedNumber = some (T.number hash)) (forced : List (PendingChange A H Nat)) :
    Enacted T s₀ { w with
        set := enactStandard { w.set with
          pendingStandardChanges := t, pendingForcedChanges := forced } change (T.number hash)
        finalized := some hash
        became := w.became ++ [(hash, change.nextAuthorities)] }
      (enacted ++ [(hash, change)]) := by
  obtain ⟨x, hx, hdata, hpred, habove, hbelow⟩ : ∃ x ∈ w.set.pendingStandardChanges.nodes,
      x.data = change ∧ change.effectiveNumber ≤ T.number hash ∧ T.ancEq x.hash hash ∧
      ∀ y ∈ t.nodes, T.anc x.hash y.hash := by
    cases hfin with
    | none _ hresult => exact absurd rfl (hresult change)
    | root x hx hpred habove _ hroots =>
      refine ⟨x, mem_nodesList_of_mem hx,
        rfl, of_decide_eq_true hpred, habove, fun y hy => ?_⟩
      obtain ⟨r, hr, hyr⟩ := mem_nodesList.mp hy
      exact (h.wf.wf x hx).anc_descendant (mem_nodesList.mpr ⟨r, ((hroots r).mp hr).1, hyr⟩)
  obtain ⟨hsig, hcanon⟩ := h.pending x hx
  rw [hdata] at hsig hcanon
  have hxrel : ¬T.Unrelated hash x.hash := fun hun => hun.not_ancEq (.inl rfl) habove
  have hnext : ∀ e ∈ enacted, T.anc e.2.canonHash change.canonHash := fun e he =>
    hcanon ▸ h.later e he x hx (OnBranch.of_later hchain hxrel)
  refine
    { wf := hwf
      best := hbest
      pending := fun y hy => h.pending y (hfin.mem_nodes hy)
      became := by rw [map_append, ← h.became]; rfl
      current := by simp [enactStandard]
      onChain := fun e he => ?_
      inOrder := pairwise_append.mpr ⟨h.inOrder, pairwise_singleton .., ?_⟩
      later := fun e he y hy _ => ?_
      kept := fun c hc hbranch => ?_ }
  · rcases mem_append.mp he with he | he
    · obtain ⟨hmem, hcanon', heff, f, hf, hef⟩ := h.onChain e he
      exact ⟨hmem, hcanon', heff, hash, rfl, .inr (hef.trans_anc (hchain f hf))⟩
    · obtain rfl := mem_singleton.mp he
      exact ⟨hsig, hcanon ▸ habove, hpred, hash, rfl, .inl rfl⟩
  · intro e he e' he'
    obtain rfl := mem_singleton.mp he'
    obtain ⟨-, -, -, f, hf, hef⟩ := h.onChain e he
    exact ⟨hnext e he, hef.trans_anc (hchain f hf)⟩
  · rcases mem_append.mp he with he | he
    · exact BlockTree.anc_trans (hnext e he) (hcanon ▸ hbelow y hy)
    · obtain rfl := mem_singleton.mp he
      exact hcanon ▸ hbelow y hy
  · have hrel : ¬T.Unrelated hash c.canonHash := hbranch hash rfl
    rcases h.kept c hc (OnBranch.of_later hchain hrel) with hdone | ⟨y, hy, hyc⟩
    · exact .inl (by simpa using .inl (by simpa using hdone))
    obtain ⟨-, hycanon⟩ := h.pending y hy
    rw [hyc] at hycanon
    rcases mem_nodes_of_finalizes h.wf hfin hy (hycanon ▸ hrel) with hstays | hopened
    · exact .inr ⟨y, hstays, hyc⟩
    · simp only [ForkTree.FinalizationResult.changed.injEq, Option.some.injEq] at hopened
      exact .inl (by simp [hopened, hyc])

theorem prune (h : Enacted T s₀ w enacted) {result}
    (hresult : ∀ change, result ≠ .changed (some change))
    (hchain : ∀ f, w.finalized = some f → T.anc f hash)
    (hfin : ForkTree.Finalizes T hash (effectiveBy (T.number hash))
      w.set.pendingStandardChanges t result) (hwf : ForkTree.ForestWf T t.roots)
    (hbest : t.bestFinalizedNumber = some (T.number hash)) (forced : List (PendingChange A H Nat)) :
    Enacted T s₀
      { w with
        set := { w.set with pendingStandardChanges := t, pendingForcedChanges := forced }
        finalized := some hash } enacted := by
  refine
    { wf := hwf
      best := hbest
      pending := fun y hy => h.pending y (hfin.mem_nodes hy)
      became := h.became
      current := h.current
      onChain := fun e he => ?_
      inOrder := h.inOrder
      later := fun e he y hy hbranch => ?_
      kept := fun c hc hbranch => ?_ }
  · obtain ⟨hmem, hcanon, heff, f, hf, hef⟩ := h.onChain e he
    exact ⟨hmem, hcanon, heff, hash, rfl, .inr (hef.trans_anc (hchain f hf))⟩
  · exact h.later e he y (hfin.mem_nodes hy) (OnBranch.of_later hchain (hbranch hash rfl))
  · have hrel : ¬T.Unrelated hash c.canonHash := hbranch hash rfl
    refine (h.kept c hc (OnBranch.of_later hchain hrel)).imp id fun ⟨y, hy, hyc⟩ => ?_
    obtain ⟨-, hycanon⟩ := h.pending y hy
    rw [hyc] at hycanon
    rcases mem_nodes_of_finalizes h.wf hfin hy (hycanon ▸ hrel) with hstays | hopened
    · exact ⟨y, hstays, hyc⟩
    · exact absurd hopened (hresult _)

end Finalize

end Enacted

section Runs

variable [DecidableEq H] {s₀ : AuthoritySet A H Nat} {w : StandardLog A H}

theorem StandardRun.enacted (hd : ForkTree.Decides T isDescendentOf)
    (hrun : StandardRun T isDescendentOf s₀ w) : ∃ enacted, Enacted T s₀ w enacted := by
  induction hrun with
  | start h => exact ⟨[], Enacted.start h⟩
  | @add w _ pending hheight horder ih =>
    obtain ⟨enacted, h⟩ := ih
    refine ⟨enacted, ?_⟩
    unfold StandardLog.addPendingChange
    rcases w.set.addPendingChange_cases hd pending with ⟨e, he⟩ | ⟨s', hok, -, hadds⟩
    · rw [he]
      exact h
    rw [hok]
    cases hadds with
    | forced m hkind _ =>
      simp only [hkind, reduceCtorEq, if_false]
      exact h.congr rfl rfl
    | standard t b hkind himport =>
      simp only [hkind, if_true]
      exact h.addStandard hd hheight (horder hkind) himport
  | @finalize w _ hash hchain ih =>
    obtain ⟨enacted, h⟩ := ih
    unfold StandardLog.applyStandardChanges
    rcases applyStandardChanges_cases hd h.wf hash with
      ⟨e, he⟩ | ⟨status, s', hok, happ, hwf, -, hbest⟩
    · rw [he]
      exact ⟨enacted, h⟩
    rw [hok]
    cases happ with
    | enacts change t forced hfin _ =>
      exact ⟨_, h.enact hchain hfin hwf hbest forced⟩
    | prunes result t forced changed hresult hfin _ =>
      exact ⟨enacted, h.prune hresult hchain hfin hwf hbest forced⟩

structure EnactedInOrder (T : BlockTree H) (s₀ : AuthoritySet A H Nat) (w : StandardLog A H)
    (enacted : List (H × PendingChange A H Nat)) : Prop where
  /-- The lists that became current are those of the enacted changes, in this order. -/
  became : w.became = enacted.map fun e => (e.1, e.2.nextAuthorities)
  current : w.set.currentAuthorities = (w.became.getLast?.map Prod.snd).getD s₀.currentAuthorities
  /-- Each was signalled at or above the block it was enacted at, on the finalized chain,
  and that block has its effective number or a higher one. -/
  onChain : ∀ e ∈ enacted, e.2 ∈ w.signalled ∧ T.ancEq e.2.canonHash e.1 ∧
    e.2.effectiveNumber ≤ T.number e.1 ∧ ∃ f, w.finalized = some f ∧ T.ancEq e.1 f
  /-- In signalling order, each at a finalized block of its own. -/
  inOrder : enacted.Pairwise fun a b =>
    T.anc a.2.canonHash b.2.canonHash ∧ T.anc a.1 b.1
  /-- What was signalled on the finalized chain, or below it, is enacted, or in the tree
  and due after everything enacted. -/
  kept : ∀ c ∈ w.signalled, (∀ f, w.finalized = some f → ¬T.Unrelated f c.canonHash) →
    c ∈ enacted.map Prod.snd ∨ (∃ x ∈ w.set.pendingStandardChanges.nodes, x.data = c) ∧
        ∀ e ∈ enacted, T.anc e.2.canonHash c.canonHash

/-- **Standard changes are enacted in order, once, on the finalized chain**, and none
that was signalled on it is lost. -/
theorem standard_changes_enacted_in_order (hd : ForkTree.Decides T isDescendentOf)
    (hrun : StandardRun T isDescendentOf s₀ w) :
    ∃ enacted, EnactedInOrder T s₀ w enacted := by
  obtain ⟨enacted, h⟩ := hrun.enacted hd
  refine ⟨enacted, h.became, h.current, h.onChain, h.inOrder, fun c hc hbranch => ?_⟩
  refine (h.kept c hc hbranch).imp id fun ⟨x, hx, hxc⟩ => ⟨⟨x, hx, hxc⟩, fun e he => ?_⟩
  obtain ⟨-, hcanon⟩ := h.pending x hx
  rw [hxc] at hcanon
  rw [hcanon] at hbranch ⊢
  exact h.later e he x hx hbranch

/-! ## Two changes on a chain -/

section Chain

/-- A change signalled in block 1, effective there. -/
def firstChange : PendingChange Nat Nat Nat := ⟨[(8, 1)], 0, 1, 1, .finalized⟩

/-- A change signalled in block 3, effective in block 4. -/
def secondChange : PendingChange Nat Nat Nat := ⟨[(9, 1)], 1, 3, 3, .finalized⟩

def genesisSet : AuthoritySet Nat Nat Nat := ⟨[(7, 1)], 0, new, [], []⟩

/-- Both changes are signalled, then blocks 2 and 4 are finalized. -/
def twoChanges : StandardLog Nat Nat :=
  ⟨⟨[(9, 1)], 2, ⟨[], some 4⟩, [], [(0, 2), (1, 4)]⟩, some 4, [firstChange, secondChange],
    [(2, [(8, 1)]), (4, [(9, 1)])]⟩

theorem twoChanges_enacted_in_order : StandardRun chain chainQuery genesisSet twoChanges ∧
      ∃ enacted, EnactedInOrder chain genesisSet twoChanges enacted := by
  have hfirst : StandardRun chain chainQuery genesisSet
      ⟨{ genesisSet with pendingStandardChanges := ⟨[.mk 1 1 firstChange []], none⟩ }, none,
        [firstChange], []⟩ :=
    .add (.start rfl) firstChange rfl fun _ x hx => by cases hx
  have hsecond : StandardRun chain chainQuery genesisSet
      ⟨{ genesisSet with pendingStandardChanges :=
          ⟨[.mk 1 1 firstChange [.mk 3 3 secondChange []]], none⟩ }, none,
        [firstChange, secondChange], []⟩ := by
    refine .add hfirst secondChange rfl fun _ x hx => ?_
    obtain rfl := mem_singleton.mp hx
    rw [chain_anc_iff]
    simp [secondChange]
  have hrun : StandardRun chain chainQuery genesisSet twoChanges := by
    refine .finalize (.finalize hsecond 2 fun f hf => by cases hf) 4 fun f hf => ?_
    cases hf
    exact chain_anc_iff.mpr (by decide)
  exact ⟨hrun, standard_changes_enacted_in_order chainQuery_decides hrun⟩

end Chain

end Runs

end Substrate.Grandpa
