import Substrate.AuthoritySet
import Substrate.ForkTreeEntries

/-!
# What each call does to an authority set

One inversion lemma for each operation, with the client's answers replaced by ancestry in the block
tree. A failing call leaves the set as it was. Every later fact about runs is derived from these.
-/

namespace Substrate.Grandpa.AuthoritySet

open List

variable {A H E : Type} {T : BlockTree H} {isDescendentOf : H → H → Except E Bool}

theorem invalidAuthorityList_eq_false {authorities : AuthorityList A} :
    invalidAuthorityList authorities = false ↔ authorities ≠ [] ∧ ∀ a ∈ authorities, 0 < a.2 := by
  simp [invalidAuthorityList, Nat.pos_iff_ne_zero]

/-! ## Adding a change -/

section Add

def insertForced (s : AuthoritySet A H Nat) (pending : PendingChange A H Nat) :
    AuthoritySet A H Nat :=
  let idx := Vec.insertionPoint
    (Vec.binarySearchByKey s.pendingForcedChanges (forcedKey pending) forcedKey)
  { s with
    pendingForcedChanges :=
      s.pendingForcedChanges.take idx ++ pending :: s.pendingForcedChanges.drop idx }

theorem insertForced_perm (s : AuthoritySet A H Nat) (pending : PendingChange A H Nat) :
    (s.insertForced pending).pendingForcedChanges.Perm (pending :: s.pendingForcedChanges) :=
  perm_middle.trans ((take_append_drop _ _ ▸ List.Perm.refl _ :
    (_ ++ _ : List _).Perm s.pendingForcedChanges).cons _)

variable [DecidableEq H]

theorem forcedChangeAllowed_cases (hd : ForkTree.Decides T isDescendentOf)
    (pending : PendingChange A H Nat) (l : List (PendingChange A H Nat)) :
    (∃ e, forcedChangeAllowed pending isDescendentOf l = .error e) ∨
    (forcedChangeAllowed pending isDescendentOf l = .ok () ∧
      ∀ c ∈ l, c.canonHash ≠ pending.canonHash ∧ ¬T.anc c.canonHash pending.canonHash) := by
  induction l with
  | nil => exact .inr ⟨rfl, by simp⟩
  | cons c rest ih =>
    rw [forcedChangeAllowed]
    by_cases heq : c.canonHash = pending.canonHash
    · exact .inl ⟨_, by rw [if_pos heq]⟩
    rw [if_neg heq]
    by_cases hanc : T.anc c.canonHash pending.canonHash
    · exact .inl ⟨_, by rw [hd.of_anc hanc]⟩
    · rw [hd.of_not_anc hanc]
      refine ih.imp id fun ⟨hok, hrest⟩ => ⟨hok, forall_mem_cons.mpr ⟨?_, hrest⟩⟩
      exact ⟨heq, hanc⟩

variable (T : BlockTree H) (isDescendentOf : H → H → Except E Bool) (s : AuthoritySet A H Nat)
  (pending : PendingChange A H Nat) in
inductive Adds : AuthoritySet A H Nat → Prop
  | forced (m : Nat) (hkind : pending.delayKind = .best m) (hbranch : ∀ c ∈ s.pendingForcedChanges,
        c.canonHash ≠ pending.canonHash ∧ ¬T.anc c.canonHash pending.canonHash) :
      Adds (s.insertForced pending)
  | standard (t : ForkTree H Nat (PendingChange A H Nat)) (b : Bool)
      (hkind : pending.delayKind = .finalized)
      (himport : s.pendingStandardChanges.importBlock pending.canonHash pending.canonHeight
        pending isDescendentOf = (.ok b, t)) :
      Adds { s with pendingStandardChanges := t }

theorem addPendingChange_cases (hd : ForkTree.Decides T isDescendentOf)
    (s : AuthoritySet A H Nat) (pending : PendingChange A H Nat) :
    (∃ e, s.addPendingChange pending isDescendentOf = (.err e, s)) ∨
    ∃ s', s.addPendingChange pending isDescendentOf = (.ok (), s') ∧
      invalidAuthorityList pending.nextAuthorities = false ∧
      Adds T isDescendentOf s pending s' := by
  unfold addPendingChange
  by_cases hinvalid : invalidAuthorityList pending.nextAuthorities
  · exact .inl ⟨_, by rw [if_pos hinvalid]⟩
  rw [if_neg hinvalid]
  rw [Bool.not_eq_true] at hinvalid
  cases hkind : pending.delayKind with
  | best m =>
    unfold addForcedChange
    rcases forcedChangeAllowed_cases hd pending s.pendingForcedChanges with
      ⟨e, he⟩ | ⟨hok, hbranch⟩
    · exact .inl ⟨e, by rw [he]⟩
    · rw [hok]
      exact .inr ⟨_, rfl, hinvalid, .forced m hkind hbranch⟩
  | finalized =>
    unfold addStandardChange
    rcases s.pendingStandardChanges.importBlock_entries pending.canonHash
      pending.canonHeight pending isDescendentOf with ⟨b, hok, -⟩ | ⟨e, he⟩
    · rcases himport : s.pendingStandardChanges.importBlock pending.canonHash
        pending.canonHeight pending isDescendentOf with ⟨r, t⟩
      rw [himport] at hok
      obtain rfl := hok
      exact .inr ⟨_, rfl, hinvalid, .standard t b hkind himport⟩
    · exact .inl ⟨_, by rw [he]⟩

end Add

/-! ## Finalizing a block -/

section Standard

theorem keepForced_ok (hd : ForkTree.Decides T isDescendentOf) (hash : H) (number : Nat)
    (l : List (PendingChange A H Nat)) :
    ∃ forced, keepForced hash number isDescendentOf l = (.ok (), forced) ∧ forced.Sublist l := by
  induction l with
  | nil => exact ⟨[], rfl, List.Sublist.refl _⟩
  | cons c rest ih =>
    obtain ⟨forced, hrest, hsub⟩ := ih
    have hquery : ∃ b, (if number < c.effectiveNumber then isDescendentOf hash c.canonHash
        else .ok false) = .ok b := by
      obtain ⟨b, hb, -⟩ := hd hash c.canonHash
      split
      · exact ⟨b, hb⟩
      · exact ⟨false, rfl⟩
    obtain ⟨b, hb⟩ := hquery
    rw [keepForced, hb]
    cases b with
    | true => exact ⟨c :: forced, by simp only [hrest], hsub.cons_cons _⟩
    | false => exact ⟨forced, hrest, hsub.cons _⟩

def effectiveBy (number : Nat) (change : PendingChange A H Nat) : Bool :=
  decide (change.effectiveNumber ≤ number)

/-- What a successful `apply_standard_changes` does: enact the change of a root, or only drop
changes of other branches. -/
inductive Applies (T : BlockTree H) (hash : H) (s : AuthoritySet A H Nat) :
    Status H Nat → AuthoritySet A H Nat → Prop
  | enacts (change : PendingChange A H Nat) (t : ForkTree H Nat (PendingChange A H Nat))
      (forced : List (PendingChange A H Nat))
      (hfin : ForkTree.Finalizes T hash (effectiveBy (T.number hash)) s.pendingStandardChanges t
        (.changed (some change))) (hforced : forced.Sublist s.pendingForcedChanges) :
      Applies T hash s ⟨true, some (hash, T.number hash)⟩
        (enactStandard { s with pendingStandardChanges := t, pendingForcedChanges := forced }
          change (T.number hash))
  | prunes (result : ForkTree.FinalizationResult (PendingChange A H Nat))
      (t : ForkTree H Nat (PendingChange A H Nat)) (forced : List (PendingChange A H Nat))
      (changed : Bool) (hresult : ∀ change, result ≠ .changed (some change))
      (hfin : ForkTree.Finalizes T hash (effectiveBy (T.number hash)) s.pendingStandardChanges t
        result)
      (hforced : forced.Sublist s.pendingForcedChanges) : Applies T hash s ⟨changed, none⟩
        { s with pendingStandardChanges := t, pendingForcedChanges := forced }

variable [DecidableEq H]

theorem applyStandardChanges_cases (hd : ForkTree.Decides T isDescendentOf)
    {s : AuthoritySet A H Nat} (hwf : ForkTree.ForestWf T s.pendingStandardChanges.roots)
    (hash : H) :
    (∃ e, s.applyStandardChanges hash (T.number hash) isDescendentOf = (.err e, s)) ∨
    ∃ status s', s.applyStandardChanges hash (T.number hash) isDescendentOf = (.ok status, s') ∧
      Applies T hash s status s' ∧ ForkTree.ForestWf T s'.pendingStandardChanges.roots ∧
      s.pendingStandardChanges.isReverted (T.number hash) = false ∧
      s'.pendingStandardChanges.bestFinalizedNumber = some (T.number hash) := by
  unfold applyStandardChanges
  rcases ForkTree.finalizeWithDescendentIf_cases hd hwf hash (effectiveBy (T.number hash)) with
    ⟨e, he⟩ | ⟨result, t, hok, hfin, hwf', hrev, hbest⟩
  · exact .inl ⟨_, by unfold effectiveBy at he; rw [he]⟩
  obtain ⟨forced, hkeep, hsub⟩ := keepForced_ok hd hash (T.number hash) s.pendingForcedChanges
  refine .inr ?_
  unfold effectiveBy at hok
  rw [hok]
  cases result with
  | unchanged =>
    exact ⟨_, _, rfl, .prunes _ t s.pendingForcedChanges false (by simp) hfin
      (List.Sublist.refl _), hwf', hrev, hbest⟩
  | changed data =>
    simp only [hkeep]
    cases data with
    | none =>
      exact ⟨_, _, rfl, .prunes _ t forced true (by simp) hfin hsub, hwf', hrev, hbest⟩
    | some change =>
      exact ⟨_, _, rfl, .enacts change t forced hfin hsub, hwf', hrev, hbest⟩

end Standard

/-! ## Importing a best block -/

section Forced

variable [DecidableEq H]

structure EffectiveAt (T : BlockTree H) (best : H) (change : PendingChange A H Nat) : Prop where
  number : change.effectiveNumber = T.number best
  branch : T.ancEq change.canonHash best

section

variable (hd : ForkTree.Decides T isDescendentOf) (s : AuthoritySet A H Nat) (best : H)
include hd s best

theorem applyForcedLoop_cases {l : List (PendingChange A H Nat)}
    (hkind : ∀ c ∈ l, ∃ m, c.delayKind = .best m) :
    (∃ e, s.applyForcedLoop best isDescendentOf l = .err e) ∨
    s.applyForcedLoop best isDescendentOf l = .ok none ∨
    ∃ c ∈ l, ∃ m, c.delayKind = .best m ∧ T.ancEq c.canonHash best ∧
      s.applyForcedLoop best isDescendentOf l = .ok (some (m, s.enactForced c m)) := by
  induction l with
  | nil => exact .inr (.inl rfl)
  | cons c rest ih =>
    rw [applyForcedLoop]
    by_cases hbranch : T.ancEq c.canonHash best
    · have hquery : (if c.canonHash = best then .ok true else isDescendentOf c.canonHash best) =
          .ok true := by
        rcases hbranch with heq | hanc
        · rw [if_pos heq]
        · rw [hd.of_anc hanc, ite_self]
      obtain ⟨m, hm⟩ := hkind c (mem_cons_self ..)
      rw [hquery, hm]
      dsimp only
      cases hdep : dependenciesSatisfied c m isDescendentOf s.pendingStandardChanges.roots with
      | error e => exact .inl ⟨e, rfl⟩
      | ok u => exact .inr (.inr ⟨c, mem_cons_self .., m, hm, hbranch, rfl⟩)
    · rw [if_neg fun h => hbranch (.inl h), hd.of_not_anc fun h => hbranch (.inr h)]
      rcases ih fun d hd => hkind d (mem_cons_of_mem _ hd) with
        herr | hnone | ⟨d, hd', hfound⟩
      · exact .inl herr
      · exact .inr (.inl hnone)
      · exact .inr (.inr ⟨d, mem_cons_of_mem _ hd', hfound⟩)

theorem applyForcedChanges_cases (hkind : ∀ c ∈ s.pendingForcedChanges, ∃ m, c.delayKind = .best m) :
    (∃ e, s.applyForcedChanges best (T.number best) isDescendentOf = .err e) ∨
    s.applyForcedChanges best (T.number best) isDescendentOf = .ok none ∨
    ∃ c ∈ s.pendingForcedChanges, ∃ m, c.delayKind = .best m ∧ EffectiveAt T best c ∧
      s.applyForcedChanges best (T.number best) isDescendentOf =
        .ok (some (m, s.enactForced c m)) := by
  have hmem : ∀ c ∈ (s.pendingForcedChanges.takeWhile fun c =>
      decide (c.effectiveNumber ≤ T.number best)).filter fun c =>
        decide (c.effectiveNumber = T.number best),
      c ∈ s.pendingForcedChanges ∧ c.effectiveNumber = T.number best := by
    intro c hc
    obtain ⟨hc, heff⟩ := mem_filter.mp hc
    exact ⟨(takeWhile_sublist _).subset hc, of_decide_eq_true heff⟩
  rcases applyForcedLoop_cases hd s best fun c hc => hkind c (hmem c hc).1 with
    herr | hnone | ⟨c, hc, m, hm, hbranch, hok⟩
  · exact .inl herr
  · exact .inr (.inl hnone)
  · exact .inr (.inr ⟨c, (hmem c hc).1, m, hm, ⟨(hmem c hc).2, hbranch⟩, hok⟩)

end

end Forced

end Substrate.Grandpa.AuthoritySet
