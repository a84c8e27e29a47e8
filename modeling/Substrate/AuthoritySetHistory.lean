import Substrate.AuthoritySetCalls

/-!
# The history of authority sets

Runs of an `AuthoritySet` from genesis: changes are added, blocks of one chain are finalized, best
blocks are imported and the set that a forced change returns is adopted.

`Sound` is what every call keeps whatever the digests say. The block numbers of the history are not
part of it: a standard change records the finalized block, a forced change the
`median_last_finalized` of its digest, and nothing relates the two, although `get_set_id` searches
the history as a sorted vector.
-/

namespace Substrate.Grandpa

open List AuthoritySet ForkTree

variable {A H E : Type} {T : BlockTree H} {isDescendentOf : H → H → Except E Bool}
  {setId : Nat} {changes : AuthoritySetChanges Nat}

/-! ## Looking a block up -/

/-- The ids of the history are `0, 1, …, setId - 1`. -/
def CountsUpTo (setId : Nat) (changes : AuthoritySetChanges Nat) : Prop :=
  changes.map Prod.fst = range setId

def Increasing (changes : AuthoritySetChanges Nat) : Prop :=
  changes.Pairwise fun a b => a.2 < b.2

theorem CountsUpTo.append (h : CountsUpTo setId changes) (number : Nat) :
    CountsUpTo (setId + 1) (changes.append setId number) := by
  unfold CountsUpTo at h ⊢
  rw [AuthoritySetChanges.append, map_append, h, range_succ]
  rfl

theorem Increasing.append (h : Increasing changes) {number : Nat}
    (hlast : ∀ last ∈ changes.getLast?, last.2 < number) :
    Increasing (changes.append setId number) := by
  refine pairwise_append.mpr ⟨h, pairwise_singleton .., fun a ha b hb => ?_⟩
  obtain rfl := mem_singleton.mp hb
  -- every entry is at or before the last one
  rcases eq_nil_or_concat' changes with rfl | ⟨init, last, rfl⟩
  · simp at ha
  have hlt := hlast last (by simp)
  rcases mem_append.mp ha with ha | ha
  · exact ((pairwise_append.mp h).2.2 a ha last (by simp)).trans hlt
  · obtain rfl := mem_singleton.mp ha
    exact hlt

/-- The set whose last block is the first recorded one at or after the number; past the last one,
the latest set. -/
theorem getSetId_eq (hids : CountsUpTo setId changes) (hinc : Increasing changes) (number : Nat) :
    changes.getSetId number =
      match changes.find? fun change => decide (number ≤ change.2) with
      | some (id, last) => .set id last
      | none => if changes = [] then .unknown else .latest := by
  have hfind := Vec.find?_eq_getElem?_insertionPoint number hinc
  unfold AuthoritySetChanges.getSetId
  rcases eq_nil_or_concat' changes with rfl | ⟨init, last, rfl⟩
  · rfl
  rw [getLast?_concat, Option.map_some, Option.getD_some]
  by_cases hlast : last.2 < number
  · have hnone : (init ++ [last]).find? (fun change => decide (number ≤ change.2)) = none := by
      refine find?_eq_none.mpr fun a ha => ?_
      simp only [decide_eq_true_eq, not_le]
      rcases mem_append.mp ha with ha | ha
      · exact ((pairwise_append.mp hinc).2.2 a ha last (by simp)).trans hlast
      · obtain rfl := mem_singleton.mp ha
        exact hlast
    rw [if_pos (decide_eq_true hlast), hnone]
    simp
  · rw [if_neg (by simpa using hlast)]
    dsimp only
    rw [← hfind]
    rcases hres : (init ++ [last]).find? (fun change => decide (number ≤ change.2)) with
      _ | ⟨id, n⟩
    · have habsent := find?_eq_none.mp hres last (by simp)
      simp only [decide_eq_true_eq] at habsent
      omega
    -- the entry at index 0 has id 0
    have hzero : Vec.insertionPoint
        (Vec.binarySearchByKey (init ++ [last]) number Prod.snd) = 0 → id = 0 := by
      intro hidx
      rw [hidx, hres] at hfind
      have hid : (range setId)[0]? = some id := by
        rw [← hids, getElem?_map, ← hfind]
        rfl
      obtain ⟨_, hget⟩ := List.getElem?_eq_some_iff.mp hid
      simpa using hget.symm
    rw [hres]
    dsimp only
    rw [if_neg fun h => h.2 (hzero h.1)]

/-! ## Runs -/

/-- An authority set and the last block that `apply_standard_changes` accepted. -/
structure Finality (A H : Type) where
  set : AuthoritySet A H Nat
  finalized : Option H

/-- Blocks are given by hash; their number is the block tree's. -/
inductive Call (A H : Type) where
  | addPendingChange (pending : PendingChange A H Nat)
  | applyStandardChanges (finalizedHash : H)
  | applyForcedChanges (bestHash : H)

namespace Finality

variable [DecidableEq H]

/-- The set that `apply_forced_changes` returns is adopted. -/
def call (T : BlockTree H) (isDescendentOf : H → H → Except E Bool) (w : Finality A H) :
    Call A H → Finality A H
  | .addPendingChange pending =>
    { w with set := (w.set.addPendingChange pending isDescendentOf).2 }
  | .applyStandardChanges hash =>
    match w.set.applyStandardChanges hash (T.number hash) isDescendentOf with
    | (.ok _, s) => ⟨s, some hash⟩
    | (_, s) => { w with set := s }
  | .applyForcedChanges best =>
    match w.set.applyForcedChanges best (T.number best) isDescendentOf with
    | .ok (some (_, s)) => { w with set := s }
    | _ => w

end Finality

/-- Changes of a branch are added in order, and blocks are finalized along one chain. -/
def Call.InOrder (T : BlockTree H) (w : Finality A H) : Call A H → Prop
  | .addPendingChange pending =>
    pending.canonHeight = T.number pending.canonHash ∧
      match pending.delayKind with
      | .best _ => ∀ c ∈ w.set.pendingForcedChanges, ¬T.anc pending.canonHash c.canonHash
      | .finalized => ∀ x ∈ w.set.pendingStandardChanges.nodes, ¬T.anc pending.canonHash x.hash
  | .applyStandardChanges hash => ∀ f, w.finalized = some f → T.anc f hash
  | .applyForcedChanges _ => True

/-- The block a call would record lies above the last recorded one. -/
def Call.Advances (T : BlockTree H) (w : Finality A H) : Call A H → Prop
  | .addPendingChange _ => True
  | .applyStandardChanges hash =>
    ∀ root ∈ w.set.pendingStandardChanges.roots,
      root.data.effectiveNumber ≤ T.number hash → T.ancEq root.hash hash →
      ∀ last ∈ w.set.authoritySetChanges.getLast?, last.2 < T.number hash
  | .applyForcedChanges best =>
    ∀ change ∈ w.set.pendingForcedChanges, AuthoritySet.EffectiveAt T best change →
      ∀ m, change.delayKind = .best m →
      ∀ last ∈ w.set.authoritySetChanges.getLast?, last.2 < m

variable [DecidableEq H] (T : BlockTree H) (isDescendentOf : H → H → Except E Bool)
  (Cond : Finality A H → Call A H → Prop) in
inductive Run : Finality A H → Prop
  | genesis {initial s} (h : genesis initial = some s) : Run ⟨s, none⟩
  | call {w} (c : Call A H) (h : Run w) (horder : c.InOrder T w) (hcond : Cond w c) :
      Run (w.call T isDescendentOf c)

variable {Cond : Finality A H → Call A H → Prop}

theorem Run.mono [DecidableEq H] {Cond' : Finality A H → Call A H → Prop} {w}
    (hrun : Run T isDescendentOf Cond w) (h : ∀ w c, Cond w c → Cond' w c) :
    Run T isDescendentOf Cond' w := by
  induction hrun with
  | genesis hs => exact .genesis hs
  | call c _ horder hcond ih => exact .call c ih horder (h _ c hcond)

/-! ## What every call keeps -/

/-- What holds whatever numbers the digests carry. -/
structure Sound (T : BlockTree H) (s : AuthoritySet A H Nat) : Prop where
  authorities : invalidAuthorityList s.currentAuthorities = false
  wf : ForkTree.ForestWf T s.pendingStandardChanges.roots
  standard : ∀ x ∈ s.pendingStandardChanges.nodes,
    invalidAuthorityList x.data.nextAuthorities = false
  forced : ∀ c ∈ s.pendingForcedChanges,
    invalidAuthorityList c.nextAuthorities = false ∧ ∃ m, c.delayKind = .best m
  sorted : s.pendingForcedChanges.Pairwise fun a b => forcedKey a ≤ forcedKey b
  branches : s.pendingForcedChanges.Pairwise fun a b => T.Unrelated a.canonHash b.canonHash
  ids : CountsUpTo s.setId s.authoritySetChanges

namespace Sound

variable {s : AuthoritySet A H Nat}

theorem of_genesis {initial} (h : genesis initial = some s) : Sound T s := by
  unfold genesis at h
  split at h
  · cases h
  rename_i hvalid
  cases h
  exact
    { authorities := by simpa using hvalid
      wf := ForkTree.ForestWf.nil
      standard := fun x hx => by cases hx
      forced := by simp
      sorted := .nil
      branches := .nil
      ids := rfl }

theorem shrink (h : Sound T s) {t forced} (hwf : ForkTree.ForestWf T t.roots)
    (hnodes : ∀ x ∈ t.nodes, x ∈ s.pendingStandardChanges.nodes)
    (hforced : forced.Sublist s.pendingForcedChanges) :
    Sound T { s with pendingStandardChanges := t, pendingForcedChanges := forced } :=
  { authorities := h.authorities
    wf := hwf
    standard := fun x hx => h.standard x (hnodes x hx)
    forced := fun c hc => h.forced c (hforced.subset hc)
    sorted := h.sorted.sublist hforced
    branches := h.branches.sublist hforced
    ids := h.ids }

section

variable {change : PendingChange A H Nat} (h : Sound T s)
  (hvalid : invalidAuthorityList change.nextAuthorities = false)
include h hvalid

theorem enactStandard (number : Nat) : Sound T (s.enactStandard change number) :=
  { h with
    authorities := hvalid
    ids := h.ids.append number }

theorem enactForced (m : Nat) : Sound T (s.enactForced change m) :=
  { authorities := hvalid
    wf := ForkTree.ForestWf.nil
    standard := fun x hx => by cases hx
    forced := by simp [AuthoritySet.enactForced]
    sorted := .nil
    branches := .nil
    ids := h.ids.append m }

end

variable {pending : PendingChange A H Nat}

theorem insertForced (h : Sound T s) {m : Nat}
    (hvalid : invalidAuthorityList pending.nextAuthorities = false)
    (hkind : pending.delayKind = .best m) (hbranch : ∀ c ∈ s.pendingForcedChanges,
      T.Unrelated pending.canonHash c.canonHash) : Sound T (s.insertForced pending) := by
  have hperm := s.insertForced_perm pending
  refine
    { authorities := h.authorities
      wf := h.wf
      standard := h.standard
      forced := fun c hc => ?_
      sorted := Vec.sorted_insert h.sorted
      branches := ?_
      ids := h.ids }
  · rcases mem_cons.mp (hperm.mem_iff.mp hc) with rfl | hc
    · exact ⟨hvalid, m, hkind⟩
    · exact h.forced c hc
  · exact (pairwise_cons.mpr ⟨hbranch, h.branches⟩).perm hperm.symm fun hab => hab.symm

theorem applies (h : Sound T s) (hash : H) {status s'}
    (happ : AuthoritySet.Applies T hash s status s')
    (hwf : ForkTree.ForestWf T s'.pendingStandardChanges.roots) : Sound T s' := by
  cases happ with
  | enacts change t forced hfin hforced =>
    refine (h.shrink hwf (fun x hx => hfin.mem_nodes hx) hforced).enactStandard ?_ _
    cases hfin with
    | root x hx =>
      exact h.standard x (ForkTree.Node.mem_nodesList_of_mem hx)
    | none _ hresult => exact absurd rfl (hresult change)
  | prunes result t forced changed hresult hfin hforced =>
    exact h.shrink hwf (fun x hx => hfin.mem_nodes hx) hforced

variable [DecidableEq H] {w : Finality A H}

section

variable (hd : ForkTree.Decides T isDescendentOf)
include hd

theorem addPendingChange (h : Sound T w.set) (horder : (Call.addPendingChange pending).InOrder T w) :
    Sound T (w.set.addPendingChange pending isDescendentOf).2 ∧
      (w.set.addPendingChange pending isDescendentOf).2.authoritySetChanges =
        w.set.authoritySetChanges := by
  obtain ⟨hheight, horder⟩ := horder
  rcases w.set.addPendingChange_cases hd pending with ⟨e, he⟩ | ⟨s', hok, hvalid, hadds⟩
  · rw [he]
    exact ⟨h, rfl⟩
  rw [hok]
  cases hadds with
  | forced m hkind hbranch =>
    rw [hkind] at horder
    refine ⟨h.insertForced hvalid hkind fun c hc => ⟨?_, horder c hc, (hbranch c hc).2⟩, rfl⟩
    exact (hbranch c hc).1.symm
  | standard t b hkind himport =>
    rw [hkind] at horder
    have hwf := importBlock_wf hd h.wf pending.canonHash pending horder
    rw [← hheight, himport] at hwf
    rcases w.set.pendingStandardChanges.importBlock_entries pending.canonHash
      pending.canonHeight pending isDescendentOf with ⟨b', -, hperm, -⟩ | ⟨e, he⟩
    · rw [himport] at hperm
      refine ⟨{ h with wf := hwf, standard := fun x hx => ?_ }, rfl⟩
      rcases mem_cons.mp (hperm.mem_iff.mp (entry_mem_entriesOf hx)) with
        hnew | hold
      · have hdata : x.data = pending := congrArg (fun e => e.2.2) hnew
        rw [hdata]
        exact hvalid
      · obtain ⟨y, hy, hyx⟩ := mem_entriesOf.mp hold
        have hdata : y.data = x.data := congrArg (fun e => e.2.2) hyx
        exact hdata ▸ h.standard y hy
    · rw [himport] at he
      cases he

theorem call (h : Sound T w.set) {c} (horder : c.InOrder T w) :
    Sound T (w.call T isDescendentOf c).set ∧ (c.Advances T w →
      Increasing w.set.authoritySetChanges →
        Increasing (w.call T isDescendentOf c).set.authoritySetChanges) := by
  cases c with
  | addPendingChange pending =>
    obtain ⟨hsound, hchanges⟩ := h.addPendingChange hd horder
    exact ⟨hsound, fun _ hinc => hchanges ▸ hinc⟩
  | applyStandardChanges hash =>
    simp only [Finality.call]
    rcases applyStandardChanges_cases hd h.wf hash with
      ⟨e, he⟩ | ⟨status, s', hok, happ, hwf, -⟩
    · rw [he]
      exact ⟨h, fun _ hinc => hinc⟩
    rw [hok]
    refine ⟨h.applies hash happ hwf, fun hadv hinc => ?_⟩
    cases happ with
    | enacts change t forced hfin _ =>
      refine hinc.append ?_
      cases hfin with
      | root x hx hpred habove => exact hadv x hx (of_decide_eq_true hpred) habove
      | none _ hresult => exact absurd rfl (hresult change)
    | prunes => exact hinc
  | applyForcedChanges best =>
    simp only [Finality.call]
    rcases applyForcedChanges_cases hd w.set best fun c hc => (h.forced c hc).2 with
      ⟨e, he⟩ | hnone | ⟨c, hc, m, hm, heff, hok⟩
    · rw [he]
      exact ⟨h, fun _ hinc => hinc⟩
    · rw [hnone]
      exact ⟨h, fun _ hinc => hinc⟩
    · rw [hok]
      exact ⟨h.enactForced (h.forced c hc).1 m, fun hadv hinc =>
        hinc.append (hadv c hc heff m hm)⟩

theorem of_run (hrun : Run T isDescendentOf Cond w) : Sound T w.set := by
  induction hrun with
  | genesis h => exact of_genesis h
  | call c _ horder _ ih => exact (ih.call hd horder).1

end

end Sound

/-! ## The recorded numbers -/

section Ordered

variable [DecidableEq H] {w : Finality A H}

theorem Increasing.of_run (hd : ForkTree.Decides T isDescendentOf)
    (hrun : Run T isDescendentOf (fun w c => c.Advances T w) w) :
    Increasing w.set.authoritySetChanges := by
  induction hrun with
  | @genesis initial s h =>
    unfold genesis at h
    split at h
    · cases h
    · cases h
      exact .nil
  | call c hrun horder hadv ih => exact ((Sound.of_run hd hrun).call hd horder).2 hadv ih

structure WellOrdered (T : BlockTree H) (s : AuthoritySet A H Nat) : Prop where
  authorities : s.currentAuthorities ≠ [] ∧ ∀ a ∈ s.currentAuthorities, 0 < a.2
  forced_sorted : s.pendingForcedChanges.Pairwise fun a b => forcedKey a ≤ forcedKey b
  forced_branches : s.pendingForcedChanges.Pairwise fun a b => T.Unrelated a.canonHash b.canonHash
  ids : s.authoritySetChanges.map Prod.fst = range s.setId
  increasing : s.authoritySetChanges.Pairwise fun a b => a.2 < b.2
  lookup : ∀ number, s.authoritySetChanges.getSetId number =
    match s.authoritySetChanges.find? fun change => decide (number ≤ change.2) with
    | some (id, last) => .set id last
    | none => if s.authoritySetChanges = [] then .unknown else .latest

/-- **The set history is well ordered** in every state reached by calls that advance:
valid authorities, forced changes sorted and one to a branch, the history
`(0, b0), …, (setId - 1, b)` with increasing numbers, and lookups that find the set of
every block. -/
theorem history_wellOrdered (hd : ForkTree.Decides T isDescendentOf)
    (hrun : Run T isDescendentOf (fun w c => c.Advances T w) w) : WellOrdered T w.set := by
  have hsound := Sound.of_run hd hrun
  have hinc := Increasing.of_run hd hrun
  exact
    { authorities := invalidAuthorityList_eq_false.mp hsound.authorities
      forced_sorted := hsound.sorted
      forced_branches := hsound.branches
      ids := hsound.ids
      increasing := hinc
      lookup := getSetId_eq hsound.ids hinc }

end Ordered

/-! ## A forced change with an old median -/

section Chain

def standardAtOne : PendingChange Nat Nat Nat := ⟨[(8, 1)], 0, 1, 1, .finalized⟩

def forcedAtFour (median : Nat) : PendingChange Nat Nat Nat := ⟨[(9, 1)], 0, 4, 4, .best median⟩

/-- Block 2 is finalized and enacts the standard change of block 1. -/
def afterStandard : Finality Nat Nat :=
  ⟨⟨[(8, 1)], 1, ⟨[], some 2⟩, [], [(0, 2)]⟩, some 2⟩

/-- Block 4 then enacts the forced change it signals. -/
def afterForced (median : Nat) : Finality Nat Nat :=
  ⟨⟨[(9, 1)], 2, new, [], [(0, 2), (1, median)]⟩, some 2⟩

theorem run_afterStandard : Run chain chainQuery (fun w c => c.Advances chain w) afterStandard := by
  have hset : genesis [(7, 1)] = some (⟨[(7, 1)], 0, new, [], []⟩ : AuthoritySet Nat Nat Nat) := rfl
  have hadd : Run chain chainQuery (fun w c => c.Advances chain w)
      (⟨⟨[(7, 1)], 0, ⟨[.mk 1 1 standardAtOne []], none⟩, [], []⟩, none⟩ : Finality Nat Nat) :=
    .call (.addPendingChange standardAtOne) (.genesis hset) ⟨rfl, fun x hx => by cases hx⟩ trivial
  exact .call (.applyStandardChanges 2) hadd (fun f hf => by cases hf)
    (fun _ _ _ _ last hlast => by cases hlast)

/-- A forced change with a median below the last finalized block: block 2 is the last block of set 0
and is looked up in the latest set. -/
theorem forced_change_breaks_order :
    ∃ w : Finality Nat Nat, Run chain chainQuery (fun _ _ => True) w ∧
      w.set.authoritySetChanges = [(0, 2), (1, 1)] ∧
      w.set.authoritySetChanges.getSetId 2 = .latest ∧ ¬WellOrdered chain w.set := by
  have hstart : Run chain chainQuery (fun _ _ => True) afterStandard :=
    run_afterStandard.mono fun _ _ _ => trivial
  have hrun : Run chain chainQuery (fun _ _ => True) (afterForced 1) :=
    .call (.applyForcedChanges 4) (.call (.addPendingChange (forcedAtFour 1)) hstart
      ⟨rfl, fun c hc => by cases hc⟩ trivial) trivial trivial
  refine ⟨afterForced 1, hrun, rfl, rfl, fun h => ?_⟩
  exact absurd h.increasing (by simp [afterForced])

theorem advancing_history_wellOrdered :
    Run chain chainQuery (fun w c => c.Advances chain w) (afterForced 3) ∧
      WellOrdered chain (afterForced 3).set := by
  have hadd : Run chain chainQuery (fun w c => c.Advances chain w)
      ⟨{ afterStandard.set with pendingForcedChanges := [forcedAtFour 3] }, some 2⟩ :=
    .call (.addPendingChange (forcedAtFour 3)) run_afterStandard
      ⟨rfl, fun c hc => by cases hc⟩ trivial
  have hrun : Run chain chainQuery (fun w c => c.Advances chain w) (afterForced 3) := by
    refine .call (.applyForcedChanges 4) hadd trivial fun change hchange _ m hm last hlast => ?_
    obtain rfl := mem_singleton.mp hchange
    cases hm
    cases hlast
    decide
  exact ⟨hrun, history_wellOrdered chainQuery_decides hrun⟩

end Chain

end Substrate.Grandpa
