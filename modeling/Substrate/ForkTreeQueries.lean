import Substrate.ForkTreeGrowth
import Substrate.ForkTreeSearch

/-!
# What a fork tree answers

With a client that answers truthfully, each operation on a well-formed tree has one right outcome.
`find_node_where` finds the highest ancestor of the block that passes the predicate, `prune` divides
the tree at that node, `finalize_with_ancestors` keeps the descendants of the block, and
`finalizes_any_with_descendent_if` foretells what `finalize_with_descendent_if` does.
-/

namespace Substrate.ForkTree

open List Node BlockTree Outcome

variable {H V E : Type} {T : BlockTree H} {isDescendentOf : H → H → Except E Bool}
  {t t' : ForkTree H Nat V} {hash : H} {predicate : V → Bool}
  {x : Node H Nat V} {N : Type} {s : List (Node H Nat V) × Nat × Bool}

/-! ## Searching -/

def nodeAtPath {N : Type} (t : ForkTree H N V) : List Nat → Option (Node H N V)
  | [] => none
  | i :: path => (t.roots[i]?).bind (nodeAt path)

/-- The node is a strict ancestor of the block and passes the predicate. -/
structure Matches (T : BlockTree H) (hash : H) (predicate : V → Bool) (t : ForkTree H Nat V)
    (x : Node H Nat V) : Prop where
  mem : x ∈ t.nodes
  above : T.anc x.hash hash
  passes : predicate x.data = true

/-- The match of greatest number. -/
structure Highest (T : BlockTree H) (hash : H) (predicate : V → Bool) (t : ForkTree H Nat V)
    (x : Node H Nat V) : Prop extends Matches T hash predicate t x where
  highest : ∀ y, Matches T hash predicate t y → y ≠ x → y.number < x.number

theorem Highest.unique {y} (hx : Highest T hash predicate t x) (hy : Highest T hash predicate t y) :
    x = y := by
  by_contra hne
  exact Nat.lt_asymm (hy.highest x hx.toMatches hne) (hx.highest y hy.toMatches fun h => hne h.symm)

section

variable (hd : Decides T isDescendentOf)
include hd

theorem Matches.good (hx : Matches T hash predicate t x) :
    Good T (fun a => isDescendentOf a hash) (fun a => T.anc a hash) predicate t.entries x.entry :=
  ⟨hx.above, hx.passes, .inl (hd.of_anc hx.above)⟩

theorem Deepest.highest (hwf : ForestWf T t.roots)
    (h : Deepest T (fun a => isDescendentOf a hash) (fun a => T.anc a hash) predicate t.roots x) :
    Highest T hash predicate t x := by
  refine ⟨⟨h.mem, h.good.above, h.good.passes⟩, fun y hy hne => ?_⟩
  rcases h.deepest _ (entry_mem_entriesOf hy.mem) (hy.good hd) with heq | hanc
  · exact absurd (inj_on_of_nodup_map hwf.hashes_nodup hy.mem h.mem heq) hne
  · rw [(hwf.mem_nodes hy.mem).1.number_eq, (hwf.mem_nodes h.mem).1.number_eq]
    exact anc_number_lt hanc

/-- **`find_node_where` finds the highest match**, if there is one, and the index path of
`find_node_index_where` leads to it. -/
theorem findNodeWhere_highest (hwf : ForestWf T t.roots) (hash : H) (predicate : V → Bool) :
    ∃ found path, t.findNodeWhere hash (T.number hash) isDescendentOf predicate = .ok found ∧
      t.findNodeIndexWhere hash (T.number hash) isDescendentOf predicate = .ok path ∧
      (found ≠ none ↔ ∃ x, Matches T hash predicate t x) ∧
      (∀ x, found = some x → Highest T hash predicate t x) ∧
      path.bind t.nodeAtPath = found ∧ (path = none ↔ found = none) := by
  have hs := search_anc hd hash
  rcases find_spec hs predicate hwf with
    ⟨k, c, path, x, hpath, hfind, hk, hat, hdeep⟩ | ⟨hpath, hfind, b, hno⟩
  · have hx := hdeep.highest hd hwf
    refine ⟨some x, some (k :: path), hfind, hpath, ?_, ?_, ?_, by simp⟩
    · exact ⟨fun _ => ⟨x, hx.toMatches⟩, fun _ => by simp⟩
    · rintro _ ⟨⟩
      exact hx
    · rw [Option.bind_some, nodeAtPath, hk, Option.bind_some, hat]
  · refine ⟨none, none, hfind, hpath, ?_, ?_, rfl, by simp⟩
    · simpa using fun x hx => hno.none_good _ (entry_mem_entriesOf hx.mem) (hx.good hd)
    · rintro _ ⟨⟩

end

theorem chainTree_wf : ForestWf chain chainTree.roots := by
  have hroots : chainTree.roots = [.mk 1 1 () [.mk 2 2 () []]] := rfl
  rw [hroots]
  have hnumber : ∀ n, chain.number n = n := fun _ => rfl
  exact ⟨by simp [Node.Wf, Node.WfList, chain_anc_iff, hnumber], by simp⟩

theorem findNodeWhere_highest_chain : ∃ x,
    chainTree.findNodeWhere 3 3 chainQuery (fun _ => true) = .ok (some x) ∧
      Highest chain 3 (fun _ => true) chainTree x := by
  obtain ⟨found, path, hfound, -, hiff, hhighest, -⟩ :=
    findNodeWhere_highest chainQuery_decides chainTree_wf 3 (fun _ => true)
  have hsome : chainTree.findNodeWhere 3 3 chainQuery (fun _ => true) =
      .ok (some (.mk 2 2 () [])) := rfl
  cases hfound.symm.trans hsome
  exact ⟨_, hsome, hhighest _ rfl⟩

/-! ## Iterating and pruning -/

/-- `ForkTreeIterator` and `RemovedIterator`: take a node off the stack and push its children.
`none` if the stack is not empty after so many steps. -/
def unroll {N : Type} : Nat → List (Node H N V) → Option (List (Node H N V))
  | _, [] => some []
  | 0, _ :: _ => none
  | fuel + 1, node :: stack => (unroll fuel (node.children ++ stack)).map (node :: ·)

theorem nodesList_append (l l' : List (Node H N V)) :
    nodesList (l ++ l') = nodesList l ++ nodesList l' := by
  induction l with
  | nil => simp
  | cons c cs ih => simp [ih]

theorem unroll_eq_nodesList {fuel : Nat} {stack : List (Node H N V)}
    (hfuel : (nodesList stack).length ≤ fuel) :
    unroll fuel stack = some (nodesList stack) := by
  induction fuel generalizing stack with
  | zero =>
    cases stack with
    | nil => simp [unroll]
    | cons node stack =>
      obtain ⟨h, n, v, cs⟩ := node
      simp at hfuel
  | succ fuel ih =>
    cases stack with
    | nil => simp [unroll]
    | cons node stack =>
      obtain ⟨h, n, v, cs⟩ := node
      rw [nodesList_cons, nodes_mk, cons_append, ← nodesList_append] at hfuel ⊢
      rw [unroll, children_mk, ih (Nat.le_of_succ_le_succ hfuel), Option.map_some]

/-- What the iterator that `prune` returns yields. The vector's end is the top of the stack. -/
def removedIterator {N : Type} (fuel : Nat) (removed : List (Node H N V)) :
    Option (List (H × N × V)) :=
  (unroll fuel removed.reverse).map (·.map entry)

theorem removedIterator_spec (removed : List (Node H N V)) :
    ∃ fuel yielded, removedIterator fuel removed = some yielded ∧
      yielded.Perm (entriesOf removed) := by
  refine ⟨(nodesList removed.reverse).length, _, ?_, entriesOf_perm (reverse_perm removed)⟩
  rw [removedIterator, unroll_eq_nodesList (Nat.le_refl _)]
  rfl

variable [DecidableEq H]

/-- **`prune` divides the tree.** What it keeps and what its iterator yields are the old entries.
Without a match everything stays. Otherwise the highest match is the only root that stays, with
the child that is the block or above it. -/
theorem prune_partitions (hd : Decides T isDescendentOf) (hwf : ForestWf T t.roots)
    (hash : H) (predicate : V → Bool) :
    ∃ removed t' fuel yielded,
      t.prune hash (T.number hash) isDescendentOf predicate = (.ok removed, t') ∧
      removedIterator fuel removed = some yielded ∧ t.entries.Perm (t'.entries ++ yielded) ∧
      ((∀ x, ¬Matches T hash predicate t x) → yielded = [] ∧ t' = t.rebalance) ∧
      ∀ x, Highest T hash predicate t x → ∃ root, t'.roots = [root] ∧ root.entry = x.entry ∧
        root.children.length ≤ 1 ∧
        ∀ c, c ∈ root.children ↔ ∃ d ∈ x.children, T.ancEq d.hash hash ∧ d.rebalance = c := by
  rcases prune_cases hd hwf hash predicate with
    ⟨hprune, hnone⟩ | ⟨x, kept, removed, hprune, hdeep, hmem, hlen, hperm⟩
  · refine ⟨[], _, 0, [], hprune, rfl, ?_, fun _ => ⟨rfl, rfl⟩, fun x hx => ?_⟩
    · simpa using (entries_rebalance t).symm
    · have hnot := hnone _ (entry_mem_entriesOf hx.mem) hx.above
      exact absurd (hnot.symm.trans hx.passes) (by simp)
  have hx := hdeep.highest hd hwf
  obtain ⟨fuel, yielded, hiter, hyielded⟩ := removedIterator_spec removed
  refine ⟨removed, _, fuel, yielded, hprune, hiter, ?_, fun hno => absurd hx.toMatches (hno x), ?_⟩
  · refine hperm.trans (List.Perm.append ?_ hyielded.symm)
    refine List.Perm.trans ?_ (entries_rebalance _).symm
    rw [entries, entriesOf_cons, entriesOf_nil, append_nil]
    rfl
  · intro y hy
    obtain rfl := hx.unique hy
    refine ⟨Node.rebalance (.mk x.hash x.number x.data kept), rfl, ?_, ?_, fun c => ?_⟩
    · rw [rebalance_mk]
      rfl
    · rw [rebalance_mk, children_mk, length_map, (sortByDepth_perm kept).length_eq]
      exact hlen
    · rw [rebalance_mk, children_mk, mem_map]
      refine exists_congr fun d => ?_
      rw [(sortByDepth_perm kept).mem_iff, hmem, and_assoc]

theorem prune_partitions_chain : ∃ removed t' fuel yielded,
    chainTree.prune 3 3 chainQuery (fun _ => true) = (.ok removed, t') ∧
      removedIterator fuel removed = some yielded ∧
      chainTree.entries.Perm (t'.entries ++ yielded) := by
  obtain ⟨removed, t', fuel, yielded, hprune, hiter, hperm, -⟩ :=
    prune_partitions chainQuery_decides chainTree_wf 3 (fun _ => true)
  exact ⟨removed, t', fuel, yielded, hprune, hiter, hperm⟩

/-! ## Finalizing with ancestors -/

/-- What descends from the block stays, and the result says whether the block was in the tree and
whether anything was removed. -/
structure KeepsBelow (T : BlockTree H) (hash : H) (t : ForkTree H Nat V)
    (result : FinalizationResult V) (t' : ForkTree H Nat V) : Prop where
  nodes : ∀ x, x ∈ t'.nodes ↔ x ∈ t.nodes ∧ T.anc hash x.hash
  best : t'.bestFinalizedNumber = some (T.number hash)
  found : ∀ data, result = .changed (some data) ↔ ∃ x ∈ t.nodes, x.hash = hash ∧ x.data = data
  changed : result = .changed none ↔ (∀ x ∈ t.nodes, x.hash ≠ hash) ∧ ∃ x ∈ t.nodes, x ∉ t'.nodes
  unchanged : result = .unchanged ↔ (∀ x ∈ t.nodes, x.hash ≠ hash) ∧ ∀ x ∈ t.nodes, x ∈ t'.nodes

variable {result : FinalizationResult V} {roots l : List (Node H Nat V)} {root : Node H Nat V}

section

omit [DecidableEq H]

theorem KeepsBelow.agree {result' t1 t₂} (h : KeepsBelow T hash t result t1)
    (h' : KeepsBelow T hash t result' t₂) :
    result' = result ∧ ∀ x, x ∈ t₂.nodes ↔ x ∈ t1.nodes := by
  have hnodes : ∀ x, x ∈ t₂.nodes ↔ x ∈ t1.nodes := fun x => (h'.nodes x).trans (h.nodes x).symm
  refine ⟨?_, hnodes⟩
  cases result with
  | changed data =>
    cases data with
    | some data => exact (h'.found data).mpr ((h.found data).mp rfl)
    | none =>
      refine h'.changed.mpr ?_
      simp only [hnodes]
      exact h.changed.mp rfl
  | unchanged =>
    refine h'.unchanged.mpr ?_
    simp only [hnodes]
    exact h.unchanged.mp rfl

theorem keepsBelow_of_node (hwf : ForestWf T t.roots) (hx : x ∈ t.nodes) :
    KeepsBelow T x.hash t (.changed (some x.data)) ⟨x.children, some x.number⟩ where
  nodes := by
    intro y
    constructor
    · intro hy
      have hyt : y ∈ t.nodes := nodesList_trans hx (mem_nodes_iff.mpr (.inr hy))
      exact ⟨hyt, (hwf.mem_descendants_iff hx hyt).mp hy⟩
    · rintro ⟨hyt, hanc⟩
      exact (hwf.mem_descendants_iff hx hyt).mpr hanc
  best := congrArg some (hwf.mem_nodes hx).1.number_eq
  found := by
    intro data
    constructor
    · rintro ⟨⟩
      exact ⟨x, hx, rfl, rfl⟩
    · rintro ⟨y, hy, heq, rfl⟩
      rw [inj_on_of_nodup_map hwf.hashes_nodup hy hx heq]
  changed := by simpa using fun h => absurd rfl (h x hx)
  unchanged := by simpa using fun h => absurd rfl (h x hx)

theorem keepsBelow_of_absent {changed : Bool} (habsent : ∀ x ∈ t.nodes, x.hash ≠ hash)
    (hnodes : ∀ x, x ∈ nodesList roots ↔ x ∈ t.nodes ∧ T.anc hash x.hash)
    (hchanged : changed = true ↔ ∃ x ∈ t.nodes, x ∉ nodesList roots) :
    KeepsBelow T hash t (if changed then .changed none else .unchanged)
      ⟨roots, some (T.number hash)⟩ where
  nodes := hnodes
  best := rfl
  found := by
    intro data
    refine ⟨fun h => ?_, fun ⟨x, hx, heq, _⟩ => absurd heq (habsent x hx)⟩
    cases changed <;> simp at h
  changed := by
    rw [and_iff_right habsent]
    refine Iff.trans ?_ hchanged
    cases changed <;> simp
  unchanged := by
    rw [and_iff_right habsent, ← not_iff_not]
    push Not
    refine Iff.trans ?_ hchanged
    cases changed <;> simp

end

/-- The block and what is below it are still there. -/
structure Worklist (T : BlockTree H) (hash : H) (t : ForkTree H Nat V)
    (s : List (Node H Nat V) × Nat × Bool) : Prop where
  wf : ForestWf T s.1
  sub : ∀ x ∈ nodesList s.1, x ∈ t.nodes
  keep : ∀ x ∈ t.nodes, T.ancEq hash x.hash → x ∈ nodesList s.1
  flag : s.2.2 = true ↔ ∃ x ∈ t.nodes, x ∉ nodesList s.1

section

omit [DecidableEq H]

theorem mem_nodesList_of_subset {l'} (h : ∀ c ∈ l, c ∈ l') (hx : x ∈ nodesList l) :
    x ∈ nodesList l' := by
  obtain ⟨c, hc, hxc⟩ := mem_nodesList.mp hx
  exact mem_nodesList.mpr ⟨c, h c hc, hxc⟩

theorem Worklist.remove {more} {idx : Nat} {changed : Bool}
    (h : Worklist T hash t (roots, idx, changed)) (hroot : roots[idx]? = some root)
    (hmore : more.Sublist root.children)
    (hkeep : ∀ x ∈ root.nodes, T.ancEq hash x.hash → x ∈ nodesList more) :
    Worklist T hash t (Vec.swapRemove roots idx ++ more, idx, true) := by
  have hperm := Vec.cons_swapRemove_perm hroot
  have hwf : ForestWf T (root :: Vec.swapRemove roots idx) := h.wf.perm hperm.symm
  have hmem := mem_of_getElem? hroot
  have hbelow : ∀ x ∈ nodesList more, x ∈ root.descendants := fun x =>
    mem_nodesList_of_subset fun c hc => hmore.subset hc
  exact
    { wf := hwf.open_root.sublist (List.Sublist.append (List.Sublist.refl _) hmore)
      sub := by
        intro x hx
        rw [nodesList_append, mem_append] at hx
        refine h.sub x ?_
        rcases hx with hx | hx
        · exact mem_nodesList_of_subset (fun c hc => Vec.mem_of_mem_swapRemove hroot hc) hx
        · exact mem_nodesList.mpr ⟨root, hmem, mem_nodes_iff.mpr (.inr (hbelow x hx))⟩
      keep := by
        intro x hx hanc
        rw [nodesList_append, mem_append]
        obtain ⟨c, hc, hxc⟩ := mem_nodesList.mp (h.keep x hx hanc)
        rcases mem_cons.mp (hperm.mem_iff.mpr hc) with rfl | hc
        · exact .inr (hkeep x hxc hanc)
        · exact .inl (mem_nodesList.mpr ⟨c, hc, hxc⟩)
      flag := by
        refine iff_of_true rfl ⟨root, h.sub root (mem_nodesList_of_mem hmem), fun hin => ?_⟩
        rw [nodesList_append, mem_append] at hin
        rcases hin with hin | hin
        · obtain ⟨c, hc, hrc⟩ := mem_nodesList.mp hin
          have hcr := ((hwf.wf c (mem_cons_of_mem _ hc)).nodes root hrc).2
          exact ((pairwise_cons.mp hwf.unrelated).1 c hc).not_ancEq (.inl rfl) hcr
        · exact anc_irrefl _ ((hwf.wf root mem_cons_self).anc_descendant (hbelow root hin)) }

end

theorem Worklist.step (hd : Decides T isDescendentOf) {s'} (h : Worklist T hash t s)
    (hstep : WorklistStep hash (T.number hash) isDescendentOf s s') : Worklist T hash t s' := by
  obtain ⟨root, hroot, ⟨-, rfl⟩ | ⟨hanc, rfl⟩ | ⟨hne, hdown, hup, rfl⟩⟩ := hstep.cases hd
  · exact ⟨h.wf, h.sub, h.keep, h.flag⟩
  · refine h.remove hroot (List.Sublist.refl _) fun x hx hxanc => ?_
    rcases mem_nodes_iff.mp hx with rfl | hx
    · exact absurd (hanc.trans_ancEq hxanc) (anc_irrefl _)
    · exact hx
  · have hrootwf := h.wf.wf root (mem_of_getElem? hroot)
    rw [hrootwf.number_eq] at hdown hup
    have hun : T.Unrelated hash root.hash := ⟨hne.symm,
      fun h => hdown (anc_number_lt h) h, fun h => hup (anc_number_lt h) h⟩
    exact h.remove hroot (nil_sublist _) fun x hx hanc =>
      (hun.not_ancEq hanc (hrootwf.nodes x hx).2).elim

theorem worklist_keeps (hd : Decides T isDescendentOf) (hwf : ForestWf T t.roots)
    (h : Relation.ReflTransGen (WorklistStep hash (T.number hash) isDescendentOf)
      (t.roots, 0, false) s) : Worklist T hash t s := by
  induction h with
  | refl => exact ⟨hwf, fun _ hx => hx, fun _ hx _ => hx, by simp [nodes]⟩
  | tail _ hstep ih => exact ih.step hd hstep

omit [DecidableEq H] in
theorem Worklist.ended (h : Worklist T hash t s) (hroots : ∀ root ∈ s.1, T.anc hash root.hash) :
    KeepsBelow T hash t (if s.2.2 then .changed none else .unchanged)
      ⟨s.1, some (T.number hash)⟩ := by
  have hanc : ∀ x ∈ nodesList s.1, T.anc hash x.hash := by
    intro x hx
    obtain ⟨c, hc, hxc⟩ := mem_nodesList.mp hx
    exact (hroots c hc).trans_ancEq ((h.wf.wf c hc).nodes x hxc).2
  refine keepsBelow_of_absent (fun x hx heq => ?_) (fun x => ⟨fun hx => ⟨h.sub x hx, hanc x hx⟩,
    fun ⟨hx, hxanc⟩ => h.keep x hx (.inr hxanc)⟩) h.flag
  exact anc_irrefl hash (heq ▸ hanc x (h.keep x hx (.inl heq.symm)))

section

variable (hd : Decides T isDescendentOf)
include hd

omit [DecidableEq H] in
theorem descendsFromRoot_ok (hwf : ForestWf T l) (hash : H) :
    ∃ b, descendsFromRoot hash (T.number hash) isDescendentOf l = .ok b ∧
      (b = false → ∀ root ∈ l, ¬T.anc root.hash hash) := by
  induction l with
  | nil => exact ⟨false, by rw [descendsFromRoot], by simp⟩
  | cons root rest ih =>
    obtain ⟨b, hb, hnone⟩ := ih (hwf.sublist (sublist_cons_self ..))
    rw [descendsFromRoot, (hwf.wf root mem_cons_self).number_eq]
    by_cases hanc : T.anc root.hash hash
    · exact ⟨true, by rw [if_pos (anc_number_lt hanc), hd.of_anc hanc], by simp⟩
    · refine ⟨b, by rw [hd.of_not_anc hanc, ite_self]; exact hb, fun hf => ?_⟩
      exact forall_mem_cons.mpr ⟨hanc, hnone hf⟩

theorem finalize_keepsBelow (hwf : ForestWf T t.roots)
    (h : t.finalize hash (T.number hash) isDescendentOf = (.ok result, t')) :
    KeepsBelow T hash t result t' := by
  unfold finalize at h
  split at h
  · cases h
  rcases finalizeRoot_eq t hash with ⟨node, hnode, rfl, hfinal⟩ | ⟨hfinal, hroots⟩
  · rw [hfinal] at h
    cases h
    exact keepsBelow_of_node hwf (mem_nodesList_of_mem hnode)
  rw [hfinal] at h
  obtain ⟨b, hb, hnone⟩ := descendsFromRoot_ok hd hwf hash
  have hfilter : ∀ root ∈ t.roots, ∃ b, (if T.number hash < root.number then
      isDescendentOf hash root.hash else .ok false) = .ok b ∧
        (b = true ↔ T.anc hash root.hash) := by
    intro root hroot
    obtain ⟨r, hr, hiff⟩ := hd hash root.hash
    rw [(hwf.wf root hroot).number_eq]
    by_cases hlt : T.number hash < T.number root.hash
    · exact ⟨r, by rw [if_pos hlt, hr], hiff⟩
    · exact ⟨false, by rw [if_neg hlt], by
        simpa using fun hanc => hlt (anc_number_lt hanc)⟩
  obtain ⟨changed, roots, hretain, hmem, hchanged⟩ := retainRoots_filter hfilter
  rw [hb] at h
  cases b with
  | true => cases h
  | false =>
    rw [hretain] at h
    cases h
    -- the root of a node at or below the block is below the block
    have hbelow : ∀ root ∈ t.roots, ∀ x ∈ root.nodes, T.ancEq hash x.hash →
        T.anc hash root.hash := by
      intro root hroot x hx hanc
      by_contra hnot
      exact BlockTree.Unrelated.not_ancEq ⟨(hroots root hroot).symm, hnot,
        hnone rfl root hroot⟩ hanc ((hwf.wf root hroot).nodes x hx).2
    have hnodes : ∀ x, x ∈ nodesList roots ↔ x ∈ t.nodes ∧ T.anc hash x.hash := by
      intro x
      constructor
      · intro hx
        obtain ⟨root, hroot, hxr⟩ := mem_nodesList.mp hx
        obtain ⟨hroot, hanc⟩ := (hmem root).mp hroot
        exact ⟨mem_nodesList.mpr ⟨root, hroot, hxr⟩,
          hanc.trans_ancEq ((hwf.wf root hroot).nodes x hxr).2⟩
      · rintro ⟨hx, hanc⟩
        obtain ⟨root, hroot, hxr⟩ := mem_nodesList.mp hx
        exact mem_nodesList.mpr ⟨root, (hmem root).mpr ⟨hroot,
          hbelow root hroot x hxr (.inr hanc)⟩, hxr⟩
    refine keepsBelow_of_absent (fun x hx heq => ?_) hnodes (hchanged.trans ⟨?_, ?_⟩)
    · obtain ⟨root, hroot, hxr⟩ := mem_nodesList.mp hx
      have hanc := hbelow root hroot x hxr (.inl heq.symm)
      exact anc_irrefl _ (heq ▸ hanc.trans_ancEq ((hwf.wf root hroot).nodes x hxr).2)
    · rintro ⟨root, hroot, hnot⟩
      refine ⟨root, mem_nodesList_of_mem hroot, ?_⟩
      exact fun hin => hnot ((hnodes root).mp hin).2
    · rintro ⟨x, hx, hnot⟩
      obtain ⟨root, hroot, hxr⟩ := mem_nodesList.mp hx
      refine ⟨root, hroot, fun hanc => hnot ((hnodes x).mpr ⟨hx, ?_⟩)⟩
      exact hanc.trans_ancEq ((hwf.wf root hroot).nodes x hxr).2

/-- **`finalize_with_ancestors` keeps exactly the descendants of the block**, and agrees with
`finalize` where that succeeds. -/
theorem finalizeWithAncestors_keepsBelow (hwf : ForestWf T t.roots) (hash : H)
    (habove : ∀ best, t.bestFinalizedNumber = some best → best < T.number hash) :
    ∃ result t', t.finalizeWithAncestors hash (T.number hash) isDescendentOf = (.ok result, t') ∧
      KeepsBelow T hash t result t' ∧
      ∀ result₂ t₂, t.finalize hash (T.number hash) isDescendentOf = (.ok result₂, t₂) →
        result₂ = result ∧ ∀ x, x ∈ t₂.nodes ↔ x ∈ t'.nodes := by
  have hkeeps : ∃ result t',
      t.finalizeWithAncestors hash (T.number hash) isDescendentOf = (.ok result, t') ∧
        KeepsBelow T hash t result t' := by
    rcases finalizeWithAncestors_cases t hash (T.number hash) isDescendentOf with
      ⟨hrev, -⟩ | ⟨-, ⟨node, hnode, rfl, heq⟩ | ⟨-, s, hrun, hends⟩⟩
    · rw [isReverted_eq_false_iff.mpr habove] at hrev
      cases hrev
    · exact ⟨_, _, heq, keepsBelow_of_node hwf (mem_nodesList_of_mem hnode)⟩
    · have hwork := worklist_keeps hd hwf hrun
      generalize t.finalizeWithAncestors hash (T.number hash) isDescendentOf = r at hends ⊢
      cases hends with
      | done hend =>
        exact ⟨_, _, rfl, hwork.ended ((worklist_met hd hrun).2.ended hend)⟩
      | found hroot hhash =>
        subst hhash
        refine ⟨_, _, rfl, keepsBelow_of_node hwf (hwork.sub _ ?_)⟩
        exact mem_nodesList_of_mem (mem_of_getElem? hroot)
      | failed hroot hpos =>
        rcases rootPosition_spec hd hpos with ⟨-, h⟩ | ⟨-, h⟩ | ⟨-, h⟩ | ⟨-, -, -, h⟩ <;> cases h
  obtain ⟨result, t', hok, hkeeps⟩ := hkeeps
  exact ⟨result, t', hok, hkeeps, fun _ _ hfinal => hkeeps.agree (finalize_keepsBelow hd hwf hfinal)⟩

end

def threeNodes : ForkTree Nat Nat Unit := ⟨[.mk 1 1 () [.mk 2 2 () [.mk 3 3 () []]]], none⟩

theorem threeNodes_keepsBelow : ∃ result t',
    threeNodes.finalizeWithAncestors 2 2 chainQuery = (.ok result, t') ∧
      KeepsBelow chain 2 threeNodes result t' ∧ t'.nodes = [.mk 3 3 () []] := by
  have hnumber : ∀ n, chain.number n = n := fun _ => rfl
  have hwf : ForestWf chain threeNodes.roots :=
    ⟨by simp [threeNodes, Node.Wf, Node.WfList, chain_anc_iff, hnumber], by simp [threeNodes]⟩
  obtain ⟨result, t', hok, hkeeps, -⟩ :=
    finalizeWithAncestors_keepsBelow chainQuery_decides hwf 2 (fun _ h => by cases h)
  have hnodes := congrArg (fun r => r.2.nodes) hok
  exact ⟨result, t', hok, hkeeps, hnodes.symm.trans rfl⟩

/-! ## The query and the action -/

def nodeIter {N : Type} (t : ForkTree H N V) : List (Node H N V) :=
  (unroll t.nodes.length t.roots).getD []

omit [DecidableEq H] in
theorem nodeIter_eq (t : ForkTree H Nat V) : t.nodeIter = t.nodes := by
  rw [nodeIter, nodes, unroll_eq_nodesList (Nat.le_refl _)]
  rfl

/-- Its loop is that of `finalize_with_descendent_if`, over all nodes. -/
def finalizedNode {N : Type} [LinearOrder N] (t : ForkTree H N V) (hash : H) (number : N)
    (isDescendentOf : H → H → Except E Bool) (predicate : V → Bool) :
    Except (Error E) (Option (Node H N V)) :=
  if t.isReverted number then .error .revert
  else finalizedRoot hash number isDescendentOf predicate t.nodeIter

/-- Whether the node that is finalized is a root. -/
def finalizesAnyWithDescendentIf {N : Type} [LinearOrder N] (t : ForkTree H N V) (hash : H)
    (number : N) (isDescendentOf : H → H → Except E Bool) (predicate : V → Bool) :
    Except (Error E) (Option Bool) :=
  (t.finalizedNode hash number isDescendentOf predicate).map
    (Option.map fun node => t.roots.any fun root => root.hash = node.hash)

section

variable (hd : Decides T isDescendentOf)
include hd

theorem finalizedRoot_append {before after} (hwf : x.Wf T)
    (hbefore : ∀ y ∈ before, ¬T.ancEq y.hash hash) (hx : T.ancEq x.hash hash)
    (hpred : predicate x.data = true) :
    finalizedRoot hash (T.number hash) isDescendentOf predicate (before ++ x :: after) =
      finalizedRoot hash (T.number hash) isDescendentOf predicate [x] := by
  induction before with
  | nil =>
    obtain ⟨b, hb, -⟩ := passesChild_ok hash hd hwf.children
    rw [nil_append, finalizedRoot_stop hd hpred hx hb, finalizedRoot_stop hd hpred hx hb]
  | cons y before ih =>
    obtain ⟨hy, hbefore⟩ := forall_mem_cons.mp hbefore
    rw [cons_append, finalizedRoot_skip hd fun h => hy h.2, ih hbefore]

section

variable (hwf : ForestWf T t.roots)
include hwf

theorem finalizedRoot_nodes (hroot : root ∈ t.roots) (habove : T.ancEq root.hash hash)
    (hpred : predicate root.data = true) :
    finalizedRoot hash (T.number hash) isDescendentOf predicate t.nodes =
      finalizedRoot hash (T.number hash) isDescendentOf predicate t.roots := by
  have hwf_root := hwf.wf root hroot
  obtain ⟨before, after, hsplit⟩ := append_of_mem hroot
  have hother : ∀ y ∈ before, ∀ x ∈ y.nodes, ¬T.ancEq x.hash hash := by
    intro y hy x hx hanc
    rw [hsplit] at hwf
    have hun := (pairwise_append.mp hwf.unrelated).2.2 y hy root mem_cons_self
    have hyx := ((hwf.wf y (mem_append_left _ hy)).nodes x hx).2
    refine hun.not_ancEq ?_ habove
    rcases hyx with heq | hyx
    · exact heq ▸ hanc
    · exact .inr (hyx.trans_ancEq hanc)
  have hnodes : t.nodes = nodesList before ++ root :: (root.descendants ++ nodesList after) := by
    obtain ⟨h, n, v, cs⟩ := root
    rw [nodes, hsplit, nodesList_append, nodesList_cons, nodes_mk]
    rfl
  rw [hnodes, hsplit, finalizedRoot_append hd hwf_root _ habove hpred,
    finalizedRoot_append hd hwf_root _ habove hpred]
  · exact fun y hy => hother y hy y (mem_nodes_self y)
  · intro x hx
    obtain ⟨y, hy, hxy⟩ := mem_nodesList.mp hx
    exact hother y hy x hxy

theorem finalizedRoot_scans (hash : H) (predicate : V → Bool) :
    (∃ e, finalizedRoot hash (T.number hash) isDescendentOf predicate t.roots = .error e ∧
      finalizedRoot hash (T.number hash) isDescendentOf predicate t.nodes = .error e) ∨
    (∃ root ∈ t.roots,
      finalizedRoot hash (T.number hash) isDescendentOf predicate t.roots = .ok (some root) ∧
      finalizedRoot hash (T.number hash) isDescendentOf predicate t.nodes = .ok (some root)) ∨
    finalizedRoot hash (T.number hash) isDescendentOf predicate t.roots = .ok none ∧
      ∀ x, finalizedRoot hash (T.number hash) isDescendentOf predicate t.nodes = .ok (some x) →
        ∀ root ∈ t.roots, root.hash ≠ x.hash := by
  rcases finalizedRoot_cases hash hd predicate hwf.wf with
    ⟨e, he, root, hroot, hpred, habove⟩ | ⟨root, hroot, hfound, hpred, habove, -⟩ | ⟨hok, hnone⟩
  · exact .inl ⟨e, he, by rw [finalizedRoot_nodes hd hwf hroot habove hpred, he]⟩
  · exact .inr (.inl ⟨root, hroot, hfound, by
      rw [finalizedRoot_nodes hd hwf hroot habove hpred, hfound]⟩)
  · refine .inr (.inr ⟨hok, fun x hx root hroot heq => ?_⟩)
    have hwf_nodes : ∀ y ∈ t.nodes, y.Wf T := by
      intro y hy
      obtain ⟨c, hc, hyc⟩ := mem_nodesList.mp hy
      exact ((hwf.wf c hc).nodes y hyc).1
    rcases finalizedRoot_cases hash hd predicate hwf_nodes with
      ⟨e, he, -⟩ | ⟨y, hy, hfound, hpred, habove, -⟩ | ⟨hnodes, -⟩
    · rw [he] at hx
      cases hx
    · rw [hfound] at hx
      cases hx
      obtain rfl := inj_on_of_nodup_map hwf.hashes_nodup (mem_nodesList_of_mem hroot) hy heq
      exact hnone root hroot hpred habove
    · rw [hnodes] at hx
      cases hx

theorem finalizeWithDescendentIf_found (hrev : ¬t.isReverted (T.number hash)) {found}
    (hfound : finalizedRoot hash (T.number hash) isDescendentOf predicate t.roots = .ok found)
    (hroot : ∀ root, found = some root → root ∈ t.roots) :
    ∃ result t', t.finalizeWithDescendentIf hash (T.number hash) isDescendentOf predicate =
        (.ok result, t') ∧
      ∀ data, result = .changed (some data) ↔ found.map Node.data = some data := by
  have hopened : ∀ root ∈ (t.finalizePosition found).2.roots, root.Wf T := by
    cases found with
    | none => exact hwf.wf
    | some root => exact (hwf.wf root (hroot root rfl)).children.wf
  obtain ⟨changed, roots, hretain, -⟩ := retainRoots_filter
    fun root hroot => retainDescendent_ok hash hd (hopened root hroot)
  refine ⟨_, _, by rw [finalizeWithDescendentIf, if_neg hrev, hfound]; dsimp only; rw [hretain],
    fun data => ?_⟩
  cases found with
  | none => cases changed <;> simp [finalizePosition]
  | some root => simp [finalizePosition, finalizeRootAt]

end

end

/-- **The query agrees with the action.** It finds a root exactly when the action finalizes one,
and that root; it fails whenever the action fails; and the roots that the action leaves are related
to the block. -/
theorem finalizesAny_agrees (hd : Decides T isDescendentOf) (hwf : ForestWf T t.roots) (hash : H)
    (predicate : V → Bool) :
    (t.finalizesAnyWithDescendentIf hash (T.number hash) isDescendentOf predicate =
        .ok (some true) ↔
      ∃ data, (t.finalizeWithDescendentIf hash (T.number hash) isDescendentOf predicate).1 =
        .ok (.changed (some data))) ∧
    (∀ data, (t.finalizeWithDescendentIf hash (T.number hash) isDescendentOf predicate).1 =
        .ok (.changed (some data)) → ∃ root ∈ t.roots,
      t.finalizedNode hash (T.number hash) isDescendentOf predicate = .ok (some root) ∧
        root.data = data) ∧
    (∀ e, (t.finalizeWithDescendentIf hash (T.number hash) isDescendentOf predicate).1 = .err e →
      t.finalizesAnyWithDescendentIf hash (T.number hash) isDescendentOf predicate = .error e) ∧
    ∀ result t', t.finalizeWithDescendentIf hash (T.number hash) isDescendentOf predicate =
        (.ok result, t') → ∀ root ∈ t'.roots,
      root.hash = hash ∨ T.anc hash root.hash ∨ T.anc root.hash hash := by
  rw [← and_assoc, ← and_assoc]
  refine ⟨?_, fun result t' h root hroot => ?_⟩
  swap
  · have hnot : ¬T.Unrelated hash root.hash := by
      rcases finalizeWithDescendentIf_cases hd hwf hash predicate with
        ⟨e, he⟩ | ⟨result', t'', hok, hfinalizes, -⟩
      · rw [he] at h
        cases h
      rw [hok] at h
      cases h
      cases hfinalizes with
      | root x hx hpred habove hchild hroots | none _ hresult hnone hroots =>
        exact ((hroots root).mp hroot).2
    by_contra hcon
    rw [not_or, not_or] at hcon
    exact hnot ⟨fun heq => hcon.1 heq.symm, hcon.2.1, hcon.2.2⟩
  by_cases hrev : t.isReverted (T.number hash)
  · have haction : (t.finalizeWithDescendentIf hash (T.number hash) isDescendentOf predicate).1 =
        .err .revert := by
      rw [finalizeWithDescendentIf, if_pos hrev]
    have hquery : t.finalizedNode hash (T.number hash) isDescendentOf predicate =
        .error .revert := if_pos hrev
    rw [haction, finalizesAnyWithDescendentIf, hquery]
    exact ⟨⟨by simp [Except.map], by simp⟩, by simp [Except.map]⟩
  have hquery : t.finalizedNode hash (T.number hash) isDescendentOf predicate =
      finalizedRoot hash (T.number hash) isDescendentOf predicate t.nodes := by
    rw [finalizedNode, if_neg hrev, nodeIter_eq]
  rw [finalizesAnyWithDescendentIf, hquery]
  rcases finalizedRoot_scans hd hwf hash predicate with
    ⟨e, hroots, hnodes⟩ | ⟨root, hroot, hroots, hnodes⟩ | ⟨hroots, hnodes⟩
  · have haction : (t.finalizeWithDescendentIf hash (T.number hash) isDescendentOf
        predicate).1 = .err e := by
      rw [finalizeWithDescendentIf, if_neg hrev, hroots]
    rw [haction, hnodes]
    exact ⟨⟨by simp [Except.map], by simp⟩, by simp [Except.map]⟩
  · obtain ⟨result, t', hok, hresult⟩ := finalizeWithDescendentIf_found hd hwf hrev hroots
      fun x hx => by cases hx; exact hroot
    have hany : (t.roots.any fun r => r.hash = root.hash) = true :=
      any_eq_true.mpr ⟨root, hroot, decide_eq_true rfl⟩
    rw [hok, hnodes]
    refine ⟨⟨⟨fun _ => ⟨root.data, ?_⟩, fun _ => ?_⟩, fun data hdata => ?_⟩, ?_⟩
    · exact congrArg ok ((hresult root.data).mpr rfl)
    · simp [Except.map, hany]
    · refine ⟨root, hroot, rfl, ?_⟩
      exact Option.some.inj ((hresult data).mp (ok.inj hdata))
    · simp
  · obtain ⟨result, t', hok, hresult⟩ := finalizeWithDescendentIf_found hd hwf hrev hroots
      fun x hx => by cases hx
    rw [hok]
    refine ⟨⟨⟨fun h => ?_, fun h => ?_⟩, fun data hdata => ?_⟩, by simp⟩
    · cases hscan : finalizedRoot hash (T.number hash) isDescendentOf predicate t.nodes with
      | error e => simp [hscan, Except.map] at h
      | ok found =>
        cases found with
        | none => simp [hscan, Except.map] at h
        | some x =>
          have hany : (t.roots.any fun r => r.hash = x.hash) = true := by
            simpa [hscan, Except.map] using h
          obtain ⟨root, hroot, heq⟩ := any_eq_true.mp hany
          exact absurd (of_decide_eq_true heq) (hnodes x hscan root hroot)
    · obtain ⟨data, hdata⟩ := h
      cases (hresult data).mp (ok.inj hdata)
    · cases (hresult data).mp (ok.inj hdata)

theorem finalizesAny_agrees_chain : ∃ data,
    (chainTree.finalizeWithDescendentIf 1 1 chainQuery (fun _ => true)).1 =
      .ok (.changed (some data)) :=
  (finalizesAny_agrees chainQuery_decides chainTree_wf 1 (fun _ => true)).1.mp rfl

end Substrate.ForkTree
