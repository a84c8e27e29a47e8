import Substrate.ForkTreeErrors

/-!
# Runs of fork tree operations

With a client that answers ancestry queries truthfully, every operation keeps the forest well
formed: one lemma per operation, then one induction over runs.
-/

namespace Substrate.ForkTree

open List BlockTree Except

variable {H V E : Type} {T : BlockTree H}

def Decides (T : BlockTree H) (isDescendentOf : H → H → Except E Bool) : Prop :=
  ∀ a b, ∃ r, isDescendentOf a b = .ok r ∧ (r = true ↔ T.anc a b)

variable {isDescendentOf : H → H → Except E Bool} {c' : Node H Nat V}

theorem Decides.of_anc (hd : Decides T isDescendentOf) {a b : H} (h : T.anc a b) :
    isDescendentOf a b = .ok true := by
  obtain ⟨r, hr, hiff⟩ := hd a b
  rw [hr, hiff.mpr h]

theorem Decides.of_not_anc (hd : Decides T isDescendentOf) {a b : H} (h : ¬T.anc a b) :
    isDescendentOf a b = .ok false := by
  obtain ⟨r, hr, hiff⟩ := hd a b
  rw [hr, Bool.eq_false_iff.mpr (fun hr' => h (hiff.mp hr'))]

/-- It decides which other blocks are above one block: all that an import of that block asks. -/
def DecidesFor (T : BlockTree H) (isDescendentOf : H → H → Except E Bool) (hash : H) : Prop :=
  ∀ a, a ≠ hash → ∃ r, isDescendentOf a hash = .ok r ∧ (r = true ↔ T.anc a hash)

theorem Decides.decidesFor (hd : Decides T isDescendentOf) (hash : H) :
    DecidesFor T isDescendentOf hash :=
  fun a _ => hd a hash

def HashIn (hash : H) (l : List (Node H Nat V)) : Prop :=
  ∃ x ∈ Node.nodesList l, x.hash = hash

/-! ## Import -/

theorem ForestWf.replace {before after c} (h : ForestWf T (before ++ c :: after))
    (hhash : c'.hash = c.hash) (hc' : c'.Wf T) : ForestWf T (before ++ c' :: after) := by
  refine ⟨fun d hd => ?_, ?_⟩
  · rcases mem_append.mp hd with hbefore | hrest
    · exact h.wf d (mem_append_left _ hbefore)
    · rcases mem_cons.mp hrest with rfl | hafter
      · exact hc'
      · exact h.wf d (mem_append_right _ (mem_cons_of_mem _ hafter))
  · have hun := h.unrelated
    simpa only [pairwise_append, pairwise_cons, forall_mem_cons, hhash] using hun

variable {l : List (Node H Nat V)}

section Import

variable {isDescendentOf : H → H → Except E Bool} {hash : H} {data : V}
  {node : Node H Nat V} {t : ForkTree H Nat V}

section

variable (hd : DecidesFor T isDescendentOf hash)
include hd

theorem DecidesFor.refused {e : Error E} (h : Refused isDescendentOf hash l e) :
    e = .duplicate ∧ HashIn hash l := by
  rcases h with h | ⟨a, e', hne, -, herror⟩
  · exact h
  · obtain ⟨r, hr, -⟩ := hd a hne
    rw [herror] at hr
    cases hr

theorem DecidesFor.of_query {a : H} {b : Bool} (hne : a ≠ hash)
    (hquery : isDescendentOf a hash = .ok b) : b = true ↔ T.anc a hash := by
  obtain ⟨r, hr, hiff⟩ := hd a hne
  rw [hquery, ok.injEq] at hr
  exact hr ▸ hiff

theorem Passed.elsewhere (h : Passed isDescendentOf hash (T.number hash) node) (hwf : node.Wf T) :
    (∀ x ∈ node.nodes, x.hash ≠ hash) ∧ ¬T.anc node.hash hash := by
  induction h with
  | @early h n v cs hne hle =>
    have hlt : ¬T.number h < T.number hash := by
      have := (Node.wf_mk.mp hwf).1
      omega
    refine ⟨fun x hx heq => ?_, fun hanc => hlt (anc_number_lt hanc)⟩
    rcases Node.mem_nodes_iff.mp hx with rfl | hx
    · exact hne heq
    · exact hlt (heq ▸ anc_number_lt (hwf.anc_descendant hx))
  | @asked h n v cs hne _ hquery ih =>
    refine ⟨fun x hx heq => ?_, fun hanc => Bool.false_ne_true ((hd.of_query hne hquery).mpr hanc)⟩
    rcases Node.mem_nodes_iff.mp hx with rfl | hx
    · exact hne heq
    · obtain ⟨c, hc, hxc⟩ := Node.mem_nodesList.mp hx
      exact (ih c hc (hwf.children.wf c hc)).1 x hxc heq

end

theorem Attaches.hash_eq {number : Nat} {c} (h : Attaches isDescendentOf hash number data c c') :
    c'.hash = c.hash := by
  cases h <;> rfl

variable {node' : Node H Nat V}

theorem Attaches.above {number : Nat} (hd : DecidesFor T isDescendentOf hash)
    (h : Attaches isDescendentOf hash number data node node') (hnumber : number = T.number hash)
    (hwf : node.Wf T) : (∀ x ∈ node.nodes, x.hash ≠ hash) ∧ T.anc node.hash hash := by
  subst hnumber
  induction h with
  | @here h n v cs hne hcs hquery =>
    refine ⟨fun x hx heq => ?_, (hd.of_query hne hquery).mp rfl⟩
    rcases Node.mem_nodes_iff.mp hx with rfl | hx
    · exact hne heq
    · obtain ⟨c, hc, hxc⟩ := Node.mem_nodesList.mp hx
      exact ((hcs c hc).elsewhere hd (hwf.children.wf c hc)).1 x hxc heq
  | @inChild h n v before after c c' hattach ih =>
    have hc : c ∈ before ++ c :: after := mem_append_right _ mem_cons_self
    obtain ⟨hfree, habove⟩ := ih (hwf.children.wf c hc)
    have hanc : T.anc h hash := anc_trans (hwf.anc_child hc) habove
    refine ⟨fun x hx heq => ?_, hanc⟩
    rcases Node.mem_nodes_iff.mp hx with rfl | hx
    · exact anc_ne hanc heq
    obtain ⟨d, hd, hxd⟩ := Node.mem_nodesList.mp hx
    have hdx := ((hwf.children.wf d hd).nodes x hxd).2
    obtain rfl := hwf.children.root_unique hd hc (heq ▸ hdx) (.inr habove)
    exact hfree x hxd heq

theorem Attaches.wf (hd : DecidesFor T isDescendentOf hash)
    (h : Attaches isDescendentOf hash (T.number hash) data node node') (hwf : node.Wf T)
    (hnodesc : ∀ x ∈ node.nodes, ¬T.anc hash x.hash) : node'.Wf T := by
  induction h with
  | @here h n v cs hne hcs hquery =>
    obtain ⟨hn, hanc, hforest⟩ := Node.wf_mk.mp hwf
    refine Node.wf_mk.mpr ⟨hn, fun c hc => ?_, hforest.concat_leaf data fun a ha => ?_⟩
    · rcases mem_append.mp hc with hc | hc
      · exact hanc c hc
      · exact mem_singleton.mp hc ▸ (hd.of_query hne hquery).mp rfl
    · obtain ⟨hfree, hnot⟩ := (hcs a ha).elsewhere hd (hforest.wf a ha)
      exact ⟨hfree a (Node.mem_nodes_self a), hnot, hnodesc a (by
        simpa using .inr (Node.mem_nodesList_of_mem ha))⟩
  | @inChild h n v before after c c' hattach ih =>
    have hc : c ∈ before ++ c :: after := mem_append_right _ mem_cons_self
    obtain ⟨hn, hanc, hforest⟩ := Node.wf_mk.mp hwf
    have hc' := ih (hforest.wf c hc) fun x hx =>
      hnodesc x (Node.mem_nodes_iff.mpr (.inr (Node.mem_nodesList.mpr ⟨c, hc, hx⟩)))
    refine Node.wf_mk.mpr ⟨hn, ?_, hforest.replace hattach.hash_eq hc'⟩
    simpa only [forall_mem_append, forall_mem_cons, hattach.hash_eq] using hanc

variable [DecidableEq H]

theorem importBlock_wf_for (hd : DecidesFor T isDescendentOf hash) (hwf : ForestWf T t.roots)
    (data : V) (hnodesc : ∀ x ∈ t.nodes, ¬T.anc hash x.hash) :
    ForestWf T (t.importBlock hash (T.number hash) data isDescendentOf).2.roots := by
  rcases importBlock_cases t hash (T.number hash) data isDescendentOf with
    ⟨-, heq⟩ | ⟨-, ⟨e, -, heq⟩ | ⟨hpassed, heq⟩ | ⟨roots, ⟨before, c, c', after, hroots, rfl,
      hattach⟩, heq⟩⟩
  · rw [heq]
    exact hwf
  · rw [heq]
    exact hwf
  · rw [heq]
    refine forestWf_rebalance (hwf.concat_leaf data fun a ha => ?_)
    obtain ⟨hfree, hnot⟩ := (hpassed a ha).elsewhere hd (hwf.wf a ha)
    exact ⟨hfree a (Node.mem_nodes_self a), hnot, hnodesc a (Node.mem_nodesList_of_mem ha)⟩
  · rw [heq]
    have hc : c ∈ t.roots := hroots ▸ mem_append_right _ mem_cons_self
    refine forestWf_rebalance ((hroots ▸ hwf).replace hattach.hash_eq ?_)
    exact hattach.wf hd (hwf.wf c hc) fun x hx => hnodesc x (Node.mem_nodesList.mpr ⟨c, hc, hx⟩)

theorem importBlock_fresh (hd : DecidesFor T isDescendentOf hash) (data : V)
    (hin : ¬HashIn hash t.roots) (habove : t.isReverted (T.number hash) = false) :
    ∃ b, (t.importBlock hash (T.number hash) data isDescendentOf).1 = .ok b := by
  rcases importBlock_cases t hash (T.number hash) data isDescendentOf with
    ⟨hrev, -⟩ | ⟨-, ⟨e, hrefused, -⟩ | ⟨-, heq⟩ | ⟨roots, -, heq⟩⟩
  · rw [habove] at hrev
    cases hrev
  · exact absurd (hd.refused hrefused).2 hin
  · exact ⟨true, by rw [heq]⟩
  · exact ⟨false, by rw [heq]⟩

theorem importBlock_wf (hd : Decides T isDescendentOf) (hwf : ForestWf T t.roots) (hash : H)
    (data : V) (hnodesc : ∀ x ∈ t.nodes, ¬T.anc hash x.hash) :
    ForestWf T (t.importBlock hash (T.number hash) data isDescendentOf).2.roots :=
  importBlock_wf_for (hd.decidesFor hash) hwf data hnodesc

theorem importBlock_duplicate (hd : Decides T isDescendentOf) (hwf : ForestWf T t.roots)
    (hnode : node ∈ t.nodes) (data : V) (habove : t.isReverted (T.number node.hash) = false) :
    t.importBlock node.hash (T.number node.hash) data isDescendentOf = (.err .duplicate, t) := by
  have hd := hd.decidesFor node.hash
  obtain ⟨root, hroot, hnr⟩ := Node.mem_nodesList.mp hnode
  rcases importBlock_cases t node.hash (T.number node.hash) data isDescendentOf with
    ⟨hrev, -⟩ | ⟨-, ⟨e, hrefused, heq⟩ | ⟨hpassed, -⟩ | ⟨roots, ⟨before, c, c', after, hroots, -,
      hattach⟩, -⟩⟩
  · rw [habove] at hrev
    cases hrev
  · rw [heq, (hd.refused hrefused).1]
  · exact absurd rfl (((hpassed root hroot).elsewhere hd (hwf.wf root hroot)).1 node hnr)
  · have hc : c ∈ t.roots := hroots ▸ mem_append_right _ mem_cons_self
    obtain ⟨hfree, hanc⟩ := hattach.above hd rfl (hwf.wf c hc)
    obtain rfl := hwf.root_unique hroot hc ((hwf.wf root hroot).nodes node hnr).2 (.inr hanc)
    exact absurd rfl (hfree node hnr)

end Import

/-! ## Prune -/

variable {t : ForkTree H Nat V}

section Prune

variable {isDescendentOf : H → H → Except E Bool} {hash : H} {number : Nat}

theorem mem_nodesList_of_takeAt {path rest root} (h : takeAt path l = some (root, rest)) :
    root ∈ Node.nodesList l := by
  induction path generalizing l rest with
  | nil => simp [takeAt] at h
  | cons i path ih =>
    cases path with
    | nil =>
      simp only [takeAt, Option.map_eq_some_iff, Prod.mk.injEq] at h
      obtain ⟨a, ha, rfl, -⟩ := h
      exact Node.mem_nodesList_of_mem (mem_of_getElem? ha)
    | cons j path =>
      rw [takeAt] at h
      split at h
      · cases h
      rename_i hh n v cs hi
      obtain ⟨⟨r, rs⟩, hr, heq⟩ := Option.map_eq_some_iff.mp h
      obtain ⟨rfl, -⟩ := Prod.mk.injEq .. |>.mp heq
      refine Node.mem_nodesList.mpr ⟨_, mem_of_getElem? hi, ?_⟩
      exact Node.mem_nodes_iff.mpr (.inr (ih hr))

variable [DecidableEq H]

theorem pruneChildren_sublist {kept removed}
    (h : pruneChildren hash number isDescendentOf true l = .ok (kept, removed)) :
    kept.Sublist l := by
  rcases pruneChildren_cases isDescendentOf hash number l with
    ⟨pre, child, post, rfl, -, ⟨e, -, hprune⟩ | ⟨-, hprune⟩⟩ | ⟨-, hprune⟩
  all_goals cases hprune.symm.trans h
  · simp
  · exact nil_sublist _

theorem prune_wf (hwf : ForestWf T t.roots) (predicate : V → Bool) :
    ForestWf T (t.prune hash number isDescendentOf predicate).2.roots := by
  unfold prune
  split
  · exact hwf
  · exact forestWf_rebalance hwf
  split
  · exact ForestWf.nil
  rename_i h n v children oldRoots htake
  have hroot := (hwf.mem_nodes (mem_nodesList_of_takeAt htake)).1
  split
  · exact ForestWf.nil
  rename_i kept removed hprune
  have hsub := pruneChildren_sublist hprune
  obtain ⟨hn, hanc, hcs⟩ := Node.wf_mk.mp hroot
  refine forestWf_rebalance ⟨?_, pairwise_singleton ..⟩
  simp only [mem_singleton, forall_eq]
  exact Node.wf_mk.mpr ⟨hn, fun c hc => hanc c (hsub.subset hc), hcs.sublist hsub⟩

end Prune

/-! ## Finalization -/

section Finalize

variable {isDescendentOf : H → H → Except E Bool} {hash : H} {number : Nat}

theorem retainRoots_sublist (retain : Node H Nat V → Except E Bool)
    (l : List (Node H Nat V)) : (retainRoots retain l).2.Sublist l := by
  induction l with
  | nil => exact List.Sublist.refl _
  | cons root rest ih =>
    rw [retainRoots]
    split
    · exact nil_sublist _
    · exact ih.cons_cons _
    · exact ih.cons _

theorem ForestWf.retained {retain : Node H Nat V → Except E Bool} {roots r} (hwf : ForestWf T l)
    (h : retainRoots retain l = (r, roots)) : ForestWf T roots := by
  have hsub := retainRoots_sublist retain l
  rw [h] at hsub
  exact hwf.sublist hsub

variable [DecidableEq H]

theorem finalizeRoot_wf (hwf : ForestWf T t.roots) (hash : H) :
    ForestWf T (t.finalizeRoot hash).2.roots := by
  rcases finalizeRoot_eq t hash with ⟨node, hnode, -, heq⟩ | ⟨heq, -⟩
  · rw [heq]
    exact (hwf.wf node hnode).children
  · rw [heq]
    exact hwf

theorem finalize_wf (hwf : ForestWf T t.roots) :
    ForestWf T (t.finalize hash number isDescendentOf).2.roots := by
  unfold finalize
  split
  · exact hwf
  split
  · rename_i data t' hroot
    exact (congrArg Prod.snd hroot) ▸ finalizeRoot_wf hwf hash
  split
  · exact hwf
  · exact hwf
  split
  · rename_i hretain
    exact hwf.retained hretain
  · rename_i hretain
    exact hwf.retained hretain

variable {s' s : List (Node H Nat V) × Nat × Bool}

theorem WorklistStep.wf (h : WorklistStep hash number isDescendentOf s s') (hwf : ForestWf T s.1) :
    ForestWf T s'.1 := by
  cases h with
  | leave hroot _ => exact hwf
  | opened hroot _ => exact (hwf.perm (Vec.cons_swapRemove_perm hroot).symm).open_root
  | dropped hroot _ =>
    exact (hwf.perm (Vec.cons_swapRemove_perm hroot).symm).sublist (sublist_cons_self ..)

theorem worklist_wf (h : Relation.ReflTransGen (WorklistStep hash number isDescendentOf) s s')
    (hwf : ForestWf T s.1) : ForestWf T s'.1 := by
  induction h with
  | refl => exact hwf
  | tail _ hstep ih => exact hstep.wf ih

theorem finalizeWithAncestors_wf (hwf : ForestWf T t.roots) :
    ForestWf T (t.finalizeWithAncestors hash number isDescendentOf).2.roots := by
  rcases finalizeWithAncestors_cases t hash number isDescendentOf with
    ⟨-, heq⟩ | ⟨-, ⟨node, hnode, -, heq⟩ | ⟨-, s, hrun, hends⟩⟩
  · rw [heq]
    exact hwf
  · rw [heq]
    exact (hwf.wf node hnode).children
  · have hs := worklist_wf hrun hwf
    generalize t.finalizeWithAncestors hash number isDescendentOf = r at hends ⊢
    cases hends with
    | done hend => exact hs
    | found hroot hhash => exact (hs.wf _ (mem_of_getElem? hroot)).children
    | failed hroot hpos => exact hs

theorem finalizeWithDescendentIf_wf (hwf : ForestWf T t.roots) (predicate : V → Bool) :
    ForestWf T (t.finalizeWithDescendentIf hash number isDescendentOf predicate).2.roots := by
  unfold finalizeWithDescendentIf
  split
  · exact hwf
  split
  · exact hwf
  rename_i position hposition
  -- opening the finalized root keeps the forest, and so does dropping roots of it
  have hopened : ForestWf T (t.finalizePosition position).2.roots := by
    cases position with
    | none => exact hwf
    | some node => exact (hwf.wf node (finalizedRoot_mem hposition)).children
  simp only
  split
  · rename_i hretain
    exact hopened.retained hretain
  · rename_i hretain
    exact hopened.retained hretain

end Finalize

/-! ## What a well-formed forest gives its callers -/

section Consequences

variable {l : List (Node H Nat V)}

theorem ForestWf.nodup_nodesList (h : ForestWf T l) (hl : ∀ c ∈ l, (c.nodes.map Node.hash).Nodup) :
    ((Node.nodesList l).map Node.hash).Nodup := by
  induction l with
  | nil => simp
  | cons c rest ih =>
    have htail := h.sublist (sublist_cons_self c rest)
    rw [Node.nodesList_cons, map_append, nodup_append]
    refine ⟨hl c (by simp), ih htail (fun d hd => hl d (by simp [hd])), ?_⟩
    rintro _ hx _ hy rfl
    obtain ⟨x, hx, hxe⟩ := mem_map.mp hx
    obtain ⟨y, hy, hye⟩ := mem_map.mp hy
    have hcx := ((h.wf c (by simp)).nodes x hx).2
    obtain ⟨-, d, hd, -, hdy⟩ := htail.mem_nodes hy
    rw [hxe] at hcx
    rw [hye] at hdy
    exact ((pairwise_cons.mp h.unrelated).1 d hd).not_ancEq hcx hdy

variable {node : Node H Nat V}

theorem Node.Wf.hashes_nodup (hwf : node.Wf T) : (node.nodes.map Node.hash).Nodup := by
  induction node using Node.induct with
  | mk a n v cs ih =>
    rw [Node.nodes_mk, map_cons, nodup_cons]
    refine ⟨?_, hwf.children.nodup_nodesList (fun c hc => ih c hc (hwf.children.wf c hc))⟩
    intro hmem
    obtain ⟨x, hx, hxe⟩ := mem_map.mp hmem
    exact anc_ne (hwf.anc_descendant hx) hxe.symm

theorem ForestWf.hashes_nodup (h : ForestWf T l) : ((Node.nodesList l).map Node.hash).Nodup :=
  h.nodup_nodesList (fun c hc => (h.wf c hc).hashes_nodup)

theorem Node.Wf.mem_descendants (hwf : node.Wf T) :
    ∀ a ∈ node.nodes, ∀ b ∈ node.nodes, T.anc a.hash b.hash → b ∈ a.descendants := by
  induction node using Node.induct with
  | mk h n v cs ih =>
    intro a ha b hb hab
    rcases Node.mem_nodes_iff.mp hb with rfl | hb
    · -- nothing in the tree is above its root
      exact absurd hab (fun hab => anc_irrefl _ ((hwf.nodes a ha).2.trans_anc hab))
    rcases Node.mem_nodes_iff.mp ha with rfl | ha
    · exact hb
    obtain ⟨c, hc, hac⟩ := Node.mem_nodesList.mp ha
    obtain ⟨d, hd, hbd⟩ := Node.mem_nodesList.mp hb
    have hcwf := hwf.children.wf c hc
    have hcb : T.ancEq c.hash b.hash := .inr ((hcwf.nodes a hac).2.trans_anc hab)
    have hdb := ((hwf.children.wf d hd).nodes b hbd).2
    obtain rfl := hwf.children.root_unique hc hd hcb hdb
    exact ih c hc hcwf a hac b hbd hab

theorem ForestWf.mem_descendants_iff (h : ForestWf T l) {a b} (ha : a ∈ Node.nodesList l)
    (hb : b ∈ Node.nodesList l) : b ∈ a.descendants ↔ T.anc a.hash b.hash := by
  obtain ⟨hawf, c, hc, hac, hca⟩ := h.mem_nodes ha
  constructor
  · exact fun hba => hawf.anc_descendant hba
  · intro hab
    obtain ⟨-, d, hd, hbd, hdb⟩ := h.mem_nodes hb
    obtain rfl := h.root_unique hc hd (.inr (hca.trans_anc hab)) hdb
    exact (h.wf c hc).mem_descendants a hac b hbd hab

end Consequences

/-! ## Runs -/

/-- Blocks are given by hash; their number is the block tree's. -/
inductive Op (H V : Type) where
  | importBlock (hash : H) (data : V)
  | prune (hash : H) (predicate : V → Bool)
  | finalizeRoot (hash : H)
  | finalize (hash : H)
  | finalizeWithAncestors (hash : H)
  | finalizeWithDescendentIf (hash : H) (predicate : V → Bool)

section Runs

variable [DecidableEq H]

/-- The tree a call leaves behind, whatever its outcome. -/
def step (T : BlockTree H) (isDescendentOf : H → H → Except E Bool)
    (t : ForkTree H Nat V) : Op H V → ForkTree H Nat V
  | .importBlock hash data => (t.importBlock hash (T.number hash) data isDescendentOf).2
  | .prune hash predicate => (t.prune hash (T.number hash) isDescendentOf predicate).2
  | .finalizeRoot hash => (t.finalizeRoot hash).2
  | .finalize hash => (t.finalize hash (T.number hash) isDescendentOf).2
  | .finalizeWithAncestors hash =>
    (t.finalizeWithAncestors hash (T.number hash) isDescendentOf).2
  | .finalizeWithDescendentIf hash predicate =>
    (t.finalizeWithDescendentIf hash (T.number hash) isDescendentOf predicate).2

/-- Blocks are imported before their descendants. -/
def Op.InOrder (T : BlockTree H) (t : ForkTree H Nat V) : Op H V → Prop
  | .importBlock hash _ => ∀ x ∈ t.nodes, ¬T.anc hash x.hash
  | _ => True

variable (T : BlockTree H) (isDescendentOf : H → H → Except E Bool) in
inductive Reachable : ForkTree H Nat V → Prop
  | new : Reachable ForkTree.new
  | step {t : ForkTree H Nat V} (op : Op H V) (h : Reachable t)
      (hop : op.InOrder T t) : Reachable (step T isDescendentOf t op)

theorem step_wf (hd : Decides T isDescendentOf) {op : Op H V} (hwf : ForestWf T t.roots)
    (hop : op.InOrder T t) : ForestWf T (step T isDescendentOf t op).roots := by
  cases op with
  | importBlock hash data => exact importBlock_wf hd hwf hash data hop
  | prune hash predicate => exact prune_wf hwf predicate
  | finalizeRoot hash => exact finalizeRoot_wf hwf hash
  | finalize hash => exact finalize_wf hwf
  | finalizeWithAncestors hash => exact finalizeWithAncestors_wf hwf
  | finalizeWithDescendentIf hash predicate => exact finalizeWithDescendentIf_wf hwf predicate

theorem Reachable.forestWf (hd : Decides T isDescendentOf) (h : Reachable T isDescendentOf t) :
    ForestWf T t.roots := by
  induction h with
  | new => exact ForestWf.nil
  | step op _ hop ih => exact step_wf hd ih hop

/-- The layout of the tree agrees with the block tree. -/
structure MirrorsBlockTree (T : BlockTree H) (t : ForkTree H Nat V) : Prop where
  hashes_nodup : (t.nodes.map Node.hash).Nodup
  roots_unrelated : t.roots.Pairwise (fun a b => T.Unrelated a.hash b.hash)
  siblings_unrelated : ∀ node ∈ t.nodes,
    node.children.Pairwise (fun a b => T.Unrelated a.hash b.hash)
  descendant_iff_anc : ∀ a ∈ t.nodes, ∀ b ∈ t.nodes, (b ∈ a.descendants ↔ T.anc a.hash b.hash)

/-- **Fork tree well-formedness.** Every reachable tree mirrors the block tree,
and importing a hash it already holds, above the finalized number, is rejected
as a duplicate. -/
theorem reachable_mirrors_blockTree {isDescendentOf : H → H → Except E Bool}
    (hd : Decides T isDescendentOf) {t : ForkTree H Nat V}
    (h : Reachable T isDescendentOf t) :
    MirrorsBlockTree T t ∧ ∀ node ∈ t.nodes, ∀ data : V,
        (∀ best, t.bestFinalizedNumber = some best → best < T.number node.hash) →
        (t.importBlock node.hash (T.number node.hash) data isDescendentOf).1 = .err .duplicate := by
  have hwf := h.forestWf hd
  refine ⟨⟨hwf.hashes_nodup, hwf.unrelated, ?_, ?_⟩, ?_⟩
  · exact fun node hnode => (hwf.mem_nodes hnode).1.children.unrelated
  · exact fun a ha b hb => hwf.mem_descendants_iff ha hb
  · intro node hnode data habove
    rw [importBlock_duplicate hd hwf hnode data (isReverted_eq_false_iff.mpr habove)]

def chain : BlockTree Nat where
  parent h := if h = 0 then none else some (h - 1)
  number := id
  number_parent := by
    intro h p hp
    split at hp
    · cases hp
    · cases hp
      simp only [id]
      omega

theorem chain_anc_iff {a b : Nat} : chain.anc a b ↔ a < b := by
  refine ⟨fun h => anc_number_lt h, fun h => ?_⟩
  induction h with
  | refl => exact anc_of_parent (by simp [chain])
  | step _ ih => exact anc_trans ih (anc_of_parent (by simp [chain]))

def chainQuery (base target : Nat) : Except Empty Bool := .ok (decide (base < target))

theorem chainQuery_decides : Decides chain chainQuery := fun a b =>
  ⟨_, rfl, by rw [decide_eq_true_iff, chain_anc_iff]⟩

def chainTree : ForkTree Nat Nat Unit :=
  step chain chainQuery (step chain chainQuery ForkTree.new (.importBlock 1 ())) (.importBlock 2 ())

theorem chainTree_mirrors_chain : MirrorsBlockTree chain chainTree ∧
      (chainTree.importBlock 2 2 () chainQuery).1 = .err .duplicate := by
  have hreach : Reachable chain chainQuery chainTree := by
    refine .step _ (.step _ .new ?_) ?_
    · intro x hx
      cases hx
    · intro x hx
      obtain rfl := mem_singleton.mp hx
      rw [chain_anc_iff]
      simp
  obtain ⟨hmirrors, hdup⟩ := reachable_mirrors_blockTree chainQuery_decides hreach
  exact ⟨hmirrors, hdup (.mk 2 2 () []) (.tail _ (.head _)) () (fun _ h => by cases h)⟩

end Runs

end Substrate.ForkTree
