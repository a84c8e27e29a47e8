import Mathlib.Data.List.Pairwise
import Substrate.Ancestry
import Substrate.ForkTree

/-!
# Well-formedness of the fork tree

`Node.Wf` says that a node and everything below it are laid out as the block tree has them: numbers
are the blocks' own, every child descends from its node, and siblings are unrelated. Each operation
only imports a leaf at the right place, takes sub-forests, or opens a root into its children, and
each of these keeps `ForestWf`.
-/

namespace Substrate.ForkTree

open List Node

variable {H N V E : Type}

namespace Node

variable {x : Node H N V} {l : List (Node H N V)}

/-! ## Nodes of a forest -/

@[simp] theorem nodes_mk (h : H) (n : N) (v : V) (cs : List (Node H N V)) :
    (mk h n v cs).nodes = mk h n v cs :: nodesList cs := by
  rw [nodes]

@[simp] theorem nodesList_nil : nodesList ([] : List (Node H N V)) = [] := by
  rw [nodesList]

@[simp] theorem nodesList_cons (c : Node H N V) (cs : List (Node H N V)) :
    nodesList (c :: cs) = c.nodes ++ nodesList cs := by
  rw [nodesList]

theorem mem_nodesList : x ∈ nodesList l ↔ ∃ c ∈ l, x ∈ c.nodes := by
  induction l with
  | nil => simp
  | cons c cs ih => simp [ih]

theorem mem_nodes_self (node : Node H N V) : node ∈ node.nodes := by
  obtain ⟨h, n, v, cs⟩ := node
  simp

theorem mem_nodesList_of_mem (h : x ∈ l) : x ∈ nodesList l :=
  mem_nodesList.mpr ⟨x, h, mem_nodes_self x⟩

theorem mem_nodes_iff {node} : x ∈ node.nodes ↔ x = node ∨ x ∈ node.descendants := by
  obtain ⟨h, n, v, cs⟩ := node
  simp [descendants]

theorem nodesList_trans {y} (hy : y ∈ nodesList l) (hx : x ∈ y.nodes) : x ∈ nodesList l := by
  have hnode : ∀ node : Node H N V, y ∈ node.nodes → x ∈ node.nodes := by
    intro node
    induction node using induct with
    | mk h n v cs ih =>
      intro hy
      rcases mem_nodes_iff.mp hy with rfl | hy
      · exact hx
      · obtain ⟨c, hc, hyc⟩ := mem_nodesList.mp hy
        exact mem_nodes_iff.mpr (.inr (mem_nodesList.mpr ⟨c, hc, ih c hc hyc⟩))
  obtain ⟨c, hc, hyc⟩ := mem_nodesList.mp hy
  exact mem_nodesList.mpr ⟨c, hc, hnode c hyc⟩

/-! ## Rebalancing -/

@[simp] theorem hash_rebalance (node : Node H N V) : node.rebalance.hash = node.hash := by
  obtain ⟨h, n, v, cs⟩ := node
  rw [rebalance]
  rfl

theorem rebalanceList_eq_map (l : List (Node H N V)) : rebalanceList l = l.map rebalance := by
  induction l with
  | nil => rw [rebalanceList]; rfl
  | cons c cs ih => rw [rebalanceList, ih]; rfl

theorem sortByDepth_perm (l : List (Node H N V)) : (sortByDepth l).Perm l :=
  perm_insertionSort _ l

theorem maxDepthList_eq_foldr (l : List (Node H N V)) :
    maxDepthList l = (l.map maxDepth).foldr max 0 := by
  induction l with
  | nil => rw [maxDepthList]; rfl
  | cons c cs ih => rw [maxDepthList, ih]; rfl

theorem maxDepth_rebalance (node : Node H N V) : node.rebalance.maxDepth = node.maxDepth := by
  induction node using induct with
  | mk h n v cs ih =>
    have hmap : (rebalanceList cs).map maxDepth = cs.map maxDepth := by
      rw [rebalanceList_eq_map, map_map]
      exact map_congr_left ih
    have hperm : ((sortByDepth (rebalanceList cs)).map maxDepth).Perm (cs.map maxDepth) :=
      hmap ▸ (sortByDepth_perm _).map _
    rw [rebalance, maxDepth, maxDepth, maxDepthList_eq_foldr, maxDepthList_eq_foldr, hperm.foldr_eq]

/-- Sorting commutes with the descent because it keeps depths. -/
theorem rebalance_mk (h : H) (n : N) (v : V) (cs : List (Node H N V)) :
    (mk h n v cs).rebalance = mk h n v ((sortByDepth cs).map rebalance) := by
  have hsort : (sortByDepth cs).map rebalance = sortByDepth (cs.map rebalance) := by
    refine map_insertionSort _ _ rebalance cs (fun a _ b _ => ?_)
    rw [maxDepth_rebalance, maxDepth_rebalance]
  rw [rebalance, rebalanceList_eq_map, hsort]

/-! ## Well-formed nodes -/

mutual

def Wf (T : BlockTree H) : Node H Nat V → Prop
  | mk h n _ cs => n = T.number h ∧ (∀ c ∈ cs, T.anc h c.hash) ∧ WfList T cs

def WfList (T : BlockTree H) : List (Node H Nat V) → Prop
  | [] => True
  | c :: cs => c.Wf T ∧ (∀ d ∈ cs, T.Unrelated c.hash d.hash) ∧ WfList T cs

end

end Node

/-- Every tree of the forest is well formed and its roots are unrelated. -/
structure ForestWf (T : BlockTree H) (l : List (Node H Nat V)) : Prop where
  wf : ∀ c ∈ l, c.Wf T
  unrelated : l.Pairwise (fun a b => T.Unrelated a.hash b.hash)

namespace Node

variable {T : BlockTree H} {node : Node H Nat V}

theorem wfList_iff {l : List (Node H Nat V)} : WfList T l ↔ ForestWf T l := by
  induction l with
  | nil =>
    rw [WfList]
    exact ⟨fun _ => ⟨by simp, List.Pairwise.nil⟩, fun _ => trivial⟩
  | cons c cs ih =>
    rw [WfList, ih]
    constructor
    · rintro ⟨hc, hcd, hcs⟩
      exact ⟨by simpa using ⟨hc, hcs.wf⟩, pairwise_cons.mpr ⟨hcd, hcs.unrelated⟩⟩
    · rintro ⟨hwf, hun⟩
      rw [pairwise_cons] at hun
      exact ⟨hwf c (by simp), hun.1, ⟨fun d hd => hwf d (mem_cons_of_mem _ hd), hun.2⟩⟩

theorem wf_mk {h : H} {n : Nat} {v : V} {cs : List (Node H Nat V)} :
    (mk h n v cs).Wf T ↔ n = T.number h ∧ (∀ c ∈ cs, T.anc h c.hash) ∧ ForestWf T cs := by
  rw [Wf, wfList_iff]

theorem Wf.children (h : node.Wf T) : ForestWf T node.children := by
  obtain ⟨_, _, _, _⟩ := node
  exact (wf_mk.mp h).2.2

theorem Wf.number_eq (h : node.Wf T) : node.number = T.number node.hash := by
  obtain ⟨_, _, _, _⟩ := node
  exact (wf_mk.mp h).1

theorem Wf.anc_child {c} (h : node.Wf T) (hc : c ∈ node.children) : T.anc node.hash c.hash := by
  obtain ⟨_, _, _, _⟩ := node
  exact (wf_mk.mp h).2.1 c hc

theorem Wf.nodes (hwf : node.Wf T) : ∀ x ∈ node.nodes, x.Wf T ∧ T.ancEq node.hash x.hash := by
  induction node using Node.induct with
  | mk h n v cs ih =>
    intro x hx
    rcases mem_nodes_iff.mp hx with rfl | hx
    · exact ⟨hwf, .inl rfl⟩
    · obtain ⟨c, hc, hxc⟩ := mem_nodesList.mp hx
      obtain ⟨hxwf, hcx⟩ := ih c hc (hwf.children.wf c hc) x hxc
      exact ⟨hxwf, .inr ((hwf.anc_child hc).trans_ancEq hcx)⟩

theorem Wf.anc_descendant {x} (hwf : node.Wf T) (hx : x ∈ node.descendants) :
    T.anc node.hash x.hash := by
  obtain ⟨c, hc, hxc⟩ := mem_nodesList.mp hx
  exact (hwf.anc_child hc).trans_ancEq ((hwf.children.wf c hc).nodes x hxc).2

end Node

namespace ForestWf

variable {T : BlockTree H} {l l' : List (Node H Nat V)}

theorem nil : ForestWf T ([] : List (Node H Nat V)) := ⟨by simp, List.Pairwise.nil⟩

section

variable (h : ForestWf T l)
include h

theorem sublist (hs : l'.Sublist l) : ForestWf T l' :=
  ⟨fun c hc => h.wf c (hs.subset hc), h.unrelated.sublist hs⟩

theorem perm (hp : l.Perm l') : ForestWf T l' :=
  ⟨fun c hc => h.wf c (hp.mem_iff.mpr hc), h.unrelated.perm hp (fun hab => hab.symm)⟩

theorem unrelated_of_mem {a b} (ha : a ∈ l) (hb : b ∈ l) (hne : a ≠ b) :
    T.Unrelated a.hash b.hash :=
  haveI : Std.Symm (fun a b : Node H Nat V => T.Unrelated a.hash b.hash) :=
    ⟨fun _ _ hab => hab.symm⟩
  h.unrelated.forall ha hb hne

theorem root_unique {a b} {x : H} (ha : a ∈ l) (hb : b ∈ l) (hax : T.ancEq a.hash x)
    (hbx : T.ancEq b.hash x) : a = b := by
  by_contra hne
  exact (h.unrelated_of_mem ha hb hne).not_ancEq hax hbx

theorem append (h' : ForestWf T l') (hcross : ∀ a ∈ l, ∀ b ∈ l', T.Unrelated a.hash b.hash) :
    ForestWf T (l ++ l') :=
  ⟨fun c hc => (mem_append.mp hc).elim (h.wf c) (h'.wf c),
    pairwise_append.mpr ⟨h.unrelated, h'.unrelated, hcross⟩⟩

theorem concat_leaf {hash : H} (data : V) (hun : ∀ a ∈ l, T.Unrelated a.hash hash) :
    ForestWf T (l ++ [.mk hash (T.number hash) data []]) := by
  refine h.append ⟨?_, pairwise_singleton ..⟩ ?_
  · simp [wf_mk, nil]
  · simpa using hun

end

theorem open_root {root} (h : ForestWf T (root :: l)) : ForestWf T (l ++ root.children) := by
  have hroot : root.Wf T := h.wf root (mem_cons_self ..)
  refine (h.sublist (sublist_cons_self ..)).append hroot.children ?_
  intro a ha c hc
  have har : T.Unrelated root.hash a.hash := (pairwise_cons.mp h.unrelated).1 a ha
  exact har.symm.mono (.inl rfl) (.inr (hroot.anc_child hc))

theorem mem_nodes (h : ForestWf T l) {x} (hx : x ∈ nodesList l) :
    x.Wf T ∧ ∃ root ∈ l, x ∈ root.nodes ∧ T.ancEq root.hash x.hash := by
  obtain ⟨root, hroot, hxr⟩ := mem_nodesList.mp hx
  obtain ⟨hwf, hanc⟩ := (h.wf root hroot).nodes x hxr
  exact ⟨hwf, root, hroot, hxr, hanc⟩

theorem map_rebalance (h : ForestWf T l) (hl : ∀ c ∈ l, c.rebalance.Wf T) :
    ForestWf T (l.map Node.rebalance) := by
  refine ⟨by simpa using hl, pairwise_map.mpr ?_⟩
  simpa using h.unrelated

end ForestWf

/-! ## Rebalancing keeps well-formedness -/

section Rebalance

variable {T : BlockTree H}

theorem Node.Wf.rebalance {node : Node H Nat V} (hwf : node.Wf T) : node.rebalance.Wf T := by
  induction node using Node.induct with
  | mk h n v cs ih =>
    obtain ⟨hn, hanc, hcs⟩ := Node.wf_mk.mp hwf
    have hsorted := hcs.perm (Node.sortByDepth_perm cs).symm
    have hmem : ∀ c ∈ Node.sortByDepth cs, c ∈ cs := fun c hc =>
      (Node.sortByDepth_perm cs).mem_iff.mp hc
    rw [Node.rebalance_mk]
    refine Node.wf_mk.mpr ⟨hn, ?_, ?_⟩
    · simpa using fun c hc => hanc c (hmem c hc)
    · exact hsorted.map_rebalance (fun c hc => ih c (hmem c hc) (hcs.wf c (hmem c hc)))

theorem forestWf_rebalance {t : ForkTree H Nat V} (h : ForestWf T t.roots) :
    ForestWf T t.rebalance.roots :=
  (h.perm (Node.sortByDepth_perm _).symm).map_rebalance
    (fun c hc => (h.wf c ((sortByDepth_perm _).mem_iff.mp hc)).rebalance)

end Rebalance

theorem isReverted_eq_false_iff {H N V : Type} [LinearOrder N] {t : ForkTree H N V} {number : N} :
    t.isReverted number = false ↔ ∀ best, t.bestFinalizedNumber = some best → best < number := by
  unfold isReverted
  cases t.bestFinalizedNumber with
  | none => simp
  | some best => simp

end Substrate.ForkTree
