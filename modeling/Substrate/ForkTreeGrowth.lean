import Substrate.ForkTreeEntries

/-!
# Fork trees that grow in any order

When blocks are imported in any order the forest need not mirror the block tree. What still holds is
`Grown`: every node has the number of its block, and what is below a node descends from it.
`finalizeWithAncestors_fromRoots` says where the roots come from after a finalization with
ancestors.
-/

namespace Substrate.ForkTree

open Node List Vec

variable {H V E : Type} {T : BlockTree H}

/-! ## Grown trees -/

def Node.Grown (T : BlockTree H) (node : Node H Nat V) : Prop :=
  ∀ x ∈ node.nodes, x.number = T.number x.hash ∧ ∀ c ∈ x.children, T.anc x.hash c.hash

theorem Node.grown_mk {h : H} {n : Nat} {v : V} {cs} :
    (Node.mk h n v cs).Grown T ↔ n = T.number h ∧ ∀ c ∈ cs, T.anc h c.hash ∧ c.Grown T := by
  constructor
  · intro hgrown
    obtain ⟨hn, hcs⟩ := hgrown _ (mem_nodes_self _)
    refine ⟨hn, fun c hc => ⟨hcs c hc, fun x hx => hgrown x ?_⟩⟩
    exact mem_nodes_iff.mpr (.inr (mem_nodesList.mpr ⟨c, hc, hx⟩))
  · rintro ⟨hn, hcs⟩ x hx
    rcases mem_nodes_iff.mp hx with rfl | hbelow
    · exact ⟨hn, fun c hc => (hcs c hc).1⟩
    · obtain ⟨c, hc, hxc⟩ := mem_nodesList.mp hbelow
      exact (hcs c hc).2 x hxc

variable {node : Node H Nat V} {t : ForkTree H Nat V}

theorem Node.Grown.of_mem_nodes {x} (h : node.Grown T) (hx : x ∈ node.nodes) : x.Grown T := by
  intro y hy
  refine h y ?_
  have hlist : x ∈ nodesList [node] :=
    mem_nodesList.mpr ⟨node, mem_singleton_self _, hx⟩
  obtain ⟨_, hc, hyc⟩ := mem_nodesList.mp (nodesList_trans hlist hy)
  exact mem_singleton.mp hc ▸ hyc

variable {c : Node H Nat V}

theorem Node.mem_descendants_of_child (hc : c ∈ node.children) : c ∈ node.descendants :=
  mem_nodesList_of_mem hc

theorem Node.Grown.child (h : node.Grown T) (hc : c ∈ node.children) : c.Grown T :=
  h.of_mem_nodes (mem_nodes_iff.mpr (.inr (mem_descendants_of_child hc)))

theorem Node.grown_rebalance (h : node.Grown T) : node.rebalance.Grown T := by
  induction node using Node.induct with
  | mk a n v cs ih =>
    obtain ⟨hn, hcs⟩ := grown_mk.mp h
    rw [rebalance_mk]
    refine grown_mk.mpr ⟨hn, fun c hc => ?_⟩
    obtain ⟨b, hb, rfl⟩ := mem_map.mp hc
    have hb := (sortByDepth_perm cs).mem_iff.mp hb
    rw [hash_rebalance]
    exact ⟨(hcs b hb).1, ih b hb (hcs b hb).2⟩

theorem mem_roots_rebalance {x} : x ∈ t.rebalance.roots ↔ ∃ root ∈ t.roots, root.rebalance = x := by
  unfold rebalance
  rw [mem_map]
  refine exists_congr fun root => and_congr_left fun _ => ?_
  exact (sortByDepth_perm t.roots).mem_iff

/-! ## Import -/

section Import

variable {isDescendentOf : H → H → Except E Bool} {hash : H} {number : Nat} {data : V}

theorem Attaches.number_eq {c'} (h : Attaches isDescendentOf hash number data c c') :
    c'.number = c.number := by
  cases h <;> rfl

theorem AttachesIn.grown (hd : Decides T isDescendentOf) {l l'}
    (h : AttachesIn isDescendentOf hash (T.number hash) data l l') (hl : ∀ root ∈ l, root.Grown T) :
    ∀ root ∈ l', root.Grown T := by
  -- one of the nodes is replaced
  have hreplace : ∀ {before after : List (Node H Nat V)} {c c' : Node H Nat V}
      {P : Node H Nat V → Prop}, (∀ d ∈ before ++ c :: after, P d) → (P c → P c') →
      ∀ d ∈ before ++ c' :: after, P d := by
    intro before after c c' P hall hc
    rw [forall_mem_append, forall_mem_cons] at hall ⊢
    exact ⟨hall.1, hc hall.2.1, hall.2.2⟩
  obtain ⟨before, c, c', after, rfl, rfl, hattach⟩ := h
  refine hreplace hl fun hc => ?_
  clear hl
  induction hattach with
  | @here h n v cs hne hcs hquery =>
    obtain ⟨hn, hcs⟩ := grown_mk.mp hc
    refine grown_mk.mpr ⟨hn, forall_mem_append.mpr ⟨hcs, ?_⟩⟩
    refine forall_mem_singleton.mpr ⟨((hd.decidesFor hash).of_query hne hquery).mp rfl, ?_⟩
    exact grown_mk.mpr ⟨rfl, fun _ hc => absurd hc not_mem_nil⟩
  | @inChild _ _ _ before after c c' hattach ih =>
    obtain ⟨hn, hcs⟩ := grown_mk.mp hc
    refine grown_mk.mpr ⟨hn, hreplace hcs fun hc => ?_⟩
    rw [hattach.hash_eq]
    exact ⟨hc.1, ih hc.2⟩

end Import

/-! ## Finalization with ancestors -/

section Finalize

variable {hash : H} {x c root : Node H Nat V} {roots : List (Node H Nat V)}
  {s : List (Node H Nat V) × Nat × Bool}

section

variable (T : BlockTree H) (hash : H) (roots : List (Node H Nat V)) (x : Node H Nat V)

/-- A root, or a node below a root that is above the block. -/
def Met : Prop :=
  x ∈ roots ∨ ∃ root ∈ roots, T.anc root.hash hash ∧ x ∈ root.descendants

/-- A node that becomes a root: it descends from the finalized block, and is below a root at or
above the block. -/
def Promoted : Prop :=
  ∃ root ∈ roots, T.ancEq root.hash hash ∧ x ∈ root.descendants ∧ T.anc hash x.hash

end

theorem Node.mem_descendants_child (hx : x ∈ node.descendants) (hc : c ∈ x.children) :
    c ∈ node.descendants :=
  nodesList_trans hx (mem_nodes_iff.mpr (.inr (mem_descendants_of_child hc)))

section

variable (h : Met T hash roots x)
include h

theorem Met.child (hanc : T.anc x.hash hash) (hc : c ∈ x.children) :
    Met T hash roots c := by
  rcases h with hroot | ⟨root, hroot, habove, hx⟩
  · exact .inr ⟨x, hroot, hanc, mem_descendants_of_child hc⟩
  · exact .inr ⟨root, hroot, habove, mem_descendants_child hx hc⟩

theorem Met.grown (hroots : ∀ root ∈ roots, root.Grown T) : x.Grown T := by
  rcases h with hroot | ⟨root, hroot, -, hx⟩
  · exact hroots x hroot
  · exact (hroots root hroot).of_mem_nodes (mem_nodes_iff.mpr (.inr hx))

theorem Met.promoted (hroots : ∀ root ∈ roots, root.Grown T) (hx : x.hash = hash)
    (hc : c ∈ x.children) :
    Promoted T hash roots c := by
  have hanc : T.anc hash c.hash := hx ▸ ((h.grown hroots) x (mem_nodes_self x)).2 c hc
  rcases h with hroot | ⟨root, hroot, habove, hbelow⟩
  · exact ⟨x, hroot, .inl hx, mem_descendants_of_child hc, hanc⟩
  · exact ⟨root, hroot, .inr habove, mem_descendants_child hbelow hc, hanc⟩

end

/-- A root after a finalization: an old one, or one that was promoted. -/
def FromRoots (T : BlockTree H) (hash : H) (roots : List (Node H Nat V)) (x : Node H Nat V) :
    Prop :=
  x ∈ roots ∨ Promoted T hash roots x

def LeftBelow (T : BlockTree H) (hash : H) (s : List (Node H Nat V) × Nat × Bool) : Prop :=
  ∀ x ∈ s.1.take s.2.1, T.anc hash x.hash

section

variable {idx : Nat} {changed : Bool} (h : LeftBelow T hash (roots, idx, changed))
  (hroot : roots[idx]? = some root)
include h hroot

theorem LeftBelow.leave (hdesc : T.anc hash root.hash) :
    LeftBelow T hash (roots, idx + 1, changed) := by
  intro x hx
  rw [take_add_one, hroot] at hx
  rcases mem_append.mp hx with hold | hnew
  · exact h x hold
  · rw [mem_singleton.mp hnew]
    exact hdesc

theorem LeftBelow.remove (more : List (Node H Nat V)) :
    LeftBelow T hash (swapRemove roots idx ++ more, idx, true) := by
  unfold LeftBelow
  rw [take_append_of_le_length (le_length_swapRemove hroot), take_swapRemove hroot]
  exact h

end

theorem LeftBelow.ended (h : LeftBelow T hash s) (hend : s.1[s.2.1]? = none) :
    ∀ x ∈ s.1, T.anc hash x.hash := by
  unfold LeftBelow at h
  rwa [take_of_length_le (List.getElem?_eq_none_iff.mp hend)] at h

variable [DecidableEq H] {isDescendentOf : H → H → Except E Bool}

section

variable (hd : Decides T isDescendentOf)
include hd

variable {number : Nat}

theorem rootPosition_spec {r} (h : rootPosition hash number isDescendentOf root = r) :
    (root.hash = hash ∧ r = .ok (true, false, false)) ∨
    (T.anc hash root.hash ∧ r = .ok (false, true, false)) ∨
    (T.anc root.hash hash ∧ r = .ok (false, false, true)) ∨
    (root.hash ≠ hash ∧ (number < root.number → ¬T.anc hash root.hash) ∧
      (root.number < number → ¬T.anc root.hash hash) ∧ r = .ok (false, false, false)) := by
  obtain ⟨down, hr, hdesc⟩ := hd hash root.hash
  obtain ⟨up, hq, hanc⟩ := hd root.hash hash
  subst h
  unfold rootPosition
  by_cases hhash : root.hash = hash
  · rw [if_pos hhash]
    exact .inl ⟨hhash, rfl⟩
  rw [if_neg hhash, hr, hq]
  have hskip : ∀ {c P : Prop} [Decidable c] {b : Bool}, (b = true ↔ P) → ¬(c ∧ P) →
      (if c then .ok b else .ok false : Except E Bool) = .ok false := by
    intro c P _ b hiff hnot
    split
    · rename_i hc
      rw [Bool.eq_false_iff.mpr fun h => hnot ⟨hc, hiff.mp h⟩]
    · rfl
  by_cases hdown : number < root.number ∧ T.anc hash root.hash
  · exact .inr (.inl ⟨hdown.2, by rw [if_pos hdown.1, hdesc.mpr hdown.2]⟩)
  rw [hskip hdesc hdown]
  by_cases hup : root.number < number ∧ T.anc root.hash hash
  · exact .inr (.inr (.inl ⟨hup.2, by rw [if_pos hup.1, hanc.mpr hup.2]⟩))
  · exact .inr (.inr (.inr ⟨hhash, not_and.mp hdown, not_and.mp hup, by rw [hskip hanc hup]⟩))

theorem WorklistStep.cases {s'} (h : WorklistStep hash number isDescendentOf s s') :
    ∃ root, s.1[s.2.1]? = some root ∧ ((T.anc hash root.hash ∧ s' = (s.1, s.2.1 + 1, s.2.2)) ∨
      (T.anc root.hash hash ∧ s' = (swapRemove s.1 s.2.1 ++ root.children, s.2.1, true)) ∨
      (root.hash ≠ hash ∧ (number < root.number → ¬T.anc hash root.hash) ∧
        (root.number < number → ¬T.anc root.hash hash) ∧
        s' = (swapRemove s.1 s.2.1 ++ [], s.2.1, true))) := by
  cases h with
  | leave hroot hpos =>
    refine ⟨_, hroot, .inl ⟨?_, rfl⟩⟩
    rcases rootPosition_spec hd hpos with ⟨-, h⟩ | ⟨hdesc, -⟩ | ⟨-, h⟩ | ⟨-, -, -, h⟩
    · cases h
    · exact hdesc
    · cases h
    · cases h
  | opened hroot hpos =>
    refine ⟨_, hroot, .inr (.inl ⟨?_, rfl⟩)⟩
    rcases rootPosition_spec hd hpos with ⟨-, h⟩ | ⟨-, h⟩ | ⟨hanc, -⟩ | ⟨-, -, -, h⟩
    · cases h
    · cases h
    · exact hanc
    · cases h
  | dropped hroot hpos =>
    rcases rootPosition_spec hd hpos with ⟨-, h⟩ | ⟨-, h⟩ | ⟨-, h⟩ | ⟨hne, hdown, hup, -⟩
    · cases h
    · cases h
    · cases h
    · exact ⟨_, hroot, .inr (.inr ⟨hne, hdown, hup, by rw [append_nil]⟩)⟩

theorem worklist_met
    (h : Relation.ReflTransGen (WorklistStep hash number isDescendentOf) (roots, 0, false) s) :
    (∀ x ∈ s.1, Met T hash roots x) ∧ LeftBelow T hash s := by
  induction h with
  | refl => exact ⟨fun x hx => .inl hx, by simp [LeftBelow]⟩
  | tail _ hstep ih =>
    obtain ⟨hmet, hleft⟩ := ih
    obtain ⟨root, hroot, ⟨hdesc, rfl⟩ | ⟨hanc, rfl⟩ | ⟨-, -, -, rfl⟩⟩ := hstep.cases hd
    · exact ⟨hmet, hleft.leave hroot hdesc⟩
    · refine ⟨fun x hx => ?_, hleft.remove hroot _⟩
      rcases mem_append.mp hx with hold | hchild
      · exact hmet x (mem_of_mem_swapRemove hroot hold)
      · exact (hmet root (mem_of_getElem? hroot)).child hanc hchild
    · refine ⟨fun x hx => ?_, hleft.remove hroot _⟩
      rw [append_nil] at hx
      exact hmet x (mem_of_mem_swapRemove hroot hx)

/-- The call returns, or the tree was finalized further already; each root is an old one or was
promoted. -/
theorem finalizeWithAncestors_fromRoots (hgrown : ∀ root ∈ t.roots, root.Grown T) :
    t.finalizeWithAncestors hash number isDescendentOf = (.err .revert, t) ∨
    ∃ result, (t.finalizeWithAncestors hash number isDescendentOf).1 = .ok result ∧
      ∀ x ∈ (t.finalizeWithAncestors hash number isDescendentOf).2.roots,
        FromRoots T hash t.roots x := by
  rcases finalizeWithAncestors_cases t hash number isDescendentOf with
    ⟨-, heq⟩ | ⟨-, ⟨node, hnode, hhash, heq⟩ | ⟨-, s, hrun, hends⟩⟩
  · exact .inl heq
  · rw [heq]
    have hmet : Met T hash t.roots node := .inl hnode
    exact .inr ⟨_, rfl, fun c hc => .inr (hmet.promoted hgrown hhash hc)⟩
  · obtain ⟨hmet, hleft⟩ := worklist_met hd hrun
    generalize t.finalizeWithAncestors hash number isDescendentOf = r at hends ⊢
    cases hends with
    | done hend =>
      refine .inr ⟨_, rfl, fun x hx => (hmet x hx).imp_right ?_⟩
      exact fun ⟨root, hr, habove, hx'⟩ => ⟨root, hr, .inr habove, hx', hleft.ended hend x hx⟩
    | found hroot hhash =>
      have hroot := hmet _ (mem_of_getElem? hroot)
      exact .inr ⟨_, rfl, fun c hc => .inr (hroot.promoted hgrown hhash hc)⟩
    | failed hroot hpos =>
      rcases rootPosition_spec hd hpos with ⟨-, h⟩ | ⟨-, h⟩ | ⟨-, h⟩ | ⟨-, -, -, h⟩ <;> cases h

end

end Finalize

end Substrate.ForkTree
