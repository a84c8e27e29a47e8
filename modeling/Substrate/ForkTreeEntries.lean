import Substrate.ForkTreeRuns

/-!
# What a fork tree stores

`entries` lists the hash, number and data of every node, so that callers can say what each operation
does to them without looking at the layout: an import adds one entry, pruning divides the entries
between the new tree and what it returns, and finalization only drops entries.
-/

namespace Substrate.ForkTree

open List Node

variable {H N V E : Type} {l : List (Node H N V)}

def Node.entry (x : Node H N V) : H × N × V := (x.hash, x.number, x.data)

def entriesOf (l : List (Node H N V)) : List (H × N × V) := (nodesList l).map entry

def entries (t : ForkTree H N V) : List (H × N × V) := entriesOf t.roots

@[simp] theorem entriesOf_nil : entriesOf ([] : List (Node H N V)) = [] := by
  simp [entriesOf]

@[simp] theorem entriesOf_cons (c : Node H N V) (cs : List (Node H N V)) :
    entriesOf (c :: cs) = c.entry :: (entriesOf c.children ++ entriesOf cs) := by
  obtain ⟨h, n, v, ds⟩ := c
  simp [entriesOf]

theorem entriesOf_append (l l' : List (Node H N V)) :
    entriesOf (l ++ l') = entriesOf l ++ entriesOf l' := by
  induction l with
  | nil => simp
  | cons c cs ih => simp [ih]

theorem entriesOf_perm {l'} (h : l.Perm l') : (entriesOf l).Perm (entriesOf l') := by
  induction h with
  | nil => exact List.Perm.refl _
  | cons c _ ih =>
    rw [entriesOf_cons, entriesOf_cons]
    exact (ih.append_left _).cons _
  | swap a b l =>
    have hcomm : (entriesOf [b] ++ entriesOf [a]).Perm (entriesOf [a] ++ entriesOf [b]) :=
      perm_append_comm
    have hswap := hcomm.append_right (entriesOf l)
    simpa only [← entriesOf_append, singleton_append, append_assoc,
      cons_append, nil_append] using hswap
  | trans _ _ ih1 ih2 => exact ih1.trans ih2

theorem entriesOf_sublist {l'} (h : l.Sublist l') : (entriesOf l).Sublist (entriesOf l') := by
  induction h with
  | slnil => exact List.Sublist.refl _
  | cons c _ ih =>
    rw [entriesOf_cons]
    exact (ih.trans (sublist_append_right ..)).cons _
  | cons_cons c _ ih =>
    rw [entriesOf_cons, entriesOf_cons]
    exact (ih.append_left _).cons_cons _

theorem entry_mem_entriesOf {x} (hx : x ∈ nodesList l) : x.entry ∈ entriesOf l :=
  mem_map_of_mem hx

theorem mem_entriesOf {e} : e ∈ entriesOf l ↔ ∃ x ∈ nodesList l, x.entry = e :=
  mem_map

theorem entriesOf_map_rebalance
    (h : ∀ c ∈ l, (entriesOf c.rebalance.children).Perm (entriesOf c.children)) :
    (entriesOf (l.map Node.rebalance)).Perm (entriesOf l) := by
  induction l with
  | nil => exact List.Perm.refl _
  | cons c cs ih =>
    have hentry : c.rebalance.entry = c.entry := by
      obtain ⟨_, _, _, _⟩ := c
      rw [Node.rebalance]
      rfl
    rw [map_cons, entriesOf_cons, entriesOf_cons, hentry]
    exact ((h c (mem_cons_self ..)).append (ih fun d hd => h d (mem_cons_of_mem _ hd))).cons _

theorem entriesOf_rebalance_children (node : Node H N V) :
    (entriesOf node.rebalance.children).Perm (entriesOf node.children) := by
  induction node using Node.induct with
  | mk h n v cs ih =>
    rw [Node.rebalance_mk, Node.children_mk]
    refine (entriesOf_map_rebalance fun c hc => ih c ?_).trans
      (entriesOf_perm (Node.sortByDepth_perm cs))
    exact (Node.sortByDepth_perm cs).mem_iff.mp hc

theorem entries_rebalance (t : ForkTree H N V) : t.rebalance.entries.Perm t.entries :=
  (entriesOf_map_rebalance fun c _ => entriesOf_rebalance_children c).trans
    (entriesOf_perm (Node.sortByDepth_perm t.roots))

/-! ## Import -/

section Import

variable {isDescendentOf : H → H → Except E Bool} {hash : H} {number : N} {data : V}

theorem entriesOf_cons_append (c : Node H N V) (cs : List (Node H N V)) :
    entriesOf (c :: cs) = entriesOf [c] ++ entriesOf cs := by
  rw [← entriesOf_append, singleton_append]

theorem entriesOf_replace {before after : List (Node H N V)} {c c' : Node H N V} {e : H × N × V}
    (h : (entriesOf [c']).Perm (e :: entriesOf [c])) :
    (entriesOf (before ++ c' :: after)).Perm (e :: entriesOf (before ++ c :: after)) := by
  rw [entriesOf_append, entriesOf_append, entriesOf_cons_append c', entriesOf_cons_append c]
  exact ((h.append_right _).append_left _).trans perm_middle

variable [LinearOrder N]

theorem Attaches.entries {c c' : Node H N V} (h : Attaches isDescendentOf hash number data c c') :
    (entriesOf [c']).Perm ((hash, number, data) :: entriesOf [c]) := by
  induction h with
  | here hne hcs hquery =>
    simp only [entriesOf_cons, entriesOf_nil, append_nil, children_mk, entriesOf_append]
    exact (perm_append_comm.cons _).trans (List.Perm.swap ..)
  | inChild _ ih =>
    rw [entriesOf_cons, entriesOf_cons, entriesOf_nil, append_nil, append_nil]
    exact ((entriesOf_replace ih).cons _).trans (List.Perm.swap ..)

theorem importBlock_entries [DecidableEq H] (t : ForkTree H N V) (hash : H) (number : N) (data : V)
    (isDescendentOf : H → H → Except E Bool) :
    (∃ b, (t.importBlock hash number data isDescendentOf).1 = .ok b ∧
      (t.importBlock hash number data isDescendentOf).2.entries.Perm
        ((hash, number, data) :: t.entries) ∧
      (t.importBlock hash number data isDescendentOf).2.bestFinalizedNumber =
        t.bestFinalizedNumber ∧ t.isReverted number = false) ∨
    ∃ e, t.importBlock hash number data isDescendentOf = (.err e, t) := by
  rcases importBlock_cases t hash number data isDescendentOf with
    ⟨-, heq⟩ | ⟨hrev, ⟨e, -, heq⟩ | ⟨-, heq⟩ | ⟨roots, ⟨before, c, c', after, hroots, rfl,
      hattach⟩, heq⟩⟩
  · exact .inr ⟨_, heq⟩
  · exact .inr ⟨e, heq⟩
  · rw [heq]
    refine .inl ⟨true, rfl, (entries_rebalance _).trans ?_, rfl, hrev⟩
    simp only [entries, entriesOf_append, entriesOf_cons, entriesOf_nil, children_mk, append_nil]
    exact perm_append_comm
  · have hentries : t.entries = entriesOf (before ++ c :: after) := by rw [entries, hroots]
    rw [heq, hentries]
    exact .inl ⟨false, rfl, (entries_rebalance _).trans (entriesOf_replace hattach.entries), rfl,
      hrev⟩

end Import

/-! ## Finalization with a descendent -/

section Finalize

variable {T : BlockTree H} {isDescendentOf : H → H → Except E Bool} {hash : H}
  {predicate : V → Bool} {root : Node H Nat V}

theorem retainRoots_filter {retain : Node H Nat V → Except E Bool} {P : Node H Nat V → Prop} {l}
    (h : ∀ root ∈ l, ∃ b, retain root = .ok b ∧ (b = true ↔ P root)) :
    ∃ changed roots, retainRoots retain l = (.ok changed, roots) ∧
      (∀ r, r ∈ roots ↔ r ∈ l ∧ P r) ∧ (changed = true ↔ ∃ r ∈ l, ¬P r) := by
  induction l with
  | nil => exact ⟨false, [], rfl, by simp, by simp⟩
  | cons root rest ih =>
    obtain ⟨changed, roots, hrest, hmem, hchanged⟩ := ih fun r hr =>
      h r (mem_cons_of_mem _ hr)
    obtain ⟨b, hb, hiff⟩ := h root (mem_cons_self ..)
    cases b with
    | true =>
      have hroot := hiff.mp rfl
      refine ⟨changed, root :: roots, by rw [retainRoots, hb]; simp only [hrest], fun r => ?_, ?_⟩
      · simp only [mem_cons, hmem]
        grind
      · simp [hchanged, hroot]
    | false =>
      have hroot : ¬P root := fun hP => by simpa using hiff.mpr hP
      refine ⟨true, roots, by rw [retainRoots, hb]; simp only [hrest]; rfl, fun r => ?_, ?_⟩
      · simp only [mem_cons, hmem]
        grind
      · simp [hroot]

variable (T : BlockTree H) (hash : H) (predicate : V → Bool) (t t' : ForkTree H Nat V) in
/-- A root at or above the block passes the predicate and is opened, or no root does. Of the roots
that are left, those related to the block stay. -/
inductive Finalizes : FinalizationResult V → Prop
  | root (x : Node H Nat V) (hx : x ∈ t.roots) (hpred : predicate x.data = true)
      (habove : T.ancEq x.hash hash) (hchild : ∀ c ∈ x.children, ¬T.anc c.hash hash)
      (hroots : ∀ r, r ∈ t'.roots ↔ r ∈ x.children ∧ ¬T.Unrelated hash r.hash) :
      Finalizes (.changed (some x.data))
  | none (result : FinalizationResult V) (hresult : ∀ data, result ≠ .changed (some data))
      (hnone : ∀ r ∈ t.roots, predicate r.data = true → ¬T.ancEq r.hash hash)
      (hroots : ∀ r, r ∈ t'.roots ↔ r ∈ t.roots ∧ ¬T.Unrelated hash r.hash) : Finalizes result

theorem Finalizes.mem_nodes {t t' result} (h : Finalizes T hash predicate t t' result) {x}
    (hx : x ∈ t'.nodes) : x ∈ t.nodes := by
  obtain ⟨r, hr, hxr⟩ := mem_nodesList.mp hx
  cases h with
  | root y hy _ _ _ hroots =>
    have hry := mem_nodesList.mpr ⟨r, ((hroots r).mp hr).1, hxr⟩
    exact mem_nodesList.mpr ⟨y, hy, mem_nodes_iff.mpr (.inr hry)⟩
  | none _ _ _ hroots => exact mem_nodesList.mpr ⟨r, ((hroots r).mp hr).1, hxr⟩

theorem passesChild_ok (hash : H) (hd : Decides T isDescendentOf) {cs : List (Node H Nat V)}
    (hcs : ForestWf T cs) :
    ∃ b, passesChild hash (T.number hash) isDescendentOf cs = .ok b ∧
      (b = false → ∀ c ∈ cs, ¬T.anc c.hash hash) := by
  induction cs with
  | nil => exact ⟨false, by rw [passesChild], by simp⟩
  | cons c cs ih =>
    obtain ⟨b, hb, hnone⟩ := ih (hcs.sublist (sublist_cons_self ..))
    have hc := hcs.wf c (mem_cons_self ..)
    by_cases hanc : T.anc c.hash hash
    · have hle : c.number ≤ T.number hash :=
        hc.number_eq ▸ (BlockTree.anc_number_lt hanc).le
      exact ⟨true, by rw [passesChild, if_pos hle, hd.of_anc hanc], by simp⟩
    · refine ⟨b, by rw [passesChild, hd.of_not_anc hanc, ite_self]; exact hb, fun hf => ?_⟩
      exact forall_mem_cons.mpr ⟨hanc, hnone hf⟩

variable [DecidableEq H]

theorem retainDescendent_ok (hash : H) (hd : Decides T isDescendentOf) (hwf : root.Wf T) :
    ∃ b, retainDescendent hash (T.number hash) isDescendentOf root = .ok b ∧
      (b = true ↔ ¬T.Unrelated hash root.hash) := by
  obtain ⟨down, hdown, hdown_iff⟩ := hd hash root.hash
  obtain ⟨up, hup, hup_iff⟩ := hd root.hash hash
  have hlt : T.anc hash root.hash → T.number hash < root.number := fun h =>
    hwf.number_eq ▸ BlockTree.anc_number_lt h
  simp only [retainDescendent, hdown, hup, BlockTree.Unrelated, hwf.number_eq] at hlt ⊢
  by_cases hanc : T.anc hash root.hash
  · rw [if_pos (hlt hanc), hdown_iff.mpr hanc]
    exact ⟨true, rfl, by simp [hanc]⟩
  obtain rfl := by simpa using mt hdown_iff.mp hanc
  rw [ite_self]
  by_cases heq : root.hash = hash
  · simp [heq]
  · exact ⟨up, by simp [heq], by rw [hup_iff]; grind⟩

theorem finalizedRoot_skip (hd : Decides T isDescendentOf) {number : Nat}
    (hroot : ¬(predicate root.data = true ∧ T.ancEq root.hash hash)) (rest : List (Node H Nat V)) :
    finalizedRoot hash number isDescendentOf predicate (root :: rest) =
      finalizedRoot hash number isDescendentOf predicate rest := by
  rw [finalizedRoot]
  by_cases hpred : predicate root.data = true
  · have hnot : ¬T.ancEq root.hash hash := fun h => hroot ⟨hpred, h⟩
    rw [if_pos hpred, if_neg fun h => hnot (.inl h), hd.of_not_anc fun h => hnot (.inr h)]
  · rw [if_neg hpred]

theorem finalizedRoot_stop (hd : Decides T isDescendentOf) {number : Nat}
    (hpred : predicate root.data = true) (habove : T.ancEq root.hash hash) {b : Bool}
    (hb : passesChild hash number isDescendentOf root.children = .ok b) (rest : List (Node H Nat V)) :
    finalizedRoot hash number isDescendentOf predicate (root :: rest) =
      if b then .error .unfinalizedAncestor else .ok (some root) := by
  have hquery : (if root.hash = hash then .ok true else isDescendentOf root.hash hash) =
      .ok true := by
    rcases habove with heq | hanc
    · rw [if_pos heq]
    · rw [hd.of_anc hanc, ite_self]
  rw [finalizedRoot, if_pos hpred, hquery]
  rw [hb]
  cases b <;> rfl

theorem finalizedRoot_cases (hash : H) (hd : Decides T isDescendentOf) (predicate : V → Bool)
    {l : List (Node H Nat V)} (hwf : ∀ x ∈ l, x.Wf T) :
    (∃ e, finalizedRoot hash (T.number hash) isDescendentOf predicate l = .error e ∧
      ∃ x ∈ l, predicate x.data = true ∧ T.ancEq x.hash hash) ∨
    (∃ x ∈ l, finalizedRoot hash (T.number hash) isDescendentOf predicate l = .ok (some x) ∧
      predicate x.data = true ∧ T.ancEq x.hash hash ∧ ∀ c ∈ x.children, ¬T.anc c.hash hash) ∨
    (finalizedRoot hash (T.number hash) isDescendentOf predicate l = .ok none ∧
      ∀ r ∈ l, predicate r.data = true → ¬T.ancEq r.hash hash) := by
  induction l with
  | nil => exact .inr (.inr ⟨by rw [finalizedRoot], by simp⟩)
  | cons root rest ih =>
    obtain ⟨hroot, hwf⟩ := forall_mem_cons.mp hwf
    have hchildren := hroot.children
    by_cases hroot : predicate root.data = true ∧ T.ancEq root.hash hash
    · obtain ⟨hpred, habove⟩ := hroot
      obtain ⟨b, hb, hnone⟩ := passesChild_ok hash hd hchildren
      rw [finalizedRoot_stop hd hpred habove hb]
      cases b with
      | true => exact .inl ⟨_, rfl, root, mem_cons_self .., hpred, habove⟩
      | false =>
        exact .inr (.inl ⟨root, mem_cons_self .., rfl, hpred, habove, hnone rfl⟩)
    rw [finalizedRoot_skip hd hroot]
    rcases ih hwf with ⟨e, he, x, hx, hacc⟩ | ⟨x, hx, hfound⟩ | ⟨hok, hnone⟩
    · exact .inl ⟨e, he, x, mem_cons_of_mem _ hx, hacc⟩
    · exact .inr (.inl ⟨x, mem_cons_of_mem _ hx, hfound⟩)
    · refine .inr (.inr ⟨hok, forall_mem_cons.mpr ⟨?_, hnone⟩⟩)
      exact fun hpred habove => hroot ⟨hpred, habove⟩

theorem finalizeWithDescendentIf_cases (hd : Decides T isDescendentOf) {t}
    (hwf : ForestWf T t.roots) (hash : H) (predicate : V → Bool) :
    (∃ e, t.finalizeWithDescendentIf hash (T.number hash) isDescendentOf predicate = (.err e, t)) ∨
    ∃ result t', t.finalizeWithDescendentIf hash (T.number hash) isDescendentOf predicate =
        (.ok result, t') ∧
      Finalizes T hash predicate t t' result ∧ ForestWf T t'.roots ∧
        t.isReverted (T.number hash) = false ∧
        t'.bestFinalizedNumber = some (T.number hash) := by
  unfold finalizeWithDescendentIf
  by_cases hrev : t.isReverted (T.number hash)
  · exact .inl ⟨_, by rw [if_pos hrev]⟩
  rw [if_neg hrev]
  rw [Bool.not_eq_true] at hrev
  rcases finalizedRoot_cases hash hd predicate hwf.wf with
    ⟨e, he, -⟩ | ⟨x, hx, hfound, hpred, habove, hchild⟩ | ⟨hok, hnone⟩
  · exact .inl ⟨e, by rw [he]⟩
  · obtain ⟨changed, roots, hretain, hmem, _⟩ := retainRoots_filter
      fun r hr => retainDescendent_ok hash hd ((hwf.wf x hx).children.wf r hr)
    rw [hfound]
    simp only [finalizePosition, finalizeRootAt, hretain]
    exact .inr ⟨_, _, rfl, .root x hx hpred habove hchild hmem,
      (hwf.wf x hx).children.retained hretain, hrev, rfl⟩
  · obtain ⟨changed, roots, hretain, hmem, _⟩ := retainRoots_filter
      fun r hr => retainDescendent_ok hash hd (hwf.wf r hr)
    rw [hok]
    simp only [finalizePosition, hretain]
    refine .inr ⟨_, _, rfl, .none _ ?_ hnone hmem, hwf.retained hretain, hrev, rfl⟩
    cases changed <;> simp

end Finalize

end Substrate.ForkTree
