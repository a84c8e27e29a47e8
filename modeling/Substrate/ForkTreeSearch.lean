import Substrate.ForkTreeEntries

/-!
# Searching and pruning a fork tree

`find_node_where` looks for the deepest ancestor of a block that passes a predicate. The search is
depth first, asks the client about a node only after the children failed, and passes "the block is
below me" up the tree without asking again.

The nodes for which `Above` holds lie on one branch. A node counts if it passes the predicate and
the client confirms it or a node below it (`Good`). The client may fail to confirm a node, which is
what a search for a made-up hash can run into; it may not confirm a wrong one.
-/

namespace Substrate.ForkTree

open List Node BlockTree

variable {H V E : Type}

/-! ## The node at an index path -/

section NodeAt

variable {N : Type}

/-- The walk of `find_node_where` along an index path. -/
def Node.nodeAt : List Nat → Node H N V → Option (Node H N V)
  | [], node => some node
  | i :: path, node => (node.children[i]?).bind (nodeAt path)

/-- `ForkTree::find_node_where`. An index out of range panics. -/
def findNodeWhere [LinearOrder N] (t : ForkTree H N V) (hash : H) (number : N)
    (isDescendentOf : H → H → Except E Bool) (predicate : V → Bool) :
    Outcome (Error E) (Option (Node H N V)) :=
  go t.roots
where
  go : List (Node H N V) → Outcome (Error E) (Option (Node H N V))
    | [] => .ok none
    | root :: rest =>
      match root.findNodeIndexWhere hash number isDescendentOf predicate with
      | .error e => .err e
      | .ok (.found path) =>
        match root.nodeAt path with
        | some node => .ok (some node)
        | none => .panic
      | .ok _ => go rest

end NodeAt

/-! ## What a search finds -/

/-- The blocks `Above` lie on one branch, not above the number searched for, and the client confirms
only such blocks. -/
structure Search (T : BlockTree H) (query : H → Except E Bool) (number : Nat) (Above : H → Prop) :
    Prop where
  closed : ∀ {x y : H}, T.anc x y → Above y → Above x
  branch : ∀ {x y : H}, Above x → Above y → ¬T.Unrelated x y
  number_le : ∀ {x : H}, Above x → T.number x ≤ number
  answers : ∀ x, ∃ b, query x = .ok b ∧ (b = true → Above x)

variable {c x : Node H Nat V} {cs roots : List (Node H Nat V)} {e' : H × Nat × V}
  {t : ForkTree H Nat V}

section Spec

variable {T : BlockTree H} {query : H → Except E Bool} {number : Nat} {Above : H → Prop}
  {predicate : V → Bool} {l : List (Node H Nat V)} {e : H × Nat × V}

section

variable (T query Above predicate)

structure Good (entries : List (H × Nat × V)) (e : H × Nat × V) : Prop where
  above : Above e.1
  passes : predicate e.2.2 = true
  confirmed : query e.1 = .ok true ∨ ∃ e' ∈ entries, T.anc e.1 e'.1 ∧ query e'.1 = .ok true

structure Deepest (l : List (Node H Nat V)) (x : Node H Nat V) : Prop where
  mem : x ∈ nodesList l
  good : Good T query Above predicate (entriesOf l) x.entry
  deepest : ∀ e ∈ entriesOf l, Good T query Above predicate (entriesOf l) e → T.ancEq e.1 x.hash

/-- Nothing good in the forest; the flag says whether the client confirmed a node. -/
structure Nothing (l : List (Node H Nat V)) (b : Bool) : Prop where
  none_good : ∀ e ∈ entriesOf l, ¬Good T query Above predicate (entriesOf l) e
  confirmed_iff : b = true ↔ ∃ e ∈ entriesOf l, query e.1 = .ok true

end

theorem mem_entriesOf_cons : e ∈ entriesOf (c :: cs) ↔ e ∈ entriesOf [c] ∨ e ∈ entriesOf cs := by
  rw [entriesOf_cons_append, mem_append]

theorem ancEq_of_mem_entriesOf_singleton (hc : c.Wf T) (he : e ∈ entriesOf [c]) :
    T.ancEq c.hash e.1 := by
  obtain ⟨x, hx, rfl⟩ := mem_entriesOf.mp he
  obtain ⟨c', hc', hxc⟩ := mem_nodesList.mp hx
  obtain rfl := mem_singleton.mp hc'
  exact (hc.nodes x hxc).2

theorem ForestWf.ancEq_of_mem_entriesOf (h : ForestWf T l) (he : e ∈ entriesOf l) :
    ∃ c ∈ l, T.ancEq c.hash e.1 := by
  obtain ⟨x, hx, rfl⟩ := mem_entriesOf.mp he
  obtain ⟨-, c, hc, -, hcx⟩ := h.mem_nodes hx
  exact ⟨c, hc, hcx⟩

theorem Search.above_of_ancEq (hs : Search T query number Above) {x y : H}
    (hxy : T.ancEq x y) (hy : Above y) : Above x := by
  rcases hxy with rfl | hanc
  · exact hy
  · exact hs.closed hanc hy

theorem Search.above_of_confirmed (hs : Search T query number Above) {x : H}
    (h : query x = .ok true) : Above x := by
  obtain ⟨b, hb, himp⟩ := hs.answers x
  rw [hb] at h
  cases h
  exact himp rfl

theorem Good.mono {entries entries'} (h : Good T query Above predicate entries e)
    (hsub : ∀ e' ∈ entries, T.anc e.1 e'.1 → query e'.1 = .ok true → e' ∈ entries') :
    Good T query Above predicate entries' e :=
  ⟨h.above, h.passes, h.confirmed.imp id fun ⟨e', he', hanc, hq⟩ =>
    ⟨e', hsub e' he' hanc hq, hanc, hq⟩⟩

section Siblings

variable {c : Node H Nat V} {cs : List (Node H Nat V)}

theorem Search.not_above_siblings (hs : Search T query number Above) (hwf : ForestWf T (c :: cs))
    (he : e ∈ entriesOf [c]) (he' : e' ∈ entriesOf cs) (hAbove : Above e.1) (hAbove' : Above e'.1) :
    False := by
  have hce := ancEq_of_mem_entriesOf_singleton (hwf.wf c (mem_cons_self ..)) he
  obtain ⟨d, hd, hde⟩ :=
    (hwf.sublist (sublist_cons_self ..)).ancEq_of_mem_entriesOf he'
  exact hs.branch (hs.above_of_ancEq hce hAbove) (hs.above_of_ancEq hde hAbove')
    ((pairwise_cons.mp hwf.unrelated).1 d hd)

/-- A part of a forest: no entry of the rest is above the block if one of the part is. -/
structure Part (Above : H → Prop) (l l' : List (Node H Nat V)) : Prop where
  sub : ∀ x ∈ nodesList l, x ∈ nodesList l'
  rest : ∀ e ∈ entriesOf l', e ∈ entriesOf l ∨ ∀ e' ∈ entriesOf l, Above e'.1 → ¬Above e.1

section

variable (hs : Search T query number Above)
include hs

theorem Search.part_singleton (hwf : ForestWf T (c :: cs)) : Part Above [c] (c :: cs) where
  sub x hx := by
    rw [nodesList_cons, nodesList_nil, append_nil] at hx
    rw [nodesList_cons]
    exact mem_append_left _ hx
  rest e he := (mem_entriesOf_cons.mp he).imp_right fun hin _ he' habove' habove =>
    hs.not_above_siblings hwf he' hin habove' habove

theorem Search.part_rest (hwf : ForestWf T (c :: cs)) : Part Above cs (c :: cs) where
  sub x hx := by
    rw [nodesList_cons]
    exact mem_append_right _ hx
  rest e he := (mem_entriesOf_cons.mp he).symm.imp_right fun hin _ he' habove' habove =>
    hs.not_above_siblings hwf hin he' habove habove'

variable {l' : List (Node H Nat V)}

theorem Search.good_part (hpart : Part Above l l') (he : e ∈ entriesOf l) :
    Good T query Above predicate (entriesOf l') e ↔
      Good T query Above predicate (entriesOf l) e := by
  refine ⟨fun h => h.mono fun e' he' _ hq => ?_, fun h => h.mono fun e' he' _ _ => ?_⟩
  · exact (hpart.rest e' he').resolve_right fun hrest =>
      hrest e he h.above (hs.above_of_confirmed hq)
  · obtain ⟨x, hx, rfl⟩ := mem_entriesOf.mp he'
    exact entry_mem_entriesOf (hpart.sub x hx)

theorem Search.deepest_part (hpart : Part Above l l') (h : Deepest T query Above predicate l x) :
    Deepest T query Above predicate l' x := by
  have hx := entry_mem_entriesOf h.mem
  refine ⟨hpart.sub x h.mem, (hs.good_part hpart hx).mpr h.good, fun e he hgood => ?_⟩
  rcases hpart.rest e he with he | hrest
  · exact h.deepest e he ((hs.good_part hpart he).mp hgood)
  · exact absurd hgood.above (hrest _ hx h.good.above)

theorem Search.nothing_cons (hwf : ForestWf T (c :: cs)) {b b' : Bool}
    (hc : Nothing T query Above predicate [c] b) (hcs : Nothing T query Above predicate cs b') :
    Nothing T query Above predicate (c :: cs) (b || b') := by
  refine ⟨fun e he hgood => ?_, ?_⟩
  · rcases mem_entriesOf_cons.mp he with he | he
    · exact hc.none_good e he ((hs.good_part (hs.part_singleton hwf) he).mp hgood)
    · exact hcs.none_good e he ((hs.good_part (hs.part_rest hwf) he).mp hgood)
  · rw [Bool.or_eq_true, hc.confirmed_iff, hcs.confirmed_iff]
    constructor
    · rintro (⟨e, he, hq⟩ | ⟨e, he, hq⟩)
      · exact ⟨e, mem_entriesOf_cons.mpr (.inl he), hq⟩
      · exact ⟨e, mem_entriesOf_cons.mpr (.inr he), hq⟩
    · rintro ⟨e, he, hq⟩
      exact (mem_entriesOf_cons.mp he).imp (fun he => ⟨e, he, hq⟩) fun he => ⟨e, he, hq⟩

theorem Search.nothing_rest (hwf : ForestWf T (c :: cs))
    (hc : Nothing T query Above predicate [c] true) : Nothing T query Above predicate cs false := by
  obtain ⟨e, he, hq⟩ := hc.confirmed_iff.mp rfl
  have habove := hs.above_of_confirmed hq
  refine ⟨fun e' he' hgood => hs.not_above_siblings hwf he he' habove hgood.above, ?_⟩
  simp only [Bool.false_eq_true, false_iff]
  rintro ⟨e', he', hq'⟩
  exact hs.not_above_siblings hwf he he' habove (hs.above_of_confirmed hq')

end

end Siblings

section Children

variable {h : H} {n : Nat} {v : V} {cs : List (Node H Nat V)}

theorem mem_entriesOf_mk : e ∈ entriesOf [Node.mk h n v cs] ↔ e = (h, n, v) ∨ e ∈ entriesOf cs := by
  simp [entry]

theorem Node.Wf.anc_entry (hwf : (mk h n v cs).Wf T) (he : e ∈ entriesOf cs) : T.anc h e.1 := by
  obtain ⟨x, hx, rfl⟩ := mem_entriesOf.mp he
  exact hwf.anc_descendant hx

theorem Good.of_mk (hwf : (Node.mk h n v cs).Wf T) (he : e ∈ entriesOf cs)
    (hg : Good T query Above predicate (entriesOf [.mk h n v cs]) e) :
    Good T query Above predicate (entriesOf cs) e := by
  refine hg.mono fun e' he' hee' _ => ?_
  rcases mem_entriesOf_mk.mp he' with rfl | he'
  · exact absurd (anc_trans (hwf.anc_entry he) hee') (anc_irrefl _)
  · exact he'

theorem Search.nothing_mk (hs : Search T query number Above) (hwf : (Node.mk h n v cs).Wf T)
    {b b' : Bool} (hcs : Nothing T query Above predicate cs b) (hquery : query h = .ok b') :
    (predicate v = true → (b || b') = true →
      Deepest T query Above predicate [.mk h n v cs] (.mk h n v cs)) ∧
    ((predicate v = true → (b || b') = false) →
      Nothing T query Above predicate [.mk h n v cs] (b || b')) := by
  have hconfirmed : (b || b') = true ↔
      ∃ e ∈ entriesOf [Node.mk h n v cs], query e.1 = .ok true := by
    rw [Bool.or_eq_true, hcs.confirmed_iff]
    constructor
    · rintro (⟨e, he, hq⟩ | rfl)
      · exact ⟨e, mem_entriesOf_mk.mpr (.inr he), hq⟩
      · exact ⟨_, mem_entriesOf_mk.mpr (.inl rfl), hquery⟩
    · rintro ⟨e, he, hq⟩
      rcases mem_entriesOf_mk.mp he with rfl | he
      · rw [hquery] at hq
        cases hq
        exact .inr rfl
      · exact .inl ⟨e, he, hq⟩
  refine ⟨fun hpred hb => ?_, fun hno => ⟨fun e he hg => ?_, hconfirmed⟩⟩
  · obtain ⟨e, he, hq⟩ := hconfirmed.mp hb
    refine ⟨by simp, ⟨?_, hpred, ?_⟩, fun e' he' hg => ?_⟩
    · exact hs.above_of_ancEq (ancEq_of_mem_entriesOf_singleton hwf he) (hs.above_of_confirmed hq)
    · rcases mem_entriesOf_mk.mp he with rfl | he'
      · exact .inl hq
      · exact .inr ⟨e, he, hwf.anc_entry he', hq⟩
    · rcases mem_entriesOf_mk.mp he' with rfl | he'
      · exact .inl rfl
      · exact absurd (hg.of_mk hwf he') (hcs.none_good e' he')
  · rcases mem_entriesOf_mk.mp he with rfl | he
    · have hb : (b || b') = true := by
        rcases hg.confirmed with hq | ⟨e', he', -, hq⟩
        · exact hconfirmed.mpr ⟨_, he, hq⟩
        · exact hconfirmed.mpr ⟨e', he', hq⟩
      rw [hno hg.passes] at hb
      cases hb
    · exact hcs.none_good e he (hg.of_mk hwf he)

theorem Search.deepest_mk (hwf : (Node.mk h n v cs).Wf T)
    (hx : Deepest T query Above predicate cs x) :
    Deepest T query Above predicate [.mk h n v cs] x := by
  refine ⟨by simp [hx.mem], hx.good.mono fun e' he' _ _ => mem_entriesOf_mk.mpr (.inr he'),
    fun e he hg => ?_⟩
  rcases mem_entriesOf_mk.mp he with rfl | he
  · exact .inr (hwf.anc_entry (entry_mem_entriesOf hx.mem))
  · exact hx.deepest e he (hg.of_mk hwf he)

end Children

end Spec

/-! ## The search is right -/

section Find

variable {T : BlockTree H} {isDescendentOf : H → H → Except E Bool} {hash : H}
  {number : Nat} {Above : H → Prop} {predicate : V → Bool}

def FindsBelow (T : BlockTree H) (isDescendentOf : H → H → Except E Bool) (hash : H)
    (number : Nat) (Above : H → Prop) (predicate : V → Bool) (node : Node H Nat V) : Prop :=
  (∃ path x, node.findNodeIndexWhere hash number isDescendentOf predicate = .ok (.found path) ∧
    node.nodeAt path = some x ∧
    Deepest T (fun a => isDescendentOf a hash) Above predicate [node] x) ∨
  ∃ b, node.findNodeIndexWhere hash number isDescendentOf predicate = .ok (.failure b) ∧
    Nothing T (fun a => isDescendentOf a hash) Above predicate [node] b

section

variable (hs : Search T (fun a => isDescendentOf a hash) number Above)
include hs

theorem findChildren_spec (hwf : ForestWf T cs)
    (ih : ∀ c ∈ cs, FindsBelow T isDescendentOf hash number Above predicate c) (i : Nat) :
    (∃ k c path x, findChildren hash number isDescendentOf predicate i cs =
        .ok (.found ((i + k) :: path)) ∧ cs[k]? = some c ∧ c.nodeAt path = some x ∧
      Deepest T (fun a => isDescendentOf a hash) Above predicate cs x) ∨
    ∃ b, findChildren hash number isDescendentOf predicate i cs = .ok (.failure b) ∧
      Nothing T (fun a => isDescendentOf a hash) Above predicate cs b := by
  induction cs generalizing i with
  | nil =>
    refine .inr ⟨false, by rw [findChildren], ?_⟩
    exact ⟨by simp, by simp⟩
  | cons c cs ihl =>
    have htail := hwf.sublist (sublist_cons_self c cs)
    rw [findChildren]
    rcases ih c (mem_cons_self ..) with ⟨path, x, hfind, hat, hdeep⟩ | ⟨b, hfind, hno⟩
    · rw [hfind]
      exact .inl ⟨0, c, path, x, rfl, rfl, hat, hs.deepest_part (hs.part_singleton hwf) hdeep⟩
    rw [hfind]
    cases b with
    | true =>
      refine .inr ⟨true, rfl, ?_⟩
      exact hs.nothing_cons hwf hno (hs.nothing_rest hwf hno)
    | false =>
      rcases ihl htail (fun d hd => ih d (mem_cons_of_mem _ hd)) (i + 1) with
        ⟨k, d, path, x, hrest, hk, hat, hdeep⟩ | ⟨b, hrest, hno'⟩
      · refine .inl ⟨k + 1, d, path, x, ?_, hk, hat, hs.deepest_part (hs.part_rest hwf) hdeep⟩
        rw [hrest, Nat.add_assoc, Nat.add_comm 1 k]
      · exact .inr ⟨b, hrest, by simpa using hs.nothing_cons hwf hno hno'⟩

theorem findNodeIndexWhere_spec {node} (hwf : node.Wf T) :
    FindsBelow T isDescendentOf hash number Above predicate node := by
  induction node using induct with
  | mk h n v cs ih =>
    obtain ⟨hn, -, hcs⟩ := wf_mk.mp hwf
    unfold FindsBelow
    rw [Node.findNodeIndexWhere]
    by_cases hlt : number < n
    · -- the branch starts above the number searched for
      rw [if_pos hlt]
      have hnot : ∀ e ∈ entriesOf [Node.mk h n v cs], ¬Above e.1 := by
        intro e he habove
        have hAbove := hs.above_of_ancEq (ancEq_of_mem_entriesOf_singleton hwf he) habove
        have hle := hs.number_le hAbove
        rw [hash_mk] at hle
        omega
      refine .inr ⟨false, rfl, fun e he hg => hnot e he hg.above, ?_⟩
      simp only [Bool.false_eq_true, false_iff]
      rintro ⟨e, he, hq⟩
      exact hnot e he (hs.above_of_confirmed hq)
    · rw [if_neg hlt]
      rcases findChildren_spec hs hcs (fun c hc => ih c hc (hcs.wf c hc)) 0 with
        ⟨k, c, path, x, hfind, hk, hat, hdeep⟩ | ⟨b, hfind, hno⟩
      · rw [hfind]
        refine .inl ⟨_, x, rfl, ?_, Search.deepest_mk hwf hdeep⟩
        rw [Nat.zero_add, nodeAt, children_mk, hk]
        exact hat
      rw [hfind]
      obtain ⟨b', hb', -⟩ := hs.answers h
      obtain ⟨hyes, hnone⟩ := hs.nothing_mk hwf hno hb'
      have hquery : (if b then .ok true else isDescendentOf h hash) = .ok (b || b') := by
        cases b with
        | true => rfl
        | false => simpa using hb'
      dsimp only
      rw [hquery]
      dsimp only
      by_cases hpass : ((b || b') && predicate v) = true
      · rw [if_pos hpass]
        rw [Bool.and_eq_true] at hpass
        exact .inl ⟨[], _, rfl, rfl, hyes hpass.2 hpass.1⟩
      · rw [if_neg hpass]
        refine .inr ⟨_, rfl, hnone fun hpred => ?_⟩
        simpa [hpred] using hpass

theorem findRoots_spec (predicate : V → Bool) (hwf : ForestWf T roots) (i : Nat) :
    (∃ k c path x, findNodeIndexWhere.go hash number isDescendentOf predicate i roots =
        .ok (some ((i + k) :: path)) ∧
      findNodeWhere.go hash number isDescendentOf predicate roots = .ok (some x) ∧
      roots[k]? = some c ∧ c.nodeAt path = some x ∧
      Deepest T (fun a => isDescendentOf a hash) Above predicate roots x) ∨
    (findNodeIndexWhere.go hash number isDescendentOf predicate i roots = .ok none ∧
      findNodeWhere.go hash number isDescendentOf predicate roots = .ok none ∧
      ∃ b, Nothing T (fun a => isDescendentOf a hash) Above predicate roots b) := by
  induction roots generalizing i with
  | nil =>
    exact .inr ⟨by rw [findNodeIndexWhere.go], by rw [findNodeWhere.go], false, by simp, by simp⟩
  | cons c cs ih =>
    have htail := hwf.sublist (sublist_cons_self c cs)
    have hc : FindsBelow T isDescendentOf hash number Above predicate c :=
      findNodeIndexWhere_spec hs (hwf.wf c (mem_cons_self ..))
    rw [findNodeIndexWhere.go, findNodeWhere.go]
    rcases hc with ⟨path, x, hfind, hat, hdeep⟩ | ⟨b, hfind, hno⟩
    · rw [hfind]
      dsimp only
      rw [hat]
      exact .inl ⟨0, c, path, x, rfl, rfl, rfl, hat, hs.deepest_part (hs.part_singleton hwf) hdeep⟩
    rw [hfind]
    rcases ih htail (i + 1) with
      ⟨k, d, path, x, hrest, hwhere, hk, hat, hdeep⟩ | ⟨hrest, hwhere, b', hno'⟩
    · refine .inl ⟨k + 1, d, path, x, ?_, hwhere, hk, hat, hs.deepest_part (hs.part_rest hwf) hdeep⟩
      rw [hrest, Nat.add_assoc, Nat.add_comm 1 k]
    · exact .inr ⟨hrest, hwhere, _, hs.nothing_cons hwf hno hno'⟩

/-- The deepest good node and its index path, or nothing if there is none. -/
theorem find_spec (predicate : V → Bool) (hwf : ForestWf T t.roots) :
    (∃ k c path x, t.findNodeIndexWhere hash number isDescendentOf predicate =
        .ok (some (k :: path)) ∧
      t.findNodeWhere hash number isDescendentOf predicate = .ok (some x) ∧
      t.roots[k]? = some c ∧ c.nodeAt path = some x ∧
      Deepest T (fun a => isDescendentOf a hash) Above predicate t.roots x) ∨
    (t.findNodeIndexWhere hash number isDescendentOf predicate = .ok none ∧
      t.findNodeWhere hash number isDescendentOf predicate = .ok none ∧
      ∃ b, Nothing T (fun a => isDescendentOf a hash) Above predicate t.roots b) := by
  have hroots := findRoots_spec hs predicate hwf 0
  simp only [Nat.zero_add] at hroots
  exact hroots

end

theorem ForestWf.entry_ext {l} (hwf : ForestWf T l) {e} (he : e ∈ entriesOf l)
    (he' : e' ∈ entriesOf l) (h : e.1 = e'.1) : e = e' := by
  obtain ⟨x, hx, rfl⟩ := mem_entriesOf.mp he
  obtain ⟨x', hx', rfl⟩ := mem_entriesOf.mp he'
  rw [inj_on_of_nodup_map hwf.hashes_nodup hx hx' h]

/-- Dropping entries does not change what a search finds, as long as every entry above the block
that is dropped lies above a good one. -/
theorem findNodeWhere_congr (hs : Search T (fun a => isDescendentOf a hash) number Above)
    {t' : ForkTree H Nat V} (hwf : ForestWf T t.roots) (hwf' : ForestWf T t'.roots)
    (hsub : ∀ e ∈ t'.entries, e ∈ t.entries)
    (hkeep : ∀ e ∈ t.entries, Above e.1 → e ∈ t'.entries ∨ ∃ g ∈ t.entries,
      Good T (fun a => isDescendentOf a hash) Above predicate t.entries g ∧ T.anc e.1 g.1) :
    (t'.findNodeWhere hash number isDescendentOf predicate).map (Option.map entry) =
      (t.findNodeWhere hash number isDescendentOf predicate).map (Option.map entry) := by
  have hgood : ∀ e, Good T (fun a => isDescendentOf a hash) Above predicate t'.entries e →
      Good T (fun a => isDescendentOf a hash) Above predicate t.entries e :=
    fun e hg => hg.mono fun e' he' _ _ => hsub e' he'
  rcases find_spec hs predicate hwf with ⟨-, -, -, x, -, hfind, -, -, hdeep⟩ | ⟨-, hfind, b, hno⟩
  · -- neither the node found nor a confirmed entry below it is dropped
    have hstays : ∀ e ∈ t.entries, Above e.1 → T.ancEq x.hash e.1 → e ∈ t'.entries := by
      intro e he habove hxe
      refine (hkeep e he habove).resolve_right fun ⟨g, hg, hgg, heg⟩ => ?_
      exact anc_irrefl _ ((hxe.trans_anc heg).trans_ancEq (hdeep.deepest g hg hgg))
    have hx := entry_mem_entriesOf hdeep.mem
    have hx' : x.entry ∈ t'.entries := hstays _ hx hdeep.good.above (.inl rfl)
    have hxgood : Good T (fun a => isDescendentOf a hash) Above predicate t'.entries x.entry :=
      hdeep.good.mono fun e' he' hanc hq =>
        hstays e' he' (hs.above_of_confirmed hq) (.inr hanc)
    rcases find_spec hs predicate hwf' with
      ⟨-, -, -, y, -, hfind', -, -, hdeep'⟩ | ⟨-, hfind', b, hno⟩
    · have hy := entry_mem_entriesOf hdeep'.mem
      have hyx := hdeep.deepest _ (hsub _ hy) (hgood _ hdeep'.good)
      have hxy := hdeep'.deepest _ hx' hxgood
      have hhash : y.hash = x.hash := by
        rcases hyx with heq | hanc
        · exact heq
        · exact absurd (hxy.trans_anc hanc) (anc_irrefl _)
      have hentry : y.entry = x.entry := hwf.entry_ext (hsub _ hy) hx hhash
      rw [hfind, hfind']
      simp [Outcome.map, hentry]
    · exact absurd hxgood (hno.none_good _ hx')
  · rcases find_spec hs predicate hwf' with
      ⟨-, -, -, y, -, hfind', -, -, hdeep'⟩ | ⟨-, hfind', b, hno'⟩
    · have hy := entry_mem_entriesOf hdeep'.mem
      exact absurd (hgood _ hdeep'.good) (hno.none_good _ (hsub _ hy))
    · rw [hfind, hfind']

end Find

/-! ## Prune -/

section Prune

theorem takeAt_nodeAt {path} {k : Nat} (hk : roots[k]? = some c) (hat : c.nodeAt path = some x) :
    ∃ rest, takeAt (k :: path) roots = some (x, rest) ∧
      (entriesOf roots).Perm (entriesOf [x] ++ entriesOf rest) := by
  induction path generalizing roots k c with
  | nil =>
    obtain ⟨hlt, rfl⟩ := List.getElem?_eq_some_iff.mp hk
    cases hat
    refine ⟨roots.eraseIdx k, by simp [takeAt], ?_⟩
    rw [← entriesOf_append]
    exact entriesOf_perm (getElem_cons_eraseIdx_perm hlt).symm
  | cons j path ih =>
    obtain ⟨h, n, v, cs⟩ := c
    obtain ⟨d, hd, hat⟩ := Option.bind_eq_some_iff.mp hat
    obtain ⟨rest, htake, hperm⟩ := ih hd hat
    refine ⟨roots.set k (.mk h n v rest), ?_, ?_⟩
    · rw [takeAt, hk]
      simp only [children_mk] at htake
      simp [htake]
    · obtain ⟨hlt, hget⟩ := List.getElem?_eq_some_iff.mp hk
      have hold := entriesOf_perm (getElem_cons_eraseIdx_perm hlt).symm
      have hnew := entriesOf_perm (set_perm_cons_eraseIdx hlt (.mk h n v rest))
      rw [hget, entriesOf_cons] at hold
      rw [entriesOf_cons] at hnew
      calc (entriesOf roots).Perm _ := hold
        _ |>.Perm ((h, n, v) :: ((entriesOf [x] ++ entriesOf rest) ++
            entriesOf (roots.eraseIdx k))) := (hperm.append_right _).cons _
        _ |>.Perm (entriesOf [x] ++ (h, n, v) :: (entriesOf rest ++
            entriesOf (roots.eraseIdx k))) := by
              rw [append_assoc]
              exact perm_middle.symm
        _ |>.Perm _ := hnew.symm.append_left _

variable {T : BlockTree H} {isDescendentOf : H → H → Except E Bool}

theorem search_anc (hd : Decides T isDescendentOf) (hash : H) :
    Search T (fun a => isDescendentOf a hash) (T.number hash) (fun a => T.anc a hash) where
  closed hxy hy := anc_trans hxy hy
  branch hx hy hun := hun.not_ancEq (.inr hx) (.inr hy)
  number_le hx := (anc_number_lt hx).le
  answers x := by
    obtain ⟨b, hb, hiff⟩ := hd x hash
    exact ⟨b, hb, hiff.mp⟩

variable [DecidableEq H]

section

variable (hd : Decides T isDescendentOf)
include hd

theorem pruneChildren_spec (hash : H) {children : List (Node H Nat V)} (hwf : ForestWf T children) :
    ∃ kept removed,
      pruneChildren hash (T.number hash) isDescendentOf true children = .ok (kept, removed) ∧
      (entriesOf children).Perm (entriesOf kept ++ entriesOf removed) ∧ kept.length ≤ 1 ∧
      ∀ c, c ∈ kept ↔ c ∈ children ∧ T.ancEq c.hash hash := by
  have hkeeps : ∀ child ∈ children, ∃ b,
      keepsChild hash (T.number hash) isDescendentOf child = .ok b ∧
        (b = true ↔ T.ancEq child.hash hash) := by
    intro child hmem
    unfold keepsChild
    rw [(hwf.wf child hmem).number_eq]
    by_cases heq : child.hash = hash
    · exact ⟨true, by simp [heq], by simp [ancEq, heq]⟩
    rw [if_neg fun h => heq h.2]
    obtain ⟨b, hb, hiff⟩ := hd child.hash hash
    by_cases hlt : T.number child.hash < T.number hash
    · exact ⟨b, by rw [if_pos hlt, hb], by simp [ancEq, heq, hiff]⟩
    · refine ⟨false, by rw [if_neg hlt], ?_⟩
      simp only [Bool.false_eq_true, false_iff]
      exact fun h => h.elim heq fun hanc => hlt (anc_number_lt hanc)
  rcases pruneChildren_cases isDescendentOf hash (T.number hash) children with
    ⟨pre, child, post, rfl, -, hchild⟩ | ⟨hall, hprune⟩
  · obtain ⟨b, hb, hiff⟩ := hkeeps child (by simp)
    rcases hchild with ⟨e, hchild, -⟩ | ⟨hchild, hprune⟩
    all_goals cases hchild.symm.trans hb
    have habove := hiff.mp rfl
    refine ⟨[child], pre ++ post, hprune, ?_, by simp, fun c => ?_⟩
    · rw [← entriesOf_append]
      exact entriesOf_perm perm_middle
    · rw [mem_singleton]
      constructor
      · rintro rfl
        exact ⟨by simp, habove⟩
      · rintro ⟨hc, hanc⟩
        exact hwf.root_unique hc (by simp) hanc habove
  · refine ⟨[], children, hprune, by simp, by simp, fun c => iff_of_false (by simp) ?_⟩
    rintro ⟨hc, hanc⟩
    obtain ⟨b, hb, hiff⟩ := hkeeps c hc
    cases (hall c hc).symm.trans hb
    cases hiff.mpr hanc

theorem prune_cases (hwf : ForestWf T t.roots) (hash : H) (predicate : V → Bool) :
    (t.prune hash (T.number hash) isDescendentOf predicate = (.ok [], t.rebalance) ∧
      ∀ e ∈ t.entries, T.anc e.1 hash → predicate e.2.2 = false) ∨
    ∃ x kept removed, t.prune hash (T.number hash) isDescendentOf predicate =
        (.ok removed, ({ t with roots := [.mk x.hash x.number x.data kept] } : ForkTree _ _ _).rebalance) ∧
      Deepest T (fun a => isDescendentOf a hash) (fun a => T.anc a hash) predicate t.roots x ∧
      (∀ c, c ∈ kept ↔ c ∈ x.children ∧ T.ancEq c.hash hash) ∧ kept.length ≤ 1 ∧
      t.entries.Perm (x.entry :: entriesOf kept ++ entriesOf removed) := by
  have hs := search_anc hd hash
  unfold prune
  rcases find_spec hs predicate hwf with
    ⟨k, c, path, x, hfind, -, hk, hat, hdeep⟩ | ⟨hfind, -, b, hno⟩
  · rw [hfind]
    obtain ⟨rest, htake, hperm⟩ := takeAt_nodeAt hk hat
    have hx := (hwf.mem_nodes hdeep.mem).1
    obtain ⟨kept, removed, hprune, hcs, hlen, hmem⟩ := pruneChildren_spec hd hash hx.children
    refine .inr ⟨x, kept, rest ++ removed, ?_, hdeep, hmem, hlen, ?_⟩
    · obtain ⟨h, n, v, children⟩ := x
      dsimp only
      rw [htake]
      simp only [children_mk] at hprune
      dsimp only
      rw [hprune]
      rfl
    · rw [entriesOf_cons, entriesOf_nil, append_nil] at hperm
      refine (hperm.trans ((hcs.cons x.entry).append_right (entriesOf rest))).trans ?_
      rw [entriesOf_append, cons_append, append_assoc]
      exact (perm_append_comm.append_left _).cons _
  · rw [hfind]
    refine .inl ⟨rfl, fun e he hanc => ?_⟩
    by_contra hpred
    refine hno.none_good e he ⟨hanc, by simpa using hpred, .inl ?_⟩
    exact hd.of_anc hanc

/-- Without an ancestor that passes the predicate, nothing. Otherwise the deepest one becomes the
root, with the branch below it that leads to the block, and everything else is returned. -/
theorem prune_spec (hwf : ForestWf T t.roots) (hash : H) (predicate : V → Bool) :
    (t.prune hash (T.number hash) isDescendentOf predicate = (.ok [], t.rebalance) ∧
      ∀ e ∈ t.entries, T.anc e.1 hash → predicate e.2.2 = false) ∨
    ∃ x removed t', t.prune hash (T.number hash) isDescendentOf predicate = (.ok removed, t') ∧
      x ∈ t.nodes ∧ T.anc x.hash hash ∧ predicate x.data = true ∧
      t.entries.Perm (t'.entries ++ entriesOf removed) ∧
      ∀ c ∈ x.children, T.ancEq c.hash hash → ∀ e ∈ entriesOf [c], e ∈ t'.entries := by
  rcases prune_cases hd hwf hash predicate with
    hnone | ⟨x, kept, removed, hprune, hdeep, hmem, -, hperm⟩
  · exact .inl hnone
  have hentries : ∀ e, e ∈ entriesOf kept → e ∈ ({ t with
      roots := [.mk x.hash x.number x.data kept] } : ForkTree H Nat V).entries := by
    intro e he
    rw [entries, entriesOf_cons]
    exact mem_cons_of_mem _ (mem_append_left _ he)
  refine .inr ⟨x, removed, _, hprune, hdeep.mem, hdeep.good.above, hdeep.good.passes, ?_,
    fun d hd' hanc e he => (entries_rebalance _).mem_iff.mpr (hentries e ?_)⟩
  · refine hperm.trans (List.Perm.append_right _ (List.Perm.trans ?_ (entries_rebalance _).symm))
    rw [entries, entriesOf_cons, entriesOf_nil, append_nil]
    rfl
  · have hkept := (hmem d).mpr ⟨hd', hanc⟩
    exact (entriesOf_sublist (singleton_sublist.mpr hkept)).subset he

end

end Prune

end Substrate.ForkTree
