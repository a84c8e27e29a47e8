import Substrate.ForkTreeWf

/-!
# What a failing client query leaves behind

`is_descendent_of` asks the database and can fail on any pair of hashes. `import` queries first and
edits last. The four other operations query again after they have moved `self.roots` out with
`mem::take`, or edited it in place, and a failure at that point loses nodes of the tree.

An operation is atomic if and only if the client answers the queries made in its second phase
(`QueriesAnswered`). Each direction rests on counting: a tree that lost a root has fewer nodes.
-/

namespace Substrate.ForkTree

open List Node ForkTree Outcome Vec

variable {H N V E : Type} [LinearOrder N]
  {isDescendentOf : H → H → Except E Bool} {hash : H} {number : N} {data : V}
  {l roots : List (Node H N V)} {root : Node H N V} {s s' : List (Node H N V) × Nat × Bool}

/-! ## Import edits nothing before its last query -/

section

variable (isDescendentOf hash number data)

/-- The node hands the block back: it is not a duplicate and not above the block. -/
inductive Passed : Node H N V → Prop where
  | early {h : H} {n : N} {v : V} {cs} (hne : h ≠ hash) (hle : number ≤ n) : Passed (.mk h n v cs)
  | asked {h : H} {n : N} {v : V} {cs} (hne : h ≠ hash) (hcs : ∀ c ∈ cs, Passed c)
      (hquery : isDescendentOf h hash = .ok false) : Passed (.mk h n v cs)

/-- The block is attached below a node that the client confirms, after the children handed it back.
-/
inductive Attaches : Node H N V → Node H N V → Prop where
  | here {h : H} {n : N} {v : V} {cs} (hne : h ≠ hash)
      (hcs : ∀ c ∈ cs, Passed isDescendentOf hash number c)
      (hquery : isDescendentOf h hash = .ok true) :
      Attaches (.mk h n v cs) (.mk h n v (cs ++ [.mk hash number data []]))
  | inChild {h : H} {n : N} {v : V} {before after c c'} (hc : Attaches c c') :
      Attaches (.mk h n v (before ++ c :: after)) (.mk h n v (before ++ c' :: after))

def AttachesIn (l l' : List (Node H N V)) : Prop :=
  ∃ before c c' after, l = before ++ c :: after ∧ l' = before ++ c' :: after ∧
    Attaches isDescendentOf hash number data c c'

def Refused (l : List (Node H N V)) (e : Error E) : Prop :=
  (e = .duplicate ∧ ∃ x ∈ nodesList l, x.hash = hash) ∨
    ∃ a e', a ≠ hash ∧ e = .client e' ∧ isDescendentOf a hash = .error e'

variable (l) in
inductive Imports : Except (Error E) (Option (H × N × V)) × List (Node H N V) → Prop where
  | refused {e} (h : Refused isDescendentOf hash l e) : Imports (.error e, l)
  | passed (h : ∀ c ∈ l, Passed isDescendentOf hash number c) :
      Imports (.ok (some (hash, number, data)), l)
  | attached {l'} (h : AttachesIn isDescendentOf hash number data l l') : Imports (.ok none, l')

end

variable {l' : List (Node H N V)} {node : Node H N V} {t : ForkTree H N V} {predicate : V → Bool}

omit [LinearOrder N] in
theorem Refused.mono {e : Error E} (h : Refused isDescendentOf hash l e)
    (hsub : ∀ x ∈ nodesList l, x ∈ nodesList l') : Refused isDescendentOf hash l' e :=
  h.imp_left fun ⟨he, x, hx, heq⟩ => ⟨he, x, hsub x hx, heq⟩

variable [DecidableEq H]

theorem importChildren_imports {cs} (ih : ∀ c ∈ cs, Imports isDescendentOf hash number data [c]
      ((c.importNode isDescendentOf hash number data).1,
        [(c.importNode isDescendentOf hash number data).2])) :
    Imports isDescendentOf hash number data cs
      (importChildren isDescendentOf hash number data cs) := by
  induction cs with
  | nil =>
    rw [importChildren]
    exact .passed (by simp)
  | cons c cs ihl =>
    have hc := ih c mem_cons_self
    have htail := ihl fun d hd => ih d (mem_cons_of_mem _ hd)
    rw [importChildren]
    generalize c.importNode isDescendentOf hash number data = r at hc ⊢
    obtain ⟨r, c'⟩ := r
    cases hc with
    | refused h => exact .refused (h.mono fun x hx => by simp_all)
    | attached h =>
      obtain ⟨before, d, d', after, hd, hd', hattach⟩ := h
      refine .attached ⟨before, d, d', after ++ cs, ?_, ?_, hattach⟩
      · rw [← cons_append, ← append_assoc, ← hd, singleton_append]
      · rw [← cons_append, ← append_assoc, ← hd', singleton_append]
    | passed h =>
      dsimp only
      generalize importChildren isDescendentOf hash number data cs = r at htail ⊢
      cases htail with
      | refused h' => exact .refused (h'.mono fun x hx => by simp [hx])
      | passed h' => exact .passed (forall_mem_cons.mpr ⟨h c' mem_cons_self, h'⟩)
      | attached h' =>
        obtain ⟨before, d, d', after, rfl, rfl, hattach⟩ := h'
        exact .attached ⟨c' :: before, d, d', after, rfl, rfl, hattach⟩

theorem importNode_imports (node : Node H N V) : Imports isDescendentOf hash number data [node]
      ((node.importNode isDescendentOf hash number data).1,
        [(node.importNode isDescendentOf hash number data).2]) := by
  induction node using induct with
  | mk h n v cs ih =>
    have hcs := importChildren_imports ih
    rw [importNode]
    by_cases heq : h = hash
    · rw [if_pos heq]
      exact .refused (.inl ⟨rfl, .mk h n v cs, by simp, heq⟩)
    rw [if_neg heq]
    by_cases hle : number ≤ n
    · rw [if_pos hle]
      exact .passed (forall_mem_singleton.mpr (.early heq hle))
    rw [if_neg hle]
    generalize importChildren isDescendentOf hash number data cs = r at hcs ⊢
    cases hcs with
    | refused h' => exact .refused (h'.mono fun x hx => by simp [hx])
    | attached h' =>
      obtain ⟨before, c, c', after, rfl, rfl, hattach⟩ := h'
      exact .attached ⟨[], _, _, [], rfl, rfl, .inChild hattach⟩
    | passed hcs =>
      dsimp only
      rcases hq : isDescendentOf h hash with e | _ | _
      · exact .refused (.inr ⟨h, e, heq, rfl, hq⟩)
      · exact .passed (forall_mem_singleton.mpr (.asked heq hcs hq))
      · exact .attached ⟨[], _, _, [], rfl, rfl, .here heq hcs hq⟩

/-- The test for a duplicate root is the first thing `Node::import` does as well. -/
theorem importRoots_eq_importChildren (roots : List (Node H N V)) :
    importRoots isDescendentOf hash number data roots =
      importChildren isDescendentOf hash number data roots := by
  induction roots generalizing hash number data with
  | nil => rw [importRoots, importChildren]
  | cons root rest ih =>
    rw [importRoots, importChildren]
    by_cases hr : root.hash = hash
    · obtain ⟨h, n, v, cs⟩ := root
      rw [hash_mk] at hr
      rw [if_pos (by simpa using hr), importNode, if_pos hr]
    rw [if_neg hr]
    rcases root.importNode isDescendentOf hash number data with ⟨_ | (_ | ⟨h, n, d⟩), root'⟩
    · rfl
    · rfl
    · simp only
      rw [ih]

theorem importBlock_cases (t : ForkTree H N V) (hash : H) (number : N) (data : V)
    (isDescendentOf : H → H → Except E Bool) :
    (t.isReverted number = true ∧
      t.importBlock hash number data isDescendentOf = (.err .revert, t)) ∨
    t.isReverted number = false ∧ ((∃ e, Refused isDescendentOf hash t.roots e ∧
        t.importBlock hash number data isDescendentOf = (.err e, t)) ∨
      ((∀ c ∈ t.roots, Passed isDescendentOf hash number c) ∧
        t.importBlock hash number data isDescendentOf =
          (.ok true, rebalance { t with roots := t.roots ++ [.mk hash number data []] })) ∨
      ∃ roots, AttachesIn isDescendentOf hash number data t.roots roots ∧
        t.importBlock hash number data isDescendentOf =
          (.ok false, rebalance { t with roots := roots })) := by
  have himports : Imports isDescendentOf hash number data t.roots
      (importRoots isDescendentOf hash number data t.roots) := by
    rw [importRoots_eq_importChildren]
    exact importChildren_imports fun c _ => importNode_imports c
  unfold importBlock
  cases t.isReverted number with
  | true => exact .inl ⟨rfl, rfl⟩
  | false =>
    refine .inr ⟨rfl, ?_⟩
    rw [if_neg Bool.false_ne_true]
    generalize importRoots isDescendentOf hash number data t.roots = r at himports ⊢
    cases himports with
    | refused h => exact .inl ⟨_, h, rfl⟩
    | passed h => exact .inr (.inl ⟨h, rfl⟩)
    | attached h => exact .inr (.inr ⟨_, h, rfl⟩)

/-! ## Calls that can fail -/

inductive FallibleOp (H N V : Type) where
  | importBlock (hash : H) (number : N) (data : V)
  | prune (hash : H) (number : N) (predicate : V → Bool)
  | finalize (hash : H) (number : N)
  | finalizeWithAncestors (hash : H) (number : N)
  | finalizeWithDescendentIf (hash : H) (number : N) (predicate : V → Bool)

/-- The operation's error, if it returns one, leaves the tree as it was. -/
def AtomicOnError (t : ForkTree H N V) (isDescendentOf : H → H → Except E Bool) :
    FallibleOp H N V → Prop
  | .importBlock hash number data =>
    (t.importBlock hash number data isDescendentOf).1.IsErr →
      (t.importBlock hash number data isDescendentOf).2 = t
  | .prune hash number predicate =>
    (t.prune hash number isDescendentOf predicate).1.IsErr →
      (t.prune hash number isDescendentOf predicate).2 = t
  | .finalize hash number =>
    (t.finalize hash number isDescendentOf).1.IsErr → (t.finalize hash number isDescendentOf).2 = t
  | .finalizeWithAncestors hash number =>
    (t.finalizeWithAncestors hash number isDescendentOf).1.IsErr →
      (t.finalizeWithAncestors hash number isDescendentOf).2 = t
  | .finalizeWithDescendentIf hash number predicate =>
    (t.finalizeWithDescendentIf hash number isDescendentOf predicate).1.IsErr →
      (t.finalizeWithDescendentIf hash number isDescendentOf predicate).2 = t

/-! ## The queries of the second phases -/

section

variable (hash : H) (number : N) (isDescendentOf : H → H → Except E Bool)

def keepsChild (child : Node H N V) : Except E Bool :=
  if child.number = number ∧ child.hash = hash then .ok true
  else if child.number < number then isDescendentOf child.hash hash
  else .ok false

/-- The client answers for the children of the new root, in order, at least until it names one that
is kept. -/
def AnswersUntilKept (children : List (Node H N V)) : Prop :=
  ∀ pre child post, children = pre ++ child :: post →
    (∀ c ∈ pre, keepsChild hash number isDescendentOf c = .ok false) →
    ∃ b, keepsChild hash number isDescendentOf child = .ok b

/-- The root at `idx` is left, opened into its children, or dropped. The flag records whether a root
has been opened or dropped so far. -/
inductive WorklistStep : List (Node H N V) × Nat × Bool → List (Node H N V) × Nat × Bool → Prop
  | leave {roots idx changed root isAncestor} (hroot : roots[idx]? = some root)
      (h : rootPosition hash number isDescendentOf root = .ok (false, true, isAncestor)) :
      WorklistStep (roots, idx, changed) (roots, idx + 1, changed)
  | opened {roots idx changed root} (hroot : roots[idx]? = some root)
      (h : rootPosition hash number isDescendentOf root = .ok (false, false, true)) :
      WorklistStep (roots, idx, changed) (swapRemove roots idx ++ root.children, idx, true)
  | dropped {roots idx changed root} (hroot : roots[idx]? = some root)
      (h : rootPosition hash number isDescendentOf root = .ok (false, false, false)) :
      WorklistStep (roots, idx, changed) (swapRemove roots idx, idx, true)

end

/-- The client answers the queries an operation makes after it has started to
edit the tree. -/
def QueriesAnswered (t : ForkTree H N V) (isDescendentOf : H → H → Except E Bool) :
    FallibleOp H N V → Prop
  | .importBlock .. => True
  | .prune hash number predicate =>
    -- the children of the new root
    ∀ path root rest, t.findNodeIndexWhere hash number isDescendentOf predicate =
        .ok (some path) → takeAt path t.roots = some (root, rest) →
      AnswersUntilKept hash number isDescendentOf root.children
  | .finalize hash number =>
    -- the roots above the block, once it is known to be new and below no root
    t.isReverted number = false → (∀ root ∈ t.roots, root.hash ≠ hash) →
      (∀ root ∈ t.roots, root.number < number → isDescendentOf root.hash hash = .ok false) →
      ∀ root ∈ t.roots, number < root.number → ∃ b, isDescendentOf hash root.hash = .ok b
  | .finalizeWithAncestors hash number =>
    -- the roots met after the first one that was opened or dropped
    t.isReverted number = false → (∀ root ∈ t.roots, root.hash ≠ hash) →
      ∀ roots idx root, Relation.ReflTransGen (WorklistStep hash number isDescendentOf)
          (t.roots, 0, false) (roots, idx, true) → roots[idx]? = some root →
        ∃ p, rootPosition hash number isDescendentOf root = .ok p
  | .finalizeWithDescendentIf hash number predicate =>
    -- the roots left once the finalized one, if any, has been opened
    t.isReverted number = false →
      ∀ position, finalizedRoot hash number isDescendentOf predicate t.roots = .ok position →
      ∀ root ∈ (t.finalizePosition position).2.roots,
        ∃ b, retainDescendent hash number isDescendentOf root = .ok b

/-! ## Counting nodes -/

section Count

omit [DecidableEq H] [LinearOrder N]

def size (l : List (Node H N V)) : Nat := (nodesList l).length

@[simp] theorem size_nil : size ([] : List (Node H N V)) = 0 := by simp [size]

@[simp] theorem size_cons (c : Node H N V) (cs : List (Node H N V)) :
    size (c :: cs) = size c.children + 1 + size cs := by
  obtain ⟨h, n, v, cs'⟩ := c
  simp [size]
  omega

@[simp] theorem size_append (l l' : List (Node H N V)) : size (l ++ l') = size l + size l' := by
  induction l with
  | nil => simp
  | cons c cs ih => simp; omega

theorem size_perm (h : l.Perm l') : size l = size l' := by
  induction h with
  | nil => rfl
  | cons c _ ih => simp [ih]
  | swap c d l => simp; omega
  | trans _ _ ih ih' => exact ih.trans ih'

theorem size_swapRemove {idx : Nat} (h : roots[idx]? = some root) :
    size (swapRemove roots idx) + size root.children + 1 = size roots := by
  have hperm := size_perm (cons_swapRemove_perm h)
  simp only [size_cons] at hperm
  omega

theorem size_children_lt (h : node ∈ l) : size node.children < size l := by
  induction l with
  | nil => cases h
  | cons c cs ih =>
    rcases mem_cons.mp h with rfl | h
    · simp only [size_cons]; omega
    · have := ih h
      simp only [size_cons]; omega

end Count

/-! ## Prune -/

theorem pruneChildren_false (children : List (Node H N V)) :
    pruneChildren hash number isDescendentOf false children = .ok ([], children) := by
  induction children with
  | nil => rw [pruneChildren]
  | cons child rest ih => simp [pruneChildren, ih]

variable (hash number isDescendentOf) in
theorem pruneChildren_cases (children : List (Node H N V)) :
    (∃ pre child post, children = pre ++ child :: post ∧
      (∀ c ∈ pre, keepsChild hash number isDescendentOf c = .ok false) ∧
      ((∃ e, keepsChild hash number isDescendentOf child = .error e ∧
          pruneChildren hash number isDescendentOf true children = .error e) ∨
        keepsChild hash number isDescendentOf child = .ok true ∧
          pruneChildren hash number isDescendentOf true children = .ok ([child], pre ++ post))) ∨
    (∀ c ∈ children, keepsChild hash number isDescendentOf c = .ok false) ∧
      pruneChildren hash number isDescendentOf true children = .ok ([], children) := by
  induction children with
  | nil => exact .inr ⟨by simp, by rw [pruneChildren]⟩
  | cons child rest ih =>
    rw [pruneChildren, if_pos rfl, ← keepsChild]
    rcases hk : keepsChild hash number isDescendentOf child with e | _ | _
    · exact .inl ⟨[], child, rest, rfl, by simp, .inl ⟨e, hk, rfl⟩⟩
    · dsimp only
      rcases ih with ⟨pre, c, post, rfl, hpre, ⟨e, hc, hrest⟩ | ⟨hc, hrest⟩⟩ | ⟨hall, hrest⟩
      · exact .inl ⟨child :: pre, c, post, rfl, forall_mem_cons.mpr ⟨hk, hpre⟩,
          .inl ⟨e, hc, by rw [hrest]⟩⟩
      · exact .inl ⟨child :: pre, c, post, rfl, forall_mem_cons.mpr ⟨hk, hpre⟩,
          .inr ⟨hc, by rw [hrest]; rfl⟩⟩
      · exact .inr ⟨forall_mem_cons.mpr ⟨hk, hall⟩, by rw [hrest]⟩
    · exact .inl ⟨[], child, rest, rfl, by simp, .inr ⟨hk, by rw [pruneChildren_false]; rfl⟩⟩

theorem pruneChildren_error_iff {children : List (Node H N V)} :
    (∃ e, pruneChildren hash number isDescendentOf true children = .error e) ↔
      ¬AnswersUntilKept hash number isDescendentOf children := by
  rcases pruneChildren_cases isDescendentOf hash number children with
    ⟨pre, child, post, rfl, hpre, ⟨e, hchild, hprune⟩ | ⟨hchild, hprune⟩⟩ | ⟨hall, hprune⟩
  · refine iff_of_true ⟨e, hprune⟩ fun h => ?_
    obtain ⟨b, hb⟩ := h pre child post rfl hpre
    cases hchild.symm.trans hb
  · refine iff_of_false (by simp [hprune]) (not_not_intro fun pre' c post' heq hpre' => ?_)
    rcases append_eq_append_iff.mp heq with ⟨_ | ⟨_, _⟩, rfl, htail⟩ | ⟨_ | ⟨_, _⟩, rfl, htail⟩
    all_goals cases htail
    · exact ⟨true, hchild⟩
    · cases (hpre' child (by simp)).symm.trans hchild
    · exact ⟨true, hchild⟩
    · exact ⟨false, hpre c (by simp)⟩
  · refine iff_of_false (by simp [hprune]) (not_not_intro fun pre' c post' heq _ => ?_)
    exact ⟨false, hall c (by simp [heq])⟩

omit [DecidableEq H] [LinearOrder N] in
theorem takeAt_ne_nil {path rest} (h : takeAt path roots = some (root, rest)) : roots ≠ [] := by
  rintro rfl
  rcases path with _ | ⟨i, _ | ⟨j, path⟩⟩ <;> simp [takeAt] at h

theorem prune_atomic_iff (t : ForkTree H N V) (predicate : V → Bool) :
    AtomicOnError t isDescendentOf (.prune hash number predicate) ↔
      QueriesAnswered t isDescendentOf (.prune hash number predicate) := by
  simp only [AtomicOnError, QueriesAnswered, prune]
  rcases hfind : t.findNodeIndexWhere hash number isDescendentOf predicate with e | _ | path
  · simp
  · simp
  · rcases htake : takeAt path t.roots with _ | ⟨⟨h, n, v, children⟩, rest⟩
    · simp only [htake, not_isErr_panic, false_implies, true_iff]
      rintro _ root rest ⟨⟩ htake'
      rw [htake] at htake'
      cases htake'
    · have hiff : (∃ e, pruneChildren hash number isDescendentOf true children = .error e) ↔
          ¬AnswersUntilKept hash number isDescendentOf children := pruneChildren_error_iff
      rcases hprune : pruneChildren hash number isDescendentOf true children with e | ⟨kept, rem⟩
      · simp only [htake, hprune, isErr_err, true_implies]
        refine iff_of_false (fun hatomic => ?_) fun hq => ?_
        · -- the roots have been taken and never put back
          exact takeAt_ne_nil htake (congrArg roots hatomic).symm
        · exact hiff.mp ⟨e, hprune⟩ (hq path _ rest rfl htake)
      simp only [htake, hprune, not_isErr_ok, false_implies, true_iff]
      rintro _ root rest' ⟨⟩ htake'
      rw [htake] at htake'
      cases htake'
      by_contra hnot
      obtain ⟨e, he⟩ := hiff.mpr hnot
      rw [hprune] at he
      cases he

/-! ## The loops that rebuild the roots -/

section Retain

variable {retain : Node H N V → Except E Bool}

omit [DecidableEq H] [LinearOrder N]

variable (retain) in
theorem retainRoots_spec (l : List (Node H N V)) :
    ((∀ root ∈ l, ∃ b, retain root = .ok b) ∧ ∃ b, (retainRoots retain l).1 = .ok b) ∨
    (∃ root ∈ l, ∃ e, retain root = .error e) ∧ (∃ e, (retainRoots retain l).1 = .error e) ∧
      size (retainRoots retain l).2 < size l := by
  induction l with
  | nil => exact .inl ⟨by simp, false, rfl⟩
  | cons root rest ih =>
    rw [retainRoots, size_cons]
    rcases hr : retain root with e | b
    · exact .inr ⟨⟨root, mem_cons_self .., e, hr⟩, ⟨e, rfl⟩, by rw [size_nil]; omega⟩
    rcases ih with ⟨hall, b', hrest⟩ | ⟨⟨root', hmem, herr⟩, ⟨e, hrest⟩, hsize⟩
    · refine .inl ⟨forall_mem_cons.mpr ⟨⟨b, hr⟩, hall⟩, ?_⟩
      cases b <;> simp [hrest, Except.map]
    · refine .inr ⟨⟨root', mem_cons_of_mem _ hmem, herr⟩, ?_⟩
      cases b <;> simp [hrest, Except.map] <;> omega

/-- A call that ends with such a loop is atomic if and only if every query of the loop is answered.
-/
theorem retainRoots_atomic_iff (retain : Node H N V → Except E Bool) {u : ForkTree H N V}
    (hsize : size u.roots ≤ size t.roots)
    {res : Outcome (Error E) (FinalizationResult V) × ForkTree H N V}
    (herr : ∀ e roots, retainRoots retain u.roots = (.error e, roots) →
      res = (.err (.client e), { u with roots := roots }))
    (hok : ∀ b roots, retainRoots retain u.roots = (.ok b, roots) → ¬res.1.IsErr) :
    (res.1.IsErr → res.2 = t) ↔ ∀ root ∈ u.roots, ∃ b, retain root = .ok b := by
  have hspec := retainRoots_spec retain u.roots
  rcases hret : retainRoots retain u.roots with ⟨r, roots⟩
  rw [hret] at hspec
  rcases hspec with ⟨hall, b, rfl⟩ | ⟨⟨root, hmem, e', he'⟩, ⟨e, rfl⟩, hlt⟩
  · exact iff_of_true (fun h => absurd h (hok b roots hret)) hall
  · rw [herr e roots hret]
    refine iff_of_false (fun hatomic => ?_) fun hans => ?_
    · have hroots := congrArg ForkTree.roots (hatomic (isErr_err _))
      dsimp only at hroots hlt
      rw [hroots] at hlt
      omega
    · obtain ⟨b, hb⟩ := hans root hmem
      cases he'.symm.trans hb

end Retain

/-! ## Finalize -/

omit [LinearOrder N] in
theorem finalizeRoot_eq (t : ForkTree H N V) (hash : H) : (∃ node ∈ t.roots, node.hash = hash ∧
      t.finalizeRoot hash = (some node.data, ⟨node.children, some node.number⟩)) ∨
    t.finalizeRoot hash = (none, t) ∧ ∀ root ∈ t.roots, root.hash ≠ hash := by
  rcases hfind : t.roots.find? (fun node => decide (node.hash = hash)) with _ | node
  · exact .inr ⟨by simp only [finalizeRoot, hfind], by simpa using hfind⟩
  · refine .inl ⟨node, mem_of_find?_eq_some hfind, ?_, ?_⟩
    · simpa using List.find?_some hfind
    · simp [finalizeRoot, hfind, finalizeRootAt]

omit [DecidableEq H] in
theorem descendsFromRoot_false_iff : descendsFromRoot hash number isDescendentOf l = .ok false ↔
      ∀ root ∈ l, root.number < number → isDescendentOf root.hash hash = .ok false := by
  induction l with
  | nil => simp [descendsFromRoot]
  | cons root rest ih =>
    rw [descendsFromRoot, forall_mem_cons, ← ih]
    by_cases hlt : root.number < number
    · rw [if_pos hlt]
      rcases isDescendentOf root.hash hash with e | _ | _ <;> simp [hlt]
    · simp [hlt]

theorem finalize_atomic_iff (t : ForkTree H N V) :
    AtomicOnError t isDescendentOf (.finalize hash number) ↔
      QueriesAnswered t isDescendentOf (.finalize hash number) := by
  simp only [AtomicOnError, QueriesAnswered, finalize]
  by_cases hrev : t.isReverted number
  · simp [hrev]
  simp only [hrev, Bool.false_eq_true, if_false, true_implies]
  rcases finalizeRoot_eq t hash with ⟨node, hnode, hhash, hroot⟩ | ⟨hroot, hnone⟩
  · simp only [hroot, not_isErr_ok, false_implies, true_iff]
    exact fun hne => absurd hhash (hne node hnode)
  simp only [hroot, imp_iff_right hnone]
  rw [← descendsFromRoot_false_iff]
  rcases hdesc : descendsFromRoot hash number isDescendentOf t.roots with e | _ | _
  · simp
  · simp only [true_implies]
    refine (retainRoots_atomic_iff (fun root =>
        if number < root.number then isDescendentOf hash root.hash else .ok false)
      (Nat.le_refl (size t.roots))
      (fun e roots h => by simp only [h]) (fun b roots h => by simp [h])).trans ?_
    refine forall₂_congr fun root _ => ?_
    by_cases hlt : number < root.number <;> simp [hlt]
  · simp

theorem finalizedRoot_mem
    (h : finalizedRoot hash number isDescendentOf predicate l = .ok (some node)) : node ∈ l := by
  induction l with
  | nil => simp [finalizedRoot] at h
  | cons root rest ih =>
    rw [finalizedRoot] at h
    split at h
    · split at h
      · cases h
      · split at h
        · cases h
        · cases h
        · cases h
          exact mem_cons_self ..
      · exact mem_cons_of_mem _ (ih h)
    · exact mem_cons_of_mem _ (ih h)

theorem size_finalizePosition {position}
    (h : finalizedRoot hash number isDescendentOf predicate t.roots = .ok position) :
    size (t.finalizePosition position).2.roots ≤ size t.roots := by
  cases position with
  | none => exact Nat.le_refl _
  | some node => exact Nat.le_of_lt (size_children_lt (finalizedRoot_mem h))

theorem finalizeWithDescendentIf_atomic_iff (t : ForkTree H N V) (predicate : V → Bool) :
    AtomicOnError t isDescendentOf (.finalizeWithDescendentIf hash number predicate) ↔
      QueriesAnswered t isDescendentOf (.finalizeWithDescendentIf hash number predicate) := by
  simp only [AtomicOnError, QueriesAnswered, finalizeWithDescendentIf]
  by_cases hrev : t.isReverted number
  · simp [hrev]
  simp only [hrev, Bool.false_eq_true, if_false, true_implies]
  rcases hpos : finalizedRoot hash number isDescendentOf predicate t.roots with e | position
  · simp
  · simp only [Except.ok.injEq, forall_eq']
    exact retainRoots_atomic_iff _ (size_finalizePosition hpos)
      (fun e roots h => by simp only [h]) (fun b roots h => by simp [h])

/-! ## The worklist of `finalize_with_ancestors` -/

def unvisited (s : List (Node H N V) × Nat × Bool) : Nat := size (s.1.drop s.2.1)

omit [DecidableEq H] [LinearOrder N] in
theorem unvisited_eq {idx : Nat} {changed : Bool} (h : roots[idx]? = some root) :
    unvisited (roots, idx, changed) = size root.children + 1 + size (roots.drop (idx + 1)) := by
  obtain ⟨hi, rfl⟩ := List.getElem?_eq_some_iff.mp h
  simp only [unvisited]
  rw [drop_eq_getElem_cons hi, size_cons]

/-- The tree has fewer nodes once the flag is set. -/
theorem WorklistStep.size (h : WorklistStep hash number isDescendentOf s s') :
    unvisited s' < unvisited s
    ∧ (s'.2.2 = false → s'.1 = s.1 ∧ s.2.2 = false)
    ∧ (s'.2.2 = true → s.2.2 = true ∧ size s'.1 ≤ size s.1
        ∨ size s'.1 < size s.1) := by
  cases h with
  | @leave roots idx changed root _ hroot _ =>
    refine ⟨?_, fun hc => ⟨rfl, hc⟩, fun hc => .inl ⟨hc, Nat.le_refl _⟩⟩
    rw [unvisited_eq hroot]
    simp only [unvisited]
    omega
  | @opened roots idx changed root hroot _ =>
    have hsize := size_swapRemove hroot
    have hidx : idx ≤ (swapRemove roots idx).length := by
      have := length_swapRemove hroot
      have := (List.getElem?_eq_some_iff.mp hroot).1
      omega
    refine ⟨?_, fun hc => (Bool.noConfusion hc), fun _ => .inr ?_⟩
    · rw [unvisited_eq hroot]
      simp only [unvisited]
      rw [drop_append_of_le_length hidx, size_append, size_perm (drop_swapRemove_perm hroot)]
      omega
    · simp only [size_append]
      omega
  | @dropped roots idx changed root hroot _ =>
    have hsize := size_swapRemove hroot
    refine ⟨?_, fun hc => (Bool.noConfusion hc), fun _ => .inr ?_⟩
    · rw [unvisited_eq hroot]
      simp only [unvisited]
      rw [size_perm (drop_swapRemove_perm hroot)]
      omega
    · simp only
      omega

theorem worklist_run
    (h : Relation.ReflTransGen (WorklistStep hash number isDescendentOf) (roots, 0, false) s) :
    (s.2.2 = false → s.1 = roots) ∧ (s.2.2 = true → size s.1 < size roots) := by
  induction h with
  | refl => exact ⟨fun _ => rfl, fun hc => Bool.noConfusion hc⟩
  | @tail s _ _ hstep ih =>
    obtain ⟨-, hkeep, hlose⟩ := hstep.size
    refine ⟨fun hc => ?_, fun hc => ?_⟩
    · obtain ⟨heq, hc'⟩ := hkeep hc
      exact heq.trans (ih.1 hc')
    · rcases hlose hc with ⟨hc', hle⟩ | hlt
      · exact Nat.lt_of_le_of_lt hle (ih.2 hc')
      · cases hs : s.2.2 with
        | false => rwa [ih.1 hs] at hlt
        | true => exact hlt.trans (ih.2 hs)

theorem WorklistStep.ancestorsLoop_eq (h : WorklistStep hash number isDescendentOf s s')
    (t : ForkTree H N V) (fuel : Nat) :
    ancestorsLoop t hash number isDescendentOf (fuel + 1) s.1 s.2.1 s.2.2 =
      ancestorsLoop t hash number isDescendentOf fuel s'.1 s'.2.1 s'.2.2 := by
  cases h with
  | leave hroot hpos | opened hroot hpos | dropped hroot hpos =>
    rw [ancestorsLoop, hroot]; simp [hpos]

theorem ancestorsLoop_error {e : E} (hroot : s.1[s.2.1]? = some root)
    (hpos : rootPosition hash number isDescendentOf root = .error e) (t : ForkTree H N V)
    (fuel : Nat) :
    ancestorsLoop t hash number isDescendentOf (fuel + 1) s.1 s.2.1 s.2.2 =
      (.err (.client e), { t with roots := s.1 }) := by
  rw [ancestorsLoop, hroot]
  simp [hpos]

section

variable (hash : H) (number : N) (isDescendentOf : H → H → Except E Bool) (t : ForkTree H N V)
  (s : List (Node H N V) × Nat × Bool)

/-- After the last root, at the finalized root, or at a root that the client does not answer for. -/
inductive WorklistEnds : Outcome (Error E) (FinalizationResult V) × ForkTree H N V → Prop where
  | done (hend : s.1[s.2.1]? = none) :
      WorklistEnds (.ok (if s.2.2 then .changed none else .unchanged), ⟨s.1, some number⟩)
  | found {root : Node H N V} (hroot : s.1[s.2.1]? = some root) (hhash : root.hash = hash) :
      WorklistEnds (.ok (.changed (some root.data)), ⟨root.children, some root.number⟩)
  | failed {root : Node H N V} {e : E} (hroot : s.1[s.2.1]? = some root)
      (hpos : rootPosition hash number isDescendentOf root = .error e) :
      WorklistEnds (.err (.client e), { t with roots := s.1 })

end

theorem ancestorsLoop_round (hash : H) (number : N) (isDescendentOf : H → H → Except E Bool)
    (t : ForkTree H N V) (hroot : s.1[s.2.1]? = some root) (fuel : Nat) :
    (∃ s', WorklistStep hash number isDescendentOf s s') ∨
    WorklistEnds hash number isDescendentOf t s
      (ancestorsLoop t hash number isDescendentOf (fuel + 1) s.1 s.2.1 s.2.2) := by
  rcases hpos : rootPosition hash number isDescendentOf root with e | ⟨_ | _, _ | _, _ | _⟩
  · rw [ancestorsLoop_error hroot hpos]
    exact .inr (.failed hroot hpos)
  · exact .inl ⟨_, .dropped hroot hpos⟩
  · exact .inl ⟨_, .opened hroot hpos⟩
  · exact .inl ⟨_, .leave hroot hpos⟩
  · exact .inl ⟨_, .leave hroot hpos⟩
  all_goals
    have hhash : root.hash = hash := by
      unfold rootPosition at hpos
      split at hpos
      · assumption
      split at hpos
      · cases hpos
      · cases hpos
      · split at hpos <;> cases hpos
    rw [ancestorsLoop, hroot]
    simp only [hpos, finalizeRootAt, if_true]
    exact .inr (.found hroot hhash)

theorem ancestorsLoop_ends (hash : H) (number : N) (isDescendentOf : H → H → Except E Bool)
    (t : ForkTree H N V) {fuel : Nat} (hfuel : unvisited s ≤ fuel) :
    ∃ s', Relation.ReflTransGen (WorklistStep hash number isDescendentOf) s s' ∧
      WorklistEnds hash number isDescendentOf t s'
        (ancestorsLoop t hash number isDescendentOf fuel s.1 s.2.1 s.2.2) := by
  induction fuel generalizing s with
  | zero =>
    rcases hroot : s.1[s.2.1]? with _ | root
    · rw [ancestorsLoop, hroot]
      exact ⟨s, .refl, .done hroot⟩
    · rw [unvisited_eq hroot] at hfuel
      omega
  | succ fuel ih =>
    rcases hroot : s.1[s.2.1]? with _ | root
    · rw [ancestorsLoop, hroot]
      exact ⟨s, .refl, .done hroot⟩
    rcases ancestorsLoop_round hash number isDescendentOf t hroot fuel with ⟨s1, hstep⟩ | hends
    · have hless := hstep.size.1
      rw [hstep.ancestorsLoop_eq]
      obtain ⟨s', hrun, hends⟩ := ih (s := s1) (by omega)
      exact ⟨s', .head hstep hrun, hends⟩
    · exact ⟨s, .refl, hends⟩

/-- The worklist gets from `s` to `s'`, where the client does not answer. -/
def FailsAt (hash : H) (number : N) (isDescendentOf : H → H → Except E Bool)
    (s s' : List (Node H N V) × Nat × Bool) : Prop :=
  Relation.ReflTransGen (WorklistStep hash number isDescendentOf) s s'
    ∧ ∃ root e, s'.1[s'.2.1]? = some root ∧ rootPosition hash number isDescendentOf root = .error e

theorem FailsAt.ancestorsLoop_eq (h : FailsAt hash number isDescendentOf s s') (t : ForkTree H N V)
    {fuel : Nat} (hfuel : unvisited s ≤ fuel) :
    ∃ e, ancestorsLoop t hash number isDescendentOf fuel s.1 s.2.1 s.2.2 =
      (.err (.client e), { t with roots := s'.1 }) := by
  obtain ⟨hrun, root, e, hroot, hpos⟩ := h
  induction hrun using Relation.ReflTransGen.head_induction_on generalizing fuel with
  | refl =>
    rw [unvisited_eq hroot] at hfuel
    obtain ⟨fuel, rfl⟩ : ∃ n, fuel = n + 1 := ⟨fuel - 1, by omega⟩
    exact ⟨e, ancestorsLoop_error hroot hpos t fuel⟩
  | head hstep _ ih =>
    have hless := hstep.size.1
    obtain ⟨fuel, rfl⟩ : ∃ n, fuel = n + 1 := ⟨fuel - 1, by omega⟩
    rw [hstep.ancestorsLoop_eq]
    exact ih (by omega)

omit [DecidableEq H] [LinearOrder N] in
theorem unvisited_start (t : ForkTree H N V) :
    unvisited (t.roots, 0, false) ≤ t.nodes.length := Nat.le_refl _

theorem finalizeWithAncestors_cases (t : ForkTree H N V) (hash : H) (number : N)
    (isDescendentOf : H → H → Except E Bool) :
    t.isReverted number = true ∧
      t.finalizeWithAncestors hash number isDescendentOf = (.err .revert, t) ∨
    t.isReverted number = false ∧ ((∃ node ∈ t.roots, node.hash = hash ∧
        t.finalizeWithAncestors hash number isDescendentOf =
          (.ok (.changed (some node.data)), ⟨node.children, some node.number⟩)) ∨
      (∀ root ∈ t.roots, root.hash ≠ hash) ∧
      ∃ s, Relation.ReflTransGen (WorklistStep hash number isDescendentOf) (t.roots, 0, false) s ∧
        WorklistEnds hash number isDescendentOf t s
          (t.finalizeWithAncestors hash number isDescendentOf)) := by
  unfold finalizeWithAncestors
  cases t.isReverted number with
  | true => exact .inl ⟨rfl, rfl⟩
  | false =>
    rw [if_neg Bool.false_ne_true]
    rcases finalizeRoot_eq t hash with ⟨node, hnode, hhash, hroot⟩ | ⟨hroot, hnone⟩
    · rw [hroot]
      exact .inr ⟨rfl, .inl ⟨node, hnode, hhash, rfl⟩⟩
    · rw [hroot]
      exact .inr ⟨rfl, .inr ⟨hnone, ancestorsLoop_ends _ _ _ t (unvisited_start t)⟩⟩

theorem finalizeWithAncestors_atomic_iff (t : ForkTree H N V) :
    AtomicOnError t isDescendentOf (.finalizeWithAncestors hash number) ↔
      QueriesAnswered t isDescendentOf (.finalizeWithAncestors hash number) := by
  simp only [AtomicOnError, QueriesAnswered, finalizeWithAncestors]
  by_cases hrev : t.isReverted number
  · simp [hrev]
  simp only [hrev, Bool.false_eq_true, if_false, true_implies]
  rcases finalizeRoot_eq t hash with ⟨node, hnode, hhash, hroot⟩ | ⟨hroot, hnone⟩
  · simp only [hroot, not_isErr_ok, false_implies, true_iff]
    exact fun hne => absurd hhash (hne node hnode)
  simp only [hroot, imp_iff_right hnone]
  constructor
  · intro hatomic roots idx root hrun hroot
    rcases hpos : rootPosition hash number isDescendentOf root with e | p
    · -- a failure at this point has lost a node
      have hfail : FailsAt hash number isDescendentOf (t.roots, 0, false) (roots, idx, true) :=
        ⟨hrun, root, e, hroot, hpos⟩
      obtain ⟨e', heq⟩ := hfail.ancestorsLoop_eq t (unvisited_start t)
      rw [heq] at hatomic
      have hroots := congrArg ForkTree.roots (hatomic (isErr_err _))
      have hlt := (worklist_run hrun).2 rfl
      simp only at hroots hlt
      rw [hroots] at hlt
      omega
    · exact ⟨p, rfl⟩
  · intro hans herr
    obtain ⟨⟨roots, idx, changed⟩, hrun, hends⟩ :=
      ancestorsLoop_ends hash number isDescendentOf t (unvisited_start t)
    generalize ancestorsLoop t hash number isDescendentOf _ _ _ _ = r at hends herr ⊢
    cases hends with
    | done hend | found hroot hhash => exact herr.elim
    | failed hroot hpos =>
      cases changed with
      | false => rw [(worklist_run hrun).1 rfl]
      | true =>
        obtain ⟨p, hp⟩ := hans roots idx _ hrun hroot
        rw [hpos] at hp
        cases hp

/-! ## Which errors keep the tree -/

theorem importBlock_atomic (t : ForkTree H N V) :
    AtomicOnError t isDescendentOf (.importBlock hash number data) := by
  intro herr
  rcases importBlock_cases t hash number data isDescendentOf with
    ⟨-, heq⟩ | ⟨-, ⟨e, -, heq⟩ | ⟨-, heq⟩ | ⟨roots, -, heq⟩⟩
  · rw [heq]
  · rw [heq]
  · rw [heq] at herr
    exact herr.elim
  · rw [heq] at herr
    exact herr.elim

/-- **An operation's error leaves the tree as it was if and only if the client
answers the queries the operation makes after it has started to edit the tree.** -/
theorem atomicOnError_iff (t : ForkTree H N V) (isDescendentOf : H → H → Except E Bool)
    (op : FallibleOp H N V) :
    AtomicOnError t isDescendentOf op ↔ QueriesAnswered t isDescendentOf op := by
  cases op with
  | importBlock hash number data => exact iff_of_true (importBlock_atomic t) trivial
  | prune hash number predicate => exact prune_atomic_iff t predicate
  | finalize hash number => exact finalize_atomic_iff t
  | finalizeWithAncestors hash number => exact finalizeWithAncestors_atomic_iff t
  | finalizeWithDescendentIf hash number predicate =>
    exact finalizeWithDescendentIf_atomic_iff t predicate

/-- The client fails on exactly one pair of hashes. -/
def failsOn (base target : Nat) (a b : Nat) : Except Unit Bool :=
  if a = base ∧ b = target then .error ()
  else .ok (a == 1 || a == 3)

/-- In each of the four operations that query again after they have started to edit. -/
theorem failing_query_loses_nodes :
    -- the root `1` is taken out for the node found by the search; its child `2` was not asked about
    ¬AtomicOnError (⟨[.mk 1 1 true [.mk 2 2 false [.mk 3 3 false []]]], none⟩ :
        ForkTree Nat Nat Bool) (failsOn 2 4) (.prune 4 4 id)
    -- the only root lies above the finalized block
    ∧ ¬AtomicOnError (⟨[.mk 1 5 true []], none⟩ : ForkTree Nat Nat Bool)
        (failsOn 9 1) (.finalize 9 3)
    -- the root `1` is opened before the root `2` is asked about
    ∧ ¬AtomicOnError (⟨[.mk 1 1 true [], .mk 2 1 true []], none⟩ : ForkTree Nat Nat Bool)
        (failsOn 2 9) (.finalizeWithAncestors 9 3)
    ∧ ¬AtomicOnError (⟨[.mk 1 1 true []], none⟩ : ForkTree Nat Nat Bool)
        (failsOn 1 9) (.finalizeWithDescendentIf 9 3 not) := by
  refine ⟨fun h => ?_, fun h => ?_, fun h => ?_, fun h => ?_⟩ <;>
    exact absurd (congrArg (fun t => size t.roots) (h trivial)) (by decide)

end Substrate.ForkTree
