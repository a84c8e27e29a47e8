import Substrate.BasePoolConsistent

/-!
# Ready means ready

A ready transaction requires tags that another ready transaction provides, or that have been pruned.
The pool keeps this up only in part: tags are struck off what a transaction misses when a provider
turns up, and are not put back when the provider goes before the transaction is ready. `Met` is what
is kept when no tag that is needed gets lost.

Transactions that share a provided tag provide the same tags here, as they do when a tag stands for
an account and a nonce: then a replacement hands over all tags, and a refusal means that all its
tags are provided already.
-/

namespace Substrate.TxPool

open Function List ReadyTx Option FinMap

variable {H T : Type} [DecidableEq H]

def Transaction.Aligned (a b : Transaction H T) : Prop :=
  ∀ t ∈ a.provides, t ∈ b.provides → ∀ s, s ∈ a.provides ↔ s ∈ b.provides

/-- The required tags rank below the provided ones. -/
def Transaction.Ranked (rank : T → Nat) (tx : Transaction H T) : Prop :=
  ∀ a ∈ tx.requires, ∀ b ∈ tx.provides, rank a < rank b

namespace ReadyTransactions

variable {pruned : List T} {r r1 r' : ReadyTransactions H T}

/-- By another transaction, which lists the one that requires it; or it has been pruned. -/
structure Met (pruned : List T) (r : ReadyTransactions H T) : Prop where
  required : ∀ h x, r.ready.get? h = some x → ∀ t ∈ x.requires,
    t ∈ pruned ∨ ∃ g, g ≠ h ∧ r.providedTags.get? t = some g
  linked : ∀ h x g y, r.ready.get? h = some x → r.ready.get? g = some y → ∀ t ∈ y.requires,
    r.providedTags.get? t = some h → t ∈ pruned ∨ g ∈ x.unlocks

omit [DecidableEq H] in
theorem Met.mono {pruned' : List T} (hmet : Met pruned r) (hsub : ∀ t ∈ pruned, t ∈ pruned') :
    Met pruned' r where
  required := fun h x hx t ht => (hmet.required h x hx t ht).imp_left (hsub t)
  linked := fun h x g y hx hy t ht hprov => (hmet.linked h x g y hx hy t ht hprov).imp_left (hsub t)

/-! ## Removing -/

def Unlocks (r : ReadyTransactions H T) (h g : H) : Prop :=
  ∃ x, r.ready.get? h = some x ∧ g ∈ x.unlocks

variable {removed : List (Transaction H T)}

variable [DecidableEq T]

theorem Removal.reached {filter : Option (List T)} {stack : List H}
    (hrem : Removal filter r stack removed r') {g : H} (hg : r.ready.get? g ≠ none)
    (hnone : r'.ready.get? g = none) : ∃ h ∈ stack, Relation.ReflTransGen r.Unlocks h g := by
  induction hrem with
  | done _ => exact absurd hnone hg
  | @step r r' stack rest h x removed hx hmem _ hrest hnext ih =>
    by_cases heq : g = h
    · exact ⟨h, hmem, heq ▸ .refl⟩
    have hold : ∀ a b, (removeOne filter h x r).Unlocks a b → r.Unlocks a b := by
      rintro a b ⟨y', hy', hb⟩
      obtain ⟨y, hy, _, hsub, _⟩ := removeOne_get?_cases hy'
      exact ⟨y, hy, hsub b hb⟩
    obtain ⟨k, hk, hpath⟩ :=
      ih (fun hnone' => hg ((removeOne_get?_eq_none_iff heq).mp hnone')) hnone
    have hpath := Relation.ReflTransGen.mono hold _ _ hpath
    rcases mem_nextStack.mp hk with hk | ⟨_, hk⟩
    · exact ⟨k, hrest k hk, hpath⟩
    · exact ⟨h, hmem, .head ⟨x, hx, hk⟩ hpath⟩

/-- It takes out what requires a lost tag. -/
theorem Met.removal {stack : List H} (hmet : Met pruned r) (hinv : Mapped (fun _ => False) r)
    (hrem : Removal none r stack removed r') : Met pruned r' := by
  constructor
  · intro g y' hy' t ht
    obtain ⟨y, hy, htx, _⟩ := hrem.of_get? hy'
    rw [requires, htx] at ht
    rcases hmet.required g y hy t ht with hpruned | ⟨k, hne, hprov⟩
    · exact .inl hpruned
    obtain ⟨x, hx, htx⟩ := hinv.ready_of_provided t k hprov
    rcases hmet.linked k x g y hx hy t ht hprov with hpruned | hlisted
    · exact .inl hpruned
    refine .inr ⟨k, hne, (hrem.provided (hinv.keep none)).mpr ⟨hprov, .inr fun hnone => ?_⟩⟩
    have hinval : invalidated none x ≠ [] :=
      ne_nil_of_mem (mem_invalidated.mpr ⟨htx, fun hkept => hkept⟩)
    rw [hrem.unlocked hx hnone hinval g hlisted] at hy'
    cases hy'
  · intro h x' g y' hx' hy' t ht hprov'
    obtain ⟨x, hx, _, _, hsup⟩ := hrem.of_get? hx'
    obtain ⟨y, hy, htx, _⟩ := hrem.of_get? hy'
    rw [requires, htx] at ht
    have hprov := ((hrem.provided (hinv.keep none)).mp hprov').1
    rcases hmet.linked h x g y hx hy t ht hprov with hpruned | hlisted
    · exact .inl hpruned
    rcases hmet.required g y hy t ht with hpruned | ⟨k, hne, hk⟩
    · exact .inl hpruned
    · rw [hprov, some.injEq] at hk
      exact .inr (hsup g hlisted fun heq => hne (hk ▸ heq.symm))

/-! ## Replacing -/

section Replacing

-- those that provide a tag of the new transaction provide no other tags than it
variable {tx : Transaction H T} {removed : List (Transaction H T)} {unlocks : List H}
  (hrep : Replaces tx removed unlocks r r1) (hinv : Mapped (fun _ => False) r)
  (hsub : ∀ h x, r.ready.get? h = some x → ∀ t ∈ x.provides, t ∈ tx.provides →
    ∀ s ∈ x.provides, s ∈ tx.provides)
include hrep hinv hsub

theorem Replaces.mem_replaceHashes {g : H} (hg : r.ready.get? g ≠ none)
    (hnone : r1.ready.get? g = none) : g ∈ r.replaceHashes tx := by
  refine mem_reverse.mp (hrep.removal.mem_stack (fun k hk y hy s hs => ?_) hg hnone)
  obtain ⟨t, ht, hprov⟩ := ReadyTransactions.mem_replaceHashes.mp (mem_reverse.mp hk)
  obtain ⟨y', hy', hmem⟩ := hinv.ready_of_provided t k hprov
  rw [hy] at hy'
  cases hy'
  exact hsub k y hy t hmem ht s hs

theorem Replaces.provided_insert (hins : Inserted tx unlocks r1 r') {t : T} {h : H}
    (hprov : r.providedTags.get? t = some h) :
    t ∈ tx.provides ∧ r'.providedTags.get? t = some tx.hash ∨
      t ∉ tx.provides ∧ r1.providedTags.get? t = some h ∧ r'.providedTags.get? t = some h ∧
        r1.ready.get? h ≠ none := by
  rw [hins.provided]
  by_cases ht : t ∈ tx.provides
  · exact .inl ⟨ht, if_pos ht⟩
  have hleft : r1.ready.get? h ≠ none := by
    intro hnone
    obtain ⟨x, hx, hmem⟩ := hinv.ready_of_provided t h hprov
    have hrepl := hrep.mem_replaceHashes hinv hsub (by simp [hx]) hnone
    obtain ⟨s, hs, hprovs⟩ := ReadyTransactions.mem_replaceHashes.mp hrepl
    obtain ⟨x', hx', hmems⟩ := hinv.ready_of_provided s h hprovs
    rw [hx] at hx'
    cases hx'
    exact ht (hsub h x hx s hmems hs t hmem)
  have hprov1 := (hrep.removal.provided (hinv.keep (some tx.provides))).mpr ⟨hprov, .inr hleft⟩
  rw [if_neg ht]
  exact .inr ⟨ht, hprov1, hprov1, hleft⟩

/-- With all it requires provided or pruned; it takes over the tags of those it replaces. -/
theorem Met.insert (hmet : Met pruned r) (hnew : r.ready.get? tx.hash = none)
    (hown : ∀ t ∈ tx.requires, t ∉ tx.provides)
    (hreq : ∀ t ∈ tx.requires, t ∈ pruned ∨ r.providedTags.get? t ≠ none)
    (hins : Inserted tx unlocks r1 r') : Met pruned r' := by
  have hne_hash : ∀ g y, r.ready.get? g = some y → g ≠ tx.hash := by
    rintro g y hy rfl
    rw [hnew] at hy
    cases hy
  constructor
  · intro g y' hy' t ht
    rcases hins.cases hy' with ⟨rfl, rfl⟩ | ⟨hg, y1, hy1, rfl⟩
    · refine (hreq t ht).imp_right fun hne => ?_
      obtain ⟨k, hprov⟩ := ne_none_iff_exists'.mp hne
      obtain ⟨x, hx, _⟩ := hinv.ready_of_provided t k hprov
      rcases hrep.provided_insert hinv hsub hins hprov with ⟨hmem, _⟩ | ⟨_, _, hprov', _⟩
      · exact absurd hmem (hown t ht)
      · exact ⟨k, hne_hash k x hx, hprov'⟩
    obtain ⟨y, hy, htx, _⟩ := hrep.removal.of_get? hy1
    rw [pushLinks_requires, requires, htx] at ht
    refine (hmet.required g y hy t ht).imp_right ?_
    rintro ⟨k, hne, hprov⟩
    rcases hrep.provided_insert hinv hsub hins hprov with ⟨_, hprov'⟩ | ⟨_, _, hprov', _⟩
    · exact ⟨tx.hash, (hne_hash g y hy).symm, hprov'⟩
    · exact ⟨k, hne, hprov'⟩
  · intro h x' g y' hx' hy' t ht hprov'
    -- what requires the tag was there before, or is new and linked just now
    rcases hins.cases hy' with ⟨rfl, rfl⟩ | ⟨hg, y1, hy1, rfl⟩
    · refine (hreq t ht).imp_right fun hne => ?_
      obtain ⟨k, hprov⟩ := ne_none_iff_exists'.mp hne
      rcases hrep.provided_insert hinv hsub hins hprov with ⟨hmem, _⟩ | ⟨_, hprov1, hk', _⟩
      · exact absurd hmem (hown t ht)
      rw [hprov', some.injEq] at hk'
      subst hk'
      obtain ⟨x, hx, _⟩ := hinv.ready_of_provided t h hprov
      rcases hins.cases hx' with ⟨heq, _⟩ | ⟨_, x1, _, rfl⟩
      · exact absurd heq (hne_hash h x hx)
      have hpos : 0 < waitsFor r1.providedTags tx.requires h :=
        waitsFor_pos.mpr ⟨t, ht, hprov1⟩
      simp only [pushLinks, mem_append, mem_replicate]
      exact .inr ⟨hpos.ne', trivial⟩
    · obtain ⟨y, hy, htx, _⟩ := hrep.removal.of_get? hy1
      rw [pushLinks_requires, requires, htx] at ht
      rcases hmet.required g y hy t ht with hpruned | ⟨k, hne, hprov⟩
      · exact .inl hpruned
      obtain ⟨z, hz, hmem⟩ := hinv.ready_of_provided t k hprov
      rcases hmet.linked k z g y hz hy t ht hprov with hpruned | hlisted
      · exact .inl hpruned
      right
      rcases hrep.provided_insert hinv hsub hins hprov with ⟨hmemtx, hk'⟩ | ⟨_, _, hk', _⟩
      · -- the new transaction has taken the place of the provider
        rw [hprov', some.injEq] at hk'
        subst hk'
        rcases hins.cases hx' with ⟨_, rfl⟩ | ⟨hh, _⟩
        · rw [hrep.unlocks, mem_flatMap]
          refine ⟨z, mem_filterMap.mpr ⟨k, ?_, hz⟩, hlisted⟩
          exact ReadyTransactions.mem_replaceHashes.mpr ⟨t, hmemtx, hprov⟩
        · exact absurd rfl hh
      rw [hprov', some.injEq] at hk'
      subst hk'
      rcases hins.cases hx' with ⟨heq, _⟩ | ⟨_, x1, hx1, rfl⟩
      · exact absurd heq (hne_hash h z hz)
      obtain ⟨x, hx, _, _, hsup⟩ := hrep.removal.of_get? hx1
      rw [hz] at hx
      cases hx
      exact mem_append_left _ (hsup g hlisted hne.symm)

end Replacing

/-! ## Pruning -/

variable {h : H} {x : ReadyTx H T} {stack : List T}

omit [DecidableEq T] in
/-- It adds the tags of providers that unlock nothing more. -/
theorem foldl_findPrevious_stack (hash : H) (provided : FinMap T H) (tags : List T)
    (s : FinMap H (ReadyTx H T) × List T) (t : T)
    (ht : t ∈ (tags.foldl (findPrevious hash provided) s).2) :
    t ∈ s.2 ∨ ∃ u ∈ tags, ∃ g y', provided.get? u = some g ∧
      (tags.foldl (findPrevious hash provided) s).1.get? g = some y' ∧
        y'.unlocks = [] ∧ t ∈ y'.provides := by
  induction tags generalizing s with
  | nil => exact .inl ht
  | cons tag tags ih =>
    have hstep : t ∈ (findPrevious hash provided s tag).2 → t ∈ s.2 ∨
        ∃ g y', provided.get? tag = some g ∧ (findPrevious hash provided s tag).1.get? g = some y' ∧
          y'.unlocks = [] ∧ t ∈ y'.provides := by
      unfold findPrevious
      split
      · exact .inl
      rename_i prev hprev
      split
      · exact .inl
      rename_i y hy
      intro ht
      dsimp only at ht
      split at ht
      · rename_i hempty
        rcases mem_append.mp ht with ht | ht
        · refine .inr ⟨prev, { y with unlocks := removeItem y.unlocks hash }, hprev, ?_,
            isEmpty_iff.mp hempty, mem_reverse.mp ht⟩
          rw [get?_insert, update_self]
        · exact .inl ht
      · exact .inl ht
    rw [foldl_cons]
    rcases ih (findPrevious hash provided s tag) ht with ht | ⟨u, hu, hadded⟩
    · refine (hstep ht).imp_right ?_
      rintro ⟨g, y1, hprov, hy1, hnil, hmem⟩
      obtain ⟨y', hy', ⟨htx, _⟩, _, hsub⟩ := (foldl_findPrevious hash provided tags _).get?_some hy1
      refine ⟨tag, mem_cons_self, g, y', hprov, hy', eq_nil_of_subset_nil (hnil ▸ hsub), ?_⟩
      rw [provides, htx]
      exact hmem
    · exact .inr ⟨u, mem_cons_of_mem _ hu, hadded⟩

theorem pruneOne_stack {tag : T} {rest stack' : List T} (hhash : x.hash = h)
    (htag : tag ∈ x.provides)
    (hprune : pruneOne tag x rest (r.withoutProvider tag h) = some (stack', r1)) :
    (∀ g y', r1.ready.get? g = some y' → ∃ y, r.ready.get? g = some y ∧
        ∀ k ∈ y'.unlocks, k ∈ y.unlocks) ∧
      ∀ t ∈ stack', t ∈ rest ∨ ∃ u ∈ x.requires, ∃ g y', r.providedTags.get? u = some g ∧
        r1.ready.get? g = some y' ∧ y'.unlocks = [] ∧ t ∈ y'.provides := by
  subst hhash
  have hfound := foldl_findPrevious x.hash (r.providedTags.erase tag) x.requires
    (r.ready.erase x.hash, rest)
  simp only [pruneOne, withoutProvider, map_eq_some_iff, Prod.mk.injEq] at hprune
  obtain ⟨_, _, rfl, rfl⟩ := hprune
  refine ⟨fun g y' hy' => ?_, fun t ht => ?_⟩
  · obtain ⟨y1, hy1, _, hun⟩ := (foldl_unlock_same x.unlocks (_, _)).of_get? hy'
    obtain ⟨y, hy, _, _, hsub⟩ := hfound.of_get? hy1
    exact ⟨y, (get?_erase_eq_some.mp hy).2, fun k hk => hsub (hun ▸ hk)⟩
  · refine (foldl_findPrevious_stack _ _ _ _ t ht).imp_right ?_
    rintro ⟨u, hu, g, y1, hprov, hy1, hnil, hmem⟩
    have hne : u ≠ tag := by
      rintro rfl
      rw [get?_erase, update_self] at hprov
      cases hprov
    rw [get?_erase, update_of_ne hne] at hprov
    obtain ⟨y', hy', htx, hun⟩ := (foldl_unlock_same x.unlocks (_, _)).get?_some hy1
    refine ⟨u, hu, g, y', hprov, hy', hun.trans hnil, ?_⟩
    rw [provides, htx]
    exact hmem

theorem Met.leave (hmet : Met pruned r) (hpr : Pruned h x r r1)
    (hfree : ∀ t ∈ x.provides, ∀ g y, r.ready.get? g = some y → t ∈ y.requires → t ∈ pruned) :
    Met pruned r1 := by
  constructor
  · intro g y' hy' t ht
    obtain ⟨_, y, hy, hrel⟩ := hpr.of_get? hy'
    rw [requires, hrel.1] at ht
    rcases hmet.required g y hy t ht with hpruned | ⟨k, hne, hprov⟩
    · exact .inl hpruned
    · by_cases hmem : t ∈ x.provides
      · exact .inl (hfree t hmem g y hy ht)
      · exact .inr ⟨k, hne, by rw [hpr.provided, if_neg hmem, hprov]⟩
  · intro k z' g y' hz' hy' t ht hprov'
    obtain ⟨_, z, hz, hrelz⟩ := hpr.of_get? hz'
    obtain ⟨hg, y, hy, hrel⟩ := hpr.of_get? hy'
    rw [requires, hrel.1] at ht
    rw [hpr.provided] at hprov'
    split at hprov'
    · cases hprov'
    · refine (hmet.linked k z g y hz hy t ht hprov').imp_right fun hlisted => ?_
      rw [← count_pos_iff, hrelz.2 g hg, count_pos_iff]
      exact hlisted

/-- If the tags on the stack are among `tags`, of whose providers nothing else is required, or
belong to transactions that unlock nothing. It takes out transactions of `Up` only, if that is
closed under the providers of required tags. -/
theorem Met.pruning (tags : List T) (Up : H → Prop) (hpr : Pruning r stack removed r')
    (hmet : Met pruned r) (hinv : Mapped (fun _ => False) r)
    (hfree : ∀ h x, r.ready.get? h = some x → ∀ u ∈ x.provides, u ∈ tags → ∀ t ∈ x.provides,
      ∀ g y, r.ready.get? g = some y → t ∈ y.requires → t ∈ pruned)
    (hclosed : ∀ g y, r.ready.get? g = some y → Up g → ∀ t ∈ y.requires, ∀ h,
      r.providedTags.get? t = some h → Up h)
    (hstack : ∀ t ∈ stack, ∀ h x, r.providedTags.get? t = some h → r.ready.get? h = some x →
      Up h ∧ (t ∈ tags ∨ x.unlocks = [])) :
    Met pruned r' ∧ ∀ t h, r.providedTags.get? t = some h →
      r'.providedTags.get? t = some h ∨ Up h := by
  induction hpr with
  | done _ => exact ⟨hmet, fun t h hprov => .inl hprov⟩
  | @step r r1 r' stack rest stack' tag h x removed hx htag hmem hrest _ hone hnext ih =>
    have hpruned := pruneOne_some (hinv.keyed h x hx) hx htag hone
    obtain ⟨hless, hnew⟩ := pruneOne_stack (hinv.keyed h x hx) htag hone
    have hprovtag := hinv.provided h x tag hx htag
    obtain ⟨hup, hwhy⟩ := hstack tag hmem h x hprovtag hx
    have hmet1 : Met pruned r1 := by
      refine hmet.leave hpruned fun t ht g y hy hreq => ?_
      rcases hwhy with htags | hnil
      · exact hfree h x hx tag htag htags t ht g y hy hreq
      · refine (hmet.linked h x g y hx hy t hreq (hinv.provided h x t hx ht)).resolve_right ?_
        simp [hnil]
    -- what is left is as before, with fewer links and fewer tags
    have hback := (hpruned.shrinks hinv hx).ready
    have hprov1 : ∀ t g, r1.providedTags.get? t = some g →
        t ∉ x.provides ∧ r.providedTags.get? t = some g := by
      intro t g hprov
      rw [hpruned.provided] at hprov
      split at hprov
      · cases hprov
      · exact ⟨‹_›, hprov⟩
    obtain ⟨hmet', hlost⟩ := ih hmet1 (hpruned.mapped hinv hx) (by
        intro g y' hy' u hu hutags t ht k z' hz' hreq
        obtain ⟨y, hy, htx⟩ := hback g y' hy'
        obtain ⟨z, hz, htxz⟩ := hback k z' hz'
        rw [provides, htx] at hu ht
        rw [requires, htxz] at hreq
        exact hfree g y hy u hu hutags t ht k z hz hreq) (by
        intro g y' hy' hupg t ht k hprov
        obtain ⟨y, hy, htx⟩ := hback g y' hy'
        rw [requires, htx] at ht
        exact hclosed g y hy hupg t ht k (hprov1 t k hprov).2) (by
        intro t ht g y' hprov' hy'
        obtain ⟨hnot, hprov⟩ := hprov1 t g hprov'
        obtain ⟨y, hy, hsub⟩ := hless g y' hy'
        rcases hnew t ht with hold | ⟨u, hu, k, z', hprovu, hz', hnil, hmemz⟩
        · obtain ⟨hupg, hwhyg⟩ := hstack t (hrest t hold) g y hprov hy
          refine ⟨hupg, hwhyg.imp_right fun hnil => ?_⟩
          exact eq_nil_of_subset_nil (hnil ▸ hsub)
        -- the provider of a tag that `x` required, which unlocks nothing more
        have hk := (hpruned.mapped hinv hx).provided k z' t hz' hmemz
        rw [hprov', some.injEq] at hk
        subst hk
        rw [hy', some.injEq] at hz'
        subst hz'
        exact ⟨hclosed h x hx hup u hu g hprovu, .inr hnil⟩)
    refine ⟨hmet', fun t g hprov => ?_⟩
    by_cases ht : t ∈ x.provides
    · rw [hinv.provided h x t hx ht, some.injEq] at hprov
      exact .inr (hprov ▸ hup)
    · exact hlost t g (by rw [hpruned.provided, if_neg ht, hprov])

end ReadyTransactions

end Substrate.TxPool
