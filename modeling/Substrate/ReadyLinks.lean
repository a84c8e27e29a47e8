import Substrate.DependencyOrder
import Substrate.ReadyImport
import Substrate.ReadyPrune

/-!
# The links of the ready queue

`provided_tags`, `unlocks`, `requires_offset` and `best` say in four ways which ready transaction
waits for which. `Inv` states what makes them agree. A removed transaction stays listed in the
`unlocks` of those it waited for, so `unlocks` is only looked at for transactions that are in the
queue.

`remove_subtree_with_tag_filter` breaks the agreement on its way: the tags of its filter stay mapped
to transactions that are gone, and the transactions on its stack have lost a tag without being told.
Both are parameters of the invariant. In a pruning the offsets of the waiting transactions lag
behind; `OffsetInv` keeps the account.

Three things can go wrong with the links in an import, and `EntersWell` excludes them: the queue may
still list the new hash from an earlier time, a transaction may require a tag that so far came from
outside the queue and is now provided without a link, and the new transaction may wait for one that
waits for it.
-/

namespace Substrate.TxPool

open List ReadyTx ReadyTransactions Option TransactionRef OrdSet FinMap

variable {H T : Type} [DecidableEq H]

def Transaction.WellFormed (tx : Transaction H T) : Prop :=
  tx.requires.Nodup ∧ tx.provides.Nodup ∧ tx.requires.Disjoint tx.provides

instance [DecidableEq T] (tx : Transaction H T) : Decidable tx.WellFormed :=
  inferInstanceAs (Decidable (_ ∧ _ ∧ (∀ _, _ → _ → False)))

namespace ReadyTransactions

variable {stale : T → Prop} {pending : H → Prop} {filter : Option (List T)}
  {r r1 r' : ReadyTransactions H T} {h : H} {x : ReadyTx H T}

/-- `g` requires a tag that `h` provides. -/
def Dep (r : ReadyTransactions H T) (g h : H) : Prop :=
  ∃ y t, r.ready.get? g = some y ∧ t ∈ y.requires ∧ r.providedTags.get? t = some h

/-- The tags in `stale` may be mapped to transactions that are gone; the offsets of those in
`pending` are not accounted for. -/
structure Inv (stale : T → Prop) (pending : H → Prop) (r : ReadyTransactions H T) : Prop
    extends mapped : Mapped stale r where
  wellFormed : ∀ h x, r.ready.get? h = some x → x.transaction.transaction.WellFormed
  id_le : ∀ h x, r.ready.get? h = some x → x.transaction.insertionId ≤ r.insertionId
  id_inj : ∀ h x g y, r.ready.get? h = some x → r.ready.get? g = some y →
    x.transaction.insertionId = y.transaction.insertionId → h = g
  links : ∀ h x g y, r.ready.get? h = some x → r.ready.get? g = some y →
    x.unlocks.count g = waitsFor r.providedTags y.requires h
  offset : ∀ g y, r.ready.get? g = some y → ¬pending g →
    y.requiresOffset = unmet r.providedTags y.requires
  best : ∀ ref, ref ∈ r.best ↔ ∃ g y, r.ready.get? g = some y ∧ y.transaction = ref ∧
    y.requiresOffset = y.requires.length

/-- Between two calls: nothing stale, nothing pending. -/
abbrev Linked (r : ReadyTransactions H T) : Prop := Inv (fun _ => False) (fun _ => False) r

theorem linked_empty : Linked (empty : ReadyTransactions H T) where
  mapped := mapped_empty
  wellFormed := by simp [empty]
  id_le := by simp [empty]
  id_inj := by simp [empty]
  links := by simp [empty]
  offset := by simp [empty]
  best := by simp [empty]

omit [DecidableEq H] in
theorem key_inj_id {a b : TransactionRef H T} (h : a.key = b.key) :
    a.insertionId = b.insertionId := by
  simp only [key, toLex_inj, Prod.mk.injEq, OrderDual.toDual_inj] at h
  exact h.2.2

variable {g : H} {s : FinMap H (ReadyTx H T) × List (TransactionRef H T)}

omit [DecidableEq H] in
theorem Shrinks.dep (h : Shrinks r r') {g' : H} (hdep : r'.Dep g g') : r.Dep g g' := by
  obtain ⟨y', t, hy', ht, hprov⟩ := hdep
  obtain ⟨y, hy, heq⟩ := h.ready g y' hy'
  refine ⟨y, t, hy, ?_, h.provided t g' hprov⟩
  rw [requires, ← heq]
  exact ht

variable {y : ReadyTx H T}

namespace Inv

section

variable (hinv : Inv stale pending r)
include hinv

theorem mem_provides {t : T} (ht : r.providedTags.get? t = some h) (hx : r.ready.get? h = some x) :
    t ∈ x.provides := by
  rcases hinv.provider t h ht with ⟨x', hx', hmem⟩ | ⟨_, hnone⟩
  · rw [hx] at hx'
    cases hx'
    exact hmem
  · rw [hx] at hnone
    cases hnone

section

variable (hx : r.ready.get? h = some x)
include hx

theorem not_mem_own_unlocks : h ∉ x.unlocks := by
  rw [← count_eq_zero, hinv.links h x h x hx hx, waitsFor_eq_zero]
  intro t ht hprov
  exact (hinv.wellFormed h x hx).2.2 ht (hinv.mem_provides hprov hx)

theorem mem_unlocks {t : T} (hy : r.ready.get? g = some y) (ht : t ∈ y.requires)
    (hprov : r.providedTags.get? t = some h) : g ∈ x.unlocks := by
  rw [← count_pos_iff, hinv.links h x g y hx hy]
  exact waitsFor_pos.mpr ⟨t, ht, hprov⟩

/-- The keys tell the transactions of the queue apart. -/
theorem eq_of_key_eq (hy : r.ready.get? g = some y) (hkey : x.transaction.key = y.transaction.key) :
    h = g :=
  hinv.id_inj h x g y hx hy (key_inj_id hkey)

end

theorem mono {pending' : H → Prop} (hsub : ∀ g y, r.ready.get? g = some y → pending g → pending' g) :
    Inv stale pending' r :=
  { hinv with offset := fun g y hy hp => hinv.offset g y hy fun h => hp (hsub g y hy h) }

end

end Inv

/-! ## Removing a transaction -/

theorem removeItem_eq_self {vec : List H} {item : H} (h : item ∉ vec) : removeItem vec item = vec := by
  unfold removeItem
  have hnone : vec.findIdx? (fun i => decide (i = item)) = none := by
    rw [List.findIdx?_eq_none_iff]
    intro a ha
    exact decide_eq_false fun heq => h (heq ▸ ha)
  rw [hnone]

/-- It looks for the provider's own hash and so leaves the queue alone. -/
theorem foldl_removeFromUnlocks_eq_self {provided : FinMap T H} {ready : FinMap H (ReadyTx H T)}
    (hself : ∀ h x, ready.get? h = some x → h ∉ x.unlocks) (tags : List T) :
    tags.foldl (removeFromUnlocks provided) ready = ready := by
  induction tags with
  | nil => rfl
  | cons tag tags ih =>
    have hstep : removeFromUnlocks provided ready tag = ready := by
      unfold removeFromUnlocks
      split
      · rfl
      split
      · rfl
      · rename_i hash _ _ x hx
        rw [removeItem_eq_self (hself hash x hx)]
        exact insert_eq_self hx
    rw [foldl_cons, hstep, ih]

variable [DecidableEq T]

theorem removeOne_ready (hinv : Inv stale pending r) :
    (removeOne filter h x r).ready = r.ready.erase h :=
  foldl_removeFromUnlocks_eq_self (fun _ _ hy =>
    hinv.not_mem_own_unlocks (get?_erase_eq_some.mp hy).2) _

theorem removeOne_get?_eq_some (hinv : Inv stale pending r) :
    (removeOne filter h x r).ready.get? g = some y ↔ g ≠ h ∧ r.ready.get? g = some y := by
  rw [removeOne_ready hinv, get?_erase_eq_some]

/-- Those that lost a tag by it are among those it unlocks. -/
theorem inv_removeOne (hinv : Inv (Kept filter) pending r) (hx : r.ready.get? h = some x) :
    Inv (Kept filter) (fun g => pending g ∨ invalidated filter x ≠ [] ∧ g ∈ x.unlocks)
      (removeOne filter h x r) := by
  have hold : ∀ {g y}, (removeOne filter h x r).ready.get? g = some y → r.ready.get? g = some y :=
    fun hy => ((removeOne_get?_eq_some hinv).mp hy).2
  exact
    { mapped := hinv.mapped.removeOne hx
      wellFormed := fun g y hy => hinv.wellFormed g y (hold hy)
      id_le := fun g y hy => hinv.id_le g y (hold hy)
      id_inj := fun g y g' y' hy hy' => hinv.id_inj g y g' y' (hold hy) (hold hy')
      links := by
        intro g y g' y' hy hy'
        rw [hinv.links g y g' y' (hold hy) (hold hy')]
        refine (waitsFor_congr fun t _ => ?_).symm
        rw [hinv.mapped.removeOne_provided hx, hy]
        simp
      offset := by
        intro g y hy hp
        push Not at hp
        rw [hinv.offset g y (hold hy) hp.1]
        refine (unmet_congr fun t ht => ?_).symm
        rw [removeOne_provided]
        split
        · -- a transaction that requires an invalidated tag is on the list
          rename_i hinval
          have hmem := hinv.mem_unlocks hx (hold hy) ht
            (hinv.provided h x t hx (mem_invalidated.mp hinval).1)
          exact absurd hmem (hp.2 (ne_nil_of_mem hinval))
        · rfl
      best := by
        intro ref
        show ref ∈ remove key r.best x.transaction ↔ _
        rw [mem_remove, hinv.best]
        constructor
        · rintro ⟨⟨g, y, hy, rfl, hoff⟩, hkey⟩
          refine ⟨g, y, (removeOne_get?_eq_some hinv).mpr ⟨?_, hy⟩, rfl, hoff⟩
          rintro rfl
          rw [hx] at hy
          cases hy
          exact hkey rfl
        · rintro ⟨g, y, hy, rfl, hoff⟩
          obtain ⟨hg, hy⟩ := (removeOne_get?_eq_some hinv).mp hy
          exact ⟨⟨g, y, hy, rfl, hoff⟩, fun hkey => hg (hinv.eq_of_key_eq hy hx hkey)⟩ }

/-! ## Removing subtrees -/

omit [DecidableEq T] in
theorem Inv.keep (hinv : Linked r) (filter : Option (List T)) (pending : H → Prop) :
    Inv (Kept filter) pending r where
  mapped := hinv.mapped.keep filter
  wellFormed := hinv.wellFormed
  id_le := hinv.id_le
  id_inj := hinv.id_inj
  links := hinv.links
  offset := fun g y hy _ => hinv.offset g y hy id
  best := hinv.best

namespace Removal

variable {stack : List H} {removed : List (Transaction H T)}

/-- **A removal keeps the queue linked.** It starts with the pending transactions
on its stack and ends with none pending. -/
theorem inv (hrem : Removal filter r stack removed r')
    (hinv : Inv (Kept filter) (fun g => g ∈ stack) r) : Inv (Kept filter) (fun _ => False) r' := by
  induction hrem with
  | done hnone =>
    refine hinv.mono fun g y hy hg => ?_
    rw [hnone g hg] at hy
    cases hy
  | @step r r' stack rest h x removed hx _ hstack _ _ ih =>
    refine ih ((inv_removeOne hinv hx).mono fun g y hy hg => mem_nextStack.mpr ?_)
    obtain ⟨hne, hy⟩ := (removeOne_get?_eq_some hinv).mp hy
    refine hg.imp_left fun hmem => ?_
    rcases hstack g hmem with heq | hmem | hnone
    · exact absurd heq hne
    · exact hmem
    · rw [hnone] at hy
      cases hy

theorem ready (hrem : Removal filter r stack removed r') (hinv : Inv (Kept filter) pending r) :
    r'.insertionId = r.insertionId ∧ ∀ g y, r'.ready.get? g = some y → r.ready.get? g = some y := by
  induction hrem generalizing pending with
  | done _ => exact ⟨rfl, fun _ _ hy => hy⟩
  | step hx _ _ _ _ ih =>
    obtain ⟨hid, hready⟩ := ih (inv_removeOne hinv hx)
    exact ⟨hid, fun g y hy => ((removeOne_get?_eq_some hinv).mp (hready g y hy)).2⟩

end Removal

theorem linked_removeSubtree (hinv : Linked r) (hashes : List H) :
    Linked (r.removeSubtree hashes).2 :=
  (removal_of_removeSubtree r hashes none).inv (hinv.keep none _)

/-! ## Importing -/

/-- The queue does not list its hash, no transaction of the queue requires one of its tags without a
provider, and none of those it waits for waits in turn for one whose place it takes. The call
imports `root`. -/
structure EntersWell (root : H) (r : ReadyTransactions H T) (tx : Transaction H T) : Prop where
  unlisted : ∀ h x, r.ready.get? h = some x → tx.hash ∉ x.unlocks
  provided : ∀ t ∈ tx.provides, ∀ g y, r.ready.get? g = some y → t ∈ y.requires →
    r.providedTags.get? t ≠ none
  acyclic : ∀ t ∈ tx.requires, ∀ p, r.providedTags.get? t = some p →
    ∀ h x, r.ready.get? h = some x → h ≠ root → x.provides ⊆ tx.provides →
      ¬Relation.TransGen r.Dep p h

section

omit [DecidableEq T]

theorem linked_bump (hinv : Linked r) : Linked r.bump :=
  { hinv with id_le := fun h x hx => Nat.le_succ_of_le (hinv.id_le h x hx) }

theorem sum_waitsFor (provided : FinMap T H) (tags : List T) {hashes : List H}
    (hnodup : hashes.Nodup) :
    (hashes.map (waitsFor provided tags)).sum =
      tags.countP fun t => decide (∃ h ∈ hashes, provided.get? t = some h) := by
  induction hashes with
  | nil => simp
  | cons h hashes ih =>
    obtain ⟨hnot, hnodup⟩ := nodup_cons.mp hnodup
    rw [map_cons, sum_cons, ih hnodup]
    clear ih
    induction tags with
    | nil => simp [waitsFor]
    | cons t tags iht =>
      simp only [waitsFor, countP_cons] at iht ⊢
      by_cases ht : provided.get? t = some h
      · have hrest : ¬∃ h' ∈ hashes, provided.get? t = some h' := by
          rintro ⟨h', hh', ht'⟩
          rw [ht] at ht'
          cases ht'
          exact hnot hh'
        simp only [ht, mem_cons, exists_eq_or_imp, decide_true, if_true, true_or] at iht hrest ⊢
        rw [decide_eq_false hrest]
        simp only [Bool.false_eq_true, if_false]
        omega
      · simp only [mem_cons, exists_eq_or_imp, ht, decide_false, false_or] at iht ⊢
        simp only [Bool.false_eq_true, if_false]
        omega

end

section

variable {tx : Transaction H T} {removed : List (Transaction H T)} {unlocks : List H} {root : H}

namespace Replaces

variable {g : H} {y : ReadyTx H T} {t : T}

section

variable (hrep : Replaces tx removed unlocks r r1)
include hrep

theorem inv (hinv : Linked r) : Inv (Kept (some tx.provides)) (fun _ => False) r1 :=
  hrep.removal.inv (hinv.keep _ _)

theorem ready (hinv : Linked r) (hy : r1.ready.get? g = some y) : r.ready.get? g = some y :=
  (hrep.removal.ready (hinv.keep _ fun _ => False)).2 g y hy

theorem provided (hinv : Linked r) :
    r1.providedTags.get? t = some g ↔ r.providedTags.get? t = some g ∧
      (t ∈ tx.provides ∨ r1.ready.get? g ≠ none) :=
  hrep.removal.provided (hinv.mapped.keep _)

theorem gone (ht : t ∈ tx.provides) (hprov : r.providedTags.get? t = some h) :
    r1.ready.get? h = none :=
  hrep.removal.gone h (mem_reverse.mpr (mem_replaceHashes.mpr ⟨t, ht, hprov⟩))

/-- What waits for a replaced transaction and stays finds all its tags at the new
one. -/
theorem subset_provides (hinv : Linked r) (hx : r.ready.get? h = some x)
    (hgone : r1.ready.get? h = none) (hy : r1.ready.get? g = some y) (ht : t ∈ y.requires)
    (hprov : r.providedTags.get? t = some h) : x.provides ⊆ tx.provides := by
  intro t' ht'
  by_contra hout
  -- otherwise `h` loses a tag, and everything it unlocks leaves with it
  have hinval : invalidated (some tx.provides) x ≠ [] :=
    ne_nil_of_mem (mem_invalidated.mpr ⟨ht', hout⟩)
  have hnone := hrep.removal.unlocked hx hgone hinval g
    (hinv.mem_unlocks hx (hrep.ready hinv hy) ht hprov)
  rw [hnone] at hy
  cases hy

theorem mem_provides_iff (hinv : Linked r) (hent : EntersWell root r tx)
    (hy : r1.ready.get? g = some y) (ht : t ∈ y.requires) :
    t ∈ tx.provides ↔ ∃ h ∈ r.replaceHashes tx, r.providedTags.get? t = some h := by
  constructor
  · intro htx
    obtain ⟨h, hh⟩ := ne_none_iff_exists'.mp (hent.provided t htx g y (hrep.ready hinv hy) ht)
    exact ⟨h, mem_replaceHashes.mpr ⟨t, htx, hh⟩, hh⟩
  · rintro ⟨h, hmem, hprov⟩
    obtain ⟨x, hx, hpx⟩ := hinv.mapped.ready_of_provided t h hprov
    obtain ⟨t', ht', hprov'⟩ := mem_replaceHashes.mp hmem
    exact hrep.subset_provides hinv hx (hrep.gone ht' hprov') hy ht hprov hpx

end

end Replaces

omit [DecidableEq T] in
theorem count_flatMap_unlocks {tags : List T} {hashes : List H}
    (hall : ∀ h ∈ hashes, ∃ x, r.ready.get? h = some x ∧
      x.unlocks.count g = waitsFor r.providedTags tags h) :
    ((hashes.filterMap r.ready.get?).flatMap (·.unlocks)).count g =
      (hashes.map (waitsFor r.providedTags tags)).sum := by
  induction hashes with
  | nil => simp
  | cons h hashes ih =>
    obtain ⟨⟨x, hx, hcount⟩, hrest⟩ := forall_mem_cons.mp hall
    rw [filterMap_cons_some hx, flatMap_cons, count_append, hcount, ih hrest, map_cons, sum_cons]

namespace Replaces

section

variable (hrep : Replaces tx removed unlocks r r1)
include hrep

theorem count_unlocks (hinv : Linked r) (hent : EntersWell root r tx)
    (hy : r1.ready.get? g = some y) :
    unlocks.count g = y.requires.countP fun t => decide (t ∈ tx.provides) := by
  have hready : ∀ h ∈ r.replaceHashes tx, ∃ x, r.ready.get? h = some x ∧
      x.unlocks.count g = waitsFor r.providedTags y.requires h := by
    intro h hmem
    obtain ⟨t, _, hprov⟩ := mem_replaceHashes.mp hmem
    obtain ⟨x, hx, _⟩ := hinv.mapped.ready_of_provided t h hprov
    exact ⟨x, hx, hinv.links h x g y hx (hrep.ready hinv hy)⟩
  have hnodup : (r.replaceHashes tx).Nodup := nodup_dedup _
  rw [hrep.unlocks, count_flatMap_unlocks hready, sum_waitsFor _ _ hnodup]
  refine countP_congr fun t ht => ?_
  rw [decide_eq_true_iff, decide_eq_true_iff]
  exact (hrep.mem_provides_iff hinv hent hy ht).symm

theorem hash_not_mem_unlocks (hent : EntersWell root r tx) : tx.hash ∉ unlocks := by
  rw [hrep.unlocks, mem_flatMap]
  rintro ⟨x, hx, hmem⟩
  obtain ⟨h, _, hget⟩ := mem_filterMap.mp hx
  exact hent.unlisted h x hget hmem

theorem provided_ne_hash (hinv : Linked r) (hnew : r.ready.get? tx.hash = none) (t : T) :
    r1.providedTags.get? t ≠ some tx.hash := by
  intro hprov
  obtain ⟨x, hx, _⟩ := hinv.mapped.ready_of_provided t tx.hash ((hrep.provided hinv).mp hprov).1
  rw [hnew] at hx
  cases hx

end

end Replaces

theorem Inserted.provided_of_requires (hwf : tx.WellFormed) (hins : Inserted tx unlocks r1 r')
    {t : T} (ht : t ∈ tx.requires) : r'.providedTags.get? t = r1.providedTags.get? t := by
  rw [hins.provided, if_neg fun htx => hwf.2.2 ht htx]

theorem Inserted.provided_eq_old (hinv : Linked r) (hrep : Replaces tx removed unlocks r r1)
    (hins : Inserted tx unlocks r1 r') (hg : g ≠ tx.hash) (hy : r1.ready.get? g = some y) (t : T) :
    r'.providedTags.get? t = some g ↔ r1.providedTags.get? t = some g := by
  rw [hins.provided]
  split
  · rename_i htx
    refine iff_of_false (fun heq => hg (some.inj heq).symm) fun hprov => ?_
    rw [hrep.gone htx ((hrep.provided hinv).mp hprov).1] at hy
    cases hy
  · rfl

/-- The new transaction waits for nothing in the queue, or an old one stands in
`best`. -/
theorem Inserted.best_iff (hinv : Linked r) (hnew : r.ready.get? tx.hash = none)
    (hrep : Replaces tx removed unlocks r r1) (hins : Inserted tx unlocks r1 r')
    (ref : TransactionRef H T) :
    (∃ g y, r'.ready.get? g = some y ∧ y.transaction = ref ∧ y.requiresOffset = y.requires.length) ↔
      (ref = ⟨tx, r1.insertionId⟩ ∧ ∀ t ∈ tx.requires, r1.providedTags.get? t = none) ∨
        ref ∈ r1.best := by
  rw [(hrep.inv hinv).best, ← unmet_eq_length]
  constructor
  · rintro ⟨g, y, hy, rfl, hoff⟩
    rcases hins.cases hy with ⟨rfl, rfl⟩ | ⟨hg, y1, hy1, rfl⟩
    · exact .inl ⟨rfl, hoff⟩
    · exact .inr ⟨g, y1, hy1, rfl, hoff⟩
  · rintro (⟨rfl, hall⟩ | ⟨g, y1, hy1, rfl, hoff⟩)
    · exact ⟨tx.hash, _, hins.self, rfl, hall⟩
    · have hg : g ≠ tx.hash := by
        rintro rfl
        rw [hrep.removal.get?_eq_none hnew] at hy1
        cases hy1
      have hy := hins.others g hg
      rw [hy1, map_some] at hy
      exact ⟨g, _, hy, rfl, hoff⟩

section

variable (hinv : Linked r) (hwf : tx.WellFormed) (hnew : r.ready.get? tx.hash = none)
include hinv hwf hnew

/-- **An import keeps the queue linked.** -/
theorem linked_insert
    (hfresh : ∀ h x, r.ready.get? h = some x → x.transaction.insertionId < r.insertionId)
    (hent : EntersWell root r tx) (hrep : Replaces tx removed unlocks r r1)
    (hins : Inserted tx unlocks r1 r') : Linked r' := by
  have hinv1 := hrep.inv hinv
  have hlt : ∀ g y1, r1.ready.get? g = some y1 → y1.transaction.insertionId < r1.insertionId := by
    intro g y1 hy1
    rw [(hrep.removal.ready (hinv.keep _ fun _ => False)).1]
    exact hfresh g y1 (hrep.ready hinv hy1)
  exact
    { mapped := hinv.mapped.insert hnew hrep hins
      wellFormed := by
        intro g y hy
        rcases hins.cases hy with ⟨rfl, rfl⟩ | ⟨_, y1, hy1, rfl⟩
        · exact hwf
        · exact hinv1.wellFormed g y1 hy1
      id_le := by
        intro g y hy
        rw [hins.insertionId]
        rcases hins.cases hy with ⟨rfl, rfl⟩ | ⟨_, y1, hy1, rfl⟩
        · exact Nat.le_refl _
        · exact hinv1.id_le g y1 hy1
      id_inj := by
        intro g y g' y' hy hy' hid
        rcases hins.cases hy with ⟨rfl, rfl⟩ | ⟨_, y1, hy1, rfl⟩ <;>
          rcases hins.cases hy' with ⟨rfl, rfl⟩ | ⟨_, y2, hy2, rfl⟩
        · rfl
        · exact absurd hid (Nat.ne_of_gt (hlt g' y2 hy2))
        · exact absurd hid (Nat.ne_of_lt (hlt g y1 hy1))
        · exact hinv1.id_inj g y1 g' y2 hy1 hy2 hid
      links := by
        intro h x g y hx hy
        rcases hins.cases hx with ⟨rfl, rfl⟩ | ⟨hh, x1, hx1, rfl⟩ <;>
          rcases hins.cases hy with ⟨rfl, rfl⟩ | ⟨hg, y1, hy1, rfl⟩
        · -- the new transaction does not wait for itself
          have hzero : unlocks.count tx.hash = 0 :=
            count_eq_zero.mpr (hrep.hash_not_mem_unlocks hent)
          rw [hzero]
          refine (waitsFor_eq_zero.mpr fun t ht => ?_).symm
          rw [hins.provided_of_requires hwf ht]
          exact hrep.provided_ne_hash hinv hnew t
        · -- it unlocks what the replaced ones did
          refine (hrep.count_unlocks hinv hent hy1).trans (countP_congr fun t _ => ?_)
          rw [decide_eq_true_iff, hins.provided]
          by_cases htx : t ∈ tx.provides
          · simp [htx]
          · simp [hrep.provided_ne_hash hinv hnew t]
        · -- it is listed once for each tag it requires
          have hzero : x1.unlocks.count tx.hash = 0 :=
            count_eq_zero.mpr (hent.unlisted h x1 (hrep.ready hinv hx1))
          have hcount : (pushLinks tx.hash (waitsFor r1.providedTags tx.requires h) x1).unlocks.count
              tx.hash = waitsFor r1.providedTags tx.requires h := by
            simp [pushLinks, hzero]
          rw [hcount]
          exact (waitsFor_congr fun t ht => by rw [hins.provided_of_requires hwf ht]).symm
        · -- between old transactions nothing changes
          have hcount : (pushLinks tx.hash (waitsFor r1.providedTags tx.requires h)
              x1).unlocks.count g = x1.unlocks.count g := by
            simp [pushLinks, count_replicate, Ne.symm hg]
          rw [hcount, hinv1.links h x1 g y1 hx1 hy1]
          exact (waitsFor_congr fun t _ => hins.provided_eq_old hinv hrep hh hx1 t).symm
      offset := by
        intro g y hy _
        rcases hins.cases hy with ⟨rfl, rfl⟩ | ⟨_, y1, hy1, rfl⟩
        · exact (unmet_congr fun t ht => by rw [hins.provided_of_requires hwf ht]).symm
        rw [pushLinks_requiresOffset, hinv1.offset g y1 hy1 id]
        refine (unmet_congr fun t ht => ?_).symm
        rw [hins.provided]
        split
        · -- the tag was provided before
          rename_i htx
          obtain ⟨h, _, hprov⟩ := (hrep.mem_provides_iff hinv hent hy1 ht).mp htx
          have hprov1 : r1.providedTags.get? t = some h :=
            (hrep.provided hinv).mpr ⟨hprov, .inl htx⟩
          simp [hprov1]
        · rfl
      best := by
        intro ref
        rw [hins.best_iff hinv hnew hrep, hins.best]
        split
        · rename_i hall
          rw [mem_insert fun ref' hmem hkey => ?_]
          · exact or_congr_left (iff_self_and.mpr fun _ => hall)
          · obtain ⟨g, y, hy, rfl, _⟩ := (hinv1.best ref').mp hmem
            exact absurd (key_inj_id hkey) (Nat.ne_of_lt (hlt g y hy))
        · rename_i hall
          exact ⟨.inr, fun h => h.resolve_left fun h => hall h.2⟩ }

/-! ## Cycles -/

section

variable (hent : EntersWell root r tx) (hrep : Replaces tx removed unlocks r r1)
  (hins : Inserted tx unlocks r1 r')
include hent hrep hins

/-- The new transaction waits for providers of its tags, what waits for it waited for a replaced
transaction all of whose tags it provides, and the others are old. -/
theorem Inserted.dep_cases (hdep : r'.Dep g h) :
    (g = tx.hash ∧ h ≠ tx.hash ∧ ∃ t ∈ tx.requires, r.providedTags.get? t = some h) ∨
      (g ≠ tx.hash ∧ h = tx.hash ∧ ∃ k x, r.ready.get? k = some x ∧ r1.ready.get? k = none ∧
        x.provides ⊆ tx.provides ∧ r.Dep g k) ∨
      (g ≠ tx.hash ∧ h ≠ tx.hash ∧ r.Dep g h) := by
  obtain ⟨y, t, hy, ht, hprov⟩ := hdep
  rcases hins.cases hy with ⟨rfl, rfl⟩ | ⟨hg, y1, hy1, rfl⟩
  · rw [hins.provided_of_requires hwf ht] at hprov
    left
    refine ⟨rfl, fun heq => hrep.provided_ne_hash hinv hnew t (heq ▸ hprov), t, ht, ?_⟩
    exact ((hrep.provided hinv).mp hprov).1
  right
  have hy0 := hrep.ready hinv hy1
  rw [hins.provided] at hprov
  split at hprov
  · rename_i htx
    left
    obtain ⟨k, _, hprovk⟩ := (hrep.mem_provides_iff hinv hent hy1 ht).mp htx
    obtain ⟨x, hx, _⟩ := hinv.mapped.ready_of_provided t k hprovk
    have hgone := hrep.gone htx hprovk
    exact ⟨hg, (some.inj hprov).symm, k, x, hx, hgone,
      hrep.subset_provides hinv hx hgone hy1 ht hprovk, y1, t, hy0, ht, hprovk⟩
  · right
    refine ⟨hg, fun heq => hrep.provided_ne_hash hinv hnew t (heq ▸ hprov), y1, t, hy0, ht, ?_⟩
    exact ((hrep.provided hinv).mp hprov).1

/-- **An import closes no cycle**, unless it replaces the root of the call. -/
theorem acyclic_insert (hacyclic : DependencyOrder.Acyclic r.Dep)
    (hroot : r1.ready.get? root = none → r.ready.get? root = none) :
    DependencyOrder.Acyclic r'.Dep := by
  -- above the new transaction is what waited for a transaction whose place it takes
  refine hacyclic.insert tx.hash
    (fun g => ∃ h x, r.ready.get? h = some x ∧ h ≠ root ∧ x.provides ⊆ tx.provides ∧
      Relation.TransGen r.Dep g h)
    (tx.requires.filterMap r.providedTags.get?) ?_ ?_ ?_ ?_
  · intro g h hg hh hdep
    rcases hins.dep_cases hinv hwf hnew hent hrep hdep with ⟨heq, _⟩ | ⟨_, heq, _⟩ | ⟨_, _, hdep⟩
    · exact absurd heq hg
    · exact absurd heq hh
    · exact hdep
  · intro g hdep
    rcases hins.dep_cases hinv hwf hnew hent hrep hdep with
      ⟨_, hne, _⟩ | ⟨_, _, k, x, hx, hgone, hsub, hdep⟩ | ⟨_, hne, _⟩
    · exact absurd rfl hne
    · refine ⟨k, x, hx, ?_, hsub, .single hdep⟩
      rintro rfl
      rw [hroot hgone] at hx
      cases hx
    · exact absurd rfl hne
  · rintro g h hg hh hdep ⟨k, x, hx, hk, hsub, htrans⟩
    rcases hins.dep_cases hinv hwf hnew hent hrep hdep with ⟨heq, _⟩ | ⟨_, heq, _⟩ | ⟨_, _, hdep⟩
    · exact absurd heq hg
    · exact absurd heq hh
    · exact ⟨k, x, hx, hk, hsub, .head hdep htrans⟩
  · intro h hdep
    rcases hins.dep_cases hinv hwf hnew hent hrep hdep with
      ⟨_, hne, t, ht, hprov⟩ | ⟨hne, _⟩ | ⟨hne, _⟩
    · refine ⟨hne, mem_filterMap.mpr ⟨t, ht, hprov⟩, ?_⟩
      rintro ⟨k, x, hx, hk, hsub, htrans⟩
      exact hent.acyclic t ht h hprov k x hx hk hsub htrans
    · exact absurd rfl hne
    · exact absurd rfl hne

end

end

end

/-! ## Pruning -/

/-- Those still to be unlocked are short of one tag for each time they are listed. -/
structure OffsetInv (provided : FinMap T H) (unlocks : List H) (ready : FinMap H (ReadyTx H T))
    (best : List (TransactionRef H T)) : Prop where
  key_inj : ∀ h x g y, ready.get? h = some x → ready.get? g = some y →
    x.transaction.key = y.transaction.key → h = g
  offset : ∀ g y, ready.get? g = some y →
    y.requiresOffset + unlocks.count g = unmet provided y.requires
  best : ∀ ref, ref ∈ best ↔ ∃ g y, ready.get? g = some y ∧ y.transaction = ref ∧
    y.requiresOffset = y.requires.length

section

omit [DecidableEq T]

theorem OffsetInv.step {provided} {hash : H} {unlocks : List H}
    (hinv : OffsetInv provided (hash :: unlocks) s.1 s.2) :
    OffsetInv provided unlocks (unlock s hash).1 (unlock s hash).2 := by
  cases hx : s.1.get? hash with
  | none =>
    rw [unlock_of_none hx]
    refine { hinv with offset := fun g y hy => ?_ }
    have hne : hash ≠ g := by
      rintro rfl
      rw [hx] at hy
      cases hy
    rw [← hinv.offset g y hy, count_cons_of_ne hne]
  | some x =>
    have hself := hinv.offset hash x hx
    rw [count_cons_self] at hself
    refine ⟨?_, ?_, ?_⟩
    · intro g y g' y' hy hy' hkey
      rcases unlock_get?_cases hx hy with ⟨rfl, rfl⟩ | ⟨_, hy0⟩ <;>
        rcases unlock_get?_cases hx hy' with ⟨rfl, rfl⟩ | ⟨_, hy0'⟩
      · rfl
      · exact hinv.key_inj g x g' y' hx hy0' hkey
      · exact hinv.key_inj g y g' x hy0 hx hkey
      · exact hinv.key_inj g y g' y' hy0 hy0' hkey
    · intro g y hy
      rcases unlock_get?_cases hx hy with ⟨rfl, rfl⟩ | ⟨hg, hy⟩
      · show x.requiresOffset + 1 + unlocks.count g = unmet provided x.requires
        omega
      · rw [← hinv.offset g y hy, count_cons_of_ne (Ne.symm hg)]
    · intro ref
      have hkey : ∀ ref' ∈ s.2, ref'.key = x.transaction.key → ref' = x.transaction := by
        intro ref' hmem hk
        obtain ⟨g, y, hy, rfl, _⟩ := (hinv.best ref').mp hmem
        have hg := hinv.key_inj g y hash x hy hx hk
        subst hg
        rw [hx] at hy
        cases hy
        rfl
      rw [mem_unlock_best hx hkey, hinv.best]
      constructor
      · rintro (⟨rfl, hlen⟩ | ⟨g, y, hy, rfl, hoff⟩)
        · exact ⟨hash, _, unlock_get?_self hx, rfl, hlen⟩
        · -- `hash` was short of a tag, so it was not in `best` yet
          have hg : g ≠ hash := by
            rintro rfl
            rw [hx] at hy
            cases hy
            have := unmet_le provided x.requires
            omega
          exact ⟨g, y, (unlock_get?_of_ne hg).trans hy, rfl, hoff⟩
      · rintro ⟨g, y, hy, rfl, hoff⟩
        rcases unlock_get?_cases hx hy with ⟨rfl, rfl⟩ | ⟨_, hy⟩
        · exact .inl ⟨rfl, hoff⟩
        · exact .inr ⟨g, y, hy, rfl, hoff⟩

theorem OffsetInv.foldl_unlock {provided} {unlocks : List H}
    (hinv : OffsetInv provided unlocks s.1 s.2) :
    OffsetInv provided [] (unlocks.foldl unlock s).1 (unlocks.foldl unlock s).2 := by
  induction unlocks generalizing s with
  | nil => exact hinv
  | cons hash unlocks ih => exact ih hinv.step

/-- Once the tags of `h` are cleared, what came from it is unmet. -/
theorem unmet_of_cleared {provided provided' : FinMap T H}
    (hclear : ∀ t, provided'.get? t = none ↔ provided.get? t = none ∨ provided.get? t = some h)
    (tags : List T) : unmet provided' tags = unmet provided tags + waitsFor provided tags h := by
  induction tags with
  | nil => rfl
  | cons t tags ih =>
    simp only [unmet, waitsFor, countP_cons, hclear] at ih ⊢
    cases provided.get? t with
    | none =>
      simp only [true_or, decide_true, if_true, reduceCtorEq, decide_false, Bool.false_eq_true,
        if_false]
      omega
    | some g =>
      simp only [reduceCtorEq, false_or, decide_false, Bool.false_eq_true, if_false]
      omega

end

section

variable (hinv : Linked r) (hx : r.ready.get? h = some x)
include hinv hx

theorem offsetInv_start {ready1 : FinMap H (ReadyTx H T)}
    (hsame : FinMap.Rel (fun _ => Unlinked h) (r.ready.erase h) ready1) (hpr : Pruned h x r r1) :
    OffsetInv r1.providedTags x.unlocks ready1 (remove key r.best x.transaction) := by
  have hold : ∀ g y', ready1.get? g = some y' → ∃ y, r.ready.get? g = some y ∧ g ≠ h ∧
      y'.transaction = y.transaction ∧ y'.requiresOffset = y.requiresOffset := by
    intro g y' hy'
    obtain ⟨y, hy, hrel, hoff, _⟩ := hsame.of_get? hy'
    obtain ⟨hg, hy⟩ := get?_erase_eq_some.mp hy
    exact ⟨y, hy, hg, hrel.1, hoff⟩
  have hcleared : ∀ t, r1.providedTags.get? t = none ↔
      r.providedTags.get? t = none ∨ r.providedTags.get? t = some h := by
    intro t
    rw [hpr.provided]
    split
    · rename_i ht
      simp [hinv.provided h x t hx ht]
    · rename_i ht
      exact ⟨.inl, fun hor => hor.resolve_right fun hg => ht (hinv.mem_provides hg hx)⟩
  refine ⟨?_, ?_, ?_⟩
  · intro g y' g' z' hy' hz' hkey
    obtain ⟨y, hy, _, htx, _⟩ := hold g y' hy'
    obtain ⟨z, hz, _, htx', _⟩ := hold g' z' hz'
    rw [htx, htx'] at hkey
    exact hinv.eq_of_key_eq hy hz hkey
  · intro g y' hy'
    obtain ⟨y, hy, _, htx, hoff⟩ := hold g y' hy'
    rw [unmet_of_cleared hcleared, hoff, requires, htx, hinv.offset g y hy id,
      hinv.links h x g y hx hy]
    rfl
  · intro ref
    rw [mem_remove, hinv.best]
    constructor
    · rintro ⟨⟨g, y, hy, rfl, hlen⟩, hkey⟩
      have hg : g ≠ h := by
        rintro rfl
        rw [hx] at hy
        cases hy
        exact hkey rfl
      obtain ⟨y', hy', ⟨htx, _⟩, hoff, _⟩ := hsame.get?_some (get?_erase_eq_some.mpr ⟨hg, hy⟩)
      refine ⟨g, y', hy', htx, ?_⟩
      rw [hoff, requires, htx]
      exact hlen
    · rintro ⟨g, y', hy', rfl, hlen⟩
      obtain ⟨y, hy, hg, htx, hoff⟩ := hold g y' hy'
      rw [htx]
      refine ⟨⟨g, y, hy, rfl, ?_⟩, fun hkey => hg (hinv.eq_of_key_eq hy hx hkey)⟩
      rw [hoff, requires, htx] at hlen
      exact hlen

/-- It is left with the transactions other than `h`, the tags of `h` cleared and the account
settled. -/
theorem linked_of_pruned (hpr : Pruned h x r r1) (hid : r1.insertionId = r.insertionId)
    (hoff : OffsetInv r1.providedTags [] r1.ready r1.best) : Linked r1 := by
  exact
    { mapped := hpr.mapped hinv.mapped hx
      wellFormed := by
        intro g y' hy'
        obtain ⟨_, y, hy, htx, _⟩ := hpr.of_get? hy'
        rw [htx]
        exact hinv.wellFormed g y hy
      id_le := by
        intro g y' hy'
        obtain ⟨_, y, hy, htx, _⟩ := hpr.of_get? hy'
        rw [htx, hid]
        exact hinv.id_le g y hy
      id_inj := by
        intro g y' g' z' hy' hz' hsame
        obtain ⟨_, y, hy, htx, _⟩ := hpr.of_get? hy'
        obtain ⟨_, z, hz, htx', _⟩ := hpr.of_get? hz'
        rw [htx, htx'] at hsame
        exact hinv.id_inj g y g' z hy hz hsame
      links := by
        intro g y' g' z' hy' hz'
        obtain ⟨hg, y, hy, _, hcount⟩ := hpr.of_get? hy'
        obtain ⟨hg', z, hz, htx', _⟩ := hpr.of_get? hz'
        rw [hcount g' hg', hinv.links g y g' z hy hz, requires, requires, htx']
        refine (waitsFor_congr fun t _ => ?_).symm
        rw [hpr.provided_some hinv.mapped hx]
        exact and_iff_left hg
      offset := by
        intro g y' hy' _
        have := hoff.offset g y' hy'
        rwa [count_nil] at this
      best := hoff.best }

theorem linked_pruneOne {tag : T} {toRemove toRemove' : List T} (htag : tag ∈ x.provides)
    (hone : pruneOne tag x toRemove (r.withoutProvider tag h) = some (toRemove', r1)) :
    Linked r1 := by
  have hhash := hinv.keyed h x hx
  have hpr := pruneOne_some hhash hx htag hone
  subst hhash
  have hsame := foldl_findPrevious x.hash (r.providedTags.erase tag) x.requires
    (r.ready.erase x.hash, toRemove)
  have hsettled := (offsetInv_start hinv hx hsame hpr).foldl_unlock (s := (_, _))
  simp only [pruneOne, withoutProvider, map_eq_some_iff, Prod.mk.injEq] at hone
  obtain ⟨provided', _, _, rfl⟩ := hone
  exact linked_of_pruned hinv hx hpr rfl hsettled

end

theorem Pruning.linked {stack : List T} {removed} (hpr : Pruning r stack removed r')
    (hinv : Linked r) : Linked r' := by
  induction hpr with
  | done _ => exact hinv
  | step hx htag _ _ _ hone _ ih => exact ih (linked_pruneOne hinv hx htag hone)

end ReadyTransactions

end Substrate.TxPool
