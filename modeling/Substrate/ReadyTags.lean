import Substrate.ReadyTransactions

/-!
# The tags of the ready queue

A tag is mapped to the ready transaction that provides it, whatever the transactions are. `Mapped`
states this alone, without the links and without a condition on the lists of tags.

A removal is told as the list of its rounds (`Removal`); each fact about removals is an induction
over them.
-/

namespace Substrate.TxPool

open List FinMap ReadyTx

variable {H T : Type} [DecidableEq H] {vec : List H} {item b : H}

theorem count_removeItem (hb : b ≠ item) : (removeItem vec item).count b = vec.count b := by
  unfold removeItem
  split
  · rename_i idx hidx
    obtain ⟨hlt, hitem, _⟩ := List.findIdx?_eq_some_iff_getElem.mp hidx
    have hget : vec[idx]? = some item := by
      rw [List.getElem?_eq_getElem hlt, of_decide_eq_true hitem]
    have hperm := (Vec.cons_swapRemove_perm hget).count_eq b
    rwa [count_cons_of_ne (Ne.symm hb)] at hperm
  · rfl

theorem mem_of_mem_removeItem (hb : b ∈ removeItem vec item) : b ∈ vec := by
  unfold removeItem at hb
  split at hb
  · rename_i idx hidx
    obtain ⟨hlt, _⟩ := List.findIdx?_eq_some_iff_getElem.mp hidx
    exact Vec.mem_of_mem_swapRemove (List.getElem?_eq_getElem hlt) hb
  · exact hb

theorem mem_removeItem_of_ne (hb : b ∈ vec) (hne : b ≠ item) : b ∈ removeItem vec item := by
  rw [← count_pos_iff, count_removeItem hne, count_pos_iff]
  exact hb

namespace ReadyTransactions

variable {stale : T → Prop} {filter : Option (List T)} {r r1 r' : ReadyTransactions H T}

/-- The tags in `stale` may be mapped to transactions that are gone. -/
structure Mapped (stale : T → Prop) (r : ReadyTransactions H T) : Prop where
  keyed : ∀ h x, r.ready.get? h = some x → x.hash = h
  provided : ∀ h x t, r.ready.get? h = some x → t ∈ x.provides → r.providedTags.get? t = some h
  provider : ∀ t h, r.providedTags.get? t = some h →
    (∃ x, r.ready.get? h = some x ∧ t ∈ x.provides) ∨ stale t ∧ r.ready.get? h = none

omit [DecidableEq H] in
theorem mapped_empty : Mapped (fun _ => False) (empty : ReadyTransactions H T) where
  keyed := by simp [empty]
  provided := by simp [empty]
  provider := by simp [empty]

def Kept : Option (List T) → T → Prop
  | none => fun _ => False
  | some tags => fun t => t ∈ tags

variable {t : T} {ready : FinMap H (ReadyTx H T)} {g : H}

variable [DecidableEq T]

omit [DecidableEq H] in
theorem mem_invalidated {x : ReadyTx H T} :
    t ∈ invalidated filter x ↔ t ∈ x.provides ∧ ¬Kept filter t := by
  cases filter <;> simp [invalidated, Kept]

namespace Mapped

section

variable (hinv : Mapped (fun _ => False) r)
include hinv

section

omit [DecidableEq H] [DecidableEq T]

theorem keep (filter : Option (List T)) :
    Mapped (Kept filter) r :=
  { hinv with
    provider := fun t h hprov => .inl ((hinv.provider t h hprov).resolve_right fun hs => hs.1) }

theorem ready_of_provided (t : T) (h : H) (hprov : r.providedTags.get? t = some h) :
    ∃ x, r.ready.get? h = some x ∧ t ∈ x.provides :=
  (hinv.provider t h hprov).resolve_right fun hs => hs.1

end

omit [DecidableEq H] [DecidableEq T] in
theorem provided_eq_none_iff :
    r.providedTags.get? t = none ↔ ∀ h x, r.ready.get? h = some x → t ∉ x.provides := by
  constructor
  · intro hnone h x hx ht
    rw [hinv.provided h x t hx ht] at hnone
    cases hnone
  · intro hall
    cases hprov : r.providedTags.get? t with
    | none => rfl
    | some h =>
      obtain ⟨x, hx, ht⟩ := hinv.ready_of_provided t h hprov
      exact absurd ht (hall h x hx)

end

end Mapped

/-! ## Removing one transaction -/

/-- Up to offsets and to transactions listed in their own `unlocks`. -/
abbrev Thinned (ready ready' : FinMap H (ReadyTx H T)) : Prop :=
  FinMap.Rel (fun g y y' => y'.transaction = y.transaction ∧
    (∀ k ∈ y'.unlocks, k ∈ y.unlocks) ∧ ∀ k ∈ y.unlocks, k ≠ g → k ∈ y'.unlocks) ready ready'

omit [DecidableEq T] in
theorem thinned_foldl (provided : FinMap T H) (tags : List T) (ready : FinMap H (ReadyTx H T)) :
    Thinned ready (tags.foldl (removeFromUnlocks provided) ready) := by
  have hrefl : ∀ (g : H) (y : ReadyTx H T), y.transaction = y.transaction ∧
      (∀ k ∈ y.unlocks, k ∈ y.unlocks) ∧ ∀ k ∈ y.unlocks, k ≠ g → k ∈ y.unlocks :=
    fun _ _ => ⟨rfl, fun _ h => h, fun _ h _ => h⟩
  refine Rel.foldl hrefl (fun _ _ _ _ hrel hrel' => ⟨hrel'.1.trans hrel.1,
    fun k hk => hrel.2.1 k (hrel'.2.1 k hk),
    fun k hk hne => hrel'.2.2 k (hrel.2.2 k hk hne) hne⟩) id (fun ready tag => ?_) tags ready
  unfold removeFromUnlocks
  split
  · exact .refl hrefl ready
  split
  · exact .refl hrefl ready
  · rename_i hx
    exact .insert hrefl hx ⟨rfl, fun k hk => mem_of_mem_removeItem hk,
      fun k hk hne => mem_removeItem_of_ne hk hne⟩

variable {h : H} {x : ReadyTx H T}

theorem removeOne_provided (h : H) (x : ReadyTx H T) (r : ReadyTransactions H T) (t : T) :
    (removeOne filter h x r).providedTags.get? t =
      if t ∈ invalidated filter x then none else r.providedTags.get? t :=
  get?_foldl_erase ..

theorem thinned_removeOne : Thinned (r.ready.erase h) (removeOne filter h x r).ready :=
  thinned_foldl _ _ _

theorem removeOne_get?_hash : (removeOne filter h x r).ready.get? h = none := by
  rw [thinned_removeOne.get?_eq_none_iff, get?_erase, Function.update_self]

theorem removeOne_get?_eq_none_iff (hg : g ≠ h) :
    (removeOne filter h x r).ready.get? g = none ↔ r.ready.get? g = none := by
  rw [thinned_removeOne.get?_eq_none_iff, get?_erase, Function.update_of_ne hg]

theorem removeOne_get?_cases {y'} (hy' : (removeOne filter h x r).ready.get? g = some y') :
    ∃ y, r.ready.get? g = some y ∧ y'.transaction = y.transaction ∧
      (∀ k ∈ y'.unlocks, k ∈ y.unlocks) ∧ ∀ k ∈ y.unlocks, k ≠ g → k ∈ y'.unlocks := by
  obtain ⟨y, hy, hrel⟩ := thinned_removeOne.of_get? hy'
  exact ⟨y, (get?_erase_eq_some.mp hy).2, hrel⟩

theorem len_removeOne_add_one (filter : Option (List T)) (hx : r.ready.get? h = some x) :
    (removeOne filter h x r).len + 1 = r.len := by
  rw [len, thinned_removeOne.length_keys]
  exact length_keys_erase hx

theorem Mapped.removeOne_provided (hinv : Mapped (Kept filter) r) (hx : r.ready.get? h = some x) :
    (removeOne filter h x r).providedTags.get? t = some g ↔ r.providedTags.get? t = some g ∧
        (Kept filter t ∨ (removeOne filter h x r).ready.get? g ≠ none) := by
  rw [ReadyTransactions.removeOne_provided]
  by_cases hinval : t ∈ invalidated filter x
  · obtain ⟨ht, hkept⟩ := mem_invalidated.mp hinval
    rw [if_pos hinval, hinv.provided h x t hx ht]
    constructor
    · intro hnone
      cases hnone
    · rintro ⟨heq, hk | hready⟩
      · exact absurd hk hkept
      · cases heq
        exact absurd removeOne_get?_hash hready
  · rw [if_neg hinval, iff_self_and]
    intro hprov
    by_cases hkept : Kept filter t
    · exact .inl hkept
    -- the provider of `t` is ready and not `h`, whose tags outside the filter are invalidated
    rcases hinv.provider t g hprov with ⟨y, hy, ht⟩ | ⟨hst, _⟩
    · have hne : g ≠ h := by
        rintro rfl
        rw [hx] at hy
        cases hy
        exact hinval (mem_invalidated.mpr ⟨ht, hkept⟩)
      refine .inr fun hnone => ?_
      rw [removeOne_get?_eq_none_iff hne, hy] at hnone
      cases hnone
    · exact absurd hst hkept

omit [DecidableEq H] [DecidableEq T] in
theorem Mapped.shrink (hinv : Mapped stale r)
    (hready : ∀ g y', r'.ready.get? g = some y' → ∃ y, r.ready.get? g = some y ∧
      y'.transaction = y.transaction)
    (hprovided : ∀ t g, r'.providedTags.get? t = some g ↔
      r.providedTags.get? t = some g ∧ (stale t ∨ r'.ready.get? g ≠ none)) : Mapped stale r' where
  keyed := by
    intro g y' hy'
    obtain ⟨y, hy, htx⟩ := hready g y' hy'
    rw [ReadyTx.hash, htx]
    exact hinv.keyed g y hy
  provided := by
    intro g y' t hy' ht
    obtain ⟨y, hy, htx⟩ := hready g y' hy'
    rw [provides, htx] at ht
    exact (hprovided t g).mpr ⟨hinv.provided g y t hy ht, .inr (by simp [hy'])⟩
  provider := by
    intro t g hprov
    obtain ⟨hprov, hkept⟩ := (hprovided t g).mp hprov
    cases hy' : r'.ready.get? g with
    | none => exact .inr ⟨hkept.resolve_right fun hne => hne hy', rfl⟩
    | some y' =>
      obtain ⟨y, hy, htx⟩ := hready g y' hy'
      rcases hinv.provider t g hprov with ⟨y0, hy0, ht⟩ | ⟨_, hnone⟩
      · rw [hy] at hy0
        cases hy0
        refine .inl ⟨y', rfl, ?_⟩
        rw [provides, htx]
        exact ht
      · rw [hy] at hnone
        cases hnone

theorem Mapped.removeOne (hinv : Mapped (Kept filter) r) (hx : r.ready.get? h = some x) :
    Mapped (Kept filter) (removeOne filter h x r) := by
  refine hinv.shrink (fun g y' hy' => ?_) fun t g => hinv.removeOne_provided hx
  obtain ⟨y, hy, htx, _⟩ := removeOne_get?_cases hy'
  exact ⟨y, hy, htx⟩

/-! ## Removing subtrees -/

/-- From the queue `r` with a stack of hashes: the transactions taken out and the queue at the end.
-/
inductive Removal (filter : Option (List T)) : ReadyTransactions H T → List H →
    List (Transaction H T) → ReadyTransactions H T → Prop
  | done {r stack} (hnone : ∀ g ∈ stack, r.ready.get? g = none) : Removal filter r stack [] r
  | step {r r' stack rest} {h : H} {x} {removed} (hx : r.ready.get? h = some x) (hmem : h ∈ stack)
      (hstack : ∀ g ∈ stack, g = h ∨ g ∈ rest ∨ r.ready.get? g = none)
      (hrest : ∀ g ∈ rest, g ∈ stack) (hnext : Removal filter (removeOne filter h x r)
        (if (invalidated filter x).isEmpty then rest else x.unlocks.reverse ++ rest) removed r') :
      Removal filter r stack (x.transaction.transaction :: removed) r'

omit [DecidableEq H] [DecidableEq T] in
theorem popReady_cases (ready : FinMap H (ReadyTx H T)) (stack : List H) :
    (popReady ready stack = none ∧ ∀ g ∈ stack, ready.get? g = none) ∨
      ∃ h x rest, popReady ready stack = some (h, x, rest) ∧ ready.get? h = some x ∧ h ∈ stack ∧
        (∀ g ∈ rest, g ∈ stack) ∧ ∀ g ∈ stack, g = h ∨ g ∈ rest ∨ ready.get? g = none := by
  induction stack with
  | nil => exact .inl ⟨rfl, by simp⟩
  | cons head stack ih =>
    simp only [popReady]
    cases hget : ready.get? head with
    | none =>
      refine ih.imp (fun ih => ⟨ih.1, forall_mem_cons.mpr ⟨hget, ih.2⟩⟩) ?_
      rintro ⟨h, x, rest, hpop, hx, hmem, hrest, hstack⟩
      exact ⟨h, x, rest, hpop, hx, mem_cons_of_mem _ hmem, fun g hg => mem_cons_of_mem _ (hrest g hg),
        forall_mem_cons.mpr ⟨.inr (.inr hget), hstack⟩⟩
    | some x =>
      exact .inr ⟨head, x, stack, rfl, hget, mem_cons_self, fun g hg => mem_cons_of_mem _ hg,
        forall_mem_cons.mpr ⟨.inl rfl, fun g hg => .inr (.inl hg)⟩⟩

theorem removal_of_removeLoop (filter : Option (List T)) {fuel : Nat} (stack : List H)
    (removed : List (Transaction H T)) (hfuel : r.len ≤ fuel) :
    ∃ more, (removeLoop filter fuel r stack removed).1 = removed ++ more ∧
      Removal filter r stack more (removeLoop filter fuel r stack removed).2 := by
  induction fuel generalizing r stack removed with
  | zero =>
    have hnone : ∀ g, r.ready.get? g = none := by
      rw [← FinMap.isEmpty_iff, FinMap.isEmpty, isEmpty_iff_length_eq_zero]
      exact Nat.le_zero.mp hfuel
    exact ⟨[], by simp [removeLoop], .done fun g _ => hnone g⟩
  | succ fuel ih =>
    rcases popReady_cases r.ready stack with
      ⟨hpop, hnone⟩ | ⟨h, x, rest, hpop, hx, hmem, hrest, hstack⟩
    · simp only [removeLoop, hpop]
      exact ⟨[], by simp, .done hnone⟩
    · have hlen := len_removeOne_add_one filter hx
      simp only [removeLoop, hpop]
      obtain ⟨more, heq, hremoval⟩ := ih (r := removeOne filter h x r)
        (if (invalidated filter x).isEmpty then rest else x.unlocks.reverse ++ rest)
        (removed ++ [x.transaction.transaction]) (by omega)
      exact ⟨x.transaction.transaction :: more, by rw [heq]; simp,
        .step hx hmem hstack hrest hremoval⟩

theorem removal_of_removeSubtree (r : ReadyTransactions H T) (hashes : List H)
    (filter : Option (List T)) :
    Removal filter r hashes.reverse (r.removeSubtreeWithTagFilter hashes filter).1
      (r.removeSubtreeWithTagFilter hashes filter).2 := by
  unfold removeSubtreeWithTagFilter
  obtain ⟨more, heq, hremoval⟩ := removal_of_removeLoop filter hashes.reverse [] (Nat.le_refl r.len)
  rw [heq]
  exact hremoval

omit [DecidableEq H] in
theorem mem_nextStack {rest : List H} :
    g ∈ (if (invalidated filter x).isEmpty then rest else x.unlocks.reverse ++ rest) ↔
      g ∈ rest ∨ invalidated filter x ≠ [] ∧ g ∈ x.unlocks := by
  by_cases hempty : invalidated filter x = []
  · simp [hempty]
  · simp [hempty, or_comm]

structure Shrinks (r r' : ReadyTransactions H T) : Prop where
  ready : ∀ g y', r'.ready.get? g = some y' → ∃ y, r.ready.get? g = some y ∧
    y'.transaction = y.transaction
  provided : ∀ t h, r'.providedTags.get? t = some h → r.providedTags.get? t = some h

namespace Shrinks

section

omit [DecidableEq H] [DecidableEq T]

theorem refl (r : ReadyTransactions H T) : Shrinks r r :=
  ⟨fun _ y hy => ⟨y, hy, rfl⟩, fun _ _ h => h⟩

theorem trans (h : Shrinks r r1) (h' : Shrinks r1 r') : Shrinks r r' where
  ready := by
    intro g y' hy'
    obtain ⟨y1, hy1, heq1⟩ := h'.ready g y' hy'
    obtain ⟨y, hy, heq⟩ := h.ready g y1 hy1
    exact ⟨y, hy, heq1.trans heq⟩
  provided := fun t g hprov => h.provided t g (h'.provided t g hprov)

theorem get?_eq_none (h : Shrinks r r') (hg : r.ready.get? g = none) : r'.ready.get? g = none := by
  cases hg' : r'.ready.get? g with
  | none => rfl
  | some y' =>
    obtain ⟨y, hy, _⟩ := h.ready g y' hg'
    rw [hg] at hy
    cases hy

theorem provided_eq_none (h : Shrinks r r') (ht : r.providedTags.get? t = none) :
    r'.providedTags.get? t = none := by
  cases ht' : r'.providedTags.get? t with
  | none => rfl
  | some g => rw [h.provided t g ht'] at ht; cases ht

end

end Shrinks

namespace Removal

variable {stack : List H} {removed : List (Transaction H T)}

section

variable (hrem : Removal filter r stack removed r')
include hrem

theorem mapped (hinv : Mapped (Kept filter) r) : Mapped (Kept filter) r' := by
  induction hrem with
  | done _ => exact hinv
  | step hx _ _ _ _ ih => exact ih (hinv.removeOne hx)

theorem of_get? {y'} (hy' : r'.ready.get? g = some y') : ∃ y, r.ready.get? g = some y ∧
      y'.transaction = y.transaction ∧ (∀ k ∈ y'.unlocks, k ∈ y.unlocks) ∧
      ∀ k ∈ y.unlocks, k ≠ g → k ∈ y'.unlocks := by
  induction hrem with
  | done _ => exact ⟨y', hy', rfl, fun _ h => h, fun _ h _ => h⟩
  | step _ _ _ _ _ ih =>
    obtain ⟨y1, hy1, htx, hsub, hsup⟩ := ih hy'
    obtain ⟨y, hy, htx1, hsub1, hsup1⟩ := removeOne_get?_cases hy1
    exact ⟨y, hy, htx.trans htx1, fun k hk => hsub1 k (hsub k hk),
      fun k hk hne => hsup k (hsup1 k hk hne) hne⟩

theorem get?_eq_none (hg : r.ready.get? g = none) : r'.ready.get? g = none := by
  cases hy' : r'.ready.get? g with
  | none => rfl
  | some y' =>
    obtain ⟨y, hy, _⟩ := hrem.of_get? hy'
    rw [hg] at hy
    cases hy

theorem gone : ∀ g ∈ stack, r'.ready.get? g = none := by
  induction hrem with
  | done hnone => exact hnone
  | @step r r' stack rest h x removed _ _ hstack _ hnext ih =>
    intro g hg
    by_cases heq : g = h
    · exact heq ▸ hnext.get?_eq_none removeOne_get?_hash
    rcases hstack g hg with h | hmem | hnone
    · exact absurd h heq
    · exact ih g (mem_nextStack.mpr (.inl hmem))
    · exact hnext.get?_eq_none ((removeOne_get?_eq_none_iff heq).mpr hnone)

theorem mem_removed_iff (hkeyed : ∀ h x, r.ready.get? h = some x → x.hash = h) (g : H) :
    g ∈ removed.map (·.hash) ↔ r.ready.get? g ≠ none ∧ r'.ready.get? g = none := by
  induction hrem with
  | done _ => simp
  | @step r r' stack rest h x removed hx _ _ _ hnext ih =>
    have hkeyed1 : ∀ g y, (removeOne filter h x r).ready.get? g = some y → y.hash = g := by
      intro g y' hy'
      obtain ⟨y, hy, htx, _⟩ := removeOne_get?_cases hy'
      rw [ReadyTx.hash, htx]
      exact hkeyed g y hy
    have hhash : x.transaction.transaction.hash = h := hkeyed h x hx
    rw [map_cons, mem_cons, ih hkeyed1, hhash]
    by_cases hg : g = h
    · subst hg
      simp [hx, hnext.get?_eq_none removeOne_get?_hash]
    · simp [hg, removeOne_get?_eq_none_iff hg]

theorem provided (hinv : Mapped (Kept filter) r) : r'.providedTags.get? t = some g ↔
      r.providedTags.get? t = some g ∧ (Kept filter t ∨ r'.ready.get? g ≠ none) := by
  induction hrem with
  | done _ =>
    rw [iff_self_and]
    intro hprov
    rcases hinv.provider t g hprov with ⟨y, hy, _⟩ | ⟨hkept, _⟩
    · exact .inr (by simp [hy])
    · exact .inl hkept
  | step hx _ _ _ hnext ih =>
    rw [ih (hinv.removeOne hx), hinv.removeOne_provided hx]
    constructor
    · rintro ⟨⟨hprov, _⟩, hkept⟩
      exact ⟨hprov, hkept⟩
    · rintro ⟨hprov, hkept⟩
      exact ⟨⟨hprov, hkept.imp_right fun hne hnone => hne (hnext.get?_eq_none hnone)⟩, hkept⟩

/-- Nothing but the stack goes if the filter keeps all tags of what is on it. -/
theorem mem_stack
    (hkept : ∀ g ∈ stack, ∀ y, r.ready.get? g = some y → ∀ t ∈ y.provides, Kept filter t)
    (hg : r.ready.get? g ≠ none) (hnone : r'.ready.get? g = none) : g ∈ stack := by
  induction hrem with
  | done _ => exact absurd hnone hg
  | @step r r' stack rest h x removed hx hmem _ hrest hnext ih =>
    by_cases heq : g = h
    · exact heq ▸ hmem
    have hempty : invalidated filter x = [] := by
      rw [eq_nil_iff_forall_not_mem]
      intro t ht
      obtain ⟨ht, hnot⟩ := mem_invalidated.mp ht
      exact hnot (hkept h hmem x hx t ht)
    refine hrest g ?_
    rw [if_pos (by rw [hempty]; rfl)] at ih
    refine ih ?_ (fun hnone' => hg ((removeOne_get?_eq_none_iff heq).mp hnone')) hnone
    intro k hk y' hy' t ht
    obtain ⟨y, hy, htx, _⟩ := removeOne_get?_cases hy'
    rw [provides, htx] at ht
    exact hkept k (hrest k hk) y hy t ht

theorem unlocked {y} (hy : r.ready.get? g = some y) (hnone : r'.ready.get? g = none)
    (hinval : invalidated filter y ≠ []) : ∀ k ∈ y.unlocks, r'.ready.get? k = none := by
  induction hrem generalizing y with
  | done _ =>
    rw [hy] at hnone
    cases hnone
  | @step r r' stack rest h x removed hx _ _ _ hnext ih =>
    intro k hk
    by_cases heq : g = h
    · subst heq
      rw [hx] at hy
      cases hy
      exact hnext.gone k (mem_nextStack.mpr (.inr ⟨hinval, hk⟩))
    cases hy1 : (removeOne filter h x r).ready.get? g with
    | none =>
      rw [removeOne_get?_eq_none_iff heq, hy] at hy1
      cases hy1
    | some y1 =>
      obtain ⟨y0, hy0, htx, _, hsup⟩ := removeOne_get?_cases hy1
      rw [hy] at hy0
      cases hy0
      by_cases hkg : k = g
      · exact hkg ▸ hnone
      · refine ih hy1 hnone ?_ k (hsup k hk hkg)
        unfold invalidated at hinval ⊢
        rwa [provides, htx]

end

theorem shrinks (hrem : Removal none r stack removed r') (hinv : Mapped (fun _ => False) r) :
    Shrinks r r' where
  ready := by
    intro g y' hy'
    obtain ⟨y, hy, htx, _⟩ := hrem.of_get? hy'
    exact ⟨y, hy, htx⟩
  provided := fun t h hprov => ((hrem.provided (hinv.keep none)).mp hprov).1

end Removal

end ReadyTransactions

end Substrate.TxPool
