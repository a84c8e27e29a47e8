import Substrate.ReadyTags

/-!
# Pruning tags of the ready queue

`prune_tags` takes the provider of a tag out of the queue and leaves what waited for it: its links
become tags met from outside, one by one, and a transaction that then waits for nothing goes to
`best`. A pruning is told as the list of its rounds (`Pruning`).
-/

namespace Substrate.TxPool

open Function List FinMap Option ReadyTx

variable {H T : Type} [DecidableEq H]

namespace ReadyTransactions

variable {r r₁ r' : ReadyTransactions H T} {h : H} {x : ReadyTx H T}

/-- Up to how often `h` is listed and the offset. -/
def Relinked (h : H) (x x' : ReadyTx H T) : Prop :=
  x'.transaction = x.transaction ∧ ∀ b, b ≠ h → x'.unlocks.count b = x.unlocks.count b

abbrev SameQueue (h : H) (ready ready' : FinMap H (ReadyTx H T)) : Prop :=
  FinMap.Rel (fun _ => Relinked h) ready ready'

variable {g : H} {provided : FinMap T H}

/-! ## Unlinking from the providers -/

/-- Fewer links, and with those to other transactions than `h`. -/
def Unlinked (h : H) (x x' : ReadyTx H T) : Prop :=
  Relinked h x x' ∧ x'.requiresOffset = x.requiresOffset ∧ x'.unlocks ⊆ x.unlocks

theorem foldl_findPrevious (h : H) (provided : FinMap T H) (tags : List T)
    (s : FinMap H (ReadyTx H T) × List T) :
    FinMap.Rel (fun _ => Unlinked h) s.1 (tags.foldl (findPrevious h provided) s).1 := by
  have hrefl : ∀ (_ : H) (x : ReadyTx H T), Unlinked h x x :=
    fun _ _ => ⟨⟨rfl, fun _ _ => rfl⟩, rfl, fun _ hb => hb⟩
  refine Rel.foldl hrefl (fun _ _ _ _ h1 h2 => ⟨⟨h2.1.1.trans h1.1.1,
    fun b hb => (h2.1.2 b hb).trans (h1.1.2 b hb)⟩, h2.2.1.trans h1.2.1,
    fun _ hb => h1.2.2 (h2.2.2 hb)⟩) Prod.fst (fun s tag => ?_) tags s
  unfold findPrevious
  split
  · exact .refl hrefl s.1
  split
  · exact .refl hrefl s.1
  · rename_i hx
    exact .insert hrefl hx ⟨⟨rfl, fun b hb => count_removeItem hb⟩, rfl,
      fun _ hb => mem_of_mem_removeItem hb⟩

/-! ## Unlocking what waited -/

section

variable {s : FinMap H (ReadyTx H T) × List (TransactionRef H T)} {hash g : H} {x y : ReadyTx H T}

theorem unlock_of_none (hx : s.1.get? hash = none) : unlock s hash = s := by
  simp [unlock, hx]

theorem unlock_get?_of_ne (hg : g ≠ hash) : (unlock s hash).1.get? g = s.1.get? g := by
  unfold unlock
  split
  · rfl
  · rw [get?_insert, update_of_ne hg]

section

variable (hx : s.1.get? hash = some x)
include hx

theorem unlock_get?_self :
    (unlock s hash).1.get? hash = some { x with requiresOffset := x.requiresOffset + 1 } := by
  simp [unlock, hx]

theorem unlock_get?_cases (hy : (unlock s hash).1.get? g = some y) :
    (g = hash ∧ y = { x with requiresOffset := x.requiresOffset + 1 }) ∨
      g ≠ hash ∧ s.1.get? g = some y := by
  by_cases hg : g = hash
  · subst hg
    rw [unlock_get?_self hx, some.injEq] at hy
    exact .inl ⟨rfl, hy.symm⟩
  · rw [unlock_get?_of_ne hg] at hy
    exact .inr ⟨hg, hy⟩

theorem mem_unlock_best (hkey : ∀ ref ∈ s.2, ref.key = x.transaction.key → ref = x.transaction)
    {ref} :
    ref ∈ (unlock s hash).2 ↔
      (ref = x.transaction ∧ x.requiresOffset + 1 = x.requires.length) ∨ ref ∈ s.2 := by
  simp only [unlock, hx]
  split
  · rename_i hlen
    rw [OrdSet.mem_insert hkey]
    exact or_congr_left (iff_self_and.mpr fun _ => hlen)
  · rename_i hlen
    exact ⟨.inr, fun h => h.resolve_left fun h => hlen h.2⟩

end

end

theorem foldl_unlock_same (unlocks : List H)
    (s : FinMap H (ReadyTx H T) × List (TransactionRef H T)) :
    FinMap.Rel (fun _ x x' => x'.transaction = x.transaction ∧ x'.unlocks = x.unlocks) s.1
      (unlocks.foldl unlock s).1 := by
  have hrefl : ∀ (_ : H) (x : ReadyTx H T), x.transaction = x.transaction ∧ x.unlocks = x.unlocks :=
    fun _ _ => ⟨rfl, rfl⟩
  refine Rel.foldl hrefl (fun _ _ _ _ h1 h2 => ⟨h2.1.trans h1.1, h2.2.trans h1.2⟩) Prod.fst
    (fun s hash => ?_) unlocks s
  unfold unlock
  split
  · exact .refl hrefl s.1
  · rename_i hx
    exact .insert hrefl hx ⟨rfl, rfl⟩

/-! ## Clearing the tags -/

variable [DecidableEq T]

theorem clearTags_some {hash : H} {current : T} {tags : List T} {provided'}
    (hclear : clearTags hash current tags provided = some provided') (t : T) :
    provided'.get? t = if t ∈ tags then none else provided.get? t := by
  induction tags generalizing provided with
  | nil =>
    cases hclear
    simp
  | cons tag tags ih =>
    by_cases hasserted : provided.get? tag = if current = tag then none else some hash
    · rw [clearTags, if_pos hasserted] at hclear
      rw [ih hclear]
      by_cases ht : t = tag <;> simp [ht]
    · rw [clearTags, if_neg hasserted] at hclear
      cases hclear

/-- They hold if no tag but the current one is listed twice. -/
theorem clearTags_ne_none {hash : H} {current : T} {tags : List T}
    (hone : ∀ t ∈ tags, t ≠ current → tags.count t = 1)
    (hmapped : ∀ t ∈ tags, provided.get? t = if current = t then none else some hash) :
    clearTags hash current tags provided ≠ none := by
  induction tags generalizing provided with
  | nil => simp [clearTags]
  | cons tag tags ih =>
    obtain ⟨htag, hrest⟩ := forall_mem_cons.mp hmapped
    rw [clearTags, if_pos htag]
    have hagain : ∀ t ∈ tags, t = tag → t = current := by
      rintro t ht rfl
      by_contra hne
      have hcount := hone t mem_cons_self hne
      rw [count_cons_self] at hcount
      have := count_pos_iff.mpr ht
      omega
    refine ih (fun t ht hne => ?_) fun t ht => ?_
    · have hother : tag ≠ t := fun heq => hne (hagain t ht heq.symm)
      rw [← hone t (mem_cons_of_mem _ ht) hne, count_cons_of_ne hother]
    · rw [get?_erase]
      by_cases heq : t = tag
      · have hcurrent := hagain t ht heq
        rw [heq, update_self, if_pos (hcurrent.symm.trans heq)]
      · rw [update_of_ne heq]
        exact hrest t ht

/-! ## One round -/

theorem popTag_cases (hprovider : ∀ t h, r.providedTags.get? t = some h →
      ∃ x, r.ready.get? h = some x ∧ t ∈ x.provides) (tags : List T) :
    (popTag r tags = (none, r) ∧ ∀ t ∈ tags, r.providedTags.get? t = none) ∨
      ∃ tag h x rest, popTag r tags = (some (tag, x, rest),
          { r with providedTags := r.providedTags.erase tag, ready := r.ready.erase h }) ∧
        r.ready.get? h = some x ∧ tag ∈ x.provides ∧ tag ∈ tags ∧ (∀ t ∈ rest, t ∈ tags) ∧
        ∀ t ∈ tags, t = tag ∨ t ∈ rest ∨ r.providedTags.get? t = none := by
  induction tags with
  | nil => exact .inl ⟨rfl, by simp⟩
  | cons tag tags ih =>
    cases hprov : r.providedTags.get? tag with
    | none =>
      have hpop : popTag r (tag :: tags) = popTag r tags := by simp [popTag, hprov]
      rw [hpop]
      rcases ih with ⟨heq, hnone⟩ | ⟨tag', h, x, rest, heq, hx, hmem, htag, hsub, hrest⟩
      · exact .inl ⟨heq, forall_mem_cons.mpr ⟨hprov, hnone⟩⟩
      · exact .inr ⟨tag', h, x, rest, heq, hx, hmem, mem_cons_of_mem _ htag,
          fun t ht => mem_cons_of_mem _ (hsub t ht),
          forall_mem_cons.mpr ⟨.inr (.inr hprov), hrest⟩⟩
    | some h =>
      obtain ⟨x, hx, hmem⟩ := hprovider tag h hprov
      refine .inr ⟨tag, h, x, tags, by simp [popTag, hprov, hx], hx, hmem, mem_cons_self,
        fun t ht => mem_cons_of_mem _ ht, ?_⟩
      exact forall_mem_cons.mpr ⟨.inl rfl, fun t ht => .inr (.inl ht)⟩

def withoutProvider (r : ReadyTransactions H T) (tag : T) (h : H) : ReadyTransactions H T :=
  { r with providedTags := r.providedTags.erase tag, ready := r.ready.erase h }

structure Pruned (h : H) (x : ReadyTx H T) (r r₁ : ReadyTransactions H T) : Prop where
  same : SameQueue h (r.ready.erase h) r₁.ready
  provided : ∀ t, r₁.providedTags.get? t = if t ∈ x.provides then none else r.providedTags.get? t
  len : r₁.len + 1 = r.len

theorem pruneOne_some {tag : T} {toRemove toRemove' : List T} (hhash : x.hash = h)
    (hx : r.ready.get? h = some x) (htag : tag ∈ x.provides)
    (hprune : pruneOne tag x toRemove (r.withoutProvider tag h) = some (toRemove', r₁)) :
    Pruned h x r r₁ := by
  subst hhash
  have hfound := foldl_findPrevious x.hash (r.providedTags.erase tag) x.requires
    (r.ready.erase x.hash, toRemove)
  have hunlocked := foldl_unlock_same x.unlocks
    ((x.requires.foldl (findPrevious x.hash (r.providedTags.erase tag))
        (r.ready.erase x.hash, toRemove)).1,
      OrdSet.remove TransactionRef.key r.best x.transaction)
  simp only [pruneOne, withoutProvider, map_eq_some_iff, Prod.mk.injEq] at hprune
  obtain ⟨provided', hclear, rfl, rfl⟩ := hprune
  have hsame : SameQueue x.hash (r.ready.erase x.hash) _ :=
    hfound.trans (fun _ _ _ _ h1 h2 => ⟨h2.1.trans h1.1.1, fun b hb => by
      rw [h2.2, h1.1.2 b hb]⟩) hunlocked
  refine ⟨hsame, fun t => ?_, ?_⟩
  · rw [clearTags_some hclear, get?_erase]
    split
    · rfl
    · rename_i ht
      have hne : t ≠ tag := fun heq => ht (heq ▸ htag)
      rw [update_of_ne hne]
  · rw [len, hsame.length_keys]
    exact length_keys_erase hx

theorem pruneOne_ne_none {tag : T} (toRemove : List T) (hinv : Mapped (fun _ => False) r)
    (hx : r.ready.get? h = some x) (hone : ∀ t ∈ x.provides, t ≠ tag → x.provides.count t = 1) :
    pruneOne tag x toRemove (r.withoutProvider tag h) ≠ none := by
  simp only [pruneOne, withoutProvider, ne_eq, map_eq_none_iff]
  refine clearTags_ne_none hone fun t ht => ?_
  rw [get?_erase, hinv.keyed h x hx]
  by_cases heq : tag = t
  · simp [heq]
  · rw [update_of_ne (Ne.symm heq), if_neg heq, hinv.provided h x t hx ht]

namespace Pruned

section

variable (hpr : Pruned h x r r₁)
include hpr

theorem of_get? {y'} (hy' : r₁.ready.get? g = some y') :
    g ≠ h ∧ ∃ y, r.ready.get? g = some y ∧ Relinked h y y' := by
  obtain ⟨y, hy, hrel⟩ := hpr.same.of_get? hy'
  obtain ⟨hg, hy⟩ := get?_erase_eq_some.mp hy
  exact ⟨hg, y, hy, hrel⟩

section

variable (hinv : Mapped (fun _ => False) r) (hx : r.ready.get? h = some x)
include hinv hx

theorem provided_some {t : T} :
    r₁.providedTags.get? t = some g ↔ r.providedTags.get? t = some g ∧ g ≠ h := by
  rw [hpr.provided]
  split
  · rename_i ht
    rw [hinv.provided h x t hx ht]
    exact iff_of_false (by simp) fun hg => hg.2 (some.inj hg.1).symm
  rename_i ht
  rw [iff_self_and]
  rintro hg rfl
  obtain ⟨x', hx', hmem⟩ := hinv.ready_of_provided t g hg
  obtain rfl := some.inj (hx.symm.trans hx')
  exact ht hmem

theorem shrinks : Shrinks r r₁ where
  ready := by
    intro g y' hy'
    obtain ⟨_, y, hy, hrel⟩ := hpr.of_get? hy'
    exact ⟨y, hy, hrel.1⟩
  provided := fun t g hprov => ((hpr.provided_some hinv hx).mp hprov).1

theorem mapped : Mapped (fun _ => False) r₁ := by
  refine hinv.shrink (hpr.shrinks hinv hx).ready fun t g =>
    (hpr.provided_some hinv hx).trans (and_congr_right fun hprov => ?_)
  obtain ⟨y, hy, _⟩ := hinv.ready_of_provided t g hprov
  rw [false_or, ne_eq, ne_eq, hpr.same.get?_eq_none_iff, get?_erase]
  by_cases hg : g = h
  · simp [hg]
  · simp [hg, hy]

end

end

end Pruned

/-! ## The loop -/

/-- From the queue `r` with a stack of tags: the transactions taken out and the queue at the end. -/
inductive Pruning : ReadyTransactions H T → List T → List (Transaction H T) →
    ReadyTransactions H T → Prop
  | done {r stack} (hnone : ∀ t ∈ stack, r.providedTags.get? t = none) : Pruning r stack [] r
  | step {r r₁ r' stack rest stack'} {tag : T} {h : H} {x removed} (hx : r.ready.get? h = some x)
      (htag : tag ∈ x.provides) (hmem : tag ∈ stack) (hrest : ∀ t ∈ rest, t ∈ stack)
      (hstack : ∀ t ∈ stack, t = tag ∨ t ∈ rest ∨ r.providedTags.get? t = none)
      (hone : pruneOne tag x rest (r.withoutProvider tag h) = some (stack', r₁))
      (hnext : Pruning r₁ stack' removed r') :
      Pruning r stack (x.transaction.transaction :: removed) r'

variable {removed : List (Transaction H T)}

theorem pruning_of_pruneLoop {fuel : Nat} {stack : List T} {out} (hinv : Mapped (fun _ => False) r)
    (hfuel : r.len ≤ fuel) (hloop : pruneLoop fuel r stack removed = some (out, r')) :
    ∃ more, out = removed ++ more ∧ Pruning r stack more r' := by
  induction fuel generalizing r stack removed with
  | zero =>
    rcases popTag_cases hinv.ready_of_provided stack with ⟨hpop, hnone⟩ | ⟨tag, h, x, rest, _, hx, _⟩
    · simp only [pruneLoop, hpop, some.injEq, Prod.mk.injEq] at hloop
      obtain ⟨rfl, rfl⟩ := hloop
      exact ⟨[], by simp, .done hnone⟩
    · have := length_keys_erase hx
      simp only [len] at hfuel
      omega
  | succ fuel ih =>
    rcases popTag_cases hinv.ready_of_provided stack with
      ⟨hpop, hnone⟩ | ⟨tag, h, x, rest, hpop, hx, htag, hmem, hrest, hstack⟩
    · simp only [pruneLoop, hpop, some.injEq, Prod.mk.injEq] at hloop
      obtain ⟨rfl, rfl⟩ := hloop
      exact ⟨[], by simp, .done hnone⟩
    simp only [pruneLoop, hpop] at hloop
    rw [← withoutProvider] at hloop
    cases hone : pruneOne tag x rest (r.withoutProvider tag h) with
    | none => simp [hone] at hloop
    | some pruned =>
      obtain ⟨stack', r₁⟩ := pruned
      simp only [hone] at hloop
      have hpr := pruneOne_some (hinv.keyed h x hx) hx htag hone
      obtain ⟨more, rfl, hnext⟩ := ih (hpr.mapped hinv hx) (by have := hpr.len; omega) hloop
      exact ⟨x.transaction.transaction :: more, by simp, .step hx htag hmem hrest hstack hone hnext⟩

/-- They hold if no transaction of the queue repeats one of several tags. -/
theorem pruneLoop_ne_none {fuel : Nat} {stack : List T} (hinv : Mapped (fun _ => False) r)
    (hone : ∀ h x, r.ready.get? h = some x → ∀ a ∈ x.provides, ∀ b ∈ x.provides, a ≠ b →
      x.provides.count a = 1) : pruneLoop fuel r stack removed ≠ none := by
  induction fuel generalizing r stack removed with
  | zero => simp [pruneLoop]
  | succ fuel ih =>
    rcases popTag_cases hinv.ready_of_provided stack with
      ⟨hpop, _⟩ | ⟨tag, h, x, rest, hpop, hx, htag, _⟩
    · simp [pruneLoop, hpop]
    simp only [pruneLoop, hpop]
    rw [← withoutProvider]
    cases hprune : pruneOne tag x rest (r.withoutProvider tag h) with
    | none =>
      exact absurd hprune (pruneOne_ne_none rest hinv hx fun t ht hne =>
        hone h x hx t ht tag htag hne)
    | some pruned =>
      obtain ⟨stack', r₁⟩ := pruned
      have hpr := pruneOne_some (hinv.keyed h x hx) hx htag hprune
      refine ih (hpr.mapped hinv hx) fun g y' hy' => ?_
      obtain ⟨_, y, hy, hrel⟩ := hpr.of_get? hy'
      rw [provides, hrel.1]
      exact hone g y hy

namespace Pruning

variable {stack : List T} {removed : List (Transaction H T)}

theorem mapped (hpr : Pruning r stack removed r') (hinv : Mapped (fun _ => False) r) :
    Mapped (fun _ => False) r' := by
  induction hpr with
  | done _ => exact hinv
  | step hx htag _ _ _ hone _ ih =>
    exact ih ((pruneOne_some (hinv.keyed _ _ hx) hx htag hone).mapped hinv hx)

theorem shrinks (hpr : Pruning r stack removed r') (hinv : Mapped (fun _ => False) r) :
    Shrinks r r' := by
  induction hpr with
  | done _ => exact .refl _
  | step hx htag _ _ _ hone _ ih =>
    have hpruned := pruneOne_some (hinv.keyed _ _ hx) hx htag hone
    exact (hpruned.shrinks hinv hx).trans (ih (hpruned.mapped hinv hx))

end Pruning

end ReadyTransactions

end Substrate.TxPool
