import Substrate.ReadyTags

/-!
# Importing into the ready queue

An import takes the providers of its tags out of the queue, with what only they unlocked, takes over
what they unlocked otherwise, and links itself to the providers of the tags it requires. It is
refused if those it would replace have as high a priority, and fails only for a tag that it requires
as well as provides.
-/

namespace Substrate.TxPool

open Function List Option

variable {H T : Type} [DecidableEq H] {tags : List T} {h : H}

/-- How many of `tags` the transaction `h` provides. -/
def waitsFor (provided : FinMap T H) (tags : List T) (h : H) : Nat :=
  tags.countP fun t => decide (provided.get? t = some h)

/-- How many of `tags` nothing provides. -/
def unmet (provided : FinMap T H) (tags : List T) : Nat :=
  tags.countP fun t => decide (provided.get? t = none)

variable {provided provided' : FinMap T H}

theorem waitsFor_congr {h' : H}
    (heq : ∀ t ∈ tags, provided'.get? t = some h' ↔ provided.get? t = some h) :
    waitsFor provided' tags h' = waitsFor provided tags h :=
  countP_congr fun t ht => by simpa using heq t ht

omit [DecidableEq H] in
theorem unmet_congr (heq : ∀ t ∈ tags, provided'.get? t = none ↔ provided.get? t = none) :
    unmet provided' tags = unmet provided tags :=
  countP_congr fun t ht => by simpa using heq t ht

theorem waitsFor_pos : 0 < waitsFor provided tags h ↔ ∃ t ∈ tags, provided.get? t = some h := by
  simp [waitsFor]

theorem waitsFor_eq_zero : waitsFor provided tags h = 0 ↔ ∀ t ∈ tags, provided.get? t ≠ some h := by
  simp [waitsFor]

section

omit [DecidableEq H]

theorem unmet_le (provided : FinMap T H) (tags : List T) : unmet provided tags ≤ tags.length :=
  countP_le_length

theorem unmet_eq_length :
    unmet provided tags = tags.length ↔ ∀ t ∈ tags, provided.get? t = none := by
  simp [unmet]

end

namespace ReadyTransactions

variable {r r₁ r' : ReadyTransactions H T} {tx : Transaction H T}
  {removed : List (Transaction H T)} {unlocks : List H}

/-! ## Linking -/

def pushLinks (n : H) (k : Nat) (x : ReadyTx H T) : ReadyTx H T :=
  { x with unlocks := x.unlocks ++ replicate k n }

section

variable (n : H) (k : Nat) (x : ReadyTx H T)
include n k x

section

omit [DecidableEq H]

@[simp] theorem pushLinks_transaction : (pushLinks n k x).transaction = x.transaction := rfl

@[simp] theorem pushLinks_requires : (pushLinks n k x).requires = x.requires := rfl

@[simp] theorem pushLinks_provides : (pushLinks n k x).provides = x.provides := rfl

@[simp] theorem pushLinks_requiresOffset :
    (pushLinks n k x).requiresOffset = x.requiresOffset := rfl

end

end

section

omit [DecidableEq H]

theorem pushLinks_zero (n : H) (x : ReadyTx H T) : pushLinks n 0 x = x := by
  simp [pushLinks]

theorem pushLinks_succ (n : H) (k : Nat) (x : ReadyTx H T) :
    pushLinks n (k + 1) x = pushLinks n k { x with unlocks := x.unlocks ++ [n] } := by
  simp [pushLinks, replicate_succ]

end

variable {ready : FinMap H (ReadyTx H T)} {g : H}

variable (provided tags ready) in
/-- Every provider gets one link for each tag, the other tags are counted, unless a provider is
missing. -/
theorem addLinks_spec (n : H) (k : Nat) :
    (∃ ready', addLinks n provided tags ready k = some (ready', k + unmet provided tags) ∧
      ∀ g, ready'.get? g = (ready.get? g).map (pushLinks n (waitsFor provided tags g))) ∨
    addLinks n provided tags ready k = none ∧
      ∃ t ∈ tags, ∃ h, provided.get? t = some h ∧ ready.get? h = none := by
  induction tags generalizing ready k with
  | nil =>
    refine .inl ⟨ready, rfl, fun g => ?_⟩
    show ready.get? g = (ready.get? g).map (pushLinks n 0)
    rw [funext (pushLinks_zero n)]
    simp
  | cons tag tags ih =>
    cases hprov : provided.get? tag with
    | none =>
      simp only [addLinks, hprov]
      rcases ih ready (k + 1) with ⟨ready', hlinks, hget⟩ | ⟨hlinks, t, ht, hmissing⟩
      · refine .inl ⟨ready', ?_, fun g => ?_⟩
        · rw [hlinks, Nat.add_right_comm]
          simp [unmet, hprov, Nat.add_assoc]
        · rw [hget g]
          simp [waitsFor, hprov]
      · exact .inr ⟨hlinks, t, mem_cons_of_mem _ ht, hmissing⟩
    | some other =>
      cases hother : ready.get? other with
      | none => exact .inr ⟨by simp [addLinks, hprov, hother], tag, mem_cons_self, other, hprov, hother⟩
      | some x =>
        have hunmet : unmet provided (tag :: tags) = unmet provided tags := by simp [unmet, hprov]
        simp only [addLinks, hprov, hother, hunmet]
        rcases ih _ k with ⟨ready', hlinks, hget⟩ | ⟨hlinks, t, ht, h, hh, hmissing⟩
        · refine .inl ⟨ready', hlinks, fun g => ?_⟩
          rw [hget g, FinMap.get?_insert]
          by_cases hg : g = other
          · subst hg
            rw [update_self, hother, map_some]
            congr 1
            have hcount : waitsFor provided (tag :: tags) g = waitsFor provided tags g + 1 := by
              simp [waitsFor, hprov]
            rw [hcount, pushLinks_succ]
          rw [update_of_ne hg]
          have hcount : waitsFor provided (tag :: tags) g = waitsFor provided tags g := by
            simp [waitsFor, hprov, Ne.symm hg]
          rw [hcount]
        · refine .inr ⟨hlinks, t, mem_cons_of_mem _ ht, h, hh, ?_⟩
          rw [FinMap.get?_insert] at hmissing
          by_cases heq : h = other
          · rw [heq, update_self] at hmissing
            cases hmissing
          · rwa [update_of_ne heq] at hmissing

variable [DecidableEq T]

/-- `r'` is `r₁` with the transaction `tx` linked in, which unlocks `unlocks`. -/
structure Inserted (tx : Transaction H T) (unlocks : List H) (r₁ r' : ReadyTransactions H T) :
    Prop where
  insertionId : r'.insertionId = r₁.insertionId
  provided : ∀ t, r'.providedTags.get? t =
    if t ∈ tx.provides then some tx.hash else r₁.providedTags.get? t
  self : r'.ready.get? tx.hash =
    some ⟨⟨tx, r₁.insertionId⟩, unlocks, unmet r₁.providedTags tx.requires⟩
  others : ∀ g, g ≠ tx.hash → r'.ready.get? g =
    (r₁.ready.get? g).map (pushLinks tx.hash (waitsFor r₁.providedTags tx.requires g))
  best : r'.best = if ∀ t ∈ tx.requires, r₁.providedTags.get? t = none then
      OrdSet.insert TransactionRef.key r₁.best ⟨tx, r₁.insertionId⟩
    else r₁.best

section

variable (hins : Inserted tx unlocks r₁ r')
include hins

theorem Inserted.cases {y} (hy : r'.ready.get? g = some y) :
    (g = tx.hash ∧ y = ⟨⟨tx, r₁.insertionId⟩, unlocks, unmet r₁.providedTags tx.requires⟩) ∨
      g ≠ tx.hash ∧ ∃ y1, r₁.ready.get? g = some y1 ∧
        y = pushLinks tx.hash (waitsFor r₁.providedTags tx.requires g) y1 := by
  by_cases hg : g = tx.hash
  · subst hg
    rw [hins.self, some.injEq] at hy
    exact .inl ⟨rfl, hy.symm⟩
  · rw [hins.others g hg, map_eq_some_iff] at hy
    obtain ⟨y1, hy1, rfl⟩ := hy
    exact .inr ⟨hg, y1, hy1, rfl⟩

end

/-! ## Replacing the providers -/

def bump (r : ReadyTransactions H T) : ReadyTransactions H T :=
  { r with insertionId := r.insertionId + 1 }

omit [DecidableEq H] [DecidableEq T] in
theorem Mapped.bump {stale : T → Prop} (hinv : Mapped stale r) : Mapped stale r.bump := { hinv with }

omit [DecidableEq T] in
theorem mem_replaceHashes :
    h ∈ r.replaceHashes tx ↔ ∃ t ∈ tx.provides, r.providedTags.get? t = some h := by
  simp [replaceHashes]

def oldPriority (r : ReadyTransactions H T) (tx : Transaction H T) : Nat :=
  ((r.replaceHashes tx).filterMap r.ready.get?).foldl
    (fun total x => saturatingAdd total x.transaction.transaction.priority) 0

/-- The tags of `tx` are taken by transactions whose priority is as high. -/
def Refuses (r : ReadyTransactions H T) (tx : Transaction H T) : Prop :=
  r.replaceHashes tx ≠ [] ∧ tx.priority ≤ r.oldPriority tx

instance (r : ReadyTransactions H T) (tx : Transaction H T) : Decidable (r.Refuses tx) :=
  inferInstanceAs (Decidable (_ ∧ _))

structure Replaces (tx : Transaction H T) (removed : List (Transaction H T)) (unlocks : List H)
    (r r₁ : ReadyTransactions H T) : Prop where
  removal : Removal (some tx.provides) r (r.replaceHashes tx).reverse removed r₁
  unlocks : unlocks = ((r.replaceHashes tx).filterMap r.ready.get?).flatMap (·.unlocks)

theorem replacePrevious_cases (r : ReadyTransactions H T) (tx : Transaction H T) :
    (r.Refuses tx ∧ r.replacePrevious tx = (.err (.tooLowPriority (r.oldPriority tx) tx.priority), r)) ∨
      ¬r.Refuses tx ∧ ∃ removed unlocks r₁,
        r.replacePrevious tx = (.ok (removed, unlocks), r₁) ∧ Replaces tx removed unlocks r r₁ := by
  simp only [replacePrevious]
  split
  · rename_i hempty
    rw [List.isEmpty_iff] at hempty
    refine .inr ⟨fun href => href.1 hempty, [], [], r, rfl, ?_, ?_⟩
    · exact .done (by simp [hempty])
    · simp [hempty]
  rename_i hne
  rw [List.isEmpty_iff] at hne
  split
  · rename_i hle
    exact .inl ⟨⟨hne, hle⟩, rfl⟩
  · rename_i hlt
    exact .inr ⟨fun href => hlt href.2, _, _, _, rfl, removal_of_removeSubtree .., rfl⟩

/-- **What an import of a ready transaction can do**: it is refused for its
priority, or it replaces the providers of its tags and is linked in. It fails only
for a tag that it requires as well as provides and whose provider it replaces. -/
theorem importTx_ready_cases {w} (hready : w.isReady) (hinv : Mapped (fun _ => False) r)
    (hnew : r.ready.get? w.transaction.hash = none) :
    (r.Refuses w.transaction ∧
        r.importTx w = (.err (.tooLowPriority (r.oldPriority w.transaction) w.transaction.priority),
          r.bump)) ∨
      ¬r.Refuses w.transaction ∧
      ((∃ removed unlocks r₁ r', r.importTx w = (.ok removed, r') ∧
          Replaces w.transaction removed unlocks r.bump r₁ ∧
          Inserted w.transaction unlocks r₁ r') ∨
        (r.importTx w).1 = .panic ∧ ∃ t ∈ w.transaction.requires, t ∈ w.transaction.provides ∧
            r.providedTags.get? t ≠ none) := by
  have hcontains : r.contains w.transaction.hash = false := by
    simp [contains, FinMap.contains, hnew]
  rcases replacePrevious_cases r.bump w.transaction with
    ⟨href, hrep⟩ | ⟨href, removed, unlocks, r₁, hrep, hreplaces⟩
  · rw [bump] at hrep
    refine .inl ⟨href, ?_⟩
    simp only [importTx, hready, not_true_eq_false, if_false, hcontains, Bool.false_eq_true, hrep]
    rfl
  rw [bump] at hrep
  refine .inr ⟨href, ?_⟩
  rcases addLinks_spec w.transaction.requires r₁.providedTags r₁.ready w.transaction.hash 0 with
    ⟨ready, hlinks, hget⟩ | ⟨hlinks, t, ht, g, hprov, hmissing⟩
  · refine .inl ⟨removed, unlocks, r₁, _, by simp only [importTx, hready, not_true_eq_false,
      if_false, hcontains, Bool.false_eq_true, hrep, hlinks]; rfl, hreplaces, ?_⟩
    exact
      { insertionId := rfl
        provided := fun t => FinMap.get?_foldl_insert ..
        self := by simp
        others := by
          intro g hg
          rw [FinMap.get?_insert, update_of_ne hg, hget g]
        best := by simp [FinMap.contains] }
  · refine .inr ⟨by simp only [importTx, hready, not_true_eq_false, if_false, hcontains,
      Bool.false_eq_true, hrep, hlinks], t, ht, ?_⟩
    -- a required tag that is not one of its own keeps its provider
    have hkeep : Mapped (Kept (some w.transaction.provides)) r.bump := hinv.bump.keep _
    obtain ⟨hprov0, hkept⟩ := (hreplaces.removal.provided hkeep).mp hprov
    exact ⟨hkept.resolve_right fun hleft => hleft hmissing, hprov0 ▸ some_ne_none g⟩

theorem Mapped.insert (hinv : Mapped (fun _ => False) r) (hnew : r.ready.get? tx.hash = none)
    (hrep : Replaces tx removed unlocks r r₁) (hins : Inserted tx unlocks r₁ r') :
    Mapped (fun _ => False) r' := by
  have hkeep := hinv.keep (some tx.provides)
  have hmapped1 := hrep.removal.mapped hkeep
  have hnew1 := hrep.removal.get?_eq_none hnew
  refine ⟨?_, ?_, ?_⟩
  · intro g y' hy'
    rcases hins.cases hy' with ⟨rfl, rfl⟩ | ⟨_, y, hy, rfl⟩
    · rfl
    · exact hmapped1.keyed g y hy
  · intro g y' t hy' ht
    rw [hins.provided]
    rcases hins.cases hy' with ⟨rfl, rfl⟩ | ⟨_, y, hy, rfl⟩
    · exact if_pos ht
    have hprov1 := hmapped1.provided g y t hy ht
    have hown : t ∉ tx.provides := by
      -- a provider of a tag of `tx` has been replaced
      intro hmem
      have hprov := ((hrep.removal.provided hkeep).mp hprov1).1
      have hrepl : g ∈ (r.replaceHashes tx).reverse :=
        mem_reverse.mpr (mem_replaceHashes.mpr ⟨t, hmem, hprov⟩)
      rw [hrep.removal.gone g hrepl] at hy
      cases hy
    rw [if_neg hown, hprov1]
  · intro t g hprov
    rw [hins.provided] at hprov
    split at hprov
    · rename_i ht
      cases hprov
      exact .inl ⟨_, hins.self, ht⟩
    rename_i ht
    obtain ⟨y, hy, hmem⟩ := (hmapped1.provider t g hprov).resolve_right fun hs => ht hs.1
    have hg : g ≠ tx.hash := by
      rintro rfl
      rw [hnew1] at hy
      cases hy
    refine .inl ⟨pushLinks tx.hash (waitsFor r₁.providedTags tx.requires g) y, ?_, hmem⟩
    rw [hins.others g hg, hy, map_some]

theorem get?_ne_none_insert (hinv : Mapped (fun _ => False) r)
    (hrep : Replaces tx removed unlocks r r₁) (hins : Inserted tx unlocks r₁ r') :
    r'.ready.get? g ≠ none ↔ g = tx.hash ∨ r.ready.get? g ≠ none ∧ g ∉ removed.map (·.hash) := by
  rw [hrep.removal.mem_removed_iff hinv.keyed]
  by_cases hg : g = tx.hash
  · subst hg
    simp [hins.self]
  rw [hins.others g hg]
  have hmono := hrep.removal.get?_eq_none (g := g)
  simp only [ne_eq, map_eq_none_iff, hg, false_or, not_and]
  tauto

end ReadyTransactions

end Substrate.TxPool
