import Substrate.OverlayLevels
import Substrate.VecOps

/-!
# Discarding forks

`Discards` is the derivation that every call of `discardDescendants` that returns leaves behind: the
children of the discarded block are taken out one by one, each after its own descendants. `Sweeps`
does the same for the loop over the level of a canonicalized block, `Applies` for a whole round of
`apply_canonicalizations`.
-/

namespace Substrate.StateDb

open List Option Nat

variable {H K V : Type} [DecidableEq H] [DecidableEq K]
  {B : Blocks H K} {below : H → Prop} {levels : List (OverlayLevel H K)}
  {parents : FinMap H H} {i : Nat}

/-! ## Derivations -/

inductive Discards (pinned : FinMap H Nat) : List (OverlayLevel H K) → Tables H K V → H → Nat →
      List (OverlayLevel H K) → Tables H K V → Prop
  | nil {t} {h : H} : Discards pinned [] t h 0 [] t
  | done {level rest t} {h : H}
      (hother : ∀ e ∈ level.blocks, ∃ p, t.parents.get? e.hash = some p ∧ p ≠ h) :
      Discards pinned (level :: rest) t h 0 (level :: rest) t
  | child {level rest rest' levels'} {t t₁ t'} {h : H} {n m : Nat} {e} {pre post}
      (hblocks : level.blocks = pre ++ e :: post) (hparent : t.parents.get? e.hash = some h)
      (hrest : Discards pinned rest t e.hash n rest' t₁) (hmore : Discards pinned
        (⟨pre ++ post, BitMask.clearBit level.usedIndicies e.journalIndex⟩ :: rest')
        (t₁.dispose e (n + pinnedCount pinned e.hash)) h m levels' t') :
      Discards pinned (level :: rest) t h (n + pinnedCount pinned e.hash + m) levels' t'

variable {blocks post pre others : List (BlockOverlay H K)} {h : H} {level : OverlayLevel H K}
  {e : BlockOverlay H K} {P : List (BlockOverlay H K) → Tables H K V → Prop}
  {o' o : NonCanonicalOverlay H K V}

omit [DecidableEq K] in
theorem childPosition_spec {r} (hpos : childPosition parents h blocks = some r) :
    (r = none ∧ ∀ e ∈ blocks, ∃ p, parents.get? e.hash = some p ∧ p ≠ h) ∨
    ∃ pre e post, r = some pre.length ∧ blocks = pre ++ e :: post ∧
      parents.get? e.hash = some h := by
  induction blocks generalizing r with
  | nil =>
    cases hpos
    exact .inl ⟨rfl, by simp⟩
  | cons b blocks ih =>
    unfold childPosition at hpos
    split at hpos
    · cases hpos
    rename_i p hb
    split at hpos
    · rename_i hp
      cases hpos
      exact .inr ⟨[], b, blocks, rfl, rfl, hp ▸ hb⟩
    rename_i hp
    obtain ⟨r, hrest, rfl⟩ := Option.map_eq_some_iff.mp hpos
    rcases ih hrest with ⟨rfl, hall⟩ | ⟨pre, e, post, rfl, rfl, he⟩
    · exact .inl ⟨rfl, forall_mem_cons.mpr ⟨⟨p, hb, hp⟩, hall⟩⟩
    · exact .inr ⟨b :: pre, e, post, rfl, rfl, he⟩

omit [DecidableEq H] [DecidableEq K] in
theorem remove_split (hblocks : level.blocks = pre ++ e :: post) :
    level.remove pre.length = some (e,
      ⟨pre ++ post, BitMask.clearBit level.usedIndicies e.journalIndex⟩) := by
  have hget : level.blocks[pre.length]? = some e := by simp [hblocks]
  have herase : level.blocks.eraseIdx pre.length = pre ++ post := by
    rw [hblocks, eraseIdx_append_of_length_le (Nat.le_refl _), Nat.sub_self, eraseIdx_cons_zero]
  unfold OverlayLevel.remove
  rw [hget]
  simp [herase]

variable {pinned : FinMap H Nat} {t t' : Tables H K V} {levels' : List (OverlayLevel H K)} {n : Nat}

theorem Discards.length_eq (hd : Discards pinned levels t h n levels' t') :
    levels'.length = levels.length := by
  induction hd with
  | nil => rfl
  | done _ => rfl
  | child _ _ _ _ ih ih' => rw [ih', length_cons, length_cons, ih]

variable {rest : List (OverlayLevel H K)}

theorem discards_of_discardChildren {depth : Nat}
    {descend : List (OverlayLevel H K) → Tables H K V → H →
      Option (Nat × List (OverlayLevel H K) × Tables H K V)}
    (hdescend : ∀ {rest rest' t t' h n}, rest.length ≤ depth →
      descend rest t h = some (n, rest', t') → Discards pinned rest t h n rest' t') {fuel : Nat}
    (hfuel : level.blocks.length < fuel) (hlen : rest.length ≤ depth)
    (hrun : discardChildren descend pinned h fuel level rest t = some (n, levels', t')) :
    Discards pinned (level :: rest) t h n levels' t' := by
  induction fuel generalizing level rest t n levels' t' with
  | zero => omega
  | succ fuel ih =>
    unfold discardChildren at hrun
    cases hpos : childPosition t.parents h level.blocks with
    | none => simp [hpos] at hrun
    | some r =>
      rcases childPosition_spec hpos with ⟨rfl, hall⟩ | ⟨pre, e, post, rfl, hblocks, he⟩
      · simp only [hpos, some.injEq, Prod.mk.injEq] at hrun
        obtain ⟨rfl, rfl, rfl⟩ := hrun
        exact .done hall
      simp only [hpos, remove_split hblocks] at hrun
      split at hrun
      · cases hrun
      rename_i m rest' t₁ hdesc
      have hrest := hdescend hlen hdesc
      split at hrun
      · cases hrun
      rename_i m' levels'' t'' hmore
      obtain ⟨rfl, rfl, rfl⟩ := hrun
      refine .child hblocks he hrest (ih ?_ ?_ hmore)
      · rw [hblocks] at hfuel
        simp only [length_append, length_cons] at hfuel ⊢
        omega
      · rw [hrest.length_eq]
        exact hlen

theorem discards_of_discardDescendants {depth : Nat} (hdepth : levels.length ≤ depth)
    (hrun : discardDescendants pinned depth levels t h = some (n, levels', t')) :
    Discards pinned levels t h n levels' t' := by
  induction depth generalizing levels levels' t t' h n with
  | zero =>
    obtain rfl : levels = [] := length_eq_zero_iff.mp (by omega)
    obtain ⟨rfl, rfl, rfl⟩ := hrun
    exact .nil
  | succ depth ih =>
    cases levels with
    | nil =>
      obtain ⟨rfl, rfl, rfl⟩ := hrun
      exact .nil
    | cons level rest =>
      exact discards_of_discardChildren ih (lt_succ_self _) (by simpa using hdepth) hrun

/-! ## What a discard preserves -/

def ParentsAgree (B : Blocks H K) (parents : FinMap H H) : Prop :=
  ∀ x p, parents.get? x = some p → p = B.parent x

omit [DecidableEq K] in
theorem ParentsAgree.erase (h : ParentsAgree B parents) (x : H) :
    ParentsAgree B (parents.erase x) := by
  intro y p hy
  rw [FinMap.get?_erase] at hy
  by_cases hyx : y = x
  · rw [hyx, Function.update_self] at hy
    cases hy
  · rw [Function.update_of_ne hyx] at hy
    exact h y p hy

theorem ParentsAgree.dispose (h : ParentsAgree B t.parents) (e : BlockOverlay H K) (n : Nat) :
    ParentsAgree B (t.dispose e n).parents := by
  unfold Tables.dispose
  split
  · exact h
  · exact h.erase e.hash

/-- Without pins the block is always dropped. -/
def Disposable (pinned : FinMap H Nat) (P : List (BlockOverlay H K) → Tables H K V → Prop) : Prop :=
  ∀ (pre post : List (BlockOverlay H K)) (e : BlockOverlay H K) (t : Tables H K V) (n : Nat),
    ((∀ x, pinned.contains x = false) → n = 0) → P (pre ++ e :: post) t →
      P (pre ++ post) (t.dispose e n)

section

variable {pinned : FinMap H Nat} {levels' : List (OverlayLevel H K)} {t t' : Tables H K V}
  {h : H} {n : Nat}

omit [DecidableEq H] in
theorem pinnedCount_eq_zero (hnone : ∀ x, pinned.contains x = false) (x : H) :
    pinnedCount pinned x = 0 := by
  simp [pinnedCount, hnone x]

theorem Discards.count_eq_zero (hnone : ∀ x, pinned.contains x = false)
    (hd : Discards pinned levels t h n levels' t') : n = 0 := by
  induction hd with
  | nil => rfl
  | done _ => rfl
  | child _ _ _ _ ih ih' => rw [ih, ih', pinnedCount_eq_zero hnone]

theorem Discards.keeps (hP : Disposable pinned P) (hd : Discards pinned levels t h n levels' t')
    (hs : P (others ++ entries levels) t) : P (others ++ entries levels') t' := by
  induction hd generalizing others with
  | nil => exact hs
  | done _ => exact hs
  | @child level rest rest' levels' t t₁ t' h n m e pre post hblocks _ hrest _ ih ih' =>
    have hmid : P ((others ++ level.blocks) ++ entries rest') t₁ := by
      refine ih ?_
      rwa [entries_cons, ← append_assoc] at hs
    rw [hblocks, ← append_assoc, append_assoc] at hmid
    have hdisposed := hP _ _ e t₁ (n + pinnedCount pinned e.hash) (fun hnone => by
      rw [hrest.count_eq_zero hnone, pinnedCount_eq_zero hnone]) hmid
    refine ih' ?_
    rw [entries_cons]
    simpa using hdisposed

section

variable (hd : Discards pinned levels t h n levels' t') (hp : ParentsAgree B t.parents)
include hd hp

theorem Discards.parentsAgree : ParentsAgree B t'.parents := by
  induction hd with
  | nil => exact hp
  | done _ => exact hp
  | child _ _ _ _ ih ih' => exact ih' ((ih hp).dispose _ _)

theorem Discards.layered (hl : Layered B below levels) :
    Layered B (fun p => below p ∧ p ≠ h) levels' := by
  induction hd generalizing below with
  | nil => trivial
  | @done level rest t h hother =>
    refine ⟨fun e he => ⟨(hl.1 e he).1, (hl.1 e he).2, ?_⟩, hl.2⟩
    obtain ⟨p, hget, hne⟩ := hother e he
    rwa [← hp _ _ hget]
  | @child level rest rest' levels' t t₁ t' h n m e pre post hblocks hparent hrest hmore ih ih' =>
    refine ih' ((hrest.parentsAgree hp).dispose _ _) ⟨fun f hf => ?_, ?_⟩
    · refine hl.1 f ?_
      rw [hblocks]
      simp only [mem_append, mem_cons] at hf ⊢
      tauto
    · refine (ih hp hl.2).mono ?_
      rintro p ⟨⟨f, hf, rfl⟩, hne⟩
      rw [hblocks] at hf
      refine ⟨f, ?_, rfl⟩
      simp only [mem_append, mem_cons] at hf ⊢
      rcases hf with hf | rfl | hf
      · exact .inl hf
      · exact absurd rfl hne
      · exact .inr hf

end

@[simp] theorem Tables.dispose_zero (t : Tables H K V) (e : BlockOverlay H K) : t.dispose e 0 =
      { t with
        parents := t.parents.erase e.hash
        values := discardValues t.values e.inserted } := rfl

end

/-! ## Applying a canonicalization -/

/-- Discarding the blocks of a list with all their descendants. -/
inductive Sweeps (pinned : FinMap H Nat) :
    List (BlockOverlay H K) → List (OverlayLevel H K) → Tables H K V →
      List (OverlayLevel H K) → Tables H K V → Prop
  | nil {rest : List (OverlayLevel H K)} {t} : Sweeps pinned [] rest t rest t
  | cons {e : BlockOverlay H K} {es} {rest rest₁ rest' t t₁ t'} {n : Nat}
      (hfirst : Discards pinned rest t e.hash n rest₁ t₁)
      (hmore : Sweeps pinned es rest₁ (t₁.dispose e (n + pinnedCount pinned e.hash)) rest' t') :
      Sweeps pinned (e :: es) rest t rest' t'

/-- All of the level is gone, and the descendants of every block of it but the canonical one. -/
structure Applies (o : NonCanonicalOverlay H K V) (hash : H) (o' : NonCanonicalOverlay H K V) :
    Prop where
  split : ∃ (level : OverlayLevel H K) (rest rest₁ : List (OverlayLevel H K))
    (pre post : List (BlockOverlay H K)) (e : BlockOverlay H K) (t₁ : Tables H K V),
    o.levels = level :: rest ∧ level.blocks = pre ++ e :: post ∧ e.hash = hash ∧
    Sweeps o.pinned pre rest o.toTables rest₁ t₁ ∧
    Sweeps o.pinned post rest₁ (t₁.dispose e (pinnedCount o.pinned e.hash)) o'.levels o'.toTables
  lastCanonicalized : o'.lastCanonicalized = o.lastCanonicalized
  pendingCanonicalizations : o'.pendingCanonicalizations = o.pendingCanonicalizations
  pendingInsertions : o'.pendingInsertions = o.pendingInsertions
  pinned : o'.pinned = o.pinned

open NonCanonicalOverlay

variable {rest' : List (OverlayLevel H K)}

theorem sweeps_of_discardLevel {index : Nat} {r}
    (hi : ∀ j, i ≤ j → j < i + pre.length → j ≠ index)
    (hrun : discardLevel pinned index i (pre ++ post) rest t = some r) :
    ∃ rest₁ t₁, Sweeps pinned pre rest t rest₁ t₁ ∧
      discardLevel pinned index (i + pre.length) post rest₁ t₁ = some r := by
  induction pre generalizing i rest t with
  | nil => exact ⟨rest, t, .nil, hrun⟩
  | cons e es ih =>
    have hne : i ≠ index := hi i (le_refl _) (by simp)
    rw [cons_append] at hrun
    unfold discardLevel at hrun
    rw [if_pos hne] at hrun
    split at hrun
    · cases hrun
    rename_i n rest₁ t₁ hfirst
    rw [length_cons, ← Nat.add_assoc, Nat.add_right_comm] at hi ⊢
    obtain ⟨rest₂, t₂, hsweeps, hpost⟩ := ih (fun j hj hlt => hi j (by omega) hlt) hrun
    exact ⟨rest₂, t₂, .cons (discards_of_discardDescendants (le_refl _) hfirst) hsweeps, hpost⟩

theorem applies_of_applyCanonicalization {hash : H} (hrun : applyCanonicalization o hash = some o') :
    Applies o hash o' := by
  unfold applyCanonicalization at hrun
  split at hrun
  · cases hrun
  rename_i level rest hlevels
  split at hrun
  · cases hrun
  rename_i index hindex
  obtain ⟨pre, e, post, hblocks, rfl, he⟩ := Vec.findIdx?_split hindex
  split at hrun
  · cases hrun
  rename_i rest' t' hdiscard
  rw [hblocks] at hdiscard
  obtain ⟨rest₁, t₁, hpre, hmeets⟩ := sweeps_of_discardLevel (fun j _ hlt => by omega) hdiscard
  rw [discardLevel, if_neg (by simp), ← append_nil post] at hmeets
  simp only [Nat.zero_add] at hmeets
  obtain ⟨rest₂, t₂, hpost, hend⟩ := sweeps_of_discardLevel (fun j hj _ => by omega) hmeets
  cases hend
  obtain rfl := some.inj hrun
  exact ⟨⟨level, rest, rest₁, pre, post, e, t₁, hlevels, hblocks, by simpa using he,
    hpre, hpost⟩, rfl, rfl, rfl, rfl⟩

section

variable {pinned : FinMap H Nat} {es : List (BlockOverlay H K)}
  {rest rest' : List (OverlayLevel H K)} {t t' : Tables H K V}

section

variable (hs : Sweeps pinned es rest t rest' t') (hp : ParentsAgree B t.parents)
include hs hp

theorem Sweeps.parentsAgree : ParentsAgree B t'.parents := by
  induction hs with
  | nil => exact hp
  | cons hfirst _ ih => exact ih ((hfirst.parentsAgree hp).dispose _ _)

theorem Sweeps.layered (hl : Layered B below rest) :
    Layered B (fun p => below p ∧ ∀ e ∈ es, p ≠ e.hash) rest' := by
  induction hs generalizing below with
  | nil => exact hl.mono fun p hp => ⟨hp, by simp⟩
  | cons hfirst _ ih =>
    refine (ih ((hfirst.parentsAgree hp).dispose _ _) (hfirst.layered hp hl)).mono ?_
    rintro p ⟨⟨hbelow, hne⟩, hall⟩
    exact ⟨hbelow, forall_mem_cons.mpr ⟨hne, hall⟩⟩

end

theorem Sweeps.keeps (hP : Disposable pinned P) (hs : Sweeps pinned es rest t rest' t')
    (h : P (es ++ others ++ entries rest) t) : P (others ++ entries rest') t' := by
  induction hs with
  | nil => exact h
  | @cons e es rest rest₁ rest' t t₁ t' n hfirst _ ih =>
    refine ih (hP [] _ e t₁ (n + pinnedCount pinned e.hash) (fun hnone => ?_) (hfirst.keeps hP h))
    rw [hfirst.count_eq_zero hnone, pinnedCount_eq_zero hnone]

theorem Applies.keeps {hash : H} (hP : Disposable o.pinned P) (ha : Applies o hash o')
    (h : P (entries o.levels) o.toTables) : P (entries o'.levels) o'.toTables := by
  obtain ⟨level, rest, rest₁, pre, post, e, t₁, hlevels, hblocks, -, hpre, hpost⟩ := ha.split
  rw [hlevels, entries_cons, hblocks] at h
  -- the blocks before the canonical one, the canonical one, the blocks after it
  have hmid : P (e :: (post ++ entries rest₁)) t₁ := hpre.keeps hP h
  have hlast : P (post ++ entries rest₁) _ :=
    hP [] _ e t₁ _ (fun hnone => pinnedCount_eq_zero hnone e.hash) hmid
  rw [← append_nil post] at hlast
  exact hpost.keeps hP hlast

end

end Substrate.StateDb
