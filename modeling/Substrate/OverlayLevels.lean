import Substrate.BlockStates
import Substrate.NonCanonicalOverlay

/-!
# Levels of the overlay

`Layered` says that every block sits one level above its parent. So the number of a block is read
off its level, and the levels hold every block between the ones they hold and the last canonical
one.
-/

namespace Substrate.StateDb

variable {H K V : Type} [DecidableEq K] {e : BlockOverlay H K}

def entries (levels : List (OverlayLevel H K)) : List (BlockOverlay H K) :=
  levels.flatMap OverlayLevel.blocks

def insertions (es : List (BlockOverlay H K)) (k : K) : Nat :=
  (es.flatMap BlockOverlay.inserted).count k

section

omit [DecidableEq K]

@[simp] theorem entries_nil : entries ([] : List (OverlayLevel H K)) = [] := rfl

@[simp] theorem entries_cons (level : OverlayLevel H K) (rest : List (OverlayLevel H K)) :
    entries (level :: rest) = level.blocks ++ entries rest := by
  simp [entries]

@[simp] theorem entries_append (ls ls' : List (OverlayLevel H K)) :
    entries (ls ++ ls') = entries ls ++ entries ls' := by
  simp [entries]

end

@[simp] theorem insertions_nil (k : K) : insertions ([] : List (BlockOverlay H K)) k = 0 := rfl

@[simp] theorem insertions_append (es es' : List (BlockOverlay H K)) (k : K) :
    insertions (es ++ es') k = insertions es k + insertions es' k := by
  simp [insertions]

@[simp] theorem insertions_cons (e : BlockOverlay H K) (es : List (BlockOverlay H K)) (k : K) :
    insertions (e :: es) k = e.inserted.count k + insertions es k := by
  simp [insertions]

theorem insertions_perm {es es' : List (BlockOverlay H K)} (h : es.Perm es') (k : K) :
    insertions es k = insertions es' k :=
  (h.flatMap_right _).count_eq k

omit [DecidableEq K] in
theorem mem_entries {levels} : e ∈ entries levels ↔ ∃ level ∈ levels, e ∈ level.blocks :=
  List.mem_flatMap

def InLevels (levels : List (OverlayLevel H K)) (h : H) : Prop :=
  ∃ e ∈ entries levels, e.hash = h

/-! ## Layers -/

/-- The overlay holds the block's own changes. -/
structure Matches (B : Blocks H K) (e : BlockOverlay H K) : Prop where
  ne_root : e.hash ≠ B.root
  inserted : e.inserted = B.inserted e.hash
  deleted : e.deleted = B.deleted e.hash

/-- Every block of the first level has its parent in `below`, every other block
in the level under its own. -/
def Layered (B : Blocks H K) : (H → Prop) → List (OverlayLevel H K) → Prop
  | _, [] => True
  | below, level :: rest =>
    (∀ e ∈ level.blocks, Matches B e ∧ below (B.parent e.hash)) ∧
      Layered B (fun p => ∃ e ∈ level.blocks, e.hash = p) rest

variable {B : Blocks H K} {below below' : H → Prop} {levels : List (OverlayLevel H K)}

omit [DecidableEq K] in
theorem Layered.mono (hsub : ∀ p, below p → below' p) (h : Layered B below levels) :
    Layered B below' levels := by
  cases levels with
  | nil => trivial
  | cons level rest => exact ⟨fun e he => ⟨(h.1 e he).1, hsub _ (h.1 e he).2⟩, h.2⟩

section

variable (h : Layered B below levels)
include h

omit [DecidableEq K] in
theorem Layered.matches (he : e ∈ entries levels) : Matches B e := by
  induction levels generalizing below with
  | nil => cases he
  | cons level rest ih =>
    rw [entries_cons, List.mem_append] at he
    rcases he with he | he
    · exact (h.1 e he).1
    · exact ih h.2 he

section

omit [DecidableEq K]

variable [DecidableEq H]

theorem Layered.exists_anc (he : e ∈ entries levels) : ∃ p, below p ∧ B.tree.anc p e.hash := by
  induction levels generalizing below with
  | nil => cases he
  | cons level rest ih =>
    rw [entries_cons, List.mem_append] at he
    rcases he with he | he
    · obtain ⟨hm, hp⟩ := h.1 e he
      exact ⟨_, hp, B.anc_parent hm.ne_root⟩
    · obtain ⟨p, ⟨f, hf, rfl⟩, hpe⟩ := ih h.2 he
      obtain ⟨hm, hp⟩ := h.1 f hf
      exact ⟨_, hp, BlockTree.anc_trans (B.anc_parent hm.ne_root) hpe⟩

theorem Layered.number_eq {n : Nat} (hbelow : ∀ p, below p → B.tree.number p = n) {i : Nat} {level}
    (hi : levels[i]? = some level) (he : e ∈ level.blocks) : B.tree.number e.hash = n + i + 1 := by
  induction levels generalizing below n i with
  | nil => simp at hi
  | cons first rest ih =>
    have hfirst : ∀ f ∈ first.blocks, B.tree.number f.hash = n + 1 := by
      intro f hf
      obtain ⟨hm, hp⟩ := h.1 f hf
      rw [B.tree_number_child hm.ne_root, hbelow _ hp]
    cases i with
    | zero =>
      obtain rfl := by simpa using hi
      rw [hfirst e he]
    | succ i =>
      rw [ih h.2 (by rintro p ⟨f, hf, rfl⟩; exact hfirst f hf) (by simpa using hi)]
      omega

theorem Layered.inLevels_of_ancEq {n : Nat} (hbelow : ∀ p, below p → B.tree.number p = n)
    (he : e ∈ entries levels) {y : H} (hye : B.tree.ancEq y e.hash) (hy : n < B.tree.number y) :
    InLevels levels y := by
  induction levels generalizing below n with
  | nil => cases he
  | cons level rest ih =>
    have hlevel : ∀ f ∈ level.blocks, B.tree.number f.hash = n + 1 := fun f hf =>
      h.number_eq hbelow (i := 0) rfl hf
    rw [entries_cons, List.mem_append] at he
    rcases he with he | he
    · rcases hye with rfl | hye
      · exact ⟨e, by simp [he], rfl⟩
      · have := BlockTree.anc_number_lt hye
        have := hlevel e he
        omega
    by_cases hn : n + 1 < B.tree.number y
    · obtain ⟨f, hf, rfl⟩ :=
        ih h.2 (by rintro p ⟨f, hf, rfl⟩; exact hlevel f hf) he hn
      exact ⟨f, by simp [hf], rfl⟩
    obtain ⟨p, ⟨f, hf, rfl⟩, hfe⟩ := h.2.exists_anc he
    have heq : y = f.hash :=
      Blocks.ancEq_unique hye (.inr hfe) (by rw [hlevel f hf]; omega)
    exact ⟨f, by simp [hf], heq.symm⟩

end

end

end Substrate.StateDb
