import Mathlib.Data.List.Basic
import Substrate.Ancestry

/-!
# Blocks and their states

The blocks a chain can grow above a block `root`, named by their hashes: parent, number, and the
state keys each inserts and deletes. `Live S h k` is membership of a key in the state of a block
when the state of `root` is `S`.
-/

namespace Substrate

open BlockTree

structure Blocks (H K : Type) where
  root : H
  first : Nat
  parent : H → H
  number : H → Nat
  inserted : H → List K
  deleted : H → List K
  number_first : ∀ h, h ≠ root → parent h = root → number h = first
  number_succ : ∀ h, h ≠ root → parent h ≠ root → number h = number (parent h) + 1

namespace Blocks

variable {H K : Type} [DecidableEq H] (B : Blocks H K)

/-- Its numbers are one more than the blocks' own, which leaves room for `root` below a first block
numbered zero. -/
def tree : BlockTree H where
  parent h := if h = B.root then none else some (B.parent h)
  number h := if h = B.root then B.first else B.number h + 1
  number_parent {h p} hp := by
    by_cases hh : h = B.root
    · simp [hh] at hp
    simp only [hh, if_false, Option.some.injEq] at hp ⊢
    subst hp
    by_cases hr : B.parent h = B.root
    · rw [if_pos hr, B.number_first h hh hr]
    · rw [if_neg hr, B.number_succ h hh hr]

variable {h : H}

theorem tree_parent (hh : h ≠ B.root) : B.tree.parent h = some (B.parent h) :=
  if_neg hh

theorem tree_number (hh : h ≠ B.root) : B.tree.number h = B.number h + 1 := if_neg hh

theorem tree_number_root : B.tree.number B.root = B.first := if_pos rfl

theorem tree_number_child (hh : h ≠ B.root) : B.tree.number h = B.tree.number (B.parent h) + 1 :=
  B.tree.number_parent (B.tree_parent hh)

theorem anc_parent (hh : h ≠ B.root) : B.tree.anc (B.parent h) h :=
  anc_of_parent (B.tree_parent hh)

theorem anc_iff {a : H} : B.tree.anc a h ↔ h ≠ B.root ∧ B.tree.ancEq a (B.parent h) := by
  rw [anc_iff_parent]
  constructor
  · rintro ⟨p, hp, hap⟩
    have hh : h ≠ B.root := by
      rintro rfl
      simp [tree] at hp
    rw [B.tree_parent hh, Option.some.injEq] at hp
    subst hp
    exact ⟨hh, hap.imp Eq.symm id⟩
  · rintro ⟨hh, hap⟩
    exact ⟨_, B.tree_parent hh, hap.imp Eq.symm id⟩

inductive Live (S : K → Prop) : H → K → Prop
  | root {k : K} : S k → Live S B.root k
  | inserted {h : H} {k : K} : h ≠ B.root → k ∈ B.inserted h → Live S h k
  | kept {h : H} {k : K} : h ≠ B.root → Live S (B.parent h) k → k ∉ B.deleted h → Live S h k

/-- Every block inserts and deletes disjoint sets of keys and only deletes keys
that are live in its parent's state. -/
structure ValidChanges (S : K → Prop) : Prop where
  disjoint : ∀ h, h ≠ B.root → ∀ k ∈ B.inserted h, k ∉ B.deleted h
  deleted_live : ∀ h, h ≠ B.root → ∀ k ∈ B.deleted h, B.Live S (B.parent h) k

variable {B} {S : K → Prop}

omit [DecidableEq H] in
theorem live_iff {k : K} (hh : h ≠ B.root) :
    B.Live S h k ↔ k ∈ B.inserted h ∨ (B.Live S (B.parent h) k ∧ k ∉ B.deleted h) := by
  constructor
  · intro hl
    cases hl with
    | root _ => exact absurd rfl hh
    | inserted _ hk => exact .inl hk
    | kept _ hp hk => exact .inr ⟨hp, hk⟩
  · rintro (hk | ⟨hp, hk⟩)
    · exact .inserted hh hk
    · exact .kept hh hp hk

theorem live_above {b x : H} {k : K} (hbx : B.tree.ancEq b x) (hl : B.Live S x k) :
    (∃ y, B.tree.anc b y ∧ B.tree.ancEq y x ∧ k ∈ B.inserted y) ∨
      (B.Live S b k ∧ ∀ y, B.tree.anc b y → B.tree.ancEq y x → k ∉ B.deleted y) := by
  induction hl with
  | root hS =>
    rcases hbx with rfl | hbx
    · refine .inr ⟨.root hS, fun y hby hyb => ?_⟩
      exact absurd (hyb.trans_anc hby) (anc_irrefl _)
    · exact absurd rfl (B.anc_iff.mp hbx).1
  | @inserted x k hx hk =>
    rcases hbx with rfl | hbx
    · refine .inr ⟨.inserted hx hk, fun y hby hyb => ?_⟩
      exact absurd (hyb.trans_anc hby) (anc_irrefl _)
    · exact .inl ⟨x, hbx, .inl rfl, hk⟩
  | @kept x k hx hp hk ih =>
    rcases hbx with rfl | hbx
    · refine .inr ⟨.kept hx hp hk, fun y hby hyb => ?_⟩
      exact absurd (hyb.trans_anc hby) (anc_irrefl _)
    rcases ih (B.anc_iff.mp hbx).2 with ⟨y, hby, hyx, hky⟩ | ⟨hlb, hdel⟩
    · exact .inl ⟨y, hby, .inr (hyx.trans_anc (B.anc_parent hx)), hky⟩
    refine .inr ⟨hlb, fun y hby hyx => ?_⟩
    rcases hyx with rfl | hyx
    · exact hk
    · exact hdel y hby (B.anc_iff.mp hyx).2

theorem ancEq_unique {x y z : H} (hx : B.tree.ancEq x z) (hy : B.tree.ancEq y z)
    (hnum : B.tree.number x = B.tree.number y) : x = y := by
  by_contra hne
  have hrel : B.tree.Unrelated x y := by
    refine ⟨hne, fun h => ?_, fun h => ?_⟩
    · exact absurd (anc_number_lt h) (by omega)
    · exact absurd (anc_number_lt h) (by omega)
  exact hrel.not_ancEq hx hy

end Blocks

end Substrate
