import Mathlib.Logic.Relation

/-!
# Ancestry in a tree of numbered blocks

A `BlockTree` gives every block at most one parent and numbers it one above that parent. Strict
ancestry `anc` decreases numbers (`anc_number_lt`), and two ancestors of one block are related
(`anc_connected`), because parents are unique.
-/

namespace Substrate

structure BlockTree (H : Type) where
  parent : H → Option H
  number : H → Nat
  number_parent : ∀ {h p : H}, parent h = some p → number h = number p + 1

namespace BlockTree

variable {H : Type} (T : BlockTree H) {a b c : H}

/-- `a` is a strict ancestor of `b`. -/
def anc (a b : H) : Prop :=
  Relation.TransGen (fun p c => T.parent c = some p) a b

def Unrelated (a b : H) : Prop := a ≠ b ∧ ¬T.anc a b ∧ ¬T.anc b a

variable {T}

theorem anc_trans (hab : T.anc a b) (hbc : T.anc b c) : T.anc a c :=
  Relation.TransGen.trans hab hbc

theorem anc_of_parent {p : H} (h : T.parent c = some p) : T.anc p c :=
  Relation.TransGen.single h

theorem anc_iff_parent : T.anc a b ↔ ∃ p, T.parent b = some p ∧ (p = a ∨ T.anc a p) := by
  constructor
  · intro h
    rcases Relation.TransGen.tail'_iff.mp h with ⟨p, hap, hp⟩
    refine ⟨p, hp, ?_⟩
    rcases Relation.reflTransGen_iff_eq_or_transGen.mp hap with rfl | h'
    · exact .inl rfl
    · exact .inr h'
  · rintro ⟨p, hp, rfl | h⟩
    · exact anc_of_parent hp
    · exact anc_trans h (anc_of_parent hp)

theorem anc_number_lt (h : T.anc a b) : T.number a < T.number b := by
  induction h with
  | single hp | tail _ hp ih => have := T.number_parent hp; omega

theorem anc_irrefl (a : H) : ¬T.anc a a := fun h =>
  Nat.lt_irrefl _ (anc_number_lt h)

theorem anc_ne (h : T.anc a b) : a ≠ b := by
  rintro rfl
  exact anc_irrefl _ h

/-- Both lie on the unique chain of parents. -/
theorem anc_connected (hac : T.anc a c) (hbc : T.anc b c) : a = b ∨ T.anc a b ∨ T.anc b a := by
  induction hac generalizing b with
  | @single c hp =>
    obtain ⟨p, hp', hb⟩ := anc_iff_parent.mp hbc
    obtain rfl := Option.some.inj (hp.symm.trans hp')
    rcases hb with rfl | hb
    · exact .inl rfl
    · exact .inr (.inr hb)
  | @tail m c ham hp ih =>
    obtain ⟨p, hp', hb⟩ := anc_iff_parent.mp hbc
    obtain rfl := Option.some.inj (hp.symm.trans hp')
    rcases hb with rfl | hb
    · exact .inr (.inl ham)
    · exact ih hb

theorem Unrelated.symm (h : T.Unrelated a b) : T.Unrelated b a :=
  ⟨h.1.symm, h.2.2, h.2.1⟩

/-- `a` is `b` or an ancestor of it. -/
def ancEq (T : BlockTree H) (a b : H) : Prop := a = b ∨ T.anc a b

theorem ancEq.trans_anc (hab : T.ancEq a b) (hbc : T.anc b c) : T.anc a c := by
  rcases hab with rfl | hab
  · exact hbc
  · exact anc_trans hab hbc

theorem anc.trans_ancEq (hab : T.anc a b) (hbc : T.ancEq b c) : T.anc a c := by
  rcases hbc with rfl | hbc
  · exact hab
  · exact anc_trans hab hbc

theorem Unrelated.not_ancEq (h : T.Unrelated a b) (hac : T.ancEq a c) (hbc : T.ancEq b c) :
    False := by
  rcases hac with rfl | hac <;> rcases hbc with rfl | hbc
  · exact h.1 rfl
  · exact h.2.2 hbc
  · exact h.2.1 hac
  · rcases anc_connected hac hbc with heq | hab | hba
    · exact h.1 heq
    · exact h.2.1 hab
    · exact h.2.2 hba

theorem Unrelated.mono {d : H} (h : T.Unrelated a b) (hac : T.ancEq a c) (hbd : T.ancEq b d) :
    T.Unrelated c d := by
  refine ⟨?_, ?_, ?_⟩
  · rintro rfl
    exact h.not_ancEq hac hbd
  · intro hcd
    exact h.not_ancEq (.inr (hac.trans_anc hcd)) hbd
  · intro hdc
    exact h.not_ancEq hac (.inr (hbd.trans_anc hdc))

end BlockTree

end Substrate
