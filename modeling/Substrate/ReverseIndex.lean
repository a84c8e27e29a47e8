import Mathlib.Logic.Function.Basic

/-!
# Reverse indices

A store that keeps values at positions, some of them named, may keep a second map from names to
positions. `Inverts look name` says that it is right: a name is looked up at a position exactly if
it is the name there. An index stays right if it is changed along with the store: when a name is
placed, removed, or moved to a free position.
-/

namespace Substrate

open Function Option

variable {K P : Type}

def Inverts (look : K → Option P) (name : P → Option K) : Prop :=
  ∀ k p, look k = some p ↔ name p = some k

namespace Inverts

variable [DecidableEq K] [DecidableEq P] {look : K → Option P} {name : P → Option K}
  {k : K} {p q : P}

section

variable (h : Inverts look name)
include h

theorem place (hk : look k = none) (hp : name p = none) :
    Inverts (update look k (some p)) (update name p (some k)) := by
  intro j q
  by_cases hq : q = p
  · subst hq
    rw [update_self]
    by_cases hj : j = k
    · subst hj
      rw [update_self]
      exact iff_of_true rfl rfl
    · rw [update_of_ne hj, h j q, hp]
      exact iff_of_false (fun hno => nomatch hno) fun heq => hj (some.inj heq).symm
  rw [update_of_ne hq]
  by_cases hj : j = k
  · subst hj
    rw [update_self, ← h j q, hk]
    exact iff_of_false (fun heq => hq (some.inj heq).symm) fun hno => nomatch hno
  · rw [update_of_ne hj]
    exact h j q

theorem remove (hp : name p = some k) : Inverts (update look k none) (update name p none) := by
  intro j q
  by_cases hj : j = k
  · subst hj
    rw [update_self]
    refine iff_of_false (fun hno => nomatch hno) fun hq => ?_
    by_cases hqp : q = p
    · rw [hqp, update_self] at hq
      cases hq
    · rw [update_of_ne hqp] at hq
      exact hqp (some.inj (((h j q).mpr hq).symm.trans ((h j p).mpr hp)))
  rw [update_of_ne hj]
  by_cases hqp : q = p
  · subst hqp
    rw [update_self, h j q, hp]
    exact iff_of_false (fun heq => hj (some.inj heq).symm) fun hno => nomatch hno
  · rw [update_of_ne hqp]
    exact h j q

theorem move (hp : name p = some k) (hq : name q = none) : Inverts (update look k (some q))
      (update (update name p none) q (some k)) := by
  have hne : q ≠ p := by
    rintro rfl
    rw [hq] at hp
    cases hp
  have := (h.remove hp).place (update_self ..) (by rwa [update_of_ne hne])
  rwa [update_idem] at this

end

end Inverts

end Substrate
