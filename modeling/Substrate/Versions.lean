import Substrate.FinMap

/-!
# Sparse versions under nested transactions

A way to keep one copy of a map for each open transaction without copying: each key has a stack of
versions `vs k`, innermost first, and each open transaction has the set of keys it wrote. Undoing a
transaction drops the first version of the keys in its set (`undo`). `levels` lists the copies this
stands for, the current one first.

A write is undone with the transaction it belongs to (`undo_write`), and undoing a merged
transaction undoes both (`undo_merge`).
-/

namespace Substrate.Versions

variable {K A V : Type} [DecidableEq K]

def undo (s : KeySet K) (vs : K → List A) (k : K) : List A :=
  if k ∈ s then (vs k).tail else vs k

def seen (val : A → V) (vs : K → List A) (k : K) : Option V := (vs k).head?.map val

def levels (val : A → V) : (K → List A) → List (KeySet K) → List (K → Option V)
  | vs, [] => [seen val vs]
  | vs, s :: ss => seen val vs :: levels val (undo s vs) ss

/-- Every transaction only claims keys that have a version when it is undone. -/
def Nested : (K → List A) → List (KeySet K) → Prop
  | _, [] => True
  | vs, s :: ss => (∀ k ∈ s, vs k ≠ []) ∧ Nested (undo s vs) ss

variable {val : A → V} {vs vs' : K → List A} {s s' : KeySet K} {ss : List (KeySet K)}

@[simp] theorem length_levels : (levels val vs ss).length = ss.length + 1 := by
  induction ss generalizing vs with
  | nil => rfl
  | cons s ss ih => simp [levels, ih]

theorem levels_eq_cons : levels val vs ss = seen val vs :: (levels val vs ss).tail := by
  cases ss <;> rfl

theorem levels_nil : ∀ l ∈ levels val (fun _ : K => ([] : List A)) ss, ∀ k, l k = none := by
  induction ss with
  | nil => simp [levels, seen]
  | cons s ss ih =>
    have hundo : undo s (fun _ : K => ([] : List A)) = fun _ => [] := by
      funext k
      simp [undo]
    rw [levels, hundo]
    exact List.forall_mem_cons.mpr ⟨fun _ => rfl, ih⟩

theorem undo_empty : undo KeySet.empty vs = vs := by
  funext k
  simp [undo]

/-- A key of the transaction, or a new one on top of the old versions. -/
theorem undo_write {k : K} {e : List A} (hs : ∀ j, j ∈ s' ↔ j = k ∨ j ∈ s)
    (he : e.tail = undo s vs k) : undo s' (Function.update vs k e) = undo s vs := by
  funext j
  by_cases hj : j = k
  · subst hj
    rw [undo, if_pos ((hs j).mpr (.inl rfl)), Function.update_self, he]
  · have hmem : j ∈ s' ↔ j ∈ s := by simp [hs, hj]
    simp [undo, Function.update_of_ne hj, hmem]

/-- Keys of both transactions lose the version between. -/
theorem undo_merge {p p' : KeySet K} (hp : ∀ k, k ∈ p' ↔ k ∈ s ∨ k ∈ p)
    (hboth : ∀ k, k ∈ s → k ∈ p → (vs' k).tail = (vs k).tail.tail)
    (hother : ∀ k, ¬(k ∈ s ∧ k ∈ p) → vs' k = vs k) :
    undo p' vs' = undo p (undo s vs) := by
  funext k
  by_cases hs : k ∈ s
  · have hp' : k ∈ p' := (hp k).mpr (.inl hs)
    by_cases hpk : k ∈ p
    · simp [undo, if_pos hs, if_pos hpk, if_pos hp', hboth k hs hpk]
    · simp [undo, if_pos hs, if_neg hpk, if_pos hp', hother k fun h => hpk h.2]
  · have hmem : k ∈ p' ↔ k ∈ p := by simp [hp, hs]
    simp [undo, if_neg hs, hmem, hother k fun h => hs h.1]

end Substrate.Versions
