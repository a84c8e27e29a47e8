import Mathlib.Data.List.MinMax
import Mathlib.Data.List.Perm.Basic

/-!
# Vectors, and sets ordered by a key

A vector is a list; `push` appends at the end. A set whose order, and with it its equality, is that
of a key of its elements lists them in no particular order; `last?` finds the greatest.
-/

namespace Substrate.Vec

open List

variable {α β : Type} {l : List α} {i : Nat} {a : α}

/-- The last element takes the place of the one taken out. -/
def swapRemove (l : List α) (i : Nat) : List α :=
  match l.getLast? with
  | none => l
  | some x => (l.set i x).dropLast

section

variable (h : l[i]? = some a)
include h

theorem swapRemove_cases : (∃ pre, pre.length = i ∧ l = pre ++ [a] ∧ swapRemove l i = pre) ∨
    ∃ pre post x, pre.length = i ∧ l = pre ++ a :: (post ++ [x]) ∧
      swapRemove l i = pre ++ x :: post := by
  obtain ⟨hi, rfl⟩ := List.getElem?_eq_some_iff.mp h
  have hsplit : l = l.take i ++ l[i] :: l.drop (i + 1) := by
    rw [getElem_cons_drop, take_append_drop]
  have hlen : (l.take i).length = i := length_take_of_le (Nat.le_of_lt hi)
  generalize l[i] = a at hsplit
  generalize l.take i = pre at hsplit hlen
  generalize l.drop (i + 1) = post at hsplit
  subst hsplit hlen
  rcases eq_nil_or_concat' post with rfl | ⟨post, x, rfl⟩
  · exact .inl ⟨pre, rfl, rfl, by simp [swapRemove]⟩
  have hlast : (pre ++ a :: (post ++ [x])).getLast? = some x := by
    rw [← cons_append, ← append_assoc, getLast?_concat]
  refine .inr ⟨pre, post, x, rfl, rfl, ?_⟩
  rw [swapRemove, hlast]
  simp only [set_append_right _ _ (Nat.le_refl _), Nat.sub_self, set_cons_zero]
  rw [← cons_append, ← append_assoc, dropLast_concat]

theorem cons_swapRemove_perm : (a :: swapRemove l i).Perm l := by
  rcases swapRemove_cases h with ⟨pre, -, rfl, heq⟩ | ⟨pre, post, x, -, rfl, heq⟩
  · rw [heq]
    exact (perm_append_singleton a pre).symm
  · rw [heq]
    refine .trans (.cons a ?_) perm_middle.symm
    exact (perm_append_singleton x post).symm.append_left pre

theorem mem_of_mem_swapRemove {b : α} (hb : b ∈ swapRemove l i) : b ∈ l :=
  (cons_swapRemove_perm h).mem_iff.mp (mem_cons_of_mem _ hb)

theorem length_swapRemove : (swapRemove l i).length + 1 = l.length := by
  simpa using (cons_swapRemove_perm h).length_eq

theorem le_length_swapRemove : i ≤ (swapRemove l i).length := by
  have := length_swapRemove h
  have := (List.getElem?_eq_some_iff.mp h).1
  omega

/-- From position `i` on, `swap_remove i` is `remove i` up to order. -/
theorem drop_swapRemove_perm : ((swapRemove l i).drop i).Perm (l.drop (i + 1)) := by
  rcases swapRemove_cases h with ⟨pre, rfl, rfl, heq⟩ | ⟨pre, post, x, rfl, rfl, heq⟩
  · simp [heq]
  · rw [heq, drop_left, ← drop_drop, drop_left]
    exact (perm_append_singleton x post).symm

theorem take_swapRemove : (swapRemove l i).take i = l.take i := by
  rcases swapRemove_cases h with ⟨pre, rfl, rfl, heq⟩ | ⟨pre, post, x, rfl, rfl, heq⟩
  · simp [heq]
  · simp [heq]

end

theorem findIdx?_split {p : α → Bool} (h : l.findIdx? p = some i) :
    ∃ pre a post, l = pre ++ a :: post ∧ pre.length = i ∧ p a = true := by
  obtain ⟨hi, ha, -⟩ := List.findIdx?_eq_some_iff_getElem.mp h
  refine ⟨l.take i, l[i], l.drop (i + 1), ?_, List.length_take_of_le (Nat.le_of_lt hi), ha⟩
  rw [List.getElem_cons_drop, List.take_append_drop]

theorem foldlM_keeps {f : β → α → Option β} {P : β → Prop}
    (hround : ∀ b a b', P b → f b a = some b' → P b') {b b' : β} (h : P b)
    (hrun : l.foldlM f b = some b') : P b' := by
  induction l generalizing b with
  | nil => exact Option.some.inj hrun ▸ h
  | cons a l ih =>
    obtain ⟨b₁, hfirst, hmore⟩ := Option.bind_eq_some_iff.mp hrun
    exact ih (hround b a b₁ h hfirst) hmore

end Substrate.Vec

namespace Substrate.OrdSet

variable {α K : Type} [LinearOrder K] (key : α → K) {s : List α} {a b : α}

def insert (s : List α) (a : α) : List α :=
  if s.any (fun b => decide (key b = key a)) then s else a :: s

def remove (s : List α) (a : α) : List α := s.filter (fun b => decide (key b ≠ key a))

def last? (s : List α) : Option α := s.argmax key

variable {key}

/-- The element is there afterwards, unless another one has its key. -/
theorem mem_insert (hkey : ∀ c ∈ s, key c = key a → c = a) :
    b ∈ insert key s a ↔ b = a ∨ b ∈ s := by
  unfold insert
  split
  · rename_i h
    obtain ⟨c, hc, heq⟩ := List.any_eq_true.mp h
    have hca : c = a := hkey c hc (of_decide_eq_true heq)
    subst hca
    refine ⟨.inr, ?_⟩
    rintro (rfl | hb)
    · exact hc
    · exact hb
  · exact List.mem_cons

theorem mem_remove : b ∈ remove key s a ↔ b ∈ s ∧ key b ≠ key a := by
  simp [remove]

theorem last?_eq_none : last? key s = none ↔ s = [] := List.argmax_eq_none

end Substrate.OrdSet
