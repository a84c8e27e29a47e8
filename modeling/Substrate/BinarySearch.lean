import Mathlib.Order.Lattice
import Mathlib.Data.List.Pairwise
import Mathlib.Tactic.Set

/-!
# Binary search in a sorted vector

`slice::binary_search_by_key`: `ok i` when the key is found at index `i`, `error i` when it is
absent and `i` is where it could be inserted. On a sorted vector everything before `left` is smaller
than the key and everything from `right` on is larger. Callers use the index either way
(`insertionPoint`).
-/

namespace Substrate.Vec

open List

variable {α K : Type} [LinearOrder K]

section

variable (l : List α) (key : K) (f : α → K)

def binarySearchLoop : (fuel left right : Nat) → Except Nat Nat
  | 0, left, _ => .error left
  | fuel + 1, left, right =>
    if left < right then
      let mid := left + (right - left) / 2
      match l[mid]? with
      | none => .error left
      | some a =>
        if f a < key then binarySearchLoop fuel (mid + 1) right
        else if key < f a then binarySearchLoop fuel left mid
        else .ok mid
    else .error left

/-- Every round shrinks the interval. -/
def binarySearchByKey : Except Nat Nat :=
  binarySearchLoop l key f l.length 0 l.length

/-- `unwrap_or_else(|i| i)`. -/
def insertionPoint : Except Nat Nat → Nat
  | .ok i => i
  | .error i => i

/-- What the search says about a sorted vector. -/
def Located : Except Nat Nat → Prop
  | .ok i => ∃ a, l[i]? = some a ∧ f a = key
  | .error i => i ≤ l.length ∧ (∀ j a, l[j]? = some a → j < i → f a < key) ∧
      ∀ j a, l[j]? = some a → i ≤ j → key < f a

end

section Spec

variable {l : List α} {key : K} {f : α → K}

theorem sorted_getElem? (hs : l.Pairwise (fun a b => f a ≤ f b)) {i j : Nat} {a b : α}
    (ha : l[i]? = some a) (hb : l[j]? = some b) (hij : i ≤ j) : f a ≤ f b := by
  obtain ⟨hi, rfl⟩ := List.getElem?_eq_some_iff.mp ha
  obtain ⟨hj, rfl⟩ := List.getElem?_eq_some_iff.mp hb
  rcases Nat.lt_or_eq_of_le hij with hlt | rfl
  · exact pairwise_iff_getElem.mp hs i j hi hj hlt
  · exact le_rfl

theorem binarySearchLoop_located (hs : l.Pairwise (fun a b => f a ≤ f b))
    {fuel left right : Nat} (hfuel : right ≤ left + fuel) (hle : left ≤ right)
    (hlen : right ≤ l.length)
    (hlow : ∀ j a, l[j]? = some a → j < left → f a < key)
    (hhigh : ∀ j a, l[j]? = some a → right ≤ j → key < f a) :
    Located l key f (binarySearchLoop l key f fuel left right) := by
  induction fuel generalizing left right with
  | zero =>
    obtain rfl : left = right := by omega
    exact ⟨hlen, hlow, hhigh⟩
  | succ fuel ih =>
    rw [binarySearchLoop]
    split
    · set mid := left + (right - left) / 2 with hmid
      have hsome : l[mid]? = some (l[mid]) := getElem?_eq_getElem (by omega)
      dsimp only
      rw [hsome]
      dsimp only
      split
      · rename_i hcmp
        refine ih (by omega) (by omega) hlen (fun j a ha hj => ?_) hhigh
        exact lt_of_le_of_lt (sorted_getElem? hs ha hsome (by omega)) hcmp
      rename_i hnlt
      split
      · rename_i hcmp
        refine ih (by omega) (by omega) (by omega) hlow (fun j a ha hj => ?_)
        exact lt_of_lt_of_le hcmp (sorted_getElem? hs hsome ha hj)
      · rename_i hngt
        exact ⟨_, hsome, le_antisymm (not_lt.mp hngt) (not_lt.mp hnlt)⟩
    · obtain rfl : left = right := by omega
      exact ⟨hlen, hlow, hhigh⟩

theorem binarySearchByKey_located (key : K) (hs : l.Pairwise (fun a b => f a ≤ f b)) :
    Located l key f (binarySearchByKey l key f) :=
  binarySearchLoop_located hs (by omega) (by omega) (Nat.le_refl _) (fun _ _ _ hj => by omega)
    (fun j a ha hj => by
      obtain ⟨hlt, -⟩ := List.getElem?_eq_some_iff.mp ha
      omega)

theorem insertionPoint_splits (key : K) (hs : l.Pairwise (fun a b => f a ≤ f b)) :
    (∀ a ∈ l.take (insertionPoint (binarySearchByKey l key f)), f a ≤ key) ∧
      ∀ a ∈ l.drop (insertionPoint (binarySearchByKey l key f)), key ≤ f a := by
  have hloc := binarySearchByKey_located key hs
  rcases hres : binarySearchByKey l key f with i | i
  · rw [hres] at hloc
    obtain ⟨-, hlow, hhigh⟩ := hloc
    simp only [insertionPoint]
    refine ⟨fun a ha => ?_, fun a ha => ?_⟩
    · obtain ⟨j, hj, hja⟩ := mem_take_iff_getElem.mp ha
      exact le_of_lt (hlow j a (List.getElem?_eq_some_iff.mpr ⟨by omega, hja⟩) (by omega))
    · obtain ⟨j, hj, hja⟩ := mem_drop_iff_getElem.mp ha
      exact le_of_lt (hhigh (i + j) a (List.getElem?_eq_some_iff.mpr ⟨by omega, hja⟩) (by omega))
  rw [hres] at hloc
  obtain ⟨b, hb, rfl⟩ := hloc
  simp only [insertionPoint]
  refine ⟨fun a ha => ?_, fun a ha => ?_⟩
  · obtain ⟨j, hj, hja⟩ := mem_take_iff_getElem.mp ha
    exact sorted_getElem? hs (List.getElem?_eq_some_iff.mpr ⟨by omega, hja⟩) hb (by omega)
  · obtain ⟨j, hj, hja⟩ := mem_drop_iff_getElem.mp ha
    exact sorted_getElem? hs hb (List.getElem?_eq_some_iff.mpr ⟨by omega, hja⟩) (by omega)

theorem sorted_insert {x : α} (hs : l.Pairwise (fun a b => f a ≤ f b)) :
    (l.take (insertionPoint (binarySearchByKey l (f x) f)) ++
      x :: l.drop (insertionPoint (binarySearchByKey l (f x) f))).Pairwise
        (fun a b => f a ≤ f b) := by
  obtain ⟨hlow, hhigh⟩ := insertionPoint_splits (f x) hs
  refine pairwise_append.mpr ⟨hs.sublist (take_sublist ..),
    pairwise_cons.mpr ⟨hhigh, hs.sublist (drop_sublist ..)⟩, fun a ha b hb => ?_⟩
  rcases mem_cons.mp hb with rfl | hb
  · exact hlow a ha
  · exact le_trans (hlow a ha) (hhigh b hb)

/-- In a strictly sorted vector the insertion point is the first index whose key
is not below the given one. -/
theorem find?_eq_getElem?_insertionPoint (key : K) (hs : l.Pairwise (fun a b => f a < f b)) :
    l.find? (fun a => decide (key ≤ f a)) = l[insertionPoint (binarySearchByKey l key f)]? := by
  have hle : l.Pairwise (fun a b => f a ≤ f b) := hs.imp le_of_lt
  have hloc := binarySearchByKey_located key hle
  -- everything before the insertion point is strictly below the key
  have hbelow : ∀ j a, l[j]? = some a → j < insertionPoint (binarySearchByKey l key f) →
      f a < key := by
    rcases hres : binarySearchByKey l key f with i | i
    · rw [hres] at hloc
      exact hloc.2.1
    rw [hres] at hloc
    obtain ⟨b, hb, rfl⟩ := hloc
    intro j a ha hj
    obtain ⟨hj', rfl⟩ := List.getElem?_eq_some_iff.mp ha
    obtain ⟨hi, rfl⟩ := List.getElem?_eq_some_iff.mp hb
    exact pairwise_iff_getElem.mp hs j i hj' hi hj
  have habove := (insertionPoint_splits key hle).2
  set i := insertionPoint (binarySearchByKey l key f)
  have hsplit : l = l.take i ++ l.drop i := (take_append_drop i l).symm
  have hnone : (l.take i).find? (fun a => decide (key ≤ f a)) = none := by
    refine find?_eq_none.mpr fun a ha => ?_
    obtain ⟨j, hj, hja⟩ := mem_take_iff_getElem.mp ha
    have hlt := hbelow j a (List.getElem?_eq_some_iff.mpr ⟨by omega, hja⟩) (by omega)
    simpa using hlt
  have hfind : l.find? (fun a => decide (key ≤ f a)) =
      (l.drop i).find? (fun a => decide (key ≤ f a)) := by
    rw [hsplit, find?_append, hnone, Option.none_or, ← hsplit]
  rw [← head?_drop, hfind]
  rcases hdrop : l.drop i with _ | ⟨b, rest⟩
  · rfl
  · rw [find?_cons, decide_eq_true (habove b (by rw [hdrop]; exact mem_cons_self ..)), head?_cons]

end Spec

end Substrate.Vec
