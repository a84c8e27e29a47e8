import Substrate.BinarySearch

/-!
# Maps as sorted vectors

A vector of keys with values, strictly sorted by key, that is searched with `binary_search_by_key`:
overwriting at the position, removing from it, and inserting where nothing was found update the map
at the key.
-/

namespace Substrate.SortedVec

open Function List

variable {K V : Type} [LinearOrder K]

def Sorted (l : List (K × V)) : Prop := l.Pairwise fun a b => a.1 < b.1

def lookup (l : List (K × V)) (k : K) : Option V :=
  (l.find? fun e => decide (e.1 = k)).map Prod.snd

variable {l l1 l2 : List (K × V)} {k : K} {v v' : V} {i : Nat}

/-! ## Lookups -/

@[simp] theorem lookup_nil : lookup ([] : List (K × V)) k = none := rfl

theorem lookup_eq_none : lookup l k = none ↔ ∀ e ∈ l, e.1 ≠ k := by
  rw [lookup, Option.map_eq_none_iff]
  simp

theorem mem_of_lookup (h : lookup l k = some v) : (k, v) ∈ l := by
  obtain ⟨⟨k', v'⟩, hfind, rfl⟩ := Option.map_eq_some_iff.mp h
  obtain rfl := of_decide_eq_true (find?_some hfind :)
  exact mem_of_find?_eq_some hfind

theorem lookup_middle (h : ∀ e ∈ l1, e.1 ≠ k) :
    lookup (l1 ++ (k, v) :: l2) = update (lookup (l1 ++ l2)) k (some v) := by
  funext j
  have hfirst : k = j → l1.find? (fun e => decide (e.1 = j)) = none := by
    rintro rfl
    simpa using h
  unfold lookup
  rw [find?_append]
  by_cases hj : j = k
  · subst hj
    rw [hfirst rfl]
    simp
  · rw [update_of_ne hj]
    simp [Ne.symm hj]

theorem lookup_cons : lookup ((k, v) :: l) = update (lookup l) k (some v) :=
  lookup_middle (forall_mem_nil _)

/-! ## Sorted vectors -/

theorem Sorted.around (h : Sorted (l1 ++ (k, v) :: l2)) :
    (∀ e ∈ l1, e.1 < k) ∧ ∀ e ∈ l2, k < e.1 := by
  obtain ⟨-, hright, hcross⟩ := pairwise_append.mp h
  exact ⟨fun e he => hcross e he (k, v) mem_cons_self, fun e he => (pairwise_cons.mp hright).1 e he⟩

theorem sorted_middle (h1 : ∀ e ∈ l1, e.1 < k) (h2 : ∀ e ∈ l2, k < e.1) (h : Sorted (l1 ++ l2)) :
    Sorted (l1 ++ (k, v) :: l2) := by
  obtain ⟨hleft, hright, hcross⟩ := pairwise_append.mp h
  refine pairwise_append.mpr ⟨hleft, pairwise_cons.mpr ⟨h2, hright⟩, fun a ha b hb => ?_⟩
  rcases mem_cons.mp hb with rfl | hb
  · exact h1 a ha
  · exact hcross a ha b hb

theorem Sorted.of_middle (h : Sorted (l1 ++ (k, v) :: l2)) : Sorted (l1 ++ l2) :=
  h.sublist (List.Sublist.append_left (sublist_cons_self _ _) _)

theorem Sorted.mem_iff (h : Sorted l) : (k, v) ∈ l ↔ lookup l k = some v := by
  refine ⟨fun hmem => ?_, mem_of_lookup⟩
  obtain ⟨l1, l2, rfl⟩ := append_of_mem hmem
  rw [lookup_middle fun e he => (h.around.1 e he).ne, update_self]

omit [LinearOrder K] in
theorem split_at (h : l[i]? = some (k, v)) : l = l.take i ++ (k, v) :: l.drop (i + 1) := by
  obtain ⟨hi, hget⟩ := List.getElem?_eq_some_iff.mp h
  rw [← hget, getElem_cons_drop, take_append_drop]

/-! ## The search -/

theorem Sorted.search_ok (h : Sorted l) (hsearch : Vec.binarySearchByKey l k Prod.fst = .ok i) :
    ∃ v, l[i]? = some (k, v) ∧ lookup l k = some v := by
  have hloc := Vec.binarySearchByKey_located k (h.imp le_of_lt)
  rw [hsearch] at hloc
  obtain ⟨⟨k', v⟩, hget, rfl⟩ := hloc
  exact ⟨v, hget, h.mem_iff.mp (mem_of_getElem? hget)⟩

/-- Inserting at the position puts the key in the map. -/
theorem Sorted.search_error (h : Sorted l)
    (hsearch : Vec.binarySearchByKey l k Prod.fst = .error i) (v : V) :
    lookup l k = none ∧ Sorted (l.take i ++ (k, v) :: l.drop i) ∧
      lookup (l.take i ++ (k, v) :: l.drop i) = update (lookup l) k (some v) := by
  have hloc := Vec.binarySearchByKey_located k (h.imp le_of_lt)
  rw [hsearch] at hloc
  obtain ⟨-, hlow, hhigh⟩ := hloc
  have hbefore : ∀ e ∈ l.take i, e.1 < k := by
    intro e he
    obtain ⟨j, hj, hget⟩ := mem_take_iff_getElem.mp he
    exact hlow j e (List.getElem?_eq_some_iff.mpr ⟨by omega, hget⟩) (by omega)
  have hafter : ∀ e ∈ l.drop i, k < e.1 := by
    intro e he
    obtain ⟨j, hj, hget⟩ := mem_drop_iff_getElem.mp he
    exact hhigh (i + j) e (List.getElem?_eq_some_iff.mpr ⟨by omega, hget⟩) (by omega)
  refine ⟨lookup_eq_none.mpr fun e he => ?_, sorted_middle hbefore hafter ?_, ?_⟩
  · rw [← take_append_drop i l] at he
    rcases mem_append.mp he with hin | hin
    · exact (hbefore e hin).ne
    · exact (hafter e hin).ne'
  · rwa [take_append_drop]
  · rw [lookup_middle fun e he => (hbefore e he).ne, take_append_drop]

theorem Sorted.set (h : Sorted l) (hget : l[i]? = some (k, v)) (v' : V) : Sorted (l.set i (k, v')) ∧
      lookup (l.set i (k, v')) = update (lookup l) k (some v') := by
  have hi := (List.getElem?_eq_some_iff.mp hget).1
  have hsplit := split_at hget
  rw [hsplit] at h
  obtain ⟨hbefore, hafter⟩ := h.around
  have hne : ∀ e ∈ l.take i, e.1 ≠ k := fun e he => (hbefore e he).ne
  have hset : l.set i (k, v') = l.take i ++ (k, v') :: l.drop (i + 1) := by
    rw [set_eq_take_append_cons_drop, if_pos hi]
  have hlookup : lookup l = update (lookup (l.take i ++ l.drop (i + 1))) k (some v) := by
    rw [← lookup_middle hne, ← hsplit]
  rw [hset, lookup_middle hne, hlookup, update_idem]
  exact ⟨sorted_middle hbefore hafter h.of_middle, rfl⟩

theorem Sorted.eraseIdx (h : Sorted l) (hget : l[i]? = some (k, v)) :
    Sorted (l.eraseIdx i) ∧ lookup (l.eraseIdx i) = update (lookup l) k none := by
  have hsplit := split_at hget
  rw [hsplit] at h
  obtain ⟨hbefore, hafter⟩ := h.around
  have hne : ∀ e ∈ l.take i, e.1 ≠ k := fun e he => (hbefore e he).ne
  have hlookup : lookup l = update (lookup (l.take i ++ l.drop (i + 1))) k (some v) := by
    rw [← lookup_middle hne, ← hsplit]
  have hnone : lookup (l.take i ++ l.drop (i + 1)) k = none := by
    refine lookup_eq_none.mpr fun e he => ?_
    rcases mem_append.mp he with hin | hin
    · exact hne e hin
    · exact (hafter e hin).ne'
  rw [eraseIdx_eq_take_drop_succ, hlookup, update_idem, ← hnone, update_eq_self]
  exact ⟨h.of_middle, rfl⟩

end Substrate.SortedVec
