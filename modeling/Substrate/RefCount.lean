import Mathlib.Data.List.Count
import Substrate.FinMap

/-!
# Reference-counted values

A map that keeps, next to the value of a key, how often the key is in use, and drops the key when
that number falls to zero. `Counts val c m` says that `m` holds exactly the keys that `c` counts,
each with its count and with the value `val` gives it.

Where the values of the keys are not known, `Lent m c m'` says that `m'` holds what `m` does with
`c` uses more. Releasing what was retained gives `m` back, if no key of it had count zero.
-/

namespace Substrate.RefCount

open Function RefCount Option List

variable {K V : Type}

def Counts (val : K → V) (c : K → Nat) (m : FinMap K (Nat × V)) : Prop :=
  ∀ k, m.get? k = if c k = 0 then none else some (c k, val k)

variable {val : K → V} {c d : K → Nat} {m : FinMap K (Nat × V)}

theorem Counts.congr (h : Counts val c m) (hcd : ∀ k, c k = d k) : Counts val d m := by
  intro k
  rw [h k, hcd k]

variable {k : K} [DecidableEq K]

/-- A key that is new gets the value `v`. -/
def retain (m : FinMap K (Nat × V)) (k : K) (v : V) : FinMap K (Nat × V) :=
  match m.get? k with
  | some (n, w) => m.insert k (n + 1, w)
  | none => m.insert k (1, v)

/-- The key goes with its last use. -/
def release (m : FinMap K (Nat × V)) (k : K) : FinMap K (Nat × V) :=
  match m.get? k with
  | some (n, w) => if n - 1 = 0 then m.erase k else m.insert k (n - 1, w)
  | none => m

theorem Counts.retain (h : Counts val c m) (hd : ∀ j, d j = c j + if j = k then 1 else 0) :
    Counts val d (retain m k (val k)) := by
  intro j
  have hget : (RefCount.retain m k (val k)).get? = update m.get? k (some (c k + 1, val k)) := by
    unfold RefCount.retain
    rw [h k]
    by_cases hc : c k = 0 <;> simp [hc]
  rw [hget, hd j]
  by_cases hj : j = k
  · subst hj
    rw [update_self, if_pos rfl, if_neg (by omega)]
  · rw [update_of_ne hj, h j, if_neg hj, Nat.add_zero]

theorem Counts.release (h : Counts val d m) (hd : ∀ j, d j = c j + if j = k then 1 else 0) :
    Counts val c (release m k) := by
  intro j
  have hk : m.get? k = some (c k + 1, val k) := by
    rw [h k, hd k, if_pos rfl, if_neg (by omega)]
  have hget : (RefCount.release m k).get? =
      update m.get? k (if c k = 0 then none else some (c k, val k)) := by
    unfold RefCount.release
    rw [hk]
    by_cases hc : c k = 0 <;> simp [hc]
  rw [hget]
  by_cases hj : j = k
  · subst hj
    rw [update_self]
  · rw [update_of_ne hj, h j, hd j, if_neg hj, Nat.add_zero]

theorem count_cons_eq (j k : K) (ks : List K) :
    (k :: ks).count j = (if j = k then 1 else 0) + ks.count j := by
  rw [Nat.add_comm]
  by_cases hj : j = k
  · simp [hj]
  · have hkj : ¬k = j := fun h => hj h.symm
    simp [hj, hkj]

theorem Counts.retainAll {kvs : List (K × V)} (h : Counts val c m)
    (hval : ∀ p ∈ kvs, p.2 = val p.1) :
    Counts val (fun j => c j + (kvs.map Prod.fst).count j)
      (kvs.foldl (fun m p => RefCount.retain m p.1 p.2) m) := by
  induction kvs generalizing c m with
  | nil => exact h.congr fun k => by simp
  | cons p kvs ih =>
    obtain ⟨hp, hrest⟩ := forall_mem_cons.mp hval
    rw [foldl_cons, hp]
    refine (ih (h.retain fun j => rfl) hrest).congr fun k => ?_
    rw [map_cons, count_cons_eq, Nat.add_assoc]

theorem Counts.releaseAll {ks : List K} (h : Counts val (fun j => c j + ks.count j) m) :
    Counts val c (ks.foldl RefCount.release m) := by
  induction ks generalizing m with
  | nil => exact h.congr fun k => by simp
  | cons k ks ih =>
    rw [foldl_cons]
    refine ih (h.release fun j => ?_)
    rw [count_cons_eq]
    omega

/-! ## Lending -/

def Positive (m : FinMap K (Nat × V)) : Prop := ∀ k n v, m.get? k = some (n, v) → 0 < n

def Uses (o : Option (Nat × V)) (n : Nat) (o' : Option (Nat × V)) : Prop :=
  match o with
  | some (m, v) => o' = some (m + n, v)
  | none => if n = 0 then o' = none else ∃ v, o' = some (n, v)

def Lent (m : FinMap K (Nat × V)) (c : K → Nat) (m' : FinMap K (Nat × V)) : Prop :=
  ∀ k, Uses (m.get? k) (c k) (m'.get? k)

variable {m' : FinMap K (Nat × V)}

theorem uses_zero {o o' : Option (Nat × V)} : Uses o 0 o' ↔ o' = o := by
  cases o <;> simp [Uses]

theorem get?_retain (m : FinMap K (Nat × V)) (k : K) (v : V) : (retain m k v).get? = update m.get? k
      (some (((m.get? k).map Prod.fst).getD 0 + 1, ((m.get? k).map Prod.snd).getD v)) := by
  unfold retain
  cases hk : m.get? k with
  | none => simp
  | some p => simp

theorem get?_release (m : FinMap K (Nat × V)) (k : K) : (release m k).get? = update m.get? k
      ((m.get? k).bind fun p => if p.1 - 1 = 0 then none else some (p.1 - 1, p.2)) := by
  unfold release
  cases hk : m.get? k with
  | none => exact (update_eq_self_iff.mpr hk.symm).symm
  | some p =>
    obtain ⟨n, v⟩ := p
    simp only [bind_some]
    split <;> simp

section

variable (h : Positive m)
include h

theorem Positive.retain (k : K) (v : V) : Positive (retain m k v) := by
  intro j n w hj
  rw [get?_retain] at hj
  by_cases hjk : j = k
  · rw [hjk, update_self, some.injEq, Prod.mk.injEq] at hj
    omega
  · rw [update_of_ne hjk] at hj
    exact h j n w hj

theorem Positive.release (k : K) : Positive (release m k) := by
  intro j n w hj
  rw [get?_release] at hj
  by_cases hjk : j = k
  · rw [hjk, update_self, bind_eq_some_iff] at hj
    obtain ⟨p, -, hp⟩ := hj
    split at hp
    · cases hp
    · obtain ⟨rfl, -⟩ := Prod.mk.inj (some.inj hp)
      omega
  · rw [update_of_ne hjk] at hj
    exact h j n w hj

theorem Positive.retainAll (kvs : List (K × V)) :
    Positive (kvs.foldl (fun m p => RefCount.retain m p.1 p.2) m) := by
  induction kvs generalizing m with
  | nil => exact h
  | cons p kvs ih => exact ih (h.retain p.1 p.2)

theorem Positive.releaseAll (ks : List K) :
    Positive (ks.foldl RefCount.release m) := by
  induction ks generalizing m with
  | nil => exact h
  | cons k ks ih => exact ih (h.release k)

end

theorem Lent.retain (h : Lent m c m') (v : V) (hd : ∀ j, d j = c j + if j = k then 1 else 0) :
    Lent m d (retain m' k v) := by
  intro j
  rw [get?_retain, hd j]
  by_cases hj : j = k
  · subst hj
    rw [update_self, if_pos rfl]
    have hj := h j
    unfold Uses at hj ⊢
    split at hj
    · rw [hj]
      simp [Nat.add_assoc]
    split at hj
    · rename_i hc
      rw [hj, hc]
      exact ⟨v, rfl⟩
    · obtain ⟨w, hw⟩ := hj
      rw [hw]
      exact ⟨w, rfl⟩
  · rw [update_of_ne hj, if_neg hj]
    exact h j

theorem Lent.release (h : Lent m d m') (hpos : Positive m)
    (hd : ∀ j, d j = c j + if j = k then 1 else 0) : Lent m c (release m' k) := by
  intro j
  rw [get?_release]
  by_cases hj : j = k
  · subst hj
    rw [update_self]
    have hj := h j
    rw [hd j, if_pos rfl] at hj
    unfold Uses at hj ⊢
    split at hj
    · rename_i n v hget
      have := hpos j n v hget
      rw [hj, bind_some, if_neg (by simp only; omega)]
      simp only [some.injEq, Prod.mk.injEq, and_true]
      omega
    rw [if_neg (Nat.succ_ne_zero _)] at hj
    obtain ⟨w, hw⟩ := hj
    rw [hw, bind_some, Nat.add_sub_cancel]
    split
    · rfl
    · exact ⟨w, rfl⟩
  · rw [update_of_ne hj]
    have hj' := h j
    rwa [hd j, if_neg hj] at hj'

theorem Lent.retainAll (h : Lent m c m') (kvs : List (K × V)) :
    Lent m (fun j => c j + (kvs.map Prod.fst).count j)
      (kvs.foldl (fun m p => RefCount.retain m p.1 p.2) m') := by
  induction kvs generalizing c m' with
  | nil => simpa using h
  | cons p kvs ih =>
    have hnext := ih (h.retain (k := p.1) p.2 fun j => rfl)
    rw [foldl_cons]
    intro j
    dsimp only
    rw [map_cons, count_cons_eq, ← Nat.add_assoc]
    exact hnext j

theorem Lent.releaseAll (hpos : Positive m) {ks : List K}
    (h : Lent m (fun j => c j + ks.count j) m') : Lent m c (ks.foldl RefCount.release m') := by
  induction ks generalizing m' with
  | nil => simpa using h
  | cons k ks ih =>
    rw [foldl_cons]
    refine ih (h.release hpos fun j => ?_)
    rw [count_cons_eq]
    omega

theorem releaseAll_retainAll (hpos : Positive m) (kvs : List (K × V))
    (hsame : m'.get? = (kvs.foldl (fun m p => RefCount.retain m p.1 p.2) m).get?) :
    ((kvs.map Prod.fst).foldl RefCount.release m').get? = m.get? := by
  have hzero : Lent m (fun _ => 0) m := fun k => uses_zero.mpr rfl
  have hlent : Lent m (fun j => 0 + (kvs.map Prod.fst).count j) m' := by
    intro j
    rw [hsame]
    exact hzero.retainAll kvs j
  funext j
  exact uses_zero.mp (hlent.releaseAll hpos j)

end Substrate.RefCount
