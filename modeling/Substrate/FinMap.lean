import Mathlib.Data.List.Dedup

/-!
# Finite maps and sets

Maps and sets as functions with a listed support. Looking up is applying `get?`, so a step of a
program is described by what it does to `get?` and the order of the keys never matters to a proof;
the list makes the map executable.
-/

namespace Substrate

open Function List

structure KeySet (K : Type) where
  keys : List K
  nodup : keys.Nodup

namespace KeySet

variable {K : Type}

instance : Membership K (KeySet K) := ⟨fun s k => k ∈ s.keys⟩

instance [DecidableEq K] (k : K) (s : KeySet K) : Decidable (k ∈ s) :=
  inferInstanceAs (Decidable (k ∈ s.keys))

variable {k : K} {s : KeySet K}

theorem mem_def : k ∈ s ↔ k ∈ s.keys := Iff.rfl

def empty : KeySet K := ⟨[], .nil⟩

@[simp] theorem not_mem_empty (k : K) : k ∉ (empty : KeySet K) := not_mem_nil

variable [DecidableEq K]

/-- The set with an element added, and whether it is new. -/
def insert (s : KeySet K) (k : K) : Bool × KeySet K :=
  if h : k ∈ s.keys then (false, s) else (true, ⟨k :: s.keys, nodup_cons.mpr ⟨h, s.nodup⟩⟩)

@[simp] theorem insert_fst (s : KeySet K) (k : K) : (s.insert k).1 = true ↔ k ∉ s := by
  by_cases h : k ∈ s.keys <;> simp [insert, h, mem_def]

@[simp] theorem mem_insert {j : K} : j ∈ (s.insert k).2 ↔ j = k ∨ j ∈ s := by
  by_cases h : k ∈ s.keys
  · simp only [insert, dif_pos h, mem_def, iff_or_self]
    rintro rfl
    exact h
  · simp [insert, h, mem_def]

def erase (s : KeySet K) (k : K) : KeySet K := ⟨s.keys.erase k, s.nodup.erase k⟩

@[simp] theorem mem_erase {j : K} : j ∈ s.erase k ↔ j ≠ k ∧ j ∈ s :=
  s.nodup.mem_erase_iff

def ofList (ks : List K) : KeySet K := ⟨ks.dedup, ks.nodup_dedup⟩

@[simp] theorem mem_ofList {ks : List K} : k ∈ ofList ks ↔ k ∈ ks := mem_dedup

end KeySet

structure FinMap (K V : Type) where
  get? : K → Option V
  keys : List K
  nodup : keys.Nodup
  mem_keys : ∀ k, k ∈ keys ↔ (get? k).isSome

namespace FinMap

variable {K V W : Type}

def empty : FinMap K V := ⟨fun _ => none, [], .nil, by simp⟩

@[simp] theorem get?_empty (k : K) : (empty : FinMap K V).get? k = none := rfl

def contains (m : FinMap K V) (k : K) : Bool := (m.get? k).isSome

variable {m : FinMap K V} {k : K} {v : V}

theorem contains_eq_false : m.contains k = false ↔ m.get? k = none := by
  rw [contains, Option.isSome_eq_false_iff, Option.isNone_iff_eq_none]

def isEmpty (m : FinMap K V) : Bool := m.keys.isEmpty

theorem isEmpty_iff : m.isEmpty = true ↔ ∀ k, m.get? k = none := by
  rw [isEmpty, List.isEmpty_iff, List.eq_nil_iff_forall_not_mem]
  exact forall_congr' fun k => by rw [m.mem_keys]; simp

def filterMap (f : K → V → Option W) (m : FinMap K V) : FinMap K W where
  get? k := (m.get? k).bind (f k)
  keys := m.keys.filter (fun k => ((m.get? k).bind (f k)).isSome)
  nodup := m.nodup.filter _
  mem_keys k := by
    rw [mem_filter, m.mem_keys]
    cases m.get? k <;> simp

@[simp] theorem get?_filterMap (f : K → V → Option W) (m : FinMap K V) (k : K) :
    (m.filterMap f).get? k = (m.get? k).bind (f k) := rfl

def map (f : V → W) (m : FinMap K V) : FinMap K W where
  get? k := (m.get? k).map f
  keys := m.keys
  nodup := m.nodup
  mem_keys k := by rw [m.mem_keys]; simp

@[simp] theorem get?_map (f : V → W) (m : FinMap K V) (k : K) :
    (m.map f).get? k = (m.get? k).map f := rfl

/-- The maps have the same keys, and `R` relates their values. -/
def Rel (R : K → V → W → Prop) (m : FinMap K V) (m' : FinMap K W) : Prop :=
  ∀ k, Option.Rel (R k) (m.get? k) (m'.get? k)

namespace Rel

variable {R : K → V → W → Prop} {m : FinMap K V} {m' : FinMap K W} {k : K}

theorem refl {R : K → V → V → Prop} (hrefl : ∀ k v, R k v v) (m : FinMap K V) : Rel R m m := by
  intro k
  cases m.get? k with
  | none => exact .none
  | some v => exact .some (hrefl k v)

theorem trans {R₁ R₂ R : K → V → V → Prop} {m1 m' : FinMap K V}
    (htrans : ∀ k v v1 v', R₁ k v v1 → R₂ k v1 v' → R k v v') (h : Rel R₁ m m1)
    (h' : Rel R₂ m1 m') : Rel R m m' := by
  intro k
  have hk := h k
  have hk' := h' k
  cases hv : m.get? k <;> cases hv1 : m1.get? k <;> cases hv' : m'.get? k <;>
    rw [hv, hv1] at hk <;> rw [hv1, hv'] at hk' <;> cases hk <;> cases hk'
  · exact .none
  · rename_i hrel hrel'
    exact .some (htrans _ _ _ _ hrel hrel')

theorem of_get? (h : Rel R m m') {v' : W} (hv' : m'.get? k = some v') :
    ∃ v, m.get? k = some v ∧ R k v v' := by
  have hk := h k
  rw [hv'] at hk
  cases hv : m.get? k <;> rw [hv] at hk <;> cases hk
  rename_i v hrel
  exact ⟨v, rfl, hrel⟩

theorem get?_some (h : Rel R m m') (hv : m.get? k = some v) :
    ∃ v', m'.get? k = some v' ∧ R k v v' := by
  have hk := h k
  rw [hv] at hk
  cases hv' : m'.get? k <;> rw [hv'] at hk <;> cases hk
  rename_i v' hrel
  exact ⟨v', rfl, hrel⟩

theorem get?_eq_none_iff (h : Rel R m m') : m'.get? k = none ↔ m.get? k = none := by
  have hk := h k
  cases hv : m.get? k <;> cases hv' : m'.get? k <;> rw [hv, hv'] at hk <;> simp at hk ⊢

theorem length_keys (h : Rel R m m') : m'.keys.length = m.keys.length := by
  refine ((perm_ext_iff_of_nodup m'.nodup m.nodup).mpr fun k => ?_).length_eq
  rw [m.mem_keys, m'.mem_keys, Option.isSome_iff_ne_none, Option.isSome_iff_ne_none, ne_eq,
    h.get?_eq_none_iff]

theorem foldl {σ α : Type} {R : K → V → V → Prop} {f : σ → α → σ} (hrefl : ∀ k v, R k v v)
    (htrans : ∀ k v v1 v', R k v v1 → R k v1 v' → R k v v') (map : σ → FinMap K V)
    (hstep : ∀ s a, Rel R (map s) (map (f s a))) (l : List α) (s : σ) :
    Rel R (map s) (map (l.foldl f s)) := by
  induction l generalizing s with
  | nil => exact refl hrefl _
  | cons a l ih => exact trans htrans (hstep s a) (ih (f s a))

end Rel

def all (p : V → Bool) (m : FinMap K V) : Bool := m.keys.all (fun k => (m.get? k).all p)

theorem all_iff {p : V → Bool} : m.all p = true ↔ ∀ k v, m.get? k = some v → p v = true := by
  rw [all, all_eq_true]
  constructor
  · intro h k v hv
    have hk : k ∈ m.keys := (m.mem_keys k).mpr (by simp [hv])
    simpa [hv] using h k hk
  · intro h k _
    cases hv : m.get? k with
    | none => rfl
    | some v => exact h k v hv

variable [DecidableEq K]

def insert (m : FinMap K V) (k : K) (v : V) : FinMap K V where
  get? := update m.get? k (some v)
  keys := if k ∈ m.keys then m.keys else k :: m.keys
  nodup := by
    split
    · exact m.nodup
    · rename_i h
      exact nodup_cons.mpr ⟨h, m.nodup⟩
  mem_keys j := by
    by_cases hj : j = k
    · subst hj
      by_cases h : j ∈ m.keys <;> simp [h]
    · rw [update_of_ne hj, ← m.mem_keys]
      by_cases h : k ∈ m.keys <;> simp [h, hj]

@[simp] theorem get?_insert (m : FinMap K V) (k : K) (v : V) :
    (m.insert k v).get? = update m.get? k (some v) := rfl

theorem get?_insert_eq_some {j : K} {w : V} :
    (m.insert k v).get? j = some w ↔ j = k ∧ v = w ∨ j ≠ k ∧ m.get? j = some w := by
  by_cases hj : j = k <;> simp [hj]

theorem insert_eq_self (h : m.get? k = some v) : m.insert k v = m := by
  cases m
  simp_all [insert]

theorem Rel.insert {R : K → V → V → Prop} {v' : V} (hrefl : ∀ k v, R k v v) (hv : m.get? k = some v)
    (hrel : R k v v') : Rel R m (m.insert k v') := by
  intro j
  by_cases hj : j = k
  · subst hj
    rw [get?_insert, update_self, hv]
    exact .some hrel
  · rw [get?_insert, update_of_ne hj]
    exact Rel.refl hrefl m j

theorem length_keys_insert_of_mem {w : V} (h : m.get? k = some w) :
    (m.insert k v).keys.length = m.keys.length := by
  have hk : k ∈ m.keys := (m.mem_keys k).mpr (by simp [h])
  simp [insert, hk]

def erase (m : FinMap K V) (k : K) : FinMap K V where
  get? := update m.get? k none
  keys := m.keys.erase k
  nodup := m.nodup.erase k
  mem_keys j := by
    by_cases hj : j = k
    · subst hj
      simp [m.nodup.not_mem_erase]
    · rw [update_of_ne hj, ← m.mem_keys, mem_erase_of_ne hj]

@[simp] theorem get?_erase (m : FinMap K V) (k : K) : (m.erase k).get? = update m.get? k none := rfl

theorem get?_erase_eq_some {j : K} {w : V} :
    (m.erase k).get? j = some w ↔ j ≠ k ∧ m.get? j = some w := by
  by_cases hj : j = k <;> simp [hj]

theorem length_keys_erase (h : m.get? k = some v) :
    (m.erase k).keys.length + 1 = m.keys.length := by
  have hk : k ∈ m.keys := (m.mem_keys k).mpr (by simp [h])
  have hpos := length_pos_of_mem hk
  simp only [erase, length_erase_of_mem hk]
  omega

theorem get?_foldl_erase (ks : List K) (m : FinMap K V) (j : K) :
    (ks.foldl erase m).get? j = if j ∈ ks then none else m.get? j := by
  induction ks generalizing m with
  | nil => simp
  | cons k ks ih =>
    rw [foldl_cons, ih]
    by_cases hj : j = k <;> simp [hj]

theorem get?_foldl_insert (ks : List K) (v : V) (m : FinMap K V) (j : K) :
    (ks.foldl (fun m k => m.insert k v) m).get? j = if j ∈ ks then some v else m.get? j := by
  induction ks generalizing m with
  | nil => simp
  | cons k ks ih =>
    rw [foldl_cons, ih]
    by_cases hj : j = k <;> simp [hj]

theorem get?_foldl_insert_map (val : K → V) (ks : List K) (m : FinMap K V) (j : K) :
    ((ks.map fun k => (k, val k)).foldl (fun m kv => m.insert kv.1 kv.2) m).get? j =
      if j ∈ ks then some (val j) else m.get? j := by
  induction ks generalizing m with
  | nil => simp
  | cons k ks ih =>
    rw [map_cons, foldl_cons, ih]
    by_cases hj : j = k <;> simp [hj]

end FinMap

end Substrate
