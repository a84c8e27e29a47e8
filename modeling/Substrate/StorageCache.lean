import Mathlib.Data.List.Basic
import Substrate.Checked

/-!
# The size counter of the storage cache

`LRUMap` of `client/db/src/storage_cache.rs`. A key is found by its content, and its size is the
capacity of the vector that holds it, so that equal keys can differ in size. `add` counts the key it
stores and `remove` takes off the key it is given.

The `LinkedHashMap` of the source is of a crate outside the repository. It is taken to be a list of
entries with different keys in the order of insertion: an insertion replaces the value of an equal
key, and it and `get_refresh` make the entry the last one; `pop_front` takes the first.
-/

namespace Substrate.StorageCache

open Checked List

variable {C V : Type}

structure Key (C : Type) where
  content : C
  estimateSize : Nat
deriving DecidableEq

class EstimateSize (V : Type) where
  estimateSize : V → Nat

open EstimateSize

/-- The oldest entry first, the size in use, and the limit. -/
structure LruMap (C V : Type) where
  map : List (Key C × V)
  usedSize : Nat
  limit : Nat
deriving DecidableEq

variable [EstimateSize V]

def stored (map : List (Key C × V)) : Nat :=
  (map.map fun e => e.1.estimateSize + estimateSize e.2).sum

/-- `*storage_used_size -= k.estimate_size(); *storage_used_size -= v.estimate_size()`. -/
def release (used : Nat) (k : Key C) (v : V) : Option Nat :=
  (sub used k.estimateSize).bind fun used => sub used (estimateSize v)

theorem stored_append (map map' : List (Key C × V)) :
    stored (map ++ map') = stored map + stored map' := by
  simp [stored]

theorem release_eq_some {key : Key C} {v : V} {used used' : Nat} :
    release used key v = some used' ↔ used = used' + (key.estimateSize + estimateSize v) := by
  simp only [release, sub, Option.bind_eq_some_iff, Option.ite_none_right_eq_some, Option.some.injEq]
  constructor
  · rintro ⟨_, ⟨hk, rfl⟩, hv, rfl⟩
    omega
  · intro h
    exact ⟨_, ⟨by omega, rfl⟩, by omega, by omega⟩

/-- Drop the oldest entries while the size is above the limit. -/
def evict (limit : Nat) : List (Key C × V) → Nat → Option (List (Key C × V) × Nat)
  | [], used => some ([], used)
  | e :: map, used =>
    if limit < used then (release used e.1 e.2).bind (evict limit map) else some (e :: map, used)

theorem evict_spec (limit : Nat) {used : Nat} {map : List (Key C × V)} (h : used = stored map) :
    ∃ map' used', evict limit map used = some (map', used') ∧ used' = stored map' ∧
      (used' ≤ limit ∨ map' = []) := by
  induction map generalizing used with
  | nil => exact ⟨[], used, rfl, h, .inr rfl⟩
  | cons e map ih =>
    by_cases hlimit : limit < used
    · obtain ⟨map', used', hrest, hspec⟩ := ih rfl
      have hrelease : release used e.1 e.2 = some (stored map) := by
        rw [release_eq_some, h, ← singleton_append, stored_append, Nat.add_comm]
        simp [stored]
      exact ⟨map', used', by rw [evict, if_pos hlimit, hrelease, Option.bind_some, hrest], hspec⟩
    · exact ⟨e :: map, used, if_neg hlimit, h, .inl (Nat.le_of_not_lt hlimit)⟩

variable [DecidableEq C]

def has (k : C) (e : Key C × V) : Bool := e.1.content = k

def remove (m : LruMap C V) (k : Key C) : Option (LruMap C V) :=
  match m.map.find? (has k.content) with
  | none => some m
  | some e => (release m.usedSize k e.2).map fun used =>
    { m with map := m.map.eraseP (has k.content), usedSize := used }

/-- Before the loop. An entry that is replaced keeps its key. -/
def place (m : LruMap C V) (k : Key C) (v : V) : Option (List (Key C × V) × Nat) :=
  let used := m.usedSize + estimateSize v
  match m.map.find? (has k.content) with
  | some e => (sub used (estimateSize e.2)).map fun used =>
    (m.map.eraseP (has k.content) ++ [(e.1, v)], used)
  | none => some (m.map ++ [(k, v)], used + k.estimateSize)

def add (m : LruMap C V) (k : Key C) (v : V) : Option (LruMap C V) :=
  (place m k v).bind fun (map, used) =>
  (evict m.limit map used).map fun (map, used) => { m with map := map, usedSize := used }

/-- The entry becomes the latest one. -/
def get (m : LruMap C V) (k : C) : Option V × LruMap C V :=
  match m.map.find? (has k) with
  | none => (none, m)
  | some e => (some e.2, { m with map := m.map.eraseP (has k) ++ [e] })

def clear (m : LruMap C V) : LruMap C V := { m with map := [], usedSize := 0 }

inductive Op (C V : Type) where
  | add (k : Key C) (v : V)
  | remove (k : Key C)
  | get (k : C)
  | clear

def perform (m : LruMap C V) : Op C V → Option (LruMap C V)
  | .add k v => add m k v
  | .remove k => remove m k
  | .get k => some (get m k).2
  | .clear => some (clear m)

/-- A key to be removed has the size of the stored one. -/
def Matches (m : LruMap C V) : Op C V → Prop
  | .remove k => ∀ e, m.map.find? (has k.content) = some e → k.estimateSize = e.1.estimateSize
  | _ => True

/-! ## Counting -/

variable {m m' : LruMap C V} {map : List (Key C × V)} {e : Key C × V} {k : C}

theorem stored_eraseP (h : map.find? (has k) = some e) :
    stored map = stored (map.eraseP (has k)) + (e.1.estimateSize + estimateSize e.2) := by
  obtain ⟨hk, pre, post, rfl, hpre⟩ := find?_eq_some_iff_append.mp h
  rw [eraseP_append_right _ (by simpa using hpre), eraseP_cons_of_pos hk]
  simp [stored]
  omega

section

variable (hexact : m.usedSize = stored m.map)
include hexact

theorem place_spec (key : Key C) (v : V) :
    ∃ map used, place m key v = some (map, used) ∧ used = stored map := by
  unfold place
  cases hfind : m.map.find? (has key.content) with
  | none =>
    refine ⟨_, _, rfl, ?_⟩
    rw [hexact, stored_append]
    simp [stored]
    omega
  | some e =>
    have hstored := stored_eraseP hfind
    have hle : estimateSize e.2 ≤ m.usedSize + estimateSize v := by omega
    dsimp only
    rw [sub_of_le hle]
    refine ⟨_, _, rfl, ?_⟩
    rw [hexact, hstored, stored_append]
    simp [stored]
    omega

/-- It keeps the counter exact if and only if the sizes of the keys agree. -/
theorem remove_spec (key : Key C) : Matches m (.remove key) ↔
    ∃ m', remove m key = some m' ∧ m'.usedSize = stored m'.map := by
  simp only [Matches, remove]
  cases hfind : m.map.find? (has key.content) with
  | none => exact iff_of_true (fun _ => nofun) ⟨m, rfl, hexact⟩
  | some e =>
    have hstored := stored_eraseP hfind
    simp only [Option.some.injEq, forall_eq', Option.map_eq_some_iff, release_eq_some]
    constructor
    · intro hsize
      exact ⟨_, ⟨stored (m.map.eraseP (has key.content)), by omega, rfl⟩, rfl⟩
    · rintro ⟨_, ⟨used, hused, rfl⟩, hexact'⟩
      dsimp only at hexact'
      omega

/-- It returns and keeps the counter exact if and only if it matches. -/
theorem perform_spec (op : Op C V) : Matches m op ↔ ∃ m', perform m op = some m' ∧
      m'.usedSize = stored m'.map ∧
      ∀ key v, op = .add key v → m'.usedSize ≤ m'.limit ∨ m'.map = [] := by
  cases op with
  | add key v =>
    obtain ⟨map, used, hplace, hused⟩ := place_spec hexact key v
    obtain ⟨map', used', hevict, hused', hlimit⟩ := evict_spec m.limit hused
    refine iff_of_true trivial ⟨{ m with map := map', usedSize := used' }, ?_, hused',
      fun _ _ _ => hlimit⟩
    simp only [perform, add, hplace, hevict, Option.bind_some, Option.map_some]
  | remove key =>
    refine (remove_spec hexact key).trans (exists_congr fun m' => and_congr_right fun _ => ?_)
    exact ⟨fun h => ⟨h, nofun⟩, fun h => h.1⟩
  | get k =>
    refine iff_of_true trivial ⟨_, rfl, ?_, nofun⟩
    unfold get
    cases hfind : m.map.find? (has k) with
    | none => exact hexact
    | some e =>
      rw [hexact, stored_eraseP hfind, stored_append]
      simp [stored]
  | clear => exact iff_of_true trivial ⟨_, rfl, rfl, nofun⟩

end

inductive Reached : LruMap C V → Prop where
  | new (limit : Nat) : Reached ⟨[], 0, limit⟩
  | call {m m' : LruMap C V} (op : Op C V) (h : Reached m) (hop : Matches m op)
      (hrun : perform m op = some m') : Reached m'

theorem Reached.exact (h : Reached m) : m.usedSize = stored m.map := by
  induction h with
  | new limit => rfl
  | call op _ hop hrun ih =>
    obtain ⟨m', hrun', hexact, -⟩ := (perform_spec ih op).mp hop
    cases hrun.symm.trans hrun'
    exact hexact

/-- **The size counter is exact as long as every removed key has the size of the stored one.** Then
no subtraction underflows, and after an `add` the size is at most the limit or the map is empty.
A removal by an equal key of another size underflows or leaves the counter wrong. -/
theorem used_size_exact_iff (h : Reached m) :
    m.usedSize = stored m.map ∧ ∀ op : Op C V, Matches m op ↔ ∃ m', perform m op = some m' ∧
      m'.usedSize = stored m'.map ∧
      ∀ key v, op = .add key v → m'.usedSize ≤ m'.limit ∨ m'.map = [] :=
  ⟨h.exact, perform_spec h.exact⟩

/-! A key of one byte with a value of one byte. -/

instance : EstimateSize Nat := ⟨id⟩

def oneStored : LruMap Nat Nat := ⟨[(⟨0, 1⟩, 1)], 2, 10⟩

theorem used_size_exact_iff_oneStored : oneStored.usedSize = stored oneStored.map ∧
    ∃ m', perform oneStored (.remove ⟨0, 1⟩) = some m' ∧ m'.usedSize = stored m'.map := by
  have hreached : Reached oneStored := .call (.add ⟨0, 1⟩ 1) (.new 10) trivial rfl
  obtain ⟨hexact, hcalls⟩ := used_size_exact_iff hreached
  obtain ⟨m', hrun, hexact', -⟩ := (hcalls (.remove ⟨0, 1⟩)).mp fun e he => by cases he; rfl
  exact ⟨hexact, m', hrun, hexact'⟩

/-- The stored key is removed by a copy with spare capacity, or by one that is smaller. -/
theorem removed_by_other_copy : Reached oneStored ∧ perform oneStored (.remove ⟨0, 2⟩) = none ∧
    perform oneStored (.remove ⟨0, 0⟩) = some ⟨[], 1, 10⟩ :=
  ⟨.call (.add ⟨0, 1⟩ 1) (.new 10) trivial rfl, by decide, by decide⟩

end Substrate.StorageCache
