import Substrate.FreeingBumpSpec

/-!
# When the guest can make the allocator panic

The links of the free lists lie in memory the guest writes, and `allocate` adds to a link before it
checks it. No call of a sequence panics if and only if every allocation meets `SafeCall`: the head
of the free list leaves room for the chunk, or the bumper stays below `2 ^ 32`, and `total_size`
does not overflow. Poisoning needs no such condition.
-/

namespace Substrate.FreeingBumpHeapAllocator

open FreeingBump Outcome

variable {a : FreeingBumpHeapAllocator} {mem : Memory}

inductive Call where
  | allocate (size : Nat)
  | deallocate (ptr : Nat)
deriving Repr, DecidableEq

def perform (a : FreeingBumpHeapAllocator) (mem : Memory) :
    Call → Outcome Error (Option Nat) × FreeingBumpHeapAllocator × Memory
  | .allocate size =>
    let r := a.allocate mem size
    (r.1.map some, r.2)
  | .deallocate ptr =>
    let r := a.deallocate mem ptr
    (r.1.map (fun _ => none), r.2)

/-- Before each call the guest does with the memory what it likes. -/
def outcomes : FreeingBumpHeapAllocator → Memory → List ((Memory → Memory) × Call) →
    List (Outcome Error (Option Nat))
  | _, _, [] => []
  | a, mem, (guest, call) :: rest =>
    let r := a.perform (guest mem) call
    r.1 :: outcomes r.2.1 r.2.2 rest

/-! ## One call -/

/-- If the request is not refused, the search for a header does not overrun, and if it finds one the
total size stays below `2 ^ 32`. -/
def SafeCall (a : FreeingBumpHeapAllocator) (mem : Memory) : Call → Prop
  | .allocate size => ∀ h : size ≤ maxPossibleAllocation, a.poisoned = false →
      ¬a.Overruns mem (Order.ofSize size h)
      ∧ ∀ p a', Takes a mem (Order.ofSize size h) p a' →
        a.totalSize + footprint (Order.ofSize size h) < 2 ^ 32
  | .deallocate _ => True

theorem allocate_returns_iff {size : Nat} :
    (a.allocate mem size).1.Returns ↔ a.SafeCall mem (.allocate size) := by
  rcases allocate_cases a mem size with
    ⟨hsize, p, a', mem', hpois, hover, htakes, -, heq⟩ | ⟨hsize, hpois, hover, heq⟩ |
      ⟨hnone, e, heq⟩
  · rw [heq]
    by_cases htotal : a.totalSize + footprint (Order.ofSize size hsize) < 2 ^ 32
    · rw [if_pos htotal]
      exact iff_of_true trivial fun _ _ => ⟨hover, fun _ _ _ => htotal⟩
    · rw [if_neg htotal]
      exact iff_of_false id fun hsafe => htotal ((hsafe hsize hpois).2 p a' htakes)
  · rw [heq]
    exact iff_of_false id fun hsafe => (hsafe hsize hpois).1 hover
  · rw [heq]
    refine iff_of_true trivial fun hsize hpois => ⟨(hnone hsize hpois).1, fun p a' htakes => ?_⟩
    exact absurd htakes ((hnone hsize hpois).2 p a')

theorem deallocate_returns (ptr : Nat) : (a.deallocate mem ptr).1.Returns := by
  rcases deallocate_cases a mem ptr with ⟨e, a', mem', heq, -⟩ | ⟨a', mem', heq⟩ <;>
    rw [heq] <;> trivial

theorem perform_returns_iff {call : Call} :
    (a.perform mem call).1.Returns ↔ a.SafeCall mem call := by
  cases call with
  | allocate size => simpa only [perform, returns_map] using allocate_returns_iff
  | deallocate ptr =>
    simpa only [perform, returns_map, SafeCall, iff_true] using deallocate_returns ptr

/-! ## Poisoning -/

theorem perform_poisoned (h : a.poisoned = true) (mem : Memory) (call : Call) :
    (a.perform mem call).1.IsErr ∧ (a.perform mem call).2.1.poisoned = true := by
  cases call with
  | allocate size => simp [perform, allocate, h]
  | deallocate ptr => simp [perform, deallocate, h]

theorem allocate_poisons {size : Nat} (h : (a.allocate mem size).1.IsErr) :
    (a.allocate mem size).2.1.poisoned = true := by
  rcases allocate_cases a mem size with
    ⟨hsize, p, a', mem', hpois, hover, htakes, -, heq⟩ | ⟨hsize, hpois, hover, heq⟩ |
      ⟨hnone, e, heq⟩
  · rw [heq] at h
    split at h
    · exact absurd h (not_isErr_ok _)
    · exact absurd h not_isErr_panic
  · rw [heq] at h
    exact absurd h not_isErr_panic
  · rw [heq]
    rfl

theorem deallocate_poisons {ptr : Nat} (h : (a.deallocate mem ptr).1.IsErr) :
    (a.deallocate mem ptr).2.1.poisoned = true := by
  rcases deallocate_cases a mem ptr with ⟨e, a', mem', heq, hpois⟩ | ⟨a', mem', heq⟩
  · rw [heq]
    exact hpois
  · rw [heq] at h
    exact absurd h (not_isErr_ok _)

theorem perform_poisons {call : Call} (h : (a.perform mem call).1.IsErr) :
    (a.perform mem call).2.1.poisoned = true := by
  cases call with
  | allocate size => exact allocate_poisons (by simpa [perform] using h)
  | deallocate ptr => exact deallocate_poisons (by simpa [perform] using h)

variable {calls : List ((Memory → Memory) × Call)}

theorem outcomes_poisoned (h : a.poisoned = true) : ∀ o ∈ a.outcomes mem calls, o.IsErr := by
  induction calls generalizing a mem with
  | nil => simp [outcomes]
  | cons c rest ih =>
    obtain ⟨guest, call⟩ := c
    obtain ⟨herr, hpois⟩ := perform_poisoned h (guest mem) call
    simp only [outcomes]
    exact List.forall_mem_cons.mpr ⟨herr, ih hpois⟩

theorem outcomes_err_persists (a : FreeingBumpHeapAllocator) (mem : Memory)
    (calls : List ((Memory → Memory) × Call)) :
    (a.outcomes mem calls).Pairwise (fun o later => o.IsErr → later.IsErr) := by
  induction calls generalizing a mem with
  | nil => exact .nil
  | cons c rest ih =>
    obtain ⟨guest, call⟩ := c
    simp only [outcomes]
    refine List.pairwise_cons.mpr ⟨fun later hlater herr => ?_, ih _ _⟩
    exact outcomes_poisoned (perform_poisons herr) later hlater

/-! ## Sequences of calls -/

def SafeCalls : FreeingBumpHeapAllocator → Memory → List ((Memory → Memory) × Call) → Prop
  | _, _, [] => True
  | a, mem, (guest, call) :: rest =>
    a.SafeCall (guest mem) call ∧
      SafeCalls (a.perform (guest mem) call).2.1 (a.perform (guest mem) call).2.2 rest

theorem outcomes_return_iff : (∀ o ∈ a.outcomes mem calls, o.Returns) ↔ a.SafeCalls mem calls := by
  induction calls generalizing a mem with
  | nil => simp [outcomes, SafeCalls]
  | cons c rest ih =>
    obtain ⟨guest, call⟩ := c
    simp only [outcomes, SafeCalls, List.forall_mem_cons]
    rw [perform_returns_iff, ih]

theorem new_returns_iff (heapBase : Nat) :
    (new heapBase).Returns ↔ heapBase + alignment < 2 ^ 32 := by
  by_cases h : heapBase + alignment < 2 ^ 32
  · rw [new, checkedAdd_of_lt h]
    exact iff_of_true trivial h
  · rw [new, checkedAdd_of_le (Nat.le_of_not_lt h)]
    exact iff_of_false id h

/-- **No call panics, and errors persist, if and only if the heap base can be
aligned and every call is safe in the state it is made in.** -/
theorem calls_return_iff (heapBase : Nat) (mem : Memory) (calls : List ((Memory → Memory) × Call)) :
    ((new heapBase).Returns ∧ ∀ a, new heapBase = .ok a → (∀ o ∈ a.outcomes mem calls, o.Returns)
        ∧ (a.outcomes mem calls).Pairwise (fun o later => o.IsErr → later.IsErr))
    ↔ heapBase + alignment < 2 ^ 32 ∧ ∀ a, new heapBase = .ok a → a.SafeCalls mem calls := by
  rw [new_returns_iff]
  refine and_congr_right fun _ => forall₂_congr fun a _ => ?_
  rw [outcomes_return_iff]
  exact and_iff_left (outcomes_err_persists a mem calls)

/-! ## Inputs that panic -/

def poke (ptr val : Nat) (mem : Memory) : Memory :=
  { mem with byte := storeLe mem.byte 8 ptr val }

/-- In the first run the guest overwrites the header of the chunk it has just freed, so that the
next allocation takes `0xfffffff0` for the head of the free list. In the second the heap starts
shortly before the end of a memory of almost 4 GiB. -/
theorem corrupted_link_panics : (∃ a, new 0 = .ok a ∧ a.outcomes (.zeroed 64 (by decide))
        [(id, .allocate 8), (id, .deallocate 8), (poke 0 0xfffffff0, .allocate 8),
          (id, .allocate 8)] =
        [.ok (some 8), .ok none, .ok (some 8), .panic])
    ∧ ∃ a, new 0xfffefff0 = .ok a ∧
      a.outcomes (.zeroed 0xffff0000 (by decide)) [(id, .allocate 0x2000000)] = [.panic] :=
  ⟨⟨_, rfl, by decide⟩, ⟨_, rfl, by decide⟩⟩

end Substrate.FreeingBumpHeapAllocator
