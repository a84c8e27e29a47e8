import Mathlib.Data.Nat.Bitwise
import Substrate.LeBytes
import Substrate.Outcome

/-!
# The freeing-bump heap allocator

`client/allocator/src/freeing_bump.rs`. Chunks are carved off a bumper, each with an eight byte
header in front of the memory handed out. The header of a live chunk holds its order, that of a free
chunk the link to the next free chunk of the same order, so the 23 free lists live inside the memory
the guest can write. An addition that would pass `u32::MAX` panics. Every exit of a call but the
successful one drops the `PoisonBomb`, which sets `poisoned`.
-/

namespace Substrate

open Nat

namespace FreeingBump

inductive Error where
  | other (msg : String)
  | requestedAllocationTooLarge
  | allocatorOutOfSpace
deriving Repr, DecidableEq

def checkedAdd (a b : Nat) : Option Nat :=
  if a + b < 2 ^ 32 then some (a + b) else none

def alignment : Nat := 8

def headerSize : Nat := 8

def nOrders : Nat := 23

def maxPossibleAllocation : Nat := 33554432

def minPossibleAllocation : Nat := 8

/-! ## Linear memory -/

/-- Its size fits a `u32`; what `byte` holds beyond the size is never read. -/
structure Memory where
  size : Nat
  byte : Nat → UInt8
  size_lt : size < 2 ^ 32

def heapRange (offset length heapLen : Nat) : Option (Nat × Nat) :=
  match checkedAdd offset length with
  | none => none
  | some stop => if stop ≤ heapLen then some (offset, stop) else none

namespace Memory

def zeroed (size : Nat) (h : size < 2 ^ 32) : Memory := ⟨size, fun _ => 0, h⟩

def readLeU64 (mem : Memory) (ptr : Nat) : Except Error Nat :=
  match heapRange ptr 8 mem.size with
  | none => .error (.other "read out of heap bounds")
  | some (start, _) => .ok (loadLe mem.byte 8 start)

def writeLeU64 (mem : Memory) (ptr val : Nat) : Except Error Memory :=
  match heapRange ptr 8 mem.size with
  | none => .error (.other "write out of heap bounds")
  | some (start, _) => .ok { mem with byte := storeLe mem.byte 8 start val }

end Memory

/-! ## Orders -/

abbrev Order := Fin nOrders

def nextPowerOfTwo (n : Nat) : Nat := if n ≤ 1 then 1 else 2 ^ (log2 (n - 1) + 1)

def trailingZeros (n : Nat) : Nat := ((List.range 32).find? n.testBit).getD 32

namespace Order

def fromRaw (order : Nat) : Except Error Order :=
  if h : order < nOrders then .ok ⟨order, h⟩ else .error (.other "invalid order")

def clampedSize (size : Nat) : Nat :=
  if size < minPossibleAllocation then minPossibleAllocation else size

/-- Not yet known to be one of the 23. -/
def rawFromSize (size : Nat) : Nat :=
  trailingZeros (nextPowerOfTwo (clampedSize size)) - trailingZeros minPossibleAllocation

theorem trailingZeros_two_pow {k : Nat} (h : k < 32) : trailingZeros (2 ^ k) = k := by
  have hall : ∀ k < 32, trailingZeros (2 ^ k) = k := by decide
  exact hall k h

theorem nextPowerOfTwo_eq {n : Nat} (h : 8 ≤ n) (hmax : n ≤ 2 ^ 25) :
    ∃ k, 3 ≤ k ∧ k ≤ 25 ∧ nextPowerOfTwo n = 2 ^ k ∧ n ≤ 2 ^ k := by
  have hpos : n - 1 ≠ 0 := by omega
  have hlow : 2 ≤ log2 (n - 1) := (le_log2 hpos).mpr (by omega)
  have hhigh : log2 (n - 1) < 25 := (log2_lt hpos).mpr (by omega)
  have hlt : n - 1 < 2 ^ (log2 (n - 1) + 1) := lt_log2_self
  refine ⟨log2 (n - 1) + 1, by omega, by omega, ?_, by omega⟩
  rw [nextPowerOfTwo, if_neg (by omega)]

theorem rawFromSize_spec {size : Nat} (h : size ≤ maxPossibleAllocation) :
    rawFromSize size < nOrders ∧ size ≤ minPossibleAllocation <<< rawFromSize size := by
  have hclamp : 8 ≤ clampedSize size ∧ clampedSize size ≤ 2 ^ 25 ∧ size ≤ clampedSize size := by
    simp only [maxPossibleAllocation] at h
    rw [clampedSize, minPossibleAllocation]
    by_cases hsmall : size < 8
    · rw [if_pos hsmall]; omega
    · rw [if_neg hsmall]; omega
  obtain ⟨k, hk3, hk25, heq, hle⟩ := nextPowerOfTwo_eq hclamp.1 hclamp.2.1
  have hraw : rawFromSize size = k - 3 := by
    have hmin : trailingZeros minPossibleAllocation = 3 := by decide
    rw [rawFromSize, heq, hmin, trailingZeros_two_pow (by omega)]
  have hshift : minPossibleAllocation <<< (k - 3) = 2 ^ k := by
    rw [shiftLeft_eq, minPossibleAllocation, show 8 = 2 ^ 3 from rfl, ← pow_add]
    congr 1
    omega
  refine ⟨by simp only [nOrders]; omega, ?_⟩
  rw [hraw]
  omega

def fromSize (size : Nat) : Except Error Order :=
  if h : size ≤ maxPossibleAllocation then .ok ⟨rawFromSize size, (rawFromSize_spec h).1⟩
  else .error .requestedAllocationTooLarge

def size (order : Order) : Nat := minPossibleAllocation <<< order.val

def intoRaw (order : Order) : Nat := order.val

end Order

/-! ## Headers -/

/-- The end of the linked list. -/
def nilMarker : Nat := 2 ^ 32 - 1

inductive Link where
  | nil
  | ptr (p : Nat)
deriving Repr, DecidableEq

namespace Link

def fromRaw (raw : Nat) : Link := if raw ≠ nilMarker then .ptr raw else .nil

def intoRaw : Link → Nat
  | nil => nilMarker
  | ptr p => p

end Link

inductive Header where
  | free (link : Link)
  | occupied (order : Order)
deriving Repr, DecidableEq

namespace Header

def readFrom (mem : Memory) (headerPtr : Nat) : Except Error Header :=
  match mem.readLeU64 headerPtr with
  | .error e => .error e
  | .ok rawHeader =>
    let headerData := rawHeader % 2 ^ 32
    if rawHeader &&& 0x0000000100000000 ≠ 0 then
      match Order.fromRaw headerData with
      | .error e => .error e
      | .ok order => .ok (.occupied order)
    else .ok (.free (Link.fromRaw headerData))

def encode : Header → Nat
  | occupied order => order.intoRaw ||| 0x0000000100000000
  | free link => link.intoRaw ||| 0x0000000000000000

def writeInto (header : Header) (mem : Memory) (headerPtr : Nat) : Except Error Memory :=
  mem.writeLeU64 headerPtr header.encode

def intoOccupied : Header → Option Order
  | occupied order => some order
  | _ => none

def intoFree : Header → Option Link
  | free link => some link
  | _ => none

end Header

/-! ## The allocator -/

abbrev FreeLists := Order → Link

end FreeingBump

open FreeingBump

structure FreeingBumpHeapAllocator where
  bumper : Nat
  freeLists : FreeLists
  totalSize : Nat
  poisoned : Bool
  maxTotalSize : Nat
  maxBumper : Nat

namespace FreeingBumpHeapAllocator

def new (heapBase : Nat) : Outcome Error FreeingBumpHeapAllocator :=
  match checkedAdd heapBase alignment with
  | none =>
    -- `heap_base + ALIGNMENT` is the addition that overflows
    .panic
  | some sum =>
    let alignedHeapBase := (sum - 1) / alignment * alignment
    .ok {
      bumper := alignedHeapBase
      freeLists := fun _ => .nil
      totalSize := 0
      poisoned := false
      maxTotalSize := 0
      maxBumper := alignedHeapBase }

variable (a : FreeingBumpHeapAllocator) (mem : Memory)

/-- What a dropped `PoisonBomb` does. -/
def poison : FreeingBumpHeapAllocator :=
  { a with poisoned := true }

/-- Returns the value from before. -/
def bump (size heapEnd : Nat) : Outcome Error Nat × FreeingBumpHeapAllocator :=
  match checkedAdd a.bumper size with
  | none => (.panic, a)
  | some stop =>
    if stop > heapEnd then (.err .allocatorOutOfSpace, a)
    else (.ok a.bumper, { a with bumper := stop })

/-- The head of the free list, or a new chunk. -/
def takeHeader (order : Order) : Outcome Error Nat × FreeingBumpHeapAllocator :=
  match a.freeLists order with
  | .ptr headerPtr =>
    match checkedAdd headerPtr (order.size + headerSize) with
    | none => (.panic, a)
    | some stop =>
      -- the `assert!` of `allocate`
      if stop ≤ mem.size then
        match Header.readFrom mem headerPtr with
        | .error e => (.err e, a)
        | .ok header =>
          match header.intoFree with
          | none => (.err (.other "free list points to a occupied header"), a)
          | some nextFree =>
            (.ok headerPtr, { a with freeLists := Function.update a.freeLists order nextFree })
      else (.panic, a)
  | .nil => a.bump (order.size + headerSize) mem.size

def noteAllocation (totalSize : Nat) : FreeingBumpHeapAllocator :=
  { a with
    totalSize := totalSize
    maxTotalSize := if totalSize > a.maxTotalSize then totalSize else a.maxTotalSize
    maxBumper := if a.bumper > a.maxBumper then a.bumper else a.maxBumper }

def allocate (size : Nat) : Outcome Error Nat × FreeingBumpHeapAllocator × Memory :=
  if a.poisoned then (.err (.other "the allocator has been poisoned"), a, mem)
  else
    match Order.fromSize size with
    | .error e => (.err e, a.poison, mem)
    | .ok order =>
      match a.takeHeader mem order with
      | (.panic, a) => (.panic, a.poison, mem)
      | (.err e, a) => (.err e, a.poison, mem)
      | (.ok headerPtr, a) =>
        match (Header.occupied order).writeInto mem headerPtr with
        | .error e => (.err e, a.poison, mem)
        | .ok mem =>
          match checkedAdd a.totalSize (order.size + headerSize) with
          | none => (.panic, a.poison, mem)
          | some totalSize =>
            match checkedAdd headerPtr headerSize with
            | none => (.panic, a.noteAllocation totalSize, mem)
            | some ptr => (.ok ptr, a.noteAllocation totalSize, mem)

def deallocate (ptr : Nat) : Outcome Error Unit × FreeingBumpHeapAllocator × Memory :=
  if a.poisoned then (.err (.other "the allocator has been poisoned"), a, mem)
  else if ptr < headerSize then
    (.err (.other "Invalid pointer for deallocation"), a.poison, mem)
  else
    let headerPtr := ptr - headerSize
    match Header.readFrom mem headerPtr with
    | .error e => (.err e, a.poison, mem)
    | .ok header =>
      match header.intoOccupied with
      | none => (.err (.other "the allocation points to an empty header"), a.poison, mem)
      | some order =>
        let prevHead := a.freeLists order
        let a := { a with freeLists := Function.update a.freeLists order (.ptr headerPtr) }
        match (Header.free prevHead).writeInto mem headerPtr with
        | .error e => (.err e, a.poison, mem)
        | .ok mem =>
          if a.totalSize < order.size + headerSize then
            (.err (.other "Unable to subtract from total heap size without overflow"),
              a.poison, mem)
          else
            (.ok (), { a with totalSize := a.totalSize - (order.size + headerSize) }, mem)

end FreeingBumpHeapAllocator

end Substrate
