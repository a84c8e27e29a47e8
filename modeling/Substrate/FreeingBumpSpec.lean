import Substrate.FreeingBump

/-!
# What the allocator's steps do

One specification for each function of the allocator, over any allocator state and any memory.
`allocate_cases` and `deallocate_occupied` say what a call does in terms of the headers it meets;
the invariant and the panic analysis both start from them.
-/

namespace Substrate

open Nat

namespace FreeingBump

/-! ## Checked arithmetic -/

theorem checkedAdd_of_lt {a b : Nat} (h : a + b < 2 ^ 32) : checkedAdd a b = some (a + b) :=
  if_pos h

theorem checkedAdd_of_le {a b : Nat} (h : 2 ^ 32 ≤ a + b) : checkedAdd a b = none :=
  if_neg (not_lt.mpr h)

variable {mem : Memory} {p : Nat}

theorem heapRange_of_le (h : p + 8 ≤ mem.size) : heapRange p 8 mem.size = some (p, p + 8) := by
  have hlt := mem.size_lt
  rw [heapRange, checkedAdd_of_lt (by omega)]
  exact if_pos h

theorem Memory.readLeU64_of_le (h : p + 8 ≤ mem.size) :
    mem.readLeU64 p = .ok (loadLe mem.byte 8 p) := by
  rw [readLeU64, heapRange_of_le h]

/-! ## Orders -/

namespace Order

variable {size : Nat}

theorem rawFromSize_lt (h : size ≤ maxPossibleAllocation) :
    rawFromSize size < nOrders := (rawFromSize_spec h).1

def ofSize (size : Nat) (h : size ≤ maxPossibleAllocation) : Order :=
  ⟨rawFromSize size, rawFromSize_lt h⟩

theorem fromSize_of_le (h : size ≤ maxPossibleAllocation) :
    fromSize size = .ok (ofSize size h) := dif_pos h

theorem fromSize_of_lt (h : maxPossibleAllocation < size) :
    fromSize size = .error .requestedAllocationTooLarge := dif_neg (not_le.mpr h)

theorem size_eq (order : Order) : Order.size order = 8 * 2 ^ order.val := by
  rw [size, minPossibleAllocation, shiftLeft_eq]

theorem size_mod (order : Order) : Order.size order % 8 = 0 := by
  rw [size_eq]
  exact mul_mod_right ..

theorem size_le (order : Order) : Order.size order ≤ 2 ^ 25 := by
  have hlt : order.val ≤ 22 := le_of_lt_succ order.isLt
  have hpow : 2 ^ order.val ≤ 2 ^ 22 := Nat.pow_le_pow_right (by decide) hlt
  rw [size_eq]
  omega

end Order

/-! ## Headers -/

namespace Header

/-- The link of a free header is not the end marker itself. -/
def Encodable : Header → Prop
  | free (.ptr p) => p < nilMarker
  | _ => True

theorem readFrom_congr {mem' : Memory} (hin : p + 8 ≤ mem.size) (hsize : mem.size ≤ mem'.size)
    (hbyte : ∀ a, p ≤ a → a < p + 8 → mem'.byte a = mem.byte a) :
    readFrom mem' p = readFrom mem p := by
  rw [readFrom, readFrom, Memory.readLeU64_of_le hin, Memory.readLeU64_of_le (by omega),
    loadLe_congr hbyte]

variable {header : Header}

theorem encode_lt (h : header.Encodable) : header.encode < 2 ^ 64 := by
  rcases header with (_ | p) | order
  · decide
  · have hp : p < nilMarker := h
    simp only [nilMarker] at hp
    simp only [encode, Link.intoRaw, or_zero]
    omega
  · have hraw : order.intoRaw < 2 ^ 33 := by
      have := order.isLt
      simp only [nOrders] at this
      simp only [Order.intoRaw]
      omega
    exact lt_trans (or_lt_two_pow hraw (by decide)) (by decide)

theorem decode_encode (h : header.Encodable) : (if header.encode &&& 0x0000000100000000 ≠ 0 then
      match Order.fromRaw (header.encode % 2 ^ 32) with
      | .error e => .error e
      | .ok order => .ok (.occupied order)
    else .ok (.free (Link.fromRaw (header.encode % 2 ^ 32))) : Except Error Header) =
      .ok header := by
  rcases header with (_ | p) | order
  · decide
  · have hp : p < nilMarker := h
    have hp32 : p < 2 ^ 32 := by simp only [nilMarker] at hp; omega
    have htag : p &&& 0x0000000100000000 = 0 := by
      rw [show 0x0000000100000000 = 2 ^ 32 from rfl, Nat.and_two_pow, Nat.testBit_lt_two_pow hp32]
      rfl
    simp only [encode, Link.intoRaw, Nat.or_zero, htag, Nat.mod_eq_of_lt hp32, Link.fromRaw,
      ne_eq, not_true_eq_false, if_false, if_pos (Nat.ne_of_lt hp)]
  · have hall : ∀ order : Order, (order.intoRaw ||| 0x0000000100000000) &&& 0x0000000100000000 ≠ 0
        ∧ (order.intoRaw ||| 0x0000000100000000) % 2 ^ 32 = order.val := by decide
    obtain ⟨htag, hdata⟩ := hall order
    simp only [encode, if_pos htag, hdata, Order.fromRaw, dif_pos order.isLt]

/-- The headers that do not overlap it are as they were. -/
theorem writeInto_spec (henc : header.Encodable) (hin : p + 8 ≤ mem.size) :
    ∃ mem', header.writeInto mem p = .ok mem' ∧ mem'.size = mem.size ∧ readFrom mem' p = .ok header
      ∧ ∀ q, q + 8 ≤ mem.size → (q + 8 ≤ p ∨ p + 8 ≤ q) → readFrom mem' q = readFrom mem q := by
  refine ⟨{ mem with byte := storeLe mem.byte 8 p header.encode }, ?_, rfl, ?_, ?_⟩
  · rw [writeInto, Memory.writeLeU64, heapRange_of_le hin]
  · have hload : loadLe (storeLe mem.byte 8 p header.encode) 8 p = header.encode := by
      rw [loadLe_storeLe_same]
      exact mod_eq_of_lt (encode_lt henc)
    rw [readFrom, Memory.readLeU64_of_le (by exact hin)]
    simp only [hload]
    exact decode_encode henc
  · intro q hq hdisj
    exact readFrom_congr hq (le_refl _) fun a _ _ => storeLe_outside (by omega)

end Header

def footprint (order : Order) : Nat := order.size + headerSize

end FreeingBump

open FreeingBump

namespace FreeingBumpHeapAllocator

variable {a : FreeingBumpHeapAllocator} {mem : Memory} {size ptr : Nat} {order : Order}
  {p : Nat} {a' : FreeingBumpHeapAllocator}

/-! ## Allocating -/

/-- The head of the free list is reused, or a chunk is carved off the bumper. -/
inductive Takes (a : FreeingBumpHeapAllocator) (mem : Memory) (order : Order) :
    Nat → FreeingBumpHeapAllocator → Prop
  | reused {p : Nat} {nextFree : Link} (hhead : a.freeLists order = .ptr p)
      (hroom : p + footprint order ≤ mem.size)
      (hread : Header.readFrom mem p = .ok (.free nextFree)) :
      Takes a mem order p { a with freeLists := Function.update a.freeLists order nextFree }
  | carved (hhead : a.freeLists order = .nil) (hroom : a.bumper + footprint order ≤ mem.size) :
      Takes a mem order a.bumper { a with bumper := a.bumper + footprint order }

theorem Takes.room (h : Takes a mem order p a') : p + footprint order ≤ mem.size := by
  cases h with
  | reused _ hroom _ | carved _ hroom => exact hroom

theorem Takes.not_of_head {p' : Nat} (h : Takes a mem order p' a')
    (hhead : a.freeLists order = .ptr p) (hread : ∀ next, Header.readFrom mem p ≠ .ok (.free next))
    : False := by
  cases h with
  | reused hhead' _ hread' =>
    rw [hhead] at hhead'
    cases hhead'
    exact hread _ hread'
  | carved hhead' _ =>
    rw [hhead] at hhead'
    cases hhead'

theorem Takes.totalSize_eq (h : Takes a mem order p a') : a'.totalSize = a.totalSize := by
  cases h <;> rfl

/-- The cases in which `allocate` panics while it looks for a header. -/
def Overruns (a : FreeingBumpHeapAllocator) (mem : Memory) (order : Order) : Prop :=
  match a.freeLists order with
  | .ptr p => mem.size < p + footprint order
  | .nil => 2 ^ 32 ≤ a.bumper + footprint order

theorem takeHeader_ptr (hhead : a.freeLists order = .ptr p) : a.takeHeader mem order =
      if p + footprint order ≤ mem.size then
        match Header.readFrom mem p with
        | .error e => (.err e, a)
        | .ok header =>
          match header.intoFree with
          | none => (.err (.other "free list points to a occupied header"), a)
          | some nextFree =>
            (.ok p, { a with freeLists := Function.update a.freeLists order nextFree })
      else (.panic, a) := by
  have hsize := mem.size_lt
  rw [takeHeader, hhead]
  simp only [checkedAdd]
  by_cases hlt : p + (order.size + headerSize) < 2 ^ 32
  · simp only [if_pos hlt]
    rfl
  · simp only [if_neg hlt]
    rw [if_neg (by simp only [footprint]; omega)]

theorem takeHeader_cases (a : FreeingBumpHeapAllocator) (mem : Memory) (order : Order) :
    (¬a.Overruns mem order ∧ ∃ p a', Takes a mem order p a' ∧ a.takeHeader mem order = (.ok p, a'))
    ∨ (a.Overruns mem order ∧ a.takeHeader mem order = (.panic, a))
    ∨ (¬a.Overruns mem order ∧ (∀ p a', ¬Takes a mem order p a')
        ∧ ∃ e, a.takeHeader mem order = (.err e, a)) := by
  rcases hhead : a.freeLists order with _ | p
  · have hbump : a.takeHeader mem order = a.bump (footprint order) mem.size := by
      rw [takeHeader, hhead]
      rfl
    simp only [hbump, bump, Overruns, hhead]
    by_cases hlt : a.bumper + footprint order < 2 ^ 32
    · simp only [checkedAdd_of_lt hlt, not_le.mpr hlt]
      by_cases hroom : a.bumper + footprint order ≤ mem.size
      · exact .inl ⟨id, _, _, .carved hhead hroom, if_neg (not_lt.mpr hroom)⟩
      refine .inr (.inr ⟨id, fun p a' htakes => ?_, _, if_pos (Nat.lt_of_not_le hroom)⟩)
      cases htakes with
      | reused hhead' _ _ => rw [hhead] at hhead'; cases hhead'
      | carved _ hroom' => exact hroom hroom'
    · have hle := Nat.le_of_not_lt hlt
      simp only [checkedAdd_of_le hle]
      exact .inr (.inl ⟨hle, trivial⟩)
  · simp only [takeHeader_ptr hhead, Overruns, hhead]
    by_cases hroom : p + footprint order ≤ mem.size
    · simp only [if_pos hroom, not_lt.mpr hroom]
      rcases hread : Header.readFrom mem p with e | (nextFree | order')
      · refine .inr (.inr ⟨id, fun p' a' htakes => ?_, _, rfl⟩)
        exact htakes.not_of_head hhead fun next h => by rw [hread] at h; cases h
      · exact .inl ⟨id, _, _, .reused hhead hroom hread, rfl⟩
      · refine .inr (.inr ⟨id, fun p' a' htakes => ?_, _, rfl⟩)
        exact htakes.not_of_head hhead fun next h => by rw [hread] at h; cases h
    · exact .inr (.inl ⟨Nat.lt_of_not_le hroom, if_neg hroom⟩)

/-- It takes a header, writes the order into it and, unless the book keeping overflows, returns the
pointer behind it; or it fails, by a panic if the search for a header overruns, and leaves all but
the poison flag as it was. -/
theorem allocate_cases (a : FreeingBumpHeapAllocator) (mem : Memory) (size : Nat) :
    (∃ (h : size ≤ maxPossibleAllocation) (p : Nat) (a' : FreeingBumpHeapAllocator)
        (mem' : Memory), a.poisoned = false
        ∧ ¬a.Overruns mem (Order.ofSize size h)
        ∧ Takes a mem (Order.ofSize size h) p a'
        ∧ (Header.occupied (Order.ofSize size h)).writeInto mem p = .ok mem'
        ∧ a.allocate mem size =
          if a.totalSize + footprint (Order.ofSize size h) < 2 ^ 32 then
            (.ok (p + headerSize),
              a'.noteAllocation (a.totalSize + footprint (Order.ofSize size h)), mem')
          else (.panic, a'.poison, mem'))
    ∨ (∃ h : size ≤ maxPossibleAllocation, a.poisoned = false ∧ a.Overruns mem (Order.ofSize size h)
        ∧ a.allocate mem size = (.panic, a.poison, mem))
    ∨ ((∀ h : size ≤ maxPossibleAllocation, a.poisoned = false →
          ¬a.Overruns mem (Order.ofSize size h)
          ∧ ∀ p a', ¬Takes a mem (Order.ofSize size h) p a')
        ∧ ∃ e, a.allocate mem size = (.err e, a.poison, mem)) := by
  rw [allocate]
  cases hpois : a.poisoned with
  | true =>
    have hself : a.poison = a := by rw [poison, ← hpois]
    exact .inr (.inr ⟨fun _ h => Bool.noConfusion h, _, by rw [hself]; rfl⟩)
  | false =>
    rw [if_neg (by simp)]
    by_cases hsize : size ≤ maxPossibleAllocation
    · rw [Order.fromSize_of_le hsize]
      rcases takeHeader_cases a mem (Order.ofSize size hsize) with
        ⟨hover, p, a', htakes, heq⟩ | ⟨hover, heq⟩ | ⟨hover, hnone, e, heq⟩
      · have hroom := htakes.room
        simp only [footprint, headerSize] at hroom
        obtain ⟨mem', hwrite, -⟩ := Header.writeInto_spec
          (show (Header.occupied (Order.ofSize size hsize)).Encodable from trivial)
          (show p + 8 ≤ mem.size by omega)
        refine .inl ⟨hsize, p, a', mem', rfl, hover, htakes, hwrite, ?_⟩
        have hptr : p + headerSize < 2 ^ 32 := by
          have := mem.size_lt
          simp only [headerSize]
          omega
        simp only [heq, hwrite, htakes.totalSize_eq, checkedAdd_of_lt hptr]
        by_cases htotal : a.totalSize + footprint (Order.ofSize size hsize) < 2 ^ 32
        · have hadd : checkedAdd a.totalSize (Order.size (Order.ofSize size hsize) + headerSize) =
              some (a.totalSize + footprint (Order.ofSize size hsize)) := checkedAdd_of_lt htotal
          rw [if_pos htotal, hadd]
        · have hadd : checkedAdd a.totalSize (Order.size (Order.ofSize size hsize) + headerSize) =
              none := checkedAdd_of_le (Nat.le_of_not_lt htotal)
          rw [if_neg htotal, hadd]
      · exact .inr (.inl ⟨hsize, rfl, hover, by simp only [heq]⟩)
      · exact .inr (.inr ⟨fun _ _ => ⟨hover, hnone⟩, e, by simp only [heq]⟩)
    · rw [Order.fromSize_of_lt (by omega)]
      exact .inr (.inr ⟨fun h => absurd h hsize, _, rfl⟩)

/-! ## Deallocating -/

theorem deallocate_occupied (hpois : a.poisoned = false)
    (hread : Header.readFrom mem p = .ok (.occupied order)) (htotal : footprint order ≤ a.totalSize)
    {mem' : Memory} (hwrite : (Header.free (a.freeLists order)).writeInto mem p = .ok mem') :
    a.deallocate mem (p + headerSize) = (.ok (), { a with
        freeLists := Function.update a.freeLists order (.ptr p)
        totalSize := a.totalSize - footprint order }, mem') := by
  simp only [footprint] at htotal
  simp [deallocate, hpois, hread, Header.intoOccupied, hwrite,
    if_neg (Nat.not_lt.mpr htotal), footprint]

theorem deallocate_cases (a : FreeingBumpHeapAllocator) (mem : Memory) (ptr : Nat) :
    (∃ e a' mem', a.deallocate mem ptr = (.err e, a', mem') ∧ a'.poisoned = true)
    ∨ ∃ a' mem', a.deallocate mem ptr = (.ok (), a', mem') := by
  rw [deallocate]
  split
  · rename_i hpois
    exact .inl ⟨_, a, mem, rfl, hpois⟩
  split
  · exact .inl ⟨_, _, _, rfl, rfl⟩
  dsimp only
  split
  · exact .inl ⟨_, _, _, rfl, rfl⟩
  split
  · exact .inl ⟨_, _, _, rfl, rfl⟩
  split
  · exact .inl ⟨_, _, _, rfl, rfl⟩
  · split
    · exact .inl ⟨_, _, _, rfl, rfl⟩
    · exact .inr ⟨_, _, rfl⟩

end FreeingBumpHeapAllocator

end Substrate
