import Mathlib.Algebra.BigOperators.Group.List.Basic
import Mathlib.Data.List.Nodup
import Mathlib.Data.List.Pairwise
import Substrate.FreeingBumpSpec

/-!
# Soundness of the freeing-bump allocator

A run interleaves allocations, deallocations of live pointers and guest writes that spare the chunk
headers, and keeps a history: the blocks that are live, and those that were freed and not handed out
again, the last freed first.

By `Inv` every chunk ever carved off the bumper is the chunk of exactly one recorded block; the
chunks are disjoint; the header of a live block holds its order; and the free list of an order, read
through the memory, is the list of freed blocks of that order.
-/

namespace Substrate.FreeingBumpHeapAllocator

open FreeingBump Function Header List Order

variable {l : List Block} {heapBase : Nat}

/-! ## The history of a run -/

structure Block where
  ptr : Nat
  size : Nat
  fits : size ≤ maxPossibleAllocation

variable {b c : Block} {a : FreeingBumpHeapAllocator}

namespace Block

def order (b : Block) : Order := ofSize b.size b.fits

def header (b : Block) : Nat := b.ptr - headerSize

def stop (b : Block) : Nat := b.ptr + b.order.size

/-- The chunks `[ptr - 8, ptr + order size)` do not overlap. -/
def Disjoint (b c : Block) : Prop := b.stop ≤ c.header ∨ c.stop ≤ b.header

theorem Disjoint.symm (h : b.Disjoint c) : c.Disjoint b := Or.symm h

end Block

def footprints (blocks : List Block) : Nat := (blocks.map (fun b => footprint b.order)).sum

structure World where
  alloc : FreeingBumpHeapAllocator
  mem : Memory
  live : List Block
  freed : List Block

namespace World

def blocks (w : World) : List Block := w.live ++ w.freed

inductive Op where
  | allocate (size : Nat)
  | deallocate (ptr : Nat)
  | guest (mem : Memory)

def step (w : World) : Op → World
  | .allocate size =>
    match w.alloc.allocate w.mem size with
    | (.ok ptr, a, mem) =>
      if h : size ≤ maxPossibleAllocation then
        ⟨a, mem, ⟨ptr, size, h⟩ :: w.live, w.freed.filter (fun b => b.ptr ≠ ptr)⟩
      else ⟨a, mem, w.live, w.freed⟩
    | (_, a, mem) => ⟨a, mem, w.live, w.freed⟩
  | .deallocate ptr =>
    match w.alloc.deallocate w.mem ptr with
    | (.ok _, a, mem) =>
      ⟨a, mem, w.live.filter (fun b => b.ptr ≠ ptr),
        w.live.filter (fun b => b.ptr = ptr) ++ w.freed⟩
    | (_, a, mem) => ⟨a, mem, w.live, w.freed⟩
  | .guest mem => { w with mem := mem }

/-- Only live pointers are deallocated. The memory does not shrink, stays at most 2 GiB, and the
guest spares the headers. -/
def Allowed (w : World) : Op → Prop
  | .allocate _ => True
  | .deallocate ptr => ∃ b ∈ w.live, b.ptr = ptr
  | .guest mem => w.mem.size ≤ mem.size ∧ mem.size ≤ 2 ^ 31
      ∧ ∀ b ∈ w.blocks, ∀ a, b.header ≤ a → a < b.ptr → mem.byte a = w.mem.byte a

inductive Reachable (heapBase : Nat) : World → Prop
  | new {a mem} (hnew : new heapBase = .ok a)
      (hmem : mem.size ≤ 2 ^ 31) : Reachable heapBase ⟨a, mem, [], []⟩
  | step {w : World} {op : Op} (h : Reachable heapBase w) (hop : w.Allowed op) :
      Reachable heapBase (w.step op)

end World

/-! ## Free lists in memory -/

/-- Reading the links from `link` on visits exactly these headers and ends. -/
def FreeChain (mem : Memory) : Link → List Nat → Prop
  | link, [] => link = .nil
  | link, p :: ps => link = .ptr p ∧
      ∃ next, readFrom mem p = .ok (.free next) ∧ FreeChain mem next ps

theorem FreeChain.congr {mem mem' : Memory} {link : Link} {ps} (h : FreeChain mem link ps)
    (hread : ∀ p ∈ ps, readFrom mem' p = readFrom mem p) : FreeChain mem' link ps := by
  induction ps generalizing link with
  | nil => exact h
  | cons p ps ih =>
    obtain ⟨hlink, next, hp, hrest⟩ := h
    refine ⟨hlink, next, ?_, ih hrest fun q hq => hread q (mem_cons_of_mem _ hq)⟩
    rw [hread p (mem_cons_self ..), hp]

/-! ## The invariant -/

def freedHeaders (freed : List Block) (order : Order) : List Nat :=
  (freed.filter (fun b => b.order = order)).map Block.header

/-- It lies between the start of the heap and the bumper, inside the memory, and its pointer is
aligned. -/
structure Placed (base bumper memSize : Nat) (b : Block) : Prop where
  aligned : b.ptr % 8 = 0
  base_le : base + headerSize ≤ b.ptr
  le_bumper : b.stop ≤ bumper
  le_size : b.stop ≤ memSize

structure Inv (base : Nat) (w : World) : Prop where
  mem_le : w.mem.size ≤ 2 ^ 31
  bumper_aligned : w.alloc.bumper % 8 = 0
  bumper_eq : w.alloc.bumper = base + footprints w.blocks
  bumper_le : w.blocks ≠ [] → w.alloc.bumper ≤ w.mem.size
  placed : ∀ b ∈ w.blocks, Placed base w.alloc.bumper w.mem.size b
  disjoint : w.blocks.Pairwise Block.Disjoint
  live_header : ∀ b ∈ w.live, readFrom w.mem b.header = .ok (.occupied b.order)
  chain : ∀ order, FreeChain w.mem (w.alloc.freeLists order) (freedHeaders w.freed order)
  totalSize_eq : w.alloc.totalSize = footprints w.live

section Placement

variable {base bumper memSize : Nat} {b c : Block}

section

variable (h : Placed base bumper memSize b)
include h

theorem Placed.header_add : b.header + headerSize = b.ptr :=
  Nat.sub_add_cancel (Nat.le_trans (Nat.le_add_left ..) h.base_le)

theorem Placed.header_le : b.header + 8 ≤ memSize := by
  have hadd := h.header_add
  have hle := h.le_size
  simp only [headerSize, Block.stop] at hadd hle
  omega

theorem Placed.mono {bumper' memSize' : Nat} (hb : bumper ≤ bumper') (hm : memSize ≤ memSize') :
    Placed base bumper' memSize' b :=
  ⟨h.aligned, h.base_le, Nat.le_trans h.le_bumper hb, Nat.le_trans h.le_size hm⟩

end

section

variable (h : b.Disjoint c) (hb : Placed base bumper memSize b) (hc : Placed base bumper memSize c)
include h hb hc

theorem Block.Disjoint.headers : b.header + 8 ≤ c.header ∨ c.header + 8 ≤ b.header := by
  have hb' := hb.header_add
  have hc' := hc.header_add
  simp only [headerSize] at hb' hc'
  rcases h with h | h <;> simp only [Block.stop] at h <;> omega

theorem Block.Disjoint.ptr_ne : b.ptr ≠ c.ptr := by
  have hh := h.headers hb hc
  simp only [Block.header] at hh
  omega

end

end Placement

theorem footprints_cons (b : Block) (l : List Block) :
    footprints (b :: l) = footprint b.order + footprints l := by
  simp [footprints]

theorem footprints_append (l l' : List Block) :
    footprints (l ++ l') = footprints l + footprints l' := by
  simp [footprints]

theorem footprints_perm {l'} (h : l.Perm l') : footprints l = footprints l' :=
  (h.map _).sum_eq

theorem footprint_le_footprints (h : b ∈ l) : footprint b.order ≤ footprints l := by
  obtain ⟨s, t, rfl⟩ := append_of_mem h
  rw [footprints_append, footprints_cons]
  omega

/-! ## Blocks by pointer -/

section

variable (hnd : (l.map Block.ptr).Nodup)
include hnd

theorem filter_ptr_eq (hb : b ∈ l) : l.filter (fun c => c.ptr = b.ptr) = [b] := by
  induction l with
  | nil => cases hb
  | cons c l ih =>
    obtain ⟨hc, hnd⟩ := nodup_cons.mp hnd
    rcases mem_cons.mp hb with rfl | hb
    · have hnone : l.filter (fun c => decide (c.ptr = b.ptr)) = [] :=
        filter_eq_nil_iff.mpr fun d hd heq =>
          hc (of_decide_eq_true heq ▸ mem_map_of_mem hd)
      rw [filter_cons_of_pos (by simp), hnone]
    · have hne : c.ptr ≠ b.ptr := fun heq => hc (heq ▸ mem_map_of_mem hb)
      rw [filter_cons_of_neg (by simpa using hne), ih hnd hb]

theorem perm_cons_filter_ne (hb : b ∈ l) : l.Perm (b :: l.filter (fun c => c.ptr ≠ b.ptr)) := by
  have h := (filter_append_perm (fun c : Block => decide (c.ptr = b.ptr)) l).symm
  rw [filter_ptr_eq hnd hb] at h
  simpa using h

theorem freedHeaders_filter_ne (hb : b ∈ l) {order : Order} (ho : order ≠ b.order) :
    freedHeaders (l.filter (fun c => c.ptr ≠ b.ptr)) order = freedHeaders l order := by
  rw [freedHeaders, filter_comm]
  congr 1
  refine filter_eq_self.mpr fun c hc => ?_
  obtain ⟨hcl, hco⟩ := mem_filter.mp hc
  have hne : c.ptr ≠ b.ptr := fun heq => by
    obtain rfl := inj_on_of_nodup_map hnd hcl hb heq
    exact ho (of_decide_eq_true hco).symm
  simpa using hne

theorem freedHeaders_filter_head {rest} {order : Order}
    (hl : l.filter (fun c => c.order = order) = b :: rest) :
    freedHeaders (l.filter (fun c => c.ptr ≠ b.ptr)) order = rest.map Block.header := by
  have hnd' : ((b :: rest).map Block.ptr).Nodup :=
    hl ▸ hnd.sublist (filter_sublist.map _)
  rw [freedHeaders, filter_comm, hl, filter_cons_of_neg (by simp)]
  congr 1
  refine filter_eq_self.mpr fun c hc => ?_
  have hne : c.ptr ≠ b.ptr := fun heq =>
    (nodup_cons.mp hnd').1 (heq ▸ mem_map_of_mem hc)
  simpa using hne

end

theorem Placed.of_eq {base bumper memSize : Nat} (h : Placed base bumper memSize b)
    (hptr : c.ptr = b.ptr) (horder : c.order = b.order) : Placed base bumper memSize c := by
  obtain ⟨h1, h2, h3, h4⟩ := h
  rw [Block.stop, ← hptr, ← horder] at h3 h4
  rw [← hptr] at h1 h2
  exact ⟨h1, h2, h3, h4⟩

theorem Block.Disjoint.of_eq {d : Block} (h : b.Disjoint d) (hptr : c.ptr = b.ptr)
    (horder : c.order = b.order) : c.Disjoint d := by
  simp only [Block.Disjoint, Block.stop, Block.header] at h ⊢
  rwa [hptr, horder]

namespace Inv

variable {base : Nat} {w : World} {p : Nat} {mem : Memory}

section

variable (h : Inv base w)
include h

theorem nodup_ptr : (w.blocks.map Block.ptr).Nodup := by
  rw [List.Nodup, pairwise_map]
  refine h.disjoint.imp_of_mem fun {b c} hb hc hd => ?_
  exact hd.ptr_ne (h.placed b hb) (h.placed c hc)

theorem disjoint_of_ne (hb : b ∈ w.blocks) (hc : c ∈ w.blocks) (hne : b.ptr ≠ c.ptr) :
    b.Disjoint c := by
  have : Std.Symm Block.Disjoint := ⟨fun _ _ => Block.Disjoint.symm⟩
  exact h.disjoint.forall hb hc fun heq => hne (congrArg Block.ptr heq)

theorem exists_freed {order : Order} (hhead : w.alloc.freeLists order = .ptr p) :
    ∃ b rest next, b.header = p ∧ w.freed.filter (fun c => c.order = order) = b :: rest
      ∧ readFrom w.mem p = .ok (.free next)
      ∧ FreeChain w.mem next (rest.map Block.header) := by
  have hchain := h.chain order
  rw [freedHeaders, hhead] at hchain
  rcases hf : w.freed.filter (fun c => decide (c.order = order)) with _ | ⟨b, rest⟩
  · rw [hf] at hchain
    cases hchain
  rw [hf] at hchain
  obtain ⟨hlink, next, hread, hrest⟩ := hchain
  obtain rfl := Link.ptr.inj hlink
  exact ⟨b, rest, next, rfl, hf, hread, hrest⟩

/-! ## Handing out a block -/

theorem handOut {nb : Block} {freed} (hsub : ∀ c ∈ freed, c ∈ w.freed)
    (hbumper : w.alloc.bumper ≤ a.bumper) (haligned : a.bumper % 8 = 0)
    (hbumper_eq : a.bumper = base + footprints (nb :: (w.live ++ freed)))
    (hbumper_le : a.bumper ≤ w.mem.size) (hplaced : Placed base a.bumper w.mem.size nb)
    (hdisj : ∀ c ∈ w.live ++ freed, nb.Disjoint c)
    (hpair : (w.live ++ freed).Pairwise Block.Disjoint)
    (hchain : ∀ order, FreeChain w.mem (a.freeLists order) (freedHeaders freed order))
    (htotal : a.totalSize = footprint nb.order + footprints w.live) (hsize : mem.size = w.mem.size)
    (hwrote : readFrom mem nb.header = .ok (.occupied nb.order))
    (hframe : ∀ q, q + 8 ≤ w.mem.size → (q + 8 ≤ nb.header ∨ nb.header + 8 ≤ q) →
      readFrom mem q = readFrom w.mem q) : Inv base ⟨a, mem, nb :: w.live, freed⟩ := by
  have hblocks : ∀ c ∈ w.live ++ freed, c ∈ w.blocks := fun c hc =>
    (mem_append.mp hc).elim (mem_append_left _) fun hc =>
      mem_append_right _ (hsub c hc)
  have hplaced' : ∀ c ∈ w.live ++ freed, Placed base a.bumper w.mem.size c := fun c hc =>
    (h.placed c (hblocks c hc)).mono hbumper (Nat.le_refl _)
  -- the header of another block is not the one that was written
  have hread : ∀ c ∈ w.live ++ freed, readFrom mem c.header = readFrom w.mem c.header := fun c hc =>
    hframe c.header (hplaced' c hc).header_le ((hdisj c hc).headers hplaced (hplaced' c hc)).symm
  refine ⟨by rw [hsize]; exact h.mem_le, haligned, hbumper_eq, fun _ => by rw [hsize]; exact hbumper_le,
    ?_, pairwise_cons.mpr ⟨hdisj, hpair⟩, ?_, fun order => ?_, ?_⟩
  · simp only [World.blocks, cons_append, hsize]
    exact forall_mem_cons.mpr ⟨hplaced, hplaced'⟩
  · refine forall_mem_cons.mpr ⟨hwrote, fun c hc => ?_⟩
    rw [hread c (mem_append_left _ hc), h.live_header c hc]
  · refine (hchain order).congr fun p hp => ?_
    obtain ⟨c, hc, rfl⟩ := mem_map.mp hp
    exact hread c (mem_append_right _ (mem_filter.mp hc).1)
  · simp [htotal, footprints_cons]

/-- It is the block that was freed last among those of its order. -/
theorem reuse {size : Nat} (hsize : size ≤ maxPossibleAllocation) {next : Link}
    (hhead : w.alloc.freeLists (ofSize size hsize) = .ptr p)
    (hread : readFrom w.mem p = .ok (.free next)) (hmem : mem.size = w.mem.size)
    (hwrote : readFrom mem p = .ok (.occupied (ofSize size hsize)))
    (hframe : ∀ q, q + 8 ≤ w.mem.size → (q + 8 ≤ p ∨ p + 8 ≤ q) →
      readFrom mem q = readFrom w.mem q) :
    let a := { w.alloc with
      freeLists := update w.alloc.freeLists (ofSize size hsize) next }
    Inv base ⟨a.noteAllocation (a.totalSize + footprint (ofSize size hsize)), mem,
      ⟨p + headerSize, size, hsize⟩ :: w.live,
      w.freed.filter (fun b => b.ptr ≠ p + headerSize)⟩ := by
  intro a
  obtain ⟨b, rest, next', rfl, hfilter, hread', hrest⟩ := h.exists_freed hhead
  obtain rfl : next = next' := by
    rw [hread] at hread'
    cases hread'
    rfl
  obtain ⟨hb, horder⟩ : b ∈ w.freed ∧ b.order = ofSize size hsize := by
    have := mem_filter.mp (hfilter ▸ mem_cons_self .. :
      b ∈ w.freed.filter (fun c => decide (c.order = ofSize size hsize)))
    exact ⟨this.1, of_decide_eq_true this.2⟩
  have hbb : b ∈ w.blocks := mem_append_right _ hb
  have hplaced := h.placed b hbb
  rw [hplaced.header_add]
  have hnd := h.nodup_ptr.sublist ((sublist_append_right ..).map _)
  have hperm : w.blocks.Perm (b :: (w.live ++ w.freed.filter (fun c => c.ptr ≠ b.ptr))) :=
    ((perm_cons_filter_ne hnd hb).append_left w.live).trans perm_middle
  obtain ⟨hdisj, hpair⟩ := pairwise_cons.mp (hperm.pairwise h.disjoint Block.Disjoint.symm)
  refine h.handOut (fun c hc => (mem_filter.mp hc).1) (Nat.le_refl _) h.bumper_aligned ?_
    (h.bumper_le (ne_nil_of_mem hbb)) (hplaced.of_eq rfl horder.symm)
    (fun c hc => (hdisj c hc).of_eq rfl horder.symm) hpair (fun order => ?_) ?_ hmem hwrote hframe
  · have hbumper := h.bumper_eq
    rw [footprints_perm hperm, footprints_cons, horder] at hbumper
    rw [footprints_cons]
    exact hbumper
  · change FreeChain w.mem (update w.alloc.freeLists _ _ order) _
    by_cases ho : order = ofSize size hsize
    · subst ho
      rw [update_self, freedHeaders_filter_head hnd hfilter]
      exact hrest
    · rw [update_of_ne ho, freedHeaders_filter_ne hnd hb (by rwa [horder])]
      exact h.chain order
  · rw [h.totalSize_eq]
    exact Nat.add_comm ..

theorem carve {size : Nat} (hsize : size ≤ maxPossibleAllocation)
    (hroom : w.alloc.bumper + footprint (ofSize size hsize) ≤ w.mem.size)
    (hmem : mem.size = w.mem.size)
    (hwrote : readFrom mem w.alloc.bumper = .ok (.occupied (ofSize size hsize)))
    (hframe : ∀ q, q + 8 ≤ w.mem.size → (q + 8 ≤ w.alloc.bumper ∨ w.alloc.bumper + 8 ≤ q) →
      readFrom mem q = readFrom w.mem q) :
    let a := { w.alloc with
      bumper := w.alloc.bumper + footprint (ofSize size hsize) }
    Inv base ⟨a.noteAllocation (a.totalSize + footprint (ofSize size hsize)), mem,
      ⟨w.alloc.bumper + headerSize, size, hsize⟩ :: w.live,
      w.freed.filter (fun b => b.ptr ≠ w.alloc.bumper + headerSize)⟩ := by
  intro a
  have hbase : base ≤ w.alloc.bumper := by
    rw [h.bumper_eq]
    exact Nat.le_add_right ..
  have haligned := h.bumper_aligned
  have horder : Order.size (Order.ofSize size hsize) % 8 = 0 := Order.size_mod _
  have hfreed : w.freed.filter (fun b => decide (b.ptr ≠ w.alloc.bumper + headerSize)) = w.freed := by
    refine filter_eq_self.mpr fun b hb => ?_
    have hle := (h.placed b (mem_append_right _ hb)).le_bumper
    have hne : b.ptr ≠ w.alloc.bumper + headerSize := by
      simp only [Block.stop, headerSize] at hle ⊢
      omega
    simpa using hne
  rw [hfreed]
  refine h.handOut (fun c hc => hc) (Nat.le_add_right ..) ?_ ?_ hroom ?_ (fun c hc => .inr ?_)
    h.disjoint h.chain ?_ hmem hwrote hframe
  · change (w.alloc.bumper + footprint (ofSize size hsize)) % 8 = 0
    simp only [footprint, headerSize]
    omega
  · change w.alloc.bumper + _ = _
    have hbumper := h.bumper_eq
    simp only [World.blocks] at hbumper
    rw [footprints_cons]
    simp only [Block.order]
    omega
  · simp only [footprint, headerSize] at hroom
    refine ⟨?_, ?_, ?_, ?_⟩
    · simp only [headerSize]
      omega
    · exact Nat.add_le_add_right hbase _
    · change w.alloc.bumper + headerSize + Order.size (Order.ofSize size hsize) ≤
        w.alloc.bumper + footprint (ofSize size hsize)
      simp only [footprint]
      omega
    · change w.alloc.bumper + headerSize + Order.size (Order.ofSize size hsize) ≤ _
      simp only [headerSize]
      omega
  · exact (h.placed c hc).le_bumper
  · rw [h.totalSize_eq]
    exact Nat.add_comm ..

/-! ## The steps -/

theorem poison : Inv base ⟨w.alloc.poison, w.mem, w.live, w.freed⟩ :=
  ⟨h.mem_le, h.bumper_aligned, h.bumper_eq, h.bumper_le, h.placed, h.disjoint, h.live_header,
    h.chain, h.totalSize_eq⟩

theorem totalSize_lt {order : Order} (htakes : Takes w.alloc w.mem order p a) :
    w.alloc.totalSize + footprint order < 2 ^ 32 := by
  have hmem := h.mem_le
  have hbumper := h.bumper_eq
  have horder := size_le order
  rw [World.blocks, footprints_append, ← h.totalSize_eq] at hbumper
  have hfoot : footprint order ≤ 2 ^ 25 + 8 := by
    simp only [footprint, headerSize]
    omega
  cases htakes with
  | carved _ hroom => omega
  | reused hhead _ _ =>
    obtain ⟨b, rest, next, -, hfilter, -⟩ := h.exists_freed hhead
    have hb : b ∈ w.freed := (mem_filter.mp (hfilter ▸ mem_cons_self ..)).1
    have := h.bumper_le (ne_nil_of_mem (mem_append_right w.live hb))
    omega

theorem allocate (size : Nat) : Inv base (w.step (.allocate size)) := by
  rcases allocate_cases w.alloc w.mem size with
    ⟨hsize, p, a', mem', -, -, htakes, hwrite, heq⟩ | ⟨-, -, -, heq⟩ | ⟨-, e, heq⟩
  · have hroom := htakes.room
    simp only [footprint, headerSize] at hroom
    obtain ⟨mem'', hwrite', hmem, hread, hframe⟩ := writeInto_spec
      (show (occupied (ofSize size hsize)).Encodable from trivial)
      (show p + 8 ≤ w.mem.size by omega)
    obtain rfl := by
      rw [hwrite] at hwrite'
      exact Except.ok.inj hwrite'
    rw [if_pos (h.totalSize_lt htakes)] at heq
    simp only [World.step, heq, dif_pos hsize]
    cases htakes with
    | reused hhead _ hfree => exact h.reuse hsize hhead hfree hmem hread hframe
    | carved _ hroom => exact h.carve hsize hroom hmem hread hframe
  · simp only [World.step, heq]
    exact h.poison
  · simp only [World.step, heq]
    exact h.poison

theorem head_encodable (order : Order) : (free (w.alloc.freeLists order)).Encodable := by
  rcases hhead : w.alloc.freeLists order with _ | p
  · trivial
  obtain ⟨c, rest, next, rfl, hfilter, -⟩ := h.exists_freed hhead
  have hc : c ∈ w.freed := (mem_filter.mp (hfilter ▸ mem_cons_self ..)).1
  have hle := (h.placed c (mem_append_right _ hc)).header_le
  have hmem := h.mem_le
  simp only [Header.Encodable, nilMarker]
  omega

theorem deallocate_live (hpois : w.alloc.poisoned = false) (hb : b ∈ w.live) :
    ∃ mem', w.alloc.deallocate w.mem b.ptr = (.ok (), { w.alloc with
          freeLists := update w.alloc.freeLists b.order (.ptr b.header)
          totalSize := w.alloc.totalSize - footprint b.order }, mem')
      ∧ mem'.size = w.mem.size
      ∧ readFrom mem' b.header = .ok (.free (w.alloc.freeLists b.order))
      ∧ ∀ q, q + 8 ≤ w.mem.size → (q + 8 ≤ b.header ∨ b.header + 8 ≤ q) →
          readFrom mem' q = readFrom w.mem q := by
  have hplaced := h.placed b (mem_append_left _ hb)
  obtain ⟨mem', hwrite, hspec⟩ :=
    writeInto_spec (h.head_encodable b.order) hplaced.header_le
  refine ⟨mem', ?_, hspec⟩
  rw [← hplaced.header_add]
  refine deallocate_occupied hpois (h.live_header b hb) ?_ hwrite
  rw [h.totalSize_eq]
  exact footprint_le_footprints hb

theorem deallocate {ptr : Nat} (hop : w.Allowed (.deallocate ptr)) :
    Inv base (w.step (.deallocate ptr)) := by
  obtain ⟨b, hb, rfl⟩ := hop
  cases hpois : w.alloc.poisoned with
  | true =>
    simp only [World.step, FreeingBumpHeapAllocator.deallocate, hpois, if_true]
    exact h
  | false =>
    obtain ⟨mem', heq, hmem, hread, hframe⟩ := h.deallocate_live hpois hb
    have hnd := h.nodup_ptr.sublist ((sublist_append_left ..).map _)
    have hplaced := h.placed b (mem_append_left _ hb)
    simp only [World.step, heq, filter_ptr_eq hnd hb]
    -- the block moves from the live to the freed ones
    have hperm : w.live.Perm (b :: w.live.filter (fun c => c.ptr ≠ b.ptr)) :=
      perm_cons_filter_ne hnd hb
    have hblocks : w.blocks.Perm (w.live.filter (fun c => c.ptr ≠ b.ptr) ++ ([b] ++ w.freed)) :=
      (hperm.append_right w.freed).trans perm_middle.symm
    have hother : ∀ c ∈ w.blocks, c.ptr ≠ b.ptr →
        readFrom mem' c.header = readFrom w.mem c.header := fun c hc hne =>
      hframe c.header (h.placed c hc).header_le
        ((h.disjoint_of_ne hc (mem_append_left _ hb) hne).headers (h.placed c hc) hplaced)
    have hfreed_ne : ∀ c ∈ w.freed, c.ptr ≠ b.ptr := fun c hc heq =>
      (nodup_append.mp (by simpa [World.blocks] using h.nodup_ptr)).2.2
        b.ptr (mem_map_of_mem hb) c.ptr (mem_map_of_mem hc) heq.symm
    refine ⟨by rw [hmem]; exact h.mem_le, h.bumper_aligned, ?_, ?_, ?_,
      hblocks.pairwise h.disjoint Block.Disjoint.symm, ?_, fun order => ?_, ?_⟩
    · rw [World.blocks, ← footprints_perm hblocks]
      exact h.bumper_eq
    · intro _
      rw [hmem]
      exact h.bumper_le (ne_nil_of_mem (mem_append_left _ hb))
    · intro c hc
      rw [hmem]
      exact h.placed c (hblocks.mem_iff.mpr hc)
    · intro c hc
      obtain ⟨hcl, hne⟩ := mem_filter.mp hc
      rw [hother c (mem_append_left _ hcl) (of_decide_eq_true hne), h.live_header c hcl]
    · have hchain : FreeChain mem' (w.alloc.freeLists order) (freedHeaders w.freed order) :=
        (h.chain order).congr fun p hp => by
          obtain ⟨c, hc, rfl⟩ := mem_map.mp hp
          have hcf := (mem_filter.mp hc).1
          exact hother c (mem_append_right _ hcf) (hfreed_ne c hcf)
      change FreeChain mem' (update w.alloc.freeLists b.order (.ptr b.header) order) _
      by_cases ho : order = b.order
      · subst ho
        rw [update_self, freedHeaders, singleton_append, filter_cons_of_pos (by simp)]
        exact ⟨rfl, _, hread, hchain⟩
      · rw [update_of_ne ho, freedHeaders, singleton_append,
          filter_cons_of_neg (by simpa using Ne.symm ho)]
        exact hchain
    · rw [h.totalSize_eq, footprints_perm hperm]
      exact Nat.add_sub_cancel_left ..

theorem guest (hop : w.Allowed (.guest mem)) : Inv base (w.step (.guest mem)) := by
  obtain ⟨hgrow, hle, hsame⟩ := hop
  have hread : ∀ b ∈ w.blocks, readFrom mem b.header = readFrom w.mem b.header := by
    intro b hb
    have hadd := (h.placed b hb).header_add
    refine readFrom_congr (h.placed b hb).header_le hgrow fun a hle hlt => ?_
    exact hsame b hb a hle (by simp only [headerSize] at hadd; omega)
  refine ⟨hle, h.bumper_aligned, h.bumper_eq, fun hne => Nat.le_trans (h.bumper_le hne) hgrow,
    fun b hb => (h.placed b hb).mono (Nat.le_refl _) hgrow, h.disjoint, fun b hb => ?_,
    fun order => (h.chain order).congr fun p hp => ?_, h.totalSize_eq⟩
  · exact (hread b (mem_append_left _ hb)).trans (h.live_header b hb)
  · obtain ⟨c, hc, rfl⟩ := mem_map.mp hp
    exact hread c (mem_append_right _ (mem_filter.mp hc).1)

theorem step {op} (hop : w.Allowed op) : Inv base (w.step op) := by
  cases op with
  | allocate size => exact h.allocate size
  | deallocate ptr => exact h.deallocate hop
  | guest mem => exact h.guest hop

end

end Inv

/-! ## Runs -/

def alignedHeapBase (heapBase : Nat) : Nat := (heapBase + alignment - 1) / alignment * alignment

theorem le_alignedHeapBase (heapBase : Nat) : heapBase ≤ alignedHeapBase heapBase := by
  simp only [alignedHeapBase, alignment]
  omega

theorem inv_new (hnew : new heapBase = .ok a) {mem : Memory} (hmem : mem.size ≤ 2 ^ 31) :
    Inv (alignedHeapBase heapBase) ⟨a, mem, [], []⟩ := by
  rw [new] at hnew
  split at hnew
  · cases hnew
  rename_i sum hsum
  obtain rfl : sum = heapBase + alignment := by
    rw [checkedAdd] at hsum
    split at hsum <;> cases hsum
    rfl
  cases hnew
  refine ⟨hmem, ?_, rfl, fun h => absurd rfl h, ?_, .nil, ?_, fun order => rfl, rfl⟩
  · exact Nat.mul_mod_left ..
  · intro b hb
    cases hb
  · intro b hb
    cases hb

theorem World.Reachable.inv {w : World} (h : w.Reachable heapBase) :
    Inv (alignedHeapBase heapBase) w := by
  induction h with
  | new hnew hmem => exact inv_new hnew hmem
  | step _ hop ih => exact ih.step hop

structure Sound (heapBase : Nat) (w : World) : Prop where
  disjoint : w.live.Pairwise Block.Disjoint
  inside : ∀ b ∈ w.live, headerSize ≤ b.ptr ∧ heapBase ≤ b.header ∧ b.stop ≤ w.mem.size
  aligned : ∀ b ∈ w.live, b.ptr % alignment = 0
  large_enough : ∀ b ∈ w.live, b.size ≤ b.order.size
  totalSize_eq : w.alloc.totalSize = (w.live.map (fun b => b.order.size + 8)).sum
  /-- The chain of a free list ends, repeats no chunk, and visits the freed ones. -/
  chain : ∀ order, ∃ ps, FreeChain w.mem (w.alloc.freeLists order) ps ∧ ps.Nodup
    ∧ ∀ p, p ∈ ps ↔ ∃ b ∈ w.freed, b.order = order ∧ b.header = p
  deallocate_ok : w.alloc.poisoned = false →
    ∀ b ∈ w.live, (w.alloc.deallocate w.mem b.ptr).1 = .ok ()

theorem Inv.sound {w : World} (h : Inv (alignedHeapBase heapBase) w) : Sound heapBase w := by
  have hplaced : ∀ b ∈ w.live, Placed _ w.alloc.bumper w.mem.size b := fun b hb =>
    h.placed b (mem_append_left _ hb)
  refine ⟨h.disjoint.sublist (sublist_append_left ..), fun b hb => ?_,
    fun b hb => (hplaced b hb).aligned, fun b _ => (rawFromSize_spec b.fits).2, h.totalSize_eq,
    fun order => ⟨freedHeaders w.freed order, h.chain order, ?_, fun p => ?_⟩,
    fun hpois b hb => ?_⟩
  · have hbase := le_alignedHeapBase heapBase
    have hadd := (hplaced b hb).header_add
    have hle := (hplaced b hb).base_le
    exact ⟨by omega, by omega, (hplaced b hb).le_size⟩
  · rw [freedHeaders, List.Nodup, pairwise_map]
    have hfreed : w.freed.Pairwise Block.Disjoint :=
      h.disjoint.sublist (sublist_append_right ..)
    refine (hfreed.sublist filter_sublist).imp_of_mem fun {b c} hb hc hd heq => ?_
    have hheaders := hd.headers (h.placed b (mem_append_right _ (mem_filter.mp hb).1))
      (h.placed c (mem_append_right _ (mem_filter.mp hc).1))
    omega
  · simp [freedHeaders, and_assoc]
  · obtain ⟨mem', heq, -⟩ := h.deallocate_live hpois hb
    rw [heq]

/-- **Allocator soundness.** In every reachable state the live blocks are disjoint,
aligned, large enough and inside the heap, the total size and the free lists
account for exactly the live and the freed chunks, and a live pointer can be
deallocated. -/
theorem reachable_sound {heapBase : Nat} {w : World} (h : w.Reachable heapBase) :
    Sound heapBase w :=
  h.inv.sound

/-- Two blocks are allocated, the first is freed and its chunk allocated again; the heap starts at
an odd address. -/
def exampleWorld (a : FreeingBumpHeapAllocator) : World :=
  let w : World := ⟨a, .zeroed 128 (by decide), [], []⟩
  (((w.step (.allocate 10)).step (.allocate 3)).step (.deallocate 16)).step (.allocate 16)

theorem exampleWorld_sound : ∃ a, new 5 = .ok a
    ∧ (exampleWorld a).live.map Block.ptr = [16, 40] ∧ Sound 5 (exampleWorld a) := by
  refine ⟨_, rfl, by decide, reachable_sound ?_⟩
  unfold exampleWorld
  refine .step (.step (.step (.step (.new rfl ?_) ?_) ?_) ?_) ?_
  · decide
  · trivial
  · trivial
  · exact ⟨⟨16, 10, by decide⟩, .tail _ (.head _), rfl⟩
  · trivial

end Substrate.FreeingBumpHeapAllocator
