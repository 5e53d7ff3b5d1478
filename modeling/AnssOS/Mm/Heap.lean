import AnssOS.Mm.Pmm

/-!
# The kernel heap

The model of `kernel/src/mm/heap.rs`, the first-fit allocator behind the kernel's `Box`, `Vec` and
`String`.  Its linked list of blocks is a list here; the pointer to the real start of an over-aligned
block, which the source keeps in the eight bytes below the aligned pointer, is kept in a table by the
address of those bytes.  Kernel pointers into the direct map of physical memory are represented by
the physical addresses they lead to; where the source aligns a pointer, the offset of the direct map
counts.
-/

namespace AnssOS

/-- `HEAP_ALIGN`. -/
def heapAlign : ℕ := 16

/-- `HEADER`: the size of a block's header. -/
def heapHeader : ℕ := 32

/-- `align_up`, for a power of two. -/
def alignUp (n align : ℕ) : ℕ := (n + align - 1) / align * align

/-- `Block`: its header is at `addr`, its payload of `size` bytes right after it. -/
structure Block where
  addr : ℕ
  size : ℕ
  free : Bool
deriving DecidableEq

/-- `Heap`: its blocks, in the order of the list, and the pointers kept for over-aligned blocks.
`hhdm` is where the direct map of physical memory begins. -/
structure Heap where
  blocks : List Block
  stash : ℕ → ℕ
  hhdm : ℕ

namespace Heap

/-- The heap at boot. -/
def empty (hhdm : ℕ) : Heap := ⟨[], fun _ => 0, hhdm⟩

/-- `split` and the end of `malloc`: `size` bytes of a free block are taken, and the rest of it
becomes a block of its own unless it is too small. -/
def split (b : Block) (size : ℕ) : List Block :=
  if b.size < size + heapHeader + heapAlign then [{ b with free := false }]
  else [{ b with size := size, free := false },
    ⟨b.addr + heapHeader + size, b.size - size - heapHeader, true⟩]

/-- The search of `malloc` for the first block that fits. -/
def takeFirst (size : ℕ) : List Block → Option (ℕ × List Block)
  | [] => none
  | b :: bs =>
      if b.free ∧ size ≤ b.size then some (b.addr + heapHeader, split b size ++ bs)
      else (takeFirst size bs).map fun (ptr, bs) => (ptr, b :: bs)

/-- `grow`: a new free block of whole pages at the end of the list. -/
def grow (p : Pmm) (minSize : ℕ) : Option Block × Pmm :=
  let pages := divCeil (heapHeader + minSize) pageSize
  match p.allocPages pages with
  | (phys, p) =>
      if phys = 0 then (none, p) else (some ⟨phys, pages * pageSize - heapHeader, true⟩, p)

/-- `malloc`: a pointer to `size` bytes, or `none`. -/
def malloc (h : Heap) (p : Pmm) (size : ℕ) : Option ℕ × Heap × Pmm :=
  let size := alignUp (max size 1) heapAlign
  match takeFirst size h.blocks with
  | some (ptr, blocks) => (some ptr, { h with blocks := blocks }, p)
  | none =>
      match grow p size with
      | (none, p) => (none, h, p)
      | (some b, p) =>
          (some (b.addr + heapHeader), { h with blocks := h.blocks ++ split b size }, p)

/-- `free`: the block at `addr` becomes free, together with the next one if that is free and right
after it. -/
def freeBlock (addr : ℕ) : List Block → List Block
  | [] => []
  | b :: bs =>
      if b.addr = addr then
        match bs with
        | n :: rest =>
            if n.free ∧ n.addr = b.addr + heapHeader + b.size then
              { b with free := true, size := b.size + (heapHeader + n.size) } :: rest
            else { b with free := true } :: n :: rest
        | [] => [{ b with free := true }]
      else b :: freeBlock addr bs

/-- `GlobalAlloc::alloc`. -/
def alloc (h : Heap) (p : Pmm) (size align : ℕ) : Option ℕ × Heap × Pmm :=
  if align ≤ heapAlign then h.malloc p size
  else
    match h.malloc p (size + align) with
    | (none, h, p) => (none, h, p)
    | (some raw, h, p) =>
        let aligned := alignUp (h.hhdm + raw + 8) align - h.hhdm
        (some aligned, { h with stash := Function.update h.stash (aligned - 8) raw }, p)

/-- `GlobalAlloc::dealloc`. -/
def dealloc (h : Heap) (ptr align : ℕ) : Heap :=
  let raw := if align ≤ heapAlign then ptr else h.stash (ptr - 8)
  { h with blocks := freeBlock (raw - heapHeader) h.blocks }

/-- An allocation leaves the page allocator alone or takes one run of pages from it. -/
theorem alloc_pmm (h : Heap) (p : Pmm) (size align : ℕ) :
    (h.alloc p size align).2.2 = p ∨ ∃ n, (h.alloc p size align).2.2 = (p.allocPages n).2 := by
  have hmalloc : ∀ size, (h.malloc p size).2.2 = p ∨
      ∃ n, (h.malloc p size).2.2 = (p.allocPages n).2 := by
    intro size
    simp only [malloc, grow]
    split
    · exact Or.inl rfl
    · refine Or.inr ⟨divCeil (heapHeader + alignUp (max size 1) heapAlign) pageSize, ?_⟩
      by_cases h0 : (p.allocPages
          (divCeil (heapHeader + alignUp (max size 1) heapAlign) pageSize)).1 = 0 <;> simp [h0]
  unfold alloc
  split
  · exact hmalloc size
  · have := hmalloc (size + align)
    split <;> simp_all

end Heap

end AnssOS
