import AnssOS.Foundation.Transition
import AnssOS.Mm.Blocks

/-!
# The kernel heap over whole runs

Allocations and deallocations of the kernel, in any order, with the rest of the kernel taking and
freeing pages in between.  What the page allocator has handed out to the heap stays with it, and the
blocks tile it.

### Outline

* `KernelHeap`, `kernelHeapSystem`: the heap with the pages it got and its live allocations;
* `KernelHeap.Sound`: the invariant, and `kernel_heap_layout`: what it means.
-/

namespace AnssOS

/-- The bytes of pages. -/
def bytesOf (pages : Set ℕ) : Set ℕ := {x | x / pageSize * pageSize ∈ pages}

theorem bytesOf_union (s t : Set ℕ) : bytesOf (s ∪ t) = bytesOf s ∪ bytesOf t := rfl

theorem bytesOf_pageRun (start n : ℕ) : bytesOf (Pmm.pageRun (start * pageSize) n) =
    Set.Ico (start * pageSize) (start * pageSize + n * pageSize) := by
  ext x
  change (∃ k < n, x / pageSize * pageSize = start * pageSize + k * pageSize) ↔ _
  have hx := Nat.div_add_mod' x pageSize
  have hlt := Nat.mod_lt x (show 0 < pageSize by decide)
  rw [Set.mem_Ico]
  constructor
  · rintro ⟨k, hk, heq⟩
    have := Nat.mul_le_mul_right pageSize (Nat.succ_le_of_lt hk)
    rw [Nat.succ_mul] at this
    omega
  · rintro ⟨hle, hend⟩
    have hpage : start ≤ x / pageSize := (Nat.le_div_iff_mul_le (by decide)).mpr hle
    have hpage' : x / pageSize < start + n := by
      rw [Nat.div_lt_iff_lt_mul (by decide), Nat.add_mul]
      exact hend
    refine ⟨x / pageSize - start, by omega, ?_⟩
    rw [← Nat.add_mul, Nat.add_sub_cancel' hpage]

theorem bytesOf_disjoint {s t : Set ℕ} (h : Disjoint s t) : Disjoint (bytesOf s) (bytesOf t) :=
  Set.disjoint_left.mpr fun _ hs ht => Set.disjoint_left.mp h hs ht

namespace Heap

/-- The pages that the allocator counts as used after a call, but did not before. -/
def newPages (p p' : Pmm) : Set ℕ := {x | p'.Used x ∧ ¬ p.Used x}

theorem newPages_self (p : Pmm) : newPages p p = ∅ := by
  ext x
  simp [newPages]

theorem newPages_takes {p p' : Pmm} {new : Set ℕ} (h : p.Takes p' new) : newPages p p' = new := by
  ext x
  rw [newPages, Set.mem_ofPred_eq, h.used_iff]
  have := h.fresh x
  tauto

/-- The address of the block that `malloc` takes. -/
def blockFor (h : Heap) (p : Pmm) (size align : ℕ) : ℕ :=
  (h.malloc p (request size align)).1.getD 0 - heapHeader

variable {h : Heap} {p : Pmm} {pages : Set ℕ} {live : List Allocation}

/-- `grow`: there is no room, or the new block covers the new pages. -/
theorem grow_cases (hsound : p.Sound) (size : ℕ) : grow p size = (none, p) ∨ ∃ b p',
    grow p size = (some b, p') ∧ p'.Sound ∧ (∀ x, p.Used x → p'.Used x) ∧ b.free = true ∧
      pageSize ∣ b.addr ∧ pageSize ∣ heapHeader + b.size ∧ size ≤ b.size ∧
      bytesOf (newPages p p') = Set.Ico b.span.1 b.span.2 := by
  unfold grow
  dsimp only
  have hpages : heapHeader + size ≤ divCeil (heapHeader + size) pageSize * pageSize := by
    unfold divCeil heapHeader pageSize
    omega
  generalize divCeil (heapHeader + size) pageSize = n at hpages
  have hzero := Pmm.allocPages_zero (n := n) hsound
  have htakes := Pmm.allocPages_takes (n := n) hsound
  have hdvd : pageSize ∣ (p.allocPages n).1 := by
    rcases Pmm.allocPages_cases hsound.zero n with ⟨-, heq⟩ | ⟨start, -, -, -, -, heq⟩
    · simp [heq]
    · simp [heq]
  rcases halloc : p.allocPages n with ⟨phys, p'⟩
  rw [halloc] at hzero htakes hdvd
  dsimp only at hzero htakes hdvd ⊢
  by_cases hphys : phys = 0
  · rw [if_pos hphys, hzero hphys]
    exact Or.inl rfl
  · rw [if_neg hphys]
    obtain ⟨start, rfl⟩ := hdvd
    rw [Nat.mul_comm pageSize] at htakes hphys ⊢
    have htakes := htakes hphys
    have hsize : heapHeader + (n * pageSize - heapHeader) = n * pageSize := by omega
    refine Or.inr ⟨_, p', rfl, htakes.sound, fun x hx => (htakes.used_iff x).mpr (Or.inl hx), rfl,
      Dvd.intro_left _ rfl, ?_, ?_, ?_⟩
    · rw [hsize]
      exact Dvd.intro_left _ rfl
    · dsimp only
      omega
    · rw [newPages_takes htakes, bytesOf_pageRun]
      simp only [Block.span, Nat.add_assoc, hsize]

/-- `malloc`: there is no room, or a free block is taken, one of those there were or a new one. -/
theorem malloc_cases (hok : HeapOk h (bytesOf pages) live) (hsound : p.Sound)
    (hpages : ∀ x ∈ pages, p.Used x) (size : ℕ) : h.malloc p size = (none, h, p) ∨
      ∃ before b after p', HeapOk { h with blocks := before ++ b :: after }
          (bytesOf (pages ∪ newPages p p')) live ∧ p'.Sound ∧ (∀ x, p.Used x → p'.Used x) ∧
        b.free = true ∧ alignUp (max size 1) heapAlign ≤ b.size ∧
        h.malloc p size = (some (b.addr + heapHeader), { h with
          blocks := before ++ (split b (alignUp (max size 1) heapAlign) ++ after) }, p') := by
  unfold malloc
  dsimp only
  generalize alignUp (max size 1) heapAlign = size
  rcases htake : takeFirst size h.blocks with - | ⟨ptr, blocks⟩
  · dsimp only
    rcases grow_cases hsound size with heq | ⟨b, p', heq, hsound', hused, hfree, haddr, hdvd, hsize,
      hbytes⟩
    · rw [heq]
      exact Or.inl rfl
    · rw [heq]
      refine Or.inr ⟨h.blocks, b, [], p', ?_, hsound', hused, hfree, hsize, by simp⟩
      have halign : heapAlign ∣ pageSize := by decide
      have hnew : Disjoint pages (newPages p p') :=
        Set.disjoint_left.mpr fun x hx hx' => hx'.2 (hpages x hx)
      rw [bytesOf_union, hbytes]
      exact hok.append hfree (halign.trans haddr)
        ((Nat.dvd_add_right (by decide)).mp (halign.trans hdvd))
        (hbytes ▸ bytesOf_disjoint hnew)
  · obtain ⟨before, b, after, hblocks, hfree, hsize, rfl, rfl⟩ := takeFirst_spec htake
    refine Or.inr ⟨before, b, after, p, ?_, hsound, fun _ hx => hx, hfree, hsize, rfl⟩
    rw [newPages_self, Set.union_empty, ← hblocks]
    exact hok

end Heap

/-- The kernel heap, the page allocator, the pages that the heap ever got from it, and the
allocations that are live. -/
structure KernelHeap where
  heap : Heap
  pmm : Pmm
  pages : Set ℕ
  live : List Allocation

namespace KernelHeap

/-- `alloc` with a layout of `size` bytes and alignment `2 ^ k`, `dealloc` of a live allocation with
its own layout, or something else that changes the page allocator. -/
inductive Event
  | alloc (size k : ℕ)
  | dealloc (a : Allocation)
  | other (pmm : Pmm)

def step (s : KernelHeap) : Event → Option KernelHeap
  | .alloc size k =>
      match s.heap.alloc s.pmm size (2 ^ k) with
      | (ptr, heap, pmm) => some {
          heap := heap
          pmm := pmm
          pages := s.pages ∪ Heap.newPages s.pmm pmm
          live := (ptr.map fun ptr =>
            ⟨ptr, size, 2 ^ k, s.heap.blockFor s.pmm size (2 ^ k)⟩).toList ++ s.live }
  | .dealloc a =>
      if a ∈ s.live then
        some { s with heap := s.heap.dealloc a.ptr a.align, live := s.live.erase a }
      else none
  | .other pmm => some { s with pmm := pmm }

/-- Nobody else frees the pages of the heap. -/
def KeepsPages (s : KernelHeap) : Event → Prop
  | .other pmm => pmm.Sound ∧ ∀ x ∈ s.pages, pmm.Used x
  | _ => True

end KernelHeap

/-- The runs of the kernel heap from boot on. -/
def kernelHeapSystem : TransitionSystem KernelHeap KernelHeap.Event where
  init s := ∃ hhdm, pageSize ∣ hhdm ∧ s.heap = Heap.empty hhdm ∧ s.pmm.Sound ∧ s.pages = ∅ ∧
    s.live = []
  step := KernelHeap.step

namespace KernelHeap

/-- The invariant of the kernel heap. -/
structure Sound (s : KernelHeap) : Prop where
  ok : HeapOk s.heap (bytesOf s.pages) s.live
  pmm : s.pmm.Sound
  used : ∀ x ∈ s.pages, s.pmm.Used x
  hhdm : pageSize ∣ s.heap.hhdm

variable {s s' : KernelHeap}

theorem Sound.alloc (h : s.Sound) (size k : ℕ) (hstep : s.step (.alloc size k) = some s') :
    s'.Sound := by
  have hdvd : heapAlign ∣ s.heap.hhdm := Dvd.dvd.trans (by decide) h.hhdm
  rw [step] at hstep
  rcases Heap.malloc_cases h.ok h.pmm h.used (Heap.request size (2 ^ k)) with
    hmalloc | ⟨before, b, after, p', hok, hsound, hkept, hfree, hsize, hmalloc⟩
  · have halloc : s.heap.alloc s.pmm size (2 ^ k) = (none, s.heap, s.pmm) := by
      unfold Heap.alloc
      unfold Heap.request at hmalloc
      split <;> simp_all
    rw [halloc] at hstep
    obtain rfl := Option.some.inj hstep
    refine ⟨?_, h.pmm, ?_, h.hhdm⟩
    · simpa [Heap.newPages_self] using h.ok
    · simpa [Heap.newPages_self] using h.used
  · have hblock : s.heap.blockFor s.pmm size (2 ^ k) = b.addr := by
      simp [Heap.blockFor, hmalloc]
    have hpages : ∀ x ∈ s.pages ∪ Heap.newPages s.pmm p', p'.Used x := by
      rintro x (hx | hx)
      · exact hkept x (h.used x hx)
      · exact hx.1
    by_cases hk : 2 ^ k ≤ heapAlign
    · rw [Heap.request, if_pos hk] at hmalloc hsize
      have halloc : s.heap.alloc s.pmm size (2 ^ k) = s.heap.malloc s.pmm size := if_pos hk
      rw [halloc, hmalloc, hblock] at hstep
      obtain rfl := Option.some.inj hstep
      exact ⟨hok.takePlain rfl hfree hsize hdvd hk, hsound, hpages, h.hhdm⟩
    · rw [Heap.request, if_neg hk] at hmalloc hsize
      rw [Heap.alloc, if_neg hk, hmalloc, hblock] at hstep
      obtain rfl := Option.some.inj hstep
      exact ⟨hok.takeAligned rfl hfree hsize hdvd (not_le.mp hk), hsound, hpages, h.hhdm⟩

theorem Sound.step (h : s.Sound) {e : Event} (hkeeps : s.KeepsPages e)
    (hstep : s.step e = some s') : s'.Sound := by
  cases e with
  | alloc size k => exact h.alloc size k hstep
  | dealloc a =>
    rw [KernelHeap.step] at hstep
    split at hstep
    · rename_i ha
      obtain rfl := Option.some.inj hstep
      exact ⟨h.ok.release ha, h.pmm, h.used, h.hhdm⟩
    · cases hstep
  | other pmm =>
    obtain rfl := Option.some.inj hstep
    exact ⟨h.ok, hkeeps.1, hkeeps.2, h.hhdm⟩

theorem Sound.of_reachable (h : kernelHeapSystem.Reachable KeepsPages s) : s.Sound := by
  refine h.invariant (P := Sound) ?_ fun s e s' _ hs hg hstep => hs.step hg hstep
  rintro s ⟨hhdm, hdvd, hheap, hpmm, hpages, hlive⟩
  refine ⟨?_, hpmm, by simp [hpages], ?_⟩
  · rw [hheap, hpages, hlive]
    exact HeapOk.empty hhdm
  · rw [hheap]
    exact hdvd

end KernelHeap

/-- In every run, the live allocations are aligned, inside one block each and apart from each other
and from all headers; the blocks tile the pages that the heap got; and `dealloc` frees the block that
`alloc` took. -/
theorem kernel_heap_layout {s : KernelHeap}
    (h : kernelHeapSystem.Reachable KernelHeap.KeepsPages s) :
    HeapLayout s.heap s.live ∧ Tiles (s.heap.blocks.map Block.span) (bytesOf s.pages) ∧
      (∀ b ∈ s.heap.blocks, b.free = false → ∃ a ∈ s.live, a.block = b.addr) ∧
      ∀ a ∈ s.live, s.heap.dealloc a.ptr a.align =
        { s.heap with blocks := Heap.freeBlock a.block s.heap.blocks } := by
  have hsound := KernelHeap.Sound.of_reachable h
  refine ⟨hsound.ok.layout, hsound.ok.tiles, hsound.ok.used, fun a ha => ?_⟩
  rw [Heap.dealloc_eq, hsound.ok.recovers a ha, Nat.add_sub_cancel]

/-- In a memory of sixteen pages: an over-aligned allocation, another one, and the first one given
back. -/
theorem kernel_heap_layout_of_allocations : ∃ s : KernelHeap,
    kernelHeapSystem.Reachable KernelHeap.KeepsPages s ∧ s.live.map Allocation.ptr = [8368] ∧
      s.heap.blocks.map Block.span = [(4096, 8336), (8336, 8400), (8400, 12288)] ∧
      HeapLayout s.heap s.live ∧
      Tiles (s.heap.blocks.map Block.span) (bytesOf s.pages) := by
  obtain ⟨s, hs, hlive, hblocks⟩ := TransitionSystem.Reachable.exists_of_run
    (T := kernelHeapSystem) KernelHeap.KeepsPages
    (P := fun s => s.live.map Allocation.ptr = [8368] ∧
      s.heap.blocks.map Block.span = [(4096, 8336), (8336, 8400), (8400, 12288)])
    (s := ⟨Heap.empty 0xFFFF800000000000, ⟨fun page => page = 0, 16, 15, 0⟩, ∅, []⟩)
    ⟨0xFFFF800000000000, by decide, rfl, ⟨rfl, by decide, by decide⟩, rfl, rfl⟩
    [.alloc 100 12, .alloc 24 3, .dealloc ⟨8192, 100, 4096, 4096⟩]
    (by simp [KernelHeap.KeepsPages]) (by decide +kernel)
  obtain ⟨hlayout, htiles, -⟩ := kernel_heap_layout hs
  exact ⟨s, hs, hlive, hblocks, hlayout, htiles⟩

end AnssOS
