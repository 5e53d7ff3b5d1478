import AnssOS.Exec.Break
import AnssOS.Mm.Blocks

/-!
# The heap of a program

The model of `userland/rust/anssos/src/heap.rs`, the allocator of the userland programs: the design
of the kernel heap, but growing with `brk`.  The allocator keeps its own idea of the break, which it
compares with what the kernel answers.

Sizes are natural numbers: with a valid layout none of the sums below reaches `2 ^ 64`.

### Outline

* `BrkHeap` with `grow`, `malloc`, `alloc`, `dealloc`: the allocator together with the break of its
  process;
* `BrkRun`, `brkSystem`: its runs, with the live allocations;
* `user_heap_layout`: the blocks tile the heap up to the allocator's break, in mapped pages;
* `failed_growth_invisible`: what failed growth leaves behind.
-/

namespace AnssOS

open Kernel (heapMaxBytes)

/-- `GROW_CHUNK`. -/
def growChunk : ℕ := 4096

/-- `State` of the allocator, with the heap of its process as the kernel has it.  The pointers are
those of the program, so that `heap.hhdm` is 0. -/
structure BrkHeap where
  heap : Heap
  brk : ℕ
  space : Break

namespace BrkHeap

/-- The beginning of `grow`: the first call asks the kernel where the heap starts. -/
def begin (s : BrkHeap) : BrkHeap :=
  if s.brk = 0 then
    match s.space.sysBrk 0 0 with
    | (r, space) => { s with brk := alignUp (r.getD (2 ^ 64 - 1)) heapAlign, space := space }
  else s

/-- The new end of the heap that `grow` asks for. -/
def newEnd (s : BrkHeap) (minSize : ℕ) : ℕ :=
  s.begin.brk + alignUp (heapHeader + minSize) growChunk

/-- `grow`, if `alloc_page` delivers `avail` pages during the call of `brk`. -/
def grow (s : BrkHeap) (avail minSize : ℕ) : Option Block × BrkHeap :=
  match s.begin.space.sysBrk avail (s.newEnd minSize) with
  | (r, space) =>
      if r = some (s.newEnd minSize) then
        (some ⟨s.begin.brk, alignUp (heapHeader + minSize) growChunk - heapHeader, true⟩,
          { s.begin with brk := s.newEnd minSize, space := space })
      else (none, { s.begin with space := space })

/-- `malloc`. -/
def malloc (s : BrkHeap) (avail size : ℕ) : Option ℕ × BrkHeap :=
  let size := alignUp (max size 1) heapAlign
  match Heap.takeFirst size s.heap.blocks with
  | some (ptr, blocks) => (some ptr, { s with heap := { s.heap with blocks := blocks } })
  | none =>
      match s.grow avail size with
      | (none, s) => (none, s)
      | (some b, s) =>
          (some (b.addr + heapHeader),
            { s with heap := { s.heap with blocks := s.heap.blocks ++ Heap.split b size } })

/-- `GlobalAlloc::alloc`. -/
def alloc (s : BrkHeap) (avail size align : ℕ) : Option ℕ × BrkHeap :=
  if align ≤ heapAlign then s.malloc avail size
  else
    match s.malloc avail (size + align) with
    | (none, s) => (none, s)
    | (some raw, s) =>
        let aligned := alignUp (raw + 8) align
        (some aligned, { s with
          heap := { s.heap with stash := Function.update s.heap.stash (aligned - 8) raw } })

/-- `GlobalAlloc::dealloc`. -/
def dealloc (s : BrkHeap) (ptr align : ℕ) : BrkHeap :=
  { s with heap := s.heap.dealloc ptr align }

/-! ### Growing -/

theorem begin_eq (s : BrkHeap) :
    s.begin = { s with brk := if s.brk = 0 then alignUp s.space.heapEnd heapAlign else s.brk } := by
  unfold begin
  by_cases h : s.brk = 0
  · simp [h, Break.sysBrk]
  · simp [h]

@[simp] theorem begin_heap (s : BrkHeap) : s.begin.heap = s.heap := by
  rw [begin_eq]

@[simp] theorem begin_space (s : BrkHeap) : s.begin.space = s.space := by
  rw [begin_eq]

/-- `grow` fails, or the new block is what lies between the old break and the new one. -/
theorem grow_cases (s : BrkHeap) (avail minSize : ℕ) : ∃ n,
    s.grow avail minSize = (none, { s.begin with space := s.space.grown n }) ∨
      s.newEnd minSize = s.space.heapEnd + n * pageSize ∧ s.grow avail minSize =
        (some ⟨s.begin.brk, alignUp (heapHeader + minSize) growChunk - heapHeader, true⟩,
          { s.begin with brk := s.newEnd minSize, space := s.space.grown n }) := by
  obtain ⟨n, hspace, hend⟩ := s.space.sysBrk_grown avail (s.newEnd minSize)
  refine ⟨n, ?_⟩
  unfold grow
  rw [begin_space]
  rcases hcall : s.space.sysBrk avail (s.newEnd minSize) with ⟨r, space⟩
  rw [hcall] at hspace hend
  dsimp only at hspace hend ⊢
  subst hspace
  by_cases hr : r = some (s.newEnd minSize)
  · rw [if_pos hr]
    exact Or.inr ⟨hend _ hr, rfl⟩
  · rw [if_neg hr]
    exact Or.inl rfl

end BrkHeap

/-! ### Runs -/

/-- The allocator of a program, with the allocations that are live. -/
structure BrkRun extends BrkHeap where
  live : List Allocation

namespace BrkRun

/-- A program allocates with a layout of `size` bytes and alignment `2 ^ k`, gives back a live
allocation with its own layout, or calls `brk` itself; `avail` is the number of pages that
`alloc_page` delivers. -/
inductive Event
  | alloc (size k avail : ℕ)
  | dealloc (a : Allocation)
  | brk (newEnd avail : ℕ)

/-- The address of the block that `malloc` takes. -/
def blockFor (s : BrkHeap) (avail size align : ℕ) : ℕ :=
  (s.malloc avail (Heap.request size align)).1.getD 0 - heapHeader

def step (s : BrkRun) : Event → Option BrkRun
  | .alloc size k avail =>
      match s.toBrkHeap.alloc avail size (2 ^ k) with
      | (ptr, s') => some {
          toBrkHeap := s'
          live := (ptr.map fun ptr =>
            ⟨ptr, size, 2 ^ k, blockFor s.toBrkHeap avail size (2 ^ k)⟩).toList ++ s.live }
  | .dealloc a =>
      if a ∈ s.live then
        some { s with
          toBrkHeap := s.toBrkHeap.dealloc a.ptr a.align
          live := s.live.erase a }
      else none
  | .brk newEnd avail => some { s with space := (s.space.sysBrk avail newEnd).2 }

/-- The program leaves `brk` to its allocator. -/
def Allocates (_ : BrkRun) : Event → Prop
  | .brk _ _ => False
  | _ => True

end BrkRun

/-- The runs of the allocator, from the start of the program on: `elf::load` has set up an empty
heap at the beginning of a page. -/
def brkSystem : TransitionSystem BrkRun BrkRun.Event where
  init s := ∃ start, 0 < start ∧ pageSize ∣ start ∧
    s = ⟨⟨Heap.empty 0, 0, ⟨start, start, []⟩⟩, []⟩
  step := BrkRun.step

namespace BrkHeap

/-- The two breaks: the kernel has mapped the heap page by page, and the allocator has not asked for
the break yet, or its own is not behind the kernel's. -/
structure Framed (s : BrkHeap) : Prop where
  positive : 0 < s.space.heapStart
  aligned : pageSize ∣ s.space.heapStart
  pages : ∃ n, s.space = Break.grown ⟨s.space.heapStart, s.space.heapStart, []⟩ n
  brk : s.brk = 0 ∧ s.space.heapEnd = s.space.heapStart ∨
    s.space.heapStart ≤ s.brk ∧ s.brk ≤ s.space.heapEnd ∧ heapAlign ∣ s.brk

variable {s : BrkHeap}

/-- Asking for the break does not add to the heap. -/
theorem Framed.begin_spec (h : s.Framed) : s.space.heapStart ≤ s.begin.brk ∧
    s.begin.brk ≤ s.space.heapEnd ∧ heapAlign ∣ s.begin.brk ∧
    Set.Ico s.space.heapStart s.begin.brk = Set.Ico s.space.heapStart s.brk := by
  have hpos := h.positive
  rw [begin_eq]
  dsimp only
  rcases h.brk with ⟨hzero, hend⟩ | ⟨hstart, hle, hdvd⟩
  · obtain ⟨k, hk⟩ := Dvd.dvd.trans (by decide : heapAlign ∣ pageSize) h.aligned
    have hstart : alignUp s.space.heapStart heapAlign = s.space.heapStart := by
      rw [hk]
      unfold alignUp heapAlign
      omega
    rw [if_pos hzero, hend, hstart, hzero, Set.Ico_self, Set.Ico_eq_empty (by omega)]
    exact ⟨le_rfl, le_rfl, ⟨k, hk⟩, rfl⟩
  · rw [if_neg (by omega)]
    exact ⟨hstart, hle, hdvd, rfl⟩

theorem Framed.grown (h : s.Framed) {b n : ℕ} (hstart : s.space.heapStart ≤ b)
    (hend : b ≤ s.space.heapEnd + n * pageSize) (hdvd : heapAlign ∣ b) :
    Framed { s.begin with brk := b, space := s.space.grown n } := by
  refine ⟨h.positive, h.aligned, ?_, Or.inr ⟨hstart, hend, hdvd⟩⟩
  obtain ⟨m, hm⟩ := h.pages
  refine ⟨m + n, ?_⟩
  rw [Break.grown_add]
  dsimp only [Break.grown_heapStart]
  rw [← hm]

/-- `malloc`: there is no room, or a free block is taken, one of those there were or a new one. -/
theorem malloc_cases {live : List Allocation} (h : s.Framed)
    (hok : HeapOk s.heap (Set.Ico s.space.heapStart s.brk) live) (avail size : ℕ) :
    ∃ s' : BrkHeap, s'.Framed ∧ s'.heap = s.heap ∧ s'.space.heapStart = s.space.heapStart ∧
      (HeapOk s.heap (Set.Ico s'.space.heapStart s'.brk) live ∧ s.malloc avail size = (none, s') ∨
        ∃ before b after, HeapOk { s.heap with blocks := before ++ b :: after }
            (Set.Ico s'.space.heapStart s'.brk) live ∧ b.free = true ∧
          alignUp (max size 1) heapAlign ≤ b.size ∧
          s.malloc avail size = (some (b.addr + heapHeader), { s' with heap := { s.heap with
            blocks := before ++ (Heap.split b (alignUp (max size 1) heapAlign) ++ after) } })) := by
  unfold malloc
  dsimp only
  have hdvdsize := dvd_alignUp (max size 1) heapAlign
  generalize alignUp (max size 1) heapAlign = size at hdvdsize ⊢
  rcases htake : Heap.takeFirst size s.heap.blocks with - | ⟨ptr, blocks⟩
  · dsimp only
    obtain ⟨hstart, hle, hdvd, hIco⟩ := h.begin_spec
    have hchunk : heapAlign ∣ growChunk := by decide
    have hgrow := hchunk.trans (dvd_alignUp (heapHeader + size) growChunk)
    have hsize := le_alignUp (show 0 < growChunk by decide) (heapHeader + size)
    obtain ⟨n, heq | ⟨hend, heq⟩⟩ := s.grow_cases avail size
    · refine ⟨_, h.grown (b := s.begin.brk) (n := n) hstart (by omega) hdvd, begin_heap s, rfl,
        Or.inl ⟨?_, by rw [heq]⟩⟩
      exact hok.congr hIco.symm
    · refine ⟨_, h.grown (b := s.newEnd size) (n := n) ?_ hend.le ?_, begin_heap s, rfl,
        Or.inr ⟨s.heap.blocks, ⟨s.begin.brk,
          alignUp (heapHeader + size) growChunk - heapHeader, true⟩, [], ?_, rfl, ?_, ?_⟩⟩
      · unfold newEnd
        omega
      · exact dvd_add hdvd hgrow
      · have hspan : s.begin.brk + heapHeader + (alignUp (heapHeader + size) growChunk - heapHeader) =
            s.newEnd size := by
          unfold newEnd
          omega
        have happend := hok.append (b := ⟨s.begin.brk,
          alignUp (heapHeader + size) growChunk - heapHeader, true⟩) rfl hdvd
          (Nat.dvd_sub hgrow (by decide)) (by
            rw [← hIco, Set.disjoint_left]
            rintro x ⟨-, hx⟩ ⟨hx', -⟩
            exact absurd hx' (not_le.mpr hx))
        refine happend.congr ?_
        rw [← hIco]
        simp only [Block.span, hspan]
        exact Set.Ico_union_Ico_eq_Ico hstart (by unfold newEnd; omega)
      · dsimp only
        omega
      · rw [heq]
        simp
  · obtain ⟨before, b, after, hblocks, hfree, hsize, rfl, rfl⟩ := Heap.takeFirst_spec htake
    refine ⟨s, h, rfl, rfl, Or.inr ⟨before, b, after, ?_, hfree, hsize, rfl⟩⟩
    rw [← hblocks]
    exact hok

end BrkHeap

namespace BrkRun

/-- The invariant of the heap of a program. -/
structure Sound (s : BrkRun) : Prop where
  framed : s.Framed
  ok : HeapOk s.heap (Set.Ico s.space.heapStart s.brk) s.live
  hhdm : s.heap.hhdm = 0

variable {s s' : BrkRun}

theorem Sound.alloc (h : s.Sound) (size k avail : ℕ)
    (hstep : s.step (.alloc size k avail) = some s') : s'.Sound := by
  have hdvd : heapAlign ∣ s.heap.hhdm := h.hhdm ▸ dvd_zero _
  rw [step] at hstep
  obtain ⟨t, hframed, hheap, -, ⟨hok, hmalloc⟩ | ⟨before, b, after, hok, hfree, hsize, hmalloc⟩⟩ :=
    BrkHeap.malloc_cases h.framed h.ok avail (Heap.request size (2 ^ k))
  · have halloc : s.toBrkHeap.alloc avail size (2 ^ k) = (none, t) := by
      unfold BrkHeap.alloc
      unfold Heap.request at hmalloc
      split <;> simp_all
    rw [halloc] at hstep
    obtain rfl := Option.some.inj hstep
    exact ⟨hframed, hheap ▸ hok, (congrArg Heap.hhdm hheap).trans h.hhdm⟩
  · have hblock : blockFor s.toBrkHeap avail size (2 ^ k) = b.addr := by
      simp [blockFor, hmalloc]
    have hframed' : ∀ heap, BrkHeap.Framed { t with heap := heap } := fun _ =>
      ⟨hframed.positive, hframed.aligned, hframed.pages, hframed.brk⟩
    by_cases hk : 2 ^ k ≤ heapAlign
    · rw [Heap.request, if_pos hk] at hmalloc hsize
      have halloc : s.toBrkHeap.alloc avail size (2 ^ k) = s.malloc avail size := if_pos hk
      rw [halloc, hmalloc, hblock] at hstep
      obtain rfl := Option.some.inj hstep
      exact ⟨hframed' _, hok.takePlain rfl hfree hsize hdvd hk, h.hhdm⟩
    · rw [Heap.request, if_neg hk] at hmalloc hsize
      rw [BrkHeap.alloc, if_neg hk, hmalloc, hblock] at hstep
      obtain rfl := Option.some.inj hstep
      have hptr : alignUp (s.heap.hhdm + (b.addr + heapHeader) + 8) (2 ^ k) - s.heap.hhdm =
          alignUp (b.addr + heapHeader + 8) (2 ^ k) := by
        rw [h.hhdm, Nat.zero_add, Nat.sub_zero]
      have htake := hok.takeAligned rfl hfree hsize hdvd (not_le.mp hk)
      rw [hptr] at htake
      exact ⟨hframed' _, htake, h.hhdm⟩

theorem Sound.step (h : s.Sound) {e : Event} (hallocates : s.Allocates e)
    (hstep : s.step e = some s') : s'.Sound := by
  cases e with
  | alloc size k avail => exact h.alloc size k avail hstep
  | dealloc a =>
    rw [BrkRun.step] at hstep
    split at hstep
    · rename_i ha
      obtain rfl := Option.some.inj hstep
      exact ⟨⟨h.framed.positive, h.framed.aligned, h.framed.pages, h.framed.brk⟩, h.ok.release ha,
        h.hhdm⟩
    · cases hstep
  | brk newEnd avail => exact hallocates.elim

theorem Sound.of_reachable (h : brkSystem.Reachable Allocates s) : s.Sound := by
  refine h.invariant (P := Sound) ?_ fun s e s' _ hs hg hstep => hs.step hg hstep
  rintro s ⟨start, hpos, hdvd, rfl⟩
  refine ⟨⟨hpos, hdvd, ⟨0, (Break.grown_zero _).symm⟩, Or.inl ⟨rfl, rfl⟩⟩, ?_, rfl⟩
  refine (HeapOk.empty 0).congr ?_
  exact (Set.Ico_eq_empty (by simp)).symm

/-- What is below the break of the allocator is mapped. -/
theorem Sound.mapped (h : s.Sound) {x : ℕ} (hx : x ∈ Set.Ico s.space.heapStart s.brk) :
    x / pageSize * pageSize ∈ s.space.mapped := by
  obtain ⟨n, hn⟩ := h.framed.pages
  obtain ⟨k, hk⟩ := h.framed.aligned
  have hle : s.brk ≤ s.space.heapStart + n * pageSize := by
    have hend : s.space.heapEnd = s.space.heapStart + n * pageSize := congrArg Break.heapEnd hn
    rcases h.framed.brk with ⟨hzero, -⟩ | ⟨-, hle, -⟩
    · omega
    · omega
  have hmapped : s.space.mapped = (List.range n).map fun k => s.space.heapStart + k * pageSize :=
    congrArg Break.mapped hn
  rw [hmapped, List.mem_map]
  obtain ⟨hstart, hend⟩ := hx
  refine ⟨x / pageSize - k, ?_, ?_⟩
  · rw [List.mem_range]
    unfold pageSize at *
    omega
  · unfold pageSize at *
    omega

end BrkRun

/-- In every run of allocations and deallocations, whatever the calls of `brk` get: the blocks tile
the heap from its start to the break of the allocator, which is not behind that of the kernel, so
that they are in mapped pages; the live allocations are aligned and apart from each other and from
all headers; and `dealloc` frees the block that `alloc` took. -/
theorem user_heap_layout {s : BrkRun} (h : brkSystem.Reachable BrkRun.Allocates s) :
    Tiles (s.heap.blocks.map Block.span) (Set.Ico s.space.heapStart s.brk) ∧
      s.brk ≤ s.space.heapEnd ∧
      (∀ b ∈ s.heap.blocks, ∀ x ∈ Set.Ico b.span.1 b.span.2,
        x / pageSize * pageSize ∈ s.space.mapped) ∧
      HeapLayout s.heap s.live ∧ (∀ a ∈ s.live, a.align ∣ a.ptr) ∧
      ∀ a ∈ s.live, (s.dealloc a.ptr a.align).heap =
        { s.heap with blocks := Heap.freeBlock a.block s.heap.blocks } := by
  have hsound := BrkRun.Sound.of_reachable h
  have hok := hsound.ok
  refine ⟨hok.tiles, ?_, fun b hb x hx => ?_, hok.layout, fun a ha => ?_, fun a ha => ?_⟩
  · rcases hsound.framed.brk with ⟨hzero, -⟩ | ⟨-, hle, -⟩
    · omega
    · exact hle
  · exact hsound.mapped ((hok.tiles.mem_iff x).mpr ⟨b.span, List.mem_map_of_mem hb, hx⟩)
  · have := hok.layout.aligned a ha
    rwa [hsound.hhdm, Nat.zero_add] at this
  · change s.heap.dealloc a.ptr a.align = _
    rw [Heap.dealloc_eq, hok.recovers a ha, Nat.add_sub_cancel]

/-- An over-aligned allocation, another one, and the first one given back. -/
theorem user_heap_layout_of_allocations : ∃ s : BrkRun, brkSystem.Reachable BrkRun.Allocates s ∧
    s.live.map Allocation.ptr = [0x6010B0] ∧ s.brk = 0x602000 ∧
      s.space.heapEnd = s.brk ∧ ∀ a ∈ s.live, a.align ∣ a.ptr := by
  obtain ⟨s, hs, hlive, hbrk, hend⟩ := TransitionSystem.Reachable.exists_of_run
    (T := brkSystem) BrkRun.Allocates
    (P := fun s => s.live.map Allocation.ptr = [0x6010B0] ∧ s.brk = 0x602000 ∧
      s.space.heapEnd = s.brk)
    (s := ⟨⟨Heap.empty 0, 0, ⟨0x600000, 0x600000, []⟩⟩, []⟩)
    ⟨0x600000, by decide, by decide, rfl⟩
    [.alloc 100 12 5, .alloc 24 3 0, .dealloc ⟨0x601000, 100, 4096, 0x600000⟩]
    (by simp [BrkRun.Allocates]) (by decide +kernel)
  exact ⟨s, hs, hlive, hbrk, hend, (user_heap_layout hs).2.2.2.2.1⟩

/-! ### Growth that fails -/

namespace BrkHeap

/-- The allocator's break is that of the kernel, unless it has not asked for it yet. -/
structure Level (s : BrkHeap) : Prop where
  positive : 0 < s.space.heapEnd
  aligned : heapAlign ∣ s.space.heapEnd
  brk : s.brk = 0 ∨ s.brk = s.space.heapEnd

variable {s : BrkHeap}

theorem Level.begin_brk (h : s.Level) : s.begin.brk = s.space.heapEnd := by
  have hpos := h.positive
  obtain ⟨k, hk⟩ := h.aligned
  have hend : alignUp s.space.heapEnd heapAlign = s.space.heapEnd := by
    rw [hk]
    unfold alignUp heapAlign
    omega
  rw [begin_eq]
  dsimp only
  rcases h.brk with hzero | heq
  · rw [if_pos hzero, hend]
  · rw [if_neg (by omega), heq]

theorem Level.heap (h : s.Level) (heap : Heap) : Level { s with heap := heap } :=
  ⟨h.positive, h.aligned, h.brk⟩

theorem Level.of_grown {n : ℕ} (h : s.Level) (hbrk : s.brk = 0 ∨ n = 0) :
    Level { s with space := s.space.grown n } := by
  refine ⟨?_, ?_, ?_⟩
  · exact Nat.lt_of_lt_of_le h.positive (Nat.le_add_right _ _)
  · exact dvd_add h.aligned (Dvd.dvd.mul_left (by decide) n)
  · rcases hbrk with hzero | rfl
    · exact Or.inl hzero
    · rw [Break.grown_zero]
      exact h.brk

/-- A call of `grow` that does not stop part-way: the breaks are the same afterwards, and it
succeeds if there are enough pages. -/
theorem Level.grow (h : s.Level) {avail minSize : ℕ}
    (hwhole : ¬ s.space.StopsPartWay avail (s.newEnd minSize)) :
    (s.grow avail minSize).2.Level ∧
      (s.grow avail minSize).2.brk = (s.grow avail minSize).2.space.heapEnd ∧
      (s.space.needs (s.newEnd minSize) ≤ avail →
        s.newEnd minSize - s.space.heapStart ≤ heapMaxBytes → (s.grow avail minSize).1 ≠ none) := by
  have hbrk := h.begin_brk
  obtain ⟨k, hk⟩ := dvd_alignUp (heapHeader + minSize) growChunk
  have hpos := le_alignUp (show 0 < growChunk by decide) (heapHeader + minSize)
  have hend : s.newEnd minSize = s.space.heapEnd + k * pageSize := by
    rw [newEnd, hbrk, hk, Nat.mul_comm]
    rfl
  have hk0 : 0 < k := by
    unfold heapHeader growChunk at *
    omega
  have hneeds : s.space.needs (s.newEnd minSize) = k := by
    rw [hend]
    unfold Break.needs divCeil pageSize
    omega
  have hlt : s.space.heapEnd < s.newEnd minSize := by
    rw [hend]
    unfold pageSize
    omega
  have hbegin : Level { s.begin with space := s.space } := ⟨h.positive, h.aligned, Or.inr hbrk⟩
  unfold BrkHeap.grow
  rw [begin_space]
  rcases s.space.sysBrk_cases avail (s.newEnd minSize) with ⟨hle, -⟩ | ⟨-, hmax, heq⟩ |
    ⟨-, -, heq⟩ | ⟨htries, hless, heq⟩
  · omega
  · rw [heq]
    dsimp only
    rw [if_neg (by simp)]
    exact ⟨hbegin, hbrk, fun _ hlimit => by omega⟩
  · rw [heq, hneeds]
    dsimp only
    have hsome : some (s.space.grown k).heapEnd = some (s.newEnd minSize) := by
      rw [hend]
      rfl
    rw [if_pos hsome]
    refine ⟨⟨?_, ?_, Or.inr hend⟩, hend, fun _ _ => by simp⟩
    · exact Nat.lt_of_lt_of_le h.positive (Nat.le_add_right _ _)
    · exact dvd_add h.aligned (Dvd.dvd.mul_left (by decide) k)
  · have hzero : avail = 0 :=
      Nat.eq_zero_of_not_pos fun hpos => hwhole ⟨htries, hpos, hless⟩
    rw [heq, hzero, Break.grown_zero]
    dsimp only
    rw [if_neg (by simp)]
    exact ⟨hbegin, hbrk, fun henough => by omega⟩

/-- An allocation leaves the breaks alone or makes one call of `grow`. -/
theorem alloc_breaks (s : BrkHeap) (avail size align : ℕ) : ∃ heap,
    (s.alloc avail size align).2 = { s with heap := heap } ∨
      (s.alloc avail size align).2 = { (s.grow avail
        (alignUp (max (Heap.request size align) 1) heapAlign)).2 with heap := heap } := by
  have hmalloc : ∀ size, ∃ heap, (s.malloc avail size).2 = { s with heap := heap } ∨
      (s.malloc avail size).2 =
        { (s.grow avail (alignUp (max size 1) heapAlign)).2 with heap := heap } := by
    intro size
    unfold malloc
    dsimp only
    rcases Heap.takeFirst (alignUp (max size 1) heapAlign) s.heap.blocks with - | ⟨ptr, blocks⟩
    · dsimp only
      rcases s.grow avail (alignUp (max size 1) heapAlign) with ⟨- | b, t⟩
      · exact ⟨t.heap, Or.inr rfl⟩
      · exact ⟨_, Or.inr rfl⟩
    · exact ⟨_, Or.inl rfl⟩
  unfold alloc Heap.request
  split
  · exact hmalloc size
  · obtain ⟨heap, heq⟩ := hmalloc (size + align)
    rcases hcall : s.malloc avail (size + align) with ⟨- | raw, t⟩
    · rw [hcall] at heq
      exact ⟨heap, heq⟩
    · rw [hcall] at heq
      dsimp only at heq ⊢
      rcases heq with rfl | rfl
      · exact ⟨_, Or.inl rfl⟩
      · exact ⟨_, Or.inr rfl⟩

end BrkHeap

namespace BrkRun

/-- No call of `brk` stops part-way, and once the allocator has asked for the break, the program
does not move it by itself. -/
def Whole (s : BrkRun) : Event → Prop
  | .alloc size k avail => ¬ s.space.StopsPartWay avail
      (s.newEnd (alignUp (max (Heap.request size (2 ^ k)) 1) heapAlign))
  | .dealloc _ => True
  | .brk newEnd avail => ¬ s.space.StopsPartWay avail newEnd ∧
      (s.brk ≠ 0 → s.space.Tries newEnd → avail = 0)

variable {s s' : BrkRun}

theorem level_step (h : s.Level) {e : Event} (hwhole : s.Whole e) (hstep : s.step e = some s') :
    s'.Level := by
  cases e with
  | alloc size k avail =>
    obtain rfl := Option.some.inj hstep
    obtain ⟨heap, heq | heq⟩ := s.alloc_breaks avail size (2 ^ k)
    · exact heq ▸ h.heap heap
    · exact heq ▸ (h.grow hwhole).1.heap heap
  | dealloc a =>
    rw [step] at hstep
    split at hstep
    · obtain rfl := Option.some.inj hstep
      exact h.heap _
    · cases hstep
  | brk newEnd avail =>
    obtain rfl := Option.some.inj hstep
    rcases s.space.sysBrk_cases avail newEnd with ⟨-, heq⟩ | ⟨-, -, heq⟩ | ⟨htries, henough, heq⟩ |
      ⟨htries, hless, heq⟩
    · rw [heq]
      exact h
    · rw [heq]
      exact h
    · rw [heq]
      refine h.of_grown ?_
      by_cases hzero : s.brk = 0
      · exact Or.inl hzero
      · rw [hwhole.2 hzero htries] at henough
        exact Or.inr (Nat.le_zero.mp henough)
    · rw [heq]
      refine h.of_grown (Or.inr ?_)
      exact Nat.eq_zero_of_not_pos fun hpos => hwhole.1 ⟨htries, hpos, hless⟩

theorem level_of_reachable (h : brkSystem.Reachable Whole s) : s.Level := by
  refine h.invariant (P := fun s => s.Level) ?_ fun s e s' _ hs hg hstep => level_step hs hg hstep
  rintro s ⟨start, hpos, hdvd, rfl⟩
  exact ⟨hpos, Dvd.dvd.trans (by decide) hdvd, Or.inl rfl⟩

end BrkRun

/-- A failed call of `brk` leaves no trace exactly if it does not stop part-way.  In every run in
which no call does, and in which the program does not move the break behind its allocator's back,
the two breaks are the same after every `grow`, and `grow` succeeds whenever there are enough pages
and the limit allows it. -/
theorem failed_growth_invisible (b : Break) (avail newEnd : ℕ) {s : BrkRun}
    (h : brkSystem.Reachable BrkRun.Whole s) :
    (((b.sysBrk avail newEnd).1 = none → (b.sysBrk avail newEnd).2 = b) ↔
        ¬ b.StopsPartWay avail newEnd) ∧
      ∀ minSize, ¬ s.space.StopsPartWay avail (s.newEnd minSize) →
        (s.grow avail minSize).2.brk = (s.grow avail minSize).2.space.heapEnd ∧
          (s.space.needs (s.newEnd minSize) ≤ avail →
            s.newEnd minSize - s.space.heapStart ≤ heapMaxBytes →
            (s.grow avail minSize).1 ≠ none) :=
  ⟨b.failed_sysBrk_iff avail newEnd,
    fun _ hwhole => ((BrkRun.level_of_reachable h).grow hwhole).2⟩

/-- A request for three pages when there is none fails, and one for a single page succeeds later. -/
theorem failed_growth_invisible_of_refusal : ∃ s : BrkRun, brkSystem.Reachable BrkRun.Whole s ∧
    (s.live = [] ∧ s.brk = 0x600000) ∧ (s.grow 1 16).2.brk = (s.grow 1 16).2.space.heapEnd ∧
      (s.grow 1 16).1 ≠ none := by
  obtain ⟨s, hs, hfailed, hwhole, hneeds, hlimit⟩ := TransitionSystem.Reachable.exists_of_run
    (T := brkSystem) BrkRun.Whole
    (P := fun s => (s.live = [] ∧ s.brk = 0x600000) ∧ ¬ s.space.StopsPartWay 1 (s.newEnd 16) ∧
      s.space.needs (s.newEnd 16) ≤ 1 ∧ s.newEnd 16 - s.space.heapStart ≤ heapMaxBytes)
    (s := ⟨⟨Heap.empty 0, 0, ⟨0x600000, 0x600000, []⟩⟩, []⟩)
    ⟨0x600000, by decide, by decide, rfl⟩ [.alloc 12000 0 0]
    (by simp [BrkRun.Whole, Break.StopsPartWay]) (by decide +kernel)
  obtain ⟨hbrk, hsucceeds⟩ := (failed_growth_invisible s.space 1 (s.newEnd 16) hs).2 16 hwhole
  exact ⟨s, hs, hfailed, hbrk, hsucceeds hneeds hlimit⟩

/-- A request for three pages when there are two: the call fails, but the heap has grown by these,
and the allocator does not know.  From then on it fails to get a single page, however many there
are. -/
theorem partial_growth_stays : ∃ s : BrkRun, brkSystem.Reachable TransitionSystem.anyStep s ∧
    (s.live = [] ∧ s.brk = 0x600000 ∧ s.space.heapEnd = 0x602000 ∧
      s.space.mapped = [0x600000, 0x601000]) ∧
    s.space.needs (s.newEnd 16) ≤ 1000 ∧ s.newEnd 16 - s.space.heapStart ≤ heapMaxBytes ∧
      (s.grow 1000 16).1 = none :=
  brkSystem.exists_of_run (s := ⟨⟨Heap.empty 0, 0, ⟨0x600000, 0x600000, []⟩⟩, []⟩)
    ⟨0x600000, by decide, by decide, rfl⟩ [.alloc 12000 0 2] (by decide +kernel)

end AnssOS
