import AnssOS.Exec.ElfBounds
import AnssOS.Exec.ElfRounds
import AnssOS.Exec.Machine

/-!
# Loads that fail

`elf::load` has many places where it gives up, and in none of them does it give back what it has taken
before: its first allocation, that of the top-level table, comes after the checks of the ELF header and
before those of the segments.  So a failed load leaves the pages and the heap as they were if the header is
refused, or if there was no page to take; and in no other case.

### Outline

* `Pmm.Holds`: a page that stays in use, kept by every part of the loader;
* `load_of_full`: without a free page nothing is taken;
* `failed_load_leaks_nothing_iff`: the two cases in which nothing is lost, for `load`, `spawn` and `exec`;
* `failed_exec_leaks`: a program whose `execve` fails again and again takes all the memory.
-/

namespace AnssOS

/-! ### Pages that stay in use -/

namespace Pmm

/-- The page at `x` is in use. -/
def Holds (x : ℕ) (p : Pmm) : Prop := p.Sound ∧ p.Used x

variable {x : ℕ} {p : Pmm}

theorem Takes.holds {p' : Pmm} {new : Set ℕ} (ht : p.Takes p' new) (h : p.Holds x) : p'.Holds x :=
  ⟨ht.sound, (ht.used_iff x).mpr (Or.inl h.2)⟩

theorem Holds.allocPage (h : p.Holds x) : p.allocPage.2.Holds x := by
  by_cases hzero : p.allocPage.1 = 0
  · rwa [allocPage_zero h.1 hzero]
  · exact (allocPage_takes h.1 hzero).holds h

theorem Holds.allocPages (h : p.Holds x) (n : ℕ) : (p.allocPages n).2.Holds x := by
  by_cases hzero : (p.allocPages n).1 = 0
  · rwa [allocPages_zero h.1 hzero]
  · exact (allocPages_takes h.1 hzero).holds h

theorem Holds.heapAlloc (h : p.Holds x) (heap : Heap) (size align : ℕ) :
    (heap.alloc p size align).2.2.Holds x := by
  rcases heap.alloc_pmm p size align with heq | ⟨n, heq⟩
  · rwa [heq]
  · rw [heq]
    exact h.allocPages n

/-- Another page is given back. -/
theorem Holds.freePage (h : p.Holds x) {page : ℕ} (hpage : page ≠ 0) (hne : x ≠ page * pageSize) :
    (p.freePage (page * pageSize)).Holds x := by
  obtain ⟨hsound, hused⟩ := freePage_used h.1 hpage
  exact ⟨hsound, hused x hne h.2⟩

theorem Used.not_free (h : p.Used x) : ¬ p.Free x := by
  rintro ⟨page, rfl, -, hfree⟩
  exact not_used_of_free hfree h

/-- Without a free page there is no run of pages either. -/
theorem allocPages_of_full (hzero : p.test 0 = true) (hfull : ∀ x, ¬ p.Free x) (n : ℕ) :
    p.allocPages n = (0, p) := by
  rcases allocPages_cases hzero n with ⟨-, heq⟩ | ⟨start, hpos, -, hend, hfree, -⟩
  · exact heq
  · exact absurd ⟨start, rfl, by omega, hfree 0 hpos⟩ (hfull (start * pageSize))

end Pmm

namespace PhysMemory

variable {x : ℕ} {m : PhysMemory}

theorem holds_getOrCreate (h : m.pmm.Holds x) (parent index : ℕ) :
    (m.getOrCreate parent index).2.pmm.Holds x := by
  simp only [getOrCreate]
  split
  · exact h
  · exact h.allocPage

theorem holds_map (h : m.pmm.Holds x) (pml4 virt phys flags : ℕ) :
    (m.map pml4 virt phys flags).pmm.Holds x := by
  show (m.walkCreate pml4 virt).2.pmm.Holds x
  rw [walkCreate_eq]
  exact holds_getOrCreate (holds_getOrCreate (holds_getOrCreate h _ _) _ _) _ _

/-- A loop whose rounds keep the page in use. -/
theorem holds_foldl {f : PhysMemory → ℕ → PhysMemory} {is : List ℕ}
    (hf : ∀ i ∈ is, ∀ m : PhysMemory, m.pmm.Holds x → (f m i).pmm.Holds x) (h : m.pmm.Holds x) :
    (is.foldl f m).pmm.Holds x := by
  induction is generalizing m with
  | nil => exact h
  | cons i is ih =>
    exact ih (fun j hj => hf j (List.mem_cons_of_mem i hj)) (hf i List.mem_cons_self m h)

/-- A page of the segment is given back only if it is one of the segment's own. -/
theorem holds_loadPage (h : m.pmm.Holds x) (aspace : ℕ) (loaded : List Segment) (ph : Phdr)
    {basePhys p page : ℕ} (hpage : page ≠ 0) (heq : basePhys + p * pageSize = page * pageSize)
    (hne : x ≠ page * pageSize) : (loadPage aspace loaded ph basePhys p m).pmm.Holds x := by
  unfold loadPage
  dsimp only
  split
  · exact holds_map h _ _ _ _
  · rw [heq]
    exact Pmm.Holds.freePage h hpage hne

/-- The memory at the end of a round of the loop over the program headers, or where it stopped. -/
def memAfter : Except PhysMemory Loading → PhysMemory
  | .error m => m
  | .ok st => st.mem

theorem holds_loadSegment {st : Loading} (h : st.mem.pmm.Holds x) (image : List UInt8) (aspace : ℕ)
    (ph : Phdr) : (memAfter (loadSegment image aspace st ph)).pmm.Holds x := by
  unfold loadSegment
  split
  · exact h
  split
  · exact h
  -- the number of pages is a large term, which nothing depends on
  generalize ph.pages = n
  have hafter := h.allocPages n
  have htakes := Pmm.allocPages_takes (p := st.mem.pmm) (n := n) h.1
  rcases halloc : st.mem.pmm.allocPages n with ⟨basePhys, p⟩
  rw [halloc] at hafter htakes
  dsimp only at hafter htakes ⊢
  split
  · exact hafter
  · rename_i hbase
    rw [memAfter]
    refine holds_foldl (fun k hk m hm => ?_) ?_
    · have hmem : basePhys + k * pageSize ∈ Pmm.pageRun basePhys n := ⟨k, List.mem_range.mp hk, rfl⟩
      obtain ⟨page, hpage, hne, -⟩ := ((htakes hbase).used_iff _).mpr (Or.inr hmem)
      refine holds_loadPage hm aspace st.loaded ph hne hpage ?_
      intro hx
      refine (htakes hbase).fresh _ hmem ?_
      rw [hpage, ← hx]
      exact h.2
    · exact hafter

theorem holds_loadSegments {st : Loading} (h : st.mem.pmm.Holds x) (image : List UInt8) (aspace : ℕ)
    (phs : List Phdr) : (memAfter (phs.foldlM (loadSegment image aspace) st)).pmm.Holds x := by
  induction phs generalizing st with
  | nil => exact h
  | cons ph phs ih =>
    have hround := holds_loadSegment h image aspace ph
    rw [List.foldlM_cons]
    rcases hseg : loadSegment image aspace st ph with m | st'
    · rw [hseg] at hround
      exact hround
    · rw [hseg] at hround
      exact ih hround

theorem holds_mapStack (h : m.pmm.Holds x) (aspace stackPhys : ℕ) :
    (m.mapStack aspace stackPhys).pmm.Holds x := by
  unfold mapStack
  refine holds_foldl (fun k _ m hm => ?_) ?_
  · exact holds_map hm _ _ _ _
  · exact h

theorem holds_allocKernelStack (h : m.pmm.Holds x) : m.allocKernelStack.2.pmm.Holds x := by
  have hafter := h.heapAlloc m.heap kernelStackSize 16
  unfold allocKernelStack
  rcases halloc : m.heap.alloc m.pmm kernelStackSize 16 with ⟨base, heap, p⟩
  rw [halloc] at hafter
  exact hafter

theorem holds_finishLoad {st : Loading} (h : st.mem.pmm.Holds x) (eh : Ehdr) (aspace : ℕ)
    (argv : List (List UInt8)) : (finishLoad eh aspace argv st).2.pmm.Holds x := by
  have hafter := h.allocPages userStackPages
  rcases halloc : st.mem.pmm.allocPages userStackPages with ⟨stackPhys, p⟩
  rw [halloc] at hafter
  rcases finishLoad_cases eh aspace argv halloc with ⟨-, heq⟩ | ⟨-, m, hm, hmem, -⟩
  · rw [heq]
    exact hafter
  have hstack : m.pmm.Holds x := by
    rw [hm]
    exact holds_allocKernelStack (holds_mapStack hafter aspace stackPhys)
  rcases hmem with hmem | hmem
  · rw [hmem]
    exact hstack
  · rw [hmem, (m.initStack_pmm stackPhys argv).1]
    exact hstack

/-! ### Failed loads -/

/-- What `load` asks of the header before it allocates anything. -/
def HeaderOk (image : List UInt8) : Prop :=
  ehdrSize ≤ image.length ∧ (Ehdr.read image).supported image = true

instance (image : List UInt8) : Decidable (HeaderOk image) := inferInstanceAs (Decidable (_ ∧ _))

/-- The blocks of the kernel heap that are allocated. -/
def liveBlocks (m : PhysMemory) : Set Block := {b | b ∈ m.heap.blocks ∧ b.free = false}

/-- The same pages are free, and the same blocks of the kernel heap are allocated. -/
def SameResources (m m' : PhysMemory) : Prop :=
  (∀ x, m'.pmm.Free x ↔ m.pmm.Free x) ∧ m'.liveBlocks = m.liveBlocks

theorem load_of_not_headerOk {image : List UInt8} (h : ¬ HeaderOk image) (m : PhysMemory) (cr3 : ℕ)
    (argv : List (List UInt8)) : m.load cr3 image argv = (none, m) := by
  unfold load
  rw [if_pos]
  by_contra hnot
  push Not at hnot
  exact h hnot

/-- The loop over the program headers, in the new address space. -/
def loadLoop (m : PhysMemory) (cr3 : ℕ) (image : List UInt8) : Except PhysMemory Loading :=
  ((List.range (Ehdr.read image).phnum).map ((Ehdr.read image).phdr image)).foldlM
    (loadSegment image (m.newAddressSpace cr3).1) ⟨(m.newAddressSpace cr3).2, 0, []⟩

/-- What remains of `load` then. -/
def afterLoop (eh : Ehdr) (aspace : ℕ) (argv : List (List UInt8)) :
    Except PhysMemory Loading → Option LoadedImage × PhysMemory
  | .error m => (none, m)
  | .ok st => finishLoad eh aspace argv st

theorem load_of_headerOk {image : List UInt8} (h : HeaderOk image) (m : PhysMemory) (cr3 : ℕ)
    (argv : List (List UInt8)) : m.load cr3 image argv =
      afterLoop (Ehdr.read image) (m.newAddressSpace cr3).1 argv (m.loadLoop cr3 image) := by
  have hnot : ¬ (image.length < ehdrSize ∨ ¬ (Ehdr.read image).supported image) := by
    rintro (hlt | hnot)
    · exact absurd h.1 (not_le.mpr hlt)
    · exact hnot h.2
  rw [load, if_neg hnot]
  rfl

/-- Without a free page the loop stops at the first segment. -/
theorem loadSegments_of_full (st : Loading) (hzero : st.mem.pmm.test 0 = true)
    (hfull : ∀ x, ¬ st.mem.pmm.Free x) (image : List UInt8) (aspace : ℕ) (phs : List Phdr) :
    phs.foldlM (loadSegment image aspace) st = .ok st ∨
      phs.foldlM (loadSegment image aspace) st = .error st.mem := by
  induction phs with
  | nil => exact Or.inl rfl
  | cons ph phs ih =>
    have hround : loadSegment image aspace st ph = .ok st ∨
        loadSegment image aspace st ph = .error st.mem := by
      rw [loadSegment, Pmm.allocPages_of_full hzero hfull]
      by_cases htype : ph.type ≠ ptLoad
      · rw [if_pos htype]
        exact Or.inl rfl
      · rw [if_neg htype]
        right
        split
        · rfl
        · rfl
    rw [List.foldlM_cons]
    rcases hround with hround | hround
    · rw [hround]
      exact ih
    · rw [hround]
      exact Or.inr rfl

/-- Without a free page nothing is taken. -/
theorem load_of_full (hsound : m.pmm.Sound) (hfull : ∀ x, ¬ m.pmm.Free x) (cr3 : ℕ)
    (image : List UInt8) (argv : List (List UInt8)) :
    (m.load cr3 image argv).2.pmm = m.pmm ∧ (m.load cr3 image argv).2.heap = m.heap := by
  by_cases hheader : HeaderOk image
  swap
  · rw [load_of_not_headerOk hheader]
    exact ⟨rfl, rfl⟩
  have hheap : (m.newAddressSpace cr3).2.heap = m.heap := rfl
  have hpmm : (m.newAddressSpace cr3).2.pmm = m.pmm := by
    show m.pmm.allocPage.2 = m.pmm
    rcases Pmm.allocPage_cases hsound.zero hsound.cursor_le with ⟨-, heq⟩ | ⟨page, -, hlt, hfree, -⟩
    · rw [heq]
    · exact absurd ⟨page, rfl, hlt, hfree⟩ (hfull (page * pageSize))
  have hzero : (m.newAddressSpace cr3).2.pmm.test 0 = true := by
    rw [hpmm]
    exact hsound.zero
  rw [← hpmm] at hfull
  rw [load_of_headerOk hheader]
  rcases loadSegments_of_full (⟨(m.newAddressSpace cr3).2, 0, []⟩ : Loading) hzero hfull image
    (m.newAddressSpace cr3).1 ((List.range (Ehdr.read image).phnum).map ((Ehdr.read image).phdr image))
    with heq | heq
  · rw [loadLoop, heq, afterLoop, finishLoad, Pmm.allocPages_of_full hzero hfull]
    exact ⟨hpmm, hheap⟩
  · rw [loadLoop, heq, afterLoop]
    exact ⟨hpmm, hheap⟩

/-- Otherwise the top-level table is lost. -/
theorem load_takes_page (hsound : m.pmm.Sound) {y : ℕ} (hy : m.pmm.Free y) {image : List UInt8}
    (hheader : HeaderOk image) (cr3 : ℕ) (argv : List (List UInt8)) :
    ∃ x, m.pmm.Free x ∧ ¬ (m.load cr3 image argv).2.pmm.Free x := by
  have hspace : ∃ x, m.pmm.Free x ∧ (m.newAddressSpace cr3).2.pmm.Holds x := by
    rcases Pmm.allocPage_cases hsound.zero hsound.cursor_le with ⟨hfull, -⟩ | ⟨page, hne, hlt, hfree, heq⟩
    · obtain ⟨page, -, hlt, hfree⟩ := hy
      rw [hfull page hlt] at hfree
      cases hfree
    · have htakes := Pmm.allocPage_takes hsound (by rw [heq]; simp [hne, pageSize])
      refine ⟨page * pageSize, ⟨page, rfl, hlt, hfree⟩, htakes.sound, ?_⟩
      refine (htakes.used_iff _).mpr (Or.inr ?_)
      rw [heq]
      rfl
  obtain ⟨x, hx, hholds⟩ := hspace
  have hloop : (memAfter (m.loadLoop cr3 image)).pmm.Holds x := holds_loadSegments hholds image _ _
  refine ⟨x, hx, Pmm.Used.not_free ?_⟩
  rw [load_of_headerOk hheader]
  rcases hresult : m.loadLoop cr3 image with m₁ | st
  · rw [hresult] at hloop
    exact hloop.2
  · rw [hresult] at hloop
    exact (holds_finishLoad hloop _ _ argv).2

/-- A failed load leaves the resources as they were if the header is refused or no page is free, and in no
other case. -/
theorem sameResources_load_iff (hsound : m.pmm.Sound) (cr3 : ℕ) (image : List UInt8)
    (argv : List (List UInt8)) :
    SameResources m (m.load cr3 image argv).2 ↔ ¬ HeaderOk image ∨ ∀ x, ¬ m.pmm.Free x := by
  constructor
  · intro hsame
    by_contra hnot
    push Not at hnot
    obtain ⟨hheader, y, hy⟩ := hnot
    obtain ⟨x, hx, hx'⟩ := load_takes_page hsound hy hheader cr3 argv
    exact hx' ((hsame.1 x).mpr hx)
  · rintro (hheader | hfull)
    · rw [load_of_not_headerOk hheader]
      exact ⟨fun _ => Iff.rfl, rfl⟩
    · obtain ⟨hpmm, hheap⟩ := load_of_full hsound hfull cr3 image argv
      rw [SameResources, hpmm, liveBlocks, liveBlocks, hheap]
      exact ⟨fun _ => Iff.rfl, rfl⟩

end PhysMemory

namespace Kernel

open PhysMemory

variable {s : Kernel PhysMemory}

theorem load_mem (s : Kernel PhysMemory) (image : List UInt8) (argv : List (List UInt8))
    (cwd : Option ℕ) :
    (s.load image argv cwd).2.mem = (s.mem.load s.cr3.pml4Phys image argv).2 := by
  have hload : MemoryOps.load s.mem s.cr3.pml4Phys image argv =
      s.mem.load s.cr3.pml4Phys image argv := rfl
  rw [Kernel.load, hload]
  rcases s.mem.load s.cr3.pml4Phys image argv with ⟨- | img, m⟩
  · rfl
  · rfl

/-- **A failed load takes nothing** if, and only if, the header is refused, or no page was free; or if there
was no slot for the new process. -/
theorem failed_load_leaks_nothing_iff (hsound : s.mem.pmm.Sound) (image : List UInt8)
    (argv : List (List UInt8)) :
    (∀ cwd, (s.load image argv cwd).1 = none →
      (SameResources s.mem (s.load image argv cwd).2.mem ↔
        ¬ HeaderOk image ∨ ∀ x, ¬ s.mem.pmm.Free x)) ∧
    (∀ cwd parentPid, (s.spawn image argv cwd parentPid).1 = none →
      (SameResources s.mem (s.spawn image argv cwd parentPid).2.mem ↔
        s.allocSlot = none ∨ ¬ HeaderOk image ∨ ∀ x, ¬ s.mem.pmm.Free x)) ∧
    ∀ p, (s.exec p image argv).1 = false →
      (SameResources s.mem (s.exec p image argv).2.mem ↔
        ¬ HeaderOk image ∨ ∀ x, ¬ s.mem.pmm.Free x) := by
  have hload : ∀ cwd, SameResources s.mem (s.load image argv cwd).2.mem ↔
      ¬ HeaderOk image ∨ ∀ x, ¬ s.mem.pmm.Free x := by
    intro cwd
    rw [load_mem]
    exact sameResources_load_iff hsound _ image argv
  refine ⟨fun cwd _ => hload cwd, fun cwd parentPid hnone => ?_, fun p hfalse => ?_⟩
  · unfold spawn at hnone ⊢
    cases hslot : s.allocSlot with
    | none => exact ⟨fun _ => Or.inl rfl, fun _ => ⟨fun _ => Iff.rfl, rfl⟩⟩
    | some i =>
      rw [hslot] at hnone
      have hload := hload cwd
      dsimp only at hnone ⊢
      rcases hres : s.load image argv cwd with ⟨- | task, s'⟩
      · rw [hres] at hload
        simpa using hload
      · rw [hres] at hnone
        cases hnone
  · unfold exec at hfalse ⊢
    have hload := hload (s.processes p).task.cwd
    dsimp only at hfalse ⊢
    rcases hres : s.load image argv (s.processes p).task.cwd with ⟨- | task, s'⟩
    · rw [hres] at hload
      exact hload
    · rw [hres] at hfalse
      cases hfalse

/-- An image whose only segment has more bytes in the file than in memory. -/
def badSegment : List UInt8 :=
  headerOnly 64 56 1 ++ (leBytes 4 ptLoad ++ leBytes 4 0 ++ leBytes 8 0 ++ leBytes 8 0 ++ leBytes 8 0 ++
    leBytes 8 1 ++ leBytes 8 0 ++ leBytes 8 0)

/-- A memory with `n` pages, all of them free except for the first one. -/
def freshPages (n : ℕ) : PhysMemory :=
  ⟨fun _ => 0, ⟨fun page => page = 0, n, n - 1, 0⟩, Heap.empty 0, 0⟩

/-- The theorem, for a file that is too short to be an ELF file. -/
theorem failed_load_leaks_nothing_iff_of_empty :
    (Kernel.boot (freshPages 4) ⟨0, 0⟩ 0).mem.SameResources
      ((Kernel.boot (freshPages 4) ⟨0, 0⟩ 0).exec 0 [] []).2.mem := by
  have hsound : (Kernel.boot (freshPages 4) ⟨0, 0⟩ 0).mem.pmm.Sound := ⟨rfl, by decide, by decide⟩
  exact ((failed_load_leaks_nothing_iff hsound [] []).2.2 0 (by decide +kernel)).mpr
    (Or.inl (by decide))

/-- A program calls `execve` for a file with a bad segment.  Each call fails, and each call takes a page, until
there is none left. -/
theorem failed_exec_leaks :
    ∃ s, (kernelSystem PhysMemory ⟨0, 0⟩).Reachable TransitionSystem.anyStep s ∧
      s.current = some 0 ∧ (s.exec 0 badSegment []).1 = false ∧
      ¬ SameResources s.mem (s.exec 0 badSegment []).2.mem ∧
      ∃ s', (kernelSystem PhysMemory ⟨0, 0⟩).run s
        [.user (.execve badSegment []), .user (.execve badSegment [])] = some s' ∧
        ∀ x, ¬ s'.mem.pmm.Free x := by
  obtain ⟨s, hs, hcurrent, hfalse, hfree, hused, hrun⟩ :=
    (kernelSystem PhysMemory ⟨0, 0⟩).exists_of_run
      (P := fun s => s.current = some 0 ∧ (s.exec 0 badSegment []).1 = false ∧
        (26 < s.mem.pmm.totalPages ∧ s.mem.pmm.test 26 = false) ∧
        (s.exec 0 badSegment []).2.mem.pmm.test 26 = true ∧
        ((kernelSystem PhysMemory ⟨0, 0⟩).run s
          [.user (.execve badSegment []), .user (.execve badSegment [])]).any fun s' =>
            decide (∀ page < s'.mem.pmm.totalPages, s'.mem.pmm.test page = true))
      (s := Kernel.boot (freshPages 28) ⟨0, 0⟩ 0) ⟨freshPages 28, 0, rfl⟩
      [.spawn (headerOnly 64 0 0) [] none, .runUntil, .round] (by decide +kernel)
  refine ⟨s, hs, hcurrent, hfalse, fun hsame => ?_, ?_⟩
  · obtain ⟨page, hpage, -, htest⟩ := (hsame.1 (26 * pageSize)).mpr ⟨26, rfl, hfree⟩
    rw [← Pmm.page_inj hpage, hused] at htest
    cases htest
  · rcases hrest : (kernelSystem PhysMemory ⟨0, 0⟩).run s
      [.user (.execve badSegment []), .user (.execve badSegment [])] with - | s'
    · rw [hrest] at hrun
      cases hrun
    · rw [hrest] at hrun
      refine ⟨s', rfl, ?_⟩
      rintro x ⟨page, -, hlt, htest⟩
      rw [of_decide_eq_true hrun page hlt] at htest
      cases htest

end Kernel

end AnssOS
