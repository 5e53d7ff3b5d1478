import AnssOS.Exec.LoadFailure
import AnssOS.Exec.PipeRefs
import AnssOS.Mm.OutOfTables

/-!
# Forks that fail

`fork` can run out of memory in many places: for the PML4 of the clone, for one of its pages, for a table of
`map`, and for the kernel stack.  It then frees what it has copied, and this is everything it has taken.  Page
tables that could not be allocated do not stop it, but they show afterwards: page 0 is no longer reserved.
What it does not take back are the references that it has counted for the pipes of the child, so that a failed
`fork` changes nothing exactly if the parent has no pipes.

### Outline

* `alloc_of_none`: a failed allocation in the kernel heap changes nothing;
* `bumpTask_modEq`: the references that `fork` counts;
* `fork_fails`: what a failed `fork` leaves behind;
* `failed_fork_changes_nothing_iff`: it leaves everything as it was if and only if the parent has no pipes.
-/

namespace AnssOS

/-! ### The kernel heap -/

namespace Heap

theorem malloc_of_none {h : Heap} {p : Pmm} (hsound : p.Sound) {size : ℕ}
    (hnone : (h.malloc p size).1 = none) : (h.malloc p size).2 = (h, p) := by
  unfold malloc at hnone ⊢
  dsimp only at hnone ⊢
  generalize alignUp (max size 1) heapAlign = size at hnone ⊢
  rcases htake : takeFirst size h.blocks with - | ⟨ptr, blocks⟩
  · rw [htake] at hnone
    dsimp only at hnone ⊢
    unfold grow at hnone ⊢
    dsimp only at hnone ⊢
    generalize divCeil (heapHeader + size) pageSize = pages at hnone ⊢
    have hzero := Pmm.allocPages_zero (p := p) (n := pages) hsound
    rcases halloc : p.allocPages pages with ⟨phys, p'⟩
    rw [halloc] at hnone hzero
    dsimp only at hnone hzero ⊢
    by_cases hphys : phys = 0
    · rw [if_pos hphys, hzero hphys]
    · rw [if_neg hphys] at hnone
      cases hnone
  · rw [htake] at hnone
    cases hnone

/-- A failed allocation changes nothing. -/
theorem alloc_of_none {h : Heap} {p : Pmm} (hsound : p.Sound) {size align : ℕ}
    (hnone : (h.alloc p size align).1 = none) : (h.alloc p size align).2 = (h, p) := by
  unfold alloc at hnone ⊢
  by_cases halign : align ≤ heapAlign
  · rw [if_pos halign] at hnone ⊢
    exact malloc_of_none hsound hnone
  · rw [if_neg halign] at hnone ⊢
    have hmalloc : (h.malloc p (size + align)).1 = none → (h.malloc p (size + align)).2 = (h, p) :=
      malloc_of_none hsound
    rcases hcall : h.malloc p (size + align) with ⟨- | raw, h', p'⟩
    · rw [hcall] at hmalloc
      exact hmalloc rfl
    · rw [hcall] at hnone
      cases hnone

end Heap

namespace PhysMemory

theorem allocKernelStack_of_none {m m' : PhysMemory} (hsound : m.pmm.Sound)
    (hnone : m.allocKernelStack = (none, m')) : m' = m := by
  have hsame : (m.heap.alloc m.pmm kernelStackSize 16).1 = none →
      (m.heap.alloc m.pmm kernelStackSize 16).2 = (m.heap, m.pmm) := Heap.alloc_of_none hsound
  unfold allocKernelStack at hnone
  rcases halloc : m.heap.alloc m.pmm kernelStackSize 16 with ⟨- | base, heap, pmm⟩
  · rw [halloc] at hnone hsame
    obtain ⟨rfl, rfl⟩ := Prod.mk.inj (hsame rfl)
    exact (Prod.mk.inj hnone).2.symm
  · rw [halloc] at hnone
    cases hnone

end PhysMemory

/-! ### References to pipes -/

theorem wrapI32_modEq (x : ℤ) : wrapI32 x ≡ x [ZMOD 2 ^ 32] := by
  unfold wrapI32 Int.ModEq Int.bmod
  dsimp only
  split <;> omega

/-- The task has no pipe. -/
def Usertask.NoPipe (t : Usertask) : Prop :=
  (∀ j p w, t.openFiles j ≠ .pipe p w) ∧ t.stdinPipe = none ∧ t.stdoutPipe = none

theorem Usertask.noPipe_iff {t : Usertask} : t.NoPipe ↔ ∀ p w, t.refs p w = 0 := by
  constructor
  · rintro ⟨hfiles, hstdin, hstdout⟩ p w
    have hopen : t.openRefs p w = 0 := tally_eq_zero.mpr fun j => if_neg (hfiles j p w)
    rw [refs, hopen, stdioRefs, hstdin, hstdout]
    simp
  · intro h
    refine ⟨fun j p w hj => ?_, ?_, ?_⟩
    · exact (openRefs_pos hj).ne' (Nat.eq_zero_of_add_eq_zero (h p w)).1
    · by_contra hsome
      obtain ⟨p, hp⟩ := Option.ne_none_iff_exists'.mp hsome
      have hzero := (Nat.eq_zero_of_add_eq_zero (h p false)).2
      simp [stdioRefs, hp] at hzero
    · by_contra hsome
      obtain ⟨p, hp⟩ := Option.ne_none_iff_exists'.mp hsome
      have hzero := (Nat.eq_zero_of_add_eq_zero (h p true)).2
      simp [stdioRefs, hp] at hzero

namespace PipeHeap

/-! The counts are 32-bit integers, and `fork` does not look at them; they are what they should be up to
the multiples of `2 ^ 32`. -/

variable (h : PipeHeap) (p : ℕ) (w : Bool)

theorem refs_bump_modEq (q : ℕ) (e : Bool) :
    (h.bump q e).refs p w ≡ h.refs p w + (if p = q ∧ w = e then 1 else 0 : ℕ) [ZMOD 2 ^ 32] := by
  rw [bump, refs_modify]
  by_cases hp : p = q
  · subst hp
    rw [if_pos rfl]
    cases e <;> cases w
    · simpa [Pipe.endRefs, refs] using wrapI32_modEq ((h.cells p).pipe.readRefs + 1)
    · simp [Pipe.endRefs, refs]
    · simp [Pipe.endRefs, refs]
    · simpa [Pipe.endRefs, refs] using wrapI32_modEq ((h.cells p).pipe.writeRefs + 1)
  · simp [hp]

theorem refs_bumpFile_modEq (f : OpenFile) :
    (h.bumpFile f).refs p w ≡ h.refs p w + f.refs p w [ZMOD 2 ^ 32] := by
  cases f with
  | free | file => simp [bumpFile, OpenFile.refs]
  | pipe q e =>
    have hbump := h.refs_bump_modEq p w q e
    simpa [bumpFile, OpenFile.refs, eq_comm] using hbump

theorem refs_bumpOpt_modEq (q : Option ℕ) (e : Bool) :
    (h.bumpOpt q e).refs p w ≡ h.refs p w + (if q = some p ∧ w = e then 1 else 0 : ℕ) [ZMOD 2 ^ 32] := by
  cases q with
  | none => simp [bumpOpt]
  | some q =>
    have hbump := h.refs_bump_modEq p w q e
    simpa [bumpOpt, eq_comm] using hbump

theorem refs_bumpFiles_modEq (t : Usertask) (l : List (Fin maxOpenFiles)) :
    (l.foldl (fun h j => h.bumpFile (t.openFiles j)) h).refs p w ≡
      h.refs p w + listRefs t l p w [ZMOD 2 ^ 32] := by
  induction l generalizing h with
  | nil => simp [listRefs]
  | cons j l ih =>
    have hcons : listRefs t (j :: l) p w = (t.openFiles j).refs p w + listRefs t l p w := by
      simp [listRefs]
    have hfirst := (h.refs_bumpFile_modEq p w (t.openFiles j)).add_right (listRefs t l p w : ℤ)
    rw [List.foldl_cons, hcons, Nat.cast_add, ← add_assoc]
    exact (ih (h.bumpFile (t.openFiles j))).trans hfirst

/-- All references of the child are counted. -/
theorem refs_bumpTask_modEq (t : Usertask) :
    (h.bumpTask t).refs p w ≡ h.refs p w + t.refs p w [ZMOD 2 ^ 32] := by
  rw [bumpTask]
  have hfiles := h.refs_bumpFiles_modEq p w t (List.finRange maxOpenFiles)
  rw [listRefs_finRange] at hfiles
  generalize (List.finRange maxOpenFiles).foldl (fun h j => h.bumpFile (t.openFiles j)) h = h₁ at hfiles ⊢
  have hstdin := h₁.refs_bumpOpt_modEq p w t.stdinPipe false
  have hstdout := (h₁.bumpOpt t.stdinPipe false).refs_bumpOpt_modEq p w t.stdoutPipe true
  have hrefs : (t.refs p w : ℤ) = t.openRefs p w + (if t.stdinPipe = some p ∧ w = false then 1 else 0 : ℕ) +
      (if t.stdoutPipe = some p ∧ w = true then 1 else 0 : ℕ) := by
    rw [Usertask.refs, Usertask.stdioRefs]
    cases w <;> simp
  rw [hrefs, ← add_assoc, ← add_assoc]
  exact hstdout.trans ((hstdin.trans (hfiles.add_right _)).add_right _)

/-- The counts stay as they are only if the task has no pipe. -/
theorem refs_bumpTask_eq_iff (t : Usertask) :
    (∀ p w, (h.bumpTask t).refs p w = h.refs p w) ↔ t.NoPipe := by
  constructor
  · intro hsame
    refine Usertask.noPipe_iff.mpr fun p w => ?_
    have hmod := h.refs_bumpTask_modEq p w t
    rw [hsame] at hmod
    have hle := t.refs_le p w
    unfold Int.ModEq at hmod
    omega
  · rintro ⟨hfiles, hstdin, hstdout⟩ p w
    have hloop : ∀ l : List (Fin maxOpenFiles),
        l.foldl (fun h j => h.bumpFile (t.openFiles j)) h = h := by
      intro l
      induction l with
      | nil => rfl
      | cons j l ih =>
        have hfile : h.bumpFile (t.openFiles j) = h := by
          cases hj : t.openFiles j with
          | free | file => rfl
          | pipe q e => exact absurd hj (hfiles j q e)
        rw [List.foldl_cons, hfile, ih]
    rw [bumpTask, hloop, hstdin, hstdout]
    rfl

end PipeHeap

/-! ### Failed forks -/

namespace PhysMemory

variable {m m' : PhysMemory} {src dst : ℕ} {done : List (List ℕ × ℕ)}

theorem getOrCreate_heap (m : PhysMemory) (parent index : ℕ) :
    (m.getOrCreate parent index).2.heap = m.heap := by
  simp only [getOrCreate]
  split
  · rfl
  · rfl

theorem map_heap (m : PhysMemory) (pml4 virt phys flags : ℕ) :
    (m.map pml4 virt phys flags).heap = m.heap := by
  show (m.walkCreate pml4 virt).2.heap = m.heap
  rw [walkCreate_eq, getOrCreate_heap, getOrCreate_heap, getOrCreate_heap]

theorem cloneUserPages_heap (m : PhysMemory) (dst src : ℕ) : (m.cloneUserPages dst src).2.heap = m.heap := by
  rw [cloneUserPages_eq]
  refine leafLoop_failed (fun path e m' (hm' : m'.heap = m.heap) => ?_) rfl
  unfold cloneStep
  rcases m'.pmm.allocPage with ⟨copy, p⟩
  dsimp only
  split
  · exact hm'
  · rw [map_heap]
    exact hm'

theorem freeUserPages_ram (m : PhysMemory) (dst : ℕ) :
    (m.freeUserPages dst).ram = m.ram ∧ (m.freeUserPages dst).heap = m.heap ∧
      (m.freeUserPages dst).pmm.totalPages = m.pmm.totalPages := by
  rw [freeUserPages_eq]
  generalize m.userPages dst = pages
  induction pages generalizing m with
  | nil => exact ⟨rfl, rfl, rfl⟩
  | cons x pages ih =>
    obtain ⟨hram, hheap, htotal⟩ := ih (m.freePage x)
    exact ⟨hram, hheap, htotal.trans (m.totalPages_freePage x)⟩

end PhysMemory

theorem Pmm.free_iff_not_used {p : Pmm} (hzero : p.test 0 = true) {x : ℕ} :
    p.Free x ↔ (∃ page, x = page * pageSize ∧ page ≠ 0 ∧ page < p.totalPages) ∧ ¬ p.Used x := by
  constructor
  · rintro ⟨page, rfl, hlt, hfree⟩
    refine ⟨⟨page, rfl, ?_, hlt⟩, not_used_of_free hfree⟩
    rintro rfl
    rw [hzero] at hfree
    cases hfree
  · rintro ⟨⟨page, rfl, hne, hlt⟩, hnot⟩
    refine ⟨page, rfl, hlt, ?_⟩
    by_contra htest
    exact hnot ⟨page, rfl, hne, hlt, by simpa using htest⟩

namespace Kernel

open PhysMemory

variable {s s' : Kernel PhysMemory} {parent : SlotId}

/-- The pipes' counts, the processes, the pages of the parent and what they contain, the free pages and the
kernel heap are the same. -/
structure Unchanged (s : Kernel PhysMemory) (parent : SlotId) (s' : Kernel PhysMemory) : Prop where
  pipes : ∀ p w, s'.pipes.refs p w = s.pipes.refs p w
  processes : s'.processes = s.processes
  nextPid : s'.nextPid = s.nextPid
  tables : ∀ virt < 2 ^ 47, s'.mem.lookup (s.processes parent).task.aspace.pml4Phys virt =
    s.mem.lookup (s.processes parent).task.aspace.pml4Phys virt
  memory : ∀ a, ¬ s.mem.pmm.Free (pageOf a) → s'.mem.ram a = s.mem.ram a
  free : ∀ x, s'.mem.pmm.Free x ↔ s.mem.pmm.Free x
  heap : s'.mem.heap = s.mem.heap

/-- A failed `fork` finds no slot, or it frees the clone as far as it got. -/
theorem fork_fails (htree : UserTree s.mem (s.processes parent).task.aspace.pml4Phys)
    (hfail : s.fork parent = (none, s')) : (s.allocSlot = none ∧ s' = s) ∨
      ∃ i dst m₁, s.allocSlot = some i ∧ s.mem.newAddressSpace s.cr3.pml4Phys = (dst, m₁) ∧
        s' = { s with
          pipes := s.pipes.bumpTask (s.processes parent).task
          mem := (m₁.cloneUserPages dst (s.processes parent).task.aspace.pml4Phys).2.freeUserPages dst
          asLedger := s.asLedger.create.release s.asLedger.next } := by
  cases hslot : s.allocSlot with
  | none =>
    rw [fork, hslot] at hfail
    exact Or.inl ⟨rfl, (Prod.mk.inj hfail).2.symm⟩
  | some i =>
    rcases hnew : s.mem.newAddressSpace s.cr3.pml4Phys with ⟨dst, m₁⟩
    refine Or.inr ⟨i, dst, m₁, rfl, rfl, ?_⟩
    have hnew' : MemoryOps.newAddressSpace s.mem s.cr3.pml4Phys = (dst, m₁) := hnew
    have hsound : (m₁.cloneUserPages dst (s.processes parent).task.aspace.pml4Phys).2.pmm.Sound := by
      rcases htree.clone_or_outOfTables hnew with ⟨done, hclone⟩ | hout
      · exact hclone.own.sound
      · exact hout.sound
    rcases hclone : m₁.cloneUserPages dst (s.processes parent).task.aspace.pml4Phys with ⟨- | -, m₂⟩
    · have hclone' : MemoryOps.cloneUserPages m₁ dst (s.processes parent).task.aspace.pml4Phys =
          (false, m₂) := hclone
      simp only [fork, hslot, hnew', hclone'] at hfail
      exact (Prod.mk.inj hfail).2.symm
    · have hclone' : MemoryOps.cloneUserPages m₁ dst (s.processes parent).task.aspace.pml4Phys =
          (true, m₂) := hclone
      rw [hclone] at hsound
      rcases hstack : m₂.allocKernelStack with ⟨- | top, m₃⟩
      · have hstack' : MemoryOps.allocKernelStack m₂ = (none, m₃) := hstack
        obtain rfl := allocKernelStack_of_none hsound hstack
        simp only [fork, hslot, hnew', hclone', hstack'] at hfail
        exact (Prod.mk.inj hfail).2.symm
      · have hstack' : MemoryOps.allocKernelStack m₂ = (some top, m₃) := hstack
        simp only [fork, hslot, hnew', hclone', hstack'] at hfail
        cases (Prod.mk.inj hfail).1

/-- **A failed fork changes nothing** if, and only if, there was no free slot or the parent has no pipe. -/
theorem failed_fork_changes_nothing_iff (parent : SlotId)
    (htree : UserTree s.mem (s.processes parent).task.aspace.pml4Phys)
    (hfail : s.fork parent = (none, s')) (hzero : s'.mem.pmm.test 0 = true) :
    Unchanged s parent s' ↔ s.allocSlot = none ∨ (s.processes parent).task.NoPipe := by
  rcases fork_fails htree hfail with ⟨hslot, rfl⟩ | ⟨i, dst, m₁, hslot, hnew, rfl⟩
  · exact ⟨fun _ => Or.inl hslot, fun _ => ⟨fun _ _ => rfl, rfl, rfl, fun _ _ => rfl, fun _ _ => rfl,
      fun _ => Iff.rfl, rfl⟩⟩
  have hpipes := s.pipes.refs_bumpTask_eq_iff (s.processes parent).task
  have hcond : s.allocSlot = none ∨ (s.processes parent).task.NoPipe ↔
      (s.processes parent).task.NoPipe := by simp [hslot]
  rw [hcond, ← hpipes]
  refine ⟨fun h => h.pipes, fun h => ?_⟩
  generalize hsrc : (s.processes parent).task.aspace.pml4Phys = src at *
  have hheap : m₁.heap = s.mem.heap := by
    have hm₁ : (s.mem.newAddressSpace s.cr3.pml4Phys).2 = m₁ := congrArg Prod.snd hnew
    rw [← hm₁]
    rfl
  obtain ⟨hram, hheap', htotal⟩ := freeUserPages_ram (m₁.cloneUserPages dst src).2 dst
  rcases htree.clone_or_outOfTables hnew with ⟨done, hclone⟩ | hout
  · refine ⟨h, rfl, rfl, fun virt hvirt => ?_, fun a ha => ?_, fun x => ?_, ?_⟩
    · rw [hsrc]
      exact htree.lookup_of_kept (fun a ha => (congrFun hram a).trans (hclone.kept a ha)) hvirt
    · exact (congrFun hram a).trans (hclone.unchanged ha)
    · rw [Pmm.free_iff_not_used hzero, Pmm.free_iff_not_used htree.own.sound.zero,
        hclone.used_freeUserPages]
      dsimp only
      rw [htotal, hclone.total]
    · exact hheap'.trans ((cloneUserPages_heap m₁ dst src).trans hheap)
  · rw [hout.freeUserPages] at hzero
    cases hzero

/-- A memory of nine pages, four of them in use; an address space with one page takes four more. -/
def ninePages : PhysMemory := { upperHalf with pmm := ⟨fun page => page < 4, 9, 5, 0⟩ }

/-- A process without pipes in such an address space. -/
def oneProcess : Kernel PhysMemory :=
  (Kernel.boot ([.newAddressSpace none, .map 0 0 12288 7].foldl (Spaces.call 4096) ⟨ninePages, []⟩).mem
    ⟨4096, 0⟩ 0).setProcess 0
      { Process.empty with state := .running, task := { Usertask.empty with aspace := ⟨16384, 0⟩ } }

/-- The theorem, where the page left is taken for the PML4 of the clone. -/
theorem failed_fork_changes_nothing_iff_of_one_process :
    (oneProcess.fork 0).1 = none ∧ Unchanged oneProcess 0 (oneProcess.fork 0).2 := by
  have hmapped : ninePages.KernelMapped 4096 := by
    refine ⟨⟨by decide, by decide, by decide⟩, ⟨1, by decide⟩, fun t ht => ?_⟩
    have ht : upperHalf.KernelTable 4096 t := ht
    rw [upperHalf_kernelTable ht]
    exact ⟨2, by decide⟩
  have htree : UserTree oneProcess.mem 16384 :=
    userTree_of_one_page hmapped rfl (by simp [SpaceCall.Valid, pageSize]) (by decide +kernel)
      (by decide +kernel) (by decide +kernel)
  have hnone : (oneProcess.fork 0).1 = none := by decide +kernel
  have hzero : (oneProcess.fork 0).2.mem.pmm.test 0 = true := by decide +kernel
  rcases hfork : oneProcess.fork 0 with ⟨pid, s'⟩
  rw [hfork] at hnone hzero
  obtain rfl : pid = none := hnone
  refine ⟨rfl, (failed_fork_changes_nothing_iff 0 htree hfork hzero).mpr (Or.inr ⟨?_, rfl, rfl⟩)⟩
  intro j p w hj
  cases hj

/-- A program with one page in use, besides its stack, makes a pipe and calls `fork` with one page left.  The
call fails, and there are now two references to each end of the pipe, which has one holder. -/
theorem failed_fork_counts_references :
    ∃ s, (kernelSystem PhysMemory ⟨0, 0⟩).Reachable TransitionSystem.anyStep s ∧
      s.current = some 0 ∧ (s.fork 0).1 = none ∧ (s.fork 0).2.mem.pmm.test 0 = true ∧
      (∀ w, s.pipes.refs 0 w = 1) ∧ ∀ w, (s.fork 0).2.pipes.refs 0 w = 2 :=
  (kernelSystem PhysMemory ⟨0, 0⟩).exists_of_run (s := Kernel.boot (freshPages 31) ⟨0, 0⟩ 0)
    ⟨freshPages 31, 0, rfl⟩ [.spawn (oneSegment 0) [] none, .runUntil, .round, .user (.pipe 0)]
    (by decide +kernel)

end Kernel

end AnssOS
