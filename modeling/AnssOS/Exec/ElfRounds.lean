import AnssOS.Exec.Elf
import AnssOS.Mm.PageOwnership

/-!
# The rounds of the loader

What the ELF loader does, round by round: the pages of a segment are filled and put in place one
after the other, then the user stack, which is treated like a segment without bytes in the file.  A
table that could not be allocated is counted, so that no round lowers the number of failures.

### Outline

* `segmentPages`, `stackPages`: the memory after some pages of a segment, or of the stack;
* the loop over the program headers;
* `load_eq_some`: how the loader succeeds.
-/

namespace AnssOS

open List Option

/-- Every segment of the image that is loaded ends in the lower half of the address space. -/
def ImageFits (image : List UInt8) : Prop :=
  ∀ i < (Ehdr.read image).phnum, ((Ehdr.read image).phdr image i).type = ptLoad →
    ((Ehdr.read image).phdr image i).vaddr + ((Ehdr.read image).phdr image i).memsz ≤ 2 ^ 47

theorem ImageFits.headers {image : List UInt8} (h : ImageFits image) :
    ∀ ph ∈ (List.range (Ehdr.read image).phnum).map ((Ehdr.read image).phdr image),
      ph.type = ptLoad → ph.vaddr + ph.memsz ≤ 2 ^ 47 := by
  intro ph hph
  obtain ⟨i, hi, rfl⟩ := List.mem_map.mp hph
  exact h i (mem_range.mp hi)

namespace PhysMemory

open Pmm (pageRun)

/-! ### Runs of pages -/

theorem pageRun_zero (base : ℕ) : pageRun base 0 = ∅ := by simp [pageRun]

theorem pageRun_succ (base n : ℕ) :
    pageRun base (n + 1) = insert base (pageRun (base + pageSize) n) := by
  ext x
  constructor
  · rintro ⟨k, hk, rfl⟩
    cases k with
    | zero => exact Or.inl (by simp)
    | succ k => exact Or.inr ⟨k, by omega, by rw [Nat.succ_mul]; omega⟩
  · rintro (rfl | ⟨k, hk, rfl⟩)
    · exact ⟨0, by omega, by simp⟩
    · exact ⟨k + 1, by omega, by rw [Nat.succ_mul]; omega⟩

/-- A loop whose rounds do not lower the number of failures. -/
theorem tableFailures_le_foldl {α : Type*} {f : PhysMemory → α → PhysMemory} (is : List α)
    (hmono : ∀ m i, m.tableFailures ≤ (f m i).tableFailures) (m : PhysMemory) :
    m.tableFailures ≤ (is.foldl f m).tableFailures := by
  induction is generalizing m with
  | nil => exact le_rfl
  | cons i is ih => exact (hmono m i).trans (ih (f m i))

variable {a aspace basePhys n stackPhys : ℕ} {p : Pmm} {ph : Phdr} {st st' : Loading}

/-! ### Segments -/

/-- The pages of a segment. -/
def vpages (ph : Phdr) : Set ℕ := {v | ∃ p < ph.pages, v = ph.segStart + p * pageSize}

theorem tableFailures_le_loadPage (aspace : ℕ) (loaded : List Segment) (ph : Phdr)
    (basePhys p : ℕ) (m : PhysMemory) :
    m.tableFailures ≤ (loadPage aspace loaded ph basePhys p m).tableFailures := by
  unfold loadPage
  dsimp only
  split
  · exact m.tableFailures_le_map _ _ _ _
  · exact le_rfl

/-- Where the pages of a segment that fits are. -/
theorem segment_bounds (hfit : ph.vaddr + ph.memsz ≤ 2 ^ 47) :
    ph.segEnd = ph.vaddr + ph.memsz ∧ ph.segStart ≤ ph.vaddr ∧ ph.vaddr < ph.segStart + pageSize ∧
      (∀ p < ph.pages, ph.segStart + p * pageSize < ph.vaddr + ph.memsz) ∧
      ph.vaddr - ph.segStart + ph.memsz ≤ ph.pages * pageSize ∧
      ph.segStart + ph.pages * pageSize < 2 ^ 64 := by
  simp only [Phdr.pages, Phdr.segEnd, Phdr.segStart, divCeil, pageSize]
  have hend : (ph.vaddr + ph.memsz) % 2 ^ 64 = ph.vaddr + ph.memsz := by omega
  rw [hend]
  have hsize : (ph.vaddr + ph.memsz + 2 ^ 64 - ph.vaddr / 4096 * 4096) % 2 ^ 64 =
      ph.vaddr + ph.memsz - ph.vaddr / 4096 * 4096 := by omega
  rw [hsize]
  refine ⟨rfl, by omega, by omega, fun p hp => by omega, by omega, by omega⟩

theorem fillSegment_of_outside {image : List UInt8} {m : PhysMemory}
    (hfit : ph.vaddr + ph.memsz ≤ 2 ^ 47) (hsize : ph.filesz ≤ ph.memsz)
    (ha : a < basePhys ∨ basePhys + ph.pages * pageSize ≤ a) :
    (fillSegment image ph basePhys m).ram a = m.ram a := by
  obtain ⟨-, -, -, -, hpages, -⟩ := segment_bounds hfit
  have hlen : (imageBytes image ph.offset ph.filesz).length = ph.filesz := by simp [imageBytes]
  unfold fillSegment
  dsimp only
  rw [ByteMemory.writeBytes_of_outside (by omega), ByteMemory.fillBytes_of_outside ha]

/-- The memory after `n` pages of a segment. -/
def segmentPages (image : List UInt8) (aspace : ℕ) (loaded : List Segment) (ph : Phdr)
    (basePhys n : ℕ) (m : PhysMemory) : PhysMemory :=
  (List.range n).foldl (fun m p => loadPage aspace loaded ph basePhys p m)
    (fillSegment image ph basePhys m)

theorem tableFailures_le_segmentPages (image : List UInt8) (aspace : ℕ) (loaded : List Segment)
    (ph : Phdr) (basePhys n : ℕ) (m : PhysMemory) :
    m.tableFailures ≤ (segmentPages image aspace loaded ph basePhys n m).tableFailures :=
  tableFailures_le_foldl (List.range n)
    (fun m p => m.tableFailures_le_loadPage aspace loaded ph basePhys p)
    (fillSegment image ph basePhys m)

/-- The pages of the segments among some program headers. -/
def segmentsPages (phs : List Phdr) : Set ℕ := {v | ∃ ph ∈ phs, ph.type = ptLoad ∧ v ∈ vpages ph}

/-! ### The stack -/

/-- The memory after `n` pages of the user stack. -/
def stackPages (aspace stackPhys n : ℕ) (m : PhysMemory) : PhysMemory :=
  (List.range n).foldl (fun m p =>
      m.map aspace (stackBase + p * pageSize) (stackPhys + p * pageSize) userFlags)
    { m with ram := m.ram.fillBytes stackPhys (userStackPages * pageSize) 0 }

theorem mapStack_eq (m : PhysMemory) (aspace stackPhys : ℕ) :
    m.mapStack aspace stackPhys = stackPages aspace stackPhys userStackPages m := rfl

theorem tableFailures_le_stackPages (m : PhysMemory) (aspace stackPhys n : ℕ) :
    m.tableFailures ≤ (stackPages aspace stackPhys n m).tableFailures := by
  unfold stackPages
  exact tableFailures_le_foldl _ (fun m p => m.tableFailures_le_map _ _ _ _)
    { m with ram := m.ram.fillBytes stackPhys (userStackPages * pageSize) 0 }

/-- The addresses of the first `n` pages of the user stack. -/
def stackVpages (n : ℕ) : Set ℕ := {v | ∃ p < n, v = stackBase + p * pageSize}

/-- The stack, as a segment without bytes in the file. -/
def stackPhdr : Phdr := ⟨ptLoad, 0, stackBase, 0, userStackPages * pageSize⟩

theorem pages_stackPhdr : stackPhdr.pages = userStackPages := by decide

theorem segStart_stackPhdr : stackPhdr.segStart = stackBase := by decide

theorem stackPages_eq (aspace stackPhys : ℕ) (hn : n ≤ userStackPages) (m : PhysMemory) :
    stackPages aspace stackPhys n m = segmentPages [] aspace [] stackPhdr stackPhys n m := by
  have hfill : fillSegment [] stackPhdr stackPhys m =
      { m with ram := m.ram.fillBytes stackPhys (userStackPages * pageSize) 0 } := by
    have hnone : ∀ (ram : ByteMemory) (a : ℕ), ram.writeBytes a [] = ram := fun ram a =>
      funext fun x => ByteMemory.writeBytes_of_outside (by simp; omega)
    unfold fillSegment
    rw [pages_stackPhdr]
    exact congrArg (fun ram => { m with ram := ram }) (hnone _ _)
  unfold stackPages segmentPages
  rw [hfill]
  refine foldl_ext _ _ _ fun m p hp => ?_
  have hp := mem_range.mp hp
  have hmod : (stackBase + p * pageSize) % 2 ^ 64 = stackBase + p * pageSize := by
    unfold stackBase userStackTop userStackPages pageSize at *
    omega
  unfold loadPage
  rw [segStart_stackPhdr, hmod]
  rfl

theorem pushArgs_spec (stackPhys : ℕ) (args : List (List UInt8)) (ram : ByteMemory)
    (hlen : args.length * maxArgLen ≤ userStackPages * pageSize) :
    userStackTop ≤ (pushArgs stackPhys args ram).2.1 + args.length * maxArgLen ∧
      (pushArgs stackPhys args ram).2.1 ≤ userStackTop ∧
      (pushArgs stackPhys args ram).2.2.length = args.length ∧
      ∀ a, a < stackPhys ∨ stackPhys + userStackPages * pageSize ≤ a →
        (pushArgs stackPhys args ram).1 a = ram a := by
  induction args with
  | nil => exact ⟨by simp [pushArgs], le_rfl, rfl, fun _ _ => rfl⟩
  | cons arg args ih =>
    rw [length_cons, Nat.succ_mul] at hlen ⊢
    have ih := ih (by omega)
    rw [pushArgs]
    generalize pushArgs stackPhys args ram = pushed at ih ⊢
    obtain ⟨ram', sp, ptrs⟩ := pushed
    obtain ⟨hge, hle, hptrs, hram⟩ := ih
    dsimp only at hge hle hptrs hram ⊢
    have harg : (arg.take (maxArgLen - 1)).length + 1 ≤ maxArgLen := by
      rw [length_take]
      unfold maxArgLen
      omega
    refine ⟨by omega, by omega, by rw [length_cons, hptrs], fun a ha => ?_⟩
    rw [← hram a ha]
    refine ByteMemory.writeBytes_of_outside ?_
    rw [length_append, length_singleton]
    unfold stackBase userStackTop userStackPages pageSize at *
    omega

theorem writeWords_of_outside {ram : ByteMemory} {a x : ℕ} {ws : List ℕ}
    (h : x < a ∨ a + 8 * ws.length ≤ x) : writeWords ram a ws x = ram x := by
  refine List.foldlRecOn (motive := fun ram' : ByteMemory => ram' x = ram x) ws.zipIdx _ rfl
    fun ram' hram ⟨w, k⟩ hmem => ?_
  have hk : k < ws.length := (mem_zipIdx' hmem).1
  rw [← hram]
  exact ByteMemory.writeWord_of_outside (by omega)

/-- The initial stack stays within the pages of the user stack. -/
theorem initStack_of_outside {m : PhysMemory} {argv : List (List UInt8)}
    (ha : a < stackPhys ∨ stackPhys + userStackPages * pageSize ≤ a) :
    (m.initStack stackPhys argv).2.ram a = m.ram a := by
  have hlen : (argv.take maxArgs).length ≤ maxArgs := length_take_le _ _
  have hfit : (argv.take maxArgs).length * maxArgLen ≤ userStackPages * pageSize := by
    unfold maxArgs maxArgLen userStackPages pageSize at *
    omega
  have hspec := pushArgs_spec stackPhys (argv.take maxArgs) m.ram hfit
  unfold initStack
  dsimp only
  generalize pushArgs stackPhys (argv.take maxArgs) m.ram = pushed at hspec ⊢
  obtain ⟨ram, sp, ptrs⟩ := pushed
  obtain ⟨hge, hle, hptrs, hram⟩ := hspec
  dsimp only at hge hle hptrs hram ⊢
  split
  · exact hram a ha
  · rename_i hsp
    dsimp only
    rw [writeWords_of_outside ?_, hram a ha]
    rw [length_append, length_cons, hptrs]
    simp only [length_cons, length_nil]
    unfold stackBase userStackTop userStackPages pageSize maxArgs maxArgLen at *
    omega

theorem initStack_pmm (m : PhysMemory) (stackPhys : ℕ) (argv : List (List UInt8)) :
    (m.initStack stackPhys argv).2.pmm = m.pmm ∧
      (m.initStack stackPhys argv).2.tableFailures = m.tableFailures := by
  simp only [initStack]
  split <;> exact ⟨rfl, rfl⟩

theorem allocKernelStack_tableFailures (m : PhysMemory) :
    m.allocKernelStack.2.tableFailures = m.tableFailures := rfl

/-! ### The end of the loader -/

/-- What `finishLoad` can do, with the pages `stackPhys` from the allocator. -/
theorem finishLoad_cases (eh : Ehdr) (aspace : ℕ) (argv : List (List UInt8))
    (halloc : st.mem.pmm.allocPages userStackPages = (stackPhys, p)) :
    (stackPhys = 0 ∧ finishLoad eh aspace argv st = (none, { st.mem with pmm := p })) ∨
    (stackPhys ≠ 0 ∧ ∃ m,
      m = ({ st.mem with pmm := p }.mapStack aspace stackPhys).allocKernelStack.2 ∧
      ((finishLoad eh aspace argv st).2 = m ∨
        (finishLoad eh aspace argv st).2 = (m.initStack stackPhys argv).2) ∧
      ∀ img, (finishLoad eh aspace argv st).1 = some img → img.pml4Phys = aspace ∧
        (img.heapBase = if st.heapBase = 0 then 0x600000 else st.heapBase) ∧
        m.initStack stackPhys argv = (some img.userStackTop, (finishLoad eh aspace argv st).2)) := by
  unfold finishLoad
  rw [halloc]
  dsimp only
  generalize PhysMemory.mapStack { st.mem with pmm := p } aspace stackPhys = mapped
  by_cases hzero : stackPhys = 0
  · exact Or.inl ⟨hzero, if_pos hzero⟩
  refine Or.inr ⟨hzero, _, rfl, ?_⟩
  rw [if_neg hzero]
  generalize mapped.allocKernelStack = stack
  obtain ⟨_ | top, m⟩ := stack
  · exact ⟨Or.inl rfl, by simp⟩
  dsimp only
  generalize m.initStack stackPhys argv = init
  obtain ⟨_ | sp, m'⟩ := init
  · exact ⟨Or.inr rfl, by simp⟩
  · refine ⟨Or.inr rfl, fun img himg => ?_⟩
    cases himg
    exact ⟨rfl, rfl, rfl⟩

/-- The address space of a program is the new one, its heap begins behind the segments, and the last
thing that the loader does is to lay out the stack. -/
theorem finishLoad_eq_some {eh : Ehdr} {argv : List (List UInt8)}
    {img : LoadedImage} (h : (PhysMemory.finishLoad eh aspace argv st).1 = some img) :
    img.pml4Phys = aspace ∧
      (img.heapBase = if st.heapBase = 0 then 0x600000 else st.heapBase) ∧
      ∃ (stackPhys : ℕ) (m : PhysMemory), m.initStack stackPhys argv =
        (some img.userStackTop, (PhysMemory.finishLoad eh aspace argv st).2) := by
  rcases halloc : st.mem.pmm.allocPages userStackPages with ⟨stackPhys, p⟩
  rcases finishLoad_cases eh aspace argv halloc with ⟨rfl, heq⟩ | ⟨-, m, -, -, himg⟩
  · rw [heq] at h
    cases h
  · obtain ⟨haspace, hheap, hinit⟩ := himg img h
    exact ⟨haspace, hheap, stackPhys, m, hinit⟩

/-! ### The loop over the program headers -/

section Headers

variable {image : List UInt8} {done : List Phdr}

/-- The memory after a round of the loop. -/
def loadedMem : Except PhysMemory Loading → PhysMemory
  | .ok st => st.mem
  | .error m => m

/-- What a round that does not fail does. -/
theorem loadSegment_eq_ok (h : loadSegment image aspace st ph = .ok st') :
    (ph.type ≠ ptLoad ∧ st' = st) ∨ (ph.type = ptLoad ∧ ∃ basePhys pmm,
      (ph.filesz ≤ ph.memsz ∧ basePhys ≠ 0) ∧
      st.mem.pmm.allocPages ph.pages = (basePhys, pmm) ∧ st' = {
        mem := segmentPages image aspace st.loaded ph basePhys ph.pages { st.mem with pmm := pmm }
        heapBase := max st.heapBase ((ph.segStart + ph.pages * pageSize) % 2 ^ 64)
        loaded := if st.loaded.length < maxLoadSegments then
            st.loaded ++ [⟨ph.segStart, ph.pages, basePhys⟩]
          else st.loaded }) := by
  unfold loadSegment at h
  split at h
  · rename_i htype
    exact Or.inl ⟨htype, (Except.ok.inj h).symm⟩
  rename_i htype
  split at h
  · cases h
  rename_i hsize
  rcases halloc : st.mem.pmm.allocPages ph.pages with ⟨basePhys, pmm⟩
  rw [halloc] at h
  dsimp only at h
  split at h
  · cases h
  · rename_i hbase
    exact Or.inr ⟨not_not.mp htype, basePhys, pmm, ⟨by omega, hbase⟩, rfl,
      (Except.ok.inj h).symm⟩

theorem foldlM_cons_eq_ok
    (h : (ph :: done).foldlM (loadSegment image aspace) st = .ok st') :
    ∃ st₁, loadSegment image aspace st ph = .ok st₁ ∧
      done.foldlM (loadSegment image aspace) st₁ = .ok st' := by
  rw [foldlM_cons] at h
  cases hround : loadSegment image aspace st ph with
  | error m =>
    rw [hround] at h
    cases h
  | ok st₁ =>
    rw [hround] at h
    exact ⟨st₁, rfl, h⟩

/-- A round that fails changes nothing but the allocator. -/
theorem loadSegment_eq_error {m : PhysMemory} (h : loadSegment image aspace st ph = .error m) :
    m.ram = st.mem.ram ∧ m.tableFailures = st.mem.tableFailures := by
  unfold loadSegment at h
  split at h
  · cases h
  split at h
  · rw [← Except.error.inj h]
    exact ⟨rfl, rfl⟩
  rcases halloc : st.mem.pmm.allocPages ph.pages with ⟨basePhys, pmm⟩
  rw [halloc] at h
  dsimp only at h
  split at h
  · rw [← Except.error.inj h]
    exact ⟨rfl, rfl⟩
  · cases h

/-- If the loop fails, the rounds before that did not. -/
theorem foldlM_eq_error {m : PhysMemory}
    (h : done.foldlM (loadSegment image aspace) st = .error m) :
    ∃ before st', before <+: done ∧ before.foldlM (loadSegment image aspace) st = .ok st' ∧
      m.ram = st'.mem.ram ∧ m.tableFailures = st'.mem.tableFailures := by
  induction done generalizing st with
  | nil => cases h
  | cons ph done ih =>
    rw [foldlM_cons] at h
    cases hround : loadSegment image aspace st ph with
    | error m₁ =>
      rw [hround] at h
      cases h
      exact ⟨[], st, nil_prefix, rfl, loadSegment_eq_error hround⟩
    | ok st₁ =>
      rw [hround] at h
      obtain ⟨before, st', hprefix, hbefore, hsame⟩ := ih h
      refine ⟨ph :: before, st', cons_prefix_cons.mpr ⟨rfl, hprefix⟩, ?_, hsame⟩
      rw [foldlM_cons, hround]
      exact hbefore

/-- The heap is to begin behind the segments loaded so far. -/
theorem heapBase_of_foldlM (h : done.foldlM (loadSegment image aspace) st = .ok st') :
    st.heapBase ≤ st'.heapBase ∧ (st.heapBase % pageSize = 0 → st'.heapBase % pageSize = 0) ∧
      ∀ ph ∈ done, ph.type = ptLoad →
        (ph.segStart + ph.pages * pageSize) % 2 ^ 64 ≤ st'.heapBase := by
  induction done generalizing st with
  | nil =>
    obtain rfl := Except.ok.inj h
    simp
  | cons ph done ih =>
    obtain ⟨st₁, hround, hrest⟩ := foldlM_cons_eq_ok h
    obtain ⟨hle, haligned, hall⟩ := ih hrest
    rcases loadSegment_eq_ok hround with ⟨htype, rfl⟩ | ⟨-, basePhys, pmm, -, -, rfl⟩
    · refine ⟨hle, haligned, fun ph' hph' htype' => ?_⟩
      rcases mem_cons.mp hph' with rfl | hph'
      · exact absurd htype' htype
      · exact hall ph' hph' htype'
    · dsimp only at hle haligned
      refine ⟨le_trans (le_max_left _ _) hle, fun hstart => haligned ?_, fun ph' hph' htype' => ?_⟩
      · have hend : (ph.segStart + ph.pages * pageSize) % 2 ^ 64 % pageSize = 0 := by
          rw [Phdr.segStart, ← Nat.add_mul]
          unfold pageSize
          omega
        rcases max_choice st.heapBase ((ph.segStart + ph.pages * pageSize) % 2 ^ 64) with hmax | hmax
        · rwa [hmax]
        · rwa [hmax]
      · rcases mem_cons.mp hph' with rfl | hph'
        · exact le_trans (le_max_right _ _) hle
        · exact hall ph' hph' htype'

/-- The number of segments among some program headers. -/
def segmentCount (phs : List Phdr) : ℕ := phs.countP fun ph => ph.type = ptLoad

/-! ### Failures are counted -/

theorem tableFailures_le_segmentPages_of_le (image : List UInt8) (aspace : ℕ)
    (loaded : List Segment) (ph : Phdr) (basePhys : ℕ) (m : PhysMemory) {p n : ℕ} (h : p ≤ n) :
    (segmentPages image aspace loaded ph basePhys p m).tableFailures ≤
      (segmentPages image aspace loaded ph basePhys n m).tableFailures := by
  induction n, h using Nat.le_induction with
  | base => exact le_rfl
  | succ n _ ih =>
    refine ih.trans ?_
    unfold segmentPages
    rw [range_succ, foldl_append, foldl_cons, foldl_nil]
    exact tableFailures_le_loadPage _ _ _ _ _ _

theorem tableFailures_le_stackPages_of_le (aspace stackPhys : ℕ) (m : PhysMemory) {p n : ℕ}
    (h : p ≤ n) (hn : n ≤ userStackPages) : (stackPages aspace stackPhys p m).tableFailures ≤
      (stackPages aspace stackPhys n m).tableFailures := by
  rw [stackPages_eq _ _ hn, stackPages_eq _ _ (h.trans hn)]
  exact tableFailures_le_segmentPages_of_le _ _ _ _ _ _ h

theorem tableFailures_le_loadSegment (image : List UInt8) (aspace : ℕ) (st : Loading) (ph : Phdr) :
    st.mem.tableFailures ≤ (loadedMem (loadSegment image aspace st ph)).tableFailures := by
  cases hseg : loadSegment image aspace st ph with
  | error m => exact (loadSegment_eq_error hseg).2.ge
  | ok st' =>
    rw [loadedMem]
    rcases loadSegment_eq_ok hseg with ⟨-, rfl⟩ | ⟨-, basePhys, pmm, -, -, rfl⟩
    · exact le_rfl
    · exact tableFailures_le_segmentPages image aspace st.loaded ph basePhys ph.pages
        { st.mem with pmm := pmm }

theorem tableFailures_le_loadSegments (image : List UInt8) (aspace : ℕ) (phs : List Phdr)
    (st : Loading) : st.mem.tableFailures ≤
      (loadedMem (phs.foldlM (loadSegment image aspace) st)).tableFailures := by
  induction phs generalizing st with
  | nil => exact le_rfl
  | cons ph phs ih =>
    have hround := tableFailures_le_loadSegment image aspace st ph
    rw [foldlM_cons]
    cases hseg : loadSegment image aspace st ph with
    | error m =>
      rw [hseg] at hround
      exact hround
    | ok st₁ =>
      rw [hseg] at hround
      change _ ≤ (loadedMem (phs.foldlM (loadSegment image aspace) st₁)).tableFailures
      exact le_trans hround (ih st₁)

theorem tableFailures_le_finishLoad (eh : Ehdr) (aspace : ℕ) (argv : List (List UInt8))
    (halloc : st.mem.pmm.allocPages userStackPages = (stackPhys, p)) (hbase : stackPhys ≠ 0) :
    (stackPages aspace stackPhys userStackPages { st.mem with pmm := p }).tableFailures ≤
      (finishLoad eh aspace argv st).2.tableFailures := by
  rcases finishLoad_cases eh aspace argv halloc with ⟨hzero, -⟩ | ⟨-, m, hm, hmem, -⟩
  · exact absurd hzero hbase
  have hsame : m.tableFailures =
      (stackPages aspace stackPhys userStackPages { st.mem with pmm := p }).tableFailures := by
    rw [hm, allocKernelStack_tableFailures, mapStack_eq]
  rcases hmem with hmem | hmem
  · rw [hmem, hsame]
  · rw [hmem, (m.initStack_pmm stackPhys argv).2, hsame]

end Headers

/-! ### The pages of a program -/

/-- Addresses of pages of the lower half. -/
def LowerPages (virts : Set ℕ) : Prop := ∀ v ∈ virts, v < 2 ^ 47 ∧ v % pageSize = 0

/-- The first `n` pages of a heap that begins at `start`. -/
def heapVpages (start n : ℕ) : Set ℕ := {v | ∃ k < n, v = start + k * pageSize}

theorem heapVpages_succ (start n : ℕ) :
    heapVpages start (n + 1) = heapVpages start n ∪ {start + n * pageSize} := by
  ext v
  simp only [heapVpages, Set.mem_ofPred_eq, Set.mem_union, Set.mem_singleton_iff,
    Nat.lt_succ_iff_lt_or_eq]
  constructor
  · rintro ⟨k, hk | rfl, rfl⟩
    · exact Or.inl ⟨k, hk, rfl⟩
    · exact Or.inr rfl
  · rintro (⟨k, hk, rfl⟩ | rfl)
    · exact ⟨k, Or.inl hk, rfl⟩
    · exact ⟨n, Or.inr rfl, rfl⟩

/-! ### The whole loader -/

/-- The program headers of an image. -/
def headers (image : List UInt8) : List Phdr :=
  (List.range (Ehdr.read image).phnum).map ((Ehdr.read image).phdr image)

variable {image : List UInt8} {argv : List (List UInt8)} {m b : PhysMemory} {cr3 : ℕ}

/-- How the loader ends, once the ELF header is accepted. -/
theorem load_eq (argv : List (List UInt8))
    (hsupported : ¬ (image.length < ehdrSize ∨ ¬ (Ehdr.read image).supported image))
    (hnew : m.newAddressSpace cr3 = (aspace, b)) : m.load cr3 image argv =
      match (headers image).foldlM (loadSegment image aspace) ⟨b, 0, []⟩ with
      | .error m => (none, m)
      | .ok st => finishLoad (Ehdr.read image) aspace argv st := by
  unfold load
  dsimp only
  rw [if_neg hsupported, hnew]
  rfl

theorem tableFailures_newAddressSpace (hnew : m.newAddressSpace cr3 = (aspace, b)) :
    m.tableFailures ≤ b.tableFailures := by
  have hle := m.tableFailures_le_allocTable
  have hsame : b.tableFailures = m.allocTable.2.tableFailures := by
    rw [← congrArg (·.2.tableFailures) hnew]
    rfl
  rwa [hsame]

/-- No table fails on the way to the end of the loader. -/
theorem tableFailures_le_load (argv : List (List UInt8))
    (hsupported : ¬ (image.length < ehdrSize ∨ ¬ (Ehdr.read image).supported image))
    (hnew : m.newAddressSpace cr3 = (aspace, b)) :
    (loadedMem ((headers image).foldlM (loadSegment image aspace) ⟨b, 0, []⟩)).tableFailures ≤
      (m.load cr3 image argv).2.tableFailures := by
  rw [load_eq argv hsupported hnew]
  cases (headers image).foldlM (loadSegment image aspace) ⟨b, 0, []⟩ with
  | error m => exact le_rfl
  | ok st =>
    rw [loadedMem]
    dsimp only
    rcases halloc : st.mem.pmm.allocPages userStackPages with ⟨stackPhys, p⟩
    rcases finishLoad_cases (Ehdr.read image) aspace argv halloc with ⟨-, heq⟩ | ⟨hbase, -⟩
    · rw [heq]
    · exact (tableFailures_le_stackPages { st.mem with pmm := p } aspace stackPhys _).trans
        (tableFailures_le_finishLoad (Ehdr.read image) aspace argv halloc hbase)

/-- How the loader succeeds, with the failures of tables on the way. -/
theorem load_eq_some {img : LoadedImage}
    (himg : (m.load cr3 image argv).1 = some img) :
    ∃ b st, m.newAddressSpace cr3 = (img.pml4Phys, b) ∧
      (headers image).foldlM (loadSegment image img.pml4Phys) ⟨b, 0, []⟩ = .ok st ∧
      m.load cr3 image argv = finishLoad (Ehdr.read image) img.pml4Phys argv st ∧
      m.tableFailures ≤ b.tableFailures ∧ b.tableFailures ≤ st.mem.tableFailures ∧
      st.mem.tableFailures ≤ (m.load cr3 image argv).2.tableFailures := by
  by_cases hsupported : image.length < ehdrSize ∨ ¬ (Ehdr.read image).supported image
  · unfold load at himg
    dsimp only at himg
    rw [if_pos hsupported] at himg
    cases himg
  rcases hnew : m.newAddressSpace cr3 with ⟨aspace, b⟩
  have hle₁ := tableFailures_newAddressSpace hnew
  have hle₂ := tableFailures_le_loadSegments image aspace (headers image) ⟨b, 0, []⟩
  have hle₃ := tableFailures_le_load argv hsupported hnew
  have heq := load_eq argv hsupported hnew
  cases hloop : (headers image).foldlM (loadSegment image aspace) ⟨b, 0, []⟩ with
  | error m =>
    rw [heq, hloop] at himg
    cases himg
  | ok st =>
    rw [hloop] at heq hle₂ hle₃
    dsimp only at heq
    rw [heq] at himg
    obtain ⟨rfl, -⟩ := finishLoad_eq_some himg
    exact ⟨b, st, rfl, hloop, heq, hle₁, hle₂, hle₃⟩

end PhysMemory

end AnssOS
