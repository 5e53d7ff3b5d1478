import AnssOS.Exec.ElfBounds
import AnssOS.Exec.ElfShows
import AnssOS.Exec.Machine

/-!
# Where a program is mapped

The ELF loader and `brk` map pages at addresses that come from the image.  `loadCalls` and `brkCalls`
list the calls of `vmm::map` that they make, each with the memory as it is then.  If the segments end
in the lower half and stay clear of the stack, and the loader can keep track of all of them, then
every page is mapped in the lower half and where nothing was mapped before, and the tables of the
kernel are not touched.

### Outline

* the calls of `vmm::map`;
* segments and the stack: the address space shows the segments loaded so far, and nothing else;
* the heap.
-/

namespace AnssOS

open List Option Function

namespace PhysMemory

open Pmm (pageRun)

/-! ### The calls of `vmm::map` -/

/-- A call of `vmm::map`: the memory before it, the address space and the address. -/
structure MapCall where
  mem : PhysMemory
  aspace : ℕ
  virt : ℕ

/-- The address is in the lower half, nothing is mapped there, and the tables of the kernel are
still as they were in `m`. -/
structure MapCall.Ok (m : PhysMemory) (cr3 : ℕ) (c : MapCall) : Prop where
  lower : c.virt < 2 ^ 47
  unmapped : c.mem.translate c.aspace c.virt = none
  kernel : KernelSame m cr3 c.aspace c.mem

/-- The call for the page `p` of a segment, unless it is shared. -/
def pageCalls (aspace : ℕ) (loaded : List Segment) (ph : Phdr) (p : ℕ) (m : PhysMemory) :
    List MapCall :=
  let vpage := (ph.segStart + p * pageSize) % 2 ^ 64
  match loaded.find? fun g => g.covers vpage with
  | none => [⟨m, aspace, vpage⟩]
  | some _ => []

/-- The calls that `loadSegment` makes. -/
def segmentCalls (image : List UInt8) (aspace : ℕ) (st : Loading) (ph : Phdr) : List MapCall :=
  if ph.type ≠ ptLoad then []
  else if image.length < (ph.offset + ph.filesz) % 2 ^ 64 ∨ ph.memsz < ph.filesz then []
  else
    match st.mem.pmm.allocPages ph.pages with
    | (basePhys, pmm) =>
        if basePhys = 0 then []
        else (List.range ph.pages).flatMap fun p => pageCalls aspace st.loaded ph p
          (segmentPages image aspace st.loaded ph basePhys p { st.mem with pmm := pmm })

/-- The calls that `finishLoad` makes. -/
def stackCalls (aspace : ℕ) (m : PhysMemory) : List MapCall :=
  match m.pmm.allocPages userStackPages with
  | (stackPhys, pmm) =>
      if stackPhys = 0 then []
      else (List.range userStackPages).map fun p =>
        ⟨stackPages aspace stackPhys p { m with pmm := pmm }, aspace, stackBase + p * pageSize⟩

/-- The calls that `elf::load` makes. -/
def loadCalls (m : PhysMemory) (cr3 : ℕ) (image : List UInt8) : List MapCall :=
  if image.length < ehdrSize ∨ ¬ (Ehdr.read image).supported image then []
  else
    match m.newAddressSpace cr3 with
    | (aspace, m) =>
        foldLog (loadSegment image aspace) (segmentCalls image aspace) ⟨m, 0, []⟩ (headers image) ++
          match (headers image).foldlM (loadSegment image aspace) ⟨m, 0, []⟩ with
          | .error _ => []
          | .ok st => stackCalls aspace st.mem

/-- The call that `growHeap` makes. -/
def growCalls (m : PhysMemory) (aspace virt : ℕ) : List MapCall :=
  match m.pmm.allocPage with
  | (phys, p) =>
      if phys = 0 then []
      else [⟨{ m with pmm := p, ram := m.ram.fillBytes phys pageSize 0 }, aspace, virt⟩]

end PhysMemory

namespace Kernel

open PhysMemory (MapCall growCalls)

/-- The calls that the loop of `sys_brk` makes. -/
def brkLoopCalls (t : SlotId) (newEnd : ℕ) : ℕ → Kernel PhysMemory → List MapCall
  | 0, _ => []
  | n + 1, s =>
      let task := (s.processes t).task
      if task.heapEnd < newEnd then
        growCalls s.mem task.aspace.pml4Phys task.heapEnd ++
          match s.mem.growHeap task.aspace.pml4Phys task.heapEnd with
          | (false, _) => []
          | (true, m) =>
              brkLoopCalls t newEnd n
                ({ s with mem := m }.setTask t
                  { task with heapEnd := (task.heapEnd + 4096) % 2 ^ 64 })
      else []

/-- The calls that `sys_brk` makes. -/
def brkCalls (s : Kernel PhysMemory) (newEnd : ℕ) : List MapCall :=
  match s.currentTask with
  | none => []
  | some t =>
      let task := (s.processes t).task
      if newEnd = 0 ∨ newEnd ≤ task.heapEnd then []
      else if heapMaxBytes < (newEnd + 2 ^ 64 - task.heapStart) % 2 ^ 64 then []
      else brkLoopCalls t newEnd newEnd s

/-- The kernel after some calls of `sys_brk`. -/
def runBrk (s : Kernel PhysMemory) (newEnds : List ℕ) : Kernel PhysMemory :=
  newEnds.foldl (fun s newEnd => (s.sysBrk newEnd).2) s

/-- The calls of `vmm::map` that some calls of `sys_brk` make. -/
def runBrkCalls : Kernel PhysMemory → List ℕ → List MapCall
  | _, [] => []
  | s, newEnd :: newEnds => s.brkCalls newEnd ++ runBrkCalls (s.sysBrk newEnd).2 newEnds

end Kernel

namespace PhysMemory

/-! ### Calls that are in order -/

variable {m m' b : PhysMemory} {cr3 aspace : ℕ} {virts : Set ℕ}

/-- The tables of the kernel stay as they are with the pages in use. -/
theorem NewSpace.kernelSame (hnew : NewSpace m cr3 m.usedPages aspace b) (hm : m.KernelMapped cr3)
    (h : Extends (spaceRoots aspace) m.usedPages b m') : KernelSame m cr3 aspace m' := by
  refine ⟨fun t i ht hi => ?_, fun i hle hlt => ?_⟩
  · have hused := hm.tables t ht
    have hmem : t ∈ m.usedPages := hused
    obtain ⟨page, rfl, -⟩ := hused
    exact entry_congr hi fun a ha =>
      (h.kept a (ha.symm ▸ hmem)).trans (hnew.kept a (ha.symm ▸ hmem))
  · rw [h.entry_upper (k := ()) rfl hle hlt, hnew.entry_upper hm.top hle hlt]

theorem Shows.ok {extra : Set ℕ} {frame : ℕ → ℕ} {bytes : ℕ → UInt8} {virt : ℕ}
    (h : Shows b m.usedPages aspace virts frame extra bytes m')
    (hnew : NewSpace m cr3 m.usedPages aspace b) (hm : m.KernelMapped cr3)
    (hvirt : virt < 2 ^ 47 ∧ virt % pageSize = 0) (hnot : virt ∉ virts) :
    MapCall.Ok m cr3 ⟨m', aspace, virt⟩ :=
  ⟨hvirt.1, h.translate_eq_none hvirt hnot, hnew.kernelSame hm h.same⟩

/-! ### Segments and the stack -/

/-- A call for a page of a segment. -/
theorem of_mem_segmentCalls {image : List UInt8} {st : Loading} {ph : Phdr} {c : MapCall}
    (h : c ∈ segmentCalls image aspace st ph) :
    ph.type = ptLoad ∧ ph.filesz ≤ ph.memsz ∧ ∃ basePhys pmm, ∃ p < ph.pages,
      st.mem.pmm.allocPages ph.pages = (basePhys, pmm) ∧ basePhys ≠ 0 ∧
      st.loaded.find? (fun g => g.covers ((ph.segStart + p * pageSize) % 2 ^ 64)) = none ∧
      loadedMem (loadSegment image aspace st ph) =
        segmentPages image aspace st.loaded ph basePhys ph.pages { st.mem with pmm := pmm } ∧
      c = ⟨segmentPages image aspace st.loaded ph basePhys p { st.mem with pmm := pmm }, aspace,
        (ph.segStart + p * pageSize) % 2 ^ 64⟩ := by
  unfold segmentCalls at h
  split at h
  · cases h
  rename_i htype
  split at h
  · cases h
  rename_i hsize
  rcases halloc : st.mem.pmm.allocPages ph.pages with ⟨basePhys, pmm⟩
  rw [halloc] at h
  dsimp only at h
  split at h
  · cases h
  rename_i hbase
  obtain ⟨p, hp, hc⟩ := mem_flatMap.mp h
  unfold pageCalls at hc
  dsimp only at hc
  split at hc
  · rename_i hfind
    refine ⟨not_not.mp htype, by omega, basePhys, pmm, p, mem_range.mp hp, rfl, hbase, hfind,
      ?_, mem_singleton.mp hc⟩
    rw [loadSegment, if_neg htype, if_neg hsize, halloc]
    dsimp only
    rw [if_neg hbase, loadedMem]
    rfl
  · cases hc

section Load

variable {image : List UInt8} {st : Loading} {done : List Phdr}
  (hm : m.KernelMapped cr3) (hnew : m.newAddressSpace cr3 = (aspace, b))
  (hb : b.tableFailures = m.tableFailures)
  (hfit : ∀ ph ∈ done, ph.type = ptLoad → ph.vaddr + ph.memsz ≤ 2 ^ 47)
  (hdone : done.foldlM (loadSegment image aspace) ⟨b, 0, []⟩ = .ok st)

include hm hnew hb hfit hdone

/-- The memory when some program headers are done. -/
theorem shows_of_foldlM (hok : st.mem.tableFailures = m.tableFailures) :
    NewSpace m cr3 m.usedPages aspace b ∧ ∃ frame,
      Shows b m.usedPages aspace (segmentsPages done) frame ∅ (picture image (segmentsOf done)).bytes
        st.mem ∧
      Tracks st.loaded (picture image (segmentsOf done)).tracked (segmentsPages done) frame := by
  obtain ⟨hspace, hstart⟩ := Shows.newAddressSpace hm.sound hnew hb id fun _ => 0
  have hstart : Shows b m.usedPages aspace ∅ id ∅ (LoadPicture.mk [] fun _ => 0).bytes
      (Loading.mk b 0 []).mem := hstart
  have hshows := hstart.loadSegments (Tracks.nil ∅ id) hfit hdone (hok.trans hb.symm)
  rw [Set.empty_union] at hshows
  exact ⟨hspace, hshows⟩

/-- The calls for a segment are in order, if the loader has kept track of those before. -/
theorem segmentCalls_ok {ph : Phdr} (hph : ph.type = ptLoad → ph.vaddr + ph.memsz ≤ 2 ^ 47)
    (hcount : ph.type = ptLoad → segmentCount done ≤ maxLoadSegments)
    (hok : (loadedMem (loadSegment image aspace st ph)).tableFailures = m.tableFailures) :
    ∀ c ∈ segmentCalls image aspace st ph, c.Ok m cr3 := by
  intro c hc
  obtain ⟨htype, hsize, basePhys, pmm, p, hp, halloc, hbase, hfind, hmem, rfl⟩ :=
    of_mem_segmentCalls hc
  have hfits := hph htype
  obtain ⟨-, -, -, hpages, -, -⟩ := segment_bounds hfits
  have hvirt := hpages p hp
  have hmod : (ph.segStart + p * pageSize) % 2 ^ 64 = ph.segStart + p * pageSize :=
    Nat.mod_eq_of_lt (by omega)
  rw [hmod] at hfind ⊢
  have haligned : (ph.segStart + p * pageSize) % pageSize = 0 := by
    rw [Phdr.segStart, ← Nat.add_mul]
    exact Nat.mul_mod_left _ _
  -- no table has failed so far
  have hle₀ := tableFailures_le_loadSegments image aspace done ⟨b, 0, []⟩
  rw [hdone, loadedMem] at hle₀
  have hle₁ := tableFailures_le_segmentPages image aspace st.loaded ph basePhys p
    { st.mem with pmm := pmm }
  have hle₂ := tableFailures_le_segmentPages_of_le image aspace st.loaded ph basePhys
    { st.mem with pmm := pmm } hp.le
  rw [hmem] at hok
  have hsame : st.mem.tableFailures = m.tableFailures :=
    le_antisymm (hok ▸ hle₁.trans hle₂) (hb ▸ hle₀)
  obtain ⟨hspace, frame, hshows, htracks⟩ := shows_of_foldlM hm hnew hb hfit hdone hsame
  obtain ⟨hshows, -⟩ := hshows.segmentPages htracks hfits hsize halloc hbase hp.le
    (le_antisymm (hle₂.trans (hok.trans hsame.symm).le) hle₁)
  refine hshows.ok hspace hm ⟨by omega, haligned⟩ ?_
  rintro (⟨ph', hph', htype', q, hq, heq⟩ | ⟨q, hq, heq⟩)
  · -- an earlier segment with that page is in the list
    have hsome := (htracks.isSome _ haligned).mpr ⟨ph', ?_, ?_⟩
    · rw [hfind] at hsome
      cases hsome
    · have hlength : (segmentsOf done).length ≤ maxLoadSegments := by
        have := hcount htype
        rwa [segmentCount, countP_eq_length_filter] at this
      rw [tracked_picture, take_of_length_le hlength]
      exact mem_filter.mpr ⟨hph', decide_eq_true htype'⟩
    · rw [heq]
      have := Nat.mul_lt_mul_of_pos_right hq (show 0 < pageSize by decide)
      exact ⟨by omega, by omega⟩
  · unfold pageSize at heq
    omega

/-- The calls for the user stack are in order, if the segments stay clear of it. -/
theorem stackCalls_ok {eh : Ehdr} {argv : List (List UInt8)}
    (hapart : ∀ ph ∈ done, ph.type = ptLoad →
      ph.vaddr + ph.memsz ≤ stackBase ∨ userStackTop ≤ ph.segStart)
    (hok : (finishLoad eh aspace argv st).2.tableFailures = m.tableFailures) :
    ∀ c ∈ stackCalls aspace st.mem, c.Ok m cr3 := by
  intro c hc
  unfold stackCalls at hc
  rcases halloc : st.mem.pmm.allocPages userStackPages with ⟨stackPhys, pmm⟩
  rw [halloc] at hc
  dsimp only at hc
  split at hc
  · cases hc
  rename_i hbase
  obtain ⟨p, hp, rfl⟩ := List.mem_map.mp hc
  rw [mem_range] at hp
  have hle₀ := tableFailures_le_loadSegments image aspace done ⟨b, 0, []⟩
  rw [hdone, loadedMem] at hle₀
  have hle₁ := tableFailures_le_stackPages { st.mem with pmm := pmm } aspace stackPhys p
  have hle₂ := tableFailures_le_stackPages_of_le aspace stackPhys { st.mem with pmm := pmm } hp.le
    le_rfl
  have hle₃ := tableFailures_le_finishLoad eh aspace argv halloc hbase
  have hsame : st.mem.tableFailures = m.tableFailures :=
    le_antisymm (hok ▸ (hle₁.trans hle₂).trans hle₃) (hb ▸ hle₀)
  obtain ⟨hspace, frame, hshows, -⟩ := shows_of_foldlM hm hnew hb hfit hdone hsame
  have hshows := hshows.stackPages halloc hbase hp.le
    (le_antisymm ((hle₂.trans hle₃).trans (hok.trans hsame.symm).le) hle₁)
  refine hshows.ok hspace hm ?_ ?_
  · unfold stackBase userStackTop userStackPages pageSize at *
    omega
  · rintro (⟨ph, hph, htype, q, hq, heq⟩ | ⟨q, hq, heq⟩)
    · obtain ⟨-, -, -, hpages, -, -⟩ := segment_bounds (hfit ph hph htype)
      have hlt := hpages q hq
      have hclear := hapart ph hph htype
      unfold stackBase userStackTop userStackPages pageSize at *
      omega
    · unfold pageSize at heq
      omega

/-- What was in use before is left alone, also if the stack cannot be made. -/
theorem extends_finishLoad (eh : Ehdr) (argv : List (List UInt8))
    (hok : (finishLoad eh aspace argv st).2.tableFailures = m.tableFailures) :
    Extends (spaceRoots aspace) m.usedPages b (finishLoad eh aspace argv st).2 := by
  have hle₀ := tableFailures_le_loadSegments image aspace done ⟨b, 0, []⟩
  rw [hdone, loadedMem] at hle₀
  rcases halloc : st.mem.pmm.allocPages userStackPages with ⟨stackPhys, p⟩
  rcases finishLoad_cases eh aspace argv halloc with ⟨-, heq⟩ | ⟨hbase, m₁, hm₁, hmem, -⟩
  · rw [heq] at hok ⊢
    obtain ⟨-, frame, hshows, -⟩ := shows_of_foldlM hm hnew hb hfit hdone hok
    exact ⟨hshows.same.kept, hshows.same.upper⟩
  have hfail : m₁.tableFailures = m.tableFailures := by
    rcases hmem with hmem | hmem
    · rw [← hok, hmem]
    · rw [← hok, hmem, (m₁.initStack_pmm stackPhys argv).2]
  have hle : st.mem.tableFailures ≤ m₁.tableFailures := by
    rw [hm₁, allocKernelStack_tableFailures, mapStack_eq]
    exact tableFailures_le_stackPages { st.mem with pmm := p } aspace stackPhys userStackPages
  have hsame : st.mem.tableFailures = m.tableFailures := le_antisymm (hfail ▸ hle) (hb ▸ hle₀)
  obtain ⟨-, frame, hshows, -⟩ := shows_of_foldlM hm hnew hb hfit hdone hsame
  rcases hmem with hmem | hmem
  · rw [hmem]
    exact (hshows.mapStack halloc hbase hm₁ (hfail.trans hsame.symm)).same
  · rw [hmem]
    exact (hshows.initStack halloc hbase hm₁ (hfail.trans hsame.symm) argv rfl).same

end Load

/-! ### The loader -/

/-- The segments of an image end in the lower half and stay clear of the stack, and there are not
more of them than the loader can keep track of, and one. -/
structure LayoutFits (image : List UInt8) : Prop where
  fits : ImageFits image
  apart : ∀ ph ∈ headers image, ph.type = ptLoad →
    ph.vaddr + ph.memsz ≤ stackBase ∨ userStackTop ≤ ph.segStart
  count : segmentCount (headers image) ≤ maxLoadSegments + 1

variable {image : List UInt8} {argv : List (List UInt8)} {virt : ℕ}

/-- Every call of `vmm::map` that the loader makes is in order. -/
theorem loadCalls_ok (hm : m.KernelMapped cr3)
    (hlayout : LayoutFits image)
    (hok : (m.load cr3 image argv).2.tableFailures = m.tableFailures) :
    ∀ c ∈ m.loadCalls cr3 image, c.Ok m cr3 := by
  intro c hc
  unfold loadCalls at hc
  split at hc
  · cases hc
  rename_i hsupported
  rcases hnew : m.newAddressSpace cr3 with ⟨aspace, b⟩
  rw [hnew] at hc
  dsimp only at hc
  have hle₁ := tableFailures_newAddressSpace hnew
  have hle₂ := tableFailures_le_loadSegments image aspace (headers image) ⟨b, 0, []⟩
  have hle₃ := tableFailures_le_load argv hsupported hnew
  have hb : b.tableFailures = m.tableFailures :=
    le_antisymm (hok ▸ hle₂.trans hle₃) hle₁
  have hfit := hlayout.fits.headers
  rcases mem_append.mp hc with hc | hc
  · obtain ⟨done, ph, rest, st, hheaders, hdone, hc⟩ := exists_of_mem_foldLog hc
    have hphs : ∀ ph' ∈ done ++ [ph], ph'.type = ptLoad → ph'.vaddr + ph'.memsz ≤ 2 ^ 47 := by
      intro ph' hph'
      refine hfit ph' ?_
      change ph' ∈ headers image
      rw [hheaders]
      rcases mem_append.mp hph' with h | h
      · exact mem_append_left _ h
      · exact mem_append_right _ (mem_cons.mpr (Or.inl (mem_singleton.mp h)))
    refine segmentCalls_ok hm hnew hb (fun ph' hph' => hphs ph' (mem_append_left _ hph')) hdone
      (hphs ph (by simp)) (fun htype => ?_) ?_ c hc
    · have hcount := hlayout.count
      rw [hheaders, segmentCount, countP_append, countP_cons] at hcount
      simp only [htype, decide_true, if_true] at hcount
      unfold segmentCount
      omega
    · -- the rest of the loop and the stack come after this round
      have hle := tableFailures_le_loadSegment image aspace st ph
      have hstart := tableFailures_le_loadSegments image aspace done ⟨b, 0, []⟩
      rw [hdone] at hstart
      refine le_antisymm ?_ ((hb ▸ hstart).trans hle)
      rw [← hok]
      refine le_trans ?_ hle₃
      rw [hheaders, foldlM_append, hdone]
      change _ ≤ (loadedMem ((ph :: rest).foldlM (loadSegment image aspace) st)).tableFailures
      rw [foldlM_cons]
      cases loadSegment image aspace st ph with
      | error m => exact le_rfl
      | ok st' => exact tableFailures_le_loadSegments image aspace rest st'
  · cases hloop : (headers image).foldlM (loadSegment image aspace) ⟨b, 0, []⟩ with
    | error m =>
      rw [hloop] at hc
      cases hc
    | ok st =>
      rw [hloop] at hc
      rw [load_eq argv hsupported hnew, hloop] at hok
      exact stackCalls_ok hm hnew hb hfit hloop hlayout.apart hok c hc

/-- The tables of the kernel are not touched, whether or not the loader succeeds. -/
theorem kernelTables_load (hm : m.KernelMapped cr3) (hlayout : LayoutFits image)
    (hok : (m.load cr3 image argv).2.tableFailures = m.tableFailures) {t i : ℕ}
    (ht : m.KernelTable cr3 t) (hi : i < 512) :
    (m.load cr3 image argv).2.entry t i = m.entry t i := by
  by_cases hsupported : image.length < ehdrSize ∨ ¬ (Ehdr.read image).supported image
  · unfold load
    dsimp only
    rw [if_pos hsupported]
  rcases hnew : m.newAddressSpace cr3 with ⟨aspace, b⟩
  have hle₁ := tableFailures_newAddressSpace hnew
  have hle₂ := tableFailures_le_loadSegments image aspace (headers image) ⟨b, 0, []⟩
  have hle₃ := tableFailures_le_load argv hsupported hnew
  have hb : b.tableFailures = m.tableFailures := le_antisymm (hok ▸ hle₂.trans hle₃) hle₁
  obtain ⟨hspace, -⟩ := Shows.newAddressSpace hm.sound hnew hb id fun _ => 0
  rw [load_eq argv hsupported hnew] at hok ⊢
  suffices hextends : Extends (spaceRoots aspace) m.usedPages b
      (match (headers image).foldlM (loadSegment image aspace) ⟨b, 0, []⟩ with
        | .error m => (none, m)
        | .ok st => finishLoad (Ehdr.read image) aspace argv st).2 from
    (hspace.kernelSame hm hextends).1 t i ht hi
  cases hloop : (headers image).foldlM (loadSegment image aspace) ⟨b, 0, []⟩ with
  | error m₁ =>
    rw [hloop] at hok
    obtain ⟨before, st, hbefore, hdone, hram, hfail⟩ := foldlM_eq_error hloop
    obtain ⟨-, frame, hshows, -⟩ := shows_of_foldlM hm hnew hb
      (fun ph hph => hlayout.fits.headers ph (hbefore.subset hph)) hdone (hfail.symm.trans hok)
    exact hshows.same.trans (Extends.of_ram hram)
  | ok st =>
    rw [hloop] at hok
    exact extends_finishLoad hm hnew hb hlayout.fits.headers hloop _ argv hok

/-- The address space of a program, with pages at `virts`, as long as no table could not be
allocated. -/
def SpaceOk (m : PhysMemory) (cr3 aspace : ℕ) (virts : Set ℕ) (m' : PhysMemory) : Prop :=
  m.tableFailures ≤ m'.tableFailures ∧ (m'.tableFailures = m.tableFailures → ∃ b frame bytes,
    NewSpace m cr3 m.usedPages aspace b ∧ Shows b m.usedPages aspace virts frame ∅ bytes m')

/-- What holds when a program is loaded. -/
theorem load_spaceOk {img : LoadedImage}
    (hm : m.KernelMapped cr3) (hlayout : LayoutFits image)
    (himg : (m.load cr3 image argv).1 = some img) :
    SpaceOk m cr3 img.pml4Phys (segmentsPages (headers image) ∪ stackVpages userStackPages)
        (m.load cr3 image argv).2 ∧
      0 < img.heapBase ∧ img.heapBase % pageSize = 0 ∧
      ∀ v ∈ segmentsPages (headers image), v < img.heapBase := by
  obtain ⟨b, st, hnew, hloop, heq, hle₁, hle₂, hle₃⟩ := load_eq_some himg
  refine ⟨⟨hle₁.trans (hle₂.trans hle₃), fun hsame => ?_⟩, ?_⟩
  · obtain ⟨b, stackPhys, m₁, frame, hspace, -, hshows⟩ :=
      load_shows hm.sound hlayout.fits himg hsame
    exact ⟨b, frame, _, hspace, hshows⟩
  · rw [heq] at himg
    obtain ⟨-, hheap, -⟩ := finishLoad_eq_some himg
    obtain ⟨-, haligned, hbehind⟩ := heapBase_of_foldlM hloop
    have haligned := haligned rfl
    have hpages : ∀ v ∈ segmentsPages (headers image), v < st.heapBase := by
      rintro v ⟨ph, hph, htype, p, hp, rfl⟩
      obtain ⟨-, -, -, -, -, hend⟩ := segment_bounds (hlayout.fits.headers ph hph htype)
      have hle := hbehind ph hph htype
      rw [Nat.mod_eq_of_lt hend] at hle
      have := Nat.mul_lt_mul_of_pos_right hp (show 0 < pageSize by decide)
      omega
    rw [hheap]
    split
    · rename_i hzero
      refine ⟨by decide, by decide, fun v hv => ?_⟩
      have := hpages v hv
      omega
    · exact ⟨by omega, haligned, hpages⟩

/-! ### The heap -/

/-- A page for the heap is allocated and cleared. -/
theorem Shows.clearPage {frame : ℕ → ℕ} {bytes : ℕ → UInt8} {phys : ℕ} {p : Pmm}
    (h : Shows b m.usedPages aspace virts frame ∅ bytes m') (halloc : m'.pmm.allocPage = (phys, p))
    (hphys : phys ≠ 0) : Shows b m.usedPages aspace virts frame {phys} bytes
      { m' with pmm := p, ram := m'.ram.fillBytes phys pageSize 0 } := by
  have ht := Pmm.allocPage_takes h.own.sound (by rw [halloc]; exact hphys)
  rw [halloc] at ht
  have htaken := h.take ht
  rw [Set.union_empty] at htaken
  refine htaken.writeExtra rfl fun a ha => ?_
  refine htaken.own.pageOf_eq (Or.inl (Or.inr (Or.inl rfl))) ?_
  by_contra hout
  exact ha (ByteMemory.fillBytes_of_outside (by omega))

/-- One more page of the heap keeps `SpaceOk`. -/
theorem SpaceOk.growHeap (h : SpaceOk m cr3 aspace virts m')
    (hvirt : virt < 2 ^ 47 ∧ virt % pageSize = 0) {m₁ : PhysMemory} {ok : Bool}
    (hgrow : m'.growHeap aspace virt = (ok, m₁)) :
    SpaceOk m cr3 aspace (if ok then virts ∪ {virt} else virts) m₁ := by
  have hle := m'.tableFailures_le_growHeap aspace virt
  rw [hgrow] at hle
  refine ⟨h.1.trans hle, fun hsame => ?_⟩
  have hsame' : m'.tableFailures = m.tableFailures := le_antisymm (hsame ▸ hle) h.1
  obtain ⟨b, frame, bytes, hnew, hshows⟩ := h.2 hsame'
  unfold PhysMemory.growHeap at hgrow
  rcases halloc : m'.pmm.allocPage with ⟨phys, p⟩
  rw [halloc] at hgrow
  dsimp only at hgrow
  split at hgrow
  · rename_i hzero
    obtain ⟨rfl, rfl⟩ := Prod.mk.inj hgrow
    have hp := Pmm.allocPage_zero hshows.own.sound (by rw [halloc]; exact hzero)
    rw [halloc] at hp
    obtain rfl : p = m'.pmm := hp
    exact ⟨b, frame, bytes, hnew, hshows⟩
  · rename_i hphys
    obtain ⟨rfl, rfl⟩ := Prod.mk.inj hgrow
    rw [if_pos rfl, Set.union_singleton]
    have hcleared := hshows.clearPage halloc hphys
    rw [← insert_empty_eq] at hcleared
    refine ⟨b, _, fun x => if virt ≤ x ∧ x < virt + pageSize then 0 else bytes x, hnew,
      (hcleared.map (Set.notMem_empty phys) hvirt (hsame.trans hsame'.symm) (fun off hoff => ?_)
        fun w hw hne off hoff => ?_).1⟩
    · rw [if_pos (by omega)]
      exact (if_pos (by omega)).symm
    · have hmod := (hshows.lower w hw).2
      refine if_neg ?_
      unfold pageSize at *
      omega

/-- The call for one more page of the heap is in order. -/
theorem SpaceOk.growCalls_ok (h : SpaceOk m cr3 aspace virts m') (hm : m.KernelMapped cr3)
    (hvirt : virt < 2 ^ 47 ∧ virt % pageSize = 0)
    (hnot : virt ∉ virts) (hsame : m'.tableFailures = m.tableFailures) :
    ∀ c ∈ m'.growCalls aspace virt, c.Ok m cr3 := by
  intro c hc
  unfold growCalls at hc
  rcases halloc : m'.pmm.allocPage with ⟨phys, p⟩
  rw [halloc] at hc
  dsimp only at hc
  split at hc
  · cases hc
  rename_i hphys
  obtain rfl := mem_singleton.mp hc
  obtain ⟨b, frame, bytes, hnew, hshows⟩ := h.2 hsame
  exact (hshows.clearPage halloc hphys).ok hnew hm hvirt hnot

end PhysMemory

namespace Kernel

open PhysMemory

variable {m : PhysMemory} {cr3 aspace start : ℕ} {virts : Set ℕ} {t : SlotId}
  {s : Kernel PhysMemory}

/-- The heap of the current task `t`, which begins at `start`, has been mapped page by page. -/
structure HeapOk (m : PhysMemory) (cr3 aspace start : ℕ) (virts : Set ℕ) (t : SlotId)
    (s : Kernel PhysMemory) : Prop where
  current : s.currentTask = some t
  space : (s.processes t).task.aspace.pml4Phys = aspace
  heapStart : (s.processes t).task.heapStart = start
  pages : ∃ n, (s.processes t).task.heapEnd = start + n * pageSize ∧ n * pageSize ≤ heapMaxBytes ∧
    SpaceOk m cr3 aspace (virts ∪ heapVpages start n) s.mem

/-- The pages of a heap that begins at `start` are in the lower half, and not among `virts`. -/
structure HeapFits (start : ℕ) (virts : Set ℕ) : Prop where
  aligned : start % pageSize = 0
  lower : start + heapMaxBytes ≤ 2 ^ 47
  apart : ∀ n, n * pageSize < heapMaxBytes → start + n * pageSize ∉ virts

variable {n newEnd : ℕ}

theorem HeapFits.page (h : HeapFits start virts) (hn : n * pageSize < heapMaxBytes) :
    (start + n * pageSize < 2 ^ 47 ∧ (start + n * pageSize) % pageSize = 0) ∧
      start + n * pageSize ∉ virts ∪ heapVpages start n := by
  have hlower := h.lower
  refine ⟨⟨by omega, by rw [Nat.add_mul_mod_self_right, h.aligned]⟩, ?_⟩
  rintro (hmem | ⟨k, hk, heq⟩)
  · exact h.apart n hn hmem
  · unfold pageSize at heq
    omega

/-- The kernel after a round of the loop of `sys_brk` that has mapped a page. -/
def heapGrown (s : Kernel PhysMemory) (t : SlotId) (m : PhysMemory) : Kernel PhysMemory :=
  { s with mem := m }.setTask t
    { (s.processes t).task with heapEnd := ((s.processes t).task.heapEnd + 4096) % 2 ^ 64 }

/-- One round of the loop. -/
theorem brkLoop_succ {ok : Bool} {m' : PhysMemory}
    (hlt : (s.processes t).task.heapEnd < newEnd)
    (hgrow : s.mem.growHeap (s.processes t).task.aspace.pml4Phys (s.processes t).task.heapEnd =
      (ok, m')) :
    (brkLoop t newEnd (n + 1) s).2 =
        (if ok then (brkLoop t newEnd n (s.heapGrown t m')).2 else { s with mem := m' }) ∧
      brkLoopCalls t newEnd (n + 1) s = growCalls s.mem (s.processes t).task.aspace.pml4Phys
        (s.processes t).task.heapEnd ++ if ok then brkLoopCalls t newEnd n (s.heapGrown t m')
          else [] := by
  rw [brkLoop, brkLoopCalls, if_pos hlt, if_pos hlt, hgrow,
    show MemoryOps.growHeap s.mem _ _ = (ok, m') from hgrow]
  cases ok with
  | false => exact ⟨rfl, rfl⟩
  | true => exact ⟨rfl, rfl⟩

theorem brkLoop_done (n : ℕ) (hlt : ¬ (s.processes t).task.heapEnd < newEnd) :
    (brkLoop t newEnd (n + 1) s).2 = s ∧ brkLoopCalls t newEnd (n + 1) s = [] := by
  rw [brkLoop, brkLoopCalls, if_neg hlt, if_neg hlt]
  exact ⟨rfl, rfl⟩

theorem tableFailures_le_brkLoop (t : SlotId) (newEnd n : ℕ) (s : Kernel PhysMemory) :
    s.mem.tableFailures ≤ (brkLoop t newEnd n s).2.mem.tableFailures := by
  induction n generalizing s with
  | zero => exact le_rfl
  | succ n ih =>
    by_cases hlt : (s.processes t).task.heapEnd < newEnd
    · have hle := s.mem.tableFailures_le_growHeap (s.processes t).task.aspace.pml4Phys
        (s.processes t).task.heapEnd
      rcases hgrow : s.mem.growHeap (s.processes t).task.aspace.pml4Phys
        (s.processes t).task.heapEnd with ⟨ok, m'⟩
      rw [hgrow] at hle
      rw [(brkLoop_succ hlt hgrow).1]
      cases ok with
      | false => exact hle
      | true => exact le_trans hle (ih (s.heapGrown t m'))
    · rw [(brkLoop_done n hlt).1]

/-- One more page of the heap. -/
theorem HeapOk.heapGrown (h : HeapOk m cr3 aspace start virts t s) {m' : PhysMemory}
    (hheap : (s.processes t).task.heapEnd = start + n * pageSize)
    (hfits : start + heapMaxBytes ≤ 2 ^ 47) (hn : n * pageSize < heapMaxBytes)
    (hspace : SpaceOk m cr3 aspace (virts ∪ heapVpages start (n + 1)) m') :
    HeapOk m cr3 aspace start virts t (s.heapGrown t m') := by
  have htask : ((s.heapGrown t m').processes t).task = { (s.processes t).task with
      heapEnd := ((s.processes t).task.heapEnd + 4096) % 2 ^ 64 } := by
    simp [Kernel.heapGrown, setTask, setProcess]
  refine ⟨h.current, by rw [htask]; exact h.space, by rw [htask]; exact h.heapStart, n + 1, ?_, ?_,
    hspace⟩
  · rw [htask, hheap]
    dsimp only
    rw [Nat.mod_eq_of_lt (by omega), Nat.succ_mul, Nat.add_assoc]
    rfl
  · unfold heapMaxBytes pageSize at *
    omega

/-- By induction on the rounds: every page that the loop maps is a new one. -/
theorem HeapOk.brkLoop (h : HeapOk m cr3 aspace start virts t s) (hm : m.KernelMapped cr3)
    (hfits : HeapFits start virts) (hend : newEnd ≤ start + heapMaxBytes) (n : ℕ) :
    HeapOk m cr3 aspace start virts t (Kernel.brkLoop t newEnd n s).2 ∧
      ((Kernel.brkLoop t newEnd n s).2.mem.tableFailures = m.tableFailures →
        ∀ c ∈ brkLoopCalls t newEnd n s, c.Ok m cr3) := by
  induction n generalizing s with
  | zero => exact ⟨h, fun _ c hc => by cases hc⟩
  | succ n ih =>
    obtain ⟨k, hheap, hk, hspace⟩ := h.pages
    by_cases hlt : (s.processes t).task.heapEnd < newEnd
    · have hroom : k * pageSize < heapMaxBytes := by omega
      obtain ⟨hpage, hnot⟩ := hfits.page hroom
      have hle := s.mem.tableFailures_le_growHeap aspace (start + k * pageSize)
      rcases hgrow : s.mem.growHeap aspace (start + k * pageSize) with ⟨ok, m'⟩
      rw [hgrow] at hle
      have hgrown := hspace.growHeap hpage hgrow
      rw [Set.union_assoc, ← heapVpages_succ] at hgrown
      have hcalls : ∀ {failures}, m'.tableFailures ≤ failures → failures = m.tableFailures →
          ∀ c ∈ growCalls s.mem aspace (start + k * pageSize), c.Ok m cr3 := fun hle' hsame =>
        hspace.growCalls_ok hm hpage hnot
          (le_antisymm (hsame ▸ hle.trans hle') hspace.1)
      have hgrow' : s.mem.growHeap (s.processes t).task.aspace.pml4Phys
          (s.processes t).task.heapEnd = (ok, m') := by
        rw [h.space, hheap, hgrow]
      obtain ⟨hloop, hlog⟩ := brkLoop_succ (n := n) hlt hgrow'
      rw [h.space, hheap] at hlog
      rw [hloop, hlog]
      cases ok with
      | false =>
        refine ⟨⟨h.current, h.space, h.heapStart, k, hheap, hk, hgrown⟩, fun hsame => ?_⟩
        rw [if_neg (by decide), List.append_nil]
        exact hcalls le_rfl hsame
      | true =>
        obtain ⟨hrest, hrestCalls⟩ := ih (h.heapGrown hheap hfits.lower hroom hgrown)
        refine ⟨hrest, fun hsame => forall_mem_append.mpr ⟨?_, hrestCalls hsame⟩⟩
        exact hcalls (tableFailures_le_brkLoop t newEnd n (s.heapGrown t m')) hsame
    · obtain ⟨hloop, hlog⟩ := brkLoop_done n hlt
      rw [hloop, hlog]
      exact ⟨h, fun _ c hc => by cases hc⟩

theorem HeapOk.sysBrk (h : HeapOk m cr3 aspace start virts t s) (hm : m.KernelMapped cr3)
    (hfits : HeapFits start virts) (hend : newEnd < 2 ^ 64) :
    HeapOk m cr3 aspace start virts t (s.sysBrk newEnd).2 ∧
      ((s.sysBrk newEnd).2.mem.tableFailures = m.tableFailures →
        ∀ c ∈ s.brkCalls newEnd, c.Ok m cr3) := by
  unfold Kernel.sysBrk brkCalls
  rw [h.current]
  dsimp only
  split
  · exact ⟨h, fun _ c hc => by cases hc⟩
  rename_i hgrows
  split
  · exact ⟨h, fun _ c hc => by cases hc⟩
  rename_i hmax
  refine h.brkLoop hm hfits ?_ newEnd
  obtain ⟨n, hheap, -⟩ := h.pages
  rw [h.heapStart] at hmax
  omega

theorem tableFailures_le_sysBrk (s : Kernel PhysMemory) (newEnd : ℕ) :
    s.mem.tableFailures ≤ (s.sysBrk newEnd).2.mem.tableFailures := by
  unfold sysBrk
  split
  · exact le_rfl
  · dsimp only
    split
    · exact le_rfl
    · split
      · exact le_rfl
      · exact tableFailures_le_brkLoop _ _ _ s

theorem tableFailures_le_runBrk (s : Kernel PhysMemory) (newEnds : List ℕ) :
    s.mem.tableFailures ≤ (s.runBrk newEnds).mem.tableFailures := by
  induction newEnds generalizing s with
  | nil => exact le_rfl
  | cons newEnd newEnds ih => exact (s.tableFailures_le_sysBrk newEnd).trans (ih _)

/-- By induction on the calls of `sys_brk`. -/
theorem HeapOk.runBrk (h : HeapOk m cr3 aspace start virts t s) (hm : m.KernelMapped cr3)
    (hfits : HeapFits start virts) {newEnds : List ℕ} (hends : ∀ newEnd ∈ newEnds, newEnd < 2 ^ 64) :
    HeapOk m cr3 aspace start virts t (s.runBrk newEnds) ∧
      ((s.runBrk newEnds).mem.tableFailures = m.tableFailures →
        ∀ c ∈ s.runBrkCalls newEnds, c.Ok m cr3) := by
  induction newEnds generalizing s with
  | nil => exact ⟨h, fun _ c hc => by cases hc⟩
  | cons newEnd newEnds ih =>
    obtain ⟨hend, hends⟩ := forall_mem_cons.mp hends
    obtain ⟨hnext, hcalls⟩ := h.sysBrk hm hfits hend
    obtain ⟨hlast, hrest⟩ := ih hnext hends
    refine ⟨hlast, fun hsame => forall_mem_append.mpr ⟨hcalls ?_, hrest hsame⟩⟩
    obtain ⟨_, -, -, hspace⟩ := hnext.pages
    exact le_antisymm (hsame ▸ tableFailures_le_runBrk _ newEnds) hspace.1

/-- The loader and `brk` map pages of the lower half only, where nothing was mapped before, and leave
the tables of the kernel alone, if the segments fit the layout, the heap has room, and no table could
not be allocated. -/
theorem layout_respected {image : List UInt8} {argv : List (List UInt8)} (hm : m.KernelMapped cr3)
    (hlayout : LayoutFits image)
    (hok : (m.load cr3 image argv).2.tableFailures = m.tableFailures) :
    (∀ c ∈ m.loadCalls cr3 image, c.Ok m cr3) ∧
    (∀ t i, m.KernelTable cr3 t → i < 512 →
      (m.load cr3 image argv).2.entry t i = m.entry t i) ∧
    ∀ img, (m.load cr3 image argv).1 = some img →
      (img.heapBase + heapMaxBytes ≤ stackBase ∨
        userStackTop ≤ img.heapBase ∧ img.heapBase + heapMaxBytes ≤ 2 ^ 47) →
      ∀ (s : Kernel PhysMemory) (t : SlotId), s.mem = (m.load cr3 image argv).2 →
        s.currentTask = some t → (s.processes t).task.aspace.pml4Phys = img.pml4Phys →
        (s.processes t).task.heapStart = img.heapBase →
        (s.processes t).task.heapEnd = img.heapBase →
        ∀ newEnds : List ℕ, (∀ newEnd ∈ newEnds, newEnd < 2 ^ 64) →
          (s.runBrk newEnds).mem.tableFailures = m.tableFailures →
          (∀ c ∈ s.runBrkCalls newEnds, c.Ok m cr3) ∧
            KernelSame m cr3 img.pml4Phys (s.runBrk newEnds).mem := by
  refine ⟨loadCalls_ok hm hlayout hok, fun t i ht hi => kernelTables_load hm hlayout hok ht hi,
    fun img himg hroom s t hmem hcurrent hspace hstart hend newEnds hends hsame => ?_⟩
  obtain ⟨hspaceOk, hpositive, haligned, hbehind⟩ := load_spaceOk hm hlayout himg
  have hheap : HeapOk m cr3 img.pml4Phys img.heapBase
      (segmentsPages (headers image) ∪ stackVpages userStackPages) t s := by
    refine ⟨hcurrent, hspace, hstart, 0, by rw [hend]; simp, by simp, ?_⟩
    have hnone : heapVpages img.heapBase 0 = ∅ := by simp [heapVpages]
    rwa [hnone, Set.union_empty, hmem]
  have hfits : HeapFits img.heapBase
      (segmentsPages (headers image) ∪ stackVpages userStackPages) := by
    refine ⟨haligned, ?_, fun n hn hmem => ?_⟩
    · unfold stackBase userStackTop userStackPages pageSize at hroom
      omega
    · rcases hmem with hmem | ⟨p, hp, heq⟩
      · have := hbehind _ hmem
        omega
      · unfold stackBase userStackTop userStackPages pageSize at *
        omega
  obtain ⟨hlast, hcalls⟩ := hheap.runBrk hm hfits hends
  obtain ⟨n, -, -, hlastSpace⟩ := hlast.pages
  obtain ⟨b, _, _, hnew, hshows⟩ := hlastSpace.2 hsame
  exact ⟨hcalls hsame, hnew.kernelSame hm hshows.same⟩

theorem layoutFits_oneSegment : LayoutFits (oneSegment 0x400000) :=
  ⟨by unfold ImageFits; decide +kernel, by decide +kernel, by decide +kernel⟩

/-- The theorem at an image with one segment. -/
theorem layout_respected_of_one_segment :
    (upperHalf.loadCalls 4096 (oneSegment 0x400000)).length = 17 ∧
      ∀ c ∈ upperHalf.loadCalls 4096 (oneSegment 0x400000), c.Ok upperHalf 4096 :=
  ⟨by decide +kernel,
    (layout_respected upperHalf_kernelMapped layoutFits_oneSegment
      (show (upperHalf.load 4096 (oneSegment 0x400000) []).2.tableFailures = 0 by decide +kernel)).1⟩

/-- A segment may be in the upper half: then the loader maps its page into a table of the kernel. -/
theorem load_of_upper_segment :
    upperHalf.KernelTable 4096 8192 ∧
      (upperHalf.load 4096 (oneSegment 0xFFFF800000000000) []).1.isSome ∧
      (upperHalf.load 4096 (oneSegment 0xFFFF800000000000) []).2.entry 8192 0 ≠
        upperHalf.entry 8192 0 :=
  ⟨⟨256, [], by decide, by decide, by simp, by decide, by decide +kernel⟩, by decide +kernel,
    by decide +kernel⟩

end Kernel

end AnssOS
