import AnssOS.Exec.Task
import AnssOS.Mm.Vmm

/-!
# The ELF loader

The model of `elf::load` in `kernel/src/exec/elf.rs`: it parses the image, builds an address space
with the segments and the user stack, allocates a kernel stack and lays out the arguments.  Where it
fails, what it has allocated so far stays allocated.  Arithmetic on 64-bit numbers of the image wraps
around, as it does in the release build; bytes outside the image, which the loader can be made to
read, read as 0.
-/

namespace AnssOS

/-- `KERNEL_STACK_SIZE`. -/
def kernelStackSize : ℕ := 16 * 1024

/-- `USER_STACK_TOP`. -/
def userStackTop : ℕ := 0x0000700000000000

/-- `MAX_LOAD_SEGMENTS`. -/
def maxLoadSegments : ℕ := 16

/-- `USER_STACK_PAGES`. -/
def userStackPages : ℕ := 16

/-- `MAX_ARGS`. -/
def maxArgs : ℕ := 16

/-- `MAX_ARG_LEN`. -/
def maxArgLen : ℕ := 128

/-! ### Headers -/

/-- The `n` bytes of the image from `offset` on. -/
def imageBytes (image : List UInt8) (offset n : ℕ) : List UInt8 :=
  (List.range n).map fun k => image.getD (offset + k) 0

/-- A field of `n` bytes at `offset`. -/
def imageField (image : List UInt8) (offset n : ℕ) : ℕ := leNat (imageBytes image offset n)

/-- The fields of `Ehdr` that are read. -/
structure Ehdr where
  ident : List UInt8
  machine : ℕ
  entry : ℕ
  phoff : ℕ
  phentsize : ℕ
  phnum : ℕ

/-- The size of an `Ehdr`. -/
def ehdrSize : ℕ := 64

/-- The `Ehdr` at the start of the image. -/
def Ehdr.read (image : List UInt8) : Ehdr where
  ident := imageBytes image 0 16
  machine := imageField image 18 2
  entry := imageField image 24 8
  phoff := imageField image 32 8
  phentsize := imageField image 54 2
  phnum := imageField image 56 2

/-- The fields of `Phdr` that are read. -/
structure Phdr where
  type : ℕ
  offset : ℕ
  vaddr : ℕ
  filesz : ℕ
  memsz : ℕ

/-- The `Phdr` at `offset` of the image. -/
def Phdr.read (image : List UInt8) (offset : ℕ) : Phdr where
  type := imageField image offset 4
  offset := imageField image (offset + 8) 8
  vaddr := imageField image (offset + 16) 8
  filesz := imageField image (offset + 32) 8
  memsz := imageField image (offset + 40) 8

/-- `PT_LOAD`. -/
def ptLoad : ℕ := 1

/-- `seg_start`: the first page of a segment. -/
def Phdr.segStart (ph : Phdr) : ℕ := ph.vaddr / pageSize * pageSize

/-- `seg_end`: the end of a segment. -/
def Phdr.segEnd (ph : Phdr) : ℕ := (ph.vaddr + ph.memsz) % 2 ^ 64

/-- `pages`: the number of pages of a segment. -/
def Phdr.pages (ph : Phdr) : ℕ := divCeil ((ph.segEnd + 2 ^ 64 - ph.segStart) % 2 ^ 64) pageSize

/-- The program header with index `i`. -/
def Ehdr.phdr (eh : Ehdr) (image : List UInt8) (i : ℕ) : Phdr :=
  Phdr.read image ((eh.phoff + i * eh.phentsize) % 2 ^ 64)

/-- The checks of the ELF header. -/
def Ehdr.supported (eh : Ehdr) (image : List UInt8) : Bool :=
  eh.ident.take 4 = [0x7F, 0x45, 0x4C, 0x46] && eh.ident.getD 4 0 = 2 && eh.ident.getD 5 0 = 1 &&
    eh.machine = 62 && (eh.phoff + eh.phnum * eh.phentsize) % 2 ^ 64 ≤ image.length

namespace PhysMemory

/-! ### Kernel stacks -/

/-- `alloc_kernel_stack`. -/
def allocKernelStack (m : PhysMemory) : Option ℕ × PhysMemory :=
  match m.heap.alloc m.pmm kernelStackSize 16 with
  | (base, heap, pmm) => (base.map (· + kernelStackSize), { m with heap := heap, pmm := pmm })

/-- `free_kernel_stack`. -/
def freeKernelStack (m : PhysMemory) (top : ℕ) : PhysMemory :=
  { m with heap := m.heap.dealloc (top - kernelStackSize) 16 }

/-! ### Segments -/

/-- A segment loaded so far: its first page, its number of pages, and where they are in memory. -/
structure Segment where
  start : ℕ
  pages : ℕ
  kbase : ℕ

/-- Whether a segment has the page `vpage`. -/
def Segment.covers (g : Segment) (vpage : ℕ) : Bool :=
  g.start ≤ vpage && vpage < (g.start + g.pages * pageSize) % 2 ^ 64

/-- `PAGE_PRESENT | PAGE_WRITABLE | PAGE_USER`. -/
def userFlags : ℕ := pagePresent ||| pageWritable ||| pageUser

/-- The page `p` of a new segment: it is mapped, unless an earlier segment has mapped the same page.
In that case the segment's bytes are copied into that page and its own page is given back. -/
def loadPage (aspace : ℕ) (loaded : List Segment) (ph : Phdr) (basePhys p : ℕ) (m : PhysMemory) :
    PhysMemory :=
  let vpage := (ph.segStart + p * pageSize) % 2 ^ 64
  match loaded.find? fun g => g.covers vpage with
  | none => m.map aspace vpage (basePhys + p * pageSize) userFlags
  | some g =>
      let shared := g.kbase + (vpage - g.start)
      let start := max ph.vaddr vpage
      let stop := min ph.segEnd ((vpage + pageSize) % 2 ^ 64)
      let m := { m with
        ram := m.ram.copyBytes (shared + (start - vpage)) (basePhys + (start - ph.segStart))
          ((stop + 2 ^ 64 - start) % 2 ^ 64) }
      m.freePage (basePhys + p * pageSize)

/-- The locals of the loop over the program headers. -/
structure Loading where
  mem : PhysMemory
  heapBase : ℕ
  loaded : List Segment

/-- The pages of a new segment are cleared, and the bytes of the file are copied into them. -/
def fillSegment (image : List UInt8) (ph : Phdr) (basePhys : ℕ) (m : PhysMemory) : PhysMemory :=
  { m with
    ram := (m.ram.fillBytes basePhys (ph.pages * pageSize) 0).writeBytes
      (basePhys + (ph.vaddr - ph.segStart)) (imageBytes image ph.offset ph.filesz) }

/-- One round of that loop.  An error carries the memory as it is then. -/
def loadSegment (image : List UInt8) (aspace : ℕ) (st : Loading) (ph : Phdr) :
    Except PhysMemory Loading :=
  if ph.type ≠ ptLoad then .ok st
  else if image.length < (ph.offset + ph.filesz) % 2 ^ 64 ∨ ph.memsz < ph.filesz then .error st.mem
  else
    match st.mem.pmm.allocPages ph.pages with
    | (basePhys, pmm) =>
        let m := { st.mem with pmm := pmm }
        if basePhys = 0 then .error m
        else .ok {
          mem := (List.range ph.pages).foldl (fun m p => loadPage aspace st.loaded ph basePhys p m)
            (fillSegment image ph basePhys m)
          heapBase := max st.heapBase ((ph.segStart + ph.pages * pageSize) % 2 ^ 64)
          loaded := if st.loaded.length < maxLoadSegments then
              st.loaded ++ [⟨ph.segStart, ph.pages, basePhys⟩]
            else st.loaded }

/-! ### The initial stack -/

/-- The address of the lowest page of the user stack. -/
def stackBase : ℕ := userStackTop - userStackPages * pageSize

/-- The strings of the arguments, from the last one down; the stack pointer and the addresses of the
strings. -/
def pushArgs (stackPhys : ℕ) : List (List UInt8) → ByteMemory → ByteMemory × ℕ × List ℕ
  | [], ram => (ram, userStackTop, [])
  | arg :: args, ram =>
      let (ram, sp, ptrs) := pushArgs stackPhys args ram
      let arg := arg.take (maxArgLen - 1)
      let sp := sp - (arg.length + 1)
      (ram.writeBytes (stackPhys + (sp - stackBase)) (arg ++ [0]), sp, sp :: ptrs)

/-- The words from `a` on are written. -/
def writeWords (ram : ByteMemory) (a : ℕ) (ws : List ℕ) : ByteMemory :=
  ws.zipIdx.foldl (fun ram (w, k) => ram.writeWord (a + 8 * k) w) ram

/-- The process-initialization stack: the strings, and below them `argc`, `argv`, an empty
environment and an empty auxiliary vector.  The stack pointer, unless it does not fit. -/
def initStack (m : PhysMemory) (stackPhys : ℕ) (argv : List (List UInt8)) :
    Option ℕ × PhysMemory :=
  let argv := argv.take maxArgs
  let (ram, sp, ptrs) := pushArgs stackPhys argv m.ram
  let sp := (sp - (1 + argv.length + 1 + 1 + 2) * 8) / 16 * 16
  if sp < stackBase then (none, { m with ram := ram })
  else (some sp, { m with
    ram := writeWords ram (stackPhys + (sp - stackBase)) (argv.length :: ptrs ++ [0, 0, 0, 0]) })

/-! ### The loader -/

/-- The pages of the user stack are cleared and mapped. -/
def mapStack (m : PhysMemory) (aspace stackPhys : ℕ) : PhysMemory :=
  (List.range userStackPages).foldl (fun m p =>
      m.map aspace (stackBase + p * pageSize) (stackPhys + p * pageSize) userFlags)
    { m with ram := m.ram.fillBytes stackPhys (userStackPages * pageSize) 0 }

/-- `load`, after the program headers. -/
def finishLoad (eh : Ehdr) (aspace : ℕ) (argv : List (List UInt8)) (st : Loading) :
    Option LoadedImage × PhysMemory :=
  match st.mem.pmm.allocPages userStackPages with
  | (stackPhys, pmm) =>
      let m := { st.mem with pmm := pmm }
      if stackPhys = 0 then (none, m)
      else
        match (m.mapStack aspace stackPhys).allocKernelStack with
        | (none, m) => (none, m)
        | (some kernelStackTop, m) =>
            match m.initStack stackPhys argv with
            | (none, m) => (none, m)
            | (some sp, m) => (some {
                entry := eh.entry
                userStackTop := sp
                kernelStackTop := kernelStackTop
                pml4Phys := aspace
                heapBase := if st.heapBase = 0 then 0x600000 else st.heapBase }, m)

/-- `elf::load`, with the active address space `cr3`. -/
def load (m : PhysMemory) (cr3 : ℕ) (image : List UInt8) (argv : List (List UInt8)) :
    Option LoadedImage × PhysMemory :=
  let eh := Ehdr.read image
  if image.length < ehdrSize ∨ ¬ eh.supported image then (none, m)
  else
    match m.newAddressSpace cr3 with
    | (aspace, m) =>
        match ((List.range eh.phnum).map (eh.phdr image)).foldlM (loadSegment image aspace)
            ⟨m, 0, []⟩ with
        | .error m => (none, m)
        | .ok st => finishLoad eh aspace argv st

end PhysMemory

instance : MemoryOps PhysMemory where
  load := PhysMemory.load
  newAddressSpace := PhysMemory.newAddressSpace
  cloneUserPages := PhysMemory.cloneUserPages
  freeUserPages := PhysMemory.freeUserPages
  allocKernelStack := PhysMemory.allocKernelStack
  freeKernelStack := PhysMemory.freeKernelStack
  growHeap := PhysMemory.growHeap
  storeUser := PhysMemory.storeUser
  kernelAlloc m size align :=
    match m.heap.alloc m.pmm size align with
    | (_, heap, pmm) => { m with heap := heap, pmm := pmm }
  kernelDealloc m ptr _ align := { m with heap := m.heap.dealloc ptr align }

end AnssOS
