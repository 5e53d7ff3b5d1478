import AnssOS.Exec.Pipe

/-!
# Tasks, processes and the memory they run in

The data model of `kernel/src/exec/mod.rs` and `kernel/src/exec/process.rs`: open files, tasks,
processes and their states, together with the interface through which the process table uses the
memory manager.

An address space is named in the source by the physical address of its top-level page table, and a
kernel stack by the address of its top.  Both addresses are used again once freed, so the model
lets each handle carry a serial number as well; no modelled function reads it.
-/

namespace AnssOS

/-- The value of an integer after it is cut to an `i32`. -/
def wrapI32 (x : ℤ) : ℤ := x.bmod 0x100000000

theorem wrapI32_of_fits {x : ℤ} (h0 : 0 ≤ x) (h1 : x ≤ 2 ^ 31 - 1) : wrapI32 x = x := by
  unfold wrapI32
  refine Int.bmod_eq_of_le ?_ ?_ <;> omega

/-- `MAX_PROCESSES`. -/
def maxProcesses : ℕ := 16

/-- `MAX_OPEN_FILES`. -/
def maxOpenFiles : ℕ := 8

instance : NeZero maxProcesses := ⟨by decide⟩

/-- An index into the process table. -/
abbrev SlotId := Fin maxProcesses

/-- `AddrSpace`: a page-table hierarchy, named by the physical address of its PML4. -/
structure AddrSpace where
  pml4Phys : ℕ
  serial : ℕ
deriving DecidableEq

/-- A kernel stack, named by the address of its top. -/
structure KernelStack where
  top : ℕ
  serial : ℕ
deriving DecidableEq

/-- The x87/SSE registers, in the layout of the 512-byte `FXSAVE` area. -/
abbrev FpuState := Fin 512 → UInt8

/-- `fpu::state_init`: every exception masked, round-to-nearest, all registers empty. -/
def fpuStateInit : FpuState := fun i =>
  match i.val with
  | 0 => 0x7F
  | 1 => 0x03
  | 24 => 0x80
  | 25 => 0x1F
  | _ => 0

/-- `Termios`. -/
structure Termios where
  cIflag : ℕ
  cOflag : ℕ
  cCflag : ℕ
  cLflag : ℕ
  cLine : UInt8
  cCc : Fin 19 → UInt8

/-- `Termios::ZERO`. -/
def Termios.zero : Termios := ⟨0, 0, 0, 0, 0, fun _ => 0⟩

/-- `Termios::default_console`: line-buffered with echo, one byte at a time once raw. -/
def Termios.defaultConsole : Termios :=
  { Termios.zero with cLflag := 0x0002 ||| 0x0008, cCc := fun i => if i.val = 6 then 1 else 0 }

/-- `Winsize`. -/
structure Winsize where
  wsRow : ℕ
  wsCol : ℕ
  wsXpixel : ℕ
  wsYpixel : ℕ

/-- `Winsize::ZERO`. -/
def Winsize.zero : Winsize := ⟨0, 0, 0, 0⟩

/-- `OpenFile`: one of a task's open file descriptors. -/
inductive OpenFile
  | free
  | file (vnode offset : ℕ) (writable : Bool)
  | pipe (pipe : ℕ) (writeEnd : Bool)
deriving DecidableEq

/-- `Usertask`: everything needed to run one program in ring 3.  The saved kernel context
`kernel_resume` is represented by what it leads back to: the number of activations that were on the
kernel's call stack, the dispatch itself included, when the context was saved. -/
structure Usertask where
  entry : ℕ
  userStackTop : ℕ
  kernelStackTop : KernelStack
  aspace : AddrSpace
  heapStart : ℕ
  heapEnd : ℕ
  openFiles : Fin maxOpenFiles → OpenFile
  cwd : Option ℕ
  stdinPipe : Option ℕ
  stdoutPipe : Option ℕ
  termios : Termios
  winsize : Winsize
  kernelResume : ℕ
  fpuState : FpuState

/-- `Usertask::EMPTY`. -/
def Usertask.empty : Usertask where
  entry := 0
  userStackTop := 0
  kernelStackTop := ⟨0, 0⟩
  aspace := ⟨0, 0⟩
  heapStart := 0
  heapEnd := 0
  openFiles := fun _ => .free
  cwd := none
  stdinPipe := none
  stdoutPipe := none
  termios := Termios.zero
  winsize := Winsize.zero
  kernelResume := 0
  fpuState := fun _ => 0

/-- The entry behind a file descriptor, unless it is free. -/
def Usertask.openFile (t : Usertask) (fd : ℕ) : Option (Fin maxOpenFiles) :=
  if h : 3 ≤ fd ∧ fd - 3 < maxOpenFiles then
    if t.openFiles ⟨fd - 3, h.2⟩ = .free then none else some ⟨fd - 3, h.2⟩
  else none

/-- An entry of the table of open files is overwritten. -/
def Usertask.setFile (t : Usertask) (j : Fin maxOpenFiles) (f : OpenFile) : Usertask :=
  { t with openFiles := Function.update t.openFiles j f }

/-- `State` of a process slot. -/
inductive ProcessState
  | unused
  | runnable
  | running
  | zombie
deriving DecidableEq

/-- `Process`: a task with its pid, parent and state, and whatever an `exec()` left to free. -/
structure Process where
  pid : ℤ
  parentPid : ℤ
  state : ProcessState
  exitStatus : ℤ
  hasRun : Bool
  savedRsp : ℕ
  task : Usertask
  pendingFreeAs : Option AddrSpace
  pendingFreeKstack : Option KernelStack

/-- `Process::EMPTY`. -/
def Process.empty : Process where
  pid := 0
  parentPid := 0
  state := .unused
  exitStatus := 0
  hasRun := false
  savedRsp := 0
  task := Usertask.empty
  pendingFreeAs := none
  pendingFreeKstack := none

/-- `KERNEL_PARENT_PID`: the parent of a process the kernel launched itself. -/
def kernelParentPid : ℤ := -1

/-- Whether a process has neither exited nor crashed (and its slot is in use). -/
def Process.Live (p : Process) : Prop := p.state = .runnable ∨ p.state = .running

instance (p : Process) : Decidable p.Live := inferInstanceAs (Decidable (_ ∨ _))

theorem Process.Live.ne_unused {p : Process} (h : p.Live) : p.state ≠ .unused := by
  rcases h with h | h <;> rw [h] <;> decide

/-- What `elf::load` determines about the new task. -/
structure LoadedImage where
  entry : ℕ
  userStackTop : ℕ
  kernelStackTop : ℕ
  pml4Phys : ℕ
  heapBase : ℕ

/-- The operations of the memory manager that processes use.  Each returns its result together with
the memory it leaves behind; `0` and `none` are the failures of the source. -/
class MemoryOps (M : Type) where
  /-- `elf::load`, run in the address space `cr3`. -/
  load (m : M) (cr3 : ℕ) (image : List UInt8) (argv : List (List UInt8)) : Option LoadedImage × M
  /-- `vmm::new_address_space`, run in the address space `cr3`. -/
  newAddressSpace (m : M) (cr3 : ℕ) : ℕ × M
  /-- `vmm::clone_user_pages`. -/
  cloneUserPages (m : M) (dst src : ℕ) : Bool × M
  /-- `vmm::free_user_pages`. -/
  freeUserPages (m : M) (pml4Phys : ℕ) : M
  /-- `elf::alloc_kernel_stack`. -/
  allocKernelStack (m : M) : Option ℕ × M
  /-- `elf::free_kernel_stack`. -/
  freeKernelStack (m : M) (top : ℕ) : M
  /-- One round of the loop in `sys_brk`: allocates, zeroes and maps one page. -/
  growHeap (m : M) (pml4Phys virt : ℕ) : Bool × M
  /-- Bytes stored at a user address of an address space. -/
  storeUser (m : M) (pml4Phys addr : ℕ) (bytes : List UInt8) : M
  /-- `GlobalAlloc::alloc` on behalf of any other part of the kernel. -/
  kernelAlloc (m : M) (size align : ℕ) : M
  /-- `GlobalAlloc::dealloc` on behalf of any other part of the kernel. -/
  kernelDealloc (m : M) (ptr size align : ℕ) : M

end AnssOS
