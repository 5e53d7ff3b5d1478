import AnssOS.Exec.Task
import AnssOS.Foundation.Ledger
import AnssOS.Foundation.Transition

/-!
# The process table, the scheduler and the dispatch of user programs

`kernel/src/exec/process.rs`, the process part of `kernel/src/exec/syscall.rs`,
`kernel/src/arch/x86_64/usermode.rs` and the interrupt handlers of `idt.rs`, as one machine.

The kernel's call stack is explicit: `Kernel.frames` lists the activations of `run_until`,
`dispatch` and `sys_wait` that are under way, innermost first.  While the innermost activation is a
`dispatch`, its process runs in ring 3; while it is a `run_until`, the scheduler loop runs.
`return_to_kernel` does not return to its caller but drops every activation above the one recorded
in the running task's `kernelResume`, exactly as far as that record says.

Every system call but `wait` is one step.  `wait` pushes a nested `run_until`; its own remainder,
from the return of that call to the return to ring 3, is the activation `waitDone`.
-/

namespace AnssOS

/-! ### The heap of pipes -/

/-- A pipe in the kernel heap and how often it has been freed.  A freed pipe keeps its stale
contents, so that a use after free is an ordinary value and not an impossible one. -/
structure PipeCell where
  pipe : Pipe
  frees : ℕ

/-- The pipes created so far: those with an index below `next`. -/
structure PipeHeap where
  cells : ℕ → PipeCell
  next : ℕ

namespace PipeHeap

/-- No pipe yet. -/
def empty : PipeHeap := ⟨fun _ => ⟨Pipe.create, 0⟩, 0⟩

/-- `pipe::create()`: the new pipe's index is the old `next`. -/
def create (h : PipeHeap) : PipeHeap :=
  ⟨Function.update h.cells h.next ⟨Pipe.create, 0⟩, h.next + 1⟩

/-- A pipe is modified in place. -/
def modify (h : PipeHeap) (p : ℕ) (f : Pipe → Pipe) : PipeHeap :=
  { h with cells := Function.update h.cells p { h.cells p with pipe := f (h.cells p).pipe } }

/-- `free_if_unused`. -/
def freeIfUnused (h : PipeHeap) (p : ℕ) : PipeHeap :=
  if (h.cells p).pipe.readRefs = 0 ∧ (h.cells p).pipe.writeRefs = 0 then
    { h with cells := Function.update h.cells p { h.cells p with frees := (h.cells p).frees + 1 } }
  else h

/-- One more reference to an end of a pipe: the write end if `writeEnd`, else the read end. -/
def bump (h : PipeHeap) (p : ℕ) (writeEnd : Bool) : PipeHeap :=
  h.modify p fun q =>
    if writeEnd then { q with writeRefs := wrapI32 (q.writeRefs + 1) }
    else { q with readRefs := wrapI32 (q.readRefs + 1) }

/-- `close_read` (for `writeEnd = false`) and `close_write`. -/
def close (h : PipeHeap) (p : ℕ) (writeEnd : Bool) : PipeHeap :=
  (h.modify p fun q =>
    if writeEnd then { q with writeRefs := wrapI32 (q.writeRefs - 1) }
    else { q with readRefs := wrapI32 (q.readRefs - 1) }).freeIfUnused p

/-- `close` for a pipe that may be the null pointer. -/
def closeOpt (h : PipeHeap) (p : Option ℕ) (writeEnd : Bool) : PipeHeap :=
  match p with
  | some p => h.close p writeEnd
  | none => h

/-- `bump` for a pipe that may be the null pointer. -/
def bumpOpt (h : PipeHeap) (p : Option ℕ) (writeEnd : Bool) : PipeHeap :=
  match p with
  | some p => h.bump p writeEnd
  | none => h

/-- `close` for an open file, which may be no pipe. -/
def closeFile (h : PipeHeap) (f : OpenFile) : PipeHeap :=
  match f with
  | .pipe p writeEnd => h.close p writeEnd
  | _ => h

/-- `bump` for an open file, which may be no pipe. -/
def bumpFile (h : PipeHeap) (f : OpenFile) : PipeHeap :=
  match f with
  | .pipe p writeEnd => h.bump p writeEnd
  | _ => h

/-- The second step of `fork()`: every pipe entry of the copied task is a new reference. -/
def bumpTask (h : PipeHeap) (t : Usertask) : PipeHeap :=
  let h := (List.finRange maxOpenFiles).foldl (fun h j => h.bumpFile (t.openFiles j)) h
  (h.bumpOpt t.stdinPipe false).bumpOpt t.stdoutPipe true

end PipeHeap

/-! ### The state of the kernel -/

/-- An activation on the kernel's call stack. -/
inductive Frame
  /-- `run_until(wait_pid)`, in its loop; `outer` is its local of that name. -/
  | runUntil (waitPid : Option ℤ) (outer : Option SlotId)
  /-- `dispatch(t)`, with its locals `caller_as` and `outer`; the task is running. -/
  | dispatch (t : SlotId) (callerAs : AddrSpace) (outer : Option SlotId)
  /-- `sys_wait`, inside its call of `run_until`. -/
  | wait (target : ℤ) (status : ℕ)
  /-- `sys_wait`, after `run_until` returned `code`. -/
  | waitDone (target : ℤ) (status : ℕ) (code : ℤ)
deriving DecidableEq

/-- The state of the kernel.  `current` and `currentTask` are the two records of who is running
(`Table.current` and `CURRENT_TASK`); `cr3`, `rsp0` and `fpu` are the machine's own. -/
structure Kernel (M : Type) where
  processes : SlotId → Process
  nextPid : ℤ
  current : Option SlotId
  lastPicked : SlotId
  currentTask : Option SlotId
  cr3 : AddrSpace
  rsp0 : KernelStack
  fpu : FpuState
  frames : List Frame
  pipes : PipeHeap
  mem : M
  vfsRoot : ℕ
  asLedger : Ledger
  ksLedger : Ledger

/-- The kernel at boot, in the address space `kas`, before any process was launched. -/
def Kernel.boot {M : Type} (m : M) (kas : AddrSpace) (vfsRoot : ℕ) : Kernel M where
  processes := fun _ => Process.empty
  nextPid := 1
  current := none
  lastPicked := Fin.ofNat maxProcesses (maxProcesses - 1)
  currentTask := none
  cr3 := kas
  rsp0 := ⟨0, 0⟩
  fpu := fpuStateInit
  frames := []
  pipes := PipeHeap.empty
  mem := m
  vfsRoot := vfsRoot
  asLedger := Ledger.empty
  ksLedger := Ledger.empty

namespace Kernel

variable {M : Type}

/-- A slot of the process table is overwritten. -/
def setProcess (s : Kernel M) (i : SlotId) (p : Process) : Kernel M :=
  { s with processes := Function.update s.processes i p }

/-- A slot's task is overwritten. -/
def setTask (s : Kernel M) (i : SlotId) (t : Usertask) : Kernel M :=
  s.setProcess i { s.processes i with task := t }

/-! ### The process table -/

/-- The slot `by_pid` finds. -/
def byPid (s : Kernel M) (pid : ℤ) : Option SlotId :=
  (List.finRange maxProcesses).find? fun i =>
    (s.processes i).state ≠ .unused ∧ (s.processes i).pid = pid

/-- `find_child`: a child of `parentPid`, exactly `pid` if given, else any, an exited one first. -/
def findChild (s : Kernel M) (parentPid : ℤ) (pid : Option ℤ) : Option SlotId :=
  match pid with
  | some pid => (s.byPid pid).filter fun i => (s.processes i).parentPid = parentPid
  | none =>
      let isChild := fun i =>
        decide ((s.processes i).state ≠ .unused ∧ (s.processes i).parentPid = parentPid)
      ((List.finRange maxProcesses).find? fun i =>
          isChild i && decide ((s.processes i).state = .zombie)).or
        ((List.finRange maxProcesses).find? isChild)

/-- `alloc_slot`. -/
def allocSlot (s : Kernel M) : Option SlotId :=
  (List.finRange maxProcesses).find? fun i => (s.processes i).state = .unused

/-- `next_pid`. -/
def takePid (s : Kernel M) : ℤ × Kernel M :=
  (s.nextPid, { s with nextPid := wrapI32 (s.nextPid + 1) })

section Memory

variable [MemoryOps M]

/-- `vmm::free_user_pages` of an address space. -/
def freeUserPages (s : Kernel M) (a : AddrSpace) : Kernel M :=
  { s with
    mem := MemoryOps.freeUserPages s.mem a.pml4Phys
    asLedger := s.asLedger.release a.serial }

/-- `elf::free_kernel_stack`. -/
def freeKernelStack (s : Kernel M) (k : KernelStack) : Kernel M :=
  { s with
    mem := MemoryOps.freeKernelStack s.mem k.top
    ksLedger := s.ksLedger.release k.serial }

/-- `elf::load`: the new task starts in `cwd`, or in the root directory. -/
def load (s : Kernel M) (image : List UInt8) (argv : List (List UInt8)) (cwd : Option ℕ) :
    Option Usertask × Kernel M :=
  match MemoryOps.load s.mem s.cr3.pml4Phys image argv with
  | (none, m) => (none, { s with mem := m })
  | (some img, m) =>
      (some { Usertask.empty with
          entry := img.entry
          userStackTop := img.userStackTop
          kernelStackTop := ⟨img.kernelStackTop, s.ksLedger.next⟩
          aspace := ⟨img.pml4Phys, s.asLedger.next⟩
          heapStart := img.heapBase
          heapEnd := img.heapBase
          cwd := some (cwd.getD s.vfsRoot)
          termios := Termios.defaultConsole
          fpuState := fpuStateInit },
        { s with mem := m, asLedger := s.asLedger.create, ksLedger := s.ksLedger.create })

/-- `spawn`: loads `image` into a new process.  The new pid, or `none`. -/
def spawn (s : Kernel M) (image : List UInt8) (argv : List (List UInt8)) (cwd : Option ℕ)
    (parentPid : ℤ) : Option ℤ × Kernel M :=
  match s.allocSlot with
  | none => (none, s)
  | some i =>
      match s.load image argv cwd with
      | (none, s) => (none, s)
      | (some task, s) =>
          let (pid, s) := s.takePid
          (some pid, s.setProcess i
            { Process.empty with pid := pid, parentPid := parentPid, state := .runnable, task := task })

/-- The size of an `InterruptFrame`. -/
def interruptFrameSize : ℕ := 176

/-- `fork`, called for the process in the slot `parent`.  The child's pid, or `none`. -/
def fork (s : Kernel M) (parent : SlotId) : Option ℤ × Kernel M :=
  match s.allocSlot with
  | none => (none, s)
  | some i =>
      let old := s.processes parent
      let task := { old.task with fpuState := s.fpu }
      let s := { s with pipes := s.pipes.bumpTask task }
      let (pml4, m) := MemoryOps.newAddressSpace s.mem s.cr3.pml4Phys
      let aspace : AddrSpace := ⟨pml4, s.asLedger.next⟩
      let s := { s with mem := m, asLedger := s.asLedger.create }
      match MemoryOps.cloneUserPages s.mem pml4 old.task.aspace.pml4Phys with
      | (false, m) => (none, { s with mem := m }.freeUserPages aspace)
      | (true, m) =>
          let s := { s with mem := m }
          match MemoryOps.allocKernelStack s.mem with
          | (none, m) => (none, { s with mem := m }.freeUserPages aspace)
          | (some top, m) =>
              let kstack : KernelStack := ⟨top, s.ksLedger.next⟩
              let s := { s with mem := m, ksLedger := s.ksLedger.create }
              let (pid, s) := s.takePid
              (some pid, s.setProcess i
                { Process.empty with
                  pid := pid
                  parentPid := old.pid
                  state := .runnable
                  hasRun := true
                  savedRsp := top - interruptFrameSize
                  task := { task with aspace := aspace, kernelStackTop := kstack } })

/-- `exec`, called for the process in the slot `p`: replaces its program in place.  The old address
space and kernel stack stay behind as pending. -/
def exec (s : Kernel M) (p : SlotId) (image : List UInt8) (argv : List (List UInt8)) :
    Bool × Kernel M :=
  let old := (s.processes p).task
  match s.load image argv old.cwd with
  | (none, s) => (false, s)
  | (some new, s) =>
      let task := { new with
        openFiles := old.openFiles
        cwd := old.cwd
        termios := old.termios
        winsize := old.winsize
        stdinPipe := old.stdinPipe
        stdoutPipe := old.stdoutPipe
        kernelResume := old.kernelResume }
      (true, { s.setProcess p
          { s.processes p with
            pendingFreeAs := some old.aspace
            pendingFreeKstack := some old.kernelStackTop
            task := task
            hasRun := false
            state := .runnable } with fpu := task.fpuState })

/-- `free_pending`: frees whatever an earlier `exec` of this process left pending. -/
def freePending (s : Kernel M) (i : SlotId) : Kernel M :=
  let p := s.processes i
  let s := match p.pendingFreeAs with
    | some a => s.freeUserPages a
    | none => s
  let s := match p.pendingFreeKstack with
    | some k => s.freeKernelStack k
    | none => s
  s.setProcess i { p with pendingFreeAs := none, pendingFreeKstack := none }

/-- `reap`: frees a zombie's address space and kernel stack and returns its slot. -/
def reap (s : Kernel M) (i : SlotId) : Kernel M :=
  let s := s.freePending i
  let p := s.processes i
  let s := (s.freeUserPages p.task.aspace).freeKernelStack p.task.kernelStackTop
  s.setProcess i { p with state := .unused }

end Memory

/-- `pick_next_runnable`: round robin, starting after the slot picked last. -/
def pickNextRunnable (s : Kernel M) : Option SlotId :=
  ((List.range maxProcesses).map fun k => Fin.ofNat maxProcesses (s.lastPicked + (k + 1))).find?
    fun i => (s.processes i).state = .runnable

end Kernel

end AnssOS
