import AnssOS.Exec.Kernel

/-!
# Dispatch, system calls and the steps of the kernel

The second half of the kernel machine: the switch into ring 3 and back (`usermode.rs`), the loop of
`run_until`, the system calls that act on processes, pipes and the heap of a task, and the
transition system `kernelSystem` whose events they are.
-/

namespace AnssOS

namespace Kernel

variable {M : Type}

/-! ### Entering and leaving ring 3 -/

/-- `fpu::save` into a task that may be the null pointer. -/
def parkFpu (s : Kernel M) (t : Option SlotId) : Kernel M :=
  match t with
  | some t => s.setTask t { (s.processes t).task with fpuState := s.fpu }
  | none => s

/-- `dispatch` up to the point where the task runs: parks the outer task's registers, loads those
of `t`, switches to its stack and address space and saves the kernel context in `t`. -/
def enterDispatch (s : Kernel M) (t : SlotId) : Kernel M :=
  let outer := s.currentTask
  let parked := s.parkFpu outer
  let task := (parked.processes t).task
  { parked.setTask t { task with kernelResume := s.frames.length + 1 } with
    fpu := task.fpuState
    rsp0 := task.kernelStackTop
    cr3 := task.aspace
    currentTask := some t
    frames := .dispatch t s.cr3 outer :: s.frames }

/-- The rest of `dispatch(t)`, once `t` has stopped; `rest` are the activations below it. -/
def leaveDispatch (s : Kernel M) (t : SlotId) (callerAs : AddrSpace) (outer : Option SlotId)
    (rest : List Frame) : Kernel M :=
  let parked := s.parkFpu (some t)
  { parked with
    fpu := match outer with
      | some o => (parked.processes o).task.fpuState
      | none => s.fpu
    currentTask := outer
    cr3 := callerAs
    frames := rest }

/-- `return_to_kernel`: goes back to the activation saved in the running task, whatever is above
it.  `none` is the panic "outside a dispatch", or a saved context that is no dispatch. -/
def returnToKernel (s : Kernel M) : Option (Kernel M) :=
  match s.currentTask with
  | none => none
  | some t =>
      match s.frames.drop (s.frames.length - (s.processes t).task.kernelResume) with
      | .dispatch t callerAs outer :: rest => some (s.leaveDispatch t callerAs outer rest)
      | _ => none

/-! ### The scheduler loop -/

/-- The end of `run_until`: `current` and the kernel stack go back to the process it unwinds into,
and its caller — `sys_wait`, or the kernel itself — takes over. -/
def runUntilReturn (s : Kernel M) (outer : Option SlotId) (rest : List Frame) (code : ℤ) :
    Option (Kernel M) :=
  let s := { s with
    current := outer
    rsp0 := match outer with
      | some i => (s.processes i).task.kernelStackTop
      | none => s.rsp0 }
  match rest with
  | .wait target status :: rest => some { s with frames := .waitDone target status code :: rest }
  | [] => some { s with frames := [] }
  | _ => none

section Memory

variable [MemoryOps M]

/-- The second half of a round of `run_until`: dispatches the next runnable process, or waits for an
interrupt if there is none. -/
def pickAndDispatch (s : Kernel M) : Kernel M :=
  match s.pickNextRunnable with
  | none => s
  | some next =>
      let s := { s with lastPicked := next }.freePending next
      let s := { s.setProcess next
        { s.processes next with state := .running, hasRun := true } with current := some next }
      s.enterDispatch next

/-- The scan of `run_until(None)`: reaps every zombie and tells whether any process is left. -/
def reapZombies (s : Kernel M) : Kernel M × Bool :=
  (List.finRange maxProcesses).foldl (fun (s, anyAlive) i =>
    match (s.processes i).state with
    | .zombie => (s.reap i, anyAlive)
    | .unused => (s, anyAlive)
    | _ => (s, true)) (s, false)

/-- One round of the loop of the innermost `run_until`. -/
def runUntilRound (s : Kernel M) : Option (Kernel M) :=
  match s.frames with
  | .runUntil (some pid) outer :: rest =>
      match s.byPid pid with
      | none => s.runUntilReturn outer rest (-1)
      | some target =>
          if (s.processes target).state = .zombie then
            (s.reap target).runUntilReturn outer rest (s.processes target).exitStatus
          else some s.pickAndDispatch
  | .runUntil none outer :: rest =>
      match s.reapZombies with
      | (s, false) => s.runUntilReturn outer rest 0
      | (s, true) => some s.pickAndDispatch
  | _ => none

end Memory

/-! ### System calls -/

/-- `user_ok`: the range lies below the kernel's half of the address space. -/
def userOk (ptr len : ℕ) : Bool :=
  decide (ptr < 0x800000000000 ∧ ptr + len < 2 ^ 64 ∧ ptr + len < 0x800000000000)

/-- The bytes of an `i32`, lowest first. -/
def i32Bytes (x : ℤ) : List UInt8 :=
  (List.range 4).map fun k => UInt8.ofNat ((x % 2 ^ 32).toNat / 256 ^ k)

/-- `open_file`: the entry behind a file descriptor, unless it is free. -/
def openFile (s : Kernel M) (fd : ℕ) : Option (SlotId × Fin maxOpenFiles) :=
  match s.currentTask with
  | none => none
  | some t => ((s.processes t).task.openFile fd).map fun j => (t, j)

/-- An entry of a task's table of open files is overwritten. -/
def setOpenFile (s : Kernel M) (t : SlotId) (j : Fin maxOpenFiles) (f : OpenFile) : Kernel M :=
  s.setTask t ((s.processes t).task.setFile j f)

/-- `sys_close`. -/
def sysClose (s : Kernel M) (fd : ℕ) : Option ℤ × Kernel M :=
  match s.openFile fd with
  | none => (none, s)
  | some (t, j) =>
      (some 0, { s with
        pipes := s.pipes.closeFile ((s.processes t).task.openFiles j) }.setOpenFile t j .free)

/-- `sys_use_as_stdio`: a move of two pipe entries to standard input and output. -/
def sysUseAsStdio (s : Kernel M) (stdinFd stdoutFd : ℕ) : Option ℤ × Kernel M :=
  match s.openFile stdinFd, s.openFile stdoutFd with
  | some (t, a), some (_, b) =>
      match (s.processes t).task.openFiles a, (s.processes t).task.openFiles b with
      | .pipe input false, .pipe output true =>
          let s := s.setTask t { (s.processes t).task with
            stdinPipe := some input
            stdoutPipe := some output }
          (some 0, (s.setOpenFile t a .free).setOpenFile t b .free)
      | _, _ => (none, s)
  | _, _ => (none, s)

/-- The pipe branches of `sys_write`. -/
def sysWritePipe (s : Kernel M) (fd : ℕ) (data : List UInt8) : Option ℤ × Kernel M :=
  let write := fun (p : ℕ) =>
    (some (((((s.pipes.cells p).pipe.write data).1).map fun n => (n : ℤ)).getD (-1)),
      { s with pipes := s.pipes.modify p fun q => (q.write data).2 })
  if fd = 1 ∨ fd = 2 then
    match s.currentTask.bind fun t => (s.processes t).task.stdoutPipe with
    | some p => write p
    | none => (none, s)
  else
    match s.openFile fd with
    | some (t, j) =>
        match (s.processes t).task.openFiles j with
        | .pipe p true => write p
        | _ => (none, s)
    | none => (none, s)

/-- The pipe branches of `sys_read`; the bytes read are returned beside the result. -/
def sysReadPipe (s : Kernel M) (fd len : ℕ) : Option ℤ × List UInt8 × Kernel M :=
  let read := fun (p : ℕ) =>
    (some ((((s.pipes.cells p).pipe.read len).1.map fun out => (out.length : ℤ)).getD (-1)),
      ((s.pipes.cells p).pipe.read len).1.getD [],
      { s with pipes := s.pipes.modify p fun q => (q.read len).2 })
  if fd = 0 then
    match s.currentTask.bind fun t => (s.processes t).task.stdinPipe with
    | some p => read p
    | none => (none, [], s)
  else
    match s.openFile fd with
    | some (t, j) =>
        match (s.processes t).task.openFiles j with
        | .pipe p false => read p
        | _ => (none, [], s)
    | none => (none, [], s)

/-- `close_stdio_pipes`. -/
def closeStdioPipes (s : Kernel M) (i : SlotId) : Kernel M :=
  let task := (s.processes i).task
  { s with
    pipes := (s.pipes.closeOpt task.stdinPipe false).closeOpt task.stdoutPipe true }.setTask i
      { task with stdinPipe := none, stdoutPipe := none }

/-- A process becomes a zombie: what `exit()` and a crash in ring 3 do to it. -/
def terminate (s : Kernel M) (i : SlotId) (code : ℤ) : Kernel M :=
  let s := s.closeStdioPipes i
  s.setProcess i { s.processes i with state := .zombie, exitStatus := code }

/-- `exit()`, and the end of a process that crashed in ring 3. -/
def stopCurrent (s : Kernel M) (code : ℤ) : Option (Kernel M) :=
  (match s.current with
    | some me => s.terminate me code
    | none => s).returnToKernel

/-- `sched_yield()` and the preemption by the tick: the process stays runnable, and its registers
are in the interrupt frame at the top of the kernel stack. -/
def suspendCurrent (s : Kernel M) : Option (Kernel M) :=
  match s.current with
  | some me =>
      (s.setProcess me
        { s.processes me with savedRsp := s.rsp0.top - interruptFrameSize, state := .runnable }).returnToKernel
  | none => some s

/-- `sys_wait` up to its call of `run_until`, for the child `pid` or for any child. -/
def waitFor (s : Kernel M) (pid : Option ℤ) (status : ℕ) : Option ℤ × Kernel M :=
  match s.current with
  | none => (none, s)
  | some me =>
      match s.findChild (s.processes me).pid pid with
      | none => (none, s)
      | some child =>
          let target := (s.processes child).pid
          (some target,
            { s with frames := .runUntil (some target) s.current :: .wait target status :: s.frames })

/-- `sys_wait`: a negative pid stands for any child. -/
def sysWait (s : Kernel M) (pid status : ℕ) : Option ℤ × Kernel M :=
  s.waitFor ((some (wrapI32 pid)).filter fun pid => 0 ≤ pid) status

/-- `HEAP_MAX_BYTES`. -/
def heapMaxBytes : ℕ := 4 * 1024 * 1024

section Memory

variable [MemoryOps M]

/-- `sys_pipe`. -/
def sysPipe (s : Kernel M) (pipefd : ℕ) : Option ℤ × Kernel M :=
  match s.currentTask with
  | none => (none, s)
  | some t =>
      if userOk pipefd 8 then
        match (List.finRange maxOpenFiles).filter fun j =>
            (s.processes t).task.openFiles j = .free with
        | r :: w :: _ =>
            let p := s.pipes.next
            let s := { s with pipes := s.pipes.create }
            let s := (s.setOpenFile t r (.pipe p false)).setOpenFile t w (.pipe p true)
            (some 0, { s with
              mem := MemoryOps.storeUser s.mem s.cr3.pml4Phys pipefd
                (i32Bytes (3 + r.val) ++ i32Bytes (3 + w.val)) })
        | _ => (none, s)
      else (none, s)

/-- The loop of `sys_brk`, for at most `n` rounds. -/
def brkLoop (t : SlotId) (newEnd : ℕ) : ℕ → Kernel M → Option ℤ × Kernel M
  | 0, s => (some (s.processes t).task.heapEnd, s)
  | n + 1, s =>
      let task := (s.processes t).task
      if task.heapEnd < newEnd then
        match MemoryOps.growHeap s.mem task.aspace.pml4Phys task.heapEnd with
        | (false, m) => (none, { s with mem := m })
        | (true, m) =>
            brkLoop t newEnd n
              ({ s with mem := m }.setTask t
                { task with heapEnd := (task.heapEnd + 4096) % 2 ^ 64 })
      else (some task.heapEnd, s)

/-- `sys_brk`.  Every round of its loop moves the end of the heap towards `newEnd`, so that
`newEnd` rounds are always enough. -/
def sysBrk (s : Kernel M) (newEnd : ℕ) : Option ℤ × Kernel M :=
  match s.currentTask with
  | none => (none, s)
  | some t =>
      let task := (s.processes t).task
      if newEnd = 0 ∨ newEnd ≤ task.heapEnd then (some task.heapEnd, s)
      else if heapMaxBytes < (newEnd + 2 ^ 64 - task.heapStart) % 2 ^ 64 then (none, s)
      else brkLoop t newEnd newEnd s

/-! ### Events and steps -/

end Memory

end Kernel

/-- What the process in ring 3 can do, or what can happen to it. -/
inductive UserEvent
  /-- The program computes; its x87/SSE registers become `fpu`. -/
  | compute (fpu : FpuState)
  /-- The program stores bytes in its memory. -/
  | store (addr : ℕ) (bytes : List UInt8)
  | pipe (pipefd : ℕ)
  | close (fd : ℕ)
  | useAsStdio (stdinFd stdoutFd : ℕ)
  | write (fd : ℕ) (data : List UInt8)
  | read (fd len : ℕ)
  | brk (newEnd : ℕ)
  | fork
  /-- `execve` of a file with the content `image`. -/
  | execve (image : List UInt8) (argv : List (List UInt8))
  | wait (pid status : ℕ)
  | schedYield
  | exit (code : ℕ)
  /-- A CPU exception in ring 3. -/
  | crash
  /-- The timer interrupts ring 3. -/
  | tick

/-- The events of the kernel machine. -/
inductive Event
  /-- The kernel launches a program (`kmain`, or the kernel shell's `run`). -/
  | spawn (image : List UInt8) (argv : List (List UInt8)) (cwd : Option ℕ)
  /-- The kernel calls `run_until(None)`. -/
  | runUntil
  /-- One round of the innermost `run_until` loop. -/
  | round
  /-- `sys_wait` stores the status and returns to ring 3. -/
  | waitReturn
  /-- The process in ring 3 acts. -/
  | user (u : UserEvent)
  /-- Another part of the kernel allocates on the kernel heap. -/
  | kernelAlloc (size align : ℕ)
  /-- Another part of the kernel frees on the kernel heap. -/
  | kernelDealloc (ptr size align : ℕ)

namespace Kernel

variable {M : Type} [MemoryOps M]

/-- `syscall_dispatch`, `isr_handler` and `irq_handler`, for the process in ring 3. -/
def userStep (s : Kernel M) : UserEvent → Option (Kernel M)
  | .compute fpu => some { s with fpu := fpu }
  | .store addr bytes =>
      some { s with mem := MemoryOps.storeUser s.mem s.cr3.pml4Phys addr bytes }
  | .pipe pipefd => some (s.sysPipe pipefd).2
  | .close fd => some (s.sysClose fd).2
  | .useAsStdio stdinFd stdoutFd => some (s.sysUseAsStdio stdinFd stdoutFd).2
  | .write fd data => some (s.sysWritePipe fd data).2
  | .read fd len => some (s.sysReadPipe fd len).2.2
  | .brk newEnd => some (s.sysBrk newEnd).2
  | .fork =>
      match s.current with
      | some me => some (s.fork me).2
      | none => some s
  | .execve image argv =>
      match s.current with
      | some me =>
          match s.exec me image argv with
          | (false, s) => some s
          | (true, s) => s.returnToKernel
      | none => some s
  | .wait pid status => some (s.sysWait pid status).2
  | .schedYield => s.suspendCurrent
  | .exit code => s.stopCurrent (wrapI32 code)
  | .crash => s.stopCurrent (-1)
  | .tick => s.suspendCurrent

/-- One step of the kernel machine. -/
def step (s : Kernel M) : Event → Option (Kernel M)
  | .spawn image argv cwd =>
      match s.frames with
      | [] => some (s.spawn image argv cwd kernelParentPid).2
      | _ => none
  | .runUntil =>
      match s.frames with
      | [] => some { s with frames := [.runUntil none s.current] }
      | _ => none
  | .round => s.runUntilRound
  | .waitReturn =>
      match s.frames with
      | .waitDone _ status code :: rest =>
          let mem := if status ≠ 0 ∧ userOk status 4 then
              MemoryOps.storeUser s.mem s.cr3.pml4Phys status (i32Bytes code)
            else s.mem
          some { s with mem := mem, frames := rest }
      | _ => none
  | .user u =>
      match s.frames with
      | .dispatch _ _ _ :: _ => s.userStep u
      | _ => none
  | .kernelAlloc size align => some { s with mem := MemoryOps.kernelAlloc s.mem size align }
  | .kernelDealloc ptr size align =>
      some { s with mem := MemoryOps.kernelDealloc s.mem ptr size align }

end Kernel

/-- The kernel as a transition system: every memory at boot, and the address space `kas`. -/
def kernelSystem (M : Type) [MemoryOps M] (kas : AddrSpace) :
    TransitionSystem (Kernel M) Event where
  init s := ∃ m root, s = Kernel.boot m kas root
  step := Kernel.step

/-! ### A memory for concrete runs -/

/-- A memory that never runs out: all it keeps is the next address to hand out. -/
structure EndlessMemory where
  next : ℕ

instance : MemoryOps EndlessMemory where
  load m _ _ _ := (some ⟨0, 0, m.next + 1, m.next, 0⟩, ⟨m.next + 2⟩)
  newAddressSpace m _ := (m.next, ⟨m.next + 1⟩)
  cloneUserPages m _ _ := (true, m)
  freeUserPages m _ := m
  allocKernelStack m := (some m.next, ⟨m.next + 1⟩)
  freeKernelStack m _ := m
  growHeap m _ _ := (true, m)
  storeUser m _ _ _ := m
  kernelAlloc m _ _ := m
  kernelDealloc m _ _ _ := m

end AnssOS
