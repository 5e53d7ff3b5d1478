import AnssOS.Exec.Machine

/-!
# What the operations of the kernel can do

One lemma for each operation that says everything it can do to the state of the kernel, as an
explicit record.  The invariants of the following modules are derived from these lemmas and never
unfold the operations again.  The memory an operation leaves behind is kept existentially
quantified: only the memory module looks inside it.
-/

namespace AnssOS

open List Option Function

namespace Kernel

variable {M : Type}

/-! ### Small facts about slots -/

@[simp] theorem setProcess_processes (s : Kernel M) (i : SlotId) (p : Process) :
    (s.setProcess i p).processes = Function.update s.processes i p := rfl

theorem allocSlot_unused {s : Kernel M} {i : SlotId} (h : s.allocSlot = some i) :
    (s.processes i).state = .unused := by
  simpa using find?_some h

theorem byPid_spec {s : Kernel M} {pid : ℤ} {i : SlotId} (h : s.byPid pid = some i) :
    (s.processes i).state ≠ .unused ∧ (s.processes i).pid = pid := by
  simpa using find?_some h

theorem pickNextRunnable_runnable {s : Kernel M} {i : SlotId} (h : s.pickNextRunnable = some i) :
    (s.processes i).state = .runnable := by
  simpa using find?_some h

/-- The child found by `find_child` is in use and is a child; with a pid given, it has that pid. -/
theorem findChild_spec {s : Kernel M} {parentPid : ℤ} {pid : Option ℤ} {i : SlotId}
    (h : s.findChild parentPid pid = some i) :
    (s.processes i).state ≠ .unused ∧ (s.processes i).parentPid = parentPid ∧
      ∀ q, pid = some q → (s.processes i).pid = q := by
  cases pid with
  | some q =>
    rw [findChild, filter_eq_some_iff] at h
    obtain ⟨hused, hpid⟩ := byPid_spec h.1
    refine ⟨hused, by simpa using h.2, ?_⟩
    intro r hr
    rw [← some.inj hr]
    exact hpid
  | none =>
    rw [findChild, or_eq_some_iff] at h
    have hchild : (s.processes i).state ≠ .unused ∧ (s.processes i).parentPid = parentPid := by
      rcases h with h | ⟨-, h⟩
      · have := find?_some h
        simp only [Bool.and_eq_true, decide_eq_true_eq] at this
        exact this.1
      · simpa using find?_some h
    exact ⟨hchild.1, hchild.2, by simp⟩

section Memory

variable [MemoryOps M]

/-! ### Loading, forking and replacing programs -/

/-- The task a successful `load` makes. -/
def loadedTask (s : Kernel M) (img : LoadedImage) (cwd : Option ℕ) : Usertask :=
  { Usertask.empty with
    entry := img.entry
    userStackTop := img.userStackTop
    kernelStackTop := ⟨img.kernelStackTop, s.ksLedger.next⟩
    aspace := ⟨img.pml4Phys, s.asLedger.next⟩
    heapStart := img.heapBase
    heapEnd := img.heapBase
    cwd := some (cwd.getD s.vfsRoot)
    termios := Termios.defaultConsole
    fpuState := fpuStateInit }

/-- `load` either fails, or makes a task with a new address space and a new kernel stack. -/
theorem load_cases (s : Kernel M) (image : List UInt8) (argv : List (List UInt8))
    (cwd : Option ℕ) :
    (∃ m, MemoryOps.load s.mem s.cr3.pml4Phys image argv = (none, m) ∧
      s.load image argv cwd = (none, { s with mem := m })) ∨
    (∃ img m, MemoryOps.load s.mem s.cr3.pml4Phys image argv = (some img, m) ∧
      s.load image argv cwd = (some (s.loadedTask img cwd),
        { s with mem := m, asLedger := s.asLedger.create, ksLedger := s.ksLedger.create })) := by
  rcases h : MemoryOps.load s.mem s.cr3.pml4Phys image argv with ⟨_ | img, m⟩
  · exact Or.inl ⟨m, rfl, by simp [load, h]⟩
  · exact Or.inr ⟨img, m, rfl, by simp [load, h, loadedTask]⟩

/-- `spawn` either makes no process, or puts a runnable one into an unused slot. -/
theorem spawn_cases (s : Kernel M) (image : List UInt8) (argv : List (List UInt8))
    (cwd : Option ℕ) (parentPid : ℤ) :
    (∃ m, s.spawn image argv cwd parentPid = (none, { s with mem := m })) ∨
    (∃ i img m, s.allocSlot = some i ∧ s.spawn image argv cwd parentPid = (some s.nextPid,
      { s with
        processes := Function.update s.processes i
          { Process.empty with
            pid := s.nextPid
            parentPid := parentPid
            state := .runnable
            task := s.loadedTask img cwd }
        nextPid := wrapI32 (s.nextPid + 1)
        mem := m
        asLedger := s.asLedger.create
        ksLedger := s.ksLedger.create })) := by
  cases hslot : s.allocSlot with
  | none => exact Or.inl ⟨s.mem, by simp [spawn, hslot]⟩
  | some i =>
    rcases s.load_cases image argv cwd with ⟨m, -, hload⟩ | ⟨img, m, -, hload⟩
    · exact Or.inl ⟨m, by simp [spawn, hslot, hload]⟩
    · exact Or.inr ⟨i, img, m, rfl, by simp [spawn, hslot, hload, takePid, setProcess]⟩

/-- The child process a successful `fork` makes. -/
def forkedChild (s : Kernel M) (parent : SlotId) (pml4 top : ℕ) : Process :=
  { Process.empty with
    pid := s.nextPid
    parentPid := (s.processes parent).pid
    state := .runnable
    hasRun := true
    savedRsp := top - interruptFrameSize
    task := { (s.processes parent).task with
      fpuState := s.fpu
      aspace := ⟨pml4, s.asLedger.next⟩
      kernelStackTop := ⟨top, s.ksLedger.next⟩ } }

/-- `fork` finds no slot, or fails once it has counted the child's pipe references, or puts a
runnable copy of the parent into an unused slot. -/
theorem fork_cases (s : Kernel M) (parent : SlotId) :
    (s.allocSlot = none ∧ s.fork parent = (none, s)) ∨
    (∃ i m, s.allocSlot = some i ∧ s.fork parent = (none,
      { s with
        pipes := s.pipes.bumpTask (s.processes parent).task
        mem := m
        asLedger := s.asLedger.create.release s.asLedger.next })) ∨
    (∃ i m pml4 top, s.allocSlot = some i ∧ s.fork parent = (some s.nextPid,
      { s with
        processes := Function.update s.processes i (s.forkedChild parent pml4 top)
        nextPid := wrapI32 (s.nextPid + 1)
        pipes := s.pipes.bumpTask (s.processes parent).task
        mem := m
        asLedger := s.asLedger.create
        ksLedger := s.ksLedger.create })) := by
  cases hslot : s.allocSlot with
  | none => exact Or.inl ⟨rfl, by simp [fork, hslot]⟩
  | some i =>
    have hbump : s.pipes.bumpTask { (s.processes parent).task with fpuState := s.fpu } =
        s.pipes.bumpTask (s.processes parent).task := rfl
    rcases hnew : MemoryOps.newAddressSpace s.mem s.cr3.pml4Phys with ⟨pml4, m₁⟩
    rcases hclone : MemoryOps.cloneUserPages m₁ pml4 (s.processes parent).task.aspace.pml4Phys with
      ⟨_ | _, m₂⟩
    · refine Or.inr (Or.inl ⟨i, MemoryOps.freeUserPages m₂ pml4, rfl, ?_⟩)
      simp [fork, hslot, hnew, hclone, freeUserPages, hbump]
    · rcases hstack : MemoryOps.allocKernelStack m₂ with ⟨_ | top, m₃⟩
      · refine Or.inr (Or.inl ⟨i, MemoryOps.freeUserPages m₃ pml4, rfl, ?_⟩)
        simp [fork, hslot, hnew, hclone, hstack, freeUserPages, hbump]
      · refine Or.inr (Or.inr ⟨i, m₃, pml4, top, rfl, ?_⟩)
        simp [fork, hslot, hnew, hclone, hstack, takePid, setProcess, forkedChild, hbump]

/-- The process after a successful `exec` of the slot `p`. -/
def execedProcess (s : Kernel M) (p : SlotId) (img : LoadedImage) : Process :=
  let old := (s.processes p).task
  { s.processes p with
    pendingFreeAs := some old.aspace
    pendingFreeKstack := some old.kernelStackTop
    task := { s.loadedTask img old.cwd with
      openFiles := old.openFiles
      cwd := old.cwd
      termios := old.termios
      winsize := old.winsize
      stdinPipe := old.stdinPipe
      stdoutPipe := old.stdoutPipe
      kernelResume := old.kernelResume }
    hasRun := false
    state := .runnable }

/-- `exec` either leaves the process alone, or replaces its program and leaves the old address
space and kernel stack pending. -/
theorem exec_cases (s : Kernel M) (p : SlotId) (image : List UInt8) (argv : List (List UInt8)) :
    (∃ m, s.exec p image argv = (false, { s with mem := m })) ∨
    (∃ img m, s.exec p image argv = (true,
      { s with
        processes := Function.update s.processes p (s.execedProcess p img)
        fpu := fpuStateInit
        mem := m
        asLedger := s.asLedger.create
        ksLedger := s.ksLedger.create })) := by
  rcases s.load_cases image argv (s.processes p).task.cwd with ⟨m, -, hload⟩ | ⟨img, m, -, hload⟩
  · exact Or.inl ⟨m, by simp [exec, hload]⟩
  · exact Or.inr ⟨img, m, by simp [exec, hload, setProcess, execedProcess, loadedTask]⟩

/-- `free_pending` frees what is pending and clears it. -/
theorem freePending_eq (s : Kernel M) (i : SlotId) :
    ∃ m, s.freePending i =
      { s with
        processes := Function.update s.processes i
          { s.processes i with pendingFreeAs := none, pendingFreeKstack := none }
        mem := m
        asLedger := s.asLedger.releaseOpt ((s.processes i).pendingFreeAs.map AddrSpace.serial)
        ksLedger :=
          s.ksLedger.releaseOpt ((s.processes i).pendingFreeKstack.map KernelStack.serial) } := by
  rcases has : (s.processes i).pendingFreeAs with _ | a <;>
    rcases hks : (s.processes i).pendingFreeKstack with _ | k <;>
    exact ⟨_, by simp [freePending, has, hks, setProcess, freeUserPages, freeKernelStack,
      Ledger.releaseOpt]; rfl⟩

/-- `reap` frees everything a slot holds and returns the slot. -/
theorem reap_eq (s : Kernel M) (i : SlotId) :
    ∃ m, s.reap i =
      { s with
        processes := Function.update s.processes i
          { s.processes i with
            pendingFreeAs := none
            pendingFreeKstack := none
            state := .unused }
        mem := m
        asLedger := (s.asLedger.releaseOpt
          ((s.processes i).pendingFreeAs.map AddrSpace.serial)).release
            (s.processes i).task.aspace.serial
        ksLedger := (s.ksLedger.releaseOpt
          ((s.processes i).pendingFreeKstack.map KernelStack.serial)).release
            (s.processes i).task.kernelStackTop.serial } := by
  obtain ⟨m, hm⟩ := s.freePending_eq i
  exact ⟨_, by simp [reap, hm, setProcess, freeUserPages, freeKernelStack]; rfl⟩

end Memory

end Kernel

/-! ### System calls that only touch files, pipes and the heap -/

/-- The process `q` differs from `p` at most in its open files, its standard pipes and the end of
its heap. -/
def Process.SameUpToFiles (p q : Process) : Prop :=
  q = { p with task := { p.task with
    openFiles := q.task.openFiles
    stdinPipe := q.task.stdinPipe
    stdoutPipe := q.task.stdoutPipe
    heapEnd := q.task.heapEnd } }

theorem Process.SameUpToFiles.refl (p : Process) : p.SameUpToFiles p := rfl

theorem Process.SameUpToFiles.trans {p q r : Process} (hpq : p.SameUpToFiles q)
    (hqr : q.SameUpToFiles r) : p.SameUpToFiles r := by
  unfold Process.SameUpToFiles at hpq hqr ⊢
  rw [hqr, hpq]

/-- The events of ring 3 that stay in ring 3 and touch only files, pipes, heap and memory. -/
def UserEvent.Quiet : UserEvent → Prop
  | .store _ _ | .pipe _ | .close _ | .useAsStdio _ _ | .write _ _ | .read _ _ | .brk _ => True
  | _ => False

namespace Kernel

variable {M : Type}

/-- The state `s'` differs from `s` at most in pipes, memory, and what `SameUpToFiles` leaves open
about the processes. -/
def SameUpToFiles (s s' : Kernel M) : Prop :=
  s' = { s with processes := s'.processes, pipes := s'.pipes, mem := s'.mem } ∧
    ∀ i, (s.processes i).SameUpToFiles (s'.processes i)

theorem SameUpToFiles.refl (s : Kernel M) : s.SameUpToFiles s :=
  ⟨rfl, fun _ => rfl⟩

theorem SameUpToFiles.trans {s t u : Kernel M} (hst : s.SameUpToFiles t)
    (htu : t.SameUpToFiles u) : s.SameUpToFiles u := by
  refine ⟨?_, fun i => (hst.2 i).trans (htu.2 i)⟩
  rw [htu.1, hst.1]

section

variable (s : Kernel M)

/-- Pipes and memory are free to change. -/
theorem sameUpToFiles_pipes_mem (pipes : PipeHeap) (m : M) :
    s.SameUpToFiles { s with pipes := pipes, mem := m } :=
  ⟨rfl, fun _ => rfl⟩

/-- Overwriting the open parts of one task stays within `SameUpToFiles`. -/
theorem sameUpToFiles_setTask (i : SlotId) (t : Usertask)
    (ht : t = { (s.processes i).task with
      openFiles := t.openFiles
      stdinPipe := t.stdinPipe
      stdoutPipe := t.stdoutPipe
      heapEnd := t.heapEnd }) : s.SameUpToFiles (s.setTask i t) := by
  refine ⟨rfl, fun j => ?_⟩
  by_cases hj : j = i
  · subst hj
    simp only [setTask, setProcess_processes, update_self]
    unfold Process.SameUpToFiles
    conv_lhs => rw [ht]
  · simp only [setTask, setProcess_processes, update_of_ne hj]
    exact Process.SameUpToFiles.refl _

theorem sameUpToFiles_setOpenFile (t : SlotId) (j : Fin maxOpenFiles)
    (f : OpenFile) : s.SameUpToFiles (s.setOpenFile t j f) :=
  s.sameUpToFiles_setTask t _ rfl

theorem sameUpToFiles_sysClose (fd : ℕ) : s.SameUpToFiles (s.sysClose fd).2 := by
  unfold sysClose
  split
  · exact SameUpToFiles.refl s
  · exact (s.sameUpToFiles_pipes_mem _ s.mem).trans (sameUpToFiles_setOpenFile _ _ _ _)

theorem sameUpToFiles_sysUseAsStdio (a b : ℕ) : s.SameUpToFiles (s.sysUseAsStdio a b).2 := by
  unfold sysUseAsStdio
  split
  · split
    · exact (s.sameUpToFiles_setTask _ _ rfl).trans
        ((sameUpToFiles_setOpenFile _ _ _ _).trans (sameUpToFiles_setOpenFile _ _ _ _))
    · exact SameUpToFiles.refl s
  · exact SameUpToFiles.refl s

theorem sameUpToFiles_sysWritePipe (fd : ℕ) (data : List UInt8) :
    s.SameUpToFiles (s.sysWritePipe fd data).2 := by
  unfold sysWritePipe
  dsimp only
  repeat' split
  all_goals first
    | exact SameUpToFiles.refl s
    | exact s.sameUpToFiles_pipes_mem _ s.mem

theorem sameUpToFiles_sysReadPipe (fd len : ℕ) : s.SameUpToFiles (s.sysReadPipe fd len).2.2 := by
  unfold sysReadPipe
  dsimp only
  repeat' split
  all_goals first
    | exact SameUpToFiles.refl s
    | exact s.sameUpToFiles_pipes_mem _ s.mem

/-- A refused `wait` changes nothing; otherwise `wait` pushes a nested `run_until` on the pid of a
child. -/
theorem waitFor_cases (pid : Option ℤ) (status : ℕ) :
    s.waitFor pid status = (none, s) ∨
    (∃ me child, s.current = some me ∧ s.findChild (s.processes me).pid pid = some child ∧
      s.waitFor pid status = (some (s.processes child).pid, { s with
        frames := .runUntil (some (s.processes child).pid) (some me) ::
          .wait (s.processes child).pid status :: s.frames })) := by
  cases hme : s.current with
  | none => exact Or.inl (by simp only [waitFor, hme])
  | some me =>
    cases hchild : s.findChild (s.processes me).pid pid with
    | none => exact Or.inl (by simp only [waitFor, hme, hchild])
    | some child => exact Or.inr ⟨me, child, rfl, hchild, by simp only [waitFor, hme, hchild]⟩

end
section Memory

variable [MemoryOps M]

theorem sameUpToFiles_sysPipe (s : Kernel M) (pipefd : ℕ) :
    s.SameUpToFiles (s.sysPipe pipefd).2 := by
  unfold sysPipe
  split
  · exact SameUpToFiles.refl s
  split
  · split
    · dsimp only
      exact (((s.sameUpToFiles_pipes_mem s.pipes.create s.mem).trans
        (sameUpToFiles_setOpenFile _ _ _ _)).trans (sameUpToFiles_setOpenFile _ _ _ _)).trans
        (sameUpToFiles_pipes_mem _ _ _)
    · exact SameUpToFiles.refl s
  · exact SameUpToFiles.refl s

/-- By induction on the rounds of the loop. -/
theorem sameUpToFiles_brkLoop (t : SlotId) (newEnd n : ℕ) (s : Kernel M) :
    s.SameUpToFiles (brkLoop t newEnd n s).2 := by
  induction n generalizing s with
  | zero => exact SameUpToFiles.refl s
  | succ n ih =>
    unfold brkLoop
    dsimp only
    split
    · split
      · exact s.sameUpToFiles_pipes_mem s.pipes _
      · refine SameUpToFiles.trans ?_ (ih _)
        exact (s.sameUpToFiles_pipes_mem s.pipes _).trans (sameUpToFiles_setTask _ _ _ rfl)
    · exact SameUpToFiles.refl s

theorem sameUpToFiles_sysBrk (s : Kernel M) (newEnd : ℕ) :
    s.SameUpToFiles (s.sysBrk newEnd).2 := by
  unfold sysBrk
  dsimp only
  repeat' split
  all_goals first
    | exact SameUpToFiles.refl s
    | exact sameUpToFiles_brkLoop _ _ _ s

/-- The quiet events of ring 3 change nothing but files, pipes, heap ends and memory. -/
theorem userStep_quiet {s s' : Kernel M} {u : UserEvent} (hu : u.Quiet)
    (h : s.userStep u = some s') : s.SameUpToFiles s' := by
  cases u with
  | store addr bytes =>
    obtain rfl := some.inj h
    exact s.sameUpToFiles_pipes_mem s.pipes _
  | pipe pipefd => exact some.inj h ▸ s.sameUpToFiles_sysPipe pipefd
  | close fd => exact some.inj h ▸ s.sameUpToFiles_sysClose fd
  | useAsStdio a b => exact some.inj h ▸ s.sameUpToFiles_sysUseAsStdio a b
  | write fd data => exact some.inj h ▸ s.sameUpToFiles_sysWritePipe fd data
  | read fd len => exact some.inj h ▸ s.sameUpToFiles_sysReadPipe fd len
  | brk newEnd => exact some.inj h ▸ s.sameUpToFiles_sysBrk newEnd
  | compute | fork | execve | wait | schedYield | exit | crash | tick => exact hu.elim

end Memory

end Kernel

end AnssOS
