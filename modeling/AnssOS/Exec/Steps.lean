import AnssOS.Exec.Inversion
import Mathlib.Logic.Relation

/-!
# The cases of a step

`StepCase s e s'` lists everything the event `e` can do in the state `s`, with the state after it
written out as far as every later argument needs it, and `step_cases` says that the list is
complete.  The scan of `run_until(None)`, which reaps one zombie after another, appears in it as
the path `Reaps`.
-/

namespace AnssOS

open List Option Function

namespace Kernel

variable {M : Type}

/-- The process that executes in ring 3, if the innermost activation is a dispatch. -/
def inRing3 (s : Kernel M) : Option SlotId :=
  match s.frames with
  | .dispatch t _ _ :: _ => some t
  | _ => none

theorem inRing3_eq_some {s : Kernel M} {t : SlotId} :
    s.inRing3 = some t ↔ ∃ callerAs outer rest, s.frames = .dispatch t callerAs outer :: rest := by
  unfold inRing3
  constructor
  · intro h
    split at h
    · rename_i t' callerAs outer rest hframes
      obtain rfl := some.inj h
      exact ⟨callerAs, outer, rest, hframes⟩
    · cases h
  · rintro ⟨callerAs, outer, rest, hframes⟩
    rw [hframes]

/-! ### Leaving ring 3 -/

/-- The process in the slot `i` once the registers of `t` have been parked in its task. -/
def parkedProcess (s : Kernel M) (t : Option SlotId) (i : SlotId) : Process :=
  if t = some i then
    { s.processes i with task := { (s.processes i).task with fpuState := s.fpu } }
  else s.processes i

@[simp] theorem parkedProcess_none (s : Kernel M) : s.parkedProcess none = s.processes := by
  funext i
  simp [parkedProcess]

theorem parkedProcess_some (s : Kernel M) (t : SlotId) :
    s.parkedProcess (some t) = Function.update s.processes t
      { s.processes t with task := { (s.processes t).task with fpuState := s.fpu } } := by
  funext i
  by_cases hi : i = t
  · simp [parkedProcess, hi]
  · simp [parkedProcess, hi, Ne.symm hi]

@[simp] theorem parkedProcess_aspace (s : Kernel M) (t : Option SlotId) (i : SlotId) :
    (s.parkedProcess t i).task.aspace = (s.processes i).task.aspace := by
  unfold parkedProcess
  split <;> rfl

@[simp] theorem parkedProcess_kernelStackTop (s : Kernel M) (t : Option SlotId) (i : SlotId) :
    (s.parkedProcess t i).task.kernelStackTop = (s.processes i).task.kernelStackTop := by
  unfold parkedProcess
  split <;> rfl

theorem parkFpu_eq (s : Kernel M) (t : Option SlotId) :
    s.parkFpu t = { s with processes := s.parkedProcess t } := by
  cases t with
  | none => simp [parkFpu]
  | some t => simp [parkFpu, parkedProcess_some, setTask, setProcess]

/-- `return_to_kernel` unwinds to some dispatch on the call stack and does the rest of it. -/
theorem returnToKernel_cases {s s' : Kernel M} (h : s.returnToKernel = some s') :
    ∃ t callerAs outer rest k, s.frames.drop k = .dispatch t callerAs outer :: rest ∧
      s' = s.leaveDispatch t callerAs outer rest := by
  unfold returnToKernel at h
  split at h
  · cases h
  · split at h
    · rename_i t callerAs outer rest hdrop
      exact ⟨t, callerAs, outer, rest, _, hdrop, (some.inj h).symm⟩
    · cases h

theorem leaveDispatch_eq (s : Kernel M) (t : SlotId) (callerAs : AddrSpace)
    (outer : Option SlotId) (rest : List Frame) :
    s.leaveDispatch t callerAs outer rest =
      { s with
        processes := s.parkedProcess (some t)
        fpu := (outer.map fun o => (s.parkedProcess (some t) o).task.fpuState).getD s.fpu
        currentTask := outer
        cr3 := callerAs
        frames := rest } := by
  cases outer <;> simp [leaveDispatch, parkFpu_eq]

/-- If the saved context of the running task leads to the innermost activation, then
`return_to_kernel` ends exactly that dispatch. -/
theorem returnToKernel_eq {s : Kernel M} {p : SlotId} {callerAs : AddrSpace}
    {outer : Option SlotId} {rest : List Frame} (htask : s.currentTask = some p)
    (hframes : s.frames = .dispatch p callerAs outer :: rest)
    (hresume : (s.processes p).task.kernelResume = rest.length + 1) :
    s.returnToKernel = some (s.leaveDispatch p callerAs outer rest) := by
  simp [returnToKernel, htask, hframes, hresume]

/-- The process in the slot `i` once it has exited or crashed. -/
def terminatedProcess (s : Kernel M) (i : SlotId) (code : ℤ) : Process :=
  { s.processes i with
    state := .zombie
    exitStatus := code
    task := { (s.processes i).task with stdinPipe := none, stdoutPipe := none } }

theorem terminate_eq (s : Kernel M) (i : SlotId) (code : ℤ) :
    s.terminate i code =
      { s with
        processes := Function.update s.processes i (s.terminatedProcess i code)
        pipes := (s.pipes.closeOpt (s.processes i).task.stdinPipe false).closeOpt
          (s.processes i).task.stdoutPipe true } := by
  simp [terminate, closeStdioPipes, setTask, setProcess, terminatedProcess]

/-- The process in the slot `i` once it has yielded or been preempted. -/
def suspendedProcess (s : Kernel M) (i : SlotId) : Process :=
  { s.processes i with savedRsp := s.rsp0.top - interruptFrameSize, state := .runnable }

/-! ### Entering ring 3 -/

/-- `dispatch` parks the registers of the outer task and records the way back in the new one. -/
theorem enterDispatch_eq (s : Kernel M) (t : SlotId) :
    s.enterDispatch t =
      { s with
        processes := fun i =>
          let p := s.parkedProcess s.currentTask i
          if i = t then { p with task := { p.task with kernelResume := s.frames.length + 1 } }
          else p
        fpu := (s.parkedProcess s.currentTask t).task.fpuState
        rsp0 := (s.processes t).task.kernelStackTop
        cr3 := (s.processes t).task.aspace
        currentTask := some t
        frames := .dispatch t s.cr3 s.currentTask :: s.frames } := by
  simp only [enterDispatch, parkFpu_eq, setTask, setProcess, parkedProcess_aspace,
    parkedProcess_kernelStackTop]
  congr 1
  funext i
  by_cases hi : i = t
  · simp [hi]
  · simp [hi]

/-- The process in the slot `i` once `run_until` has dispatched `next`. -/
def dispatchedProcess (s : Kernel M) (next i : SlotId) : Process :=
  let p := s.parkedProcess s.currentTask i
  if i = next then
    { p with
      pendingFreeAs := none
      pendingFreeKstack := none
      state := .running
      hasRun := true
      task := { p.task with kernelResume := s.frames.length + 1 } }
  else p

section Memory

variable [MemoryOps M]

/-- A round of `run_until` that gets as far as dispatching finds nothing runnable and changes
nothing, or puts a runnable process into ring 3. -/
theorem pickAndDispatch_cases (s : Kernel M) :
    s.pickAndDispatch = s ∨
    (∃ next m, (s.processes next).state = .runnable ∧ s.pickAndDispatch =
      { s with
        processes := s.dispatchedProcess next
        current := some next
        lastPicked := next
        currentTask := some next
        cr3 := (s.processes next).task.aspace
        rsp0 := (s.processes next).task.kernelStackTop
        fpu := (s.parkedProcess s.currentTask next).task.fpuState
        frames := .dispatch next s.cr3 s.currentTask :: s.frames
        mem := m
        asLedger := s.asLedger.releaseOpt ((s.processes next).pendingFreeAs.map AddrSpace.serial)
        ksLedger :=
          s.ksLedger.releaseOpt ((s.processes next).pendingFreeKstack.map KernelStack.serial) }) := by
  cases hpick : s.pickNextRunnable with
  | none => exact Or.inl (by simp [pickAndDispatch, hpick])
  | some next =>
    obtain ⟨m, hm⟩ := freePending_eq { s with lastPicked := next } next
    refine Or.inr ⟨next, m, pickNextRunnable_runnable hpick, ?_⟩
    simp only [pickAndDispatch, hpick, hm, enterDispatch_eq, setProcess, update_self,
      update_idem]
    congr 1
    · funext i
      by_cases hi : i = next
      · by_cases ho : s.currentTask = some next <;> simp [dispatchedProcess, parkedProcess, hi, ho]
      · simp [dispatchedProcess, parkedProcess, hi]
    · by_cases ho : s.currentTask = some next <;> simp [parkedProcess, ho]

/-! ### Reaping zombies -/

/-- `s'` arises from `s` by reaping zombies, one after the other. -/
def Reaps (s s' : Kernel M) : Prop :=
  Relation.ReflTransGen
    (fun a b => ∃ i, (a.processes i).state = .zombie ∧ b = a.reap i) s s'

/-- Whatever one reaping keeps, the whole scan keeps. -/
theorem Reaps.preserves {P : Kernel M → Prop}
    (hreap : ∀ s i, P s → (s.processes i).state = .zombie → P (s.reap i)) {s s' : Kernel M}
    (h : s.Reaps s') (hs : P s) : P s' := by
  induction h with
  | refl => exact hs
  | tail _ hstep ih =>
    obtain ⟨i, hi, rfl⟩ := hstep
    exact hreap _ i ih hi

theorem reap_processes_self (s : Kernel M) (i : SlotId) :
    ((s.reap i).processes i).state = .unused := by
  obtain ⟨m, hm⟩ := s.reap_eq i
  simp [hm]

theorem reap_processes_ne (s : Kernel M) {i j : SlotId} (hj : j ≠ i) :
    (s.reap i).processes j = s.processes j := by
  obtain ⟨m, hm⟩ := s.reap_eq i
  simp [hm, hj]

@[simp] theorem reap_frames (s : Kernel M) (i : SlotId) : (s.reap i).frames = s.frames := by
  obtain ⟨m, hm⟩ := s.reap_eq i
  rw [hm]

/-- A slot the scan touches held a zombie, and is unused afterwards. -/
theorem Reaps.slot {s s' : Kernel M} (h : s.Reaps s') (i : SlotId) :
    s'.processes i = s.processes i ∨
      ((s.processes i).state = .zombie ∧ (s'.processes i).state = .unused) := by
  induction h with
  | refl => exact Or.inl rfl
  | tail _ hstep ih =>
    obtain ⟨j, hj, rfl⟩ := hstep
    by_cases hij : i = j
    · subst hij
      rcases ih with heq | ⟨-, hunused⟩
      · exact Or.inr ⟨heq ▸ hj, reap_processes_self _ i⟩
      · rw [hunused] at hj
        cases hj
    · rw [reap_processes_ne _ hij]
      exact ih

theorem Reaps.unused {s s' : Kernel M} (h : s.Reaps s') {i : SlotId}
    (hi : (s.processes i).state = .unused) : (s'.processes i).state = .unused := by
  rcases h.slot i with heq | ⟨hz, -⟩
  · rw [heq, hi]
  · rw [hi] at hz
    cases hz

/-- The body of the scan, for the slots of a list: the zombies among them are reaped, and if no
process was found alive, they are all unused in the end. -/
theorem reapZombies_foldl (l : List SlotId) (s : Kernel M) (b : Bool) :
    let r := l.foldl (fun (x : Kernel M × Bool) i =>
      match (x.1.processes i).state with
      | .zombie => (x.1.reap i, x.2)
      | .unused => (x.1, x.2)
      | _ => (x.1, true)) (s, b)
    s.Reaps r.1 ∧ (b = true → r.2 = true) ∧ ∀ i ∈ l, (r.1.processes i).state ≠ .zombie ∧
      (r.2 = false → (r.1.processes i).state = .unused) := by
  induction l generalizing s b with
  | nil => exact ⟨.refl, id, by simp⟩
  | cons a l ih =>
    simp only [foldl_cons]
    cases ha : (s.processes a).state with
    | zombie =>
      obtain ⟨hreaps, hb, hall⟩ := ih (s.reap a) b
      refine ⟨.head ⟨a, ha, rfl⟩ hreaps, hb, ?_⟩
      have hunused := hreaps.unused (reap_processes_self s a)
      intro i hi
      rcases mem_cons.mp hi with rfl | hi
      · exact ⟨by rw [hunused]; decide, fun _ => hunused⟩
      · exact hall i hi
    | unused =>
      obtain ⟨hreaps, hb, hall⟩ := ih s b
      refine ⟨hreaps, hb, ?_⟩
      have hunused := hreaps.unused ha
      intro i hi
      rcases mem_cons.mp hi with rfl | hi
      · exact ⟨by rw [hunused]; decide, fun _ => hunused⟩
      · exact hall i hi
    | runnable | running =>
      obtain ⟨hreaps, hb, hall⟩ := ih s true
      refine ⟨hreaps, fun _ => hb rfl, ?_⟩
      intro i hi
      rcases mem_cons.mp hi with rfl | hi
      · have hsame : (_ : Process) = s.processes i := (hreaps.slot i).resolve_right
          (by rintro ⟨hz, -⟩; rw [ha] at hz; cases hz)
        refine ⟨by rw [hsame, ha]; decide, fun hfalse => ?_⟩
        rw [hb rfl] at hfalse
        cases hfalse
      · exact hall i hi

/-- The scan of `run_until(None)` reaps every zombie; if it finds no process alive, the table is
empty afterwards. -/
theorem reapZombies_spec (s : Kernel M) :
    s.Reaps s.reapZombies.1 ∧ (∀ i, (s.reapZombies.1.processes i).state ≠ .zombie) ∧
      (s.reapZombies.2 = false → ∀ i, (s.reapZombies.1.processes i).state = .unused) := by
  obtain ⟨hreaps, -, hall⟩ := reapZombies_foldl (List.finRange maxProcesses) s false
  exact ⟨hreaps, fun i => (hall i (mem_finRange i)).1,
    fun hfalse i => (hall i (mem_finRange i)).2 hfalse⟩

end Memory

end Kernel

/-! ### The cases of a step -/

/-- The status with which an event ends the process in ring 3. -/
def UserEvent.exitCode : UserEvent → Option ℤ
  | .exit code => some (wrapI32 code)
  | .crash => some (-1)
  | _ => none

/-- Whether an event takes the processor from the process in ring 3 and leaves it runnable. -/
def UserEvent.Suspends : UserEvent → Prop
  | .schedYield | .tick => True
  | _ => False

namespace Kernel

variable {M : Type} [MemoryOps M]

/-- Everything an event can do.  The cases `orphan` stand for a ring 3 without a current process:
they are there for completeness only, no run gets to them. -/
inductive StepCase (s : Kernel M) : Event → Kernel M → Prop
  | kernelAlloc (size align : ℕ) (m : M) : StepCase s (.kernelAlloc size align) { s with mem := m }
  | kernelDealloc (ptr size align : ℕ) (m : M) :
      StepCase s (.kernelDealloc ptr size align) { s with mem := m }
  | spawnFailed (image argv cwd) (m : M) (hframes : s.frames = [])
      (hspawn : (s.spawn image argv cwd kernelParentPid).1 = none) :
      StepCase s (.spawn image argv cwd) { s with mem := m }
  | spawned (image argv cwd) (i : SlotId) (img : LoadedImage) (m : M) (hframes : s.frames = [])
      (hslot : s.allocSlot = some i)
      (hspawn : (s.spawn image argv cwd kernelParentPid).1 = some s.nextPid) :
      StepCase s (.spawn image argv cwd) { s with
        processes := Function.update s.processes i
          { Process.empty with
            pid := s.nextPid
            parentPid := kernelParentPid
            state := .runnable
            task := s.loadedTask img cwd }
        nextPid := wrapI32 (s.nextPid + 1)
        mem := m
        asLedger := s.asLedger.create
        ksLedger := s.ksLedger.create }
  | runUntil (hframes : s.frames = []) :
      StepCase s .runUntil { s with frames := [.runUntil none s.current] }
  | roundGone (pid outer rest) (s' : Kernel M)
      (hframes : s.frames = .runUntil (some pid) outer :: rest) (hpid : s.byPid pid = none)
      (hreturn : s.runUntilReturn outer rest (-1) = some s') : StepCase s .round s'
  | roundReaped (pid outer rest) (target : SlotId) (s' : Kernel M)
      (hframes : s.frames = .runUntil (some pid) outer :: rest) (hpid : s.byPid pid = some target)
      (hzombie : (s.processes target).state = .zombie)
      (hreturn : (s.reap target).runUntilReturn outer rest (s.processes target).exitStatus =
        some s') : StepCase s .round s'
  | roundNested (pid outer rest) (target : SlotId)
      (hframes : s.frames = .runUntil (some pid) outer :: rest) (hpid : s.byPid pid = some target)
      (hzombie : (s.processes target).state ≠ .zombie) : StepCase s .round s.pickAndDispatch
  | roundLast (outer rest) (s₁ s' : Kernel M) (hframes : s.frames = .runUntil none outer :: rest)
      (hreaps : s.Reaps s₁) (hunused : ∀ i, (s₁.processes i).state = .unused)
      (hreturn : s₁.runUntilReturn outer rest 0 = some s') : StepCase s .round s'
  | roundTop (outer rest) (s₁ : Kernel M) (hframes : s.frames = .runUntil none outer :: rest)
      (hreaps : s.Reaps s₁) (hzombie : ∀ i, (s₁.processes i).state ≠ .zombie) :
      StepCase s .round s₁.pickAndDispatch
  | waitReturn (target status code rest) (m : M)
      (hframes : s.frames = .waitDone target status code :: rest) :
      StepCase s .waitReturn { s with mem := m, frames := rest }
  | orphan (u : UserEvent) (p : SlotId) (s' : Kernel M) (hring : s.inRing3 = some p)
      (hcurrent : s.current = none) : StepCase s (.user u) s'
  | compute (p : SlotId) (fpu : FpuState) (hring : s.inRing3 = some p) :
      StepCase s (.user (.compute fpu)) { s with fpu := fpu }
  | quiet (u : UserEvent) (p : SlotId) (s' : Kernel M) (hu : u.Quiet)
      (hring : s.inRing3 = some p) (hstep : s.userStep u = some s') : StepCase s (.user u) s'
  | forkFull (p me : SlotId) (hring : s.inRing3 = some p) (hme : s.current = some me)
      (hslot : s.allocSlot = none) : StepCase s (.user .fork) s
  | forkFailed (p me i : SlotId) (m : M) (hring : s.inRing3 = some p) (hme : s.current = some me)
      (hslot : s.allocSlot = some i) (hfork : (s.fork me).1 = none) :
      StepCase s (.user .fork) { s with
        pipes := s.pipes.bumpTask (s.processes me).task
        mem := m
        asLedger := s.asLedger.create.release s.asLedger.next }
  | forked (p me i : SlotId) (m : M) (pml4 top : ℕ) (hring : s.inRing3 = some p)
      (hme : s.current = some me) (hslot : s.allocSlot = some i)
      (hfork : (s.fork me).1 = some s.nextPid) :
      StepCase s (.user .fork) { s with
        processes := Function.update s.processes i (s.forkedChild me pml4 top)
        nextPid := wrapI32 (s.nextPid + 1)
        pipes := s.pipes.bumpTask (s.processes me).task
        mem := m
        asLedger := s.asLedger.create
        ksLedger := s.ksLedger.create }
  | execFailed (image argv) (p me : SlotId) (m : M) (hring : s.inRing3 = some p)
      (hme : s.current = some me) (hexec : (s.exec me image argv).1 = false) :
      StepCase s (.user (.execve image argv)) { s with mem := m }
  | execed (image argv) (p me : SlotId) (img : LoadedImage) (m : M) (s' : Kernel M)
      (hring : s.inRing3 = some p) (hme : s.current = some me)
      (hexec : (s.exec me image argv).1 = true)
      (hreturn : { s with
        processes := Function.update s.processes me (s.execedProcess me img)
        fpu := fpuStateInit
        mem := m
        asLedger := s.asLedger.create
        ksLedger := s.ksLedger.create }.returnToKernel = some s') :
      StepCase s (.user (.execve image argv)) s'
  | waitRefused (pid status) (p : SlotId) (hring : s.inRing3 = some p) :
      StepCase s (.user (.wait pid status)) s
  | waiting (pid status : ℕ) (p me child : SlotId) (hring : s.inRing3 = some p)
      (hme : s.current = some me) (hchild : s.findChild (s.processes me).pid
        ((some (wrapI32 pid)).filter fun pid => 0 ≤ pid) = some child) :
      StepCase s (.user (.wait pid status)) { s with
        frames := .runUntil (some (s.processes child).pid) (some me) ::
          .wait (s.processes child).pid status :: s.frames }
  | suspended (u : UserEvent) (p me : SlotId) (s' : Kernel M) (hu : u.Suspends)
      (hring : s.inRing3 = some p) (hme : s.current = some me)
      (hreturn : (s.setProcess me (s.suspendedProcess me)).returnToKernel = some s') :
      StepCase s (.user u) s'
  | stopped (u : UserEvent) (p me : SlotId) (code : ℤ) (s' : Kernel M)
      (hu : u.exitCode = some code) (hring : s.inRing3 = some p) (hme : s.current = some me)
      (hreturn : (s.terminate me code).returnToKernel = some s') : StepCase s (.user u) s'

variable {s s' : Kernel M} {u : UserEvent} {p : SlotId}

theorem stopCurrent_case {code : ℤ}
    (hu : u.exitCode = some code) (hring : s.inRing3 = some p)
    (h : s.stopCurrent code = some s') : StepCase s (.user u) s' := by
  cases hme : s.current with
  | none => exact .orphan u p s' hring hme
  | some me =>
    simp only [stopCurrent, hme] at h
    exact .stopped u p me code s' hu hring hme h

theorem suspendCurrent_case (hu : u.Suspends)
    (hring : s.inRing3 = some p) (h : s.suspendCurrent = some s') : StepCase s (.user u) s' := by
  cases hme : s.current with
  | none => exact .orphan u p s' hring hme
  | some me =>
    simp only [suspendCurrent, hme] at h
    exact .suspended u p me s' hu hring hme h

/-- The cases of a step of the process in ring 3. -/
theorem userStep_cases (hring : s.inRing3 = some p)
    (h : s.userStep u = some s') : StepCase s (.user u) s' := by
  cases u with
  | compute fpu => exact some.inj h ▸ .compute p fpu hring
  | store | pipe | close | useAsStdio | write | read | brk =>
    exact .quiet _ p s' trivial hring h
  | fork =>
    cases hme : s.current with
    | none => exact .orphan _ p s' hring hme
    | some me =>
      simp only [userStep, hme, Option.some.injEq] at h
      rcases s.fork_cases me with ⟨hslot, hfork⟩ | ⟨i, m, hslot, hfork⟩ |
        ⟨i, m, pml4, top, hslot, hfork⟩
      · rw [hfork] at h
        exact h ▸ .forkFull p me hring hme hslot
      · have hresult : (s.fork me).1 = none := by rw [hfork]
        rw [hfork] at h
        exact h ▸ .forkFailed p me i m hring hme hslot hresult
      · have hresult : (s.fork me).1 = some s.nextPid := by rw [hfork]
        rw [hfork] at h
        exact h ▸ .forked p me i m pml4 top hring hme hslot hresult
  | execve image argv =>
    cases hme : s.current with
    | none => exact .orphan _ p s' hring hme
    | some me =>
      simp only [userStep, hme] at h
      rcases s.exec_cases me image argv with ⟨m, hexec⟩ | ⟨img, m, hexec⟩
      · rw [hexec] at h
        exact some.inj h ▸ .execFailed image argv p me m hring hme (by rw [hexec])
      · rw [hexec] at h
        exact .execed image argv p me img m s' hring hme (by rw [hexec]) h
  | wait pid status =>
    simp only [userStep, sysWait, Option.some.injEq] at h
    rcases s.waitFor_cases ((some (wrapI32 pid)).filter fun pid => 0 ≤ pid) status with
      hwait | ⟨me, child, hme, hchild, hwait⟩
    · rw [hwait] at h
      exact h ▸ .waitRefused pid status p hring
    · rw [hwait] at h
      exact h ▸ .waiting pid status p me child hring hme hchild
  | schedYield | tick => exact suspendCurrent_case trivial hring h
  | exit code => exact stopCurrent_case rfl hring h
  | crash => exact stopCurrent_case rfl hring h

/-- The cases of a round of `run_until`. -/
theorem runUntilRound_cases (h : s.runUntilRound = some s') :
    StepCase s .round s' := by
  unfold runUntilRound at h
  split at h
  · rename_i pid outer rest hframes
    cases hpid : s.byPid pid with
    | none =>
      simp only [hpid] at h
      exact .roundGone pid outer rest s' hframes hpid h
    | some target =>
      simp only [hpid] at h
      split at h
      · rename_i hzombie
        exact .roundReaped pid outer rest target s' hframes hpid hzombie h
      · rename_i hzombie
        exact some.inj h ▸ .roundNested pid outer rest target hframes hpid hzombie
  · rename_i outer rest hframes
    obtain ⟨hreaps, hzombie, hunused⟩ := s.reapZombies_spec
    split at h
    · rename_i s₁ heq
      rw [heq] at hreaps hunused
      exact .roundLast outer rest s₁ s' hframes hreaps (hunused rfl) h
    · rename_i s₁ heq
      rw [heq] at hreaps hzombie
      exact some.inj h ▸ .roundTop outer rest s₁ hframes hreaps hzombie
  · cases h

/-- The list of cases is complete. -/
theorem step_cases {e : Event} (h : s.step e = some s') : StepCase s e s' := by
  cases e with
  | spawn image argv cwd =>
    simp only [step] at h
    split at h
    · rename_i hframes
      rcases s.spawn_cases image argv cwd kernelParentPid with
        ⟨m, hspawn⟩ | ⟨i, img, m, hslot, hspawn⟩
      · have hresult : (s.spawn image argv cwd kernelParentPid).1 = none := by rw [hspawn]
        rw [hspawn] at h
        exact some.inj h ▸ .spawnFailed image argv cwd m hframes hresult
      · have hresult : (s.spawn image argv cwd kernelParentPid).1 = some s.nextPid := by
          rw [hspawn]
        rw [hspawn] at h
        exact some.inj h ▸ .spawned image argv cwd i img m hframes hslot hresult
    · cases h
  | runUntil =>
    simp only [step] at h
    split at h
    · rename_i hframes
      exact some.inj h ▸ .runUntil hframes
    · cases h
  | round => exact runUntilRound_cases h
  | waitReturn =>
    simp only [step] at h
    split at h
    · rename_i target status code rest hframes
      exact some.inj h ▸ .waitReturn target status code rest _ hframes
    · cases h
  | user u =>
    simp only [step] at h
    split at h
    · rename_i t callerAs outer rest hframes
      exact userStep_cases (inRing3_eq_some.mpr ⟨callerAs, outer, rest, hframes⟩) h
    · cases h
  | kernelAlloc size align => exact some.inj h ▸ .kernelAlloc size align _
  | kernelDealloc ptr size align => exact some.inj h ▸ .kernelDealloc ptr size align _

end Kernel

/-! ### The life of a slot -/

/-- The process keeps its pid and its parent. -/
def Process.SameIds (p q : Process) : Prop :=
  q.pid = p.pid ∧ q.parentPid = p.parentPid

/-- The process keeps its pid, its parent, its state and its exit status. -/
def Process.SameLife (p q : Process) : Prop :=
  p.SameIds q ∧ q.state = p.state ∧ q.exitStatus = p.exitStatus

theorem Process.SameLife.refl (p : Process) : p.SameLife p := ⟨⟨rfl, rfl⟩, rfl, rfl⟩

theorem Process.SameLife.of_sameUpToFiles {p q : Process} (h : p.SameUpToFiles q) :
    p.SameLife q := by
  unfold Process.SameUpToFiles at h
  rw [h]
  exact ⟨⟨rfl, rfl⟩, rfl, rfl⟩

/-- What has to happen for a process to come into being, to stop with a status, and to be
reaped. -/
structure Causes where
  born : Prop
  stopped : ℤ → Prop
  reaped : Prop

/-- The stages in the life of a slot: from unused to runnable, between runnable and running, from
running to zombie and back to unused. -/
inductive LifeStep (c : Causes) (p q : Process) : Prop
  | same (h : p.SameLife q)
  | born (h : c.born) (hp : p.state = .unused) (hq : q.state = .runnable)
  | dispatched (hp : p.state = .runnable) (hids : p.SameIds q) (hq : q.state = .running)
  | suspended (hp : p.state = .running) (hids : p.SameIds q) (hq : q.state = .runnable)
  | stopped (h : c.stopped q.exitStatus) (hp : p.state = .running) (hids : p.SameIds q)
      (hq : q.state = .zombie)
  | reaped (h : c.reaped) (hp : p.state = .zombie) (hq : q.state = .unused)

variable {c : Causes}

theorem LifeStep.refl (p : Process) : LifeStep c p p := .same (.refl p)

theorem LifeStep.trans_same {p q r : Process} (h : LifeStep c p q) (hr : q.SameLife r) :
    LifeStep c p r := by
  obtain ⟨⟨hpid, hparent⟩, hstate, hexit⟩ := hr
  cases h with
  | same h =>
    obtain ⟨⟨hpid', hparent'⟩, hstate', hexit'⟩ := h
    exact .same ⟨⟨hpid.trans hpid', hparent.trans hparent'⟩, hstate.trans hstate',
      hexit.trans hexit'⟩
  | born h hp hq => exact .born h hp (hstate.trans hq)
  | dispatched hp hids hq =>
    exact .dispatched hp ⟨hpid.trans hids.1, hparent.trans hids.2⟩ (hstate.trans hq)
  | suspended hp hids hq =>
    exact .suspended hp ⟨hpid.trans hids.1, hparent.trans hids.2⟩ (hstate.trans hq)
  | stopped h hp hids hq =>
    exact .stopped (hexit ▸ h) hp ⟨hpid.trans hids.1, hparent.trans hids.2⟩ (hstate.trans hq)
  | reaped h hp hq => exact .reaped h hp (hstate.trans hq)

theorem LifeStep.ne_unused {p q : Process} (h : LifeStep c p q) (hp : p.Live) :
    q.state ≠ .unused := by
  cases h with
  | same h => rw [h.2.1]; exact hp.ne_unused
  | born _ h _ => exact absurd h hp.ne_unused
  | dispatched _ _ hq | suspended _ _ hq | stopped _ _ _ hq => simp [hq]
  | reaped _ h _ => rcases hp with hp | hp <;> simp [hp] at h

theorem LifeStep.sameIds {p q : Process} (h : LifeStep c p q) (hp : p.state ≠ .unused)
    (hq : q.state ≠ .unused) : p.SameIds q := by
  cases h with
  | same h => exact h.1
  | born _ h _ => exact absurd h hp
  | dispatched _ h _ | suspended _ h _ | stopped _ _ h _ => exact h
  | reaped _ _ h => exact absurd h hq

/-- A slot in use becomes unused only if it is reaped. -/
theorem LifeStep.reaped_of_unused {p q : Process} (h : LifeStep c p q) (hp : p.state ≠ .unused)
    (hq : q.state = .unused) : p.state = .zombie ∧ c.reaped := by
  cases h with
  | same h => exact absurd (h.2.1.symm.trans hq) hp
  | born _ h _ => exact absurd h hp
  | dispatched _ _ h | suspended _ _ h | stopped _ _ _ h => rw [hq] at h; cases h
  | reaped h hp _ => exact ⟨hp, h⟩

/-- A change of one slot. -/
theorem LifeStep.update {procs : SlotId → Process} {i j : SlotId} {q : Process}
    (h : i = j → LifeStep c (procs j) q) :
    LifeStep c (procs i) (Function.update procs j q i) := by
  by_cases hij : i = j
  · subst hij
    rw [update_self]
    exact h rfl
  · rw [update_of_ne hij]
    exact .refl _

namespace Kernel

variable {M : Type}

theorem parkedProcess_sameLife (s : Kernel M) (t : Option SlotId) (i : SlotId) :
    (s.processes i).SameLife (s.parkedProcess t i) := by
  unfold parkedProcess
  split <;> exact ⟨⟨rfl, rfl⟩, rfl, rfl⟩

theorem returnToKernel_sameLife {s s' : Kernel M} (h : s.returnToKernel = some s') (i : SlotId) :
    (s.processes i).SameLife (s'.processes i) := by
  obtain ⟨t, callerAs, outer, rest, k, -, rfl⟩ := returnToKernel_cases h
  rw [leaveDispatch_eq]
  exact s.parkedProcess_sameLife (some t) i

theorem runUntilReturn_processes {s s' : Kernel M} {outer : Option SlotId} {rest : List Frame}
    {code : ℤ} (h : s.runUntilReturn outer rest code = some s') :
    s'.processes = s.processes := by
  unfold runUntilReturn at h
  dsimp only at h
  split at h
  · exact some.inj h ▸ rfl
  · exact some.inj h ▸ rfl
  · cases h

variable [MemoryOps M]

theorem reap_lifeStep {s : Kernel M} {i j : SlotId} (hj : (s.processes j).state = .zombie)
    (h : i = j → c.reaped) : LifeStep c (s.processes i) ((s.reap j).processes i) := by
  by_cases hij : i = j
  · subst hij
    exact .reaped (h rfl) hj (reap_processes_self s i)
  · rw [reap_processes_ne s hij]
    exact .refl _

theorem Reaps.lifeStep {s s' : Kernel M} (h : s.Reaps s') (hc : c.reaped) (i : SlotId) :
    LifeStep c (s.processes i) (s'.processes i) := by
  rcases h.slot i with heq | ⟨hz, hu⟩
  · exact heq ▸ .refl _
  · exact .reaped hc hz hu

/-- A dispatch moves one slot from runnable to running and leaves the lives of the others alone. -/
theorem pickAndDispatch_slot (s : Kernel M) (i : SlotId) :
    (s.processes i).SameLife (s.pickAndDispatch.processes i) ∨
      ((s.processes i).state = .runnable ∧ (s.processes i).SameIds (s.pickAndDispatch.processes i) ∧
        (s.pickAndDispatch.processes i).state = .running) := by
  rcases s.pickAndDispatch_cases with heq | ⟨next, m, hnext, heq⟩
  · rw [heq]
    exact Or.inl (.refl _)
  · rw [heq]
    obtain ⟨hids, hstate, hexit⟩ := s.parkedProcess_sameLife s.currentTask i
    by_cases hi : i = next
    · subst hi
      exact Or.inr ⟨hnext, by simpa [dispatchedProcess, Process.SameIds] using hids,
        by simp [dispatchedProcess]⟩
    · refine Or.inl ?_
      simp only [dispatchedProcess, if_neg hi]
      exact ⟨hids, hstate, hexit⟩

theorem pickAndDispatch_lifeStep (s : Kernel M) (i : SlotId) :
    LifeStep c (s.processes i) (s.pickAndDispatch.processes i) := by
  rcases s.pickAndDispatch_slot i with h | ⟨hp, hids, hq⟩
  · exact .same h
  · exact .dispatched hp hids hq

end Kernel

end AnssOS
