import AnssOS.Exec.Steps

/-!
# Who is running

Five records say which process is running: `Table.current`, `CURRENT_TASK`, the active address
space, `TSS.RSP0` and the contents of the x87/SSE registers.  They are saved and restored in three
different functions, around a scheduler that calls itself for every `wait`.  This module shows that
they agree whenever a process executes.

The shape of the kernel's call stack is the inductive predicate `CallStack`: dispatches and
`run_until` loops alternate, each dispatch knows the address space and the task it interrupted, and
the context saved in its task leads back to it.  `Context` adds what the five records say for a
given stack, and every step keeps it.  The registers a process should see are tracked beside the
kernel, by `ownFpuAfter`.
-/

namespace AnssOS

open List Option Function

/-! ### The call stack -/

/-- The process of the innermost dispatch. -/
def owner : List Frame → Option SlotId
  | [] => none
  | .dispatch t _ _ :: _ => some t
  | .runUntil _ _ :: rest => owner rest
  | .wait _ _ :: rest => owner rest
  | .waitDone _ _ _ :: rest => owner rest

/-- The processes with an active dispatch, innermost first. -/
def activeDispatches : List Frame → List SlotId
  | [] => []
  | .dispatch t _ _ :: rest => t :: activeDispatches rest
  | .runUntil _ _ :: rest => activeDispatches rest
  | .wait _ _ :: rest => activeDispatches rest
  | .waitDone _ _ _ :: rest => activeDispatches rest

/-- The address space of a process, or the kernel's own. -/
def aspaceOf (kas : AddrSpace) (procs : SlotId → Process) : Option SlotId → AddrSpace
  | none => kas
  | some i => (procs i).task.aspace

/-- The well-formed call stacks.  The kernel launches the outermost loop; a loop dispatches a
process; a process in a dispatch waits, which starts a loop on top of it. -/
inductive CallStack (kas : AddrSpace) (procs : SlotId → Process) : List Frame → Prop
  | idle : CallStack kas procs []
  | top : CallStack kas procs [.runUntil none none]
  | dispatch (t : SlotId) (w : Option ℤ) (outer : Option SlotId) (rest : List Frame)
      (hrest : CallStack kas procs (.runUntil w outer :: rest))
      (hresume : (procs t).task.kernelResume = rest.length + 2) :
      CallStack kas procs
        (.dispatch t (aspaceOf kas procs outer) outer :: .runUntil w outer :: rest)
  | wait (t : SlotId) (callerAs : AddrSpace) (outer : Option SlotId) (target : ℤ) (status : ℕ)
      (rest : List Frame) (hrest : CallStack kas procs (.dispatch t callerAs outer :: rest)) :
      CallStack kas procs (.runUntil (some target) (some t) :: .wait target status ::
        .dispatch t callerAs outer :: rest)
  | waitDone (t : SlotId) (callerAs : AddrSpace) (outer : Option SlotId) (target : ℤ)
      (status : ℕ) (code : ℤ) (rest : List Frame)
      (hrest : CallStack kas procs (.dispatch t callerAs outer :: rest)) :
      CallStack kas procs (.waitDone target status code :: .dispatch t callerAs outer :: rest)

theorem owner_mem_activeDispatches {fs : List Frame} {p : SlotId} (h : owner fs = some p) :
    p ∈ activeDispatches fs := by
  induction fs with
  | nil => cases h
  | cons f fs ih =>
    cases f with
    | dispatch t callerAs outer =>
      obtain rfl := some.inj h
      exact mem_cons_self
    | runUntil | wait | waitDone => exact ih h

/-- The local `outer` of the innermost loop is the process it interrupted. -/
theorem CallStack.outer_eq {kas : AddrSpace} {procs : SlotId → Process} {w : Option ℤ}
    {outer : Option SlotId} {rest : List Frame}
    (h : CallStack kas procs (.runUntil w outer :: rest)) : outer = owner rest := by
  cases h with
  | top => rfl
  | wait => rfl

/-- A call stack stays well formed as long as the processes on it keep their address space and
their saved context. -/
theorem CallStack.congr {kas : AddrSpace} {procs procs' : SlotId → Process} {fs : List Frame}
    (h : CallStack kas procs fs)
    (heq : ∀ i ∈ activeDispatches fs, (procs' i).task.aspace = (procs i).task.aspace ∧
      (procs' i).task.kernelResume = (procs i).task.kernelResume) :
    CallStack kas procs' fs := by
  induction h with
  | idle => exact .idle
  | top => exact .top
  | dispatch t w outer rest hrest hresume ih =>
    have hrest' := ih fun i hi => heq i (mem_cons_of_mem _ hi)
    have haspace : aspaceOf kas procs outer = aspaceOf kas procs' outer := by
      cases houter : outer with
      | none => rfl
      | some o =>
        have howner : owner rest = some o := by rw [← hrest.outer_eq, houter]
        exact ((heq o (mem_cons_of_mem _ (owner_mem_activeDispatches howner))).1).symm
    rw [haspace]
    refine .dispatch t w outer rest hrest' ?_
    rw [(heq t mem_cons_self).2, hresume]
  | wait t callerAs outer target status rest _ ih => exact .wait _ _ _ _ _ _ (ih heq)
  | waitDone t callerAs outer target status code rest _ ih => exact .waitDone _ _ _ _ _ _ _ (ih heq)

namespace Kernel

variable {M : Type}

/-! ### The invariant -/

/-- The process that executes: in ring 3, or in a system call outside any nested `run_until`. -/
def executing (s : Kernel M) : Option SlotId :=
  match s.frames with
  | .dispatch t _ _ :: _ => some t
  | .waitDone _ _ _ :: .dispatch t _ _ :: _ => some t
  | _ => none

theorem owner_of_executing {s : Kernel M} {p : SlotId} (h : s.executing = some p) :
    owner s.frames = some p := by
  unfold executing at h
  split at h
  · rename_i hframes
    rwa [hframes]
  · rename_i hframes
    rwa [hframes]
  · cases h

theorem executing_of_inRing3 {s : Kernel M} {p : SlotId} (h : s.inRing3 = some p) :
    s.executing = some p := by
  obtain ⟨callerAs, outer, rest, hframes⟩ := inRing3_eq_some.mp h
  simp only [executing, hframes]

/-- The five records agree with the call stack, and each process finds its own registers. -/
structure Context (kas : AddrSpace) (s : Kernel M) (own : SlotId → FpuState) : Prop where
  stack : CallStack kas s.processes s.frames
  currentTask_eq : s.currentTask = owner s.frames
  cr3_eq : s.cr3 = aspaceOf kas s.processes (owner s.frames)
  current_eq : ∀ p, s.executing = some p → s.current = some p
  rsp0_eq : ∀ p, s.executing = some p → s.rsp0 = (s.processes p).task.kernelStackTop
  idle : s.frames = [] → s.current = none
  running_iff : ∀ i, (s.processes i).state = .running ↔ i ∈ activeDispatches s.frames
  nodup : (activeDispatches s.frames).Nodup
  fpu_eq : ∀ p, owner s.frames = some p → s.fpu = own p
  saved : ∀ i, (s.processes i).Live → owner s.frames ≠ some i →
    (s.processes i).task.fpuState = own i

/-- What a step may not change about a process with an active dispatch. -/
def KeepsDispatch (p q : Process) : Prop :=
  q.state = p.state ∧ q.task.aspace = p.task.aspace ∧
    q.task.kernelResume = p.task.kernelResume ∧
    q.task.kernelStackTop = p.task.kernelStackTop ∧ q.task.fpuState = p.task.fpuState

theorem KeepsDispatch.of_sameUpToFiles {p q : Process} (h : p.SameUpToFiles q) :
    KeepsDispatch p q := by
  unfold Process.SameUpToFiles at h
  rw [h]
  exact ⟨rfl, rfl, rfl, rfl, rfl⟩

/-- The call stack and the five records are the same. -/
structure SameControl (s s' : Kernel M) : Prop where
  frames : s'.frames = s.frames
  current : s'.current = s.current
  currentTask : s'.currentTask = s.currentTask
  cr3 : s'.cr3 = s.cr3
  rsp0 : s'.rsp0 = s.rsp0
  fpu : s'.fpu = s.fpu

section Preservation

variable {kas : AddrSpace} {s s' : Kernel M} {own own' : SlotId → FpuState}

variable {p : SlotId} {q : Process} {rest : List Frame} {outer : Option SlotId} {s₁ : Kernel M}

section

variable (h : Context kas s own)

include h

theorem Context.owner_running (hp : owner s.frames = some p) : (s.processes p).state = .running :=
  (h.running_iff p).mpr (owner_mem_activeDispatches hp)

/-- A step that leaves the call stack and the five records alone keeps the invariant if it leaves
the processes on the stack alone, puts no process into the state `Running` and gives each new
process its registers. -/
theorem Context.of_slots (hsame : s.SameControl s')
    (hactive : ∀ i, (s.processes i).state = .running →
      KeepsDispatch (s.processes i) (s'.processes i) ∧ own' i = own i)
    (hother : ∀ i, (s.processes i).state ≠ .running → (s'.processes i).state ≠ .running ∧
      ((s'.processes i).Live → (s'.processes i).task.fpuState = own' i)) :
    Context kas s' own' := by
  obtain ⟨hframes, hcurrent, htask, hcr3, hrsp0, hfpu⟩ := hsame
  have hkept : ∀ i ∈ activeDispatches s.frames, KeepsDispatch (s.processes i) (s'.processes i) :=
    fun i hi => (hactive i ((h.running_iff i).mpr hi)).1
  have hexec : s'.executing = s.executing := by simp only [executing, hframes]
  refine ⟨?_, ?_, ?_, ?_, ?_, ?_, ?_, ?_, ?_, ?_⟩
  · rw [hframes]
    exact h.stack.congr fun i hi => ⟨(hkept i hi).2.1, (hkept i hi).2.2.1⟩
  · rw [htask, hframes, h.currentTask_eq]
  · rw [hcr3, hframes, h.cr3_eq]
    cases howner : owner s.frames with
    | none => rfl
    | some p => exact ((hkept p (owner_mem_activeDispatches howner)).2.1).symm
  · intro p hp
    rw [hcurrent]
    exact h.current_eq p (hexec ▸ hp)
  · intro p hp
    rw [hexec] at hp
    have hmem := owner_mem_activeDispatches (owner_of_executing hp)
    rw [hrsp0, h.rsp0_eq p hp, (hkept p hmem).2.2.2.1]
  · rw [hframes, hcurrent]
    exact h.idle
  · intro i
    rw [hframes]
    by_cases hi : (s.processes i).state = .running
    · rw [(hactive i hi).1.1]
      exact h.running_iff i
    · exact ⟨fun hrun => absurd hrun (hother i hi).1,
        fun hact => absurd ((h.running_iff i).mpr hact) hi⟩
  · rw [hframes]
    exact h.nodup
  · intro p hp
    rw [hframes] at hp
    rw [hfpu, h.fpu_eq p hp, (hactive p (h.owner_running hp)).2]
  · intro i hlive hne
    rw [hframes] at hne
    by_cases hi : (s.processes i).state = .running
    · obtain ⟨⟨-, -, -, -, hsaved⟩, hown⟩ := hactive i hi
      rw [hsaved, hown]
      exact h.saved i (Or.inr hi) hne
    · exact (hother i hi).2 hlive

theorem Context.me_eq {p me : SlotId} (hring : s.inRing3 = some p)
    (hme : s.current = some me) : me = p := by
  have hcurrent := h.current_eq p (executing_of_inRing3 hring)
  rw [hme] at hcurrent
  exact some.inj hcurrent

theorem Context.ring3_running (hring : s.inRing3 = some p) : (s.processes p).state = .running :=
  h.owner_running (owner_of_executing (executing_of_inRing3 hring))

theorem Context.of_keepsDispatch (hsame : s.SameControl s')
    (hkeep : ∀ i, KeepsDispatch (s.processes i) (s'.processes i)) : Context kas s' own := by
  refine h.of_slots hsame (fun i _ => ⟨hkeep i, rfl⟩) fun i hi => ?_
  obtain ⟨hstate, -, -, -, hsaved⟩ := hkeep i
  refine ⟨by rwa [hstate], fun hlive => ?_⟩
  rw [hsaved]
  refine h.saved i (by rwa [Process.Live, hstate] at hlive) fun howner => ?_
  exact hi (h.owner_running howner)

/-- Changes of files, pipes, ledgers and memory keep the invariant. -/
theorem Context.of_sameUpToFiles (hs : s.SameUpToFiles s') : Context kas s' own := by
  obtain ⟨heq, hslots⟩ := hs
  refine h.of_keepsDispatch ?_ fun i => .of_sameUpToFiles (hslots i)
  rw [heq]
  exact ⟨rfl, rfl, rfl, rfl, rfl, rfl⟩

/-- A change of one slot whose process is not running keeps the invariant. -/
theorem Context.of_update {i : SlotId}
    (hsame : s.SameControl s') (hprocs : s'.processes = Function.update s.processes i q)
    (hi : (s.processes i).state ≠ .running) (hq : q.state ≠ .running) :
    Context kas s' (if q.Live then Function.update own i q.task.fpuState else own) := by
  refine h.of_slots hsame (fun j hj => ?_) fun j hj => ?_
  · have hji : j ≠ i := fun heq => hi (heq ▸ hj)
    rw [hprocs, update_of_ne hji]
    refine ⟨⟨rfl, rfl, rfl, rfl, rfl⟩, ?_⟩
    split
    · rw [update_of_ne hji]
    · rfl
  · rw [hprocs]
    by_cases hji : j = i
    · subst hji
      rw [update_self]
      refine ⟨hq, fun hlive => ?_⟩
      rw [if_pos hlive, update_self]
    · rw [update_of_ne hji]
      refine ⟨hj, fun hlive => ?_⟩
      have hsaved := h.saved j hlive fun howner => hj (h.owner_running howner)
      split
      · rw [update_of_ne hji, hsaved]
      · exact hsaved

/-- A new process brings its registers along. -/
theorem Context.of_newProcess {i : SlotId} {fpu : FpuState}
    (hsame : s.SameControl s') (hprocs : s'.processes = Function.update s.processes i q)
    (hi : (s.processes i).state = .unused) (hq : q.state = .runnable)
    (hfpu : q.task.fpuState = fpu) : Context kas s' (Function.update own i fpu) := by
  have hctx := h.of_update hsame hprocs (by rw [hi]; decide) (by rw [hq]; decide)
  have hlive : q.Live := Or.inl hq
  rwa [if_pos hlive, hfpu] at hctx

/-- The registers change only for the process that computes. -/
theorem Context.compute (hp : s.inRing3 = some p)
    (fpu : FpuState) : Context kas { s with fpu := fpu } (Function.update own p fpu) := by
  obtain ⟨callerAs, outer, rest, hframes⟩ := inRing3_eq_some.mp hp
  have howner : owner s.frames = some p := by rw [hframes]; rfl
  refine ⟨h.stack, h.currentTask_eq, h.cr3_eq, h.current_eq, h.rsp0_eq, h.idle, h.running_iff,
    h.nodup, fun q hq => ?_, fun i hlive hne => ?_⟩
  · obtain rfl : p = q := some.inj (howner ▸ hq)
    rw [update_self]
  · have hip : i ≠ p := fun heq => hne (heq ▸ howner)
    rw [update_of_ne hip]
    exact h.saved i hlive hne

/-- A call of `wait` starts a nested loop and changes nothing else. -/
theorem Context.wait (hp : s.inRing3 = some p) (target : ℤ) (status : ℕ) :
    Context kas { s with
      frames := .runUntil (some target) (some p) :: .wait target status :: s.frames } own := by
  obtain ⟨callerAs, outer, rest, hframes⟩ := inRing3_eq_some.mp hp
  refine ⟨?_, h.currentTask_eq, h.cr3_eq, by rintro q ⟨⟩, by rintro q ⟨⟩, by rintro ⟨⟩,
    h.running_iff, h.nodup, h.fpu_eq, h.saved⟩
  have hstack := h.stack
  rw [hframes] at hstack ⊢
  exact .wait p callerAs outer target status rest hstack

/-- The kernel starts the outermost loop. -/
theorem Context.runUntil (hframes : s.frames = []) :
    Context kas { s with frames := [.runUntil none s.current] } own := by
  obtain ⟨-, htask, hcr3, -, -, hidle, hrunning, hnodup, hfpu, hsaved⟩ := h
  rw [hframes] at htask hcr3 hrunning hnodup hfpu hsaved
  rw [hidle hframes]
  exact ⟨.top, htask, hcr3, by rintro q ⟨⟩, by rintro q ⟨⟩, by rintro ⟨⟩, hrunning, hnodup,
    hfpu, hsaved⟩

/-- `sys_wait` returns to ring 3. -/
theorem Context.waitReturn {target : ℤ} {status : ℕ} {code : ℤ}
    (hframes : s.frames = .waitDone target status code :: rest) (m : M) :
    Context kas { s with mem := m, frames := rest } own := by
  obtain ⟨hstack, htask, hcr3, hcurrent, hrsp0, -, hrunning, hnodup, hfpu, hsaved⟩ := h
  rw [hframes] at hstack htask hcr3 hrunning hnodup hfpu hsaved
  cases hstack with
  | waitDone t callerAs outer _ _ _ rest hrest =>
    have hexec : s.executing = some t := by simp only [executing, hframes]
    refine ⟨hrest, htask, hcr3, ?_, ?_, by rintro ⟨⟩, hrunning, hnodup, hfpu, hsaved⟩
    · rintro q ⟨⟩
      exact hcurrent t hexec
    · rintro q ⟨⟩
      exact hrsp0 t hexec

/-- A loop returns into the `wait` that started it, or into the kernel. -/
theorem Context.runUntilReturn {w : Option ℤ}
    {code : ℤ} (hframes : s.frames = .runUntil w outer :: rest)
    (hreturn : s.runUntilReturn outer rest code = some s') : Context kas s' own := by
  obtain ⟨hstack, htask, hcr3, -, -, -, hrunning, hnodup, hfpu, hsaved⟩ := h
  rw [hframes] at hstack htask hcr3 hrunning hnodup hfpu hsaved
  cases hstack with
  | top =>
    obtain rfl := some.inj hreturn
    exact ⟨.idle, htask, hcr3, by rintro q ⟨⟩, by rintro q ⟨⟩, fun _ => rfl, hrunning, hnodup,
      hfpu, hsaved⟩
  | wait t callerAs outer' target status rest' hrest =>
    obtain rfl := some.inj hreturn
    refine ⟨.waitDone t callerAs outer' target status code rest' hrest, htask, hcr3, ?_, ?_,
      by rintro ⟨⟩, hrunning, hnodup, hfpu, hsaved⟩
    · rintro q ⟨⟩
      rfl
    · rintro q ⟨⟩
      rfl

/-- `return_to_kernel` goes back to the innermost dispatch, as long as the saved context of its
process is left alone. -/
theorem Context.returnToKernel_eq {callerAs : AddrSpace}
    (hs : s.frames = .dispatch p callerAs outer :: rest) (hframes : s₁.frames = s.frames)
    (htask : s₁.currentTask = s.currentTask)
    (hresume : (s₁.processes p).task.kernelResume = (s.processes p).task.kernelResume) :
    s₁.returnToKernel = some (s₁.leaveDispatch p callerAs outer rest) := by
  have hstack := h.stack
  rw [hs] at hstack
  have howner : owner s.frames = some p := by rw [hs]; rfl
  refine Kernel.returnToKernel_eq ?_ (hframes.trans hs) ?_
  · rw [htask, h.currentTask_eq, howner]
  · cases hstack with
    | dispatch _ w _ rest hrest hlen =>
      rw [hresume, hlen]
      rfl

/-- After `return_to_kernel` the loop that had dispatched the process goes on. -/
theorem Context.frames_returnToKernel
    (hp : s.inRing3 = some p) (hreturn : s₁.returnToKernel = some s')
    (hframes : s₁.frames = s.frames) (htask : s₁.currentTask = s.currentTask)
    (hresume : (s₁.processes p).task.kernelResume = (s.processes p).task.kernelResume) :
    ∃ callerAs outer w rest, s.frames = .dispatch p callerAs outer :: s'.frames ∧
      s'.frames = .runUntil w outer :: rest := by
  obtain ⟨callerAs, outer, rest, hs⟩ := inRing3_eq_some.mp hp
  have hstack := h.stack
  rw [hs] at hstack
  cases hstack with
  | dispatch _ w _ rest hrest hlen =>
    rw [h.returnToKernel_eq hs hframes htask hresume] at hreturn
    obtain rfl := some.inj hreturn
    rw [leaveDispatch_eq]
    exact ⟨_, outer, w, rest, hs, rfl⟩

/-- The process in ring 3 gives up the processor: `return_to_kernel` ends its dispatch, and the
loop below finds the records as they were before it. -/
theorem Context.leave
    (hp : s.inRing3 = some p) (hreturn : s₁.returnToKernel = some s')
    (hprocs : s₁.processes = Function.update s.processes p q) (hframes : s₁.frames = s.frames)
    (htask : s₁.currentTask = s.currentTask) (hq : q.state ≠ .running)
    (hresume : q.task.kernelResume = (s.processes p).task.kernelResume) : Context kas s' (Function.update own p s₁.fpu) := by
  obtain ⟨callerAs, outer, rest, hs⟩ := inRing3_eq_some.mp hp
  have howner : owner s.frames = some p := by rw [hs]; rfl
  have hstack := h.stack
  have hnodup := h.nodup
  rw [hs] at hstack hnodup
  obtain ⟨hnotMem, hnodupRest⟩ := nodup_cons.mp hnodup
  cases hstack with
  | dispatch _ w _ rest hrest hlen =>
    have heq : s' = s₁.leaveDispatch p (aspaceOf kas s.processes outer) outer
        (.runUntil w outer :: rest) := by
      refine some.inj (hreturn.symm.trans (h.returnToKernel_eq hs hframes htask ?_))
      rw [hprocs, update_self, hresume]
    rw [leaveDispatch_eq] at heq
    have hself : s'.processes p = { q with task := { q.task with fpuState := s₁.fpu } } := by
      simp [heq, parkedProcess, hprocs]
    have hother : ∀ i, i ≠ p → s'.processes i = s.processes i := by
      intro i hi
      simp [heq, parkedProcess, hprocs, hi, Ne.symm hi]
    have hbelow : ∀ i ∈ activeDispatches rest, s'.processes i = s.processes i := fun i hi =>
      hother i fun hip => hnotMem (hip ▸ hi)
    have houter : outer = owner rest := hrest.outer_eq
    have hsavedOuter : ∀ o, owner rest = some o → (s.processes o).task.fpuState = own o := by
      intro o ho
      have hmem := owner_mem_activeDispatches ho
      refine h.saved o (Or.inr ((h.running_iff o).mpr ?_)) ?_
      · rw [hs]
        exact mem_cons_of_mem _ hmem
      · rw [howner]
        rintro ⟨⟩
        exact hnotMem hmem
    have hframes' : s'.frames = .runUntil w outer :: rest := by rw [heq]
    have howner' : owner s'.frames = owner rest := by rw [hframes']; rfl
    have hactive' : activeDispatches s'.frames = activeDispatches rest := by rw [hframes']; rfl
    refine ⟨?_, ?_, ?_, ?_, ?_, ?_, ?_, ?_, ?_, ?_⟩
    · rw [hframes']
      refine hrest.congr fun i hi => ?_
      rw [hbelow i hi]
      exact ⟨rfl, rfl⟩
    · rw [howner', heq, houter]
    · rw [howner']
      have hcr3 : s'.cr3 = aspaceOf kas s.processes outer := by rw [heq]
      rw [hcr3, houter]
      cases ho : owner rest with
      | none => rfl
      | some o =>
        simp only [aspaceOf]
        rw [hbelow o (owner_mem_activeDispatches ho)]
    · intro r hr
      simp [executing, hframes'] at hr
    · intro r hr
      simp [executing, hframes'] at hr
    · simp [hframes']
    · intro i
      rw [hactive']
      by_cases hi : i = p
      · subst hi
        rw [hself]
        exact ⟨fun hrun => absurd hrun hq, fun hmem => absurd hmem hnotMem⟩
      · rw [hother i hi, h.running_iff i, hs]
        exact ⟨fun hmem => (mem_cons.mp hmem).resolve_left hi, mem_cons_of_mem _⟩
    · rw [hactive']
      exact hnodupRest
    · intro o ho
      rw [howner'] at ho
      have hop : o ≠ p := fun heq => hnotMem (heq ▸ owner_mem_activeDispatches ho)
      have hfpu : s'.fpu = (s'.processes o).task.fpuState := by
        rw [heq, houter, ho]
        rfl
      rw [hfpu, hother o hop, hsavedOuter o ho, update_of_ne hop]
    · intro i hlive hne
      by_cases hi : i = p
      · subst hi
        rw [hself, update_self]
      · rw [hother i hi] at hlive ⊢
        rw [update_of_ne hi]
        refine h.saved i hlive ?_
        rw [howner]
        exact fun heq => hi (some.inj heq).symm

/-- A loop puts the next process into ring 3. -/
theorem Context.pickAndDispatch [MemoryOps M] {w : Option ℤ}
    (hs : s.frames = .runUntil w outer :: rest) : Context kas s.pickAndDispatch own := by
  rcases s.pickAndDispatch_cases with heq | ⟨next, m, hnext, heq⟩
  · rwa [heq]
  have hrest := h.stack
  rw [hs] at hrest
  have houter : outer = owner s.frames := by rw [hs]; exact hrest.outer_eq
  have hnotOwner : owner s.frames ≠ some next := by
    intro howner
    rw [h.owner_running howner] at hnext
    cases hnext
  have hnotMem : next ∉ activeDispatches s.frames := by
    intro hmem
    rw [(h.running_iff next).mpr hmem] at hnext
    cases hnext
  generalize s.pickAndDispatch = s' at heq
  have hframes' : s'.frames = .dispatch next s.cr3 s.currentTask :: s.frames := by rw [heq]
  have hkeep : ∀ i, (s'.processes i).task.aspace = (s.processes i).task.aspace := by
    intro i
    by_cases hi : i = next <;> simp [heq, dispatchedProcess, hi]
  have hother : ∀ i, i ≠ next → s'.processes i = s.parkedProcess s.currentTask i := by
    intro i hi
    simp [heq, dispatchedProcess, hi]
  have hstate : ∀ i, i ≠ next → (s'.processes i).state = (s.processes i).state := by
    intro i hi
    rw [hother i hi, parkedProcess]
    split <;> rfl
  have hrun : (s'.processes next).state = .running := by simp [heq, dispatchedProcess]
  have hstack : CallStack kas s'.processes (.runUntil w outer :: rest) := by
    refine hrest.congr fun i hi => ⟨hkeep i, ?_⟩
    have hne : i ≠ next := fun heq => hnotMem (by rw [hs]; exact heq ▸ hi)
    rw [hother i hne, parkedProcess]
    split <;> rfl
  have hcr3 : s.cr3 = aspaceOf kas s'.processes outer := by
    rw [h.cr3_eq, houter]
    cases owner s.frames with
    | none => rfl
    | some o => exact (hkeep o).symm
  have hexec : s'.executing = some next := by simp [executing, hframes']
  have hsaved : ∀ i, (s.processes i).Live →
      (s.parkedProcess s.currentTask i).task.fpuState = own i := by
    intro i hlive
    rw [h.currentTask_eq, parkedProcess]
    split
    · rename_i howner
      exact h.fpu_eq i howner
    · rename_i howner
      exact h.saved i hlive howner
  refine ⟨?_, ?_, ?_, ?_, ?_, ?_, ?_, ?_, ?_, ?_⟩
  · rw [hframes', hcr3, h.currentTask_eq, ← houter, hs]
    refine .dispatch next w outer rest hstack ?_
    simp [heq, dispatchedProcess, hs]
  · rw [hframes', heq]
    rfl
  · rw [hframes']
    exact (by rw [heq] : s'.cr3 = _).trans (hkeep next).symm
  · rw [hexec]
    rintro p ⟨⟩
    rw [heq]
  · rw [hexec]
    rintro p ⟨⟩
    simp [heq, dispatchedProcess]
  · simp [hframes']
  · intro i
    rw [hframes']
    by_cases hi : i = next
    · subst hi
      exact ⟨fun _ => mem_cons_self, fun _ => hrun⟩
    · rw [hstate i hi, h.running_iff i]
      exact ⟨mem_cons_of_mem _, fun hmem => (mem_cons.mp hmem).resolve_left hi⟩
  · rw [hframes']
    exact nodup_cons.mpr ⟨hnotMem, h.nodup⟩
  · rw [hframes']
    rintro p ⟨⟩
    rw [heq]
    exact hsaved next (Or.inl hnext)
  · rw [hframes']
    intro i hlive hne
    have hi : i ≠ next := fun heq => hne (congrArg some heq.symm)
    rw [Process.Live, hstate i hi] at hlive
    rw [hother i hi]
    exact hsaved i hlive

end
end Preservation

section Runs

variable [MemoryOps M] {kas : AddrSpace} {s s' : Kernel M} {own : SlotId → FpuState}

theorem Context.reap (h : Context kas s own) {i : SlotId}
    (hi : (s.processes i).state = .zombie) : Context kas (s.reap i) own := by
  obtain ⟨m, hm⟩ := s.reap_eq i
  have hsame : s.SameControl (s.reap i) := by
    rw [hm]
    exact ⟨rfl, rfl, rfl, rfl, rfl, rfl⟩
  have hctx := h.of_update hsame (by rw [hm]) (by rw [hi]; decide) (by simp)
  rwa [if_neg (by simp [Process.Live])] at hctx

/-- The scan of `run_until(None)` stays inside the same activation. -/
theorem Context.reaps {s₁ : Kernel M} (h : Context kas s own) (hreaps : s.Reaps s₁) :
    Context kas s₁ own ∧ s₁.frames = s.frames := by
  refine hreaps.preserves (P := fun t => Context kas t own ∧ t.frames = s.frames) ?_ ⟨h, rfl⟩
  rintro t i ⟨hctx, hframes⟩ hi
  exact ⟨hctx.reap hi, (t.reap_frames i).trans hframes⟩

/-- The registers each process should see after an event: only a process in ring 3 changes its own,
a new program starts from the initial ones, and a forked child from its parent's. -/
def ownFpuAfter (s : Kernel M) (own : SlotId → FpuState) : Event → SlotId → FpuState
  | .spawn image argv cwd =>
      match s.allocSlot, (s.spawn image argv cwd kernelParentPid).1 with
      | some i, some _ => Function.update own i fpuStateInit
      | _, _ => own
  | .user u =>
      match s.inRing3, u with
      | some p, .compute fpu => Function.update own p fpu
      | some p, .fork =>
          match s.allocSlot, (s.fork p).1 with
          | some i, some _ => Function.update own i (own p)
          | _, _ => own
      | some p, .execve image argv =>
          if (s.exec p image argv).1 then Function.update own p fpuStateInit else own
      | _, _ => own
  | _ => own

/-- Every step keeps the records in agreement. -/
theorem Context.step {e : Event} (h : Context kas s own) (hstep : s.step e = some s') :
    Context kas s' (s.ownFpuAfter own e) := by
  have hmem : ∀ m : M, Context kas { s with mem := m } own := fun m =>
    h.of_sameUpToFiles (s.sameUpToFiles_pipes_mem s.pipes m)
  have hfpu : ∀ {p : SlotId}, s.inRing3 = some p → s.fpu = own p := fun hring =>
    h.fpu_eq _ (owner_of_executing (executing_of_inRing3 hring))
  cases step_cases hstep with
  | kernelAlloc size align m => exact hmem m
  | kernelDealloc ptr size align m => exact hmem m
  | spawnFailed image argv cwd m hframes hspawn =>
    have hown : s.ownFpuAfter own (.spawn image argv cwd) = own := by
      simp [ownFpuAfter, hspawn]
    rw [hown]
    exact hmem m
  | spawned image argv cwd i img m hframes hslot hspawn =>
    have hown : s.ownFpuAfter own (.spawn image argv cwd) =
        Function.update own i fpuStateInit := by
      simp [ownFpuAfter, hspawn, hslot]
    rw [hown]
    exact h.of_newProcess ⟨rfl, rfl, rfl, rfl, rfl, rfl⟩ (by rfl) (allocSlot_unused hslot)
      (by rfl) (by rfl)
  | runUntil hframes => exact h.runUntil hframes
  | roundGone pid outer rest s' hframes hpid hreturn =>
    exact h.runUntilReturn hframes hreturn
  | roundReaped pid outer rest target s' hframes hpid hzombie hreturn =>
    exact (h.reap hzombie).runUntilReturn ((s.reap_frames target).trans hframes) hreturn
  | roundNested pid outer rest target hframes hpid hzombie => exact h.pickAndDispatch hframes
  | roundLast outer rest s₁ s' hframes hreaps hunused hreturn =>
    obtain ⟨hctx, hframes₁⟩ := h.reaps hreaps
    exact hctx.runUntilReturn (hframes₁.trans hframes) hreturn
  | roundTop outer rest s₁ hframes hreaps hzombie =>
    obtain ⟨hctx, hframes₁⟩ := h.reaps hreaps
    exact hctx.pickAndDispatch (hframes₁.trans hframes)
  | waitReturn target status code rest m hframes => exact h.waitReturn hframes m
  | orphan u p s' hring hcurrent =>
    rw [h.current_eq p (executing_of_inRing3 hring)] at hcurrent
    cases hcurrent
  | compute p fpu hring =>
    have hown : s.ownFpuAfter own (.user (.compute fpu)) = Function.update own p fpu := by
      simp [ownFpuAfter, hring]
    rw [hown]
    exact h.compute hring fpu
  | quiet u p s' hu hring hquiet =>
    have hown : s.ownFpuAfter own (.user u) = own := by
      cases u <;> simp [ownFpuAfter, UserEvent.Quiet] at hu ⊢
    rw [hown]
    exact h.of_sameUpToFiles (userStep_quiet hu hquiet)
  | forkFull p me hring hcurrent hslot => 
    have hown : s.ownFpuAfter own (.user .fork) = own := by
      simp [ownFpuAfter, hring, hslot]
    rw [hown]
    exact h
  | forkFailed p me i m hring hcurrent hslot hfork =>
    obtain rfl := h.me_eq hring hcurrent
    have hown : s.ownFpuAfter own (.user .fork) = own := by
      simp [ownFpuAfter, hring, hfork]
    rw [hown]
    exact h.of_slots ⟨rfl, rfl, rfl, rfl, rfl, rfl⟩ (fun i _ => ⟨⟨rfl, rfl, rfl, rfl, rfl⟩, rfl⟩)
      fun i hi => ⟨hi, fun hlive => h.saved i hlive fun howner => hi (h.owner_running howner)⟩
  | forked p me i m pml4 top hring hcurrent hslot hfork =>
    obtain rfl := h.me_eq hring hcurrent
    have hown : s.ownFpuAfter own (.user .fork) = Function.update own i s.fpu := by
      simp [ownFpuAfter, hring, hfork, hslot, hfpu hring]
    rw [hown]
    exact h.of_newProcess ⟨rfl, rfl, rfl, rfl, rfl, rfl⟩ (by rfl) (allocSlot_unused hslot)
      (by rfl) (by rfl)
  | execFailed image argv p me m hring hcurrent hexec =>
    obtain rfl := h.me_eq hring hcurrent
    have hown : s.ownFpuAfter own (.user (.execve image argv)) = own := by
      simp [ownFpuAfter, hring, hexec]
    rw [hown]
    exact hmem m
  | execed image argv p me img m s' hring hcurrent hexec hreturn =>
    obtain rfl := h.me_eq hring hcurrent
    have hown : s.ownFpuAfter own (.user (.execve image argv)) =
        Function.update own me fpuStateInit := by
      simp [ownFpuAfter, hring, hexec]
    rw [hown]
    exact h.leave hring hreturn rfl rfl rfl (by simp [execedProcess]) rfl
  | waitRefused pid status p hring =>
    have hown : s.ownFpuAfter own (.user (.wait pid status)) = own := by
      simp [ownFpuAfter]
    rw [hown]
    exact h
  | waiting pid status p me child hring hcurrent hchild =>
    obtain rfl := h.me_eq hring hcurrent
    have hown : s.ownFpuAfter own (.user (.wait pid status)) = own := by
      simp [ownFpuAfter]
    rw [hown]
    exact h.wait hring _ status
  | suspended u p me s' hu hring hcurrent hreturn =>
    obtain rfl := h.me_eq hring hcurrent
    have hown : s.ownFpuAfter own (.user u) = own := by
      cases u <;> simp [ownFpuAfter, UserEvent.Suspends] at hu ⊢
    have hctx := h.leave hring hreturn rfl rfl rfl (by simp [suspendedProcess]) rfl
    rw [hown]
    simpa [setProcess, hfpu hring] using hctx
  | stopped u p me code s' hu hring hcurrent hreturn =>
    obtain rfl := h.me_eq hring hcurrent
    have hown : s.ownFpuAfter own (.user u) = own := by
      cases u <;> simp [ownFpuAfter, UserEvent.exitCode] at hu ⊢
    rw [terminate_eq] at hreturn
    have hctx := h.leave hring hreturn rfl rfl rfl (by simp [terminatedProcess]) rfl
    rw [hown]
    simpa [hfpu hring] using hctx

/-! ### The call stack along a step -/

/-- The target a loop waits for has not ended yet. -/
def TargetAlive (s : Kernel M) (pid : ℤ) : Prop :=
  ∃ j, s.byPid pid = some j ∧ (s.processes j).state ≠ .zombie

/-- What a step does to the call stack. -/
inductive FrameStep (s s' : Kernel M) : Prop
  | same (h : s'.frames = s.frames)
  | start (hs : s.frames = []) (h : s'.frames = [.runUntil none none])
  | enter (w : Option ℤ) (outer : Option SlotId) (rest : List Frame) (next : SlotId)
      (callerAs : AddrSpace) (outer' : Option SlotId) (hs : s.frames = .runUntil w outer :: rest)
      (halive : ∀ pid, w = some pid → s.TargetAlive pid)
      (h : s'.frames = .dispatch next callerAs outer' :: s.frames)
  | leave (p : SlotId) (callerAs : AddrSpace) (outer : Option SlotId) (w : Option ℤ)
      (rest : List Frame) (hs : s.frames = .dispatch p callerAs outer :: s'.frames)
      (h : s'.frames = .runUntil w outer :: rest)
  | wait (p child : SlotId) (status : ℕ) (hring : s.inRing3 = some p)
      (hused : (s.processes child).state ≠ .unused)
      (hchild : (s.processes child).parentPid = (s.processes p).pid)
      (hprocs : s'.processes = s.processes)
      (h : s'.frames = .runUntil (some (s.processes child).pid) (some p) ::
        .wait (s.processes child).pid status :: s.frames)
  | gone (target : ℤ) (p : SlotId) (status : ℕ) (rest : List Frame)
      (hs : s.frames = .runUntil (some target) (some p) :: .wait target status :: rest)
      (hpid : s.byPid target = none) (h : s'.frames = .waitDone target status (-1) :: rest)
  | waitDone (target : ℤ) (p child : SlotId) (status : ℕ) (rest : List Frame)
      (hs : s.frames = .runUntil (some target) (some p) :: .wait target status :: rest)
      (hpid : s.byPid target = some child) (hzombie : (s.processes child).state = .zombie)
      (hprocs : s'.processes = (s.reap child).processes)
      (h : s'.frames = .waitDone target status (s.processes child).exitStatus :: rest)
  | finish (outer : Option SlotId) (hs : s.frames = [.runUntil none outer])
      (hunused : ∀ i, (s'.processes i).state = .unused) (h : s'.frames = [])
  | waitReturn (target : ℤ) (status : ℕ) (code : ℤ)
      (hs : s.frames = .waitDone target status code :: s'.frames)

/-- A dispatch pushes one activation, or nothing is runnable. -/
theorem frameStep_pickAndDispatch {t : Kernel M} (ht : t.frames = s.frames) {w : Option ℤ}
    {outer : Option SlotId} {rest : List Frame} (hs : s.frames = .runUntil w outer :: rest)
    (halive : ∀ pid, w = some pid → s.TargetAlive pid) : FrameStep s t.pickAndDispatch := by
  rcases t.pickAndDispatch_cases with heq | ⟨next, m, -, heq⟩
  · exact .same (by rw [heq, ht])
  · exact .enter w outer rest next t.cr3 t.currentTask hs halive (by rw [heq, ← ht])

/-- Every step changes the call stack in one of these ways. -/
theorem Context.frameStep {e : Event} (h : Context kas s own) (hstep : s.step e = some s') :
    FrameStep s s' := by
  have hleave : ∀ {s₁ : Kernel M} {p : SlotId}, s.inRing3 = some p →
      s₁.returnToKernel = some s' → s₁.frames = s.frames → s₁.currentTask = s.currentTask →
      (s₁.processes p).task.kernelResume = (s.processes p).task.kernelResume →
      FrameStep s s' := by
    intro s₁ p hring hreturn hframes htask hresume
    obtain ⟨callerAs, outer, w, rest, hs, h'⟩ :=
      h.frames_returnToKernel hring hreturn hframes htask hresume
    exact .leave p callerAs outer w rest hs h'
  have hstack := h.stack
  cases step_cases hstep with
  | kernelAlloc | kernelDealloc | compute | spawnFailed | spawned | forkFull | forkFailed |
    forked | execFailed | waitRefused => exact .same rfl
  | runUntil hframes => exact .start hframes (by rw [h.idle hframes])
  | waiting pid status p me child hring hme hchild =>
    obtain rfl := h.me_eq hring hme
    obtain ⟨hused, hparent, -⟩ := findChild_spec hchild
    exact .wait me child status hring hused hparent rfl rfl
  | roundGone pid outer rest s' hframes hpid hreturn =>
    rw [hframes] at hstack
    cases hstack with
    | wait t callerAs outer' _ status rest' hrest =>
      exact .gone pid t status _ hframes hpid (by rw [← some.inj hreturn])
  | roundReaped pid outer rest target s' hframes hpid hzombie hreturn =>
    rw [hframes] at hstack
    cases hstack with
    | wait t callerAs outer' _ status rest' hrest =>
      refine .waitDone pid t target status _ hframes hpid hzombie ?_ ?_
      · rw [← some.inj hreturn]
      · rw [← some.inj hreturn]
  | roundNested pid outer rest target hframes hpid hzombie =>
    refine frameStep_pickAndDispatch rfl hframes ?_
    rintro _ ⟨⟩
    exact ⟨target, hpid, hzombie⟩
  | roundLast outer rest s₁ s' hframes hreaps hunused hreturn =>
    rw [hframes] at hstack
    cases hstack with
    | top =>
      refine .finish none hframes ?_ (by rw [← some.inj hreturn])
      rw [runUntilReturn_processes hreturn]
      exact hunused
  | roundTop outer rest s₁ hframes hreaps hzombie =>
    exact frameStep_pickAndDispatch (h.reaps hreaps).2 hframes (by rintro _ ⟨⟩)
  | waitReturn target status code rest m hframes => exact .waitReturn target status code hframes
  | orphan u p s' hring hcurrent =>
    rw [h.current_eq p (executing_of_inRing3 hring)] at hcurrent
    cases hcurrent
  | quiet u p s' hu hring hquiet => exact .same (by rw [(userStep_quiet hu hquiet).1])
  | execed image argv p me img m s' hring hme hexec hreturn =>
    obtain rfl := h.me_eq hring hme
    exact hleave hring hreturn rfl rfl (by simp [execedProcess])
  | suspended u p me s' hu hring hme hreturn =>
    obtain rfl := h.me_eq hring hme
    exact hleave hring hreturn rfl rfl (by simp [suspendedProcess])
  | stopped u p me code s' hu hring hme hreturn =>
    obtain rfl := h.me_eq hring hme
    rw [terminate_eq] at hreturn
    exact hleave hring hreturn rfl rfl (by simp [terminatedProcess])

/-- The outermost loop returns to the kernel only once the process table is empty. -/
theorem Context.unused_of_frames_nil {e : Event} (h : Context kas s own)
    (hstep : s.step e = some s') (hne : s.frames ≠ []) (hnil : s'.frames = []) (i : SlotId) :
    (s'.processes i).state = .unused := by
  cases h.frameStep hstep with
  | same h => exact absurd (h ▸ hnil) hne
  | finish outer hs hunused h => exact hunused i
  | waitReturn target status code hs =>
    have hstack := h.stack
    rw [hs, hnil] at hstack
    cases hstack
  | start | enter | leave | wait | gone | waitDone => simp_all

/-! ### The life of a slot -/

/-- The step creates the process in the slot `i`, which gets the next pid. -/
def Creates (s s' : Kernel M) (i : SlotId) : Prop :=
  (s'.processes i).pid = s.nextPid ∧ s'.nextPid = wrapI32 (s.nextPid + 1) ∧
    s'.frames = s.frames ∧ ∀ j, j ≠ i → s'.processes j = s.processes j

/-- The step ends the process in the slot `i`, which executes in ring 3, with the status `code`. -/
def Stops (s : Kernel M) (e : Event) (s' : Kernel M) (i : SlotId) (code : ℤ) : Prop :=
  s.inRing3 = some i ∧ (∃ u, e = .user u ∧ u.exitCode = some code) ∧
    ∃ callerAs outer, s.frames = .dispatch i callerAs outer :: s'.frames

/-- The step returns from the wait of `p` for the process in the slot `i`, with its exit status. -/
def Delivers (s s' : Kernel M) (p i : SlotId) : Prop :=
  ∃ status rest, s.frames = .runUntil (some (s.processes i).pid) (some p) ::
      .wait (s.processes i).pid status :: rest ∧
    s'.frames = .waitDone (s.processes i).pid status (s.processes i).exitStatus :: rest

/-- What a step has to be to move the slot `i` on in its life. -/
def causes (s : Kernel M) (e : Event) (s' : Kernel M) (i : SlotId) : Causes where
  born := s.Creates s' i
  stopped := s.Stops e s' i
  reaped := e = .round ∧ (s.frames = [.runUntil none none] ∨ ∃ p, s.Delivers s' p i)

/-- Every step moves every slot at most one stage on in its life. -/
theorem Context.lifeStep {e : Event} (h : Context kas s own) (hstep : s.step e = some s')
    (i : SlotId) : LifeStep (s.causes e s' i) (s.processes i) (s'.processes i) := by
  have hstack := h.stack
  cases step_cases hstep with
  | kernelAlloc | kernelDealloc | spawnFailed | runUntil | waitReturn | compute | forkFull |
    forkFailed | execFailed | waitRefused | waiting => exact .refl _
  | spawned image argv cwd j img m hframes hslot hspawn =>
    refine .update fun hij => .born (hij ▸ ⟨?_, rfl, rfl, fun k hk => ?_⟩)
      (allocSlot_unused hslot) rfl
    · simp
    · exact update_of_ne hk _ _
  | forked p me j m pml4 top hring hme hslot hfork =>
    refine .update fun hij => .born (hij ▸ ⟨?_, rfl, rfl, fun k hk => ?_⟩)
      (allocSlot_unused hslot) rfl
    · simp [forkedChild]
    · exact update_of_ne hk _ _
  | roundGone pid outer rest s' hframes hpid hreturn =>
    rw [runUntilReturn_processes hreturn]
    exact .refl _
  | roundReaped pid outer rest target s' hframes hpid hzombie hreturn =>
    rw [hframes] at hstack
    cases hstack with
    | wait t callerAs outer' _ status rest' hrest =>
      rw [runUntilReturn_processes hreturn]
      refine reap_lifeStep hzombie fun hij => ⟨rfl, Or.inr ⟨t, status,
        .dispatch t callerAs outer' :: rest', ?_, ?_⟩⟩
      · rw [hij, (byPid_spec hpid).2, hframes]
      · rw [hij, (byPid_spec hpid).2, ← some.inj hreturn]
  | roundNested pid outer rest target hframes hpid hzombie => exact s.pickAndDispatch_lifeStep i
  | roundLast outer rest s₁ s' hframes hreaps hunused hreturn =>
    rw [hframes] at hstack
    cases hstack with
    | top =>
      have hcause : (s.causes .round s' i).reaped := ⟨rfl, Or.inl hframes⟩
      rw [runUntilReturn_processes hreturn]
      exact hreaps.lifeStep hcause i
  | roundTop outer rest s₁ hframes hreaps hzombie =>
    rw [hframes] at hstack
    cases hstack with
    | top =>
      rcases hreaps.slot i with heq | ⟨hz, hu⟩
      · exact heq ▸ s₁.pickAndDispatch_lifeStep i
      · obtain ⟨-, hstate, -⟩ := (s₁.pickAndDispatch_slot i).resolve_right
          (by rintro ⟨hr, -⟩; rw [hu] at hr; cases hr)
        exact .reaped ⟨rfl, Or.inl hframes⟩ hz (hstate.trans hu)
  | orphan u p s' hring hcurrent =>
    rw [h.current_eq p (executing_of_inRing3 hring)] at hcurrent
    cases hcurrent
  | quiet u p s' hu hring hquiet =>
    exact .same (.of_sameUpToFiles ((userStep_quiet hu hquiet).2 i))
  | execed image argv p me img m s' hring hme hexec hreturn =>
    obtain rfl := h.me_eq hring hme
    exact (LifeStep.update (q := s.execedProcess me img) fun _ =>
      .suspended (h.ring3_running hring) ⟨rfl, rfl⟩ rfl).trans_same
      (returnToKernel_sameLife hreturn i)
  | suspended u p me s' hu hring hme hreturn =>
    obtain rfl := h.me_eq hring hme
    exact (LifeStep.update (q := s.suspendedProcess me) fun _ =>
      .suspended (h.ring3_running hring) ⟨rfl, rfl⟩ rfl).trans_same
      (returnToKernel_sameLife hreturn i)
  | stopped u p me code s' hu hring hme hreturn =>
    obtain rfl := h.me_eq hring hme
    rw [terminate_eq] at hreturn
    obtain ⟨callerAs, outer, w, rest, hs, -⟩ := h.frames_returnToKernel hring hreturn rfl rfl
      (by simp [terminatedProcess])
    refine (LifeStep.update (q := s.terminatedProcess me code) fun heq =>
      .stopped ?_ (h.ring3_running hring) ⟨rfl, rfl⟩ rfl).trans_same
      (returnToKernel_sameLife hreturn i)
    rw [heq]
    exact ⟨hring, ⟨u, rfl, hu⟩, callerAs, outer, hs⟩

end Runs

end Kernel

/-! ### The registers of each process, along a run -/

/-- The kernel together with the registers each process should see. -/
def trackedSystem (M : Type) [MemoryOps M] (kas : AddrSpace) :
    TransitionSystem (Kernel M × (SlotId → FpuState)) Event where
  init x := (kernelSystem M kas).init x.1
  step x e := (x.1.step e).map fun s' => (s', x.1.ownFpuAfter x.2 e)

section Runs

variable {M : Type} {kas : AddrSpace}

theorem Kernel.Context.boot (m : M) (kas : AddrSpace) (root : ℕ) (own : SlotId → FpuState) :
    Kernel.Context kas (Kernel.boot m kas root) own := by
  refine ⟨.idle, rfl, rfl, by rintro p ⟨⟩, by rintro p ⟨⟩, fun _ => rfl, ?_, nodup_nil,
    by rintro p ⟨⟩, ?_⟩
  · intro i
    simp [Kernel.boot, Process.empty, activeDispatches]
  · rintro i (hlive | hlive) <;> cases hlive

variable [MemoryOps M]

theorem Kernel.Context.of_reachable {guard : Kernel M × (SlotId → FpuState) → Event → Prop}
    {x : Kernel M × (SlotId → FpuState)} (h : (trackedSystem M kas).Reachable guard x) :
    Kernel.Context kas x.1 x.2 := by
  refine h.invariant (P := fun x => Kernel.Context kas x.1 x.2) ?_ ?_
  · rintro ⟨s, own⟩ ⟨m, root, rfl⟩
    exact Kernel.Context.boot m kas root own
  · rintro x e x' - hctx - hstep
    obtain ⟨s', hs', rfl⟩ := map_eq_some_iff.mp hstep
    exact hctx.step hs'

theorem Kernel.Context.exists_of_reachable {guard : Kernel M → Event → Prop} {s : Kernel M}
    (h : (kernelSystem M kas).Reachable guard s) : ∃ own, Kernel.Context kas s own := by
  refine h.invariant (P := fun s => ∃ own, Kernel.Context kas s own) ?_ ?_
  · rintro s ⟨m, root, rfl⟩
    exact ⟨fun _ => fpuStateInit, Kernel.Context.boot m kas root _⟩
  · rintro s e s' - ⟨own, hctx⟩ - hstep
    exact ⟨_, hctx.step hstep⟩

/-- In every run, whenever a process executes — in ring 3, or in a system call outside any nested
scheduler loop — all records of who is running name that process and the registers are its own.
The running processes are those with an active dispatch, each with one, and a dispatch that ends
leaves its process runnable or a zombie. -/
theorem dispatch_context_integrity (x : Kernel M × (SlotId → FpuState))
    (h : (trackedSystem M kas).Reachable TransitionSystem.anyStep x) :
    (∀ p, x.1.executing = some p →
      x.1.current = some p ∧ x.1.currentTask = some p ∧
      x.1.cr3 = (x.1.processes p).task.aspace ∧
      x.1.rsp0 = (x.1.processes p).task.kernelStackTop ∧ x.1.fpu = x.2 p) ∧
    (∀ i, (x.1.processes i).state = .running ↔ i ∈ activeDispatches x.1.frames) ∧
    (activeDispatches x.1.frames).Nodup ∧
    ∀ e x', (trackedSystem M kas).step x e = some x' → ∀ i ∈ activeDispatches x.1.frames,
      i ∉ activeDispatches x'.1.frames →
        (x'.1.processes i).state = .runnable ∨ (x'.1.processes i).state = .zombie := by
  have hctx := Kernel.Context.of_reachable h
  refine ⟨fun p hp => ?_, hctx.running_iff, hctx.nodup, fun e x' hstep i hi hi' => ?_⟩
  · have howner := Kernel.owner_of_executing hp
    refine ⟨hctx.current_eq p hp, ?_, ?_, hctx.rsp0_eq p hp, hctx.fpu_eq p howner⟩
    · rw [hctx.currentTask_eq, howner]
    · rw [hctx.cr3_eq, howner]
      rfl
  · obtain ⟨s', hs', rfl⟩ := map_eq_some_iff.mp hstep
    have hunused := (hctx.lifeStep hs' i).ne_unused (Or.inr ((hctx.running_iff i).mpr hi))
    have hrunning := mt ((hctx.step hs').running_iff i).mp hi'
    revert hunused hrunning
    cases (s'.processes i).state <;> simp

/-- A forked child that runs while its parent waits for it. -/
theorem dispatch_context_integrity_waiting :
    ∃ x : Kernel EndlessMemory × (SlotId → FpuState), x.1.executing = some 1 ∧
      activeDispatches x.1.frames = [1, 0] ∧ x.1.current = some 1 ∧ x.1.currentTask = some 1 ∧
      x.1.cr3 = (x.1.processes 1).task.aspace ∧ x.1.fpu = x.2 1 := by
  obtain ⟨x, hreach, hexec, hactive⟩ := (trackedSystem EndlessMemory ⟨0, 0⟩).exists_of_run
    (P := fun x => x.1.executing = some 1 ∧ activeDispatches x.1.frames = [1, 0])
    (s := (Kernel.boot ⟨1⟩ ⟨0, 0⟩ 0, fun _ => fpuStateInit)) ⟨⟨1⟩, 0, rfl⟩
    [.spawn [] [] none, .runUntil, .round, .user .fork, .user (.wait 2 0), .round] (by decide)
  obtain ⟨hcurrent, htask, hcr3, -, hfpu⟩ := (dispatch_context_integrity x hreach).1 1 hexec
  exact ⟨x, hexec, hactive, hcurrent, htask, hcr3, hfpu⟩

end Runs

end AnssOS
