import AnssOS.Exec.Context
import AnssOS.Exec.Opening
import AnssOS.Fs.Contents

/-!
# What processes hold of the tree

A process holds pointers into the tree of files: its working directory, and a node for every file it
has open.  This module says where these pointers can come from in a step of the machine, and what a
step does to the tree, so that the invariants of the holders need not look at the steps again.

### Outline

* `Kernel.Context.inherits`: a step of the kernel makes no new pointer, other than the working
  directory of a program it launches;
* `Os.fileCall_cases`, `Os.shellStep_cases`: everything that a system call on files and a command of
  the kernel shell can do.
-/

namespace AnssOS

open List Option Function

/-! ### Steps of the kernel -/

/-- What the process `q` holds of the tree, the live process `p` held before. -/
structure Process.Inherits (p q : Process) : Prop where
  live : p.Live
  cwd : q.task.cwd = p.task.cwd
  files : ∀ j v o w, q.task.openFiles j = .file v o w → p.task.openFiles j = .file v o w

@[simp] theorem Usertask.openFiles_setFile (t : Usertask) (j : Fin maxOpenFiles) (f : OpenFile) :
    (t.setFile j f).openFiles = Function.update t.openFiles j f := rfl

namespace Kernel

variable {M : Type}

/-- The process has no file open that it had not before. -/
def KeepsFiles (s s' : Kernel M) : Prop :=
  ∀ i j v o w, (s'.processes i).task.openFiles j = .file v o w →
    (s.processes i).task.openFiles j = .file v o w

theorem KeepsFiles.of_eq {s s' : Kernel M} (h : s'.processes = s.processes) : s.KeepsFiles s' := by
  intro i j v o w hj
  rwa [h] at hj

theorem KeepsFiles.trans {s s' s'' : Kernel M} (h : s.KeepsFiles s') (h' : s'.KeepsFiles s'') :
    s.KeepsFiles s'' :=
  fun i j v o w hj => h i j v o w (h' i j v o w hj)

/-- Files of one task are closed, or replaced by pipes. -/
theorem keepsFiles_setTask (s : Kernel M) (t : SlotId) (task : Usertask)
    (h : ∀ j v o w, task.openFiles j = .file v o w →
      (s.processes t).task.openFiles j = .file v o w) : s.KeepsFiles (s.setTask t task) := by
  intro i j v o w hj
  by_cases hi : i = t
  · subst hi
    rw [setTask, setProcess_processes, update_self] at hj
    exact h j v o w hj
  · rwa [setTask, setProcess_processes, update_of_ne hi] at hj

theorem keepsFiles_setOpenFile (s : Kernel M) (t : SlotId) (k : Fin maxOpenFiles) {f : OpenFile}
    (hf : ∀ v o w, f ≠ .file v o w) : s.KeepsFiles (s.setOpenFile t k f) := by
  refine s.keepsFiles_setTask t _ fun j v o w hj => ?_
  by_cases hjk : j = k
  · subst hjk
    rw [Usertask.openFiles_setFile, update_self] at hj
    exact absurd hj (hf v o w)
  · rwa [Usertask.openFiles_setFile, update_of_ne hjk] at hj

variable [MemoryOps M]

theorem keepsFiles_brkLoop (t : SlotId) (newEnd n : ℕ) (s : Kernel M) :
    s.KeepsFiles (brkLoop t newEnd n s).2 := by
  induction n generalizing s with
  | zero => exact .of_eq rfl
  | succ n ih =>
    unfold brkLoop
    dsimp only
    split
    · split
      · exact .of_eq rfl
      · refine KeepsFiles.trans ?_ (ih _)
        exact KeepsFiles.trans (.of_eq rfl) (keepsFiles_setTask _ t _ fun j v o w hj => hj)
    · exact .of_eq rfl

/-- The quiet events of ring 3 open no file. -/
theorem keepsFiles_quiet {s s' : Kernel M} {u : UserEvent} (hu : u.Quiet)
    (h : s.userStep u = some s') : s.KeepsFiles s' := by
  cases u with
  | store addr bytes => exact some.inj h ▸ .of_eq rfl
  | pipe pipefd =>
    obtain rfl := some.inj h
    unfold sysPipe
    repeat' split
    · exact .of_eq rfl
    · exact (keepsFiles_setOpenFile { s with pipes := s.pipes.create } _ _ (by simp)).trans
        (keepsFiles_setOpenFile _ _ _ (by simp))
    · exact .of_eq rfl
    · exact .of_eq rfl
  | close fd =>
    obtain rfl := some.inj h
    unfold sysClose
    split
    · exact .of_eq rfl
    · exact keepsFiles_setOpenFile { s with pipes := _ } _ _ (by simp)
  | useAsStdio a b =>
    obtain rfl := some.inj h
    unfold sysUseAsStdio
    split
    · split
      · refine KeepsFiles.trans ?_ (keepsFiles_setOpenFile _ _ _ (by simp))
        refine KeepsFiles.trans ?_ (keepsFiles_setOpenFile _ _ _ (by simp))
        exact s.keepsFiles_setTask _ _ fun j v o w hj => hj
      · exact .of_eq rfl
    · exact .of_eq rfl
  | write fd data =>
    obtain rfl := some.inj h
    unfold sysWritePipe
    dsimp only
    repeat' split
    all_goals exact .of_eq rfl
  | read fd len =>
    obtain rfl := some.inj h
    unfold sysReadPipe
    dsimp only
    repeat' split
    all_goals exact .of_eq rfl
  | brk newEnd =>
    obtain rfl := some.inj h
    unfold sysBrk
    dsimp only
    repeat' split
    all_goals first
      | exact .of_eq rfl
      | exact keepsFiles_brkLoop _ _ _ s
  | compute | fork | execve | wait | schedYield | exit | crash | tick => exact hu.elim

end Kernel

namespace Process

/-- The two processes hold the same of the tree. -/
def SameHoldings (p q : Process) : Prop :=
  q.task.cwd = p.task.cwd ∧ q.task.openFiles = p.task.openFiles

variable {p q r : Process}

theorem Inherits.of_same (h : p.Live) (hsame : p.SameHoldings q) : p.Inherits q :=
  ⟨h, hsame.1, fun _ _ _ _ hj => by rwa [hsame.2] at hj⟩

theorem SameHoldings.trans (h : p.SameHoldings q) (h' : q.SameHoldings r) : p.SameHoldings r :=
  ⟨h'.1.trans h.1, h'.2.trans h.2⟩

theorem SameLife.live_iff (h : p.SameLife q) : q.Live ↔ p.Live := by
  rw [Live, Live, h.2.1]

end Process

namespace Kernel

variable {M : Type} {s s' : Kernel M}

theorem parkedProcess_sameHoldings (s : Kernel M) (t : Option SlotId) (i : SlotId) :
    (s.processes i).SameHoldings (s.parkedProcess t i) := by
  unfold parkedProcess
  split <;> exact ⟨rfl, rfl⟩

theorem returnToKernel_sameHoldings (h : s.returnToKernel = some s') (i : SlotId) :
    (s.processes i).SameHoldings (s'.processes i) := by
  obtain ⟨t, callerAs, outer, rest, k, -, rfl⟩ := returnToKernel_cases h
  rw [leaveDispatch_eq]
  exact s.parkedProcess_sameHoldings (some t) i

variable {kas : AddrSpace} {own : SlotId → FpuState}

/-- A process that leaves ring 3 keeps what it holds. -/
theorem Context.leave_inherits {s₁ : Kernel M} {q : Process} {me : SlotId} (h : Context kas s own)
    (hring : s.inRing3 = some me) (hprocs : s₁.processes = Function.update s.processes me q)
    (hq : (s.processes me).SameHoldings q) (hreturn : s₁.returnToKernel = some s')
    {i : SlotId} (hlive : (s'.processes i).Live) :
    (s.processes i).Inherits (s'.processes i) := by
  have hsame := returnToKernel_sameHoldings hreturn i
  have hlive₁ := (returnToKernel_sameLife hreturn i).live_iff.mp hlive
  rw [hprocs] at hsame hlive₁
  by_cases hi : i = me
  · subst hi
    rw [update_self] at hsame
    exact .of_same (Or.inr (h.ring3_running hring)) (hq.trans hsame)
  · rw [update_of_ne hi] at hsame hlive₁
    exact .of_same hlive₁ hsame

variable [MemoryOps M]

theorem pickAndDispatch_sameHoldings (s : Kernel M) (i : SlotId) :
    (s.processes i).SameHoldings (s.pickAndDispatch.processes i) := by
  rcases s.pickAndDispatch_cases with heq | ⟨next, m, -, heq⟩
  · rw [heq]
    exact ⟨rfl, rfl⟩
  · rw [heq]
    refine (s.parkedProcess_sameHoldings s.currentTask i).trans ?_
    change (s.parkedProcess s.currentTask i).SameHoldings (s.dispatchedProcess next i)
    unfold dispatchedProcess
    dsimp only
    split <;> exact ⟨rfl, rfl⟩

/-- A process that is live after a dispatch was live before. -/
theorem pickAndDispatch_inherits {i : SlotId} (hlive : (s.pickAndDispatch.processes i).Live) :
    (s.processes i).Inherits (s.pickAndDispatch.processes i) := by
  refine .of_same ?_ (s.pickAndDispatch_sameHoldings i)
  rcases s.pickAndDispatch_slot i with hsame | ⟨hrunnable, -⟩
  · exact hsame.live_iff.mp hlive
  · exact Or.inl hrunnable

/-- A live process holds what some live process held before the step, unless it has just been
launched: then it has no file open. -/
theorem Context.inherits {e : Event} (h : Context kas s own) (hstep : s.step e = some s')
    {i : SlotId} (hlive : (s'.processes i).Live) :
    (∃ i₀, (s.processes i₀).Inherits (s'.processes i)) ∨
      ∃ image argv cwd, e = .spawn image argv cwd ∧
        (s'.processes i).task.cwd = some (cwd.getD s.vfsRoot) ∧
        ∀ j, (s'.processes i).task.openFiles j = .free := by
  cases step_cases hstep with
  | kernelAlloc | kernelDealloc | spawnFailed | runUntil | waitReturn | compute | forkFull |
    forkFailed | execFailed | waitRefused | waiting =>
    exact Or.inl ⟨i, .of_same hlive ⟨rfl, rfl⟩⟩
  | spawned image argv cwd k img m hframes hslot hspawn =>
    by_cases hik : i = k
    · subst hik
      exact Or.inr ⟨image, argv, cwd, rfl, by simp [loadedTask], by simp [loadedTask, Usertask.empty]⟩
    · simp only [update_of_ne hik] at hlive ⊢
      exact Or.inl ⟨i, .of_same hlive ⟨rfl, rfl⟩⟩
  | roundGone pid outer rest s' hframes hpid hreturn =>
    rw [runUntilReturn_processes hreturn] at hlive ⊢
    exact Or.inl ⟨i, .of_same hlive ⟨rfl, rfl⟩⟩
  | roundReaped pid outer rest target s' hframes hpid hzombie hreturn =>
    rw [runUntilReturn_processes hreturn] at hlive ⊢
    by_cases hi : i = target
    · subst hi
      exact absurd (reap_processes_self s i) hlive.ne_unused
    · rw [reap_processes_ne s hi] at hlive ⊢
      exact Or.inl ⟨i, .of_same hlive ⟨rfl, rfl⟩⟩
  | roundNested pid outer rest target hframes hpid hzombie =>
    exact Or.inl ⟨i, pickAndDispatch_inherits hlive⟩
  | roundLast outer rest s₁ s' hframes hreaps hunused hreturn =>
    rw [runUntilReturn_processes hreturn] at hlive
    exact absurd (hunused i) hlive.ne_unused
  | roundTop outer rest s₁ hframes hreaps hzombie =>
    have hinherits := pickAndDispatch_inherits hlive
    rcases hreaps.slot i with heq | ⟨-, hunused⟩
    · rw [heq] at hinherits
      exact Or.inl ⟨i, hinherits⟩
    · exact absurd hunused hinherits.live.ne_unused
  | orphan u p s' hring hcurrent =>
    rw [h.current_eq p (executing_of_inRing3 hring)] at hcurrent
    cases hcurrent
  | quiet u p s' hu hring hquiet =>
    have hsame := (userStep_quiet hu hquiet).2 i
    refine Or.inl ⟨i, (Process.SameLife.of_sameUpToFiles hsame).live_iff.mp hlive, ?_,
      keepsFiles_quiet hu hquiet i⟩
    unfold Process.SameUpToFiles at hsame
    rw [hsame]
  | forked p me k m pml4 top hring hme hslot hfork =>
    by_cases hik : i = k
    · subst hik
      refine Or.inl ⟨me, .of_same (Or.inr ?_) (by simp [Process.SameHoldings, forkedChild])⟩
      rw [h.me_eq hring hme]
      exact h.ring3_running hring
    · simp only [update_of_ne hik] at hlive ⊢
      exact Or.inl ⟨i, .of_same hlive ⟨rfl, rfl⟩⟩
  | execed image argv p me img m s' hring hme hexec hreturn =>
    obtain rfl := h.me_eq hring hme
    exact Or.inl ⟨i, h.leave_inherits (q := s.execedProcess me img) hring rfl ⟨rfl, rfl⟩
      hreturn hlive⟩
  | suspended u p me s' hu hring hme hreturn =>
    obtain rfl := h.me_eq hring hme
    exact Or.inl ⟨i, h.leave_inherits (q := s.suspendedProcess me) hring rfl ⟨rfl, rfl⟩
      hreturn hlive⟩
  | stopped u p me code s' hu hring hme hreturn =>
    obtain rfl := h.me_eq hring hme
    rw [terminate_eq] at hreturn
    exact Or.inl ⟨i, h.leave_inherits (q := s.terminatedProcess me code) hring rfl ⟨rfl, rfl⟩
      hreturn hlive⟩

end Kernel

/-! ### System calls on files -/

namespace Vfs

/-- No file is longer than a buffer can be. -/
abbrev DataOk : Vfs → Prop := AllData fun data => data.length ≤ isizeMax

theorem dataOk_init : DataOk Vfs.init := by
  have hempty : DataOk ⟨fun _ => none, 0, 0⟩ := fun _ => Nat.zero_le _
  exact hempty.alloc (Nat.zero_le _) [] .dir

/-- The tree stays a tree, nothing is freed, and no file gets too long. -/
structure Gentle (fs fs' : Vfs) : Prop where
  tree : IsTree fs'
  keeps : Keeps fs fs'
  data : DataOk fs → DataOk fs'

variable {fs fs' : Vfs} {base : ℕ}

theorem Gentle.refl (h : IsTree fs) : Gentle fs fs := ⟨h, Keeps.refl fs, id⟩

theorem Gentle.trans {fs'' : Vfs} (h : Gentle fs fs') (h' : Gentle fs' fs'') : Gentle fs fs'' :=
  ⟨h'.tree, h.keeps.trans h'.keeps, h'.data ∘ h.data⟩

namespace IsTree

theorem gentle_createLeaf (h : IsTree fs) (hbase : base ∈ fs.live) (path : Text)
    (kind : VnodeType) : Gentle fs (fs.createLeaf base path kind).2 :=
  ⟨(h.createLeaf hbase path kind).1, (h.createLeaf hbase path kind).2,
    fun hdata => hdata.createLeaf (Nat.zero_le _) base path kind⟩

theorem gentle_copy (h : IsTree fs) (hbase : base ∈ fs.live) (src dest : Text) :
    Gentle fs (fs.copy base src dest).2 :=
  ⟨(h.copy hbase src dest).1, (h.copy hbase src dest).2,
    fun hdata => hdata.copy (Nat.zero_le _) base src dest⟩

theorem gentle_moveNode (h : IsTree fs) (hbase : base ∈ fs.live) (src dest : Text) :
    Gentle fs (fs.moveNode base src dest).2 :=
  ⟨(h.moveNode hbase src dest).1, (h.moveNode hbase src dest).2,
    fun hdata => hdata.moveNode base src dest⟩

theorem gentle_writeFile (h : IsTree fs) (hbase : base ∈ fs.live) (path : Text) (text : Slice) :
    Gentle fs (fs.writeFile base path text.1 false).2 :=
  ⟨(h.writeFile hbase path text.1 false).1, (h.writeFile hbase path text.1 false).2,
    fun hdata => hdata.writeFile (Nat.zero_le _) base path text.2⟩

/-- The content of a node is replaced. -/
theorem gentle_modify (h : IsTree fs) (node : ℕ) {data : List UInt8}
    (hdata : DataOk fs → data.length ≤ isizeMax) :
    Gentle fs (fs.modify node fun v => { v with data := data }) :=
  ⟨(h.modifyData node data).1, (h.modifyData node data).2, fun hok => hok.set node (hdata hok)⟩

end IsTree

end Vfs

namespace Os

open Vfs

variable {M : Type} {s s' : Os M} {t : SlotId} {c : FileCall}

/-- Everything that a system call on files can do. -/
inductive CallCase (s : Os M) (t : SlotId) : FileCall → Os M → Prop
  /-- The tree changes, and the task stays as it is. -/
  | tree (c fs) (h : s.fs.Gentle fs) : CallCase s t c { s with fs := fs }
  /-- A descriptor is opened. -/
  | opened (c fs node j w) (h : s.fs.Gentle fs) (hnode : node ∈ fs.live)
      (hw : fs.isDir node = true → w = false) :
      CallCase s t c
        (s.withTask t fs ((s.kernel.processes t).task.setFile j (.file node 0 w)))
  /-- A descriptor is used, and its offset moves. -/
  | used (c fs j v o w o') (h : s.fs.Gentle fs)
      (hj : (s.kernel.processes t).task.openFiles j = .file v o w)
      (ho : s.fs.isDir v = false → s.fs.DataOk → o ≤ isizeMax → o' ≤ isizeMax) :
      CallCase s t c (s.withTask t fs ((s.kernel.processes t).task.setFile j (.file v o' w)))
  /-- The working directory changes. -/
  | entered (c dir) (hdir : s.fs.isDir dir = true) :
      CallCase s t c (s.withTask t s.fs { (s.kernel.processes t).task with cwd := some dir })
  /-- A node is removed in which no process works. -/
  | removed (path node)
      (hnode : s.fs.resolve ((s.kernel.processes t).task.workingDir s.fs) path = some node)
      (hwithin : s.cwdWithin node = false) :
      CallCase s t (.unlink (some path)) { s with
        fs := (s.fs.remove ((s.kernel.processes t).task.workingDir s.fs) path
          ((s.kernel.processes t).task.workingDir s.fs)).2 }

theorem withTask_self (s : Os M) (t : SlotId) (fs : Vfs) :
    s.withTask t fs (s.kernel.processes t).task = { s with fs := fs } := by
  simp [withTask, Kernel.setTask, Kernel.setProcess]

section

variable (h : s.fs.IsTree)

include h

/-- A call that does nothing. -/
theorem CallCase.refused (c : FileCall) : CallCase s t c s :=
  .tree c s.fs (.refl h)

theorem CallCase.refused_withTask (c : FileCall) :
    CallCase s t c (s.withTask t s.fs (s.kernel.processes t).task) := by
  rw [withTask_self]
  exact .refused h c

theorem open_case (hcwd : (s.kernel.processes t).task.workingDir s.fs ∈ s.fs.live)
    (path : Option Text) (flags : UInt64) :
    CallCase s t c (s.withTask t (Usertask.sysOpen s.fs (s.kernel.processes t).task path flags).2.1
      (Usertask.sysOpen s.fs (s.kernel.processes t).task path flags).2.2) := by
  -- the node is known, in a tree that has come about gently
  have hnode : ∀ fs node, s.fs.Gentle fs → node ∈ fs.live →
      CallCase s t c (s.withTask t
        (Usertask.openNode fs (s.kernel.processes t).task node flags).2.1
        (Usertask.openNode fs (s.kernel.processes t).task node flags).2.2) := by
    intro fs node hgentle hlive
    obtain ⟨fs', hfs', hresult⟩ :=
      Usertask.openNode_cases fs (s.kernel.processes t).task node flags
    have hgentle' : fs.Gentle fs' := by
      rcases hfs' with rfl | rfl
      · exact .refl hgentle.tree
      · exact hgentle.tree.gentle_modify node fun _ => Nat.zero_le _
    have hkept := hgentle'.keeps.kept node hlive id
    rcases hresult with heq | ⟨j, w, heq, hw⟩
    · rw [heq, withTask_self]
      exact .tree c fs' (hgentle.trans hgentle')
    · rw [heq]
      refine .opened c fs' node j w (hgentle.trans hgentle') hkept.1 ?_
      rw [hkept.2]
      exact hw
  cases path with
  | none =>
    rw [Usertask.sysOpen, withTask_self]
    exact .refused h c
  | some path =>
    by_cases haccess : Usertask.accessOf flags ≠ oRdonly ∧ Usertask.accessOf flags ≠ oWronly
    · rw [Usertask.sysOpen, if_pos haccess, withTask_self]
      exact .refused h c
    rcases Usertask.sysOpen_cases h hcwd path haccess with
      ⟨-, -, heq⟩ | ⟨node, hres, heq⟩ | ⟨parent, leaf, -, hcreated, heq⟩
    · rw [heq, withTask_self]
      exact .refused h c
    · rw [heq]
      exact hnode s.fs node (.refl h) (h.resolve_live hcwd hres)
    · have hgentle := h.gentle_createLeaf hcwd path .file
      rw [show s.fs.createLeaf _ path .file = _ from hcreated] at hgentle
      rw [heq]
      refine hnode _ _ hgentle ?_
      rw [live_linkChild, live_alloc]
      exact Set.mem_insert _ _

theorem lseek_case (fd : ℕ) (offset : Int64) (whence : ℕ) :
    CallCase s t c (s.withTask t s.fs
      (Usertask.sysLseek s.fs (s.kernel.processes t).task fd offset whence).2) := by
  unfold Usertask.sysLseek
  split
  · exact .refused_withTask h c
  rename_i j _
  split
  · rename_i v o w hj
    dsimp only
    split
    · exact .refused_withTask h c
    · rename_i new hnew
      refine .used c s.fs j v o w _ (.refl h) hj fun _ _ _ => ?_
      obtain ⟨hsum, -⟩ := filter_eq_some_iff.mp hnew
      obtain ⟨base, -, hadd⟩ := bind_eq_some_iff.mp hsum
      unfold checkedAddI64 at hadd
      split at hadd
      · rename_i hrange
        obtain rfl := some.inj hadd
        have := hrange.2
        unfold isizeMax
        omega
      · cases hadd
  · exact .refused_withTask h c

theorem write_case (fd buf : ℕ) (data : List UInt8) {r : Option ℤ × Vfs × Usertask}
    (hr : Usertask.sysWrite s.fs (s.kernel.processes t).task fd buf data = .ok r) :
    CallCase s t c (s.withTask t r.2.1 r.2.2) := by
  unfold Usertask.sysWrite at hr
  split at hr
  · exact Except.ok.inj hr ▸ .refused_withTask h c
  rename_i j _
  split at hr
  · rename_i v o w hj
    split at hr
    · exact Except.ok.inj hr ▸ .refused_withTask h c
    dsimp only at hr
    split at hr
    · cases hr
    split at hr
    · cases hr
    rename_i hcap
    split at hr
    · cases hr
    obtain rfl := Except.ok.inj hr
    -- the file is no longer than before, or ends where the bytes end
    have hstop : s.fs.DataOk → o + data.length ≤ isizeMax := by
      intro hok
      have := hok v
      omega
    refine .used c _ j v o w _ (h.gentle_modify v fun hok => ?_) hj fun _ hok _ => hstop hok
    have := hok v
    have := hstop hok
    simp only [length_append, length_take, length_drop, length_replicate]
    omega
  · exact Except.ok.inj hr ▸ .refused_withTask h c

theorem read_case (fd buf len : ℕ) {r : Option ℤ × List UInt8 × Usertask}
    (hr : Usertask.sysRead s.fs (s.kernel.processes t).task fd buf len = .ok r) :
    CallCase s t c (s.withTask t s.fs r.2.2) := by
  unfold Usertask.sysRead at hr
  split at hr
  · exact Except.ok.inj hr ▸ .refused_withTask h c
  rename_i j _
  split at hr
  · rename_i v o w hj
    split at hr
    · exact Except.ok.inj hr ▸ .refused_withTask h c
    dsimp only at hr
    split at hr
    · cases hr
    obtain rfl := Except.ok.inj hr
    refine .used c s.fs j v o w _ (.refl h) hj fun _ hok ho => ?_
    have := hok v
    simp only [length_drop]
    omega
  · exact Except.ok.inj hr ▸ .refused_withTask h c

theorem getdents_case (fd out : ℕ) :
    CallCase s t c (s.withTask t s.fs
      (Usertask.sysGetdents s.fs (s.kernel.processes t).task fd out).2.2) := by
  unfold Usertask.sysGetdents
  split
  · exact .refused_withTask h c
  rename_i j _
  split
  · rename_i v o w hj
    split
    · exact .refused_withTask h c
    · rename_i hdir
      split
      · exact .refused_withTask h c
      · refine .used c s.fs j v o w _ (.refl h) hj fun hfile _ _ => ?_
        simp [hfile] at hdir
  · exact .refused_withTask h c

theorem chdir_case (path : Option Text) :
    CallCase s t c (s.withTask t s.fs
      (Usertask.sysChdir s.fs (s.kernel.processes t).task path).2) := by
  unfold Usertask.sysChdir
  split
  · exact .refused_withTask h c
  · split
    · rename_i hdir
      exact .entered c _ hdir
    · exact .refused_withTask h c

/-- The list of cases is complete, for a task that works in a node of the tree. -/
theorem fileCall_cases (hcwd : (s.kernel.processes t).task.workingDir s.fs ∈ s.fs.live)
    (hcall : s.fileCall t c = .ok s') : CallCase s t c s' := by
  cases c with
  | «open» path flags => exact Except.ok.inj hcall ▸ open_case h hcwd path flags
  | lseek fd offset whence => exact Except.ok.inj hcall ▸ lseek_case h fd offset whence
  | write fd buf data =>
    rw [fileCall] at hcall
    cases hr : Usertask.sysWrite s.fs (s.kernel.processes t).task fd buf data with
    | error f =>
      rw [hr] at hcall
      cases hcall
    | ok r =>
      rw [hr] at hcall
      exact Except.ok.inj hcall ▸ write_case h fd buf data hr
  | read fd buf len =>
    rw [fileCall] at hcall
    cases hr : Usertask.sysRead s.fs (s.kernel.processes t).task fd buf len with
    | error f =>
      rw [hr] at hcall
      cases hcall
    | ok r =>
      rw [hr] at hcall
      exact Except.ok.inj hcall ▸ read_case h fd buf len hr
  | getdents fd out => exact Except.ok.inj hcall ▸ getdents_case h fd out
  | chdir path => exact Except.ok.inj hcall ▸ chdir_case h path
  | mkdir path =>
    cases path with
    | none => exact Except.ok.inj hcall ▸ .refused h _
    | some path => exact Except.ok.inj hcall ▸ .tree _ _ (h.gentle_createLeaf hcwd path .dir)
  | unlink path =>
    cases path with
    | none => exact Except.ok.inj hcall ▸ .refused h _
    | some path =>
      unfold fileCall at hcall
      dsimp only at hcall
      split at hcall
      · exact Except.ok.inj hcall ▸ .refused h _
      · rename_i node hnode
        split at hcall
        · exact Except.ok.inj hcall ▸ .refused h _
        · rename_i hwithin
          exact Except.ok.inj hcall ▸ .removed path node hnode (by simpa using hwithin)
  | rename src dest =>
    unfold fileCall at hcall
    dsimp only at hcall
    split at hcall
    · exact Except.ok.inj hcall ▸ .tree _ _ (h.gentle_moveNode hcwd _ _)
    · exact Except.ok.inj hcall ▸ .refused h _
  | copy src dest =>
    unfold fileCall at hcall
    dsimp only at hcall
    split at hcall
    · exact Except.ok.inj hcall ▸ .tree _ _ (h.gentle_copy hcwd _ _)
    · exact Except.ok.inj hcall ▸ .refused h _

end

/-- Everything that a command of the kernel shell can do. -/
inductive ShellCase (s : Os M) : ShellCommand → Os M → Prop
  | tree (c fs) (h : s.fs.Gentle fs) : ShellCase s c { s with fs := fs }
  | entered (c dir) (hdir : s.fs.isDir dir = true) : ShellCase s c { s with shellCwd := dir }
  | removed (path) :
      ShellCase s (.delete path) { s with fs := (s.fs.remove s.shellCwd path s.shellCwd).2 }

theorem shellStep_cases (h : s.fs.IsTree) (hcwd : s.shellCwd ∈ s.fs.live) (c : ShellCommand) :
    ShellCase s c (s.shellStep c) := by
  cases c with
  | create kind path => exact .tree _ _ (h.gentle_createLeaf hcwd path kind)
  | delete path => exact .removed path
  | copy src dest => exact .tree _ _ (h.gentle_copy hcwd src dest)
  | move src dest => exact .tree _ _ (h.gentle_moveNode hcwd src dest)
  | write path text => exact .tree _ _ (h.gentle_writeFile hcwd path text)
  | cd path =>
    rw [shellStep]
    split
    · exact .entered _ _ h.root_dir
    · split
      · exact .tree _ _ (.refl h)
      · split
        · rename_i hdir
          exact .entered _ _ hdir
        · exact .tree _ _ (.refl h)

end Os

end AnssOS
