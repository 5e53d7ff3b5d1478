import AnssOS.Exec.Holdings

/-!
# Dangling pointers into the tree

`unlink` frees a node with all that is below it.  It is refused if a process works in the node or
below it; but it asks neither which files are open, nor where the kernel shell stands.  So an open
file can be freed, and the working directory of the kernel shell, which the programs it starts next
will work in.

If no removal takes away the working directory of the kernel shell, then no working directory
dangles; if moreover none takes away an open file, then no open file does.

### Outline

* `Settled`, the invariant of the working directories, and `OpenFilesLive`;
* `working_directories_live`, `open_files_live`: nothing dangles in runs that spare what is held;
* runs after which something does.
-/

namespace AnssOS

open List Option Function

open Vfs

/-! ### Removals -/

namespace Vfs

variable {fs : Vfs} {base : ℕ}

/-- A removal keeps the nodes that are not below the one it removes, and those that `cwd` is
below. -/
theorem IsTree.remove_kept (h : IsTree fs) (hbase : base ∈ fs.live) (path : Text) (cwd : ℕ) :
    IsTree (fs.remove base path cwd).2 ∧ ∀ q ∈ fs.live,
      q = cwd ∨ (∀ node, fs.resolve base path = some node → fs.isAncestorOrSelf node q = false) →
      q ∈ (fs.remove base path cwd).2.live ∧
        (fs.remove base path cwd).2.isDir q = fs.isDir q := by
  rcases h.remove_cases hbase path cwd with
    heq | ⟨node, parent, hres, hnode, -, hcwd, hup, heq⟩
  · rw [heq]
    exact ⟨h, fun q hq _ => ⟨hq, rfl⟩⟩
  · rw [heq]
    obtain ⟨htree, hevolves⟩ := h.cut hnode hup
    refine ⟨htree, fun q hq hspared => hevolves.kept q hq fun hanc => ?_⟩
    have hbelow := (h.grove.isAncestorOrSelf_iff hq).mpr hanc
    rcases hspared with rfl | hspared
    · rw [hcwd] at hbelow
      cases hbelow
    · rw [hspared node hres] at hbelow
      cases hbelow

theorem IsTree.remove_spares (h : IsTree fs) (hbase : base ∈ fs.live) {path : Text} {node : ℕ}
    (hnode : fs.resolve base path = some node) (cwd : ℕ) {q : ℕ} (hq : q ∈ fs.live)
    (hnot : fs.isAncestorOrSelf node q = false) :
    q ∈ (fs.remove base path cwd).2.live ∧ (fs.remove base path cwd).2.isDir q = fs.isDir q := by
  refine (h.remove_kept hbase path cwd).2 q hq (Or.inr fun node' hnode' => ?_)
  rw [hnode] at hnode'
  exact some.inj hnode' ▸ hnot

end Vfs

namespace Os

variable {M : Type} {s s' : Os M} {kas : AddrSpace}

/-! ### Properties of all live tasks -/

/-- A property of the tasks of all live processes, which may depend on the tree. -/
def EveryTask (Q : Vfs → Usertask → Prop) (s : Os M) : Prop :=
  ∀ i, (s.kernel.processes i).Live → Q s.fs (s.kernel.processes i).task

variable {Q : Vfs → Usertask → Prop} {t : SlotId} {own : SlotId → FpuState}

theorem EveryTask.withTask {fs : Vfs} {task : Usertask}
    (h : ∀ i, (s.kernel.processes i).Live → Q fs (s.kernel.processes i).task)
    (ht : Q fs task) : EveryTask Q (s.withTask t fs task) := by
  intro i hlive
  simp only [Os.withTask, Kernel.setTask, Kernel.setProcess_processes] at hlive ⊢
  by_cases hi : i = t
  · subst hi
    rw [update_self]
    exact ht
  · rw [update_of_ne hi] at hlive ⊢
    exact h i hlive

theorem EveryTask.of_unused
    (h : ∀ i, (s.kernel.processes i).state = .unused) : EveryTask Q s :=
  fun i hi => absurd (h i) hi.ne_unused

theorem shellStep_kernel (s : Os M) (c : ShellCommand) : (s.shellStep c).kernel = s.kernel := by
  unfold shellStep
  repeat' split
  all_goals rfl

/-- A property that is inherited, and that a program has when it is launched, stays one. -/
theorem EveryTask.kernel [MemoryOps M] 
    {e : Event} {k : Kernel M} (h : EveryTask Q s) (hctx : Kernel.Context kas s.kernel own)
    (hstep : s.kernel.step e = some k)
    (hinherit : ∀ p q : Process, p.Inherits q → Q s.fs p.task → Q s.fs q.task)
    (hnew : ∀ image argv cwd (task : Usertask), e = .spawn image argv cwd →
      task.cwd = some (cwd.getD s.kernel.vfsRoot) → (∀ j, task.openFiles j = .free) →
      Q s.fs task) : EveryTask Q { s with kernel := k } := by
  intro i hlive
  rcases hctx.inherits hstep hlive with ⟨i₀, hinherits⟩ | ⟨image, argv, cwd, he, hcwd, hfiles⟩
  · exact hinherit _ _ hinherits (h i₀ hinherits.live)
  · exact hnew image argv cwd _ he hcwd hfiles

/-! ### The steps of the machine -/

/-- The context of the kernel does not depend on what a task holds. -/
theorem context_withTask {fs : Vfs} {task : Usertask}
    (h : Kernel.Context kas s.kernel own)
    (ht : Kernel.KeepsDispatch (s.kernel.processes t)
      { s.kernel.processes t with task := task }) :
    Kernel.Context kas (s.withTask t fs task).kernel own := by
  refine h.of_keepsDispatch ⟨rfl, rfl, rfl, rfl, rfl, rfl⟩ fun i => ?_
  simp only [withTask, Kernel.setTask, Kernel.setProcess_processes]
  by_cases hi : i = t
  · subst hi
    rw [update_self]
    exact ht
  · rw [update_of_ne hi]
    exact ⟨rfl, rfl, rfl, rfl, rfl⟩

/-- The task that makes a system call belongs to a live process. -/
theorem live_of_call (h : Kernel.Context kas s.kernel own)
    (ht : s.kernel.currentTask = some t) : (s.kernel.processes t).Live := by
  refine Or.inr (h.owner_running ?_)
  rw [← h.currentTask_eq]
  exact ht

variable [MemoryOps M]

/-- What a step of the machine is. -/
inductive StepCase (s : Os M) : OsEvent → Os M → Prop
  | kernel (e k) (hstep : s.kernel.step e = some k)
      (hspawn : ∀ image argv cwd, e = .spawn image argv cwd →
        cwd = some s.fs.root ∨ cwd = some s.shellCwd) :
      StepCase s (.kernel e) { s with kernel := k }
  | call (c t) (s' : Os M) (ht : s.kernel.currentTask = some t)
      (hcall : s.fileCall t c = .ok s') : StepCase s (.call c) s'
  | shell (c) (hunused : ∀ i, (s.kernel.processes i).state = .unused) :
      StepCase s (.shell c) (s.shellStep c)

theorem step_cases {e : OsEvent} (h : s.step e = some s') : StepCase s e s' := by
  cases e with
  | kernel e =>
    unfold step at h
    split at h
    · rename_i image argv cwd heq
      obtain rfl := OsEvent.kernel.inj heq
      split at h
      · rename_i hcwd
        obtain ⟨k, hk, rfl⟩ := map_eq_some_iff.mp h
        refine .kernel _ k hk ?_
        rintro _ _ _ ⟨⟩
        exact hcwd
      · cases h
    · rename_i e' hne heq
      obtain rfl := OsEvent.kernel.inj heq
      obtain ⟨k, hk, rfl⟩ := map_eq_some_iff.mp h
      exact .kernel e k hk fun image argv cwd he => absurd he (hne image argv cwd)
    · rename_i heq
      cases heq
    · rename_i heq
      cases heq
  | call c =>
    rw [step] at h
    split at h
    · rename_i t _ ht
      cases hcall : s.fileCall t c with
      | error f =>
        rw [hcall] at h
        cases h
      | ok s₁ =>
        rw [hcall] at h
        obtain rfl := some.inj h
        exact .call c t s₁ ht hcall
    · cases h
  | shell c =>
    rw [step] at h
    split at h
    · rename_i hidle
      exact some.inj h ▸ .shell c hidle.2
    · cases h

/-! ### Working directories -/

/-- The task works in a directory of the tree. -/
def Works (fs : Vfs) (task : Usertask) : Prop :=
  ∃ dir, task.cwd = some dir ∧ fs.isDir dir = true

omit [MemoryOps M] in
theorem Works.workingDir {fs : Vfs} {task : Usertask} (h : Works fs task) :
    task.workingDir fs ∈ fs.live := by
  obtain ⟨dir, hdir, hisDir⟩ := h
  rw [Usertask.workingDir, hdir]
  exact mem_live_of_isDir hisDir

omit [MemoryOps M] in
/-- Nothing that is left alone stops being a directory. -/
theorem isDir_of_gentle {fs fs' : Vfs} (h : fs.Gentle fs') {p : ℕ} (hp : fs.isDir p = true) :
    fs'.isDir p = true :=
  (h.keeps.kept p (mem_live_of_isDir hp) id).2.trans hp

omit [MemoryOps M] in
theorem Works.of_gentle {fs fs' : Vfs} {task : Usertask} (hworks : Works fs task)
    (h : fs.Gentle fs') : Works fs' task := by
  obtain ⟨dir, hdir, hisDir⟩ := hworks
  exact ⟨dir, hdir, isDir_of_gentle h hisDir⟩

/-- The tree is one, the kernel's records agree, and everybody works in a directory of the tree. -/
structure Settled (kas : AddrSpace) (s : Os M) : Prop where
  tree : s.fs.IsTree
  context : ∃ own, Kernel.Context kas s.kernel own
  tasks : EveryTask Works s
  shell : s.fs.isDir s.shellCwd = true

/-- The node that a process asks to remove. -/
def unlinked (s : Os M) : OsEvent → Option ℕ
  | .call (.unlink (some path)) => s.kernel.currentTask.bind fun t =>
      s.fs.resolve ((s.kernel.processes t).task.workingDir s.fs) path
  | _ => none

/-- No process removes the working directory of the kernel shell, or a directory above it. -/
def SparesShell (s : Os M) (e : OsEvent) : Prop :=
  ∀ node, s.unlinked e = some node → s.fs.isAncestorOrSelf node s.shellCwd = false

omit [MemoryOps M] in
/-- What `cwd_within` says of one process. -/
theorem not_within {node dir : ℕ} {i : SlotId} (h : s.cwdWithin node = false)
    (hi : (s.kernel.processes i).Live) (hdir : (s.kernel.processes i).task.cwd = some dir) :
    s.fs.isAncestorOrSelf node dir = false := by
  unfold cwdWithin at h
  rw [List.any_eq_false] at h
  have := h i (mem_finRange i)
  simpa [hi.ne_unused, hdir] using this

omit [MemoryOps M] in
/-- A change of the tree that frees nothing. -/
theorem Settled.gentle {fs : Vfs} (h : Settled kas s) (hfs : s.fs.Gentle fs) :
    Settled kas { s with fs := fs } :=
  ⟨hfs.tree, h.context, fun i hi => (h.tasks i hi).of_gentle hfs, isDir_of_gentle hfs h.shell⟩

omit [MemoryOps M] in
/-- A change of the tree that frees nothing, and of one task that stays in a directory. -/
theorem Settled.withTask {fs : Vfs} {task : Usertask} {t : SlotId} (h : Settled kas s)
    (hfs : s.fs.Gentle fs) (hworks : Works fs task)
    (hkeep : Kernel.KeepsDispatch (s.kernel.processes t)
      { s.kernel.processes t with task := task }) : Settled kas (s.withTask t fs task) := by
  obtain ⟨own, hctx⟩ := h.context
  exact ⟨hfs.tree, ⟨own, context_withTask hctx hkeep⟩,
    .withTask (fun i hi => (h.tasks i hi).of_gentle hfs) hworks, isDir_of_gentle hfs h.shell⟩

omit [MemoryOps M] in
theorem Settled.call {c : FileCall} {t : SlotId} (h : Settled kas s)
    (hspares : SparesShell s (.call c)) (ht : s.kernel.currentTask = some t)
    (hcall : s.fileCall t c = .ok s') : Settled kas s' := by
  obtain ⟨own, hctx⟩ := h.context
  have hworks := h.tasks t (live_of_call hctx ht)
  cases fileCall_cases h.tree hworks.workingDir hcall with
  | tree c fs hfs => exact h.gentle hfs
  | opened c fs node j w hfs hnode hw =>
    exact h.withTask hfs (hworks.of_gentle hfs) ⟨rfl, rfl, rfl, rfl, rfl⟩
  | used c fs j v o w o' hfs hj ho =>
    exact h.withTask hfs (hworks.of_gentle hfs) ⟨rfl, rfl, rfl, rfl, rfl⟩
  | entered c dir hdir =>
    exact h.withTask (.refl h.tree) ⟨dir, rfl, hdir⟩ ⟨rfl, rfl, rfl, rfl, rfl⟩
  | removed path node hnode hwithin =>
    have hspared := fun {q} (hq : s.fs.isDir q = true) hnot => (h.tree.remove_spares
      hworks.workingDir hnode ((s.kernel.processes t).task.workingDir s.fs)
      (mem_live_of_isDir hq) hnot).2.trans hq
    refine ⟨(h.tree.remove_kept hworks.workingDir path _).1, h.context, fun i hi => ?_,
      hspared h.shell (hspares node ?_)⟩
    · obtain ⟨dir, hdir, hisDir⟩ := h.tasks i hi
      exact ⟨dir, hdir, hspared hisDir (not_within hwithin hi hdir)⟩
    · rw [unlinked, ht]
      exact hnode

omit [MemoryOps M] in
theorem Settled.shellCommand {c : ShellCommand} (h : Settled kas s)
    (hunused : ∀ i, (s.kernel.processes i).state = .unused) (hcase : ShellCase s c s') :
    Settled kas s' := by
  cases hcase with
  | tree c fs hfs => exact h.gentle hfs
  | entered c dir hdir => exact ⟨h.tree, h.context, h.tasks, hdir⟩
  | removed path =>
    obtain ⟨htree, hkept⟩ := h.tree.remove_kept (mem_live_of_isDir h.shell) path s.shellCwd
    refine ⟨htree, h.context, .of_unused hunused, ?_⟩
    exact (hkept _ (mem_live_of_isDir h.shell) (Or.inl rfl)).2.trans h.shell

/-- One step of the machine. -/
theorem Settled.step {e : OsEvent} (h : Settled kas s) (hspares : SparesShell s e)
    (hstep : s.step e = some s') : Settled kas s' := by
  obtain ⟨own, hctx⟩ := h.context
  cases step_cases hstep with
  | kernel e k hk hspawn =>
    refine ⟨h.tree, ⟨_, hctx.step hk⟩, h.tasks.kernel hctx hk ?_ ?_, h.shell⟩
    · rintro p q hinherits ⟨dir, hdir, hisDir⟩
      exact ⟨dir, hinherits.cwd.trans hdir, hisDir⟩
    · rintro image argv cwd task rfl hcwd -
      rcases hspawn image argv cwd rfl with rfl | rfl
      · exact ⟨_, hcwd, h.tree.root_dir⟩
      · exact ⟨_, hcwd, h.shell⟩
  | call c t s' ht hcall => exact h.call hspares ht hcall
  | shell c hunused =>
    exact h.shellCommand hunused (shellStep_cases h.tree (mem_live_of_isDir h.shell) c)

theorem Settled.of_reachable {guard : Os M → OsEvent → Prop}
    (hguard : ∀ s e, guard s e → SparesShell s e) (h : (osSystem M kas).Reachable guard s) :
    Settled kas s := by
  refine h.invariant (P := Settled kas) ?_ ?_
  · rintro s ⟨⟨m, hkernel⟩, htree, hshell, -⟩
    refine ⟨htree, ⟨fun _ => fpuStateInit, ?_⟩, fun i hi => ?_, ?_⟩
    · rw [hkernel]
      exact Kernel.Context.boot m kas _ _
    · rw [hkernel] at hi
      rcases hi with hi | hi <;> cases hi
    · rw [hshell]
      exact htree.root_dir
  · intro s e s' _ hsettled hg hstep
    exact hsettled.step (hguard s e hg) hstep

end Os

/-- **Working directories never dangle** in a run in which no process removes the working directory
of the kernel shell or a directory above it: every live process and the kernel shell work in
directories that can be reached from the root. -/
theorem working_directories_live {M : Type} [MemoryOps M] {kas : AddrSpace} {s : Os M}
    (h : (osSystem M kas).Reachable Os.SparesShell s) :
    (∀ i, (s.kernel.processes i).Live → ∃ dir, (s.kernel.processes i).task.cwd = some dir ∧
      s.fs.isDir dir = true ∧ s.fs.links.Ancestor s.fs.root dir) ∧
    s.fs.isDir s.shellCwd = true ∧ s.fs.links.Ancestor s.fs.root s.shellCwd := by
  have hsettled := Os.Settled.of_reachable (fun _ _ hspares => hspares) h
  refine ⟨fun i hi => ?_, hsettled.shell, ?_⟩
  · obtain ⟨dir, hdir, hisDir⟩ := hsettled.tasks i hi
    exact ⟨dir, hdir, hisDir, hsettled.tree.ancestor_root (mem_live_of_isDir hisDir)⟩
  · exact hsettled.tree.ancestor_root (mem_live_of_isDir hsettled.shell)

/-- The machine right after the start, with an empty tree. -/
def Os.start : Os EndlessMemory := ⟨Kernel.boot ⟨1⟩ ⟨0, 0⟩ 0, Vfs.init, 0⟩

theorem Os.start_init : (osSystem EndlessMemory ⟨0, 0⟩).init Os.start :=
  ⟨⟨_, rfl⟩, isTree_init, rfl, dataOk_init⟩

/-- The kernel shell makes a directory, goes there and runs a program. -/
def Os.launch : List OsEvent :=
  [.shell (.create .dir ['d']), .shell (.cd ['d']), .kernel (.spawn [] [] (some 1)),
    .kernel .runUntil, .kernel .round]

/-- A program that runs in the directory of the kernel shell. -/
theorem working_directories_live_of_launch : ∃ s : Os EndlessMemory,
    (s.kernel.processes 0).Live ∧ s.shellCwd = 1 ∧
    (∃ dir, (s.kernel.processes 0).task.cwd = some dir ∧ s.fs.isDir dir = true ∧
      s.fs.links.Ancestor s.fs.root dir) ∧ s.fs.links.Ancestor s.fs.root s.shellCwd := by
  obtain ⟨s, hreach, hlive, hshell⟩ := TransitionSystem.Reachable.exists_of_run
    (T := osSystem EndlessMemory ⟨0, 0⟩) Os.SparesShell
    (P := fun s => (s.kernel.processes 0).Live ∧ s.shellCwd = 1) Os.start_init Os.launch
    (by simp [Os.launch, Os.SparesShell, Os.unlinked]) (by decide +kernel)
  obtain ⟨htasks, -, hroot⟩ := working_directories_live hreach
  exact ⟨s, hlive, hshell, htasks 0 hlive, hroot⟩

/-- The program removes the directory that the kernel shell is in, and exits.  The next program is
started in a directory that is no more. -/
theorem shell_directory_dangles : ∃ s : Os EndlessMemory,
    (osSystem EndlessMemory ⟨0, 0⟩).Reachable TransitionSystem.anyStep s ∧
    s.shellCwd = 1 ∧ (s.kernel.processes 0).Live ∧ (s.kernel.processes 0).task.cwd = some 1 ∧
    s.fs.nodes 1 = none :=
  (osSystem EndlessMemory ⟨0, 0⟩).exists_of_run Os.start_init
    (Os.launch ++ [.call (.chdir (some ['/'])), .call (.unlink (some ['d'])),
      .kernel (.user (.exit 0)), .kernel .round, .kernel (.spawn [] [] (some 1))])
    (by decide +kernel)

/-! ### Open files -/

namespace Os

variable {M : Type} {s s' : Os M} {kas : AddrSpace}

/-- The files that the task has open are nodes of the tree. -/
def OpenLive (fs : Vfs) (task : Usertask) : Prop :=
  ∀ j v o w, task.openFiles j = .file v o w → v ∈ fs.live

theorem OpenLive.of_gentle {fs fs' : Vfs} {task : Usertask} (hopen : OpenLive fs task)
    (h : fs.Gentle fs') : OpenLive fs' task :=
  fun j v o w hj => (h.keeps.kept v (hopen j v o w hj) id).1

theorem OpenLive.setFile {fs : Vfs} {task : Usertask} (hopen : OpenLive fs task) {v : ℕ}
    (hv : v ∈ fs.live) (j : Fin maxOpenFiles) (o : ℕ) (w : Bool) :
    OpenLive fs (task.setFile j (.file v o w)) := by
  intro k v' o' w' hk
  by_cases hkj : k = j
  · subst hkj
    rw [Usertask.openFiles_setFile, update_self] at hk
    cases hk
    exact hv
  · rw [Usertask.openFiles_setFile, update_of_ne hkj] at hk
    exact hopen k v' o' w' hk

/-- No process removes a file that a live process has open, or a directory above it, nor the
working directory of the kernel shell. -/
def SparesHeld (s : Os M) (e : OsEvent) : Prop :=
  SparesShell s e ∧ ∀ node, s.unlinked e = some node → ∀ i, (s.kernel.processes i).Live →
    ∀ j v o w, (s.kernel.processes i).task.openFiles j = .file v o w →
      s.fs.isAncestorOrSelf node v = false

theorem openLive_call {c : FileCall} {t : SlotId} (h : Settled kas s) (hopen : EveryTask OpenLive s)
    (hspares : SparesHeld s (.call c)) (ht : s.kernel.currentTask = some t)
    (hcall : s.fileCall t c = .ok s') : EveryTask OpenLive s' := by
  obtain ⟨own, hctx⟩ := h.context
  have hlive := live_of_call hctx ht
  have hworks := h.tasks t hlive
  cases fileCall_cases h.tree hworks.workingDir hcall with
  | tree c fs hfs => exact fun i hi => (hopen i hi).of_gentle hfs
  | opened c fs node j w hfs hnode hw =>
    have hopen' := fun i hi => (hopen i hi).of_gentle hfs
    exact .withTask hopen' ((hopen' t hlive).setFile hnode j 0 w)
  | used c fs j v o w o' hfs hj ho =>
    have hopen' := fun i hi => (hopen i hi).of_gentle hfs
    exact .withTask hopen' ((hopen' t hlive).setFile (hopen' t hlive j v o w hj) j o' w)
  | entered c dir hdir => exact .withTask hopen (hopen t hlive)
  | removed path node hnode hwithin =>
    intro i hi j v o w hj
    refine (h.tree.remove_spares hworks.workingDir hnode _ (hopen i hi j v o w hj) ?_).1
    refine hspares.2 node ?_ i hi j v o w hj
    rw [unlinked, ht]
    exact hnode

variable [MemoryOps M]

theorem openLive_of_reachable (h : (osSystem M kas).Reachable SparesHeld s) :
    EveryTask OpenLive s := by
  refine h.invariant (P := EveryTask OpenLive) ?_ ?_
  · rintro s ⟨⟨m, hkernel⟩, -⟩ i hi
    rw [hkernel] at hi
    rcases hi with hi | hi <;> cases hi
  · intro s e s' hreach hopen hspares hstep
    have hsettled := Settled.of_reachable (fun _ _ hg => hg.1) hreach
    obtain ⟨own, hctx⟩ := hsettled.context
    cases step_cases hstep with
    | kernel e k hk hspawn =>
      refine hopen.kernel hctx hk ?_ ?_
      · exact fun p q hinherits hp j v o w hj => hp j v o w (hinherits.files j v o w hj)
      · intro image argv cwd task he hcwd hfree j v o w hj
        rw [hfree j] at hj
        cases hj
    | call c t s' ht hcall => exact openLive_call hsettled hopen hspares ht hcall
    | shell c hunused =>
      exact .of_unused (by rwa [shellStep_kernel])

end Os

/-- **Open files never dangle** in a run in which no process removes an open file, a directory above
one, or the working directory of the kernel shell: the node behind every descriptor of a live
process is one that has not been freed. -/
theorem open_files_live {M : Type} [MemoryOps M] {kas : AddrSpace} {s : Os M}
    (h : (osSystem M kas).Reachable Os.SparesHeld s) {i : SlotId}
    (hi : (s.kernel.processes i).Live) {j : Fin maxOpenFiles} {v o : ℕ} {w : Bool}
    (hj : (s.kernel.processes i).task.openFiles j = .file v o w) : v ∈ s.fs.live :=
  Os.openLive_of_reachable h i hi j v o w hj

/-- A program that has opened a file it has made. -/
theorem open_files_live_of_new_file : ∃ s : Os EndlessMemory, (s.kernel.processes 0).Live ∧
    (s.kernel.processes 0).task.openFiles ⟨0, by decide⟩ = .file 2 0 true ∧ 2 ∈ s.fs.live := by
  obtain ⟨s, hreach, hlive, hj⟩ := TransitionSystem.Reachable.exists_of_run
    (T := osSystem EndlessMemory ⟨0, 0⟩) Os.SparesHeld
    (P := fun s => (s.kernel.processes 0).Live ∧
      (s.kernel.processes 0).task.openFiles ⟨0, by decide⟩ = .file 2 0 true) Os.start_init
    (Os.launch ++ [.call (.open (some ['f']) (oCreat ||| oWronly))])
    (by simp [Os.launch, Os.SparesHeld, Os.SparesShell, Os.unlinked]) (by decide +kernel)
  exact ⟨s, hlive, hj, open_files_live hreach hlive hj⟩

/-- The program removes the file it has open. -/
theorem open_file_dangles : ∃ s : Os EndlessMemory,
    (osSystem EndlessMemory ⟨0, 0⟩).Reachable TransitionSystem.anyStep s ∧
    (s.kernel.processes 0).Live ∧
    (s.kernel.processes 0).task.openFiles ⟨0, by decide⟩ = .file 2 0 true ∧ s.fs.nodes 2 = none :=
  (osSystem EndlessMemory ⟨0, 0⟩).exists_of_run Os.start_init
    (Os.launch ++ [.call (.open (some ['f']) (oCreat ||| oWronly)), .call (.unlink (some ['f']))])
    (by decide +kernel)

end AnssOS
