import AnssOS.Exec.Steps
import AnssOS.Fs.VfsTree

/-!
# Files and processes

The system calls of `kernel/src/exec/syscall.rs` that work on files, the commands of
`kernel/src/shell.rs` that change the tree, and the machine that has all of this: the kernel
machine, the file system and the working directory of the kernel shell.

A file descriptor holds a pointer to a vnode and an offset, and a task and the kernel shell hold
pointers to their working directories; nothing in the tree says that a node is held.

### Outline

* the calls on one task and the file system: `sysOpen`, `sysLseek`, `sysRead`, `sysWrite`,
  `sysGetdents`, `sysChdir`, and `FileFault` for the points at which they would panic;
* the machine `osSystem`.
-/

namespace AnssOS

/-! ### Arguments and faults -/

/-- `O_RDONLY`. -/
def oRdonly : UInt64 := 0

/-- `O_WRONLY`. -/
def oWronly : UInt64 := 1

/-- `O_CREAT`. -/
def oCreat : UInt64 := 0x40

/-- `O_TRUNC`. -/
def oTrunc : UInt64 := 0x200

/-- A place at which the code panics. -/
inductive FileFault
  /-- An addition of `usize` overflows. -/
  | overflow
  /-- A slice has its end before its start or behind the buffer. -/
  | outOfRange
  /-- A buffer longer than `isize::MAX` is asked for. -/
  | capacity
deriving DecidableEq

/-- A byte slice, which is never longer than `isize::MAX`. -/
abbrev Slice := {bytes : List UInt8 // bytes.length ≤ isizeMax}

/-- The size of a `Dirent`: the type and the name. -/
def direntSize : ℕ := 1 + nameMax

/-- The value of an integer after it is cut to an `i64`. -/
def wrapI64 (x : ℤ) : ℤ := x.bmod (2 ^ 64)

/-- `i64::checked_add`. -/
def checkedAddI64 (x y : ℤ) : Option ℤ :=
  if -2 ^ 63 ≤ x + y ∧ x + y < 2 ^ 63 then some (x + y) else none

namespace Usertask

/-! ### Calls on one task -/

/-- `free_slot`. -/
def freeSlot (t : Usertask) : Option (Fin maxOpenFiles) :=
  (List.finRange maxOpenFiles).find? fun j => t.openFiles j = .free

/-- The working directory; every loaded task has one. -/
def workingDir (t : Usertask) (fs : Vfs) : ℕ := t.cwd.getD fs.root

/-- The access mode among the flags of `open`. -/
def accessOf (flags : UInt64) : UInt64 := flags &&& ~~~(oCreat ||| oTrunc)

/-- `sys_open` from the point where the node is known. -/
def openNode (fs : Vfs) (t : Usertask) (node : ℕ) (flags : UInt64) : Option ℤ × Vfs × Usertask :=
  -- a directory can only be opened read-only
  if fs.isDir node ∧ flags ≠ oRdonly then (none, fs, t)
  else
    let fs := if flags &&& oTrunc ≠ 0 ∧ ¬ fs.isDir node ∧ accessOf flags = oWronly then
        fs.modify node fun v => { v with data := [] }
      else fs
    match t.freeSlot with
    | none => (none, fs, t)
    | some j => (some (3 + j.val), fs, t.setFile j (.file node 0 (decide (accessOf flags = oWronly))))

/-- `sys_open`, of a path that is `none` if it is no valid string. -/
def sysOpen (fs : Vfs) (t : Usertask) (path : Option Text) (flags : UInt64) :
    Option ℤ × Vfs × Usertask :=
  match path with
  | none => (none, fs, t)
  | some path =>
      if accessOf flags ≠ oRdonly ∧ accessOf flags ≠ oWronly then (none, fs, t)
      else
        match fs.resolve (t.workingDir fs) path with
        | some node => openNode fs t node flags
        | none =>
            if flags &&& oCreat ≠ 0 then
              match fs.createFile (t.workingDir fs) path with
              | (false, fs) => (none, fs, t)
              | (true, fs) =>
                  match fs.resolve (t.workingDir fs) path with
                  | none => (none, fs, t)
                  | some node => openNode fs t node flags
            else (none, fs, t)

/-- `sys_lseek`. -/
def sysLseek (fs : Vfs) (t : Usertask) (fd : ℕ) (offset : Int64) (whence : ℕ) :
    Option ℤ × Usertask :=
  match t.openFile fd with
  | none => (none, t)
  | some j =>
      match t.openFiles j with
      | .file vnode pos writable =>
          let base : Option ℤ := match whence with
            | 0 => some 0
            | 1 => some (wrapI64 pos)
            | 2 => if fs.isDir vnode then none else some (wrapI64 (fs.dataOf vnode).length)
            | _ => none
          match (base.bind fun base => checkedAddI64 base offset.toInt).filter (0 ≤ ·) with
          | none => (none, t)
          | some new => (some new, t.setFile j (.file vnode new.toNat writable))
      | _ => (none, t)

/-- The file branch of `sys_write`, with the bytes that are at `buf`. -/
def sysWrite (fs : Vfs) (t : Usertask) (fd buf : ℕ) (data : List UInt8) :
    Except FileFault (Option ℤ × Vfs × Usertask) :=
  match if Kernel.userOk buf data.length then t.openFile fd else none with
  | none => .ok (none, fs, t)
  | some j =>
      match t.openFiles j with
      | .file vnode offset writable =>
          if !writable then .ok (none, fs, t)
          else
            let file := fs.dataOf vnode
            let stop := offset + data.length
            if 2 ^ 64 ≤ stop then .error .overflow
            -- `resize`
            else if file.length < stop ∧ isizeMax < stop then .error .capacity
            else
              let file := file ++ List.replicate (stop - file.length) 0
              if stop < offset ∨ file.length < stop then .error .outOfRange
              else
                let file := file.take offset ++ data ++ file.drop stop
                .ok (some data.length, fs.modify vnode fun v => { v with data := file },
                  t.setFile j (.file vnode stop writable))
      | _ => .ok (none, fs, t)

/-- The file branch of `sys_read`, with the bytes read. -/
def sysRead (fs : Vfs) (t : Usertask) (fd buf len : ℕ) :
    Except FileFault (Option ℤ × List UInt8 × Usertask) :=
  match if Kernel.userOk buf len then t.openFile fd else none with
  | none => .ok (none, [], t)
  | some j =>
      match t.openFiles j with
      | .file vnode offset writable =>
          if fs.isDir vnode then .ok (none, [], t)
          else
            let rest := (fs.dataOf vnode).drop offset
            let n := min len rest.length
            if 2 ^ 64 ≤ offset + n then .error .overflow
            else .ok (some n, rest.take n, t.setFile j (.file vnode (offset + n) writable))
      | _ => .ok (none, [], t)

/-- `sys_getdents`, with the entry that is returned, told by its node. -/
def sysGetdents (fs : Vfs) (t : Usertask) (fd out : ℕ) : Option ℤ × Option ℕ × Usertask :=
  match t.openFile fd with
  | none => (none, none, t)
  | some j =>
      match t.openFiles j with
      | .file vnode offset writable =>
          if !fs.isDir vnode || !Kernel.userOk out direntSize then (none, none, t)
          else
            match (fs.children vnode)[offset]? with
            | none => (some 0, none, t)
            | some child => (some 1, some child, t.setFile j (.file vnode (offset + 1) writable))
      | _ => (none, none, t)

/-- `sys_chdir`. -/
def sysChdir (fs : Vfs) (t : Usertask) (path : Option Text) : Option ℤ × Usertask :=
  match path.bind fun path => fs.resolve (t.workingDir fs) path with
  | none => (none, t)
  | some node => if fs.isDir node then (some 0, { t with cwd := some node }) else (none, t)

end Usertask

/-! ### The machine -/

/-- The kernel, the file system and the working directory of the kernel shell. -/
structure Os (M : Type) where
  kernel : Kernel M
  fs : Vfs
  shellCwd : ℕ

/-- The system calls on files. -/
inductive FileCall
  | «open» (path : Option Text) (flags : UInt64)
  | lseek (fd : ℕ) (offset : Int64) (whence : ℕ)
  | write (fd buf : ℕ) (data : List UInt8)
  | read (fd buf len : ℕ)
  | getdents (fd out : ℕ)
  | chdir (path : Option Text)
  | mkdir (path : Option Text)
  | unlink (path : Option Text)
  | rename (src dest : Option Text)
  | copy (src dest : Option Text)

/-- The commands of the kernel shell that work on the tree. -/
inductive ShellCommand
  | create (kind : VnodeType) (path : Text)
  | delete (path : Text)
  | copy (src dest : Text)
  | move (src dest : Text)
  | cd (path : Text)
  | write (path : Text) (text : Slice)

/-- What can happen in the machine. -/
inductive OsEvent
  | kernel (e : Event)
  | call (c : FileCall)
  | shell (c : ShellCommand)

namespace Os

variable {M : Type}

/-- `cwd_within`: a process works in the directory or below it. -/
def cwdWithin (s : Os M) (dir : ℕ) : Bool :=
  (List.finRange maxProcesses).any fun i =>
    (s.kernel.processes i).state ≠ .unused &&
      (match (s.kernel.processes i).task.cwd with
      | some v => s.fs.isAncestorOrSelf dir v
      | none => false)

/-- A call of the task `t`, by its result on the task and the file system. -/
def withTask (s : Os M) (t : SlotId) (fs : Vfs) (task : Usertask) : Os M :=
  { s with kernel := s.kernel.setTask t task, fs := fs }

/-- A system call of the task `t`. -/
def fileCall (s : Os M) (t : SlotId) : FileCall → Except FileFault (Os M)
  | .open path flags =>
      let (_, fs, task) := Usertask.sysOpen s.fs (s.kernel.processes t).task path flags
      .ok (s.withTask t fs task)
  | .lseek fd offset whence =>
      .ok (s.withTask t s.fs (Usertask.sysLseek s.fs (s.kernel.processes t).task fd offset whence).2)
  | .write fd buf data =>
      (Usertask.sysWrite s.fs (s.kernel.processes t).task fd buf data).map fun (_, fs, task) =>
        s.withTask t fs task
  | .read fd buf len =>
      (Usertask.sysRead s.fs (s.kernel.processes t).task fd buf len).map fun (_, _, task) =>
        s.withTask t s.fs task
  | .getdents fd out =>
      .ok (s.withTask t s.fs (Usertask.sysGetdents s.fs (s.kernel.processes t).task fd out).2.2)
  | .chdir path =>
      .ok (s.withTask t s.fs (Usertask.sysChdir s.fs (s.kernel.processes t).task path).2)
  | .mkdir path =>
      match path with
      | none => .ok s
      | some path =>
          .ok { s with fs := (s.fs.mkdir ((s.kernel.processes t).task.workingDir s.fs) path).2 }
  | .unlink path =>
      let cwd := (s.kernel.processes t).task.workingDir s.fs
      match path with
      | none => .ok s
      | some path =>
          match s.fs.resolve cwd path with
          | none => .ok s
          | some node =>
              if s.cwdWithin node then .ok s
              else .ok { s with fs := (s.fs.remove cwd path cwd).2 }
  | .rename src dest =>
      match src, dest with
      | some src, some dest =>
          .ok { s with
            fs := (s.fs.moveNode ((s.kernel.processes t).task.workingDir s.fs) src dest).2 }
      | _, _ => .ok s
  | .copy src dest =>
      match src, dest with
      | some src, some dest =>
          .ok { s with fs := (s.fs.copy ((s.kernel.processes t).task.workingDir s.fs) src dest).2 }
      | _, _ => .ok s

/-- A command of the kernel shell. -/
def shellStep (s : Os M) : ShellCommand → Os M
  | .create kind path => { s with fs := (s.fs.createLeaf s.shellCwd path kind).2 }
  | .delete path => { s with fs := (s.fs.remove s.shellCwd path s.shellCwd).2 }
  | .copy src dest => { s with fs := (s.fs.copy s.shellCwd src dest).2 }
  | .move src dest => { s with fs := (s.fs.moveNode s.shellCwd src dest).2 }
  | .cd path =>
      if path = [] then { s with shellCwd := s.fs.root }
      else
        match s.fs.resolve s.shellCwd path with
        | none => s
        | some dir => if s.fs.isDir dir then { s with shellCwd := dir } else s
  | .write path text => { s with fs := (s.fs.writeFile s.shellCwd path text.1 false).2 }

/-- One step.  A fault stops the machine.  The kernel launches programs in the root or in its
shell's working directory, and its shell runs only while there is no process. -/
def step [MemoryOps M] (s : Os M) : OsEvent → Option (Os M)
  | .kernel (.spawn image argv cwd) =>
      if cwd = some s.fs.root ∨ cwd = some s.shellCwd then
        (s.kernel.step (.spawn image argv cwd)).map fun k => { s with kernel := k }
      else none
  | .kernel e => (s.kernel.step e).map fun k => { s with kernel := k }
  | .call c =>
      match s.kernel.frames, s.kernel.currentTask with
      | .dispatch _ _ _ :: _, some t => (s.fileCall t c).toOption
      | _, _ => none
  | .shell c =>
      if s.kernel.frames = [] ∧ ∀ i, (s.kernel.processes i).state = .unused then
        some (s.shellStep c)
      else none

end Os

/-- The machine, from any tree of files on and with the kernel shell at the root. -/
def osSystem (M : Type) [MemoryOps M] (kas : AddrSpace) : TransitionSystem (Os M) OsEvent where
  init s := (∃ m, s.kernel = Kernel.boot m kas s.fs.root) ∧ s.fs.IsTree ∧ s.shellCwd = s.fs.root ∧
    ∀ p, (s.fs.dataOf p).length ≤ isizeMax
  step := Os.step

end AnssOS
