import AnssOS.Exec.Dangling

/-!
# The offsets of open files

Each descriptor has an offset of its own, which `lseek` can put far behind the end of a file that
other descriptors write to and truncate.  The offset never gets past `isize::MAX`, and no read and no
seek can fail for it; but a write that ends behind `isize::MAX` asks for a buffer that is longer than
any, and the kernel panics.

### Outline

* `OffsetsOk`, kept by every step in which nothing that is held is freed;
* `file_call_faults_iff`: the calls that make the kernel panic are these writes, and no others.
-/

namespace AnssOS

open Vfs

namespace Os

variable {M : Type} {s s' : Os M} {kas : AddrSpace}

/-- The offsets in files are those a buffer can have, and directories are open for reading only. -/
def OffsetsOk (fs : Vfs) (task : Usertask) : Prop :=
  ∀ j v o w, task.openFiles j = .file v o w →
    (fs.isDir v = false → o ≤ isizeMax) ∧ (fs.isDir v = true → w = false)

/-- The offsets depend only on which nodes are directories. -/
theorem OffsetsOk.congr {fs fs' : Vfs} {task : Usertask} (h : OffsetsOk fs task)
    (hdir : ∀ j v o w, task.openFiles j = .file v o w → fs'.isDir v = fs.isDir v) :
    OffsetsOk fs' task := by
  intro j v o w hj
  rw [hdir j v o w hj]
  exact h j v o w hj

theorem OffsetsOk.of_gentle {fs fs' : Vfs} {task : Usertask} (h : OffsetsOk fs task)
    (hopen : OpenLive fs task) (hfs : fs.Gentle fs') : OffsetsOk fs' task :=
  h.congr fun j v o w hj => (hfs.keeps.kept v (hopen j v o w hj) id).2

theorem OffsetsOk.setFile {fs : Vfs} {task : Usertask} (h : OffsetsOk fs task) {v o : ℕ} {w : Bool}
    (ho : fs.isDir v = false → o ≤ isizeMax) (hw : fs.isDir v = true → w = false)
    (j : Fin maxOpenFiles) : OffsetsOk fs (task.setFile j (.file v o w)) := by
  intro k v' o' w' hk
  by_cases hkj : k = j
  · subst hkj
    rw [Usertask.openFiles_setFile, Function.update_self] at hk
    cases hk
    exact ⟨ho, hw⟩
  · rw [Usertask.openFiles_setFile, Function.update_of_ne hkj] at hk
    exact h k v' o' w' hk

/-- The bounds on offsets and on contents. -/
structure Bounded (s : Os M) : Prop where
  offsets : EveryTask OffsetsOk s
  data : s.fs.DataOk

theorem Bounded.call {c : FileCall} {t : SlotId} (h : Bounded s) (hsettled : Settled kas s)
    (hopen : EveryTask OpenLive s) (hspares : SparesHeld s (.call c))
    (ht : s.kernel.currentTask = some t) (hcall : s.fileCall t c = .ok s') : Bounded s' := by
  obtain ⟨own, hctx⟩ := hsettled.context
  have hlive := live_of_call hctx ht
  have hworks := hsettled.tasks t hlive
  have hgentle : ∀ {fs}, s.fs.Gentle fs → ∀ i, (s.kernel.processes i).Live →
      OffsetsOk fs (s.kernel.processes i).task :=
    fun hfs i hi => (h.offsets i hi).of_gentle (hopen i hi) hfs
  cases fileCall_cases hsettled.tree hworks.workingDir hcall with
  | tree c fs hfs => exact ⟨hgentle hfs, hfs.data h.data⟩
  | opened c fs node j w hfs hnode hw =>
    refine ⟨.withTask (hgentle hfs) ?_, hfs.data h.data⟩
    exact (hgentle hfs t hlive).setFile (fun _ => Nat.zero_le _) hw j
  | used c fs j v o w o' hfs hj ho =>
    refine ⟨.withTask (hgentle hfs) ?_, hfs.data h.data⟩
    have hdir := (hfs.keeps.kept v (hopen t hlive j v o w hj) id).2
    obtain ⟨hoffset, hwritable⟩ := h.offsets t hlive j v o w hj
    refine (hgentle hfs t hlive).setFile ?_ ?_ j
    · rw [hdir]
      exact fun hfile => ho hfile h.data (hoffset hfile)
    · rw [hdir]
      exact hwritable
  | entered c dir hdir => exact ⟨.withTask h.offsets (h.offsets t hlive), h.data⟩
  | removed path node hnode hwithin =>
    refine ⟨fun i hi => (h.offsets i hi).congr fun j v o w hj => ?_,
      h.data.remove (Nat.zero_le _) _ _ _⟩
    refine (hsettled.tree.remove_spares hworks.workingDir hnode _ (hopen i hi j v o w hj) ?_).2
    refine hspares.2 node ?_ i hi j v o w hj
    rw [unlinked, ht]
    exact hnode

theorem dataOk_of_shellCase {c : ShellCommand} (h : s.fs.DataOk) (hcase : ShellCase s c s') :
    s'.fs.DataOk := by
  cases hcase with
  | tree c fs hfs => exact hfs.data h
  | entered c dir hdir => exact h
  | removed path => exact h.remove (Nat.zero_le _) _ _ _

variable [MemoryOps M]

theorem bounded_of_reachable (h : (osSystem M kas).Reachable SparesHeld s) : Bounded s := by
  refine h.invariant (P := Bounded) ?_ ?_
  · rintro s ⟨⟨m, hkernel⟩, -, -, hdata⟩
    refine ⟨fun i hi => ?_, hdata⟩
    rw [hkernel] at hi
    rcases hi with hi | hi <;> cases hi
  · intro s e s' hreach hbounded hspares hstep
    have hsettled := Settled.of_reachable (fun _ _ hg => hg.1) hreach
    obtain ⟨own, hctx⟩ := hsettled.context
    cases step_cases hstep with
    | kernel e k hk hspawn =>
      refine ⟨hbounded.offsets.kernel hctx hk ?_ ?_, hbounded.data⟩
      · exact fun p q hinherits hp j v o w hj => hp j v o w (hinherits.files j v o w hj)
      · intro image argv cwd task he hcwd hfree j v o w hj
        rw [hfree j] at hj
        cases hj
    | call c t s' ht hcall =>
      exact hbounded.call hsettled (openLive_of_reachable hreach) hspares ht hcall
    | shell c hunused =>
      have hcase := shellStep_cases hsettled.tree (mem_live_of_isDir hsettled.shell) c
      exact ⟨.of_unused (by rwa [shellStep_kernel]), dataOk_of_shellCase hbounded.data hcase⟩

end Os

/-! ### Faults -/

namespace Usertask

variable {fs : Vfs} {t : Usertask}

theorem sysRead_ok (h : Os.OffsetsOk fs t) (hdata : fs.DataOk) (fd buf len : ℕ) :
    ∃ r, sysRead fs t fd buf len = .ok r := by
  unfold sysRead
  split
  · exact ⟨_, rfl⟩
  split
  · rename_i v o w hj
    split
    · exact ⟨_, rfl⟩
    · rename_i hfile
      have hoffset := (h _ v o w hj).1 (by simpa using hfile)
      have hlength := hdata v
      dsimp only
      rw [if_neg]
      · exact ⟨_, rfl⟩
      · simp only [List.length_drop]
        unfold isizeMax at hoffset hlength
        omega
  · exact ⟨_, rfl⟩

/-- The write ends behind `isize::MAX`. -/
def WritesTooFar (t : Usertask) (fd buf : ℕ) (data : List UInt8) : Prop :=
  Kernel.userOk buf data.length = true ∧ ∃ j v o, t.openFile fd = some j ∧
    t.openFiles j = .file v o true ∧ isizeMax < o + data.length

theorem sysWrite_error_iff (h : Os.OffsetsOk fs t) (hdata : fs.DataOk) (fd buf : ℕ)
    (data : List UInt8) :
    (∃ f, sysWrite fs t fd buf data = .error f) ↔ t.WritesTooFar fd buf data := by
  unfold sysWrite WritesTooFar
  by_cases hok : Kernel.userOk buf data.length = true
  · rw [if_pos hok]
    cases hfd : t.openFile fd with
    | none => simp
    | some j =>
      dsimp only
      cases hj : t.openFiles j with
      | free => simp [hj]
      | pipe p e => simp [hj]
      | file v o w =>
        cases w with
        | false => simp [hj]
        | true =>
          -- the bytes fit into the lower half of the address space
          have hlen : data.length < 2 ^ 47 := by
            simp only [Kernel.userOk, decide_eq_true_eq] at hok
            omega
          have hfile : fs.isDir v = false := by
            by_contra hdir
            exact absurd ((h j v o true hj).2 (by simpa using hdir)) (by decide)
          have hoffset := (h j v o true hj).1 hfile
          have hlength := hdata v
          have hright : (Kernel.userOk buf data.length = true ∧ ∃ k v' o', some j = some k ∧
              t.openFiles k = .file v' o' true ∧ isizeMax < o' + data.length) ↔
              isizeMax < o + data.length := by
            constructor
            · rintro ⟨-, k, v', o', hk, hk', hfar⟩
              obtain rfl := Option.some.inj hk
              rw [hj] at hk'
              cases hk'
              exact hfar
            · exact fun hfar => ⟨hok, j, v, o, rfl, hj, hfar⟩
          rw [hright]
          dsimp only
          rw [if_neg (by simp), if_neg (by unfold isizeMax at hoffset; omega)]
          by_cases hfar : isizeMax < o + data.length
          · rw [if_pos ⟨by omega, hfar⟩]
            simp [hfar]
          · rw [if_neg (by omega), if_neg]
            · simp [hfar]
            · simp only [List.length_append, List.length_replicate]
              omega
  · rw [if_neg hok]
    simp [hok]

end Usertask

/-- All calls other than a write return. -/
theorem Os.fileCall_ok {M : Type} {s : Os M} {t : SlotId} {c : FileCall}
    (h : Os.OffsetsOk s.fs (s.kernel.processes t).task) (hdata : s.fs.DataOk)
    (hne : ∀ fd buf data, c ≠ .write fd buf data) : ∃ s', s.fileCall t c = .ok s' := by
  cases c with
  | write fd buf data => exact absurd rfl (hne fd buf data)
  | read fd buf len =>
    obtain ⟨r, hr⟩ := Usertask.sysRead_ok h hdata fd buf len
    rw [fileCall, hr]
    exact ⟨_, rfl⟩
  | «open» | lseek | getdents | chdir => exact ⟨_, rfl⟩
  | mkdir path => cases path <;> exact ⟨_, rfl⟩
  | unlink path =>
    cases path with
    | none => exact ⟨_, rfl⟩
    | some path =>
      rw [fileCall]
      split
      · exact ⟨_, rfl⟩
      · split <;> exact ⟨_, rfl⟩
  | rename src dest | copy src dest => cases src <;> cases dest <;> exact ⟨_, rfl⟩

/-- **The calls that panic.**  In every state that is reached without freeing what is held, a call
on files makes the kernel panic if and only if it is a write that ends behind `isize::MAX`. -/
theorem file_call_faults_iff {M : Type} [MemoryOps M] {kas : AddrSpace} {s : Os M}
    (h : (osSystem M kas).Reachable Os.SparesHeld s) {t : SlotId}
    (ht : s.kernel.currentTask = some t) (c : FileCall) :
    (∃ f, s.fileCall t c = .error f) ↔
      ∃ fd buf data, c = .write fd buf data ∧
        (s.kernel.processes t).task.WritesTooFar fd buf data := by
  have hbounded := Os.bounded_of_reachable h
  obtain ⟨own, hctx⟩ := (Os.Settled.of_reachable (fun _ _ hg => hg.1) h).context
  have hoffsets := hbounded.offsets t (Os.live_of_call hctx ht)
  by_cases hwrite : ∃ fd buf data, c = .write fd buf data
  · obtain ⟨fd, buf, data, rfl⟩ := hwrite
    have herror : (∃ f, s.fileCall t (.write fd buf data) = .error f) ↔
        ∃ f, Usertask.sysWrite s.fs (s.kernel.processes t).task fd buf data = .error f := by
      rw [Os.fileCall]
      cases Usertask.sysWrite s.fs (s.kernel.processes t).task fd buf data <;> simp [Except.map]
    rw [herror, Usertask.sysWrite_error_iff hoffsets hbounded.data]
    constructor
    · exact fun hfar => ⟨fd, buf, data, rfl, hfar⟩
    · rintro ⟨_, _, _, ⟨⟩, hfar⟩
      exact hfar
  · have hne : ∀ fd buf data, c ≠ .write fd buf data :=
      fun fd buf data hc => hwrite ⟨fd, buf, data, hc⟩
    obtain ⟨s', hok⟩ := Os.fileCall_ok hoffsets hbounded.data hne
    refine iff_of_false ?_ ?_
    · rintro ⟨f, hf⟩
      rw [hok] at hf
      cases hf
    · rintro ⟨fd, buf, data, hc, -⟩
      exact hne fd buf data hc

/-- A program whose writes are small. -/
theorem file_call_faults_iff_of_new_file : ∃ s : Os EndlessMemory,
    (s.kernel.processes 0).task.openFiles ⟨0, by decide⟩ = .file 2 0 true ∧
    ¬ ∃ f, s.fileCall 0 (.write 3 0 [0]) = .error f := by
  obtain ⟨s, hreach, ht, hj⟩ := TransitionSystem.Reachable.exists_of_run
    (T := osSystem EndlessMemory ⟨0, 0⟩) Os.SparesHeld
    (P := fun s => s.kernel.currentTask = some 0 ∧
      (s.kernel.processes 0).task.openFiles ⟨0, by decide⟩ = .file 2 0 true) Os.start_init
    (Os.launch ++ [.call (.open (some ['f']) (oCreat ||| oWronly))])
    (by simp [Os.launch, Os.SparesHeld, Os.SparesShell, Os.unlinked]) (by decide +kernel)
  refine ⟨s, hj, fun hfault => ?_⟩
  obtain ⟨_, _, _, ⟨⟩, -, j, v, o, hfd, hfile, hfar⟩ :=
    (file_call_faults_iff hreach ht _).mp hfault
  have hopen : (s.kernel.processes 0).task.openFile 3 = some ⟨0, by decide⟩ := by
    rw [Usertask.openFile, dif_pos (by decide), if_neg]
    exact fun hfree => absurd (hj.symm.trans hfree) (by simp)
  rw [hopen] at hfd
  cases hfd
  rw [hj] at hfile
  cases hfile
  exact absurd hfar (by decide)

/-- The program seeks as far as it can, and writes a byte. -/
theorem write_behind_seek_faults : ∃ s : Os EndlessMemory,
    (osSystem EndlessMemory ⟨0, 0⟩).Reachable TransitionSystem.anyStep s ∧
    s.kernel.currentTask = some 0 ∧ s.fileCall 0 (.write 3 0 [0]) = .error .capacity := by
  obtain ⟨s, hreach, ht, hfault⟩ := (osSystem EndlessMemory ⟨0, 0⟩).exists_of_run
    (P := fun s => s.kernel.currentTask = some 0 ∧
      (match s.fileCall 0 (.write 3 0 [0]) with
        | .error .capacity => true
        | _ => false) = true)
    Os.start_init
    (Os.launch ++ [.call (.open (some ['f']) (oCreat ||| oWronly)),
      .call (.lseek 3 Int64.maxValue 0)])
    (by decide +kernel)
  refine ⟨s, hreach, ht, ?_⟩
  split at hfault
  · assumption
  · cases hfault

end AnssOS
