import AnssOS.Exec.Context
import AnssOS.Exec.PipeRefs

/-!
# References to pipes, along a run

`slack` compares the count a pipe keeps for an end with the references live processes hold to it.
References are made, moved and dropped by six different operations; the books of the module are the
theorem `books_step`: a step changes the slack of an end exactly by what it leaks, and `leaked`
lists the three ways in which a step leaks references.  Nothing ever takes more from a count than
was put into it, so no pipe is freed while it is in use; and as long as nothing leaks, the counts
are exact.
-/

namespace AnssOS

open List Option Function

/-! ### Counts and holders -/

namespace Kernel

variable {M : Type}

/-- The references live processes hold to an end of a pipe. -/
def holders (s : Kernel M) (p : ℕ) (w : Bool) : ℕ :=
  tally (Process.liveRefs p w) s.processes

/-- The references counted for an end of a pipe beyond those live processes hold. -/
def slack (s : Kernel M) (p : ℕ) (w : Bool) : ℤ :=
  s.pipes.refs p w - s.holders p w

variable {s s' : Kernel M} {i : SlotId} {q : Process}

theorem holders_update 
    (h : s'.processes = Function.update s.processes i q) (p : ℕ) (w : Bool) :
    s'.holders p w + (s.processes i).liveRefs p w = s.holders p w + q.liveRefs p w := by
  rw [holders, h]
  exact tally_update (Process.liveRefs p w) s.processes i q

theorem liveRefs_of_live (h : q.Live) (p : ℕ) (w : Bool) :
    q.liveRefs p w = q.task.refs p w := if_pos h

theorem holders_update_task {task : Usertask}
    (hi : (s.processes i).Live)
    (h : s'.processes = Function.update s.processes i { s.processes i with task := task }) (p : ℕ)
    (w : Bool) :
    s'.holders p w + (s.processes i).task.refs p w = s.holders p w + task.refs p w := by
  have hlive : ({ s.processes i with task := task } : Process).Live := hi
  have hholders := holders_update h p w
  rwa [liveRefs_of_live hi, liveRefs_of_live hlive] at hholders

theorem refs_le_holders (h : (s.processes i).Live) (p : ℕ) (w : Bool) :
    (s.processes i).task.refs p w ≤ s.holders p w := by
  have hle := le_tally (Process.liveRefs p w) s.processes i
  rwa [Process.liveRefs, if_pos h] at hle

/-- The counts are sound, cover what is held, and only pipes created so far are held. -/
structure Counted (s : Kernel M) : Prop where
  sound : s.pipes.Sound
  slack_nonneg : ∀ p w, 0 ≤ s.slack p w
  known : ∀ p w, s.pipes.next ≤ p → s.holders p w = 0

theorem Counted.refs_le (h : s.Counted) (hi : (s.processes i).Live)
    (p : ℕ) (w : Bool) : ((s.processes i).task.refs p w : ℤ) ≤ s.pipes.refs p w := by
  have hslack := h.slack_nonneg p w
  have hle := refs_le_holders hi p w
  unfold slack at hslack
  omega

/-- What a transition from `s` to `s'` does to counts and holders: the slack of the pipes there
were grows by `leak`, and a new pipe starts without slack. -/
structure Books (s : Kernel M) (leak : ℕ → Bool → ℕ) (s' : Kernel M) : Prop where
  sound : s'.pipes.Sound
  known : ∀ p w, s'.pipes.next ≤ p → s'.holders p w = 0
  next_le : s.pipes.next ≤ s'.pipes.next
  old : ∀ p w, p < s.pipes.next → s'.slack p w = s.slack p w + leak p w
  new : ∀ p w, s.pipes.next ≤ p → p < s'.pipes.next → s'.slack p w = 0

theorem Books.counted {leak : ℕ → Bool → ℕ} (h : s.Counted)
    (hb : s.Books leak s') : s'.Counted := by
  refine ⟨hb.sound, fun p w => ?_, hb.known⟩
  rcases Nat.lt_or_ge p s.pipes.next with hlt | hge
  · have := h.slack_nonneg p w
    rw [hb.old p w hlt]
    omega
  · rcases Nat.lt_or_ge p s'.pipes.next with hlt' | hge'
    · exact (hb.new p w hge hlt').ge
    · have := hb.sound.nonneg p w
      rw [slack, hb.known p w hge']
      omega

/-- The books of an operation that changes one process and makes no pipe. -/
theorem Books.of_update {leak : ℕ → Bool → ℕ} 
    (h : s.Counted) (hsound : s'.pipes.Sound) (hnext : s'.pipes.next = s.pipes.next)
    (hprocs : s'.processes = Function.update s.processes i q)
    (hknown : ∀ p w, s.pipes.next ≤ p → q.liveRefs p w = 0)
    (hrefs : ∀ p w, s'.pipes.refs p w + (s.processes i).liveRefs p w =
      s.pipes.refs p w + q.liveRefs p w + leak p w) : s.Books leak s' := by
  refine ⟨hsound, fun p w hp => ?_, hnext.ge, fun p w _ => ?_, fun p w hp hp' => ?_⟩
  · have hholders := holders_update hprocs p w
    rw [h.known p w (hnext ▸ hp), hknown p w (hnext ▸ hp)] at hholders
    omega
  · have hholders := holders_update hprocs p w
    have := hrefs p w
    unfold slack
    omega
  · omega

/-- The books of an operation that touches neither counts nor references. -/
theorem Books.of_same (h : s.Counted) (hsound : s'.pipes.Sound)
    (hnext : s'.pipes.next = s.pipes.next)
    (hrefs : ∀ p w, s'.pipes.refs p w = s.pipes.refs p w)
    (hlive : ∀ i p w, (s'.processes i).liveRefs p w = (s.processes i).liveRefs p w) :
    s.Books (fun _ _ => 0) s' := by
  have hholders : ∀ p w, s'.holders p w = s.holders p w := fun p w =>
    tally_congr fun i => hlive i p w
  refine ⟨hsound, fun p w hp => ?_, hnext.ge, fun p w _ => ?_, fun p w hp hp' => ?_⟩
  · rw [hholders]
    exact h.known p w (hnext ▸ hp)
  · rw [slack, slack, hholders, hrefs, Nat.cast_zero, add_zero]
  · omega

/-! ### The books of the system calls -/

theorem openFile_spec {fd : ℕ} {t : SlotId} {j : Fin maxOpenFiles}
    (h : s.openFile fd = some (t, j)) :
    s.currentTask = some t ∧ (s.processes t).task.openFiles j ≠ .free := by
  unfold openFile at h
  split at h
  · cases h
  · rename_i t' ht
    obtain ⟨k, hk, hkj⟩ := Option.map_eq_some_iff.mp h
    obtain ⟨rfl, rfl⟩ := Prod.mk.inj hkj
    unfold Usertask.openFile at hk
    split at hk
    · split at hk
      · cases hk
      · rename_i hfree
        obtain rfl := Option.some.inj hk
        exact ⟨ht, hfree⟩
    · cases hk

/-- A successful `use_as_stdio` changes one task. -/
theorem sysUseAsStdio_cases (s : Kernel M) (a b : ℕ) :
    s.sysUseAsStdio a b = (none, s) ∨
    (∃ t j k input output, s.currentTask = some t ∧
      (s.processes t).task.openFiles j = .pipe input false ∧
      (s.processes t).task.openFiles k = .pipe output true ∧
      s.sysUseAsStdio a b = (some 0, { s with
        processes := Function.update s.processes t { s.processes t with
          task := (s.processes t).task.useAsStdio j k input output } })) := by
  unfold sysUseAsStdio
  split
  · rename_i t j t' k ha hb
    split
    · rename_i input output hj hk
      refine Or.inr ⟨t, j, k, input, output, (openFile_spec ha).1, hj, hk, ?_⟩
      simp [setOpenFile, setTask, setProcess, Usertask.useAsStdio]
    · exact Or.inl rfl
  · exact Or.inl rfl

/-- A successful `pipe` puts the two ends of a new pipe into two free entries. -/
theorem sysPipe_cases [MemoryOps M] (s : Kernel M) (pipefd : ℕ) :
    (s.sysPipe pipefd).2 = s ∨
    (∃ t r w m, s.currentTask = some t ∧ (s.processes t).task.openFiles r = .free ∧
      (s.processes t).task.openFiles w = .free ∧ r ≠ w ∧
      (s.sysPipe pipefd).2 = { s with
        processes := Function.update s.processes t { s.processes t with
          task := ((s.processes t).task.setFile r (.pipe s.pipes.next false)).setFile w
            (.pipe s.pipes.next true) }
        pipes := s.pipes.create
        mem := m }) := by
  unfold sysPipe
  split
  · exact Or.inl rfl
  · rename_i t ht
    split
    · split
      · rename_i r w rest hfree
        have hnodup := (nodup_finRange maxOpenFiles).filter
          fun j => decide ((s.processes t).task.openFiles j = .free)
        have hmem : ∀ j ∈ r :: w :: rest, (s.processes t).task.openFiles j = .free := by
          intro j hj
          rw [← hfree] at hj
          simpa using (mem_filter.mp hj).2
        rw [hfree] at hnodup
        refine Or.inr ⟨t, r, w, MemoryOps.storeUser s.mem s.cr3.pml4Phys pipefd
          (i32Bytes (3 + r.val) ++ i32Bytes (3 + w.val)), ht, hmem r (by simp), hmem w (by simp),
          ?_, ?_⟩
        · rintro rfl
          simp at hnodup
        · simp [setOpenFile, setTask, setProcess]
      · exact Or.inl rfl
    · exact Or.inl rfl

section Calls

variable {s : Kernel M}

theorem books_refl (h : s.Counted) : s.Books (fun _ _ => 0) s :=
  Books.of_same h h.sound rfl (fun _ _ => rfl) fun _ _ _ => rfl

theorem Counted.liveRefs_eq_zero (h : s.Counted) {p : ℕ} (hp : s.pipes.next ≤ p) (i : SlotId)
    (w : Bool) : (s.processes i).liveRefs p w = 0 := by
  have hle := le_tally (Process.liveRefs p w) s.processes i
  have hzero := h.known p w hp
  unfold holders at hzero
  omega

theorem Counted.refs_eq_zero (h : s.Counted) {p : ℕ} (hp : s.pipes.next ≤ p) {i : SlotId}
    (hi : (s.processes i).Live) (w : Bool) : (s.processes i).task.refs p w = 0 := by
  have hle := refs_le_holders hi p w
  rw [h.known p w hp] at hle
  omega

/-- The books of an operation that changes the task of a live process and makes no pipe. -/
theorem Books.of_task {s' : Kernel M} {leak : ℕ → Bool → ℕ} {i : SlotId} {task : Usertask}
    (h : s.Counted) (hi : (s.processes i).Live) (hsound : s'.pipes.Sound)
    (hnext : s'.pipes.next = s.pipes.next)
    (hprocs : s'.processes = Function.update s.processes i { s.processes i with task := task })
    (hle : ∀ p w, task.refs p w ≤ (s.processes i).task.refs p w)
    (hrefs : ∀ p w, s'.pipes.refs p w + (s.processes i).task.refs p w =
      s.pipes.refs p w + task.refs p w + leak p w) : s.Books leak s' := by
  have hlive : ({ s.processes i with task := task } : Process).Live := hi
  refine Books.of_update h hsound hnext hprocs (fun p w hp => ?_) fun p w => ?_
  · have := hle p w
    rw [h.refs_eq_zero hp hi] at this
    rw [liveRefs_of_live hlive]
    exact Nat.le_zero.mp this
  · rw [liveRefs_of_live hlive, liveRefs_of_live hi]
    exact hrefs p w

section Current

variable (hlive : ∀ t, s.currentTask = some t → (s.processes t).Live)

include hlive

theorem books_sysClose (h : s.Counted) (fd : ℕ) : s.Books (fun _ _ => 0) (s.sysClose fd).2 := by
  cases hfd : s.openFile fd with
  | none =>
    rw [sysClose, hfd]
    exact books_refl h
  | some tj =>
    obtain ⟨t, j⟩ := tj
    obtain ⟨ht, -⟩ := openFile_spec hfd
    have ht := hlive t ht
    have hrefs := (s.processes t).task.refs_setFile j .free
    simp only [OpenFile.refs_free, add_zero] at hrefs
    obtain ⟨hsound, hclose⟩ := h.sound.closeFile (f := (s.processes t).task.openFiles j)
      fun p w hf => by
        have hle := h.refs_le ht p w
        have hpos := Usertask.openRefs_pos hf
        rw [Usertask.refs] at hle
        omega
    generalize hs' : (s.sysClose fd).2 = s'
    have hprocs : s'.processes = Function.update s.processes t
        { s.processes t with task := (s.processes t).task.setFile j .free } := by
      rw [← hs', sysClose, hfd]
      rfl
    have hpipes : s'.pipes = s.pipes.closeFile ((s.processes t).task.openFiles j) := by
      rw [← hs', sysClose, hfd]
      rfl
    refine Books.of_task h ht (hpipes ▸ hsound) (by rw [hpipes]; simp) hprocs
      (fun p w => Nat.le.intro (hrefs p w)) fun p w => ?_
    have := hrefs p w
    rw [hpipes, hclose]
    omega

/-- A move of two references, which forgets the standard pipes there were. -/
theorem books_sysUseAsStdio (h : s.Counted) {t : SlotId} (ht : s.currentTask = some t) (a b : ℕ) :
    s.Books (fun p w => if (s.sysUseAsStdio a b).1 = some 0 then
      (s.processes t).task.stdioRefs p w else 0) (s.sysUseAsStdio a b).2 := by
  rcases s.sysUseAsStdio_cases a b with heq | ⟨t', j, k, input, output, ht', hj, hk, heq⟩
  · simp only [heq, reduceCtorEq, if_false]
    exact books_refl h
  · obtain rfl : t = t' := some.inj (ht.symm.trans ht')
    simp only [heq, if_true]
    have hrefs := Usertask.refs_useAsStdio hj hk
    refine Books.of_task h (hlive t ht) h.sound rfl rfl (fun p w => ?_) fun p w => ?_
    · exact Nat.le.intro (hrefs p w)
    · have := hrefs p w
      push_cast [← this]
      ring

theorem books_sysPipe [MemoryOps M] (h : s.Counted) (pipefd : ℕ) :
    s.Books (fun _ _ => 0) (s.sysPipe pipefd).2 := by
  rcases s.sysPipe_cases pipefd with heq | ⟨t, r, w, m, ht, hr, hw, hrw, heq⟩
  · rw [heq]
    exact books_refl h
  · generalize (s.sysPipe pipefd).2 = s' at heq
    obtain ⟨hsound, hrefs⟩ := h.sound.create
    have hpipes : s'.pipes = s.pipes.create := by rw [heq]
    have hnext : s'.pipes.next = s.pipes.next + 1 := by rw [hpipes]; rfl
    have hholders : ∀ p e, s'.holders p e =
        s.holders p e + if p = s.pipes.next then 1 else 0 := by
      intro p e
      have hprocs : s'.processes = Function.update s.processes t { s.processes t with
          task := ((s.processes t).task.setFile r (.pipe s.pipes.next false)).setFile w
            (.pipe s.pipes.next true) } := by rw [heq]
      have hupdate := holders_update_task (hlive t ht) hprocs p e
      have hfirst := (s.processes t).task.refs_setFile r (.pipe s.pipes.next false) p e
      have hsecond := ((s.processes t).task.setFile r (.pipe s.pipes.next false)).refs_setFile w
        (.pipe s.pipes.next true) p e
      have hw' : ((s.processes t).task.setFile r (.pipe s.pipes.next false)).openFiles w = .free :=
        (update_of_ne (Ne.symm hrw) ..).trans hw
      have hends : OpenFile.refs p e (.pipe s.pipes.next false) +
          OpenFile.refs p e (.pipe s.pipes.next true) = if p = s.pipes.next then 1 else 0 := by
        cases e <;> simp [OpenFile.refs, eq_comm]
      rw [hr, OpenFile.refs_free] at hfirst
      rw [hw', OpenFile.refs_free] at hsecond
      omega
    refine ⟨hpipes ▸ hsound, fun p e hp => ?_, by omega, fun p e hp => ?_, fun p e hp hp' => ?_⟩
    · rw [hholders, h.known p e (by omega), if_neg (by omega)]
    · rw [slack, slack, hholders, hpipes, hrefs, if_neg hp.ne, if_neg hp.ne, Nat.add_zero,
        Nat.cast_zero, add_zero]
    · obtain rfl : p = s.pipes.next := by omega
      rw [slack, hholders, hpipes, hrefs, h.known _ e (le_refl _), if_pos rfl, if_pos rfl]
      rfl

end Current

/-- A change of one pipe that leaves its counts alone. -/
theorem books_modify (h : s.Counted) (p : ℕ) {f : Pipe → Pipe}
    (hf : ∀ q w, (f q).endRefs w = q.endRefs w) :
    s.Books (fun _ _ => 0) { s with pipes := s.pipes.modify p f } := by
  obtain ⟨hsound, hrefs⟩ := h.sound.modify (p := p) hf
  exact Books.of_same h hsound rfl hrefs fun _ _ _ => rfl

theorem books_sysWritePipe (h : s.Counted) (fd : ℕ) (data : List UInt8) :
    s.Books (fun _ _ => 0) (s.sysWritePipe fd data).2 := by
  have hwrite : ∀ (q : Pipe) w, ((q.write data).2).endRefs w = q.endRefs w := fun q w => by
    simp [Pipe.endRefs, Pipe.write_refs q data]
  unfold sysWritePipe
  dsimp only
  repeat' split
  all_goals first
    | exact books_refl h
    | exact books_modify h _ hwrite

theorem books_sysReadPipe (h : s.Counted) (fd len : ℕ) :
    s.Books (fun _ _ => 0) (s.sysReadPipe fd len).2.2 := by
  have hread : ∀ (q : Pipe) w, ((q.read len).2).endRefs w = q.endRefs w := fun q w => by
    simp [Pipe.endRefs, Pipe.read_refs q len]
  unfold sysReadPipe
  dsimp only
  repeat' split
  all_goals first
    | exact books_refl h
    | exact books_modify h _ hread

/-- The end of a process drops its standard pipes and leaks its open files. -/
theorem books_terminate (h : s.Counted) {i : SlotId} (hi : (s.processes i).Live) (code : ℤ) :
    s.Books (fun p w => (s.processes i).task.openRefs p w) (s.terminate i code) := by
  have hcov := h.refs_le hi
  have hstdin : ∀ q, (s.processes i).task.stdinPipe = some q →
      (s.processes i).task.stdioRefs q false = 1 := fun q hq => by simp [Usertask.stdioRefs, hq]
  have hstdout : ∀ q, (s.processes i).task.stdoutPipe = some q →
      (s.processes i).task.stdioRefs q true = 1 := fun q hq => by simp [Usertask.stdioRefs, hq]
  simp only [Usertask.refs] at hcov
  obtain ⟨hsound₁, hrefs₁⟩ := h.sound.closeOpt (s.processes i).task.stdinPipe false
    fun q hq => by
      have := hcov q false
      have := hstdin q hq
      omega
  obtain ⟨hsound₂, hrefs₂⟩ := hsound₁.closeOpt (s.processes i).task.stdoutPipe true
    fun q hq => by
      have := hcov q true
      have := hstdout q hq
      rw [hrefs₁, if_neg (by simp)]
      omega
  rw [terminate_eq]
  refine Books.of_update (q := s.terminatedProcess i code) h hsound₂ (by simp) rfl
    (fun p w _ => if_neg (by simp [Process.Live, terminatedProcess])) fun p w => ?_
  have hzero : (s.terminatedProcess i code).liveRefs p w = 0 :=
    if_neg (by simp [Process.Live, terminatedProcess])
  have hstdio : ((s.processes i).task.stdioRefs p w : ℤ) =
      (if (s.processes i).task.stdinPipe = some p ∧ w = false then 1 else 0) +
        if (s.processes i).task.stdoutPipe = some p ∧ w = true then 1 else 0 := by
    cases w <;> simp [Usertask.stdioRefs]
  show ((s.pipes.closeOpt _ false).closeOpt _ true).refs p w + _ = _
  rw [hzero, liveRefs_of_live hi, hrefs₂, hrefs₁, Usertask.refs]
  omega

/-- A failed `fork` has counted the references of a child that does not come to be. -/
theorem books_forkFailed (h : s.Counted) {i : SlotId} (hi : (s.processes i).Live) (m : M)
    (l : Ledger)
    (hfit : ∀ p w, s.pipes.refs p w + (s.processes i).task.refs p w ≤ 2 ^ 31 - 1) :
    s.Books (fun p w => (s.processes i).task.refs p w) { s with
      pipes := s.pipes.bumpTask (s.processes i).task
      mem := m
      asLedger := l } := by
  obtain ⟨hsound, hrefs⟩ := h.sound.bumpTask (s.processes i).task (h.refs_le hi) hfit
  refine Books.of_update (i := i) (q := s.processes i) h hsound (PipeHeap.bumpTask_next _ _)
    (update_eq_self i s.processes).symm (fun p w hp => h.liveRefs_eq_zero hp i w) ?_
  intro p w
  have := hrefs p w
  show (s.pipes.bumpTask (s.processes i).task).refs p w + _ = _
  omega

/-- A forked child holds the references that were counted for it. -/
theorem books_forked (h : s.Counted) {i j : SlotId} {s' : Kernel M} {q : Process}
    (hi : (s.processes i).Live) (hj : (s.processes j).state = .unused) (hq : q.Live)
    (htask : ∀ p w, q.task.refs p w = (s.processes i).task.refs p w)
    (hprocs : s'.processes = Function.update s.processes j q)
    (hpipes : s'.pipes = s.pipes.bumpTask (s.processes i).task)
    (hfit : ∀ p w, s.pipes.refs p w + (s.processes i).task.refs p w ≤ 2 ^ 31 - 1) :
    s.Books (fun _ _ => 0) s' := by
  obtain ⟨hsound, hrefs⟩ := h.sound.bumpTask (s.processes i).task (h.refs_le hi) hfit
  refine Books.of_update h (hpipes ▸ hsound) (by rw [hpipes]; simp) hprocs (fun p w hp => ?_) ?_
  · rw [liveRefs_of_live hq, htask, h.refs_eq_zero hp hi]
  · intro p w
    have hzero : (s.processes j).liveRefs p w = 0 := if_neg (by simp [Process.Live, hj])
    rw [hzero, liveRefs_of_live hq, htask, hpipes, hrefs, Nat.cast_zero, add_zero]

end Calls

/-! ### The books of a step -/

/-- Pipes and live references are the same. -/
def SameRefs (s s' : Kernel M) : Prop :=
  s'.pipes = s.pipes ∧
    ∀ i p w, (s'.processes i).liveRefs p w = (s.processes i).liveRefs p w

theorem SameRefs.refl (s : Kernel M) : s.SameRefs s := ⟨rfl, fun _ _ _ => rfl⟩

theorem SameRefs.trans {s t u : Kernel M} (hst : s.SameRefs t) (htu : t.SameRefs u) :
    s.SameRefs u :=
  ⟨htu.1.trans hst.1, fun i p w => (htu.2 i p w).trans (hst.2 i p w)⟩

variable {s s' : Kernel M}

/-- A change of one slot that keeps its live references. -/
theorem SameRefs.update {i : SlotId} {q : Process} (hpipes : s'.pipes = s.pipes)
    (hprocs : s'.processes = Function.update s.processes i q)
    (hq : ∀ p w, q.liveRefs p w = (s.processes i).liveRefs p w) : s.SameRefs s' := by
  refine ⟨hpipes, fun j p w => ?_⟩
  rw [hprocs]
  by_cases hj : j = i
  · subst hj
    rw [update_self, hq]
  · rw [update_of_ne hj]

theorem Books.congr {s s₁ s' : Kernel M} {leak : ℕ → Bool → ℕ} (hb : s.Books leak s₁)
    (hsame : s₁.SameRefs s') : s.Books leak s' := by
  obtain ⟨hpipes, hlive⟩ := hsame
  have hholders : ∀ p w, s'.holders p w = s₁.holders p w := fun p w =>
    tally_congr fun i => hlive i p w
  have hslack : ∀ p w, s'.slack p w = s₁.slack p w := fun p w => by
    rw [slack, slack, hholders, hpipes]
  refine ⟨hpipes ▸ hb.sound, ?_, hpipes ▸ hb.next_le, ?_, ?_⟩
  · simpa only [hholders, hpipes] using hb.known
  · simpa only [hslack] using hb.old
  · simpa only [hslack, hpipes] using hb.new

theorem SameRefs.books (h : s.Counted) (hsame : s.SameRefs s') :
    s.Books (fun _ _ => 0) s' :=
  (books_refl h).congr hsame

theorem parkedProcess_liveRefs (s : Kernel M) (t : Option SlotId) (i : SlotId) (p : ℕ) (w : Bool) :
    (s.parkedProcess t i).liveRefs p w = (s.processes i).liveRefs p w := by
  unfold parkedProcess
  split <;> rfl

theorem sameRefs_returnToKernel (h : s.returnToKernel = some s') :
    s.SameRefs s' := by
  obtain ⟨t, callerAs, outer, rest, k, -, rfl⟩ := returnToKernel_cases h
  rw [leaveDispatch_eq]
  exact ⟨rfl, s.parkedProcess_liveRefs (some t)⟩

theorem sameRefs_runUntilReturn {outer : Option SlotId} {rest : List Frame}
    {code : ℤ} (h : s.runUntilReturn outer rest code = some s') : s.SameRefs s' := by
  unfold runUntilReturn at h
  dsimp only at h
  split at h
  · exact some.inj h ▸ ⟨rfl, fun _ _ _ => rfl⟩
  · exact some.inj h ▸ ⟨rfl, fun _ _ _ => rfl⟩
  · cases h

section Memory

variable [MemoryOps M]

theorem sameRefs_reap {s : Kernel M} {i : SlotId} (hi : (s.processes i).state = .zombie) :
    s.SameRefs (s.reap i) := by
  obtain ⟨m, hm⟩ := s.reap_eq i
  rw [hm]
  refine SameRefs.update rfl rfl fun p w => ?_
  rw [Process.liveRefs, Process.liveRefs, if_neg (by simp [Process.Live]),
    if_neg (by simp [Process.Live, hi])]

theorem Reaps.sameRefs {s s' : Kernel M} (h : s.Reaps s') : s.SameRefs s' :=
  h.preserves (P := fun t => s.SameRefs t) (fun _ _ ht hi => ht.trans (sameRefs_reap hi))
    (SameRefs.refl s)

theorem sameRefs_pickAndDispatch (s : Kernel M) : s.SameRefs s.pickAndDispatch := by
  rcases s.pickAndDispatch_cases with heq | ⟨next, m, hnext, heq⟩
  · rw [heq]
    exact SameRefs.refl s
  · rw [heq]
    refine ⟨rfl, fun i p w => ?_⟩
    rw [← s.parkedProcess_liveRefs s.currentTask i]
    by_cases hi : i = next
    · have hparked := (s.parkedProcess_sameLife s.currentTask next).2.1.trans hnext
      simp [dispatchedProcess, hi, Process.liveRefs, Process.Live, hparked]
      rfl
    · simp [dispatchedProcess, hi]

theorem sameRefs_brkLoop (t : SlotId) (newEnd n : ℕ) (s : Kernel M) :
    s.SameRefs (brkLoop t newEnd n s).2 := by
  induction n generalizing s with
  | zero => exact SameRefs.refl s
  | succ n ih =>
    unfold brkLoop
    dsimp only
    split
    · split
      · exact ⟨rfl, fun _ _ _ => rfl⟩
      · refine SameRefs.trans ?_ (ih _)
        exact SameRefs.update rfl rfl (Process.liveRefs_congr (by simp only [Process.Live]) rfl rfl rfl)
    · exact SameRefs.refl s

theorem sameRefs_sysBrk (s : Kernel M) (newEnd : ℕ) : s.SameRefs (s.sysBrk newEnd).2 := by
  unfold sysBrk
  dsimp only
  repeat' split
  all_goals first
    | exact SameRefs.refl s
    | exact sameRefs_brkLoop _ _ _ s

/-- The references a step leaks: `use_as_stdio` forgets the standard pipes there were, a `fork` that
fails after its second step has counted a child that does not come to be, and a process that exits
or crashes does not close its open files. -/
def leaked (s : Kernel M) (e : Event) (p : ℕ) (w : Bool) : ℕ :=
  match e, s.inRing3 with
  | .user (.useAsStdio a b), some i =>
      if (s.sysUseAsStdio a b).1 = some 0 then (s.processes i).task.stdioRefs p w else 0
  | .user .fork, some i =>
      if s.allocSlot ≠ none ∧ (s.fork i).1 = none then (s.processes i).task.refs p w else 0
  | .user (.exit _), some i => (s.processes i).task.openRefs p w
  | .user .crash, some i => (s.processes i).task.openRefs p w
  | _, _ => 0

/-- A `fork` takes no count above the largest `i32`. -/
def CountsFit (s : Kernel M) (e : Event) : Prop :=
  e = .user .fork → ∀ i, s.inRing3 = some i →
    ∀ p w, s.pipes.refs p w + (s.processes i).task.refs p w ≤ 2 ^ 31 - 1

/-- Every step changes the slack of every end exactly by what it leaks. -/
theorem books_step {kas : AddrSpace} {own : SlotId → FpuState} {s s' : Kernel M} {e : Event}
    (hctx : Context kas s own) (h : s.Counted) (hfit : s.CountsFit e)
    (hstep : s.step e = some s') : s.Books (s.leaked e) s' := by
  have hring : ∀ {i}, s.inRing3 = some i → (s.processes i).Live := fun hi =>
    Or.inr (hctx.ring3_running hi)
  have htask : ∀ {i}, s.inRing3 = some i → s.currentTask = some i := fun hi => by
    rw [hctx.currentTask_eq, owner_of_executing (executing_of_inRing3 hi)]
  have hsame : ∀ {m : M}, s.Books (fun _ _ => 0) { s with mem := m } := fun {m} =>
    SameRefs.books h ⟨rfl, fun _ _ _ => rfl⟩
  cases step_cases hstep with
  | kernelAlloc size align m => exact hsame
  | kernelDealloc ptr size align m => exact hsame
  | spawnFailed image argv cwd m => exact hsame
  | spawned image argv cwd i img m hframes hslot hspawn =>
    refine SameRefs.books h (SameRefs.update rfl rfl fun p w => ?_)
    have hzero : (s.processes i).liveRefs p w = 0 :=
      if_neg (by simp [Process.Live, allocSlot_unused hslot])
    rw [hzero, liveRefs_of_live (Or.inl rfl)]
    exact Usertask.refs_eq_zero (fun _ => rfl) rfl rfl p w
  | runUntil hframes => exact SameRefs.books h ⟨rfl, fun _ _ _ => rfl⟩
  | roundGone pid outer rest s' hframes hpid hreturn =>
    exact SameRefs.books h (sameRefs_runUntilReturn hreturn)
  | roundReaped pid outer rest target s' hframes hpid hzombie hreturn =>
    exact SameRefs.books h ((sameRefs_reap hzombie).trans (sameRefs_runUntilReturn hreturn))
  | roundNested => exact SameRefs.books h s.sameRefs_pickAndDispatch
  | roundLast outer rest s₁ s' hframes hreaps hunused hreturn =>
    exact SameRefs.books h (hreaps.sameRefs.trans (sameRefs_runUntilReturn hreturn))
  | roundTop outer rest s₁ hframes hreaps hzombie =>
    exact SameRefs.books h (hreaps.sameRefs.trans s₁.sameRefs_pickAndDispatch)
  | waitReturn target status code rest m hframes =>
    exact SameRefs.books h ⟨rfl, fun _ _ _ => rfl⟩
  | orphan u i s' hi hcurrent =>
    rw [hctx.current_eq i (executing_of_inRing3 hi)] at hcurrent
    cases hcurrent
  | compute i fpu hi =>
    exact SameRefs.books h ⟨rfl, fun _ _ _ => rfl⟩
  | quiet u i s' hu hi hquiet =>
    have hlive : ∀ t, s.currentTask = some t → (s.processes t).Live := by
      intro t ht
      obtain rfl := some.inj (ht.symm.trans (htask hi))
      exact hring hi
    cases u with
    | store => exact some.inj hquiet ▸ hsame
    | pipe pipefd => exact some.inj hquiet ▸ books_sysPipe hlive h pipefd
    | close fd => exact some.inj hquiet ▸ books_sysClose hlive h fd
    | useAsStdio a b =>
      have hleak : s.leaked (.user (.useAsStdio a b)) = fun p w =>
          if (s.sysUseAsStdio a b).1 = some 0 then (s.processes i).task.stdioRefs p w else 0 := by
        funext p w
        simp [leaked, hi]
      rw [hleak]
      exact some.inj hquiet ▸ books_sysUseAsStdio hlive h (htask hi) a b
    | write fd data => exact some.inj hquiet ▸ books_sysWritePipe h fd data
    | read fd len => exact some.inj hquiet ▸ books_sysReadPipe h fd len
    | brk newEnd => exact some.inj hquiet ▸ SameRefs.books h (s.sameRefs_sysBrk newEnd)
    | compute | fork | execve | wait | schedYield | exit | crash | tick => exact hu.elim
  | forkFull i me hi hme hslot =>
    have hleak : s.leaked (.user .fork) = fun _ _ => 0 := by
      funext p w
      simp [leaked, hi, hslot]
    rw [hleak]
    exact books_refl h
  | forkFailed i me j m hi hme hslot hfork =>
    obtain rfl := hctx.me_eq hi hme
    have hleak : s.leaked (.user .fork) = fun p w => (s.processes me).task.refs p w := by
      funext p w
      simp [leaked, hi, hslot, hfork]
    rw [hleak]
    exact books_forkFailed h (hring hi) m _ (hfit rfl me hi)
  | forked i me j m pml4 top hi hme hslot hfork =>
    obtain rfl := hctx.me_eq hi hme
    have hleak : s.leaked (.user .fork) = fun _ _ => 0 := by
      funext p w
      simp [leaked, hi, hfork]
    rw [hleak]
    exact books_forked (q := s.forkedChild me pml4 top) h (hring hi) (allocSlot_unused hslot)
      (Or.inl rfl) (fun _ _ => rfl) rfl rfl (hfit rfl me hi)
  | execFailed => exact hsame
  | execed image argv i me img m s' hi hme hexec hreturn =>
    obtain rfl := hctx.me_eq hi hme
    refine SameRefs.books h (SameRefs.trans ?_ (sameRefs_returnToKernel hreturn))
    exact SameRefs.update (q := s.execedProcess me img) rfl rfl
      (Process.liveRefs_congr (iff_of_true (Or.inl rfl) (hring hi)) rfl rfl rfl)
  | waitRefused => exact books_refl h
  | waiting => exact SameRefs.books h ⟨rfl, fun _ _ _ => rfl⟩
  | suspended u i me s' hu hi hme hreturn =>
    obtain rfl := hctx.me_eq hi hme
    have hleak : s.leaked (.user u) = fun _ _ => 0 := by
      cases u with
      | schedYield | tick => rfl
      | _ => exact hu.elim
    rw [hleak]
    refine SameRefs.books h (SameRefs.trans ?_ (sameRefs_returnToKernel hreturn))
    exact SameRefs.update (q := s.suspendedProcess me) rfl rfl
      (Process.liveRefs_congr (iff_of_true (Or.inl rfl) (hring hi)) rfl rfl rfl)
  | stopped u i me code s' hu hi hme hreturn =>
    obtain rfl := hctx.me_eq hi hme
    have hleak : s.leaked (.user u) = fun p w => (s.processes me).task.openRefs p w := by
      funext p w
      cases u with
      | exit | crash => simp [leaked, hi]
      | _ => cases hu
    rw [hleak]
    exact (books_terminate h (hring hi) code).congr (sameRefs_returnToKernel hreturn)

end Memory

end Kernel

/-! ### Runs -/

section Runs

variable {M : Type} {kas : AddrSpace}

theorem Kernel.Counted.boot (m : M) (kas : AddrSpace) (root : ℕ) :
    (Kernel.boot m kas root).Counted := by
  have hholders : ∀ p w, (Kernel.boot m kas root).holders p w = 0 := fun p w =>
    tally_eq_zero.mpr fun i => if_neg (by simp [Process.Live, Kernel.boot, Process.empty])
  have hrefs : ∀ p w, (Kernel.boot m kas root).pipes.refs p w = 1 := by
    intro p w
    cases w <;> rfl
  refine ⟨⟨fun p w => ?_, fun p w => ?_, fun p => ?_⟩, fun p w => ?_, fun p w _ => hholders p w⟩
  · rw [hrefs]
    decide
  · rw [hrefs]
    decide
  · rw [hrefs, hrefs]
    rfl
  · rw [Kernel.slack, hholders, hrefs]
    decide

/-- With exact counts, no count can overflow: there are only so many places for references. -/
theorem Kernel.Counted.countsFit {s : Kernel M} (h : s.Counted)
    (hexact : ∀ p w, p < s.pipes.next → s.slack p w = 0) {i : SlotId}
    (hi : (s.processes i).Live) (p : ℕ) (w : Bool) :
    s.pipes.refs p w + (s.processes i).task.refs p w ≤ 2 ^ 31 - 1 := by
  rcases Nat.lt_or_ge p s.pipes.next with hlt | hge
  · have hslack := hexact p w hlt
    have hrefs := (s.processes i).task.refs_le p w
    have hholders : s.holders p w ≤ Fintype.card SlotId * 9 := by
      refine tally_le fun j => ?_
      unfold Process.liveRefs
      split
      · exact Usertask.refs_le _ p w
      · omega
    rw [Fintype.card_fin, maxProcesses] at hholders
    unfold Kernel.slack at hslack
    omega
  · have := h.sound.fits p w
    rw [h.refs_eq_zero hge hi]
    omega

variable [MemoryOps M]

theorem Kernel.Counted.of_reachable {s : Kernel M}
    (h : (kernelSystem M kas).Reachable Kernel.CountsFit s) : s.Counted := by
  refine h.invariant (P := Kernel.Counted) ?_ ?_
  · rintro s ⟨m, root, rfl⟩
    exact Kernel.Counted.boot m kas root
  · rintro s e s' hreach hcounted hfit hstep
    obtain ⟨own, hctx⟩ := Kernel.Context.exists_of_reachable hreach
    exact (Kernel.books_step hctx hcounted hfit hstep).counted hcounted

/-- In every run in which no reference count exceeds the largest `i32`, a pipe that a live process
refers to has been created and not been freed, the counts of both ends cover the references live
processes hold, and no pipe is freed twice. -/
theorem no_use_of_freed_pipe (s : Kernel M)
    (h : (kernelSystem M kas).Reachable Kernel.CountsFit s) :
    (∀ i, (s.processes i).Live → ∀ p w, 0 < (s.processes i).task.refs p w →
      p < s.pipes.next ∧ (s.pipes.cells p).frees = 0) ∧
    (∀ p w, (s.holders p w : ℤ) ≤ s.pipes.refs p w) ∧
    ∀ p, (s.pipes.cells p).frees ≤ 1 := by
  have hcounted := Kernel.Counted.of_reachable h
  refine ⟨fun i hi p w hpos => ⟨?_, ?_⟩, fun p w => ?_, fun p => ?_⟩
  · by_contra hp
    rw [hcounted.refs_eq_zero (Nat.le_of_not_lt hp) hi] at hpos
    exact absurd hpos (lt_irrefl 0)
  · have hle := hcounted.refs_le hi p w
    rw [hcounted.sound.frees_eq p, if_neg]
    rintro ⟨h0, h1⟩
    cases w <;> omega
  · have := hcounted.slack_nonneg p w
    unfold Kernel.slack at this
    omega
  · rw [hcounted.sound.frees_eq p]
    split <;> omega

/-- A process that has created a pipe. -/
theorem no_use_of_freed_pipe_created :
    ∃ s : Kernel EndlessMemory, 0 < (s.processes 0).task.refs 0 true ∧ s.holders 0 true = 1 ∧
      (s.pipes.cells 0).frees = 0 := by
  obtain ⟨s, hreach, hlive, hrefs, hholders⟩ := TransitionSystem.Reachable.exists_of_run
    Kernel.CountsFit (T := kernelSystem EndlessMemory ⟨0, 0⟩)
    (P := fun s => (s.processes 0).Live ∧ 0 < (s.processes 0).task.refs 0 true ∧
      s.holders 0 true = 1)
    (s := Kernel.boot ⟨1⟩ ⟨0, 0⟩ 0) ⟨⟨1⟩, 0, rfl⟩
    [.spawn [] [] none, .runUntil, .round, .user (.pipe 0)]
    (by simp [Kernel.CountsFit]) (by decide)
  exact ⟨s, hrefs, hholders, ((no_use_of_freed_pipe s hreach).1 0 hlive 0 true hrefs).2⟩

/-- A step that leaks nothing: a process that exits or crashes has no pipe among its open files, a
`fork` that fails after its second step has no reference to count, and `use_as_stdio` is called
without standard pipes. -/
def Kernel.DropsAll (s : Kernel M) (e : Event) : Prop :=
  (∀ i, (∃ code, e = .user (.exit code)) ∨ e = .user .crash → s.inRing3 = some i →
    ∀ j p w, (s.processes i).task.openFiles j ≠ .pipe p w) ∧
  (∀ i, e = .user .fork → s.inRing3 = some i → s.allocSlot ≠ none → (s.fork i).1 = none →
    ∀ p w, (s.processes i).task.refs p w = 0) ∧
  ∀ a b i, e = .user (.useAsStdio a b) → s.inRing3 = some i → (s.sysUseAsStdio a b).1 = some 0 →
    (s.processes i).task.stdinPipe = none ∧ (s.processes i).task.stdoutPipe = none

theorem Kernel.DropsAll.leaked_eq_zero {s : Kernel M} {e : Event} (h : s.DropsAll e) (p : ℕ)
    (w : Bool) : s.leaked e p w = 0 := by
  obtain ⟨hexit, hfork, hstdio⟩ := h
  have hopen : ∀ i, (∃ code, e = .user (.exit code)) ∨ e = .user .crash → s.inRing3 = some i →
      (s.processes i).task.openRefs p w = 0 := fun i he hi =>
    tally_eq_zero.mpr fun j => if_neg (hexit i he hi j p w)
  unfold Kernel.leaked
  split
  · rename_i a b i hi
    split
    · rename_i hok
      obtain ⟨hstdin, hstdout⟩ := hstdio a b i rfl hi hok
      simp [Usertask.stdioRefs, hstdin, hstdout]
    · rfl
  · rename_i i hi
    split
    · rename_i hfail
      exact hfork i rfl hi hfail.1 hfail.2 p w
    · rfl
  · rename_i code i hi
    exact hopen i (Or.inl ⟨code, rfl⟩) hi
  · rename_i i hi
    exact hopen i (Or.inr rfl) hi
  · rfl

theorem Kernel.Counted.exact_of_reachable {s : Kernel M}
    (h : (kernelSystem M kas).Reachable Kernel.DropsAll s) :
    s.Counted ∧ ∀ p w, p < s.pipes.next → s.slack p w = 0 := by
  refine h.invariant (P := fun s => s.Counted ∧ ∀ p w, p < s.pipes.next → s.slack p w = 0) ?_ ?_
  · rintro s ⟨m, root, rfl⟩
    exact ⟨Kernel.Counted.boot m kas root, fun p w hp => absurd hp (Nat.not_lt_zero p)⟩
  · rintro s e s' hreach ⟨hcounted, hexact⟩ hdrops hstep
    obtain ⟨own, hctx⟩ := Kernel.Context.exists_of_reachable hreach
    have hbooks := Kernel.books_step hctx hcounted
      (fun _ i hi => hcounted.countsFit hexact (Or.inr (hctx.ring3_running hi))) hstep
    refine ⟨hbooks.counted hcounted, fun p w hp => ?_⟩
    rcases Nat.lt_or_ge p s.pipes.next with hlt | hge
    · rw [hbooks.old p w hlt, hexact p w hlt, hdrops.leaked_eq_zero]
      rfl
    · exact hbooks.new p w hge hp

/-- In every run whose steps leak nothing, the counts of both ends of every pipe are exactly the
references live processes hold; once no live process holds the write end, a read of the drained
pipe reports the end of the file; and the pipe is freed once nobody holds either end. -/
theorem pipe_counts_exact (s : Kernel M)
    (h : (kernelSystem M kas).Reachable Kernel.DropsAll s) :
    ∀ p, p < s.pipes.next →
      (s.pipes.cells p).pipe.writeRefs = s.holders p true ∧
      (s.pipes.cells p).pipe.readRefs = s.holders p false ∧
      (s.holders p true = 0 → (s.pipes.cells p).pipe.count = 0 →
        ∀ len, ((s.pipes.cells p).pipe.read len).1 = none) ∧
      (s.holders p true = 0 → s.holders p false = 0 → (s.pipes.cells p).frees = 1) := by
  intro p hp
  obtain ⟨hcounted, hexact⟩ := Kernel.Counted.exact_of_reachable h
  have hwrite : (s.pipes.cells p).pipe.writeRefs = s.holders p true :=
    Int.sub_eq_zero.mp (hexact p true hp)
  have hread : (s.pipes.cells p).pipe.readRefs = s.holders p false :=
    Int.sub_eq_zero.mp (hexact p false hp)
  refine ⟨hwrite, hread, fun hnone hcount len => ?_, fun hnone hnone' => ?_⟩
  · rw [hnone] at hwrite
    simp [Pipe.read, hcount, hwrite]
  · rw [hcounted.sound.frees_eq p, if_pos]
    rw [hnone] at hwrite
    rw [hnone'] at hread
    exact ⟨hread, hwrite⟩

/-- A pipe whose write end has been closed. -/
theorem pipe_counts_exact_closed :
    ∃ s : Kernel EndlessMemory, 0 < s.pipes.next ∧ s.holders 0 true = 0 ∧
      ((s.pipes.cells 0).pipe.read 1).1 = none := by
  obtain ⟨s, hreach, hnext, hholders, hcount⟩ := TransitionSystem.Reachable.exists_of_run
    Kernel.DropsAll (T := kernelSystem EndlessMemory ⟨0, 0⟩)
    (P := fun s => 0 < s.pipes.next ∧ s.holders 0 true = 0 ∧ (s.pipes.cells 0).pipe.count = 0)
    (s := Kernel.boot ⟨1⟩ ⟨0, 0⟩ 0) ⟨⟨1⟩, 0, rfl⟩
    [.spawn [] [] none, .runUntil, .round, .user (.pipe 0), .user (.close 4)]
    (by simp [Kernel.DropsAll]) (by decide)
  exact ⟨s, hnext, hholders, (pipe_counts_exact s hreach 0 hnext).2.2.1 hholders hcount 1⟩

/-- A process forks a child that inherits both ends of a pipe, closes its own write end and waits
for the child, which exits without closing anything.  Nobody holds the write end any more, but a
read of the empty pipe still answers "nothing yet". -/
theorem pipe_counts_phantom :
    ∃ s : Kernel EndlessMemory,
      (kernelSystem EndlessMemory ⟨0, 0⟩).Reachable TransitionSystem.anyStep s ∧
      0 < s.pipes.next ∧ s.holders 0 true = 0 ∧ (s.pipes.cells 0).pipe.writeRefs = 1 ∧
      (s.pipes.cells 0).pipe.count = 0 ∧ ((s.pipes.cells 0).pipe.read 1).1 = some [] :=
  (kernelSystem EndlessMemory ⟨0, 0⟩).exists_of_run (s := Kernel.boot ⟨1⟩ ⟨0, 0⟩ 0) ⟨⟨1⟩, 0, rfl⟩
    [.spawn [] [] none, .runUntil, .round, .user (.pipe 0), .user .fork, .user (.close 4),
      .user (.wait 2 0), .round, .user (.exit 0), .round, .waitReturn]
    (by decide)

end Runs

end AnssOS
