import AnssOS.Exec.Wait

/-!
# The status of a process that has ended

A process that has ended stays in the table, with its exit status, until it is reaped.  Two loops
do that: the loop of its parent's `wait`, which delivers the status, and the outermost loop, which
reaps every zombie it sees, whoever its parent is.  `KeepsStatus` is the condition that the
outermost loop finds no zombie with a live parent, and that pids do not wrap around; under it
`exit_status_delivered` follows a child from the `fork` that makes it to the `wait` that returns
its status, and `exit_status_lost` is a run in which the outermost loop comes first.
-/

namespace AnssOS

open List Option Function

namespace Kernel

variable {M : Type}

/-- The process in the slot `i` is alive, and the one in the slot `j` is a child of it. -/
def IsChild (s : Kernel M) (i j : SlotId) : Prop :=
  (s.processes i).Live ∧ (s.processes j).state ≠ .unused ∧
    (s.processes j).parentPid = (s.processes i).pid

instance (s : Kernel M) (i j : SlotId) : Decidable (s.IsChild i j) :=
  inferInstanceAs (Decidable (_ ∧ _))

/-- The outermost loop makes no round while there is a zombie with a live parent, and pids do not
wrap around. -/
def KeepsStatus (s : Kernel M) : Event → Prop
  | .round => ∀ outer, s.frames = [.runUntil none outer] →
      ∀ i j, s.IsChild i j → (s.processes j).state ≠ .zombie
  | .spawn _ _ _ => s.nextPid < 2 ^ 31 - 1
  | .user .fork => s.nextPid < 2 ^ 31 - 1
  | _ => True

instance (s : Kernel M) (e : Event) : Decidable (s.KeepsStatus e) := by
  unfold KeepsStatus
  split <;> infer_instance

/-- Pids are positive and pairwise different, and every wait is for a child of the waiter. -/
structure Families (s : Kernel M) : Prop where
  nextPid_pos : 1 ≤ s.nextPid
  pid_bounds : ∀ i, (s.processes i).state ≠ .unused →
    1 ≤ (s.processes i).pid ∧ (s.processes i).pid < s.nextPid
  pid_inj : ∀ i j, (s.processes i).state ≠ .unused → (s.processes j).state ≠ .unused →
    (s.processes i).pid = (s.processes j).pid → i = j
  waits : ∀ w ∈ pendingWaits s.frames, ∃ j, (s.processes j).state ≠ .unused ∧
    (s.processes j).pid = w.2 ∧ (s.processes j).parentPid = (s.processes w.1).pid

variable {kas : AddrSpace} {s s' : Kernel M} {own : SlotId → FpuState}

/-! ### Waiters -/

/-- The wait of `i` for `pid` returns. -/
def WaitReturns (s s' : Kernel M) (i : SlotId) (pid : ℤ) : Prop :=
  ∃ status code rest, s.frames = .runUntil (some pid) (some i) :: .wait pid status :: rest ∧
    s'.frames = .waitDone pid status code :: rest

variable {i j p : SlotId}

theorem Delivers.waitReturns (h : s.Delivers s' i j) :
    s.WaitReturns s' i (s.processes j).pid := by
  obtain ⟨status, rest, hs, hs'⟩ := h
  exact ⟨status, _, rest, hs, hs'⟩

theorem Context.waiter_running (hctx : Context kas s own) {w : SlotId × ℤ}
    (hw : w ∈ pendingWaits s.frames) : (s.processes w.1).state = .running :=
  (hctx.running_iff w.1).mpr
    (hctx.stack.waiters_sublist.1.subset (List.mem_map_of_mem hw))

/-- The wait that returns is the innermost one. -/
theorem Context.pendingWaits_delivers (hctx : Context kas s own)
    (h : s.Delivers s' p i) :
    pendingWaits s.frames = (p, (s.processes i).pid) :: pendingWaits s'.frames := by
  obtain ⟨status, rest, hs, hs'⟩ := h
  have hstack := hctx.stack
  rw [hs] at hstack
  cases hstack with
  | wait => rw [hs, hs']; rfl

theorem Families.byPid_eq (hfam : s.Families)
    (hj : (s.processes j).state ≠ .unused) : s.byPid (s.processes j).pid = some j := by
  obtain ⟨k, -, hk⟩ := exists_byPid hj
  obtain rfl := hfam.pid_inj k j (byPid_spec hk).1 hj (byPid_spec hk).2
  exact hk

theorem Families.findChild_eq (hfam : s.Families) (hchild : s.IsChild i j) :
    s.findChild (s.processes i).pid (some (s.processes j).pid) = some j := by
  obtain ⟨-, hj, hparent⟩ := hchild
  simp [findChild, hfam.byPid_eq hj, hparent]

theorem Context.delivers_running (hctx : Context kas s own)
    (h : s.Delivers s' p i) : (s.processes p).state = .running := by
  refine hctx.waiter_running (w := (p, (s.processes i).pid)) ?_
  rw [hctx.pendingWaits_delivers h]
  exact mem_cons_self

/-- The waiter that a child's status is delivered to is its parent. -/
theorem Families.parent_of_delivers (hfam : s.Families) (hctx : Context kas s own)
    (hj : (s.processes j).state ≠ .unused) (h : s.Delivers s' p j) :
    (s.processes j).parentPid = (s.processes p).pid := by
  have hmem : (p, (s.processes j).pid) ∈ pendingWaits s.frames := by
    rw [hctx.pendingWaits_delivers h]
    exact mem_cons_self
  obtain ⟨k, hk, hpid, hparent⟩ := hfam.waits _ hmem
  obtain rfl := hfam.pid_inj k j hk hj hpid
  exact hparent

/-! ### Pids -/

theorem wrapI32_succ_ne (x : ℤ) : wrapI32 (x + 1) ≠ x := by
  unfold wrapI32 Int.bmod
  dsimp only
  split <;> omega

theorem runUntilReturn_nextPid {outer : Option SlotId} {rest : List Frame} {code : ℤ}
    (h : s.runUntilReturn outer rest code = some s') : s'.nextPid = s.nextPid := by
  unfold runUntilReturn at h
  dsimp only at h
  split at h
  · exact some.inj h ▸ rfl
  · exact some.inj h ▸ rfl
  · cases h

theorem returnToKernel_nextPid (h : s.returnToKernel = some s') : s'.nextPid = s.nextPid := by
  obtain ⟨t, callerAs, outer, rest, k, -, rfl⟩ := returnToKernel_cases h
  rw [leaveDispatch_eq]

section Memory

variable [MemoryOps M]

theorem reap_nextPid (s : Kernel M) (i : SlotId) : (s.reap i).nextPid = s.nextPid := by
  obtain ⟨m, hm⟩ := s.reap_eq i
  rw [hm]

theorem Reaps.nextPid (h : s.Reaps s') : s'.nextPid = s.nextPid :=
  h.preserves (P := fun t => t.nextPid = s.nextPid) (fun t i ht _ => (t.reap_nextPid i).trans ht) rfl

theorem pickAndDispatch_nextPid (s : Kernel M) : s.pickAndDispatch.nextPid = s.nextPid := by
  rcases s.pickAndDispatch_cases with heq | ⟨next, m, -, heq⟩ <;> rw [heq]

variable {e : Event} {i j : SlotId}

/-- A pid is handed out only to a new process. -/
theorem Context.nextPid_step (hctx : Context kas s own) (hstep : s.step e = some s')
    (hguard : s.KeepsStatus e) :
    s'.nextPid = s.nextPid ∨ s'.nextPid = wrapI32 (s.nextPid + 1) ∧ s.nextPid < 2 ^ 31 - 1 := by
  cases step_cases hstep with
  | kernelAlloc | kernelDealloc | spawnFailed | runUntil | waitReturn | compute | forkFull |
    forkFailed | execFailed | waitRefused | waiting => exact Or.inl rfl
  | spawned | forked => exact Or.inr ⟨rfl, hguard⟩
  | roundGone pid outer rest s' hframes hpid hreturn =>
    exact Or.inl (runUntilReturn_nextPid hreturn)
  | roundReaped pid outer rest target s' hframes hpid hzombie hreturn =>
    exact Or.inl ((runUntilReturn_nextPid hreturn).trans (s.reap_nextPid target))
  | roundNested => exact Or.inl s.pickAndDispatch_nextPid
  | roundLast outer rest s₁ s' hframes hreaps hunused hreturn =>
    exact Or.inl ((runUntilReturn_nextPid hreturn).trans hreaps.nextPid)
  | roundTop outer rest s₁ hframes hreaps hzombie =>
    exact Or.inl (s₁.pickAndDispatch_nextPid.trans hreaps.nextPid)
  | orphan u p s' hring hcurrent =>
    rw [hctx.current_eq p (executing_of_inRing3 hring)] at hcurrent
    cases hcurrent
  | quiet u p s' hu hring hquiet => exact Or.inl (by rw [(userStep_quiet hu hquiet).1])
  | execed image argv p me img m s' hring hme hexec hreturn =>
    exact Or.inl ((returnToKernel_nextPid hreturn).trans rfl)
  | suspended u p me s' hu hring hme hreturn =>
    exact Or.inl ((returnToKernel_nextPid hreturn).trans rfl)
  | stopped u p me code s' hu hring hme hreturn =>
    rw [terminate_eq] at hreturn
    exact Or.inl ((returnToKernel_nextPid hreturn).trans rfl)

/-- A slot in use was in use before, with the same pid and parent, or its process is new. -/
theorem Context.slot_step (hctx : Context kas s own) (hstep : s.step e = some s')
    (hi : (s'.processes i).state ≠ .unused) :
    ((s.processes i).state ≠ .unused ∧ (s.processes i).SameIds (s'.processes i)) ∨
      s.Creates s' i := by
  cases hctx.lifeStep hstep i with
  | same h => exact Or.inl ⟨h.2.1 ▸ hi, h.1⟩
  | born h => exact Or.inr h
  | dispatched hp hids _ | suspended hp hids _ | stopped _ hp hids _ =>
    exact Or.inl ⟨by rw [hp]; decide, hids⟩
  | reaped _ _ hq => exact absurd hq hi

/-! ### The waits under way, along a step -/

/-- A wait is under way after a step if it was before, or if it starts with this step. -/
theorem Context.pendingWaits_step (hctx : Context kas s own)
    (hstep : s.step e = some s') {w : SlotId × ℤ} (hw : w ∈ pendingWaits s'.frames) :
    w ∈ pendingWaits s.frames ∨ s'.processes = s.processes ∧ ∃ j,
      (s.processes j).state ≠ .unused ∧ (s.processes j).pid = w.2 ∧
      (s.processes j).parentPid = (s.processes w.1).pid := by
  cases hctx.frameStep hstep with
  | same h => exact Or.inl (h ▸ hw)
  | start _ h | finish _ _ _ h => simp [h, pendingWaits] at hw
  | enter _ _ _ _ _ _ _ _ h =>
    rw [h] at hw
    exact Or.inl hw
  | leave _ _ _ _ _ hs _ | waitReturn _ _ _ hs =>
    rw [hs]
    exact Or.inl hw
  | wait p child status hring hused hchild hprocs h =>
    have howner := owner_of_executing (executing_of_inRing3 hring)
    rw [h] at hw
    simp only [pendingWaits, howner, mem_cons] at hw
    rcases hw with rfl | hw
    · exact Or.inr ⟨hprocs, child, hused, rfl, hchild⟩
    · exact Or.inl hw
  | gone _ _ _ _ hs _ h | waitDone _ _ _ _ _ hs _ _ _ h =>
    rw [h] at hw
    rw [hs]
    exact Or.inl (mem_pendingWaits_append [_, _] hw)

theorem Families.step (hfam : s.Families) (hctx : Context kas s own)
    (hguard : s.KeepsStatus e) (hstep : s.step e = some s') : s'.Families := by
  have hnext : s'.nextPid = s.nextPid ∨ s'.nextPid = s.nextPid + 1 := by
    rcases hctx.nextPid_step hstep hguard with h | ⟨h, hlt⟩
    · exact Or.inl h
    · have := hfam.nextPid_pos
      exact Or.inr (h.trans (wrapI32_of_fits (by omega) (by omega)))
  have hcreates : ∀ {i}, s.Creates s' i → s'.nextPid = s.nextPid + 1 := by
    rintro i ⟨-, h, -⟩
    exact hnext.resolve_left fun hsame => wrapI32_succ_ne _ (h.symm.trans hsame)
  refine ⟨?_, fun i hi => ?_, fun i j hi hj hpid => ?_, fun w hw => ?_⟩
  · have := hfam.nextPid_pos
    omega
  · have := hfam.nextPid_pos
    rcases hctx.slot_step hstep hi with ⟨hused, hids⟩ | hnew
    · have := hfam.pid_bounds i hused
      rw [hids.1]
      omega
    · rw [hnew.1, hcreates hnew]
      omega
  · -- the pid of a new process is above all others
    have hdiff : ∀ {k l}, s.Creates s' k → (s'.processes l).state ≠ .unused →
        (s'.processes k).pid = (s'.processes l).pid → k = l := by
      intro k l hnew hl hpid
      by_contra hkl
      have hsame : s'.processes l = s.processes l := hnew.2.2.2 l (Ne.symm hkl)
      rw [hsame] at hl hpid
      have := (hfam.pid_bounds l hl).2
      rw [← hpid, hnew.1] at this
      exact lt_irrefl _ this
    rcases hctx.slot_step hstep hi with ⟨hi₀, hidi⟩ | hnew
    · rcases hctx.slot_step hstep hj with ⟨hj₀, hidj⟩ | hnew
      · rw [hidi.1, hidj.1] at hpid
        exact hfam.pid_inj i j hi₀ hj₀ hpid
      · exact (hdiff hnew hi hpid.symm).symm
    · exact hdiff hnew hj hpid
  · rcases hctx.pendingWaits_step hstep hw with hw₀ | ⟨hprocs, hchild⟩
    · obtain ⟨j, hj, hpid, hparent⟩ := hfam.waits w hw₀
      have hw₁ := hctx.waiter_running hw₀
      have hidw : (s.processes w.1).SameIds (s'.processes w.1) :=
        (hctx.lifeStep hstep w.1).sameIds (by rw [hw₁]; decide)
          ((hctx.lifeStep hstep w.1).ne_unused (Or.inr hw₁))
      refine ⟨j, ?_⟩
      by_cases hj' : (s'.processes j).state = .unused
      · -- the child is reaped: by the outermost loop, where nobody waits, or by a wait, which is
        -- then the one that ends
        obtain ⟨-, -, htop | ⟨p, hdel⟩⟩ := (hctx.lifeStep hstep j).reaped_of_unused hj hj'
        · simp [htop, pendingWaits] at hw₀
        · have hp := hctx.delivers_running hdel
          have heq : w.1 = p := hfam.pid_inj w.1 p (by rw [hw₁]; decide) (by rw [hp]; decide)
            (hparent.symm.trans (hfam.parent_of_delivers hctx hj hdel))
          have hnodup := hctx.stack.waiters_sublist.1.nodup hctx.nodup
          rw [hctx.pendingWaits_delivers hdel, map_cons, nodup_cons] at hnodup
          have hmem := List.mem_map_of_mem (f := Prod.fst) hw
          rw [heq] at hmem
          exact absurd hmem hnodup.1
      · have hids := (hctx.lifeStep hstep j).sameIds hj hj'
        exact ⟨hj', hids.1.trans hpid, by rw [hids.2, hparent, hidw.1]⟩
    · rw [hprocs]
      exact hchild

/-! ### The life of a child -/

/-- A child of a live process stays where it is until its parent's wait returns. -/
theorem Families.child_step (hfam : s.Families) (hctx : Context kas s own)
    (hguard : s.KeepsStatus e) (hstep : s.step e = some s')
    (hchild : s.IsChild i j) (hdel : ¬ s.Delivers s' i j) :
    (s'.processes j).state ≠ .unused ∧ (s.processes j).SameIds (s'.processes j) := by
  obtain ⟨hi, hj, hparent⟩ := hchild
  have hj' : (s'.processes j).state ≠ .unused := by
    intro hj'
    obtain ⟨hz, rfl, htop | ⟨p, h⟩⟩ := (hctx.lifeStep hstep j).reaped_of_unused hj hj'
    · exact hguard none htop i j ⟨hi, hj, hparent⟩ hz
    · have heq : p = i := hfam.pid_inj p i (by rw [hctx.delivers_running h]; decide)
        hi.ne_unused
        ((hfam.parent_of_delivers hctx hj h).symm.trans hparent)
      exact hdel (heq ▸ h)
  exact ⟨hj', (hctx.lifeStep hstep j).sameIds hj hj'⟩

/-- A zombie that is not reaped keeps its exit status. -/
theorem Context.zombie_step (hctx : Context kas s own) (hstep : s.step e = some s')
    (hz : (s.processes j).state = .zombie) (hj : (s'.processes j).state ≠ .unused) :
    (s.processes j).SameLife (s'.processes j) := by
  cases hctx.lifeStep hstep j with
  | same h => exact h
  | born _ h _ | dispatched h _ _ | suspended h _ _ | stopped _ h _ _ => rw [hz] at h; cases h
  | reaped _ _ h => exact absurd h hj

/-- A step throughout which the process in the slot `i` is alive, and in which it does not return
from a wait for `pid`. -/
def Meanwhile (i : SlotId) (pid : ℤ) (s s' : Kernel M) : Prop :=
  ∃ e, s.KeepsStatus e ∧ s.step e = some s' ∧ (s.processes i).Live ∧ (s'.processes i).Live ∧
    ¬ s.WaitReturns s' i pid

/-- The process in ring 3 calls `wait`, which returns `pid` and stores the status `code`. -/
def WaitDelivers (s : Kernel M) (arg status : ℕ) (pid code : ℤ) : Prop :=
  (s.sysWait arg status).1 = some pid ∧ ∃ s₁ s₂,
    s.step (.user (.wait arg status)) = some s₁ ∧ s₁.step .round = some s₂ ∧
    s₂.step .waitReturn = some { s₂ with
      frames := s.frames
      mem := if status ≠ 0 ∧ userOk status 4 then
          MemoryOps.storeUser s₂.mem s.cr3.pml4Phys status (i32Bytes code)
        else s₂.mem }

/-- A call of `wait` for a zombie child delivers its exit status. -/
theorem Families.waitDelivers (hfam : s.Families) (hctx : Context kas s own)
    (hring : s.inRing3 = some i) (hchild : s.IsChild i j)
    (hz : (s.processes j).state = .zombie) {arg : ℕ} (harg : wrapI32 arg = (s.processes j).pid)
    (status : ℕ) : s.WaitDelivers arg status (s.processes j).pid (s.processes j).exitStatus := by
  have hcurrent := hctx.current_eq i (executing_of_inRing3 hring)
  have hpid : ((some (wrapI32 arg)).filter fun pid => 0 ≤ pid) = some (s.processes j).pid := by
    have hpos := (hfam.pid_bounds j hchild.2.1).1
    rw [harg, filter_some, if_pos (by simp; omega)]
  have hfind := hfam.findChild_eq hchild
  have hwait : s.sysWait arg status = (some (s.processes j).pid,
      { s with frames := .runUntil (some (s.processes j).pid) (some i) ::
          .wait (s.processes j).pid status :: s.frames }) := by
    rw [sysWait, hpid, waitFor]
    simp only [hcurrent, hfind]
  obtain ⟨callerAs, outer, rest, hs⟩ := inRing3_eq_some.mp hring
  obtain ⟨s₁, hs₁⟩ : ∃ s₁, s₁ = { s with
      frames := .runUntil (some (s.processes j).pid) (some i) ::
        .wait (s.processes j).pid status :: s.frames } := ⟨_, rfl⟩
  rw [← hs₁] at hwait
  have hbyPid : s₁.byPid (s.processes j).pid = some j := by
    rw [hs₁]
    exact hfam.byPid_eq hchild.2.1
  have hround : s₁.step .round = (s₁.reap j).runUntilReturn (some i)
      (.wait (s.processes j).pid status :: s.frames) (s.processes j).exitStatus := by
    have hz₁ : (s₁.processes j).state = .zombie := by rw [hs₁]; exact hz
    have hstatus : (s₁.processes j).exitStatus = (s.processes j).exitStatus := by rw [hs₁]
    have hframes₁ : s₁.frames = .runUntil (some (s.processes j).pid) (some i) ::
        .wait (s.processes j).pid status :: s.frames := by rw [hs₁]
    simp only [Kernel.step, runUntilRound, hframes₁, hbyPid, hz₁, if_true, hstatus]
  have hcr3 : (s₁.reap j).cr3 = s.cr3 := by
    obtain ⟨m, hm⟩ := s₁.reap_eq j
    rw [hm, hs₁]
  refine ⟨by rw [hwait], s₁, _, ?_, hround, ?_⟩
  · simp only [Kernel.step, hs, userStep, hwait]
  · simp only [Kernel.step, hcr3]

/-- What a wait returns is the exit status of a child. -/
theorem Families.waitReturns (hfam : s.Families) (hctx : Context kas s own)
    (hstep : s.step e = some s') {pid : ℤ} (h : s.WaitReturns s' i pid) :
    ∃ j, s.IsChild i j ∧ (s.processes j).pid = pid ∧ (s.processes j).state = .zombie ∧
      s.Delivers s' i j := by
  obtain ⟨status, code, rest, hs, hs'⟩ := h
  cases hctx.frameStep hstep with
  | gone target p status' rest' hs₀ hpid h' =>
    -- the waiter's child would be in the table
    have hmem : (p, target) ∈ pendingWaits s.frames := by
      have hstack := hctx.stack
      rw [hs₀] at hstack ⊢
      cases hstack with
      | wait => exact mem_cons_self
    obtain ⟨j, hj, rfl, -⟩ := hfam.waits _ hmem
    rw [hfam.byPid_eq hj] at hpid
    cases hpid
  | waitDone target p j status' rest' hs₀ hpid hz hprocs h' =>
    obtain ⟨hj, hpidj⟩ := byPid_spec hpid
    rw [hs] at hs₀
    cases hs₀
    have hdel : s.Delivers s' i j := ⟨status, rest, by rw [hpidj, hs], by rw [hpidj, h']⟩
    exact ⟨j, ⟨Or.inr (hctx.delivers_running hdel), hj, hfam.parent_of_delivers hctx hj hdel⟩,
      hpidj, hz, hdel⟩
  | same h' => simp [hs, hs'] at h'
  | start h' => simp [hs] at h'
  | enter _ _ _ _ _ _ _ _ h' => simp [hs'] at h'
  | wait _ _ _ _ _ _ _ h' => simp [hs'] at h'
  | finish _ _ _ h' => simp [hs'] at h'
  | leave _ _ _ _ _ h' => simp [hs] at h'
  | waitReturn _ _ _ h' => simp [hs] at h'

/-- A successful `fork` makes a child. -/
theorem Context.fork_isChild (hctx : Context kas s own) {pid : ℤ}
    (hring : s.inRing3 = some i) (hfork : (s.fork i).1 = some pid)
    (hstep : s.step (.user .fork) = some s') :
    ∃ j, s'.IsChild i j ∧ (s'.processes j).pid = pid := by
  have hcurrent := hctx.current_eq i (executing_of_inRing3 hring)
  obtain ⟨callerAs, outer, rest, hs⟩ := inRing3_eq_some.mp hring
  simp only [Kernel.step, hs, userStep, hcurrent, Option.some.injEq] at hstep
  rcases s.fork_cases i with ⟨-, heq⟩ | ⟨_, _, -, heq⟩ | ⟨j, m, pml4, top, hslot, heq⟩
  · rw [heq] at hfork
    cases hfork
  · rw [heq] at hfork
    cases hfork
  · have hrunning := hctx.ring3_running hring
    have hij : i ≠ j := by
      rintro rfl
      rw [allocSlot_unused hslot] at hrunning
      cases hrunning
    rw [heq] at hfork hstep
    obtain rfl := some.inj hfork
    have hi : s'.processes i = s.processes i := by
      rw [← hstep]
      exact update_of_ne hij _ _
    have hj : s'.processes j = s.forkedChild i pml4 top := by
      rw [← hstep]
      exact update_self _ _ _
    exact ⟨j, ⟨Or.inr (hi ▸ hrunning), by simp [hj, forkedChild], by simp [hi, hj, forkedChild]⟩,
      by simp [hj, forkedChild]⟩

/-- A process that stops becomes a zombie with the status it stops with. -/
theorem Context.stop_zombie (hctx : Context kas s own) {u : UserEvent} {code : ℤ}
    (hring : s.inRing3 = some j) (hu : u.exitCode = some code)
    (hstep : s.step (.user u) = some s') :
    (s'.processes j).state = .zombie ∧ (s'.processes j).exitStatus = code ∧
      (s.processes j).SameIds (s'.processes j) := by
  have hcurrent := hctx.current_eq j (executing_of_inRing3 hring)
  obtain ⟨callerAs, outer, rest, hs⟩ := inRing3_eq_some.mp hring
  have hreturn : (s.terminate j code).returnToKernel = some s' := by
    cases u with
    | exit | crash =>
      obtain rfl := some.inj hu
      simpa only [Kernel.step, hs, userStep, stopCurrent, hcurrent] using hstep
    | _ => cases hu
  rw [terminate_eq] at hreturn
  obtain ⟨⟨hpid, hparent⟩, hstate, hexit⟩ := returnToKernel_sameLife hreturn j
  simp only [update_self, terminatedProcess] at hpid hparent hstate hexit
  exact ⟨hstate, hexit, hpid, hparent⟩

end Memory

end Kernel

/-! ### Runs -/

section Runs

variable {M : Type} [MemoryOps M] {kas : AddrSpace} {s : Kernel M}

theorem Kernel.Families.of_reachable (h : (kernelSystem M kas).Reachable Kernel.KeepsStatus s) :
    s.Families := by
  refine h.invariant (P := Kernel.Families) ?_ ?_
  · rintro s ⟨m, root, rfl⟩
    constructor <;> simp [Kernel.boot, Process.empty, pendingWaits]
  · rintro s e s' hreach hfam hguard hstep
    obtain ⟨own, hctx⟩ := Kernel.Context.exists_of_reachable hreach
    exact hfam.step hctx hguard hstep

/-- As long as its parent is alive and its wait for the child has not returned, the child stays in
its slot, and once it is a zombie it keeps its exit status. -/
theorem child_meanwhile (h : (kernelSystem M kas).Reachable Kernel.KeepsStatus s) {i j : SlotId}
    (hchild : s.IsChild i j) {t : Kernel M}
    (hpath : Relation.ReflTransGen (Kernel.Meanwhile i (s.processes j).pid) s t) :
    (kernelSystem M kas).Reachable Kernel.KeepsStatus t ∧ t.IsChild i j ∧
      (s.processes j).SameIds (t.processes j) ∧
      ((s.processes j).state = .zombie → (s.processes j).SameLife (t.processes j)) := by
  induction hpath with
  | refl => exact ⟨h, hchild, ⟨rfl, rfl⟩, fun _ => .refl _⟩
  | @tail t t' _ hstep ih =>
    obtain ⟨hreach, hchild', hids, hlife⟩ := ih
    obtain ⟨e, hguard, hstep, hi, hi', hwait⟩ := hstep
    obtain ⟨own, hctx⟩ := Kernel.Context.exists_of_reachable hreach
    have hdel : ¬ t.Delivers t' i j := fun hdel => hwait (hids.1 ▸ hdel.waitReturns)
    obtain ⟨hj', hids'⟩ :=
      (Kernel.Families.of_reachable hreach).child_step hctx hguard hstep hchild' hdel
    have hidi := (hctx.lifeStep hstep i).sameIds hi.ne_unused hi'.ne_unused
    refine ⟨hreach.step hguard hstep, ⟨hi', hj', ?_⟩, ⟨hids'.1.trans hids.1, hids'.2.trans hids.2⟩,
      fun hz => ?_⟩
    · rw [hids'.2, hchild'.2.2, hidi.1]
    · have hlife₀ := hlife hz
      have hlife' := hctx.zombie_step hstep (hlife₀.2.1.trans hz) hj'
      exact ⟨⟨hids'.1.trans hids.1, hids'.2.trans hids.2⟩, hlife'.2.1.trans hlife₀.2.1,
        hlife'.2.2.trans hlife₀.2.2⟩

/-- In every run in which the outermost loop finds no zombie with a live parent: such a zombie is
reaped by its parent's wait only; a wait returns the exit status of a child of the waiter; and if a
process forks a child, the child ends, and the parent, alive all the time, calls `wait` for it for
the first time, then this returns the pid and the status of the child. -/
theorem exit_status_delivered (s : Kernel M)
    (h : (kernelSystem M kas).Reachable Kernel.KeepsStatus s) :
    (∀ e s' i j, s.KeepsStatus e → s.step e = some s' → s.IsChild i j →
      (s.processes j).state = .zombie →
      s.Delivers s' i j ∨ (s.processes j).SameLife (s'.processes j)) ∧
    (∀ e s' i pid, s.step e = some s' → s.WaitReturns s' i pid →
      ∃ j, s.IsChild i j ∧ (s.processes j).pid = pid ∧ (s.processes j).state = .zombie ∧
        s.Delivers s' i j) ∧
    ∀ i pid s₁, s.inRing3 = some i → s.KeepsStatus (.user .fork) → (s.fork i).1 = some pid →
      s.step (.user .fork) = some s₁ → ∃ j, s₁.IsChild i j ∧ (s₁.processes j).pid = pid ∧
        ∀ (s₂ s₃ s₄ : Kernel M) (u : UserEvent) (code : ℤ) (arg status : ℕ),
          Relation.ReflTransGen (Kernel.Meanwhile i pid) s₁ s₂ →
          s₂.inRing3 = some j → u.exitCode = some code → s₂.step (.user u) = some s₃ →
          Relation.ReflTransGen (Kernel.Meanwhile i pid) s₃ s₄ →
          s₄.inRing3 = some i → wrapI32 arg = pid → s₄.WaitDelivers arg status pid code := by
  have hfam := Kernel.Families.of_reachable h
  obtain ⟨own, hctx⟩ := Kernel.Context.exists_of_reachable h
  refine ⟨fun e s' i j hguard hstep hchild hz => ?_, fun e s' i pid hstep hreturn =>
    hfam.waitReturns hctx hstep hreturn, fun i pid s₁ hring hguard hfork hstep => ?_⟩
  · by_cases hdel : s.Delivers s' i j
    · exact Or.inl hdel
    · exact Or.inr (hctx.zombie_step hstep hz (hfam.child_step hctx hguard hstep hchild hdel).1)
  · obtain ⟨j, hchild, rfl⟩ := hctx.fork_isChild hring hfork hstep
    refine ⟨j, hchild, rfl, ?_⟩
    intro s₂ s₃ s₄ u code arg status hpath hj hu hstop hpath' hi harg
    obtain ⟨hreach₂, hchild₂, hids₂, -⟩ := child_meanwhile (h.step hguard hstep) hchild hpath
    obtain ⟨own₂, hctx₂⟩ := Kernel.Context.exists_of_reachable hreach₂
    obtain ⟨hz₃, rfl, hids₃⟩ := hctx₂.stop_zombie hj hu hstop
    have hguard₂ : s₂.KeepsStatus (.user u) := by
      cases u with
      | fork => cases hu
      | _ => trivial
    have hreach₃ := hreach₂.step hguard₂ hstop
    have hpid₃ : (s₃.processes j).pid = (s₁.processes j).pid := hids₃.1.trans hids₂.1
    have hchild₃ : s₃.IsChild i j := by
      have hlive : (s₃.processes i).Live := by
        rcases hpath'.cases_head with rfl | ⟨t, ⟨-, -, -, hlive, -⟩, -⟩
        · obtain ⟨own₃, hctx₃⟩ := Kernel.Context.exists_of_reachable hreach₃
          exact Or.inr (hctx₃.ring3_running hi)
        · exact hlive
      have hidi := (hctx₂.lifeStep hstop i).sameIds hchild₂.1.ne_unused hlive.ne_unused
      exact ⟨hlive, by rw [hz₃]; decide, by rw [hids₃.2, hchild₂.2.2, hidi.1]⟩
    rw [← hpid₃] at hpath' harg ⊢
    obtain ⟨hreach₄, hchild₄, hids₄, hlife₄⟩ := child_meanwhile hreach₃ hchild₃ hpath'
    obtain ⟨own₄, hctx₄⟩ := Kernel.Context.exists_of_reachable hreach₄
    obtain ⟨-, hz₄, hcode₄⟩ := hlife₄ hz₃
    have hdelivers := (Kernel.Families.of_reachable hreach₄).waitDelivers hctx₄ hi hchild₄
      (hz₄.trans hz₃) (harg.trans hids₄.1.symm) status
    rwa [hids₄.1, hcode₄] at hdelivers

/-- The condition is met by a process that waits for a child which has a child of its own: the
grandchild ends and its parent, in ring 3, gets its status. -/
theorem exit_status_delivered_nested : ∃ s : Kernel EndlessMemory,
    (kernelSystem EndlessMemory ⟨0, 0⟩).Reachable Kernel.KeepsStatus s ∧
      s.IsChild 1 2 ∧ (s.processes 2).state = .zombie ∧ (s.processes 2).exitStatus = 7 ∧
      s.inRing3 = some 1 ∧ ∀ e s', s.KeepsStatus e → s.step e = some s' →
        s.Delivers s' 1 2 ∨ (s.processes 2).SameLife (s'.processes 2) := by
  obtain ⟨s, hreach, hchild, hz, hcode, hring⟩ :=
    ((kernelSystem EndlessMemory ⟨0, 0⟩).restrict Kernel.KeepsStatus).exists_of_run
    (P := fun s => s.IsChild 1 2 ∧ (s.processes 2).state = .zombie ∧
      (s.processes 2).exitStatus = 7 ∧ s.inRing3 = some 1)
    (s := Kernel.boot ⟨1⟩ ⟨0, 0⟩ 0) ⟨⟨1⟩, 0, rfl⟩
    [.spawn [] [] none, .runUntil, .round, .user .fork, .user (.wait 2 0), .round, .user .fork,
      .user .tick, .round, .user (.exit 7), .round]
    (by decide)
  have hreach' := hreach.of_restrict
  exact ⟨s, hreach', hchild, hz, hcode, hring, fun e s' hguard hstep =>
    (exit_status_delivered s hreach').1 e s' 1 2 hguard hstep hchild hz⟩

/-- A process forks and is preempted, the child exits with status 7, and the outermost loop reaps
it: the parent, which is alive and has not waited, is told that it has no such child. -/
theorem exit_status_lost : ∃ s s' : Kernel EndlessMemory,
    (kernelSystem EndlessMemory ⟨0, 0⟩).Reachable TransitionSystem.anyStep s ∧
      s.IsChild 0 1 ∧ (s.processes 1).state = .zombie ∧ (s.processes 1).exitStatus = 7 ∧
      (s.processes 1).pid = 2 ∧ s.step .round = some s' ∧ s'.inRing3 = some 0 ∧
      (s'.processes 1).state = .unused ∧ (s'.sysWait 2 0).1 = none := by
  obtain ⟨s, hreach, hchild, hz, hcode, hpid, hnext⟩ :=
    (kernelSystem EndlessMemory ⟨0, 0⟩).exists_of_run
      (P := fun s => s.IsChild 0 1 ∧ (s.processes 1).state = .zombie ∧
        (s.processes 1).exitStatus = 7 ∧ (s.processes 1).pid = 2 ∧
        (s.step .round).any fun s' => s'.inRing3 = some 0 ∧ (s'.processes 1).state = .unused ∧
          (s'.sysWait 2 0).1 = none)
      (s := Kernel.boot ⟨1⟩ ⟨0, 0⟩ 0) ⟨⟨1⟩, 0, rfl⟩
      [.spawn [] [] none, .runUntil, .round, .user .fork, .user .tick, .round, .user (.exit 7)]
      (by decide)
  cases hstep : s.step .round with
  | none => simp [hstep] at hnext
  | some s' =>
    simp only [hstep, any_some, decide_eq_true_eq] at hnext
    exact ⟨s, s', hreach, hchild, hz, hcode, hpid, hstep, hnext⟩

end Runs

end AnssOS
