import AnssOS.Exec.Context

/-!
# Who owns an address space or a kernel stack

Every address space and every kernel stack a program runs in has one owner from the moment it is
created to the moment it is freed: a slot of the process table, which holds it as its task's own or
as what an `exec()` left to free.  `exec()` cannot free what it replaces, since it runs on it; the
next dispatch of the process does, or the one that reaps it.

Address spaces and kernel stacks are two instances of the same bookkeeping, `Holding`: what a slot
holds is compared with a ledger of everything created and freed.
-/

namespace AnssOS

open Option Function

/-! ### What a slot holds -/

/-- The two places in a process where a resource of one kind can be held. -/
structure Holding where
  own : Process → ℕ
  pending : Process → Option ℕ

/-- The address spaces a process holds. -/
def Holding.aspace : Holding :=
  ⟨fun p => p.task.aspace.serial, fun p => p.pendingFreeAs.map AddrSpace.serial⟩

/-- The kernel stacks a process holds. -/
def Holding.kstack : Holding :=
  ⟨fun p => p.task.kernelStackTop.serial, fun p => p.pendingFreeKstack.map KernelStack.serial⟩

namespace Holding

/-- What the slots hold: with `false` as the task's own, with `true` as pending.  An unused slot
holds nothing, whatever is left in its record. -/
def held (v : Holding) (procs : SlotId → Process) : SlotId × Bool → Option ℕ
  | (i, b) =>
      if (procs i).state = .unused then none
      else if b then v.pending (procs i) else some (v.own (procs i))

/-- A process holds the same resources before and after. -/
def Keeps (v : Holding) (p q : Process) : Prop :=
  (q.state = .unused ↔ p.state = .unused) ∧ v.own q = v.own p ∧ v.pending q = v.pending p

variable {v : Holding} {l : Ledger} {procs procs' : SlotId → Process}

variable {i : SlotId}

theorem held_of_unused (h : (procs i).state = .unused) (b : Bool) :
    v.held procs (i, b) = none := by
  simp [held, h]

theorem held_own (h : (procs i).state ≠ .unused) :
    v.held procs (i, false) = some (v.own (procs i)) := by
  simp [held, h]

theorem held_pending (h : (procs i).state ≠ .unused) :
    v.held procs (i, true) = v.pending (procs i) := by
  simp [held, h]

theorem held_congr (h : v.Keeps (procs i) (procs' i)) (b : Bool) :
    v.held procs' (i, b) = v.held procs (i, b) := by
  obtain ⟨hstate, hown, hpending⟩ := h
  by_cases hi : (procs i).state = .unused
  · rw [held_of_unused hi, held_of_unused (hstate.mpr hi)]
  · have hi' := mt hstate.mp hi
    cases b with
    | false => rw [held_own hi, held_own hi', hown]
    | true => rw [held_pending hi, held_pending hi', hpending]

section

variable (h : l.Balanced (v.held procs))

include h

/-- Nothing changes hands. -/
theorem balanced_keeps (hkeep : ∀ i, v.Keeps (procs i) (procs' i)) : l.Balanced (v.held procs') :=
  h.congr fun ⟨i, b⟩ => held_congr (hkeep i) b

/-- A new process holds a new resource. -/
theorem balanced_born (hi : (procs i).state = .unused) (hused : (procs' i).state ≠ .unused)
    (hown : v.own (procs' i) = l.next) (hpending : v.pending (procs' i) = none)
    (hrest : ∀ j, j ≠ i → v.Keeps (procs j) (procs' j)) : l.create.Balanced (v.held procs') := by
  refine h.create (held_of_unused hi false) ((held_own hused).trans (congrArg some hown)) ?_
  rintro ⟨j, b⟩ hne
  by_cases hj : j = i
  · subst hj
    cases b with
    | false => exact absurd rfl hne
    | true => rw [held_pending hused, hpending, held_of_unused hi]
  · exact held_congr (hrest j hj) b

/-- A process replaces its resource by a new one and leaves the old one pending. -/
theorem balanced_replaced (hi : (procs i).state ≠ .unused) (hnone : v.pending (procs i) = none)
    (hused : (procs' i).state ≠ .unused) (hown : v.own (procs' i) = l.next)
    (hpending : v.pending (procs' i) = some (v.own (procs i)))
    (hrest : ∀ j, j ≠ i → v.Keeps (procs j) (procs' j)) : l.create.Balanced (v.held procs') := by
  -- first the old resource moves to the pending place, then the new one is created
  have hmoved : l.Balanced (Function.update (v.held procs') (i, false) none) := by
    refine h.move (x := (i, false)) (y := (i, true)) ?_ ?_ (update_self ..) ?_
    · rw [held_pending hi, hnone]
    · rw [update_of_ne (by simp), held_pending hused, hpending, held_own hi]
    · rintro ⟨j, b⟩ hx hy
      have hj : j ≠ i := by
        rintro rfl
        cases b
        · exact hx rfl
        · exact hy rfl
      rw [update_of_ne hx]
      exact held_congr (hrest j hj) b
  refine hmoved.create (update_self ..) ((held_own hused).trans (congrArg some hown)) ?_
  intro y hy
  rw [update_of_ne hy]

/-- What is pending in a slot is freed. -/
theorem balanced_settled (hi : (procs i).state ≠ .unused) (hused : (procs' i).state ≠ .unused)
    (hown : v.own (procs' i) = v.own (procs i)) (hpending : v.pending (procs' i) = none)
    (hrest : ∀ j, j ≠ i → v.Keeps (procs j) (procs' j)) :
    (l.releaseOpt (v.pending (procs i))).Balanced (v.held procs') := by
  rw [← held_pending hi]
  refine h.releaseOpt ((held_pending hused).trans hpending) ?_
  rintro ⟨j, b⟩ hne
  by_cases hj : j = i
  · subst hj
    cases b with
    | false => rw [held_own hused, held_own hi, hown]
    | true => exact absurd rfl hne
  · exact held_congr (hrest j hj) b

/-- Everything a slot holds is freed, and the slot is returned. -/
theorem balanced_reaped (hi : (procs i).state ≠ .unused) (hunused : (procs' i).state = .unused)
    (hrest : ∀ j, j ≠ i → v.Keeps (procs j) (procs' j)) :
    ((l.releaseOpt (v.pending (procs i))).release (v.own (procs i))).Balanced (v.held procs') := by
  have hsettled : (l.releaseOpt (v.pending (procs i))).Balanced
      (Function.update (v.held procs) (i, true) none) := by
    rw [← held_pending hi]
    exact h.releaseOpt (update_self ..) fun y hy => update_of_ne hy ..
  refine hsettled.release (x := (i, false)) ?_ (held_of_unused hunused false) ?_
  · rw [update_of_ne (by simp), held_own hi]
  · rintro ⟨j, b⟩ hne
    by_cases hj : j = i
    · subst hj
      cases b with
      | false => exact absurd rfl hne
      | true => rw [held_of_unused hunused, update_self]
    · rw [update_of_ne (by simp [hj])]
      exact held_congr (hrest j hj) b

end
end Holding

/-! ### The invariant -/

/-- The process holds the same address spaces and kernel stacks, and has not been dispatched. -/
def Process.KeepsHoldings (p q : Process) : Prop :=
  Holding.aspace.Keeps p q ∧ Holding.kstack.Keeps p q ∧
    (q.state = .running → p.state = .running ∧
      q.pendingFreeAs = p.pendingFreeAs ∧ q.pendingFreeKstack = p.pendingFreeKstack)

theorem Process.KeepsHoldings.refl (p : Process) : p.KeepsHoldings p :=
  ⟨⟨Iff.rfl, rfl, rfl⟩, ⟨Iff.rfl, rfl, rfl⟩, fun h => ⟨h, rfl, rfl⟩⟩

theorem Process.KeepsHoldings.of_sameUpToFiles {p q : Process} (h : p.SameUpToFiles q) :
    p.KeepsHoldings q := by
  unfold Process.SameUpToFiles at h
  rw [h]
  exact .refl p

/-- A running process stops and keeps what it holds. -/
theorem Process.KeepsHoldings.of_stopped {p q : Process} (hp : p.state = .running)
    (hunused : q.state ≠ .unused) (hrunning : q.state ≠ .running)
    (haspace : q.task.aspace = p.task.aspace)
    (hkstack : q.task.kernelStackTop = p.task.kernelStackTop)
    (hpas : q.pendingFreeAs = p.pendingFreeAs) (hpks : q.pendingFreeKstack = p.pendingFreeKstack) :
    p.KeepsHoldings q := by
  have hstate : q.state = .unused ↔ p.state = .unused := by simp [hp, hunused]
  refine ⟨⟨hstate, ?_, ?_⟩, ⟨hstate, ?_, ?_⟩, fun h => absurd h hrunning⟩
  · simp [Holding.aspace, haspace]
  · simp [Holding.aspace, hpas]
  · simp [Holding.kstack, hkstack]
  · simp [Holding.kstack, hpks]

namespace Kernel

variable {M : Type} {kas : AddrSpace} {s s' : Kernel M}

theorem parkedProcess_keepsHoldings (s : Kernel M) (t : Option SlotId) (i : SlotId) :
    (s.processes i).KeepsHoldings (s.parkedProcess t i) := by
  unfold parkedProcess
  split <;> exact .refl _

/-- Both ledgers are balanced, and a running process has nothing left to free. -/
structure Owned (s : Kernel M) : Prop where
  aspaces : s.asLedger.Balanced (Holding.aspace.held s.processes)
  kstacks : s.ksLedger.Balanced (Holding.kstack.held s.processes)
  settled : ∀ i, (s.processes i).state = .running →
    (s.processes i).pendingFreeAs = none ∧ (s.processes i).pendingFreeKstack = none

theorem Owned.keeps (h : s.Owned) (has : s'.asLedger = s.asLedger)
    (hks : s'.ksLedger = s.ksLedger)
    (hkeep : ∀ i, (s.processes i).KeepsHoldings (s'.processes i)) : s'.Owned := by
  refine ⟨?_, ?_, fun i hi => ?_⟩
  · rw [has]
    exact Holding.balanced_keeps h.aspaces fun i => (hkeep i).1
  · rw [hks]
    exact Holding.balanced_keeps h.kstacks fun i => (hkeep i).2.1
  · obtain ⟨hrun, hpas, hpks⟩ := (hkeep i).2.2 hi
    rw [hpas, hpks]
    exact h.settled i hrun

/-- A change of one process that keeps what it holds. -/
theorem Owned.update {i : SlotId} {q : Process} (h : s.Owned) (has : s'.asLedger = s.asLedger)
    (hks : s'.ksLedger = s.ksLedger) (hprocs : s'.processes = Function.update s.processes i q)
    (hq : (s.processes i).KeepsHoldings q) : s'.Owned := by
  refine h.keeps has hks fun j => ?_
  rw [hprocs]
  by_cases hj : j = i
  · subst hj
    rwa [update_self]
  · rw [update_of_ne hj]
    exact .refl _

theorem Owned.returnToKernel (h : s.Owned) (hreturn : s.returnToKernel = some s') : s'.Owned := by
  obtain ⟨t, callerAs, outer, rest, k, -, rfl⟩ := returnToKernel_cases hreturn
  rw [leaveDispatch_eq]
  exact h.keeps rfl rfl (s.parkedProcess_keepsHoldings (some t))

theorem Owned.runUntilReturn {outer : Option SlotId} {rest : List Frame} {code : ℤ} (h : s.Owned)
    (hreturn : s.runUntilReturn outer rest code = some s') : s'.Owned := by
  unfold Kernel.runUntilReturn at hreturn
  dsimp only at hreturn
  split at hreturn
  · exact some.inj hreturn ▸ ⟨h.aspaces, h.kstacks, h.settled⟩
  · exact some.inj hreturn ▸ ⟨h.aspaces, h.kstacks, h.settled⟩
  · cases hreturn

/-- A new process owns what was created for it. -/
theorem Owned.born {i : SlotId} {q : Process} (h : s.Owned) (has : s'.asLedger = s.asLedger.create)
    (hks : s'.ksLedger = s.ksLedger.create)
    (hprocs : s'.processes = Function.update s.processes i q)
    (hi : (s.processes i).state = .unused) (hq : q.state = .runnable)
    (haspace : q.task.aspace.serial = s.asLedger.next)
    (hkstack : q.task.kernelStackTop.serial = s.ksLedger.next)
    (hpas : q.pendingFreeAs = none) (hpks : q.pendingFreeKstack = none) : s'.Owned := by
  have hself : s'.processes i = q := by rw [hprocs, update_self]
  have hother : ∀ j, j ≠ i → s'.processes j = s.processes j := fun j hj => by
    rw [hprocs, update_of_ne hj]
  have hused : (s'.processes i).state ≠ .unused := by rw [hself, hq]; decide
  refine ⟨?_, ?_, fun j hj => ?_⟩
  · rw [has]
    refine Holding.balanced_born h.aspaces hi hused (by rw [hself]; exact haspace)
      (by rw [hself]; simp [Holding.aspace, hpas]) fun j hj => ?_
    rw [hother j hj]
    exact (Process.KeepsHoldings.refl _).1
  · rw [hks]
    refine Holding.balanced_born h.kstacks hi hused (by rw [hself]; exact hkstack)
      (by rw [hself]; simp [Holding.kstack, hpks]) fun j hj => ?_
    rw [hother j hj]
    exact (Process.KeepsHoldings.refl _).2.1
  · by_cases hji : j = i
    · rw [hji, hself, hq] at hj
      cases hj
    · rw [hother j hji] at hj ⊢
      exact h.settled j hj

/-- A running process that calls `exec` has nothing pending, so that nothing is overwritten. -/
theorem Owned.execed {i : SlotId} {img : LoadedImage} (h : s.Owned)
    (has : s'.asLedger = s.asLedger.create) (hks : s'.ksLedger = s.ksLedger.create)
    (hprocs : s'.processes = Function.update s.processes i (s.execedProcess i img))
    (hi : (s.processes i).state = .running) : s'.Owned := by
  obtain ⟨hpas, hpks⟩ := h.settled i hi
  have hi' : (s.processes i).state ≠ .unused := by rw [hi]; decide
  have hself : s'.processes i = s.execedProcess i img := by rw [hprocs, update_self]
  have hother : ∀ j, j ≠ i → s'.processes j = s.processes j := fun j hj => by
    rw [hprocs, update_of_ne hj]
  have hused : (s'.processes i).state ≠ .unused := by simp [hself, execedProcess]
  refine ⟨?_, ?_, fun j hj => ?_⟩
  · rw [has]
    refine Holding.balanced_replaced h.aspaces hi' (by simp [Holding.aspace, hpas]) hused
      (by rw [hself]; rfl) (by rw [hself]; rfl) fun j hj => ?_
    rw [hother j hj]
    exact (Process.KeepsHoldings.refl _).1
  · rw [hks]
    refine Holding.balanced_replaced h.kstacks hi' (by simp [Holding.kstack, hpks]) hused
      (by rw [hself]; rfl) (by rw [hself]; rfl) fun j hj => ?_
    rw [hother j hj]
    exact (Process.KeepsHoldings.refl _).2.1
  · by_cases hji : j = i
    · simp [hji, hself, execedProcess] at hj
    · rw [hother j hji] at hj ⊢
      exact h.settled j hj

section Memory

variable [MemoryOps M]

theorem Owned.reap {i : SlotId} (h : s.Owned) (hi : (s.processes i).state = .zombie) :
    (s.reap i).Owned := by
  obtain ⟨m, hm⟩ := s.reap_eq i
  have hi' : (s.processes i).state ≠ .unused := by rw [hi]; decide
  have hself := reap_processes_self s i
  refine ⟨?_, ?_, fun j hj => ?_⟩
  · have has : (s.reap i).asLedger = (s.asLedger.releaseOpt
        (Holding.aspace.pending (s.processes i))).release (Holding.aspace.own (s.processes i)) := by
      rw [hm]
      rfl
    rw [has]
    refine Holding.balanced_reaped h.aspaces hi' hself fun j hj => ?_
    rw [reap_processes_ne s hj]
    exact (Process.KeepsHoldings.refl _).1
  · have hks : (s.reap i).ksLedger = (s.ksLedger.releaseOpt
        (Holding.kstack.pending (s.processes i))).release (Holding.kstack.own (s.processes i)) := by
      rw [hm]
      rfl
    rw [hks]
    refine Holding.balanced_reaped h.kstacks hi' hself fun j hj => ?_
    rw [reap_processes_ne s hj]
    exact (Process.KeepsHoldings.refl _).2.1
  · by_cases hji : j = i
    · rw [hji, hself] at hj
      cases hj
    · rw [reap_processes_ne s hji] at hj ⊢
      exact h.settled j hj

/-- The dispatch of a process frees whatever its last `exec` left pending. -/
theorem Owned.pickAndDispatch (h : s.Owned) : s.pickAndDispatch.Owned := by
  rcases s.pickAndDispatch_cases with heq | ⟨next, m, hnext, heq⟩
  · rwa [heq]
  have hnext' : (s.processes next).state ≠ .unused := by rw [hnext]; decide
  generalize s.pickAndDispatch = s' at heq
  have hprocs : s'.processes = s.dispatchedProcess next := by rw [heq]
  have hrun : (s'.processes next).state = .running := by simp [hprocs, dispatchedProcess]
  have hused : (s'.processes next).state ≠ .unused := by rw [hrun]; decide
  have hother : ∀ j, j ≠ next → (s.processes j).KeepsHoldings (s'.processes j) := by
    intro j hj
    rw [hprocs, dispatchedProcess, if_neg hj]
    exact s.parkedProcess_keepsHoldings s.currentTask j
  refine ⟨?_, ?_, fun j hj => ?_⟩
  · have has : s'.asLedger = s.asLedger.releaseOpt (Holding.aspace.pending (s.processes next)) := by
      rw [heq]
      rfl
    rw [has]
    exact Holding.balanced_settled h.aspaces hnext' hused
      (by simp [hprocs, dispatchedProcess, Holding.aspace])
      (by simp [hprocs, dispatchedProcess, Holding.aspace]) fun j hj => (hother j hj).1
  · have hks : s'.ksLedger = s.ksLedger.releaseOpt (Holding.kstack.pending (s.processes next)) := by
      rw [heq]
      rfl
    rw [hks]
    exact Holding.balanced_settled h.kstacks hnext' hused
      (by simp [hprocs, dispatchedProcess, Holding.kstack])
      (by simp [hprocs, dispatchedProcess, Holding.kstack]) fun j hj => (hother j hj).2.1
  · by_cases hji : j = next
    · simp [hji, hprocs, dispatchedProcess]
    · obtain ⟨hrunj, hpas, hpks⟩ := (hother j hji).2.2 hj
      rw [hpas, hpks]
      exact h.settled j hrunj

/-- Every step keeps the books. -/
theorem Owned.step {own : SlotId → FpuState} {e : Event} (hctx : Context kas s own) (h : s.Owned)
    (hstep : s.step e = some s') : s'.Owned := by
  cases step_cases hstep with
  | kernelAlloc | kernelDealloc | spawnFailed | runUntil | waitReturn | compute | forkFull |
    execFailed | waitRefused | waiting => exact ⟨h.aspaces, h.kstacks, h.settled⟩
  | forkFailed p me i m hring hme hslot hfork =>
    exact ⟨h.aspaces.discard, h.kstacks, h.settled⟩
  | spawned image argv cwd i img m hframes hslot hspawn =>
    exact h.born rfl rfl (by rfl) (allocSlot_unused hslot) rfl rfl rfl rfl rfl
  | forked p me i m pml4 top hring hme hslot hfork =>
    exact h.born rfl rfl (by rfl) (allocSlot_unused hslot) rfl rfl rfl rfl rfl
  | roundGone pid outer rest s' hframes hpid hreturn => exact h.runUntilReturn hreturn
  | roundReaped pid outer rest target s' hframes hpid hzombie hreturn =>
    exact (h.reap hzombie).runUntilReturn hreturn
  | roundNested => exact h.pickAndDispatch
  | roundLast outer rest s₁ s' hframes hreaps hunused hreturn =>
    exact (hreaps.preserves (fun _ _ ht hi => Owned.reap ht hi) h).runUntilReturn hreturn
  | roundTop outer rest s₁ hframes hreaps hzombie =>
    exact (hreaps.preserves (fun _ _ ht hi => Owned.reap ht hi) h).pickAndDispatch
  | orphan u p s' hring hcurrent =>
    rw [hctx.current_eq p (executing_of_inRing3 hring)] at hcurrent
    cases hcurrent
  | quiet u p s' hu hring hquiet =>
    obtain ⟨heq, hslots⟩ := userStep_quiet hu hquiet
    refine h.keeps (by rw [heq]) (by rw [heq]) fun i => ?_
    exact .of_sameUpToFiles (hslots i)
  | execed image argv p me img m s' hring hme hexec hreturn =>
    obtain rfl := hctx.me_eq hring hme
    refine Owned.returnToKernel ?_ hreturn
    exact h.execed rfl rfl rfl (hctx.ring3_running hring)
  | suspended u p me s' hu hring hme hreturn =>
    obtain rfl := hctx.me_eq hring hme
    refine Owned.returnToKernel ?_ hreturn
    refine h.update rfl rfl rfl (.of_stopped (hctx.ring3_running hring) ?_ ?_ rfl rfl rfl rfl) <;>
      simp [suspendedProcess]
  | stopped u p me code s' hu hring hme hreturn =>
    obtain rfl := hctx.me_eq hring hme
    rw [terminate_eq] at hreturn
    refine Owned.returnToKernel ?_ hreturn
    refine h.update rfl rfl rfl (.of_stopped (hctx.ring3_running hring) ?_ ?_ rfl rfl rfl rfl) <;>
      simp [terminatedProcess]

end Memory

end Kernel

section Runs

variable {M : Type} {kas : AddrSpace}

theorem Kernel.Owned.boot (m : M) (kas : AddrSpace) (root : ℕ) : (Kernel.boot m kas root).Owned :=
  ⟨.of_empty fun ⟨_, _⟩ => Holding.held_of_unused rfl _,
    .of_empty fun ⟨_, _⟩ => Holding.held_of_unused rfl _, by rintro i ⟨⟩⟩

variable [MemoryOps M]

theorem Kernel.Owned.of_reachable {guard : Kernel M → Event → Prop} {s : Kernel M}
    (h : (kernelSystem M kas).Reachable guard s) : s.Owned := by
  refine h.invariant (P := Kernel.Owned) ?_ ?_
  · rintro s ⟨m, root, rfl⟩
    exact Kernel.Owned.boot m kas root
  · rintro s e s' hreach howned - hstep
    obtain ⟨own, hctx⟩ := Kernel.Context.exists_of_reachable hreach
    exact howned.step hctx hstep

/-- In every run, each address space and each kernel stack created so far has been freed and is
held by nobody, or has not been freed and is held in exactly one place of one slot in use; nothing
is freed twice; a process that executes in ring 3, and could call `exec`, has nothing pending; and
when the outermost scheduler loop returns, everything has been freed. -/
theorem owned_once_freed_once (s : Kernel M)
    (h : (kernelSystem M kas).Reachable TransitionSystem.anyStep s) :
    (∀ k, 1 ≤ k → k ≤ s.asLedger.created →
      (k ∈ s.asLedger.freed ∧ ∀ x, Holding.aspace.held s.processes x ≠ some k) ∨
      (k ∉ s.asLedger.freed ∧ ∃! x, Holding.aspace.held s.processes x = some k)) ∧
    (∀ k, 1 ≤ k → k ≤ s.ksLedger.created →
      (k ∈ s.ksLedger.freed ∧ ∀ x, Holding.kstack.held s.processes x ≠ some k) ∨
      (k ∉ s.ksLedger.freed ∧ ∃! x, Holding.kstack.held s.processes x = some k)) ∧
    s.asLedger.freed.Nodup ∧ s.ksLedger.freed.Nodup ∧
    (∀ p, s.inRing3 = some p →
      (s.processes p).pendingFreeAs = none ∧ (s.processes p).pendingFreeKstack = none) ∧
    ∀ e s', s.step e = some s' → s.frames ≠ [] → s'.frames = [] →
      (∀ k, 1 ≤ k → k ≤ s'.asLedger.created → k ∈ s'.asLedger.freed) ∧
      (∀ k, 1 ≤ k → k ≤ s'.ksLedger.created → k ∈ s'.ksLedger.freed) := by
  obtain ⟨own, hctx⟩ := Kernel.Context.exists_of_reachable h
  have howned := Kernel.Owned.of_reachable h
  refine ⟨fun k => howned.aspaces.freed_or_existsUnique, fun k =>
    howned.kstacks.freed_or_existsUnique, howned.aspaces.freed_nodup, howned.kstacks.freed_nodup,
    fun p hp => howned.settled p (hctx.ring3_running hp), fun e s' hstep hne hnil => ?_⟩
  have hunused := hctx.unused_of_frames_nil hstep hne hnil
  have howned' := howned.step hctx hstep
  exact ⟨howned'.aspaces.all_freed fun ⟨i, b⟩ => Holding.held_of_unused (hunused i) b,
    howned'.kstacks.all_freed fun ⟨i, b⟩ => Holding.held_of_unused (hunused i) b⟩

/-- A program that replaces itself, exits and is reaped: all of its address spaces are freed. -/
theorem owned_once_freed_once_exec :
    ∃ s s' : Kernel EndlessMemory, s.step .round = some s' ∧ s'.asLedger.created = 2 ∧
      ∀ k, 1 ≤ k → k ≤ s'.asLedger.created → k ∈ s'.asLedger.freed := by
  obtain ⟨s, hreach, hne, hround⟩ := (kernelSystem EndlessMemory ⟨0, 0⟩).exists_of_run
    (P := fun s => s.frames ≠ [] ∧ (s.step .round).any (fun s' =>
      decide (s'.frames = [] ∧ s'.asLedger.created = 2)) = true)
    (s := Kernel.boot ⟨1⟩ ⟨0, 0⟩ 0) ⟨⟨1⟩, 0, rfl⟩
    [.spawn [] [] none, .runUntil, .round, .user (.execve [] []), .round, .user (.exit 0)]
    (by decide)
  cases hstep : s.step .round with
  | none => simp [hstep] at hround
  | some s' =>
    rw [hstep] at hround
    obtain ⟨hnil, hcreated⟩ := of_decide_eq_true hround
    exact ⟨s, s', hstep, hcreated,
      ((owned_once_freed_once s hreach).2.2.2.2.2 .round s' hstep hne hnil).1⟩

end Runs

end AnssOS
