import AnssOS.Exec.Steps
import AnssOS.Foundation.RoundRobin

/-!
# No process is passed over for long

All nested calls of `run_until` share one record of the slot picked last, and nothing but `pick_next_runnable`
writes to it.  So the calls of `pick_next_runnable`, whichever loop makes them, are the picks of one round
robin, however the processes come and go in between.

### Outline

* `pickCall`: the state in which a step calls `pick_next_runnable`, if it does;
* `pickLog`: these calls along a run; `picks_pickLog` says that they are the log of a round robin;
* `runnable_picked`: a slot that is runnable at as many calls in a row as there are slots is picked by one of
  them.
-/

namespace AnssOS

open List Option

namespace Kernel

variable {M : Type} {s s' : Kernel M}

/-! ### Picking and returning -/

/-- Which slots are runnable. -/
def runnable (s : Kernel M) (i : SlotId) : Bool := (s.processes i).state = .runnable

theorem pickNextRunnable_eq (s : Kernel M) :
    s.pickNextRunnable = pickAfter s.lastPicked s.runnable := rfl

theorem returnToKernel_lastPicked (h : s.returnToKernel = some s') : s'.lastPicked = s.lastPicked := by
  obtain ⟨t, callerAs, outer, rest, k, -, rfl⟩ := returnToKernel_cases h
  rw [leaveDispatch_eq]

theorem runUntilReturn_lastPicked {outer : Option SlotId} {rest : List Frame} {code : ℤ}
    (h : s.runUntilReturn outer rest code = some s') : s'.lastPicked = s.lastPicked := by
  unfold runUntilReturn at h
  dsimp only at h
  split at h
  · exact some.inj h ▸ rfl
  · exact some.inj h ▸ rfl
  · cases h

variable [MemoryOps M]

/-! ### Where the scheduler picks -/

/-- The state in which an event makes `run_until` call `pick_next_runnable`, if it does. -/
def pickCall (s : Kernel M) : Event → Option (Kernel M)
  | .round =>
      match s.frames with
      | .runUntil (some pid) _ :: _ =>
          match s.byPid pid with
          | none => none
          | some target => if (s.processes target).state = .zombie then none else some s
      | .runUntil none _ :: _ =>
          match s.reapZombies with
          | (_, false) => none
          | (s, true) => some s
      | _ => none
  | _ => none

/-- The calls of `pick_next_runnable` along a run: in which state, and with which result. -/
def pickLog (s : Kernel M) : List Event → List (Kernel M × Option SlotId)
  | [] => []
  | e :: es =>
      ((s.pickCall e).map fun s => (s, s.pickNextRunnable)).toList ++
        (match s.step e with
        | some s' => s'.pickLog es
        | none => [])

/-! ### The slot picked last -/

theorem reap_lastPicked (s : Kernel M) (i : SlotId) : (s.reap i).lastPicked = s.lastPicked := by
  obtain ⟨m, hm⟩ := s.reap_eq i
  rw [hm]

theorem Reaps.lastPicked (h : s.Reaps s') : s'.lastPicked = s.lastPicked :=
  h.preserves (P := fun t => t.lastPicked = s.lastPicked)
    (fun t i ht _ => (reap_lastPicked t i).trans ht) rfl

theorem pickAndDispatch_lastPicked (s : Kernel M) :
    s.pickAndDispatch.lastPicked = s.pickNextRunnable.getD s.lastPicked := by
  cases hpick : s.pickNextRunnable with
  | none => simp [pickAndDispatch, hpick]
  | some next =>
    obtain ⟨m, hm⟩ := freePending_eq { s with lastPicked := next } next
    simp only [pickAndDispatch, hpick, hm, enterDispatch_eq, setProcess, getD_some]

/-- Ring 3 has no part in it. -/
theorem userStep_lastPicked {u : UserEvent} (h : s.userStep u = some s') :
    s'.lastPicked = s.lastPicked := by
  cases u with
  | compute fpu => exact some.inj h ▸ rfl
  | store | pipe | close | useAsStdio | write | read | brk =>
    rw [(userStep_quiet (by trivial) h).1]
  | fork =>
    cases hme : s.current with
    | none =>
      simp only [userStep, hme] at h
      exact some.inj h ▸ rfl
    | some me =>
      simp only [userStep, hme, Option.some.injEq] at h
      rcases s.fork_cases me with ⟨-, hfork⟩ | ⟨i, m, -, hfork⟩ | ⟨i, m, pml4, top, -, hfork⟩
      · rw [hfork] at h
        exact h ▸ rfl
      · rw [hfork] at h
        exact h ▸ rfl
      · rw [hfork] at h
        exact h ▸ rfl
  | execve image argv =>
    cases hme : s.current with
    | none =>
      simp only [userStep, hme] at h
      exact some.inj h ▸ rfl
    | some me =>
      simp only [userStep, hme] at h
      rcases s.exec_cases me image argv with ⟨m, hexec⟩ | ⟨img, m, hexec⟩
      · rw [hexec] at h
        exact some.inj h ▸ rfl
      · rw [hexec] at h
        exact (returnToKernel_lastPicked h).trans rfl
  | wait pid status =>
    simp only [userStep, sysWait, Option.some.injEq] at h
    rcases s.waitFor_cases ((some (wrapI32 pid)).filter fun pid => 0 ≤ pid) status with
      hwait | ⟨me, child, -, -, hwait⟩
    · rw [hwait] at h
      exact h ▸ rfl
    · rw [hwait] at h
      exact h ▸ rfl
  | schedYield | tick =>
    simp only [userStep, suspendCurrent] at h
    split at h
    · exact (returnToKernel_lastPicked h).trans rfl
    · exact some.inj h ▸ rfl
  | exit | crash =>
    simp only [userStep, stopCurrent] at h
    rw [returnToKernel_lastPicked h]
    split
    · rw [terminate_eq]
    · rfl

/-- A step that picks is a dispatch from the state in which it picks; and no other step touches the record of
the slot picked last. -/
theorem step_pickCall {e : Event} (h : s.step e = some s') :
    (s.pickCall e = none ∧ s'.lastPicked = s.lastPicked) ∨
      ∃ s₁, s.pickCall e = some s₁ ∧ s₁.lastPicked = s.lastPicked ∧ s' = s₁.pickAndDispatch := by
  cases e with
  | round =>
    simp only [step, runUntilRound] at h
    split at h
    · rename_i pid outer rest hframes
      simp only [pickCall, hframes]
      cases hpid : s.byPid pid with
      | none =>
        rw [hpid] at h
        exact Or.inl ⟨rfl, runUntilReturn_lastPicked h⟩
      | some target =>
        rw [hpid] at h
        dsimp only at h ⊢
        split at h
        · rename_i hzombie
          refine Or.inl ⟨if_pos hzombie, ?_⟩
          exact (runUntilReturn_lastPicked h).trans (reap_lastPicked s target)
        · rename_i hzombie
          exact Or.inr ⟨s, if_neg hzombie, rfl, (some.inj h).symm⟩
    · rename_i outer rest hframes
      have hreaps := s.reapZombies_spec.1
      rcases heq : s.reapZombies with ⟨s₁, _ | _⟩
      · rw [heq] at h hreaps
        refine Or.inl ⟨by simp only [pickCall, hframes, heq], ?_⟩
        exact (runUntilReturn_lastPicked h).trans hreaps.lastPicked
      · rw [heq] at h hreaps
        refine Or.inr ⟨s₁, by simp only [pickCall, hframes, heq], hreaps.lastPicked, ?_⟩
        exact (some.inj h).symm
    · cases h
  | spawn image argv cwd =>
    refine Or.inl ⟨rfl, ?_⟩
    simp only [step] at h
    split at h
    · rcases s.spawn_cases image argv cwd kernelParentPid with ⟨m, hspawn⟩ | ⟨i, img, m, -, hspawn⟩
      · rw [hspawn] at h
        exact some.inj h ▸ rfl
      · rw [hspawn] at h
        exact some.inj h ▸ rfl
    · cases h
  | runUntil | waitReturn =>
    refine Or.inl ⟨rfl, ?_⟩
    simp only [step] at h
    split at h
    · exact some.inj h ▸ rfl
    · cases h
  | user u =>
    refine Or.inl ⟨rfl, ?_⟩
    simp only [step] at h
    split at h
    · exact userStep_lastPicked h
    · cases h
  | kernelAlloc | kernelDealloc => exact Or.inl ⟨rfl, some.inj h ▸ rfl⟩

/-! ### The round robin -/

/-- The calls along a run are the picks of a round robin. -/
theorem picks_pickLog {kas : AddrSpace} {es : List Event} (h : (kernelSystem M kas).run s es = some s') :
    Picks s.lastPicked ((s.pickLog es).map fun call => (call.1.runnable, call.2)) := by
  induction es generalizing s with
  | nil => trivial
  | cons e es ih =>
    obtain ⟨t, ht, hrest⟩ := bind_eq_some_iff.mp h
    have hstep : s.step e = some t := ht
    have hnext := ih hrest
    rw [pickLog, hstep]
    rcases step_pickCall hstep with ⟨hcall, hlast⟩ | ⟨s₁, hcall, hlast, rfl⟩
    · rw [hcall, ← hlast]
      exact hnext
    · rw [hcall, ← hlast]
      refine ⟨pickNextRunnable_eq s₁, ?_⟩
      rw [pickAndDispatch_lastPicked] at hnext
      exact hnext

/-- **Bounded bypass**: in every run, a slot that is runnable at sixteen calls of `pick_next_runnable` in a row
is picked by one of them; and it is passed over fifteen times in a row at most. -/
theorem runnable_picked {kas : AddrSpace} {es : List Event}
    (hrun : (kernelSystem M kas).run s es = some s')
    {before window after : List (Kernel M × Option SlotId)}
    (hlog : s.pickLog es = before ++ window ++ after) {i : SlotId}
    (hrunnable : ∀ call ∈ window, (call.1.processes i).state = .runnable) :
    (window.length = 16 → ∃ call ∈ window, call.2 = some i) ∧
      ((∀ call ∈ window, call.2 ≠ some i) → window.length ≤ 15) := by
  have hlong : maxProcesses ≤ window.length → ∃ call ∈ window, call.2 = some i := by
    intro hlen
    have hpicks := picks_pickLog hrun
    rw [hlog, map_append, map_append] at hpicks
    have hcandidate : ∀ pick : (SlotId → Bool) × Option SlotId,
        pick ∈ window.map (fun call => (call.1.runnable, call.2)) → pick.1 i = true := by
      intro pick hpick
      obtain ⟨call, hmem, rfl⟩ := List.mem_map.mp hpick
      exact decide_eq_true (hrunnable call hmem)
    obtain ⟨picked, hmem, hpicked⟩ := hpicks.exists_of_window hcandidate (by rwa [length_map])
    obtain ⟨call, hcall, rfl⟩ := List.mem_map.mp hmem
    exact ⟨call, hcall, hpicked⟩
  refine ⟨fun hlen => hlong hlen.ge, fun hnot => ?_⟩
  by_contra hlen
  obtain ⟨call, hmem, hcall⟩ := hlong (by unfold maxProcesses; omega)
  exact hnot call hmem hcall

/-- Two processes that share the processor: sixteen calls, of which the second process gets every other. -/
theorem runnable_picked_of_two_processes :
    ∃ call ∈ (Kernel.boot (⟨1⟩ : EndlessMemory) ⟨0, 0⟩ 0).pickLog
      ([.spawn [] [] none, .spawn [] [] none, .runUntil] ++
        (List.replicate 16 [.round, .user .tick]).flatten), call.2 = some 1 := by
  have hsome : ((kernelSystem EndlessMemory ⟨0, 0⟩).run (Kernel.boot ⟨1⟩ ⟨0, 0⟩ 0)
      ([.spawn [] [] none, .spawn [] [] none, .runUntil] ++
        (List.replicate 16 [.round, .user .tick]).flatten)).isSome = true := by decide +kernel
  obtain ⟨s', hrun⟩ := isSome_iff_exists.mp hsome
  exact (runnable_picked hrun (List.append_nil _).symm (by decide +kernel)).1
    (by decide +kernel)

end Kernel

end AnssOS
