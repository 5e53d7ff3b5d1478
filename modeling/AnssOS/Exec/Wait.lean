import AnssOS.Exec.Context

/-!
# Waits and the order in which they return

`wait` is a scheduler loop on the waiter's own kernel stack, so the waits under way form a stack:
only the innermost one can return.  A wait whose target has ended can thus be stranded under the
wait of another process whose target has not; `Stranded` is that state, and `no_stranded_wait` says
when it does not arise.
-/

namespace AnssOS

open List Option

/-! ### The waits under way -/

/-- The waits under way, innermost first: who waits, and for which pid. -/
def pendingWaits : List Frame → List (SlotId × ℤ)
  | [] => []
  | .wait target _ :: rest =>
      match owner rest with
      | some t => (t, target) :: pendingWaits rest
      | none => pendingWaits rest
  | .dispatch _ _ _ :: rest => pendingWaits rest
  | .runUntil _ _ :: rest => pendingWaits rest
  | .waitDone _ _ _ :: rest => pendingWaits rest

theorem mem_pendingWaits_append {w : SlotId × ℤ} (gs : List Frame) {fs : List Frame}
    (h : w ∈ pendingWaits fs) : w ∈ pendingWaits (gs ++ fs) := by
  induction gs with
  | nil => exact h
  | cons g gs ih =>
    cases g with
    | wait target status =>
      rw [cons_append, pendingWaits]
      split
      · exact mem_cons_of_mem _ ih
      · exact ih
    | dispatch | runUntil | waitDone => exact ih

/-- The waiting processes are among those with an active dispatch, in the same order; the process
of the innermost dispatch, if it executes, does not wait. -/
theorem CallStack.waiters_sublist {kas : AddrSpace} {procs : SlotId → Process} {fs : List Frame}
    (h : CallStack kas procs fs) :
    ((pendingWaits fs).map Prod.fst).Sublist (activeDispatches fs) ∧
      ∀ t callerAs outer rest, fs = .dispatch t callerAs outer :: rest →
        ((pendingWaits rest).map Prod.fst).Sublist (activeDispatches rest) := by
  induction h with
  | idle => exact ⟨Sublist.refl _, by simp⟩
  | top => exact ⟨Sublist.refl _, by simp⟩
  | dispatch t w outer rest hrest hresume ih =>
    refine ⟨ih.1.cons t, ?_⟩
    rintro _ _ _ _ ⟨⟩
    exact ih.1
  | wait t callerAs outer target status rest hrest ih =>
    exact ⟨(ih.2 t callerAs outer rest rfl).cons_cons t, by simp⟩
  | waitDone t callerAs outer target status code rest hrest ih => exact ⟨ih.1, by simp⟩

namespace Kernel

variable {M : Type}

/-- The process a pid stands for has ended. -/
def TargetZombie (s : Kernel M) (pid : ℤ) : Prop :=
  ∃ j, s.byPid pid = some j ∧ (s.processes j).state = .zombie

instance (s : Kernel M) (pid : ℤ) : Decidable (s.TargetZombie pid) :=
  inferInstanceAs (Decidable (∃ _, _))

instance (s : Kernel M) (pid : ℤ) : Decidable (s.TargetAlive pid) :=
  inferInstanceAs (Decidable (∃ _, _))

theorem TargetAlive.not_zombie {s : Kernel M} {pid : ℤ} (h : s.TargetAlive pid) :
    ¬ s.TargetZombie pid := by
  obtain ⟨j, hj, halive⟩ := h
  rintro ⟨k, hk, hzombie⟩
  obtain rfl := some.inj (hj.symm.trans hk)
  exact halive hzombie

/-- `by_pid` finds the first slot in use with the pid. -/
theorem byPid_eq_some {s : Kernel M} {pid : ℤ} {i : SlotId} :
    s.byPid pid = some i ↔ ((s.processes i).state ≠ .unused ∧ (s.processes i).pid = pid) ∧
      ∀ j < i, (s.processes j).state ≠ .unused → (s.processes j).pid ≠ pid := by
  rw [byPid, find?_eq_some_iff_getElem]
  constructor
  · rintro ⟨hi, n, hn, rfl, hfirst⟩
    refine ⟨by simpa using hi, fun j hj hused hpid => ?_⟩
    rw [getElem_finRange] at hj
    have := hfirst j.val hj
    simp [hused, hpid] at this
  · rintro ⟨hi, hfirst⟩
    refine ⟨by simpa using hi, i.val, by simp, by simp, fun n hn => ?_⟩
    have := hfirst ⟨n, hn.trans i.isLt⟩ hn
    simpa [imp_iff_not_or] using this

theorem exists_byPid {s : Kernel M} {i : SlotId} (h : (s.processes i).state ≠ .unused) :
    ∃ j ≤ i, s.byPid (s.processes i).pid = some j := by
  have hsome : (s.byPid (s.processes i).pid).isSome := by
    rw [byPid, find?_isSome]
    exact ⟨i, mem_finRange i, by simp [h]⟩
  obtain ⟨j, hj⟩ := isSome_iff_exists.mp hsome
  refine ⟨j, not_lt.mp fun hij => ?_, hj⟩
  exact (byPid_eq_some.mp hj).2 i hij h rfl

/-- The process a pid stands for has ended, after a step, only if it had before or if it is the one
that stopped in this step. -/
theorem TargetZombie.of_lifeStep {s s' : Kernel M} {pid : ℤ} {c : SlotId → Causes}
    (hlife : ∀ i, LifeStep (c i) (s.processes i) (s'.processes i)) (h : s'.TargetZombie pid) :
    s.TargetZombie pid ∨ ∃ i code, (c i).stopped code ∧ (s.processes i).pid = pid := by
  obtain ⟨k, hk, hzombie⟩ := h
  obtain ⟨⟨-, hpid⟩, hfirst⟩ := byPid_eq_some.mp hk
  cases hlife k with
  | born _ _ hq | dispatched _ _ hq | suspended _ _ hq | reaped _ _ hq =>
    rw [hq] at hzombie
    cases hzombie
  | stopped hstop _ hids _ => exact Or.inr ⟨k, _, hstop, hids.1.symm.trans hpid⟩
  | same hsame =>
    left
    have hz : (s.processes k).state = .zombie := hsame.2.1 ▸ hzombie
    have hpidk : (s.processes k).pid = pid := hsame.1.1.symm.trans hpid
    obtain ⟨j, hjk, hj⟩ := exists_byPid (s := s) (i := k) (by rw [hz]; decide)
    rw [hpidk] at hj
    rcases hjk.eq_or_lt with rfl | hlt
    · exact ⟨j, hj, hz⟩
    -- a slot before `k` had the pid and has lost it: it held a zombie that was reaped
    obtain ⟨⟨husedj, hpidj⟩, -⟩ := byPid_eq_some.mp hj
    have hlost : (s'.processes j).state ≠ .unused → (s'.processes j).pid ≠ (s.processes j).pid :=
      fun hused => hpidj ▸ hfirst j hlt hused
    cases hlife j with
    | same h => exact absurd h.1.1 (hlost (h.2.1 ▸ husedj))
    | born _ hp => exact absurd hp husedj
    | dispatched _ hids hq | suspended _ hids hq | stopped _ _ hids hq =>
      exact absurd hids.1 (hlost (by rw [hq]; decide))
    | reaped _ hp => exact ⟨j, hj, hp⟩

/-! ### The order in which waits return -/

/-- Every wait but the innermost waits for a process that has not ended, and so does the innermost
one while a process executes. -/
structure WaitsOpen (s : Kernel M) : Prop where
  tail : ∀ w ∈ (pendingWaits s.frames).tail, ¬ s.TargetZombie w.2
  head : s.executing ≠ none → ∀ w ∈ pendingWaits s.frames, ¬ s.TargetZombie w.2

/-- A process stops only if nobody waits for it, or the innermost wait does. -/
def StopsInOrder (s : Kernel M) (e : Event) : Prop :=
  ∀ u, e = .user u → u.exitCode ≠ none → ∀ i, s.inRing3 = some i →
    ∀ w ∈ (pendingWaits s.frames).tail, w.2 ≠ (s.processes i).pid

section Memory

variable [MemoryOps M] {kas : AddrSpace} {s s' : Kernel M} {own : SlotId → FpuState}

theorem WaitsOpen.step {e : Event} (hctx : Context kas s own) (h : s.WaitsOpen)
    (hguard : s.StopsInOrder e) (hstep : s.step e = some s') : s'.WaitsOpen := by
  have hlife := hctx.lifeStep hstep
  -- a wait that is not the innermost one stays open
  have htail : ∀ w ∈ (pendingWaits s.frames).tail, ¬ s'.TargetZombie w.2 := by
    intro w hw hz
    rcases TargetZombie.of_lifeStep hlife hz with hz | ⟨i, code, ⟨hring, ⟨u, he, hu⟩, -⟩, hpid⟩
    · exact h.tail w hw hz
    · exact hguard u he (by simp [hu]) i hring w hw hpid.symm
  -- if no dispatch ends, then every wait that was open stays open
  have hopen : (∀ i callerAs outer, s.frames ≠ .dispatch i callerAs outer :: s'.frames) →
      ∀ pid, s'.TargetZombie pid → s.TargetZombie pid := by
    intro hframes pid hz
    rcases TargetZombie.of_lifeStep hlife hz with hz | ⟨i, code, ⟨-, -, callerAs, outer, hs⟩, -⟩
    · exact hz
    · exact absurd hs (hframes i callerAs outer)
  have hstack := hctx.stack
  have hreturned : ∀ {target p status code rest},
      s.frames = .runUntil (some target) (some p) :: .wait target status :: rest →
      s'.frames = .waitDone target status code :: rest → s'.WaitsOpen := by
    intro target p status code rest hs hframes
    rw [hs] at hstack
    cases hstack with
    | wait _ callerAs outer _ _ rest hrest =>
      have hpending : pendingWaits s'.frames = (pendingWaits s.frames).tail := by
        rw [hframes, hs]
        rfl
      rw [← hpending] at htail
      exact ⟨fun w hw => htail w (mem_of_mem_tail hw), fun _ => htail⟩
  cases hctx.frameStep hstep with
  | same hframes =>
    have hopen := hopen (by simp [hframes])
    have hexec : s'.executing = s.executing := by simp only [executing, hframes]
    refine ⟨by rwa [hframes], fun hne w hw => ?_⟩
    rw [hframes] at hw
    exact mt (hopen w.2) (h.head (hexec ▸ hne) w hw)
  | start hs hframes => constructor <;> simp [hframes, pendingWaits]
  | finish outer hs hunused hframes => constructor <;> simp [hframes, pendingWaits]
  | enter w outer rest next callerAs outer' hs halive hframes =>
    have hopen := hopen (by simp [hs])
    have hpending : pendingWaits s'.frames = pendingWaits s.frames := by rw [hframes]; rfl
    rw [hs] at hstack
    refine ⟨by rwa [hpending], fun _ v hv => ?_⟩
    rw [hpending] at hv
    cases hstack with
    | top => simp [hs, pendingWaits] at hv
    | wait t callerAs outer target status rest hrest =>
      rw [hs] at hv htail
      rcases mem_cons.mp hv with rfl | hv
      · exact mt (hopen target) (halive target rfl).not_zombie
      · exact htail v hv
  | leave p callerAs outer w rest hs hframes =>
    have hpending : pendingWaits s'.frames = pendingWaits s.frames := by rw [hs]; rfl
    exact ⟨by rwa [hpending], by simp [executing, hframes]⟩
  | wait p child status hring hused hchild hprocs hframes =>
    have hopen := hopen fun i callerAs outer heq => by
      have := congrArg List.length heq
      simp only [hframes, length_cons] at this
      omega
    have howner := owner_of_executing (executing_of_inRing3 hring)
    have hpending : pendingWaits s'.frames =
        (p, (s.processes child).pid) :: pendingWaits s.frames := by
      rw [hframes]
      simp only [pendingWaits, howner]
    refine ⟨fun w hw => ?_, by simp [executing, hframes]⟩
    rw [hpending] at hw
    exact mt (hopen w.2) (h.head (by simp [executing_of_inRing3 hring]) w hw)
  | gone target p status rest hs hpid hframes => exact hreturned hs hframes
  | waitDone target p child status rest hs hpid hzombie hprocs hframes =>
    exact hreturned hs hframes
  | waitReturn target status code hs =>
    have hopen := hopen (by simp [hs])
    have hpending : pendingWaits s'.frames = pendingWaits s.frames := by rw [hs]; rfl
    have hexec : s.executing ≠ none := by
      rw [hs] at hstack
      cases hstack' : s'.frames with
      | nil => rw [hstack'] at hstack; cases hstack
      | cons f fs =>
        rw [hstack'] at hstack
        cases hstack with
        | waitDone => simp [executing, hs, hstack']
    refine ⟨by rwa [hpending], fun _ w hw => ?_⟩
    rw [hpending] at hw
    exact mt (hopen w.2) (h.head hexec w hw)

/-- As long as the target of a loop is alive, the activations from that loop on stay as they are. -/
theorem Context.frames_below {e : Event} (hctx : Context kas s own) (hstep : s.step e = some s')
    {pid : ℤ} (halive : s.TargetAlive pid) {outer : Option SlotId} {above below : List Frame}
    (hs : s.frames = above ++ .runUntil (some pid) outer :: below) :
    ∃ above', s'.frames = above' ++ .runUntil (some pid) outer :: below := by
  have hpop : ∀ {target p status rest f},
      s.frames = .runUntil (some target) (some p) :: .wait target status :: rest →
      ¬ s.TargetAlive target → s'.frames = f :: rest →
      ∃ above', s'.frames = above' ++ .runUntil (some pid) outer :: below := by
    intro target p status rest f hs' hdead h
    rw [hs'] at hs
    match above, hs with
    | [], hs =>
      simp only [nil_append, List.cons.injEq, Frame.runUntil.injEq, Option.some.injEq] at hs
      exact absurd (hs.1.1 ▸ halive) hdead
    | [_], hs => simp at hs
    | _ :: _ :: above, hs =>
      simp only [cons_append, List.cons.injEq] at hs
      exact ⟨f :: above, by rw [h, hs.2.2]; rfl⟩
  cases hctx.frameStep hstep with
  | same h => exact ⟨above, h.trans hs⟩
  | start hnil => simp [hnil] at hs
  | enter w outer rest next callerAs outer' _ _ h =>
    exact ⟨.dispatch next callerAs outer' :: above, by rw [h, hs]; rfl⟩
  | leave p callerAs outer w rest hs' h =>
    cases above with
    | nil => simp [hs'] at hs
    | cons f above =>
      rw [hs'] at hs
      exact ⟨above, (List.cons.inj hs).2⟩
  | wait p child status _ _ _ _ h =>
    exact ⟨.runUntil (some (s.processes child).pid) (some p) ::
      .wait (s.processes child).pid status :: above, by rw [h, hs]; rfl⟩
  | gone target p status rest hs' hpid h =>
    refine hpop hs' ?_ h
    rintro ⟨j, hj, -⟩
    rw [hpid] at hj
    cases hj
  | waitDone target p child status rest hs' hpid hzombie _ h =>
    exact hpop hs' (fun hdead => hdead.not_zombie ⟨child, hpid, hzombie⟩) h
  | finish outer hs' _ h =>
    rw [hs'] at hs
    cases above <;> simp at hs
  | waitReturn target status code hs' =>
    cases above with
    | nil => simp [hs'] at hs
    | cons f above =>
      rw [hs'] at hs
      exact ⟨above, (List.cons.inj hs).2⟩

end Memory

end Kernel

section Runs

variable {M : Type} [MemoryOps M] {kas : AddrSpace}

/-- A process `x` waits for a process that has ended, and another process `y` waits for one that
has not; and however the kernel goes on, the wait of `x` does not return before that one ends. -/
def Stranded (kas : AddrSpace) (s : Kernel M) : Prop :=
  ∃ x target y pid, x ≠ y ∧ (x, target) ∈ pendingWaits s.frames ∧ s.TargetZombie target ∧
    (y, pid) ∈ pendingWaits s.frames ∧ s.TargetAlive pid ∧
    ∀ s', Relation.ReflTransGen ((kernelSystem M kas).Step fun t _ => t.TargetAlive pid) s s' →
      (x, target) ∈ pendingWaits s'.frames

/-- The wait of `x` under a loop whose target is alive is stranded. -/
theorem Stranded.of_frames {guard : Kernel M → Event → Prop} {s : Kernel M}
    (h : (kernelSystem M kas).Reachable guard s) {x y : SlotId} {target pid : ℤ}
    {outer : Option SlotId} {above below : List Frame} (hxy : x ≠ y)
    (hs : s.frames = above ++ .runUntil (some pid) outer :: below)
    (hx : (x, target) ∈ pendingWaits below) (hzombie : s.TargetZombie target)
    (hy : (y, pid) ∈ pendingWaits s.frames) (halive : s.TargetAlive pid) : Stranded kas s := by
  have hmem : ∀ {fs above : List Frame}, fs = above ++ .runUntil (some pid) outer :: below →
      (x, target) ∈ pendingWaits fs := by
    rintro fs above rfl
    exact mem_pendingWaits_append above hx
  refine ⟨x, target, y, pid, hxy, hmem hs, hzombie, hy, halive, fun s' hpath => ?_⟩
  -- by induction on the run: the activations from the loop on stay as they are
  have hkeep : (kernelSystem M kas).Reachable TransitionSystem.anyStep s' ∧
      ∃ above', s'.frames = above' ++ .runUntil (some pid) outer :: below := by
    induction hpath with
    | refl => exact ⟨h.any, above, hs⟩
    | tail _ hstep ih =>
      obtain ⟨hreach, above', hs'⟩ := ih
      obtain ⟨e, halive', hstep⟩ := hstep
      obtain ⟨own, hctx⟩ := Kernel.Context.exists_of_reachable hreach
      exact ⟨hreach.step trivial hstep, hctx.frames_below hstep halive' hs'⟩
  obtain ⟨-, above', hs'⟩ := hkeep
  exact hmem hs'

theorem Kernel.WaitsOpen.of_reachable {s : Kernel M}
    (h : (kernelSystem M kas).Reachable Kernel.StopsInOrder s) : s.WaitsOpen := by
  refine h.invariant (P := Kernel.WaitsOpen) ?_ ?_
  · rintro s ⟨m, root, rfl⟩
    constructor <;> simp [Kernel.boot, pendingWaits]
  · rintro s e s' hreach hopen hguard hstep
    obtain ⟨own, hctx⟩ := Kernel.Context.exists_of_reachable hreach
    exact hopen.step hctx hguard hstep

/-- A wait whose target has ended is the innermost one, and the next round of the scheduler returns
from it. -/
theorem Kernel.WaitsOpen.returns {s : Kernel M} {own : SlotId → FpuState}
    (hctx : Kernel.Context kas s own) (h : s.WaitsOpen) {x : SlotId} {target : ℤ}
    (hx : (x, target) ∈ pendingWaits s.frames) (hzombie : s.TargetZombie target) :
    ∃ s', s.step .round = some s' ∧ (x, target) ∉ pendingWaits s'.frames := by
  have htail : (x, target) ∉ (pendingWaits s.frames).tail := fun hw => h.tail _ hw hzombie
  have hexec : s.executing = none := by
    by_contra hne
    exact h.head hne _ hx hzombie
  have hnodup := (hctx.stack.waiters_sublist).1.nodup hctx.nodup
  have hstack := hctx.stack
  cases hframes : s.frames with
  | nil => simp [hframes, pendingWaits] at hx
  | cons f fs =>
    rw [hframes] at hstack hx htail hnodup
    cases hstack with
    | top => simp [pendingWaits] at hx
    | dispatch | waitDone => simp [Kernel.executing, hframes] at hexec
    | wait t callerAs outer target' status rest hrest =>
      rcases mem_cons.mp hx with heq | hw
      · cases heq
        obtain ⟨j, hj, hz⟩ := hzombie
        have hreturn : s.step .round = (s.reap j).runUntilReturn (some x)
            (.wait target status :: .dispatch x callerAs outer :: rest)
            (s.processes j).exitStatus := by
          simp only [Kernel.step, Kernel.runUntilRound, hframes, hj, hz, if_true]
        refine ⟨_, hreturn, fun hw => ?_⟩
        exact (nodup_cons.mp hnodup).1 (List.mem_map_of_mem hw)
      · exact absurd hw htail

/-- In every run in which a process that ends is waited for by nobody or by the innermost wait, no
wait is stranded. -/
theorem no_stranded_wait (s : Kernel M)
    (h : (kernelSystem M kas).Reachable Kernel.StopsInOrder s) : ¬ Stranded kas s := by
  rintro ⟨x, target, y, pid, -, hx, hzombie, -, halive, hblocked⟩
  obtain ⟨own, hctx⟩ := Kernel.Context.exists_of_reachable h
  obtain ⟨s', hstep, hnot⟩ := (Kernel.WaitsOpen.of_reachable h).returns hctx hx hzombie
  exact hnot (hblocked s' (.single ⟨.round, halive, hstep⟩))

/-- The condition is met by two shells that wait for their programs, if the program of the second
one to wait ends first. -/
theorem no_stranded_wait_inner : ∃ s : Kernel EndlessMemory,
    (kernelSystem EndlessMemory ⟨0, 0⟩).Reachable Kernel.StopsInOrder s ∧
      pendingWaits s.frames = [(1, 4), (0, 3)] ∧ s.TargetZombie 4 ∧ ¬ Stranded ⟨0, 0⟩ s := by
  obtain ⟨s, hreach, hring, hpid, hpending, hnext⟩ :=
    TransitionSystem.Reachable.exists_of_run (T := kernelSystem EndlessMemory ⟨0, 0⟩)
      Kernel.StopsInOrder
      (P := fun s => s.inRing3 = some 3 ∧ (s.processes 3).pid = 4 ∧
        pendingWaits s.frames = [(1, 4), (0, 3)] ∧
        (s.step (.user (.exit 0))).any fun s' =>
          pendingWaits s'.frames = [(1, 4), (0, 3)] ∧ s'.TargetZombie 4)
      (s := Kernel.boot ⟨1⟩ ⟨0, 0⟩ 0) ⟨⟨1⟩, 0, rfl⟩
      [.spawn [] [] none, .spawn [] [] none, .runUntil, .round, .user .fork, .user (.wait 3 0),
        .round, .user .fork, .user (.wait 4 0), .round, .user .tick, .round]
      (by simp [Kernel.StopsInOrder, UserEvent.exitCode]) (by decide)
  cases hstep : s.step (.user (.exit 0)) with
  | none => simp [hstep] at hnext
  | some s' =>
    have hguard : s.StopsInOrder (.user (.exit 0)) := by
      intro u _ _ i hi
      obtain rfl := some.inj (hring.symm.trans hi)
      simp [hpending, hpid]
    have hreach' := hreach.step hguard hstep
    simp only [hstep, any_some, decide_eq_true_eq] at hnext
    exact ⟨s', hreach', hnext.1, hnext.2, no_stranded_wait s' hreach'⟩

/-- Two shells each wait for their own program, and the program of the first one to wait ends
first: that wait is stranded under the other. -/
theorem stranded_wait : ∃ s : Kernel EndlessMemory,
    (kernelSystem EndlessMemory ⟨0, 0⟩).Reachable TransitionSystem.anyStep s ∧
      Stranded ⟨0, 0⟩ s := by
  obtain ⟨s, hreach, hhead, hx, hzombie, hy, halive⟩ :=
    (kernelSystem EndlessMemory ⟨0, 0⟩).exists_of_run
      (P := fun s => s.frames.head? = some (.runUntil (some 4) (some 1)) ∧
        (0, 3) ∈ pendingWaits s.frames.tail ∧ s.TargetZombie 3 ∧
        (1, 4) ∈ pendingWaits s.frames ∧ s.TargetAlive 4)
      (s := Kernel.boot ⟨1⟩ ⟨0, 0⟩ 0) ⟨⟨1⟩, 0, rfl⟩
      [.spawn [] [] none, .spawn [] [] none, .runUntil, .round, .user .fork, .user (.wait 3 0),
        .round, .user .fork, .user (.wait 4 0), .round, .user (.exit 0)]
      (by decide)
  obtain ⟨below, hs⟩ := head?_eq_some_iff.mp hhead
  rw [hs] at hx
  rw [← nil_append (_ :: below)] at hs
  exact ⟨s, hreach, Stranded.of_frames hreach (by decide) hs hx hzombie hy halive⟩

end Runs

end AnssOS
