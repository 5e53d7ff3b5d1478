import Mathlib

/-!
# Transition systems and guarded runs

A labelled transition system is a set of initial states together with a partial step function.
Safety properties of a system are invariants of its *guarded runs*: a guard is a condition on a
state and the event about to happen in it, and a state is reachable under the guard when some run
leads to it each of whose steps meets the guard.  With the guard `fun _ _ => True` these are all
the reachable states.

### Outline

* `TransitionSystem`, its guarded one-step relation `Step` and the guarded reachable states
  `Reachable`;
* the induction rule `Reachable.invariant`, which lets the step case use that the state it starts
  from is itself reachable, so that one invariant can be proved on top of another;
* monotonicity in the guard, and the closure of the reachable states under longer runs;
* runs that can be computed: `run` from a list of events, and the system `restrict`ed to a guard.
-/

namespace AnssOS

/-- A labelled transition system: its initial states and its partial step function.  The value
`step s e = none` says that the event `e` cannot happen in the state `s`. -/
structure TransitionSystem (σ ε : Type*) where
  init : σ → Prop
  step : σ → ε → Option σ

namespace TransitionSystem

variable {σ ε : Type*} (T : TransitionSystem σ ε)

/-- The guard met by every step. -/
def anyStep : σ → ε → Prop := fun _ _ => True

/-- One step of the system whose event meets the guard. -/
def Step (guard : σ → ε → Prop) (s s' : σ) : Prop :=
  ∃ e, guard s e ∧ T.step s e = some s'

/-- The states reached by the runs all of whose steps meet the guard. -/
inductive Reachable (guard : σ → ε → Prop) : σ → Prop
  | init {s : σ} (h : T.init s) : Reachable guard s
  | step {s s' : σ} {e : ε} (h : Reachable guard s) (hg : guard s e)
      (hs : T.step s e = some s') : Reachable guard s'

variable {T} {guard guard' : σ → ε → Prop}

/-- The invariant rule: a property that holds initially and is kept by every guarded step that
starts in a reachable state holds in every reachable state. -/
theorem Reachable.invariant {P : σ → Prop} (hinit : ∀ s, T.init s → P s)
    (hstep : ∀ s e s', T.Reachable guard s → P s → guard s e → T.step s e = some s' → P s')
    {s : σ} (h : T.Reachable guard s) : P s := by
  induction h with
  | init h => exact hinit _ h
  | step h hg hs ih => exact hstep _ _ _ h ih hg hs

/-- A weaker guard reaches more states. -/
theorem Reachable.mono (hle : ∀ s e, guard s e → guard' s e) {s : σ}
    (h : T.Reachable guard s) : T.Reachable guard' s := by
  induction h with
  | init h => exact Reachable.init h
  | step _ hg hs ih => exact Reachable.step ih (hle _ _ hg) hs

theorem Reachable.any {s : σ} (h : T.Reachable guard s) : T.Reachable anyStep s :=
  h.mono fun _ _ _ => trivial

/-- The state reached by a list of events, if each of them can happen in turn. -/
def run (T : TransitionSystem σ ε) (s : σ) : List ε → Option σ
  | [] => some s
  | e :: es => (T.step s e).bind fun s' => T.run s' es

/-- A run of the step function whose events always meet the guard reaches reachable states. -/
theorem Reachable.of_run {s s' : σ} (h : T.Reachable guard s) {es : List ε}
    (hg : ∀ e ∈ es, ∀ s, guard s e) (hr : T.run s es = some s') : T.Reachable guard s' := by
  induction es generalizing s with
  | nil =>
    obtain rfl : s = s' := by simpa [run] using hr
    exact h
  | cons e es ih =>
    obtain ⟨t, ht, hrest⟩ := Option.bind_eq_some_iff.mp hr
    have hstep := Reachable.step h (hg e List.mem_cons_self s) ht
    exact ih hstep (fun e he => hg e (List.mem_cons_of_mem _ he)) hrest

/-- What a run of the step function can be seen to reach, is reached. -/
theorem Reachable.exists_of_run (g : σ → ε → Prop) {P : σ → Prop} [DecidablePred P] {s : σ}
    (h : T.init s) (es : List ε) (hg : ∀ e ∈ es, ∀ s, g s e)
    (hr : (T.run s es).any (fun s' => decide (P s')) = true) :
    ∃ s', T.Reachable g s' ∧ P s' := by
  cases hs : T.run s es with
  | none => simp [hs] at hr
  | some s' =>
    rw [hs] at hr
    exact ⟨s', (Reachable.init h).of_run hg hs, of_decide_eq_true hr⟩

theorem exists_of_run (T : TransitionSystem σ ε) {P : σ → Prop} [DecidablePred P] {s : σ}
    (h : T.init s) (es : List ε) (hr : (T.run s es).any (fun s' => decide (P s')) = true) :
    ∃ s', T.Reachable anyStep s' ∧ P s' :=
  Reachable.exists_of_run anyStep h es (fun _ _ _ => trivial) hr

/-- The system that makes a step only if it meets the guard. -/
def restrict (T : TransitionSystem σ ε) (g : σ → ε → Prop) [∀ s e, Decidable (g s e)] :
    TransitionSystem σ ε where
  init := T.init
  step s e := if g s e then T.step s e else none

theorem Reachable.of_restrict {g : σ → ε → Prop} [∀ s e, Decidable (g s e)] {s : σ}
    (h : (T.restrict g).Reachable guard s) : T.Reachable g s := by
  induction h with
  | init h => exact .init h
  | @step s s' e _ _ hs ih =>
    by_cases hg : g s e
    · exact ih.step hg (by simpa [restrict, hg] using hs)
    · simp [restrict, hg] at hs

end TransitionSystem

end AnssOS
