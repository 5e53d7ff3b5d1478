import Mathlib

/-!
# The log of a loop

A loop over a list whose rounds change a state and can fail is `List.foldlM` for `Except`.  What its
rounds do besides is described by a function `log` of the state and the element; `foldLog` is the log
of the whole loop, which ends with the round that fails.

### Outline

* `foldLog`, and which round has logged an entry;
* two loops whose rounds agree as far as the log goes have the same result.
-/

namespace AnssOS

variable {σ α β ε : Type*}

/-- What the rounds of a loop log, up to the one that fails. -/
def foldLog (step : σ → α → Except ε σ) (log : σ → α → List β) : σ → List α → List β
  | _, [] => []
  | s, a :: as => log s a ++
      match step s a with
      | .error _ => []
      | .ok s => foldLog step log s as

variable {step : σ → α → Except ε σ} {log : σ → α → List β} {P : β → Prop}

/-- What is in the log was logged by one of the rounds. -/
theorem exists_of_mem_foldLog {s : σ} {as : List α} {b : β} (h : b ∈ foldLog step log s as) :
    ∃ done a rest s', as = done ++ a :: rest ∧ done.foldlM step s = .ok s' ∧ b ∈ log s' a := by
  induction as generalizing s with
  | nil => cases h
  | cons a as ih =>
    rw [foldLog, List.mem_append] at h
    rcases h with h | h
    · exact ⟨[], a, as, s, rfl, rfl, h⟩
    · cases hround : step s a with
      | error e =>
        rw [hround] at h
        cases h
      | ok s₁ =>
        rw [hround] at h
        obtain ⟨done, a', rest, s', rfl, hdone, hb⟩ := ih h
        refine ⟨a :: done, a', rest, s', rfl, ?_, hb⟩
        rw [List.foldlM_cons, hround]
        exact hdone

/-- A loop depends only on what its rounds depend on. -/
theorem foldlM_congr_of_foldLog {step' : σ → α → Except ε σ}
    (hstep : ∀ s a, (∀ b ∈ log s a, P b) → step' s a = step s a) {s : σ} {as : List α}
    (h : ∀ b ∈ foldLog step log s as, P b) : as.foldlM step' s = as.foldlM step s := by
  induction as generalizing s with
  | nil => rfl
  | cons a as ih =>
    rw [foldLog] at h
    obtain ⟨hlog, hrest⟩ := List.forall_mem_append.mp h
    rw [List.foldlM_cons, List.foldlM_cons, hstep s a hlog]
    cases hround : step s a with
    | error e => rfl
    | ok s' =>
      rw [hround] at hrest
      exact ih hrest

end AnssOS
