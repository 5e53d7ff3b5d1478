import Mathlib

/-!
# Lists linked by a table

The elements of a linked list are indices of a table, and the table gives the index that comes after
each of them.  Nothing marks the end, so that what is after the last element does not matter.
-/

namespace AnssOS

/-- The list starts at `start` and goes on as the table says. -/
def Follows (next : ℕ → ℕ) : ℕ → List ℕ → Prop
  | _, [] => True
  | start, i :: l => start = i ∧ Follows next (next i) l

/-- The first `count` elements from `start` on, and what comes after them. -/
def takeLinks (next : ℕ → ℕ) : ℕ → ℕ → List ℕ × ℕ
  | 0, start => ([], start)
  | count + 1, start =>
      let rest := takeLinks next count (next start)
      (start :: rest.1, rest.2)

variable {next next' : ℕ → ℕ} {start : ℕ}

theorem Follows.congr {l : List ℕ} (hnext : ∀ i ∈ l, next' i = next i) (h : Follows next start l) :
    Follows next' start l := by
  induction l generalizing start with
  | nil => trivial
  | cons i l ih =>
    refine ⟨h.1, ?_⟩
    rw [hnext i List.mem_cons_self]
    exact ih (fun j hj => hnext j (List.mem_cons_of_mem i hj)) h.2

/-- Elements are taken off the front of the list. -/
theorem Follows.takeLinks {l l' : List ℕ} (h : Follows next start (l ++ l')) :
    (takeLinks next l.length start).1 = l ∧ Follows next (takeLinks next l.length start).2 l' := by
  induction l generalizing start with
  | nil => exact ⟨rfl, h⟩
  | cons i l ih =>
    obtain ⟨rfl, hrest⟩ := h
    obtain ⟨htake, hleft⟩ := ih hrest
    exact ⟨congrArg (start :: ·) htake, hleft⟩

/-- A range is linked by the successor. -/
theorem follows_range' {len : ℕ} (hnext : ∀ i, i < start + len → next i = i + 1) :
    Follows next start (List.range' start len) := by
  induction len generalizing start with
  | zero => trivial
  | succ len ih =>
    rw [List.range'_succ]
    refine ⟨rfl, ?_⟩
    rw [hnext start (by omega)]
    exact ih (fun i hi => hnext i (by omega))

end AnssOS
