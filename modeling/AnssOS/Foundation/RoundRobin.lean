import Mathlib

/-!
# Round robin

A scheduler goes around a cycle of `n` places and picks each time the first candidate after the place that it
picked last.  The candidates may change in any way from one pick to the next; still, a place that is a candidate
`n` times in a row is picked one of these times.

### Outline

* `pickAfter`, the choice, and `gap`, the number of places that come before a given one;
* `gap_lt_of_pickAfter`: a candidate that is passed over comes closer;
* `Picks`, the logs of such a scheduler, and `Picks.exists_of_window` for `n` picks in a row.
-/

namespace AnssOS

variable {n : ℕ} {last i j : Fin n} {candidate : Fin n → Bool}

/-- How many places come before `i`, if one goes around from `last`. -/
def gap (last i : Fin n) : ℕ := if last < i then i - last - 1 else i + n - last - 1

theorem gap_lt (last i : Fin n) : gap last i < n := by
  have hlast := last.isLt
  have hi := i.isLt
  unfold gap
  split
  · omega
  · rename_i hle
    rw [Fin.lt_def] at hle
    omega

variable [NeZero n]

/-- The first candidate after `last`, where `last` itself comes last. -/
def pickAfter (last : Fin n) (candidate : Fin n → Bool) : Option (Fin n) :=
  ((List.range n).map fun k => Fin.ofNat n (last + (k + 1))).find? candidate

/-- The place that `k` places come before. -/
theorem val_ofNat_add (last : Fin n) {k : ℕ} (hk : k < n) :
    (Fin.ofNat n (last + (k + 1))).val =
      if last + (k + 1) < n then last + (k + 1) else last + (k + 1) - n := by
  have hlast := last.isLt
  rw [Fin.val_ofNat]
  split
  · rename_i hlt
    exact Nat.mod_eq_of_lt hlt
  · rename_i hge
    rw [Nat.mod_eq_sub_mod (by omega), Nat.mod_eq_of_lt (by omega)]

theorem ofNat_gap (last i : Fin n) : Fin.ofNat n (last + (gap last i + 1)) = i := by
  have hlast := last.isLt
  have hi := i.isLt
  apply Fin.ext
  rw [val_ofNat_add last (gap_lt last i)]
  unfold gap
  by_cases hlt : last < i
  · rw [if_pos hlt]
    rw [Fin.lt_def] at hlt
    rw [if_pos (by omega)]
    omega
  · rw [if_neg hlt]
    rw [Fin.lt_def] at hlt
    rw [if_neg (by omega)]
    omega

/-- From a place between the two, there are fewer places left. -/
theorem gap_ofNat_lt {k : ℕ} (hk : k < gap last i) :
    gap (Fin.ofNat n (last + (k + 1))) i < gap last i := by
  have hlast := last.isLt
  have hi := i.isLt
  have hn := gap_lt last i
  have hval := val_ofNat_add last (hk.trans hn)
  generalize Fin.ofNat n (last + (k + 1)) = m at hval ⊢
  unfold gap at hk hn ⊢
  simp only [Fin.lt_def] at hk hn ⊢
  by_cases hwrap : last + (k + 1) < n
  · rw [if_pos hwrap] at hval
    split_ifs at hk hn ⊢ <;> omega
  · rw [if_neg hwrap] at hval
    split_ifs at hk hn ⊢ <;> omega

/-- If there is a candidate, one is picked; and a candidate that is passed over comes closer. -/
theorem gap_lt_of_pickAfter (last : Fin n) (hi : candidate i = true) :
    pickAfter last candidate = some i ∨
      ∃ j, pickAfter last candidate = some j ∧ gap j i < gap last i := by
  have hfind : pickAfter last candidate =
      ((List.range n).find? fun k => candidate (Fin.ofNat n (last + (k + 1)))).map
        fun k => Fin.ofNat n (last + (k + 1)) := by
    rw [pickAfter, List.find?_map]
    rfl
  cases hk : (List.range n).find? fun k => candidate (Fin.ofNat n (last + (k + 1))) with
  | none =>
    have hnone := List.find?_eq_none.mp hk (gap last i) (List.mem_range.mpr (gap_lt last i))
    rw [ofNat_gap, hi] at hnone
    exact absurd rfl hnone
  | some k =>
    rw [hk] at hfind
    obtain ⟨-, -, hfirst⟩ := List.find?_range_eq_some.mp hk
    rcases lt_trichotomy k (gap last i) with hlt | heq | hgt
    · exact Or.inr ⟨_, hfind, gap_ofNat_lt hlt⟩
    · rw [heq] at hfind
      exact Or.inl (hfind.trans (congrArg some (ofNat_gap last i)))
    · have hnot := hfirst (gap last i) hgt
      rw [ofNat_gap, hi] at hnot
      cases hnot

/-- A log of picks, each of them with the candidates there were, by a scheduler that has picked `last`
before. -/
def Picks : Fin n → List ((Fin n → Bool) × Option (Fin n)) → Prop
  | _, [] => True
  | last, (candidate, picked) :: log =>
      picked = pickAfter last candidate ∧ Picks (picked.getD last) log

theorem Picks.of_append {before log : List ((Fin n → Bool) × Option (Fin n))}
    (h : Picks last (before ++ log)) : ∃ last', Picks last' log := by
  induction before generalizing last with
  | nil => exact ⟨last, h⟩
  | cons call before ih => exact ih h.2

theorem Picks.left {log after : List ((Fin n → Bool) × Option (Fin n))}
    (h : Picks last (log ++ after)) : Picks last log := by
  induction log generalizing last with
  | nil => trivial
  | cons call log ih => exact ⟨h.1, ih h.2⟩

/-- As many picks as there are places up to `i`. -/
theorem Picks.exists_of_gap_lt {log : List ((Fin n → Bool) × Option (Fin n))} (h : Picks last log)
    (hi : ∀ call ∈ log, call.1 i = true) (hlen : gap last i < log.length) :
    ∃ call ∈ log, call.2 = some i := by
  induction log generalizing last with
  | nil => exact absurd hlen (Nat.not_lt_zero _)
  | cons call log ih =>
    obtain ⟨candidate, picked⟩ := call
    obtain ⟨hpicked, hrest⟩ := h
    rcases gap_lt_of_pickAfter last (hi _ List.mem_cons_self) with heq | ⟨j, heq, hcloser⟩
    · exact ⟨_, List.mem_cons_self, hpicked.trans heq⟩
    · rw [hpicked, heq, Option.getD_some] at hrest
      rw [List.length_cons] at hlen
      obtain ⟨call, hmem, hcall⟩ := ih hrest (fun call hcall => hi call (List.mem_cons_of_mem _ hcall))
        (by omega)
      exact ⟨call, List.mem_cons_of_mem _ hmem, hcall⟩

/-- As many picks in a row as there are places. -/
theorem Picks.exists_of_window {before window after : List ((Fin n → Bool) × Option (Fin n))}
    (h : Picks last (before ++ window ++ after)) (hi : ∀ call ∈ window, call.1 i = true)
    (hlen : n ≤ window.length) : ∃ call ∈ window, call.2 = some i := by
  obtain ⟨last', hwindow⟩ := h.left.of_append
  exact hwindow.exists_of_gap_lt hi ((gap_lt last' i).trans_le hlen)

end AnssOS
