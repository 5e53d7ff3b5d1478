import Mathlib

/-!
# Adding up what finitely many places hold

`tally weight f` adds up the weights of what the places of a finite type hold.  The rule of the
module is `tally_update`: overwriting one place replaces its share of the sum.  Every count of
references, pages or entries is a tally, and every operation on one place is an instance of the
rule.
-/

namespace AnssOS

section Tally

variable {ι α : Type*} [Fintype ι] (weight : α → ℕ) (f : ι → α)

/-- The sum of the weights of what the places hold. -/
def tally : ℕ := ∑ i, weight (f i)

variable {weight f}

theorem tally_congr {g : ι → α} {weight' : α → ℕ} (h : ∀ i, weight' (g i) = weight (f i)) :
    tally weight' g = tally weight f :=
  Finset.sum_congr rfl fun i _ => h i

theorem tally_eq_zero : tally weight f = 0 ↔ ∀ i, weight (f i) = 0 := by
  simp [tally]

/-- Each place contributes its share. -/
theorem le_tally (weight : α → ℕ) (f : ι → α) (i : ι) : weight (f i) ≤ tally weight f :=
  Finset.single_le_sum (f := fun j => weight (f j)) (fun _ _ => Nat.zero_le _) (Finset.mem_univ i)

/-- A bound on every share bounds the sum. -/
theorem tally_le {b : ℕ} (h : ∀ i, weight (f i) ≤ b) : tally weight f ≤ Fintype.card ι * b := by
  have hsum := Finset.sum_le_card_nsmul Finset.univ (fun i => weight (f i)) b fun i _ => h i
  simpa [tally] using hsum

variable [DecidableEq ι]

/-- Overwriting one place replaces its share. -/
theorem tally_update (weight : α → ℕ) (f : ι → α) (i : ι) (x : α) :
    tally weight (Function.update f i x) + weight (f i) = tally weight f + weight x := by
  have hrest : ∑ j ∈ Finset.univ.erase i, weight (Function.update f i x j) =
      ∑ j ∈ Finset.univ.erase i, weight (f j) :=
    Finset.sum_congr rfl fun j hj => by rw [Function.update_of_ne (Finset.ne_of_mem_erase hj)]
  unfold tally
  rw [← Finset.add_sum_erase _ (fun j => weight (Function.update f i x j)) (Finset.mem_univ i),
    ← Finset.add_sum_erase _ (fun j => weight (f j)) (Finset.mem_univ i), hrest,
    Function.update_self]
  ring

end Tally

end AnssOS
