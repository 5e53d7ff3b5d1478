import Mathlib

/-!
# Ring buffers and the queues they represent

A ring buffer of capacity `n` keeps a queue in an array of `n` cells: the queue starts at the cell
`head` and its `i`-th element is in the cell `(head + i) % n`.  `ringContents` reads the queue off
the array, `ringStore` is the loop that stores a list of elements in consecutive cells, and
`ringLoad` the loop that reads consecutive cells.

The two results used by every client are `ringContents_ringStore` — storing at the tail appends to
the queue, as long as the queue fits the array — and `ringContents_add`, which splits the queue at
any point into what a read returns and what it leaves behind.
-/

namespace AnssOS

variable {α : Type*} {n : ℕ} [NeZero n]

/-- The `count` elements read from consecutive cells, starting at the cell `pos`. -/
def ringLoad (buf : Fin n → α) (pos count : ℕ) : List α :=
  (List.range count).map fun i => buf (Fin.ofNat n (pos + i))

/-- The queue represented by a ring buffer: its `count` elements from the cell `head` on. -/
def ringContents (buf : Fin n → α) (head count : ℕ) : List α := ringLoad buf head count

/-- The loop that stores the elements of a list in consecutive cells, starting at the cell
`pos`. -/
def ringStore (buf : Fin n → α) (pos : ℕ) : List α → Fin n → α
  | [] => buf
  | b :: bs => ringStore (Function.update buf (Fin.ofNat n pos) b) (pos + 1) bs

section

variable (buf : Fin n → α)

@[simp] theorem length_ringContents (head count : ℕ) :
    (ringContents buf head count).length = count := by
  simp [ringContents, ringLoad]

/-- A ring buffer read from an equivalent starting position represents the same queue. -/
theorem ringContents_mod (head count : ℕ) :
    ringContents buf (head % n) count = ringContents buf head count := by
  simp only [ringContents, ringLoad]
  refine List.map_congr_left fun i _ => ?_
  congr 1
  simp [Fin.ofNat]

/-- The queue splits into its first `k` elements and the queue that starts `k` cells later. -/
theorem ringContents_add (head k m : ℕ) :
    ringContents buf head (k + m) = ringContents buf head k ++ ringContents buf (head + k) m := by
  simp only [ringContents, ringLoad, List.range_add, List.map_append, List.map_map]
  congr 1
  refine List.map_congr_left fun i _ => ?_
  simp [Function.comp, Nat.add_assoc]

/-- Storing is the same from an equivalent starting position. -/
theorem ringStore_mod (pos : ℕ) (data : List α) :
    ringStore buf (pos % n) data = ringStore buf pos data := by
  have key : ∀ (data : List α) (buf : Fin n → α) (p q : ℕ), p % n = q % n →
      ringStore buf p data = ringStore buf q data := by
    intro data
    induction data with
    | nil => intro buf p q _; rfl
    | cons b bs ih =>
      intro buf p q hpq
      have hcell : Fin.ofNat n p = Fin.ofNat n q := by
        simp [Fin.ofNat, hpq]
      simp only [ringStore, hcell]
      exact ih _ _ _ (Nat.ModEq.add_right 1 hpq)
  exact key data buf _ _ (Nat.mod_mod pos n)

/-- A cell outside the queue can be overwritten without changing the queue. -/
theorem ringContents_update_tail {head count : ℕ} (hcount : count < n) (b : α) :
    ringContents (Function.update buf (Fin.ofNat n (head + count)) b) head count =
      ringContents buf head count := by
  simp only [ringContents, ringLoad]
  refine List.map_congr_left fun i hi => ?_
  rw [List.mem_range] at hi
  refine Function.update_of_ne ?_ _ _
  intro heq
  -- two cells less than a full lap apart are different
  have hmod : head + i ≡ head + count [MOD n] := by
    have hval := congrArg Fin.val heq
    simp only [Fin.ofNat] at hval
    exact hval
  have : i ≡ count [MOD n] := Nat.ModEq.add_left_cancel' head hmod
  rw [Nat.ModEq, Nat.mod_eq_of_lt (hi.trans hcount), Nat.mod_eq_of_lt hcount] at this
  omega

/-- Storing at the tail appends to the queue, as long as the queue still fits the array. -/
theorem ringContents_ringStore (head count : ℕ) (data : List α) (hfit : count + data.length ≤ n) :
    ringContents (ringStore buf (head + count) data) head (count + data.length) =
      ringContents buf head count ++ data := by
  induction data generalizing buf count with
  | nil => simp [ringStore]
  | cons b bs ih =>
    rw [List.length_cons] at hfit
    have hone : ringContents (Function.update buf (Fin.ofNat n (head + count)) b) head (count + 1) =
        ringContents buf head count ++ [b] := by
      rw [ringContents_add, ringContents_update_tail buf (by omega) b]
      simp [ringContents, ringLoad]
    have hrest := ih (Function.update buf (Fin.ofNat n (head + count)) b) (count + 1) (by omega)
    rw [ringStore, List.length_cons, Nat.add_assoc head count 1]
    rw [hone, List.append_assoc, List.singleton_append] at hrest
    rw [← hrest, Nat.add_comm bs.length 1, Nat.add_assoc]

end
end AnssOS
