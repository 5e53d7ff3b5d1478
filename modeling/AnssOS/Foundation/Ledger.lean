import Mathlib

/-!
# Ledgers of resources that are created once and freed once

A ledger hands out serial numbers to the resources it creates and logs the serial numbers of the
resources that are freed.  The places that hold resources are described by a function
`held : ι → Option ℕ` from places to serial numbers.  `Ledger.Balanced` says that every resource
created so far is either in the log or held in exactly one place, and that nothing is logged twice.

The lemmas follow the ways in which places change: a new resource is put into an empty place
(`Balanced.create`), a resource moves to an empty place (`Balanced.move`), a held resource is freed
(`Balanced.release`), and a resource is created and freed at once without ever being held
(`Balanced.discard`).
-/

namespace AnssOS

/-- The serial numbers handed out so far are `1, …, created`; `freed` is the log of frees. -/
structure Ledger where
  created : ℕ
  freed : List ℕ
deriving DecidableEq

namespace Ledger

/-- The ledger before anything is created. -/
def empty : Ledger := ⟨0, []⟩

/-- The serial number the next created resource gets. -/
def next (l : Ledger) : ℕ := l.created + 1

/-- A resource is created. -/
def create (l : Ledger) : Ledger := { l with created := l.created + 1 }

/-- The resource with the serial number `k` is freed. -/
def release (l : Ledger) (k : ℕ) : Ledger := { l with freed := k :: l.freed }

/-- The resource with an optional serial number is freed. -/
def releaseOpt (l : Ledger) (k : Option ℕ) : Ledger :=
  match k with
  | some k => l.release k
  | none => l

variable {ι : Type*} {l : Ledger} {held held' : ι → Option ℕ}

/-- Every resource created so far has been freed once or is held in exactly one place, and nothing
else is held or logged. -/
structure Balanced (l : Ledger) (held : ι → Option ℕ) : Prop where
  held_live : ∀ x k, held x = some k → 1 ≤ k ∧ k ≤ l.created ∧ k ∉ l.freed
  held_inj : ∀ x y k, held x = some k → held y = some k → x = y
  covered : ∀ k, 1 ≤ k → k ≤ l.created → k ∈ l.freed ∨ ∃ x, held x = some k
  freed_created : ∀ k ∈ l.freed, 1 ≤ k ∧ k ≤ l.created
  freed_nodup : l.freed.Nodup

/-- Nothing is created, nothing is held. -/
theorem Balanced.of_empty (h : ∀ x, held x = none) : empty.Balanced held where
  held_live x k hk := by simp [h x] at hk
  held_inj x y k hk := by simp [h x] at hk
  covered k h1 h2 := by simp [empty] at h2; omega
  freed_created k hk := by simp [empty] at hk
  freed_nodup := List.nodup_nil

section

variable (h : l.Balanced held)

include h

/-- Balance only depends on what each place holds. -/
theorem Balanced.congr (heq : ∀ x, held' x = held x) : l.Balanced held' := by
  obtain rfl : held' = held := funext heq
  exact h

/-- A new resource is put into an empty place. -/
theorem Balanced.create {x : ι} (hx : held x = none) (hnew : held' x = some l.next)
    (hrest : ∀ y, y ≠ x → held' y = held y) : l.create.Balanced held' := by
  have hold : ∀ y k, held' y = some k → y = x ∧ k = l.next ∨ held y = some k := by
    intro y k hk
    by_cases hy : y = x
    · subst hy
      rw [hnew] at hk
      exact Or.inl ⟨rfl, (Option.some.inj hk).symm⟩
    · exact Or.inr (hrest y hy ▸ hk)
  refine ⟨?_, ?_, ?_, ?_, h.freed_nodup⟩
  · intro y k hk
    rcases hold y k hk with ⟨-, rfl⟩ | hk
    · refine ⟨by simp [next], le_refl _, fun hmem => ?_⟩
      have := (h.freed_created _ hmem).2
      simp [next] at this
    · obtain ⟨h1, h2, h3⟩ := h.held_live y k hk
      exact ⟨h1, Nat.le_succ_of_le h2, h3⟩
  · intro y z k hy hz
    rcases hold y k hy with ⟨rfl, rfl⟩ | hy
    · rcases hold z _ hz with ⟨rfl, -⟩ | hz
      · rfl
      · have := (h.held_live z _ hz).2.1
        simp [next] at this
    · rcases hold z k hz with ⟨rfl, rfl⟩ | hz
      · have := (h.held_live y _ hy).2.1
        simp [next] at this
      · exact h.held_inj y z k hy hz
  · intro k h1 h2
    rcases Nat.lt_or_ge l.created k with hlt | hle
    · have : k = l.next := by simp only [Ledger.create] at h2; simp [next]; omega
      exact Or.inr ⟨x, this ▸ hnew⟩
    · rcases h.covered k h1 hle with hk | ⟨y, hy⟩
      · exact Or.inl hk
      · have hyx : y ≠ x := fun heq => by simp [heq, hx] at hy
        exact Or.inr ⟨y, (hrest y hyx).trans hy⟩
  · intro k hk
    exact ⟨(h.freed_created k hk).1, Nat.le_succ_of_le (h.freed_created k hk).2⟩

/-- A held resource moves to an empty place. -/
theorem Balanced.move {x y : ι} (hy : held y = none)
    (hmoved : held' y = held x) (hleft : held' x = none)
    (hrest : ∀ z, z ≠ x → z ≠ y → held' z = held z) : l.Balanced held' := by
  have hold : ∀ z k, held' z = some k →
      (z = y ∧ held x = some k) ∨ (z ≠ x ∧ z ≠ y ∧ held z = some k) := by
    intro z k hk
    by_cases hzx : z = x
    · simp [hzx, hleft] at hk
    by_cases hzy : z = y
    · subst hzy
      exact Or.inl ⟨rfl, hmoved ▸ hk⟩
    · exact Or.inr ⟨hzx, hzy, hrest z hzx hzy ▸ hk⟩
  refine ⟨?_, ?_, ?_, h.freed_created, h.freed_nodup⟩
  · intro z k hk
    rcases hold z k hk with ⟨-, hk⟩ | ⟨-, -, hk⟩ <;> exact h.held_live _ k hk
  · intro z w k hz hw
    rcases hold z k hz with ⟨rfl, hz⟩ | ⟨hzx, -, hz⟩
    · rcases hold w k hw with ⟨rfl, -⟩ | ⟨hwx, -, hw⟩
      · rfl
      · exact absurd (h.held_inj _ _ k hw hz) hwx
    · rcases hold w k hw with ⟨rfl, hw⟩ | ⟨-, -, hw⟩
      · exact absurd (h.held_inj _ _ k hz hw) hzx
      · exact h.held_inj _ _ k hz hw
  · intro k h1 h2
    rcases h.covered k h1 h2 with hk | ⟨z, hz⟩
    · exact Or.inl hk
    · by_cases hzx : z = x
      · subst hzx
        exact Or.inr ⟨y, hmoved.trans hz⟩
      · have hzy : z ≠ y := fun heq => by simp [heq, hy] at hz
        exact Or.inr ⟨z, (hrest z hzx hzy).trans hz⟩

/-- The resource held in a place is freed and the place emptied. -/
theorem Balanced.release {x : ι} {k : ℕ} (hx : held x = some k) (hleft : held' x = none)
    (hrest : ∀ y, y ≠ x → held' y = held y) : (l.release k).Balanced held' := by
  have hold : ∀ y j, held' y = some j → y ≠ x ∧ held y = some j := by
    intro y j hj
    have hyx : y ≠ x := fun heq => by simp [heq, hleft] at hj
    exact ⟨hyx, hrest y hyx ▸ hj⟩
  refine ⟨?_, ?_, ?_, ?_, ?_⟩
  · intro y j hj
    obtain ⟨hyx, hj⟩ := hold y j hj
    obtain ⟨h1, h2, h3⟩ := h.held_live y j hj
    refine ⟨h1, h2, ?_⟩
    rw [Ledger.release, List.mem_cons]
    rintro (rfl | hmem)
    · exact hyx (h.held_inj _ _ _ hj hx)
    · exact h3 hmem
  · intro y z j hy hz
    exact h.held_inj y z j (hold y j hy).2 (hold z j hz).2
  · intro j h1 h2
    rcases h.covered j h1 h2 with hj | ⟨y, hy⟩
    · exact Or.inl (List.mem_cons_of_mem _ hj)
    · by_cases hyx : y = x
      · subst hyx
        obtain rfl : k = j := Option.some.inj (hx.symm.trans hy)
        exact Or.inl List.mem_cons_self
      · exact Or.inr ⟨y, (hrest y hyx).trans hy⟩
  · intro j hj
    rcases List.mem_cons.mp hj with rfl | hj
    · exact ⟨(h.held_live x _ hx).1, (h.held_live x _ hx).2.1⟩
    · exact h.freed_created j hj
  · exact List.nodup_cons.mpr ⟨(h.held_live x k hx).2.2, h.freed_nodup⟩

/-- A place is emptied, and whatever was in it is freed. -/
theorem Balanced.releaseOpt {x : ι} (hleft : held' x = none)
    (hrest : ∀ y, y ≠ x → held' y = held y) : (l.releaseOpt (held x)).Balanced held' := by
  cases hx : held x with
  | some k => exact h.release hx hleft hrest
  | none =>
    refine h.congr fun y => ?_
    by_cases hy : y = x
    · rw [hy, hleft, hx]
    · exact hrest y hy

/-- A resource is created and freed again without having been held anywhere. -/
theorem Balanced.discard : (l.create.release l.next).Balanced held := by
  have hfresh : l.next ∉ l.freed := fun hmem => by
    have := (h.freed_created _ hmem).2
    simp [next] at this
  refine ⟨?_, h.held_inj, ?_, ?_, List.nodup_cons.mpr ⟨hfresh, h.freed_nodup⟩⟩
  · intro x k hk
    obtain ⟨h1, h2, h3⟩ := h.held_live x k hk
    refine ⟨h1, Nat.le_succ_of_le h2, ?_⟩
    rw [Ledger.release, List.mem_cons]
    rintro (rfl | hmem)
    · simp [next] at h2
    · exact h3 hmem
  · intro k h1 h2
    rcases Nat.lt_or_ge l.created k with hlt | hle
    · have : k = l.next := by simp only [Ledger.create, Ledger.release] at h2; simp [next]; omega
      exact Or.inl (this ▸ List.mem_cons_self)
    · rcases h.covered k h1 hle with hk | hk
      · exact Or.inl (List.mem_cons_of_mem _ hk)
      · exact Or.inr hk
  · intro k hk
    rcases List.mem_cons.mp hk with rfl | hk
    · exact ⟨by simp [next], le_refl _⟩
    · exact ⟨(h.freed_created k hk).1, Nat.le_succ_of_le (h.freed_created k hk).2⟩

/-- Each resource has been freed and is held nowhere, or has not been freed and is held in exactly
one place. -/
theorem Balanced.freed_or_existsUnique {k : ℕ} (h1 : 1 ≤ k) (h2 : k ≤ l.created) :
    (k ∈ l.freed ∧ ∀ x, held x ≠ some k) ∨ (k ∉ l.freed ∧ ∃! x, held x = some k) := by
  rcases h.covered k h1 h2 with hk | ⟨x, hx⟩
  · exact Or.inl ⟨hk, fun x hx => (h.held_live x k hx).2.2 hk⟩
  · exact Or.inr ⟨(h.held_live x k hx).2.2, x, hx, fun y hy => h.held_inj y x k hy hx⟩

/-- With every place empty, everything that was created has been freed. -/
theorem Balanced.all_freed (hnone : ∀ x, held x = none) :
    ∀ k, 1 ≤ k → k ≤ l.created → k ∈ l.freed := by
  intro k h1 h2
  rcases h.covered k h1 h2 with hk | ⟨x, hx⟩
  · exact hk
  · simp [hnone x] at hx

end
end Ledger

end AnssOS
