import AnssOS.Exec.ElfLayout

/-!
# The break of a process

What `sys_brk` does to the heap of a process, apart from the rest of the kernel: the heap grows page
by page until it reaches the requested end, or until `alloc_page` fails.

### Outline

* `Break`, `Break.sysBrk`: the break, and the call for a given number of pages that the allocator
  delivers;
* `Break.sysBrk_cases`: what the call can do;
* `Break.failed_sysBrk_iff`: when a failed call leaves no trace;
* `Kernel.sysBrk_refines`: the call as the kernel makes it is one of these.
-/

namespace AnssOS

open Kernel (heapMaxBytes)

/-- The heap of a process: its bounds, and the pages mapped for it so far. -/
structure Break where
  heapStart : ℕ
  heapEnd : ℕ
  mapped : List ℕ
deriving DecidableEq

namespace Break

/-- The loop of `sys_brk`, if `alloc_page` delivers `avail` pages before it fails. -/
def brkLoop (newEnd : ℕ) : ℕ → Break → Option ℕ × Break
  | 0, b => if b.heapEnd < newEnd then (none, b) else (some b.heapEnd, b)
  | avail + 1, b =>
      if b.heapEnd < newEnd then
        brkLoop newEnd avail { b with
          heapEnd := b.heapEnd + pageSize
          mapped := b.mapped ++ [b.heapEnd] }
      else (some b.heapEnd, b)

/-- `sys_brk`, if `alloc_page` delivers `avail` pages during the call; `none` is -1. -/
def sysBrk (b : Break) (avail newEnd : ℕ) : Option ℕ × Break :=
  if newEnd = 0 ∨ newEnd ≤ b.heapEnd then (some b.heapEnd, b)
  else if heapMaxBytes < newEnd - b.heapStart then (none, b)
  else brkLoop newEnd avail b

/-! ### What the call can do -/

/-- The heap with `n` more pages. -/
def grown (b : Break) (n : ℕ) : Break where
  heapStart := b.heapStart
  heapEnd := b.heapEnd + n * pageSize
  mapped := b.mapped ++ (List.range n).map fun k => b.heapEnd + k * pageSize

@[simp] theorem grown_heapStart (b : Break) (n : ℕ) : (b.grown n).heapStart = b.heapStart := rfl

@[simp] theorem grown_heapEnd (b : Break) (n : ℕ) :
    (b.grown n).heapEnd = b.heapEnd + n * pageSize := rfl

@[simp] theorem grown_zero (b : Break) : b.grown 0 = b := by
  simp [grown]

theorem grown_add (b : Break) (m n : ℕ) : b.grown (m + n) = (b.grown m).grown n := by
  have hshift : ∀ k, b.heapEnd + (m + k) * pageSize = b.heapEnd + m * pageSize + k * pageSize := by
    intro k
    rw [Nat.add_mul, Nat.add_assoc]
  simp only [grown, List.range_add, List.map_append, List.map_map, List.append_assoc, hshift,
    Function.comp_def]

theorem grown_eq_self {b : Break} {n : ℕ} : b.grown n = b ↔ n = 0 := by
  refine ⟨fun h => ?_, fun h => h ▸ b.grown_zero⟩
  have := congrArg heapEnd h
  rw [grown_heapEnd] at this
  unfold pageSize at this
  omega

/-- The pages that a request takes. -/
def needs (b : Break) (newEnd : ℕ) : ℕ := divCeil (newEnd - b.heapEnd) pageSize

theorem needs_pos {b : Break} {newEnd : ℕ} : 0 < b.needs newEnd ↔ b.heapEnd < newEnd := by
  unfold needs divCeil pageSize
  omega

theorem needs_grown {b : Break} {newEnd : ℕ} (h : b.heapEnd < newEnd) :
    (b.grown 1).needs newEnd + 1 = b.needs newEnd := by
  rw [needs, needs, grown_heapEnd]
  unfold divCeil pageSize
  omega

/-- By induction on the pages that the allocator delivers: the loop takes as many as it needs, or
all that there are. -/
theorem brkLoop_eq (newEnd avail : ℕ) (b : Break) :
    brkLoop newEnd avail b =
      if b.needs newEnd ≤ avail then
        (some (b.grown (b.needs newEnd)).heapEnd, b.grown (b.needs newEnd))
      else (none, b.grown avail) := by
  have hdone : ∀ b : Break, ¬ b.heapEnd < newEnd → b.needs newEnd = 0 := fun b h =>
    Nat.eq_zero_of_not_pos fun hpos => h (needs_pos.mp hpos)
  induction avail generalizing b with
  | zero =>
    rw [brkLoop]
    by_cases hlt : b.heapEnd < newEnd
    · rw [if_pos hlt, if_neg (not_le.mpr (needs_pos.mpr hlt)), grown_zero]
    · rw [if_neg hlt, hdone b hlt, if_pos le_rfl, grown_zero]
  | succ avail ih =>
    rw [brkLoop]
    by_cases hlt : b.heapEnd < newEnd
    · have hround : { b with heapEnd := b.heapEnd + pageSize, mapped := b.mapped ++ [b.heapEnd] } =
          b.grown 1 := by
        simp [grown]
      rw [if_pos hlt, hround, ih, ← needs_grown hlt]
      by_cases henough : (b.grown 1).needs newEnd ≤ avail
      · rw [if_pos henough, if_pos (Nat.succ_le_succ henough), Nat.add_comm _ 1, grown_add]
      · rw [if_neg henough, if_neg (by omega), Nat.add_comm _ 1, grown_add]
    · rw [if_neg hlt, hdone b hlt, if_pos (Nat.zero_le _), grown_zero]

/-- The request is one that the loop tries to meet. -/
def Tries (b : Break) (newEnd : ℕ) : Prop :=
  b.heapEnd < newEnd ∧ newEnd - b.heapStart ≤ heapMaxBytes

instance (b : Break) (newEnd : ℕ) : Decidable (b.Tries newEnd) := by
  unfold Tries
  infer_instance

theorem sysBrk_cases (b : Break) (avail newEnd : ℕ) :
    newEnd ≤ b.heapEnd ∧ b.sysBrk avail newEnd = (some b.heapEnd, b) ∨
      b.heapEnd < newEnd ∧ heapMaxBytes < newEnd - b.heapStart ∧
        b.sysBrk avail newEnd = (none, b) ∨
      b.Tries newEnd ∧ b.needs newEnd ≤ avail ∧ b.sysBrk avail newEnd =
        (some (b.grown (b.needs newEnd)).heapEnd, b.grown (b.needs newEnd)) ∨
      b.Tries newEnd ∧ avail < b.needs newEnd ∧ b.sysBrk avail newEnd = (none, b.grown avail) := by
  unfold sysBrk Tries
  by_cases hquery : newEnd = 0 ∨ newEnd ≤ b.heapEnd
  · exact Or.inl ⟨by omega, if_pos hquery⟩
  · rw [if_neg hquery]
    by_cases hmax : heapMaxBytes < newEnd - b.heapStart
    · exact Or.inr (Or.inl ⟨by omega, hmax, if_pos hmax⟩)
    · rw [if_neg hmax, brkLoop_eq]
      by_cases henough : b.needs newEnd ≤ avail
      · exact Or.inr (Or.inr (Or.inl ⟨by omega, henough, if_pos henough⟩))
      · exact Or.inr (Or.inr (Or.inr ⟨by omega, by omega, if_neg henough⟩))

/-- The call grows the heap by some pages; what it returns is the new end of the heap. -/
theorem sysBrk_grown (b : Break) (avail newEnd : ℕ) :
    ∃ n, (b.sysBrk avail newEnd).2 = b.grown n ∧
      ∀ r, (b.sysBrk avail newEnd).1 = some r → r = b.heapEnd + n * pageSize := by
  rcases b.sysBrk_cases avail newEnd with ⟨-, heq⟩ | ⟨-, -, heq⟩ | ⟨-, -, heq⟩ | ⟨-, -, heq⟩
  · refine ⟨0, by simp [heq], fun r hr => ?_⟩
    rw [heq] at hr
    simpa using (Option.some.inj hr).symm
  · exact ⟨0, by simp [heq], by simp [heq]⟩
  · refine ⟨b.needs newEnd, by rw [heq], fun r hr => ?_⟩
    rw [heq] at hr
    exact (Option.some.inj hr).symm
  · exact ⟨avail, by rw [heq], by simp [heq]⟩

/-- The heap grows by some of the pages it needs, and then no more. -/
def StopsPartWay (b : Break) (avail newEnd : ℕ) : Prop :=
  b.Tries newEnd ∧ 0 < avail ∧ avail < b.needs newEnd

instance (b : Break) (avail newEnd : ℕ) : Decidable (b.StopsPartWay avail newEnd) := by
  unfold StopsPartWay
  infer_instance

/-- A failed call leaves no trace exactly if it does not stop part-way. -/
theorem failed_sysBrk_iff (b : Break) (avail newEnd : ℕ) :
    ((b.sysBrk avail newEnd).1 = none → (b.sysBrk avail newEnd).2 = b) ↔
      ¬ b.StopsPartWay avail newEnd := by
  unfold StopsPartWay
  rcases b.sysBrk_cases avail newEnd with ⟨hle, heq⟩ | ⟨-, hmax, heq⟩ | ⟨-, henough, heq⟩ |
    ⟨htries, hless, heq⟩
  · rw [heq]
    exact ⟨fun _ hpart => by have := hpart.1.1; omega, fun _ h => by cases h⟩
  · rw [heq]
    exact ⟨fun _ hpart => by have := hpart.1.2; omega, fun _ _ => rfl⟩
  · rw [heq]
    exact ⟨fun _ hpart => by omega, fun _ h => by cases h⟩
  · rw [heq]
    simp only [forall_const, grown_eq_self]
    constructor
    · rintro rfl ⟨-, hpos, -⟩
      exact absurd hpos (Nat.lt_irrefl 0)
    · intro hpart
      exact Nat.eq_zero_of_not_pos fun hpos => hpart ⟨htries, hpos, hless⟩

end Break

/-! ### The call in the kernel -/

namespace Kernel

open PhysMemory (MapCall growCalls)

/-- The break of the task in slot `t`, with the pages mapped for it so far. -/
def breakOf (s : Kernel PhysMemory) (t : SlotId) (mapped : List ℕ) : Break :=
  ⟨(s.processes t).task.heapStart, (s.processes t).task.heapEnd, mapped⟩

variable {s : Kernel PhysMemory} {t : SlotId}

theorem growCalls_virt {m m' : PhysMemory} {pml4 virt : ℕ} {ok : Bool}
    (h : m.growHeap pml4 virt = (ok, m')) :
    (growCalls m pml4 virt).map MapCall.virt = if ok then [virt] else [] := by
  unfold PhysMemory.growHeap at h
  unfold growCalls
  rcases halloc : m.pmm.allocPage with ⟨phys, p⟩
  rw [halloc] at h
  dsimp only at h ⊢
  by_cases hphys : phys = 0
  · rw [if_pos hphys] at h ⊢
    obtain ⟨rfl, -⟩ := Prod.mk.inj h
    rfl
  · rw [if_neg hphys] at h ⊢
    obtain ⟨rfl, -⟩ := Prod.mk.inj h
    rfl

/-- The break after a round of the loop that has mapped a page. -/
theorem breakOf_heapGrown (m' : PhysMemory) (mapped : List ℕ)
    (hend : (s.processes t).task.heapEnd + pageSize < 2 ^ 64) :
    (s.heapGrown t m').breakOf t mapped =
      ⟨(s.processes t).task.heapStart, (s.processes t).task.heapEnd + pageSize, mapped⟩ := by
  have hmod : ((s.processes t).task.heapEnd + 4096) % 2 ^ 64 =
      (s.processes t).task.heapEnd + pageSize := Nat.mod_eq_of_lt hend
  simp only [breakOf, heapGrown, setTask, setProcess, Function.update_self, hmod]

/-- By induction on the rounds: the loop of the kernel is that of `Break`, for the number of pages
that the allocator happens to deliver. -/
theorem brkLoop_refines {newEnd : ℕ} (hend : newEnd + pageSize ≤ 2 ^ 64) (n : ℕ)
    (hn : newEnd ≤ (s.processes t).task.heapEnd + n) (mapped : List ℕ) : ∃ avail,
      (brkLoop t newEnd n s).1 =
        ((s.breakOf t mapped).brkLoop newEnd avail).1.map ((↑) : ℕ → ℤ) ∧
      (brkLoop t newEnd n s).2.breakOf t (mapped ++ (brkLoopCalls t newEnd n s).map MapCall.virt) =
        ((s.breakOf t mapped).brkLoop newEnd avail).2 := by
  induction n generalizing s mapped with
  | zero =>
    have hdone : ¬ (s.breakOf t mapped).heapEnd < newEnd := not_lt.mpr hn
    refine ⟨0, ?_⟩
    rw [Break.brkLoop, if_neg hdone]
    exact ⟨rfl, by simp [brkLoop, brkLoopCalls]⟩
  | succ n ih =>
    by_cases hlt : (s.processes t).task.heapEnd < newEnd
    · have hlt' : (s.breakOf t mapped).heapEnd < newEnd := hlt
      rcases hgrow : s.mem.growHeap (s.processes t).task.aspace.pml4Phys
        (s.processes t).task.heapEnd with ⟨ok, m'⟩
      have hcalls := growCalls_virt hgrow
      rw [brkLoop, brkLoopCalls, if_pos hlt, if_pos hlt, hgrow,
        show MemoryOps.growHeap s.mem _ _ = (ok, m') from hgrow, List.map_append, hcalls]
      cases ok with
      | false =>
        refine ⟨0, ?_⟩
        rw [Break.brkLoop, if_pos hlt']
        exact ⟨rfl, by simp [breakOf]⟩
      | true =>
        have hgrown := breakOf_heapGrown (s := s) (t := t) m'
          (mapped ++ [(s.processes t).task.heapEnd]) (by omega)
        have hheap : ((s.heapGrown t m').processes t).task.heapEnd =
            (s.processes t).task.heapEnd + pageSize := congrArg Break.heapEnd hgrown
        obtain ⟨avail, hresult, hstate⟩ := ih (s := s.heapGrown t m')
          (by rw [hheap]; unfold pageSize; omega) (mapped ++ [(s.processes t).task.heapEnd])
        rw [hgrown, List.append_assoc] at hstate
        rw [hgrown] at hresult
        refine ⟨avail + 1, ?_⟩
        rw [Break.brkLoop, if_pos hlt']
        exact ⟨hresult, hstate⟩
    · have hdone : ¬ (s.breakOf t mapped).heapEnd < newEnd := hlt
      refine ⟨0, ?_⟩
      rw [Break.brkLoop, if_neg hdone, brkLoop, brkLoopCalls, if_neg hlt, if_neg hlt]
      exact ⟨rfl, by simp⟩

/-- `sys_brk` of the kernel is the call of `Break`, for some number of pages that the allocator
delivers, and the pages it maps are those of `Break`. -/
theorem sysBrk_refines (hcurrent : s.currentTask = some t) {newEnd : ℕ} (hnew : newEnd < 2 ^ 64)
    (hstart : (s.processes t).task.heapStart ≤ (s.processes t).task.heapEnd)
    (hroom : (s.processes t).task.heapStart + heapMaxBytes + pageSize ≤ 2 ^ 64)
    (mapped : List ℕ) : ∃ avail,
      (s.sysBrk newEnd).1 = ((s.breakOf t mapped).sysBrk avail newEnd).1.map ((↑) : ℕ → ℤ) ∧
      (s.sysBrk newEnd).2.breakOf t (mapped ++ (s.brkCalls newEnd).map MapCall.virt) =
        ((s.breakOf t mapped).sysBrk avail newEnd).2 := by
  unfold sysBrk brkCalls Break.sysBrk
  rw [hcurrent]
  dsimp only
  by_cases hquery : newEnd = 0 ∨ newEnd ≤ (s.processes t).task.heapEnd
  · have hquery' : newEnd = 0 ∨ newEnd ≤ (s.breakOf t mapped).heapEnd := hquery
    refine ⟨0, ?_⟩
    simp only [if_pos hquery, if_pos hquery']
    exact ⟨rfl, by simp⟩
  · have hquery' : ¬ (newEnd = 0 ∨ newEnd ≤ (s.breakOf t mapped).heapEnd) := hquery
    have hdiff : (newEnd + 2 ^ 64 - (s.processes t).task.heapStart) % 2 ^ 64 =
        newEnd - (s.breakOf t mapped).heapStart := by
      change _ = newEnd - (s.processes t).task.heapStart
      omega
    simp only [if_neg hquery, if_neg hquery', hdiff]
    by_cases hmax : heapMaxBytes < newEnd - (s.breakOf t mapped).heapStart
    · refine ⟨0, ?_⟩
      simp only [if_pos hmax]
      exact ⟨rfl, by simp⟩
    · simp only [if_neg hmax]
      change ¬ heapMaxBytes < newEnd - (s.processes t).task.heapStart at hmax
      exact brkLoop_refines (by omega) newEnd (by omega) mapped

theorem sysBrk_refines_of_boot :
    let s := { boot PhysMemory.sixteenPages ⟨0, 0⟩ 0 with currentTask := some 0 }
    ∃ avail, (s.sysBrk 1).1 = ((s.breakOf 0 []).sysBrk avail 1).1.map ((↑) : ℕ → ℤ) ∧
      (s.sysBrk 1).2.breakOf 0 ((s.brkCalls 1).map MapCall.virt) =
        ((s.breakOf 0 []).sysBrk avail 1).2 :=
  sysBrk_refines rfl (by decide) le_rfl (by decide) []

end Kernel

end AnssOS
