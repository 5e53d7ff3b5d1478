import AnssOS.Foundation.ByteMemory

/-!
# The physical page allocator

The model of `kernel/src/mm/pmm.rs`: a bitmap over the pages of physical memory, built from the
memory map of the boot loader.  Page 0 is never handed out, since the address 0 stands for "out of
memory".
-/

namespace AnssOS

/-- `PAGE_SIZE`. -/
def pageSize : ℕ := 4096

/-- `div_ceil`. -/
def divCeil (a b : ℕ) : ℕ := (a + b - 1) / b

/-- What a region of the memory map can be used for. -/
inductive RegionKind
  | usable
  | bootloaderReclaimable
  | other
deriving DecidableEq

/-- An entry of the boot loader's memory map. -/
structure MemoryRegion where
  base : ℕ
  length : ℕ
  kind : RegionKind

/-- `Pmm`; the bitmap tells which pages are used. -/
structure Pmm where
  bitmap : ℕ → Bool
  totalPages : ℕ
  freePages : ℕ
  cursor : ℕ

namespace Pmm

def test (p : Pmm) (page : ℕ) : Bool := p.bitmap page

def set (p : Pmm) (page : ℕ) : Pmm := { p with bitmap := Function.update p.bitmap page true }

def clear (p : Pmm) (page : ℕ) : Pmm := { p with bitmap := Function.update p.bitmap page false }

/-- A page is marked used, unless it already is. -/
def claim (p : Pmm) (page : ℕ) : Pmm :=
  if p.test page then p else { p.set page with freePages := p.freePages - 1 }

/-- The end of the memory that the bitmap has to cover. -/
def highest (map : List MemoryRegion) : ℕ :=
  ((map.filter fun e => e.kind = .usable ∨ e.kind = .bootloaderReclaimable).map
    fun e => (e.base + e.length) % 2 ^ 64).foldl max 0

/-- `init`: every usable page is free, except for those of the bitmap itself and for page 0.
`none` is the panic for want of a region that can hold the bitmap. -/
def init (map : List MemoryRegion) : Option Pmm :=
  let totalPages := highest map / pageSize
  let bitmapBytes := divCeil totalPages 8
  match map.find? fun e => e.kind = .usable ∧ bitmapBytes ≤ e.length with
  | none => none
  | some e =>
      let p : Pmm := ⟨fun _ => true, totalPages, 0, 0⟩
      let p := (map.filter fun e => e.kind = .usable).foldl (fun p e =>
        (List.range' (e.base / pageSize) (e.length / pageSize)).foldl
          (fun p page => { p.clear page with freePages := p.freePages + 1 }) p) p
      let p := (List.range' (e.base / pageSize) (divCeil bitmapBytes pageSize)).foldl claim p
      some { p.claim 0 with cursor := 0 }

/-- `try_alloc_from`: takes the first free page from `start` on and before `stop`. -/
def tryAllocFrom (p : Pmm) (start stop : ℕ) : ℕ × Pmm :=
  match (List.range' start (stop - start)).find? fun page => !p.test page with
  | some page =>
      (page * pageSize, { p.set page with freePages := p.freePages - 1, cursor := page + 1 })
  | none => (0, p)

/-- `alloc_page`: the address of a page, or 0. -/
def allocPage (p : Pmm) : ℕ × Pmm :=
  match p.tryAllocFrom p.cursor p.totalPages with
  | (addr, p) => if addr ≠ 0 ∨ p.cursor = 0 then (addr, p) else p.tryAllocFrom 0 p.cursor

/-- `free_page`: pages out of range and pages that are free are ignored. -/
def freePage (p : Pmm) (phys : ℕ) : Pmm :=
  let page := phys / pageSize
  if p.totalPages ≤ page ∨ !p.test page then p
  else { p.clear page with freePages := p.freePages + 1 }

/-- The search of `alloc_pages` over `n` more pages, with `run` free pages in a row right before
`page`; the first page of the run found. -/
def findRun (p : Pmm) (count : ℕ) : (n page run : ℕ) → Option ℕ
  | 0, _, _ => none
  | n + 1, page, run =>
      if p.test page then findRun p count n (page + 1) 0
      else if run + 1 = count then some (page + 1 - count)
      else findRun p count n (page + 1) (run + 1)

/-- `alloc_pages`: the address of `count` pages in a row, or 0. -/
def allocPages (p : Pmm) (count : ℕ) : ℕ × Pmm :=
  if count = 0 ∨ p.totalPages < count then (0, p)
  else
    match p.findRun count p.totalPages 0 0 with
    | none => (0, p)
    | some start =>
        (start * pageSize, { p with
          bitmap := fun page => if start ≤ page ∧ page < start + count then true else p.bitmap page
          freePages := p.freePages - count })

/-! ### What the allocator does -/

/-- Page 0 is reserved, the cursor is in range, and addresses have at most 52 bits. -/
structure Sound (p : Pmm) : Prop where
  zero : p.test 0 = true
  cursor_le : p.cursor ≤ p.totalPages
  total_le : p.totalPages ≤ 2 ^ 40

/-- The address `x` is that of a page which the allocator counts as used, and is not page 0. -/
def Used (p : Pmm) (x : ℕ) : Prop :=
  ∃ page, x = page * pageSize ∧ page ≠ 0 ∧ page < p.totalPages ∧ p.test page = true

/-- The address `x` is that of a page which the allocator may hand out. -/
def Free (p : Pmm) (x : ℕ) : Prop :=
  ∃ page, x = page * pageSize ∧ page < p.totalPages ∧ p.test page = false

theorem tryAllocFrom_cases (p : Pmm) (start stop : ℕ) :
    ((∀ page, start ≤ page → page < stop → p.test page = true) ∧
      p.tryAllocFrom start stop = (0, p)) ∨ ∃ page, start ≤ page ∧ page < stop ∧
      p.test page = false ∧ p.tryAllocFrom start stop = (page * pageSize,
        { p.set page with freePages := p.freePages - 1, cursor := page + 1 }) := by
  unfold tryAllocFrom
  split
  · rename_i page hfind
    obtain ⟨hfree, hmem⟩ := List.find?_eq_some_iff_append.mp hfind |>.imp_right fun ⟨as, bs, h, _⟩ =>
      h ▸ List.mem_append_right as List.mem_cons_self
    obtain ⟨hstart, hstop⟩ := List.mem_range'_1.mp hmem
    exact Or.inr ⟨page, hstart, by omega, by simpa using hfree, rfl⟩
  · rename_i hfind
    refine Or.inl ⟨fun page hstart hstop => ?_, rfl⟩
    simpa using List.find?_eq_none.mp hfind page (List.mem_range'_1.mpr ⟨hstart, by omega⟩)

variable {p : Pmm} {n page : ℕ}

/-- `alloc_page` fails and changes nothing since no page is free, or it marks one free page as used:
the pages before the cursor are searched as well. -/
theorem allocPage_cases (hzero : p.test 0 = true) (hcursor : p.cursor ≤ p.totalPages) :
    ((∀ page < p.totalPages, p.test page = true) ∧ p.allocPage = (0, p)) ∨
      ∃ page, page ≠ 0 ∧ page < p.totalPages ∧ p.test page = false ∧
        p.allocPage = (page * pageSize,
          { p.set page with freePages := p.freePages - 1, cursor := page + 1 }) := by
  have hne : ∀ {page}, p.test page = false → page ≠ 0 := by
    rintro page hfree rfl
    rw [hzero] at hfree
    cases hfree
  unfold allocPage
  rcases p.tryAllocFrom_cases p.cursor p.totalPages with ⟨hbehind, heq⟩ | ⟨page, -, hlt, hfree, heq⟩
  · rw [heq]
    by_cases h0 : p.cursor = 0
    · exact Or.inl ⟨fun page => hbehind page (by omega), by simp [h0]⟩
    · simp only [h0, ne_eq, not_true_eq_false, or_self, if_false]
      rcases p.tryAllocFrom_cases 0 p.cursor with ⟨hbefore, heq⟩ | ⟨page, -, hlt, hfree, heq⟩
      · refine Or.inl ⟨fun page hpage => ?_, heq⟩
        rcases lt_or_ge page p.cursor with hlt | hge
        · exact hbefore page (Nat.zero_le page) hlt
        · exact hbehind page hge hpage
      · exact Or.inr ⟨page, hne hfree, by omega, hfree, heq⟩
  · refine Or.inr ⟨page, hne hfree, hlt, hfree, ?_⟩
    simp [heq, hne hfree, pageSize]

theorem findRun_spec {count n page run start : ℕ} (hrun : run < count)
    (hle : run ≤ page) (hfree : ∀ k < run, p.test (page - run + k) = false)
    (h : p.findRun count n page run = some start) :
    start + count ≤ page + n ∧ ∀ k < count, p.test (start + k) = false := by
  induction n generalizing page run with
  | zero => cases h
  | succ n ih =>
    rw [findRun] at h
    split at h
    · obtain ⟨hend, hall⟩ := ih (by omega) (by omega) (by omega) h
      exact ⟨by omega, hall⟩
    · rename_i htest
      have hfree' : ∀ k < run + 1, p.test (page - run + k) = false := by
        intro k hk
        rcases Nat.lt_succ_iff_lt_or_eq.mp hk with hk | rfl
        · exact hfree k hk
        · rw [Nat.sub_add_cancel hle]
          simpa using htest
      split at h
      · rename_i hcount
        have hstart : start = page - run := by
          have := Option.some.inj h
          omega
        rw [hstart, ← hcount]
        exact ⟨by omega, hfree'⟩
      · have hshift : page + 1 - (run + 1) = page - run := by omega
        obtain ⟨hend, hall⟩ := ih (by omega) (by omega) (by rwa [hshift]) h
        exact ⟨by omega, hall⟩

/-- If the search fails, then no run that it can still complete is free: a run that begins at or
before `page`, but not before the current run, contains `page`. -/
theorem findRun_none {count n page run start : ℕ} (hrun : run < count)
    (h : p.findRun count n page run = none) (hstart : page ≤ start + run)
    (hend : start + count ≤ page + n) : ∃ k < count, p.test (start + k) = true := by
  induction n generalizing page run with
  | zero => omega
  | succ n ih =>
    rw [findRun] at h
    split at h
    · rename_i htest
      rcases le_or_gt start page with hle | hlt
      · refine ⟨page - start, by omega, ?_⟩
        rwa [Nat.add_sub_cancel' hle]
      · exact ih (by omega) h (by omega) (by omega)
    · split at h
      · cases h
      · exact ih (by omega) h (by omega) (by omega)

/-- `alloc_pages` fails and changes nothing since there is no such run, or it marks a run of free
pages as used. -/
theorem allocPages_cases (hzero : p.test 0 = true) (count : ℕ) :
    ((0 < count → ∀ start, start + count ≤ p.totalPages → ∃ k < count, p.test (start + k) = true) ∧
      p.allocPages count = (0, p)) ∨ ∃ start, 0 < count ∧ start ≠ 0 ∧
      start + count ≤ p.totalPages ∧ (∀ k < count, p.test (start + k) = false) ∧
      p.allocPages count = (start * pageSize, { p with
        bitmap := fun page => if start ≤ page ∧ page < start + count then true else p.bitmap page
        freePages := p.freePages - count }) := by
  unfold allocPages
  split
  · exact Or.inl ⟨by omega, rfl⟩
  · rename_i hcount
    push Not at hcount
    split
    · rename_i hfind
      exact Or.inl ⟨fun hpos start hend => findRun_none hpos hfind (by omega) (by omega), rfl⟩
    · rename_i start hfind
      obtain ⟨hend, hall⟩ := findRun_spec (by omega) le_rfl (by omega) hfind
      refine Or.inr ⟨start, by omega, ?_, by omega, hall, rfl⟩
      rintro rfl
      have := hall 0 (by omega)
      rw [Nat.add_zero, hzero] at this
      cases this

/-- The `n` pages from the address `base` on. -/
def pageRun (base n : ℕ) : Set ℕ := {x | ∃ k < n, x = base + k * pageSize}

/-- The allocator marks exactly the pages of `new` as used, which were free. -/
structure Takes (p p' : Pmm) (new : Set ℕ) : Prop where
  sound : p'.Sound
  total : p'.totalPages = p.totalPages
  fresh : ∀ x ∈ new, ¬ p.Used x
  used_iff : ∀ y, p'.Used y ↔ p.Used y ∨ y ∈ new

theorem page_inj {a b : ℕ} (h : a * pageSize = b * pageSize) : a = b :=
  Nat.eq_of_mul_eq_mul_right (by decide) h

theorem not_used_of_free (hfree : p.test page = false) :
    ¬ p.Used (page * pageSize) := by
  rintro ⟨page', heq, -, -, hused⟩
  rw [← page_inj heq, hfree] at hused
  cases hused

theorem allocPage_zero (h : p.Sound) (hzero : p.allocPage.1 = 0) :
    p.allocPage.2 = p := by
  rcases allocPage_cases h.zero h.cursor_le with ⟨-, heq⟩ | ⟨page, hne, -, -, heq⟩
  · rw [heq]
  · rw [heq] at hzero
    simp [hne, pageSize] at hzero

theorem Takes.of_bitmap {p p' : Pmm} {new : Set ℕ} (h : p.Sound) {S : ℕ → Prop}
    (hbit : ∀ q, p'.test q = true ↔ p.test q = true ∨ S q) (htotal : p'.totalPages = p.totalPages)
    (hcursor : p'.cursor ≤ p.totalPages)
    (hS : ∀ q, S q → q ≠ 0 ∧ q < p.totalPages ∧ p.test q = false)
    (hnew : ∀ x, x ∈ new ↔ ∃ q, S q ∧ x = q * pageSize) : p.Takes p' new := by
  refine ⟨⟨(hbit 0).mpr (Or.inl h.zero), by rw [htotal]; exact hcursor,
    by rw [htotal]; exact h.total_le⟩, htotal, fun x hx => ?_, fun y => ?_⟩
  · obtain ⟨q, hq, rfl⟩ := (hnew x).mp hx
    exact not_used_of_free (hS q hq).2.2
  · constructor
    · rintro ⟨q, rfl, hne, hlt, hused⟩
      rcases (hbit q).mp hused with hused | hq
      · exact Or.inl ⟨q, rfl, hne, htotal ▸ hlt, hused⟩
      · exact Or.inr ((hnew _).mpr ⟨q, hq, rfl⟩)
    · rintro (⟨q, rfl, hne, hlt, hused⟩ | hy)
      · exact ⟨q, rfl, hne, htotal ▸ hlt, (hbit q).mpr (Or.inl hused)⟩
      · obtain ⟨q, hq, rfl⟩ := (hnew y).mp hy
        obtain ⟨hne, hlt, -⟩ := hS q hq
        exact ⟨q, rfl, hne, htotal ▸ hlt, (hbit q).mpr (Or.inr hq)⟩

theorem allocPage_takes (h : p.Sound) (hne : p.allocPage.1 ≠ 0) :
    p.Takes p.allocPage.2 {p.allocPage.1} := by
  rcases allocPage_cases h.zero h.cursor_le with ⟨-, heq⟩ | ⟨page, hpage, hlt, hfree, heq⟩
  · rw [heq] at hne
    exact absurd rfl hne
  rw [heq]
  refine .of_bitmap h (S := fun q => q = page) (fun q => ?_) rfl hlt ?_ (fun x => by simp)
  · by_cases hq : q = page <;> simp [test, set, hq]
  · rintro q rfl
    exact ⟨hpage, hlt, hfree⟩

theorem allocPages_zero (h : p.Sound) (hzero : (p.allocPages n).1 = 0) :
    (p.allocPages n).2 = p := by
  rcases allocPages_cases h.zero n with ⟨-, heq⟩ | ⟨start, -, hne, -, -, heq⟩
  · rw [heq]
  · rw [heq] at hzero
    simp [hne, pageSize] at hzero

theorem allocPages_takes (h : p.Sound) (hne : (p.allocPages n).1 ≠ 0) :
    p.Takes (p.allocPages n).2 (pageRun (p.allocPages n).1 n) := by
  rcases allocPages_cases h.zero n with ⟨-, heq⟩ | ⟨start, -, hstart, hend, hfree, heq⟩
  · rw [heq] at hne
    exact absurd rfl hne
  rw [heq]
  refine .of_bitmap h (S := fun q => start ≤ q ∧ q < start + n) (fun q => ?_) rfl h.cursor_le ?_ ?_
  · by_cases hq : start ≤ q ∧ q < start + n <;> simp [test, hq]
  · rintro q ⟨hle, hlt⟩
    have := hfree (q - start) (by omega)
    rw [Nat.add_sub_cancel' hle] at this
    exact ⟨by omega, by omega, this⟩
  · intro x
    constructor
    · rintro ⟨k, hk, rfl⟩
      exact ⟨start + k, by omega, by rw [add_mul]⟩
    · rintro ⟨q, ⟨hle, hlt⟩, rfl⟩
      exact ⟨q - start, by omega, by rw [← add_mul, Nat.add_sub_cancel' hle]⟩

/-- `free_page` of a page other than page 0 affects no other page. -/
theorem freePage_used (h : p.Sound) (hne : page ≠ 0) :
    (p.freePage (page * pageSize)).Sound ∧
      ∀ y, y ≠ page * pageSize → p.Used y → (p.freePage (page * pageSize)).Used y := by
  have hpage : page * pageSize / pageSize = page := Nat.mul_div_cancel page (by decide)
  simp only [freePage, hpage]
  split
  · exact ⟨h, fun y _ hy => hy⟩
  · have hbit : ∀ q, q ≠ page → (p.clear page).test q = p.test q := fun q hq =>
      Function.update_of_ne hq _ _
    refine ⟨⟨(hbit 0 (Ne.symm hne)).trans h.zero, h.cursor_le, h.total_le⟩, ?_⟩
    rintro y hy ⟨q, rfl, hq, hlt, hused⟩
    exact ⟨q, rfl, hq, hlt, (hbit q fun heq => hy (by rw [heq])).trans hused⟩

/-- `free_page` of a page in use frees that page. -/
theorem freePage_used_iff {x y : ℕ} (hx : p.Used x) :
    (p.freePage x).Used y ↔ p.Used y ∧ y ≠ x := by
  obtain ⟨page, rfl, hne, hlt, htest⟩ := hx
  have hpage : page * pageSize / pageSize = page := Nat.mul_div_cancel page (by decide)
  have hfree : p.freePage (page * pageSize) = { p.clear page with freePages := p.freePages + 1 } := by
    simp only [freePage, hpage]
    rw [if_neg (by simp [htest, hlt])]
  have hbit : ∀ q, { p.clear page with freePages := p.freePages + 1 }.test q = true ↔
      p.test q = true ∧ q ≠ page := by
    intro q
    by_cases hq : q = page <;> simp [test, clear, hq]
  rw [hfree]
  constructor
  · rintro ⟨q, rfl, hzero, hq, hused⟩
    obtain ⟨hused, hother⟩ := (hbit q).mp hused
    exact ⟨⟨q, rfl, hzero, hq, hused⟩, fun heq => hother (page_inj heq)⟩
  · rintro ⟨⟨q, rfl, hzero, hq, hused⟩, hother⟩
    exact ⟨q, rfl, hzero, hq, (hbit q).mpr ⟨hused, fun heq => hother (heq ▸ rfl)⟩⟩

end Pmm

end AnssOS
