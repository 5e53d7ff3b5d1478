import AnssOS.Exec.ElfRounds
import AnssOS.Mm.PmmExact

/-!
# Enough free pages

The walker of the page tables does not look at whether the allocation of a table failed.  It does
not fail while there are free pages: every call of `map` takes three pages at most.  A program can
be loaded without such a failure if there are as many free pages as `pagesNeeded` says.
-/

namespace AnssOS

/-! ### The allocator -/

namespace Pmm

variable {p : Pmm}

theorem freeSet_allocPage (h : p.Sound) (hroom : 0 < p.freeSet.card) :
    p.allocPage.1 ≠ 0 ∧ p.allocPage.2.Sound ∧ p.freeSet.card ≤ p.allocPage.2.freeSet.card + 1 := by
  rcases allocPage_cases h.zero h.cursor_le with ⟨hfull, -⟩ | ⟨page, hne, hlt, hfree, heq⟩
  · obtain ⟨page, hpage⟩ := Finset.card_pos.mp hroom
    obtain ⟨hlt, hfree⟩ := mem_freeSet.mp hpage
    rw [hfull page hlt] at hfree
    cases hfree
  · have hnonzero : p.allocPage.1 ≠ 0 := by
      rw [heq]
      exact Nat.mul_ne_zero hne (by decide)
    refine ⟨hnonzero, (allocPage_takes h hnonzero).sound, ?_⟩
    have herase : p.freeSet.erase page ⊆ p.allocPage.2.freeSet := by
      intro q hq
      obtain ⟨hne, hq⟩ := Finset.mem_erase.mp hq
      obtain ⟨hlt, hfree⟩ := mem_freeSet.mp hq
      rw [heq]
      refine mem_freeSet.mpr ⟨hlt, ?_⟩
      exact (Function.update_of_ne hne _ _).trans hfree
    have hcard := Finset.card_le_card herase
    have := Finset.pred_card_le_card_erase (s := p.freeSet) (a := page)
    omega

theorem freeSet_allocPages (h : p.Sound) (n : ℕ) :
    (p.allocPages n).2.Sound ∧ p.freeSet.card ≤ (p.allocPages n).2.freeSet.card + n ∧
      ∃ start, (p.allocPages n).1 = start * pageSize := by
  rcases allocPages_cases h.zero n with ⟨-, heq⟩ | ⟨start, -, hne, -, -, heq⟩
  · rw [heq]
    exact ⟨h, Nat.le_add_right _ _, 0, (Nat.zero_mul _).symm⟩
  · have hnonzero : (p.allocPages n).1 ≠ 0 := by
      rw [heq]
      exact Nat.mul_ne_zero hne (by decide)
    refine ⟨(allocPages_takes h hnonzero).sound, ?_, start, by rw [heq]⟩
    have hrest : p.freeSet \ Finset.Ico start (start + n) ⊆ (p.allocPages n).2.freeSet := by
      intro q hq
      obtain ⟨hq, hout⟩ := Finset.mem_sdiff.mp hq
      obtain ⟨hlt, hfree⟩ := mem_freeSet.mp hq
      rw [Finset.mem_Ico] at hout
      rw [heq]
      exact mem_freeSet.mpr ⟨hlt, (if_neg hout).trans hfree⟩
    have hcard := Finset.card_le_card hrest
    have hsdiff := Finset.le_card_sdiff (Finset.Ico start (start + n)) p.freeSet
    rw [Nat.card_Ico, Nat.add_sub_cancel_left] at hsdiff
    omega

theorem freeSet_freePage (h : p.Sound) {page : ℕ} (hpage : page ≠ 0) :
    (p.freePage (page * pageSize)).Sound ∧
      p.freeSet.card ≤ (p.freePage (page * pageSize)).freeSet.card := by
  refine ⟨(freePage_used h hpage).1, Finset.card_le_card fun q hq => ?_⟩
  obtain ⟨hlt, hfree⟩ := mem_freeSet.mp hq
  unfold freePage
  dsimp only
  split
  · exact hq
  · refine mem_freeSet.mpr ⟨hlt, ?_⟩
    by_cases heq : q = page * pageSize / pageSize
    · rw [heq]
      exact Function.update_self _ _ _
    · exact (Function.update_of_ne heq _ _).trans hfree

end Pmm

/-! ### Page tables -/

namespace PhysMemory

/-- There are at least `k` free pages, and `f` allocations of tables have failed so far. -/
structure Spares (f k : ℕ) (m : PhysMemory) : Prop where
  sound : m.pmm.Sound
  failures : m.tableFailures = f
  room : k ≤ m.pmm.freeSet.card

namespace Spares

variable {f k : ℕ} {m : PhysMemory}

theorem mono {j : ℕ} (h : Spares f k m) (hle : j ≤ k) : Spares f j m :=
  ⟨h.sound, h.failures, hle.trans h.room⟩

theorem allocTable (h : Spares f (k + 1) m) : Spares f k m.allocTable.2 := by
  have hroom := h.room
  obtain ⟨hne, hsound, hcard⟩ := Pmm.freeSet_allocPage h.sound (by omega)
  refine ⟨hsound, ?_, ?_⟩
  · exact (if_neg hne).trans h.failures
  · change k ≤ m.pmm.allocPage.2.freeSet.card
    omega

theorem getOrCreate (h : Spares f (k + 1) m) (parent index : ℕ) :
    Spares f k (m.getOrCreate parent index).2 := by
  unfold PhysMemory.getOrCreate
  dsimp only
  split
  · exact h.mono (Nat.le_succ k)
  · exact ⟨h.allocTable.sound, h.allocTable.failures, h.allocTable.room⟩

theorem map (h : Spares f (k + 3) m) (pml4 virt phys flags : ℕ) :
    Spares f k (m.map pml4 virt phys flags) := by
  have h₁ := h.getOrCreate pml4 (tableIndex virt 39)
  have h₂ := h₁.getOrCreate (m.getOrCreate pml4 (tableIndex virt 39)).1 (tableIndex virt 30)
  have h₃ := h₂.getOrCreate ((m.getOrCreate pml4 (tableIndex virt 39)).2.getOrCreate
    (m.getOrCreate pml4 (tableIndex virt 39)).1 (tableIndex virt 30)).1 (tableIndex virt 21)
  exact ⟨h₃.sound, h₃.failures, h₃.room⟩

theorem allocPages {n base : ℕ} {p : Pmm} (h : Spares f (k + n) m)
    (halloc : m.pmm.allocPages n = (base, p)) :
    Spares f k { m with pmm := p } ∧ ∃ start, base = start * pageSize := by
  obtain ⟨hsound, hcard, start, hstart⟩ := Pmm.freeSet_allocPages h.sound n
  rw [halloc] at hsound hcard hstart
  have hroom := h.room
  exact ⟨⟨hsound, h.failures, by dsimp only at hcard ⊢; omega⟩, start, hstart⟩

theorem freePage {page : ℕ} (h : Spares f k m) (hpage : page ≠ 0) :
    Spares f k (m.freePage (page * pageSize)) := by
  obtain ⟨hsound, hcard⟩ := Pmm.freeSet_freePage h.sound hpage
  exact ⟨hsound, h.failures, h.room.trans hcard⟩

/-! ### The loader -/

variable {aspace : ℕ} {image : List UInt8} {ph : Phdr} {start : ℕ}

theorem loadPage (h : Spares f (k + 3) m) (loaded : List Segment) (hstart : start ≠ 0) (p : ℕ) :
    Spares f k (loadPage aspace loaded ph (start * pageSize) p m) := by
  unfold PhysMemory.loadPage
  dsimp only
  split
  · exact h.map _ _ _ _
  · have hfreed := (h.mono (Nat.le_add_right k 3)).freePage (show start + p ≠ 0 by omega)
    rw [Nat.add_mul] at hfreed
    exact ⟨hfreed.sound, hfreed.failures, hfreed.room⟩

theorem segmentPages {n : ℕ} (h : Spares f (k + n * 3) m) (loaded : List Segment)
    (hstart : start ≠ 0) :
    Spares f k (segmentPages image aspace loaded ph (start * pageSize) n m) := by
  induction n generalizing k with
  | zero => exact ⟨h.sound, h.failures, (Nat.le_add_right _ _).trans h.room⟩
  | succ n ih =>
    have hbefore : Spares f (k + 3) (PhysMemory.segmentPages image aspace loaded ph
        (start * pageSize) n m) := ih (h.mono (by omega))
    unfold PhysMemory.segmentPages at hbefore ⊢
    rw [List.range_succ, List.foldl_append, List.foldl_cons, List.foldl_nil]
    exact hbefore.loadPage loaded hstart n

theorem loadSegment {st st' : Loading} (h : Spares f (k + 4 * ph.pages) st.mem)
    (hround : loadSegment image aspace st ph = .ok st') (htype : ph.type = ptLoad) :
    Spares f k st'.mem := by
  rcases loadSegment_eq_ok hround with ⟨hne, -⟩ | ⟨-, basePhys, p, hchecks, halloc, rfl⟩
  · exact absurd htype hne
  · obtain ⟨htaken, start, hstart⟩ :=
      (h.mono (show k + ph.pages * 3 + ph.pages ≤ k + 4 * ph.pages by omega)).allocPages halloc
    have hne : start ≠ 0 := by
      rintro rfl
      exact hchecks.2 (hstart.trans (Nat.zero_mul _))
    rw [hstart]
    exact htaken.segmentPages st.loaded hne

end Spares

/-- What the segments among some program headers take: their pages, and tables for these. -/
def segmentsNeed (phs : List Phdr) : ℕ :=
  (phs.map fun ph => if ph.type = ptLoad then 4 * ph.pages else 0).sum

/-- What a program takes: the top-level table, its segments and its stack. -/
def pagesNeeded (image : List UInt8) : ℕ :=
  1 + (segmentsNeed (headers image) + 4 * userStackPages)

theorem Spares.loadSegments {f k aspace : ℕ} {image : List UInt8} {phs : List Phdr}
    {st st' : Loading} (h : Spares f (k + segmentsNeed phs) st.mem)
    (hloop : phs.foldlM (PhysMemory.loadSegment image aspace) st = .ok st') :
    Spares f k st'.mem := by
  induction phs generalizing st with
  | nil =>
    obtain rfl := Except.ok.inj hloop
    exact h
  | cons ph phs ih =>
    obtain ⟨st₁, hround, hrest⟩ := foldlM_cons_eq_ok hloop
    refine ih ?_ hrest
    rw [segmentsNeed, List.map_cons, List.sum_cons, ← segmentsNeed] at h
    by_cases htype : ph.type = ptLoad
    · rw [if_pos htype] at h
      exact (h.mono (by omega)).loadSegment hround htype
    · rcases loadSegment_eq_ok hround with ⟨-, rfl⟩ | ⟨heq, -⟩
      · exact h.mono (by omega)
      · exact absurd heq htype

/-- With enough free pages, no allocation of a table fails while a program is loaded. -/
theorem tableFailures_load {m : PhysMemory} {cr3 : ℕ} {image : List UInt8}
    {argv : List (List UInt8)} {img : LoadedImage} (hm : m.pmm.Sound)
    (hroom : pagesNeeded image ≤ m.pmm.freeSet.card)
    (himg : (m.load cr3 image argv).1 = some img) :
    (m.load cr3 image argv).2.tableFailures = m.tableFailures := by
  obtain ⟨b, st, hnew, hloop, heq, -⟩ := load_eq_some himg
  have hstart : Spares m.tableFailures (userStackPages * 3 + userStackPages +
      segmentsNeed (headers image) + 1) m :=
    ⟨hm, rfl, le_trans (by unfold pagesNeeded; omega) hroom⟩
  have hb : Spares m.tableFailures (userStackPages * 3 + userStackPages +
      segmentsNeed (headers image)) b := by
    have halloc := hstart.allocTable
    have heq : (m.newAddressSpace cr3).2 = b := by rw [hnew]
    rw [← heq]
    exact ⟨halloc.sound, halloc.failures, halloc.room⟩
  have hst : Spares m.tableFailures (userStackPages * 3 + userStackPages) st.mem :=
    Spares.loadSegments hb hloop
  rcases halloc : st.mem.pmm.allocPages userStackPages with ⟨stackPhys, p⟩
  rw [heq] at himg ⊢
  rcases finishLoad_cases (Ehdr.read image) img.pml4Phys argv halloc with
    ⟨-, heq⟩ | ⟨hbase, m₁, hm₁, hmem, -⟩
  · rw [heq] at himg
    cases himg
  obtain ⟨htaken, start, rfl⟩ :=
    (hst.mono (show 0 + userStackPages * 3 + userStackPages ≤ _ by omega)).allocPages halloc
  have hne : start ≠ 0 := by
    rintro rfl
    exact hbase (Nat.zero_mul _)
  have hmapped : Spares m.tableFailures 0 (segmentPages [] img.pml4Phys [] stackPhdr
      (start * pageSize) userStackPages { st.mem with pmm := p }) := htaken.segmentPages [] hne
  have hsame : m₁.tableFailures = m.tableFailures := by
    rw [hm₁, allocKernelStack_tableFailures, mapStack_eq, stackPages_eq _ _ le_rfl]
    exact hmapped.failures
  rcases hmem with hmem | hmem
  · rw [hmem, hsame]
  · rw [hmem, (m₁.initStack_pmm _ argv).2, hsame]

end PhysMemory

end AnssOS
