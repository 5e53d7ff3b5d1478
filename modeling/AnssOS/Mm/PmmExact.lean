import AnssOS.Foundation.Transition
import AnssOS.Mm.Pmm

/-!
# The page allocator is exact

After `init` the free pages are the usable pages of the memory map, without page 0 and without the
pages that hold the bitmap.  A session of calls keeps the invariant `Exact`: a page is free just if
it is one of these and is not handed out, and the counter of free pages is right.

### Outline

* `MapOk`: what the memory map has to look like;
* `init` makes the allocator exact;
* sessions of `alloc_page`, `alloc_pages` and `free_page`.
-/

namespace AnssOS

namespace Pmm

/-! ### The memory map -/

/-- The pages of a region. -/
def regionPages (e : MemoryRegion) : List ℕ :=
  List.range' (e.base / pageSize) (e.length / pageSize)

/-- The pages of the usable regions. -/
def usablePages (map : List MemoryRegion) : List ℕ :=
  (map.filter fun e => e.kind = .usable).flatMap regionPages

/-- The size of the bitmap. -/
def bitmapBytes (map : List MemoryRegion) : ℕ := divCeil (highest map / pageSize) 8

/-- The pages that hold the bitmap, at the start of the first usable region which is large enough. -/
def bitmapPages (map : List MemoryRegion) : List ℕ :=
  match map.find? fun e => e.kind = .usable ∧ bitmapBytes map ≤ e.length with
  | none => []
  | some e => List.range' (e.base / pageSize) (divCeil (bitmapBytes map) pageSize)

/-- The usable regions consist of pages, are not empty, end below `2 ^ 64` and do not overlap, and
one of them can hold the bitmap. -/
structure MapOk (map : List MemoryRegion) : Prop where
  aligned : ∀ e ∈ map, e.kind = .usable → e.base % pageSize = 0 ∧ e.length % pageSize = 0
  nonempty : ∀ e ∈ map, e.kind = .usable → 0 < e.length
  ends : ∀ e ∈ map, e.kind = .usable → e.base + e.length < 2 ^ 64
  disjoint : (map.filter fun e => e.kind = .usable).Pairwise fun e e' =>
    e.base + e.length ≤ e'.base ∨ e'.base + e'.length ≤ e.base
  room : ∃ e ∈ map, e.kind = .usable ∧ bitmapBytes map ≤ e.length

/-- The pages that may be handed out. -/
def Allocatable (map : List MemoryRegion) (page : ℕ) : Prop :=
  page ∈ usablePages map ∧ page ∉ bitmapPages map ∧ page ≠ 0

theorem le_foldl_max {l : List ℕ} {a x : ℕ} (h : x ≤ a ∨ x ∈ l) : x ≤ l.foldl max a := by
  induction l generalizing a with
  | nil => simpa using h
  | cons b l ih =>
    refine ih ?_
    rcases h with h | h
    · exact Or.inl (h.trans (le_max_left a b))
    · rcases List.mem_cons.mp h with rfl | h
      · exact Or.inl (le_max_right a x)
      · exact Or.inr h

theorem mem_regionPages {e : MemoryRegion} {page : ℕ} :
    page ∈ regionPages e ↔
      e.base / pageSize ≤ page ∧ page < e.base / pageSize + e.length / pageSize :=
  List.mem_range'_1

section

variable {map : List MemoryRegion}

theorem MapOk.end_le (h : MapOk map) {e : MemoryRegion} (he : e ∈ map) (hkind : e.kind = .usable) :
    e.base + e.length ≤ highest map := by
  refine le_foldl_max (Or.inr (List.mem_map.mpr ⟨e, ?_, Nat.mod_eq_of_lt (h.ends e he hkind)⟩))
  exact List.mem_filter.mpr ⟨he, by simp [hkind]⟩

theorem MapOk.lt_total (h : MapOk map) {e : MemoryRegion} (he : e ∈ map) (hkind : e.kind = .usable)
    {page : ℕ} (hpage : page ∈ regionPages e) : page < highest map / pageSize := by
  have hend := h.end_le he hkind
  have haligned := h.aligned e he hkind
  have hpage := mem_regionPages.mp hpage
  unfold pageSize at *
  omega

theorem mem_usablePages {page : ℕ} :
    page ∈ usablePages map ↔ ∃ e ∈ map, e.kind = .usable ∧ page ∈ regionPages e := by
  simp [usablePages, and_assoc]

theorem MapOk.usable_lt (h : MapOk map) {page : ℕ} (hpage : page ∈ usablePages map) :
    page < highest map / pageSize := by
  obtain ⟨e, he, hkind, hpage⟩ := mem_usablePages.mp hpage
  exact h.lt_total he hkind hpage

theorem MapOk.nodup (h : MapOk map) : (usablePages map).Nodup := by
  refine List.nodup_flatMap.mpr ⟨fun e _ => List.nodup_range', ?_⟩
  refine h.disjoint.imp_of_mem fun {e e'} he he' hor => ?_
  obtain ⟨he, hkind⟩ := List.mem_filter.mp he
  obtain ⟨he', hkind'⟩ := List.mem_filter.mp he'
  have haligned := h.aligned e he (by simpa using hkind)
  have haligned' := h.aligned e' he' (by simpa using hkind')
  intro page hpage hpage'
  have hpage := mem_regionPages.mp hpage
  have hpage' := mem_regionPages.mp hpage'
  unfold pageSize at *
  omega

/-- The bitmap fits into the region that it is put in, which consists of whole pages. -/
theorem MapOk.bitmap_subset (h : MapOk map) {page : ℕ} (hpage : page ∈ bitmapPages map) :
    page ∈ usablePages map := by
  unfold bitmapPages at hpage
  split at hpage
  · cases hpage
  · rename_i e hfind
    obtain ⟨hkind, hroom⟩ : e.kind = .usable ∧ bitmapBytes map ≤ e.length := by
      simpa using List.find?_some hfind
    have he := List.mem_of_find?_eq_some hfind
    refine mem_usablePages.mpr ⟨e, he, hkind, mem_regionPages.mpr ?_⟩
    have hpage := List.mem_range'_1.mp hpage
    have haligned := h.aligned e he hkind
    unfold divCeil pageSize at *
    omega

end

/-! ### Counting the free pages -/

/-- The free pages of the bitmap. -/
def freeSet (p : Pmm) : Finset ℕ := (Finset.range p.totalPages).filter fun page => p.test page = false

variable {p : Pmm} {map : List MemoryRegion}

theorem mem_freeSet {page : ℕ} :
    page ∈ p.freeSet ↔ page < p.totalPages ∧ p.test page = false := by
  simp [freeSet]

theorem claim_spec {page : ℕ} (hcount : p.freePages = p.freeSet.card)
    (hpage : page < p.totalPages) :
    (p.claim page).totalPages = p.totalPages ∧
      (∀ q, (p.claim page).test q = true ↔ p.test q = true ∨ q = page) ∧
      (p.claim page).freePages = (p.claim page).freeSet.card := by
  unfold claim
  split
  · rename_i htest
    refine ⟨rfl, fun q => ⟨Or.inl, ?_⟩, hcount⟩
    rintro (hq | rfl)
    · exact hq
    · exact htest
  · rename_i htest
    have hbit : ∀ q, (p.set page).test q = true ↔ p.test q = true ∨ q = page := fun q => by
      by_cases hq : q = page <;> simp [test, set, hq]
    refine ⟨rfl, hbit, ?_⟩
    have hfree : { p.set page with freePages := p.freePages - 1 }.freeSet = p.freeSet.erase page := by
      ext q
      rw [mem_freeSet, Finset.mem_erase, mem_freeSet]
      by_cases hq : q = page <;> simp [test, set, hq]
    rw [hfree, Finset.card_erase_of_mem (mem_freeSet.mpr ⟨hpage, by simpa using htest⟩), ← hcount]

/-- The pages of a list are claimed one by one. -/
theorem claims_spec {pages : List ℕ} (hcount : p.freePages = p.freeSet.card)
    (hpages : ∀ page ∈ pages, page < p.totalPages) :
    (pages.foldl claim p).totalPages = p.totalPages ∧
      (∀ q, (pages.foldl claim p).test q = true ↔ p.test q = true ∨ q ∈ pages) ∧
      (pages.foldl claim p).freePages = (pages.foldl claim p).freeSet.card := by
  induction pages generalizing p with
  | nil => exact ⟨rfl, by simp, hcount⟩
  | cons page pages ih =>
    obtain ⟨hpage, hpages⟩ := List.forall_mem_cons.mp hpages
    obtain ⟨htotal, htest, hcount'⟩ := claim_spec hcount hpage
    obtain ⟨htotal', htest', hcount''⟩ := ih hcount' (by rwa [htotal])
    refine ⟨htotal'.trans htotal, fun q => ?_, hcount''⟩
    rw [List.foldl_cons, htest', htest, List.mem_cons, or_assoc]

/-- The pages of a list are cleared one by one. -/
theorem clears_eq (p : Pmm) (pages : List ℕ) :
    pages.foldl (fun p page => { p.clear page with freePages := p.freePages + 1 }) p =
      { p with
        bitmap := fun q => if q ∈ pages then false else p.bitmap q
        freePages := p.freePages + pages.length } := by
  induction pages generalizing p with
  | nil => simp
  | cons page pages ih =>
    rw [List.foldl_cons, ih]
    simp only [clear, List.length_cons, Pmm.mk.injEq, true_and, and_true]
    refine ⟨funext fun q => ?_, by omega⟩
    by_cases hq : q = page <;> simp [hq]

/-! ### The allocator after `init` -/

/-- What holds of the allocator when the addresses in `out` are handed out. -/
structure Exact (map : List MemoryRegion) (p : Pmm) (out : Finset ℕ) : Prop where
  total : p.totalPages = highest map / pageSize
  cursor_le : p.cursor ≤ p.totalPages
  free_iff : ∀ page, p.test page = false ↔ Allocatable map page ∧ page * pageSize ∉ out
  handed : ∀ x ∈ out, ∃ page, x = page * pageSize ∧ Allocatable map page
  counted : p.freePages = p.freeSet.card

/-- The allocator after the loop of `init` over the usable regions. -/
def cleared (map : List MemoryRegion) : Pmm where
  bitmap q := if q ∈ usablePages map then false else true
  totalPages := highest map / pageSize
  freePages := (usablePages map).length
  cursor := 0

theorem init_eq
    (h : ∃ e ∈ map, e.kind = .usable ∧ bitmapBytes map ≤ e.length) :
    init map = some { ((bitmapPages map).foldl claim (cleared map)).claim 0 with cursor := 0 } := by
  obtain ⟨r, hr, hroom⟩ := h
  obtain ⟨e, hfind⟩ : ∃ e, (map.find? fun e => e.kind = .usable ∧ bitmapBytes map ≤ e.length) =
      some e :=
    Option.isSome_iff_exists.mp (List.find?_isSome.mpr ⟨r, hr, by simp [hroom]⟩)
  have hbitmap : bitmapPages map = List.range' (e.base / pageSize)
      (divCeil (bitmapBytes map) pageSize) := by
    unfold bitmapPages
    rw [hfind]
  unfold init
  dsimp only
  unfold bitmapBytes at hfind
  rw [hfind, hbitmap]
  dsimp only
  rw [← List.foldl_flatMap, clears_eq, Nat.zero_add]
  rfl

theorem MapOk.freeSet_cleared (h : MapOk map) :
    (cleared map).freeSet = (usablePages map).toFinset := by
  ext q
  rw [mem_freeSet, List.mem_toFinset]
  constructor
  · rintro ⟨-, htest⟩
    by_contra hq
    simp [cleared, test, hq] at htest
  · intro hq
    exact ⟨h.usable_lt hq, by simp [cleared, test, hq]⟩

/-- `init` succeeds, and the free pages are those that may be handed out. -/
theorem MapOk.init_exact (h : MapOk map) :
    ∃ p, init map = some p ∧ Exact map p ∅ := by
  have hcount : (cleared map).freePages = (cleared map).freeSet.card := by
    rw [h.freeSet_cleared, List.toFinset_card_of_nodup h.nodup]
    rfl
  have hpos : 0 < (cleared map).totalPages := by
    change 0 < highest map / pageSize
    obtain ⟨r, hr, hkind, -⟩ := h.room
    have hend := h.end_le hr hkind
    have hnonempty := h.nonempty r hr hkind
    have haligned := h.aligned r hr hkind
    unfold pageSize at *
    omega
  obtain ⟨htotal, htest, hcount⟩ := claims_spec hcount fun page hpage =>
    h.usable_lt (h.bitmap_subset hpage)
  rw [← htotal] at hpos
  obtain ⟨htotal', htest', hcount⟩ := claim_spec hcount hpos
  refine ⟨_, init_eq h.room, htotal'.trans htotal, Nat.zero_le _, fun page => ?_, by simp, hcount⟩
  rw [← Bool.not_eq_true]
  refine (not_congr (htest' page)).trans ?_
  rw [htest, Allocatable]
  by_cases hpage : page ∈ usablePages map <;> simp [cleared, test, hpage]

/-! ### Sessions -/

/-- An allocator, and the addresses of the pages that it has handed out and that were not freed. -/
structure Session where
  pmm : Pmm
  out : Finset ℕ

/-- The calls of a session. -/
inductive Call
  | allocPage
  | allocPages (count : ℕ)
  | freePage (phys : ℕ)

/-- The addresses of a run of pages. -/
def runPages (addr count : ℕ) : Finset ℕ := (Finset.range count).image fun k => addr + k * pageSize

def Session.call (s : Session) : Call → Session
  | .allocPage =>
      match s.pmm.allocPage with
      | (addr, p) => ⟨p, if addr = 0 then s.out else insert addr s.out⟩
  | .allocPages count =>
      match s.pmm.allocPages count with
      | (addr, p) => ⟨p, if addr = 0 then s.out else s.out ∪ runPages addr count⟩
  | .freePage phys => ⟨s.pmm.freePage phys, s.out.erase phys⟩

/-- Runs of at least one page are asked for, and pages are freed that are handed out. -/
def Session.Allowed (s : Session) : Call → Prop
  | .allocPage => True
  | .allocPages count => 1 ≤ count
  | .freePage phys => phys ∈ s.out

instance (s : Session) : (c : Call) → Decidable (s.Allowed c)
  | .allocPage => isTrue trivial
  | .allocPages count => inferInstanceAs (Decidable (1 ≤ count))
  | .freePage phys => inferInstanceAs (Decidable (phys ∈ s.out))

/-- The sessions that begin with `init`. -/
def sessions (map : List MemoryRegion) : TransitionSystem Session Call where
  init s := ∃ p, init map = some p ∧ s = ⟨p, ∅⟩
  step s c := some (s.call c)

section

variable {map : List MemoryRegion} {p p' : Pmm} {out : Finset ℕ}

theorem Exact.zero (h : Exact map p out) : p.test 0 = true := by
  by_contra hfree
  exact ((h.free_iff 0).mp (by simpa using hfree)).1.2.2 rfl

theorem Exact.used (h : Exact map p out) {page : ℕ} (hout : page * pageSize ∈ out) :
    p.test page = true := by
  by_contra hfree
  exact ((h.free_iff page).mp (by simpa using hfree)).2 hout

variable {count : ℕ} {S : Finset ℕ} {s : Session}

/-- The allocator hands out the free pages in `S`. -/
theorem Exact.take (h : Exact map p out) (hS : S ⊆ p.freeSet)
    (htotal : p'.totalPages = p.totalPages) (hcursor : p'.cursor ≤ p.totalPages)
    (hbit : ∀ q, p'.test q = true ↔ p.test q = true ∨ q ∈ S)
    (hcount : p'.freePages = p.freePages - S.card) :
    Exact map p' (out ∪ S.image fun page => page * pageSize) := by
  have hfree : p'.freeSet = p.freeSet \ S := by
    ext q
    rw [mem_freeSet, Finset.mem_sdiff, mem_freeSet, htotal, ← Bool.not_eq_true, hbit]
    simp [and_assoc]
  refine ⟨htotal.trans h.total, htotal ▸ hcursor, fun page => ?_, fun x hx => ?_, ?_⟩
  · rw [← Bool.not_eq_true, hbit, not_or, Bool.not_eq_true, h.free_iff, Finset.mem_union, not_or,
      and_assoc]
    refine and_congr_right fun _ => and_congr_right fun _ => not_congr ?_
    constructor
    · exact fun hpage => Finset.mem_image_of_mem _ hpage
    · intro hpage
      obtain ⟨q, hq, heq⟩ := Finset.mem_image.mp hpage
      exact page_inj heq ▸ hq
  · rcases Finset.mem_union.mp hx with hx | hx
    · exact h.handed x hx
    · obtain ⟨q, hq, rfl⟩ := Finset.mem_image.mp hx
      exact ⟨q, rfl, ((h.free_iff q).mp (mem_freeSet.mp (hS hq)).2).1⟩
  · rw [hfree, Finset.card_sdiff_of_subset hS, hcount, h.counted]

/-- What `alloc_page` and `alloc_pages` do: `S` are the pages handed out. -/
structure Handed (p p' : Pmm) (addr count : ℕ) (S : Finset ℕ) : Prop where
  free : S ⊆ p.freeSet
  total : p'.totalPages = p.totalPages
  cursor_le : p'.cursor ≤ p.totalPages
  bits : ∀ q, p'.test q = true ↔ p.test q = true ∨ q ∈ S
  counter : p'.freePages = p.freePages - S.card
  pages : (S.image fun page => page * pageSize) = runPages addr count

theorem Exact.allocPage_cases (h : Exact map p out) :
    (p.freeSet = ∅ ∧ p.allocPage = (0, p)) ∨
      (p.allocPage.1 ≠ 0 ∧ ∃ S, Handed p p.allocPage.2 p.allocPage.1 1 S) := by
  rcases Pmm.allocPage_cases h.zero h.cursor_le with ⟨hused, heq⟩ | ⟨page, hne, hlt, hfree, heq⟩
  · refine Or.inl ⟨Finset.eq_empty_iff_forall_notMem.mpr fun page hpage => ?_, heq⟩
    obtain ⟨hlt, hfree⟩ := mem_freeSet.mp hpage
    rw [hused page hlt] at hfree
    cases hfree
  · rw [heq]
    refine Or.inr ⟨by simp [hne, pageSize], {page}, ?_, rfl, hlt, fun q => ?_, rfl, ?_⟩
    · exact Finset.singleton_subset_iff.mpr (mem_freeSet.mpr ⟨hlt, hfree⟩)
    · by_cases hq : q = page <;> simp [test, set, hq]
    · simp [runPages]

theorem Exact.allocPages_cases (h : Exact map p out) (hcount : 1 ≤ count) :
    ((¬ ∃ start, ∀ k < count, start + k ∈ p.freeSet) ∧ p.allocPages count = (0, p)) ∨
      ((p.allocPages count).1 ≠ 0 ∧
        ∃ S, Handed p (p.allocPages count).2 (p.allocPages count).1 count S) := by
  rcases Pmm.allocPages_cases h.zero count with ⟨hnone, heq⟩ | ⟨start, -, hne, hend, hfree, heq⟩
  · refine Or.inl ⟨?_, heq⟩
    rintro ⟨start, hall⟩
    have hlast := (mem_freeSet.mp (hall (count - 1) (by omega))).1
    obtain ⟨k, hk, hused⟩ := hnone hcount start (by omega)
    rw [(mem_freeSet.mp (hall k hk)).2] at hused
    cases hused
  · rw [heq]
    refine Or.inr ⟨by simp [hne, pageSize], Finset.Ico start (start + count), fun q hq => ?_, rfl,
      h.cursor_le, fun q => ?_, by simp, ?_⟩
    · obtain ⟨hle, hlt⟩ := Finset.mem_Ico.mp hq
      have hq := hfree (q - start) (by omega)
      rw [Nat.add_sub_cancel' hle] at hq
      exact mem_freeSet.mpr ⟨by omega, hq⟩
    · by_cases hq : start ≤ q ∧ q < start + count <;> simp [test, hq]
    · ext x
      simp only [runPages, Finset.mem_image, Finset.mem_Ico, Finset.mem_range]
      constructor
      · rintro ⟨q, ⟨hle, hlt⟩, rfl⟩
        exact ⟨q - start, by omega, by rw [← add_mul, Nat.add_sub_cancel' hle]⟩
      · rintro ⟨k, hk, rfl⟩
        exact ⟨start + k, by omega, by rw [add_mul]⟩

theorem Exact.handedOut (h : Exact map p out) {addr count : ℕ}
    (hS : Handed p p' addr count S) : Exact map p' (out ∪ runPages addr count) :=
  hS.pages ▸ h.take hS.free hS.total hS.cursor_le hS.bits hS.counter

/-- A page that is handed out is used, so that `free_page` frees it. -/
theorem Exact.freePage (h : Exact map p out) {phys : ℕ} (hphys : phys ∈ out)
    (hlt : ∀ page, Allocatable map page → page < p.totalPages) :
    Exact map (p.freePage phys) (out.erase phys) := by
  obtain ⟨page, rfl, hpage⟩ := h.handed phys hphys
  have hdiv : page * pageSize / pageSize = page := Nat.mul_div_cancel page (by decide)
  have hused := h.used hphys
  have heq : p.freePage (page * pageSize) =
      { p.clear page with freePages := p.freePages + 1 } := by
    simp only [Pmm.freePage, hdiv]
    rw [if_neg (by simp [hused, hlt page hpage])]
  have hfree : { p.clear page with freePages := p.freePages + 1 }.freeSet = insert page p.freeSet := by
    ext q
    rw [mem_freeSet, Finset.mem_insert, mem_freeSet]
    by_cases hq : q = page <;> simp [test, clear, hq, hlt page hpage]
  rw [heq]
  refine ⟨h.total, h.cursor_le, fun q => ?_, fun x hx => h.handed x (Finset.mem_of_mem_erase hx), ?_⟩
  · rcases eq_or_ne q page with rfl | hq
    · simp [test, clear, hpage]
    · have hne : q * pageSize ≠ page * pageSize := fun heq => hq (page_inj heq)
      have hq : { p.clear page with freePages := p.freePages + 1 }.test q = p.test q :=
        Function.update_of_ne hq _ _
      rw [hq, h.free_iff]
      simp [hne]
  · rw [hfree, Finset.card_insert_of_notMem (by simp [mem_freeSet, hused]), ← h.counted]

/-- One call. -/
theorem Exact.call (hmap : MapOk map) (h : Exact map s.pmm s.out) {c : Call}
    (hc : s.Allowed c) : Exact map (s.call c).pmm (s.call c).out := by
  cases c with
  | allocPage =>
    rcases h.allocPage_cases with ⟨-, heq⟩ | ⟨hne, S, hS⟩
    · simpa [Session.call, heq] using h
    · have hone : runPages s.pmm.allocPage.1 1 = {s.pmm.allocPage.1} := by simp [runPages]
      have hnext := h.handedOut hS
      rw [hone, Finset.union_comm, ← Finset.insert_eq] at hnext
      simpa [Session.call, hne] using hnext
  | allocPages count =>
    rcases h.allocPages_cases hc with ⟨-, heq⟩ | ⟨hne, S, hS⟩
    · simpa [Session.call, heq] using h
    · simpa [Session.call, hne] using h.handedOut hS
  | freePage phys =>
    refine h.freePage hc fun page hpage => ?_
    rw [h.total]
    exact hmap.usable_lt hpage.1

/-- By induction on the session. -/
theorem exact_of_reachable (hmap : MapOk map)
    (h : (sessions map).Reachable Session.Allowed s) : Exact map s.pmm s.out := by
  refine h.invariant (P := fun s => Exact map s.pmm s.out) ?_ ?_
  · rintro s ⟨p, hp, rfl⟩
    obtain ⟨p', hp', hexact⟩ := hmap.init_exact
    obtain rfl : p' = p := Option.some.inj (hp'.symm.trans hp)
    exact hexact
  · rintro s c s' - hs hc heq
    obtain rfl : s.call c = s' := Option.some.inj heq
    exact hs.call hmap hc

/-- The pages of the run were free and not handed out, may be handed out, and are used in `p'`. -/
def Session.Fresh (s : Session) (map : List MemoryRegion) (p' : Pmm) (addr count : ℕ) : Prop :=
  ∀ k < count, ∃ page, addr + k * pageSize = page * pageSize ∧ Allocatable map page ∧
    s.pmm.test page = false ∧ addr + k * pageSize ∉ s.out ∧ p'.test page = true

theorem Exact.fresh (h : Exact map s.pmm s.out) {addr count : ℕ}
    (hS : Handed s.pmm p' addr count S) : s.Fresh map p' addr count := by
  intro k hk
  have hmem : addr + k * pageSize ∈ runPages addr count :=
    Finset.mem_image_of_mem _ (Finset.mem_range.mpr hk)
  rw [← hS.pages] at hmem
  obtain ⟨page, hpage, heq⟩ := Finset.mem_image.mp hmem
  have hfree := (mem_freeSet.mp (hS.free hpage)).2
  obtain ⟨hallocatable, hout⟩ := (h.free_iff page).mp hfree
  exact ⟨page, heq.symm, hallocatable, hfree, heq ▸ hout, (hS.bits page).mpr (Or.inr hpage)⟩

/-- In every session the pages handed out may be handed out and are used, the counter is the number
of free pages, and an allocation fails only if there is no free page or run of free pages. -/
theorem pmm_exact (hmap : MapOk map) :
    (∃ p, init map = some p) ∧ ∀ s, (sessions map).Reachable Session.Allowed s →
      (∀ x ∈ s.out, ∃ page, x = page * pageSize ∧ Allocatable map page ∧ s.pmm.test page = true) ∧
      s.pmm.freePages = s.pmm.freeSet.card ∧
      (s.pmm.allocPage.1 = 0 → s.pmm.freeSet = ∅) ∧
      (s.pmm.allocPage.1 ≠ 0 → s.Fresh map s.pmm.allocPage.2 s.pmm.allocPage.1 1) ∧
      ∀ count, 1 ≤ count →
        ((s.pmm.allocPages count).1 = 0 → ¬ ∃ start, ∀ k < count, start + k ∈ s.pmm.freeSet) ∧
        ((s.pmm.allocPages count).1 ≠ 0 →
          s.Fresh map (s.pmm.allocPages count).2 (s.pmm.allocPages count).1 count) := by
  refine ⟨hmap.init_exact.imp fun p hp => hp.1, fun s hs => ?_⟩
  have h := exact_of_reachable hmap hs
  refine ⟨fun x hx => ?_, h.counted, ?_⟩
  · obtain ⟨page, rfl, hpage⟩ := h.handed x hx
    exact ⟨page, rfl, hpage, h.used hx⟩
  · have hone : (s.pmm.allocPage.1 = 0 → s.pmm.freeSet = ∅) ∧
        (s.pmm.allocPage.1 ≠ 0 → s.Fresh map s.pmm.allocPage.2 s.pmm.allocPage.1 1) := by
      rcases h.allocPage_cases with ⟨hnone, heq⟩ | ⟨hne, S, hS⟩
      · exact ⟨fun _ => hnone, fun hne => absurd (by rw [heq]) hne⟩
      · exact ⟨fun hzero => absurd hzero hne, fun _ => h.fresh hS⟩
    refine ⟨hone.1, hone.2, fun count hcount => ?_⟩
    rcases h.allocPages_cases hcount with ⟨hnone, heq⟩ | ⟨hne, S, hS⟩
    · exact ⟨fun _ => hnone, fun hne => absurd (by rw [heq]) hne⟩
    · exact ⟨fun hzero => absurd hzero hne, fun _ => h.fresh hS⟩

end

/-- Four usable pages, the first of which holds the bitmap. -/
def fourPages : List MemoryRegion := [⟨0, 16384, .usable⟩, ⟨65536, 4096, .bootloaderReclaimable⟩]

theorem mapOk_fourPages : MapOk fourPages := by
  refine ⟨by decide, by decide, by decide, by simp [fourPages], by decide⟩

/-- The theorem after two pages were handed out and one of them was freed. -/
theorem pmm_exact_of_fourPages :
    ∃ s, (sessions fourPages).Reachable Session.Allowed s ∧ s.out = {8192} ∧
      s.pmm.freeSet.card = 2 := by
  obtain ⟨s, hs, hout, hcount⟩ := ((sessions fourPages).restrict Session.Allowed).exists_of_run
    (P := fun s => s.out = {8192} ∧ s.pmm.freePages = 2) ⟨_, rfl, rfl⟩
    [.allocPages 2, .freePage 4096] (by decide)
  exact ⟨s, hs.of_restrict, hout,
    ((pmm_exact mapOk_fourPages).2 s hs.of_restrict).2.1.symm.trans hcount⟩

end Pmm

end AnssOS
