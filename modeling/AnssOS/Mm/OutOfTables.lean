import AnssOS.Mm.CloneUser

/-!
# Page tables without memory

`get_or_create` and `new_address_space` do not ask whether they were given a page.  Without one they use
page 0 as a table, and an entry of the address space leads to page 0.  No page is free then, so that nothing
more can be allocated; and as soon as the address space is freed, page 0 goes to `free_page` like all its
other tables.  Who finds page 0 reserved after `free_user_pages` can therefore be sure that no table was
missing.

### Outline

* `LinksZero`: what a failed `get_or_create` does to the memory, and what the calls after it do;
* `OutOfTables`: no page is free, and the address space leads to page 0; `map` and `new_address_space` get
  there if they fail;
* `OutOfTables.freeUserPages`: freeing such an address space makes page 0 a free page.
-/

namespace AnssOS

namespace PhysMemory

/-! ### Entries that lead to page 0 -/

/-- In the tables of `m` the entry `index` of `parent` now leads to page 0, and no other has changed. -/
structure Linked (m : PhysMemory) (parent index : ℕ) (m' : PhysMemory) : Prop where
  pmm : m'.pmm = m.pmm
  link : m'.entry parent index = 7
  same : ∀ y, m.pmm.Used y → ∀ i < 512, y ≠ parent ∨ i ≠ index → m'.entry y i = m.entry y i

/-- Moreover page 0 itself is a table whose entries lead nowhere or to page 0. -/
structure LinksZero (m : PhysMemory) (parent index : ℕ) (m' : PhysMemory) : Prop
    extends Linked m parent index m' where
  zero : ∀ i < 512, m'.entry 0 i = 0 ∨ m'.entry 0 i = 7

/-- Page 0 is cleared, as a table that `alloc_page` could not provide. -/
def clearZero (m : PhysMemory) : PhysMemory :=
  { m with
    ram := m.ram.fillBytes 0 pageSize 0
    tableFailures := m.tableFailures + 1 }

/-- `get_or_create` without a page: page 0 is cleared, and the entry leads there. -/
def linkZero (m : PhysMemory) (parent index : ℕ) : PhysMemory :=
  m.clearZero.setEntry parent index 7

section LinkZero

variable {m m' : PhysMemory} {parent index : ℕ}

theorem entry_linkZero_self (m : PhysMemory) (parent index : ℕ) :
    (m.linkZero parent index).entry parent index = 7 :=
  ByteMemory.readWord_writeWord_self _ _ (by decide)

/-- The other entries of tables that are not page 0. -/
theorem entry_linkZero_of_ne {page page' i : ℕ} (hindex : index < 512) (hi : i < 512) (hpage : page' ≠ 0)
    (hne : page' * pageSize ≠ page * pageSize ∨ i ≠ index) :
    (m.linkZero (page * pageSize) index).entry (page' * pageSize) i = m.entry (page' * pageSize) i := by
  rw [linkZero, entry_setEntry_of_ne _ _ hindex hi hne]
  refine ByteMemory.readWord_congr fun k hk => ByteMemory.fillBytes_of_outside (Or.inr ?_)
  have := Nat.pos_of_ne_zero hpage
  unfold pageSize
  omega

/-- The other entries of page 0. -/
theorem entry_linkZero_zero {page i : ℕ} (hindex : index < 512) (hi : i < 512)
    (hne : 0 ≠ page * pageSize ∨ i ≠ index) : (m.linkZero (page * pageSize) index).entry 0 i = 0 := by
  have hother : (m.linkZero (page * pageSize) index).entry (0 * pageSize) i =
      m.clearZero.entry (0 * pageSize) i :=
    entry_setEntry_of_ne _ _ hindex hi (by rwa [Nat.zero_mul])
  rw [Nat.zero_mul] at hother
  rw [hother]
  refine ByteMemory.readWord_eq_zero fun k hk => ?_
  have hlt : 0 + 8 * i + k < pageSize := by
    unfold pageSize
    omega
  exact if_pos ⟨Nat.zero_le _, by omega⟩

/-- What `get_or_create` does when no page is free. -/
theorem getOrCreate_of_full (hsound : m.pmm.Sound) (hfull : ∀ x, ¬ m.pmm.Free x)
    (hvacant : present (m.entry parent index) = false) :
    m.getOrCreate parent index = (0, m.linkZero parent index) := by
  have halloc : m.pmm.allocPage = (0, m.pmm) := by
    rcases Pmm.allocPage_cases hsound.zero hsound.cursor_le with ⟨-, heq⟩ | ⟨page, -, hlt, hfree, -⟩
    · exact heq
    · exact absurd ⟨page, rfl, hlt, hfree⟩ (hfull (page * pageSize))
  have hmem : (m.getOrCreate parent index).2 = m.linkZero parent index := by
    rw [getOrCreate, hvacant, allocTable, halloc]
    rfl
  have hentry : (m.getOrCreate parent index).1 =
      (m.getOrCreate parent index).2.entry parent index &&& pageAddrMask := rfl
  rw [hmem, entry_linkZero_self] at hentry
  exact Prod.ext hentry hmem

/-- A failure of `get_or_create`. -/
theorem full_of_getOrCreate (hsound : m.pmm.Sound)
    (hfail : m.tableFailures < (m.getOrCreate parent index).2.tableFailures) :
    present (m.entry parent index) = false ∧ ∀ x, ¬ m.pmm.Free x := by
  have hvacant : present (m.entry parent index) = false := by
    by_contra hpresent
    rw [Bool.not_eq_false] at hpresent
    rw [getOrCreate, if_pos hpresent] at hfail
    exact lt_irrefl _ hfail
  refine ⟨hvacant, ?_⟩
  rcases Pmm.allocPage_cases hsound.zero hsound.cursor_le with ⟨hused, -⟩ | ⟨page, hne, -, -, heq⟩
  · rintro x ⟨page, -, hlt, hfree⟩
    rw [hused page hlt] at hfree
    cases hfree
  · have hzero : m.pmm.allocPage.1 ≠ 0 := by
      rw [heq]
      simp [hne, pageSize]
    have hsame : (m.getOrCreate parent index).2.tableFailures = m.tableFailures := by
      rw [getOrCreate, hvacant, allocTable]
      exact if_neg hzero
    rw [hsame] at hfail
    exact absurd hfail (lt_irrefl _)

theorem linksZero_linkZero (hparent : m.pmm.Used parent) (hindex : index < 512) :
    LinksZero m parent index (m.linkZero parent index) := by
  obtain ⟨page, rfl, hpage, -⟩ := hparent
  refine ⟨⟨rfl, entry_linkZero_self _ _ _, ?_⟩, fun i hi => Or.inl ?_⟩
  · rintro y ⟨page', rfl, hpage', -⟩ i hi hne
    exact entry_linkZero_of_ne hindex hi hpage' hne
  · refine entry_linkZero_zero hindex hi (Or.inl ?_)
    unfold pageSize
    omega

/-- A step that changes page 0 only. -/
theorem Linked.of_zero {m'' : PhysMemory} (h : Linked m parent index m') (hparent : m.pmm.Used parent)
    (hindex : index < 512) (hpmm : m''.pmm = m'.pmm)
    (hsame : ∀ page ≠ 0, ∀ i < 512, m''.entry (page * pageSize) i = m'.entry (page * pageSize) i) :
    Linked m parent index m'' := by
  refine ⟨hpmm.trans h.pmm, ?_, fun y hy i hi hne => ?_⟩
  · obtain ⟨page, rfl, hpage, -⟩ := hparent
    rw [hsame page hpage index hindex]
    exact h.link
  · rw [← h.same y hy i hi hne]
    obtain ⟨page, rfl, hpage, -⟩ := hy
    exact hsame page hpage i hi

/-- The next table is page 0 again. -/
theorem LinksZero.getOrCreate (h : LinksZero m parent index m') (hsound : m.pmm.Sound)
    (hfull : ∀ x, ¬ m.pmm.Free x) (hparent : m.pmm.Used parent) (hindex : index < 512) {j : ℕ}
    (hj : j < 512) :
    (m'.getOrCreate 0 j).1 = 0 ∧ LinksZero m parent index (m'.getOrCreate 0 j).2 := by
  cases hpresent : present (m'.entry 0 j) with
  | true =>
    have heq : m'.getOrCreate 0 j = (m'.entry 0 j &&& pageAddrMask, m') := by
      rw [PhysMemory.getOrCreate, if_pos hpresent]
    rw [heq]
    refine ⟨?_, h⟩
    rcases h.zero j hj with hentry | hentry
    · rw [hentry]
      rfl
    · rw [hentry]
      rfl
  | false =>
    rw [getOrCreate_of_full (h.pmm.symm ▸ hsound) (h.pmm.symm ▸ hfull) hpresent]
    refine ⟨rfl, h.toLinked.of_zero hparent hindex rfl fun page hpage i hi => ?_, fun i hi => ?_⟩
    · have hother : (m'.linkZero (0 * pageSize) j).entry (page * pageSize) i =
          m'.entry (page * pageSize) i :=
        entry_linkZero_of_ne hj hi hpage (Or.inl (by
          unfold pageSize
          omega))
      rwa [Nat.zero_mul] at hother
    · by_cases hij : i = j
      · rw [hij, entry_linkZero_self]
        exact Or.inr rfl
      · have hother : (m'.linkZero (0 * pageSize) j).entry 0 i = 0 :=
          entry_linkZero_zero hj hi (Or.inr hij)
        rw [Nat.zero_mul] at hother
        exact Or.inl hother

end LinkZero

/-! ### Address spaces that lead to page 0 -/

/-- No page is free, and the address space `dst` leads to page 0. -/
structure OutOfTables (dst : ℕ) (m : PhysMemory) : Prop where
  sound : m.pmm.Sound
  total : 0 < m.pmm.totalPages
  full : ∀ x, ¬ m.pmm.Free x
  linked : ∃ path, Reaches UserPath m.child (spaceRoots dst) () path 0

/-- In the middle of `map`, after a table was missing: the tables of `dst` are those of an earlier memory
but for one entry. -/
def Lost (dst : ℕ) (m : PhysMemory) : Prop :=
  ∃ m₀ path parent index, m₀.Owned (spaceRoots dst) ∅ ∅ ∧ (∀ x, ¬ m₀.pmm.Free x) ∧
    Reaches UserPath m₀.child (spaceRoots dst) () path parent ∧ UserPath (path ++ [index]) ∧
    present (m₀.entry parent index) = false ∧ LinksZero m₀ parent index m

section Map

variable {m : PhysMemory} {dst : ℕ}

/-- One level of the walk down the tables. -/
theorem OwnedBy.getOrCreate_or_lost {path : List ℕ} {parent index : ℕ}
    (h : m.Owned (spaceRoots dst) ∅ ∅)
    (hparent : Reaches UserPath m.child (spaceRoots dst) () path parent)
    (hpath : UserPath (path ++ [index])) (hshort : path.length < 3) :
    ((m.getOrCreate parent index).2.Owned (spaceRoots dst) ∅ ∅ ∧
      (m.getOrCreate parent index).2.tableFailures = m.tableFailures ∧
      Reaches UserPath (m.getOrCreate parent index).2.child (spaceRoots dst) () (path ++ [index])
        (m.getOrCreate parent index).1) ∨
      (m.getOrCreate parent index).1 = 0 ∧ Lost dst (m.getOrCreate parent index).2 := by
  rcases (m.tableFailures_le_getOrCreate parent index).eq_or_lt with hok | hfail
  · obtain ⟨hown, hreach, -⟩ := h.getOrCreate hparent hpath hshort hok.symm
    exact Or.inl ⟨hown, hok.symm, hreach⟩
  · obtain ⟨hvacant, hfull⟩ := full_of_getOrCreate h.sound hfail
    have hlinks := linksZero_linkZero (h.owns.used_of_reaches hparent) hpath.last_lt
    rw [getOrCreate_of_full h.sound hfull hvacant]
    exact Or.inr ⟨rfl, m, path, parent, index, h, hfull, hparent, hpath, hvacant, hlinks⟩

theorem Lost.getOrCreate (h : Lost dst m) {j : ℕ} (hj : j < 512) :
    (m.getOrCreate 0 j).1 = 0 ∧ Lost dst (m.getOrCreate 0 j).2 := by
  obtain ⟨m₀, path, parent, index, hown, hfull, hparent, hpath, hvacant, hlinks⟩ := h
  obtain ⟨hzero, hlinks⟩ := hlinks.getOrCreate hown.sound hfull (hown.owns.used_of_reaches hparent)
    hpath.last_lt hj
  exact ⟨hzero, m₀, path, parent, index, hown, hfull, hparent, hpath, hvacant, hlinks⟩

/-- The page is entered in page 0. -/
theorem Lost.setEntry (h : Lost dst m) {j : ℕ} (hj : j < 512) (e : ℕ) :
    OutOfTables dst (m.setEntry 0 j e) := by
  obtain ⟨m₀, path, parent, index, hown, hfull, hparent, hpath, hvacant, hlinks⟩ := h
  have hused := hown.owns.used_of_reaches hparent
  have hlinked : Linked m₀ parent index (m.setEntry 0 j e) := by
    refine hlinks.toLinked.of_zero hused hpath.last_lt rfl fun page hpage i hi => ?_
    have hother : (m.setEntry (0 * pageSize) j e).entry (page * pageSize) i =
        m.entry (page * pageSize) i := by
      refine entry_setEntry_of_ne _ _ hj hi (Or.inl ?_)
      unfold pageSize
      omega
    rwa [Nat.zero_mul] at hother
  generalize m.setEntry 0 j e = m' at hlinked
  have hchild : m₀.child parent index = none := by rw [child, hvacant]; rfl
  refine ⟨hlinked.pmm ▸ hown.sound, ?_, hlinked.pmm ▸ hfull, path ++ [index], ?_⟩
  · obtain ⟨page, -, -, hlt, -⟩ := hused
    rw [hlinked.pmm]
    exact Nat.zero_lt_of_lt hlt
  · refine (hparent.of_vacant UserPath.of_concat hchild fun hy hvalid hne => ?_).concat hpath ?_
    · rw [child, child, hlinked.same _ (hown.owns.used_of_reaches hy) _ hvalid.last_lt hne]
    · rw [child, hlinked.link]
      rfl

/-- A table was missing when a page was mapped. -/
theorem OwnedBy.map_outOfTables {virt phys flags : ℕ} (h : m.Owned (spaceRoots dst) ∅ ∅)
    (hvirt : tableIndex virt 39 < 256)
    (hfail : m.tableFailures < (m.map dst virt phys flags).tableFailures) :
    OutOfTables dst (m.map dst virt phys flags) := by
  have hpath₃ : UserPath ([tableIndex virt 39, tableIndex virt 30] ++ [tableIndex virt 21]) :=
    userPath_tables hvirt
  have hpath₂ : UserPath ([tableIndex virt 39] ++ [tableIndex virt 30]) := hpath₃.of_concat
  have hpath₁ : UserPath ([] ++ [tableIndex virt 39]) := hpath₂.of_concat
  have hlt : ∀ shift, tableIndex virt shift < 512 := fun shift => by
    rw [tableIndex_eq]
    omega
  suffices hwalk : (m.walkCreate dst virt).1 = 0 ∧ Lost dst (m.walkCreate dst virt).2 by
    have hmap := hwalk.2.setEntry (hlt 12) (phys &&& pageAddrMask ||| flags)
    rwa [← hwalk.1] at hmap
  replace hfail : m.tableFailures < (m.walkCreate dst virt).2.tableFailures := hfail
  rw [walkCreate_eq] at hfail ⊢
  -- the level at which the table was missing
  have hfirst := h.getOrCreate_or_lost (reaches_nil userPath_nil rfl) hpath₁ (by simp)
  rcases hcall₁ : m.getOrCreate dst (tableIndex virt 39) with ⟨pdpt, m₁⟩
  rw [hcall₁] at hfail hfirst
  dsimp only at hfail hfirst ⊢
  rcases hfirst with ⟨hown₁, hok₁, hreach₁⟩ | ⟨rfl, hlost⟩
  · have hsecond := hown₁.getOrCreate_or_lost hreach₁ hpath₂ (by simp)
    rcases hcall₂ : m₁.getOrCreate pdpt (tableIndex virt 30) with ⟨pd, m₂⟩
    rw [hcall₂] at hfail hsecond
    dsimp only at hfail hsecond ⊢
    rcases hsecond with ⟨hown₂, hok₂, hreach₂⟩ | ⟨rfl, hlost⟩
    · have hthird := hown₂.getOrCreate_or_lost hreach₂ hpath₃ (by simp)
      refine hthird.resolve_left fun ⟨_, hok₃, _⟩ => ?_
      rw [hok₃, hok₂, hok₁] at hfail
      exact lt_irrefl _ hfail
    · exact hlost.getOrCreate (hlt 21)
  · obtain ⟨hpd, hlost⟩ := hlost.getOrCreate (hlt 30)
    rw [hpd]
    exact hlost.getOrCreate (hlt 21)

end Map

/-! ### The clone -/

section Clone

variable {m m' : PhysMemory} {dst src : ℕ}

/-- A page was missing for the PML4. -/
theorem outOfTables_newAddressSpace (hsound : m.pmm.Sound) (htotal : 0 < m.pmm.totalPages) {cr3 : ℕ}
    (hfail : m.tableFailures < (m.newAddressSpace cr3).2.tableFailures) :
    OutOfTables (m.newAddressSpace cr3).1 (m.newAddressSpace cr3).2 := by
  replace hfail : m.tableFailures < m.allocTable.2.tableFailures := hfail
  rcases Pmm.allocPage_cases hsound.zero hsound.cursor_le with ⟨hused, heq⟩ | ⟨page, hne, -, -, heq⟩
  · have hpmm : (m.newAddressSpace cr3).2.pmm = m.pmm := congrArg Prod.snd heq
    have hzero : (m.newAddressSpace cr3).1 = 0 := congrArg Prod.fst heq
    refine ⟨hpmm ▸ hsound, hpmm ▸ htotal, ?_, [], reaches_nil userPath_nil (by rw [hzero]; rfl)⟩
    rintro x ⟨page, -, hlt, hfree⟩
    rw [hpmm] at hlt hfree
    rw [hused page hlt] at hfree
    cases hfree
  · have hne : m.pmm.allocPage.1 ≠ 0 := by
      rw [heq]
      simp [hne, pageSize]
    have hsame : m.allocTable.2.tableFailures = m.tableFailures := if_neg hne
    rw [hsame] at hfail
    exact absurd hfail (lt_irrefl _)

/-- Nothing more is copied. -/
theorem OutOfTables.cloneStep (h : OutOfTables dst m) (path : List ℕ) (e : ℕ) :
    OutOfTables dst (cloneStep dst path e m).2 := by
  rcases Pmm.allocPage_cases h.sound.zero h.sound.cursor_le with ⟨-, heq⟩ | ⟨page, -, hlt, hfree, -⟩
  · rw [PhysMemory.cloneStep, heq]
    exact h
  · exact absurd ⟨page, rfl, hlt, hfree⟩ (h.full (page * pageSize))

/-- A table was missing when a page was copied. -/
theorem CloneOk.step_outOfTables {done : List (List ℕ × ℕ)} {path : List ℕ} {e : ℕ}
    {m₁ m₂ : PhysMemory} (h : CloneOk m dst done m₁) (hpath : Indices 256 path)
    (hlen : path.length = 4) (hcall : PhysMemory.cloneStep dst path e m₁ = (true, m₂))
    (hfail : m.tableFailures < m₂.tableFailures) : OutOfTables dst m₂ := by
  obtain ⟨-, hvirt⟩ := virtPath_virtOf hpath hlen
  unfold PhysMemory.cloneStep at hcall
  rcases halloc : m₁.pmm.allocPage with ⟨x, p⟩
  rw [halloc] at hcall
  dsimp only at hcall
  split at hcall
  · cases hcall
  rename_i hx
  rw [← (Prod.mk.inj hcall).2, ← h.failures] at hfail
  rw [← (Prod.mk.inj hcall).2]
  have hcopy : ∀ a, a < x ∨ x + pageSize ≤ a →
      m₁.ram.copyBytes x (e &&& pageAddrMask) pageSize a = m₁.ram a :=
    fun a ha => ByteMemory.copyBytes_of_outside ha
  have hown := h.own.writeNew halloc hx hcopy
  refine (hown.forget (Set.empty_subset _) subset_rfl).map_outOfTables ?_ hfail
  rw [tableIndex_eq]
  omega

/-- What `clone_user_pages` has done when it is through, when it has stopped, and when it could not. -/
theorem UserTree.clone_or_outOfTables (h : UserTree m src) {cr3 : ℕ}
    (hnew : m.newAddressSpace cr3 = (dst, m')) :
    (∃ done, CloneOk m dst done (m'.cloneUserPages dst src).2) ∨
      OutOfTables dst (m'.cloneUserPages dst src).2 := by
  have htotal : 0 < m.pmm.totalPages := by
    have hroot : Reaches TablePath m.child (spaceRoots src) () [] src :=
      reaches_nil ⟨userPath_nil, by simp⟩ rfl
    obtain ⟨page, -, -, hlt, -⟩ := h.own.owns.used_of_reaches hroot
    exact Nat.zero_lt_of_lt hlt
  have hstart : CloneOk m dst [] m' ∨ OutOfTables dst m' := by
    rcases m.tableFailures_le_allocTable.eq_or_lt with hok | hfail
    · refine Or.inl (cloneOk_newAddressSpace h.own.sound hnew ?_)
      have hm' : (m.newAddressSpace cr3).2 = m' := congrArg Prod.snd hnew
      rw [← hm']
      exact hok.symm
    · have hout : OutOfTables (m.newAddressSpace cr3).1 (m.newAddressSpace cr3).2 :=
        outOfTables_newAddressSpace h.own.sound htotal hfail
      rw [hnew] at hout
      exact Or.inr hout
  have houtcome := h.clone_outcome (OutOfTables dst) (fun path e m₁ hm₁ => hm₁.cloneStep path e)
    (fun done path e m₁ m₂ h₁ hpath hlen hcall hfail => h₁.step_outOfTables hpath hlen hcall hfail)
    hstart
  refine houtcome.imp_left fun hgood => ?_
  split at hgood
  · exact ⟨_, hgood⟩
  · exact hgood

end Clone

/-! ### Freeing the address space -/

theorem test_freePage_of_test {m : PhysMemory} {page : ℕ} (x : ℕ) (h : m.pmm.test page = false) :
    (m.freePage x).pmm.test page = false := by
  rw [freePage, Pmm.freePage]
  dsimp only
  split
  · exact h
  · by_cases hpage : page = x / pageSize
    · rw [hpage]
      exact Function.update_self (x / pageSize) false m.pmm.bitmap
    · exact (Function.update_of_ne hpage false m.pmm.bitmap).trans h

theorem test_freePage_zero {m : PhysMemory} (htotal : 0 < m.pmm.totalPages) :
    (m.freePage 0).pmm.test 0 = false := by
  rw [freePage, Pmm.freePage]
  dsimp only
  split
  · rename_i hskip
    rw [Nat.zero_div] at hskip
    simpa [htotal.not_ge] using hskip
  · exact Function.update_self 0 false m.pmm.bitmap

theorem totalPages_freePage (m : PhysMemory) (x : ℕ) :
    (m.freePage x).pmm.totalPages = m.pmm.totalPages := by
  rw [freePage, Pmm.freePage]
  dsimp only
  split <;> rfl

/-- Freed pages stay free, and page 0 is one of them. -/
theorem test_zero_foldl_freePage {m : PhysMemory} {pages : List ℕ} (htotal : 0 < m.pmm.totalPages)
    (h : m.pmm.test 0 = false ∨ 0 ∈ pages) : (pages.foldl freePage m).pmm.test 0 = false := by
  induction pages generalizing m with
  | nil => exact h.resolve_right List.not_mem_nil
  | cons x pages ih =>
    refine ih (by rwa [totalPages_freePage]) ?_
    rcases h with h | h
    · exact Or.inl (test_freePage_of_test x h)
    · rcases List.mem_cons.mp h with rfl | h
      · exact Or.inl (test_freePage_zero htotal)
      · exact Or.inr h

/-- Page 0 is given back with the tables. -/
theorem OutOfTables.freeUserPages {m : PhysMemory} {dst : ℕ} (h : OutOfTables dst m) :
    (m.freeUserPages dst).pmm.test 0 = false := by
  rw [freeUserPages_eq]
  exact test_zero_foldl_freePage h.total (Or.inr (mem_userPages.mpr h.linked))

end PhysMemory

end AnssOS
