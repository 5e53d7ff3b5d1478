import AnssOS.Mm.Vmm

/-!
# Who owns which page

`Owned` says that the page tables of several address spaces, each with a holder, form a forest of
pages that the allocator counts as used: no page is shared, neither between two address spaces nor
within one.  Each operation of the memory manager comes with its rule.  The operations that create
tables keep the account as long as no allocation of a table fails, which is what the field
`tableFailures` tells.
-/

namespace AnssOS

/-! ### Paths through the user half -/

/-- A path of at most four table indices, from the lower half of the top-level table. -/
def UserPath (path : List ℕ) : Prop :=
  path.length ≤ 4 ∧ (∀ i ∈ path, i < tableEntries) ∧ ∀ i ∈ path.head?, i < tableEntries / 2

theorem userPath_nil : UserPath [] := by simp [UserPath]

variable {path : List ℕ} {i : ℕ}

theorem UserPath.of_concat (h : UserPath (path ++ [i])) :
    UserPath path := by
  obtain ⟨hlen, hlt, hhead⟩ := h
  rw [List.length_append] at hlen
  refine ⟨by omega, fun j hj => hlt j (List.mem_append_left _ hj), fun j hj => hhead j ?_⟩
  cases path with
  | nil => cases hj
  | cons a path => exact hj

theorem UserPath.last_lt (h : UserPath (path ++ [i])) : i < 512 :=
  h.2.1 i (by simp)

theorem UserPath.not_concat (h : path.length = 4) (i : ℕ) :
    ¬ UserPath (path ++ [i]) := by
  rintro ⟨hlen, -⟩
  rw [List.length_append, h] at hlen
  simp at hlen

/-- The indices by which an address is looked up. -/
def virtPath (virt : ℕ) : List ℕ :=
  [tableIndex virt 39, tableIndex virt 30, tableIndex virt 21, tableIndex virt 12]

theorem userPath_of_virt {virt : ℕ} (h : tableIndex virt 39 < 256) : UserPath (virtPath virt) := by
  refine ⟨by simp [virtPath], ?_, by simpa [virtPath, tableEntries] using h⟩
  intro i hi
  simp only [virtPath, List.mem_cons, List.not_mem_nil, or_false] at hi
  rcases hi with rfl | rfl | rfl | rfl <;> exact tableIndex_lt _ _

theorem userPath_tables {virt : ℕ} (h : tableIndex virt 39 < 256) :
    UserPath [tableIndex virt 39, tableIndex virt 30, tableIndex virt 21] := by
  have hpath : UserPath ([tableIndex virt 39, tableIndex virt 30, tableIndex virt 21] ++
      [tableIndex virt 12]) := userPath_of_virt h
  exact hpath.of_concat

/-- A path of the user half that leads to a table. -/
def TablePath (path : List ℕ) : Prop := UserPath path ∧ path.length ≤ 3

/-- The paths of the user half that an account is about: those to the tables, and maybe those to the
pages that are mapped. -/
class UserLayout (valid : List ℕ → Prop) : Prop where
  nil : valid []
  of_concat : ∀ {path i}, valid (path ++ [i]) → valid path
  last_lt : ∀ {path i}, valid (path ++ [i]) → i < 512
  top_lt : ∀ {i}, valid ([] ++ [i]) → i < 256
  top : ∀ {i}, i < 256 → valid ([] ++ [i])
  tables : ∀ {virt}, tableIndex virt 39 < 256 →
    valid [tableIndex virt 39, tableIndex virt 30, tableIndex virt 21]

theorem userPath_top (hi : i < 256) : UserPath [i] := by
  refine ⟨by simp, ?_, ?_⟩ <;> simp [tableEntries] <;> omega

instance : UserLayout UserPath where
  nil := userPath_nil
  of_concat := UserPath.of_concat
  last_lt := UserPath.last_lt
  top_lt h := h.2.2 _ (by simp)
  top := userPath_top
  tables h := userPath_tables h

instance : UserLayout TablePath where
  nil := ⟨userPath_nil, by simp⟩
  of_concat h := ⟨h.1.of_concat, by have := h.2; rw [List.length_append] at this; omega⟩
  last_lt h := h.1.last_lt
  top_lt h := h.1.2.2 _ (by simp)
  top h := ⟨userPath_top h, by simp⟩
  tables h := ⟨userPath_tables h, by simp⟩

/-! ### The account -/

namespace PhysMemory

/-- The account of the pages that the address spaces with the given roots name by valid paths. -/
structure OwnedBy (valid : List ℕ → Prop) {ι : Type*} (m : PhysMemory) (roots : ι → Option ℕ)
    (reserved data : Set ℕ) : Prop where
  sound : m.pmm.Sound
  owns : Owns valid m.child m.pmm.Used roots reserved data

/-- The account of all pages, also of those that are mapped. -/
abbrev Owned {ι : Type*} (m : PhysMemory) (roots : ι → Option ℕ) (reserved data : Set ℕ) : Prop :=
  m.OwnedBy UserPath roots reserved data

/-- The page that an address is in. -/
def pageOf (a : ℕ) : ℕ := a / pageSize * pageSize

theorem pageOf_add {page off : ℕ} (h : off < pageSize) :
    pageOf (page * pageSize + off) = page * pageSize := by
  unfold pageOf pageSize at *
  congr 1
  omega

variable {i page : ℕ} {m m' : PhysMemory}

/-- The entries of a table depend on the bytes of its page only. -/
theorem entry_congr (hi : i < 512)
    (h : ∀ a, pageOf a = page * pageSize → m'.ram a = m.ram a) :
    m'.entry (page * pageSize) i = m.entry (page * pageSize) i := by
  refine ByteMemory.readWord_congr fun k hk => h _ ?_
  rw [add_assoc]
  exact pageOf_add (by unfold pageSize; omega)

theorem entry_eq_of_bytes {t i : ℕ} (hi : i < 512)
    (h : ∀ off < pageSize, m'.ram (t + off) = m.ram (t + off)) : m'.entry t i = m.entry t i := by
  refine ByteMemory.readWord_congr fun k hk => ?_
  rw [add_assoc]
  exact h _ (by unfold pageSize; omega)

theorem child_congr (hi : i < 512)
    (h : ∀ a, pageOf a = page * pageSize → m'.ram a = m.ram a) :
    m'.child (page * pageSize) i = m.child (page * pageSize) i := by
  rw [child, child, entry_congr hi h]

theorem entry_of_child {t i x : ℕ} (h : m.child t i = some x) :
    m.entry t i &&& pageAddrMask = x := by
  unfold child at h
  split at h
  · exact Option.some.inj h
  · cases h

/-- What a written entry leads to. -/
theorem child_setEntry_self (m : PhysMemory) (t i : ℕ) {e : ℕ} (he : e < 2 ^ 64) :
    (m.setEntry t i e).child t i = if present e then some (e &&& pageAddrMask) else none := by
  have hentry : (m.setEntry t i e).entry t i = e := ByteMemory.readWord_writeWord_self _ _ he
  rw [child, hentry]

/-- The other entries stay as they are. -/
theorem entry_setEntry_of_ne (m : PhysMemory) {page page' i j : ℕ} (e : ℕ) (hi : i < 512)
    (hj : j < 512) (hne : page' * pageSize ≠ page * pageSize ∨ j ≠ i) :
    (m.setEntry (page * pageSize) i e).entry (page' * pageSize) j =
      m.entry (page' * pageSize) j := by
  refine ByteMemory.readWord_writeWord_of_disjoint ?_
  unfold pageSize at hne ⊢
  omega

theorem child_setEntry_of_ne (m : PhysMemory) {page page' i j : ℕ} (e : ℕ) (hi : i < 512)
    (hj : j < 512) (hne : page' * pageSize ≠ page * pageSize ∨ j ≠ i) :
    (m.setEntry (page * pageSize) i e).child (page' * pageSize) j =
      m.child (page' * pageSize) j := by
  rw [child, child, m.entry_setEntry_of_ne e hi hj hne]

/-! ### What an operation leaves alone -/

section Extends

variable {ι : Type*}

/-- The pages in `kept` and the upper halves of the top-level tables are as they were. -/
structure Extends (roots : ι → Option ℕ) (kept : Set ℕ) (m m' : PhysMemory) : Prop where
  kept : ∀ a, pageOf a ∈ kept → m'.ram a = m.ram a
  upper : ∀ k pml4 a, roots k = some pml4 → pml4 + 2048 ≤ a → a < pml4 + 4096 → m'.ram a = m.ram a

variable {valid : List ℕ → Prop} {roots : ι → Option ℕ} {h₀ : ι} {kept : Set ℕ}
  {m m₁ m₂ : PhysMemory}

theorem Extends.of_ram (h : m₁.ram = m.ram) : Extends roots kept m m₁ :=
  ⟨fun _ _ => by rw [h], fun _ _ _ _ _ _ => by rw [h]⟩

theorem Extends.trans (h₁ : Extends roots kept m m₁) (h₂ : Extends roots kept m₁ m₂) :
    Extends roots kept m m₂ where
  kept a ha := (h₂.kept a ha).trans (h₁.kept a ha)
  upper k pml4 a hroot hle hlt :=
    (h₂.upper k pml4 a hroot hle hlt).trans (h₁.upper k pml4 a hroot hle hlt)

/-- The trees of `m` are still there in `m'`, where that of `h₀` has more tables: they were not in
use before, and those of the lowest level are empty. -/
structure GrowsBy (valid : List ℕ → Prop) (roots : ι → Option ℕ) (h₀ : ι) (m m' : PhysMemory) :
    Prop where
  mono : ∀ {k path y}, Reaches valid m.child roots k path y → Reaches valid m'.child roots k path y
  new : ∀ {k path y}, Reaches valid m'.child roots k path y → Reaches valid m.child roots k path y ∨
    ¬ m.pmm.Used y ∧ path.length ≤ 3 ∧ (path.length = 3 → ∀ i < 512, m'.entry y i = 0)
  bytes : ∀ {k path t}, 3 ≤ path.length → Reaches valid m.child roots k path t →
    ∀ off < pageSize, m'.ram (t + off) = m.ram (t + off)
  flags : ∀ {k path t i}, Reaches valid m'.child roots k path t → path.length < 3 →
    valid (path ++ [i]) → (Reaches valid m.child roots k path t ∧ m'.entry t i = m.entry t i) ∨
      m'.entry t i &&& pageHuge = 0
  total : m'.pmm.totalPages = m.pmm.totalPages
  used : ∀ {y}, m.pmm.Used y → m'.pmm.Used y
  covered : ∀ {y}, m'.pmm.Used y →
    m.pmm.Used y ∨ ∃ path, Reaches valid m'.child roots h₀ path y
  written : ∀ {a}, m'.ram a ≠ m.ram a → m'.pmm.Used (pageOf a)

theorem GrowsBy.refl : GrowsBy valid roots h₀ m m :=
  ⟨id, Or.inl, fun _ _ _ _ => rfl, fun h _ _ => Or.inl ⟨h, rfl⟩, rfl, id, Or.inl,
    fun h => absurd rfl h⟩

theorem GrowsBy.trans (h₁ : GrowsBy valid roots h₀ m m₁) (h₂ : GrowsBy valid roots h₀ m₁ m₂) :
    GrowsBy valid roots h₀ m m₂ where
  mono hy := h₂.mono (h₁.mono hy)
  new {k path y} hy := by
    rcases h₂.new hy with hy | ⟨hunused, hrest⟩
    · refine (h₁.new hy).imp_right fun ⟨hunused, hlen, hempty⟩ => ⟨hunused, hlen, fun hlow i hi => ?_⟩
      rw [entry_eq_of_bytes hi (h₂.bytes hlow.ge hy), hempty hlow i hi]
    · exact Or.inr ⟨fun hused => hunused (h₁.used hused), hrest⟩
  bytes hlen ht off hoff := (h₂.bytes hlen (h₁.mono ht) off hoff).trans (h₁.bytes hlen ht off hoff)
  flags ht hlen hvalid := by
    rcases h₂.flags ht hlen hvalid with ⟨ht, heq⟩ | hflag
    · rw [heq]
      exact h₁.flags ht hlen hvalid
    · exact Or.inr hflag
  total := h₂.total.trans h₁.total
  used hy := h₂.used (h₁.used hy)
  covered hy := by
    rcases h₂.covered hy with hy | hy
    · exact (h₁.covered hy).imp_right fun ⟨path, hreach⟩ => ⟨path, h₂.mono hreach⟩
    · exact Or.inr hy
  written {a} ha := by
    by_cases hmid : m₂.ram a = m₁.ram a
    · exact h₂.used (h₁.written (hmid ▸ ha))
    · exact h₂.written hmid

end Extends

/-- The memory with a new address space `x` in it: its lower half is empty, and its upper half is
that of `cr3`. -/
structure NewSpace (m : PhysMemory) (cr3 : ℕ) (reserved : Set ℕ) (x : ℕ) (m' : PhysMemory) :
    Prop where
  same : ∀ a, m'.ram a ≠ m.ram a → pageOf a = x
  kept : ∀ a, pageOf a ∈ reserved → m'.ram a = m.ram a
  lower : ∀ i < 256, m'.entry x i = 0
  upper : m.pmm.Used cr3 → ∀ k < 2048, m'.ram (x + 2048 + k) = m.ram (cr3 + 2048 + k)

theorem child_eq_none {m : PhysMemory} {t i : ℕ} (h : m.entry t i = 0) : m.child t i = none := by
  rw [child, h]
  rfl

theorem NewSpace.entry_upper {m m' : PhysMemory} {cr3 x : ℕ} {reserved : Set ℕ}
    (h : NewSpace m cr3 reserved x m') (hcr3 : m.pmm.Used cr3) {i : ℕ} (hle : 256 ≤ i) (hlt : i < 512) :
    m'.entry x i = m.entry cr3 i := by
  simp only [entry, ByteMemory.readWord, ByteMemory.readBytes]
  congr 1
  refine List.map_congr_left fun k hk => ?_
  have hk := List.mem_range.mp hk
  have hcopy := h.upper hcr3 (8 * i - 2048 + k) (by omega)
  rwa [show x + 2048 + (8 * i - 2048 + k) = x + 8 * i + k by omega,
    show cr3 + 2048 + (8 * i - 2048 + k) = cr3 + 8 * i + k by omega] at hcopy

theorem Extends.entry_upper {ι : Type*} {roots : ι → Option ℕ} {k : ι} {kept : Set ℕ}
    {m m' : PhysMemory} (h : Extends roots kept m m') {pml4 i : ℕ} (hroot : roots k = some pml4)
    (hle : 256 ≤ i) (hlt : i < 512) : m'.entry pml4 i = m.entry pml4 i :=
  ByteMemory.readWord_congr fun _ _ => h.upper k pml4 _ hroot (by omega) (by omega)

/-! ### Failures are counted -/

section

variable (m : PhysMemory)

theorem tableFailures_le_allocTable : m.tableFailures ≤ m.allocTable.2.tableFailures := by
  simp only [allocTable]
  split <;> omega

theorem tableFailures_le_getOrCreate (parent index : ℕ) :
    m.tableFailures ≤ (m.getOrCreate parent index).2.tableFailures := by
  simp only [getOrCreate]
  split
  · exact le_rfl
  · exact m.tableFailures_le_allocTable

theorem walkCreate_eq (pml4 virt : ℕ) :
    m.walkCreate pml4 virt =
      ((m.getOrCreate pml4 (tableIndex virt 39)).2.getOrCreate
        (m.getOrCreate pml4 (tableIndex virt 39)).1 (tableIndex virt 30)).2.getOrCreate
        ((m.getOrCreate pml4 (tableIndex virt 39)).2.getOrCreate
          (m.getOrCreate pml4 (tableIndex virt 39)).1 (tableIndex virt 30)).1
        (tableIndex virt 21) := rfl

theorem tableFailures_le_walkCreate (pml4 virt : ℕ) :
    m.tableFailures ≤ (m.walkCreate pml4 virt).2.tableFailures := by
  rw [walkCreate_eq]
  exact (m.tableFailures_le_getOrCreate _ _).trans
    ((tableFailures_le_getOrCreate _ _ _).trans (tableFailures_le_getOrCreate _ _ _))

theorem tableFailures_le_map (pml4 virt phys flags : ℕ) :
    m.tableFailures ≤ (m.map pml4 virt phys flags).tableFailures :=
  m.tableFailures_le_walkCreate pml4 virt

theorem tableFailures_le_growHeap (pml4 virt : ℕ) :
    m.tableFailures ≤ (m.growHeap pml4 virt).2.tableFailures := by
  unfold growHeap
  rcases m.pmm.allocPage with ⟨phys, p⟩
  dsimp only
  split
  · exact le_rfl
  · exact tableFailures_le_map { m with pmm := p, ram := m.ram.fillBytes phys pageSize 0 } _ _ _ _

end
/-! ### The rules -/

variable {ι : Type*} {valid : List ℕ → Prop} {m m' : PhysMemory} {roots : ι → Option ℕ}
  {reserved data kept : Set ℕ} {h₀ : ι}

namespace OwnedBy

section

variable (h : m.OwnedBy valid roots reserved data)

include h

theorem forget {reserved' data' : Set ℕ}
    (hreserved : reserved' ⊆ reserved) (hdata : data' ⊆ data) : m.OwnedBy valid roots reserved' data' :=
  ⟨h.sound, h.owns.forget hreserved hdata⟩

theorem reindex {κ : Type*} {σ : κ → ι}
    (hσ : Function.Injective σ) : m.OwnedBy valid (roots ∘ σ) reserved data :=
  ⟨h.sound, h.owns.reindex hσ⟩

/-- The heap and the counter of failures are not part of the account. -/
theorem congr (hram : m'.ram = m.ram) (hpmm : m'.pmm = m.pmm) :
    m'.OwnedBy valid roots reserved data := by
  refine ⟨by rw [hpmm]; exact h.sound, ?_⟩
  have hchild : m'.child = m.child := by
    funext t i
    rw [child, child, entry, entry, hram]
  rw [hchild, hpmm]
  exact h.owns

/-- Pages from the allocator become reserved. -/
theorem take {p : Pmm} {new : Set ℕ}
    (ht : m.pmm.Takes p new) : { m with pmm := p }.OwnedBy valid roots (new ∪ reserved) data :=
  ⟨ht.sound, h.owns.alloc ht.fresh ht.used_iff⟩

end

/-- A reserved page is given back. -/
theorem freePage {z : ℕ} (h : m.OwnedBy valid roots (insert z reserved) data) (hz : z ∉ reserved) :
    (m.freePage z).OwnedBy valid roots reserved data := by
  obtain ⟨page, rfl, hne, -⟩ := h.owns.used_of_reserved (Set.mem_insert z reserved)
  obtain ⟨hsound, hused⟩ := Pmm.freePage_used h.sound hne
  exact ⟨hsound, h.owns.release hz hused⟩

section

variable (h : m.OwnedBy valid roots reserved data)

include h

theorem allocTable (hok : m.allocTable.2.tableFailures = m.tableFailures) :
    m.allocTable.2.OwnedBy valid roots (insert m.allocTable.1 reserved) data ∧
      m.pmm.Takes m.allocTable.2.pmm {m.allocTable.1} := by
  have hne : m.pmm.allocPage.1 ≠ 0 := by
    intro hzero
    simp [PhysMemory.allocTable, hzero] at hok
  have ht := Pmm.allocPage_takes h.sound hne
  have hown := h.take ht
  rw [← Set.insert_eq] at hown
  exact ⟨hown.congr rfl rfl, ht⟩

theorem pageOf_eq {x a : ℕ} (hx : x ∈ reserved ∪ data)
    (ha : x ≤ a ∧ a < x + pageSize) : pageOf a = x := by
  have hused : m.pmm.Used x := hx.elim h.owns.used_of_reserved h.owns.used_of_data
  obtain ⟨page, rfl, -⟩ := hused
  unfold pageOf pageSize at *
  congr 1
  omega

/-- A reserved page has an address that fits an entry of a table. -/
theorem reserved_page {x : ℕ} (hx : x ∈ reserved) :
    ∃ page, x = page * pageSize ∧ page < 2 ^ 40 := by
  obtain ⟨page, rfl, -, hlt, -⟩ := h.owns.used_of_reserved hx
  exact ⟨page, rfl, hlt.trans_le h.sound.total_le⟩

theorem not_reserved_of_takes {p : Pmm} {new : Set ℕ}
    (ht : m.pmm.Takes p new) {x : ℕ} (hx : x ∈ new) : x ∉ reserved :=
  fun hmem => ht.fresh x hx (h.owns.used_of_reserved hmem)

end
variable [UserLayout valid]

section

variable (h : m.OwnedBy valid roots reserved data)

include h

/-- A change of reserved pages and data pages changes no table. -/
theorem child_eq (hram : ∀ a, m'.ram a ≠ m.ram a → pageOf a ∈ reserved ∪ data) {k : ι}
    {path : List ℕ} {t i : ℕ} (ht : Reaches valid m.child roots k path t)
    (hpath : valid (path ++ [i])) : m'.child t i = m.child t i := by
  obtain ⟨page, rfl, -⟩ := h.owns.used_of_reaches ht
  refine child_congr (UserLayout.last_lt hpath) fun a ha => ?_
  by_contra hne
  rcases hram a hne with hmem | hmem
  · exact h.owns.not_reaches (ha ▸ hmem) ht
  · exact h.owns.leaf_of_data (ha ▸ hmem) ht hpath

/-- Reserved pages and data pages can be written. -/
theorem write (hpmm : m'.pmm = m.pmm)
    (hram : ∀ a, m'.ram a ≠ m.ram a → pageOf a ∈ reserved ∪ data) :
    m'.OwnedBy valid roots reserved data := by
  refine ⟨by rw [hpmm]; exact h.sound, ?_⟩
  rw [hpmm]
  exact h.owns.congr UserLayout.of_concat (h.child_eq hram)

/-- The top-level table is neither reserved nor a data page. -/
theorem root_not_mem {pml4 : ℕ} (hroot : roots h₀ = some pml4) : pml4 ∉ reserved ∪ data := by
  have hreach : Reaches valid m.child roots h₀ [] pml4 := reaches_nil UserLayout.nil hroot
  rintro (hmem | hmem)
  · exact h.owns.not_reaches hmem hreach
  · exact h.owns.leaf_of_data hmem hreach (UserLayout.top (show 0 < 256 by decide))

theorem pageOf_root {pml4 a : ℕ} (hroot : roots h₀ = some pml4)
    (hle : pml4 ≤ a) (hlt : a < pml4 + pageSize) : pageOf a = pml4 := by
  obtain ⟨page, rfl, -⟩ := h.owns.used_of_reaches
    (show Reaches valid m.child roots h₀ [] pml4 from reaches_nil UserLayout.nil hroot)
  unfold pageOf pageSize at *
  congr 1
  omega

/-- Reserved pages that need not be kept, and data pages, are written. -/
theorem extends_write
    (hram : ∀ a, m'.ram a ≠ m.ram a → pageOf a ∈ reserved ∪ data ∧ pageOf a ∉ kept) :
    Extends roots kept m m' where
  kept a ha := by
    by_contra hne
    exact (hram a hne).2 ha
  upper k pml4 a hroot hle hlt := by
    by_contra hne
    have hpage := h.pageOf_root hroot (by omega) (show a < pml4 + pageSize from hlt)
    exact h.root_not_mem hroot (hpage ▸ (hram a hne).1)

end
/-! ### Tables -/

/-- The entries other than the one written, in the tables of the account. -/
theorem child_setEntry (h : m.OwnedBy valid roots reserved data) {t i : ℕ} {path : List ℕ}
    (ht : Reaches valid m.child roots h₀ path t) (hi : i < 512) (e : ℕ) {k : ι}
    {path' : List ℕ} {y j : ℕ} (hy : Reaches valid m.child roots k path' y)
    (hpath : valid (path' ++ [j])) (hne : y ≠ t ∨ j ≠ i) :
    (m.setEntry t i e).child y j = m.child y j := by
  obtain ⟨page, rfl, -⟩ := h.owns.used_of_reaches ht
  obtain ⟨page', rfl, -⟩ := h.owns.used_of_reaches hy
  exact m.child_setEntry_of_ne e hi (UserLayout.last_lt hpath) hne

omit [UserLayout valid] in
/-- Bytes outside a table of the account are not changed with its entries. -/
theorem setEntry_of_ne (h : m.OwnedBy valid roots reserved data) {t i : ℕ} {path : List ℕ}
    (ht : Reaches valid m.child roots h₀ path t) (hi : i < 512) (e : ℕ) {a : ℕ}
    (ha : pageOf a ≠ t) : (m.setEntry t i e).ram a = m.ram a := by
  obtain ⟨page, rfl, -⟩ := h.owns.used_of_reaches ht
  refine ByteMemory.writeWord_of_outside ?_
  unfold pageOf pageSize at *
  omega

/-- A reserved page that is empty, or is to be a leaf, is linked into a tree. -/
theorem link {t x i flags : ℕ} {path : List ℕ} (h : m.OwnedBy valid roots (insert x reserved) data)
    (hx : x ∉ reserved) (ht : Reaches valid m.child roots h₀ path t)
    (hpath : valid (path ++ [i])) (hflags : flags < pageSize) (hodd : flags % 2 = 1)
    (hempty : ∀ j, valid (path ++ [i] ++ [j]) → m.child x j = none) :
    (m.setEntry t i (x ||| flags)).OwnedBy valid roots reserved data ∧
      (∀ {k path' y}, Reaches valid (m.setEntry t i (x ||| flags)).child roots k path' y →
        Reaches valid m.child roots k path' y ∨ k = h₀ ∧ path' = path ++ [i] ∧ y = x) ∧
      (m.child t i = none → ∀ {k path' y}, Reaches valid m.child roots k path' y →
        Reaches valid (m.setEntry t i (x ||| flags)).child roots k path' y) ∧
      Reaches valid (m.setEntry t i (x ||| flags)).child roots h₀ (path ++ [i]) x ∧
      (m.setEntry t i (x ||| flags)).child t i = some x ∧
      ∀ kept ⊆ reserved, Extends roots kept m (m.setEntry t i (x ||| flags)) := by
  have hmem : x ∈ insert x reserved := Set.mem_insert x reserved
  have hxt : x ≠ t := fun heq => h.owns.not_reaches hmem (heq ▸ ht)
  obtain ⟨page, hpage, hlt⟩ := h.reserved_page hmem
  obtain ⟨hor, hmask, hpresent, hword⟩ := entry_parts hlt hflags
  have hentry : (m.setEntry t i (x ||| flags)).child t i = some x := by
    rw [hpage, hor, m.child_setEntry_self t i hword, hpresent, hmask]
    simp [hodd]
  have hsame : ∀ {k path' y j}, Reaches valid m.child roots k path' y →
      valid (path' ++ [j]) → y ≠ t ∨ j ≠ i →
      (m.setEntry t i (x ||| flags)).child y j = m.child y j :=
    fun hy hpath' hne => h.child_setEntry ht (UserLayout.last_lt hpath) _ hy hpath' hne
  have hbelow : ∀ j, valid (path ++ [i] ++ [j]) →
      (m.setEntry t i (x ||| flags)).child x j = none := by
    intro j hj
    obtain ⟨page', rfl, -⟩ := h.owns.used_of_reaches ht
    rw [← hempty j hj, hpage]
    rw [hpage] at hxt
    exact m.child_setEntry_of_ne _ (UserLayout.last_lt hpath) (UserLayout.last_lt hj) (Or.inl hxt)
  have hlink : ∀ {k path' y}, Reaches valid (m.setEntry t i (x ||| flags)).child roots k path' y →
      Reaches valid m.child roots k path' y ∨ k = h₀ ∧ path' = path ++ [i] ∧ y = x :=
    h.owns.reaches_link UserLayout.of_concat ht hentry hsame hbelow
  refine ⟨⟨h.sound, h.owns.link UserLayout.of_concat ht hentry hsame hbelow hx⟩, hlink,
    fun hvacant => Reaches.of_vacant UserLayout.of_concat hvacant hsame,
    (h.owns.reaches_of_short UserLayout.of_concat ht hsame ht le_rfl).concat hpath hentry, hentry,
    fun kept hkept => ⟨fun a ha => ?_, fun k pml4 a hroot hle hlt => ?_⟩⟩
  · refine h.setEntry_of_ne ht (UserLayout.last_lt hpath) _ fun heq => ?_
    exact h.owns.not_reaches (Or.inr (hkept (heq ▸ ha))) ht
  · by_cases htop : t = pml4
    · subst htop
      obtain ⟨-, rfl⟩ := h.owns.unique ht (reaches_nil UserLayout.nil hroot)
      have hlower : i < 256 := UserLayout.top_lt hpath
      exact ByteMemory.writeWord_of_outside (by omega)
    · refine h.setEntry_of_ne ht (UserLayout.last_lt hpath) _ fun heq => htop ?_
      rw [← heq]
      exact h.pageOf_root hroot (by omega) (show a < pml4 + pageSize from hlt)

section NewPage

variable {x : ℕ} {m₂ : PhysMemory} (h : m.OwnedBy valid roots reserved data)
  (htake : m.pmm.Takes m₂.pmm {x}) (hsame : ∀ a, m₂.ram a ≠ m.ram a → pageOf a = x)

include h htake hsame

/-- A new page is written: this changes no table. -/
theorem writeTaken : m₂.OwnedBy valid roots (insert x reserved) data ∧
    (∀ {k path y}, Reaches valid m₂.child roots k path y ↔ Reaches valid m.child roots k path y) ∧
    ∀ kept ⊆ reserved, Extends roots kept m m₂ := by
  have hnot := h.not_reserved_of_takes htake rfl
  have hown := h.take htake
  rw [← Set.insert_eq] at hown
  have hmem : x ∈ insert x reserved ∪ data := Or.inl (Set.mem_insert x reserved)
  have hram : ∀ a, m₂.ram a ≠ m.ram a → pageOf a ∈ insert x reserved ∪ data :=
    fun a ha => (hsame a ha).symm ▸ hmem
  refine ⟨hown.write rfl hram, Reaches.congr UserLayout.of_concat (hown.child_eq hram),
    fun kept hkept => ?_⟩
  have htaken : Extends roots kept m { m with pmm := m₂.pmm } := Extends.of_ram rfl
  exact htaken.trans (hown.extends_write fun a ha =>
    ⟨hram a ha, fun hmem' => hnot (hkept (hsame a ha ▸ hmem'))⟩)

theorem createTable {path : List ℕ} {parent index : ℕ}
    (hzero : ∀ off < pageSize, m₂.ram (x + off) = 0)
    (hparent : Reaches valid m.child roots h₀ path parent) (hpath : valid (path ++ [index]))
    (hvacant : m.child parent index = none) (hshort : path.length < 3) :
    (m₂.setEntry parent index (x ||| 7)).OwnedBy valid roots reserved data ∧
      Reaches valid (m₂.setEntry parent index (x ||| 7)).child roots h₀ (path ++ [index]) x ∧
      (m₂.setEntry parent index (x ||| 7)).child parent index = some x ∧
      GrowsBy valid roots h₀ m (m₂.setEntry parent index (x ||| 7)) ∧
      ∀ kept ⊆ reserved, Extends roots kept m (m₂.setEntry parent index (x ||| 7)) := by
  have hnot := h.not_reserved_of_takes htake rfl
  have hfresh : ¬ m.pmm.Used x := htake.fresh x rfl
  obtain ⟨hown₂, hreach₂, hextends₂⟩ := h.writeTaken htake hsame
  have hindex : index < 512 := UserLayout.last_lt hpath
  have hempty : ∀ j < 512, m₂.entry x j = 0 := fun j hj =>
    ByteMemory.readWord_eq_zero fun k hk => by
      rw [add_assoc]
      exact hzero _ (by unfold pageSize; omega)
  -- the entries of the tables that were there before
  have hentry₂ : ∀ {k path t}, Reaches valid m.child roots k path t → ∀ off < pageSize,
      m₂.ram (t + off) = m.ram (t + off) := by
    intro k path t ht off hoff
    by_contra hne
    obtain ⟨page, rfl, -⟩ := h.owns.used_of_reaches ht
    have hx := hsame _ hne
    rw [pageOf_add hoff] at hx
    exact hfresh (hx ▸ h.owns.used_of_reaches ht)
  have hother : ∀ {t}, t ≠ parent → (∃ page, t = page * pageSize) → ∀ off < pageSize,
      (m₂.setEntry parent index (x ||| 7)).ram (t + off) = m₂.ram (t + off) := by
    rintro t hne ⟨page, rfl⟩ off hoff
    refine hown₂.setEntry_of_ne (hreach₂.mpr hparent) hindex _ ?_
    rwa [pageOf_add hoff]
  obtain ⟨pagex, hpagex, hltx⟩ := hown₂.reserved_page (Set.mem_insert x reserved)
  have hxparent : x ≠ parent := fun heq => hfresh (heq ▸ h.owns.used_of_reaches hparent)
  obtain ⟨hown₃, hlink, hmono, hreach₃, hchild, hextends₃⟩ := hown₂.link hnot (hreach₂.mpr hparent)
    hpath (show 7 < pageSize by decide) (by decide) fun j hj => by
      rw [child, hempty j (UserLayout.last_lt hj)]
      rfl
  have hvacant₂ : m₂.child parent index = none := by
    rw [← hvacant, child, child, entry_eq_of_bytes hindex (hentry₂ hparent)]
  have hnone : ∀ j < 512, (m₂.setEntry parent index (x ||| 7)).entry x j = 0 := fun j hj => by
    rw [entry_eq_of_bytes hj (hother hxparent ⟨pagex, hpagex⟩), hempty j hj]
  refine ⟨hown₃, hreach₃, hchild, ⟨fun hy => hmono hvacant₂ (hreach₂.mpr hy), fun hy => ?_,
    fun {k path' t} hlen ht off hoff => ?_, fun {k path' t i} ht hlen hvalid => ?_, htake.total,
    fun hy => ?_, fun hy => ?_, fun {a} ha => ?_⟩,
    fun kept hkept => (hextends₂ kept hkept).trans (hextends₃ kept hkept)⟩
  · rcases hlink hy with hy | ⟨-, rfl, rfl⟩
    · exact Or.inl (hreach₂.mp hy)
    · exact Or.inr ⟨hfresh, by simpa using hshort, fun _ => hnone⟩
  · have hne : t ≠ parent := by
      rintro rfl
      obtain ⟨-, rfl⟩ := h.owns.unique ht hparent
      omega
    obtain ⟨page, hpage, -⟩ := h.owns.used_of_reaches ht
    rw [hother hne ⟨page, hpage⟩ off hoff, hentry₂ ht off hoff]
  · rcases hlink ht with ht | ⟨-, -, rfl⟩
    · have ht := hreach₂.mp ht
      obtain ⟨page, hpage, -⟩ := h.owns.used_of_reaches ht
      obtain ⟨pagep, hpagep, -⟩ := h.owns.used_of_reaches hparent
      by_cases hti : t = parent ∧ i = index
      · obtain ⟨rfl, rfl⟩ := hti
        obtain ⟨hor, -, -, hword⟩ := entry_parts hltx (show 7 < pageSize by decide)
        have hword : (m₂.setEntry t i (x ||| 7)).entry t i = x ||| 7 := by
          rw [hpagex, hor]
          exact ByteMemory.readWord_writeWord_self _ _ hword
        right
        rw [hword, hpagex, hor, and_pageHuge]
        unfold pageSize
        omega
      · left
        refine ⟨ht, ?_⟩
        rw [← entry_eq_of_bytes (UserLayout.last_lt hvalid) (hentry₂ ht), hpage, hpagep]
        rw [hpage, hpagep, not_and_or] at hti
        exact m₂.entry_setEntry_of_ne _ hindex (UserLayout.last_lt hvalid) hti
    · right
      rw [hnone i (UserLayout.last_lt hvalid)]
      rfl
  · exact (htake.used_iff _).mpr (Or.inl hy)
  · rcases (htake.used_iff _).mp hy with hy | rfl
    · exact Or.inl hy
    · exact Or.inr ⟨_, hreach₃⟩
  · by_cases hmid : (m₂.setEntry parent index (x ||| 7)).ram a = m₂.ram a
    · rw [hsame a (hmid ▸ ha)]
      exact (htake.used_iff x).mpr (Or.inr rfl)
    · have hpage : pageOf a = parent := by
        by_contra hne
        exact hmid (hown₂.setEntry_of_ne (hreach₂.mpr hparent) hindex _ hne)
      rw [hpage]
      exact (htake.used_iff parent).mpr (Or.inl (h.owns.used_of_reaches hparent))

end NewPage

theorem getOrCreate {path : List ℕ} {parent index : ℕ} (h : m.OwnedBy valid roots reserved data)
    (hparent : Reaches valid m.child roots h₀ path parent) (hpath : valid (path ++ [index]))
    (hshort : path.length < 3)
    (hok : (m.getOrCreate parent index).2.tableFailures = m.tableFailures) :
    (m.getOrCreate parent index).2.OwnedBy valid roots reserved data ∧
      Reaches valid (m.getOrCreate parent index).2.child roots h₀ (path ++ [index])
        (m.getOrCreate parent index).1 ∧
      GrowsBy valid roots h₀ m (m.getOrCreate parent index).2 ∧
      ∀ kept ⊆ reserved, Extends roots kept m (m.getOrCreate parent index).2 := by
  by_cases hpresent : present (m.entry parent index)
  · have heq : m.getOrCreate parent index = (m.entry parent index &&& pageAddrMask, m) := by
      simp [PhysMemory.getOrCreate, hpresent]
    rw [heq]
    exact ⟨h, hparent.concat hpath (by simp [child, hpresent]), GrowsBy.refl,
      fun _ _ => Extends.of_ram rfl⟩
  rcases halloc : m.allocTable with ⟨x, m₁⟩
  obtain ⟨m₂, hm₂⟩ : ∃ m₂, m₂ = { m₁ with ram := m₁.ram.fillBytes x pageSize 0 } := ⟨_, rfl⟩
  have hflags : x ||| pagePresent ||| pageWritable ||| pageUser = x ||| 7 := by
    rw [Nat.or_assoc, Nat.or_assoc]
    rfl
  have heq : m.getOrCreate parent index =
      ((m₂.setEntry parent index (x ||| 7)).entry parent index &&& pageAddrMask,
        m₂.setEntry parent index (x ||| 7)) := by
    simp [PhysMemory.getOrCreate, hpresent, halloc, hm₂, hflags]
  rw [heq] at hok ⊢
  dsimp only at hok ⊢
  have hok₁ : m₁.tableFailures = m.tableFailures := by
    rw [hm₂] at hok
    exact hok
  have hram₁ : m₁.ram = m.ram := by
    have := congrArg (fun r => r.2.ram) halloc
    exact this.symm
  obtain ⟨hown₁, htake⟩ := h.allocTable (by rw [halloc]; exact hok₁)
  rw [halloc] at hown₁ htake
  dsimp only at hown₁ htake
  have hsame : ∀ a, m₂.ram a ≠ m.ram a → pageOf a = x := by
    intro a ha
    refine hown₁.pageOf_eq (Or.inl (Set.mem_insert x reserved)) ?_
    by_contra hout
    rw [hm₂, ← hram₁] at ha
    exact ha (ByteMemory.fillBytes_of_outside (by omega))
  have hzero : ∀ off < pageSize, m₂.ram (x + off) = 0 := by
    intro off hoff
    rw [hm₂]
    simp only [ByteMemory.fillBytes]
    rw [if_pos (by omega)]
  have hvacant : m.child parent index = none := by simp [child, hpresent]
  obtain ⟨hown₃, hreach, hentry, hgrows, hextends⟩ := h.createTable
    (show m.pmm.Takes m₂.pmm {x} by rw [hm₂]; exact htake) hsame hzero hparent hpath hvacant hshort
  rw [entry_of_child hentry]
  exact ⟨hown₃, hreach, hgrows, hextends⟩

theorem walkCreate {pml4 virt : ℕ} (h : m.OwnedBy valid roots reserved data)
    (hroot : roots h₀ = some pml4) (hvirt : tableIndex virt 39 < 256)
    (hok : (m.walkCreate pml4 virt).2.tableFailures = m.tableFailures) :
    (m.walkCreate pml4 virt).2.OwnedBy valid roots reserved data ∧
      Reaches valid (m.walkCreate pml4 virt).2.child roots h₀
        [tableIndex virt 39, tableIndex virt 30, tableIndex virt 21]
        (m.walkCreate pml4 virt).1 ∧
      GrowsBy valid roots h₀ m (m.walkCreate pml4 virt).2 ∧
      ∀ kept ⊆ reserved, Extends roots kept m (m.walkCreate pml4 virt).2 := by
  have hpath₃ : valid ([tableIndex virt 39, tableIndex virt 30] ++ [tableIndex virt 21]) :=
    UserLayout.tables hvirt
  have hpath₂ : valid ([tableIndex virt 39] ++ [tableIndex virt 30]) := UserLayout.of_concat hpath₃
  have hpath₁ : valid ([] ++ [tableIndex virt 39]) := UserLayout.of_concat hpath₂
  rw [walkCreate_eq] at hok ⊢
  have hle₁ := m.tableFailures_le_getOrCreate pml4 (tableIndex virt 39)
  rcases hstep₁ : m.getOrCreate pml4 (tableIndex virt 39) with ⟨pdpt, m₁⟩
  rw [hstep₁] at hok hle₁
  dsimp only at hok hle₁ ⊢
  have hle₂ := m₁.tableFailures_le_getOrCreate pdpt (tableIndex virt 30)
  rcases hstep₂ : m₁.getOrCreate pdpt (tableIndex virt 30) with ⟨pd, m₂⟩
  rw [hstep₂] at hok hle₂
  dsimp only at hok hle₂ ⊢
  have hle₃ := m₂.tableFailures_le_getOrCreate pd (tableIndex virt 21)
  have hown₁ := h.getOrCreate (reaches_nil UserLayout.nil hroot) hpath₁ (by simp)
    (by rw [hstep₁]; dsimp only; omega)
  rw [hstep₁] at hown₁
  obtain ⟨hown₁, hreach₁, hgrow₁, hext₁⟩ := hown₁
  have hown₂ := hown₁.getOrCreate hreach₁ hpath₂ (by simp) (by rw [hstep₂]; dsimp only; omega)
  rw [hstep₂] at hown₂
  obtain ⟨hown₂, hreach₂, hgrow₂, hext₂⟩ := hown₂
  obtain ⟨hown₃, hreach₃, hgrow₃, hext₃⟩ := hown₂.getOrCreate hreach₂ hpath₃ (by simp)
    (by dsimp only; omega)
  exact ⟨hown₃, hreach₃, (hgrow₁.trans hgrow₂).trans hgrow₃, fun kept hkept =>
    ((hext₁ kept hkept).trans (hext₂ kept hkept)).trans (hext₃ kept hkept)⟩

/-! ### Address spaces -/

theorem newAddressSpace [DecidableEq ι] (h₀ : ι) (h : m.OwnedBy valid roots reserved data) (cr3 : ℕ)
    (hok : (m.newAddressSpace cr3).2.tableFailures = m.tableFailures) :
    (m.newAddressSpace cr3).2.OwnedBy valid
      (Function.update roots h₀ (some (m.newAddressSpace cr3).1)) reserved data ∧
      m.pmm.Takes (m.newAddressSpace cr3).2.pmm {(m.newAddressSpace cr3).1} ∧
      NewSpace m cr3 reserved (m.newAddressSpace cr3).1 (m.newAddressSpace cr3).2 := by
  obtain ⟨hown, htake⟩ := h.allocTable hok
  rcases halloc : m.allocTable with ⟨x, m₁⟩
  have hram₁ : m₁.ram = m.ram := by
    have := congrArg (fun r => r.2.ram) halloc
    exact this.symm
  rw [halloc] at hown htake
  dsimp only at hown htake
  obtain ⟨m₂, hm₂⟩ : ∃ m₂, m₂ = { m₁ with
      ram := (m₁.ram.fillBytes x 2048 0).copyBytes (x + 2048) (cr3 + 2048) 2048 } := ⟨_, rfl⟩
  have heq : m.newAddressSpace cr3 = (x, m₂) := by
    simp [PhysMemory.newAddressSpace, halloc, hm₂, tableEntries]
  have htake₂ : m.pmm.Takes m₂.pmm {x} := by
    rw [hm₂]
    exact htake
  have hsame : ∀ a, m₂.ram a ≠ m.ram a → pageOf a = x := by
    intro a ha
    refine hown.pageOf_eq (Or.inl (Set.mem_insert x reserved)) ?_
    by_contra hout
    refine ha ?_
    unfold pageSize at hout
    rw [hm₂, ← hram₁]
    dsimp only
    rw [ByteMemory.copyBytes_of_outside (by omega), ByteMemory.fillBytes_of_outside (by omega)]
  obtain ⟨hown₂, -⟩ := h.writeTaken htake₂ hsame
  have hnot := h.not_reserved_of_takes htake rfl
  have hlower : ∀ i < 256, m₂.entry x i = 0 := by
    intro i hlt
    refine ByteMemory.readWord_eq_zero fun k hk => ?_
    rw [hm₂]
    dsimp only
    rw [ByteMemory.copyBytes_of_outside (by omega)]
    simp only [ByteMemory.fillBytes]
    rw [if_pos (by omega)]
  rw [heq]
  refine ⟨⟨hown₂.sound, hown₂.owns.root UserLayout.of_concat hnot fun i hi =>
    child_eq_none (hlower i (UserLayout.top_lt hi))⟩, htake₂,
    ⟨hsame, fun a ha => ?_, hlower, fun hcr3 k hk => ?_⟩⟩
  · by_contra hne
    exact hnot (hsame a hne ▸ ha)
  · have hne : cr3 ≠ x := by
      rintro rfl
      exact htake.fresh _ rfl hcr3
    obtain ⟨page, rfl, -⟩ := hcr3
    obtain ⟨page', rfl, -⟩ := hown.reserved_page (Set.mem_insert x reserved)
    rw [hm₂]
    simp only [ByteMemory.copyBytes]
    rw [if_pos (by omega), ByteMemory.fillBytes_of_outside (by unfold pageSize at *; omega), hram₁,
      Nat.add_sub_cancel_left]

end OwnedBy

namespace Owned

variable {flags phys pml4 virt : ℕ}

theorem map_eq (h : m.Owned roots reserved data) (hphys : phys ∈ reserved) :
    m.map pml4 virt phys flags = (m.walkCreate pml4 virt).2.setEntry (m.walkCreate pml4 virt).1
      (tableIndex virt 12) (phys ||| flags) := by
  obtain ⟨page, hpage, hlt⟩ := h.reserved_page hphys
  have hmask : phys &&& pageAddrMask = phys := by
    have hparts := (entry_parts hlt (show 0 < pageSize by decide)).2.1
    rwa [Nat.add_zero, ← hpage] at hparts
  simp only [PhysMemory.map, hmask]

/-- A reserved page is mapped. -/
theorem map (h : m.Owned roots (insert phys reserved) data)
    (hphys : phys ∉ reserved) (hroot : roots h₀ = some pml4) (hvirt : tableIndex virt 39 < 256)
    (hflags : flags < pageSize) (hodd : flags % 2 = 1)
    (hok : (m.map pml4 virt phys flags).tableFailures = m.tableFailures) :
    (m.map pml4 virt phys flags).Owned roots reserved (insert phys data) := by
  obtain ⟨hown, hreach, -, -⟩ := h.walkCreate hroot hvirt hok
  have hleaf : ∀ j, ¬ UserPath ([tableIndex virt 39, tableIndex virt 30, tableIndex virt 21] ++
      [tableIndex virt 12] ++ [j]) := UserPath.not_concat rfl
  obtain ⟨hown', -, -, hreach', -, -⟩ := hown.link hphys hreach (userPath_of_virt hvirt) hflags
    hodd fun j hj => absurd hj (hleaf j)
  rw [h.map_eq (Set.mem_insert phys reserved)]
  exact ⟨hown'.sound, hown'.owns.leaf hreach' hleaf⟩

/-- The account of the tables is part of the account of all pages. -/
theorem tables (h : m.Owned roots reserved data) : m.OwnedBy TablePath roots reserved data := by
  have hreach : ∀ {k path x}, Reaches TablePath m.child roots k path x →
      Reaches UserPath m.child roots k path x := fun hx => ⟨hx.1.1, hx.2⟩
  exact ⟨h.sound,
    { unique := fun hx hx' => h.owns.unique (hreach hx) (hreach hx')
      used_of_reaches := fun hx => h.owns.used_of_reaches (hreach hx)
      used_of_reserved := h.owns.used_of_reserved
      not_reaches := fun hz _ _ hx => h.owns.not_reaches hz (hreach hx)
      used_of_data := h.owns.used_of_data
      leaf_of_data := fun hy _ _ _ hx hvalid => h.owns.leaf_of_data hy (hreach hx) hvalid.1
      disjoint := h.owns.disjoint }⟩

/-- What holds after a reserved page is mapped where nothing was mapped before. -/
structure MapsVacant (roots : ι → Option ℕ) (h₀ : ι) (reserved : Set ℕ) (virt phys : ℕ)
    (m m' : PhysMemory) : Prop where
  mono : ∀ {k path y}, Reaches UserPath m.child roots k path y →
    Reaches UserPath m'.child roots k path y
  mapped : Reaches UserPath m'.child roots h₀ (virtPath virt) phys
  kept : ∀ {a}, pageOf a ∈ insert phys reserved → m'.ram a = m.ram a
  bytes : ∀ {k path t}, path.length = 4 → Reaches UserPath m.child roots k path t →
    ∀ off < pageSize, m'.ram (t + off) = m.ram (t + off)
  total : m'.pmm.totalPages = m.pmm.totalPages
  used : ∀ {y}, m.pmm.Used y → m'.pmm.Used y
  covered : ∀ {y}, m'.pmm.Used y → m.pmm.Used y ∨ ∃ path, Reaches UserPath m'.child roots h₀ path y
  written : ∀ {a}, m'.ram a ≠ m.ram a → m'.pmm.Used (pageOf a)

theorem mapVacant (h : m.Owned roots (insert phys reserved) data)
    (hphys : phys ∉ reserved) (hroot : roots h₀ = some pml4) (hvirt : tableIndex virt 39 < 256)
    (hflags : flags < pageSize) (hodd : flags % 2 = 1)
    (hvacant : ∀ x, ¬ Reaches UserPath m.child roots h₀ (virtPath virt) x)
    (hok : (m.map pml4 virt phys flags).tableFailures = m.tableFailures) :
    MapsVacant roots h₀ reserved virt phys m (m.map pml4 virt phys flags) := by
  obtain ⟨hown, hreach, hgrows, hextends⟩ := h.walkCreate hroot hvirt hok
  rw [h.map_eq (Set.mem_insert phys reserved)]
  have hpath : UserPath ([tableIndex virt 39, tableIndex virt 30, tableIndex virt 21] ++
      [tableIndex virt 12]) := userPath_of_virt hvirt
  have hi := tableIndex_lt virt 12
  generalize (m.walkCreate pml4 virt).1 = pt at hreach ⊢
  generalize (m.walkCreate pml4 virt).2 = m₁ at hreach hown hgrows hextends ⊢
  have hnone : m₁.child pt (tableIndex virt 12) = none := by
    by_contra hsome
    obtain ⟨y, hy⟩ := Option.ne_none_iff_exists'.mp hsome
    rcases hgrows.new (hreach.concat hpath hy) with hy | ⟨-, hlen, -⟩
    · exact hvacant y hy
    · simp at hlen
  obtain ⟨-, -, hmono, hmapped, -, -⟩ := hown.link hphys hreach hpath hflags hodd
    fun j hj => absurd hj (UserPath.not_concat rfl j)
  have hother : ∀ {a}, pageOf a ≠ pt →
      (m₁.setEntry pt (tableIndex virt 12) (phys ||| flags)).ram a = m₁.ram a :=
    fun ha => hown.setEntry_of_ne hreach hi _ ha
  refine ⟨fun hy => hmono hnone (hgrows.mono hy), hmapped, fun {a} ha => ?_,
    fun {k path t} hlen ht off hoff => ?_, hgrows.total, hgrows.used, fun {y} hy => ?_,
    fun {a} ha => ?_⟩
  · rw [hother fun heq => hown.owns.not_reaches (heq ▸ ha) hreach, (hextends _ subset_rfl).kept a ha]
  · have hne : t ≠ pt := by
      rintro rfl
      obtain ⟨-, rfl⟩ := hown.owns.unique (hgrows.mono ht) hreach
      simp at hlen
    have hbytes := hgrows.bytes (by omega) ht off hoff
    obtain ⟨page, rfl, -⟩ := h.owns.used_of_reaches ht
    rw [hother (by rwa [pageOf_add hoff]), hbytes]
  · exact (hgrows.covered hy).imp_right fun ⟨path, hx⟩ => ⟨path, hmono hnone hx⟩
  · by_cases hpage : pageOf a = pt
    · rw [hpage]
      exact hown.owns.used_of_reaches hreach
    · exact hgrows.written (hother hpage ▸ ha)

theorem allocPage_zero (h : m.Owned roots reserved data) {p : Pmm}
    (halloc : m.pmm.allocPage = (0, p)) : p = m.pmm := by
  have := Pmm.allocPage_zero h.sound (by rw [halloc])
  rwa [halloc] at this

/-- A new page is written. -/
theorem writeNew {x : ℕ} {p : Pmm} {ram : ByteMemory} (h : m.Owned roots reserved data)
    (halloc : m.pmm.allocPage = (x, p)) (hx : x ≠ 0)
    (hram : ∀ a, a < x ∨ x + pageSize ≤ a → ram a = m.ram a) :
    { m with pmm := p, ram := ram }.Owned roots (insert x reserved) data := by
  have ht := Pmm.allocPage_takes h.sound (by rw [halloc]; exact hx)
  rw [halloc] at ht
  have hown := h.take ht
  have hwritten : ∀ a, ram a ≠ m.ram a → pageOf a = x := by
    intro a ha
    refine hown.pageOf_eq (Or.inl (Or.inl rfl)) ?_
    by_contra hout
    exact ha (hram a (by omega))
  have hnext : m.pmm.Takes { m with pmm := p, ram := ram }.pmm {x} := ht
  exact (h.writeTaken hnext hwritten).1

end Owned

/-! ### Walking over a tree -/

/-- What every call of the body keeps is kept by the whole loop. -/
theorem forPresent_rule {P : PhysMemory → Prop} {table : ℕ}
    {body : ℕ → ℕ → PhysMemory → Bool × PhysMemory} {is : List ℕ}
    (hbody : ∀ i ∈ is, ∀ m, P m → present (m.entry table i) → P (body i (m.entry table i) m).2)
    (h : P m) : P (forPresent table body is m).2 := by
  induction is generalizing m with
  | nil => exact h
  | cons i is ih =>
    have hrest : ∀ j ∈ is, ∀ m, P m → present (m.entry table j) →
        P (body j (m.entry table j) m).2 := fun j hj => hbody j (List.mem_cons_of_mem i hj)
    rw [forPresent]
    split
    · rename_i hpresent
      have hfirst := hbody i List.mem_cons_self m h hpresent
      rcases hcall : body i (m.entry table i) m with ⟨ok, m₁⟩
      rw [hcall] at hfirst
      cases ok with
      | false => exact hfirst
      | true => exact ih hrest hfirst
    · exact ih hrest h

/-! ### The kernel heap -/

/-- The kernel heap takes pages and does not give them back. -/
theorem OwnedBy.heapAlloc {valid : List ℕ → Prop} (h : m.OwnedBy valid roots reserved data)
    (size align : ℕ) (heap : Heap) :
    { m with heap := heap, pmm := (m.heap.alloc m.pmm size align).2.2 }.OwnedBy valid roots
      reserved data := by
  rcases m.heap.alloc_pmm m.pmm size align with heq | ⟨n, heq⟩
  · rw [heq]
    exact h.congr rfl rfl
  · rw [heq]
    by_cases hzero : (m.pmm.allocPages n).1 = 0
    · rw [Pmm.allocPages_zero h.sound hzero]
      exact h.congr rfl rfl
    · exact ((h.take (Pmm.allocPages_takes h.sound hzero)).forget Set.subset_union_right
        subset_rfl).congr rfl rfl

end PhysMemory

end AnssOS
