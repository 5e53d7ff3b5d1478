import AnssOS.Mm.PageOwnership

/-!
# Page tables refine a finite map

An address space is, abstractly, a finite map from the pages of the lower half to physical pages and
flags.  Here several address spaces are made by `new_address_space` and filled by `map`, in any order
and with any physical pages.  `lookup` then gives what the last call of `map` for the page gave; the
kernel half of each address space is that of the kernel, and the address spaces that were there
before are not touched.

The account is the one of `OwnedBy`, for the tables only: the pages that are mapped may be any, since
they are never read as tables.

### Outline

* the tables of the kernel;
* `lookup`, the walk of the processor through the four levels;
* `map` and `new_address_space`;
* sequences of calls.
-/

namespace AnssOS

open List Option Function

namespace PhysMemory

/-! ### The tables of the kernel -/

/-- The table that an entry leads to. -/
def tableChild (m : PhysMemory) (table index : ℕ) : Option ℕ :=
  if m.entry table index &&& pageHuge = 0 then m.child table index else none

/-- The table `t` is reached from the entries 256 to 511 of the top-level table `cr3`. -/
def KernelTable (m : PhysMemory) (cr3 t : ℕ) : Prop :=
  ∃ i path, 256 ≤ i ∧ i < 512 ∧ (∀ j ∈ path, j < 512) ∧ path.length ≤ 2 ∧
    walk m.tableChild cr3 (i :: path) = some t

/-- The allocator is sound, and counts the tables of the kernel as used. -/
structure KernelMapped (m : PhysMemory) (cr3 : ℕ) : Prop where
  sound : m.pmm.Sound
  top : m.pmm.Used cr3
  tables : ∀ t, m.KernelTable cr3 t → m.pmm.Used t

/-- The entries of the kernel's tables are those of `m`, and so is the upper half of `aspace`. -/
def KernelSame (m : PhysMemory) (cr3 aspace : ℕ) (m' : PhysMemory) : Prop :=
  (∀ t i, m.KernelTable cr3 t → i < 512 → m'.entry t i = m.entry t i) ∧
    ∀ i, 256 ≤ i → i < 512 → m'.entry aspace i = m.entry cr3 i

/-- The pages that the allocator counts as used. -/
def usedPages (m : PhysMemory) : Set ℕ := {x | m.pmm.Used x}

/-- One holder, with one address space. -/
def spaceRoots (aspace : ℕ) : Unit → Option ℕ := fun _ => some aspace

theorem owned_usedPages {ι : Type*} {valid : List ℕ → Prop} {m : PhysMemory} (h : m.pmm.Sound) :
    m.OwnedBy valid (fun _ : ι => none) m.usedPages ∅ where
  sound := h
  owns :=
    { unique := fun ⟨_, _, hr, _⟩ => by cases hr
      used_of_reaches := fun ⟨_, _, hr, _⟩ => by cases hr
      used_of_reserved := fun hz => hz
      not_reaches := fun _ _ _ ⟨_, _, hr, _⟩ => by cases hr
      used_of_data := fun hy => hy.elim
      leaf_of_data := fun hy => hy.elim
      disjoint := fun _ hy => hy }

/-! ### Looking up an address -/

/-- The walk of the processor: it ends at an entry that is not present, at one that maps memory
itself, and at the lowest level. -/
def lookupFrom (m : PhysMemory) : ℕ → List ℕ → Option ℕ
  | _, [] => none
  | t, [i] => if present (m.entry t i) then some (m.entry t i) else none
  | t, i :: j :: is =>
      if present (m.entry t i) then
        if m.entry t i &&& pageHuge = 0 then
          lookupFrom m (m.entry t i &&& pageAddrMask) (j :: is)
        else some (m.entry t i)
      else none

/-- The bits of an entry that are not part of the address. -/
def pageFlagMask : ℕ := 0xfff0000000000fff

theorem and_pageFlagMask {page flags : ℕ} (hpage : page < 2 ^ 40) (hflags : flags < pageSize) :
    (page * pageSize + flags) &&& pageFlagMask = flags := by
  have hmask : pageFlagMask = 2 ^ 52 * (2 ^ 12 - 1) + (2 ^ 12 - 1) := rfl
  have hsize : page * pageSize = 2 ^ 12 * page := mul_comm _ _
  have hlow : (2 ^ 12 - 1 : ℕ) < 2 ^ 52 := by decide
  apply Nat.eq_of_testBit_eq
  intro i
  rw [Nat.testBit_and, hmask, hsize, Nat.testBit_two_pow_mul_add _ hflags,
    Nat.testBit_two_pow_mul_add _ hlow, Nat.testBit_two_pow_sub_one, Nat.testBit_two_pow_sub_one]
  by_cases h12 : i < 12
  · simp [h12, show i < 52 by omega]
  · have hpow : 2 ^ 12 ≤ 2 ^ i := Nat.pow_le_pow_right (by decide) (not_lt.mp h12)
    have hhigh : flags.testBit i = false := Nat.testBit_lt_two_pow (hflags.trans_le hpow)
    by_cases h52 : i < 52
    · simp [h12, h52, hhigh]
    · have hpage : page.testBit (i - 12) = false :=
        Nat.testBit_lt_two_pow (hpage.trans_le (Nat.pow_le_pow_right (by decide) (by omega)))
      simp [h12, h52, hhigh, hpage]

/-- The physical address and the flags that an address is mapped with. -/
def lookup (m : PhysMemory) (pml4 virt : ℕ) : Option (ℕ × ℕ) :=
  (m.lookupFrom pml4 (virtPath virt)).map fun e => (e &&& pageAddrMask, e &&& pageFlagMask)

/-- A walk depends on the entries of the tables that it can come to. -/
theorem lookupFrom_congr {m m' : PhysMemory} {t : ℕ} {path : List ℕ} (hpath : ∀ i ∈ path, i < 512)
    (h : ∀ init t', init.length < path.length → (∀ i ∈ init, i < 512) →
      walk m.tableChild t init = some t' → ∀ i < 512, m'.entry t' i = m.entry t' i) :
    m'.lookupFrom t path = m.lookupFrom t path := by
  induction path generalizing t with
  | nil => rfl
  | cons i path ih =>
    obtain ⟨hi, hpath⟩ := forall_mem_cons.mp hpath
    have hentry : m'.entry t i = m.entry t i := h [] t (by simp) (by simp) rfl i hi
    cases path with
    | nil => rw [lookupFrom, lookupFrom, hentry]
    | cons j path =>
      rw [lookupFrom, lookupFrom, hentry]
      split
      · rename_i hpresent
        split
        · rename_i hhuge
          refine ih hpath fun init t' hlen hinit hwalk => h (i :: init) t' ?_ ?_ ?_
          · simpa using hlen
          · exact forall_mem_cons.mpr ⟨hi, hinit⟩
          · rw [walk_cons, tableChild, if_pos hhuge, child, if_pos hpresent]
            exact hwalk
        · rfl
      · rfl

theorem virtPath_lt (virt : ℕ) : ∀ i ∈ virtPath virt, i < 512 := by
  intro i hi
  simp only [virtPath, mem_cons, not_mem_nil, or_false] at hi
  rcases hi with rfl | rfl | rfl | rfl <;> exact tableIndex_lt _ _

theorem KernelSame.lookupFrom {m m' : PhysMemory} {cr3 aspace i : ℕ} {path : List ℕ}
    (h : KernelSame m cr3 aspace m') (hle : 256 ≤ i) (hlt : i < 512) (hpath : ∀ j ∈ path, j < 512)
    (hlen : path.length ≤ 3) : m'.lookupFrom aspace (i :: path) = m.lookupFrom cr3 (i :: path) := by
  have htop : m'.entry aspace i = m.entry cr3 i := h.2 i hle hlt
  cases path with
  | nil => rw [PhysMemory.lookupFrom, PhysMemory.lookupFrom, htop]
  | cons j path =>
    rw [PhysMemory.lookupFrom, PhysMemory.lookupFrom, htop]
    split
    · rename_i hpresent
      split
      · rename_i hhuge
        refine lookupFrom_congr hpath fun init t' hshort hinit hwalk k hk => h.1 t' k ?_ hk
        refine ⟨i, init, hle, hlt, hinit, by omega, ?_⟩
        rw [walk_cons, tableChild, if_pos hhuge, child, if_pos hpresent]
        exact hwalk
      · rfl
    · rfl

/-- In the kernel half every address space gives what the kernel's gives. -/
theorem KernelSame.lookup {m m' : PhysMemory} {cr3 aspace : ℕ} (h : KernelSame m cr3 aspace m')
    {virt : ℕ} (hvirt : 256 ≤ tableIndex virt 39) :
    m'.lookup aspace virt = m.lookup cr3 virt := by
  obtain ⟨htop, hrest⟩ := forall_mem_cons.mp (virtPath_lt virt)
  rw [PhysMemory.lookup, PhysMemory.lookup, virtPath, h.lookupFrom hvirt htop hrest le_rfl]

/-! ### The user half -/

/-- The indices that lead to the lowest table. -/
def tablePath (virt : ℕ) : List ℕ := [tableIndex virt 39, tableIndex virt 30, tableIndex virt 21]

/-- The entry of an address in the lowest table, if it is present. -/
def leafEntry (m : PhysMemory) (virt t : ℕ) : Option ℕ :=
  if present (m.entry t (tableIndex virt 12)) then some (m.entry t (tableIndex virt 12)) else none

section

variable {ι : Type*} {m m' : PhysMemory} {roots : ι → Option ℕ} {reserved data : Set ℕ} {h₀ k : ι}
  {pml4 virt : ℕ}

/-- The entries that lead to tables do not map memory themselves. -/
def NoHuge (m : PhysMemory) (roots : ι → Option ℕ) : Prop :=
  ∀ k path t i, Reaches TablePath m.child roots k path t → TablePath (path ++ [i]) →
    m.entry t i &&& pageHuge = 0

theorem tablePath_valid (hvirt : virt < 2 ^ 47) : TablePath (tablePath virt) :=
  UserLayout.tables (by rw [tableIndex_eq]; omega)

/-- In the user half the walk comes to the lowest table, or to an entry that is not present. -/
theorem NoHuge.lookupFrom (h : NoHuge m roots) (hroot : roots k = some pml4) (hvirt : virt < 2 ^ 47) :
    m.lookupFrom pml4 (virtPath virt) =
      (walk m.child pml4 (tablePath virt)).bind (m.leafEntry virt) := by
  have hpath₃ : TablePath ([tableIndex virt 39, tableIndex virt 30] ++ [tableIndex virt 21]) :=
    tablePath_valid hvirt
  have hpath₂ : TablePath ([tableIndex virt 39] ++ [tableIndex virt 30]) := UserLayout.of_concat hpath₃
  have hpath₁ : TablePath ([] ++ [tableIndex virt 39]) := UserLayout.of_concat hpath₂
  have hreach : Reaches TablePath m.child roots k [] pml4 := reaches_nil UserLayout.nil hroot
  -- one level of the walk
  have hlevel : ∀ {path t i}, Reaches TablePath m.child roots k path t → TablePath (path ++ [i]) →
      ∀ j is, m.lookupFrom t (i :: j :: is) = (m.child t i).bind fun t' => m.lookupFrom t' (j :: is) := by
    intro path t i ht hvalid j is
    rw [PhysMemory.lookupFrom, if_pos (h _ _ _ _ ht hvalid), child]
    split <;> rfl
  rw [virtPath, tablePath, hlevel hreach hpath₁, walk_cons, bind_assoc]
  refine Option.bind_congr fun t₁ ht₁ => ?_
  have hreach₁ := hreach.concat hpath₁ ht₁
  rw [hlevel hreach₁ hpath₂, walk_cons, bind_assoc]
  refine Option.bind_congr fun t₂ ht₂ => ?_
  have hreach₂ := hreach₁.concat hpath₂ ht₂
  rw [hlevel hreach₂ hpath₃, walk_cons, bind_assoc]
  refine Option.bind_congr fun t₃ ht₃ => ?_
  rfl

/-- What an address is mapped to, in terms of the tables of the account. -/
theorem NoHuge.lookupFrom_eq_some (h : NoHuge m roots) (hroot : roots k = some pml4)
    (hvirt : virt < 2 ^ 47) {e : ℕ} : m.lookupFrom pml4 (virtPath virt) = some e ↔
      ∃ t, Reaches TablePath m.child roots k (tablePath virt) t ∧ m.leafEntry virt t = some e := by
  rw [h.lookupFrom hroot hvirt, bind_eq_some_iff]
  refine exists_congr fun t => and_congr_left fun _ => ⟨fun hwalk => ?_, ?_⟩
  · exact ⟨tablePath_valid hvirt, pml4, hroot, hwalk⟩
  · rintro ⟨-, r, hr, hwalk⟩
    rwa [some.inj (hroot.symm.trans hr)]

theorem leafEntry_congr {t : ℕ}
    (h : m'.entry t (tableIndex virt 12) = m.entry t (tableIndex virt 12)) :
    m'.leafEntry virt t = m.leafEntry virt t := by
  rw [leafEntry, leafEntry, h]

theorem GrowsBy.noHuge (h : GrowsBy TablePath roots h₀ m m') (hm : NoHuge m roots) :
    NoHuge m' roots := by
  intro k path t i ht hvalid
  have hlen : path.length < 3 := by
    have := hvalid.2
    rw [length_append, length_singleton] at this
    omega
  rcases h.flags ht hlen hvalid with ⟨ht, heq⟩ | hflag
  · rw [heq]
    exact hm _ _ _ _ ht hvalid
  · exact hflag

/-- New tables map nothing. -/
theorem GrowsBy.lookupFrom (h : GrowsBy TablePath roots h₀ m m') (hm : NoHuge m roots)
    (hroot : roots k = some pml4) (hvirt : virt < 2 ^ 47) :
    m'.lookupFrom pml4 (virtPath virt) = m.lookupFrom pml4 (virtPath virt) := by
  have hindex := tableIndex_lt virt 12
  refine Option.ext fun e => ?_
  rw [(h.noHuge hm).lookupFrom_eq_some hroot hvirt, hm.lookupFrom_eq_some hroot hvirt]
  constructor
  · rintro ⟨t, ht, hentry⟩
    rcases h.new ht with ht | ⟨-, -, hempty⟩
    · rw [leafEntry_congr (entry_eq_of_bytes hindex (h.bytes le_rfl ht))] at hentry
      exact ⟨t, ht, hentry⟩
    · rw [leafEntry, hempty rfl _ hindex] at hentry
      cases hentry
  · rintro ⟨t, ht, hentry⟩
    refine ⟨t, h.mono ht, ?_⟩
    rwa [leafEntry_congr (entry_eq_of_bytes hindex (h.bytes le_rfl ht))]

/-- If the tables stay as they are, so does what is mapped. -/
theorem NoHuge.of_bytes (h : NoHuge m roots)
    (hsame : ∀ k path t, Reaches TablePath m.child roots k path t → ∀ off < pageSize,
      m'.ram (t + off) = m.ram (t + off)) :
    NoHuge m' roots ∧ ∀ k pml4 virt, roots k = some pml4 → virt < 2 ^ 47 →
      m'.lookupFrom pml4 (virtPath virt) = m.lookupFrom pml4 (virtPath virt) := by
  have hreach : ∀ {k path t}, Reaches TablePath m'.child roots k path t ↔
      Reaches TablePath m.child roots k path t := by
    refine Reaches.congr UserLayout.of_concat fun {k path t i} ht hvalid => ?_
    rw [child, child, entry_eq_of_bytes (UserLayout.last_lt hvalid) (hsame k path t ht)]
  have hno : NoHuge m' roots := by
    intro k path t i ht hvalid
    have ht := hreach.mp ht
    rw [entry_eq_of_bytes (UserLayout.last_lt hvalid) (hsame k path t ht)]
    exact h _ _ _ _ ht hvalid
  refine ⟨hno, fun k pml4 virt hroot hvirt => Option.ext fun e => ?_⟩
  rw [hno.lookupFrom_eq_some hroot hvirt, h.lookupFrom_eq_some hroot hvirt]
  refine exists_congr fun t => ?_
  rw [hreach]
  refine and_congr_right fun ht => ?_
  rw [leafEntry_congr (entry_eq_of_bytes (tableIndex_lt virt 12) (hsame _ _ t ht))]

section SetLeaf

variable (h : m.OwnedBy TablePath roots reserved data) {t i : ℕ} (e : ℕ) {path : List ℕ}
  (ht : Reaches TablePath m.child roots h₀ path t) (hlen : path.length = 3) (hi : i < 512)

include h ht hlen

/-- A table that leads to tables is not one of the lowest level. -/
theorem OwnedBy.ne_of_lowest {k : ι} {path' : List ℕ} {y j : ℕ}
    (hy : Reaches TablePath m.child roots k path' y) (hpath : TablePath (path' ++ [j])) : y ≠ t := by
  rintro rfl
  obtain ⟨-, rfl⟩ := h.owns.unique hy ht
  have := hpath.2
  rw [length_append, hlen] at this
  simp at this

include hi

/-- An entry of a lowest table is written: this changes no path to a table. -/
theorem OwnedBy.child_setLeaf {k : ι} {path' : List ℕ} {y j : ℕ}
    (hy : Reaches TablePath m.child roots k path' y) (hpath : TablePath (path' ++ [j])) :
    (m.setEntry t i e).child y j = m.child y j :=
  h.child_setEntry ht hi e hy hpath (Or.inl (h.ne_of_lowest ht hlen hy hpath))

theorem OwnedBy.reaches_setLeaf {k : ι} {path' : List ℕ} {y : ℕ} :
    Reaches TablePath (m.setEntry t i e).child roots k path' y ↔
      Reaches TablePath m.child roots k path' y :=
  Reaches.congr UserLayout.of_concat (h.child_setLeaf e ht hlen hi)

theorem OwnedBy.setLeaf : (m.setEntry t i e).OwnedBy TablePath roots reserved data :=
  ⟨h.sound, h.owns.congr UserLayout.of_concat (h.child_setLeaf e ht hlen hi)⟩

theorem OwnedBy.noHuge_setLeaf (hm : NoHuge m roots) : NoHuge (m.setEntry t i e) roots := by
  intro k path' y j hy hpath
  have hy := (h.reaches_setLeaf e ht hlen hi).mp hy
  have hne := h.ne_of_lowest ht hlen hy hpath
  have hflag := hm _ _ _ _ hy hpath
  obtain ⟨page, rfl, -⟩ := h.owns.used_of_reaches hy
  obtain ⟨page', rfl, -⟩ := h.owns.used_of_reaches ht
  rwa [m.entry_setEntry_of_ne e hi (UserLayout.last_lt hpath) (Or.inl hne)]

theorem OwnedBy.extends_setLeaf : ∀ kept ⊆ reserved,
    Extends roots kept m (m.setEntry t i e) := by
  refine fun kept hkept => ⟨fun a ha => ?_, fun k pml4 a hroot hle hlt => ?_⟩
  · refine h.setEntry_of_ne ht hi e fun heq => ?_
    exact h.owns.not_reaches (hkept (heq ▸ ha)) ht
  · refine h.setEntry_of_ne ht hi e fun heq => ?_
    rw [h.pageOf_root hroot (by omega) (show a < pml4 + pageSize from hlt)] at heq
    obtain ⟨-, rfl⟩ := h.owns.unique ht (reaches_nil UserLayout.nil (heq ▸ hroot))
    cases hlen

end SetLeaf

theorem tablePath_eq_iff {virt' : ℕ} (hvirt : virt < 2 ^ 47) (hvirt' : virt' < 2 ^ 47) :
    (tablePath virt' = tablePath virt ∧ tableIndex virt' 12 = tableIndex virt 12) ↔
      virt' / pageSize = virt / pageSize := by
  simp only [tablePath, tableIndex_eq, List.cons.injEq, and_true, pageSize]
  omega

/-- What `map` does to the maps: the page gets the new entry, everything else stays. -/
theorem OwnedBy.map {phys flags : ℕ} (h : m.OwnedBy TablePath roots reserved data)
    (hm : NoHuge m roots) (hroot : roots h₀ = some pml4) (hvirt : virt < 2 ^ 47)
    (hphys : phys % pageSize = 0 ∧ phys < 2 ^ 52) (hflags : flags < pageSize) (hodd : flags % 2 = 1)
    (hok : (m.map pml4 virt phys flags).tableFailures = m.tableFailures) :
    (m.map pml4 virt phys flags).OwnedBy TablePath roots reserved data ∧
      NoHuge (m.map pml4 virt phys flags) roots ∧
      (∀ kept ⊆ reserved, Extends roots kept m (m.map pml4 virt phys flags)) ∧
      ∀ k pml4' virt', roots k = some pml4' → virt' < 2 ^ 47 →
        ((k = h₀ ∧ virt' / pageSize = virt / pageSize) →
          (m.map pml4 virt phys flags).lookup pml4' virt' = some (phys, flags)) ∧
        (¬ (k = h₀ ∧ virt' / pageSize = virt / pageSize) →
          (m.map pml4 virt phys flags).lookup pml4' virt' = m.lookup pml4' virt') := by
  have hhalf : tableIndex virt 39 < 256 := by
    rw [tableIndex_eq]
    omega
  obtain ⟨page, rfl⟩ : ∃ page, phys = page * pageSize := ⟨phys / pageSize, by
    rw [Nat.div_mul_cancel (Nat.dvd_of_mod_eq_zero hphys.1)]⟩
  have hlt : page < 2 ^ 40 := by
    unfold pageSize at hphys
    omega
  obtain ⟨hown, hreach, hgrows, hextends⟩ := h.walkCreate hroot hhalf hok
  obtain ⟨hor, hmask, hpresent, hword⟩ := entry_parts hlt hflags
  have hmask₀ := (entry_parts hlt (show 0 < pageSize by decide)).2.1
  rw [Nat.add_zero] at hmask₀
  have heq : m.map pml4 virt (page * pageSize) flags = (m.walkCreate pml4 virt).2.setEntry
      (m.walkCreate pml4 virt).1 (tableIndex virt 12) (page * pageSize + flags) := by
    simp only [PhysMemory.map, hmask₀, hor]
  have hi := tableIndex_lt virt 12
  rw [heq]
  generalize (m.walkCreate pml4 virt).1 = pt at hreach ⊢
  generalize (m.walkCreate pml4 virt).2 = m₁ at hreach hown hgrows hextends ⊢
  have hm₁ := hgrows.noHuge hm
  have hm₂ := hown.noHuge_setLeaf (page * pageSize + flags) hreach rfl hi hm₁
  refine ⟨hown.setLeaf _ hreach rfl hi, hm₂, fun kept hkept =>
    (hextends kept hkept).trans (hown.extends_setLeaf _ hreach rfl hi kept hkept),
    fun k pml4' virt' hroot' hvirt' => ⟨?_, fun hother => ?_⟩⟩
  · rintro ⟨rfl, hpage⟩
    obtain ⟨htable, hindex⟩ := (tablePath_eq_iff hvirt hvirt').mpr hpage
    have hfrom : (m₁.setEntry pt (tableIndex virt 12) (page * pageSize + flags)).lookupFrom pml4'
        (virtPath virt') = some (page * pageSize + flags) := by
      refine (hm₂.lookupFrom_eq_some hroot' hvirt').mpr ⟨pt, ?_, ?_⟩
      · rw [htable]
        exact (hown.reaches_setLeaf _ hreach rfl hi).mpr hreach
      · have hentry : (m₁.setEntry pt (tableIndex virt 12) (page * pageSize + flags)).entry pt
            (tableIndex virt 12) = page * pageSize + flags :=
          ByteMemory.readWord_writeWord_self _ _ hword
        rw [leafEntry, hindex, hentry, hpresent]
        simp [hodd]
    rw [PhysMemory.lookup, hfrom, map_some, hmask, and_pageFlagMask hlt hflags]
  · have hfrom : (m₁.setEntry pt (tableIndex virt 12) (page * pageSize + flags)).lookupFrom pml4'
        (virtPath virt') = m₁.lookupFrom pml4' (virtPath virt') := by
      refine Option.ext fun e => ?_
      rw [hm₂.lookupFrom_eq_some hroot' hvirt', hm₁.lookupFrom_eq_some hroot' hvirt']
      refine exists_congr fun t => ?_
      rw [hown.reaches_setLeaf _ hreach rfl hi]
      refine and_congr_right fun ht => ?_
      rw [leafEntry_congr]
      have hne : t ≠ pt ∨ tableIndex virt' 12 ≠ tableIndex virt 12 := by
        by_contra hsame
        push Not at hsame
        obtain ⟨rfl, hindex⟩ := hsame
        obtain ⟨rfl, htable⟩ := hown.owns.unique ht hreach
        exact hother ⟨rfl, (tablePath_eq_iff hvirt hvirt').mp ⟨htable, hindex⟩⟩
      obtain ⟨page₁, rfl, -⟩ := hown.owns.used_of_reaches ht
      obtain ⟨page₂, rfl, -⟩ := hown.owns.used_of_reaches hreach
      exact m₁.entry_setEntry_of_ne _ hi (tableIndex_lt _ _) hne
    rw [PhysMemory.lookup, PhysMemory.lookup, hfrom, hgrows.lookupFrom hm hroot' hvirt']

end

/-! ### Sequences of calls -/

/-- The address spaces made so far, by their top-level tables. -/
structure Spaces where
  mem : PhysMemory
  spaces : List ℕ

def Spaces.roots (s : Spaces) (k : ℕ) : Option ℕ := s.spaces[k]?

/-- The calls: a new address space is made while the kernel's own address space, or one of those
already made, is active; and a page is mapped in one of them. -/
inductive SpaceCall
  | newAddressSpace (active : Option ℕ)
  | map (space virt phys flags : ℕ)

/-- The calls are for pages of the lower half and for physical pages, with flags in the low bits. -/
def SpaceCall.Valid : SpaceCall → Prop
  | .newAddressSpace _ => True
  | .map _ virt phys flags => virt % pageSize = 0 ∧ virt < 2 ^ 47 ∧ phys % pageSize = 0 ∧
      phys < 2 ^ 52 ∧ flags < pageSize ∧ flags % 2 = 1

/-- The active address space, if it is none of those made so far, is that of the kernel. -/
def Spaces.cr3 (s : Spaces) (kernel : ℕ) (active : Option ℕ) : ℕ :=
  (active.bind s.roots).getD kernel

def Spaces.call (kernel : ℕ) (s : Spaces) : SpaceCall → Spaces
  | .newAddressSpace active =>
      match s.mem.newAddressSpace (s.cr3 kernel active) with
      | (pml4, m) => ⟨m, s.spaces ++ [pml4]⟩
  | .map space virt phys flags =>
      match s.roots space with
      | none => s
      | some pml4 => { s with mem := s.mem.map pml4 virt phys flags }

/-- The abstract address space: what each page of the lower half is mapped to. -/
abbrev AddressMap : Type := ℕ → Option (ℕ × ℕ)

def AddressMap.empty : AddressMap := fun _ => none

/-- The calls, for abstract address spaces. -/
def SpaceCall.apply (maps : List AddressMap) : SpaceCall → List AddressMap
  | .newAddressSpace _ => maps ++ [AddressMap.empty]
  | .map space virt phys flags =>
      maps.modify space fun f => Function.update f (virt / pageSize) (some (phys, flags))

/-- The tables agree with the abstract address spaces, the kernel half of each address space is that
of `kernel` in `m`, and the pages that were in use in `m` are as they were. -/
structure SpacesOk (m : PhysMemory) (kernel : ℕ) (s : Spaces) (maps : List AddressMap) : Prop where
  own : s.mem.OwnedBy TablePath (s.roots) m.usedPages ∅
  noHuge : NoHuge s.mem s.roots
  kept : ∀ a, pageOf a ∈ m.usedPages → s.mem.ram a = m.ram a
  upper : ∀ k pml4, s.roots k = some pml4 → ∀ i, 256 ≤ i → i < 512 →
    s.mem.entry pml4 i = m.entry kernel i
  length : maps.length = s.spaces.length
  agree : ∀ k pml4 f, s.roots k = some pml4 → maps[k]? = some f → ∀ virt < 2 ^ 47,
    s.mem.lookup pml4 virt = f (virt / pageSize)

section

variable {m : PhysMemory} {kernel : ℕ} {s : Spaces} {maps : List AddressMap}

theorem SpacesOk.map (h : SpacesOk m kernel s maps) {space virt phys flags : ℕ}
    (hvalid : (SpaceCall.map space virt phys flags).Valid)
    (hok : (s.call kernel (.map space virt phys flags)).mem.tableFailures = s.mem.tableFailures) :
    SpacesOk m kernel (s.call kernel (.map space virt phys flags))
      ((SpaceCall.map space virt phys flags).apply maps) := by
  obtain ⟨-, hvirt, haligned, hphys, hflags, hodd⟩ := hvalid
  cases hspace : s.roots space with
  | none =>
    have hlen : maps.length ≤ space := h.length ▸ List.getElem?_eq_none_iff.mp hspace
    simpa [Spaces.call, hspace, SpaceCall.apply, modify_eq_self hlen] using h
  | some pml4 =>
    simp only [Spaces.call, hspace] at hok ⊢
    obtain ⟨hown, hno, hextends, hlookup⟩ := h.own.map h.noHuge hspace hvirt ⟨haligned, hphys⟩ hflags
      hodd hok
    have hkept := hextends m.usedPages subset_rfl
    refine ⟨hown, hno, fun a ha => (hkept.kept a ha).trans (h.kept a ha),
      fun k pml4' hk i hle hlt => (hkept.entry_upper hk hle hlt).trans (h.upper k pml4' hk i hle hlt),
      by simpa [SpaceCall.apply] using h.length, fun k pml4' f hk hf virt' hvirt' => ?_⟩
    obtain ⟨hsame, hother⟩ := hlookup k pml4' virt' hk hvirt'
    simp only [SpaceCall.apply, getElem?_modify] at hf
    obtain ⟨g, hg, rfl⟩ := map_eq_some_iff.mp hf
    have hold := h.agree k pml4' g hk hg virt' hvirt'
    by_cases hpage : k = space ∧ virt' / pageSize = virt / pageSize
    · rw [hsame hpage, if_pos hpage.1.symm, hpage.2, update_self]
    · rw [hother hpage, hold]
      split
      · rename_i hk
        rw [update_of_ne fun heq => hpage ⟨hk.symm, heq⟩]
      · rfl

theorem getElem?_concat {α : Type*} (l : List α) (x : α) :
    (fun k : ℕ => (l ++ [x])[k]?) = Function.update (fun k => l[k]?) l.length (some x) := by
  funext k
  rcases lt_trichotomy k l.length with hlt | rfl | hgt
  · rw [update_of_ne hlt.ne, getElem?_append_left hlt]
  · simp
  · rw [update_of_ne hgt.ne']
    simp [getElem?_append_right hgt.le, hgt.le]
    omega

/-- A new address space names nothing but its top-level table. -/
theorem reaches_of_lower_empty {ι : Type*} {roots : ι → Option ℕ} {k : ι} {x t : ℕ} {path : List ℕ}
    (h : ∀ i < 256, m.entry x i = 0) (hroot : roots k = some x)
    (ht : Reaches UserPath m.child roots k path t) : path = [] ∧ t = x := by
  obtain ⟨hpath, r, hr, hwalk⟩ := ht
  rw [hroot] at hr
  obtain rfl := some.inj hr
  cases path with
  | nil => exact ⟨rfl, (some.inj hwalk).symm⟩
  | cons j path =>
    have hj : j < 256 := hpath.2.2 j rfl
    rw [walk_cons, child_eq_none (h j hj)] at hwalk
    cases hwalk

theorem noHuge_of_lower_empty {ι : Type*} {roots : ι → Option ℕ} {k : ι} {x t i : ℕ}
    {path : List ℕ} (h : ∀ i < 256, m.entry x i = 0) (hroot : roots k = some x)
    (ht : Reaches TablePath m.child roots k path t) (hvalid : TablePath (path ++ [i])) :
    m.entry t i &&& pageHuge = 0 := by
  obtain ⟨rfl, rfl⟩ := reaches_of_lower_empty h hroot ⟨ht.1.1, ht.2⟩
  rw [h i (UserLayout.top_lt hvalid)]
  rfl

/-- The new address space maps nothing in the lower half. -/
theorem lookup_of_lower_empty {x virt : ℕ} (h : ∀ i < 256, m.entry x i = 0) (hvirt : virt < 2 ^ 47) :
    m.lookup x virt = none := by
  have htop : tableIndex virt 39 < 256 := by
    rw [tableIndex_eq]
    omega
  rw [lookup, virtPath, lookupFrom, h _ htop]
  rfl

theorem SpacesOk.newAddressSpace (h : SpacesOk m kernel s maps) (hm : m.KernelMapped kernel)
    {active : Option ℕ}
    (hok : (s.call kernel (.newAddressSpace active)).mem.tableFailures = s.mem.tableFailures) :
    SpacesOk m kernel (s.call kernel (.newAddressSpace active))
      ((SpaceCall.newAddressSpace active).apply maps) := by
  -- the active address space has the kernel half of the kernel
  obtain ⟨hcr3, hhalf⟩ : s.mem.pmm.Used (s.cr3 kernel active) ∧ ∀ i, 256 ≤ i → i < 512 →
      s.mem.entry (s.cr3 kernel active) i = m.entry kernel i := by
    cases hactive : active.bind s.roots with
    | none =>
      have hkernel : kernel ∈ m.usedPages := hm.top
      simp only [Spaces.cr3, hactive, getD_none]
      refine ⟨h.own.owns.used_of_reserved hkernel, fun i _ hi => ?_⟩
      obtain ⟨page, rfl, -⟩ := hm.top
      exact entry_congr hi fun a ha => h.kept a (ha ▸ hkernel)
    | some pml4 =>
      obtain ⟨k, -, hk⟩ := bind_eq_some_iff.mp hactive
      simp only [Spaces.cr3, hactive, getD_some]
      exact ⟨h.own.owns.used_of_reaches (reaches_nil UserLayout.nil hk), h.upper k pml4 hk⟩
  generalize hcr3eq : s.cr3 kernel active = cr3 at hcr3 hhalf
  rcases hnew : s.mem.newAddressSpace cr3 with ⟨x, m'⟩
  have hcall : s.call kernel (.newAddressSpace active) = ⟨m', s.spaces ++ [x]⟩ := by
    rw [Spaces.call, hcr3eq, hnew]
  rw [hcall] at hok ⊢
  have hresult := h.own.newAddressSpace s.spaces.length cr3 (by rw [hnew]; exact hok)
  rw [hnew] at hresult
  obtain ⟨hown, htake, hspace⟩ := hresult
  dsimp only at hown htake hspace
  have hroots : Spaces.roots ⟨m', s.spaces ++ [x]⟩ =
      Function.update s.roots s.spaces.length (some x) := getElem?_concat _ _
  have hsame : ∀ k path t, Reaches TablePath s.mem.child s.roots k path t → ∀ off < pageSize,
      m'.ram (t + off) = s.mem.ram (t + off) := by
    intro k path t ht off hoff
    by_contra hne
    have hx := hspace.same _ hne
    obtain ⟨page, rfl, -⟩ := h.own.owns.used_of_reaches ht
    rw [pageOf_add hoff] at hx
    exact htake.fresh x rfl (hx ▸ h.own.owns.used_of_reaches ht)
  obtain ⟨hno, hlookup⟩ := h.noHuge.of_bytes hsame
  -- an address space is the new one, or one of those that were there before
  have hcases : ∀ {k pml4}, Spaces.roots ⟨m', s.spaces ++ [x]⟩ k = some pml4 →
      k = s.spaces.length ∧ pml4 = x ∨ k ≠ s.spaces.length ∧ s.roots k = some pml4 := by
    intro k pml4 hk
    rw [hroots] at hk
    by_cases hlast : k = s.spaces.length
    · rw [hlast, update_self] at hk
      exact Or.inl ⟨hlast, (some.inj hk).symm⟩
    · rw [update_of_ne hlast] at hk
      exact Or.inr ⟨hlast, hk⟩
  refine ⟨by rw [hroots]; exact hown, fun k path t i ht hvalid => ?_,
    fun a ha => (hspace.kept a ha).trans (h.kept a ha), fun k pml4 hk i hle hlt => ?_,
    by simp [SpaceCall.apply, h.length], fun k pml4 f hk hf virt hvirt => ?_⟩
  · obtain ⟨hpath, r, hr, hwalk⟩ := ht
    rcases hcases hr with ⟨-, rfl⟩ | ⟨-, hold⟩
    · exact noHuge_of_lower_empty hspace.lower hr ⟨hpath, r, hr, hwalk⟩ hvalid
    · exact hno k path t i ⟨hpath, r, hold, hwalk⟩ hvalid
  · rcases hcases hk with ⟨-, rfl⟩ | ⟨-, hk⟩
    · rw [hspace.entry_upper hcr3 hle hlt, hhalf i hle hlt]
    · rw [entry_eq_of_bytes hlt (hsame k [] pml4 (reaches_nil UserLayout.nil hk)),
        h.upper k pml4 hk i hle hlt]
  · rcases hcases hk with ⟨rfl, rfl⟩ | ⟨hlast, hk⟩
    · obtain rfl : AddressMap.empty = f := by
        simpa [SpaceCall.apply, ← h.length] using hf
      exact lookup_of_lower_empty hspace.lower hvirt
    · have hlt : k < maps.length := h.length ▸ (List.getElem?_eq_some_iff.mp hk).1
      rw [SpaceCall.apply, getElem?_append_left hlt] at hf
      rw [← h.agree k pml4 f hk hf virt hvirt, lookup, lookup, hlookup k pml4 virt hk hvirt]

theorem tableFailures_le_call (kernel : ℕ) (s : Spaces) (c : SpaceCall) :
    s.mem.tableFailures ≤ (s.call kernel c).mem.tableFailures := by
  cases c with
  | newAddressSpace active => exact s.mem.tableFailures_le_allocTable
  | map space virt phys flags =>
    rw [Spaces.call]
    split
    · exact le_rfl
    · exact tableFailures_le_map _ _ _ _ _

theorem tableFailures_le_calls (kernel : ℕ) (s : Spaces) (calls : List SpaceCall) :
    s.mem.tableFailures ≤ (calls.foldl (Spaces.call kernel) s).mem.tableFailures := by
  induction calls generalizing s with
  | nil => exact le_rfl
  | cons c calls ih => exact (tableFailures_le_call kernel s c).trans (ih _)

theorem spacesOk_nil (hsound : m.pmm.Sound) (kernel : ℕ) : SpacesOk m kernel ⟨m, []⟩ [] := by
  have hnone : ∀ {k pml4}, Spaces.roots ⟨m, []⟩ k ≠ some pml4 := fun h => nomatch h
  exact ⟨owned_usedPages hsound, fun _ _ _ _ ⟨_, _, hr, _⟩ => absurd hr hnone, fun _ _ => rfl,
    fun _ _ hk => absurd hk hnone, rfl, fun _ _ _ hk => absurd hk hnone⟩

/-- By induction on the calls. -/
theorem SpacesOk.calls (h : SpacesOk m kernel s maps) (hm : m.KernelMapped kernel)
    {calls : List SpaceCall} (hvalid : ∀ c ∈ calls, c.Valid)
    (hok : (calls.foldl (Spaces.call kernel) s).mem.tableFailures = s.mem.tableFailures) :
    SpacesOk m kernel (calls.foldl (Spaces.call kernel) s) (calls.foldl SpaceCall.apply maps) := by
  induction calls generalizing s maps with
  | nil => exact h
  | cons c calls ih =>
    obtain ⟨hc, hvalid⟩ := forall_mem_cons.mp hvalid
    have hle := tableFailures_le_call kernel s c
    have hle' := tableFailures_le_calls kernel (s.call kernel c) calls
    rw [foldl_cons] at hok
    have hsame : (s.call kernel c).mem.tableFailures = s.mem.tableFailures :=
      le_antisymm (hok ▸ hle') hle
    have hnext : SpacesOk m kernel (s.call kernel c) (c.apply maps) := by
      cases c with
      | newAddressSpace active => exact h.newAddressSpace hm hsame
      | map space virt phys flags => exact h.map hc hsame
    exact ih hnext hvalid (hok.trans hsame.symm)

/-- The tables that the processor comes to from `root` are pages in use. -/
def TablesUsed (m : PhysMemory) (root : ℕ) : Prop :=
  ∀ path t, path.length ≤ 3 → (∀ i ∈ path, i < 512) → walk m.tableChild root path = some t →
    m.pmm.Used t

/-- After any calls of `new_address_space` and `map` in which every table could be allocated, looking
up an address of the lower half gives what the last `map` for its page gave, or nothing; in the upper
half it gives what the kernel's address space gave before; and nothing changes for the address spaces
that were there before. -/
theorem pageTables_refine (hm : m.KernelMapped kernel) {calls : List SpaceCall}
    (hvalid : ∀ c ∈ calls, c.Valid)
    (hok : (calls.foldl (Spaces.call kernel) ⟨m, []⟩).mem.tableFailures = m.tableFailures) :
    let s := calls.foldl (Spaces.call kernel) ⟨m, []⟩
    let maps := calls.foldl SpaceCall.apply []
    (∀ k pml4, s.roots k = some pml4 → ∃ f, maps[k]? = some f ∧
      (∀ virt < 2 ^ 47, s.mem.lookup pml4 virt = f (virt / pageSize)) ∧
      ∀ virt, 2 ^ 64 - 2 ^ 47 ≤ virt → virt < 2 ^ 64 →
        s.mem.lookup pml4 virt = m.lookup kernel virt) ∧
    ∀ root, m.TablesUsed root → ∀ virt, s.mem.lookup root virt = m.lookup root virt := by
  intro s maps
  have h : SpacesOk m kernel s maps := (spacesOk_nil hm.sound kernel).calls hm hvalid hok
  have hentry : ∀ t, m.pmm.Used t → ∀ i < 512, s.mem.entry t i = m.entry t i := by
    intro t ht i hi
    have hmem : t ∈ m.usedPages := ht
    obtain ⟨page, rfl, -⟩ := ht
    exact entry_congr hi fun a ha => h.kept a (ha ▸ hmem)
  refine ⟨fun k pml4 hk => ?_, fun root hroot virt => ?_⟩
  · have hlt : k < maps.length := h.length ▸ (List.getElem?_eq_some_iff.mp hk).1
    refine ⟨maps[k], getElem?_eq_getElem hlt,
      h.agree k pml4 _ hk (getElem?_eq_getElem hlt), fun virt hle hlt => ?_⟩
    have hsame : KernelSame m kernel pml4 s.mem :=
      ⟨fun t i ht hi => hentry t (hm.tables t ht) i hi, h.upper k pml4 hk⟩
    refine hsame.lookup ?_
    rw [tableIndex_eq]
    omega
  · rw [lookup, lookup, lookupFrom_congr (virtPath_lt virt) fun init t hlen hinit hwalk i hi =>
      hentry t (hroot init t (Nat.lt_succ_iff.mp hlen) hinit hwalk) i hi]

end

/-- A memory of 96 pages, of which three are used: page 1 is a top-level table whose entry 256 leads
to page 2. -/
def upperHalf : PhysMemory where
  ram a := if a = 6144 then 3 else if a = 6145 then 32 else 0
  pmm := ⟨fun page => page < 3, 96, 93, 0⟩
  heap := Heap.empty 0
  tableFailures := 0

theorem upperHalf_child {t i : ℕ} (h : t + 8 * i ≠ 6144) (hmod : t % 8 = 0) :
    upperHalf.child t i = none := by
  have hzero : upperHalf.entry t i = 0 := by
    refine ByteMemory.readWord_eq_zero fun k hk => ?_
    change (if t + 8 * i + k = 6144 then (3 : UInt8) else if t + 8 * i + k = 6145 then 32 else 0) = 0
    rw [if_neg (by omega), if_neg (by omega)]
  simp [child, hzero, present]

theorem upperHalf_tableChild {t i : ℕ} (h : t + 8 * i ≠ 6144) (hmod : t % 8 = 0) :
    upperHalf.tableChild t i = none := by
  unfold tableChild
  split
  · exact upperHalf_child h hmod
  · rfl

theorem upperHalf_kernelTable {t : ℕ} (h : upperHalf.KernelTable 4096 t) : t = 8192 := by
  obtain ⟨i, path, hle, hlt, -, -, hwalk⟩ := h
  rw [walk_cons] at hwalk
  have hi : i = 256 := by
    by_contra hne
    rw [upperHalf_tableChild (by omega) (by decide)] at hwalk
    cases hwalk
  subst hi
  have hentry : upperHalf.tableChild 4096 256 = some 8192 := by decide +kernel
  rw [hentry] at hwalk
  cases path with
  | nil => exact (some.inj hwalk).symm
  | cons j path =>
    change walk upperHalf.tableChild 8192 (j :: path) = some t at hwalk
    rw [walk_cons, upperHalf_tableChild (by omega) (by decide)] at hwalk
    cases hwalk

theorem upperHalf_kernelMapped : upperHalf.KernelMapped 4096 := by
  refine ⟨⟨by decide, by decide, by decide⟩, ⟨1, by decide⟩, fun t ht => ?_⟩
  rw [upperHalf_kernelTable ht]
  exact ⟨2, by decide⟩

/-- The theorem with two address spaces, the second of which is made while the first is active. -/
theorem pageTables_refine_of_two_spaces :
    let calls : List SpaceCall := [.newAddressSpace none, .map 0 0x400000 0x5000 7,
      .newAddressSpace (some 0), .map 1 0x400000 0x6000 5]
    let s := calls.foldl (Spaces.call 4096) ⟨upperHalf, []⟩
    s.mem.lookup 12288 0x400000 = some (0x5000, 7) ∧
      s.mem.lookup 28672 0x400000 = some (0x6000, 5) := by
  intro calls s
  have hvalid : ∀ c ∈ calls, c.Valid := by simp [calls, SpaceCall.Valid, pageSize]
  have h := pageTables_refine upperHalf_kernelMapped hvalid (by decide +kernel)
  obtain ⟨f, hf, hlookup, -⟩ := h.1 0 12288 (by decide +kernel)
  obtain ⟨g, hg, hlookup', -⟩ := h.1 1 28672 (by decide +kernel)
  obtain rfl := some.inj hf
  obtain rfl := some.inj hg
  refine ⟨(hlookup 0x400000 (by decide)).trans ?_, (hlookup' 0x400000 (by decide)).trans ?_⟩
  · simp
  · simp

end PhysMemory

end AnssOS
