import AnssOS.Exec.Picture
import AnssOS.Mm.AddressMap

/-!
# The address space of a program

The address space that `elf::load` builds has the pages of the segments and of the stack, and no
others.  Looked up through the page tables, every page of a segment has the bytes of `picture`; what
was in use before is left alone.

### Outline

* `Shows`: the pages of an address space have given bytes, and what the operations of the memory
  manager do to that;
* `Tracks`: how the loader finds the page of an earlier segment;
* `Shows.segmentPages`, `Shows.loadSegments`, `Shows.initStack`: the loader, step by step;
* `load_shows`: the address space of a program that is loaded.
-/

namespace AnssOS

open List Option Function

namespace PhysMemory

open Pmm (pageRun)

/-! ### The bytes of an address space -/

/-- The pages of the address space `aspace` at `pages` are the physical pages `frame`, which nothing
else uses, and have the given bytes; nothing else is mapped.  The pages in `extra` are in use as well,
but not yet part of the address space.  Those in `kept` are as they were in `b`, and so is the upper
half of the address space. -/
structure Shows (b : PhysMemory) (kept : Set ℕ) (aspace : ℕ) (pages : Set ℕ) (frame : ℕ → ℕ)
    (extra : Set ℕ) (bytes : ℕ → UInt8) (m : PhysMemory) : Prop where
  own : m.OwnedBy TablePath (spaceRoots aspace) (kept ∪ (extra ∪ frame '' pages)) ∅
  noHuge : NoHuge m (spaceRoots aspace)
  same : Extends (spaceRoots aspace) kept b m
  lower : LowerPages pages
  inj : Set.InjOn frame pages
  apart : ∀ v ∈ pages, frame v ∉ extra
  disjoint : ∀ x ∈ extra ∪ frame '' pages, x ∉ kept
  lookup : ∀ v ∈ pages, m.lookup aspace v = some (frame v, userFlags)
  rest : ∀ v, v < 2 ^ 47 ∧ v % pageSize = 0 → v ∉ pages → m.lookup aspace v = none
  bytes : ∀ v ∈ pages, ∀ off < pageSize, m.ram (frame v + off) = bytes (v + off)

namespace Shows

variable {b m m' : PhysMemory} {aspace : ℕ} {kept pages extra : Set ℕ} {frame frame' : ℕ → ℕ}
  {bytes bytes' : ℕ → UInt8}

section

variable (h : Shows b kept aspace pages frame extra bytes m)

include h

theorem pageOf_frame {v off : ℕ} (hv : v ∈ pages)
    (hoff : off < pageSize) : pageOf (frame v + off) = frame v :=
  h.own.pageOf_eq (Or.inl (Or.inr (Or.inr ⟨v, hv, rfl⟩))) ⟨Nat.le_add_right _ _, by omega⟩

theorem pageOf_extra {z off : ℕ} (hz : z ∈ extra) (hoff : off < pageSize) : pageOf (z + off) = z :=
  h.own.pageOf_eq (Or.inl (Or.inr (Or.inl hz))) ⟨Nat.le_add_right _ _, by omega⟩

/-- Nothing is found at other addresses. -/
theorem translate_eq_none {virt : ℕ}
    (hvirt : virt < 2 ^ 47 ∧ virt % pageSize = 0) (hnot : virt ∉ pages) :
    m.translate aspace virt = none := by
  have hnone := h.rest virt hvirt hnot
  have hroot : spaceRoots aspace () = some aspace := rfl
  rw [PhysMemory.lookup, map_eq_none_iff, h.noHuge.lookupFrom hroot hvirt.1, bind_eq_none_iff] at hnone
  rw [translate, if_pos hvirt.1, map_eq_none_iff]
  change walk m.child aspace (tablePath virt ++ [tableIndex virt 12]) = none
  rw [walk_concat, bind_eq_none_iff]
  intro t ht
  have hleaf := hnone t ht
  unfold leafEntry at hleaf
  split at hleaf
  · cases hleaf
  · next habsent => simp [child, habsent]

/-- Only what the frames of the pages are matters. -/
theorem congr (hframe : ∀ v ∈ pages, frame' v = frame v)
    (hbytes : ∀ v ∈ pages, ∀ off < pageSize, bytes' (v + off) = bytes (v + off)) :
    Shows b kept aspace pages frame' extra bytes' m := by
  have himage : frame' '' pages = frame '' pages := Set.image_congr hframe
  refine ⟨himage ▸ h.own, h.noHuge, h.same, h.lower, ?_, fun v hv => ?_, himage ▸ h.disjoint,
    fun v hv => ?_, h.rest, fun v hv off hoff => ?_⟩
  · exact h.inj.congr fun v hv => (hframe v hv).symm
  · rw [hframe v hv]
    exact h.apart v hv
  · rw [hframe v hv]
    exact h.lookup v hv
  · rw [hframe v hv, hbytes v hv off hoff]
    exact h.bytes v hv off hoff

/-- Pages from the allocator. -/
theorem take {p : Pmm} {new : Set ℕ} (ht : m.pmm.Takes p new) :
    Shows b kept aspace pages frame (new ∪ extra) bytes { m with pmm := p } := by
  have hnew : ∀ x ∈ new, x ∉ kept ∪ (extra ∪ frame '' pages) := fun x hx =>
    h.own.not_reserved_of_takes ht hx
  refine ⟨?_, h.noHuge, ⟨h.same.kept, h.same.upper⟩, h.lower, h.inj, fun v hv hmem => ?_,
    fun x hx => ?_, h.lookup, h.rest, h.bytes⟩
  · rw [Set.union_assoc, Set.union_left_comm]
    exact h.own.take ht
  · rcases hmem with hmem | hmem
    · exact hnew _ hmem (Or.inr (Or.inr ⟨v, hv, rfl⟩))
    · exact h.apart v hv hmem
  · rcases hx with (hx | hx) | hx
    · exact fun hkept => hnew x hx (Or.inl hkept)
    · exact h.disjoint x (Or.inl hx)
    · exact h.disjoint x (Or.inr hx)

/-- The pages of the address space, and those that are to become part of it, are written. -/
theorem write (hpmm : m'.pmm = m.pmm)
    (hram : ∀ a, m'.ram a ≠ m.ram a → pageOf a ∈ extra ∪ frame '' pages)
    (hbytes : ∀ v ∈ pages, ∀ off < pageSize, m'.ram (frame v + off) = bytes' (v + off)) :
    Shows b kept aspace pages frame extra bytes' m' := by
  have hram' : ∀ a, m'.ram a ≠ m.ram a → pageOf a ∈ kept ∪ (extra ∪ frame '' pages) ∪ ∅ :=
    fun a ha => Or.inl (Or.inr (hram a ha))
  -- No table is among these pages.
  have htables : ∀ k path t, Reaches TablePath m.child (spaceRoots aspace) k path t →
      ∀ off < pageSize, m'.ram (t + off) = m.ram (t + off) := by
    intro k path t ht off hoff
    by_contra hne
    have hmem := hram _ hne
    obtain ⟨page, rfl, -⟩ := h.own.owns.used_of_reaches ht
    rw [pageOf_add hoff] at hmem
    exact h.own.owns.not_reaches (Or.inr hmem) ht
  obtain ⟨hno, hlookup⟩ := h.noHuge.of_bytes htables
  have hlookup : ∀ v < 2 ^ 47, m'.lookup aspace v = m.lookup aspace v := fun v hv => by
    rw [PhysMemory.lookup, hlookup () aspace v rfl hv]
    rfl
  refine ⟨h.own.write hpmm hram', hno, h.same.trans (h.own.extends_write fun a ha =>
    ⟨hram' a ha, h.disjoint _ (hram a ha)⟩), h.lower, h.inj, h.apart, h.disjoint, fun v hv => ?_,
    fun v hv hnot => ?_, hbytes⟩
  · rw [hlookup v (h.lower v hv).1]
    exact h.lookup v hv
  · rw [hlookup v hv.1]
    exact h.rest v hv hnot

/-- Pages that are not yet part of the address space are written. -/
theorem writeExtra (hpmm : m'.pmm = m.pmm) (hram : ∀ a, m'.ram a ≠ m.ram a → pageOf a ∈ extra) :
    Shows b kept aspace pages frame extra bytes m' := by
  refine h.write hpmm (fun a ha => Or.inl (hram a ha)) fun v hv off hoff => ?_
  rw [← h.bytes v hv off hoff]
  by_contra hne
  have hmem := hram _ hne
  rw [h.pageOf_frame hv hoff] at hmem
  exact h.apart v hv hmem

end

/-- A page that did not become part of the address space is given back. -/
theorem freePage {z : ℕ} (h : Shows b kept aspace pages frame (insert z extra) bytes m)
    (hz : z ∉ extra) : Shows b kept aspace pages frame extra bytes (m.freePage z) := by
  have hnot : z ∉ kept ∪ (extra ∪ frame '' pages) := by
    rintro (hmem | hmem | ⟨v, hv, heq⟩)
    · exact h.disjoint z (Or.inl (Or.inl rfl)) hmem
    · exact hz hmem
    · exact h.apart v hv (Or.inl heq)
  have hown := h.own
  rw [Set.insert_union, Set.union_insert] at hown
  exact ⟨hown.freePage hnot, h.noHuge, ⟨h.same.kept, h.same.upper⟩, h.lower, h.inj,
    fun v hv hmem => h.apart v hv (Or.inr hmem),
    fun x hx => h.disjoint x (hx.imp_left Or.inr), h.lookup, h.rest, h.bytes⟩

/-- A page becomes part of the address space, in place of what was there before. -/
theorem map {v phys : ℕ} (h : Shows b kept aspace pages frame (insert phys extra) bytes m)
    (hphys : phys ∉ extra) (hv : v < 2 ^ 47 ∧ v % pageSize = 0)
    (hok : (m.map aspace v phys userFlags).tableFailures = m.tableFailures)
    (hnew : ∀ off < pageSize, bytes' (v + off) = m.ram (phys + off))
    (hold : ∀ w ∈ pages, w ≠ v → ∀ off < pageSize, bytes' (w + off) = bytes (w + off)) :
    Shows b kept aspace (insert v pages) (Function.update frame v phys) extra bytes'
        (m.map aspace v phys userFlags) ∧
      ∀ z ∈ extra, ∀ off < pageSize,
        (m.map aspace v phys userFlags).ram (z + off) = m.ram (z + off) := by
  have hreserved : phys ∈ kept ∪ (insert phys extra ∪ frame '' pages) := Or.inr (Or.inl (Or.inl rfl))
  obtain ⟨page, hpage, hlt⟩ := h.own.reserved_page hreserved
  have haligned : phys % pageSize = 0 ∧ phys < 2 ^ 52 := by
    unfold pageSize at *
    omega
  have hroot : spaceRoots aspace () = some aspace := rfl
  obtain ⟨hown, hno, hextends, hlookup⟩ := h.own.map h.noHuge hroot hv.1 haligned (by decide)
    (by decide) hok
  have hkept : ∀ x ∈ insert phys extra ∪ frame '' pages, ∀ off < pageSize,
      (m.map aspace v phys userFlags).ram (x + off) = m.ram (x + off) := by
    intro x hx off hoff
    refine (hextends _ subset_rfl).kept _ ?_
    rw [h.own.pageOf_eq (Or.inl (Or.inr hx)) ⟨Nat.le_add_right _ _, by omega⟩]
    exact Or.inr hx
  have hother : ∀ w, w < 2 ^ 47 ∧ w % pageSize = 0 → w ≠ v →
      (m.map aspace v phys userFlags).lookup aspace w = m.lookup aspace w := by
    intro w hw hne
    refine (hlookup () aspace w hroot hw.1).2 ?_
    rintro ⟨-, hdiv⟩
    unfold pageSize at *
    omega
  have hframe : ∀ w ∈ pages, frame w ≠ phys := fun w hw heq => h.apart w hw (Or.inl heq)
  have hupdate : ∀ w, w ≠ v → Function.update frame v phys w = frame w := fun w hne =>
    update_of_ne hne _ _
  have hsub : extra ∪ Function.update frame v phys '' insert v pages ⊆
      insert phys extra ∪ frame '' pages := by
    rintro x (hx | ⟨w, hw, rfl⟩)
    · exact Or.inl (Or.inr hx)
    · by_cases heq : w = v
      · rw [heq, update_self]
        exact Or.inl (Or.inl rfl)
      · rw [hupdate w heq]
        exact Or.inr ⟨w, Set.mem_of_mem_insert_of_ne hw heq, rfl⟩
  refine ⟨⟨hown.forget (Set.union_subset_union_right _ hsub) subset_rfl, hno,
    h.same.trans (hextends kept Set.subset_union_left), ?_, ?_, fun w hw => ?_,
    fun x hx => h.disjoint x (hsub hx), fun w hw => ?_, fun w hw hnot => ?_, fun w hw off hoff => ?_⟩,
    fun z hz => hkept z (Or.inl (Or.inr hz))⟩
  · rintro w (rfl | hw)
    · exact hv
    · exact h.lower w hw
  · intro w hw w' hw' heq
    by_cases hwv : w = v
    · by_cases hwv' : w' = v
      · rw [hwv, hwv']
      · rw [hwv, update_self, hupdate w' hwv'] at heq
        exact absurd heq.symm (hframe w' (Set.mem_of_mem_insert_of_ne hw' hwv'))
    · by_cases hwv' : w' = v
      · rw [hwv', update_self, hupdate w hwv] at heq
        exact absurd heq (hframe w (Set.mem_of_mem_insert_of_ne hw hwv))
      · rw [hupdate w hwv, hupdate w' hwv'] at heq
        exact h.inj (Set.mem_of_mem_insert_of_ne hw hwv) (Set.mem_of_mem_insert_of_ne hw' hwv') heq
  · by_cases heq : w = v
    · rw [heq, update_self]
      exact hphys
    · rw [hupdate w heq]
      exact fun hmem => h.apart w (Set.mem_of_mem_insert_of_ne hw heq) (Or.inr hmem)
  · by_cases heq : w = v
    · rw [heq, update_self]
      exact (hlookup () aspace v hroot hv.1).1 ⟨rfl, rfl⟩
    · have hw := Set.mem_of_mem_insert_of_ne hw heq
      rw [hupdate w heq, hother w (h.lower w hw) heq, h.lookup w hw]
  · rw [hother w hw fun heq => hnot (Or.inl heq)]
    exact h.rest w hw fun hmem => hnot (Or.inr hmem)
  · by_cases heq : w = v
    · rw [heq, update_self, hkept phys (Or.inl (Or.inl rfl)) off hoff, hnew off hoff]
    · have hw := Set.mem_of_mem_insert_of_ne hw heq
      rw [hupdate w heq, hkept _ (Or.inr ⟨w, hw, rfl⟩) off hoff, h.bytes w hw off hoff,
        hold w hw heq off hoff]

end Shows

/-! ### Finding the page of an earlier segment -/

/-- The loader finds the pages of the segments it keeps track of where they are. -/
structure Tracks (loaded : List Segment) (tracked : List Phdr) (pages : Set ℕ) (frame : ℕ → ℕ) :
    Prop where
  length : loaded.length = tracked.length
  isSome : ∀ v, v % pageSize = 0 →
    ((loaded.find? fun g => g.covers v).isSome ↔ ∃ q ∈ tracked, q.InPages v)
  found : ∀ v g, v % pageSize = 0 → loaded.find? (fun g => g.covers v) = some g →
    v ∈ pages ∧ frame v = g.kbase + (v - g.start)

theorem Tracks.nil (pages : Set ℕ) (frame : ℕ → ℕ) : Tracks [] [] pages frame :=
  ⟨rfl, by simp, by simp⟩

/-! ### A segment -/

/-- The frames after `n` pages of a segment: those of an earlier segment stay. -/
def newFrame (frame : ℕ → ℕ) (loaded : List Segment) (ph : Phdr) (basePhys n v : ℕ) : ℕ :=
  if (ph.segStart ≤ v ∧ v < ph.segStart + n * pageSize) ∧
      (loaded.find? fun g => g.covers v).isNone then basePhys + (v - ph.segStart)
  else frame v

/-- The bytes after `n` pages of a segment. -/
def newBytes (image : List UInt8) (pic : LoadPicture) (ph : Phdr) (n x : ℕ) : UInt8 :=
  if ph.segStart ≤ x ∧ x < ph.segStart + n * pageSize then (pic.load image ph).bytes x
  else pic.bytes x

/-- The bytes of a segment in its own pages, before they are put in place. -/
def ownBytes (image : List UInt8) (ph : Phdr) (x : ℕ) : UInt8 :=
  if ph.Contains x then ph.byte image x else 0

theorem fillSegment_ram {image : List UInt8} {ph : Phdr} {basePhys : ℕ} (m : PhysMemory)
    (hfit : ph.vaddr + ph.memsz ≤ 2 ^ 47) (hsize : ph.filesz ≤ ph.memsz) {y : ℕ}
    (hy : y < ph.pages * pageSize) :
    (fillSegment image ph basePhys m).ram (basePhys + y) = ownBytes image ph (ph.segStart + y) := by
  obtain ⟨-, hle, -, -, -, -⟩ := segment_bounds hfit
  have hlen : (imageBytes image ph.offset ph.filesz).length = ph.filesz := by simp [imageBytes]
  unfold fillSegment
  dsimp only
  by_cases hfile : ph.vaddr ≤ ph.segStart + y ∧ ph.segStart + y < ph.vaddr + ph.filesz
  · have hcontains : ph.Contains (ph.segStart + y) := ⟨hfile.1, by omega⟩
    rw [ownBytes, if_pos hcontains, Phdr.byte, if_pos hfile.2, ByteMemory.writeBytes,
      if_pos (by omega), imageBytes, getD_eq_getElem?_getD, getElem?_map,
      getElem?_range (by omega)]
    simp only [map_some, getD_some]
    congr 1
    omega
  · rw [ByteMemory.writeBytes_of_outside (by omega), ByteMemory.fillBytes, if_pos (by omega),
      ownBytes, Phdr.byte]
    split
    · next hcontains =>
      rw [if_neg fun hlt => hfile ⟨hcontains.1, hlt⟩]
    · rfl

/-- An address in a run of pages is in one of them. -/
theorem exists_page_of_run {base n a : ℕ} (hle : base ≤ a) (hlt : a < base + n * pageSize) :
    ∃ q < n, ∃ off < pageSize, a = base + q * pageSize + off := by
  have hpos : 0 < pageSize := by decide
  have hdiv := Nat.div_add_mod' (a - base) pageSize
  exact ⟨(a - base) / pageSize, (Nat.div_lt_iff_lt_mul hpos).mpr (by omega),
    (a - base) % pageSize, Nat.mod_lt _ hpos, by omega⟩

section Page

variable {b m : PhysMemory} {aspace : ℕ} {kept pages extra : Set ℕ} {frame : ℕ → ℕ}
  {bytes bytes' : ℕ → UInt8} {loaded : List Segment} {ph : Phdr} {basePhys p : ℕ}
  {image : List UInt8}
  (h : Shows b kept aspace pages frame (insert (basePhys + p * pageSize) extra) bytes m)
  (hpage : basePhys + p * pageSize ∉ extra) (hfit : ph.vaddr + ph.memsz ≤ 2 ^ 47)
  (hp : p < ph.pages)
  (hsource : ∀ off < pageSize, m.ram (basePhys + p * pageSize + off) =
    ownBytes image ph (ph.segStart + p * pageSize + off))
  (hold : ∀ w ∈ pages, w ≠ ph.segStart + p * pageSize → ∀ off < pageSize,
    bytes' (w + off) = bytes (w + off))

include h hpage hfit hp hsource hold

/-- A page of a segment that no earlier one has. -/
theorem Shows.loadPage_fresh
    (hfind : loaded.find? (fun g => g.covers (ph.segStart + p * pageSize)) = none)
    (hnew : ∀ off < pageSize, bytes' (ph.segStart + p * pageSize + off) =
      ownBytes image ph (ph.segStart + p * pageSize + off))
    (hok : (loadPage aspace loaded ph basePhys p m).tableFailures = m.tableFailures) :
    Shows b kept aspace (insert (ph.segStart + p * pageSize) pages)
        (Function.update frame (ph.segStart + p * pageSize) (basePhys + p * pageSize)) extra bytes'
        (loadPage aspace loaded ph basePhys p m) ∧
      ∀ z ∈ extra, ∀ off < pageSize,
        (loadPage aspace loaded ph basePhys p m).ram (z + off) = m.ram (z + off) := by
  obtain ⟨-, -, -, hpages, -, -⟩ := segment_bounds hfit
  have hlt := hpages p hp
  have hmod : (ph.segStart + p * pageSize) % 2 ^ 64 = ph.segStart + p * pageSize :=
    Nat.mod_eq_of_lt (by omega)
  have haligned : (ph.segStart + p * pageSize) % pageSize = 0 := by
    rw [Phdr.segStart, ← add_mul]
    exact Nat.mul_mod_left _ _
  have heq : loadPage aspace loaded ph basePhys p m =
      m.map aspace (ph.segStart + p * pageSize) (basePhys + p * pageSize) userFlags := by
    unfold loadPage
    simp only [hmod, hfind]
  rw [heq] at hok ⊢
  exact h.map hpage ⟨by omega, haligned⟩ hok
    (fun off hoff => (hnew off hoff).trans (hsource off hoff).symm) hold

/-- A page of a segment that an earlier one has: the segment's bytes are added. -/
theorem Shows.loadPage_shared {g : Segment}
    (hfind : loaded.find? (fun g => g.covers (ph.segStart + p * pageSize)) = some g)
    (hv : ph.segStart + p * pageSize ∈ pages)
    (hframe : frame (ph.segStart + p * pageSize) =
      g.kbase + (ph.segStart + p * pageSize - g.start))
    (hnew : ∀ off < pageSize, bytes' (ph.segStart + p * pageSize + off) =
      if ph.Contains (ph.segStart + p * pageSize + off) then
        ph.byte image (ph.segStart + p * pageSize + off)
      else bytes (ph.segStart + p * pageSize + off)) :
    Shows b kept aspace pages frame extra bytes' (loadPage aspace loaded ph basePhys p m) ∧
      ∀ z ∈ extra, ∀ off < pageSize,
        (loadPage aspace loaded ph basePhys p m).ram (z + off) = m.ram (z + off) := by
  obtain ⟨hend, hle, hlt', hpages, -, -⟩ := segment_bounds hfit
  have hlt := hpages p hp
  have hmod : (ph.segStart + p * pageSize) % 2 ^ 64 = ph.segStart + p * pageSize :=
    Nat.mod_eq_of_lt (by omega)
  have hge : p = 0 ∨ ph.vaddr < ph.segStart + p * pageSize := by
    rcases Nat.eq_zero_or_pos p with hzero | hpos
    · exact Or.inl hzero
    · have := Nat.mul_le_mul_right pageSize hpos
      exact Or.inr (by omega)
  unfold loadPage
  simp only [hmod, hfind, hend]
  rw [← hframe]
  generalize hvp : ph.segStart + p * pageSize = v at *
  -- The bytes of the segment in this page are those from `start` up to `stop`.
  have hstop : min (ph.vaddr + ph.memsz) ((v + pageSize) % 2 ^ 64) =
      min (ph.vaddr + ph.memsz) (v + pageSize) := by
    rw [Nat.mod_eq_of_lt (by unfold pageSize; omega)]
  have hlen : (min (ph.vaddr + ph.memsz) (v + pageSize) + 2 ^ 64 - max ph.vaddr v) % 2 ^ 64 =
      min (ph.vaddr + ph.memsz) (v + pageSize) - max ph.vaddr v := by
    have hbound : max ph.vaddr v ≤ min (ph.vaddr + ph.memsz) (v + pageSize) := by
      have : ph.vaddr < v + pageSize := by
        rcases hge with rfl | hlt
        · omega
        · omega
      omega
    omega
  rw [hstop, hlen]
  have hcopy : ∀ off < pageSize, m.ram.copyBytes (frame v + (max ph.vaddr v - v))
      (basePhys + (max ph.vaddr v - ph.segStart))
      (min (ph.vaddr + ph.memsz) (v + pageSize) - max ph.vaddr v) (frame v + off) =
        bytes' (v + off) := by
    intro off hoff
    rw [hnew off hoff, ByteMemory.copyBytes]
    by_cases hin : ph.Contains (v + off)
    · have hsrc := hsource off hoff
      rw [ownBytes, if_pos hin] at hsrc
      rw [if_pos hin, ← hsrc]
      unfold Phdr.Contains at hin
      rw [if_pos (by omega)]
      congr 1
      omega
    · rw [if_neg hin, ← h.bytes v hv off hoff]
      unfold Phdr.Contains at hin
      rw [if_neg (by omega)]
  have hchanged : ∀ a, m.ram.copyBytes (frame v + (max ph.vaddr v - v))
      (basePhys + (max ph.vaddr v - ph.segStart))
      (min (ph.vaddr + ph.memsz) (v + pageSize) - max ph.vaddr v) a ≠ m.ram a →
        pageOf a = frame v := by
    intro a ha
    refine h.own.pageOf_eq (Or.inl (Or.inr (Or.inr ⟨v, hv, rfl⟩))) ?_
    by_contra hout
    exact ha (ByteMemory.copyBytes_of_outside (by omega))
  generalize m.ram.copyBytes (frame v + (max ph.vaddr v - v))
    (basePhys + (max ph.vaddr v - ph.segStart))
    (min (ph.vaddr + ph.memsz) (v + pageSize) - max ph.vaddr v) = ram' at hcopy hchanged ⊢
  have hwritten : Shows b kept aspace pages frame (insert (basePhys + p * pageSize) extra) bytes'
      { m with ram := ram' } := by
    refine h.write rfl (fun a ha => Or.inr ⟨v, hv, (hchanged a ha).symm⟩) fun w hw off hoff => ?_
    by_cases heq : w = v
    · rw [heq]
      exact hcopy off hoff
    · rw [hold w hw heq off hoff, ← h.bytes w hw off hoff]
      by_contra hne
      have hpage := hchanged _ hne
      rw [h.pageOf_frame hw hoff] at hpage
      exact heq (h.inj hw hv hpage)
  refine ⟨hwritten.freePage hpage, ?_⟩
  · intro z hz off hoff
    by_contra hne
    have hpage := hchanged _ hne
    rw [h.pageOf_extra (Or.inr hz) hoff] at hpage
    exact h.apart v hv (hpage ▸ Or.inr hz)

end Page

section Loop

variable {b m : PhysMemory} {kept pages : Set ℕ} {frame : ℕ → ℕ} {loaded : List Segment} {ph : Phdr}
  {pic : LoadPicture} {image : List UInt8} {aspace basePhys : ℕ} {p : Pmm}

/-- Behind the pages loaded so far, and in those of other segments, nothing changes. -/
theorem newBytes_succ_of_ne {n w off : ℕ} (hw : w % pageSize = 0) (hoff : off < pageSize)
    (hne : w ≠ ph.segStart + n * pageSize) :
    newBytes image pic ph (n + 1) (w + off) = newBytes image pic ph n (w + off) := by
  have hstart : ph.segStart % pageSize = 0 := Nat.mul_mod_left _ _
  have hiff : (ph.segStart ≤ w + off ∧ w + off < ph.segStart + (n + 1) * pageSize) ↔
      (ph.segStart ≤ w + off ∧ w + off < ph.segStart + n * pageSize) := by
    unfold pageSize at *
    omega
  unfold newBytes
  simp only [hiff]

theorem newBytes_succ_self {n off : ℕ} (hn : n < ph.pages) (hoff : off < pageSize) :
    newBytes image pic ph (n + 1) (ph.segStart + n * pageSize + off) =
      if ph.Contains (ph.segStart + n * pageSize + off) then
        ph.byte image (ph.segStart + n * pageSize + off)
      else if ∃ g ∈ pic.tracked, g.InPages (ph.segStart + n * pageSize + off) then
        newBytes image pic ph n (ph.segStart + n * pageSize + off) else 0 := by
  have hin : ph.InPages (ph.segStart + n * pageSize + off) := by
    have := Nat.mul_le_mul_right pageSize hn
    unfold Phdr.InPages
    rw [Nat.succ_mul] at this
    omega
  have hpos : ph.segStart ≤ ph.segStart + n * pageSize + off ∧
      ph.segStart + n * pageSize + off < ph.segStart + (n + 1) * pageSize := by
    rw [Nat.succ_mul]
    omega
  have hold : newBytes image pic ph n (ph.segStart + n * pageSize + off) =
      pic.bytes (ph.segStart + n * pageSize + off) := if_neg (by omega)
  rw [newBytes, if_pos hpos, hold, LoadPicture.load]
  dsimp only
  rw [if_pos hin]

theorem newFrame_succ_of_ne {n w : ℕ} (hw : w % pageSize = 0)
    (hne : w ≠ ph.segStart + n * pageSize) :
    newFrame frame loaded ph basePhys (n + 1) w = newFrame frame loaded ph basePhys n w := by
  have hstart : ph.segStart % pageSize = 0 := Nat.mul_mod_left _ _
  have hiff : (ph.segStart ≤ w ∧ w < ph.segStart + (n + 1) * pageSize) ↔
      (ph.segStart ≤ w ∧ w < ph.segStart + n * pageSize) := by
    unfold pageSize at *
    omega
  unfold newFrame
  simp only [hiff]

theorem newFrame_of_isSome {n w : ℕ} {g : Segment}
    (hfind : loaded.find? (fun g => g.covers w) = some g) :
    newFrame frame loaded ph basePhys n w = frame w := by
  rw [newFrame, hfind]
  simp

theorem newFrame_of_none {n q : ℕ} (hq : q < n)
    (hfind : loaded.find? (fun g => g.covers (ph.segStart + q * pageSize)) = none) :
    newFrame frame loaded ph basePhys n (ph.segStart + q * pageSize) =
      basePhys + q * pageSize := by
  have := Nat.mul_le_mul_right pageSize hq
  rw [Nat.succ_mul] at this
  have hpos : 0 < pageSize := by decide
  rw [newFrame, hfind, if_pos ⟨⟨by omega, by omega⟩, rfl⟩, Nat.add_sub_cancel_left]

variable (h : Shows b kept aspace pages frame ∅ pic.bytes m)
  (htracks : Tracks loaded pic.tracked pages frame)
  (hfit : ph.vaddr + ph.memsz ≤ 2 ^ 47) (hsize : ph.filesz ≤ ph.memsz)

variable (image) in
include h hfit hsize in
/-- The pages of a segment are allocated and filled. -/
theorem Shows.fillSegment (halloc : m.pmm.allocPages ph.pages = (basePhys, p))
    (hbase : basePhys ≠ 0) :
    Shows b kept aspace pages frame (pageRun basePhys ph.pages) pic.bytes
      (fillSegment image ph basePhys { m with pmm := p }) := by
  have ht := Pmm.allocPages_takes h.own.sound (by rw [halloc]; exact hbase)
  rw [halloc] at ht
  dsimp only at ht
  have htaken := h.take ht
  rw [Set.union_empty] at htaken
  refine htaken.writeExtra rfl fun a ha => ?_
  have hin : basePhys ≤ a ∧ a < basePhys + ph.pages * pageSize := by
    by_contra hout
    exact ha (fillSegment_of_outside hfit hsize (by omega))
  obtain ⟨q, hq, off, hoff, rfl⟩ := exists_page_of_run hin.1 hin.2
  have hmem : basePhys + q * pageSize ∈ pageRun basePhys ph.pages := ⟨q, hq, rfl⟩
  rw [htaken.pageOf_extra hmem hoff]
  exact hmem

include h htracks hfit hsize in
/-- The pages of a segment are put in place, one after the other; those to come have the bytes of
the segment. -/
theorem Shows.segmentPages (halloc : m.pmm.allocPages ph.pages = (basePhys, p))
    (hbase : basePhys ≠ 0) {n : ℕ} (hn : n ≤ ph.pages)
    (hok : (segmentPages image aspace loaded ph basePhys n { m with pmm := p }).tableFailures =
      m.tableFailures) :
    Shows b kept aspace (pages ∪ heapVpages ph.segStart n) (newFrame frame loaded ph basePhys n)
        (pageRun (basePhys + n * pageSize) (ph.pages - n)) (newBytes image pic ph n)
        (PhysMemory.segmentPages image aspace loaded ph basePhys n { m with pmm := p }) ∧
      ∀ q, n ≤ q → q < ph.pages → ∀ off < pageSize,
        (PhysMemory.segmentPages image aspace loaded ph basePhys n { m with pmm := p }).ram
          (basePhys + q * pageSize + off) = ownBytes image ph (ph.segStart + q * pageSize + off) := by
  induction n with
  | zero =>
    have hpages : pages ∪ heapVpages ph.segStart 0 = pages := by simp [heapVpages]
    have hfilled := Shows.fillSegment image h hfit hsize halloc hbase
    rw [hpages, Nat.zero_mul, Nat.add_zero, Nat.sub_zero]
    refine ⟨hfilled.congr (fun v _ => ?_) fun v _ off _ => ?_, fun q _ hq off hoff => ?_⟩
    · exact if_neg (by omega)
    · exact if_neg (by omega)
    · have hlt := Nat.mul_le_mul_right pageSize hq
      rw [Nat.succ_mul] at hlt
      rw [Nat.add_assoc, Nat.add_assoc]
      exact fillSegment_ram _ hfit hsize (by omega)
  | succ n ih =>
    have hlt : n < ph.pages := hn
    have hstep : PhysMemory.segmentPages image aspace loaded ph basePhys (n + 1)
        { m with pmm := p } = loadPage aspace loaded ph basePhys n
          (PhysMemory.segmentPages image aspace loaded ph basePhys n { m with pmm := p }) := by
      unfold PhysMemory.segmentPages
      rw [range_succ, foldl_append, foldl_cons, foldl_nil]
    have hok₁ : (PhysMemory.segmentPages image aspace loaded ph basePhys n
        { m with pmm := p }).tableFailures = m.tableFailures :=
      le_antisymm
        ((tableFailures_le_segmentPages_of_le _ _ _ _ _ _ (Nat.le_succ n)).trans hok.le)
        (tableFailures_le_segmentPages image aspace loaded ph basePhys n { m with pmm := p })
    obtain ⟨hshows, hsource⟩ := ih hlt.le hok₁
    have hextra : pageRun (basePhys + n * pageSize) (ph.pages - n) =
        insert (basePhys + n * pageSize)
          (pageRun (basePhys + (n + 1) * pageSize) (ph.pages - (n + 1))) := by
      obtain ⟨rest, hrest⟩ := Nat.exists_eq_add_of_lt hlt
      have hsub : ph.pages - n = rest + 1 := by omega
      have hsub' : ph.pages - (n + 1) = rest := by omega
      rw [hsub, hsub', pageRun_succ, Nat.succ_mul, Nat.add_assoc]
    have hnot : basePhys + n * pageSize ∉
        pageRun (basePhys + (n + 1) * pageSize) (ph.pages - (n + 1)) := by
      rintro ⟨k, -, heq⟩
      have hpos : 0 < pageSize := by decide
      rw [Nat.succ_mul] at heq
      omega
    rw [hextra] at hshows
    rw [hstep] at hok ⊢
    generalize PhysMemory.segmentPages image aspace loaded ph basePhys n { m with pmm := p } = m₁
      at *
    have haligned : ∀ w ∈ pages ∪ heapVpages ph.segStart n, w % pageSize = 0 :=
      fun w hw => (hshows.lower w hw).2
    have hself : (ph.segStart + n * pageSize) % pageSize = 0 := by
      rw [Phdr.segStart, ← Nat.add_mul]
      exact Nat.mul_mod_left _ _
    have hold : ∀ w ∈ pages ∪ heapVpages ph.segStart n, w ≠ ph.segStart + n * pageSize →
        ∀ off < pageSize,
          newBytes image pic ph (n + 1) (w + off) = newBytes image pic ph n (w + off) :=
      fun w hw hne off hoff => newBytes_succ_of_ne (haligned w hw) hoff hne
    have hpages : pages ∪ heapVpages ph.segStart (n + 1) =
        insert (ph.segStart + n * pageSize) (pages ∪ heapVpages ph.segStart n) := by
      rw [heapVpages_succ, ← Set.union_assoc, Set.union_singleton]
    -- Whether an earlier segment has the page.
    have htracked : ∀ off < pageSize,
        ((loaded.find? fun g => g.covers (ph.segStart + n * pageSize)).isSome ↔
          ∃ q ∈ pic.tracked, q.InPages (ph.segStart + n * pageSize + off)) := by
      intro off hoff
      rw [htracks.isSome _ hself]
      simp only [Phdr.inPages_add _ hself hoff]
    suffices hstepped : Shows b kept aspace (pages ∪ heapVpages ph.segStart (n + 1))
        (newFrame frame loaded ph basePhys (n + 1))
        (pageRun (basePhys + (n + 1) * pageSize) (ph.pages - (n + 1)))
        (newBytes image pic ph (n + 1)) (loadPage aspace loaded ph basePhys n m₁) ∧
        ∀ z ∈ pageRun (basePhys + (n + 1) * pageSize) (ph.pages - (n + 1)), ∀ off < pageSize,
          (loadPage aspace loaded ph basePhys n m₁).ram (z + off) = m₁.ram (z + off) by
      refine ⟨hstepped.1, fun q hq hlt off hoff => ?_⟩
      rw [hstepped.2 _ ⟨q - (n + 1), by omega, ?_⟩ off hoff, hsource q (by omega) hlt off hoff]
      rw [Nat.add_assoc, ← Nat.add_mul, Nat.add_sub_cancel' hq]
    rcases hfind : loaded.find? fun g => g.covers (ph.segStart + n * pageSize) with _ | g
    · have hnew : ∀ off < pageSize, newBytes image pic ph (n + 1) (ph.segStart + n * pageSize + off) =
          ownBytes image ph (ph.segStart + n * pageSize + off) := by
        intro off hoff
        have hnone := htracked off hoff
        rw [hfind] at hnone
        rw [newBytes_succ_self hlt hoff, if_neg (hnone.not.mp (by simp)), ownBytes]
      obtain ⟨hmapped, hkept⟩ := hshows.loadPage_fresh hnot hfit hlt (hsource n le_rfl hlt) hold
        hfind hnew (hok.trans hok₁.symm)
      refine ⟨?_, hkept⟩
      rw [hpages]
      refine hmapped.congr (fun w hw => ?_) fun _ _ _ _ => rfl
      by_cases hne : w = ph.segStart + n * pageSize
      · rw [hne, update_self, newFrame_of_none (Nat.lt_succ_self n) hfind]
      · rw [update_of_ne hne,
          newFrame_succ_of_ne (haligned w (Set.mem_of_mem_insert_of_ne hw hne)) hne]
    · obtain ⟨hv, hframe⟩ := htracks.found _ g hself hfind
      have hv : ph.segStart + n * pageSize ∈ pages ∪ heapVpages ph.segStart n := Or.inl hv
      have hnew : ∀ off < pageSize, newBytes image pic ph (n + 1) (ph.segStart + n * pageSize + off) =
          if ph.Contains (ph.segStart + n * pageSize + off) then
            ph.byte image (ph.segStart + n * pageSize + off)
          else newBytes image pic ph n (ph.segStart + n * pageSize + off) := by
        intro off hoff
        have hsome := htracked off hoff
        rw [hfind] at hsome
        rw [newBytes_succ_self hlt hoff, if_pos (hsome.mp rfl)]
      obtain ⟨hmerged, hkept⟩ := hshows.loadPage_shared hnot hfit hlt (hsource n le_rfl hlt) hold
        hfind hv ((newFrame_of_isSome hfind).trans hframe) hnew
      refine ⟨?_, hkept⟩
      rw [hpages, Set.insert_eq_of_mem hv]
      refine hmerged.congr (fun w hw => ?_) fun _ _ _ _ => rfl
      by_cases hne : w = ph.segStart + n * pageSize
      · rw [hne, newFrame_of_isSome hfind, newFrame_of_isSome hfind]
      · exact newFrame_succ_of_ne (haligned w hw) hne

include htracks hfit in
/-- The segment is kept track of, if there is room. -/
theorem Tracks.load :
    Tracks (if loaded.length < maxLoadSegments then
        loaded ++ [⟨ph.segStart, ph.pages, basePhys⟩] else loaded)
      (pic.load image ph).tracked (pages ∪ heapVpages ph.segStart ph.pages)
      (newFrame frame loaded ph basePhys ph.pages) := by
  obtain ⟨-, -, -, -, -, hend⟩ := segment_bounds hfit
  have hfound : ∀ v g, v % pageSize = 0 → loaded.find? (fun g => g.covers v) = some g →
      v ∈ pages ∪ heapVpages ph.segStart ph.pages ∧
        newFrame frame loaded ph basePhys ph.pages v = g.kbase + (v - g.start) := by
    intro v g hv hfind
    obtain ⟨hmem, hframe⟩ := htracks.found v g hv hfind
    exact ⟨Or.inl hmem, (newFrame_of_isSome hfind).trans hframe⟩
  unfold LoadPicture.load
  rw [← htracks.length]
  dsimp only
  split
  · have hcovers : ∀ v, (Segment.covers ⟨ph.segStart, ph.pages, basePhys⟩ v = true ↔
        ph.InPages v) := by
      intro v
      simp only [Segment.covers, Nat.mod_eq_of_lt hend, Bool.and_eq_true, decide_eq_true_eq]
      rfl
    refine ⟨by simp [htracks.length], fun v hv => ?_, fun v g hv hfind => ?_⟩
    · rw [find?_append, isSome_or, Bool.or_eq_true, htracks.isSome v hv,
        find?_singleton]
      by_cases hin : ph.InPages v
      · simp [(hcovers v).mpr hin, hin]
      · simp [mt (hcovers v).mp hin, hin]
    · rw [find?_append, or_eq_some_iff] at hfind
      rcases hfind with hfind | ⟨hnone, hfind⟩
      · exact hfound v g hv hfind
      · rw [find?_singleton, ite_none_right_eq_some, Option.some.injEq] at hfind
        obtain ⟨hin, rfl⟩ := hfind
        rw [hcovers v] at hin
        have hstart : ph.segStart % pageSize = 0 := Nat.mul_mod_left _ _
        -- the page is the one with index `q`
        obtain ⟨q, hq, rfl⟩ : ∃ q < ph.pages, v = ph.segStart + q * pageSize := by
          unfold Phdr.InPages at hin
          refine ⟨(v - ph.segStart) / pageSize, ?_, ?_⟩
          · unfold pageSize at *
            omega
          · unfold pageSize at *
            omega
        refine ⟨Or.inr ⟨q, hq, rfl⟩, ?_⟩
        rw [newFrame_of_none hq hnone, Nat.add_sub_cancel_left]
  · exact ⟨htracks.length, htracks.isSome, hfound⟩

end Loop

/-- The bytes after all pages of a segment. -/
theorem newBytes_pages (image : List UInt8) (pic : LoadPicture) (ph : Phdr) :
    newBytes image pic ph ph.pages = (pic.load image ph).bytes := by
  funext x
  unfold newBytes
  split
  · rfl
  · next hout => exact (if_neg hout).symm

/-! ### The loader -/

section Loader

variable {b m : PhysMemory} {kept pages : Set ℕ} {frame : ℕ → ℕ} {pic : LoadPicture}
  {image : List UInt8} {aspace : ℕ} {st st' : Loading}

/-- The segments among some program headers. -/
def segmentsOf (phs : List Phdr) : List Phdr := phs.filter fun ph => ph.type = ptLoad

/-- The memory with the new address space in it. -/
theorem Shows.newAddressSpace {cr3 : ℕ} (hm : m.pmm.Sound)
    (hnew : m.newAddressSpace cr3 = (aspace, b)) (hb : b.tableFailures = m.tableFailures)
    (frame : ℕ → ℕ) (bytes : ℕ → UInt8) : NewSpace m cr3 m.usedPages aspace b ∧
      Shows b m.usedPages aspace ∅ frame ∅ bytes b := by
  have hused : m.OwnedBy TablePath (fun _ : Unit => none) m.usedPages ∅ := owned_usedPages hm
  have hspace := hused.newAddressSpace () cr3 (by rw [hnew]; exact hb)
  rw [hnew] at hspace
  have hroots : Function.update (fun _ => none) () (some aspace) = spaceRoots aspace :=
    funext fun _ => update_self _ _ _
  rw [hroots] at hspace
  obtain ⟨hown, -, hspace⟩ := hspace
  refine ⟨hspace, hown.forget (by simp) subset_rfl, fun k path t i ht hvalid => ?_, Extends.of_ram rfl,
    by simp [LowerPages], Set.injOn_empty _, by simp, by simp, by simp,
    fun v hv _ => lookup_of_lower_empty hspace.lower hv.1, by simp⟩
  exact noHuge_of_lower_empty hspace.lower rfl ht hvalid

theorem Shows.loadSegments {phs : List Phdr} (h : Shows b kept aspace pages frame ∅ pic.bytes st.mem)
    (htracks : Tracks st.loaded pic.tracked pages frame)
    (hfit : ∀ ph ∈ phs, ph.type = ptLoad → ph.vaddr + ph.memsz ≤ 2 ^ 47)
    (hloop : phs.foldlM (loadSegment image aspace) st = .ok st')
    (hok : st'.mem.tableFailures = st.mem.tableFailures) :
    ∃ frame', Shows b kept aspace (pages ∪ segmentsPages phs) frame' ∅
        ((segmentsOf phs).foldl (LoadPicture.load image) pic).bytes st'.mem ∧
      Tracks st'.loaded ((segmentsOf phs).foldl (LoadPicture.load image) pic).tracked
        (pages ∪ segmentsPages phs) frame' := by
  induction phs generalizing st pages frame pic with
  | nil =>
    obtain rfl := Except.ok.inj hloop
    exact ⟨frame, by simpa [segmentsPages, segmentsOf] using And.intro h htracks⟩
  | cons ph phs ih =>
    obtain ⟨st₁, hround, hrest⟩ := foldlM_cons_eq_ok hloop
    have hfit' : ∀ ph ∈ phs, ph.type = ptLoad → ph.vaddr + ph.memsz ≤ 2 ^ 47 :=
      fun q hq => hfit q (mem_cons_of_mem _ hq)
    have hle := tableFailures_le_loadSegment image aspace st ph
    have hle' := tableFailures_le_loadSegments image aspace phs st₁
    rw [hround, loadedMem] at hle
    rw [hrest, loadedMem] at hle'
    rcases loadSegment_eq_ok hround with ⟨htype, rfl⟩ | ⟨htype, basePhys, p, hchecks, halloc, rfl⟩
    · obtain ⟨frame', hshows⟩ := ih h htracks hfit' hrest hok
      have hpages : segmentsPages (ph :: phs) = segmentsPages phs := by
        simp [segmentsPages, htype]
      have hsegs : segmentsOf (ph :: phs) = segmentsOf phs := by simp [segmentsOf, htype]
      exact ⟨frame', by rw [hpages, hsegs]; exact hshows⟩
    · dsimp only at hle hle'
      have hfit := hfit ph mem_cons_self htype
      obtain ⟨hshows, -⟩ := h.segmentPages htracks hfit hchecks.1 halloc hchecks.2 le_rfl
        (le_antisymm (hle'.trans hok.le) hle)
      rw [newBytes_pages, Nat.sub_self, pageRun_zero] at hshows
      obtain ⟨frame', hshows⟩ := ih hshows (htracks.load hfit) hfit' hrest
        (hok.trans (le_antisymm hle (hle'.trans hok.le)))
      have hpages : pages ∪ segmentsPages (ph :: phs) =
          pages ∪ heapVpages ph.segStart ph.pages ∪ segmentsPages phs := by
        rw [Set.union_assoc]
        congr 1
        ext v
        simp [segmentsPages, htype, vpages, heapVpages]
      have hsegs : segmentsOf (ph :: phs) = ph :: segmentsOf phs := by simp [segmentsOf, htype]
      exact ⟨frame', by rw [hpages, hsegs, foldl_cons]; exact hshows⟩

variable {bytes : ℕ → UInt8} {argv : List (List UInt8)} {img : LoadedImage}

/-- The first pages of the stack. -/
theorem Shows.stackPages {stackPhys n : ℕ} {p : Pmm}
    (h : Shows b kept aspace pages frame ∅ bytes m)
    (halloc : m.pmm.allocPages userStackPages = (stackPhys, p)) (hbase : stackPhys ≠ 0)
    (hn : n ≤ userStackPages)
    (hok : (stackPages aspace stackPhys n { m with pmm := p }).tableFailures = m.tableFailures) :
    Shows b kept aspace (pages ∪ stackVpages n) (newFrame frame [] stackPhdr stackPhys n)
      (pageRun (stackPhys + n * pageSize) (userStackPages - n))
      (newBytes [] ⟨[], bytes⟩ stackPhdr n)
      (PhysMemory.stackPages aspace stackPhys n { m with pmm := p }) := by
  rw [stackPages_eq _ _ hn] at hok ⊢
  have h : Shows b kept aspace pages frame ∅ (LoadPicture.mk [] bytes).bytes m := h
  obtain ⟨hshows, -⟩ := h.segmentPages (Tracks.nil pages frame) (by decide) (by decide)
    (by rw [pages_stackPhdr]; exact halloc) hbase (by rw [pages_stackPhdr]; exact hn) hok
  rw [pages_stackPhdr, segStart_stackPhdr] at hshows
  exact hshows

section Stack

variable {stackPhys : ℕ} {p : Pmm} {m₁ : PhysMemory}
  (h : Shows b kept aspace pages frame ∅ bytes m)
  (halloc : m.pmm.allocPages userStackPages = (stackPhys, p)) (hbase : stackPhys ≠ 0)
  (hm₁ : m₁ = ({ m with pmm := p }.mapStack aspace stackPhys).allocKernelStack.2)
  (hok : m₁.tableFailures = m.tableFailures)

include h halloc hbase hm₁ hok

/-- The stack is in place, and the kernel stack is allocated. -/
theorem Shows.mapStack : Shows b kept aspace (pages ∪ stackVpages userStackPages)
    (newFrame frame [] stackPhdr stackPhys userStackPages) ∅
    (newBytes [] ⟨[], bytes⟩ stackPhdr userStackPages) m₁ := by
  rw [hm₁, allocKernelStack_tableFailures, mapStack_eq] at hok
  have h := h.stackPages halloc hbase le_rfl hok
  rw [Nat.sub_self, pageRun_zero] at h
  rw [hm₁, mapStack_eq]
  exact ⟨h.own.heapAlloc kernelStackSize 16 _, h.noHuge, ⟨h.same.kept, h.same.upper⟩, h.lower, h.inj,
    h.apart, h.disjoint, h.lookup, h.rest, h.bytes⟩

/-- The arguments are put on the stack: its bytes are those at `stackPhys`, and the other bytes are
those from before. -/
theorem Shows.initStack (argv : List (List UInt8)) {m₂ : PhysMemory}
    (hm₂ : (m₁.initStack stackPhys argv).2 = m₂) :
    Shows b kept aspace (pages ∪ stackVpages userStackPages)
      (newFrame frame [] stackPhdr stackPhys userStackPages) ∅
      (fun x => if stackBase ≤ x ∧ x < userStackTop then m₂.ram (stackPhys + (x - stackBase))
        else bytes x) m₂ := by
  have hstack := h.mapStack halloc hbase hm₁ hok
  have htop : stackBase + userStackPages * pageSize = userStackTop := by decide
  -- The frames of the stack lie one behind the other.
  have hframe : ∀ v ∈ stackVpages userStackPages,
      newFrame frame [] stackPhdr stackPhys userStackPages v = stackPhys + (v - stackBase) := by
    rintro v ⟨q, hq, rfl⟩
    have heq : newFrame frame [] stackPhdr stackPhys userStackPages
        (stackPhdr.segStart + q * pageSize) = stackPhys + q * pageSize := newFrame_of_none hq rfl
    rw [segStart_stackPhdr] at heq
    rw [heq, Nat.add_sub_cancel_left]
  have hchanged : ∀ a, m₂.ram a ≠ m₁.ram a → ∃ v ∈ stackVpages userStackPages,
      newFrame frame [] stackPhdr stackPhys userStackPages v = pageOf a := by
    intro a ha
    have hin : stackPhys ≤ a ∧ a < stackPhys + userStackPages * pageSize := by
      by_contra hout
      rw [← hm₂] at ha
      exact ha (initStack_of_outside (by omega))
    obtain ⟨q, hq, off, hoff, rfl⟩ := exists_page_of_run hin.1 hin.2
    have hv : stackBase + q * pageSize ∈ stackVpages userStackPages := ⟨q, hq, rfl⟩
    have hpage := hstack.pageOf_frame (Or.inr hv) hoff
    have heq := hframe _ hv
    rw [Nat.add_sub_cancel_left] at heq
    rw [heq] at hpage
    exact ⟨_, hv, by rw [heq, hpage]⟩
  have hpmm : m₂.pmm = m₁.pmm := hm₂ ▸ (m₁.initStack_pmm stackPhys argv).1
  refine hstack.write hpmm (fun a ha => ?_) fun v hv off hoff => ?_
  · obtain ⟨v, hv, heq⟩ := hchanged a ha
    exact Or.inr ⟨v, Or.inr hv, heq⟩
  by_cases hvstack : v ∈ stackVpages userStackPages
  · rw [hframe v hvstack]
    obtain ⟨q, hq, rfl⟩ := hvstack
    have hlt := Nat.mul_le_mul_right pageSize hq
    rw [Nat.succ_mul] at hlt
    rw [if_pos (by omega)]
    exact congrArg m₂.ram (by omega)
  · have hout : ¬ (stackBase ≤ v + off ∧ v + off < userStackTop) := by
      rintro ⟨hle, hlt⟩
      obtain ⟨-, hmod⟩ := hstack.lower v hv
      have hbase : stackBase % pageSize = 0 := by decide
      have hle : stackBase ≤ v := by
        unfold pageSize at hbase hmod hoff
        omega
      obtain ⟨q, hq, off', hoff', heq⟩ := exists_page_of_run hle
        (show v < stackBase + userStackPages * pageSize by omega)
      have hveq : v = stackBase + q * pageSize := by
        unfold pageSize at hbase hmod hoff' heq ⊢
        omega
      exact hvstack ⟨q, hq, hveq⟩
    have hkept : m₂.ram (newFrame frame [] stackPhdr stackPhys userStackPages v + off) =
        m₁.ram (newFrame frame [] stackPhdr stackPhys userStackPages v + off) := by
      by_contra hne
      obtain ⟨w, hw, heq⟩ := hchanged _ hne
      rw [hstack.pageOf_frame hv hoff] at heq
      exact hvstack (hstack.inj (Or.inr hw) hv heq ▸ hw)
    rw [if_neg hout, hkept, hstack.bytes v hv off hoff]
    exact if_neg (by rw [segStart_stackPhdr, htop]; exact hout)

end Stack

/-- The address space of a program shows the picture of the segments, and the stack. -/
theorem load_shows {cr3 : ℕ} (hm : m.pmm.Sound)
    (hfit : ImageFits image) (himg : (m.load cr3 image argv).1 = some img)
    (hok : (m.load cr3 image argv).2.tableFailures = m.tableFailures) :
    ∃ (b : PhysMemory) (stackPhys : ℕ) (m₁ : PhysMemory) (frame : ℕ → ℕ),
      NewSpace m cr3 m.usedPages img.pml4Phys b ∧
      m₁.initStack stackPhys argv = (some img.userStackTop, (m.load cr3 image argv).2) ∧
      Shows b m.usedPages img.pml4Phys (segmentsPages (headers image) ∪ stackVpages userStackPages)
        frame ∅
        (fun x => if stackBase ≤ x ∧ x < userStackTop then
            (m.load cr3 image argv).2.ram (stackPhys + (x - stackBase))
          else (picture image (segmentsOf (headers image))).bytes x)
        (m.load cr3 image argv).2 := by
  obtain ⟨b, st, hnew, hloop, heq, hle₁, hle₂, hle₃⟩ := load_eq_some himg
  rw [heq] at himg hok hle₃ ⊢
  have hb : b.tableFailures = m.tableFailures :=
    le_antisymm ((hle₂.trans hle₃).trans hok.le) hle₁
  have hst : st.mem.tableFailures = b.tableFailures :=
    le_antisymm ((hle₃.trans hok.le).trans hb.ge) hle₂
  obtain ⟨hspace, hstart⟩ := Shows.newAddressSpace hm hnew hb id fun _ => 0
  have hstart : Shows b m.usedPages img.pml4Phys ∅ id ∅ (LoadPicture.mk [] fun _ => 0).bytes
      (Loading.mk b 0 []).mem := hstart
  obtain ⟨frame, hshows, -⟩ := hstart.loadSegments (Tracks.nil ∅ id) hfit.headers hloop hst
  rw [Set.empty_union] at hshows
  rcases halloc : st.mem.pmm.allocPages userStackPages with ⟨stackPhys, p⟩
  rcases finishLoad_cases (Ehdr.read image) img.pml4Phys argv halloc with
    ⟨-, hnone⟩ | ⟨hbase, m₁, hm₁, -, hdone⟩
  · rw [hnone] at himg
    cases himg
  obtain ⟨-, -, hinit⟩ := hdone img himg
  have hfail : m₁.tableFailures = st.mem.tableFailures := by
    rw [hst, hb, ← hok, ← (m₁.initStack_pmm stackPhys argv).2, hinit]
  exact ⟨b, stackPhys, m₁, newFrame frame [] stackPhdr stackPhys userStackPages, hspace, hinit,
    hshows.initStack halloc hbase hm₁ hfail argv (by rw [hinit])⟩

end Loader

end PhysMemory

end AnssOS
