import AnssOS.Exec.Elf
import AnssOS.Foundation.FoldLog

/-!
# What the ELF loader reads of an image

The loader reads the image through raw pointers: the header, the program headers and the bytes of
the segments.  `loadAccesses` lists these reads in order, up to the point where the loader gives up,
together with the places the bytes of a segment are copied to.

### Outline

* `LoadAccess` and `loadAccesses`;
* the loader depends on no other byte of the image (`load_congr`);
* the reads lie in the image and the copies in the pages of the segment, if no number of the image
  wraps around and an entry of the program header table is as long as the header that is read.
-/

namespace AnssOS

/-- The size of a `Phdr`. -/
def phdrSize : ℕ := 56

/-- An access of the loader. -/
inductive LoadAccess
  /-- A header of `len` bytes is read at `offset` of the image. -/
  | header (offset len : ℕ)
  /-- The `len` bytes at `offset` of the image are copied to the physical address `dst`, for a
  segment with `pages` pages at `basePhys`. -/
  | copy (offset len dst basePhys pages : ℕ)
deriving DecidableEq

namespace LoadAccess

/-- The first byte of the image that is read. -/
def offset : LoadAccess → ℕ
  | header offset _ | copy offset _ _ _ _ => offset

/-- The number of bytes that are read. -/
def len : LoadAccess → ℕ
  | header _ len | copy _ len _ _ _ => len

/-- The bytes lie in the image, and they are copied into the pages of their segment. -/
def InBounds (image : List UInt8) : LoadAccess → Prop
  | header offset len => offset + len ≤ image.length
  | copy offset len dst basePhys pages =>
      offset + len ≤ image.length ∧ basePhys ≤ dst ∧ dst + len ≤ basePhys + pages * pageSize

/-- The images have the same bytes where the access reads. -/
def Agree (a : LoadAccess) (image image' : List UInt8) : Prop :=
  ∀ k < a.len, image'.getD (a.offset + k) 0 = image.getD (a.offset + k) 0

end LoadAccess

/-- Where the program header with index `i` is. -/
def Ehdr.phdrOffset (eh : Ehdr) (i : ℕ) : ℕ := (eh.phoff + i * eh.phentsize) % 2 ^ 64

namespace PhysMemory

/-- The bytes that `loadSegment` copies from the image. -/
def segmentAccesses (image : List UInt8) (st : Loading) (ph : Phdr) : List LoadAccess :=
  if ph.type ≠ ptLoad then []
  else if image.length < (ph.offset + ph.filesz) % 2 ^ 64 ∨ ph.memsz < ph.filesz then []
  else
    match st.mem.pmm.allocPages ph.pages with
    | (basePhys, _) =>
        if basePhys = 0 then []
        else [.copy ph.offset ph.filesz (basePhys + (ph.vaddr - ph.segStart)) basePhys ph.pages]

/-- What a round of the loop over the program headers reads. -/
def roundAccesses (image : List UInt8) (st : Loading) (i : ℕ) : List LoadAccess :=
  .header ((Ehdr.read image).phdrOffset i) phdrSize ::
    segmentAccesses image st ((Ehdr.read image).phdr image i)

/-- What that loop reads. -/
def tableAccesses (image : List UInt8) (aspace : ℕ) (st : Loading) : List LoadAccess :=
  foldLog (fun st i => loadSegment image aspace st ((Ehdr.read image).phdr image i))
    (roundAccesses image) st (List.range (Ehdr.read image).phnum)

/-- What `elf::load` reads. -/
def loadAccesses (m : PhysMemory) (cr3 : ℕ) (image : List UInt8) : List LoadAccess :=
  if image.length < ehdrSize then []
  else
    .header 0 ehdrSize ::
      if ¬ (Ehdr.read image).supported image then []
      else
        match m.newAddressSpace cr3 with
        | (aspace, m) => tableAccesses image aspace ⟨m, 0, []⟩

/-! ### The loader reads nothing else -/

section Agreement

variable {image image' : List UInt8}

theorem imageBytes_congr {offset n : ℕ}
    (h : ∀ k < n, image'.getD (offset + k) 0 = image.getD (offset + k) 0) :
    imageBytes image' offset n = imageBytes image offset n :=
  List.map_congr_left fun k hk => h k (List.mem_range.mp hk)

/-- A field of a header on which the images agree. -/
theorem imageField_congr {offset len n at' : ℕ}
    (h : (LoadAccess.header offset len).Agree image image') (hn : n + at' ≤ len) :
    imageField image' (offset + at') n = imageField image (offset + at') n := by
  rw [imageField, imageField, imageBytes_congr fun k hk => ?_]
  rw [Nat.add_assoc]
  exact h (at' + k) (show at' + k < len by omega)

theorem Ehdr.read_congr (h : (LoadAccess.header 0 ehdrSize).Agree image image') :
    Ehdr.read image' = Ehdr.read image := by
  have hfield : ∀ offset n, n + offset ≤ ehdrSize →
      imageField image' offset n = imageField image offset n := fun offset n hn => by
    simpa using imageField_congr h hn
  unfold ehdrSize at hfield
  unfold Ehdr.read
  rw [hfield 18 2 (by omega), hfield 24 8 (by omega), hfield 32 8 (by omega),
    hfield 54 2 (by omega), hfield 56 2 (by omega), imageBytes_congr fun k hk => ?_]
  exact h k (show k < 64 by omega)

theorem Phdr.read_congr {offset : ℕ} (h : (LoadAccess.header offset phdrSize).Agree image image') :
    Phdr.read image' offset = Phdr.read image offset := by
  have hfield : ∀ at' n, n + at' ≤ phdrSize →
      imageField image' (offset + at') n = imageField image (offset + at') n :=
    fun at' n hn => imageField_congr h hn
  unfold phdrSize at hfield
  have htype := hfield 0 4 (by omega)
  rw [Nat.add_zero] at htype
  unfold Phdr.read
  rw [htype, hfield 8 8 (by omega), hfield 16 8 (by omega), hfield 32 8 (by omega),
    hfield 40 8 (by omega)]

theorem loadSegment_congr {aspace : ℕ} {st : Loading} {ph : Phdr}
    (hlength : image'.length = image.length)
    (h : ∀ a ∈ segmentAccesses image st ph, a.Agree image image') :
    loadSegment image' aspace st ph = loadSegment image aspace st ph := by
  unfold segmentAccesses at h
  unfold loadSegment
  rw [hlength]
  split
  · rfl
  rename_i htype
  split
  · rfl
  rename_i hsize
  rw [if_neg htype, if_neg hsize] at h
  rcases halloc : st.mem.pmm.allocPages ph.pages with ⟨basePhys, p⟩
  rw [halloc] at h
  dsimp only at h ⊢
  split
  · rfl
  rename_i hbase
  rw [if_neg hbase] at h
  have hcopy := h _ List.mem_cons_self
  have hbytes : imageBytes image' ph.offset ph.filesz = imageBytes image ph.offset ph.filesz :=
    imageBytes_congr hcopy
  simp only [fillSegment, hbytes]

theorem loadSegments_congr {aspace : ℕ} (hlength : image'.length = image.length) {st : Loading}
    (h : ∀ a ∈ tableAccesses image aspace st, a.Agree image image') :
    ((List.range (Ehdr.read image).phnum).map ((Ehdr.read image).phdr image')).foldlM
        (loadSegment image' aspace) st =
      ((List.range (Ehdr.read image).phnum).map ((Ehdr.read image).phdr image)).foldlM
        (loadSegment image aspace) st := by
  rw [List.foldlM_map, List.foldlM_map]
  refine foldlM_congr_of_foldLog (fun st i hround => ?_) h
  obtain ⟨hheader, hsegment⟩ := List.forall_mem_cons.mp hround
  have hph : (Ehdr.read image).phdr image' i = (Ehdr.read image).phdr image i :=
    Phdr.read_congr hheader
  rw [hph, loadSegment_congr hlength hsegment]

/-- The loader depends on the length of the image and on the bytes that `loadAccesses` lists. -/
theorem load_congr (m : PhysMemory) (cr3 : ℕ) (argv : List (List UInt8))
    (hlength : image'.length = image.length)
    (h : ∀ a ∈ m.loadAccesses cr3 image, a.Agree image image') :
    m.load cr3 image' argv = m.load cr3 image argv := by
  unfold loadAccesses at h
  unfold load
  dsimp only
  by_cases hshort : image.length < ehdrSize
  · rw [if_pos (Or.inl (hlength ▸ hshort)), if_pos (Or.inl hshort)]
  rw [if_neg hshort] at h
  obtain ⟨hheader, h⟩ := List.forall_mem_cons.mp h
  have hread := Ehdr.read_congr hheader
  have hsupported : (Ehdr.read image).supported image' = (Ehdr.read image).supported image := by
    rw [Ehdr.supported, Ehdr.supported, hlength]
  rw [hread, hsupported, hlength]
  by_cases hbad : ¬ (Ehdr.read image).supported image
  · rw [if_pos (Or.inr hbad), if_pos (Or.inr hbad)]
  rw [if_neg hbad] at h
  rw [if_neg (not_or.mpr ⟨hshort, hbad⟩), if_neg (not_or.mpr ⟨hshort, hbad⟩)]
  rcases hnew : m.newAddressSpace cr3 with ⟨aspace, m₁⟩
  rw [hnew] at h
  dsimp only at h ⊢
  rw [loadSegments_congr hlength h]

end Agreement

/-! ### The reads are in bounds -/

/-- The entries of the program header table are as long as the headers that are read, and neither
the table nor a segment wraps around. -/
def NoWrap (image : List UInt8) : Prop :=
  ((Ehdr.read image).phnum = 0 ∨ phdrSize ≤ (Ehdr.read image).phentsize ∧
    (Ehdr.read image).phoff + (Ehdr.read image).phnum * (Ehdr.read image).phentsize < 2 ^ 64) ∧
  ∀ i < (Ehdr.read image).phnum, ((Ehdr.read image).phdr image i).type = ptLoad →
    ((Ehdr.read image).phdr image i).offset + ((Ehdr.read image).phdr image i).filesz < 2 ^ 64 ∧
    ((Ehdr.read image).phdr image i).vaddr % pageSize + ((Ehdr.read image).phdr image i).memsz <
      2 ^ 64

instance (image : List UInt8) : Decidable (NoWrap image) := by
  unfold NoWrap
  infer_instance

variable {image : List UInt8}

/-- A program header of the table. -/
theorem header_inBounds {eh : Ehdr} (hsupported : eh.supported image = true)
    (hsize : phdrSize ≤ eh.phentsize) (hend : eh.phoff + eh.phnum * eh.phentsize < 2 ^ 64) {i : ℕ}
    (hi : i < eh.phnum) : (LoadAccess.header (eh.phdrOffset i) phdrSize).InBounds image := by
  have htable : eh.phoff + eh.phnum * eh.phentsize ≤ image.length := by
    simp only [Ehdr.supported, Bool.and_eq_true, decide_eq_true_eq, Nat.mod_eq_of_lt hend]
      at hsupported
    exact hsupported.2
  have hnext : (i + 1) * eh.phentsize ≤ eh.phnum * eh.phentsize := Nat.mul_le_mul_right _ hi
  rw [Nat.succ_mul] at hnext
  rw [LoadAccess.InBounds, Ehdr.phdrOffset, Nat.mod_eq_of_lt (by omega)]
  omega

theorem vaddr_lt (image : List UInt8) (offset : ℕ) : (Phdr.read image offset).vaddr < 2 ^ 64 := by
  have hlt := leNat_lt (imageBytes image (offset + 16) 8)
  rwa [imageBytes, List.length_map, List.length_range] at hlt

/-- The number of pages of a segment that does not wrap around. -/
theorem le_pages {ph : Phdr} (hvaddr : ph.vaddr < 2 ^ 64)
    (h : ph.vaddr % pageSize + ph.memsz < 2 ^ 64) :
    ph.vaddr - ph.segStart + ph.memsz ≤ ph.pages * pageSize := by
  simp only [Phdr.pages, Phdr.segEnd, Phdr.segStart, divCeil, pageSize] at h ⊢
  have hsize : ((ph.vaddr + ph.memsz) % 2 ^ 64 + 2 ^ 64 - ph.vaddr / 4096 * 4096) % 2 ^ 64 =
      ph.vaddr % 4096 + ph.memsz := by omega
  rw [hsize]
  omega

theorem segmentAccesses_inBounds {st : Loading} {ph : Phdr} (hvaddr : ph.vaddr < 2 ^ 64)
    (h : ph.type = ptLoad → ph.offset + ph.filesz < 2 ^ 64 ∧
      ph.vaddr % pageSize + ph.memsz < 2 ^ 64) :
    ∀ a ∈ segmentAccesses image st ph, a.InBounds image := by
  unfold segmentAccesses
  split
  · simp
  rename_i htype
  split
  · simp
  rename_i hsize
  obtain ⟨hfile, hmem⟩ := h (not_not.mp htype)
  obtain ⟨hle, hfilesz⟩ := not_or.mp hsize
  rw [Nat.mod_eq_of_lt hfile] at hle
  have hpages := le_pages hvaddr hmem
  rcases st.mem.pmm.allocPages ph.pages with ⟨basePhys, p⟩
  dsimp only
  split
  · simp
  · intro a ha
    rw [List.mem_singleton.mp ha]
    exact ⟨by omega, by omega, by omega⟩

theorem tableAccesses_inBounds {aspace : ℕ}
    (hsupported : (Ehdr.read image).supported image = true) (h : NoWrap image) (st : Loading) :
    ∀ a ∈ tableAccesses image aspace st, a.InBounds image := by
  intro a ha
  obtain ⟨done, i, rest, st', his, -, ha⟩ := exists_of_mem_foldLog ha
  have hi : i < (Ehdr.read image).phnum := List.mem_range.mp (his ▸ by simp)
  obtain ⟨hsize, hend⟩ := h.1.resolve_left (by omega)
  rcases List.mem_cons.mp ha with rfl | ha
  · exact header_inBounds hsupported hsize hend hi
  · exact segmentAccesses_inBounds (vaddr_lt image _) (h.2 i hi) a ha

/-- A memory of 16 pages, of which the first one is used. -/
def sixteenPages : PhysMemory := ⟨fun _ => 0, ⟨fun page => page = 0, 16, 15, 0⟩, Heap.empty 0, 0⟩

/-- An image that consists of the ELF header only. -/
def headerOnly (phoff phentsize phnum : ℕ) : List UInt8 :=
  [0x7F, 0x45, 0x4C, 0x46, 2, 1] ++ List.replicate 12 0 ++ [62, 0] ++ List.replicate 12 0 ++
    leBytes 8 phoff ++ List.replicate 14 0 ++ leBytes 2 phentsize ++ leBytes 2 phnum ++
    List.replicate 6 0

/-- An image with a segment of four bytes at `vaddr`, which are those at its start. -/
def oneSegment (vaddr : ℕ) : List UInt8 :=
  headerOnly 64 56 1 ++ (leBytes 4 ptLoad ++ leBytes 4 0 ++ leBytes 8 0 ++ leBytes 8 vaddr ++
    leBytes 8 0 ++ leBytes 8 4 ++ leBytes 8 8 ++ leBytes 8 pageSize)

theorem load_congr_of_last_byte : sixteenPages.load 0 (oneSegment 0x400000 ++ [1]) [] =
    sixteenPages.load 0 (oneSegment 0x400000 ++ [0]) [] :=
  load_congr sixteenPages 0 [] rfl (by unfold LoadAccess.Agree; decide +kernel)

end PhysMemory

end AnssOS
