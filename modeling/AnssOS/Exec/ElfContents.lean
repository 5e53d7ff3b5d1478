import AnssOS.Exec.ElfBounds
import AnssOS.Exec.ElfShows

/-!
# The loaded image

The image that the program sees in its address space is the image of the file, unless a segment is
lost that shares a page with a later one.

### Outline

* `userByte`: the byte at a user address;
* `loaded_image_iff`: when the loaded image is the image of the file;
* `imageOf`: images with given program headers.
-/

namespace AnssOS

open List Option Function

namespace PhysMemory

/-! ### What the program sees -/

/-- The byte at a user address, looked up through the page tables. -/
def userByte (m : PhysMemory) (pml4 x : ℕ) : Option UInt8 :=
  (m.lookup pml4 x).map fun (phys, _) => m.ram (phys + x % pageSize)

theorem lookup_add (m : PhysMemory) (pml4 : ℕ) {v off : ℕ} (hv : v % pageSize = 0)
    (hoff : off < pageSize) : m.lookup pml4 (v + off) = m.lookup pml4 v := by
  have hpath : virtPath (v + off) = virtPath v := by
    unfold pageSize at hv hoff
    simp only [virtPath, tableIndex_eq, List.cons.injEq, and_true]
    omega
  rw [lookup, hpath, lookup]

theorem Shows.userByte {b m : PhysMemory} {aspace v off : ℕ} {kept pages extra : Set ℕ}
    {frame : ℕ → ℕ} {bytes : ℕ → UInt8} (h : Shows b kept aspace pages frame extra bytes m)
    (hv : v ∈ pages) (hoff : off < pageSize) :
    m.userByte aspace (v + off) = some (bytes (v + off)) := by
  obtain ⟨-, hmod⟩ := h.lower v hv
  have hrest : (v + off) % pageSize = off := by
    unfold pageSize at *
    omega
  rw [PhysMemory.userByte, lookup_add m aspace hmod hoff, h.lookup v hv, map_some, hrest]
  exact congrArg some (h.bytes v hv off hoff)

variable {image : List UInt8} {phs : List Phdr}

/-- The segments that are accepted are not larger in the file than in memory. -/
theorem filesz_le_of_foldlM {aspace : ℕ} {st st' : Loading}
    (h : phs.foldlM (loadSegment image aspace) st = .ok st') :
    ∀ ph ∈ segmentsOf phs, ph.filesz ≤ ph.memsz := by
  induction phs generalizing st with
  | nil => simp [segmentsOf]
  | cons ph phs ih =>
    obtain ⟨st₁, hround, hrest⟩ := foldlM_cons_eq_ok h
    intro q hq
    obtain ⟨hq, htype⟩ := mem_filter.mp hq
    have htype := of_decide_eq_true htype
    rcases mem_cons.mp hq with rfl | hq
    · rcases loadSegment_eq_ok hround with ⟨hne, -⟩ | ⟨-, basePhys, pmm, hchecks, -⟩
      · exact absurd htype hne
      · exact hchecks.1
    · exact ih hrest q (mem_filter.mpr ⟨hq, decide_eq_true htype⟩)

theorem filesz_le_of_load {m : PhysMemory} {cr3 : ℕ}
    {argv : List (List UInt8)} {img : LoadedImage} (himg : (m.load cr3 image argv).1 = some img) :
    ∀ ph ∈ segmentsOf (headers image), ph.filesz ≤ ph.memsz := by
  obtain ⟨_, _, -, hloop, -⟩ := load_eq_some himg
  exact filesz_le_of_foldlM hloop

/-- The address space `pml4` has the segments of the image as the file has them: first the bytes of
the file, then zeros, and zeros in what the segments leave free in their pages. -/
structure ImageLoaded (image : List UInt8) (segs : List Phdr) (pml4 : ℕ) (m : PhysMemory) :
    Prop where
  file : ∀ ph ∈ segs, ∀ k < ph.filesz, m.userByte pml4 (ph.vaddr + k) = image[ph.offset + k]?
  zeros : ∀ ph ∈ segs, ∀ k, ph.filesz ≤ k → k < ph.memsz → m.userByte pml4 (ph.vaddr + k) = some 0
  rest : ∀ ph ∈ segs, ∀ x, ph.InPages x → (∀ q ∈ segs, ¬ q.Contains x) →
    m.userByte pml4 x = some 0

/-- The segments of an image are apart from each other and below the stack, and their bytes are in
the file. -/
structure ProperSegments (image : List UInt8) : Prop where
  apart : Apartly (segmentsOf (headers image))
  below : ∀ ph ∈ segmentsOf (headers image), ph.vaddr + ph.memsz ≤ stackBase
  inFile : ∀ ph ∈ segmentsOf (headers image), ph.offset + ph.filesz ≤ image.length

theorem ProperSegments.fits (h : ProperSegments image) : ImageFits image := by
  intro i hi htype
  have hmem : (Ehdr.read image).phdr image i ∈ segmentsOf (headers image) :=
    mem_filter.mpr ⟨List.mem_map.mpr ⟨i, mem_range.mpr hi, rfl⟩, decide_eq_true htype⟩
  exact (h.below _ hmem).trans (by decide)

/-- The loaded image is the image of the file exactly if nothing is lost: whenever a segment has a
byte other than 0 in a page that a later one has as well, one of the first sixteen has it, too. -/
theorem loaded_image_iff {m : PhysMemory} {cr3 : ℕ} {image : List UInt8}
    {argv : List (List UInt8)} {img : LoadedImage} (hm : m.pmm.Sound)
    (hproper : ProperSegments image) (himg : (m.load cr3 image argv).1 = some img)
    (hok : (m.load cr3 image argv).2.tableFailures = m.tableFailures) :
    ImageLoaded image (segmentsOf (headers image)) img.pml4Phys (m.load cr3 image argv).2 ↔
      NothingLost image (segmentsOf (headers image)) := by
  have hsizes := filesz_le_of_load himg
  obtain ⟨b, stackPhys, m₁, frame, -, -, hshows⟩ := load_shows hm hproper.fits himg hok
  generalize (m.load cr3 image argv).2 = m' at hshows ⊢
  have hfit : ∀ ph ∈ segmentsOf (headers image), ph.vaddr + ph.memsz ≤ 2 ^ 47 := fun ph hph =>
    (hproper.below ph hph).trans (by decide)
  -- In the pages of the segments, the address space shows the picture.
  have hbyte : ∀ ph ∈ segmentsOf (headers image), ∀ x, ph.InPages x →
      m'.userByte img.pml4Phys x = some ((picture image (segmentsOf (headers image))).bytes x) := by
    intro ph hph x hx
    obtain ⟨-, -, -, hpages, -, -⟩ := segment_bounds (hfit ph hph)
    obtain ⟨q, hq, off, hoff, rfl⟩ := exists_page_of_run hx.1 hx.2
    obtain ⟨hmem, htype⟩ := mem_filter.mp hph
    have hv : ph.segStart + q * pageSize ∈ segmentsPages (headers image) :=
      ⟨ph, hmem, of_decide_eq_true htype, q, hq, rfl⟩
    have hbelow : ph.segStart + q * pageSize + off < stackBase := by
      have hlt := hpages q hq
      have hle := hproper.below ph hph
      have hbase : stackBase % pageSize = 0 := by decide
      have haligned : (ph.segStart + q * pageSize) % pageSize = 0 := by
        rw [Phdr.segStart, ← Nat.add_mul]
        exact Nat.mul_mod_left _ _
      unfold pageSize at hbase haligned hoff hlt ⊢
      omega
    rw [hshows.userByte (Or.inl hv) hoff, if_neg (by omega)]
  rw [← picture_right_iff hproper.apart hfit]
  constructor
  · intro hloaded ph hph x hx
    have hshown := hbyte ph hph x (hx.inPages (hfit ph hph))
    obtain ⟨k, rfl⟩ := Nat.exists_eq_add_of_le hx.1
    have hk : k < ph.memsz := by
      have := hx.2
      omega
    by_cases hfile : k < ph.filesz
    · have hin := hproper.inFile ph hph
      rw [hloaded.file ph hph k hfile, getElem?_eq_getElem (by omega)] at hshown
      rw [← some.inj hshown, Phdr.byte, if_pos (by omega), Nat.add_sub_cancel_left,
        getD_eq_getElem _ _ (by omega)]
    · rw [hloaded.zeros ph hph k (by omega) hk] at hshown
      rw [← some.inj hshown, Phdr.byte, if_neg (by omega)]
  · intro hright
    have hcontains : ∀ ph ∈ segmentsOf (headers image), ∀ k < ph.memsz,
        m'.userByte img.pml4Phys (ph.vaddr + k) = some (ph.byte image (ph.vaddr + k)) := by
      intro ph hph k hk
      have hx : ph.Contains (ph.vaddr + k) := ⟨by omega, by omega⟩
      rw [hbyte ph hph _ (hx.inPages (hfit ph hph)), hright ph hph _ hx]
    refine ⟨fun ph hph k hk => ?_, fun ph hph k hle hlt => ?_, fun ph hph x hx hfree => ?_⟩
    · have hin := hproper.inFile ph hph
      have hsize := hsizes ph hph
      rw [hcontains ph hph k (by omega), Phdr.byte, if_pos (by omega), Nat.add_sub_cancel_left,
        getElem?_eq_getElem (by omega), getD_eq_getElem _ _ (by omega)]
    · rw [hcontains ph hph k hlt, Phdr.byte, if_neg (by omega)]
    · rw [hbyte ph hph x hx, bytes_of_outside hfree]

theorem upperHalf_sound : upperHalf.pmm.Sound := upperHalf_kernelMapped.sound

/-- A program header. -/
def phdrBytes (ph : Phdr) : List UInt8 :=
  leBytes 4 ph.type ++ leBytes 4 0 ++ leBytes 8 ph.offset ++ leBytes 8 ph.vaddr ++ leBytes 8 0 ++
    leBytes 8 ph.filesz ++ leBytes 8 ph.memsz ++ leBytes 8 pageSize

/-- An image with the given program headers right behind the ELF header. -/
def imageOf (phs : List Phdr) : List UInt8 :=
  headerOnly 64 phdrSize phs.length ++ phs.flatMap phdrBytes

/-- The field of an image at the place where it was put. -/
theorem imageField_of_append (before after : List UInt8) {at' n v : ℕ}
    (h : image = before ++ (leBytes n v ++ after)) (hat : at' = before.length) (hv : v < 256 ^ n) :
    imageField image at' n = v := by
  have hbytes : imageBytes image at' n = leBytes n v := by
    apply ext_getElem
    · simp [imageBytes]
    · intro k hk hk'
      rw [length_leBytes] at hk'
      simp only [imageBytes, getElem_map, getElem_range]
      rw [h, hat, getD_append_right _ _ _ _ (by omega), Nat.add_sub_cancel_left,
        getD_append _ _ _ _ (by simpa using hk'), getD_eq_getElem _ _ (by simpa using hk')]
  rw [imageField, hbytes, leNat_leBytes, Nat.mod_eq_of_lt hv]

/-- The fields have the widths that they have in the file. -/
def FieldsFit (ph : Phdr) : Prop :=
  ph.type < 2 ^ 32 ∧ ph.offset < 2 ^ 64 ∧ ph.vaddr < 2 ^ 64 ∧ ph.filesz < 2 ^ 64 ∧ ph.memsz < 2 ^ 64

theorem length_phdrBytes (ph : Phdr) : (phdrBytes ph).length = phdrSize := by
  simp [phdrBytes, phdrSize]

theorem phdr_read_of_append (before after : List UInt8) {ph : Phdr}
    {offset : ℕ} (h : image = before ++ (phdrBytes ph ++ after)) (hoffset : offset = before.length)
    (hph : FieldsFit ph) : Phdr.read image offset = ph := by
  obtain ⟨htype, hfile, hvaddr, hfilesz, hmemsz⟩ := hph
  have hbytes : ∀ rest, phdrBytes ph ++ rest = leBytes 4 ph.type ++ (leBytes 4 0 ++
      (leBytes 8 ph.offset ++ (leBytes 8 ph.vaddr ++ (leBytes 8 0 ++ (leBytes 8 ph.filesz ++
        (leBytes 8 ph.memsz ++ (leBytes 8 pageSize ++ rest))))))) := by
    intro rest
    simp only [phdrBytes, List.append_assoc]
  rw [hbytes] at h
  have h₁ : imageField image offset 4 = ph.type := imageField_of_append before _ h hoffset htype
  have h₂ : imageField image (offset + 8) 8 = ph.offset :=
    imageField_of_append (before ++ leBytes 4 ph.type ++ leBytes 4 0) _
      (by rw [h]; simp only [List.append_assoc]; rfl) (by simp [hoffset]) hfile
  have h₃ : imageField image (offset + 16) 8 = ph.vaddr :=
    imageField_of_append (before ++ leBytes 4 ph.type ++ leBytes 4 0 ++ leBytes 8 ph.offset) _
      (by rw [h]; simp only [List.append_assoc]; rfl) (by simp [hoffset]) hvaddr
  have h₄ : imageField image (offset + 32) 8 = ph.filesz :=
    imageField_of_append (before ++ leBytes 4 ph.type ++ leBytes 4 0 ++ leBytes 8 ph.offset ++
        leBytes 8 ph.vaddr ++ leBytes 8 0) _
      (by rw [h]; simp only [List.append_assoc]; rfl) (by simp [hoffset]) hfilesz
  have h₅ : imageField image (offset + 40) 8 = ph.memsz :=
    imageField_of_append (before ++ leBytes 4 ph.type ++ leBytes 4 0 ++ leBytes 8 ph.offset ++
        leBytes 8 ph.vaddr ++ leBytes 8 0 ++ leBytes 8 ph.filesz) _
      (by rw [h]; simp only [List.append_assoc]; rfl) (by simp [hoffset]) hmemsz
  rw [Phdr.read, h₁, h₂, h₃, h₄, h₅]

theorem headers_imageOf (hphs : ∀ ph ∈ phs, FieldsFit ph)
    (hlength : phs.length < 2 ^ 16) : headers (imageOf phs) = phs := by
  have hphoff : (Ehdr.read (imageOf phs)).phoff = 64 :=
    imageField_of_append ([0x7F, 0x45, 0x4C, 0x46, 2, 1] ++ List.replicate 12 0 ++ [62, 0] ++
      List.replicate 12 0) _ (by simp only [imageOf, headerOnly, List.append_assoc]; rfl) (by simp)
      (by decide)
  have hphentsize : (Ehdr.read (imageOf phs)).phentsize = phdrSize :=
    imageField_of_append ([0x7F, 0x45, 0x4C, 0x46, 2, 1] ++ List.replicate 12 0 ++ [62, 0] ++
      List.replicate 12 0 ++ leBytes 8 64 ++ List.replicate 14 0) _
      (by simp only [imageOf, headerOnly, List.append_assoc]; rfl) (by simp) (by decide)
  have hphnum : (Ehdr.read (imageOf phs)).phnum = phs.length :=
    imageField_of_append ([0x7F, 0x45, 0x4C, 0x46, 2, 1] ++ List.replicate 12 0 ++ [62, 0] ++
      List.replicate 12 0 ++ leBytes 8 64 ++ List.replicate 14 0 ++ leBytes 2 phdrSize) _
      (by simp only [imageOf, headerOnly, List.append_assoc]; rfl) (by simp) hlength
  apply ext_getElem
  · simp [headers, hphnum]
  · intro i hi hi'
    simp only [headers, getElem_map, getElem_range]
    have hmod : (64 + i * phdrSize) % 2 ^ 64 = 64 + i * phdrSize := by
      unfold phdrSize
      omega
    have hsplit : phs = phs.take i ++ phs[i] :: phs.drop (i + 1) := by simp
    have hblocks : phs.flatMap phdrBytes = (phs.take i).flatMap phdrBytes ++
        (phdrBytes phs[i] ++ (phs.drop (i + 1)).flatMap phdrBytes) := by
      conv_lhs => rw [hsplit, flatMap_append, flatMap_cons]
    have htaken : ((phs.take i).flatMap phdrBytes).length = i * phdrSize := by
      simp [length_flatMap, length_phdrBytes, hi'.le]
    rw [Ehdr.phdr, hphoff, hphentsize, hmod]
    refine phdr_read_of_append (headerOnly 64 phdrSize phs.length ++
      (phs.take i).flatMap phdrBytes) ((phs.drop (i + 1)).flatMap phdrBytes) ?_ ?_
      (hphs _ (getElem_mem hi'))
    · rw [imageOf, hblocks, List.append_assoc]
    · rw [length_append, htaken]
      simp [headerOnly]

theorem properSegments_imageOf (hphs : ∀ ph ∈ phs, FieldsFit ph)
    (hlength : phs.length < 2 ^ 16) (htype : ∀ ph ∈ phs, ph.type = ptLoad)
    (hranges : phs.Pairwise fun ph q =>
      ph.vaddr + ph.memsz ≤ q.vaddr ∨ q.vaddr + q.memsz ≤ ph.vaddr)
    (hbelow : ∀ ph ∈ phs, ph.vaddr + ph.memsz ≤ stackBase)
    (hfile : ∀ ph ∈ phs, ph.offset + ph.filesz ≤ (imageOf phs).length) :
    segmentsOf (headers (imageOf phs)) = phs ∧ ProperSegments (imageOf phs) := by
  have hsegs : segmentsOf (headers (imageOf phs)) = phs := by
    rw [headers_imageOf hphs hlength]
    exact filter_eq_self.mpr fun ph hph => decide_eq_true (htype ph hph)
  refine ⟨hsegs, ?_, ?_, ?_⟩
  · rw [hsegs]
    exact apartly_of_ranges hranges
  · rwa [hsegs]
  · rwa [hsegs]

/-- A segment of eight bytes, of which the file has four. -/
def tinyPhdr (vaddr : ℕ) : Phdr := ⟨ptLoad, 0, vaddr, 4, 8⟩

/-- Two segments in one page. -/
def twoPhdrs : List Phdr := [tinyPhdr 0x400000, tinyPhdr 0x400010]

/-- The theorem at an image with two segments in one page. -/
theorem loaded_image_of_two_segments :
    ∃ img, (upperHalf.load 4096 (imageOf twoPhdrs) []).1 = some img ∧
      ImageLoaded (imageOf twoPhdrs) (segmentsOf (headers (imageOf twoPhdrs))) img.pml4Phys
        (upperHalf.load 4096 (imageOf twoPhdrs) []).2 := by
  obtain ⟨hsegs, hproper⟩ : segmentsOf (headers (imageOf twoPhdrs)) = twoPhdrs ∧
      ProperSegments (imageOf twoPhdrs) :=
    properSegments_imageOf (by unfold FieldsFit; decide) (by decide) (by decide) (by decide)
      (by decide) (by decide +kernel)
  obtain ⟨img, himg⟩ := isSome_iff_exists.mp
    (show (upperHalf.load 4096 (imageOf twoPhdrs) []).1.isSome by decide +kernel)
  refine ⟨img, himg, (loaded_image_iff upperHalf_sound hproper himg (by decide +kernel)).mpr ?_⟩
  exact nothingLost_of_length_le (fun ph hph => (hproper.below ph hph).trans (by decide))
    (by rw [hsegs]; decide)

/-- Sixteen segments in one page, and then two in another. -/
def crowdedPhdrs : List Phdr :=
  (List.range 16).map (fun k => tinyPhdr (0x400000 + 16 * k)) ++
    [tinyPhdr 0x500000, tinyPhdr 0x500010]

theorem load_crowded : ∃ img m, upperHalf.load 4096 (imageOf crowdedPhdrs) [] = (some img, m) ∧
    m.tableFailures = 0 ∧ m.userByte img.pml4Phys 0x500000 = some 0 := by
  have hsupported : ¬ ((imageOf crowdedPhdrs).length < ehdrSize ∨
      ¬ (Ehdr.read (imageOf crowdedPhdrs)).supported (imageOf crowdedPhdrs)) := by decide +kernel
  have hresult : (match upperHalf.load 4096 (imageOf crowdedPhdrs) [] with
      | (img, m) => img.map fun img => (m.tableFailures, m.userByte img.pml4Phys 0x500000)) =
        some (0, some 0) := by
    rcases hnew : upperHalf.newAddressSpace 4096 with ⟨aspace, b⟩
    rw [load_eq [] hsupported hnew, headers_imageOf (by unfold FieldsFit; decide) (by decide)]
    obtain ⟨rfl, rfl⟩ := Prod.mk.inj hnew
    decide +kernel
  generalize upperHalf.load 4096 (imageOf crowdedPhdrs) [] = result at hresult ⊢
  obtain ⟨_ | img, m⟩ := result
  · cases hresult
  · obtain ⟨hfail, hbyte⟩ := Prod.mk.inj (some.inj hresult)
    exact ⟨img, m, rfl, hfail, hbyte⟩

/-- The loader does not remember the seventeenth segment, and the eighteenth, in the same page,
leaves nothing of it. -/
theorem seventeenth_segment_lost :
    ProperSegments (imageOf crowdedPhdrs) ∧
      ∃ img, (upperHalf.load 4096 (imageOf crowdedPhdrs) []).1 = some img ∧
        (upperHalf.load 4096 (imageOf crowdedPhdrs) []).2.tableFailures =
          upperHalf.tableFailures ∧
        ¬ ImageLoaded (imageOf crowdedPhdrs) (segmentsOf (headers (imageOf crowdedPhdrs)))
          img.pml4Phys (upperHalf.load 4096 (imageOf crowdedPhdrs) []).2 := by
  obtain ⟨hsegs, hproper⟩ : segmentsOf (headers (imageOf crowdedPhdrs)) = crowdedPhdrs ∧
      ProperSegments (imageOf crowdedPhdrs) :=
    properSegments_imageOf (by unfold FieldsFit; decide) (by decide) (by decide)
      (by decide +kernel) (by decide) (by decide +kernel)
  obtain ⟨img, m, hload, hfail, hbyte⟩ := load_crowded
  rw [hload, hsegs]
  refine ⟨hproper, img, rfl, hfail, fun hloaded => ?_⟩
  have hmem : tinyPhdr 0x500000 ∈ crowdedPhdrs := mem_append_right _ mem_cons_self
  have hfirst : (imageOf crowdedPhdrs)[0]? = some 0x7F := rfl
  have hfile := hloaded.file _ hmem 0 (by decide)
  change m.userByte img.pml4Phys 0x500000 = (imageOf crowdedPhdrs)[0]? at hfile
  rw [hbyte, hfirst] at hfile
  exact absurd hfile (by decide)

end PhysMemory

end AnssOS
