import AnssOS.Fs.Replay

/-!
# Saving a tree and loading it again

The bytes that `save` writes for a tree are the records of its listing, and loading them again builds
the same tree with the order of the children reversed in every directory, since each record becomes
the first child.  A failed save is only harmless if the old tree can still be read with the size that
is then in the superblock.

### Outline

* `serialize` writes the records of the listing, and the listing of a tidy tree is sound;
* `Disk.Stores`: a disk from which given records can be loaded, and what `save` leaves;
* a save and a load give the mirrored tree, and two of each the tree itself;
* a failed save, after which the previous tree is still there.
-/

namespace AnssOS

/-! ### The bytes of a tree -/

namespace Listing

theorem count_records (l : Listing) : l.records.count = l.count := by
  induction l with
  | nil => rfl
  | file name data rest ih => rw [records, Records.count, ih, count]
  | dir name inside rest _ ih => rw [records, Records.count, ih, count]

theorem count_le_length (l : Listing) : l.count ≤ l.records.encode.length := by
  induction l with
  | nil => exact le_rfl
  | file name data rest ih =>
    simp only [count, records, Records.encode, List.length_append, length_headerBytes]
    omega
  | dir name inside rest _ ih =>
    simp only [count, records, Records.encode, List.length_append, length_headerBytes]
    omega

/-- Sound entries of less than `2 ^ 32` bytes fit the fields of the records. -/
theorem sized_records {l : Listing} (h : l.Sound) (hlen : l.records.encode.length < 2 ^ 32) :
    l.records.Sized := by
  induction l with
  | nil => trivial
  | file name data rest ih =>
    have hname := h.1.length_le
    simp only [records, Records.encode, List.length_append] at hlen
    refine ⟨?_, by omega, ih h.2.2.2 (by omega)⟩
    unfold nameMax at hname ⊢
    omega
  | dir name inside rest ihi ih =>
    have hname := h.1.length_le
    simp only [records, Records.encode, List.length_append] at hlen
    have hcount := inside.count_le_length
    rw [← count_records] at hcount
    refine ⟨by decide, ?_, by omega, ihi h.2.2.2.1 (by omega), ih h.2.2.2.2 (by omega)⟩
    unfold nameMax at hname ⊢
    omega

theorem names_append (l m : Listing) : (l.append m).names = l.names ++ m.names := by
  induction l with
  | nil => rfl
  | file name data rest ih => rw [append, names, names, ih, List.cons_append]
  | dir name inside rest _ ih => rw [append, names, names, ih, List.cons_append]

theorem names_mirror (l : Listing) : l.mirror.names = l.names.reverse := by
  induction l with
  | nil => rfl
  | file name data rest ih => rw [mirror, names_append, ih, names, names, names, List.reverse_cons]
  | dir name inside rest _ ih =>
    rw [mirror, names_append, ih, names, names, names, List.reverse_cons]

theorem sound_append {l m : Listing} (hl : l.Sound) (hm : m.Sound)
    (hdisjoint : ∀ name ∈ l.names, name ∉ m.names) : (l.append m).Sound := by
  induction l with
  | nil => exact hm
  | file name data rest ih =>
    obtain ⟨hvalid, hnew, hdot, hrest⟩ := hl
    refine ⟨hvalid, ?_, hdot, ih hrest fun n hn => hdisjoint n (List.mem_cons_of_mem _ hn)⟩
    rw [names_append, List.mem_append]
    exact fun hmem => hmem.elim hnew (hdisjoint name List.mem_cons_self)
  | dir name inside rest _ ih =>
    obtain ⟨hvalid, hnew, hdot, hinside, hrest⟩ := hl
    refine ⟨hvalid, ?_, hdot, hinside,
      ih hrest fun n hn => hdisjoint n (List.mem_cons_of_mem _ hn)⟩
    rw [names_append, List.mem_append]
    exact fun hmem => hmem.elim hnew (hdisjoint name List.mem_cons_self)

theorem sound_mirror {l : Listing} (h : l.Sound) : l.mirror.Sound := by
  induction l with
  | nil => trivial
  | file name data rest ih =>
    obtain ⟨hvalid, hnew, hdot, hrest⟩ := h
    refine sound_append (ih hrest) ⟨hvalid, by simp [names], hdot, trivial⟩ fun n hn hmem => ?_
    rw [names_mirror, List.mem_reverse] at hn
    rw [List.mem_singleton.mp hmem] at hn
    exact hnew hn
  | dir name inside rest ihi ih =>
    obtain ⟨hvalid, hnew, hdot, hinside, hrest⟩ := h
    refine sound_append (ih hrest)
      ⟨hvalid, by simp [names], fun hd => by rw [hdot hd]; rfl, ihi hinside, trivial⟩
      fun n hn hmem => ?_
    rw [names_mirror, List.mem_reverse] at hn
    rw [List.mem_singleton.mp hmem] at hn
    exact hnew hn

theorem records_append (l m : Listing) : (l.append m).records = l.records.append m.records := by
  induction l with
  | nil => rfl
  | file name data rest ih => rw [append, records, records, ih, Records.append]
  | dir name inside rest _ ih => rw [append, records, records, ih, Records.append]

/-- The mirrored entries take as many bytes. -/
theorem length_encode_mirror (l : Listing) :
    l.mirror.records.encode.length = l.records.encode.length := by
  induction l with
  | nil => rfl
  | file name data rest ih =>
    simp only [mirror, records_append, Records.encode_append, records, Records.encode,
      List.length_append, ih, List.append_nil]
    omega
  | dir name inside rest ihi ih =>
    simp only [mirror, records_append, Records.encode_append, records, Records.encode,
      List.length_append, ih, ihi, List.append_nil, length_leBytes]
    omega

end Listing

namespace Vfs

variable {fs fs' : Vfs} {l : Listing}

theorem flatMap_serialize {n : ℕ} {ps : List ℕ} (h : listing n fs ps = some l) :
    ps.flatMap (serialize n fs) = l.records.encode := by
  induction n generalizing ps l with
  | zero =>
    rw [listing] at h
    split at h
    · rename_i hps
      rw [hps, ← Option.some.inj h]
      rfl
    · cases h
  | succ n ihn =>
    induction ps generalizing l with
    | nil =>
      rw [← Option.some.inj h]
      rfl
    | cons p ps ih =>
      obtain ⟨v, rest, hv, hrest, hentry⟩ := listing_cons_eq_some_iff.mp h
      have hname : fs.nameOf p = v.name := by rw [nameOf, hv]; rfl
      have hdata : fs.dataOf p = v.data := by rw [dataOf, hv]; rfl
      rw [List.flatMap_cons, ih hrest, serialize]
      rcases hentry with ⟨hkind, rfl⟩ | ⟨hkind, inside, hinside, rfl⟩
      · have hdir : fs.isDir p = false := by rw [isDir, hv]; simp [hkind]
        simp [hdir, hname, hdata, Listing.records, Records.encode, headerBytes]
      · have hdir : fs.isDir p = true := by rw [isDir, hv]; simp [hkind]
        have hcount : (fs.children p).length = inside.records.count := by
          rw [Listing.count_records, ← Listing.length_names, (holds_of_listing hinside).names,
            List.length_map]
        simp [hdir, hname, hcount, ihn hinside, Listing.records, Records.encode, headerBytes]

theorem savedBytes_ne_nil (fs : Vfs) : fs.savedBytes ≠ [] := by
  rw [savedBytes, serialize]
  split <;> simp

/-- A tree is saved as the records of its listing. -/
theorem savedBytes_eq (hdir : fs.isDir fs.root = true) (hname : fs.nameOf fs.root = [])
    (hl : fs.contents = some l) : fs.savedBytes = rootRecord 0 [] l.records := by
  have hcount : (fs.children fs.root).length = l.records.count := by
    rw [Listing.count_records, ← Listing.length_names, (holds_of_listing hl).names, List.length_map]
  rw [savedBytes, serialize]
  simp [hdir, hname, hcount, flatMap_serialize hl, rootRecord, headerBytes]

/-- The entries of a tidy tree are sound. -/
theorem Tidy.sound_of_holds (h : Tidy fs) {ps : List ℕ}
    (hps : ∀ p ∈ ps, p ∈ fs.live ∧ ∃ u, fs.links.up p = some u) (hnodup : (ps.map fs.nameOf).Nodup)
    (hl : fs.Holds l ps) : l.Sound := by
  induction l generalizing ps with
  | nil => trivial
  | file name data rest ih =>
    cases ps with
    | nil => exact hl.elim
    | cons p ps =>
      obtain ⟨⟨v, hv, -, rfl, rfl⟩, hrest⟩ := hl
      obtain ⟨hp, u, hup⟩ := hps p List.mem_cons_self
      obtain ⟨hnew, hnodup⟩ := List.nodup_cons.mp hnodup
      have hname : fs.nameOf p = v.name := by rw [nameOf, hv]; rfl
      rw [hname] at hnew
      refine ⟨hname ▸ h.tree.grove.valid hp hup, by rwa [hrest.names], fun hdot => ?_,
        ih (fun q hq => hps q (List.mem_cons_of_mem p hq)) hnodup hrest⟩
      have hvacant := (h.dots p hp (hname.symm ▸ hdot)).2
      rw [dataOf, hv] at hvacant
      exact hvacant
  | dir name inside rest ihi ih =>
    cases ps with
    | nil => exact hl.elim
    | cons p ps =>
      obtain ⟨⟨v, hv, -, rfl⟩, hinside, hrest⟩ := hl
      obtain ⟨hp, u, hup⟩ := hps p List.mem_cons_self
      obtain ⟨hnew, hnodup⟩ := List.nodup_cons.mp hnodup
      have hname : fs.nameOf p = v.name := by rw [nameOf, hv]; rfl
      rw [hname] at hnew
      refine ⟨hname ▸ h.tree.grove.valid hp hup, by rwa [hrest.names], fun hdot => ?_,
        ihi (fun c hc => ?_) (h.tree.grove.distinct hp) hinside,
        ih (fun q hq => hps q (List.mem_cons_of_mem p hq)) hnodup hrest⟩
      · have hvacant := (h.dots p hp (hname.symm ▸ hdot)).1
        have hempty : fs.children p = [] := h.tree.children_of_chain hp (by rw [hvacant]; rfl)
        rw [hempty] at hinside
        cases inside <;> first | rfl | exact hinside.elim
      · obtain ⟨hc, hcup⟩ := (h.tree.grove.forest.mem_kids hp).mp hc
        exact ⟨hc, p, hcup⟩

theorem Tidy.exists_sound (h : Tidy fs) : ∃ l, fs.contents = some l ∧ l.Sound := by
  obtain ⟨l, hl⟩ := h.tree.exists_contents
  have hroot := h.tree.root_live
  refine ⟨l, hl, h.sound_of_holds (fun c hc => ?_) (h.tree.grove.distinct hroot)
    (holds_of_listing hl)⟩
  obtain ⟨hc, hup⟩ := (h.tree.grove.forest.mem_kids hroot).mp hc
  exact ⟨hc, fs.root, hup⟩

end Vfs

/-- What the root holds after entries have appeared in the empty root. -/
theorem Vfs.Grown.contents_of_init {fs : Vfs} {l : Listing}
    (h : Vfs.Grown Vfs.init fs Vfs.init.root l) :
    fs.nameOf fs.root = [] ∧ fs.contents = some l := by
  constructor
  · obtain ⟨o, ho⟩ := h.parent _ (Vfs.nodes_alloc_self _ [] .dir)
    rw [h.root]
    exact congrArg (fun v => (v.map (·.name)).getD []) ho
  · rw [h.tree.contents_eq_some_iff, h.root]
    obtain ⟨new, hadded, hholds⟩ := h.added
    rw [hadded, show Vfs.init.children Vfs.init.root = [] from rfl, List.append_nil]
    exact hholds

/-! ### Loading -/

namespace Disk

variable {disk : Disk} {size : ℕ} {bs : List UInt8} {l : Listing}

/-- The superblock announces `size` bytes of data, and the data begins with `bs`. -/
structure Stores (disk : Disk) (size : ℕ) (bs : List UInt8) : Prop where
  ready : disk.ready = true
  superblock : disk.superblock = some (magic, version, size)
  served : disk.readOk 1 (requestBytes (sectorsFor size)) = true
  data : disk.bytes.readBytes sectorSize bs.length = bs

theorem sectorsFor_bounds (size : ℕ) : size ≤ sectorsFor size * sectorSize ∧
    sectorsFor size * sectorSize < size + sectorSize := by
  unfold sectorsFor sectorSize
  omega

theorem requestBytes_sectorsFor (hsize : size ≤ 2 ^ 32 - 512) :
    requestBytes (sectorsFor size) = sectorsFor size * sectorSize := by
  have := sectorsFor_bounds size
  unfold requestBytes
  unfold sectorsFor sectorSize at *
  omega

theorem bufferSize_eq (hsize : size ≤ 2 ^ 32 - 512) :
    bufferSize size = sectorsFor size * sectorSize := by
  have := sectorsFor_bounds size
  unfold bufferSize
  unfold sectorsFor sectorSize at *
  omega

/-- The slice that the records are read from. -/
theorem window_eq (hsize : size ≤ 2 ^ 32 - 512) (ram : ByteMemory) :
    window (ram.readBytes sectorSize (sectorsFor size * sectorSize)) size =
      ram.readBytes sectorSize size := by
  have hle := (sectorsFor_bounds size).1
  rw [window, bufferSize_eq hsize, List.take_append_of_le_length,
    ByteMemory.take_readBytes _ _ hle]
  simpa using hle

/-- Records that are stored are loaded, whatever follows them. -/
theorem load_of_stores (h : disk.Stores size (rootRecord 0 [] l.records))
    (hsize : size ≤ 2 ^ 32 - 512) (hlen : (rootRecord 0 [] l.records).length ≤ size)
    (hl : l.Sound) : ∃ fs', disk.load Vfs.init = some (true, fs') ∧ fs'.IsTree ∧
      fs'.nameOf fs'.root = [] ∧ fs'.contents = some l.mirror := by
  have hencode : l.records.encode.length < 2 ^ 32 := by
    simp only [rootRecord, List.length_append] at hlen
    omega
  have hsized := Listing.sized_records hl hencode
  have hcount : l.records.count < 2 ^ 32 := by
    rw [Listing.count_records]
    exact l.count_le_length.trans_lt hencode
  -- the replay, on the empty root
  obtain ⟨fs', hreplay⟩ := Records.exists_replay hl hsized Vfs.isTree_init
    (show Vfs.init.isDir Vfs.init.root = true from rfl) fun name _ hmem => by cases hmem
  have hgrown := Records.grown_of_replay hsized (Listing.plain_records hl) Vfs.isTree_init
    (show Vfs.init.isDir Vfs.init.root = true from rfl) hreplay
  rw [Listing.listing_records] at hgrown
  have hwindow := disk.bytes.length_readBytes sectorSize size
  have hlies : Lies (disk.bytes.readBytes sectorSize size) 0 (rootRecord 0 [] l.records) := by
    have hbegin := (disk.bytes.take_readBytes sectorSize hlen).trans h.data
    refine ⟨[], (disk.bytes.readBytes sectorSize size).drop (rootRecord 0 [] l.records).length,
      ?_, rfl⟩
    rw [List.nil_append]
    conv_lhs => rw [← List.take_append_drop (rootRecord 0 [] l.records).length
      (disk.bytes.readBytes sectorSize size), hbegin]
  have hread : disk.read 1 (sectorsFor size) =
      some (disk.bytes.readBytes sectorSize (sectorsFor size * sectorSize)) := by
    rw [read, if_pos h.served, requestBytes_sectorsFor hsize, Nat.one_mul]
  have hnode : Vfs.readerNode (size + 1) (disk.bytes.readBytes sectorSize size) none 0 Vfs.init =
      (some (rootRecord 0 [] l.records).length, fs') :=
    (Vfs.readerNode_root_eq_some_iff (by omega) hwindow.le).mpr
      ⟨0, [], l.records, by decide, by decide, hcount, hsized, hlies, rfl, hreplay⟩
  have hpositive : size ≠ 0 := by
    have : 0 < (rootRecord 0 [] l.records).length := by simp [rootRecord, headerBytes]
    omega
  have hbuffer := (sectorsFor_bounds size).1
  refine ⟨fs', ?_, hgrown.tree, ?_, ?_⟩
  · have hfits : ¬ bufferSize size > isizeMax := by
      rw [bufferSize_eq hsize]
      have := (sectorsFor_bounds size).2
      unfold isizeMax
      unfold sectorsFor sectorSize at *
      omega
    rw [load, h.ready, h.superblock]
    simp only [Bool.not_true, Bool.false_eq_true, if_false, ne_eq, not_true_eq_false, hpositive,
      or_self]
    rw [if_neg hfits, hread]
    dsimp only
    rw [if_neg (by rw [bufferSize_eq hsize]; omega), window_eq hsize, hnode]
  · exact hgrown.contents_of_init.1
  · exact hgrown.contents_of_init.2

/-! ### Saving -/

theorem length_padded (data : List UInt8) :
    (padded data).length = sectorsFor data.length * sectorSize := by
  have := (sectorsFor_bounds data.length).1
  rw [padded, List.length_append, List.length_replicate]
  omega

variable {fs : Vfs}

/-- The disk after the superblock was written. -/
def withSuperblock (disk : Disk) (size : ℕ) : Disk :=
  { disk with bytes := disk.bytes.writeBytes 0 (superblockBytes size) }

theorem length_superblockBytes (size : ℕ) : (superblockBytes size).length = sectorSize := by
  rw [superblockBytes, List.length_append, List.length_append, List.length_append, length_leBytes,
    length_leBytes, length_leBytes, List.length_replicate]
  rfl

/-- What `save` does on a disk that the tree fits. -/
theorem save_eq (hready : disk.ready = true)
    (hfits : 1 + sectorsFor fs.savedBytes.length ≤ disk.capacity) :
    disk.save fs = if disk.writeOk 0 sectorSize then
        (disk.withSuperblock fs.savedBytes.length).write 1 (padded fs.savedBytes)
          (sectorsFor fs.savedBytes.length)
      else (false, disk) := by
  have hpositive : sectorsFor fs.savedBytes.length > 0 := by
    have hle := (sectorsFor_bounds fs.savedBytes.length).1
    have hlen := List.length_pos_iff.mpr fs.savedBytes_ne_nil
    exact Nat.pos_of_mul_pos_right (hlen.trans_le hle)
  have hwrite : disk.write 0 (superblockBytes fs.savedBytes.length) 1 =
      if disk.writeOk 0 sectorSize then (true, disk.withSuperblock fs.savedBytes.length)
      else (false, disk) := by
    rw [write, show requestBytes 1 = sectorSize from rfl, List.take_of_length_le]
    · rfl
    · rw [length_superblockBytes]
  rw [save, hready]
  simp only [Bool.not_true, Bool.false_eq_true, if_false]
  rw [if_neg (by omega), hwrite]
  cases disk.writeOk 0 sectorSize with
  | false => rfl
  | true => simp [hpositive]

theorem superblock_eq (hread : disk.readOk 0 sectorSize = true)
    (h : disk.bytes.readBytes 0 sectorSize = superblockBytes size) (hsize : size < 2 ^ 64) :
    disk.superblock = some (magic, version, size) := by
  have hsb : disk.read 0 1 = some (superblockBytes size) := by
    rw [read, show requestBytes 1 = sectorSize from rfl, if_pos hread, Nat.zero_mul, h]
  have hmagic : (superblockBytes size).take 4 = leBytes 4 magic := rfl
  have hversion : ((superblockBytes size).drop 4).take 4 = leBytes 4 version := rfl
  have htotal : ((superblockBytes size).drop 8).take 8 = leBytes 8 size := rfl
  rw [superblock, hsb, Option.map_some, hmagic, hversion, htotal, leNat_leBytes, leNat_leBytes,
    leNat_leBytes, Nat.mod_eq_of_lt (show size < 256 ^ 8 by omega)]
  rfl

/-- Every read of sectors of the disk is served. -/
def ReadsServed (disk : Disk) : Prop :=
  ∀ sector n, sector * sectorSize + n ≤ disk.capacity * sectorSize → disk.readOk sector n = true

/-- Every write of sectors of the disk is served. -/
def WritesServed (disk : Disk) : Prop :=
  ∀ sector n, sector * sectorSize + n ≤ disk.capacity * sectorSize → disk.writeOk sector n = true

section Requests

variable (hfits : 1 + sectorsFor size ≤ disk.capacity)

include hfits

theorem superblock_fits : 0 * sectorSize + sectorSize ≤ disk.capacity * sectorSize := by
  unfold sectorSize
  omega

theorem data_fits (hsize : size ≤ 2 ^ 32 - 512) :
    1 * sectorSize + requestBytes (sectorsFor size) ≤ disk.capacity * sectorSize := by
  rw [requestBytes_sectorsFor hsize, ← Nat.add_mul]
  exact Nat.mul_le_mul_right _ hfits

/-- A disk with the superblock and the data of a tree on it. -/
theorem stores_of_bytes (hready : disk.ready = true) (hreads : disk.ReadsServed)
    (hsize : size ≤ 2 ^ 32 - 512)
    (hsuper : disk.bytes.readBytes 0 sectorSize = superblockBytes size)
    (hdata : disk.bytes.readBytes sectorSize bs.length = bs) : disk.Stores size bs :=
  ⟨hready, superblock_eq (hreads 0 _ (superblock_fits hfits)) hsuper (by omega),
    hreads 1 _ (data_fits hfits hsize), hdata⟩

end Requests

/-- The disk after the superblock and the data were written. -/
def withData (disk : Disk) (data : List UInt8) : Disk :=
  { disk with
    bytes := (disk.withSuperblock data.length).bytes.writeBytes (1 * sectorSize)
      ((padded data).take (requestBytes (sectorsFor data.length))) }

theorem bytes_withData (disk : Disk) {data : List UInt8} (hsize : data.length ≤ 2 ^ 32 - 512) :
    (disk.withData data).bytes.readBytes 0 sectorSize = superblockBytes data.length ∧
      (disk.withData data).bytes.readBytes sectorSize data.length = data := by
  have hall : (padded data).take (requestBytes (sectorsFor data.length)) = padded data := by
    rw [List.take_of_length_le]
    rw [requestBytes_sectorsFor hsize, length_padded]
  have hsuper := ByteMemory.readBytes_writeBytes disk.bytes 0 (superblockBytes data.length)
  rw [length_superblockBytes] at hsuper
  have hdata := ByteMemory.readBytes_writeBytes (disk.withSuperblock data.length).bytes sectorSize
    (padded data)
  constructor
  · refine Eq.trans (ByteMemory.readBytes_congr fun k hk => ?_) hsuper
    exact ByteMemory.writeBytes_of_outside (Or.inl (by omega))
  · have hle := (sectorsFor_bounds data.length).1
    rw [← length_padded] at hle
    rw [withData, hall, Nat.one_mul]
    dsimp only
    rw [← ByteMemory.take_readBytes _ _ hle, hdata, padded, List.take_left]

theorem stores_withData {data : List UInt8} (hready : disk.ready = true)
    (hreads : disk.ReadsServed) (hsize : data.length ≤ 2 ^ 32 - 512)
    (hfits : 1 + sectorsFor data.length ≤ disk.capacity) :
    (disk.withData data).Stores data.length data :=
  have hbytes := disk.bytes_withData hsize
  stores_of_bytes (show 1 + _ ≤ (disk.withData data).capacity from hfits) hready hreads hsize
    hbytes.1 hbytes.2

/-- A save whose writes are served. -/
theorem save_of_served (hready : disk.ready = true)
    (hfits : 1 + sectorsFor fs.savedBytes.length ≤ disk.capacity)
    (hsuper : disk.writeOk 0 sectorSize = true)
    (hdata : disk.writeOk 1 (requestBytes (sectorsFor fs.savedBytes.length)) = true) :
    disk.save fs = (true, disk.withData fs.savedBytes) := by
  rw [save_eq hready hfits, if_pos hsuper, write]
  exact if_pos hdata

/-- Saving a tree and loading it again. -/
theorem save_load (hready : disk.ready = true) (hreads : disk.ReadsServed)
    (hwrites : disk.WritesServed) (hdir : fs.isDir fs.root = true)
    (hname : fs.nameOf fs.root = []) (hl : fs.contents = some l) (hsound : l.Sound)
    (hsize : fs.savedBytes.length ≤ 2 ^ 32 - 512)
    (hfits : 1 + sectorsFor fs.savedBytes.length ≤ disk.capacity) :
    disk.save fs = (true, disk.withData fs.savedBytes) ∧
      ∃ fs', (disk.withData fs.savedBytes).load Vfs.init = some (true, fs') ∧ fs'.IsTree ∧
        fs'.nameOf fs'.root = [] ∧ fs'.contents = some l.mirror := by
  have hbytes := Vfs.savedBytes_eq hdir hname hl
  refine ⟨save_of_served hready hfits (hwrites 0 _ (superblock_fits hfits))
    (hwrites 1 _ (data_fits hfits hsize)), ?_⟩
  have hstores := stores_withData hready hreads hsize hfits
  rw [hbytes] at hstores hsize ⊢
  exact load_of_stores hstores hsize le_rfl hsound

/-- A tree that was built by operations of the file system is saved, and loading it again gives the
same tree with the children of every directory reversed; a second time gives the tree itself. -/
theorem save_load_of_reachable {s : Session}
    (h : sessionSystem.Reachable (fun s e => e.Based s) s) (hready : disk.ready = true)
    (hreads : disk.ReadsServed) (hwrites : disk.WritesServed)
    (hsize : s.fs.savedBytes.length < 2 ^ 32 - 512)
    (hfits : 1 + sectorsFor s.fs.savedBytes.length ≤ disk.capacity) :
    ∃ t disk' fs', s.fs.contents = some t ∧ disk.save s.fs = (true, disk') ∧
      disk'.load Vfs.init = some (true, fs') ∧ fs'.SingleTree ∧ fs'.contents = some t.mirror ∧
      ∃ disk'' fs'', disk'.save fs' = (true, disk'') ∧
        disk''.load Vfs.init = some (true, fs'') ∧ fs''.SingleTree ∧ fs''.contents = some t := by
  have htidy := Vfs.tidy_of_reachable h
  obtain ⟨t, ht, hsound⟩ := htidy.exists_sound
  obtain ⟨hsave, fs', hload, htree, hname, hcontents⟩ := save_load hready hreads hwrites
    htidy.tree.root_dir htidy.root_name ht hsound hsize.le hfits
  refine ⟨t, _, fs', ht, hsave, hload, htree.singleTree, hcontents, ?_⟩
  -- the mirrored tree takes as many bytes
  have hlen : fs'.savedBytes.length = s.fs.savedBytes.length := by
    rw [Vfs.savedBytes_eq htree.root_dir hname hcontents,
      Vfs.savedBytes_eq htidy.tree.root_dir htidy.root_name ht]
    simp only [rootRecord, List.length_append, length_leBytes, Listing.length_encode_mirror]
  have hready' : (disk.withData s.fs.savedBytes).ready = true := hready
  obtain ⟨hsave', fs'', hload', htree', -, hcontents'⟩ :=
    save_load hready' hreads hwrites htree.root_dir hname hcontents (Listing.sound_mirror hsound)
      (hlen ▸ hsize.le) (hlen ▸ hfits)
  rw [Listing.mirror_mirror] at hcontents'
  exact ⟨_, fs'', hsave', hload', htree'.singleTree, hcontents'⟩

/-- A disk of eight sectors that serves every request. -/
def blank : Disk := ⟨true, 8, fun _ => 0, fun _ _ => true, fun _ _ => true⟩

/-- A file and a directory named `..` are saved and loaded. -/
theorem save_load_of_two_entries : ∃ s disk' fs', sessionSystem.run ⟨Vfs.init, []⟩
      [.op (.writeBytes 0 "a".toList [7]), .op (.mkdir 0 "..".toList)] = some s ∧
    s.fs.contents = some (.dir "..".toList .nil (.file "a".toList [7] .nil)) ∧
    blank.save s.fs = (true, disk') ∧ disk'.load Vfs.init = some (true, fs') ∧
    fs'.contents = some (.file "a".toList [7] (.dir "..".toList .nil .nil)) := by
  have hreach : sessionSystem.Reachable (fun s e => e.Based s)
      ⟨((Vfs.init.apply (.writeBytes 0 "a".toList [7])).2.apply (.mkdir 0 "..".toList)).2, []⟩ := by
    refine ((TransitionSystem.Reachable.init rfl).step
      (e := .op (.writeBytes 0 "a".toList [7])) ⟨Or.inl rfl, ?_⟩ rfl).step
      (e := .op (.mkdir 0 "..".toList)) ⟨Or.inl rfl, ?_⟩ rfl
    · exact fun _ _ _ h => by cases h
    · exact fun _ _ _ h => by cases h
  have hlisting : ((Vfs.init.apply (.writeBytes 0 "a".toList [7])).2.apply
      (.mkdir 0 "..".toList)).2.contents =
        some (.dir "..".toList .nil (.file "a".toList [7] .nil)) := by decide
  obtain ⟨t, disk', fs', ht, hsave, hload, -, hcontents, -⟩ := save_load_of_reachable hreach
    (show blank.ready = true from rfl) (fun _ _ _ => rfl) (fun _ _ _ => rfl) (by decide) (by decide)
  obtain rfl := Option.some.inj (hlisting.symm.trans ht)
  exact ⟨_, disk', fs', rfl, hlisting, hsave, hload, hcontents⟩

/-! ### Failed saves -/

/-- What a save has left on the disk that succeeded. -/
theorem eq_withData_of_save (hready : disk.ready = true) {disk₁ : Disk}
    (h : disk.save fs = (true, disk₁)) :
    1 + sectorsFor fs.savedBytes.length ≤ disk.capacity ∧ disk₁ = disk.withData fs.savedBytes := by
  have hfits : 1 + sectorsFor fs.savedBytes.length ≤ disk.capacity := by
    by_contra hlarge
    rw [save, hready] at h
    simp only [Bool.not_true, Bool.false_eq_true, if_false] at h
    rw [if_pos (by omega)] at h
    cases h
  refine ⟨hfits, ?_⟩
  rw [save_eq hready hfits] at h
  split at h
  · rw [write] at h
    split at h
    · exact (Prod.mk.inj h).2.symm
    · cases h
  · cases h

/-- What a save has left on the disk that failed at one of its writes. -/
theorem eq_of_failed_save (hready : disk.ready = true)
    (hfits : 1 + sectorsFor fs.savedBytes.length ≤ disk.capacity) {disk₁ : Disk}
    (h : disk.save fs = (false, disk₁)) :
    disk.writeOk 0 sectorSize = false ∧ disk₁ = disk ∨
      disk.writeOk 0 sectorSize = true ∧ disk₁ = disk.withSuperblock fs.savedBytes.length := by
  rw [save_eq hready hfits] at h
  cases hsuper : disk.writeOk 0 sectorSize with
  | false =>
    rw [hsuper, if_neg Bool.false_ne_true] at h
    exact Or.inl ⟨rfl, (Prod.mk.inj h).2.symm⟩
  | true =>
    rw [hsuper, if_pos rfl, write] at h
    split at h
    · cases h
    · exact Or.inr ⟨rfl, (Prod.mk.inj h).2.symm⟩

/-- The data stays where it is when another superblock is written. -/
theorem Stores.withSuperblock {size' : ℕ} (h : disk.Stores size bs) (hreads : disk.ReadsServed)
    (hsize : size' ≤ 2 ^ 32 - 512) (hfits : 1 + sectorsFor size' ≤ disk.capacity) :
    (disk.withSuperblock size').Stores size' bs := by
  have hcapacity : 1 + sectorsFor size' ≤ (disk.withSuperblock size').capacity := hfits
  have hsuper := ByteMemory.readBytes_writeBytes disk.bytes 0 (superblockBytes size')
  rw [length_superblockBytes] at hsuper
  refine stores_of_bytes hcapacity h.ready hreads hsize hsuper ?_
  refine Eq.trans (ByteMemory.readBytes_congr fun k _ => ?_) h.data
  refine ByteMemory.writeBytes_of_outside (Or.inr ?_)
  rw [length_superblockBytes]
  omega

/-- A save to an empty disk, and then one whose data cannot be written. -/
theorem save_save_blank (fs fs' : Vfs) (hfits : 1 + sectorsFor fs.savedBytes.length ≤ 8)
    (hfits' : 1 + sectorsFor fs'.savedBytes.length ≤ 8) :
    blank.save fs = (true, blank.withData fs.savedBytes) ∧
      ({ blank.withData fs.savedBytes with writeOk := fun sector _ => sector = 0 } : Disk).save fs' =
        (false, ({ blank.withData fs.savedBytes with
          writeOk := fun sector _ => sector = 0 } : Disk).withSuperblock fs'.savedBytes.length) := by
  refine ⟨save_of_served rfl hfits rfl rfl, ?_⟩
  rw [save_eq rfl hfits']
  rfl

end Disk

end AnssOS
