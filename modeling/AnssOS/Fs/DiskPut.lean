import AnssOS.Fs.Decoding

/-!
# The host's view of a disk image

The model of `scripts/disk-put.py`, which reads the tree from a disk image, puts host files into its
root and writes the image anew.  It has a codec of its own, in which names are ASCII, and Python
bounds the nesting of calls: `frames` is the number of calls that can still be made.

### Outline

* the codec of the script: `hostDeserialize` and `hostSerialize`, which can raise;
* `diskPut`, the whole script;
* on records with ASCII names the codec agrees with the kernel's, and the image that the script
  writes is loaded by the kernel as the old tree with the files put into its root.
-/

namespace AnssOS

/-! ### The codec of the script -/

/-- What makes the script stop. -/
inductive Raised
  | valueError
  | unicodeEncodeError
  | structError
  | recursionError
  | nameTooLong
  | noSuchFile
deriving DecidableEq

/-- `Node`. -/
structure HostNode where
  name : Text
  isDir : Bool
  children : Listing
  data : List UInt8

/-- `bytes.decode("ascii", errors="replace")`. -/
def decodeAscii (bs : List UInt8) : Text :=
  bs.map fun b => if b.toNat < 128 then Char.ofNat b.toNat else Char.ofNat 0xfffd

/-- `str.encode("ascii")`. -/
def encodeAscii (s : Text) : Except Raised (List UInt8) :=
  if s.all (fun c => c.toNat < 128) then .ok (s.map fun c => UInt8.ofNat c.toNat)
  else .error .unicodeEncodeError

/-- `struct.pack("<I", n)`. -/
def packU32 (n : ℕ) : Except Raised (List UInt8) :=
  if n < 2 ^ 32 then .ok (leBytes 4 n) else .error .structError

/-- `Reader.bytes`. -/
def hostBytes (buf : List UInt8) (pos n : ℕ) : Except Raised (List UInt8 × ℕ) :=
  let b := (buf.drop pos).take n
  if b.length ≠ n then .error .valueError else .ok (b, pos + n)

/-- `Reader.u8` and `Reader.u32`. -/
def hostNat (buf : List UInt8) (pos n : ℕ) : Except Raised (ℕ × ℕ) := do
  let (b, pos) ← hostBytes buf pos n
  return (leNat b, pos)

/-- A node as the entry of a directory, before the rest of the entries. -/
def HostNode.entry (node : HostNode) (rest : Listing) : Listing :=
  if node.isDir then .dir node.name node.children rest else .file node.name node.data rest

/-- A reader is called for every child. -/
def hostChildren (read : ℕ → Except Raised (HostNode × ℕ)) : ℕ → ℕ → Except Raised (Listing × ℕ)
  | 0, pos => .ok (.nil, pos)
  | count + 1, pos => do
      let (node, pos) ← read pos
      let (rest, pos) ← hostChildren read count pos
      return (node.entry rest, pos)

/-- `deserialize`. -/
def hostDeserialize : ℕ → List UInt8 → ℕ → Except Raised (HostNode × ℕ)
  | 0, _, _ => .error .recursionError
  | frames + 1, buf, pos => do
      let (nodeType, pos) ← hostNat buf pos 1
      let (nameLen, pos) ← hostNat buf pos 1
      let (name, pos) ← hostBytes buf pos nameLen
      if nodeType = 1 then
        let (size, pos) ← hostNat buf pos 4
        let (data, pos) ← hostBytes buf pos size
        return (⟨decodeAscii name, false, .nil, data⟩, pos)
      else
        let (count, pos) ← hostNat buf pos 4
        let (children, pos) ← hostChildren (hostDeserialize frames buf) count pos
        return (⟨decodeAscii name, true, children, []⟩, pos)

/-- The beginning of a record: the type, and the length of the name as one byte. -/
def hostHeader (kind : UInt8) (name : Text) : Except Raised (List UInt8) := do
  let bytes ← encodeAscii name
  if bytes.length < 256 then return kind :: UInt8.ofNat bytes.length :: bytes
  else .error .valueError

/-- `serialize`, for the nodes of a directory. -/
def hostSerializeAll : ℕ → Listing → Except Raised (List UInt8)
  | _, .nil => .ok []
  | 0, _ => .error .recursionError
  | frames + 1, .file name data rest => do
      let header ← hostHeader 1 name
      let size ← packU32 data.length
      let rest ← hostSerializeAll (frames + 1) rest
      return header ++ (size ++ (data ++ rest))
  | frames + 1, .dir name inside rest => do
      let header ← hostHeader 0 name
      let count ← packU32 inside.count
      let inside ← hostSerializeAll frames inside
      let rest ← hostSerializeAll (frames + 1) rest
      return header ++ (count ++ (inside ++ rest))

/-- `serialize`. -/
def hostSerialize (frames : ℕ) (node : HostNode) : Except Raised (List UInt8) :=
  hostSerializeAll frames (node.entry .nil)

/-! ### The script -/

/-- `Node("", is_dir=True)`. -/
def emptyRoot : HostNode := ⟨[], true, .nil, []⟩

/-- `load_root`, for the content of the image, if there is one. -/
def loadRoot (frames : ℕ) (image : Option (List UInt8)) : Except Raised HostNode :=
  match image with
  | none => .ok emptyRoot
  | some image =>
      let sb := image.take sectorSize
      let totalSize := leNat ((sb.drop 8).take 8)
      let data := (image.drop sectorSize).take totalSize
      if sb.length < 16 ∨ leNat (sb.take 4) ≠ magic ∨ leNat ((sb.drop 4).take 4) ≠ version ∨
          totalSize = 0 ∨ data.length ≠ totalSize then .ok emptyRoot
      else
        match hostDeserialize frames data 0 with
        | .ok (node, _) => .ok node
        | .error .valueError => .ok emptyRoot
        | .error e => .error e

/-- A node is assigned to its name in the dictionary `by_name`, in which a name keeps its place. -/
def Listing.assign (node : HostNode) : Listing → Listing
  | nil => node.entry nil
  | file name data rest =>
      if name = node.name then node.entry rest else file name data (rest.assign node)
  | dir name inside rest =>
      if name = node.name then node.entry rest else dir name inside (rest.assign node)

/-- The dictionary of the root's children. -/
def Listing.byName (acc : Listing) : Listing → Listing
  | nil => acc
  | file name data rest => (acc.assign ⟨name, false, nil, data⟩).byName rest
  | dir name inside rest => (acc.assign ⟨name, true, inside, []⟩).byName rest

/-- The host path and the name of an argument `HOST_FILE[:VFS_NAME]`. -/
def splitSpec (spec : Text) : Text × Text :=
  if ':' ∈ spec then (spec.takeWhile (· ≠ ':'), (spec.dropWhile (· ≠ ':')).tail)
  else (spec, spec.rtakeWhile (· ≠ '/'))

/-- The names and contents of the files that the arguments name. -/
def stagedFiles (host : Text → Option (List UInt8)) : List Text →
    Except Raised (List (Text × List UInt8))
  | [] => .ok []
  | spec :: specs => do
      let (path, name) := splitSpec spec
      let bytes ← encodeAscii name
      if bytes.length ≥ nameMax then .error .nameTooLong
      else
        match host path with
        | none => .error .noSuchFile
        | some content =>
            let files ← stagedFiles host specs
            return (name, content) :: files

/-- The files are put into the dictionary one after the other. -/
def Listing.putFiles (l : Listing) (files : List (Text × List UInt8)) : Listing :=
  files.foldl (fun l f => l.assign ⟨f.1, false, nil, f.2⟩) l

/-- The size of the image file: never less than before, and a multiple of 4 MiB. -/
def imageSize (needed minBytes : ℕ) : ℕ :=
  (max needed minBytes + 4194304 - 1) / 4194304 * 4194304

/-- `save_root`: the new content of the image. -/
def saveRoot (frames : ℕ) (root : HostNode) (minBytes : ℕ) : Except Raised (List UInt8) := do
  let data ← hostSerialize frames root
  let needed := sectorSize + data.length
  return Disk.superblockBytes data.length ++ data ++
    List.replicate (imageSize needed minBytes - needed) 0

/-- `main`: the new content of the image. -/
def diskPut (frames : ℕ) (image : Option (List UInt8)) (host : Text → Option (List UInt8))
    (specs : List Text) : Except Raised (List UInt8) := do
  let root ← loadRoot frames image
  let files ← stagedFiles host specs
  let children := (Listing.nil.byName root.children).putFiles files
  saveRoot frames { root with children := children } ((image.map List.length).getD 0)

/-! ### ASCII names -/

/-- Every character is an ASCII one. -/
def IsAscii (s : Text) : Prop := ∀ c ∈ s, c.toNat < 128

instance (s : Text) : Decidable (IsAscii s) := inferInstanceAs (Decidable (∀ c ∈ s, c.toNat < 128))

theorem isAscii_nil : IsAscii [] := by simp [IsAscii]

theorem length_utf8Bytes_nil : (utf8Bytes []).length < nameMax := by simp [utf8Bytes, nameMax]

theorem utf8Bytes_of_isAscii {s : Text} (h : IsAscii s) :
    utf8Bytes s = s.map fun c => UInt8.ofNat c.toNat := by
  induction s with
  | nil => rfl
  | cons c s ih =>
    have hc := h c List.mem_cons_self
    have hone : String.utf8EncodeChar c = [UInt8.ofNat c.toNat] := by
      rw [String.utf8EncodeChar]
      exact if_pos (by change c.val.toNat < 128 at hc; omega)
    rw [utf8Bytes_cons, hone, ih fun d hd => h d (List.mem_cons_of_mem c hd)]
    rfl

theorem encodeAscii_eq {s : Text} (h : IsAscii s) : encodeAscii s = .ok (utf8Bytes s) := by
  have hall : (s.all fun c => c.toNat < 128) = true := by simpa [IsAscii] using h
  rw [encodeAscii, if_pos hall, utf8Bytes_of_isAscii h]

theorem decodeAscii_utf8Bytes {s : Text} (h : IsAscii s) : decodeAscii (utf8Bytes s) = s := by
  rw [utf8Bytes_of_isAscii h, decodeAscii, List.map_map]
  conv_rhs => rw [← List.map_id s]
  refine List.map_congr_left fun c hc => ?_
  have hlt := h c hc
  have hbyte : (UInt8.ofNat c.toNat).toNat = c.toNat := by
    rw [UInt8.toNat_ofNat']
    omega
  simp only [Function.comp_apply, hbyte, if_pos hlt, Char.ofNat_toNat, id]

theorem of_encodeAscii_eq_ok {s : Text} {bs : List UInt8} (h : encodeAscii s = .ok bs) :
    IsAscii s ∧ bs = utf8Bytes s := by
  have hascii : IsAscii s := by
    unfold encodeAscii at h
    split at h
    · rename_i hall
      simpa [IsAscii] using hall
    · cases h
  exact ⟨hascii, Except.ok.inj (h.symm.trans (encodeAscii_eq hascii))⟩

/-- Every name is ASCII. -/
def Listing.Ascii : Listing → Prop
  | nil => True
  | file name _ rest => IsAscii name ∧ rest.Ascii
  | dir name inside rest => IsAscii name ∧ inside.Ascii ∧ rest.Ascii

/-! ### The two codecs -/

section Codec

variable {buf bs : List UInt8} {pos frames : ℕ} {l : Listing}

theorem hostBytes_of_lies (h : Lies buf pos bs) :
    hostBytes buf pos bs.length = .ok (bs, pos + bs.length) := by
  obtain ⟨before, behind, rfl, rfl⟩ := h
  simp [hostBytes]

theorem hostNat_of_lies {w v : ℕ} (h : Lies buf pos (leBytes w v)) (hv : v < 256 ^ w) :
    hostNat buf pos w = .ok (v, pos + w) := by
  have hread := hostBytes_of_lies h
  rw [length_leBytes] at hread
  rw [hostNat, hread]
  dsimp only [bind, Except.bind, pure, Except.pure]
  rw [leNat_leBytes, Nat.mod_eq_of_lt hv]

/-- How the script reads the beginning of a record. -/
theorem hostDeserialize_of_header {kind : ℕ} {name : Text}
    (h : Lies buf pos (headerBytes kind name)) (hkind : kind < 256)
    (hname : (utf8Bytes name).length < nameMax) (hascii : IsAscii name) :
    hostDeserialize (frames + 1) buf pos = (do
      let pos := pos + (headerBytes kind name).length
      if kind = 1 then
        let (size, pos) ← hostNat buf pos 4
        let (data, pos) ← hostBytes buf pos size
        return (⟨name, false, .nil, data⟩, pos)
      else
        let (count, pos) ← hostNat buf pos 4
        let (children, pos) ← hostChildren (hostDeserialize frames buf) count pos
        return (⟨name, true, children, []⟩, pos)) := by
  have hsplit : headerBytes kind name =
      leBytes 1 kind ++ (leBytes 1 (utf8Bytes name).length ++ utf8Bytes name) := rfl
  have hlen : pos + (headerBytes kind name).length = pos + 1 + 1 + (utf8Bytes name).length := by
    rw [length_headerBytes]
    omega
  have hlt : (utf8Bytes name).length < 256 ^ 1 := by
    unfold nameMax at hname
    omega
  rw [hsplit, lies_append, lies_append, length_leBytes, length_leBytes] at h
  rw [hostDeserialize, hostNat_of_lies h.1 (by omega)]
  dsimp only [bind, Except.bind]
  rw [hostNat_of_lies h.2.1 hlt]
  dsimp only
  rw [hostBytes_of_lies h.2.2]
  dsimp only
  rw [decodeAscii_utf8Bytes hascii, hlen]

theorem hostChildren_succ {read : ℕ → Except Raised (HostNode × ℕ)} {k pos₁ pos₂ : ℕ}
    {node : HostNode} {rest : Listing} (hnode : read pos = .ok (node, pos₁))
    (hrest : hostChildren read k pos₁ = .ok (rest, pos₂)) :
    hostChildren read (k + 1) pos = .ok (node.entry rest, pos₂) := by
  rw [hostChildren, hnode]
  dsimp only [bind, Except.bind]
  rw [hrest]
  rfl

/-- The script reads the records that the kernel wrote. -/
theorem hostChildren_of_lies (hsized : l.records.Sized) (hascii : l.Ascii)
    (h : Lies buf pos l.records.encode) (hdepth : l.records.depth ≤ frames) :
    hostChildren (hostDeserialize frames buf) l.count pos =
      .ok (l, pos + l.records.encode.length) := by
  induction l generalizing pos frames with
  | nil => rfl
  | file name data rest ih =>
    obtain ⟨hname, hlt, hsized⟩ := hsized
    obtain ⟨frames, rfl⟩ : ∃ k, frames = k + 1 :=
      ⟨frames - 1, by rw [Listing.records, Records.depth] at hdepth; omega⟩
    rw [Listing.records, Records.encode, lies_append, lies_append, lies_append, length_leBytes] at h
    have hnode : hostDeserialize (frames + 1) buf pos =
        .ok (⟨name, false, .nil, data⟩, pos + (headerBytes 1 name).length + 4 + data.length) := by
      rw [hostDeserialize_of_header h.1 (by omega) hname hascii.1]
      dsimp only
      rw [if_pos rfl, hostNat_of_lies h.2.1 hlt]
      dsimp only [bind, Except.bind]
      rw [hostBytes_of_lies h.2.2.1]
      rfl
    have hrest := ih hsized hascii.2 h.2.2.2 (le_trans (le_max_right _ _) hdepth)
    rw [Listing.count, hostChildren_succ hnode hrest]
    simp only [HostNode.entry, Listing.records, Records.encode, List.length_append, length_leBytes]
    congr 2
    omega
  | dir name inside rest ihi ih =>
    obtain ⟨-, hname, hlt, hsizedi, hsized⟩ := hsized
    obtain ⟨frames, rfl⟩ : ∃ k, frames = k + 1 :=
      ⟨frames - 1, by rw [Listing.records, Records.depth] at hdepth; omega⟩
    rw [Listing.records, Records.depth] at hdepth
    rw [Listing.records, Records.encode, lies_append, lies_append, lies_append, length_leBytes,
      Listing.count_records] at h
    rw [Listing.count_records] at hlt
    have hnode : hostDeserialize (frames + 1) buf pos = .ok (⟨name, true, inside, []⟩,
        pos + (headerBytes 0 name).length + 4 + inside.records.encode.length) := by
      rw [hostDeserialize_of_header h.1 (by omega) hname hascii.1]
      dsimp only
      rw [if_neg (by decide), hostNat_of_lies h.2.1 hlt]
      dsimp only [bind, Except.bind]
      rw [ihi hsizedi hascii.2.1 h.2.2.1 (by omega)]
      rfl
    have hrest := ih hsized hascii.2.2 h.2.2.2 (le_trans (le_max_right _ _) hdepth)
    rw [Listing.count, hostChildren_succ hnode hrest]
    simp only [HostNode.entry, Listing.records, Records.encode, List.length_append, length_leBytes]
    congr 2
    omega

theorem hostHeader_eq {kind : ℕ} {name : Text} (hname : (utf8Bytes name).length < nameMax)
    (hascii : IsAscii name) : hostHeader (UInt8.ofNat kind) name = .ok (headerBytes kind name) := by
  rw [hostHeader, encodeAscii_eq hascii]
  dsimp only [bind, Except.bind]
  rw [if_pos (by unfold nameMax at hname; omega)]
  rfl

/-- The script writes the records that the kernel writes. -/
theorem hostSerializeAll_eq (hsized : l.records.Sized) (hascii : l.Ascii)
    (hdepth : l.records.depth ≤ frames) :
    hostSerializeAll frames l = .ok l.records.encode := by
  induction l generalizing frames with
  | nil => cases frames <;> rfl
  | file name data rest ih =>
    obtain ⟨hname, hlt, hsized⟩ := hsized
    obtain ⟨frames, rfl⟩ : ∃ k, frames = k + 1 :=
      ⟨frames - 1, by rw [Listing.records, Records.depth] at hdepth; omega⟩
    have hhead : hostHeader (UInt8.ofNat 1) name = _ := hostHeader_eq hname hascii.1
    rw [hostSerializeAll, show (1 : UInt8) = UInt8.ofNat 1 from rfl, hhead]
    dsimp only [bind, Except.bind]
    rw [packU32, if_pos hlt]
    dsimp only
    rw [ih hsized hascii.2 (le_trans (le_max_right _ _) hdepth)]
    rfl
  | dir name inside rest ihi ih =>
    obtain ⟨-, hname, hlt, hsizedi, hsized⟩ := hsized
    obtain ⟨frames, rfl⟩ : ∃ k, frames = k + 1 :=
      ⟨frames - 1, by rw [Listing.records, Records.depth] at hdepth; omega⟩
    rw [Listing.records, Records.depth] at hdepth
    have hhead : hostHeader (UInt8.ofNat 0) name = _ := hostHeader_eq hname hascii.1
    rw [Listing.count_records] at hlt
    rw [hostSerializeAll, show (0 : UInt8) = UInt8.ofNat 0 from rfl, hhead]
    dsimp only [bind, Except.bind]
    rw [packU32, if_pos hlt]
    dsimp only
    rw [ihi hsizedi hascii.2.1 (by omega)]
    dsimp only
    rw [ih hsized hascii.2.2 (by omega), Listing.records, Records.encode, Listing.count_records]
    rfl

variable (hsound : l.Sound) (hascii : l.Ascii) (hdepth : l.records.depth ≤ frames)
  (hsize : (rootRecord 0 [] l.records).length < 2 ^ 32)

include hsound hascii hdepth hsize

/-- The script reads the tree that the kernel wrote. -/
theorem hostDeserialize_root (h : Lies buf 0 (rootRecord 0 [] l.records)) :
    hostDeserialize (frames + 1) buf 0 =
      .ok (⟨[], true, l, []⟩, (rootRecord 0 [] l.records).length) := by
  have hencode : l.records.encode.length < 2 ^ 32 := by
    simp only [rootRecord, List.length_append] at hsize
    omega
  have hcount := l.count_le_length
  rw [rootRecord, lies_append, lies_append, length_leBytes, Listing.count_records] at h
  rw [hostDeserialize_of_header h.1 (by omega) length_utf8Bytes_nil isAscii_nil]
  dsimp only
  rw [if_neg (by decide), hostNat_of_lies h.2.1 (show l.count < 256 ^ 4 by omega)]
  dsimp only [bind, Except.bind]
  rw [hostChildren_of_lies (Listing.sized_records hsound hencode) hascii h.2.2 hdepth]
  dsimp only [pure, Except.pure]
  simp only [rootRecord, List.length_append, length_leBytes]
  congr 2
  omega

/-- The script writes the tree as the kernel does. -/
theorem hostSerialize_root :
    hostSerialize (frames + 1) ⟨[], true, l, []⟩ = .ok (rootRecord 0 [] l.records) := by
  have hencode : l.records.encode.length < 2 ^ 32 := by
    simp only [rootRecord, List.length_append] at hsize
    omega
  have hcount := l.count_le_length
  rw [hostSerialize, HostNode.entry, if_pos rfl, hostSerializeAll,
    show (0 : UInt8) = UInt8.ofNat 0 from rfl, hostHeader_eq length_utf8Bytes_nil isAscii_nil]
  dsimp only [bind, Except.bind]
  rw [packU32, if_pos (by omega)]
  dsimp only
  rw [hostSerializeAll_eq (Listing.sized_records hsound hencode) hascii hdepth]
  dsimp only
  rw [hostSerializeAll]
  dsimp only [pure, Except.pure]
  rw [List.append_nil, rootRecord, Listing.count_records]

end Codec

/-! ### Putting files into the root -/

namespace Listing

variable {l : Listing} {name : Text} {data : List UInt8}

/-- What the entry of a name is: a file with its content, or a directory with its entries. -/
def lookup (name : Text) : Listing → Option (List UInt8 ⊕ Listing)
  | nil => none
  | file other data rest => if other = name then some (.inl data) else rest.lookup name
  | dir other inside rest => if other = name then some (.inr inside) else rest.lookup name

/-- The entry of a file is assigned to its name. -/
def putFile (l : Listing) (name : Text) (data : List UInt8) : Listing :=
  l.assign ⟨name, false, nil, data⟩

theorem mem_names_putFile {other : Text} :
    other ∈ (l.putFile name data).names ↔ other ∈ l.names ∨ other = name := by
  induction l with
  | nil => simp [putFile, assign, HostNode.entry, names]
  | file first content rest ih =>
    unfold putFile at ih ⊢
    rw [assign]
    split
    · rename_i heq
      simp only [HostNode.entry, Bool.false_eq_true, if_false, names, List.mem_cons, heq]
      tauto
    · simp only [names, List.mem_cons, ih, or_assoc]
  | dir first inside rest _ ih =>
    unfold putFile at ih ⊢
    rw [assign]
    split
    · rename_i heq
      simp only [HostNode.entry, Bool.false_eq_true, if_false, names, List.mem_cons, heq]
      tauto
    · simp only [names, List.mem_cons, ih, or_assoc]

theorem sound_putFile (hl : l.Sound) (hvalid : ValidName name) (hdot : IsDot name → data = []) :
    (l.putFile name data).Sound := by
  induction l with
  | nil => exact ⟨hvalid, by simp [names], hdot, trivial⟩
  | file first content rest ih =>
    obtain ⟨hfirst, hnew, hcontent, hrest⟩ := hl
    unfold putFile at ih ⊢
    rw [assign]
    split
    · rename_i heq
      exact ⟨hvalid, heq ▸ hnew, hdot, hrest⟩
    · rename_i hne
      refine ⟨hfirst, fun hmem => ?_, hcontent, ih hrest⟩
      exact (mem_names_putFile.mp hmem).elim hnew hne
  | dir first inside rest _ ih =>
    obtain ⟨hfirst, hnew, hempty, hinside, hrest⟩ := hl
    unfold putFile at ih ⊢
    rw [assign]
    split
    · rename_i heq
      exact ⟨hvalid, heq ▸ hnew, hdot, hrest⟩
    · rename_i hne
      refine ⟨hfirst, fun hmem => ?_, hempty, hinside, ih hrest⟩
      exact (mem_names_putFile.mp hmem).elim hnew hne

theorem ascii_putFile (hl : l.Ascii) (hname : IsAscii name) : (l.putFile name data).Ascii := by
  induction l with
  | nil => exact ⟨hname, trivial⟩
  | file first content rest ih =>
    unfold putFile at ih ⊢
    rw [assign]
    split
    · exact ⟨hname, hl.2⟩
    · exact ⟨hl.1, ih hl.2⟩
  | dir first inside rest _ ih =>
    unfold putFile at ih ⊢
    rw [assign]
    split
    · exact ⟨hname, hl.2.2⟩
    · exact ⟨hl.1, hl.2.1, ih hl.2.2⟩

theorem depth_putFile_le (name : Text) (data : List UInt8) :
    (l.putFile name data).records.depth ≤ max 1 l.records.depth := by
  induction l with
  | nil => exact le_rfl
  | file first content rest ih =>
    unfold putFile at ih ⊢
    rw [assign]
    split <;> simp only [HostNode.entry, Bool.false_eq_true, if_false, records, Records.depth] at *
      <;> omega
  | dir first inside rest _ ih =>
    unfold putFile at ih ⊢
    rw [assign]
    split <;> simp only [HostNode.entry, Bool.false_eq_true, if_false, records, Records.depth] at *
      <;> omega

theorem lookup_putFile (other : Text) :
    (l.putFile name data).lookup other = if name = other then some (.inl data) else l.lookup other := by
  induction l with
  | nil => rfl
  | file first content rest ih =>
    unfold putFile at ih ⊢
    rw [assign]
    split
    · rename_i heq
      simp only [HostNode.entry, Bool.false_eq_true, if_false, lookup, heq]
      split <;> rfl
    · rename_i hne
      rw [lookup, lookup, ih]
      split
      · rename_i heq
        rw [if_neg fun h => hne (heq.trans h.symm)]
      · rfl
  | dir first inside rest _ ih =>
    unfold putFile at ih ⊢
    rw [assign]
    split
    · rename_i heq
      simp only [HostNode.entry, Bool.false_eq_true, if_false, lookup, heq]
      split <;> rfl
    · rename_i hne
      rw [lookup, lookup, ih]
      split
      · rename_i heq
        rw [if_neg fun h => hne (heq.trans h.symm)]
      · rfl

theorem assign_of_not_mem {node : HostNode} (h : node.name ∉ l.names) :
    l.assign node = l.append (node.entry nil) := by
  induction l with
  | nil => rfl
  | file first content rest ih =>
    obtain ⟨hne, hrest⟩ := not_or.mp (mt List.mem_cons.mpr h)
    rw [assign, if_neg fun heq => hne heq.symm, ih hrest, append]
  | dir first inside rest _ ih =>
    obtain ⟨hne, hrest⟩ := not_or.mp (mt List.mem_cons.mpr h)
    rw [assign, if_neg fun heq => hne heq.symm, ih hrest, append]

/-- A dictionary of different names has the entries in order. -/
theorem byName_of_sound {acc : Listing} (hl : l.Sound) (hnew : ∀ n ∈ l.names, n ∉ acc.names) :
    acc.byName l = acc.append l := by
  induction l generalizing acc with
  | nil => rw [byName, append_nil]
  | file first content rest ih =>
    obtain ⟨-, hfresh, -, hrest⟩ := hl
    rw [byName, assign_of_not_mem (hnew _ List.mem_cons_self), ih hrest, append_assoc]
    · rfl
    · intro n hn hmem
      rw [names_append, List.mem_append] at hmem
      refine hmem.elim (hnew n (List.mem_cons_of_mem _ hn)) fun hmem => hfresh ?_
      obtain rfl : n = first := List.mem_singleton.mp hmem
      exact hn
  | dir first inside rest _ ih =>
    obtain ⟨-, hfresh, -, -, hrest⟩ := hl
    rw [byName, assign_of_not_mem (hnew _ List.mem_cons_self), ih hrest, append_assoc]
    · rfl
    · intro n hn hmem
      rw [names_append, List.mem_append] at hmem
      refine hmem.elim (hnew n (List.mem_cons_of_mem _ hn)) fun hmem => hfresh ?_
      obtain rfl : n = first := List.mem_singleton.mp hmem
      exact hn

/-- Files whose names and contents can stand in a tree. -/
def Puttable (files : List (Text × List UInt8)) : Prop :=
  ∀ f ∈ files, IsAscii f.1 ∧ ValidName f.1 ∧ (IsDot f.1 → f.2 = [])

theorem putFiles_cons (l : Listing) (f : Text × List UInt8) (files : List (Text × List UInt8)) :
    l.putFiles (f :: files) = (l.putFile f.1 f.2).putFiles files := rfl

/-- What putting files into a directory keeps. -/
theorem putFiles_spec {files : List (Text × List UInt8)} (hfiles : Puttable files)
    (hsound : l.Sound) (hascii : l.Ascii) : (l.putFiles files).Sound ∧ (l.putFiles files).Ascii ∧
      (l.putFiles files).records.depth ≤ max 1 l.records.depth := by
  induction files generalizing l with
  | nil => exact ⟨hsound, hascii, le_max_right _ _⟩
  | cons f files ih =>
    obtain ⟨⟨hname, hvalid, hdot⟩, hrest⟩ := List.forall_mem_cons.mp hfiles
    obtain ⟨h₁, h₂, h₃⟩ := ih hrest (sound_putFile hsound hvalid hdot)
      (ascii_putFile hascii hname)
    have hdepth := depth_putFile_le (l := l) f.1 f.2
    exact ⟨h₁, h₂, by rw [putFiles_cons]; omega⟩

/-- A name that a file was put under is that file, and the others are as before. -/
theorem lookup_putFiles (l : Listing) (files : List (Text × List UInt8)) (name : Text) :
    (l.putFiles files).lookup name =
      ((files.reverse.lookup name).map Sum.inl).or (l.lookup name) := by
  induction files generalizing l with
  | nil => rfl
  | cons f files ih =>
    rw [putFiles_cons, ih, lookup_putFile, List.reverse_cons, List.lookup_append]
    cases files.reverse.lookup name with
    | some data => rfl
    | none =>
      rw [List.lookup_cons]
      by_cases heq : f.1 = name
      · simp [heq]
      · have hne : (name == f.1) = false := beq_eq_false_iff_ne.mpr fun h => heq h.symm
        simp [heq, hne]

end Listing

/-- The names that the script accepts. -/
theorem stagedFiles_spec {host : Text → Option (List UInt8)} {specs : List Text}
    {files : List (Text × List UInt8)} (h : stagedFiles host specs = .ok files) :
    ∀ f ∈ files, IsAscii f.1 ∧ (utf8Bytes f.1).length < nameMax := by
  induction specs generalizing files with
  | nil =>
    cases h
    exact fun f hf => by cases hf
  | cons spec specs ih =>
    rw [stagedFiles] at h
    dsimp only [bind, Except.bind] at h
    cases hencode : encodeAscii (splitSpec spec).2 with
    | error e =>
      rw [hencode] at h
      cases h
    | ok bytes =>
      obtain ⟨hascii, rfl⟩ := of_encodeAscii_eq_ok hencode
      rw [hencode] at h
      dsimp only at h
      split at h
      · cases h
      · rename_i hlen
        split at h
        · cases h
        · cases hrest : stagedFiles host specs with
          | error e =>
            rw [hrest] at h
            cases h
          | ok rest =>
            rw [hrest] at h
            cases h
            exact List.forall_mem_cons.mpr ⟨⟨hascii, not_le.mp hlen⟩, ih hrest⟩

/-! ### The image -/

/-- The content of a disk as a file. -/
def Disk.image (disk : Disk) : List UInt8 := disk.bytes.readBytes 0 (disk.capacity * sectorSize)

/-- The disk is the one of an image. -/
structure Disk.Attached (disk : Disk) (image : List UInt8) : Prop where
  ready : disk.ready = true
  capacity : disk.capacity = image.length / sectorSize
  bytes : disk.bytes.readBytes 0 image.length = image
  served : disk.ReadsServed

theorem imageSize_spec (needed minBytes : ℕ) :
    needed ≤ imageSize needed minBytes ∧ sectorSize ∣ imageSize needed minBytes := by
  unfold imageSize sectorSize
  constructor <;> omega

theorem length_rootRecord_pos (l : Listing) : 0 < (rootRecord 0 [] l.records).length := by
  simp [rootRecord, headerBytes]

section Image

variable {l : Listing} {frames : ℕ} (hsound : l.Sound) (hascii : l.Ascii)
  (hdepth : l.records.depth ≤ frames)
  (hsize : (rootRecord 0 [] l.records).length ≤ 2 ^ 32 - 512)

include hsound hascii hdepth hsize

/-- The script loads the tree from an image that begins with it. -/
theorem loadRoot_of_image {behind : List UInt8} :
    loadRoot (frames + 1) (some (Disk.superblockBytes (rootRecord 0 [] l.records).length ++
      (rootRecord 0 [] l.records ++ behind))) = .ok ⟨[], true, l, []⟩ := by
  have hpos := length_rootRecord_pos l
  have hread := hostDeserialize_root hsound hascii hdepth (by omega)
    ⟨[], [], (List.append_nil _).symm, rfl⟩
  generalize rootRecord 0 [] l.records = bs at hpos hsize hread ⊢
  have hsb : (Disk.superblockBytes bs.length ++ (bs ++ behind)).take sectorSize =
      Disk.superblockBytes bs.length :=
    List.take_left' (Disk.length_superblockBytes bs.length)
  have hdrop : (Disk.superblockBytes bs.length ++ (bs ++ behind)).drop sectorSize =
      bs ++ behind := List.drop_left' (Disk.length_superblockBytes bs.length)
  have hmagic : (Disk.superblockBytes bs.length).take 4 = leBytes 4 magic := rfl
  have hversion : ((Disk.superblockBytes bs.length).drop 4).take 4 = leBytes 4 version := rfl
  have htotal : ((Disk.superblockBytes bs.length).drop 8).take 8 = leBytes 8 bs.length := rfl
  rw [loadRoot, hsb, hdrop, hmagic, hversion, htotal, leNat_leBytes, leNat_leBytes, leNat_leBytes,
    Nat.mod_eq_of_lt (show bs.length < 256 ^ 8 by omega), List.take_left, if_neg, hread]
  rw [Disk.length_superblockBytes]
  unfold sectorSize magic version
  omega

/-- The kernel loads the tree from an image that the script has written. -/
theorem load_of_saveRoot (minBytes : ℕ) : ∃ image,
    saveRoot (frames + 1) ⟨[], true, l, []⟩ minBytes = .ok image ∧
      ∀ disk : Disk, disk.Attached image → ∃ fs', disk.load Vfs.init = some (true, fs') ∧
        fs'.IsTree ∧ fs'.contents = some l.mirror := by
  have hsave := hostSerialize_root hsound hascii hdepth (by omega)
  refine ⟨_, by rw [saveRoot, hsave]; rfl, fun disk hdisk => ?_⟩
  obtain ⟨hneeded, hsectors⟩ :=
    imageSize_spec (sectorSize + (rootRecord 0 [] l.records).length) minBytes
  have hstores : disk.Stores (rootRecord 0 [] l.records).length (rootRecord 0 [] l.records) := by
    generalize rootRecord 0 [] l.records = bs at *
    generalize hzeros : imageSize (sectorSize + bs.length) minBytes - (sectorSize + bs.length) = n
      at hdisk
    have hlength : (Disk.superblockBytes bs.length ++ bs ++ List.replicate n 0).length =
        imageSize (sectorSize + bs.length) minBytes := by
      rw [List.length_append, List.length_append, Disk.length_superblockBytes,
        List.length_replicate]
      omega
    have hbytes := hdisk.bytes
    have hcapacity := hdisk.capacity
    rw [hlength, show imageSize (sectorSize + bs.length) minBytes = sectorSize + bs.length + n by
      omega, ByteMemory.readBytes_add, ByteMemory.readBytes_add] at hbytes
    obtain ⟨hfront, -⟩ := List.append_inj hbytes (by simp [Disk.length_superblockBytes])
    obtain ⟨hsuper, hdata⟩ := List.append_inj hfront (by simp [Disk.length_superblockBytes])
    rw [Nat.zero_add] at hdata
    refine Disk.stores_of_bytes ?_ hdisk.ready hdisk.served hsize hsuper hdata
    rw [hcapacity, hlength]
    unfold sectorsFor
    unfold sectorSize at *
    omega
  obtain ⟨fs', hload, htree, -, hcontents⟩ := Disk.load_of_stores hstores hsize le_rfl hsound
  exact ⟨fs', hload, htree, hcontents⟩

end Image

/-- The image of a disk that a tree was saved to. -/
theorem Disk.image_of_save {disk saved : Disk} {fs : Vfs} (hready : disk.ready = true)
    (hsize : fs.savedBytes.length ≤ 2 ^ 32 - 512) (hsave : disk.save fs = (true, saved)) :
    ∃ behind, saved.image = superblockBytes fs.savedBytes.length ++ (fs.savedBytes ++ behind) := by
  obtain ⟨hfits, rfl⟩ := eq_withData_of_save hready hsave
  generalize fs.savedBytes = bs at *
  have hle := (sectorsFor_bounds bs.length).1
  obtain ⟨n, hn⟩ : ∃ n, disk.capacity * sectorSize = sectorSize + (bs.length + n) :=
    ⟨disk.capacity * sectorSize - sectorSize - bs.length, by
      have := Nat.mul_le_mul_right sectorSize hfits
      rw [Nat.add_mul] at this
      omega⟩
  obtain ⟨hsuper, hdata⟩ := disk.bytes_withData hsize
  refine ⟨(disk.withData bs).bytes.readBytes (sectorSize + bs.length) n, ?_⟩
  rw [image, show (disk.withData bs).capacity * sectorSize = _ from hn, ByteMemory.readBytes_add,
    Nat.zero_add, ByteMemory.readBytes_add, hsuper, hdata]

end AnssOS
