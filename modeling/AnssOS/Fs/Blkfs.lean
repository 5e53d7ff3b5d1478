import AnssOS.Foundation.ByteMemory
import AnssOS.Fs.Vfs

/-!
# Saving and loading the tree

The model of `kernel/src/fs/blkfs.rs`, over the block device of
`kernel/src/drivers/virtio/blk.rs`.  Sector 0 holds the superblock, and the records of the tree
follow from sector 1 on.  Saving writes both; loading replays the records as calls of the file system.

Slices and their positions are machine words, so sums are taken modulo `2 ^ 64`.  What a failed
replay has done to the tree stays done, so every step of the replay returns the tree.
-/

namespace AnssOS

/-! ### The block device -/

/-- `SECTOR_SIZE`. -/
def sectorSize : ℕ := 512

/-- A block device: what is stored on it, and whether a request at a sector, for a number of bytes,
is served. -/
structure Disk where
  ready : Bool
  capacity : ℕ
  bytes : ByteMemory
  readOk : ℕ → ℕ → Bool
  writeOk : ℕ → ℕ → Bool

namespace Disk

/-- The number of bytes of a request for `count` sectors, both 32 bits wide. -/
def requestBytes (count : ℕ) : ℕ := count % 2 ^ 32 * sectorSize % 2 ^ 32

/-- `blk::read`. -/
def read (disk : Disk) (sector count : ℕ) : Option (List UInt8) :=
  if disk.readOk sector (requestBytes count) then
    some (disk.bytes.readBytes (sector * sectorSize) (requestBytes count))
  else none

/-- `blk::write`: a failed write leaves the sectors as they are. -/
def write (disk : Disk) (sector : ℕ) (data : List UInt8) (count : ℕ) : Bool × Disk :=
  if disk.writeOk sector (requestBytes count) then
    (true, { disk with
      bytes := disk.bytes.writeBytes (sector * sectorSize) (data.take (requestBytes count)) })
  else (false, disk)

end Disk

/-! ### Writing records -/

namespace Vfs

/-- `serialize`, for directories nested less than `n` deep. -/
def serialize : ℕ → Vfs → ℕ → List UInt8
  | 0, _, _ => []
  | n + 1, fs, node =>
      let name := utf8Bytes (fs.nameOf node)
      let header := (if fs.isDir node then 0 else 1) :: UInt8.ofNat name.length :: name
      if !fs.isDir node then header ++ leBytes 4 (fs.dataOf node).length ++ fs.dataOf node
      else
        header ++ leBytes 4 (fs.children node).length ++ (fs.children node).flatMap (serialize n fs)

/-- The bytes of the whole tree. -/
def savedBytes (fs : Vfs) : List UInt8 := serialize (fs.next + 1) fs fs.root

/-! ### Reading records -/

/-- `Reader::bytes`: the next `len` bytes, and the position behind them. -/
def readerBytes (buf : List UInt8) (pos len : ℕ) : Option (List UInt8 × ℕ) :=
  let stop := (pos + len) % 2 ^ 64
  if pos ≤ stop ∧ stop ≤ buf.length then some ((buf.take stop).drop pos, stop) else none

/-- `Reader::u8`. -/
def readerU8 (buf : List UInt8) (pos : ℕ) : Option (ℕ × ℕ) :=
  (readerBytes buf pos 1).map fun (b, pos) => (leNat b, pos)

/-- `Reader::u32`. -/
def readerU32 (buf : List UInt8) (pos : ℕ) : Option (ℕ × ℕ) :=
  (readerBytes buf pos 4).map fun (b, pos) => (leNat b, pos)

/-- How every record begins: its kind and its name. -/
def readerHeader (buf : List UInt8) (pos : ℕ) : Option (ℕ × Text × ℕ) := do
  let (kind, pos) ← readerU8 buf pos
  let (nameLen, pos) ← readerU8 buf pos
  if nameLen ≥ nameMax then none else
  let (bytes, pos) ← readerBytes buf pos nameLen
  let name ← fromUtf8 bytes
  return (kind, name, pos)

/-- The rest of the record of a file, which is created and then filled.  The result is the position
behind the record, if it is accepted, and the tree. -/
def readerFile (buf : List UInt8) (parent : Option ℕ) (name : Text) (pos : ℕ) (fs : Vfs) :
    Option ℕ × Vfs :=
  match readerU32 buf pos, parent with
  | some (size, pos), some parent =>
      match fs.createFile parent name with
      | (false, fs) => (none, fs)
      | (true, fs) =>
          if size = 0 then (some pos, fs)
          else
            match readerBytes buf pos size with
            | none => (none, fs)
            | some (data, pos) =>
                match fs.writeBytes parent name data with
                | (false, fs) => (none, fs)
                | (true, fs) => (some pos, fs)
  | _, _ => (none, fs)

/-- The directory that the children of a record go to.  Without a parent it is the root. -/
def readerDir (parent : Option ℕ) (name : Text) (fs : Vfs) : Option ℕ × Vfs :=
  match parent with
  | none => (some fs.root, fs)
  | some parent =>
      match fs.mkdir parent name with
      | (false, fs) => (none, fs)
      | (true, fs) => (fs.resolve parent name, fs)

/-- A reader is called `count` times, or until it fails. -/
def readerRepeat (read : ℕ → Vfs → Option ℕ × Vfs) : ℕ → ℕ → Vfs → Option ℕ × Vfs
  | 0, pos, fs => (some pos, fs)
  | count + 1, pos, fs =>
      match read pos fs with
      | (none, fs) => (none, fs)
      | (some pos, fs) => readerRepeat read count pos fs

/-- `Reader::node`, for records nested less than `n` deep. -/
def readerNode : ℕ → List UInt8 → Option ℕ → ℕ → Vfs → Option ℕ × Vfs
  | 0, _, _, _, fs => (none, fs)
  | n + 1, buf, parent, pos, fs =>
      match readerHeader buf pos with
      | none => (none, fs)
      | some (kind, name, pos) =>
          if kind = 1 then readerFile buf parent name pos fs
          else
            match readerDir parent name fs with
            | (none, fs) => (none, fs)
            | (some dir, fs) =>
                match readerU32 buf pos with
                | none => (none, fs)
                | some (count, pos) => readerRepeat (readerNode n buf (some dir)) count pos fs

end Vfs

/-! ### Loading and saving -/

/-- `MAGIC`. -/
def magic : ℕ := 0x53464e41

/-- `VERSION`. -/
def version : ℕ := 1

/-- The number of sectors for a number of bytes. -/
def sectorsFor (size : ℕ) : ℕ := (size + sectorSize - 1) / sectorSize

/-- The size of the buffer for the data, in the arithmetic of the source. -/
def bufferSize (size : ℕ) : ℕ := sectorsFor size * sectorSize % 2 ^ 64

namespace Disk

/-- The fields of the superblock: the magic, the version and the size of the data. -/
def superblock (disk : Disk) : Option (ℕ × ℕ × ℕ) :=
  (disk.read 0 1).map fun sb =>
    (leNat (sb.take 4), leNat ((sb.drop 4).take 4), leNat ((sb.drop 8).take 8))

/-- The slice that the records are read from, out of a buffer of zeros into which the data was
fetched. -/
def window (data : List UInt8) (size : ℕ) : List UInt8 :=
  (data ++ List.replicate (bufferSize size - data.length) 0).take size

/-- `load`.  It is `none` if the kernel panics, because the buffer is too large or because the slice
does not fit the buffer. -/
def load (disk : Disk) (fs : Vfs) : Option (Bool × Vfs) :=
  if !disk.ready then some (true, fs)
  else
    match disk.superblock with
    | none => some (false, fs)
    | some (m, v, totalSize) =>
        if m ≠ magic ∨ v ≠ version ∨ totalSize = 0 then some (true, fs)
        else if bufferSize totalSize > isizeMax then none
        else
          match disk.read 1 (sectorsFor totalSize) with
          | none => some (false, fs)
          | some data =>
              if totalSize > bufferSize totalSize then none
              else
                match Vfs.readerNode (totalSize + 1) (window data totalSize) none 0 fs with
                | (none, fs) => some (false, fs)
                | (some _, fs) => some (true, fs)

/-- The superblock for data of a size. -/
def superblockBytes (size : ℕ) : List UInt8 :=
  leBytes 4 magic ++ leBytes 4 version ++ leBytes 8 size ++ List.replicate 496 0

/-- The data, filled with zeros up to whole sectors. -/
def padded (data : List UInt8) : List UInt8 :=
  data ++ List.replicate (sectorsFor data.length * sectorSize - data.length) 0

/-- `save`. -/
def save (disk : Disk) (fs : Vfs) : Bool × Disk :=
  if !disk.ready then (true, disk)
  else
    let totalSize := fs.savedBytes.length
    let sectors := sectorsFor totalSize
    if 1 + sectors > disk.capacity then (false, disk)
    else
      match disk.write 0 (superblockBytes totalSize) 1 with
      | (false, disk) => (false, disk)
      | (true, disk) =>
          if sectors > 0 then disk.write 1 (padded fs.savedBytes) sectors else (true, disk)

end Disk

end AnssOS
