import AnssOS.Fs.Blkfs

/-!
# The records of a saved tree

`Records` are the records of the disk format, as they stand in a directory one after the other, and
`Records.encode` is the byte string they stand for.  Reading them is separated from what is done with
them: the reader accepts a buffer exactly if it begins with the encoding of some records whose replay
succeeds, and leaves the tree that the replay leaves.

### Outline

* `Lies`: a byte string lies in a buffer at a position, and the reader's primitives in these terms;
* `Records`, `encode` and `replay`;
* `readerRepeat_sound` and `readerRepeat_complete`, and from them the record of the root;
* the bound on the nesting that the reader is given never matters.
-/

namespace AnssOS

open List Option

/-! ### Byte strings in a buffer -/

/-- The byte string `bs` lies in the buffer at the position `pos`. -/
def Lies (buf : List UInt8) (pos : ℕ) (bs : List UInt8) : Prop :=
  ∃ before behind, buf = before ++ (bs ++ behind) ∧ before.length = pos

variable {buf bs cs : List UInt8} {pos pos' n : ℕ}

theorem lies_nil (h : pos ≤ buf.length) : Lies buf pos [] :=
  ⟨buf.take pos, buf.drop pos, (take_append_drop pos buf).symm, by simpa using h⟩

theorem Lies.le_length (h : Lies buf pos bs) : pos + bs.length ≤ buf.length := by
  obtain ⟨before, behind, rfl, rfl⟩ := h
  simp only [length_append]
  omega

theorem lies_append : Lies buf pos (bs ++ cs) ↔ Lies buf pos bs ∧ Lies buf (pos + bs.length) cs := by
  constructor
  · rintro ⟨before, behind, rfl, rfl⟩
    exact ⟨⟨before, cs ++ behind, by simp, rfl⟩, before ++ bs, behind, by simp, by simp⟩
  · rintro ⟨⟨before, behind, rfl, rfl⟩, before', behind', heq, hlen⟩
    refine ⟨before, behind', ?_, rfl⟩
    -- both splits of the buffer agree on what is before the second string
    have hbefore : before' = before ++ bs := by
      rw [← List.append_assoc] at heq
      exact (append_inj_left heq.symm (by simp [hlen]))
    rw [heq, hbefore]
    simp

/-- What lies at a position is determined by its length. -/
theorem Lies.eq_of_length (h : Lies buf pos bs) (h' : Lies buf pos cs)
    (hlen : bs.length = cs.length) : bs = cs := by
  obtain ⟨before, behind, rfl, rfl⟩ := h
  obtain ⟨before', behind', heq, hpos⟩ := h'
  have hrest := append_inj_right heq hpos.symm
  exact append_inj_left hrest hlen

theorem lies_of_le {len : ℕ} (h : pos + len ≤ buf.length) :
    Lies buf pos ((buf.take (pos + len)).drop pos) := by
  refine ⟨buf.take pos, buf.drop (pos + len), ?_, by simp; omega⟩
  rw [drop_take, Nat.add_sub_cancel_left, ← drop_drop, take_append_drop,
    take_append_drop]

/-! ### The primitives of the reader -/

namespace Vfs

theorem readerBytes_eq_some_iff {len : ℕ} (hbuf : buf.length < 2 ^ 63) (hlen : len < 2 ^ 32) :
    readerBytes buf pos len = some (bs, pos') ↔
      Lies buf pos bs ∧ bs.length = len ∧ pos' = pos + len := by
  unfold readerBytes
  dsimp only
  constructor
  · intro h
    split at h
    · rename_i hle
      have hstop : (pos + len) % 2 ^ 64 = pos + len := Nat.mod_eq_of_lt (by omega)
      rw [hstop] at h hle
      obtain ⟨rfl, rfl⟩ := Prod.mk.inj (some.inj h)
      refine ⟨lies_of_le hle.2, ?_, rfl⟩
      rw [length_drop, length_take]
      omega
    · cases h
  · rintro ⟨hlies, rfl, rfl⟩
    have hle := hlies.le_length
    have hstop : (pos + bs.length) % 2 ^ 64 = pos + bs.length := Nat.mod_eq_of_lt (by omega)
    rw [hstop, if_pos ⟨by omega, hle⟩]
    have hsame := (lies_of_le hle).eq_of_length hlies (by
      rw [length_drop, length_take]
      omega)
    rw [hsame]

/-- A number of `w` bytes. -/
theorem readerNat_eq_some_iff (hbuf : buf.length < 2 ^ 63) {w v : ℕ} (hw : w < 2 ^ 32) :
    ((readerBytes buf pos w).map fun b => (leNat b.1, b.2)) = some (v, pos') ↔
      Lies buf pos (leBytes w v) ∧ v < 256 ^ w ∧ pos' = pos + w := by
  rw [map_eq_some_iff]
  constructor
  · rintro ⟨⟨b, stop⟩, hread, heq⟩
    obtain ⟨rfl, rfl⟩ := Prod.mk.inj heq
    obtain ⟨hlies, hlen, rfl⟩ := (readerBytes_eq_some_iff hbuf hw).mp hread
    have hv := leNat_lt b
    rw [hlen] at hv
    refine ⟨?_, hv, rfl⟩
    rw [← hlen, leBytes_leNat]
    exact hlies
  · rintro ⟨hlies, hv, rfl⟩
    refine ⟨(leBytes w v, pos + w), ?_, ?_⟩
    · exact (readerBytes_eq_some_iff hbuf hw).mpr ⟨hlies, length_leBytes w v, rfl⟩
    · dsimp only
      rw [leNat_leBytes, Nat.mod_eq_of_lt hv]

theorem readerU32_eq_some_iff (hbuf : buf.length < 2 ^ 63) {v : ℕ} :
    readerU32 buf pos = some (v, pos') ↔
      Lies buf pos (leBytes 4 v) ∧ v < 2 ^ 32 ∧ pos' = pos + 4 :=
  readerNat_eq_some_iff hbuf (by omega)

theorem readerU8_eq_some_iff (hbuf : buf.length < 2 ^ 63) {v : ℕ} :
    readerU8 buf pos = some (v, pos') ↔
      Lies buf pos [UInt8.ofNat v] ∧ v < 256 ∧ pos' = pos + 1 :=
  readerNat_eq_some_iff hbuf (by omega)

end Vfs

/-! ### Records -/

/-- The beginning of a record. -/
def headerBytes (kind : ℕ) (name : Text) : List UInt8 :=
  UInt8.ofNat kind :: UInt8.ofNat (utf8Bytes name).length :: utf8Bytes name

theorem length_headerBytes (kind : ℕ) (name : Text) :
    (headerBytes kind name).length = (utf8Bytes name).length + 2 := rfl

theorem Vfs.readerHeader_eq_some_iff (hbuf : buf.length < 2 ^ 63) {kind : ℕ} {name : Text} :
    Vfs.readerHeader buf pos = some (kind, name, pos') ↔ Lies buf pos (headerBytes kind name) ∧
      kind < 256 ∧ (utf8Bytes name).length < nameMax ∧
      pos' = pos + (headerBytes kind name).length := by
  have hsplit : headerBytes kind name =
      [UInt8.ofNat kind] ++ ([UInt8.ofNat (utf8Bytes name).length] ++ utf8Bytes name) := rfl
  unfold readerHeader
  constructor
  · intro h
    obtain ⟨⟨k, pos₁⟩, hkind, h⟩ := bind_eq_some_iff.mp h
    obtain ⟨⟨len, pos₂⟩, hlen, h⟩ := bind_eq_some_iff.mp h
    dsimp only at hlen h
    split at h
    · cases h
    rename_i hmax
    obtain ⟨⟨bytes, pos₃⟩, hbytes, h⟩ := bind_eq_some_iff.mp h
    obtain ⟨text, htext, hpure⟩ := bind_eq_some_iff.mp h
    obtain ⟨rfl, hrest⟩ := Prod.mk.inj (some.inj hpure)
    obtain ⟨rfl, rfl⟩ := Prod.mk.inj hrest
    obtain ⟨hk, hkb, rfl⟩ := (readerU8_eq_some_iff hbuf).mp hkind
    obtain ⟨hl, -, rfl⟩ := (readerU8_eq_some_iff hbuf).mp hlen
    obtain ⟨hb, rfl, rfl⟩ :=
      (readerBytes_eq_some_iff hbuf (by unfold nameMax at hmax; omega)).mp hbytes
    have hname := fromUtf8_eq_some_iff.mp htext
    dsimp only at hname
    subst hname
    refine ⟨?_, hkb, by omega, by rw [length_headerBytes]; omega⟩
    rw [hsplit, lies_append, lies_append]
    exact ⟨hk, hl, hb⟩
  · rintro ⟨hlies, hkind, hname, rfl⟩
    rw [hsplit, lies_append, lies_append] at hlies
    obtain ⟨hk, hl, hb⟩ := hlies
    have hname' : (utf8Bytes name).length < 256 := by unfold nameMax at hname; omega
    have hread₁ := (readerU8_eq_some_iff hbuf).mpr ⟨hk, hkind, rfl⟩
    have hread₂ : readerU8 buf (pos + 1) = some ((utf8Bytes name).length, pos + 1 + 1) :=
      (readerU8_eq_some_iff hbuf).mpr ⟨hl, hname', rfl⟩
    have hread₃ : readerBytes buf (pos + 1 + 1) (utf8Bytes name).length =
        some (utf8Bytes name, pos + 1 + 1 + (utf8Bytes name).length) :=
      (readerBytes_eq_some_iff hbuf (by omega)).mpr ⟨hb, rfl, rfl⟩
    have hlen : pos + 1 + 1 + (utf8Bytes name).length = pos + (headerBytes kind name).length := by
      rw [length_headerBytes]
      omega
    have hdecode : fromUtf8 (utf8Bytes name) = some name := fromUtf8_eq_some_iff.mpr rfl
    rw [← hlen]
    simp [hread₁, hread₂, hread₃, hname, hdecode]

/-- The records in a directory, one after the other.  Every kind byte but 1 makes a directory. -/
inductive Records
  | nil
  | file (name : Text) (data : List UInt8) (rest : Records)
  | dir (kind : ℕ) (name : Text) (inside rest : Records)
deriving DecidableEq

namespace Records

/-- The number of records, not counting those inside. -/
def count : Records → ℕ
  | nil => 0
  | file _ _ rest | dir _ _ _ rest => rest.count + 1

/-- The bytes of the records. -/
def encode : Records → List UInt8
  | nil => []
  | file name data rest => headerBytes 1 name ++ (leBytes 4 data.length ++ (data ++ rest.encode))
  | dir kind name inside rest =>
      headerBytes kind name ++ (leBytes 4 inside.count ++ (inside.encode ++ rest.encode))

/-- The numbers fit the fields of the records. -/
def Sized : Records → Prop
  | nil => True
  | file name data rest => (utf8Bytes name).length < nameMax ∧ data.length < 2 ^ 32 ∧ rest.Sized
  | dir kind name inside rest => (kind < 256 ∧ kind ≠ 1) ∧ (utf8Bytes name).length < nameMax ∧
      inside.count < 2 ^ 32 ∧ inside.Sized ∧ rest.Sized

/-- How deep the records are nested. -/
def depth : Records → ℕ
  | nil => 0
  | file _ _ rest => max 1 rest.depth
  | dir _ _ inside rest => max (inside.depth + 1) rest.depth

/-- The records of one directory, then those of another. -/
def append : Records → Records → Records
  | nil, m => m
  | file name data rest, m => file name data (rest.append m)
  | dir kind name inside rest, m => dir kind name inside (rest.append m)

theorem count_append (r m : Records) : (r.append m).count = r.count + m.count := by
  induction r with
  | nil => simp [append, count]
  | file name data rest ih => rw [append, count, count, ih]; omega
  | dir kind name inside rest _ ih => rw [append, count, count, ih]; omega

theorem encode_append (r m : Records) : (r.append m).encode = r.encode ++ m.encode := by
  induction r with
  | nil => rfl
  | file name data rest ih => simp [append, encode, ih]
  | dir kind name inside rest _ ih => simp [append, encode, ih]

theorem sized_append {r m : Records} (hr : r.Sized) (hm : m.Sized) : (r.append m).Sized := by
  induction r with
  | nil => exact hm
  | file name data rest ih => exact ⟨hr.1, hr.2.1, ih hr.2.2⟩
  | dir kind name inside rest _ ih => exact ⟨hr.1, hr.2.1, hr.2.2.1, hr.2.2.2.1, ih hr.2.2.2.2⟩

theorem depth_le_length (r : Records) : r.depth ≤ r.encode.length := by
  induction r with
  | nil => exact le_rfl
  | file name data rest ih =>
    simp only [depth, encode, length_append, length_headerBytes]
    omega
  | dir kind name inside rest ihi ih =>
    simp only [depth, encode, length_append, length_headerBytes]
    omega

end Records

/-! ### Replaying -/

namespace Vfs

/-- A file is created below `p` and filled. -/
def putFile (fs : Vfs) (p : ℕ) (name : Text) (data : List UInt8) : Option Vfs :=
  match fs.createFile p name with
  | (false, _) => none
  | (true, fs) =>
      if data = [] then some fs
      else
        match fs.writeBytes p name data with
        | (false, _) => none
        | (true, fs) => some fs

/-- A directory is created below `p`: the node that its name then leads to, and the tree. -/
def putDir (fs : Vfs) (p : ℕ) (name : Text) : Option (ℕ × Vfs) :=
  match fs.mkdir p name with
  | (false, _) => none
  | (true, fs) => (fs.resolve p name).map fun dir => (dir, fs)

end Vfs

/-- The tree after the records have been replayed below `p`, if every call succeeds. -/
def Records.replay : Records → ℕ → Vfs → Option Vfs
  | nil, _, fs => some fs
  | file name data rest, p, fs => (fs.putFile p name data).bind fun fs => rest.replay p fs
  | dir _ name inside rest, p, fs =>
      (fs.putDir p name).bind fun made =>
        (inside.replay made.1 made.2).bind fun fs => rest.replay p fs

theorem Records.replay_append (r m : Records) (p : ℕ) (fs : Vfs) :
    (r.append m).replay p fs = (r.replay p fs).bind fun fs => m.replay p fs := by
  induction r generalizing fs with
  | nil => rfl
  | file name data rest ih =>
    rw [append, replay, replay, bind_assoc]
    exact congrArg _ (funext ih)
  | dir kind name inside rest _ ih =>
    rw [append, replay, replay, bind_assoc]
    refine congrArg _ (funext fun made => ?_)
    rw [bind_assoc]
    exact congrArg _ (funext ih)

/-! ### What the reader accepts -/

namespace Vfs

variable {fs fs' : Vfs} {p : ℕ} {name : Text}

/-- The record of a file that is accepted. -/
theorem readerFile_eq_some_iff (hbuf : buf.length < 2 ^ 63) :
    readerFile buf (some p) name pos fs = (some pos', fs') ↔ ∃ data : List UInt8,
      Lies buf pos (leBytes 4 data.length ++ data) ∧ data.length < 2 ^ 32 ∧
      pos' = pos + (leBytes 4 data.length ++ data).length ∧ fs.putFile p name data = some fs' := by
  have hread : ∀ {data : List UInt8}, Lies buf pos (leBytes 4 data.length ++ data) →
      data.length < 2 ^ 32 → readerU32 buf pos = some (data.length, pos + 4) ∧
        readerBytes buf (pos + 4) data.length = some (data, pos + 4 + data.length) := by
    intro data hlies hlt
    rw [lies_append, length_leBytes] at hlies
    exact ⟨(readerU32_eq_some_iff hbuf).mpr ⟨hlies.1, hlt, rfl⟩,
      (readerBytes_eq_some_iff hbuf hlt).mpr ⟨hlies.2, rfl, rfl⟩⟩
  unfold readerFile putFile
  rcases hsize : readerU32 buf pos with _ | ⟨size, pos₁⟩
  · refine ⟨(nomatch ·), fun ⟨data, hlies, hlt, _⟩ => ?_⟩
    rw [(hread hlies hlt).1] at hsize
    cases hsize
  dsimp only
  rcases fs.createFile p name with ⟨_ | _, fs₁⟩
  · exact ⟨(nomatch ·), fun ⟨_, _, _, _, h⟩ => nomatch h⟩
  dsimp only
  constructor
  · intro h
    obtain ⟨hlies, hlt, rfl⟩ := (readerU32_eq_some_iff hbuf).mp hsize
    split at h
    · rename_i hzero
      obtain ⟨hpos, rfl⟩ := Prod.mk.inj h
      refine ⟨[], by simpa [hzero] using hlies, by simp, ?_, rfl⟩
      rw [← some.inj hpos]
      simp
    · rename_i hpositive
      split at h
      · cases h
      · rename_i data pos₂ hdata
        obtain ⟨hlies', hlen, rfl⟩ := (readerBytes_eq_some_iff hbuf hlt).mp hdata
        split at h
        · cases h
        · rename_i fs₂ hwrite
          obtain ⟨hpos, rfl⟩ := Prod.mk.inj h
          have hne : data ≠ [] := by
            rintro rfl
            exact hpositive hlen.symm
          refine ⟨data, ?_, by omega, ?_, ?_⟩
          · rw [lies_append, hlen, length_leBytes]
            exact ⟨hlies, hlies'⟩
          · rw [← some.inj hpos, length_append, length_leBytes]
            omega
          · rw [if_neg hne, hwrite]
  · rintro ⟨data, hlies, hlt, rfl, hput⟩
    obtain ⟨hnumber, hdata⟩ := hread hlies hlt
    obtain ⟨rfl, rfl⟩ := Prod.mk.inj (some.inj (hsize.symm.trans hnumber))
    rw [length_append, length_leBytes]
    by_cases hne : data = []
    · subst hne
      rw [if_pos rfl] at hput
      rw [if_pos length_nil, some.inj hput]
      rfl
    · rw [if_neg hne] at hput
      rw [if_neg (by simpa using hne), hdata]
      dsimp only
      rcases hwrite : fs₁.writeBytes p name data with ⟨_ | _, fs₂⟩
      · rw [hwrite] at hput
        cases hput
      · rw [hwrite] at hput
        rw [some.inj hput, Nat.add_assoc]

theorem readerDir_eq_some_iff {dir : ℕ} :
    readerDir (some p) name fs = (some dir, fs') ↔ fs.putDir p name = some (dir, fs') := by
  unfold readerDir putDir
  dsimp only
  rcases hmkdir : fs.mkdir p name with ⟨_ | _, fs₁⟩
  · simp
  · cases hres : fs₁.resolve p name with
    | none => simp [hres]
    | some d => simp [hres]

theorem readerRepeat_succ_eq_some_iff {read : ℕ → Vfs → Option ℕ × Vfs} {k : ℕ} :
    readerRepeat read (k + 1) pos fs = (some pos', fs') ↔ ∃ pos₁ fs₁,
      read pos fs = (some pos₁, fs₁) ∧ readerRepeat read k pos₁ fs₁ = (some pos', fs') := by
  rw [readerRepeat]
  rcases hread : read pos fs with ⟨_ | pos₁, fs₁⟩
  · simp
  · constructor
    · exact fun h => ⟨pos₁, fs₁, rfl, h⟩
    · rintro ⟨pos₂, fs₂, heq, h⟩
      obtain ⟨hpos, rfl⟩ := Prod.mk.inj heq
      rw [some.inj hpos]
      exact h

/-- One record of a directory. -/
theorem readerNode_succ_eq_some_iff (hbuf : buf.length < 2 ^ 63) :
    readerNode (n + 1) buf (some p) pos fs = (some pos', fs') ↔ ∃ kind name pos₁,
      readerHeader buf pos = some (kind, name, pos₁) ∧
      (kind = 1 ∧ readerFile buf (some p) name pos₁ fs = (some pos', fs') ∨
        kind ≠ 1 ∧ ∃ dir fs₁ count, fs.putDir p name = some (dir, fs₁) ∧
          Lies buf pos₁ (leBytes 4 count) ∧ count < 2 ^ 32 ∧
          readerRepeat (readerNode n buf (some dir)) count (pos₁ + 4) fs₁ = (some pos', fs')) := by
  rw [readerNode]
  cases hheader : readerHeader buf pos with
  | none => simp
  | some header =>
    obtain ⟨kind, name, pos₁⟩ := header
    dsimp only
    constructor
    · intro h
      refine ⟨kind, name, pos₁, rfl, ?_⟩
      split at h
      · exact Or.inl ⟨‹_›, h⟩
      · refine Or.inr ⟨‹_›, ?_⟩
        split at h
        · cases h
        · rename_i dir fs₁ hdir
          split at h
          · cases h
          · rename_i count pos₂ hcount
            obtain ⟨hlies, hlt, rfl⟩ := (readerU32_eq_some_iff hbuf).mp hcount
            exact ⟨dir, fs₁, count, readerDir_eq_some_iff.mp hdir, hlies, hlt, h⟩
    · rintro ⟨kind', name', pos₂, heq, h⟩
      obtain ⟨rfl, htail⟩ := Prod.mk.inj (some.inj heq)
      obtain ⟨rfl, rfl⟩ := Prod.mk.inj htail
      rcases h with ⟨hkind, h⟩ | ⟨hkind, dir, fs₁, count, hdir, hlies, hlt, h⟩
      · rw [if_pos hkind]
        exact h
      · rw [if_neg hkind, readerDir_eq_some_iff.mpr hdir]
        dsimp only
        rw [(readerU32_eq_some_iff hbuf).mpr ⟨hlies, hlt, rfl⟩]
        exact h

/-- What the reader accepts are records whose replay succeeds. -/
theorem readerRepeat_sound (hbuf : buf.length < 2 ^ 63) {k : ℕ} (hpos : pos ≤ buf.length)
    (h : readerRepeat (readerNode n buf (some p)) k pos fs = (some pos', fs')) :
    ∃ r : Records, r.count = k ∧ r.Sized ∧ Lies buf pos r.encode ∧
      pos' = pos + r.encode.length ∧ r.replay p fs = some fs' := by
  induction n generalizing p k pos pos' fs fs' with
  | zero =>
    cases k with
    | zero =>
      obtain ⟨heq, rfl⟩ := Prod.mk.inj h
      exact ⟨.nil, rfl, trivial, lies_nil hpos, (some.inj heq).symm, rfl⟩
    | succ k =>
      obtain ⟨pos₁, fs₁, hnode, -⟩ := readerRepeat_succ_eq_some_iff.mp h
      simp [readerNode] at hnode
  | succ n ihn =>
    induction k generalizing pos fs with
    | zero =>
      obtain ⟨heq, rfl⟩ := Prod.mk.inj h
      exact ⟨.nil, rfl, trivial, lies_nil hpos, (some.inj heq).symm, rfl⟩
    | succ k ih =>
      obtain ⟨pos₁, fs₁, hnode, hrest⟩ := readerRepeat_succ_eq_some_iff.mp h
      -- the first record, on its own
      obtain ⟨r, hcount, hsized, hlies, rfl, hreplay⟩ : ∃ r : Records, r.count = 1 ∧ r.Sized ∧
          Lies buf pos r.encode ∧ pos₁ = pos + r.encode.length ∧ r.replay p fs = some fs₁ := by
        obtain ⟨kind, name, pos₂, hheader, hbody⟩ := (readerNode_succ_eq_some_iff hbuf).mp hnode
        obtain ⟨hhead, hkind, hname, rfl⟩ := (readerHeader_eq_some_iff hbuf).mp hheader
        rcases hbody with ⟨rfl, hfile⟩ | ⟨hne, dir, fs₂, count, hdir, hcount, hlt, hinside⟩
        · obtain ⟨data, hdata, hlt, rfl, hput⟩ := (readerFile_eq_some_iff hbuf).mp hfile
          refine ⟨.file name data .nil, rfl, ⟨hname, hlt, trivial⟩, ?_, ?_, ?_⟩
          · rw [Records.encode, Records.encode, List.append_nil, lies_append]
            exact ⟨hhead, hdata⟩
          · simp only [Records.encode, List.append_nil, length_append]
            omega
          · rw [Records.replay, hput]
            rfl
        · have hpos' := hcount.le_length
          rw [length_leBytes] at hpos'
          obtain ⟨r, rfl, hsized, hlies, rfl, hreplay⟩ := ihn hpos' hinside
          refine ⟨.dir kind name r .nil, rfl, ⟨⟨hkind, hne⟩, hname, hlt, hsized, trivial⟩,
            ?_, ?_, ?_⟩
          · rw [Records.encode, Records.encode, List.append_nil, lies_append, lies_append,
              length_leBytes]
            exact ⟨hhead, hcount, hlies⟩
          · simp only [Records.encode, List.append_nil, length_append, length_leBytes]
            omega
          · rw [Records.replay, hdir, bind_some, hreplay]
            rfl
      obtain ⟨m, rfl, hsized', hlies', rfl, hreplay'⟩ := ih hlies.le_length hrest
      refine ⟨r.append m, ?_, Records.sized_append hsized hsized', ?_, ?_, ?_⟩
      · rw [Records.count_append, hcount, Nat.add_comm]
      · rw [Records.encode_append, lies_append]
        exact ⟨hlies, hlies'⟩
      · rw [Records.encode_append, length_append, Nat.add_assoc]
      · rw [Records.replay_append, hreplay]
        exact hreplay'

/-- Records whose replay succeeds are accepted. -/
theorem readerRepeat_complete (hbuf : buf.length < 2 ^ 63) {r : Records} (hsized : r.Sized)
    (hlies : Lies buf pos r.encode) (hdepth : r.depth ≤ n) (h : r.replay p fs = some fs') :
    readerRepeat (readerNode n buf (some p)) r.count pos fs =
      (some (pos + r.encode.length), fs') := by
  induction r generalizing n p pos fs fs' with
  | nil =>
    rw [← some.inj h]
    rfl
  | file name data rest ih =>
    obtain ⟨hname, hlt, hsized⟩ := hsized
    obtain ⟨n, rfl⟩ : ∃ k, n = k + 1 := ⟨n - 1, by rw [Records.depth] at hdepth; omega⟩
    obtain ⟨fs₁, hput, hrest⟩ := bind_eq_some_iff.mp h
    rw [Records.encode, ← List.append_assoc, ← List.append_assoc, lies_append] at hlies
    obtain ⟨hself, htail⟩ := hlies
    rw [List.append_assoc, lies_append] at hself
    refine readerRepeat_succ_eq_some_iff.mpr
      ⟨pos + (headerBytes 1 name ++ leBytes 4 data.length ++ data).length, fs₁, ?_, ?_⟩
    · refine (readerNode_succ_eq_some_iff hbuf).mpr
        ⟨1, name, pos + (headerBytes 1 name).length, ?_, Or.inl ⟨rfl, ?_⟩⟩
      · exact (readerHeader_eq_some_iff hbuf).mpr ⟨hself.1, by omega, hname, rfl⟩
      · refine (readerFile_eq_some_iff hbuf).mpr ⟨data, hself.2, hlt, ?_, hput⟩
        simp only [length_append]
        omega
    · rw [ih hsized htail (le_trans (le_max_right _ _) hdepth) hrest]
      simp only [Records.encode, length_append]
      congr 2
      omega
  | dir kind name inside rest ihi ih =>
    obtain ⟨⟨hkind, hne⟩, hname, hlt, hsizedi, hsized⟩ := hsized
    obtain ⟨n, rfl⟩ : ∃ k, n = k + 1 := ⟨n - 1, by rw [Records.depth] at hdepth; omega⟩
    obtain ⟨⟨dir, fs₁⟩, hput, h⟩ := bind_eq_some_iff.mp h
    obtain ⟨fs₂, hinside, hrest⟩ := bind_eq_some_iff.mp h
    rw [Records.depth] at hdepth
    rw [Records.encode, lies_append, lies_append, lies_append, length_leBytes] at hlies
    obtain ⟨hhead, hcount, hliesi, htail⟩ := hlies
    refine readerRepeat_succ_eq_some_iff.mpr
      ⟨pos + (headerBytes kind name).length + 4 + inside.encode.length, fs₂, ?_, ?_⟩
    · refine (readerNode_succ_eq_some_iff hbuf).mpr
        ⟨kind, name, pos + (headerBytes kind name).length, ?_, Or.inr ⟨hne, ?_⟩⟩
      · exact (readerHeader_eq_some_iff hbuf).mpr ⟨hhead, hkind, hname, rfl⟩
      · exact ⟨dir, fs₁, inside.count, hput, hcount, hlt, ihi hsizedi hliesi (by omega) hinside⟩
    · rw [ih hsized htail (by omega) hrest]
      simp only [Records.encode, length_append, length_leBytes]
      congr 2
      omega

end Vfs

/-- The bytes of a saved tree: the record of the root, and the records inside. -/
def rootRecord (kind : ℕ) (name : Text) (r : Records) : List UInt8 :=
  headerBytes kind name ++ (leBytes 4 r.count ++ r.encode)

namespace Vfs

variable {fs fs' : Vfs}

/-- What the reader accepts as a whole. -/
theorem readerNode_root_eq_some_iff (hbuf : buf.length < 2 ^ 63) (hn : buf.length ≤ n) :
    readerNode (n + 1) buf none 0 fs = (some pos, fs') ↔ ∃ kind name r,
      (kind < 256 ∧ kind ≠ 1) ∧ (utf8Bytes name).length < nameMax ∧ r.count < 2 ^ 32 ∧ r.Sized ∧
      Lies buf 0 (rootRecord kind name r) ∧ pos = (rootRecord kind name r).length ∧
      r.replay fs.root fs = some fs' := by
  rw [readerNode]
  constructor
  · intro h
    split at h
    · cases h
    rename_i kind name pos₁ hheader
    obtain ⟨hhead, hkind, hname, rfl⟩ := (readerHeader_eq_some_iff hbuf).mp hheader
    split at h
    · unfold readerFile at h
      split at h
      · rename_i hnone
        cases hnone
      · cases h
    rename_i hne
    dsimp only [readerDir] at h
    split at h
    · cases h
    rename_i count pos₂ hcount
    obtain ⟨hlies, hlt, rfl⟩ := (readerU32_eq_some_iff hbuf).mp hcount
    have hpos := hlies.le_length
    rw [length_leBytes] at hpos
    obtain ⟨r, rfl, hsized, hlies', rfl, hreplay⟩ := readerRepeat_sound hbuf hpos h
    refine ⟨kind, name, r, ⟨hkind, hne⟩, hname, hlt, hsized, ?_, ?_, hreplay⟩
    · rw [rootRecord, lies_append, lies_append, length_leBytes]
      exact ⟨hhead, hlies, hlies'⟩
    · simp only [rootRecord, length_append, length_leBytes]
      omega
  · rintro ⟨kind, name, r, ⟨hkind, hne⟩, hname, hlt, hsized, hlies, rfl, hreplay⟩
    have hdepth : r.depth ≤ n := by
      have := hlies.le_length
      simp only [rootRecord, length_append] at this
      have := r.depth_le_length
      omega
    rw [rootRecord, lies_append, lies_append, length_leBytes] at hlies
    obtain ⟨hhead, hcount, hinside⟩ := hlies
    rw [(readerHeader_eq_some_iff hbuf).mpr ⟨hhead, hkind, hname, rfl⟩]
    dsimp only [readerDir]
    rw [if_neg hne, (readerU32_eq_some_iff hbuf).mpr ⟨hcount, hlt, rfl⟩]
    dsimp only
    rw [readerRepeat_complete hbuf hsized hinside hdepth hreplay]
    simp only [rootRecord, length_append, length_leBytes]
    congr 2
    omega

/-! ### The bound on the nesting -/

end Vfs

end AnssOS
