import AnssOS.Fs.Persistence

/-!
# Arbitrary disks

What `load` does with a disk that was not written by `save`: whether it panics, what it leaves of a
tree that turns out to be corrupt, and whether the tree it builds is the one that the records stand
for.
-/

namespace AnssOS

open List Option

namespace Disk

variable {disk : Disk} {fs fs' : Vfs}

/-- The disk that begins with the given bytes, and is otherwise zero. -/
def beginning (bs : List UInt8) : Disk := { blank with bytes := fun a => bs.getD a 0 }

/-! ### Panics -/

end Disk

namespace Vfs

variable {fs fs' : Vfs} {buf : List UInt8} {n : ℕ}

/-- A call that fails has not changed the tree. -/
theorem createLeaf_of_false {base : ℕ} {path : Text} {kind : VnodeType}
    (h : fs.createLeaf base path kind = (false, fs')) : fs' = fs := by
  unfold createLeaf at h
  split at h
  · exact (Prod.mk.inj h).2.symm
  · split at h
    · exact (Prod.mk.inj h).2.symm
    · split at h
      · exact (Prod.mk.inj h).2.symm
      · split at h
        · exact (Prod.mk.inj h).2.symm
        · cases h

/-- The first record inside the root's makes a node. -/
def firstMakesNode (buf : List UInt8) (fs : Vfs) : Bool :=
  match readerHeader buf 0 with
  | none => false
  | some (kind, _, pos) =>
      kind ≠ 1 &&
        match readerU32 buf pos with
        | none => false
        | some (count, pos) =>
            count ≠ 0 &&
              match readerHeader buf pos with
              | none => false
              | some (kind, name, pos) =>
                  if kind = 1 then
                    (readerU32 buf pos).isSome && (fs.createFile fs.root name).1
                  else (fs.mkdir fs.root name).1

/-- A record that makes no node fails without a trace. -/
theorem readerNode_of_no_node {p pos : ℕ} {o : Option ℕ}
    (h : readerNode n buf (some p) pos fs = (o, fs'))
    (hno : ∀ kind name pos₁, readerHeader buf pos = some (kind, name, pos₁) →
      (kind = 1 → (readerU32 buf pos₁).isSome = true → (fs.createFile p name).1 = false) ∧
        (kind ≠ 1 → (fs.mkdir p name).1 = false)) : o = none ∧ fs' = fs := by
  cases n with
  | zero => exact ⟨(Prod.mk.inj h).1.symm, (Prod.mk.inj h).2.symm⟩
  | succ n =>
    rw [readerNode] at h
    cases hheader : readerHeader buf pos with
    | none =>
      rw [hheader] at h
      exact ⟨(Prod.mk.inj h).1.symm, (Prod.mk.inj h).2.symm⟩
    | some header =>
      obtain ⟨kind, name, pos₁⟩ := header
      obtain ⟨hfile, hdir⟩ := hno kind name pos₁ hheader
      rw [hheader] at h
      dsimp only at h
      split at h
      · rename_i hkind
        unfold readerFile at h
        split at h
        · rename_i size pos₂ q hsize hq
          obtain rfl := some.inj hq
          have hcreate := hfile hkind (by rw [hsize]; rfl)
          rcases hcall : fs.createFile p name with ⟨_ | _, fs₁⟩
          · rw [hcall] at h
            exact ⟨(Prod.mk.inj h).1.symm, (Prod.mk.inj h).2.symm.trans (createLeaf_of_false hcall)⟩
          · rw [hcall] at hcreate
            cases hcreate
        · exact ⟨(Prod.mk.inj h).1.symm, (Prod.mk.inj h).2.symm⟩
      · rename_i hkind
        have hmkdir := hdir hkind
        rcases hcall : fs.mkdir p name with ⟨_ | _, fs₁⟩
        · rw [readerDir, hcall] at h
          exact ⟨(Prod.mk.inj h).1.symm, (Prod.mk.inj h).2.symm.trans (createLeaf_of_false hcall)⟩
        · rw [hcall] at hmkdir
          cases hmkdir

theorem readerNode_unchanged (h : readerNode n buf none 0 fs = (none, fs'))
    (hno : firstMakesNode buf fs = false) : fs' = fs := by
  cases n with
  | zero => exact (Prod.mk.inj h).2.symm
  | succ n =>
    rw [readerNode] at h
    unfold firstMakesNode at hno
    cases hheader : readerHeader buf 0 with
    | none =>
      rw [hheader] at h
      exact (Prod.mk.inj h).2.symm
    | some header =>
      obtain ⟨kind, name, pos⟩ := header
      rw [hheader] at h hno
      dsimp only at h hno
      by_cases hkind : kind = 1
      · rw [if_pos hkind] at h
        unfold readerFile at h
        split at h
        · rename_i hnone
          cases hnone
        · exact (Prod.mk.inj h).2.symm
      rw [if_neg hkind] at h
      dsimp only [readerDir] at h
      cases hcount : readerU32 buf pos with
      | none =>
        rw [hcount] at h
        exact (Prod.mk.inj h).2.symm
      | some count =>
        obtain ⟨count, pos₁⟩ := count
        rw [hcount] at h hno
        dsimp only at h hno
        cases count with
        | zero => cases h
        | succ count =>
          rw [readerRepeat] at h
          have hfirst : ∀ kind name pos₂, readerHeader buf pos₁ = some (kind, name, pos₂) →
              (kind = 1 → (readerU32 buf pos₂).isSome = true →
                (fs.createFile fs.root name).1 = false) ∧
              (kind ≠ 1 → (fs.mkdir fs.root name).1 = false) := by
            intro kind' name' pos₂ hheader'
            rw [hheader'] at hno
            refine ⟨fun hk hsome => ?_, fun hk => ?_⟩
            · simpa [hkind, hk, hsome] using hno
            · simpa [hkind, hk] using hno
          rcases hread : readerNode n buf (some fs.root) pos₁ fs with ⟨o, fs₁⟩
          obtain ⟨rfl, rfl⟩ := readerNode_of_no_node hread hfirst
          rw [hread] at h
          exact (Prod.mk.inj h).2.symm

end Vfs

namespace Disk

variable {disk : Disk} {fs fs' : Vfs}

/-- The records of a tree, at the beginning of the data of a disk. -/
def withRecords (data : List UInt8) : Disk :=
  beginning (superblockBytes data.length ++ data)

end Disk

/-! ### Faithful decoding -/

/-- The buffer begins with a tree: the record of a root, and the records inside. -/
structure BeginsWith (buf : List UInt8) (kind : ℕ) (name : Text) (r : Records) : Prop where
  lies : Lies buf 0 (rootRecord kind name r)
  kind_ok : kind < 256 ∧ kind ≠ 1
  name_ok : (utf8Bytes name).length < nameMax
  count_ok : r.count < 2 ^ 32
  sized : r.Sized

section Unique

variable {buf : List UInt8} {pos kind kind' : ℕ} {name name' : Text} {r r' : Records}

theorem header_unique (hbuf : buf.length < 2 ^ 63) (h : Lies buf pos (headerBytes kind name))
    (h' : Lies buf pos (headerBytes kind' name')) (hk : kind < 256) (hk' : kind' < 256)
    (hn : (utf8Bytes name).length < nameMax) (hn' : (utf8Bytes name').length < nameMax) :
    kind = kind' ∧ name = name' := by
  have hread := (Vfs.readerHeader_eq_some_iff hbuf).mpr ⟨h, hk, hn, rfl⟩
  have hread' := (Vfs.readerHeader_eq_some_iff hbuf).mpr ⟨h', hk', hn', rfl⟩
  obtain ⟨hkind, hrest⟩ := Prod.mk.inj (some.inj (hread.symm.trans hread'))
  exact ⟨hkind, (Prod.mk.inj hrest).1⟩

theorem number_unique {v v' : ℕ} (h : Lies buf pos (leBytes 4 v)) (h' : Lies buf pos (leBytes 4 v'))
    (hv : v < 2 ^ 32) (hv' : v' < 2 ^ 32) : v = v' := by
  have heq := congrArg leNat (h.eq_of_length h' (by simp))
  rw [leNat_leBytes, leNat_leBytes] at heq
  omega

/-- What a buffer holds at a position are records in at most one way. -/
theorem Records.unique (hbuf : buf.length < 2 ^ 63) (h : Lies buf pos r.encode)
    (h' : Lies buf pos r'.encode) (hcount : r.count = r'.count) (hr : r.Sized) (hr' : r'.Sized) :
    r = r' := by
  induction r generalizing pos r' with
  | nil => cases r' <;> simp [count] at hcount ⊢
  | file name data rest ih =>
    rw [encode, lies_append, lies_append, lies_append, length_leBytes] at h
    cases r' with
    | nil => simp [count] at hcount
    | file name' data' rest' =>
      rw [encode, lies_append, lies_append, lies_append, length_leBytes] at h'
      obtain ⟨-, rfl⟩ := header_unique hbuf h.1 h'.1 (by omega) (by omega) hr.1 hr'.1
      have hlen := number_unique h.2.1 h'.2.1 hr.2.1 hr'.2.1
      obtain rfl := h.2.2.1.eq_of_length h'.2.2.1 hlen
      rw [ih h.2.2.2 h'.2.2.2 (by simpa [count] using hcount) hr.2.2 hr'.2.2]
    | dir kind' name' inside' rest' =>
      rw [encode, lies_append] at h'
      have hkind := (header_unique hbuf h.1 h'.1 (by omega) hr'.1.1 hr.1 hr'.2.1).1
      exact absurd hkind.symm hr'.1.2
  | dir kind name inside rest ihi ih =>
    rw [encode, lies_append, lies_append, lies_append, length_leBytes] at h
    cases r' with
    | nil => simp [count] at hcount
    | file name' data' rest' =>
      rw [encode, lies_append] at h'
      have hkind := (header_unique hbuf h.1 h'.1 hr.1.1 (by omega) hr.2.1 hr'.1).1
      exact absurd hkind hr.1.2
    | dir kind' name' inside' rest' =>
      rw [encode, lies_append, lies_append, lies_append, length_leBytes] at h'
      obtain ⟨rfl, rfl⟩ := header_unique hbuf h.1 h'.1 hr.1.1 hr'.1.1 hr.2.1 hr'.2.1
      have hlen := number_unique h.2.1 h'.2.1 hr.2.2.1 hr'.2.2.1
      obtain rfl := ihi h.2.2.1 h'.2.2.1 hlen hr.2.2.2.1 hr'.2.2.2.1
      rw [ih h.2.2.2 h'.2.2.2 (by simpa [count] using hcount) hr.2.2.2.2 hr'.2.2.2.2]

theorem BeginsWith.unique (hbuf : buf.length < 2 ^ 63) (h : BeginsWith buf kind name r)
    (h' : BeginsWith buf kind' name' r') : kind = kind' ∧ name = name' ∧ r = r' := by
  have hl := h.lies
  have hl' := h'.lies
  rw [rootRecord, lies_append, lies_append, length_leBytes] at hl hl'
  obtain ⟨rfl, rfl⟩ :=
    header_unique hbuf hl.1 hl'.1 h.kind_ok.1 h'.kind_ok.1 h.name_ok h'.name_ok
  have hcount := number_unique hl.2.1 hl'.2.1 h.count_ok h'.count_ok
  exact ⟨rfl, rfl, Records.unique hbuf hl.2.2 hl'.2.2 hcount h.sized h'.sized⟩

end Unique

namespace Vfs

variable {buf : List UInt8} {pos : ℕ} {fs' : Vfs}

/-- A buffer that is accepted begins with a tree, up to the position where the reader stops. -/
theorem beginsWith_of_accepted (hbuf : buf.length < 2 ^ 63)
    (h : readerNode (buf.length + 1) buf none 0 Vfs.init = (some pos, fs')) :
    ∃ kind name r, BeginsWith buf kind name r ∧ pos = (rootRecord kind name r).length ∧
      r.replay Vfs.init.root Vfs.init = some fs' := by
  obtain ⟨kind, name, r, hkind, hname, hcount, hsized, hlies, hpos, hreplay⟩ :=
    (readerNode_root_eq_some_iff hbuf le_rfl).mp h
  exact ⟨kind, name, r, ⟨hlies, hkind, hname, hcount, hsized⟩, hpos, hreplay⟩

/-- The records of a directory that holds a file. -/
def nestedBuffer : List UInt8 :=
  rootRecord 0 [] (.dir 0 "d".toList (.file "f".toList [5] .nil) .nil)

/-- The records of a directory and, beside it, of a file whose name is a path into it. -/
def slashBuffer : List UInt8 :=
  rootRecord 0 [] (.dir 0 "a".toList .nil (.file "a/b".toList [] .nil))

end Vfs

end AnssOS
