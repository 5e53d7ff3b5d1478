import AnssOS.Fs.DotNames
import AnssOS.Fs.Listing
import AnssOS.Fs.Records

/-!
# What the replay of records builds

Replaying records below a directory puts their entries in front of those that are there, the last
record first.  This needs the names to be plain: a name with a slash in it is read as a path, and
what is inside a directory named `.` or `..` goes elsewhere.

### Outline

* `Grown`: new entries have appeared in front of the others in one directory, and nothing else has
  changed; it composes along a directory and into a new directory;
* `putFile` and `putDir` make one entry;
* `Records.grown_of_replay`: what a replay that succeeds builds, and `Records.exists_replay`: when it
  does.
-/

namespace AnssOS

open List Option

namespace Vfs

variable {fs fs₁ fs₂ fs' : Vfs} {p : ℕ} {name : Text} {kind : VnodeType}

/-! ### A new leaf -/

theorem IsTree.children_of_chain (h : IsTree fs) (hp : p ∈ fs.live) {l : List ℕ}
    (hchain : Siblings fs.links.next (fs.links.first p) l) : fs.children p = l :=
  (h.grove.forest.siblings hp).unique hchain

theorem nodes_addLeaf_self (name : Text) (kind : VnodeType) (hp : p ≠ fs.next) :
    ((fs.allocVnode name kind).linkChild p fs.next).nodes fs.next =
      some ⟨cutName name, kind, some p, none, fs.links.first p, []⟩ := by
  have hfirst : (fs.allocVnode name kind).links.first p = fs.links.first p := by
    rw [first_eq, first_eq, nodes_alloc_of_ne _ _ _ hp]
  rw [linkChild, nodes_modify_of_ne _ _ hp.symm, nodes_modify_self, nodes_alloc_self, hfirst]
  rfl

theorem nodes_addLeaf_parent (name : Text) (kind : VnodeType) (hp : p ≠ fs.next) :
    ((fs.allocVnode name kind).linkChild p fs.next).nodes p =
      (fs.nodes p).map fun v => { v with children := some fs.next } := by
  rw [linkChild, nodes_modify_self, nodes_modify_of_ne _ _ hp, nodes_alloc_of_ne _ _ _ hp]

theorem nodes_addLeaf_of_ne (name : Text) (kind : VnodeType) {q : ℕ} (hqp : q ≠ p) (hq : q ≠ fs.next) :
    ((fs.allocVnode name kind).linkChild p fs.next).nodes q = fs.nodes q := by
  rw [linkChild, nodes_modify_of_ne _ _ hqp, nodes_modify_of_ne _ _ hq, nodes_alloc_of_ne _ _ _ hq]

/-! ### New entries in a directory -/

/-- New entries have appeared in the directory `p`, in front of the others.  The nodes there were are
as before, but for the first child of `p`. -/
structure Grown (fs fs' : Vfs) (p : ℕ) (l : Listing) : Prop where
  tree : IsTree fs'
  root : fs'.root = fs.root
  next_le : fs.next ≤ fs'.next
  same : ∀ q ∈ fs.live, q ≠ p → fs'.nodes q = fs.nodes q
  parent : ∀ v, fs.nodes p = some v → ∃ o, fs'.nodes p = some { v with children := o }
  added : ∃ new, fs'.children p = new ++ fs.children p ∧ fs'.Holds l new

namespace Grown

variable {l m : Listing}

theorem refl (h : IsTree fs) (p : ℕ) : Grown fs fs p .nil :=
  ⟨h, rfl, le_rfl, fun _ _ _ => rfl, fun v hv => ⟨v.children, hv⟩, [], rfl, trivial⟩

/-- A node there was is still there, with its name, kind and siblings. -/
theorem node (h : Grown fs fs' p l) {q : ℕ} {v : Vnode} (hq : fs.nodes q = some v) :
    ∃ o, fs'.nodes q = some { v with children := o } := by
  by_cases hqp : q = p
  · subst hqp
    exact h.parent v hq
  · exact ⟨v.children, (h.same q (mem_live.mpr ⟨v, hq⟩) hqp).trans hq⟩

theorem mem_live (h : Grown fs fs' p l) {q : ℕ} (hq : q ∈ fs.live) : q ∈ fs'.live := by
  obtain ⟨v, hv⟩ := Vfs.mem_live.mp hq
  obtain ⟨o, ho⟩ := h.node hv
  exact Vfs.mem_live.mpr ⟨_, ho⟩

theorem isDir (h : Grown fs fs' p l) {q : ℕ} (hq : fs.isDir q = true) : fs'.isDir q = true := by
  obtain ⟨v, hv⟩ := Vfs.mem_live.mp (mem_live_of_isDir hq)
  obtain ⟨o, ho⟩ := h.node hv
  rw [Vfs.isDir, ho]
  rw [Vfs.isDir, hv] at hq
  exact hq

theorem next_eq (h : Grown fs fs' p l) {q : ℕ} (hq : q ∈ fs.live) :
    fs'.links.next q = fs.links.next q := by
  obtain ⟨v, hv⟩ := Vfs.mem_live.mp hq
  obtain ⟨o, ho⟩ := h.node hv
  rw [Vfs.next_eq, Vfs.next_eq, ho, hv]
  rfl

theorem names (h : Grown fs fs' p l) (hp : p ∈ fs.live) (hfs : IsTree fs) :
    (fs'.children p).map fs'.nameOf = l.names ++ (fs.children p).map fs.nameOf := by
  obtain ⟨new, hchildren, hnew⟩ := h.added
  rw [hchildren, map_append, hnew.names]
  congr 1
  refine map_congr_left fun c hc => ?_
  obtain ⟨v, hv⟩ := Vfs.mem_live.mp ((hfs.grove.forest.mem_kids hp).mp hc).1
  obtain ⟨o, ho⟩ := h.node hv
  rw [nameOf, nameOf, ho, hv]
  rfl

/-- More entries in the same directory. -/
theorem trans (h : Grown fs fs₁ p l) (hp : p ∈ fs.live) (h' : Grown fs₁ fs₂ p m) :
    Grown fs fs₂ p (m.append l) := by
  have hp₁ := h.mem_live hp
  refine ⟨h'.tree, h'.root.trans h.root, h.next_le.trans h'.next_le, fun q hq hqp => ?_,
    fun v hv => ?_, ?_⟩
  · exact (h'.same q (h.mem_live hq) hqp).trans (h.same q hq hqp)
  · obtain ⟨o, ho⟩ := h.parent v hv
    obtain ⟨o', ho'⟩ := h'.parent _ ho
    exact ⟨o', ho'⟩
  · obtain ⟨new, hchildren, hnew⟩ := h.added
    obtain ⟨new', hchildren', hnew'⟩ := h'.added
    refine ⟨new' ++ new, ?_, hnew'.append ?_⟩
    · rw [hchildren', hchildren, List.append_assoc]
    -- what is below the first entries is not touched
    have hkid : ∀ c ∈ new, c ∈ fs₁.live ∧ fs₁.links.up c = some p := fun c hc =>
      (h.tree.grove.forest.mem_kids hp₁).mp (hchildren ▸ mem_append_left _ hc)
    refine h.tree.grove.holds_of_agree h'.next_le (fun c hc => (hkid c hc).1) ?_ hnew
    intro c hc q hq
    refine h'.same q (live_of_ancestor hq (hkid c hc).1) ?_
    rintro rfl
    exact h.tree.grove.forest.not_ancestor_of_up (hkid c hc).1 (hkid c hc).2 hq

end Grown

/-- A new leaf is an entry of the directory, in front of the others. -/
theorem IsTree.grown_leaf (h : IsTree fs) (hp : p ∈ fs.live) (htree : IsTree fs')
    (hroot : fs'.root = fs.root) (hnext : fs'.next = fs.next + 1)
    (hsame : ∀ q, q ≠ p → q ≠ fs.next → fs'.nodes q = fs.nodes q)
    (hparent : fs'.nodes p = (fs.nodes p).map fun v => { v with children := some fs.next })
    {w : Vnode} (hself : fs'.nodes fs.next = some w) (hsibling : w.sibling = fs.links.first p)
    (hempty : w.children = none) {l : Listing}
    (hl : w.kind = .file ∧ l = .file w.name w.data .nil ∨ w.kind = .dir ∧ l = .dir w.name .nil .nil) :
    fs'.children p = fs.next :: fs.children p ∧ Grown fs fs' p l := by
  obtain ⟨v, hv⟩ := mem_live.mp hp
  rw [hv] at hparent
  have hnew := h.grove.next_not_live
  have hchildren : fs'.children p = fs.next :: fs.children p := by
    refine htree.children_of_chain (mem_live.mpr ⟨_, hparent⟩) ⟨?_, ?_⟩
    · rw [first_eq, hparent]
      rfl
    · rw [next_eq, hself, show ((some w).map (·.sibling)).join = w.sibling from rfl, hsibling]
      refine (h.grove.forest.siblings hp).congr fun c hc => ?_
      have hc := (h.grove.forest.mem_kids hp).mp hc
      have hcp : c ≠ p := by
        rintro rfl
        exact h.grove.forest.not_ancestor_of_up hc.1 hc.2 Relation.ReflTransGen.refl
      rw [next_eq, next_eq, hsame c hcp fun heq => hnew (heq ▸ hc.1)]
  have hinside : fs'.children fs.next = [] := by
    refine htree.children_of_chain (mem_live.mpr ⟨w, hself⟩) ?_
    rw [first_eq, hself]
    exact hempty
  refine ⟨hchildren, htree, hroot, by omega, fun q hq hqp => ?_, fun u hu => ?_,
    [fs.next], hchildren, ?_⟩
  · exact hsame q hqp fun heq => hnew (heq ▸ hq)
  · obtain rfl : v = u := some.inj (hv.symm.trans hu)
    exact ⟨_, hparent⟩
  · rcases hl with ⟨hkind, rfl⟩ | ⟨hkind, rfl⟩
    · exact ⟨⟨w, hself, hkind, rfl, rfl⟩, trivial⟩
    · refine ⟨⟨w, hself, hkind, rfl⟩, ?_, trivial⟩
      rw [hinside]
      trivial

/-- The node of a directory that has just been made. -/
theorem Grown.new_dir (h : Grown fs fs₁ p (.dir name .nil .nil))
    (hfirst : fs₁.children p = fs.next :: fs.children p) :
    (∃ w, fs₁.nodes fs.next = some w ∧ w.kind = .dir ∧ w.name = name) ∧
      fs₁.children fs.next = [] := by
  obtain ⟨new, hadded, hholds⟩ := h.added
  have hone : new = [fs.next] := by
    rw [hfirst, ← singleton_append] at hadded
    exact (append_cancel_right hadded).symm
  rw [hone] at hholds
  obtain ⟨hnode, hempty, -⟩ := hholds
  refine ⟨hnode, ?_⟩
  cases hc : fs₁.children fs.next with
  | nil => rfl
  | cons c cs =>
    rw [hc] at hempty
    exact hempty.elim

/-- Entries in the directory that has just been made. -/
theorem Grown.fill {l : Listing} (h : Grown fs fs₁ p (.dir name .nil .nil)) (hfs : IsTree fs)
    (hp : p ∈ fs.live) (hfirst : fs₁.children p = fs.next :: fs.children p)
    (h' : Grown fs₁ fs₂ fs.next l) : Grown fs fs₂ p (.dir name l .nil) := by
  have hnew := hfs.grove.next_not_live
  have hne : p ≠ fs.next := fun heq => hnew (heq ▸ hp)
  have hp₁ := h.mem_live hp
  obtain ⟨⟨w, hw, hkind, hname⟩, hinside⟩ := h.new_dir hfirst
  have hchildren : fs₂.children p = fs.next :: fs.children p := by
    refine h'.tree.children_of_chain (h'.mem_live hp₁) ?_
    rw [first_eq, h'.same p hp₁ hne, ← first_eq, ← hfirst]
    refine (h.tree.grove.forest.siblings hp₁).congr fun c hc => h'.next_eq ?_
    exact ((h.tree.grove.forest.mem_kids hp₁).mp hc).1
  refine ⟨h'.tree, h'.root.trans h.root, h.next_le.trans h'.next_le, fun q hq hqp => ?_,
    fun v hv => ?_, [fs.next], hchildren, ?_⟩
  · have hqne : q ≠ fs.next := fun heq => hnew (heq ▸ hq)
    exact (h'.same q (h.mem_live hq) hqne).trans (h.same q hq hqp)
  · obtain ⟨o, ho⟩ := h.parent v hv
    exact ⟨o, (h'.same p hp₁ hne).trans ho⟩
  · obtain ⟨o, ho⟩ := h'.parent w hw
    obtain ⟨new', hadded', hholds'⟩ := h'.added
    refine ⟨⟨_, ho, hkind, hname⟩, ?_, trivial⟩
    rw [hadded', hinside, List.append_nil]
    exact hholds'

/-! ### One entry -/

theorem createLeaf_of_no_slash (kind : VnodeType) (hdir : fs.isDir p = true) (hlen : (utf8Bytes name).length < nameMax)
    (hslash : '/' ∉ name) : fs.createLeaf p name kind =
      if name = [] ∨ name ∈ (fs.children p).map fs.nameOf then (false, fs)
      else (true, (fs.allocVnode name kind).linkChild p fs.next) := by
  have hcut : cutName name = name := floorChars_of_le (Nat.le_pred_of_lt hlen)
  unfold createLeaf
  by_cases hne : name = []
  · subst hne
    rfl
  · rw [resolveParentAndLeaf_of_no_slash hne hslash, hcut]
    dsimp only
    by_cases hexists : name ∈ (fs.children p).map fs.nameOf
    · have hfind : (fs.findChild p name).isSome = true := by
        rw [← ne_none_iff_isSome]
        exact fun hnone => findChild_eq_none_iff.mp hnone hexists
      simp [hdir, hne, hfind, hexists]
    · rw [findChild_eq_none_iff.mpr hexists]
      simp [hdir, hne, hexists]

/-- A name leads to the leaf that was just made with it, unless it is `.` or `..`. -/
theorem resolve_first (hvalid : ValidName name) (hdot : ¬ IsDot name) (hdir : fs'.isDir p = true)
    {c : ℕ} {cs : List ℕ} (hchildren : fs'.children p = c :: cs) (hname : fs'.nameOf c = name) :
    fs'.resolve p name = some c := by
  rw [resolve_of_no_slash hvalid.no_slash,
    resolveComponent_of_not_dot hvalid.cutName_eq hvalid.ne_nil hdot, if_pos hdir, findChild,
    hchildren, find?_cons_of_pos (by simpa using hname)]

/-- `.` and `..` lead to a directory. -/
theorem IsTree.resolve_dot (h : IsTree fs) (hdir : fs.isDir p = true) (hdot : IsDot name) :
    ∃ d, fs.resolve p name = some d ∧ fs.isDir d = true := by
  have hslash : '/' ∉ name := by
    rcases hdot with rfl | rfl <;> decide
  rw [resolve_of_no_slash hslash]
  rcases resolveComponent_dot fs p hdot with heq | heq
  · exact ⟨p, heq, hdir⟩
  · cases hup : fs.links.up p with
    | none => exact ⟨p, by rw [heq, hup]; rfl, hdir⟩
    | some q =>
      refine ⟨q, by rw [heq, hup]; rfl, ?_⟩
      exact h.grove.dir_of_up (mem_live_of_isDir hdir) hup

section Entry

variable (h : IsTree fs) (hdir : fs.isDir p = true) (hlen : (utf8Bytes name).length < nameMax)
  (hslash : '/' ∉ name)

include h hdir hlen hslash

/-- What holds after a leaf was made. -/
theorem IsTree.leaf_spec (kind : VnodeType) (hne : name ≠ []) (hnew : name ∉ (fs.children p).map fs.nameOf)
    {l : Listing} (hl : kind = .file ∧ l = .file name [] .nil ∨ kind = .dir ∧ l = .dir name .nil .nil) :
    ValidName name ∧
      ((fs.allocVnode name kind).linkChild p fs.next).children p = fs.next :: fs.children p ∧
      Grown fs ((fs.allocVnode name kind).linkChild p fs.next) p l := by
  have hcut : cutName name = name := floorChars_of_le (Nat.le_pred_of_lt hlen)
  have hvalid : ValidName name := ⟨hne, Nat.le_pred_of_lt hlen, hslash⟩
  have hp := mem_live_of_isDir hdir
  have hpn : p ≠ fs.next := fun heq => h.grove.next_not_live (heq ▸ hp)
  refine ⟨hvalid, h.grown_leaf hp (h.addLeaf kind hdir hvalid hnew).1 rfl rfl
    (fun q hqp hq => nodes_addLeaf_of_ne name kind hqp hq) (nodes_addLeaf_parent name kind hpn)
    (nodes_addLeaf_self name kind hpn) rfl rfl ?_⟩
  rw [hcut]
  exact hl

/-- When a file is accepted, and what it is then. -/
theorem IsTree.putFile_spec (data : List UInt8) :
    (name = [] ∨ name ∈ (fs.children p).map fs.nameOf ∨ IsDot name ∧ data ≠ []) ∧
      fs.putFile p name data = none ∨
    (name ≠ [] ∧ name ∉ (fs.children p).map fs.nameOf ∧ (IsDot name → data = [])) ∧
      ∃ fs', fs.putFile p name data = some fs' ∧ Grown fs fs' p (.file name data .nil) := by
  have hcreate := createLeaf_of_no_slash .file hdir hlen hslash
  unfold putFile createFile
  by_cases hbad : name = [] ∨ name ∈ (fs.children p).map fs.nameOf
  · rw [hcreate, if_pos hbad]
    exact Or.inl ⟨hbad.imp_right Or.inl, rfl⟩
  obtain ⟨hne, hnew⟩ := not_or.mp hbad
  obtain ⟨hvalid, hchildren, hgrown⟩ :=
    h.leaf_spec hdir hlen hslash .file hne hnew (Or.inl ⟨rfl, rfl⟩)
  rw [hcreate, if_neg hbad]
  dsimp only
  by_cases hdata : data = []
  · subst hdata
    rw [if_pos rfl]
    exact Or.inr ⟨⟨hne, hnew, fun _ => rfl⟩, _, rfl, hgrown⟩
  rw [if_neg hdata]
  have hdir₁ := hgrown.isDir hdir
  have hp := mem_live_of_isDir hdir
  have hpn : p ≠ fs.next := fun heq => h.grove.next_not_live (heq ▸ hp)
  have hself := nodes_addLeaf_self name .file hpn
  rw [hvalid.cutName_eq] at hself
  by_cases hdot : IsDot name
  · -- the content would go to a directory
    obtain ⟨d, hres, hisDir⟩ := hgrown.tree.resolve_dot hdir₁ hdot
    refine Or.inl ⟨Or.inr (Or.inr ⟨hdot, hdata⟩), ?_⟩
    rw [Vfs.writeBytes, hres]
    dsimp only
    rw [Vfs.setData, if_pos hisDir]
  · have hres := resolve_first hvalid hdot hdir₁ hchildren (by rw [nameOf, hself]; rfl)
    have hfile : ((fs.allocVnode name .file).linkChild p fs.next).isDir fs.next = false := by
      rw [isDir, hself]
      rfl
    refine Or.inr ⟨⟨hne, hnew, fun h => absurd h hdot⟩,
      ((fs.allocVnode name .file).linkChild p fs.next).modify fs.next fun v => { v with data := data },
      ?_, ?_⟩
    · rw [Vfs.writeBytes, hres]
      dsimp only
      rw [Vfs.setData, hfile, if_neg Bool.false_ne_true]
    · have htree := (hgrown.tree.setData fs.next data).1
      rw [Vfs.setData, hfile, if_neg Bool.false_ne_true] at htree
      refine (h.grown_leaf hp htree rfl rfl (fun q hqp hq => ?_) ?_
        (w := ⟨name, .file, some p, none, fs.links.first p, data⟩) ?_ rfl rfl
        (Or.inl ⟨rfl, rfl⟩)).2
      · rw [nodes_modify_of_ne _ _ hq, nodes_addLeaf_of_ne name .file hqp hq]
      · rw [nodes_modify_of_ne _ _ hpn, nodes_addLeaf_parent name .file hpn]
      · rw [nodes_modify_self, hself]
        rfl

/-- When a directory is accepted, and what it is then. -/
theorem IsTree.putDir_spec :
    (name = [] ∨ name ∈ (fs.children p).map fs.nameOf) ∧ fs.putDir p name = none ∨
    (name ≠ [] ∧ name ∉ (fs.children p).map fs.nameOf) ∧
      ∃ d fs', fs.putDir p name = some (d, fs') ∧ (¬ IsDot name → d = fs.next) ∧
        fs'.isDir fs.next = true ∧ fs'.children p = fs.next :: fs.children p ∧
        Grown fs fs' p (.dir name .nil .nil) := by
  have hcreate := createLeaf_of_no_slash .dir hdir hlen hslash
  unfold putDir mkdir
  by_cases hbad : name = [] ∨ name ∈ (fs.children p).map fs.nameOf
  · rw [hcreate, if_pos hbad]
    exact Or.inl ⟨hbad, rfl⟩
  obtain ⟨hne, hnew⟩ := not_or.mp hbad
  obtain ⟨hvalid, hchildren, hgrown⟩ :=
    h.leaf_spec hdir hlen hslash .dir hne hnew (Or.inr ⟨rfl, rfl⟩)
  have hp := mem_live_of_isDir hdir
  have hpn : p ≠ fs.next := fun heq => h.grove.next_not_live (heq ▸ hp)
  have hself := nodes_addLeaf_self name .dir hpn
  rw [hvalid.cutName_eq] at hself
  have hisDir : ((fs.allocVnode name .dir).linkChild p fs.next).isDir fs.next = true := by
    rw [isDir, hself]
    rfl
  rw [hcreate, if_neg hbad]
  dsimp only
  refine Or.inr ⟨⟨hne, hnew⟩, ?_⟩
  by_cases hdot : IsDot name
  · obtain ⟨d, hres, -⟩ := hgrown.tree.resolve_dot (hgrown.isDir hdir) hdot
    rw [hres]
    exact ⟨d, _, rfl, fun h => absurd hdot h, hisDir, hchildren, hgrown⟩
  · have hres := resolve_first hvalid hdot (hgrown.isDir hdir) hchildren (by rw [nameOf, hself]; rfl)
    rw [hres]
    exact ⟨_, _, rfl, fun _ => rfl, hisDir, hchildren, hgrown⟩

end Entry

end Vfs

/-! ### Whole replays -/

/-- The entries that records stand for. -/
def Records.listing : Records → Listing
  | nil => .nil
  | file name data rest => .file name data rest.listing
  | dir _ name inside rest => .dir name inside.listing rest.listing

/-- The records of a listing. -/
def Listing.records : Listing → Records
  | nil => .nil
  | file name data rest => .file name data rest.records
  | dir name inside rest => .dir 0 name inside.records rest.records

/-- Every directory has the kind byte 0, no name has a slash in it, and there is nothing inside a
directory named `.` or `..`. -/
def Records.Plain : Records → Prop
  | nil => True
  | file name _ rest => '/' ∉ name ∧ rest.Plain
  | dir kind name inside rest =>
      kind = 0 ∧ '/' ∉ name ∧ (IsDot name → inside = nil) ∧ inside.Plain ∧ rest.Plain

/-- The names are valid and distinct in every directory, and there is nothing in an entry named `.`
or `..`. -/
def Listing.Sound : Listing → Prop
  | nil => True
  | file name data rest =>
      ValidName name ∧ name ∉ rest.names ∧ (IsDot name → data = []) ∧ rest.Sound
  | dir name inside rest =>
      ValidName name ∧ name ∉ rest.names ∧ (IsDot name → inside = nil) ∧ inside.Sound ∧ rest.Sound

theorem Listing.listing_records (l : Listing) : l.records.listing = l := by
  induction l with
  | nil => rfl
  | file name data rest ih => rw [records, Records.listing, ih]
  | dir name inside rest ihi ih => rw [records, Records.listing, ihi, ih]

theorem Records.records_listing {r : Records} (h : r.Plain) : r.listing.records = r := by
  induction r with
  | nil => rfl
  | file name data rest ih => rw [listing, Listing.records, ih h.2]
  | dir kind name inside rest ihi ih =>
    rw [listing, Listing.records, ihi h.2.2.2.1, ih h.2.2.2.2, h.1]

theorem Listing.plain_records {l : Listing} (h : l.Sound) : l.records.Plain := by
  induction l with
  | nil => trivial
  | file name data rest ih => exact ⟨h.1.no_slash, ih h.2.2.2⟩
  | dir name inside rest ihi ih =>
    obtain ⟨hvalid, -, hdot, hinside, hrest⟩ := h
    refine ⟨rfl, hvalid.no_slash, fun hd => ?_, ihi hinside, ih hrest⟩
    rw [hdot hd]
    rfl

namespace Records

variable {fs fs' : Vfs} {p : ℕ}

/-- What a replay that succeeds has built. -/
theorem grown_of_replay {r : Records} (hsized : r.Sized) (hplain : r.Plain) (h : fs.IsTree)
    (hdir : fs.isDir p = true) (hreplay : r.replay p fs = some fs') :
    Vfs.Grown fs fs' p r.listing.mirror := by
  induction r generalizing p fs fs' with
  | nil =>
    rw [← some.inj hreplay]
    exact Vfs.Grown.refl h p
  | file name data rest ih =>
    obtain ⟨hlen, -, hsized⟩ := hsized
    obtain ⟨hslash, hplain⟩ := hplain
    obtain ⟨fs₁, hput, hrest⟩ := bind_eq_some_iff.mp hreplay
    rcases h.putFile_spec hdir hlen hslash data with ⟨-, hnone⟩ | ⟨-, fs₂, hsome, hgrown⟩
    · rw [hnone] at hput
      cases hput
    · obtain rfl : fs₂ = fs₁ := some.inj (hsome.symm.trans hput)
      exact hgrown.trans (Vfs.mem_live_of_isDir hdir)
        (ih hsized hplain hgrown.tree (hgrown.isDir hdir) hrest)
  | dir kind name inside rest ihi ih =>
    obtain ⟨-, hlen, -, hsizedi, hsized⟩ := hsized
    obtain ⟨-, hslash, hdot, hplaini, hplain⟩ := hplain
    obtain ⟨⟨d, fs₁⟩, hput, hbind⟩ := bind_eq_some_iff.mp hreplay
    obtain ⟨fs₂, hinside, hrest⟩ := bind_eq_some_iff.mp hbind
    rcases h.putDir_spec hdir hlen hslash with ⟨-, hnone⟩ |
      ⟨-, d', fs₁', hsome, hd, hisDir, hchildren, hgrown⟩
    · rw [hnone] at hput
      cases hput
    obtain ⟨rfl, rfl⟩ := Prod.mk.inj (some.inj (hsome.symm.trans hput))
    have hp := Vfs.mem_live_of_isDir hdir
    -- the directory with what is inside
    have hfilled : Vfs.Grown fs fs₂ p (.dir name inside.listing.mirror .nil) := by
      by_cases hname : IsDot name
      · rw [hdot hname] at hinside ⊢
        rw [← some.inj hinside]
        exact hgrown
      · rw [hd hname] at hinside
        exact hgrown.fill h hp hchildren (ihi hsizedi hplaini hgrown.tree hisDir hinside)
    exact hfilled.trans hp (ih hsized hplain hfilled.tree (hfilled.isDir hdir) hrest)

/-- Sound entries can be replayed where their names are not taken. -/
theorem exists_replay {l : Listing} (hl : l.Sound) (hsized : l.records.Sized) (h : fs.IsTree)
    (hdir : fs.isDir p = true) (hnew : ∀ name ∈ l.names, name ∉ (fs.children p).map fs.nameOf) :
    ∃ fs', l.records.replay p fs = some fs' := by
  induction l generalizing p fs with
  | nil => exact ⟨fs, rfl⟩
  | file name data rest ih =>
    obtain ⟨hlen, -, hsized⟩ := hsized
    obtain ⟨hvalid, hfresh, hdot, hl⟩ := hl
    have hp := Vfs.mem_live_of_isDir hdir
    rcases h.putFile_spec hdir hlen hvalid.no_slash data with
      ⟨hbad | hbad | ⟨hbad, hdata⟩, -⟩ | ⟨-, fs₁, hput, hgrown⟩
    · exact absurd hbad hvalid.ne_nil
    · exact absurd hbad (hnew name mem_cons_self)
    · exact absurd (hdot hbad) hdata
    · obtain ⟨fs', hrest⟩ := ih hl hsized hgrown.tree (hgrown.isDir hdir) fun other hother => by
        rw [hgrown.names hp h]
        refine fun hmem => (mem_append.mp hmem).elim (fun hself => ?_) ?_
        · rw [mem_singleton.mp hself] at hother
          exact hfresh hother
        · exact hnew other (mem_cons_of_mem name hother)
      exact ⟨fs', by rw [Listing.records, replay, hput]; exact hrest⟩
  | dir name inside rest ihi ih =>
    obtain ⟨-, hlen, -, hsizedi, hsized⟩ := hsized
    obtain ⟨hvalid, hfresh, hdot, hli, hl⟩ := hl
    have hp := Vfs.mem_live_of_isDir hdir
    rcases h.putDir_spec hdir hlen hvalid.no_slash with
      ⟨hbad | hbad, -⟩ | ⟨-, d, fs₁, hput, hd, hisDir, hchildren, hgrown⟩
    · exact absurd hbad hvalid.ne_nil
    · exact absurd hbad (hnew name mem_cons_self)
    have hempty := (hgrown.new_dir hchildren).2
    -- the directory with what is inside
    obtain ⟨fs₂, hinside, hfilled⟩ : ∃ fs₂, inside.records.replay d fs₁ = some fs₂ ∧
        Vfs.Grown fs fs₂ p (.dir name inside.mirror .nil) := by
      by_cases hname : IsDot name
      · rw [hdot hname]
        exact ⟨fs₁, rfl, hgrown⟩
      · rw [hd hname]
        obtain ⟨fs₂, hreplay⟩ := ihi hli hsizedi hgrown.tree hisDir (by simp [hempty])
        refine ⟨fs₂, hreplay, ?_⟩
        have := grown_of_replay hsizedi (Listing.plain_records hli) hgrown.tree hisDir hreplay
        rw [Listing.listing_records] at this
        exact hgrown.fill h hp hchildren this
    obtain ⟨fs', hrest⟩ := ih hl hsized hfilled.tree (hfilled.isDir hdir) fun other hother => by
      rw [hfilled.names hp h]
      refine fun hmem => (mem_append.mp hmem).elim (fun hself => ?_) ?_
      · rw [mem_singleton.mp hself] at hother
        exact hfresh hother
      · exact hnew other (mem_cons_of_mem name hother)
    refine ⟨fs', ?_⟩
    rw [Listing.records, replay, hput, bind_some, hinside]
    exact hrest

end Records

end AnssOS
