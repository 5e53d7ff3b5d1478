import AnssOS.Foundation.Transition
import AnssOS.Fs.Subtree

/-!
# The tree of the file system

Every operation of the file system keeps the tree: from the empty root on, whatever the paths are,
the nodes form a single tree below the root.  `Evolves` says which nodes an operation frees, which is
what the holders of pointers into the tree have to know.
-/

namespace AnssOS

open List Option Function

namespace Vfs

variable {fs fs' : Vfs} {kids : ℕ → List ℕ} {base : ℕ} {path : Text}

/-- The nodes form a single tree, and its root is a directory. -/
structure IsTree (fs : Vfs) : Prop where
  grove : Grove fs fs.children {fs.root}
  root_dir : fs.isDir fs.root = true

theorem Grove.isTree (h : Grove fs kids {fs.root}) (hdir : fs.isDir fs.root = true) : IsTree fs :=
  ⟨h.congr_kids fun _ hp => h.children_eq hp, hdir⟩

/-- The nodes of `gone` have been freed, and no other; the kind of a node never changes. -/
structure Evolves (gone : ℕ → Prop) (fs fs' : Vfs) : Prop where
  root : fs'.root = fs.root
  kept : ∀ q ∈ fs.live, ¬ gone q → q ∈ fs'.live ∧ fs'.isDir q = fs.isDir q
  freed : ∀ q, gone q → q ∉ fs'.live

/-- Nothing has been freed. -/
abbrev Keeps : Vfs → Vfs → Prop := Evolves fun _ => False

theorem Keeps.refl (fs : Vfs) : Keeps fs fs := ⟨rfl, fun _ hq _ => ⟨hq, rfl⟩, fun _ h => h.elim⟩

theorem Keeps.trans {fs'' : Vfs} (h : Keeps fs fs') (h' : Keeps fs' fs'') : Keeps fs fs'' := by
  refine ⟨h'.root.trans h.root, fun q hq _ => ?_, fun _ h => h.elim⟩
  obtain ⟨hq', hdir⟩ := h.kept q hq id
  obtain ⟨hq'', hdir'⟩ := h'.kept q hq' id
  exact ⟨hq'', hdir'.trans hdir⟩

theorem Extends.keeps (h : Extends fs fs') : Keeps fs fs' :=
  ⟨h.root, fun _ hq _ => ⟨h.mem_live hq, h.isDir hq⟩, fun _ h => h.elim⟩

theorem keeps_linkChild (fs : Vfs) (p c : ℕ) : Keeps fs (fs.linkChild p c) :=
  ⟨rfl, fun q hq _ => ⟨by rwa [live_linkChild], by rw [isDir_linkChild]⟩, fun _ h => h.elim⟩

theorem keeps_modify (fs : Vfs) (p : ℕ) {f : Vnode → Vnode} (h : ∀ v, (f v).kind = v.kind) :
    Keeps fs (fs.modify p f) :=
  ⟨rfl, fun q hq _ => ⟨by rwa [live_modify], by rw [isDir_modify _ _ h]⟩, fun _ h => h.elim⟩

/-! ### Paths -/

theorem findChild_eq_none_iff {p : ℕ} {name : Text} :
    fs.findChild p name = none ↔ name ∉ (fs.children p).map fs.nameOf := by
  rw [findChild, find?_eq_none]
  simp

namespace IsTree

theorem root_live (h : IsTree fs) : fs.root ∈ fs.live := mem_live_of_isDir h.root_dir

theorem up_root (h : IsTree fs) : fs.links.up fs.root = none :=
  h.grove.forest.up_of_mem_roots rfl

variable {c n parent src : ℕ} {leaf : Text}

section

variable (h : IsTree fs)

include h

/-- Every node but the root has a parent. -/
theorem exists_up (hc : c ∈ fs.live) (hne : c ≠ fs.root) : ∃ p, fs.links.up c = some p := by
  cases hup : fs.links.up c with
  | none => exact absurd (h.grove.forest.mem_roots.mpr ⟨hc, hup⟩) hne
  | some p => exact ⟨p, rfl⟩

theorem ancestor_root (hc : c ∈ fs.live) : fs.links.Ancestor fs.root c := by
  obtain ⟨r, rfl, hanc⟩ := h.grove.forest.rooted hc
  exact hanc

theorem findChild_some {p c : ℕ} {name : Text} (hp : p ∈ fs.live)
    (hfind : fs.findChild p name = some c) :
    c ∈ fs.live ∧ fs.links.up c = some p ∧ fs.nameOf c = name := by
  have hmem := mem_of_find?_eq_some hfind
  obtain ⟨hc, hup⟩ := (h.grove.forest.mem_kids hp).mp hmem
  exact ⟨hc, hup, by simpa using find?_some hfind⟩

theorem resolveComponent_live {cur n : ℕ} {component : Text} (hcur : cur ∈ fs.live)
    (hres : fs.resolveComponent cur component = some n) : n ∈ fs.live := by
  unfold resolveComponent at hres
  dsimp only at hres
  split at hres
  · exact some.inj hres ▸ hcur
  split at hres
  · cases hup : fs.links.up cur with
    | none =>
      rw [hup] at hres
      exact some.inj hres ▸ hcur
    | some p =>
      rw [hup] at hres
      exact some.inj hres ▸ h.grove.forest.up_live hcur hup
  split at hres
  · exact (h.findChild_some hcur hres).1
  · cases hres

theorem foldlM_resolveComponent_live {components : List Text} {cur n : ℕ} (hcur : cur ∈ fs.live)
    (hres : components.foldlM fs.resolveComponent cur = some n) : n ∈ fs.live := by
  induction components generalizing cur with
  | nil => exact some.inj hres ▸ hcur
  | cons component components ih =>
    rw [foldlM_cons] at hres
    obtain ⟨m, hm, hrest⟩ := bind_eq_some_iff.mp hres
    exact ih (h.resolveComponent_live hcur hm) hrest

theorem resolve_live (hbase : base ∈ fs.live)
    (hres : fs.resolve base path = some n) : n ∈ fs.live := by
  refine h.foldlM_resolveComponent_live ?_ hres
  split
  · exact h.root_live
  · exact hbase

theorem resolveParentAndLeaf_spec (hbase : base ∈ fs.live)
    (hres : fs.resolveParentAndLeaf base path = some (parent, leaf)) :
    parent ∈ fs.live ∧ ∃ name, leaf = cutName name ∧ '/' ∉ name := by
  unfold resolveParentAndLeaf at hres
  dsimp only at hres
  split at hres
  · cases hres
  obtain ⟨p, hp, heq⟩ := map_eq_some_iff.mp hres
  obtain ⟨rfl, rfl⟩ := Prod.mk.inj heq
  refine ⟨?_, _, rfl, fun hmem => ?_⟩
  · split at hp
    · exact some.inj hp ▸ hbase
    · exact some.inj hp ▸ h.root_live
    · exact h.resolve_live hbase hp
  · have := mem_rtakeWhile_imp hmem
    simp at this

end
/-! ### Operations -/

section

variable (h : IsTree fs)

include h

/-- What `create_leaf` can do. -/
theorem createLeaf_cases (hbase : base ∈ fs.live) (path : Text) (kind : VnodeType) :
    fs.createLeaf base path kind = (false, fs) ∨ ∃ parent leaf,
      fs.resolveParentAndLeaf base path = some (parent, leaf) ∧ fs.isDir parent = true ∧
      ValidName leaf ∧ leaf ∉ (fs.children parent).map fs.nameOf ∧
      fs.createLeaf base path kind =
        (true, (fs.allocVnode leaf kind).linkChild parent fs.next) := by
  unfold createLeaf
  split
  · exact Or.inl rfl
  rename_i parent leaf hres
  obtain ⟨-, name, rfl, hslash⟩ := h.resolveParentAndLeaf_spec hbase hres
  by_cases hdir : fs.isDir parent = true
  · by_cases hnil : cutName name = []
    · simp [hdir, hnil]
    · by_cases hexists : (fs.findChild parent (cutName name)).isSome = true
      · simp [hdir, hnil, hexists]
      · refine Or.inr ⟨parent, cutName name, hres, hdir, validName_cutName hnil hslash, ?_, ?_⟩
        · exact findChild_eq_none_iff.mp (by simpa using hexists)
        · simp [hdir, hnil, hexists]
  · simp [hdir]

/-- A new leaf below a directory. -/
theorem addLeaf (kind : VnodeType) (hdir : fs.isDir parent = true) (hvalid : ValidName leaf)
    (hnew : leaf ∉ (fs.children parent).map fs.nameOf) :
    IsTree ((fs.allocVnode leaf kind).linkChild parent fs.next) ∧
      Keeps fs ((fs.allocVnode leaf kind).linkChild parent fs.next) := by
  have hp := mem_live_of_isDir hdir
  have hnext := h.grove.next_not_live
  have hpne : parent ≠ fs.next := fun heq => hnext (heq ▸ hp)
  have hext := extends_alloc hnext leaf kind
  have hkeeps := hext.keeps.trans (keeps_linkChild _ parent fs.next)
  have halloc := h.grove.alloc leaf kind
  have hdir' : (fs.allocVnode leaf kind).isDir parent = true := (hext.isDir hp).trans hdir
  have hname : (fs.allocVnode leaf kind).nameOf fs.next = leaf := by
    rw [nameOf, nodes_alloc_self]
    exact hvalid.cutName_eq
  have hrootne : fs.root ≠ fs.next := fun heq => hnext (heq ▸ h.root_live)
  have hroots : insert fs.next {fs.root} \ {fs.next} = ({fs.root} : Set ℕ) := by
    refine Set.insert_sdiff_self_of_notMem ?_
    exact fun heq => hrootne (Set.mem_singleton_iff.mp heq).symm
  -- the new node is a root without children, so it is not above the directory
  have hapart : ¬ (fs.allocVnode leaf kind).links.Ancestor fs.next parent := by
    intro hanc
    have hkids := (halloc.forest.ancestor_iff_kids (by rw [live_alloc]; exact Set.mem_insert _ _)
      (hext.mem_live hp)).mp hanc
    rw [update_self] at hkids
    rcases hkids with heq | ⟨c, hc, -⟩
    · exact hpne heq.symm
    · cases hc
  have hnames : (fs.allocVnode leaf kind).nameOf fs.next ∉
      ((Function.update fs.children fs.next [] parent).map (fs.allocVnode leaf kind).nameOf) := by
    rw [update_of_ne hpne, hname,
      map_congr_left fun c hc => hext.nameOf ((h.grove.forest.mem_kids hp).mp hc).1]
    exact hnew
  have hlinked := halloc.link hdir' (Set.mem_insert _ _) hapart (hname.symm ▸ hvalid) hnames
  rw [hroots] at hlinked
  refine ⟨hlinked.isTree ?_, hkeeps⟩
  exact (hkeeps.kept fs.root h.root_live id).2.trans h.root_dir

theorem createLeaf (hbase : base ∈ fs.live) (path : Text) (kind : VnodeType) :
    IsTree (fs.createLeaf base path kind).2 ∧ Keeps fs (fs.createLeaf base path kind).2 := by
  rcases h.createLeaf_cases hbase path kind with heq | ⟨parent, leaf, -, hdir, hvalid,
    hnew, heq⟩
  · rw [heq]
    exact ⟨h, Keeps.refl fs⟩
  · rw [heq]
    exact h.addLeaf kind hdir hvalid hnew

/-- The content of a node is replaced. -/
theorem modifyData (node : ℕ) (data : List UInt8) :
    IsTree (fs.modify node fun v => { v with data := data }) ∧
      Keeps fs (fs.modify node fun v => { v with data := data }) := by
  have hgrove := h.grove.modify node (f := fun v => { v with data := data })
    (fun _ => ⟨rfl, rfl, rfl⟩) (fun _ => rfl) fun _ => rfl
  refine ⟨hgrove.isTree ?_, keeps_modify fs node fun _ => rfl⟩
  rw [isDir_modify _ _ fun _ => by rfl]
  exact h.root_dir

theorem setData (node : ℕ) (data : List UInt8) :
    IsTree (fs.setData node data).2 ∧ Keeps fs (fs.setData node data).2 := by
  unfold Vfs.setData
  split
  · exact ⟨h, Keeps.refl fs⟩
  · exact h.modifyData node data

theorem writeBytes (hbase : base ∈ fs.live) (path : Text) (data : List UInt8) :
    IsTree (fs.writeBytes base path data).2 ∧ Keeps fs (fs.writeBytes base path data).2 := by
  unfold Vfs.writeBytes
  split
  · exact h.setData _ data
  obtain ⟨htree, hkeeps⟩ := h.createLeaf hbase path .file
  split
  · rename_i fs' heq
    rw [show fs' = (fs.createLeaf base path .file).2 from (congrArg Prod.snd heq).symm]
    exact ⟨htree, hkeeps⟩
  · rename_i fs' heq
    rw [show fs' = (fs.createLeaf base path .file).2 from (congrArg Prod.snd heq).symm]
    split
    · obtain ⟨htree', hkeeps'⟩ := htree.setData ‹ℕ› data
      exact ⟨htree', hkeeps.trans hkeeps'⟩
    · exact ⟨htree, hkeeps⟩

theorem writeFile (hbase : base ∈ fs.live) (path : Text) (text : List UInt8)
    (append : Bool) : IsTree (fs.writeFile base path text append).2 ∧
      Keeps fs (fs.writeFile base path text append).2 := by
  unfold Vfs.writeFile
  split
  · exact h.writeBytes hbase path _
  · exact h.writeBytes hbase path text

/-- What `remove` can do. -/
theorem remove_cases (hbase : base ∈ fs.live) (path : Text) (cwd : ℕ) :
    fs.remove base path cwd = (false, fs) ∨ ∃ node parent,
      fs.resolve base path = some node ∧ node ∈ fs.live ∧ node ≠ fs.root ∧
      fs.isAncestorOrSelf node cwd = false ∧ fs.links.up node = some parent ∧
      fs.remove base path cwd = (true, freeTree fs.next (fs.unlinkChild parent node) node) := by
  cases hres : fs.resolve base path with
  | none => simp [Vfs.remove, hres]
  | some node =>
    by_cases hroot : node = fs.root
    · simp [Vfs.remove, hres, hroot]
    by_cases hcwd : fs.isAncestorOrSelf node cwd = true
    · simp [Vfs.remove, hres, hcwd]
    have hnode := h.resolve_live hbase hres
    obtain ⟨parent, hup⟩ := h.exists_up hnode hroot
    refine Or.inr ⟨node, parent, rfl, hnode, hroot, by simpa using hcwd, hup, ?_⟩
    simp [Vfs.remove, hres, hroot, hcwd, hup]

/-- A node other than the root goes, with all that is below it. -/
theorem cut {node parent : ℕ} (hnode : node ∈ fs.live) (hup : fs.links.up node = some parent) :
    IsTree (freeTree fs.next (fs.unlinkChild parent node) node) ∧
      Evolves (fs.links.Ancestor node) fs
        (freeTree fs.next (fs.unlinkChild parent node) node) := by
  obtain ⟨hlive, hdir, -, -, hnext, hsameRoot⟩ := fs.unlinkChild_same parent node
  have hfree := (h.grove.unlink hnode hup).freeTree (Set.mem_insert node _)
  rw [hnext] at hfree
  obtain ⟨htree, hfreed⟩ := hfree
  -- below the unlinked node are the same nodes as before
  have hup' := (h.grove.links_unlinkChild hnode hup).1
  have hbelow : ∀ q, (fs.unlinkChild parent node).links.Ancestor node q ↔
      fs.links.Ancestor node q := by
    intro q
    constructor <;> refine fun hanc => hanc.congr fun r _ _ hr => ?_
    · rw [hup', update_of_ne hr]
    · rw [hup', update_of_ne hr]
  have hne : node ≠ fs.root := by
    rintro rfl
    rw [h.up_root] at hup
    cases hup
  have hroots : ({node, fs.root} : Set ℕ) \ {node} = {fs.root} :=
    Set.insert_sdiff_self_of_notMem (by simpa using hne)
  rw [hroots] at htree
  have hkept : ∀ q ∈ fs.live, ¬ fs.links.Ancestor node q →
      q ∈ (freeTree fs.next (fs.unlinkChild parent node) node).live ∧
      (freeTree fs.next (fs.unlinkChild parent node) node).isDir q = fs.isDir q := by
    intro q hq hnot
    have hsame := hfreed.same q fun hanc => hnot ((hbelow q).mp hanc)
    refine ⟨?_, ?_⟩
    · rw [← hlive] at hq
      obtain ⟨v, hv⟩ := mem_live.mp hq
      exact mem_live.mpr ⟨v, hsame.trans hv⟩
    · rw [← hdir, isDir, isDir, hsame]
  have hrootEq : (freeTree fs.next (fs.unlinkChild parent node) node).root = fs.root :=
    hfreed.root.trans hsameRoot
  have hnotbelow : ¬ fs.links.Ancestor node fs.root := fun hanc => hne (hanc.eq_of_root h.up_root)
  refine ⟨Grove.isTree (by rw [hrootEq]; exact htree) ?_, hrootEq, hkept, ?_⟩
  · rw [hrootEq, (hkept fs.root h.root_live hnotbelow).2]
    exact h.root_dir
  · intro q hanc hq
    obtain ⟨v, hv⟩ := mem_live.mp hq
    rw [hfreed.gone q ((hbelow q).mpr hanc)] at hv
    cases hv

end
/-! ### Copying and moving -/

theorem resolveTarget_spec {leaf destPath : Text}
    (hres : fs.resolveTarget base destPath src = some (parent, leaf)) :
    fs.isDir parent = true ∧
      (fs.resolve base destPath = some parent ∧ leaf = fs.nameOf src ∨
        fs.resolveParentAndLeaf base destPath = some (parent, leaf) ∧
          ∀ dest, fs.resolve base destPath = some dest → fs.isDir dest = false) := by
  unfold resolveTarget at hres
  split at hres
  · rename_i dest hdest
    obtain ⟨hdest, hdir⟩ := filter_eq_some_iff.mp hdest
    obtain ⟨rfl, rfl⟩ := Prod.mk.inj (some.inj hres)
    exact ⟨hdir, Or.inl ⟨hdest, rfl⟩⟩
  · rename_i hnodir
    obtain ⟨hres, hdir⟩ := filter_eq_some_iff.mp hres
    refine ⟨hdir, Or.inr ⟨hres, fun dest hdest => ?_⟩⟩
    have := filter_eq_none_iff.mp hnodir dest hdest
    simpa using this

/-- The target of a copy or a move that is not refused. -/
structure Target (fs : Vfs) (base : ℕ) (srcPath destPath : Text) (src parent : ℕ) (leaf : Text) :
    Prop where
  src_eq : fs.resolve base srcPath = some src
  src_live : src ∈ fs.live
  src_ne : src ≠ fs.root
  parent_dir : fs.isDir parent = true
  apart : ¬ fs.links.Ancestor src parent
  valid : ValidName leaf
  named : fs.resolve base destPath = some parent ∧ leaf = fs.nameOf src ∨
    fs.resolveParentAndLeaf base destPath = some (parent, leaf) ∧
      ∀ dest, fs.resolve base destPath = some dest → fs.isDir dest = false

section

variable (h : IsTree fs)

include h

/-- The checks before a copy and before a move. -/
theorem target {srcPath destPath leaf : Text}
    (hbase : base ∈ fs.live) (hsrc : fs.resolve base srcPath = some src)
    (htarget : fs.resolveTarget base destPath src = some (parent, leaf)) (hleaf : leaf ≠ [])
    (hcheck : (fs.isDir src && fs.isAncestorOrSelf src parent) = false) :
    Target fs base srcPath destPath src parent leaf := by
  obtain ⟨hdir, hnamed⟩ := resolveTarget_spec htarget
  have hp := mem_live_of_isDir hdir
  have hlive := h.resolve_live hbase hsrc
  have hapart : ¬ fs.links.Ancestor src parent := by
    intro hanc
    rw [(h.grove.isAncestorOrSelf_iff hp).mpr hanc, Bool.and_true] at hcheck
    rcases (h.grove.forest.ancestor_iff_kids hlive hp).mp hanc with heq | ⟨c, hc, -⟩
    · rw [heq, hdir] at hcheck
      cases hcheck
    · rw [h.grove.kids_of_file hlive hcheck] at hc
      cases hc
  have hne : src ≠ fs.root := by
    rintro rfl
    exact hapart (h.ancestor_root hp)
  refine ⟨hsrc, hlive, hne, hdir, hapart, ?_, hnamed⟩
  rcases hnamed with ⟨-, rfl⟩ | ⟨hleafs, -⟩
  · obtain ⟨q, hup⟩ := h.exists_up hlive hne
    exact h.grove.valid hlive hup
  · obtain ⟨-, name, rfl, hslash⟩ := h.resolveParentAndLeaf_spec hbase hleafs
    exact validName_cutName hleaf hslash

/-- What `copy` can do, in terms of `copy_recursive`. -/
theorem copy_cases_run (hbase : base ∈ fs.live) (srcPath destPath : Text) :
    fs.copy base srcPath destPath = (false, fs) ∨ ∃ src parent leaf,
      Target fs base srcPath destPath src parent leaf ∧
      leaf ∉ (fs.children parent).map fs.nameOf ∧
      ∀ fs', copyRecursive fs.next fs src leaf = some (fs.next, fs') →
        fs.copy base srcPath destPath = (true, fs'.linkChild parent fs.next) := by
  unfold Vfs.copy
  cases hsrc : fs.resolve base srcPath with
  | none => exact Or.inl rfl
  | some src =>
    dsimp only
    cases htarget : fs.resolveTarget base destPath src with
    | none => exact Or.inl rfl
    | some target =>
      obtain ⟨parent, leaf⟩ := target
      dsimp only
      by_cases hleaf : leaf = []
      · exact Or.inl (if_pos hleaf)
      rw [if_neg hleaf]
      by_cases hexists : (fs.findChild parent leaf).isSome = true
      · exact Or.inl (if_pos hexists)
      rw [if_neg hexists]
      by_cases hcheck : (fs.isDir src && fs.isAncestorOrSelf src parent) = true
      · exact Or.inl (if_pos hcheck)
      rw [if_neg hcheck]
      have ht := h.target hbase hsrc htarget hleaf (by simpa using hcheck)
      refine Or.inr ⟨src, parent, leaf, ht, ?_, fun fs' hcopy => by rw [hcopy]⟩
      exact findChild_eq_none_iff.mp (by simpa using hexists)

/-- What `copy` can do. -/
theorem copy_cases (hbase : base ∈ fs.live) (srcPath destPath : Text) :
    fs.copy base srcPath destPath = (false, fs) ∨ ∃ src parent leaf fs',
      Target fs base srcPath destPath src parent leaf ∧
      leaf ∉ (fs.children parent).map fs.nameOf ∧ Copied fs fs {fs.root} src leaf fs' ∧
      fs.copy base srcPath destPath = (true, fs'.linkChild parent fs.next) := by
  rcases h.copy_cases_run hbase srcPath destPath with heq | ⟨src, parent, leaf, ht, hnew, hrun⟩
  · exact Or.inl heq
  · obtain ⟨fs', hcopy, hcopied⟩ := h.grove.copyRecursive ht.src_live leaf
    exact Or.inr ⟨src, parent, leaf, fs', ht, hnew, hcopied, hrun fs' hcopy⟩

/-- The copy is not above an old node. -/
theorem not_ancestor_copy {src p : ℕ} (hcopied : Copied fs fs {fs.root} src leaf fs')
    (hp : p ∈ fs.live) : ¬ fs'.links.Ancestor fs.next p := by
  obtain ⟨⟨kids', hgrove⟩, hext, -, -, -, -⟩ := hcopied
  intro hanc
  -- the ancestors of an old node are old
  have hroot : fs'.links.Ancestor fs.root p :=
    (h.ancestor_root hp).congr fun q _ hqp _ => by
      rw [up_eq, up_eq, hext.same q (h.grove.forest.ancestor_live hqp hp)]
  have := hgrove.forest.root_unique (Set.mem_insert _ _) (Set.mem_insert_of_mem _ rfl) hanc hroot
  exact h.grove.next_not_live (this ▸ h.root_live)

/-- The finished copy is linked. -/
theorem linkCopy (hdir : fs.isDir parent = true) (hvalid : ValidName leaf)
    (hnew : leaf ∉ (fs.children parent).map fs.nameOf)
    (hcopied : Copied fs fs {fs.root} src leaf fs') :
    IsTree (fs'.linkChild parent fs.next) ∧ Keeps fs (fs'.linkChild parent fs.next) := by
  have hp := mem_live_of_isDir hdir
  have hapart := h.not_ancestor_copy hcopied hp
  obtain ⟨⟨kids', hgrove⟩, hext, -, hname, -, -⟩ := hcopied
  have hkeeps := hext.keeps.trans (keeps_linkChild _ parent fs.next)
  have hnext := h.grove.next_not_live
  have hkids := h.grove.kids_eq_of_extends hgrove hext hp
  rw [hvalid.cutName_eq] at hname
  have hnames : fs'.nameOf fs.next ∉ (kids' parent).map fs'.nameOf := by
    rw [hkids, hname, map_congr_left fun c hc =>
      hext.nameOf ((h.grove.forest.mem_kids hp).mp hc).1]
    exact hnew
  have hlinked := hgrove.link ((hext.isDir hp).trans hdir) (Set.mem_insert _ _) hapart
    (hname.symm ▸ hvalid) hnames
  have hroots : insert fs.next {fs.root} \ {fs.next} = ({fs.root} : Set ℕ) := by
    refine Set.insert_sdiff_self_of_notMem fun heq => hnext ?_
    exact Set.mem_singleton_iff.mp heq ▸ h.root_live
  rw [hroots, ← hext.root] at hlinked
  refine ⟨hlinked.isTree ?_, hkeeps⟩
  exact (congrArg _ hext.root).trans ((hkeeps.kept fs.root h.root_live id).2.trans h.root_dir)

theorem copy (hbase : base ∈ fs.live) (srcPath destPath : Text) :
    IsTree (fs.copy base srcPath destPath).2 ∧ Keeps fs (fs.copy base srcPath destPath).2 := by
  rcases h.copy_cases hbase srcPath destPath with heq | ⟨src, parent, leaf, fs', ht, hnew, hcopied,
    heq⟩
  · rw [heq]
    exact ⟨h, Keeps.refl fs⟩
  · rw [heq]
    exact h.linkCopy ht.parent_dir ht.valid hnew hcopied

/-- No child but `src` itself has the name that the check of `move_node` looked up. -/
theorem not_mem_names_erase (hp : parent ∈ fs.live)
    (hcheck : (fs.findChild parent leaf).any (fun c => decide (c ≠ src)) = false) :
    leaf ∉ ((fs.children parent).erase src).map fs.nameOf := by
  intro hmem
  obtain ⟨c, hc, hname⟩ := List.mem_map.mp hmem
  have hnodup := h.grove.forest.nodup hp
  obtain ⟨hne, hckid⟩ := (hnodup.mem_erase_iff).mp hc
  cases hfind : fs.findChild parent leaf with
  | none => exact findChild_eq_none_iff.mp hfind (List.mem_map.mpr ⟨c, hckid, hname⟩)
  | some d =>
    -- the names of siblings are distinct, so the child found is this one
    have hd := mem_of_find?_eq_some hfind
    have hdname := (h.findChild_some hp hfind).2.2
    have hdc : d = c :=
      inj_on_of_nodup_map (h.grove.distinct hp) hd hckid (hdname.trans hname.symm)
    rw [hfind, hdc] at hcheck
    simp [hne] at hcheck

/-- What `move_node` can do. -/
theorem moveNode_cases (hbase : base ∈ fs.live) (srcPath destPath : Text) :
    fs.moveNode base srcPath destPath = (false, fs) ∨ ∃ src old parent leaf,
      Target fs base srcPath destPath src parent leaf ∧ fs.links.up src = some old ∧
      leaf ∉ ((fs.children parent).erase src).map fs.nameOf ∧
      fs.moveNode base srcPath destPath =
        (true, ((fs.unlinkChild old src).setName src leaf).linkChild parent src) := by
  unfold Vfs.moveNode
  cases hsrc : fs.resolve base srcPath with
  | none => exact Or.inl rfl
  | some src =>
    dsimp only
    by_cases hroot : src = fs.root
    · exact Or.inl (if_pos hroot)
    rw [if_neg hroot]
    cases htarget : fs.resolveTarget base destPath src with
    | none => exact Or.inl rfl
    | some target =>
      obtain ⟨parent, leaf⟩ := target
      dsimp only
      by_cases hleaf : leaf = []
      · exact Or.inl (if_pos hleaf)
      rw [if_neg hleaf]
      by_cases hother : (fs.findChild parent leaf).any (fun c => decide (c ≠ src)) = true
      · exact Or.inl (if_pos hother)
      rw [if_neg hother]
      by_cases hcheck : (fs.isDir src && fs.isAncestorOrSelf src parent) = true
      · exact Or.inl (if_pos hcheck)
      rw [if_neg hcheck]
      have ht := h.target hbase hsrc htarget hleaf (by simpa using hcheck)
      obtain ⟨old, hup⟩ := h.exists_up ht.src_live hroot
      refine Or.inr ⟨src, old, parent, leaf, ht, hup, ?_, by rw [hup]⟩
      exact h.not_mem_names_erase (mem_live_of_isDir ht.parent_dir) (by simpa using hother)

/-- A node gets another place and name. -/
theorem replant_grove {src old parent : ℕ} (hsrc : src ∈ fs.live) (hup : fs.links.up src = some old)
    (hdir : fs.isDir parent = true) (hapart : ¬ fs.links.Ancestor src parent)
    (hvalid : ValidName leaf) (hnew : leaf ∉ ((fs.children parent).erase src).map fs.nameOf) :
    Grove (((fs.unlinkChild old src).setName src leaf).linkChild parent src)
      (Function.update (Function.update fs.children old ((fs.children old).erase src)) parent
        (src :: (fs.children parent).erase src)) {fs.root} := by
  obtain ⟨hlive, hisDir, hnames, -, -, -⟩ := fs.unlinkChild_same old src
  have hp := mem_live_of_isDir hdir
  have hgrove := ((h.grove.unlink hsrc hup).setName (Set.mem_insert src _) leaf)
  have hlinks : ((fs.unlinkChild old src).setName src leaf).links = (fs.unlinkChild old src).links :=
    links_modify _ src fun v => ⟨rfl, rfl, rfl⟩
  have hdir' : ((fs.unlinkChild old src).setName src leaf).isDir = fs.isDir :=
    (isDir_modify _ src fun _ => by rfl).trans hisDir
  have hname : ((fs.unlinkChild old src).setName src leaf).nameOf src = leaf := by
    obtain ⟨v, hv⟩ := mem_live.mp (hlive.symm ▸ hsrc)
    rw [nameOf, Vfs.setName, nodes_modify_self, hv]
    exact hvalid.cutName_eq
  have hother : ∀ c, c ≠ src →
      ((fs.unlinkChild old src).setName src leaf).nameOf c = fs.nameOf c := by
    intro c hc
    rw [← hnames, nameOf, nameOf, Vfs.setName, nodes_modify_of_ne _ _ hc]
  -- unlinking removes ancestors only
  have hapart' : ¬ ((fs.unlinkChild old src).setName src leaf).links.Ancestor src parent := by
    rw [hlinks]
    refine fun hanc => hapart (hanc.congr fun q _ _ hq => ?_)
    rw [(h.grove.links_unlinkChild hsrc hup).1, update_of_ne hq]
  have hkids : Function.update fs.children old ((fs.children old).erase src) parent =
      (fs.children parent).erase src := by
    by_cases hold : parent = old
    · rw [hold, update_self]
    · rw [update_of_ne hold, erase_of_not_mem]
      intro hmem
      have := ((h.grove.forest.mem_kids hp).mp hmem).2
      exact hold (some.inj (this.symm.trans hup))
  have hfresh : ((fs.unlinkChild old src).setName src leaf).nameOf src ∉
      ((Function.update fs.children old ((fs.children old).erase src) parent).map
        ((fs.unlinkChild old src).setName src leaf).nameOf) := by
    rw [hkids, hname, map_congr_left fun c hc => hother c ?_]
    · exact hnew
    · exact (((h.grove.forest.nodup hp).mem_erase_iff).mp hc).1
  have hlinked := hgrove.link (hdir'.symm ▸ hdir) (Set.mem_insert src _) hapart'
    (hname.symm ▸ hvalid) hfresh
  have hroots : insert src {fs.root} \ {src} = ({fs.root} : Set ℕ) := by
    refine Set.insert_sdiff_self_of_notMem fun heq => ?_
    rw [Set.mem_singleton_iff.mp heq, h.up_root] at hup
    cases hup
  rwa [hroots, hkids] at hlinked

theorem replant {src old parent : ℕ} (hsrc : src ∈ fs.live) (hup : fs.links.up src = some old)
    (hdir : fs.isDir parent = true) (hapart : ¬ fs.links.Ancestor src parent)
    (hvalid : ValidName leaf) (hnew : leaf ∉ ((fs.children parent).erase src).map fs.nameOf) :
    IsTree (((fs.unlinkChild old src).setName src leaf).linkChild parent src) ∧
      Keeps fs (((fs.unlinkChild old src).setName src leaf).linkChild parent src) := by
  obtain ⟨hlive, hisDir, -, -, -, hroot⟩ := fs.unlinkChild_same old src
  have hgrove := h.replant_grove hsrc hup hdir hapart hvalid hnew
  have hkeeps : Keeps fs (((fs.unlinkChild old src).setName src leaf).linkChild parent src) := by
    refine ⟨hroot, fun q hq _ => ⟨?_, ?_⟩, fun _ h => h.elim⟩
    · rwa [live_linkChild, Vfs.setName, live_modify, hlive]
    · rw [isDir_linkChild, Vfs.setName, isDir_modify _ src fun _ => by rfl, hisDir]
  rw [← hkeeps.root] at hgrove
  refine ⟨hgrove.isTree ?_, hkeeps⟩
  rw [hkeeps.root]
  exact (hkeeps.kept fs.root h.root_live id).2.trans h.root_dir

theorem moveNode (hbase : base ∈ fs.live) (srcPath destPath : Text) :
    IsTree (fs.moveNode base srcPath destPath).2 ∧
      Keeps fs (fs.moveNode base srcPath destPath).2 := by
  rcases h.moveNode_cases hbase srcPath destPath with heq | ⟨src, old, parent, leaf, ht, hup, hnew,
    heq⟩
  · rw [heq]
    exact ⟨h, Keeps.refl fs⟩
  · rw [heq]
    exact h.replant ht.src_live hup ht.parent_dir ht.apart ht.valid hnew

end
end IsTree

/-! ### Runs -/

end Vfs

/-- The node that an operation starts from. -/
def VfsOp.base : VfsOp → ℕ
  | mkdir base _ | createFile base _ | remove base _ _ | copy base _ _ | moveNode base _ _
  | writeBytes base _ _ | writeFile base _ _ _ => base

/-- The operation starts from a directory of the tree, and `remove` is told one. -/
def VfsOp.Based (fs : Vfs) (op : VfsOp) : Prop :=
  fs.isDir op.base = true ∧ ∀ base path cwd, op = .remove base path cwd → fs.isDir cwd = true

namespace Vfs

variable {fs : Vfs} {op : VfsOp}

/-- The nodes that an operation frees. -/
def removedBy (fs : Vfs) : VfsOp → ℕ → Prop
  | .remove base path cwd, q => (fs.remove base path cwd).1 = true ∧
      ∃ node, fs.resolve base path = some node ∧ fs.links.Ancestor node q
  | _, _ => False

/-- One operation on a tree. -/
theorem IsTree.apply (h : IsTree fs) (hbase : fs.isDir op.base = true) :
    IsTree (fs.apply op).2 ∧ Evolves (fs.removedBy op) fs (fs.apply op).2 := by
  have hlive := mem_live_of_isDir hbase
  cases op with
  | mkdir base path => exact h.createLeaf hlive path .dir
  | createFile base path => exact h.createLeaf hlive path .file
  | copy base srcPath destPath => exact h.copy hlive srcPath destPath
  | moveNode base srcPath destPath => exact h.moveNode hlive srcPath destPath
  | writeBytes base path data => exact h.writeBytes hlive path data
  | writeFile base path text append => exact h.writeFile hlive path text append
  | remove base path cwd =>
    change base ∈ fs.live at hlive
    rcases h.remove_cases hlive path cwd with
      heq | ⟨node, parent, hres, hnode, -, -, hup, heq⟩
    · have hnone : ∀ q, ¬ fs.removedBy (.remove base path cwd) q := by
        rintro q ⟨hdone, -⟩
        rw [heq] at hdone
        cases hdone
      rw [apply, heq]
      exact ⟨h, rfl, fun q hq _ => ⟨hq, rfl⟩, fun q hq => absurd hq (hnone q)⟩
    · have hremoved : fs.removedBy (.remove base path cwd) = fs.links.Ancestor node := by
        funext q
        simp [removedBy, heq, hres]
      rw [hremoved, apply, heq]
      exact h.cut hnode hup

/-- The file system under its operations, from the empty root on. -/
def vfsSystem : TransitionSystem Vfs VfsOp where
  init fs := fs = Vfs.init
  step fs op := some (fs.apply op).2

theorem isTree_init : IsTree Vfs.init := by
  have hempty : Grove ⟨fun _ => none, 0, 0⟩ (fun _ => []) ∅ := by
    refine ⟨⟨?_, ?_, ?_, ?_, ?_, ?_, ?_⟩, ?_, ?_, ?_, ?_⟩ <;> simp [live, links]
  have halloc := hempty.alloc [] .dir
  rw [insert_empty_eq] at halloc
  exact halloc.isTree rfl

theorem isTree_of_reachable (h : vfsSystem.Reachable (fun fs op => op.Based fs) fs) :
    IsTree fs := by
  refine TransitionSystem.Reachable.invariant (fun fs hinit => ?_) ?_ h
  · rw [show fs = Vfs.init from hinit]
    exact isTree_init
  · intro fs op fs' _ htree hop hstep
    rw [← some.inj hstep]
    exact (htree.apply hop.1).1

/-- The node graph is a tree, told by the links alone. -/
structure SingleTree (fs : Vfs) : Prop where
  /-- The root is a directory that occurs in no list of children. -/
  root : fs.isDir fs.root = true ∧ fs.links.up fs.root = none ∧
    ∀ p ∈ fs.live, fs.root ∉ fs.children p
  /-- The children of a node are the chain of siblings that starts at its first child. -/
  chain : ∀ p ∈ fs.live, Siblings fs.links.next (fs.links.first p) (fs.children p)
  /-- Every other node occurs once, below the directory that its parent link names. -/
  once : ∀ c ∈ fs.live, c ≠ fs.root → ∃ p, fs.links.up c = some p ∧ fs.isDir p = true ∧
    (fs.children p).count c = 1 ∧ ∀ q ∈ fs.live, c ∈ fs.children q → q = p
  rooted : ∀ c ∈ fs.live, fs.links.Ancestor fs.root c
  files : ∀ p ∈ fs.live, fs.isDir p = false → fs.children p = []
  names : ∀ p ∈ fs.live, ((fs.children p).map fs.nameOf).Nodup ∧
    ∀ c ∈ fs.children p, ValidName (fs.nameOf c)
  /-- No link leads to a node that has been freed. -/
  linked : ∀ p ∈ fs.live, ∀ q, fs.links.up p = some q ∨ fs.links.first p = some q ∨
    fs.links.next p = some q → q ∈ fs.live

theorem IsTree.singleTree (h : IsTree fs) : SingleTree fs where
  root := by
    refine ⟨h.root_dir, h.up_root, fun p hp hmem => ?_⟩
    have hup := ((h.grove.forest.mem_kids hp).mp hmem).2
    rw [h.up_root] at hup
    cases hup
  chain _ hp := h.grove.forest.siblings hp
  once c hc hne := by
    obtain ⟨p, hup⟩ := h.exists_up hc hne
    have hp := h.grove.forest.up_live hc hup
    refine ⟨p, hup, h.grove.dir_of_up hc hup, ?_, fun q hq hmem => ?_⟩
    · exact count_eq_one_of_mem (h.grove.forest.nodup hp)
        ((h.grove.forest.mem_kids hp).mpr ⟨hc, hup⟩)
    · have hq := ((h.grove.forest.mem_kids hq).mp hmem).2
      exact some.inj (hq.symm.trans hup)
  rooted _ hc := h.ancestor_root hc
  files _ hp hfile := h.grove.kids_of_file hp hfile
  names p hp := by
    refine ⟨h.grove.distinct hp, fun c hc => ?_⟩
    obtain ⟨hclive, hup⟩ := (h.grove.forest.mem_kids hp).mp hc
    exact h.grove.valid hclive hup
  linked := by
    rintro p hp q (hup | hfirst | hnext)
    · exact h.grove.forest.up_live hp hup
    · exact h.grove.forest.first_live hp hfirst
    · exact h.grove.forest.next_live hp hnext

/-- After any operations, with any paths, the nodes form a tree; and what `remove` takes away is
freed, and nothing else. -/
theorem singleTree_of_reachable (h : vfsSystem.Reachable (fun fs op => op.Based fs) fs) :
    SingleTree fs ∧ ∀ op, op.Based fs → ∀ q ∈ fs.live,
      (q ∉ (fs.apply op).2.live ↔ fs.removedBy op q) := by
  have htree := isTree_of_reachable h
  refine ⟨htree.singleTree, fun op hop q hq => ?_⟩
  obtain ⟨-, hevolves⟩ := htree.apply hop.1
  constructor
  · intro hgone
    by_contra hnot
    exact hgone (hevolves.kept q hq hnot).1
  · exact hevolves.freed q

/-- A directory and a file are made and moved into one another, and the directory is removed. -/
theorem singleTree_after_remove :
    ∃ fs, vfsSystem.run Vfs.init [.mkdir 0 "a".toList, .createFile 0 "f".toList,
      .moveNode 0 "f".toList "a/g".toList, .remove 0 "a".toList 0] = some fs ∧ SingleTree fs ∧
      fs.nodes 1 = none ∧ fs.nodes 2 = none := by
  refine ⟨_, rfl, (singleTree_of_reachable ?_).1, by decide, by decide⟩
  refine (((TransitionSystem.Reachable.init rfl).step ?_ rfl).step ?_ rfl |>.step ?_ rfl).step ?_ rfl
  · exact ⟨by decide, fun _ _ _ h => by cases h⟩
  · exact ⟨by decide, fun _ _ _ h => by cases h⟩
  · exact ⟨by decide, fun _ _ _ h => by cases h⟩
  · exact ⟨by decide, fun _ _ _ h => by cases h; decide⟩

end Vfs

end AnssOS
