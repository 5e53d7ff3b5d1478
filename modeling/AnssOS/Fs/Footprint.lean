import AnssOS.Fs.Move
import AnssOS.Fs.Replay

/-!
# Operations inside one subtree

An operation that works below a node `a` changes nothing outside of that subtree but the list of children of the
parent of `a`, and that one only if it removes `a` itself.  So it leaves every subtree that is disjoint from the
one at `a` as it is.

### Outline

* `resolve_of_grown`: a path that leads somewhere still leads there after a leaf has been added;
* `VfsOp.Within`: the operation works below a node; `Footprint`: what it then can do, operation by operation;
* `SameBelow`, and `sameBelow_of_within` for runs of such operations.
-/

namespace AnssOS

open List Option Function

namespace Vfs

variable {fs fs₁ fs' : Vfs} {kids kids' : ℕ → List ℕ} {roots roots' : Set ℕ} {a b base : ℕ}

/-! ### Linking a new node -/

variable {parent q : ℕ} {leaf path : Text}

/-- The children after `link_child`. -/
theorem Grove.children_linkChild (h : Grove fs kids roots) {p c : ℕ}
    (h' : Grove (fs.linkChild p c) kids' roots') (hp : p ∈ fs.live) (hc : c ∈ roots)
    (hq : q ∈ fs.live) : (fs.linkChild p c).children q =
      if q = p then c :: fs.children q else fs.children q := by
  have hclive := h.forest.live_of_mem_roots hc
  have hlinks := fs.links_linkChild hp hclive
  have hq' : q ∈ (fs.linkChild p c).live := by rwa [live_linkChild]
  rw [h'.children_eq hq', h.children_eq hq]
  have hchain := h'.forest.siblings hq'
  rw [hlinks] at hchain
  dsimp only at hchain
  -- the chain of a node's children goes past no root
  have htail : Siblings (Function.update fs.links.next c (fs.links.first p)) (fs.links.first q)
      (kids q) := by
    refine (h.forest.siblings hq).congr fun d hd => update_of_ne ?_ _ _
    rintro rfl
    have hup := ((h.forest.mem_kids hq).mp hd).2
    rw [h.forest.up_of_mem_roots hc] at hup
    cases hup
  by_cases hqp : q = p
  · subst hqp
    rw [update_self] at hchain
    rw [if_pos rfl]
    refine hchain.unique ⟨rfl, ?_⟩
    rw [update_self]
    exact htail
  · rw [update_of_ne hqp] at hchain
    rw [if_neg hqp]
    exact hchain.unique htail

theorem nodes_linkChild (fs : Vfs) {p c q : ℕ} (hqc : q ≠ c) : (fs.linkChild p c).nodes q =
    if q = p then (fs.nodes q).map fun v => { v with children := some c } else fs.nodes q := by
  unfold linkChild
  by_cases hqp : q = p
  · subst hqp
    rw [nodes_modify_self, nodes_modify_of_ne _ _ hqc, if_pos rfl]
  · rw [nodes_modify_of_ne _ _ hqp, nodes_modify_of_ne _ _ hqc, if_neg hqp]

/-- A new node, with what is below it, has become the first child of `parent`. -/
structure Attached (fs fs' : Vfs) (parent : ℕ) : Prop where
  root : fs'.root = fs.root
  same : ∀ q v, fs.nodes q = some v →
    fs'.nodes q = some (if q = parent then { v with children := some fs.next } else v)
  children : ∀ q ∈ fs.live, fs'.children q =
    if q = parent then fs.next :: fs.children q else fs.children q

theorem IsTree.attached (h : IsTree fs) (hp : parent ∈ fs.live)
    (hext : Extends fs fs₁) (hgrove : Grove fs₁ kids (insert fs.next {fs.root}))
    (htree : IsTree (fs₁.linkChild parent fs.next)) :
    Attached fs (fs₁.linkChild parent fs.next) parent := by
  have hnext := h.grove.next_not_live
  refine ⟨hext.root, fun q v hv => ?_, fun q hq => ?_⟩
  · have hq := mem_live.mpr ⟨v, hv⟩
    have hqnext : q ≠ fs.next := fun heq => hnext (heq ▸ hq)
    rw [nodes_linkChild _ hqnext, hext.same q hq, hv]
    by_cases hqp : q = parent
    · rw [if_pos hqp, if_pos hqp]
      rfl
    · rw [if_neg hqp, if_neg hqp]
  · have hkids : fs₁.children q = fs.children q := by
      rw [hgrove.children_eq (hext.mem_live hq)]
      exact h.grove.kids_eq_of_extends hgrove hext hq
    rw [hgrove.children_linkChild htree.grove (hext.mem_live hp) (Set.mem_insert _ _)
      (hext.mem_live hq), hkids]

theorem IsTree.attached_leaf (h : IsTree fs) (kind : VnodeType)
    (hdir : fs.isDir parent = true) (hvalid : ValidName leaf)
    (hnew : leaf ∉ (fs.children parent).map fs.nameOf) :
    Attached fs ((fs.allocVnode leaf kind).linkChild parent fs.next) parent :=
  h.attached (mem_live_of_isDir hdir) (extends_alloc h.grove.next_not_live leaf kind)
    (h.grove.alloc leaf kind) (h.addLeaf kind hdir hvalid hnew).1

/-- The nodes there were keep their names, kinds, contents and parents. -/
theorem Attached.kept (h : Attached fs fs' parent) (hq : q ∈ fs.live) :
    q ∈ fs'.live ∧ fs'.nameOf q = fs.nameOf q ∧ fs'.isDir q = fs.isDir q ∧
      fs'.dataOf q = fs.dataOf q ∧ fs'.links.up q = fs.links.up q := by
  obtain ⟨v, hv⟩ := mem_live.mp hq
  have hv' := h.same q v hv
  refine ⟨mem_live.mpr ⟨_, hv'⟩, ?_, ?_, ?_, ?_⟩
  · rw [nameOf, nameOf, hv', hv]
    split <;> rfl
  · rw [isDir, isDir, hv', hv]
    split <;> rfl
  · rw [dataOf, dataOf, hv', hv]
    split <;> rfl
  · rw [up_eq, up_eq, hv', hv]
    split <;> rfl

/-! ### Paths after a leaf has been added -/

/-- A path that leads somewhere still leads there. -/
theorem IsTree.resolve_of_attached (h : IsTree fs) (h' : IsTree fs') {parent n : ℕ}
    (hatt : Attached fs fs' parent) (hbase : base ∈ fs.live)
    (hres : fs.resolve base path = some n) : fs'.resolve base path = some n := by
  have hcomponent : ∀ cur component m, cur ∈ fs.live →
      fs.resolveComponent cur component = some m → fs'.resolveComponent cur component = some m := by
    intro cur component m hcur hm
    obtain ⟨-, -, hdir, -, hup⟩ := hatt.kept hcur
    unfold resolveComponent at hm ⊢
    dsimp only at hm ⊢
    rw [hup, hdir]
    split_ifs at hm ⊢ with hdot hdots hisDir
    · exact hm
    · exact hm
    · -- the child found is still a child, under the same name
      obtain ⟨hmlive, hmup, hmname⟩ := h.findChild_some hcur hm
      obtain ⟨hmlive', hmname', -, -, hmup'⟩ := hatt.kept hmlive
      rw [← hmname, ← hmname']
      exact h'.findChild_nameOf hmlive' (hmup'.trans hmup)
  have hfold : ∀ (components : List Text) cur, cur ∈ fs.live →
      components.foldlM fs.resolveComponent cur = some n →
      components.foldlM fs'.resolveComponent cur = some n := by
    intro components
    induction components with
    | nil => exact fun cur _ heq => heq
    | cons component components ih =>
      intro cur hcur heq
      rw [foldlM_cons] at heq ⊢
      obtain ⟨m, hm, hrest⟩ := bind_eq_some_iff.mp heq
      rw [hcomponent cur component m hcur hm]
      exact ih m (h.resolveComponent_live hcur hm) hrest
  rw [resolve, hatt.root]
  refine hfold _ _ ?_ hres
  split
  · exact h.root_live
  · exact hbase

theorem IsTree.resolveParentAndLeaf_of_attached (h : IsTree fs) (h' : IsTree fs')
    (hatt : Attached fs fs' parent) (hbase : base ∈ fs.live)
    (hres : fs.resolveParentAndLeaf base path = some (q, leaf)) :
    fs'.resolveParentAndLeaf base path = some (q, leaf) := by
  unfold resolveParentAndLeaf at hres ⊢
  dsimp only at hres ⊢
  split_ifs at hres ⊢ with hnil
  obtain ⟨p, hp, heq⟩ := map_eq_some_iff.mp hres
  obtain ⟨rfl, rfl⟩ := Prod.mk.inj heq
  refine map_eq_some_iff.mpr ⟨p, ?_, rfl⟩
  split at hp
  · exact hp
  · rw [hatt.root]
    exact hp
  · exact h.resolve_of_attached h' hatt hbase hp

/-- A leaf that was just made is what its path leads to, unless it is named `.` or `..`. -/
theorem IsTree.resolve_new_leaf (h : IsTree fs) (kind : VnodeType)
    (hbase : base ∈ fs.live) (hres : fs.resolveParentAndLeaf base path = some (parent, leaf))
    (hdir : fs.isDir parent = true) (hvalid : ValidName leaf) (hdot : ¬ IsDot leaf)
    (hnew : leaf ∉ (fs.children parent).map fs.nameOf) :
    ((fs.allocVnode leaf kind).linkChild parent fs.next).resolve base path = some fs.next := by
  have hatt := h.attached_leaf kind hdir hvalid hnew
  have htree := (h.addLeaf kind hdir hvalid hnew).1
  have hp := mem_live_of_isDir hdir
  rw [resolve_of_parentAndLeaf (h.resolveParentAndLeaf_of_attached htree hatt hbase hres)]
  have hpne : parent ≠ fs.next := fun heq => h.grove.next_not_live (heq ▸ hp)
  have hself := nodes_addLeaf_self leaf kind hpne
  have hname : ((fs.allocVnode leaf kind).linkChild parent fs.next).nameOf fs.next = leaf := by
    rw [nameOf, hself]
    exact hvalid.cutName_eq
  have hstep := htree.resolveComponent_nameOf (c := fs.next) (p := parent)
    (mem_live.mpr ⟨_, hself⟩) (by rw [up_eq, hself]; rfl) (by rwa [Plain, hname])
  rwa [hname] at hstep

end Vfs

/-! ### Operations below a node -/

/-- Everything that the operation changes by name is below the node `a`. -/
def VfsOp.Within (fs : Vfs) (a : ℕ) : VfsOp → Prop
  | mkdir base path | createFile base path => ∀ parent leaf,
      fs.resolveParentAndLeaf base path = some (parent, leaf) → fs.links.Ancestor a parent
  | remove base path _ => ∀ node, fs.resolve base path = some node → fs.links.Ancestor a node
  | copy base srcPath destPath => ∀ src parent leaf, fs.resolve base srcPath = some src →
      fs.resolveTarget base destPath src = some (parent, leaf) → fs.links.Ancestor a parent
  | moveNode base srcPath destPath => ∀ src parent leaf, fs.resolve base srcPath = some src →
      fs.resolveTarget base destPath src = some (parent, leaf) →
      fs.links.Ancestor a src ∧ fs.links.Ancestor a parent
  | writeBytes base path _ | writeFile base path _ _ =>
      (∀ node, fs.resolve base path = some node → fs.links.Ancestor a node) ∧
      (fs.resolve base path = none → ∀ parent leaf,
        fs.resolveParentAndLeaf base path = some (parent, leaf) → fs.links.Ancestor a parent)

namespace Vfs

variable {fs fs₁ fs' : Vfs} {a b base : ℕ}

/-- Nothing has changed but what is below `a`, and the list of children of the parent of `a`. -/
structure Footprint (fs fs' : Vfs) (a : ℕ) : Prop where
  kept : ∀ q ∈ fs.live, ¬ fs.links.Ancestor a q → q ∈ fs'.live ∧ fs'.nameOf q = fs.nameOf q ∧
    fs'.isDir q = fs.isDir q ∧ fs'.dataOf q = fs.dataOf q ∧ fs'.links.up q = fs.links.up q
  children : ∀ q ∈ fs.live, ¬ fs.links.Ancestor a q → fs.links.up a ≠ some q →
    fs'.children q = fs.children q
  top : a ∈ fs'.live → fs'.links.up a = fs.links.up a

theorem Footprint.refl (fs : Vfs) (a : ℕ) : Footprint fs fs a :=
  ⟨fun _ hq _ => ⟨hq, rfl, rfl, rfl, rfl⟩, fun _ _ _ _ => rfl, fun _ => rfl⟩

theorem Attached.footprint {parent : ℕ} (h : Attached fs fs' parent) (ha : a ∈ fs.live)
    (hparent : fs.links.Ancestor a parent) : Footprint fs fs' a := by
  refine ⟨fun q hq _ => h.kept hq, fun q hq hbelow _ => ?_, fun _ => (h.kept ha).2.2.2.2⟩
  rw [h.children q hq, if_neg]
  rintro rfl
  exact hbelow hparent

theorem Footprint.setData (h : Footprint fs fs' a) {node : ℕ} (data : List UInt8)
    (hnode : node ∈ fs.live → fs.links.Ancestor a node) :
    Footprint fs (fs'.setData node data).2 a := by
  unfold Vfs.setData
  split
  · exact h
  have hlinks : (fs'.modify node fun v => { v with data := data }).links = fs'.links :=
    links_modify _ node fun _ => ⟨rfl, rfl, rfl⟩
  refine ⟨fun q hq hbelow => ?_, fun q hq hbelow hup => ?_, fun ha => ?_⟩
  · obtain ⟨hlive, hname, hdir, hdata, hup⟩ := h.kept q hq hbelow
    have hne : q ≠ node := by
      rintro rfl
      exact hbelow (hnode hq)
    rw [live_modify, nameOf_modify _ _ fun _ => by rfl, isDir_modify _ _ fun _ => by rfl, hlinks]
    refine ⟨hlive, hname, hdir, ?_, hup⟩
    rw [dataOf, nodes_modify_of_ne _ _ hne]
    exact hdata
  · rw [← h.children q hq hbelow hup, Vfs.children, Vfs.children, hlinks]
    rfl
  · rw [live_modify] at ha
    rw [hlinks]
    exact h.top ha

namespace IsTree

theorem footprint_createLeaf (h : IsTree fs) (hbase : base ∈ fs.live) {path : Text}
    (kind : VnodeType) (hwithin : ∀ parent leaf,
      fs.resolveParentAndLeaf base path = some (parent, leaf) → fs.links.Ancestor a parent) :
    Footprint fs (fs.createLeaf base path kind).2 a := by
  rcases h.createLeaf_cases hbase path kind with
    heq | ⟨parent, leaf, hres, hdir, hvalid, hnew, heq⟩
  · rw [heq]
    exact Footprint.refl fs a
  · rw [heq]
    have hparent := hwithin parent leaf hres
    exact (h.attached_leaf kind hdir hvalid hnew).footprint
      (h.grove.forest.ancestor_live hparent (mem_live_of_isDir hdir)) hparent

theorem footprint_writeBytes (h : IsTree fs) (hbase : base ∈ fs.live) {path : Text}
    (data : List UInt8)
    (hnode : ∀ node, fs.resolve base path = some node → fs.links.Ancestor a node)
    (hparent : fs.resolve base path = none → ∀ parent leaf,
      fs.resolveParentAndLeaf base path = some (parent, leaf) → fs.links.Ancestor a parent) :
    Footprint fs (fs.writeBytes base path data).2 a := by
  unfold Vfs.writeBytes
  cases hres : fs.resolve base path with
  | some node =>
    exact (Footprint.refl fs a).setData data fun _ => hnode node hres
  | none =>
    dsimp only [createFile]
    have hfoot := h.footprint_createLeaf hbase .file (hparent hres)
    rcases h.createLeaf_cases hbase path .file with
      heq | ⟨parent, leaf, hleaf, hdir, hvalid, hnew, heq⟩
    · rw [heq]
      exact Footprint.refl fs a
    · rw [heq] at hfoot ⊢
      -- the path leads to the new file now
      have hdot : ¬ IsDot leaf := by
        intro hdot
        rw [resolve_of_parentAndLeaf hleaf] at hres
        rcases resolveComponent_dot fs parent hdot with hsome | hsome
        · rw [hsome] at hres
          cases hres
        · rw [hsome] at hres
          cases hres
      dsimp only
      rw [h.resolve_new_leaf .file hbase hleaf hdir hvalid hdot hnew]
      exact hfoot.setData data fun hlive => absurd hlive h.grove.next_not_live

theorem footprint_remove (h : IsTree fs) (hbase : base ∈ fs.live) {path : Text} (cwd : ℕ)
    (hwithin : ∀ node, fs.resolve base path = some node → fs.links.Ancestor a node) :
    Footprint fs (fs.remove base path cwd).2 a := by
  rcases h.remove_cases hbase path cwd with heq | ⟨node, parent, hres, hnode, -, -, hup, heq⟩
  · rw [heq]
    exact Footprint.refl fs a
  rw [heq]
  dsimp only
  have hbelow := hwithin node hres
  obtain ⟨hlive, hisDir, hnames, hdata, hnext, -⟩ := fs.unlinkChild_same parent node
  obtain ⟨hgrove, hfreed⟩ := (h.grove.unlink hnode hup).freeTree (Set.mem_insert node _)
  rw [hnext] at hgrove hfreed
  have hlinks := (h.grove.links_unlinkChild hnode hup).1
  -- what is not below `a` is not below the node
  have hsame : ∀ q, ¬ fs.links.Ancestor node q →
      (freeTree fs.next (fs.unlinkChild parent node) node).nodes q =
        (fs.unlinkChild parent node).nodes q := by
    intro q hq
    refine hfreed.same q fun hanc => hq (hanc.congr fun r _ _ hr => ?_)
    rw [hlinks, update_of_ne hr]
  have hkept : ∀ q ∈ fs.live, ¬ fs.links.Ancestor node q →
      q ∈ (freeTree fs.next (fs.unlinkChild parent node) node).live := by
    intro q hq hnot
    rw [← hlive] at hq
    obtain ⟨v, hv⟩ := mem_live.mp hq
    exact mem_live.mpr ⟨v, (hsame q hnot).trans hv⟩
  have hups : ∀ q, ¬ fs.links.Ancestor node q →
      (freeTree fs.next (fs.unlinkChild parent node) node).links.up q = fs.links.up q := by
    intro q hnot
    rw [up_eq, hsame q hnot, ← up_eq, hlinks, update_of_ne]
    rintro rfl
    exact hnot Relation.ReflTransGen.refl
  refine ⟨fun q hq hqa => ?_, fun q hq hqa hqup => ?_, fun ha => ?_⟩
  · have hnot : ¬ fs.links.Ancestor node q := fun hanc => hqa (hbelow.trans hanc)
    refine ⟨hkept q hq hnot, ?_, ?_, ?_, hups q hnot⟩
    · rw [nameOf, hsame q hnot, ← hnames]
      rfl
    · rw [isDir, hsame q hnot, ← hisDir]
      rfl
    · rw [dataOf, hsame q hnot, ← hdata]
      rfl
  · have hnot : ¬ fs.links.Ancestor node q := fun hanc => hqa (hbelow.trans hanc)
    rw [hgrove.children_eq (hkept q hq hnot), update_of_ne]
    rintro rfl
    rcases Links.ancestor_iff.mp hbelow with rfl | ⟨p, hp, hanc⟩
    · exact hqup hup
    · exact hqa (some.inj (hp.symm.trans hup) ▸ hanc)
  · refine hups a fun hanc => ?_
    obtain ⟨v, hv⟩ := mem_live.mp ha
    have hgone := hfreed.gone a (hanc.congr fun r _ _ hr => by rw [hlinks, update_of_ne hr])
    rw [hgone] at hv
    cases hv

theorem footprint_copy (h : IsTree fs) (hbase : base ∈ fs.live) {srcPath destPath : Text}
    (hwithin : ∀ src parent leaf, fs.resolve base srcPath = some src →
      fs.resolveTarget base destPath src = some (parent, leaf) → fs.links.Ancestor a parent) :
    Footprint fs (fs.copy base srcPath destPath).2 a := by
  rcases h.copy_cases hbase srcPath destPath with
    heq | ⟨src, parent, leaf, fs₁, ht, hnew, hcopied, heq⟩
  · rw [heq]
    exact Footprint.refl fs a
  · rw [heq]
    have hparent := hwithin src parent leaf ht.src_eq ht.resolveTarget_eq
    have hp := mem_live_of_isDir ht.parent_dir
    obtain ⟨kids, hgrove⟩ := hcopied.grove
    exact (h.attached hp hcopied.extend hgrove (h.linkCopy ht.parent_dir ht.valid hnew hcopied).1).footprint
      (h.grove.forest.ancestor_live hparent hp) hparent

theorem footprint_moveNode (h : IsTree fs) (hbase : base ∈ fs.live) {srcPath destPath : Text}
    (hwithin : ∀ src parent leaf, fs.resolve base srcPath = some src →
      fs.resolveTarget base destPath src = some (parent, leaf) →
      fs.links.Ancestor a src ∧ fs.links.Ancestor a parent) :
    Footprint fs (fs.moveNode base srcPath destPath).2 a := by
  rcases h.moveNode_cases hbase srcPath destPath with
    heq | ⟨src, old, parent, leaf, ht, hup, hnew, heq⟩
  · rw [heq]
    exact Footprint.refl fs a
  rw [heq]
  obtain ⟨hsrc, hparent⟩ := hwithin src parent leaf ht.src_eq ht.resolveTarget_eq
  have hreloc := h.relocated ht.src_live hup ht.parent_dir ht.apart ht.valid hnew
  have hne : a ≠ src := by
    rintro rfl
    exact ht.apart hparent
  refine ⟨fun q hq hqa => ?_, fun q hq hqa hqup => ?_, fun _ => ?_⟩
  · have hqs : q ≠ src := by
      rintro rfl
      exact hqa hsrc
    dsimp only
    rw [hreloc.live, hreloc.nameOf, hreloc.isDir, hreloc.dataOf, hreloc.up,
      update_of_ne hqs, update_of_ne hqs]
    exact ⟨hq, rfl, rfl, rfl, rfl⟩
  · have hqp : q ≠ parent := by
      rintro rfl
      exact hqa hparent
    rw [hreloc.children q hq, if_neg hqp, erase_of_not_mem]
    intro hmem
    have hold := ((h.grove.forest.mem_kids hq).mp hmem).2
    rcases Links.ancestor_iff.mp hsrc with heq | ⟨p, hp, hanc⟩
    · exact hne heq
    · exact hqa (some.inj (hp.symm.trans hold) ▸ hanc)
  · dsimp only
    rw [hreloc.up, update_of_ne hne]

/-- An operation below `a`. -/
theorem footprint (h : IsTree fs) {op : VfsOp} (hbase : fs.isDir op.base = true)
    (hop : op.Within fs a) : Footprint fs (fs.apply op).2 a := by
  have hlive := mem_live_of_isDir hbase
  cases op with
  | mkdir base path => exact h.footprint_createLeaf hlive .dir hop
  | createFile base path => exact h.footprint_createLeaf hlive .file hop
  | remove base path cwd => exact h.footprint_remove hlive cwd hop
  | copy base srcPath destPath => exact h.footprint_copy hlive hop
  | moveNode base srcPath destPath => exact h.footprint_moveNode hlive hop
  | writeBytes base path data => exact h.footprint_writeBytes hlive data hop.1 hop.2
  | writeFile base path text append =>
    rw [Vfs.apply, Vfs.writeFile]
    split
    · exact h.footprint_writeBytes hlive _ hop.1 hop.2
    · exact h.footprint_writeBytes hlive text hop.1 hop.2

end IsTree

/-! ### Subtrees that are apart -/

/-- Below the node `b` nothing has changed. -/
structure SameBelow (fs fs' : Vfs) (b : ℕ) : Prop where
  below : ∀ q, fs'.links.Ancestor b q ∧ q ∈ fs'.live ↔ fs.links.Ancestor b q ∧ q ∈ fs.live
  same : ∀ q ∈ fs.live, fs.links.Ancestor b q → fs'.nameOf q = fs.nameOf q ∧
    fs'.isDir q = fs.isDir q ∧ fs'.dataOf q = fs.dataOf q ∧ fs'.links.up q = fs.links.up q ∧
    fs'.children q = fs.children q

theorem SameBelow.refl (fs : Vfs) (b : ℕ) : SameBelow fs fs b :=
  ⟨fun _ => Iff.rfl, fun _ _ _ => ⟨rfl, rfl, rfl, rfl, rfl⟩⟩

theorem SameBelow.trans {fs'' : Vfs} (h : SameBelow fs fs' b) (h' : SameBelow fs' fs'' b) :
    SameBelow fs fs'' b := by
  refine ⟨fun q => (h'.below q).trans (h.below q), fun q hq hbelow => ?_⟩
  obtain ⟨hname, hdir, hdata, hup, hchildren⟩ := h.same q hq hbelow
  obtain ⟨hbelow', hq'⟩ := (h.below q).mpr ⟨hbelow, hq⟩
  obtain ⟨hname', hdir', hdata', hup', hchildren'⟩ := h'.same q hq' hbelow'
  exact ⟨hname'.trans hname, hdir'.trans hdir, hdata'.trans hdata, hup'.trans hup,
    hchildren'.trans hchildren⟩

/-- Neither of the two nodes is below the other. -/
def Apart (fs : Vfs) (a b : ℕ) : Prop := ¬ fs.links.Ancestor a b ∧ ¬ fs.links.Ancestor b a

theorem Apart.symm (h : Apart fs a b) : Apart fs b a := ⟨h.2, h.1⟩

/-- What is above a node that is not below `a`. -/
theorem Footprint.ancestor_iff (h : Footprint fs fs' a) (htree : IsTree fs) {x q : ℕ}
    (hq : q ∈ fs.live) (hqa : ¬ fs.links.Ancestor a q) :
    fs'.links.Ancestor x q ↔ fs.links.Ancestor x q := by
  refine Links.ancestor_congr_of_closed (S := {q | q ∈ fs.live ∧ ¬ fs.links.Ancestor a q}) ?_ ?_
    ⟨hq, hqa⟩
  · rintro q ⟨hq, hqa⟩ p hup
    exact ⟨htree.grove.forest.up_live hq hup, fun hanc => hqa (hanc.tail hup)⟩
  · rintro q ⟨hq, hqa⟩
    exact (h.kept q hq hqa).2.2.2.2

theorem Footprint.apart (h : Footprint fs fs' a) (htree : IsTree fs) (hb : b ∈ fs.live)
    (hapart : Apart fs a b) : Apart fs' a b := by
  refine ⟨fun hanc => hapart.1 ((h.ancestor_iff htree hb hapart.1).mp hanc), fun hanc => ?_⟩
  rcases Links.ancestor_iff.mp hanc with rfl | ⟨p, hup, hanc⟩
  · exact hapart.1 Relation.ReflTransGen.refl
  · -- the parent of `a` is the old one, and it is not below `a`
    have ha' : a ∈ fs'.live := by
      by_contra hdead
      rw [up_eq, show fs'.nodes a = none by simpa [live] using hdead] at hup
      cases hup
    rw [h.top ha'] at hup
    have ha : a ∈ fs.live := by
      by_contra hdead
      rw [up_eq, show fs.nodes a = none by simpa [live] using hdead] at hup
      cases hup
    have hpa := htree.grove.forest.not_ancestor_of_up ha hup
    have hp := htree.grove.forest.up_live ha hup
    exact hapart.2 (((h.ancestor_iff htree hp hpa).mp hanc).tail hup)

/-- Subtrees that are apart from the one at `a` stay as they are. -/
theorem Footprint.sameBelow (h : Footprint fs fs' a) (htree : IsTree fs) (htree' : IsTree fs')
    (hb : b ∈ fs.live) (hapart : Apart fs a b) : SameBelow fs fs' b := by
  have hoff : ∀ q, fs.links.Ancestor b q → ¬ fs.links.Ancestor a q ∧ fs.links.up a ≠ some q := by
    intro q hbq
    refine ⟨fun haq => ?_, fun hup => hapart.2 (hbq.tail hup)⟩
    rcases haq.total hbq with hab | hba
    · exact hapart.1 hab
    · exact hapart.2 hba
  refine ⟨fun q => ⟨?_, fun ⟨hbq, hq⟩ => ?_⟩, fun q hq hbq => ?_⟩
  · rintro ⟨hbq, hq⟩
    induction hbq with
    | refl => exact ⟨Relation.ReflTransGen.refl, hb⟩
    | @tail x y _ hup ih =>
      have hx' := htree'.grove.forest.up_live hq hup
      obtain ⟨hbx, hx⟩ := ih hx'
      have hmem := (htree'.grove.forest.mem_kids hx').mpr ⟨hq, hup⟩
      rw [h.children x hx (hoff x hbx).1 (hoff x hbx).2] at hmem
      obtain ⟨hy, hyup⟩ := (htree.grove.forest.mem_kids hx).mp hmem
      exact ⟨hbx.tail hyup, hy⟩
  · have hqa := (hoff q hbq).1
    exact ⟨(h.ancestor_iff htree hq hqa).mpr hbq, (h.kept q hq hqa).1⟩
  · obtain ⟨hqa, hqup⟩ := hoff q hbq
    obtain ⟨-, hname, hdir, hdata, hup⟩ := h.kept q hq hqa
    exact ⟨hname, hdir, hdata, hup, h.children q hq hqa hqup⟩

/-- Whatever happens below `a` leaves a subtree that is apart from it as it is. -/
theorem sameBelow_of_within (h : IsTree fs) (hb : b ∈ fs.live) (hapart : Apart fs a b)
    (hrun : Relation.ReflTransGen
      (vfsSystem.Step fun fs op => op.Based fs ∧ op.Within fs a) fs fs') :
    SameBelow fs fs' b := by
  suffices hinv : IsTree fs' ∧ b ∈ fs'.live ∧ Apart fs' a b ∧ SameBelow fs fs' b from hinv.2.2.2
  induction hrun with
  | refl => exact ⟨h, hb, hapart, SameBelow.refl fs b⟩
  | tail _ hstep ih =>
    obtain ⟨htree, hb, hapart, hsame⟩ := ih
    obtain ⟨op, ⟨⟨hbase, -⟩, hwithin⟩, hstep⟩ := hstep
    rw [← some.inj hstep]
    have hfoot := htree.footprint hbase hwithin
    have htree' := (htree.apply hbase).1
    exact ⟨htree', (hfoot.kept b hb hapart.1).1, hfoot.apart htree hb hapart,
      hsame.trans (hfoot.sameBelow htree htree' hb hapart)⟩

end Vfs

end AnssOS
