import AnssOS.Fs.Paths
import AnssOS.Fs.VfsTree

/-!
# Nodes named `.` and `..`

`mkdir` and `create_file` accept the names `.` and `..`, but no path leads to such a node: as
components the names mean something else.  So nothing is ever put into one, as long as every
operation starts from the root or from a directory that `resolve` has returned.
-/

namespace AnssOS

open List Option Function

namespace Vfs

variable {fs fs' : Vfs} {base : ℕ} {path : Text}

/-- A tree whose root has no name and in which there is nothing in a node named `.` or `..`. -/
structure Tidy (fs : Vfs) : Prop where
  tree : IsTree fs
  root_name : fs.nameOf fs.root = []
  dots : ∀ c ∈ fs.live, IsDot (fs.nameOf c) → fs.Vacant c

/-- A node that is not named `.` or `..`. -/
def Plain (fs : Vfs) (p : ℕ) : Prop := ¬ IsDot (fs.nameOf p)

/-- A node never comes to be named `.` or `..`. -/
def KeepsPlain (fs fs' : Vfs) : Prop :=
  ∀ d ∈ fs'.live, d ∈ fs.live → fs.Plain d → fs'.Plain d

theorem KeepsPlain.refl (fs : Vfs) : KeepsPlain fs fs := fun _ _ _ h => h

namespace Tidy

theorem root_plain (h : Tidy fs) : fs.Plain fs.root := by
  rw [Plain, h.root_name]
  decide

/-- A node with a child is not named `.` or `..`. -/
theorem plain_of_up (h : Tidy fs) {c p : ℕ} (hc : c ∈ fs.live) (hup : fs.links.up c = some p) :
    fs.Plain p := by
  intro hdot
  have hp := h.tree.grove.forest.up_live hc hup
  have hmem := (h.tree.grove.forest.mem_kids hp).mpr ⟨hc, hup⟩
  have hchain := h.tree.grove.forest.siblings hp
  rw [(h.dots p hp hdot).1] at hchain
  cases hkids : fs.children p with
  | nil =>
    rw [hkids] at hmem
    cases hmem
  | cons d l =>
    rw [hkids] at hchain
    exact absurd hchain.1 (by simp)

/-! ### Paths -/

theorem resolveComponent_plain (h : Tidy fs) {cur n : ℕ} {component : Text} (hcur : cur ∈ fs.live)
    (hplain : fs.Plain cur) (hres : fs.resolveComponent cur component = some n) : fs.Plain n := by
  unfold resolveComponent at hres
  dsimp only at hres
  split at hres
  · exact some.inj hres ▸ hplain
  rename_i hne
  split at hres
  · cases hup : fs.links.up cur with
    | none =>
      rw [hup] at hres
      exact some.inj hres ▸ hplain
    | some p =>
      rw [hup] at hres
      exact some.inj hres ▸ h.plain_of_up hcur hup
  rename_i hne'
  split at hres
  · have hname := (h.tree.findChild_some hcur hres).2.2
    rw [Plain, hname]
    rintro (heq | heq)
    · exact hne (Or.inr heq)
    · exact hne' heq
  · cases hres

/-- What `resolve` returns is not named `.` or `..`. -/
theorem resolve_plain (h : Tidy fs) {n : ℕ} (hbase : base ∈ fs.live) (hplain : fs.Plain base)
    (hres : fs.resolve base path = some n) : fs.Plain n := by
  have hfold : ∀ (components : List Text) (cur : ℕ), cur ∈ fs.live → fs.Plain cur →
      components.foldlM fs.resolveComponent cur = some n → fs.Plain n := by
    intro components
    induction components with
    | nil => exact fun cur _ hcur heq => some.inj heq ▸ hcur
    | cons component components ih =>
      intro cur hcur hpl heq
      rw [foldlM_cons] at heq
      obtain ⟨m, hm, hrest⟩ := bind_eq_some_iff.mp heq
      exact ih m (h.tree.resolveComponent_live hcur hm) (h.resolveComponent_plain hcur hpl hm) hrest
  refine hfold _ _ ?_ ?_ hres
  · split
    · exact h.tree.root_live
    · exact hbase
  · split
    · exact h.root_plain
    · exact hplain

variable {node parent src : ℕ} {leaf : Text}

theorem parent_plain (h : Tidy fs) (hbase : base ∈ fs.live)
    (hplain : fs.Plain base) (hres : fs.resolveParentAndLeaf base path = some (parent, leaf)) :
    fs.Plain parent := by
  unfold resolveParentAndLeaf at hres
  dsimp only at hres
  split at hres
  · cases hres
  obtain ⟨p, hp, heq⟩ := map_eq_some_iff.mp hres
  obtain ⟨rfl, -⟩ := Prod.mk.inj heq
  split at hp
  · exact some.inj hp ▸ hplain
  · exact some.inj hp ▸ h.root_plain
  · exact h.resolve_plain hbase hplain hp

/-- The target of a copy or a move is never named `.` or `..`, and the directory it goes to is not
either. -/
theorem target_plain (h : Tidy fs) {srcPath destPath leaf : Text} (hbase : base ∈ fs.live)
    (hplain : fs.Plain base) (ht : IsTree.Target fs base srcPath destPath src parent leaf) :
    fs.Plain parent ∧ ¬ IsDot leaf := by
  rcases ht.named with ⟨hdest, rfl⟩ | ⟨hleaf, hnodir⟩
  · exact ⟨h.resolve_plain hbase hplain hdest, h.resolve_plain hbase hplain ht.src_eq⟩
  · refine ⟨h.parent_plain hbase hplain hleaf, fun hdot => ?_⟩
    -- the destination would be a directory itself
    have hres := resolve_of_parentAndLeaf hleaf
    have hparent := mem_live_of_isDir ht.parent_dir
    rcases resolveComponent_dot fs parent hdot with heq | heq
    · have := hnodir parent (hres.trans heq)
      rw [ht.parent_dir] at this
      cases this
    · cases hup : fs.links.up parent with
      | none =>
        rw [hup] at heq
        have := hnodir parent (hres.trans heq)
        rw [ht.parent_dir] at this
        cases this
      | some q =>
        rw [hup] at heq
        have := hnodir q (hres.trans heq)
        rw [h.tree.grove.dir_of_up hparent hup] at this
        cases this

/-! ### Operations -/

section

variable (h : Tidy fs)

include h

/-- A tree stays tidy if nodes change in plain ones only. -/
theorem step (htree : IsTree fs') (hroot : fs'.root = fs.root)
    (hold : ∀ c ∈ fs'.live, c ∈ fs.live → ¬ IsDot (fs'.nameOf c) ∧ c ≠ fs.root ∨
      fs'.nameOf c = fs.nameOf c ∧ (IsDot (fs.nameOf c) → fs.Vacant c → fs'.Vacant c))
    (hnew : ∀ c ∈ fs'.live, c ∉ fs.live → IsDot (fs'.nameOf c) → fs'.Vacant c) :
    Tidy fs' ∧ KeepsPlain fs fs' := by
  refine ⟨⟨htree, ?_, fun c hc hdot => ?_⟩, fun d hd hd' hplain => ?_⟩
  · have hlive := htree.root_live
    rw [hroot] at hlive ⊢
    rcases hold fs.root hlive h.tree.root_live with ⟨-, hne⟩ | ⟨hname, -⟩
    · exact absurd rfl hne
    · exact hname.trans h.root_name
  · by_cases hcold : c ∈ fs.live
    · rcases hold c hc hcold with ⟨hnot, -⟩ | ⟨hname, hkeep⟩
      · exact absurd hdot hnot
      · rw [hname] at hdot
        exact hkeep hdot (h.dots c hcold hdot)
    · exact hnew c hc hcold hdot
  · rcases hold d hd hd' with ⟨hnot, -⟩ | ⟨hname, -⟩
    · exact hnot
    · rw [Plain, hname]
      exact hplain

theorem addLeaf (kind : VnodeType) (hdir : fs.isDir parent = true) (hplain : fs.Plain parent)
    (hvalid : ValidName leaf) (hfresh : leaf ∉ (fs.children parent).map fs.nameOf) :
    Tidy ((fs.allocVnode leaf kind).linkChild parent fs.next) ∧
      KeepsPlain fs ((fs.allocVnode leaf kind).linkChild parent fs.next) := by
  have hnext := h.tree.grove.next_not_live
  have hext := extends_alloc hnext leaf kind
  have hp := mem_live_of_isDir hdir
  have hnextlive : fs.next ∈ (fs.allocVnode leaf kind).live := by
    rw [live_alloc]
    exact Set.mem_insert _ _
  have hvacant : ∀ c, c ≠ parent →
      (((fs.allocVnode leaf kind).linkChild parent fs.next).Vacant c ↔
        (fs.allocVnode leaf kind).Vacant c) :=
    fun c hc => vacant_linkChild (hext.mem_live hp) hnextlive hc
  refine h.step (h.tree.addLeaf kind hdir hvalid hfresh).1 rfl (fun c _ hc => ?_) fun c hc hcnew _ => ?_
  · rw [nameOf_linkChild]
    refine Or.inr ⟨hext.nameOf hc, fun hdot hvac => ?_⟩
    have hne : c ≠ parent := by
      rintro rfl
      exact hplain hdot
    exact (hvacant c hne).mpr ((vacant_congr (hext.same c hc)).mpr hvac)
  · rw [live_linkChild, live_alloc] at hc
    obtain rfl := hc.resolve_right hcnew
    exact (hvacant fs.next fun heq => hcnew (heq ▸ hp)).mpr (vacant_alloc fs leaf kind)

theorem createLeaf (hbase : base ∈ fs.live) (hplain : fs.Plain base) (path : Text)
    (kind : VnodeType) : Tidy (fs.createLeaf base path kind).2 ∧
      KeepsPlain fs (fs.createLeaf base path kind).2 := by
  rcases h.tree.createLeaf_cases hbase path kind with
    heq | ⟨parent, leaf, hres, hdir, hvalid, hnew, heq⟩
  · rw [heq]
    exact ⟨h, KeepsPlain.refl fs⟩
  · rw [heq]
    exact h.addLeaf kind hdir (h.parent_plain hbase hplain hres) hvalid hnew

theorem setData (hplain : fs.Plain node) (data : List UInt8) :
    Tidy (fs.setData node data).2 ∧ KeepsPlain fs (fs.setData node data).2 := by
  have htree := (h.tree.setData node data).1
  unfold Vfs.setData at htree ⊢
  split
  · exact ⟨h, KeepsPlain.refl fs⟩
  rename_i hfile
  rw [if_neg hfile] at htree
  refine h.step htree rfl (fun c _ _ => Or.inr ⟨?_, fun hdot hvac => ?_⟩) fun c hc hcnew _ => ?_
  · rw [nameOf_modify _ _ fun _ => by rfl]
  · have hne : c ≠ node := by
      rintro rfl
      exact hplain hdot
    exact (vacant_congr (nodes_modify_of_ne _ _ hne)).mpr hvac
  · rw [live_modify] at hc
    exact absurd hc hcnew

theorem writeBytes (hbase : base ∈ fs.live) (hplain : fs.Plain base) (path : Text)
    (data : List UInt8) : Tidy (fs.writeBytes base path data).2 ∧
      KeepsPlain fs (fs.writeBytes base path data).2 := by
  unfold Vfs.writeBytes
  split
  · exact h.setData (h.resolve_plain hbase hplain ‹_›) data
  obtain ⟨htidy, hkeeps⟩ := h.createLeaf hbase hplain path .file
  have hlive := ((h.tree.createLeaf hbase path .file).2.kept base hbase id).1
  have hplain' := hkeeps base hlive hbase hplain
  split
  · rename_i fs' heq
    rw [show fs' = (fs.createLeaf base path .file).2 from (congrArg Prod.snd heq).symm]
    exact ⟨htidy, hkeeps⟩
  · rename_i fs' heq
    rw [show fs' = (fs.createLeaf base path .file).2 from (congrArg Prod.snd heq).symm]
    split
    · rename_i node hres
      obtain ⟨htidy', hkeeps'⟩ := htidy.setData (htidy.resolve_plain hlive hplain' hres) data
      refine ⟨htidy', fun d hd hd' hpl => ?_⟩
      have hmid := ((h.tree.createLeaf hbase path .file).2.kept d hd' id).1
      exact hkeeps' d hd hmid (hkeeps d hmid hd' hpl)
    · exact ⟨htidy, hkeeps⟩

theorem writeFile (hbase : base ∈ fs.live) (hplain : fs.Plain base) (path : Text)
    (text : List UInt8) (append : Bool) : Tidy (fs.writeFile base path text append).2 ∧
      KeepsPlain fs (fs.writeFile base path text append).2 := by
  unfold Vfs.writeFile
  split
  · exact h.writeBytes hbase hplain path _
  · exact h.writeBytes hbase hplain path text

/-- What unlinking a node does to what is in the others. -/
theorem vacant_unlinkChild {node parent c : ℕ} (hnode : node ∈ fs.live)
    (hup : fs.links.up node = some parent) (hdot : IsDot (fs.nameOf c)) (hvac : fs.Vacant c) :
    (fs.unlinkChild parent node).Vacant c := by
  obtain ⟨-, hfirst, -⟩ := h.tree.grove.links_unlinkChild hnode hup
  have hdata := (fs.unlinkChild_same parent node).2.2.2.1
  have hne : c ≠ parent := by
    rintro rfl
    exact h.plain_of_up hnode hup hdot
  rw [Vacant, hfirst, hdata]
  refine ⟨?_, hvac.2⟩
  split
  · rw [update_of_ne hne]
    exact hvac.1
  · exact hvac.1

theorem cut (hnode : node ∈ fs.live) (hup : fs.links.up node = some parent) :
    Tidy (freeTree fs.next (fs.unlinkChild parent node) node) ∧
      KeepsPlain fs (freeTree fs.next (fs.unlinkChild parent node) node) := by
  obtain ⟨hlive, -, hname, -, hnext, hroot⟩ := fs.unlinkChild_same parent node
  have hfreed := ((h.tree.grove.unlink hnode hup).freeTree (Set.mem_insert node _)).2
  rw [hnext] at hfreed
  -- what is still there is as it was after the unlinking
  have hsame : ∀ c ∈ (freeTree fs.next (fs.unlinkChild parent node) node).live,
      (freeTree fs.next (fs.unlinkChild parent node) node).nodes c =
        (fs.unlinkChild parent node).nodes c := by
    intro c hc
    refine hfreed.same c fun hbelow => ?_
    obtain ⟨v, hv⟩ := mem_live.mp hc
    rw [hfreed.gone c hbelow] at hv
    cases hv
  refine h.step (h.tree.cut hnode hup).1 (hfreed.root.trans hroot) (fun c hc hcold => ?_)
    fun c hc hcnew _ => ?_
  · refine Or.inr ⟨?_, fun hdot hvac => ?_⟩
    · rw [nameOf, hsame c hc, ← nameOf, hname]
    · exact (vacant_congr (hsame c hc)).mpr (h.vacant_unlinkChild hnode hup hdot hvac)
  · refine absurd ?_ hcnew
    obtain ⟨v, hv⟩ := mem_live.mp hc
    rw [← hlive]
    exact mem_live.mpr ⟨v, (hsame c hc).symm.trans hv⟩

theorem linkCopy (hdir : fs.isDir parent = true)
    (hplain : fs.Plain parent) (hvalid : ValidName leaf) (hleaf : ¬ IsDot leaf)
    (hfresh : leaf ∉ (fs.children parent).map fs.nameOf)
    (hcopied : Copied fs fs {fs.root} src leaf fs') :
    Tidy (fs'.linkChild parent fs.next) ∧ KeepsPlain fs (fs'.linkChild parent fs.next) := by
  have hp := mem_live_of_isDir hdir
  obtain ⟨kids', hgrove⟩ := hcopied.grove
  have hext := hcopied.extend
  have hnext : fs.next ∈ fs'.live := hgrove.forest.live_of_mem_roots (Set.mem_insert _ _)
  have hvacant : ∀ c, c ≠ parent → ((fs'.linkChild parent fs.next).Vacant c ↔ fs'.Vacant c) :=
    fun c hc => vacant_linkChild (hext.mem_live hp) hnext hc
  refine h.step (h.tree.linkCopy hdir hvalid hfresh hcopied).1 hext.root (fun c _ hc => ?_)
    fun c hc hcnew hdot => ?_
  · rw [nameOf_linkChild]
    refine Or.inr ⟨hext.nameOf hc, fun hdot hvac => ?_⟩
    have hne : c ≠ parent := by
      rintro rfl
      exact hplain hdot
    exact (hvacant c hne).mpr ((vacant_congr (hext.same c hc)).mpr hvac)
  · rw [live_linkChild] at hc
    rw [nameOf_linkChild] at hdot
    have hne : c ≠ fs.next := by
      rintro rfl
      rw [hcopied.name_eq, hvalid.cutName_eq] at hdot
      exact hleaf hdot
    obtain ⟨s, hs, -, hname, hvac⟩ := hcopied.copies c hc hcnew hne
    rw [hname] at hdot
    exact (hvacant c fun heq => hcnew (heq ▸ hp)).mpr (hvac (h.dots s hs hdot))

theorem replant {src old parent : ℕ} (hsrc : src ∈ fs.live)
    (hup : fs.links.up src = some old) (hdir : fs.isDir parent = true) (hplain : fs.Plain parent)
    (hapart : ¬ fs.links.Ancestor src parent) (hvalid : ValidName leaf) (hleaf : ¬ IsDot leaf)
    (hnew : leaf ∉ ((fs.children parent).erase src).map fs.nameOf) :
    Tidy (((fs.unlinkChild old src).setName src leaf).linkChild parent src) ∧
      KeepsPlain fs (((fs.unlinkChild old src).setName src leaf).linkChild parent src) := by
  obtain ⟨hlive, -, hnames, -, -, hroot⟩ := fs.unlinkChild_same old src
  have hlive' : ((fs.unlinkChild old src).setName src leaf).live = fs.live :=
    (live_modify _ src _).trans hlive
  refine h.step (h.tree.replant hsrc hup hdir hapart hvalid hnew).1 hroot (fun c _ _ => ?_)
    fun c hc hcnew _ => ?_
  · rw [nameOf_linkChild]
    by_cases hcs : c = src
    · subst hcs
      refine Or.inl ⟨?_, ?_⟩
      · obtain ⟨v, hv⟩ := mem_live.mp (hlive.symm ▸ hsrc)
        rw [nameOf, Vfs.setName, nodes_modify_self, hv]
        exact hvalid.cutName_eq.symm ▸ hleaf
      · rintro rfl
        rw [h.tree.up_root] at hup
        cases hup
    · refine Or.inr ⟨?_, fun hdot hvac => ?_⟩
      · rw [← hnames, nameOf, nameOf, Vfs.setName, nodes_modify_of_ne _ _ hcs]
      · have hne : c ≠ parent := by
          rintro rfl
          exact hplain hdot
        rw [vacant_linkChild (hlive' ▸ mem_live_of_isDir hdir) (hlive' ▸ hsrc) hne]
        refine (vacant_congr (nodes_modify_of_ne _ _ hcs)).mpr ?_
        exact h.vacant_unlinkChild hsrc hup hdot hvac
  · rw [live_linkChild, hlive'] at hc
    exact absurd hc hcnew

/-- One operation that starts from a directory that is not named `.` or `..`. -/
theorem apply {op : VfsOp} (hbase : fs.isDir op.base = true)
    (hplain : fs.Plain op.base) : Tidy (fs.apply op).2 ∧ KeepsPlain fs (fs.apply op).2 := by
  have hlive := mem_live_of_isDir hbase
  cases op with
  | mkdir base path => exact h.createLeaf hlive hplain path .dir
  | createFile base path => exact h.createLeaf hlive hplain path .file
  | writeBytes base path data => exact h.writeBytes hlive hplain path data
  | writeFile base path text append => exact h.writeFile hlive hplain path text append
  | remove base path cwd =>
    rw [Vfs.apply]
    rcases h.tree.remove_cases hlive path cwd with heq | ⟨node, parent, -, hnode, -, -, hup, heq⟩
    · rw [show fs.remove base path cwd = (false, fs) from heq]
      exact ⟨h, KeepsPlain.refl fs⟩
    · rw [show fs.remove base path cwd = _ from heq]
      exact h.cut hnode hup
  | copy base srcPath destPath =>
    rw [Vfs.apply]
    rcases h.tree.copy_cases hlive srcPath destPath with
      heq | ⟨src, parent, leaf, fs', ht, hnew, hcopied, heq⟩
    · rw [show fs.copy base srcPath destPath = (false, fs) from heq]
      exact ⟨h, KeepsPlain.refl fs⟩
    · rw [show fs.copy base srcPath destPath = _ from heq]
      obtain ⟨hparent, hleaf⟩ := h.target_plain hlive hplain ht
      exact h.linkCopy ht.parent_dir hparent ht.valid hleaf hnew hcopied
  | moveNode base srcPath destPath =>
    rw [Vfs.apply]
    rcases h.tree.moveNode_cases hlive srcPath destPath with
      heq | ⟨src, old, parent, leaf, ht, hup, hnew, heq⟩
    · rw [show fs.moveNode base srcPath destPath = (false, fs) from heq]
      exact ⟨h, KeepsPlain.refl fs⟩
    · rw [show fs.moveNode base srcPath destPath = _ from heq]
      obtain ⟨hparent, hleaf⟩ := h.target_plain hlive hplain ht
      exact h.replant ht.src_live hup ht.parent_dir hparent ht.apart ht.valid hleaf hnew

end
end Tidy

end Vfs

/-! ### Runs -/

open Vfs

/-- The file system, and the directories of it that `resolve` has returned. -/
structure Session where
  fs : Vfs
  dirs : List ℕ

/-- A path is looked up, or an operation is done. -/
inductive SessionEvent
  | lookup (base : ℕ) (path : Text)
  | op (op : VfsOp)

/-- The node that an event starts from. -/
def SessionEvent.base : SessionEvent → ℕ
  | .lookup base _ => base
  | .op o => o.base

/-- The event starts from the root or from a directory that `resolve` has returned, and `remove` is
told a directory. -/
def SessionEvent.Based (s : Session) (e : SessionEvent) : Prop :=
  (e.base = s.fs.root ∨ e.base ∈ s.dirs) ∧
    ∀ base path cwd, e = .op (.remove base path cwd) → s.fs.isDir cwd = true

/-- A directory that has been freed is not returned any more. -/
def sessionSystem : TransitionSystem Session SessionEvent where
  init s := s = ⟨Vfs.init, []⟩
  step s
    | .lookup base path =>
        some { s with dirs := ((s.fs.resolve base path).filter s.fs.isDir).toList ++ s.dirs }
    | .op op => some ⟨(s.fs.apply op).2, s.dirs.filter (s.fs.apply op).2.isDir⟩

theorem Vfs.tidy_init : Tidy Vfs.init := by
  refine ⟨isTree_init, rfl, fun c hc hdot => ?_⟩
  rw [init, live_alloc] at hc
  rcases hc with rfl | hc
  · exact absurd hdot (by decide)
  · simp [live] at hc

/-- What holds in a session. -/
structure SessionOk (s : Session) : Prop where
  tidy : Tidy s.fs
  dirs : ∀ d ∈ s.dirs, s.fs.isDir d = true ∧ s.fs.Plain d

theorem SessionOk.base {s : Session} (h : SessionOk s) {p : ℕ}
    (hp : p = s.fs.root ∨ p ∈ s.dirs) : s.fs.isDir p = true ∧ s.fs.Plain p := by
  rcases hp with rfl | hp
  · exact ⟨h.tidy.tree.root_dir, h.tidy.root_plain⟩
  · exact h.dirs p hp

theorem SessionOk.step {s s' : Session} {e : SessionEvent} (h : SessionOk s) (hbase : e.Based s)
    (hstep : sessionSystem.step s e = some s') : SessionOk s' := by
  obtain ⟨hdir, hplain⟩ := h.base hbase.1
  cases e with
  | lookup base path =>
    rw [← some.inj hstep]
    refine ⟨h.tidy, fun d hd => ?_⟩
    rcases mem_append.mp hd with hd | hd
    · obtain ⟨hres, hisDir⟩ := filter_eq_some_iff.mp (mem_toList.mp hd)
      exact ⟨hisDir, h.tidy.resolve_plain (mem_live_of_isDir hdir) hplain hres⟩
    · exact h.dirs d hd
  | op op =>
    rw [← some.inj hstep]
    obtain ⟨htidy, hkeeps⟩ := h.tidy.apply hdir hplain
    refine ⟨htidy, fun d hd => ?_⟩
    obtain ⟨hd, hisDir⟩ := mem_filter.mp hd
    obtain ⟨hdir', hplain'⟩ := h.dirs d hd
    exact ⟨hisDir, hkeeps d (mem_live_of_isDir hisDir) (mem_live_of_isDir hdir') hplain'⟩

theorem sessionOk_of_reachable {s : Session}
    (h : sessionSystem.Reachable (fun s e => e.Based s) s) : SessionOk s := by
  refine TransitionSystem.Reachable.invariant (fun s hinit => ?_) ?_ h
  · rw [show s = ⟨Vfs.init, []⟩ from hinit]
    exact ⟨tidy_init, fun d hd => by cases hd⟩
  · exact fun s e s' _ hok hbase hstep => hok.step hbase hstep

theorem Vfs.tidy_of_reachable {s : Session}
    (h : sessionSystem.Reachable (fun s e => e.Based s) s) : Tidy s.fs :=
  (sessionOk_of_reachable h).tidy

end AnssOS
