import AnssOS.Fs.Walks

/-!
# Moving

`move_node` relocates one node, with all that is below it, or does nothing.

### Outline

* `Relocated`: a node has another place and name, and everything else is where it was;
* `move_is_relocation`: what `move_node` does, in every session.
-/

namespace AnssOS

open List Option Function

namespace Vfs

variable {fs fs' : Vfs} {base src parent : ℕ} {leaf srcPath destPath : Text}

/-- The node `src` has become the first child of `parent` under the name `leaf`, and that is all. -/
structure Relocated (fs fs' : Vfs) (src parent : ℕ) (leaf : Text) : Prop where
  live : fs'.live = fs.live
  root : fs'.root = fs.root
  isDir : fs'.isDir = fs.isDir
  dataOf : fs'.dataOf = fs.dataOf
  nameOf : fs'.nameOf = Function.update fs.nameOf src leaf
  up : fs'.links.up = Function.update fs.links.up src (some parent)
  children : ∀ p ∈ fs.live, fs'.children p =
    if p = parent then src :: (fs.children p).erase src else (fs.children p).erase src

theorem IsTree.relocated (h : IsTree fs) {old : ℕ} (hsrc : src ∈ fs.live)
    (hup : fs.links.up src = some old) (hdir : fs.isDir parent = true)
    (hapart : ¬ fs.links.Ancestor src parent) (hvalid : ValidName leaf)
    (hnew : leaf ∉ ((fs.children parent).erase src).map fs.nameOf) :
    Relocated fs (((fs.unlinkChild old src).setName src leaf).linkChild parent src) src parent leaf := by
  obtain ⟨hlive, hisDir, hnames, hdata, -, hroot⟩ := fs.unlinkChild_same old src
  have hp := mem_live_of_isDir hdir
  have hlive' : ((fs.unlinkChild old src).setName src leaf).live = fs.live :=
    (live_modify _ src _).trans hlive
  have hlinks : ((fs.unlinkChild old src).setName src leaf).links = (fs.unlinkChild old src).links :=
    links_modify _ src fun v => ⟨rfl, rfl, rfl⟩
  refine ⟨?_, hroot, ?_, ?_, ?_, ?_, fun p hpl => ?_⟩
  · rw [live_linkChild, hlive']
  · rw [isDir_linkChild, Vfs.setName, isDir_modify _ src fun _ => by rfl, hisDir]
  · rw [dataOf_linkChild, Vfs.setName, dataOf_modify _ src fun _ => by rfl, hdata]
  · rw [nameOf_linkChild, ← hnames]
    funext c
    by_cases hc : c = src
    · obtain ⟨v, hv⟩ := mem_live.mp (hlive.symm ▸ hsrc)
      rw [hc, update_self, Vfs.nameOf, Vfs.setName, nodes_modify_self, hv]
      exact hvalid.cutName_eq
    · rw [update_of_ne hc, Vfs.nameOf, Vfs.nameOf, Vfs.setName, nodes_modify_of_ne _ _ hc]
  · rw [links_linkChild _ (hlive' ▸ hp) (hlive' ▸ hsrc), hlinks]
    dsimp only
    rw [(h.grove.links_unlinkChild hsrc hup).1, update_idem]
  · have hgrove := h.replant_grove hsrc hup hdir hapart hvalid hnew
    rw [hgrove.children_eq (by rwa [live_linkChild, hlive'])]
    by_cases hpp : p = parent
    · rw [hpp, update_self, if_pos rfl]
    rw [update_of_ne hpp, if_neg hpp]
    by_cases hpo : p = old
    · rw [hpo, update_self]
    · rw [update_of_ne hpo, erase_of_not_mem]
      intro hmem
      have := ((h.grove.forest.mem_kids hpl).mp hmem).2
      exact hpo (some.inj (this.symm.trans hup))

/-- Below the node is what was below it before. -/
theorem Relocated.below (h : Relocated fs fs' src parent leaf) (q : ℕ) :
    fs'.links.Ancestor src q ↔ fs.links.Ancestor src q := by
  constructor <;> refine fun hanc => hanc.congr fun r _ _ hr => ?_
  · rw [h.up, update_of_ne hr]
  · rw [h.up, update_of_ne hr]

theorem IsTree.Target.resolveTarget_eq (h : Target fs base srcPath destPath src parent leaf) :
    fs.resolveTarget base destPath src = some (parent, leaf) := by
  unfold resolveTarget
  rcases h.named with ⟨hdest, rfl⟩ | ⟨hleaf, hnodir⟩
  · rw [filter_eq_some_iff.mpr ⟨hdest, h.parent_dir⟩]
  · have hnone : (fs.resolve base destPath).filter fs.isDir = none :=
      filter_eq_none_iff.mpr fun dest hdest => by simp [hnodir dest hdest]
    rw [hnone]
    exact filter_eq_some_iff.mpr ⟨hleaf, h.parent_dir⟩

/-- **A move is an exact relocation or nothing**, in every session, from the root or a directory that `resolve`
has returned. -/
theorem move_is_relocation {s : Session} (h : sessionSystem.Reachable (fun s e => e.Based s) s)
    (hbase : base = s.fs.root ∨ base ∈ s.dirs) (srcPath destPath : Text) :
    ((s.fs.moveNode base srcPath destPath).1 = true → ∃ src parent leaf,
      s.fs.resolve base srcPath = some src ∧
      s.fs.resolveTarget base destPath src = some (parent, leaf) ∧
      Relocated s.fs (s.fs.moveNode base srcPath destPath).2 src parent leaf ∧
      (∀ q, (s.fs.moveNode base srcPath destPath).2.links.Ancestor src q ↔
        s.fs.links.Ancestor src q) ∧
      (s.fs.moveNode base srcPath destPath).2.resolve parent leaf = some src) ∧
    ((s.fs.moveNode base srcPath destPath).1 = false →
      (s.fs.moveNode base srcPath destPath).2 = s.fs) ∧
    ∀ c ∈ (s.fs.moveNode base srcPath destPath).2.live, ∀ p,
      (s.fs.moveNode base srcPath destPath).2.links.up c = some p →
      ¬ (s.fs.moveNode base srcPath destPath).2.links.Ancestor c p := by
  have hok := sessionOk_of_reachable h
  obtain ⟨hdir, hplain⟩ := hok.base hbase
  have hlive := mem_live_of_isDir hdir
  have htree := (hok.tidy.tree.moveNode hlive srcPath destPath).1
  refine ⟨?_, ?_, fun c hc p hup => htree.grove.forest.not_ancestor_of_up hc hup⟩
  · intro hdone
    rcases hok.tidy.tree.moveNode_cases hlive srcPath destPath with
      heq | ⟨src, old, parent, leaf, ht, hup, hnew, heq⟩
    · rw [heq] at hdone
      cases hdone
    rw [heq] at htree ⊢
    have hreloc := hok.tidy.tree.relocated ht.src_live hup ht.parent_dir ht.apart ht.valid hnew
    have hname := congrFun hreloc.nameOf src
    have hparent := congrFun hreloc.up src
    rw [update_self] at hname hparent
    refine ⟨src, parent, leaf, ht.src_eq, ht.resolveTarget_eq, hreloc, hreloc.below, ?_⟩
    -- the name leads to the node, since it is not `.` or `..`
    have hplain' : Plain _ src := hname.symm ▸ (hok.tidy.target_plain hlive hplain ht).2
    have hstep := htree.resolveComponent_nameOf (hreloc.live ▸ ht.src_live) hparent hplain'
    rw [hname] at hstep
    rw [resolve_of_no_slash ht.valid.no_slash]
    exact hstep
  · intro hrefused
    rcases hok.tidy.tree.moveNode_cases hlive srcPath destPath with heq | ⟨_, _, _, _, _, _, _, heq⟩
    · rw [heq]
    · rw [heq] at hrefused
      cases hrefused

/-- A file is moved into a directory and gets another name. -/
theorem move_is_relocation_into_directory : ∃ s, sessionSystem.run ⟨Vfs.init, []⟩
    [.op (.mkdir 0 ['a']), .op (.createFile 0 ['f'])] = some s ∧
      (s.fs.moveNode 0 ['f'] ['a', '/', 'g']).1 = true ∧ ∃ src parent leaf,
        Relocated s.fs (s.fs.moveNode 0 ['f'] ['a', '/', 'g']).2 src parent leaf ∧
          (s.fs.moveNode 0 ['f'] ['a', '/', 'g']).2.resolve parent leaf = some src := by
  have hreach : sessionSystem.Reachable (fun s e => e.Based s)
      ⟨((Vfs.init.mkdir 0 ['a']).2.createFile 0 ['f']).2, []⟩ := by
    refine ((TransitionSystem.Reachable.init rfl).step (e := .op (.mkdir 0 ['a'])) ?_ rfl).step
      (e := .op (.createFile 0 ['f'])) ?_ rfl
    · exact ⟨Or.inl rfl, fun _ _ _ h => by cases h⟩
    · exact ⟨Or.inl rfl, fun _ _ _ h => by cases h⟩
  have hdone : ((((Vfs.init.mkdir 0 ['a']).2.createFile 0 ['f']).2).moveNode 0 ['f']
      ['a', '/', 'g']).1 = true := by decide
  obtain ⟨src, parent, leaf, -, -, hreloc, -, hres⟩ :=
    (move_is_relocation hreach (Or.inl rfl) ['f'] ['a', '/', 'g']).1 hdone
  exact ⟨_, rfl, hdone, src, parent, leaf, hreloc, hres⟩

end Vfs

end AnssOS
