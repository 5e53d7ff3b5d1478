import AnssOS.Exec.Files
import AnssOS.Fs.Footprint

/-!
# Opening files

`sys_open` resolves the path, or creates the file, and truncates it, and only then looks for a free
descriptor.  So an `open` that fails for want of one has already had its effects on the tree.

### Outline

* `Usertask.sysOpen_cases`, `Usertask.openNode_cases`: everything that `open` can do;
* `failed_open_unchanged_iff`: when an `open` that fails leaves everything as it was.
-/

namespace AnssOS

open Vfs

namespace Usertask

variable {fs : Vfs} {t : Usertask} {flags : UInt64}

/-! ### What open does -/

/-- The call of `open` creates a file. -/
def Creates (fs : Vfs) (cwd : ℕ) (path : Text) (flags : UInt64) : Prop :=
  flags &&& oCreat ≠ 0 ∧ fs.resolve cwd path = none ∧ ∃ parent leaf,
    fs.resolveParentAndLeaf cwd path = some (parent, leaf) ∧ fs.isDir parent = true ∧ leaf ≠ []

/-- The call of `open` drops the content of a file. -/
def Truncates (fs : Vfs) (cwd : ℕ) (path : Text) (flags : UInt64) : Prop :=
  flags &&& oTrunc ≠ 0 ∧ accessOf flags = oWronly ∧ ∃ node,
    fs.resolve cwd path = some node ∧ fs.isDir node = false ∧ fs.dataOf node ≠ []

theorem freeSlot_eq_none_iff : t.freeSlot = none ↔ ∀ j, t.openFiles j ≠ .free := by
  rw [freeSlot, List.find?_eq_none]
  simp

/-- Dropping the content of a file changes the tree unless the file is empty. -/
theorem drop_data_eq_iff {node : ℕ} (hnode : node ∈ fs.live) :
    (fs.modify node fun v => { v with data := [] }) = fs ↔ fs.dataOf node = [] := by
  obtain ⟨v, hv⟩ := mem_live.mp hnode
  have hdata : fs.dataOf node = v.data := by simp [dataOf, hv]
  rw [hdata]
  constructor
  · intro heq
    have hnodes := congrFun (congrArg Vfs.nodes heq) node
    rw [nodes_modify_self, hv] at hnodes
    exact (congrArg Vnode.data (Option.some.inj hnodes)).symm
  · intro hnil
    have hsame : (some v).map (fun v : Vnode => { v with data := [] }) = some v := by
      rw [← hnil]
      rfl
    rw [Vfs.modify, hv, hsame, ← hv, Function.update_eq_self]

theorem openNode_of_free {node : ℕ} {j : Fin maxOpenFiles} (hfree : t.openFiles j = .free)
    (hnone : (openNode fs t node flags).1 = none) : (openNode fs t node flags).2 = (fs, t) := by
  unfold openNode at hnone ⊢
  split
  · rfl
  · rename_i hdir
    rw [if_neg hdir] at hnone
    dsimp only at hnone
    cases hslot : t.freeSlot with
    | none => exact absurd hfree (freeSlot_eq_none_iff.mp hslot j)
    | some k =>
      rw [hslot] at hnone
      cases hnone

theorem openNode_file_of_free {node : ℕ} {j : Fin maxOpenFiles} (hfree : t.openFiles j = .free)
    (hfile : fs.isDir node = false) : (openNode fs t node flags).1 ≠ none := by
  unfold openNode
  rw [if_neg (by simp [hfile])]
  dsimp only
  cases hslot : t.freeSlot with
  | none => exact absurd hfree (freeSlot_eq_none_iff.mp hslot j)
  | some k => exact Option.some_ne_none _

/-- Without a free slot, the only effect is that content is dropped. -/
theorem openNode_of_full {node : ℕ} (hfull : ∀ j, t.openFiles j ≠ .free) :
    openNode fs t node flags = (none,
      if flags &&& oTrunc ≠ 0 ∧ ¬ fs.isDir node ∧ accessOf flags = oWronly then
        fs.modify node fun v => { v with data := [] } else fs, t) := by
  unfold openNode
  rw [freeSlot_eq_none_iff.mpr hfull]
  split
  · rename_i hdir
    rw [if_neg fun h => h.2.1 hdir.1]
  · rfl

/-- The new file that `create_file` makes where a path leads nowhere. -/
theorem createFile_of_resolve_none (h : IsTree fs) {cwd : ℕ} {path : Text} (hcwd : cwd ∈ fs.live)
    (hres : fs.resolve cwd path = none) :
    (fs.createFile cwd path = (false, fs) ∧ ¬ ∃ parent leaf,
      fs.resolveParentAndLeaf cwd path = some (parent, leaf) ∧ fs.isDir parent = true ∧ leaf ≠ []) ∨
    ∃ parent leaf, fs.resolveParentAndLeaf cwd path = some (parent, leaf) ∧
      fs.isDir parent = true ∧ leaf ≠ [] ∧
      fs.createFile cwd path = (true, (fs.allocVnode leaf .file).linkChild parent fs.next) ∧
      ((fs.allocVnode leaf .file).linkChild parent fs.next).resolve cwd path = some fs.next := by
  have hlookup : ∀ parent leaf, fs.resolveParentAndLeaf cwd path = some (parent, leaf) →
      leaf ≠ [] → fs.isDir parent = true → ¬ IsDot leaf ∧ fs.findChild parent leaf = none := by
    intro parent leaf hleaf hne hdir
    obtain ⟨-, name, rfl, -⟩ := h.resolveParentAndLeaf_spec hcwd hleaf
    rw [resolve_of_parentAndLeaf hleaf,
      resolveComponent_eq_none_iff hne (cutName_cutName name)] at hres
    exact ⟨hres.1, hres.2.resolve_left (by simp [hdir])⟩
  rcases h.createLeaf_cases hcwd path .file with
    heq | ⟨parent, leaf, hleaf, hdir, hvalid, hnew, heq⟩
  · refine Or.inl ⟨heq, ?_⟩
    rintro ⟨parent, leaf, hleaf, hdir, hne⟩
    have hfind := (hlookup parent leaf hleaf hne hdir).2
    have hdone : (fs.createLeaf cwd path .file).1 = true := by
      simp [createLeaf, hleaf, hdir, hne, hfind]
    rw [heq] at hdone
    cases hdone
  · refine Or.inr ⟨parent, leaf, hleaf, hdir, hvalid.ne_nil, heq, ?_⟩
    exact h.resolve_new_leaf .file hcwd hleaf hdir hvalid
      (hlookup parent leaf hleaf hvalid.ne_nil hdir).1 hnew

/-- What `open` comes to, if it does not refuse the access mode. -/
theorem sysOpen_cases (h : IsTree fs) (hcwd : t.workingDir fs ∈ fs.live) (path : Text)
    (haccess : ¬ (accessOf flags ≠ oRdonly ∧ accessOf flags ≠ oWronly)) :
    (fs.resolve (t.workingDir fs) path = none ∧ ¬ Creates fs (t.workingDir fs) path flags ∧
      sysOpen fs t (some path) flags = (none, fs, t)) ∨
    (∃ node, fs.resolve (t.workingDir fs) path = some node ∧
      sysOpen fs t (some path) flags = openNode fs t node flags) ∨
    ∃ parent leaf, Creates fs (t.workingDir fs) path flags ∧
      fs.createFile (t.workingDir fs) path =
        (true, (fs.allocVnode leaf .file).linkChild parent fs.next) ∧
      sysOpen fs t (some path) flags =
        openNode ((fs.allocVnode leaf .file).linkChild parent fs.next) t fs.next flags := by
  unfold sysOpen
  dsimp only
  rw [if_neg haccess]
  cases hres : fs.resolve (t.workingDir fs) path with
  | some node => exact Or.inr (Or.inl ⟨node, rfl, rfl⟩)
  | none =>
    by_cases hcreat : flags &&& oCreat ≠ 0
    · dsimp only
      rw [if_pos hcreat]
      rcases createFile_of_resolve_none h hcwd hres with
        ⟨heq, hnot⟩ | ⟨parent, leaf, hleaf, hdir, hne, heq, hnew⟩
      · rw [heq]
        exact Or.inl ⟨rfl, fun hcreates => hnot hcreates.2.2, rfl⟩
      · have hroot : t.workingDir ((fs.allocVnode leaf .file).linkChild parent fs.next) =
            t.workingDir fs := rfl
        refine Or.inr (Or.inr ⟨parent, leaf, ⟨hcreat, hres, parent, leaf, hleaf, hdir, hne⟩,
          heq, ?_⟩)
        rw [heq]
        dsimp only
        rw [hroot, hnew]
    · dsimp only
      rw [if_neg hcreat]
      exact Or.inl ⟨rfl, fun hcreates => hcreat hcreates.1, rfl⟩

/-- Opening a known node drops its content at most, and fails or takes a free slot; a directory is
never opened for writing. -/
theorem openNode_cases (fs : Vfs) (t : Usertask) (node : ℕ) (flags : UInt64) : ∃ fs',
    (fs' = fs ∨ fs' = fs.modify node fun v => { v with data := [] }) ∧
    ((openNode fs t node flags).2 = (fs', t) ∨ ∃ j w,
      (openNode fs t node flags).2 = (fs', t.setFile j (.file node 0 w)) ∧
      (fs.isDir node = true → w = false)) := by
  unfold openNode
  by_cases hdir : fs.isDir node = true ∧ flags ≠ oRdonly
  · rw [if_pos hdir]
    exact ⟨fs, Or.inl rfl, Or.inl rfl⟩
  rw [if_neg hdir]
  dsimp only
  generalize hfs : (if flags &&& oTrunc ≠ 0 ∧ ¬ fs.isDir node = true ∧ accessOf flags = oWronly then
    fs.modify node fun v => { v with data := [] } else fs) = fs'
  refine ⟨fs', ?_, ?_⟩
  · rw [← hfs]
    split
    · exact Or.inr rfl
    · exact Or.inl rfl
  · cases t.freeSlot with
    | none => exact Or.inl rfl
    | some j =>
      refine Or.inr ⟨j, _, rfl, fun hnode => ?_⟩
      have hflags : flags = oRdonly := by
        by_contra hne
        exact hdir ⟨hnode, hne⟩
      rw [hflags]
      rfl

end Usertask

/-! ### A failed open -/

open Usertask

variable {fs : Vfs} {t : Usertask}

/-- **A failed `open` has no effect** if and only if a descriptor is free, or the access mode is
refused, or the call neither creates a file nor drops the content of one. -/
theorem failed_open_unchanged_iff (h : IsTree fs) (hcwd : t.workingDir fs ∈ fs.live)
    (path : Option Text) (flags : UInt64) :
    ((sysOpen fs t path flags).1 = none → (sysOpen fs t path flags).2 = (fs, t)) ↔
      (∃ j, t.openFiles j = .free) ∨ (accessOf flags ≠ oRdonly ∧ accessOf flags ≠ oWronly) ∨
        ∀ p, path = some p → ¬ Creates fs (t.workingDir fs) p flags ∧
          ¬ Truncates fs (t.workingDir fs) p flags := by
  cases path with
  | none => simp [sysOpen]
  | some path =>
    by_cases haccess : accessOf flags ≠ oRdonly ∧ accessOf flags ≠ oWronly
    · exact iff_of_true (fun _ => by simp [sysOpen, haccess]) (Or.inr (Or.inl haccess))
    rcases sysOpen_cases h hcwd path haccess with
      ⟨hres, hnot, heq⟩ | ⟨node, hres, heq⟩ | ⟨parent, leaf, hcreates, -, heq⟩
    · -- the path leads nowhere and no file is made
      refine iff_of_true (fun _ => by rw [heq]) (Or.inr (Or.inr ?_))
      rintro p hp
      obtain rfl := Option.some.inj hp
      refine ⟨hnot, ?_⟩
      rintro ⟨-, -, node, hnode, -⟩
      rw [hres] at hnode
      cases hnode
    · rw [heq]
      by_cases hfree : ∃ j, t.openFiles j = .free
      · obtain ⟨j, hj⟩ := hfree
        exact iff_of_true (openNode_of_free hj) (Or.inl ⟨j, hj⟩)
      have hfull : ∀ j, t.openFiles j ≠ .free := fun j hj => hfree ⟨j, hj⟩
      have hnode := h.resolve_live hcwd hres
      rw [openNode_of_full hfull]
      constructor
      · intro hsame
        refine Or.inr (Or.inr ?_)
        rintro p hp
        obtain rfl := Option.some.inj hp
        refine ⟨fun hcreates => ?_, ?_⟩
        · rw [hcreates.2.1] at hres
          cases hres
        · rintro ⟨htrunc, hwrite, node', hnode', hfile, hdata⟩
          obtain rfl := Option.some.inj (hnode'.symm.trans hres)
          have heq := hsame rfl
          rw [if_pos ⟨htrunc, by simp [hfile], hwrite⟩] at heq
          exact hdata ((drop_data_eq_iff hnode).mp (Prod.mk.inj heq).1)
      · rintro (hfree' | haccess' | hall) -
        · exact absurd hfree' hfree
        · exact absurd haccess' haccess
        · dsimp only
          split
          · rename_i hdrop
            rw [(drop_data_eq_iff hnode).mpr]
            by_contra hdata
            exact (hall path rfl).2
              ⟨hdrop.1, hdrop.2.2, node, hres, by simpa using hdrop.2.1, hdata⟩
          · rfl
    · -- a new file
      rw [heq]
      by_cases hfree : ∃ j, t.openFiles j = .free
      · obtain ⟨j, hj⟩ := hfree
        refine iff_of_true (fun hnone => ?_) (Or.inl ⟨j, hj⟩)
        refine absurd hnone (openNode_file_of_free hj ?_)
        rw [isDir_linkChild, isDir, nodes_alloc_self]
        rfl
      have hfull : ∀ j, t.openFiles j ≠ .free := fun j hj => hfree ⟨j, hj⟩
      rw [openNode_of_full hfull]
      refine iff_of_false (fun hsame => ?_) ?_
      · have hnext := congrArg Vfs.next (Prod.mk.inj (hsame rfl)).1
        split at hnext
        · exact Nat.succ_ne_self _ hnext
        · exact Nat.succ_ne_self _ hnext
      · rintro (hfree' | haccess' | hall)
        · exact hfree hfree'
        · exact haccess haccess'
        · exact (hall path rfl).1 hcreates

/-- A task whose descriptors are all in use. -/
def fullTask : Usertask := { Usertask.empty with openFiles := fun _ => .pipe 0 false }

/-- With all descriptors in use, opening the root fails and changes nothing. -/
theorem failed_open_unchanged_iff_of_root :
    (sysOpen Vfs.init fullTask (some ['/']) oRdonly).1 = none ∧
      (sysOpen Vfs.init fullTask (some ['/']) oRdonly).2 = (Vfs.init, fullTask) := by
  have hnone : (sysOpen Vfs.init fullTask (some ['/']) oRdonly).1 = none := by decide
  refine ⟨hnone, ?_⟩
  refine (failed_open_unchanged_iff isTree_init (mem_live_of_isDir (by decide)) _ _).mpr ?_ hnone
  refine Or.inr (Or.inr fun p _ => ⟨fun hcreates => hcreates.1 (by decide), ?_⟩)
  exact fun htruncates => htruncates.1 (by decide)

/-- With all descriptors in use, `open` fails, but it has created a file, and it has dropped the
content of one. -/
theorem failed_open_creates_and_truncates : ∃ fs : Vfs,
    fs = ((Vfs.init.createFile 0 ['f']).2.setData 1 [1]).2 ∧
    (sysOpen fs fullTask (some ['g']) (oCreat ||| oWronly)).1 = none ∧ fs.nodes 2 = none ∧
    ((sysOpen fs fullTask (some ['g']) (oCreat ||| oWronly)).2.1.nodes 2).isSome = true ∧
    (sysOpen fs fullTask (some ['f']) (oTrunc ||| oWronly)).1 = none ∧ fs.dataOf 1 = [1] ∧
    (sysOpen fs fullTask (some ['f']) (oTrunc ||| oWronly)).2.1.dataOf 1 = [] :=
  ⟨_, rfl, by decide, by decide, by decide, by decide, by decide, by decide⟩

end AnssOS
