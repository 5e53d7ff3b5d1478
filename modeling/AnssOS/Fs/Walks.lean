import AnssOS.Fs.DotNames

/-!
# Where paths lead

`resolve` goes down a path component by component, and `path` goes up from a node to the root and writes down
the names.  This module says what the two have to do with each other, and with directories.

### Outline

* `components`, `Leads` and `Walk`: what a path means in the tree, told apart from `resolve`;
* `walks_through_directories_iff`: `resolve` looks a name up in directories only, but it takes `.` and `..` in
  a file;
* `path`, and `resolve_path`: it leads back to its node, in a tree without nodes named `.` or `..`;
* `path_correspondence`: the runs in which no such node is made.
-/

namespace AnssOS

open List Option

namespace Vfs

section Components

variable {fs : Vfs} {base p q : ℕ} {path component : Text}

/-! ### What a path means -/

/-- The components of a path, cut as `resolve` cuts them and without the empty ones. -/
def components (path : Text) : List Text := ((path.splitOn '/').map cutName).filter (· ≠ [])

/-- The node that a path starts from. -/
def start (fs : Vfs) (base : ℕ) (path : Text) : ℕ :=
  if path.head? = some '/' then fs.root else base

/-- One component leads from `p` to another node. -/
inductive Leads (fs : Vfs) (p : ℕ) : Text → ℕ → Prop
  | here : Leads fs p ['.'] p
  | up {q : ℕ} (h : fs.links.up p = some q) : Leads fs p ['.', '.'] q
  | top (h : fs.links.up p = none) : Leads fs p ['.', '.'] p
  | child {name : Text} {c : ℕ} (hname : ¬ IsDot name) (hdir : fs.isDir p = true)
      (h : fs.findChild p name = some c) : Leads fs p name c

/-- Components lead from `p` to another node, one after the other. -/
inductive Walk (fs : Vfs) : ℕ → List Text → ℕ → Prop
  | nil (p : ℕ) : Walk fs p [] p
  | cons {p q r : ℕ} {component : Text} {rest : List Text} (h : fs.Leads p component q)
      (hrest : Walk fs q rest r) : Walk fs p (component :: rest) r

/-- On the way along a path, `component` is applied to the node `m`. -/
def Applies (fs : Vfs) (p : ℕ) (path : List Text) (m : ℕ) (component : Text) : Prop :=
  ∃ before after, path = before ++ component :: after ∧ fs.Walk p before m

theorem mem_components (h : component ∈ components path) :
    component ≠ [] ∧ cutName component = component := by
  obtain ⟨hmem, hne⟩ := mem_filter.mp h
  obtain ⟨whole, -, rfl⟩ := List.mem_map.mp hmem
  exact ⟨by simpa using hne, cutName_cutName whole⟩

/-- `resolve` takes the components one after the other. -/
theorem resolve_eq_foldlM (fs : Vfs) (base : ℕ) (path : Text) :
    fs.resolve base path = (components path).foldlM fs.resolveComponent (fs.start base path) := by
  rw [resolve, components, start]
  generalize (if path.head? = some '/' then fs.root else base) = cur
  induction path.splitOn '/' generalizing cur with
  | nil => rfl
  | cons component rest ih =>
    rw [map_cons, foldlM_cons, ← resolveComponent_cutName]
    by_cases hnil : cutName component = []
    · rw [filter_cons_of_neg (by simpa using hnil), hnil]
      exact ih cur
    · rw [filter_cons_of_pos (by simpa using hnil), foldlM_cons]
      exact congrArg _ (funext ih)

theorem resolveComponent_eq_some_iff (hne : component ≠ []) (hcut : cutName component = component) :
    fs.resolveComponent p component = some q ↔ fs.Leads p component q := by
  by_cases hdot : IsDot component
  · rcases hdot with rfl | rfl
    · constructor
      · intro h
        exact some.inj h ▸ .here
      · rintro (_ | _ | _ | ⟨hname, -, -⟩)
        · rfl
        · exact absurd (Or.inl rfl) hname
    · constructor
      · intro h
        have hq : (fs.links.up p).getD p = q := some.inj h
        cases hup : fs.links.up p with
        | none =>
          rw [hup] at hq
          exact hq ▸ .top hup
        | some parent =>
          rw [hup] at hq
          exact hq ▸ .up hup
      · intro h
        have hres : fs.resolveComponent p ['.', '.'] = some ((fs.links.up p).getD p) := rfl
        rw [hres]
        rcases h with _ | hup | hup | ⟨hname, -, -⟩
        · rw [hup, getD_some]
        · rw [hup, getD_none]
        · exact absurd (Or.inr rfl) hname
  · rw [resolveComponent_of_not_dot hcut hne hdot]
    constructor
    · intro h
      split at h
      · exact .child hdot ‹_› h
      · cases h
    · rintro (_ | _ | _ | ⟨-, hdir, h⟩)
      · exact absurd (Or.inl rfl) hdot
      · exact absurd (Or.inr rfl) hdot
      · exact absurd (Or.inr rfl) hdot
      · rw [if_pos hdir, h]

/-- A component that leads nowhere is a name, looked up in a file or not there. -/
theorem resolveComponent_eq_none_iff (hne : component ≠ []) (hcut : cutName component = component) :
    fs.resolveComponent p component = none ↔
      ¬ IsDot component ∧ (fs.isDir p = false ∨ fs.findChild p component = none) := by
  by_cases hdot : IsDot component
  · refine iff_of_false ?_ fun h => h.1 hdot
    rcases resolveComponent_dot fs p hdot with h | h
    · rw [h]
      exact some_ne_none _
    · rw [h]
      exact some_ne_none _
  · rw [resolveComponent_of_not_dot hcut hne hdot]
    by_cases hdir : fs.isDir p = true
    · simp [hdir, hdot]
    · simp [hdir, hdot]

/-- A path that leads nowhere has a component that leads nowhere. -/
theorem foldlM_resolveComponent_eq_none_iff {path : List Text}
    (hpath : ∀ component ∈ path, component ≠ [] ∧ cutName component = component) :
    path.foldlM fs.resolveComponent p = none ↔ ∃ m component, fs.Applies p path m component ∧
      ¬ IsDot component ∧ (fs.isDir m = false ∨ fs.findChild m component = none) := by
  induction path generalizing p with
  | nil =>
    refine iff_of_false (some_ne_none _) ?_
    rintro ⟨m, component, ⟨before, after, heq, -⟩, -⟩
    simp at heq
  | cons component rest ih =>
    obtain ⟨hne, hcut⟩ := hpath component mem_cons_self
    have ih := fun p => ih (p := p) fun c hc => hpath c (mem_cons_of_mem _ hc)
    rw [foldlM_cons]
    cases hres : fs.resolveComponent p component with
    | none =>
      refine iff_of_true rfl ⟨p, component, ⟨[], rest, rfl, .nil p⟩, ?_⟩
      exact (resolveComponent_eq_none_iff hne hcut).mp hres
    | some q =>
      have hleads := (resolveComponent_eq_some_iff hne hcut).mp hres
      refine (ih q).trans ⟨?_, ?_⟩
      · rintro ⟨m, c, ⟨before, after, rfl, hwalk⟩, hfail⟩
        exact ⟨m, c, ⟨component :: before, after, rfl, .cons hleads hwalk⟩, hfail⟩
      · rintro ⟨m, c, ⟨before, after, heq, hwalk⟩, hfail⟩
        cases hwalk with
        | nil =>
          -- the first component does lead somewhere
          obtain ⟨rfl, rfl⟩ := List.cons.inj heq
          rw [(resolveComponent_eq_none_iff hne hcut).mpr hfail] at hres
          cases hres
        | cons hstep hwalk =>
          obtain ⟨rfl, rfl⟩ := List.cons.inj heq
          obtain rfl : q = _ :=
            some.inj (hres.symm.trans ((resolveComponent_eq_some_iff hne hcut).mpr hstep))
          exact ⟨m, c, ⟨_, after, rfl, hwalk⟩, hfail⟩

theorem resolve_eq_none_iff : fs.resolve base path = none ↔
    ∃ m component, fs.Applies (fs.start base path) (components path) m component ∧
      ¬ IsDot component ∧ (fs.isDir m = false ∨ fs.findChild m component = none) := by
  rw [resolve_eq_foldlM]
  exact foldlM_resolveComponent_eq_none_iff fun _ => mem_components

/-- **Paths go through directories**, and a path that is not found has a component that is not in its
directory or is applied to a file: this is so exactly for the paths that apply no `.` or `..` to a file, or on
which a name is not found anyway. -/
theorem walks_through_directories_iff (fs : Vfs) (base : ℕ) (path : Text) :
    ((∀ n, fs.resolve base path = some n → ∀ m component,
        fs.Applies (fs.start base path) (components path) m component → fs.isDir m = true) ∧
      (fs.resolve base path = none → ∃ m component,
        fs.Applies (fs.start base path) (components path) m component ∧
          (fs.isDir m = false ∨ ¬ IsDot component ∧ fs.findChild m component = none))) ↔
    ((∃ m component, fs.Applies (fs.start base path) (components path) m component ∧
        IsDot component ∧ fs.isDir m = false) →
      ∃ m name, fs.Applies (fs.start base path) (components path) m name ∧
        ¬ IsDot name ∧ (fs.isDir m = false ∨ fs.findChild m name = none)) := by
  constructor
  · rintro ⟨hdirs, -⟩ ⟨m, component, happlies, -, hfile⟩
    rw [← resolve_eq_none_iff]
    cases hres : fs.resolve base path with
    | none => rfl
    | some n =>
      rw [hdirs n hres m component happlies] at hfile
      cases hfile
  · intro hcond
    refine ⟨fun n hres m component happlies => ?_, fun hres => ?_⟩
    · by_contra hfile
      have hfile : fs.isDir m = false := by simpa using hfile
      have hnone : fs.resolve base path = none := by
        rw [resolve_eq_none_iff]
        by_cases hdot : IsDot component
        · exact hcond ⟨m, component, happlies, hdot, hfile⟩
        · exact ⟨m, component, happlies, hdot, Or.inl hfile⟩
      rw [hnone] at hres
      cases hres
    · obtain ⟨m, component, happlies, hdot, hfail⟩ := resolve_eq_none_iff.mp hres
      exact ⟨m, component, happlies, hfail.imp_right fun hnone => ⟨hdot, hnone⟩⟩

/-- In a tree with one file, `f/.` is the file and `f/..` is the root. -/
theorem file_dot_found : ∃ fs : Vfs, fs = (Vfs.init.createFile 0 ['f']).2 ∧ fs.isDir 1 = false ∧
    fs.resolve 0 ['f'] = some 1 ∧ fs.resolve 0 ['f', '/', '.'] = some 1 ∧
    fs.resolve 0 ['f', '/', '.', '.'] = some 0 :=
  ⟨_, rfl, by decide, by decide, by decide, by decide⟩

end Components

/-! ### The path of a node -/

variable {fs fs' : Vfs} {base p : ℕ}

namespace IsTree

/-- A child is found by its name. -/
theorem findChild_nameOf (h : IsTree fs) {c : ℕ} (hc : c ∈ fs.live) (hup : fs.links.up c = some p) :
    fs.findChild p (fs.nameOf c) = some c := by
  have hp := h.grove.forest.up_live hc hup
  have hmem := (h.grove.forest.mem_kids hp).mpr ⟨hc, hup⟩
  cases hfind : fs.findChild p (fs.nameOf c) with
  | none => exact absurd (List.mem_map_of_mem hmem) (findChild_eq_none_iff.mp hfind)
  | some d =>
    have hname := (h.findChild_some hp hfind).2.2
    rw [inj_on_of_nodup_map (h.grove.distinct hp) (mem_of_find?_eq_some hfind) hmem hname]

/-- One step down: a child that is not named `.` or `..` is what its name leads to. -/
theorem resolveComponent_nameOf (h : IsTree fs) {c : ℕ} (hc : c ∈ fs.live)
    (hup : fs.links.up c = some p) (hplain : fs.Plain c) :
    fs.resolveComponent p (fs.nameOf c) = some c := by
  have hvalid := h.grove.valid hc hup
  rw [resolveComponent_of_not_dot hvalid.cutName_eq hvalid.ne_nil hplain,
    if_pos (h.grove.dir_of_up hc hup), h.findChild_nameOf hc hup]

/-- The way up and the way down again. -/
theorem resolve_pathParts (h : IsTree fs) (hplain : ∀ c ∈ fs.live, fs.Plain c) (base : ℕ) {n k c : ℕ}
    (hc : c ∈ fs.live) (hdepth : fs.links.Depth n c) (hk : n < k) :
    (fs.pathParts k (some c) = [] ∧ c = fs.root) ∨ (fs.pathParts k (some c) ≠ [] ∧
      fs.resolve base ((fs.pathParts k (some c)).foldr (fun p s => s ++ '/' :: p) []) = some c) := by
  induction n generalizing k c with
  | zero =>
    obtain ⟨k, rfl⟩ := Nat.exists_eq_add_of_lt hk
    have hroot : c = fs.root := by
      by_contra hne
      obtain ⟨p, hup⟩ := h.exists_up hc hne
      rw [show fs.links.up c = none from hdepth] at hup
      cases hup
    exact Or.inl ⟨if_pos hroot, hroot⟩
  | succ n ih =>
    obtain ⟨k, rfl⟩ : ∃ m, k = m + 1 := ⟨k - 1, by omega⟩
    obtain ⟨p, hup, hdepth⟩ := hdepth
    have hne : c ≠ fs.root := by
      rintro rfl
      rw [h.up_root] at hup
      cases hup
    have hslash := (h.grove.valid hc hup).no_slash
    have hstep := h.resolveComponent_nameOf hc hup (hplain c hc)
    have hparts : fs.pathParts (k + 1) (some c) = fs.nameOf c :: fs.pathParts k (some p) := by
      rw [pathParts, if_neg hne, hup]
    rw [hparts]
    refine Or.inr ⟨cons_ne_nil _ _, ?_⟩
    rw [foldr_cons]
    have hk : n < k := by omega
    rcases ih (h.grove.forest.up_live hc hup) hdepth hk with ⟨hnil, rfl⟩ | ⟨hcons, hres⟩
    · rw [hnil, foldr_nil, nil_append, resolve_slash hslash, hstep]
    · have htext : (fs.pathParts k (some p)).foldr (fun p s => s ++ '/' :: p) [] ≠ [] := by
        obtain ⟨name, rest, hrest⟩ := exists_cons_of_ne_nil hcons
        rw [hrest, foldr_cons]
        simp
      rw [resolve_append_slash htext hslash, hres]
      exact hstep

/-- The path of a node leads to it, wherever one starts. -/
theorem resolve_path (h : IsTree fs) (hplain : ∀ c ∈ fs.live, fs.Plain c) (base : ℕ) {n : ℕ}
    (hn : n ∈ fs.live) : fs.resolve base (fs.path n) = some n := by
  obtain ⟨d, hdepth⟩ := h.grove.forest.exists_depth hn
  have hd := h.grove.forest.depth_lt h.grove.live_subset hn hdepth
  rw [Finset.card_range] at hd
  unfold path
  dsimp only
  rw [foldl_reverse]
  rcases h.resolve_pathParts hplain base hn hdepth hd with ⟨hnil, rfl⟩ | ⟨hcons, hres⟩
  · rw [if_pos hnil]
    exact resolve_slash (by simp)
  · rw [if_neg hcons]
    exact hres

/-- Distinct nodes have distinct paths. -/
theorem path_injOn (h : IsTree fs) (hplain : ∀ c ∈ fs.live, fs.Plain c) :
    Set.InjOn fs.path fs.live := by
  intro m hm n hn heq
  have hres := h.resolve_path hplain fs.root hm
  rw [heq, h.resolve_path hplain fs.root hn] at hres
  exact (some.inj hres).symm

end IsTree

/-! ### Runs in which no node is named `.` or `..` -/

section Names

variable {path : Text}

/-- The last component of a path, as `resolve_parent_and_leaf` cuts it. -/
def lastComponent (path : Text) : Text :=
  cutName ((path.rdropWhile (· = '/')).rtakeWhile (· ≠ '/'))

theorem leaf_eq_lastComponent {parent : ℕ} {leaf : Text}
    (h : fs.resolveParentAndLeaf base path = some (parent, leaf)) : leaf = lastComponent path := by
  unfold resolveParentAndLeaf at h
  dsimp only at h
  split at h
  · cases h
  obtain ⟨p, -, heq⟩ := map_eq_some_iff.mp h
  exact (Prod.mk.inj heq).2.symm

end Names

end Vfs

/-- No node is to be created under the name `.` or `..`. -/
def VfsOp.CreatesNoDot : VfsOp → Prop
  | mkdir _ path | createFile _ path => ¬ IsDot (Vfs.lastComponent path)
  | _ => True

namespace Vfs

variable {fs fs' : Vfs} {base : ℕ} {path : Text}

namespace Tidy

/-- The new nodes of `create_leaf`. -/
theorem createLeaf_new (h : Tidy fs) (hbase : base ∈ fs.live) (kind : VnodeType)
    (hleaf : ∀ parent leaf, fs.resolveParentAndLeaf base path = some (parent, leaf) →
      fs.isDir parent = true → ¬ IsDot leaf) :
    ∀ c ∈ (fs.createLeaf base path kind).2.live, c ∉ fs.live →
      (fs.createLeaf base path kind).2.Plain c := by
  intro c hc hnew
  rcases h.tree.createLeaf_cases hbase path kind with
    heq | ⟨parent, leaf, hres, hdir, hvalid, -, heq⟩
  · rw [heq] at hc
    exact absurd hc hnew
  · rw [heq] at hc ⊢
    dsimp only at hc ⊢
    rw [live_linkChild, live_alloc] at hc
    obtain rfl := hc.resolve_right hnew
    rw [Plain, nameOf_linkChild, nameOf, nodes_alloc_self]
    exact hvalid.cutName_eq.symm ▸ hleaf parent leaf hres hdir

theorem setData_same (fs : Vfs) (node : ℕ) (data : List UInt8) :
    (fs.setData node data).2.live = fs.live ∧ (fs.setData node data).2.nameOf = fs.nameOf := by
  unfold Vfs.setData
  split
  · exact ⟨rfl, rfl⟩
  · exact ⟨live_modify _ _ _, nameOf_modify _ _ fun _ => by rfl⟩

/-- `write_bytes` creates a file only where the path leads nowhere, so the name is not `.` or `..`. -/
theorem writeBytes_new (h : Tidy fs) (hbase : base ∈ fs.live) (path : Text) (data : List UInt8) :
    ∀ c ∈ (fs.writeBytes base path data).2.live, c ∉ fs.live →
      (fs.writeBytes base path data).2.Plain c := by
  intro c hc hnew
  cases hres : fs.resolve base path with
  | some node =>
    rw [Vfs.writeBytes, hres] at hc
    dsimp only at hc
    rw [(setData_same fs node data).1] at hc
    exact absurd hc hnew
  | none =>
    have hleaf : ∀ parent leaf, fs.resolveParentAndLeaf base path = some (parent, leaf) →
        fs.isDir parent = true → ¬ IsDot leaf := by
      intro parent leaf hparent _ hdot
      rw [resolve_of_parentAndLeaf hparent] at hres
      rcases resolveComponent_dot fs parent hdot with heq | heq
      · rw [heq] at hres
        cases hres
      · rw [heq] at hres
        cases hres
    have hplain := h.createLeaf_new hbase .file hleaf c
    rw [Vfs.writeBytes, hres] at hc ⊢
    rw [Plain] at hplain ⊢
    dsimp only [createFile] at hc ⊢
    rcases hcreate : fs.createLeaf base path .file with ⟨_ | _, fs₁⟩
    · rw [hcreate] at hc hplain
      exact hplain hc hnew
    · rw [hcreate] at hc hplain
      dsimp only at hc hplain ⊢
      cases hnode : fs₁.resolve base path with
      | none =>
        rw [hnode] at hc
        exact hplain hc hnew
      | some node =>
        rw [hnode] at hc
        dsimp only at hc ⊢
        rw [(setData_same fs₁ node data).1] at hc
        rw [(setData_same fs₁ node data).2]
        exact hplain hc hnew

/-- Removing creates no node. -/
theorem live_of_remove (h : Tidy fs) (hbase : base ∈ fs.live) {path : Text} {cwd c : ℕ}
    (hc : c ∈ (fs.remove base path cwd).2.live) : c ∈ fs.live := by
  rcases h.tree.remove_cases hbase path cwd with heq | ⟨node, parent, -, hnode, -, -, hup, heq⟩
  · rw [heq] at hc
    exact hc
  · rw [heq] at hc
    obtain ⟨hlive, -, -, -, hnext, -⟩ := fs.unlinkChild_same parent node
    have hfreed := ((h.tree.grove.unlink hnode hup).freeTree (Set.mem_insert node _)).2
    rw [hnext] at hfreed
    obtain ⟨v, hv⟩ := mem_live.mp hc
    rw [← hlive]
    refine mem_live.mpr ⟨v, (hfreed.same c fun hbelow => ?_).symm.trans hv⟩
    have := (hfreed.gone c hbelow).symm.trans hv
    cases this

/-- Moving creates no node. -/
theorem live_of_moveNode (h : Tidy fs) (hbase : base ∈ fs.live) {srcPath destPath : Text} {c : ℕ}
    (hc : c ∈ (fs.moveNode base srcPath destPath).2.live) : c ∈ fs.live := by
  rcases h.tree.moveNode_cases hbase srcPath destPath with heq | ⟨src, old, parent, leaf, -, -, -, heq⟩
  · rw [heq] at hc
    exact hc
  · rw [heq] at hc
    dsimp only at hc
    rwa [live_linkChild, Vfs.setName, live_modify, (fs.unlinkChild_same old src).1] at hc

/-- The new nodes of an operation are not named `.` or `..`, and no old one comes to be. -/
theorem apply_plain (h : Tidy fs) (hplain : ∀ c ∈ fs.live, fs.Plain c) {op : VfsOp}
    (hbase : fs.isDir op.base = true) (hop : op.CreatesNoDot) :
    ∀ c ∈ (fs.apply op).2.live, (fs.apply op).2.Plain c := by
  have hlive := mem_live_of_isDir hbase
  intro c hc
  by_cases hold : c ∈ fs.live
  · exact (h.apply hbase (hplain _ hlive)).2 c hc hold (hplain c hold)
  cases op with
  | mkdir base path =>
    refine h.createLeaf_new hlive .dir (fun parent leaf hres _ => ?_) c hc hold
    rw [leaf_eq_lastComponent hres]
    exact hop
  | createFile base path =>
    refine h.createLeaf_new hlive .file (fun parent leaf hres _ => ?_) c hc hold
    rw [leaf_eq_lastComponent hres]
    exact hop
  | writeBytes base path data => exact h.writeBytes_new hlive path data c hc hold
  | writeFile base path text append =>
    rw [Vfs.apply, Vfs.writeFile] at hc ⊢
    split at hc
    · exact h.writeBytes_new hlive path _ c hc hold
    · exact h.writeBytes_new hlive path text c hc hold
  | remove base path cwd => exact absurd (h.live_of_remove hlive hc) hold
  | copy base srcPath destPath =>
    rw [Vfs.apply] at hc ⊢
    rcases h.tree.copy_cases hlive srcPath destPath with
      heq | ⟨src, parent, leaf, fs', ht, hnew, hcopied, heq⟩
    · rw [show fs.copy base srcPath destPath = (false, fs) from heq] at hc
      exact absurd hc hold
    · rw [show fs.copy base srcPath destPath = _ from heq] at hc ⊢
      dsimp only at hc ⊢
      rw [live_linkChild] at hc
      rw [Plain, nameOf_linkChild]
      by_cases hnext : c = fs.next
      · rw [hnext, hcopied.name_eq, ht.valid.cutName_eq]
        exact (h.target_plain hlive (hplain _ hlive) ht).2
      · obtain ⟨s, hs, -, hname, -⟩ := hcopied.copies c hc hold hnext
        rw [hname]
        exact hplain s hs
  | moveNode base srcPath destPath => exact absurd (h.live_of_moveNode hlive hc) hold

end Tidy

/-- In a run that creates nothing under the name `.` or `..`, nothing is named so. -/
theorem plain_of_reachable
    (h : vfsSystem.Reachable (fun fs op => op.Based fs ∧ op.CreatesNoDot) fs) :
    Tidy fs ∧ ∀ c ∈ fs.live, fs.Plain c := by
  refine h.invariant (P := fun fs => Tidy fs ∧ ∀ c ∈ fs.live, fs.Plain c) ?_ ?_
  · intro fs hinit
    rw [show fs = Vfs.init from hinit]
    refine ⟨tidy_init, fun c hc => ?_⟩
    rw [init, live_alloc] at hc
    rcases hc with rfl | hc
    · exact tidy_init.root_plain
    · simp [live] at hc
  · rintro fs op fs' - ⟨htidy, hplain⟩ ⟨⟨hbase, -⟩, hop⟩ hstep
    rw [← some.inj hstep]
    exact ⟨(htidy.apply hbase (hplain _ (mem_live_of_isDir hbase))).1,
      htidy.apply_plain hplain hbase hop⟩

/-- **Paths and nodes correspond**, in every run that creates nothing under the name `.` or `..`: a node is
what its path leads to from any directory, other nodes have other paths, and by its path a file is read and a
node is removed, unless it is the root or above the working directory. -/
theorem path_correspondence
    (h : vfsSystem.Reachable (fun fs op => op.Based fs ∧ op.CreatesNoDot) fs) {n : ℕ}
    (hn : n ∈ fs.live) {b : ℕ} (hb : fs.isDir b = true) :
    fs.resolve b (fs.path n) = some n ∧ (∀ m ∈ fs.live, fs.path m = fs.path n → m = n) ∧
      (fs.isDir n = false → fs.cat b (fs.path n) = some (fs.dataOf n ++ [10])) ∧
      ∀ cwd, fs.isDir cwd = true → n ≠ fs.root → fs.isAncestorOrSelf n cwd = false →
        (fs.remove b (fs.path n) cwd).1 = true ∧ n ∉ (fs.remove b (fs.path n) cwd).2.live := by
  obtain ⟨htidy, hplain⟩ := plain_of_reachable h
  have hres := htidy.tree.resolve_path hplain b hn
  refine ⟨hres, fun m hm => htidy.tree.path_injOn hplain hm hn, fun hfile => ?_,
    fun cwd _ hroot hcwd => ?_⟩
  · simp [cat, hres, hfile]
  · have hdone : (fs.remove b (fs.path n) cwd).1 = true := by
      simp [remove, hres, hroot, hcwd]
    refine ⟨hdone, ?_⟩
    have hbased : fs.isDir (VfsOp.remove b (fs.path n) cwd).base = true := hb
    exact (htidy.tree.apply hbased).2.freed n ⟨hdone, n, hres, Relation.ReflTransGen.refl⟩

/-- The theorem for a file in a directory. -/
theorem path_correspondence_of_two_levels : ∃ fs,
    vfsSystem.run Vfs.init [.mkdir 0 ['a'], .createFile 0 ['a', '/', 'f']] = some fs ∧
      fs.path 2 = ['/', 'a', '/', 'f'] ∧ fs.resolve 1 (fs.path 2) = some 2 := by
  have hmkdir : (VfsOp.mkdir 0 ['a']).CreatesNoDot := (by decide : ¬ IsDot ['a'])
  have hcreate : (VfsOp.createFile 0 ['a', '/', 'f']).CreatesNoDot := (by decide : ¬ IsDot ['f'])
  have hreach : vfsSystem.Reachable (fun fs op => op.Based fs ∧ op.CreatesNoDot)
      ((Vfs.init.mkdir 0 ['a']).2.createFile 0 ['a', '/', 'f']).2 := by
    refine ((TransitionSystem.Reachable.init rfl).step ⟨⟨?_, ?_⟩, hmkdir⟩ rfl).step
      ⟨⟨?_, ?_⟩, hcreate⟩ rfl
    · decide
    · exact fun _ _ _ h => by cases h
    · decide
    · exact fun _ _ _ h => by cases h
  refine ⟨_, rfl, by decide, (path_correspondence hreach ?_ (by decide)).1⟩
  exact mem_live.mpr (isSome_iff_exists.mp (by decide))

/-- `mkdir .` makes a directory whose path is that of the root; no path leads to it. -/
theorem dot_directory_unreachable : ∃ fs,
    vfsSystem.Reachable (fun fs op => op.Based fs) fs ∧ fs.isDir 1 = true ∧
      fs.path 1 = ['/', '.'] ∧ fs.resolve 0 (fs.path 1) = some 0 ∧
      ∀ path, fs.resolve fs.root path ≠ some 1 := by
  have hroot : 0 ∈ Vfs.init.live := tidy_init.tree.root_live
  have htidy := (tidy_init.createLeaf hroot tidy_init.root_plain ['.'] .dir).1
  refine ⟨(Vfs.init.apply (.mkdir 0 ['.'])).2, ?_, by decide, by decide, by decide, fun path hres => ?_⟩
  · refine (TransitionSystem.Reachable.init rfl).step ?_ rfl
    exact ⟨by decide, fun _ _ _ h => by cases h⟩
  · exact htidy.resolve_plain htidy.tree.root_live htidy.root_plain hres (by decide)

end Vfs

end AnssOS
