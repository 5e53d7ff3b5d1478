import AnssOS.Fs.Footprint

/-!
# Copying

`copy` adds one replica of the source, with the children of every directory in reverse order, or does nothing.
The replica consists of new nodes, so that what happens later in one of the two subtrees leaves the other one
alone.

### Outline

* `copyRecursive_mirrors`: what the new nodes hold, by the rule for `copy_recursive`;
* `Replicated`, and what `copy` does to the tree;
* `copy_is_replica`: the replica, and what happens to the two subtrees later.
-/

namespace AnssOS

namespace Vfs

variable {fs fs₁ fs₂ fs' : Vfs} {kids kids' : ℕ → List ℕ} {roots roots' : Set ℕ}

/-! ### Listings and links -/

theorem Holds.of_append {l : Listing} {ps qs : List ℕ} (h : fs.Holds l (ps ++ qs)) :
    ∃ l₁ l₂, l = l₁.append l₂ ∧ fs.Holds l₁ ps ∧ fs.Holds l₂ qs := by
  induction ps generalizing l with
  | nil => exact ⟨.nil, l, rfl, trivial, h⟩
  | cons p ps ih =>
    cases l with
    | nil => exact h.elim
    | file name data rest =>
      obtain ⟨l₁, l₂, rfl, h₁, h₂⟩ := ih h.2
      exact ⟨.file name data l₁, l₂, rfl, ⟨h.1, h₁⟩, h₂⟩
    | dir name inside rest =>
      obtain ⟨l₁, l₂, rfl, h₁, h₂⟩ := ih h.2.2
      exact ⟨.dir name inside l₁, l₂, rfl, ⟨h.1, h.2.1, h₁⟩, h₂⟩

/-- A root is not below a child. -/
theorem Grove.not_ancestor_root (h : Grove fs kids roots) {c d r : ℕ} (hc : c ∈ roots)
    (hd : fs.links.up d = some r) : ¬ fs.links.Ancestor d c := by
  intro hanc
  have htop := h.forest.up_of_mem_roots hc
  rw [hanc.eq_of_root htop, htop] at hd
  cases hd

/-- What a node holds is not touched by linking a root below a node that is not inside. -/
theorem Grove.holds_linkChild (h : Grove fs kids roots) {p c r : ℕ} (hc : c ∈ roots)
    (hr : r ∈ fs.live) (hp : ∀ d ∈ fs.children r, ¬ fs.links.Ancestor d p) {l : Listing}
    (hl : fs.Holds l (fs.children r)) : (fs.linkChild p c).Holds l (fs.children r) := by
  have hkids : ∀ d ∈ fs.children r, d ∈ fs.live ∧ fs.links.up d = some r := by
    intro d hd
    rw [h.children_eq hr] at hd
    exact (h.forest.mem_kids hr).mp hd
  have hnext : fs.next ≤ (fs.linkChild p c).next := le_rfl
  refine h.holds_of_agree hnext (fun d hd => (hkids d hd).1) (fun d hd q hdq => ?_) hl
  have hqp : q ≠ p := by
    rintro rfl
    exact hp d hd hdq
  have hqc : q ≠ c := by
    rintro rfl
    exact h.not_ancestor_root hc (hkids d hd).2 hdq
  rw [linkChild, nodes_modify_of_ne _ _ hqp, nodes_modify_of_ne _ _ hqc]

/-! ### What the copies hold -/

/-- The copy of `p` that `copy_recursive` has made in `fs₁` has the content of `p`, and it holds what `p` holds
in reverse order. -/
def Mirrors (fs : Vfs) (p : ℕ) (fs₁ fs' : Vfs) : Prop :=
  (fs.isDir p = false → fs'.dataOf fs₁.next = fs.dataOf p) ∧
    (fs.isDir p = true →
      ∀ l, fs.Holds l (fs.children p) → fs'.Holds l.mirror (fs'.children fs₁.next))

/-- The listing of a single node. -/
theorem holds_singleton_iff {l : Listing} {p : ℕ} : fs.Holds l [p] ↔
    (p ∈ fs.live ∧ fs.isDir p = false ∧ l = .file (fs.nameOf p) (fs.dataOf p) .nil) ∨
      (fs.isDir p = true ∧
        ∃ inside, fs.Holds inside (fs.children p) ∧ l = .dir (fs.nameOf p) inside .nil) := by
  constructor
  · intro h
    cases l with
    | nil => exact h.elim
    | file name data rest =>
      obtain ⟨⟨v, hv, hkind, rfl, rfl⟩, hrest⟩ := h
      have hnil : rest = .nil := hrest.unique (m := .nil) trivial
      refine Or.inl ⟨mem_live.mpr ⟨v, hv⟩, ?_, ?_⟩
      · simp [isDir, hv, hkind]
      · simp [nameOf, dataOf, hv, hnil]
    | dir name inside rest =>
      obtain ⟨⟨v, hv, hkind, rfl⟩, hinside, hrest⟩ := h
      have hnil : rest = .nil := hrest.unique (m := .nil) trivial
      refine Or.inr ⟨?_, inside, hinside, ?_⟩
      · simp [isDir, hv, hkind]
      · simp [nameOf, hv, hnil]
  · rintro (⟨hp, hfile, rfl⟩ | ⟨hdir, inside, hinside, rfl⟩)
    · obtain ⟨v, hv⟩ := mem_live.mp hp
      have hkind : v.kind = .file := by
        cases hk : v.kind with
        | file => rfl
        | dir => simp [isDir, hv, hk] at hfile
      exact ⟨⟨v, hv, hkind, by simp [nameOf, hv], by simp [dataOf, hv]⟩, trivial⟩
    · obtain ⟨v, hv⟩ := mem_live.mp (mem_live_of_isDir hdir)
      have hkind : v.kind = .dir := by simpa [isDir, hv] using hdir
      exact ⟨⟨v, hv, hkind, by simp [nameOf, hv]⟩, hinside, trivial⟩

/-- One more child of a directory has been copied and linked. -/
theorem Mirrors.link {roots₁ : Set ℕ} {name : Text} {done : List ℕ} {c : ℕ} {fs₃ : Vfs}
    (h₂ : CopyingChildren fs fs₁ roots₁ name done fs₂)
    (hdone : ∀ l, fs.Holds l done → fs₂.Holds l.mirror (fs₂.children fs₁.next))
    (hvalid : ValidName (fs.nameOf c))
    (hcopied : Copied fs fs₂ (insert fs₁.next roots₁) c (fs.nameOf c) fs₃)
    (hc : Mirrors fs c fs₂ fs₃)
    (h₄ : CopyingChildren fs fs₁ roots₁ name (done ++ [c]) (fs₃.linkChild fs₁.next fs₂.next))
    {l : Listing} (hl : fs.Holds l (done ++ [c])) :
    (fs₃.linkChild fs₁.next fs₂.next).Holds l.mirror
      ((fs₃.linkChild fs₁.next fs₂.next).children fs₁.next) := by
  obtain ⟨kids₂, hgrove₂, -⟩ := h₂.grove
  obtain ⟨kids₃, hgrove₃⟩ := hcopied.grove
  obtain ⟨kids₄, hgrove₄, -⟩ := h₄.grove
  have htop₂ : fs₁.next ∈ fs₂.live := mem_live_of_isDir h₂.isDir
  have htop : fs₁.next ∈ fs₃.live := hcopied.extend.mem_live htop₂
  have hchild : fs₂.next ∈ fs₃.live := hgrove₃.forest.live_of_mem_roots (Set.mem_insert _ _)
  have hne : fs₂.next ≠ fs₁.next := fun heq => hgrove₂.next_not_live (heq ▸ htop₂)
  -- the copy is a root, so no child is above it
  have hroot : ∀ {r}, r ∈ fs₃.live → ∀ d ∈ fs₃.children r, ¬ fs₃.links.Ancestor d fs₁.next := by
    intro r hr d hd
    rw [hgrove₃.children_eq hr] at hd
    exact hgrove₃.not_ancestor_root (Set.mem_insert_of_mem _ (Set.mem_insert _ _))
      ((hgrove₃.forest.mem_kids hr).mp hd).2
  have hchildren : ∀ {q}, q ∈ fs₃.live → _ :=
    fun hq => hgrove₃.children_linkChild hgrove₄ htop (Set.mem_insert _ _) hq
  obtain ⟨l₁, l₂, rfl, hl₁, hl₂⟩ := hl.of_append
  rw [Listing.mirror_append, hchildren htop, if_pos rfl, ← List.singleton_append]
  refine Holds.append ?_ ?_
  · -- the new child
    have hname : fs₃.nameOf fs₂.next = fs.nameOf c := hcopied.name_eq.trans hvalid.cutName_eq
    rw [holds_singleton_iff, live_linkChild, isDir_linkChild, nameOf_linkChild, dataOf_linkChild,
      hcopied.isDir_eq, hname]
    rcases holds_singleton_iff.mp hl₂ with ⟨-, hfile, rfl⟩ | ⟨hdir, inside, hinside, rfl⟩
    · exact Or.inl ⟨hchild, hfile, by rw [hc.1 hfile]; rfl⟩
    · refine Or.inr ⟨hdir, inside.mirror, ?_, rfl⟩
      rw [hchildren hchild, if_neg hne]
      exact hgrove₃.holds_linkChild (Set.mem_insert _ _) hchild (hroot hchild)
        (hc.2 hdir inside hinside)
  · -- the children that were there
    refine hgrove₃.holds_linkChild (Set.mem_insert _ _) htop (hroot htop) ?_
    have hsame : fs₃.children fs₁.next = fs₂.children fs₁.next := by
      rw [hgrove₃.children_eq htop, hgrove₂.children_eq htop₂]
      exact hgrove₂.kids_eq_of_extends hgrove₃ hcopied.extend htop₂
    rw [hsame]
    refine hgrove₂.holds_of_agree hcopied.extend.next_le ?_ ?_ (hdone l₁ hl₁)
    · intro d hd
      rw [hgrove₂.children_eq htop₂] at hd
      exact ((hgrove₂.forest.mem_kids htop₂).mp hd).1
    · intro d hd q hdq
      rw [hgrove₂.children_eq htop₂] at hd
      exact hcopied.extend.same q
        (live_of_ancestor hdq ((hgrove₂.forest.mem_kids htop₂).mp hd).1)

/-- `copy_recursive` makes a mirrored copy. -/
theorem Grove.copyRecursive_mirrors (h : Grove fs kids roots) {p : ℕ} (hp : p ∈ fs.live)
    (name : Text) : ∃ fs', Vfs.copyRecursive fs.next fs p name = some (fs.next, fs') ∧
      Copied fs fs roots p name fs' ∧ Mirrors fs p fs fs' := by
  refine h.copyRecursive_rule (C := fun p _ fs₁ fs' => Mirrors fs p fs₁ fs')
    (R := fun _ fs₁ done fs₂ =>
      ∀ l, fs.Holds l done → fs₂.Holds l.mirror (fs₂.children fs₁.next)) ?_ ?_ ?_ ?_ hp name
  · intro p v name fs₁ hv hkind
    refine ⟨fun _ => ?_, fun hdir => absurd ?_ hkind⟩
    · rw [dataOf, dataOf, nodes_modify_self, nodes_alloc_self, hv]
      rfl
    · simpa [isDir, hv] using hdir
  · intro name fs₁ l hl
    have hnil : l = .nil := hl.unique (m := .nil) trivial
    have hfirst : (fs₁.allocVnode name .dir).links.first fs₁.next = none := by
      rw [first_eq, nodes_alloc_self]
      rfl
    rw [children, hfirst, hnil]
    exact trivial
  · intro name fs₁ roots₁ done c fs₂ fs₃ _ _ h₂ hdone hc hup hcopied hmirrors h₄ l hl
    obtain ⟨u, hup⟩ := hup
    exact Mirrors.link h₂ hdone (h.valid hc hup) hcopied hmirrors h₄ hl
  · intro p v name fs₁ roots₁ fs' hv hkind _ hall
    have hdir : fs.isDir p = true := by simp [isDir, hv, hkind]
    refine ⟨fun hfile => ?_, fun _ l hl => hall l ?_⟩
    · rw [hdir] at hfile
      cases hfile
    · rwa [h.children_eq (mem_live.mpr ⟨v, hv⟩)] at hl

/-! ### The finished copy -/

/-- A replica of `src`, which starts at the node `fs.next`, has become the first child of `parent` under the name
`leaf`, and that is all. -/
structure Replicated (fs fs' : Vfs) (src parent : ℕ) (leaf : Text) : Prop where
  root : fs'.root = fs.root
  first : fs'.children parent = fs.next :: fs.children parent
  /-- The nodes there were are as before, but for the first child of `parent`. -/
  same : ∀ q v, fs.nodes q = some v →
    fs'.nodes q = some (if q = parent then { v with children := some fs.next } else v)
  children : ∀ q ∈ fs.live, q ≠ parent → fs'.children q = fs.children q
  /-- The new nodes are those of the replica. -/
  fresh : ∀ q ∈ fs'.live, q ∉ fs.live ↔ fs'.links.Ancestor fs.next q
  nameOf : fs'.nameOf fs.next = leaf
  isDir : fs'.isDir fs.next = fs.isDir src
  dataOf : fs.isDir src = false → fs'.dataOf fs.next = fs.dataOf src
  holds : ∃ l, fs.Holds l (fs.children src) ∧ fs'.Holds l.mirror (fs'.children fs.next)

variable {src parent : ℕ} {leaf : Text}

theorem Replicated.next_live (h : Replicated fs fs' src parent leaf) (htree : IsTree fs')
    (hp : parent ∈ fs'.live) : fs.next ∈ fs'.live := by
  refine ((htree.grove.forest.mem_kids hp).mp ?_).1
  rw [h.first]
  exact List.mem_cons_self

/-- All new nodes are below the new child, and all nodes below it are new. -/
theorem IsTree.fresh_iff (htree : IsTree fs') {top : ℕ} (hroot : fs'.root ∈ fs.live)
    (htop : top ∉ fs.live)
    (hup : ∀ q ∈ fs.live, ∀ p, fs'.links.up q = some p → p ∈ fs.live)
    (hkids : ∀ q ∈ fs.live, ∀ c ∈ fs'.children q, c = top ∨ c ∈ fs.live) {q : ℕ}
    (hq : q ∈ fs'.live) : q ∉ fs.live ↔ fs'.links.Ancestor top q := by
  constructor
  · intro hnew
    have hall : ∀ {x}, fs'.links.Ancestor fs'.root x → x ∈ fs'.live →
        x ∈ fs.live ∨ fs'.links.Ancestor top x := by
      intro x hanc
      induction hanc with
      | refl => exact fun _ => Or.inl hroot
      | @tail x y _ hstep ih =>
        intro hy
        have hx := htree.grove.forest.up_live hy hstep
        rcases ih hx with hold | hbelow
        · have hmem := (htree.grove.forest.mem_kids hx).mpr ⟨hy, hstep⟩
          rcases hkids x hold y hmem with rfl | hy
          · exact Or.inr Relation.ReflTransGen.refl
          · exact Or.inl hy
        · exact Or.inr (hbelow.tail hstep)
    exact (hall (htree.ancestor_root hq) hq).resolve_left hnew
  · intro hanc hold
    have hback : ∀ {x}, fs'.links.Ancestor top x → x ∈ fs.live → top ∈ fs.live := by
      intro x hanc
      induction hanc with
      | refl => exact id
      | tail _ hstep ih => exact fun hy => ih (hup _ hy _ hstep)
    exact htop (hback hanc hold)

/-- The copy is linked. -/
theorem IsTree.replicated (h : IsTree fs) (hsrc : src ∈ fs.live) (hdir : fs.isDir parent = true)
    (hvalid : ValidName leaf) (hnew : leaf ∉ (fs.children parent).map fs.nameOf)
    (hcopied : Copied fs fs {fs.root} src leaf fs₁) (hmirrors : Mirrors fs src fs fs₁) :
    Replicated fs (fs₁.linkChild parent fs.next) src parent leaf := by
  obtain ⟨kids₁, hgrove⟩ := hcopied.grove
  have htree := (h.linkCopy hdir hvalid hnew hcopied).1
  have hp := mem_live_of_isDir hdir
  have hatt := h.attached hp hcopied.extend hgrove htree
  have hnext := h.grove.next_not_live
  have htop : fs.next ∈ fs₁.live := hgrove.forest.live_of_mem_roots (Set.mem_insert _ _)
  have hne : fs.next ≠ parent := fun heq => hnext (heq ▸ hp)
  refine ⟨hatt.root, ?_, hatt.same, fun q hq hqp => ?_, fun q hq => ?_, ?_, ?_, fun hfile => ?_, ?_⟩
  · rw [hatt.children parent hp, if_pos rfl]
  · rw [hatt.children q hq, if_neg hqp]
  · refine htree.fresh_iff ?_ hnext (fun x hx p hup => ?_) (fun x hx c hc => ?_) hq
    · rw [hatt.root]
      exact h.root_live
    · rw [(hatt.kept hx).2.2.2.2] at hup
      exact h.grove.forest.up_live hx hup
    · rw [hatt.children x hx] at hc
      have hold : ∀ c ∈ fs.children x, c ∈ fs.live :=
        fun c hc => ((h.grove.forest.mem_kids hx).mp hc).1
      split at hc
      · exact (List.mem_cons.mp hc).imp_right (hold c)
      · exact Or.inr (hold c hc)
  · rw [nameOf_linkChild, hcopied.name_eq, hvalid.cutName_eq]
  · rw [isDir_linkChild, hcopied.isDir_eq]
  · rw [dataOf_linkChild, hmirrors.1 hfile]
  · obtain ⟨l, hl⟩ := h.exists_listing_children hsrc
    have hl := holds_of_listing hl
    refine ⟨l, hl, ?_⟩
    rw [hgrove.children_linkChild htree.grove (hcopied.extend.mem_live hp) (Set.mem_insert _ _) htop,
      if_neg hne]
    by_cases hsrcdir : fs.isDir src = true
    · refine hgrove.holds_linkChild (Set.mem_insert _ _) htop (fun d hd hanc => ?_)
        (hmirrors.2 hsrcdir l hl)
      rw [hgrove.children_eq htop] at hd
      have hup := ((hgrove.forest.mem_kids htop).mp hd).2
      exact h.not_ancestor_copy hcopied hp (Relation.ReflTransGen.head hup hanc)
    · have hfile : fs.isDir src = false := by simpa using hsrcdir
      have hnil : fs.children src = [] := h.grove.kids_of_file hsrc hfile
      have hnil₁ : fs₁.children fs.next = [] := by
        rw [hgrove.children_eq htop]
        exact hgrove.kids_of_file htop (hcopied.isDir_eq.trans hfile)
      rw [hnil] at hl
      rw [hnil₁, hl.unique (m := .nil) trivial]
      trivial

/-- The source and the replica are apart. -/
theorem Replicated.apart (h : Replicated fs fs' src parent leaf) (htree : IsTree fs)
    (htree' : IsTree fs') (hsrc : src ∈ fs.live) (hp : parent ∈ fs.live)
    (hapart : ¬ fs.links.Ancestor src parent) : Apart fs' src fs.next := by
  have hup : ∀ q ∈ fs.live, q ∈ fs'.live ∧ fs'.links.up q = fs.links.up q := by
    intro q hq
    obtain ⟨v, hv⟩ := mem_live.mp hq
    have hv' := h.same q v hv
    refine ⟨mem_live.mpr ⟨_, hv'⟩, ?_⟩
    rw [up_eq, up_eq, hv', hv]
    split <;> rfl
  refine ⟨fun hanc => ?_, fun hanc => ?_⟩
  · have hnext : fs.next ∈ fs'.children parent := by
      rw [h.first]
      exact List.mem_cons_self
    have hnextup := ((htree'.grove.forest.mem_kids (hup parent hp).1).mp hnext).2
    rcases Links.ancestor_iff.mp hanc with rfl | ⟨q, hq, hanc⟩
    · exact htree.grove.next_not_live hsrc
    · obtain rfl := Option.some.inj (hq.symm.trans hnextup)
      refine hapart ((Links.ancestor_congr_of_closed (S := fs.live) ?_ ?_ hp).mp hanc)
      · exact fun q hq p hqp => htree.grove.forest.up_live hq hqp
      · exact fun q hq => (hup q hq).2
  · exact (h.fresh src (hup src hsrc).1).mpr hanc hsrc

/-- **A copy is a faithful, separate replica or nothing.**  Whatever happens later inside the source or inside
the replica, the other one stays as it is. -/
theorem copy_is_replica (h : vfsSystem.Reachable (fun fs op => op.Based fs) fs) (base : ℕ)
    (hbase : fs.isDir base = true) (srcPath destPath : Text) :
    ((fs.copy base srcPath destPath).1 = true → ∃ src parent leaf,
      fs.resolve base srcPath = some src ∧
      fs.resolveTarget base destPath src = some (parent, leaf) ∧
      Replicated fs (fs.copy base srcPath destPath).2 src parent leaf ∧
      ∀ fs', (Relation.ReflTransGen (vfsSystem.Step fun fs op => op.Based fs ∧ op.Within fs src)
          (fs.copy base srcPath destPath).2 fs' →
            SameBelow (fs.copy base srcPath destPath).2 fs' fs.next) ∧
        (Relation.ReflTransGen (vfsSystem.Step fun f op => op.Based f ∧ op.Within f fs.next)
          (fs.copy base srcPath destPath).2 fs' →
            SameBelow (fs.copy base srcPath destPath).2 fs' src)) ∧
    ((fs.copy base srcPath destPath).1 = false → (fs.copy base srcPath destPath).2 = fs) := by
  have htree := isTree_of_reachable h
  have hlive := mem_live_of_isDir hbase
  have htree' := (htree.copy hlive srcPath destPath).1
  rcases htree.copy_cases_run hlive srcPath destPath with heq | ⟨src, parent, leaf, ht, hnew, hrun⟩
  · rw [heq]
    exact ⟨fun hdone => (by cases hdone), fun _ => rfl⟩
  · obtain ⟨fs₁, hcopy, hcopied, hmirrors⟩ :=
      htree.grove.copyRecursive_mirrors ht.src_live leaf
    have heq := hrun fs₁ hcopy
    rw [heq] at htree' ⊢
    refine ⟨fun _ => ?_, fun hrefused => by cases hrefused⟩
    have hreplica := htree.replicated ht.src_live ht.parent_dir ht.valid hnew hcopied hmirrors
    have hapart := hreplica.apart htree htree' ht.src_live (mem_live_of_isDir ht.parent_dir) ht.apart
    have hsrc := hcopied.extend.mem_live ht.src_live
    have hp := hcopied.extend.mem_live (mem_live_of_isDir ht.parent_dir)
    rw [← live_linkChild fs₁ parent fs.next] at hsrc hp
    refine ⟨src, parent, leaf, ht.src_eq, ht.resolveTarget_eq, hreplica, fun fs' => ⟨?_, ?_⟩⟩
    · exact sameBelow_of_within htree' (hreplica.next_live htree' hp) hapart
    · exact sameBelow_of_within htree' hsrc hapart.symm

/-- A directory with a file in it is copied. -/
theorem copy_is_replica_of_directory : ∃ fs,
    vfsSystem.run Vfs.init [.mkdir 0 ['a'], .createFile 0 ['a', '/', 'f']] = some fs ∧
      (fs.copy 0 ['a'] ['b']).1 = true ∧ ∃ src parent leaf,
        Replicated fs (fs.copy 0 ['a'] ['b']).2 src parent leaf := by
  have hreach : vfsSystem.Reachable (fun fs op => op.Based fs)
      ((Vfs.init.mkdir 0 ['a']).2.createFile 0 ['a', '/', 'f']).2 := by
    refine ((TransitionSystem.Reachable.init rfl).step (e := .mkdir 0 ['a']) ?_ rfl).step
      (e := .createFile 0 ['a', '/', 'f']) ?_ rfl
    · exact ⟨by decide, fun _ _ _ h => by cases h⟩
    · exact ⟨by decide, fun _ _ _ h => by cases h⟩
  have hdone : ((((Vfs.init.mkdir 0 ['a']).2.createFile 0 ['a', '/', 'f']).2).copy 0 ['a']
      ['b']).1 = true := by decide
  obtain ⟨src, parent, leaf, -, -, hreplica, -⟩ :=
    (copy_is_replica hreach 0 (by decide) ['a'] ['b']).1 hdone
  exact ⟨_, rfl, hdone, src, parent, leaf, hreplica⟩

end Vfs

end AnssOS
