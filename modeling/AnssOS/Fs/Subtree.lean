import AnssOS.Fs.Grove

/-!
# Whole subtrees

`free_tree` frees exactly the nodes below a root, and `copy_recursive` builds a new tree beside the
old ones, which it leaves alone.
-/

namespace AnssOS

open List Option Function

namespace Vfs

variable {fs fs₁ fs₂ : Vfs} {kids : ℕ → List ℕ} {roots : Set ℕ}

/-! ### Freeing -/

variable {c p q : ℕ}

/-- What is below a live node is live. -/
theorem live_of_ancestor (h : fs.links.Ancestor p q) (hp : p ∈ fs.live) :
    q ∈ fs.live := by
  rcases Links.ancestor_iff.mp h with rfl | ⟨r, hr, -⟩
  · exact hp
  · rw [up_eq] at hr
    cases hq : fs.nodes q with
    | none =>
      rw [hq] at hr
      cases hr
    | some v => exact mem_live.mpr ⟨v, hq⟩

/-- The nodes of `below` have been freed, and nothing else has changed. -/
structure Freed (below : ℕ → Prop) (fs fs' : Vfs) : Prop where
  next : fs'.next = fs.next
  root : fs'.root = fs.root
  gone : ∀ q, below q → fs'.nodes q = none
  same : ∀ q, ¬ below q → fs'.nodes q = fs.nodes q

/-- The children of a node, in a heap that agrees with the grove below that node. -/
theorem Grove.children_eq_of_agree (h : Grove fs kids roots) (hp : p ∈ fs.live)
    (hnext : fs.next ≤ fs₁.next) (hsame : ∀ q, p = q ∨ q ∈ kids p → fs₁.nodes q = fs.nodes q) :
    fs₁.children p = kids p := by
  have hlen := h.forest.length_kids_le h.live_subset hp
  rw [Finset.card_range] at hlen
  have hchain : Siblings fs₁.links.next (fs₁.links.first p) (kids p) := by
    have hfirst : fs₁.links.first p = fs.links.first p := by
      rw [first_eq, first_eq, hsame p (Or.inl rfl)]
    rw [hfirst]
    refine (h.forest.siblings hp).congr fun c hc => ?_
    rw [next_eq, next_eq, hsame c (Or.inr hc)]
  exact hchain.eq_siblings (hlen.trans hnext)

/-- The loop over the children of a node: one subtree after the other goes. -/
theorem Grove.freed_children (h : Grove fs kids roots) {p n : ℕ} (hp : p ∈ fs.live)
    (ih : ∀ c ∈ kids p, ∀ fs₁ : Vfs, fs₁.next = fs.next →
      (∀ q, fs.links.Ancestor c q → fs₁.nodes q = fs.nodes q) →
      Freed (fs.links.Ancestor c) fs₁ (freeTree n fs₁ c))
    {l done : List ℕ} (hl : ∀ c ∈ l, c ∈ kids p) (hdone : ∀ d ∈ done, d ∈ kids p)
    (hdisjoint : ∀ c ∈ l, c ∉ done) (hnodup : l.Nodup) (hnext : fs₁.next = fs.next)
    (hagree : ∀ q, fs.links.Ancestor p q → fs₁.nodes q = fs.nodes q)
    (hfreed : Freed (fun q => ∃ d ∈ done, fs.links.Ancestor d q) fs₁ fs₂) :
    Freed (fun q => ∃ d ∈ l ++ done, fs.links.Ancestor d q) fs₁ (l.foldl (freeTree n) fs₂) := by
  induction l generalizing fs₂ done with
  | nil => exact hfreed
  | cons c l ihl =>
    obtain ⟨hcl, hnodup⟩ := nodup_cons.mp hnodup
    have hc := hl c mem_cons_self
    have hpc : fs.links.Ancestor p c :=
      Relation.ReflTransGen.single ((h.forest.mem_kids hp).mp hc).2
    -- the subtree of `c` is still as it was
    have hsame : ∀ q, fs.links.Ancestor c q → fs₂.nodes q = fs.nodes q := by
      intro q hcq
      rw [hfreed.same q, hagree q (hpc.trans hcq)]
      rintro ⟨d, hd, hdq⟩
      have := h.forest.kids_disjoint hp hc (hdone d hd) hcq hdq
      exact hdisjoint c mem_cons_self (this ▸ hd)
    have hstep := ih c hc fs₂ (hfreed.next.trans hnext) hsame
    have hfreed' : Freed (fun q => ∃ d ∈ c :: done, fs.links.Ancestor d q) fs₁
        (freeTree n fs₂ c) := by
      refine ⟨hstep.next.trans hfreed.next, hstep.root.trans hfreed.root, ?_, ?_⟩
      · rintro q ⟨d, hd, hdq⟩
        by_cases hcq : fs.links.Ancestor c q
        · exact hstep.gone q hcq
        · rw [hstep.same q hcq]
          rcases mem_cons.mp hd with rfl | hd
          · exact absurd hdq hcq
          · exact hfreed.gone q ⟨d, hd, hdq⟩
      · intro q hq
        have hcq : ¬ fs.links.Ancestor c q := fun hcq => hq ⟨c, mem_cons_self, hcq⟩
        rw [hstep.same q hcq]
        refine hfreed.same q ?_
        rintro ⟨d, hd, hdq⟩
        exact hq ⟨d, mem_cons_of_mem c hd, hdq⟩
    have hrest := ihl (fun d hd => hl d (mem_cons_of_mem c hd))
      (fun d hd => (mem_cons.mp hd).elim (fun heq => heq ▸ hc) (hdone d))
      (fun d hd hmem => (mem_cons.mp hmem).elim (fun heq => hcl (heq ▸ hd))
        (hdisjoint d (mem_cons_of_mem c hd))) hnodup hfreed'
    have hmem : ∀ d, d ∈ l ++ c :: done ↔ d ∈ c :: l ++ done := by simp; tauto
    simpa only [hmem, foldl_cons] using hrest

/-- `free_tree` frees the nodes below `p`. -/
theorem Grove.freed_freeTree (h : Grove fs kids roots) (hp : p ∈ fs.live)
    (hnext : fs₁.next = fs.next)
    (hagree : ∀ q, fs.links.Ancestor p q → fs₁.nodes q = fs.nodes q) :
    Freed (fs.links.Ancestor p) fs₁ (freeTree fs.next fs₁ p) := by
  have hall := h.forest.upward_induction h.live_subset (p := p)
    (Q := fun n p => ∀ fs₁ : Vfs, fs₁.next = fs.next →
      (∀ q, fs.links.Ancestor p q → fs₁.nodes q = fs.nodes q) →
      Freed (fs.links.Ancestor p) fs₁ (freeTree n fs₁ p)) ?_ hp
  · rw [Finset.card_range] at hall
    exact hall fs₁ hnext hagree
  clear hp hnext hagree
  intro n p hp ih fs₁ hnext hagree
  have hpp : fs.links.Ancestor p p := Relation.ReflTransGen.refl
  have hdir : fs₁.isDir p = fs.isDir p := by rw [isDir, isDir, hagree p hpp]
  have hchildren : fs₁.children p = kids p := by
    refine h.children_eq_of_agree hp hnext.ge fun q hq => hagree q ?_
    rcases hq with rfl | hq
    · exact hpp
    · exact Relation.ReflTransGen.single ((h.forest.mem_kids hp).mp hq).2
  have hnone : Freed (fun q => ∃ d ∈ [], fs.links.Ancestor d q) fs₁ fs₁ :=
    ⟨rfl, rfl, by simp, fun _ _ => rfl⟩
  -- the subtrees of the children go, and then the node itself
  have hkids : Freed (fun q => ∃ d ∈ kids p, fs.links.Ancestor d q) fs₁
      (if fs₁.isDir p then (fs₁.children p).foldl (freeTree n) fs₁ else fs₁) := by
    rw [hdir, hchildren]
    split
    · have hloop := h.freed_children hp ih (fun c hc => hc) (by simp) (by simp)
        (h.forest.nodup hp) hnext hagree hnone
      rwa [List.append_nil] at hloop
    · rename_i hfile
      rw [h.kids_of_file hp (by simpa using hfile)]
      exact hnone
  have hbelow : ∀ q, q ≠ p → (fs.links.Ancestor p q ↔ ∃ d ∈ kids p, fs.links.Ancestor d q) := by
    intro q hqp
    constructor
    · intro hpq
      have hq := live_of_ancestor hpq hp
      exact ((h.forest.ancestor_iff_kids hp hq).mp hpq).resolve_left (Ne.symm hqp)
    · rintro ⟨d, hd, hdq⟩
      exact Relation.ReflTransGen.head ((h.forest.mem_kids hp).mp hd).2 hdq
  rw [freeTree]
  refine ⟨hkids.next, hkids.root, fun q hq => ?_, fun q hq => ?_⟩
  · by_cases hqp : q = p
    · subst hqp
      exact nodes_erase_self _ _
    · rw [nodes_erase_of_ne _ hqp]
      exact hkids.gone q ((hbelow q hqp).mp hq)
  · have hqp : q ≠ p := by
      rintro rfl
      exact hq hpp
    rw [nodes_erase_of_ne _ hqp]
    exact hkids.same q fun hex => hq ((hbelow q hqp).mpr hex)

/-- `free_tree` of a root. -/
theorem Grove.freeTree (h : Grove fs kids roots) {r : ℕ} (hr : r ∈ roots) :
    Grove (freeTree fs.next fs r) kids (roots \ {r}) ∧
      Freed (fs.links.Ancestor r) fs (Vfs.freeTree fs.next fs r) := by
  have hrlive := h.forest.live_of_mem_roots hr
  have hfreed : Freed (fs.links.Ancestor r) fs (Vfs.freeTree fs.next fs r) :=
    h.freed_freeTree hrlive rfl fun _ _ => rfl
  refine ⟨?_, hfreed⟩
  have hlive : (Vfs.freeTree fs.next fs r).live = fs.live \ {q | fs.links.Ancestor r q} := by
    ext q
    rw [Set.mem_sdiff, mem_live, mem_live]
    by_cases hq : fs.links.Ancestor r q
    · simp [hfreed.gone q hq, hq]
    · simp [hfreed.same q hq, hq]
  have hup : ∀ {q}, ¬ fs.links.Ancestor r q →
      (Vfs.freeTree fs.next fs r).links.up q = fs.links.up q := by
    intro q hq
    rw [up_eq, up_eq, hfreed.same q hq]
  have hname : ∀ {q}, ¬ fs.links.Ancestor r q →
      (Vfs.freeTree fs.next fs r).nameOf q = fs.nameOf q := by
    intro q hq
    rw [nameOf, nameOf, hfreed.same q hq]
  constructor
  · rw [hlive]
    refine h.forest.prune hr fun q _ hq => ⟨hup hq, ?_, ?_⟩
    · rw [first_eq, first_eq, hfreed.same q hq]
    · rw [next_eq, next_eq, hfreed.same q hq]
  · rw [hlive, hfreed.next]
    exact fun hp => h.lt_next hp.1
  · rw [hlive]
    rintro p c ⟨hc, hrc⟩ heq
    rw [hup hrc] at heq
    have hrp : ¬ fs.links.Ancestor r p := fun hrp => hrc (hrp.tail heq)
    rw [isDir, hfreed.same p hrp]
    exact h.dir_of_up hc heq
  · rw [hlive]
    rintro p ⟨hp, hrp⟩
    rw [map_congr_left fun c hc => hname ?_]
    · exact h.distinct hp
    · -- a child of a node that stays does not go
      obtain ⟨-, hcp⟩ := (h.forest.mem_kids hp).mp hc
      intro hrc
      rcases Links.ancestor_iff.mp hrc with rfl | ⟨p', hp', hrp'⟩
      · rw [h.forest.up_of_mem_roots hr] at hcp
        cases hcp
      · exact hrp (some.inj (hcp.symm.trans hp') ▸ hrp')
  · rw [hlive]
    rintro p c ⟨hc, hrc⟩ heq
    rw [hup hrc] at heq
    rw [hname hrc]
    exact h.valid hc heq

/-! ### Copying -/

/-- The heap has grown: the nodes there were are as before. -/
structure Extends (fs fs' : Vfs) : Prop where
  root : fs'.root = fs.root
  next_le : fs.next ≤ fs'.next
  same : ∀ q ∈ fs.live, fs'.nodes q = fs.nodes q

theorem Extends.refl (fs : Vfs) : Extends fs fs := ⟨rfl, le_rfl, fun _ _ => rfl⟩

theorem Extends.mem_live (h : Extends fs fs₁) (hq : q ∈ fs.live) : q ∈ fs₁.live := by
  obtain ⟨v, hv⟩ := Vfs.mem_live.mp hq
  exact Vfs.mem_live.mpr ⟨v, (h.same q hq).trans hv⟩

theorem Extends.trans (h : Extends fs fs₁) (h' : Extends fs₁ fs₂) : Extends fs fs₂ :=
  ⟨h'.root.trans h.root, h.next_le.trans h'.next_le,
    fun q hq => (h'.same q (h.mem_live hq)).trans (h.same q hq)⟩

theorem Extends.nameOf (h : Extends fs fs₁) (hq : q ∈ fs.live) :
    fs₁.nameOf q = fs.nameOf q := by
  rw [Vfs.nameOf, Vfs.nameOf, h.same q hq]

theorem Extends.isDir (h : Extends fs fs₁) (hq : q ∈ fs.live) :
    fs₁.isDir q = fs.isDir q := by
  rw [Vfs.isDir, Vfs.isDir, h.same q hq]

/-- A new node, or one linked below a node that is itself new, leaves the old nodes alone. -/
theorem extends_alloc (hnext : fs.next ∉ fs.live) (name : Text) (kind : VnodeType) :
    Extends fs (fs.allocVnode name kind) :=
  ⟨rfl, Nat.le_succ _, fun _ hq => fs.nodes_alloc_of_ne name kind fun heq => hnext (heq ▸ hq)⟩

theorem Extends.modify (h : Extends fs fs₁) (hp : p ∉ fs.live) (f : Vnode → Vnode) :
    Extends fs (fs₁.modify p f) := by
  refine ⟨h.root, h.next_le, fun q hq => ?_⟩
  have hqp : q ≠ p := by
    rintro rfl
    exact hp hq
  exact (fs₁.nodes_modify_of_ne f hqp).trans (h.same q hq)

theorem Extends.linkChild (h : Extends fs fs₁) (hp : p ∉ fs.live) (hc : c ∉ fs.live) :
    Extends fs (fs₁.linkChild p c) :=
  (h.modify hc _).modify hp _

/-- There is nothing in the node: neither children nor bytes. -/
def Vacant (fs : Vfs) (p : ℕ) : Prop := fs.links.first p = none ∧ fs.dataOf p = []

theorem vacant_congr (h : fs₁.nodes q = fs.nodes q) : fs₁.Vacant q ↔ fs.Vacant q := by
  rw [Vacant, Vacant, first_eq, first_eq, dataOf, dataOf, h]

theorem vacant_alloc (fs : Vfs) (name : Text) (kind : VnodeType) :
    (fs.allocVnode name kind).Vacant fs.next := by
  rw [Vacant, first_eq, dataOf, nodes_alloc_self]
  exact ⟨rfl, rfl⟩

theorem vacant_linkChild (hp : p ∈ fs.live) (hc : c ∈ fs.live) (hq : q ≠ p) :
    (fs.linkChild p c).Vacant q ↔ fs.Vacant q := by
  rw [Vacant, Vacant, links_linkChild fs hp hc, dataOf_linkChild]
  dsimp only
  rw [update_of_ne hq]

/-- Every node of `fs'` that `fs₁` does not have, other than `top`, is a copy of a node of `fs` with
a parent: it has that node's name, and there is nothing in it if there is nothing in that node. -/
def CopiesOf (fs fs₁ fs' : Vfs) (top : ℕ) : Prop :=
  ∀ q ∈ fs'.live, q ∉ fs₁.live → q ≠ top → ∃ s ∈ fs.live, (∃ u, fs.links.up s = some u) ∧
    fs'.nameOf q = fs.nameOf s ∧ (fs.Vacant s → fs'.Vacant q)

/-- What `copy_recursive` has done in `fs₁` for the node `p` of `fs`. -/
structure Copied (fs fs₁ : Vfs) (roots : Set ℕ) (p : ℕ) (name : Text) (fs' : Vfs) : Prop where
  grove : ∃ kids', Grove fs' kids' (insert fs₁.next roots)
  extend : Extends fs₁ fs'
  copies : CopiesOf fs fs₁ fs' fs₁.next
  name_eq : fs'.nameOf fs₁.next = cutName name
  isDir_eq : fs'.isDir fs₁.next = fs.isDir p
  vacant : fs.Vacant p → fs'.Vacant fs₁.next

theorem Grove.kids_eq_of_extends {kids₁ : ℕ → List ℕ} {roots₁ : Set ℕ} (h : Grove fs kids roots)
    (h₁ : Grove fs₁ kids₁ roots₁) (hext : Extends fs fs₁) (hp : p ∈ fs.live) :
    kids₁ p = kids p := by
  rw [← h₁.children_eq (hext.mem_live hp)]
  refine h.children_eq_of_agree hp hext.next_le fun q hq => hext.same q ?_
  rcases hq with rfl | hq
  · exact hp
  · exact ((h.forest.mem_kids hp).mp hq).1

/-- The loop of `copy_recursive` over the children, after those of `done`. -/
structure CopyingChildren (fs fs₁ : Vfs) (roots : Set ℕ) (name : Text) (done : List ℕ)
    (fs' : Vfs) : Prop where
  grove : ∃ kids', Grove fs' kids' (insert fs₁.next roots) ∧
    (kids' fs₁.next).map fs'.nameOf = (done.map fs.nameOf).reverse
  extend : Extends fs₁ fs'
  copies : CopiesOf fs fs₁ fs' fs₁.next
  name_eq : fs'.nameOf fs₁.next = cutName name
  isDir : fs'.isDir fs₁.next = true
  vacant : done = [] → fs'.Vacant fs₁.next

theorem CopyingChildren.link {roots₁ : Set ℕ} {name : Text} {done : List ℕ} {fs' : Vfs}
    (hfs : fs₁.next ∉ fs₁.live) (h : CopyingChildren fs fs₁ roots₁ name done fs₂)
    (hc : c ∈ fs.live) (hup : ∃ u, fs.links.up c = some u) (hvalid : ValidName (fs.nameOf c))
    (hnew : fs.nameOf c ∉ done.map fs.nameOf)
    (hcopy : Copied fs fs₂ (insert fs₁.next roots₁) c (fs.nameOf c) fs') :
    CopyingChildren fs fs₁ roots₁ name (done ++ [c]) (fs'.linkChild fs₁.next fs₂.next) := by
  obtain ⟨kids₂, hgrove₂, hnames⟩ := h.grove
  obtain ⟨kids', hgrove'⟩ := hcopy.grove
  have htop : fs₁.next ∈ fs₂.live := mem_live_of_isDir h.isDir
  have htop' := hcopy.extend.mem_live htop
  have hne : fs₂.next ≠ fs₁.next := fun heq => hgrove₂.next_not_live (heq ▸ htop)
  have hchild : fs₂.next ∈ fs'.live := hgrove'.forest.live_of_mem_roots (Set.mem_insert _ _)
  have hchild₁ : fs₂.next ∉ fs₁.live := fun hmem => hgrove₂.next_not_live (h.extend.mem_live hmem)
  have hname : fs'.nameOf fs₂.next = fs.nameOf c := hcopy.name_eq.trans hvalid.cutName_eq
  have hkids : kids' fs₁.next = kids₂ fs₁.next :=
    hgrove₂.kids_eq_of_extends hgrove' hcopy.extend htop
  have hnames' : (kids' fs₁.next).map fs'.nameOf = (done.map fs.nameOf).reverse := by
    rw [hkids, ← hnames]
    refine map_congr_left fun q hq => hcopy.extend.nameOf ?_
    exact ((hgrove₂.forest.mem_kids htop).mp hq).1
  have hroots : insert fs₂.next (insert fs₁.next roots₁) \ {fs₂.next} =
      insert fs₁.next roots₁ := by
    refine Set.insert_sdiff_self_of_notMem fun hmem => hgrove₂.next_not_live ?_
    exact hgrove₂.forest.live_of_mem_roots hmem
  have hdir' : fs'.isDir fs₁.next = true := (hcopy.extend.isDir htop).trans h.isDir
  -- the copy is a root, so the new child is not above it
  have hapart : ¬ fs'.links.Ancestor fs₂.next fs₁.next := by
    intro hanc
    refine hne (hanc.eq_of_root (hgrove'.forest.up_of_mem_roots ?_))
    exact Set.mem_insert_of_mem _ (Set.mem_insert _ _)
  have hnew' : fs'.nameOf fs₂.next ∉ (kids' fs₁.next).map fs'.nameOf := by
    rw [hname, hnames', mem_reverse]
    exact hnew
  have hlinked := hgrove'.link hdir' (Set.mem_insert _ _) hapart (hname ▸ hvalid) hnew'
  rw [hroots] at hlinked
  constructor
  · refine ⟨_, hlinked, ?_⟩
    rw [update_self, map_cons, nameOf_linkChild, hnames', hname]
    simp
  · exact (h.extend.trans hcopy.extend).linkChild hfs hchild₁
  · intro q hq hq₁ hqtop
    rw [live_linkChild] at hq
    rw [nameOf_linkChild, vacant_linkChild htop' hchild hqtop]
    by_cases hq₂ : q ∈ fs₂.live
    · obtain ⟨s, hs, hsup, hsname, hsvacant⟩ := h.copies q hq₂ hq₁ hqtop
      refine ⟨s, hs, hsup, (hcopy.extend.nameOf hq₂).trans hsname, fun hs => ?_⟩
      rw [vacant_congr (hcopy.extend.same q hq₂)]
      exact hsvacant hs
    · by_cases hqnew : q = fs₂.next
      · subst hqnew
        exact ⟨c, hc, hup, hname, hcopy.vacant⟩
      · exact hcopy.copies q hq hq₂ hqnew
  · rw [nameOf_linkChild, hcopy.extend.nameOf htop]
    exact h.name_eq
  · rw [isDir_linkChild]
    exact hdir'
  · simp

/-- The rule for `copy_recursive`, which always succeeds: a property `C` of finished copies holds if it holds of
the copy of a file and follows for a directory from a property `R` of the loop over its children. -/
theorem Grove.copyRecursive_rule (h : Grove fs kids roots) {C : ℕ → Text → Vfs → Vfs → Prop}
    {R : Text → Vfs → List ℕ → Vfs → Prop}
    (hfile : ∀ p v name fs₁, fs.nodes p = some v → v.kind ≠ .dir → C p name fs₁
      ((fs₁.allocVnode name v.kind).modify fs₁.next fun w => { w with data := v.data }))
    (hstart : ∀ name fs₁, R name fs₁ [] (fs₁.allocVnode name .dir))
    (hlink : ∀ name fs₁ roots₁ done c fs₂ fs₃, fs₁.next ∉ fs₁.live → Extends fs fs₁ →
      CopyingChildren fs fs₁ roots₁ name done fs₂ → R name fs₁ done fs₂ → c ∈ fs.live →
      (∃ u, fs.links.up c = some u) →
      Copied fs fs₂ (insert fs₁.next roots₁) c (fs.nameOf c) fs₃ → C c (fs.nameOf c) fs₂ fs₃ →
      CopyingChildren fs fs₁ roots₁ name (done ++ [c]) (fs₃.linkChild fs₁.next fs₂.next) →
      R name fs₁ (done ++ [c]) (fs₃.linkChild fs₁.next fs₂.next))
    (hdone : ∀ p v name fs₁ roots₁ fs', fs.nodes p = some v → v.kind = .dir →
      CopyingChildren fs fs₁ roots₁ name (kids p) fs' → R name fs₁ (kids p) fs' → C p name fs₁ fs')
    (hp : p ∈ fs.live) (name : Text) :
    ∃ fs', copyRecursive fs.next fs p name = some (fs.next, fs') ∧
      Copied fs fs roots p name fs' ∧ C p name fs fs' := by
  have hall := h.forest.upward_induction h.live_subset (p := p)
    (Q := fun n p => ∀ fs₁ kids₁ roots₁ name, Grove fs₁ kids₁ roots₁ → Extends fs fs₁ →
      ∃ fs', Vfs.copyRecursive n fs₁ p name = some (fs₁.next, fs') ∧
        Copied fs fs₁ roots₁ p name fs' ∧ C p name fs₁ fs') ?_ hp
  · rw [Finset.card_range] at hall
    exact hall fs kids roots name h (Extends.refl fs)
  clear hp name
  intro n p hp ih fs₁ kids₁ roots₁ name h₁ hext
  obtain ⟨v, hv⟩ := mem_live.mp hp
  have hv₁ : fs₁.nodes p = some v := (hext.same p hp).trans hv
  have hnew := h₁.next_not_live
  have halloc := h₁.alloc name v.kind
  have hself := fs₁.nodes_alloc_self name v.kind
  have hextend := extends_alloc hnew name v.kind
  -- the only new node is the copy itself
  have hcopies : CopiesOf fs fs₁ (fs₁.allocVnode name v.kind) fs₁.next := by
    intro q hq hq₁ hqtop
    rw [live_alloc] at hq
    exact absurd (hq.resolve_left hqtop) hq₁
  rw [Vfs.copyRecursive, hv₁]
  dsimp only
  by_cases hkind : v.kind = .dir
  · rw [if_neg (not_not.mpr hkind)]
    have hchildren : fs₁.children p = kids p := by
      refine h.children_eq_of_agree hp hext.next_le fun q hq => hext.same q ?_
      rcases hq with rfl | hq
      · exact hp
      · exact ((h.forest.mem_kids hp).mp hq).1
    have hbegin : CopyingChildren fs fs₁ roots₁ name [] (fs₁.allocVnode name v.kind) := by
      refine ⟨⟨_, halloc, ?_⟩, hextend, hcopies, ?_, ?_, fun _ => ?_⟩
      · rw [update_self]
        rfl
      · rw [nameOf, hself]
        rfl
      · rw [isDir, hself]
        simp [hkind]
      · exact vacant_alloc fs₁ name v.kind
    -- the loop, with the children that are done so far
    have hloop : ∀ l done fs₂, done ++ l = kids p → CopyingChildren fs fs₁ roots₁ name done fs₂ →
        R name fs₁ done fs₂ →
        ∃ fs', l.foldlM (fun fs c => (Vfs.copyRecursive n fs c (fs.nameOf c)).map
          fun child => child.2.linkChild fs₁.next child.1) fs₂ = some fs' ∧
          CopyingChildren fs fs₁ roots₁ name (kids p) fs' ∧ R name fs₁ (kids p) fs' := by
      intro l
      induction l with
      | nil =>
        intro done fs₂ hdone' hinv hR
        rw [List.append_nil] at hdone'
        exact ⟨fs₂, rfl, hdone' ▸ hinv, hdone' ▸ hR⟩
      | cons c l ihl =>
        intro done fs₂ hdone' hinv hR
        have hc : c ∈ kids p := by rw [← hdone']; simp
        obtain ⟨hclive, hcup⟩ := (h.forest.mem_kids hp).mp hc
        have hcname : fs₂.nameOf c = fs.nameOf c :=
          (hext.trans hinv.extend).nameOf hclive
        obtain ⟨kids₂, hgrove₂, -⟩ := hinv.grove
        obtain ⟨fs₃, hrun, hcopied, hC⟩ :=
          ih c hc fs₂ kids₂ _ (fs.nameOf c) hgrove₂ (hext.trans hinv.extend)
        have hdistinct := h.distinct hp
        rw [← hdone', map_append, map_cons] at hdistinct
        have hnotin : fs.nameOf c ∉ done.map fs.nameOf := fun hmem =>
          (nodup_append.mp hdistinct).2.2 _ hmem _ mem_cons_self rfl
        have hinv' := hinv.link hnew hclive ⟨p, hcup⟩ (h.valid hclive hcup) hnotin hcopied
        have hR' := hlink name fs₁ roots₁ done c fs₂ fs₃ hnew hext hinv hR hclive ⟨p, hcup⟩ hcopied
          hC hinv'
        obtain ⟨fs', hrest, hfinal⟩ := ihl (done ++ [c]) _ (by simpa using hdone') hinv' hR'
        refine ⟨fs', ?_, hfinal⟩
        rw [foldlM_cons, hcname, hrun]
        exact hrest
    obtain ⟨fs', hrun, hfinal, hR⟩ := hloop (kids p) [] _ rfl hbegin (hkind ▸ hstart name fs₁)
    refine ⟨fs', by rw [hchildren, hrun]; rfl, ?_, hdone p v name fs₁ roots₁ fs' hv hkind hfinal hR⟩
    obtain ⟨kids', hgrove', -⟩ := hfinal.grove
    refine ⟨⟨kids', hgrove'⟩, hfinal.extend, hfinal.copies, hfinal.name_eq, ?_, fun hempty => ?_⟩
    · rw [hfinal.isDir, isDir, hv]
      simp [hkind]
    · have hnil : kids p = [] := by
        have hchain := h.forest.siblings hp
        rw [hempty.1] at hchain
        cases hkids : kids p with
        | nil => rfl
        | cons c l =>
          rw [hkids] at hchain
          exact absurd hchain.1 (by simp)
      exact hfinal.vacant hnil
  · rw [if_pos hkind]
    refine ⟨_, rfl, ?_, hfile p v name fs₁ hv hkind⟩
    constructor
    · exact ⟨_, halloc.modify _ (fun _ => ⟨rfl, rfl, rfl⟩) (fun _ => rfl) fun _ => rfl⟩
    · exact hextend.modify hnew _
    · intro q hq hq₁ hqtop
      rw [live_modify] at hq
      exact absurd hqtop (by
        rw [live_alloc] at hq
        exact fun _ => hq₁ (hq.resolve_left hqtop))
    · rw [nameOf_modify _ _ fun _ => by rfl, nameOf, hself]
      rfl
    · rw [isDir_modify _ _ fun _ => by rfl, isDir, isDir, hself, hv]
      rfl
    · rintro ⟨-, hdata⟩
      rw [dataOf, hv] at hdata
      rw [Vacant, first_eq, dataOf, nodes_modify_self, hself]
      exact ⟨rfl, hdata⟩

/-- `copy_recursive` always succeeds. -/
theorem Grove.copyRecursive (h : Grove fs kids roots) (hp : p ∈ fs.live) (name : Text) :
    ∃ fs', copyRecursive fs.next fs p name = some (fs.next, fs') ∧
      Copied fs fs roots p name fs' := by
  obtain ⟨fs', hrun, hcopied, -⟩ := h.copyRecursive_rule (C := fun _ _ _ _ => True)
    (R := fun _ _ _ _ => True) (fun _ _ _ _ _ _ => trivial) (fun _ _ => trivial)
    (fun _ _ _ _ _ _ _ _ _ _ _ _ _ _ _ _ => trivial) (fun _ _ _ _ _ _ _ _ _ _ => trivial) hp name
  exact ⟨fs', hrun, hcopied⟩

end Vfs

end AnssOS
