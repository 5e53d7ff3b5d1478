import AnssOS.Fs.Vfs

/-!
# Trees of vnodes

`Grove` says that the vnodes of the heap form a forest whose inner nodes are directories, and that
the names of siblings are distinct and valid.  Between the steps of an operation there can be several
roots: the root of the file system, a node that was just created or unlinked, and the copy that
`copy_recursive` is building.  Each primitive of the file system comes with its rule.
-/

namespace AnssOS

open List Option Function

/-! ### Names -/

/-- A name that a node other than the root can have. -/
structure ValidName (name : Text) : Prop where
  ne_nil : name ≠ []
  length_le : (utf8Bytes name).length ≤ nameMax - 1
  no_slash : '/' ∉ name

theorem ValidName.cutName_eq {name : Text} (h : ValidName name) : cutName name = name :=
  floorChars_of_le h.length_le

theorem validName_cutName {name : Text} (hne : cutName name ≠ []) (hslash : '/' ∉ name) :
    ValidName (cutName name) :=
  ⟨hne, length_floorChars_le _ _, fun hmem => hslash (mem_of_mem_floorChars hmem)⟩

namespace Vfs

variable {fs fs' : Vfs} {kids : ℕ → List ℕ} {roots : Set ℕ}

/-! ### The nodes of the heap -/

/-- The nodes that have been created and not freed. -/
def live (fs : Vfs) : Set ℕ := {p | (fs.nodes p).isSome}

variable {p q : ℕ} {f : Vnode → Vnode} {o : Option ℕ}

theorem mem_live : p ∈ fs.live ↔ ∃ v, fs.nodes p = some v := isSome_iff_exists

theorem mem_live_of_isDir (h : fs.isDir p = true) : p ∈ fs.live := by
  unfold isDir at h
  cases hp : fs.nodes p with
  | none =>
    rw [hp] at h
    cases h
  | some v => exact mem_live.mpr ⟨v, hp⟩

section

variable (fs : Vfs)

theorem nodes_modify_self (p : ℕ) (f : Vnode → Vnode) :
    (fs.modify p f).nodes p = (fs.nodes p).map f := update_self _ _ _

theorem nodes_modify_of_ne (f : Vnode → Vnode) (h : q ≠ p) :
    (fs.modify p f).nodes q = fs.nodes q := update_of_ne h _ _

theorem nodes_erase_self (p : ℕ) : (fs.erase p).nodes p = none :=
  update_self _ _ _

theorem nodes_erase_of_ne (h : q ≠ p) : (fs.erase p).nodes q = fs.nodes q :=
  update_of_ne h _ _

theorem nodes_alloc_self (name : Text) (kind : VnodeType) :
    (fs.allocVnode name kind).nodes fs.next = some ⟨cutName name, kind, none, none, none, []⟩ :=
  update_self _ _ _

theorem nodes_alloc_of_ne (name : Text) (kind : VnodeType) (h : q ≠ fs.next) :
    (fs.allocVnode name kind).nodes q = fs.nodes q := update_of_ne h _ _

/-- A field that the modification keeps is as before, in every node. -/
theorem map_nodes_modify {α : Type*} (p : ℕ) {g : Vnode → α}
    (h : ∀ v, g (f v) = g v) (q : ℕ) : ((fs.modify p f).nodes q).map g = (fs.nodes q).map g := by
  by_cases hq : q = p
  · subst hq
    rw [nodes_modify_self, Option.map_map]
    exact congrArg (fun k => (fs.nodes q).map k) (funext h)
  · rw [nodes_modify_of_ne _ _ hq]

@[simp] theorem live_modify (p : ℕ) (f : Vnode → Vnode) : (fs.modify p f).live = fs.live := by
  ext q
  have hsame : ((fs.modify p f).nodes q).map (fun _ => ()) = (fs.nodes q).map fun _ => () :=
    map_nodes_modify fs p (fun _ => by rfl) q
  simpa [live] using congrArg Option.isSome hsame

theorem live_alloc (name : Text) (kind : VnodeType) :
    (fs.allocVnode name kind).live = insert fs.next fs.live := by
  ext q
  rw [Set.mem_insert_iff, mem_live, mem_live]
  by_cases hq : q = fs.next
  · subst hq
    simp [nodes_alloc_self]
  · rw [nodes_alloc_of_ne _ _ _ hq]
    simp [hq]

theorem isDir_eq (p : ℕ) : fs.isDir p = ((fs.nodes p).map (·.kind)).any fun k => k = .dir := by
  unfold isDir
  cases fs.nodes p <;> rfl

theorem isDir_modify (p : ℕ) (h : ∀ v, (f v).kind = v.kind) : (fs.modify p f).isDir = fs.isDir := by
  funext q
  rw [isDir_eq, isDir_eq, map_nodes_modify fs p h]

theorem nameOf_modify (p : ℕ) (h : ∀ v, (f v).name = v.name) :
    (fs.modify p f).nameOf = fs.nameOf := by
  funext q
  rw [nameOf, nameOf, map_nodes_modify fs p h]

theorem up_eq (p : ℕ) : fs.links.up p = ((fs.nodes p).map (·.parent)).join := by
  cases h : fs.nodes p <;> simp [links, h]

theorem first_eq (p : ℕ) : fs.links.first p = ((fs.nodes p).map (·.children)).join := by
  cases h : fs.nodes p <;> simp [links, h]

theorem next_eq (p : ℕ) : fs.links.next p = ((fs.nodes p).map (·.sibling)).join := by
  cases h : fs.nodes p <;> simp [links, h]

theorem up_modify (p : ℕ) (h : ∀ v, (f v).parent = v.parent) :
    (fs.modify p f).links.up = fs.links.up := by
  funext q
  rw [up_eq, up_eq, map_nodes_modify fs p h]

theorem first_modify (p : ℕ)
    (h : ∀ v, (f v).children = v.children) : (fs.modify p f).links.first = fs.links.first := by
  funext q
  rw [first_eq, first_eq, map_nodes_modify fs p h]

theorem next_modify (p : ℕ) (h : ∀ v, (f v).sibling = v.sibling) :
    (fs.modify p f).links.next = fs.links.next := by
  funext q
  rw [next_eq, next_eq, map_nodes_modify fs p h]

/-- A modification that keeps the links. -/
theorem links_modify (p : ℕ)
    (h : ∀ v, (f v).parent = v.parent ∧ (f v).children = v.children ∧ (f v).sibling = v.sibling) :
    (fs.modify p f).links = fs.links := by
  apply Links.ext
  · exact fs.up_modify p fun v => (h v).1
  · exact fs.first_modify p fun v => (h v).2.1
  · exact fs.next_modify p fun v => (h v).2.2

theorem up_modify_set (hp : p ∈ fs.live) (h : ∀ v, (f v).parent = o) :
    (fs.modify p f).links.up = Function.update fs.links.up p o := by
  obtain ⟨v, hv⟩ := mem_live.mp hp
  funext q
  by_cases hq : q = p
  · subst hq
    rw [update_self, up_eq, nodes_modify_self, hv]
    exact h v
  · rw [update_of_ne hq, up_eq, up_eq, nodes_modify_of_ne _ _ hq]

theorem first_modify_set (hp : p ∈ fs.live) (h : ∀ v, (f v).children = o) :
    (fs.modify p f).links.first = Function.update fs.links.first p o := by
  obtain ⟨v, hv⟩ := mem_live.mp hp
  funext q
  by_cases hq : q = p
  · subst hq
    rw [update_self, first_eq, nodes_modify_self, hv]
    exact h v
  · rw [update_of_ne hq, first_eq, first_eq, nodes_modify_of_ne _ _ hq]

theorem next_modify_set (hp : p ∈ fs.live) (h : ∀ v, (f v).sibling = o) :
    (fs.modify p f).links.next = Function.update fs.links.next p o := by
  obtain ⟨v, hv⟩ := mem_live.mp hp
  funext q
  by_cases hq : q = p
  · subst hq
    rw [update_self, next_eq, nodes_modify_self, hv]
    exact h v
  · rw [update_of_ne hq, next_eq, next_eq, nodes_modify_of_ne _ _ hq]

theorem live_linkChild (p c : ℕ) : (fs.linkChild p c).live = fs.live := by
  simp [linkChild]

theorem isDir_linkChild (p c : ℕ) : (fs.linkChild p c).isDir = fs.isDir := by
  rw [linkChild, isDir_modify _ _ fun _ => by rfl, isDir_modify _ _ fun _ => by rfl]

theorem nameOf_linkChild (p c : ℕ) : (fs.linkChild p c).nameOf = fs.nameOf := by
  rw [linkChild, nameOf_modify _ _ fun _ => by rfl, nameOf_modify _ _ fun _ => by rfl]

theorem dataOf_modify (p : ℕ) (h : ∀ v, (f v).data = v.data) :
    (fs.modify p f).dataOf = fs.dataOf := by
  funext q
  rw [dataOf, dataOf, map_nodes_modify fs p h]

theorem dataOf_linkChild (p c : ℕ) : (fs.linkChild p c).dataOf = fs.dataOf := by
  rw [linkChild, dataOf_modify _ _ fun _ => by rfl, dataOf_modify _ _ fun _ => by rfl]

theorem links_linkChild {p c : ℕ} (hp : p ∈ fs.live) (hc : c ∈ fs.live) :
    (fs.linkChild p c).links = ⟨Function.update fs.links.up c (some p),
      Function.update fs.links.first p (some c),
      Function.update fs.links.next c (fs.links.first p)⟩ := by
  apply Links.ext
  · rw [linkChild, up_modify _ _ fun _ => by rfl, up_modify_set fs hc fun _ => by rfl]
  · have hp' : p ∈ (fs.modify c fun v =>
        { v with parent := some p, sibling := fs.links.first p }).live := by rwa [live_modify]
    rw [linkChild, first_modify_set _ hp' fun _ => by rfl, first_modify _ _ fun _ => by rfl]
  · rw [linkChild, next_modify _ _ fun _ => by rfl,
      next_modify_set fs (o := fs.links.first p) hc fun _ => by rfl]

end
/-! ### The invariant -/

/-- The nodes of the heap form a forest of directories and files, with valid names. -/
structure Grove (fs : Vfs) (kids : ℕ → List ℕ) (roots : Set ℕ) : Prop where
  forest : IsForest fs.links fs.live kids roots
  lt_next : ∀ {p}, p ∈ fs.live → p < fs.next
  dir_of_up : ∀ {p c}, c ∈ fs.live → fs.links.up c = some p → fs.isDir p = true
  distinct : ∀ {p}, p ∈ fs.live → ((kids p).map fs.nameOf).Nodup
  valid : ∀ {p c}, c ∈ fs.live → fs.links.up c = some p → ValidName (fs.nameOf c)

namespace Grove

section

variable (h : Grove fs kids roots)

include h

theorem live_subset : fs.live ⊆ ↑(Finset.range fs.next) :=
  fun _ hp => by simpa using h.lt_next hp

theorem next_not_live : fs.next ∉ fs.live :=
  fun hmem => lt_irrefl _ (h.lt_next hmem)

/-- What the loop over the children of a node sees. -/
theorem children_eq {p : ℕ} (hp : p ∈ fs.live) : fs.children p = kids p := by
  have hlen := h.forest.length_kids_le h.live_subset hp
  rw [Finset.card_range] at hlen
  exact (h.forest.siblings hp).eq_siblings hlen

theorem isAncestorOrSelf_iff {a c : ℕ} (hc : c ∈ fs.live) :
    fs.isAncestorOrSelf a c = true ↔ fs.links.Ancestor a c := by
  have hiff := h.forest.climbs_iff h.live_subset (a := a) hc
  rwa [Finset.card_range] at hiff

theorem congr_kids {kids' : ℕ → List ℕ}
    (hsame : ∀ p ∈ fs.live, kids' p = kids p) : Grove fs kids' roots where
  forest := h.forest.congr_kids hsame
  lt_next := h.lt_next
  dir_of_up := h.dir_of_up
  distinct hp := by
    rw [hsame _ hp]
    exact h.distinct hp
  valid := h.valid

/-- A file has no children. -/
theorem kids_of_file {p : ℕ} (hp : p ∈ fs.live) (hfile : fs.isDir p = false) : kids p = [] := by
  rw [eq_nil_iff_forall_not_mem]
  intro c hc
  obtain ⟨hclive, hup⟩ := (h.forest.mem_kids hp).mp hc
  have := h.dir_of_up hclive hup
  rw [hfile] at this
  cases this

/-- A modification of a node that touches neither links nor kinds nor names. -/
theorem modify (p : ℕ) {f : Vnode → Vnode}
    (hf : ∀ v, (f v).parent = v.parent ∧ (f v).children = v.children ∧ (f v).sibling = v.sibling)
    (hkind : ∀ v, (f v).kind = v.kind) (hname : ∀ v, (f v).name = v.name) :
    Grove (fs.modify p f) kids roots := by
  constructor
  · rw [links_modify fs p hf, live_modify]
    exact h.forest
  · rw [live_modify]
    exact h.lt_next
  · rw [links_modify fs p hf, live_modify, isDir_modify fs p hkind]
    exact h.dir_of_up
  · rw [live_modify, nameOf_modify fs p hname]
    exact h.distinct
  · rw [links_modify fs p hf, live_modify, nameOf_modify fs p hname]
    exact h.valid

/-- A root is given another name. -/
theorem setName {c : ℕ} (hc : c ∈ roots) (name : Text) : Grove (fs.setName c name) kids roots := by
  have hlinks : (fs.setName c name).links = fs.links := links_modify fs c fun v => ⟨rfl, rfl, rfl⟩
  have hlive : (fs.setName c name).live = fs.live := live_modify fs c _
  have hdir : (fs.setName c name).isDir = fs.isDir := isDir_modify fs c fun v => rfl
  have hroot := h.forest.up_of_mem_roots hc
  -- the names of children are those of other nodes
  have hname : ∀ {p d}, fs.links.up d = some p → (fs.setName c name).nameOf d = fs.nameOf d := by
    intro p d hd
    have hdc : d ≠ c := by
      rintro rfl
      rw [hroot] at hd
      cases hd
    rw [nameOf, nameOf, Vfs.setName, nodes_modify_of_ne _ _ hdc]
  constructor
  · rw [hlinks, hlive]
    exact h.forest
  · rw [hlive]
    exact h.lt_next
  · rw [hlinks, hlive, hdir]
    exact h.dir_of_up
  · rw [hlive]
    intro p hp
    rw [map_congr_left fun d hd => hname ((h.forest.mem_kids hp).mp hd).2]
    exact h.distinct hp
  · rw [hlinks, hlive]
    intro p d hd hup
    rw [hname hup]
    exact h.valid hd hup

end
/-! ### New nodes -/

/-- `alloc_vnode`. -/
theorem alloc (h : Grove fs kids roots) (name : Text) (kind : VnodeType) :
    Grove (fs.allocVnode name kind) (Function.update kids fs.next []) (insert fs.next roots) := by
  have hself := fs.nodes_alloc_self name kind
  have hother : ∀ {q}, q ≠ fs.next → (fs.allocVnode name kind).nodes q = fs.nodes q :=
    fun hq => fs.nodes_alloc_of_ne name kind hq
  have hlive := fs.live_alloc name kind
  have hne : ∀ {q}, q ∈ fs.live → q ≠ fs.next := fun hq heq => h.next_not_live (heq ▸ hq)
  have hname : ∀ {q}, q ≠ fs.next → (fs.allocVnode name kind).nameOf q = fs.nameOf q := by
    intro q hq
    rw [nameOf, nameOf, hother hq]
  have hup : ∀ {q}, q ≠ fs.next → (fs.allocVnode name kind).links.up q = fs.links.up q := by
    intro q hq
    rw [up_eq, up_eq, hother hq]
  have hroot : (fs.allocVnode name kind).links.up fs.next = none := by rw [up_eq, hself]; rfl
  constructor
  · rw [hlive]
    have hfirst : (fs.allocVnode name kind).links.first fs.next = none := by
      rw [first_eq, hself]
      rfl
    have hnext : (fs.allocVnode name kind).links.next fs.next = none := by
      rw [next_eq, hself]
      rfl
    refine h.forest.alloc h.next_not_live hroot hfirst hnext fun q hq => ?_
    exact ⟨hup hq, by rw [first_eq, first_eq, hother hq], by rw [next_eq, next_eq, hother hq]⟩
  · rw [hlive]
    rintro p (rfl | hp)
    · exact Nat.lt_succ_self _
    · exact Nat.lt_succ_of_lt (h.lt_next hp)
  · rw [hlive]
    rintro p c (rfl | hc) heq
    · rw [hroot] at heq
      cases heq
    · rw [hup (hne hc)] at heq
      have hp := hne (h.forest.up_live hc heq)
      rw [isDir, hother hp]
      exact h.dir_of_up hc heq
  · rw [hlive]
    rintro p (rfl | hp)
    · rw [update_self]
      exact nodup_nil
    · rw [update_of_ne (hne hp),
        map_congr_left fun c hc => hname (hne ((h.forest.mem_kids hp).mp hc).1)]
      exact h.distinct hp
  · rw [hlive]
    rintro p c (rfl | hc) heq
    · rw [hroot] at heq
      cases heq
    · rw [hup (hne hc)] at heq
      rw [hname (hne hc)]
      exact h.valid hc heq

/-- `link_child`. -/
theorem link (h : Grove fs kids roots) {p c : ℕ} (hdir : fs.isDir p = true) (hc : c ∈ roots)
    (hcp : ¬ fs.links.Ancestor c p) (hvalid : ValidName (fs.nameOf c))
    (hnew : fs.nameOf c ∉ (kids p).map fs.nameOf) :
    Grove (fs.linkChild p c) (Function.update kids p (c :: kids p)) (roots \ {c}) := by
  have hp := mem_live_of_isDir hdir
  have hclive := h.forest.live_of_mem_roots hc
  have hlive := fs.live_linkChild p c
  have hisDir := fs.isDir_linkChild p c
  have hname := fs.nameOf_linkChild p c
  have hlinks := fs.links_linkChild hp hclive
  have hup := congrArg Links.up hlinks
  dsimp only at hup
  constructor
  · rw [hlive, hlinks]
    exact h.forest.link hp hc hcp
  · rw [hlive]
    exact h.lt_next
  · rw [hlive, hup, hisDir]
    intro q d hd heq
    by_cases hdc : d = c
    · subst hdc
      rw [update_self] at heq
      exact some.inj heq ▸ hdir
    · rw [update_of_ne hdc] at heq
      exact h.dir_of_up hd heq
  · rw [hlive, hname]
    intro q hq
    by_cases hqp : q = p
    · subst hqp
      rw [update_self, map_cons]
      exact nodup_cons.mpr ⟨hnew, h.distinct hq⟩
    · rw [update_of_ne hqp]
      exact h.distinct hq
  · rw [hlive, hup, hname]
    intro q d hd heq
    by_cases hdc : d = c
    · exact hdc ▸ hvalid
    · rw [update_of_ne hdc] at heq
      exact h.valid hd heq

/-- What `unlink_child` does to the links of a child. -/
theorem links_unlinkChild (h : Grove fs kids roots) {p c : ℕ} (hc : c ∈ fs.live)
    (hup : fs.links.up c = some p) :
    (fs.unlinkChild p c).links.up = Function.update fs.links.up c none ∧
      ((fs.unlinkChild p c).links.first = if fs.links.first p = some c then
        Function.update fs.links.first p (fs.links.next c) else fs.links.first) ∧
      (fs.unlinkChild p c).links.next c = none ∧
      ∀ q, q ≠ c → (fs.unlinkChild p c).links.next q =
        if q ∈ kids p ∧ fs.links.next q = some c then fs.links.next c else fs.links.next q := by
  have hp := h.forest.up_live hc hup
  have hmem : c ∈ kids p := (h.forest.mem_kids hp).mpr ⟨hc, hup⟩
  have hchain := h.forest.siblings hp
  have hnodup := h.forest.nodup hp
  unfold unlinkChild leadPast
  by_cases hhead : fs.links.first p = some c
  · -- the first child has no predecessor
    rw [if_pos hhead, if_pos hhead]
    dsimp only
    have hc' : c ∈ (fs.modify p fun v => { v with children := fs.links.next c }).live := by
      rwa [live_modify]
    refine ⟨?_, ?_, ?_, fun q hq => ?_⟩
    · rw [up_modify_set _ (o := none) hc' fun _ => by rfl, up_modify _ _ fun _ => by rfl]
    · rw [first_modify _ _ fun _ => by rfl,
        first_modify_set fs (o := fs.links.next c) hp fun _ => by rfl]
    · rw [next_modify_set _ (o := none) hc' fun _ => by rfl, update_self]
    · rw [next_modify_set _ (o := none) hc' fun _ => by rfl, update_of_ne hq,
        next_modify _ _ fun _ => by rfl, if_neg]
      rintro ⟨hqkid, hback⟩
      cases hkids : kids p with
      | nil =>
        rw [hkids] at hmem
        cases hmem
      | cons d l =>
        rw [hkids] at hchain hnodup hqkid
        obtain ⟨hd, htail⟩ := hchain
        obtain rfl : d = c := some.inj (hd.symm.trans hhead)
        obtain ⟨hdl, -⟩ := nodup_cons.mp hnodup
        exact hdl (htail.mem_of_next ((mem_cons.mp hqkid).resolve_left hq) hback)
  · rw [if_neg hhead, if_neg hhead, h.children_eq hp]
    obtain ⟨r, hr, hrc⟩ := hchain.exists_pred hmem hhead
    cases hfind : (kids p).find? fun q => decide (fs.links.next q = some c) with
    | none =>
      have := find?_eq_none.mp hfind r hr
      simp [hrc] at this
    | some r' =>
      dsimp only
      have hr' := mem_of_find?_eq_some hfind
      have hrc' : fs.links.next r' = some c := by simpa using find?_some hfind
      have hrlive := ((h.forest.mem_kids hp).mp hr').1
      have hc' : c ∈ (fs.modify r' fun v => { v with sibling := fs.links.next c }).live := by
        rwa [live_modify]
      refine ⟨?_, ?_, ?_, fun q hq => ?_⟩
      · rw [up_modify_set _ (o := none) hc' fun _ => by rfl, up_modify _ _ fun _ => by rfl]
      · rw [first_modify _ _ fun _ => by rfl, first_modify _ _ fun _ => by rfl]
      · rw [next_modify_set _ (o := none) hc' fun _ => by rfl, update_self]
      · rw [next_modify_set _ (o := none) hc' fun _ => by rfl, update_of_ne hq,
          next_modify_set fs (o := fs.links.next c) hrlive fun _ => by rfl]
        by_cases hqr : q = r'
        · subst hqr
          rw [update_self, if_pos ⟨hr', hrc'⟩]
        · rw [update_of_ne hqr, if_neg]
          rintro ⟨hqkid, hqc⟩
          exact hqr (hchain.pred_unique hnodup hqkid hr' hqc hrc')

end Grove

theorem leadPast_modify {p c : ℕ} (h : fs.leadPast p c = some fs') :
    ∃ q f, fs' = fs.modify q f ∧ (∀ v, (f v).kind = v.kind) ∧ (∀ v, (f v).name = v.name) ∧
      ∀ v, (f v).data = v.data := by
  unfold leadPast at h
  split at h
  · exact ⟨p, _, (some.inj h).symm, fun v => rfl, fun v => rfl, fun v => rfl⟩
  · split at h
    · rename_i q _
      exact ⟨q, _, (some.inj h).symm, fun v => rfl, fun v => rfl, fun v => rfl⟩
    · cases h

/-- `unlink_child` changes links only. -/
theorem unlinkChild_same (fs : Vfs) (p c : ℕ) : (fs.unlinkChild p c).live = fs.live ∧
    (fs.unlinkChild p c).isDir = fs.isDir ∧ (fs.unlinkChild p c).nameOf = fs.nameOf ∧
    (fs.unlinkChild p c).dataOf = fs.dataOf ∧ (fs.unlinkChild p c).next = fs.next ∧
    (fs.unlinkChild p c).root = fs.root := by
  unfold unlinkChild
  split
  · rename_i fs' hlead
    obtain ⟨q, f, rfl, hkind, hname, hdata⟩ := leadPast_modify hlead
    refine ⟨by simp, ?_, ?_, ?_, rfl, rfl⟩
    · rw [isDir_modify _ _ fun _ => by rfl, isDir_modify _ _ hkind]
    · rw [nameOf_modify _ _ fun _ => by rfl, nameOf_modify _ _ hname]
    · rw [dataOf_modify _ _ fun _ => by rfl, dataOf_modify _ _ hdata]
  · exact ⟨rfl, rfl, rfl, rfl, rfl, rfl⟩

/-- `unlink_child`. -/
theorem Grove.unlink (h : Grove fs kids roots) {p c : ℕ} (hc : c ∈ fs.live)
    (hup : fs.links.up c = some p) :
    Grove (fs.unlinkChild p c) (Function.update kids p ((kids p).erase c)) (insert c roots) := by
  have hp := h.forest.up_live hc hup
  have hmem : c ∈ kids p := (h.forest.mem_kids hp).mpr ⟨hc, hup⟩
  obtain ⟨hup', hfirst, hlast, hnext⟩ := h.links_unlinkChild hc hup
  obtain ⟨hlive, hdir, hname, -, hbound, -⟩ := fs.unlinkChild_same p c
  have hparent : ∀ {q d}, (fs.unlinkChild p c).links.up d = some q → fs.links.up d = some q := by
    intro q d heq
    rw [hup'] at heq
    by_cases hdc : d = c
    · rw [hdc, update_self] at heq
      cases heq
    · rwa [update_of_ne hdc] at heq
  constructor
  · rw [hlive]
    exact h.forest.unlink hp hmem hup' hfirst hlast hnext
  · rw [hlive, hbound]
    exact h.lt_next
  · rw [hlive, hdir]
    exact fun hd heq => h.dir_of_up hd (hparent heq)
  · rw [hlive, hname]
    intro q hq
    by_cases hqp : q = p
    · subst hqp
      rw [update_self]
      exact (h.distinct hq).sublist (Sublist.map _ erase_sublist)
    · rw [update_of_ne hqp]
      exact h.distinct hq
  · rw [hlive, hname]
    exact fun hd heq => h.valid hd (hparent heq)

end Vfs

end AnssOS
