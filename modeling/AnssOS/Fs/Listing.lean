import AnssOS.Fs.VfsTree

/-!
# What a directory holds

A `Listing` is the tree of names and contents below a directory, without any addresses: the entries
of the directory in order, where the entry of a directory comes with the listing of that directory.
`Vfs.Holds` relates a list of nodes to the listing it stands for, and `Vfs.contents` computes the
listing of the root.

### Outline

* `Listing`, its `append` and its `mirror`, in which the order is reversed in every directory;
* `Holds`: what it determines, and that it depends only on the nodes below;
* `contents`, which is defined for every tree.
-/

namespace AnssOS

open List Option

/-- The entries of a directory, in order. -/
inductive Listing
  | nil
  | file (name : Text) (data : List UInt8) (rest : Listing)
  | dir (name : Text) (inside rest : Listing)
deriving DecidableEq

namespace Listing

/-- The entries of one listing, then those of another. -/
def append : Listing → Listing → Listing
  | nil, m => m
  | file name data rest, m => file name data (rest.append m)
  | dir name inside rest, m => dir name inside (rest.append m)

/-- The order of the entries is reversed in every directory. -/
def mirror : Listing → Listing
  | nil => nil
  | file name data rest => rest.mirror.append (file name data nil)
  | dir name inside rest => rest.mirror.append (dir name inside.mirror nil)

/-- The names of the entries. -/
def names : Listing → List Text
  | nil => []
  | file name _ rest | dir name _ rest => name :: rest.names

/-- The number of entries. -/
def count : Listing → ℕ
  | nil => 0
  | file _ _ rest | dir _ _ rest => rest.count + 1

@[simp] theorem append_nil (l : Listing) : l.append nil = l := by
  induction l with
  | nil => rfl
  | file name data rest ih => rw [append, ih]
  | dir name inside rest _ ih => rw [append, ih]

theorem append_assoc (l m k : Listing) : (l.append m).append k = l.append (m.append k) := by
  induction l with
  | nil => rfl
  | file name data rest ih => rw [append, append, append, ih]
  | dir name inside rest _ ih => rw [append, append, append, ih]

theorem mirror_append (l m : Listing) : (l.append m).mirror = m.mirror.append l.mirror := by
  induction l with
  | nil => rw [append, mirror, append_nil]
  | file name data rest ih => rw [append, mirror, mirror, ih, append_assoc]
  | dir name inside rest _ ih => rw [append, mirror, mirror, ih, append_assoc]

/-- Reversing every directory twice changes nothing. -/
@[simp] theorem mirror_mirror (l : Listing) : l.mirror.mirror = l := by
  induction l with
  | nil => rfl
  | file name data rest ih => rw [mirror, mirror_append, ih]; rfl
  | dir name inside rest ihi ih => rw [mirror, mirror_append, ih, mirror, mirror, ihi]; rfl

theorem length_names (l : Listing) : l.names.length = l.count := by
  induction l with
  | nil => rfl
  | file name data rest ih => rw [names, length_cons, ih, count]
  | dir name inside rest _ ih => rw [names, length_cons, ih, count]

end Listing

namespace Vfs

variable {fs fs' : Vfs} {kids : ℕ → List ℕ} {roots : Set ℕ}

/-! ### Nodes that stand for a listing -/

/-- The nodes are those of the entries, in order. -/
def Holds (fs : Vfs) : Listing → List ℕ → Prop
  | .nil, [] => True
  | .file name data rest, p :: ps =>
      (∃ v, fs.nodes p = some v ∧ v.kind = .file ∧ v.name = name ∧ v.data = data) ∧
        fs.Holds rest ps
  | .dir name inside rest, p :: ps =>
      (∃ v, fs.nodes p = some v ∧ v.kind = .dir ∧ v.name = name) ∧
        fs.Holds inside (fs.children p) ∧ fs.Holds rest ps
  | _, _ => False

variable {l : Listing} {ps : List ℕ} {n : ℕ}

theorem Holds.unique {l m : Listing} (hl : fs.Holds l ps) (hm : fs.Holds m ps) :
    l = m := by
  induction l generalizing m ps with
  | nil =>
    cases ps with
    | nil => cases m <;> first | rfl | exact hm.elim
    | cons p ps => exact hl.elim
  | file name data rest ih =>
    cases ps with
    | nil => exact hl.elim
    | cons p ps =>
      obtain ⟨⟨v, hv, hkind, rfl, rfl⟩, hrest⟩ := hl
      cases m with
      | nil => exact hm.elim
      | file name' data' rest' =>
        obtain ⟨⟨w, hw, -, rfl, rfl⟩, hrest'⟩ := hm
        obtain rfl : v = w := some.inj (hv.symm.trans hw)
        rw [ih hrest hrest']
      | dir name' inside' rest' =>
        obtain ⟨⟨w, hw, hkind', -⟩, -⟩ := hm
        obtain rfl : v = w := some.inj (hv.symm.trans hw)
        rw [hkind] at hkind'
        cases hkind'
  | dir name inside rest ihi ih =>
    cases ps with
    | nil => exact hl.elim
    | cons p ps =>
      obtain ⟨⟨v, hv, hkind, rfl⟩, hinside, hrest⟩ := hl
      cases m with
      | nil => exact hm.elim
      | file name' data' rest' =>
        obtain ⟨⟨w, hw, hkind', -⟩, -⟩ := hm
        obtain rfl : v = w := some.inj (hv.symm.trans hw)
        rw [hkind] at hkind'
        cases hkind'
      | dir name' inside' rest' =>
        obtain ⟨⟨w, hw, -, rfl⟩, hinside', hrest'⟩ := hm
        obtain rfl : v = w := some.inj (hv.symm.trans hw)
        rw [ihi hinside hinside', ih hrest hrest']

theorem Holds.append {l m : Listing} {ps qs : List ℕ} (hl : fs.Holds l ps) (hm : fs.Holds m qs) :
    fs.Holds (l.append m) (ps ++ qs) := by
  induction l generalizing ps with
  | nil =>
    cases ps with
    | nil => exact hm
    | cons p ps => exact hl.elim
  | file name data rest ih =>
    cases ps with
    | nil => exact hl.elim
    | cons p ps => exact ⟨hl.1, ih hl.2⟩
  | dir name inside rest _ ih =>
    cases ps with
    | nil => exact hl.elim
    | cons p ps => exact ⟨hl.1, hl.2.1, ih hl.2.2⟩

theorem Holds.names (h : fs.Holds l ps) :
    l.names = ps.map fs.nameOf := by
  induction l generalizing ps with
  | nil =>
    cases ps with
    | nil => rfl
    | cons p ps => exact h.elim
  | file name data rest ih =>
    cases ps with
    | nil => exact h.elim
    | cons p ps =>
      obtain ⟨⟨v, hv, -, rfl, -⟩, hrest⟩ := h
      rw [Listing.names, map_cons, ih hrest, nameOf, hv]
      rfl
  | dir name inside rest _ ih =>
    cases ps with
    | nil => exact h.elim
    | cons p ps =>
      obtain ⟨⟨v, hv, -, rfl⟩, -, hrest⟩ := h
      rw [Listing.names, map_cons, ih hrest, nameOf, hv]
      rfl

/-- What is held depends on the nodes below only. -/
theorem Grove.holds_of_agree (h : Grove fs kids roots) (hnext : fs.next ≤ fs'.next)
    (hps : ∀ p ∈ ps, p ∈ fs.live)
    (hsame : ∀ p ∈ ps, ∀ q, fs.links.Ancestor p q → fs'.nodes q = fs.nodes q)
    (hl : fs.Holds l ps) : fs'.Holds l ps := by
  induction l generalizing ps with
  | nil =>
    cases ps with
    | nil => trivial
    | cons p ps => exact hl.elim
  | file name data rest ih =>
    cases ps with
    | nil => exact hl.elim
    | cons p ps =>
      obtain ⟨hv, hrest⟩ := hl
      refine ⟨?_, ih (fun q hq => hps q (mem_cons_of_mem p hq))
        (fun q hq => hsame q (mem_cons_of_mem p hq)) hrest⟩
      rw [hsame p mem_cons_self p Relation.ReflTransGen.refl]
      exact hv
  | dir name inside rest ihi ih =>
    cases ps with
    | nil => exact hl.elim
    | cons p ps =>
      obtain ⟨hv, hinside, hrest⟩ := hl
      have hp := hps p mem_cons_self
      have hbelow := hsame p mem_cons_self
      have hkid : ∀ c ∈ kids p, c ∈ fs.live ∧ fs.links.Ancestor p c := fun c hc =>
        ⟨((h.forest.mem_kids hp).mp hc).1,
          Relation.ReflTransGen.single ((h.forest.mem_kids hp).mp hc).2⟩
      have hchildren : fs'.children p = fs.children p := by
        rw [h.children_eq hp]
        refine h.children_eq_of_agree hp hnext fun q hq => ?_
        rcases hq with rfl | hq
        · exact hbelow _ Relation.ReflTransGen.refl
        · exact hbelow q (hkid q hq).2
      refine ⟨?_, ?_, ih (fun q hq => hps q (mem_cons_of_mem p hq))
        (fun q hq => hsame q (mem_cons_of_mem p hq)) hrest⟩
      · rw [hbelow p Relation.ReflTransGen.refl]
        exact hv
      · rw [hchildren]
        rw [h.children_eq hp] at hinside ⊢
        exact ihi (fun c hc => (hkid c hc).1)
          (fun c hc q hq => hbelow q ((hkid c hc).2.trans hq)) hinside

/-! ### Computing the listing -/

/-- The listing of the nodes, for directories nested at most `n` deep. -/
def listing : ℕ → Vfs → List ℕ → Option Listing
  | 0, _, ps => if ps = [] then some .nil else none
  | n + 1, fs, ps => ps.foldr (fun p rest =>
      (fs.nodes p).bind fun v => rest.bind fun rest =>
        match v.kind with
        | .file => some (.file v.name v.data rest)
        | .dir => (listing n fs (fs.children p)).map fun inside => .dir v.name inside rest)
      (some .nil)

/-- What the root holds. -/
def contents (fs : Vfs) : Option Listing := listing fs.next fs (fs.children fs.root)

/-- The entries from the first node on. -/
theorem listing_cons_eq_some_iff {p : ℕ} :
    listing (n + 1) fs (p :: ps) = some l ↔ ∃ v rest, fs.nodes p = some v ∧
      listing (n + 1) fs ps = some rest ∧
      (v.kind = .file ∧ l = .file v.name v.data rest ∨ v.kind = .dir ∧
        ∃ inside, listing n fs (fs.children p) = some inside ∧ l = .dir v.name inside rest) := by
  rw [listing, listing, foldr_cons]
  constructor
  · intro h
    obtain ⟨v, hv, h⟩ := bind_eq_some_iff.mp h
    obtain ⟨rest, hrest, h⟩ := bind_eq_some_iff.mp h
    refine ⟨v, rest, hv, hrest, ?_⟩
    cases hkind : v.kind with
    | file =>
      rw [hkind] at h
      exact Or.inl ⟨rfl, (some.inj h).symm⟩
    | dir =>
      rw [hkind] at h
      obtain ⟨inside, hinside, heq⟩ := map_eq_some_iff.mp h
      exact Or.inr ⟨rfl, inside, hinside, heq.symm⟩
  · rintro ⟨v, rest, hv, hrest, ⟨hkind, rfl⟩ | ⟨hkind, inside, hinside, rfl⟩⟩
    · rw [hv, bind_some, hrest, bind_some, hkind]
    · rw [hv, bind_some, hrest, bind_some, hkind]
      dsimp only
      rw [hinside]
      rfl

theorem holds_of_listing (h : listing n fs ps = some l) :
    fs.Holds l ps := by
  induction n generalizing ps l with
  | zero =>
    rw [listing] at h
    split at h
    · rename_i hps
      rw [hps, ← some.inj h]
      trivial
    · cases h
  | succ n ihn =>
    induction ps generalizing l with
    | nil =>
      rw [← some.inj h]
      trivial
    | cons p ps ih =>
      obtain ⟨v, rest, hv, hrest, ⟨hkind, rfl⟩ | ⟨hkind, inside, hinside, rfl⟩⟩ :=
        listing_cons_eq_some_iff.mp h
      · exact ⟨⟨v, hv, hkind, rfl, rfl⟩, ih hrest⟩
      · exact ⟨⟨v, hv, hkind, rfl⟩, ihn hinside, ih hrest⟩

/-- A list of nodes has a listing if the directories in it have one. -/
theorem exists_listing (hlive : ∀ p ∈ ps, p ∈ fs.live)
    (hinside : ∀ p ∈ ps, ∃ l, listing n fs (fs.children p) = some l) :
    ∃ l, listing (n + 1) fs ps = some l := by
  induction ps with
  | nil => exact ⟨.nil, rfl⟩
  | cons p ps ih =>
    obtain ⟨rest, hrest⟩ := ih (fun q hq => hlive q (mem_cons_of_mem p hq))
      fun q hq => hinside q (mem_cons_of_mem p hq)
    obtain ⟨v, hv⟩ := mem_live.mp (hlive p mem_cons_self)
    obtain ⟨inside, hin⟩ := hinside p mem_cons_self
    cases hkind : v.kind with
    | file => exact ⟨_, listing_cons_eq_some_iff.mpr ⟨v, rest, hv, hrest, Or.inl ⟨hkind, rfl⟩⟩⟩
    | dir =>
      exact ⟨_, listing_cons_eq_some_iff.mpr
        ⟨v, rest, hv, hrest, Or.inr ⟨hkind, inside, hin, rfl⟩⟩⟩

/-- Every node of a tree has a listing. -/
theorem IsTree.exists_listing_children (h : IsTree fs) {p : ℕ} (hp : p ∈ fs.live) :
    ∃ l, listing fs.next fs (fs.children p) = some l := by
  have hall := h.grove.forest.upward_induction h.grove.live_subset (p := p)
    (Q := fun n p => ∃ l, listing n fs (fs.children p) = some l) ?_ hp
  · rwa [Finset.card_range] at hall
  · intro n p hp ih
    exact exists_listing (fun c hc => ((h.grove.forest.mem_kids hp).mp hc).1) ih

theorem IsTree.exists_contents (h : IsTree fs) : ∃ l, fs.contents = some l :=
  h.exists_listing_children h.root_live

theorem IsTree.contents_eq_some_iff (h : IsTree fs) :
    fs.contents = some l ↔ fs.Holds l (fs.children fs.root) := by
  refine ⟨holds_of_listing, fun hl => ?_⟩
  obtain ⟨m, hm⟩ := h.exists_contents
  rw [hm, hl.unique (holds_of_listing hm)]

end Vfs

end AnssOS
