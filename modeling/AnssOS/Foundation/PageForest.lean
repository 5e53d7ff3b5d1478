import Mathlib

/-!
# Forests of tables in a heap of pages

A table is a page whose entries lead to further pages, so that a root page and a path of entries
name a page.  Several roots, each with a holder, form a forest: no page is named twice, neither by
two holders nor by two paths of one holder, and every page named is in use.

`Owns` says so, for the pages that the paths of a given layout can name, and it keeps account of two
more sets of pages in use: the reserved pages, which nothing names yet, and the data pages, which
are named as leaves at most and hence are never read as tables.  The rules below are those of an
allocator that hands pages out and takes them back, and of a table walker that links a reserved page
into a tree.

### Outline

* `walk` and `Reaches`: what a path names;
* `Owns`, and what it depends on: `Owns.mono` and `Owns.congr`;
* pages come and go: `Owns.alloc`, `Owns.release`;
* trees grow: `Owns.root`, `Owns.link`.
-/

namespace AnssOS

variable {P I ι : Type*}

/-- The page that the entries named by `path` lead to, from the page `r` on. -/
def walk (child : P → I → Option P) (r : P) (path : List I) : Option P := path.foldlM child r

@[simp] theorem walk_nil (child : P → I → Option P) (r : P) : walk child r [] = some r := rfl

theorem walk_cons (child : P → I → Option P) (r : P) (i : I) (path : List I) :
    walk child r (i :: path) = (child r i).bind fun t => walk child t path := rfl

theorem walk_concat (child : P → I → Option P) (r : P) (path : List I) (i : I) :
    walk child r (path ++ [i]) = (walk child r path).bind fun t => child t i := by
  simp [walk, List.foldlM_append]

/-- The holder `h` names the page `x` by the path `path` of the layout. -/
def Reaches (valid : List I → Prop) (child : P → I → Option P) (roots : ι → Option P) (h : ι)
    (path : List I) (x : P) : Prop :=
  valid path ∧ ∃ r, roots h = some r ∧ walk child r path = some x

/-- No page is named twice, every page named is in use, the `reserved` pages are in use and not
named, and the `data` pages are in use and named as leaves at most. -/
structure Owns (valid : List I → Prop) (child : P → I → Option P) (used : P → Prop)
    (roots : ι → Option P) (reserved data : Set P) : Prop where
  unique : ∀ {h h' path path' x}, Reaches valid child roots h path x →
    Reaches valid child roots h' path' x → h = h' ∧ path = path'
  used_of_reaches : ∀ {h path x}, Reaches valid child roots h path x → used x
  used_of_reserved : ∀ {z}, z ∈ reserved → used z
  not_reaches : ∀ {z}, z ∈ reserved → ∀ {h path}, ¬ Reaches valid child roots h path z
  used_of_data : ∀ {y}, y ∈ data → used y
  leaf_of_data : ∀ {y}, y ∈ data → ∀ {h path i}, Reaches valid child roots h path y →
    ¬ valid (path ++ [i])
  disjoint : ∀ {z}, z ∈ reserved → z ∉ data

variable {valid : List I → Prop} {child child' : P → I → Option P} {used used' : P → Prop}
  {roots : ι → Option P} {reserved reserved' data data' : Set P} {h₀ : ι}

theorem reaches_nil {h : ι} {r : P} (hvalid : valid []) (hr : roots h = some r) :
    Reaches valid child roots h [] r :=
  ⟨hvalid, r, hr, rfl⟩

/-- A path that is not empty goes through a table. -/
theorem Reaches.of_concat (hlead : ∀ {path i}, valid (path ++ [i]) → valid path) {h : ι}
    {path : List I} {i : I} {x : P} (hx : Reaches valid child roots h (path ++ [i]) x) :
    ∃ t, Reaches valid child roots h path t ∧ child t i = some x := by
  obtain ⟨hvalid, r, hr, hwalk⟩ := hx
  rw [walk_concat] at hwalk
  obtain ⟨t, ht, hx⟩ := Option.bind_eq_some_iff.mp hwalk
  exact ⟨t, ⟨hlead hvalid, r, hr, ht⟩, hx⟩

theorem Reaches.concat {h : ι} {path : List I} {t x : P} {i : I}
    (ht : Reaches valid child roots h path t) (hvalid : valid (path ++ [i]))
    (hx : child t i = some x) : Reaches valid child roots h (path ++ [i]) x := by
  obtain ⟨-, r, hr, hwalk⟩ := ht
  refine ⟨hvalid, r, hr, ?_⟩
  rw [walk_concat, hwalk]
  exact hx

/-- If the entries of the tables named stay as they are, all paths name what they did. -/
theorem Reaches.congr (hlead : ∀ {path i}, valid (path ++ [i]) → valid path)
    (hchild : ∀ {k path t i}, Reaches valid child roots k path t → valid (path ++ [i]) →
      child' t i = child t i) {h : ι} {path : List I} {x : P} :
    Reaches valid child' roots h path x ↔ Reaches valid child roots h path x := by
  induction path using List.reverseRecOn generalizing x with
  | nil => exact Iff.rfl
  | append_singleton init i ih =>
    constructor
    · intro hx
      have hvalid := hx.1
      obtain ⟨t, ht, hlast⟩ := hx.of_concat hlead
      have ht := ih.mp ht
      exact ht.concat hvalid (hchild ht hvalid ▸ hlast)
    · intro hx
      have hvalid := hx.1
      obtain ⟨t, ht, hlast⟩ := hx.of_concat hlead
      exact (ih.mpr ht).concat hvalid ((hchild ht hvalid).trans hlast)

/-- If an entry that leads nowhere is overwritten, then all paths still name what they did. -/
theorem Reaches.of_vacant (hlead : ∀ {path i}, valid (path ++ [i]) → valid path) {t : P} {i₀ : I}
    (hvacant : child t i₀ = none)
    (hsame : ∀ {k path y i}, Reaches valid child roots k path y → valid (path ++ [i]) →
      y ≠ t ∨ i ≠ i₀ → child' y i = child y i) {k : ι} {path : List I} {y : P}
    (hy : Reaches valid child roots k path y) : Reaches valid child' roots k path y := by
  induction path using List.reverseRecOn generalizing y with
  | nil => exact hy
  | append_singleton init i ih =>
    have hvalid := hy.1
    obtain ⟨t', ht', hlast⟩ := hy.of_concat hlead
    refine (ih ht').concat hvalid ?_
    by_cases hti : t' = t ∧ i = i₀
    · obtain ⟨rfl, rfl⟩ := hti
      rw [hvacant] at hlast
      cases hlast
    · rw [hsame ht' hvalid (by rwa [← not_and_or]), hlast]

namespace Owns

/-- If fewer pages are named, and the pages of the account stay in use, the account is kept. -/
theorem mono {roots' : ι → Option P} (h : Owns valid child used roots reserved data)
    (hreach : ∀ {k path x}, Reaches valid child' roots' k path x →
      Reaches valid child roots k path x ∧ used' x)
    (hreserved : ∀ {z}, z ∈ reserved' → z ∈ reserved ∧ used' z)
    (hdata : ∀ {y}, y ∈ data' → y ∈ data ∧ used' y) :
    Owns valid child' used' roots' reserved' data' where
  unique hx hx' := h.unique (hreach hx).1 (hreach hx').1
  used_of_reaches hx := (hreach hx).2
  used_of_reserved hz := (hreserved hz).2
  not_reaches hz := fun hx => h.not_reaches (hreserved hz).1 (hreach hx).1
  used_of_data hy := (hdata hy).2
  leaf_of_data hy := fun hx => h.leaf_of_data (hdata hy).1 (hreach hx).1
  disjoint hz := fun hy => h.disjoint (hreserved hz).1 (hdata hy).1

/-- Only the entries of tables matter. -/
theorem congr (hlead : ∀ {path i}, valid (path ++ [i]) → valid path)
    (h : Owns valid child used roots reserved data)
    (hchild : ∀ {k path t i}, Reaches valid child roots k path t → valid (path ++ [i]) →
      child' t i = child t i) : Owns valid child' used roots reserved data := by
  have hreach : ∀ {k path x}, Reaches valid child' roots k path x →
      Reaches valid child roots k path x := (Reaches.congr hlead hchild).mp
  exact h.mono (fun hx => ⟨hreach hx, h.used_of_reaches (hreach hx)⟩)
    (fun hz => ⟨hz, h.used_of_reserved hz⟩) (fun hy => ⟨hy, h.used_of_data hy⟩)

/-- Pages may be forgotten. -/
theorem forget (h : Owns valid child used roots reserved data) (hreserved : reserved' ⊆ reserved)
    (hdata : data' ⊆ data) : Owns valid child used roots reserved' data' :=
  h.mono (fun hx => ⟨hx, h.used_of_reaches hx⟩)
    (fun hz => ⟨hreserved hz, h.used_of_reserved (hreserved hz)⟩)
    (fun hy => ⟨hdata hy, h.used_of_data (hdata hy)⟩)

/-! ### Pages come and go -/

/-- Pages that were not in use become reserved ones. -/
theorem alloc {new : Set P} (h : Owns valid child used roots reserved data)
    (hnew : ∀ x ∈ new, ¬ used x) (hused : ∀ y, used' y ↔ used y ∨ y ∈ new) :
    Owns valid child used' roots (new ∪ reserved) data where
  unique := h.unique
  used_of_reaches hy := (hused _).mpr (Or.inl (h.used_of_reaches hy))
  used_of_reserved hz := (hused _).mpr (hz.symm.imp h.used_of_reserved id)
  not_reaches hz := by
    rcases hz with hz | hz
    · exact fun hreach => hnew _ hz (h.used_of_reaches hreach)
    · exact h.not_reaches hz
  used_of_data hy := (hused _).mpr (Or.inl (h.used_of_data hy))
  leaf_of_data := h.leaf_of_data
  disjoint hz := by
    rcases hz with hz | hz
    · exact fun hy => hnew _ hz (h.used_of_data hy)
    · exact h.disjoint hz

/-- A reserved page is given back. -/
theorem release {z : P} (h : Owns valid child used roots (insert z reserved) data)
    (hz : z ∉ reserved) (hused : ∀ y, y ≠ z → used y → used' y) :
    Owns valid child used' roots reserved data := by
  have hmem : z ∈ insert z reserved := Set.mem_insert z reserved
  refine h.mono (fun {k path x} hx => ⟨hx, hused x ?_ (h.used_of_reaches hx)⟩)
    (fun {y} hy => ⟨Or.inr hy, hused y ?_ (h.used_of_reserved (Or.inr hy))⟩)
    (fun {y} hy => ⟨hy, hused y ?_ (h.used_of_data hy)⟩)
  · rintro rfl
    exact h.not_reaches hmem hx
  · rintro rfl
    exact hz hy
  · rintro rfl
    exact h.disjoint hmem hy

/-- A leaf is a data page. -/
theorem leaf (h : Owns valid child used roots reserved data) {k : ι} {path : List I} {x : P}
    (hx : Reaches valid child roots k path x) (hleaf : ∀ i, ¬ valid (path ++ [i])) :
    Owns valid child used roots reserved (insert x data) where
  unique := h.unique
  used_of_reaches := h.used_of_reaches
  used_of_reserved := h.used_of_reserved
  not_reaches := h.not_reaches
  used_of_data hy := by
    rcases hy with rfl | hy
    · exact h.used_of_reaches hx
    · exact h.used_of_data hy
  leaf_of_data hy := by
    rcases hy with rfl | hy
    · intro k' path' i hx'
      obtain ⟨-, rfl⟩ := h.unique hx hx'
      exact hleaf i
    · exact h.leaf_of_data hy
  disjoint hz := by
    rintro (rfl | hy)
    · exact h.not_reaches hz hx
    · exact h.disjoint hz hy

/-! ### Trees grow and go -/

/-- If at most one more page is named, and that one was reserved, then it is not reserved any
more. -/
theorem attach {roots' : ι → Option P} {x : P} (h₀ : ι) (path₀ : List I)
    (h : Owns valid child used roots (insert x reserved) data) (hx : x ∉ reserved)
    (hreach : ∀ {k path y}, Reaches valid child' roots' k path y →
      Reaches valid child roots k path y ∨ k = h₀ ∧ path = path₀ ∧ y = x) :
    Owns valid child' used roots' reserved data := by
  have hmem : x ∈ insert x reserved := Set.mem_insert x reserved
  constructor
  · intro k k' path path' y hy hy'
    rcases hreach hy with hy | ⟨rfl, rfl, rfl⟩
    · rcases hreach hy' with hy' | ⟨rfl, rfl, rfl⟩
      · exact h.unique hy hy'
      · exact absurd hy (h.not_reaches hmem)
    · rcases hreach hy' with hy' | ⟨rfl, rfl, -⟩
      · exact absurd hy' (h.not_reaches hmem)
      · exact ⟨rfl, rfl⟩
  · intro k path y hy
    rcases hreach hy with hy | ⟨-, -, rfl⟩
    · exact h.used_of_reaches hy
    · exact h.used_of_reserved hmem
  · exact fun hz => h.used_of_reserved (Or.inr hz)
  · intro z hz k path hy
    rcases hreach hy with hy | ⟨-, -, rfl⟩
    · exact h.not_reaches (Or.inr hz) hy
    · exact hx hz
  · exact h.used_of_data
  · intro y hy k path i hreach'
    rcases hreach hreach' with hreach' | ⟨-, -, rfl⟩
    · exact h.leaf_of_data hy hreach'
    · exact absurd hy (h.disjoint hmem)
  · exact fun hz => h.disjoint (Or.inr hz)

section Link

variable (hlead : ∀ {path i}, valid (path ++ [i]) → valid path) {t x : P} {path₀ : List I} {i₀ : I}
  (h : Owns valid child used roots (insert x reserved) data)
  (ht : Reaches valid child roots h₀ path₀ t) (hentry : child' t i₀ = some x)
  (hsame : ∀ {k path y i}, Reaches valid child roots k path y → valid (path ++ [i]) →
    y ≠ t ∨ i ≠ i₀ → child' y i = child y i)
  (hbelow : ∀ i, valid (path₀ ++ [i₀] ++ [i]) → child' x i = none)

include hlead h ht hentry hsame hbelow

/-- If an entry of a table is pointed to a reserved page which, read as a table, has no entries,
then one more path names a page. -/
theorem reaches_link {k : ι} {path : List I} {y : P} (hy : Reaches valid child' roots k path y) :
    Reaches valid child roots k path y ∨ k = h₀ ∧ path = path₀ ++ [i₀] ∧ y = x := by
  induction path using List.reverseRecOn generalizing y with
  | nil => exact Or.inl hy
  | append_singleton init i ih =>
    have hvalid := hy.1
    obtain ⟨t', ht', hlast⟩ := hy.of_concat hlead
    rcases ih ht' with ht' | ⟨rfl, rfl, rfl⟩
    · by_cases hti : t' = t ∧ i = i₀
      · -- the path goes through the new entry
        obtain ⟨rfl, rfl⟩ := hti
        obtain ⟨rfl, rfl⟩ := h.unique ht ht'
        exact Or.inr ⟨rfl, rfl, Option.some.inj (hlast.symm.trans hentry)⟩
      · rw [hsame ht' hvalid (by rwa [← not_and_or])] at hlast
        exact Or.inl (ht'.concat hvalid hlast)
    · rw [hbelow i hvalid] at hlast
      cases hlast

theorem link (hx : x ∉ reserved) : Owns valid child' used roots reserved data :=
  attach h₀ (path₀ ++ [i₀]) h hx (h.reaches_link hlead ht hentry hsame hbelow)

end Link

/-- A change of one entry of the table at the end of a path leaves the pages named by paths that
are not longer alone. -/
theorem reaches_of_short (hlead : ∀ {path i}, valid (path ++ [i]) → valid path) {t : P}
    {path₀ : List I} {i₀ : I} (h : Owns valid child used roots reserved data)
    (ht : Reaches valid child roots h₀ path₀ t)
    (hsame : ∀ {k path y i}, Reaches valid child roots k path y → valid (path ++ [i]) →
      y ≠ t ∨ i ≠ i₀ → child' y i = child y i) {k : ι} {path : List I} {y : P}
    (hy : Reaches valid child roots k path y) (hshort : path.length ≤ path₀.length) :
    Reaches valid child' roots k path y := by
  induction path using List.reverseRecOn generalizing y with
  | nil =>
    obtain ⟨hvalid, r, hr, hwalk⟩ := hy
    exact ⟨hvalid, r, hr, hwalk⟩
  | append_singleton init i ih =>
    have hvalid := hy.1
    obtain ⟨t', ht', hlast⟩ := hy.of_concat hlead
    rw [List.length_append, List.length_singleton] at hshort
    refine (ih ht' (by omega)).concat hvalid ?_
    rw [hsame ht' hvalid (Or.inl ?_), hlast]
    rintro rfl
    obtain ⟨-, rfl⟩ := h.unique ht ht'
    omega

variable [DecidableEq ι]

theorem reaches_update {r : Option P} {k : ι} {path : List I} {x : P}
    (hx : Reaches valid child (Function.update roots h₀ r) k path x) :
    Reaches valid child roots k path x ∨ k = h₀ := by
  by_cases hk : k = h₀
  · exact Or.inr hk
  · left
    obtain ⟨hvalid, s, hs, hwalk⟩ := hx
    rw [Function.update_of_ne hk] at hs
    exact ⟨hvalid, s, hs, hwalk⟩

/-- A reserved page without entries becomes the root of a holder. -/
theorem root (hlead : ∀ {path i}, valid (path ++ [i]) → valid path) {x : P}
    (h : Owns valid child used roots (insert x reserved) data) (hx : x ∉ reserved)
    (hempty : ∀ i, valid [i] → child x i = none) :
    Owns valid child used (Function.update roots h₀ (some x)) reserved data := by
  refine attach h₀ [] h hx fun {k path y} hy => ?_
  rcases reaches_update hy with hy' | rfl
  · exact Or.inl hy'
  right
  -- the new root names itself, and nothing else since it has no entries
  induction path using List.reverseRecOn generalizing y with
  | nil =>
    obtain ⟨-, r, hr, hwalk⟩ := hy
    rw [Function.update_self] at hr
    exact ⟨rfl, rfl, by rw [← Option.some.inj hr] at hwalk; simpa using hwalk.symm⟩
  | append_singleton init i ih =>
    have hvalid := hy.1
    obtain ⟨t, ht, hlast⟩ := hy.of_concat hlead
    obtain ⟨-, rfl, rfl⟩ := ih ht
    rw [hempty i hvalid] at hlast
    cases hlast

omit [DecidableEq ι] in
/-- The holders may be given other names. -/
theorem reindex {κ : Type*} (h : Owns valid child used roots reserved data) {σ : κ → ι}
    (hσ : Function.Injective σ) : Owns valid child used (roots ∘ σ) reserved data where
  unique := fun {k k' path path' x} hx hx' =>
    (h.unique (show Reaches valid child roots (σ k) path x from hx)
      (show Reaches valid child roots (σ k') path' x from hx')).imp_left (hσ ·)
  used_of_reaches hx := h.used_of_reaches (h := σ _) hx
  used_of_reserved := h.used_of_reserved
  not_reaches hz := fun hx => h.not_reaches hz (h := σ _) hx
  used_of_data := h.used_of_data
  leaf_of_data hy := fun hx => h.leaf_of_data hy (h := σ _) hx
  disjoint := h.disjoint

end Owns

end AnssOS
