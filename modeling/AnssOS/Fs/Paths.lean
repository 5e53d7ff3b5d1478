import AnssOS.Fs.Vfs

/-!
# Paths

How `resolve` and `resolve_parent_and_leaf` read a path: the last component of a path is looked up
in the directory that the part before it leads to, and slashes at the end do not matter.
-/

namespace AnssOS

open List Option

/-- A name that a path never leads to: as a component it means the directory itself or its parent. -/
def IsDot (name : Text) : Prop := name = ['.'] ∨ name = ['.', '.']

instance (name : Text) : Decidable (IsDot name) := inferInstanceAs (Decidable (_ ∨ _))

theorem cutName_cutName (name : Text) : cutName (cutName name) = cutName name :=
  floorChars_of_le (length_floorChars_le _ _)

namespace Vfs

variable {fs : Vfs} {base parent : ℕ} {path leaf name : Text}

theorem resolveComponent_cutName (fs : Vfs) (cur : ℕ) (component : Text) :
    fs.resolveComponent cur (cutName component) = fs.resolveComponent cur component := by
  unfold resolveComponent
  rw [cutName_cutName]

@[simp] theorem resolveComponent_nil (fs : Vfs) (cur : ℕ) :
    fs.resolveComponent cur [] = some cur := rfl

/-- The node itself, or its parent. -/
theorem resolveComponent_dot (fs : Vfs) (base : ℕ) (hname : IsDot name) :
    fs.resolveComponent base name = some base ∨
      fs.resolveComponent base name = some ((fs.links.up base).getD base) := by
  rcases hname with rfl | rfl
  · exact Or.inl rfl
  · exact Or.inr rfl

theorem resolveComponent_of_not_dot (hcut : cutName name = name) (hne : name ≠ [])
    (hdot : ¬ IsDot name) : fs.resolveComponent base name =
      if fs.isDir base then fs.findChild base name else none := by
  unfold resolveComponent
  dsimp only
  rw [hcut, if_neg fun h => h.elim hne fun h => hdot (Or.inl h), if_neg fun h => hdot (Or.inr h)]

/-! ### Resolving -/

theorem resolve_of_no_slash (h : '/' ∉ name) : fs.resolve base name =
    fs.resolveComponent base name := by
  have hhead : name.head? ≠ some '/' := fun heq => h (mem_of_mem_head? heq)
  rw [resolve, if_neg hhead, splitOn_eq_singleton h]
  simp

/-- A path that has a slash in it. -/
theorem resolve_append_slash (hne : path ≠ []) (h : '/' ∉ name) :
    fs.resolve base (path ++ '/' :: name) =
      (fs.resolve base path).bind fun cur => fs.resolveComponent cur name := by
  have hhead : (path ++ '/' :: name).head? = path.head? := head?_append_of_ne_nil path hne
  have hsplit : (path ++ '/' :: name).splitOn '/' = path.splitOn '/' ++ [name] := by
    rw [List.splitOn, splitOnP_append_cons _ _ (by simp)]
    exact congrArg _ (splitOn_eq_singleton h)
  rw [resolve, resolve, hhead, hsplit, foldlM_append]
  simp

theorem resolve_slash (h : '/' ∉ name) :
    fs.resolve base ('/' :: name) = fs.resolveComponent fs.root name := by
  have hsplit : ('/' :: name).splitOn '/' = [[], name] := by
    rw [List.splitOn, ← nil_append ('/' :: name), splitOnP_append_cons _ _ (by simp)]
    exact congrArg _ (splitOn_eq_singleton h)
  rw [resolve, hsplit]
  simp

/-- Slashes at the end of a path do not matter. -/
theorem resolve_trimEnd (hne : path.rdropWhile (· = '/') ≠ []) :
    fs.resolve base (path.rdropWhile (· = '/')) = fs.resolve base path := by
  induction path using List.reverseRecOn with
  | nil => rfl
  | append_singleton path c ih =>
    by_cases hc : c = '/'
    · subst hc
      rw [rdropWhile_concat_pos _ _ _ (by simp)] at hne ⊢
      have hpath : path ≠ [] := by
        rintro rfl
        exact hne rfl
      rw [ih hne, resolve_append_slash hpath (by simp)]
      simp
    · rw [rdropWhile_concat_neg _ _ _ (by simpa using hc)]

/-- The last component of a path is looked up in the directory before it. -/
theorem resolve_of_parentAndLeaf (h : fs.resolveParentAndLeaf base path = some (parent, leaf)) :
    fs.resolve base path = fs.resolveComponent parent leaf := by
  unfold resolveParentAndLeaf at h
  dsimp only at h
  split at h
  · cases h
  rename_i hne
  obtain ⟨p, hp, heq⟩ := map_eq_some_iff.mp h
  obtain ⟨rfl, rfl⟩ := Prod.mk.inj heq
  rw [← resolve_trimEnd hne, resolveComponent_cutName]
  generalize path.rdropWhile (· = '/') = trimmed at hp hne ⊢
  have hslash : '/' ∉ trimmed.rtakeWhile (· ≠ '/') := by
    intro hmem
    have := mem_rtakeWhile_imp hmem
    simp at this
  have hjoin : trimmed.rdropWhile (· ≠ '/') ++ trimmed.rtakeWhile (· ≠ '/') = trimmed :=
    rdropWhile_append_rtakeWhile
  have hlast : ∀ hb : trimmed.rdropWhile (· ≠ '/') ≠ [],
      (trimmed.rdropWhile (· ≠ '/')).getLast hb = '/' := by
    intro hb
    simpa using rdropWhile_last_not (fun c => decide (c ≠ '/')) trimmed hb
  revert hp hslash hjoin hlast
  generalize trimmed.rtakeWhile (· ≠ '/') = leaf
  generalize trimmed.rdropWhile (· ≠ '/') = before
  intro hp hslash hjoin hlast
  rw [← hjoin]
  split at hp
  · rw [nil_append, ← some.inj hp]
    exact resolve_of_no_slash hslash
  · rename_i c
    have hc : c = '/' := hlast (cons_ne_nil c [])
    rw [← some.inj hp, hc]
    exact resolve_slash hslash
  · rename_i hnil hsingle
    have hbefore : before = before.dropLast ++ ['/'] := by
      conv_lhs => rw [← dropLast_append_getLast hnil, hlast hnil]
    have hdrop : before.dropLast ≠ [] := by
      intro hempty
      rw [hempty] at hbefore
      exact hsingle _ hbefore
    rw [hbefore, List.append_assoc, singleton_append, resolve_append_slash hdrop hslash, hp]
    rfl

/-- A name on its own. -/
theorem resolveParentAndLeaf_of_no_slash (hne : name ≠ []) (h : '/' ∉ name) :
    fs.resolveParentAndLeaf base name = some (base, cutName name) := by
  have htrim : name.rdropWhile (· = '/') = name := by
    rw [rdropWhile_eq_self_iff]
    intro hl hlast
    simp only [decide_eq_true_eq] at hlast
    exact h (hlast ▸ getLast_mem hl)
  have hall : ∀ c ∈ name, (decide (c ≠ '/')) = true := by
    intro c hc
    simpa using fun heq : c = '/' => h (heq ▸ hc)
  have hdrop : name.rdropWhile (· ≠ '/') = [] := rdropWhile_eq_nil_iff.mpr hall
  have htake : name.rtakeWhile (· ≠ '/') = name := rtakeWhile_eq_self_iff.mpr hall
  unfold resolveParentAndLeaf
  dsimp only
  rw [htrim, if_neg hne, hdrop, htake]
  rfl

end Vfs

end AnssOS
