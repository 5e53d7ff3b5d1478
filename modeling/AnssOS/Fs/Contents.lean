import AnssOS.Fs.Grove

/-!
# The contents of files

The operations write the contents they are given and copy those that are there, so that a property
of all contents stays one.  Nothing is assumed about the links.
-/

namespace AnssOS

namespace Vfs

variable {P : List UInt8 → Prop} {fs : Vfs}

/-- A property of the contents of all nodes. -/
def AllData (P : List UInt8 → Prop) (fs : Vfs) : Prop := ∀ p, P (fs.dataOf p)

namespace AllData

theorem congr {fs' : Vfs} (h : AllData P fs) (heq : fs'.dataOf = fs.dataOf) : AllData P fs' := by
  intro p
  rw [heq]
  exact h p

theorem set (h : AllData P fs) (p : ℕ) {data : List UInt8} (hdata : P data) :
    AllData P (fs.modify p fun v => { v with data := data }) := by
  intro q
  by_cases hq : q = p
  · subst hq
    rw [dataOf, nodes_modify_self]
    cases hv : fs.nodes q with
    | none => simpa [dataOf, hv] using h q
    | some v => exact hdata
  · rw [dataOf, nodes_modify_of_ne _ _ hq]
    exact h q

variable (hnil : P [])

include hnil

theorem alloc (h : AllData P fs) (name : Text) (kind : VnodeType) :
    AllData P (fs.allocVnode name kind) := by
  intro p
  by_cases hp : p = fs.next
  · rw [dataOf, hp, nodes_alloc_self]
    exact hnil
  · rw [dataOf, nodes_alloc_of_ne _ _ _ hp]
    exact h p

theorem erase (h : AllData P fs) (p : ℕ) : AllData P (fs.erase p) := by
  intro q
  by_cases hq : q = p
  · subst hq
    simpa [dataOf, Vfs.erase] using hnil
  · simpa [dataOf, Vfs.erase, hq] using h q

theorem createLeaf (h : AllData P fs) (base : ℕ) (path : Text) (kind : VnodeType) :
    AllData P (fs.createLeaf base path kind).2 := by
  unfold Vfs.createLeaf
  split
  · exact h
  · repeat' split
    · exact h
    · exact h
    · exact h
    · exact (h.alloc hnil _ kind).congr (dataOf_linkChild _ _ _)

/-- By induction on the levels; the children are freed one after the other. -/
theorem freeTree (n : ℕ) (h : AllData P fs) (node : ℕ) : AllData P (freeTree n fs node) := by
  induction n generalizing fs node with
  | zero => exact h
  | succ n ih =>
    refine AllData.erase hnil ?_ node
    have hfold : ∀ (l : List ℕ) (fs : Vfs), AllData P fs →
        AllData P (l.foldl (Vfs.freeTree n) fs) := by
      intro l
      induction l with
      | nil => exact fun fs h => h
      | cons c l ihl => exact fun fs h => ihl _ (ih h c)
    split
    · exact hfold _ fs h
    · exact h

theorem remove (h : AllData P fs) (base : ℕ) (path : Text) (cwd : ℕ) :
    AllData P (fs.remove base path cwd).2 := by
  unfold Vfs.remove
  split
  · exact h
  · split
    · exact h
    · split
      · exact h
      · refine AllData.freeTree hnil _ ?_ _
        split
        · exact h.congr (fs.unlinkChild_same _ _).2.2.2.1
        · exact h

/-- By induction on the levels; the children are copied one after the other. -/
theorem copyRecursive (n : ℕ) (h : AllData P fs) {src : ℕ} {name : Text} {r : ℕ × Vfs}
    (hr : copyRecursive n fs src name = some r) : AllData P r.2 := by
  induction n generalizing fs src name r with
  | zero => cases hr
  | succ n ih =>
    unfold Vfs.copyRecursive at hr
    split at hr
    · cases hr
    rename_i v hv
    have hcopied := h.alloc hnil name v.kind
    dsimp only at hr
    split at hr
    · obtain rfl := Option.some.inj hr
      have hdata : P v.data := by simpa [dataOf, hv] using h src
      exact hcopied.set _ hdata
    · obtain ⟨fs', hfold, rfl⟩ := Option.map_eq_some_iff.mp hr
      clear hr hv
      revert hcopied hfold
      generalize fs.allocVnode name v.kind = fs₁, fs.children src = l
      intro hcopied hfold
      induction l generalizing fs₁ with
      | nil => exact Option.some.inj hfold ▸ hcopied
      | cons c l ihl =>
        rw [List.foldlM_cons] at hfold
        obtain ⟨fs₂, hc, hl⟩ := Option.bind_eq_some_iff.mp hfold
        obtain ⟨child, hchild, rfl⟩ := Option.map_eq_some_iff.mp hc
        exact ihl _ ((ih hcopied hchild).congr (dataOf_linkChild _ _ _)) hl

theorem copy (h : AllData P fs) (base : ℕ) (srcPath destPath : Text) :
    AllData P (fs.copy base srcPath destPath).2 := by
  unfold Vfs.copy
  repeat' split
  all_goals first
    | exact h
    | exact (AllData.copyRecursive hnil _ h ‹_›).congr (dataOf_linkChild _ _ _)

omit hnil in
theorem moveNode (h : AllData P fs) (base : ℕ) (srcPath destPath : Text) :
    AllData P (fs.moveNode base srcPath destPath).2 := by
  unfold Vfs.moveNode
  have hplaced : ∀ {fs' : Vfs} (src parent : ℕ) (leaf : Text), AllData P fs' →
      AllData P ((fs'.setName src leaf).linkChild parent src) := by
    intro fs' src parent leaf h'
    refine AllData.congr ?_ (dataOf_linkChild _ _ _)
    exact h'.congr (dataOf_modify _ _ fun _ => rfl)
  repeat' split
  all_goals first
    | exact h
    | exact hplaced _ _ _ (h.congr (fs.unlinkChild_same _ _).2.2.2.1)
    | exact hplaced _ _ _ h

omit hnil in
theorem setData (h : AllData P fs) (node : ℕ) {data : List UInt8} (hdata : P data) :
    AllData P (fs.setData node data).2 := by
  unfold Vfs.setData
  split
  · exact h
  · exact h.set node hdata

theorem writeBytes (h : AllData P fs) (base : ℕ) (path : Text) {data : List UInt8}
    (hdata : P data) : AllData P (fs.writeBytes base path data).2 := by
  unfold Vfs.writeBytes
  have hcreated : AllData P (fs.createFile base path).2 := h.createLeaf hnil base path .file
  split
  · exact h.setData _ hdata
  · split
    · rename_i heq
      rw [heq] at hcreated
      exact hcreated
    · rename_i heq
      rw [heq] at hcreated
      split
      · exact hcreated.setData _ hdata
      · exact hcreated

/-- Overwriting a file, or making a new one, with the given content. -/
theorem writeFile (h : AllData P fs) (base : ℕ) (path : Text) {text : List UInt8}
    (htext : P text) : AllData P (fs.writeFile base path text false).2 := by
  unfold Vfs.writeFile
  split
  · rename_i heq
    simp at heq
  · exact h.writeBytes hnil base path htext

end AllData

end Vfs

end AnssOS
