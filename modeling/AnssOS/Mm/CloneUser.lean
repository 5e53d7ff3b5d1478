import AnssOS.Mm.AddressMap

/-!
# Cloning and freeing an address space

`clone_user_pages` walks over the user half of the source and maps a copy of each page that it finds.
The walk is described by the list of the paths it visits, which it does not change on the way, since
only new pages are written.  `free_user_pages` walks over the clone and gives back each of its pages.

### Outline

* `walkPaths`: the paths that a walk over the tables visits, without repetition;
* the loops of `user_leaves` and of `free_user_pages` go along these lists;
* `CloneOk`: what holds after some of the pages have been copied;
* `clone_exact`: the clone and its end.
-/

namespace AnssOS

open List Option Function

namespace PhysMemory

/-! ### The paths of a walk -/

/-- The entry at the end of a path all of whose entries are present. -/
def entryAt (m : PhysMemory) : ℕ → List ℕ → Option ℕ
  | _, [] => none
  | t, [i] => if present (m.entry t i) then some (m.entry t i) else none
  | t, i :: j :: is => (m.child t i).bind fun t' => m.entryAt t' (j :: is)

/-- The first `n` entries of a table that are present. -/
def presentIndices (m : PhysMemory) (t n : ℕ) : List ℕ :=
  (List.range n).filter fun i => present (m.entry t i)

/-- The paths from a table with `n` entries down to the entries `l` levels below, each with its entry;
with those of the tables in between, after the paths below them, if `inner` is set. -/
def walkPaths (m : PhysMemory) (inner : Bool) : (l t n : ℕ) → List (List ℕ × ℕ)
  | 0, t, n => (m.presentIndices t n).map fun i => ([i], m.entry t i)
  | l + 1, t, n => (m.presentIndices t n).flatMap fun i =>
      ((m.walkPaths inner l (m.entry t i &&& pageAddrMask) tableEntries).map
        fun q => (i :: q.1, q.2)) ++ if inner then [([i], m.entry t i)] else []

/-- A path whose first index is below `n`. -/
def Indices (n : ℕ) : List ℕ → Prop
  | [] => True
  | i :: is => i < n ∧ ∀ j ∈ is, j < tableEntries

variable {m : PhysMemory} {e i n t : ℕ} {path : List ℕ}

theorem mem_presentIndices :
    i ∈ m.presentIndices t n ↔ i < n ∧ present (m.entry t i) = true := by
  simp [presentIndices]

theorem nodup_presentIndices (m : PhysMemory) (t n : ℕ) : (m.presentIndices t n).Nodup :=
  nodup_range.filter _

theorem indices_cons :
    Indices n (i :: path) ↔ i < n ∧ Indices tableEntries path := by
  cases path with
  | nil => simp [Indices]
  | cons j path => simp [Indices]

theorem entryAt_cons (hne : path ≠ []) :
    m.entryAt t (i :: path) = some e ↔
      present (m.entry t i) = true ∧ m.entryAt (m.entry t i &&& pageAddrMask) path = some e := by
  cases path with
  | nil => exact absurd rfl hne
  | cons j path =>
    rw [entryAt, child]
    split
    · rename_i hpresent
      simp [hpresent]
    · rename_i hpresent
      simp [hpresent]

theorem entryAt_singleton :
    m.entryAt t [i] = some e ↔ present (m.entry t i) = true ∧ m.entry t i = e := by
  rw [entryAt]
  split
  · rename_i hpresent
    simp [hpresent]
  · rename_i hpresent
    simp [hpresent]

theorem mem_walkPaths {inner : Bool} {l t n : ℕ} :
    (path, e) ∈ m.walkPaths inner l t n ↔ Indices n path ∧
      (path.length = l + 1 ∨ inner = true ∧ path.length ≤ l + 1) ∧ m.entryAt t path = some e := by
  induction l generalizing t n path with
  | zero =>
    rw [walkPaths, List.mem_map]
    constructor
    · rintro ⟨i, hi, heq⟩
      obtain ⟨rfl, rfl⟩ := Prod.mk.inj heq
      obtain ⟨hi, hpresent⟩ := mem_presentIndices.mp hi
      exact ⟨⟨hi, by simp⟩, by simp, entryAt_singleton.mpr ⟨hpresent, rfl⟩⟩
    · rintro ⟨hindices, hlen, hentry⟩
      rcases path with - | ⟨i, - | ⟨j, path⟩⟩
      · cases hentry
      · obtain ⟨hpresent, rfl⟩ := entryAt_singleton.mp hentry
        exact ⟨i, mem_presentIndices.mpr ⟨hindices.1, hpresent⟩, rfl⟩
      · simp at hlen
  | succ l ih =>
    rw [walkPaths, mem_flatMap]
    constructor
    · rintro ⟨i, hi, hmem⟩
      obtain ⟨hi, hpresent⟩ := mem_presentIndices.mp hi
      rcases mem_append.mp hmem with hmem | hmem
      · obtain ⟨⟨rest, e'⟩, hq, heq⟩ := List.mem_map.mp hmem
        obtain ⟨rfl, rfl⟩ := Prod.mk.inj heq
        obtain ⟨hindices, hlen, hentry⟩ := ih.mp hq
        have hne : rest ≠ [] := by
          rintro rfl
          cases hentry
        refine ⟨indices_cons.mpr ⟨hi, hindices⟩, ?_, (entryAt_cons hne).mpr ⟨hpresent, hentry⟩⟩
        simpa using hlen
      · cases inner with
        | false => simp at hmem
        | true =>
          obtain ⟨hpath, hentry⟩ : path = [i] ∧ e = m.entry t i := by simpa using hmem
          rw [hpath, hentry]
          exact ⟨⟨hi, by simp⟩, by simp, entryAt_singleton.mpr ⟨hpresent, rfl⟩⟩
    · rintro ⟨hindices, hlen, hentry⟩
      rcases path with - | ⟨i, - | ⟨j, path⟩⟩
      · cases hentry
      · obtain ⟨hpresent, rfl⟩ := entryAt_singleton.mp hentry
        refine ⟨i, mem_presentIndices.mpr ⟨hindices.1, hpresent⟩, mem_append_right _ ?_⟩
        have hinner : inner = true := by simpa using hlen
        simp [hinner]
      · obtain ⟨hi, hindices⟩ := indices_cons.mp hindices
        obtain ⟨hpresent, hentry⟩ := (entryAt_cons (by simp)).mp hentry
        refine ⟨i, mem_presentIndices.mpr ⟨hi, hpresent⟩, mem_append_left _ ?_⟩
        refine List.mem_map.mpr ⟨(j :: path, e), ih.mpr ⟨hindices, ?_, hentry⟩, rfl⟩
        simpa using hlen

/-- No path is visited twice. -/
theorem nodup_walkPaths (m : PhysMemory) (inner : Bool) (l t n : ℕ) :
    ((m.walkPaths inner l t n).map Prod.fst).Nodup := by
  induction l generalizing t n with
  | zero =>
    rw [walkPaths, List.map_map]
    exact (m.nodup_presentIndices t n).map fun i j h => by simpa using h
  | succ l ih =>
    rw [walkPaths, map_flatMap]
    refine nodup_flatMap.mpr ⟨fun i _ => ?_, ?_⟩
    · rw [map_append, List.map_map]
      refine Nodup.append ?_ (by cases inner <;> simp) ?_
      · have := (ih (m.entry t i &&& pageAddrMask) tableEntries).map (f := (i :: ·))
          fun a b h => by simpa using h
        rwa [List.map_map] at this
      · intro path hleft hright
        cases inner with
        | false => simp at hright
        | true =>
          obtain ⟨⟨rest, e⟩, hq, rfl⟩ := List.mem_map.mp hleft
          obtain rfl : rest = [] := by simpa using hright
          obtain ⟨-, -, hentry⟩ := mem_walkPaths.mp hq
          cases hentry
    · refine (m.nodup_presentIndices t n).imp fun {i j} hne path hi hj => hne ?_
      have hhead : ∀ {k}, path ∈ ((m.walkPaths inner l (m.entry t k &&& pageAddrMask)
          tableEntries).map (fun q => (k :: q.1, q.2)) ++
            if inner then [([k], m.entry t k)] else []).map Prod.fst → path.head? = some k := by
        intro k hk
        obtain ⟨⟨p, e⟩, hmem, rfl⟩ := List.mem_map.mp hk
        rcases mem_append.mp hmem with hmem | hmem
        · obtain ⟨q, -, heq⟩ := List.mem_map.mp hmem
          obtain ⟨rfl, -⟩ := Prod.mk.inj heq
          rfl
        · cases inner with
          | false => simp at hmem
          | true =>
            obtain ⟨hpath, -⟩ : p = [k] ∧ e = m.entry t k := by simpa using hmem
            rw [hpath]
            rfl
      exact some.inj ((hhead hi).symm.trans (hhead hj))

/-! ### The loops -/

/-- The address that a path of four indices stands for. -/
def virtOf : List ℕ → ℕ
  | [i4, i3, i2, i1] => (i4 <<< 39) ||| (i3 <<< 30) ||| (i2 <<< 21) ||| (i1 <<< 12)
  | _ => 0

/-- The nested loops of `user_leaves`, from `l` levels above the pages on. -/
def leafLoop (f : List ℕ → ℕ → PhysMemory → Bool × PhysMemory) :
    (l : ℕ) → List ℕ → (t n : ℕ) → PhysMemory → Bool × PhysMemory
  | 0, path, t, n => forPresent t (fun i e => f (path ++ [i]) e) (List.range n)
  | l + 1, path, t, n => forPresent t
      (fun i e => leafLoop f l (path ++ [i]) (e &&& pageAddrMask) tableEntries) (List.range n)

theorem userLeaves_eq (pml4 : ℕ) (f : ℕ → ℕ → PhysMemory → Bool × PhysMemory) :
    userLeaves pml4 f = leafLoop (fun path => f (virtOf path)) 3 [] pml4 (tableEntries / 2) := rfl

/-- The nested loops of `free_user_pages`. -/
def freeLoop : (l t n : ℕ) → PhysMemory → PhysMemory
  | 0, t, n, m => (forPresent t (fun _ e m => (true, m.freePage (e &&& pageAddrMask)))
      (List.range n) m).2
  | l + 1, t, n, m => (forPresent t (fun _ e m =>
      (true, (freeLoop l (e &&& pageAddrMask) tableEntries m).freePage (e &&& pageAddrMask)))
      (List.range n) m).2

theorem freeUserPages_eq_freeLoop (m : PhysMemory) (pml4 : ℕ) :
    m.freeUserPages pml4 = (freeLoop 3 pml4 (tableEntries / 2) m).freePage pml4 := rfl

/-- The pages that `free_user_pages` gives back, in this order. -/
def userPages (m : PhysMemory) (pml4 : ℕ) : List ℕ :=
  (m.walkPaths true 3 pml4 (tableEntries / 2)).map (fun q => q.2 &&& pageAddrMask) ++ [pml4]

section Items

variable {β : Type*} {m : PhysMemory} {Good : List β → PhysMemory → Prop}
  {Stopped Failed : PhysMemory → Prop}

/-- Where a loop can get to: it is through with `done`, or one of its bodies has stopped it; or it has
failed. -/
def Outcome (Good : List β → PhysMemory → Prop) (Stopped Failed : PhysMemory → Prop) (done : List β)
    (result : Bool × PhysMemory) : Prop :=
  (if result.1 = true then Good done result.2 else Stopped result.2) ∨ Failed result.2

/-- A loop whose bodies turn `Good done` into `Good (done ++ items i)`, or stop it, or fail, as long as
the entries of the table stay as they are in `m`. -/
theorem forPresent_items {table : ℕ} {body : ℕ → ℕ → PhysMemory → Bool × PhysMemory}
    {items : ℕ → List β} {full : List β} {is : List ℕ}
    (hfail : ∀ i e m', Failed m' → Failed (body i e m').2)
    (hentry : ∀ done m', Good done m' → ∀ i ∈ is, m'.entry table i = m.entry table i)
    (hbody : ∀ i ∈ is, present (m.entry table i) = true → ∀ done rest m',
      done ++ items i ++ rest = full → Good done m' →
      Outcome Good Stopped Failed (done ++ items i) (body i (m.entry table i) m'))
    {done rest : List β} {m' : PhysMemory}
    (hfull : done ++ (is.filter fun i => present (m.entry table i)).flatMap items ++ rest = full)
    (h : Good done m' ∨ Failed m') :
    Outcome Good Stopped Failed (done ++ (is.filter fun i => present (m.entry table i)).flatMap items)
      (forPresent table body is m') := by
  induction is generalizing done m' with
  | nil =>
    rw [forPresent, Outcome, if_pos rfl]
    simpa using h
  | cons i is ih =>
    rcases h with h | h
    · have hentry' := fun done m' h j hj => hentry done m' h j (mem_cons_of_mem i hj)
      have hbody' := fun j hj => hbody j (mem_cons_of_mem i hj)
      rw [forPresent, hentry done m' h i mem_cons_self]
      cases hpresent : present (m.entry table i) with
      | false =>
        rw [filter_cons_of_neg (by simp [hpresent])] at hfull ⊢
        exact ih hentry' hbody' hfull (Or.inl h)
      | true =>
        rw [filter_cons_of_pos (by simp [hpresent]), flatMap_cons] at hfull ⊢
        rw [if_pos rfl]
        have hnext := hbody i mem_cons_self hpresent done _ m'
          (by rw [← hfull]; simp only [List.append_assoc]; rfl) h
        rcases hcall : body i (m.entry table i) m' with ⟨- | -, m₁⟩
        · rw [hcall] at hnext
          exact hnext
        · rw [hcall, Outcome, if_pos rfl] at hnext
          rw [← List.append_assoc] at hfull ⊢
          exact ih hentry' hbody' hfull hnext
    · right
      exact forPresent_rule (fun i _ m' h _ => hfail i _ m' h) h

end Items

variable {pml4 virt : ℕ} {path : List ℕ} {m m' : PhysMemory}

theorem leafLoop_failed {Failed : PhysMemory → Prop}
    {f : List ℕ → ℕ → PhysMemory → Bool × PhysMemory}
    (hfail : ∀ path e m', Failed m' → Failed (f path e m').2) {l t n : ℕ}
    (h : Failed m) : Failed (leafLoop f l path t n m).2 := by
  induction l generalizing t n path m with
  | zero => exact forPresent_rule (fun i _ m' hm' _ => hfail _ _ m' hm') h
  | succ l ih => exact forPresent_rule (fun i _ m' hm' _ => ih hm') h

/-- The nested loops, if each call of `f` for the next path turns `Good done` into
`Good (done ++ [next])`, or stops, or fails, and the tables of the tree stay as they are in `m`. -/
theorem leafLoop_items {root : ℕ}
    {Good : List (List ℕ × ℕ) → PhysMemory → Prop} {Stopped Failed : PhysMemory → Prop}
    {f : List ℕ → ℕ → PhysMemory → Bool × PhysMemory} {full : List (List ℕ × ℕ)}
    (hfail : ∀ path e m', Failed m' → Failed (f path e m').2)
    (hkeep : ∀ done m', Good done m' → ∀ path t, path.length ≤ 3 → Indices 256 path →
      walk m.child root path = some t → ∀ i < 512, m'.entry t i = m.entry t i)
    (hstep : ∀ path e done rest m', done ++ (path, e) :: rest = full → Good done m' →
      Outcome Good Stopped Failed (done ++ [(path, e)]) (f path e m'))
    {l t n : ℕ} (hlen : path.length + l = 3) (hpath : Indices 256 path)
    (hwalk : walk m.child root path = some t) (hn : n = if path = [] then 256 else 512)
    {done rest : List (List ℕ × ℕ)}
    (hfull : done ++ (m.walkPaths false l t n).map (fun q => (path ++ q.1, q.2)) ++ rest = full)
    (h : Good done m' ∨ Failed m') :
    Outcome Good Stopped Failed
      (done ++ (m.walkPaths false l t n).map (fun q => (path ++ q.1, q.2)))
      (leafLoop f l path t n m') := by
  have hn' : n ≤ 512 := by
    rw [hn]
    split <;> decide
  induction l generalizing t n path done rest m' with
  | zero =>
    have hitems : (m.walkPaths false 0 t n).map (fun q => (path ++ q.1, q.2)) =
        ((List.range n).filter fun i => present (m.entry t i)).flatMap
          fun i => [(path ++ [i], m.entry t i)] := by
      rw [walkPaths, List.map_map, map_eq_flatMap]
      rfl
    rw [hitems] at hfull ⊢
    refine forPresent_items (fun i e m' hm' => hfail _ e m' hm') (fun done m' hm' i hi => ?_)
      (fun i hi hpresent done rest m' hdone hm' => ?_) hfull h
    · exact hkeep done m' hm' path t (by omega) hpath hwalk i
        ((mem_range.mp hi).trans_le hn')
    · exact hstep _ _ done rest m' (by simpa using hdone) hm'
  | succ l ih =>
    have hitems : (m.walkPaths false (l + 1) t n).map (fun q => (path ++ q.1, q.2)) =
        ((List.range n).filter fun i => present (m.entry t i)).flatMap fun i =>
          (m.walkPaths false l (m.entry t i &&& pageAddrMask) tableEntries).map
            fun q => (path ++ [i] ++ q.1, q.2) := by
      simp [walkPaths, presentIndices, map_flatMap, comp_def]
    rw [hitems] at hfull ⊢
    refine forPresent_items (fun i e m' hm' => leafLoop_failed hfail hm')
      (fun done m' hm' i hi => ?_) (fun i hi hpresent done rest m' hdone hm' => ?_) hfull h
    · exact hkeep done m' hm' path t (by omega) hpath hwalk i
        ((mem_range.mp hi).trans_le hn')
    · have hchild : m.child t i = some (m.entry t i &&& pageAddrMask) := by
        rw [child, if_pos hpresent]
      refine ih (by simp; omega) ?_ ?_ (by simp [tableEntries]) hdone (Or.inl hm') le_rfl
      · have hi := mem_range.mp hi
        cases path with
        | nil => exact ⟨by simpa [hn] using hi, by simp⟩
        | cons j path =>
          refine ⟨hpath.1, fun k hk => ?_⟩
          rcases mem_append.mp hk with hk | hk
          · exact hpath.2 k hk
          · rw [mem_singleton.mp hk]
            exact hi.trans_le hn'
      · rw [walk_concat, hwalk]
        exact hchild

/-- A loop that frees the pages of each entry. -/
theorem forPresent_free {table : ℕ} (pages : ℕ → List ℕ)
    {body : ℕ → ℕ → PhysMemory → Bool × PhysMemory}
    (hbody : ∀ i m', m'.ram = m.ram → body i (m.entry table i) m' =
      (true, (pages (m.entry table i)).foldl freePage m')) {is : List ℕ}
    (hram : m'.ram = m.ram) : (forPresent table body is m').2 =
      (((is.filter fun i => present (m.entry table i)).map (m.entry table)).flatMap pages).foldl
        freePage m' := by
  induction is generalizing m' with
  | nil => rfl
  | cons i is ih =>
    have hentry : m'.entry table i = m.entry table i := by rw [entry, entry, hram]
    have hfreed : ∀ (l : List ℕ) (m' : PhysMemory), (l.foldl freePage m').ram = m'.ram := by
      intro l
      induction l with
      | nil => exact fun _ => rfl
      | cons x l ih => exact fun m' => ih (m'.freePage x)
    rw [forPresent, hentry]
    cases hpresent : present (m.entry table i) with
    | false =>
      rw [filter_cons_of_neg (by simp [hpresent])]
      exact ih hram
    | true =>
      rw [filter_cons_of_pos (by simp [hpresent]), map_cons, flatMap_cons,
        foldl_append, if_pos rfl, hbody i m' hram]
      exact ih ((hfreed _ m').trans hram)

theorem freeLoop_eq (hram : m'.ram = m.ram) (l t n : ℕ) :
    freeLoop l t n m' =
      ((m.walkPaths true l t n).map fun q => q.2 &&& pageAddrMask).foldl freePage m' := by
  induction l generalizing t n m' with
  | zero =>
    rw [freeLoop, forPresent_free (fun e => [e &&& pageAddrMask]) (fun _ _ _ => rfl) hram]
    simp [walkPaths, presentIndices, ← map_eq_flatMap, comp_def]
  | succ l ih =>
    rw [freeLoop, forPresent_free (fun e => (m.walkPaths true l (e &&& pageAddrMask)
      tableEntries).map (fun q => q.2 &&& pageAddrMask) ++ [e &&& pageAddrMask])
      (fun i m' hm' => by rw [ih hm', foldl_append]; rfl) hram]
    simp [walkPaths, presentIndices, map_flatMap, flatMap_map, comp_def]

/-- `free_user_pages` gives back the pages of `userPages`, one after the other. -/
theorem freeUserPages_eq (m : PhysMemory) (pml4 : ℕ) :
    m.freeUserPages pml4 = (m.userPages pml4).foldl freePage m := by
  rw [freeUserPages_eq_freeLoop, freeLoop_eq rfl, userPages, foldl_append]
  rfl

/-! ### Entries and addresses -/

theorem NoHuge.lookupFrom_eq_entryAt {ι : Type*} {roots : ι → Option ℕ} {k : ι}
    (h : NoHuge m roots) (hroot : roots k = some pml4) (hvirt : virt < 2 ^ 47) :
    m.lookupFrom pml4 (virtPath virt) = m.entryAt pml4 (virtPath virt) := by
  rw [h.lookupFrom hroot hvirt, tablePath, virtPath, walk_cons, entryAt, bind_assoc]
  refine Option.bind_congr fun t₁ _ => ?_
  rw [walk_cons, entryAt, bind_assoc]
  refine Option.bind_congr fun t₂ _ => ?_
  rw [walk_cons, entryAt, bind_assoc]
  rfl

/-- A page that is named by an address is what the address is mapped to. -/
theorem NoHuge.exists_lookup {ι : Type*} {roots : ι → Option ℕ} {k : ι}
    {pml4 virt x : ℕ} (h : NoHuge m roots) (hroot : roots k = some pml4) (hvirt : virt < 2 ^ 47)
    (hx : Reaches UserPath m.child roots k (virtPath virt) x) :
    ∃ flags, m.lookup pml4 virt = some (x, flags) := by
  obtain ⟨t, ht, hchild⟩ := Reaches.of_concat UserPath.of_concat
    (show Reaches UserPath m.child roots k (tablePath virt ++ [tableIndex virt 12]) x from hx)
  have htable : Reaches TablePath m.child roots k (tablePath virt) t :=
    ⟨tablePath_valid hvirt, ht.2⟩
  unfold child at hchild
  split at hchild
  · rename_i hpresent
    have hentry : m.lookupFrom pml4 (virtPath virt) = some (m.entry t (tableIndex virt 12)) :=
      (h.lookupFrom_eq_some hroot hvirt).mpr ⟨t, htable, by rw [leafEntry, if_pos hpresent]⟩
    rw [lookup, hentry, map_some, some.inj hchild]
    exact ⟨_, rfl⟩
  · cases hchild

/-- The address of a path of the user half. -/
theorem virtPath_virtOf (hpath : Indices 256 path) (hlen : path.length = 4) :
    virtPath (virtOf path) = path ∧ virtOf path < 2 ^ 47 := by
  obtain ⟨i4, i3, i2, i1, rfl⟩ : ∃ i4 i3 i2 i1, path = [i4, i3, i2, i1] := by
    rcases path with - | ⟨i4, - | ⟨i3, - | ⟨i2, - | ⟨i1, - | ⟨j, path⟩⟩⟩⟩⟩ <;> simp at hlen ⊢
  obtain ⟨h4, hrest⟩ := hpath
  have h3 : i3 < 512 := hrest i3 (by simp)
  have h2 : i2 < 512 := hrest i2 (by simp)
  have h1 : i1 < 512 := hrest i1 (by simp)
  have hvirt : virtOf [i4, i3, i2, i1] = i4 * 2 ^ 39 + i3 * 2 ^ 30 + i2 * 2 ^ 21 + i1 * 2 ^ 12 := by
    simp only [virtOf, Nat.shiftLeft_eq]
    have h43 : i4 * 2 ^ 39 ||| i3 * 2 ^ 30 = (i4 * 2 ^ 9 + i3) * 2 ^ 30 := by
      have := Nat.two_pow_add_eq_or_of_lt (show i3 * 2 ^ 30 < 2 ^ 39 by omega) i4
      rw [mul_comm (2 ^ 39) i4] at this
      rw [← this]
      omega
    have h432 : (i4 * 2 ^ 9 + i3) * 2 ^ 30 ||| i2 * 2 ^ 21 =
        ((i4 * 2 ^ 9 + i3) * 2 ^ 9 + i2) * 2 ^ 21 := by
      have := Nat.two_pow_add_eq_or_of_lt (show i2 * 2 ^ 21 < 2 ^ 30 by omega) (i4 * 2 ^ 9 + i3)
      rw [mul_comm (2 ^ 30)] at this
      rw [← this]
      omega
    have h4321 : ((i4 * 2 ^ 9 + i3) * 2 ^ 9 + i2) * 2 ^ 21 ||| i1 * 2 ^ 12 =
        ((i4 * 2 ^ 9 + i3) * 2 ^ 9 + i2) * 2 ^ 21 + i1 * 2 ^ 12 := by
      have := Nat.two_pow_add_eq_or_of_lt (show i1 * 2 ^ 12 < 2 ^ 21 by omega)
        ((i4 * 2 ^ 9 + i3) * 2 ^ 9 + i2)
      rw [mul_comm (2 ^ 21)] at this
      exact this.symm
    rw [h43, h432, h4321]
    omega
  rw [hvirt]
  refine ⟨?_, by omega⟩
  simp only [virtPath, tableIndex_eq, List.cons.injEq, and_true]
  omega

theorem indices_virtPath (hvirt : virt < 2 ^ 47) : Indices 256 (virtPath virt) := by
  obtain ⟨-, hrest⟩ := forall_mem_cons.mp (virtPath_lt virt)
  refine ⟨?_, hrest⟩
  rw [tableIndex_eq]
  omega

/-- If an entry has no flags above the address, then all its flags are in the lowest bits. -/
theorem flags_eq_mod {e : ℕ} (h : e &&& pageFlagMask < pageSize) : e &&& pageFlagMask = e % pageSize := by
  have hmod := Nat.and_mod_two_pow (a := e) (b := pageFlagMask) (n := 12)
  rw [Nat.mod_eq_of_lt (show e &&& pageFlagMask < 2 ^ 12 from h)] at hmod
  rw [hmod, show pageFlagMask % 2 ^ 12 = 2 ^ 12 - 1 from rfl, Nat.and_two_pow_sub_one_eq_mod,
    Nat.mod_mod]
  rfl

/-! ### Copying the pages -/

/-- The user half of `src` is a tree of tables in use, as `map` builds them: the flags are in the
lowest bits, and no page that is mapped is one that the allocator may hand out. -/
structure UserTree (m : PhysMemory) (src : ℕ) : Prop where
  own : m.OwnedBy TablePath (spaceRoots src) ∅ ∅
  noHuge : NoHuge m (spaceRoots src)
  flags : ∀ virt < 2 ^ 47, ∀ phys flags, m.lookup src virt = some (phys, flags) → flags < pageSize
  pages : ∀ virt < 2 ^ 47, ∀ phys flags, m.lookup src virt = some (phys, flags) → ¬ m.pmm.Free phys

/-- An address space that has been made by calls of `new_address_space` and `map`, if no page that
is mapped in it is one that the allocator may hand out. -/
theorem SpacesOk.userTree {kernel : ℕ} {s : Spaces} {maps : List AddressMap}
    (h : SpacesOk m kernel s maps) {k pml4 : ℕ} {f : AddressMap} (hk : s.roots k = some pml4)
    (hf : maps[k]? = some f)
    (hpages : ∀ page phys flags, f page = some (phys, flags) →
      flags < pageSize ∧ ¬ s.mem.pmm.Free phys) : UserTree s.mem pml4 := by
  have hroots : s.roots ∘ (fun _ : Unit => k) = spaceRoots pml4 := funext fun _ => hk
  have hagree := h.agree k pml4 f hk hf
  refine ⟨?_, ?_, fun virt hvirt phys flags hphys => ?_, fun virt hvirt phys flags hphys => ?_⟩
  · rw [← hroots]
    exact (h.own.forget (Set.empty_subset _) subset_rfl).reindex fun _ _ _ => rfl
  · intro u path t i ht hvalid
    refine h.noHuge k path t i ?_ hvalid
    rwa [← hroots] at ht
  · rw [hagree virt hvirt] at hphys
    exact (hpages _ phys flags hphys).1
  · rw [hagree virt hvirt] at hphys
    exact (hpages _ phys flags hphys).2

/-- The state of `clone_user_pages`: the entries in `done` have been copied, and all pages taken from
the allocator since `m` are pages of the clone `dst`. -/
structure CloneOk (m : PhysMemory) (dst : ℕ) (done : List (List ℕ × ℕ)) (m' : PhysMemory) :
    Prop where
  failures : m'.tableFailures = m.tableFailures
  own : m'.Owned (spaceRoots dst) m.usedPages ∅
  noHuge : NoHuge m' (spaceRoots dst)
  total : m'.pmm.totalPages = m.pmm.totalPages
  kept : ∀ a, pageOf a ∈ m.usedPages → m'.ram a = m.ram a
  written : ∀ a, m'.ram a ≠ m.ram a → m'.pmm.Used (pageOf a)
  covered : ∀ y, m'.pmm.Used y →
    m.pmm.Used y ∨ ∃ path, Reaches UserPath m'.child (spaceRoots dst) () path y
  vacant : ∀ virt < 2 ^ 47, (∀ e, (virtPath virt, e) ∉ done) → m'.lookup dst virt = none
  copies : ∀ virt < 2 ^ 47, ∀ e, (virtPath virt, e) ∈ done → ∃ copy,
    m'.lookup dst virt = some (copy, e % pageSize) ∧
    Reaches UserPath m'.child (spaceRoots dst) () (virtPath virt) copy ∧
    ∀ off < pageSize, m'.ram (copy + off) = m.ram ((e &&& pageAddrMask) + off)

section Clone

variable {m m' m'' : PhysMemory} {src dst : ℕ} {done : List (List ℕ × ℕ)}

/-- Only pages that the allocator handed out are written. -/
theorem CloneOk.unchanged (h : CloneOk m dst done m') {a : ℕ} (ha : ¬ m.pmm.Free (pageOf a)) :
    m'.ram a = m.ram a := by
  by_contra hne
  obtain ⟨page, hpage, hzero, hlt, -⟩ := h.written a hne
  rw [h.total] at hlt
  cases htest : m.pmm.test page with
  | false => exact ha ⟨page, hpage, hlt, htest⟩
  | true => exact hne (h.kept a ⟨page, hpage, hzero, hlt, htest⟩)

/-- The body of the loop of `clone_user_pages`. -/
def cloneStep (dst : ℕ) (path : List ℕ) (pte : ℕ) (m : PhysMemory) : Bool × PhysMemory :=
  match m.pmm.allocPage with
  | (copy, p) =>
      let m := { m with pmm := p }
      if copy = 0 then (false, m)
      else
        let m := { m with ram := m.ram.copyBytes copy (pte &&& pageAddrMask) pageSize }
        (true, m.map dst (virtOf path) copy (pte &&& 0xFFF))

theorem cloneUserPages_eq (m : PhysMemory) (dst src : ℕ) :
    m.cloneUserPages dst src = leafLoop (cloneStep dst) 3 [] src (tableEntries / 2) m := by
  rw [cloneUserPages, userLeaves_eq]
  rfl

theorem tableFailures_le_cloneStep (dst : ℕ) (path : List ℕ) (e : ℕ) (m : PhysMemory) :
    m.tableFailures ≤ (cloneStep dst path e m).2.tableFailures := by
  unfold cloneStep
  rcases m.pmm.allocPage with ⟨copy, p⟩
  dsimp only
  split
  · exact le_rfl
  · exact tableFailures_le_map { m with
      pmm := p
      ram := m.ram.copyBytes copy (e &&& pageAddrMask) pageSize } _ _ _ _

variable {e t virt x : ℕ} {path : List ℕ}

/-- One page is copied. -/
theorem CloneOk.step (h : CloneOk m dst done m') (hpath : Indices 256 path)
    (hlen : path.length = 4) (hodd : e % 2 = 1) (hsrc : ¬ m.pmm.Free (e &&& pageAddrMask))
    (hnew : ∀ e', (path, e') ∉ done) (hcall : cloneStep dst path e m' = (true, m''))
    (hok : m''.tableFailures = m.tableFailures) : CloneOk m dst (done ++ [(path, e)]) m'' := by
  obtain ⟨hvirtPath, hvirt⟩ := virtPath_virtOf hpath hlen
  generalize hv : virtOf path = virt at hvirtPath hvirt
  have hhalf : tableIndex virt 39 < 256 := by
    rw [tableIndex_eq]
    omega
  have hroot : spaceRoots dst () = some dst := rfl
  have hflags : e &&& 0xFFF = e % pageSize := Nat.and_two_pow_sub_one_eq_mod e 12
  have hflags_lt : e % pageSize < pageSize := Nat.mod_lt e (by decide)
  have hflags_odd : e % pageSize % 2 = 1 := by
    unfold pageSize
    omega
  -- the copy
  unfold cloneStep at hcall
  rcases halloc : m'.pmm.allocPage with ⟨x, p⟩
  rw [halloc] at hcall
  dsimp only at hcall
  split at hcall
  · cases hcall
  rename_i hx
  obtain ⟨m₁, hm₁⟩ : ∃ m₁ : PhysMemory, m₁ = { m' with
      pmm := p
      ram := m'.ram.copyBytes x (e &&& pageAddrMask) pageSize } := ⟨_, rfl⟩
  have hmap : m₁.map dst virt x (e % pageSize) = m'' := by
    rw [hm₁, ← hv, ← hflags]
    exact (Prod.mk.inj hcall).2
  have htake : m'.pmm.Takes m₁.pmm {x} := by
    have := Pmm.allocPage_takes h.own.sound (by rw [halloc]; exact hx)
    rw [halloc] at this
    rwa [hm₁]
  have hused₁ : ∀ {y}, m₁.pmm.Used y ↔ m'.pmm.Used y ∨ y = x := htake.used_iff _
  obtain ⟨pagex, hpagex, -, hltx, -⟩ : m₁.pmm.Used x := hused₁.mpr (Or.inr rfl)
  have hcopied : ∀ off < pageSize, m₁.ram (x + off) = m'.ram ((e &&& pageAddrMask) + off) := by
    intro off hoff
    rw [hm₁]
    simp only [ByteMemory.copyBytes]
    rw [if_pos (by omega), Nat.add_sub_cancel_left]
  have hsame : ∀ a, m₁.ram a ≠ m'.ram a → pageOf a = x := by
    intro a ha
    by_contra hne
    refine ha ?_
    rw [hm₁]
    refine ByteMemory.copyBytes_of_outside ?_
    rw [hpagex] at hne ⊢
    unfold pageOf pageSize at *
    omega
  have hnot : x ∉ m.usedPages := h.own.not_reserved_of_takes htake rfl
  obtain ⟨hown₁, hreach₁, -⟩ := h.own.writeTaken htake hsame
  replace hown₁ : m₁.Owned (spaceRoots dst) (insert x m.usedPages) ∅ := hown₁
  have hbytes₁ : ∀ {y}, m'.pmm.Used y → ∀ off < pageSize, m₁.ram (y + off) = m'.ram (y + off) := by
    intro y hy off hoff
    by_contra hne
    have hpage := hsame _ hne
    have hfresh := htake.fresh x rfl
    obtain ⟨page, rfl, hy⟩ := hy
    rw [pageOf_add hoff] at hpage
    exact hfresh (hpage ▸ ⟨page, rfl, hy⟩)
  obtain ⟨hnoHuge₁, hlookup₁⟩ := h.noHuge.of_bytes fun k path t ht =>
    hbytes₁ (h.own.tables.owns.used_of_reaches ht)
  -- the copy is mapped
  have hvacant : ∀ y, ¬ Reaches UserPath m₁.child (spaceRoots dst) () (virtPath virt) y := by
    intro y hy
    obtain ⟨flags, hsome⟩ := h.noHuge.exists_lookup hroot hvirt (hreach₁.mp hy)
    rw [h.vacant virt hvirt fun e' => hvirtPath ▸ hnew e'] at hsome
    cases hsome
  have hfail₁ : m₁.tableFailures = m.tableFailures := by
    rw [hm₁]
    exact h.failures
  have hok₁ : (m₁.map dst virt x (e % pageSize)).tableFailures = m₁.tableFailures := by
    rw [hmap, hok, hfail₁]
  have hbound : x % pageSize = 0 ∧ x < 2 ^ 52 := by
    have := hown₁.sound.total_le
    rw [hpagex]
    unfold pageSize
    omega
  obtain ⟨-, hnoHuge₂, -, hlookup₂⟩ := hown₁.tables.map hnoHuge₁ hroot hvirt hbound hflags_lt
    hflags_odd hok₁
  have hown₂ := hown₁.map hnot hroot hhalf hflags_lt hflags_odd hok₁
  have hmaps := hown₁.mapVacant hnot hroot hhalf hflags_lt hflags_odd hvacant hok₁
  rw [hmap] at hnoHuge₂ hlookup₂ hown₂ hmaps
  have hlookup : ∀ virt' < 2 ^ 47, virtPath virt' ≠ path →
      m''.lookup dst virt' = m'.lookup dst virt' := by
    intro virt' hvirt' hne
    rw [(hlookup₂ () dst virt' hroot hvirt').2, lookup, lookup, hlookup₁ () dst virt' hroot hvirt']
    rintro ⟨-, hpage⟩
    obtain ⟨htable, hindex⟩ := (tablePath_eq_iff hvirt hvirt').mpr hpage
    refine hne (Eq.trans ?_ hvirtPath)
    have hconcat : ∀ v, virtPath v = tablePath v ++ [tableIndex v 12] := fun _ => rfl
    rw [hconcat, hconcat, htable, hindex]
  have hdone : ∀ {q e'}, (q, e') ∈ done ++ [(path, e)] ↔ (q, e') ∈ done ∨ q = path ∧ e' = e := by
    intro q e'
    simp
  refine ⟨hok, hown₂.forget subset_rfl (Set.empty_subset _), hnoHuge₂, ?_, fun a ha => ?_,
    fun a ha => ?_, fun y hy => ?_, fun virt' hvirt' hno => ?_, fun virt' hvirt' e' hmem => ?_⟩
  · rw [hmaps.total, htake.total, h.total]
  · rw [hmaps.kept (Or.inr ha), ← h.kept a ha]
    by_contra hne
    exact hnot (hsame a hne ▸ ha)
  · by_cases h₂ : m''.ram a = m₁.ram a
    · refine hmaps.used (hused₁.mpr ?_)
      by_cases h₁ : m₁.ram a = m'.ram a
      · exact Or.inl (h.written a (by rwa [← h₁, ← h₂]))
      · exact Or.inr (hsame a h₁)
    · exact hmaps.written h₂
  · rcases hmaps.covered hy with hy | hy
    · rcases hused₁.mp hy with hy | rfl
      · exact (h.covered y hy).imp_right (Exists.imp fun _ hq => hmaps.mono (hreach₁.mpr hq))
      · exact Or.inr ⟨_, hmaps.mapped⟩
    · exact Or.inr hy
  · have hne : virtPath virt' ≠ path := fun heq => hno e (hdone.mpr (Or.inr ⟨heq, rfl⟩))
    rw [hlookup virt' hvirt' hne]
    exact h.vacant virt' hvirt' fun e' he' => hno e' (hdone.mpr (Or.inl he'))
  · rcases hdone.mp hmem with hmem | ⟨heq, rfl⟩
    · have hne : virtPath virt' ≠ path := fun heq => hnew e' (heq ▸ hmem)
      obtain ⟨copy, hentry, hcopy, hcontents⟩ := h.copies virt' hvirt' e' hmem
      refine ⟨copy, (hlookup virt' hvirt' hne).trans hentry, hmaps.mono (hreach₁.mpr hcopy),
        fun off hoff => ?_⟩
      rw [hmaps.bytes rfl (hreach₁.mpr hcopy) off hoff,
        hbytes₁ (h.own.owns.used_of_reaches hcopy) off hoff, hcontents off hoff]
    · refine ⟨x, (hlookup₂ () dst virt' hroot hvirt').1 ⟨rfl, ?_⟩, ?_, fun off hoff => ?_⟩
      · refine (tablePath_eq_iff hvirt hvirt').mp ?_
        have := heq.trans hvirtPath.symm
        simp only [virtPath, List.cons.injEq, and_true] at this
        simp [tablePath, this]
      · rw [heq, ← hvirtPath]
        exact hmaps.mapped
      · have hsource : pageOf ((e' &&& pageAddrMask) + off) = e' &&& pageAddrMask := by
          rw [and_pageAddrMask]
          exact pageOf_add hoff
        have hpage : pageOf (x + off) = x := by
          rw [hpagex]
          exact pageOf_add hoff
        rw [hmaps.kept (by rw [hpage]; exact Set.mem_insert x _), hcopied off hoff]
        exact h.unchanged (by rwa [hsource])

/-- The new address space. -/
theorem cloneOk_newAddressSpace (hsound : m.pmm.Sound) {cr3 : ℕ}
    (hnew : m.newAddressSpace cr3 = (dst, m')) (hok : m'.tableFailures = m.tableFailures) :
    CloneOk m dst [] m' := by
  have hused : m.Owned (fun _ : Unit => none) m.usedPages ∅ := owned_usedPages hsound
  have hresult := hused.newAddressSpace () cr3 (by rw [hnew]; exact hok)
  have hroots : Function.update (fun _ => none) () (some dst) = spaceRoots dst :=
    funext fun _ => update_self _ _ _
  rw [hnew] at hresult
  obtain ⟨hown, htake, hspace⟩ := hresult
  rw [hroots] at hown
  have hroot : spaceRoots dst () = some dst := rfl
  refine ⟨hok, hown, fun _ _ _ _ => noHuge_of_lower_empty hspace.lower hroot, htake.total, hspace.kept,
    fun a ha => ?_, fun y hy => ?_, fun virt hvirt _ => lookup_of_lower_empty hspace.lower hvirt,
    fun _ _ _ hmem => by cases hmem⟩
  · rw [hspace.same a ha]
    exact (htake.used_iff dst).mpr (Or.inr rfl)
  · refine ((htake.used_iff y).mp hy).imp_right fun heq => ⟨[], ?_⟩
    exact reaches_nil userPath_nil (heq ▸ rfl)

theorem tablePath_of_indices (hpath : Indices 256 path) (hlen : path.length ≤ 3) :
    TablePath path := by
  refine ⟨⟨by omega, fun i hi => ?_, fun i hi => ?_⟩, hlen⟩
  · cases path with
    | nil => cases hi
    | cons j path =>
      rcases mem_cons.mp hi with rfl | hi
      · exact hpath.1.trans (by decide)
      · exact hpath.2 i hi
  · cases path with
    | nil => cases hi
    | cons j path =>
      obtain rfl : j = i := by simpa using hi
      exact hpath.1

theorem present_of_entryAt (h : m.entryAt t path = some e) :
    present e = true := by
  induction path generalizing t with
  | nil => cases h
  | cons i path ih =>
    cases path with
    | nil =>
      obtain ⟨hpresent, heq⟩ := entryAt_singleton.mp h
      rwa [← heq]
    | cons j path => exact ih ((entryAt_cons (by simp)).mp h).2

/-- What the source maps, in terms of the entries of its tables. -/
theorem UserTree.lookup_eq (h : UserTree m src) (hvirt : virt < 2 ^ 47) :
    m.lookup src virt = (m.entryAt src (virtPath virt)).map
      fun e => (e &&& pageAddrMask, e &&& pageFlagMask) := by
  rw [lookup, h.noHuge.lookupFrom_eq_entryAt (k := ()) rfl hvirt]

/-- What the source maps depends on its tables only, and these are in use. -/
theorem UserTree.lookup_of_kept (h : UserTree m src)
    (hkept : ∀ a, pageOf a ∈ m.usedPages → m'.ram a = m.ram a) (hvirt : virt < 2 ^ 47) :
    m'.lookup src virt = m.lookup src virt := by
  have hbytes : ∀ k path t, Reaches TablePath m.child (spaceRoots src) k path t →
      ∀ off < pageSize, m'.ram (t + off) = m.ram (t + off) := by
    intro k path t ht off hoff
    have hused := h.own.owns.used_of_reaches ht
    refine hkept _ ?_
    obtain ⟨page, rfl, -⟩ := id hused
    rw [pageOf_add hoff]
    exact hused
  rw [lookup, lookup, (h.noHuge.of_bytes hbytes).2 () src virt rfl hvirt]

/-- A call that stops the loop changes nothing. -/
theorem CloneOk.stop (h : CloneOk m dst done m') 
    (hcall : cloneStep dst path e m' = (false, m'')) : m'' = m' := by
  unfold cloneStep at hcall
  rcases halloc : m'.pmm.allocPage with ⟨x, p⟩
  rw [halloc] at hcall
  dsimp only at hcall
  split at hcall
  · rename_i hx
    subst hx
    obtain rfl := h.own.allocPage_zero halloc
    exact (Prod.mk.inj hcall).2.symm
  · cases hcall

/-- The whole clone, as far as it gets.  `Failed` is what becomes of the memory when a table could not be
allocated. -/
theorem UserTree.clone_outcome (h : UserTree m src) (Failed : PhysMemory → Prop)
    (hfail : ∀ path e m₁, Failed m₁ → Failed (cloneStep dst path e m₁).2)
    (htable : ∀ done path e m₁ m₂, CloneOk m dst done m₁ → Indices 256 path → path.length = 4 →
      cloneStep dst path e m₁ = (true, m₂) → m.tableFailures < m₂.tableFailures → Failed m₂)
    (hstart : CloneOk m dst [] m' ∨ Failed m') :
    Outcome (CloneOk m dst) (fun m₁ => ∃ done, CloneOk m dst done m₁) Failed
      (m.walkPaths false 3 src 256) (m'.cloneUserPages dst src) := by
  have hkeep : ∀ done m₁, CloneOk m dst done m₁ → ∀ path t, path.length ≤ 3 → Indices 256 path →
      walk m.child src path = some t → ∀ i < 512, m₁.entry t i = m.entry t i := by
    intro done m₁ h₁ path t hlen hpath hwalk i hi
    have ht : Reaches TablePath m.child (spaceRoots src) () path t :=
      ⟨tablePath_of_indices hpath hlen, src, rfl, hwalk⟩
    have hused := h.own.owns.used_of_reaches ht
    obtain ⟨page, rfl, -⟩ := id hused
    exact entry_congr hi fun a ha => h₁.kept a (ha ▸ hused)
  have hstep : ∀ path e done rest m₁, done ++ (path, e) :: rest = m.walkPaths false 3 src 256 →
      CloneOk m dst done m₁ → Outcome (CloneOk m dst) (fun m₁ => ∃ done, CloneOk m dst done m₁) Failed
        (done ++ [(path, e)]) (cloneStep dst path e m₁) := by
    intro path e done rest m₁ hfull h₁
    have hmem : (path, e) ∈ m.walkPaths false 3 src 256 := by
      rw [← hfull]
      simp
    obtain ⟨hpath, hlen, hentry⟩ := mem_walkPaths.mp hmem
    replace hlen : path.length = 4 := by simpa using hlen
    obtain ⟨hvirtPath, hvirt⟩ := virtPath_virtOf hpath hlen
    have hlookup : m.lookup src (virtOf path) = some (e &&& pageAddrMask, e &&& pageFlagMask) := by
      rw [h.lookup_eq hvirt, hvirtPath, hentry]
      rfl
    have hnew : ∀ e', (path, e') ∉ done := by
      intro e' he'
      have hnodup := m.nodup_walkPaths false 3 src 256
      rw [← hfull, map_append, map_cons] at hnodup
      exact (nodup_append.mp hnodup).2.2 path (List.mem_map_of_mem he') path
        mem_cons_self rfl
    have hodd : e % 2 = 1 := by simpa [present_eq] using present_of_entryAt hentry
    have hle₂ := tableFailures_le_cloneStep dst path e m₁
    rcases hcall : cloneStep dst path e m₁ with ⟨- | -, m₂⟩
    · obtain rfl := h₁.stop hcall
      exact Or.inl ⟨done, h₁⟩
    · rw [hcall, h₁.failures] at hle₂
      rcases hle₂.eq_or_lt with heq | hlt
      · exact Or.inl (h₁.step hpath hlen hodd (h.pages _ hvirt _ _ hlookup) hnew hcall heq.symm)
      · exact Or.inr (htable done path e m₁ m₂ h₁ hpath hlen hcall hlt)
  rw [cloneUserPages_eq]
  have hloop := leafLoop_items hfail hkeep hstep rfl (show Indices 256 [] from trivial) rfl rfl
    (by simp [tableEntries] :
      [] ++ (m.walkPaths false 3 src (tableEntries / 2)).map (fun q => ([] ++ q.1, q.2)) ++ [] = _)
    hstart
  simpa [tableEntries] using hloop

/-- The whole clone. -/
theorem UserTree.cloneOk (h : UserTree m src) {cr3 : ℕ} (hnew : m.newAddressSpace cr3 = (dst, m'))
    (hclone : m'.cloneUserPages dst src = (true, m''))
    (hok : m''.tableFailures = m.tableFailures) :
    CloneOk m dst (m.walkPaths false 3 src 256) m'' := by
  have hle : m.tableFailures ≤ m'.tableFailures := by
    have := m.tableFailures_le_allocTable
    rwa [show m'.tableFailures = m.allocTable.2.tableFailures by
      rw [← congrArg (·.2.tableFailures) hnew]
      rfl]
  have hstart : CloneOk m dst [] m' ∨ m.tableFailures < m'.tableFailures := by
    rcases hle.eq_or_lt with heq | hlt
    · exact Or.inl (cloneOk_newAddressSpace h.own.sound hnew heq.symm)
    · exact Or.inr hlt
  have hresult := h.clone_outcome (fun m₁ => m.tableFailures < m₁.tableFailures)
    (fun path e m₁ hlt => hlt.trans_le (tableFailures_le_cloneStep dst path e m₁))
    (fun _ _ _ _ _ _ _ _ _ hlt => hlt) hstart
  rw [hclone] at hresult
  rcases hresult with hresult | hlt
  · exact hresult
  · exact absurd hlt (by rw [hok]; exact lt_irrefl _)

theorem CloneOk.reaches_of_lookup (h : CloneOk m dst done m') {virt x flags : ℕ}
    (hvirt : virt < 2 ^ 47) (hx : m'.lookup dst virt = some (x, flags)) :
    Reaches UserPath m'.child (spaceRoots dst) () (virtPath virt) x := by
  by_cases hdone : ∃ e, (virtPath virt, e) ∈ done
  · obtain ⟨e, he⟩ := hdone
    obtain ⟨copy, hcopy, hreach, -⟩ := h.copies virt hvirt e he
    rw [hcopy] at hx
    obtain ⟨rfl, -⟩ := Prod.mk.inj (some.inj hx)
    exact hreach
  · rw [h.vacant virt hvirt fun e he => hdone ⟨e, he⟩] at hx
    cases hx

/-- The pages of the clone are those that the allocator handed out. -/
theorem CloneOk.reaches_iff (h : CloneOk m dst done m') :
    (∃ path, Reaches UserPath m'.child (spaceRoots dst) () path x) ↔
      m'.pmm.Used x ∧ ¬ m.pmm.Used x := by
  constructor
  · rintro ⟨path, hx⟩
    exact ⟨h.own.owns.used_of_reaches hx, fun hused => h.own.owns.not_reaches hused hx⟩
  · rintro ⟨hused, hnot⟩
    exact (h.covered x hused).resolve_left hnot

theorem CloneOk.free_of_used (h : CloneOk m dst done m') (hused : m'.pmm.Used x)
    (hnot : ¬ m.pmm.Used x) : m.pmm.Free x := by
  obtain ⟨page, rfl, hzero, hlt, -⟩ := hused
  rw [h.total] at hlt
  cases htest : m.pmm.test page with
  | false => exact ⟨page, rfl, hlt, htest⟩
  | true => exact absurd ⟨page, rfl, hzero, hlt, htest⟩ hnot

/-! ### Freeing the pages -/

theorem walk_of_entryAt (h : m.entryAt t path = some e) :
    walk m.child t path = some (e &&& pageAddrMask) := by
  induction path generalizing t with
  | nil => cases h
  | cons i path ih =>
    cases path with
    | nil =>
      obtain ⟨hpresent, heq⟩ := entryAt_singleton.mp h
      rw [walk_cons, child, if_pos hpresent, heq]
      rfl
    | cons j path =>
      obtain ⟨hpresent, hentry⟩ := (entryAt_cons (by simp)).mp h
      rw [walk_cons, child, if_pos hpresent]
      exact ih hentry

theorem entryAt_of_walk (hne : path ≠ [])
    (h : walk m.child t path = some x) :
    ∃ e, m.entryAt t path = some e ∧ e &&& pageAddrMask = x := by
  induction path generalizing t with
  | nil => exact absurd rfl hne
  | cons i path ih =>
    rw [walk_cons] at h
    obtain ⟨t', hchild, hwalk⟩ := bind_eq_some_iff.mp h
    have hpresent : present (m.entry t i) = true := by
      by_contra hnot
      rw [child, if_neg hnot] at hchild
      cases hchild
    rw [child, if_pos hpresent] at hchild
    cases path with
    | nil =>
      refine ⟨m.entry t i, entryAt_singleton.mpr ⟨hpresent, rfl⟩, ?_⟩
      exact (some.inj hchild).trans (some.inj hwalk)
    | cons j path =>
      obtain ⟨e, he, hx⟩ := ih (by simp) hwalk
      refine ⟨e, (entryAt_cons (by simp)).mpr ⟨hpresent, ?_⟩, hx⟩
      rwa [some.inj hchild]

theorem userPath_iff_indices : UserPath path ↔ Indices 256 path ∧ path.length ≤ 4 := by
  cases path with
  | nil => simp [UserPath, Indices]
  | cons i path =>
    simp only [UserPath, Indices, mem_cons, head?_cons, mem_some_iff,
      tableEntries]
    constructor
    · rintro ⟨hlen, hall, htop⟩
      exact ⟨⟨htop i rfl, fun j hj => hall j (Or.inr hj)⟩, hlen⟩
    · rintro ⟨⟨hi, hall⟩, hlen⟩
      refine ⟨hlen, fun j hj => ?_, fun j hj => hj ▸ hi⟩
      rcases hj with rfl | hj
      · omega
      · exact hall j hj

/-- The pages of `userPages` are those that the address space names. -/
theorem mem_userPages {pml4 x : ℕ} :
    x ∈ m.userPages pml4 ↔ ∃ path, Reaches UserPath m.child (spaceRoots pml4) () path x := by
  constructor
  · intro hx
    rcases mem_append.mp hx with hx | hx
    · obtain ⟨⟨path, e⟩, hmem, rfl⟩ := List.mem_map.mp hx
      obtain ⟨hpath, hlen, hentry⟩ := mem_walkPaths.mp hmem
      have hlen : path.length ≤ 4 := by simpa using hlen.elim le_of_eq And.right
      exact ⟨path, userPath_iff_indices.mpr ⟨hpath, hlen⟩, pml4, rfl, walk_of_entryAt hentry⟩
    · rw [mem_singleton.mp hx]
      exact ⟨[], reaches_nil userPath_nil rfl⟩
  · rintro ⟨path, hpath, r, hr, hwalk⟩
    obtain rfl : pml4 = r := some.inj hr
    obtain ⟨hindices, hlen⟩ := userPath_iff_indices.mp hpath
    cases path with
    | nil =>
      obtain rfl : pml4 = x := some.inj hwalk
      exact mem_append_right _ (mem_singleton_self pml4)
    | cons i path =>
      obtain ⟨e, hentry, rfl⟩ := entryAt_of_walk (by simp) hwalk
      refine mem_append_left _ (List.mem_map.mpr ⟨(i :: path, e), ?_, rfl⟩)
      exact mem_walkPaths.mpr ⟨hindices, Or.inr ⟨rfl, hlen⟩, hentry⟩

/-- No page is freed twice. -/
theorem OwnedBy.nodup_userPages {reserved data : Set ℕ}
    (h : m.Owned (spaceRoots dst) reserved data) : (m.userPages dst).Nodup := by
  have hreach : ∀ {path e}, (path, e) ∈ m.walkPaths true 3 dst (tableEntries / 2) →
      Reaches UserPath m.child (spaceRoots dst) () path (e &&& pageAddrMask) := by
    intro path e hmem
    obtain ⟨hpath, hlen, hentry⟩ := mem_walkPaths.mp hmem
    have hlen : path.length ≤ 4 := by simpa using hlen.elim le_of_eq And.right
    exact ⟨userPath_iff_indices.mpr ⟨hpath, hlen⟩, dst, rfl, walk_of_entryAt hentry⟩
  have hnodup : (m.walkPaths true 3 dst (tableEntries / 2)).Nodup :=
    (m.nodup_walkPaths true 3 dst (tableEntries / 2)).of_map _
  refine Nodup.append (hnodup.map_on ?_) (nodup_singleton dst) ?_
  · rintro ⟨path, e⟩ hmem ⟨path', e'⟩ hmem' heq
    obtain ⟨-, rfl⟩ := h.owns.unique (hreach hmem) (heq ▸ hreach hmem')
    have he := (mem_walkPaths.mp hmem).2.2
    rw [(mem_walkPaths.mp hmem').2.2] at he
    rw [some.inj he]
  · intro x hx hdst
    obtain ⟨⟨path, e⟩, hmem, heq⟩ := List.mem_map.mp hx
    have hroot : Reaches UserPath m.child (spaceRoots dst) () [] (e &&& pageAddrMask) :=
      reaches_nil userPath_nil ((heq.trans (mem_singleton.mp hdst)) ▸ rfl)
    obtain ⟨-, rfl⟩ := h.owns.unique (hreach hmem) hroot
    cases (mem_walkPaths.mp hmem).2.2

/-- Pages in use that are freed, each of them once. -/
theorem used_foldl_freePage {pages : List ℕ} (hnodup : pages.Nodup)
    (hused : ∀ x ∈ pages, m.pmm.Used x) {y : ℕ} :
    (pages.foldl freePage m).pmm.Used y ↔ m.pmm.Used y ∧ y ∉ pages := by
  induction pages generalizing m with
  | nil => simp
  | cons x pages ih =>
    obtain ⟨hx, hnodup⟩ := nodup_cons.mp hnodup
    obtain ⟨husedx, hused⟩ := forall_mem_cons.mp hused
    have hfree : ∀ {y}, (m.freePage x).pmm.Used y ↔ m.pmm.Used y ∧ y ≠ x :=
      Pmm.freePage_used_iff husedx
    rw [foldl_cons, ih hnodup fun z hz => hfree.mpr ⟨hused z hz, fun heq => hx (heq ▸ hz)⟩,
      hfree, mem_cons, not_or, and_assoc]

/-- The pages that freeing a clone gives back are those that the allocator handed out for it. -/
theorem CloneOk.mem_userPages_iff (h : CloneOk m dst done m') (x : ℕ) :
    x ∈ m'.userPages dst ↔ m'.pmm.Used x ∧ ¬ m.pmm.Used x :=
  mem_userPages.trans h.reaches_iff

theorem CloneOk.used_freeUserPages (h : CloneOk m dst done m') (x : ℕ) :
    (m'.freeUserPages dst).pmm.Used x ↔ m.pmm.Used x := by
  rw [freeUserPages_eq, used_foldl_freePage h.own.nodup_userPages fun x hx =>
    ((h.mem_userPages_iff x).mp hx).1, h.mem_userPages_iff, not_and, not_not]
  refine ⟨fun ⟨hused, himp⟩ => himp hused, fun hused => ⟨?_, fun _ => hused⟩⟩
  exact h.own.owns.used_of_reserved hused

/-- If the whole user half of `src` could be copied, then the clone maps the same pages with the same
flags to copies, which are new pages and all different.  Nothing else has changed; and freeing the
clone gives back the new pages, each of them once. -/
theorem clone_exact (htree : UserTree m src) {cr3 : ℕ} (hnew : m.newAddressSpace cr3 = (dst, m'))
    (hclone : m'.cloneUserPages dst src = (true, m''))
    (hok : m''.tableFailures = m.tableFailures) :
    (∀ virt < 2 ^ 47, m.lookup src virt = none → m''.lookup dst virt = none) ∧
    (∀ virt < 2 ^ 47, ∀ phys flags, m.lookup src virt = some (phys, flags) → ∃ copy,
      m''.lookup dst virt = some (copy, flags) ∧ m.pmm.Free copy ∧ m''.pmm.Used copy ∧
        ∀ off < pageSize, m''.ram (copy + off) = m.ram (phys + off)) ∧
    (∀ virt < 2 ^ 47, ∀ virt' < 2 ^ 47, ∀ copy flags flags',
      m''.lookup dst virt = some (copy, flags) → m''.lookup dst virt' = some (copy, flags') →
        virt / pageSize = virt' / pageSize) ∧
    (∀ virt < 2 ^ 47, ∀ virt' < 2 ^ 47, ∀ copy flags flags',
      m''.lookup dst virt = some (copy, flags) → m.lookup src virt' ≠ some (copy, flags')) ∧
    (∀ virt < 2 ^ 47, m''.lookup src virt = m.lookup src virt) ∧
    (∀ a, ¬ m.pmm.Free (pageOf a) → m''.ram a = m.ram a) ∧
    (m''.userPages dst).Nodup ∧
    (∀ x, x ∈ m''.userPages dst ↔ m''.pmm.Used x ∧ ¬ m.pmm.Used x) ∧
    m''.freeUserPages dst = (m''.userPages dst).foldl freePage m'' ∧
    ∀ x, (m''.freeUserPages dst).pmm.Used x ↔ m.pmm.Used x := by
  have hclone := htree.cloneOk hnew hclone hok
  have hnone : ∀ {virt}, virt < 2 ^ 47 → (m.entryAt src (virtPath virt) = none ↔
      ∀ e, (virtPath virt, e) ∉ m.walkPaths false 3 src 256) := by
    intro virt hvirt
    rw [eq_none_iff_forall_ne_some]
    refine forall_congr' fun e => not_congr ?_
    rw [mem_walkPaths]
    exact ⟨fun h => ⟨indices_virtPath hvirt, Or.inl rfl, h⟩, fun h => h.2.2⟩
  have hfresh : ∀ {virt copy flags}, virt < 2 ^ 47 → m''.lookup dst virt = some (copy, flags) →
      m''.pmm.Used copy ∧ m.pmm.Free copy := by
    intro virt copy flags hvirt hcopy
    obtain ⟨hused, hnot⟩ := hclone.reaches_iff.mp ⟨_, hclone.reaches_of_lookup hvirt hcopy⟩
    exact ⟨hused, hclone.free_of_used hused hnot⟩
  refine ⟨fun virt hvirt h => ?_, fun virt hvirt phys flags h => ?_, ?_, ?_, fun virt hvirt => ?_,
    fun a ha => hclone.unchanged ha, hclone.own.nodup_userPages, hclone.mem_userPages_iff,
    freeUserPages_eq m'' dst, hclone.used_freeUserPages⟩
  · rw [htree.lookup_eq hvirt, map_eq_none_iff, hnone hvirt] at h
    exact hclone.vacant virt hvirt h
  · have hflags := htree.flags virt hvirt phys flags h
    rw [htree.lookup_eq hvirt] at h
    obtain ⟨e, hentry, heq⟩ := map_eq_some_iff.mp h
    obtain ⟨rfl, rfl⟩ := Prod.mk.inj heq
    obtain ⟨copy, hcopy, -, hcontents⟩ := hclone.copies virt hvirt e
      (mem_walkPaths.mpr ⟨indices_virtPath hvirt, Or.inl rfl, hentry⟩)
    rw [flags_eq_mod hflags]
    obtain ⟨hused, hfree⟩ := hfresh hvirt hcopy
    exact ⟨copy, hcopy, hfree, hused, hcontents⟩
  · intro virt hvirt virt' hvirt' copy flags flags' hcopy hcopy'
    obtain ⟨-, hpath⟩ := hclone.own.owns.unique (hclone.reaches_of_lookup hvirt hcopy)
      (hclone.reaches_of_lookup hvirt' hcopy')
    refine (tablePath_eq_iff hvirt' hvirt).mp ?_
    simp only [virtPath, List.cons.injEq, and_true] at hpath
    simp [tablePath, hpath]
  · intro virt hvirt virt' hvirt' copy flags flags' hcopy hsrc
    exact htree.pages virt' hvirt' copy flags' hsrc (hfresh hvirt hcopy).2
  · exact htree.lookup_of_kept hclone.kept hvirt

end Clone

/-- The memory of `upperHalf` with one more page in use. -/
def upperHalfData : PhysMemory := { upperHalf with pmm := ⟨fun page => page < 4, 96, 92, 0⟩ }

theorem upperHalfData_kernelMapped : upperHalfData.KernelMapped 4096 := by
  refine ⟨⟨by decide, by decide, by decide⟩, ⟨1, by decide⟩, fun t ht => ?_⟩
  have ht : upperHalf.KernelTable 4096 t := ht
  rw [upperHalf_kernelTable ht]
  exact ⟨2, by decide⟩

/-- An address space in which the page at 12288 is mapped, and no other. -/
theorem userTree_of_one_page {m : PhysMemory} (hm : m.KernelMapped 4096) {virt pml4 : ℕ} {s : Spaces}
    (hs : s = [.newAddressSpace none, .map 0 virt 12288 7].foldl (Spaces.call 4096) ⟨m, []⟩)
    (hvalid : (SpaceCall.map 0 virt 12288 7).Valid) (hok : s.mem.tableFailures = m.tableFailures)
    (hroot : s.roots 0 = some pml4) (htest : s.mem.pmm.test 3 = true) : UserTree s.mem pml4 := by
  have hspaces : SpacesOk m 4096 s
      [Function.update AddressMap.empty (virt / pageSize) (some (12288, 7))] := by
    rw [hs] at hok ⊢
    refine (spacesOk_nil hm.sound 4096).calls hm (fun c hc => ?_) hok
    rcases mem_pair.mp hc with rfl | rfl
    · trivial
    · exact hvalid
  refine hspaces.userTree hroot rfl fun page phys flags h => ?_
  by_cases hpage : page = virt / pageSize
  · rw [hpage, update_self] at h
    obtain ⟨rfl, rfl⟩ := Prod.mk.inj (some.inj h)
    refine ⟨by decide, ?_⟩
    rintro ⟨page, heq, -, hfree⟩
    obtain rfl : page = 3 := by
      unfold pageSize at heq
      omega
    rw [htest] at hfree
    cases hfree
  · rw [update_of_ne hpage] at h
    cases h

/-- An address space with one page. -/
def onePage : Spaces :=
  [.newAddressSpace none, .map 0 0x7FFFFFFFF000 12288 7].foldl (Spaces.call 4096) ⟨upperHalfData, []⟩

theorem onePage_userTree : UserTree onePage.mem 16384 :=
  userTree_of_one_page upperHalfData_kernelMapped rfl (by simp [SpaceCall.Valid, pageSize])
    (by decide +kernel) (by decide +kernel) (by decide +kernel)

theorem onePage_clone : (onePage.mem.newAddressSpace 4096).1 = 32768 ∧
    ((onePage.mem.newAddressSpace 4096).2.cloneUserPages 32768 16384).1 = true ∧
    ((onePage.mem.newAddressSpace 4096).2.cloneUserPages 32768 16384).2.tableFailures =
      onePage.mem.tableFailures := by
  decide +kernel

/-- The theorem with an address space of one page. -/
theorem clone_exact_of_one_page : ∃ m' m'', onePage.mem.newAddressSpace 4096 = (32768, m') ∧
    m'.cloneUserPages 32768 16384 = (true, m'') ∧
    (∃ copy, m''.lookup 32768 0x7FFFFFFFF000 = some (copy, 7) ∧ onePage.mem.pmm.Free copy) ∧
      ∀ x, (m''.freeUserPages 32768).pmm.Used x ↔ onePage.mem.pmm.Used x := by
  obtain ⟨hdst, htrue, hok⟩ := onePage_clone
  have hlookup : onePage.mem.lookup 16384 0x7FFFFFFFF000 = some (12288, 7) := by decide +kernel
  rcases hnew : onePage.mem.newAddressSpace 4096 with ⟨dst, m'⟩
  simp only [hnew] at hdst htrue hok
  subst hdst
  rcases hclone : m'.cloneUserPages 32768 16384 with ⟨ok, m''⟩
  simp only [hclone] at htrue hok
  subst htrue
  obtain ⟨-, hcopies, -, -, -, -, -, -, -, hfreed⟩ := clone_exact onePage_userTree hnew hclone hok
  obtain ⟨copy, hcopy, hfree, -⟩ := hcopies _ (by decide) _ _ hlookup
  exact ⟨m', m'', rfl, hclone, ⟨copy, hcopy, hfree⟩, hfreed⟩

end PhysMemory

end AnssOS
