import AnssOS.Userland.History

/-!
# Walking through the history

The Up and Down keys of the shell's line editor.  The editor keeps the index of the entry it shows
and the line that was typed before the walk began, and searches the history anew at each key.  What
it shows is a walk through the typed line and the entries that extend it, the newest first, clamped
at both ends.

### Outline

* `searchHistory`, `LineEditor.history`: the search, and what a key does;
* `matching`: the indices that a search can find, in the order of the walk;
* `LineEditor.At`: the editor shows the line number `k` of the walk, and `history_clamped`.
-/

namespace AnssOS

/-- The condition of `History::search` on the entry number `i`. -/
def extendsAt (items : List Text) (pre : Text) (i : ℕ) : Bool :=
  items[i]?.any fun l => pre.isPrefixOf l && l != pre

/-- `History::search`: the next entry that extends `pre`, older or newer than the index `start`. -/
def searchHistory (items : List Text) (pre : Text) (start : Option ℕ) (older : Bool) : Option ℕ :=
  if older then (List.range (start.getD items.length)).reverse.find? (extendsAt items pre)
  else start.bind fun i =>
    (List.range' (i + 1) (items.length - (i + 1))).find? (extendsAt items pre)

/-- The line, the cursor in it in bytes, and the state of a walk through the history. -/
structure LineEditor where
  buf : Text
  cur : ℕ
  histPos : Option ℕ
  histPrefix : Option Text

namespace LineEditor

def setLine (ed : LineEditor) (line : Text) : LineEditor :=
  { ed with buf := line, cur := (utf8Bytes line).length }

/-- `Editor::history`.  There is no result if the index is out of bounds, which panics. -/
def history (items : List Text) (ed : LineEditor) (older : Bool) : Option LineEditor :=
  let pre := ed.histPrefix.getD ed.buf
  let ed := { ed with histPrefix := some pre }
  match searchHistory items pre ed.histPos older with
  | some i => items[i]?.map { ed with histPos := some i }.setLine
  | none =>
      if older = false ∧ ed.histPos.isSome then some ({ ed with histPos := none }.setLine pre)
      else some ed

end LineEditor

inductive HistoryKey
  | up
  | down
  deriving DecidableEq

/-- What `Editor::handle` does with the keys while no completion list is open. -/
def LineEditor.press (items : List Text) (ed : LineEditor) : HistoryKey → Option LineEditor
  | .up => ed.history items true
  | .down => ed.history items false

/-! ### The walk -/

/-- The entries that a search for `typed` can find, newest first. -/
def extensions (items : List Text) (typed : Text) : List Text :=
  items.reverse.filter fun l => typed.isPrefixOf l && l != typed

/-- A position between `0` and `last`, moved by a key. -/
def walkStep (last k : ℕ) : HistoryKey → ℕ
  | .up => min (k + 1) last
  | .down => k - 1

def clampedWalk (last : ℕ) (keys : List HistoryKey) : ℕ := keys.foldl (walkStep last) 0

/-- The indices below `n` with the property `p`, from the largest on. -/
def matching (p : ℕ → Bool) (n : ℕ) : List ℕ := (List.range n).reverse.filter p

theorem matching_succ (p : ℕ → Bool) (n : ℕ) :
    matching p (n + 1) = if p n then n :: matching p n else matching p n := by
  rw [matching, List.range_succ, List.reverse_append, List.reverse_singleton, List.singleton_append,
    List.filter_cons]
  rfl

/-- Below an index that is found the list goes on, and above it the one before is the next. -/
theorem matching_around {p : ℕ → Bool} {n k i : ℕ} (h : (matching p n)[k]? = some i) :
    matching p i = (matching p n).drop (k + 1) ∧
      (List.range' (i + 1) (n - (i + 1))).find? p =
        if k = 0 then none else (matching p n)[k - 1]? := by
  induction n generalizing k with
  | zero => simp [matching] at h
  | succ n ih =>
    have hlast : ∀ {k}, (matching p n)[k]? = some i →
        (List.range' (i + 1) (n + 1 - (i + 1))).find? p =
          (if k = 0 then none else (matching p n)[k - 1]?).or (if p n then some n else none) := by
      intro k h
      have hlt : i < n := by simpa using (List.mem_filter.mp (List.mem_of_getElem? h)).1
      rw [show n + 1 - (i + 1) = n - (i + 1) + 1 by omega, List.range'_1_concat, List.find?_append,
        (ih h).2, show i + 1 + (n - (i + 1)) = n by omega, List.find?_singleton]
    rw [matching_succ] at h ⊢
    by_cases hn : p n = true
    · rw [if_pos hn] at h ⊢
      cases k with
      | zero =>
        obtain rfl := Option.some.inj h
        simp
      | succ k =>
        rw [List.getElem?_cons_succ] at h
        refine ⟨by rw [(ih h).1, List.drop_succ_cons], ?_⟩
        rw [hlast h, if_pos hn]
        cases k with
        | zero => rfl
        | succ k =>
          have hk := (List.getElem?_eq_some_iff.mp h).1
          simp [List.getElem?_eq_getElem (Nat.lt_of_succ_lt hk)]
    · rw [if_neg hn] at h ⊢
      exact ⟨(ih h).1, by rw [hlast h, if_neg hn, Option.or_none]⟩

/-- The indices of the entries in a walk, newest first. -/
def walked (items : List Text) (typed : Text) : List ℕ :=
  matching (extendsAt items typed) items.length

variable {items : List Text} {typed : Text}

/-- The indices found lead to the entries of the walk. -/
theorem map_walked (items : List Text) (typed : Text) :
    (walked items typed).map (items[·]?) = (extensions items typed).map some := by
  have hall : (List.range items.length).map (items[·]?) = items.map some := by
    refine List.ext_getElem (by simp) fun i hi hi' => ?_
    simp
  have hfilter : walked items typed =
      (List.range items.length).reverse.filter
        ((fun o : Option Text => o.any fun l => typed.isPrefixOf l && l != typed) ∘
          (items[·]?)) := rfl
  rw [hfilter, ← List.filter_map, List.map_reverse, hall, ← List.map_reverse, List.filter_map]
  rfl

theorem length_walked (items : List Text) (typed : Text) :
    (walked items typed).length = (extensions items typed).length := by
  simpa using congrArg List.length (map_walked items typed)

theorem getElem?_of_walked {k i : ℕ} (h : (walked items typed)[k]? = some i) :
    ∃ l, items[i]? = some l ∧ (extensions items typed)[k]? = some l := by
  have hmap := congrArg (·[k]?) (map_walked items typed)
  simp only [List.getElem?_map, h, Option.map_some] at hmap
  obtain ⟨l, hl, heq⟩ := Option.map_eq_some_iff.mp hmap.symm
  exact ⟨l, heq.symm, hl⟩

namespace LineEditor

/-- The editor shows the line number `k` of the walk, and knows its index. -/
structure At (items : List Text) (typed : Text) (k : ℕ) (ed : LineEditor) : Prop where
  start : ed.histPrefix.getD ed.buf = typed
  index : ed.histPos = if k = 0 then none else (walked items typed)[k - 1]?
  shown : (typed :: extensions items typed)[k]? = some ed.buf

variable {k : ℕ} {ed : LineEditor}

theorem At.histPos (h : ed.At items typed (k + 1)) :
    ∃ i, (walked items typed)[k]? = some i ∧ ed.histPos = some i := by
  have hk := (List.getElem?_eq_some_iff.mp h.shown).1
  rw [List.length_cons, ← length_walked] at hk
  have hget := List.getElem?_eq_getElem (Nat.lt_of_succ_lt_succ hk)
  exact ⟨_, hget, h.index.trans hget⟩

section

variable (h : ed.At items typed k)

include h

/-- An older entry is found as long as there is one in the walk. -/
theorem At.search_older : searchHistory items typed ed.histPos true =
    (walked items typed)[k]? := by
  rw [searchHistory, if_pos rfl, ← List.head?_filter]
  cases k with
  | zero =>
    rw [show ed.histPos = none from h.index]
    exact List.head?_eq_getElem?
  | succ k =>
    obtain ⟨i, hget, hpos⟩ := h.histPos
    rw [hpos, Option.getD_some]
    change (matching _ _).head? = _
    rw [(matching_around hget).1, List.head?_drop]
    rfl

/-- A newer entry is found as long as the walk is behind it. -/
theorem At.search_newer : searchHistory items typed ed.histPos false =
    if k ≤ 1 then none else (walked items typed)[k - 2]? := by
  rw [searchHistory, if_neg Bool.false_ne_true]
  cases k with
  | zero =>
    rw [show ed.histPos = none from h.index]
    rfl
  | succ k =>
    obtain ⟨i, hget, hpos⟩ := h.histPos
    rw [hpos, Option.bind_some, (matching_around hget).2]
    cases k with
    | zero => rfl
    | succ k => simp [walked]

/-- A search that finds the entry number `j` of the walk leads there. -/
theorem At.found {j : ℕ} {older : Bool}
    (hsearch : searchHistory items typed ed.histPos older = (walked items typed)[j]?)
    (hj : j < (extensions items typed).length) :
    ∃ ed', ed.history items older = some ed' ∧ ed'.At items typed (j + 1) := by
  rw [← length_walked] at hj
  have hget := List.getElem?_eq_getElem hj
  obtain ⟨l, hl, hshown⟩ := getElem?_of_walked hget
  refine ⟨{ ed with histPos := some _, histPrefix := some typed }.setLine l, ?_,
    ⟨rfl, hget.symm, by rw [List.getElem?_cons_succ, hshown]; rfl⟩⟩
  simp [history, h.start, hsearch, hget, hl]

theorem At.up : ∃ ed', ed.history items true = some ed' ∧
    ed'.At items typed (min (k + 1) (extensions items typed).length) := by
  by_cases hk : k < (extensions items typed).length
  · rw [min_eq_left hk]
    exact h.found h.search_older hk
  · have hlast := (List.getElem?_eq_some_iff.mp h.shown).1
    rw [List.length_cons] at hlast
    obtain rfl : k = (extensions items typed).length := by omega
    rw [min_eq_right (by omega)]
    have hnone := h.search_older
    rw [List.getElem?_eq_none (length_walked items typed).le] at hnone
    refine ⟨{ ed with histPrefix := some typed }, ?_, ⟨rfl, h.index, h.shown⟩⟩
    simp [history, h.start, hnone]

theorem At.down : ∃ ed', ed.history items false = some ed' ∧
    ed'.At items typed (k - 1) := by
  match k, h with
  | 0, h =>
    have hpos : ed.histPos = none := h.index
    refine ⟨{ ed with histPrefix := some typed }, ?_, ⟨rfl, h.index, h.shown⟩⟩
    simp [history, h.start, hpos, searchHistory]
  | 1, h =>
    obtain ⟨i, -, hpos⟩ := h.histPos
    have hnone : searchHistory items typed ed.histPos false = none := h.search_newer
    refine ⟨{ ed with histPrefix := some typed, histPos := none }.setLine typed, ?_,
      ⟨rfl, rfl, rfl⟩⟩
    rw [hpos] at hnone
    simp [history, h.start, hpos, hnone]
  | k + 2, h =>
    have hk := (List.getElem?_eq_some_iff.mp h.shown).1
    rw [List.length_cons] at hk
    exact h.found h.search_newer (by omega)

/-- What a key does to the position in the walk. -/
theorem At.press (key : HistoryKey) :
    ∃ ed', ed.press items key = some ed' ∧
      ed'.At items typed (walkStep (extensions items typed).length k key) := by
  cases key with
  | up => exact h.up
  | down => exact h.down

theorem At.run (keys : List HistoryKey) :
    ∃ ed', keys.foldlM (LineEditor.press items) ed = some ed' ∧
      ed'.At items typed (keys.foldl (walkStep (extensions items typed).length) k) := by
  induction keys generalizing ed k with
  | nil => exact ⟨ed, rfl, h⟩
  | cons key keys ih =>
    obtain ⟨ed₁, hpress, h₁⟩ := h.press key
    obtain ⟨ed', hrun, h'⟩ := ih h₁
    exact ⟨ed', by rw [List.foldlM_cons, hpress]; exact hrun, h'⟩

end
end LineEditor

open HistoryKey (up down)

/-- Each Down takes back an Up. -/
theorem clampedWalk_downs (last : ℕ) (keys : List HistoryKey) (n : ℕ) :
    clampedWalk last (keys ++ List.replicate (keys.count up + n) down) = 0 := by
  have hdowns : ∀ n k, (List.replicate n .down).foldl (walkStep last) k = k - n := by
    intro n
    induction n with
    | zero => exact fun k => rfl
    | succ n ih =>
      intro k
      rw [List.replicate_succ, List.foldl_cons, ih, walkStep]
      omega
  have hups : clampedWalk last keys ≤ keys.count up := by
    induction keys using List.reverseRecOn with
    | nil => exact le_rfl
    | append_singleton keys key ih =>
      rw [clampedWalk, List.foldl_append, List.count_append, ← clampedWalk]
      cases key with
      | up => exact (min_le_left _ _).trans (Nat.succ_le_succ ih)
      | down => exact (Nat.sub_le _ _).trans ih
  rw [clampedWalk, List.foldl_append, hdowns, ← clampedWalk]
  omega

/-- After any Up and Down keys, the editor shows the line at the clamped position of the walk
through the typed line and the entries that extend it.  As many Downs as there were Ups bring back
the typed line. -/
theorem history_clamped (items : List Text) (typed : Text) (cur : ℕ) (keys : List HistoryKey) :
    (∃ ed, keys.foldlM (LineEditor.press items) ⟨typed, cur, none, none⟩ = some ed ∧
      (typed :: extensions items typed)[clampedWalk (extensions items typed).length keys]? =
        some ed.buf) ∧
    ∀ n, ∃ ed, (keys ++ List.replicate (keys.count up + n) down).foldlM
      (LineEditor.press items) ⟨typed, cur, none, none⟩ = some ed ∧ ed.buf = typed := by
  have hstart : LineEditor.At items typed 0 ⟨typed, cur, none, none⟩ := ⟨rfl, rfl, rfl⟩
  constructor
  · obtain ⟨ed, hrun, h⟩ := hstart.run keys
    exact ⟨ed, hrun, h.shown⟩
  · intro n
    obtain ⟨ed, hrun, h⟩ := hstart.run (keys ++ List.replicate (keys.count up + n) down)
    have hshown := h.shown
    rw [← clampedWalk, clampedWalk_downs] at hshown
    exact ⟨ed, hrun, (Option.some.inj hshown).symm⟩

end AnssOS
