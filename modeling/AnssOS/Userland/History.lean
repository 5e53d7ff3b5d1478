import AnssOS.Foundation.Transition
import AnssOS.Foundation.Utf8

/-!
# The shells' history file

Every shell loads `/.sh_history` once, when it starts, and from then on keeps its own copy.  After each
command it writes its whole copy over the file.

### Outline

* `remember`: a bounded list in which a repeated command moves to the end;
* `loadHistory`, `History.add` and `History.save`, and the system of all the shells;
* `history_complete`: nothing is lost as long as each shell's copy is current when it adds a command;
* `history_overwritten`: two shells, one of which writes over the other's command.
-/

namespace AnssOS

open List Option Function

/-! ### The most recent commands -/

section Remember

variable {α : Type*} [DecidableEq α]

/-- A command goes to the end of a list of at most `max` commands, the first of which is dropped if
there are too many. -/
def remember (max : ℕ) (items : List α) (c : α) : List α :=
  let items := items.filter (· ≠ c) ++ [c]
  if max < items.length then items.tail else items

variable {max : ℕ} {items : List α}

theorem length_remember_le (c : α) (h : items.length ≤ max) :
    (remember max items c).length ≤ max := by
  have := length_filter_le (fun d => decide (d ≠ c)) items
  unfold remember
  dsimp only
  split
  · rw [length_tail, length_append, length_singleton]
    omega
  · omega

theorem mem_of_mem_remember {c d : α} (h : d ∈ remember max items c) :
    d ∈ items ∨ d = c := by
  have hsub : remember max items c ⊆ items.filter (· ≠ c) ++ [c] := by
    unfold remember
    dsimp only
    split
    · exact tail_subset _
    · exact Subset.refl _
  rcases mem_append.mp (hsub h) with h | h
  · exact Or.inl (mem_of_mem_filter h)
  · exact Or.inr (mem_singleton.mp h)

/-- The list ends with the commands `recent`, each of them once. -/
def EndsWith (items : List α) (recent : Finset α) : Prop :=
  ∃ old new : List α, items = old ++ new ∧ new.Nodup ∧ new.toFinset = recent

/-- If the commands that count are no more than `max`, then none of them is dropped. -/
theorem EndsWith.remember {recent : Finset α} {c : α}
    (h : EndsWith items recent) (hcard : (insert c recent).card ≤ max) :
    EndsWith (remember max items c) (insert c recent) := by
  obtain ⟨old, new, rfl, hnodup, rfl⟩ := h
  have hnew : (new.filter (· ≠ c) ++ [c]).Nodup := by
    refine (hnodup.filter _).append (nodup_singleton c) fun d hd hc => ?_
    rw [mem_singleton.mp hc] at hd
    simp at hd
  have hset : (new.filter (· ≠ c) ++ [c]).toFinset = insert c new.toFinset := by
    ext d
    by_cases hd : d = c <;> simp [hd]
  have hlen : (new.filter (· ≠ c) ++ [c]).length ≤ max := by
    rwa [← toFinset_card_of_nodup hnew, hset]
  have hsplit : (old ++ new).filter (· ≠ c) ++ [c] =
      old.filter (· ≠ c) ++ (new.filter (· ≠ c) ++ [c]) := by
    rw [filter_append, List.append_assoc]
  unfold AnssOS.remember
  rw [hsplit]
  dsimp only
  split
  · rename_i hlong
    -- there is an older command that can be dropped
    have hold : old.filter (· ≠ c) ≠ [] := by
      intro hnil
      rw [hnil, nil_append] at hlong
      omega
    exact ⟨_, _, tail_append_of_ne_nil hold, hnew, hset⟩
  · exact ⟨_, _, rfl, hnew, hset⟩

end Remember

/-! ### The history of one shell -/

/-- `char::is_whitespace`. -/
def isWhitespace (c : Char) : Bool :=
  let v := c.toNat
  (9 ≤ v && v ≤ 13) || v = 0x20 || v = 0x85 || v = 0xA0 || v = 0x1680 || (0x2000 ≤ v && v ≤ 0x200A) ||
    v = 0x2028 || v = 0x2029 || v = 0x202F || v = 0x205F || v = 0x3000

/-- `str::trim`. -/
def trim (s : Text) : Text := (s.dropWhile isWhitespace).rdropWhile isWhitespace

variable {s : Text} {items : List Text}

theorem trim_eq_nil_iff : trim s = [] ↔ ∀ c ∈ s, isWhitespace c = true := by
  rw [trim, rdropWhile_eq_nil_iff]
  constructor
  · intro h c hc
    rw [← takeWhile_append_dropWhile (p := isWhitespace) (l := s)] at hc
    rcases mem_append.mp hc with hc | hc
    · exact mem_takeWhile_imp hc
    · exact h c hc
  · exact fun h c hc => h c ((dropWhile_suffix _).subset hc)

theorem trim_trim_ne_nil (h : trim s ≠ []) : trim (trim s) ≠ [] := by
  intro hnil
  have hlast := rdropWhile_last_not isWhitespace _ h
  exact hlast (trim_eq_nil_iff.mp hnil _ (getLast_mem h))

/-- The most commands that a shell keeps. -/
def historyMax : ℕ := 500

def newline : UInt8 := 10

/-- What `load` makes of one line of the file. -/
def historyLine (line : List UInt8) : Option Text :=
  (fromUtf8 line).filter fun s => trim s ≠ []

/-- `History::load`, from the bytes of the file, if there is one. -/
def loadHistory (file : Option (List UInt8)) : List Text :=
  let items := (file.map fun bytes => (bytes.splitOn newline).filterMap historyLine).getD []
  items.drop (items.length - historyMax)

/-- The bytes that `History::save` writes. -/
def savedHistory (items : List Text) : List UInt8 :=
  items.flatMap fun l => utf8Bytes l ++ [newline]

/-- `History::add`: the shell's new copy, if there is a command. -/
def addHistory (items : List Text) (line : Text) : Option (List Text) :=
  if trim line = [] then none else some (remember historyMax items (trim line))

/-! ### The shells -/

/-- The file, the copies of the shells that have started, and all commands that any of them has
added, which is what the file is compared with. -/
structure Shells where
  file : Option (List UInt8)
  items : ℕ → Option (List Text)
  added : Finset Text

inductive ShellEvent
  | load (shell : ℕ)
  | add (shell : ℕ) (line : Text)

/-- A shell loads the file when it starts; it adds a command and rewrites the file in one step. -/
def Shells.step (s : Shells) : ShellEvent → Option Shells
  | .load i =>
      match s.items i with
      | some _ => none
      | none => some { s with items := Function.update s.items i (some (loadHistory s.file)) }
  | .add i line =>
      match s.items i with
      | none => none
      | some items =>
          match addHistory items line with
          | none => some s
          | some items => some {
              file := some (savedHistory items)
              items := Function.update s.items i (some items)
              added := insert (trim line) s.added }

/-- No shell has started. -/
def shells : TransitionSystem Shells ShellEvent where
  init s := (∀ i, s.items i = none) ∧ s.added = ∅
  step := Shells.step

/-- One of the lines of the file is the command. -/
def Shells.Contains (s : Shells) (c : Text) : Prop :=
  ∃ bytes ∈ s.file, utf8Bytes c ∈ bytes.splitOn newline

instance (s : Shells) (c : Text) : Decidable (s.Contains c) :=
  inferInstanceAs (Decidable (∃ bytes ∈ s.file, _))

/-- The shell's copy is current: the file is what it has written, or what it would read now is what
it has. -/
def Shells.Current (s : Shells) (i : ℕ) : Prop :=
  ∃ items ∈ s.items i, s.file = some (savedHistory items) ∨ loadHistory s.file = items

instance (s : Shells) (i : ℕ) : Decidable (s.Current i) :=
  inferInstanceAs (Decidable (∃ items ∈ s.items i, _))

/-- A command is a single line, and is added by a shell whose copy is current. -/
def Shells.addsCurrent (s : Shells) : ShellEvent → Prop
  | .load _ => True
  | .add i line => s.Current i ∧ '\n' ∉ trim line

instance (s : Shells) : (e : ShellEvent) → Decidable (s.addsCurrent e)
  | .load _ => inferInstanceAs (Decidable True)
  | .add i line => inferInstanceAs (Decidable (s.Current i ∧ '\n' ∉ trim line))

/-! ### Lines -/

/-- The lines that a shell can keep. -/
def IsLine (l : Text) : Prop := '\n' ∉ l ∧ trim l ≠ []

theorem newline_mem_utf8EncodeChar {c : Char} (h : newline ∈ String.utf8EncodeChar c) : c = '\n' := by
  have hbyte : ∀ {n : ℕ}, n < 256 → newline = UInt8.ofNat n → n = 10 := by
    intro n hn heq
    have := congrArg UInt8.toNat heq
    rw [UInt8.toNat_ofNat', Nat.mod_eq_of_lt hn] at this
    exact this.symm
  -- all bytes of the longer encodings are above 127
  have habove : ∀ {n : ℕ}, 127 < n → n < 256 → newline ≠ UInt8.ofNat n := by
    intro n hlt hn heq
    have := hbyte hn heq
    omega
  unfold String.utf8EncodeChar at h
  dsimp only at h
  split at h
  · have hval := hbyte (by omega) (mem_singleton.mp h)
    exact Char.ext (UInt32.toNat_inj.mp hval)
  · split_ifs at h <;> simp only [mem_cons, not_mem_nil, or_false] at h
    · rcases h with h | h <;> exact absurd h (habove (by omega) (by omega))
    · rcases h with h | h | h <;> exact absurd h (habove (by omega) (by omega))
    · rcases h with h | h | h | h <;> exact absurd h (habove (by omega) (by omega))

theorem newline_mem_utf8Bytes : newline ∈ utf8Bytes s ↔ '\n' ∈ s := by
  rw [utf8Bytes, mem_flatMap]
  constructor
  · rintro ⟨c, hc, hmem⟩
    rwa [← newline_mem_utf8EncodeChar hmem]
  · exact fun h => ⟨'\n', h, by decide⟩

theorem utf8Bytes_injective : Injective utf8Bytes := by
  intro s t h
  have hs : fromUtf8 (utf8Bytes t) = some s := fromUtf8_eq_some_iff.mpr h
  rw [fromUtf8_eq_some_iff.mpr rfl] at hs
  exact (some.inj hs).symm

theorem not_mem_of_mem_splitOn {a : UInt8} {bytes line : List UInt8} (h : line ∈ bytes.splitOn a) :
    a ∉ line := by
  induction bytes generalizing line with
  | nil =>
    rw [splitOn_nil, mem_singleton] at h
    simp [h]
  | cons b bytes ih =>
    rw [List.splitOn, splitOnP_cons_eq_if_modifyHead] at h
    split at h
    · rcases mem_cons.mp h with rfl | h
      · simp
      · exact ih h
    · rename_i hne
      rcases hsplit : bytes.splitOn a with - | ⟨first, rest⟩
      · exact absurd hsplit (splitOnP_ne_nil _ _)
      · rw [← List.splitOn, hsplit] at h
        rw [hsplit] at ih
        rcases mem_cons.mp h with rfl | h
        · have hfirst := ih mem_cons_self
          have hne : a ≠ b := fun heq => hne (by simp [heq])
          simp [hfirst, hne]
        · exact ih (mem_cons_of_mem _ h)

theorem splitOn_savedHistory (h : ∀ l ∈ items, '\n' ∉ l) :
    (savedHistory items).splitOn newline = items.map utf8Bytes ++ [[]] := by
  induction items with
  | nil => exact splitOn_nil newline
  | cons l items ih =>
    obtain ⟨hl, hitems⟩ := forall_mem_cons.mp h
    have hcons : savedHistory (l :: items) = utf8Bytes l ++ newline :: savedHistory items := by
      simp [savedHistory]
    rw [hcons, splitOn_append_cons_self_of_not_mem (mt newline_mem_utf8Bytes.mp hl), ih hitems]
    rfl

theorem savedHistory_inj {items items' : List Text} (h : ∀ l ∈ items, '\n' ∉ l)
    (h' : ∀ l ∈ items', '\n' ∉ l) (heq : savedHistory items = savedHistory items') :
    items = items' := by
  have hsplit := splitOn_savedHistory h
  rw [heq, splitOn_savedHistory h'] at hsplit
  exact (map_injective_iff.mpr utf8Bytes_injective (append_cancel_right hsplit)).symm

theorem historyLine_eq_some_iff {line : List UInt8} {l : Text} :
    historyLine line = some l ↔ utf8Bytes l = line ∧ trim l ≠ [] := by
  simp [historyLine, filter_eq_some_iff, fromUtf8_eq_some_iff]

/-- A shell starts with at most `historyMax` commands, each of which is a line. -/
theorem loadHistory_spec (file : Option (List UInt8)) :
    (loadHistory file).length ≤ historyMax ∧ ∀ l ∈ loadHistory file, IsLine l := by
  unfold loadHistory
  dsimp only
  refine ⟨by rw [length_drop]; omega, fun l hl => ?_⟩
  have hl := mem_of_mem_drop hl
  cases file with
  | none => cases hl
  | some bytes =>
    obtain ⟨line, hline, heq⟩ := mem_filterMap.mp hl
    obtain ⟨rfl, htrim⟩ := historyLine_eq_some_iff.mp heq
    exact ⟨mt newline_mem_utf8Bytes.mpr (not_mem_of_mem_splitOn hline), htrim⟩

/-- What has been saved can be loaded. -/
theorem loadHistory_savedHistory (hlen : items.length ≤ historyMax)
    (h : ∀ l ∈ items, IsLine l) : loadHistory (some (savedHistory items)) = items := by
  have hlines : ∀ {items : List Text}, (∀ l ∈ items, IsLine l) →
      (items.map utf8Bytes).filterMap historyLine = items := by
    intro items h
    induction items with
    | nil => rfl
    | cons l items ih =>
      obtain ⟨hl, hitems⟩ := forall_mem_cons.mp h
      rw [map_cons, filterMap_cons_some (historyLine_eq_some_iff.mpr ⟨rfl, hl.2⟩),
        ih hitems]
  have hblank : [([] : List UInt8)].filterMap historyLine = [] := by decide
  simp only [loadHistory, map_some, getD_some]
  rw [splitOn_savedHistory fun l hl => (h l hl).1, filterMap_append, hblank, hlines h,
    List.append_nil, Nat.sub_eq_zero_of_le hlen, drop_zero]

/-! ### Runs -/

/-- The file is what some shell has saved, and ends with the commands that have been added. -/
structure Shells.Ok (s : Shells) : Prop where
  lines : ∀ i items, s.items i = some items → items.length ≤ historyMax ∧ ∀ l ∈ items, IsLine l
  file : s.added = ∅ ∨ ∃ items, s.file = some (savedHistory items) ∧ items.length ≤ historyMax ∧
    (∀ l ∈ items, IsLine l) ∧ (s.added.card ≤ historyMax → EndsWith items s.added)

/-- A copy that is current ends with the commands that have been added. -/
theorem Shells.Ok.endsWith {s : Shells} {i : ℕ} (h : s.Ok)
    (hitems : s.items i = some items) (hcurrent : s.Current i) (hcard : s.added.card ≤ historyMax) :
    EndsWith items s.added := by
  rcases h.file with hempty | ⟨saved, hfile, hlen, hlines, hends⟩
  · rw [hempty]
    exact ⟨items, [], (List.append_nil items).symm, nodup_nil, rfl⟩
  · have hsame : saved = items := by
      obtain ⟨items', hmem, hcases⟩ := hcurrent
      obtain rfl : items = items' := some.inj (hitems.symm.trans hmem)
      rw [hfile] at hcases
      rcases hcases with heq | heq
      · exact savedHistory_inj (fun l hl => (hlines l hl).1)
          (fun l hl => ((h.lines i items hitems).2 l hl).1) (some.inj heq)
      · rw [← heq, loadHistory_savedHistory hlen hlines]
    exact hsame ▸ hends hcard

theorem Shells.Ok.step {s s' : Shells} {e : ShellEvent} (h : s.Ok) (hg : s.addsCurrent e)
    (hs : s.step e = some s') : s'.Ok := by
  cases e with
  | load i =>
    simp only [Shells.step] at hs
    split at hs
    · cases hs
    · obtain rfl := some.inj hs
      refine ⟨fun j items hj => ?_, h.file⟩
      by_cases hij : j = i
      · subst hij
        simp only [update_self, Option.some.injEq] at hj
        exact hj ▸ loadHistory_spec s.file
      · simp only [update_of_ne hij] at hj
        exact h.lines j items hj
  | add i line =>
    obtain ⟨hcurrent, hline⟩ := hg
    simp only [Shells.step] at hs
    split at hs
    · cases hs
    rename_i items hitems
    unfold addHistory at hs
    by_cases hblank : trim line = []
    · rw [if_pos hblank] at hs
      exact some.inj hs ▸ h
    rw [if_neg hblank] at hs
    obtain rfl := some.inj hs
    obtain ⟨hlen, hlines⟩ := h.lines i items hitems
    have hlen' := length_remember_le (trim line) hlen
    have hlines' : ∀ l ∈ remember historyMax items (trim line), IsLine l := by
      intro l hl
      rcases mem_of_mem_remember hl with hl | rfl
      · exact hlines l hl
      · exact ⟨hline, trim_trim_ne_nil hblank⟩
    refine ⟨fun j items' hj => ?_, Or.inr ⟨_, rfl, hlen', hlines', fun hcard => ?_⟩⟩
    · by_cases hij : j = i
      · subst hij
        simp only [update_self, Option.some.injEq] at hj
        exact hj ▸ ⟨hlen', hlines'⟩
      · simp only [update_of_ne hij] at hj
        exact h.lines j items' hj
    · have hbefore : s.added.card ≤ historyMax :=
        (Finset.card_le_card (Finset.subset_insert _ _)).trans hcard
      exact (h.endsWith hitems hcurrent hbefore).remember hcard

theorem Shells.Ok.of_reachable {s : Shells} (h : shells.Reachable Shells.addsCurrent s) : s.Ok := by
  refine h.invariant (fun s hinit => ⟨fun i items hi => ?_, Or.inl hinit.2⟩)
    fun s e s' _ hs hg hstep => hs.step hg hstep
  rw [hinit.1 i] at hi
  cases hi

/-- If each shell's copy is current when it adds a command, then the file has all commands that have
been added, as long as these are no more than 500. -/
theorem history_complete {s : Shells} (h : shells.Reachable Shells.addsCurrent s)
    (hcard : s.added.card ≤ 500) (c : Text) (hc : c ∈ s.added) : s.Contains c := by
  rcases (Shells.Ok.of_reachable h).file with hempty | ⟨items, hfile, -, hlines, hends⟩
  · rw [hempty] at hc
    cases hc
  · obtain ⟨old, new, rfl, -, hset⟩ := hends hcard
    have hmem : c ∈ new := by rwa [← List.mem_toFinset, hset]
    refine ⟨_, hfile, ?_⟩
    rw [splitOn_savedHistory fun l hl => (hlines l hl).1]
    exact mem_append_left _ (List.mem_map_of_mem (mem_append_right old hmem))

/-- The theorem with a second shell that starts after the first has added its command. -/
theorem history_complete_of_two_shells : ∃ s, shells.Reachable Shells.addsCurrent s ∧
    s.added = {"ls".toList, "cd /".toList} ∧ ∀ c ∈ s.added, s.Contains c := by
  obtain ⟨s, hs, hadded⟩ := (shells.restrict Shells.addsCurrent).exists_of_run
    (P := fun s => s.added = {"ls".toList, "cd /".toList}) (s := ⟨none, fun _ => none, ∅⟩)
    ⟨fun _ => rfl, rfl⟩ [.load 0, .add 0 " ls".toList, .load 1, .add 1 "cd /".toList]
    (by decide +kernel)
  have hreach := hs.of_restrict
  refine ⟨s, hreach, hadded, history_complete hreach ?_⟩
  rw [hadded]
  decide

/-- Two shells start with an empty history; each adds a command, and the second writes over that of
the first. -/
theorem history_overwritten : ∃ s, shells.Reachable TransitionSystem.anyStep s ∧
    s.added.card ≤ 500 ∧ "ls".toList ∈ s.added ∧ ¬ s.Contains "ls".toList := by
  refine shells.exists_of_run (s := ⟨none, fun _ => none, ∅⟩) ⟨fun _ => rfl, rfl⟩
    [.load 0, .load 1, .add 0 "ls".toList, .add 1 "cd /".toList] ?_
  decide +kernel

end AnssOS
