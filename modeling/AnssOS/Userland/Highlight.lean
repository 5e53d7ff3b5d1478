import AnssOS.Userland.Words

/-!
# The colour of the command word

The model of `colors` in `userland/rust/sh/src/highlight.rs`, which splits the line in its own way,
and of how `run` in `userland/rust/sh/src/commands.rs` finds what to execute.  Lines are printable
ASCII here, so that a byte is a character.

### Outline

* `colors`, `dispatch`: the two functions;
* `scanWord`, `unquote`: how far `split_words` takes the first word, and what it makes of it;
* `PlainCommand`: the lines on which the two agree;
* `highlight_predicts_iff`: the colour is right on just these lines.
-/

namespace AnssOS

open List Option

/-! ### Commands -/

/-- What the shell asks the filesystem: whether a path is that of a program, and of anything. -/
structure ShellFs where
  isProgram : List Char → Bool
  pathExists : List Char → Bool

/-- The names in `BUILTINS`. -/
def builtins : List String :=
  ["cd", "pwd", "ls", "cat", "echo", "write", "mkdir", "touch", "rm", "cp", "mv", "create",
    "delete", "copy", "move", "sync", "clear", "history", "configure", "help", "exit"]

/-- `is_builtin`. -/
def isBuiltin (name : List Char) : Bool := builtins.any fun b => b.toList = name

/-- `resolve_program`. -/
def resolveProgram (fs : ShellFs) (name : List Char) : Option (List Char) :=
  if name = [] then none
  else (if '/' ∈ name then [name] else [name, "/bin/".toList ++ name]).find? fs.isProgram

/-- The names that `run` has an arm for, in the order of its arms. -/
def runArms : List String :=
  ["exit", "cd", "pwd", "ls", "cat", "echo", "write", "mkdir", "touch", "rm", "delete", "cp",
    "copy", "mv", "move", "create", "sync", "clear", "history", "help", "configure"]

/-- What `run` comes to. -/
inductive Dispatch where
  | nothing
  | builtin (name : List Char)
  | program (path : List Char)
  | notFound

/-- How `run` goes on after it has split the line. -/
def dispatch (fs : ShellFs) (line : List Char) : Dispatch :=
  match splitWords line with
  | [] => .nothing
  | cmd :: _ =>
      if runArms.any fun b => b.toList = cmd then .builtin cmd
      else
        match resolveProgram fs cmd with
        | some path => .program path
        | none => .notFound

/-- A builtin is executed, or a program is found. -/
def Dispatch.Runs : Dispatch → Prop
  | .builtin _ => True
  | .program _ => True
  | .nothing => False
  | .notFound => False

instance (d : Dispatch) : Decidable d.Runs :=
  match d with
  | .builtin _ => .isTrue trivial
  | .program _ => .isTrue trivial
  | .nothing => .isFalse id
  | .notFound => .isFalse id

/-! ### Colours -/

/-- The colours that `colors` uses. -/
inductive WordColor where
  | reset
  | command
  | error
  | option
  | path
  deriving DecidableEq

/-- The inner loop of `colors`: what belongs to the word, and the rest. -/
def takeColored (quote : Option Char) : List Char → List Char × List Char
  | [] => ([], [])
  | c :: cs =>
      match quote with
      | some q =>
          if c = q then ([c], cs) else ((c :: (takeColored quote cs).1), (takeColored quote cs).2)
      | none =>
          if c = ' ' then ([], c :: cs)
          else ((c :: (takeColored quote cs).1), (takeColored quote cs).2)

/-- `trim_matches` with the quotes. -/
def trimQuotes (w : List Char) : List Char := (w.dropWhile isQuote).rdropWhile isQuote

/-- The colour of a word. -/
def wordColor (fs : ShellFs) (first : Bool) (word : List Char) : WordColor :=
  if first then
    if isBuiltin word || (resolveProgram fs word).isSome then .command else .error
  else if word.head? = some '-' then .option
  else if fs.pathExists word then .path
  else .reset

/-- The outer loop of `colors`, with at most `n` rounds. -/
def colorsFrom (fs : ShellFs) : ℕ → Bool → List Char → List WordColor
  | _, _, [] => []
  | 0, _, line => line.map fun _ => .reset
  | n + 1, first, c :: cs =>
      if c = ' ' then .reset :: colorsFrom fs n first cs
      else
        let word := takeColored (if isQuote c then some c else none) cs
        List.replicate (word.1.length + 1) (wordColor fs first (trimQuotes (c :: word.1))) ++
          colorsFrom fs n false word.2

/-- `colors`: one colour for each character. -/
def colors (fs : ShellFs) (line : List Char) : List WordColor := colorsFrom fs line.length true line

/-- The character with index `i` is part of the first word of `split_words`. -/
def InFirstWord (line : List Char) (i : ℕ) : Prop :=
  ((line.take (i + 1)).foldl Splitter.step ⟨[], [], false, none⟩).words = [] ∧
    ((line.take (i + 1)).foldl Splitter.step ⟨[], [], false, none⟩).inWord = true

/-- The colours say whether the command runs, and show just its characters. -/
structure Predicts (fs : ShellFs) (line : List Char) : Prop where
  runs : WordColor.command ∈ colors fs line ↔ (dispatch fs line).Runs
  shown : ∀ i < line.length,
    ((colors fs line)[i]? = some .command ∨ (colors fs line)[i]? = some .error) ↔
      InFirstWord line i

/-! ### The first word of `split_words` -/

/-- The quote that is open after some characters of a word. -/
def quoteAfter (quote : Option Char) (c : Char) : Option Char :=
  match quote with
  | some q => if c = q then none else some q
  | none => if isQuote c then some c else none

/-- What belongs to the word, and the rest. -/
def scanWord : Option Char → List Char → List Char × List Char
  | _, [] => ([], [])
  | quote, c :: cs =>
      if quote = none ∧ (c = ' ' ∨ c = '\t') then ([], c :: cs)
      else (c :: (scanWord (quoteAfter quote c) cs).1, (scanWord (quoteAfter quote c) cs).2)

/-- The characters of a word without the quotes around them. -/
def unquote : Option Char → List Char → List Char
  | _, [] => []
  | quote, c :: cs =>
      match quote with
      | some q => if c = q then unquote none cs else c :: unquote quote cs
      | none => if isQuote c then unquote (some c) cs else c :: unquote none cs

theorem scanWord_append (quote : Option Char) (line : List Char) :
    (scanWord quote line).1 ++ (scanWord quote line).2 = line := by
  induction line generalizing quote with
  | nil => rfl
  | cons c cs ih =>
    rw [scanWord]
    split
    · rfl
    · exact congrArg (c :: ·) (ih _)

/-- A character that does not end the word. -/
theorem step_inWord {cur : List Char} {quote : Option Char} {c : Char}
    (h : ¬ (quote = none ∧ (c = ' ' ∨ c = '\t'))) :
    Splitter.step ⟨[], cur, true, quote⟩ c =
      ⟨[], cur ++ unquote quote [c], true, quoteAfter quote c⟩ := by
  cases quote with
  | some q => by_cases hc : c = q <;> simp [Splitter.step, unquote, quoteAfter, hc]
  | none =>
    by_cases hq : isQuote c = true
    · simp [Splitter.step, unquote, quoteAfter, hq]
    · have hblank : ¬ (c = ' ' ∨ c = '\t') := fun hblank => h ⟨rfl, hblank⟩
      simp [Splitter.step, unquote, quoteAfter, hq, hblank]

theorem unquote_cons (quote : Option Char) (c : Char) (cs : List Char) :
    unquote quote (c :: cs) = unquote quote [c] ++ unquote (quoteAfter quote c) cs := by
  cases quote with
  | some q => by_cases hc : c = q <;> simp [unquote, quoteAfter, hc]
  | none => by_cases hq : isQuote c = true <;> simp [unquote, quoteAfter, hq]

theorem prefix_words (s : Splitter) (line : List Char) :
    s.words <+: (line.foldl Splitter.step s).words := by
  induction line generalizing s with
  | nil => exact prefix_rfl
  | cons c cs ih =>
    refine IsPrefix.trans ?_ (ih (s.step c))
    unfold Splitter.step
    split
    · split <;> exact prefix_rfl
    · split
      · exact prefix_rfl
      · split
        · split
          · exact prefix_append _ _
          · exact prefix_rfl
        · exact prefix_rfl

/-- The splitter within the first word, and behind it. -/
theorem foldl_word (cur : List Char) (quote : Option Char) (line : List Char) (k : ℕ) :
    (k ≤ (scanWord quote line).1.length →
      (line.take k).foldl Splitter.step ⟨[], cur, true, quote⟩ =
        ⟨[], cur ++ unquote quote (line.take k), true, (line.take k).foldl quoteAfter quote⟩) ∧
    ((scanWord quote line).1.length < k → k ≤ line.length →
      [cur ++ unquote quote (scanWord quote line).1] <+:
        ((line.take k).foldl Splitter.step ⟨[], cur, true, quote⟩).words) := by
  induction line generalizing cur quote k with
  | nil => exact ⟨fun _ => by simp [unquote], fun hlt hle => absurd hle (Nat.not_le_of_lt hlt)⟩
  | cons c cs ih =>
    cases k with
    | zero => exact ⟨fun _ => by simp [unquote], fun hlt => absurd hlt (Nat.not_lt_zero _)⟩
    | succ k =>
      rw [scanWord, take_succ_cons, foldl_cons]
      split
      · next hc =>
        obtain ⟨rfl, hblank⟩ := hc
        have hstep : Splitter.step ⟨[], cur, true, none⟩ c = ⟨[cur], [], false, none⟩ := by
          rcases hblank with rfl | rfl <;> rfl
        refine ⟨fun hle => absurd hle (Nat.not_succ_le_zero k), fun _ _ => ?_⟩
        rw [hstep, unquote, List.append_nil]
        exact prefix_words ⟨[cur], [], false, none⟩ (cs.take k)
      · next hc =>
        obtain ⟨hwithin, hbehind⟩ := ih (cur ++ unquote quote [c]) (quoteAfter quote c) k
        rw [step_inWord hc]
        dsimp only
        rw [unquote_cons quote c (cs.take k), unquote_cons quote c (scanWord _ cs).1,
          ← List.append_assoc, ← List.append_assoc]
        exact ⟨fun hle => hwithin (Nat.le_of_succ_le_succ hle),
          fun hlt hle => hbehind (Nat.lt_of_succ_lt_succ hlt) (Nat.le_of_succ_le_succ hle)⟩

/-! ### The first word of a line -/

section FirstWord

variable {blanks : List Char} (hblanks : ∀ b ∈ blanks, b = ' ') {c : Char} {cs : List Char}
  (hc : ¬ (c = ' ' ∨ c = '\t'))

include hblanks in
theorem foldl_blanks : blanks.foldl Splitter.step ⟨[], [], false, none⟩ =
    ⟨[], [], false, none⟩ := by
  induction blanks with
  | nil => rfl
  | cons b blanks ih =>
    obtain ⟨rfl, hrest⟩ := forall_mem_cons.mp hblanks
    exact ih hrest

include hblanks hc in
/-- Before its first character, the word may be taken as begun. -/
theorem foldl_begin (k : ℕ) :
    (blanks ++ (c :: cs).take (k + 1)).foldl Splitter.step ⟨[], [], false, none⟩ =
      ((c :: cs).take (k + 1)).foldl Splitter.step ⟨[], [], true, none⟩ := by
  rw [foldl_append, foldl_blanks hblanks, take_succ_cons, foldl_cons,
    foldl_cons]
  congr 1
  simp [Splitter.step, hc]

include hblanks hc in
theorem splitWords_first : ∃ rest,
    splitWords (blanks ++ c :: cs) = unquote none (scanWord none (c :: cs)).1 :: rest := by
  have hall : (c :: cs).take (cs.length + 1) = c :: cs := take_of_length_le le_rfl
  have hstart : (blanks ++ (c :: cs).take (cs.length + 1)).foldl Splitter.step _ = _ :=
    foldl_begin hblanks hc cs.length
  obtain ⟨hwithin, hbehind⟩ := foldl_word [] none (c :: cs) (cs.length + 1)
  rw [hall] at hstart hwithin hbehind
  have happend := scanWord_append none (c :: cs)
  have hlength := congrArg List.length happend
  rw [length_append, length_cons] at hlength
  rw [splitWords, hstart]
  by_cases hle : cs.length + 1 ≤ (scanWord none (c :: cs)).1.length
  · have hrest : (scanWord none (c :: cs)).2 = [] := length_eq_zero_iff.mp (by omega)
    rw [hrest, List.append_nil] at happend
    rw [hwithin hle, happend]
    exact ⟨[], rfl⟩
  · obtain ⟨more, hmore⟩ := hbehind (by omega) le_rfl
    unfold Splitter.finish
    rw [← hmore]
    split
    · exact ⟨more ++ [_], rfl⟩
    · exact ⟨more, rfl⟩

include hblanks hc in
theorem inFirstWord_iff {i : ℕ} (hi : i < (blanks ++ c :: cs).length) :
    InFirstWord (blanks ++ c :: cs) i ↔
      blanks.length ≤ i ∧ i < blanks.length + (scanWord none (c :: cs)).1.length := by
  unfold InFirstWord
  by_cases hle : blanks.length ≤ i
  · obtain ⟨k, rfl⟩ := Nat.exists_eq_add_of_le hle
    rw [length_append] at hi
    rw [Nat.add_assoc, take_length_add_append, foldl_begin hblanks hc]
    obtain ⟨hwithin, hbehind⟩ := foldl_word [] none (c :: cs) (k + 1)
    by_cases hin : k < (scanWord none (c :: cs)).1.length
    · rw [hwithin hin]
      simp [hin]
    · refine iff_of_false (fun hfirst => ?_) (by omega)
      have hword := hbehind (by omega) (by omega)
      rw [hfirst.1] at hword
      simp at hword
  · refine iff_of_false ?_ (by omega)
    rintro ⟨-, hword⟩
    rw [take_append_of_le_length (by omega),
      foldl_blanks fun b hb => hblanks b (mem_of_mem_take hb)] at hword
    cases hword

end FirstWord

/-! ### The colours of a line -/

/-- What `colors` takes for the first word of `c :: cs`. -/
def coloredWord (c : Char) (cs : List Char) : List Char :=
  c :: (takeColored (if isQuote c then some c else none) cs).1

theorem takeColored_append (quote : Option Char) (cs : List Char) :
    (takeColored quote cs).1 ++ (takeColored quote cs).2 = cs := by
  induction cs with
  | nil => rfl
  | cons c cs ih =>
    cases quote with
    | some q =>
      rw [takeColored]
      split
      · rfl
      · exact congrArg (c :: ·) ih
    | none =>
      rw [takeColored]
      split
      · rfl
      · exact congrArg (c :: ·) ih

theorem coloredWord_append (c : Char) (cs : List Char) :
    coloredWord c cs ++ (takeColored (if isQuote c then some c else none) cs).2 = c :: cs :=
  congrArg (c :: ·) (takeColored_append _ cs)

/-- A name is that of a builtin, or resolves to a program. -/
def found (fs : ShellFs) (name : List Char) : Bool :=
  isBuiltin name || (resolveProgram fs name).isSome

section Colors

variable {fs : ShellFs} {blanks : List Char} (hblanks : ∀ b ∈ blanks, b = ' ')

include hblanks in
theorem colorsFrom_blanks (n : ℕ) (first : Bool) (line : List Char) :
    colorsFrom fs (blanks.length + n) first (blanks ++ line) =
      List.replicate blanks.length .reset ++ colorsFrom fs n first line := by
  induction blanks with
  | nil => simp
  | cons b blanks ih =>
    obtain ⟨rfl, hrest⟩ := forall_mem_cons.mp hblanks
    rw [length_cons, Nat.add_right_comm, cons_append, colorsFrom, if_pos rfl, ih hrest]
    rfl

theorem wordColor_argument (word : List Char) :
    wordColor fs false word ≠ .command ∧ wordColor fs false word ≠ .error := by
  rw [wordColor, if_neg Bool.false_ne_true]
  split
  · decide
  · split <;> decide

/-- Behind the first word nothing has the colour of a command. -/
theorem not_command_of_mem {n : ℕ} {line : List Char} {color : WordColor}
    (h : color ∈ colorsFrom fs n false line) : color ≠ .command ∧ color ≠ .error := by
  induction n generalizing line with
  | zero =>
    cases line with
    | nil => simp [colorsFrom] at h
    | cons c cs =>
      obtain ⟨-, -, rfl⟩ := List.mem_map.mp h
      decide
  | succ n ih =>
    cases line with
    | nil => simp [colorsFrom] at h
    | cons c cs =>
      rw [colorsFrom] at h
      split at h
      · rcases mem_cons.mp h with rfl | h
        · decide
        · exact ih h
      · rcases mem_append.mp h with h | h
        · rw [eq_of_mem_replicate h]
          exact wordColor_argument _
        · exact ih h

variable (fs) {c : Char} (cs : List Char) (hc : c ≠ ' ')

include hblanks hc in
theorem colors_eq : ∃ rest,
    colors fs (blanks ++ c :: cs) = List.replicate blanks.length .reset ++
      (List.replicate (coloredWord c cs).length
        (if found fs (trimQuotes (coloredWord c cs)) then .command else .error) ++ rest) ∧
    ∀ color ∈ rest, color ≠ .command ∧ color ≠ .error := by
  refine ⟨colorsFrom fs cs.length false
    (takeColored (if isQuote c then some c else none) cs).2, ?_,
    fun color hcolor => not_command_of_mem hcolor⟩
  rw [colors, length_append, colorsFrom_blanks hblanks, length_cons, colorsFrom,
    if_neg hc]
  rfl

include hblanks hc in
theorem mem_colors_iff : WordColor.command ∈ colors fs (blanks ++ c :: cs) ↔
    found fs (trimQuotes (coloredWord c cs)) = true := by
  obtain ⟨rest, heq, hrest⟩ := colors_eq fs hblanks cs hc
  have hnot : WordColor.command ∉ rest := fun hmem => (hrest _ hmem).1 rfl
  rw [heq]
  by_cases hfound : found fs (trimQuotes (coloredWord c cs)) = true
  · have hne : coloredWord c cs ≠ [] := cons_ne_nil _ _
    simp [hfound, hne]
  · simp [hfound, hnot]

include hblanks hc in
theorem colored_iff (i : ℕ) :
    ((colors fs (blanks ++ c :: cs))[i]? = some .command ∨
      (colors fs (blanks ++ c :: cs))[i]? = some .error) ↔
      blanks.length ≤ i ∧ i < blanks.length + (coloredWord c cs).length := by
  obtain ⟨rest, heq, hrest⟩ := colors_eq fs hblanks cs hc
  rw [heq]
  by_cases hle : blanks.length ≤ i
  · obtain ⟨k, rfl⟩ := Nat.exists_eq_add_of_le hle
    rw [getElem?_append_right (by simp), length_replicate, Nat.add_sub_cancel_left]
    by_cases hin : k < (coloredWord c cs).length
    · rw [getElem?_append_left (by simpa using hin), getElem?_replicate, if_pos hin]
      refine iff_of_true ?_ (by omega)
      split
      · exact Or.inl rfl
      · exact Or.inr rfl
    · rw [getElem?_append_right (by simpa using hin), length_replicate]
      refine iff_of_false ?_ (by omega)
      rintro (hcolor | hcolor)
      · exact (hrest _ (mem_of_getElem? hcolor)).1 rfl
      · exact (hrest _ (mem_of_getElem? hcolor)).2 rfl
  · rw [getElem?_append_left (by simpa using hle), getElem?_replicate,
      if_pos (by omega)]
    exact iff_of_false (by simp) (by omega)

end Colors

/-! ### Where the two agree -/

/-- `run` has an arm for just the builtins. -/
theorem any_runArms (name : List Char) :
    (runArms.any fun b => b.toList = name) = isBuiltin name := by
  have hperm : runArms.Perm builtins := by decide
  exact hperm.any_eq

theorem runs_dispatch_iff {fs : ShellFs} {line cmd : List Char} {rest : List (List Char)}
    (h : splitWords line = cmd :: rest) : (dispatch fs line).Runs ↔ found fs cmd = true := by
  rw [dispatch, h]
  dsimp only
  rw [any_runArms, found]
  cases isBuiltin cmd with
  | true => simp [Dispatch.Runs]
  | false => cases resolveProgram fs cmd <;> simp [Dispatch.Runs]

section Predicts

variable {fs : ShellFs} {blanks : List Char} (hblanks : ∀ b ∈ blanks, b = ' ')

include hblanks in
theorem predicts_of_blank : Predicts fs blanks := by
  have hcolors : colors fs blanks = List.replicate blanks.length .reset := by
    simpa [colors, colorsFrom] using colorsFrom_blanks hblanks 0 true []
  refine ⟨?_, fun i _ => ?_⟩
  · have hwords : splitWords blanks = [] := by
      rw [splitWords, foldl_blanks hblanks]
      rfl
    rw [hcolors, dispatch, hwords]
    simp [Dispatch.Runs]
  · rw [hcolors, InFirstWord, foldl_blanks fun b hb => hblanks b (mem_of_mem_take hb)]
    simp [getElem?_replicate]

variable {c : Char} {cs : List Char} (hc : ¬ (c = ' ' ∨ c = '\t'))

include hblanks hc in
theorem predicts_iff : Predicts fs (blanks ++ c :: cs) ↔
    (found fs (trimQuotes (coloredWord c cs)) =
      found fs (unquote none (scanWord none (c :: cs)).1)) ∧
    (coloredWord c cs).length = (scanWord none (c :: cs)).1.length := by
  have hspace : c ≠ ' ' := fun h => hc (Or.inl h)
  obtain ⟨rest, hwords⟩ : ∃ rest, splitWords (blanks ++ c :: cs) = _ :: rest :=
    splitWords_first hblanks hc
  rw [Bool.eq_iff_iff, ← mem_colors_iff fs hblanks cs hspace, ← runs_dispatch_iff hwords]
  constructor
  · rintro ⟨hcommand, hshown⟩
    refine ⟨hcommand, ?_⟩
    -- otherwise the character behind the shorter of the two words is shown wrong
    have hcolored := congrArg List.length (coloredWord_append c cs)
    have hscanned := congrArg List.length (scanWord_append none (c :: cs))
    rw [length_append] at hcolored hscanned
    by_contra hne
    have hi : blanks.length + min (coloredWord c cs).length (scanWord none (c :: cs)).1.length <
        (blanks ++ c :: cs).length := by
      rw [length_append]
      omega
    have hiff := hshown _ hi
    rw [colored_iff fs hblanks cs hspace, inFirstWord_iff hblanks hc hi] at hiff
    omega
  · rintro ⟨hcommand, hlength⟩
    refine ⟨hcommand, fun i hi => ?_⟩
    rw [colored_iff fs hblanks cs hspace, inFirstWord_iff hblanks hc hi, hlength]

end Predicts

/-! ### Names that some filesystem tells apart -/

/-- The characters that are not quotes. -/
def plainChars (w : List Char) : List Char := w.filter fun c => !isQuote c

variable {c : Char} {cs u : List Char}

theorem plainChars_cons_quote (hc : isQuote c = true) (w : List Char) :
    plainChars (c :: w) = plainChars w := by simp [plainChars, hc]

theorem plainChars_append (v w : List Char) :
    plainChars (v ++ w) = plainChars v ++ plainChars w := filter_append v w

theorem plainChars_cons (c : Char) (w : List Char) :
    plainChars (c :: w) = plainChars [c] ++ plainChars w := plainChars_append [c] w

theorem plainChars_eq_self {w : List Char} (h : ¬ ∃ q ∈ w, isQuote q = true) :
    plainChars w = w := by
  rw [plainChars, filter_eq_self]
  intro c hc
  by_contra hquote
  exact h ⟨c, hc, by simpa using hquote⟩

theorem plainChars_dropWhile (w : List Char) : plainChars (w.dropWhile isQuote) = plainChars w := by
  induction w with
  | nil => rfl
  | cons c w ih =>
    by_cases hc : isQuote c = true
    · rw [dropWhile_cons_of_pos hc, ih, plainChars_cons_quote hc]
    · rw [dropWhile_cons_of_neg hc]

theorem plainChars_trimQuotes (w : List Char) : plainChars (trimQuotes w) = plainChars w := by
  have hreverse : ∀ v : List Char, plainChars v.reverse = (plainChars v).reverse := fun v =>
    filter_reverse
  rw [trimQuotes, List.rdropWhile, hreverse, plainChars_dropWhile, hreverse, reverse_reverse,
    plainChars_dropWhile]

theorem plainChars_unquote {quote : Option Char} (hquote : quote.all isQuote = true)
    (w : List Char) : plainChars (unquote quote w) = plainChars w := by
  induction w generalizing quote with
  | nil => rfl
  | cons c w ih =>
    cases quote with
    | some q =>
      have hq : isQuote q = true := hquote
      by_cases hc : c = q
      · rw [unquote, if_pos hc, ih rfl, hc, plainChars_cons_quote hq]
      · rw [unquote, if_neg hc, plainChars_cons, ih hquote, ← plainChars_cons]
    | none =>
      by_cases hc : isQuote c = true
      · have hopen : (some c).all isQuote = true := hc
        rw [unquote, if_pos hc, ih hopen, plainChars_cons_quote hc]
      · rw [unquote, if_neg hc, plainChars_cons, ih rfl, ← plainChars_cons]

theorem not_builtin_of_quote {name : List Char} (h : ∃ q ∈ name, isQuote q = true) :
    isBuiltin name = false := by
  obtain ⟨q, hq, hquote⟩ := h
  have hplain : ∀ b ∈ builtins, ∀ c ∈ b.toList, isQuote c = false := by
    simp [builtins, isQuote, singleQuote, doubleQuote]
  rw [isBuiltin, List.any_eq_false]
  intro b hb hname
  have hfalse := hplain b hb q (by rw [of_decide_eq_true hname]; exact hq)
  rw [hquote] at hfalse
  cases hfalse

/-- The filesystem in which only `name` is a program. -/
def onlyProgram (name : List Char) : ShellFs := ⟨fun path => path = name, fun _ => false⟩

/-- The filesystem without programs. -/
def noPrograms : ShellFs := ⟨fun _ => false, fun _ => false⟩

theorem found_noPrograms (name : List Char) : found noPrograms name = isBuiltin name := by
  have hnone : resolveProgram noPrograms name = none := by
    rw [resolveProgram]
    split
    · rfl
    · exact find?_eq_none.mpr fun _ _ => Bool.false_ne_true
  rw [found, hnone, isSome_none, Bool.or_false]

/-- Two different names that differ in quotes only are not found alike everywhere. -/
theorem eq_of_found {a b : List Char} (hquote : ∃ q ∈ a, isQuote q = true)
    (hplain : plainChars a = plainChars b) (h : ∀ fs, found fs a = found fs b) : a = b := by
  by_contra hne
  have hbuiltin : isBuiltin b = false := by
    rw [← found_noPrograms, ← h, found_noPrograms, not_builtin_of_quote hquote]
  have hnil : a ≠ [] := by
    rintro rfl
    simp at hquote
  have ha : found (onlyProgram a) a = true := by
    have hmem : a ∈ (if '/' ∈ a then [a] else [a, "/bin/".toList ++ a]) := by
      split <;> simp
    rw [found, resolveProgram, if_neg hnil, Bool.or_eq_true, find?_isSome]
    exact Or.inr ⟨a, hmem, by simp [onlyProgram]⟩
  have hb : found (onlyProgram a) b = false := by
    have hpath : "/bin/".toList ++ b ≠ a := by
      intro heq
      have hbin : (plainChars "/bin/".toList).length = 5 := by decide +kernel
      have hlength := congrArg (fun w => (plainChars w).length) heq
      rw [plainChars_append, length_append, hbin, hplain] at hlength
      omega
    rw [found, hbuiltin, Bool.false_or, resolveProgram]
    split
    · rfl
    · rw [isSome_eq_false_iff, isNone_iff_eq_none, find?_eq_none]
      intro path hmem hprogram
      have hpatheq : path = a := of_decide_eq_true hprogram
      split at hmem
      · obtain rfl := mem_singleton.mp hmem
        exact hne hpatheq.symm
      · rcases mem_pair.mp hmem with rfl | rfl
        · exact hne hpatheq.symm
        · exact hpath hpatheq
  rw [h, hb] at ha
  cases ha

/-- A name that is trimmed and one that is unquoted are found alike only where they are equal. -/
theorem forall_found_iff (w : List Char) :
    (∀ fs, found fs (trimQuotes w) = found fs (unquote none w)) ↔
      trimQuotes w = unquote none w := by
  constructor
  · intro h
    have hplain : plainChars (trimQuotes w) = plainChars (unquote none w) := by
      rw [plainChars_trimQuotes, plainChars_unquote rfl]
    by_cases htrimmed : ∃ q ∈ trimQuotes w, isQuote q = true
    · exact eq_of_found htrimmed hplain h
    · by_cases hunquoted : ∃ q ∈ unquote none w, isQuote q = true
      · exact (eq_of_found hunquoted hplain.symm fun fs => (h fs).symm).symm
      · rwa [plainChars_eq_self htrimmed, plainChars_eq_self hunquoted] at hplain
  · intro h fs
    rw [h]

theorem forall_predicts_iff {blanks : List Char} (hblanks : ∀ b ∈ blanks, b = ' ')
    (hc : ¬ (c = ' ' ∨ c = '\t')) :
    (∀ fs, Predicts fs (blanks ++ c :: cs)) ↔
      coloredWord c cs = (scanWord none (c :: cs)).1 ∧
        trimQuotes (coloredWord c cs) = unquote none (coloredWord c cs) := by
  simp only [predicts_iff hblanks hc]
  constructor
  · intro h
    have hword : coloredWord c cs = (scanWord none (c :: cs)).1 :=
      append_inj_left ((coloredWord_append c cs).trans (scanWord_append none (c :: cs)).symm)
        (h noPrograms).2
    refine ⟨hword, (forall_found_iff _).mp fun fs => ?_⟩
    rw [(h fs).1, hword]
  · rintro ⟨hword, hname⟩ fs
    exact ⟨by rw [hname, hword], congrArg List.length hword⟩

/-! ### Words and quotes -/

/-- The characters at the beginning of a text that pass a test, and the rest. -/
theorem exists_span (p : Char → Bool) (l : List Char) : ∃ u rest, l = u ++ rest ∧
    l.takeWhile p = u ∧ l.dropWhile p = rest ∧ (∀ x ∈ u, p x = true) ∧
      ∀ b ∈ rest.head?, p b = false := by
  refine ⟨_, _, takeWhile_append_dropWhile.symm, rfl, rfl,
    fun x hx => mem_takeWhile_imp hx, fun b hb => ?_⟩
  have hnot := head?_dropWhile_not p l
  rw [mem_def.mp hb] at hnot
  simpa using hnot

/-- Text within quotes. -/
theorem quoted_run {q : Char} (hu : ∀ x ∈ u, x ≠ q) (rest : List Char) :
    (takeColored (some q) (u ++ rest)).1 = u ++ (takeColored (some q) rest).1 ∧
      (scanWord (some q) (u ++ rest)).1 = u ++ (scanWord (some q) rest).1 ∧
      unquote (some q) (u ++ rest) = u ++ unquote (some q) rest := by
  induction u with
  | nil => exact ⟨rfl, rfl, rfl⟩
  | cons x u ih =>
    obtain ⟨hx, hu⟩ := forall_mem_cons.mp hu
    obtain ⟨hcolored, hscanned, hunquoted⟩ := ih hu
    refine ⟨?_, ?_, ?_⟩
    · rw [cons_append, takeColored, if_neg hx, hcolored]
      rfl
    · rw [cons_append, scanWord, if_neg (by simp), quoteAfter, if_neg hx, hscanned]
      rfl
    · rw [cons_append, unquote, if_neg hx, hunquoted]
      rfl

/-- Text without quotes. -/
theorem plain_run (hu : ∀ x ∈ u, isQuote x = false) (rest : List Char) :
    unquote none (u ++ rest) = u ++ unquote none rest ∧ u.foldl quoteAfter none = none := by
  induction u with
  | nil => exact ⟨rfl, rfl⟩
  | cons x u ih =>
    obtain ⟨hx, hu⟩ := forall_mem_cons.mp hu
    have hx : ¬ isQuote x = true := by simp [hx]
    rw [cons_append, unquote, if_neg hx, foldl_cons, quoteAfter, if_neg hx, (ih hu).1]
    exact ⟨rfl, (ih hu).2⟩

theorem scanWord_blankless (hu : ∀ x ∈ u, ¬ (x = ' ' ∨ x = '\t'))
    (quote : Option Char) (rest : List Char) :
    (scanWord quote (u ++ rest)).1 = u ++ (scanWord (u.foldl quoteAfter quote) rest).1 := by
  induction u generalizing quote with
  | nil => rfl
  | cons x u ih =>
    obtain ⟨hx, hu⟩ := forall_mem_cons.mp hu
    rw [cons_append, scanWord, if_neg fun h => hx h.2, ih hu, foldl_cons]
    rfl

theorem takeColored_none (cs : List Char) :
    (takeColored none cs).1 = cs.takeWhile (· ≠ ' ') := by
  induction cs with
  | nil => rfl
  | cons c cs ih => by_cases hc : c = ' ' <;> simp [takeColored, hc, ih]

theorem unquote_append (quote : Option Char) (u v : List Char) :
    unquote quote (u ++ v) = unquote quote u ++ unquote (u.foldl quoteAfter quote) v := by
  induction u generalizing quote with
  | nil => rfl
  | cons x u ih =>
    rw [cons_append, unquote_cons, ih, unquote_cons quote x u, List.append_assoc,
      foldl_cons]

theorem unquote_sublist (quote : Option Char) (w : List Char) : (unquote quote w).Sublist w := by
  induction w generalizing quote with
  | nil => exact Sublist.refl _
  | cons c w ih =>
    cases quote with
    | some q =>
      rw [unquote]
      split
      · exact (ih none).cons c
      · exact (ih (some q)).cons_cons c
    | none =>
      rw [unquote]
      split
      · exact (ih (some c)).cons c
      · exact (ih none).cons_cons c

theorem all_foldl_quoteAfter {quote : Option Char} (hquote : quote.all isQuote = true)
    (w : List Char) : (w.foldl quoteAfter quote).all isQuote = true := by
  induction w generalizing quote with
  | nil => exact hquote
  | cons c w ih =>
    refine ih ?_
    cases quote with
    | some q => by_cases hc : c = q <;> simp_all [quoteAfter]
    | none => by_cases hc : isQuote c = true <;> simp [quoteAfter, hc]

/-- Trimming takes both quotes away from around a text. -/
theorem trimQuotes_cons (hc : isQuote c = true) (u : List Char) :
    trimQuotes (c :: u) = trimQuotes u := by
  rw [trimQuotes, dropWhile_cons_of_pos hc, trimQuotes]

theorem trimQuotes_concat (hc : isQuote c = true) (u : List Char) :
    trimQuotes (u ++ [c]) = trimQuotes u := by
  rw [trimQuotes, dropWhile_append]
  split
  · next hnil =>
    rw [dropWhile_cons_of_pos hc, trimQuotes, List.isEmpty_iff.mp hnil]
    rfl
  · rw [rdropWhile_concat_pos _ _ _ hc, trimQuotes]

theorem trimQuotes_eq_self_iff (u : List Char) : trimQuotes u = u ↔
    (∀ q ∈ u.head?, isQuote q = false) ∧ ∀ q ∈ u.getLast?, isQuote q = false := by
  cases u with
  | nil => simp [trimQuotes]
  | cons c u =>
    by_cases hc : isQuote c = true
    · refine iff_of_false (fun h => ?_) fun h => ?_
      · have hlength := congrArg List.length h
        rw [trimQuotes_cons hc, length_cons] at hlength
        have hle : (trimQuotes u).length ≤ u.length :=
          ( rdropWhile_prefix _ _).length_le.trans (dropWhile_sublist _).length_le
        omega
      · rw [h.1 c rfl] at hc
        cases hc
    · rw [trimQuotes, dropWhile_cons_of_neg hc, rdropWhile_eq_self_iff]
      simp [getLast?_eq_some_getLast, hc]

theorem unquote_concat_plain {x : Char} (hx : ¬ isQuote x = true) (a : List Char) :
    unquote none (a ++ [x]) = unquote none a ++ [x] := by
  have hquote : (a.foldl quoteAfter none).all isQuote = true := all_foldl_quoteAfter rfl a
  rw [unquote_append]
  generalize a.foldl quoteAfter none = quote at hquote
  cases quote with
  | some q =>
    have hne : x ≠ q := fun h => hx (h ▸ hquote)
    rw [unquote, if_neg hne]
    rfl
  | none =>
    rw [unquote, if_neg hx]
    rfl

/-- The quotes of a text that begins with one are taken away by `split_words` and by trimming in the
same way only where it has nothing but quotes. -/
theorem unquote_eq_rdropWhile_iff {t : List Char} (ht : ∀ q ∈ t.head?, isQuote q = true) :
    unquote none t = t.rdropWhile isQuote ↔
      unquote none t = [] ∧ ∀ x ∈ t, isQuote x = true := by
  constructor
  · intro h
    suffices hnil : t.rdropWhile isQuote = [] from
      ⟨h.trans hnil, rdropWhile_eq_nil_iff.mp hnil⟩
    by_contra hne
    -- `t` is `a`, a character `x` that is no quote, and quotes
    obtain ⟨a, x, hax, hx⟩ : ∃ a x, t.rdropWhile isQuote = a ++ [x] ∧ ¬ isQuote x = true :=
      ⟨_, _, (dropLast_append_getLast hne).symm, rdropWhile_last_not isQuote t hne⟩
    have hsplit : t.rdropWhile isQuote ++ t.rtakeWhile isQuote = t :=
      rdropWhile_append_rtakeWhile
    have hquotes : ∀ y ∈ t.rtakeWhile isQuote, isQuote y = true := fun y hy =>
      mem_rtakeWhile_imp hy
    generalize t.rtakeWhile isQuote = b at hsplit hquotes
    rw [hax] at h hsplit
    subst hsplit
    rw [unquote_append, unquote_concat_plain hx] at h
    have hkept := unquote_sublist ((a ++ [x]).foldl quoteAfter none) b
    generalize unquote ((a ++ [x]).foldl quoteAfter none) b = kept at h hkept
    -- the last character is `x`, so no quote of `b` is kept; and the first one of `a` is not
    rcases eq_nil_or_concat kept with rfl | ⟨kept, y, rfl⟩
    · cases a with
      | nil => exact hx (ht x rfl)
      | cons c a =>
        have hlength := congrArg List.length h
        rw [unquote, if_pos (ht c rfl)] at hlength
        have hle := (unquote_sublist (some c) a).length_le
        simp only [length_append, length_cons, length_nil] at hlength
        omega
    · have hlast := congrArg List.getLast? h
      rw [concat_eq_append, ← List.append_assoc, getLast?_concat,
        getLast?_concat] at hlast
      cases hlast
      exact hx (hquotes _ (hkept.subset (by simp)))
  · rintro ⟨h, hall⟩
    rw [h, rdropWhile_eq_nil_iff.mpr hall]

/-! ### Plain commands -/

/-- Pairs of equal quotes; the last one may be left open where the line ends. -/
def quotesCancel (last : Bool) : List Char → Bool
  | [] => true
  | [c] => last && isQuote c
  | c :: d :: t => isQuote c && d == c && quotesCancel last t

/-- A command in quotes has no quotes at its ends and stands alone.  Another command has quotes only
behind everything else, and in pairs. -/
def PlainCommand (line : List Char) : Prop :=
  match line.dropWhile (· = ' ') with
  | [] => True
  | c :: cs =>
      if isQuote c then
        (∀ q ∈ (cs.takeWhile (· ≠ c)).head?, isQuote q = false) ∧
          (∀ q ∈ (cs.takeWhile (· ≠ c)).getLast?, isQuote q = false) ∧
          ∀ b ∈ (cs.dropWhile (· ≠ c))[1]?, b = ' '
      else
        quotesCancel ((c :: cs).dropWhile (· ≠ ' ')).isEmpty
          (((c :: cs).takeWhile (· ≠ ' ')).dropWhile fun x => !isQuote x) = true

theorem quotesCancel_iff (last : Bool) (t : List Char) : quotesCancel last t = true ↔
    (unquote none t = [] ∧ ∀ x ∈ t, isQuote x = true) ∧
      (last = true ∨ t.foldl quoteAfter none = none) := by
  induction t using quotesCancel.induct with
  | case1 => simp [quotesCancel, unquote]
  | case2 c =>
    by_cases hc : isQuote c = true <;> simp [quotesCancel, unquote, quoteAfter, hc]
  | case3 c d t ih =>
    by_cases hc : isQuote c = true
    · by_cases hd : d = c
      · simp [quotesCancel, unquote, quoteAfter, hc, hd, ih]
      · simp [quotesCancel, unquote, quoteAfter, hc, hd]
    · simp [quotesCancel, hc]

theorem scanWord_eq_nil_iff (quote : Option Char) {rest : List Char} (htab : '\t' ∉ rest) :
    (scanWord quote rest).1 = [] ↔ rest = [] ∨ quote = none ∧ rest.head? = some ' ' := by
  cases rest with
  | nil => simp [scanWord]
  | cons b rest =>
    have hb : b ≠ '\t' := fun h => htab (h ▸ mem_cons_self)
    rw [scanWord]
    by_cases hend : quote = none ∧ b = ' '
    · simp [hend]
    · simp [hb, hend]

theorem trimQuotes_append_plain {w : List Char} (hc : isQuote c = false)
    (hw : ∀ x ∈ w, isQuote x = false) (t : List Char) :
    trimQuotes (c :: w ++ t) = c :: w ++ t.rdropWhile isQuote := by
  rw [trimQuotes, cons_append, dropWhile_cons_of_neg (by simp [hc]), ← cons_append]
  induction t using List.reverseRecOn with
  | nil =>
    rw [List.append_nil, rdropWhile_nil, List.append_nil, rdropWhile_eq_self_iff]
    intro hne
    have hall : ∀ x ∈ c :: w, isQuote x = false := forall_mem_cons.mpr ⟨hc, hw⟩
    simp [hall _ (getLast_mem hne)]
  | append_singleton t x ih =>
    rw [← List.append_assoc]
    by_cases hx : isQuote x = true
    · rw [rdropWhile_concat_pos _ _ _ hx, rdropWhile_concat_pos _ _ _ hx, ih]
    · rw [rdropWhile_concat_neg _ _ _ hx, rdropWhile_concat_neg _ _ _ hx,
        List.append_assoc]

/-- A command in quotes. -/
theorem agree_quoted (hc : isQuote c = true)
    (htab : '\t' ∉ cs) :
    (coloredWord c cs = (scanWord none (c :: cs)).1 ∧
      trimQuotes (coloredWord c cs) = unquote none (coloredWord c cs)) ↔
      (∀ q ∈ (cs.takeWhile (· ≠ c)).head?, isQuote q = false) ∧
        (∀ q ∈ (cs.takeWhile (· ≠ c)).getLast?, isQuote q = false) ∧
        ∀ b ∈ (cs.dropWhile (· ≠ c))[1]?, b = ' ' := by
  obtain ⟨u, rest, rfl, htake, hdrop, hu, hhead⟩ := exists_span (· ≠ c) cs
  have hnotBlank : ¬ (c = ' ' ∨ c = '\t') := by
    rintro (rfl | rfl) <;> cases hc
  obtain ⟨hcolored, hscanned, -⟩ := quoted_run (fun x hx => by simpa using hu x hx) rest
  rw [htake, hdrop, ← and_assoc, ← trimQuotes_eq_self_iff, coloredWord, if_pos hc, scanWord,
    if_neg fun h => hnotBlank h.2, quoteAfter, if_pos hc, trimQuotes_cons hc, unquote, if_pos hc,
    hcolored, hscanned, (quoted_run (fun x hx => by simpa using hu x hx) _).2.2]
  cases rest with
  | nil => simp [takeColored, scanWord, unquote]
  | cons b after =>
    obtain rfl : b = c := by simpa using hhead
    have hnil : ((scanWord none after).1 = []) ↔ ∀ b ∈ after.head?, b = ' ' := by
      rw [scanWord_eq_nil_iff none fun h => htab (by simp [h])]
      cases after <;> simp
    have hclosed : unquote (some b) [b] = [] := by simp [unquote]
    rw [takeColored, if_pos rfl, scanWord, if_neg (by simp), quoteAfter, if_pos rfl,
      trimQuotes_concat hc, hclosed, List.append_nil, getElem?_cons_succ,
      ← head?_eq_getElem?, ← hnil, and_comm]
    refine and_congr_right fun _ => ?_
    rw [List.cons.injEq, append_cancel_left_eq, List.cons.injEq]
    exact ⟨fun h => h.2.2.symm, fun h => ⟨rfl, rfl, h.symm⟩⟩

/-- A command that does not begin with a quote. -/
theorem agree_unquoted (hc : ¬ isQuote c = true) (hspace : c ≠ ' ')
    (htab : '\t' ∉ c :: cs) :
    (coloredWord c cs = (scanWord none (c :: cs)).1 ∧
      trimQuotes (coloredWord c cs) = unquote none (coloredWord c cs)) ↔
      quotesCancel ((c :: cs).dropWhile (· ≠ ' ')).isEmpty
        (((c :: cs).takeWhile (· ≠ ' ')).dropWhile fun x => !isQuote x) = true := by
  -- the line is `c`, plain characters `w`, `t` with a quote at its head, and what follows a blank
  obtain ⟨chunk, rest, rfl, htake, hdrop, hchunk, hhead⟩ := exists_span (· ≠ ' ') cs
  obtain ⟨w, t, rfl, -, hplain, hw, ht⟩ := exists_span (fun x => !isQuote x) chunk
  have hword : ∀ x ∈ c :: (w ++ t), ¬ (x = ' ' ∨ x = '\t') := by
    intro x hx
    rcases mem_cons.mp hx with rfl | hmem
    · rintro (h | rfl)
      · exact hspace h
      · exact htab mem_cons_self
    · rintro (rfl | rfl)
      · simpa using hchunk _ hmem
      · exact htab (mem_cons_of_mem _ (mem_append_left _ hmem))
  have hcw : ∀ x ∈ c :: w, isQuote x = false :=
    forall_mem_cons.mpr ⟨Bool.eq_false_of_not_eq_true hc, fun x hx => by simpa using hw x hx⟩
  have hquotes : (c :: (w ++ t)).foldl quoteAfter none = t.foldl quoteAfter none := by
    rw [← cons_append, foldl_append, (plain_run hcw []).2]
  have hend : (rest = [] ∨ t.foldl quoteAfter none = none ∧ rest.head? = some ' ') ↔
      (rest.isEmpty = true ∨ t.foldl quoteAfter none = none) := by
    cases rest with
    | nil => simp
    | cons b rest =>
      obtain rfl : b = ' ' := by simpa using hhead
      simp
  have hscan := scanWord_blankless hword none rest
  rw [cons_append, hquotes] at hscan
  rw [coloredWord, if_neg hc, takeColored_none, htake, hscan, self_eq_append_right,
    scanWord_eq_nil_iff _ fun h => htab (by simp [h]), hend, quotesCancel_iff,
    takeWhile_cons_of_pos (by simpa using hspace), htake,
    dropWhile_cons_of_pos (by simpa using hc), hplain,
    dropWhile_cons_of_pos (by simpa using hspace), hdrop, ← cons_append,
    trimQuotes_append_plain (hcw c mem_cons_self) fun x hx => hcw x (mem_cons_of_mem _ hx),
    (plain_run hcw t).1, append_cancel_left_eq, eq_comm (a := t.rdropWhile isQuote),
    unquote_eq_rdropWhile_iff fun q hq => by simpa using ht q hq]
  exact and_comm

/-- The colour of the command word says whether there is such a command, and shows the characters of
it, in every filesystem just where the command is a plain one. -/
theorem highlight_predicts_iff (line : List Char) (hprintable : ∀ c ∈ line, ' ' ≤ c ∧ c ≤ '~') :
    (∀ fs, Predicts fs line) ↔ PlainCommand line := by
  have htab : '\t' ∉ line := fun h => absurd (hprintable _ h).1 (by decide)
  obtain ⟨blanks, rest, rfl, -, hdrop, hblanks, hhead⟩ := exists_span (· = ' ') line
  have hblanks : ∀ b ∈ blanks, b = ' ' := fun b hb => by simpa using hblanks b hb
  rw [PlainCommand, hdrop]
  cases rest with
  | nil =>
    rw [List.append_nil]
    exact iff_of_true (fun fs => predicts_of_blank hblanks) trivial
  | cons c cs =>
    have hspace : c ≠ ' ' := by simpa using hhead
    have hcs : '\t' ∉ c :: cs := fun h => htab (mem_append_right _ h)
    rw [forall_predicts_iff hblanks (by rintro (h | rfl); exacts [hspace h, hcs mem_cons_self])]
    dsimp only
    split
    · next hquote => exact agree_quoted hquote fun h => hcs (mem_cons_of_mem _ h)
    · next hquote => exact agree_unquoted hquote hspace hcs

/-- `"ls" -l` -/
theorem highlight_predicts_quoted_ls :
    Predicts noPrograms ['"', 'l', 's', '"', ' ', '-', 'l'] :=
  (highlight_predicts_iff _ (by simp)).mpr
    (by simp [PlainCommand, isQuote, singleQuote, doubleQuote]) noPrograms

/-- `l"s"` runs the builtin `ls`, and is shown as an error. -/
theorem inner_quotes_shown_as_error :
    (∀ c ∈ ['l', '"', 's', '"'], ' ' ≤ c ∧ c ≤ '~') ∧
      (dispatch noPrograms ['l', '"', 's', '"']).Runs ∧
      colors noPrograms ['l', '"', 's', '"'] = List.replicate 4 .error ∧
      ¬ Predicts noPrograms ['l', '"', 's', '"'] := by
  have hcolors : colors noPrograms ['l', '"', 's', '"'] = List.replicate 4 .error := by
    decide +kernel
  have hruns : (dispatch noPrograms ['l', '"', 's', '"']).Runs := by
    decide +kernel
  refine ⟨by simp, hruns, hcolors, fun h => ?_⟩
  have hcommand := h.runs.mpr hruns
  rw [hcolors] at hcommand
  exact absurd hcommand (by decide)

end AnssOS
