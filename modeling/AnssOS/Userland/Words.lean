import Mathlib

/-!
# The words of a command line

The model of `split_words` in `userland/rust/sh/src/commands.rs`: words are separated by spaces and
tabs, and quotes keep them together.

### Outline

* `Splitter`: the locals of the loop, `splitWords`;
* `quoteWord`, `quoteWords`: how any list of words can be written as a line;
* `splitWords_quoteWords`: the line is split into the words again.
-/

namespace AnssOS

open List Option

/-- The character `'`. -/
def singleQuote : Char := '\x27'

/-- The character `"`. -/
def doubleQuote : Char := '\x22'

/-- Whether a character is one of the two quotes. -/
def isQuote (c : Char) : Bool := c = doubleQuote || c = singleQuote

/-- The locals of `split_words`. -/
structure Splitter where
  words : List (List Char)
  cur : List Char
  inWord : Bool
  quote : Option Char

namespace Splitter

/-- One round of the loop. -/
def step (s : Splitter) (c : Char) : Splitter :=
  match s.quote with
  | some q => if c = q then { s with quote := none } else { s with cur := s.cur ++ [c] }
  | none =>
      if isQuote c then { s with quote := some c, inWord := true }
      else if c = ' ' ∨ c = '\t' then
        if s.inWord then { s with words := s.words ++ [s.cur], cur := [], inWord := false } else s
      else { s with cur := s.cur ++ [c], inWord := true }

/-- The words, after the loop. -/
def finish (s : Splitter) : List (List Char) := if s.inWord then s.words ++ [s.cur] else s.words

end Splitter

/-- `split_words`. -/
def splitWords (line : List Char) : List (List Char) :=
  (line.foldl Splitter.step ⟨[], [], false, none⟩).finish

/-! ### Quoting -/

/-- A run of characters, in quotes that none of them is. -/
def quoteRun (r : List Char) : List Char :=
  if r.head? = some singleQuote then doubleQuote :: (r ++ [doubleQuote])
  else singleQuote :: (r ++ [singleQuote])

/-- The runs of `'` and of other characters in a word. -/
def quoteRuns (w : List Char) : List (List Char) :=
  w.splitBy fun c d => (c == singleQuote) == (d == singleQuote)

/-- A word, with everything in quotes. -/
def quoteWord (w : List Char) : List Char :=
  if w = [] then [singleQuote, singleQuote] else (quoteRuns w).flatMap quoteRun

/-- A line with the given words. -/
def quoteWords (ws : List (List Char)) : List Char := [' '].intercalate (ws.map quoteWord)

namespace Splitter

variable {s : Splitter}

/-- What is in quotes goes to the word as it is. -/
theorem foldl_inside {q : Char} {r : List Char} (hquote : s.quote = some q) (hr : q ∉ r) :
    r.foldl step s = { s with cur := s.cur ++ r } := by
  induction r generalizing s with
  | nil => simp
  | cons c r ih =>
    have hc : c ≠ q := fun heq => hr (heq ▸ mem_cons_self)
    have hstep : s.step c = { s with cur := s.cur ++ [c] } := by simp [step, hquote, hc]
    rw [foldl_cons, hstep]
    rw [ih (s := { s with cur := s.cur ++ [c] }) hquote
      fun hmem => hr (mem_cons_of_mem _ hmem)]
    simp

/-- A quoted run extends the word. -/
theorem foldl_quoted {q : Char} {r : List Char} (hquote : s.quote = none) (hq : isQuote q = true)
    (hr : q ∉ r) :
    (q :: (r ++ [q])).foldl step s = { s with cur := s.cur ++ r, inWord := true } := by
  have hopen : s.step q = { s with quote := some q, inWord := true } := by simp [step, hquote, hq]
  rw [foldl_cons, hopen, foldl_append, foldl_inside rfl hr]
  simp [step, hquote]

/-- All characters of a run are as its first one. -/
theorem run_uniform {c : Char} {r : List Char}
    (h : (c :: r).IsChain fun c d => ((c == singleQuote) == (d == singleQuote)) = true) :
    ∀ d ∈ c :: r, (d == singleQuote) = (c == singleQuote) := by
  induction r generalizing c with
  | nil => simp
  | cons e r ih =>
    obtain ⟨hce, hrest⟩ := isChain_cons_cons.mp h
    have hce : (c == singleQuote) = (e == singleQuote) := eq_of_beq hce
    intro d hd
    rcases mem_cons.mp hd with rfl | hd
    · rfl
    · rw [ih hrest d hd, hce]

theorem foldl_quoteRun {r : List Char} (hquote : s.quote = none)
    (hr : r.IsChain fun c d => ((c == singleQuote) == (d == singleQuote)) = true) :
    (quoteRun r).foldl step s = { s with cur := s.cur ++ r, inWord := true } := by
  cases r with
  | nil => exact foldl_quoted hquote (by decide) (by simp)
  | cons c r =>
    have huniform := run_uniform hr
    rw [quoteRun, head?_cons]
    by_cases hc : c = singleQuote
    · rw [if_pos (congrArg some hc)]
      refine foldl_quoted hquote (by decide) fun hmem => ?_
      have hsame := huniform _ hmem
      rw [hc] at hsame
      exact absurd hsame (by decide)
    · rw [if_neg fun heq => hc (some.inj heq)]
      refine foldl_quoted hquote (by decide) fun hmem => ?_
      have hsame := huniform _ hmem
      rw [beq_self_eq_true, eq_comm, beq_iff_eq] at hsame
      exact hc hsame

theorem foldl_quoteRuns {runs : List (List Char)} (hquote : s.quote = none)
    (hruns : ∀ r ∈ runs, r.IsChain fun c d => ((c == singleQuote) == (d == singleQuote)) = true)
    (hword : runs = [] → s.inWord = true) :
    (runs.flatMap quoteRun).foldl step s =
      { s with cur := s.cur ++ runs.flatten, inWord := true } := by
  induction runs generalizing s with
  | nil =>
    have hin := hword rfl
    simp [← hin]
  | cons r runs ih =>
    rw [flatMap_cons, foldl_append, foldl_quoteRun hquote (hruns r mem_cons_self)]
    rw [ih (s := { s with cur := s.cur ++ r, inWord := true }) hquote
      (fun q hq => hruns q (mem_cons_of_mem _ hq)) fun _ => rfl]
    simp

/-- An encoded word is read as that word. -/
theorem foldl_quoteWord (w : List Char) (hquote : s.quote = none) (hcur : s.cur = []) :
    (quoteWord w).foldl step s = { s with cur := w, inWord := true } := by
  unfold quoteWord
  split
  · next hw =>
    subst hw
    exact (foldl_quoted (r := []) hquote (by decide) (by simp)).trans (by simp [hcur])
  · next hw =>
    have hflatten : (quoteRuns w).flatten = w := flatten_splitBy _ w
    have hruns : quoteRuns w = [] → s.inWord = true := fun hnone => by
      rw [hnone] at hflatten
      exact absurd hflatten.symm hw
    have hchain : ∀ r ∈ quoteRuns w,
        r.IsChain fun c d => ((c == singleQuote) == (d == singleQuote)) = true :=
      fun r hr => isChain_of_mem_splitBy hr
    rw [foldl_quoteRuns hquote hchain hruns, hflatten, hcur, nil_append]

/-- A space after a word ends it. -/
theorem step_space (hquote : s.quote = none) (hword : s.inWord = true) :
    s.step ' ' = { s with words := s.words ++ [s.cur], cur := [], inWord := false } := by
  have hspace : isQuote ' ' = false := by decide
  simp [step, hquote, hword, hspace]

theorem finish_quoteWords (ws : List (List Char)) (hquote : s.quote = none) (hcur : s.cur = [])
    (hword : s.inWord = false) : ((quoteWords ws).foldl step s).finish = s.words ++ ws := by
  induction ws generalizing s with
  | nil => simp [quoteWords, finish, hword]
  | cons w ws ih =>
    cases ws with
    | nil =>
      have hline : quoteWords [w] = quoteWord w := by simp [quoteWords]
      rw [hline, foldl_quoteWord w hquote hcur]
      rfl
    | cons v ws =>
      have hline : quoteWords (w :: v :: ws) = quoteWord w ++ ' ' :: quoteWords (v :: ws) := by
        simp [quoteWords, intercalate_cons_cons]
      rw [hline, foldl_append, foldl_quoteWord w hquote hcur, foldl_cons,
        step_space (s := { s with cur := w, inWord := true }) hquote rfl,
        ih (s := { s with words := s.words ++ [w], cur := [], inWord := false }) hquote rfl rfl]
      simp

end Splitter

/-- Every list of words can be written as a line. -/
theorem splitWords_quoteWords (ws : List (List Char)) : splitWords (quoteWords ws) = ws :=
  Splitter.finish_quoteWords ws rfl rfl rfl

example : quoteWords ["it's".toList, []] = "'it'\"'\"'s' ''".toList := by decide

end AnssOS
