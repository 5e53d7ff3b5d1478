import AnssOS.Console.Fbconsole

/-!
# The terminal emulator of a pane

`tile` feeds what the programs of a pane write to a `Vt`, which is to show what the console would show.
Its parser looks for longer characters first and for escape sequences second, where that of the console
does it the other way round.

The emulator computes with `u16`.  Its grid has at most 65535 columns and rows and its cursor stays in
it, so only sums with a parameter can be too large; these saturate.

### Outline

* `Vt` and `Vt.byte`;
* `ParserState.vt`: its parser;
* `parsers_synchronised`: the two parsers agree as long as escape sequences are ASCII;
* `parsers_apart`: a sequence that is not.
-/

namespace AnssOS

structure Vt where
  cols : ℕ
  rows : ℕ
  cells : List (Cell Char)
  cx : ℕ
  cy : ℕ
  attr : Attr
  cursorVisible : Bool
  state : Parse
  utf8 : ℕ × ℕ
  params : ℕ → ℕ
  nparams : ℕ
  isPrivate : Bool

namespace Vt

/-- `BLANK`. -/
def blank : Cell Char := ⟨' ', .plain⟩

def new (cols rows : ℕ) : Vt :=
  let cols := max cols 1
  let rows := max rows 1
  ⟨cols, rows, List.replicate (cols * rows) blank, 0, 0, .plain, true, .normal, (0, 0), fun _ => 0, 0,
    false⟩

def cell (v : Vt) (x y : ℕ) : Cell Char := v.cells.getD (y * v.cols + x) blank

def set (v : Vt) (x y : ℕ) (cell : Cell Char) : Vt :=
  { v with cells := v.cells.set (y * v.cols + x) cell }

def erase (v : Vt) (x y count : ℕ) : Vt :=
  (List.range' x (min (x + count) v.cols - x)).foldl (fun v i => v.set i y blank) v

def eraseRows (v : Vt) (start stop : ℕ) : Vt :=
  (List.range' start (stop - start)).foldl (fun v y => v.erase 0 y v.cols) v

def scrollUp (v : Vt) : Vt :=
  { v with cells := v.cells.drop v.cols ++ List.replicate v.cols blank }

def nextRow (v : Vt) : Vt :=
  let v := { v with cy := v.cy + 1 }
  if v.rows ≤ v.cy then { v.scrollUp with cy := v.rows - 1 } else v

def put (v : Vt) (ch : Char) : Vt :=
  let v := v.set v.cx v.cy ⟨ch, v.attr⟩
  let v := { v with cx := v.cx + 1 }
  if v.cols ≤ v.cx then { v with cx := 0 }.nextRow else v

def paramOr (v : Vt) (n fallback : ℕ) : ℕ := AnssOS.paramOr v.params v.nparams n fallback

/-- The first parameter of an erasing sequence. -/
def mode (v : Vt) : ℕ := if 0 < v.nparams then v.params 0 else 0

/-- The sum of two `u16`, cut off at the largest of them. -/
def saturatingAdd (a b : ℕ) : ℕ := min (a + b) 65535

def csi (v : Vt) (fin : UInt8) : Vt :=
  match csiCommand fin with
  | .cursorPosition => { v with
      cy := min (v.paramOr 0 1 - 1) (v.rows - 1)
      cx := min (v.paramOr 1 1 - 1) (v.cols - 1) }
  | .cursorUp => { v with cy := v.cy - v.paramOr 0 1 }
  | .cursorDown => { v with cy := min (saturatingAdd v.cy (v.paramOr 0 1)) (v.rows - 1) }
  | .cursorForward => { v with cx := min (saturatingAdd v.cx (v.paramOr 0 1)) (v.cols - 1) }
  | .cursorBack => { v with cx := v.cx - v.paramOr 0 1 }
  | .eraseDisplay =>
      if v.mode = 2 then v.eraseRows 0 v.rows
      else if v.mode = 1 then (v.eraseRows 0 v.cy).erase 0 v.cy (v.cx + 1)
      else (v.erase v.cx v.cy (v.cols - v.cx)).eraseRows (v.cy + 1) v.rows
  | .eraseLine =>
      if v.mode = 2 then v.erase 0 v.cy v.cols
      else if v.mode = 1 then v.erase 0 v.cy (v.cx + 1)
      else v.erase v.cx v.cy (v.cols - v.cx)
  | .attributes => { v with attr := v.attr.sgrAll v.params v.nparams }
  | .ignored => v

def privateCsi (v : Vt) (fin : UInt8) : Vt :=
  if 0 < v.nparams ∧ v.params 0 = 25 then
    if fin = 'h'.toUInt8 then { v with cursorVisible := true }
    else if fin = 'l'.toUInt8 then { v with cursorVisible := false }
    else v
  else v

/-- The last byte of a control sequence. -/
def finishCsi (v : Vt) (b : UInt8) : Vt :=
  { if v.isPrivate then v.privateCsi b else v.csi b with state := .normal }

/-- A byte in a control sequence. -/
def putCsi (v : Vt) (b : UInt8) : Vt :=
  match csiByte b with
  | .question => if v.nparams = 0 then { v with isPrivate := true } else v.finishCsi b
  | .digit d =>
      let n := if v.nparams = 0 then 1 else v.nparams
      { v with
        nparams := n
        params := Function.update v.params (n - 1)
          (saturatingAdd (min (v.params (n - 1) * 10) 65535) d) }
  | .separator =>
      let n := if v.nparams = 0 then 1 else v.nparams
      { v with nparams := if n < maxParams then n + 1 else n }
  | .other => v.finishCsi b

/-- A byte below 0x80, outside of an escape sequence. -/
def putNormal (v : Vt) (b : UInt8) : Vt :=
  if b = escByte then { v with state := .esc }
  else if b = '\n'.toUInt8 then { v with cx := 0 }.nextRow
  else if b = '\r'.toUInt8 then { v with cx := 0 }
  else if b = 8 then
    if 0 < v.cx then { v with cx := v.cx - 1 }.set (v.cx - 1) v.cy ⟨' ', v.attr⟩ else v
  else if ' '.toNat ≤ b.toNat ∧ b.toNat ≤ '~'.toNat then v.put (Char.ofNat b.toNat)
  else v

/-- What the first byte of a longer character gives: its bits, and how many bytes are to come. -/
def utf8Lead (b : UInt8) : Option (ℕ × ℕ) :=
  if 0xC0 ≤ b ∧ b ≤ 0xDF then some ((b &&& 0x1F).toNat, 1)
  else if 0xE0 ≤ b ∧ b ≤ 0xEF then some ((b &&& 0x0F).toNat, 2)
  else if 0xF0 ≤ b ∧ b ≤ 0xF7 then some ((b &&& 0x07).toNat, 3)
  else none

/-- A byte that does not continue a character. -/
def putFirst (v : Vt) (b : UInt8) : Vt :=
  if 0x80 ≤ b then
    match utf8Lead b with
    | some utf8 => { v with utf8 := utf8 }
    | none => { v.put '?' with utf8 := (0, 0) }
  else
    match v.state with
    | .esc =>
        if b = '['.toUInt8 then
          { v with state := .csi, params := fun _ => 0, nparams := 0, isPrivate := false }
        else { v with state := .normal }
    | .csi => v.putCsi b
    | .normal => v.putNormal b

/-- `char::from_u32`, with `?` for what is not a character. -/
def charFrom (cp : ℕ) : Char := if cp.isValidChar then Char.ofNat cp else '?'

def byte (v : Vt) (b : UInt8) : Vt :=
  if 0 < v.utf8.2 then
    if b &&& 0xC0 = 0x80 then
      let v := { v with utf8 := (v.utf8.1 <<< 6 ||| (b &&& 0x3F).toNat, v.utf8.2 - 1) }
      if v.utf8.2 = 0 then v.put (charFrom v.utf8.1) else v
    else ({ v with utf8 := (v.utf8.1, 0) }.put '?').putFirst b
  else v.putFirst b

def feed (v : Vt) (bytes : List UInt8) : Vt := bytes.foldl byte v

end Vt

/-! ### The parser -/

namespace ParserState

/-- A byte that does not continue a character. -/
def vtFirst (p : ParserState) (b : UInt8) : ParserState :=
  if 0x80 ≤ b then
    match Vt.utf8Lead b with
    | some (_, need) => { p with need := need }
    | none => { p with need := 0 }
  else
    match p.parse with
    | .esc => p.esc b
    | .csi => p.csi b
    | .normal => if b = escByte then { p with parse := .esc } else p

/-- The parser of the emulator. -/
def vt (p : ParserState) (b : UInt8) : ParserState :=
  if 0 < p.need then
    if b &&& 0xC0 = 0x80 then { p with need := p.need - 1 } else { p with need := 0 }.vtFirst b
  else p.vtFirst b

end ParserState

namespace Vt

def parser (v : Vt) : ParserState := ⟨v.state, v.nparams, v.isPrivate, v.utf8.2⟩

/-- What drawing does not change. -/
structure SameButScreen (v v' : Vt) : Prop where
  parser : v'.parser = v.parser
  params : v'.params = v.params
  cols : v'.cols = v.cols
  rows : v'.rows = v.rows

theorem SameButScreen.refl (v : Vt) : SameButScreen v v := ⟨rfl, rfl, rfl, rfl⟩

theorem SameButScreen.trans {v v' v'' : Vt} (h : SameButScreen v v') (h' : SameButScreen v' v'') :
    SameButScreen v v'' :=
  ⟨h'.parser.trans h.parser, h'.params.trans h.params, h'.cols.trans h.cols, h'.rows.trans h.rows⟩

/-- A loop of changes to the cells. -/
theorem SameButScreen.foldl {f : Vt → ℕ → Vt} (hf : ∀ v i, SameButScreen v (f v i)) (v : Vt)
    (is : List ℕ) : SameButScreen v (is.foldl f v) := by
  induction is generalizing v with
  | nil => exact .refl v
  | cons i is ih => exact (hf v i).trans (ih (f v i))

section

variable (v : Vt)

theorem sameButScreen_set (x y : ℕ) (cell : Cell Char) : SameButScreen v (v.set x y cell) :=
  ⟨rfl, rfl, rfl, rfl⟩

theorem sameButScreen_erase (x y count : ℕ) : SameButScreen v (v.erase x y count) :=
  .foldl (fun v i => v.sameButScreen_set i y blank) v _

theorem sameButScreen_eraseRows (start stop : ℕ) : SameButScreen v (v.eraseRows start stop) :=
  .foldl (fun v y => v.sameButScreen_erase 0 y v.cols) v _

theorem sameButScreen_nextRow : SameButScreen v v.nextRow := by
  unfold nextRow
  dsimp only
  split <;> exact ⟨rfl, rfl, rfl, rfl⟩

theorem sameButScreen_put (ch : Char) : SameButScreen v (v.put ch) := by
  unfold put
  dsimp only
  split
  · refine .trans ?_ (sameButScreen_nextRow _)
    exact ⟨rfl, rfl, rfl, rfl⟩
  · exact ⟨rfl, rfl, rfl, rfl⟩

theorem sameButScreen_csi (fin : UInt8) : SameButScreen v (v.csi fin) := by
  unfold csi
  split
  · exact ⟨rfl, rfl, rfl, rfl⟩
  · exact ⟨rfl, rfl, rfl, rfl⟩
  · exact ⟨rfl, rfl, rfl, rfl⟩
  · exact ⟨rfl, rfl, rfl, rfl⟩
  · exact ⟨rfl, rfl, rfl, rfl⟩
  · split_ifs
    · exact v.sameButScreen_eraseRows _ _
    · exact (v.sameButScreen_eraseRows _ _).trans (sameButScreen_erase _ _ _ _)
    · exact (v.sameButScreen_erase _ _ _).trans (sameButScreen_eraseRows _ _ _)
  · split_ifs <;> exact v.sameButScreen_erase _ _ _
  · exact ⟨rfl, rfl, rfl, rfl⟩
  · exact .refl v

theorem sameButScreen_privateCsi (fin : UInt8) : SameButScreen v (v.privateCsi fin) := by
  unfold privateCsi
  split_ifs <;> exact ⟨rfl, rfl, rfl, rfl⟩

theorem parser_finishCsi (b : UInt8) :
    (v.finishCsi b).parser = { v.parser with parse := .normal } := by
  have hsame : SameButScreen v (if v.isPrivate then v.privateCsi b else v.csi b) := by
    split
    · exact v.sameButScreen_privateCsi b
    · exact v.sameButScreen_csi b
  have h := hsame.parser
  simp only [finishCsi, parser, ParserState.mk.injEq, true_and] at h ⊢
  exact h.2

theorem parser_putCsi (b : UInt8) : (v.putCsi b).parser = v.parser.csi b := by
  unfold putCsi ParserState.csi
  cases csiByte b with
  | question =>
    by_cases hzero : v.nparams = 0
    · have hzero' : v.parser.nparams = 0 := hzero
      simp only [if_pos hzero, if_pos hzero']
      rfl
    · have hzero' : v.parser.nparams ≠ 0 := hzero
      simp only [if_neg hzero, if_neg hzero']
      exact v.parser_finishCsi b
  | digit d => rfl
  | separator => rfl
  | other => exact v.parser_finishCsi b

theorem parser_putNormal (b : UInt8) : (v.putNormal b).parser =
    if b = escByte then { v.parser with parse := .esc } else v.parser := by
  unfold putNormal
  split
  · rfl
  · split_ifs
    · exact (sameButScreen_nextRow _).parser
    · rfl
    · rfl
    · rfl
    · exact (v.sameButScreen_put _).parser
    · rfl

theorem parser_putFirst (b : UInt8) : (v.putFirst b).parser = v.parser.vtFirst b := by
  unfold putFirst ParserState.vtFirst
  split
  · rcases utf8Lead b with - | ⟨cp, need⟩
    · have h := (v.sameButScreen_put '?').parser
      simp only [parser, ParserState.mk.injEq, and_true] at h ⊢
      exact ⟨h.1, h.2.1, h.2.2.1⟩
    · rfl
  · split
    · rename_i hstate
      have hesc : v.parser.parse = .esc := hstate
      rw [hesc]
      dsimp only
      rw [ParserState.esc]
      split <;> rfl
    · rename_i hstate
      have hcsi : v.parser.parse = .csi := hstate
      rw [hcsi]
      exact v.parser_putCsi b
    · rename_i hstate
      have hnormal : v.parser.parse = .normal := hstate
      rw [hnormal]
      exact v.parser_putNormal b

/-- The parser of the emulator goes its own way. -/
theorem parser_byte (b : UInt8) : (v.byte b).parser = v.parser.vt b := by
  unfold byte ParserState.vt
  dsimp only
  by_cases hneed : 0 < v.utf8.2
  · have hneed' : 0 < v.parser.need := hneed
    rw [if_pos hneed, if_pos hneed']
    split
    · split
      · rw [(sameButScreen_put _ _).parser]
        rfl
      · rfl
    · rw [parser_putFirst, (sameButScreen_put _ _).parser]
      rfl
  · have hneed' : ¬ 0 < v.parser.need := hneed
    rw [if_neg hneed, if_neg hneed', parser_putFirst]

end
end Vt

/-! ### The two parsers -/

/-- The two ways to tell first bytes of longer characters are the same. -/
theorem utf8Lead_eq (b : UInt8) : Vt.utf8Lead b = Console.utf8Lead b := by
  have h : ∀ n : Fin 256, Vt.utf8Lead (UInt8.ofFin n) = Console.utf8Lead (UInt8.ofFin n) := by
    decide +kernel
  exact h b.toFin

namespace ParserState

/-- Inside of an escape sequence no longer character has begun. -/
def Clean (p : ParserState) : Prop := p.parse ≠ .normal → p.need = 0

theorem vtFirst_of_normal {p : ParserState} (hparse : p.parse = .normal) (hneed : p.need = 0)
    (b : UInt8) : p.vtFirst b = p.first b := by
  have hzero : { p with need := 0 } = p := by rw [← hneed]
  unfold vtFirst first
  rw [utf8Lead_eq]
  split
  · rcases Console.utf8Lead b with - | ⟨cp, need⟩
    · exact hzero
    · rfl
  · rw [hparse]

/-- The two parsers do the same with a byte, if it is not one of a longer character inside of an
escape sequence. -/
theorem vt_eq_console {p : ParserState} {b : UInt8} (hclean : p.Clean)
    (hb : p.parse ≠ .normal → b < 0x80) : p.vt b = p.console b := by
  by_cases hnormal : p.parse = .normal
  · rw [console, hnormal]
    dsimp only
    unfold vt normal
    split
    · split
      · rfl
      · exact vtFirst_of_normal (p := { p with need := 0 }) hnormal rfl b
    · rename_i hneed
      exact vtFirst_of_normal hnormal (by omega) b
  · have hneed : ¬ 0 < p.need := by
      rw [hclean hnormal]
      exact Nat.lt_irrefl 0
    have hascii : ¬ 0x80 ≤ b := UInt8.not_le.mpr (hb hnormal)
    rw [vt, if_neg hneed, vtFirst, if_neg hascii, console]
    rcases hparse : p.parse with - | - | -
    · exact absurd hparse hnormal
    · rfl
    · rfl

theorem Clean.console {p : ParserState} (h : p.Clean) (b : UInt8) : (p.console b).Clean := by
  have hfirst : ∀ {q : ParserState}, q.parse = .normal → q.need = 0 → (q.first b).Clean := by
    intro q hparse hneed
    unfold first
    split
    · rcases Console.utf8Lead b with - | ⟨cp, need⟩
      · exact fun hne => absurd hparse hne
      · exact fun hne => absurd hparse hne
    · split
      · exact fun _ => hneed
      · exact fun hne => absurd hparse hne
  rw [ParserState.console]
  split
  · rename_i hparse
    have hneed := h (by simp [hparse])
    unfold esc
    split
    · exact fun _ => hneed
    · exact fun _ => hneed
  · rename_i hparse
    have hneed := h (by simp [hparse])
    unfold csi
    rcases csiByte b with - | d | - | -
    · dsimp only
      split <;> exact fun _ => hneed
    · exact fun _ => hneed
    · exact fun _ => hneed
    · exact fun _ => hneed
  · rename_i hparse
    unfold normal
    split
    · split
      · exact fun hne => absurd hparse hne
      · exact hfirst hparse rfl
    · exact hfirst hparse (by omega)

/-- No byte of a longer character comes inside of an escape sequence. -/
def AsciiEscapes : ParserState → List UInt8 → Prop
  | _, [] => True
  | p, b :: bytes => (p.parse ≠ .normal → b < 0x80) ∧ (p.console b).AsciiEscapes bytes

instance decidableAsciiEscapes : (p : ParserState) → (bytes : List UInt8) →
    Decidable (p.AsciiEscapes bytes)
  | _, [] => inferInstanceAs (Decidable True)
  | p, b :: bytes =>
      have := decidableAsciiEscapes (p.console b) bytes
      inferInstanceAs (Decidable (_ ∧ _))

theorem foldl_vt {p : ParserState} {bytes : List UInt8} (hclean : p.Clean)
    (h : p.AsciiEscapes bytes) : bytes.foldl vt p = bytes.foldl ParserState.console p := by
  induction bytes generalizing p with
  | nil => rfl
  | cons b bytes ih =>
    rw [List.foldl_cons, List.foldl_cons, vt_eq_console hclean h.1]
    exact ih (hclean.console b) h.2

end ParserState

theorem Console.parser_write {S : Type*} [Screen S] (c : Console S) (bytes : List UInt8) :
    (c.write bytes).parser = bytes.foldl ParserState.console c.parser := by
  induction bytes generalizing c with
  | nil => rfl
  | cons b bytes ih =>
    rw [List.foldl_cons, ← (c.parses_putc b).parser]
    exact ih (c.putc b)

theorem Vt.parser_feed (v : Vt) (bytes : List UInt8) :
    (v.feed bytes).parser = bytes.foldl ParserState.vt v.parser := by
  induction bytes generalizing v with
  | nil => rfl
  | cons b bytes ih =>
    rw [List.foldl_cons, ← v.parser_byte b]
    exact ih (v.byte b)

/-- The two parsers are in the same state after a stream in which escape sequences are ASCII. -/
theorem parsers_synchronised (cols rows : ℕ) (screen : Grid) (bytes : List UInt8)
    (h : (Console.start cols rows screen).parser.AsciiEscapes bytes) :
    ((Vt.new cols rows).feed bytes).parser = ((Console.start cols rows screen).write bytes).parser := by
  rw [Vt.parser_feed, Console.parser_write]
  exact ParserState.foldl_vt (fun hne => absurd rfl hne) h

/-- The theorem for a stream with a character that is cut off by an escape sequence. -/
theorem parsers_synchronised_of_cut :
    ((Vt.new 80 25).feed [0xE2, 0x94, 0x1b, 0x5b, 0x33]).parser =
      ((Console.start 80 25 Grid.blank).write [0xE2, 0x94, 0x1b, 0x5b, 0x33]).parser :=
  parsers_synchronised 80 25 Grid.blank _ (by decide)

/-- After ESC and a byte that cannot begin a character, a bracket is text for the console, and begins
a control sequence for the emulator. -/
theorem parsers_apart :
    ((Console.start 80 25 Grid.blank).write [0x1b, 0x80, 0x5b]).parser.parse = .normal ∧
      ((Vt.new 80 25).feed [0x1b, 0x80, 0x5b]).parser.parse = .csi := by
  rw [Console.parser_write, Vt.parser_feed]
  decide

end AnssOS
