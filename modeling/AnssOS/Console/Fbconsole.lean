import Mathlib

/-!
# The framebuffer console

The console takes bytes.  It keeps a cursor, the attributes for the next characters, the state of its
parser for escape sequences and the character of which it has seen some bytes; and it draws on a screen.

### Outline

* the attributes of a cell, and what the parameters of an SGR sequence do to them;
* the bytes of a control sequence, and the characters that the font has;
* `Console` and `Console.putc`, over any `Screen`;
* `Grid`: the screen as a grid of cells;
* `ParserState`: what decides how the next byte is read, and how it changes by itself;
* the cells of a grid after drawing and erasing.
-/

namespace AnssOS

/-! ### Attributes -/

/-- How a cell is drawn: the colours, as indices of the palette, or none for the default ones. -/
structure Attr where
  fg : Option ℕ
  bg : Option ℕ
  bold : Bool
  dim : Bool
  rev : Bool
deriving DecidableEq

def Attr.plain : Attr := ⟨none, none, false, false, false⟩

/-- One parameter of an SGR sequence. -/
def Attr.sgr (a : Attr) (p : ℕ) : Attr :=
  if p = 0 then plain
  else if p = 1 then { a with bold := true }
  else if p = 2 then { a with dim := true }
  else if p = 7 then { a with rev := true }
  else if p = 22 then { a with bold := false, dim := false }
  else if p = 27 then { a with rev := false }
  else if 30 ≤ p ∧ p ≤ 37 then { a with fg := some (p - 30) }
  else if p = 39 then { a with fg := none }
  else if 40 ≤ p ∧ p ≤ 47 then { a with bg := some (p - 40) }
  else if p = 49 then { a with bg := none }
  else if 90 ≤ p ∧ p ≤ 97 then { a with fg := some (p - 90 + 8) }
  else if 100 ≤ p ∧ p ≤ 107 then { a with bg := some (p - 100 + 8) }
  else a

/-- A whole SGR sequence.  Without a parameter it resets the attributes. -/
def Attr.sgrAll (a : Attr) (params : ℕ → ℕ) (nparams : ℕ) : Attr :=
  if nparams = 0 then plain else ((List.range nparams).map params).foldl Attr.sgr a

/-- What a cell shows. -/
structure Cell (α : Type*) where
  ch : α
  attr : Attr
deriving DecidableEq

/-! ### The bytes of a control sequence -/

def escByte : UInt8 := 0x1b

/-- The states of the parser. -/
inductive Parse
  | normal
  | esc
  | csi
deriving DecidableEq

/-- The bytes in a control sequence. -/
inductive CsiByte
  | question
  | digit (d : ℕ)
  | separator
  | other

def csiByte (b : UInt8) : CsiByte :=
  if b = '?'.toUInt8 then .question
  else if '0'.toNat ≤ b.toNat ∧ b.toNat ≤ '9'.toNat then .digit (b.toNat - '0'.toNat)
  else if b = ';'.toUInt8 then .separator
  else .other

/-- The control sequences that are understood, by their last byte. -/
inductive CsiCommand
  | cursorPosition
  | cursorUp
  | cursorDown
  | cursorForward
  | cursorBack
  | eraseDisplay
  | eraseLine
  | attributes
  | ignored

def csiCommand (fin : UInt8) : CsiCommand :=
  if fin = 'H'.toUInt8 ∨ fin = 'f'.toUInt8 then .cursorPosition
  else if fin = 'A'.toUInt8 then .cursorUp
  else if fin = 'B'.toUInt8 then .cursorDown
  else if fin = 'C'.toUInt8 then .cursorForward
  else if fin = 'D'.toUInt8 then .cursorBack
  else if fin = 'J'.toUInt8 then .eraseDisplay
  else if fin = 'K'.toUInt8 then .eraseLine
  else if fin = 'm'.toUInt8 then .attributes
  else .ignored

/-- `MAX_PARAMS`. -/
def maxParams : ℕ := 8

/-- Parameter `n`, or `fallback` if it was omitted or is 0. -/
def paramOr (params : ℕ → ℕ) (nparams n fallback : ℕ) : ℕ :=
  if nparams ≤ n ∨ params n = 0 then fallback else params n

/-! ### The font -/

/-- The code points in `font::EXT`. -/
def fontExt : List ℕ :=
  [0x00B7, 0x2026, 0x2500, 0x2502, 0x250C, 0x2510, 0x2514, 0x2518, 0x251C, 0x2524, 0x252C, 0x2534,
    0x253C, 0x256D, 0x256E, 0x256F, 0x2570, 0x2588, 0x258C, 0x2590, 0x25CF, 0x2714, 0x2718, 0x276E,
    0x276F, 0xE0B0, 0xE0B1, 0xE0B2, 0xE0B3, 0xE0B4, 0xE0B5, 0xE0B6, 0xE0B7]

/-- The code point whose bitmap is drawn for `cp`. -/
def glyphFor (cp : ℕ) : ℕ := if cp < 128 ∨ cp ∈ fontExt then cp else '?'.toNat

/-! ### The console -/

/-- What the console draws on: a character in a cell, a number of cells of a row that are blanked, and
a text area of `rows` rows that moves up by one. -/
class Screen (S : Type*) where
  drawGlyph : S → (col row cp : ℕ) → Attr → S
  blank : S → (col row count : ℕ) → S
  scroll : S → (rows : ℕ) → S

structure Console (S : Type*) where
  cols : ℕ
  rows : ℕ
  cursorCol : ℕ
  cursorRow : ℕ
  attr : Attr
  parse : Parse
  params : ℕ → ℕ
  nparams : ℕ
  csiPrivate : Bool
  utf8Cp : ℕ
  utf8Need : ℕ
  screen : S

namespace Console

variable {S : Type*} [Screen S]

/-- A console with a grid of the given size, as `init` and `clear` leave it. -/
def start (cols rows : ℕ) (screen : S) : Console S :=
  ⟨cols, rows, 0, 0, .plain, .normal, fun _ => 0, 0, false, 0, 0, screen⟩

def drawGlyph (c : Console S) (col row cp : ℕ) : Console S :=
  { c with screen := Screen.drawGlyph c.screen col row cp c.attr }

def eraseCells (c : Console S) (col row count : ℕ) : Console S :=
  if c.cols ≤ col ∨ count = 0 then c
  else { c with screen := Screen.blank c.screen col row (min count (c.cols - col)) }

/-- `erase_cells` for each of some rows. -/
def eraseRows (c : Console S) (rows : List ℕ) : Console S :=
  rows.foldl (fun c r => c.eraseCells 0 r c.cols) c

def scroll (c : Console S) : Console S := { c with screen := Screen.scroll c.screen c.rows }

def paramOr (c : Console S) (n fallback : ℕ) : ℕ := AnssOS.paramOr c.params c.nparams n fallback

/-- The first parameter of an erasing sequence. -/
def mode (c : Console S) : ℕ := if 0 < c.nparams then c.params 0 else 0

def handleCsi (c : Console S) (fin : UInt8) : Console S :=
  match csiCommand fin with
  | .cursorPosition => { c with
      cursorRow := min (c.paramOr 0 1 - 1) (c.rows - 1)
      cursorCol := min (c.paramOr 1 1 - 1) (c.cols - 1) }
  | .cursorUp => { c with cursorRow := c.cursorRow - c.paramOr 0 1 }
  | .cursorDown => { c with
      cursorRow := min ((c.cursorRow + c.paramOr 0 1) % 2 ^ 32) (c.rows - 1) }
  | .cursorForward => { c with
      cursorCol := min ((c.cursorCol + c.paramOr 0 1) % 2 ^ 32) (c.cols - 1) }
  | .cursorBack => { c with cursorCol := c.cursorCol - c.paramOr 0 1 }
  | .eraseDisplay =>
      if c.mode = 2 then c.eraseRows (List.range c.rows)
      else if c.mode = 1 then
        (c.eraseRows (List.range c.cursorRow)).eraseCells 0 c.cursorRow (c.cursorCol + 1)
      else
        (c.eraseCells c.cursorCol c.cursorRow (c.cols - c.cursorCol)).eraseRows
          (List.range' (c.cursorRow + 1) (c.rows - (c.cursorRow + 1)))
  | .eraseLine =>
      if c.mode = 2 then c.eraseCells 0 c.cursorRow c.cols
      else if c.mode = 1 then c.eraseCells 0 c.cursorRow (c.cursorCol + 1)
      else c.eraseCells c.cursorCol c.cursorRow (c.cols - c.cursorCol)
  | .attributes => { c with attr := c.attr.sgrAll c.params c.nparams }
  | .ignored => c

def newline (c : Console S) : Console S :=
  let c := { c with cursorCol := 0, cursorRow := c.cursorRow + 1 }
  if c.rows ≤ c.cursorRow then { c.scroll with cursorRow := c.rows - 1 } else c

def putGlyph (c : Console S) (cp : ℕ) : Console S :=
  let c := c.drawGlyph c.cursorCol c.cursorRow cp
  let c := { c with cursorCol := c.cursorCol + 1 }
  if c.cols ≤ c.cursorCol then c.newline else c

/-- The last byte of a control sequence. -/
def finishCsi (c : Console S) (b : UInt8) : Console S :=
  { if c.csiPrivate then c else c.handleCsi b with parse := .normal }

/-- A byte in a control sequence. -/
def putCsi (c : Console S) (b : UInt8) : Console S :=
  match csiByte b with
  | .question => if c.nparams = 0 then { c with csiPrivate := true } else c.finishCsi b
  | .digit d =>
      let n := if c.nparams = 0 then 1 else c.nparams
      { c with
        nparams := n
        params := Function.update c.params (n - 1) ((c.params (n - 1) * 10 + d) % 2 ^ 32) }
  | .separator =>
      let n := if c.nparams = 0 then 1 else c.nparams
      { c with nparams := if n < maxParams then n + 1 else n }
  | .other => c.finishCsi b

/-- What the first byte of a longer character gives: its bits, and how many bytes are to come. -/
def utf8Lead (b : UInt8) : Option (ℕ × ℕ) :=
  if b &&& 0xE0 = 0xC0 then some ((b &&& 0x1F).toNat, 1)
  else if b &&& 0xF0 = 0xE0 then some ((b &&& 0x0F).toNat, 2)
  else if b &&& 0xF8 = 0xF0 then some ((b &&& 0x07).toNat, 3)
  else none

/-- A byte that does not continue a character. -/
def putFirst (c : Console S) (b : UInt8) : Console S :=
  if 0x80 ≤ b then
    match utf8Lead b with
    | some (cp, need) => { c with utf8Cp := cp, utf8Need := need }
    | none => c.putGlyph '?'.toNat
  else if b = escByte then { c with parse := .esc }
  else if b = '\r'.toUInt8 then { c with cursorCol := 0 }
  else if b = 8 then
    if 0 < c.cursorCol then
      { c with cursorCol := c.cursorCol - 1 }.drawGlyph (c.cursorCol - 1) c.cursorRow ' '.toNat
    else c
  else if b = '\n'.toUInt8 then c.newline
  else c.putGlyph b.toNat

/-- A byte outside of an escape sequence. -/
def putNormal (c : Console S) (b : UInt8) : Console S :=
  if 0 < c.utf8Need then
    if b &&& 0xC0 = 0x80 then
      let c := { c with
        utf8Cp := c.utf8Cp <<< 6 ||| (b &&& 0x3F).toNat
        utf8Need := c.utf8Need - 1 }
      if c.utf8Need = 0 then c.putGlyph c.utf8Cp else c
    else ({ c with utf8Need := 0 }.putGlyph '?'.toNat).putFirst b
  else c.putFirst b

def putc (c : Console S) (b : UInt8) : Console S :=
  match c.parse with
  | .esc =>
      if b = '['.toUInt8 then
        { c with parse := .csi, nparams := 0, csiPrivate := false, params := fun _ => 0 }
      else { c with parse := .normal }
  | .csi => c.putCsi b
  | .normal => c.putNormal b

/-- A sequence of bytes. -/
def write (c : Console S) (bytes : List UInt8) : Console S := bytes.foldl putc c

end Console

/-! ### The grid -/

/-- The screen as a grid of cells, each with the code point and the attributes that were drawn last,
and the number of times that it has been scrolled. -/
structure Grid where
  cells : ℕ → ℕ → Cell ℕ
  scrolls : ℕ

/-- A cell that has been erased. -/
def blankCell : Cell ℕ := ⟨' '.toNat, .plain⟩

instance : Screen Grid where
  drawGlyph g col row cp a := { g with
    cells := fun x y => if x = col ∧ y = row then ⟨cp, a⟩ else g.cells x y }
  blank g col row count := { g with
    cells := fun x y => if y = row ∧ col ≤ x ∧ x < col + count then blankCell else g.cells x y }
  scroll g rows := {
    cells := fun x y => if y + 1 < rows then g.cells x (y + 1)
      else if y + 1 = rows then blankCell else g.cells x y
    scrolls := g.scrolls + 1 }

def Grid.blank : Grid := ⟨fun _ _ => blankCell, 0⟩

/-! ### The parser -/

/-- What decides how the next byte is read. -/
structure ParserState where
  parse : Parse
  nparams : ℕ
  isPrivate : Bool
  need : ℕ
deriving DecidableEq

namespace ParserState

/-- A byte of a control sequence. -/
def csi (p : ParserState) (b : UInt8) : ParserState :=
  match csiByte b with
  | .question => if p.nparams = 0 then { p with isPrivate := true } else { p with parse := .normal }
  | .digit _ => { p with nparams := if p.nparams = 0 then 1 else p.nparams }
  | .separator =>
      let n := if p.nparams = 0 then 1 else p.nparams
      { p with nparams := if n < maxParams then n + 1 else n }
  | .other => { p with parse := .normal }

/-- The byte after ESC. -/
def esc (p : ParserState) (b : UInt8) : ParserState :=
  if b = '['.toUInt8 then { p with parse := .csi, nparams := 0, isPrivate := false }
  else { p with parse := .normal }

/-- A byte that does not continue a character, outside of an escape sequence. -/
def first (p : ParserState) (b : UInt8) : ParserState :=
  if 0x80 ≤ b then
    match Console.utf8Lead b with
    | some (_, need) => { p with need := need }
    | none => p
  else if b = escByte then { p with parse := .esc }
  else p

/-- A byte outside of an escape sequence. -/
def normal (p : ParserState) (b : UInt8) : ParserState :=
  if 0 < p.need then
    if b &&& 0xC0 = 0x80 then { p with need := p.need - 1 } else { p with need := 0 }.first b
  else p.first b

/-- The parser of the console. -/
def console (p : ParserState) (b : UInt8) : ParserState :=
  match p.parse with
  | .esc => p.esc b
  | .csi => p.csi b
  | .normal => p.normal b

end ParserState

namespace Console

variable {S : Type*}

def parser (c : Console S) : ParserState := ⟨c.parse, c.nparams, c.csiPrivate, c.utf8Need⟩

/-- What drawing does not change. -/
structure SameButScreen (c c' : Console S) : Prop where
  parser : c'.parser = c.parser
  params : c'.params = c.params
  cols : c'.cols = c.cols
  rows : c'.rows = c.rows

theorem SameButScreen.refl (c : Console S) : SameButScreen c c := ⟨rfl, rfl, rfl, rfl⟩

theorem SameButScreen.trans {c c' c'' : Console S} (h : SameButScreen c c')
    (h' : SameButScreen c' c'') : SameButScreen c c'' :=
  ⟨h'.parser.trans h.parser, h'.params.trans h.params, h'.cols.trans h.cols, h'.rows.trans h.rows⟩

/-- The number of columns and rows. -/
def size (c : Console S) : ℕ × ℕ := (c.cols, c.rows)

theorem SameButScreen.size {c c' : Console S} (h : SameButScreen c c') : c'.size = c.size := by
  rw [Console.size, Console.size, h.cols, h.rows]

/-- What a byte makes of the parser; the size stays as it is. -/
structure Parses (c c' : Console S) (p : ParserState) : Prop where
  parser : c'.parser = p
  size : c'.size = c.size

theorem SameButScreen.parses {c c' : Console S} (h : SameButScreen c c') : Parses c c' c.parser :=
  ⟨h.parser, h.size⟩

variable [Screen S]

section

variable (c : Console S)

theorem sameButScreen_eraseCells (col row count : ℕ) :
    SameButScreen c (c.eraseCells col row count) := by
  unfold eraseCells
  split
  · exact .refl c
  · exact ⟨rfl, rfl, rfl, rfl⟩

theorem sameButScreen_eraseRows (rows : List ℕ) : SameButScreen c (c.eraseRows rows) := by
  induction rows generalizing c with
  | nil => exact .refl c
  | cons r rows ih => exact (c.sameButScreen_eraseCells 0 r c.cols).trans (ih _)

theorem sameButScreen_newline : SameButScreen c c.newline := by
  unfold newline
  dsimp only
  split <;> exact ⟨rfl, rfl, rfl, rfl⟩

theorem sameButScreen_putGlyph (cp : ℕ) : SameButScreen c (c.putGlyph cp) := by
  unfold putGlyph
  dsimp only
  split
  · refine .trans ?_ (sameButScreen_newline _)
    exact ⟨rfl, rfl, rfl, rfl⟩
  · exact ⟨rfl, rfl, rfl, rfl⟩

theorem sameButScreen_handleCsi (fin : UInt8) : SameButScreen c (c.handleCsi fin) := by
  unfold handleCsi
  split
  · exact ⟨rfl, rfl, rfl, rfl⟩
  · exact ⟨rfl, rfl, rfl, rfl⟩
  · exact ⟨rfl, rfl, rfl, rfl⟩
  · exact ⟨rfl, rfl, rfl, rfl⟩
  · exact ⟨rfl, rfl, rfl, rfl⟩
  · split_ifs
    · exact c.sameButScreen_eraseRows _
    · exact (c.sameButScreen_eraseRows _).trans (sameButScreen_eraseCells _ _ _ _)
    · exact (c.sameButScreen_eraseCells _ _ _).trans (sameButScreen_eraseRows _ _)
  · split_ifs <;> exact c.sameButScreen_eraseCells _ _ _
  · exact ⟨rfl, rfl, rfl, rfl⟩
  · exact .refl c

theorem parses_finishCsi (b : UInt8) :
    Parses c (c.finishCsi b) { c.parser with parse := .normal } := by
  unfold finishCsi
  split
  · exact ⟨rfl, rfl⟩
  · have h := (c.sameButScreen_handleCsi b).parser
    refine ⟨?_, (c.sameButScreen_handleCsi b).size⟩
    simp only [parser, ParserState.mk.injEq, true_and] at h ⊢
    exact h.2

theorem parses_putCsi (b : UInt8) : Parses c (c.putCsi b) (c.parser.csi b) := by
  unfold putCsi ParserState.csi
  cases csiByte b with
  | question =>
    by_cases hzero : c.nparams = 0
    · have hzero' : c.parser.nparams = 0 := hzero
      simp only [if_pos hzero, if_pos hzero']
      exact ⟨rfl, rfl⟩
    · have hzero' : c.parser.nparams ≠ 0 := hzero
      simp only [if_neg hzero, if_neg hzero']
      exact c.parses_finishCsi b
  | digit d => exact ⟨rfl, rfl⟩
  | separator => exact ⟨rfl, rfl⟩
  | other => exact c.parses_finishCsi b

theorem parses_putFirst (b : UInt8) :
    Parses c (c.putFirst b) (c.parser.first b) := by
  unfold putFirst ParserState.first
  split
  · rcases utf8Lead b with - | ⟨cp, need⟩
    · exact (c.sameButScreen_putGlyph _).parses
    · exact ⟨rfl, rfl⟩
  · split
    · exact ⟨rfl, rfl⟩
    · split_ifs
      · exact ⟨rfl, rfl⟩
      · exact ⟨rfl, rfl⟩
      · exact ⟨rfl, rfl⟩
      · exact c.sameButScreen_newline.parses
      · exact (c.sameButScreen_putGlyph _).parses

theorem parses_putNormal (b : UInt8) :
    Parses c (c.putNormal b) (c.parser.normal b) := by
  unfold putNormal ParserState.normal
  dsimp only
  by_cases hneed : 0 < c.utf8Need
  · have hneed' : 0 < c.parser.need := hneed
    rw [if_pos hneed, if_pos hneed']
    split
    · split
      · exact ⟨(sameButScreen_putGlyph _ _).parser, (sameButScreen_putGlyph _ _).size⟩
      · exact ⟨rfl, rfl⟩
    · constructor
      · rw [(parses_putFirst _ b).parser, (sameButScreen_putGlyph _ _).parser]
        rfl
      · rw [(parses_putFirst _ b).size, (sameButScreen_putGlyph _ _).size]
        rfl
  · have hneed' : ¬ 0 < c.parser.need := hneed
    rw [if_neg hneed, if_neg hneed']
    exact c.parses_putFirst b

/-- The parser of the console goes its own way. -/
theorem parses_putc (b : UInt8) : Parses c (c.putc b) (c.parser.console b) := by
  unfold putc
  split
  · rename_i hparse
    have hesc : c.parser.parse = .esc := hparse
    rw [ParserState.console, hesc]
    dsimp only
    rw [ParserState.esc]
    split <;> exact ⟨rfl, rfl⟩
  · rename_i hparse
    have hcsi : c.parser.parse = .csi := hparse
    rw [ParserState.console, hcsi]
    exact c.parses_putCsi b
  · rename_i hparse
    have hnormal : c.parser.parse = .normal := hparse
    rw [ParserState.console, hnormal]
    exact c.parses_putNormal b

end

/-! ### The size of the console -/

theorem size_write (c : Console S) (bytes : List UInt8) : (c.write bytes).size = c.size := by
  induction bytes generalizing c with
  | nil => rfl
  | cons b bytes ih => exact (ih (c.putc b)).trans (c.parses_putc b).size

end Console

/-! ### The console on a grid -/

namespace Console

section

variable (c : Console Grid)

theorem putGlyph_eq (cp : ℕ) :
    c.putGlyph cp = if c.cols ≤ c.cursorCol + 1 then
        (c.drawGlyph c.cursorCol c.cursorRow cp).newline
      else { c.drawGlyph c.cursorCol c.cursorRow cp with cursorCol := c.cursorCol + 1 } := rfl

theorem eraseCells_frame (col row count : ℕ) :
    { c.eraseCells col row count with screen := c.screen } = c := by
  unfold eraseCells
  split <;> rfl

theorem cells_eraseCells (col row count : ℕ) {x y : ℕ} (hx : x < c.cols) :
    (c.eraseCells col row count).screen.cells x y =
      if y = row ∧ col ≤ x ∧ x < col + count then blankCell else c.screen.cells x y := by
  unfold eraseCells
  split
  · rw [if_neg (by omega)]
  · show (if y = row ∧ col ≤ x ∧ x < col + min count (c.cols - col) then blankCell
      else c.screen.cells x y) = _
    congr 1
    rw [eq_iff_iff]
    constructor <;> (rintro ⟨h, h'⟩; exact ⟨h, by omega⟩)

theorem eraseRows_frame (rows : List ℕ) : { c.eraseRows rows with screen := c.screen } = c := by
  induction rows generalizing c with
  | nil => rfl
  | cons r rows ih =>
    have hrest := ih (c.eraseCells 0 r c.cols)
    have hfirst := c.eraseCells_frame 0 r c.cols
    exact (congrArg (fun k : Console Grid => { k with screen := c.screen }) hrest).trans hfirst

theorem scrolls_eraseCells (col row count : ℕ) :
    (c.eraseCells col row count).screen.scrolls = c.screen.scrolls := by
  unfold eraseCells
  split <;> rfl

theorem scrolls_eraseRows (rows : List ℕ) :
    (c.eraseRows rows).screen.scrolls = c.screen.scrolls := by
  induction rows generalizing c with
  | nil => rfl
  | cons r rows ih => exact (ih _).trans (c.scrolls_eraseCells 0 r c.cols)

theorem cells_eraseRows (rows : List ℕ) {x y : ℕ} (hx : x < c.cols) :
    (c.eraseRows rows).screen.cells x y = if y ∈ rows then blankCell else c.screen.cells x y := by
  induction rows generalizing c with
  | nil => rfl
  | cons r rows ih =>
    have hcols : (c.eraseCells 0 r c.cols).cols = c.cols := (c.sameButScreen_eraseCells 0 r c.cols).cols
    have hrest := ih (c.eraseCells 0 r c.cols) (hx.trans_eq hcols.symm)
    rw [c.cells_eraseCells 0 r c.cols hx] at hrest
    refine hrest.trans ?_
    simp only [List.mem_cons]
    grind

end
end Console

end AnssOS
