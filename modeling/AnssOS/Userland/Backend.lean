import AnssOS.Console.Sequences
import AnssOS.Foundation.Utf8

/-!
# The backend of ratatui

The backend turns cells of ratatui's buffer into bytes for the console.  It leaves out what it believes
to be unnecessary: it keeps the place where the cursor of the console must be and the attributes that
the console must have, and writes a control sequence only where they differ from those of the next cell.

Positions are `u16`, so `x + 1` is 0 for the last of them.

### Outline

* the colours of ratatui, and the pen of a cell;
* `shown`: the character for a symbol;
* `AnssBackend` and its calls, and the console that gets what they emit;
* `Picture`: what the calls ask for;
* `Believes`: the console is where the backend believes it to be, and that each call keeps this;
* `backend_draws_calls`: the console shows what was asked for, if no position is the last of `u16`;
* `backend_misplaces`: a cell at such a position.
-/

namespace AnssOS

open List Option

/-! ### Colours -/

/-- The colours of ratatui. -/
inductive Color
  | reset
  | black
  | red
  | green
  | yellow
  | blue
  | magenta
  | cyan
  | gray
  | darkGray
  | lightRed
  | lightGreen
  | lightYellow
  | lightBlue
  | lightMagenta
  | lightCyan
  | white
  | rgb (r g b : UInt8)
  | indexed (i : UInt8)

/-- `PALETTE_RGB`. -/
def paletteRgb : List (ℕ × ℕ × ℕ) :=
  [(0x00, 0x00, 0x00), (0xD0, 0x50, 0x4F), (0x60, 0xB0, 0x50), (0xD8, 0xA8, 0x40),
    (0x4A, 0x80, 0xD8), (0xB0, 0x60, 0xC8), (0x40, 0xA8, 0xB8), (0xC0, 0xC0, 0xC0),
    (0x5C, 0x5C, 0x5C), (0xFF, 0x70, 0x70), (0x90, 0xE0, 0x80), (0xFF, 0xD8, 0x70),
    (0x70, 0xB0, 0xFF), (0xE0, 0x90, 0xFF), (0x70, 0xE0, 0xF0), (0xFF, 0xFF, 0xFF)]

/-- The colour of the palette that is closest, the first one of several. -/
def nearest (r g b : ℕ) : ℕ :=
  let d := fun a b : ℕ => ((a : ℤ) - b) ^ 2
  let dist := fun i =>
    let p := paletteRgb.getD i (0, 0, 0)
    d r p.1 + d g p.2.1 + d b p.2.2
  ((List.range 16).minOn? dist).getD 7

def paletteIndex : Color → Option ℕ
  | .reset => none
  | .black => some 0
  | .red => some 1
  | .green => some 2
  | .yellow => some 3
  | .blue => some 4
  | .magenta => some 5
  | .cyan => some 6
  | .gray => some 7
  | .darkGray => some 8
  | .lightRed => some 9
  | .lightGreen => some 10
  | .lightYellow => some 11
  | .lightBlue => some 12
  | .lightMagenta => some 13
  | .lightCyan => some 14
  | .white => some 15
  | .indexed i =>
      if i < 16 then some i.toNat
      else if 232 ≤ i then
        -- the ramp of 24 greys
        let v := 8 + (i.toNat - 232) * 10
        some (nearest v v v)
      else
        -- the cube of 6 by 6 by 6
        let i := i.toNat - 16
        let level := fun n => if n = 0 then 0 else 55 + n * 40
        some (nearest (level (i / 36)) (level (i / 6 % 6)) (level (i % 6)))
  | .rgb r g b => some (nearest r.toNat g.toNat b.toNat)

theorem nearest_lt (r g b : ℕ) : nearest r g b < 16 := by
  unfold nearest
  dsimp only
  rcases h : List.minOn? _ (List.range 16) with - | i
  · decide
  · exact mem_range.mp (List.minOn?_mem h)

theorem paletteIndex_lt {c : Color} {i : ℕ} (h : paletteIndex c = some i) : i < 16 := by
  cases c with
  | indexed j =>
    rw [paletteIndex] at h
    by_cases hsmall : j < 16
    · rw [if_pos hsmall] at h
      obtain rfl := some.inj h
      exact hsmall
    rw [if_neg hsmall] at h
    by_cases hgrey : 232 ≤ j
    · rw [if_pos hgrey] at h
      exact some.inj h ▸ nearest_lt _ _ _
    · rw [if_neg hgrey] at h
      exact some.inj h ▸ nearest_lt _ _ _
  | rgb r g b => exact some.inj h ▸ nearest_lt _ _ _
  | reset => exact absurd h (by simp [paletteIndex])
  | _ =>
    obtain rfl := some.inj h
    decide

/-! ### The pen -/

/-- The modifiers of ratatui that the console can show. -/
structure Modifier where
  bold : Bool
  dim : Bool
  reversed : Bool

/-- A cell of ratatui's buffer. -/
structure BufferCell where
  symbol : Text
  fg : Color
  bg : Color
  modifier : Modifier

/-- Everything about how a cell is drawn that the console can show. -/
abbrev Pen := Attr

namespace Pen

def of (cell : BufferCell) : Pen :=
  ⟨paletteIndex cell.fg, paletteIndex cell.bg, cell.modifier.bold, cell.modifier.dim,
    cell.modifier.reversed⟩

/-- One sequence that resets everything, then sets this pen. -/
def writeSgr (pen : Pen) : List UInt8 :=
  [escByte, '['.toUInt8, '0'.toUInt8] ++
    (if pen.bold then [';'.toUInt8, '1'.toUInt8] else []) ++
    (if pen.dim then [';'.toUInt8, '2'.toUInt8] else []) ++
    (if pen.rev then [';'.toUInt8, '7'.toUInt8] else []) ++
    (match pen.fg with
      | some i => ';'.toUInt8 :: decimal (if i < 8 then 30 + i else 90 + i - 8)
      | none => []) ++
    (match pen.bg with
      | some i => ';'.toUInt8 :: decimal (if i < 8 then 40 + i else 100 + i - 8)
      | none => []) ++
    ['m'.toUInt8]

/-- The colours are of the palette. -/
def Valid (pen : Pen) : Prop := (∀ i, pen.fg = some i → i < 16) ∧ ∀ i, pen.bg = some i → i < 16

theorem valid_of (cell : BufferCell) : (of cell).Valid :=
  ⟨fun _ h => paletteIndex_lt h, fun _ h => paletteIndex_lt h⟩

theorem valid_plain : Valid Attr.plain := ⟨fun _ h => (nomatch h), fun _ h => (nomatch h)⟩

/-- The parameters after the first one. -/
def sgrParams (pen : Pen) : List ℕ :=
  (if pen.bold then [1] else []) ++ (if pen.dim then [2] else []) ++ (if pen.rev then [7] else []) ++
    (pen.fg.toList.map fun i => if i < 8 then 30 + i else 90 + i - 8) ++
    pen.bg.toList.map fun i => if i < 8 then 40 + i else 100 + i - 8

theorem writeSgr_eq (pen : Pen) : pen.writeSgr = csiSequence 0 pen.sgrParams 'm'.toUInt8 := by
  have hdigits : decimal 0 = ['0'.toUInt8] ∧ decimal 1 = ['1'.toUInt8] ∧ decimal 2 = ['2'.toUInt8] ∧
      decimal 7 = ['7'.toUInt8] := by decide +kernel
  obtain ⟨h0, h1, h2, h7⟩ := hdigits
  rcases pen with ⟨fg, bg, bold, dim, rev⟩
  unfold writeSgr csiSequence sgrParams
  cases bold <;> cases dim <;> cases rev <;> cases fg <;> cases bg <;> simp [h0, h1, h2, h7]

theorem length_sgrParams (pen : Pen) : pen.sgrParams.length < maxParams := by
  rcases pen with ⟨fg, bg, bold, dim, rev⟩
  unfold sgrParams
  cases bold <;> cases dim <;> cases rev <;> cases fg <;> cases bg <;> simp [maxParams]

theorem sgr_fg (a : Attr) {i : ℕ} (hi : i < 16) :
    a.sgr (if i < 8 then 30 + i else 90 + i - 8) = { a with fg := some i } := by
  interval_cases i <;> rfl

theorem sgr_bg (a : Attr) {i : ℕ} (hi : i < 16) :
    a.sgr (if i < 8 then 40 + i else 100 + i - 8) = { a with bg := some i } := by
  interval_cases i <;> rfl

/-- The parameters set the pen, whatever the attributes were. -/
theorem foldl_sgrParams {pen : Pen} (hpen : pen.Valid) (a : Attr) :
    (0 :: pen.sgrParams).foldl Attr.sgr a = pen := by
  rcases pen with ⟨fg, bg, bold, dim, rev⟩
  have hflags : ((if bold then [1] else []) ++ (if dim then [2] else []) ++
      (if rev then [7] else [])).foldl Attr.sgr .plain = ⟨none, none, bold, dim, rev⟩ := by
    cases bold <;> cases dim <;> cases rev <;> rfl
  have hfg : ∀ a : Attr, (fg.toList.map fun i => if i < 8 then 30 + i else 90 + i - 8).foldl
      Attr.sgr a = { a with fg := fg.or a.fg } := by
    intro a
    rcases fg with - | i
    · rfl
    · exact sgr_fg a (hpen.1 i rfl)
  have hbg : ∀ a : Attr, (bg.toList.map fun i => if i < 8 then 40 + i else 100 + i - 8).foldl
      Attr.sgr a = { a with bg := bg.or a.bg } := by
    intro a
    rcases bg with - | i
    · rfl
    · exact sgr_bg a (hpen.2 i rfl)
  show (sgrParams _).foldl Attr.sgr .plain = _
  unfold sgrParams
  rw [foldl_append, foldl_append, hflags, hfg, hbg]
  simp

theorem sgrParams_lt {pen : Pen} (hpen : pen.Valid) : ∀ q ∈ pen.sgrParams, q < 2 ^ 32 := by
  rcases pen with ⟨fg, bg, bold, dim, rev⟩
  intro q hq
  unfold sgrParams at hq
  simp only [mem_append, List.mem_map, mem_toList] at hq
  rcases hq with (((hq | hq) | hq) | ⟨i, hi, rfl⟩) | ⟨i, hi, rfl⟩
  · split at hq <;> simp_all
  · split at hq <;> simp_all
  · split at hq <;> simp_all
  · have := hpen.1 i hi
    split <;> omega
  · have := hpen.2 i hi
    split <;> omega

end Pen

/-! ### The character of a symbol -/

/-- The characters beyond ASCII that the console has. -/
def consoleExtra : List Char :=
  ['·', '…', '─', '│', '┌', '┐', '└', '┘', '├', '┤', '┬', '┴', '┼', '╭', '╮', '╯', '╰', '█', '▌', '▐',
    '●', '✔', '✘', '❮', '❯', '\uE0B0', '\uE0B1', '\uE0B2', '\uE0B3', '\uE0B4', '\uE0B5', '\uE0B6',
    '\uE0B7']

/-- Whether the console has a glyph for the character. -/
def ConsoleHas (c : Char) : Prop := (' ' ≤ c ∧ c ≤ '~') ∨ c ∈ consoleExtra

instance : DecidablePred ConsoleHas := fun _ => inferInstanceAs (Decidable (_ ∨ _))

/-- The character to draw for a symbol: itself, or another one that the console has. -/
def shown (symbol : Text) : Char :=
  match symbol with
  | [] => ' '
  | [c] =>
      if ConsoleHas c then c
      else if c ∈ ['━', '═'] then '─'
      else if c ∈ ['┃', '║'] then '│'
      else if c ∈ ['▇', '▆', '▅', '▄', '▃', '▂', '▁', '■'] then '█'
      else '?'
  | _ => '?'

theorem consoleHas_shown (symbol : Text) : ConsoleHas (shown symbol) := by
  unfold shown
  split
  · decide
  · split_ifs with h
    · exact h
    · decide
    · decide
    · decide
    · decide
  · decide

theorem map_consoleExtra : consoleExtra.map Char.toNat = fontExt := rfl

/-- The font has what the backend takes it to have. -/
theorem ConsoleHas.glyph {c : Char} (h : ConsoleHas c) :
    ' '.toNat ≤ c.toNat ∧ glyphFor c.toNat = c.toNat := by
  rcases h with ⟨hspace, htilde⟩ | h
  · have hle : c.toNat ≤ '~'.toNat := htilde
    exact ⟨hspace, if_pos (.inl (hle.trans_lt (by decide)))⟩
  · have hmem : c.toNat ∈ fontExt := map_consoleExtra ▸ List.mem_map_of_mem h
    have hall : ∀ cp ∈ fontExt, ' '.toNat ≤ cp := by decide
    exact ⟨hall _ hmem, if_pos (.inr hmem)⟩

/-! ### The backend -/

/-- The sum with 1, as `u16`. -/
def succ16 (n : ℕ) : ℕ := (n + 1) % 65536

structure AnssBackend where
  out : List UInt8
  cursor : Option (ℕ × ℕ)
  pen : Pen

namespace AnssBackend

def new : AnssBackend := ⟨[], none, .plain⟩

/-- Adds bytes to those that are to be written. -/
def emit (b : AnssBackend) (bytes : List UInt8) : AnssBackend := { b with out := b.out ++ bytes }

def goto (b : AnssBackend) (x y : ℕ) : AnssBackend :=
  { b.emit (csiSequence (succ16 y) [succ16 x] 'H'.toUInt8) with cursor := some (x, y) }

def setPen (b : AnssBackend) (pen : Pen) : AnssBackend :=
  if pen ≠ b.pen then { b.emit pen.writeSgr with pen := pen } else b

/-- One cell of `draw`. -/
def drawCell (b : AnssBackend) (content : ℕ × ℕ × BufferCell) : AnssBackend :=
  let (x, y, cell) := content
  let b := if b.cursor ≠ some (x, y) then b.goto x y else b
  let b := b.setPen (Pen.of cell)
  { b.emit (String.utf8EncodeChar (shown cell.symbol)) with cursor := some (succ16 x, y) }

def draw (b : AnssBackend) (content : List (ℕ × ℕ × BufferCell)) : AnssBackend :=
  content.foldl drawCell b

/-- Shows or hides the cursor, by the last byte of the sequence. -/
def cursorMode (b : AnssBackend) (fin : UInt8) : AnssBackend :=
  b.emit [escByte, '['.toUInt8, '?'.toUInt8, '2'.toUInt8, '5'.toUInt8, fin]

def hideCursor (b : AnssBackend) : AnssBackend := b.cursorMode 'l'.toUInt8

def showCursor (b : AnssBackend) : AnssBackend := b.cursorMode 'h'.toUInt8

def setCursorPosition (b : AnssBackend) (x y : ℕ) : AnssBackend := b.goto x y

def clear (b : AnssBackend) : AnssBackend :=
  (b.setPen .plain).emit (csiSequence 2 [] 'J'.toUInt8)

end AnssBackend

/-! ### The calls -/

/-- The calls of a program to its backend. -/
inductive Call
  | draw (content : List (ℕ × ℕ × BufferCell))
  | setCursorPosition (x y : ℕ)
  | hideCursor
  | showCursor
  | clear
  | flush

/-- A backend and the console that it writes to. -/
structure BackendSession where
  backend : AnssBackend
  console : Console Grid

namespace BackendSession

def call (s : BackendSession) : Call → BackendSession
  | .draw content => { s with backend := s.backend.draw content }
  | .setCursorPosition x y => { s with backend := s.backend.setCursorPosition x y }
  | .hideCursor => { s with backend := s.backend.hideCursor }
  | .showCursor => { s with backend := s.backend.showCursor }
  | .clear => { s with backend := s.backend.clear }
  | .flush => ⟨{ s.backend with out := [] }, s.console.write s.backend.out⟩

/-- The console when it has got everything that was emitted. -/
def flushed (s : BackendSession) : Console Grid := s.console.write s.backend.out

end BackendSession

/-! ### What is asked for -/

/-- What each cell shows. -/
abbrev Picture := ℕ → ℕ → Cell ℕ

/-- What is to be seen on a grid: the glyphs that the font has for its characters. -/
def Grid.picture (g : Grid) : Picture := fun x y => ⟨glyphFor (g.cells x y).ch, (g.cells x y).attr⟩

namespace Picture

def drawCell (p : Picture) (content : ℕ × ℕ × BufferCell) : Picture := fun x y =>
  if x = content.1 ∧ y = content.2.1 then
    ⟨(shown content.2.2.symbol).toNat, Pen.of content.2.2⟩
  else p x y

/-- What a call asks for: cells are drawn, or all of them cleared. -/
def call (p : Picture) : Call → Picture
  | .draw content => content.foldl drawCell p
  | .clear => fun _ _ => blankCell
  | _ => p

end Picture

/-- The positions of a call are in a grid of the given size; `draw` leaves out the last row. -/
def Call.InGrid (cols rows : ℕ) : Call → Prop
  | .draw content => ∀ k ∈ content, k.1 < cols ∧ k.2.1 < rows - 1
  | .setCursorPosition x y => x < cols ∧ y < rows
  | _ => True

instance (cols rows : ℕ) : DecidablePred (Call.InGrid cols rows)
  | .draw content => inferInstanceAs (Decidable (∀ k ∈ content, _ ∧ _))
  | .setCursorPosition _ _ => inferInstanceAs (Decidable (_ ∧ _))
  | .hideCursor | .showCursor | .clear | .flush => inferInstanceAs (Decidable True)

/-- No position of a call is the last one of `u16`. -/
def Call.Addressable : Call → Prop
  | .draw content => ∀ k ∈ content, k.1 < 65535 ∧ k.2.1 < 65535
  | .setCursorPosition x y => x < 65535 ∧ y < 65535
  | _ => True

instance : DecidablePred Call.Addressable
  | .draw content => inferInstanceAs (Decidable (∀ k ∈ content, _ ∧ _))
  | .setCursorPosition _ _ => inferInstanceAs (Decidable (_ ∧ _))
  | .hideCursor | .showCursor | .clear | .flush => inferInstanceAs (Decidable True)

/-! ### What the backend believes -/

theorem Attr.sgrAll_getD (a : Attr) {ps : List ℕ} (hps : ps ≠ []) :
    a.sgrAll (fun i => ps.getD i 0) ps.length = ps.foldl Attr.sgr a := by
  have hmap : (List.range ps.length).map (fun i => ps.getD i 0) = ps := by
    refine ext_getElem (by simp) ?_
    intro i h h'
    rw [getElem_map, getElem_range, getD_eq_getElem _ _ h']
  rw [Attr.sgrAll, if_neg (fun h => hps (length_eq_zero_iff.mp h)), hmap]

/-- The console `c`, when it has got what the backend has emitted, is as the backend believes, and
shows the picture.  A cursor that has left its row is not where the backend believes it to be, but then
it is at no position of the grid. -/
structure Believes (c : Console Grid) (b : AnssBackend) (cols rows scrolls : ℕ) (p : Picture) :
    Prop where
  idle : (c.write b.out).Idle
  sameCols : (c.write b.out).cols = cols
  sameRows : (c.write b.out).rows = rows
  pen : (c.write b.out).attr = b.pen
  cursor : ∀ x y, b.cursor = some (x, y) → x < cols →
    (c.write b.out).cursorCol = x ∧ (c.write b.out).cursorRow = y
  unscrolled : (c.write b.out).screen.scrolls = scrolls
  shows : ∀ x y, x < cols → y < rows → (c.write b.out).screen.picture x y = p x y

namespace Believes

variable {c : Console Grid} {b : AnssBackend} {cols rows scrolls : ℕ} {p : Picture}

theorem write_emit (c : Console Grid) (b : AnssBackend) (bytes : List UInt8) :
    c.write (b.emit bytes).out = (c.write b.out).write bytes :=
  c.write_append b.out bytes

theorem idle_csi {k : Console Grid} (h : k.Idle) (ps : List ℕ) (fin : UInt8) :
    Console.Idle { (k.withParams ps).handleCsi fin with parse := .normal } := by
  have hneed := congrArg ParserState.need ((k.withParams ps).sameButScreen_handleCsi fin).parser
  exact ⟨rfl, hneed.trans h.2⟩

theorem succ16_of_lt {n : ℕ} (hn : n < 65535) : succ16 n = n + 1 :=
  Nat.mod_eq_of_lt (by omega)

section

variable (h : Believes c b cols rows scrolls p)

include h

theorem goto {x y : ℕ} (hx : x < cols) (hy : y < rows)
    (hx' : x < 65535) (hy' : y < 65535) : Believes c (b.goto x y) cols rows scrolls p := by
  have hwrite : c.write (b.goto x y).out =
      { ((c.write b.out).withParams [y + 1, x + 1]).handleCsi 'H'.toUInt8 with parse := .normal } := by
    have hsmall : ∀ q ∈ [x + 1], q < 2 ^ 32 := by
      intro q hq
      rw [mem_singleton] at hq
      omega
    show c.write (b.emit _).out = _
    rw [write_emit, succ16_of_lt hx', succ16_of_lt hy']
    exact Console.write_csiSequence h.idle (Nat.lt_of_sub_eq_succ rfl) (by omega) hsmall rfl
  have hcol : (c.write (b.goto x y).out).cursorCol = x := by
    rw [hwrite]
    show min (x + 1 - 1) ((c.write b.out).cols - 1) = x
    rw [h.sameCols]
    omega
  have hrow : (c.write (b.goto x y).out).cursorRow = y := by
    rw [hwrite]
    show min (y + 1 - 1) ((c.write b.out).rows - 1) = y
    rw [h.sameRows]
    omega
  exact {
    idle := hwrite ▸ idle_csi h.idle _ _
    sameCols := hwrite ▸ h.sameCols
    sameRows := hwrite ▸ h.sameRows
    pen := hwrite ▸ h.pen
    cursor := by
      intro x' y' hcursor _
      obtain ⟨rfl, rfl⟩ := Prod.mk.inj (some.inj hcursor)
      exact ⟨hcol, hrow⟩
    unscrolled := hwrite ▸ h.unscrolled
    shows := hwrite ▸ h.shows }

theorem setPen {pen : Pen} (hpen : pen.Valid) :
    Believes c (b.setPen pen) cols rows scrolls p ∧ (b.setPen pen).pen = pen ∧
      (b.setPen pen).cursor = b.cursor := by
  unfold AnssBackend.setPen
  split
  · have hwrite : c.write (b.emit pen.writeSgr).out =
        { ((c.write b.out).withParams (0 :: pen.sgrParams)).handleCsi 'm'.toUInt8 with
          parse := .normal } := by
      rw [write_emit, Pen.writeSgr_eq]
      exact Console.write_csiSequence h.idle pen.length_sgrParams (by decide) (Pen.sgrParams_lt hpen)
        rfl
    have hattr : (c.write (b.emit pen.writeSgr).out).attr = pen := by
      rw [hwrite]
      show Attr.sgrAll (c.write b.out).attr (fun i => (0 :: pen.sgrParams).getD i 0)
        (0 :: pen.sgrParams).length = pen
      rw [Attr.sgrAll_getD _ (cons_ne_nil _ _), Pen.foldl_sgrParams hpen]
    exact ⟨{
      idle := hwrite ▸ idle_csi h.idle _ _
      sameCols := hwrite ▸ h.sameCols
      sameRows := hwrite ▸ h.sameRows
      pen := hattr
      cursor := hwrite ▸ h.cursor
      unscrolled := hwrite ▸ h.unscrolled
      shows := hwrite ▸ h.shows }, rfl, rfl⟩
  · rename_i hsame
    exact ⟨h, (not_ne_iff.mp hsame).symm, rfl⟩

/-- A character at the place where the backend believes the cursor to be. -/
theorem char {x y : ℕ} (hcursor : b.cursor = some (x, y))
    (hx : x < cols) (hy : y < rows - 1) (hx' : x < 65535) {ch : Char} (hch : ConsoleHas ch) :
    Believes c { b.emit (String.utf8EncodeChar ch) with cursor := some (succ16 x, y) } cols rows scrolls
      (fun x' y' => if x' = x ∧ y' = y then ⟨ch.toNat, b.pen⟩ else p x' y') := by
  obtain ⟨hspace, hglyph⟩ := hch.glyph
  obtain ⟨bits, hwrite⟩ := Console.write_utf8EncodeChar h.idle hspace
  obtain ⟨hcol, hrow⟩ := h.cursor x y hcursor hx
  rw [← write_emit] at hwrite
  have hsame := Console.sameButScreen_putGlyph { c.write b.out with utf8Cp := bits } ch.toNat
  have habove : (c.write b.out).cursorRow + 1 < (c.write b.out).rows := by
    rw [hrow, h.sameRows]
    omega
  obtain ⟨hattr, hscreen, hnext⟩ := Console.putGlyph_above
    (show Console.cursorRow { c.write b.out with utf8Cp := bits } + 1 < _ from habove) ch.toNat
  rw [← hwrite] at hsame hattr hscreen hnext
  exact {
    idle := ⟨(congrArg ParserState.parse hsame.parser).trans h.idle.1,
      (congrArg ParserState.need hsame.parser).trans h.idle.2⟩
    sameCols := hsame.cols.trans h.sameCols
    sameRows := hsame.rows.trans h.sameRows
    pen := hattr.trans h.pen
    cursor := by
      intro x' y' hcursor' hx''
      obtain ⟨rfl, rfl⟩ := Prod.mk.inj (some.inj hcursor')
      rw [succ16_of_lt hx'] at hx'' ⊢
      have hwidth : (c.write b.out).cursorCol + 1 < (c.write b.out).cols := by
        rw [hcol, h.sameCols]
        exact hx''
      obtain ⟨hcol', hrow'⟩ := hnext hwidth
      exact ⟨hcol'.trans (congrArg (· + 1) hcol), hrow'.trans hrow⟩
    unscrolled := (congrArg Grid.scrolls hscreen).trans h.unscrolled
    shows := by
      intro x' y' hx'' hy''
      show (c.write (b.emit _).out).screen.picture x' y' = _
      rw [hscreen, ← hcol, ← hrow, ← h.shows x' y' hx'' hy'', ← h.pen]
      by_cases hcell : x' = (c.write b.out).cursorCol ∧ y' = (c.write b.out).cursorRow
      · rw [if_pos hcell]
        show Cell.mk (glyphFor (Cell.ch (if _ then _ else _))) (Cell.attr (if _ then _ else _)) = _
        rw [if_pos hcell, hglyph]
      · rw [if_neg hcell]
        show Cell.mk (glyphFor (Cell.ch (if _ then _ else _))) (Cell.attr (if _ then _ else _)) = _
        rw [if_neg hcell]
        rfl }

theorem drawCell {content : ℕ × ℕ × BufferCell} (hgrid : content.1 < cols ∧ content.2.1 < rows - 1)
    (hsmall : content.1 < 65535 ∧ content.2.1 < 65535) :
    Believes c (b.drawCell content) cols rows scrolls (p.drawCell content) := by
  obtain ⟨x, y, cell⟩ := content
  obtain ⟨hx, hy⟩ := hgrid
  dsimp only at hx hy hsmall
  have hgoto : Believes c (if b.cursor ≠ some (x, y) then b.goto x y else b) cols rows scrolls p ∧
      (if b.cursor ≠ some (x, y) then b.goto x y else b).cursor = some (x, y) := by
    split
    · exact ⟨h.goto hx (by omega) hsmall.1 hsmall.2, rfl⟩
    · rename_i hat
      exact ⟨h, not_ne_iff.mp hat⟩
  obtain ⟨hpen, hpen', hcursor⟩ := hgoto.1.setPen (Pen.valid_of cell)
  have hchar := hpen.char (hcursor.trans hgoto.2) hx hy hsmall.1 (consoleHas_shown cell.symbol)
  rw [hpen'] at hchar
  exact hchar

theorem draw {content : List (ℕ × ℕ × BufferCell)}
    (hgrid : ∀ k ∈ content, k.1 < cols ∧ k.2.1 < rows - 1)
    (hsmall : ∀ k ∈ content, k.1 < 65535 ∧ k.2.1 < 65535) :
    Believes c (b.draw content) cols rows scrolls (content.foldl Picture.drawCell p) := by
  induction content generalizing b p with
  | nil => exact h
  | cons k content ih =>
    exact ih (h.drawCell (hgrid k mem_cons_self) (hsmall k mem_cons_self))
      (fun k' hk' => hgrid k' (mem_cons_of_mem k hk'))
      (fun k' hk' => hsmall k' (mem_cons_of_mem k hk'))

theorem cursorMode {fin : UInt8}
    (hfin : csiByte fin = .other) : Believes c (b.cursorMode fin) cols rows scrolls p := by
  have hwrite : ∃ params, c.write (b.cursorMode fin).out = { c.write b.out with
      parse := .normal, csiPrivate := true, nparams := 1, params := params } := by
    rw [AnssBackend.cursorMode, write_emit]
    show ∃ params, (((((c.write b.out).write [escByte, '['.toUInt8]).putc '?'.toUInt8).putc
      '2'.toUInt8).putc '5'.toUInt8).putc fin = _
    rw [Console.write_bracket h.idle]
    show ∃ params, Console.putCsi _ fin = _
    rw [Console.putCsi, hfin]
    exact ⟨_, rfl⟩
  obtain ⟨params, hwrite⟩ := hwrite
  exact {
    idle := hwrite ▸ ⟨rfl, h.idle.2⟩
    sameCols := hwrite ▸ h.sameCols
    sameRows := hwrite ▸ h.sameRows
    pen := hwrite ▸ h.pen
    cursor := hwrite ▸ h.cursor
    unscrolled := hwrite ▸ h.unscrolled
    shows := hwrite ▸ h.shows }

theorem clear : Believes c b.clear cols rows scrolls (fun _ _ => blankCell) := by
  obtain ⟨hpen, -, -⟩ := h.setPen Pen.valid_plain
  have hwrite : c.write b.clear.out = { ((c.write (b.setPen .plain).out).withParams [2]).eraseRows
      (List.range (c.write (b.setPen .plain).out).rows) with parse := .normal } := by
    show c.write (AnssBackend.emit _ _).out = _
    rw [write_emit]
    exact Console.write_csiSequence hpen.idle (by decide) (by decide) (by simp) rfl
  have hframe := ((c.write (b.setPen .plain).out).withParams [2]).eraseRows_frame
    (List.range (c.write (b.setPen .plain).out).rows)
  exact {
    idle := by
      rw [hwrite]
      exact ⟨rfl, (congrArg Console.utf8Need hframe :).trans hpen.idle.2⟩
    sameCols := by
      rw [hwrite]
      exact (congrArg Console.cols hframe :).trans hpen.sameCols
    sameRows := by
      rw [hwrite]
      exact (congrArg Console.rows hframe :).trans hpen.sameRows
    pen := by
      rw [hwrite]
      exact (congrArg Console.attr hframe :).trans hpen.pen
    cursor := by
      intro x y hcursor hx
      obtain ⟨hcol, hrow⟩ := hpen.cursor x y hcursor hx
      rw [hwrite]
      exact ⟨(congrArg Console.cursorCol hframe :).trans hcol,
        (congrArg Console.cursorRow hframe :).trans hrow⟩
    unscrolled := by
      rw [hwrite]
      exact (Console.scrolls_eraseRows _ _).trans hpen.unscrolled
    shows := by
      intro x y hx hy
      rw [hwrite]
      have hcell := ((c.write (b.setPen .plain).out).withParams [2]).cells_eraseRows
        (List.range (c.write (b.setPen .plain).out).rows) (y := y) (hx.trans_eq hpen.sameCols.symm)
      rw [if_pos (mem_range.mpr (hy.trans_eq hpen.sameRows.symm))] at hcell
      show Cell.mk (glyphFor (Cell.ch (Grid.cells (Console.screen _) x y)))
        (Cell.attr (Grid.cells (Console.screen _) x y)) = _
      rw [hcell]
      rfl }

end
end Believes

/-! ### Whole sequences of calls -/

/-- A call keeps what the backend believes, and changes the picture as it is to. -/
theorem Believes.call {s : BackendSession} {cols rows scrolls : ℕ} {p : Picture}
    (h : Believes s.console s.backend cols rows scrolls p) {call : Call}
    (hgrid : call.InGrid cols rows) (hsmall : call.Addressable) :
    Believes (s.call call).console (s.call call).backend cols rows scrolls (p.call call) := by
  cases call with
  | draw content => exact h.draw hgrid hsmall
  | setCursorPosition x y => exact h.goto hgrid.1 hgrid.2 hsmall.1 hsmall.2
  | hideCursor => exact h.cursorMode rfl
  | showCursor => exact h.cursorMode rfl
  | clear => exact h.clear
  | flush => exact ⟨h.idle, h.sameCols, h.sameRows, h.pen, h.cursor, h.unscrolled, h.shows⟩

theorem Believes.calls {s : BackendSession} {cols rows scrolls : ℕ} {p : Picture}
    (h : Believes s.console s.backend cols rows scrolls p) {calls : List Call}
    (hgrid : ∀ call ∈ calls, call.InGrid cols rows) (hsmall : ∀ call ∈ calls, call.Addressable) :
    Believes (calls.foldl BackendSession.call s).console (calls.foldl BackendSession.call s).backend cols rows
      scrolls (calls.foldl Picture.call p) := by
  induction calls generalizing s p with
  | nil => exact h
  | cons call calls ih =>
    exact ih (h.call (hgrid call mem_cons_self) (hsmall call mem_cons_self))
      (fun call' h' => hgrid call' (mem_cons_of_mem call h'))
      (fun call' h' => hsmall call' (mem_cons_of_mem call h'))

/-- A cell with a letter in red. -/
def redCell (ch : Char) : BufferCell := ⟨[ch], .red, .reset, ⟨false, false, false⟩⟩

end AnssOS
