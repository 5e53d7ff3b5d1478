import AnssOS.Userland.Vt

/-!
# The emulator shows what the console shows

The emulator has its cells in a list, erases them one by one and computes with `u16`; the console has a
screen that it blanks in stripes and scrolls, and computes with `u32`.  `Emulates` relates the two, and
every byte that both understand keeps it.

### Outline

* the cells of the emulator after `set`, `erase` and `scrollUp`;
* `SameScreen`: the same cells, the same cursor and the same attributes, and that drawing keeps it;
* `Emulates`: moreover the same input that is not complete yet, and that a byte keeps it;
* `vt_shows_console`: the result for a whole stream.
-/

namespace AnssOS

open List Function

/-! ### The cells of the emulator -/

namespace Vt

/-- The emulator has a cell for each place of the grid. -/
def Sized (v : Vt) : Prop := v.cells.length = v.cols * v.rows

theorem index_lt {cols rows x y : ℕ} (hx : x < cols) (hy : y < rows) :
    y * cols + x < cols * rows := by
  calc y * cols + x < (y + 1) * cols := by rw [Nat.succ_mul]; omega
    _ ≤ rows * cols := Nat.mul_le_mul_right cols hy
    _ = cols * rows := Nat.mul_comm rows cols

theorem index_inj {cols x y x' y' : ℕ} (hx : x < cols) (hx' : x' < cols)
    (h : y * cols + x = y' * cols + x') : x = x' ∧ y = y' := by
  have hmod := congrArg (· % cols) h
  simp only [Nat.mul_add_mod_self_right, Nat.mod_eq_of_lt hx, Nat.mod_eq_of_lt hx'] at hmod
  subst hmod
  exact ⟨rfl, Nat.eq_of_mul_eq_mul_right (by omega) (Nat.add_right_cancel h)⟩

theorem cell_set {v : Vt} (hsize : v.Sized) {x y x' y' : ℕ} (hx : x < v.cols) (hy : y < v.rows)
    (hx' : x' < v.cols) (k : Cell Char) :
    (v.set x y k).cell x' y' = if x' = x ∧ y' = y then k else v.cell x' y' := by
  unfold cell set
  rw [getD_eq_getElem?_getD, getD_eq_getElem?_getD]
  by_cases h : x' = x ∧ y' = y
  · obtain ⟨rfl, rfl⟩ := h
    have hlt : y' * v.cols + x' < v.cells.length := hsize ▸ index_lt hx hy
    rw [if_pos ⟨rfl, rfl⟩, getElem?_set_self hlt]
    rfl
  · have hne : y * v.cols + x ≠ y' * v.cols + x' := by
      intro heq
      obtain ⟨rfl, rfl⟩ := index_inj hx hx' heq
      exact h ⟨rfl, rfl⟩
    rw [if_neg h, getElem?_set_ne hne]

theorem cell_scrollUp {v : Vt} (hsize : v.Sized) {x y : ℕ} (hx : x < v.cols) (hy : y < v.rows) :
    v.scrollUp.cell x y = if y + 1 < v.rows then v.cell x (y + 1) else blank := by
  have hdrop : (v.cells.drop v.cols).length = v.cols * (v.rows - 1) := by
    rw [length_drop, hsize, Nat.mul_sub_one]
  unfold cell scrollUp
  dsimp only
  rw [getD_eq_getElem?_getD, getD_eq_getElem?_getD]
  split
  · rename_i hlast
    have hlt : y * v.cols + x < (v.cells.drop v.cols).length := by
      rw [hdrop]
      exact index_lt hx (by omega)
    rw [getElem?_append_left hlt, getElem?_drop]
    congr 2
    rw [Nat.succ_mul]
    omega
  · rename_i hlast
    have hy' : y = v.rows - 1 := by omega
    have hge : (v.cells.drop v.cols).length ≤ y * v.cols + x := by
      rw [hdrop, hy', Nat.mul_comm]
      exact Nat.le_add_right _ _
    have hrest : y * v.cols + x - (v.cells.drop v.cols).length = x := by
      rw [hdrop, hy', Nat.mul_comm]
      exact Nat.add_sub_cancel_left _ _
    rw [getElem?_append_right hge, hrest, getElem?_replicate, if_pos hx]
    rfl

theorem put_eq (v : Vt) (ch : Char) :
    v.put ch = if v.cols ≤ v.cx + 1 then { v.set v.cx v.cy ⟨ch, v.attr⟩ with cx := 0 }.nextRow
      else { v.set v.cx v.cy ⟨ch, v.attr⟩ with cx := v.cx + 1 } := rfl

/-- What a loop over the columns of a row does. -/
theorem cell_foldl_set {v : Vt} (hsize : v.Sized) {y : ℕ} (hy : y < v.rows) {is : List ℕ}
    (his : ∀ i ∈ is, i < v.cols) :
    { is.foldl (fun v i => v.set i y blank) v with cells := v.cells } = v ∧
      (is.foldl (fun v i => v.set i y blank) v).Sized ∧
      ∀ x' y', x' < v.cols → (is.foldl (fun v i => v.set i y blank) v).cell x' y' =
        if y' = y ∧ x' ∈ is then blank else v.cell x' y' := by
  induction is generalizing v with
  | nil => exact ⟨rfl, hsize, fun x' y' _ => by simp⟩
  | cons i is ih =>
    have hi : i < v.cols := his i mem_cons_self
    have hsize' : (v.set i y blank).Sized := (length_set ..).trans hsize
    obtain ⟨hsame, hsized, hcell⟩ :=
      ih hsize' hy (fun j hj => his j (mem_cons_of_mem i hj))
    refine ⟨?_, hsized, ?_⟩
    · exact congrArg (fun w : Vt => { w with cells := v.cells }) hsame
    · intro x' y' hx'
      rw [foldl_cons, hcell x' y' hx', cell_set hsize hi hy hx']
      simp only [mem_cons]
      grind

theorem cell_erase {v : Vt} (hsize : v.Sized) {y : ℕ} (hy : y < v.rows) (x count : ℕ) :
    { v.erase x y count with cells := v.cells } = v ∧ (v.erase x y count).Sized ∧
      ∀ x' y', x' < v.cols → (v.erase x y count).cell x' y' =
        if y' = y ∧ x ≤ x' ∧ x' < x + count then blank else v.cell x' y' := by
  have hrange : ∀ i ∈ List.range' x (min (x + count) v.cols - x), i < v.cols := by
    intro i hi
    rw [mem_range'_1] at hi
    omega
  obtain ⟨hsame, hsized, hcell⟩ := cell_foldl_set hsize hy hrange
  refine ⟨hsame, hsized, ?_⟩
  intro x' y' hx'
  rw [erase, hcell x' y' hx']
  congr 1
  rw [mem_range'_1, eq_iff_iff]
  constructor <;> (rintro ⟨h, h'⟩; exact ⟨h, by omega⟩)

end Vt

/-! ### The same screen -/

/-- The console shows the character, or a `?` as it has no bitmap for the code point. -/
def SameChar (cp : ℕ) (ch : Char) : Prop := cp = ch.toNat ∨ ch = '?' ∧ glyphFor cp = '?'.toNat

structure SameCell (k : Cell ℕ) (k' : Cell Char) : Prop where
  ch : SameChar k.ch k'.ch
  attr : k'.attr = k.attr

theorem sameCell_blank : SameCell blankCell Vt.blank := ⟨.inl rfl, rfl⟩

/-- What is not a character has no bitmap. -/
theorem sameChar_charFrom (cp : ℕ) : SameChar cp (Vt.charFrom cp) := by
  unfold Vt.charFrom
  split
  · rename_i hvalid
    left
    rw [Char.ofNat, dif_pos hvalid]
    rfl
  · rename_i hvalid
    refine .inr ⟨rfl, ?_⟩
    rw [glyphFor, if_neg]
    rintro (hlt | hmem)
    · exact hvalid (.inl (by omega))
    · have hext : ∀ cp ∈ fontExt, cp.isValidChar := by decide
      exact hvalid (hext cp hmem)

/-- The two show the same, in grids that `u16` can address. -/
structure SameScreen (c : Console Grid) (v : Vt) : Prop where
  cols : v.cols = c.cols
  rows : v.rows = c.rows
  colsLe : c.cols ≤ 65535
  rowsLe : c.rows ≤ 65535
  col : v.cx = c.cursorCol
  row : v.cy = c.cursorRow
  colLt : c.cursorCol < c.cols
  rowLt : c.cursorRow < c.rows
  attr : v.attr = c.attr
  size : v.Sized
  cells : ∀ x y, x < c.cols → y < c.rows → SameCell (c.screen.cells x y) (v.cell x y)

namespace SameScreen

variable {c : Console Grid} {v : Vt}

section

variable (h : SameScreen c v)

include h

/-- A change to the cells alone. -/
theorem redraw {c' : Console Grid} {v' : Vt} (hc : { c' with screen := c.screen } = c)
    (hv : { v' with cells := v.cells } = v) (hsize : v'.Sized)
    (hcells : ∀ x y, x < c.cols → y < c.rows → SameCell (c'.screen.cells x y) (v'.cell x y)) :
    SameScreen c' v' := by
  have hcols : c'.cols = c.cols := (congrArg Console.cols hc :)
  have hrows : c'.rows = c.rows := (congrArg Console.rows hc :)
  have hcol : c'.cursorCol = c.cursorCol := (congrArg Console.cursorCol hc :)
  have hrow : c'.cursorRow = c.cursorRow := (congrArg Console.cursorRow hc :)
  exact {
    cols := (congrArg Vt.cols hv).trans (h.cols.trans hcols.symm)
    rows := (congrArg Vt.rows hv).trans (h.rows.trans hrows.symm)
    colsLe := hcols ▸ h.colsLe
    rowsLe := hrows ▸ h.rowsLe
    col := (congrArg Vt.cx hv).trans (h.col.trans hcol.symm)
    row := (congrArg Vt.cy hv).trans (h.row.trans hrow.symm)
    colLt := by rw [hcol, hcols]; exact h.colLt
    rowLt := by rw [hrow, hrows]; exact h.rowLt
    attr := (congrArg Vt.attr hv).trans (h.attr.trans (congrArg Console.attr hc).symm)
    size := hsize
    cells := by rw [hcols, hrows]; exact hcells }

theorem draw {cp : ℕ} {ch : Char} (hch : SameChar cp ch) {col row : ℕ} (hcol : col < c.cols)
    (hrow : row < c.rows) : SameScreen (c.drawGlyph col row cp) (v.set col row ⟨ch, v.attr⟩) := by
  refine h.redraw rfl rfl ((length_set ..).trans h.size) ?_
  intro x y hx hy
  have hx' : x < v.cols := h.cols ▸ hx
  rw [Vt.cell_set h.size (h.cols ▸ hcol) (h.rows ▸ hrow) hx']
  show SameCell (if x = col ∧ y = row then ⟨cp, c.attr⟩ else c.screen.cells x y) _
  split
  · exact ⟨hch, h.attr⟩
  · exact h.cells x y hx hy

theorem erase (col : ℕ) {row : ℕ} (hrow : row < c.rows) (count : ℕ) :
    SameScreen (c.eraseCells col row count) (v.erase col row count) := by
  obtain ⟨hsame, hsized, hcell⟩ := Vt.cell_erase h.size (h.rows ▸ hrow) col count
  refine h.redraw (c.eraseCells_frame col row count) hsame hsized ?_
  intro x y hx hy
  rw [c.cells_eraseCells col row count hx, hcell x y (h.cols ▸ hx)]
  split
  · exact sameCell_blank
  · exact h.cells x y hx hy

/-- A loop over rows. -/
theorem foldl_erase {rows : List ℕ} (hrows : ∀ r ∈ rows, r < c.rows) :
    SameScreen (c.eraseRows rows) (rows.foldl (fun v y => v.erase 0 y v.cols) v) := by
  induction rows generalizing c v with
  | nil => exact h
  | cons r rows ih =>
    have hstep : SameScreen (c.eraseCells 0 r c.cols) (v.erase 0 r v.cols) := by
      rw [h.cols]
      exact h.erase 0 (hrows r mem_cons_self) c.cols
    have hsame : (c.eraseCells 0 r c.cols).rows = c.rows := (c.sameButScreen_eraseCells 0 r c.cols).rows
    refine ih hstep ?_
    intro r' hr'
    rw [hsame]
    exact hrows r' (mem_cons_of_mem r hr')

theorem eraseRows (start : ℕ) {stop : ℕ} (hstop : stop ≤ c.rows) :
    SameScreen (c.eraseRows (List.range' start (stop - start))) (v.eraseRows start stop) := by
  refine h.foldl_erase ?_
  intro r hr
  rw [mem_range'_1] at hr
  omega

theorem newline : SameScreen c.newline { v with cx := 0 }.nextRow := by
  have hpos : 0 < c.cols := Nat.zero_lt_of_lt h.colLt
  unfold Console.newline Vt.nextRow
  dsimp only
  by_cases hlast : c.rows ≤ c.cursorRow + 1
  · have hlast' : v.rows ≤ v.cy + 1 := by rw [h.rows, h.row]; exact hlast
    rw [if_pos hlast, if_pos hlast']
    have hlt := h.rowLt
    refine { h with
      col := rfl
      colLt := hpos
      row := congrArg (· - 1) h.rows
      rowLt := Nat.sub_lt (Nat.zero_lt_of_lt h.rowLt) Nat.one_pos
      size := ?_
      cells := ?_ }
    · have hsize : v.cells.length = v.cols * v.rows := h.size
      have hle : v.cols ≤ v.cols * v.rows := Nat.le_mul_of_pos_right _ (by rw [h.rows]; omega)
      show (v.cells.drop v.cols ++ List.replicate v.cols Vt.blank).length = v.cols * v.rows
      rw [length_append, length_drop, length_replicate, hsize]
      omega
    · intro x y hx hy
      have hx' : x < c.cols := hx
      have hy' : y < c.rows := hy
      show SameCell (if y + 1 < c.rows then c.screen.cells x (y + 1)
        else if y + 1 = c.rows then blankCell else c.screen.cells x y) (v.scrollUp.cell x y)
      rw [Vt.cell_scrollUp h.size (h.cols ▸ hx') (h.rows ▸ hy'), h.rows]
      split
      · rename_i hnext
        exact h.cells x (y + 1) hx' hnext
      · rw [if_pos (by omega)]
        exact sameCell_blank
  · have hlast' : ¬ v.rows ≤ v.cy + 1 := by rw [h.rows, h.row]; exact hlast
    rw [if_neg hlast, if_neg hlast']
    exact { h with
      col := rfl
      colLt := hpos
      row := congrArg (· + 1) h.row
      rowLt := Nat.lt_of_not_le hlast }

theorem put {cp : ℕ} {ch : Char} (hch : SameChar cp ch) :
    SameScreen (c.putGlyph cp) (v.put ch) := by
  have hdraw : SameScreen (c.drawGlyph c.cursorCol c.cursorRow cp)
      (v.set v.cx v.cy ⟨ch, v.attr⟩) := by
    rw [h.col, h.row]
    exact h.draw hch h.colLt h.rowLt
  by_cases hwrap : c.cols ≤ c.cursorCol + 1
  · have hwrap' : v.cols ≤ v.cx + 1 := by rw [h.cols, h.col]; exact hwrap
    rw [Console.putGlyph_eq, Vt.put_eq, if_pos hwrap, if_pos hwrap']
    exact hdraw.newline
  · have hwrap' : ¬ v.cols ≤ v.cx + 1 := by rw [h.cols, h.col]; exact hwrap
    rw [Console.putGlyph_eq, Vt.put_eq, if_neg hwrap, if_neg hwrap']
    exact { hdraw with
      col := congrArg (· + 1) h.col
      colLt := Nat.lt_of_not_le hwrap }

end
end SameScreen

/-! ### The same input -/

theorem csiByte_digit_lt {b : UInt8} {d : ℕ} (h : csiByte b = .digit d) : d < 10 := by
  unfold csiByte at h
  split_ifs at h with _ hdigit
  obtain rfl : b.toNat - '0'.toNat = d := CsiByte.digit.inj h
  have hle : b.toNat ≤ 57 := hdigit.2
  show b.toNat - 48 < 10
  omega

/-- Both add a digit in the same way to a parameter that stays small. -/
theorem Vt.saturatingAdd_digit {p d : ℕ} (hp : p < 65536) (hd : d < 10)
    (hsmall : (p * 10 + d) % 2 ^ 32 < 65536) :
    saturatingAdd (min (p * 10) 65535) d = (p * 10 + d) % 2 ^ 32 := by
  have hmod : (p * 10 + d) % 2 ^ 32 = p * 10 + d := Nat.mod_eq_of_lt (by omega)
  rw [hmod] at hsmall ⊢
  unfold saturatingAdd
  omega

/-- The emulator is where the console is: it shows the same, and has seen the same of an escape
sequence or a character that is not complete. -/
structure Emulates (c : Console Grid) (v : Vt) : Prop where
  screen : SameScreen c v
  parser : v.parser = c.parser
  clean : c.parser.Clean
  params : v.params = c.params
  small : ∀ i, c.params i < 65536
  utf8 : 0 < c.utf8Need → v.utf8.1 = c.utf8Cp

namespace Emulates

variable {c : Console Grid} {v : Vt}

section

variable (h : Emulates c v)

include h

theorem nparams : v.nparams = c.nparams := congrArg ParserState.nparams h.parser

theorem need : v.utf8.2 = c.utf8Need := congrArg ParserState.need h.parser

theorem paramOr (n fallback : ℕ) : v.paramOr n fallback = c.paramOr n fallback := by
  rw [Vt.paramOr, Console.paramOr, h.params, h.nparams]

theorem paramOr_lt (n : ℕ) : c.paramOr n 1 < 65536 := by
  unfold Console.paramOr AnssOS.paramOr
  split
  · decide
  · exact h.small n

theorem mode : v.mode = c.mode := by
  rw [Vt.mode, Console.mode, h.params, h.nparams]

/-- Nothing but what is shown changes. -/
theorem draw (hneed : c.utf8Need = 0) {c' : Console Grid} {v' : Vt}
    (hc : c.SameButScreen c') (hv : v.SameButScreen v') (hscreen : SameScreen c' v') :
    Emulates c' v' where
  screen := hscreen
  parser := hv.parser.trans (h.parser.trans hc.parser.symm)
  clean := hc.parser ▸ h.clean
  params := hv.params.trans (h.params.trans hc.params.symm)
  small := hc.params ▸ h.small
  utf8 := by
    have hneed' : c'.utf8Need = c.utf8Need := congrArg ParserState.need hc.parser
    rw [hneed', hneed]
    exact fun hpos => absurd hpos (Nat.lt_irrefl 0)

theorem screen_handleCsi (fin : UInt8) : SameScreen (c.handleCsi fin) (v.csi fin) := by
  have hs := h.screen
  have hp := h.paramOr_lt 0
  have hcols := hs.colsLe
  have hrows := hs.rowsLe
  have hcol := hs.colLt
  have hrow := hs.rowLt
  unfold Console.handleCsi Vt.csi
  cases csiCommand fin with
  | cursorPosition =>
    exact { hs with
      row := by dsimp only; rw [h.paramOr, hs.rows]
      col := by dsimp only; rw [h.paramOr, hs.cols]
      rowLt := by dsimp only; omega
      colLt := by dsimp only; omega }
  | cursorUp =>
    exact { hs with
      row := by dsimp only; rw [h.paramOr, hs.row]
      rowLt := by dsimp only; omega }
  | cursorDown =>
    exact { hs with
      row := by
        dsimp only
        rw [h.paramOr, hs.row, hs.rows, Vt.saturatingAdd]
        omega
      rowLt := by dsimp only; omega }
  | cursorForward =>
    exact { hs with
      col := by
        dsimp only
        rw [h.paramOr, hs.col, hs.cols, Vt.saturatingAdd]
        omega
      colLt := by dsimp only; omega }
  | cursorBack =>
    exact { hs with
      col := by dsimp only; rw [h.paramOr, hs.col]
      colLt := by dsimp only; omega }
  | eraseDisplay =>
    dsimp only
    rw [h.mode, hs.rows, hs.row, hs.col, hs.cols]
    rw [range_eq_range', range_eq_range']
    split_ifs
    · exact hs.eraseRows 0 le_rfl
    · refine (hs.eraseRows 0 hrow.le).erase 0 ?_ (c.cursorCol + 1)
      rw [(c.sameButScreen_eraseRows _).rows]
      exact hrow
    · refine (hs.erase c.cursorCol hrow (c.cols - c.cursorCol)).eraseRows (c.cursorRow + 1) ?_
      rw [(c.sameButScreen_eraseCells ..).rows]
  | eraseLine =>
    dsimp only
    rw [h.mode, hs.row, hs.col, hs.cols]
    split_ifs
    · exact hs.erase 0 hrow c.cols
    · exact hs.erase 0 hrow (c.cursorCol + 1)
    · exact hs.erase c.cursorCol hrow (c.cols - c.cursorCol)
  | attributes =>
    exact { hs with attr := by dsimp only; rw [hs.attr, h.params, h.nparams] }
  | ignored => exact hs

theorem screen_privateCsi (fin : UInt8) : SameScreen c (v.privateCsi fin) := by
  have hs := h.screen
  unfold Vt.privateCsi
  split_ifs <;> exact { hs with }

/-- An escape sequence ends. -/
theorem inNormal : Emulates { c with parse := .normal } { v with state := .normal } where
  screen := { h.screen with }
  parser := congrArg (fun p : ParserState => { p with parse := .normal }) h.parser
  clean := fun hne => absurd rfl hne
  params := h.params
  small := h.small
  utf8 := h.utf8

theorem finishCsi (hneed : c.utf8Need = 0) (b : UInt8) :
    Emulates (c.finishCsi b) (v.finishCsi b) := by
  have hprivate : v.isPrivate = c.csiPrivate := congrArg ParserState.isPrivate h.parser
  refine inNormal ?_
  rw [hprivate]
  split
  · exact h.draw hneed (.refl c) (v.sameButScreen_privateCsi b) (h.screen_privateCsi b)
  · exact h.draw hneed (c.sameButScreen_handleCsi b) (v.sameButScreen_csi b) (h.screen_handleCsi b)

theorem putCsi (hneed : c.utf8Need = 0) {b : UInt8}
    (hsmall : ∀ i < (c.putCsi b).nparams, (c.putCsi b).params i < 65536) :
    Emulates (c.putCsi b) (v.putCsi b) := by
  have hnone : ¬ 0 < c.utf8Need := by omega
  unfold Console.putCsi at hsmall ⊢
  unfold Vt.putCsi
  rcases hbyte : csiByte b with - | d | - | -
  · dsimp only
    by_cases hzero : c.nparams = 0
    · rw [if_pos hzero, if_pos (h.nparams.trans hzero)]
      exact {
        screen := { h.screen with }
        parser := congrArg (fun p : ParserState => { p with isPrivate := true }) h.parser
        clean := fun _ => hneed
        params := h.params
        small := h.small
        utf8 := fun hpos => absurd hpos hnone }
    · rw [if_neg hzero, if_neg (h.nparams ▸ hzero)]
      exact h.finishCsi hneed b
  · rw [hbyte] at hsmall
    dsimp only at hsmall ⊢
    have hlast : (if c.nparams = 0 then 1 else c.nparams) - 1 <
        if c.nparams = 0 then 1 else c.nparams := by
      split <;> omega
    have hdigit := hsmall _ hlast
    rw [update_self] at hdigit
    exact {
      screen := { h.screen with }
      parser := congrArg (fun p : ParserState =>
        { p with nparams := if p.nparams = 0 then 1 else p.nparams }) h.parser
      clean := fun _ => hneed
      params := by
        dsimp only
        rw [h.nparams, h.params, Vt.saturatingAdd_digit (h.small _) (csiByte_digit_lt hbyte) hdigit]
      small := by
        intro i
        dsimp only
        by_cases hi : i = (if c.nparams = 0 then 1 else c.nparams) - 1
        · rw [hi, update_self]
          exact hdigit
        · rw [update_of_ne hi]
          exact h.small i
      utf8 := fun hpos => absurd hpos hnone }
  · exact {
      screen := { h.screen with }
      parser := congrArg (fun p : ParserState =>
        { p with nparams := if (if p.nparams = 0 then 1 else p.nparams) < maxParams then
            (if p.nparams = 0 then 1 else p.nparams) + 1
          else if p.nparams = 0 then 1 else p.nparams }) h.parser
      clean := fun _ => hneed
      params := h.params
      small := h.small
      utf8 := fun hpos => absurd hpos hnone }
  · exact h.finishCsi hneed b

/-- The bits of a character that is complete do not matter. -/
theorem forget (hneed : c.utf8Need = 0) : Emulates c { v with utf8 := (0, 0) } where
  screen := { h.screen with }
  parser := by
    rw [← h.parser]
    show _ = ParserState.mk v.state v.nparams v.isPrivate v.utf8.2
    rw [h.need, hneed]
    rfl
  clean := h.clean
  params := h.params
  small := h.small
  utf8 := fun hpos => absurd hpos (by omega)

theorem put (hneed : c.utf8Need = 0) {cp : ℕ} {ch : Char}
    (hch : SameChar cp ch) : Emulates (c.putGlyph cp) (v.put ch) :=
  h.draw hneed (c.sameButScreen_putGlyph cp) (v.sameButScreen_put ch) (h.screen.put hch)

end
end Emulates

/-! ### A byte -/

/-- The bytes to which the console and the emulator give the same meaning. -/
def Common (b : UInt8) : Prop :=
  b = escByte ∨ b = 8 ∨ b = '\n'.toUInt8 ∨ b = '\r'.toUInt8 ∨ (0x20 ≤ b ∧ b ≤ 0x7E) ∨ 0x80 ≤ b

instance : DecidablePred Common := fun _ => inferInstanceAs (Decidable (_ ∨ _))

namespace Emulates

variable {c : Console Grid} {v : Vt}

/-- A byte of ASCII, outside of an escape sequence. -/
theorem putAscii (h : Emulates c v) (hneed : c.utf8Need = 0) {b : UInt8} (hb : Common b)
    (hascii : ¬ 0x80 ≤ b) : Emulates (c.putFirst b) (v.putNormal b) := by
  unfold Console.putFirst Vt.putNormal
  rw [if_neg hascii]
  have hnone : ¬ 0 < c.utf8Need := by omega
  by_cases hesc : b = escByte
  · rw [if_pos hesc, if_pos hesc]
    exact {
      screen := { h.screen with }
      parser := congrArg (fun p : ParserState => { p with parse := .esc }) h.parser
      clean := fun _ => hneed
      params := h.params
      small := h.small
      utf8 := fun hpos => absurd hpos hnone }
  rw [if_neg hesc, if_neg hesc]
  by_cases hnl : b = '\n'.toUInt8
  · have hcr : b ≠ '\r'.toUInt8 := by rw [hnl]; decide
    have hbs : b ≠ 8 := by rw [hnl]; decide
    rw [if_neg hcr, if_neg hbs, if_pos hnl, if_pos hnl]
    have hv : v.SameButScreen { v with cx := 0 } := ⟨rfl, rfl, rfl, rfl⟩
    exact h.draw hneed c.sameButScreen_newline (hv.trans (Vt.sameButScreen_nextRow _))
      h.screen.newline
  rw [if_neg hnl, if_neg hnl]
  by_cases hcr : b = '\r'.toUInt8
  · rw [if_pos hcr, if_pos hcr]
    have hpos : 0 < c.cols := Nat.zero_lt_of_lt h.screen.colLt
    exact h.draw hneed ⟨rfl, rfl, rfl, rfl⟩ ⟨rfl, rfl, rfl, rfl⟩
      { h.screen with col := rfl, colLt := hpos }
  rw [if_neg hcr, if_neg hcr]
  by_cases hbs : b = 8
  · rw [if_pos hbs, if_pos hbs, h.screen.col, h.screen.row]
    split
    · refine h.draw hneed ⟨rfl, rfl, rfl, rfl⟩ ⟨rfl, rfl, rfl, rfl⟩ ?_
      have hlt := h.screen.colLt
      have hback : SameScreen { c with cursorCol := c.cursorCol - 1 }
          { v with cx := c.cursorCol - 1, cy := c.cursorRow } :=
        { h.screen with col := rfl, row := rfl, colLt := (Nat.sub_le _ _).trans_lt hlt }
      have hspace : SameChar ' '.toNat ' ' := .inl rfl
      exact hback.draw hspace hback.colLt h.screen.rowLt
    · exact h
  have hprint : ' '.toNat ≤ b.toNat ∧ b.toNat ≤ '~'.toNat := by
    rcases hb with hb | hb | hb | hb | hb | hb
    · exact absurd hb hesc
    · exact absurd hb hbs
    · exact absurd hb hnl
    · exact absurd hb hcr
    · exact hb
    · exact absurd hb hascii
  have hchar : Char.ofNat b.toNat = Vt.charFrom b.toNat := by
    have hle : b.toNat ≤ 0x7E := hprint.2
    rw [Vt.charFrom, if_pos (.inl (by omega))]
  rw [if_neg hbs, if_neg hbs, if_pos hprint, hchar]
  exact h.put hneed (sameChar_charFrom b.toNat)

/-- A byte that does not continue a character, outside of an escape sequence. -/
theorem putFirst (h : Emulates c v) (hparse : c.parse = .normal) (hneed : c.utf8Need = 0)
    {b : UInt8} (hb : Common b) : Emulates (c.putFirst b) (v.putFirst b) := by
  by_cases hascii : 0x80 ≤ b
  · rw [Console.putFirst, Vt.putFirst, if_pos hascii, if_pos hascii, utf8Lead_eq]
    rcases Console.utf8Lead b with - | ⟨cp, need⟩
    · have hput := h.put hneed (sameChar_charFrom '?'.toNat)
      have hneed' : (c.putGlyph '?'.toNat).utf8Need = 0 :=
        (congrArg ParserState.need (c.sameButScreen_putGlyph '?'.toNat).parser).trans hneed
      exact hput.forget hneed'
    · exact {
        screen := { h.screen with }
        parser := congrArg (fun p : ParserState => { p with need := need }) h.parser
        clean := fun hne => absurd hparse hne
        params := h.params
        small := h.small
        utf8 := fun _ => rfl }
  · have hstate : v.state = .normal := (congrArg ParserState.parse h.parser).trans hparse
    rw [Vt.putFirst, if_neg hascii, hstate]
    exact h.putAscii hneed hb hascii

/-- A byte outside of an escape sequence. -/
theorem putNormal (h : Emulates c v) (hparse : c.parse = .normal) {b : UInt8} (hb : Common b) :
    Emulates (c.putNormal b) (v.byte b) := by
  unfold Console.putNormal Vt.byte
  dsimp only
  rw [h.need]
  by_cases hneed : 0 < c.utf8Need
  · rw [if_pos hneed, if_pos hneed]
    split
    · have hnext : Emulates
          { c with
            utf8Cp := c.utf8Cp <<< 6 ||| (b &&& 0x3F).toNat
            utf8Need := c.utf8Need - 1 }
          { v with utf8 := (v.utf8.1 <<< 6 ||| (b &&& 0x3F).toNat, c.utf8Need - 1) } := {
        screen := { h.screen with }
        parser := congrArg (fun p : ParserState => { p with need := c.utf8Need - 1 }) h.parser
        clean := fun hne => absurd hparse hne
        params := h.params
        small := h.small
        utf8 := fun _ => by dsimp only; rw [h.utf8 hneed] }
      rw [h.utf8 hneed] at hnext ⊢
      split
      · rename_i hlast
        exact hnext.put hlast (sameChar_charFrom _)
      · exact hnext
    · have hcut : Emulates { c with utf8Need := 0 } { v with utf8 := (v.utf8.1, 0) } := {
        screen := { h.screen with }
        parser := congrArg (fun p : ParserState => { p with need := 0 }) h.parser
        clean := fun hne => absurd hparse hne
        params := h.params
        small := h.small
        utf8 := fun hpos => absurd hpos (Nat.lt_irrefl 0) }
      have hput := hcut.put rfl (sameChar_charFrom '?'.toNat)
      have hsame := (({ c with utf8Need := 0 } : Console Grid).sameButScreen_putGlyph '?'.toNat).parser
      exact hput.putFirst ((congrArg ParserState.parse hsame).trans hparse)
        (congrArg ParserState.need hsame) hb
  · rw [if_neg hneed, if_neg hneed]
    exact h.putFirst hparse (by omega) hb

/-- A byte. -/
theorem byte (h : Emulates c v) {b : UInt8} (hb : Common b) (hascii : c.parse ≠ .normal → b < 0x80)
    (hsmall : ∀ i < (c.putc b).nparams, (c.putc b).params i < 65536) :
    Emulates (c.putc b) (v.byte b) := by
  have hstate : v.state = c.parse := congrArg ParserState.parse h.parser
  by_cases hnormal : c.parse = .normal
  · have heq : c.putc b = c.putNormal b := by rw [Console.putc, hnormal]
    rw [heq]
    exact h.putNormal hnormal hb
  · have hneed : c.utf8Need = 0 := h.clean hnormal
    have hnone : ¬ 0 < v.utf8.2 := by
      rw [h.need, hneed]
      exact Nat.lt_irrefl 0
    rw [Vt.byte, if_neg hnone, Vt.putFirst, if_neg (UInt8.not_le.mpr (hascii hnormal)), hstate]
    unfold Console.putc at hsmall ⊢
    rcases hparse : c.parse with - | - | -
    · exact absurd hparse hnormal
    · dsimp only
      split
      · exact {
          screen := { h.screen with }
          parser := congrArg (fun p : ParserState => { p with
            parse := .csi, nparams := 0, isPrivate := false }) h.parser
          clean := fun _ => hneed
          params := rfl
          small := fun _ => (by decide : 0 < 65536)
          utf8 := fun hpos => absurd hpos (by rw [hneed]; exact Nat.lt_irrefl 0) }
      · exact h.inNormal
    · rw [hparse] at hsmall
      exact h.putCsi hneed hsmall

end Emulates

/-! ### A stream of bytes -/

/-- Every parameter that is accumulated, as long as it is, is below 65536. -/
def Console.SmallParams : Console Grid → List UInt8 → Prop
  | _, [] => True
  | c, b :: bytes =>
      (∀ i < (c.putc b).nparams, (c.putc b).params i < 65536) ∧ (c.putc b).SmallParams bytes

instance Console.decidableSmallParams : (c : Console Grid) → (bytes : List UInt8) →
    Decidable (c.SmallParams bytes)
  | _, [] => inferInstanceAs (Decidable True)
  | c, b :: bytes =>
      have := decidableSmallParams (c.putc b) bytes
      inferInstanceAs (Decidable (_ ∧ _))

theorem Emulates.feed {c : Console Grid} {v : Vt} (h : Emulates c v) {bytes : List UInt8}
    (hbytes : ∀ b ∈ bytes, Common b) (hascii : c.parser.AsciiEscapes bytes)
    (hsmall : c.SmallParams bytes) : Emulates (c.write bytes) (v.feed bytes) := by
  induction bytes generalizing c v with
  | nil => exact h
  | cons b bytes ih =>
    have hstep := h.byte (hbytes b mem_cons_self) hascii.1 hsmall.1
    refine ih hstep (fun b' hb' => hbytes b' (mem_cons_of_mem b hb')) ?_ hsmall.2
    rw [(c.parses_putc b).parser]
    exact hascii.2

theorem emulates_start {cols rows : ℕ} (hcols : 1 ≤ cols ∧ cols ≤ 65535)
    (hrows : 1 ≤ rows ∧ rows ≤ 65535) :
    Emulates (Console.start cols rows Grid.blank) (Vt.new cols rows) where
  screen := {
    cols := Nat.max_eq_left hcols.1
    rows := Nat.max_eq_left hrows.1
    colsLe := hcols.2
    rowsLe := hrows.2
    col := rfl
    row := rfl
    colLt := hcols.1
    rowLt := hrows.1
    attr := rfl
    size := length_replicate
    cells := by
      intro x y hx hy
      have hcell : (Vt.new cols rows).cell x y = Vt.blank := by
        unfold Vt.cell Vt.new
        rw [getD_eq_getElem?_getD, getElem?_replicate]
        split <;> rfl
      rw [hcell]
      exact sameCell_blank }
  parser := rfl
  clean := fun hne => absurd rfl hne
  params := rfl
  small := fun _ => (by decide : 0 < 65536)
  utf8 := fun hpos => absurd hpos (Nat.lt_irrefl 0)

/-- The emulator shows what the console shows. -/
theorem vt_shows_console (cols rows : ℕ) (hcols : 1 ≤ cols ∧ cols ≤ 65535)
    (hrows : 1 ≤ rows ∧ rows ≤ 65535) (bytes : List UInt8) (hbytes : ∀ b ∈ bytes, Common b)
    (hascii : (Console.start cols rows Grid.blank).parser.AsciiEscapes bytes)
    (hsmall : (Console.start cols rows Grid.blank).SmallParams bytes) :
    let c := (Console.start cols rows Grid.blank).write bytes
    let v := (Vt.new cols rows).feed bytes
    (v.cx = c.cursorCol ∧ v.cy = c.cursorRow) ∧ v.attr = c.attr ∧
      ∀ x y, x < cols → y < rows → SameCell (c.screen.cells x y) (v.cell x y) := by
  have h := ((emulates_start hcols hrows).feed hbytes hascii hsmall).screen
  have hsize := (Console.start cols rows Grid.blank).size_write bytes
  have hcols' : ((Console.start cols rows Grid.blank).write bytes).cols = cols :=
    congrArg Prod.fst hsize
  have hrows' : ((Console.start cols rows Grid.blank).write bytes).rows = rows :=
    congrArg Prod.snd hsize
  refine ⟨⟨h.col, h.row⟩, h.attr, ?_⟩
  intro x y hx hy
  exact h.cells x y (hx.trans_eq hcols'.symm) (hy.trans_eq hrows'.symm)

/-- The theorem for a stream that moves the cursor, sets colours, draws a character that the console
does not have and wraps. -/
theorem vt_shows_console_of_stream :
    let bytes := [0x1b, 0x5b, 0x32, 0x3b, 0x34, 0x48, 0x1b, 0x5b, 0x33, 0x31, 0x6d, 0xE2, 0x82, 0xAC]
    let c := (Console.start 4 3 Grid.blank).write bytes
    let v := (Vt.new 4 3).feed bytes
    (v.cx = c.cursorCol ∧ v.cy = c.cursorRow) ∧ v.attr = c.attr ∧
      ∀ x y, x < 4 → y < 3 → SameCell (c.screen.cells x y) (v.cell x y) :=
  vt_shows_console 4 3 (by decide) (by decide) _ (by decide +kernel) (by decide +kernel)
    (by decide +kernel)

end AnssOS
