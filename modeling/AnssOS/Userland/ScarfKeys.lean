import AnssOS.Userland.Scarf

/-!
# What the keys of the editor keep

The cursor is always on a line and, outside of insert mode, on a character of it if there is one.  Since no
key relies on more than that, no key stops the program; and a key that changes a line says so by the flag
`dirty`, unless the lines are written to a file or come from there.

### Outline

* `CursorOk`, and `Keeps`: a key does not stop the program, keeps the cursor in place, and does not change the
  lines silently;
* the keys of normal mode, of insert mode, of the command line and of the sidebar;
* `scarf_cursor_ok`: the cursor is in place in every state;
* `scarf_discards_only_by_bang`: edits are left behind only if it was asked for, or if there is no more input.
-/

namespace AnssOS

open List Option

namespace Scarf

/-! ### The cursor -/

/-- A place in a line where the cursor can be. -/
def CursorAt (text : Line) (mode : Mode) (cx : ℕ) : Prop :=
  cx ≤ text.length ∧ (mode ≠ .insert → text ≠ [] → cx ≤ text.length - 1)

namespace Editor

/-- The cursor is on a line, in a place where it can be. -/
def CursorOk (e : Editor) : Prop := ∃ text, e.line = some text ∧ CursorAt text e.mode e.cx

/-- A key that neither opens nor saves a file, nor quits: it leaves the buffer as it is, or it is dirty. -/
structure Edits (e e' : Editor) : Prop where
  buf : e'.buf = e.buf ∨ e'.buf.dirty = true
  saved : e'.buf.saved = e.buf.saved
  quit : e'.quit = e.quit
  departures : e'.departures = e.departures

theorem Edits.of_buf {e e' : Editor} (hbuf : e'.buf = e.buf) (hquit : e'.quit = e.quit)
    (hdepartures : e'.departures = e.departures) : e.Edits e' :=
  ⟨Or.inl hbuf, congrArg Buffer.saved hbuf, hquit, hdepartures⟩

theorem Edits.refl (e : Editor) : e.Edits e := .of_buf rfl rfl rfl

theorem Edits.trans {e e' e'' : Editor} (h : e.Edits e') (h' : e'.Edits e'') : e.Edits e'' where
  buf := by
    rcases h'.buf with heq | hdirty
    · rw [heq]
      exact h.buf
    · exact Or.inr hdirty
  saved := h'.saved.trans h.saved
  quit := h'.quit.trans h.quit
  departures := h'.departures.trans h.departures

/-- The key does not stop the program; afterwards the cursor is in place, and the lines have not been changed
silently. -/
def Keeps (e : Editor) (result : Option Editor) : Prop := ∃ e', result = some e' ∧ e'.CursorOk ∧ e.Edits e'

variable {e e' : Editor} {text : Line}

theorem lt_of_line (h : e.line = some text) : e.cy < e.buf.lines.length :=
  (List.getElem?_eq_some_iff.mp h).1

theorem line_of_lt (h : e.cy < e.buf.lines.length) : ∃ text, e.line = some text :=
  ⟨_, getElem?_eq_getElem h⟩

theorem line_setLine (h : e.line = some text) (text' : Line) : (e.setLine text').line = some text' :=
  getElem?_set_self (lt_of_line h)

theorem edits_setLine (e : Editor) (text : Line) : e.Edits (e.setLine text) := ⟨Or.inr rfl, rfl, rfl, rfl⟩

/-- After `clamp_cx` the cursor is in place. -/
theorem clampCx_spec (hline : e.cy < e.buf.lines.length) :
    ∃ cx, e.clampCx = some { e with cx := cx } ∧ { e with cx := cx }.CursorOk := by
  obtain ⟨text, htext⟩ := line_of_lt hline
  rw [clampCx, htext]
  refine ⟨_, rfl, text, htext, ?_, ?_⟩
  · dsimp only
    split_ifs
    · omega
    · omega
  · intro hmode htext
    have hpos := length_pos_iff.mpr htext
    dsimp only
    rw [if_pos ⟨hmode, hpos⟩]
    omega

theorem Keeps.clamp (hedits : e.Edits e') (hline : e'.cy < e'.buf.lines.length) :
    e.Keeps e'.clampCx := by
  obtain ⟨cx, heq, hok⟩ := clampCx_spec hline
  exact ⟨_, heq, hok, hedits.trans (.of_buf rfl rfl rfl)⟩

/-! ### Words -/

theorem skipWhile_le (p : UInt8 → Bool) {i : ℕ} (h : i ≤ text.length) :
    i ≤ skipWhile p text i ∧ skipWhile p text i ≤ text.length := by
  have hlength := (takeWhile_sublist p (l := text.drop i)).length_le
  rw [length_drop] at hlength
  rw [skipWhile]
  omega

theorem wordEnd_le {i : ℕ} (h : i ≤ text.length) :
    i ≤ wordEnd text i ∧ wordEnd text i ≤ text.length := by
  obtain ⟨hle, hlength⟩ := skipWhile_le isWord h
  obtain ⟨hle', hlength'⟩ := skipWhile_le (fun c => !isWord c) hlength
  exact ⟨hle.trans hle', hlength'⟩

theorem backToWord_spec {i : ℕ} (h : i < text.length) : ∃ j, backToWord text i = some j ∧ j ≤ i := by
  induction i with
  | zero => exact ⟨0, rfl, le_rfl⟩
  | succ i ih =>
    rw [backToWord, getElem?_eq_getElem h]
    show ∃ j, (if isWord text[i + 1] = false then backToWord text i else some (i + 1)) = some j ∧ j ≤ i + 1
    split_ifs
    · obtain ⟨j, hj, hle⟩ := ih (by omega)
      exact ⟨j, hj, hle.trans (Nat.le_succ i)⟩
    · exact ⟨i + 1, rfl, le_rfl⟩

theorem backToStart_spec {i : ℕ} (h : i < text.length) : ∃ j, backToStart text i = some j ∧ j ≤ i := by
  induction i with
  | zero => exact ⟨0, rfl, le_rfl⟩
  | succ i ih =>
    have hi : i < text.length := by omega
    rw [backToStart, getElem?_eq_getElem hi]
    show ∃ j, (if isWord text[i] = true then backToStart text i else some (i + 1)) = some j ∧ j ≤ i + 1
    split_ifs
    · obtain ⟨j, hj, hle⟩ := ih hi
      exact ⟨j, hj, hle.trans (Nat.le_succ i)⟩
    · exact ⟨i + 1, rfl, le_rfl⟩

/-! ### Normal mode -/

/-- A function whose result is still on a line, and then `clamp_cx`. -/
theorem Keeps.bind_clamp {result : Option Editor}
    (h : ∃ e', result = some e' ∧ e'.cy < e'.buf.lines.length ∧ e.Edits e') :
    e.Keeps (result.bind clampCx) := by
  obtain ⟨e', rfl, hline, hedits⟩ := h
  exact Keeps.clamp hedits hline

theorem wordForward_spec (h : e.CursorOk) :
    ∃ e', e.wordForward = some e' ∧ e'.cy < e'.buf.lines.length ∧ e.Edits e' := by
  obtain ⟨text, htext, -⟩ := h
  rw [wordForward, htext]
  show ∃ e', (if text.length ≤ wordEnd text e.cx ∧ e.cy + 1 < e.buf.lines.length then
    some { e with cx := 0, cy := e.cy + 1 } else some { e with cx := wordEnd text e.cx }) = some e' ∧ _
  split_ifs with hnext
  · exact ⟨_, rfl, hnext.2, .of_buf rfl rfl rfl⟩
  · exact ⟨_, rfl, lt_of_line htext, .of_buf rfl rfl rfl⟩

theorem wordBack_spec (h : e.CursorOk) :
    ∃ e', e.wordBack = some e' ∧ e'.cy < e'.buf.lines.length ∧ e.Edits e' := by
  obtain ⟨text, htext, hle, -⟩ := h
  have hlt := lt_of_line htext
  rw [wordBack]
  split_ifs with hzero hcy
  · obtain ⟨before, hbefore⟩ := line_of_lt (e := { e with cy := e.cy - 1 })
      (lt_of_le_of_lt (Nat.sub_le _ _) hlt)
    dsimp only
    rw [hbefore]
    exact ⟨_, rfl, lt_of_le_of_lt (Nat.sub_le _ _) hlt, .of_buf rfl rfl rfl⟩
  · exact ⟨e, rfl, hlt, .refl e⟩
  · have hin : e.cx - 1 < text.length := by omega
    obtain ⟨i, hi, hle⟩ := backToWord_spec hin
    obtain ⟨j, hj, -⟩ := backToStart_spec (lt_of_le_of_lt hle hin)
    rw [htext]
    show ∃ e', ((backToWord text (e.cx - 1)).bind fun i => (backToStart text i).bind fun i =>
      some { e with cx := i }) = some e' ∧ _
    rw [hi, bind_some, hj, bind_some]
    exact ⟨_, rfl, hlt, .of_buf rfl rfl rfl⟩

theorem deleteWord_spec (h : e.CursorOk) :
    ∃ e', e.deleteWord = some e' ∧ e'.cy < e'.buf.lines.length ∧ e.Edits e' := by
  obtain ⟨text, htext, -⟩ := h
  rw [deleteWord, htext]
  show ∃ e', (if text.length ≤ e.cx then some e
    else (vecDrain text e.cx (wordEnd text e.cx)).bind fun text => some (e.setLine text)) = some e' ∧ _
  split_ifs with hend
  · exact ⟨e, rfl, lt_of_line htext, .refl e⟩
  · rw [vecDrain, if_pos (wordEnd_le (Nat.le_of_not_le hend))]
    exact ⟨_, rfl, lt_of_line (line_setLine htext _), edits_setLine e _⟩

/-- The cursor stays where it is, in a line that is shorter by a character behind it. -/
theorem deleteChar_spec (h : e.CursorOk) :
    ∃ e', e.deleteChar = some e' ∧ e'.cy < e'.buf.lines.length ∧ e.Edits e' ∧ e'.mode = e.mode ∧
      ∃ text, e'.line = some text ∧ e'.cx ≤ text.length := by
  obtain ⟨text, htext, hle, -⟩ := h
  rw [deleteChar, htext]
  show ∃ e', (if e.cx < text.length then (vecRemove text e.cx).bind fun text => some (e.setLine text)
    else some e) = some e' ∧ _
  split_ifs with hlt
  · rw [vecRemove, if_pos hlt]
    refine ⟨_, rfl, lt_of_line (line_setLine htext _), edits_setLine e _, rfl, _, line_setLine htext _, ?_⟩
    show e.cx ≤ _
    rw [length_eraseIdx_of_lt hlt]
    omega
  · exact ⟨e, rfl, lt_of_line htext, .refl e, rfl, text, htext, hle⟩

/-- A line is inserted, and the cursor goes to its beginning. -/
theorem insertLine_spec {b : Buffer} {i : ℕ} (hi : i ≤ b.lines.length) (text : Line) :
    ∃ b', b.insertLine i text = some b' ∧ b'.lines[i]? = some text ∧ b'.dirty = true ∧
      b'.saved = b.saved := by
  rw [Buffer.insertLine, vecInsert, if_pos hi]
  exact ⟨_, rfl, getElem?_insertIdx_self.trans (if_pos hi), rfl, rfl⟩

theorem keeps_keyPlain (h : e.CursorOk) (hmode : e.mode = .normal) (c : UInt8) :
    e.Keeps (e.keyPlain c) := by
  have hok := h
  obtain ⟨text, htext, hle, hcx⟩ := h
  have hlt := lt_of_line htext
  have hlast := hcx (by rw [hmode]; decide)
  rw [keyPlain]
  cases normalKey c with
  | left =>
    refine ⟨_, rfl, ⟨text, htext, (Nat.sub_le _ _).trans hle, fun hm ht => ?_⟩, .of_buf rfl rfl rfl⟩
    exact (Nat.sub_le _ _).trans (hlast ht)
  | right =>
    dsimp only
    rw [htext]
    show e.Keeps (if e.cx + 1 < text.length then some { e with cx := e.cx + 1 } else some e)
    split_ifs with hnext
    · exact ⟨_, rfl, ⟨text, htext, hnext.le, fun _ _ => Nat.le_sub_one_of_lt hnext⟩, .of_buf rfl rfl rfl⟩
    · exact ⟨e, rfl, hok, .refl e⟩
  | down =>
    dsimp only
    split_ifs with hnext
    · exact Keeps.clamp (.of_buf rfl rfl rfl) hnext
    · exact ⟨e, rfl, hok, .refl e⟩
  | up =>
    dsimp only
    split_ifs with hup
    · exact Keeps.clamp (.of_buf rfl rfl rfl) (lt_of_le_of_lt (Nat.sub_le _ _) hlt)
    · exact ⟨e, rfl, hok, .refl e⟩
  | lineStart =>
    exact ⟨_, rfl, ⟨text, htext, Nat.zero_le _, fun _ _ => Nat.zero_le _⟩, .of_buf rfl rfl rfl⟩
  | lineEnd =>
    dsimp only
    rw [htext]
    exact ⟨_, rfl, ⟨text, htext, Nat.sub_le _ _, fun _ _ => le_rfl⟩, .of_buf rfl rfl rfl⟩
  | wordForward => exact Keeps.bind_clamp (wordForward_spec hok)
  | wordBack => exact Keeps.bind_clamp (wordBack_spec hok)
  | lastLine => exact Keeps.clamp (.of_buf rfl rfl rfl) (Nat.sub_lt (Nat.zero_lt_of_lt hlt) Nat.one_pos)
  | operator => exact ⟨_, rfl, ⟨text, htext, hle, hcx⟩, .of_buf rfl rfl rfl⟩
  | deleteChar =>
    obtain ⟨e', heq, hline, hedits, -⟩ := deleteChar_spec hok
    exact Keeps.bind_clamp ⟨e', heq, hline, hedits⟩
  | insert => exact ⟨_, rfl, ⟨text, htext, hle, fun hm => absurd rfl hm⟩, .of_buf rfl rfl rfl⟩
  | append =>
    dsimp only
    rw [htext]
    refine ⟨_, rfl, ⟨text, htext, ?_, fun hm => absurd rfl hm⟩, .of_buf rfl rfl rfl⟩
    show (if text = [] then e.cx else e.cx + 1) ≤ text.length
    split_ifs with hempty
    · exact hle
    · have hpos := length_pos_iff.mpr hempty
      have hle' := hlast hempty
      omega
  | appendEnd =>
    dsimp only
    rw [htext]
    exact ⟨_, rfl, ⟨text, htext, le_rfl, fun hm => absurd rfl hm⟩, .of_buf rfl rfl rfl⟩
  | openBelow =>
    obtain ⟨b, heq, hline, hdirty, hsaved⟩ := insertLine_spec (b := e.buf) (i := e.cy + 1) hlt []
    dsimp only
    rw [heq]
    exact ⟨_, rfl, ⟨[], hline, le_rfl, fun _ ht => absurd rfl ht⟩, ⟨Or.inr hdirty, hsaved, rfl, rfl⟩⟩
  | openAbove =>
    obtain ⟨b, heq, hline, hdirty, hsaved⟩ := insertLine_spec (b := e.buf) (i := e.cy) hlt.le []
    dsimp only
    rw [heq]
    exact ⟨_, rfl, ⟨[], hline, le_rfl, fun _ ht => absurd rfl ht⟩, ⟨Or.inr hdirty, hsaved, rfl, rfl⟩⟩
  | command =>
    refine ⟨_, rfl, ⟨text, htext, hle, fun _ => hlast⟩, .of_buf rfl rfl rfl⟩
  | other => exact ⟨e, rfl, hok, .refl e⟩

/-- There is a line left after a line was deleted. -/
theorem deleteLine_spec (b : Buffer) {i : ℕ} (hi : i < b.lines.length) :
    0 < (b.deleteLine i).lines.length ∧ (b.deleteLine i).dirty = true ∧
      (b.deleteLine i).saved = b.saved := by
  rw [Buffer.deleteLine, if_pos hi]
  dsimp only
  split_ifs with hempty
  · exact ⟨Nat.one_pos, rfl, rfl⟩
  · exact ⟨length_pos_iff.mpr hempty, rfl, rfl⟩

theorem keeps_keyDelete (h : e.CursorOk) (c : UInt8) : e.Keeps (e.keyDelete c) := by
  rw [keyDelete]
  refine Keeps.bind_clamp ?_
  split_ifs
  · obtain ⟨text, htext, -⟩ := h
    obtain ⟨hpos, hdirty, hsaved⟩ := deleteLine_spec e.buf (lt_of_line htext)
    refine ⟨_, rfl, ?_, ⟨Or.inr hdirty, hsaved, rfl, rfl⟩⟩
    dsimp only
    omega
  · exact deleteWord_spec h
  · obtain ⟨text, htext, -⟩ := h
    exact ⟨e, rfl, lt_of_line htext, .refl e⟩

theorem keeps_keyNormal (h : e.CursorOk) (hmode : e.mode = .normal) (c : UInt8) :
    e.Keeps (e.keyNormal c) := by
  have hok : { e with pending := none }.CursorOk := h
  have hedits : e.Edits { e with pending := none } := .of_buf rfl rfl rfl
  have htrans : ∀ result, Keeps { e with pending := none } result → e.Keeps result := by
    rintro result ⟨e', heq, hok', hedits'⟩
    exact ⟨e', heq, hok', hedits.trans hedits'⟩
  rw [keyNormal]
  split_ifs
  · exact htrans _ (keeps_keyDelete hok c)
  · obtain ⟨text, htext, -⟩ := h
    obtain ⟨first, hfirst⟩ := line_of_lt (e := { e with pending := none, cx := 0, cy := 0 })
      (Nat.zero_lt_of_lt (lt_of_line (e := e) htext))
    exact ⟨_, rfl, ⟨first, hfirst, Nat.zero_le _, fun _ _ => Nat.zero_le _⟩, .of_buf rfl rfl rfl⟩
  · exact ⟨_, rfl, hok, hedits⟩
  · exact htrans _ (keeps_keyPlain hok hmode c)

/-! ### Insert mode -/

theorem keeps_insertChar (h : e.CursorOk) (hmode : e.mode = .insert) (c : UInt8) :
    ∃ e', e.insertChar c = some e' ∧ e'.CursorOk ∧ e.Edits e' ∧ e'.mode = .insert := by
  obtain ⟨text, htext, hle, -⟩ := h
  rw [insertChar, htext]
  show ∃ e', ((vecInsert text e.cx c).bind fun text => some { e.setLine text with cx := e.cx + 1 }) = some e' ∧ _
  rw [vecInsert, if_pos hle]
  refine ⟨_, rfl, ⟨_, line_setLine htext _, ?_, fun hm => absurd hmode hm⟩,
    ⟨Or.inr rfl, rfl, rfl, rfl⟩, hmode⟩
  rw [length_insertIdx_of_le_length hle]
  exact Nat.succ_le_succ hle

theorem keeps_insertChars (cs : List UInt8) (h : e.CursorOk) (hmode : e.mode = .insert) :
    e.Keeps (e.insertChars cs) := by
  induction cs generalizing e with
  | nil => exact ⟨e, rfl, h, .refl e⟩
  | cons c cs ih =>
    obtain ⟨e', heq, hok, hedits, hmode'⟩ := keeps_insertChar h hmode c
    obtain ⟨e'', heq', hok', hedits'⟩ := ih hok hmode'
    refine ⟨e'', ?_, hok', hedits.trans hedits'⟩
    rw [insertChars, heq]
    exact heq'

theorem keeps_splitLine (h : e.CursorOk) (hmode : e.mode = .insert) : e.Keeps e.splitLine := by
  obtain ⟨text, htext, hle, -⟩ := h
  have hlt := lt_of_line (line_setLine htext (text.take e.cx))
  obtain ⟨b, heq, hline, hdirty, hsaved⟩ := insertLine_spec (b := (e.setLine (text.take e.cx)).buf)
    (i := e.cy + 1) hlt (text.drop e.cx)
  rw [splitLine, htext]
  show e.Keeps ((vecSplitOff text e.cx).bind fun p => ((e.setLine p.1).buf.insertLine (e.cy + 1) p.2).bind
    fun b => some { e.setLine p.1 with buf := b, cx := 0, cy := e.cy + 1 })
  rw [vecSplitOff, if_pos hle, bind_some, heq]
  exact ⟨_, rfl, ⟨_, hline, Nat.zero_le _, fun hm => absurd hmode hm⟩, ⟨Or.inr hdirty, hsaved, rfl, rfl⟩⟩

theorem keeps_backspace (h : e.CursorOk) (hmode : e.mode = .insert) : e.Keeps e.backspace := by
  have hok := h
  obtain ⟨text, htext, hle, -⟩ := h
  have hlt := lt_of_line htext
  rw [backspace]
  split_ifs with hcx hcy
  · have htext' : { e with cx := e.cx - 1 }.line = some text := htext
    have hin : e.cx - 1 < text.length := by omega
    dsimp only
    rw [htext']
    show e.Keeps ((vecRemove text (e.cx - 1)).bind fun text => some ({ e with cx := e.cx - 1 }.setLine text))
    rw [vecRemove, if_pos hin]
    refine ⟨_, rfl, ⟨_, line_setLine htext' _, ?_, fun hm => absurd hmode hm⟩, ⟨Or.inr rfl, rfl, rfl, rfl⟩⟩
    show e.cx - 1 ≤ _
    rw [length_eraseIdx_of_lt hin]
    omega
  · -- the line before is not the one that is removed
    have hbefore : ∃ before, (e.buf.lines.eraseIdx e.cy)[e.cy - 1]? = some before := by
      refine ⟨_, getElem?_eq_getElem ?_⟩
      rw [length_eraseIdx_of_lt hlt]
      omega
    obtain ⟨before, hbefore⟩ := hbefore
    have hline : { e with
        buf := { e.buf with lines := e.buf.lines.eraseIdx e.cy }, cy := e.cy - 1 }.line = some before := hbefore
    rw [htext]
    show e.Keeps ((vecRemove e.buf.lines e.cy).bind fun lines =>
      ({ e with buf := { e.buf with lines := lines }, cy := e.cy - 1 }.line).bind fun before =>
        some ({ e with buf := { e.buf with lines := lines }, cx := before.length, cy := e.cy - 1 }.setLine
          (before ++ text)))
    rw [vecRemove, if_pos hlt, bind_some, hline]
    refine ⟨_, rfl, ⟨before ++ text, getElem?_set_self (List.getElem?_eq_some_iff.mp hbefore).1, ?_,
      fun hm => absurd hmode hm⟩, ⟨Or.inr rfl, rfl, rfl, rfl⟩⟩
    show before.length ≤ _
    rw [length_append]
    omega
  · exact ⟨e, rfl, hok, .refl e⟩

theorem keeps_keyInsert (h : e.CursorOk) (hmode : e.mode = .insert) (c : UInt8) :
    e.Keeps (e.keyInsert c) := by
  rw [keyInsert]
  split_ifs
  · obtain ⟨text, htext, -⟩ := h
    exact Keeps.clamp (.of_buf rfl rfl rfl) (lt_of_line (e := e) htext)
  · exact keeps_splitLine h hmode
  · exact keeps_backspace h hmode
  · exact keeps_insertChars _ h hmode
  · obtain ⟨e', heq, hok, hedits, -⟩ := keeps_insertChar h hmode c
    exact ⟨e', heq, hok, hedits⟩
  · exact ⟨e, rfl, h, .refl e⟩

theorem keeps_specialInsert (h : e.CursorOk) (hmode : e.mode = .insert) (k : Special) :
    e.Keeps (e.specialInsert k) := by
  have hok := h
  obtain ⟨text, htext, hle, -⟩ := h
  have hlt := lt_of_line htext
  have hmove : ∀ cx ≤ text.length, e.Keeps (some { e with cx := cx }) := fun cx hcx =>
    ⟨_, rfl, ⟨text, htext, hcx, fun hm => absurd hmode hm⟩, .of_buf rfl rfl rfl⟩
  rw [specialInsert, htext]
  cases k with
  | left => exact hmove _ ((Nat.sub_le _ _).trans hle)
  | right => exact hmove _ (min_le_right _ _)
  | home => exact hmove _ (Nat.zero_le _)
  | end_ => exact hmove _ le_rfl
  | up => exact Keeps.clamp (.of_buf rfl rfl rfl) (lt_of_le_of_lt (Nat.sub_le e.cy 1) hlt)
  | down =>
    show e.Keeps (clampCx { e with cy := if e.cy + 1 < e.buf.lines.length then e.cy + 1 else e.cy })
    refine Keeps.clamp (.of_buf rfl rfl rfl) ?_
    dsimp only
    split_ifs with hnext
    · exact hnext
    · exact hlt
  | delete =>
    obtain ⟨e', heq, -, hedits, hmode', text', htext', hcx⟩ := deleteChar_spec hok
    exact ⟨e', heq, ⟨text', htext', hcx, fun hm => absurd (hmode'.trans hmode) hm⟩, hedits⟩

/-! ### Edits that are left behind -/

/-- What has to hold of the lines: if they are not dirty, they are those as of the last start, opening or
saving; and other lines have been left behind only by `:q!`, by `:e!`, or since there was no more input. -/
structure Sound (e : Editor) : Prop where
  clean : e.buf.dirty = false → e.buf.lines = e.buf.saved
  departures : ∀ d ∈ e.departures, d.lines ≠ d.saved →
    d.cause = .quitBang ∨ d.cause = .editBang ∨ d.cause = .closed

/-- What a key does to the list of occasions: nothing, and then it neither quits nor takes the lines of a file
instead of those it has; or it adds the occasion on which it has left its lines behind, as they were or as
they have been saved. -/
def Accounts (e e' : Editor) : Prop :=
  (e'.departures = e.departures ∧ e'.quit = e.quit ∧
    (e'.buf.saved = e.buf.saved ∨ e'.buf.lines = e.buf.lines ∧ e'.buf.saved = e.buf.lines)) ∨
  ∃ d, e'.departures = e.departures ++ [d] ∧ d.lines = e.buf.lines ∧
    (d.saved = e.buf.saved ∨ d.saved = e.buf.lines)

theorem Edits.accounts (h : e.Edits e') : e.Accounts e' :=
  Or.inl ⟨h.departures, h.quit, Or.inl h.saved⟩

theorem Sound.edits (h : e.Sound) (hedits : e.Edits e') : e'.Sound where
  clean := by
    intro hdirty
    rcases hedits.buf with heq | hdirty'
    · rw [heq] at hdirty ⊢
      exact h.clean hdirty
    · rw [hdirty] at hdirty'
      cases hdirty'
  departures := by
    rw [hedits.departures]
    exact h.departures

/-- The lines are left behind as they are in the file, or because it was asked for. -/
theorem Sound.depart (h : e.Sound) (cause : Cause)
    (hcause : e.buf.lines = e.buf.saved ∨ cause = .quitBang ∨ cause = .editBang ∨ cause = .closed) :
    (e.depart cause).Sound where
  clean := h.clean
  departures := by
    intro d hd hne
    rcases mem_append.mp hd with hd | hd
    · exact h.departures d hd hne
    · obtain rfl := mem_singleton.mp hd
      exact hcause.resolve_left hne

/-- A file has at least one line. -/
theorem linesOf_ne_nil (content : List UInt8) : Buffer.linesOf content ≠ [] := by
  rw [Buffer.linesOf]
  rcases content.foldl Buffer.readByte ([], []) with ⟨lines, text⟩
  dsimp only
  generalize (if text ≠ [] then lines ++ [text] else lines) = all
  split_ifs with hall
  · exact hall
  · exact cons_ne_nil _ _

theorem openBuffer_spec (env : ScarfEnv) (path : Path) :
    (Buffer.openPath env path).1.lines ≠ [] ∧
      (Buffer.openPath env path).1.lines = (Buffer.openPath env path).1.saved := by
  rw [Buffer.openPath]
  rcases env.openFile path with - | content
  · exact ⟨cons_ne_nil _ _, rfl⟩
  · exact ⟨linesOf_ne_nil content, rfl⟩

theorem openPath_spec (h : e.Sound) (env : ScarfEnv) (path : Path) (cause : Cause)
    (hcause : e.buf.lines = e.buf.saved ∨ cause = .quitBang ∨ cause = .editBang ∨ cause = .closed) :
    (e.openPath env path cause).Sound ∧ (e.openPath env path cause).cx = 0 ∧
      (e.openPath env path cause).cy = 0 ∧ (e.openPath env path cause).buf.lines ≠ [] ∧
      e.Accounts (e.openPath env path cause) :=
  ⟨⟨fun _ => (openBuffer_spec env path).2, (h.depart cause hcause).departures⟩, rfl, rfl,
    (openBuffer_spec env path).1, Or.inr ⟨_, rfl, rfl, Or.inl rfl⟩⟩

/-- Reading the sidebar again changes nothing else. -/
theorem sidebarReload_frame (env : ScarfEnv) (e : Editor) :
    (e.sidebarReload env).buf = e.buf ∧ (e.sidebarReload env).cx = e.cx ∧
      (e.sidebarReload env).cy = e.cy ∧ (e.sidebarReload env).mode = e.mode ∧
      (e.sidebarReload env).quit = e.quit ∧ (e.sidebarReload env).departures = e.departures := by
  rw [sidebarReload]
  dsimp only
  split_ifs
  · exact ⟨rfl, rfl, rfl, rfl, rfl, rfl⟩
  · exact ⟨rfl, rfl, rfl, rfl, rfl, rfl⟩

/-- What `save` leaves alone; if it succeeds, the lines are those of the file. -/
theorem save_frame (env : ScarfEnv) (e : Editor) :
    (e.save env).1.cy = e.cy ∧ (e.save env).1.buf.lines = e.buf.lines ∧
      (e.save env).1.quit = e.quit ∧ (e.save env).1.departures = e.departures ∧
      ((e.save env).2 = true ∧ (e.save env).1.buf.saved = e.buf.lines ∨
        (e.save env).2 = false ∧ (e.save env).1.buf = e.buf) := by
  rw [save]
  rcases hsave : e.buf.save env with msg | ⟨b, msg⟩
  · exact ⟨rfl, rfl, rfl, rfl, Or.inr ⟨rfl, rfl⟩⟩
  · obtain ⟨hbuf, -, hcy, -, hquit, hdepartures⟩ := sidebarReload_frame env { e with buf := b }
    obtain rfl : b = { e.buf with dirty := false, saved := e.buf.lines } := by
      rw [Buffer.save] at hsave
      split_ifs at hsave
      cases hsave
      rfl
    refine ⟨hcy, ?_, hquit, hdepartures, Or.inl ⟨rfl, ?_⟩⟩
    · exact (congrArg Buffer.lines hbuf :)
    · exact (congrArg Buffer.saved hbuf :)

/-- The lines are sound, the cursor is on one of them, and nothing has been left behind in secret. -/
def SoundAt (e e' : Editor) : Prop := e'.Sound ∧ e'.cy < e'.buf.lines.length ∧ e.Accounts e'

theorem soundAt_save (h : e.Sound) (hline : e.cy < e.buf.lines.length) (env : ScarfEnv) :
    e.SoundAt (e.save env).1 := by
  obtain ⟨hcy, hlines, hquit, hdepartures, hcase⟩ := save_frame env e
  refine ⟨⟨fun hdirty => ?_, hdepartures ▸ h.departures⟩, by rwa [hcy, hlines],
    Or.inl ⟨hdepartures, hquit, ?_⟩⟩
  · rcases hcase with ⟨-, hsaved⟩ | ⟨-, hbuf⟩
    · rw [hlines, hsaved]
    · rw [hbuf] at hdirty ⊢
      exact h.clean hdirty
  · rcases hcase with ⟨-, hsaved⟩ | ⟨-, hbuf⟩
    · exact Or.inr ⟨hlines, hsaved⟩
    · exact Or.inl (congrArg Buffer.saved hbuf)

theorem soundAt_commandPath (h : e.Sound) (hline : e.cy < e.buf.lines.length) (env : ScarfEnv)
    (cmd : List Char) : e.SoundAt (e.commandPath env cmd) := by
  have hmessage : ∀ msg, e.SoundAt (e.setMessage msg) := fun msg =>
    ⟨⟨h.clean, h.departures⟩, hline, Edits.accounts (.of_buf rfl rfl rfl)⟩
  have hopen : ∀ path cause, e.buf.lines = e.buf.saved ∨ cause = .editBang →
      e.SoundAt (e.openPath env path cause) := by
    intro path cause hcause
    obtain ⟨hsound, -, hcy, hne, haccounts⟩ := openPath_spec h env path cause (by tauto)
    refine ⟨hsound, ?_, haccounts⟩
    rw [hcy]
    exact length_pos_iff.mpr hne
  rw [commandPath]
  rcases stripPrefix "e! ".toList cmd with - | path
  · rcases stripPrefix "e ".toList cmd with - | path
    · rcases stripPrefix "w ".toList cmd with - | path
      · exact hmessage _
      · exact soundAt_save (e := { e with buf := { e.buf with filename := path } })
          ⟨h.clean, h.departures⟩ hline env
    · dsimp only
      split_ifs with hdirty
      · exact hmessage _
      · exact hopen path .edit (Or.inl (h.clean (Bool.eq_false_of_not_eq_true hdirty)))
  · exact hopen path .editBang (Or.inr rfl)

theorem soundAt_command (h : e.Sound) (hline : e.cy < e.buf.lines.length) (env : ScarfEnv)
    (cmd : List Char) : e.SoundAt (e.command env cmd) := by
  rw [command]
  split_ifs with hdirty hq hbang hw hwq
  · exact ⟨⟨h.clean, h.departures⟩, hline, Edits.accounts (.of_buf rfl rfl rfl)⟩
  · have hclean : e.buf.dirty = false := Bool.eq_false_of_not_eq_true fun hd => hdirty ⟨hq, hd⟩
    obtain ⟨hclean', hdepartures⟩ := h.depart .quit (Or.inl (h.clean hclean))
    exact ⟨⟨hclean', hdepartures⟩, hline, Or.inr ⟨_, rfl, rfl, Or.inl rfl⟩⟩
  · obtain ⟨hclean', hdepartures⟩ := h.depart .quitBang (Or.inr (Or.inl rfl))
    exact ⟨⟨hclean', hdepartures⟩, hline, Or.inr ⟨_, rfl, rfl, Or.inl rfl⟩⟩
  · exact soundAt_save h hline env
  · have hsave := soundAt_save h hline env
    obtain ⟨-, hlines, -, hdepartures, hcase⟩ := save_frame env e
    dsimp only
    split_ifs with hok
    · obtain ⟨-, hsaved⟩ | ⟨hfalse, -⟩ := hcase
      · obtain ⟨hclean', hdepartures'⟩ :=
          hsave.1.depart .writeQuit (Or.inl (hlines.trans hsaved.symm))
        exact ⟨⟨hclean', hdepartures'⟩, hsave.2.1, Or.inr ⟨_, by rw [← hdepartures]; rfl, hlines,
          Or.inr hsaved⟩⟩
      · rw [hok] at hfalse
        cases hfalse
    · exact hsave
  · exact soundAt_commandPath h hline env cmd

/-! ### All keys -/

/-- The key does not stop the program; afterwards the cursor is in place, the lines are sound, and nothing has
been left behind in secret. -/
def KeepsAll (e : Editor) (result : Option Editor) : Prop :=
  ∃ e', result = some e' ∧ e'.CursorOk ∧ e'.Sound ∧ e.Accounts e'

theorem Keeps.all {result : Option Editor} (h : e.Keeps result) (hsound : e.Sound) :
    e.KeepsAll result := by
  obtain ⟨e', heq, hok, hedits⟩ := h
  exact ⟨e', heq, hok, hsound.edits hedits, hedits.accounts⟩

/-- What is neither the text nor the cursor does not matter. -/
theorem KeepsAll.frame (h : e.CursorOk) (hsound : e.Sound) (hbuf : e'.buf = e.buf) (hcx : e'.cx = e.cx)
    (hcy : e'.cy = e.cy) (hmode : e.mode = .insert → e'.mode = .insert) (hquit : e'.quit = e.quit)
    (hdepartures : e'.departures = e.departures) : e.KeepsAll (some e') := by
  have hedits : e.Edits e' := .of_buf hbuf hquit hdepartures
  obtain ⟨text, htext, hle, hlast⟩ := h
  refine ⟨e', rfl, ⟨text, ?_, hcx ▸ hle, fun hm => hcx ▸ hlast fun hm' => hm (hmode hm')⟩,
    hsound.edits hedits, hedits.accounts⟩
  rw [← htext, line, line, hbuf, hcy]

theorem keepsAll_keyCommand (h : e.CursorOk) (hsound : e.Sound) (hmode : e.mode = .command)
    (env : ScarfEnv) (c : UInt8) : e.KeepsAll (e.keyCommand env c) := by
  have hframe : ∀ (mode : Mode) (cmd : List Char),
      e.KeepsAll (some { e with mode := mode, cmd := cmd }) := by
    intro mode cmd
    refine .frame h hsound rfl rfl rfl (fun hm => ?_) rfl rfl
    rw [hmode] at hm
    cases hm
  rw [keyCommand]
  split_ifs
  · exact hframe .normal []
  · obtain ⟨text, htext, -⟩ := h
    obtain ⟨hsound', hline, haccounts⟩ := soundAt_command (e := { e with cmd := [], mode := .normal })
      ⟨hsound.clean, hsound.departures⟩ (lt_of_line htext) env e.cmd
    obtain ⟨cx, heq, hok⟩ := clampCx_spec hline
    exact ⟨_, heq, hok, ⟨hsound'.clean, hsound'.departures⟩, haccounts⟩
  · exact hframe .normal e.cmd
  · exact hframe e.mode e.cmd.dropLast
  · exact hframe e.mode _
  · exact hframe e.mode e.cmd

theorem keepsAll_sidebarActivate (h : e.CursorOk) (hsound : e.Sound) (env : ScarfEnv) :
    e.KeepsAll (some (e.sidebarActivate env)) := by
  rw [sidebarActivate]
  rcases e.sidebar.activate env with ⟨sidebar, - | path⟩
  · exact .frame h hsound rfl rfl rfl id rfl rfl
  · dsimp only
    split_ifs with hdirty
    · exact .frame h hsound rfl rfl rfl id rfl rfl
    · -- The lines are those of the file, and others take their place with the cursor at the beginning.
      obtain ⟨⟨hclean, hdepartures⟩, hcx, hcy, hne, haccounts⟩ :=
        openPath_spec (e := { e with sidebar := sidebar }) ⟨hsound.clean, hsound.departures⟩
          env path .sidebar
          (Or.inl (hsound.clean (Bool.eq_false_of_not_eq_true hdirty)))
      obtain ⟨text, htext⟩ := line_of_lt (hcy ▸ length_pos_iff.mpr hne)
      exact ⟨_, rfl, ⟨text, htext, hcx ▸ Nat.zero_le _, fun _ _ => hcx ▸ Nat.zero_le _⟩,
        ⟨hclean, hdepartures⟩, haccounts⟩

theorem keepsAll_keySidebar (h : e.CursorOk) (hsound : e.Sound) (hmode : e.mode = .normal)
    (env : ScarfEnv) (c : UInt8) : e.KeepsAll (some (e.keySidebar env c)) := by
  rw [keySidebar]
  split_ifs
  · exact .frame h hsound rfl rfl rfl id rfl rfl
  · exact .frame h hsound rfl rfl rfl id rfl rfl
  · exact .frame h hsound rfl rfl rfl id rfl rfl
  · exact .frame h hsound rfl rfl rfl id rfl rfl
  · exact keepsAll_sidebarActivate h hsound env
  · dsimp only
    split_ifs
    · exact .frame h hsound rfl rfl rfl id rfl rfl
    · exact .frame h hsound rfl rfl rfl id rfl rfl
  · obtain ⟨hbuf, hcx, hcy, hmode', hquit, hdepartures⟩ := sidebarReload_frame env e
    exact .frame h hsound hbuf hcx hcy (fun hm => hmode'.trans hm) hquit hdepartures
  · exact .frame h hsound rfl rfl rfl id rfl rfl
  · refine .frame h hsound rfl rfl rfl (fun hm => ?_) rfl rfl
    rw [hmode] at hm
    cases hm
  · exact .frame h hsound rfl rfl rfl id rfl rfl

theorem keepsAll_key (h : e.CursorOk) (hsound : e.Sound) (env : ScarfEnv) (c : UInt8) :
    e.KeepsAll (e.key env c) := by
  rw [key]
  by_cases hb : e.mode = .normal ∧ c = ctrlB
  · rw [if_pos hb]
    exact .frame h hsound rfl rfl rfl id rfl rfl
  by_cases he : e.mode = .normal ∧ c = ctrlE
  · rw [if_neg hb, if_pos he]
    split
    · exact .frame h hsound rfl rfl rfl id rfl rfl
    · exact .frame h hsound rfl rfl rfl id rfl rfl
  rw [if_neg hb, if_neg he]
  rcases hmode : e.mode with - | - | -
  · rcases e.focus with - | -
    · exact (keeps_keyNormal h hmode c).all hsound
    · exact keepsAll_keySidebar h hsound hmode env c
  · exact (keeps_keyInsert h hmode c).all hsound
  · exact keepsAll_keyCommand h hsound hmode env c

theorem keepsAll_special (h : e.CursorOk) (hsound : e.Sound) (env : ScarfEnv) (k : Special) :
    e.KeepsAll (e.special env k) := by
  rw [special]
  rcases hmode : e.mode with - | - | -
  · exact keepsAll_key h hsound env _
  · exact (keeps_specialInsert h hmode k).all hsound
  · exact .frame h hsound rfl rfl rfl id rfl rfl

/-! ### The viewport -/

/-- After `scroll` the cursor is in the viewport. -/
theorem scroll_spec (e : Editor) (rows cols : ℕ) :
    (e.scroll rows cols).rowoff ≤ e.cy ∧ e.cy < (e.scroll rows cols).rowoff + max rows 1 ∧
      (e.scroll rows cols).coloff ≤ e.cx ∧ e.cx < (e.scroll rows cols).coloff + max cols 1 := by
  rw [scroll]
  dsimp only
  refine ⟨?_, ?_, ?_, ?_⟩
  · split_ifs <;> omega
  · split_ifs <;> omega
  · split_ifs <;> omega
  · split_ifs <;> omega

end Editor

/-! ### Runs -/

/-- The invariant of the loop of `main`: the cursor is in place, and the lines are sound. -/
structure ScarfRun.Ok (s : ScarfRun) : Prop where
  cursor : s.editor.CursorOk
  sound : s.editor.Sound

theorem ScarfRun.ok_start (env : ScarfEnv) (cwd : Path) (file : Option Path) :
    (ScarfRun.start env cwd file).Ok := by
  have htop : ∀ e : Editor, e.buf.lines ≠ [] → e.buf.lines = e.buf.saved → e.cx = 0 → e.cy = 0 →
      e.departures = [] → (ScarfRun.mk e false).Ok := by
    intro e hne hsaved hcx hcy hdepartures
    obtain ⟨text, htext⟩ := Editor.line_of_lt (hcy ▸ length_pos_iff.mpr hne)
    refine ⟨⟨text, htext, hcx ▸ Nat.zero_le _, fun _ _ => hcx ▸ Nat.zero_le _⟩, fun _ => hsaved, ?_⟩
    rw [hdepartures]
    exact fun d hd => absurd hd not_mem_nil
  unfold ScarfRun.start
  cases file with
  | none =>
    dsimp only
    refine htop _ ?_ ?_ ?_ ?_ ?_
    · split_ifs <;> exact cons_ne_nil _ _
    all_goals split_ifs <;> rfl
  | some path =>
    obtain ⟨hne, hsaved⟩ := Editor.openBuffer_spec env path
    dsimp only
    refine htop _ ?_ ?_ ?_ ?_ ?_
    · split_ifs <;> exact hne
    · split_ifs <;> exact hsaved
    all_goals split_ifs <;> rfl

/-- A key, a special key, or none. -/
theorem ScarfRun.step_cases {s s' : ScarfRun} {ev : ScarfEvent} (h : s.Ok) (hs : s.step ev = some s') :
    s'.Ok ∧ s.editor.Accounts s'.editor ∧
      (s'.stopped = s.stopped ∨
        s'.editor.departures = s.editor.departures ++ [⟨.closed, s.editor.buf.lines, s.editor.buf.saved⟩]) := by
  unfold ScarfRun.step at hs
  split at hs
  · cases hs
  cases ev with
  | draw rows cols listRows =>
      obtain rfl := some.inj hs
      exact ⟨⟨h.cursor, ⟨h.sound.clean, h.sound.departures⟩⟩,
        Editor.Edits.accounts (.of_buf rfl rfl rfl), Or.inl rfl⟩
  | key env c =>
      obtain ⟨e, he, hcursor, hsound, haccounts⟩ := Editor.keepsAll_key h.cursor h.sound env c
      dsimp only at hs
      rw [he] at hs
      obtain rfl := some.inj hs
      exact ⟨⟨hcursor, hsound⟩, haccounts, Or.inl rfl⟩
  | special env k =>
      obtain ⟨e, he, hcursor, hsound, haccounts⟩ := Editor.keepsAll_special h.cursor h.sound env k
      dsimp only at hs
      rw [he] at hs
      obtain rfl := some.inj hs
      exact ⟨⟨hcursor, hsound⟩, haccounts, Or.inl rfl⟩
  | closed =>
      obtain rfl := some.inj hs
      exact ⟨⟨h.cursor, h.sound.depart .closed (Or.inr (Or.inr (Or.inr rfl)))⟩,
        Or.inr ⟨_, rfl, rfl, Or.inl rfl⟩, Or.inr rfl⟩

theorem scarfSystem_ok {s : ScarfRun} (h : scarfSystem.Reachable TransitionSystem.anyStep s) : s.Ok := by
  refine h.invariant (P := ScarfRun.Ok) ?_ ?_
  · rintro s ⟨env, cwd, file, rfl⟩
    exact ScarfRun.ok_start env cwd file
  · intro s ev s' _ hok _ hs
    exact (ScarfRun.step_cases hok hs).1

/-- A disk with one file of two lines, on which nothing can be written. -/
def readOnlyEnv : ScarfEnv where
  openFile path := if path = ['f'] then some "ab\ncd".toUTF8.toList else none
  createFile _ := false
  writeAll _ _ := false
  readDir _ := none

/-- **The cursor is always in place.**  Whatever files and directories there are and whatever is typed: the
text has a line, the cursor is on one, and on a character of it outside of insert mode if there is one; no
key stops the program; and after `scroll` the cursor is in the viewport. -/
theorem scarf_cursor_ok (s : ScarfRun) (h : scarfSystem.Reachable TransitionSystem.anyStep s) :
    s.editor.buf.lines ≠ [] ∧
    (∃ text, s.editor.buf.lines[s.editor.cy]? = some text ∧ s.editor.cx ≤ text.length ∧
      (s.editor.mode ≠ .insert → text ≠ [] → s.editor.cx ≤ text.length - 1)) ∧
    (∀ env c, (s.editor.key env c).isSome) ∧ (∀ env k, (s.editor.special env k).isSome) ∧
    ∀ rows cols, (s.editor.scroll rows cols).rowoff ≤ s.editor.cy ∧
      s.editor.cy < (s.editor.scroll rows cols).rowoff + max rows 1 ∧
      (s.editor.scroll rows cols).coloff ≤ s.editor.cx ∧
      s.editor.cx < (s.editor.scroll rows cols).coloff + max cols 1 := by
  obtain ⟨hcursor, hsound⟩ := scarfSystem_ok h
  refine ⟨?_, hcursor, fun env c => ?_, fun env k => ?_, s.editor.scroll_spec⟩
  · obtain ⟨text, htext, -⟩ := hcursor
    exact length_pos_iff.mp (Nat.zero_lt_of_lt (Editor.lt_of_line htext))
  · obtain ⟨e, he, -⟩ := Editor.keepsAll_key hcursor hsound env c
    exact isSome_of_eq_some he
  · obtain ⟨e, he, -⟩ := Editor.keepsAll_special hcursor hsound env k
    exact isSome_of_eq_some he

/-- A word is deleted at the end of a line, and the next line is joined with what is left. -/
theorem scarf_cursor_ok_of_join :
    ∃ s, scarfSystem.Reachable TransitionSystem.anyStep s ∧ s.editor.buf.lines = [[97, 99, 100]] ∧
      s.editor.cx = 1 ∧ s.editor.mode = .insert ∧ ∀ env c, (s.editor.key env c).isSome := by
  obtain ⟨s, hs, hlines, hcx, hmode⟩ :=
    scarfSystem.exists_of_run
      (P := fun s => s.editor.buf.lines = [[97, 99, 100]] ∧ s.editor.cx = 1 ∧ s.editor.mode = .insert)
      (s := .start readOnlyEnv ['/'] (some ['f'])) ⟨readOnlyEnv, ['/'], some ['f'], rfl⟩
      [.draw 1 1 1, .key readOnlyEnv (byte 'l'), .key readOnlyEnv (byte 'd'), .key readOnlyEnv (byte 'w'),
        .special readOnlyEnv .down, .key readOnlyEnv (byte 'i'), .key readOnlyEnv 0x7f]
      (by decide +kernel)
  exact ⟨s, hs, hlines, hcx, hmode, (scarf_cursor_ok s hs).2.2.1⟩

/-- **Edits are never left behind silently.**  Lines that are not dirty are those as of the last start, opening
or saving; lines that are others have been left behind only by `:q!`, by `:e!` or since there was no more
input; and a step that leaves lines behind adds that to the list of occasions. -/
theorem scarf_discards_only_by_bang (s : ScarfRun)
    (h : scarfSystem.Reachable TransitionSystem.anyStep s) :
    (s.editor.buf.dirty = false → s.editor.buf.lines = s.editor.buf.saved) ∧
    (∀ d ∈ s.editor.departures, d.lines ≠ d.saved →
      d.cause = .quitBang ∨ d.cause = .editBang ∨ d.cause = .closed) ∧
    ∀ ev s', s.step ev = some s' → s.editor.Accounts s'.editor ∧
      (s'.stopped = s.stopped ∨ s'.editor.departures =
        s.editor.departures ++ [⟨.closed, s.editor.buf.lines, s.editor.buf.saved⟩]) := by
  have hok := scarfSystem_ok h
  exact ⟨hok.sound.clean, hok.sound.departures, fun ev s' hs => (ScarfRun.step_cases hok hs).2⟩

/-- A line is deleted; `:q` and `:wq` are refused, the latter since nothing can be written; `:q!` is not. -/
theorem scarf_discards_only_by_bang_of_quit :
    ∃ s, scarfSystem.Reachable TransitionSystem.anyStep s ∧ s.editor.quit = true ∧
      s.editor.departures.map (fun d => (d.lines, d.saved)) =
        [([[99, 100]], [[97, 98], [99, 100]])] ∧
      ∀ d ∈ s.editor.departures, d.lines ≠ d.saved →
        d.cause = .quitBang ∨ d.cause = .editBang ∨ d.cause = .closed := by
  obtain ⟨s, hs, hquit, hdepartures⟩ :=
    scarfSystem.exists_of_run
      (P := fun s => s.editor.quit = true ∧ s.editor.departures.map (fun d => (d.lines, d.saved)) =
        [([[99, 100]], [[97, 98], [99, 100]])])
      (s := .start readOnlyEnv ['/'] (some ['f'])) ⟨readOnlyEnv, ['/'], some ['f'], rfl⟩
      (("dd:q".toUTF8.toList ++ [13] ++ ":wq".toUTF8.toList ++ [13] ++ ":q!".toUTF8.toList ++ [13]).map
        (.key readOnlyEnv))
      (by decide +kernel)
  exact ⟨s, hs, hquit, hdepartures, (scarf_discards_only_by_bang s hs).2.1⟩

end Scarf

end AnssOS
