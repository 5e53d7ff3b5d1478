import AnssOS.Foundation.Transition

/-!
# The editor

`scarf` is an editor with the modes of vim, a command line, and a sidebar with the files of a directory.
This file has its state and what each key does.

An operation of the source that stops the program if an index is out of range is an `Option` here, and so
are the functions that use it: `none` says that the program has stopped.  What the kernel answers is in a
`ScarfEnv`, which can be another one for each key.

For the claims about lost edits the buffer also has the lines as of the last start, opening or saving, and
the editor has a list of the occasions on which it has left its lines behind.

### Outline

* vectors, the buffer, the sidebar and the editor;
* `Editor.key` and `Editor.special`, by mode: `keyNormal`, `keyInsert`, `keyCommand`, `keySidebar`;
* `scarfSystem`: the loop of `main`.
-/

namespace AnssOS

namespace Scarf

/-! ### Vectors -/

/-- `Vec::remove`, without the element. -/
def vecRemove {α : Type} (v : List α) (i : ℕ) : Option (List α) :=
  if i < v.length then some (v.eraseIdx i) else none

/-- `Vec::insert`. -/
def vecInsert {α : Type} (v : List α) (i : ℕ) (a : α) : Option (List α) :=
  if i ≤ v.length then some (v.insertIdx i a) else none

/-- `Vec::split_off`: what is left and what is split off. -/
def vecSplitOff {α : Type} (v : List α) (i : ℕ) : Option (List α × List α) :=
  if i ≤ v.length then some (v.take i, v.drop i) else none

/-- `Vec::drain`. -/
def vecDrain {α : Type} (v : List α) (i j : ℕ) : Option (List α) :=
  if i ≤ j ∧ j ≤ v.length then some (v.take i ++ v.drop j) else none

/-! ### The buffer -/

abbrev Line := List UInt8

abbrev Path := List Char

structure DirEntry where
  name : Path
  isDir : Bool

/-- What the kernel answers: the bytes of a file that can be opened, whether a file can be created, whether
bytes can be written to it, and the entries of a directory. -/
structure ScarfEnv where
  openFile : Path → Option (List UInt8)
  createFile : Path → Bool
  writeAll : Path → List UInt8 → Bool
  readDir : Path → Option (List DirEntry)

/-- The text; `saved` are the lines as of the last start, opening or saving. -/
structure Buffer where
  lines : List Line
  filename : Path
  dirty : Bool
  saved : List Line

namespace Buffer

def new : Buffer := ⟨[[]], [], false, [[]]⟩

/-- The loop of `open` over the bytes of a file: the lines so far, and the line that is read. -/
def readByte : List Line × Line → UInt8 → List Line × Line
  | (lines, line), b =>
      if b = 10 then (lines ++ [line], [])
      else if b = 13 then (lines, line)
      else (lines, line ++ [b])

/-- The lines of a file. -/
def linesOf (content : List UInt8) : List Line :=
  let (lines, line) := content.foldl readByte ([], [])
  let lines := if line ≠ [] then lines ++ [line] else lines
  if lines ≠ [] then lines else [[]]

/-- `open`, with the message. -/
def openPath (env : ScarfEnv) (path : Path) : Buffer × String :=
  match env.openFile path with
  | none => (⟨[[]], path, false, [[]]⟩, "new file")
  | some content => (⟨linesOf content, path, false, linesOf content⟩, "opened")

/-- `save`; on failure with the message only. -/
def save (env : ScarfEnv) (b : Buffer) : Except String (Buffer × String) :=
  if b.filename = [] then .error "no file name -- use :w <path>"
  else if env.createFile b.filename = false then .error "cannot open file for writing"
  else if env.writeAll b.filename (b.lines.flatMap fun line => line ++ [10]) = false then
    .error "write failed"
  else .ok ({ b with dirty := false, saved := b.lines }, "written")

def insertLine (b : Buffer) (i : ℕ) (line : Line) : Option Buffer :=
  (vecInsert b.lines i line).map fun lines => { b with lines := lines, dirty := true }

/-- Removes a line, keeping at least one (empty) line. -/
def deleteLine (b : Buffer) (i : ℕ) : Buffer :=
  let b := if i < b.lines.length then { b with lines := b.lines.eraseIdx i, dirty := true } else b
  if b.lines = [] then { b with lines := [[]] } else b

end Buffer

/-! ### The sidebar -/

structure Sidebar where
  cwd : Path
  entries : List DirEntry
  sel : ℕ
  offset : ℕ

namespace Sidebar

def new (cwd : Path) : Sidebar := ⟨cwd, [], 0, 0⟩

def joinPath (dir name : Path) : Path :=
  (if dir.getLast? = some '/' then dir else dir ++ ['/']) ++ name

/-- Everything before the last slash, or the root. -/
def parentPath (path : Path) : Path :=
  match (path.reverse.dropWhile (· ≠ '/')).tail.reverse with
  | [] => ['/']
  | dir => dir

/-- Reads the listing; false if the directory couldn't be read. -/
def load (env : ScarfEnv) (sb : Sidebar) : Sidebar × Bool :=
  let up := if sb.cwd ≠ ['/'] then [⟨['.', '.'], true⟩] else []
  match env.readDir sb.cwd with
  | some entries => ({ sb with entries := up ++ entries, sel := 0, offset := 0 }, true)
  | none => ({ sb with entries := up, sel := 0, offset := 0 }, false)

def up (sb : Sidebar) : Sidebar := { sb with sel := sb.sel - 1 }

def down (sb : Sidebar) : Sidebar :=
  if sb.sel + 1 < sb.entries.length then { sb with sel := sb.sel + 1 } else sb

def first (sb : Sidebar) : Sidebar := { sb with sel := 0 }

def last (sb : Sidebar) : Sidebar := { sb with sel := sb.entries.length - 1 }

def goParent (env : ScarfEnv) (sb : Sidebar) : Sidebar × Bool :=
  { sb with cwd := parentPath sb.cwd }.load env

/-- Goes to a directory, or returns the path of a file that is to be opened. -/
def activate (env : ScarfEnv) (sb : Sidebar) : Sidebar × Option Path :=
  match sb.entries[sb.sel]? with
  | none => (sb, none)
  | some entry =>
      if entry.isDir = false then (sb, some (joinPath sb.cwd entry.name))
      else
        let cwd := if entry.name = ['.', '.'] then parentPath sb.cwd else joinPath sb.cwd entry.name
        (({ sb with cwd := cwd }.load env).1, none)

/-- Keeps the selection within the visible entries. -/
def scroll (sb : Sidebar) (rows : ℕ) : Sidebar :=
  let rows := max rows 1
  let offset := if sb.sel < sb.offset then sb.sel else sb.offset
  { sb with offset := if offset + rows ≤ sb.sel then sb.sel + 1 - rows else offset }

end Sidebar

/-! ### The editor -/

inductive Special
  | up
  | down
  | left
  | right
  | home
  | end_
  | delete

inductive Mode
  | normal
  | insert
  | command
deriving DecidableEq

inductive Focus
  | editor
  | sidebar
deriving DecidableEq

/-- How the editor leaves its lines behind: it quits by a command or since there is no more input, or it opens
another file. -/
inductive Cause
  | quit
  | quitBang
  | writeQuit
  | edit
  | editBang
  | sidebar
  | closed
deriving DecidableEq

/-- The occasion, with the lines that were left behind and those as of the last start, opening or saving. -/
structure Departure where
  cause : Cause
  lines : List Line
  saved : List Line

structure Editor where
  buf : Buffer
  cx : ℕ
  cy : ℕ
  rowoff : ℕ
  coloff : ℕ
  mode : Mode
  focus : Focus
  sidebar : Sidebar
  sidebarVisible : Bool
  message : String
  cmd : List Char
  pending : Option UInt8
  quit : Bool
  departures : List Departure

def ctrlB : UInt8 := 0x02
def ctrlE : UInt8 := 0x05
def esc : UInt8 := 0x1b
def tabStop : ℕ := 4
def cmdMax : ℕ := 127

/-- The byte of a character. -/
def byte (c : Char) : UInt8 := c.toUInt8

def isWord (c : UInt8) : Bool :=
  (48 ≤ c && c ≤ 57) || (65 ≤ c && c ≤ 90) || (97 ≤ c && c ≤ 122) || c == byte '_'

def isEnter (c : UInt8) : Bool := c == 13 || c == 10

def isBackspace (c : UInt8) : Bool := c == 0x08 || c == 0x7f

def isPrintable (c : UInt8) : Bool := 32 ≤ c && c < 127

namespace Editor

def new (cwd : Path) : Editor where
  buf := .new
  cx := 0
  cy := 0
  rowoff := 0
  coloff := 0
  mode := .normal
  focus := .sidebar
  sidebar := .new cwd
  sidebarVisible := true
  message := ""
  cmd := []
  pending := none
  quit := false
  departures := []

def setMessage (e : Editor) (msg : String) : Editor := { e with message := msg }

/-- The editor leaves its lines behind. -/
def depart (e : Editor) (cause : Cause) : Editor :=
  { e with departures := e.departures ++ [⟨cause, e.buf.lines, e.buf.saved⟩] }

/-- `open`, by a command or from the sidebar. -/
def openPath (env : ScarfEnv) (path : Path) (cause : Cause) (e : Editor) : Editor :=
  let (buf, msg) := Buffer.openPath env path
  { (e.depart cause).setMessage msg with buf := buf, cx := 0, cy := 0, rowoff := 0, coloff := 0 }

def sidebarReload (env : ScarfEnv) (e : Editor) : Editor :=
  let sel := e.sidebar.sel
  let (sidebar, ok) := e.sidebar.load env
  let e := if ok = false then e.setMessage "cannot open directory" else e
  { e with sidebar := { sidebar with sel := min sel (sidebar.entries.length - 1) } }

/-- `save`, and whether it has succeeded. -/
def save (env : ScarfEnv) (e : Editor) : Editor × Bool :=
  match e.buf.save env with
  | .ok (buf, msg) => (({ e with buf := buf }.sidebarReload env).setMessage msg, true)
  | .error msg => (e.setMessage msg, false)

def line (e : Editor) : Option Line := e.buf.lines[e.cy]?

/-- What `line_mut` is used for: the line of the cursor is replaced, and the buffer is dirty. -/
def setLine (e : Editor) (line : Line) : Editor :=
  { e with buf := { e.buf with lines := e.buf.lines.set e.cy line, dirty := true } }

/-- Keeps the viewport around the cursor. -/
def scroll (e : Editor) (rows cols : ℕ) : Editor :=
  let rows := max rows 1
  let cols := max cols 1
  let rowoff := if e.cy < e.rowoff then e.cy else e.rowoff
  let rowoff := if rowoff + rows ≤ e.cy then e.cy + 1 - rows else rowoff
  let coloff := if e.cx < e.coloff then e.cx else e.coloff
  let coloff := if coloff + cols ≤ e.cx then e.cx + 1 - cols else coloff
  { e with rowoff := rowoff, coloff := coloff }

def clampCx (e : Editor) : Option Editor := do
  let line ← e.line
  let len := line.length
  let last := if e.mode ≠ .insert ∧ 0 < len then len - 1 else len
  some { e with cx := min e.cx last }

def startCommand (e : Editor) : Editor := { e with mode := .command, cmd := [], message := "" }

/-! ### Normal mode -/

/-- The first place from `i` on that is not `p`. -/
def skipWhile (p : UInt8 → Bool) (line : Line) (i : ℕ) : ℕ := i + ((line.drop i).takeWhile p).length

/-- The end of a word and of what is between it and the next one. -/
def wordEnd (line : Line) (i : ℕ) : ℕ :=
  skipWhile (fun c => !isWord c) line (skipWhile isWord line i)

def wordForward (e : Editor) : Option Editor := do
  let line ← e.line
  let i := wordEnd line e.cx
  if line.length ≤ i ∧ e.cy + 1 < e.buf.lines.length then some { e with cx := 0, cy := e.cy + 1 }
  else some { e with cx := i }

/-- Back to a character of a word. -/
def backToWord (text : Line) : ℕ → Option ℕ
  | 0 => some 0
  | i + 1 => do
      let c ← text[i + 1]?
      if isWord c = false then backToWord text i else some (i + 1)

/-- Back to the beginning of a word. -/
def backToStart (text : Line) : ℕ → Option ℕ
  | 0 => some 0
  | i + 1 => do
      let c ← text[i]?
      if isWord c = true then backToStart text i else some (i + 1)

def wordBack (e : Editor) : Option Editor :=
  if e.cx = 0 then
    if 0 < e.cy then do
      let e := { e with cy := e.cy - 1 }
      let line ← e.line
      some { e with cx := line.length - 1 }
    else some e
  else do
    let line ← e.line
    let i ← backToWord line (e.cx - 1)
    let i ← backToStart line i
    some { e with cx := i }

def deleteWord (e : Editor) : Option Editor := do
  let line ← e.line
  if line.length ≤ e.cx then some e
  else do
    let line ← vecDrain line e.cx (wordEnd line e.cx)
    some (e.setLine line)

/-- The character at the cursor is removed, if there is one. -/
def deleteChar (e : Editor) : Option Editor := do
  let line ← e.line
  if e.cx < line.length then do
    let line ← vecRemove line e.cx
    some (e.setLine line)
  else some e

/-- What a key of normal mode stands for. -/
inductive NormalKey
  | left | right | down | up | lineStart | lineEnd | wordForward | wordBack | lastLine | operator
  | deleteChar | insert | append | appendEnd | openBelow | openAbove | command | other

def normalKey (c : UInt8) : NormalKey :=
  if c = byte 'h' then .left
  else if c = byte 'l' then .right
  else if c = byte 'j' then .down
  else if c = byte 'k' then .up
  else if c = byte '0' then .lineStart
  else if c = byte '$' then .lineEnd
  else if c = byte 'w' then .wordForward
  else if c = byte 'b' then .wordBack
  else if c = byte 'G' then .lastLine
  else if c = byte 'g' ∨ c = byte 'd' then .operator
  else if c = byte 'x' then .deleteChar
  else if c = byte 'i' then .insert
  else if c = byte 'a' then .append
  else if c = byte 'A' then .appendEnd
  else if c = byte 'o' then .openBelow
  else if c = byte 'O' then .openAbove
  else if c = byte ':' then .command
  else .other

/-- `key_normal`, if no operator is half typed. -/
def keyPlain (c : UInt8) (e : Editor) : Option Editor :=
  match normalKey c with
  | .left => some { e with cx := e.cx - 1 }
  | .right => do
      let line ← e.line
      if e.cx + 1 < line.length then some { e with cx := e.cx + 1 } else some e
  | .down => if e.cy + 1 < e.buf.lines.length then { e with cy := e.cy + 1 }.clampCx else some e
  | .up => if 0 < e.cy then { e with cy := e.cy - 1 }.clampCx else some e
  | .lineStart => some { e with cx := 0 }
  | .lineEnd => do
      let line ← e.line
      some { e with cx := line.length - 1 }
  | .wordForward => e.wordForward.bind clampCx
  | .wordBack => e.wordBack.bind clampCx
  | .lastLine => { e with cy := e.buf.lines.length - 1 }.clampCx
  | .operator => some { e with pending := some c }
  | .deleteChar => e.deleteChar.bind clampCx
  | .insert => some { e with mode := .insert }
  | .append => do
      let line ← e.line
      some { e with cx := if line = [] then e.cx else e.cx + 1, mode := .insert }
  | .appendEnd => do
      let line ← e.line
      some { e with cx := line.length, mode := .insert }
  | .openBelow => do
      let buf ← e.buf.insertLine (e.cy + 1) []
      some { e with buf := buf, cx := 0, cy := e.cy + 1, mode := .insert }
  | .openAbove => do
      let buf ← e.buf.insertLine e.cy []
      some { e with buf := buf, cx := 0, mode := .insert }
  | .command => some e.startCommand
  | .other => some e

/-- `key_normal` after `d`. -/
def keyDelete (c : UInt8) (e : Editor) : Option Editor :=
  let e' :=
    if c = byte 'd' then
      let buf := e.buf.deleteLine e.cy
      some { e with buf := buf, cy := min e.cy (buf.lines.length - 1) }
    else if c = byte 'w' then e.deleteWord
    else some e
  e'.bind clampCx

def keyNormal (c : UInt8) (e : Editor) : Option Editor :=
  let pending := e.pending
  let e := { e with pending := none }
  if pending = some (byte 'd') then e.keyDelete c
  else if pending = some (byte 'g') then
    some (if c = byte 'g' then { e with cx := 0, cy := 0 } else e)
  else e.keyPlain c

/-! ### Insert mode -/

def insertChar (c : UInt8) (e : Editor) : Option Editor := do
  let line ← e.line
  let line ← vecInsert line e.cx c
  some { e.setLine line with cx := e.cx + 1 }

/-- The line is split at the cursor. -/
def splitLine (e : Editor) : Option Editor := do
  let line ← e.line
  let (line, tail) ← vecSplitOff line e.cx
  let e := e.setLine line
  let buf ← e.buf.insertLine (e.cy + 1) tail
  some { e with buf := buf, cx := 0, cy := e.cy + 1 }

/-- The character before the cursor is removed, or the line is joined with the one before. -/
def backspace (e : Editor) : Option Editor :=
  if 0 < e.cx then do
    let e := { e with cx := e.cx - 1 }
    let line ← e.line
    let line ← vecRemove line e.cx
    some (e.setLine line)
  else if 0 < e.cy then do
    let line ← e.line
    let lines ← vecRemove e.buf.lines e.cy
    let e := { e with buf := { e.buf with lines := lines }, cy := e.cy - 1 }
    let before ← e.line
    some ({ e with cx := before.length }.setLine (before ++ line))
  else some e

/-- Some characters are inserted one after the other. -/
def insertChars : List UInt8 → Editor → Option Editor
  | [], e => some e
  | c :: cs, e => (e.insertChar c).bind (insertChars cs)

def keyInsert (c : UInt8) (e : Editor) : Option Editor :=
  if c = esc then { e with mode := .normal, cx := e.cx - 1 }.clampCx
  else if isEnter c = true then e.splitLine
  else if isBackspace c = true then e.backspace
  else if c = 9 then e.insertChars (List.replicate tabStop 32)
  else if isPrintable c = true then e.insertChar c
  else some e

/-! ### The command line -/

/-- `strip_prefix`. -/
def stripPrefix (start text : List Char) : Option (List Char) :=
  if start.isPrefixOf text = true then some (text.drop start.length) else none

/-- The commands with a path. -/
def commandPath (env : ScarfEnv) (cmd : List Char) (e : Editor) : Editor :=
  match stripPrefix "e! ".toList cmd with
  | some path => e.openPath env path .editBang
  | none =>
      match stripPrefix "e ".toList cmd with
      | some path =>
          if e.buf.dirty = true then e.setMessage "unsaved changes -- :w first, or :e! to discard"
          else e.openPath env path .edit
      | none =>
          match stripPrefix "w ".toList cmd with
          | some path => ({ e with buf := { e.buf with filename := path } }.save env).1
          | none => e.setMessage "unknown command"

/-- `:q`, `:w` and the other commands. -/
def command (env : ScarfEnv) (cmd : List Char) (e : Editor) : Editor :=
  if cmd = "q".toList ∧ e.buf.dirty = true then
    e.setMessage "unsaved changes -- :q! to discard, :wq to save"
  else if cmd = "q".toList then { e.depart .quit with quit := true }
  else if cmd = "q!".toList then { e.depart .quitBang with quit := true }
  else if cmd = "w".toList then (e.save env).1
  else if cmd = "wq".toList ∨ cmd = "x".toList then
    let (e, ok) := e.save env
    if ok = true then { e.depart .writeQuit with quit := true } else e
  else e.commandPath env cmd

def runCommand (env : ScarfEnv) (e : Editor) : Option Editor :=
  ({ e with cmd := [], mode := .normal }.command env e.cmd).clampCx

def keyCommand (env : ScarfEnv) (c : UInt8) (e : Editor) : Option Editor :=
  if c = esc then some { e with mode := .normal, cmd := [] }
  else if isEnter c = true then e.runCommand env
  else if isBackspace c = true then
    some (if e.cmd = [] then { e with mode := .normal } else { e with cmd := e.cmd.dropLast })
  else if isPrintable c = true ∧ e.cmd.length < cmdMax then
    some { e with cmd := e.cmd ++ [Char.ofNat c.toNat] }
  else some e

/-! ### The sidebar's keys -/

def sidebarActivate (env : ScarfEnv) (e : Editor) : Editor :=
  let (sidebar, path) := e.sidebar.activate env
  let e := { e with sidebar := sidebar }
  match path with
  | none => e
  | some path =>
      if e.buf.dirty = true then e.setMessage "unsaved changes -- :w first, or :e! to discard"
      else { e.openPath env path .sidebar with focus := .editor }

def keySidebar (env : ScarfEnv) (c : UInt8) (e : Editor) : Editor :=
  if c = byte 'j' then { e with sidebar := e.sidebar.down }
  else if c = byte 'k' then { e with sidebar := e.sidebar.up }
  else if c = byte 'g' then { e with sidebar := e.sidebar.first }
  else if c = byte 'G' then { e with sidebar := e.sidebar.last }
  else if c = byte 'l' ∨ isEnter c = true then e.sidebarActivate env
  else if c = byte 'h' ∨ c = byte '-' then
    let (sidebar, ok) := e.sidebar.goParent env
    let e := { e with sidebar := sidebar }
    if ok = false then e.setMessage "cannot open directory" else e
  else if c = byte 'r' then (e.sidebarReload env).setMessage "refreshed"
  else if c = esc then { e with focus := .editor }
  else if c = byte ':' then { e with focus := .editor }.startCommand
  else e

/-! ### All keys -/

def key (env : ScarfEnv) (c : UInt8) (e : Editor) : Option Editor :=
  if e.mode = .normal ∧ c = ctrlB then
    some { e with
      sidebarVisible := !e.sidebarVisible
      focus := if e.sidebarVisible = true then .editor else e.focus
      coloff := 0 }
  else if e.mode = .normal ∧ c = ctrlE then
    some (if e.sidebarVisible = true then
      { e with focus := if e.focus = .editor then .sidebar else .editor } else e)
  else
    match e.mode, e.focus with
    | .command, _ => e.keyCommand env c
    | .insert, _ => e.keyInsert c
    | .normal, .sidebar => some (e.keySidebar env c)
    | .normal, .editor => e.keyNormal c

/-- A special key in insert mode. -/
def specialInsert (k : Special) (e : Editor) : Option Editor := do
  let line ← e.line
  match k with
  | .left => some { e with cx := e.cx - 1 }
  | .right => some { e with cx := min (e.cx + 1) line.length }
  | .home => some { e with cx := 0 }
  | .end_ => some { e with cx := line.length }
  | .up => clampCx { e with cy := e.cy - 1 }
  | .down => clampCx { e with cy := if e.cy + 1 < e.buf.lines.length then e.cy + 1 else e.cy }
  | .delete => e.deleteChar

/-- The key of normal mode that a special key stands for. -/
def specialByte : Special → UInt8
  | .up => byte 'k'
  | .down => byte 'j'
  | .left => byte 'h'
  | .right => byte 'l'
  | .home => byte '0'
  | .end_ => byte '$'
  | .delete => byte 'x'

def special (env : ScarfEnv) (k : Special) (e : Editor) : Option Editor :=
  match e.mode with
  | .command => some e
  | .insert => e.specialInsert k
  | .normal => e.key env (specialByte k)

end Editor

/-! ### The loop of `main` -/

/-- The editor, and whether `main` has left its loop. -/
structure ScarfRun where
  editor : Editor
  stopped : Bool

/-- The screen is drawn; a key; a special key; or there is no more input. -/
inductive ScarfEvent
  | draw (rows cols listRows : ℕ)
  | key (env : ScarfEnv) (c : UInt8)
  | special (env : ScarfEnv) (k : Special)
  | closed

namespace ScarfRun

/-- `main` before its loop: with a file as the argument, or with a directory for the sidebar. -/
def start (env : ScarfEnv) (cwd : Path) (file : Option Path) : ScarfRun :=
  let e : Editor := .new cwd
  let e := match file with
    | none => e
    | some path =>
        let (buf, msg) := Buffer.openPath env path
        { e.setMessage msg with buf := buf, focus := .editor }
  let (sidebar, ok) := e.sidebar.load env
  let e := { e with sidebar := sidebar }
  let e := if ok = false then e.setMessage "cannot open directory" else e
  let e := if e.message = "" ∨ e.focus = .sidebar then
      e.setMessage "scarf -- Ctrl-b files, Ctrl-e switch pane, Enter open, i insert, :w :q"
    else e
  ⟨e, false⟩

/-- One round of the loop; `none` also if a key has stopped the program. -/
def step (s : ScarfRun) (ev : ScarfEvent) : Option ScarfRun :=
  if s.stopped = true ∨ s.editor.quit = true then none
  else
    match ev with
    | .draw rows cols listRows =>
        let e := s.editor.scroll rows cols
        some { s with editor := { e with sidebar := e.sidebar.scroll listRows } }
    | .key env c => (s.editor.key env c).map fun e => { s with editor := e }
    | .special env k => (s.editor.special env k).map fun e => { s with editor := e }
    | .closed => some ⟨s.editor.depart .closed, true⟩

end ScarfRun

def scarfSystem : TransitionSystem ScarfRun ScarfEvent where
  init s := ∃ env cwd file, s = .start env cwd file
  step := ScarfRun.step

end Scarf

end AnssOS
