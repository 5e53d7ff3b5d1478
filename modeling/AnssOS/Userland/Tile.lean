import AnssOS.Foundation.Transition
import AnssOS.Exec.Pipe

/-!
# The main loop of `tile` and the programs in its panes

`tile` is joined to the program of each pane by two pipes.  It sends each key with `write_all`, which
tries again until the pipe has room, and it only reads what the programs have written when there is no
key left.  A program that writes more than its pipe holds waits in `write_all` as well.

### Outline

* the loop of `write_all`, the panes, and the phases of the main loop;
* the system of `tile` and the programs, under any scheduling;
* `Tile.Stuck`: both wait for each other, which never ends (`Tile.Stuck.step`);
* `tile_not_stuck`: not if keys only come while the pipe they go to has room;
* `tile_stuck`: more keys than a pipe holds.
-/

namespace AnssOS

open List Option

/-- One round of the loop of `write_all` on a pipe: what is still to be written.  It gives up if no one
is left to read, and yields if nothing could be written. -/
def writeRound (pipe : Pipe) (bytes : List UInt8) : List UInt8 × Pipe :=
  match pipe.write bytes with
  | (none, pipe) => ([], pipe)
  | (some n, pipe) => (bytes.drop n, pipe)

/-- A program in a pane: it does something else, or it is in `write_all`, or in `read_key`. -/
inductive PaneProgram
  | idle
  | writing (bytes : List UInt8)
  | reading
  | exited

/-- A pane: the two pipes, of which `stdin` is closed by `hang_up`, and the program. -/
structure Pane where
  stdin : Pipe
  stdout : Pipe
  alive : Bool
  hungUp : Bool
  program : PaneProgram

/-- Where the main loop is: at its condition, at `poll_key`, in `write_all` for the keys that go to a
pane, at a read of `pump`, or behind these loops. -/
inductive TilePhase
  | condition
  | keys
  | sending (pane : ℕ) (bytes : List UInt8)
  | pump (pane : ℕ)
  | render
  | done
deriving DecidableEq

/-- `tile` and its panes, of which there are `count`. -/
structure Tile where
  count : ℕ
  panes : ℕ → Pane
  phase : TilePhase
  focused : ℕ
  prefixSeen : Bool
  quitting : Bool
  dirty : Bool
  busy : Bool

/-- `CTRL_B`. -/
def ctrlB : UInt8 := 2

namespace Tile

def setPane (s : Tile) (p : ℕ) (pane : Pane) : Tile :=
  { s with panes := Function.update s.panes p pane }

/-- `Pane::send`, up to its `write_all`. -/
def send (s : Tile) (key : UInt8) : Tile :=
  if (s.panes s.focused).alive then { s with phase := .sending s.focused [key] } else s

/-- `Pane::hang_up`. -/
def hangUp (pane : Pane) : Pane :=
  if pane.alive then
    { pane with
      stdin := { pane.stdin with writeRefs := pane.stdin.writeRefs - 1 }
      hungUp := true }
  else pane

/-- The body of the key loop. -/
def handleKey (s : Tile) (key : UInt8) : Tile :=
  let s := { s with busy := true }
  if s.quitting then s
  else if !s.prefixSeen then
    if key = ctrlB then { s with prefixSeen := true, dirty := true } else s.send key
  else
    let s := { s with prefixSeen := false, dirty := true }
    if '1'.toNat ≤ key.toNat ∧ key.toNat ≤ '9'.toNat ∧ key.toNat - '1'.toNat < s.count then
      { s with focused := key.toNat - '1'.toNat }
    else if key.toNat = 'o'.toNat then { s with focused := (s.focused + 1) % s.count }
    else if key.toNat = 'q'.toNat then
      { s with
        quitting := true
        panes := fun p => if p < s.count then hangUp (s.panes p) else s.panes p }
    else if key = ctrlB then s.send ctrlB
    else s

/-- One read of `Pane::pump`. -/
def pumpPane (s : Tile) (p : ℕ) : Tile :=
  let pane := s.panes p
  if pane.alive then
    match pane.stdout.read 1024 with
    | (some [], _) => { s with phase := .pump (p + 1) }
    | (some (_ :: _), stdout) =>
        { s.setPane p { pane with stdout := stdout } with busy := true, dirty := true }
    | (none, _) =>
        { s.setPane p { pane with
            alive := false
            stdout := { pane.stdout with readRefs := pane.stdout.readRefs - 1 }
            stdin := if pane.hungUp then pane.stdin
              else { pane.stdin with writeRefs := pane.stdin.writeRefs - 1 } } with
          busy := true, dirty := true, phase := .pump (p + 1) }
  else { s with phase := .pump (p + 1) }

/-- The next step of the main loop, if `poll_key` has no key for it. -/
def advance (s : Tile) : Option Tile :=
  match s.phase with
  | .condition =>
      if (List.range s.count).any fun p => (s.panes p).alive then
        some { s with phase := .keys, busy := false }
      else some { s with phase := .done }
  | .keys => some { s with phase := .pump 0 }
  | .sending p bytes =>
      match writeRound (s.panes p).stdin bytes with
      | (rest, stdin) => some { s.setPane p { s.panes p with stdin := stdin } with
          phase := if rest = [] then .keys else .sending p rest }
  | .pump p => if p < s.count then some (s.pumpPane p) else some { s with phase := .render }
  | .render => some { s with phase := .condition, dirty := false }
  | .done => none

/-- A read of one key from a pane's `stdin`: the key if there is one, nothing if it is closed. -/
def readKey (pane : Pane) : Option (List UInt8) × Pane :=
  match pane.stdin.read 1 with
  | (key, stdin) => (key, { pane with stdin := stdin })

/-- The next step of a program that is in `write_all` or in `read_key`. -/
def runProgram (pane : Pane) : Option Pane :=
  match pane.program with
  | .writing bytes =>
      match writeRound pane.stdout bytes with
      | (rest, stdout) => some { pane with
          stdout := stdout
          program := if rest = [] then .idle else .writing rest }
  | .reading =>
      match readKey pane with
      | (some [], pane) => some pane
      | (_, pane) => some { pane with program := .idle }
  | .idle | .exited => none

/-- The program of a pane exits, and its ends of the pipes are closed. -/
def exitProgram (pane : Pane) : Pane :=
  { pane with
    program := .exited
    stdin := { pane.stdin with readRefs := pane.stdin.readRefs - 1 }
    stdout := { pane.stdout with writeRefs := pane.stdout.writeRefs - 1 } }

end Tile

/-- What a program that is idle can do next. -/
inductive ProgramCall
  | writeAll (bytes : List UInt8)
  | readKey
  | pollKey
  | exit

namespace Tile

def callProgram (pane : Pane) (c : ProgramCall) : Option Pane :=
  match pane.program, c with
  | .idle, .writeAll bytes => some { pane with program := if bytes = [] then .idle else .writing bytes }
  | .idle, .readKey => some { pane with program := .reading }
  | .idle, .pollKey => some (readKey pane).2
  | .idle, .exit => some (exitProgram pane)
  | _, _ => none

end Tile

/-- The scheduler lets `tile` or one of the programs run, and `poll_key` may have a key. -/
inductive TileEvent
  | key (key : UInt8)
  | tile
  | call (pane : ℕ) (c : ProgramCall)
  | run (pane : ℕ)

namespace Tile

def step (s : Tile) : TileEvent → Option Tile
  | .key key => if s.phase = .keys then some (s.handleKey key) else none
  | .tile => s.advance
  | .call p c => (callProgram (s.panes p) c).map (s.setPane p)
  | .run p => (runProgram (s.panes p)).map (s.setPane p)

/-- A pane after `Pane::spawn`. -/
def newPane : Pane := ⟨Pipe.create, Pipe.create, true, false, .idle⟩

/-- The state in which the main loop begins, with `count` panes. -/
def start (count : ℕ) : Tile :=
  ⟨count, fun _ => newPane, .condition, 0, false, false, true, false⟩

end Tile

/-- `tile` with any number of panes. -/
def tileSystem : TransitionSystem Tile TileEvent where
  init s := ∃ count, 0 < count ∧ s = Tile.start count
  step := Tile.step

namespace Tile

/-! ### Waiting for each other -/

/-- A writer that cannot go on: the pipe is full, and its reader is there. -/
def Waits (pipe : Pipe) (bytes : List UInt8) : Prop :=
  bytes ≠ [] ∧ pipe.count = bufSize ∧ pipe.readRefs ≠ 0

/-- `tile` waits for the program of a pane to read its keys, and the program waits for `tile` to read
its output. -/
def Stuck (s : Tile) (p : ℕ) : Prop :=
  (∃ keys, s.phase = .sending p keys ∧ Waits (s.panes p).stdin keys) ∧
    ∃ bytes, (s.panes p).program = .writing bytes ∧ Waits (s.panes p).stdout bytes

variable {bytes : List UInt8} {p : ℕ} {s s' : Tile} {e : TileEvent}

theorem Waits.writeRound {pipe : Pipe} (h : Waits pipe bytes) :
    writeRound pipe bytes = (bytes, pipe) := by
  obtain ⟨-, hfull, hrefs⟩ := h
  have hwrite : pipe.write bytes = (some 0, pipe) := by
    obtain ⟨buf, head, count, readRefs, writeRefs⟩ := pipe
    obtain rfl : count = bufSize := hfull
    have hrefs : readRefs ≠ 0 := hrefs
    simp [Pipe.write, hrefs, ringStore]
  rw [AnssOS.writeRound, hwrite]
  rfl

/-- What fits into the pipe is written in one round. -/
theorem writeRound_of_room {pipe : Pipe}
    (h : bytes.length ≤ bufSize - pipe.count) :
    writeRound pipe bytes = ([], (pipe.write bytes).2) := by
  unfold AnssOS.writeRound Pipe.write
  by_cases hrefs : pipe.readRefs = 0
  · rw [if_pos hrefs]
  · rw [if_neg hrefs]
    simp [h]

@[simp] theorem setPane_self (s : Tile) (p : ℕ) (pane : Pane) : (s.setPane p pane).panes p = pane := by
  simp [setPane]

theorem setPane_of_ne (s : Tile) {p q : ℕ} (pane : Pane) (h : q ≠ p) :
    (s.setPane p pane).panes q = s.panes q := by
  simp [setPane, h]

/-- A round of `write_all` for the keys. -/
theorem advance_sending {bytes rest : List UInt8} {stdin : Pipe}
    (hphase : s.phase = .sending p bytes)
    (hround : writeRound (s.panes p).stdin bytes = (rest, stdin)) :
    s.advance = some { s.setPane p { s.panes p with stdin := stdin } with
      phase := if rest = [] then .keys else .sending p rest } := by
  rw [advance, hphase]
  dsimp only
  rw [hround]

/-- A round of `write_all` for the output of a program. -/
theorem runProgram_writing {pane : Pane} {bytes rest : List UInt8} {stdout : Pipe}
    (hprogram : pane.program = .writing bytes)
    (hround : writeRound pane.stdout bytes = (rest, stdout)) :
    runProgram pane = some { pane with
      stdout := stdout
      program := if rest = [] then .idle else .writing rest } := by
  rw [runProgram, hprogram]
  dsimp only
  rw [hround]

/-- What the programs do changes one pane. -/
theorem step_program (hs : s.step e = some s') :
    (∃ key, e = .key key) ∨ e = .tile ∨ ∃ p pane, s' = s.setPane p pane ∧
      ((∃ c, e = .call p c ∧ callProgram (s.panes p) c = some pane) ∨
        e = .run p ∧ runProgram (s.panes p) = some pane) := by
  cases e with
  | key key => exact Or.inl ⟨key, rfl⟩
  | tile => exact Or.inr (Or.inl rfl)
  | call p c =>
    obtain ⟨pane, hpane, rfl⟩ := map_eq_some_iff.mp hs
    exact Or.inr (Or.inr ⟨p, pane, rfl, Or.inl ⟨c, rfl, hpane⟩⟩)
  | run p =>
    obtain ⟨pane, hpane, rfl⟩ := map_eq_some_iff.mp hs
    exact Or.inr (Or.inr ⟨p, pane, rfl, Or.inr ⟨rfl, hpane⟩⟩)

/-- Once the two wait for each other, they do so forever, whatever else happens. -/
theorem Stuck.step (h : s.Stuck p)
    (hs : s.step e = some s') : s'.Stuck p := by
  obtain ⟨⟨keys, hphase, hkeys⟩, bytes, hprogram, hbytes⟩ := id h
  rcases step_program hs with ⟨key, rfl⟩ | rfl | ⟨q, pane, rfl, hpane⟩
  · rw [Tile.step, hphase] at hs
    cases hs
  · rw [Tile.step, advance_sending hphase hkeys.writeRound, if_neg hkeys.1] at hs
    obtain rfl := some.inj hs
    exact ⟨⟨keys, rfl, by simpa using hkeys⟩, bytes, by simpa using hprogram, by simpa using hbytes⟩
  · by_cases hq : q = p
    · subst hq
      rcases hpane with ⟨c, -, hcall⟩ | ⟨-, hrun⟩
      · unfold callProgram at hcall
        rw [hprogram] at hcall
        cases hcall
      · rw [runProgram_writing hprogram hbytes.writeRound, if_neg hbytes.1] at hrun
        obtain rfl := some.inj hrun
        refine ⟨⟨keys, hphase, by simpa using hkeys⟩, bytes, by simp, by simpa using hbytes⟩
    · rw [Stuck, setPane_of_ne s pane (Ne.symm hq)]
      exact h

/-! ### Keys that find room -/

/-- The key goes to the program of the pane that has the focus. -/
def Sends (s : Tile) (key : UInt8) : Prop :=
  s.quitting = false ∧ (if s.prefixSeen then key = ctrlB else key ≠ ctrlB) ∧
    (s.panes s.focused).alive = true

instance (s : Tile) (key : UInt8) : Decidable (s.Sends key) :=
  inferInstanceAs (Decidable (_ ∧ _ ∧ _))

/-- A key for a program comes when its pipe has room. -/
def roomForKeys (s : Tile) : TileEvent → Prop
  | .key key => s.Sends key → (s.panes s.focused).stdin.count < bufSize
  | _ => True

instance (s : Tile) : (e : TileEvent) → Decidable (s.roomForKeys e)
  | .key key => inferInstanceAs (Decidable (s.Sends key → (s.panes s.focused).stdin.count < bufSize))
  | .tile | .call _ _ | .run _ => inferInstanceAs (Decidable True)

/-- The key that is being sent fits into the pipe. -/
def InRoom (s : Tile) : Prop :=
  ∀ p bytes, s.phase = .sending p bytes →
    bytes.length ≤ 1 ∧ (s.panes p).stdin.count < bufSize

theorem send_sending {key : UInt8} 
    (h : (s.send key).phase = .sending p bytes) (hphase : s.phase = .keys) :
    (s.panes s.focused).alive = true ∧ p = s.focused ∧ bytes = [key] ∧ (s.send key).panes = s.panes := by
  unfold send at h ⊢
  split at h
  · rename_i halive
    obtain ⟨rfl, rfl⟩ := TilePhase.sending.inj h
    exact ⟨halive, rfl, rfl, by rw [if_pos halive]⟩
  · rw [hphase] at h
    cases h

/-- The only step that begins to send is that of a key for a program. -/
theorem handleKey_sending {key : UInt8} (hphase : s.phase = .keys)
    (h : (s.handleKey key).phase = .sending p bytes) :
    s.Sends key ∧ p = s.focused ∧ bytes = [key] ∧ (s.handleKey key).panes = s.panes := by
  have hkeys : ∀ {s' : Tile}, s'.phase = .keys → s'.phase ≠ .sending p bytes := by
    intro s' h h'
    rw [h] at h'
    cases h'
  unfold handleKey at h ⊢
  dsimp only at h ⊢
  split_ifs at h ⊢ with hquit hseen hctrl hdigit ho hq hctrl
  · exact absurd h (hkeys hphase)
  · exact absurd h (hkeys hphase)
  · obtain ⟨halive, hp, hbytes, hpanes⟩ := send_sending h hphase
    exact ⟨⟨by simpa using hquit, by simpa [hctrl] using hseen, halive⟩, hp, hbytes, hpanes⟩
  · exact absurd h (hkeys hphase)
  · exact absurd h (hkeys hphase)
  · exact absurd h (hkeys hphase)
  · obtain ⟨halive, hp, hbytes, hpanes⟩ := send_sending h hphase
    exact ⟨⟨by simpa using hquit, by simpa [hctrl] using hseen, halive⟩, hp, hctrl ▸ hbytes, hpanes⟩
  · exact absurd h (hkeys hphase)

theorem read_count_le (pipe : Pipe) (len : ℕ) : (pipe.read len).2.count ≤ pipe.count := by
  unfold Pipe.read
  split <;> simp

/-- The programs only take keys out of the pipes. -/
theorem stdin_count_le {pane pane' : Pane}
    (h : (∃ c, callProgram pane c = some pane') ∨ runProgram pane = some pane') :
    pane'.stdin.count ≤ pane.stdin.count := by
  have hread : (readKey pane).2.stdin.count ≤ pane.stdin.count := read_count_le pane.stdin 1
  rcases h with ⟨c, h⟩ | h
  · unfold callProgram at h
    split at h
    · exact (some.inj h) ▸ le_rfl
    · exact (some.inj h) ▸ le_rfl
    · exact (some.inj h) ▸ hread
    · exact (some.inj h) ▸ le_rfl
    · cases h
  · unfold runProgram at h
    split at h
    · exact (some.inj h) ▸ le_rfl
    · split at h
      · rename_i hkey
        rw [hkey] at hread
        exact (some.inj h) ▸ hread
      · rename_i hkey
        rw [hkey] at hread
        exact (some.inj h) ▸ hread
    · cases h
    · cases h

theorem pumpPane_phase (s : Tile) (p : ℕ) :
    (s.pumpPane p).phase = .pump (p + 1) ∨ (s.pumpPane p).phase = s.phase := by
  unfold pumpPane
  dsimp only
  split
  · split
    · exact Or.inl rfl
    · exact Or.inr rfl
    · exact Or.inl rfl
  · exact Or.inl rfl

/-- A key that fits has been sent after one round, so that `tile` is never in `write_all` twice. -/
theorem InRoom.advance (h : s.InRoom) (hs : s.advance = some s')
    : s'.phase ≠ .sending p bytes := by
  intro hsending
  have hsent : ∀ q keys, s.phase = .sending q keys → s'.phase = .keys := by
    intro q keys hphase
    obtain ⟨hlen, hroom⟩ := h q keys hphase
    rw [advance_sending hphase (writeRound_of_room (by omega)), if_pos rfl] at hs
    rw [← some.inj hs]
  unfold Tile.advance at hs
  split at hs
  · split at hs <;> exact absurd hsending ((some.inj hs) ▸ nofun)
  · exact absurd hsending ((some.inj hs) ▸ nofun)
  · rename_i q keys hphase
    rw [hsent q keys hphase] at hsending
    cases hsending
  · rename_i q hphase
    split at hs
    · obtain rfl := some.inj hs
      rcases s.pumpPane_phase q with heq | heq
      · rw [heq] at hsending
        cases hsending
      · rw [heq, hphase] at hsending
        cases hsending
    · exact absurd hsending ((some.inj hs) ▸ nofun)
  · exact absurd hsending ((some.inj hs) ▸ nofun)
  · cases hs

theorem InRoom.step (h : s.InRoom) (hg : s.roomForKeys e)
    (hs : s.step e = some s') : s'.InRoom := by
  rcases step_program hs with ⟨key, rfl⟩ | rfl | ⟨q, pane, rfl, hpane⟩
  · intro p bytes hsending
    rw [Tile.step] at hs
    split at hs
    · rename_i hphase
      obtain rfl := some.inj hs
      obtain ⟨hsends, rfl, rfl, hpanes⟩ := handleKey_sending hphase hsending
      rw [hpanes]
      exact ⟨le_rfl, hg hsends⟩
    · cases hs
  · exact fun p bytes hsending => absurd hsending (h.advance hs)
  · intro p bytes hsending
    obtain ⟨hlen, hroom⟩ := h p bytes hsending
    refine ⟨hlen, ?_⟩
    by_cases hq : p = q
    · subst hq
      rw [setPane_self]
      refine (stdin_count_le ?_).trans_lt hroom
      exact hpane.imp (fun ⟨c, _, hcall⟩ => ⟨c, hcall⟩) And.right
    · rwa [setPane_of_ne s pane hq]

end Tile

/-- If keys only come while there is room for them, then `tile` and a program never wait for each
other. -/
theorem tile_not_stuck {s : Tile} (h : tileSystem.Reachable Tile.roomForKeys s) (p : ℕ) :
    ¬ s.Stuck p := by
  have hroom : s.InRoom := by
    refine h.invariant ?_ fun s e s' _ hs hg hstep => hs.step hg hstep
    rintro s ⟨count, -, rfl⟩ p bytes hphase
    cases hphase
  rintro ⟨⟨keys, hphase, -, hfull, -⟩, -⟩
  obtain ⟨-, hlt⟩ := hroom p keys hphase
  omega

/-- The theorem with a key that is being sent. -/
theorem tile_not_stuck_of_one_key : ∃ s, tileSystem.Reachable Tile.roomForKeys s ∧
    s.phase = .sending 0 [97] ∧ ∀ p, ¬ s.Stuck p := by
  obtain ⟨s, hs, hphase⟩ := (tileSystem.restrict Tile.roomForKeys).exists_of_run
    (P := fun s => s.phase = .sending 0 [97]) (s := Tile.start 2) ⟨2, by decide, rfl⟩
    [.tile, .key 97] (by decide +kernel)
  have hreach := hs.of_restrict
  exact ⟨s, hreach, hphase, tile_not_stuck hreach⟩

/-! ### More keys than a pipe holds -/

namespace Tile

/-- The program of the first pane waits for `tile` to read its output, and `n` keys have been sent
to it. -/
structure Filling (s : Tile) (n : ℕ) : Prop where
  phase : s.phase = .keys
  focused : s.focused = 0
  prefixSeen : s.prefixSeen = false
  quitting : s.quitting = false
  alive : (s.panes 0).alive = true
  count : (s.panes 0).stdin.count = n
  readRefs : (s.panes 0).stdin.readRefs ≠ 0
  output : ∃ bytes, (s.panes 0).program = .writing bytes ∧ Waits (s.panes 0).stdout bytes

/-- The next key comes. -/
theorem Filling.key {s : Tile} {n : ℕ} (h : s.Filling n) :
    s.step (.key 97) = some { s with phase := .sending 0 [97], busy := true } := by
  obtain ⟨hphase, hfocused, hseen, hquitting, halive, -⟩ := h
  rw [step, if_pos hphase]
  simp [handleKey, hquitting, hseen, send, hfocused, halive, ctrlB]

/-- There is room for one more key. -/
theorem Filling.send {s : Tile} {n : ℕ} (h : s.Filling n) (hn : n < bufSize) :
    ∃ s' s'', s.step (.key 97) = some s' ∧ s'.step .tile = some s'' ∧ s''.Filling (n + 1) := by
  have hround : writeRound (s.panes 0).stdin [97] = ([], ((s.panes 0).stdin.write [97]).2) := by
    refine writeRound_of_room ?_
    rw [h.count, length_singleton]
    omega
  have hcount : ((s.panes 0).stdin.write [97]).2.count = n + 1 := by
    have hfits : min 1 (bufSize - n) = 1 := by omega
    simp [Pipe.write, h.readRefs, h.count, hfits]
  have hrefs : ((s.panes 0).stdin.write [97]).2.readRefs ≠ 0 := by
    rw [(Pipe.write_refs _ _).1]
    exact h.readRefs
  have hstep := advance_sending (s := { s with phase := .sending 0 [97], busy := true }) rfl hround
  exact ⟨_, _, h.key, hstep, rfl, h.focused, h.prefixSeen, h.quitting, by simpa using h.alive,
    by simpa using hcount, by simpa using hrefs, by simpa using h.output⟩

/-- There is no room for the next key. -/
theorem Filling.stuck {s : Tile} (h : s.Filling bufSize) :
    ∃ s', s.step (.key 97) = some s' ∧ s'.Stuck 0 :=
  ⟨_, h.key, ⟨_, rfl, by simp, h.count, h.readRefs⟩, h.output⟩

/-- The program fills its pipe with the first of its bytes, and has one left. -/
theorem exists_filling_zero : ∃ s, tileSystem.Reachable TransitionSystem.anyStep s ∧ s.Filling 0 := by
  obtain ⟨out, full, hout, hround, hfull⟩ : ∃ (out : List UInt8) (full : Pipe), out ≠ [] ∧
      writeRound Pipe.create out = ([0], full) ∧ Waits full [0] := by
    refine ⟨List.replicate (bufSize + 1) 0, (Pipe.create.write (List.replicate (bufSize + 1) 0)).2,
      by simp, ?_, by simp, ?_, ?_⟩
    · simp [writeRound, Pipe.write, Pipe.create]
    · simp [Pipe.write, Pipe.create]
    · simp [Pipe.write_refs, Pipe.create]
  let writing : Pane := { newPane with program := .writing out }
  let blocked : Pane := { newPane with stdout := full, program := .writing [0] }
  have hcall : (start 1).step (.call 0 (.writeAll out)) = some ((start 1).setPane 0 writing) := by
    simp [step, callProgram, start, newPane, hout, writing]
  have hrun : ((start 1).setPane 0 writing).step (.run 0) =
      some (((start 1).setPane 0 writing).setPane 0 blocked) := by
    rw [step, setPane_self,
      runProgram_writing (show writing.program = .writing out from rfl) hround]
    rfl
  have hstart : tileSystem.Reachable TransitionSystem.anyStep (start 1) :=
    .init ⟨1, Nat.one_pos, rfl⟩
  have hblocked := (hstart.step (e := TileEvent.call 0 (.writeAll out)) trivial hcall).step
    (e := TileEvent.run 0) trivial hrun
  refine ⟨_, hblocked.step (e := TileEvent.tile) trivial rfl, ?_⟩
  exact ⟨rfl, rfl, rfl, rfl, rfl, rfl, by simp [blocked, newPane, Pipe.create], [0], rfl, hfull⟩

theorem exists_filling {n : ℕ} (hn : n ≤ bufSize) :
    ∃ s, tileSystem.Reachable TransitionSystem.anyStep s ∧ s.Filling n := by
  induction n with
  | zero => exact exists_filling_zero
  | succ n ih =>
    obtain ⟨s, hs, hfilling⟩ := ih (by omega)
    obtain ⟨s', s'', hkey, htile, hnext⟩ := hfilling.send (by omega)
    exact ⟨s'', (hs.step (e := TileEvent.key 97) trivial hkey).step (e := TileEvent.tile) trivial htile, hnext⟩

end Tile

/-- A program writes more than its pipe holds, and then more keys come than the other pipe holds.
From then on the two wait for each other. -/
theorem tile_stuck : ∃ s, tileSystem.Reachable TransitionSystem.anyStep s ∧ s.Stuck 0 ∧
    ∀ s', Relation.ReflTransGen (tileSystem.Step TransitionSystem.anyStep) s s' → s'.Stuck 0 := by
  obtain ⟨s, hs, hfilling⟩ := Tile.exists_filling le_rfl
  obtain ⟨s', hkey, hstuck⟩ := hfilling.stuck
  refine ⟨s', hs.step (e := TileEvent.key 97) trivial hkey, hstuck, fun s'' hrun => ?_⟩
  induction hrun with
  | refl => exact hstuck
  | tail _ hstep ih =>
    obtain ⟨e, -, he⟩ := hstep
    exact ih.step he

end AnssOS
