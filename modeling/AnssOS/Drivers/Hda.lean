import AnssOS.Foundation.RingWindow
import AnssOS.Foundation.Transition

/-!
# The ring of an audio stream

The sound hardware plays a buffer over and over.  The driver keeps two positions in the stream, which only
grow: up to where it has `written`, and up to where it knows the hardware to have `played`.  The register of
the hardware has only the place in the buffer, so `update_played` adds the way from the last place, and
zeroes what lies in between; `put` writes at most up to a guard before what has not been played yet.

The hardware does not wait for either of them.  In the runs considered here it can play a byte between any
two bytes that are zeroed or copied; it only must not come around to the position of the last update.

### Outline

* `Hda`, `updatePlayed` and `put`, and the same byte by byte: `HdaRun`;
* the two agree if nothing is played in between (`updatePlayed_bytewise`, `put_bytewise`);
* `HdaRun.Invariant` and `HdaRun.Intact`, and that each step keeps them;
* `hda_ring`: a byte is played in its place or not at all, and if the hardware does not overtake the
  driver, all of them are.
-/

namespace AnssOS

open List Option Function

/-! ### The driver -/

/-- `BUFFER_BYTES`. -/
def bufferBytes : ℕ := 32768

/-- `GUARD_BYTES`. -/
def guardBytes : ℕ := 1024

structure Hda where
  buffer : ℕ → UInt8
  running : Bool
  lastLpib : ℕ
  played : ℕ
  written : ℕ

/-- Some bytes are written from `i` on. -/
def setBytes : (ℕ → UInt8) → ℕ → List UInt8 → ℕ → UInt8
  | buffer, _, [] => buffer
  | buffer, i, b :: bs => setBytes (Function.update buffer i b) (i + 1) bs

namespace Hda

/-- The stream after `open`. -/
def opened : Hda := ⟨fun _ => 0, false, 0, 0, 0⟩

def startStream (h : Hda) : Hda := { h with running := true }

/-- The loop of `update_played`. -/
def zeroPlayed (lastLpib delta : ℕ) : ℕ → ℕ → (ℕ → UInt8) → ℕ → UInt8
  | 0, _, buffer => buffer
  | fuel + 1, i, buffer =>
      if i < delta then
        let start := (lastLpib + i) % bufferBytes
        let n := min (bufferBytes - start) (delta - i)
        zeroPlayed lastLpib delta fuel (i + n) (setBytes buffer start (List.replicate n 0))
      else buffer

/-- How far the hardware has come since the last update. -/
def delta (h : Hda) (lpib : ℕ) : ℕ := (lpib + bufferBytes - h.lastLpib) % bufferBytes

/-- The end of `update_played`. -/
def advance (h : Hda) (lpib delta : ℕ) : Hda := { h with
  lastLpib := lpib
  played := h.played + delta
  written := if h.written < h.played + delta then h.played + delta else h.written }

/-- `update_played`, where the register has the value `position`. -/
def updatePlayed (h : Hda) (position : ℕ) : Hda :=
  if h.running = false then h
  else
    let lpib := position % bufferBytes
    let delta := h.delta lpib
    let buffer := zeroPlayed h.lastLpib delta delta 0 h.buffer
    { h with buffer := buffer }.advance lpib delta

/-- How many bytes `put` copies. -/
def fits (h : Hda) (src : List UInt8) : ℕ :=
  let queued := h.written - h.played
  let space := if bufferBytes ≤ queued + guardBytes then 0 else bufferBytes - guardBytes - queued
  if space < src.length then space / 4 * 4 else src.length

/-- How many bytes `put` copies in one piece. -/
def chunk (h : Hda) (src : List UInt8) : ℕ :=
  min (bufferBytes - h.written % bufferBytes) src.length

/-- The loop of `put`. -/
def putLoop : ℕ → Hda → List UInt8 → Hda
  | 0, h, _ => h
  | fuel + 1, h, src =>
      if src = [] then h
      else
        let start := h.written % bufferBytes
        let chunk := h.chunk src
        putLoop fuel { h with
          buffer := setBytes h.buffer start (src.take chunk)
          written := h.written + chunk } (src.drop chunk)

/-- `put`, with how much that was. -/
def put (h : Hda) (src : List UInt8) : Hda × ℕ :=
  let n := h.fits src
  (h.putLoop n (src.take n), n)

end Hda

/-! ### Byte by byte -/

/-- What the driver is at: nothing; it has read the register and zeroes, `i` bytes so far; or it copies the
rest `src` of what it was given, `j` bytes of the next piece so far. -/
inductive HdaStage
  | idle
  | zeroing (lpib delta i : ℕ)
  | copying (src : List UInt8) (j : ℕ)

/-- The driver and the hardware, which plays at the position `dma`; with the bytes that were put, with their
positions, and the bytes that were played. -/
structure HdaRun where
  hda : Hda
  stage : HdaStage
  dma : ℕ
  puts : List (ℕ × UInt8)
  reads : List UInt8

/-- The stream is started; the driver begins an update or goes on with it; it begins to put something or
goes on with it; or the hardware plays a byte. -/
inductive HdaEvent
  | start
  | update
  | zero
  | put (src : List UInt8)
  | copy
  | play

namespace HdaRun

def start : HdaRun := ⟨.opened, .idle, 0, [], []⟩

/-- The next byte of an update, or its end. -/
def zero (s : HdaRun) (lpib delta i : ℕ) : HdaRun :=
  if i < delta then { s with
    hda := { s.hda with
      buffer := Function.update s.hda.buffer ((s.hda.lastLpib + i) % bufferBytes) 0 }
    stage := .zeroing lpib delta (i + 1) }
  else { s with hda := s.hda.advance lpib delta, stage := .idle }

/-- The next byte that is copied, or the end of a piece. -/
def copy (s : HdaRun) (src : List UInt8) (j : ℕ) : HdaRun :=
  let chunk := s.hda.chunk src
  if h : j < src.length ∧ j < chunk then { s with
    hda := { s.hda with
      buffer := Function.update s.hda.buffer (s.hda.written % bufferBytes + j) (src.get ⟨j, h.1⟩) }
    stage := .copying src (j + 1)
    puts := s.puts ++ [(s.hda.written + j, src.get ⟨j, h.1⟩)] }
  else if src = [] then { s with stage := .idle }
  else { s with
    hda := { s.hda with written := s.hda.written + chunk }
    stage := .copying (src.drop chunk) 0 }

def step (s : HdaRun) : HdaEvent → Option HdaRun
  | .start =>
      match s.stage with
      | .idle => some { s with hda := s.hda.startStream }
      | _ => none
  | .update =>
      match s.stage with
      | .idle =>
          if s.hda.running = false then some s
          else
            let lpib := s.dma % bufferBytes
            some { s with stage := .zeroing lpib (s.hda.delta lpib) 0 }
      | _ => none
  | .zero =>
      match s.stage with
      | .zeroing lpib delta i => some (s.zero lpib delta i)
      | _ => none
  | .put src =>
      match s.stage with
      | .idle => some { s with stage := .copying (src.take (s.hda.fits src)) 0 }
      | _ => none
  | .copy =>
      match s.stage with
      | .copying src j => some (s.copy src j)
      | _ => none
  | .play =>
      if s.hda.running = true then some { s with
        dma := s.dma + 1
        reads := s.reads ++ [s.hda.buffer (s.dma % bufferBytes)] }
      else none

end HdaRun

def hdaSystem : TransitionSystem HdaRun HdaEvent where
  init s := s = .start
  step := HdaRun.step

namespace HdaRun

/-- The hardware does not come around to the position of the last update. -/
def Updated (s : HdaRun) : HdaEvent → Prop
  | .play => s.dma + 1 < s.hda.played + bufferBytes
  | _ => True

/-- Moreover, it does not overtake the driver. -/
def Fed (s : HdaRun) : HdaEvent → Prop
  | .play => s.dma + 1 < s.hda.played + bufferBytes ∧ s.dma < s.hda.written
  | _ => True

instance (s : HdaRun) : (e : HdaEvent) → Decidable (s.Updated e)
  | .play => inferInstanceAs (Decidable (_ < _))
  | .start | .update | .zero | .put _ | .copy => isTrue trivial

instance (s : HdaRun) : (e : HdaEvent) → Decidable (s.Fed e)
  | .play => inferInstanceAs (Decidable (_ ∧ _))
  | .start | .update | .zero | .put _ | .copy => isTrue trivial

/-- What has to hold in any case: the driver is ahead by what fits, and what was played at a position is
silence or the byte that was put there, which is one at most. -/
structure InPlace (s : HdaRun) : Prop where
  ahead : s.hda.played ≤ s.hda.written ∧ s.hda.written - s.hda.played ≤ bufferBytes - guardBytes
  once : (s.puts.map Prod.fst).Pairwise (· < ·)
  length : s.reads.length = s.dma
  played : ∀ x b, s.reads[x]? = some b → b = 0 ∨ (x, b) ∈ s.puts

/-- What has to hold if the hardware does not overtake the driver: no step changes a byte that is queued,
and the bytes that were put are played one after the other. -/
structure Gapless (s : HdaRun) : Prop where
  queued : ∀ e s', s.step e = some s' → ∀ y, s.dma ≤ y → y < s.hda.written →
    s'.hda.buffer (y % bufferBytes) = s.hda.buffer (y % bufferBytes)
  inOrder : s.reads = (s.puts.map Prod.snd).take s.reads.length

/-! ### Steps -/

section Steps

variable {s s' : HdaRun}

theorem step_start (hs : s.step .start = some s') :
    s.stage = .idle ∧ s' = { s with hda := s.hda.startStream } := by
  rw [step] at hs
  split at hs
  · exact ⟨‹_›, (some.inj hs).symm⟩
  · cases hs

theorem step_update (hs : s.step .update = some s') :
    s.stage = .idle ∧ (s' = s ∨
      s' = { s with stage := .zeroing (s.dma % bufferBytes) (s.hda.delta (s.dma % bufferBytes)) 0 }) := by
  rw [step] at hs
  split at hs
  · split at hs
    · exact ⟨‹_›, Or.inl (some.inj hs).symm⟩
    · exact ⟨‹_›, Or.inr (some.inj hs).symm⟩
  · cases hs

theorem step_zero (hs : s.step .zero = some s') :
    ∃ lpib delta i, s.stage = .zeroing lpib delta i ∧ s' = s.zero lpib delta i := by
  rw [step] at hs
  split at hs
  · exact ⟨_, _, _, ‹_›, (some.inj hs).symm⟩
  · cases hs

theorem step_put {src : List UInt8} (hs : s.step (.put src) = some s') :
    s.stage = .idle ∧ s' = { s with stage := .copying (src.take (s.hda.fits src)) 0 } := by
  rw [step] at hs
  split at hs
  · exact ⟨‹_›, (some.inj hs).symm⟩
  · cases hs

theorem step_copy (hs : s.step .copy = some s') :
    ∃ src j, s.stage = .copying src j ∧ s' = s.copy src j := by
  rw [step] at hs
  split at hs
  · exact ⟨_, _, ‹_›, (some.inj hs).symm⟩
  · cases hs

theorem step_play (hs : s.step .play = some s') :
    s' = { s with dma := s.dma + 1, reads := s.reads ++ [s.hda.buffer (s.dma % bufferBytes)] } := by
  rw [step] at hs
  split at hs
  · exact (some.inj hs).symm
  · cases hs

end Steps

/-! ### Without the hardware -/

/-- Steps of the driver alone. -/
def Steps (e : HdaEvent) : HdaRun → HdaRun → Prop :=
  Relation.ReflTransGen fun s s' => s.step e = some s'

variable {s : HdaRun} {src : List UInt8}

theorem steps_zero {lpib delta : ℕ} (n : ℕ) {i : ℕ} (start : ℕ)
    (hstage : s.stage = .zeroing lpib delta i) (hn : i + n ≤ delta)
    (hslot : ∀ k < n, (s.hda.lastLpib + (i + k)) % bufferBytes = start + k) :
    Steps .zero s { s with
      hda := { s.hda with buffer := setBytes s.hda.buffer start (List.replicate n 0) }
      stage := .zeroing lpib delta (i + n) } := by
  induction n generalizing s i start with
  | zero =>
    rw [Nat.add_zero, ← hstage]
    exact .refl
  | succ n ih =>
    have hfirst : s.step .zero = some { s with
        hda := { s.hda with buffer := Function.update s.hda.buffer start 0 }
        stage := .zeroing lpib delta (i + 1) } := by
      rw [step, hstage]
      dsimp only
      rw [zero, if_pos (by omega), ← Nat.add_zero i, hslot 0 (Nat.succ_pos n)]
      rfl
    refine .head hfirst ?_
    have hslot' : ∀ k < n, (s.hda.lastLpib + (i + 1 + k)) % bufferBytes = start + 1 + k := by
      intro k hk
      rw [Nat.add_assoc i, Nat.add_assoc start, Nat.add_comm 1 k]
      exact hslot (k + 1) (by omega)
    have hrest := ih (s := { s with
        hda := { s.hda with buffer := Function.update s.hda.buffer start 0 }
        stage := .zeroing lpib delta (i + 1) }) (start + 1) rfl (by omega) hslot'
    rw [Nat.add_assoc i, Nat.add_comm 1 n] at hrest
    exact hrest

/-- The loop of `update_played` zeroes the same bytes. -/
theorem steps_zeroPlayed {lpib delta : ℕ} (fuel : ℕ) {i : ℕ}
    (hstage : s.stage = .zeroing lpib delta i) (hi : i ≤ delta) (hfuel : delta ≤ i + fuel) :
    Steps .zero s { s with
      hda := { s.hda with
        buffer := Hda.zeroPlayed s.hda.lastLpib delta fuel i s.hda.buffer }
      stage := .zeroing lpib delta delta } := by
  induction fuel generalizing s i with
  | zero =>
    obtain rfl : i = delta := by omega
    rw [← hstage]
    exact .refl
  | succ fuel ih =>
    rw [Hda.zeroPlayed]
    by_cases hlt : i < delta
    · rw [if_pos hlt]
      set start := (s.hda.lastLpib + i) % bufferBytes with hstart
      set n := min (bufferBytes - start) (delta - i) with hn
      have hpos : 0 < n := by
        have hmod : start < bufferBytes := Nat.mod_lt _ (by decide)
        omega
      have hslot : ∀ k < n, (s.hda.lastLpib + (i + k)) % bufferBytes = start + k := by
        intro k hk
        unfold bufferBytes at *
        omega
      refine (steps_zero n start hstage (by omega) hslot).trans ?_
      exact ih (s := { s with
        hda := { s.hda with buffer := setBytes s.hda.buffer start (List.replicate n 0) }
        stage := .zeroing lpib delta (i + n) }) rfl (by omega) (by omega)
    · obtain rfl : i = delta := by omega
      rw [if_neg hlt, ← hstage]
      exact .refl

/-- `update_played` is its steps, if nothing is played in between. -/
theorem updatePlayed_bytewise (hidle : s.stage = .idle) :
    ∃ s', s.step .update = some s' ∧ Steps .zero s' { s with hda := s.hda.updatePlayed s.dma } := by
  by_cases hrunning : s.hda.running = false
  · refine ⟨s, ?_, ?_⟩
    · rw [step, hidle]
      exact if_pos hrunning
    · rw [Hda.updatePlayed, if_pos hrunning]
      exact .refl
  · refine ⟨{ s with stage := .zeroing (s.dma % bufferBytes) (s.hda.delta (s.dma % bufferBytes)) 0 },
      ?_, ?_⟩
    · rw [step, hidle]
      exact if_neg hrunning
    · have hloop := steps_zeroPlayed (s.hda.delta (s.dma % bufferBytes)) (s := { s with
          stage := .zeroing (s.dma % bufferBytes) (s.hda.delta (s.dma % bufferBytes)) 0 })
        rfl (Nat.zero_le _) (Nat.le_add_left _ _)
      refine hloop.tail ?_
      rw [step]
      dsimp only
      rw [zero, if_neg (lt_irrefl _), Hda.updatePlayed, if_neg hrunning, hidle]

theorem steps_copy {src bytes rest : List UInt8} {j : ℕ}
    (hstage : s.stage = .copying src j) (hsrc : src.drop j = bytes ++ rest)
    (hchunk : j + bytes.length ≤ s.hda.chunk src) :
    ∃ puts, Steps .copy s { s with
      hda := { s.hda with buffer := setBytes s.hda.buffer (s.hda.written % bufferBytes + j) bytes }
      stage := .copying src (j + bytes.length)
      puts := puts } := by
  induction bytes generalizing s j with
  | nil =>
    refine ⟨s.puts, ?_⟩
    rw [length_nil, Nat.add_zero, ← hstage]
    exact .refl
  | cons b bytes ih =>
    rw [length_cons] at hchunk
    have hlt : j < src.length := by
      by_contra hnot
      rw [drop_eq_nil_of_le (Nat.not_lt.mp hnot)] at hsrc
      cases hsrc
    have hget : src.get ⟨j, hlt⟩ = b ∧ src.drop (j + 1) = bytes ++ rest := by
      rw [drop_eq_getElem_cons hlt] at hsrc
      exact List.cons.inj hsrc
    have hfirst : s.step .copy = some { s with
        hda := { s.hda with
          buffer := Function.update s.hda.buffer (s.hda.written % bufferBytes + j) b }
        stage := .copying src (j + 1)
        puts := s.puts ++ [(s.hda.written + j, b)] } := by
      rw [step, hstage]
      dsimp only
      rw [copy, dif_pos ⟨hlt, by omega⟩, hget.1]
    obtain ⟨puts, hrest⟩ := ih (s := { s with
        hda := { s.hda with
          buffer := Function.update s.hda.buffer (s.hda.written % bufferBytes + j) b }
        stage := .copying src (j + 1)
        puts := s.puts ++ [(s.hda.written + j, b)] }) rfl hget.2 (by
          show j + 1 + bytes.length ≤ s.hda.chunk src
          omega)
    refine ⟨puts, .head hfirst ?_⟩
    rw [length_cons, Nat.add_comm bytes.length, ← Nat.add_assoc]
    exact hrest

/-- The loop of `put` copies the same bytes. -/
theorem steps_putLoop (fuel : ℕ) (hstage : s.stage = .copying src 0)
    (hfuel : src.length ≤ fuel) :
    ∃ puts, Steps .copy s { s with hda := s.hda.putLoop fuel src, stage := .idle, puts := puts } := by
  induction fuel generalizing src s with
  | zero =>
    obtain rfl := length_eq_zero_iff.mp (Nat.le_zero.mp hfuel)
    refine ⟨s.puts, .single ?_⟩
    rw [step, hstage]
    rfl
  | succ fuel ih =>
    rw [Hda.putLoop]
    by_cases hnil : src = []
    · subst hnil
      refine ⟨s.puts, .single ?_⟩
      rw [step, hstage]
      rfl
    · have hpos : 0 < s.hda.chunk src := by
        have hmod : s.hda.written % bufferBytes < bufferBytes := Nat.mod_lt _ (by decide)
        have hlength := length_pos_iff.mpr hnil
        rw [Hda.chunk]
        omega
      have hle : s.hda.chunk src ≤ src.length := min_le_right _ _
      have hlength : (src.take (s.hda.chunk src)).length = s.hda.chunk src :=
        length_take_of_le hle
      obtain ⟨puts, hpiece⟩ := steps_copy hstage (take_append_drop (s.hda.chunk src) src).symm
        (by omega)
      rw [hlength, Nat.zero_add, Nat.add_zero] at hpiece
      rw [if_neg hnil]
      dsimp only
      obtain ⟨puts', hrest⟩ := ih (s := { s with
          hda := { s.hda with
            buffer := setBytes s.hda.buffer (s.hda.written % bufferBytes) (src.take (s.hda.chunk src))
            written := s.hda.written + s.hda.chunk src }
          stage := .copying (src.drop (s.hda.chunk src)) 0
          puts := puts }) rfl (by
            rw [length_drop]
            omega)
      refine ⟨puts', hpiece.trans (.head ?_ hrest)⟩
      rw [step]
      dsimp only
      rw [copy, dif_neg fun h => lt_irrefl _ h.2, if_neg hnil]
      rfl

/-- `put` is its steps, if nothing is played in between. -/
theorem put_bytewise (hidle : s.stage = .idle) (src : List UInt8) :
    ∃ s' puts, s.step (.put src) = some s' ∧
      Steps .copy s' { s with hda := (s.hda.put src).1, puts := puts } := by
  obtain ⟨puts, hloop⟩ := steps_putLoop (s.hda.fits src) (s := { s with
      stage := .copying (src.take (s.hda.fits src)) 0 }) rfl (length_take_le _ _)
  refine ⟨_, puts, ?_, hloop.trans ?_⟩
  · rw [step, hidle]
  · rw [← hidle]
    exact .refl

theorem put_bytewise_of_start : ∃ s' puts, start.step (.put [7]) = some s' ∧
    Steps .copy s' { start with hda := (start.hda.put [7]).1, puts := puts } :=
  put_bytewise rfl [7]

/-! ### The invariant -/

/-- Up to where bytes have been put. -/
def filled (s : HdaRun) : ℕ :=
  match s.stage with
  | .copying _ j => s.hda.written + j
  | _ => s.hda.written

/-- How far the driver is with what it is at. -/
def StageOk (s : HdaRun) : Prop :=
  match s.stage with
  | .idle => True
  | .zeroing lpib delta i => (s.hda.played + delta ≤ s.dma ∧ lpib = (s.hda.played + delta) % bufferBytes) ∧
      i ≤ delta ∧ ∀ k < i, s.hda.buffer ((s.hda.played + k) % bufferBytes) = 0
  | .copying src j => s.hda.written + src.length ≤ s.hda.played + (bufferBytes - guardBytes) ∧
      j ≤ s.hda.chunk src

structure Invariant (s : HdaRun) : Prop where
  ahead : s.hda.played ≤ s.hda.written ∧ s.hda.written ≤ s.hda.played + (bufferBytes - guardBytes)
  lastLpib : s.hda.lastLpib = s.hda.played % bufferBytes
  dma : s.hda.played ≤ s.dma ∧ s.dma < s.hda.played + bufferBytes
  ring : ∀ y, s.hda.played ≤ y → y < s.hda.played + bufferBytes →
    s.hda.buffer (y % bufferBytes) = 0 ∨ (y, s.hda.buffer (y % bufferBytes)) ∈ s.puts
  stage : s.StageOk
  once : (s.puts.map Prod.fst).Pairwise (· < ·)
  puts : ∀ p ∈ s.puts, p.1 < s.filled
  length : s.reads.length = s.dma
  played : ∀ x b, s.reads[x]? = some b → b = 0 ∨ (x, b) ∈ s.puts

/-- The bytes that are queued are in the ring, and those that were played are the ones that were put. -/
structure Intact (s : HdaRun) : Prop where
  dma : s.dma ≤ s.hda.written
  positions : s.puts.map Prod.fst = List.range s.filled
  queued : ∀ y, s.dma ≤ y → y < s.filled → (y, s.hda.buffer (y % bufferBytes)) ∈ s.puts
  played : ∀ x b, s.reads[x]? = some b → (x, b) ∈ s.puts

theorem Invariant.inPlace (h : s.Invariant) : s.InPlace where
  ahead := ⟨h.ahead.1, Nat.sub_le_iff_le_add'.mpr h.ahead.2⟩
  once := h.once
  length := h.length
  played := h.played

/-- The slots of positions less than a lap apart are different. -/
theorem slot_ne {x y : ℕ} (hne : x ≠ y) (hx : x < y + bufferBytes) (hy : y < x + bufferBytes) :
    x % bufferBytes ≠ y % bufferBytes :=
  fun h => hne (eq_of_mod_eq_of_lt_lap h hx hy)

/-- The slot of the byte that is copied next. -/
theorem copy_slot {hda : Hda} {j : ℕ} (hj : j < hda.chunk src) :
    hda.written % bufferBytes + j = (hda.written + j) % bufferBytes := by
  unfold Hda.chunk bufferBytes at *
  omega

theorem mem_append_of_eq_or_mem {puts : List (ℕ × UInt8)} {x : ℕ} {b : UInt8} (p : ℕ × UInt8)
    (h : b = 0 ∨ (x, b) ∈ puts) : b = 0 ∨ (x, b) ∈ puts ++ [p] :=
  h.imp id (mem_append_left _)

theorem start_invariant : HdaRun.start.Invariant where
  ahead := ⟨le_rfl, Nat.zero_le _⟩
  lastLpib := rfl
  dma := ⟨le_rfl, by decide⟩
  ring := fun _ _ _ => Or.inl rfl
  stage := trivial
  once := Pairwise.nil
  puts := fun _ hp => (nomatch hp)
  length := rfl
  played := fun _ _ hb => (nomatch hb)

namespace Invariant

variable {s s' : HdaRun}

section

variable (h : s.Invariant)

include h

theorem startStream (hs : s.step .start = some s') : s'.Invariant := by
  obtain ⟨hstage, rfl⟩ := step_start hs
  have hok := h.stage
  rw [StageOk, hstage] at hok
  exact { h with
    stage := by
      rw [StageOk, hstage]
      exact hok }

/-- The driver reads the register: it has come as far as the hardware. -/
theorem delta_eq : s.hda.delta (s.dma % bufferBytes) = s.dma - s.hda.played := by
  obtain ⟨hle, hlt⟩ := h.dma
  rw [Hda.delta, h.lastLpib]
  unfold bufferBytes at *
  omega

theorem update (hs : s.step .update = some s') : s'.Invariant := by
  obtain ⟨hstage, rfl | rfl⟩ := step_update hs
  · exact h
  · have hputs := h.puts
    have hplayed : s.hda.played + (s.dma - s.hda.played) = s.dma := Nat.add_sub_cancel' h.dma.1
    rw [filled, hstage] at hputs
    rw [h.delta_eq]
    exact { h with
      stage := ⟨⟨hplayed.le, by rw [hplayed]⟩, Nat.zero_le _, fun k hk => (Nat.not_lt_zero k hk).elim⟩
      puts := hputs }

/-- A byte that has been played is zeroed. -/
theorem zeroByte {lpib delta i : ℕ} (hstage : s.stage = .zeroing lpib delta i)
    (hlt : i < delta) : (s.zero lpib delta i).Invariant := by
  have hok := h.stage
  have hputs := h.puts
  rw [StageOk, hstage] at hok
  rw [filled, hstage] at hputs
  obtain ⟨hdelta, hi, hzero⟩ := hok
  have hupdate : ∀ x, Function.update s.hda.buffer ((s.hda.played + i) % bufferBytes) 0 x = 0 ∨
      Function.update s.hda.buffer ((s.hda.played + i) % bufferBytes) 0 x = s.hda.buffer x := by
    intro x
    rw [update_apply]
    split
    · exact Or.inl rfl
    · exact Or.inr rfl
  rw [HdaRun.zero, if_pos hlt, h.lastLpib, Nat.mod_add_mod]
  exact { h with
    ring := by
      intro y hy hy'
      dsimp only
      rcases hupdate (y % bufferBytes) with hx | hx
      · exact Or.inl hx
      · rw [hx]
        exact h.ring y hy hy'
    stage := by
      refine ⟨hdelta, hlt, fun k hk => ?_⟩
      dsimp only
      rcases Nat.lt_succ_iff_lt_or_eq.mp hk with hk | rfl
      · rcases hupdate ((s.hda.played + k) % bufferBytes) with hx | hx
        · exact hx
        · exact hx.trans (hzero k hk)
      · rw [update_self]
    puts := hputs }

/-- All that has been played is zeroed, and the update is done. -/
theorem advance {lpib delta i : ℕ} (hstage : s.stage = .zeroing lpib delta i)
    (hnot : ¬i < delta) : (s.zero lpib delta i).Invariant := by
  have hok := h.stage
  have hputs := h.puts
  rw [StageOk, hstage] at hok
  rw [filled, hstage] at hputs
  obtain ⟨⟨hdelta, hlpib⟩, hi, hzero⟩ := hok
  obtain rfl : i = delta := by omega
  have hahead := h.ahead
  have hdma := h.dma
  have hwritten : s.hda.written ≤ (s.hda.advance lpib i).written ∧
      s.hda.played + i ≤ (s.hda.advance lpib i).written ∧
      (s.hda.advance lpib i).written ≤ s.hda.played + i + (bufferBytes - guardBytes) := by
    unfold Hda.advance
    dsimp only
    split
    · omega
    · omega
  rw [HdaRun.zero, if_neg hnot]
  refine ⟨hwritten.2, hlpib, ?_, ?_, trivial, h.once, ?_, h.length, h.played⟩
  · dsimp only [Hda.advance]
    omega
  · -- the new positions at the end are those that were zeroed
    intro y hy hy'
    dsimp only [Hda.advance] at hy hy' ⊢
    by_cases hold : y < s.hda.played + bufferBytes
    · exact h.ring y (by omega) hold
    · refine Or.inl ?_
      have hmod : y % bufferBytes = (s.hda.played + (y - bufferBytes - s.hda.played)) % bufferBytes := by
        rw [← Nat.add_mod_right (s.hda.played + _)]
        congr 1
        omega
      rw [hmod]
      exact hzero _ (by omega)
  · intro p hp
    exact (hputs p hp).trans_le hwritten.1

theorem zero (hs : s.step .zero = some s') : s'.Invariant := by
  obtain ⟨lpib, delta, i, hstage, rfl⟩ := step_zero hs
  by_cases hlt : i < delta
  · exact h.zeroByte hstage hlt
  · exact h.advance hstage hlt

theorem fits_le (src : List UInt8) :
    s.hda.written + (src.take (s.hda.fits src)).length ≤ s.hda.played + (bufferBytes - guardBytes) := by
  have hahead := h.ahead
  rw [length_take, Hda.fits]
  unfold bufferBytes guardBytes at *
  split_ifs
  all_goals omega

end
variable {j : ℕ} {src : List UInt8}

section

variable (h : s.Invariant)

include h

theorem put (hs : s.step (.put src) = some s') : s'.Invariant := by
  obtain ⟨hstage, rfl⟩ := step_put hs
  have hputs := h.puts
  rw [filled, hstage] at hputs
  exact { h with stage := ⟨h.fits_le src, Nat.zero_le _⟩, puts := hputs }

/-- A byte is copied. -/
theorem copyByte (hstage : s.stage = .copying src j)
    (hlt : j < src.length ∧ j < s.hda.chunk src) : (s.copy src j).Invariant := by
  have hok := h.stage
  have hputs := h.puts
  rw [StageOk, hstage] at hok
  rw [filled, hstage] at hputs
  obtain ⟨hroom, hj⟩ := hok
  have hahead := h.ahead
  have hposition : s.hda.written + j < s.hda.played + bufferBytes := by
    unfold bufferBytes at *
    omega
  rw [HdaRun.copy, dif_pos hlt, copy_slot hlt.2]
  exact { h with
    ring := by
      intro y hy hy'
      dsimp only at hy hy' ⊢
      by_cases heq : y = s.hda.written + j
      · subst heq
        rw [update_self]
        exact Or.inr (mem_append_right _ mem_cons_self)
      · rw [update_of_ne (slot_ne heq (by omega) (by omega))]
        exact mem_append_of_eq_or_mem _ (h.ring y hy hy')
    stage := ⟨hroom, hlt.2⟩
    once := by
      rw [map_append, pairwise_append]
      refine ⟨h.once, pairwise_singleton _ _, ?_⟩
      intro x hx y hy
      obtain ⟨p, hp, rfl⟩ := List.mem_map.mp hx
      obtain rfl := mem_singleton.mp hy
      exact hputs p hp
    puts := by
      intro p hp
      rcases mem_append.mp hp with hp | hp
      · exact (hputs p hp).trans (Nat.lt_succ_self _)
      · obtain rfl := mem_singleton.mp hp
        exact Nat.lt_succ_self _
    played := fun x b hb => mem_append_of_eq_or_mem _ (h.played x b hb) }

/-- When a piece is done, `j` is its length. -/
theorem chunk_eq (hstage : s.stage = .copying src j)
    (hnot : ¬(j < src.length ∧ j < s.hda.chunk src)) : j = s.hda.chunk src := by
  have hok := h.stage
  rw [StageOk, hstage] at hok
  have hj : j ≤ s.hda.chunk src := hok.2
  have hle : s.hda.chunk src ≤ src.length := min_le_right _ _
  omega

/-- A piece is done. -/
theorem copyEnd (hstage : s.stage = .copying src j)
    (hnot : ¬(j < src.length ∧ j < s.hda.chunk src)) : (s.copy src j).Invariant := by
  obtain rfl := h.chunk_eq hstage hnot
  have hok := h.stage
  have hputs := h.puts
  rw [StageOk, hstage] at hok
  rw [filled, hstage] at hputs
  obtain ⟨hroom, -⟩ := hok
  have hahead := h.ahead
  have hle : s.hda.chunk src ≤ src.length := min_le_right _ _
  rw [HdaRun.copy, dif_neg hnot]
  split
  · rename_i hnil
    rw [hnil, Hda.chunk, length_nil, Nat.min_zero] at hputs
    exact { h with stage := trivial, puts := hputs }
  · exact { h with
      ahead := by
        dsimp only
        omega
      stage := by
        refine ⟨?_, Nat.zero_le _⟩
        dsimp only
        rw [length_drop]
        omega
      puts := hputs }

theorem copy (hs : s.step .copy = some s') : s'.Invariant := by
  obtain ⟨src, j, hstage, rfl⟩ := step_copy hs
  by_cases hlt : j < src.length ∧ j < s.hda.chunk src
  · exact h.copyByte hstage hlt
  · exact h.copyEnd hstage hlt

/-- The hardware plays a byte. -/
theorem play (hguard : s.Updated .play) (hs : s.step .play = some s') : s'.Invariant := by
  obtain rfl := step_play hs
  exact { h with
    dma := ⟨h.dma.1.trans (Nat.le_succ _), hguard⟩
    stage := by
      have hok := h.stage
      rw [StageOk] at hok ⊢
      dsimp only
      rcases hstage : s.stage with - | ⟨lpib, delta, i⟩ | ⟨src, j⟩
      · trivial
      · rw [hstage] at hok
        exact ⟨⟨hok.1.1.trans (Nat.le_succ _), hok.1.2⟩, hok.2⟩
      · rw [hstage] at hok
        exact hok
    length := by
      rw [length_append, h.length]
      rfl
    played := by
      intro x b hb
      rw [getElem?_append] at hb
      split at hb
      · exact h.played x b hb
      · obtain ⟨hlast, rfl⟩ : x - s.reads.length = 0 ∧ s.hda.buffer (s.dma % bufferBytes) = b := by
          simpa [getElem?_singleton] using hb
        obtain rfl : x = s.dma := by
          rw [← h.length]
          omega
        exact h.ring _ h.dma.1 h.dma.2 }

theorem step {e : HdaEvent} (hguard : s.Updated e) (hs : s.step e = some s') : s'.Invariant := by
  cases e with
  | start => exact h.startStream hs
  | update => exact h.update hs
  | zero => exact h.zero hs
  | put src => exact h.put hs
  | copy => exact h.copy hs
  | play => exact h.play hguard hs

end
end Invariant

/-! ### What is queued -/

theorem written_le_filled (s : HdaRun) : s.hda.written ≤ s.filled := by
  rw [filled]
  rcases s.stage with - | ⟨lpib, delta, i⟩ | ⟨src, j⟩
  · exact le_rfl
  · exact le_rfl
  · exact Nat.le_add_right _ _

section Buffer

variable {s s' : HdaRun} {y : ℕ}

/-- An update zeroes only what has been played. -/
theorem Invariant.buffer_zero (h : s.Invariant) {lpib delta i : ℕ}
    (hstage : s.stage = .zeroing lpib delta i) (hy : s.dma ≤ y) (hy' : y < s.filled) :
    (s.zero lpib delta i).hda.buffer (y % bufferBytes) = s.hda.buffer (y % bufferBytes) := by
  have hok := h.stage
  rw [StageOk, hstage] at hok
  rw [filled, hstage] at hy'
  obtain ⟨⟨hdelta, -⟩, -⟩ := hok
  have hahead := h.ahead
  rw [HdaRun.zero]
  split
  · rw [h.lastLpib, Nat.mod_add_mod]
    dsimp only at hy' ⊢
    unfold guardBytes at *
    exact update_of_ne (slot_ne (by omega) (by omega) (by omega)) _ _
  · rfl

/-- What is copied goes behind what is queued. -/
theorem Invariant.buffer_copy (h : s.Invariant) {src : List UInt8} {j : ℕ}
    (hstage : s.stage = .copying src j) (hy : s.dma ≤ y) (hy' : y < s.filled) :
    (s.copy src j).hda.buffer (y % bufferBytes) = s.hda.buffer (y % bufferBytes) := by
  have hok := h.stage
  rw [StageOk, hstage] at hok
  rw [filled, hstage] at hy'
  obtain ⟨hroom, -⟩ := hok
  have hdma := h.dma
  rw [HdaRun.copy]
  dsimp only at hy' ⊢
  split
  · rename_i hlt
    rw [copy_slot hlt.2]
    exact update_of_ne (slot_ne (by omega) (by omega) (by omega)) _ _
  · split
    · rfl
    · rfl

/-- No step changes a byte that has been put and not been played. -/
theorem Invariant.buffer_step (h : s.Invariant) {e : HdaEvent} (hs : s.step e = some s')
    (hy : s.dma ≤ y) (hy' : y < s.filled) :
    s'.hda.buffer (y % bufferBytes) = s.hda.buffer (y % bufferBytes) := by
  cases e with
  | start =>
    obtain ⟨-, rfl⟩ := step_start hs
    rfl
  | update =>
    obtain ⟨-, rfl | rfl⟩ := step_update hs
    · rfl
    · rfl
  | zero =>
    obtain ⟨lpib, delta, i, hstage, rfl⟩ := step_zero hs
    exact h.buffer_zero hstage hy hy'
  | put src =>
    obtain ⟨-, rfl⟩ := step_put hs
    rfl
  | copy =>
    obtain ⟨src, j, hstage, rfl⟩ := step_copy hs
    exact h.buffer_copy hstage hy hy'
  | play =>
    obtain rfl := step_play hs
    rfl

end Buffer

namespace Intact

variable {s s' : HdaRun}

theorem start : HdaRun.start.Intact :=
  ⟨le_rfl, rfl, fun _ _ hy => absurd hy (Nat.not_lt_zero _), fun _ _ hb => (nomatch hb)⟩

section

variable (h : s.Intact)

include h

/-- A step that neither puts nor plays anything. -/
theorem frame (hbuffer : ∀ y, s.dma ≤ y → y < s.filled →
      s'.hda.buffer (y % bufferBytes) = s.hda.buffer (y % bufferBytes))
    (hfilled : s'.filled = s.filled) (hputs : s'.puts = s.puts) (hdma : s'.dma = s.dma)
    (hreads : s'.reads = s.reads) (hwritten : s.hda.written ≤ s'.hda.written) : s'.Intact where
  dma := hdma ▸ h.dma.trans hwritten
  positions := by
    rw [hputs, hfilled]
    exact h.positions
  queued := by
    intro y hy hy'
    rw [hdma] at hy
    rw [hfilled] at hy'
    rw [hputs, hbuffer y hy hy']
    exact h.queued y hy hy'
  played := by
    rw [hreads, hputs]
    exact h.played

theorem zero (hinv : s.Invariant) (hs : s.step .zero = some s') : s'.Intact := by
  have hbuffer := fun y => hinv.buffer_step hs (y := y)
  obtain ⟨lpib, delta, i, hstage, rfl⟩ := step_zero hs
  have hok := hinv.stage
  rw [StageOk, hstage] at hok
  obtain ⟨⟨hdelta, -⟩, -⟩ := hok
  have hfilled : s.filled = s.hda.written := by
    rw [filled, hstage]
  rw [HdaRun.zero] at hbuffer ⊢
  split
  · rename_i hlt
    rw [if_pos hlt] at hbuffer
    exact h.frame hbuffer hfilled.symm rfl rfl rfl le_rfl
  · rename_i hnot
    -- the hardware has not overtaken the driver
    have hwritten : (s.hda.advance lpib delta).written = s.hda.written :=
      if_neg (Nat.not_lt.mpr (hdelta.trans h.dma))
    rw [if_neg hnot] at hbuffer
    exact h.frame hbuffer (hwritten.trans hfilled.symm) rfl rfl rfl hwritten.ge

theorem copyByte (hinv : s.Invariant) {src : List UInt8} {j : ℕ} (hstage : s.stage = .copying src j)
    (hlt : j < src.length ∧ j < s.hda.chunk src) : (s.copy src j).Intact := by
  have hbuffer := fun y => hinv.buffer_copy hstage (y := y)
  have hfilled : s.filled = s.hda.written + j := by
    rw [filled, hstage]
  rw [HdaRun.copy, dif_pos hlt] at hbuffer ⊢
  refine ⟨h.dma, ?_, ?_, fun x b hb => mem_append_left _ (h.played x b hb)⟩
  · show List.map Prod.fst (s.puts ++ _) = List.range (s.hda.written + (j + 1))
    rw [map_append, h.positions, hfilled, ← Nat.add_assoc, range_succ]
    rfl
  · intro y hy hy'
    rcases Nat.lt_succ_iff_lt_or_eq.mp (show y < s.hda.written + j + 1 from hy') with hlt' | rfl
    · rw [hbuffer y hy (hlt'.trans_eq hfilled.symm)]
      exact mem_append_left _ (h.queued y hy (hlt'.trans_eq hfilled.symm))
    · dsimp only
      rw [copy_slot hlt.2, update_self]
      exact mem_append_right _ mem_cons_self

theorem copy (hinv : s.Invariant) (hs : s.step .copy = some s') : s'.Intact := by
  have hbuffer := fun y => hinv.buffer_step hs (y := y)
  obtain ⟨src, j, hstage, rfl⟩ := step_copy hs
  by_cases hlt : j < src.length ∧ j < s.hda.chunk src
  · exact h.copyByte hinv hstage hlt
  · obtain rfl := hinv.chunk_eq hstage hlt
    have hfilled : s.filled = s.hda.written + s.hda.chunk src := by
      rw [filled, hstage]
    rw [HdaRun.copy, dif_neg hlt] at hbuffer ⊢
    split
    · rename_i hnil
      rw [if_pos hnil] at hbuffer
      rw [hnil, Hda.chunk, length_nil, Nat.min_zero] at hfilled
      exact h.frame hbuffer hfilled.symm rfl rfl rfl le_rfl
    · rename_i hcons
      rw [if_neg hcons] at hbuffer
      exact h.frame hbuffer hfilled.symm rfl rfl rfl (Nat.le_add_right _ _)

theorem play (hguard : s.Fed .play) (hinv : s.Invariant)
    (hs : s.step .play = some s') : s'.Intact := by
  obtain rfl := step_play hs
  refine ⟨hguard.2, h.positions, fun y hy => h.queued y (Nat.le_of_succ_le hy), ?_⟩
  intro x b hb
  rw [getElem?_append] at hb
  split at hb
  · exact h.played x b hb
  · obtain ⟨hlast, rfl⟩ : x - s.reads.length = 0 ∧ s.hda.buffer (s.dma % bufferBytes) = b := by
      simpa [getElem?_singleton] using hb
    obtain rfl : x = s.dma := by
      rw [← hinv.length]
      omega
    exact h.queued _ le_rfl (hguard.2.trans_le (written_le_filled s))

theorem step (hinv : s.Invariant) {e : HdaEvent} (hguard : s.Fed e)
    (hs : s.step e = some s') : s'.Intact := by
  have hbuffer := fun y => hinv.buffer_step hs (y := y)
  cases e with
  | start =>
    obtain ⟨hstage, rfl⟩ := step_start hs
    exact h.frame hbuffer rfl rfl rfl rfl le_rfl
  | update =>
    obtain ⟨hstage, rfl | rfl⟩ := step_update hs
    · exact h
    · refine h.frame hbuffer ?_ rfl rfl rfl le_rfl
      rw [filled, filled, hstage]
  | zero => exact h.zero hinv hs
  | put src =>
    obtain ⟨hstage, rfl⟩ := step_put hs
    refine h.frame hbuffer ?_ rfl rfl rfl le_rfl
    rw [filled, filled, hstage]
    rfl
  | copy => exact h.copy hinv hs
  | play => exact h.play hguard hinv hs

/-- What was put at a position is found there in the list. -/
theorem getElem?_puts {x : ℕ} {b : UInt8} (hmem : (x, b) ∈ s.puts) : s.puts[x]? = some (x, b) := by
  obtain ⟨i, hi, hget⟩ := mem_iff_getElem.mp hmem
  have hposition : (s.puts.map Prod.fst)[i]? = some x := by
    rw [getElem?_map, getElem?_eq_getElem hi, hget]
    rfl
  rw [h.positions] at hposition
  obtain ⟨hlt, rfl⟩ := List.getElem?_eq_some_iff.mp hposition
  rw [getElem_range] at hget ⊢
  rw [getElem?_eq_getElem hi, hget]

theorem gapless (hinv : s.Invariant) : s.Gapless where
  queued := fun _ _ hs _ hy hy' => hinv.buffer_step hs hy (hy'.trans_le (written_le_filled s))
  inOrder := by
    refine ext_getElem? fun x => ?_
    rw [getElem?_take]
    split
    · rename_i hx
      have hput := h.getElem?_puts (h.played x _ (getElem?_eq_getElem hx))
      rw [getElem?_eq_getElem hx, getElem?_map, hput]
      rfl
    · rename_i hx
      exact getElem?_eq_none (Nat.not_lt.mp hx)

end
end Intact

end HdaRun

/-- If the hardware does not come around to the position of the last update, what it plays at a position is
silence or the byte that was put there; if it does not overtake the driver either, it plays all of them. -/
theorem hda_ring :
    (∀ s, hdaSystem.Reachable HdaRun.Updated s → s.InPlace) ∧
      ∀ s, hdaSystem.Reachable HdaRun.Fed s → s.Gapless := by
  have hinvariant : ∀ s, hdaSystem.Reachable HdaRun.Updated s → s.Invariant := by
    intro s h
    refine h.invariant ?_ fun s e s' _ hinv hguard hs => hinv.step hguard hs
    rintro s rfl
    exact HdaRun.start_invariant
  refine ⟨fun s h => (hinvariant s h).inPlace, fun s h => ?_⟩
  have hmono : ∀ s e, HdaRun.Fed s e → HdaRun.Updated s e := by
    intro s e hfed
    cases e with
    | play => exact hfed.1
    | _ => trivial
  have hintact : s.Intact := by
    refine h.invariant ?_ fun s e s' hr hintact hguard hs => ?_
    · rintro s rfl
      exact .start
    · exact hintact.step (hinvariant s (hr.mono hmono)) hguard hs
  exact hintact.gapless (hinvariant s (h.mono hmono))

/-- Two bytes are put and played; the hardware goes on with silence, and the next byte, which is put too
late, is not played. -/
theorem hda_ring_of_underrun :
    (∃ s, hdaSystem.Reachable HdaRun.Updated s ∧ s.InPlace ∧ s.reads = [5, 6, 0] ∧
      s.puts = [(0, 5), (1, 6), (2, 7)]) ∧
      ∃ s, hdaSystem.Reachable HdaRun.Fed s ∧ s.Gapless ∧ s.reads = [5, 6] := by
  constructor
  · obtain ⟨s, hs, hreads, hputs⟩ :=
      (hdaSystem.restrict HdaRun.Updated).exists_of_run
        (P := fun s => s.reads = [5, 6, 0] ∧ s.puts = [(0, 5), (1, 6), (2, 7)]) (s := .start) rfl
        [.put [5, 6], .copy, .copy, .copy, .copy, .start, .play, .play, .update, .zero, .play, .zero, .zero,
          .put [7], .copy]
        (by decide +kernel)
    have hr := TransitionSystem.Reachable.of_restrict hs
    exact ⟨s, hr, hda_ring.1 s hr, hreads, hputs⟩
  · obtain ⟨s, hs, hreads⟩ :=
      (hdaSystem.restrict HdaRun.Fed).exists_of_run (P := fun s => s.reads = [5, 6]) (s := .start)
        rfl [.put [5, 6], .copy, .copy, .copy, .copy, .start, .play, .play] (by decide +kernel)
    have hr := TransitionSystem.Reachable.of_restrict hs
    exact ⟨s, hr, hda_ring.2 s hr, hreads⟩

end AnssOS
