import AnssOS.Foundation.RingBuffer
import AnssOS.Foundation.Transition

/-!
# Keyboards

A key that is pressed becomes the bytes that a terminal would send for it.  There is one table for that,
`keymap`, and two drivers in front of it.  A USB keyboard sends all that is held, on each change, and the
driver looks for what is new; a virtio keyboard sends each press and each release, and the driver keeps
track of Shift and Ctrl.

The second one has a single flag for the two Shift keys, and likewise for Ctrl, so that to release one of
them is to release both; and it does not know Caps Lock.  Apart from that the two type the same.

### Outline

* `keymapBytes`, the two drivers, and `KeyRun`: one keyboard that is attached in both ways;
* the queue of the USB driver, and what is still to come from the virtio driver;
* what a press and a release do to each of them;
* `keyboards_type_same`: the two return the same bytes.
-/

namespace AnssOS

open List Option Function

/-! ### The key map -/

def modShift : ℕ := 1
def modCtrl : ℕ := 2
/-- Caps Lock on: letters flip case. -/
def modCaps : ℕ := 4

/-- The bytes of a text in ASCII. -/
def ascii (text : String) : List UInt8 := text.toList.map Char.toUInt8

def specialKeys : List (ℕ × List UInt8) := [
  (102, ascii "\x1b[H"), (103, ascii "\x1b[A"), (104, ascii "\x1b[5~"), (105, ascii "\x1b[D"),
  (106, ascii "\x1b[C"), (107, ascii "\x1b[F"), (108, ascii "\x1b[B"), (109, ascii "\x1b[6~"),
  (111, ascii "\x1b[3~")]

/-- Copies `keys` into consecutive codes from `start`. -/
def row (m : List UInt8) (start : ℕ) (keys : String) : List UInt8 :=
  (ascii keys).zipIdx.foldl (fun m k => m.set (start + k.2) k.1) m

def lower : List UInt8 :=
  let m := List.replicate 99 0
  let m := row m 1 "\x1b1234567890-=\x08\tqwertyuiop[]\n"
  let m := row m 30 "asdfghjkl;'`"
  let m := row m 43 "\\zxcvbnm,./"
  let m := row m 55 "*"
  let m := row m 57 " "
  let m := row m 71 "789-456+1230."
  let m := row m 96 "\n"
  row m 98 "/"

def upper : List UInt8 :=
  let m := List.replicate 54 0
  let m := row m 2 "!@#$%^&*()_+"
  let m := row m 26 "\x7b\x7d"
  let m := row m 39 ":\"~"
  let m := row m 43 "|"
  row m 51 "<>?"

/-- What Ctrl, Shift and Caps Lock make of the byte of a key. -/
def keymapByte (code mods : ℕ) (c : UInt8) : UInt8 :=
  let letter := 97 ≤ c ∧ c ≤ 122
  let shift := mods &&& modShift ≠ 0
  let caps := mods &&& modCaps ≠ 0
  if mods &&& modCtrl ≠ 0 ∧ letter then c - 97 + 1
  else if letter then if decide shift ≠ decide caps then c - 32 else c
  else if shift then ((upper[code]?).filter (· ≠ 0)).getD c
  else c

/-- `bytes`: the bytes for a key with modifiers, if it has any. -/
def keymapBytes (code mods : ℕ) : Option (List UInt8) :=
  match specialKeys.find? (fun k => k.1 = code) with
  | some (_, seq) => some seq
  | none =>
      match lower[code]? with
      | none => none
      | some c => if keymapByte code mods c = 0 then none else some [keymapByte code mods c]

/-! ### The USB driver -/

/-- A report: the modifiers, and the keys that are held. -/
structure Report where
  mods : ℕ
  keys : List ℕ

def hidUsageCapsLock : ℕ := 57
def hidErrorRollover : ℕ := 1
def repeatDelayMs : ℕ := 500
def repeatRateMs : ℕ := 33

/-- Left or right Ctrl in a report. -/
def reportCtrl : ℕ := 0x11
/-- Left or right Shift in a report. -/
def reportShift : ℕ := 0x22

/-- The state of the driver; `last` is the last report of each keyboard. -/
structure UsbKbd where
  last : ℕ → Report
  capsLock : Bool
  repeatKb : ℕ
  repeatUsage : ℕ
  repeatMods : ℕ
  repeatAtMs : ℕ
  queue : Fin 64 → UInt8
  head : ℕ
  tail : ℕ

/-- The Linux key codes of HID usages. -/
def hidToKeycode : List ℕ := [
  0, 0, 0, 0, 30, 48, 46, 32, 18, 33, 34, 35, 23, 36, 37, 38, 50, 49, 24, 25, 16, 19, 31, 20, 22, 47, 17,
  45, 21, 44, 2, 3, 4, 5, 6, 7, 8, 9, 10, 11, 28, 1, 14, 15, 57, 12, 13, 26, 27, 43, 43, 39, 40, 41, 51,
  52, 53, 58, 59, 60, 61, 62, 63, 64, 65, 66, 67, 68, 87, 88, 99, 70, 119, 110, 102, 104, 111, 107, 109,
  106, 105, 108, 103, 69, 98, 55, 74, 78, 96, 79, 80, 81, 75, 76, 77, 71, 72, 73, 82, 83, 86]

namespace UsbKbd

/-- No report so far; the value of `repeatKb` stands for none. -/
def init : UsbKbd :=
  ⟨fun _ => ⟨0, List.replicate 6 0⟩, false, 2 ^ 64 - 1, 0, 0, 0, fun _ => 0, 0, 0⟩

def pushBytes : UsbKbd → List UInt8 → UsbKbd
  | s, [] => s
  | s, b :: bs =>
      let next := (s.head + 1) % 64
      if next = s.tail then s
      else pushBytes { s with queue := Function.update s.queue (Fin.ofNat 64 s.head) b, head := next } bs

/-- The modifiers of the key map. -/
def keymapMods (s : UsbKbd) (mods : ℕ) : ℕ :=
  (if mods &&& reportShift ≠ 0 then modShift else 0) ||| (if mods &&& reportCtrl ≠ 0 then modCtrl else 0) |||
    if s.capsLock = true then modCaps else 0

def typeKey (s : UsbKbd) (usage mods : ℕ) : UsbKbd :=
  match hidToKeycode[usage]? with
  | none => s
  | some code =>
      match keymapBytes code (s.keymapMods mods) with
      | none => s
      | some bytes => s.pushBytes bytes

/-- `handle_report` for one of the keys of a report. -/
def handleUsage (kb : ℕ) (r : Report) (now : ℕ) (s : UsbKbd) (usage : ℕ) : UsbKbd :=
  if usage = 0 ∨ usage ∈ (s.last kb).keys then s
  else if usage = hidUsageCapsLock then { s with capsLock := !s.capsLock }
  else { s.typeKey usage r.mods with
    repeatKb := kb
    repeatUsage := usage
    repeatAtMs := now + repeatDelayMs }

def handleReport (s : UsbKbd) (kb : ℕ) (r : Report) (now : ℕ) : UsbKbd :=
  if r.keys[0]? = some hidErrorRollover then s
  else
    let s := r.keys.foldl (handleUsage kb r now) s
    let s := if s.repeatKb = kb then { s with
        repeatUsage := if s.repeatUsage ≠ 0 ∧ s.repeatUsage ∉ r.keys then 0 else s.repeatUsage
        repeatMods := r.mods }
      else s
    { s with last := Function.update s.last kb r }

/-- How many bytes are in the queue. -/
def count (s : UsbKbd) : ℕ := (s.head + 64 - s.tail) % 64

/-- It is time for `poll_char` to type a key again. -/
def Repeats (s : UsbKbd) (now : ℕ) : Prop :=
  s.repeatUsage ≠ 0 ∧ s.head = s.tail ∧ s.repeatAtMs ≤ now

instance (s : UsbKbd) (now : ℕ) : Decidable (s.Repeats now) := inferInstanceAs (Decidable (_ ∧ _))

def pollChar (s : UsbKbd) (now : ℕ) : UsbKbd × Option UInt8 :=
  let s := if s.Repeats now then
      { s.typeKey s.repeatUsage s.repeatMods with repeatAtMs := now + repeatRateMs }
    else s
  if s.head = s.tail then (s, none)
  else ({ s with tail := (s.tail + 1) % 64 }, some (s.queue (Fin.ofNat 64 s.tail)))

end UsbKbd

/-! ### The virtio driver -/

structure InputEvent where
  kind : ℕ
  code : ℕ
  value : ℕ

def evKey : ℕ := 1

/-- The driver and the events that are waiting in its queue. -/
structure VirtioKbd where
  eventq : List InputEvent
  shiftHeld : Bool
  ctrlHeld : Bool
  pending : List UInt8

namespace VirtioKbd

def init : VirtioKbd := ⟨[], false, false, []⟩

/-- The modifiers of the key map. -/
def keymapMods (kb : VirtioKbd) : ℕ :=
  (if kb.shiftHeld = true then modShift else 0) ||| if kb.ctrlHeld = true then modCtrl else 0

/-- `poll_char` for one event: the state after it, and the bytes of the key. -/
def handle (kb : VirtioKbd) (ev : InputEvent) : VirtioKbd × List UInt8 :=
  if ev.kind ≠ evKey then (kb, [])
  else if ev.code = 42 ∨ ev.code = 54 then ({ kb with shiftHeld := ev.value ≠ 0 }, [])
  else if ev.code = 29 ∨ ev.code = 97 then ({ kb with ctrlHeld := ev.value ≠ 0 }, [])
  else if ev.value = 1 ∨ ev.value = 2 then (kb, (keymapBytes ev.code kb.keymapMods).getD [])
  else (kb, [])

/-- The loop of `poll_char`. -/
def pollEvents : VirtioKbd → List InputEvent → VirtioKbd × Option UInt8
  | kb, [] => ({ kb with eventq := [] }, none)
  | kb, ev :: events =>
      match kb.handle ev with
      | (kb, []) => pollEvents kb events
      | (kb, b :: bs) => ({ kb with eventq := events, pending := bs }, some b)

def pollChar (kb : VirtioKbd) : VirtioKbd × Option UInt8 :=
  match kb.pending with
  | b :: bs => ({ kb with pending := bs }, some b)
  | [] => kb.pollEvents kb.eventq

end VirtioKbd

/-! ### One keyboard, attached in both ways -/

/-- A key: one of the eight modifiers in the order of their bits in a report, or a key with a HID usage. -/
inductive Key
  | modifier (i : Fin 8)
  | plain (usage : ℕ)
deriving DecidableEq

namespace Key

/-- The Linux key code of a key; `other` has those of the usages beyond the table of the USB driver. -/
def code (other : ℕ → ℕ) : Key → ℕ
  | .modifier i => [29, 42, 56, 125, 97, 54, 100, 126].get i
  | .plain usage => (hidToKeycode[usage]?).getD (other usage)

/-- The HID usages of keys other than modifiers. -/
def Valid : Key → Prop
  | .modifier _ => True
  | .plain usage => 4 ≤ usage ∧ usage < 256 ∧ ¬(224 ≤ usage ∧ usage < 232)

instance : (k : Key) → Decidable k.Valid
  | .modifier _ => isTrue trivial
  | .plain _ => inferInstanceAs (Decidable (_ ∧ _))

end Key

/-- A code for which the key map has no bytes, and which is not that of Shift or Ctrl. -/
def NoBytes (code : ℕ) : Prop :=
  (∀ mods < 8, keymapBytes code mods = none) ∧ code ∉ [42, 54, 29, 97]

/-- A keyboard with the keys that are held; both drivers, and what their `poll_char` has returned so far. -/
structure KeyRun where
  held : List Key
  usb : UsbKbd
  virtio : VirtioKbd
  usbTyped : List UInt8
  virtioTyped : List UInt8

/-- A key is pressed or released, after which the report has the keys `keys`; the virtio keyboard sends an
event of another kind; or one of the drivers is polled. -/
inductive KeyRunEvent
  | press (k : Key) (keys : List ℕ) (now : ℕ)
  | release (k : Key) (keys : List ℕ) (now : ℕ)
  | frame (ev : InputEvent)
  | pollUsb (now : ℕ)
  | pollVirtio

namespace KeyRun

def start : KeyRun := ⟨[], .init, .init, [], []⟩

/-- The modifiers in a report. -/
def modsOf (held : List Key) : ℕ :=
  (List.finRange 8).foldl (fun m i => if Key.modifier i ∈ held then m ||| 1 <<< i.val else m) 0

/-- The usages of the keys that are held. -/
def usages (held : List Key) : List ℕ :=
  held.filterMap fun
    | .modifier _ => none
    | .plain usage => some usage

/-- The six places of a report have the keys that are held, in any order, and 0. -/
def Arranges (keys : List ℕ) (held : List Key) : Prop :=
  keys.length = 6 ∧ (keys.filter (· ≠ 0)).Perm (usages held)

instance (keys : List ℕ) (held : List Key) : Decidable (Arranges keys held) :=
  inferInstanceAs (Decidable (_ ∧ _))

/-- The queues have room for another key: a key has four bytes at most. -/
def Room (s : KeyRun) : Prop := s.usb.count + 4 < 64 ∧ s.virtio.eventq.length < 64

instance (s : KeyRun) : Decidable s.Room := inferInstanceAs (Decidable (_ ∧ _))

/-- Both drivers are told that the keys that are held have changed. -/
def send (s : KeyRun) (held : List Key) (keys : List ℕ) (now : ℕ) (ev : InputEvent) : KeyRun := { s with
  held := held
  usb := s.usb.handleReport 0 ⟨modsOf held, keys⟩ now
  virtio := { s.virtio with eventq := s.virtio.eventq ++ [ev] } }

def step (other : ℕ → ℕ) (s : KeyRun) : KeyRunEvent → Option KeyRun
  | .press k keys now =>
      if k.Valid ∧ k ∉ s.held ∧ Arranges keys (k :: s.held) ∧ s.Room then
        some (s.send (k :: s.held) keys now ⟨evKey, k.code other, 1⟩)
      else none
  | .release k keys now =>
      if k ∈ s.held ∧ Arranges keys (s.held.erase k) ∧ s.Room then
        some (s.send (s.held.erase k) keys now ⟨evKey, k.code other, 0⟩)
      else none
  | .frame ev =>
      if ev.kind ≠ evKey ∧ s.virtio.eventq.length < 64 then
        some { s with virtio := { s.virtio with eventq := s.virtio.eventq ++ [ev] } }
      else none
  | .pollUsb now =>
      -- no key is typed again
      if s.usb.Repeats now then none
      else
        let (usb, c) := s.usb.pollChar now
        some { s with usb := usb, usbTyped := s.usbTyped ++ c.toList }
  | .pollVirtio =>
      let (virtio, c) := s.virtio.pollChar
      some { s with virtio := virtio, virtioTyped := s.virtioTyped ++ c.toList }

end KeyRun

def keySystem (other : ℕ → ℕ) : TransitionSystem KeyRun KeyRunEvent where
  init s := s = .start
  step := KeyRun.step other

/-- What has to hold: what has been read from one keyboard is the beginning of what has been read from the
other; and if both have nothing more, and no key is typed again, it is the same. -/
structure KeyRun.Same (s : KeyRun) : Prop where
  comparable : s.usbTyped <+: s.virtioTyped ∨ s.virtioTyped <+: s.usbTyped
  drained : ∀ now, ¬s.usb.Repeats now → (s.usb.pollChar now).2 = none → s.virtio.pollChar.2 = none →
    s.usbTyped = s.virtioTyped

/-- Caps Lock is not pressed, and neither of the Shift keys and neither of the Ctrl keys is released while the
other one is held. -/
def KeyRun.OneByOne (s : KeyRun) : KeyRunEvent → Prop
  | .press k _ _ => k ≠ .plain hidUsageCapsLock
  | .release k _ _ =>
      (k = .modifier 1 → .modifier 5 ∉ s.held) ∧ (k = .modifier 5 → .modifier 1 ∉ s.held) ∧
      (k = .modifier 0 → .modifier 4 ∉ s.held) ∧ (k = .modifier 4 → .modifier 0 ∉ s.held)
  | _ => True

instance (s : KeyRun) : (e : KeyRunEvent) → Decidable (s.OneByOne e)
  | .press _ _ _ => inferInstanceAs (Decidable (_ ≠ _))
  | .release _ _ _ => inferInstanceAs (Decidable (_ ∧ _))
  | .frame _ | .pollUsb _ | .pollVirtio => isTrue trivial

/-- With Caps Lock, the first driver types a capital letter and the second one does not.  When one of two
Shift keys is released, it is the same. -/
theorem keyboards_type_differently :
    (∃ s, (keySystem fun _ => 127).Reachable TransitionSystem.anyStep s ∧
      ((s.usb.pollChar 0).2 = none ∧ s.virtio.pollChar.2 = none) ∧ s.usbTyped = ascii "A" ∧
        s.virtioTyped = ascii "a") ∧
    ∃ s, (keySystem fun _ => 127).Reachable TransitionSystem.anyStep s ∧
      ((s.usb.pollChar 0).2 = none ∧ s.virtio.pollChar.2 = none) ∧ s.usbTyped = ascii "A" ∧
        s.virtioTyped = ascii "a" := by
  constructor
  · exact (keySystem fun _ => 127).exists_of_run (s := .start) rfl
      [.press (.plain 57) [57, 0, 0, 0, 0, 0] 0, .press (.plain 4) [57, 4, 0, 0, 0, 0] 0, .pollUsb 0,
        .pollVirtio]
      (by decide +kernel)
  · exact (keySystem fun _ => 127).exists_of_run (s := .start) rfl
      [.press (.modifier 1) [0, 0, 0, 0, 0, 0] 0, .press (.modifier 5) [0, 0, 0, 0, 0, 0] 0,
        .release (.modifier 1) [0, 0, 0, 0, 0, 0] 0, .press (.plain 4) [0, 4, 0, 0, 0, 0] 0, .pollUsb 0,
        .pollVirtio]
      (by decide +kernel)

/-! ### The queue of the USB driver -/

namespace UsbKbd

/-- The bytes in the queue. -/
def bytes (s : UsbKbd) : List UInt8 := ringContents s.queue s.tail s.count

/-- The indices are in range. -/
structure QueueOk (s : UsbKbd) : Prop where
  head : s.head < 64
  tail : s.tail < 64

variable {s : UsbKbd}

theorem count_eq_zero_iff (h : s.QueueOk) : s.count = 0 ↔ s.head = s.tail := by
  obtain ⟨hhead, htail⟩ := h
  rw [count]
  omega

/-- A byte is put behind the others, if there is room. -/
theorem bytes_push (h : s.QueueOk) (hroom : s.count + 1 < 64) (b : UInt8) :
    let s' : UsbKbd :=
      { s with queue := Function.update s.queue (Fin.ofNat 64 s.head) b, head := (s.head + 1) % 64 }
    (s.head + 1) % 64 ≠ s.tail ∧ s'.QueueOk ∧ s'.count = s.count + 1 ∧ s'.bytes = s.bytes ++ [b] := by
  obtain ⟨hhead, htail⟩ := h
  intro s'
  have hcount : s'.count = s.count + 1 := by
    show ((s.head + 1) % 64 + 64 - s.tail) % 64 = (s.head + 64 - s.tail) % 64 + 1
    rw [count] at hroom
    omega
  have hcell : Fin.ofNat 64 s.head = Fin.ofNat 64 (s.tail + s.count) := by
    refine Fin.ext ?_
    show s.head % 64 = (s.tail + (s.head + 64 - s.tail) % 64) % 64
    omega
  refine ⟨?_, ⟨Nat.mod_lt _ (by decide), htail⟩, hcount, ?_⟩
  · rw [count] at hroom
    omega
  · rw [bytes, hcount]
    show ringContents (Function.update s.queue (Fin.ofNat 64 s.head) b) s.tail (s.count + 1) = _
    rw [hcell]
    exact ringContents_ringStore s.queue s.tail s.count [b] hroom.le

theorem pushBytes_spec (bs : List UInt8) (h : s.QueueOk) (hroom : s.count + bs.length < 64) :
    ∃ queue head, s.pushBytes bs = { s with queue := queue, head := head } ∧
      (s.pushBytes bs).QueueOk ∧ (s.pushBytes bs).bytes = s.bytes ++ bs := by
  induction bs generalizing s with
  | nil =>
    refine ⟨s.queue, s.head, rfl, h, ?_⟩
    rw [List.append_nil]
    rfl
  | cons b bs ih =>
    rw [length_cons] at hroom
    obtain ⟨hnext, hok, hcount, hbytes⟩ := bytes_push h (by omega) b
    obtain ⟨queue, head, heq, hok', hbytes'⟩ := ih hok (by omega)
    rw [pushBytes, if_neg hnext]
    refine ⟨queue, head, heq, hok', ?_⟩
    rw [hbytes', hbytes, List.append_assoc]
    rfl

/-- Polling takes the first byte. -/
theorem pollChar_spec (h : s.QueueOk) {now : ℕ} (hrepeat : ¬s.Repeats now) :
    ∃ tail, (s.pollChar now).1 = { s with tail := tail } ∧ (s.pollChar now).1.QueueOk ∧
      s.bytes = (s.pollChar now).2.toList ++ (s.pollChar now).1.bytes ∧
      ((s.pollChar now).2 = none → s.bytes = []) := by
  rw [pollChar, if_neg hrepeat]
  by_cases hempty : s.head = s.tail
  · have hbytes : s.bytes = [] := by
      rw [bytes, (count_eq_zero_iff h).mpr hempty]
      rfl
    rw [if_pos hempty]
    exact ⟨s.tail, rfl, h, rfl, fun _ => hbytes⟩
  · obtain ⟨hhead, htail⟩ := h
    have hcount : s.count = 1 + (s.head + 64 - (s.tail + 1) % 64) % 64 := by
      rw [count]
      omega
    rw [if_neg hempty]
    refine ⟨(s.tail + 1) % 64, rfl, ⟨hhead, Nat.mod_lt _ (by decide)⟩, ?_, fun hnone => (nomatch hnone)⟩
    rw [bytes, hcount, ringContents_add, ← ringContents_mod s.queue (s.tail + 1)]
    rfl

end UsbKbd

/-! ### What is still to come from the virtio driver -/

namespace VirtioKbd

/-- The bytes of some events. -/
def coming : VirtioKbd → List InputEvent → List UInt8
  | _, [] => []
  | kb, ev :: events => (kb.handle ev).2 ++ coming (kb.handle ev).1 events

/-- The state after some events. -/
def settled (kb : VirtioKbd) (events : List InputEvent) : VirtioKbd :=
  events.foldl (fun kb ev => (kb.handle ev).1) kb

/-- An event is handled in the same way whatever is waiting. -/
theorem handle_frame (kb : VirtioKbd) (eventq : List InputEvent) (pending : List UInt8) (ev : InputEvent) :
    { kb with eventq := eventq, pending := pending }.handle ev =
      ({ (kb.handle ev).1 with eventq := eventq, pending := pending }, (kb.handle ev).2) := by
  unfold handle
  split_ifs
  · rfl
  · rfl
  · rfl
  · rfl
  · rfl

theorem coming_frame (kb : VirtioKbd) (eventq : List InputEvent) (pending : List UInt8)
    (events : List InputEvent) :
    { kb with eventq := eventq, pending := pending }.coming events = kb.coming events := by
  induction events generalizing kb with
  | nil => rfl
  | cons ev events ih =>
    rw [coming, handle_frame, ih, coming]

theorem settled_frame (kb : VirtioKbd) (eventq : List InputEvent) (pending : List UInt8)
    (events : List InputEvent) :
    { kb with eventq := eventq, pending := pending }.settled events =
      { kb.settled events with eventq := eventq, pending := pending } := by
  induction events generalizing kb with
  | nil => rfl
  | cons ev events ih =>
    show VirtioKbd.settled (handle _ ev).1 events = _
    rw [handle_frame, ih]
    rfl

theorem coming_append (kb : VirtioKbd) (events : List InputEvent) (ev : InputEvent) :
    kb.coming (events ++ [ev]) = kb.coming events ++ ((kb.settled events).handle ev).2 := by
  induction events generalizing kb with
  | nil => exact List.append_nil _
  | cons e events ih =>
    rw [cons_append, coming, ih, coming, List.append_assoc]
    rfl

/-- All that is to come: the rest of a key, and the events in the queue. -/
def future (kb : VirtioKbd) : List UInt8 := kb.pending ++ kb.coming kb.eventq

/-- Shift and Ctrl after the events in the queue. -/
def flags (kb : VirtioKbd) : Bool × Bool :=
  ((kb.settled kb.eventq).shiftHeld, (kb.settled kb.eventq).ctrlHeld)

theorem pollEvents_spec (kb : VirtioKbd) (events : List InputEvent) (hpending : kb.pending = []) :
    let p := kb.pollEvents events
    kb.coming events = p.2.toList ++ p.1.future ∧
      p.1.flags = ((kb.settled events).shiftHeld, (kb.settled events).ctrlHeld) ∧
      (p.2 = none → kb.coming events = []) := by
  induction events generalizing kb with
  | nil =>
    refine ⟨?_, rfl, fun _ => rfl⟩
    show [] = kb.pending ++ []
    rw [hpending]
    rfl
  | cons ev events ih =>
    have hkeep : (kb.handle ev).1.pending = [] :=
      (congrArg (fun p => p.1.pending) (handle_frame kb kb.eventq kb.pending ev)).trans hpending
    rw [pollEvents, coming]
    rcases hev : kb.handle ev with ⟨kb', bs⟩
    rw [hev] at hkeep
    have hsettled : kb.settled (ev :: events) = kb'.settled events := by
      show VirtioKbd.settled (kb.handle ev).1 events = _
      rw [hev]
    rw [hsettled]
    cases bs with
    | nil => exact ih kb' hkeep
    | cons b bs =>
      refine ⟨?_, ?_, fun hnone => (nomatch hnone)⟩
      · show b :: bs ++ kb'.coming events =
          b :: (bs ++ { kb' with eventq := events, pending := bs }.coming events)
        rw [coming_frame kb' events bs]
        rfl
      · show ({ kb' with eventq := events, pending := bs }.settled events |>.shiftHeld,
          { kb' with eventq := events, pending := bs }.settled events |>.ctrlHeld) = _
        rw [settled_frame]

/-- Polling takes the first of the bytes that are to come. -/
theorem pollChar_spec (kb : VirtioKbd) :
    kb.future = kb.pollChar.2.toList ++ kb.pollChar.1.future ∧ kb.pollChar.1.flags = kb.flags ∧
      (kb.pollChar.2 = none → kb.future = []) := by
  rw [pollChar, future]
  rcases hpending : kb.pending with - | ⟨b, bs⟩
  · exact pollEvents_spec kb kb.eventq hpending
  · refine ⟨?_, ?_, fun hnone => (nomatch hnone)⟩
    · show b :: bs ++ kb.coming kb.eventq = b :: (bs ++ coming _ kb.eventq)
      rw [coming_frame kb kb.eventq bs]
      rfl
    · show (VirtioKbd.shiftHeld (settled _ kb.eventq), VirtioKbd.ctrlHeld (settled _ kb.eventq)) = _
      rw [settled_frame kb kb.eventq bs]
      rfl

/-- An event is put in the queue. -/
theorem future_push (kb : VirtioKbd) (ev : InputEvent) :
    { kb with eventq := kb.eventq ++ [ev] }.future =
      kb.future ++ ((kb.settled kb.eventq).handle ev).2 := by
  show kb.pending ++ coming _ (kb.eventq ++ [ev]) = _
  rw [coming_frame kb (kb.eventq ++ [ev]) kb.pending, coming_append, ← List.append_assoc]
  rfl

theorem flags_push (kb : VirtioKbd) (ev : InputEvent) :
    { kb with eventq := kb.eventq ++ [ev] }.flags =
      (((kb.settled kb.eventq).handle ev).1.shiftHeld, ((kb.settled kb.eventq).handle ev).1.ctrlHeld) := by
  show (VirtioKbd.shiftHeld (settled _ (kb.eventq ++ [ev])), VirtioKbd.ctrlHeld (settled _ _)) = _
  rw [settled_frame kb (kb.eventq ++ [ev]) kb.pending, settled, foldl_append]
  rfl

end VirtioKbd

/-! ### Keys and modifiers -/

theorem length_keymapBytes_le {code mods : ℕ} {bs : List UInt8} (h : keymapBytes code mods = some bs) :
    bs.length ≤ 4 := by
  have hspecial : ∀ k ∈ specialKeys, k.2.length ≤ 4 := by decide
  rw [keymapBytes] at h
  rcases hfind : specialKeys.find? (fun k => k.1 = code) with - | ⟨code', seq⟩
  · rw [hfind] at h
    rcases hlower : lower[code]? with - | c
    · rw [hlower] at h
      cases h
    · rw [hlower] at h
      dsimp only at h
      split at h
      · cases h
      · cases h
        show 1 ≤ 4
        decide
  · rw [hfind] at h
    cases h
    exact hspecial _ (mem_of_find?_eq_some hfind)

namespace KeyRun

/-- The bits of the two Shift keys and of the two Ctrl keys. -/
theorem modsOf_bits (held : List Key) :
    (modsOf held &&& reportShift ≠ 0 ↔ .modifier 1 ∈ held ∨ .modifier 5 ∈ held) ∧
      (modsOf held &&& reportCtrl ≠ 0 ↔ .modifier 0 ∈ held ∨ .modifier 4 ∈ held) := by
  have hbits : ∀ b : Fin 8 → Bool,
      let m := (List.finRange 8).foldl (fun m i => if b i = true then m ||| 1 <<< i.val else m) 0
      (m &&& reportShift ≠ 0 ↔ b 1 = true ∨ b 5 = true) ∧
        (m &&& reportCtrl ≠ 0 ↔ b 0 = true ∨ b 4 = true) := by decide +kernel
  have h := hbits fun i => decide (Key.modifier i ∈ held)
  simp only [decide_eq_true_eq] at h
  exact h

theorem mem_usages {held : List Key} {usage : ℕ} : usage ∈ usages held ↔ .plain usage ∈ held := by
  rw [usages, mem_filterMap]
  constructor
  · rintro ⟨k, hk, heq⟩
    cases k with
    | modifier i => cases heq
    | plain u =>
      cases heq
      exact hk
  · intro h
    exact ⟨_, h, rfl⟩

theorem Arranges.mem_iff {keys : List ℕ} {held : List Key} (h : Arranges keys held) {usage : ℕ}
    (hne : usage ≠ 0) : usage ∈ keys ↔ .plain usage ∈ held := by
  rw [← mem_usages, ← h.2.mem_iff, mem_filter]
  simp [hne]

end KeyRun

/-! ### Reports -/

namespace UsbKbd

variable {s : UsbKbd} {kb now : ℕ} {r : Report}

/-- Keys that were held before are skipped. -/
theorem foldl_handleUsage_of_held {keys : List ℕ} (h : ∀ u ∈ keys, u = 0 ∨ u ∈ (s.last kb).keys) :
    keys.foldl (handleUsage kb r now) s = s := by
  induction keys with
  | nil => rfl
  | cons u keys ih =>
    rw [foldl_cons, handleUsage, if_pos (h u mem_cons_self)]
    exact ih fun u hu => h u (mem_cons_of_mem _ hu)

/-- A key that is new. -/
theorem foldl_handleUsage_of_new {keys keys' : List ℕ} {usage : ℕ} (hne : usage ≠ 0)
    (hnew : usage ∉ (s.last kb).keys) (hcaps : usage ≠ hidUsageCapsLock)
    (hkeys : ∀ u ∈ keys, u = 0 ∨ u ∈ (s.last kb).keys)
    (hkeys' : ∀ u ∈ keys', u = 0 ∨ u ∈ (s.last kb).keys)
    (hlast : (s.typeKey usage r.mods).last = s.last) :
    (keys ++ usage :: keys').foldl (handleUsage kb r now) s = { s.typeKey usage r.mods with
      repeatKb := kb, repeatUsage := usage, repeatAtMs := now + repeatDelayMs } := by
  rw [foldl_append, foldl_handleUsage_of_held hkeys, foldl_cons, handleUsage,
    if_neg (not_or_intro hne hnew), if_neg hcaps]
  refine foldl_handleUsage_of_held fun u hu => ?_
  dsimp only
  rw [hlast]
  exact hkeys' u hu

/-- What a report leaves to the queue, apart from the keys that are new. -/
theorem handleReport_spec (s : UsbKbd) (kb now : ℕ) (r : Report)
    (hvalid : ∀ u ∈ r.keys, u ≠ hidErrorRollover) :
    let s₁ := r.keys.foldl (handleUsage kb r now) s
    let s' := s.handleReport kb r now
    s'.bytes = s₁.bytes ∧ (s₁.QueueOk → s'.QueueOk) ∧ s'.capsLock = s₁.capsLock ∧ s'.last kb = r := by
  have hfirst : ¬r.keys[0]? = some hidErrorRollover := fun h =>
    hvalid _ (mem_of_getElem? h) rfl
  rw [handleReport, if_neg hfirst]
  dsimp only
  split
  · exact ⟨rfl, fun h => ⟨h.head, h.tail⟩, rfl, update_self ..⟩
  · exact ⟨rfl, fun h => ⟨h.head, h.tail⟩, rfl, update_self ..⟩

/-- The bytes of a key. -/
def typed (s : UsbKbd) (usage mods : ℕ) : List UInt8 :=
  match hidToKeycode[usage]? with
  | none => []
  | some code => (keymapBytes code (s.keymapMods mods)).getD []

theorem typeKey_spec (h : s.QueueOk) (hroom : s.count + 4 < 64) (usage mods : ℕ) :
    ∃ queue head, s.typeKey usage mods = { s with queue := queue, head := head } ∧
      (s.typeKey usage mods).QueueOk ∧
      (s.typeKey usage mods).bytes = s.bytes ++ s.typed usage mods := by
  rw [typeKey, typed]
  rcases hcode : hidToKeycode[usage]? with - | code
  · exact ⟨s.queue, s.head, rfl, h, (List.append_nil _).symm⟩
  · dsimp only
    rcases hbytes : keymapBytes code (s.keymapMods mods) with - | bs
    · exact ⟨s.queue, s.head, rfl, h, (List.append_nil _).symm⟩
    · exact pushBytes_spec bs h (by
        have hlength := length_keymapBytes_le hbytes
        omega)

end UsbKbd

/-! ### Presses and releases -/

namespace KeyRun

structure Invariant (s : KeyRun) : Prop where
  queue : s.usb.QueueOk
  caps : s.usb.capsLock = false
  nodup : s.held.Nodup
  valid : ∀ k ∈ s.held, k.Valid
  last : ∀ usage ≠ 0, usage ∈ (s.usb.last 0).keys ↔ .plain usage ∈ s.held
  flags : s.virtio.flags = (decide (.modifier 1 ∈ s.held ∨ .modifier 5 ∈ s.held),
    decide (.modifier 0 ∈ s.held ∨ .modifier 4 ∈ s.held))
  same : s.usbTyped ++ s.usb.bytes = s.virtioTyped ++ s.virtio.future

theorem start_invariant : KeyRun.start.Invariant where
  queue := ⟨by decide, by decide⟩
  caps := rfl
  nodup := nodup_nil
  valid := fun _ hk => (nomatch hk)
  last := by
    intro usage hne
    constructor
    · intro hmem
      exact absurd (eq_of_mem_replicate hmem) hne
    · intro hmem
      cases hmem
  flags := rfl
  same := rfl

variable {s s' : KeyRun}

theorem Invariant.typesSame (h : s.Invariant) : s.Same := by
  obtain ⟨-, -, hnone⟩ := s.virtio.pollChar_spec
  refine ⟨?_, ?_⟩
  · have hvirtio : s.virtioTyped <+: s.usbTyped ++ s.usb.bytes := by
      rw [h.same]
      exact prefix_append _ _
    exact prefix_or_prefix_of_prefix (prefix_append _ _) hvirtio
  · intro now hrepeat husb hvirtio
    obtain ⟨-, -, -, -, hempty⟩ := UsbKbd.pollChar_spec h.queue hrepeat
    have hsame := h.same
    rw [hempty husb, hnone hvirtio, List.append_nil, List.append_nil] at hsame
    exact hsame

variable {keys : List ℕ} {held : List Key} {now : ℕ} {other : ℕ → ℕ}

/-- The six places of a report have no error code. -/
theorem Arranges.valid (h : Arranges keys held)
    (hvalid : ∀ k ∈ held, k.Valid) : ∀ u ∈ keys, u ≠ hidErrorRollover := by
  rintro u hu rfl
  have hkey := hvalid _ ((h.mem_iff (by decide)).mp hu)
  exact absurd hkey.1 (by decide)

/-- A report without new keys, and an event that types nothing. -/
theorem Invariant.send_quiet (h : s.Invariant) 
    {ev : InputEvent} (harranges : Arranges keys held) (hnodup : held.Nodup)
    (hvalid : ∀ k ∈ held, k.Valid) (hheld : ∀ usage, .plain usage ∈ held → .plain usage ∈ s.held)
    (htyped : ((s.virtio.settled s.virtio.eventq).handle ev).2 = [])
    (hflags : { s.virtio with eventq := s.virtio.eventq ++ [ev] }.flags =
      (decide (.modifier 1 ∈ held ∨ .modifier 5 ∈ held), decide (.modifier 0 ∈ held ∨ .modifier 4 ∈ held))) :
    (s.send held keys now ev).Invariant := by
  obtain ⟨hbytes, hqueue, hcaps, hlast⟩ := UsbKbd.handleReport_spec s.usb 0 now
    ⟨modsOf held, keys⟩ (harranges.valid hvalid)
  have hskip : keys.foldl (UsbKbd.handleUsage 0 ⟨modsOf held, keys⟩ now) s.usb = s.usb := by
    refine UsbKbd.foldl_handleUsage_of_held fun u hu => ?_
    by_cases hzero : u = 0
    · exact Or.inl hzero
    · exact Or.inr ((h.last u hzero).mpr (hheld u ((harranges.mem_iff hzero).mp hu)))
  rw [hskip] at hbytes hqueue hcaps
  refine ⟨hqueue h.queue, hcaps.trans h.caps, hnodup, hvalid, ?_, hflags, ?_⟩
  · intro usage hne
    show usage ∈ ((s.usb.handleReport 0 ⟨modsOf held, keys⟩ now).last 0).keys ↔ _
    rw [hlast]
    exact harranges.mem_iff hne
  · show s.usbTyped ++ (s.usb.handleReport 0 ⟨modsOf held, keys⟩ now).bytes =
      s.virtioTyped ++ VirtioKbd.future { s.virtio with eventq := s.virtio.eventq ++ [ev] }
    rw [hbytes, VirtioKbd.future_push, htyped, List.append_nil]
    exact h.same

/-- Where a new key is in a report. -/
theorem Arranges.split {usage : ℕ}
    (h : Arranges keys (.plain usage :: held)) (hne : usage ≠ 0) :
    ∃ keys₁ keys₂, keys = keys₁ ++ usage :: keys₂ ∧
      ∀ u ∈ keys₁ ++ keys₂, u = 0 ∨ .plain u ∈ held := by
  obtain ⟨keys₁, keys₂, rfl⟩ := append_of_mem ((h.mem_iff hne).mpr mem_cons_self)
  have hperm : (keys₁ ++ keys₂).filter (· ≠ 0) |>.Perm (usages held) := by
    refine Perm.cons_inv (a := usage) ?_
    refine Perm.trans ?_ h.2
    refine Perm.trans ?_ (perm_middle.filter _).symm
    rw [filter_cons_of_pos (by simpa using hne)]
  refine ⟨keys₁, keys₂, rfl, fun u hu => ?_⟩
  by_cases hzero : u = 0
  · exact Or.inl hzero
  · refine Or.inr (mem_usages.mp (hperm.mem_iff.mp (mem_filter.mpr ⟨hu, ?_⟩)))
    simpa using hzero

/-- The keys of the table and beyond it are not Shift or Ctrl. -/
theorem code_plain (hother : ∀ usage, NoBytes (other usage)) (usage : ℕ) :
    ¬(Key.code other (.plain usage) = 42 ∨ Key.code other (.plain usage) = 54) ∧
      ¬(Key.code other (.plain usage) = 29 ∨ Key.code other (.plain usage) = 97) := by
  have htable : ∀ code ∈ hidToKeycode, code ∉ [42, 54, 29, 97] := by decide
  have hcode : Key.code other (.plain usage) ∉ [42, 54, 29, 97] := by
    rw [Key.code]
    rcases hcode : hidToKeycode[usage]? with - | code
    · exact (hother usage).2
    · exact htable _ (mem_of_getElem? hcode)
  simp only [mem_cons, not_mem_nil, or_false, not_or] at hcode
  exact ⟨by omega, by omega⟩

theorem keymapMods_lt (kb : VirtioKbd) : kb.keymapMods < 8 := by
  rw [VirtioKbd.keymapMods]
  split_ifs
  all_goals decide

/-- The virtio driver types what the USB driver types, if Shift and Ctrl are the same and Caps Lock is off. -/
theorem typed_eq_handle {usb : UsbKbd} {kb : VirtioKbd} (m : ℕ) (hcaps : usb.capsLock = false)
    (hshift : kb.shiftHeld = true ↔ m &&& reportShift ≠ 0)
    (hctrl : kb.ctrlHeld = true ↔ m &&& reportCtrl ≠ 0)
    (hother : ∀ usage, NoBytes (other usage)) (usage : ℕ) :
    kb.handle ⟨evKey, Key.code other (.plain usage), 1⟩ = (kb, usb.typed usage m) := by
  have hmods : usb.keymapMods m = kb.keymapMods := by
    simp only [UsbKbd.keymapMods, VirtioKbd.keymapMods, hcaps, hshift, hctrl, Bool.false_eq_true,
      if_false, Nat.or_zero]
  obtain ⟨hshift', hctrl'⟩ := code_plain hother usage
  rw [VirtioKbd.handle, if_neg (not_not_intro rfl), if_neg hshift', if_neg hctrl', if_pos (Or.inl rfl),
    UsbKbd.typed, Key.code]
  rcases hcode : hidToKeycode[usage]? with - | code
  · rw [getD_none, (hother usage).1 _ (keymapMods_lt kb)]
    rfl
  · rw [getD_some, hmods]

/-- A report with a new key, and its event. -/
theorem Invariant.press_plain (h : s.Invariant) (hother : ∀ usage, NoBytes (other usage))
    {usage : ℕ} (hcaps : usage ≠ hidUsageCapsLock)
    (hvalid : Key.Valid (.plain usage)) (hnew : .plain usage ∉ s.held)
    (harranges : Arranges keys (.plain usage :: s.held)) (hroom : s.Room) :
    (s.send (.plain usage :: s.held) keys now ⟨evKey, Key.code other (.plain usage), 1⟩).Invariant := by
  set held := Key.plain usage :: s.held with hheld
  have hvalid' : ∀ k ∈ held, k.Valid := forall_mem_cons.mpr ⟨hvalid, h.valid⟩
  have hne : usage ≠ 0 := by
    have hle := hvalid.1
    omega
  have hmodifier : ∀ i, .modifier i ∈ held ↔ .modifier i ∈ s.held := by
    intro i
    rw [hheld, mem_cons, or_iff_right (by simp)]
  -- the USB driver
  obtain ⟨hbytes, hqueue, hcaps', hlast⟩ := UsbKbd.handleReport_spec s.usb 0 now ⟨modsOf held, keys⟩
    (harranges.valid hvalid')
  obtain ⟨queue, head, htype, hok, htyped⟩ := UsbKbd.typeKey_spec h.queue hroom.1 usage (modsOf held)
  obtain ⟨keys₁, keys₂, hkeys, hold⟩ := harranges.split hne
  have hold' : ∀ u ∈ keys₁ ++ keys₂, u = 0 ∨ u ∈ (s.usb.last 0).keys := by
    intro u hu
    by_cases hzero : u = 0
    · exact Or.inl hzero
    · exact Or.inr ((h.last u hzero).mpr ((hold u hu).resolve_left hzero))
  have hfold : keys.foldl (UsbKbd.handleUsage 0 ⟨modsOf held, keys⟩ now) s.usb =
      { s.usb.typeKey usage (modsOf held) with
        repeatKb := 0, repeatUsage := usage, repeatAtMs := now + repeatDelayMs } := by
    nth_rewrite 2 [hkeys]
    exact UsbKbd.foldl_handleUsage_of_new hne (mt (h.last usage hne).mp hnew) hcaps
      (fun u hu => hold' u (mem_append_left _ hu)) (fun u hu => hold' u (mem_append_right _ hu))
      (by rw [htype])
  rw [hfold] at hbytes hqueue hcaps'
  -- the virtio driver
  obtain ⟨hshiftBits, hctrlBits⟩ := modsOf_bits held
  have hflags := Prod.mk.inj h.flags
  have hshift : (s.virtio.settled s.virtio.eventq).shiftHeld = true ↔ modsOf held &&& reportShift ≠ 0 := by
    rw [hflags.1, hshiftBits, decide_eq_true_eq, hmodifier, hmodifier]
  have hctrl : (s.virtio.settled s.virtio.eventq).ctrlHeld = true ↔ modsOf held &&& reportCtrl ≠ 0 := by
    rw [hflags.2, hctrlBits, decide_eq_true_eq, hmodifier, hmodifier]
  have hhandle := typed_eq_handle (modsOf held) h.caps hshift hctrl hother usage
  refine ⟨hqueue ⟨hok.head, hok.tail⟩, ?_, ?_, hvalid', ?_, ?_, ?_⟩
  · rw [htype] at hcaps'
    exact hcaps'.trans h.caps
  · exact nodup_cons.mpr ⟨hnew, h.nodup⟩
  · intro u hu
    show u ∈ ((s.usb.handleReport 0 ⟨modsOf held, keys⟩ now).last 0).keys ↔ _
    rw [hlast]
    exact harranges.mem_iff hu
  · show VirtioKbd.flags { s.virtio with eventq := s.virtio.eventq ++ [_] } = _
    rw [VirtioKbd.flags_push, hhandle]
    simp only [send, hmodifier]
    exact h.flags
  · show s.usbTyped ++ (s.usb.handleReport 0 ⟨modsOf held, keys⟩ now).bytes =
      s.virtioTyped ++ VirtioKbd.future { s.virtio with eventq := s.virtio.eventq ++ [_] }
    rw [VirtioKbd.future_push, hhandle, hbytes, ← List.append_assoc, ← h.same, List.append_assoc]
    exact congrArg (s.usbTyped ++ ·) htyped

/-- The event of a modifier types nothing. -/
theorem handle_modifier (other : ℕ → ℕ) (kb : VirtioKbd) (i : Fin 8) (value : ℕ) :
    kb.handle ⟨evKey, Key.code other (.modifier i), value⟩ = ({ kb with
      shiftHeld := if i = 1 ∨ i = 5 then value ≠ 0 else kb.shiftHeld
      ctrlHeld := if i = 0 ∨ i = 4 then value ≠ 0 else kb.ctrlHeld }, []) := by
  have hnone : ∀ code ∈ [56, 125, 100, 126], ∀ mods < 8, keymapBytes code mods = none := by decide
  have hother : ∀ code ∈ [56, 125, 100, 126], kb.handle ⟨evKey, code, value⟩ = (kb, []) := by
    intro code hcode
    have hshift : ¬(code = 42 ∨ code = 54) := by
      simp only [mem_cons, not_mem_nil, or_false] at hcode
      omega
    have hctrl : ¬(code = 29 ∨ code = 97) := by
      simp only [mem_cons, not_mem_nil, or_false] at hcode
      omega
    rw [VirtioKbd.handle, if_neg (not_not_intro rfl), if_neg hshift, if_neg hctrl, hnone code hcode _ (keymapMods_lt kb)]
    exact ite_self _
  rw [Key.code]
  fin_cases i
  · rfl
  · rfl
  · exact hother 56 (by decide)
  · exact hother 125 (by decide)
  · rfl
  · rfl
  · exact hother 100 (by decide)
  · exact hother 126 (by decide)

/-- A modifier is pressed. -/
theorem Invariant.press_modifier (h : s.Invariant) (other : ℕ → ℕ) {i : Fin 8} 
    (hnew : .modifier i ∉ s.held) (harranges : Arranges keys (.modifier i :: s.held)) :
    (s.send (.modifier i :: s.held) keys now ⟨evKey, Key.code other (.modifier i), 1⟩).Invariant := by
  have hhandle := handle_modifier other (s.virtio.settled s.virtio.eventq) i 1
  have hflags := Prod.mk.inj h.flags
  refine h.send_quiet harranges (nodup_cons.mpr ⟨hnew, h.nodup⟩)
    (forall_mem_cons.mpr ⟨trivial, h.valid⟩) ?_ (by rw [hhandle]) ?_
  · intro usage hmem
    simpa using hmem
  · rw [VirtioKbd.flags_push, hhandle]
    dsimp only
    rw [hflags.1, hflags.2]
    fin_cases i
    all_goals simp

/-- A key is released. -/
theorem Invariant.release (h : s.Invariant) (hother : ∀ usage, NoBytes (other usage))
    {k : Key} (hguard : s.OneByOne (.release k keys now))
    (harranges : Arranges keys (s.held.erase k)) :
    (s.send (s.held.erase k) keys now ⟨evKey, k.code other, 0⟩).Invariant := by
  have hflags := Prod.mk.inj h.flags
  have hmem : ∀ k', k' ∈ s.held.erase k ↔ k' ≠ k ∧ k' ∈ s.held := fun k' => h.nodup.mem_erase_iff
  have hquiet : ((s.virtio.settled s.virtio.eventq).handle ⟨evKey, k.code other, 0⟩).2 = [] ∧
      { s.virtio with eventq := s.virtio.eventq ++ [(⟨evKey, k.code other, 0⟩ : InputEvent)] }.flags =
        (decide (.modifier 1 ∈ s.held.erase k ∨ .modifier 5 ∈ s.held.erase k),
          decide (.modifier 0 ∈ s.held.erase k ∨ .modifier 4 ∈ s.held.erase k)) := by
    rw [VirtioKbd.flags_push]
    cases k with
    | modifier i =>
      obtain ⟨hleft, hright, hleft', hright'⟩ := hguard
      rw [handle_modifier other _ i 0]
      refine ⟨rfl, ?_⟩
      dsimp only
      rw [hflags.1, hflags.2]
      simp only [hmem]
      fin_cases i
      all_goals simp_all
    | plain usage =>
      obtain ⟨hshift, hctrl⟩ := code_plain hother usage
      rw [VirtioKbd.handle, if_neg (not_not_intro rfl), if_neg hshift, if_neg hctrl,
        if_neg (show ¬(0 = 1 ∨ 0 = 2) by decide)]
      refine ⟨rfl, ?_⟩
      dsimp only
      rw [hflags.1, hflags.2]
      simp only [hmem, ne_eq, reduceCtorEq, not_false_eq_true, true_and]
  exact h.send_quiet harranges (h.nodup.erase k) (fun k' hk' => h.valid k' (mem_of_mem_erase hk'))
    (fun usage husage => mem_of_mem_erase husage) hquiet.1 hquiet.2

theorem Invariant.pollUsb (h : s.Invariant) (hrepeat : ¬s.usb.Repeats now) :
    Invariant { s with
      usb := (s.usb.pollChar now).1
      usbTyped := s.usbTyped ++ (s.usb.pollChar now).2.toList } := by
  obtain ⟨tail, heq, hok, hbytes, -⟩ := UsbKbd.pollChar_spec h.queue hrepeat
  refine ⟨hok, ?_, h.nodup, h.valid, ?_, h.flags, ?_⟩
  · dsimp only
    rw [heq]
    exact h.caps
  · dsimp only
    rw [heq]
    exact h.last
  · dsimp only
    rw [List.append_assoc, ← hbytes]
    exact h.same

theorem Invariant.pollVirtio (h : s.Invariant) :
    Invariant { s with
      virtio := s.virtio.pollChar.1
      virtioTyped := s.virtioTyped ++ s.virtio.pollChar.2.toList } := by
  obtain ⟨hfuture, hflags, -⟩ := s.virtio.pollChar_spec
  refine ⟨h.queue, h.caps, h.nodup, h.valid, h.last, hflags.trans h.flags, ?_⟩
  dsimp only
  rw [List.append_assoc, ← hfuture]
  exact h.same

theorem Invariant.frame (h : s.Invariant) {ev : InputEvent} (hkind : ev.kind ≠ evKey) :
    Invariant { s with virtio := { s.virtio with eventq := s.virtio.eventq ++ [ev] } } := by
  have hhandle : (s.virtio.settled s.virtio.eventq).handle ev =
      (s.virtio.settled s.virtio.eventq, []) := by
    rw [VirtioKbd.handle, if_pos hkind]
  refine ⟨h.queue, h.caps, h.nodup, h.valid, h.last, ?_, ?_⟩
  · dsimp only
    rw [VirtioKbd.flags_push, hhandle]
    exact h.flags
  · dsimp only
    rw [VirtioKbd.future_push, hhandle, List.append_nil]
    exact h.same

theorem Invariant.step (h : s.Invariant) (hother : ∀ usage, NoBytes (other usage))
    {e : KeyRunEvent} (hguard : s.OneByOne e) (hs : s.step other e = some s') : s'.Invariant := by
  cases e with
  | press k keys now =>
    rw [KeyRun.step] at hs
    split at hs
    · rename_i hpress
      obtain ⟨hvalid, hnew, harranges, hroom⟩ := hpress
      obtain rfl := some.inj hs
      cases k with
      | modifier i => exact h.press_modifier other hnew harranges
      | plain usage =>
        refine h.press_plain hother (fun heq => hguard ?_) hvalid hnew harranges hroom
        rw [heq]
    · cases hs
  | release k keys now =>
    rw [KeyRun.step] at hs
    split at hs
    · rename_i hrelease
      obtain rfl := some.inj hs
      exact h.release hother hguard hrelease.2.1
    · cases hs
  | frame ev =>
    rw [KeyRun.step] at hs
    split at hs
    · rename_i hframe
      obtain rfl := some.inj hs
      exact h.frame hframe.1
    · cases hs
  | pollUsb now =>
    rw [KeyRun.step] at hs
    split at hs
    · cases hs
    · rename_i hrepeat
      obtain rfl := some.inj hs
      exact h.pollUsb hrepeat
  | pollVirtio =>
    obtain rfl := some.inj hs
    exact h.pollVirtio

end KeyRun

/-- If Caps Lock is not pressed, and neither Shift key and neither Ctrl key is released while the other one is
held, both drivers type the same. -/
theorem keyboards_type_same (other : ℕ → ℕ) (hother : ∀ usage, NoBytes (other usage)) (s : KeyRun)
    (h : (keySystem other).Reachable KeyRun.OneByOne s) : s.Same := by
  refine (h.invariant (P := KeyRun.Invariant) ?_ ?_).typesSame
  · rintro s rfl
    exact KeyRun.start_invariant
  · intro s e s' _ hinv hguard hs
    exact hinv.step hother hguard hs

/-- A capital letter, and then an arrow key together with another letter. -/
theorem keyboards_type_same_of_shift :
    ∃ s, (keySystem fun _ => 127).Reachable KeyRun.OneByOne s ∧ s.Same ∧
      s.usbTyped = ascii "A\x1b[A" ∧ s.virtioTyped = ascii "A\x1b[Ab" := by
  have hother : ∀ _ : ℕ, NoBytes 127 := fun _ => ⟨by decide, by decide⟩
  obtain ⟨s, hs, htyped⟩ :=
    ((keySystem fun _ => 127).restrict KeyRun.OneByOne).exists_of_run
      (P := fun s => s.usbTyped = ascii "A\x1b[A" ∧ s.virtioTyped = ascii "A\x1b[Ab") (s := .start)
      rfl
      ([.press (.modifier 1) [0, 0, 0, 0, 0, 0] 0, .press (.plain 4) [4, 0, 0, 0, 0, 0] 0,
        .release (.modifier 1) [4, 0, 0, 0, 0, 0] 0, .press (.plain 82) [82, 4, 0, 0, 0, 0] 0,
        .press (.plain 5) [5, 4, 82, 0, 0, 0] 0, .pollVirtio, .frame ⟨0, 0, 0⟩] ++
        List.replicate 4 .pollVirtio ++ List.replicate 4 (.pollUsb 0))
      (by decide +kernel)
  have hr := TransitionSystem.Reachable.of_restrict hs
  exact ⟨s, hr, keyboards_type_same _ hother s hr, htyped⟩

end AnssOS
