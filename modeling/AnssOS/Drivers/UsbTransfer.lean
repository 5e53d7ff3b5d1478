import AnssOS.Drivers.XhciRing

/-!
# Transfers of USB devices

`control` and `bulk` queue the TRBs of a transfer, clear a flag and process events until it is set.  It is
`handle_event` that sets it, with the completion code of the event, which is taken to belong to the
transfer that waits: the address in the event is not looked at, or only for the number of bytes.

So a call can finish on an event of an earlier one, whose time was up before, or which ended with a short
packet and reports its last TRB later.  This is the only way: if no TRB of an earlier call on the same
endpoint can report any more when a call begins, it finishes on an event of its own.

### Outline

* `Xhci.handleEvent`, `UsbDevice.control` and `UsbDevice.bulk`, and `UsbRun`: the calls, the TRBs that can
  still report, and the results;
* what an event does to the device of a call;
* `usb_own_completion`: in the runs in which no call begins too early, a call finishes on its own events.
-/

namespace AnssOS

open List Option Function

/-! ### The driver -/

/-- A TRB of a transfer, with the part of the transfer that it covers. -/
structure BulkTrb where
  trb : ℕ
  offset : ℕ
  length : ℕ
deriving DecidableEq

/-- A device: its rings, by endpoint, and the state of the transfer that waits.  The calls of functions for
interrupt endpoints are kept in `delivered`. -/
structure UsbDevice where
  gone : Bool
  bufPhys : ℕ
  rings : ℕ → Ring
  onTransfer : ℕ → Bool
  delivered : List (ℕ × ℕ × ℕ × ℕ)
  ctrlDone : Bool
  ctrlCc : ℕ
  bulkDone : Bool
  bulkCc : ℕ
  bulkDci : ℕ
  bulkTrbs : List BulkTrb
  bulkActual : ℕ

/-- A controller with its devices, by slot. -/
structure Xhci where
  maxPorts : ℕ
  cmdTrb : ℕ
  cmdDone : Bool
  cmdCc : ℕ
  cmdSlot : ℕ
  portChanged : ℕ → Bool
  devices : ℕ → Option UsbDevice

def trbIsp : ℕ := 4
def trbChain : ℕ := 16
def trbIoc : ℕ := 32
def trbIdt : ℕ := 64
def trbDirIn : ℕ := 65536

def trbNormal : ℕ := 1
def trbSetup : ℕ := 2
def trbData : ℕ := 3
def trbStatus : ℕ := 4
def trbEventTransfer : ℕ := 32
def trbEventCommand : ℕ := 33
def trbEventPortStatus : ℕ := 34

def ccSuccess : ℕ := 1
def ccStall : ℕ := 6

namespace Trb

/-- The completion code of an event. -/
def cc (ev : Trb) : ℕ := ev.status >>> 24

/-- What was left of the TRB of an event. -/
def residual (ev : Trb) : ℕ := ev.status &&& 0xFFFFFF

def slot (ev : Trb) : ℕ := ev.control >>> 24

def dci (ev : Trb) : ℕ := ev.control >>> 16 &&& 0x1F

end Trb

namespace Ring

def contains (r : Ring) (phys : ℕ) : Prop := r.phys ≤ phys ∧ phys < r.phys + 4096

instance (r : Ring) (phys : ℕ) : Decidable (r.contains phys) := inferInstanceAs (Decidable (_ ∧ _))

/-- The address that `push` returns. -/
def addr (r : Ring) : ℕ := r.phys + r.enqueue * trbBytes

/-- Pushes some TRBs; with the addresses of them. -/
def pushAll : Ring → List Trb → Ring × List ℕ
  | r, [] => (r, [])
  | r, t :: ts =>
      let (r', addrs) := (r.push t).pushAll ts
      (r', r.addr :: addrs)

end Ring

namespace UsbDevice

/-- How many bytes the transfer has moved: everything before the TRB that reports, and what is not left of
that one. -/
def moved (trbs : List BulkTrb) (ev : Trb) (actual : ℕ) : ℕ :=
  trbs.foldl (fun actual t =>
    if ev.param = t.trb then t.offset + (t.length - ev.residual) else actual) actual

/-- `handle_event` for a transfer of the device. -/
def handleTransfer (dev : UsbDevice) (ev : Trb) : UsbDevice :=
  if ev.dci = 1 then { dev with ctrlCc := ev.cc, ctrlDone := true }
  else if ev.dci = dev.bulkDci ∧ dev.bulkDone = false then { dev with
    bulkActual := moved dev.bulkTrbs ev dev.bulkActual
    bulkCc := ev.cc
    bulkDone := true }
  else
    let ring := dev.rings ev.dci
    if dev.onTransfer ev.dci = true ∧ ring.contains ev.param then
      let t := ring.trbs ((ev.param - ring.phys) / trbBytes)
      let asked := t.status &&& 0x1FFFF
      { dev with delivered := dev.delivered ++ [(ev.dci, t.param, asked - ev.residual, ev.cc)] }
    else dev

/-- The TRBs of a control transfer. -/
def controlTrbs (dev : UsbDevice) (requestType request value index length : ℕ) : List Trb :=
  let input := requestType &&& 0x80 ≠ 0
  let setup := requestType ||| request <<< 8 ||| value <<< 16 ||| index <<< 32 ||| length <<< 48
  let trt := if length = 0 then 0 else if input then 3 else 2
  let statusDir := if length = 0 ∨ ¬input then trbDirIn else 0
  [⟨setup, 8, trbType trbSetup ||| trbIdt ||| trt <<< 16⟩] ++
    (if 0 < length then
      [⟨dev.bufPhys, length, trbType trbData ||| if input then trbDirIn else 0⟩] else []) ++
    [⟨0, 0, trbType trbStatus ||| statusDir ||| trbIoc⟩]

/-- `control`, up to where it waits; with the TRBs that it has queued. -/
def control (dev : UsbDevice) (requestType request value index length : ℕ) :
    Option (UsbDevice × List BulkTrb) :=
  if 4096 < length then none
  else
    let (ring, addrs) :=
      (dev.rings 1).pushAll (dev.controlTrbs requestType request value index length)
    some ({ dev with rings := Function.update dev.rings 1 ring, ctrlDone := false },
      addrs.map fun trb => ⟨trb, 0, 0⟩)

/-- The loop of `bulk`: a TRB does not cross a boundary of 64 KiB. -/
def bulkChain (bufPhys length : ℕ) : ℕ → Ring → ℕ → Ring × List BulkTrb
  | 0, r, _ => (r, [])
  | fuel + 1, r, done =>
      let addr := bufPhys + done
      let toBoundary := 0x10000 - addr % 0x10000
      let n := min (length - done) toBoundary
      let last := done + n = length
      let r' := r.push ⟨addr, n, trbType trbNormal ||| trbIsp ||| if last then trbIoc else trbChain⟩
      if length ≤ done + n then (r', [⟨r.addr, done, n⟩])
      else
        let (r'', rest) := bulkChain bufPhys length fuel r' (done + n)
        (r'', ⟨r.addr, done, n⟩ :: rest)

/-- `bulk`, up to where it waits; with the TRBs that it has queued.  There are at most two of them. -/
def bulk (dev : UsbDevice) (dci bufPhys length : ℕ) : Option (UsbDevice × List BulkTrb) :=
  if dev.gone = true ∨ 0x10000 < length then none
  else
    let (ring, trbs) := bulkChain bufPhys length 2 (dev.rings dci) 0
    some ({ dev with
      rings := Function.update dev.rings dci ring
      bulkTrbs := trbs
      bulkActual := 0
      bulkDci := dci
      bulkDone := false }, trbs)

end UsbDevice

/-- `handle_event`. -/
def Xhci.handleEvent (hc : Xhci) (ev : Trb) : Xhci :=
  let kind := getType ev.control
  if kind = trbEventCommand then
    if ev.param = hc.cmdTrb then
      { hc with cmdCc := ev.cc, cmdSlot := ev.control >>> 24, cmdDone := true }
    else hc
  else if kind = trbEventPortStatus then
    let port := ev.param >>> 24 &&& 0xFF
    if 1 ≤ port ∧ port ≤ hc.maxPorts then
      { hc with portChanged := Function.update hc.portChanged (port - 1) true }
    else hc
  else if kind ≠ trbEventTransfer then hc
  else
    let dev := (hc.devices ev.slot).map fun dev => dev.handleTransfer ev
    { hc with devices := Function.update hc.devices ev.slot dev }

/-! ### Calls -/

/-- A call waits for its flag; or it has read the code of a stall and resets the endpoint. -/
inductive CallStage
  | waiting
  | recovering (cc : ℕ)

/-- A call, with the TRBs that it has queued and the events that were handled since.  A control transfer
counts no bytes: its TRBs have the length 0. -/
structure UsbCall where
  isControl : Bool
  slot : ℕ
  dci : ℕ
  length : ℕ
  trbs : List BulkTrb
  stage : CallStage
  events : List Trb

/-- The call has seen an event. -/
def UsbCall.see (c : UsbCall) (ev : Trb) : UsbCall := { c with events := c.events ++ [ev] }

/-- What a call has returned: the completion code and the number of bytes, or that it has timed out. -/
structure UsbResult where
  call : UsbCall
  outcome : Option (ℕ × ℕ)

/-- A controller with the call that runs, the TRBs, by slot and endpoint, of which an event can still be
handled, and the results of the calls so far. -/
structure UsbRun where
  hc : Xhci
  call : Option UsbCall
  outstanding : List (ℕ × ℕ × ℕ)
  results : List UsbResult

/-- A call begins; an event is handled; the controller gives up a TRB without an event for it; the call
finds its flag set, its time is up, or it has reset its endpoint. -/
inductive UsbEvent
  | control (slot requestType request value index length : ℕ)
  | bulk (slot dci bufPhys length : ℕ)
  | event (ev : Trb)
  | retire (slot dci trb : ℕ)
  | finish
  | timeout
  | recovered

/-- `wait_flag` has found the flag of a call set: the device from there on, and the completion code. -/
def UsbDevice.finished (dev : UsbDevice) (c : UsbCall) : Option (UsbDevice × ℕ) :=
  if c.isControl = true then
    if dev.ctrlDone = true then some (dev, dev.ctrlCc) else none
  else if dev.bulkDone = true then
    let actual := if dev.bulkCc = ccSuccess then c.length else dev.bulkActual
    some ({ dev with bulkDci := 0, bulkActual := actual }, dev.bulkCc)
  else none

/-- The time of a call is up. -/
def UsbDevice.expired (dev : UsbDevice) (c : UsbCall) : UsbDevice :=
  if c.isControl = true then dev else { dev with bulkDci := 0 }

/-- The number of bytes that a call returns. -/
def UsbDevice.count (dev : UsbDevice) (c : UsbCall) : ℕ :=
  if c.isControl = true then 0 else dev.bulkActual

namespace UsbRun

/-- The device in a slot is changed. -/
def setDevice (s : UsbRun) (slot : ℕ) (dev : UsbDevice) : UsbRun :=
  { s with hc := { s.hc with devices := Function.update s.hc.devices slot (some dev) } }

/-- A call begins, if it has queued something. -/
def beginCall (s : UsbRun) (isControl : Bool) (slot dci length : ℕ) :
    Option (UsbDevice × List BulkTrb) → UsbRun
  | none => s
  | some (dev, trbs) => { s.setDevice slot dev with
      call := some ⟨isControl, slot, dci, length, trbs, .waiting, []⟩
      outstanding := s.outstanding ++ trbs.map fun t => (slot, dci, t.trb) }

/-- The call that runs returns. -/
def returnCall (s : UsbRun) (c : UsbCall) (outcome : Option (ℕ × ℕ)) : UsbRun :=
  { s with call := none, results := s.results ++ [⟨c, outcome⟩] }

/-- An event is handled. -/
def handle (s : UsbRun) (ev : Trb) : UsbRun := { s with
  hc := s.hc.handleEvent ev
  call := s.call.map fun c => c.see ev
  outstanding := if getType ev.control = trbEventTransfer then
    s.outstanding.erase (ev.slot, ev.dci, ev.param) else s.outstanding }

def step (s : UsbRun) : UsbEvent → Option UsbRun
  | .control slot requestType request value index length =>
      match s.call, s.hc.devices slot with
      | none, some dev =>
          some (s.beginCall true slot 1 0 (dev.control requestType request value index length))
      | _, _ => none
  | .bulk slot dci bufPhys length =>
      match s.call, s.hc.devices slot with
      | none, some dev => some (s.beginCall false slot dci length (dev.bulk dci bufPhys length))
      | _, _ => none
  | .event ev =>
      if getType ev.control = trbEventTransfer → (ev.slot, ev.dci, ev.param) ∈ s.outstanding then
        some (s.handle ev)
      else none
  | .retire slot dci trb => some { s with outstanding := s.outstanding.erase (slot, dci, trb) }
  | .finish => do
      let c ← s.call
      let dev ← s.hc.devices c.slot
      match c.stage with
      | .recovering _ => none
      | .waiting =>
          let (dev, cc) ← dev.finished c
          let s := s.setDevice c.slot dev
          -- the endpoint is reset before the call returns
          if cc = ccStall then some { s with call := some { c with stage := .recovering cc } }
          else some (s.returnCall c (some (cc, dev.count c)))
  | .timeout => do
      let c ← s.call
      let dev ← s.hc.devices c.slot
      match c.stage, dev.finished c with
      | .waiting, none => some ((s.setDevice c.slot (dev.expired c)).returnCall c none)
      | _, _ => none
  | .recovered => do
      let c ← s.call
      let dev ← s.hc.devices c.slot
      match c.stage with
      | .waiting => none
      | .recovering cc => some (s.returnCall c (some (cc, dev.count c)))

end UsbRun

/-- A controller in any state, before the first call. -/
def usbSystem : TransitionSystem UsbRun UsbEvent where
  init s := s.call = none ∧ s.outstanding = [] ∧ s.results = []
  step := UsbRun.step

namespace UsbCall

/-- An event of the call has this code, and says that so many bytes were moved. -/
def Source (c : UsbCall) (cc moved : ℕ) : Prop :=
  ∃ ev ∈ c.events, ∃ t ∈ c.trbs, ev.param = t.trb ∧ ev.slot = c.slot ∧ ev.dci = c.dci ∧
    cc = ev.cc ∧ moved = t.offset + (t.length - ev.residual)

end UsbCall

/-- What a call has returned is from an event with the address of one of its TRBs.  A transfer that has
succeeded has moved everything. -/
def UsbResult.Own (r : UsbResult) : Prop :=
  ∀ cc count, r.outcome = some (cc, count) →
    ∃ moved, r.call.Source cc moved ∧ count = if cc = ccSuccess then r.call.length else moved

/-- When a call begins, no TRB that was queued on its endpoint before can report any more. -/
def UsbRun.Quiet (s : UsbRun) : UsbEvent → Prop
  | .control slot _ _ _ _ _ => ∀ x ∈ s.outstanding, x.1 = slot → x.2.1 ≠ 1
  | .bulk slot dci _ _ => ∀ x ∈ s.outstanding, x.1 = slot → x.2.1 ≠ dci
  | _ => True

instance (s : UsbRun) : (e : UsbEvent) → Decidable (s.Quiet e)
  | .control slot _ _ _ _ _ =>
      inferInstanceAs (Decidable (∀ x ∈ s.outstanding, x.1 = slot → x.2.1 ≠ 1))
  | .bulk slot dci _ _ => inferInstanceAs (Decidable (∀ x ∈ s.outstanding, x.1 = slot → x.2.1 ≠ dci))
  | .event _ | .retire _ _ _ | .finish | .timeout | .recovered => isTrue trivial

/-- A controller with one device, in the slot 1, whose rings are in the first pages. -/
def UsbRun.oneDevice : UsbRun :=
  let dev : UsbDevice := {
    gone := false, bufPhys := 0, rings := fun dci => .init (dci * 4096), onTransfer := fun _ => false,
    delivered := [], ctrlDone := false, ctrlCc := 0, bulkDone := false, bulkCc := 0, bulkDci := 0,
    bulkTrbs := [], bulkActual := 0 }
  let hc : Xhci := {
    maxPorts := 0, cmdTrb := 0, cmdDone := false, cmdCc := 0, cmdSlot := 0,
    portChanged := fun _ => false, devices := fun slot => if slot = 1 then some dev else none }
  ⟨hc, none, [], []⟩

/-- An event of the device in the slot 1. -/
def Trb.ofDevice (trb cc residual dci : ℕ) : Trb :=
  ⟨trb, cc <<< 24 ||| residual, trbType trbEventTransfer ||| 1 <<< 24 ||| dci <<< 16⟩

/-- A control transfer times out and completes while the next one waits, which finishes.  A transfer of
two TRBs ends with a short packet on the first one; the event for the second one ends the next transfer. -/
theorem usb_foreign_completion :
    (∃ s, usbSystem.Reachable TransitionSystem.anyStep s ∧ ∃ r ∈ s.results,
      r.outcome = some (ccSuccess, 0) ∧ ∀ ev ∈ r.call.events, ∀ t ∈ r.call.trbs, ev.param ≠ t.trb) ∧
    ∃ s, usbSystem.Reachable TransitionSystem.anyStep s ∧ ∃ r ∈ s.results,
      r.outcome = some (13, 0) ∧ ∀ ev ∈ r.call.events, ∀ t ∈ r.call.trbs, ev.param ≠ t.trb := by
  constructor
  · exact usbSystem.exists_of_run (s := .oneDevice) ⟨rfl, rfl, rfl⟩
      [.control 1 0 9 1 0 0, .timeout, .control 1 0 9 2 0 0, .event (.ofDevice (4096 + 16) 1 0 1),
        .finish]
      (by decide +kernel)
  · exact usbSystem.exists_of_run (s := .oneDevice) ⟨rfl, rfl, rfl⟩
      [.bulk 1 4 0xFFFF 512, .event (.ofDevice (4 * 4096) 13 1 4), .finish, .bulk 1 4 0x20000 512,
        .event (.ofDevice (4 * 4096 + 16) 13 511 4), .finish]
      (by decide +kernel)

/-! ### What an event does to the device of a call -/

namespace UsbDevice

/-- The number of bytes is that of a TRB with the address of the event, if there is one. -/
theorem moved_cases (trbs : List BulkTrb) (ev : Trb) (actual : ℕ) :
    (∃ t ∈ trbs, ev.param = t.trb ∧ moved trbs ev actual = t.offset + (t.length - ev.residual)) ∨
      (∀ t ∈ trbs, ev.param ≠ t.trb) ∧ moved trbs ev actual = actual := by
  induction trbs generalizing actual with
  | nil => exact Or.inr ⟨fun _ ht => (nomatch ht), rfl⟩
  | cons t trbs ih =>
    rcases ih (if ev.param = t.trb then t.offset + (t.length - ev.residual) else actual) with
      ⟨t', ht', hparam, hmoved⟩ | ⟨hnone, hmoved⟩
    · exact Or.inl ⟨t', mem_cons_of_mem _ ht', hparam, hmoved⟩
    · by_cases ht : ev.param = t.trb
      · refine Or.inl ⟨t, mem_cons_self, ht, ?_⟩
        rw [if_pos ht] at hmoved
        exact (congrArg (fun actual => moved trbs ev actual) (if_pos ht)).trans hmoved
      · rw [if_neg ht] at hmoved
        refine Or.inr ⟨forall_mem_cons.mpr ⟨ht, hnone⟩, ?_⟩
        exact (congrArg (fun actual => moved trbs ev actual) (if_neg ht)).trans hmoved

variable {dev : UsbDevice} {ev : Trb}

/-- Events of other endpoints leave a control transfer alone. -/
theorem handleTransfer_ctrl (dev : UsbDevice) (h : ev.dci ≠ 1) :
    (dev.handleTransfer ev).ctrlDone = dev.ctrlDone ∧
      (dev.handleTransfer ev).ctrlCc = dev.ctrlCc := by
  rw [handleTransfer, if_neg h]
  dsimp only
  split_ifs
  · exact ⟨rfl, rfl⟩
  · exact ⟨rfl, rfl⟩
  · exact ⟨rfl, rfl⟩

/-- The same of a bulk transfer, which is also left alone once it is done. -/
theorem handleTransfer_bulk (h : ¬(ev.dci ≠ 1 ∧ ev.dci = dev.bulkDci ∧ dev.bulkDone = false)) :
    let dev' := dev.handleTransfer ev
    (dev'.bulkDci = dev.bulkDci ∧ dev'.bulkTrbs = dev.bulkTrbs) ∧ dev'.bulkDone = dev.bulkDone ∧
      dev'.bulkCc = dev.bulkCc ∧ dev'.bulkActual = dev.bulkActual := by
  rw [handleTransfer]
  dsimp only
  split_ifs with hctrl hbulk
  · exact ⟨⟨rfl, rfl⟩, rfl, rfl, rfl⟩
  · exact absurd ⟨hctrl, hbulk⟩ h
  · exact ⟨⟨rfl, rfl⟩, rfl, rfl, rfl⟩
  · exact ⟨⟨rfl, rfl⟩, rfl, rfl, rfl⟩

end UsbDevice

theorem Xhci.devices_handleEvent (hc : Xhci) (ev : Trb) (slot : ℕ) :
    (hc.handleEvent ev).devices slot =
      if getType ev.control = trbEventTransfer ∧ ev.slot = slot then
        (hc.devices slot).map fun dev => dev.handleTransfer ev
      else hc.devices slot := by
  by_cases htransfer : getType ev.control = trbEventTransfer
  · have hcommand : getType ev.control ≠ trbEventCommand := by
      rw [htransfer]
      decide
    have hport : getType ev.control ≠ trbEventPortStatus := by
      rw [htransfer]
      decide
    rw [handleEvent, if_neg hcommand, if_neg hport, if_neg (not_not_intro htransfer)]
    dsimp only
    by_cases hslot : ev.slot = slot
    · subst hslot
      rw [update_self, if_pos ⟨htransfer, rfl⟩]
    · rw [update_of_ne (Ne.symm hslot), if_neg fun h => hslot h.2]
  · have hright : ¬(getType ev.control = trbEventTransfer ∧ ev.slot = slot) := fun h => htransfer h.1
    rw [if_neg hright, handleEvent]
    dsimp only
    split_ifs
    · rfl
    · rfl
    · rfl
    · rfl
    · rfl

namespace UsbCall

/-- A call and its device: the flag of the call has been set by an event of it, if at all. -/
inductive DeviceOk (c : UsbCall) (dev : UsbDevice) : Prop
  | control (hkind : c.isControl = true) (hstage : c.stage = .waiting) (hdci : c.dci = 1)
      (hsource : dev.ctrlDone = true → c.Source dev.ctrlCc 0)
  | controlStall (cc : ℕ) (hkind : c.isControl = true) (hstage : c.stage = .recovering cc)
      (hcc : cc ≠ ccSuccess) (hsource : c.Source cc 0)
  | bulk (hkind : c.isControl = false) (hstage : c.stage = .waiting)
      (hbulk : dev.bulkDci = c.dci ∧ dev.bulkTrbs = c.trbs)
      (hsource : dev.bulkDone = true → c.Source dev.bulkCc dev.bulkActual)
  | bulkStall (cc : ℕ) (hkind : c.isControl = false) (hstage : c.stage = .recovering cc)
      (hcc : cc ≠ ccSuccess) (hdone : dev.bulkDone = true) (hsource : c.Source cc dev.bulkActual)

variable {c : UsbCall} {dev : UsbDevice} {ev : Trb}

theorem Source.see {cc moved : ℕ} (h : c.Source cc moved) (ev : Trb) : (c.see ev).Source cc moved := by
  obtain ⟨ev', hev', hrest⟩ := h
  exact ⟨ev', mem_append_left _ hev', hrest⟩

theorem DeviceOk.see (h : c.DeviceOk dev) (ev : Trb) : (c.see ev).DeviceOk dev := by
  rcases h with ⟨hkind, hstage, hdci, hsource⟩ | ⟨cc, hkind, hstage, hcc, hsource⟩ |
    ⟨hkind, hstage, hbulk, hsource⟩ | ⟨cc, hkind, hstage, hcc, hdone, hsource⟩
  · exact .control hkind hstage hdci fun hdone => (hsource hdone).see ev
  · exact .controlStall cc hkind hstage hcc (hsource.see ev)
  · exact .bulk hkind hstage hbulk fun hdone => (hsource hdone).see ev
  · exact .bulkStall cc hkind hstage hcc hdone (hsource.see ev)

/-- A control transfer counts no bytes. -/
def NoBytes (c : UsbCall) : Prop :=
  c.isControl = true → c.length = 0 ∧ ∀ t ∈ c.trbs, t.offset = 0 ∧ t.length = 0

/-- The device handles an event, which is one of the call if it is from its endpoint. -/
theorem DeviceOk.handleTransfer (h : c.DeviceOk dev) (hbytes : c.NoBytes) (hslot : ev.slot = c.slot)
    (hown : ev.dci = c.dci → ∃ t ∈ c.trbs, ev.param = t.trb) :
    (c.see ev).DeviceOk (dev.handleTransfer ev) := by
  have hlast : ev ∈ (c.see ev).events := mem_append_right _ mem_cons_self
  rcases h with ⟨hkind, hstage, hdci, hsource⟩ | ⟨cc, hkind, hstage, hcc, hsource⟩ |
    ⟨hkind, hstage, hbulk, hsource⟩ | ⟨cc, hkind, hstage, hcc, hdone, hsource⟩
  · refine .control hkind hstage hdci fun hdone => ?_
    by_cases hctrl : ev.dci = 1
    · obtain ⟨t, ht, hparam⟩ := hown (hctrl.trans hdci.symm)
      obtain ⟨hoffset, hlength⟩ := (hbytes hkind).2 t ht
      rw [UsbDevice.handleTransfer, if_pos hctrl]
      refine ⟨ev, hlast, t, ht, hparam, hslot, hctrl.trans hdci.symm, rfl, ?_⟩
      rw [hoffset, hlength, Nat.zero_sub]
    · obtain ⟨hdone', hcc'⟩ := UsbDevice.handleTransfer_ctrl dev hctrl
      rw [hcc']
      exact (hsource (hdone'.symm.trans hdone)).see ev
  · exact .controlStall cc hkind hstage hcc (hsource.see ev)
  · by_cases hset : ev.dci ≠ 1 ∧ ev.dci = dev.bulkDci ∧ dev.bulkDone = false
    · have hown' : ∃ t ∈ dev.bulkTrbs, ev.param = t.trb := by
        rw [hbulk.2]
        exact hown (hset.2.1.trans hbulk.1)
      rw [UsbDevice.handleTransfer, if_neg hset.1, if_pos hset.2]
      refine .bulk hkind hstage hbulk fun _ => ?_
      rcases UsbDevice.moved_cases dev.bulkTrbs ev dev.bulkActual with
        ⟨t, ht, hparam, hmoved⟩ | ⟨hnone, -⟩
      · exact ⟨ev, hlast, t, hbulk.2 ▸ ht, hparam, hslot, hset.2.1.trans hbulk.1, rfl, hmoved⟩
      · obtain ⟨t, ht, hparam⟩ := hown'
        exact absurd hparam (hnone t ht)
    · obtain ⟨hsame, hdone', hcc', hactual'⟩ := UsbDevice.handleTransfer_bulk hset
      refine .bulk hkind hstage ⟨hsame.1.trans hbulk.1, hsame.2.trans hbulk.2⟩ fun hdone => ?_
      rw [hcc', hactual']
      exact (hsource (hdone'.symm.trans hdone)).see ev
  · have hkeep : ¬(ev.dci ≠ 1 ∧ ev.dci = dev.bulkDci ∧ dev.bulkDone = false) := by
      rintro ⟨-, -, hnot⟩
      rw [hdone] at hnot
      cases hnot
    obtain ⟨-, hdone', -, hactual'⟩ := UsbDevice.handleTransfer_bulk hkeep
    refine .bulkStall cc hkind hstage hcc (hdone'.trans hdone) ?_
    rw [hactual']
    exact hsource.see ev

/-- The flag of a call is set: the code that the call reads is that of one of its events. -/
theorem DeviceOk.finished (h : c.DeviceOk dev) (hbytes : c.NoBytes) (hstage : c.stage = .waiting)
    {dev' : UsbDevice} {cc : ℕ} (hfinished : dev.finished c = some (dev', cc)) :
    ∃ moved, c.Source cc moved ∧ dev'.count c = (if cc = ccSuccess then c.length else moved) ∧
      (c.isControl = false → dev'.bulkDone = true) := by
  rcases h with ⟨hkind, -, hdci, hsource⟩ | ⟨cc, -, hstage', -⟩ | ⟨hkind, -, hbulk, hsource⟩ |
    ⟨cc, -, hstage', -⟩
  · rw [UsbDevice.finished, if_pos hkind] at hfinished
    split at hfinished
    · rename_i hdone
      cases hfinished
      refine ⟨0, hsource hdone, ?_, fun hnot => ?_⟩
      · rw [UsbDevice.count, if_pos hkind, (hbytes hkind).1, ite_self]
      · rw [hkind] at hnot
        cases hnot
    · cases hfinished
  · rw [hstage] at hstage'
    cases hstage'
  · have hnot : ¬c.isControl = true := by
      rw [hkind]
      decide
    rw [UsbDevice.finished, if_neg hnot] at hfinished
    split at hfinished
    · rename_i hdone
      cases hfinished
      refine ⟨dev.bulkActual, hsource hdone, ?_, fun _ => hdone⟩
      rw [UsbDevice.count, if_neg hnot]
    · cases hfinished
  · rw [hstage] at hstage'
    cases hstage'

end UsbCall

/-! ### Runs -/

namespace UsbRun

/-- The TRBs of the call's endpoint that can still report are those of the call. -/
def OwnTrbs (c : UsbCall) (outstanding : List (ℕ × ℕ × ℕ)) : Prop :=
  ∀ x ∈ outstanding, x.1 = c.slot → x.2.1 = c.dci → ∃ t ∈ c.trbs, x.2.2 = t.trb

structure CallOk (s : UsbRun) (c : UsbCall) : Prop where
  bytes : c.NoBytes
  own : OwnTrbs c s.outstanding
  device : ∃ dev, s.hc.devices c.slot = some dev ∧ c.DeviceOk dev

structure Invariant (s : UsbRun) : Prop where
  call : ∀ c, s.call = some c → s.CallOk c
  results : ∀ r ∈ s.results, r.Own

namespace Invariant

variable {s : UsbRun}

/-- A call begins. -/
theorem beginCall (h : s.Invariant) {isControl : Bool} {slot dci length : ℕ}
    (hquiet : ∀ x ∈ s.outstanding, x.1 = slot → x.2.1 ≠ dci)
    {begun : Option (UsbDevice × List BulkTrb)}
    (hbegun : ∀ dev trbs, begun = some (dev, trbs) →
      UsbCall.NoBytes ⟨isControl, slot, dci, length, trbs, .waiting, []⟩ ∧
      UsbCall.DeviceOk ⟨isControl, slot, dci, length, trbs, .waiting, []⟩ dev) :
    (s.beginCall isControl slot dci length begun).Invariant := by
  rcases begun with - | ⟨dev, trbs⟩
  · exact h
  · obtain ⟨hbytes, hdevice⟩ := hbegun dev trbs rfl
    refine ⟨?_, h.results⟩
    rintro c ⟨⟩
    refine ⟨hbytes, ?_, dev, update_self .., hdevice⟩
    intro x hx hslot hdci
    rcases mem_append.mp hx with hx | hx
    · exact absurd hdci (hquiet x hx hslot)
    · obtain ⟨t, ht, rfl⟩ := List.mem_map.mp hx
      exact ⟨t, ht, rfl⟩

theorem control (h : s.Invariant) {slot requestType request value index length : ℕ}
    (hquiet : s.Quiet (.control slot requestType request value index length)) {s' : UsbRun}
    (hs : s.step (.control slot requestType request value index length) = some s') :
    s'.Invariant := by
  rw [step] at hs
  split at hs
  · obtain rfl := some.inj hs
    refine h.beginCall hquiet fun dev' trbs hbegun => ?_
    rw [UsbDevice.control] at hbegun
    split at hbegun
    · cases hbegun
    · cases hbegun
      refine ⟨fun _ => ⟨rfl, ?_⟩, .control rfl rfl rfl fun hdone => (nomatch hdone)⟩
      intro t ht
      obtain ⟨trb, -, rfl⟩ := List.mem_map.mp ht
      exact ⟨rfl, rfl⟩
  · cases hs

theorem bulk (h : s.Invariant) {slot dci bufPhys length : ℕ}
    (hquiet : s.Quiet (.bulk slot dci bufPhys length)) {s' : UsbRun}
    (hs : s.step (.bulk slot dci bufPhys length) = some s') : s'.Invariant := by
  rw [step] at hs
  split at hs
  · obtain rfl := some.inj hs
    refine h.beginCall hquiet fun dev' trbs hbegun => ?_
    rw [UsbDevice.bulk] at hbegun
    split at hbegun
    · cases hbegun
    · cases hbegun
      exact ⟨fun hkind => (nomatch hkind), .bulk rfl rfl ⟨rfl, rfl⟩ fun hdone => (nomatch hdone)⟩
  · cases hs

/-- An event is handled. -/
theorem event (h : s.Invariant) {ev : Trb} {s' : UsbRun} (hs : s.step (.event ev) = some s') :
    s'.Invariant := by
  rw [step] at hs
  split at hs
  · rename_i hqueued
    obtain rfl := some.inj hs
    refine ⟨?_, h.results⟩
    intro c' hc'
    obtain ⟨c, hc, rfl⟩ := map_eq_some_iff.mp hc'
    obtain ⟨hbytes, hown, dev, hdev, hdevice⟩ := h.call c hc
    refine ⟨hbytes, ?_, ?_⟩
    · intro x hx
      refine hown x ?_
      dsimp only [handle] at hx
      split at hx
      · exact mem_of_mem_erase hx
      · exact hx
    · show ∃ dev, (s.hc.handleEvent ev).devices c.slot = some dev ∧ _
      rw [Xhci.devices_handleEvent, hdev]
      split
      · rename_i hevent
        obtain ⟨htransfer, hslot⟩ := hevent
        refine ⟨_, rfl, hdevice.handleTransfer hbytes hslot fun hdci => ?_⟩
        exact hown _ (hqueued htransfer) hslot hdci
      · exact ⟨dev, rfl, hdevice.see ev⟩
  · cases hs

theorem retire (h : s.Invariant) (slot dci trb : ℕ) :
    Invariant { s with outstanding := s.outstanding.erase (slot, dci, trb) } := by
  refine ⟨fun c hc => ?_, h.results⟩
  obtain ⟨hbytes, hown, hdevice⟩ := h.call c hc
  exact ⟨hbytes, fun x hx => hown x (mem_of_mem_erase hx), hdevice⟩

/-- The call that runs returns. -/
theorem returnCall (h : ∀ r ∈ s.results, r.Own) {c : UsbCall} {outcome : Option (ℕ × ℕ)}
    (hown : UsbResult.Own ⟨c, outcome⟩) : (s.returnCall c outcome).Invariant := by
  refine ⟨fun c hc => (nomatch hc), ?_⟩
  intro r hr
  rcases mem_append.mp hr with hr | hr
  · exact h r hr
  · obtain rfl := mem_singleton.mp hr
    exact hown

theorem finish (h : s.Invariant) {s' : UsbRun} (hs : s.step .finish = some s') : s'.Invariant := by
  obtain ⟨c, hc, hs⟩ := bind_eq_some_iff.mp hs
  obtain ⟨dev, hdev, hs⟩ := bind_eq_some_iff.mp hs
  obtain ⟨hbytes, hown, dev', hdev', hdevice⟩ := h.call c hc
  obtain rfl := some.inj (hdev.symm.trans hdev')
  rcases hstage : c.stage with - | cc
  · rw [hstage] at hs
    obtain ⟨⟨dev', cc⟩, hfinished, hs⟩ := bind_eq_some_iff.mp hs
    obtain ⟨moved, hsource, hcount, hdone⟩ := hdevice.finished hbytes hstage hfinished
    dsimp only at hs
    split at hs
    · rename_i hstall
      obtain rfl := some.inj hs
      refine ⟨?_, h.results⟩
      rintro c' ⟨⟩
      have hcc : cc ≠ ccSuccess := by
        rw [hstall]
        decide
      rw [if_neg hcc] at hcount
      refine ⟨hbytes, hown, dev', update_self .., ?_⟩
      rcases hkind : c.isControl with - | -
      · rw [UsbDevice.count, if_neg (by rw [hkind]; decide)] at hcount
        exact .bulkStall cc rfl rfl hcc (hdone hkind) (hcount ▸ hsource)
      · rw [UsbDevice.count, if_pos hkind] at hcount
        exact .controlStall cc rfl rfl hcc (hcount ▸ hsource)
    · obtain rfl := some.inj hs
      refine returnCall (s := s.setDevice c.slot dev') h.results fun cc' count houtcome => ?_
      obtain ⟨rfl, rfl⟩ := Prod.mk.inj (some.inj houtcome)
      exact ⟨moved, hsource, hcount⟩
  · rw [hstage] at hs
    cases hs

theorem timeout (h : s.Invariant) {s' : UsbRun} (hs : s.step .timeout = some s') : s'.Invariant := by
  obtain ⟨c, hc, hs⟩ := bind_eq_some_iff.mp hs
  obtain ⟨dev, hdev, hs⟩ := bind_eq_some_iff.mp hs
  split at hs
  · obtain rfl := some.inj hs
    refine returnCall (s := s.setDevice c.slot (dev.expired c)) h.results fun cc count houtcome => ?_
    cases houtcome
  · cases hs

theorem recovered (h : s.Invariant) {s' : UsbRun} (hs : s.step .recovered = some s') :
    s'.Invariant := by
  obtain ⟨c, hc, hs⟩ := bind_eq_some_iff.mp hs
  obtain ⟨dev, hdev, hs⟩ := bind_eq_some_iff.mp hs
  obtain ⟨hbytes, hown, dev', hdev', hdevice⟩ := h.call c hc
  obtain rfl := some.inj (hdev.symm.trans hdev')
  split at hs
  · cases hs
  · rename_i cc hstage
    obtain rfl := some.inj hs
    refine returnCall h.results fun cc' count houtcome => ?_
    obtain ⟨rfl, rfl⟩ := Prod.mk.inj (some.inj houtcome)
    rcases hdevice with ⟨-, hstage', -⟩ | ⟨cc', hkind, hstage', hcc, hsource⟩ | ⟨-, hstage', -⟩ |
      ⟨cc', hkind, hstage', hcc, -, hsource⟩
    · rw [hstage] at hstage'
      cases hstage'
    · obtain rfl : cc = cc' := CallStage.recovering.inj (hstage.symm.trans hstage')
      refine ⟨0, hsource, ?_⟩
      rw [if_neg hcc, UsbDevice.count, if_pos hkind]
    · rw [hstage] at hstage'
      cases hstage'
    · obtain rfl : cc = cc' := CallStage.recovering.inj (hstage.symm.trans hstage')
      refine ⟨dev.bulkActual, hsource, ?_⟩
      rw [if_neg hcc, UsbDevice.count, if_neg (by rw [hkind]; decide)]

end Invariant

end UsbRun

/-- In the runs in which a call begins only if nothing queued before on its endpoint can report any more,
what a call returns is from one of its own events. -/
theorem usb_own_completion (s : UsbRun) (h : usbSystem.Reachable UsbRun.Quiet s) :
    ∀ r ∈ s.results, r.Own := by
  refine (h.invariant (P := UsbRun.Invariant) ?_ ?_).results
  · rintro s ⟨hcall, -, hresults⟩
    refine ⟨fun c hc => ?_, fun r hr => ?_⟩
    · rw [hcall] at hc
      cases hc
    · rw [hresults] at hr
      cases hr
  · intro s e s' _ hinv hquiet hs
    cases e with
    | control => exact hinv.control hquiet hs
    | bulk => exact hinv.bulk hquiet hs
    | event => exact hinv.event hs
    | retire slot dci trb =>
      obtain rfl := some.inj hs
      exact hinv.retire slot dci trb
    | finish => exact hinv.finish hs
    | timeout => exact hinv.timeout hs
    | recovered => exact hinv.recovered hs

/-- A transfer times out, its TRB is given up, and the next one finishes with the event of its own TRB. -/
theorem usb_own_completion_of_retry :
    ∃ s, usbSystem.Reachable UsbRun.Quiet s ∧ (∀ r ∈ s.results, r.Own) ∧ s.results.length = 2 ∧
      (s.results.getLast?.bind UsbResult.outcome) = some (ccSuccess, 512) := by
  obtain ⟨s, hs, hlength, hlast⟩ :=
    (usbSystem.restrict UsbRun.Quiet).exists_of_run
      (P := fun s => s.results.length = 2 ∧
        (s.results.getLast?.bind UsbResult.outcome) = some (ccSuccess, 512))
      (s := .oneDevice) ⟨rfl, rfl, rfl⟩
      [.bulk 1 4 0 512, .timeout, .retire 1 4 (4 * 4096), .bulk 1 4 0 512,
        .event (.ofDevice (4 * 4096 + 16) 1 0 4), .finish]
      (by decide +kernel)
  have hquiet := TransitionSystem.Reachable.of_restrict hs
  exact ⟨s, hquiet, usb_own_completion s hquiet, hlength, hlast⟩

end AnssOS
