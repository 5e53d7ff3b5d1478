import AnssOS.Foundation.RingWindow
import AnssOS.Foundation.Transition

/-!
# The rings of an xHCI controller

The driver gives work to the controller on rings of TRBs.  A TRB belongs to the controller if its cycle
bit is that of the lap; the last slot of a ring is a link back to the first one, which is published with
the same bit and tells the controller to expect the other one from there on.  Events come back on a
ring of the controller, which has no link.

`push` writes a TRB word by word, and the controller can look at it at any time in between.  It comes
through as it was pushed if its cycle bit is clear, since `push` only ever sets this bit, and if it is not
itself a link.

### Outline

* `Ring` and `Ring.push`, and `RingRun`: a ring whose TRBs are written word by word and consumed;
* `RingRun.Invariant`, and that each step keeps it;
* `EventRing` and `EventRun`: the events of a controller;
* `xhci_rings`: TRBs and events come through once and in order.
-/

namespace AnssOS

open List Option Function

/-! ### Rings -/

/-- `RING_TRBS`. -/
def ringTrbs : ℕ := 256

structure Trb where
  param : ℕ
  status : ℕ
  control : ℕ
deriving DecidableEq

/-- `size_of::<Trb>()`. -/
def trbBytes : ℕ := 16

def trbCycle : ℕ := 1

def trbToggleCycle : ℕ := 2

def trbType (t : ℕ) : ℕ := t <<< 10

def getType (control : ℕ) : ℕ := control >>> 10 &&& 0x3F

def trbLink : ℕ := 6

/-- The control word of a link, without its cycle bit. -/
def linkControl : ℕ := trbType trbLink ||| trbToggleCycle

structure Ring where
  trbs : ℕ → Trb
  phys : ℕ
  enqueue : ℕ
  cycle : ℕ

namespace Ring

/-- A ring in a page that has been zeroed. -/
def init (phys : ℕ) : Ring where
  trbs := Function.update (fun _ => ⟨0, 0, 0⟩) (ringTrbs - 1) ⟨phys, 0, linkControl⟩
  phys := phys
  enqueue := 0
  cycle := 1

/-- Changes one TRB. -/
def write (r : Ring) (i : ℕ) (f : Trb → Trb) : Ring :=
  { r with trbs := Function.update r.trbs i (f (r.trbs i)) }

/-- Writes one TRB at the enqueue position, and publishes the link if it was the last one before it. -/
def push (r : Ring) (t : Trb) : Ring :=
  let i := r.enqueue
  let r := r.write i fun _ => { t with control := t.control ||| r.cycle }
  if i + 1 = ringTrbs - 1 then
    let r := r.write (ringTrbs - 1) fun old => { old with control := linkControl ||| r.cycle }
    { r with enqueue := 0, cycle := r.cycle ^^^ 1 }
  else { r with enqueue := i + 1 }

/-- The word that `push` writes next. -/
inductive PushStage
  | param
  | status
  | control
  | link
deriving DecidableEq

/-- One write of `push`, and what is to be written after it. -/
def pushStep (r : Ring) (t : Trb) : PushStage → Ring × Option PushStage
  | .param => (r.write r.enqueue fun old => { old with param := t.param }, some .status)
  | .status => (r.write r.enqueue fun old => { old with status := t.status }, some .control)
  | .control =>
      let r' := r.write r.enqueue fun old => { old with control := t.control ||| r.cycle }
      if r.enqueue + 1 = ringTrbs - 1 then (r', some .link)
      else ({ r' with enqueue := r.enqueue + 1 }, none)
  | .link =>
      let r' := r.write (ringTrbs - 1) fun old => { old with control := linkControl ||| r.cycle }
      ({ r' with enqueue := 0, cycle := r.cycle ^^^ 1 }, none)

/-- `push` is its writes, one after the other. -/
theorem push_eq_pushStep (r : Ring) (t : Trb) :
    let r₁ := (r.pushStep t .param).1
    let r₂ := (r₁.pushStep t .status).1
    let r₃ := r₂.pushStep t .control
    r.push t = if r₃.2 = some .link then (r₃.1.pushStep t .link).1 else r₃.1 := by
  by_cases hlast : r.enqueue + 1 = ringTrbs - 1
  · simp [push, pushStep, write, hlast]
  · simp [push, pushStep, write, hlast]

end Ring

/-- A ring and the controller that consumes it, which is at the slot `index` and expects the cycle bit
`state`; with the TRB that is being pushed, all TRBs so far, and those that the controller has seen. -/
structure RingRun where
  ring : Ring
  pending : Option (Trb × Ring.PushStage)
  index : ℕ
  state : ℕ
  pushed : List Trb
  seen : List Trb

/-- A push begins, a push writes its next word, or the controller looks at its slot. -/
inductive RingEvent
  | push (t : Trb)
  | write
  | consume

namespace RingRun

def start (phys : ℕ) : RingRun := ⟨.init phys, none, 0, 1, [], []⟩

/-- The controller has to wait at a TRB with the other cycle bit. -/
def Stopped (s : RingRun) : Prop := (s.ring.trbs s.index).control &&& trbCycle ≠ s.state

instance (s : RingRun) : Decidable s.Stopped := inferInstanceAs (Decidable (_ ≠ _))

/-- The controller looks at its slot. -/
def consume (s : RingRun) : RingRun :=
  let t := s.ring.trbs s.index
  if s.Stopped then s
  else if getType t.control = trbLink then { s with
    index := (t.param - s.ring.phys) / trbBytes
    state := if t.control &&& trbToggleCycle = 0 then s.state else s.state ^^^ 1 }
  else { s with index := s.index + 1, seen := s.seen ++ [t] }

def step (s : RingRun) : RingEvent → Option RingRun
  | .push t =>
      match s.pending with
      | none =>
          -- with this one, at most 254 are not consumed
          if s.pushed.length < s.seen.length + 254 then
            some { s with pending := some (t, .param), pushed := s.pushed ++ [t] }
          else none
      | some _ => none
  | .write =>
      match s.pending with
      | none => none
      | some (t, stage) =>
          let (ring, stage?) := s.ring.pushStep t stage
          some { s with ring := ring, pending := stage?.map fun stage => (t, stage) }
  | .consume => some s.consume

end RingRun

def ringSystem (phys : ℕ) : TransitionSystem RingRun RingEvent where
  init s := s = .start phys
  step := RingRun.step

/-- A TRB whose cycle bit is clear, and which is not a link. -/
def Trb.Plain (t : Trb) : Prop := t.control &&& trbCycle = 0 ∧ getType t.control ≠ trbLink

instance (t : Trb) : Decidable t.Plain := inferInstanceAs (Decidable (_ ∧ _))

/-- The TRB with its cycle bit cleared. -/
def Trb.withoutCycle (t : Trb) : Trb := { t with control := t.control - (t.control &&& trbCycle) }

/-- What has to hold: apart from their cycle bits, the controller has seen the first TRBs that were
pushed; and if it waits, and no push is under way, it has seen all of them. -/
structure RingRun.Books (s : RingRun) : Prop where
  inOrder : s.seen.map Trb.withoutCycle = s.pushed.take s.seen.length
  all : s.Stopped → s.pending = none → s.seen.length = s.pushed.length

/-- A link that is pushed takes the controller out of step. -/
theorem ring_follows_pushed_link :
    ∃ s, (ringSystem 0).Reachable TransitionSystem.anyStep s ∧
      s.Stopped ∧ s.pending = none ∧ s.pushed.length = 2 ∧ s.seen.length = 0 := by
  refine (ringSystem 0).exists_of_run (s := .start 0) rfl
    [.push ⟨0, 0, linkControl⟩, .write, .write, .write, .consume, .push ⟨1, 0, trbType 1⟩, .write,
      .write, .write, .consume]
    (by decide +kernel)

/-! ### Control words -/

theorem and_trbCycle (c : ℕ) : c &&& trbCycle = c % 2 := Nat.and_one_is_mod c

theorem getType_eq (c : ℕ) : getType c = c / 1024 % 64 := by
  rw [getType, Nat.shiftRight_eq_div_pow]
  exact Nat.and_two_pow_sub_one_eq_mod _ 6

/-- To set the cycle bit is to add it. -/
theorem or_cycle {c b : ℕ} (hc : c % 2 = 0) (hb : b < 2) : c ||| b = c + b := by
  have h := Nat.two_pow_add_eq_or_of_lt (i := 1) hb (c / 2)
  rw [show 2 ^ 1 * (c / 2) = c by omega] at h
  exact h.symm

/-- The cycle bit of a lap. -/
def cycleBit (tag : Bool) : ℕ := if tag then 1 else 0

theorem cycleBit_lt (tag : Bool) : cycleBit tag < 2 := by
  cases tag <;> decide

theorem cycleBit_not (tag : Bool) : cycleBit (!tag) = cycleBit tag ^^^ 1 := by
  cases tag <;> rfl

namespace Trb

/-- The cycle bit of a TRB. -/
def tag (t : Trb) : Bool := t.control % 2 = 1

theorem and_trbCycle_eq_iff (t : Trb) (b : Bool) : t.control &&& trbCycle = cycleBit b ↔ t.tag = b := by
  rw [and_trbCycle, tag]
  cases b <;> simp [cycleBit]

def isLink (t : Trb) : Bool := getType t.control = trbLink

variable {t : Trb} {b : Bool}

theorem Plain.even (h : t.Plain) : t.control % 2 = 0 := by
  rw [← and_trbCycle]
  exact h.1

/-- A plain TRB as it is published. -/
theorem Plain.published (h : t.Plain) (b : Bool) :
    let e : Trb := { t with control := t.control ||| cycleBit b }
    e.tag = b ∧ e.isLink = false ∧ e.withoutCycle = t := by
  have heven := h.even
  have hadd := or_cycle heven (cycleBit_lt b)
  have hlt := cycleBit_lt b
  intro e
  have hcontrol : e.control = t.control + cycleBit b := hadd
  refine ⟨?_, ?_, ?_⟩
  · rw [← and_trbCycle_eq_iff, and_trbCycle, hcontrol]
    omega
  · have hlink := h.2
    rw [getType_eq] at hlink
    refine decide_eq_false ?_
    rw [getType_eq, hcontrol]
    omega
  · have hclear : e.control - (e.control &&& trbCycle) = t.control := by
      rw [and_trbCycle, hcontrol]
      omega
    rw [withoutCycle, hclear]

/-- A link as it is published. -/
theorem link_published (b : Bool) (param status : ℕ) :
    let e : Trb := ⟨param, status, linkControl ||| cycleBit b⟩
    e.tag = b ∧ e.isLink = true ∧ e.control &&& trbToggleCycle ≠ 0 := by
  have hfacts : ∀ b, (linkControl ||| cycleBit b) % 2 = cycleBit b ∧
      getType (linkControl ||| cycleBit b) = trbLink ∧
      (linkControl ||| cycleBit b) &&& trbToggleCycle ≠ 0 := by decide
  obtain ⟨htag, htype, htoggle⟩ := hfacts b
  refine ⟨?_, decide_eq_true htype, htoggle⟩
  rw [← and_trbCycle_eq_iff, and_trbCycle]
  exact htag

end Trb

/-! ### The invariant of a ring -/

namespace RingRun

/-- The TRB whose push has begun, but which is not published yet. -/
def unpublished (s : RingRun) : List Trb :=
  match s.pending with
  | none => []
  | some (_, .link) => []
  | some (t, _) => [t]

/-- Where the next TRB goes, after `n` have been published with the links among them; and what has
been written of it. -/
def PendingOk (s : RingRun) (n : ℕ) : Prop :=
  match s.pending with
  | none => n % ringTrbs = s.ring.enqueue ∧ n % ringTrbs ≠ 255
  | some (t, stage) => t.Plain ∧
      match stage with
      | .param => n % ringTrbs = s.ring.enqueue ∧ n % ringTrbs ≠ 255
      | .status => (n % ringTrbs = s.ring.enqueue ∧ n % ringTrbs ≠ 255) ∧
          (s.ring.trbs s.ring.enqueue).param = t.param
      | .control => (n % ringTrbs = s.ring.enqueue ∧ n % ringTrbs ≠ 255) ∧
          (s.ring.trbs s.ring.enqueue).param = t.param ∧
          (s.ring.trbs s.ring.enqueue).status = t.status
      | .link => n % ringTrbs = 255

/-- What has been published so far, the links among it. -/
structure Stream (phys : ℕ) (stream : List Trb) : Prop where
  isLink : ∀ i, ∀ h : i < stream.length, stream[i].isLink = decide (i % ringTrbs = 255)
  link : ∀ t ∈ stream, t.isLink = true → t.param = phys ∧ t.control &&& trbToggleCycle ≠ 0

/-- The TRBs of a stream that are not links. -/
def trbsOf (stream : List Trb) : List Trb := stream.filter fun t => !t.isLink

/-- The controller is at the place `lo` of what has been published. -/
structure Invariant (s : RingRun) (stream : List Trb) (lo : ℕ) : Prop where
  window : Window ringTrbs s.ring.trbs stream lo
  tagged : Tagged ringTrbs Trb.tag s.ring.trbs stream.length
  links : Stream s.ring.phys stream
  target : (s.ring.trbs 255).param = s.ring.phys
  index : s.index = lo % ringTrbs
  state : s.state = cycleBit (phase ringTrbs lo)
  cycle : s.ring.cycle = cycleBit (phase ringTrbs stream.length)
  pending : s.PendingOk stream.length
  seen : s.seen = trbsOf (stream.take lo)
  pushed : s.pushed = (trbsOf stream).map Trb.withoutCycle ++ s.unpublished
  bound : s.pushed.length ≤ s.seen.length + 254

variable {phys : ℕ} {stream : List Trb}

/-- One in 256 is a link. -/
theorem Stream.length_trbsOf_take (h : Stream phys stream) {n : ℕ}
    (hn : n ≤ stream.length) : (trbsOf (stream.take n)).length = n - n / ringTrbs := by
  induction n with
  | zero => rfl
  | succ n ih =>
    have hlink := h.isLink n hn
    rw [take_add_one, getElem?_eq_getElem hn, trbsOf, filter_append, length_append,
      ← trbsOf, ih (by omega)]
    unfold ringTrbs at *
    by_cases hlast : n % 256 = 255
    · simp only [hlink, hlast, toList_some, filter_cons, filter_nil]
      simp
      omega
    · simp only [hlink, hlast, toList_some, filter_cons, filter_nil]
      simp
      omega

theorem Stream.length_trbsOf (h : Stream phys stream) :
    (trbsOf stream).length = stream.length - stream.length / ringTrbs := by
  have hlen := h.length_trbsOf_take le_rfl
  rwa [take_length] at hlen

theorem Stream.append (h : Stream phys stream) {e : Trb}
    (hlink : e.isLink = decide (stream.length % ringTrbs = 255))
    (htarget : e.isLink = true → e.param = phys ∧ e.control &&& trbToggleCycle ≠ 0) :
    Stream phys (stream ++ [e]) where
  isLink := by
    intro i hi
    rw [length_append, length_singleton] at hi
    rcases Nat.lt_succ_iff_lt_or_eq.mp hi with hlt | rfl
    · rw [getElem_append_left hlt]
      exact h.isLink i hlt
    · rw [getElem_concat_length rfl]
      exact hlink
  link := by
    intro t ht
    rcases mem_append.mp ht with ht | ht
    · exact h.link t ht
    · obtain rfl := mem_singleton.mp ht
      exact htarget

namespace Invariant

variable {s : RingRun} {stream : List Trb} {lo : ℕ}

theorem start (phys : ℕ) : (RingRun.start phys).Invariant [] 0 where
  window := Window.empty _ _
  tagged := by
    refine Tagged.start fun i _ => ?_
    have hslot : ∀ t : Trb, t.tag = false →
        Trb.tag (Function.update (fun _ => (⟨0, 0, 0⟩ : Trb)) (ringTrbs - 1) t i) = false := by
      intro t ht
      rw [update_apply]
      split
      · exact ht
      · rfl
    exact hslot _ (decide_eq_false (show ¬linkControl % 2 = 1 by decide))
  links := ⟨fun _ h => absurd h (Nat.not_lt_zero _), fun _ h => (nomatch h)⟩
  target := rfl
  index := rfl
  state := rfl
  cycle := rfl
  pending := ⟨rfl, by decide⟩
  seen := rfl
  pushed := rfl
  bound := Nat.zero_le _

variable {t : Trb} {stage : Ring.PushStage} {s' : RingRun}

section

variable (h : s.Invariant stream lo)

include h

/-- The controller is less than a lap behind as long as a TRB or a link is to be written. -/
theorem room (hpending : s.pending = some (t, stage)) : stream.length < lo + ringTrbs := by
  have hseen := congrArg List.length h.seen
  have hpushed := congrArg List.length h.pushed
  have hbound := h.bound
  have hok := h.pending
  rw [h.links.length_trbsOf_take h.window.le] at hseen
  rw [length_append, length_map, h.links.length_trbsOf, unpublished, hpending] at hpushed
  rw [PendingOk, hpending] at hok
  unfold ringTrbs at *
  cases stage with
  | link =>
    dsimp only [length_nil] at hpushed
    omega
  | param | status | control =>
    dsimp only [length_singleton] at hpushed
    omega

/-- The controller has to wait exactly if it has come to the end of what has been published. -/
theorem stopped_iff : s.Stopped ↔ lo = stream.length := by
  have hfresh := h.tagged.fresh_iff (by decide) h.window.le h.window.lap
  rw [Stopped, h.index, h.state, Ne, Trb.and_trbCycle_eq_iff, hfresh]
  have hle := h.window.le
  omega

theorem books : s.Books where
  inOrder := by
    have hsplit : trbsOf stream = s.seen ++ trbsOf (stream.drop lo) := by
      rw [h.seen, trbsOf, trbsOf, trbsOf, ← filter_append, take_append_drop]
    rw [h.pushed, hsplit, map_append, List.append_assoc, take_left']
    exact length_map _
  all := by
    intro hstopped hnone
    obtain rfl := h.stopped_iff.mp hstopped
    rw [h.pushed, h.seen, take_length, unpublished, hnone, List.append_nil, length_map]

/-- The controller goes on. -/
theorem consume : ∃ lo, s.consume.Invariant stream lo := by
  by_cases hstopped : s.Stopped
  · refine ⟨lo, ?_⟩
    rw [RingRun.consume, if_pos hstopped]
    exact h
  · have hlt : lo < stream.length := by
      have hne := mt h.stopped_iff.mpr hstopped
      have hle := h.window.le
      omega
    have hslot : s.ring.trbs s.index = stream[lo] := by
      rw [h.index]
      exact h.window.get lo le_rfl hlt
    have hlink := h.links.isLink lo hlt
    have htake : trbsOf (stream.take (lo + 1)) =
        trbsOf (stream.take lo) ++ if stream[lo].isLink then [] else [stream[lo]] := by
      rw [take_add_one, getElem?_eq_getElem hlt, trbsOf, filter_append]
      cases hl : stream[lo].isLink <;> simp [trbsOf, hl]
    refine ⟨lo + 1, ?_⟩
    rw [RingRun.consume, if_neg hstopped, hslot]
    by_cases hlast : lo % ringTrbs = 255
    · rw [decide_eq_true hlast] at hlink
      obtain ⟨hparam, htoggle⟩ := h.links.link _ (getElem_mem hlt) hlink
      rw [if_pos (of_decide_eq_true hlink), if_neg htoggle]
      have hnext : (lo + 1) % ringTrbs = 0 := by
        unfold ringTrbs at *
        omega
      exact { h with
        window := h.window.pop hlt
        index := by
          dsimp only
          rw [hparam, Nat.sub_self, hnext]
          rfl
        state := by
          dsimp only
          rw [phase_succ, if_pos hnext, cycleBit_not, h.state]
        seen := by
          rw [htake, hlink, if_pos rfl, List.append_nil]
          exact h.seen }
    · rw [decide_eq_false hlast] at hlink
      rw [if_neg (of_decide_eq_false hlink)]
      have hnext : (lo + 1) % ringTrbs = lo % ringTrbs + 1 := by
        unfold ringTrbs at *
        omega
      exact { h with
        window := h.window.pop hlt
        index := by
          dsimp only
          rw [h.index, hnext]
        state := by
          dsimp only
          rw [phase_succ, if_neg (by omega), h.state]
        seen := by
          rw [htake, hlink, if_neg (by decide), ← h.seen]
        bound := by
          dsimp only
          rw [length_append]
          exact h.bound.trans (by omega) }

/-- `push` writes a word before the last one. -/
theorem writeWord {stage stage' : Ring.PushStage}
    (hpending : s.pending = some (t, stage)) (hslot : stream.length % ringTrbs = s.ring.enqueue)
    (hlast : stream.length % ringTrbs ≠ 255) {e : Trb}
    (hcontrol : e.control = (s.ring.trbs s.ring.enqueue).control)
    (hunpublished : s.unpublished = unpublished { s with pending := some (t, stage') })
    (hok : PendingOk { s with
      ring := { s.ring with trbs := Function.update s.ring.trbs s.ring.enqueue e }
      pending := some (t, stage') } stream.length) :
    Invariant { s with
      ring := { s.ring with trbs := Function.update s.ring.trbs s.ring.enqueue e }
      pending := some (t, stage') } stream lo := by
  have htag : e.tag = (s.ring.trbs s.ring.enqueue).tag := by
    rw [Trb.tag, hcontrol, Trb.tag]
  rw [← hslot] at htag hok ⊢
  exact { h with
    window := h.window.write (h.room hpending) e
    tagged := h.tagged.write htag
    target := by
      dsimp only
      rw [update_of_ne hlast.symm]
      exact h.target
    pending := hok
    pushed := h.pushed.trans (congrArg _ hunpublished) }

/-- A TRB is published. -/
theorem publish 
    (hpending : s.pending = some (t, stage)) {e : Trb} (htag : e.tag = phase ringTrbs stream.length)
    (hlink : e.isLink = decide (stream.length % ringTrbs = 255))
    (htarget : e.isLink = true → e.param = s.ring.phys ∧ e.control &&& trbToggleCycle ≠ 0)
    {r : Ring} (htrbs : r.trbs = Function.update s.ring.trbs (stream.length % ringTrbs) e)
    (hphys : r.phys = s.ring.phys) (hcycle : r.cycle = cycleBit (phase ringTrbs (stream.length + 1)))
    {pending : Option (Trb × Ring.PushStage)}
    (hok : PendingOk { s with ring := r, pending := pending } (stream.length + 1))
    (hpushed : s.pushed = (trbsOf (stream ++ [e])).map Trb.withoutCycle ++
      unpublished { s with ring := r, pending := pending }) :
    Invariant { s with ring := r, pending := pending } (stream ++ [e]) lo := by
  have hlen : (stream ++ [e]).length = stream.length + 1 := length_append
  exact {
    window := by
      dsimp only
      rw [htrbs]
      exact h.window.push (h.room hpending) e
    tagged := by
      dsimp only
      rw [htrbs, hlen]
      exact h.tagged.push (by decide) htag
    links := by
      dsimp only
      rw [hphys]
      exact h.links.append hlink htarget
    target := by
      dsimp only
      rw [htrbs, hphys, update_apply]
      split
      · rename_i hlast
        exact (htarget (hlink.trans (decide_eq_true hlast.symm))).1
      · exact h.target
    index := h.index
    state := h.state
    cycle := by
      rw [hlen]
      exact hcycle
    pending := by
      rw [hlen]
      exact hok
    seen := by
      rw [take_append_of_le_length h.window.le]
      exact h.seen
    pushed := hpushed
    bound := h.bound }

theorem writeControl (hpending : s.pending = some (t, .control))
    (hs : s.step .write = some s') : ∃ stream, s'.Invariant stream lo := by
  have hok := h.pending
  rw [PendingOk, hpending] at hok
  obtain ⟨hplain, ⟨hslot, hne⟩, hparam, hstatus⟩ := hok
  obtain ⟨htag, hlink, hwithout⟩ := hplain.published (phase ringTrbs stream.length)
  rw [← h.cycle] at htag hlink hwithout
  have hentry : (⟨(s.ring.trbs s.ring.enqueue).param, (s.ring.trbs s.ring.enqueue).status,
      t.control ||| s.ring.cycle⟩ : Trb) = { t with control := t.control ||| s.ring.cycle } := by
    rw [hparam, hstatus]
  have hcycle : s.ring.cycle = cycleBit (phase ringTrbs (stream.length + 1)) := by
    rw [h.cycle, phase_succ, if_neg]
    unfold ringTrbs at *
    omega
  have hpushed : s.pushed =
      (trbsOf (stream ++ [{ t with control := t.control ||| s.ring.cycle }])).map Trb.withoutCycle := by
    rw [h.pushed, unpublished, hpending, trbsOf, trbsOf, filter_append, map_append]
    simp [hlink, hwithout]
  rw [step, hpending] at hs
  simp only [Ring.pushStep, Ring.write, hentry] at hs
  refine ⟨stream ++ [{ t with control := t.control ||| s.ring.cycle }], ?_⟩
  split at hs
  · obtain rfl := some.inj hs
    refine h.publish hpending htag (by rw [hlink, decide_eq_false hne])
      (fun htrue => absurd (hlink.symm.trans htrue) (by decide)) ?_ ?_ ?_ ?_ ?_
    · rw [hslot]
    · rfl
    · exact hcycle
    · refine ⟨hplain, ?_⟩
      unfold ringTrbs at *
      omega
    · rw [hpushed]
      exact (List.append_nil _).symm
  · obtain rfl := some.inj hs
    refine h.publish hpending htag (by rw [hlink, decide_eq_false hne])
      (fun htrue => absurd (hlink.symm.trans htrue) (by decide)) ?_ ?_ ?_ ?_ ?_
    · rw [hslot]
    · rfl
    · exact hcycle
    · show (stream.length + 1) % ringTrbs = s.ring.enqueue + 1 ∧ (stream.length + 1) % ringTrbs ≠ 255
      unfold ringTrbs at *
      omega
    · rw [hpushed]
      exact (List.append_nil _).symm

theorem writeLink (hpending : s.pending = some (t, .link))
    (hs : s.step .write = some s') : ∃ stream, s'.Invariant stream lo := by
  have hok := h.pending
  rw [PendingOk, hpending] at hok
  obtain ⟨-, hslot⟩ := hok
  dsimp only at hslot
  obtain ⟨htag, hlink, htoggle⟩ := Trb.link_published (phase ringTrbs stream.length)
    (s.ring.trbs 255).param (s.ring.trbs 255).status
  rw [← h.cycle] at htag hlink htoggle
  have hnext : (stream.length + 1) % ringTrbs = 0 := by
    unfold ringTrbs at *
    omega
  rw [step, hpending] at hs
  obtain rfl := some.inj hs
  refine ⟨stream ++ [_], h.publish hpending htag (hlink.trans (decide_eq_true hslot).symm)
    (fun _ => ⟨h.target, htoggle⟩) ?_ ?_ ?_ ?_ ?_⟩
  · rw [hslot]
    rfl
  · rfl
  · show s.ring.cycle ^^^ 1 = _
    rw [h.cycle, phase_succ, if_pos hnext, cycleBit_not]
  · refine ⟨hnext, ?_⟩
    rw [hnext]
    decide
  · rw [h.pushed, unpublished, hpending, trbsOf, trbsOf, filter_append, map_append]
    simp only [filter_cons, hlink]
    simp [unpublished]

theorem write (hs : s.step .write = some s') : ∃ stream, s'.Invariant stream lo := by
  rcases hpending : s.pending with - | ⟨t, stage⟩
  · rw [step, hpending] at hs
    cases hs
  · have hok := h.pending
    rw [PendingOk, hpending] at hok
    cases stage with
    | param =>
      obtain ⟨hplain, hslot, hne⟩ := hok
      rw [step, hpending] at hs
      obtain rfl := some.inj hs
      refine ⟨stream, h.writeWord hpending hslot hne rfl ?_ ⟨hplain, ⟨hslot, hne⟩, ?_⟩⟩
      · rw [unpublished, hpending]
        rfl
      · dsimp only
        rw [update_self]
    | status =>
      obtain ⟨hplain, ⟨hslot, hne⟩, hparam⟩ := hok
      rw [step, hpending] at hs
      obtain rfl := some.inj hs
      refine ⟨stream, h.writeWord hpending hslot hne rfl ?_ ⟨hplain, ⟨hslot, hne⟩, ?_, ?_⟩⟩
      · rw [unpublished, hpending]
        rfl
      · dsimp only
        rw [update_self]
        exact hparam
      · dsimp only
        rw [update_self]
    | control => exact h.writeControl hpending hs
    | link => exact h.writeLink hpending hs

/-- A push begins. -/
theorem push (ht : t.Plain) (hs : s.step (.push t) = some s') : s'.Invariant stream lo := by
  rcases hpending : s.pending with - | pending
  · have hok := h.pending
    rw [PendingOk, hpending] at hok
    rw [step, hpending] at hs
    dsimp only at hs
    split at hs
    · rename_i hroom
      obtain rfl := some.inj hs
      exact { h with
        pending := ⟨ht, hok⟩
        pushed := by
          dsimp only
          rw [h.pushed, unpublished, hpending, List.append_nil]
          rfl
        bound := by
          dsimp only
          rw [length_append]
          exact hroom }
    · cases hs
  · rw [step, hpending] at hs
    cases hs

end
end Invariant

/-- The pushes are of plain TRBs. -/
def PlainStep (_ : RingRun) : RingEvent → Prop
  | .push t => t.Plain
  | _ => True

theorem invariant {phys : ℕ} {s : RingRun} (h : (ringSystem phys).Reachable PlainStep s) :
    ∃ stream lo, s.Invariant stream lo := by
  refine h.invariant (P := fun s => ∃ stream lo, s.Invariant stream lo) ?_ ?_
  · rintro s rfl
    exact ⟨[], 0, .start phys⟩
  · rintro s e s' - ⟨stream, lo, hinv⟩ hplain hs
    cases e with
    | push t => exact ⟨stream, lo, hinv.push hplain hs⟩
    | write =>
      obtain ⟨stream', hinv'⟩ := hinv.write hs
      exact ⟨stream', lo, hinv'⟩
    | consume =>
      obtain rfl := some.inj hs
      exact ⟨stream, hinv.consume⟩

end RingRun

/-! ### Events -/

/-- The event ring of a controller, and where the driver is in it. -/
structure EventRing where
  events : ℕ → Trb
  dequeue : ℕ
  cycle : ℕ

/-- The event ring with the events that the controller has produced and those that the driver has
handled. -/
structure EventRun where
  ring : EventRing
  produced : List Trb
  handled : List Trb

/-- The controller produces an event, or the driver makes a round of the loop of `process_events`. -/
inductive EventEvent
  | produce (ev : Trb)
  | poll

namespace EventRun

/-- A ring in memory that has been zeroed. -/
def start : EventRun := ⟨⟨fun _ => ⟨0, 0, 0⟩, 0, 1⟩, [], []⟩

/-- The loop of `process_events` ends at an event with the other cycle bit. -/
def AtEnd (s : EventRun) : Prop :=
  (s.ring.events s.ring.dequeue).control &&& trbCycle ≠ s.ring.cycle

instance (s : EventRun) : Decidable s.AtEnd := inferInstanceAs (Decidable (_ ≠ _))

/-- One round of the loop. -/
def poll (s : EventRun) : EventRun :=
  let i := s.ring.dequeue
  let ev := s.ring.events i
  if s.AtEnd then s
  else { s with
    ring := if i + 1 = ringTrbs then { s.ring with dequeue := 0, cycle := s.ring.cycle ^^^ 1 }
      else { s.ring with dequeue := i + 1 }
    handled := s.handled ++ [ev] }

/-- An event with the cycle bit of the controller's lap. -/
def withCycle (s : EventRun) (ev : Trb) : Trb :=
  { ev with control := ev.withoutCycle.control ||| cycleBit (phase ringTrbs s.produced.length) }

def step (s : EventRun) : EventEvent → Option EventRun
  | .produce ev =>
      -- the controller does not overrun the dequeue position
      if s.produced.length < s.handled.length + ringTrbs then
        some { s with
          ring := { s.ring with
            events := Function.update s.ring.events (s.produced.length % ringTrbs) (s.withCycle ev) }
          produced := s.produced ++ [s.withCycle ev] }
      else none
  | .poll => some s.poll

end EventRun

def eventSystem : TransitionSystem EventRun EventEvent where
  init s := s = .start
  step := EventRun.step

/-- What has to hold: the events that were handled are the first ones that were produced; and the loop
ends if all of them have been handled, and only then. -/
structure EventRun.Books (s : EventRun) : Prop where
  inOrder : s.handled = s.produced.take s.handled.length
  all : s.AtEnd ↔ s.handled.length = s.produced.length

namespace EventRun

structure Invariant (s : EventRun) : Prop where
  queue : TaggedQueue ringTrbs Trb.tag s.ring.events s.produced s.handled
  dequeue : s.ring.dequeue = s.handled.length % ringTrbs
  cycle : s.ring.cycle = cycleBit (phase ringTrbs s.handled.length)

namespace Invariant

variable {s : EventRun}

theorem start : EventRun.start.Invariant := ⟨.start fun _ _ => rfl, rfl, rfl⟩

theorem atEnd_iff (h : s.Invariant) : s.AtEnd ↔ s.handled.length = s.produced.length := by
  have hle := h.queue.window.le
  rw [AtEnd, h.dequeue, h.cycle, Ne, Trb.and_trbCycle_eq_iff, h.queue.fresh_iff (by decide)]
  omega

theorem books (h : s.Invariant) : s.Books := ⟨h.queue.inOrder, h.atEnd_iff⟩

theorem poll (h : s.Invariant) : s.poll.Invariant := by
  rw [EventRun.poll]
  split
  · exact h
  · rename_i hfresh
    have hlt : s.handled.length < s.produced.length := by
      have hle := h.queue.window.le
      have hne := mt h.atEnd_iff.mpr hfresh
      omega
    have hdequeue := h.dequeue
    have hlen : (s.handled ++ [s.ring.events s.ring.dequeue]).length = s.handled.length + 1 :=
      length_append
    have hqueue := h.queue.receive hlt
    rw [← h.dequeue] at hqueue
    dsimp only
    split
    · have hnext : (s.handled.length + 1) % ringTrbs = 0 := by
        unfold ringTrbs at *
        omega
      refine ⟨hqueue, ?_, ?_⟩
      · rw [hlen, hnext]
      · rw [hlen, phase_succ, if_pos hnext, cycleBit_not, h.cycle]
    · have hnext : (s.handled.length + 1) % ringTrbs = s.ring.dequeue + 1 := by
        unfold ringTrbs at *
        omega
      refine ⟨hqueue, ?_, ?_⟩
      · rw [hlen, hnext]
      · rw [hlen, phase_succ, if_neg (by omega)]
        exact h.cycle

theorem tag_withCycle (s : EventRun) (ev : Trb) :
    (s.withCycle ev).tag = phase ringTrbs s.produced.length := by
  have heven : ev.withoutCycle.control % 2 = 0 := by
    rw [Trb.withoutCycle, and_trbCycle]
    dsimp only
    omega
  have hlt := cycleBit_lt (phase ringTrbs s.produced.length)
  rw [← Trb.and_trbCycle_eq_iff, and_trbCycle, withCycle, or_cycle heven hlt]
  dsimp only
  omega

theorem step (h : s.Invariant) {e : EventEvent} {s' : EventRun} (hs : s.step e = some s') :
    s'.Invariant := by
  cases e with
  | produce ev =>
    rw [EventRun.step] at hs
    split at hs
    · rename_i hroom
      obtain rfl := some.inj hs
      exact ⟨h.queue.send (by decide) hroom (tag_withCycle s ev), h.dequeue, h.cycle⟩
    · cases hs
  | poll =>
    obtain rfl := some.inj hs
    exact h.poll

end Invariant

end EventRun

/-- TRBs and events come through once and in order. -/
theorem xhci_rings :
    (∀ phys s, (ringSystem phys).Reachable RingRun.PlainStep s → s.Books) ∧
      ∀ s, eventSystem.Reachable TransitionSystem.anyStep s → s.Books := by
  constructor
  · intro phys s h
    obtain ⟨stream, lo, hinv⟩ := RingRun.invariant h
    exact hinv.books
  · intro s h
    refine (h.invariant (P := EventRun.Invariant) ?_ ?_).books
    · rintro s rfl
      exact .start
    · intro s e s' _ hinv _ hs
      exact hinv.step hs

/-- The controller looks at the second of two TRBs when only its parameter has been written; and an event
is handled. -/
theorem xhci_rings_of_half_written :
    (∃ s, (ringSystem 0).Reachable RingRun.PlainStep s ∧ s.Books ∧ s.pushed.length = 2 ∧
      s.seen = [⟨7, 8, trbType 1 ||| 1⟩]) ∧
      ∃ s, eventSystem.Reachable TransitionSystem.anyStep s ∧ s.Books ∧ s.handled.length = 1 := by
  constructor
  · obtain ⟨s, hs, hpushed, hseen⟩ :=
      TransitionSystem.Reachable.exists_of_run (T := ringSystem 0) RingRun.PlainStep
        (P := fun s => s.pushed.length = 2 ∧ s.seen = [⟨7, 8, trbType 1 ||| 1⟩]) (s := .start 0) rfl
        [.push ⟨7, 8, trbType 1⟩, .write, .write, .write, .push ⟨9, 0, trbType 1⟩, .write, .consume,
          .consume]
        (by
          have hfirst : (⟨7, 8, trbType 1⟩ : Trb).Plain := by decide
          have hsecond : (⟨9, 0, trbType 1⟩ : Trb).Plain := by decide
          simp [RingRun.PlainStep, hfirst, hsecond])
        (by decide +kernel)
    exact ⟨s, hs, xhci_rings.1 0 s hs, hpushed, hseen⟩
  · obtain ⟨s, hs, hhandled⟩ :=
      eventSystem.exists_of_run (P := fun s => s.handled.length = 1) (s := .start) rfl
        [.poll, .produce ⟨1, 2, 3⟩, .poll, .poll] (by decide +kernel)
    exact ⟨s, hs, xhci_rings.2 s hs, hhandled⟩

end AnssOS
