import AnssOS.Drivers.UsbTransfer

/-!
# The descriptor of a bulk transfer

`bulk` queues the TRBs of a transfer as one descriptor: all but the last are chained to the next.
The controller takes a link in the middle of a descriptor for its end unless the link is chained as
well.  `push` publishes the link without that flag, so a descriptor is well formed if and only if it
does not go over the end of the ring.

### Outline

* `Ring.Descriptor`: what the controller needs to find in the ring;
* `bulkChain_one`, `bulkChain_two`: the transfers within one block of 64 KiB, and the others;
* `bulk_descriptor_iff`: when the descriptor is well formed, and `link_not_chained`.
-/

namespace AnssOS

open Function

def Trb.Has (t : Trb) (flag : ℕ) : Prop := t.control &&& flag ≠ 0

instance (t : Trb) (flag : ℕ) : Decidable (t.Has flag) := inferInstanceAs (Decidable (_ ≠ _))

/-- The TRBs cover the bytes from `start` up to `stop`, one after the other. -/
def Covers : ℕ → ℕ → List BulkTrb → Prop
  | start, stop, [] => start = stop
  | start, stop, t :: ts => t.offset = start ∧ Covers (start + t.length) stop ts

/-- A TRB of a transfer. -/
def bulkTrb (addr n : ℕ) (last : Bool) : Trb :=
  ⟨addr, n, trbType trbNormal ||| trbIsp ||| if last then trbIoc else trbChain⟩

namespace Ring

/-- The TRB at a physical address. -/
def trbAt (r : Ring) (phys : ℕ) : Trb := r.trbs ((phys - r.phys) / trbBytes)

/-- The TRBs of a transfer are a well-formed descriptor in the ring: the link, too, is chained if
the descriptor goes on behind it. -/
structure Descriptor (r : Ring) (bufPhys length : ℕ) (chain : List BulkTrb) : Prop where
  count : chain.length ≤ 4
  covers : Covers 0 length chain
  queued : ∀ t ∈ chain, (r.trbAt t.trb).param = bufPhys + t.offset ∧
    (r.trbAt t.trb).status = t.length ∧ (bufPhys + t.offset) % 0x10000 + t.length ≤ 0x10000
  flags : ∀ t ∈ chain, ((r.trbAt t.trb).Has trbIoc ↔ t ∈ chain.getLast?) ∧
    ((r.trbAt t.trb).Has trbChain ↔ t ∉ chain.getLast?)
  link : ∀ t ∈ chain.dropLast, t.trb = r.phys + (ringTrbs - 2) * trbBytes →
    (r.trbs (ringTrbs - 1)).Has trbChain

/-- The enqueue position is in front of the link, and the cycle bit is a bit. -/
def Valid (r : Ring) : Prop := r.enqueue < ringTrbs - 1 ∧ r.cycle < 2

variable {r r' : Ring}

theorem Valid.push (h : r.Valid) (t : Trb) : (r.push t).Valid := by
  obtain ⟨henqueue, hcycle⟩ := h
  have hflip : r.cycle ^^^ 1 < 2 := Nat.xor_lt_two_pow (n := 1) hcycle (by decide)
  unfold Ring.push
  dsimp only
  split
  · exact ⟨Nat.zero_lt_succ _, hflip⟩
  · exact ⟨by dsimp only; omega, hcycle⟩

theorem phys_push (r : Ring) (t : Trb) : (r.push t).phys = r.phys := by
  unfold push
  dsimp only
  split <;> rfl

/-- Besides its own slot, `push` writes the link only. -/
theorem trbs_push_of_ne (r : Ring) (t : Trb) {i : ℕ} (hi : i ≠ r.enqueue)
    (hlink : r.enqueue + 1 = ringTrbs - 1 → i ≠ ringTrbs - 1) : (r.push t).trbs i = r.trbs i := by
  unfold push
  dsimp only
  split
  · simp only [write, update_of_ne hi, update_of_ne (hlink ‹_›)]
  · simp only [write, update_of_ne hi]

theorem Valid.trbs_push (h : r.Valid) (t : Trb) :
    (r.push t).trbs r.enqueue = { t with control := t.control ||| r.cycle } := by
  unfold Ring.push
  dsimp only
  split
  · simp only [write, update_of_ne h.1.ne, update_self]
  · simp only [write, update_self]

/-- The link behind the last TRB is not chained. -/
theorem link_push (hcycle : r.cycle < 2) (t : Trb) (hlast : r.enqueue + 1 = ringTrbs - 1) :
    ¬ ((r.push t).trbs (ringTrbs - 1)).Has trbChain := by
  have hcontrol : ((r.push t).trbs (ringTrbs - 1)).control = linkControl ||| r.cycle := by
    unfold push
    dsimp only
    rw [if_pos hlast]
    simp [write]
  rw [Trb.Has, hcontrol]
  obtain hzero | hone : r.cycle = 0 ∨ r.cycle = 1 := by omega
  · rw [hzero]
    decide
  · rw [hone]
    decide

/-- A TRB of a transfer is at the address `phys`. -/
def Holds (r : Ring) (phys addr n : ℕ) (last : Bool) : Prop :=
  (r.trbAt phys).param = addr ∧ (r.trbAt phys).status = n ∧
    ((r.trbAt phys).Has trbIoc ↔ last = true) ∧ ((r.trbAt phys).Has trbChain ↔ last = false)

/-- What `push` has written, as long as its slot is left alone. -/
theorem Valid.holds (h : r.Valid) (hphys : r'.phys = r.phys) (addr n : ℕ) (last : Bool)
    (hslot : r'.trbs r.enqueue = (r.push (bulkTrb addr n last)).trbs r.enqueue) :
    r'.Holds r.addr addr n last := by
  have htrb : r'.trbAt r.addr =
      ⟨addr, n, (bulkTrb addr n last).control ||| r.cycle⟩ := by
    rw [trbAt, Ring.addr, hphys, Nat.add_sub_cancel_left, Nat.mul_div_cancel _ (by decide), hslot,
      h.trbs_push]
    rfl
  simp only [Holds, htrb, Trb.Has, bulkTrb, true_and]
  obtain hzero | hone : r.cycle = 0 ∨ r.cycle = 1 := by have := h.2; omega
  · rw [hzero]
    cases last <;> decide
  · rw [hone]
    cases last <;> decide

end Ring

namespace UsbDevice

variable {r : Ring} {bufPhys length : ℕ}

theorem bulkChain_one (h : bufPhys % 0x10000 + length ≤ 0x10000) :
    bulkChain bufPhys length 2 r 0 =
      (r.push (bulkTrb bufPhys length true), [⟨r.addr, 0, length⟩]) := by
  have hmin : min length (0x10000 - bufPhys % 0x10000) = length := by omega
  simp [bulkChain, hmin, bulkTrb]

theorem bulkChain_two (h : 0x10000 < bufPhys % 0x10000 + length) (hlength : length ≤ 0x10000) :
    let n := 0x10000 - bufPhys % 0x10000
    let r' := r.push (bulkTrb bufPhys n false)
    bulkChain bufPhys length 2 r 0 = (r'.push (bulkTrb (bufPhys + n) (length - n) true),
      [⟨r.addr, 0, n⟩, ⟨r'.addr, n, length - n⟩]) := by
  have hmin : min length (0x10000 - bufPhys % 0x10000) = 0x10000 - bufPhys % 0x10000 := by omega
  have haligned : (bufPhys + (0x10000 - bufPhys % 0x10000)) % 0x10000 = 0 := by omega
  have hmin' : min (length - (0x10000 - bufPhys % 0x10000)) 0x10000 =
      length - (0x10000 - bufPhys % 0x10000) := by omega
  have hlt : 0x10000 - bufPhys % 0x10000 < length := by omega
  have hsum : 0x10000 - bufPhys % 0x10000 + (length - (0x10000 - bufPhys % 0x10000)) = length := by
    omega
  simp [bulkChain, hmin, hlt, hlt.ne, haligned, hmin', hsum, bulkTrb]

/-- The descriptor is well formed, unless it takes two TRBs and the first of them is the last one in
front of the link. -/
theorem descriptor_bulkChain_iff (hr : r.Valid) (hlength : length ≤ 0x10000) :
    (bulkChain bufPhys length 2 r 0).1.Descriptor bufPhys length
        (bulkChain bufPhys length 2 r 0).2 ↔
      (r.enqueue = ringTrbs - 2 → bufPhys % 0x10000 + length ≤ 0x10000) := by
  by_cases hone : bufPhys % 0x10000 + length ≤ 0x10000
  · rw [bulkChain_one hone]
    dsimp only
    obtain ⟨hparam, hstatus, hioc, hchain⟩ :=
      hr.holds (r.phys_push (bulkTrb bufPhys length true)) bufPhys length true rfl
    refine iff_of_true ⟨by simp, ⟨rfl, by simp [Covers]⟩, ?_, ?_, by simp⟩ fun _ => hone
    · simpa using ⟨hparam, hstatus, hone⟩
    · simpa [hioc] using hchain
  · rw [bulkChain_two (by omega) hlength]
    dsimp only
    have hn : 0x10000 - bufPhys % 0x10000 < length ∧
      bufPhys % 0x10000 + (0x10000 - bufPhys % 0x10000) ≤ 0x10000 := by omega
    have haligned : (bufPhys + (0x10000 - bufPhys % 0x10000)) % 0x10000 = 0 := by omega
    generalize 0x10000 - bufPhys % 0x10000 = n at *
    have hphys := r.phys_push (bulkTrb bufPhys n false)
    have hphys' := (r.push (bulkTrb bufPhys n false)).phys_push
      (bulkTrb (bufPhys + n) (length - n) true)
    have hne : (r.push (bulkTrb bufPhys n false)).enqueue ≠ r.enqueue := by
      unfold Ring.push
      dsimp only
      split
      · dsimp only
        unfold ringTrbs at *
        omega
      · exact Nat.succ_ne_self r.enqueue
    have hlast : r.enqueue = ringTrbs - 2 → (r.push (bulkTrb bufPhys n false)).enqueue = 0 := by
      intro hlast
      rw [Ring.push, if_pos (by rw [hlast]; rfl)]
    obtain ⟨hparam, hstatus, hioc, hchain⟩ := hr.holds (hphys'.trans hphys) bufPhys n false
      (Ring.trbs_push_of_ne _ _ hne.symm fun _ => hr.1.ne)
    obtain ⟨hparam', hstatus', hioc', hchain'⟩ :=
      (hr.push (bulkTrb bufPhys n false)).holds hphys' (bufPhys + n) (length - n) true rfl
    have hlink := Ring.link_push hr.2 (bulkTrb bufPhys n false)
    generalize hr₁ : r.push (bulkTrb bufPhys n false) = r₁ at *
    have hlink' : r.enqueue = ringTrbs - 2 →
        ¬ ((r₁.push (bulkTrb (bufPhys + n) (length - n) true)).trbs (ringTrbs - 1)).Has
          trbChain := by
      intro h
      rw [Ring.trbs_push_of_ne _ _ (by rw [hlast h]; decide) (by rw [hlast h]; decide)]
      exact hlink (by rw [h]; rfl)
    generalize r₁.push (bulkTrb (bufPhys + n) (length - n) true) = r₂ at *
    have haddr : r₁.addr ≠ r.addr := by
      unfold Ring.addr trbBytes
      omega
    constructor
    · intro hdesc h
      refine absurd (hdesc.link _ (List.mem_singleton_self _) ?_) (hlink' h)
      rw [hphys', hphys, ← h]
      rfl
    · intro hclear
      refine ⟨by simp, ⟨rfl, by simp [Covers]; omega⟩, ?_, ?_, ?_⟩
      · have hsum : (bufPhys + n) % 0x10000 + (length - n) ≤ 0x10000 := by omega
        simpa using ⟨⟨hparam, hstatus, hn.2⟩, hparam', hstatus', hsum⟩
      · simp [hioc, hioc', hchain, hchain', haddr]
      · intro t ht hend
        obtain rfl := List.mem_singleton.mp ht
        rw [hphys', hphys] at hend
        have hlast := Nat.eq_of_mul_eq_mul_right (by decide) (Nat.add_left_cancel hend)
        exact absurd (hclear hlast) hone

theorem exists_bulk {dev : UsbDevice} (dci bufPhys : ℕ) (hgone : dev.gone = false)
    (hlength : length ≤ 0x10000) : ∃ dev',
      dev.bulk dci bufPhys length = some (dev', (bulkChain bufPhys length 2 (dev.rings dci) 0).2) ∧
      dev'.rings dci = (bulkChain bufPhys length 2 (dev.rings dci) 0).1 := by
  rw [bulk, if_neg (by simp [hgone, hlength])]
  exact ⟨_, rfl, update_self _ _ _⟩

/-- A transfer queues a well-formed descriptor, if and only if it does not take two TRBs of which
the first is the last one in front of the link. -/
theorem bulk_descriptor_iff {dev : UsbDevice} {dci : ℕ} (bufPhys : ℕ) (hgone : dev.gone = false)
    (hring : (dev.rings dci).Valid) (hlength : length ≤ 0x10000) :
    ∃ dev' chain, dev.bulk dci bufPhys length = some (dev', chain) ∧
      ((dev'.rings dci).Descriptor bufPhys length chain ↔
        ((dev.rings dci).enqueue = ringTrbs - 2 → bufPhys % 0x10000 + length ≤ 0x10000)) := by
  obtain ⟨dev', hbulk, hrings⟩ := exists_bulk dci bufPhys hgone hlength
  exact ⟨dev', _, hbulk, by rw [hrings]; exact descriptor_bulkChain_iff hring hlength⟩

/-- A device whose ring for the endpoint 2 is at the slot in front of the link. -/
def atRingEnd : UsbDevice where
  gone := false
  bufPhys := 0
  rings := fun _ => { Ring.init 0x1000 with enqueue := 254 }
  onTransfer := fun _ => false
  delivered := []
  ctrlDone := false
  ctrlCc := 0
  bulkDone := false
  bulkCc := 0
  bulkDci := 0
  bulkTrbs := []
  bulkActual := 0

/-- The theorem at a transfer of one sector in front of the link. -/
theorem bulk_descriptor_of_sector :
    ∃ dev' chain, atRingEnd.bulk 2 0x20000 512 = some (dev', chain) ∧
      (dev'.rings 2).Descriptor 0x20000 512 chain := by
  have hring : (atRingEnd.rings 2).Valid := ⟨by decide, by decide⟩
  obtain ⟨dev', chain, hbulk, hiff⟩ :=
    bulk_descriptor_iff 0x20000 rfl hring (show 512 ≤ 0x10000 by decide)
  exact ⟨dev', chain, hbulk, hiff.mpr fun _ => by decide⟩

/-- The link is not chained if a transfer over a boundary of 64 KiB begins in front of it. -/
theorem link_not_chained : ∃ dev' chain, atRingEnd.bulk 2 0x2fe00 1024 = some (dev', chain) ∧
    ¬ (dev'.rings 2).Descriptor 0x2fe00 1024 chain := by
  obtain ⟨dev', hbulk, hrings⟩ :=
    exists_bulk 2 0x2fe00 (show atRingEnd.gone = false from rfl) (show 1024 ≤ 0x10000 by decide)
  refine ⟨dev', _, hbulk, ?_⟩
  rw [hrings, descriptor_bulkChain_iff ⟨by decide, by decide⟩ (by decide)]
  decide

end UsbDevice

end AnssOS
