import AnssOS.Foundation.ByteMemory

/-!
# Split transfers of a block device

`BlockDevice::read` and `write` check the range of a request and split it into calls of the storage
driver, of `max_sectors` sectors at most.  The driver may fail at any call, and leaves any bytes
then; a call that succeeds does what it should.

### Outline

* `Drive`, `Drive.driverCall`: the disk behind the driver, with the calls that reach it;
* `BlockDevice.transfer`: the loop over the pieces of a request;
* `transfer_spec`: what the loop does, up to its end or up to the call that fails;
* `split_transparent`: a split transfer is the transfer of the whole.
-/

namespace AnssOS

open List

/-- One byte string right behind the other. -/
theorem ByteMemory.writeBytes_append (ram : ByteMemory) (a : ℕ) (bs cs : List UInt8) :
    (ram.writeBytes a bs).writeBytes (a + bs.length) cs = ram.writeBytes a (bs ++ cs) := by
  funext x
  simp only [writeBytes, length_append]
  by_cases hfirst : x < a + bs.length
  · rw [if_neg (by omega)]
    by_cases hle : a ≤ x
    · rw [if_pos ⟨hle, hfirst⟩, if_pos (by omega), getD_append _ _ _ _ (by omega)]
    · rw [if_neg (by omega), if_neg (by omega)]
  · by_cases hlt : x < a + bs.length + cs.length
    · rw [if_pos (by omega), if_pos (by omega), getD_append_right _ _ _ _ (by omega)]
      congr 1
      omega
    · rw [if_neg (by omega), if_neg (by omega), if_neg (by omega)]

/-! ### Disks and drivers -/

/-- A call of the driver: its sectors, and the length of the buffer that it is given. -/
structure DriverCall where
  write : Bool
  lba : ℕ
  count : ℕ
  length : ℕ

/-- A disk: its content, the calls of its driver so far, and what becomes of every call, by its
number.  A call for which `fault` has bytes fails, and leaves these where it should have moved
some. -/
structure Drive where
  bytes : ByteMemory
  calls : List DriverCall
  fault : ℕ → Option ByteMemory

/-- A call of the driver, for sectors of the given size. -/
def Drive.driverCall (disk : Drive) (sectorSize : ℕ) (write : Bool) (lba count : ℕ)
    (buf : List UInt8) : Bool × List UInt8 × Drive :=
  let start := lba * sectorSize
  let moved := match disk.fault disk.calls.length with
    | none => if write then buf else disk.bytes.readBytes start buf.length
    | some garbage => garbage.readBytes start buf.length
  ((disk.fault disk.calls.length).isNone, if write then buf else moved,
    { disk with
      bytes := if write then disk.bytes.writeBytes start moved else disk.bytes
      calls := disk.calls ++ [⟨write, lba, count, buf.length⟩] })

/-- A block device: the size of a sector, the number of sectors, and the most that a call of the
driver may move. -/
structure BlockDevice where
  sectorSize : ℕ
  sectorCount : ℕ
  maxSectors : ℕ
  sectorSize_pos : 0 < sectorSize
  maxSectors_pos : 0 < maxSectors

namespace BlockDevice

def inRange (dev : BlockDevice) (lba count : ℕ) : Bool :=
  decide (0 < count) && decide (lba < dev.sectorCount) && decide (count ≤ dev.sectorCount - lba)

/-- The loop over the pieces of a request, which ends with the first call that fails. -/
def transfer (dev : BlockDevice) (write : Bool) :
    ℕ → Drive → ℕ → List UInt8 → Bool × List UInt8 × Drive
  | 0, disk, _, buf => (true, buf, disk)
  | fuel + 1, disk, lba, buf =>
      if buf = [] then (true, buf, disk)
      else
        let chunk := buf.take (dev.maxSectors * dev.sectorSize)
        let rest := buf.drop (dev.maxSectors * dev.sectorSize)
        let n := chunk.length / dev.sectorSize
        match disk.driverCall dev.sectorSize write lba n chunk with
        | (false, chunk, disk) => (false, chunk ++ rest, disk)
        | (true, chunk, disk) =>
            match transfer dev write fuel disk (lba + n) rest with
            | (ok, rest, disk) => (ok, chunk ++ rest, disk)

/-- What `read` and `write` have in common; the part of the buffer behind the request stays. -/
def request (dev : BlockDevice) (write : Bool) (disk : Drive) (lba count : ℕ) (buf : List UInt8) :
    Bool × List UInt8 × Drive :=
  if dev.inRange lba count then
    match dev.transfer write count disk lba (buf.take (count * dev.sectorSize)) with
    | (ok, moved, disk) => (ok, moved ++ buf.drop (count * dev.sectorSize), disk)
  else (false, buf, disk)

def read (dev : BlockDevice) (disk : Drive) (lba count : ℕ) (buf : List UInt8) :
    Bool × List UInt8 × Drive :=
  dev.request false disk lba count buf

def write (dev : BlockDevice) (allowed : Bool) (disk : Drive) (lba count : ℕ) (buf : List UInt8) :
    Bool × List UInt8 × Drive :=
  if allowed then dev.request true disk lba count buf else (false, buf, disk)

/-! ### The loop -/

/-- The number of calls for a request of `count` sectors. -/
def callCount (dev : BlockDevice) (count : ℕ) : ℕ := (count + dev.maxSectors - 1) / dev.maxSectors

variable {dev : BlockDevice} {lba count fuel : ℕ} {buf : List UInt8}

theorem callCount_zero (dev : BlockDevice) : dev.callCount 0 = 0 :=
  Nat.div_eq_of_lt (by have := dev.maxSectors_pos; omega)

theorem callCount_of_pos (h : 0 < count) :
    dev.callCount count = dev.callCount (count - min dev.maxSectors count) + 1 := by
  have hpos := dev.maxSectors_pos
  rcases le_total dev.maxSectors count with hle | hle
  · rw [min_eq_left hle, callCount, callCount, ← Nat.add_div_right _ hpos]
    congr 1
    omega
  · rw [min_eq_right hle, Nat.sub_self, callCount_zero, callCount]
    exact Nat.div_eq_of_lt_le (by omega) (by omega)

/-- One round of the loop. -/
theorem transfer_succ (write : Bool) (fuel : ℕ) (disk : Drive) (lba : ℕ)
    (hbuf : buf.length = count * dev.sectorSize) (hcount : 0 < count) :
    ∃ chunk rest, buf = chunk ++ rest ∧
      chunk.length = min dev.maxSectors count * dev.sectorSize ∧
      rest.length = (count - min dev.maxSectors count) * dev.sectorSize ∧
      dev.transfer write (fuel + 1) disk lba buf =
        match disk.driverCall dev.sectorSize write lba (min dev.maxSectors count) chunk with
        | (false, chunk, disk) => (false, chunk ++ rest, disk)
        | (true, chunk, disk) =>
            match dev.transfer write fuel disk (lba + min dev.maxSectors count) rest with
            | (ok, rest, disk) => (ok, chunk ++ rest, disk) := by
  have hne : buf ≠ [] := by
    rintro rfl
    have := Nat.mul_pos hcount dev.sectorSize_pos
    rw [length_nil] at hbuf
    omega
  have hchunk : (buf.take (dev.maxSectors * dev.sectorSize)).length =
      min dev.maxSectors count * dev.sectorSize := by
    rw [length_take, hbuf, Nat.mul_min_mul_right]
  refine ⟨_, _, (take_append_drop _ _).symm, hchunk, ?_, ?_⟩
  · rw [length_drop, hbuf, ← Nat.sub_mul]
    congr 1
    omega
  · rw [transfer, if_neg hne]
    dsimp only
    rw [hchunk, Nat.mul_div_cancel _ dev.sectorSize_pos]

/-- The call is for sectors below `bound` that the driver can move at once, with a buffer of that
size. -/
def Proper (dev : BlockDevice) (write : Bool) (bound : ℕ) (call : DriverCall) : Prop :=
  call.write = write ∧ 1 ≤ call.count ∧ call.count ≤ dev.maxSectors ∧
    call.lba + call.count ≤ bound ∧ call.length = call.count * dev.sectorSize

/-- What a request has done: all of it, or what comes before the call number `k`, which failed. -/
structure Transferred (dev : BlockDevice) (write : Bool) (disk : Drive) (lba count : ℕ)
    (buf : List UInt8) (result : Bool × List UInt8 × Drive) : Prop where
  calls : ∃ new, result.2.2.calls = disk.calls ++ new ∧
    ∀ call ∈ new, dev.Proper write (lba + count) call
  fault : result.2.2.fault = disk.fault
  length : result.2.1.length = buf.length
  untouched : write = false → result.2.2.bytes = disk.bytes
  success : result.1 = true →
    result.2.2.calls.length = disk.calls.length + dev.callCount count ∧
    (∀ j < dev.callCount count, disk.fault (disk.calls.length + j) = none) ∧
    if write then result.2.2.bytes = disk.bytes.writeBytes (lba * dev.sectorSize) buf
    else result.2.1 = disk.bytes.readBytes (lba * dev.sectorSize) buf.length
  failure : result.1 = false → ∃ k < dev.callCount count, ∃ garbage,
    disk.fault (disk.calls.length + k) = some garbage ∧
    result.2.2.calls.length = disk.calls.length + k + 1 ∧ (write = true →
      result.2.2.bytes ((lba + k * dev.maxSectors) * dev.sectorSize) =
        garbage ((lba + k * dev.maxSectors) * dev.sectorSize))

theorem transferred_nil (dev : BlockDevice) (write : Bool) (disk : Drive) (lba : ℕ) :
    dev.Transferred write disk lba 0 [] (true, [], disk) := by
  refine ⟨⟨[], by simp, by simp⟩, rfl, rfl, fun _ => rfl, fun _ => ?_, by simp⟩
  rw [callCount_zero]
  refine ⟨rfl, by simp, ?_⟩
  cases write with
  | false => simp [ByteMemory.readBytes]
  | true =>
    funext x
    exact (ByteMemory.writeBytes_of_outside (by simp; omega)).symm

section Round

variable {write : Bool} {disk disk₁ : Drive} {chunk rest : List UInt8}
  (hcount : 0 < count) (hchunk : chunk.length = min dev.maxSectors count * dev.sectorSize)

include hcount hchunk

theorem proper_first : dev.Proper write (lba + count)
    ⟨write, lba, min dev.maxSectors count, chunk.length⟩ :=
  ⟨rfl, Nat.le_min.mpr ⟨dev.maxSectors_pos, hcount⟩, min_le_left _ _,
    Nat.add_le_add_left (min_le_right _ _) lba, hchunk⟩

/-- A round whose call succeeds, with the rounds after it. -/
theorem Transferred.cons {result : Bool × List UInt8 × Drive}
    (h : dev.Transferred write disk₁ (lba + min dev.maxSectors count)
      (count - min dev.maxSectors count) rest result)
    (hfault : disk.fault disk.calls.length = none)
    (hcalls : disk₁.calls = disk.calls ++ [⟨write, lba, min dev.maxSectors count, chunk.length⟩])
    (hsame : disk₁.fault = disk.fault)
    (hbytes : disk₁.bytes =
      if write then disk.bytes.writeBytes (lba * dev.sectorSize) chunk else disk.bytes) :
    dev.Transferred write disk lba count (chunk ++ rest) (result.1,
      (if write then chunk else disk.bytes.readBytes (lba * dev.sectorSize) chunk.length) ++
        result.2.1, result.2.2) := by
  obtain ⟨⟨new, hnew, hall⟩, hrest, hlen, huntouched, hsuccess, hfailure⟩ := h
  have hnumber := @callCount_of_pos dev count hcount
  have hlength : disk₁.calls.length = disk.calls.length + 1 := by rw [hcalls]; simp
  have hend : lba + min dev.maxSectors count + (count - min dev.maxSectors count) = lba + count :=
    by omega
  have hstart : (lba + min dev.maxSectors count) * dev.sectorSize =
      lba * dev.sectorSize + chunk.length := by rw [hchunk, Nat.add_mul]
  rw [hend] at hall
  rw [hlength, hsame] at hsuccess hfailure
  refine ⟨⟨_ :: new, ?_, forall_mem_cons.mpr ⟨proper_first hcount hchunk, hall⟩⟩, hrest.trans hsame,
    ?_, ?_, fun hok => ?_, fun hok => ?_⟩
  · rw [hnew, hcalls, append_assoc]
    rfl
  · cases write <;> simp [hlen]
  · rintro rfl
    exact (huntouched rfl).trans hbytes
  · obtain ⟨hmade, hnone, hmoved⟩ := hsuccess hok
    refine ⟨by dsimp only; omega, fun j hj => ?_, ?_⟩
    · cases j with
      | zero => exact hfault
      | succ j =>
        rw [Nat.add_comm j, ← Nat.add_assoc]
        exact hnone j (by omega)
    · rw [hstart, hbytes] at hmoved
      cases write with
      | false =>
        change _ ++ result.2.1 = _
        rw [show result.2.1 = _ from hmoved, length_append, ByteMemory.readBytes_add]
        rfl
      | true =>
        change result.2.2.bytes = _ at hmoved ⊢
        rw [hmoved, if_pos rfl, ByteMemory.writeBytes_append]
  · obtain ⟨k, hk, garbage, hgarbage, hmade, hleft⟩ := hfailure hok
    -- There are more pieces, so that this one was a full one.
    have hfull : min dev.maxSectors count = dev.maxSectors := by
      rcases le_total dev.maxSectors count with hle | hle
      · exact min_eq_left hle
      · rw [min_eq_right hle, Nat.sub_self, callCount_zero] at hk
        cases hk
    refine ⟨k + 1, by omega, garbage, ?_, by dsimp only; omega, fun hwrite => ?_⟩
    · rw [Nat.add_comm k, ← Nat.add_assoc]
      exact hgarbage
    · rw [Nat.succ_mul, Nat.add_comm (k * _), ← Nat.add_assoc]
      rw [hfull] at hleft
      exact hleft hwrite

end Round

/-- By induction on the rounds. -/
theorem transfer_spec (write : Bool) (disk : Drive) (lba : ℕ)
    (hbuf : buf.length = count * dev.sectorSize) (hfuel : count ≤ fuel) :
    dev.Transferred write disk lba count buf (dev.transfer write fuel disk lba buf) := by
  induction fuel generalizing disk lba count buf with
  | zero =>
    obtain rfl : count = 0 := by omega
    obtain rfl : buf = [] := by simpa using hbuf
    exact transferred_nil dev write disk lba
  | succ fuel ih =>
    rcases Nat.eq_zero_or_pos count with rfl | hcount
    · obtain rfl : buf = [] := by simpa using hbuf
      exact transferred_nil dev write disk lba
    obtain ⟨chunk, rest, rfl, hchunk, hrest, heq⟩ := transfer_succ write fuel disk lba hbuf hcount
    have hpos := dev.maxSectors_pos
    rw [heq]
    rcases hfault : disk.fault disk.calls.length with _ | garbage
    · have hcall : disk.driverCall dev.sectorSize write lba (min dev.maxSectors count) chunk =
          (true, if write then chunk else disk.bytes.readBytes (lba * dev.sectorSize) chunk.length,
          (disk.driverCall dev.sectorSize write lba (min dev.maxSectors count) chunk).2.2) := by
        cases write <;> simp [Drive.driverCall, hfault]
      have hrest := ih
        (disk.driverCall dev.sectorSize write lba (min dev.maxSectors count) chunk).2.2
        (lba + min dev.maxSectors count) hrest (by omega)
      rw [hcall]
      refine hrest.cons hcount hchunk hfault rfl rfl ?_
      cases write <;> simp [Drive.driverCall, hfault]
    · rw [Drive.driverCall, hfault]
      refine ⟨⟨[_], rfl, by simpa using proper_first hcount hchunk⟩, rfl, ?_, ?_, by simp, fun _ =>
        ⟨0, by rw [callCount_of_pos hcount]; omega, garbage, hfault, by simp, ?_⟩⟩
      · cases write <;> simp
      · rintro rfl
        rfl
      · rintro rfl
        have hlen : 0 < chunk.length := by
          rw [hchunk]
          exact Nat.mul_pos (by omega) dev.sectorSize_pos
        simp [ByteMemory.writeBytes, ByteMemory.readBytes, hlen]

/-! ### Requests -/

theorem inRange_iff : dev.inRange lba count = true ↔
    0 < count ∧ lba < dev.sectorCount ∧ count ≤ dev.sectorCount - lba := by
  simp [inRange, and_assoc]

/-- A request in range is one transfer. -/
theorem request_spec (write : Bool) (disk : Drive) (hin : dev.inRange lba count = true)
    (hbuf : count * dev.sectorSize ≤ buf.length) : ∃ ok moved after,
      dev.request write disk lba count buf =
        (ok, moved ++ buf.drop (count * dev.sectorSize), after) ∧
      dev.Transferred write disk lba count (buf.take (count * dev.sectorSize))
        (ok, moved, after) := by
  refine ⟨_, _, _, ?_, transfer_spec write disk lba (by rw [length_take, min_eq_left hbuf]) le_rfl⟩
  rw [request, if_pos hin]

/-- A request is like one transfer of the whole: if it is to reach the driver, it moves exactly its
sectors when all calls of the driver succeed; every call is for sectors of the disk that the driver
can move at once. -/
structure Transparent (dev : BlockDevice) (write reaches : Bool) (disk : Drive) (lba count : ℕ)
    (buf : List UInt8) (result : Bool × List UInt8 × Drive) : Prop where
  calls : ∃ new, result.2.2.calls = disk.calls ++ new ∧
    (∀ call ∈ new, dev.Proper write dev.sectorCount call) ∧ (reaches = false → new = [])
  success : reaches = true →
    (∀ i, disk.calls.length ≤ i → i < result.2.2.calls.length → disk.fault i = none) →
    result.1 = true ∧
    if write then result.2.2.bytes = disk.bytes.writeBytes (lba * dev.sectorSize) buf
    else result.2.1 = disk.bytes.readBytes (lba * dev.sectorSize) buf.length ∧
      result.2.2.bytes = disk.bytes

theorem transparent_refused (dev : BlockDevice) (write : Bool) (disk : Drive) (lba count : ℕ)
    (buf : List UInt8) : dev.Transparent write false disk lba count buf (false, buf, disk) :=
  ⟨⟨[], by simp, by simp, fun _ => rfl⟩, by simp⟩

theorem transparent_request (write : Bool) (disk : Drive)
    (hbuf : dev.inRange lba count = true → buf.length = count * dev.sectorSize) :
    dev.Transparent write (dev.inRange lba count) disk lba count buf
      (dev.request write disk lba count buf) := by
  cases hin : dev.inRange lba count with
  | false =>
    rw [request, hin]
    exact transparent_refused dev write disk lba count buf
  | true =>
    obtain ⟨ok, moved, after, heq, h⟩ := request_spec write disk hin (hbuf hin).ge
    obtain ⟨-, hlba, hend⟩ := inRange_iff.mp hin
    rw [take_of_length_le (hbuf hin).le] at h
    rw [heq, drop_of_length_le (hbuf hin).le, append_nil]
    obtain ⟨new, hnew, hall⟩ := h.calls
    refine ⟨⟨new, hnew, fun call hcall => ?_, by simp⟩, fun _ hsucceed => ?_⟩
    · obtain ⟨hwrite, hone, hmax, hbound, hlen⟩ := hall call hcall
      exact ⟨hwrite, hone, hmax, by omega, hlen⟩
    · have hok : ok = true := by
        by_contra hne
        obtain ⟨k, -, garbage, hfault, hmade, -⟩ := h.failure (by simpa using hne)
        rw [hsucceed _ (by omega) (by omega)] at hfault
        cases hfault
      have hmoved := (h.success hok).2.2
      refine ⟨hok, ?_⟩
      cases write with
      | false => exact ⟨hmoved, h.untouched rfl⟩
      | true => exact hmoved

/-- Splitting is transparent, and nothing reaches the driver if the request is out of range, or if
it is a write and writes are not allowed. -/
theorem split_transparent (dev : BlockDevice) (disk : Drive) (allowed : Bool) {lba count : ℕ}
    {buf : List UInt8} (hbuf : dev.inRange lba count = true → buf.length = count * dev.sectorSize) :
    dev.Transparent false (dev.inRange lba count) disk lba count buf (dev.read disk lba count buf) ∧
      dev.Transparent true (allowed && dev.inRange lba count) disk lba count buf
        (dev.write allowed disk lba count buf) := by
  refine ⟨transparent_request false disk hbuf, ?_⟩
  cases allowed with
  | false => exact transparent_refused dev true disk lba count buf
  | true => exact transparent_request true disk hbuf

/-- The theorem at three sectors of two bytes, of which the driver moves two at once. -/
theorem split_transparent_of_three_sectors :
    BlockDevice.Transparent ⟨2, 8, 2, by decide, by decide⟩ false true
      ⟨UInt8.ofNat, [], fun _ => none⟩ 4 3 [0, 0, 0, 0, 0, 0]
      (BlockDevice.read ⟨2, 8, 2, by decide, by decide⟩ ⟨UInt8.ofNat, [], fun _ => none⟩ 4 3
        [0, 0, 0, 0, 0, 0]) :=
  (@split_transparent ⟨2, 8, 2, by decide, by decide⟩ ⟨UInt8.ofNat, [], fun _ => none⟩ false 4 3
    [0, 0, 0, 0, 0, 0] fun _ => rfl).1

end BlockDevice

end AnssOS
