import AnssOS.Foundation.RingBuffer

/-!
# The in-kernel byte pipe

`kernel/src/exec/pipe.rs`: a pipe is a ring of `bufSize` bytes with a reference count for each of
its two ends.  No operation blocks.  `Pipe.write` copies in as much as fits, `Pipe.read` copies out
what is there and tells "nothing yet" from "end of file" by the count of the write end.

The queue a pipe represents is `Pipe.contents`; the two operations are an append and a split of
that queue (`Pipe.contents_write`, `Pipe.contents_read`).  `pipeRun_lossless` follows whole
sequences of calls: what the reads returned so far is a prefix of what the writes accepted so far,
and the difference is exactly what the pipe still holds.
-/

namespace AnssOS

/-- `BUF_SIZE`: the capacity of a pipe, in bytes. -/
def bufSize : ℕ := 4096

instance : NeZero bufSize := ⟨by decide⟩

/-- A pipe: the ring, the index of the next byte to read, the number of bytes buffered, and the
reference counts (`i32` in the source) of the two ends. -/
structure Pipe where
  buf : Fin bufSize → UInt8
  head : ℕ
  count : ℕ
  readRefs : ℤ
  writeRefs : ℤ

/-- `create()`: a new pipe, both ends referenced once. -/
def Pipe.create : Pipe :=
  { buf := fun _ => 0, head := 0, count := 0, readRefs := 1, writeRefs := 1 }

/-- `Pipe::write`: copies in as much of `data` as fits.  Returns the number of bytes taken, or
`none` with no reference to the read end left. -/
def Pipe.write (p : Pipe) (data : List UInt8) : Option ℕ × Pipe :=
  if p.readRefs = 0 then (none, p)
  else
    let n := min data.length (bufSize - p.count)
    let tail := (p.head + p.count) % bufSize
    (some n, { p with buf := ringStore p.buf tail (data.take n), count := p.count + n })

/-- `Pipe::read` into a buffer of `len` bytes.  Returns the bytes copied out (the source returns
their number and leaves them in `out`): the empty list if nothing is buffered but a write end is
still referenced, `none` if nothing is buffered and every write end is gone. -/
def Pipe.read (p : Pipe) (len : ℕ) : Option (List UInt8) × Pipe :=
  if p.count = 0 then (if 0 < p.writeRefs then some [] else none, p)
  else
    let n := min len p.count
    (some (ringLoad p.buf p.head n),
      { p with head := (p.head + n) % bufSize, count := p.count - n })

/-! ### The queue behind the ring -/

/-- The bytes buffered in a pipe, oldest first. -/
def Pipe.contents (p : Pipe) : List UInt8 := ringContents p.buf p.head p.count

/-- The ring indices are in range: the head is an index of the ring, and no more bytes are counted
than the ring has cells. -/
structure Pipe.WellFormed (p : Pipe) : Prop where
  head_lt : p.head < bufSize
  count_le : p.count ≤ bufSize

@[simp] theorem Pipe.length_contents (p : Pipe) : p.contents.length = p.count := by
  simp [Pipe.contents]

theorem Pipe.create_wellFormed : Pipe.create.WellFormed :=
  ⟨by decide, by decide⟩

@[simp] theorem Pipe.create_contents : Pipe.create.contents = [] := rfl

/-- A write is refused exactly when the read end has no reference left. -/
theorem Pipe.write_eq_none_iff (p : Pipe) (data : List UInt8) :
    (p.write data).1 = none ↔ p.readRefs = 0 := by
  unfold Pipe.write
  split <;> simp_all

/-- An accepted write reports the number of bytes that fit. -/
theorem Pipe.write_eq_some (p : Pipe) (data : List UInt8) (h : p.readRefs ≠ 0) :
    (p.write data).1 = some (min data.length (bufSize - p.count)) := by
  simp [Pipe.write, h]

theorem Pipe.write_of_none (p : Pipe) (data : List UInt8) (h : (p.write data).1 = none) :
    (p.write data).2 = p := by
  simp [Pipe.write, (p.write_eq_none_iff data).mp h]

/-- An accepted write appends the bytes it took to the queue. -/
theorem Pipe.contents_write {p : Pipe} (hp : p.WellFormed) {data : List UInt8} {n : ℕ}
    (h : (p.write data).1 = some n) : (p.write data).2.contents = p.contents ++ data.take n := by
  have hrefs : p.readRefs ≠ 0 := fun h0 => by simp [(p.write_eq_none_iff data).mpr h0] at h
  obtain rfl : min data.length (bufSize - p.count) = n := by
    simpa [p.write_eq_some data hrefs] using h
  have hcount := hp.count_le
  have hlen : (data.take (min data.length (bufSize - p.count))).length =
      min data.length (bufSize - p.count) := by simp
  have happend := ringContents_ringStore p.buf p.head p.count
    (data.take (min data.length (bufSize - p.count))) (by rw [hlen]; omega)
  rw [hlen] at happend
  simpa [Pipe.write, hrefs, Pipe.contents, ringStore_mod] using happend

theorem Pipe.write_wellFormed {p : Pipe} (hp : p.WellFormed) (data : List UInt8) :
    (p.write data).2.WellFormed := by
  have hcount := hp.count_le
  unfold Pipe.write
  split
  · exact hp
  · exact ⟨hp.head_lt, by dsimp only; omega⟩

/-- A read returns the front of the queue and leaves the rest, unless it reports the end of the
file. -/
theorem Pipe.contents_read {p : Pipe} {len : ℕ} {out : List UInt8}
    (h : (p.read len).1 = some out) : p.contents = out ++ (p.read len).2.contents := by
  unfold Pipe.read at h ⊢
  split at h
  · rename_i hzero
    have hempty : p.contents = [] := List.eq_nil_of_length_eq_zero (by simp [hzero])
    have hout : out = [] := by
      split at h
      · exact (Option.some.inj h).symm
      · exact absurd h (by simp)
    simp [hzero, hout, hempty]
  · rename_i hzero
    obtain rfl := Option.some.inj h
    have hsplit : p.count = min len p.count + (p.count - min len p.count) := by omega
    simp only [if_neg hzero, Pipe.contents, ringContents_mod]
    conv_lhs => rw [hsplit, ringContents_add]
    rfl

/-- The end of the file is reported exactly when the pipe is drained and no reference to the write
end is left. -/
theorem Pipe.read_eq_none_iff (p : Pipe) (len : ℕ) :
    (p.read len).1 = none ↔ p.count = 0 ∧ p.writeRefs ≤ 0 := by
  unfold Pipe.read
  by_cases hcount : p.count = 0
  · by_cases hrefs : 0 < p.writeRefs
    · simp [hcount, hrefs]
    · simp [hcount, hrefs, not_lt.mp hrefs]
  · simp [hcount]

theorem Pipe.read_of_none (p : Pipe) (len : ℕ) (h : (p.read len).1 = none) :
    (p.read len).2 = p := by
  simp [Pipe.read, ((p.read_eq_none_iff len).mp h).1]

theorem Pipe.read_wellFormed {p : Pipe} (hp : p.WellFormed) (len : ℕ) :
    (p.read len).2.WellFormed := by
  have hcount := hp.count_le
  unfold Pipe.read
  split
  · exact hp
  · exact ⟨Nat.mod_lt _ (by decide), by dsimp only; omega⟩

/-! ### Sequences of calls -/

/-- What can happen to a pipe between two observations: a write, a read, or any change of the two
(non-negative) reference counts. -/
inductive PipeCall
  | write (data : List UInt8)
  | read (len : ℕ)
  | setRefs (readRefs writeRefs : ℕ)

/-- A pipe together with the bytes its writes have accepted and its reads have returned so far. -/
structure PipeTrace where
  pipe : Pipe
  accepted : List UInt8
  delivered : List UInt8

/-- One call on a traced pipe. -/
def PipeTrace.call (t : PipeTrace) : PipeCall → PipeTrace
  | .write data =>
      match t.pipe.write data with
      | (none, p) => { t with pipe := p }
      | (some n, p) => { t with pipe := p, accepted := t.accepted ++ data.take n }
  | .read len =>
      match t.pipe.read len with
      | (none, p) => { t with pipe := p }
      | (some out, p) => { t with pipe := p, delivered := t.delivered ++ out }
  | .setRefs r w => { t with pipe := { t.pipe with readRefs := r, writeRefs := w } }

/-- The trace of a sequence of calls on a fresh pipe. -/
def pipeRun (calls : List PipeCall) : PipeTrace :=
  calls.foldl PipeTrace.call ⟨Pipe.create, [], []⟩

/-- The invariant of a traced pipe: the ring is well formed, what was accepted is what was
delivered followed by what is buffered, and neither reference count is negative. -/
structure PipeTrace.Lossless (t : PipeTrace) : Prop where
  wellFormed : t.pipe.WellFormed
  accounted : t.accepted = t.delivered ++ t.pipe.contents
  writeRefs_nonneg : 0 ≤ t.pipe.writeRefs

theorem Pipe.write_refs (p : Pipe) (data : List UInt8) :
    (p.write data).2.readRefs = p.readRefs ∧ (p.write data).2.writeRefs = p.writeRefs := by
  unfold Pipe.write
  split <;> exact ⟨rfl, rfl⟩

theorem Pipe.read_refs (p : Pipe) (len : ℕ) :
    (p.read len).2.readRefs = p.readRefs ∧ (p.read len).2.writeRefs = p.writeRefs := by
  unfold Pipe.read
  split <;> exact ⟨rfl, rfl⟩

/-- Every call keeps the invariant of a traced pipe. -/
theorem PipeTrace.Lossless.call {t : PipeTrace} (h : t.Lossless) (c : PipeCall) :
    (t.call c).Lossless := by
  cases c with
  | write data =>
    have hwf := Pipe.write_wellFormed h.wellFormed data
    have hrefs := (t.pipe.write_refs data).2
    rcases hres : t.pipe.write data with ⟨_ | n, p⟩
    · obtain rfl : p = t.pipe := by simpa [hres] using t.pipe.write_of_none data (by rw [hres])
      simpa [PipeTrace.call, hres] using h
    · have hcontents := Pipe.contents_write h.wellFormed (n := n) (by rw [hres])
      rw [hres] at hwf hrefs hcontents
      refine ⟨?_, ?_, ?_⟩
      · simpa [PipeTrace.call, hres] using hwf
      · simp only [PipeTrace.call, hres]
        rw [hcontents, h.accounted, List.append_assoc]
      · have hnonneg : 0 ≤ p.writeRefs := hrefs.symm ▸ h.writeRefs_nonneg
        simpa [PipeTrace.call, hres] using hnonneg
  | read len =>
    have hwf := Pipe.read_wellFormed h.wellFormed len
    have hrefs := (t.pipe.read_refs len).2
    rcases hres : t.pipe.read len with ⟨_ | out, p⟩
    · obtain rfl : p = t.pipe := by simpa [hres] using t.pipe.read_of_none len (by rw [hres])
      simpa [PipeTrace.call, hres] using h
    · have hcontents := @Pipe.contents_read t.pipe len out (by rw [hres])
      rw [hres] at hwf hrefs hcontents
      refine ⟨?_, ?_, ?_⟩
      · simpa [PipeTrace.call, hres] using hwf
      · simp only [PipeTrace.call, hres]
        rw [h.accounted, hcontents, List.append_assoc]
      · have hnonneg : 0 ≤ p.writeRefs := hrefs.symm ▸ h.writeRefs_nonneg
        simpa [PipeTrace.call, hres] using hnonneg
  | setRefs r w =>
    refine ⟨⟨h.wellFormed.head_lt, h.wellFormed.count_le⟩, ?_, ?_⟩
    · simpa [PipeTrace.call, Pipe.contents] using h.accounted
    · exact Int.natCast_nonneg w

/-- The invariant holds after every sequence of calls on a fresh pipe. -/
theorem pipeRun_lossless (calls : List PipeCall) : (pipeRun calls).Lossless := by
  have key : ∀ (calls : List PipeCall) (t : PipeTrace), t.Lossless →
      (calls.foldl PipeTrace.call t).Lossless := by
    intro calls
    induction calls with
    | nil => intro t ht; exact ht
    | cons c cs ih => intro t ht; exact ih (t.call c) (ht.call c)
  refine key calls _ ⟨Pipe.create_wellFormed, ?_, ?_⟩
  · simp
  · simp [Pipe.create]

/-- A pipe is a lossless bounded FIFO.  After every sequence of writes, reads and changes of the
reference counts on a fresh pipe the ring indices are in range, the delivered bytes are a prefix of
the accepted ones with exactly `count` bytes outstanding, a write is refused exactly when `readRefs`
is zero and otherwise takes the first `min len (4096 - count)` bytes, and a read reports the end of
the file only when everything accepted has been delivered and `writeRefs` is zero. -/
theorem pipe_lossless_bounded_fifo (calls : List PipeCall) :
    let t := pipeRun calls
    t.pipe.head < 4096 ∧ t.pipe.count ≤ 4096 ∧
    t.delivered <+: t.accepted ∧ t.accepted.length = t.delivered.length + t.pipe.count ∧
    (∀ data, (t.pipe.write data).1 = none ↔ t.pipe.readRefs = 0) ∧
    (∀ data, t.pipe.readRefs ≠ 0 →
      (t.pipe.write data).1 = some (min data.length (4096 - t.pipe.count)) ∧
      (t.call (.write data)).accepted =
        t.accepted ++ data.take (min data.length (4096 - t.pipe.count))) ∧
    (∀ len, (t.pipe.read len).1 = none → t.delivered = t.accepted ∧ t.pipe.writeRefs = 0) := by
  intro t
  have h : t.Lossless := pipeRun_lossless calls
  refine ⟨h.wellFormed.head_lt, h.wellFormed.count_le, ?_, ?_, ?_, ?_, ?_⟩
  · exact ⟨t.pipe.contents, h.accounted.symm⟩
  · simp [h.accounted]
  · exact t.pipe.write_eq_none_iff
  · intro data hrefs
    have hn := t.pipe.write_eq_some data hrefs
    refine ⟨hn, ?_⟩
    rcases hres : t.pipe.write data with ⟨res, p⟩
    obtain rfl : res = _ := by simpa [hres] using hn
    simp [PipeTrace.call, hres, bufSize]
  · intro len hnone
    obtain ⟨hzero, hrefs⟩ := (t.pipe.read_eq_none_iff len).mp hnone
    have hempty : t.pipe.contents = [] := List.eq_nil_of_length_eq_zero (by simp [hzero])
    exact ⟨by simp [h.accounted, hempty], le_antisymm hrefs h.writeRefs_nonneg⟩

end AnssOS
