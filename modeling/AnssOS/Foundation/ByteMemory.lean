import Mathlib

/-!
# Byte-addressed memory

Numbers as little-endian byte strings, and a memory as a function from addresses to bytes, with the
operations a kernel uses on it: storing a byte string, filling and copying a range, and reading and
writing 64-bit words.

### Outline

* `leNat` and `leBytes`, which are inverse to each other on strings of a given length;
* `readBytes`, `writeBytes`, `fillBytes`, `copyBytes`, `readWord` and `writeWord`;
* every operation leaves the addresses outside its range alone, and reading depends on the bytes of
  the range only; from that, what a word reads as after a write to it or elsewhere.
-/

namespace AnssOS

/-! ### Little-endian numbers -/

/-- The number a byte string stands for, lowest byte first. -/
def leNat : List UInt8 → ℕ
  | [] => 0
  | b :: bs => b.toNat + 256 * leNat bs

/-- The `n` lowest bytes of a number, lowest first. -/
def leBytes : ℕ → ℕ → List UInt8
  | 0, _ => []
  | n + 1, v => UInt8.ofNat v :: leBytes n (v / 256)

@[simp] theorem length_leBytes (n v : ℕ) : (leBytes n v).length = n := by
  induction n generalizing v with
  | zero => rfl
  | succ n ih => simp [leBytes, ih]

theorem leNat_leBytes (n v : ℕ) : leNat (leBytes n v) = v % 256 ^ n := by
  induction n generalizing v with
  | zero => simp [leBytes, leNat, Nat.mod_one]
  | succ n ih =>
    have hbyte : (UInt8.ofNat v).toNat = v % 256 := UInt8.toNat_ofNat'
    rw [leBytes, leNat, ih, hbyte, pow_succ' 256 n, Nat.mod_mul]

theorem leNat_lt (bs : List UInt8) : leNat bs < 256 ^ bs.length := by
  induction bs with
  | nil => simp [leNat]
  | cons b bs ih =>
    have hb := b.toNat_lt
    rw [leNat, List.length_cons, pow_succ']
    omega

theorem leBytes_leNat (bs : List UInt8) : leBytes bs.length (leNat bs) = bs := by
  induction bs with
  | nil => rfl
  | cons b bs ih =>
    have hb := b.toNat_lt
    have hdiv : (b.toNat + 256 * leNat bs) / 256 = leNat bs := by omega
    have hmod : UInt8.ofNat (b.toNat + 256 * leNat bs) = b := by
      apply UInt8.toNat_inj.mp
      rw [UInt8.toNat_ofNat']
      omega
    rw [List.length_cons, leBytes, leNat, hdiv, ih, hmod]

/-! ### Reading and writing -/

/-- A memory: the byte at each address. -/
abbrev ByteMemory := ℕ → UInt8

namespace ByteMemory

/-- The `n` bytes from the address `a` on. -/
def readBytes (ram : ByteMemory) (a n : ℕ) : List UInt8 := (List.range n).map fun k => ram (a + k)

/-- A byte string is stored at the address `a`. -/
def writeBytes (ram : ByteMemory) (a : ℕ) (bs : List UInt8) : ByteMemory := fun x =>
  if a ≤ x ∧ x < a + bs.length then bs.getD (x - a) 0 else ram x

/-- The `n` bytes from the address `a` on become `b`. -/
def fillBytes (ram : ByteMemory) (a n : ℕ) (b : UInt8) : ByteMemory := fun x =>
  if a ≤ x ∧ x < a + n then b else ram x

/-- The `n` bytes from the address `src` on are copied to the address `dst`. -/
def copyBytes (ram : ByteMemory) (dst src n : ℕ) : ByteMemory := fun x =>
  if dst ≤ x ∧ x < dst + n then ram (src + (x - dst)) else ram x

/-- The 64-bit word at the address `a`. -/
def readWord (ram : ByteMemory) (a : ℕ) : ℕ := leNat (ram.readBytes a 8)

/-- A 64-bit word is stored at the address `a`. -/
def writeWord (ram : ByteMemory) (a v : ℕ) : ByteMemory := ram.writeBytes a (leBytes 8 v)

variable {ram ram' : ByteMemory}

theorem writeBytes_of_outside {a : ℕ} {bs : List UInt8} {x : ℕ} (h : x < a ∨ a + bs.length ≤ x) :
    ram.writeBytes a bs x = ram x := by
  rw [writeBytes, if_neg (by omega)]

theorem fillBytes_of_outside {a n : ℕ} {b : UInt8} {x : ℕ} (h : x < a ∨ a + n ≤ x) :
    ram.fillBytes a n b x = ram x := by
  rw [fillBytes, if_neg (by omega)]

theorem copyBytes_of_outside {dst src n x : ℕ} (h : x < dst ∨ dst + n ≤ x) :
    ram.copyBytes dst src n x = ram x := by
  rw [copyBytes, if_neg (by omega)]

/-- What is read depends on the bytes of the range only. -/
theorem readBytes_congr {a n : ℕ} (h : ∀ k < n, ram' (a + k) = ram (a + k)) :
    ram'.readBytes a n = ram.readBytes a n := by
  unfold readBytes
  exact List.map_congr_left fun k hk => h k (List.mem_range.mp hk)

theorem readWord_congr {a : ℕ} (h : ∀ k < 8, ram' (a + k) = ram (a + k)) :
    ram'.readWord a = ram.readWord a := by
  rw [readWord, readWord, readBytes_congr h]

theorem readBytes_writeBytes (ram : ByteMemory) (a : ℕ) (bs : List UInt8) :
    (ram.writeBytes a bs).readBytes a bs.length = bs := by
  apply List.ext_getElem
  · simp [readBytes]
  · intro k hk hk'
    simp only [readBytes, List.getElem_map, List.getElem_range, writeBytes]
    rw [if_pos (by omega), Nat.add_sub_cancel_left, List.getD_eq_getElem _ _ hk']

@[simp] theorem length_readBytes (ram : ByteMemory) (a n : ℕ) : (ram.readBytes a n).length = n := by
  simp [readBytes]

theorem readBytes_add (ram : ByteMemory) (a m n : ℕ) :
    ram.readBytes a (m + n) = ram.readBytes a m ++ ram.readBytes (a + m) n := by
  simp [readBytes, List.range_add, Nat.add_assoc, Function.comp_def]

theorem take_readBytes (ram : ByteMemory) (a : ℕ) {m n : ℕ} (h : m ≤ n) :
    (ram.readBytes a n).take m = ram.readBytes a m := by
  unfold readBytes
  rw [← List.map_take, List.take_range, min_eq_left h]

theorem readWord_writeWord_self (ram : ByteMemory) (a : ℕ) {v : ℕ} (hv : v < 2 ^ 64) :
    (ram.writeWord a v).readWord a = v := by
  have h := readBytes_writeBytes ram a (leBytes 8 v)
  rw [length_leBytes] at h
  rw [readWord, writeWord, h, leNat_leBytes]
  exact Nat.mod_eq_of_lt hv

theorem writeWord_of_outside {a v x : ℕ} (h : x < a ∨ a + 8 ≤ x) :
    ram.writeWord a v x = ram x :=
  writeBytes_of_outside (by simpa using h)

theorem readWord_writeWord_of_disjoint {a b v : ℕ} (h : b + 8 ≤ a ∨ a + 8 ≤ b) :
    (ram.writeWord a v).readWord b = ram.readWord b :=
  readWord_congr fun k hk => writeWord_of_outside (by omega)

theorem leNat_eq_zero {bs : List UInt8} (h : ∀ b ∈ bs, b = 0) : leNat bs = 0 := by
  induction bs with
  | nil => rfl
  | cons b bs ih =>
    rw [leNat, h b List.mem_cons_self, ih fun c hc => h c (List.mem_cons_of_mem _ hc)]
    rfl

theorem readWord_eq_zero {a : ℕ} (h : ∀ k < 8, ram (a + k) = 0) : ram.readWord a = 0 := by
  apply leNat_eq_zero
  intro b hb
  obtain ⟨k, hk, rfl⟩ := List.mem_map.mp hb
  exact h k (List.mem_range.mp hk)

end ByteMemory

end AnssOS
