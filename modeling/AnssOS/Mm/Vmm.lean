import AnssOS.Foundation.PageForest
import AnssOS.Mm.Heap

/-!
# Page tables

The model of `kernel/src/mm/vmm.rs`: four-level page tables in physical memory, as bytes.  The walker
and `new_address_space` do not look at whether the allocation of a page for a table failed; the field
`tableFailures` counts how often that happened, and no modelled function reads it.
-/

namespace AnssOS

/-- The physical memory of the machine and its allocators. -/
structure PhysMemory where
  ram : ByteMemory
  pmm : Pmm
  heap : Heap
  tableFailures : ℕ

/-- `PAGE_PRESENT`. -/
def pagePresent : ℕ := 1

/-- `PAGE_WRITABLE`. -/
def pageWritable : ℕ := 2

/-- `PAGE_USER`. -/
def pageUser : ℕ := 4

/-- The flag of an entry that maps memory itself, above the lowest level. -/
def pageHuge : ℕ := 0x80

/-- `PAGE_ADDR_MASK`. -/
def pageAddrMask : ℕ := 0x000ffffffffff000

/-- `ENTRIES`. -/
def tableEntries : ℕ := 512

/-- Whether an entry of a table has the flag `PAGE_PRESENT`. -/
def present (e : ℕ) : Bool := e &&& pagePresent ≠ 0

/-- The nine bits of an address that index a table of one level. -/
def tableIndex (virt shift : ℕ) : ℕ := (virt >>> shift) &&& 0x1FF

namespace PhysMemory

/-- An entry of the table at `table`. -/
def entry (m : PhysMemory) (table index : ℕ) : ℕ := m.ram.readWord (table + 8 * index)

/-- An entry of the table at `table` is overwritten. -/
def setEntry (m : PhysMemory) (table index e : ℕ) : PhysMemory :=
  { m with ram := m.ram.writeWord (table + 8 * index) e }

/-- The page that an entry leads to, if it is present. -/
def child (m : PhysMemory) (table index : ℕ) : Option ℕ :=
  if present (m.entry table index) then some (m.entry table index &&& pageAddrMask) else none

/-- `pmm::free_page`. -/
def freePage (m : PhysMemory) (phys : ℕ) : PhysMemory := { m with pmm := m.pmm.freePage phys }

/-- `pmm::alloc_page`, for a table: the caller does not ask whether it failed. -/
def allocTable (m : PhysMemory) : ℕ × PhysMemory :=
  match m.pmm.allocPage with
  | (phys, p) => (phys, { m with
      pmm := p
      tableFailures := if phys = 0 then m.tableFailures + 1 else m.tableFailures })

/-- `get_or_create`. -/
def getOrCreate (m : PhysMemory) (parent index : ℕ) : ℕ × PhysMemory :=
  let m := if present (m.entry parent index) then m
    else
      match m.allocTable with
      | (phys, m) =>
          let m := { m with ram := m.ram.fillBytes phys pageSize 0 }
          m.setEntry parent index (phys ||| pagePresent ||| pageWritable ||| pageUser)
  (m.entry parent index &&& pageAddrMask, m)

/-- `walk_create`: the page table that has the entry of `virt`. -/
def walkCreate (m : PhysMemory) (pml4 virt : ℕ) : ℕ × PhysMemory :=
  let (pdpt, m) := m.getOrCreate pml4 (tableIndex virt 39)
  let (pd, m) := m.getOrCreate pdpt (tableIndex virt 30)
  m.getOrCreate pd (tableIndex virt 21)

/-- `map`. -/
def map (m : PhysMemory) (pml4 virt phys flags : ℕ) : PhysMemory :=
  let (pt, m) := m.walkCreate pml4 virt
  m.setEntry pt (tableIndex virt 12) ((phys &&& pageAddrMask) ||| flags)

/-- `new_address_space`, with the active address space `cr3`. -/
def newAddressSpace (m : PhysMemory) (cr3 : ℕ) : ℕ × PhysMemory :=
  match m.allocTable with
  | (pml4, m) =>
      let half := tableEntries / 2 * 8
      let ram := m.ram.fillBytes pml4 half 0
      (pml4, { m with ram := ram.copyBytes (pml4 + half) (cr3 + half) half })

/-- Goes through the given entries of a table and calls `body` for those that are present, until it
returns `false`. -/
def forPresent (table : ℕ) (body : ℕ → ℕ → PhysMemory → Bool × PhysMemory) :
    List ℕ → PhysMemory → Bool × PhysMemory
  | [], m => (true, m)
  | i :: is, m =>
      if present (m.entry table i) then
        match body i (m.entry table i) m with
        | (false, m) => (false, m)
        | (true, m) => forPresent table body is m
      else forPresent table body is m

/-- `user_leaves`. -/
def userLeaves (pml4 : ℕ) (f : ℕ → ℕ → PhysMemory → Bool × PhysMemory) :
    PhysMemory → Bool × PhysMemory :=
  forPresent pml4 (fun i4 e4 =>
    forPresent (e4 &&& pageAddrMask) (fun i3 e3 =>
      forPresent (e3 &&& pageAddrMask) (fun i2 e2 =>
        forPresent (e2 &&& pageAddrMask)
          (fun i1 e1 => f ((i4 <<< 39) ||| (i3 <<< 30) ||| (i2 <<< 21) ||| (i1 <<< 12)) e1)
          (List.range tableEntries))
        (List.range tableEntries))
      (List.range tableEntries))
    (List.range (tableEntries / 2))

/-- `clone_user_pages`. -/
def cloneUserPages (m : PhysMemory) (dst src : ℕ) : Bool × PhysMemory :=
  userLeaves src (fun virt pte m =>
    match m.pmm.allocPage with
    | (copy, p) =>
        let m := { m with pmm := p }
        if copy = 0 then (false, m)
        else
          let m := { m with ram := m.ram.copyBytes copy (pte &&& pageAddrMask) pageSize }
          (true, m.map dst virt copy (pte &&& 0xFFF))) m

/-- `free_user_pages`. -/
def freeUserPages (m : PhysMemory) (pml4 : ℕ) : PhysMemory :=
  let freed := forPresent pml4 (fun _ e4 m =>
    let freed := forPresent (e4 &&& pageAddrMask) (fun _ e3 m =>
      let freed := forPresent (e3 &&& pageAddrMask) (fun _ e2 m =>
        let freed := forPresent (e2 &&& pageAddrMask) (fun _ e1 m =>
          (true, m.freePage (e1 &&& pageAddrMask))) (List.range tableEntries) m
        (true, freed.2.freePage (e2 &&& pageAddrMask))) (List.range tableEntries) m
      (true, freed.2.freePage (e3 &&& pageAddrMask))) (List.range tableEntries) m
    (true, freed.2.freePage (e4 &&& pageAddrMask))) (List.range (tableEntries / 2)) m
  freed.2.freePage pml4

/-- One round of the loop of `sys_brk`. -/
def growHeap (m : PhysMemory) (pml4 virt : ℕ) : Bool × PhysMemory :=
  match m.pmm.allocPage with
  | (phys, p) =>
      let m := { m with pmm := p }
      if phys = 0 then (false, m)
      else
        let m := { m with ram := m.ram.fillBytes phys pageSize 0 }
        (true, m.map pml4 virt phys (pagePresent ||| pageWritable ||| pageUser))

/-- The physical address of a user address, if it is mapped.  User pages are always mapped writable
and accessible from ring 3, at every level. -/
def translate (m : PhysMemory) (pml4 virt : ℕ) : Option ℕ :=
  if virt < 2 ^ 47 then
    (walk m.child pml4
      [tableIndex virt 39, tableIndex virt 30, tableIndex virt 21, tableIndex virt 12]).map
      (· + virt % pageSize)
  else none

/-- Bytes are stored at a user address; what is not mapped is left out. -/
def storeUser (m : PhysMemory) (pml4 addr : ℕ) (bytes : List UInt8) : PhysMemory :=
  bytes.zipIdx.foldl (fun m (b, k) =>
    match m.translate pml4 (addr + k) with
    | some phys => { m with ram := Function.update m.ram phys b }
    | none => m) m

end PhysMemory

/-! ### Entries -/

theorem and_pageAddrMask (n : ℕ) : n &&& pageAddrMask = n / pageSize % 2 ^ 40 * pageSize := by
  have hmask : pageAddrMask = (2 ^ 40 - 1) * 2 ^ 12 := rfl
  have hsize : pageSize = 2 ^ 12 := rfl
  apply Nat.eq_of_testBit_eq
  intro i
  rw [hmask, hsize, Nat.testBit_and, Nat.testBit_mul_two_pow, Nat.testBit_mul_two_pow,
    Nat.testBit_two_pow_sub_one, Nat.testBit_mod_two_pow, Nat.testBit_div_two_pow]
  by_cases hi : 12 ≤ i
  · simp [hi, Nat.sub_add_cancel hi, Bool.and_comm]
  · simp [hi]

theorem present_eq (e : ℕ) : present e = decide (e % 2 = 1) := by
  rw [present, pagePresent, Nat.and_one_is_mod]
  have := Nat.mod_two_eq_zero_or_one e
  rcases this with h | h <;> simp [h]

theorem tableIndex_eq (virt shift : ℕ) : tableIndex virt shift = virt / 2 ^ shift % 512 := by
  rw [tableIndex, Nat.shiftRight_eq_div_pow]
  exact Nat.and_two_pow_sub_one_eq_mod _ 9

theorem tableIndex_lt (virt shift : ℕ) : tableIndex virt shift < 512 := by
  rw [tableIndex_eq]
  exact Nat.mod_lt _ (by decide)

theorem and_pageHuge (n : ℕ) : n &&& pageHuge = n / 128 % 2 * 128 := by
  have htwo := Nat.mod_two_eq_zero_or_one (n / 2 ^ 7)
  rw [show pageHuge = 2 ^ 7 from rfl, Nat.and_two_pow, Nat.testBit_eq_decide_div_mod_eq]
  rcases htwo with h | h <;> simp_all

/-- What a new entry holds: a page address below `2 ^ 52` and flags. -/
theorem entry_parts {page flags : ℕ} (hpage : page < 2 ^ 40) (hflags : flags < pageSize) :
    (page * pageSize ||| flags) = page * pageSize + flags ∧
      (page * pageSize + flags) &&& pageAddrMask = page * pageSize ∧
      present (page * pageSize + flags) = decide (flags % 2 = 1) ∧
      page * pageSize + flags < 2 ^ 64 := by
  refine ⟨?_, ?_, ?_, ?_⟩
  · rw [mul_comm]
    exact (Nat.two_pow_add_eq_or_of_lt (i := 12) hflags page).symm
  · rw [and_pageAddrMask]
    have hdiv : (page * pageSize + flags) / pageSize = page := by
      unfold pageSize at hflags ⊢
      omega
    rw [hdiv, Nat.mod_eq_of_lt hpage]
  · rw [present_eq]
    unfold pageSize
    congr 1
    rw [Nat.add_mod, Nat.mul_mod]
    simp
  · unfold pageSize at hflags ⊢
    omega

end AnssOS
