import AnssOS.Foundation.Tiling
import AnssOS.Mm.Heap

/-!
# The blocks of a heap and the allocations they serve

The two heaps of the system, that of the kernel and that of a program, differ only in where new
memory comes from.  Here is what they have in common: their blocks tile the memory they got, each
block in use serves one live allocation, and taking a block, giving it back and adding a new one
keep this so.

### Outline

* `Allocation`: a live allocation, with the block that serves it;
* `HeapOk`: the invariant of a heap;
* `HeapOk.append`, `HeapOk.take`, `HeapOk.release`: it is kept; `HeapOk.takePlain` and
  `HeapOk.takeAligned` are the two ways in which a block is taken;
* `HeapOk.layout`: what it says about the bytes of the allocations.
-/

namespace AnssOS

open List Option Function

/-! ### Alignment -/

theorem dvd_alignUp (n align : ℕ) : align ∣ alignUp n align := Dvd.intro_left _ rfl

theorem le_alignUp {align : ℕ} (h : 0 < align) (n : ℕ) : n ≤ alignUp n align := by
  have := Nat.div_add_mod (n + align - 1) align
  have := Nat.mod_lt (n + align - 1) h
  rw [alignUp, Nat.mul_comm]
  omega

theorem alignUp_lt {align : ℕ} (h : 0 < align) (n : ℕ) : alignUp n align < n + align := by
  have := Nat.div_mul_le_self (n + align - 1) align
  rw [alignUp]
  omega

/-- The first aligned pointer at least eight bytes behind a pointer to a payload is at most as many
bytes behind it as the alignment has. -/
theorem alignUp_raw {raw align : ℕ} (hraw : heapAlign ∣ raw) (halign : heapAlign ∣ align)
    (hpos : 0 < align) :
    raw + 8 ≤ alignUp (raw + 8) align ∧ alignUp (raw + 8) align ≤ raw + align := by
  refine ⟨le_alignUp hpos _, ?_⟩
  have hlt := alignUp_lt hpos (raw + 8)
  obtain ⟨r, hr⟩ := hraw
  obtain ⟨a, ha⟩ := halign
  obtain ⟨k, hk⟩ := (Dvd.intro a ha.symm).trans (dvd_alignUp (raw + 8) align)
  unfold heapAlign at hr ha hk
  omega

/-- A power of two divides `HEAP_ALIGN` or is a multiple of it. -/
theorem pow_dvd_heapAlign {k : ℕ} (h : 2 ^ k ≤ heapAlign) : 2 ^ k ∣ heapAlign :=
  have hle : k ≤ 4 := (Nat.pow_le_pow_iff_right (by decide : 1 < 2)).mp h
  pow_dvd_pow 2 hle

theorem heapAlign_dvd_pow {k : ℕ} (h : heapAlign < 2 ^ k) : heapAlign ∣ 2 ^ k :=
  have hlt : 4 < k := (Nat.pow_lt_pow_iff_right (by decide : 1 < 2)).mp h
  pow_dvd_pow 2 hlt.le

/-! ### The blocks -/

/-- The addresses of a block, with its header. -/
def Block.span (b : Block) : ℕ × ℕ := (b.addr, b.addr + heapHeader + b.size)

/-- The header of a block. -/
def Block.header (b : Block) : ℕ × ℕ := (b.addr, b.addr + heapHeader)

theorem Block.span_lt (b : Block) : b.span.1 < b.span.2 := by
  unfold span heapHeader
  omega

namespace Heap

theorem takeFirst_spec {size ptr : ℕ} {blocks blocks' : List Block}
    (h : takeFirst size blocks = some (ptr, blocks')) :
    ∃ before b after, blocks = before ++ b :: after ∧ b.free = true ∧ size ≤ b.size ∧
      ptr = b.addr + heapHeader ∧ blocks' = before ++ (split b size ++ after) := by
  induction blocks generalizing blocks' with
  | nil => cases h
  | cons b bs ih =>
    rw [takeFirst] at h
    split at h
    · rename_i hfits
      obtain ⟨rfl, rfl⟩ := Prod.mk.inj (some.inj h)
      exact ⟨[], b, bs, rfl, hfits.1, hfits.2, rfl, rfl⟩
    · obtain ⟨⟨ptr', bs'⟩, hrest, heq⟩ := map_eq_some_iff.mp h
      obtain ⟨rfl, rfl⟩ := Prod.mk.inj heq
      obtain ⟨before, b', after, rfl, hfree, hsize, hptr, rfl⟩ := ih hrest
      exact ⟨b :: before, b', after, rfl, hfree, hsize, hptr, rfl⟩

/-- The block that `split` takes, and the rest of it, if there is one. -/
theorem split_cases (b : Block) (size : ℕ) :
    split b size = [{ b with free := false }] ∨
      size + heapHeader + heapAlign ≤ b.size ∧ split b size =
        [{ b with size := size, free := false },
          ⟨b.addr + heapHeader + size, b.size - size - heapHeader, true⟩] := by
  unfold split
  split
  · exact Or.inl rfl
  · exact Or.inr ⟨by omega, rfl⟩

theorem tiles_split (b : Block) (size : ℕ) :
    Tiles ((split b size).map Block.span) (Set.Ico b.span.1 b.span.2) := by
  rcases split_cases b size with heq | ⟨hle, heq⟩
  · rw [heq]
    exact .singleton b.span_lt
  · rw [heq]
    have hend : b.addr + heapHeader + size + heapHeader + (b.size - size - heapHeader) =
        b.addr + heapHeader + b.size := by omega
    simp only [map_cons, map_nil, Block.span, hend]
    unfold heapHeader heapAlign at *
    exact .pair (by omega) (by omega)

/-- Where `free` finds the block. -/
theorem freeBlock_append {addr : ℕ} {before : List Block} (hbefore : ∀ b ∈ before, b.addr ≠ addr)
    (bs : List Block) : freeBlock addr (before ++ bs) = before ++ freeBlock addr bs := by
  induction before with
  | nil => rfl
  | cons b before ih =>
    rw [cons_append, freeBlock.eq_def]
    simp only [if_neg (hbefore b mem_cons_self),
      ih fun b hb => hbefore b (mem_cons_of_mem _ hb), cons_append]

/-- The block becomes free, alone or with the next one. -/
theorem freeBlock_cases (b : Block) (after : List Block) :
    freeBlock b.addr (b :: after) = { b with free := true } :: after ∨
      ∃ n rest, after = n :: rest ∧ n.free = true ∧ n.addr = b.addr + heapHeader + b.size ∧
        freeBlock b.addr (b :: after) =
          { b with free := true, size := b.size + (heapHeader + n.size) } :: rest := by
  rw [freeBlock.eq_def]
  simp only [if_true]
  cases after with
  | nil => exact Or.inl rfl
  | cons n rest =>
    by_cases hnext : n.free ∧ n.addr = b.addr + heapHeader + b.size
    · exact Or.inr ⟨n, rest, rfl, hnext.1, hnext.2, if_pos hnext⟩
    · exact Or.inl (if_neg hnext)

/-- The bytes that `alloc` asks `malloc` for. -/
def request (size align : ℕ) : ℕ := if align ≤ heapAlign then size else size + align

/-- The pointer that `malloc` returned for the allocation at `ptr`, as `dealloc` finds it. -/
def recover (h : Heap) (ptr align : ℕ) : ℕ := if align ≤ heapAlign then ptr else h.stash (ptr - 8)

theorem dealloc_eq (h : Heap) (ptr align : ℕ) :
    h.dealloc ptr align = { h with blocks := freeBlock (h.recover ptr align - heapHeader) h.blocks } :=
  rfl

end Heap

/-! ### Live allocations -/

/-- An allocation that has not been given back: its pointer and layout, and the address of the block
that serves it. -/
structure Allocation where
  ptr : ℕ
  size : ℕ
  align : ℕ
  block : ℕ
deriving DecidableEq

namespace Allocation

/-- The bytes that belong to the caller. -/
def payload (a : Allocation) : ℕ × ℕ := (a.ptr, a.ptr + a.size)

/-- The eight bytes in which the start of an over-aligned block is kept. -/
def cell (a : Allocation) : ℕ × ℕ := (a.ptr - 8, a.ptr)

/-- The pointer is aligned, and its bytes are among those of the block; the cell of an over-aligned
block as well. -/
structure Serves (hhdm : ℕ) (a : Allocation) (b : Block) : Prop where
  aligned : a.align ∣ hhdm + a.ptr
  start : b.addr + heapHeader ≤ a.ptr
  stop : a.ptr + a.size ≤ b.addr + heapHeader + b.size
  cell : heapAlign < a.align → b.addr + heapHeader + 8 ≤ a.ptr

end Allocation

/-- The blocks of the heap tile `S`, and those in use serve the live allocations. -/
structure HeapOk (h : Heap) (S : Set ℕ) (live : List Allocation) : Prop where
  tiles : Tiles (h.blocks.map Block.span) S
  aligned : ∀ b ∈ h.blocks, heapAlign ∣ b.addr ∧ heapAlign ∣ b.size
  used : ∀ b ∈ h.blocks, b.free = false → ∃ a ∈ live, a.block = b.addr
  served : ∀ a ∈ live, ∃ b ∈ h.blocks, b.addr = a.block ∧ b.free = false ∧ a.Serves h.hhdm b
  nodup : (live.map Allocation.block).Nodup
  recovers : ∀ a ∈ live, h.recover a.ptr a.align = a.block + heapHeader

namespace HeapOk

variable {h h' : Heap} {S T : Set ℕ} {live : List Allocation}

theorem empty (hhdm : ℕ) : HeapOk (Heap.empty hhdm) ∅ [] :=
  ⟨.nil, by simp [Heap.empty], by simp [Heap.empty], by simp, by simp, by simp⟩

theorem congr (hok : HeapOk h S live) (heq : S = T) : HeapOk h T live := heq ▸ hok

variable {b c : Block} {after before : List Block} {size : ℕ} {a : Allocation}

/-- Two blocks are the same or do not overlap. -/
theorem eq_or_apart (hok : HeapOk h S live) (hb : b ∈ h.blocks) (hc : c ∈ h.blocks) :
    b = c ∨ Apart b.span c.span := by
  have hsymm : Std.Symm fun b c : Block => Apart b.span c.span := ⟨fun _ _ => Apart.symm⟩
  have hapart : h.blocks.Pairwise fun b c => Apart b.span c.span :=
    pairwise_map.mp hok.tiles.apart
  by_cases hbc : b = c
  · exact Or.inl hbc
  · exact Or.inr (hapart.forall hb hc hbc)

theorem eq_of_addr (hok : HeapOk h S live) (hb : b ∈ h.blocks) (hc : c ∈ h.blocks)
    (haddr : b.addr = c.addr) : b = c := by
  rcases hok.eq_or_apart hb hc with heq | hapart
  · exact heq
  · have := b.span_lt
    have := c.span_lt
    unfold Apart Block.span at *
    omega

/-- The other blocks are at other addresses. -/
theorem addr_ne (hok : HeapOk h S live) 
    (hblocks : h.blocks = before ++ b :: after) (hc : c ∈ before ∨ c ∈ after) :
    c.addr ≠ b.addr := by
  have htiles := hok.tiles.apart
  rw [hblocks, pairwise_map] at htiles
  obtain ⟨-, hafter, hbefore⟩ := pairwise_append.mp htiles
  have hapart : Apart c.span b.span := by
    rcases hc with hc | hc
    · exact hbefore c hc b mem_cons_self
    · exact ((pairwise_cons.mp hafter).1 c hc).symm
  have := b.span_lt
  have := c.span_lt
  unfold Apart Block.span at *
  omega

/-- A new block at the end. -/
theorem append (hok : HeapOk h S live) (hfree : b.free = true)
    (haddr : heapAlign ∣ b.addr) (hsize : heapAlign ∣ b.size)
    (hdisj : Disjoint S (Set.Ico b.span.1 b.span.2)) :
    HeapOk { h with blocks := h.blocks ++ [b] } (S ∪ Set.Ico b.span.1 b.span.2) live := by
  refine ⟨?_, fun c hc => ?_, fun c hc hused => ?_, fun a ha => ?_, hok.nodup, hok.recovers⟩
  · rw [map_append]
    exact hok.tiles.append (.singleton b.span_lt) hdisj
  · rcases mem_append.mp hc with hc | hc
    · exact hok.aligned c hc
    · rw [mem_singleton.mp hc]
      exact ⟨haddr, hsize⟩
  · rcases mem_append.mp hc with hc | hc
    · exact hok.used c hc hused
    · rw [mem_singleton.mp hc, hfree] at hused
      cases hused
  · obtain ⟨c, hc, hserves⟩ := hok.served a ha
    exact ⟨c, mem_append_left _ hc, hserves⟩

/-- A part of the list of blocks is exchanged: `mid` for `mid'`, on the same addresses. -/
theorem tiles_replace (mid mid' : List Block) {I : Set ℕ}
    (htiles : Tiles ((before ++ (mid ++ after)).map Block.span) S)
    (hmid : Tiles (mid.map Block.span) I) (hmid' : Tiles (mid'.map Block.span) I) :
    Tiles ((before ++ (mid' ++ after)).map Block.span) S := by
  rw [map_append, map_append] at htiles ⊢
  exact htiles.replace hmid hmid'

section

variable (hok : HeapOk h S live)

include hok

/-- A free block is taken for a new allocation. -/
theorem take (hblocks : h.blocks = before ++ b :: after) (hfree : b.free = true)
    (hsize : heapAlign ∣ size) (hle : size ≤ b.size) (hblock : a.block = b.addr)
    (hserves : ∀ c : Block, c.addr = b.addr → size ≤ c.size → a.Serves h.hhdm c)
    (hblocks' : h'.blocks = before ++ (Heap.split b size ++ after)) (hhdm : h'.hhdm = h.hhdm)
    (hrecover : h'.recover a.ptr a.align = a.block + heapHeader)
    (hother : ∀ a' ∈ live, h'.recover a'.ptr a'.align = h.recover a'.ptr a'.align) :
    HeapOk h' S (a :: live) := by
  have hmem : b ∈ h.blocks := by simp [hblocks]
  -- The block that serves the new allocation is the first one of the split.
  obtain ⟨c, hc, hcaddr, hcused, hcsize⟩ : ∃ c ∈ Heap.split b size,
      c.addr = b.addr ∧ c.free = false ∧ size ≤ c.size := by
    rcases Heap.split_cases b size with heq | ⟨-, heq⟩
    · exact ⟨{ b with free := false }, by simp [heq], rfl, rfl, hle⟩
    · exact ⟨{ b with size := size, free := false }, by simp [heq], rfl, rfl, le_rfl⟩
  have hsplit : ∀ c ∈ Heap.split b size, (c.free = false → c.addr = b.addr) ∧
      heapAlign ∣ c.addr ∧ heapAlign ∣ c.size := by
    obtain ⟨haddr, hbsize⟩ := hok.aligned b hmem
    have hheader : heapAlign ∣ heapHeader := by decide
    rcases Heap.split_cases b size with heq | ⟨-, heq⟩
    · simp [heq, haddr, hbsize]
    · simp only [heq, mem_cons, not_mem_nil, or_false, forall_eq_or_imp, forall_eq]
      exact ⟨⟨fun _ => trivial, haddr, hsize⟩, by simp,
        dvd_add (dvd_add haddr hheader) hsize, Nat.dvd_sub (Nat.dvd_sub hbsize hsize) hheader⟩
  have hmem' : ∀ c, c ∈ h'.blocks ↔ c ∈ before ∨ c ∈ Heap.split b size ∨ c ∈ after := by
    intro c
    rw [hblocks', mem_append, mem_append]
  have hold : ∀ c, c ∈ before ∨ c ∈ after → c ∈ h.blocks := by
    intro c hc
    rw [hblocks, mem_append, mem_cons]
    tauto
  refine ⟨?_, fun c hc => ?_, fun c hc hused => ?_, ?_, ?_, ?_⟩
  · have htiles := hok.tiles
    rw [hblocks] at htiles
    rw [hblocks']
    exact tiles_replace [b] _ htiles (.singleton b.span_lt) (Heap.tiles_split b size)
  · rcases (hmem' c).mp hc with hc | hc | hc
    · exact hok.aligned c (hold c (Or.inl hc))
    · exact (hsplit c hc).2
    · exact hok.aligned c (hold c (Or.inr hc))
  · by_cases hnew : c ∈ Heap.split b size
    · exact ⟨a, mem_cons_self, hblock.trans ((hsplit c hnew).1 hused).symm⟩
    · obtain ⟨a', ha', heq⟩ := hok.used c (hold c (by have := (hmem' c).mp hc; tauto)) hused
      exact ⟨a', mem_cons_of_mem _ ha', heq⟩
  · rw [hhdm]
    rintro a' ha'
    rcases mem_cons.mp ha' with rfl | ha'
    · exact ⟨c, (hmem' c).mpr (Or.inr (Or.inl hc)), hcaddr.trans hblock.symm, hcused,
        hserves c hcaddr hcsize⟩
    · obtain ⟨c', hc', haddr, hused, hserves'⟩ := hok.served a' ha'
      refine ⟨c', (hmem' c').mpr ?_, haddr, hused, hserves'⟩
      have hne : c' ≠ b := by
        rintro rfl
        rw [hfree] at hused
        cases hused
      rw [hblocks, mem_append, mem_cons] at hc'
      tauto
  · refine nodup_cons.mpr ⟨fun hin => ?_, hok.nodup⟩
    obtain ⟨a', ha', heq⟩ := List.mem_map.mp hin
    obtain ⟨c', hc', haddr, hused, -⟩ := hok.served a' ha'
    rw [hok.eq_of_addr hc' hmem (by rw [haddr, heq, hblock]), hfree] at hused
    cases hused
  · intro a' ha'
    rcases mem_cons.mp ha' with rfl | ha'
    · exact hrecover
    · rw [hother a' ha']
      exact hok.recovers a' ha'

/-- A free block is taken for an allocation that needs no special alignment. -/
theorem takePlain (hblocks : h.blocks = before ++ b :: after) (hfree : b.free = true) {size k : ℕ}
    (hle : alignUp (max size 1) heapAlign ≤ b.size) (hhdm : heapAlign ∣ h.hhdm)
    (hk : 2 ^ k ≤ heapAlign) :
    HeapOk { h with
        blocks := before ++ (Heap.split b (alignUp (max size 1) heapAlign) ++ after) } S
      (⟨b.addr + heapHeader, size, 2 ^ k, b.addr⟩ :: live) := by
  have hsize := le_alignUp (show 0 < heapAlign by decide) (max size 1)
  have hraw : heapAlign ∣ h.hhdm + (b.addr + heapHeader) :=
    dvd_add hhdm (dvd_add (hok.aligned b (by simp [hblocks])).1 (by decide))
  refine hok.take hblocks hfree (dvd_alignUp _ _) hle rfl (fun c hc hcsize => ?_) rfl rfl ?_
    fun _ _ => rfl
  · refine ⟨(pow_dvd_heapAlign hk).trans hraw, ?_, ?_, fun hover => ?_⟩
    · simp [hc]
    · simp only [hc]
      omega
    · exact absurd hover (not_lt.mpr hk)
  · exact if_pos hk

/-- A free block is taken for an over-aligned allocation. -/
theorem takeAligned (hblocks : h.blocks = before ++ b :: after) (hfree : b.free = true) {size k : ℕ}
    (hle : alignUp (max (size + 2 ^ k) 1) heapAlign ≤ b.size) (hhdm : heapAlign ∣ h.hhdm)
    (hk : heapAlign < 2 ^ k) :
    HeapOk { h with
        blocks := before ++ (Heap.split b (alignUp (max (size + 2 ^ k) 1) heapAlign) ++ after)
        stash := Function.update h.stash
          (alignUp (h.hhdm + (b.addr + heapHeader) + 8) (2 ^ k) - h.hhdm - 8)
          (b.addr + heapHeader) } S
      (⟨alignUp (h.hhdm + (b.addr + heapHeader) + 8) (2 ^ k) - h.hhdm, size, 2 ^ k, b.addr⟩ ::
        live) := by
  have hsize := le_alignUp (show 0 < heapAlign by decide) (max (size + 2 ^ k) 1)
  have hmem : b ∈ h.blocks := by simp [hblocks]
  have hraw : heapAlign ∣ h.hhdm + (b.addr + heapHeader) :=
    dvd_add hhdm (dvd_add (hok.aligned b hmem).1 (by decide))
  obtain ⟨hstart, hstop⟩ := alignUp_raw hraw (heapAlign_dvd_pow hk) (by positivity)
  have hdvd := dvd_alignUp (h.hhdm + (b.addr + heapHeader) + 8) (2 ^ k)
  set aligned := alignUp (h.hhdm + (b.addr + heapHeader) + 8) (2 ^ k)
  refine hok.take hblocks hfree (dvd_alignUp _ _) hle rfl (fun c hc hcsize => ?_) rfl rfl ?_
    fun a' ha' => ?_
  · refine ⟨?_, ?_, ?_, fun _ => ?_⟩
    · rwa [Nat.add_sub_cancel' (by omega)]
    · simp only [hc]
      omega
    · simp only [hc]
      omega
    · simp only [hc]
      omega
  · rw [Heap.recover, if_neg (not_le.mpr hk)]
    exact update_self _ _ _
  · -- The cells of the other allocations are in other blocks.
    unfold Heap.recover
    split
    · rfl
    · rename_i hover
      refine update_of_ne (fun heq => ?_) _ _
      obtain ⟨c, hc, haddr, hused, hserves⟩ := hok.served a' ha'
      have hne : c ≠ b := by
        rintro rfl
        rw [hfree] at hused
        cases hused
      have hcell := hserves.cell (not_le.mp hover)
      have hend := hserves.stop
      have hapart := (hok.eq_or_apart hc hmem).resolve_left hne
      unfold Apart Block.span at hapart
      dsimp only at hapart
      omega

/-- The block of a live allocation is no longer in use. -/
theorem forget (ha : a ∈ live) (hb : b ∈ h.blocks) (hblock : b.addr = a.block)
    (htiles : Tiles (h'.blocks.map Block.span) S)
    (haligned : ∀ c ∈ h'.blocks, heapAlign ∣ c.addr ∧ heapAlign ∣ c.size)
    (hused : ∀ c, c ∈ h'.blocks ∧ c.free = false ↔ (c ∈ h.blocks ∧ c ≠ b) ∧ c.free = false)
    (hhdm : h'.hhdm = h.hhdm) (hstash : h'.stash = h.stash) : HeapOk h' S (live.erase a) := by
  have herase : ∀ a', a' ∈ live.erase a ↔ a' ≠ a ∧ a' ∈ live :=
    fun a' => hok.nodup.of_map.mem_erase_iff
  refine ⟨htiles, haligned, fun c hc hcused => ?_, fun a' ha' => ?_, ?_, fun a' ha' => ?_⟩
  · obtain ⟨⟨hc, hne⟩, hcused⟩ := (hused c).mp ⟨hc, hcused⟩
    obtain ⟨a', ha', heq⟩ := hok.used c hc hcused
    refine ⟨a', (herase a').mpr ⟨?_, ha'⟩, heq⟩
    rintro rfl
    exact hne (hok.eq_of_addr hc hb (heq.symm.trans hblock.symm))
  · obtain ⟨hne, ha'⟩ := (herase a').mp ha'
    obtain ⟨c, hc, haddr, hcused, hserves⟩ := hok.served a' ha'
    have hcb : c ≠ b := by
      rintro rfl
      exact hne (inj_on_of_nodup_map hok.nodup ha' ha (haddr.symm.trans hblock))
    obtain ⟨hc, hcused⟩ := (hused c).mpr ⟨⟨hc, hcb⟩, hcused⟩
    exact ⟨c, hc, haddr, hcused, hhdm ▸ hserves⟩
  · exact hok.nodup.sublist (erase_sublist.map _)
  · have := hok.recovers a' ((herase a').mp ha').2
    rwa [Heap.recover, hstash]

/-- A live allocation is given back. -/
theorem release (ha : a ∈ live) : HeapOk (h.dealloc a.ptr a.align) S (live.erase a) := by
  obtain ⟨b, hb, hblock, hused, -⟩ := hok.served a ha
  obtain ⟨before, after, hblocks⟩ := append_of_mem hb
  have hne : ∀ c, c ∈ before ∨ c ∈ after → c ≠ b := fun c hc heq =>
    hok.addr_ne hblocks hc (congrArg Block.addr heq)
  have hdealloc : (h.dealloc a.ptr a.align).blocks =
      before ++ Heap.freeBlock b.addr (b :: after) := by
    rw [Heap.dealloc_eq, hok.recovers a ha, Nat.add_sub_cancel, ← hblock, hblocks]
    exact Heap.freeBlock_append (fun c hc => hok.addr_ne hblocks (Or.inl hc)) _
  have htiles := hok.tiles
  rw [hblocks] at htiles
  have hmem : ∀ c, c ∈ h.blocks ↔ c ∈ before ∨ c = b ∨ c ∈ after := by
    intro c
    rw [hblocks, mem_append, mem_cons]
  have haligned : ∀ c, c ∈ before ∨ c = b ∨ c ∈ after → heapAlign ∣ c.addr ∧ heapAlign ∣ c.size :=
    fun c hc => hok.aligned c ((hmem c).mpr hc)
  rcases Heap.freeBlock_cases b after with heq | ⟨n, rest, rfl, hfree, hnext, heq⟩
  · rw [heq] at hdealloc
    refine hok.forget ha hb hblock ?_ ?_ (fun c => ?_) rfl rfl
    · rw [hdealloc]
      exact tiles_replace [b] [{ b with free := true }] htiles
        (.singleton b.span_lt) (.singleton b.span_lt)
    · rw [hdealloc]
      simp only [mem_append, mem_cons]
      rintro c (hc | rfl | hc)
      · exact haligned c (Or.inl hc)
      · exact haligned b (Or.inr (Or.inl rfl))
      · exact haligned c (Or.inr (Or.inr hc))
    · rw [hdealloc, hmem, mem_append, mem_cons]
      have hnew : c = { b with free := true } → c.free = true := by
        rintro rfl
        rfl
      have := hne c
      grind
  · rw [heq] at hdealloc
    have hspan : n.span = (b.span.2, b.span.2 + heapHeader + n.size) := by
      simp only [Block.span, hnext]
    have hend : b.addr + heapHeader + (b.size + (heapHeader + n.size)) =
        b.span.2 + heapHeader + n.size := by
      simp only [Block.span]
      omega
    have hlt : b.span.2 < b.span.2 + heapHeader + n.size := by
      unfold heapHeader
      omega
    refine hok.forget ha hb hblock ?_ ?_ (fun c => ?_) rfl rfl
    · rw [hdealloc]
      refine tiles_replace [b, n]
        [{ b with free := true, size := b.size + (heapHeader + n.size) }]
        (I := Set.Ico b.addr (b.span.2 + heapHeader + n.size)) htiles ?_ ?_
      · simp only [map_cons, map_nil, hspan]
        exact .pair b.span_lt hlt
      · simp only [map_cons, map_nil, Block.span, hend]
        exact .singleton (b.span_lt.trans hlt)
    · have hheader : heapAlign ∣ heapHeader := by decide
      rw [hdealloc]
      simp only [mem_append, mem_cons]
      rintro c (hc | rfl | hc)
      · exact haligned c (Or.inl hc)
      · obtain ⟨hbaddr, hbsize⟩ := haligned b (Or.inr (Or.inl rfl))
        obtain ⟨-, hnsize⟩ := haligned n (Or.inr (Or.inr mem_cons_self))
        exact ⟨hbaddr, dvd_add hbsize (dvd_add hheader hnsize)⟩
      · exact haligned c (Or.inr (Or.inr (mem_cons_of_mem _ hc)))
    · rw [hdealloc, hmem, mem_append, mem_cons, mem_cons]
      have hnew : c = { b with free := true, size := b.size + (heapHeader + n.size) } →
          c.free = true := by
        rintro rfl
        rfl
      have := hne c
      have hn : c = n → c.free = true := by
        rintro rfl
        exact hfree
      grind

end
/-! ### What the invariant says about bytes -/

/-- A part of the payload of a block overlaps no header. -/
theorem apart_header (hok : HeapOk h S live) (hb : b ∈ h.blocks) (hc : c ∈ h.blocks)
    {s : ℕ × ℕ} (hstart : b.addr + heapHeader ≤ s.1) (hstop : s.2 ≤ b.addr + heapHeader + b.size) :
    Apart s c.header := by
  rcases hok.eq_or_apart hb hc with rfl | hapart
  · exact Or.inr hstart
  · refine hapart.mono ⟨?_, hstop⟩ ⟨le_rfl, ?_⟩
    · exact (Nat.le_add_right _ _).trans hstart
    · exact Nat.le_add_right _ _

/-- Parts of the payloads of two blocks do not overlap. -/
theorem apart_payload (hok : HeapOk h S live) (hb : b ∈ h.blocks) (hc : c ∈ h.blocks)
    (hne : b ≠ c) {s t : ℕ × ℕ} (hs : b.addr + heapHeader ≤ s.1)
    (hs' : s.2 ≤ b.addr + heapHeader + b.size) (ht : c.addr + heapHeader ≤ t.1)
    (ht' : t.2 ≤ c.addr + heapHeader + c.size) : Apart s t :=
  ((hok.eq_or_apart hb hc).resolve_left hne).mono ⟨(Nat.le_add_right _ _).trans hs, hs'⟩
    ⟨(Nat.le_add_right _ _).trans ht, ht'⟩

end HeapOk

/-- The bytes of the live allocations: aligned as requested, in the payload of one block in use that
`dealloc` will find, and apart from each other and from all headers.  The cell in which the start of
an over-aligned block is kept belongs to no allocation and to no header. -/
structure HeapLayout (h : Heap) (live : List Allocation) : Prop where
  aligned : ∀ a ∈ live, a.align ∣ h.hhdm + a.ptr
  inside : ∀ a ∈ live, ∃ b ∈ h.blocks, b.free = false ∧ b.addr + heapHeader ≤ a.ptr ∧
    a.ptr + a.size ≤ b.addr + heapHeader + b.size ∧ h.recover a.ptr a.align = b.addr + heapHeader ∧
    b.addr = a.block
  payloads : live.Pairwise fun a a' => Apart a.payload a'.payload
  headers : ∀ a ∈ live, ∀ b ∈ h.blocks, Apart a.payload b.header
  cells : ∀ a ∈ live, heapAlign < a.align → (∀ a' ∈ live, Apart a.cell a'.payload) ∧
    ∀ b ∈ h.blocks, Apart a.cell b.header

theorem HeapOk.layout {h : Heap} {S : Set ℕ} {live : List Allocation} (hok : HeapOk h S live) :
    HeapLayout h live := by
  have hblock : ∀ a ∈ live, ∀ a' ∈ live, ∀ b c : Block, b.addr = a.block → c.addr = a'.block →
      a.block ≠ a'.block → b ≠ c := by
    rintro a - a' - b c hb hc hne rfl
    exact hne (hb.symm.trans hc)
  refine ⟨fun a ha => ?_, fun a ha => ?_, ?_, fun a ha b hb => ?_, fun a ha hover => ⟨?_, ?_⟩⟩
  · obtain ⟨b, -, -, -, hserves⟩ := hok.served a ha
    exact hserves.aligned
  · obtain ⟨b, hb, haddr, hused, hserves⟩ := hok.served a ha
    exact ⟨b, hb, hused, hserves.start, hserves.stop, haddr ▸ hok.recovers a ha, haddr⟩
  · refine (pairwise_map.mp hok.nodup).imp_of_mem fun {a a'} ha ha' hne => ?_
    obtain ⟨b, hb, haddr, -, hserves⟩ := hok.served a ha
    obtain ⟨c, hc, haddr', -, hserves'⟩ := hok.served a' ha'
    exact hok.apart_payload hb hc (hblock a ha a' ha' b c haddr haddr' hne) hserves.start
      hserves.stop hserves'.start hserves'.stop
  · obtain ⟨c, hc, -, -, hserves⟩ := hok.served a ha
    exact hok.apart_header hc hb hserves.start hserves.stop
  · obtain ⟨b, hb, haddr, -, hserves⟩ := hok.served a ha
    have hcell := hserves.cell hover
    intro a' ha'
    obtain ⟨c, hc, haddr', -, hserves'⟩ := hok.served a' ha'
    by_cases hsame : a.block = a'.block
    · obtain rfl := inj_on_of_nodup_map hok.nodup ha ha' hsame
      exact Or.inl le_rfl
    · exact hok.apart_payload hb hc (hblock a ha a' ha' b c haddr haddr' hsame)
        (Nat.le_sub_of_add_le hcell) ((Nat.le_add_right _ _).trans hserves.stop) hserves'.start
        hserves'.stop
  · obtain ⟨b, hb, haddr, -, hserves⟩ := hok.served a ha
    exact fun c hc => hok.apart_header hb hc (Nat.le_sub_of_add_le (hserves.cell hover))
      ((Nat.le_add_right _ _).trans hserves.stop)

end AnssOS
