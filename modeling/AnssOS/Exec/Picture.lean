import AnssOS.Exec.ElfRounds

/-!
# What the loader puts where

The bytes that the segments of an image leave in the address space, without pages and tables: a
segment that shares a page with one of the first sixteen adds its own bytes to those that are there;
in any other page it leaves nothing of what was there before.

### Outline

* `Phdr.Contains`, `Phdr.InPages`, `Phdr.byte`: the bytes of a segment and its pages;
* `LoadPicture`, `picture`: the bytes after some segments;
* `picture_right_iff`: when every segment is there in the end.
-/

namespace AnssOS

open List Option

/-! ### One segment -/

namespace Phdr

/-- The address is one of the segment's own. -/
def Contains (ph : Phdr) (x : ℕ) : Prop := ph.vaddr ≤ x ∧ x < ph.vaddr + ph.memsz

/-- The address is in one of the pages of the segment. -/
def InPages (ph : Phdr) (x : ℕ) : Prop := ph.segStart ≤ x ∧ x < ph.segStart + ph.pages * pageSize

instance (ph : Phdr) (x : ℕ) : Decidable (ph.Contains x) := by
  unfold Contains
  infer_instance

instance (ph : Phdr) (x : ℕ) : Decidable (ph.InPages x) := by
  unfold InPages
  infer_instance

/-- The byte of the segment at one of its addresses: one of the file, or 0 behind those. -/
def byte (image : List UInt8) (ph : Phdr) (x : ℕ) : UInt8 :=
  if x < ph.vaddr + ph.filesz then image.getD (ph.offset + (x - ph.vaddr)) 0 else 0

theorem Contains.inPages {ph : Phdr} {x : ℕ} (hfit : ph.vaddr + ph.memsz ≤ 2 ^ 47)
    (h : ph.Contains x) : ph.InPages x := by
  obtain ⟨-, hle, -, -, hpages, -⟩ := PhysMemory.segment_bounds hfit
  unfold Contains at h
  unfold InPages
  omega

theorem inPages_add (ph : Phdr) {v off : ℕ} (hv : v % pageSize = 0) (hoff : off < pageSize) :
    ph.InPages (v + off) ↔ ph.InPages v := by
  have hstart : ph.segStart % pageSize = 0 := Nat.mul_mod_left _ _
  unfold InPages pageSize at *
  omega

end Phdr

/-! ### All segments -/

/-- The segments that the loader keeps track of, and the bytes in the address space. -/
structure LoadPicture where
  tracked : List Phdr
  bytes : ℕ → UInt8

/-- One more segment. -/
def LoadPicture.load (image : List UInt8) (pic : LoadPicture) (ph : Phdr) : LoadPicture where
  tracked := if pic.tracked.length < maxLoadSegments then pic.tracked ++ [ph] else pic.tracked
  bytes x :=
    if ph.InPages x then
      if ph.Contains x then ph.byte image x
      else if ∃ g ∈ pic.tracked, g.InPages x then pic.bytes x else 0
    else pic.bytes x

/-- The bytes that some segments leave, one after the other. -/
def picture (image : List UInt8) (segs : List Phdr) : LoadPicture :=
  segs.foldl (LoadPicture.load image) ⟨[], fun _ => 0⟩

variable {image : List UInt8} {segs before after : List Phdr} {ph u : Phdr} {x : ℕ}

theorem picture_concat (image : List UInt8) (segs : List Phdr) (ph : Phdr) :
    picture image (segs ++ [ph]) = (picture image segs).load image ph := by
  rw [picture, foldl_append]
  rfl

theorem picture_append (image : List UInt8) (before after : List Phdr) :
    picture image (before ++ after) = after.foldl (LoadPicture.load image) (picture image before) := by
  rw [picture, foldl_append]
  rfl

/-- The loader keeps track of the first sixteen. -/
theorem tracked_picture (image : List UInt8) (segs : List Phdr) :
    (picture image segs).tracked = segs.take maxLoadSegments := by
  induction segs using List.reverseRecOn with
  | nil => rfl
  | append_singleton segs ph ih =>
    rw [picture_concat, LoadPicture.load]
    dsimp only
    rw [ih, length_take]
    by_cases hroom : segs.length < maxLoadSegments
    · rw [if_pos (by omega), take_of_length_le hroom.le, take_of_length_le (by simpa)]
    · rw [if_neg (by omega), take_append_of_le_length (by omega)]

/-- What is in no segment is 0. -/
theorem bytes_of_outside (h : ∀ ph ∈ segs, ¬ ph.Contains x) : (picture image segs).bytes x = 0 := by
  induction segs using List.reverseRecOn with
  | nil => rfl
  | append_singleton segs ph ih =>
    have ih := ih fun q hq => h q (mem_append_left _ hq)
    rw [picture_concat, LoadPicture.load]
    dsimp only
    rw [if_neg (h ph (by simp)), ih]
    simp

/-- Segments elsewhere change nothing. -/
theorem bytes_of_elsewhere {pic : LoadPicture} (h : ∀ ph ∈ after, ¬ ph.InPages x) :
    (after.foldl (LoadPicture.load image) pic).bytes x = pic.bytes x := by
  induction after generalizing pic with
  | nil => rfl
  | cons ph after ih =>
    rw [foldl_cons, ih fun q hq => h q (mem_cons_of_mem _ hq), LoadPicture.load]
    exact if_neg (h ph mem_cons_self)

/-- None of the first sixteen segments has the page. -/
def Untracked (segs : List Phdr) (x : ℕ) : Prop :=
  ∀ g ∈ segs.take maxLoadSegments, ¬ g.InPages x

/-- In a page of none of the first sixteen segments, the last segment is all there is. -/
theorem bytes_of_last (hsegs : segs = before ++ ph :: after) (hpage : ph.InPages x)
    (hlast : ∀ q ∈ after, ¬ q.InPages x) (huntracked : Untracked segs x) :
    (picture image segs).bytes x = if ph.Contains x then ph.byte image x else 0 := by
  have hnone : ¬ ∃ g ∈ (picture image before).tracked, g.InPages x := by
    rintro ⟨g, hg, hin⟩
    rw [tracked_picture] at hg
    refine huntracked g ?_ hin
    rw [hsegs, take_append]
    exact mem_append_left _ hg
  rw [hsegs, picture_append, foldl_cons, bytes_of_elsewhere hlast, LoadPicture.load]
  dsimp only
  rw [if_pos hpage, if_neg hnone]

/-- The segments do not overlap. -/
def Apartly (segs : List Phdr) : Prop :=
  segs.Pairwise fun ph q => ∀ x, ph.Contains x → ¬ q.Contains x

theorem apartly_of_ranges (h : segs.Pairwise fun ph q =>
    ph.vaddr + ph.memsz ≤ q.vaddr ∨ q.vaddr + q.memsz ≤ ph.vaddr) : Apartly segs := by
  refine h.imp fun hranges x hx hq => ?_
  unfold Phdr.Contains at hx hq
  omega

/-- In a page of one of the first sixteen segments, every segment is there. -/
theorem bytes_of_tracked (hapart : Apartly segs)
    (hfit : ∀ ph ∈ segs, ph.vaddr + ph.memsz ≤ 2 ^ 47) (htracked : ¬ Untracked segs x)
    (hph : ph ∈ segs) (hx : ph.Contains x) :
    (picture image segs).bytes x = ph.byte image x := by
  induction segs using List.reverseRecOn with
  | nil => cases hph
  | append_singleton segs q ih =>
    obtain ⟨hbefore, -, hcross⟩ := pairwise_append.mp hapart
    have hfit' : ∀ ph ∈ segs, ph.vaddr + ph.memsz ≤ 2 ^ 47 := fun ph hph =>
      hfit ph (mem_append_left _ hph)
    rw [picture_concat, LoadPicture.load]
    dsimp only
    rcases mem_append.mp hph with hph | hph
    · -- The page was one of the first sixteen segments before, since it was a page of `ph`.
      have hold : ¬ Untracked segs x := by
        intro huntracked
        refine htracked fun g hg hin => ?_
        rw [take_append] at hg
        rcases mem_append.mp hg with hg | hg
        · exact huntracked g hg hin
        · have hroom : segs.length < maxLoadSegments := by
            by_contra hfull
            rw [Nat.sub_eq_zero_of_le (not_lt.mp hfull)] at hg
            cases hg
          refine huntracked ph ?_ (hx.inPages (hfit' ph hph))
          rwa [take_of_length_le hroom.le]
      have hshared : ∃ g ∈ (picture image segs).tracked, g.InPages x := by
        rw [tracked_picture]
        unfold Untracked at hold
        push Not at hold
        exact hold
      rw [if_neg (hcross ph hph q (by simp) x hx), if_pos hshared, ih hbefore hfit' hold hph, ite_self]
    · rw [mem_singleton.mp hph] at hx ⊢
      rw [if_pos (hx.inPages (hfit q (by simp))), if_pos hx]

/-- In any other page, a segment is lost if a later one has the page as well. -/
theorem bytes_of_lost (hapart : Apartly segs) (hsegs : segs = before ++ u :: after)
    (hx : u.Contains x) (hlater : ∃ v ∈ after, v.InPages x)
    (huntracked : Untracked segs x) : (picture image segs).bytes x = 0 := by
  have hfind : (after.reverse.find? fun v => decide (v.InPages x)).isSome := by
    obtain ⟨v, hv, hin⟩ := hlater
    exact find?_isSome.mpr ⟨v, mem_reverse.mpr hv, decide_eq_true hin⟩
  obtain ⟨v, hv⟩ := isSome_iff_exists.mp hfind
  obtain ⟨hin, as, bs, hrev, hnone⟩ := find?_eq_some_iff_append.mp hv
  have hafter : after = bs.reverse ++ v :: as.reverse := by
    rw [← reverse_reverse after, hrev]
    simp
  have hsplit : segs = (before ++ u :: bs.reverse) ++ v :: as.reverse := by
    rw [hsegs, hafter]
    simp
  have hapart' := hapart
  rw [hsplit] at hapart'
  have hout : ¬ v.Contains x :=
    (pairwise_append.mp hapart').2.2 u (by simp) v mem_cons_self x hx
  rw [bytes_of_last hsplit (of_decide_eq_true hin) (fun q hq => ?_) huntracked, if_neg hout]
  simpa using hnone q (mem_reverse.mp hq)

/-- Whenever a segment shares a page with a later one, and none of the first sixteen has the page,
the former has only zeros there. -/
def NothingLost (image : List UInt8) (segs : List Phdr) : Prop :=
  ∀ before u after, segs = before ++ u :: after → ∀ x, u.Contains x → Untracked segs x →
    (∃ v ∈ after, v.InPages x) → u.byte image x = 0

/-- With up to seventeen segments, all but the last one are among the first sixteen. -/
theorem nothingLost_of_length_le (hfit : ∀ ph ∈ segs, ph.vaddr + ph.memsz ≤ 2 ^ 47)
    (hlength : segs.length ≤ maxLoadSegments + 1) : NothingLost image segs := by
  rintro before u after rfl x hx huntracked ⟨v, hv, -⟩
  refine absurd (hx.inPages (hfit u (by simp))) (huntracked u ?_)
  have hpos := length_pos_of_mem hv
  rw [length_append, length_cons] at hlength
  obtain ⟨n, hn⟩ : ∃ n, maxLoadSegments - before.length = n + 1 :=
    Nat.exists_eq_succ_of_ne_zero (by omega)
  rw [take_append, hn, take_succ_cons]
  simp

/-- Every segment is there in the end exactly if nothing is lost. -/
theorem picture_right_iff (hapart : Apartly segs)
    (hfit : ∀ ph ∈ segs, ph.vaddr + ph.memsz ≤ 2 ^ 47) :
    (∀ ph ∈ segs, ∀ x, ph.Contains x → (picture image segs).bytes x = ph.byte image x) ↔
      NothingLost image segs := by
  constructor
  · intro hright before u after hsegs x hx huntracked hlater
    rw [← hright u (by simp [hsegs]) x hx]
    exact bytes_of_lost hapart hsegs hx hlater huntracked
  · intro hnothing ph hph x hx
    by_cases huntracked : Untracked segs x
    · obtain ⟨before, after, hsegs⟩ := append_of_mem hph
      by_cases hlater : ∃ v ∈ after, v.InPages x
      · rw [hnothing before ph after hsegs x hx huntracked hlater]
        exact bytes_of_lost hapart hsegs hx hlater huntracked
      · rw [bytes_of_last hsegs (hx.inPages (hfit ph hph)) (fun q hq hin => hlater ⟨q, hq, hin⟩)
          huntracked, if_pos hx]
    · exact bytes_of_tracked hapart hfit huntracked hph hx

end AnssOS
