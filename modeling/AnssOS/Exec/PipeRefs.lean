import AnssOS.Exec.Kernel
import AnssOS.Foundation.Tally

/-!
# The reference counts of the heap of pipes

A pipe counts the references to each of its ends and is freed when both counts are zero.  The
references themselves lie in the tables of open files and the standard pipes of the tasks.

This module has the two sides apart: how many references a task holds and how its operations change
that number (`Usertask.refs`), and what the operations of the heap of pipes do to the counts, as
long as the counts are `Sound`: non-negative, within an `i32`, and zero on both ends exactly for the
pipes that have been freed.
-/

namespace AnssOS

/-! ### References -/

/-- Whether an open file refers to an end of a pipe, as a number. -/
def OpenFile.refs (p : ℕ) (writeEnd : Bool) (f : OpenFile) : ℕ :=
  if f = .pipe p writeEnd then 1 else 0

/-- The references to an end of a pipe among the open files of a task. -/
def Usertask.openRefs (t : Usertask) (p : ℕ) (writeEnd : Bool) : ℕ :=
  tally (OpenFile.refs p writeEnd) t.openFiles

/-- The reference to an end of a pipe as standard input or output of a task. -/
def Usertask.stdioRefs (t : Usertask) (p : ℕ) (writeEnd : Bool) : ℕ :=
  if (if writeEnd then t.stdoutPipe else t.stdinPipe) = some p then 1 else 0

/-- All references a task holds to an end of a pipe. -/
def Usertask.refs (t : Usertask) (p : ℕ) (writeEnd : Bool) : ℕ :=
  t.openRefs p writeEnd + t.stdioRefs p writeEnd

/-- The references of a process that has neither exited nor crashed. -/
def Process.liveRefs (p : ℕ) (writeEnd : Bool) (q : Process) : ℕ :=
  if q.Live then q.task.refs p writeEnd else 0

theorem Process.liveRefs_congr {q r : Process} (hlive : r.Live ↔ q.Live)
    (hopen : r.task.openFiles = q.task.openFiles) (hstdin : r.task.stdinPipe = q.task.stdinPipe)
    (hstdout : r.task.stdoutPipe = q.task.stdoutPipe) (p : ℕ) (writeEnd : Bool) :
    r.liveRefs p writeEnd = q.liveRefs p writeEnd := by
  have hrefs : r.task.refs p writeEnd = q.task.refs p writeEnd := by
    rw [Usertask.refs, Usertask.refs, Usertask.openRefs, Usertask.openRefs, hopen,
      Usertask.stdioRefs, Usertask.stdioRefs, hstdin, hstdout]
  by_cases hq : q.Live
  · rw [liveRefs, liveRefs, if_pos hq, if_pos (hlive.mpr hq), hrefs]
  · rw [liveRefs, liveRefs, if_neg hq, if_neg (mt hlive.mp hq)]

/-- The count a pipe keeps for one of its ends. -/
def Pipe.endRefs (q : Pipe) (writeEnd : Bool) : ℤ :=
  if writeEnd then q.writeRefs else q.readRefs

theorem OpenFile.refs_le (p : ℕ) (writeEnd : Bool) (f : OpenFile) : f.refs p writeEnd ≤ 1 := by
  unfold OpenFile.refs
  split <;> omega

theorem Usertask.stdioRefs_le (t : Usertask) (p : ℕ) (writeEnd : Bool) :
    t.stdioRefs p writeEnd ≤ 1 := by
  unfold stdioRefs
  generalize (if writeEnd then t.stdoutPipe else t.stdinPipe) = q
  split <;> omega

theorem Usertask.refs_le (t : Usertask) (p : ℕ) (writeEnd : Bool) : t.refs p writeEnd ≤ 9 := by
  have hopen : t.openRefs p writeEnd ≤ Fintype.card (Fin maxOpenFiles) * 1 :=
    tally_le fun j => OpenFile.refs_le p writeEnd _
  have hstdio := t.stdioRefs_le p writeEnd
  rw [Fintype.card_fin, maxOpenFiles] at hopen
  unfold refs
  omega

theorem Usertask.openRefs_pos {t : Usertask} {j : Fin maxOpenFiles} {p : ℕ} {writeEnd : Bool}
    (h : t.openFiles j = .pipe p writeEnd) : 0 < t.openRefs p writeEnd := by
  have hle := le_tally (OpenFile.refs p writeEnd) t.openFiles j
  rw [h, OpenFile.refs, if_pos rfl] at hle
  exact hle

@[simp] theorem OpenFile.refs_free (p : ℕ) (writeEnd : Bool) :
    OpenFile.refs p writeEnd .free = 0 := by
  simp [OpenFile.refs]

/-- Overwriting an entry of the table of open files. -/
theorem Usertask.refs_setFile (t : Usertask) (j : Fin maxOpenFiles) (f : OpenFile) (p : ℕ)
    (writeEnd : Bool) :
    (t.setFile j f).refs p writeEnd + (t.openFiles j).refs p writeEnd =
      t.refs p writeEnd + f.refs p writeEnd := by
  have hopen : (t.setFile j f).openRefs p writeEnd + (t.openFiles j).refs p writeEnd =
      t.openRefs p writeEnd + f.refs p writeEnd :=
    tally_update (OpenFile.refs p writeEnd) t.openFiles j f
  have hstdio : (t.setFile j f).stdioRefs p writeEnd = t.stdioRefs p writeEnd := rfl
  rw [refs, refs, hstdio]
  omega

theorem Usertask.refs_eq_zero {t : Usertask} (hfiles : ∀ j, t.openFiles j = .free)
    (hstdin : t.stdinPipe = none) (hstdout : t.stdoutPipe = none) (p : ℕ) (writeEnd : Bool) :
    t.refs p writeEnd = 0 := by
  have hopen : t.openRefs p writeEnd = 0 :=
    tally_eq_zero.mpr fun j => by rw [hfiles, OpenFile.refs_free]
  have hstdio : t.stdioRefs p writeEnd = 0 := by simp [stdioRefs, hstdin, hstdout]
  rw [refs, hopen, hstdio]

/-- The task after `use_as_stdio` has moved the pipes of two open files. -/
def Usertask.useAsStdio (t : Usertask) (j k : Fin maxOpenFiles) (input output : ℕ) : Usertask :=
  (({ t with stdinPipe := some input, stdoutPipe := some output }).setFile j .free).setFile k .free

/-- `use_as_stdio` moves two references and forgets the standard pipes there were. -/
theorem Usertask.refs_useAsStdio {t : Usertask} {j k : Fin maxOpenFiles} {input output : ℕ}
    (hj : t.openFiles j = .pipe input false) (hk : t.openFiles k = .pipe output true) (p : ℕ)
    (writeEnd : Bool) :
    (t.useAsStdio j k input output).refs p writeEnd + t.stdioRefs p writeEnd =
      t.refs p writeEnd := by
  have hkj : k ≠ j := by
    rintro rfl
    rw [hj] at hk
    cases hk
  set t₀ : Usertask := { t with stdinPipe := some input, stdoutPipe := some output } with ht₀
  have hfirst := t₀.refs_setFile j .free p writeEnd
  have hsecond := (t₀.setFile j .free).refs_setFile k .free p writeEnd
  have hfile : (t₀.setFile j .free).openFiles k = .pipe output true :=
    (Function.update_of_ne hkj ..).trans hk
  have hstdio : t₀.stdioRefs p writeEnd = OpenFile.refs p writeEnd (.pipe input false) +
      OpenFile.refs p writeEnd (.pipe output true) := by
    cases writeEnd <;> simp [stdioRefs, OpenFile.refs, t₀]
  have hopen : t₀.openRefs p writeEnd = t.openRefs p writeEnd := rfl
  have hj₀ : t₀.openFiles j = .pipe input false := hj
  have hrefs₀ : t₀.refs p writeEnd = t₀.openRefs p writeEnd + t₀.stdioRefs p writeEnd := rfl
  have hrefs : t.refs p writeEnd = t.openRefs p writeEnd + t.stdioRefs p writeEnd := rfl
  rw [hj₀, OpenFile.refs_free] at hfirst
  rw [hfile, OpenFile.refs_free] at hsecond
  rw [useAsStdio, ← ht₀]
  omega

namespace PipeHeap

/-- The count kept for an end of a pipe in the heap. -/
def refs (h : PipeHeap) (p : ℕ) (writeEnd : Bool) : ℤ :=
  (h.cells p).pipe.endRefs writeEnd

/-- Every count is a non-negative `i32`, and exactly the pipes with no reference left have been
freed, each of them once. -/
structure Sound (h : PipeHeap) : Prop where
  nonneg : ∀ p writeEnd, 0 ≤ h.refs p writeEnd
  fits : ∀ p writeEnd, h.refs p writeEnd ≤ 2 ^ 31 - 1
  frees_eq : ∀ p, (h.cells p).frees = if h.refs p false = 0 ∧ h.refs p true = 0 then 1 else 0

theorem refs_modify (h : PipeHeap) (p : ℕ) (f : Pipe → Pipe) (q : ℕ) (writeEnd : Bool) :
    (h.modify p f).refs q writeEnd =
      if q = p then (f (h.cells p).pipe).endRefs writeEnd else h.refs q writeEnd := by
  unfold refs modify
  by_cases hq : q = p
  · simp [hq]
  · simp [hq]

theorem frees_modify (h : PipeHeap) (p : ℕ) (f : Pipe → Pipe) (q : ℕ) :
    ((h.modify p f).cells q).frees = (h.cells q).frees := by
  unfold modify
  by_cases hq : q = p
  · simp [hq]
  · simp [hq]

variable {h : PipeHeap} {p : ℕ}

/-- A change that leaves both counts alone, such as a read or a write. -/
theorem Sound.modify (hs : h.Sound) {f : Pipe → Pipe}
    (hf : ∀ q writeEnd, (f q).endRefs writeEnd = q.endRefs writeEnd) :
    (h.modify p f).Sound ∧ ∀ q writeEnd, (h.modify p f).refs q writeEnd = h.refs q writeEnd := by
  have hrefs : ∀ q writeEnd, (h.modify p f).refs q writeEnd = h.refs q writeEnd := by
    intro q writeEnd
    rw [refs_modify]
    split
    · rename_i hq
      rw [hf, hq, refs]
    · rfl
  refine ⟨⟨fun q w => ?_, fun q w => ?_, fun q => ?_⟩, hrefs⟩
  · rw [hrefs]
    exact hs.nonneg q w
  · rw [hrefs]
    exact hs.fits q w
  · rw [frees_modify, hrefs, hrefs]
    exact hs.frees_eq q

/-- The effect of one more reference to one end. -/
theorem Sound.bump (hs : h.Sound) {writeEnd : Bool}
    (hpos : 0 < h.refs p writeEnd) (hfit : h.refs p writeEnd + 1 ≤ 2 ^ 31 - 1) :
    (h.bump p writeEnd).Sound ∧ ∀ q w, (h.bump p writeEnd).refs q w =
      h.refs q w + if q = p ∧ w = writeEnd then 1 else 0 := by
  have hrefs : ∀ q w, (h.bump p writeEnd).refs q w =
      h.refs q w + if q = p ∧ w = writeEnd then 1 else 0 := by
    intro q w
    have hwrap := wrapI32_of_fits (by omega) hfit
    rw [PipeHeap.bump, refs_modify]
    by_cases hq : q = p
    · subst hq
      cases writeEnd <;> cases w <;> simp_all [Pipe.endRefs, refs]
    · simp [hq]
  refine ⟨⟨fun q w => ?_, fun q w => ?_, fun q => ?_⟩, hrefs⟩
  · have := hs.nonneg q w
    rw [hrefs]
    split <;> omega
  · have := hs.fits q w
    rw [hrefs]
    split
    · rename_i hq
      rwa [hq.1, hq.2]
    · omega
  · have hfrees := hs.frees_eq q
    have h0 := hs.nonneg q false
    have h1 := hs.nonneg q true
    rw [PipeHeap.bump, frees_modify, ← PipeHeap.bump, hfrees, hrefs, hrefs]
    by_cases hq : q = p
    · subst hq
      cases writeEnd <;> simp <;> rw [if_neg (by omega), if_neg (by omega)]
    · simp [hq]

/-- The effect of dropping a reference to one end: its count goes down, and the pipe is freed if
that was the last one. -/
theorem Sound.close (hs : h.Sound) {writeEnd : Bool}
    (hpos : 0 < h.refs p writeEnd) :
    (h.close p writeEnd).Sound ∧ ∀ q w, (h.close p writeEnd).refs q w =
      h.refs q w - if q = p ∧ w = writeEnd then 1 else 0 := by
  have hfit := hs.fits p writeEnd
  have hwrap : wrapI32 (h.refs p writeEnd - 1) = h.refs p writeEnd - 1 :=
    wrapI32_of_fits (by omega) (by omega)
  set h₁ := h.modify p fun q =>
    if writeEnd then { q with writeRefs := wrapI32 (q.writeRefs - 1) }
    else { q with readRefs := wrapI32 (q.readRefs - 1) } with hh₁
  have hrefs₁ : ∀ q w, h₁.refs q w = h.refs q w - if q = p ∧ w = writeEnd then 1 else 0 := by
    intro q w
    rw [hh₁, refs_modify]
    by_cases hq : q = p
    · subst hq
      cases writeEnd <;> cases w <;> simp_all [Pipe.endRefs, refs]
    · simp [hq]
  have hclose : h.close p writeEnd = h₁.freeIfUnused p := rfl
  have hrefs : ∀ q w, (h.close p writeEnd).refs q w = h₁.refs q w := by
    intro q w
    rw [hclose, freeIfUnused]
    split
    · by_cases hq : q = p <;> simp [refs, hq]
    · rfl
  have hfrees : ∀ q, ((h.close p writeEnd).cells q).frees = (h.cells q).frees +
      if q = p ∧ h₁.refs p false = 0 ∧ h₁.refs p true = 0 then 1 else 0 := by
    intro q
    have hsame : (h₁.cells q).frees = (h.cells q).frees := h.frees_modify p _ q
    rw [hclose, freeIfUnused]
    split
    · rename_i hzero
      by_cases hq : q = p
      · subst hq
        simp [hsame, refs, Pipe.endRefs, hzero]
      · simp [hq, hsame]
    · rename_i hzero
      rw [if_neg (fun hc => hzero hc.2), hsame, Nat.add_zero]
  refine ⟨⟨fun q w => ?_, fun q w => ?_, fun q => ?_⟩, fun q w => (hrefs q w).trans (hrefs₁ q w)⟩
  · have := hs.nonneg q w
    rw [hrefs, hrefs₁]
    split
    · rename_i hq
      rw [hq.1, hq.2]
      omega
    · omega
  · have := hs.fits q w
    rw [hrefs, hrefs₁]
    split <;> omega
  · rw [hfrees, hrefs, hrefs, hs.frees_eq q]
    by_cases hq : q = p
    · subst hq
      have hnot : ¬(h.refs q false = 0 ∧ h.refs q true = 0) := by
        rintro ⟨h0, h1⟩
        cases writeEnd <;> omega
      rw [if_neg hnot]
      simp
    · simp [hq, hrefs₁]

@[simp] theorem bump_next (h : PipeHeap) (p : ℕ) (w : Bool) : (h.bump p w).next = h.next := rfl

@[simp] theorem freeIfUnused_next (h : PipeHeap) (p : ℕ) : (h.freeIfUnused p).next = h.next := by
  unfold freeIfUnused
  split <;> rfl

@[simp] theorem close_next (h : PipeHeap) (p : ℕ) (w : Bool) : (h.close p w).next = h.next :=
  freeIfUnused_next _ p

@[simp] theorem closeFile_next (h : PipeHeap) (f : OpenFile) : (h.closeFile f).next = h.next := by
  cases f <;> simp [PipeHeap.closeFile]

@[simp] theorem closeOpt_next (h : PipeHeap) (p : Option ℕ) (w : Bool) :
    (h.closeOpt p w).next = h.next := by
  cases p <;> simp [PipeHeap.closeOpt]

@[simp] theorem bumpOpt_next (h : PipeHeap) (p : Option ℕ) (w : Bool) :
    (h.bumpOpt p w).next = h.next := by
  cases p <;> simp [PipeHeap.bumpOpt]

@[simp] theorem bumpTask_next (h : PipeHeap) (t : Usertask) : (h.bumpTask t).next = h.next := by
  have hfold : ∀ (l : List (Fin maxOpenFiles)) (h : PipeHeap),
      (l.foldl (fun h j => h.bumpFile (t.openFiles j)) h).next = h.next := by
    intro l
    induction l with
    | nil => exact fun _ => rfl
    | cons j l ih =>
      intro h
      rw [List.foldl_cons, ih]
      cases t.openFiles j <;> rfl
  simp [PipeHeap.bumpTask, hfold]

/-- `close` for an entry of the table of open files. -/
theorem Sound.closeFile (hs : h.Sound) {f : OpenFile}
    (hpos : ∀ p w, f = .pipe p w → 0 < h.refs p w) :
    (h.closeFile f).Sound ∧ ∀ p w, (h.closeFile f).refs p w = h.refs p w - f.refs p w := by
  cases f with
  | free | file => exact ⟨hs, fun p w => by simp [PipeHeap.closeFile, OpenFile.refs]⟩
  | pipe q e =>
    obtain ⟨hsound, hrefs⟩ := hs.close (hpos q e rfl)
    refine ⟨hsound, fun p w => (hrefs p w).trans ?_⟩
    simp [OpenFile.refs, eq_comm]

/-- `close` for a pipe that may be null. -/
theorem Sound.closeOpt (hs : h.Sound) (p : Option ℕ) (writeEnd : Bool)
    (hpos : ∀ q, p = some q → 0 < h.refs q writeEnd) :
    (h.closeOpt p writeEnd).Sound ∧ ∀ q w, (h.closeOpt p writeEnd).refs q w =
      h.refs q w - if p = some q ∧ w = writeEnd then 1 else 0 := by
  cases p with
  | none => exact ⟨hs, fun q w => by simp [PipeHeap.closeOpt]⟩
  | some p =>
    obtain ⟨hsound, hrefs⟩ := hs.close (hpos p rfl)
    refine ⟨hsound, fun q w => (hrefs q w).trans ?_⟩
    simp [eq_comm]

/-- `bump` for a pipe that may be null. -/
theorem Sound.bumpOpt (hs : h.Sound) (p : Option ℕ) (writeEnd : Bool)
    (hpos : ∀ q, p = some q → 0 < h.refs q writeEnd)
    (hfit : ∀ q, p = some q → h.refs q writeEnd + 1 ≤ 2 ^ 31 - 1) :
    (h.bumpOpt p writeEnd).Sound ∧ ∀ q w, (h.bumpOpt p writeEnd).refs q w =
      h.refs q w + if p = some q ∧ w = writeEnd then 1 else 0 := by
  cases p with
  | none => exact ⟨hs, fun q w => by simp [PipeHeap.bumpOpt]⟩
  | some p =>
    obtain ⟨hsound, hrefs⟩ := hs.bump (hpos p rfl) (hfit p rfl)
    refine ⟨hsound, fun q w => (hrefs q w).trans ?_⟩
    simp [eq_comm]

/-- The references among some entries of a table of open files. -/
def listRefs (t : Usertask) (l : List (Fin maxOpenFiles)) (p : ℕ) (writeEnd : Bool) : ℕ :=
  (l.map fun j => (t.openFiles j).refs p writeEnd).sum

theorem listRefs_finRange (t : Usertask) (p : ℕ) (writeEnd : Bool) :
    listRefs t (List.finRange maxOpenFiles) p writeEnd = t.openRefs p writeEnd := by
  rw [Usertask.openRefs, tally, Fin.sum_univ_def, listRefs]

/-- `bump` for an entry of the table of open files. -/
theorem Sound.bumpFile (hs : h.Sound) {f : OpenFile}
    (hpos : ∀ p w, 0 < f.refs p w → 0 < h.refs p w)
    (hfit : ∀ p w, h.refs p w + f.refs p w ≤ 2 ^ 31 - 1) :
    (h.bumpFile f).Sound ∧ ∀ p w, (h.bumpFile f).refs p w = h.refs p w + f.refs p w := by
  cases f with
  | free | file => exact ⟨hs, fun p w => by simp [PipeHeap.bumpFile, OpenFile.refs]⟩
  | pipe q e =>
    have hone : OpenFile.refs q e (.pipe q e) = 1 := if_pos rfl
    have hfitq := hfit q e
    rw [hone] at hfitq
    obtain ⟨hsound, hrefs⟩ := hs.bump (hpos q e (by omega)) hfitq
    refine ⟨hsound, fun p w => (hrefs p w).trans ?_⟩
    simp [OpenFile.refs, eq_comm]

/-- The loop of `fork` over the open files counts each pipe entry once. -/
theorem Sound.bumpFiles (t : Usertask) (l : List (Fin maxOpenFiles)) (hs : h.Sound)
    (hpos : ∀ p w, 0 < listRefs t l p w → 0 < h.refs p w)
    (hfit : ∀ p w, h.refs p w + listRefs t l p w ≤ 2 ^ 31 - 1) :
    let h' := l.foldl (fun h j => h.bumpFile (t.openFiles j)) h
    h'.Sound ∧ ∀ p w, h'.refs p w = h.refs p w + listRefs t l p w := by
  induction l generalizing h with
  | nil => exact ⟨hs, fun p w => by simp [listRefs]⟩
  | cons j l ih =>
    have hcons : ∀ p w, listRefs t (j :: l) p w =
        (t.openFiles j).refs p w + listRefs t l p w := fun p w => by simp [listRefs]
    simp only [hcons] at hpos hfit
    obtain ⟨hsound, hbump⟩ := hs.bumpFile (f := t.openFiles j)
      (fun p w hp => hpos p w (by omega))
      (fun p w => by have := hfit p w; omega)
    obtain ⟨hsound', hfold⟩ := ih hsound
      (fun p w hp => by have := hpos p w (by omega); rw [hbump]; omega)
      (fun p w => by have := hfit p w; rw [hbump]; push_cast at this; omega)
    refine ⟨hsound', fun p w => ?_⟩
    rw [List.foldl_cons, hfold, hbump, hcons]
    push_cast
    ring

/-- `fork` counts every reference of the copied task once. -/
theorem Sound.bumpTask (hs : h.Sound) (t : Usertask)
    (hcov : ∀ p w, (t.refs p w : ℤ) ≤ h.refs p w)
    (hfit : ∀ p w, h.refs p w + t.refs p w ≤ 2 ^ 31 - 1) :
    (h.bumpTask t).Sound ∧ ∀ p w, (h.bumpTask t).refs p w = h.refs p w + t.refs p w := by
  have hstdin : ∀ q, t.stdinPipe = some q → t.refs q false = t.openRefs q false + 1 := by
    intro q hq
    simp [Usertask.refs, Usertask.stdioRefs, hq]
  have hstdout : ∀ q, t.stdoutPipe = some q → t.refs q true = t.openRefs q true + 1 := by
    intro q hq
    simp [Usertask.refs, Usertask.stdioRefs, hq]
  have hopen : ∀ p w, t.openRefs p w ≤ t.refs p w := fun p w => Nat.le_add_right _ _
  obtain ⟨hsound₁, hrefs₁⟩ := Sound.bumpFiles t (List.finRange maxOpenFiles) hs
    (fun p w hp => by
      rw [listRefs_finRange] at hp
      have := hcov p w
      have := hopen p w
      omega)
    (fun p w => by
      rw [listRefs_finRange]
      have := hfit p w
      have := hopen p w
      omega)
  simp only [listRefs_finRange] at hrefs₁
  obtain ⟨hsound₂, hrefs₂⟩ := hsound₁.bumpOpt t.stdinPipe false
    (fun q hq => by
      have := hcov q false
      have := hstdin q hq
      rw [hrefs₁]
      omega)
    (fun q hq => by
      have := hfit q false
      have := hstdin q hq
      rw [hrefs₁]
      omega)
  obtain ⟨hsound₃, hrefs₃⟩ := hsound₂.bumpOpt t.stdoutPipe true
    (fun q hq => by
      have := hcov q true
      have := hstdout q hq
      rw [hrefs₂, hrefs₁]
      simp
      omega)
    (fun q hq => by
      have := hfit q true
      have := hstdout q hq
      rw [hrefs₂, hrefs₁]
      simp
      omega)
  refine ⟨hsound₃, fun p w => ?_⟩
  have heq : (h.bumpTask t).refs p w = _ := hrefs₃ p w
  rw [heq, hrefs₂, hrefs₁, Usertask.refs, Usertask.stdioRefs]
  cases w <;> simp <;> ring

/-- A new pipe has one reference to each end. -/
theorem Sound.create (hs : h.Sound) :
    h.create.Sound ∧ ∀ p w, h.create.refs p w = if p = h.next then 1 else h.refs p w := by
  have hrefs : ∀ p w, h.create.refs p w = if p = h.next then 1 else h.refs p w := by
    intro p w
    by_cases hp : p = h.next
    · cases w <;> simp [refs, PipeHeap.create, hp, Pipe.create, Pipe.endRefs]
    · simp [refs, PipeHeap.create, hp]
  refine ⟨⟨fun p w => ?_, fun p w => ?_, fun p => ?_⟩, hrefs⟩
  · have := hs.nonneg p w
    rw [hrefs]
    split <;> omega
  · have := hs.fits p w
    rw [hrefs]
    split <;> omega
  · rw [hrefs, hrefs]
    by_cases hp : p = h.next
    · simp [PipeHeap.create, hp]
    · simp [PipeHeap.create, hp, hs.frees_eq p]

end PipeHeap

end AnssOS
