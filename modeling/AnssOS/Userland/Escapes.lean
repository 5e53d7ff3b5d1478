import AnssOS.Userland.Scarf

/-!
# The escape sequences of the shell and of the editor

`escape` of the shell and `read_escape` of the editor decode what the keyboard sends after an ESC.
Both read the digits of a number and then one more byte, but the shell also passes over `;`.

### Outline

* `escape`, `readEscape` and `keystrokes`, the keys of a stream of bytes;
* `Input`: characters and whole control sequences;
* `escapes_decoded_alike_iff`: both programs see one and the same key for each sequence if and only
  if the sequences have no other parameters than digits.
-/

namespace AnssOS

open List Scarf

/-! ### The decoders -/

def isDigit (b : UInt8) : Bool := decide (48 ≤ b ∧ b ≤ 57)

/-- `num.saturating_mul(10).saturating_add(..)`. -/
def addKeyDigit (num : ℕ) (b : UInt8) : ℕ := min (min (num * 10) 65535 + (b.toNat - 48)) 65535

/-- The key that a sequence with this number and this last byte stands for, if it is one in use. -/
def keyOf (num : ℕ) (b : UInt8) : Option Special :=
  if b = 65 then some .up
  else if b = 66 then some .down
  else if b = 67 then some .right
  else if b = 68 then some .left
  else if b = 72 then some .home
  else if b = 70 then some .end_
  else if b = 126 then
    if num = 1 ∨ num = 7 then some .home
    else if num = 4 ∨ num = 8 then some .end_
    else if num = 3 then some .delete
    else none
  else none

/-- The loop of both decoders; `skips` is what it passes over. -/
def keyLoop (skips : UInt8 → Bool) (num : ℕ) : List UInt8 → Option Special × List UInt8
  | [] => (none, [])
  | b :: rest =>
      if isDigit b then keyLoop skips (addKeyDigit num b) rest
      else if skips b then keyLoop skips num rest
      else (keyOf num b, rest)

/-- What a decoder makes of the bytes after an ESC: no sequence, or its key, and the bytes left. -/
abbrev Decoder := List UInt8 → Option (Option Special) × List UInt8

def afterEsc (skips : UInt8 → Bool) : Decoder
  | [] => (none, [])
  | b :: rest =>
      if b = 91 ∨ b = 79 then (keyLoop skips 0 rest).map some id else (none, rest)

/-- `escape` of the shell. -/
def escape : Decoder := afterEsc (· = 59)

/-- `read_escape` of the editor. -/
def readEscape : Decoder := afterEsc fun _ => false

inductive Keystroke
  | byte (b : UInt8)
  | escape (key : Option (Option Special))

/-- The keystrokes of a stream all of whose bytes are there, at most `n` of them. -/
def keystrokes (escape : Decoder) : ℕ → List UInt8 → List Keystroke
  | 0, _ | _, [] => []
  | n + 1, b :: rest =>
      if b = 27 then .escape (escape rest).1 :: keystrokes escape n (escape rest).2
      else .byte b :: keystrokes escape n rest

/-! ### Streams -/

abbrev ByteIn (low high : UInt8) := {b : UInt8 // low ≤ b ∧ b ≤ high}

/-- A character, or a control sequence: parameters, intermediate bytes and a last one. -/
inductive Input
  | char (b : {b : UInt8 // 32 ≤ b ∧ b ≠ 127})
  | csi (params : List (ByteIn 48 63)) (intermediates : List (ByteIn 32 47)) (last : ByteIn 64 126)

namespace Input

/-- The bytes before the last one. -/
def body (params : List (ByteIn 48 63)) (intermediates : List (ByteIn 32 47)) : List UInt8 :=
  params.map Subtype.val ++ intermediates.map Subtype.val

def bytes : Input → List UInt8
  | char b => [b.val]
  | csi params intermediates last => 27 :: 91 :: (body params intermediates ++ [last.val])

/-- The keystroke is the character, or that of a sequence. -/
def Matches : Input → Keystroke → Prop
  | char b, k => k = .byte b.val
  | csi _ _ _, k => ∃ key, k = .escape (some key)

/-- A sequence has digits only before its last byte. -/
def Plain : Input → Prop
  | char _ => True
  | csi params intermediates _ => ∀ b ∈ body params intermediates, isDigit b = true

/-- The keystrokes of a stream. -/
def decoded (escape : Decoder) (items : List Input) : List Keystroke :=
  keystrokes escape (items.flatMap bytes).length (items.flatMap bytes)

end Input

/-! ### What the loop reads -/

variable {skips : UInt8 → Bool} {num : ℕ} {last : UInt8} {middle rest : List UInt8}

/-- Digits, and a last byte. -/
theorem keyLoop_of_digits (hdigits : ∀ b ∈ middle, isDigit b = true) (hlast : isDigit last = false)
    (hskips : skips last = false) : keyLoop skips num (middle ++ last :: rest) =
      (keyOf (middle.foldl addKeyDigit num) last, rest) := by
  induction middle generalizing num with
  | nil => simp [keyLoop, hlast, hskips]
  | cons b middle ih =>
    obtain ⟨hb, hdigits⟩ := forall_mem_cons.mp hdigits
    rw [cons_append, keyLoop, if_pos hb, ih hdigits, foldl_cons]

/-- The editor stops at a byte that is not a digit, and something is left of the sequence. -/
theorem keyLoop_of_other (hother : ¬ ∀ b ∈ middle, isDigit b = true) : ∃ key left, left ≠ [] ∧
    left <:+ middle ++ [last] ∧
    keyLoop (fun _ => false) num (middle ++ last :: rest) = (key, left ++ rest) := by
  induction middle generalizing num with
  | nil => simp at hother
  | cons b middle ih =>
    by_cases hb : isDigit b = true
    · obtain ⟨key, left, hne, hleft, heq⟩ := ih fun h => hother (forall_mem_cons.mpr ⟨hb, h⟩)
      refine ⟨key, left, hne, hleft.trans (suffix_cons b _), ?_⟩
      rw [cons_append, keyLoop, if_pos hb, heq]
    · refine ⟨keyOf num b, middle ++ [last], by simp, suffix_cons b _, ?_⟩
      rw [cons_append, keyLoop, if_neg hb, if_neg Bool.false_ne_true, append_assoc]
      rfl

/-- Bytes other than ESC. -/
theorem keystrokes_append {e : Decoder} {n : ℕ}
    {left : List UInt8} (hleft : ∀ b ∈ left, b ≠ 27) (hn : left.length ≤ n) :
    keystrokes e n (left ++ rest) = left.map .byte ++ keystrokes e (n - left.length) rest := by
  induction left generalizing n with
  | nil => rfl
  | cons b left ih =>
    obtain ⟨hb, hleft⟩ := forall_mem_cons.mp hleft
    obtain ⟨n, rfl⟩ : ∃ k, n = k + 1 := ⟨n - 1, by simp at hn; omega⟩
    rw [cons_append, keystrokes, if_neg hb, ih hleft (by simpa using hn)]
    simp

namespace Input

variable {x : Input} {items : List Input} {n : ℕ}

theorem ne_of_byteIn {low high b : UInt8} (x : ByteIn low high) (hb : b < low ∨ high < b) :
    x.val ≠ b := by
  rintro rfl
  exact hb.elim (UInt8.not_lt.mpr x.prop.1) (UInt8.not_lt.mpr x.prop.2)

theorem ne_esc_of_mem {params intermediates} {last : ByteIn 64 126} {b : UInt8}
    (hb : b ∈ body params intermediates ++ [last.val]) : b ≠ 27 := by
  simp only [body, mem_append, mem_map, mem_singleton] at hb
  obtain (⟨x, -, rfl⟩ | ⟨x, -, rfl⟩) | rfl := hb <;> exact ne_of_byteIn _ (by decide)

/-- A plain item is one keystroke, and the same for both programs. -/
theorem keystrokes_of_plain (hx : x.Plain) : ∃ k, x.Matches k ∧ ∀ e ∈ [escape, readEscape],
    keystrokes e (n + 1) (x.bytes ++ rest) = k :: keystrokes e n rest := by
  cases x with
  | char b =>
    have hb : b.val ≠ 27 := fun h => absurd b.prop.1 (by rw [h]; decide)
    exact ⟨_, rfl, fun e _ => if_neg hb⟩
  | csi params intermediates last =>
    have hdigit : isDigit last.val = false :=
      decide_eq_false fun h => absurd (UInt8.le_trans last.prop.1 h.2) (by decide)
    have hsemi : last.val ≠ 59 := ne_of_byteIn last (by decide)
    refine ⟨_, ⟨keyOf ((body params intermediates).foldl addKeyDigit 0) last.val, rfl⟩, ?_⟩
    simp [bytes, keystrokes, escape, readEscape, afterEsc, keyLoop_of_digits hx hdigit, hsemi]

/-- The editor has a keystroke for every item, and more if one is not plain. -/
theorem alike_iff (hn : (items.flatMap bytes).length ≤ n) :
    items.length ≤ (keystrokes readEscape n (items.flatMap bytes)).length ∧
    (Forall₂ Matches items (keystrokes escape n (items.flatMap bytes)) ∧
      keystrokes escape n (items.flatMap bytes) = keystrokes readEscape n (items.flatMap bytes) ↔
        ∀ x ∈ items, x.Plain) := by
  induction items generalizing n with
  | nil => cases n <;> simp [keystrokes]
  | cons x items ih =>
    have hpos : 0 < x.bytes.length := by cases x <;> simp [bytes]
    rw [flatMap_cons, length_append] at hn
    rw [flatMap_cons]
    obtain ⟨n, rfl⟩ : ∃ k, n = k + 1 := ⟨n - 1, by omega⟩
    by_cases hx : x.Plain
    · obtain ⟨k, hmatches, hk⟩ := @keystrokes_of_plain (items.flatMap bytes) x n hx
      rw [hk escape (by simp), hk readEscape (by simp)]
      simpa [hx, hmatches] using @ih n (by omega)
    · cases x with
      | char b => exact absurd trivial hx
      | csi params intermediates last =>
        obtain ⟨key, left, hne, hleft, heq⟩ := @keyLoop_of_other 0 last.val _
          (items.flatMap bytes) hx
        have hlen : left.length < (csi params intermediates last).bytes.length := by
          have hle := hleft.length_le
          simp [bytes] at hle ⊢
          omega
        -- what is left of the sequence is at least one keystroke more
        have hrun : items.length + 1 < (keystrokes readEscape (n + 1)
            ((csi params intermediates last).bytes ++ items.flatMap bytes)).length := by
          have hle := (@ih (n - left.length) (by omega)).1
          have happend := @keystrokes_append (items.flatMap bytes) readEscape n left
            (fun b hb => ne_esc_of_mem (hleft.subset hb)) (by omega)
          have := length_pos_iff.mpr hne
          rw [readEscape] at happend hle ⊢
          simp [bytes, keystrokes, afterEsc, heq, happend]
          omega
        refine ⟨hrun.le, iff_of_false ?_ fun h => hx (h _ mem_cons_self)⟩
        rintro ⟨hmatches, halike⟩
        rw [← halike, ← hmatches.length_eq] at hrun
        exact absurd hrun (lt_irrefl _)

/-- Both programs take every item for one keystroke, and for the same one. -/
theorem escapes_decoded_alike_iff (items : List Input) :
    (Forall₂ Matches items (decoded escape items) ∧ decoded escape items = decoded readEscape items)
      ↔ ∀ x ∈ items, x.Plain :=
  (alike_iff le_rfl).2

/-- `ESC [ 1 ; 5 C`, which a terminal sends for Ctrl-Right: the shell moves right, and the editor
types `5C`. -/
theorem ctrl_right_types_in_editor :
    let items := [csi [⟨49, by decide⟩, ⟨59, by decide⟩, ⟨53, by decide⟩] [] ⟨67, by decide⟩]
    decoded escape items = [.escape (some (some .right))] ∧
      decoded readEscape items = [.escape (some none), .byte 53, .byte 67] := by
  exact ⟨rfl, rfl⟩

end Input

end AnssOS
