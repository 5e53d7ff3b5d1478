import Mathlib

/-!
# Strings as characters and as bytes

A string is the list of its characters; `utf8Bytes` is its encoding, `fromUtf8` decodes, and
`floorChars` cuts a string to a number of bytes without cutting a character.
-/

namespace AnssOS

open List Option

/-- A string, as the list of its characters. -/
abbrev Text := List Char

/-- The bytes of a string. -/
def utf8Bytes (s : Text) : List UInt8 := s.flatMap String.utf8EncodeChar

@[simp] theorem utf8Bytes_nil : utf8Bytes [] = [] := rfl

@[simp] theorem utf8Bytes_cons (c : Char) (s : Text) :
    utf8Bytes (c :: s) = String.utf8EncodeChar c ++ utf8Bytes s := rfl

/-! ### Cutting -/

/-- The longest beginning of a string that has at most `n` bytes. -/
def floorChars : ℕ → Text → Text
  | _, [] => []
  | n, c :: s => if c.utf8Size ≤ n then c :: floorChars (n - c.utf8Size) s else []

theorem length_floorChars_le (n : ℕ) (s : Text) : (utf8Bytes (floorChars n s)).length ≤ n := by
  induction s generalizing n with
  | nil => simp [floorChars]
  | cons c s ih =>
    rw [floorChars]
    split
    · rename_i hc
      have := ih (n - c.utf8Size)
      rw [utf8Bytes_cons, length_append, String.length_utf8EncodeChar]
      omega
    · simp

theorem floorChars_of_le {n : ℕ} {s : Text} (h : (utf8Bytes s).length ≤ n) :
    floorChars n s = s := by
  induction s generalizing n with
  | nil => rfl
  | cons c s ih =>
    rw [utf8Bytes_cons, length_append, String.length_utf8EncodeChar] at h
    rw [floorChars, if_pos (by omega), ih (by omega)]

theorem mem_of_mem_floorChars {n : ℕ} {s : Text} {c : Char} (h : c ∈ floorChars n s) : c ∈ s := by
  induction s generalizing n with
  | nil => exact h
  | cons d s ih =>
    rw [floorChars] at h
    split at h
    · rcases mem_cons.mp h with rfl | h
      · exact mem_cons_self
      · exact mem_cons_of_mem d (ih h)
    · cases h

/-! ### Decoding -/

/-- The characters of at most `n` characters' worth of bytes. -/
def fromUtf8Go : ℕ → List UInt8 → Option Text
  | _, [] => some []
  | 0, _ => none
  | n + 1, bs =>
      match bs.toByteArray.utf8DecodeChar? 0 with
      | none => none
      | some c => (fromUtf8Go n (bs.drop c.utf8Size)).map (c :: ·)

/-- `str::from_utf8`: the string that the bytes encode, if they are valid UTF-8. -/
def fromUtf8 (bs : List UInt8) : Option Text := fromUtf8Go bs.length bs

theorem fromUtf8Go_append (n : ℕ) (c : Char) (bs : List UInt8) :
    fromUtf8Go (n + 1) (String.utf8EncodeChar c ++ bs) = (fromUtf8Go n bs).map (c :: ·) := by
  have hne : String.utf8EncodeChar c ++ bs ≠ [] := by simp [String.utf8EncodeChar_ne_nil]
  obtain ⟨b, l, hcons⟩ := exists_cons_of_ne_nil hne
  have hdecode : (String.utf8EncodeChar c ++ bs).toByteArray.utf8DecodeChar? 0 = some c := by
    rw [toByteArray_append]
    exact ByteArray.utf8DecodeChar?_utf8EncodeChar_append
  have hdrop : (String.utf8EncodeChar c ++ bs).drop c.utf8Size = bs := by
    rw [← String.length_utf8EncodeChar, drop_left]
  rw [hcons] at hdecode hdrop ⊢
  rw [fromUtf8Go, hdecode]
  · dsimp only
    rw [hdrop]
  · simp

theorem fromUtf8Go_utf8Bytes {n : ℕ} {s : Text} (h : s.length ≤ n) :
    fromUtf8Go n (utf8Bytes s) = some s := by
  induction s generalizing n with
  | nil => cases n <;> rfl
  | cons c s ih =>
    obtain ⟨n, rfl⟩ : ∃ k, n = k + 1 := ⟨n - 1, by simp at h; omega⟩
    rw [utf8Bytes_cons, fromUtf8Go_append, ih (by simpa using h)]
    rfl

theorem utf8Bytes_of_fromUtf8Go {n : ℕ} {bs : List UInt8} {s : Text}
    (h : fromUtf8Go n bs = some s) : utf8Bytes s = bs := by
  induction n generalizing bs s with
  | zero =>
    cases bs with
    | nil =>
      obtain rfl : [] = s := some.inj h
      rfl
    | cons b bs => cases h
  | succ n ih =>
    cases bs with
    | nil =>
      obtain rfl : [] = s := some.inj h
      rfl
    | cons b bs =>
      unfold fromUtf8Go at h
      split at h
      · cases h
      · rename_i c hdecode
        -- the bytes begin with those of the character
        obtain ⟨t, ht, rfl⟩ := map_eq_some_iff.mp h
        obtain ⟨l, hl⟩ := ByteArray.exists_of_utf8DecodeChar?_eq_some hdecode
        have hlist : b :: bs = String.utf8EncodeChar c ++ l.data.toList := by
          apply toByteArray_inj.mp
          rw [hl, toByteArray_append]
          congr 1
          ext1
          rw [data_toByteArray, Array.toArray_toList]
        rw [utf8Bytes_cons, ih ht, hlist, ← String.length_utf8EncodeChar, drop_left]

theorem length_le_length_utf8Bytes (s : Text) : s.length ≤ (utf8Bytes s).length := by
  induction s with
  | nil => simp
  | cons c s ih =>
    have := c.utf8Size_pos
    rw [utf8Bytes_cons, length_append, String.length_utf8EncodeChar, length_cons]
    omega

/-- Decoding is exactly the inverse of encoding. -/
theorem fromUtf8_eq_some_iff {bs : List UInt8} {s : Text} :
    fromUtf8 bs = some s ↔ utf8Bytes s = bs := by
  constructor
  · exact utf8Bytes_of_fromUtf8Go
  · rintro rfl
    exact fromUtf8Go_utf8Bytes (length_le_length_utf8Bytes s)

end AnssOS
