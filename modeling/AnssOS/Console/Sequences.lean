import AnssOS.Console.Fbconsole

/-!
# Whole sequences on the console

What the console does with a control sequence that is written at once, and with the UTF-8 encoding of
a character.

### Outline

* `decimal`: a number as it is printed, and how the console reads it;
* `csiSequence`: a control sequence with parameters, and `Console.write_csiSequence`;
* `Console.write_utf8EncodeChar`: every character that is not a control character is drawn.
-/

namespace AnssOS

open List Function

/-! ### Numbers -/

/-- The byte of a digit. -/
def digitByte (d : ℕ) : UInt8 := UInt8.ofNat ('0'.toNat + d)

/-- The digits of a number, the first one first. -/
def decimalDigits (n : ℕ) : List ℕ := if n = 0 then [0] else (Nat.digits 10 n).reverse

/-- A number as `write!` prints it. -/
def decimal (n : ℕ) : List UInt8 := (decimalDigits n).map digitByte

theorem csiByte_digitByte {d : ℕ} (hd : d < 10) : csiByte (digitByte d) = .digit d := by
  interval_cases d <;> rfl

theorem lt_of_mem_decimalDigits {n d : ℕ} (h : d ∈ decimalDigits n) : d < 10 := by
  unfold decimalDigits at h
  split at h
  · rw [mem_singleton] at h
    omega
  · exact Nat.digits_lt_base (by decide) (mem_reverse.mp h)

theorem decimalDigits_ne_nil (n : ℕ) : decimalDigits n ≠ [] := by
  unfold decimalDigits
  split
  · exact cons_ne_nil 0 []
  · rename_i hn
    rw [ne_eq, reverse_eq_nil_iff]
    exact Nat.digits_ne_nil_iff_ne_zero.mpr hn

/-- The console adds a digit to a parameter. -/
def addDigit (p d : ℕ) : ℕ := (p * 10 + d) % 2 ^ 32

theorem foldr_addDigit (ds : List ℕ) :
    ds.foldr (fun d p => addDigit p d) 0 = Nat.ofDigits 10 ds % 2 ^ 32 := by
  induction ds with
  | nil => rfl
  | cons d ds ih =>
    rw [foldr_cons, ih, Nat.ofDigits_cons, addDigit]
    push_cast
    omega

theorem foldl_decimalDigits {n : ℕ} (hn : n < 2 ^ 32) : (decimalDigits n).foldl addDigit 0 = n := by
  unfold decimalDigits
  split
  · rename_i hzero
    subst hzero
    rfl
  · rw [foldl_reverse, foldr_addDigit, Nat.ofDigits_digits, Nat.mod_eq_of_lt hn]

/-! ### Control sequences -/

theorem getD_snoc (ps : List ℕ) (p i : ℕ) :
    (ps ++ [p]).getD i 0 = if i = ps.length then p else ps.getD i 0 := by
  rcases Nat.lt_trichotomy i ps.length with hi | rfl | hi
  · rw [if_neg hi.ne, getD_append _ _ _ _ hi]
  · rw [if_pos rfl, getD_append_right _ _ _ _ le_rfl, Nat.sub_self]
    rfl
  · rw [if_neg hi.ne', getD_eq_default _ _ hi.le, getD_eq_default]
    rw [length_append]
    exact hi

/-- A new value for the last parameter. -/
theorem update_getD_snoc (ps : List ℕ) (p q : ℕ) :
    Function.update (fun i => (ps ++ [p]).getD i 0) ps.length q = fun i => (ps ++ [q]).getD i 0 := by
  funext i
  rw [update_apply, getD_snoc, getD_snoc]
  split <;> rfl

/-- A parameter that is omitted is 0. -/
theorem getD_snoc_zero (ps : List ℕ) : (fun i => (ps ++ [0]).getD i 0) = fun i => ps.getD i 0 := by
  funext i
  rw [getD_snoc]
  split
  · rename_i hi
    rw [getD_eq_default _ _ hi.ge]
  · rfl

/-- A control sequence with the parameters `p` and `ps`. -/
def csiSequence (p : ℕ) (ps : List ℕ) (fin : UInt8) : List UInt8 :=
  [escByte, '['.toUInt8] ++ decimal p ++ ps.flatMap (fun q => ';'.toUInt8 :: decimal q) ++ [fin]

namespace Console

variable {S : Type*} [Screen S]

/-- Nothing is pending. -/
def Idle (c : Console S) : Prop := c.parse = .normal ∧ c.utf8Need = 0

/-- The console after the parameters of a control sequence. -/
def withParams (c : Console S) (ps : List ℕ) : Console S :=
  { c with parse := .csi, csiPrivate := false, nparams := ps.length, params := fun i => ps.getD i 0 }

theorem write_append (c : Console S) (bs bs' : List UInt8) :
    c.write (bs ++ bs') = (c.write bs).write bs' :=
  foldl_append

variable {c : Console S} {n : ℕ} {ps : List ℕ}

theorem putc_of_normal (hparse : c.parse = .normal) (b : UInt8) :
    c.putc b = c.putNormal b := by
  rw [putc, hparse]

theorem Idle.putc (h : c.Idle) (b : UInt8) : c.putc b = c.putFirst b := by
  have hneed : ¬ 0 < c.utf8Need := by
    rw [h.2]
    exact Nat.lt_irrefl 0
  rw [putc_of_normal h.1, putNormal, if_neg hneed]

theorem write_bracket (h : c.Idle) :
    c.write [escByte, '['.toUInt8] = c.withParams [] := by
  show (c.putc escByte).putc '['.toUInt8 = _
  rw [h.putc]
  rfl

theorem putc_digit (c : Console S) (ps : List ℕ) (p : ℕ) {d : ℕ} (hd : d < 10) :
    (c.withParams (ps ++ [p])).putc (digitByte d) = c.withParams (ps ++ [addDigit p d]) := by
  have hlen : ∀ q, (c.withParams (ps ++ [q])).nparams = ps.length + 1 :=
    fun q => length_append.trans rfl
  have hlast : (c.withParams (ps ++ [p])).params ps.length = p := by
    simp [withParams]
  have hzero : (c.withParams (ps ++ [p])).nparams ≠ 0 := by
    rw [hlen]
    exact Nat.succ_ne_zero _
  show (c.withParams (ps ++ [p])).putCsi (digitByte d) = _
  rw [putCsi, csiByte_digitByte hd]
  dsimp only
  rw [if_neg hzero, hlen, Nat.add_sub_cancel, hlast, ← hlen (addDigit p d)]
  exact congrArg (fun params => { c.withParams (ps ++ [addDigit p d]) with params := params })
    (update_getD_snoc ps p (addDigit p d))

theorem write_digits (c : Console S) (ps : List ℕ) (p : ℕ) {ds : List ℕ} (hds : ∀ d ∈ ds, d < 10) :
    (c.withParams (ps ++ [p])).write (ds.map digitByte) =
      c.withParams (ps ++ [ds.foldl addDigit p]) := by
  induction ds generalizing p with
  | nil => rfl
  | cons d ds ih =>
    show ((c.withParams (ps ++ [p])).putc (digitByte d)).write (ds.map digitByte) = _
    rw [putc_digit c ps p (hds d mem_cons_self)]
    exact ih _ (fun d' hd' => hds d' (mem_cons_of_mem d hd'))

theorem write_decimal (c : Console S) (ps : List ℕ) (hn : n < 2 ^ 32) :
    (c.withParams (ps ++ [0])).write (decimal n) = c.withParams (ps ++ [n]) := by
  rw [decimal, write_digits c ps 0 (fun d hd => lt_of_mem_decimalDigits hd), foldl_decimalDigits hn]

/-- The first parameter takes its place with its first digit. -/
theorem write_decimal_nil (c : Console S) (hn : n < 2 ^ 32) :
    (c.withParams []).write (decimal n) = c.withParams [n] := by
  rw [← nil_append [n], ← write_decimal c [] hn]
  obtain ⟨d, ds, hds⟩ := exists_cons_of_ne_nil (decimalDigits_ne_nil n)
  have hd : d < 10 := lt_of_mem_decimalDigits (hds ▸ mem_cons_self)
  rw [decimal, hds]
  show ((c.withParams []).putc (digitByte d)).write _ = ((c.withParams [0]).putc (digitByte d)).write _
  congr 1
  show (c.withParams []).putCsi (digitByte d) = (c.withParams [0]).putCsi (digitByte d)
  rw [putCsi, putCsi, csiByte_digitByte hd]
  dsimp only [withParams, length_nil, length_singleton]
  congr 1
  funext i
  rcases i with - | i <;> simp

theorem putc_separator (c : Console S) (hpos : ps ≠ []) (hlen : ps.length < maxParams) :
    (c.withParams ps).putc ';'.toUInt8 = c.withParams (ps ++ [0]) := by
  have hzero : ps.length ≠ 0 := fun h => hpos (length_eq_zero_iff.mp h)
  have hzero' : (c.withParams ps).nparams ≠ 0 := hzero
  have hlen' : (c.withParams ps).nparams < maxParams := hlen
  show (c.withParams ps).putCsi ';'.toUInt8 = _
  rw [putCsi, show csiByte ';'.toUInt8 = .separator from rfl]
  dsimp only
  rw [if_neg hzero', if_pos hlen', withParams, withParams, getD_snoc_zero, length_append]
  rfl

theorem write_params (c : Console S) {ps qs : List ℕ} (hpos : ps ≠ [])
    (hlen : ps.length + qs.length ≤ maxParams) (hqs : ∀ q ∈ qs, q < 2 ^ 32) :
    (c.withParams ps).write (qs.flatMap (fun q => ';'.toUInt8 :: decimal q)) =
      c.withParams (ps ++ qs) := by
  induction qs generalizing ps with
  | nil =>
    rw [List.append_nil]
    rfl
  | cons q qs ih =>
    rw [length_cons] at hlen
    rw [flatMap_cons, write_append]
    show (((c.withParams ps).putc ';'.toUInt8).write (decimal q)).write _ = _
    rw [putc_separator c hpos (by omega), write_decimal c ps (hqs q mem_cons_self)]
    have hpos' : ps ++ [q] ≠ [] := append_ne_nil_of_right_ne_nil _ (cons_ne_nil q [])
    have hlen' : (ps ++ [q]).length + qs.length ≤ maxParams := by
      rw [length_append, length_singleton]
      omega
    rw [ih hpos' hlen' (fun q' hq' => hqs q' (mem_cons_of_mem q hq')), List.append_assoc,
      singleton_append]

/-- A control sequence is done as a whole. -/
theorem write_csiSequence (h : c.Idle) {p : ℕ} {fin : UInt8}
    (hlen : ps.length < maxParams) (hp : p < 2 ^ 32) (hps : ∀ q ∈ ps, q < 2 ^ 32)
    (hfin : csiByte fin = .other) :
    c.write (csiSequence p ps fin) =
      { (c.withParams (p :: ps)).handleCsi fin with parse := .normal } := by
  unfold csiSequence
  rw [write_append, write_append, write_append, write_bracket h, write_decimal_nil c hp,
    write_params c (cons_ne_nil p []) (by simp; omega) hps, singleton_append]
  show (c.withParams (p :: ps)).putCsi fin = _
  rw [putCsi, hfin]
  rfl

/-! ### Characters -/

/-- A first byte of a longer character. -/
theorem putc_lead (h : c.Idle) {b : UInt8} {bits need : ℕ} (hb : 0x80 ≤ b)
    (hlead : utf8Lead b = some (bits, need)) :
    c.putc b = { c with utf8Cp := bits, utf8Need := need } := by
  rw [h.putc, putFirst, if_pos hb, hlead]

/-- A byte that continues a character. -/
def contByte (m : ℕ) : UInt8 := UInt8.ofNat (m + 128)

theorem contByte_spec {m : ℕ} (hm : m < 64) :
    contByte m &&& 0xC0 = 0x80 ∧ (contByte m &&& 0x3F).toNat = m := by
  have h : ∀ m : Fin 64, contByte m &&& 0xC0 = 0x80 ∧ (contByte m &&& 0x3F).toNat = m := by
    decide +kernel
  exact h ⟨m, hm⟩

theorem putc_cont (hparse : c.parse = .normal) (bits need : ℕ) {m : ℕ}
    (hm : m < 64) :
    ({ c with utf8Cp := bits, utf8Need := need + 1 }).putc (contByte m) =
      if need = 0 then
        ({ c with utf8Cp := bits * 64 + m, utf8Need := need }).putGlyph (bits * 64 + m)
      else { c with utf8Cp := bits * 64 + m, utf8Need := need } := by
  obtain ⟨hcont, hbits⟩ := contByte_spec hm
  have hsum : bits <<< 6 ||| m = bits * 64 + m := by
    rw [← Nat.shiftLeft_add_eq_or_of_lt hm, Nat.shiftLeft_eq]
  rw [putc_of_normal (show Console.parse { c with utf8Cp := bits, utf8Need := need + 1 } = _ from hparse),
    putNormal, if_pos (Nat.succ_pos need), if_pos hcont]
  dsimp only
  rw [hbits, hsum, Nat.add_sub_cancel]

theorem utf8Lead_two (hn : n < 32) :
    0x80 ≤ UInt8.ofNat (n + 192) ∧ utf8Lead (UInt8.ofNat (n + 192)) = some (n, 1) := by
  have h : ∀ n : Fin 32, 0x80 ≤ UInt8.ofNat (n + 192) ∧
      utf8Lead (UInt8.ofNat (n + 192)) = some (n.val, 1) := by decide +kernel
  exact h ⟨n, hn⟩

theorem utf8Lead_three (hn : n < 16) :
    0x80 ≤ UInt8.ofNat (n + 224) ∧ utf8Lead (UInt8.ofNat (n + 224)) = some (n, 2) := by
  have h : ∀ n : Fin 16, 0x80 ≤ UInt8.ofNat (n + 224) ∧
      utf8Lead (UInt8.ofNat (n + 224)) = some (n.val, 2) := by decide +kernel
  exact h ⟨n, hn⟩

theorem utf8Lead_four (hn : n < 8) :
    0x80 ≤ UInt8.ofNat (n + 240) ∧ utf8Lead (UInt8.ofNat (n + 240)) = some (n, 3) := by
  have h : ∀ n : Fin 8, 0x80 ≤ UInt8.ofNat (n + 240) ∧
      utf8Lead (UInt8.ofNat (n + 240)) = some (n.val, 3) := by decide +kernel
  exact h ⟨n, hn⟩

theorem write_ascii (h : c.Idle) (hspace : ' '.toNat ≤ n) (hn : n ≤ 127) :
    c.write [UInt8.ofNat n] = c.putGlyph n := by
  have hbyte : ∀ n : Fin 128, ' '.toNat ≤ n.val → ¬ 0x80 ≤ UInt8.ofNat n ∧
      UInt8.ofNat n ≠ escByte ∧ UInt8.ofNat n ≠ '\r'.toUInt8 ∧ UInt8.ofNat n ≠ 8 ∧
      UInt8.ofNat n ≠ '\n'.toUInt8 ∧ (UInt8.ofNat n).toNat = n := by decide +kernel
  obtain ⟨hascii, hesc, hcr, hbs, hnl, hval⟩ := hbyte ⟨n, by omega⟩ hspace
  dsimp only at hascii hesc hcr hbs hnl hval
  show c.putc (UInt8.ofNat n) = _
  rw [h.putc, putFirst, if_neg hascii, if_neg hesc, if_neg hcr, if_neg hbs, if_neg hnl, hval]

/-- Every character but the control characters is drawn as one. -/
theorem write_utf8EncodeChar (h : c.Idle) {ch : Char} (hspace : ' '.toNat ≤ ch.toNat) :
    ∃ bits, c.write (String.utf8EncodeChar ch) = ({ c with utf8Cp := bits }).putGlyph ch.toNat := by
  have hmax : ch.toNat < 0x110000 := by
    have hvalid : ch.toNat.isValidChar := ch.valid
    unfold Nat.isValidChar at hvalid
    omega
  have hval : ch.val.toNat = ch.toNat := rfl
  have hidle : ∀ bits, { c with utf8Cp := bits, utf8Need := 0 } = { c with utf8Cp := bits } := by
    intro bits
    rw [← h.2]
  refine (le_or_gt ch.toNat 127).elim (fun h1 => ⟨c.utf8Cp, ?_⟩) (fun h1 => ⟨ch.toNat, ?_⟩)
  · rw [String.utf8EncodeChar]
    simp only [hval, if_pos h1]
    exact write_ascii h hspace h1
  rw [String.utf8EncodeChar]
  simp only [hval, if_neg (not_le.mpr h1)]
  split_ifs with h2 h3
  · obtain ⟨hhigh, hlead⟩ := utf8Lead_two (Nat.mod_lt (ch.toNat / 64) (by decide))
    have hcp : ch.toNat / 64 % 32 * 64 + ch.toNat % 64 = ch.toNat := by omega
    show (c.putc _).putc (contByte _) = _
    rw [putc_lead h hhigh hlead, putc_cont h.1 _ 0 (Nat.mod_lt _ (by decide)), if_pos rfl, hcp, hidle]
  · obtain ⟨hhigh, hlead⟩ := utf8Lead_three (Nat.mod_lt (ch.toNat / 4096) (by decide))
    have hcp : (ch.toNat / 4096 % 16 * 64 + ch.toNat / 64 % 64) * 64 + ch.toNat % 64 = ch.toNat := by
      omega
    show ((c.putc _).putc (contByte _)).putc (contByte _) = _
    rw [putc_lead h hhigh hlead, putc_cont h.1 _ 1 (Nat.mod_lt _ (by decide)), if_neg one_ne_zero,
      putc_cont h.1 _ 0 (Nat.mod_lt _ (by decide)), if_pos rfl, hcp, hidle]
  · obtain ⟨hhigh, hlead⟩ := utf8Lead_four (Nat.mod_lt (ch.toNat / 262144) (by decide))
    have hcp : ((ch.toNat / 262144 % 8 * 64 + ch.toNat / 4096 % 64) * 64 + ch.toNat / 64 % 64) * 64 +
        ch.toNat % 64 = ch.toNat := by
      omega
    show (((c.putc _).putc (contByte _)).putc (contByte _)).putc (contByte _) = _
    rw [putc_lead h hhigh hlead, putc_cont h.1 _ 2 (Nat.mod_lt _ (by decide)), if_neg two_ne_zero,
      putc_cont h.1 _ 1 (Nat.mod_lt _ (by decide)), if_neg one_ne_zero,
      putc_cont h.1 _ 0 (Nat.mod_lt _ (by decide)), if_pos rfl, hcp, hidle]

/-- A character above the last row does not scroll the screen. -/
theorem putGlyph_above {c : Console Grid} (hrow : c.cursorRow + 1 < c.rows) (cp : ℕ) :
    (c.putGlyph cp).attr = c.attr ∧
      (c.putGlyph cp).screen = (c.drawGlyph c.cursorCol c.cursorRow cp).screen ∧
      (c.cursorCol + 1 < c.cols →
        (c.putGlyph cp).cursorCol = c.cursorCol + 1 ∧ (c.putGlyph cp).cursorRow = c.cursorRow) := by
  have hroom : ¬ (c.drawGlyph c.cursorCol c.cursorRow cp).rows ≤ c.cursorRow + 1 := not_le.mpr hrow
  have hline : (c.drawGlyph c.cursorCol c.cursorRow cp).newline =
      { c.drawGlyph c.cursorCol c.cursorRow cp with cursorCol := 0, cursorRow := c.cursorRow + 1 } :=
    if_neg hroom
  rw [putGlyph_eq]
  split
  · rename_i hwrap
    rw [hline]
    exact ⟨rfl, rfl, fun hcol => absurd hwrap (not_le.mpr hcol)⟩
  · exact ⟨rfl, rfl, fun _ => ⟨rfl, rfl⟩⟩

end Console

end AnssOS
