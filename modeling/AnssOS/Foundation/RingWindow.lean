import Mathlib

/-!
# Rings in shared memory

A producer writes the entries of a log one after the other to the `n` slots of a ring, the entry with
number `i` to the slot `i % n`; a consumer reads them in the same order.  The two run freely, so that the
ring holds what is between them as long as the producer is at most one lap ahead.

The consumer learns how far the producer is in one of two ways: from a counter of the producer, of
which it sees the remainder modulo some `m`; or from a tag in each entry, which is flipped on each lap.

### Outline

* `Window`: the ring holds the entries of the log from the consumer's place on;
* counters modulo `m`;
* `Tagged`: the tags of the slots that are still to be written are those of the lap before;
* `TaggedQueue`: what was sent in a ring with tags, and what was received.
-/

namespace AnssOS

open List Function

variable {α : Type*} {n : ℕ}

/-! ### The window -/

/-- Two places less than a lap apart have different slots. -/
theorem mod_ne_of_lt_lap {i j : ℕ} (hij : i < j) (hlap : j < i + n) : i % n ≠ j % n := by
  intro heq
  have hmod : i ≡ i + (j - i) [MOD n] := by
    rw [Nat.add_sub_cancel' hij.le]
    exact heq
  have hzero : 0 ≡ j - i [MOD n] := Nat.ModEq.add_left_cancel' i hmod
  rw [Nat.ModEq, Nat.zero_mod, Nat.mod_eq_of_lt (by omega)] at hzero
  omega

theorem eq_of_mod_eq_of_lt_lap {i j : ℕ} (h : i % n = j % n) (hi : i < j + n) (hj : j < i + n) :
    i = j := by
  rcases Nat.lt_trichotomy i j with hlt | heq | hlt
  · exact absurd h (mod_ne_of_lt_lap hlt hj)
  · exact heq
  · exact absurd h.symm (mod_ne_of_lt_lap hlt hi)

/-- The slots of the ring hold the entries of the log from the place `lo` on. -/
structure Window (n : ℕ) (ring : ℕ → α) (log : List α) (lo : ℕ) : Prop where
  le : lo ≤ log.length
  lap : log.length ≤ lo + n
  get : ∀ i, lo ≤ i → ∀ h : i < log.length, ring (i % n) = log[i]

theorem Window.empty (n : ℕ) (ring : ℕ → α) : Window n ring [] 0 :=
  ⟨le_rfl, Nat.zero_le _, fun _ _ h => absurd h (Nat.not_lt_zero _)⟩

variable {lo : ℕ} {ring : ℕ → α} {log : List α}

/-- The producer writes the next entry, if it is less than a lap ahead. -/
theorem Window.push (h : Window n ring log lo)
    (hroom : log.length < lo + n) (a : α) :
    Window n (Function.update ring (log.length % n) a) (log ++ [a]) lo where
  le := by
    rw [length_append]
    exact h.le.trans (Nat.le_add_right _ _)
  lap := by
    rw [length_append, length_singleton]
    exact hroom
  get := by
    intro i hlo hi
    rw [length_append, length_singleton] at hi
    rcases Nat.lt_succ_iff_lt_or_eq.mp hi with hlt | rfl
    · rw [update_of_ne (mod_ne_of_lt_lap hlt (by omega)), getElem_append_left hlt]
      exact h.get i hlo hlt
    · rw [update_self, getElem_concat_length rfl]

/-- What the producer writes to the next slot beforehand is outside of the window. -/
theorem Window.write (h : Window n ring log lo)
    (hroom : log.length < lo + n) (a : α) :
    Window n (Function.update ring (log.length % n) a) log lo where
  le := h.le
  lap := h.lap
  get := by
    intro i hlo hi
    rw [update_of_ne (mod_ne_of_lt_lap hi (by omega))]
    exact h.get i hlo hi

/-- The consumer goes on. -/
theorem Window.pop (h : Window n ring log lo)
    (hlo : lo < log.length) : Window n ring log (lo + 1) :=
  ⟨hlo, h.lap.trans (by omega), fun i hi => h.get i (by omega)⟩

/-! ### Counters -/

/-- Counters modulo `m` tell whether there is something to read, if they are less than `m` apart. -/
theorem mod_eq_mod_iff_of_lt {m lo hi : ℕ} (hle : lo ≤ hi) (hlt : hi < lo + m) :
    lo % m = hi % m ↔ lo = hi := by
  constructor
  · intro heq
    by_contra hne
    exact mod_ne_of_lt_lap (lt_of_le_of_ne hle hne) hlt heq
  · rintro rfl
    rfl

/-! ### Tags -/

/-- The tag of the entries on the lap of the place `i`. -/
def phase (n i : ℕ) : Bool := i / n % 2 = 0

theorem phase_add_lap (hn : 0 < n) (i : ℕ) : phase n (i + n) = !phase n i := by
  unfold phase
  rw [Nat.add_div_right i hn, ← decide_not, decide_eq_decide]
  omega

theorem phase_succ (n i : ℕ) :
    phase n (i + 1) = if (i + 1) % n = 0 then !phase n i else phase n i := by
  unfold phase
  rw [Nat.succ_div]
  simp only [Nat.dvd_iff_mod_eq_zero]
  split
  · rw [← decide_not, decide_eq_decide]
    omega
  · rfl

/-- The slots from the place `hi` on, for a lap, have the tags of the lap before. -/
def Tagged (n : ℕ) (tag : α → Bool) (ring : ℕ → α) (hi : ℕ) : Prop :=
  ∀ i, hi ≤ i → i < hi + n → tag (ring (i % n)) = !phase n i

variable {tag : α → Bool} {ring : ℕ → α} {lo hi : ℕ}

/-- In the beginning all tags are those of the second lap. -/
theorem Tagged.start (h : ∀ i < n, tag (ring i) = false) : Tagged n tag ring 0 := by
  intro i _ hi
  rw [Nat.zero_add] at hi
  rw [Nat.mod_eq_of_lt hi, h i hi, phase, Nat.div_eq_of_lt hi]
  rfl

/-- The producer writes an entry with the tag of its lap. -/
theorem Tagged.push (hn : 0 < n) (h : Tagged n tag ring hi) {a : α} (ha : tag a = phase n hi) :
    Tagged n tag (Function.update ring (hi % n) a) (hi + 1) := by
  intro i hle hlt
  by_cases hlast : i = hi + n
  · subst hlast
    rw [Nat.add_mod_right, update_self, ha, phase_add_lap hn, Bool.not_not]
  · rw [update_of_ne (mod_ne_of_lt_lap (by omega) (by omega)).symm]
    exact h i (by omega) (by omega)

/-- The producer changes the next slot, but not its tag. -/
theorem Tagged.write (h : Tagged n tag ring hi) {a : α} (ha : tag a = tag (ring (hi % n))) :
    Tagged n tag (Function.update ring (hi % n) a) hi := by
  intro i hle hlt
  rw [← h i hle hlt, update_apply]
  split
  · rename_i hslot
    rw [ha, hslot]
  · rfl

/-- The tag of the consumer's slot tells whether the producer has written it. -/
theorem Tagged.fresh_iff (hn : 0 < n) (h : Tagged n tag ring hi) (hle : lo ≤ hi) (hlap : hi ≤ lo + n) :
    tag (ring (lo % n)) = phase n lo ↔ lo < hi := by
  constructor
  · intro hfresh
    by_contra hnot
    obtain rfl : lo = hi := by omega
    rw [h lo le_rfl (by omega)] at hfresh
    exact absurd hfresh (Bool.not_ne_self _)
  · intro hlt
    have hslot := h (lo + n) hlap (by omega)
    rwa [Nat.add_mod_right, phase_add_lap hn, Bool.not_not] at hslot

/-! ### Queues with tags -/

/-- The entries that were sent in a ring with tags, and those of them that were received. -/
structure TaggedQueue (n : ℕ) (tag : α → Bool) (ring : ℕ → α) (sent received : List α) : Prop where
  window : Window n ring sent received.length
  tagged : Tagged n tag ring sent.length
  inOrder : received = sent.take received.length

namespace TaggedQueue

variable {sent received : List α}

theorem start (h : ∀ i < n, tag (ring i) = false) : TaggedQueue n tag ring [] [] :=
  ⟨Window.empty _ _, Tagged.start h, rfl⟩

theorem fresh_iff (hn : 0 < n) (h : TaggedQueue n tag ring sent received) :
    tag (ring (received.length % n)) = phase n received.length ↔ received.length < sent.length :=
  h.tagged.fresh_iff hn h.window.le h.window.lap

theorem receive (h : TaggedQueue n tag ring sent received) (hlt : received.length < sent.length) :
    TaggedQueue n tag ring sent (received ++ [ring (received.length % n)]) := by
  have hlen : (received ++ [ring (received.length % n)]).length = received.length + 1 :=
    length_append
  refine ⟨hlen ▸ h.window.pop hlt, h.tagged, ?_⟩
  rw [hlen, take_add_one, getElem?_eq_getElem hlt, ← h.inOrder,
    h.window.get _ le_rfl hlt]
  rfl

theorem send (hn : 0 < n) (h : TaggedQueue n tag ring sent received)
    (hroom : sent.length < received.length + n) {a : α} (ha : tag a = phase n sent.length) :
    TaggedQueue n tag (Function.update ring (sent.length % n) a) (sent ++ [a]) received where
  window := h.window.push hroom a
  tagged := by
    rw [length_append]
    exact h.tagged.push hn ha
  inOrder := by
    rw [take_append_of_le_length h.window.le]
    exact h.inOrder

end TaggedQueue

end AnssOS
