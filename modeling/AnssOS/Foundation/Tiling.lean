import Mathlib

/-!
# Tilings of sets of addresses

A list of spans, each from a first address up to the one behind its last, *tiles* a set of addresses
if no two of them overlap and together they make up the set.  A part of the list can be exchanged for
another list of spans that tiles the same addresses: this is what splitting and merging do.

### Outline

* `Apart`, `Tiles`;
* `Tiles.append` and `Tiles.of_append`: putting tilings side by side, and taking them apart;
* `Tiles.replace`: exchanging a part.
-/

namespace AnssOS

/-- The two spans do not overlap. -/
def Apart (s t : ℕ × ℕ) : Prop := s.2 ≤ t.1 ∨ t.2 ≤ s.1

theorem Apart.symm {s t : ℕ × ℕ} (h : Apart s t) : Apart t s := Or.symm h

/-- Parts of spans that do not overlap. -/
theorem Apart.mono {s s' t t' : ℕ × ℕ} (h : Apart s t) (hs : s.1 ≤ s'.1 ∧ s'.2 ≤ s.2)
    (ht : t.1 ≤ t'.1 ∧ t'.2 ≤ t.2) : Apart s' t' := by
  rcases h with hst | hts
  · exact Or.inl (by omega)
  · exact Or.inr (by omega)

/-- The spans are not empty, do not overlap, and make up the set. -/
structure Tiles (l : List (ℕ × ℕ)) (S : Set ℕ) : Prop where
  proper : ∀ s ∈ l, s.1 < s.2
  apart : l.Pairwise Apart
  mem_iff : ∀ x, x ∈ S ↔ ∃ s ∈ l, s.1 ≤ x ∧ x < s.2

namespace Tiles

variable {l l' l₁ l₂ mid mid' : List (ℕ × ℕ)} {S T S' : Set ℕ}

theorem nil : Tiles [] ∅ := ⟨by simp, List.Pairwise.nil, by simp⟩

theorem singleton {a b : ℕ} (h : a < b) : Tiles [(a, b)] (Set.Ico a b) :=
  ⟨by simpa using h, List.pairwise_singleton _ _, by simp⟩

theorem pair {a b c : ℕ} (hab : a < b) (hbc : b < c) : Tiles [(a, b), (b, c)] (Set.Ico a c) := by
  refine ⟨by simp [hab, hbc], by simp [Apart], fun x => ?_⟩
  simp only [Set.mem_Ico, List.mem_cons, List.not_mem_nil, or_false, exists_eq_or_imp,
    exists_eq_left]
  omega

/-- Spans of two disjoint sets do not overlap. -/
theorem apart_of_disjoint (h : Tiles l S) (h' : Tiles l' S') (hd : Disjoint S S') {s t : ℕ × ℕ}
    (hs : s ∈ l) (ht : t ∈ l') : Apart s t := by
  by_contra hover
  unfold Apart at hover
  push Not at hover
  have hsproper := h.proper s hs
  have htproper := h'.proper t ht
  have hmem : max s.1 t.1 ∈ S := (h.mem_iff _).mpr ⟨s, hs, by omega, by omega⟩
  have hmem' : max s.1 t.1 ∈ S' := (h'.mem_iff _).mpr ⟨t, ht, by omega, by omega⟩
  exact Set.disjoint_left.mp hd hmem hmem'

/-- Two tilings side by side. -/
theorem append (h : Tiles l S) (h' : Tiles l' S') (hd : Disjoint S S') :
    Tiles (l ++ l') (S ∪ S') := by
  refine ⟨fun s hs => ?_, ?_, fun x => ?_⟩
  · rcases List.mem_append.mp hs with hs | hs
    · exact h.proper s hs
    · exact h'.proper s hs
  · exact List.pairwise_append.mpr
      ⟨h.apart, h'.apart, fun s hs t ht => h.apart_of_disjoint h' hd hs ht⟩
  · rw [Set.mem_union, h.mem_iff, h'.mem_iff]
    simp only [List.mem_append, or_and_right, exists_or]

/-- The two parts of a tiling. -/
theorem of_append (h : Tiles (l ++ l') S) :
    ∃ T T', Tiles l T ∧ Tiles l' T' ∧ Disjoint T T' ∧ S = T ∪ T' := by
  obtain ⟨hl, hl', hcross⟩ := List.pairwise_append.mp h.apart
  refine ⟨{x | ∃ s ∈ l, s.1 ≤ x ∧ x < s.2}, {x | ∃ s ∈ l', s.1 ≤ x ∧ x < s.2},
    ⟨fun s hs => h.proper s (List.mem_append_left _ hs), hl, fun _ => Iff.rfl⟩,
    ⟨fun s hs => h.proper s (List.mem_append_right _ hs), hl', fun _ => Iff.rfl⟩, ?_, ?_⟩
  · rw [Set.disjoint_left]
    rintro x ⟨s, hs, hsx, hxs⟩ ⟨t, ht, htx, hxt⟩
    rcases hcross s hs t ht with hst | hts
    · omega
    · omega
  · ext x
    rw [h.mem_iff]
    simp only [List.mem_append, or_and_right, exists_or, Set.mem_union, Set.mem_ofPred_eq]

theorem unique (h : Tiles l S) (h' : Tiles l T) : S = T := by
  ext x
  rw [h.mem_iff, h'.mem_iff]

/-- A part of a tiling is exchanged for another tiling of the same addresses. -/
theorem replace (h : Tiles (l₁ ++ (mid ++ l₂)) S) (hmid : Tiles mid T) (hmid' : Tiles mid' T) :
    Tiles (l₁ ++ (mid' ++ l₂)) S := by
  obtain ⟨S₁, R, h₁, hR, hdisj, rfl⟩ := h.of_append
  obtain ⟨T', S₂, hT', h₂, hdisj', rfl⟩ := hR.of_append
  obtain rfl := hT'.unique hmid
  exact h₁.append (hmid'.append h₂ hdisj') hdisj

end Tiles

end AnssOS
