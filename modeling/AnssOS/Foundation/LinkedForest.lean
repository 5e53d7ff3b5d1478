import Mathlib

/-!
# Forests of linked nodes

A forest in which every node has three links: to its parent, to its first child, and to its next
sibling.  The children of a node are the nodes met on the way from its first child along the
siblings.

### Outline

* `Siblings`, the list of nodes that a chain of siblings consists of, and `siblings`, which computes
  it;
* `IsForest`, the invariant: the children of a node are the nodes whose parent it is, each of them
  occurs once, and from every node the parents lead to a root;
* the four ways a forest changes: a new root (`IsForest.alloc`), a root that becomes a child
  (`IsForest.link`), a child that becomes a root (`IsForest.unlink`), and a root that goes with
  everything below it (`IsForest.prune`);
* the depth of a node, which is below the number of nodes; induction from the leaves upwards, and
  the climb along the parents that decides whether a node is an ancestor.
-/

namespace AnssOS

open List Option Function

variable {P : Type*}

/-- The three links of every node. -/
@[ext] structure Links (P : Type*) where
  up : P → Option P
  first : P → Option P
  next : P → Option P

/-! ### Chains of siblings -/

/-- The chain of siblings from `o` on consists of the nodes of the list. -/
def Siblings (next : P → Option P) : Option P → List P → Prop
  | o, [] => o = none
  | o, p :: l => o = some p ∧ Siblings next (next p) l

/-- The first `n` nodes of the chain of siblings from `o` on. -/
def siblings (next : P → Option P) : ℕ → Option P → List P
  | 0, _ => []
  | _ + 1, none => []
  | n + 1, some p => p :: siblings next n (next p)

variable {next : P → Option P} {o : Option P} {l : List P} {c : P}

theorem Siblings.eq_siblings 
    (h : Siblings next o l) {n : ℕ} (hn : l.length ≤ n) : siblings next n o = l := by
  induction l generalizing o n with
  | nil =>
    obtain rfl : o = none := h
    cases n <;> rfl
  | cons p l ih =>
    obtain ⟨rfl, htail⟩ := h
    cases n with
    | zero => simp at hn
    | succ n => rw [siblings, ih htail (by simpa using hn)]

theorem Siblings.unique {l m : List P}
    (hl : Siblings next o l) (hm : Siblings next o m) : l = m := by
  induction l generalizing o m with
  | nil =>
    cases m with
    | nil => rfl
    | cons q m =>
      have hq := hm.1
      rw [show o = none from hl] at hq
      cases hq
  | cons p l ih =>
    cases m with
    | nil =>
      have hp := hl.1
      rw [show o = none from hm] at hp
      cases hp
    | cons q m =>
      obtain rfl : p = q := some.inj (hl.1.symm.trans hm.1)
      rw [ih hl.2 hm.2]

theorem Siblings.congr {next next' : P → Option P} 
    (h : Siblings next o l) (hsame : ∀ p ∈ l, next' p = next p) : Siblings next' o l := by
  induction l generalizing o with
  | nil => exact h
  | cons p l ih =>
    refine ⟨h.1, ?_⟩
    rw [hsame p mem_cons_self]
    exact ih h.2 fun q hq => hsame q (mem_cons_of_mem p hq)

theorem Siblings.mem_of_next {p q : P}
    (h : Siblings next o l) (hp : p ∈ l) (hq : next p = some q) : q ∈ l := by
  induction l generalizing o with
  | nil => cases hp
  | cons r l ih =>
    obtain ⟨-, htail⟩ := h
    rcases mem_cons.mp hp with rfl | hp
    · cases l with
      | nil => exact absurd (htail.symm.trans hq) (by simp)
      | cons s l =>
        obtain rfl : s = q := some.inj (htail.1.symm.trans hq)
        exact mem_cons_of_mem _ mem_cons_self
    · exact mem_cons_of_mem r (ih htail hp)

/-- A node of the chain that is not the first one has a predecessor. -/
theorem Siblings.exists_pred 
    (h : Siblings next o l) (hc : c ∈ l) (hhead : o ≠ some c) : ∃ q ∈ l, next q = some c := by
  induction l generalizing o with
  | nil => cases hc
  | cons p l ih =>
    obtain ⟨rfl, htail⟩ := h
    have hcl : c ∈ l := (mem_cons.mp hc).resolve_left fun heq => hhead (congrArg some heq.symm)
    by_cases hsucc : next p = some c
    · exact ⟨p, mem_cons_self, hsucc⟩
    · obtain ⟨q, hq, hnext⟩ := ih htail hcl hsucc
      exact ⟨q, mem_cons_of_mem p hq, hnext⟩

/-- A node of the chain has at most one predecessor. -/
theorem Siblings.pred_unique {p q c : P}
    (h : Siblings next o l) (hnodup : l.Nodup) (hp : p ∈ l) (hq : q ∈ l) (hpc : next p = some c)
    (hqc : next q = some c) : p = q := by
  induction l generalizing o with
  | nil => cases hp
  | cons r l ih =>
    obtain ⟨hr, hnodup⟩ := nodup_cons.mp hnodup
    obtain ⟨-, htail⟩ := h
    -- what follows the first node has no other predecessor
    have hfirst : next r = some c → ∀ s ∈ l, next s ≠ some c := by
      intro hrc s hs hsc
      cases l with
      | nil => cases hs
      | cons d l =>
        obtain ⟨hd, htail'⟩ := htail
        obtain rfl : d = c := some.inj (hd.symm.trans hrc)
        obtain ⟨hdl, -⟩ := nodup_cons.mp hnodup
        rcases mem_cons.mp hs with rfl | hs
        · cases l with
          | nil => exact absurd (htail'.symm.trans hsc) (by simp)
          | cons e l =>
            obtain rfl : e = s := some.inj (htail'.1.symm.trans hsc)
            exact hdl mem_cons_self
        · exact hdl (htail'.mem_of_next hs hsc)
    rcases mem_cons.mp hp with rfl | hpl
    · rcases mem_cons.mp hq with rfl | hql
      · rfl
      · exact absurd hqc (hfirst hpc q hql)
    · rcases mem_cons.mp hq with rfl | hql
      · exact absurd hpc (hfirst hqc p hpl)
      · exact ih htail hnodup hpl hql

/-- A node is taken out of the chain: its predecessor, if there is one, is led past it. -/
theorem Siblings.erase [DecidableEq P] {next next' : P → Option P} 
    (h : Siblings next o l) (hnodup : l.Nodup) (hc : c ∈ l) (hhead : o ≠ some c)
    (hnext : ∀ q ∈ l, q ≠ c → next' q = if next q = some c then next c else next q) :
    Siblings next' o (l.erase c) := by
  induction l generalizing o with
  | nil => cases hc
  | cons p l ih =>
    obtain ⟨rfl, htail⟩ := h
    have hpc : p ≠ c := fun heq => hhead (congrArg some heq)
    have hcl : c ∈ l := (mem_cons.mp hc).resolve_left (Ne.symm hpc)
    obtain ⟨hp, hnodup⟩ := nodup_cons.mp hnodup
    rw [erase_cons_tail (by simpa using hpc)]
    refine ⟨rfl, ?_⟩
    rw [hnext p mem_cons_self hpc]
    by_cases hsucc : next p = some c
    · -- `p` is the predecessor of `c`
      rw [if_pos hsucc]
      cases l with
      | nil => cases hcl
      | cons q l =>
        obtain ⟨hq, htail'⟩ := htail
        obtain rfl : q = c := some.inj (hq.symm.trans hsucc)
        rw [erase_cons_head]
        obtain ⟨hql, -⟩ := nodup_cons.mp hnodup
        refine htail'.congr fun r hr => ?_
        have hrq : r ≠ q := fun heq => hql (heq ▸ hr)
        rw [hnext r (mem_cons_of_mem p (mem_cons_of_mem q hr)) hrq, if_neg]
        -- nothing behind `q` leads back to it
        intro hback
        exact hql (htail'.mem_of_next hr hback)
    · rw [if_neg hsucc]
      exact ih htail hnodup hcl hsucc fun q hq => hnext q (mem_cons_of_mem p hq)

/-! ### Forests -/

namespace Links

/-- The node `a` is `c`, or one of the nodes that the parents of `c` lead to. -/
def Ancestor (L : Links P) (a c : P) : Prop :=
  Relation.ReflTransGen (fun p q => L.up q = some p) a c

end Links

open Links (Ancestor)

/-- The nodes of `live` form a forest with the given roots, in which `kids` are the children of a
node in their order. -/
structure IsForest (L : Links P) (live : Set P) (kids : P → List P) (roots : Set P) : Prop where
  siblings : ∀ {p}, p ∈ live → Siblings L.next (L.first p) (kids p)
  nodup : ∀ {p}, p ∈ live → (kids p).Nodup
  mem_kids : ∀ {p c}, p ∈ live → (c ∈ kids p ↔ c ∈ live ∧ L.up c = some p)
  up_live : ∀ {p c}, c ∈ live → L.up c = some p → p ∈ live
  mem_roots : ∀ {c}, c ∈ roots ↔ c ∈ live ∧ L.up c = none
  next_root : ∀ {r}, r ∈ roots → L.next r = none
  rooted : ∀ {c}, c ∈ live → ∃ r ∈ roots, L.Ancestor r c

variable {L : Links P} {live roots : Set P} {kids : P → List P}

namespace Links

/-- The ancestors of a node are the node itself and the ancestors of its parent. -/
theorem ancestor_iff {a c : P} : L.Ancestor a c ↔ a = c ∨ ∃ p, L.up c = some p ∧ L.Ancestor a p := by
  constructor
  · intro h
    rcases Relation.ReflTransGen.cases_tail h with rfl | ⟨p, hp, hc⟩
    · exact Or.inl rfl
    · exact Or.inr ⟨p, hc, hp⟩
  · rintro (rfl | ⟨p, hc, hp⟩)
    · exact Relation.ReflTransGen.refl
    · exact Relation.ReflTransGen.tail hp hc

/-- Above a root there is nothing. -/
theorem Ancestor.eq_of_root {a r : P} (h : L.Ancestor a r) (hr : L.up r = none) : a = r := by
  rcases ancestor_iff.mp h with rfl | ⟨p, hp, -⟩
  · rfl
  · rw [hr] at hp
    cases hp

/-- Two ancestors of a node: one is an ancestor of the other. -/
theorem Ancestor.total {a b c : P} (ha : L.Ancestor a c) (hb : L.Ancestor b c) :
    L.Ancestor a b ∨ L.Ancestor b a := by
  induction ha with
  | refl => exact Or.inr hb
  | @tail p q hp hq ih =>
    rcases ancestor_iff.mp hb with rfl | ⟨p', hp', hb⟩
    · exact Or.inl (Relation.ReflTransGen.tail hp hq)
    · obtain rfl : p' = p := some.inj (hp'.symm.trans hq)
      exact ih hb

/-- Ancestors stay ancestors if no parent on the way changes. -/
theorem Ancestor.congr {L' : Links P} {a c : P} (h : L.Ancestor a c)
    (hsame : ∀ q, L.Ancestor a q → L.Ancestor q c → q ≠ a → L'.up q = L.up q) :
    L'.Ancestor a c := by
  induction h with
  | refl => exact Relation.ReflTransGen.refl
  | @tail p q hp hq ih =>
    have hpq : L.Ancestor p q := Relation.ReflTransGen.single hq
    have hp' := ih fun r har hrp hne => hsame r har (hrp.trans hpq) hne
    by_cases hqa : q = a
    · rw [hqa]
      exact Relation.ReflTransGen.refl
    · have haq : L.Ancestor a q := hp.tail hq
      exact hp'.tail ((hsame q haq Relation.ReflTransGen.refl hqa).trans hq)

/-- The ancestors of a node are the same if no parent changes in a set that is closed upwards. -/
theorem ancestor_congr_of_closed {L' : Links P} {S : Set P}
    (hclosed : ∀ q ∈ S, ∀ p, L.up q = some p → p ∈ S) (hsame : ∀ q ∈ S, L'.up q = L.up q) {a c : P}
    (hc : c ∈ S) : L'.Ancestor a c ↔ L.Ancestor a c := by
  constructor
  · intro h
    induction h with
    | refl => exact Relation.ReflTransGen.refl
    | tail _ hup ih =>
      rw [hsame _ hc] at hup
      exact (ih (hclosed _ hc _ hup)).tail hup
  · intro h
    induction h with
    | refl => exact Relation.ReflTransGen.refl
    | tail _ hup ih => exact (ih (hclosed _ hc _ hup)).tail ((hsame _ hc).trans hup)

end Links

namespace IsForest

section

variable (h : IsForest L live kids roots)

include h

theorem ancestor_live {a c : P} (hac : L.Ancestor a c) (hc : c ∈ live) : a ∈ live := by
  induction hac with
  | refl => exact hc
  | tail _ hup ih => exact ih (h.up_live hc hup)

theorem up_of_mem_roots {r : P} (hr : r ∈ roots) : L.up r = none := (h.mem_roots.mp hr).2

theorem live_of_mem_roots {r : P} (hr : r ∈ roots) : r ∈ live :=
  (h.mem_roots.mp hr).1

theorem first_live {p q : P} (hp : p ∈ live) (hq : L.first p = some q) : q ∈ live := by
  have hchain := h.siblings hp
  cases hkids : kids p with
  | nil =>
    rw [hkids] at hchain
    rw [show L.first p = none from hchain] at hq
    cases hq
  | cons c l =>
    rw [hkids] at hchain
    obtain rfl : c = q := some.inj (hchain.1.symm.trans hq)
    exact ((h.mem_kids hp).mp (hkids ▸ mem_cons_self)).1

theorem next_live {p q : P} (hp : p ∈ live) (hq : L.next p = some q) : q ∈ live := by
  cases hup : L.up p with
  | none =>
    rw [h.next_root (h.mem_roots.mpr ⟨hp, hup⟩)] at hq
    cases hq
  | some d =>
    have hd := h.up_live hp hup
    have hmem := (h.siblings hd).mem_of_next ((h.mem_kids hd).mpr ⟨hp, hup⟩) hq
    exact ((h.mem_kids hd).mp hmem).1

/-- The root above a node is the only one. -/
theorem root_unique {r r' c : P} (hr : r ∈ roots)
    (hr' : r' ∈ roots) (hc : L.Ancestor r c) (hc' : L.Ancestor r' c) : r = r' := by
  rcases hc.total hc' with hle | hle
  · exact hle.eq_of_root (h.up_of_mem_roots hr')
  · exact (hle.eq_of_root (h.up_of_mem_roots hr)).symm

end
variable [DecidableEq P]

/-- A new node becomes a root. -/
theorem alloc (h : IsForest L live kids roots) {r : P} (hr : r ∉ live) {L' : Links P}
    (hup : L'.up r = none) (hfirst : L'.first r = none) (hnext : L'.next r = none)
    (hsame : ∀ q, q ≠ r → L'.up q = L.up q ∧ L'.first q = L.first q ∧ L'.next q = L.next q) :
    IsForest L' (insert r live) (Function.update kids r []) (insert r roots) := by
  have hne : ∀ {q}, q ∈ live → q ≠ r := fun hq heq => hr (heq ▸ hq)
  refine ⟨?_, ?_, ?_, ?_, ?_, ?_, ?_⟩
  · rintro p (rfl | hp)
    · rw [update_self]
      exact hfirst
    · rw [update_of_ne (hne hp), (hsame p (hne hp)).2.1]
      refine (h.siblings hp).congr fun q hq => (hsame q (hne ?_)).2.2
      exact ((h.mem_kids hp).mp hq).1
  · rintro p (rfl | hp)
    · rw [update_self]
      exact nodup_nil
    · rw [update_of_ne (hne hp)]
      exact h.nodup hp
  · rintro p c (rfl | hp)
    · rw [update_self]
      simp only [not_mem_nil, Set.mem_insert_iff, false_iff, not_and]
      rintro (rfl | hc)
      · rw [hup]
        simp
      · rw [(hsame c (hne hc)).1]
        exact fun heq => hr (h.up_live hc heq)
    · rw [update_of_ne (hne hp), h.mem_kids hp, Set.mem_insert_iff]
      constructor
      · rintro ⟨hc, heq⟩
        exact ⟨Or.inr hc, by rwa [(hsame c (hne hc)).1]⟩
      · rintro ⟨rfl | hc, heq⟩
        · rw [hup] at heq
          cases heq
        · exact ⟨hc, by rwa [(hsame c (hne hc)).1] at heq⟩
  · rintro p c (rfl | hc) heq
    · rw [hup] at heq
      cases heq
    · rw [(hsame c (hne hc)).1] at heq
      exact Or.inr (h.up_live hc heq)
  · intro c
    rw [Set.mem_insert_iff, Set.mem_insert_iff, h.mem_roots]
    constructor
    · rintro (rfl | ⟨hc, heq⟩)
      · exact ⟨Or.inl rfl, hup⟩
      · exact ⟨Or.inr hc, by rwa [(hsame c (hne hc)).1]⟩
    · rintro ⟨rfl | hc, heq⟩
      · exact Or.inl rfl
      · exact Or.inr ⟨hc, by rwa [(hsame c (hne hc)).1] at heq⟩
  · rintro c (rfl | hc)
    · exact hnext
    · rw [(hsame c (hne (h.live_of_mem_roots hc))).2.2]
      exact h.next_root hc
  · rintro c (rfl | hc)
    · exact ⟨c, Or.inl rfl, Relation.ReflTransGen.refl⟩
    · obtain ⟨s, hs, hsc⟩ := h.rooted hc
      refine ⟨s, Or.inr hs, hsc.congr fun q _ hqc _ => (hsame q (hne ?_)).1⟩
      exact h.ancestor_live hqc hc

/-- A root becomes the first child of a node that is not below it. -/
theorem link (h : IsForest L live kids roots) {p c : P} (hp : p ∈ live) (hc : c ∈ roots)
    (hcp : ¬ L.Ancestor c p) :
    IsForest ⟨Function.update L.up c (some p), Function.update L.first p (some c),
        Function.update L.next c (L.first p)⟩ live
      (Function.update kids p (c :: kids p)) (roots \ {c}) := by
  have hroot := h.up_of_mem_roots hc
  have hlive := h.live_of_mem_roots hc
  -- a root is nobody's child
  have hnot : ∀ {q}, q ∈ live → c ∉ kids q := by
    intro q hq hmem
    have := ((h.mem_kids hq).mp hmem).2
    rw [hroot] at this
    cases this
  have hchain : ∀ {q}, q ∈ live →
      Siblings (Function.update L.next c (L.first p)) (L.first q) (kids q) := by
    intro q hq
    refine (h.siblings hq).congr fun r hr => update_of_ne ?_ _ _
    rintro rfl
    exact hnot hq hr
  refine ⟨?_, ?_, ?_, ?_, ?_, ?_, ?_⟩
  · intro q hq
    by_cases hqp : q = p
    · subst hqp
      simp only [update_self]
      refine ⟨rfl, ?_⟩
      rw [update_self]
      exact hchain hq
    · simp only [update_of_ne hqp]
      exact hchain hq
  · intro q hq
    by_cases hqp : q = p
    · subst hqp
      rw [update_self]
      exact nodup_cons.mpr ⟨hnot hq, h.nodup hq⟩
    · rw [update_of_ne hqp]
      exact h.nodup hq
  · intro q d hq
    by_cases hdc : d = c
    · subst hdc
      by_cases hqp : q = p
      · subst hqp
        simp [hlive]
      · simp only [update_of_ne hqp, update_self]
        exact iff_of_false (hnot hq) fun hd => hqp (some.inj hd.2).symm
    · simp only [update_of_ne hdc]
      by_cases hqp : q = p
      · subst hqp
        rw [update_self, mem_cons, or_iff_right hdc, h.mem_kids hq]
      · rw [update_of_ne hqp, h.mem_kids hq]
  · intro q d hd heq
    by_cases hdc : d = c
    · subst hdc
      simp only [update_self, Option.some.injEq] at heq
      exact heq ▸ hp
    · simp only [update_of_ne hdc] at heq
      exact h.up_live hd heq
  · intro d
    rw [Set.mem_sdiff, Set.mem_singleton_iff, h.mem_roots]
    by_cases hdc : d = c
    · subst hdc
      simp
    · simp [hdc]
  · rintro r ⟨hr, hrc⟩
    exact (update_of_ne hrc _ _).trans (h.next_root hr)
  · intro d hd
    -- above a node that is not below `c`, nothing changes
    have hkeep : ∀ {r e}, r ∈ roots → r ≠ c → L.Ancestor r e →
        Links.Ancestor ⟨Function.update L.up c (some p), Function.update L.first p (some c),
          Function.update L.next c (L.first p)⟩ r e := by
      intro r e hr hrc hre
      refine hre.congr fun q hrq hqe hqr => update_of_ne ?_ _ _
      rintro rfl
      exact hrc (hrq.eq_of_root hroot)
    obtain ⟨r, hr, hrd⟩ := h.rooted hd
    by_cases hrc : r = c
    · -- below `c`: up to `c`, then to its new parent and on to the root of that
      subst hrc
      obtain ⟨s, hs, hsp⟩ := h.rooted hp
      have hsr : s ≠ r := fun heq => hcp (heq ▸ hsp)
      refine ⟨s, ⟨hs, hsr⟩, ?_⟩
      have hbelow : Links.Ancestor ⟨Function.update L.up r (some p),
          Function.update L.first p (some r), Function.update L.next r (L.first p)⟩ r d :=
        hrd.congr fun q _ _ hqr => update_of_ne hqr _ _
      exact ((hkeep hs hsr hsp).tail (update_self _ _ _)).trans hbelow
    · exact ⟨r, ⟨hr, hrc⟩, hkeep hr hrc hrd⟩

/-- A child becomes a root. -/
theorem unlink (h : IsForest L live kids roots) {p c : P} (hp : p ∈ live) (hc : c ∈ kids p)
    {L' : Links P} (hup : L'.up = Function.update L.up c none)
    (hfirst : L'.first = if L.first p = some c then Function.update L.first p (L.next c)
      else L.first) (hlast : L'.next c = none)
    (hnext : ∀ q, q ≠ c → L'.next q =
      if q ∈ kids p ∧ L.next q = some c then L.next c else L.next q) :
    IsForest L' live (Function.update kids p ((kids p).erase c)) (insert c roots) := by
  obtain ⟨hlive, hparent⟩ := (h.mem_kids hp).mp hc
  have hother : ∀ {q}, q ∈ live → q ≠ p → c ∉ kids q := by
    intro q hq hqp hmem
    have := ((h.mem_kids hq).mp hmem).2
    exact hqp (some.inj (this.symm.trans hparent))
  refine ⟨?_, ?_, ?_, ?_, ?_, ?_, ?_⟩
  · intro q hq
    by_cases hqp : q = p
    · subst hqp
      rw [update_self, hfirst]
      by_cases hhead : L.first q = some c
      · -- `c` is the first child
        rw [if_pos hhead, update_self]
        have hchain := h.siblings hq
        have hnodup := h.nodup hq
        cases hkids : kids q with
        | nil =>
          rw [hkids] at hc
          cases hc
        | cons d l =>
          rw [hkids] at hchain hnodup
          obtain ⟨hd, htail⟩ := hchain
          obtain rfl : d = c := some.inj (hd.symm.trans hhead)
          obtain ⟨hdl, -⟩ := nodup_cons.mp hnodup
          rw [erase_cons_head]
          refine htail.congr fun r hr => ?_
          have hrd : r ≠ d := fun heq => hdl (heq ▸ hr)
          rw [hnext r hrd, if_neg]
          rintro ⟨-, hback⟩
          exact hdl (htail.mem_of_next hr hback)
      · rw [if_neg hhead]
        refine (h.siblings hq).erase (h.nodup hq) hc hhead fun r hr hrc => ?_
        rw [hnext r hrc]
        by_cases hback : L.next r = some c
        · rw [if_pos ⟨hr, hback⟩, if_pos hback]
        · rw [if_neg fun hand => hback hand.2, if_neg hback]
    · rw [update_of_ne hqp, hfirst]
      have hhead : (if L.first p = some c then Function.update L.first p (L.next c)
          else L.first) q = L.first q := by
        split
        · exact update_of_ne hqp _ _
        · rfl
      rw [hhead]
      refine (h.siblings hq).congr fun r hr => ?_
      have hrc : r ≠ c := fun heq => hother hq hqp (heq ▸ hr)
      rw [hnext r hrc, if_neg]
      -- the children of another node are not those of `p`
      rintro ⟨hrp, -⟩
      have h₁ := ((h.mem_kids hq).mp hr).2
      have h₂ := ((h.mem_kids hp).mp hrp).2
      exact hqp (some.inj (h₁.symm.trans h₂))
  · intro q hq
    by_cases hqp : q = p
    · subst hqp
      rw [update_self]
      exact (h.nodup hq).erase c
    · rw [update_of_ne hqp]
      exact h.nodup hq
  · intro q d hq
    by_cases hdc : d = c
    · subst hdc
      rw [hup, update_self]
      refine iff_of_false ?_ (by simp)
      by_cases hqp : q = p
      · subst hqp
        rw [update_self]
        exact (h.nodup hq).not_mem_erase
      · rw [update_of_ne hqp]
        exact hother hq hqp
    · rw [hup, update_of_ne hdc]
      by_cases hqp : q = p
      · subst hqp
        rw [update_self, mem_erase_of_ne hdc, h.mem_kids hq]
      · rw [update_of_ne hqp, h.mem_kids hq]
  · intro q d hd heq
    by_cases hdc : d = c
    · rw [hup, hdc, update_self] at heq
      cases heq
    · rw [hup, update_of_ne hdc] at heq
      exact h.up_live hd heq
  · intro d
    rw [Set.mem_insert_iff, h.mem_roots, hup]
    by_cases hdc : d = c
    · subst hdc
      simp [hlive]
    · simp [hdc]
  · rintro r (rfl | hr)
    · exact hlast
    · have hrc : r ≠ c := by
        rintro rfl
        rw [h.up_of_mem_roots hr] at hparent
        cases hparent
      rw [hnext r hrc, if_neg, h.next_root hr]
      rintro ⟨hrp, -⟩
      have := ((h.mem_kids hp).mp hrp).2
      rw [h.up_of_mem_roots hr] at this
      cases this
  · intro d hd
    by_cases hcd : L.Ancestor c d
    · refine ⟨c, Set.mem_insert c roots, hcd.congr fun q _ _ hqc => ?_⟩
      rw [hup, update_of_ne hqc]
    · obtain ⟨r, hr, hrd⟩ := h.rooted hd
      refine ⟨r, Set.mem_insert_of_mem c hr, hrd.congr fun q _ hqd _ => ?_⟩
      rw [hup, update_of_ne]
      rintro rfl
      exact hcd hqd

omit [DecidableEq P] in
/-- A root goes, with everything below it. -/
theorem prune (h : IsForest L live kids roots) {r : P} (hr : r ∈ roots) {L' : Links P}
    (hsame : ∀ q ∈ live, ¬ L.Ancestor r q →
      L'.up q = L.up q ∧ L'.first q = L.first q ∧ L'.next q = L.next q) :
    IsForest L' (live \ {q | L.Ancestor r q}) kids (roots \ {r}) := by
  -- what is not below `r` has its parent and its children not below `r`
  have hup : ∀ {p c}, L.up c = some p → L.Ancestor r c → c ≠ r → L.Ancestor r p := by
    intro p c hcp hrc hne
    rcases Links.ancestor_iff.mp hrc with heq | ⟨p', hp', hrp⟩
    · exact absurd heq.symm hne
    · rwa [some.inj (hcp.symm.trans hp')]
  have hchild : ∀ {p c}, L.up c = some p → ¬ L.Ancestor r p → ¬ L.Ancestor r c := by
    intro p c hcp hrp hrc
    refine hrp (hup hcp hrc ?_)
    rintro rfl
    rw [h.up_of_mem_roots hr] at hcp
    cases hcp
  refine ⟨?_, ?_, ?_, ?_, ?_, ?_, ?_⟩
  · rintro p ⟨hp, hrp⟩
    rw [(hsame p hp hrp).2.1]
    refine (h.siblings hp).congr fun q hq => ?_
    obtain ⟨hq, hqp⟩ := (h.mem_kids hp).mp hq
    exact (hsame q hq (hchild hqp hrp)).2.2
  · rintro p ⟨hp, -⟩
    exact h.nodup hp
  · rintro p c ⟨hp, hrp⟩
    rw [h.mem_kids hp]
    constructor
    · rintro ⟨hc, heq⟩
      have hrc := hchild heq hrp
      exact ⟨⟨hc, hrc⟩, (hsame c hc hrc).1.trans heq⟩
    · rintro ⟨⟨hc, hrc⟩, heq⟩
      exact ⟨hc, (hsame c hc hrc).1 ▸ heq⟩
  · rintro p c ⟨hc, hrc⟩ heq
    rw [(hsame c hc hrc).1] at heq
    exact ⟨h.up_live hc heq, fun hrp => hrc (hrp.tail heq)⟩
  · intro c
    rw [Set.mem_sdiff, Set.mem_singleton_iff, h.mem_roots, Set.mem_sdiff, Set.mem_ofPred_eq]
    constructor
    · rintro ⟨⟨hc, heq⟩, hne⟩
      have hrc : ¬ L.Ancestor r c := fun hrc => hne (hrc.eq_of_root heq).symm
      exact ⟨⟨hc, hrc⟩, (hsame c hc hrc).1.trans heq⟩
    · rintro ⟨⟨hc, hrc⟩, heq⟩
      rw [(hsame c hc hrc).1] at heq
      refine ⟨⟨hc, heq⟩, ?_⟩
      rintro rfl
      exact hrc Relation.ReflTransGen.refl
  · rintro s ⟨hs, hsr⟩
    have hrs : ¬ L.Ancestor r s := fun hrs => hsr (hrs.eq_of_root (h.up_of_mem_roots hs)).symm
    rw [(hsame s (h.live_of_mem_roots hs) hrs).2.2]
    exact h.next_root hs
  · rintro c ⟨hc, hrc⟩
    obtain ⟨s, hs, hsc⟩ := h.rooted hc
    refine ⟨s, ⟨hs, ?_⟩, hsc.congr fun q _ hqc _ => ?_⟩
    · rintro rfl
      exact hrc hsc
    · exact (hsame q (h.ancestor_live hqc hc) fun hrq => hrc (hrq.trans hqc)).1

end IsForest

/-! ### Depth -/

namespace Links

/-- The number of parents above a node is `n`. -/
def Depth (L : Links P) : ℕ → P → Prop
  | 0, c => L.up c = none
  | n + 1, c => ∃ p, L.up c = some p ∧ L.Depth n p

theorem Depth.unique {m n : ℕ} {c : P} (hm : L.Depth m c) (hn : L.Depth n c) : m = n := by
  induction m generalizing n c with
  | zero =>
    cases n with
    | zero => rfl
    | succ n =>
      obtain ⟨p, hp, -⟩ := hn
      exact absurd (hm.symm.trans hp) (by simp)
  | succ m ih =>
    obtain ⟨p, hp, hm⟩ := hm
    cases n with
    | zero => exact absurd (hp.symm.trans hn) (by simp)
    | succ n =>
      obtain ⟨p', hp', hn⟩ := hn
      obtain rfl : p = p' := some.inj (hp.symm.trans hp')
      rw [ih hm hn]

/-- A node and the nodes above it, as many as its depth tells and one more, are all different. -/
theorem Depth.exists_ancestors {n : ℕ} {c : P} (h : L.Depth n c) :
    ∃ l : List P, l.length = n + 1 ∧ l.Nodup ∧ ∀ q ∈ l, L.Ancestor q c ∧ ∃ m ≤ n, L.Depth m q := by
  induction n generalizing c with
  | zero =>
    exact ⟨[c], rfl, nodup_singleton c, by simp [h, Ancestor, Relation.ReflTransGen.refl]⟩
  | succ n ih =>
    obtain ⟨p, hp, hdepth⟩ := h
    obtain ⟨l, hlen, hnodup, hl⟩ := ih hdepth
    refine ⟨c :: l, by simp [hlen], nodup_cons.mpr ⟨fun hc => ?_, hnodup⟩, ?_⟩
    · -- a node above `c` has a smaller depth
      obtain ⟨-, m, hm, hdepth'⟩ := hl c hc
      have := hdepth'.unique (n := n + 1) ⟨p, hp, hdepth⟩
      omega
    · intro q hq
      rcases mem_cons.mp hq with rfl | hq
      · exact ⟨Relation.ReflTransGen.refl, n + 1, le_rfl, p, hp, hdepth⟩
      · obtain ⟨hqp, m, hm, hdepth'⟩ := hl q hq
        exact ⟨hqp.tail hp, m, by omega, hdepth'⟩

/-- Whether `a` is met within `n` steps along the parents, from `o` on. -/
def climbs [DecidableEq P] (L : Links P) (a : P) : ℕ → Option P → Bool
  | 0, _ => false
  | _ + 1, none => false
  | n + 1, some c => if c = a then true else L.climbs a n (L.up c)

theorem Depth.climbs_iff [DecidableEq P] {n m : ℕ} {a c : P} (h : L.Depth n c) (hm : n < m) :
    L.climbs a m (some c) = true ↔ L.Ancestor a c := by
  induction n generalizing m c with
  | zero =>
    obtain ⟨m, rfl⟩ : ∃ k, m = k + 1 := ⟨m - 1, by omega⟩
    have hnone : L.climbs a m none = false := by cases m <;> rfl
    rw [climbs, show L.up c = none from h, hnone]
    constructor
    · intro hif
      by_cases hca : c = a
      · exact hca ▸ Relation.ReflTransGen.refl
      · rw [if_neg hca] at hif
        cases hif
    · intro hac
      rw [if_pos (hac.eq_of_root h).symm]
  | succ n ih =>
    obtain ⟨m, rfl⟩ : ∃ k, m = k + 1 := ⟨m - 1, by omega⟩
    obtain ⟨p, hp, hdepth⟩ := h
    rw [climbs, hp, ancestor_iff]
    have ih := ih hdepth (show n < m by omega)
    by_cases hca : c = a
    · rw [if_pos hca]
      exact iff_of_true rfl (Or.inl hca.symm)
    · rw [if_neg hca, ih]
      constructor
      · exact fun hap => Or.inr ⟨p, hp, hap⟩
      · rintro (heq | ⟨p', hp', hap⟩)
        · exact absurd heq.symm hca
        · rwa [some.inj (hp.symm.trans hp')]

end Links

namespace IsForest

variable {c p : P} {nodes : Finset P}

section

variable (h : IsForest L live kids roots)

include h

theorem exists_depth (hc : c ∈ live) : ∃ n, L.Depth n c := by
  obtain ⟨r, hr, hrc⟩ := h.rooted hc
  clear hc
  induction hrc with
  | refl => exact ⟨0, h.up_of_mem_roots hr⟩
  | tail _ hup ih =>
    obtain ⟨n, hn⟩ := ih
    exact ⟨n + 1, _, hup, hn⟩

/-- The depth of a node is below the number of nodes. -/
theorem depth_lt (hlive : live ⊆ nodes) {n : ℕ}
    (hc : c ∈ live) (hn : L.Depth n c) : n < nodes.card := by
  classical
  obtain ⟨l, hlen, hnodup, hl⟩ := hn.exists_ancestors
  have hsub : l.toFinset ⊆ nodes := by
    intro q hq
    exact hlive (h.ancestor_live (hl q (List.mem_toFinset.mp hq)).1 hc)
  have hcard := Finset.card_le_card hsub
  rw [toFinset_card_of_nodup hnodup, hlen] at hcard
  omega

/-- No node is below itself. -/
theorem not_ancestor_of_up (hc : c ∈ live) (hup : L.up c = some p) : ¬ L.Ancestor c p := by
  intro hcp
  obtain ⟨n, hn⟩ := h.exists_depth (h.up_live hc hup)
  -- the parent has a smaller depth than the child, and no ancestor has a greater one
  have hlt : ∀ {a b m}, L.Ancestor a b → L.Depth m b → ∃ k ≤ m, L.Depth k a := by
    intro a b m hab
    induction hab generalizing m with
    | refl => exact fun hm => ⟨m, le_rfl, hm⟩
    | tail _ hup ih =>
      intro hm
      cases m with
      | zero => exact absurd (hup.symm.trans hm) (by simp)
      | succ m =>
        obtain ⟨p', hp', hm⟩ := hm
        obtain rfl := some.inj (hup.symm.trans hp')
        obtain ⟨k, hk, hdepth⟩ := ih hm
        exact ⟨k, by omega, hdepth⟩
  obtain ⟨k, hk, hdepth⟩ := hlt hcp hn
  have := hdepth.unique (n := n + 1) ⟨p, hup, hn⟩
  omega

/-- What is below a node is the node itself and what is below one of its children. -/
theorem ancestor_iff_kids {p q : P} (hp : p ∈ live) (hq : q ∈ live) :
    L.Ancestor p q ↔ p = q ∨ ∃ c ∈ kids p, L.Ancestor c q := by
  constructor
  · intro hpq
    rcases Relation.ReflTransGen.cases_head hpq with rfl | ⟨c, hc, hcq⟩
    · exact Or.inl rfl
    · have hclive := h.ancestor_live hcq hq
      exact Or.inr ⟨c, (h.mem_kids hp).mpr ⟨hclive, hc⟩, hcq⟩
  · rintro (rfl | ⟨c, hc, hcq⟩)
    · exact Relation.ReflTransGen.refl
    · exact Relation.ReflTransGen.head ((h.mem_kids hp).mp hc).2 hcq

/-- No node is below two children of the same node. -/
theorem kids_disjoint {p c d q : P} (hp : p ∈ live)
    (hc : c ∈ kids p) (hd : d ∈ kids p) (hcq : L.Ancestor c q) (hdq : L.Ancestor d q) : c = d := by
  obtain ⟨hclive, hcup⟩ := (h.mem_kids hp).mp hc
  obtain ⟨hdlive, hdup⟩ := (h.mem_kids hp).mp hd
  have hone : ∀ {a b : P}, a ∈ live → L.up a = some p → L.up b = some p → L.Ancestor a b →
      a = b := by
    intro a b ha haup hbup hab
    rcases Links.ancestor_iff.mp hab with heq | ⟨p', hp', hap⟩
    · exact heq
    · obtain rfl := some.inj (hbup.symm.trans hp')
      exact absurd hap (h.not_ancestor_of_up ha haup)
  rcases hcq.total hdq with hcd | hdc
  · exact hone hclive hcup hdup hcd
  · exact (hone hdlive hdup hcup hdc).symm

/-- The children may be listed by another function. -/
theorem congr_kids {kids' : P → List P}
    (hsame : ∀ p ∈ live, kids' p = kids p) : IsForest L live kids' roots where
  siblings hp := by
    rw [hsame _ hp]
    exact h.siblings hp
  nodup hp := by
    rw [hsame _ hp]
    exact h.nodup hp
  mem_kids hp := by
    rw [hsame _ hp]
    exact h.mem_kids hp
  up_live := h.up_live
  mem_roots := h.mem_roots
  next_root := h.next_root
  rooted := h.rooted

theorem length_kids_le (hlive : live ⊆ nodes)
    (hp : p ∈ live) : (kids p).length ≤ nodes.card := by
  classical
  rw [← toFinset_card_of_nodup (h.nodup hp)]
  refine Finset.card_le_card fun c hc => hlive ?_
  exact ((h.mem_kids hp).mp (List.mem_toFinset.mp hc)).1

/-- Induction from the leaves upwards: what holds of a node with `n` levels left if it holds of its
children with `n - 1` levels left, holds of every node with as many levels left as there are nodes. -/
theorem upward_induction (hlive : live ⊆ nodes) {Q : ℕ → P → Prop}
    (hstep : ∀ n p, p ∈ live → (∀ c ∈ kids p, Q n c) → Q (n + 1) p) (hp : p ∈ live) :
    Q nodes.card p := by
  -- a node at depth `d` is reached with `card - d` levels left
  have hlevels : ∀ n d q, q ∈ live → L.Depth d q → nodes.card ≤ d + n → Q n q := by
    intro n
    induction n with
    | zero =>
      intro d q hq hd hle
      have := h.depth_lt hlive hq hd
      omega
    | succ n ih =>
      intro d q hq hd hle
      refine hstep n q hq fun c hc => ?_
      obtain ⟨hcl, hup⟩ := (h.mem_kids hq).mp hc
      exact ih (d + 1) c hcl ⟨q, hup, hd⟩ (by omega)
  obtain ⟨d, hd⟩ := h.exists_depth hp
  exact hlevels nodes.card d p hp hd (by omega)

theorem climbs_iff [DecidableEq P] (hlive : live ⊆ nodes) {a c : P} (hc : c ∈ live) :
    L.climbs a nodes.card (some c) = true ↔ L.Ancestor a c := by
  obtain ⟨n, hn⟩ := h.exists_depth hc
  exact hn.climbs_iff (h.depth_lt hlive hc hn)

end
end IsForest

end AnssOS
