import AnssOS.Foundation.NextList
import AnssOS.Foundation.RingWindow
import AnssOS.Foundation.Transition

/-!
# Virtqueues

A virtqueue is a table of descriptors and two rings in memory that the driver shares with a device.  The
driver takes descriptors off a free list, links them to a chain that lists the buffers of a request, and
puts the head of the chain in the avail ring.  The device takes the heads from there, in order; when it
is done with a chain, it puts its head in the used ring, and the driver gives the descriptors back.

### Outline

* `Virtqueue` and its operations;
* `QueueRun`: a queue and its device, with the history of both;
* what `fillChain` and `freeChain` do to chains and to the free list;
* `QueueRun.Invariant`, and that each step keeps it;
* `virtqueue_books`: the books are right in every reachable state.
-/

namespace AnssOS

open List Option Function

/-! ### The queue -/

structure Desc where
  addr : ℕ
  len : ℕ
  flags : UInt16
  next : ℕ

def descFNext : UInt16 := 1

def descFWrite : UInt16 := 2

/-- One buffer of a descriptor chain. -/
structure Buffer where
  addr : ℕ
  len : ℕ
  deviceWritable : Bool

structure Virtqueue where
  size : ℕ
  desc : ℕ → Desc
  availIdx : ℕ
  availRing : ℕ → ℕ
  usedIdx : ℕ
  usedRing : ℕ → ℕ × ℕ
  freeHead : ℕ
  numFree : ℕ
  lastUsedIdx : ℕ

/-- The physical address of a buffer, of which the kernel has the address in its direct map. -/
def physOf (hhdm addr : ℕ) : ℕ := (addr + 2 ^ 64 - hhdm) % 2 ^ 64

/-- The descriptor of a buffer, before the one at `next?` if there is one. -/
def chainDesc (hhdm : ℕ) (b : Buffer) (next? : Option ℕ) : Desc where
  addr := physOf hhdm b.addr
  len := b.len
  flags := (if b.deviceWritable then descFWrite else 0) ||| (if next?.isSome then descFNext else 0)
  next := next?.getD 0

/-- The loop that writes the descriptors of a chain. -/
def fillChain (hhdm : ℕ) : (ℕ → Desc) → List ℕ → List Buffer → ℕ → Desc
  | desc, i :: is, b :: bs =>
      fillChain hhdm (Function.update desc i (chainDesc hhdm b is.head?)) is bs
  | desc, _, _ => desc

namespace Virtqueue

/-- A queue as `queue` sets it up. -/
def new (size : ℕ) : Virtqueue where
  size := size
  desc i := ⟨0, 0, 0, if i < size then i + 1 else 0⟩
  availIdx := 0
  availRing _ := 0
  usedIdx := 0
  usedRing _ := (0, 0)
  freeHead := 0
  numFree := size
  lastUsedIdx := 0

def next (q : Virtqueue) (i : ℕ) : ℕ := (q.desc i).next

/-- Puts a descriptor in front of the free list. -/
def freeDesc (q : Virtqueue) (i : ℕ) : Virtqueue := { q with
  desc := Function.update q.desc i { q.desc i with next := q.freeHead }
  freeHead := i
  numFree := (q.numFree + 1) % 65536 }

/-- The loop of `free_chain`, for at most the given number of rounds. -/
def freeChainGo : ℕ → Virtqueue → ℕ → Option Virtqueue
  | 0, _, _ => none
  | rounds + 1, q, i =>
      if (q.desc i).flags &&& descFNext ≠ 0 then freeChainGo rounds (q.freeDesc i) (q.next i)
      else some (q.freeDesc i)

/-- No chain is longer than the table; `none` stands for a loop that has not ended by then. -/
def freeChain (q : Virtqueue) (head : ℕ) : Option Virtqueue := freeChainGo q.size q head

/-- Whether `submit_chain` takes a request. -/
def Accepts (q : Virtqueue) (buffers : List Buffer) : Prop :=
  ¬ (buffers.length = 0 ∨ 8 < buffers.length ∨ q.numFree < buffers.length)

instance (q : Virtqueue) : DecidablePred q.Accepts := fun _ => inferInstanceAs (Decidable (¬ _))

/-- The descriptors that a request of `count` buffers gets. -/
def indices (q : Virtqueue) (count : ℕ) : List ℕ := (takeLinks q.next count q.freeHead).1

def submitChain (hhdm : ℕ) (q : Virtqueue) (buffers : List Buffer) : Virtqueue :=
  if q.Accepts buffers then
    let taken := takeLinks q.next buffers.length q.freeHead
    { q with
      freeHead := taken.2
      numFree := q.numFree - buffers.length
      desc := fillChain hhdm q.desc taken.1 buffers
      availRing := Function.update q.availRing (q.availIdx % q.size) (taken.1.headD 0)
      availIdx := (q.availIdx + 1) % 65536 }
  else q

/-- The next completion, if there is one. -/
def tryWait (q : Virtqueue) : Option (Virtqueue × Option (ℕ × ℕ)) :=
  if q.usedIdx = q.lastUsedIdx then some (q, none)
  else
    let elem := q.usedRing (q.lastUsedIdx % q.size)
    let id := elem.1 % 65536
    let q := { q with lastUsedIdx := (q.lastUsedIdx + 1) % 65536 }
    (q.freeChain id).map fun q => (q, some (id, elem.2))

end Virtqueue

/-! ### A queue and its device -/

/-- A request that was accepted: its descriptors and its buffers. -/
structure Request where
  chain : List ℕ
  buffers : List Buffer

def Request.head (r : Request) : ℕ := r.chain.headD 0

/-- A queue and its device, which has taken the entries before `seen` from the avail ring and works on
the chains with the heads in `held`.  The rest is what has happened: the requests that were accepted,
those of them whose descriptors were not given back yet, the heads that the device has taken, and the
completions that it has published and that `try_wait` has returned. -/
structure QueueRun where
  queue : Virtqueue
  seen : ℕ
  held : List ℕ
  submitted : List Request
  outstanding : List Request
  consumed : List ℕ
  published : List (ℕ × ℕ)
  returned : List (ℕ × ℕ)

inductive QueueEvent
  | submitChain (buffers : List Buffer)
  | consume
  | complete (head len : ℕ)
  | tryWait

namespace QueueRun

def start (size : ℕ) : QueueRun := ⟨.new size, 0, [], [], [], [], [], []⟩

def step (hhdm : ℕ) (s : QueueRun) : QueueEvent → Option QueueRun
  | .submitChain buffers =>
      if s.queue.Accepts buffers then
        let request : Request := ⟨s.queue.indices buffers.length, buffers⟩
        some { s with
          queue := s.queue.submitChain hhdm buffers
          submitted := s.submitted ++ [request]
          outstanding := s.outstanding ++ [request] }
      else some { s with queue := s.queue.submitChain hhdm buffers }
  | .consume =>
      if s.seen = s.queue.availIdx then none
      else
        let head := s.queue.availRing (s.seen % s.queue.size)
        some { s with
          seen := (s.seen + 1) % 65536
          held := s.held ++ [head]
          consumed := s.consumed ++ [head] }
  | .complete head len =>
      if head ∈ s.held then
        some { s with
          queue := { s.queue with
            usedRing := Function.update s.queue.usedRing (s.queue.usedIdx % s.queue.size) (head, len)
            usedIdx := (s.queue.usedIdx + 1) % 65536 }
          held := s.held.erase head
          published := s.published ++ [(head, len)] }
      else none
  | .tryWait =>
      match s.queue.tryWait with
      | none => none
      | some (_, none) => some s
      | some (q, some (id, len)) =>
          some { s with
            queue := q
            outstanding := s.outstanding.filter (fun r => r.head ≠ id)
            returned := s.returned ++ [(id, len)] }

end QueueRun

def virtqueueSystem (hhdm size : ℕ) : TransitionSystem QueueRun QueueEvent where
  init s := s = .start size
  step s e := s.step hhdm e

/-! ### Chains -/

/-- The descriptors of the chain list the buffers, in order. -/
def ListsChain (hhdm : ℕ) (desc : ℕ → Desc) : List ℕ → List Buffer → Prop
  | [], [] => True
  | i :: is, b :: bs => desc i = chainDesc hhdm b is.head? ∧ ListsChain hhdm desc is bs
  | _, _ => False

/-- What has to hold: the descriptors are those of the free list, which starts at `free_head` and has
`num_free` elements, and those of the chains of outstanding requests; each chain lists the buffers of
its request; the device takes the heads in the order of submission, and the avail ring still has those
to be taken; `try_wait` has returned the completions in the order in which they were published, and
returns the next one. -/
structure QueueRun.Books (hhdm : ℕ) (s : QueueRun) : Prop where
  partition : ∃ free, Follows s.queue.next s.queue.freeHead free ∧ free.length = s.queue.numFree ∧
    (free ++ s.outstanding.flatMap Request.chain).Perm (List.range s.queue.size)
  chains : ∀ r ∈ s.outstanding, r.buffers ≠ [] ∧ ListsChain hhdm s.queue.desc r.chain r.buffers
  consumed : s.consumed = (s.submitted.map Request.head).take s.consumed.length
  kept : ∀ i, s.consumed.length ≤ i → ∀ h : i < s.submitted.length,
    s.queue.availRing (i % s.queue.size) = s.submitted[i].head
  returned : s.returned = s.published.take s.returned.length
  tryWait : ∃ q, s.queue.tryWait = some (q, s.published[s.returned.length]?)

section Chains

variable {hhdm : ℕ}

variable {desc : ℕ → Desc} {is : List ℕ} {bs : List Buffer}

theorem ListsChain.length_eq 
    (h : ListsChain hhdm desc is bs) : is.length = bs.length := by
  induction is generalizing bs with
  | nil =>
    cases bs with
    | nil => rfl
    | cons b bs => exact h.elim
  | cons i is ih =>
    cases bs with
    | nil => exact h.elim
    | cons b bs => exact congrArg (· + 1) (ih h.2)

theorem ListsChain.congr {desc desc' : ℕ → Desc} 
    (hdesc : ∀ i ∈ is, desc' i = desc i) (h : ListsChain hhdm desc is bs) :
    ListsChain hhdm desc' is bs := by
  induction is generalizing bs with
  | nil =>
    cases bs with
    | nil => trivial
    | cons b bs => exact h.elim
  | cons i is ih =>
    cases bs with
    | nil => exact h.elim
    | cons b bs =>
      exact ⟨(hdesc i mem_cons_self).trans h.1,
        ih (fun j hj => hdesc j (mem_cons_of_mem i hj)) h.2⟩

theorem fillChain_of_notMem {j : ℕ}
    (hj : j ∉ is) : fillChain hhdm desc is bs j = desc j := by
  induction is generalizing desc bs with
  | nil => rfl
  | cons i is ih =>
    cases bs with
    | nil => rfl
    | cons b bs =>
      rw [mem_cons, not_or] at hj
      rw [fillChain, ih hj.2, update_of_ne hj.1]

theorem listsChain_fillChain (hnodup : is.Nodup)
    (hlen : is.length = bs.length) : ListsChain hhdm (fillChain hhdm desc is bs) is bs := by
  induction is generalizing desc bs with
  | nil =>
    cases bs with
    | nil => trivial
    | cons b bs => exact absurd hlen (Nat.zero_ne_add_one _)
  | cons i is ih =>
    cases bs with
    | nil => exact absurd hlen (Nat.add_one_ne_zero _)
    | cons b bs =>
      rw [nodup_cons] at hnodup
      refine ⟨?_, ih hnodup.2 (Nat.add_right_cancel hlen)⟩
      rw [fillChain, fillChain_of_notMem hnodup.1, update_self]

theorem chainDesc_hasNext (b : Buffer) (next? : Option ℕ) :
    (chainDesc hhdm b next?).flags &&& descFNext ≠ 0 ↔ next?.isSome := by
  have h : ∀ w n : Bool,
      ((if w then descFWrite else 0) ||| (if n then descFNext else 0)) &&& descFNext ≠ 0 ↔ n := by
    decide
  exact h b.deviceWritable next?.isSome

namespace Virtqueue

theorem freeDesc_of_ne (q : Virtqueue) {i j : ℕ} (hne : j ≠ i) : (q.freeDesc i).desc j = q.desc j :=
  update_of_ne hne _ _

theorem next_freeDesc (q : Virtqueue) (i : ℕ) : (q.freeDesc i).next i = q.freeHead := by
  show (Function.update q.desc i _ i).next = _
  rw [update_self]

theorem follows_freeDesc {q : Virtqueue} {free : List ℕ} {i : ℕ}
    (h : Follows q.next q.freeHead free) (hi : i ∉ free) :
    Follows (q.freeDesc i).next (q.freeDesc i).freeHead (i :: free) := by
  refine ⟨rfl, ?_⟩
  rw [next_freeDesc]
  refine h.congr ?_
  intro j hj
  exact congrArg Desc.next (q.freeDesc_of_ne (ne_of_mem_of_not_mem hj hi))

/-- `free_chain` puts the descriptors of a chain in front of the free list, the last one first, and
changes nothing else. -/
theorem freeChainGo_spec {q : Virtqueue} {is free : List ℕ} {bs : List Buffer} {i rounds : ℕ}
    (hchain : ListsChain hhdm q.desc (i :: is) bs) (hrounds : (i :: is).length ≤ rounds)
    (hfollows : Follows q.next q.freeHead free) (hnodup : (i :: is ++ free).Nodup)
    (hfree : q.numFree + (i :: is).length < 65536) :
    ∃ q', freeChainGo rounds q i = some q' ∧
      Follows q'.next q'.freeHead ((i :: is).reverse ++ free) ∧
      q'.numFree = q.numFree + (i :: is).length ∧ (∀ j ∉ i :: is, q'.desc j = q.desc j) ∧
      { q' with desc := q.desc, freeHead := q.freeHead, numFree := q.numFree } = q := by
  -- the induction is on the chain; each round moves one descriptor
  induction is generalizing q i free bs rounds with
  | nil =>
    obtain ⟨rounds, rfl⟩ := Nat.exists_eq_add_of_le' hrounds
    obtain ⟨b, rfl⟩ : ∃ b, bs = [b] := length_eq_one_iff.mp hchain.length_eq.symm
    have hlast : ¬ (q.desc i).flags &&& descFNext ≠ 0 := by
      rw [hchain.1, chainDesc_hasNext]
      decide
    refine ⟨q.freeDesc i, if_neg hlast, ?_, Nat.mod_eq_of_lt hfree, ?_, rfl⟩
    · exact follows_freeDesc hfollows (nodup_cons.mp hnodup).1
    · intro j hj
      exact q.freeDesc_of_ne (ne_of_not_mem_cons hj)
  | cons k is ih =>
    obtain ⟨rounds, rfl⟩ := Nat.exists_eq_add_of_le' (Nat.one_le_of_lt hrounds)
    obtain ⟨b, bs, rfl⟩ : ∃ b bs', bs = b :: bs' := by
      cases bs with
      | nil => exact hchain.elim
      | cons b bs => exact ⟨b, bs, rfl⟩
    obtain ⟨hdesc, hrest⟩ := hchain
    rw [cons_append, nodup_cons, mem_append, not_or] at hnodup
    obtain ⟨⟨hi, hi'⟩, hnodup⟩ := hnodup
    have hmore : (q.desc i).flags &&& descFNext ≠ 0 := by
      rw [hdesc, chainDesc_hasNext]
      rfl
    have hnext : q.next i = k := congrArg Desc.next hdesc
    rw [length_cons] at hrounds hfree
    have hfree' : (q.freeDesc i).numFree = q.numFree + 1 := Nat.mod_eq_of_lt (by omega)
    have hchain' : ListsChain hhdm (q.freeDesc i).desc (k :: is) bs :=
      hrest.congr fun j hj => q.freeDesc_of_ne (ne_of_mem_of_not_mem hj hi)
    have hnodup' : (k :: is ++ i :: free).Nodup := by
      refine nodup_middle.mpr (nodup_cons.mpr ⟨?_, hnodup⟩)
      rw [mem_append]
      exact not_or.mpr ⟨hi, hi'⟩
    obtain ⟨q', hgo, hfollows', hnum, hsame, hframe⟩ :=
      ih hchain' (Nat.le_of_succ_le_succ hrounds) (follows_freeDesc hfollows hi') hnodup'
        (by rw [hfree']; omega)
    refine ⟨q', ?_, ?_, ?_, ?_, ?_⟩
    · rw [freeChainGo, if_pos hmore, hnext, hgo]
    · rw [reverse_cons, List.append_assoc, singleton_append]
      exact hfollows'
    · rw [hnum, hfree', length_cons (a := i)]
      omega
    · intro j hj
      rw [mem_cons, not_or] at hj
      rw [hsame j hj.2, q.freeDesc_of_ne hj.1]
    · have hframe' := congrArg (fun r : Virtqueue =>
        { r with desc := q.desc, freeHead := q.freeHead, numFree := q.numFree }) hframe
      exact hframe'

end Virtqueue

end Chains

/-! ### The invariant -/

/-- The heads of the submissions. -/
def QueueRun.heads (s : QueueRun) : List ℕ := s.submitted.map Request.head

/-- Each outstanding request is where the driver has put it, with the device, or where the device has
put it; and the two rings hold what they are to hold. -/
structure QueueRun.Invariant (hhdm size : ℕ) (s : QueueRun) : Prop where
  size_eq : s.queue.size = size
  partition : ∃ free, Follows s.queue.next s.queue.freeHead free ∧ free.length = s.queue.numFree ∧
    (free ++ s.outstanding.flatMap Request.chain).Perm (List.range size)
  chains : ∀ r ∈ s.outstanding, r.buffers ≠ [] ∧ ListsChain hhdm s.queue.desc r.chain r.buffers
  avail : Window size s.queue.availRing s.heads s.consumed.length
  availIdx : s.queue.availIdx = s.heads.length % 65536
  seen : s.seen = s.consumed.length % 65536
  consumed : s.consumed = s.heads.take s.consumed.length
  used : Window size s.queue.usedRing s.published s.returned.length
  usedIdx : s.queue.usedIdx = s.published.length % 65536
  lastUsedIdx : s.queue.lastUsedIdx = s.returned.length % 65536
  returned : s.returned = s.published.take s.returned.length
  whereabouts : (s.outstanding.map Request.head).Perm (s.heads.drop s.consumed.length ++ s.held ++
    (s.published.drop s.returned.length).map Prod.fst)

/-- The sizes of queues. -/
def QueueSize (size : ℕ) : Prop := ∃ k ≤ 8, size = 2 ^ k

theorem QueueSize.dvd {size : ℕ} (h : QueueSize size) : size ∣ 65536 := by
  obtain ⟨k, hk, rfl⟩ := h
  exact pow_dvd_pow 2 (show k ≤ 16 by omega)

theorem QueueSize.pos_le {size : ℕ} (h : QueueSize size) : 0 < size ∧ size ≤ 256 := by
  obtain ⟨k, hk, rfl⟩ := h
  exact ⟨Nat.two_pow_pos k, Nat.pow_le_pow_right (by decide) hk⟩

theorem Request.head_mem {r : Request} (h : r.chain ≠ []) : r.head ∈ r.chain := by
  obtain ⟨i, is, his⟩ := exists_cons_of_ne_nil h
  rw [Request.head, his]
  exact mem_cons_self

/-- Requests take at least one descriptor each. -/
theorem length_le_length_flatMap_chain {l : List Request} (h : ∀ r ∈ l, r.chain ≠ []) :
    l.length ≤ (l.flatMap Request.chain).length := by
  induction l with
  | nil => exact le_rfl
  | cons r l ih =>
    have hr := length_pos_iff.mpr (h r mem_cons_self)
    have hl := ih (fun r' hr' => h r' (mem_cons_of_mem r hr'))
    rw [flatMap_cons, length_append, length_cons]
    omega

/-- Requests without a common descriptor have different heads. -/
theorem nodup_map_head {l : List Request} (h : ∀ r ∈ l, r.chain ≠ [])
    (hnodup : (l.flatMap Request.chain).Nodup) : (l.map Request.head).Nodup := by
  induction l with
  | nil => exact nodup_nil
  | cons r l ih =>
    rw [flatMap_cons, nodup_append] at hnodup
    obtain ⟨-, hrest, hdisj⟩ := hnodup
    have hl : ∀ r' ∈ l, r'.chain ≠ [] := fun r' hr' => h r' (mem_cons_of_mem r hr')
    rw [map_cons, nodup_cons]
    refine ⟨?_, ih hl hrest⟩
    rw [List.mem_map]
    rintro ⟨r', hr', heq⟩
    have hmem : r.head ∈ l.flatMap Request.chain :=
      mem_flatMap.mpr ⟨r', hr', heq ▸ Request.head_mem (hl r' hr')⟩
    exact hdisj _ (Request.head_mem (h r mem_cons_self)) _ hmem rfl

/-- The requests but the one with a given head. -/
theorem perm_cons_filter_head {l : List Request} (hnodup : (l.map Request.head).Nodup) {r : Request}
    (hr : r ∈ l) : l.Perm (r :: l.filter fun r' => r'.head ≠ r.head) := by
  induction l with
  | nil => exact absurd hr not_mem_nil
  | cons r' l ih =>
    rw [map_cons, nodup_cons] at hnodup
    rcases mem_cons.mp hr with rfl | hr
    · have hkeep : l.filter (fun r' => r'.head ≠ r.head) = l := by
        refine filter_eq_self.mpr ?_
        intro r' hr'
        refine decide_eq_true ?_
        intro heq
        exact hnodup.1 (heq ▸ List.mem_map_of_mem hr')
      rw [filter_cons_of_neg (by simp), hkeep]
    · have hne : r'.head ≠ r.head := fun heq => hnodup.1 (heq ▸ List.mem_map_of_mem hr)
      rw [filter_cons_of_pos (by simpa using hne)]
      exact ((ih hnodup.2 hr).cons r').trans (Perm.swap r r' _)

namespace QueueRun.Invariant

variable {hhdm size : ℕ} {s : QueueRun}

theorem chain_ne_nil (h : s.Invariant hhdm size) {r : Request} (hr : r ∈ s.outstanding) :
    r.chain ≠ [] := by
  obtain ⟨hbuffers, hchain⟩ := h.chains r hr
  rw [← length_pos_iff, hchain.length_eq, length_pos_iff]
  exact hbuffers

/-- No more requests are outstanding than there are descriptors that are not free. -/
theorem count (h : s.Invariant hhdm size) : s.outstanding.length + s.queue.numFree ≤ size := by
  obtain ⟨free, -, hfree, hperm⟩ := h.partition
  have hlen := hperm.length_eq
  rw [length_append, length_range] at hlen
  have := length_le_length_flatMap_chain fun r hr => h.chain_ne_nil hr
  omega

/-- The same, by where the requests are. -/
theorem count_whereabouts (h : s.Invariant hhdm size) :
    (s.heads.length - s.consumed.length) + s.held.length +
      (s.published.length - s.returned.length) + s.queue.numFree ≤ size := by
  have hlen := h.whereabouts.length_eq
  simp only [length_append, length_map, length_drop] at hlen
  have := h.count
  omega

theorem start : (QueueRun.start size).Invariant hhdm size where
  size_eq := rfl
  partition := by
    refine ⟨List.range size, ?_, length_range, ?_⟩
    · rw [range_eq_range']
      refine follows_range' ?_
      intro i hi
      have hlt : i < size := hi.trans_eq (Nat.zero_add size)
      exact if_pos hlt
    · show (List.range size ++ []).Perm _
      rw [List.append_nil]
  chains := fun r hr => (nomatch hr)
  avail := Window.empty size _
  availIdx := rfl
  seen := rfl
  consumed := rfl
  used := Window.empty size _
  usedIdx := rfl
  lastUsedIdx := rfl
  returned := rfl
  whereabouts := Perm.refl []

section

variable (h : s.Invariant hhdm size)

include h

theorem submitChain (hsize : QueueSize size) {buffers : List Buffer}
    (haccepts : s.queue.Accepts buffers) :
    Invariant hhdm size { s with
      queue := s.queue.submitChain hhdm buffers
      submitted := s.submitted ++ [⟨s.queue.indices buffers.length, buffers⟩]
      outstanding := s.outstanding ++ [⟨s.queue.indices buffers.length, buffers⟩] } := by
  obtain ⟨free, hfollows, hfree, hperm⟩ := h.partition
  obtain ⟨hsome, hroom⟩ : buffers.length ≠ 0 ∧ buffers.length ≤ s.queue.numFree := by
    unfold Virtqueue.Accepts at haccepts
    omega
  -- the request takes the first part of the free list
  obtain ⟨taken, rest, rfl, htaken⟩ : ∃ taken rest, free = taken ++ rest ∧
      taken.length = buffers.length :=
    ⟨free.take buffers.length, free.drop buffers.length, (take_append_drop _ _).symm,
      length_take_of_le (hfree ▸ hroom)⟩
  obtain ⟨hindices, hrest⟩ := hfollows.takeLinks
  rw [htaken] at hindices hrest
  have hindices' : s.queue.indices buffers.length = taken := hindices
  have hqueue : s.queue.submitChain hhdm buffers = { s.queue with
      freeHead := (takeLinks s.queue.next buffers.length s.queue.freeHead).2
      numFree := s.queue.numFree - buffers.length
      desc := fillChain hhdm s.queue.desc taken buffers
      availRing := Function.update s.queue.availRing (s.queue.availIdx % s.queue.size) (taken.headD 0)
      availIdx := (s.queue.availIdx + 1) % 65536 } := by
    rw [Virtqueue.submitChain, if_pos haccepts]
    dsimp only
    rw [hindices]
  have hnodup : (taken ++ rest ++ s.outstanding.flatMap Request.chain).Nodup :=
    hperm.nodup_iff.mpr nodup_range
  rw [List.append_assoc, nodup_append] at hnodup
  obtain ⟨htakenNodup, -, hdisj⟩ := hnodup
  have hother : ∀ j ∈ rest ++ s.outstanding.flatMap Request.chain, j ∉ taken :=
    fun j hj hj' => hdisj j hj' j hj rfl
  have hcount := h.count_whereabouts
  have havail := h.avail.push (show s.heads.length < s.consumed.length + size by
    have := h.avail.le
    omega) (taken.headD 0)
  have hheads : (s.submitted ++ [(⟨taken, buffers⟩ : Request)]).map Request.head =
      s.heads ++ [taken.headD 0] := map_append
  have hmap : (s.outstanding ++ [(⟨taken, buffers⟩ : Request)]).map Request.head =
      s.outstanding.map Request.head ++ [taken.headD 0] := map_append
  have hslot : s.queue.availIdx % s.queue.size = s.heads.length % size := by
    rw [h.availIdx, h.size_eq, Nat.mod_mod_of_dvd _ hsize.dvd]
  rw [hindices', hqueue]
  exact {
    size_eq := h.size_eq
    partition := by
      refine ⟨rest, ?_, ?_, ?_⟩
      · refine hrest.congr ?_
        intro j hj
        exact congrArg Desc.next (fillChain_of_notMem (hother j (mem_append_left _ hj)))
      · rw [length_append] at hfree
        dsimp only
        omega
      · refine Perm.trans ?_ hperm
        rw [flatMap_append, flatMap_singleton, ← List.append_assoc, List.append_assoc taken]
        exact perm_append_comm
    chains := by
      intro r hr
      rcases mem_append.mp hr with hr | hr
      · obtain ⟨hbuffers, hchain⟩ := h.chains r hr
        refine ⟨hbuffers, hchain.congr ?_⟩
        intro j hj
        refine fillChain_of_notMem (hother j (mem_append_right _ ?_))
        exact mem_flatMap.mpr ⟨r, hr, hj⟩
      · obtain rfl := mem_singleton.mp hr
        refine ⟨ne_nil_of_length_pos (Nat.pos_of_ne_zero hsome), ?_⟩
        exact listsChain_fillChain htakenNodup htaken
    avail := by
      rw [QueueRun.heads, hheads]
      dsimp only
      rw [hslot]
      exact havail
    availIdx := by
      rw [QueueRun.heads, hheads, length_append, length_singleton]
      dsimp only
      rw [h.availIdx, Nat.mod_add_mod]
    seen := h.seen
    consumed := by
      rw [QueueRun.heads, hheads, take_append_of_le_length h.avail.le]
      exact h.consumed
    used := h.used
    usedIdx := h.usedIdx
    lastUsedIdx := h.lastUsedIdx
    returned := h.returned
    whereabouts := by
      rw [QueueRun.heads, hheads, hmap]
      dsimp only
      rw [drop_append_of_le_length h.avail.le]
      refine (h.whereabouts.append_right _).trans (perm_iff_count.mpr ?_)
      intro i
      simp only [List.count_append]
      omega }

/-- The device takes the head that is next. -/
theorem consume (hsize : QueueSize size) (hmore : s.seen ≠ s.queue.availIdx) :
    Invariant hhdm size { s with
      seen := (s.seen + 1) % 65536
      held := s.held ++ [s.queue.availRing (s.seen % s.queue.size)]
      consumed := s.consumed ++ [s.queue.availRing (s.seen % s.queue.size)] } := by
  have hlt : s.consumed.length < s.heads.length := by
    refine lt_of_le_of_ne h.avail.le ?_
    intro heq
    exact hmore (by rw [h.seen, h.availIdx, heq])
  have hhead : s.queue.availRing (s.seen % s.queue.size) = s.heads[s.consumed.length] := by
    rw [h.seen, h.size_eq, Nat.mod_mod_of_dvd _ hsize.dvd]
    exact h.avail.get _ le_rfl hlt
  rw [hhead]
  exact { h with
    avail := by
      rw [length_append, length_singleton]
      exact h.avail.pop hlt
    seen := by
      rw [length_append, length_singleton]
      dsimp only
      rw [h.seen, Nat.mod_add_mod]
    consumed := by
      rw [length_append, length_singleton]
      show s.consumed ++ _ = s.heads.take _
      rw [take_add_one, getElem?_eq_getElem hlt, ← h.consumed]
      rfl
    whereabouts := by
      rw [length_append, length_singleton]
      refine h.whereabouts.trans ?_
      rw [drop_eq_getElem_cons hlt]
      refine perm_iff_count.mpr ?_
      intro i
      simp only [QueueRun.heads, List.count_append, count_cons, count_nil]
      omega }

/-- The device publishes a completion. -/
theorem complete (hsize : QueueSize size) {head : ℕ} (hheld : head ∈ s.held) (len : ℕ) :
    Invariant hhdm size { s with
      queue := { s.queue with
        usedRing := Function.update s.queue.usedRing (s.queue.usedIdx % s.queue.size) (head, len)
        usedIdx := (s.queue.usedIdx + 1) % 65536 }
      held := s.held.erase head
      published := s.published ++ [(head, len)] } := by
  have hcount := h.count_whereabouts
  have hpos := length_pos_of_mem hheld
  have hroom : s.published.length < s.returned.length + size := by
    have := h.used.le
    omega
  have hslot : s.queue.usedIdx % s.queue.size = s.published.length % size := by
    rw [h.usedIdx, h.size_eq, Nat.mod_mod_of_dvd _ hsize.dvd]
  exact { h with
    used := by
      dsimp only
      rw [hslot]
      exact h.used.push hroom (head, len)
    usedIdx := by
      rw [length_append, length_singleton]
      dsimp only
      rw [h.usedIdx, Nat.mod_add_mod]
    returned := by
      dsimp only
      rw [take_append_of_le_length h.used.le]
      exact h.returned
    whereabouts := by
      dsimp only
      rw [drop_append_of_le_length h.used.le]
      refine h.whereabouts.trans (perm_iff_count.mpr ?_)
      intro i
      have hheld' := perm_iff_count.mp (perm_cons_erase hheld) i
      simp only [QueueRun.heads, List.count_append, map_append, count_cons, map_cons,
        map_nil, count_nil] at hheld' ⊢
      omega }

/-- There is a completion to return exactly if the counters differ. -/
theorem usedIdx_eq_iff (hsize : QueueSize size) :
    s.queue.usedIdx = s.queue.lastUsedIdx ↔ s.returned.length = s.published.length := by
  have hlap := h.used.lap
  have hle := hsize.pos_le.2
  rw [h.usedIdx, h.lastUsedIdx, eq_comm]
  exact mod_eq_mod_iff_of_lt h.used.le (by omega)

/-- The completion that is next belongs to an outstanding request. -/
theorem exists_request (hlt : s.returned.length < s.published.length) :
    ∃ r ∈ s.outstanding, r.head = s.published[s.returned.length].1 := by
  refine List.mem_map.mp (h.whereabouts.mem_iff.mpr (mem_append_right _ ?_))
  rw [drop_eq_getElem_cons hlt]
  exact mem_cons_self

theorem tryWait (hsize : QueueSize size) (hlt : s.returned.length < s.published.length) :
    ∃ q, s.queue.tryWait = some (q, some s.published[s.returned.length]) ∧
      Invariant hhdm size { s with
        queue := q
        outstanding := s.outstanding.filter fun r => r.head ≠ s.published[s.returned.length].1
        returned := s.returned ++ [s.published[s.returned.length]] } := by
  obtain ⟨free, hfollows, hfree, hperm⟩ := h.partition
  obtain ⟨r, hr, hhead⟩ := h.exists_request hlt
  have hnodup : (free ++ s.outstanding.flatMap Request.chain).Nodup :=
    hperm.nodup_iff.mpr nodup_range
  have hheads : (s.outstanding.map Request.head).Nodup :=
    nodup_map_head (fun r' hr' => h.chain_ne_nil hr') (nodup_append.mp hnodup).2.1
  have hsplit := perm_cons_filter_head hheads hr
  rw [hhead] at hsplit
  set elem := s.published[s.returned.length] with helem
  set others := s.outstanding.filter fun r => r.head ≠ elem.1 with hothers
  -- all descriptors: the free ones, those of the request and those of the others
  have hall : (free ++ (r.chain ++ others.flatMap Request.chain)).Perm (List.range size) :=
    ((hsplit.flatMap_right Request.chain).symm.append_left free).trans hperm
  have hallNodup := hall.nodup_iff.mpr nodup_range
  obtain ⟨hbuffers, hchain⟩ := h.chains r hr
  obtain ⟨i, is, his⟩ := exists_cons_of_ne_nil (h.chain_ne_nil hr)
  have hi : i = elem.1 := by
    rw [← hhead, Request.head, his]
    rfl
  rw [his] at hall hallNodup hchain
  have hlen := hall.length_eq
  simp only [length_append, length_range] at hlen
  have hsmall : i < size := mem_range.mp (hall.mem_iff.mp (by simp))
  have hsize' := hsize.pos_le.2
  have hid : elem.1 % 65536 = i := by
    rw [← hi]
    exact Nat.mod_eq_of_lt (by omega)
  have hnodup' : (i :: is ++ free).Nodup := by
    rw [← List.append_assoc] at hallNodup
    exact nodup_append_comm.mp (nodup_append.mp hallNodup).1
  have hrounds : (i :: is).length ≤ s.queue.size := by
    rw [h.size_eq]
    omega
  obtain ⟨q, hgo, hfollows', hnum, hsame, hframe⟩ := Virtqueue.freeChainGo_spec
    (q := { s.queue with lastUsedIdx := (s.queue.lastUsedIdx + 1) % 65536 })
    hchain hrounds hfollows hnodup' (show s.queue.numFree + _ < 65536 by omega)
  have hwait : s.queue.tryWait = some (q, some elem) := by
    have hne : s.queue.usedIdx ≠ s.queue.lastUsedIdx := by
      rw [ne_eq, h.usedIdx_eq_iff hsize]
      exact hlt.ne
    have hslot : s.queue.usedRing (s.queue.lastUsedIdx % s.queue.size) = elem := by
      rw [h.lastUsedIdx, h.size_eq, Nat.mod_mod_of_dvd _ hsize.dvd]
      exact h.used.get _ le_rfl hlt
    rw [Virtqueue.tryWait, if_neg hne]
    dsimp only
    rw [hslot, hid, Virtqueue.freeChain, hgo]
    show some (q, some (i, elem.2)) = _
    rw [hi]
  have hreturned : (s.returned ++ [elem]).length = s.returned.length + 1 := length_append
  refine ⟨q, hwait, ?_⟩
  exact {
    size_eq := (congrArg Virtqueue.size hframe :).trans h.size_eq
    partition := by
      refine ⟨(i :: is).reverse ++ free, hfollows', ?_, ?_⟩
      · rw [hnum, length_append, length_reverse, hfree, Nat.add_comm]
      · refine Perm.trans (perm_iff_count.mpr ?_) hall
        intro j
        simp only [List.count_append, count_reverse]
        omega
    chains := by
      intro r' hr'
      obtain ⟨hbuffers', hchain'⟩ := h.chains r' (mem_of_mem_filter hr')
      refine ⟨hbuffers', hchain'.congr ?_⟩
      intro j hj
      refine hsame j ?_
      intro hj'
      have hdisj := (nodup_append.mp (nodup_append.mp hallNodup).2.1).2.2
      exact hdisj j hj' j (mem_flatMap.mpr ⟨r', hr', hj⟩) rfl
    avail := by
      have hring : q.availRing = s.queue.availRing := (congrArg Virtqueue.availRing hframe :)
      dsimp only
      rw [hring]
      exact h.avail
    availIdx := (congrArg Virtqueue.availIdx hframe :).trans h.availIdx
    seen := h.seen
    consumed := h.consumed
    used := by
      have hring : q.usedRing = s.queue.usedRing := (congrArg Virtqueue.usedRing hframe :)
      dsimp only
      rw [hring, hreturned]
      exact h.used.pop hlt
    usedIdx := (congrArg Virtqueue.usedIdx hframe :).trans h.usedIdx
    lastUsedIdx := by
      refine (congrArg Virtqueue.lastUsedIdx hframe :).trans ?_
      rw [hreturned, h.lastUsedIdx, Nat.mod_add_mod]
    returned := by
      dsimp only
      rw [hreturned, take_add_one, getElem?_eq_getElem hlt, ← h.returned]
      rfl
    whereabouts := by
      have hbefore := (hsplit.map Request.head).symm.trans h.whereabouts
      rw [drop_eq_getElem_cons hlt, ← helem, map_cons, hhead] at hbefore
      dsimp only
      rw [hreturned]
      refine perm_iff_count.mpr ?_
      intro j
      have hcount := perm_iff_count.mp hbefore j
      simp only [QueueRun.heads, List.count_append, count_cons, map_cons] at hcount ⊢
      omega }

theorem step (hsize : QueueSize size) {e : QueueEvent} {s' : QueueRun}
    (hs : s.step hhdm e = some s') : s'.Invariant hhdm size := by
  cases e with
  | submitChain buffers =>
    rw [QueueRun.step] at hs
    split at hs
    · rename_i haccepts
      obtain rfl := some.inj hs
      exact h.submitChain hsize haccepts
    · rename_i hrejects
      obtain rfl := some.inj hs
      rw [Virtqueue.submitChain, if_neg hrejects]
      exact h
  | consume =>
    rw [QueueRun.step] at hs
    split at hs
    · cases hs
    · rename_i hmore
      obtain rfl := some.inj hs
      exact h.consume hsize hmore
  | complete head len =>
    rw [QueueRun.step] at hs
    split at hs
    · rename_i hheld
      obtain rfl := some.inj hs
      exact h.complete hsize hheld len
    · cases hs
  | tryWait =>
    rw [QueueRun.step] at hs
    rcases Nat.eq_or_lt_of_le h.used.le with hnone | hlt
    · have hwait : s.queue.tryWait = some (s.queue, none) :=
        if_pos ((h.usedIdx_eq_iff hsize).mpr hnone)
      rw [hwait] at hs
      obtain rfl := some.inj hs
      exact h
    · obtain ⟨q, hwait, hnext⟩ := h.tryWait hsize hlt
      rw [hwait] at hs
      obtain rfl := some.inj hs
      exact hnext

theorem books (hsize : QueueSize size) : s.Books hhdm where
  partition := h.size_eq ▸ h.partition
  chains := h.chains
  consumed := h.consumed
  kept := by
    intro i hlo hi
    have hi' : i < s.heads.length := by
      rw [QueueRun.heads, length_map]
      exact hi
    rw [h.size_eq, h.avail.get i hlo hi']
    exact getElem_map _
  returned := h.returned
  tryWait := by
    rcases Nat.eq_or_lt_of_le h.used.le with hnone | hlt
    · refine ⟨s.queue, ?_⟩
      rw [hnone, getElem?_eq_none le_rfl]
      exact if_pos ((h.usedIdx_eq_iff hsize).mpr hnone)
    · obtain ⟨q, hwait, -⟩ := h.tryWait hsize hlt
      rw [getElem?_eq_getElem hlt]
      exact ⟨q, hwait⟩

end
end QueueRun.Invariant

/-! ### Whole runs -/

/-- The books of a virtqueue are right, whatever driver and device do. -/
theorem virtqueue_books (hhdm size : ℕ) (hsize : QueueSize size) (s : QueueRun)
    (h : (virtqueueSystem hhdm size).Reachable TransitionSystem.anyStep s) : s.Books hhdm := by
  have hinv : s.Invariant hhdm size := by
    refine h.invariant ?_ ?_
    · rintro s rfl
      exact .start
    · intro s e s' _ hinv _ hs
      exact hinv.step hsize hs
  exact hinv.books hsize

/-- The theorem for two requests on a queue of size 4, the second of which is completed first. -/
theorem virtqueue_books_of_two_requests :
    ∃ s : QueueRun, s.returned = [(2, 7), (0, 512)] ∧ s.Books 0 := by
  obtain ⟨s, hs, hreturned⟩ := (virtqueueSystem 0 4).exists_of_run
    (P := fun s => s.returned = [(2, 7), (0, 512)]) (s := .start 4) rfl
    [.submitChain [⟨0, 16, false⟩, ⟨4096, 512, true⟩], .submitChain [⟨8192, 8, true⟩], .consume,
      .consume, .complete 2 7, .complete 0 512, .tryWait, .tryWait]
    (by decide +kernel)
  exact ⟨s, hreturned, virtqueue_books 0 4 ⟨2, by decide, rfl⟩ s hs⟩

end AnssOS
