import AnssOS.Foundation.RingWindow
import AnssOS.Foundation.Transition

/-!
# The queues of an NVMe controller

The driver puts commands in a submission queue and polls the completion queue for the entry with the
id of its command.  A command can time out; its entry then comes later and is skipped by a later call.
That an entry is new can be seen from its phase tag only, which is flipped on each lap.

### Outline

* `Nvme`, and a call of `submit` in steps, between which the controller can post completions;
* `NvmeRun.Invariant`, and that each step keeps it;
* `nvme_completions`: entries are consumed in the order of posting, and a call returns the status of the
  entry with its id.
-/

namespace AnssOS

open List Option Function

/-! ### The driver -/

/-- `QUEUE_ENTRIES`. -/
def queueEntries : ℕ := 64

/-- An entry of a submission queue; the id of the command is in the upper half of `cdw0`. -/
structure SqEntry where
  cdw0 : ℕ
  nsid : ℕ
  prp1 : ℕ
  prp2 : ℕ
  cdw10 : ℕ
  cdw11 : ℕ
  cdw12 : ℕ

/-- An entry of a completion queue; the phase tag is in the lowest bit of `status`. -/
structure CqEntry where
  commandId : ℕ
  status : ℕ
deriving DecidableEq

structure NvmeQueue where
  sq : ℕ → SqEntry
  cq : ℕ → CqEntry
  sqTail : ℕ
  cqHead : ℕ
  phase : ℕ

/-- A driver with its queue for administration and, at `true`, the one for data. -/
structure Nvme where
  queue : Bool → NvmeQueue
  nextId : ℕ

namespace NvmeQueue

/-- A queue in memory that has been zeroed. -/
def new : NvmeQueue := ⟨fun _ => ⟨0, 0, 0, 0, 0, 0, 0⟩, fun _ => ⟨0, 0⟩, 0, 0, 1⟩

/-- Puts a command in the submission queue. -/
def push (q : NvmeQueue) (cmd : SqEntry) : NvmeQueue := { q with
  sq := Function.update q.sq q.sqTail cmd
  sqTail := (q.sqTail + 1) % queueEntries }

/-- Leaves the entry at the head of the completion queue behind. -/
def pop (q : NvmeQueue) : NvmeQueue :=
  let head := (q.cqHead + 1) % queueEntries
  { q with cqHead := head, phase := if head = 0 then q.phase ^^^ 1 else q.phase }

end NvmeQueue

/-- A command with its id. -/
def SqEntry.withId (cmd : SqEntry) (id : ℕ) : SqEntry :=
  { cmd with cdw0 := cmd.cdw0 % 65536 ||| id <<< 16 }

/-! ### Calls and completions -/

/-- Where a call of `submit` is: it looks at the head of the completion queue, or it has seen that the
entry there is new and reads the rest of it. -/
inductive SubmitState
  | idle
  | polling (io : Bool) (id : ℕ)
  | fresh (io : Bool) (id status : ℕ)

/-- What a call has returned: the number of the command and its id, the status, and how many entries
of its queue had been consumed by then. -/
structure SubmitResult where
  io : Bool
  number : ℕ
  id : ℕ
  status : Option ℕ
  count : ℕ
deriving DecidableEq

/-- A driver and its controller; with the number of commands so far, the entries that were posted in
each queue and the numbers of their commands, the entries that were consumed, and the results of the
calls. -/
structure NvmeRun where
  nvme : Nvme
  state : SubmitState
  commands : ℕ
  posted : Bool → List (CqEntry × ℕ)
  consumed : Bool → List CqEntry
  results : List SubmitResult

/-- A call begins; it reads the status of the entry at the head, and finds that it has timed out if
`expired`; it reads the rest of an entry that is new.  Or the controller posts the completion of a
command. -/
inductive NvmeEvent
  | submit (io : Bool) (cmd : SqEntry)
  | readStatus (expired : Bool)
  | readCommandId
  | post (io : Bool) (number status : ℕ)

namespace NvmeRun

def start : NvmeRun :=
  ⟨⟨fun _ => .new, 0⟩, .idle, 0, fun _ => [], fun _ => [], []⟩

/-- The result of the call that runs, which is that of the last command. -/
def result (s : NvmeRun) (io : Bool) (id : ℕ) (status : Option ℕ) : SubmitResult :=
  ⟨io, s.commands - 1, id, status, (s.consumed io).length⟩

/-- The tag of the next completion. -/
def nextTag (s : NvmeRun) (io : Bool) : ℕ :=
  if AnssOS.phase queueEntries (s.posted io).length then 1 else 0

/-- The entry of a completion. -/
def entry (s : NvmeRun) (io : Bool) (number status : ℕ) : CqEntry :=
  ⟨number % 65536, status * 2 + s.nextTag io⟩

/-- The entry at the head of a queue is left behind. -/
def consume (s : NvmeRun) (io : Bool) : NvmeRun :=
  let q := s.nvme.queue io
  { s with
    nvme := { s.nvme with queue := Function.update s.nvme.queue io q.pop }
    consumed := Function.update s.consumed io (s.consumed io ++ [q.cq q.cqHead]) }

/-- An entry is written to the next slot of a queue. -/
def append (s : NvmeRun) (io : Bool) (number : ℕ) (e : CqEntry) : NvmeRun :=
  let q := s.nvme.queue io
  { s with
    nvme := { s.nvme with queue := Function.update s.nvme.queue io { q with
      cq := Function.update q.cq ((s.posted io).length % queueEntries) e } }
    posted := Function.update s.posted io (s.posted io ++ [(e, number)]) }

def step (s : NvmeRun) : NvmeEvent → Option NvmeRun
  | .submit io cmd =>
      match s.state with
      | .idle =>
          let id := s.nvme.nextId
          some { s with
            nvme := ⟨Function.update s.nvme.queue io ((s.nvme.queue io).push (cmd.withId id)),
              (id + 1) % 65536⟩
            state := .polling io id
            commands := s.commands + 1 }
      | _ => none
  | .readStatus expired =>
      match s.state with
      | .polling io id =>
          let q := s.nvme.queue io
          let status := (q.cq q.cqHead).status
          if status % 2 = q.phase then some { s with state := .fresh io id status }
          else if expired then
            some { s with state := .idle, results := s.results ++ [s.result io id none] }
          else some s
      | _ => none
  | .readCommandId =>
      match s.state with
      | .fresh io id status =>
          let q := s.nvme.queue io
          let got := (q.cq q.cqHead).commandId
          let s := s.consume io
          if got = id then some { s with
            state := .idle
            results := s.results ++ [s.result io id (some (status / 2))] }
          else some { s with state := .polling io id }
      | _ => none
  | .post io number status =>
      -- the controller does not overrun the head
      if number < s.commands ∧ (s.posted io).length < (s.consumed io).length + queueEntries then
        some (s.append io number (s.entry io number status))
      else none

end NvmeRun

def nvmeSystem : TransitionSystem NvmeRun NvmeEvent where
  init s := s = .start
  step := NvmeRun.step

/-- What has to hold: entries are consumed in the order of posting, one by one; the entry at the head
of a queue is new exactly if there is one that was not consumed yet; and a call that returns a status
has consumed, as its last entry, the one with its id and that status.  This is the entry of its own
command, unless it is that of a command at least 65536 before. -/
structure NvmeRun.Books (s : NvmeRun) : Prop where
  consumed : ∀ io, s.consumed io = ((s.posted io).map Prod.fst).take (s.consumed io).length
  fresh : ∀ io, ((s.nvme.queue io).cq (s.nvme.queue io).cqHead).status % 2 = (s.nvme.queue io).phase ↔
    (s.consumed io).length < (s.posted io).length
  results : ∀ r ∈ s.results, ∀ status, r.status = some status →
    ∃ e number, 0 < r.count ∧ (s.posted r.io)[r.count - 1]? = some (e, number) ∧ e.commandId = r.id ∧
      e.status / 2 = status ∧ (number = r.number ∨ number + 65536 ≤ r.number)

/-! ### The invariant -/

/-- The tag of an entry. -/
def CqEntry.tag (e : CqEntry) : Bool := e.status % 2 = 1

/-- One queue: what the driver has consumed and what was posted. -/
structure NvmeQueue.Invariant (q : NvmeQueue) (posted consumed : List CqEntry) : Prop where
  queue : TaggedQueue queueEntries CqEntry.tag q.cq posted consumed
  cqHead : q.cqHead = consumed.length % queueEntries
  phase : q.phase = if AnssOS.phase queueEntries consumed.length then 1 else 0

namespace NvmeQueue.Invariant

variable {q : NvmeQueue} {posted consumed : List CqEntry}

theorem new : NvmeQueue.new.Invariant [] [] where
  queue := .start fun _ _ => rfl
  cqHead := rfl
  phase := rfl

section

variable (h : q.Invariant posted consumed)

include h

theorem push (cmd : SqEntry) : (q.push cmd).Invariant posted consumed :=
  ⟨h.queue, h.cqHead, h.phase⟩

/-- The phase tag tells whether the entry at the head is new. -/
theorem fresh_iff : (q.cq q.cqHead).status % 2 = q.phase ↔ consumed.length < posted.length := by
  rw [← h.queue.fresh_iff (by decide), h.phase, h.cqHead, CqEntry.tag]
  rcases AnssOS.phase queueEntries consumed.length <;> simp

theorem head (hlt : consumed.length < posted.length) : q.cq q.cqHead = posted[consumed.length] := by
  rw [h.cqHead]
  exact h.queue.window.get _ le_rfl hlt

theorem pop (hlt : consumed.length < posted.length) :
    q.pop.Invariant posted (consumed ++ [q.cq q.cqHead]) := by
  have hlen : (consumed ++ [q.cq q.cqHead]).length = consumed.length + 1 := length_append
  have hhead : (q.cqHead + 1) % queueEntries = (consumed.length + 1) % queueEntries := by
    rw [h.cqHead, Nat.mod_add_mod]
  exact {
    queue := by
      rw [h.cqHead]
      exact h.queue.receive hlt
    cqHead := hhead.trans (congrArg (· % queueEntries) hlen.symm)
    phase := by
      show (if (q.cqHead + 1) % queueEntries = 0 then q.phase ^^^ 1 else q.phase) = _
      rw [hlen, phase_succ, hhead, h.phase]
      split
      · rcases AnssOS.phase queueEntries consumed.length <;> rfl
      · rfl }

theorem append (hroom : posted.length < consumed.length + queueEntries) {e : CqEntry}
    (htag : e.tag = AnssOS.phase queueEntries posted.length) :
    Invariant { q with cq := Function.update q.cq (posted.length % queueEntries) e }
      (posted ++ [e]) consumed :=
  ⟨h.queue.send (by decide) hroom htag, h.cqHead, h.phase⟩

end
end NvmeQueue.Invariant

namespace NvmeRun

/-- The call that runs has the id of the last command, and the entry that it has found to be new is at
the head of its queue. -/
def CallOk (s : NvmeRun) : Prop :=
  match s.state with
  | .idle => True
  | .polling _ id => 0 < s.commands ∧ id = (s.commands - 1) % 65536
  | .fresh io id status => (0 < s.commands ∧ id = (s.commands - 1) % 65536) ∧
      (s.consumed io).length < (s.posted io).length ∧
      status = ((s.nvme.queue io).cq (s.nvme.queue io).cqHead).status

/-- The result of a call is that of the entry that it has consumed last. -/
def ResultOk (s : NvmeRun) (r : SubmitResult) : Prop :=
  ∀ status, r.status = some status →
    ∃ e number, 0 < r.count ∧ (s.posted r.io)[r.count - 1]? = some (e, number) ∧ e.commandId = r.id ∧
      e.status / 2 = status ∧ (number = r.number ∨ number + 65536 ≤ r.number)

structure Invariant (s : NvmeRun) : Prop where
  queues : ∀ io, (s.nvme.queue io).Invariant ((s.posted io).map Prod.fst) (s.consumed io)
  nextId : s.nvme.nextId = s.commands % 65536
  call : s.CallOk
  posted : ∀ io, ∀ e ∈ s.posted io, e.2 < s.commands ∧ e.1.commandId = e.2 % 65536
  results : ∀ r ∈ s.results, s.ResultOk r

namespace Invariant

variable {s : NvmeRun}

theorem start : NvmeRun.start.Invariant where
  queues := fun _ => .new
  nextId := rfl
  call := trivial
  posted := fun _ _ he => (nomatch he)
  results := fun _ hr => (nomatch hr)

theorem fresh_iff (h : s.Invariant) (io : Bool) :
    ((s.nvme.queue io).cq (s.nvme.queue io).cqHead).status % 2 = (s.nvme.queue io).phase ↔
      (s.consumed io).length < (s.posted io).length := by
  rw [(h.queues io).fresh_iff, length_map]

theorem books (h : s.Invariant) : s.Books :=
  ⟨fun io => (h.queues io).queue.inOrder, h.fresh_iff, h.results⟩

/-- The entries after the controller has posted one. -/
theorem posted_append (s : NvmeRun) (io : Bool) (number : ℕ) (e : CqEntry) (io' : Bool) :
    (s.append io number e).posted io' = s.posted io' ++ if io' = io then [(e, number)] else [] := by
  show Function.update s.posted io _ io' = _
  rw [update_apply]
  split
  · rename_i hio
    rw [hio]
  · rw [List.append_nil]

theorem submit (h : s.Invariant) (io : Bool) (cmd : SqEntry) :
    Invariant { s with
      nvme := ⟨Function.update s.nvme.queue io ((s.nvme.queue io).push (cmd.withId s.nvme.nextId)),
        (s.nvme.nextId + 1) % 65536⟩
      state := .polling io s.nvme.nextId
      commands := s.commands + 1 } where
  queues := by
    intro io'
    by_cases hio : io' = io
    · subst hio
      dsimp only
      rw [update_self]
      exact (h.queues io').push _
    · dsimp only
      rw [update_of_ne hio]
      exact h.queues io'
  nextId := by
    dsimp only
    rw [h.nextId, Nat.mod_add_mod]
  call := ⟨Nat.succ_pos _, h.nextId⟩
  posted := fun io' e he => ⟨(h.posted io' e he).1.trans (Nat.lt_succ_self _), (h.posted io' e he).2⟩
  results := h.results

theorem consume (h : s.Invariant) {io : Bool} {id status : ℕ} (hstate : s.state = .fresh io id status) :
    ∃ e number, (s.posted io)[(s.consumed io).length]? = some (e, number) ∧
      (s.nvme.queue io).cq (s.nvme.queue io).cqHead = e ∧ e.status = status ∧
      ((s.consume io).consumed io).length = (s.consumed io).length + 1 ∧
      ∀ io', ((s.consume io).nvme.queue io').Invariant (((s.consume io).posted io').map Prod.fst)
        ((s.consume io).consumed io') := by
  have hcall := h.call
  unfold CallOk at hcall
  rw [hstate] at hcall
  obtain ⟨-, hlt, hstatus⟩ := hcall
  have hlt' : (s.consumed io).length < ((s.posted io).map Prod.fst).length := by
    rw [length_map]
    exact hlt
  have hhead := (h.queues io).head hlt'
  rw [getElem_map] at hhead
  refine ⟨_, _, getElem?_eq_getElem hlt, hhead, ?_, ?_, ?_⟩
  · rw [hstatus, hhead]
    rfl
  · show (Function.update s.consumed io _ io).length = _
    rw [update_self, length_append]
    rfl
  · intro io'
    by_cases hio : io' = io
    · subst hio
      show (Function.update s.nvme.queue io' _ io').Invariant _ (Function.update s.consumed io' _ io')
      rw [update_self, update_self]
      exact (h.queues io').pop hlt'
    · show (Function.update s.nvme.queue io _ io').Invariant _ (Function.update s.consumed io _ io')
      rw [update_of_ne hio, update_of_ne hio]
      exact h.queues io'

/-- A call reads an entry that is new; if it is that of the call, the call returns. -/
theorem readCommandId (h : s.Invariant) {s' : NvmeRun} (hs : s.step .readCommandId = some s') :
    s'.Invariant := by
  rcases hstate : s.state with - | ⟨io, id⟩ | ⟨io, id, status⟩
  · rw [step, hstate] at hs
    cases hs
  · rw [step, hstate] at hs
    cases hs
  · obtain ⟨e, number, hposted, hhead, hstatus, hcount, hqueues⟩ := h.consume hstate
    obtain ⟨⟨hpos, hid⟩, -⟩ : (0 < s.commands ∧ id = (s.commands - 1) % 65536) ∧ _ := by
      have hcall := h.call
      unfold CallOk at hcall
      rw [hstate] at hcall
      exact hcall
    rw [step, hstate] at hs
    dsimp only at hs
    rw [hhead] at hs
    split at hs
    · rename_i hgot
      obtain rfl := some.inj hs
      refine ⟨hqueues, h.nextId, trivial, h.posted, ?_⟩
      intro r hr
      rcases mem_append.mp hr with hr | hr
      · exact h.results r hr
      · obtain rfl := mem_singleton.mp hr
        obtain ⟨hnumber, hnumber'⟩ := h.posted io _ (mem_of_getElem? hposted)
        dsimp only at hnumber hnumber'
        intro status' hstatus'
        obtain rfl := some.inj hstatus'
        refine ⟨e, number, ?_, ?_, hgot, by rw [hstatus], ?_⟩
        · show 0 < ((s.consume io).consumed io).length
          rw [hcount]
          exact Nat.succ_pos _
        · show (s.posted io)[((s.consume io).consumed io).length - 1]? = _
          rw [hcount]
          exact hposted
        · show number = s.commands - 1 ∨ number + 65536 ≤ s.commands - 1
          omega
    · obtain rfl := some.inj hs
      exact ⟨hqueues, h.nextId, ⟨hpos, hid⟩, h.posted, h.results⟩

/-- A call looks at the status at the head of its queue. -/
theorem readStatus (h : s.Invariant) {expired : Bool} {s' : NvmeRun}
    (hs : s.step (.readStatus expired) = some s') : s'.Invariant := by
  rcases hstate : s.state with - | ⟨io, id⟩ | ⟨io, id, status⟩
  · rw [step, hstate] at hs
    cases hs
  · have hcall : 0 < s.commands ∧ id = (s.commands - 1) % 65536 := by
      have hcall := h.call
      unfold CallOk at hcall
      rw [hstate] at hcall
      exact hcall
    rw [step, hstate] at hs
    dsimp only at hs
    split at hs
    · rename_i hfresh
      obtain rfl := some.inj hs
      exact ⟨h.queues, h.nextId, ⟨hcall, (h.fresh_iff io).mp hfresh, rfl⟩, h.posted, h.results⟩
    · split at hs
      · obtain rfl := some.inj hs
        refine ⟨h.queues, h.nextId, trivial, h.posted, ?_⟩
        intro r hr
        rcases mem_append.mp hr with hr | hr
        · exact h.results r hr
        · obtain rfl := mem_singleton.mp hr
          exact fun status hstatus => (nomatch hstatus)
      · obtain rfl := some.inj hs
        exact h
  · rw [step, hstate] at hs
    cases hs

/-- The controller posts a completion. -/
theorem append (h : s.Invariant) {io : Bool} {number status : ℕ} (hnumber : number < s.commands)
    (hroom : (s.posted io).length < (s.consumed io).length + queueEntries) :
    (s.append io number (s.entry io number status)).Invariant := by
  have htag : (s.entry io number status).tag =
      AnssOS.phase queueEntries ((s.posted io).map Prod.fst).length := by
    rw [length_map]
    show decide ((status * 2 + s.nextTag io) % 2 = 1) = _
    unfold nextTag
    rcases AnssOS.phase queueEntries (s.posted io).length <;> simp [Nat.mul_add_mod_self_right]
  have hqueues : ∀ io', ((s.append io number (s.entry io number status)).nvme.queue io').Invariant
      (((s.append io number (s.entry io number status)).posted io').map Prod.fst) (s.consumed io') := by
    intro io'
    by_cases hio : io' = io
    · subst hio
      show (Function.update s.nvme.queue io' _ io').Invariant
        ((Function.update s.posted io' _ io').map Prod.fst) _
      rw [update_self, update_self, map_append, ← length_map (f := Prod.fst)]
      refine (h.queues io').append ?_ htag
      rw [length_map]
      exact hroom
    · show (Function.update s.nvme.queue io _ io').Invariant
        ((Function.update s.posted io _ io').map Prod.fst) _
      rw [update_of_ne hio, update_of_ne hio]
      exact h.queues io'
  exact {
    queues := hqueues
    nextId := h.nextId
    call := by
      have hcall := h.call
      unfold CallOk at hcall ⊢
      show match s.state with | .idle => _ | .polling _ _ => _ | .fresh _ _ _ => _
      rcases hstate : s.state with - | ⟨io', id⟩ | ⟨io', id, status'⟩
      · trivial
      · rw [hstate] at hcall
        exact hcall
      · rw [hstate] at hcall
        obtain ⟨hid, hlt, hstatus⟩ := hcall
        have hlt' : (s.consumed io').length <
            ((s.append io number (s.entry io number status)).posted io').length := by
          rw [posted_append, length_append]
          omega
        refine ⟨hid, hlt', ?_⟩
        -- the entry at the head was there before
        have hbefore := (h.queues io').head (by rw [length_map]; exact hlt)
        have hafter := (hqueues io').head (by rw [length_map]; exact hlt')
        rw [hstatus, hbefore]
        refine congrArg CqEntry.status (Eq.symm (hafter.trans ?_))
        simp only [getElem_map, posted_append]
        rw [getElem_append_left hlt]
    posted := by
      intro io' e he
      rw [posted_append, mem_append] at he
      rcases he with he | he
      · exact h.posted io' e he
      · split at he
        · obtain rfl := mem_singleton.mp he
          exact ⟨hnumber, rfl⟩
        · cases he
    results := by
      intro r hr status' hstatus'
      obtain ⟨e, number', hpos, hget, hrest⟩ := h.results r hr status' hstatus'
      refine ⟨e, number', hpos, ?_, hrest⟩
      rw [posted_append, getElem?_append_left (List.getElem?_eq_some_iff.mp hget).1]
      exact hget }

theorem step (h : s.Invariant) {e : NvmeEvent} {s' : NvmeRun} (hs : s.step e = some s') :
    s'.Invariant := by
  cases e with
  | submit io cmd =>
    rcases hstate : s.state with - | ⟨io', id⟩ | ⟨io', id, status⟩
    · rw [NvmeRun.step, hstate] at hs
      obtain rfl := some.inj hs
      exact h.submit io cmd
    · rw [NvmeRun.step, hstate] at hs
      cases hs
    · rw [NvmeRun.step, hstate] at hs
      cases hs
  | readStatus expired => exact h.readStatus hs
  | readCommandId => exact h.readCommandId hs
  | post io number status =>
    rw [NvmeRun.step] at hs
    split at hs
    · rename_i hpost
      obtain rfl := some.inj hs
      exact h.append hpost.1 hpost.2
    · cases hs

end Invariant

end NvmeRun

/-! ### Whole runs -/

/-- Completions are consumed in order and none of them is lost, whatever times out. -/
theorem nvme_completions (s : NvmeRun) (h : nvmeSystem.Reachable TransitionSystem.anyStep s) :
    s.Books := by
  have hinv : s.Invariant := by
    refine h.invariant ?_ ?_
    · rintro s rfl
      exact .start
    · intro s e s' _ hinv _ hs
      exact hinv.step hs
  exact hinv.books

/-- The theorem for a command that times out and whose completion comes during the next call. -/
theorem nvme_completions_of_timeout :
    ∃ s : NvmeRun, s.results = [⟨true, 0, 0, none, 0⟩, ⟨true, 1, 1, some 0, 2⟩] ∧ s.Books := by
  obtain ⟨s, hs, hresults⟩ := nvmeSystem.exists_of_run
    (P := fun s => s.results = [⟨true, 0, 0, none, 0⟩, ⟨true, 1, 1, some 0, 2⟩]) (s := .start) rfl
    [.submit true ⟨2, 1, 0, 0, 0, 0, 0⟩, .readStatus true, .submit true ⟨2, 1, 0, 0, 8, 0, 0⟩,
      .post true 0 5, .post true 1 0, .readStatus false, .readCommandId, .readStatus false,
      .readCommandId]
    (by decide +kernel)
  exact ⟨s, hresults, nvme_completions s hs⟩

end AnssOS
