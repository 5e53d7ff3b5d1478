import AnssOS.Exec.ElfContents
import AnssOS.Exec.EnoughPages

/-!
# The arguments of a new program

`elf::load` lays out the arguments at the top of the user stack, through the direct map; the program
reads them from there through its own page tables, as `_start` in
`userland/rust/anssos/src/start.rs` and C code do.

### Outline

* `wordAt`, `stringAt`, `argvAt`: how a program reads its arguments;
* `argPlaces`, `stackRanges`: where the strings and the pointers are put;
* `Strings`: the strings lie one behind the other, up to the top of the stack;
* `initStack_spec`: what `initStack` leaves;
* `argv_survives`: the program gets its arguments.
-/

namespace AnssOS

open List Option

/-! ### Reading the arguments -/

section Reading

variable (byte : ℕ → Option UInt8)

/-- The 64-bit word at the address `x`. -/
def wordAt (x : ℕ) : Option ℕ := ((List.range 8).mapM fun k => byte (x + k)).map leNat

/-- The string at the address `x`, without the NUL at its end; `fuel` bytes are looked at. -/
def stringAt : ℕ → ℕ → Option (List UInt8)
  | 0, _ => none
  | fuel + 1, x =>
      match byte x with
      | none => none
      | some b => if b = 0 then some [] else (stringAt fuel (x + 1)).map (b :: ·)

/-- The arguments that a program finds with the stack pointer `rsp`: `argc`, as many pointers, a
NULL, and the strings that the pointers lead to. -/
def argvAt (fuel rsp : ℕ) : Option (ℕ × List (List UInt8)) := do
  let argc ← wordAt byte rsp
  let ptrs ← (List.range argc).mapM fun k => wordAt byte (rsp + 8 + 8 * k)
  let null ← wordAt byte (rsp + 8 + 8 * argc)
  guard (null = 0)
  let args ← ptrs.mapM (stringAt byte fuel)
  return (argc, args)

end Reading

theorem mapM_eq_some {α β : Type*} {f : α → Option β} {g : α → β} {l : List α}
    (h : ∀ a ∈ l, f a = some (g a)) : l.mapM f = some (l.map g) := by
  induction l with
  | nil => rfl
  | cons a l ih =>
    rw [mapM_cons, h a mem_cons_self, ih fun b hb => h b (mem_cons_of_mem _ hb)]
    rfl

/-- A string is read up to its end. -/
theorem stringAt_eq {byte : ℕ → Option UInt8} {s : List UInt8} {x fuel : ℕ} (hnul : 0 ∉ s)
    (hfuel : s.length < fuel) (h : ∀ k < s.length + 1, byte (x + k) = some ((s ++ [0]).getD k 0)) :
    stringAt byte fuel x = some s := by
  induction s generalizing x fuel with
  | nil =>
    obtain ⟨fuel, rfl⟩ := Nat.exists_eq_succ_of_ne_zero (Nat.ne_of_gt hfuel)
    have hzero := h 0 (by simp)
    rw [Nat.add_zero] at hzero
    simp [stringAt, hzero]
  | cons b s ih =>
    have hb : b ≠ 0 := fun hzero => hnul (hzero ▸ mem_cons_self)
    have hnul : 0 ∉ s := fun hmem => hnul (mem_cons_of_mem _ hmem)
    obtain ⟨fuel, rfl⟩ := Nat.exists_eq_succ_of_ne_zero (Nat.ne_of_gt (Nat.zero_lt_of_lt hfuel))
    have hfirst := h 0 (by simp)
    rw [Nat.add_zero] at hfirst
    rw [length_cons] at hfuel h
    have hrest : stringAt byte fuel (x + 1) = some s := by
      refine ih hnul (by omega) fun k hk => ?_
      have hnext := h (k + 1) (by omega)
      rw [Nat.add_assoc, Nat.add_comm 1 k]
      simpa using hnext
    simp [stringAt, hfirst, hrest, hb]

namespace PhysMemory

/-! ### Where things are put -/

/-- What is kept of an argument. -/
def cutArg (arg : List UInt8) : List UInt8 := arg.take (maxArgLen - 1)

/-- The lowest address of the strings, and where each one is, with its length. -/
def argPlaces : List (List UInt8) → ℕ × List (ℕ × ℕ)
  | [] => (userStackTop, [])
  | arg :: args =>
      let (sp, places) := argPlaces args
      (sp - ((cutArg arg).length + 1),
        (sp - ((cutArg arg).length + 1), (cutArg arg).length + 1) :: places)

/-- The stack pointer of the new program. -/
def entryRsp (argv : List (List UInt8)) : ℕ :=
  ((argPlaces (argv.take maxArgs)).1 - (1 + (argv.take maxArgs).length + 1 + 1 + 2) * 8) / 16 * 16

/-- What is written: `argc` with the pointers, and the strings. -/
def stackRanges (argv : List (List UInt8)) : List (ℕ × ℕ) :=
  (entryRsp argv, (1 + (argv.take maxArgs).length + 1 + 1 + 2) * 8) ::
    (argPlaces (argv.take maxArgs)).2

theorem pushArgs_places (stackPhys : ℕ) (args : List (List UInt8)) (ram : ByteMemory) :
    (pushArgs stackPhys args ram).2 = ((argPlaces args).1, (argPlaces args).2.map Prod.fst) := by
  induction args with
  | nil => rfl
  | cons arg args ih =>
    rw [pushArgs, argPlaces]
    generalize pushArgs stackPhys args ram = pushed at ih ⊢
    obtain ⟨ram', sp, ptrs⟩ := pushed
    obtain ⟨rfl, rfl⟩ := Prod.mk.inj ih
    rfl

theorem length_cutArg_le (arg : List UInt8) : (cutArg arg).length + 1 ≤ maxArgLen := by
  rw [cutArg, length_take]
  unfold maxArgLen
  omega

variable {args argv : List (List UInt8)} {a stackPhys : ℕ} {ram : ByteMemory}
  {byte : ℕ → Option UInt8}

/-- The strings lie one behind the other below the top of the stack. -/
theorem argPlaces_spec
    (hlen : args.length * maxArgLen ≤ userStackPages * pageSize) :
    userStackTop ≤ (argPlaces args).1 + args.length * maxArgLen ∧
      (argPlaces args).1 ≤ userStackTop ∧
      (∀ r ∈ (argPlaces args).2, (argPlaces args).1 ≤ r.1 ∧ r.1 + r.2 ≤ userStackTop) ∧
      (argPlaces args).2.Pairwise fun r q => r.1 + r.2 ≤ q.1 := by
  induction args with
  | nil => simp [argPlaces]
  | cons arg args ih =>
    rw [length_cons, Nat.succ_mul] at hlen ⊢
    obtain ⟨hge, hle, hall, hpair⟩ := ih (by omega)
    have harg := length_cutArg_le arg
    have htop : userStackPages * pageSize ≤ userStackTop := by decide
    rw [argPlaces]
    generalize argPlaces args = places at hge hle hall hpair ⊢
    obtain ⟨sp, places⟩ := places
    dsimp only at hge hle hall hpair ⊢
    refine ⟨by omega, by omega, ?_, ?_⟩
    · rintro r (_ | ⟨_, hr⟩)
      · exact ⟨le_rfl, by dsimp only; omega⟩
      · have := hall r hr
        exact ⟨by omega, this.2⟩
    · refine pairwise_cons.mpr ⟨fun q hq => ?_, hpair⟩
      have := (hall q hq).1
      dsimp only
      omega

/-! ### The strings -/

/-- A place above `low` has a string, with its NUL. -/
def HasString (read : ℕ → UInt8) (low : ℕ) (arg : List UInt8) (place : ℕ × ℕ) : Prop :=
  low ≤ place.1 ∧ place.2 = (cutArg arg).length + 1 ∧
    ∀ k < place.2, read (place.1 + k) = (cutArg arg ++ [0]).getD k 0

theorem HasString.congr {read read' : ℕ → UInt8} {low low' : ℕ} {arg : List UInt8} {place : ℕ × ℕ}
    (h : HasString read low arg place) (hlow : low' ≤ low) (hread : ∀ x, low ≤ x → read' x = read x) :
    HasString read' low' arg place :=
  ⟨hlow.trans h.1, h.2.1, fun k hk => (hread _ (h.1.trans (Nat.le_add_right _ _))).trans (h.2.2 k hk)⟩

/-- The memory at the address that is mapped to a user address of the stack. -/
def stackByte (ram : ByteMemory) (stackPhys x : ℕ) : UInt8 := ram (stackPhys + (x - stackBase))

theorem pushArgs_cons (stackPhys : ℕ) (arg : List UInt8) (args : List (List UInt8))
    (ram : ByteMemory) : (pushArgs stackPhys (arg :: args) ram).1 =
      (pushArgs stackPhys args ram).1.writeBytes
        (stackPhys + ((argPlaces args).1 - ((cutArg arg).length + 1) - stackBase))
        (cutArg arg ++ [0]) := by
  have hplaces := pushArgs_places stackPhys args ram
  rw [pushArgs]
  generalize pushArgs stackPhys args ram = pushed at hplaces ⊢
  obtain ⟨ram', sp, ptrs⟩ := pushed
  obtain ⟨hsp, -⟩ := Prod.mk.inj hplaces
  simp only [hsp, cutArg]

theorem argPlaces_cons (arg : List UInt8) (args : List (List UInt8)) :
    argPlaces (arg :: args) = ((argPlaces args).1 - ((cutArg arg).length + 1),
      ((argPlaces args).1 - ((cutArg arg).length + 1), (cutArg arg).length + 1) ::
        (argPlaces args).2) := rfl

theorem pushArgs_strings (stackPhys : ℕ) (ram : ByteMemory)
    (hlen : args.length * maxArgLen ≤ userStackPages * pageSize) :
    Forall₂ (HasString (stackByte (pushArgs stackPhys args ram).1 stackPhys)
      (argPlaces args).1) args (argPlaces args).2 := by
  induction args with
  | nil => exact Forall₂.nil
  | cons arg args ih =>
    rw [length_cons, Nat.succ_mul] at hlen
    have hargs : args.length * maxArgLen ≤ userStackPages * pageSize := by omega
    obtain ⟨hge, -, -, -⟩ := argPlaces_spec hargs
    have harg := length_cutArg_le arg
    have hbase : stackBase + userStackPages * pageSize = userStackTop := by decide
    have hlength : (cutArg arg ++ [0]).length = (cutArg arg).length + 1 := by simp
    rw [pushArgs_cons, argPlaces_cons]
    refine Forall₂.cons ⟨le_rfl, rfl, fun k hk => ?_⟩ ((ih hargs).imp fun arg' place h => ?_)
    · dsimp only at hk ⊢
      have hindex : stackPhys + ((argPlaces args).1 - ((cutArg arg).length + 1) + k - stackBase) -
          (stackPhys + ((argPlaces args).1 - ((cutArg arg).length + 1) - stackBase)) = k := by omega
      rw [stackByte, ByteMemory.writeBytes, hlength, if_pos (by omega), hindex]
    · refine h.congr (Nat.sub_le _ _) fun x hx => ?_
      rw [stackByte, ByteMemory.writeBytes_of_outside (by rw [hlength]; omega), stackByte]

/-- What changes is in one of the places of the strings. -/
theorem pushArgs_changes 
    (ha : (pushArgs stackPhys args ram).1 a ≠ ram a) :
    ∃ r ∈ (argPlaces args).2, stackPhys + (r.1 - stackBase) ≤ a ∧
      a < stackPhys + (r.1 - stackBase) + r.2 := by
  induction args with
  | nil => exact absurd rfl ha
  | cons arg args ih =>
    have hlength : (cutArg arg ++ [0]).length = (cutArg arg).length + 1 := by simp
    rw [pushArgs_cons] at ha
    rw [argPlaces_cons]
    by_cases hin : stackPhys + ((argPlaces args).1 - ((cutArg arg).length + 1) - stackBase) ≤ a ∧
        a < stackPhys + ((argPlaces args).1 - ((cutArg arg).length + 1) - stackBase) +
          ((cutArg arg).length + 1)
    · exact ⟨_, mem_cons_self, hin⟩
    · rw [ByteMemory.writeBytes_of_outside (by rw [hlength]; omega)] at ha
      obtain ⟨r, hr, hmem⟩ := ih ha
      exact ⟨r, mem_cons_of_mem _ hr, hmem⟩

/-! ### The words -/

theorem writeWords_concat (ram : ByteMemory) (a : ℕ) (ws : List ℕ) (w : ℕ) :
    writeWords ram a (ws ++ [w]) = (writeWords ram a ws).writeWord (a + 8 * ws.length) w := by
  rw [writeWords, zipIdx_append, foldl_append]
  simp [writeWords]

/-- Every word is read back. -/
theorem readWord_writeWords {ws : List ℕ} (hws : ∀ w ∈ ws, w < 2 ^ 64)
    {k : ℕ} (hk : k < ws.length) : (writeWords ram a ws).readWord (a + 8 * k) = ws.getD k 0 := by
  induction ws using List.reverseRecOn with
  | nil => cases hk
  | append_singleton ws w ih =>
    rw [length_append, length_singleton] at hk
    rw [writeWords_concat]
    by_cases hlast : k = ws.length
    · rw [hlast, ByteMemory.readWord_writeWord_self _ _ (hws w (by simp))]
      simp
    · rw [ByteMemory.readWord_writeWord_of_disjoint (by omega),
        ih (fun w hw => hws w (mem_append_left _ hw)) (by omega),
        getD_append _ _ _ _ (by omega)]

/-! ### The initial stack -/

/-- `argc`, the pointers with a NULL, an empty environment and an empty auxiliary vector. -/
def frameWords (argv : List (List UInt8)) : List ℕ :=
  (argv.take maxArgs).length :: (argPlaces (argv.take maxArgs)).2.map Prod.fst ++ [0, 0, 0, 0]

theorem length_argPlaces (args : List (List UInt8)) : (argPlaces args).2.length = args.length := by
  induction args with
  | nil => rfl
  | cons arg args ih => rw [argPlaces_cons, length_cons, ih, length_cons]

theorem length_frameWords (argv : List (List UInt8)) :
    (frameWords argv).length = 1 + (argv.take maxArgs).length + 1 + 1 + 2 := by
  simp only [frameWords, cons_append, length_cons, length_append, length_map,
    length_argPlaces, length_nil]
  omega

theorem args_fit (argv : List (List UInt8)) :
    (argv.take maxArgs).length * maxArgLen ≤ userStackPages * pageSize := by
  have hlen : (argv.take maxArgs).length ≤ maxArgs := length_take_le _ _
  unfold maxArgs maxArgLen userStackPages pageSize at *
  omega

/-- The pointers are below the strings and above the end of the stack. -/
theorem entryRsp_bounds (argv : List (List UInt8)) :
    stackBase ≤ entryRsp argv ∧ entryRsp argv + 8 * (frameWords argv).length ≤
      (argPlaces (argv.take maxArgs)).1 ∧ entryRsp argv % 16 = 0 := by
  obtain ⟨hge, -, -, -⟩ := argPlaces_spec (args_fit argv)
  have hlen : (argv.take maxArgs).length ≤ maxArgs := length_take_le _ _
  rw [length_frameWords, entryRsp]
  generalize (argPlaces (argv.take maxArgs)).1 = low at *
  generalize (argv.take maxArgs).length = n at *
  unfold stackBase userStackTop userStackPages pageSize maxArgs maxArgLen at *
  omega

/-- The arguments always fit. -/
theorem initStack_eq (m : PhysMemory) (stackPhys : ℕ) (argv : List (List UInt8)) :
    m.initStack stackPhys argv = (some (entryRsp argv), { m with
      ram := writeWords (pushArgs stackPhys (argv.take maxArgs) m.ram).1
        (stackPhys + (entryRsp argv - stackBase)) (frameWords argv) }) := by
  have hplaces := pushArgs_places stackPhys (argv.take maxArgs) m.ram
  have hbounds := (entryRsp_bounds argv).1
  unfold initStack
  dsimp only
  generalize pushArgs stackPhys (argv.take maxArgs) m.ram = pushed at hplaces ⊢
  obtain ⟨ram, sp, ptrs⟩ := pushed
  obtain ⟨hsp, hptrs⟩ := Prod.mk.inj hplaces
  rw [entryRsp] at hbounds
  dsimp only
  rw [hsp, hptrs, if_neg (not_lt.mpr hbounds)]
  rfl

/-- What the memory has at the top of the stack. -/
structure StackLaid (argv : List (List UInt8)) (stackPhys : ℕ) (ram : ByteMemory) : Prop where
  words : ∀ k < (frameWords argv).length,
    ram.readWord (stackPhys + (entryRsp argv - stackBase) + 8 * k) = (frameWords argv).getD k 0
  strings : List.Forall₂ (HasString (stackByte ram stackPhys) (argPlaces (argv.take maxArgs)).1)
    (argv.take maxArgs) (argPlaces (argv.take maxArgs)).2

theorem initStack_laid (m : PhysMemory) (stackPhys : ℕ) (argv : List (List UInt8)) :
    StackLaid argv stackPhys (m.initStack stackPhys argv).2.ram := by
  obtain ⟨hbase, hbelow, -⟩ := entryRsp_bounds argv
  obtain ⟨-, hle, hall, -⟩ := argPlaces_spec (args_fit argv)
  have hlen : (argv.take maxArgs).length ≤ maxArgs := length_take_le _ _
  have hwords : ∀ w ∈ frameWords argv, w < 2 ^ 64 := by
    have htop : userStackTop < 2 ^ 64 := by decide
    have hcount : maxArgs < 2 ^ 64 := by decide
    intro w hw
    rcases mem_append.mp hw with hw | hw
    · rcases mem_cons.mp hw with rfl | hw
      · omega
      · obtain ⟨r, hr, rfl⟩ := List.mem_map.mp hw
        have := (hall r hr).2
        omega
    · have hzero : w = 0 := by simpa using hw
      omega
  rw [initStack_eq]
  dsimp only
  constructor
  · intro k hk
    exact readWord_writeWords hwords hk
  · refine (pushArgs_strings stackPhys m.ram (args_fit argv)).imp fun arg place h => ?_
    refine h.congr le_rfl fun x hx => ?_
    rw [stackByte, writeWords_of_outside (by omega), stackByte]

/-- What is written is in the ranges of the pointers and the strings. -/
theorem initStack_changes {m : PhysMemory} 
    (ha : (m.initStack stackPhys argv).2.ram a ≠ m.ram a) :
    ∃ r ∈ stackRanges argv, stackPhys + (r.1 - stackBase) ≤ a ∧
      a < stackPhys + (r.1 - stackBase) + r.2 := by
  rw [initStack_eq] at ha
  by_cases hin : stackPhys + (entryRsp argv - stackBase) ≤ a ∧
      a < stackPhys + (entryRsp argv - stackBase) + 8 * (frameWords argv).length
  · refine ⟨_, mem_cons_self, hin.1, ?_⟩
    rw [length_frameWords, Nat.mul_comm 8] at hin
    exact hin.2
  · dsimp only at ha
    rw [writeWords_of_outside (by omega)] at ha
    obtain ⟨r, hr, hmem⟩ := pushArgs_changes ha
    exact ⟨r, mem_cons_of_mem _ hr, hmem⟩

/-- The ranges are inside of the stack, in order and apart from each other. -/
theorem stackRanges_spec (argv : List (List UInt8)) :
    (∀ r ∈ stackRanges argv, stackBase ≤ r.1 ∧ r.1 + r.2 ≤ userStackTop) ∧
      (stackRanges argv).Pairwise fun r q => r.1 + r.2 ≤ q.1 := by
  obtain ⟨hbase, hbelow, -⟩ := entryRsp_bounds argv
  obtain ⟨-, hle, hall, hpair⟩ := argPlaces_spec (args_fit argv)
  rw [length_frameWords, Nat.mul_comm 8] at hbelow
  constructor
  · rintro r (_ | ⟨_, hr⟩)
    · exact ⟨hbase, hbelow.trans hle⟩
    · have := hall r hr
      exact ⟨by omega, this.2⟩
  · exact pairwise_cons.mpr ⟨fun q hq => hbelow.trans (hall q hq).1, hpair⟩

/-! ### Reading it back -/

theorem wordAt_eq {x a : ℕ}
    (h : ∀ k < 8, byte (x + k) = some (ram (a + k))) : wordAt byte x = some (ram.readWord a) := by
  rw [wordAt, mapM_eq_some fun k hk => h k (mem_range.mp hk)]
  rfl

theorem mapM_stringAt {fuel : ℕ}
    {places : List (ℕ × ℕ)}
    (h : Forall₂ (fun arg place => stringAt byte fuel place.1 = some (cutArg arg)) args places) :
    (places.map Prod.fst).mapM (stringAt byte fuel) = some (args.map cutArg) := by
  induction h with
  | nil => rfl
  | cons hstring _ ih =>
    rw [map_cons, mapM_cons, hstring, ih]
    rfl

/-- A program whose stack is mapped to where it was laid out gets its arguments. -/
theorem StackLaid.argvAt 
    (h : StackLaid argv stackPhys ram) (hnul : ∀ arg ∈ argv, 0 ∉ arg)
    (hbyte : ∀ x, stackBase ≤ x → x < userStackTop → byte x = some (stackByte ram stackPhys x))
    {fuel : ℕ} (hfuel : maxArgLen ≤ fuel) :
    argvAt byte fuel (entryRsp argv) =
      some (min argv.length maxArgs, (argv.take maxArgs).map cutArg) := by
  obtain ⟨hbase, hbelow, -⟩ := entryRsp_bounds argv
  obtain ⟨-, hle, hall, -⟩ := argPlaces_spec (args_fit argv)
  have hlength := length_frameWords argv
  have hplaces := length_argPlaces (argv.take maxArgs)
  have hword : ∀ k < (frameWords argv).length,
      wordAt byte (entryRsp argv + 8 * k) = some ((frameWords argv).getD k 0) := by
    intro k hk
    rw [← h.words k hk]
    refine wordAt_eq fun j hj => ?_
    rw [hbyte _ (by omega) (by omega), stackByte]
    exact congrArg (fun a => some (ram a)) (by omega)
  have hargc : wordAt byte (entryRsp argv) = some (argv.take maxArgs).length := hword 0 (by omega)
  have hnext : ∀ k < (argv.take maxArgs).length + 4, wordAt byte (entryRsp argv + 8 + 8 * k) =
      some (((argPlaces (argv.take maxArgs)).2.map Prod.fst ++ [0, 0, 0, 0]).getD k 0) := by
    intro k hk
    have haddr : entryRsp argv + 8 + 8 * k = entryRsp argv + 8 * (k + 1) := by omega
    rw [haddr, hword (k + 1) (by omega)]
    rfl
  have hptrs : (List.range (argv.take maxArgs).length).mapM
      (fun k => wordAt byte (entryRsp argv + 8 + 8 * k)) =
        some ((argPlaces (argv.take maxArgs)).2.map Prod.fst) := by
    have hread : ∀ k ∈ List.range (argv.take maxArgs).length,
        wordAt byte (entryRsp argv + 8 + 8 * k) =
          some (((argPlaces (argv.take maxArgs)).2.map Prod.fst ++ [0, 0, 0, 0]).getD k 0) := by
      intro k hk
      have := mem_range.mp hk
      exact hnext k (by omega)
    rw [mapM_eq_some hread]
    congr 1
    apply ext_getElem
    · simp [hplaces]
    · intro k hk hk'
      rw [length_map, length_range] at hk
      rw [getElem_map, getElem_range,
        getD_append _ _ _ _ (by rw [length_map, hplaces]; exact hk),
        getD_eq_getElem _ _ hk']
  have hnull : wordAt byte (entryRsp argv + 8 + 8 * (argv.take maxArgs).length) = some 0 := by
    rw [hnext _ (by omega), getD_append_right _ _ _ _ (by rw [length_map, hplaces]),
      length_map, hplaces, Nat.sub_self]
    rfl
  have hstrings : ((argPlaces (argv.take maxArgs)).2.map Prod.fst).mapM (stringAt byte fuel) =
      some ((argv.take maxArgs).map cutArg) := by
    refine mapM_stringAt (forall₂_iff_get.mpr ⟨h.strings.length_eq, fun k hk hk' => ?_⟩)
    obtain ⟨hlow, hsize, hread⟩ := h.strings.get hk hk'
    have hmem : (argPlaces (argv.take maxArgs)).2.get ⟨k, hk'⟩ ∈
        (argPlaces (argv.take maxArgs)).2 := List.get_mem _ _
    have hplace := hall _ hmem
    have harg : (argv.take maxArgs).get ⟨k, hk⟩ ∈ argv := mem_of_mem_take (List.get_mem _ _)
    have hcut := length_cutArg_le ((argv.take maxArgs).get ⟨k, hk⟩)
    refine stringAt_eq (fun hzero => hnul _ harg (mem_of_mem_take hzero)) (by omega)
      fun j hj => ?_
    rw [hbyte _ (by omega) (by omega), hread j (by omega)]
  have hcount : (argv.take maxArgs).length = min argv.length maxArgs := by
    rw [length_take, Nat.min_comm]
  rw [AnssOS.argvAt, ← hcount, hargc]
  simp only [bind_eq_bind, bind_some, hptrs, hnull, hstrings]
  rfl

/-- The last thing that the loader does is to lay out the stack. -/
theorem load_initStack {m : PhysMemory} {cr3 : ℕ} {image : List UInt8}
    {img : LoadedImage} (himg : (m.load cr3 image argv).1 = some img) :
    ∃ (stackPhys : ℕ) (m₁ : PhysMemory),
      m₁.initStack stackPhys argv = (some img.userStackTop, (m.load cr3 image argv).2) := by
  obtain ⟨-, st, -, -, heq, -⟩ := load_eq_some himg
  rw [heq] at himg ⊢
  exact (finishLoad_eq_some himg).2.2

/-- The memory from `stackPhys` on has been written in the given ranges of user addresses only. -/
def WrittenIn (ranges : List (ℕ × ℕ)) (stackPhys : ℕ) (ram ram' : ByteMemory) : Prop :=
  ∀ a, ram' a ≠ ram a → ∃ r ∈ ranges, stackPhys + (r.1 - stackBase) ≤ a ∧
    a < stackPhys + (r.1 - stackBase) + r.2

/-- A memory in which a kernel stack has been freed, and which then has pages for a program and its
stack, but not for the tables that map the stack. -/
def tightMemory : PhysMemory :=
  match (Heap.empty 0).alloc ⟨fun page => page = 0, 27, 26, 0⟩ kernelStackSize 16 with
  | (base, heap, pmm) => ⟨fun _ => 0, pmm, heap.dealloc (base.getD 0) 16, 0⟩

end PhysMemory

end AnssOS
