-- What comes of one instruction at another place. It may be written with another displacement, or as
-- several instructions of which one goes through a pointer cell. Whatever the conditions and the
-- counter say, control leaves there for the same target as before, or goes on behind it.
import Detouring.Proofs.Jump.Decoding
import Detouring.Proofs.Relocation.Placing
import Detouring.Proofs.Relocation.Rewriting

namespace Detouring

open Relocation

/-! ## Displacements -/

section

variable {t next : Nat}

theorem wrapWord_wordDifference (word : t < wordCount) (next : Nat) :
    wrapWord (next + wordDifference t next) = t := by
  unfold wrapWord wordDifference wordCount at *
  rw [Int.bmod]
  omega

/-- A displacement that fits in some bytes reads back. -/
theorem bmod_leBytes_short {i : Int} (fits : fitsSigned8 i = true) :
    Int.bmod (ofLeBytes [UInt8.ofNat (i % 256).toNat]) (valuesIn 1) = i := by
  simp only [fitsSigned8, decide_eq_true_eq] at fits
  have value : (UInt8.ofNat (i % 256).toNat).toNat = (i % 256).toNat % 256 := rfl
  simp only [ofLeBytes, value, valuesIn]
  rw [Int.bmod]
  omega

theorem bmod_leBytes_near {i : Int} (fits : fitsSigned32 i = true) :
    Int.bmod (ofLeBytes (leBytes 4 (i % 4294967296).toNat)) 4294967296 = i := by
  simp only [fitsSigned32, decide_eq_true_eq] at fits
  rw [ofLeBytes_leBytes, show valuesIn 4 = 4294967296 from rfl]
  rw [Int.bmod]
  omega

/-- A target of 16 bits is reached from everywhere. -/
theorem wrap_word_near (small : t < 0x10000) (next : Nat) :
    TargetSize.word.wrap (next + Int.bmod
      (ofLeBytes (leBytes 2 (wordDifference t next % 65536).toNat)) 65536) = t := by
  rw [ofLeBytes_leBytes, show valuesIn 2 = 65536 from rfl, TargetSize.wrap]
  unfold wrapWord wordDifference wordCount
  rw [Int.bmod, Int.bmod]
  omega

/-- A target in the lowest 4 GiB is reached from everywhere by addresses of 32 bits. -/
theorem wrapWord_low (low : t < 0x100000000) (next : Nat) :
    wrapWord (next + signed32 (ofLeBytes (leSigned32 (wordDifference t next)))) % 0x100000000 =
      t := by
  rw [leSigned32, ofLeBytes_leBytes, show valuesIn 4 = 4294967296 from rfl]
  unfold signed32 wrapWord wordDifference wordCount
  rw [Int.bmod, Int.bmod]
  omega

theorem TargetSize.Holds.lt_wordCount {size : TargetSize} (holds : size.Holds t) :
    t < wordCount := by
  obtain ⟨i, rfl⟩ := holds
  exact size.wrap_lt i

theorem Relation.Proper.lt_wordCount {relation : Relation} (proper : relation.Proper)
    (names : relation.target? = some t) : t < wordCount := by
  cases relation <;> cases names
  case data => exact proper
  case jump | call => exact TargetSize.Holds.lt_wordCount proper
  case branch | loop => exact proper.2.lt_wordCount

theorem TargetSize.Holds.small (holds : word.Holds t) : t < 0x10000 := by
  obtain ⟨i, rfl⟩ := holds
  exact Nat.mod_lt _ (by decide)

/-- The distance of a target leads to it. -/
theorem TargetSize.Holds.wrap_difference {size : TargetSize} (holds : size.Holds t) (next : Nat) :
    size.wrap (next + wordDifference t next) = t := by
  have whole := wrapWord_wordDifference holds.lt_wordCount next
  cases size with
  | full => exact whole
  | word =>
    rw [wrap, whole]
    exact Nat.mod_eq_of_lt holds.small

theorem TargetSize.Holds.wrap_short {size : TargetSize} (holds : size.Holds t)
    (fits : fitsSigned8 (wordDifference t next) = true) :
    size.wrap (next + Int.bmod (ofLeBytes [shortDisplacement next t]) (valuesIn 1)) = t := by
  rw [shortDisplacement, bmod_leBytes_short fits]
  exact holds.wrap_difference next

theorem TargetSize.Holds.wrap_near {size : TargetSize} (holds : size.Holds t)
    (fits : size = full → fitsSigned32 (wordDifference t next) = true) :
    size.wrap (next + Int.bmod (ofLeBytes (nearDisplacement size next t))
      (valuesIn size.width)) = t := by
  cases size with
  | full =>
    have back := bmod_leBytes_near (fits rfl)
    have whole := holds.wrap_difference next
    rw [← back] at whole
    exact whole
  | word => exact wrap_word_near holds.small next

end

/-! ## Where control goes -/

/-- What is decided of conditions, by their numbers, and of loops, by the width of the counter and
the opcode. -/
structure Decisions where
  condition : UInt8 → Bool
  loop : Bool → UInt8 → Bool
  /-- Conditions come in pairs. -/
  opposite : ∀ k, condition (k ^^^ 1) = !condition k

/-- `true` if the jump is made. -/
def Relation.taken (o : Decisions) : Relation → Bool
  | .branch _ k _ => o.condition k
  | .loop _ narrow opcode _ => o.loop narrow opcode
  | _ => true

namespace Memory

/-- The instruction at an address. -/
def instructionAt? (m : Memory) (address : Nat) : Option Instruction :=
  Instruction.decode? address (m.peek address Instruction.maxLength)

/-- Where a jump, a branch, a loop or a call leads. Those through a cell are `call [rip + rel32]` and
`jmp [rip + rel32]`. -/
def onward? (m : Memory) (o : Decisions) (i : Instruction) : Option Nat :=
  match i.relation, i.bytes with
  | .jump _ t, _ | .call _ t, _ => some t
  | .branch _ _ t, _ | .loop _ _ _ t, _ => some (if i.relation.taken o then t else i.next)
  | .data _ cell, 0xff :: 0x15 :: _ | .data _ cell, 0xff :: 0x25 :: _ => some (m.word cell)
  | _, _ => none

/-- Control that is at an address gets to another by instructions that lie in some bytes. -/
inductive Passes (m : Memory) (o : Decisions) (lo hi : Nat) : Nat → Nat → Prop where
  | last {a b : Nat} {i : Instruction} (above : lo ≤ a) (below : i.next ≤ hi)
      (here : m.instructionAt? a = some i) (leads : m.onward? o i = some b) : Passes m o lo hi a b
  | onward {a b c : Nat} {i : Instruction} (above : lo ≤ a) (below : i.next ≤ hi)
      (here : m.instructionAt? a = some i) (leads : m.onward? o i = some b)
      (more : Passes m o lo hi b c) : Passes m o lo hi a c

/-- Control that gets on by instructions in some bytes was in them. -/
theorem Passes.inside {m : Memory} {o : Decisions} {lo hi a b : Nat} (h : m.Passes o lo hi a b) :
    lo ≤ a ∧ a ≤ hi := by
  cases h with
  | last above below here _ | onward above below here _ _ =>
    have place := Instruction.address_decode? here
    rw [Instruction.next, place] at below
    exact ⟨above, by omega⟩

/-- The code in some bytes does for a target what an instruction did that named it: it names the
data, or control goes to the target if the instruction would have gone there, and on behind the
code otherwise. -/
def Carries (m : Memory) (relation : Relation) (lo hi t : Nat) : Prop :=
  match relation with
  | .none => True
  | .data _ _ => ∃ i offset, m.instructionAt? lo = some i ∧ i.relation = .data offset t ∧ i.next = hi
  | _ => ∀ o, Passes m o lo hi lo (if relation.taken o then t else hi)

end Memory

/-! ## Reading what was written -/

section

open Opcode Instruction

variable {m : Memory} {size : TargetSize} {narrow : Bool} {bytes ops d : List UInt8} {x : Operands}
  {a t : Nat} {i : Instruction}

/-- What can be read whatever stands behind it is the instruction that stands there. -/
theorem Memory.instructionAt?_of_decode? (there : m.peek a bytes.length = bytes)
    (short : bytes.length ≤ maxLength) (read : ∀ tail, decode? a (bytes ++ tail) = some i) :
    m.instructionAt? a = some i := by
  obtain ⟨k, hk⟩ := Nat.exists_eq_add_of_le short
  rw [instructionAt?, hk, m.peek_add, there]
  exact read _

/-- What marks of sizes say. -/
theorem marks_sizes (size : TargetSize) (narrow : Bool) :
    Marks.of (size.marks ++ narrowMarks narrow) = ⟨size == .word, false, narrow⟩ := by
  cases size <;> cases narrow <;> rfl

theorem opens_sizes (asks : operandsOf? ⟨size == .word, false, narrow⟩ ops = some x) :
    Opens (size.marks ++ narrowMarks narrow) ops x := by
  have allMarks : ∀ b ∈ size.marks ++ narrowMarks narrow, isMark b = true := by
    cases size <;> cases narrow <;> simp [TargetSize.marks, narrowMarks, isMark]
  rw [← marks_sizes, ← List.append_nil (size.marks ++ narrowMarks narrow)] at asks
  simpa using Opens.of_marks allMarks (.inl rfl) asks

/-- A jump, branch, loop or call stands where its bytes do. -/
theorem Memory.instructionAt?_leading
    (there : m.peek a (size.marks ++ narrowMarks narrow ++ ops ++ d).length =
      size.marks ++ narrowMarks narrow ++ ops ++ d)
    (asks : operandsOf? ⟨size == .word, false, narrow⟩ ops = some x)
    (takes : x = .displacement8 ∧ d.length = 1 ∨ x = .displacement ∧ d.length = size.width)
    (leads : size.wrap ((a + (size.marks ++ narrowMarks narrow ++ ops ++ d).length : Nat) +
      Int.bmod (ofLeBytes d) (valuesIn d.length)) = t) :
    ∃ i, m.instructionAt? a = some i ∧
      i.length = (size.marks ++ narrowMarks narrow ++ ops ++ d).length ∧
      i.relation = .ofOpcode size narrow (ops.getLastD 0) t := by
  have opens := opens_sizes asks
  have targets : (opened a (size.marks ++ narrowMarks narrow) ops d).targetSize = size := by
    rw [Reading.targetSize, opened, marks_sizes]
    cases size <;> rfl
  have read := Reading.read_leading (r := opened a (size.marks ++ narrowMarks narrow) ops d)
    (x := x) (by rw [targets]; exact takes)
  have short : (size.marks ++ narrowMarks narrow ++ ops ++ d).length ≤ maxLength := by
    have marks : (size.marks ++ narrowMarks narrow).length ≤ 2 := by
      cases size <;> cases narrow <;> decide
    have width : size.width ≤ 4 := by cases size <;> decide
    have := longest_le asks
    rw [List.length_append, List.length_append, maxLength]
    omega
  refine ⟨_, instructionAt?_of_decode? there short (decode?_of_parts opens read rfl short), rfl, ?_⟩
  rw [Reading.leading, targets]
  have narrows : (opened a (size.marks ++ narrowMarks narrow) ops d).marks.narrow = narrow := by
    rw [opened, marks_sizes]
  rw [narrows]
  exact congrArg (Relation.ofOpcode size narrow (ops.getLastD 0)) leads

/-- A short jump, branch or loop stands where its bytes do. -/
theorem Memory.instructionAt?_short {n : Nat} (holds : size.Holds t)
    (asks : operandsOf? ⟨size == .word, false, narrow⟩ ops = some .displacement8)
    (there : m.peek a n = size.marks ++ narrowMarks narrow ++ ops ++ [shortDisplacement (a + n) t])
    (fits : fitsSigned8 (wordDifference t (a + n)) = true) :
    ∃ i, m.instructionAt? a = some i ∧ i.next = a + n ∧
      i.relation = .ofOpcode size narrow (ops.getLastD 0) t := by
  have leads := holds.wrap_short fits
  have long := congrArg List.length there
  generalize shortDisplacement (a + n) t = d at *
  rw [length_peek] at long
  subst long
  obtain ⟨i, here, long, named⟩ := instructionAt?_leading there asks (.inl ⟨rfl, rfl⟩) leads
  exact ⟨i, here, by rw [Instruction.next, Instruction.address_decode? here, long], named⟩

/-- A jump, branch or call by the longer displacement stands where its bytes do. -/
theorem Memory.instructionAt?_near {n : Nat} (holds : size.Holds t)
    (asks : operandsOf? ⟨size == .word, false, narrow⟩ ops = some .displacement)
    (there : m.peek a n = size.marks ++ narrowMarks narrow ++ ops ++ nearDisplacement size (a + n) t)
    (fits : size = .full → fitsSigned32 (wordDifference t (a + n)) = true) :
    ∃ i, m.instructionAt? a = some i ∧ i.next = a + n ∧
      i.relation = .ofOpcode size narrow (ops.getLastD 0) t := by
  have leads := holds.wrap_near fits
  have long := congrArg List.length there
  have width : (nearDisplacement size (a + n) t).length = size.width := length_leBytes _ _
  generalize nearDisplacement size (a + n) t = d at *
  rw [← width] at leads
  rw [length_peek] at long
  subst long
  obtain ⟨i, here, long, named⟩ := instructionAt?_leading there asks (.inr ⟨rfl, width⟩) leads
  exact ⟨i, here, by rw [Instruction.next, Instruction.address_decode? here, long], named⟩

/-- A jump or a call through a cell stands where its bytes do. -/
theorem Memory.instructionAt?_cell {mode : UInt8} {cell : Nat} (kind : mode = 0x15 ∨ mode = 0x25)
    (word : cell < wordCount) (fits : fitsSigned32 (wordDifference cell (a + 6)) = true)
    (there : m.peek a 6 = 0xff :: mode :: leSigned32 (wordDifference cell (a + 6))) :
    ∃ i, m.instructionAt? a = some i ∧ i.next = a + 6 ∧
      i.bytes = 0xff :: mode :: leSigned32 (wordDifference cell (a + 6)) ∧
      i.relation = .data 2 cell := by
  obtain ⟨b₁, b₂, b₃, b₄, four⟩ := leSigned32_eq (wordDifference cell (a + 6))
  have leads := wrapWord_wordDifference word (a + 6)
  rw [← signed32_leSigned32 fits, four] at leads
  rw [four] at there ⊢
  have opens : Opens ([] ++ []) [0xff] .transfer := Opens.of_marks nofun (.inl rfl) rfl
  have fills : Fills .transfer mode ([b₁, b₂, b₃, b₄] ++ []) := by
    rcases kind with rfl | rfl <;> exact ⟨0, rfl, rfl⟩
  have relative : (Mode.of mode).isRelative = true := by rcases kind with rfl | rfl <;> rfl
  have short : [0xff, mode, b₁, b₂, b₃, b₄].length ≤ maxLength := by simp [maxLength]
  have read (tail : List UInt8) := decode?_operated opens fills relative rfl short a tail
  obtain ⟨k, hk⟩ : ∃ k, maxLength = 6 + k := ⟨9, rfl⟩
  obtain ⟨i, here, bytes, named⟩ := read (m.peek (a + 6) k)
  have at' : m.instructionAt? a = some i := by
    rw [instructionAt?, hk, m.peek_add, there]
    exact here
  refine ⟨i, at', ?_, bytes, ?_⟩
  · rw [Instruction.next, Instruction.length, bytes, Instruction.address_decode? at']
    rfl
  · have sum : ((a + 6 : Nat) : Int) = a + 6 := by omega
    rw [sum] at leads
    simp [Marks.wrap, Marks.of] at named
    rw [named, leads]

/-- A jump or a call through a cell leads where the cell says. -/
theorem Memory.onward?_cell {mode : UInt8} {cell : Nat} {four : List UInt8}
    (kind : mode = 0x15 ∨ mode = 0x25) (whole : i.bytes = 0xff :: mode :: four)
    (named : i.relation = .data 2 cell) (m : Memory) (o : Decisions) :
    m.onward? o i = some (m.word cell) := by
  unfold onward?
  rw [named, whole]
  rcases kind with rfl | rfl <;> rfl

theorem Memory.instructionAt?_through {mode : UInt8} {cell : Nat} (o : Decisions)
    (kind : mode = 0x15 ∨ mode = 0x25) (word : cell < wordCount)
    (fits : fitsSigned32 (wordDifference cell (a + 6)) = true)
    (there : m.peek a 6 = 0xff :: mode :: leSigned32 (wordDifference cell (a + 6))) :
    ∃ i, m.instructionAt? a = some i ∧ i.next = a + 6 ∧ m.onward? o i = some (m.word cell) := by
  obtain ⟨i, here, next, whole, named⟩ := instructionAt?_cell kind word fits there
  exact ⟨i, here, next, onward?_cell kind whole named m o⟩

/-! ## One instruction -/

variable {o : Decisions} {hi : Nat} {r : Relation}

namespace Memory

/-- A jump, branch, loop or call leads to its target, or on. -/
theorem onward?_eq (named : i.relation = r) (names : r.target? = some t)
    (direct : ∀ offset t, r ≠ .data offset t) (m : Memory) (o : Decisions) :
    m.onward? o i = some (if r.taken o then t else i.next) := by
  subst named
  unfold onward?
  cases relation : i.relation <;> simp_all [Relation.target?, Relation.taken] <;> rfl

theorem Carries.intro (direct : ∀ offset t, r ≠ .data offset t)
    (h : ∀ o, m.Passes o a hi a (if r.taken o then t else hi)) : m.Carries r a hi t := by
  unfold Carries
  split
  · trivial
  · exact absurd rfl (direct _ _)
  · exact h

/-- An instruction that is written as one carries its target. -/
theorem carries_of_instruction (here : m.instructionAt? a = some i) (stop : i.next = hi)
    (same : i.relation = r) (names : r.target? = some t) (direct : ∀ offset t, r ≠ .data offset t) :
    m.Carries r a hi t := by
  subst stop
  exact .intro direct fun o =>
    .last (Nat.le_refl a) (Nat.le_refl _) here (onward?_eq same names direct m o)

end Memory

/-! ## Opcodes of jumps, branches and loops -/

variable {k opcode : UInt8}

theorem mem_of_lt_sixteen (below : k < 16) : k ∈ (List.range' 0 16).map UInt8.ofNat :=
  forall_byte (fun k => k < 16 → k ∈ (List.range' 0 16).map UInt8.ofNat) (by decide +kernel) k below

/-- The opcodes of one byte for conditions. -/
theorem branch_short (below : k < 16) (marks : Marks) (size : TargetSize) (narrow : Bool) (t : Nat) :
    operandsOf? marks [0x70 + k] = some .displacement8 ∧
      Relation.ofOpcode size narrow (0x70 + k) t = .branch size k t := by
  have mk := mem_of_lt_sixteen below
  simp only [List.range', List.map_cons, List.map_nil, List.mem_cons, List.not_mem_nil,
    or_false] at mk
  rcases mk with rfl | rfl | rfl | rfl | rfl | rfl | rfl | rfl | rfl | rfl | rfl | rfl | rfl |
    rfl | rfl | rfl <;> exact ⟨rfl, rfl⟩

/-- The opcodes of two bytes for conditions. -/
theorem branch_near (below : k < 16) (marks : Marks) (size : TargetSize) (narrow : Bool) (t : Nat) :
    operandsOf? marks [0x0f, 0x80 + k] = some .displacement ∧
      Relation.ofOpcode size narrow (0x80 + k) t = .branch size k t := by
  have mk := mem_of_lt_sixteen below
  simp only [List.range', List.map_cons, List.map_nil, List.mem_cons, List.not_mem_nil,
    or_false] at mk
  rcases mk with rfl | rfl | rfl | rfl | rfl | rfl | rfl | rfl | rfl | rfl | rfl | rfl | rfl |
    rfl | rfl | rfl <;> exact ⟨rfl, rfl⟩

theorem loop_short (loops : opcode ∈ ([0xe0, 0xe1, 0xe2, 0xe3] : List UInt8)) (marks : Marks)
    (size : TargetSize) (narrow : Bool) (t : Nat) :
    operandsOf? marks [opcode] = some .displacement8 ∧
      Relation.ofOpcode size narrow opcode t = .loop size narrow opcode t := by
  simp only [List.mem_cons, List.not_mem_nil, or_false] at loops
  rcases loops with rfl | rfl | rfl | rfl <;> exact ⟨rfl, rfl⟩

/-! ## Several instructions -/

namespace Memory

variable {cell : Nat}

/-- A short jump, branch or loop over a few bytes. -/
theorem instructionAt?_skip (skip : UInt8) (few : skip.toNat < 128)
    (asks : operandsOf? ⟨false, false, narrow⟩ ops = some .displacement8)
    (there : m.peek a bytes.length = bytes) (code : bytes = narrowMarks narrow ++ ops ++ [skip])
    (top : a + bytes.length + skip.toNat < wordCount) :
    ∃ i, m.instructionAt? a = some i ∧ i.next = a + bytes.length ∧
      i.relation = .ofOpcode .full narrow (ops.getLastD 0) (a + bytes.length + skip.toNat) := by
  have value : Int.bmod (ofLeBytes [skip]) (valuesIn [skip].length) = skip.toNat := by
    simp only [ofLeBytes, List.length_singleton, valuesIn]
    rw [Int.bmod]
    omega
  have leads : TargetSize.full.wrap ((a + bytes.length : Nat) +
      Int.bmod (ofLeBytes [skip]) (valuesIn [skip].length)) = a + bytes.length + skip.toNat := by
    rw [value, TargetSize.wrap, ← Int.natCast_add]
    exact wrapWord_of_lt _ top
  subst code
  have full : narrowMarks narrow = TargetSize.full.marks ++ narrowMarks narrow := rfl
  rw [full] at there
  obtain ⟨i, here, long, named⟩ := instructionAt?_leading there asks (.inl ⟨rfl, rfl⟩) leads
  exact ⟨i, here, by rw [Instruction.next, Instruction.address_decode? here, long]; rfl, named⟩

/-- Bytes that stand one behind the other. -/
theorem peek_append {n : Nat} {l l' : List UInt8} (there : m.peek a n = l ++ l') :
    m.peek a l.length = l ∧ m.peek (a + l.length) l'.length = l' := by
  have size := congrArg List.length there
  rw [length_peek, List.length_append] at size
  rw [size, m.peek_add] at there
  exact List.append_inj there (by simp)

/-- A branch that skips a jump through a cell when its condition does not hold. -/
theorem passes_branch_through (below : k < 16) (word : cell < wordCount) (top : a + 8 < wordCount)
    (fits : fitsSigned32 (wordDifference cell (a + 8)) = true)
    (there : m.peek a 8 = [0x70 + (k ^^^ 1), 6] ++
      ([0xff, 0x25] ++ leSigned32 (wordDifference cell (a + 8)))) (o : Decisions) :
    m.Passes o a (a + 8) a (if o.condition k then m.word cell else a + 8) := by
  have opposite : k ^^^ 1 < 16 :=
    forall_byte (fun k => k < 16 → k ^^^ 1 < 16) (by decide +kernel) k below
  obtain ⟨asks, names⟩ := branch_short opposite ⟨false, false, false⟩ .full false (a + 8)
  obtain ⟨first, second⟩ := peek_append there
  obtain ⟨i, here, next, named⟩ := instructionAt?_skip 6 (by decide) asks first rfl top
  obtain ⟨j, there', next', leads⟩ := instructionAt?_through o (.inr rfl) word fits second
  have goes := onward?_eq (named.trans names) rfl nofun m o
  rw [next, Relation.taken, o.opposite] at goes
  have inside : i.next ≤ a + 8 := by
    rw [next]
    exact Nat.add_le_add_left (by simp) a
  cases holds : o.condition k <;> rw [holds] at goes
  · exact .last (Nat.le_refl a) inside here goes
  · exact .onward (Nat.le_refl a) inside here goes
      (.last (Nat.le_add_right a 2) (Nat.le_of_eq next') there' leads)

/-- A loop over two jumps: one on behind them, and one to the target. -/
theorem passes_loop (loops : opcode ∈ ([0xe0, 0xe1, 0xe2, 0xe3] : List UInt8)) {n : Nat}
    (skip : UInt8) (jump : List UInt8) (few : skip.toNat < 128)
    (there : m.peek a n = narrowMarks narrow ++ [opcode] ++ [2] ++ ([0xeb, skip] ++ jump))
    (hi_eq : hi = a + narrow.toNat + 4 + skip.toNat) (top : hi < wordCount) (o : Decisions)
    (leads : m.peek (a + narrow.toNat + 4) jump.length = jump →
      ∃ i, m.instructionAt? (a + narrow.toNat + 4) = some i ∧ i.next ≤ hi ∧
        m.onward? o i = some t) :
    m.Passes o a hi a (if o.loop narrow opcode then t else hi) := by
  have length : (narrowMarks narrow ++ [opcode] ++ [2]).length = narrow.toNat + 2 := by
    cases narrow <;> rfl
  obtain ⟨asks, names⟩ := loop_short loops ⟨false, false, narrow⟩ .full narrow
    (a + narrow.toNat + 4)
  obtain ⟨first, behind⟩ := peek_append there
  obtain ⟨second, third⟩ := peek_append behind
  have two : (2 : UInt8).toNat = 2 := rfl
  obtain ⟨i, here, next, named⟩ := instructionAt?_skip 2 (by decide) asks first rfl
    (by rw [length]; omega)
  have plain : operandsOf? ⟨false, false, false⟩ [0xeb] = some .displacement8 := rfl
  obtain ⟨j, here', next', named'⟩ := instructionAt?_skip skip few plain second rfl
    (by rw [length, List.length_cons, List.length_singleton]; omega)
  have size : [0xeb, skip].length = 2 := rfl
  rw [length] at next second third here' next' named'
  rw [size] at third next' named'
  have place : a + (narrow.toNat + 2) + 2 = a + narrow.toNat + 4 := by omega
  rw [place] at third next' named'
  rw [length, two, place] at named
  obtain ⟨l, here'', next'', leads⟩ := leads third
  have goes := onward?_eq (named.trans names) rfl nofun m o
  have skips : m.onward? o j = some hi := by
    rw [hi_eq]
    exact onward?_eq (r := .jump .full (a + narrow.toNat + 4 + skip.toNat)) named' rfl nofun m o
  rw [Relation.taken, next] at goes
  have inside : i.next ≤ hi := by omega
  cases holds : o.loop narrow opcode <;> rw [holds] at goes
  · exact .onward (Nat.le_refl a) inside here goes
      (.last (Nat.le_add_right a _) (by omega) here' skips)
  · exact .onward (Nat.le_refl a) inside here goes
      (.last (by rw [Nat.add_assoc]; exact Nat.le_add_right a _) next'' here'' leads)

/-- An instruction that names data stands where its bytes do. -/
theorem instructionAt?_data {offset : Nat} {wrap : Nat → Nat} (shape : NamesDataAt bytes offset wrap)
    (there : m.peek a bytes.length = withDisplacement bytes offset a t)
    (reaches : wrap (wrapWord ((a + bytes.length : Nat) +
      signed32 (ofLeBytes (leSigned32 (wordDifference t (a + bytes.length)))))) = t) :
    ∃ i, m.instructionAt? a = some i ∧ i.bytes = withDisplacement bytes offset a t ∧
      i.relation = .data offset t ∧ i.next = a + bytes.length := by
  obtain ⟨k, hk⟩ := Nat.exists_eq_add_of_le shape.short
  obtain ⟨i, read, written, named⟩ := shape.named a
    (leSigned32 (wordDifference t (a + bytes.length))) (m.peek (a + bytes.length) k)
    (length_leBytes _ _)
  have here : m.instructionAt? a = some i := by
    rw [instructionAt?, hk, m.peek_add, there]
    exact read
  have whole : i.bytes = withDisplacement bytes offset a t := written
  rw [reaches] at named
  refine ⟨i, here, whole, named, ?_⟩
  rw [Instruction.next, Instruction.length, Instruction.address_decode? here, whole,
    length_withDisplacement _ _ shape.room]

end Memory

/-! ## What a block carries -/

variable {block : List Placed} {cell stop : Nat} {homes : List Nat} {p : Placed} {distance : Distance}

theorem Relocation.Movable.NamesData.roomy {x : Movable} (shape : x.NamesData) : x.Roomy :=
  fun offset t data => (shape offset t data).1.room

/-- An instruction that was written at its place for a target, which it may reach through a cell. -/
structure Written (m : Memory) (homes : List Nat) (p : Placed) (t cell : Nat) : Prop where
  suits : p.Suits homes
  clear : p.fault? t cell = none
  there : m.peek p.address p.length = p.code t cell
  through : p.needsCell = true → cell < wordCount ∧ m.word cell = t
  below : p.stop < wordCount

theorem Written.fits_short (w : Written m homes p t cell) (short : p.distance = .short)
    (some : p.item.relation ≠ .none) : fitsSigned8 (wordDifference t p.stop) = true := by
  have suits := w.suits
  have clear := w.clear
  unfold Placed.Suits Allows at suits
  unfold Placed.fault? at clear
  cases relation : p.item.relation <;> rw [relation, short] at suits clear <;> simp_all

theorem Written.through_far (w : Written m homes p t cell) (far : p.distance = .far)
    (some : p.item.relation ≠ .none) : fitsSigned32 (wordDifference cell p.stop) = true ∧
      cell < wordCount ∧ m.word cell = t := by
  have clear := w.clear
  have through := w.through
  unfold Placed.fault? at clear
  unfold Placed.needsCell at through
  cases relation : p.item.relation <;> rw [relation, far] at clear through <;> simp_all

theorem Written.fits_near (w : Written m homes p t cell) (near : p.distance = .near)
    (full : (∃ offset g, p.item.relation = .data offset g) ∨
      (∃ g, p.item.relation = .jump .full g) ∨ (∃ k g, p.item.relation = .branch .full k g) ∨
      (∃ size narrow opcode g, p.item.relation = .loop size narrow opcode g) ∨
      (∃ g, p.item.relation = .call .full g)) : fitsSigned32 (wordDifference t p.stop) = true := by
  have clear := w.clear
  unfold Placed.fault? at clear
  rcases full with ⟨_, _, h⟩ | ⟨_, h⟩ | ⟨_, _, h⟩ | ⟨_, _, _, _, h⟩ | ⟨_, h⟩ <;> rw [h, near] at clear <;>
    simp_all

variable {g home : Nat} {settled : Bool}

/-- An instruction that names data is written with another displacement, and perhaps behind one
prefix more. -/
theorem Written.namesData {offset : Nat}
    (w : Written m homes ⟨⟨home, bytes, .data offset g⟩, a, distance, settled⟩ t cell)
    (shape : Movable.NamesData ⟨home, bytes, .data offset g⟩) (word : t < wordCount)
    (stays : g ∉ homes → t = g) :
    ∃ i mark, (mark = [] ∨ mark = [0x67]) ∧ m.instructionAt? a = some i ∧
      i.bytes = withDisplacement (mark ++ bytes) (mark.length + offset) a t ∧
      i.relation = .data (mark.length + offset) t ∧
      i.next = a + Movable.length ⟨home, bytes, .data offset g⟩ distance := by
  obtain ⟨near, low⟩ := shape offset g rfl
  cases distance with
  | short => exact absurd rfl w.suits.1
  | far => cases w.clear
  | near =>
    have fits : fitsSigned32 (wordDifference t (a + bytes.length)) = true :=
      w.fits_near rfl (.inl ⟨offset, g, rfl⟩)
    obtain ⟨i, here, whole, named, next⟩ := Memory.instructionAt?_data near w.there (by
      rw [signed32_leSigned32 fits]
      exact wrapWord_wordDifference word _)
    refine ⟨i, [], .inl rfl, here, ?_⟩
    rw [List.nil_append, List.length_nil, Nat.zero_add]
    exact ⟨whole, named, next⟩
  | low =>
    obtain ⟨small, outside⟩ := w.suits.2 rfl
    obtain rfl := stays outside
    obtain ⟨i, here, whole, named, next⟩ :=
      Memory.instructionAt?_data low w.there (wrapWord_low small _)
    refine ⟨i, [0x67], .inr rfl, here, ?_⟩
    rw [List.singleton_append, List.length_singleton, Nat.add_comm 1]
    exact ⟨whole, named, next⟩

theorem carries_data {offset : Nat}
    (w : Written m homes ⟨⟨home, bytes, .data offset t⟩, a, distance, settled⟩ t cell)
    (shape : Movable.NamesData ⟨home, bytes, .data offset t⟩) (word : t < wordCount) :
    m.Carries (.data offset t) a (a + Movable.length ⟨home, bytes, .data offset t⟩ distance) t := by
  obtain ⟨i, mark, -, here, -, named, next⟩ := w.namesData shape word fun _ => rfl
  exact ⟨i, _, here, named, next⟩

theorem code_plain (size : TargetSize) (ops d : List UInt8) :
    size.marks ++ narrowMarks false ++ ops ++ d = size.marks ++ (ops ++ d) := by simp [narrowMarks]

/-- A jump is written as a jump, or as one through the cell. -/
theorem Written.jump_cases
    (w : Written m homes ⟨⟨home, bytes, .jump size g⟩, a, distance, settled⟩ t cell)
    (holds : size.Holds t) :
    ∃ i, m.instructionAt? a = some i ∧
      i.next = a + Movable.length ⟨home, bytes, .jump size g⟩ distance ∧
      (i.relation = .jump size t ∨ (∃ four, i.bytes = 0xff :: 0x25 :: four) ∧
        i.relation = .data 2 cell ∧ cell < wordCount ∧ m.word cell = t) := by
  cases distance with
  | low => exact absurd rfl w.suits
  | short =>
    have asks : operandsOf? ⟨size == .word, false, false⟩ [0xeb] = some .displacement8 := rfl
    obtain ⟨i, here, next, named⟩ := Memory.instructionAt?_short holds asks
      (by rw [code_plain]; exact w.there) (w.fits_short rfl nofun)
    exact ⟨i, here, next, .inl named⟩
  | near =>
    have fits (full : size = .full) := w.fits_near rfl (.inr (.inl ⟨g, by rw [full]⟩))
    have asks : operandsOf? ⟨size == .word, false, false⟩ [0xe9] = some .displacement := rfl
    obtain ⟨i, here, next, named⟩ := Memory.instructionAt?_near holds asks
      (by rw [code_plain]; exact w.there) fits
    exact ⟨i, here, next, .inl named⟩
  | far =>
    obtain ⟨fits, word, holds⟩ := w.through_far rfl nofun
    obtain ⟨i, here, next, whole, named⟩ :=
      Memory.instructionAt?_cell (.inr rfl) word fits w.there
    exact ⟨i, here, next, .inr ⟨⟨_, whole⟩, named, word, holds⟩⟩

theorem carries_jump (w : Written m homes ⟨⟨home, bytes, .jump size g⟩, a, distance, settled⟩ t cell)
    (holds : size.Holds t) :
    m.Carries (.jump size t) a (a + Movable.length ⟨home, bytes, .jump size g⟩ distance) t := by
  obtain ⟨i, here, next, named | ⟨⟨four, whole⟩, named, _, holds⟩⟩ := w.jump_cases holds
  · exact Memory.carries_of_instruction here next named rfl nofun
  · refine .intro nofun fun o => ?_
    have leads := Memory.onward?_cell (.inr rfl) whole named m o
    rw [holds] at leads
    exact .last (Nat.le_refl _) (Nat.le_of_eq next) here leads

theorem carries_call (w : Written m homes ⟨⟨home, bytes, .call size g⟩, a, distance, settled⟩ t cell)
    (holds : size.Holds t) :
    m.Carries (.call size t) a (a + Movable.length ⟨home, bytes, .call size g⟩ distance) t := by
  cases distance with
  | low | short => rcases w.suits with h | h <;> cases h
  | near =>
    have fits (full : size = .full) := w.fits_near rfl (.inr (.inr (.inr (.inr ⟨g, by rw [full]⟩))))
    have asks : operandsOf? ⟨size == .word, false, false⟩ [0xe8] = some .displacement := rfl
    obtain ⟨i, here, next, named⟩ := Memory.instructionAt?_near holds asks
      (by rw [code_plain]; exact w.there) fits
    exact Memory.carries_of_instruction here next named rfl nofun
  | far =>
    obtain ⟨fits, word, holds⟩ := w.through_far rfl nofun
    refine .intro nofun fun o => ?_
    obtain ⟨i, here, next, leads⟩ := Memory.instructionAt?_through o (.inl rfl) word fits w.there
    rw [holds] at leads
    exact .last (Nat.le_refl _) (Nat.le_of_eq next) here leads

theorem carries_branch
    (w : Written m homes ⟨⟨home, bytes, .branch size k g⟩, a, distance, settled⟩ t cell)
    (holds : size.Holds t) (below : k < 16) :
    m.Carries (.branch size k t) a (a + Movable.length ⟨home, bytes, .branch size k g⟩ distance)
      t := by
  cases distance with
  | low => exact absurd rfl w.suits
  | short =>
    obtain ⟨asks, names⟩ := branch_short below ⟨size == .word, false, false⟩ size false t
    obtain ⟨i, here, next, named⟩ := Memory.instructionAt?_short holds asks
      (by rw [code_plain]; exact w.there) (w.fits_short rfl nofun)
    exact Memory.carries_of_instruction here next (named.trans names) rfl nofun
  | near =>
    have fits (full : size = .full) := w.fits_near rfl (.inr (.inr (.inl ⟨k, g, by rw [full]⟩)))
    obtain ⟨asks, names⟩ := branch_near below ⟨size == .word, false, false⟩ size false t
    obtain ⟨i, here, next, named⟩ := Memory.instructionAt?_near holds asks
      (by rw [code_plain]; exact w.there) fits
    exact Memory.carries_of_instruction here next (named.trans names) rfl nofun
  | far =>
    obtain ⟨fits, word, holds⟩ := w.through_far rfl nofun
    refine .intro nofun fun o => ?_
    have passes := Memory.passes_branch_through below word w.below fits w.there o
    rwa [holds] at passes

theorem carries_loop
    (w : Written m homes ⟨⟨home, bytes, .loop size narrow opcode g⟩, a, distance, settled⟩ t cell)
    (holds : size.Holds t) (loops : opcode ∈ ([0xe0, 0xe1, 0xe2, 0xe3] : List UInt8)) :
    m.Carries (.loop size narrow opcode t) a
      (a + Movable.length ⟨home, bytes, .loop size narrow opcode g⟩ distance) t := by
  cases distance with
  | low => exact absurd rfl w.suits
  | short =>
    obtain ⟨asks, names⟩ := loop_short loops ⟨size == .word, false, narrow⟩ size narrow t
    obtain ⟨i, here, next, named⟩ := Memory.instructionAt?_short holds asks
      (by rw [List.append_assoc _ [opcode]]; exact w.there) (w.fits_short rfl nofun)
    exact Memory.carries_of_instruction here next (named.trans names) rfl nofun
  | near =>
    have fits := w.fits_near rfl (.inr (.inr (.inr (.inl ⟨_, _, _, _, rfl⟩))))
    have stop : a + (narrow.toNat + 9) = a + narrow.toNat + 4 + 5 := by omega
    refine .intro nofun fun o => Memory.passes_loop loops 5
      ([0xe9] ++ nearDisplacement .full (a + narrow.toNat + 9) t) (by decide)
      (by rw [List.append_assoc, List.append_assoc]; exact w.there) stop w.below o fun third => ?_
    have full : TargetSize.full.Holds t := ⟨t, wrapWord_of_lt t holds.lt_wordCount⟩
    have asks : operandsOf? ⟨TargetSize.full == .word, false, false⟩ [0xe9] =
        some .displacement := rfl
    obtain ⟨i, here, next, named⟩ := Memory.instructionAt?_near (n := 5) full asks third
      fun _ => by
        have : a + narrow.toNat + 4 + 5 = a + (narrow.toNat + 9) := by omega
        rw [this]
        exact fits
    exact ⟨i, here, by rw [next]; exact Nat.le_of_eq stop.symm,
      Memory.onward?_eq named rfl nofun m o⟩
  | far =>
    obtain ⟨fits, word, holds⟩ := w.through_far rfl nofun
    have stop : a + (narrow.toNat + 10) = a + narrow.toNat + 4 + 6 := by omega
    refine .intro nofun fun o => Memory.passes_loop loops 6
      ([0xff, 0x25] ++ leSigned32 (wordDifference cell (a + narrow.toNat + 10))) (by decide)
      (by rw [List.append_assoc, List.append_assoc]; exact w.there) stop w.below o fun third => ?_
    obtain ⟨i, here, next, leads⟩ := Memory.instructionAt?_through o (.inr rfl) word
      (by rw [← stop]; exact fits) third
    rw [holds] at leads
    exact ⟨i, here, by rw [next]; exact Nat.le_of_eq stop.symm, leads⟩

/-- What was written for a target carries it. -/
theorem carries_of_written (w : Written m homes p t cell) (shape : p.item.NamesData)
    (proper : p.item.relation.Proper) (names : p.item.relation.target? = some t) :
    m.Carries p.item.relation p.address p.stop t := by
  obtain ⟨⟨home, bytes, relation⟩, address, distance, settled⟩ := p
  cases relation with
  | none => trivial
  | data offset g =>
    obtain rfl := Option.some.inj names
    exact carries_data w shape proper
  | jump size g =>
    obtain rfl := Option.some.inj names
    exact carries_jump w proper
  | branch size k g =>
    obtain rfl := Option.some.inj names
    exact carries_branch w proper.2 proper.1
  | loop size narrow opcode g =>
    obtain rfl := Option.some.inj names
    exact carries_loop w proper.2 proper.1
  | call size g =>
    obtain rfl := Option.some.inj names
    exact carries_call w proper

/-- Where code was written below the top of the address space, an instruction of its layout is
written for its target. -/
theorem written_of_relocate {base : Nat} {items : List Movable} {code : List UInt8}
    {pre post : List Placed} (laid : relocate base items = .ok code)
    (roomy : ∀ x ∈ items, x.Roomy) (there : m.peek base code.length = code)
    (top : base + code.length < wordCount) (whole : layout base items = pre ++ p :: post)
    (word : p.needsCell = true → p.target (layout base items) < wordCount) :
    p.address = base + sumOf Placed.length pre ∧ p.stop ≤ base + code.length ∧
      ∃ cell, Written m (items.map Movable.home) p (p.target (layout base items)) cell := by
  obtain ⟨place, cell, stands, clear⟩ := stands_of_relocate laid roomy there whole
  have suits := (layout_spec base items).1.suits p (by simp [whole])
  refine ⟨place, stands.inside, cell, suits, clear, stands.written, fun needs => ?_, ?_⟩
  · obtain ⟨inside, holds⟩ := stands.word needs
    rw [Nat.mod_eq_of_lt (word needs)] at holds
    exact ⟨by omega, holds⟩
  · exact Nat.lt_of_le_of_lt stands.inside top

end

end Detouring
