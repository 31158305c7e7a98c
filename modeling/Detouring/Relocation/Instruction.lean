-- Reading x86-64 instructions, as far as their place matters: how long they are, whether they
-- name an address relative to themselves, and whether they call.
import Detouring.Relocation.CallForm
import Detouring.Relocation.Opcode

namespace Detouring

/-! ## Instructions -/

/-- How large the addresses are that jumps, branches, loops and calls lead to. -/
inductive TargetSize where
  /-- Of 16 bits: all targets lie in the lowest 64 KiB. -/
  | word
  | full
deriving DecidableEq

namespace TargetSize

/-- The prefixes that say so. -/
def marks : TargetSize → List UInt8
  | word => [0x66]
  | full => []

/-- The bytes of the longer displacement. -/
def width : TargetSize → Nat
  | word => 2
  | full => 4

/-- The address that a sum stands for. -/
def wrap : TargetSize → Int → Nat
  | word, i => wrapWord i % 0x10000
  | full, i => wrapWord i

end TargetSize

/-- What an instruction names relative to its own place. -/
inductive Relation where
  | none
  /-- Data at `target`, by the displacement at byte `offset` of the instruction. -/
  | data (offset target : Nat)
  | jump (size : TargetSize) (target : Nat)
  /-- A jump under a condition, by its number. -/
  | branch (size : TargetSize) (condition : UInt8) (target : Nat)
  /-- A loop or a jump on an empty counter, by its opcode. The counter may have 32 bits. -/
  | loop (size : TargetSize) (narrow : Bool) (opcode : UInt8) (target : Nat)
  | call (size : TargetSize) (target : Nat)
deriving DecidableEq

/-- The address that is named. -/
def Relation.target? : Relation → Option Nat
  | none => Option.none
  | data _ t | jump _ t | branch _ _ t | loop _ _ _ t | call _ t => some t

/-- What an opcode names by a displacement. -/
def Relation.ofOpcode (size : TargetSize) (narrow : Bool) (opcode : UInt8) (target : Nat) :
    Relation :=
  match opcode with
  | 0xe8 => .call size target
  | 0xe9 | 0xeb => .jump size target
  | 0xe0 | 0xe1 | 0xe2 | 0xe3 => .loop size narrow opcode target
  | opcode => .branch size (opcode % 16) target

structure Instruction where
  address : Nat
  bytes : List UInt8
  relation : Relation
  /-- The form, if the instruction is a call. -/
  call? : Option CallForm
deriving DecidableEq

open Opcode

namespace Instruction

def length (i : Instruction) : Nat := i.bytes.length

/-- The address of the instruction that follows. -/
def next (i : Instruction) : Nat := i.address + i.length

def namesData (i : Instruction) : Bool := i.relation matches .data _ _

/-! ## Readings -/

/-- The bytes of an instruction that have been read, and those that follow. -/
structure Reading where
  address : Nat
  marks : Marks
  opcode : UInt8
  /-- Prefixes and opcode. -/
  head : List UInt8
  rest : List UInt8

namespace Reading

/-- The instruction that ends `count` bytes after the opcode. -/
def finish (r : Reading) (count : Nat) (relation : Nat → Relation)
    (call? : Option CallForm) : Option Instruction :=
  let bytes := r.head ++ r.rest.take count
  if r.rest.length < count then none
  else some ⟨r.address, bytes, relation (r.address + bytes.length), call?⟩

/-- What an operand names, by the four bytes behind its mode byte. -/
def named (r : Reading) (mode : Mode) (four : List UInt8) (next : Nat) : Relation :=
  if mode.isRelative then
    .data (r.head.length + 1) (r.marks.wrap (wrapWord (next + signed32 (ofLeBytes four))))
  else .none

/-- The form of a call through an operand. A far call is not widened. -/
def indirectCall? (k : Marks) (x : Operands) (m : Mode) : Option CallForm :=
  match x, m.register with
  | .transfer, 2 => some (if k.is16 then .indirect16 else .indirect64)
  | .transfer, 3 => some (if k.is16 then .far16 else .far32)
  | _, _ => none

/-- An instruction with a register or memory operand, and perhaps an immediate. -/
def withOperand (r : Reading) (x : Operands) : Option Instruction :=
  match r.rest with
  | [] => none
  | b :: rest =>
    let mode := Mode.of b
    (x.immediate? mode).bind fun width =>
      r.finish (mode.extent rest.head? + width + 1) (r.named mode (rest.take 4))
        (indirectCall? r.marks x mode)

def targetSize (r : Reading) : TargetSize := if r.marks.is16 then .word else .full

/-- Where a displacement leads from the next instruction, and how. -/
def leading (r : Reading) (displacement : List UInt8) (next : Nat) : Relation :=
  let d := Int.bmod (ofLeBytes displacement) (valuesIn displacement.length)
  .ofOpcode r.targetSize r.marks.narrow r.opcode (r.targetSize.wrap (next + d))

/-- The form of a call by a displacement. -/
def directCall? (r : Reading) : Option CallForm :=
  if r.opcode = 0xe8 then some (if r.targetSize = .word then .near16 else .near32) else none

/-- A jump, branch, loop or call by a displacement. -/
def relative (r : Reading) (width : Nat) : Option Instruction :=
  r.finish width (r.leading (r.rest.take width)) r.directCall?

/-- Reads what follows the opcode. -/
def read (r : Reading) : Operands → Option Instruction
  | .none => r.finish 0 (fun _ => .none) none
  | .immediate width => r.finish width (fun _ => .none) none
  | .displacement8 => r.relative 1
  | .displacement => r.relative r.targetSize.width
  | x => r.withOperand x

end Reading

/-! ## Decoding -/

/-- Reads prefixes and opcode, and says what must follow. -/
def start? (address : Nat) (code : List UInt8) : Option (Reading × Operands) :=
  let before := code.take (prefixCount code)
  let k := Marks.of before
  match code.drop (prefixCount code) with
  | [] => none
  | [opcode] => (operands? k opcode).map (⟨address, k, opcode, before ++ [opcode], []⟩, ·)
  | opcode :: second :: rest =>
    if opcode = 0x0f then
      (extendedOperands? second).map
        (⟨address, k, second, before ++ [opcode, second], rest⟩, ·)
    else
      (operands? k opcode).map (⟨address, k, opcode, before ++ [opcode], second :: rest⟩, ·)

/-- The bytes of the longest instruction. -/
def maxLength : Nat := 15

/-- Reads the instruction at the start of `code`, which lies at `address`. -/
def decode? (address : Nat) (code : List UInt8) : Option Instruction :=
  (start? address (code.take maxLength)).bind fun (r, operands) => r.read operands

/-! ## Laws

An instruction lies where it was read. Its bytes are the first bytes of the code, at least one of
them. -/

/-- Whatever follows the opcode, an instruction that is read ends some bytes behind it. -/
theorem Reading.finish_of_read {r : Reading} {x : Operands} {i : Instruction}
    (h : r.read x = some i) :
    ∃ count relation call?, r.finish count relation call? = some i := by
  have operand {x : Operands} (h : r.withOperand x = some i) :
      ∃ count relation call?, r.finish count relation call? = some i := by
    unfold withOperand at h
    split at h
    · cases h
    · obtain ⟨_, _, finished⟩ := Option.bind_eq_some_iff.mp h
      exact ⟨_, _, _, finished⟩
  cases x <;> simp only [read] at h
  case none | immediate | displacement8 | displacement => exact ⟨_, _, _, h⟩
  all_goals exact operand h

theorem Reading.finish_spec {r : Reading} {count : Nat} {relation : Nat → Relation}
    {call? : Option CallForm} {i : Instruction} (h : r.finish count relation call? = some i) :
    i.address = r.address ∧ i.bytes = (r.head ++ r.rest).take i.length ∧
      r.head.length ≤ i.length := by
  simp only [finish] at h
  split at h
  · cases h
  · rename_i enough
    cases h
    have : min count r.rest.length = count := by omega
    simp [length, List.take_append, this, List.take_of_length_le]

theorem start?_spec {address : Nat} {code : List UInt8} {r : Reading} {x : Operands}
    (h : start? address code = some (r, x)) :
    r.address = address ∧ r.head ++ r.rest = code ∧ 0 < r.head.length := by
  have whole := List.take_append_drop (prefixCount code) code
  simp only [start?] at h
  split at h
  · cases h
  · rename_i last
    simp only [Option.map_eq_some_iff, Prod.mk.injEq] at h
    obtain ⟨_, _, rfl, _⟩ := h
    rw [last] at whole
    exact ⟨rfl, by simpa using whole, by simp⟩
  · rename_i more
    rw [more] at whole
    split at h <;> simp only [Option.map_eq_some_iff, Prod.mk.injEq] at h <;>
      obtain ⟨_, _, rfl, _⟩ := h <;> exact ⟨rfl, by simpa using whole, by simp⟩

theorem address_decode? {address : Nat} {code : List UInt8} {i : Instruction}
    (h : decode? address code = some i) : i.address = address := by
  simp only [decode?, Option.bind_eq_some_iff] at h
  obtain ⟨⟨r, x⟩, start, read⟩ := h
  obtain ⟨_, _, _, finished⟩ := Reading.finish_of_read read
  exact (Reading.finish_spec finished).1.trans (start?_spec start).1

theorem bytes_decode? {address : Nat} {code : List UInt8} {i : Instruction}
    (h : decode? address code = some i) : i.bytes = code.take i.length ∧ 0 < i.length := by
  simp only [decode?, Option.bind_eq_some_iff] at h
  obtain ⟨⟨r, x⟩, start, read⟩ := h
  have ⟨_, whole, begun⟩ := start?_spec start
  obtain ⟨_, _, _, finished⟩ := Reading.finish_of_read read
  have ⟨_, bytes, longer⟩ := Reading.finish_spec finished
  rw [whole, List.take_take] at bytes
  have : i.length ≤ maxLength := by
    have := congrArg List.length bytes
    simp only [List.length_take] at this
    simp only [length] at this ⊢
    omega
  rw [Nat.min_eq_left this] at bytes
  exact ⟨bytes, Nat.lt_of_lt_of_le begun longer⟩

end Instruction

end Detouring
