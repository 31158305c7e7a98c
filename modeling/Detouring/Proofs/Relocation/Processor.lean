-- What calls, jumps and pushes do. Each has an operand of 64 bits that is read off its bytes, and a
-- processor finds a value there, whatever its registers, its segments and its memory hold.
import Detouring.Proofs.Relocation.Carrying
import Mathlib.Logic.Function.Basic

namespace Detouring

open Opcode Instruction

/-! ## Operands -/

/-- An operand of 64 bits. -/
inductive Operand where
  /-- The target that a displacement names. -/
  | target (address : Nat)
  | register (number : Nat)
  /-- The word at an address that the instruction names by its distance. -/
  | named (segment : Option UInt8) (address : Nat)
  /-- The word at the sum of registers, each of them shifted, and a displacement. -/
  | computed (segment : Option UInt8) (narrow : Bool) (registers : List (Nat × Nat))
      (displacement : Int)
deriving DecidableEq

namespace Operand

/-- The number of a register, which a bit of the extension makes larger. -/
def registerNumber (before : List UInt8) (bit : UInt8) (n : Nat) : Nat :=
  if (extension? before).any (fun b => b &&& bit != 0) then n + 8 else n

/-- The signed number that some bytes stand for. -/
def displacementOf (l : List UInt8) : Int := Int.bmod (ofLeBytes l) (valuesIn l.length)

/-- The registers of an address whose mode byte asks for one byte more. That has the same three
fields: a shift, an index and a base. -/
def scaledRegisters (before : List UInt8) (kind : Nat) (scaled : Mode) : List (Nat × Nat) :=
  let index := registerNumber before 2 scaled.register
  (if kind = 0 ∧ scaled.operand = 5 then [] else [(registerNumber before 1 scaled.operand, 0)])
    ++ if index = 4 then [] else [(index, scaled.kind)]

/-- The operand that a mode byte and what follows it describe, behind some prefixes. -/
def of (before : List UInt8) (b : UInt8) (rest : List UInt8) (relation : Relation) : Operand :=
  let mode := Mode.of b
  let segment := (lastOf [0x64, 0x65] before).head?
  let narrow := (Marks.of before).narrow
  if mode.kind = 3 then register (registerNumber before 1 mode.operand)
  else
    match relation with
    | .data _ t => named segment t
    | _ =>
      if mode.operand = 4 then
        computed segment narrow (scaledRegisters before mode.kind (Mode.of (rest.headD 0)))
          (displacementOf rest.tail)
      else computed segment narrow [(registerNumber before 1 mode.operand, 0)] (displacementOf rest)

/-- `true` if the operand depends on a register. -/
def uses (n : Nat) : Operand → Bool
  | target _ | named _ _ => false
  | register k => k == n
  | computed _ _ registers _ => registers.any (·.1 == n)

end Operand

/-- What is done with an operand of 64 bits. -/
inductive Transfer where
  | call (operand : Operand)
  | jump (operand : Operand)
  | push (operand : Operand)
deriving DecidableEq

/-- What the register field of a mode byte asks for. -/
def Transfer.of? (register : Nat) (o : Operand) : Option Transfer :=
  match register with
  | 2 => some (.call o)
  | 4 => some (.jump o)
  | 6 => some (.push o)
  | _ => none

namespace Instruction

/-- What an instruction does through an operand in a register or in memory. -/
def throughOperand? (i : Instruction) : Option Transfer :=
  let before := i.bytes.take (prefixCount i.bytes)
  match i.bytes.drop (prefixCount i.bytes) with
  | 0xff :: b :: rest =>
    if (Marks.of before).is16 then none
    else Transfer.of? (Mode.of b).register (.of before b rest i.relation)
  | _ => none

def transfer? (i : Instruction) : Option Transfer :=
  match i.relation with
  | .call .full t => some (.call (.target t))
  | .jump .full t => some (.jump (.target t))
  | _ => i.throughOperand?

theorem throughOperand?_of_parts {i : Instruction} {before rest : List UInt8} {b : UInt8}
    (opens : Opens before [0xff] .transfer) (whole : i.bytes = before ++ [0xff] ++ b :: rest)
    (wide : (Marks.of before).is16 = false) :
    i.throughOperand? = Transfer.of? (Mode.of b).register (.of before b rest i.relation) := by
  have count : prefixCount i.bytes = before.length := by rw [whole, opens.count]
  have front : i.bytes.take before.length = before := by simp [whole]
  have behind : i.bytes.drop before.length = 0xff :: b :: rest := by simp [whole]
  unfold throughOperand?
  rw [count, front, behind]
  simp [wide]

end Instruction

/-! ## Processors -/

/-- A processor and its memory. The flags are left out: no call, jump or push looks at them. -/
structure Processor where
  ip : Nat
  /-- The registers by their numbers. The stack pointer has number 4. -/
  registers : Nat → UInt64
  /-- Where segments start, by the prefixes that name them. -/
  segments : UInt8 → UInt64
  memory : Memory

namespace Processor

/-- The start of a segment, which is 0 if none is named. -/
def start (c : Processor) (segment : Option UInt8) : Nat :=
  segment.elim 0 fun b => (c.segments b).toNat

/-- The sum of registers, each of them shifted. -/
def sum (c : Processor) (registers : List (Nat × Nat)) : Nat :=
  sumOf (fun (n, shift) => (c.registers n).toNat <<< shift) registers

/-- Where in memory an operand is. -/
def address? (c : Processor) : Operand → Option Nat
  | .target _ | .register _ => none
  | .named segment a => some (wrapWord (c.start segment + a))
  | .computed segment narrow registers d =>
    let offset := wrapWord (c.sum registers + d)
    some (wrapWord (c.start segment + if narrow then offset % 0x100000000 else offset))

/-- What an operand stands for. -/
def value (c : Processor) (o : Operand) : Nat :=
  match o with
  | .target t => t
  | .register n => (c.registers n).toNat
  | o => (c.address? o).elim 0 c.memory.word

/-- Where the next word is pushed. -/
def slot (c : Processor) : Nat := (c.registers 4 - 8).toNat

def push (c : Processor) (word : Nat) : Processor :=
  { c with
    registers := Function.update c.registers 4 (c.registers 4 - 8)
    memory := c.memory.writeWord c.slot word }

/-- Carries out an instruction. A call finds its target before it pushes the address to return
to. -/
def execute (c : Processor) (i : Instruction) : Option Processor :=
  match i.transfer? with
  | some (.call o) => some { c.push i.next with ip := c.value o }
  | some (.jump o) => some { c with ip := c.value o }
  | some (.push o) => some { c.push (c.value o) with ip := i.next }
  | none => none

/-- Carries out the instruction that is next. -/
def step (c : Processor) : Option Processor :=
  (c.memory.instructionAt? c.ip).bind c.execute

variable {c : Processor} {o : Operand}

theorem value_of_address {a : Nat} (there : c.address? o = some a) :
    c.value o = c.memory.word a := by
  cases o with
  | target | register => cases there
  | named | computed =>
    obtain rfl := Option.some.inj there
    rfl

/-! ## Pushing -/

/-- The operand has nothing to do with the stack pointer or with what is pushed next. -/
structure Steady (c : Processor) (o : Operand) : Prop where
  unused : o.uses 4 = false
  apart : ∀ a, c.address? o = some a → a + 8 ≤ c.slot ∨ c.slot + 8 ≤ a

theorem registers_push {n : Nat} (other : n ≠ 4) (c : Processor) (word : Nat) :
    (c.push word).registers n = c.registers n := Function.update_of_ne other _ _

theorem sum_push {registers : List (Nat × Nat)} (unused : registers.any (·.1 == 4) = false)
    (c : Processor) (word : Nat) : (c.push word).sum registers = c.sum registers := by
  induction registers with
  | nil => rfl
  | cons r rest ih =>
    simp only [List.any_cons, Bool.or_eq_false_iff, beq_eq_false_iff_ne] at unused
    have rest' := ih unused.2
    simp only [sum, sumOf_cons, registers_push unused.1] at rest' ⊢
    rw [rest']

theorem address?_push (unused : o.uses 4 = false) (c : Processor) (word : Nat) :
    (c.push word).address? o = c.address? o := by
  cases o with
  | target | register | named => rfl
  | computed segment narrow registers d =>
    rw [address?, address?, sum_push unused]
    rfl

/-- A push leaves steady operands as they are. -/
theorem value_push (steady : c.Steady o) (word : Nat) : (c.push word).value o = c.value o := by
  have same := address?_push steady.unused c word
  have kept (a : Nat) (there : c.address? o = some a) :
      (c.push word).memory.word a = c.memory.word a := by
    refine Memory.word_congr fun k hk => ?_
    have := steady.apart a there
    refine Memory.bytes_write_outside _ _ _ _ ?_
    rw [length_leBytes]
    omega
  cases there : c.address? o with
  | some a => rw [value_of_address there, value_of_address (same.trans there), kept a there]
  | none =>
    cases o with
    | target => rfl
    | register n =>
      have other : n ≠ 4 := by simpa [Operand.uses] using steady.unused
      exact congrArg UInt64.toNat (registers_push other c word)
    | named | computed => cases there

end Processor

end Detouring
