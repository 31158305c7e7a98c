-- What follows an opcode of x86-64, and the prefixes and the mode byte that shape it. Opcodes
-- outside the tables are not read.
import Detouring.Word

namespace Detouring

namespace Opcode

/-! ## Prefixes -/

/-- `true` for the prefixes that change sizes or segments, repeat, lock, or select an
instruction. -/
def isMark (b : UInt8) : Bool :=
  [0x26, 0x2e, 0x36, 0x3e, 0x64, 0x65, 0x66, 0x67, 0xf0, 0xf2, 0xf3].contains b

/-- `true` for the prefix that widens operands and extends register numbers. -/
def isExtension (b : UInt8) : Bool := b &&& 0xf0 == 0x40

/-- What the prefixes of an opcode say. -/
structure Marks where
  /-- The operand size is 16 bits. -/
  short : Bool
  /-- The operand size is 64 bits. -/
  wide : Bool
  /-- The address size is 32 bits. -/
  narrow : Bool

/-- The extension wins where both sizes are asked for. -/
def Marks.is16 (k : Marks) : Bool := k.short && !k.wide

/-- The width of an immediate that follows the operand size, in bytes. -/
def Marks.immediate (k : Marks) : Nat := if k.is16 then 2 else 4

/-- The address that an operand names by a word. -/
def Marks.wrap (k : Marks) (word : Nat) : Nat := if k.narrow then word % 0x100000000 else word

/-- How many bytes come before the opcode. An extension before another prefix says nothing, and
there is none behind one that counts. -/
def prefixCount : List UInt8 → Nat
  | [] => 0
  | b :: rest =>
    if isMark b then prefixCount rest + 1
    else if !isExtension b then 0
    else if rest.head?.any isMark then prefixCount rest + 1
    else 1

/-- The extension among the prefixes, which stands directly before the opcode. -/
def extension? (before : List UInt8) : Option UInt8 := before.getLast?.filter isExtension

def Marks.of (before : List UInt8) : Marks where
  short := before.contains 0x66
  wide := (extension? before).any fun b => b &&& 0x08 != 0
  narrow := before.contains 0x67

/-! ## Operands -/

/-- What follows an opcode. -/
inductive Operands where
  | none
  | immediate (width : Nat)
  /-- A register or memory operand, and an immediate. -/
  | memory (width : Nat)
  /-- The same where the opcode needs one of these numbers in the register field. -/
  | group (members : List Nat) (width : Nat)
  /-- The same without registers. -/
  | address
  /-- The same where only the first two members of the group have the immediate. -/
  | test (width : Nat)
  | displacement8
  /-- A displacement of 32 bits, or of 16 where the operand size is 16. -/
  | displacement
  /-- Increments, calls, jumps and pushes through an operand. -/
  | transfer

/-- The numbers of the segment registers. -/
def segments : List Nat := [0, 1, 2, 3, 4, 5]

/-- The operands of the opcodes of one byte from `40` on, by ranges. -/
def operandTable (k : Marks) : List (UInt8 × UInt8 × Operands) :=
  [(0x50, 0x5f, .none), (0x63, 0x63, .memory 0), (0x68, 0x68, .immediate k.immediate),
    (0x69, 0x69, .memory k.immediate), (0x6a, 0x6a, .immediate 1), (0x6b, 0x6b, .memory 1),
    (0x6c, 0x6f, .none), (0x70, 0x7f, .displacement8), (0x80, 0x80, .memory 1),
    (0x81, 0x81, .memory k.immediate), (0x83, 0x83, .memory 1), (0x84, 0x8b, .memory 0),
    (0x8c, 0x8c, .group segments 0), (0x8d, 0x8d, .address), (0x8e, 0x8e, .group segments 0),
    (0x8f, 0x8f, .group [0] 0),
    (0x90, 0x99, .none), (0x9b, 0x9f, .none),
    (0xa0, 0xa3, .immediate (if k.narrow then 4 else 8)), (0xa4, 0xa7, .none),
    (0xa8, 0xa8, .immediate 1), (0xa9, 0xa9, .immediate k.immediate), (0xaa, 0xaf, .none),
    (0xb0, 0xb7, .immediate 1), (0xb8, 0xbf, .immediate (if k.wide then 8 else k.immediate)),
    (0xc0, 0xc1, .memory 1), (0xc2, 0xc2, .immediate 2), (0xc3, 0xc3, .none),
    (0xc6, 0xc6, .group [0] 1), (0xc7, 0xc7, .group [0] k.immediate),
    (0xc8, 0xc8, .immediate 3), (0xc9, 0xc9, .none), (0xca, 0xca, .immediate 2),
    (0xcb, 0xcc, .none), (0xcd, 0xcd, .immediate 1), (0xcf, 0xcf, .none),
    (0xd0, 0xd3, .memory 0), (0xd7, 0xd7, .none), (0xd8, 0xdf, .memory 0),
    (0xe0, 0xe3, .displacement8), (0xe4, 0xe7, .immediate 1), (0xe8, 0xe9, .displacement),
    (0xeb, 0xeb, .displacement8),
    (0xec, 0xef, .none), (0xf1, 0xf1, .none), (0xf4, 0xf5, .none), (0xf6, 0xf6, .test 1),
    (0xf7, 0xf7, .test k.immediate), (0xf8, 0xfd, .none), (0xfe, 0xfe, .group [0, 1] 0),
    (0xff, 0xff, .transfer)]

/-- The operands of the opcodes of two bytes, by ranges of the second; the first is `0f`. -/
def extendedOperandTable : List (UInt8 × UInt8 × Operands) :=
  [(0x00, 0x03, .memory 0), (0x05, 0x09, .none), (0x0b, 0x0b, .none), (0x0d, 0x0d, .memory 0),
    (0x0e, 0x0e, .none), (0x0f, 0x0f, .memory 1), (0x10, 0x1f, .memory 0),
    (0x20, 0x23, .immediate 1), (0x28, 0x2f, .memory 0), (0x30, 0x35, .none),
    (0x37, 0x37, .none), (0x40, 0x6f, .memory 0),
    (0x70, 0x73, .memory 1), (0x74, 0x76, .memory 0), (0x77, 0x77, .none),
    (0x78, 0x79, .memory 0), (0x7c, 0x7f, .memory 0), (0x80, 0x8f, .displacement),
    (0x90, 0x9f, .memory 0), (0xa0, 0xa2, .none), (0xa3, 0xa3, .memory 0),
    (0xa4, 0xa4, .memory 1), (0xa5, 0xa5, .memory 0), (0xa8, 0xaa, .none),
    (0xab, 0xab, .memory 0), (0xac, 0xac, .memory 1), (0xad, 0xb9, .memory 0),
    (0xba, 0xba, .group [4, 5, 6, 7] 1), (0xbb, 0xc1, .memory 0), (0xc2, 0xc2, .memory 1),
    (0xc3, 0xc3, .address), (0xc4, 0xc6, .memory 1), (0xc7, 0xc7, .memory 0),
    (0xc8, 0xcf, .none), (0xd0, 0xff, .memory 0)]

/-- The entry of a table for an opcode. -/
def lookUp (table : List (UInt8 × UInt8 × Operands)) (opcode : UInt8) : Option Operands :=
  (table.find? fun (low, high, _) => low ≤ opcode && opcode ≤ high).map fun (_, _, x) => x

/-- What follows an opcode of one byte. Eight rows of arithmetic come first. -/
def operands? (k : Marks) (opcode : UInt8) : Option Operands :=
  if 0x40 ≤ opcode then lookUp (operandTable k) opcode
  else
    match opcode % 8 with
    | 0 | 1 | 2 | 3 => some (.memory 0)
    | 4 => some (.immediate 1)
    | 5 => some (.immediate k.immediate)
    | _ => Option.none

/-- What follows an opcode of two bytes. -/
def extendedOperands? (opcode : UInt8) : Option Operands := lookUp extendedOperandTable opcode

/-! ## The mode byte -/

/-- A mode byte: what kind of operand there is, and which registers are meant. -/
structure Mode where
  kind : Nat
  register : Nat
  operand : Nat

def Mode.of (b : UInt8) : Mode := ⟨b.toNat / 64, b.toNat / 8 % 8, b.toNat % 8⟩

/-- `true` if the operand is data relative to the instruction. -/
def Mode.isRelative (m : Mode) : Bool := m.kind == 0 && m.operand == 5

/-- How many bytes the operand has after the mode byte, of which `scaled` is the first. -/
def Mode.extent (m : Mode) (scaled : Option UInt8) : Nat :=
  let scale := if m.kind ≠ 3 ∧ m.operand = 4 then 1 else 0
  let base := if scale = 1 then (scaled.getD 0).toNat % 8 else m.operand
  match m.kind with
  | 0 => scale + if base = 5 then 4 else 0
  | 1 => scale + 1
  | 2 => scale + 4
  | _ => scale

/-- The width of the immediate behind a register or memory operand, if the opcode takes that
operand. A far call or jump goes through memory. -/
def Operands.immediate? (x : Operands) (m : Mode) : Option Nat :=
  match x with
  | memory width => some width
  | group members width => if members.contains m.register then some width else Option.none
  | address => if m.kind ≠ 3 then some 0 else Option.none
  | test width => some (if m.register < 2 then width else 0)
  | transfer =>
    if m.register = 7 ∨ ((m.register = 3 ∨ m.register = 5) ∧ m.kind = 3) then Option.none
    else some 0
  | _ => Option.none

/-! ## What the extension is needed for

An extension that says nothing is not written again. -/

/-- The instructions on bytes whose operand is in the mode byte. -/
def isByteOperation (opcode : UInt8) : Bool :=
  (opcode < 0x40 && opcode % 8 == 0) || (opcode < 0x40 && opcode % 8 == 2)
    || [0x80, 0x84, 0x86, 0x88, 0x8a, 0xc0, 0xc6, 0xd0, 0xd2, 0xf6, 0xfe].contains opcode

/-- The instructions that are not widened by the extension. -/
def ignoresWidth (opcode : UInt8) (mode : Mode) : Bool :=
  isByteOperation opcode || (0x50 ≤ opcode && opcode ≤ 0x5f) || (0xb0 ≤ opcode && opcode ≤ 0xb7)
    || (opcode == 0xff && 2 ≤ mode.register)

/-- `true` if an instruction names a byte register that has another meaning without the
extension. -/
def namesHighByte (opcode : UInt8) (mode : Mode) : Bool :=
  let inOperand := mode.kind == 3 && 4 ≤ mode.operand
  let inRegister := 4 ≤ mode.register && (opcode < 0x40 || (0x84 ≤ opcode && opcode ≤ 0x8a))
  (isByteOperation opcode && (inOperand || inRegister)) || (0xb4 ≤ opcode && opcode ≤ 0xb7)

/-- The extension as it has to be written before an opcode of one byte. -/
def neededExtension (b opcode : UInt8) (mode : Mode) : List UInt8 :=
  let needed := if ignoresWidth opcode mode then b &&& 0xf7 else b
  if needed = 0x40 ∧ ¬ namesHighByte opcode mode then [] else [needed]

/-- The extension that is left before an opcode and what follows it. -/
def keptExtension (b : UInt8) : List UInt8 → List UInt8
  | [] => []
  | 0x0f :: _ => [b]
  | opcode :: rest => neededExtension b opcode (Mode.of (rest.headD 0))

/-! ## What is written again

Of each kind of mark one is written, in a fixed order. -/

/-- The last of the prefixes that is one of these, if there is one. -/
def lastOf (kind before : List UInt8) : List UInt8 := (before.filter kind.contains).getLast?.toList

/-- The prefix that names a segment. The first two count before the others. -/
def segmentMark (before : List UInt8) : List UInt8 :=
  match lastOf [0x64, 0x65] before with
  | [] => lastOf [0x26, 0x2e, 0x36, 0x3e] before
  | mark => mark

def orderedMarks (before : List UInt8) : List UInt8 :=
  segmentMark before ++ lastOf [0xf0] before ++ lastOf [0x66] before ++ lastOf [0x67] before
    ++ lastOf [0xf2, 0xf3] before

/-- `true` for a mark that says nothing: the operand size where the extension widens, and the
address size where the operand is named by its distance. -/
def saysNothing (namesData widened : Bool) (mark : UInt8) : Bool :=
  (widened && mark == 0x66) || (namesData && mark == 0x67)

/-- An instruction without what its prefixes say in vain. -/
def normalize (namesData : Bool) (bytes : List UInt8) : List UInt8 :=
  let before := bytes.take (prefixCount bytes)
  let body := bytes.drop (prefixCount bytes)
  let widened := (Marks.of before).wide && body.head? != some 0x0f
  let extension := (extension? before).elim [] (keptExtension · body)
  orderedMarks (before.filter (!saysNothing namesData widened ·)) ++ extension ++ body

end Opcode

end Detouring
