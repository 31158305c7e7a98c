-- Small pieces of code in blocks of their own: stubs that jump through a pointer cell, so that
-- they can be pointed elsewhere at any time, and stubs that load an argument before they jump.
import Detouring.Machine

namespace Detouring

/-! ## Jump stubs -/

/-- A stub that jumps to where its cell points. -/
structure Stub where
  block : Block
  /-- Where the pointer cell lies in the block. -/
  cellOffset : Nat

namespace Stub

/-- `jmp [rip + 2]`, and two bytes to align the cell. -/
def code : List UInt8 := [0xff, 0x25, 0x02, 0x00, 0x00, 0x00, 0xcc, 0xcc]

def entry (s : Stub) : Nat := s.block.base

def cell (s : Stub) : Nat := s.block.base + s.cellOffset

/-- Where the stub leads. -/
def target (s : Stub) (m : Machine) : Nat := m.memory.word s.cell

/-- Points the stub at another target. -/
def retarget (s : Stub) (target : Nat) (m : Machine) : Machine := m.writeWord s.cell target

/-- Makes a stub of a block with any code. The cell must be aligned and inside the block, or
the block is given back. -/
def ofBlock (block : Block) (code : List UInt8) (cellOffset target : Nat) : Op Machine Stub :=
  Op.cleaning (·.free block) do
    if (block.base + cellOffset) % 8 ≠ 0 ∨ block.size < cellOffset + 8 then
      throw (.argument (.stubCell cellOffset))
    else
      Machine.writeBlock block 0 code
      let stub : Stub := { block, cellOffset }
      Op.change (stub.retarget target)
      return stub

/-- Builds a stub that leads to `target`. -/
def build (target : Nat) : Op Machine Stub := do
  let block ← Machine.allocate { size := 16, align := 16, executable := true }
  ofBlock block code 8 target

end Stub

/-! ## Stubs with an argument -/

namespace ArgumentStub

/-- `mov rax, argument; mov r10, target; jmp r10` -/
def code (target argument : Nat) : List UInt8 :=
  [0x48, 0xb8] ++ leBytes 8 argument ++ [0x49, 0xba] ++ leBytes 8 target ++ [0x41, 0xff, 0xe2]

/-- Builds a stub that loads `argument` and jumps to `target`. -/
def build (target argument : Nat) : Op Machine Block := do
  let block ←
    Machine.allocate { size := (code target argument).length, align := 1, executable := true }
  (Machine.writeBlock block 0 (code target argument)).cleaning (·.free block)
  return block

end ArgumentStub

end Detouring
