-- A process in which code is patched: its memory, the arena of small blocks inside it, and the
-- log.
import Detouring.Memory.Arena
import Detouring.Memory.PageSupply
import Detouring.Memory.Patch
import Detouring.Operation

namespace Detouring

structure Machine where
  arena : Arena PageSupply
  /-- What was logged, the first line first. -/
  log : List Report := []

namespace Machine

/-! ## Memory -/

def memory (m : Machine) : Memory := m.arena.source.memory

def withMemory (m : Machine) (memory : Memory) : Machine :=
  { m with arena := { m.arena with source := { m.arena.source with memory } } }

@[simp] theorem memory_withMemory (m : Machine) (memory : Memory) :
    (m.withMemory memory).memory = memory := rfl

/-- Writes bytes where they can be written. -/
def write (m : Machine) (address : Nat) (data : List UInt8) : Machine :=
  m.withMemory (m.memory.write address data)

def writeWord (m : Machine) (address value : Nat) : Machine := m.write address (leBytes 8 value)

def report (m : Machine) (r : Report) : Machine := { m with log := m.log ++ [r] }

/-- The operation that works on the memory alone. -/
def onMemory {α : Type} (act : Memory → Except Fault α × Memory) : Op Machine α :=
  (Op.of act).within memory withMemory

/-- Patches code, and gives the first `backup` bytes that it replaced. -/
def patchCode (target : Nat) (data : List UInt8) (backup : Nat) : Op Machine (List UInt8) :=
  onMemory fun m => m.patch .executable target data backup

/-! ## Blocks -/

def allocate (r : BlockRequest) : Op Machine Block := Op.of fun m =>
  let (result, arena) := m.arena.allocate r
  (result, { m with arena })

def allocateNear (w : Window) (r : BlockRequest) : Op Machine Block := Op.of fun m =>
  let (result, arena, reports) := m.arena.allocateNear w r
  (result, { m with arena, log := m.log ++ reports })

/-- Takes a block back. -/
def free (m : Machine) (b : Block) : Machine :=
  let (arena, reports) := m.arena.free b
  { m with arena, log := m.log ++ reports }

def freeAll (m : Machine) (blocks : List Block) : Machine := blocks.foldl free m

/-- Writes into a block. -/
def writeBlock (b : Block) (offset : Nat) (data : List UInt8) : Op Machine Unit := Op.of fun m =>
  match b.checkWrite offset data.length with
  | .error e => (.error e, m)
  | .ok () => (.ok (), m.write (b.base + offset) data)

/-- The reach of a displacement of 32 bits around an address. -/
def windowAround (address : Nat) : Window :=
  { target := address, low := address - 0x80000000, high := clampedAdd address 0x7fffffff }

end Machine

end Detouring
