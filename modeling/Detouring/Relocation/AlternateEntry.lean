-- Alternate entries: the instructions at the start of some code, moved elsewhere and followed
-- by a jump to the first instruction that stayed. Running one runs the code as if nothing had
-- been written over its start.
import Detouring.Machine
import Detouring.Relocation.Layout

namespace Detouring

open Relocation

namespace AlternateEntry

/-! ## Taking instructions -/

/-- The instructions that cover at least `count` more bytes of the code at `address`. -/
def takeInstructions (entry : Nat) (count address : Nat) (code : List UInt8) :
    Except Fault (List Instruction) :=
  if count = 0 then .ok []
  else if code = [] then .error (.encoding (.outOfCode entry))
  else
    match _h : Instruction.decode? address code with
    | none => .error (.encoding (.invalidInstruction address))
    | some i =>
      (takeInstructions entry (count - i.length) i.next (code.drop i.length)).map (i :: ·)
termination_by count
decreasing_by
  have := (Instruction.bytes_decode? _h).2
  omega

/-! ## The end of the block -/

/-- The jump to where a call goes. -/
def callAsJump? (call : Instruction) : CallForm → Option (List UInt8 × Relation)
  | .near32 =>
    (call.relation.target?).map fun t => (0xe9 :: call.bytes.drop 1, .jump .full t)
  | .indirect64 | .far64 =>
    let moved := Movable.ofInstruction call
    some (flipToJump moved.bytes, moved.relation)
  | _ => none
where
  /-- Turns `ff /2` into `ff /4` and `ff /3` into `ff /5`. -/
  flipToJump : List UInt8 → List UInt8
    | 0xff :: mode :: rest => 0xff :: (mode + 0x10) :: rest
    | b :: rest => b :: flipToJump rest
    | [] => []

/-- The length of `push [rip + rel32]`. -/
def pushLength : Nat := 6

/-- A call at the end of a block must return into the code that stayed. It becomes a push of
that address from a cell, a jump, and the cell. -/
def returningCall (call : Instruction) (form : CallForm) : Except Fault (List Movable) :=
  match callAsJump? call form with
  | none => .error (.encoding (.unknownCall form))
  | some (bytes, relation) =>
    let jumpHome := call.address + pushLength
    let cellHome := jumpHome + bytes.length
    .ok [⟨call.address, 0xff :: 0x35 :: hole, .data 2 cellHome⟩,
      ⟨jumpHome, bytes, relation⟩,
      ⟨cellHome, leBytes 8 call.next, .none⟩]

/-- A jump to the first instruction that stayed. It has no place of its own in the code and is
known by the address 0, so an instruction that names that address leads here. -/
def jumpBack (target : Nat) : Movable := ⟨0, 0xe9 :: hole, .jump .full target⟩

/-- The block for instructions that end at `next`. -/
def movables (instructions : List Instruction) (next : Nat) : Except Fault (List Movable) :=
  match instructions.getLast? with
  | none => .ok [jumpBack next]
  | some last =>
    match last.call? with
    | some form =>
      (returningCall last form).map (instructions.dropLast.map Movable.ofInstruction ++ ·)
    | none => .ok (instructions.map Movable.ofInstruction ++ [jumpBack next])

/-! ## Memory for it -/

/-- Memory for a block of `size` bytes, near the code if the block names data. -/
def allocate (entry size : Nat) (near : Bool) : Op Machine Block :=
  let request : BlockRequest := { size, align := 1, executable := true }
  if near then Machine.allocateNear (Machine.windowAround entry) request
  else Machine.allocate request

/-- Moves a block into memory that is large enough. The size depends on the place, so a place
that proves too small is given back and a larger one tried, `attempts` times in all. -/
def settle (entry : Nat) (items : List Movable) (near : Bool) :
    (attempts estimate : Nat) → Op Machine Block
  | 0, _ => throw (.encoding (.unsettledSize entry))
  | attempts + 1, estimate => do
    let block ← allocate entry estimate near
    match relocate block.base items with
    | .error e =>
      Op.change (·.free block)
      throw e
    | .ok code =>
      if code.length ≤ block.size then
        (Machine.writeBlock block 0 code).cleaning (·.free block)
        return block
      else
        Op.change (·.free block)
        settle entry items near attempts code.length

/-! ## Building -/

/-- The instructions that cover the first `count` bytes at `entry`. Nothing behind the longest
instruction is looked at. -/
def instructionsAt (m : Memory) (entry count : Nat) : Except Fault (List Instruction) :=
  let guess := count + Instruction.maxLength
  let readable := min (Region.readableLength m.mapRegions entry guess) guess
  if readable < count then .error (.encoding (.unreadable readable count entry))
  else takeInstructions entry count entry (m.peek entry readable)

/-- Builds an entry that runs the code at `entry` without its first `count` bytes. -/
def build (entry count : Nat) : Op Machine Block := do
  let instructions ← instructionsAt (← get).memory entry count
  let next := entry + sumOf Instruction.length instructions
  let items ← movables instructions next
  settle entry items (instructions.any Instruction.namesData) 4 (count + 5)

end AlternateEntry

end Detouring
