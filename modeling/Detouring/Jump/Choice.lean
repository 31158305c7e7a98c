-- Choosing the form of a jump. The shortest form that reaches its target wins; a pointer cell
-- is taken from the arena. A jump that is pointed elsewhere keeps its form if it can.
import Detouring.Jump.Basic
import Detouring.Machine

namespace Detouring

namespace Machine

/-- Gives a block of a jump back. -/
def freeCell (m : Machine) (j : Jump) : Machine :=
  match j.cell? with
  | some cell => m.free cell
  | none => m

/-- Fills the pointer cell of a jump, and gives the bytes for its source. -/
def encode (j : Jump) : Op Machine (List UInt8) := Op.of fun m =>
  match j.bytes, j.cell? with
  | .ok bytes, some cell => (.ok bytes, m.writeWord cell.base j.target)
  | .ok bytes, none => (.ok bytes, m)
  | .error e, _ => (.error e, m)

end Machine

namespace Jump

/-- `true` if `size` bytes fit into the room; no room given is room enough. -/
def fits (room : Option Nat) (size : Nat) : Bool := room.all (size ≤ ·)

/-- `pop rdi`. A relative jump in front of it would look like a stub of a runtime. -/
def popRdi : UInt8 := 0x5f

/-- `true` if a relative jump fits, reaches its target, and is not taken for a stub. -/
def prefersRelative (m : Memory) (source target : Nat) (room : Option Nat) : Bool :=
  fits room JumpForm.relative.size && reaches source JumpForm.relative.size target
    && m.bytes (source + JumpForm.relative.size) != popRdi

/-- Where the pointer cell of a jump at `source` may lie. -/
def cellWindow (source : Nat) : Window := Machine.windowAround ((source + 6) % wordCount)

/-- A pointer cell for a jump at `source`, if there is room for such a jump and memory for the
cell. -/
def cellNear (source : Nat) (room : Option Nat) : Op Machine (Option Block) :=
  if fits room 6 then do
    return (← (Machine.allocateNear (cellWindow source) { size := 8 }).outcome).toOption
  else pure none

/-- The best jump from `source` to `target` in the room. If none fits, the longest is used all
the same. -/
def choose (source target : Nat) (room : Option Nat) : Op Machine Jump := do
  if source = target then throw (.argument (.selfJump source))
  else if prefersRelative (← get).memory source target room then
    return ⟨source, target, .relative⟩
  else
    match ← cellNear source room with
    | some cell => return ⟨source, target, .throughCell cell⟩
    | none =>
      if !fits room JumpForm.absolute.size then
        Op.change (·.report (.noJumpFits (room.getD maxWord) source))
      return ⟨source, target, .absolute⟩

/-- What it takes to point a jump elsewhere. -/
inductive Redirected where
  /-- The pointer cell leads there already. -/
  | inPlace (j : Jump)
  /-- This jump must be written over the old one. -/
  | overwritten (j : Jump)

/-- Points a jump at another target. `room` counts if a new form has to be chosen. -/
def redirect (j : Jump) (target : Nat) (room : Option Nat) : Op Machine Redirected :=
  match j.form with
  | .throughCell cell => do
    Op.change (·.writeWord cell.base target)
    return .inPlace { j with target }
  | .relative =>
    if reaches j.source j.size target then pure (.overwritten { j with target })
    else .overwritten <$> choose j.source target room
  | .absolute => pure (.overwritten { j with target })

end Jump

end Detouring
