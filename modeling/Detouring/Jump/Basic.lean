-- The jumps that are written over code. Each form trades its length against its reach: a short
-- one needs a target nearby, a longer one a pointer cell nearby, the longest needs nothing.
import Detouring.Memory.Arena

namespace Detouring

/-- How a jump knows its target. -/
inductive JumpForm where
  /-- `jmp rel32`, by a displacement. -/
  | relative
  /-- `jmp [rip + rel32]`, through a pointer cell. -/
  | throughCell (cell : Block)
  /-- `jmp [rip + 0]`, by the address that follows it. -/
  | absolute
deriving DecidableEq

/-- A jump to be written at `source`. -/
structure Jump where
  source : Nat
  target : Nat
  form : JumpForm
deriving DecidableEq

/-- The displacement of a target from the end of an instruction. -/
def displacement (source length target : Nat) : Int := target - ((source + length : Nat) : Int)

/-- `true` if a displacement of 32 bits reaches the target. -/
def reaches (source length target : Nat) : Bool :=
  fitsSigned32 (displacement source length target)

def JumpForm.size : JumpForm → Nat
  | relative => 5
  | throughCell _ => 6
  | absolute => 14

namespace Jump

/-- How many bytes the jump overwrites. -/
def size (j : Jump) : Nat := j.form.size

def cell? (j : Jump) : Option Block :=
  match j.form with
  | .throughCell cell => some cell
  | _ => none

/-- The bytes of the jump. -/
def bytes (j : Jump) : Except Fault (List UInt8) :=
  match j.form with
  | .relative =>
    if reaches j.source j.size j.target then
      .ok (0xe9 :: leSigned32 (displacement j.source j.size j.target))
    else .error (.state (.outOfJumpRange j.target j.source))
  | .throughCell cell =>
    if reaches j.source j.size cell.base then
      .ok (0xff :: 0x25 :: leSigned32 (displacement j.source j.size cell.base))
    else .error (.state (.cellOutOfJumpRange cell.base j.source))
  | .absolute => .ok ([0xff, 0x25, 0, 0, 0, 0] ++ leBytes 8 j.target)

theorem length_bytes {j : Jump} {code : List UInt8} (h : j.bytes = .ok code) :
    code.length = j.size := by
  obtain ⟨source, target, form⟩ := j
  cases form <;> simp only [bytes] at h
  · split at h
    · cases h; simp [leSigned32, size, JumpForm.size]
    · cases h
  · split at h
    · cases h; simp [leSigned32, size, JumpForm.size]
    · cases h
  · cases h; simp [size, JumpForm.size]

end Jump

end Detouring
