-- A jump that is written over code, with the bytes that it replaced. Undoing it writes them
-- back; a longer jump first saves the bytes that it covers in addition.
import Detouring.Jump.Choice

namespace Detouring

structure JumpPatch where
  jump : Jump
  /-- The code under the jump. -/
  backup : List UInt8
  applied : Bool := true

namespace JumpPatch

/-- Writes a jump over code. If that fails, its pointer cell is given back. -/
def write (j : Jump) : Op Machine JumpPatch :=
  Op.cleaning (·.freeCell j) do
    let bytes ← Machine.encode j
    return { jump := j, backup := ← Machine.patchCode j.source bytes bytes.length }

/-- Writes the best jump over the code at `source`. -/
def apply (source target : Nat) (room : Option Nat) : Op Machine JumpPatch := do
  write (← Jump.choose source target room)

/-- Writes another jump over the present one, unless it is longer than the limit. -/
def overwrite (p : JumpPatch) (j : Jump) (limit : Option Nat) : Op Machine JumpPatch :=
  Op.cleaning (·.freeCell j) do
    if !Jump.fits limit j.size then throw (.state (.patchTooLarge j.source j.size))
    else
      let bytes ← Machine.encode j
      let covered ← Machine.patchCode j.source bytes bytes.length
      return { p with jump := j, backup := p.backup ++ covered.drop p.backup.length }

/-- Points the patch at another target. -/
def retarget (p : JumpPatch) (target : Nat) (limit : Option Nat) : Op Machine JumpPatch :=
  if p.applied then do
    match ← p.jump.redirect target limit with
    | .inPlace jump => return { p with jump }
    | .overwritten jump => p.overwrite jump limit
  else throw (.disposed .jumpPatch)

/-- Writes the replaced bytes back. -/
def undo (p : JumpPatch) : Op Machine JumpPatch :=
  if p.applied then do
    let _ ← Machine.patchCode p.jump.source p.backup 0
    return { p with applied := false }
  else throw (.disposed .jumpPatch)

/-- Gives up the patch; the code stays as it is. -/
def abandon (p : JumpPatch) (m : Machine) : Machine := m.freeCell p.jump

/-- Gives up the patch. One that is still applied is undone, which is worth a warning. -/
def drop (p : JumpPatch) (m : Machine) : Machine :=
  if p.applied then
    match p.undo.on (m.report (.droppedWhileApplied p.jump.source)) with
    | (.ok _, m) => m.freeCell p.jump
    | (.error e, m) => (m.report (.jumpNotUndone p.jump.source e)).freeCell p.jump
  else m.freeCell p.jump

end JumpPatch

end Detouring
