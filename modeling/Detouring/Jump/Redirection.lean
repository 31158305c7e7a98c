-- Redirections of code: a jump that is written over code, and an alternate entry that still
-- runs that code. The alternate entry is built first, while the code is as it was.
import Detouring.Jump.Patch
import Detouring.Platform.Feature
import Detouring.Platform.Settings
import Detouring.Relocation.AlternateEntry

namespace Detouring

/-! ## Architectures -/

/-- What is known of the architecture. -/
structure Architecture where
  flags : FlagSet := ArchitectureFlag.x86_64
  /-- It moves instructions when asked, whatever the flags say. -/
  movesCode : Bool := true

namespace Architecture

/-- Builds an alternate entry for the code at `entry` without its first `count` bytes. -/
def alternateEntry (a : Architecture) (entry count : Nat) : Op Machine Block :=
  if a.movesCode then AlternateEntry.build entry count
  else throw (.unsupported .alternateEntries)

end Architecture

/-! ## Plans -/

/-- A redirection before its jump is written. -/
structure RedirectionPlan where
  jump : Jump
  alternate : Option Block

namespace RedirectionPlan

/-- The alternate entry that the settings ask for. It costs a warning if there cannot be one. -/
def alternateFor (a : Architecture) (settings : Settings) (j : Jump) :
    Op Machine (Option Block) :=
  if !settings.alternateEntries then pure none
  else if a.flags.has ArchitectureFlag.alternateEntries then
    some <$> a.alternateEntry j.source j.size
  else do
    Op.change (·.report (.noAlternateEntry j.source j.target))
    return none

/-- Plans to redirect the code at `source`, of which `room` bytes may be overwritten. -/
def make (a : Architecture) (settings : Settings) (source target : Nat) (room : Option Nat) :
    Op Machine RedirectionPlan := do
  let jump ← Jump.choose source target room
  let alternate ← (alternateFor a settings jump).cleaning (·.freeCell jump)
  return { jump, alternate }

/-- Where the code can still be entered. -/
def entry? (p : RedirectionPlan) : Option Nat := p.alternate.map Block.base

def discard (p : RedirectionPlan) (m : Machine) : Machine :=
  (m.freeAll p.alternate.toList).freeCell p.jump

end RedirectionPlan

/-! ## Redirections -/

structure Redirection where
  patch : JumpPatch
  alternate : Option Block

namespace Redirection

def source (r : Redirection) : Nat := r.patch.jump.source

def target (r : Redirection) : Nat := r.patch.jump.target

/-- Where the redirected code can still be entered. -/
def entry? (r : Redirection) : Option Nat := r.alternate.map Block.base

/-- Carries a plan out. -/
def ofPlan (p : RedirectionPlan) : Op Machine Redirection :=
  Op.cleaning (·.freeAll p.alternate.toList) do
    return { patch := ← JumpPatch.write p.jump, alternate := p.alternate }

/-- Redirects the code at `source`. -/
def create (a : Architecture) (settings : Settings) (source target : Nat)
    (room : Option Nat) : Op Machine Redirection := do
  ofPlan (← RedirectionPlan.make a settings source target room)

/-- Points the redirection at another target. An alternate entry runs only the bytes that were
overwritten at first, so the jump must not grow over more. -/
def retarget (r : Redirection) (target : Nat) : Op Machine Redirection := do
  let limit := r.alternate.map fun _ => r.patch.backup.length
  return { r with patch := ← r.patch.retarget target limit }

/-- Writes the code back. The alternate entry stays until the redirection is dropped. -/
def undo (r : Redirection) : Op Machine Redirection := do
  return { r with patch := ← r.patch.undo }

/-- Gives up the jump as it is. The alternate entry is left to the caller. -/
def abandon (r : Redirection) (m : Machine) : Machine := r.patch.abandon m

def drop (r : Redirection) (m : Machine) : Machine := (r.patch.drop m).freeAll r.alternate.toList

end Redirection

end Detouring
