-- What is written to the log: events that nobody waits for, and failures that have no caller
-- to go to.
import Detouring.Fault

namespace Detouring

inductive Report where
  /-- A wish of a hook about a peer lost against another. -/
  | conflictingOrder (id peer : String)
  /-- No jump fits, so the longest is used. -/
  | noJumpFits (room source : Nat)
  | noAlternateEntry (source target : Nat)
  | droppedWhileApplied (source : Nat)
  | jumpNotUndone (source : Nat) (cause : Fault)
  | detourNotUndone (source target : Method) (cause : Fault)
  | detourNotMoved (source target : Method) (cause : Fault)
  | chainNotRelinked (source : Method) (cause : Fault)
  | chainNotRestored (source : Method) (cause : Fault)
  | hookNotUndone (hook : Nat) (source : Method) (cause : Fault)
  | pageNotReleased (page : Nat) (cause : Fault)
deriving DecidableEq

namespace Report

/-- `true` for a failure, `false` for a warning. -/
def isError : Report → Bool
  | conflictingOrder _ _ | noJumpFits _ _ | noAlternateEntry _ _ | droppedWhileApplied _ => false
  | _ => true

def text : Report → String
  | conflictingOrder id peer =>
    s!"Detour '{id}' is marked as being both before and after '{peer}'"
  | noJumpFits room source =>
    s!"No detour encoding fits in {room} bytes at {hexText source}; using Abs64"
  | noAlternateEntry source target =>
    s!"Cannot create an alternate entry point for {hexText source} -> {hexText target}"
  | droppedWhileApplied source =>
    s!"Detour at {hexText source} dropped while applied; undoing"
  | jumpNotUndone source e => s!"Failed to undo detour at {hexText source}: {e.message}"
  | detourNotUndone source target e =>
    s!"Failed to undo detour {source.text} -> {target.text}: {e.message}"
  | detourNotMoved source target e =>
    s!"Failed to move detour {source.text} -> {target.text} to recompiled code: {e.message}"
  | chainNotRelinked source e =>
    s!"Failed to relink {source.text} after recompilation: {e.message}"
  | chainNotRestored source e =>
    s!"Failed to restore the hook chain of {source.text}: {e.message}"
  | hookNotUndone hook source e =>
    s!"Failed to undo hook {hook} on {source.text}: {e.message}"
  | pageNotReleased page e => s!"Could not deallocate page {hexText page}: {e.message}"

/-- The line of the log. -/
def line (r : Report) : String := (if r.isError then "ERROR: " else "WARN: ") ++ r.text

end Report

end Detouring
