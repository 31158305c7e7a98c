-- Methods as the runtime knows them: the name with identity, and methods that must stay in
-- place or must not be inlined.
import Detouring.World

namespace Detouring

namespace World

/-- `true` if the runtime asks for something. -/
def asks (w : World) (flag : FlagSet) : Bool := w.platform.runtimeFlags.has flag

/-- The name of a method that has identity. -/
def canonicalize (m : Method) : Op World Method := do
  let w ← get
  if w.asks RuntimeFlag.identification && w.runtime.support = .full then tell (.identified m)
  return if w.asks RuntimeFlag.identification then w.runtime.identify m else m.canonical

/-- Keeps a method in place. -/
def pin (m : Method) : Op World Unit := do
  let r := (← get).runtime
  if r.support ≠ .full then throw (.unsupported .pinning)
  else if (r.lookup? m).any ManagedMethod.refusesPin then throw (.state (.notPinnable m))
  else tell (.pinned m)

/-- Keeps a method in place if the runtime asks for it. Gives the methods to be let go. -/
def pinIfNeeded (m : Method) : Op World (List Method) := do
  if (← get).asks RuntimeFlag.pinning then
    pin m
    return [m]
  else return []

/-- Lets methods go. -/
def unpin (ms : List Method) (w : World) : World :=
  { w with events := w.events ++ ms.map Event.unpinned }

/-- Keeps the runtime from inlining a method, if that can be asked. -/
def disableInlining (m : Method) : Op World Bool := do
  let w ← get
  if !w.asks RuntimeFlag.inliningControl then return false
  else if w.runtime.support ≠ .full then throw (.unsupported .inliningControl)
  else
    tell (.inliningDisabled m)
    if w.runtime.refusesInliningControl then throw (.state (.notInlinable m))
    else return true

end World

end Detouring
