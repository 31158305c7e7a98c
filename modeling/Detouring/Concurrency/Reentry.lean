-- A guard that notices a thread entering what it is already running. Other threads wait.
import Detouring.Concurrency.Waitable

namespace Detouring

structure ReentryGuard where
  /-- The thread inside. -/
  owner : Option ThreadId := none
deriving DecidableEq

namespace ReentryGuard

def isInside (g : ReentryGuard) (t : ThreadId) : Bool := g.owner == some t

/-- Lets a thread in that finds the guard free. -/
def enter (g : ReentryGuard) (t : ThreadId) : ReentryGuard × Attempt Unit :=
  match g.owner with
  | none => ({ owner := some t }, .granted)
  | some u => if u = t then (g, .declined) else (g, .waits ())

def leave (_ : ReentryGuard) : ReentryGuard := {}

instance : Waitable ReentryGuard Unit where
  attempt g t _ := g.enter t
  release g _ _ := g.leave

end ReentryGuard

end Detouring
