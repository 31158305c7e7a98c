-- What happens to detours when the runtime has compiled a method again. A detour of that method
-- moves to the fresh code; a detour that leads there is pointed at it.
import Detouring.Concurrency.Notice
import Detouring.Detour.Naming
import Detouring.Hook.Follow

namespace Detouring

namespace World

/-! ## One detour -/

/-- Tells the watcher of a detour that it followed its source. -/
def tellWatcher (watcher : Watcher) : Op World Unit := do
  match watcher with
  | .nobody => pure ()
  | .onlooker name => tell (.relocated name)
  | .chain key =>
    match ← (relinkTail key).outcome with
    | .ok () => pure ()
    | .error e => report (.chainNotRelinked key.method e)

/-- Moves a detour to fresh code of its source. The earlier code is left as it is, and its
alternate entry is kept for calls that still run there. If the fresh code cannot be redirected,
the detour is no longer applied. -/
def followSource (d : MethodDetour) (r : Redirection) (start size : Nat)
    (relocated : Op World Unit) : Op World Unit := do
  changeMachine r.abandon
  let d := { d with
    applied := false
    redirection := none
    retired := d.retired ++ r.alternate.toList
    coupled := rfl }
  setDetour d
  let p := (← get).platform
  let fresh ← onMachine (Redirection.create p.architecture p.settings start r.target (some size))
  setDetour { d with applied := true, redirection := some fresh, busy := true, coupled := rfl }
  relocated
  updateDetour d.id ({ · with busy := false })

/-- Points a detour at fresh code of its target. -/
def followTarget (d : MethodDetour) (r : Redirection) (start : Nat) : Op World Unit := do
  let r ← onMachine (r.retarget start)
  setDetour { d with applied := true, redirection := some r, coupled := rfl }

/-- Lets an applied detour follow a method to fresh code. One that is busy stays. -/
def follow (relocated : MethodDetour → Op World Unit) (id : Nat) (method : Method)
    (start size : Nat) : Op World Unit :=
  withDetour id fun d =>
    if !d.isApplied || d.busy then pure ()
    else if d.source = method then
      d.redirection.forM fun r => followSource d r start size (relocated d)
    else if d.target = method then d.redirection.forM fun r => followTarget d r start
    else pure ()

/-! ## All detours -/

/-- The detours of a factory that have to do with a method, in the order they were made. -/
def related (w : World) (factory : Nat) (method : Method) : List Nat :=
  (w.detours.filter fun d =>
    d.factory == factory && (d.source = method || d.target = method)).map MethodDetour.id

/-- Lets a detour follow; a failure goes to the log. -/
def followOrReport (method : Method) (start size : Nat) (id : Nat) : Op World Unit := do
  match ← (follow (fun d => tellWatcher d.watcher) id method start size).outcome with
  | .ok () => pure ()
  | .error e => withDetour id fun d => report (.detourNotMoved d.source d.target e)

/-- Lets the detours of a factory follow. -/
def deliverTo (c : CompiledMethod) (factory : Nat) : Op World Unit := do
  if factory ∈ (← get).factories then
    let method ← canonicalize c.method
    ((← get).related factory method).forM (followOrReport method c.start c.size)

/-- Announces fresh code to all who asked to be told. -/
def deliver (c : CompiledMethod) : Op World Unit := do
  (← get).runtime.subscribers.forM (deliverTo c)

end World

end Detouring
