-- Steps that deal with methods: what the platform says about them, what the runtime does to
-- them, and detours between them.
import Detouring.Scenario.Basic

namespace Detouring

inductive MethodStep where
  | resolve (m : Method)
  | compile (m : Method)
  | canonicalize (m : Method)
  | pin (name : String) (m : Method)
  | unpin (name : String)
  | disableInlining (m : Method)
  | classify (t : TypeLayout)
  | setMethod (m : ManagedMethod)
  /-- The runtime compiles a method of its own accord. -/
  | recompile (token : Nat) (outcome : Compilation)
  | subscribers
  | detour (name : String) (source target : Method) (apply : Bool)
  /-- Applies a detour, and stops before its jump is written if `fail` says why. -/
  | apply (name : String) (fail : Option String)
  /-- Applies a detour without being told before its jump is written. -/
  | applyPlain (name : String)
  | undo (name : String)
  | state (name : String)
  | watch (name : String)
  | drop (name : String)

namespace Scenario

/-! ## Detours -/

/-- The factory of the detours; the first use makes it. -/
def ensureFactory : Op Scenario Nat := do
  match (← get).factory with
  | some f => return f
  | none =>
    let f ← onWorld World.newFactory
    Op.change fun s => { s with factory := some f }
    return f

def detourAnswer (id : Nat) : Op Scenario Answer := do
  match (← get).world.detour? id with
  | some d => return .detour d
  | none => return .missing

/-- Keeps a detour; the one that had the name is dropped. -/
def keepDetour (name : String) (source target : Method) (apply : Bool) : Op Scenario Answer := do
  let factory ← ensureFactory
  let id ← onWorld (World.createDetour factory source target apply)
  let old := (← get).detours.get? name
  Op.change fun s => { s with detours := s.detours.put name id }
  let answer ← detourAnswer id
  old.forM fun old => onWorld (World.dropDetour old)
  return answer

/-- Works on a detour and gives its state. -/
def changeDetour (name : String) (act : Nat → Op World Unit) : Op Scenario Answer :=
  withNamed detours name fun id => do
    onWorld (act id)
    detourAnswer id

/-- Records the alternate entry, then fails if there is something to fail with. -/
def recordEntry (fail : Option String) (entry : Option Nat) : Op World Unit := do
  World.tell (.beforePatch entry)
  match fail with
  | some text => throw (.state (.reported text))
  | none => pure ()

def dropNamedDetour (name : String) : Op Scenario Answer := do
  let id := (← get).detours.get? name
  Op.change fun s => { s with detours := s.detours.erase name }
  id.forM fun id => onWorld (World.dropDetour id)
  return .dropped id.isSome

/-! ## Pins -/

/-- Keeps a method in place under a name; the one that had the name is let go. -/
def keepPin (name : String) (m : Method) : Op Scenario Answer := do
  let asked ← onWorld (World.pinIfNeeded m)
  match asked with
  | [] => return .pinned false
  | m :: _ =>
    let old := (← get).pins.get? name
    Op.change fun s => { s with pins := s.pins.put name m }
    onWorld (Op.change (World.unpin old.toList))
    return .pinned true

def dropPin (name : String) : Op Scenario Answer := do
  let m := (← get).pins.get? name
  Op.change fun s => { s with pins := s.pins.erase name }
  onWorld (Op.change (World.unpin m.toList))
  return .dropped m.isSome

/-! ## Steps -/

def runMethodStep : MethodStep → Op Scenario Answer
  | .resolve m => withPlatform do return .entry (← onWorld (World.resolve m))
  | .compile m => withPlatform do
    onWorld (World.compile m)
    return .done
  | .canonicalize m => withPlatform do return .name (← onWorld (World.canonicalize m))
  | .pin name m => withPlatform (keepPin name m)
  | .unpin name => dropPin name
  | .disableInlining m => withPlatform do
    return .inlining (← onWorld (World.disableInlining m))
  | .classify t => withPlatform do
    let c := (← get).world.platform.convention
    return .passing (c.classify t .argument) (c.classify t .result)
  | .setMethod m => do
    onWorld (Op.change fun w => { w with runtime := w.runtime.setMethod m })
    return .done
  | .recompile token outcome => do
    onWorld (World.runCompilation token outcome)
    return .done
  | .subscribers => return .subscribers (← get).world.runtime.subscribers.length
  | .detour name source target apply => withPlatform (keepDetour name source target apply)
  | .apply name fail => changeDetour name (World.applyDetour · (recordEntry fail))
  | .applyPlain name => changeDetour name (World.applyDetour · fun _ => pure ())
  | .undo name => changeDetour name World.undoDetour
  | .state name => changeDetour name fun _ => pure ()
  | .watch name =>
    withNamed detours name fun id => do
      onWorld (World.watch id (.onlooker name))
      return .done
  | .drop name => dropNamedDetour name

end Scenario

end Detouring
