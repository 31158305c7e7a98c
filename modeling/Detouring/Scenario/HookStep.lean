-- Steps that add hooks to methods and take them away.
import Detouring.Jump.Follow
import Detouring.Scenario.Basic

namespace Detouring

inductive HookStep where
  /-- Takes a new manager in hand. -/
  | manager
  | hook (name : String) (source : Method) (target : Nat) (placement : Option Placement)
  | undo (name : String)
  | state (name : String)
  | drop (name : String)
  | chain (m : Method)
  /-- Opens a call through the chain of a hook. -/
  | enter (name call : String)
  | leave (call : String)

namespace Scenario

/-- The hook under a name. -/
def hook? (s : Scenario) (name : String) : Option Hook :=
  (s.hooks.get? name).bind fun (manager, id) => s.world.hook? manager id

def withHook (name : String) (act : Hook → Op Scenario Answer) : Op Scenario Answer := do
  match (← get).hook? name with
  | some h => act h
  | none => return .missing

/-- Goes on with the manager in hand, if there is one. -/
def withManager (act : Nat → Op Scenario Answer) : Op Scenario Answer := do
  match (← get).world.manager with
  | some manager => act manager
  | none => return .missing

def viewHook (s : Scenario) (h : Hook) : HookView :=
  ⟨h, s.memory.jumpTarget? h.node.trampoline.entry⟩

/-- Keeps a hook; the one that had the name is dropped. -/
def keepHook (name : String) (manager : Nat) (source : Method) (target : Nat)
    (placement : Option Placement) : Op Scenario Answer := do
  let h ← onWorld (World.addHook manager source target placement)
  let old := (← get).hook? name
  Op.change fun s => { s with hooks := s.hooks.put name (h.chain.manager, h.node.id) }
  let view := (← get).viewHook h
  old.forM fun old => onWorld (World.dropHook old)
  return .hook view none

/-- Takes a hook out of its chain, and gives its state with the failure if there was one. -/
def undoNamedHook (name : String) : Op Scenario Answer :=
  withHook name fun h => do
    let outcome ← (onWorld (World.undoHook h)).outcome
    let failure := match outcome with
      | .ok () => none
      | .error e => some e
    withHook name fun h => do return .hook ((← get).viewHook h) failure

def dropNamedHook (name : String) : Op Scenario Answer := do
  let h := (← get).hook? name
  Op.change fun s => { s with hooks := s.hooks.erase name }
  h.forM fun h => onWorld (World.dropHook h)
  return .dropped h.isSome

def leaveCall (call : String) : Op Scenario Answer := do
  let there := (← get).calls.contains call
  Op.change fun s => { s with calls := s.calls.filter (· != call) }
  return .dropped there

def runHookStep : HookStep → Op Scenario Answer
  | .manager => withPlatform do
    onWorld World.newManager
    return .done
  | .hook name source target placement =>
    withManager fun manager => keepHook name manager source target placement
  | .undo name => undoNamedHook name
  | .state name => withHook name fun h => do return .hook ((← get).viewHook h) none
  | .drop name => dropNamedHook name
  | .chain m => withManager fun manager => do
    return .chain (← onWorld (World.viewChain manager m))
  | .enter name call => withHook name fun _ => do
    Op.change fun s => { s with calls := call :: s.calls }
    return .done
  | .leave call => leaveCall call

end Scenario

end Detouring
