-- Scenarios: a world, and the things that a script made in it, kept under names. A name that is
-- used again first gets the new thing; the old one is dropped after the answer was given.
import Detouring.Hook.Manager
import Detouring.Named

namespace Detouring

structure Scenario where
  world : World
  /-- There is a platform, so methods can be resolved and detoured. -/
  hasPlatform : Bool
  /-- The pages of the arena are neither limited nor counted. -/
  hidesPages : Bool := false
  /-- Memory maps that were read at some time. -/
  maps : Named (List Region) := []
  blocks : Named Block := []
  jumps : Named Jump := []
  stubs : Named Stub := []
  patches : Named JumpPatch := []
  redirections : Named Redirection := []
  pins : Named Method := []
  /-- The factory of the detours, once there is one. -/
  factory : Option Nat := none
  /-- Detours by number. -/
  detours : Named Nat := []
  /-- Hooks by manager and number. -/
  hooks : Named (Nat × Nat) := []
  /-- Calls that are inside a chain. -/
  calls : List String := []

/-! ## Answers -/

/-- A jump that was worked out, with its bytes and, if it can be read, its pointer cell. -/
structure JumpView where
  jump : Jump
  bytes : Except Fault (List UInt8)
  cell : Option (List UInt8)

/-- A patch, with sixteen bytes of the code it is in if they can be read. -/
structure PatchView where
  patch : JumpPatch
  code : Option (List UInt8)
  /-- The redirection that the patch belongs to. -/
  redirection : Option Redirection

/-- A hook, with the address that its trampoline leads to. -/
structure HookView where
  hook : Hook
  next : Option Nat

inductive Answer where
  /-- There is nothing under that name. -/
  | missing
  | failed (cause : Fault)
  | done
  | dropped (wasThere : Bool)
  | freed (wasThere : Bool)
  | bytes (read : Option (List UInt8))
  | path (targets : List Nat)
  | region (found : Option Region)
  | length (readable : Nat)
  | backup (kept : Option (List UInt8)) (kind : PatchKind)
  | modules (found : List Module)
  | block (b : Block) (content : Option (List UInt8))
  | pages (held : Nat) (mapped : List Nat)
  | jump (v : JumpView)
  | redirected (v : JumpView) (inPlace : Bool)
  | stub (s : Stub) (target : Nat) (content : Option (List UInt8))
  | targets (cell target : Nat)
  | patch (v : PatchView) (failure : Option Fault)
  | entry (address : Nat)
  | name (m : Method)
  | pinned (wasAsked : Bool)
  | inlining (disabled : Bool)
  | passing (argument result : Passing)
  | subscribers (count : Nat)
  | detour (d : MethodDetour)
  | hook (v : HookView) (failure : Option Fault)
  | chain (v : World.ChainView)

namespace Scenario

variable {α : Type}

/-! ## Parts -/

def machine (s : Scenario) : Machine := s.world.machine

def memory (s : Scenario) : Memory := s.world.machine.memory

/-- The operation that works on the world alone. -/
def onWorld (act : Op World α) : Op Scenario α :=
  act.within world fun s world => { s with world }

def onMachine (act : Op Machine α) : Op Scenario α := onWorld (World.onMachine act)

def changeMachine (f : Machine → Machine) : Op Scenario Unit := onMachine (Op.change f)

/-- Goes on with the thing under a name, if there is one. -/
def withNamed (part : Scenario → Named α) (name : String) (act : α → Op Scenario Answer) :
    Op Scenario Answer := do
  match (part (← get)).get? name with
  | some x => act x
  | none => return .missing

/-- Goes on if there is a platform. -/
def withPlatform (act : Op Scenario Answer) : Op Scenario Answer := do
  if (← get).hasPlatform then act else return .missing

end Scenario

end Detouring
