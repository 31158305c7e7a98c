-- Steps that redirect code at given addresses.
import Detouring.Scenario.Basic

namespace Detouring

inductive PatchStep where
  /-- Writes a jump, without an alternate entry. -/
  | patch (name : String) (source target : Nat) (room : Option Nat)
  /-- Redirects code, with an alternate entry if the platform asks for it. -/
  | redirect (name : String) (source target : Nat) (room : Option Nat)
  | retarget (name : String) (target : Nat)
  | undo (name : String)
  | state (name : String)
  | drop (name : String)

namespace Scenario

/-! ## Answers -/

def viewPatch (m : Memory) (patch : JumpPatch) (redirection : Option Redirection) : PatchView :=
  ⟨patch, m.read? patch.jump.source 16, redirection⟩

def patchAnswer (p : JumpPatch) (failure : Option Fault) : Op Scenario Answer := do
  return .patch (viewPatch (← get).memory p none) failure

def redirectionAnswer (r : Redirection) (failure : Option Fault) : Op Scenario Answer := do
  return .patch (viewPatch (← get).memory r.patch (some r)) failure

/-! ## Making -/

/-- Keeps a patch; the patch that had the name is dropped. -/
def keepPatch (name : String) (source target : Nat) (room : Option Nat) :
    Op Scenario Answer := do
  let p ← onMachine (JumpPatch.apply source target room)
  let old := (← get).patches.get? name
  Op.change fun s => { s with patches := s.patches.put name p }
  let answer ← patchAnswer p none
  old.forM fun old => changeMachine old.drop
  return answer

/-- Keeps a redirection; the one that had the name is dropped. -/
def keepRedirection (name : String) (source target : Nat) (room : Option Nat) :
    Op Scenario Answer := do
  let p := (← get).world.platform
  let r ← onMachine (Redirection.create p.architecture p.settings source target room)
  let old := (← get).redirections.get? name
  Op.change fun s => { s with redirections := s.redirections.put name r }
  let answer ← redirectionAnswer r none
  old.forM fun old => changeMachine old.drop
  return answer

/-! ## Changing -/

/-- Changes a thing, and gives it with the failure if there was one. -/
def attempt {α : Type} (x : α) (act : Op Machine α) : Op Scenario (α × Option Fault) := do
  match ← (onMachine act).outcome with
  | .ok x => return (x, none)
  | .error e => return (x, some e)

/-- Changes the patch or the redirection under a name. -/
def changeNamed (name : String) (onPatch : JumpPatch → Op Machine JumpPatch)
    (onRedirection : Redirection → Op Machine Redirection) : Op Scenario Answer := do
  match (← get).patches.get? name with
  | some p =>
    let (p, failure) ← attempt p (onPatch p)
    Op.change fun s => { s with patches := s.patches.put name p }
    patchAnswer p failure
  | none =>
    withNamed redirections name fun r => do
      let (r, failure) ← attempt r (onRedirection r)
      Op.change fun s => { s with redirections := s.redirections.put name r }
      redirectionAnswer r failure

/-- Drops the patch, the redirection or the jump under a name. -/
def dropNamed (name : String) : Op Scenario Answer := do
  let s ← get
  match s.patches.get? name, s.redirections.get? name, s.jumps.get? name with
  | some p, _, _ =>
    set { s with patches := s.patches.erase name }
    changeMachine p.drop
    return .dropped true
  | none, some r, _ =>
    set { s with redirections := s.redirections.erase name }
    changeMachine r.drop
    return .dropped true
  | none, none, some j =>
    set { s with jumps := s.jumps.erase name }
    changeMachine (·.freeCell j)
    return .dropped true
  | none, none, none => return .dropped false

def runPatchStep : PatchStep → Op Scenario Answer
  | .patch name source target room => keepPatch name source target room
  | .redirect name source target room => withPlatform (keepRedirection name source target room)
  | .retarget name target => changeNamed name (·.retarget target none) (·.retarget target)
  | .undo name => changeNamed name JumpPatch.undo Redirection.undo
  | .state name => changeNamed name pure pure
  | .drop name => dropNamed name

end Scenario

end Detouring
