-- Steps that work with blocks of memory and small pieces of code in them.
import Detouring.Scenario.Basic

namespace Detouring

inductive CodeStep where
  | allocate (name : String) (request : BlockRequest) (window : Option Window)
  | free (name : String)
  | write (name : String) (offset : Nat) (data : List UInt8)
  | pages
  /-- Changes how many pages may still be mapped. -/
  | limit (pages : Option Nat)
  | jump (name : String) (source target : Nat) (room : Option Nat)
  | redirectJump (name : String) (target : Nat) (room : Option Nat)
  | alternateEntry (name : String) (entry count : Nat)
  | argumentStub (name : String) (target argument : Nat)
  | stub (name : String) (target : Nat)
  | retargetStub (name : String) (target : Nat)
  /-- Makes a stub of a named block. -/
  | stubOf (name block : String) (code : List UInt8) (cellOffset target : Nat)
  | dropStub (name : String)
  /-- Asks where a captured address leads, for a match `offset` bytes past `base`. -/
  | target (rule : Except Fault AddressRule) (base offset captured : Nat)

namespace Scenario

/-! ## Blocks -/

/-- A block with its first bytes, if they can be read. -/
def blockAnswer (b : Block) : Op Scenario Answer := do
  return .block b ((← get).memory.read? b.base (min b.size 128))

/-- Keeps a new block; the block that had the name is freed. -/
def keepBlock (name : String) (make : Op Machine Block) : Op Scenario Answer := do
  let b ← onMachine make
  let old := (← get).blocks.get? name
  Op.change fun s => { s with blocks := s.blocks.put name b }
  let answer ← blockAnswer b
  changeMachine (·.freeAll old.toList)
  return answer

def freeBlock (name : String) : Op Scenario Answer := do
  let b := (← get).blocks.get? name
  Op.change fun s => { s with blocks := s.blocks.erase name }
  changeMachine (·.freeAll b.toList)
  return .freed b.isSome

/-- The pages that the arena holds, and where they are. -/
def pagesAnswer (s : Scenario) : Answer :=
  if s.hidesPages then .pages 0 []
  else .pages s.machine.arena.pageCount (s.machine.arena.pages.map ArenaPage.base)

def setLimit (pages : Option Nat) (m : Machine) : Machine :=
  { m with arena := { m.arena with source := { m.arena.source with limit := pages } } }

/-! ## Jumps -/

/-- A jump with its bytes; its cell is filled. -/
def viewJump (j : Jump) : Op Scenario JumpView := do
  let bytes ← (onMachine (Machine.encode j)).outcome
  let m := (← get).memory
  return ⟨j, bytes, j.cell?.bind fun c => m.read? c.base 8⟩

/-- Keeps a jump; the jump that had the name gives its cell back. -/
def keepJump (name : String) (source target : Nat) (room : Option Nat) :
    Op Scenario Answer := do
  let j ← onMachine (Jump.choose source target room)
  let old := (← get).jumps.get? name
  Op.change fun s => { s with jumps := s.jumps.put name j }
  let view ← viewJump j
  old.forM fun old => changeMachine (·.freeCell old)
  return .jump view

/-- Points a kept jump elsewhere. -/
def redirectNamedJump (name : String) (target : Nat) (room : Option Nat) : Op Scenario Answer :=
  withNamed jumps name fun old => do
    let set (j : Jump) := Op.change fun s : Scenario => { s with jumps := s.jumps.put name j }
    match ← onMachine (old.redirect target room) with
    | .inPlace j =>
      set j
      return .redirected (← viewJump j) true
    | .overwritten j =>
      set j
      changeMachine (·.freeCell old)
      return .redirected (← viewJump j) false

/-! ## Stubs -/

def stubAnswer (s : Stub) : Op Scenario Answer := do
  let m := (← get).machine
  return .stub s (s.target m) (m.memory.read? s.entry 16)

def keepStub (name : String) (make : Op Machine Stub) : Op Scenario Answer := do
  let stub ← onMachine make
  let old := (← get).stubs.get? name
  Op.change fun s => { s with stubs := s.stubs.put name stub }
  let answer ← stubAnswer stub
  changeMachine (·.freeAll (old.map Stub.block).toList)
  return answer

def dropNamedStub (name : String) : Op Scenario Answer := do
  let stub := (← get).stubs.get? name
  Op.change fun s => { s with stubs := s.stubs.erase name }
  changeMachine (·.freeAll (stub.map Stub.block).toList)
  return .dropped stub.isSome

/-! ## Steps -/

def runCodeStep : CodeStep → Op Scenario Answer
  | .allocate name request none => keepBlock name (Machine.allocate request)
  | .allocate name request (some w) => keepBlock name (Machine.allocateNear w request)
  | .free name => freeBlock name
  | .write name offset data =>
    withNamed blocks name fun b => do
      onMachine (Machine.writeBlock b offset data)
      blockAnswer b
  | .pages => return pagesAnswer (← get)
  | .limit pages => do
    if !(← get).hidesPages then changeMachine (setLimit pages)
    return .done
  | .jump name source target room => keepJump name source target room
  | .redirectJump name target room => redirectNamedJump name target room
  | .alternateEntry name entry count => do
    let a := (← get).world.platform.architecture
    keepBlock name (a.alternateEntry entry count)
  | .argumentStub name target argument => keepBlock name (ArgumentStub.build target argument)
  | .stub name target => keepStub name (Stub.build target)
  | .retargetStub name target =>
    withNamed stubs name fun stub => do
      changeMachine (stub.retarget target)
      stubAnswer stub
  | .stubOf name block code cellOffset target =>
    withNamed blocks block fun b => do
      Op.change fun s => { s with blocks := s.blocks.erase block }
      keepStub name (Stub.ofBlock b code cellOffset target)
  | .dropStub name => dropNamedStub name
  | .target rule base offset captured => do
    let rule ← rule
    let found : Thunk.FoundStub := { rule, offset, captured }
    return .targets (rule.target base offset captured) (found.next (← get).memory base)

end Scenario

end Detouring
