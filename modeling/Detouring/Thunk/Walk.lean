-- The walk from the entry point of a method to its body. Each stub on the way names the next
-- address; a stub that stands for code not yet compiled has the method compiled, once.
import Detouring.Memory.MapLine
import Detouring.Operation
import Detouring.Thunk.Table

namespace Detouring

namespace Thunk

/-- What the walk needs to know about a method, and where its memory is. -/
structure BodySource (σ : Type) where
  method : Method
  entryPoint : Op σ Nat
  compile : Op σ Unit
  memory : σ → Memory

/-- A stub that was found near an address. -/
structure FoundStub where
  rule : AddressRule
  offset : Nat
  captured : Nat

/-- Where a stub found near `address` leads. An indirect form names the cell of the target. -/
def FoundStub.next (s : FoundStub) (m : Memory) (address : Nat) : Nat :=
  let target := s.rule.target address s.offset s.captured
  if s.rule.form.indirect then m.word target else target

/-- How many bytes at an entry are looked at. -/
def windowLength : Nat := table.maxMinLength

theorem windowLength_eq : windowLength = 33 := by decide

/-- The readable bytes that are looked at. -/
def window (m : Memory) (regions : List Region) (address : Nat) : List UInt8 :=
  m.peek address (min (Region.readableLength regions address windowLength) windowLength)

/-- The stub at an address, if there is one. -/
def stubAt? (m : Memory) (regions : List Region) (address : Nat) : Option FoundStub :=
  (table.find? (window m regions address)).map fun hit =>
    ⟨hit.entry.pattern.rule, hit.found.offset, hit.found.captured⟩

/-- Where a walk is. -/
structure Position where
  entry : Nat
  /-- The entry before. A stub that leads to itself ends the walk. -/
  previous : Option Nat := none
  /-- The method was compiled on the way. -/
  compiled : Bool := false
  /-- The memory map when it was last read. -/
  regions : List Region

variable {σ : Type}

/-- Walks at most `steps` stubs, of `limit` that are allowed in all. -/
def walkFrom (b : BodySource σ) (limit : Nat) : (steps : Nat) → Position → Op σ Nat
  | 0, _ => throw (.bodyNotFound (.unsettled b.method limit))
  | steps + 1, p =>
    if p.previous = some p.entry then pure p.entry
    else do
      let m := b.memory (← get)
      match stubAt? m p.regions p.entry with
      | none => return p.entry
      | some stub =>
        if !stub.rule.form.fixup then
          walkFrom b limit steps { p with entry := stub.next m p.entry, previous := some p.entry }
        else if p.compiled then throw (.bodyNotFound (.stillStub b.method p.entry))
        else
          b.compile
          let regions := (b.memory (← get)).mapRegions
          let entry ← b.entryPoint
          walkFrom b limit steps { entry, compiled := true, regions }

/-- The body of a method, at most `limit` stubs away. -/
def walk (b : BodySource σ) (limit : Nat) : Op σ Nat := do
  let entry ← b.entryPoint
  walkFrom b limit limit { entry, regions := (b.memory (← get)).mapRegions }

end Thunk

end Detouring
