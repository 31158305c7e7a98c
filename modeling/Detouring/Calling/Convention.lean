-- Calling conventions: the order of the arguments that the user does not write, and how a
-- value of a type travels.
import Detouring.Calling.TypeLayout

namespace Detouring

/-- How a value travels. -/
inductive Passing where
  /-- In one or more registers. -/
  | inRegister
  /-- Behind a pointer; for results, in a buffer of the caller. -/
  | byReference
  /-- Copied onto the stack. -/
  | onStack
deriving DecidableEq

/-- Whether a value is passed to a function or comes back from it. -/
inductive Direction where
  | argument
  | result
deriving DecidableEq

/-- Arguments that the convention places. -/
inductive SpecialArgument where
  | thisPointer
  | returnBuffer
  | genericContext
  /-- The block of the arguments that the user writes. -/
  | userArguments
deriving DecidableEq

/-- How a value travels that has no place in registers. -/
def Direction.inMemory : Direction → Passing
  | .argument => .onStack
  | .result => .byReference

structure Convention where
  order : List SpecialArgument
  /-- Decides about all types but words. -/
  classifier : TypeLayout → Direction → Passing
  /-- Callees hand the return buffer back. -/
  returnsBuffer : Bool

namespace Convention

/-- Nothing, references and pointers are one word and go in a register; the classifier decides
about the rest. -/
def classify (c : Convention) (t : TypeLayout) (d : Direction) : Passing :=
  match t with
  | .void | .reference | .pointer | .byRef => .inRegister
  | t => c.classifier t d

/-- Values above 32 bytes go through memory, and above 16 bytes unless every field is a
floating-point number. -/
def classifySystemV (t : TypeLayout) (d : Direction) : Passing :=
  if 32 < t.size then d.inMemory
  else if 16 < t.size && t.parts.any (fun f => !f.isFloat) then d.inMemory
  else .inRegister

/-- The System V convention for AMD64. -/
def systemV : Convention where
  order := [.returnBuffer, .thisPointer, .userArguments]
  classifier := classifySystemV
  returnsBuffer := true

end Convention

end Detouring
