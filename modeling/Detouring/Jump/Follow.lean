-- Where the code at an address jumps to, as far as its bytes alone say.
import Detouring.Memory.Basic

namespace Detouring

namespace Memory

/-- The target of the jump at an address: `jmp rel32`, or `jmp [rip + rel32]` if its pointer
cell can be read. Six bytes must be readable. -/
def jumpTarget? (m : Memory) (address : Nat) : Option Nat :=
  match m.read? address 6 with
  | some [0xe9, a, b, c, d, _] =>
    some (wrapWord (address + 5 + signed32 (ofLeBytes [a, b, c, d])))
  | some [0xff, 0x25, a, b, c, d] =>
    (m.read? (wrapWord (address + 6 + signed32 (ofLeBytes [a, b, c, d]))) 8).map ofLeBytes
  | _ => none

/-- The targets of at most `hops` jumps, one leading to the next. -/
def jumpPath (m : Memory) : (hops address : Nat) → List Nat
  | 0, _ => []
  | hops + 1, address =>
    match m.jumpTarget? address with
    | some target => target :: jumpPath m hops target
    | none => []

end Memory

end Detouring
