-- The stubs that managed runtimes put in front of method bodies on x86-64, as byte patterns.
-- A stub's captured address says where it leads; fixup stubs lead to the compiler instead.
import Detouring.Pattern.Collection

namespace Detouring.Thunk

/-! ## Building blocks -/

/-- Bytes that must stand exactly so. -/
def bytes (values : List UInt8) : List PatternItem := values.map .literal

def anyBytes (count : Nat) : List PatternItem := List.replicate count .any

def addressBytes (count : Nat) : List PatternItem := List.replicate count .address

/-- A byte with the high half of `value`; the low half names a register. -/
def highHalf (value : UInt8) : PatternItem := .masked 0xf0 value

/-- A stub that holds an absolute address of 64 bits. -/
def absolute : AddressRule := ⟨.abs64, 0⟩

/-- A stub that holds a displacement from `anchor` bytes past its start. -/
def displacement (anchor : Nat) : AddressRule := ⟨.rel32, anchor⟩

/-- A stub that jumps through a cell, found by a displacement. -/
def cell (anchor : Nat) : AddressRule := ⟨.indirectRel32, anchor⟩

def fixupCall : AddressRule := ⟨.fixupRel32, 5⟩

/-- A fixup stub that jumps through a cell. -/
def fixupCell (anchor : Nat) : AddressRule :=
  ⟨{ fixup := true, indirect := true }, anchor⟩

def pattern (rule : AddressRule) (anchored : Bool) (items : List PatternItem) : Pattern :=
  { items, segments := Segment.ofItems items, rule, anchored }

/-! ## The stubs -/

/-- `test rcx, rcx; je; mov rax, [rcx]; mov r10, imm64; cmp rax, r10; je; mov rax, target` -/
def remoting : Pattern :=
  pattern absolute true <|
    bytes [0x48, 0x85, 0xc9, 0x74] ++ anyBytes 1 ++ bytes [0x48, 0x8b, 0x01, 0x49]
      ++ anyBytes 9 ++ bytes [0x49, 0x3b, 0xc2, 0x74] ++ anyBytes 1 ++ bytes [0x48, 0xb8]
      ++ addressBytes 8

/-- `jmp target; pop rdi` -/
def jumpPop : Pattern :=
  pattern (displacement 5) true <| bytes [0xe9] ++ addressBytes 4 ++ bytes [0x5f]

/-- `mov rax, target; jmp rax` -/
def loadJump : Pattern :=
  pattern absolute false <| bytes [0x48, 0xb8] ++ addressBytes 8 ++ bytes [0xff, 0xe0]

/-- `mov reg, imm64; dec word [reg]; jne target` -/
def countdownBranch : Pattern :=
  pattern (displacement 19) false <|
    [highHalf 0x40] ++ bytes [0xb8] ++ anyBytes 8 ++ bytes [0x66, 0xff] ++ [highHalf 0x00]
      ++ bytes [0x0f, 0x85] ++ addressBytes 4

/-- `mov reg, imm64; dec word [reg]; jz; mov rax, target; jmp rax` -/
def countdownJump : Pattern :=
  pattern absolute false <|
    [highHalf 0x40] ++ bytes [0xb8] ++ anyBytes 8 ++ bytes [0x66, 0xff] ++ [highHalf 0x00]
      ++ bytes [0x74] ++ anyBytes 1 ++ bytes [0x48, 0xb8] ++ addressBytes 8
      ++ bytes [0xff, 0xe0]

/-- `call fixup; pop rsi` -/
def fixupPop : Pattern :=
  pattern fixupCall true <| bytes [0xe8] ++ addressBytes 4 ++ bytes [0x5e]

/-- `call fixup; int3` -/
def fixupTrap : Pattern :=
  pattern fixupCall true <| bytes [0xe8] ++ addressBytes 4 ++ bytes [0xcc]

/-- `jmp [rip + data]; mov r10, [rip + data]; jmp [rip + data]`, where `high` is the second
byte of the distance to the data page. -/
def precode (high : UInt8) : Pattern :=
  pattern (cell 6) true <|
    bytes [0xff, 0x25] ++ addressBytes 4
      ++ bytes [0x4c, 0x8b, 0x15, 0xfb, high, 0x00, 0x00, 0xff, 0x25, 0xfd, high, 0x00, 0x00]

/-- The stub of `precode` entered past its first jump. -/
def precodeTail (high : UInt8) : Pattern :=
  pattern (fixupCell 13) true <|
    bytes [0x4c, 0x8b, 0x15, 0xfb, high, 0x00, 0x00, 0xff, 0x25] ++ addressBytes 4

/-- `mov rax, [rip + data]; dec word [rax]; je +6; jmp [rip + data]; jmp [rip + data]` -/
def callCounting (high : UInt8) : Pattern :=
  pattern (cell 18) true <|
    bytes [0x48, 0x8b, 0x05, 0xf9, high, 0x00, 0x00, 0x66, 0xff, 0x08, 0x74, 0x06, 0xff, 0x25]
      ++ addressBytes 4 ++ bytes [0xff, 0x25, 0xf8, high, 0x00, 0x00]

/-- All known stubs. The data page of a precode is 0x1000 or 0x4000 bytes away. -/
def stubs : List Pattern :=
  [remoting, jumpPop, loadJump, countdownBranch, countdownJump, fixupPop, fixupTrap,
    precode 0x0f, precodeTail 0x0f, callCounting 0x0f,
    precode 0x3f, precodeTail 0x3f, callCounting 0x3f]

def table : PatternCollection := .ofList stubs

end Detouring.Thunk
