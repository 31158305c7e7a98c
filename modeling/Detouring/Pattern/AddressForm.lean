-- The forms of an address that a byte pattern captures: absolute or a displacement, 32 or
-- 64 bits wide, behind a pointer cell or not, and whether the stub waits for compilation.
import Detouring.Word

namespace Detouring

/-- The form of a captured address. Without any flag it is a displacement of 32 bits. -/
structure AddressForm where
  absolute : Bool := false
  wide : Bool := false
  fixup : Bool := false
  indirect : Bool := false
deriving DecidableEq

namespace AddressForm

def rel32 : AddressForm := {}

def abs64 : AddressForm := { absolute := true, wide := true }

/-- A displacement of 32 bits in a stub that leads to the compiler. -/
def fixupRel32 : AddressForm := { fixup := true }

/-- A displacement of 32 bits to the cell that holds the target. -/
def indirectRel32 : AddressForm := { indirect := true }

/-- The four flags as one number, the first the lowest bit. -/
def bits (f : AddressForm) : Nat :=
  f.absolute.toNat + 2 * f.wide.toNat + 4 * f.fixup.toNat + 8 * f.indirect.toNat

/-- Reads the flags back from a number; only four bits have a meaning. -/
def ofBits? (raw : Nat) : Option AddressForm :=
  if raw < 16 then
    some {
      absolute := raw.testBit 0
      wide := raw.testBit 1
      fixup := raw.testBit 2
      indirect := raw.testBit 3 }
  else none

theorem ofBits?_bits (f : AddressForm) : ofBits? f.bits = some f := by
  rcases f with ⟨a, w, p, i⟩
  cases a <;> cases w <;> cases p <;> cases i <;> rfl

/-- The name of a form, such as `Rel32` or `PrecodeFixupThunkAbs64`. -/
def text (f : AddressForm) : String :=
  (if f.fixup then "PrecodeFixupThunk" else "")
    ++ (if f.absolute then "Abs" else "Rel")
    ++ (if f.wide then "64" else "32")
    ++ (if f.indirect then "Indirect" else "")

end AddressForm

end Detouring
