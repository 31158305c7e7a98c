-- How a platform is tuned.

namespace Detouring

structure Settings where
  /-- The most stubs that are followed on the way to a body. -/
  maxStubSteps : Nat := 20
  /-- Measure the calling convention instead of trusting the declared one. -/
  measureConvention : Bool := false
  /-- Build an alternate entry for every native detour. -/
  alternateEntries : Bool := true
  /-- How often a waiting thread spins before it yields. -/
  spinLimit : Nat := 32
deriving DecidableEq

namespace Settings

/-- As little extra work as possible; code that was replaced cannot be called. -/
def minimal : Settings := { alternateEntries := false }

/-- Trusts nothing that is declared, and yields at once. -/
def strict : Settings := { measureConvention := true, spinLimit := 0 }

end Settings

end Detouring
