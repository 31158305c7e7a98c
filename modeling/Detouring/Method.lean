-- Methods are named without saying where their code is. One method can carry several names,
-- because an owner may wrap it; the canonical name is the innermost one.
import Detouring.Word

namespace Detouring

/-- The name of a method. -/
inductive Method where
  /-- A function with its code at a fixed address. -/
  | function (address : Nat)
  /-- A method that its runtime knows by a number. -/
  | token (token : Nat)
  /-- A method inside an owner object. -/
  | wrapped (owner : Nat) (method : Method)
deriving DecidableEq

namespace Method

/-- The innermost method. -/
def canonical : Method → Method
  | wrapped _ m => m.canonical
  | m => m

/-- The address of the code, for a name that carries one. -/
def address? (m : Method) : Option Nat :=
  match m.canonical with
  | function a => some a
  | _ => none

def text : Method → String
  | function a => s!"fn@{hexText a}"
  | token t => s!"method#{hexText t}"
  | wrapped owner m => s!"{text m} (owner {hexText owner})"

@[simp] theorem canonical_wrapped (owner : Nat) (m : Method) :
    (wrapped owner m).canonical = m.canonical := rfl

theorem canonical_ne_wrapped (m : Method) (owner : Nat) (inner : Method) :
    m.canonical ≠ wrapped owner inner := by
  induction m with
  | function _ => simp [canonical]
  | token _ => simp [canonical]
  | wrapped _ _ ih => simpa using ih

theorem canonical_canonical (m : Method) : m.canonical.canonical = m.canonical := by
  induction m with
  | function _ => rfl
  | token _ => rfl
  | wrapped _ _ ih => simpa using ih

end Method

end Detouring
