-- Subscribers to compile notices. A notice goes to those who had subscribed when it was sent;
-- a subscriber may bring in others while it is told.
import Detouring.Method

namespace Detouring

/-- A method that a runtime compiled, with its fresh code. -/
structure CompiledMethod where
  method : Method
  start : Nat
  size : Nat
deriving DecidableEq

/-- A subscriber with a name. On every notice it brings in one that is named by the first of
`brings`, which brings in the rest. -/
structure Subscriber where
  name : String
  brings : List String

namespace Subscriber

/-- What a subscriber writes down about a notice. -/
def record (s : Subscriber) (c : CompiledMethod) : String :=
  s!"{s.name} {c.method.text} {hexText c.start} {c.size}"

def newcomer (s : Subscriber) : List Subscriber :=
  match s.brings with
  | [] => []
  | name :: brings => [⟨name, brings⟩]

/-- Sends a notice to all subscribers, and gives those who subscribe from then on. -/
def notify (subscribers : List Subscriber) (c : CompiledMethod) :
    List Subscriber × List String :=
  (subscribers ++ subscribers.flatMap newcomer, subscribers.map (·.record c))

end Subscriber

end Detouring
