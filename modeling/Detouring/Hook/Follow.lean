-- A chain follows its method: when the method has fresh code, the last hook goes on to the new
-- alternate entry.
import Detouring.World

namespace Detouring

namespace Chain

/-- The last hook of the chain. -/
def tail? (c : Chain) : Option ChainNode := c.order.getLast?.bind c.node?

end Chain

namespace World

/-- The detour of a chain's method, while it is applied. -/
def appliedRoot? (w : World) (c : Chain) : Option MethodDetour :=
  (c.root.bind w.detour?).filter MethodDetour.isApplied

/-- Points the last trampoline of a chain at the alternate entry of its method. -/
def relinkTail (k : ChainKey) : Op World Unit := do
  let w ← get
  match w.chain? k with
  | none => pure ()
  | some c =>
    match w.appliedRoot? c with
    | none => pure ()
    | some root =>
      match root.alternateEntry? with
      | none => throw (.unsupported .callingReplaced)
      | some entry =>
        match c.tail? with
        | some tail => changeMachine (tail.trampoline.retarget entry)
        | none => pure ()

end World

end Detouring
