-- How a hook is placed among the other hooks of its method. The chain runs from the caller
-- towards the method's own code; higher priorities stand earlier in it.

namespace Detouring

structure Placement where
  /-- The name by which other hooks refer to this one. -/
  id : String
  priority : Option Int := none
  /-- Orders hooks of one priority; the higher stands earlier. -/
  subPriority : Int := 0
  /-- The hooks that stand later than this one. -/
  before : List String := []
  /-- The hooks that stand earlier than this one. -/
  after : List String := []
deriving DecidableEq

namespace Placement

def addBefore (p : Placement) (ids : List String) : Placement :=
  { p with before := p.before ++ ids }

def addAfter (p : Placement) (ids : List String) : Placement :=
  { p with after := p.after ++ ids }

def standsBefore (p : Placement) (id : String) : Bool := p.before.contains id

def standsAfter (p : Placement) (id : String) : Bool := p.after.contains id

end Placement

end Detouring
