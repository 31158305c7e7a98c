-- Linking the hooks of one method. The method is detoured once, to a proxy stub; the proxy and
-- the trampolines of the hooks are pointed along the chain, and the last trampoline at the
-- method's own code. A change only points stubs elsewhere.
import Detouring.Detour.Basic

namespace Detouring

namespace Chain

/-- The hooks in the order in which they are to be called. -/
def wantedOrder (c : Chain) : List Nat := c.graph.order ++ c.unplaced

/-- The hooks that are listed, as far as the chain has them. -/
def nodesOf (c : Chain) (order : List Nat) : List ChainNode := order.filterMap c.node?

/-- The hooks as they are linked. -/
def linkedNodes (c : Chain) : List ChainNode := c.nodesOf c.order

/-- Points every trampoline at the hook after it, the last one at `entry`, and gives the
machine with the address where the chain begins. -/
def linkNodes (entry : Nat) : List ChainNode → Machine → Machine × Nat
  | [], m => (m, entry)
  | node :: rest, m =>
    let (m, next) := linkNodes entry rest m
    (node.trampoline.retarget next m, node.target)

/-- Links the hooks, then points the proxy at the first of them. -/
def link (nodes : List ChainNode) (proxy : Stub) (entry : Nat) (m : Machine) : Machine :=
  let (m, first) := linkNodes entry nodes m
  proxy.retarget first m

/-- The chain begins at the first hook, and without hooks at `entry`. -/
theorem snd_linkNodes (entry : Nat) (nodes : List ChainNode) (m : Machine) :
    (linkNodes entry nodes m).2 = (nodes.head?.map ChainNode.target).getD entry := by
  cases nodes <;> rfl

end Chain

namespace World

/-! ## Releasing -/

/-- Frees the trampoline of a hook, unless the chain or a handle still needs it. -/
def releaseNode (k : ChainKey) (node : ChainNode) (w : World) : World :=
  if (w.hook? k.manager node.id).isSome || (w.chain? k).any (·.keeps node.id) then w
  else { w with machine := w.machine.free node.trampoline.block }

def releaseNodes (k : ChainKey) (nodes : List ChainNode) (w : World) : World :=
  nodes.foldl (fun w node => releaseNode k node w) w

/-! ## Relinking -/

/-- The proxy of a chain; a new one leads to the first hook. -/
def ensureProxy (k : ChainKey) (c : Chain) (first : ChainNode) : Op World Stub := do
  match c.proxy with
  | some proxy => return proxy
  | none =>
    let proxy ← onMachine (Stub.build first.target)
    updateChain k ({ · with proxy := some proxy })
    return proxy

/-- The detour from the method of a chain to its proxy. -/
def ensureRoot (k : ChainKey) (c : Chain) (proxy : Stub) : Op World Nat := do
  match c.root with
  | some root => return root
  | none =>
    let root ← createDetour k.manager c.method (.function proxy.entry) false
    watch root (.chain k)
    updateChain k ({ · with root := some root })
    return root

/-- Links the hooks in front of the method's own code, which must be callable. -/
def linkTo (nodes : List ChainNode) (proxy : Stub) (entry : Option Nat) : Op World Unit :=
  match entry with
  | some a => changeMachine (Chain.link nodes proxy a)
  | none => throw (.unsupported .callingReplaced)

/-- Undoes the detour of a method without hooks. -/
def unlinkAll (k : ChainKey) (c : Chain) : Op World Unit := do
  match (← get).appliedRoot? c with
  | some root => undoDetour root.id
  | none => pure ()
  updateChain k ({ · with order := [] })

/-- Links the hooks of a chain. The method is detoured with the first of them. -/
def linkAll (k : ChainKey) (c : Chain) (first : ChainNode) (rest : List ChainNode) :
    Op World Unit := do
  let nodes := first :: rest
  let proxy ← ensureProxy k c first
  let root ← ensureRoot k c proxy
  match ((← get).detour? root).bind MethodDetour.redirection with
  | some r => linkTo nodes proxy r.entry?
  | none => applyDetour root (linkTo nodes proxy)
  updateChain k ({ · with order := c.wantedOrder })

/-- Brings the links of a chain up to date with its books. Hooks that had been unlinked before
are released in the end. -/
def relink (k : ChainKey) : Op World Unit := do
  match (← get).chain? k with
  | none => pure ()
  | some c =>
    updateChain k ({ · with retired := [] })
    let outcome ← Op.outcome <|
      match c.nodesOf c.wantedOrder with
      | [] => unlinkAll k c
      | first :: rest => linkAll k c first rest
    Op.change (releaseNodes k c.retired)
    outcome

/-! ## Adding and removing -/

/-- Enters a hook into the books of its chain. A wish of its placement that loses against
another is worth a warning. -/
def enroll (k : ChainKey) (node : ChainNode) : Op World Unit := do
  match (← get).chain? k with
  | none => pure ()
  | some c =>
    match node.placement with
    | none =>
      updateChain k fun c =>
        { c with unplaced := node.id :: c.unplaced, nodes := c.nodes ++ [node] }
    | some p =>
      (c.graph.conflicts node.id p).forM fun peer => report (.conflictingOrder p.id peer)
      let (result, graph) := c.graph.insert node.id p
      updateChain k ({ · with graph })
      let _ ← result
      updateChain k fun c => { c with nodes := c.nodes ++ [node] }

/-- Adds a hook to a chain. If that fails the chain is linked without it again. -/
def insertNode (k : ChainKey) (node : ChainNode) : Op World Unit := do
  Op.cleaning (releaseNode k node) do
    enroll k node
    match ← (relink k).outcome with
    | .ok () => pure ()
    | .error e =>
      updateChain k (·.forget node.id)
      match ← (relink k).outcome with
      | .ok () => pure ()
      | .error restore => report (.chainNotRestored k.method restore)
      throw e

/-- Takes a hook out of its chain, whether or not the others can be linked again. -/
def removeNode (k : ChainKey) (id : Nat) : Op World Unit := do
  match ((← get).chain? k).bind (·.node? id) with
  | none => throw (.state (.hookNotApplied id k.method))
  | some node =>
    updateChain k (·.forget id)
    let outcome ← (relink k).outcome
    updateChain k fun c => { c with retired := c.retired ++ [node] }
    outcome

end World

end Detouring
