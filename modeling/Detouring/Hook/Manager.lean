-- Managers of hooks. A manager keeps one chain for each method hooked through it, and lives as
-- long as it is in hand or a hook of it is.
import Detouring.Hook.Chain

namespace Detouring

namespace World

/-! ## Managers -/

/-- Drops a chain that has no hooks: its detour, its proxy and the hooks that were unlinked. -/
def dropChain (k : ChainKey) (c : Chain) : Op World Unit := do
  updateChain k ({ · with retired := [], root := none, proxy := none })
  c.root.forM dropDetour
  changeMachine fun m => m.freeAll (c.proxy.map Stub.block).toList
  Op.change (releaseNodes k c.retired)

/-- Drops a manager that is neither in hand nor needed by a hook. -/
def dropManagerIfUnused (id : Nat) : Op World Unit := do
  let w ← get
  if w.manager = some id || w.hooks.any (·.chain.manager == id) then pure ()
  else
    match w.manager? id with
    | none => pure ()
    | some m =>
      m.chains.forM fun c => dropChain ⟨id, c.method⟩ c
      Op.change fun w => { w with
        managers := w.managers.filter (·.id != id)
        factories := w.factories.filter (· != id) }

/-- Takes a new manager in hand. Hooks need alternate entries to reach what they replace. -/
def newManager : Op World Unit := do
  if !(← get).platform.keepsReplacedCode then throw (.unsupported .hookChains)
  else
    let id ← newFactory
    let old := (← get).manager
    Op.change fun w => { w with managers := w.managers ++ [{ id }], manager := some id }
    old.forM dropManagerIfUnused

/-! ## Hooks -/

/-- Makes sure that a manager has a chain for a method, and gives the number of a new hook. -/
def openChain (k : ChainKey) : Op World Nat := do
  let w ← get
  match w.manager? k.manager with
  | none => return 0
  | some m =>
    let chains := if (w.chain? k).isSome then m.chains else m.chains ++ [{ method := k.method }]
    Op.change (·.updateManager k.manager ({ · with chains, nextHook := m.nextHook + 1 }))
    return m.nextHook

/-- Hooks a method with a function. -/
def addHook (manager : Nat) (source : Method) (target : Nat) (placement : Option Placement) :
    Op World Hook := do
  let method ← canonicalize source
  if method.address? = some target then throw (.argument (.selfHook method))
  else
    let chain : ChainKey := { manager, method }
    let id ← openChain chain
    let node : ChainNode := { id, placement, target, trampoline := ← onMachine (Stub.build target) }
    insertNode chain node
    let hook : Hook := { chain, node }
    Op.change fun w => { w with hooks := w.hooks ++ [hook] }
    tell (.hookApplied id method)
    return hook

def setHook (h : Hook) : Op World Unit := Op.change fun w =>
  { w with hooks := w.hooks.map fun x =>
      if x.chain.manager = h.chain.manager ∧ x.node.id = h.node.id then h else x }

/-- Takes a hook out of its chain. -/
def undoHook (h : Hook) : Op World Unit :=
  if !h.applied then throw (.disposed .hook)
  else do
    setHook { h with applied := false }
    let outcome ← (removeNode h.chain h.node.id).outcome
    tell (.hookUndone h.node.id h.chain.method)
    outcome

/-- Drops the handle of a hook; one that is applied is undone first. -/
def dropHook (h : Hook) : Op World Unit := do
  if h.applied then
    match ← (undoHook h).outcome with
    | .ok () => pure ()
    | .error e => report (.hookNotUndone h.node.id h.chain.method e)
  Op.change fun w => { w with
    hooks := w.hooks.filter fun x =>
      x.chain.manager != h.chain.manager || x.node.id != h.node.id }
  Op.change (releaseNode h.chain h.node)
  dropManagerIfUnused h.chain.manager

/-! ## Views -/

/-- The hooks of a method as they are linked. -/
structure ChainView where
  method : Method
  hooks : List ChainNode
  /-- Where the method's own code can still be entered. -/
  alternate : Option Nat
  detoured : Bool

/-- What a manager knows about a method. -/
def viewChain (manager : Nat) (m : Method) : Op World ChainView := do
  let method ← canonicalize m
  let w ← get
  match w.chain? { manager, method } with
  | none => return ⟨method, [], none, false⟩
  | some c =>
    let root := c.root.bind w.detour?
    return ⟨method, c.linkedNodes, root.bind MethodDetour.alternateEntry?,
      root.any MethodDetour.isApplied⟩

end World

end Detouring
