-- Everything that detours and hooks consist of at one moment: the machine with its patched
-- code, the runtime, the detours by number, and the chains of hooks with their managers.
import Detouring.Hook.PlacementGraph
import Detouring.Jump.Stub
import Detouring.Platform.Basic

namespace Detouring

/-! ## Events -/

/-- Something that an onlooker may be told. -/
inductive Event where
  | identified (m : Method)
  | compiled (m : Method)
  | pinned (m : Method)
  | unpinned (m : Method)
  | inliningDisabled (m : Method)
  /-- The jump of a detour is about to be written; its alternate entry is ready. -/
  | beforePatch (entry : Option Nat)
  /-- A watched detour followed its source to fresh code. -/
  | relocated (name : String)
  | hookApplied (hook : Nat) (m : Method)
  | hookUndone (hook : Nat) (m : Method)
deriving DecidableEq

def Event.text : Event → String
  | identified m => s!"identify {m.text}"
  | compiled m => s!"compile {m.text}"
  | pinned m => s!"pin {m.text}"
  | unpinned m => s!"unpin {m.text}"
  | inliningDisabled m => s!"noinline {m.text}"
  | beforePatch (some entry) => s!"before_patch {hexText entry}"
  | beforePatch none => "before_patch none"
  | relocated name => s!"relocated {name}"
  | hookApplied hook m => s!"applied {hook} on {m.text}"
  | hookUndone hook m => s!"undone {hook} on {m.text}"

/-! ## Detours of methods -/

/-- A chain of hooks, by its manager and its method. -/
structure ChainKey where
  manager : Nat
  method : Method
deriving DecidableEq

namespace ChainKey

variable {k k' : ChainKey}

theorem mk_method {manager : Nat} (ours : k.manager = manager) : ⟨manager, k.method⟩ = k := by
  rw [← ours]

/-- The chains of one manager are those of different methods. -/
theorem method_ne (manager : k'.manager = k.manager) (other : k' ≠ k) : k'.method ≠ k.method := by
  intro method
  cases k
  cases k'
  cases manager
  cases method
  exact other rfl

end ChainKey

/-- Who is told when a detour followed its source to fresh code. -/
inductive Watcher where
  | nobody
  | onlooker (name : String)
  | chain (key : ChainKey)
deriving DecidableEq

/-- A detour from one method to another. -/
structure MethodDetour where
  id : Nat
  /-- The factory that made it, by number. -/
  factory : Nat
  source : Method
  target : Method
  /-- The flag that others read. -/
  applied : Bool := false
  /-- The redirected code, while the detour is applied. -/
  redirection : Option Redirection := none
  /-- The detour is being applied, undone or moved. -/
  busy : Bool := false
  /-- The methods that it keeps in place. -/
  pins : List Method := []
  /-- Alternate entries of earlier code, which calls may still run through. -/
  retired : List Block := []
  watcher : Watcher := .nobody
  /-- Whatever changes the one changes the other. -/
  coupled : applied = redirection.isSome := by rfl

namespace MethodDetour

def isApplied (d : MethodDetour) : Bool := d.applied

theorem isApplied_eq (d : MethodDetour) : d.isApplied = d.redirection.isSome := d.coupled

/-- The patched address. -/
def sourceEntry? (d : MethodDetour) : Option Nat := d.redirection.map Redirection.source

/-- Where the code of the source can still be entered. -/
def alternateEntry? (d : MethodDetour) : Option Nat := d.redirection.bind Redirection.entry?

end MethodDetour

/-! ## Chains of hooks -/

/-- A hook in a chain. -/
structure ChainNode where
  id : Nat
  placement : Option Placement
  /-- The hook function. -/
  target : Nat
  /-- Where the hook goes on: to the next hook or to the method's own code. -/
  trampoline : Stub

/-- The hooks of one method. The method is detoured to the proxy, and the proxy leads to the
first hook. -/
structure Chain where
  method : Method
  graph : PlacementGraph := {}
  /-- Hooks without a placement, newest first. They stand behind the placed ones. -/
  unplaced : List Nat := []
  nodes : List ChainNode := []
  /-- The hooks as they are linked. -/
  order : List Nat := []
  /-- The detour of the method, by number. -/
  root : Option Nat := none
  proxy : Option Stub := none
  /-- Hooks that were unlinked; the next change releases them. -/
  retired : List ChainNode := []

namespace Chain

def node? (c : Chain) (id : Nat) : Option ChainNode := c.nodes.find? (·.id == id)

/-- `true` if the chain still keeps the trampoline of a hook. -/
def keeps (c : Chain) (id : Nat) : Bool :=
  c.nodes.any (·.id == id) || c.retired.any (·.id == id)

/-- Takes a hook out of the books; it stays linked. -/
def forget (c : Chain) (id : Nat) : Chain :=
  { c with
    graph := c.graph.remove id
    unplaced := if c.graph.contains id then c.unplaced else c.unplaced.filter (· != id)
    nodes := c.nodes.filter (·.id != id) }

end Chain

/-- A manager keeps one chain for each method hooked through it. -/
structure Manager where
  /-- Its number, which is also that of the factory of its detours. -/
  id : Nat
  chains : List Chain := []
  nextHook : Nat := 1

/-- The handle of a hook. -/
structure Hook where
  chain : ChainKey
  node : ChainNode
  applied : Bool := true

/-! ## The world -/

structure World where
  machine : Machine
  platform : Platform
  runtime : Runtime
  events : List Event := []
  detours : List MethodDetour := []
  nextDetour : Nat := 0
  /-- The factories that are in use. -/
  factories : List Nat := []
  nextFactory : Nat := 0
  managers : List Manager := []
  /-- The manager that is in hand. Others live as long as hooks of theirs. -/
  manager : Option Nat := none
  /-- The hooks whose handles are in use. -/
  hooks : List Hook := []

namespace World

variable {α : Type}

/-- The operation that works on the machine alone. -/
def onMachine (act : Op Machine α) : Op World α :=
  act.within machine fun w machine => { w with machine }

def changeMachine (f : Machine → Machine) : Op World Unit := onMachine (Op.change f)

def report (r : Report) : Op World Unit := changeMachine (·.report r)

def tell (e : Event) : Op World Unit := Op.change fun w => { w with events := w.events ++ [e] }

/-! ### Detours -/

def detour? (w : World) (id : Nat) : Option MethodDetour := w.detours.find? (·.id == id)

def setDetour (d : MethodDetour) : Op World Unit := Op.change fun w =>
  { w with detours := w.detours.map fun x => if x.id = d.id then d else x }

/-- Does something with a detour, if it is still there. -/
def withDetour (id : Nat) (act : MethodDetour → Op World Unit) : Op World Unit := do
  match (← get).detour? id with
  | some d => act d
  | none => pure ()

def updateDetour (id : Nat) (f : MethodDetour → MethodDetour) : Op World Unit :=
  withDetour id fun d => setDetour (f d)

/-! ### Chains -/

def manager? (w : World) (id : Nat) : Option Manager := w.managers.find? (·.id == id)

def chain? (w : World) (k : ChainKey) : Option Chain :=
  (w.manager? k.manager).bind fun m => m.chains.find? (·.method = k.method)

def updateManager (w : World) (id : Nat) (f : Manager → Manager) : World :=
  { w with managers := w.managers.map fun m => if m.id = id then f m else m }

def updateChain (k : ChainKey) (f : Chain → Chain) : Op World Unit := Op.change fun w =>
  w.updateManager k.manager fun m =>
    { m with chains := m.chains.map fun c => if c.method = k.method then f c else c }

def hook? (w : World) (manager id : Nat) : Option Hook :=
  w.hooks.find? fun h => h.chain.manager == manager && h.node.id == id

end World

end Detouring
