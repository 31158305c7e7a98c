-- The runtime whose methods are detoured: which methods it knows, where their code is, and what
-- happens when it compiles them again.
import Detouring.Calling.Convention
import Detouring.Fault
import Detouring.Platform.Feature

namespace Detouring

inductive RuntimeKind where
  | native
  | framework
  | coreClr
  | mono
  | unknown
deriving DecidableEq

def RuntimeKind.name : RuntimeKind → String
  | native => "native"
  | framework => "framework"
  | coreClr => "coreclr"
  | mono => "mono"
  | unknown => "unknown"

/-- How much of what a runtime may offer it really offers. -/
inductive RuntimeSupport where
  | full
  /-- It knows the entry points of its methods, and nothing else. -/
  | entriesOnly
  /-- Its methods are functions with fixed addresses. -/
  | functionsOnly
deriving DecidableEq

/-- What comes of compiling a method. -/
inductive Compilation where
  | fails (text : String)
  /-- The method gets a new entry, or its fresh code is announced, or both. -/
  | succeeds (entry : Option Nat) (code : Option (Nat × Nat))
deriving DecidableEq

/-- A method that a runtime knows. -/
structure ManagedMethod where
  token : Nat
  entry : Nat
  /-- What comes of compiling it, each time anew; later on nothing happens. -/
  compilations : List Compilation := []
  refusesPin : Bool := false
  /-- The token by which it is identified. -/
  identity : Option Nat := none
deriving DecidableEq

structure Runtime where
  kind : RuntimeKind := .unknown
  flags : FlagSet := 0
  convention : Option Convention := none
  support : RuntimeSupport := .full
  methods : List ManagedMethod := []
  refusesSubscribers : Bool := false
  refusesInliningControl : Bool := false
  /-- Who is told about fresh code, by number. -/
  subscribers : List Nat := []

namespace Runtime

/-- The runtime of plain machine code. -/
def native (convention : Option Convention) : Runtime where
  kind := .native
  flags := if convention.isSome then RuntimeFlag.knownConvention else 0
  convention := convention
  support := .functionsOnly

def method? (r : Runtime) (token : Nat) : Option ManagedMethod :=
  r.methods.find? (·.token == token)

/-- Makes a method known, or changes what is known of it. -/
def setMethod (r : Runtime) (m : ManagedMethod) : Runtime :=
  if (r.method? m.token).isSome then
    { r with methods := r.methods.map fun x => if x.token = m.token then m else x }
  else { r with methods := r.methods ++ [m] }

/-- Gives a method another entry, by which a method becomes known that was not. -/
def setEntry (r : Runtime) (token entry : Nat) : Runtime :=
  r.setMethod { (r.method? token).getD { token, entry } with entry }

/-- The method that a name stands for, if the runtime knows it. -/
def lookup? (r : Runtime) (m : Method) : Option ManagedMethod :=
  match m.canonical with
  | .token t => r.method? t
  | _ => none

/-- Where a call of the method goes. This may be a stub. -/
def entryPoint (r : Runtime) (m : Method) : Except Fault Nat :=
  match m.canonical with
  | .function a => .ok a
  | .token t =>
    if r.support = .functionsOnly then .error (.bodyNotFound (.notNative m))
    else
      match r.method? t with
      | some x => .ok x.entry
      | none => .error (.bodyNotFound (.unknownToken t))
  | .wrapped _ _ => .error (.bodyNotFound (.notNative m))

/-- The name that has identity. -/
def identify (r : Runtime) (m : Method) : Method :=
  match (r.lookup? m).bind ManagedMethod.identity with
  | some t => if r.support = .full then .token t else m.canonical
  | none => m.canonical

/-- Adds somebody who is told about fresh code. -/
def subscribe (r : Runtime) (subscriber : Nat) : Except Fault Runtime :=
  if r.support ≠ .full then .error (.unsupported .compileNotices)
  else if r.refusesSubscribers then .error (.state .noMoreSubscribers)
  else .ok { r with subscribers := r.subscribers ++ [subscriber] }

end Runtime

end Detouring
