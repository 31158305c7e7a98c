-- Finding the body of a method, which may mean compiling it first.
import Detouring.Detour.Recompilation
import Detouring.Thunk.Walk

namespace Detouring

namespace World

/-- Carries out what comes of compiling a method. -/
def runCompilation (token : Nat) : Compilation → Op World Unit
  | .fails text => throw (.compile (.reported text))
  | .succeeds entry code => do
    entry.forM fun entry =>
      Op.change fun w => { w with runtime := w.runtime.setEntry token entry }
    match code with
    | some (start, size) => deliver { method := .token token, start, size }
    | none => pure ()

/-- Takes the next compilation of a method off its list. -/
def nextCompilation (m : ManagedMethod) : Op World (Option Compilation) := do
  Op.change fun w => { w with
    runtime := w.runtime.setMethod { m with compilations := m.compilations.drop 1 } }
  return m.compilations.head?

/-- Has the runtime compile a method. -/
def compileByRuntime (m : Method) : Op World Unit := do
  let r := (← get).runtime
  if r.support ≠ .full then throw (.unsupported .compilation)
  else
    tell (.compiled m)
    match m.canonical with
    | .token t =>
      match r.method? t with
      | none => throw (.compile (.unknownToken t))
      | some x =>
        match ← nextCompilation x with
        | some c => runCompilation t c
        | none => pure ()
    | _ => throw (.compile (.notToken m))

def entryPoint (m : Method) : Op World Nat := do
  ((← get).runtime.entryPoint m)

/-- Makes sure that a method has a body. -/
def compile (m : Method) : Op World Unit := do
  if (← get).asks RuntimeFlag.customCompile then compileByRuntime m
  else
    let _ ← entryPoint m

/-- A method as the walk to its body sees it. -/
def bodySource (m : Method) : Thunk.BodySource World where
  method := m
  entryPoint := entryPoint m
  compile := compile m
  memory w := w.machine.memory

/-- The address of the body of a method. -/
def resolve (m : Method) : Op World Nat := do
  match m.address? with
  | some a => return a
  | none =>
    if (← get).asks RuntimeFlag.stubWalking then
      Thunk.walk (bodySource m) (← get).platform.settings.maxStubSteps
    else entryPoint m

end World

end Detouring
