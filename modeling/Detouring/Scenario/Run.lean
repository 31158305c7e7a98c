-- Running a scenario: from the memory and the platform that it asks for, step by step. Each
-- step gives its answer, and what was told and logged meanwhile.
import Detouring.Scenario.CodeStep
import Detouring.Scenario.HookStep
import Detouring.Scenario.MemoryStep
import Detouring.Scenario.MethodStep
import Detouring.Scenario.PatchStep

namespace Detouring

/-! ## The beginning -/

/-- Pages that are mapped in the beginning: all bytes the same, but for some pieces. -/
structure Mapping where
  start : Nat
  pages : Nat
  protection : Protection
  fill : UInt8
  /-- Pieces of data, each at an offset. -/
  pieces : List (Nat × List UInt8)
  file : Option String

namespace Mapping

def addTo (x : Mapping) (m : Memory) : Memory :=
  let mapped := (List.range x.pages).foldl
    (fun m i => m.map (x.start + i * pageSize) x.protection x.file) m
  x.pieces.foldl (fun m (offset, data) => m.write (x.start + offset) data)
    (mapped.fill x.start (x.pages * pageSize) x.fill)

end Mapping

/-- What a scenario begins with. -/
structure Setting where
  mappings : List Mapping
  /-- The place of the pages that may lie anywhere. -/
  pagesAt : Nat
  pageLimit : Option Nat
  hidesPages : Bool
  architecture : Architecture
  system : System
  runtime : Runtime
  /-- The settings of the platform, if there is to be one. -/
  settings : Option Settings

namespace Setting

def memory (x : Setting) : Memory := x.mappings.foldl (fun m r => r.addTo m) {}

/-- The platform that is asked for. -/
def platform? (x : Setting) : Option (Except Fault Platform) :=
  x.settings.map (Platform.make x.architecture x.system x.runtime)

/-- A platform that stands in where none is asked for. -/
def standIn (x : Setting) : Platform :=
  ⟨x.architecture, x.system, x.runtime.kind, x.runtime.flags, {}, .systemV⟩

end Setting

namespace Scenario

def start (x : Setting) : Scenario :=
  let platform := x.platform?.bind Except.toOption
  let limit := if x.hidesPages then none else x.pageLimit
  let supply : PageSupply := { memory := x.memory, next := x.pagesAt, limit }
  { world := {
      machine := { arena := { source := supply } }
      platform := platform.getD x.standIn
      runtime := x.runtime }
    hasPlatform := platform.isSome
    hidesPages := x.hidesPages }

end Scenario

/-! ## Steps -/

inductive Step where
  | memory (step : MemoryStep)
  | code (step : CodeStep)
  | patch (step : PatchStep)
  | method (step : MethodStep)
  | hook (step : HookStep)

/-- What comes of a step. -/
structure Outcome where
  answer : Answer
  events : List Event
  log : List Report

namespace Scenario

def runStep : Step → Op Scenario Answer
  | .memory step => runMemoryStep step
  | .code step => runCodeStep step
  | .patch step => runPatchStep step
  | .method step => runMethodStep step
  | .hook step => runHookStep step

/-- Forgets what was told and logged. -/
def quiet (s : Scenario) : Scenario :=
  { s with world := { s.world with events := [], machine := { s.world.machine with log := [] } } }

/-- Takes one step. -/
def step (s : Scenario) (x : Step) : Scenario × Outcome :=
  let (result, s) := (runStep x).on s.quiet
  let answer := match result with
    | .ok answer => answer
    | .error e => .failed e
  (s, ⟨answer, s.world.events, s.machine.log⟩)

end Scenario

end Detouring
