-- A platform: an architecture, a system and a runtime that work together, how it is tuned, and
-- the calling convention it uses.
import Detouring.Calling.ArgumentOrder
import Detouring.Jump.Redirection
import Detouring.Platform.Runtime

namespace Detouring

inductive SystemKind where
  | linux
  | macOS
  | windows
  | unknown
deriving DecidableEq

def SystemKind.name : SystemKind → String
  | linux => "linux"
  | macOS => "macos"
  | windows => "windows"
  | unknown => "unknown"

/-- What is known of the operating system. -/
structure System where
  kind : SystemKind := .linux
  flags : FlagSet := SystemFlag.linux
  /-- The convention of its machine code. -/
  convention : Option Convention := some .systemV

structure Platform where
  architecture : Architecture
  system : System
  runtimeKind : RuntimeKind
  runtimeFlags : FlagSet
  settings : Settings
  convention : Convention

namespace Platform

/-- The convention that is declared by the runtime or else by the system. It is measured instead
if the settings ask for it or nobody declares one. -/
def conventionFor (s : System) (r : Runtime) (settings : Settings) :
    Except Fault Convention :=
  match r.convention.or s.convention with
  | some c => if settings.measureConvention then Convention.measured (some c) .host else .ok c
  | none => Convention.measured none .host

def make (a : Architecture) (s : System) (r : Runtime) (settings : Settings) :
    Except Fault Platform := do
  let convention ← conventionFor s r settings
  return ⟨a, s, r.kind, r.flags, settings, convention⟩

/-- The platform of plain machine code on x86-64 Linux. -/
def host : Except Fault Platform :=
  make {} {} (.native (some .systemV)) {}

/-- Architecture, system and runtime in one word. -/
def hostText (p : Platform) : String :=
  s!"x86_64-{p.system.kind.name}-{p.runtimeKind.name}"

def features (p : Platform) : Features :=
  ⟨p.architecture.flags, p.system.flags, p.runtimeFlags⟩

/-- `true` if hooks can reach the code that they replace. -/
def keepsReplacedCode (p : Platform) : Bool :=
  p.settings.alternateEntries && p.architecture.flags.has ArchitectureFlag.alternateEntries

/-- Installs a platform for the whole process. The first one stays. -/
def install (installed : Option Platform) (p : Platform) : Except Fault Platform :=
  match installed with
  | none => .ok p
  | some _ => .error (.state .platformInstalled)

end Platform

end Detouring
