-- What the three providers of a platform can do, as sets of flags. Flags without a name are
-- kept and written as one number.
import Detouring.Word

namespace Detouring

/-- A set of flags, one bit for each. -/
abbrev FlagSet := Nat

namespace FlagSet

/-- `true` if every flag of `wanted` is in the set. -/
def has (s wanted : FlagSet) : Bool := s &&& wanted == wanted

/-- The flags of the set that `names` does not know. -/
def unnamed (names : List (Nat × String)) (s : FlagSet) : Nat :=
  names.foldl (fun rest (bit, _) => rest - (rest &&& bit)) s

/-- The names of the flags in a set, then the rest as a number. -/
def text (names : List (Nat × String)) (s : FlagSet) : String :=
  let known := names.filterMap fun (bit, name) => if s.has bit then some name else none
  let rest := unnamed names s
  let parts := known ++ if rest = 0 then [] else [hexText rest]
  if parts = [] then "0x0" else " | ".intercalate parts

theorem has_self (s : FlagSet) : FlagSet.has s s := by
  simp [FlagSet.has]

end FlagSet

/-! ## Architectures -/

namespace ArchitectureFlag

def fixedInstructionSize : FlagSet := 0x1
def immediate64 : FlagSet := 0x2
/-- Overwritten instructions can be moved to an alternate entry. -/
def alternateEntries : FlagSet := 0x4

def names : List (Nat × String) :=
  [(fixedInstructionSize, "FIXED_INSTRUCTION_SIZE"), (immediate64, "IMMEDIATE64"),
    (alternateEntries, "CREATE_ALT_ENTRY_POINT")]

/-- What x86-64 can do. -/
def x86_64 : FlagSet := immediate64 ||| alternateEntries

end ArchitectureFlag

/-! ## Systems -/

namespace SystemFlag

def rwxPages : FlagSet := 0x1
def rxPages : FlagSet := 0x2

def names : List (Nat × String) := [(rwxPages, "RWX_PAGES"), (rxPages, "RX_PAGES")]

/-- What Linux can do. -/
def linux : FlagSet := rwxPages ||| rxPages

end SystemFlag

/-! ## Runtimes -/

namespace RuntimeFlag

def preciseCollector : FlagSet := 0x1
/-- The runtime reports methods that it compiles. -/
def compileNotices : FlagSet := 0x2
def intermediateDetours : FlagSet := 0x4
def genericSharing : FlagSet := 0x8
def inliningControl : FlagSet := 0x10
def uninlining : FlagSet := 0x20
def instantiationLists : FlagSet := 0x40
/-- Detoured methods must be pinned. -/
def pinning : FlagSet := 0x80
/-- Methods have several names; the runtime knows the one with identity. -/
def identification : FlagSet := 0x100
/-- Entry points lead through stubs to the body. -/
def stubWalking : FlagSet := 0x200
def knownConvention : FlagSet := 0x400
/-- Methods are compiled by asking the runtime. -/
def customCompile : FlagSet := 0x800

def names : List (Nat × String) :=
  [(preciseCollector, "PRECISE_GC"), (compileNotices, "COMPILE_METHOD_HOOK"),
    (intermediateDetours, "IL_DETOUR"), (genericSharing, "GENERIC_SHARING"),
    (inliningControl, "DISABLE_INLINING"), (uninlining, "UNINLINING"),
    (instantiationLists, "LIST_GENERIC_INSTANTIATIONS"), (pinning, "REQUIRES_METHOD_PINNING"),
    (identification, "REQUIRES_METHOD_IDENTIFICATION"),
    (stubWalking, "REQUIRES_BODY_THUNK_WALKING"), (knownConvention, "HAS_KNOWN_ABI"),
    (customCompile, "REQUIRES_CUSTOM_METHOD_COMPILE")]

end RuntimeFlag

/-! ## All three -/

structure Features where
  architecture : FlagSet
  system : FlagSet
  runtime : FlagSet
deriving DecidableEq

namespace Features

def text (f : Features) : String :=
  let architecture := FlagSet.text ArchitectureFlag.names f.architecture
  let system := FlagSet.text SystemFlag.names f.system
  let runtime := FlagSet.text RuntimeFlag.names f.runtime
  s!"Features(ArchitectureFeature({architecture}) | SystemFeature({system}) | "
    ++ s!"RuntimeFeature({runtime}))"

end Features

end Detouring
