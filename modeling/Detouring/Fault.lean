-- Everything that can go wrong, by cause. Each cause carries the values its message names;
-- the wording stands here and nowhere else.
import Detouring.Method
import Detouring.Pattern.AddressForm
import Detouring.Relocation.CallForm

namespace Detouring

/-! ## The causes -/

/-- Something a platform may be unable to do. -/
inductive Capability where
  | compilation
  | pinning
  | inliningControl
  | compileNotices
  | alternateEntries
  | callingReplaced
  | hookChains
deriving DecidableEq

/-- Why the observed calling convention was not recognised. -/
inductive ConventionFault where
  | words (observed : List Nat) (instanceWord recordWord : Nat)
  | noReference
deriving DecidableEq

/-- Why the protection of a range could not be changed. -/
inductive ProtectionFault where
  | notFullyMapped
  | outOfMemory
deriving DecidableEq

/-- Why no memory was handed out. -/
inductive AllocationFault where
  | pageLimitReached
  | pageTaken (page : Nat)
  | unmapRefused (page : Nat)
  | placementRefused (page : Nat)
  | largerThanPage (size pageSize : Nat)
  | freshPageTooSmall (size alignment : Nat)
  | noFreePage (low high : Nat)
  | pageOutOfRange (page low high : Nat)
deriving DecidableEq

/-- Why the body of a method was not found. -/
inductive BodyFault where
  | notNative (m : Method)
  | unknownToken (token : Nat)
  | stillStub (m : Method) (entry : Nat)
  | unsettled (m : Method) (steps : Nat)
deriving DecidableEq

/-- Why a method was not compiled. -/
inductive CompileFault where
  | notToken (m : Method)
  | unknownToken (token : Nat)
  | reported (text : String)
deriving DecidableEq

/-- Why instructions were not written at another place. A displacement that does not fit its
field comes with the address it counts from, its target and the home of the instruction. -/
inductive LayoutFault where
  | dataTooDistant
  | dataOutOfReach (next target home : Nat)
  | branchOutOfReach (width next target home : Nat)
deriving DecidableEq

/-- Why machine code was not carried to another place. -/
inductive EncodingFault where
  | unreadable (readable wanted entry : Nat)
  | outOfCode (entry : Nat)
  | invalidInstruction (address : Nat)
  | unknownCall (form : CallForm)
  | layout (cause : LayoutFault)
  | unsettledSize (entry : Nat)
deriving DecidableEq

/-- The handles that can be used up. -/
inductive Handle where
  | jumpPatch
  | methodDetour
  | hook
deriving DecidableEq

/-- Operations that the present state does not allow. -/
inductive StateFault where
  | platformInstalled
  | outOfJumpRange (target source : Nat)
  | cellOutOfJumpRange (cell source : Nat)
  | patchTooLarge (source size : Nat)
  | alreadyApplied (source target : Method)
  | appliedWhileApplying (source target : Method)
  | undoneWhileApplying (source target : Method)
  | alreadyOrdered (id : String)
  | hookNotApplied (hook : Nat) (source : Method)
  | nestedUpdate
  | notPinnable (m : Method)
  | notInlinable (m : Method)
  | noMoreSubscribers
  | reported (text : String)
deriving DecidableEq

/-- Arguments that are refused. -/
inductive ArgumentFault where
  | zeroSize
  | alignment (alignment : Nat)
  | targetOutside (target low high : Nat)
  | writeOutside (length offset size : Nat)
  | stubCell (offset : Nat)
  | selfJump (address : Nat)
  | selfDetour (m : Method)
  | selfHook (m : Method)
deriving DecidableEq

/-- Patterns and address forms that make no sense. -/
inductive PatternFault where
  | form (raw : Nat)
  | offsetRequired (form : AddressForm)
  | offsetUnwanted (form : AddressForm)
  | negativeOffset (offset : Int)
  | shortMask
  | unknownItem (value : Nat)
  | empty
  | tooManyAddressBytes (count : Nat)
  | noMeaningfulSegment
deriving DecidableEq

/-- A failure of one operation. -/
inductive Fault where
  | unsupported (what : Capability)
  | unrecognizedConvention (cause : ConventionFault)
  | protection (address length : Nat) (cause : ProtectionFault)
  | allocation (cause : AllocationFault)
  | bodyNotFound (cause : BodyFault)
  | compile (cause : CompileFault)
  | encoding (cause : EncodingFault)
  | disposed (what : Handle)
  | state (cause : StateFault)
  | argument (cause : ArgumentFault)
  | malformed (cause : PatternFault)
  /-- The ordering constraints of hooks run in a circle through this one. -/
  | orderCycle (id : String)
  /-- A call entered a chain that its own thread was changing. -/
  | updateReentry
deriving DecidableEq

/-- How many address bytes a pattern may capture. -/
def addressCapacity : Nat := 8

/-! ## The messages -/

def Capability.text : Capability → String
  | compilation => "custom method compilation"
  | pinning => "method pinning"
  | inliningControl => "disabling inlining"
  | compileNotices => "compile notifications"
  | alternateEntries => "alternate entry points"
  | callingReplaced => "calling the original method from a hook chain"
  | hookChains => "hook chains without alternate entry points"

/-- Observed words, one a line. -/
def wordListText (words : List Nat) : String :=
  "[\n" ++ String.join (words.map fun w => s!"    {hexText w},\n") ++ "]"

def ConventionFault.text : ConventionFault → String
  | words observed i r =>
    s!"{wordListText observed} for instance {hexText i} and record {hexText r}"
  | noReference => "no classification rules to compare against"

def ProtectionFault.text : ProtectionFault → String
  | notFullyMapped => "range is not fully mapped"
  | outOfMemory => "Cannot allocate memory (os error 12)"

def AllocationFault.text : AllocationFault → String
  | pageLimitReached => "page limit reached"
  | pageTaken page => s!"page {hexText page} is taken"
  | unmapRefused page => s!"unmap of {hexText page} refused"
  | placementRefused page => s!"mmap at {hexText page} failed: File exists (os error 17)"
  | largerThanPage size pageSize =>
    s!"Single allocations cannot be larger than a page ({size} > {pageSize})"
  | freshPageTooSmall size alignment =>
    s!"Fresh page could not satisfy {size} bytes aligned to {alignment}"
  | noFreePage low high => s!"No free page within [{hexText low}, {hexText high}]"
  | pageOutOfRange page low high =>
    s!"Page {hexText page} could not satisfy the request within [{hexText low}, {hexText high}]"

def BodyFault.text : BodyFault → String
  | notNative m => s!"{m.text} is not a native function"
  | unknownToken token => s!"unknown token {token}"
  | stillStub m entry =>
    s!"{m.text} still leads through a compilation stub at {hexText entry} after compiling"
  | unsettled m steps => s!"{m.text} did not settle within {steps} stubs"

def CompileFault.text : CompileFault → String
  | notToken m => s!"{m.text} is not a test method"
  | unknownToken token => s!"unknown token {token}"
  | reported text => text

def LayoutFault.text : LayoutFault → String
  | dataTooDistant =>
    "IP relative memory operand is too far away and isn't currently supported. "
      ++ "Try to allocate memory close to the original instruction (+/-2GB)."
  | dataOutOfReach next target home =>
    s!"RIP relative distance is too far away: next_ip: {upperHexText 16 next} "
      ++ s!"target: {upperHexText 1 target}, diff = {wordDifference target next}, "
      ++ s!"diff must fit in an i32 : {upperHexText 1 home}"
  | branchOutOfReach width next target home =>
    s!"Branch distance is too far away: next_ip: {upperHexText 16 next} "
      ++ s!"target: {upperHexText 16 target}, diff = {wordDifference target next}, "
      ++ s!"diff must fit in an i{width} : {upperHexText 1 home}"

def EncodingFault.text : EncodingFault → String
  | unreadable readable wanted entry =>
    s!"Only {readable} of {wanted} bytes readable at {hexText entry}"
  | outOfCode entry => s!"Ran out of code decoding {hexText entry}"
  | invalidInstruction address => s!"Invalid instruction at {hexText address}"
  | unknownCall form => s!"Unrecognized call opcode {form.name}"
  | layout cause => s!"Block encoding failed: {cause.text}"
  | unsettledSize entry => s!"Relocated code for {hexText entry} did not settle on a size"

def Handle.text : Handle → String
  | jumpPatch => "native detour"
  | methodDetour => "core detour"
  | hook => "hook"

def StateFault.text : StateFault → String
  | platformInstalled => "A platform triple is already installed"
  | outOfJumpRange target source =>
    s!"{hexText target} is out of rel32 range of {hexText source}"
  | cellOutOfJumpRange cell source =>
    s!"Pointer cell {hexText cell} is out of rel32 range of {hexText source}"
  | patchTooLarge source size => s!"Retargeting {hexText source} needs a {size} byte patch"
  | alreadyApplied source target => s!"Detour {source.text} -> {target.text} is already applied"
  | appliedWhileApplying source target =>
    s!"Detour {source.text} -> {target.text} applied while applying"
  | undoneWhileApplying source target =>
    s!"Detour {source.text} -> {target.text} undone while applying"
  | alreadyOrdered id => s!"Detour '{id}' is already in the graph"
  | hookNotApplied hook source => s!"Hook {hook} is not applied to {source.text}"
  | nestedUpdate => "Chain update started while updating"
  | notPinnable m => s!"{m.text} cannot be pinned"
  | notInlinable m => s!"{m.text} stays inlined"
  | noMoreSubscribers => "no more subscribers"
  | reported text => text

def ArgumentFault.text : ArgumentFault → String
  | zeroSize => "Allocation size is zero"
  | alignment a => s!"Alignment {a} is not a power of two"
  | targetOutside target low high =>
    s!"Target {hexText target} not within [{hexText low}, {hexText high}]"
  | writeOutside length offset size =>
    s!"Write of {length} bytes at offset {offset} exceeds allocation of {size} bytes"
  | stubCell offset => s!"Jump stub cell at offset {offset} is misaligned or out of bounds"
  | selfJump a => s!"Cannot detour {hexText a} to itself"
  | selfDetour m => s!"Cannot detour {m.text} to itself"
  | selfHook m => s!"Cannot hook {m.text} with itself"

def PatternFault.text : PatternFault → String
  | form raw => s!"Invalid address kind {hexText raw}"
  | offsetRequired f => s!"Address kind {f.text} is relative, an offset is required"
  | offsetUnwanted f => s!"Address kind {f.text} is absolute, it cannot have an offset"
  | negativeOffset offset => s!"Relative address offset must be positive, got {offset}"
  | shortMask => "Mask buffer shorter than pattern"
  | unknownItem value => s!"Pattern contained unknown special value {hexByteText value}"
  | empty => "Pattern cannot be empty"
  | tooManyAddressBytes count =>
    s!"Pattern captures {count} address bytes, at most {addressCapacity} are supported"
  | noMeaningfulSegment => "Pattern has no meaningful segments"

/-- What a failure says about itself. -/
def Fault.message : Fault → String
  | unsupported what => s!"Feature not supported by this platform - {what.text}"
  | unrecognizedConvention cause => s!"Unrecognized ABI - observed {cause.text}"
  | protection address length cause =>
    s!"Failed to change protection of {length} bytes at {hexText address} - {cause.text}"
  | allocation cause => s!"Allocation failed - {cause.text}"
  | bodyNotFound cause => s!"Method body not found - {cause.text}"
  | compile cause => s!"Compilation failed - {cause.text}"
  | encoding cause => s!"Instruction encoding failed - {cause.text}"
  | disposed what => s!"Use of a disposed {what.text}"
  | state cause => s!"Invalid state - {cause.text}"
  | argument cause => s!"Invalid argument - {cause.text}"
  | malformed cause => cause.text
  | orderCycle id =>
    s!"Dependency cycle detected - Ordering constraints form a cycle through '{id}'"
  | updateReentry => "Call entered a detour chain while the same thread was updating it"

end Detouring
