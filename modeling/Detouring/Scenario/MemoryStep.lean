-- Steps that look at memory, or change it without any detour.
import Detouring.Jump.Follow
import Detouring.Scenario.Basic

namespace Detouring

inductive MemoryStep where
  | read (address length : Nat)
  | follow (address hops : Nat)
  /-- Looks an address up in the memory map. -/
  | region (address : Nat)
  /-- Reads the memory map and keeps it. -/
  | keepMap (name : String)
  | readable (address guess : Nat) (map : Option String)
  | protect (address length : Nat) (protection : Protection)
  /-- `backup` is the size of the buffer for the replaced bytes. -/
  | patch (address : Nat) (data : List UInt8) (kind : PatchKind) (backup : Option Nat)
  | modules

namespace Scenario

/-- The number of readable bytes, but no more than asked for. -/
def readableLength? (s : Scenario) (address guess : Nat) (map : Option String) : Option Nat :=
  let regions := match map with
    | some name => s.maps.get? name
    | none => some s.memory.mapRegions
  regions.map fun regions => min (Region.readableLength regions address guess) guess

/-- A buffer that was full of `0xee`, after bytes were copied to its start. -/
def bufferWith (size : Nat) (data : List UInt8) : List UInt8 :=
  data ++ List.replicate (size - data.length) 0xee

def runMemoryStep : MemoryStep → Op Scenario Answer
  | .read address length => return .bytes ((← get).memory.read? address length)
  | .follow address hops => return .path ((← get).memory.jumpPath hops address)
  | .region address => return .region ((← get).memory.mapRegions.find? (·.contains address))
  | .keepMap name => do
    Op.change fun s => { s with maps := s.maps.put name s.memory.mapRegions }
    return .done
  | .readable address guess map => do
    match (← get).readableLength? address guess map with
    | some n => return .length n
    | none => return .missing
  | .protect address length protection => do
    onMachine (Machine.onMemory (·.changeProtection address length protection))
    return .done
  | .patch address data kind backup => do
    let replaced ← onMachine (Machine.onMemory (·.patch kind address data (backup.getD 0)))
    return .backup (backup.map fun size => bufferWith size replaced) kind
  | .modules => do
    return .modules ((Module.ofRegions (← get).memory.mapRegions).mergeSort
      fun a b => a.path ≤ b.path)

end Scenario

end Detouring
