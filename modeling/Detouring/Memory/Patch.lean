-- Changing the protection of pages, and patching bytes of any pages. A patch makes its pages
-- writable, writes, and gives every region the protection back that it had.
import Detouring.Memory.MapLine

namespace Detouring

/-- The pages that a range touches: their start and their length in bytes. An empty range
touches one page. -/
def pageRange (address length : Nat) : Nat × Nat :=
  let start := pageOf address
  (start, roundUp (address + max length 1) pageSize - start)

namespace Memory

/-- Protects `count` pages from `base` on. Stops at the first page that is not mapped; the pages
before it stay changed. -/
def protectPages (m : Memory) (protection : Protection) : (base count : Nat) → Bool × Memory
  | _, 0 => (true, m)
  | base, count + 1 =>
    if m.isMapped base then
      protectPages (m.setProtection base protection) protection (base + pageSize) count
    else (false, m)

/-- Protects the pages from `start` on. -/
def protect (m : Memory) (start length : Nat) (protection : Protection) :
    Except Fault Unit × Memory :=
  match m.protectPages protection start (length / pageSize) with
  | (true, m) => (.ok (), m)
  | (false, m) => (.error (.protection start length .outOfMemory), m)

/-- Protects the pages that a range touches. -/
def changeProtection (m : Memory) (address length : Nat) (protection : Protection) :
    Except Fault Unit × Memory :=
  let (start, length) := pageRange address length
  m.protect start length protection

/-- The parts of a page range by the regions they belong to, each with its protection. -/
def protectionsOf (regions : List Region) (start length : Nat) :
    List (Nat × Nat × Protection) :=
  regions.filterMap fun r =>
    if r.stop ≤ start ∨ start + length ≤ r.start then none
    else
      let first := max r.start start
      some (first, min r.stop (start + length) - first, r.protection)

/-- Gives the parts of a range their protections back, but for those that need no change. -/
def restore (m : Memory) (changed : Protection) :
    List (Nat × Nat × Protection) → Except Fault Unit × Memory
  | [] => (.ok (), m)
  | (start, length, protection) :: rest =>
    if protection = changed then restore m changed rest
    else
      match m.protect start length protection with
      | (.ok (), m) => restore m changed rest
      | (.error e, m) => (.error e, m)

/-- Writes `data` over mapped pages of any protection, and gives the first `backup` bytes that
it replaced. -/
def patch (m : Memory) (kind : PatchKind) (target : Nat) (data : List UInt8) (backup : Nat) :
    Except Fault (List UInt8) × Memory :=
  let (start, length) := pageRange target data.length
  let parts := protectionsOf m.mapRegions start length
  if sumOf (·.2.1) parts ≠ length then
    (.error (.protection start length .notFullyMapped), m)
  else
    match m.protect start length kind.writable with
    | (.error e, m) => (.error e, m)
    | (.ok (), m) =>
      let replaced := m.peek target (min backup data.length)
      match (m.write target data).restore kind.writable parts with
      | (.error e, m) => (.error e, m)
      | (.ok (), m) => (.ok replaced, m)

end Memory

end Detouring
