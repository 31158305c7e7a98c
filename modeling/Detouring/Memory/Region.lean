-- The regions of a memory: one for each run of pages that are alike. From them come the number
-- of readable bytes at an address and the files that are loaded.
import Detouring.Memory.Basic

namespace Detouring

/-- A mapping, as one line of the memory map. -/
structure Region where
  start : Nat
  stop : Nat
  protection : Protection
  /-- Writes are not seen by other processes. -/
  isPrivate : Bool
  path : Option String
deriving DecidableEq

namespace Region

def contains (r : Region) (address : Nat) : Bool := r.start ≤ address && address < r.stop

/-! ## The regions of a memory -/

/-- The region of one page. The file name is written as a path. -/
def ofPage (p : MappedPage) : Region where
  start := p.base
  stop := p.base + pageSize
  protection := p.protection
  isPrivate := true
  path := p.file.map ("/" ++ ·)

/-- Joins a region to the one that follows, if they are alike and touch. -/
def join (r : Region) : List Region → List Region
  | [] => [r]
  | next :: rest =>
    if r.stop = next.start ∧ r.protection = next.protection ∧ r.path = next.path then
      { r with stop := next.stop } :: rest
    else r :: next :: rest

end Region

/-! ## The map -/

/-- The regions of a memory, by address. -/
def Memory.regions (m : Memory) : List Region :=
  (m.pages.map Region.ofPage).foldr Region.join []

namespace Region

/-- How many bytes from `start` on are known to be readable. Looks no further once `guess`
bytes are known, but counts the last region whole. -/
def readableLength (regions : List Region) (start guess : Nat) : Nat :=
  if 0 < guess then
    match _h : regions.find? (·.contains start) with
    | none => 0
    | some r =>
      if r.protection.read then
        (r.stop - start) + readableLength regions r.stop (guess - (r.stop - start))
      else 0
  else 0
termination_by guess
decreasing_by
  have := List.find?_some _h
  simp only [contains, Bool.and_eq_true, decide_eq_true_eq] at this
  omega

/-! ## Modules -/

end Region

/-- A file that is mapped, from the start of its lowest region to the end of its highest. -/
structure Module where
  path : String
  base : Nat
  size : Nat
deriving DecidableEq

namespace Module

/-- The names on the way from the root to a file. Paths that differ in nothing but repeated
slashes, a last slash, or dots in the place of names, lead to one file. -/
def pathNames (path : String) : List (List Char) :=
  (path.toList.splitOn '/').filter fun name => name ≠ [] ∧ name ≠ ['.']

/-- Adds a region to the module of its file, which keeps the path that it was first seen by. -/
def addRegion (path : String) (r : Region) : List Module → List Module
  | [] => [⟨path, r.start, r.stop - r.start⟩]
  | m :: rest =>
    if pathNames m.path = pathNames path then
      let stop := max (m.base + m.size) r.stop
      let base := min m.base r.start
      ⟨m.path, base, stop - base⟩ :: rest
    else m :: addRegion path r rest

/-- The modules that regions make up, in the order in which their files first appear. -/
def ofRegions (regions : List Region) : List Module :=
  regions.foldl (fun modules r =>
    match r.path with
    | some path => addRegion path r modules
    | none => modules) []

end Module

end Detouring
