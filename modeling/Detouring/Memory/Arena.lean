-- An arena hands out small blocks of whole pages that it gets from a source. Blocks are taken
-- from the first page with room; a block that has to be near an address comes from the nearest
-- page, or from a fresh page as near as possible. A page without blocks goes back.
import Detouring.Memory.FreeList
import Detouring.Memory.PageSource
import Detouring.Report

namespace Detouring

/-! ## Requests and blocks -/

structure BlockRequest where
  size : Nat
  align : Nat := 8
  executable : Bool := false
deriving DecidableEq

/-- Where a block may lie: as near to `target` as possible, between `low` and `high`. -/
structure Window where
  target : Nat
  low : Nat
  high : Nat
deriving DecidableEq

/-- A block that was handed out. -/
structure Block where
  base : Nat
  size : Nat
  executable : Bool
  /-- The number of the page that the block belongs to. -/
  page : Nat
deriving DecidableEq

/-- Writing inside a block is all that is allowed. -/
def Block.checkWrite (b : Block) (offset length : Nat) : Except Fault Unit :=
  if b.size < offset + length then .error (.argument (.writeOutside length offset b.size))
  else .ok ()

/-! ## Pages -/

/-- A page that an arena holds. -/
structure ArenaPage where
  /-- Tells pages apart that a source mapped at one place. -/
  number : Nat
  base : Nat
  size : Nat
  executable : Bool
  free : FreeList
deriving DecidableEq

namespace ArenaPage

/-- `true` if the page has no blocks. -/
def isEmpty (p : ArenaPage) : Bool := p.free == [⟨0, p.size⟩]

/-- Takes a block out of the page. -/
def take (p : ArenaPage) (r : BlockRequest) : Option (Block × ArenaPage) :=
  (p.free.take p.base r.size r.align).map fun (offset, free) =>
    (⟨p.base + offset, r.size, p.executable, p.number⟩, { p with free })

/-- Puts a block back. -/
def giveBack (p : ArenaPage) (b : Block) : ArenaPage :=
  { p with free := p.free.giveBack (b.base - p.base) b.size }

end ArenaPage

/-! ## Arenas -/

structure Arena (σ : Type) where
  source : σ
  /-- The pages held, by address. -/
  pages : List ArenaPage := []
  /-- The number of the next page. -/
  nextNumber : Nat := 0

namespace Arena

variable {σ : Type} [PageSource σ]

def pageSize (a : Arena σ) : Nat := PageSource.pageSize a.source

/-- The largest block there is. -/
def maxSize (a : Arena σ) : Nat := a.pageSize

def roundToPage (a : Arena σ) (address : Nat) : Nat := roundDown address a.pageSize

def pageCount (a : Arena σ) : Nat := a.pages.length

def setPage (a : Arena σ) (p : ArenaPage) : Arena σ :=
  { a with pages := a.pages.map fun q => if q.number = p.number then p else q }

/-- Holds a fresh page. -/
def addPage (a : Arena σ) (base : Nat) (executable : Bool) : ArenaPage × Arena σ :=
  let p : ArenaPage :=
    { number := a.nextNumber, base, size := a.pageSize, executable
      free := [⟨0, a.pageSize⟩] }
  (p, { a with
    pages := a.pages.takeWhile (·.base < base) ++ p :: a.pages.dropWhile (·.base < base)
    nextNumber := a.nextNumber + 1 })

/-- Gives an empty page back to the source. -/
def releasePage (a : Arena σ) (p : ArenaPage) : Arena σ × List Report :=
  let rest := { a with pages := a.pages.filter (·.number != p.number) }
  match PageSource.unmapPage rest.source p.base with
  | (.ok (), source) => ({ rest with source }, [])
  | (.error e, source) => ({ rest with source }, [.pageNotReleased p.base e])

/-- Takes a block back, and its page with it if that was the last one. -/
def free (a : Arena σ) (b : Block) : Arena σ × List Report :=
  match a.pages.find? (·.number == b.page) with
  | none => (a, [])
  | some p =>
    let p := p.giveBack b
    let a := a.setPage p
    if p.isEmpty then a.releasePage p else (a, [])

/-! ## Anywhere -/

/-- Refuses requests that no page could meet. -/
def validate (a : Arena σ) (r : BlockRequest) : Except Fault Unit :=
  if r.size = 0 then .error (.argument .zeroSize)
  else if ¬ r.align.isPowerOfTwo then .error (.argument (.alignment r.align))
  else if a.pageSize < r.size then .error (.allocation (.largerThanPage r.size a.pageSize))
  else .ok ()

/-- A block from the first page with room. -/
def takeAnywhere (a : Arena σ) (r : BlockRequest) : Option (Block × Arena σ) :=
  (a.pages.findSome? fun p => if p.executable = r.executable then p.take r else none).map
    fun (b, p) => (b, a.setPage p)

/-- Hands out a block. -/
def allocate (a : Arena σ) (r : BlockRequest) : Except Fault Block × Arena σ :=
  match a.validate r with
  | .error e => (.error e, a)
  | .ok () =>
    match a.takeAnywhere r with
    | some (b, a) => (.ok b, a)
    | none =>
      match PageSource.mapPage a.source r.executable with
      | (.error e, source) => (.error e, { a with source })
      | (.ok base, source) =>
        let (p, a) := { a with source }.addPage base r.executable
        match p.take r with
        | some (b, p) => (.ok b, a.setPage p)
        | none => (.error (.allocation (.freshPageTooSmall r.size r.align)), a)

/-! ## Near an address -/

/-- Takes a block out of a page and puts it back if it lies outside the window. -/
def takeWithin (a : Arena σ) (p : ArenaPage) (w : Window) (r : BlockRequest) :
    Option Block × Arena σ :=
  if p.executable ≠ r.executable ∨ p.base < w.low ∨ w.high < p.base then (none, a)
  else
    match p.take r with
    | none => (none, a)
    | some (b, p) =>
      if b.base < w.low ∨ w.high < b.base + r.size then (none, a.setPage (p.giveBack b))
      else (some b, a.setPage p)

/-- The first block that one of the pages has within the window. -/
def takeFirstWithin (a : Arena σ) (w : Window) (r : BlockRequest) :
    List ArenaPage → Option Block × Arena σ
  | [] => (none, a)
  | p :: rest =>
    match a.takeWithin p w r with
    | (some b, a) => (some b, a)
    | (none, a) => takeFirstWithin a w r rest

/-- How far two addresses are apart. -/
def distance (a b : Nat) : Nat := (a - b) + (b - a)

/-- The lowest page start in a window. -/
def lowPage (a : Arena σ) (w : Window) : Nat :=
  a.roundToPage (clampedAdd w.low (a.pageSize - 1))

/-- The highest page start in a window. -/
def highPage (a : Arena σ) (w : Window) : Nat := a.roundToPage w.high

/-- The pages held inside a window, the nearest to the target first. -/
def nearestPages (a : Arena σ) (w : Window) : List ArenaPage :=
  (a.pages.filter fun p => a.lowPage w ≤ p.base && p.base ≤ a.highPage w).mergeSort
    fun p q => distance p.base w.target ≤ distance q.base w.target

/-- Looks for an unmapped page, alternating upward from `target` and downward from the page
before it, `steps` pages away in round `steps`. -/
def searchFree (isMapped : Nat → Bool) (pageSize target low high : Nat) :
    (rounds steps : Nat) → Option Nat
  | 0, _ => none
  | rounds + 1, steps =>
    let up := target + steps * pageSize
    let down := target - (steps + 1) * pageSize
    let upward := up ≤ high && !isMapped up
    let downward := (steps + 1) * pageSize ≤ target && low ≤ down && !isMapped down
    if upward then some up
    else if downward then some down
    else searchFree isMapped pageSize target low high rounds (steps + 1)

/-- The unmapped page nearest to the target of a window. -/
def freePage (a : Arena σ) (w : Window) : Option Nat :=
  let target := a.roundToPage w.target
  let rounds := (a.highPage w - target) / a.pageSize + (target - a.lowPage w) / a.pageSize + 1
  searchFree (PageSource.isMapped a.source) a.pageSize target (a.lowPage w) (a.highPage w)
    rounds 0

/-- Hands out a block within a window. -/
def allocateNear (a : Arena σ) (w : Window) (r : BlockRequest) :
    Except Fault Block × Arena σ × List Report :=
  if w.target < w.low ∨ w.high < w.target then
    (.error (.argument (.targetOutside w.target w.low w.high)), a, [])
  else
    match a.validate r with
    | .error e => (.error e, a, [])
    | .ok () =>
      match a.takeFirstWithin w r (a.nearestPages w) with
      | (some b, a) => (.ok b, a, [])
      | (none, a) =>
        match a.freePage w with
        | none => (.error (.allocation (.noFreePage w.low w.high)), a, [])
        | some page =>
          match PageSource.mapPageAt a.source page r.executable with
          | (.error e, source) => (.error e, { a with source }, [])
          | (.ok base, source) =>
            let (p, a) := { a with source }.addPage base r.executable
            match a.takeWithin p w r with
            | (some b, a) => (.ok b, a, [])
            | (none, a) =>
              let (a, reports) := a.releasePage p
              (.error (.allocation (.pageOutOfRange base w.low w.high)), a, reports)

end Arena

end Detouring
