-- A process as the source of pages for an arena. Pages without a wish come from one place, one
-- after the other; that place is never used twice.
import Detouring.Memory.Basic
import Detouring.Memory.PageSource

namespace Detouring

structure PageSupply where
  memory : Memory := {}
  /-- The place of the next page that may lie anywhere. -/
  next : Nat
  /-- How many pages may still be mapped. -/
  limit : Option Nat := none

namespace PageSupply

/-- Pages with code are executable all the time, so that they can be written where they run. -/
def protectionFor (executable : Bool) : Protection :=
  if executable then .readWriteExecute else .readWrite

/-- Maps a page of zeros, unless something is there. -/
def place (s : PageSupply) (address : Nat) (executable : Bool) :
    Except Fault Nat × PageSupply :=
  if s.memory.isMapped address then (.error (.allocation (.placementRefused address)), s)
  else (.ok address, { s with memory := s.memory.map address (protectionFor executable) none })

/-- Maps the page at an address. -/
def mapPageAt (s : PageSupply) (address : Nat) (executable : Bool) :
    Except Fault Nat × PageSupply :=
  match PageLedger.spend s.limit with
  | .error e => (.error e, s)
  | .ok limit => { s with limit }.place address executable

/-- Maps the next page. Its place is used up even if nothing is mapped there. -/
def mapPage (s : PageSupply) (executable : Bool) : Except Fault Nat × PageSupply :=
  { s with next := s.next + pageSize }.mapPageAt s.next executable

instance : PageSource PageSupply where
  pageSize _ := Detouring.pageSize
  mapPage := mapPage
  mapPageAt := mapPageAt
  isMapped s address := s.memory.isMapped address
  unmapPage s address := (.ok (), { s with memory := s.memory.unmap address })

end PageSupply

end Detouring
