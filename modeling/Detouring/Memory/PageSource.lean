-- Where an arena gets its pages from. A source maps pages at a place of its own choice or at a
-- given one, and takes them back; it knows which pages are mapped by anybody.
import Detouring.Fault

namespace Detouring

class PageSource (σ : Type) where
  /-- The size of a page, a power of two. -/
  pageSize : σ → Nat
  /-- Maps a page somewhere. -/
  mapPage : σ → (executable : Bool) → Except Fault Nat × σ
  /-- Maps the page at an address where nothing is mapped. -/
  mapPageAt : σ → (address : Nat) → (executable : Bool) → Except Fault Nat × σ
  isMapped : σ → (address : Nat) → Bool
  unmapPage : σ → (address : Nat) → Except Fault Unit × σ

/-- A source that only keeps the numbers of its pages. -/
structure PageLedger where
  pageSize : Nat
  /-- The pages that are mapped, in order. -/
  mapped : List Nat
  /-- The page that is mapped next; each is given out once. -/
  next : Nat
  /-- Pages that cannot be mapped. -/
  denied : List Nat
  /-- How many pages may still be mapped. -/
  limit : Option Nat
  /-- No page is taken back. -/
  keepsPages : Bool

namespace PageLedger

/-- Counts one page against a limit. -/
def spend (limit : Option Nat) : Except Fault (Option Nat) :=
  match limit with
  | none => .ok none
  | some 0 => .error (.allocation .pageLimitReached)
  | some (n + 1) => .ok (some n)

/-- Adds a page in order; a page that is there is not added again. -/
def insert (page : Nat) (pages : List Nat) : List Nat :=
  if page ∈ pages then pages
  else pages.takeWhile (· < page) ++ page :: pages.dropWhile (· < page)

def mapPage (s : PageLedger) : Except Fault Nat × PageLedger :=
  match spend s.limit with
  | .error e => (.error e, s)
  | .ok limit =>
    (.ok s.next,
      { s with limit, next := s.next + s.pageSize, mapped := insert s.next s.mapped })

def mapPageAt (s : PageLedger) (address : Nat) : Except Fault Nat × PageLedger :=
  match spend s.limit with
  | .error e => (.error e, s)
  | .ok limit =>
    if address ∈ s.denied ∨ address ∈ s.mapped then
      (.error (.allocation (.pageTaken address)), { s with limit })
    else (.ok address, { s with limit, mapped := insert address s.mapped })

def unmapPage (s : PageLedger) (address : Nat) : Except Fault Unit × PageLedger :=
  if s.keepsPages then (.error (.allocation (.unmapRefused address)), s)
  else (.ok (), { s with mapped := s.mapped.filter (· != address) })

instance : PageSource PageLedger where
  pageSize s := s.pageSize
  mapPage s _ := s.mapPage
  mapPageAt s address _ := s.mapPageAt address
  isMapped s address := s.mapped.contains address
  unmapPage := PageLedger.unmapPage

end PageLedger

end Detouring
