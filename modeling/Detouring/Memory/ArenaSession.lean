-- A session with one arena over a ledger of pages. Blocks are kept under names; a block under
-- a name that is used again is freed once the new one exists.
import Detouring.Memory.Arena
import Detouring.Named

namespace Detouring

structure ArenaSession where
  arena : Arena PageLedger
  blocks : Named Block := []

inductive ArenaStep where
  | allocate (name : String) (request : BlockRequest) (window : Option Window)
  | free (name : String)
  /-- Writes zero bytes into a block. -/
  | write (name : String) (offset length : Nat)
  /-- Asks for the page that holds an address. -/
  | round (address : Nat)
  /-- Changes how many pages may still be mapped. -/
  | limit (pages : Option Nat)

inductive ArenaAnswer where
  | block (b : Block)
  | freed (wasThere : Bool)
  | written (length : Nat)
  | page (address : Nat)
  | done
  | failed (cause : Fault)

namespace ArenaSession

def allocate (s : ArenaSession) (name : String) (request : BlockRequest)
    (window : Option Window) : ArenaSession × ArenaAnswer × List Report :=
  let (result, arena, reports) :=
    match window with
    | none =>
      let (result, arena) := s.arena.allocate request
      (result, arena, [])
    | some w => s.arena.allocateNear w request
  match result with
  | .error e => ({ s with arena }, .failed e, reports)
  | .ok b =>
    let (arena, more) :=
      match s.blocks.get? name with
      | some old => arena.free old
      | none => (arena, [])
    ({ arena, blocks := s.blocks.put name b }, .block b, reports ++ more)

def free (s : ArenaSession) (name : String) : ArenaSession × ArenaAnswer × List Report :=
  match s.blocks.get? name with
  | none => (s, .freed false, [])
  | some b =>
    let (arena, reports) := s.arena.free b
    ({ arena, blocks := s.blocks.erase name }, .freed true, reports)

def step (s : ArenaSession) : ArenaStep → ArenaSession × ArenaAnswer × List Report
  | .allocate name request window => s.allocate name request window
  | .free name => s.free name
  | .write name offset length =>
    match s.blocks.get? name with
    | none => (s, .written 0, [])
    | some b =>
      match b.checkWrite offset length with
      | .error e => (s, .failed e, [])
      | .ok () => (s, .written length, [])
  | .round address => (s, .page (s.arena.roundToPage address), [])
  | .limit pages =>
    let source := { s.arena.source with limit := pages }
    ({ s with arena := { s.arena with source } }, .done, [])

/-- Frees all blocks, in the order of their names. -/
def finish (s : ArenaSession) : ArenaSession × List Report :=
  (s.blocks.mergeSort fun x y => x.1 ≤ y.1).foldl (fun (s, reports) (name, _) =>
    let (s, _, more) := s.free name
    (s, reports ++ more)) (s, [])

end ArenaSession

end Detouring
