-- Matching a pattern against data, left to right. An any-repeating segment looks for the next
-- literal and goes on from each place it finds, one byte further after each failure. Every
-- access to the data and to the capture buffer is checked; an access outside is an overrun.
import Detouring.Pattern.Basic

namespace Detouring

/-- A place where a pattern matches: where it begins, how many bytes it covers, and the
captured bytes as one number. -/
structure Match where
  offset : Nat
  length : Nat
  captured : Nat
deriving DecidableEq

/-- An access outside the bytes at hand. -/
inductive Overrun where
  | data (start length : Nat)
  | capture (start length : Nat)
deriving DecidableEq

namespace Pattern

/-! ## Checked access -/

/-- The captured bytes; an attempt that fails leaves behind what it wrote. -/
abbrev CaptureBuffer := List UInt8

def emptyBuffer : CaptureBuffer := List.replicate addressCapacity 0

abbrev MatchM := StateT CaptureBuffer (Except Overrun)

/-- `length` bytes of the data from `start` on. -/
def window (data : List UInt8) (start length : Nat) : MatchM (List UInt8) :=
  if start + length ≤ data.length then pure ((data.drop start).take length)
  else throw (.data start length)

/-- All of the data from `start` on. -/
def suffix (data : List UInt8) (start : Nat) : MatchM (List UInt8) :=
  if start ≤ data.length then pure (data.drop start)
  else throw (.data start 0)

/-- Puts bytes into the buffer from `start` on. -/
def capture (start : Nat) (bytes : List UInt8) : MatchM Unit := do
  let buffer ← get
  if start + bytes.length ≤ buffer.length then
    set (buffer.take start ++ bytes ++ buffer.drop (start + bytes.length))
  else throw (.capture start bytes.length)

/-! ## Attempts -/

/-- `true` if the items of a segment take these bytes. -/
def itemsAccept (items : List PatternItem) (bytes : List UInt8) : Bool :=
  (items.zip bytes).all fun (item, b) => item.accepts b

/-- Tries `attempt` at each place of `data` where `literal` stands `lead` bytes further, and
gives the first success with its place. `haystack` is the data from `lead + offset` on. -/
def scan (attempt : List UInt8 → MatchM (Option Nat)) (literal data : List UInt8) :
    (haystack : List UInt8) → (offset : Nat) → MatchM (Option (Nat × Nat))
  | haystack, offset => do
    let found ←
      if literal.isPrefixOf haystack then attempt (← suffix data offset)
      else pure none
    match found, haystack with
    | some length, _ => pure (some (offset, length))
    | none, [] => pure none
    | none, _ :: rest => scan attempt literal data rest (offset + 1)

/-- Looks in `data` for a place where the segments match, guided by their next literal. -/
def search (attempt : List UInt8 → MatchM (Option Nat)) (segments : List Segment)
    (data : List UInt8) : MatchM (Option (Nat × Nat)) := do
  let (literal, lead) := nextLiteral segments
  if data.length < lead + literal.length then return none
  scan attempt literal data (← suffix data lead) 0

/-- Matches the segments at the start of `data`, of which `pos` bytes are already taken, and
gives the number of bytes taken in all. `captured` address bytes are already in the buffer. -/
def matchFrom : List Segment → (data : List UInt8) → (pos captured : Nat) → MatchM (Option Nat)
  | [], _, pos, _ => pure (some pos)
  | s :: rest, data, pos, captured => do
    if s.sort = .anyRepeating then
      let tail ← suffix data pos
      match ← search (fun d => matchFrom rest d 0 captured) rest tail with
      | some (offset, length) => return some (pos + offset + length)
      | none => return none
    else
      if data.length < pos then throw (.data pos s.length)
      if data.length - pos < s.length then return none
      if s.sort = .any then
        matchFrom rest data (pos + s.length) captured
      else
        let bytes ← window data pos s.length
        if s.sort = .address then
          capture captured bytes
          matchFrom rest data (pos + s.length) (captured + s.length)
        else if itemsAccept s.items bytes then
          matchFrom rest data (pos + s.length) captured
        else return none

/-! ## Matching -/

/-- One attempt at the start of the data, with a fresh buffer. -/
def attemptAt (p : Pattern) (data : List UInt8) : Except Overrun (Option Match) := do
  if data.length < p.minLength then return none
  let (length?, buffer) ← (matchFrom p.segments data 0 0).run emptyBuffer
  return length?.map fun length => { offset := 0, length, captured := ofLeBytes buffer }

/-- The first match in the data, or the one at its start for an anchored pattern. -/
def attemptFind (p : Pattern) (data : List UInt8) : Except Overrun (Option Match) := do
  if p.anchored then p.attemptAt data
  else
    if data.length < p.minLength then return none
    let (place?, buffer) ←
      (search (fun d => matchFrom p.segments d 0 0) p.segments data).run emptyBuffer
    return place?.map fun (offset, length) => { offset, length, captured := ofLeBytes buffer }

/-- What an attempt found, if it stayed inside its bytes. -/
def settled (attempt : Except Overrun (Option Match)) : Option Match :=
  match attempt with
  | .ok found => found
  | .error _ => none

/-- The match at the start of the data, if there is one. -/
def matchAt? (p : Pattern) (data : List UInt8) : Option Match := settled (p.attemptAt data)

/-- The first match anywhere in the data; an anchored pattern matches at the start only. -/
def find? (p : Pattern) (data : List UInt8) : Option Match := settled (p.attemptFind data)

end Pattern

end Detouring
