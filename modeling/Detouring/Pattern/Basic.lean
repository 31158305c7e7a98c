-- Byte patterns: a list of items that say what each byte must be, grouped into segments of
-- items of one sort. A pattern must ask for at least one byte, and captures at most eight
-- address bytes.
import Detouring.Pattern.AddressRule

namespace Detouring

/-! ## Items -/

/-- What a pattern asks of the bytes at one place. -/
inductive PatternItem where
  /-- One byte that is exactly this. -/
  | literal (value : UInt8)
  /-- One byte that agrees with `value` on the bits of `mask`. -/
  | masked (mask value : UInt8)
  /-- One byte of any value. -/
  | any
  /-- Any number of bytes of any value. -/
  | anyRepeating
  /-- One byte of any value that is captured. -/
  | address
deriving DecidableEq

/-- The sorts of items; a segment holds items of one sort. -/
inductive ItemSort where
  | literal
  | masked
  | any
  | anyRepeating
  | address
deriving DecidableEq

namespace PatternItem

def sort : PatternItem → ItemSort
  | literal _ => .literal
  | masked _ _ => .masked
  | any => .any
  | anyRepeating => .anyRepeating
  | address => .address

/-- How many bytes an item takes at least. -/
def minLength : PatternItem → Nat
  | anyRepeating => 0
  | _ => 1

/-- `true` if an item that takes one byte may take this one. -/
def accepts : PatternItem → UInt8 → Bool
  | literal value, b => value == b
  | masked mask value, b => (value ^^^ b) &&& mask == 0
  | any, _ => true
  | address, _ => true
  | anyRepeating, _ => false

/-- Reads an item from a mask byte and a value byte. A full mask makes a literal and an empty
one a special item. -/
def ofMask (mask value : UInt8) : Except Fault PatternItem :=
  if mask = 0 then
    if value = 0 then .ok any
    else if value = 1 then .ok anyRepeating
    else if value = 2 then .ok address
    else .error (.malformed (.unknownItem value.toNat))
  else if mask = 0xff then .ok (literal value)
  else .ok (masked mask value)

/-- Reads an item from 16 bits. The high byte is zero for a literal, `ff` for a special item,
and a mask otherwise. -/
def ofCode (code : UInt16) : Except Fault PatternItem :=
  let high := (code >>> 8).toUInt8
  let low := code.toUInt8
  if high = 0 then ofMask 0xff low
  else if high = 0xff then ofMask 0 low
  else ofMask high (low &&& high)

end PatternItem

/-! ## Segments -/

/-- A run of items of one sort. -/
structure Segment where
  sort : ItemSort
  items : List PatternItem
deriving DecidableEq

namespace Segment

def length (s : Segment) : Nat := s.items.length

/-- Lets a single `any` segment that follows an any-repeating one go in front of it. The newest
segment comes first. -/
def settle : List Segment → List Segment
  | last :: previous :: rest =>
    if last.sort = .any ∧ previous.sort = .anyRepeating then previous :: last :: rest
    else last :: previous :: rest
  | segments => segments

/-- Adds one item to the segments so far, the newest first. Any-repeating items in front of all
others are dropped. -/
def addItem (newestFirst : List Segment) (item : PatternItem) : List Segment :=
  match newestFirst with
  | [] => if item.sort = .anyRepeating then [] else [⟨item.sort, [item]⟩]
  | last :: rest =>
    if last.sort = item.sort then ⟨last.sort, last.items ++ [item]⟩ :: rest
    else ⟨item.sort, [item]⟩ :: settle (last :: rest)

/-- Drops an any-repeating segment at the end. -/
def dropTrailing : List Segment → List Segment
  | last :: rest => if last.sort = .anyRepeating then rest else last :: rest
  | [] => []

/-- The segments of a list of items, in order. -/
def ofItems (items : List PatternItem) : List Segment :=
  (dropTrailing (settle (items.foldl addItem []))).reverse

end Segment

/-! ## Patterns -/

/-- A byte pattern that is ready to be matched. -/
structure Pattern where
  items : List PatternItem
  segments : List Segment
  rule : AddressRule
  /-- An anchored pattern matches only at the start of the data. -/
  anchored : Bool

namespace Pattern

/-- The fewest bytes a match covers. -/
def minLength (p : Pattern) : Nat := sumOf PatternItem.minLength p.items

/-- How many address bytes a match captures. -/
def addressBytes (p : Pattern) : Nat := p.items.countP (·.sort = .address)

/-- The same pattern, matching only at the start. -/
def anchor (p : Pattern) : Pattern := { p with anchored := true }

/-- Accepts a list of items that asks for at least one byte. -/
def ofItems (rule : AddressRule) (anchored : Bool) (items : List PatternItem) :
    Except Fault Pattern :=
  let p : Pattern := { items, segments := Segment.ofItems items, rule, anchored }
  if items = [] then .error (.malformed .empty)
  else if addressCapacity < p.addressBytes then
    .error (.malformed (.tooManyAddressBytes p.addressBytes))
  else if p.segments = [] ∨ p.minLength = 0 then .error (.malformed .noMeaningfulSegment)
  else .ok p

/-- A pattern from items of 16 bits each. -/
def ofCodes (rule : AddressRule) (anchored : Bool) (codes : List UInt16) :
    Except Fault Pattern := do
  ofItems rule anchored (← codes.mapM PatternItem.ofCode)

/-- A pattern from mask bytes and value bytes side by side. Surplus mask bytes are left. -/
def ofMask (rule : AddressRule) (anchored : Bool) (mask values : List UInt8) :
    Except Fault Pattern := do
  if mask.length < values.length then throw (.malformed .shortMask)
  ofItems rule anchored (← (mask.zip values).mapM fun (m, v) => PatternItem.ofMask m v)

/-- The bytes that a segment of literals asks for. -/
def literalBytes (s : Segment) : List UInt8 :=
  s.items.filterMap fun
    | .literal value => some value
    | _ => none

/-- The first literal segment among the given ones, and how many bytes the other segments in
front of it take. Any-repeating segments count for nothing. -/
def nextLiteral : List Segment → List UInt8 × Nat
  | [] => ([], 0)
  | s :: rest =>
    match s.sort with
    | .literal => (literalBytes s, 0)
    | .anyRepeating => nextLiteral rest
    | _ =>
      let (bytes, offset) := nextLiteral rest
      (bytes, offset + s.length)

def firstLiteral (p : Pattern) : List UInt8 × Nat := nextLiteral p.segments

/-- The first literal segment, if it stands at the same offset in every match. -/
def fixedLiteral : List Segment → Option (List UInt8 × Nat)
  | [] => none
  | s :: rest =>
    match s.sort with
    | .literal => some (literalBytes s, 0)
    | .anyRepeating => none
    | _ => (fixedLiteral rest).map fun (bytes, offset) => (bytes, offset + s.length)

end Pattern

end Detouring
