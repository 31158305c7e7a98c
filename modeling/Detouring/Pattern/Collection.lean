-- A collection of patterns that is searched in one pass. Patterns are grouped by the offset of
-- their first literal, and a group is asked only where the first byte of a member's literal
-- stands. Patterns whose first literal has no fixed offset are tried after all others.
import Detouring.Pattern.Matching

namespace Detouring

/-- A pattern with its position in the list it was given in. -/
structure Entry where
  index : Nat
  pattern : Pattern

/-- What a search over a collection found. -/
structure Hit where
  entry : Entry
  found : Match

/-- The patterns whose first literal stands at one offset, each with that literal's first
byte. -/
structure LiteralGroup where
  offset : Nat
  members : List (UInt8 × Entry)

namespace LiteralGroup

def minLength (g : LiteralGroup) : Option Nat :=
  (g.members.map fun (_, e) => e.pattern.minLength).min?

/-- `true` if data of this length is too short for every member. -/
def tooShort (g : LiteralGroup) (length : Nat) : Bool :=
  match g.minLength with
  | some least => length < least
  | none => true

/-- The members whose literal begins with the byte, in the order they were given. -/
def candidates (g : LiteralGroup) (first : UInt8) : List Entry :=
  g.members.filterMap fun (b, e) => if b = first then some e else none

/-- Adds a member to the group of its offset, keeping the groups in order of offset. -/
def insert (offset : Nat) (first : UInt8) (e : Entry) : List LiteralGroup → List LiteralGroup
  | [] => [⟨offset, [(first, e)]⟩]
  | g :: rest =>
    if offset < g.offset then ⟨offset, [(first, e)]⟩ :: g :: rest
    else if offset = g.offset then ⟨offset, g.members ++ [(first, e)]⟩ :: rest
    else g :: insert offset first e rest

end LiteralGroup

/-- Patterns, and the groups that index them. -/
structure PatternCollection where
  entries : List Entry
  groups : List LiteralGroup
  /-- The patterns that no group holds. -/
  unindexed : List Entry

namespace PatternCollection

/-- The place and first byte by which a pattern is indexed. -/
def indexKey (p : Pattern) : Option (Nat × UInt8) :=
  match Pattern.fixedLiteral p.segments with
  | some (first :: _, offset) => some (offset, first)
  | _ => none

def add (c : PatternCollection) (e : Entry) : PatternCollection :=
  match indexKey e.pattern with
  | some (offset, first) =>
    { c with
      entries := c.entries ++ [e]
      groups := LiteralGroup.insert offset first e c.groups }
  | none =>
    { c with
      entries := c.entries ++ [e]
      unindexed := c.unindexed ++ [e] }

def ofList (patterns : List Pattern) : PatternCollection :=
  (patterns.mapIdx fun index pattern => Entry.mk index pattern).foldl add ⟨[], [], []⟩

/-! ## Sizes -/

def patterns (c : PatternCollection) : List Pattern := c.entries.map Entry.pattern

def size (c : PatternCollection) : Nat := c.entries.length

/-- The smallest length that some pattern can match. -/
def minLength (c : PatternCollection) : Nat :=
  ((c.patterns.map Pattern.minLength).min?).getD 0

/-- The largest minimum length; this many bytes give every pattern a chance. -/
def maxMinLength (c : PatternCollection) : Nat :=
  ((c.patterns.map Pattern.minLength).max?).getD 0

def maxAddressBytes (c : PatternCollection) : Nat :=
  ((c.patterns.map Pattern.addressBytes).max?).getD 0

/-! ## Matching -/

/-- The first of the entries that matches at the start of the data. -/
def firstMatch (entries : List Entry) (data : List UInt8) : Option Hit :=
  entries.findSome? fun e => (e.pattern.matchAt? data).map fun found => ⟨e, found⟩

/-- The first member of a group that matches at the start of the data. -/
def groupMatchAt (g : LiteralGroup) (data : List UInt8) : Option Hit :=
  if data.length ≤ g.offset ∨ g.tooShort data.length then none
  else
    match data[g.offset]? with
    | some first => firstMatch (g.candidates first) data
    | none => none

/-- Tries every pattern at the start of the data, the indexed ones first. -/
def matchAt? (c : PatternCollection) (data : List UInt8) : Option Hit :=
  if c.entries = [] ∨ data.length < c.minLength then none
  else
    (c.groups.findSome? fun g => groupMatchAt g data)
      <|> firstMatch c.unindexed data

/-- `true` if some indexed literal begins with the byte. -/
def mayBegin (c : PatternCollection) (b : UInt8) : Bool :=
  c.groups.any fun g => g.members.any fun (first, _) => first == b

/-- The first member of a group that matches with its literal at `offset`. Anchored patterns
match only at the start of the data. -/
def groupMatchAround (g : LiteralGroup) (data : List UInt8) (offset : Nat) (first : UInt8) :
    Option Hit :=
  if offset < g.offset then none
  else
    let start := offset - g.offset
    if g.tooShort (data.length - start) then none
    else
      let entries := (g.candidates first).filter fun e => start = 0 ∨ !e.pattern.anchored
      (firstMatch entries (data.drop start)).map fun hit =>
        { hit with found := { hit.found with offset := start } }

/-- Walks over the bytes from `offset` on and asks the groups at each byte that begins some
indexed literal. -/
def walk (c : PatternCollection) (data : List UInt8) :
    (rest : List UInt8) → (offset : Nat) → Option Hit
  | [], _ => none
  | b :: rest, offset =>
    (if c.mayBegin b then c.groups.findSome? fun g => groupMatchAround g data offset b
      else none)
      <|> walk c data rest (offset + 1)

/-- The first match among the indexed patterns, or else the first pattern of the others that
matches somewhere. -/
def find? (c : PatternCollection) (data : List UInt8) : Option Hit :=
  if c.entries = [] ∨ data.length < c.minLength then none
  else
    walk c data data 0
      <|> c.unindexed.findSome? fun e => (e.pattern.find? data).map fun found => ⟨e, found⟩

end PatternCollection

end Detouring
