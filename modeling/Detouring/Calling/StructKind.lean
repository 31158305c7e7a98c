-- The kinds of small types that calling conventions tell apart, and classification by sets of
-- kinds that were seen in registers. The set of a known convention is found by asking it about
-- one type of each kind.
import Detouring.Calling.Convention

namespace Detouring

/-- Fields that make a struct homogeneous. -/
inductive FieldFamily where
  | float | double | int | long | byte | short
deriving DecidableEq

/-- The kind of a type. -/
inductive StructKind where
  /-- One to four fields of one family. -/
  | homogeneous (family : FieldFamily) (count : Nat)
  /-- A size of 3, 5, 6, 7 or 9 bytes. -/
  | oddSize (size : Nat)
  /-- Any other type of one to sixteen bytes. -/
  | sized (size : Nat)
  /-- A struct of one byte without fields. -/
  | empty
deriving DecidableEq

namespace FieldFamily

/-- The family of a field. Booleans, characters and value types have none. -/
def of? : TypeLayout → Option FieldFamily
  | .reference | .pointer | .byRef => some long
  | .primitive .f32 => some float
  | .primitive .f64 => some double
  | .primitive .i32 | .primitive .u32 => some int
  | .primitive .i64 | .primitive .u64 | .primitive .isize | .primitive .usize => some long
  | .primitive .i8 | .primitive .u8 => some byte
  | .primitive .i16 | .primitive .u16 => some short
  | _ => none

/-- The position of a family's first kind in a set. -/
def position : FieldFamily → Nat
  | float => 0
  | double => 4
  | int => 8
  | long => 12
  | byte => 16
  | short => 20

/-- The field that stands for its family. -/
def field : FieldFamily → TypeLayout
  | float => .primitive .f32
  | double => .primitive .f64
  | int => .primitive .i32
  | long => .primitive .i64
  | byte => .primitive .u8
  | short => .primitive .i16

end FieldFamily

namespace StructKind

def oddSizes : List Nat := [3, 5, 6, 7, 9]

/-- The position of a kind in a set. -/
def position : StructKind → Nat
  | homogeneous family count => family.position + (count - 1)
  | oddSize size => 24 + oddSizes.idxOf size
  | sized size => 32 + (size - 1)
  | empty => 63

/-- Every kind. -/
def all : List StructKind :=
  ([FieldFamily.float, .double, .int, .long, .byte, .short].flatMap fun family =>
      [1, 2, 3, 4].map (homogeneous family))
    ++ oddSizes.map oddSize
    ++ (List.range 16).map (fun i => sized (i + 1))
    ++ [empty]

/-- The kind of a type that has only its size to go by. -/
def ofSize? (size : Nat) : Option StructKind :=
  if 1 ≤ size ∧ size ≤ 16 then some (sized size) else none

/-- The kind of a type with these parts. Odd sizes are checked before the fields. -/
def ofParts? (size : Nat) (parts : List TypeLayout) : Option StructKind :=
  if size ∈ oddSizes then some (oddSize size)
  else if 4 < parts.length then ofSize? size
  else
    match parts with
    | [] => ofSize? size
    | first :: rest =>
      match FieldFamily.of? first with
      | none => ofSize? size
      | some family =>
        if rest.all (fun f => FieldFamily.of? f == some family) then
          some (homogeneous family parts.length)
        else ofSize? size

/-- The kind of a type. A struct whose only field is a struct has the kind of that field; large
types have none. -/
def of? : TypeLayout → Option StructKind
  | .void => none
  | .struct _ _ [.struct size align fields] => of? (.struct size align fields)
  | .struct size _ [] => if size = 1 then some empty else ofSize? size
  | .struct size _ fields => ofParts? size fields
  | t => ofParts? t.size [t]

/-- A type of the kind. -/
def representative : StructKind → TypeLayout
  | homogeneous family count => .ofFields (List.replicate count family.field)
  | oddSize size => .ofFields (List.replicate size (.primitive .u8))
  | sized 1 => .ofFields [.primitive .bool]
  | sized size => .struct size 1 []
  | empty => .ofFields []

/-- No two kinds share a position. -/
theorem nodup_position : (all.map position).Nodup := by decide

end StructKind

/-! ## Sets of kinds -/

/-- A set of kinds, one bit for each. -/
abbrev KindSet := Nat

namespace KindSet

def contains (s : KindSet) (k : StructKind) : Bool := s.testBit k.position

def insert (s : KindSet) (k : StructKind) : KindSet := s ||| (1 <<< k.position)

end KindSet

/-- The kinds that a convention keeps in registers. -/
def Convention.registerKinds (c : Convention) (d : Direction) : KindSet :=
  (StructKind.all.filter fun k => c.classify k.representative d = .inRegister).foldl
    KindSet.insert 0

/-- Classification by the kinds seen in registers. -/
structure ObservedKinds where
  returned : KindSet
  passed : KindSet

namespace ObservedKinds

def seen (o : ObservedKinds) : Direction → KindSet
  | .argument => o.passed
  | .result => o.returned

/-- Types without a kind are too large for registers. -/
def classify (o : ObservedKinds) (t : TypeLayout) (d : Direction) : Passing :=
  match StructKind.of? t with
  | some k => if (o.seen d).contains k then .inRegister else d.inMemory
  | none => d.inMemory

/-- The kinds that a known convention keeps in registers, for both directions. -/
def ofConvention (c : Convention) : ObservedKinds where
  returned := c.registerKinds .result
  passed := c.registerKinds .argument

end ObservedKinds

end Detouring
