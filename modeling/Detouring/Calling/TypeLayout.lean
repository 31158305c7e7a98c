-- Types as far as calling conventions care: how large a value is, how it is aligned, and what
-- fields a value type has.
import Detouring.Word

namespace Detouring

inductive Primitive where
  | bool | i8 | u8 | i16 | u16 | char | i32 | u32 | i64 | u64 | isize | usize | f32 | f64
deriving DecidableEq

namespace Primitive

def size : Primitive → Nat
  | bool | i8 | u8 => 1
  | i16 | u16 | char => 2
  | i32 | u32 | f32 => 4
  | i64 | u64 | f64 | isize | usize => 8

def isFloat : Primitive → Bool
  | f32 | f64 => true
  | _ => false

end Primitive

/-- The structure of a type. -/
inductive TypeLayout where
  /-- No value. -/
  | void
  /-- A reference to an object of the runtime. -/
  | reference
  | pointer
  /-- A parameter passed by reference. -/
  | byRef
  | primitive (p : Primitive)
  /-- A value type with its fields in order. -/
  | struct (size align : Nat) (fields : List TypeLayout)

namespace TypeLayout

/-- The size of a value in bytes. -/
def size : TypeLayout → Nat
  | void => 0
  | reference | pointer | byRef => 8
  | primitive p => p.size
  | struct size _ _ => size

/-- The alignment of a value in bytes. -/
def align : TypeLayout → Nat
  | void => 1
  | struct _ align _ => align
  | other => max other.size 1

/-- The end and the alignment of the fields placed one after the other, each at the next
multiple of its alignment. -/
def placeFields (fields : List TypeLayout) : Nat × Nat :=
  fields.foldl (fun (size, align) f => (roundUp size f.align + f.size, max align f.align)) (0, 1)

/-- A value type with its fields in order and natural alignment. Without fields it takes one
byte. -/
def ofFields (fields : List TypeLayout) : TypeLayout :=
  let (size, align) := placeFields fields
  struct (max (roundUp size align) 1) align fields

/-- A type inside `depth` value types of a single field. -/
def nest : (depth : Nat) → TypeLayout → TypeLayout
  | 0, t => t
  | depth + 1, t => ofFields [nest depth t]

/-- `true` for a value type. -/
def isStruct : TypeLayout → Bool
  | struct _ _ _ => true
  | _ => false

/-- `true` for a floating-point number; a value type never counts as one. -/
def isFloat : TypeLayout → Bool
  | primitive p => p.isFloat
  | _ => false

/-- The fields of a value type, or the type itself. -/
def parts : TypeLayout → List TypeLayout
  | struct _ _ fields => fields
  | t => [t]

end TypeLayout

end Detouring
