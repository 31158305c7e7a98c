-- Laying out instructions at another place. Every instruction that names an address starts with
-- its longest form; passes over the block shorten those whose targets turn out to be near
-- enough. Targets outside the block stay where they are, targets inside it move along.
import Detouring.Fault
import Detouring.Relocation.Instruction

namespace Detouring.Relocation

/-! ## What is laid out -/

/-- An instruction on its way to another place, or data between instructions. -/
structure Movable where
  /-- The address by which the block knows it. -/
  home : Nat
  bytes : List UInt8
  relation : Relation
deriving DecidableEq

namespace Movable

/-- The instruction to be moved, without prefixes that say nothing. What follows the prefixes stays
as far from the end. -/
def ofInstruction (i : Instruction) : Movable :=
  let bytes := Opcode.normalize i.namesData i.bytes
  let relation := match i.relation with
    | .data offset target => .data (bytes.length - (i.bytes.length - offset)) target
    | relation => relation
  ⟨i.address, bytes, relation⟩

end Movable

/-- How far an instruction reaches. -/
inductive Distance where
  /-- By a displacement of 8 bits. -/
  | short
  /-- By a displacement of 32 bits. -/
  | near
  /-- To data in the lowest 4 GiB, by addresses of 32 bits. -/
  | low
  /-- Through a pointer cell. Data cannot be reached so. -/
  | far
deriving DecidableEq

/-- The length of an instruction that keeps its bytes or is written for a distance. One that
names data has room for a prefix until it is known to need none. -/
def Movable.length (x : Movable) (d : Distance) : Nat :=
  match x.relation, d with
  | .none, _ => x.bytes.length
  | .data _ _, .low | .data _ _, .far => x.bytes.length + 1
  | .data _ _, _ => x.bytes.length
  | .jump size _, .short | .branch size _ _, .short => size.marks.length + 2
  | .jump _ _, .far | .call _ _, .far => 6
  | .branch _ _ _, .far => 8
  | .loop size narrow _ _, .short => size.marks.length + narrow.toNat + 2
  | .loop _ narrow _ _, .far => narrow.toNat + 10
  | .jump size _, _ | .call size _, _ => size.marks.length + 1 + size.width
  | .branch size _ _, _ => size.marks.length + 2 + size.width
  | .loop _ narrow _ _, _ => narrow.toNat + 9

/-- An instruction with the place and the distance it has so far. -/
structure Placed where
  item : Movable
  address : Nat
  distance : Distance := .far
  /-- The distance is final. -/
  settled : Bool
deriving DecidableEq

namespace Placed

def length (p : Placed) : Nat := p.item.length p.distance

def stop (p : Placed) : Nat := p.address + p.length

end Placed

/-! ## Targets -/

/-- The new address of the instruction that was known by an address. -/
def locate? (block : List Placed) (target : Nat) : Option Nat :=
  (block.find? (·.item.home == target)).map Placed.address

/-- Where a target is after the move. -/
def locate (block : List Placed) (target : Nat) : Nat := (locate? block target).getD target

/-- The displacement of a target from `next`. A target further on in the block comes nearer by
the bytes that were gained before it in this pass. -/
def expectedDisplacement (block : List Placed) (gained next target : Nat) : Int :=
  match locate? block target with
  | some address =>
    let d := wordDifference address next
    if 0 ≤ d then d - gained else d
  | none => wordDifference target next

/-! ## Passes -/

namespace Placed

/-- The best distance of a jump or branch. One that is much too far for a short form is not
looked at again. -/
def fitJump (p : Placed) (block : List Placed) (gained target : Nat) : Placed :=
  let toShort := expectedDisplacement block gained (p.address + p.item.length .short) target
  let toNear := expectedDisplacement block gained (p.address + p.item.length .near) target
  let inside := (locate? block target).isSome
  if fitsSigned8 toShort then { p with distance := .short, settled := true }
  else if inside || fitsSigned32 toNear then
    let d := if inside then toShort else toNear
    { p with distance := .near, settled := d < -(128 * 15) || 127 * 15 < d }
  else { p with distance := .far }

/-- The best distance of a call. -/
def fitCall (p : Placed) (block : List Placed) (gained target : Nat) : Placed :=
  let toNear := expectedDisplacement block gained (p.address + p.item.length .near) target
  if (locate? block target).isSome || fitsSigned32 toNear then
    { p with distance := .near, settled := true }
  else { p with distance := .far }

/-- The best form of an instruction that names data. One that reaches nothing yet is tried again
in the next pass. -/
def fitData (p : Placed) (block : List Placed) (gained target : Nat) : Placed :=
  let toNear := expectedDisplacement block gained (p.address + p.item.length .near) target
  if (locate? block target).isSome || fitsSigned32 toNear then
    { p with distance := .near, settled := true }
  else if target < 0x100000000 then { p with distance := .low, settled := true }
  else p

def fit (p : Placed) (block : List Placed) (gained : Nat) : Placed :=
  if p.settled then p
  else
    match p.item.relation with
    | .none => p
    | .data _ target => p.fitData block gained target
    | .jump _ target | .branch _ _ target | .loop _ _ _ target =>
      p.fitJump block gained target
    | .call _ target => p.fitCall block gained target

end Placed

/-- One pass over the rest of a block, which starts at `address`. Gives the block and the bytes
that were gained. -/
def layoutPass (before : List Placed) (gained address : Nat) :
    List Placed → List Placed × Nat
  | [] => (before, gained)
  | p :: rest =>
    let p := { p with address }
    let q := p.fit (before ++ p :: rest) gained
    layoutPass (before ++ [q]) (gained + (p.length - q.length)) (address + q.length) rest

/-- Passes over a block until nothing is gained, at most `rounds` of them. -/
def layoutPasses (base : Nat) : (rounds : Nat) → List Placed → List Placed
  | 0, block => block
  | rounds + 1, block =>
    match layoutPass [] 0 base block with
    | (block, 0) => block
    | (block, _) => layoutPasses base rounds block

/-- Puts instructions one after the other in their longest forms. -/
def placeAll (address : Nat) : List Movable → List Placed
  | [] => []
  | x :: rest =>
    { item := x, address, settled := x.relation == .none }
      :: placeAll (address + x.length .far) rest

/-- The layout of instructions at `base`. -/
def layout (base : Nat) (items : List Movable) : List Placed :=
  layoutPasses base 5 (placeAll base items)

/-! ## Writing -/

/-- The bytes of an instruction with a displacement at `offset` that leads to `target`. -/
def withDisplacement (bytes : List UInt8) (offset address target : Nat) : List UInt8 :=
  bytes.take offset ++ leSigned32 (wordDifference target (address + bytes.length))
    ++ bytes.drop (offset + 4)

theorem length_withDisplacement {bytes : List UInt8} {offset : Nat} (address target : Nat)
    (h : offset + 4 ≤ bytes.length) :
    (withDisplacement bytes offset address target).length = bytes.length := by
  simp [withDisplacement, leSigned32]
  omega

/-- Four bytes to be filled by `withDisplacement`. -/
def hole : List UInt8 := [0, 0, 0, 0]

/-- A displacement of 8 bits. -/
def shortDisplacement (next target : Nat) : UInt8 :=
  UInt8.ofNat (wordDifference target next % 256).toNat

/-- A displacement of as many bytes as the target size has. -/
def nearDisplacement (size : TargetSize) (next target : Nat) : List UInt8 :=
  leBytes size.width (wordDifference target next % valuesIn size.width).toNat

/-- The prefix of a loop whose counter has 32 bits. -/
def narrowMarks (narrow : Bool) : List UInt8 := if narrow then [0x67] else []

/-- The instruction as it is written, with its target and its pointer cell. -/
def Placed.code (p : Placed) (target cell : Nat) : List UInt8 :=
  match p.item.relation, p.distance with
  | .none, _ => p.item.bytes
  | .data offset _, .low | .data offset _, .far =>
    withDisplacement (0x67 :: p.item.bytes) (offset + 1) p.address target
  | .data offset _, _ => withDisplacement p.item.bytes offset p.address target
  | .jump size _, .short => size.marks ++ [0xeb, shortDisplacement p.stop target]
  | .jump _ _, .far => withDisplacement (0xff :: 0x25 :: hole) 2 p.address cell
  | .jump size _, _ => size.marks ++ 0xe9 :: nearDisplacement size p.stop target
  | .branch size k _, .short => size.marks ++ [0x70 + k, shortDisplacement p.stop target]
  | .branch _ k _, .far =>
    withDisplacement ((0x70 + (k ^^^ 1)) :: 6 :: 0xff :: 0x25 :: hole) 4 p.address cell
  | .branch size k _, _ =>
    size.marks ++ 0x0f :: (0x80 + k) :: nearDisplacement size p.stop target
  | .loop size narrow opcode _, .short =>
    size.marks ++ narrowMarks narrow ++ [opcode, shortDisplacement p.stop target]
  | .loop _ narrow opcode _, .far =>
    narrowMarks narrow ++ withDisplacement (opcode :: 2 :: 0xeb :: 6 :: 0xff :: 0x25 :: hole) 6
      (p.address + narrow.toNat) cell
  | .loop _ narrow opcode _, _ =>
    narrowMarks narrow ++ withDisplacement (opcode :: 2 :: 0xeb :: 5 :: 0xe9 :: hole) 5
      (p.address + narrow.toNat) target
  | .call _ _, .far => withDisplacement (0xff :: 0x15 :: hole) 2 p.address cell
  | .call size _, _ => size.marks ++ 0xe8 :: nearDisplacement size p.stop target

/-- An instruction is written in as many bytes as were laid out for it. -/
theorem Placed.length_code (p : Placed) (target cell : Nat)
    (h : ∀ offset t, p.item.relation = .data offset t → offset + 4 ≤ p.item.bytes.length) :
    (p.code target cell).length = p.length := by
  obtain ⟨⟨home, bytes, relation⟩, address, distance, settled⟩ := p
  cases relation with
  | data offset t =>
    have room : offset + 4 ≤ bytes.length := h _ _ rfl
    have prefixed : offset + 1 + 4 ≤ ((0x67 : UInt8) :: bytes).length :=
      Nat.succ_le_succ room
    cases distance
    case low | far => exact length_withDisplacement _ _ prefixed
    all_goals exact length_withDisplacement _ _ room
  | none => rfl
  | jump size | branch size | call size => cases size <;> cases distance <;> rfl
  | loop size narrow => cases size <;> cases narrow <;> cases distance <;> rfl

/-- The target of an instruction after the move. -/
def Placed.target (p : Placed) (block : List Placed) : Nat :=
  locate block (p.item.relation.target?.getD 0)

/-- `true` if the instruction goes through a pointer cell. -/
def Placed.needsCell (p : Placed) : Bool :=
  p.distance == .far && !p.item.relation matches .none | .data _ _

/-- The instructions as they are written; each that needs one gets the next pointer cell. -/
def writeItems (block : List Placed) (cell : Nat) : List Placed → List UInt8
  | [] => []
  | p :: rest =>
    p.code (p.target block) cell
      ++ writeItems block (if p.needsCell then cell + 8 else cell) rest

/-- The pointer cells of a block. -/
def cellWords (block : List Placed) : List UInt8 :=
  (block.filter Placed.needsCell).flatMap fun p => leBytes 8 (p.target block)

/-- What keeps an instruction from being written where it stands. A displacement that had room
in one pass may have lost it in a later one. -/
def Placed.fault? (p : Placed) (target cell : Nat) : Option LayoutFault :=
  let d := wordDifference target p.stop
  match p.item.relation, p.distance with
  | .none, _ => none
  | .data _ _, .far => some .dataTooDistant
  | .data _ _, .near =>
    if fitsSigned32 d then none else some (.dataOutOfReach p.stop target p.item.home)
  | .jump _ _, .short | .branch _ _ _, .short | .loop _ _ _ _, .short =>
    if fitsSigned8 d then none else some (.branchOutOfReach 8 p.stop target p.item.home)
  | .jump .full _, .near | .branch .full _ _, .near | .loop _ _ _ _, .near
  | .call .full _, .near =>
    if fitsSigned32 d then none else some (.branchOutOfReach 32 p.stop target p.item.home)
  | _, .far =>
    if fitsSigned32 (wordDifference cell p.stop) then none
    else some (.dataOutOfReach p.stop cell p.item.home)
  | _, _ => none

/-- The first instruction that cannot be written, with the pointer cells given out as by
`writeItems`. -/
def fault? (block : List Placed) (cell : Nat) : List Placed → Option LayoutFault
  | [] => none
  | p :: rest =>
    (p.fault? (p.target block) cell).or
      (fault? block (if p.needsCell then cell + 8 else cell) rest)

/-- Where the pointer cells of a block stand that is laid out from `base` on. -/
def cellStart (base : Nat) (block : List Placed) : Nat :=
  roundUp (base + sumOf Placed.length block) 8

/-- The code of a block that is laid out from `base` on: the instructions, filling, and the
pointer cells. -/
def assemble (base : Nat) (block : List Placed) : List UInt8 :=
  let start := cellStart base block
  let cells := cellWords block
  let filling := if cells = [] then 0 else start - (base + sumOf Placed.length block)
  writeItems block start block ++ List.replicate filling 0xcc ++ cells

/-- Instructions moved to `base`. -/
def relocate (base : Nat) (items : List Movable) : Except Fault (List UInt8) :=
  let block := layout base items
  match fault? block (cellStart base block) block with
  | some cause => .error (.encoding (.layout cause))
  | none => .ok (assemble base block)

end Detouring.Relocation
