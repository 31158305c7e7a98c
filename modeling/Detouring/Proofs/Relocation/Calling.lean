-- What comes of a call at the end of an alternate entry. It is written as a push of the address to
-- return to, and a jump through the same operand. The jump looks at the operand after the push, so
-- it goes where the call went just if the push does not change what the operand stands for.
import Detouring.Proofs.Relocation.Processor
import Detouring.Proofs.Relocation.Targets

namespace Detouring

open Relocation Opcode Instruction

variable {before rest code : List UInt8} {b : UInt8} {i : Instruction} {m : Memory}
  {homes : List Nat} {home a t g cell : Nat} {distance : Distance} {settled : Bool}

/-! ## Words -/

theorem leBytes_mod (count value : Nat) : leBytes count (value % valuesIn count) = leBytes count value := by
  induction count generalizing value with
  | zero => rfl
  | succ n ih =>
    have low : value % valuesIn (n + 1) % 256 = value % 256 := by
      rw [valuesIn, Nat.mod_mul_right_mod]
    have high : value % valuesIn (n + 1) / 256 = value / 256 % valuesIn n := by
      rw [valuesIn, Nat.mod_mul_right_div_self]
    have first : UInt8.ofNat (value % valuesIn (n + 1)) = UInt8.ofNat value :=
      UInt8.toNat_inj.mp low
    rw [leBytes, leBytes, high, ih, first]

theorem Processor.push_mod (c : Processor) (word : Nat) : c.push (word % wordCount) = c.push word := by
  have bytes : leBytes 8 (word % wordCount) = leBytes 8 word := leBytes_mod 8 word
  simp only [push, Memory.writeWord, bytes]

/-! ## Operands that are written anew -/

theorem Operand.registerNumber_congr {before' : List UInt8} {namesData : Bool} {bit : UInt8}
    (same : SaysSame namesData before before') (which : bit = 1 ∨ bit = 2) (n : Nat) :
    registerNumber before' bit n = registerNumber before bit n := by
  rw [registerNumber, registerNumber, same.registers bit which]

/-- The jump has the operand of the call, if that is not named by its distance. -/
theorem Operand.of_rewritten {before' : List UInt8} (same : SaysSame false before before')
    (calls : (Mode.of b).register = 2) (rest : List UInt8) :
    Operand.of before' (b + 0x10) rest .none = Operand.of before b rest .none := by
  obtain ⟨_, kind, operand⟩ := Mode.flip calls
  have narrow : (Marks.of before').narrow = (Marks.of before).narrow := by simp [same.narrow]
  simp only [Operand.of, kind, operand, same.segment, narrow, scaledRegisters,
    registerNumber_congr same (.inl rfl), registerNumber_congr same (.inr rfl)]

theorem Operand.of_data (relative : (Mode.of b).isRelative = true) (before rest : List UInt8)
    (offset t : Nat) : Operand.of before b rest (.data offset t) =
      .named (lastOf [0x64, 0x65] before).head? t := by
  simp only [Mode.isRelative, Bool.and_eq_true, beq_iff_eq] at relative
  simp [Operand.of, relative.1]

theorem withDisplacement_append {front four : List UInt8} {offset : Nat} (size : four.length = 4)
    (place : offset = front.length) (address target : Nat) :
    withDisplacement (front ++ four) offset address target =
      front ++ leSigned32 (wordDifference target (address + (front ++ four).length)) := by
  subst place
  have none : (front ++ four).drop (front.length + 4) = [] := by simp [size]
  rw [withDisplacement, none, List.take_left, List.append_nil]

/-- An instruction through data that it names by its distance is written for the place of the
data. -/
theorem Written.throughData {front : List UInt8} (opens : Opens front [0xff] .transfer)
    (wide : (Marks.of front).is16 = false) (relative : (Mode.of b).isRelative = true)
    (size : rest.length = 4)
    (w : Written m homes ⟨⟨home, front ++ [0xff] ++ b :: rest, .data (front.length + 1 + 1) g⟩, a,
      distance, settled⟩ t cell)
    (shape : Movable.NamesData
      ⟨home, front ++ [0xff] ++ b :: rest, .data (front.length + 1 + 1) g⟩)
    (word : t < wordCount) (stays : g ∉ homes → t = g) :
    ∃ j, m.instructionAt? a = some j ∧
      j.next = Placed.stop ⟨⟨home, front ++ [0xff] ++ b :: rest, .data (front.length + 1 + 1) g⟩, a,
        distance, settled⟩ ∧
      j.transfer? =
        Transfer.of? (Mode.of b).register (.named (lastOf [0x64, 0x65] front).head? t) := by
  obtain ⟨j, mark, marks, here, whole, named, next⟩ := w.namesData shape word stays
  have mode : Operands.transfer.HasMode := ⟨Mode.of 0, rfl⟩
  have behind : Opens (mark ++ front) [0xff] .transfer ∧
      (Marks.of (mark ++ front)).is16 = false ∧
      lastOf [0x64, 0x65] (mark ++ front) = lastOf [0x64, 0x65] front := by
    rcases marks with rfl | rfl
    · exact ⟨opens, wide, rfl⟩
    · refine ⟨Opens.narrow opens mode, by rw [← wide, List.singleton_append, marks_narrow]; rfl, ?_⟩
      simp [lastOf]
  obtain ⟨opens', wide', segment⟩ := behind
  have bytes : j.bytes = mark ++ front ++ [0xff] ++ b ::
      leSigned32 (wordDifference t (a + (mark ++ (front ++ [0xff] ++ b :: rest)).length)) := by
    have parts : mark ++ (front ++ [0xff] ++ b :: rest) = mark ++ front ++ [0xff, b] ++ rest := by
      simp
    rw [whole, parts, withDisplacement_append size (by simp)]
    simp
  refine ⟨j, here, next, ?_⟩
  have through := throughOperand?_of_parts opens' bytes wide'
  rw [named, Operand.of_data relative, segment] at through
  rw [← through, transfer?, named]

/-! ## The push and the jump -/

/-- A call, taken apart: at a place stands a push of the address to return to, from a cell, and
behind it a jump with an operand that stands for the same. -/
structure TakenApart (m : Memory) (call : Instruction) (o : Operand) (place stop : Nat) : Prop where
  pushes : ∃ push cell, m.instructionAt? place = some push ∧ push.next = stop ∧
    push.transfer? = some (.push (.named none cell)) ∧ cell < wordCount ∧
    m.word cell = call.next % wordCount
  jumps : ∃ jump o', m.instructionAt? stop = some jump ∧ jump.transfer? = some (.jump o') ∧
    ∀ c : Processor, c.memory = m → c.value o' = c.value o

theorem Processor.value_named (c : Processor) (word : cell < wordCount) :
    c.value (.named none cell) = c.memory.word cell := by
  have there : c.address? (.named none cell) = some cell := by
    have none : c.start none = 0 := rfl
    rw [address?, none, Int.natCast_zero, Int.zero_add, wrapWord_of_lt cell word]
  exact value_of_address there

/-- The two instructions push what the call pushes, and go where its operand leads then. -/
theorem TakenApart.steps {c : Processor} {o : Operand} {stop : Nat}
    (first : TakenApart c.memory i o c.ip stop)
    (second : TakenApart (c.push i.next).memory i o c.ip stop) :
    c.step.bind Processor.step =
      some { c.push i.next with ip := (c.push i.next).value o } := by
  obtain ⟨push, cell, here, next, pushes, word, holds⟩ := first.pushes
  obtain ⟨jump, o', there, jumps, same⟩ := second.jumps
  have pushed : c.step = some { c.push i.next with ip := stop } := by
    rw [Processor.step, here, Option.bind_some, Processor.execute, pushes]
    simp only [c.value_named word, holds, c.push_mod, next]
  have same' : Processor.value { c.push i.next with ip := stop } o' = (c.push i.next).value o :=
    same { c.push i.next with ip := stop } rfl
  rw [pushed, Option.bind_some, Processor.step]
  simp only [there, Option.bind_some, Processor.execute, jumps, same']

/-! ## The jump -/

theorem opens_transfer : Opens ([] ++ []) [0xff] .transfer := Opens.of_marks nofun (.inl rfl) rfl

theorem Opcode.Mode.extent_le (mode : Mode) (scaled : Option UInt8) : mode.extent scaled ≤ 5 := by
  unfold Mode.extent
  dsimp only
  split <;> split_ifs <;> omega

namespace AlternateEntry

variable {items : List Movable} {bytes : List UInt8} {relation : Relation}

/-- A jump that names nothing by its distance has the operand of the call. -/
theorem Flipped.copied (flipped : Flipped i bytes relation before b rest)
    (absolute : (Mode.of b).isRelative = false) (none : i.relation = .none)
    (there : m.peek a bytes.length = bytes) :
    ∃ j, m.instructionAt? a = some j ∧
      j.transfer? = some (.jump (.of before b rest .none)) := by
  have more : [0xff] ++ b :: rest ≠ [] := by simp
  have kept : i.namesData = false := by rw [namesData, none]
  have written := flipped.written
  rw [kept] at written
  obtain ⟨register, kind, operand⟩ := Mode.flip flipped.calls
  have same : SaysSame false before (rewritten false before ([0xff] ++ b :: rest)) :=
    saysSame_rewritten more
  have opens' : Opens (rewritten false before ([0xff] ++ b :: rest)) [0xff] .transfer :=
    opens_rewritten flipped.opens flipped.fills.hasMode more
  have fills' := flipped.fills.flip flipped.calls
  have absolute' : (Mode.of (b + 0x10)).isRelative = false := by
    rwa [Mode.isRelative, kind, operand]
  let j := (opened a (rewritten false before ([0xff] ++ b :: rest)) [0xff]
    ((b + 0x10) :: rest)).operated .transfer (b + 0x10) rest
  have whole : j.bytes = bytes := by
    rw [written]
    rfl
  have short : j.length ≤ maxLength := by
    have prefixes : (rewritten false before ([0xff] ++ b :: rest)).length ≤ _ :=
      length_rewritten more
    obtain ⟨width, taken, size⟩ := fills'
    have narrow := Operands.immediate?_le taken
    have extent := Mode.extent_le (Mode.of (b + 0x10)) rest.head?
    have sizes (k : Marks) := And.intro (Bool.toNat_le k.short) (Bool.toNat_le k.narrow)
    have := sizes (Marks.of (rewritten false before ([0xff] ++ b :: rest)))
    simp only [j, Instruction.length, Reading.operated, opened, List.length_append,
      List.length_cons, List.length_nil, maxLength, Operands.longest] at narrow ⊢
    omega
  have here : m.instructionAt? a = some j :=
    Memory.instructionAt?_of_decode? there (by rw [← whole]; exact short)
      fun tail => by
        rw [← whole]
        exact decode?_of_parts opens' (Reading.read_operated rfl fills') rfl short tail
  have nothing : j.relation = .none := by
    simp [j, Reading.operated, Reading.named, absolute']
  refine ⟨j, here, ?_⟩
  have through := throughOperand?_of_parts (i := j) opens' rfl (same.size.trans flipped.wide)
  rw [nothing, register, Operand.of_rewritten same flipped.calls] at through
  rw [transfer?, nothing]
  exact through

/-- In place of a call there is a jump through an operand that stands for the same. -/
theorem jump_written {form : CallForm} {address : Nat} (h : decode? address code = some i)
    (calls : i.call? = some form) (jump : callAsJump? i form = some (bytes, relation))
    (w : Written m homes ⟨⟨home, bytes, relation⟩, a, distance, settled⟩ t cell)
    (stays : ∀ g, i.relation.target? = some g → t = g) :
    ∃ j o o', m.instructionAt? a = some j ∧ i.transfer? = some (.call o) ∧
      j.transfer? = some (.jump o') ∧ ∀ c : Processor, c.memory = m → c.value o' = c.value o := by
  have proper := proper_of_decode? h
  rcases near_of_hasJump h calls (hasJump_of_callAsJump? jump) with rfl | rfl
  · obtain ⟨g, direct⟩ := near32_parts h calls
    obtain rfl := stays g (by rw [direct]; rfl)
    rw [direct] at proper
    simp only [callAsJump?, direct, Relation.target?, Option.map_some, Option.some.injEq,
      Prod.mk.injEq] at jump
    obtain ⟨rfl, rfl⟩ := jump
    have call : i.transfer? = some (.call (.target t)) := by rw [transfer?, direct]
    obtain ⟨j, here, -, named | ⟨⟨four, whole⟩, named, word, holds⟩⟩ := w.jump_cases proper
    · exact ⟨j, _, _, here, call, by rw [transfer?, named], fun _ _ => rfl⟩
    · refine ⟨j, _, .named none cell, here, call, ?_, fun c same => ?_⟩
      · have through := throughOperand?_of_parts opens_transfer whole rfl
        rw [named, Operand.of_data rfl] at through
        rw [transfer?, named]
        exact through
      · rw [c.value_named word, same, holds]
        rfl
  · obtain ⟨before, b, rest, flipped⟩ := flipped_of_callAsJump? h calls jump
    have through := throughOperand?_of_parts flipped.opens flipped.whole flipped.wide
    rw [flipped.calls] at through
    obtain ⟨register, kind, operand⟩ := Mode.flip flipped.calls
    have written := flipped.written
    rcases flipped.names with ⟨absolute, none, rfl⟩ | ⟨relative, size, isData, g, data, rfl⟩
    · obtain ⟨j, here, jumps⟩ := flipped.copied absolute none w.there
      rw [none] at through
      exact ⟨j, _, _, here, by rw [transfer?, none]; exact through, jumps, fun _ _ => rfl⟩
    · rw [isData] at written
      subst written
      obtain rfl := stays g (by rw [data]; rfl)
      have more : [0xff] ++ b :: rest ≠ [] := by simp
      have same : SaysSame true before (rewritten true before ([0xff] ++ b :: rest)) :=
        saysSame_rewritten more
      have opens' : Opens (rewritten true before ([0xff] ++ b :: rest)) [0xff] .transfer :=
        opens_rewritten flipped.opens flipped.fills.hasMode more
      have relative' : (Mode.of (b + 0x10)).isRelative = true := by
        rwa [Mode.isRelative, kind, operand]
      rw [data] at proper through
      obtain ⟨j, here, -, jumps⟩ := w.throughData opens' (same.size.trans flipped.wide) relative'
        size (jump_spec h calls jump home).2.2 proper fun _ => rfl
      rw [register, same.segment] at jumps
      rw [Operand.of_data relative] at through
      exact ⟨j, _, _, here, by rw [transfer?, data]; exact through, jumps, fun _ _ => rfl⟩

/-! ## The block -/

theorem length_callAsJump? {form : CallForm} {address : Nat} (h : decode? address code = some i)
    (calls : i.call? = some form) (jump : callAsJump? i form = some (bytes, relation)) :
    0 < bytes.length := by
  rcases near_of_hasJump h calls (hasJump_of_callAsJump? jump) with rfl | rfl
  · obtain ⟨g, direct⟩ := near32_parts h calls
    rw [callAsJump?, direct] at jump
    obtain ⟨rfl, -⟩ := Prod.mk.inj (Option.some.inj jump)
    simp
  · obtain ⟨before, b, rest, flipped⟩ := flipped_of_callAsJump? h calls jump
    rw [flipped.written]
    simp only [List.length_append, List.length_cons]
    omega

/-- The push in place of a call. -/
def pushFrom (home cellHome : Nat) : Movable := ⟨home, 0xff :: 0x35 :: hole, .data 2 cellHome⟩

theorem namesData_pushFrom (home cellHome : Nat) : (pushFrom home cellHome).NamesData := by
  intro offset t names
  obtain ⟨rfl, -⟩ := Relation.data.inj names
  have fills : Fills .transfer 0x35 (hole ++ []) := ⟨0, rfl, rfl⟩
  exact namesDataAt_rewritten opens_transfer fills rfl rfl []

/-- A block ends in a call that is taken apart. Behind all that comes before it stand the push, the
jump and the cell of the push. -/
structure ClosedByCall (base : Nat) (items : List Movable) (call : Instruction) (bytes : List UInt8)
    (relation : Relation) (pre : List Placed) (p j q : Placed) : Prop where
  whole : layout base items = pre ++ [p, j, q]
  before : ∀ x ∈ pre, x.item.home < call.address
  push : p.item = pushFrom call.address (call.address + pushLength + bytes.length)
  jump : j.item = ⟨call.address + pushLength, bytes, relation⟩
  cell : q.item = ⟨call.address + pushLength + bytes.length, leBytes 8 call.next, .none⟩
  behind : j.address = p.stop

theorem closedByCall_of_items {front : List Instruction} (base : Nat)
    (there : items = front.map Movable.ofInstruction ++
      [pushFrom i.address (i.address + pushLength + bytes.length),
        ⟨i.address + pushLength, bytes, relation⟩,
        ⟨i.address + pushLength + bytes.length, leBytes 8 i.next, .none⟩])
    (order : ∀ k ∈ front, k.address < i.address) :
    ∃ pre p j q, ClosedByCall base items i bytes relation pre p j q ∧
      pre.length = front.length := by
  obtain ⟨laidOut, line⟩ := layout_spec base items
  obtain ⟨pre, last, whole, first, rest⟩ := List.map_eq_append_iff.mp (laidOut.order.trans there)
  obtain ⟨p, _, rfl, isPush, rest⟩ := List.map_eq_cons_iff.mp rest
  obtain ⟨j, _, rfl, isJump, rest⟩ := List.map_eq_cons_iff.mp rest
  obtain ⟨q, _, rfl, isCell, rest⟩ := List.map_eq_cons_iff.mp rest
  obtain rfl := List.map_eq_nil_iff.mp rest
  rw [whole] at line
  refine ⟨pre, p, j, q, ⟨whole, fun x mx => ?_, isPush, isJump, isCell,
    (line_append.mp line).2.2.1⟩, by simpa using congrArg List.length first⟩
  obtain ⟨k, mk, same⟩ := List.mem_map.mp (first ▸ List.mem_map_of_mem mx :
    x.item ∈ front.map Movable.ofInstruction)
  rw [← same]
  exact order k mk

namespace ClosedByCall

variable {base : Nat} {pre : List Placed} {p j q : Placed} {moved : List UInt8}

/-- The cell lies in the block behind the push, and holds the address to return to. -/
theorem cell_spec (closed : ClosedByCall base items i bytes relation pre p j q)
    (laid : relocate base items = .ok moved) (roomy : ∀ x ∈ items, x.Roomy)
    (written : m.peek base moved.length = moved) :
    base ≤ p.address ∧ p.stop ≤ q.address ∧ q.address + 8 ≤ base + moved.length ∧
      m.word q.address = i.next % wordCount := by
  have whole : layout base items = pre ++ [p, j] ++ q :: [] := by simp [closed.whole]
  obtain ⟨placeP, -⟩ := stands_of_relocate laid roomy written closed.whole
  obtain ⟨placeQ, cell, stands, -⟩ := stands_of_relocate laid roomy written whole
  have isCell := closed.cell
  obtain ⟨item, address, distance, settled⟩ := q
  subst isCell
  have holds : m.peek address (leBytes 8 i.next).length = leBytes 8 i.next := stands.written
  have inside : address + (leBytes 8 i.next).length ≤ base + moved.length := stands.inside
  rw [length_leBytes] at holds inside
  rw [sumOf_append, sumOf_cons] at placeQ
  refine ⟨by omega, ?_, inside, ?_⟩
  · rw [Placed.stop]
    dsimp only at placeQ ⊢
    omega
  · rw [Memory.word, holds, ofLeBytes_leBytes]
    rfl

/-- No other part of the block is known by the address of the cell. -/
theorem push_target (closed : ClosedByCall base items i bytes relation pre p j q)
    (long : 0 < bytes.length) : p.target (layout base items) = q.address := by
  have names : p.item.relation.target?.getD 0 = i.address + pushLength + bytes.length := by
    rw [closed.push]
    rfl
  have none : pre.find? (·.item.home == i.address + pushLength + bytes.length) = none := by
    refine List.find?_eq_none.mpr fun x mx => ?_
    have := closed.before x mx
    rw [beq_iff_eq]
    omega
  have notPush : (i.address == i.address + pushLength + bytes.length) = false := by
    rw [beq_eq_false_iff_ne]
    omega
  have notJump : (i.address + pushLength == i.address + pushLength + bytes.length) = false := by
    rw [beq_eq_false_iff_ne]
    omega
  rw [Placed.target, names, locate, locate?, closed.whole, List.find?_append, none]
  simp [closed.push, closed.jump, closed.cell, pushFrom, notPush, notJump]

/-- The push takes its word from the cell. -/
theorem push_written (closed : ClosedByCall base items i bytes relation pre p j q)
    (laid : relocate base items = .ok moved) (roomy : ∀ x ∈ items, x.Roomy)
    (written : m.peek base moved.length = moved) (top : base + moved.length < wordCount)
    (long : 0 < bytes.length) :
    ∃ push, m.instructionAt? p.address = some push ∧ push.next = p.stop ∧
      push.transfer? = some (.push (.named none q.address)) := by
  obtain ⟨-, -, inside, -⟩ := closed.cell_spec laid roomy written
  have word : q.address < wordCount := by omega
  have place := closed.push_target long
  obtain ⟨-, -, cell, w⟩ := written_of_relocate laid roomy written top closed.whole
    fun _ => place ▸ word
  rw [place] at w
  have known : i.address + pushLength + bytes.length ∈ items.map Movable.home := by
    rw [← (layout_spec base items).1.map_home, closed.whole]
    simp [closed.cell]
  have isPush := closed.push
  obtain ⟨item, address, distance, settled⟩ := p
  subst isPush
  exact w.throughData opens_transfer rfl rfl rfl (namesData_pushFrom _ _) word
    fun unknown => absurd known unknown

/-- The jump has an operand that stands for the same as that of the call, if this names no address
of the block. -/
theorem jump_stands (closed : ClosedByCall base items i bytes relation pre p j q)
    {form : CallForm} {address : Nat} (h : decode? address code = some i)
    (calls : i.call? = some form) (jump : callAsJump? i form = some (bytes, relation))
    (laid : relocate base items = .ok moved) (roomy : ∀ x ∈ items, x.Roomy)
    (written : m.peek base moved.length = moved) (top : base + moved.length < wordCount)
    (outside : ∀ t, i.relation.target? = some t → t ∉ items.map Movable.home) :
    ∃ jump o o', m.instructionAt? j.address = some jump ∧ i.transfer? = some (.call o) ∧
      jump.transfer? = some (.jump o') ∧
      ∀ c : Processor, c.memory = m → c.value o' = c.value o := by
  have homes := (layout_spec base items).1.map_home
  have target : relation.target? = i.relation.target? := (jump_spec h calls jump 0).1
  have place (g : Nat) (names : i.relation.target? = some g) :
      j.target (layout base items) = g := by
    have named : j.item.relation.target? = some g := by
      rw [closed.jump]
      exact target.trans names
    rw [Placed.target, named, Option.getD_some, locate_eq_self (homes ▸ outside g names)]
  have whole : layout base items = pre ++ [p] ++ j :: [q] := by simp [closed.whole]
  obtain ⟨-, -, cell, w⟩ := written_of_relocate laid roomy written top whole fun needs => by
    cases names : i.relation.target? with
    | some g =>
      rw [place g names]
      exact (proper_of_decode? h).lt_wordCount names
    | none =>
      rw [names] at target
      rw [Placed.needsCell, closed.jump] at needs
      cases relation with
      | none => simp at needs
      | data | jump | branch | loop | call => cases target
  have isJump := closed.jump
  obtain ⟨item, address, distance, settled⟩ := j
  subst isJump
  exact jump_written h calls jump w place

end ClosedByCall

/-- In a block that was written below the top of the address space, the call at its end is taken
apart, if it names no address of the block. -/
theorem takenApart_of_relocate {base address : Nat} {moved : List UInt8} {front : List Instruction}
    {form : CallForm} (h : decode? address code = some i) (calls : i.call? = some form)
    (jump : callAsJump? i form = some (bytes, relation))
    (there : items = front.map Movable.ofInstruction ++
      [pushFrom i.address (i.address + pushLength + bytes.length),
        ⟨i.address + pushLength, bytes, relation⟩,
        ⟨i.address + pushLength + bytes.length, leBytes 8 i.next, .none⟩])
    (roomy : ∀ x ∈ items, x.Roomy) (order : ∀ k ∈ front, k.address < i.address)
    (laid : relocate base items = .ok moved) (written : m.peek base moved.length = moved)
    (top : base + moved.length < wordCount)
    (outside : ∀ t, i.relation.target? = some t → t ∉ items.map Movable.home) :
    ∃ p o, (layout base items)[front.length]? = some p ∧ base ≤ p.address ∧
      p.stop < base + moved.length ∧ i.transfer? = some (.call o) ∧
      TakenApart m i o p.address p.stop := by
  obtain ⟨pre, p, j, q, closed, size⟩ := closedByCall_of_items base there order
  have long := length_callAsJump? h calls jump
  obtain ⟨above, below, inside, holds⟩ := closed.cell_spec laid roomy written
  obtain ⟨push, here, next, pushes⟩ := closed.push_written laid roomy written top long
  obtain ⟨jump', o, o', there', call, jumps, same⟩ :=
    closed.jump_stands h calls jump laid roomy written top outside
  have first : (layout base items)[front.length]? = some p := by
    rw [closed.whole, ← size, List.getElem?_append_right (Nat.le_refl _), Nat.sub_self]
    rfl
  exact ⟨p, o, first, above, by omega, call,
    ⟨push, q.address, here, next, pushes, by omega, holds⟩,
    ⟨jump', o', closed.behind ▸ there', jumps, same⟩⟩

/-! ## Running the end of an alternate entry -/

/-- The processor is about to run a part of a block, and what it pushes next is not in the
block. -/
structure Arrives (c : Processor) (m : Memory) (b : Block) (place : Nat) : Prop where
  ip : c.ip = place
  code : ∀ x, b.base ≤ x → x < b.base + b.size → c.memory.bytes x = m.bytes x
  apart : c.slot + 8 ≤ b.base ∨ b.base + b.size ≤ c.slot

/-- The block stands in memory, before the push and after it. -/
theorem Arrives.written {c : Processor} {b : Block} {place : Nat} {moved : List UInt8}
    (arrives : Arrives c m b place) (fits : moved.length ≤ b.size)
    (written : m.peek b.base moved.length = moved) (word : Nat) :
    c.memory.peek b.base moved.length = moved ∧
      (c.push word).memory.peek b.base moved.length = moved := by
  have same : c.memory.peek b.base moved.length = m.peek b.base moved.length :=
    Memory.peek_congr fun k _ => arrives.code _ (by omega) (by omega)
  have pushed : (c.push word).memory.peek b.base moved.length =
      c.memory.peek b.base moved.length := by
    refine Memory.peek_congr fun k _ => Memory.bytes_write_outside _ _ _ _ ?_
    have := arrives.apart
    rw [length_leBytes]
    omega
  rw [pushed, same, written]
  exact ⟨rfl, rfl⟩

/-- A processor whose stack starts with two addresses. Its frame pointer leads to the second. -/
def withStack (ip : Nat) (m : Memory) : Processor where
  ip
  registers n := if n = 4 then 0x30000 else 0x30010
  segments _ := 0
  memory := ((m.writeWord 0x30000 0x1111).writeWord 0x30008 0x2222).writeWord 0x30018 0x3333

theorem slot_withStack (ip : Nat) (m : Memory) : (withStack ip m).slot = 0x2fff8 := by
  change ((0x30000 : UInt64) - 8).toNat = 0x2fff8
  decide

theorem arrives_withStack {b : Block} (below : b.base + b.size ≤ 0x2fff8) (ip : Nat) (m : Memory) :
    Arrives (withStack ip m) m b ip := by
  refine ⟨rfl, fun x _ inside => ?_, .inr (by rw [slot_withStack]; exact below)⟩
  have outside (m : Memory) (a word : Nat) (above : x < a) :
      (m.writeWord a word).bytes x = m.bytes x := Memory.bytes_write_outside _ _ _ _ (.inl above)
  rw [withStack, outside _ _ _ (by omega), outside _ _ _ (by omega), outside _ _ _ (by omega)]

/-- Where the stack pointer and the frame pointer lead. -/
theorem address?_withStack (ip : Nat) (m : Memory) :
    (withStack ip m).address? (.computed none false [(4, 0)] 8) = some 0x30008 ∧
      (withStack ip m).address? (.computed none false [(5, 0)] 8) = some 0x30018 := by
  have sum (n : Nat) (r : UInt64) (holds : (withStack ip m).registers n = r) :
      (withStack ip m).address? (.computed none false [(n, 0)] 8) =
        some (wrapWord (wrapWord (r.toNat + 8))) := by
    simp [Processor.address?, Processor.start, Processor.sum, holds]
  rw [sum 4 0x30000 rfl, sum 5 0x30010 rfl]
  exact ⟨congrArg some (by decide), congrArg some (by decide)⟩

end AlternateEntry

end Detouring
