-- How a block is laid out and written. Passes over it keep its instructions in order and one behind
-- the other, each at a distance that suits it. In memory every instruction stands at its place, and
-- the pointer cell of one that needs one holds its target.
import Detouring.Proofs.Memory.Places
import Detouring.Relocation.AlternateEntry
import Mathlib.Data.List.Basic

namespace Detouring.Relocation

variable {base address g : Nat} {p q : Placed} {block l l' pre post rest : List Placed}
  {items : List Movable} {homes : List Nat}

/-! ## Targets -/

theorem locate?_eq_none {t : Nat} :
    locate? block t = none ↔ t ∉ block.map (·.item.home) := by
  rw [locate?, Option.map_eq_none_iff, List.find?_eq_none]
  simp

/-- What is not in the block stays where it is. -/
theorem locate_eq_self {t : Nat} (outside : t ∉ block.map (·.item.home)) :
    locate block t = t := by
  rw [locate, locate?_eq_none.mpr outside, Option.getD_none]

/-! ## Distances -/

/-- The distances that there are. Only data that is not in the block is reached by an address of 32
bits. -/
def Allows (homes : List Nat) : Relation → Distance → Prop
  | .none, _ => True
  | .data _ t, d => d ≠ .short ∧ (d = .low → t < 0x100000000 ∧ t ∉ homes)
  | .jump _ _, d | .branch _ _ _, d | .loop _ _ _ _, d => d ≠ .low
  | .call _ _, d => d = .near ∨ d = .far

def Placed.Suits (homes : List Nat) (p : Placed) : Prop := Allows homes p.item.relation p.distance

/-- A pass may change the distance of an instruction, and nothing else that matters. -/
theorem Placed.fit_spec (p : Placed) (block : List Placed) (gained : Nat) :
    ∃ d settled, p.fit block gained = { p with distance := d, settled } ∧
      (d = p.distance ∨ Allows (block.map (·.item.home)) p.item.relation d) := by
  by_cases settled : p.settled = true
  · refine ⟨p.distance, p.settled, ?_, .inl rfl⟩
    unfold fit
    rw [if_pos settled]
  unfold fit
  rw [if_neg settled]
  cases relation : p.item.relation with
  | none => exact ⟨p.distance, p.settled, rfl, .inl rfl⟩
  | data offset t =>
    unfold fitData
    dsimp only
    split_ifs with near low
    · exact ⟨.near, true, rfl, .inr ⟨nofun, nofun⟩⟩
    · rw [Bool.not_eq_true, Bool.or_eq_false_iff] at near
      refine ⟨.low, true, rfl, .inr ⟨nofun, fun _ => ⟨low, locate?_eq_none.mp ?_⟩⟩⟩
      simpa using near.1
    · exact ⟨p.distance, p.settled, rfl, .inl rfl⟩
  | jump | branch | loop =>
    unfold fitJump
    dsimp only
    split_ifs <;> exact ⟨_, _, rfl, .inr nofun⟩
  | call =>
    unfold fitCall
    dsimp only
    split_ifs
    · exact ⟨.near, true, rfl, .inr (.inl rfl)⟩
    · exact ⟨.far, p.settled, rfl, .inr (.inr rfl)⟩

/-! ## Passes -/

/-- Instructions that stand one behind the other. -/
def Line : Nat → List Placed → Prop
  | _, [] => True
  | a, p :: rest => p.address = a ∧ Line p.stop rest

theorem line_append : Line base (l ++ l') ↔
    Line base l ∧ Line (base + sumOf Placed.length l) l' := by
  induction l generalizing base with
  | nil => simp [Line]
  | cons p rest ih =>
    simp only [List.cons_append, Line, ih, sumOf_cons, Placed.stop]
    constructor
    · rintro ⟨rfl, h, h'⟩
      exact ⟨⟨rfl, h⟩, by rwa [← Nat.add_assoc]⟩
    · rintro ⟨⟨rfl, h⟩, h'⟩
      exact ⟨rfl, h, by rwa [Nat.add_assoc]⟩

/-- What a pass may rely on and leaves behind. -/
structure Laid (items : List Movable) (block : List Placed) : Prop where
  order : block.map Placed.item = items
  suits : ∀ p ∈ block, p.Suits (items.map Movable.home)

theorem Laid.map_home (laid : Laid items block) :
    block.map (·.item.home) = items.map Movable.home := by
  rw [← laid.order, List.map_map]
  rfl

theorem layoutPass_spec {before : List Placed} (laid : Laid items (before ++ rest))
    (line : Line base before) (here : address = base + sumOf Placed.length before) :
    Laid items (layoutPass before g address rest).1 ∧
      Line base (layoutPass before g address rest).1 := by
  induction rest generalizing before g address with
  | nil =>
    rw [List.append_nil] at laid
    exact ⟨laid, line⟩
  | cons p rest ih =>
    have homes : (before ++ { p with address } :: rest).map (·.item.home) =
        items.map Movable.home := by
      rw [← laid.order]
      simp [Function.comp_def]
    obtain ⟨d, settled, fits, allowed⟩ :=
      Placed.fit_spec { p with address } (before ++ { p with address } :: rest) g
    rw [homes] at allowed
    unfold layoutPass
    dsimp only
    rw [fits]
    refine ih ⟨?_, fun q mq => ?_⟩ ?_ ?_
    · rw [← laid.order]
      simp
    · rw [List.append_assoc, List.singleton_append, List.mem_append, List.mem_cons] at mq
      rcases mq with mq | rfl | mq
      · exact laid.suits q (List.mem_append_left _ mq)
      · rcases allowed with same | allowed
        · rw [same]
          exact laid.suits p (List.mem_append_right _ List.mem_cons_self)
        · exact allowed
      · exact laid.suits q (List.mem_append_right _ (List.mem_cons_of_mem p mq))
    · exact line_append.mpr ⟨line, here, trivial⟩
    · rw [sumOf_append, sumOf_cons, sumOf_nil, here, Nat.add_zero, Nat.add_assoc]

theorem layoutPasses_spec (rounds : Nat) (laid : Laid items block) :
    Laid items (layoutPasses base (rounds + 1) block) ∧
      Line base (layoutPasses base (rounds + 1) block) := by
  induction rounds generalizing block with
  | zero =>
    have once : Laid items (layoutPass [] 0 base block).1 ∧ Line base (layoutPass [] 0 base block).1 :=
      layoutPass_spec laid trivial rfl
    unfold layoutPasses
    split <;> rename_i pass <;> rwa [pass] at once
  | succ rounds ih =>
    have once : Laid items (layoutPass [] 0 base block).1 ∧ Line base (layoutPass [] 0 base block).1 :=
      layoutPass_spec laid trivial rfl
    unfold layoutPasses
    split <;> rename_i pass <;> rw [pass] at once
    · exact once
    · exact ih once.1

theorem laid_placeAll (homes : List Nat) (address : Nat) (items : List Movable) :
    (placeAll address items).map Placed.item = items ∧
      ∀ p ∈ placeAll address items, p.Suits homes := by
  induction items generalizing address with
  | nil => exact ⟨rfl, nofun⟩
  | cons x rest ih =>
    obtain ⟨order, suits⟩ := ih (address + x.length .far)
    refine ⟨by rw [placeAll, List.map_cons, order], fun p mp => ?_⟩
    rcases List.mem_cons.mp mp with rfl | mp
    · unfold Placed.Suits Allows
      cases x.relation <;> simp
    · exact suits p mp

/-- A layout keeps the instructions in order, one behind the other, each at a distance that suits
it. -/
theorem layout_spec (base : Nat) (items : List Movable) :
    Laid items (layout base items) ∧ Line base (layout base items) := by
  obtain ⟨order, suits⟩ := laid_placeAll (items.map Movable.home) base items
  exact layoutPasses_spec 4 ⟨order, suits⟩

/-! ## Writing -/

/-- The bytes of an instruction have room for a displacement where it names data. -/
def Movable.Roomy (x : Movable) : Prop :=
  ∀ offset t, x.relation = .data offset t → offset + 4 ≤ x.bytes.length

theorem length_writeItems (cell : Nat) (roomy : ∀ p ∈ l, p.item.Roomy) :
    (writeItems block cell l).length = sumOf Placed.length l := by
  induction l generalizing cell with
  | nil => rfl
  | cons p rest ih =>
    have here := p.length_code (p.target block) cell (roomy p List.mem_cons_self)
    have more := ih (if p.needsCell then cell + 8 else cell) fun q mq =>
      roomy q (List.mem_cons_of_mem p mq)
    rw [writeItems, List.length_append, here, more, sumOf_cons]

theorem writeItems_append (cell : Nat) : writeItems block cell (l ++ l') =
    writeItems block cell l ++ writeItems block (cell + 8 * l.countP Placed.needsCell) l' := by
  induction l generalizing cell with
  | nil => simp [writeItems]
  | cons p rest ih =>
    simp only [List.cons_append, writeItems, ih, List.countP_cons, List.append_assoc]
    congr 3
    split <;> omega

theorem length_cells (block l : List Placed) :
    ((l.filter Placed.needsCell).flatMap fun p => leBytes 8 (p.target block)).length =
      8 * l.countP Placed.needsCell := by
  induction l with
  | nil => rfl
  | cons p rest ih =>
    by_cases needs : p.needsCell = true
    · simp only [List.filter_cons_of_pos needs, List.flatMap_cons, List.length_append, ih,
        length_leBytes, List.countP_cons_of_pos needs]
      omega
    · rw [List.filter_cons_of_neg needs, ih, List.countP_cons_of_neg needs]

/-- The pointer cells before the one of an instruction, that one, and those behind it. -/
theorem cellWords_parts (whole : block = pre ++ p :: post) (needs : p.needsCell = true) :
    ∃ front back, cellWords block = front ++ leBytes 8 (p.target block) ++ back ∧
      front.length = 8 * pre.countP Placed.needsCell := by
  refine ⟨_, (post.filter Placed.needsCell).flatMap fun q => leBytes 8 (q.target block), ?_,
    length_cells block pre⟩
  have split' : block.filter Placed.needsCell =
      pre.filter Placed.needsCell ++ p :: post.filter Placed.needsCell := by
    rw [whole, List.filter_append, List.filter_cons_of_pos needs]
  rw [cellWords, split', List.flatMap_append, List.flatMap_cons, List.append_assoc]

/-! ## In memory -/

/-- A piece of what stands in memory. -/
theorem peek_part {m : Memory} {code : List UInt8} (front part back : List UInt8)
    (there : m.peek base code.length = code) (whole : code = front ++ part ++ back) :
    m.peek (base + front.length) part.length = part := by
  have size : code.length = front.length + (part.length + back.length) := by
    rw [whole]
    simp
  rw [size, m.peek_add, m.peek_add, whole, List.append_assoc] at there
  have behind := (List.append_inj there (by simp)).2
  exact (List.append_inj behind (by simp)).1

/-- The pointer cell for the next instruction that needs one, behind others. -/
def cellBehind (base : Nat) (block pre : List Placed) : Nat :=
  cellStart base block + 8 * pre.countP Placed.needsCell

/-- An instruction stands at its place, and its cell, if it needs one, holds its target. -/
structure Stands (m : Memory) (block : List Placed) (cell stop : Nat) (p : Placed) : Prop where
  inside : p.stop ≤ stop
  written : m.peek p.address p.length = p.code (p.target block) cell
  word : p.needsCell = true → cell + 8 ≤ stop ∧ m.word cell = p.target block % wordCount

/-- An instruction stands in the block behind those before it. -/
theorem exists_assemble_code (base : Nat) (whole : block = pre ++ p :: post) :
    ∃ back, assemble base block = writeItems block (cellStart base block) pre ++
      p.code (p.target block) (cellBehind base block pre) ++ back := by
  let cell := cellBehind base block pre
  have items : writeItems block (cellStart base block) block =
      writeItems block (cellStart base block) pre ++ (p.code (p.target block) cell ++
        writeItems block (if p.needsCell then cell + 8 else cell) post) :=
    calc writeItems block (cellStart base block) block
      _ = writeItems block (cellStart base block) (pre ++ p :: post) := by rw [← whole]
      _ = _ := writeItems_append _
  rw [assemble, items]
  simp only [List.append_assoc]
  exact ⟨_, rfl⟩

/-- The cell of an instruction stands behind those of the instructions before it. -/
theorem exists_assemble_cell (base : Nat) (roomy : ∀ p ∈ block, p.item.Roomy)
    (whole : block = pre ++ p :: post) (needs : p.needsCell = true) :
    ∃ front back, assemble base block = front ++ leBytes 8 (p.target block) ++ back ∧
      base + front.length = cellBehind base block pre := by
  obtain ⟨front, back, words, count⟩ := cellWords_parts whole needs
  let start := cellStart base block
  let filling := start - (base + sumOf Placed.length block)
  have some : cellWords block ≠ [] := by
    intro none
    have := congrArg List.length (words.symm.trans none)
    simp at this
  have behind : base + sumOf Placed.length block ≤ start := le_roundUp _ 8 (by decide)
  refine ⟨writeItems block start block ++ List.replicate filling 0xcc ++ front, back, ?_, ?_⟩
  · have assembled : assemble base block =
        writeItems block start block ++ List.replicate filling 0xcc ++ cellWords block := by
      simp only [assemble, if_neg some, filling, start]
    rw [assembled, words]
    simp only [List.append_assoc]
  · simp only [List.length_append, length_writeItems start roomy, List.length_replicate, count,
      filling, cellBehind]
    omega

theorem stands_of_assemble {m : Memory} (line : Line base block)
    (roomy : ∀ p ∈ block, p.item.Roomy)
    (there : m.peek base (assemble base block).length = assemble base block)
    (whole : block = pre ++ p :: post) :
    p.address = base + sumOf Placed.length pre ∧
      Stands m block (cellBehind base block pre) (base + (assemble base block).length) p := by
  have place : p.address = base + sumOf Placed.length pre := by
    rw [whole] at line
    exact (line_append.mp line).2.1
  have size : (writeItems block (cellStart base block) pre).length = sumOf Placed.length pre :=
    length_writeItems _ fun q mq => roomy q (by simp [whole, mq])
  have length : (p.code (p.target block) (cellBehind base block pre)).length = p.length :=
    p.length_code _ _ (roomy p (by simp [whole]))
  obtain ⟨back, code⟩ := exists_assemble_code base whole
  refine ⟨place, ?_, ?_, fun needs => ?_⟩
  · have := congrArg List.length code
    simp only [List.length_append, size, length] at this
    rw [Placed.stop, place]
    omega
  · have here := peek_part _ _ back there code
    rwa [size, ← place, length] at here
  · obtain ⟨front, back, cells, at'⟩ := exists_assemble_cell base roomy whole needs
    have here := peek_part front _ back there cells
    rw [at', length_leBytes] at here
    refine ⟨?_, ?_⟩
    · have := congrArg List.length cells
      simp only [List.length_append, length_leBytes] at this
      omega
    · rw [Memory.word, here, ofLeBytes_leBytes]
      rfl

/-! ## What is relocated -/

theorem fault?_append (cell : Nat) : fault? block cell (l ++ l') =
    (fault? block cell l).or (fault? block (cell + 8 * l.countP Placed.needsCell) l') := by
  induction l generalizing cell with
  | nil => simp [fault?]
  | cons p rest ih =>
    simp only [List.cons_append, fault?, ih, List.countP_cons, Option.or_assoc]
    congr 3
    split <;> omega

/-- Where code was written, the instructions of its layout stand, one behind the other. None has a
displacement that its target or its cell is too far for. -/
theorem stands_of_relocate {m : Memory} {code : List UInt8} (laid : relocate base items = .ok code)
    (roomy : ∀ x ∈ items, x.Roomy) (there : m.peek base code.length = code)
    (whole : layout base items = pre ++ p :: post) :
    p.address = base + sumOf Placed.length pre ∧
      ∃ cell, Stands m (layout base items) cell (base + code.length) p ∧
        p.fault? (p.target (layout base items)) cell = none := by
  unfold relocate at laid
  dsimp only at laid
  split at laid
  · cases laid
  · rename_i clear
    obtain rfl := Except.ok.inj laid
    obtain ⟨⟨order, _⟩, line⟩ := layout_spec base items
    obtain ⟨place, stands⟩ := stands_of_assemble line
      (fun q mq => roomy q.item (order ▸ List.mem_map_of_mem mq)) there whole
    refine ⟨place, _, stands, ?_⟩
    have parts : fault? (layout base items) (cellStart base (layout base items)) (pre ++ p :: post) =
        none := by rw [← whole, clear]
    rw [fault?_append, Option.or_eq_none_iff, fault?, Option.or_eq_none_iff] at parts
    exact parts.2.1

end Detouring.Relocation
