-- A call that is taken apart: a push of the address to return to, a jump that goes where the call
-- went, and the cell with the address. A call by a displacement becomes such a jump; one through an
-- operand becomes a jump through the same operand.
import Detouring.Proofs.Relocation.Rewriting
import Detouring.Relocation.AlternateEntry

namespace Detouring

open Relocation Opcode Instruction Reading

variable {k : Marks} {before ops rest code : List UInt8} {x : Operands} {b : UInt8} {address : Nat}
  {i : Instruction} {form : CallForm}

/-! ## Calls through an operand -/

/-- Only one opcode calls, jumps and pushes through operands. -/
theorem Opcode.operandsOf?_transfer (h : operandsOf? k ops = some .transfer) : ops = [0xff] := by
  unfold operandsOf? at h
  split at h
  · unfold operands? at h
    split_ifs at h
    · obtain ⟨low, high, m, above, below⟩ := mem_of_lookUp h
      simp only [operandTable, List.mem_cons, Prod.mk.injEq, reduceCtorEq, and_false, and_true,
        false_or, List.not_mem_nil, or_false] at m
      obtain ⟨rfl, rfl⟩ := m
      rw [UInt8.le_antisymm below above]
    · split at h <;> cases h
  · obtain ⟨low, high, m, _⟩ := mem_of_lookUp h
    simp [extendedOperandTable] at m
  · cases h

/-- A call through an operand, taken apart. -/
theorem Instruction.indirect_parts (h : decode? address code = some i)
    (calls : i.call? = some form) (indirect : form ≠ .near16 ∧ form ≠ .near32) :
    ∃ before b rest, Opens before [0xff] .transfer ∧ Fills .transfer b rest ∧
      i = (opened address before [0xff] (b :: rest)).operated .transfer b rest ∧
      indirectCall? (Marks.of before) .transfer (Mode.of b) = some form := by
  obtain ⟨before, ops, rest, x, opens, whole, _, read⟩ := parts_of_decode? h
  rcases Reading.call_of_read read whole calls with ⟨direct, _⟩ | ⟨b, rest, rfl, fills, rfl⟩
  · unfold Reading.directCall? at direct
    split_ifs at direct <;> obtain rfl := Option.some.inj direct
    · exact absurd rfl indirect.1
    · exact absurd rfl indirect.2
  · have form' : indirectCall? (Marks.of before) x (Mode.of b) = some form := calls
    obtain rfl : x = .transfer := by
      unfold indirectCall? at form'
      split at form' <;> first | rfl | cases form'
    obtain rfl := operandsOf?_transfer opens.operands
    exact ⟨before, b, rest, opens, fills, rfl, form'⟩

theorem Instruction.parts_of_indirect64
    (h : indirectCall? k x (Mode.of b) = some .indirect64) :
    (Mode.of b).register = 2 ∧ k.is16 = false := by
  unfold indirectCall? at h
  split at h
  · split_ifs at h with short
    · cases h
    · exact ⟨by assumption, by simpa using short⟩
  · split_ifs at h <;> cases h
  · cases h

/-- A call by a displacement of 32 bits. -/
theorem Instruction.near32_parts (h : decode? address code = some i)
    (calls : i.call? = some .near32) : ∃ t, i.relation = .call .full t := by
  obtain ⟨before, ops, rest, x, _, whole, _, read⟩ := parts_of_decode? h
  rcases Reading.call_of_read read whole calls with ⟨direct, t, leads⟩ | ⟨b, rest, _, _, rfl⟩
  · unfold Reading.directCall? at direct
    cases size : (opened address before ops rest).targetSize with
    | full => exact ⟨t, size ▸ leads⟩
    | word =>
      simp [size] at direct
  · have form : indirectCall? (Marks.of before) x (Mode.of b) = some .near32 := calls
    unfold indirectCall? at form
    split at form <;> (try split_ifs at form) <;> cases form

/-- The forms of calls that there are a jump for: direct ones, and those through an operand that are
not far. -/
theorem Instruction.near_of_hasJump (h : decode? address code = some i)
    (calls : i.call? = some form) (jumps : form.hasJump = true) :
    form = .near32 ∨ form = .indirect64 := by
  cases form <;> try cases jumps
  · exact .inl rfl
  · exact .inr rfl
  · obtain ⟨_, _, _, _, _, _, far⟩ := indirect_parts h calls ⟨nofun, nofun⟩
    unfold indirectCall? at far
    split at far <;> (try split_ifs at far) <;> cases far

/-! ## The jump in place of a call -/

/-- The mode byte of the jump means the same operand. -/
theorem Opcode.Mode.flip (calls : (Mode.of b).register = 2) : (Mode.of (b + 0x10)).register = 4 ∧
    (Mode.of (b + 0x10)).kind = (Mode.of b).kind ∧
    (Mode.of (b + 0x10)).operand = (Mode.of b).operand :=
  forall_byte (fun b => (Mode.of b).register = 2 → (Mode.of (b + 0x10)).register = 4 ∧
    (Mode.of (b + 0x10)).kind = (Mode.of b).kind ∧
    (Mode.of (b + 0x10)).operand = (Mode.of b).operand) (by decide +kernel) b calls

theorem Opcode.Mode.extent_flip (calls : (Mode.of b).register = 2) (scaled : Option UInt8) :
    (Mode.of (b + 0x10)).extent scaled = (Mode.of b).extent scaled := by
  obtain ⟨_, kind, operand⟩ := Mode.flip calls
  unfold Mode.extent
  rw [kind, operand]

theorem Instruction.Fills.flip (fills : Fills .transfer b rest) (calls : (Mode.of b).register = 2) :
    Fills .transfer (b + 0x10) rest := by
  obtain ⟨width, taken, size⟩ := fills
  obtain ⟨register, _, _⟩ := Mode.flip calls
  refine ⟨width, ?_, by rwa [Mode.extent_flip calls]⟩
  rw [← taken]
  simp [Operands.immediate?, register, calls]

theorem Opcode.mem_rewritten {namesData : Bool} {body : List UInt8} (more : body ≠ []) {c : UInt8}
    (h : c ∈ rewritten namesData before body) : isMark c = true ∨ isExtension c = true := by
  rcases List.mem_append.mp h with h | h
  · exact .inl (isMark_orderedMarks h)
  · rcases atMostOne_kept before more with none | ⟨d, extends', one⟩
    · rw [none] at h
      cases h
    · rw [one, List.mem_singleton] at h
      exact .inr (h ▸ extends')

theorem flipToJump_eq {pre : List UInt8} (other : ∀ c ∈ pre, c ≠ 0xff) (b : UInt8)
    (rest : List UInt8) : AlternateEntry.callAsJump?.flipToJump (pre ++ 0xff :: b :: rest) =
      pre ++ 0xff :: (b + 0x10) :: rest := by
  induction pre with
  | nil => rfl
  | cons c pre ih =>
    have notCall := other c List.mem_cons_self
    rw [List.cons_append, AlternateEntry.callAsJump?.flipToJump,
      ih fun d md => other d (List.mem_cons_of_mem c md), List.cons_append]
    intro mode rest h
    exact absurd h notCall

namespace AlternateEntry

/-- The jump in place of a call through an operand has the same operand. -/
theorem callAsJump?_indirect (opens : Opens before [0xff] .transfer)
    (whole : i.bytes = before ++ [0xff] ++ b :: rest) :
    callAsJump? i .indirect64 = some (rewritten i.namesData before ([0xff] ++ b :: rest) ++ [0xff] ++
      (b + 0x10) :: rest, (Movable.ofInstruction i).relation) := by
  have bytes : (Movable.ofInstruction i).bytes =
      rewritten i.namesData before ([0xff] ++ b :: rest) ++ 0xff :: b :: rest := by
    have := normalize_eq opens i.namesData (b :: rest)
    rw [← whole, List.append_assoc] at this
    exact this
  have other : ∀ c ∈ rewritten i.namesData before ([0xff] ++ b :: rest), c ≠ 0xff := by
    rintro c mc rfl
    rcases mem_rewritten (by simp) mc with h | h <;> cases h
  simp only [callAsJump?, bytes, flipToJump_eq other, List.append_assoc]
  rfl

theorem hasJump_of_callAsJump? {jump : List UInt8 × Relation} (h : callAsJump? i form = some jump) :
    form.hasJump = true := by
  cases form <;> first | rfl | cases h

/-- A call through an operand and the jump in its place: prefixes that say the same, the same
operand, and the same data if it names any. -/
structure Flipped (call : Instruction) (bytes : List UInt8) (relation : Relation)
    (before : List UInt8) (b : UInt8) (rest : List UInt8) : Prop where
  opens : Opens before [0xff] .transfer
  fills : Fills .transfer b rest
  calls : (Mode.of b).register = 2
  wide : (Marks.of before).is16 = false
  whole : call.bytes = before ++ [0xff] ++ b :: rest
  written : bytes = rewritten call.namesData before ([0xff] ++ b :: rest) ++ [0xff] ++
    (b + 0x10) :: rest
  names : ((Mode.of b).isRelative = false ∧ call.relation = .none ∧ relation = .none) ∨
    ((Mode.of b).isRelative = true ∧ rest.length = 4 ∧ call.namesData = true ∧ ∃ g,
      call.relation = .data (before.length + 1 + 1) g ∧
      relation = .data ((rewritten true before ([0xff] ++ b :: rest)).length + 1 + 1) g)

theorem flipped_of_callAsJump? {bytes : List UInt8} {relation : Relation}
    (h : decode? address code = some i) (calls : i.call? = some .indirect64)
    (jump : callAsJump? i .indirect64 = some (bytes, relation)) :
    ∃ before b rest, Flipped i bytes relation before b rest := by
  obtain ⟨before, b, rest, opens, fills, same, form⟩ := indirect_parts h calls ⟨nofun, nofun⟩
  have whole : i.bytes = before ++ [0xff] ++ b :: rest := by
    rw [same]
    rfl
  obtain ⟨two, wide⟩ := parts_of_indirect64 form
  rw [callAsJump?_indirect opens whole] at jump
  obtain ⟨rfl, rfl⟩ := Prod.mk.inj (Option.some.inj jump)
  refine ⟨before, b, rest, opens, fills, two, wide, whole, rfl, ?_⟩
  have relation : i.relation = (opened address before [0xff] (b :: rest)).named (Mode.of b)
      (rest.take 4) (address + (before ++ [0xff] ++ b :: rest).length) := by
    rw [same]
    rfl
  cases relative : (Mode.of b).isRelative with
  | false =>
    have none : i.relation = .none := by simp [relation, named, relative]
    exact .inl ⟨rfl, none, by rw [Movable.ofInstruction, none]⟩
  | true =>
    have size : rest.length = 4 := by
      obtain ⟨width, taken, size⟩ := fills
      rw [Mode.extent_relative relative] at size
      have := Operands.immediate?_le taken
      simp only [Operands.longest] at this
      omega
    obtain ⟨g, data⟩ : ∃ g, i.relation = .data (before.length + 1 + 1) g := by
      simp [relation, named, relative, opened]
    refine .inr ⟨rfl, size, by rw [namesData, data], g, data, ?_⟩
    rw [ofInstruction_data opens whole data (by simp)]
    rfl

/-- The jump in place of a call goes to the target that the call named. -/
theorem jump_spec {bytes : List UInt8} {relation : Relation} (h : decode? address code = some i)
    (calls : i.call? = some form) (jump : callAsJump? i form = some (bytes, relation)) (home : Nat) :
    relation.target? = i.relation.target? ∧ relation.Proper ∧
      Movable.NamesData ⟨home, bytes, relation⟩ := by
  have proper := proper_of_decode? h
  rcases near_of_hasJump h calls (hasJump_of_callAsJump? jump) with rfl | rfl
  · obtain ⟨t, direct⟩ := near32_parts h calls
    rw [direct] at proper ⊢
    simp only [callAsJump?, direct, Relation.target?, Option.map_some, Option.some.injEq,
      Prod.mk.injEq] at jump
    obtain ⟨rfl, rfl⟩ := jump
    exact ⟨rfl, proper, nofun⟩
  · obtain ⟨before, b, rest, flipped⟩ := flipped_of_callAsJump? h calls jump
    rcases flipped.names with ⟨_, none, rfl⟩ | ⟨relative, size, isData, g, data, rfl⟩
    · rw [none]
      exact ⟨rfl, trivial, nofun⟩
    rw [data] at proper ⊢
    refine ⟨rfl, proper, ?_⟩
    intro offset t names
    obtain ⟨rfl, -⟩ := Relation.data.inj names
    have relative' : (Mode.of (b + 0x10)).isRelative = true := by
      obtain ⟨_, kind, operand⟩ := Mode.flip flipped.calls
      rwa [Mode.isRelative, kind, operand]
    have fills := flipped.fills.flip flipped.calls
    rw [← List.append_nil rest] at fills
    have shape := namesDataAt_rewritten flipped.opens fills relative' size (b :: rest)
    rw [List.append_nil] at shape
    dsimp only
    rw [flipped.written, isData]
    exact shape

end AlternateEntry

end Detouring
