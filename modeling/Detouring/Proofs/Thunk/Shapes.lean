-- What the table of stubs makes of a stub. Whatever its open bytes are and whatever follows it, the
-- stub is found where it begins and as itself; and the address that it leads to is the one that a
-- processor would find in it, in the instruction that holds the captured bytes.
import Detouring.Proofs.Pattern.Distinct
import Detouring.Proofs.Relocation.Calling
import Detouring.Proofs.Thunk.Walking

namespace Detouring

open PatternItem (Gapless Clash)
open PatternCollection (Indexed MatchesAt)
open Instruction (decode?)

/-! ## Addresses in instructions -/

namespace Instruction

/-- The word that `mov rax` loads. -/
def loaded? (i : Instruction) : Option Nat :=
  match i.bytes with
  | 0x48 :: 0xb8 :: word => some (ofLeBytes word)
  | _ => none

/-- Where a jump, a branch or a call goes that has a displacement. -/
def destination? (i : Instruction) : Option Nat :=
  match i.relation with
  | .jump .full t | .branch .full _ t | .call .full t => some t
  | _ => none

/-- The cell that a jump goes through, if it names it by its distance. -/
def cell? (i : Instruction) : Option Nat :=
  match i.transfer? with
  | some (.jump (.named none a)) => some a
  | _ => none

end Instruction

/-- The address that an instruction holds, for an address of this form. -/
def AddressForm.held? (form : AddressForm) (i : Instruction) : Option Nat :=
  if form.absolute then i.loaded?
  else if form.indirect then i.cell?
  else i.destination?

section

variable {opcode caught : List UInt8}

theorem Pattern.capturedValue_eq (caught : List UInt8) :
    Pattern.capturedValue caught = ofLeBytes caught := ofLeBytes_append_zeros caught _

/-- Four bytes have one signed value. -/
theorem signed32_ofLeBytes (four : caught.length = 4) :
    signed32 (ofLeBytes caught) = Int.bmod (ofLeBytes caught) (valuesIn caught.length) := by
  have small := ofLeBytes_lt caught
  have values : valuesIn caught.length = 0x100000000 := by
    rw [four]
    rfl
  rw [values] at small ⊢
  unfold signed32
  rw [Nat.mod_eq_of_lt small]

namespace Instruction

open Opcode

/-- `mov rax` with a word. -/
theorem decode?_load (address : Nat) (eight : caught.length = 8) (tail : List UInt8) :
    ∃ i, decode? address ([0x48, 0xb8] ++ caught ++ tail) = some i ∧
      i.bytes = [0x48, 0xb8] ++ caught ∧ i.loaded? = some (ofLeBytes caught) := by
  have opens : Opens [0x48] [0xb8] (.immediate 8) := ⟨fun _ => rfl, rfl⟩
  have read : (opened address [0x48] [0xb8] caught).read (.immediate 8) =
      some ⟨address, [0x48, 0xb8] ++ caught, .none, none⟩ := by
    have all : caught.take 8 = caught := List.take_of_length_le (by omega)
    simp [Reading.read, Reading.finish, opened, eight, all]
  exact ⟨_, decode?_of_parts opens read rfl (by simp [length, eight, maxLength]) tail, rfl, rfl⟩

/-- The operand of a jump through a cell is named by its distance. -/
theorem relation_through (address : Nat) (four : caught.length = 4) :
    ((opened address [] [0xff] (0x25 :: caught)).operated .transfer 0x25 caught).relation =
      .data 2 (wrapWord ((address + 6 : Nat) + signed32 (ofLeBytes caught))) := by
  have all : caught.take 4 = caught := List.take_of_length_le (by omega)
  have size : ([0xff] ++ 0x25 :: caught : List UInt8).length = 6 := by simp [four]
  have unmarked (word : Nat) : (Marks.of []).wrap word = word := rfl
  simp only [Reading.operated, Reading.named, all, opened, List.nil_append, size, unmarked]
  rfl

/-- A jump through a cell. -/
theorem decode?_through (address : Nat) (four : caught.length = 4) (tail : List UInt8) :
    ∃ i, decode? address ([0xff, 0x25] ++ caught ++ tail) = some i ∧
      i.bytes = [0xff, 0x25] ++ caught ∧
      i.cell? = some (wrapWord ((address + 6 : Nat) + signed32 (ofLeBytes caught))) := by
  have opens : Opens [] [0xff] .transfer := ⟨fun _ => rfl, rfl⟩
  have fills : Fills .transfer 0x25 caught := ⟨0, rfl, by rw [four]; rfl⟩
  have read := Reading.read_operated (r := opened address [] [0xff] (0x25 :: caught)) rfl fills
  refine ⟨_, decode?_of_parts opens read rfl
    (by simp [length, Reading.operated, opened, four, maxLength]) tail, rfl, ?_⟩
  have through := throughOperand?_of_parts
    (i := (opened address [] [0xff] (0x25 :: caught)).operated .transfer 0x25 caught)
    opens rfl rfl
  rw [relation_through address four, Operand.of_data rfl] at through
  rw [cell?, transfer?, relation_through address four]
  dsimp only
  rw [through]
  rfl

/-- A jump, a branch or a call. -/
theorem decode?_relative (address : Nat) (among : opcode ∈ [[0xe8], [0xe9], [0x0f, 0x85]])
    (four : caught.length = 4) (tail : List UInt8) :
    ∃ i, decode? address (opcode ++ caught ++ tail) = some i ∧ i.bytes = opcode ++ caught ∧
      i.destination? = some (wrapWord ((address + (opcode ++ caught).length : Nat) +
        signed32 (ofLeBytes caught))) := by
  have opens : Opens [] opcode .displacement := by
    simp only [List.mem_cons, List.not_mem_nil, or_false] at among
    rcases among with rfl | rfl | rfl <;> exact ⟨fun _ => rfl, rfl⟩
  have read := Reading.read_leading (r := opened address [] opcode caught) (x := .displacement)
    (.inr ⟨rfl, four⟩)
  refine ⟨_, decode?_of_parts opens read rfl ?_ tail, rfl, ?_⟩
  · simp only [List.mem_cons, List.not_mem_nil, or_false] at among
    rcases among with rfl | rfl | rfl <;> simp [length, opened, four, maxLength]
  · rw [destination?, signed32_ofLeBytes four]
    simp only [List.mem_cons, List.not_mem_nil, or_false] at among
    rcases among with rfl | rfl | rfl <;> rfl

end Instruction

end

namespace Thunk

variable {p q stub : Pattern} {i j lead start : Nat} {opcode shape caught rest : List UInt8}

/-! ## Where a stub holds its address -/

/-- The address bytes of a stub are the end of an instruction that begins so far behind the start of
the stub, with this opcode. -/
structure Embeds (p : Pattern) (lead : Nat) (opcode : List UInt8) : Prop where
  inside : lead ≤ p.items.length
  behind : bytes opcode ++ addressBytes p.addressBytes <+: p.items.drop lead

theorem splits_bytes {values : List UInt8} (h : Splits (bytes values) shape caught) :
    shape = values ∧ caught = [] := by
  induction values generalizing shape caught with
  | nil =>
    cases h
    exact ⟨rfl, rfl⟩
  | cons value values ih =>
    cases h with
    | literal _ h =>
      obtain ⟨rfl, rfl⟩ := ih h
      exact ⟨rfl, rfl⟩

theorem splits_addressBytes {count : Nat} (h : Splits (addressBytes count) shape caught) :
    shape = caught ∧ caught.length = count := by
  induction count generalizing shape caught with
  | zero =>
    cases h
    exact ⟨rfl, rfl⟩
  | succ count ih =>
    cases h with
    | address b h =>
      obtain ⟨rfl, rfl⟩ := ih h
      exact ⟨rfl, rfl⟩

/-- The instruction stands in all bytes of the stub's shape, with what is captured behind its
opcode. -/
theorem Embeds.code (h : Embeds p lead opcode) (gapless : Gapless p.items)
    (split : Splits p.items shape caught) :
    opcode ++ caught <+: shape.drop lead ∧ caught.length = p.addressBytes := by
  obtain ⟨back, whole⟩ := h.behind
  have parts : Splits (p.items.take lead ++
      (bytes opcode ++ addressBytes p.addressBytes ++ back)) shape caught := by
    rwa [whole, List.take_append_drop]
  have all : caught.length = p.addressBytes := split.length_caught
  obtain ⟨b, _, c, _, rfl, rfl, first, later⟩ := Splits.append_iff.mp parts
  obtain ⟨_, b', _, c', rfl, rfl, middle, -⟩ := Splits.append_iff.mp later
  obtain ⟨_, _, _, captured, rfl, rfl, ops, address⟩ := Splits.append_iff.mp middle
  obtain ⟨rfl, rfl⟩ := splits_bytes ops
  obtain ⟨rfl, count⟩ := splits_addressBytes address
  -- the address bytes behind the opcode are all that there are
  rw [List.length_append, List.length_append, List.nil_append, count] at all
  obtain rfl : c = [] := List.length_eq_zero_iff.mp (by omega)
  obtain rfl : c' = [] := List.length_eq_zero_iff.mp (by omega)
  have front := (first.takes fun m => gapless (List.mem_of_mem_take m)).length_eq
  rw [List.length_take_of_le h.inside] at front
  refine ⟨?_, ?_⟩
  · rw [front, List.drop_left]
    simp
  · simpa using count

/-- The rule of a stub suits the opcode in front of the address bytes: what `mov rax` loads is taken
as it stands, and a displacement counts from where the instruction ends. -/
inductive Suits (p : Pattern) (lead : Nat) : (opcode : List UInt8) → Prop
  | load (rule : p.rule = absolute) (width : p.addressBytes = 8) : Suits p lead [0x48, 0xb8]
  | through (relative : p.rule.form.absolute = false) (short : p.rule.form.wide = false)
      (indirect : p.rule.form.indirect = true) (width : p.addressBytes = 4)
      (anchor : p.rule.anchor = lead + 6) : Suits p lead [0xff, 0x25]
  | direct {code : List UInt8} (among : code ∈ [[0xe8], [0xe9], [0x0f, 0x85]])
      (relative : p.rule.form.absolute = false) (short : p.rule.form.wide = false)
      (direct : p.rule.form.indirect = false) (width : p.addressBytes = 4)
      (anchor : p.rule.anchor = lead + (code.length + 4)) : Suits p lead code

/-- A displacement of 32 bits is added to the place that it counts from. -/
theorem target_of_relative {rule : AddressRule} (relative : rule.form.absolute = false)
    (short : rule.form.wide = false) {base size : Nat} (anchor : rule.anchor = lead + size)
    (captured : Nat) : rule.target base 0 captured =
      wrapWord ((base + lead + size : Nat) + signed32 captured) := by
  rw [AddressRule.target, AddressRule.displacement, relative, short, if_neg nofun, if_neg nofun,
    anchor]
  congr 2
  push_cast
  omega

/-- The address in the instruction is the one that the rule makes of the captured bytes. -/
theorem Suits.held (h : Suits p lead opcode) (size : caught.length = p.addressBytes) (base : Nat)
    (tail : List UInt8) : ∃ instruction,
      decode? (base + lead) (opcode ++ caught ++ tail) = some instruction ∧
        instruction.bytes = opcode ++ caught ∧
        p.rule.form.held? instruction = some (p.rule.target base 0 (ofLeBytes caught)) := by
  cases h with
  | load rule width =>
    obtain ⟨i, there, bytes, loads⟩ :=
      Instruction.decode?_load (base + lead) (size.trans width) tail
    refine ⟨i, there, bytes, ?_⟩
    rw [rule]
    exact loads
  | through relative short indirect width anchor =>
    obtain ⟨i, there, bytes, jumps⟩ :=
      Instruction.decode?_through (base + lead) (size.trans width) tail
    refine ⟨i, there, bytes, ?_⟩
    rw [AddressForm.held?, relative, indirect, if_neg nofun, if_pos rfl, jumps,
      target_of_relative relative short anchor]
  | direct among relative short direct width anchor =>
    have four := size.trans width
    obtain ⟨i, there, bytes, leads⟩ :=
      Instruction.decode?_relative (base + lead) among four tail
    refine ⟨i, there, bytes, ?_⟩
    rw [AddressForm.held?, relative, direct, if_neg nofun, if_neg nofun, leads,
      target_of_relative relative short anchor, List.length_append, four]

/-- Each stub holds its address in an instruction that its rule suits. -/
theorem stubs_embed : ∀ p ∈ stubs, ∃ lead opcode, Embeds p lead opcode ∧ Suits p lead opcode := by
  simp only [stubs, List.forall_mem_cons]
  exact ⟨⟨23, [0x48, 0xb8], ⟨by decide, by decide⟩, .load rfl rfl⟩,
    ⟨0, [0xe9], ⟨by decide, by decide⟩, .direct (by decide) rfl rfl rfl rfl rfl⟩,
    ⟨0, [0x48, 0xb8], ⟨by decide, by decide⟩, .load rfl rfl⟩,
    ⟨13, [0x0f, 0x85], ⟨by decide, by decide⟩, .direct (by decide) rfl rfl rfl rfl rfl⟩,
    ⟨15, [0x48, 0xb8], ⟨by decide, by decide⟩, .load rfl rfl⟩,
    ⟨0, [0xe8], ⟨by decide, by decide⟩, .direct (by decide) rfl rfl rfl rfl rfl⟩,
    ⟨0, [0xe8], ⟨by decide, by decide⟩, .direct (by decide) rfl rfl rfl rfl rfl⟩,
    ⟨0, [0xff, 0x25], ⟨by decide, by decide⟩, .through rfl rfl rfl rfl rfl⟩,
    ⟨7, [0xff, 0x25], ⟨by decide, by decide⟩, .through rfl rfl rfl rfl rfl⟩,
    ⟨12, [0xff, 0x25], ⟨by decide, by decide⟩, .through rfl rfl rfl rfl rfl⟩,
    ⟨0, [0xff, 0x25], ⟨by decide, by decide⟩, .through rfl rfl rfl rfl rfl⟩,
    ⟨7, [0xff, 0x25], ⟨by decide, by decide⟩, .through rfl rfl rfl rfl rfl⟩,
    ⟨12, [0xff, 0x25], ⟨by decide, by decide⟩, .through rfl rfl rfl rfl rfl⟩,
    List.forall_mem_nil _⟩

/-! ## Stubs are told apart -/

theorem stubs_gapless : ∀ p ∈ stubs, Gapless p.items := by decide

/-- How far behind its start a stub has its literal. -/
def literalPlace (p : Pattern) : Nat := (PatternCollection.indexKey p).elim 0 Prod.fst

/-- As far as to its literal a stub clashes with all stubs that could begin there, itself at its
start apart. -/
theorem stubs_clash : ∀ a ∈ stubs.zipIdx, ∀ b ∈ stubs.zipIdx, ∀ start ≤ literalPlace a.1,
    (b.1.anchored = true → start = 0) →
      Clash (a.1.items.drop start) b.1.items ∨ (b.2 = a.2 ∧ start = 0) := by
  decide +kernel

/-- Bytes of a stub's shape are met by no other stub, and by this one at their start only. -/
theorem stubs_alone (there : stubs[i]? = some stub) (split : Splits stub.items shape caught)
    (other : stubs[j]? = some q) (met : MatchesAt q (shape ++ rest) start)
    (soon : start ≤ literalPlace stub) : j = i ∧ start = 0 := by
  have member := List.mem_of_getElem? there
  have member' := List.mem_of_getElem? other
  have own := List.forall₂_drop start (split.takes (stubs_gapless _ member))
  obtain ⟨bytes, begins, takes⟩ :=
    (stubs_accepted _ member').takes_of_matchAt? (stubs_gapless _ member') met.1
  rcases stubs_clash (stub, i) (List.mem_zipIdx_iff_getElem?.mpr there) (q, j)
    (List.mem_zipIdx_iff_getElem?.mpr other) start soon met.2 with clash | same
  · have mine : shape.drop start <+: (shape ++ rest).drop start := by
      rw [List.drop_append]
      exact List.prefix_append ..
    exact absurd clash (PatternItem.Takes.not_clash own takes mine begins)
  · exact same

/-- For every stub of the table, all bytes of its shape and whatever follows them: the search finds
that stub, where the bytes begin. At any address the captured bytes are the end of one instruction,
and the address that the stub leads to is the one that this instruction holds: the word that it
loads, the target of its jump, branch or call, or the cell that it jumps through. -/
theorem every_stub_is_known_by_its_shape (there : stubs[i]? = some stub)
    (split : Splits stub.items shape caught) (rest : List UInt8) (base : Nat) :
    ∃ found, table.find? (shape ++ rest) = some ⟨⟨i, stub⟩, found⟩ ∧ found.offset = 0 ∧
      found.length = shape.length ∧ found.captured = ofLeBytes caught ∧
      ∃ lead opcode instruction, Embeds stub lead opcode ∧
        decode? (base + lead) ((shape ++ rest).drop lead) = some instruction ∧
        instruction.bytes = opcode ++ caught ∧
        stub.rule.form.held? instruction = some (stub.rule.target base 0 found.captured) := by
  have member := List.mem_of_getElem? there
  have accepted := stubs_accepted stub member
  have gapless := stubs_gapless stub member
  obtain ⟨offset, first, key⟩ := stubs_indexed stub member
  have place : literalPlace stub = offset := by rw [literalPlace, key]; rfl
  have here := accepted.matchAt?_of_splits gapless split rest
  have found := PatternCollection.find?_of_alone stubs_accepted there ⟨first, key⟩ here
    fun j q start other met soon => stubs_alone there split other met (place ▸ soon)
  obtain ⟨lead, opcode, embeds, suits⟩ := stubs_embed stub member
  obtain ⟨⟨more, code⟩, size⟩ := embeds.code gapless split
  obtain ⟨instruction, decoded, bytes, held⟩ := suits.held size base (more ++ rest)
  have within : lead ≤ shape.length := (split.takes gapless).length_eq ▸ embeds.inside
  rw [← List.append_assoc, code, ← List.drop_append_of_le_length within] at decoded
  have value := Pattern.capturedValue_eq caught
  refine ⟨_, found, rfl, rfl, value, lead, opcode, instruction, embeds, decoded, bytes, ?_⟩
  rw [held, value]

/-- The open bytes of this stub look like another stub, and a third one follows it. -/
theorem a_branch_is_known_by_its_shape :
    let shape := [0x48, 0xb8, 0xe9, 0, 0, 0, 0, 0x5f, 0, 0, 0x66, 0xff, 0x08, 0x0f, 0x85, 0xf0,
      0xff, 0xff, 0xff]
    stubs[3]? = some countdownBranch ∧
      Splits countdownBranch.items shape [0xf0, 0xff, 0xff, 0xff] ∧
      ∃ found, table.find? (shape ++ [0xe8, 0, 0, 0, 0, 0x5e]) =
          some ⟨⟨3, countdownBranch⟩, found⟩ ∧ found.offset = 0 ∧
        countdownBranch.rule.target 0x1000 0 found.captured = 0x1003 := by
  intro shape
  have split : Splits countdownBranch.items shape [0xf0, 0xff, 0xff, 0xff] :=
    .masked rfl <| .literal _ <| .any _ <| .any _ <| .any _ <| .any _ <| .any _ <| .any _ <|
      .any _ <| .any _ <| .literal _ <| .literal _ <| .masked rfl <| .literal _ <| .literal _ <|
      .address _ <| .address _ <| .address _ <| .address _ .nil
  obtain ⟨found, search, start, -, value, -⟩ :=
    every_stub_is_known_by_its_shape (i := 3) rfl split [0xe8, 0, 0, 0, 0, 0x5e] 0x1000
  exact ⟨rfl, split, found, search, start, by rw [value]; decide⟩

end Thunk

end Detouring
