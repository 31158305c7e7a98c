-- What an alternate entry names. Every instruction that was taken is carried by one of the block,
-- and a target that does not move along stays the same. Only addresses that the block itself made up
-- for a call that it took apart, or for its jump back, lead elsewhere.
import Detouring.Proofs.Relocation.Carrying
import Detouring.Proofs.Relocation.Resuming
import Detouring.Proofs.Relocation.Returning

namespace Detouring

namespace AlternateEntry

open Relocation

variable {entry count next t k : Nat} {l : List Instruction} {items : List Movable} {m : Memory}
  {i : Instruction} {code : List UInt8}

/-! ## The instructions that are taken -/

/-- What is taken was read where it lies, within the bytes that are covered. -/
theorem mem_takeInstructions {c address : Nat} (h : takeInstructions entry c address code = .ok l)
    (mi : i ∈ l) : (∃ code, Instruction.decode? i.address code = some i) ∧ address ≤ i.address ∧
      i.address < address + sumOf Instruction.length l := by
  induction c using Nat.strong_induction_on generalizing address code l with
  | _ c ih =>
    unfold takeInstructions at h
    split at h
    · cases h
      cases mi
    split at h
    · cases h
    split at h
    · cases h
    rename_i first here
    have place := Instruction.address_decode? here
    have long := (Instruction.bytes_decode? here).2
    rcases more : takeInstructions entry (c - first.length) first.next (code.drop first.length)
      with e | rest <;> rw [more] at h
    · cases h
    obtain rfl := Except.ok.inj h
    rw [sumOf_cons]
    rcases List.mem_cons.mp mi with rfl | mi
    · exact ⟨⟨code, place ▸ here⟩, Nat.le_of_eq place.symm, by omega⟩
    · obtain ⟨read, above, below⟩ := ih _ (by omega) more mi
      rw [Instruction.next, place] at above below
      exact ⟨read, by omega, by omega⟩

/-- What is taken follows each other. -/
theorem pairwise_takeInstructions {c address : Nat}
    (h : takeInstructions entry c address code = .ok l) :
    l.Pairwise fun i j => i.address < j.address := by
  induction c using Nat.strong_induction_on generalizing address code l with
  | _ c ih =>
    unfold takeInstructions at h
    split at h
    · cases h
      exact .nil
    split at h
    · cases h
    split at h
    · cases h
    rename_i first here
    have long := (Instruction.bytes_decode? here).2
    rcases more : takeInstructions entry (c - first.length) first.next (code.drop first.length)
      with e | rest <;> rw [more] at h
    · cases h
    obtain rfl := Except.ok.inj h
    refine List.pairwise_cons.mpr ⟨fun j mj => ?_, ih _ (by omega) more⟩
    have := (mem_takeInstructions more mj).2.1
    rw [Instruction.next] at this
    omega

theorem pairwise_instructionsAt {m : Memory} (h : instructionsAt m entry count = .ok l) :
    l.Pairwise fun i j => i.address < j.address := by
  unfold instructionsAt at h
  dsimp only at h
  split at h
  · cases h
  · exact pairwise_takeInstructions h

theorem mem_instructionsAt {m : Memory} (h : instructionsAt m entry count = .ok l) (mi : i ∈ l) :
    (∃ code, Instruction.decode? i.address code = some i) ∧ entry ≤ i.address ∧
      i.address < entry + sumOf Instruction.length l := by
  unfold instructionsAt at h
  dsimp only at h
  split at h
  · cases h
  · exact mem_takeInstructions h mi

/-! ## The block for them -/

/-- The call at the end of what is taken, and its form. -/
def trailingCall? (l : List Instruction) : Option (Instruction × CallForm) :=
  l.getLast?.bind fun last => last.call?.map (last, ·)

/-- The last instruction is followed by a jump back, or it is a call that is taken apart. -/
theorem movables_cases (h : movables l next = .ok items) :
    (trailingCall? l = none ∧ items = l.map Movable.ofInstruction ++ [jumpBack next]) ∨
    ∃ front last form bytes relation, l = front ++ [last] ∧ last.call? = some form ∧
      callAsJump? last form = some (bytes, relation) ∧
      items = front.map Movable.ofInstruction ++
        [⟨last.address, 0xff :: 0x35 :: hole, .data 2 (last.address + pushLength + bytes.length)⟩,
          ⟨last.address + pushLength, bytes, relation⟩,
          ⟨last.address + pushLength + bytes.length, leBytes 8 last.next, .none⟩] := by
  unfold movables at h
  split at h
  · rename_i none
    obtain rfl := List.getLast?_eq_none_iff.mp none
    obtain rfl := Except.ok.inj h
    exact .inl ⟨rfl, rfl⟩
  · rename_i last some
    split at h
    · rename_i form calls
      unfold returningCall at h
      split at h
      · cases h
      · rename_i bytes relation jump
        obtain rfl := Except.ok.inj h
        have whole : l = l.dropLast ++ [last] := (List.dropLast_append_getLast? last some).symm
        exact .inr ⟨_, last, form, bytes, relation, whole, calls, jump, rfl⟩
    · rename_i plain
      obtain rfl := Except.ok.inj h
      exact .inl ⟨by simp [trailingCall?, some, plain], rfl⟩

/-! ## The addresses of a block -/

/-- The addresses by which a block knows instructions that it made up: the jump and the cell in
place of a call, or the jump back. -/
def invented (l : List Instruction) : List Nat :=
  match trailingCall? l with
  | none => [0]
  | some (last, form) =>
    let jumpHome := last.address + pushLength
    [jumpHome, jumpHome + (callAsJump? last form).elim 0 (·.1.length)]

theorem mem_homes (h : movables l next = .ok items) (mt : t ∈ items.map Movable.home) :
    t ∈ l.map Instruction.address ∨ t ∈ invented l := by
  have home (l : List Instruction) : (l.map Movable.ofInstruction).map Movable.home =
      l.map Instruction.address := by
    rw [List.map_map]
    rfl
  rcases movables_cases h with
    ⟨plain, rfl⟩ | ⟨front, last, form, bytes, relation, rfl, calls, jump, rfl⟩
  · rw [List.map_append, home] at mt
    rcases List.mem_append.mp mt with mt | mt
    · exact .inl mt
    · refine .inr ?_
      rw [invented, plain]
      exact mt
  · rw [List.map_append, home] at mt
    have made : invented (front ++ [last]) =
        [last.address + pushLength, last.address + pushLength + bytes.length] := by
      simp [invented, trailingCall?, calls, jump]
    rw [made]
    simp only [List.map_cons, List.map_nil, List.mem_append, List.mem_cons, List.not_mem_nil,
      or_false, List.map_append] at mt ⊢
    tauto

/-- Where a target leads that no instruction of the block is known by. -/
theorem outside_homes (h : movables l next = .ok items)
    (inside : ∀ i ∈ l, entry ≤ i.address ∧ i.address < entry + sumOf Instruction.length l)
    (outside : t < entry ∨ entry + sumOf Instruction.length l ≤ t) (genuine : t ∉ invented l) :
    t ∉ items.map Movable.home := by
  intro mt
  rcases mem_homes h mt with mt | mt
  · obtain ⟨i, mi, rfl⟩ := List.mem_map.mp mt
    have := inside i mi
    omega
  · exact genuine mt

/-! ## What carries an instruction -/

/-- The number in the block of what carries an instruction. A call that is taken apart has its push
before it. -/
def placeOf (l : List Instruction) (k : Nat) : Nat :=
  if (trailingCall? l).isSome ∧ k + 1 = l.length then k + 1 else k

/-- What a block has for an instruction names the same target and does the same with it. -/
structure Carrier (i : Instruction) (x : Movable) : Prop where
  target : x.relation.target? = i.relation.target?
  proper : x.relation.Proper
  shape : x.NamesData
  carries : ∀ m : Memory, ∀ lo hi t, m.Carries x.relation lo hi t → m.Carries i.relation lo hi t

theorem carrier_ofInstruction {address : Nat} (h : Instruction.decode? address code = some i) :
    Carrier i (Movable.ofInstruction i) := by
  have proper := Instruction.proper_of_decode? h
  refine ⟨Movable.target?_ofInstruction i, Movable.proper_ofInstruction proper,
    Movable.namesData_ofInstruction h, fun m lo hi t carried => ?_⟩
  unfold Movable.ofInstruction at carried
  cases relation : i.relation <;> rw [relation] at carried <;> exact carried

theorem carrier_jump {address : Nat} {form : CallForm} {bytes : List UInt8} {relation : Relation}
    (h : Instruction.decode? address code = some i) (calls : i.call? = some form)
    (jump : callAsJump? i form = some (bytes, relation)) (home : Nat) :
    Carrier i ⟨home, bytes, relation⟩ := by
  obtain ⟨target, proper, shape⟩ := jump_spec h calls jump home
  refine ⟨target, proper, shape, fun m lo hi t carried => ?_⟩
  rcases Instruction.near_of_hasJump h calls (hasJump_of_callAsJump? jump) with rfl | rfl
  · obtain ⟨t, direct⟩ := Instruction.near32_parts h calls
    rw [callAsJump?, direct] at jump
    obtain ⟨-, rfl⟩ := Prod.mk.inj (Option.some.inj jump)
    rw [direct]
    exact carried
  · obtain ⟨-, rfl⟩ := Prod.mk.inj (Option.some.inj jump)
    exact (carrier_ofInstruction h).carries m lo hi t carried

theorem carrier_movables (h : movables l next = .ok items)
    (read : ∀ i ∈ l, ∃ address code, Instruction.decode? address code = some i)
    (at' : l[k]? = some i) : ∃ x, items[placeOf l k]? = some x ∧ Carrier i x := by
  obtain ⟨address, code, here⟩ := read i (List.mem_of_getElem? at')
  have below : k < l.length := (List.getElem?_eq_some_iff.mp at').1
  rcases movables_cases h with
    ⟨plain, rfl⟩ | ⟨front, last, form, bytes, relation, rfl, calls, jump, rfl⟩
  · have place : placeOf l k = k := by simp [placeOf, plain]
    refine ⟨_, ?_, carrier_ofInstruction here⟩
    rw [place, List.getElem?_append_left (by simpa using below), List.getElem?_map, at']
    rfl
  · have trailing : trailingCall? (front ++ [last]) = some (last, form) := by
      simp [trailingCall?, calls]
    rw [List.length_append, List.length_singleton] at below
    rcases Nat.lt_or_eq_of_le (Nat.le_of_lt_succ below) with earlier | rfl
    · have place : placeOf (front ++ [last]) k = k := by
        rw [placeOf, if_neg]
        simp
        omega
      refine ⟨_, ?_, carrier_ofInstruction here⟩
      rw [List.getElem?_append_left earlier] at at'
      rw [place, List.getElem?_append_left (by simpa using earlier), List.getElem?_map, at']
      rfl
    · have place : placeOf (front ++ [last]) front.length = front.length + 1 := by
        simp [placeOf, trailing]
      obtain rfl : last = i := by simpa using at'
      refine ⟨_, ?_, carrier_jump here calls jump (last.address + pushLength)⟩
      rw [place, List.getElem?_append_right (by simp)]
      simp

/-! ## The targets of an alternate entry -/

theorem roomy_movables (h : movables l next = .ok items)
    (read : ∀ i ∈ l, ∃ address code, Instruction.decode? address code = some i) :
    ∀ x ∈ items, x.Roomy := by
  have taken (i : Instruction) (mi : i ∈ l) : (Movable.ofInstruction i).Roomy := by
    obtain ⟨address, code, here⟩ := read i mi
    exact (Movable.namesData_ofInstruction here).roomy
  intro x mx
  rcases movables_cases h with
    ⟨_, rfl⟩ | ⟨front, last, form, bytes, relation, rfl, calls, jump, rfl⟩
  · rcases List.mem_append.mp mx with mx | mx
    · obtain ⟨i, mi, rfl⟩ := List.mem_map.mp mx
      exact taken i mi
    · rw [List.mem_singleton.mp mx]
      exact nofun
  · rcases List.mem_append.mp mx with mx | mx
    · obtain ⟨i, mi, rfl⟩ := List.mem_map.mp mx
      exact taken i (List.mem_append_left _ mi)
    · simp only [List.mem_cons, List.not_mem_nil, or_false] at mx
      obtain ⟨address, code, here⟩ := read last (by simp)
      rcases mx with rfl | rfl | rfl
      · intro offset t push
        obtain ⟨rfl, -⟩ := Relation.data.inj push
        exact Nat.le_refl 6
      · exact (jump_spec here calls jump _).2.2.roomy
      · exact nofun

/-- In a block that was written below the top of the address space, what carries an instruction
carries its target, if that is not an address of the block. -/
theorem carries_relocated {base : Nat} {moved : List UInt8} (h : movables l next = .ok items)
    (read : ∀ i ∈ l, ∃ address code, Instruction.decode? address code = some i)
    (laid : relocate base items = .ok moved) (written : m.peek base moved.length = moved)
    (top : base + moved.length < wordCount) (at' : l[k]? = some i)
    (names : i.relation.target? = some t) (outside : t ∉ items.map Movable.home) :
    ∃ p, (layout base items)[placeOf l k]? = some p ∧ base ≤ p.address ∧
      p.stop ≤ base + moved.length ∧ m.Carries i.relation p.address p.stop t := by
  obtain ⟨x, there, carrier⟩ := carrier_movables h read at'
  obtain ⟨laidOut, _⟩ := layout_spec base items
  have placed := there
  rw [← laidOut.order, List.getElem?_map, Option.map_eq_some_iff] at placed
  obtain ⟨p, placed, rfl⟩ := placed
  obtain ⟨pre, post, whole⟩ := List.append_of_mem (List.mem_of_getElem? placed)
  have named : p.item.relation.target? = some t := carrier.target.trans names
  have stays : p.target (layout base items) = t := by
    rw [Placed.target, named, Option.getD_some, locate_eq_self (laidOut.map_home ▸ outside)]
  obtain ⟨place, inside, cell, w⟩ := written_of_relocate laid (roomy_movables h read) written top
    whole fun _ => stays ▸ carrier.proper.lt_wordCount named
  rw [stays] at w
  have carried := carries_of_written w carrier.shape carrier.proper named
  exact ⟨p, placed, by omega, inside, carrier.carries m _ _ t carried⟩

/-- A process with some code in its only page. -/
def startingWith (code : List UInt8) : Machine :=
  { arena := { source :=
      { memory := (Memory.mk [⟨0x10000, .readExecute, none⟩] fun _ => 0x90).write 0x10000 code
        next := 0x20000 } } }

end AlternateEntry

end Detouring
