-- Where an alternate entry goes on. It runs whole instructions, and the first one that it leaves
-- where it was starts at the first boundary behind the bytes that it has to replace. It gets there
-- by a jump, or it has a callee return there.
import Detouring.Proofs.Operation
import Detouring.Relocation.AlternateEntry
import Mathlib.Order.Bounds.Basic

namespace Detouring

namespace AlternateEntry

open Relocation

variable {entry count : Nat} {code : List UInt8} {n n' k k' : Nat} {l : List Instruction}

/-! ## Boundaries -/

/-- How far into the code the instruction with a number starts, if the ones before it can be
read. -/
def boundary? (entry : Nat) (code : List UInt8) : Nat → Option Nat
  | 0 => some 0
  | n + 1 => (boundary? entry code n).bind fun k =>
      (Instruction.decode? (entry + k) (code.drop k)).map fun i => k + i.length

/-- An instruction of the code at `entry` starts at the address. -/
def IsBoundary (entry : Nat) (code : List UInt8) (address : Nat) : Prop :=
  ∃ n k, boundary? entry code n = some k ∧ address = entry + k

theorem boundary?_succ {i : Instruction} (h : boundary? entry code n = some k)
    (here : Instruction.decode? (entry + k) (code.drop k) = some i) :
    boundary? entry code (n + 1) = some (k + i.length) := by
  rw [boundary?, h, Option.bind_some, here, Option.map_some]

theorem boundary?_mono (le : n ≤ n') (h : boundary? entry code n = some k)
    (h' : boundary? entry code n' = some k') : k ≤ k' := by
  induction n', le using Nat.le_induction generalizing k' with
  | base =>
    rw [h] at h'
    exact (Option.some.inj h').le
  | succ n' le ih =>
    simp only [boundary?, Option.bind_eq_some_iff, Option.map_eq_some_iff] at h'
    obtain ⟨before, there, i, _, rfl⟩ := h'
    exact Nat.le_add_right_of_le (ih there)

/-! ## The instructions that are taken -/

/-- Instructions that are taken from a boundary on follow each other; they end at the first
boundary behind the bytes to be covered. -/
theorem takeInstructions_spec {c : Nat} (h : boundary? entry code n = some k)
    (taken : takeInstructions entry c (entry + k) (code.drop k) = .ok l) :
    boundary? entry code (n + l.length) = some (k + sumOf Instruction.length l) ∧
      (∀ last, l.getLast? = some last → last.next = entry + (k + sumOf Instruction.length l)) ∧
      c ≤ sumOf Instruction.length l ∧
      ∀ n' k', n ≤ n' → boundary? entry code n' = some k' → k + c ≤ k' →
        k + sumOf Instruction.length l ≤ k' := by
  induction c using Nat.strong_induction_on generalizing n k l with
  | _ c ih =>
    unfold takeInstructions at taken
    split at taken
    · cases taken
      exact ⟨h, nofun, by omega, fun _ _ le h' _ => boundary?_mono le h h'⟩
    split at taken
    · cases taken
    split at taken
    · cases taken
    rename_i i here
    have next : i.next = entry + (k + i.length) := by
      rw [Instruction.next, Instruction.address_decode? here, Nat.add_assoc]
    have long := (Instruction.bytes_decode? here).2
    have after := boundary?_succ h here
    rw [next, List.drop_drop] at taken
    rcases more : takeInstructions entry (c - i.length) (entry + (k + i.length))
      (code.drop (k + i.length)) with e | rest <;> rw [more] at taken
    · cases taken
    obtain rfl := Except.ok.inj taken
    obtain ⟨stop, ends, covers, first⟩ := ih (c - i.length) (by omega) after more
    rw [sumOf_cons, List.length_cons, ← Nat.add_assoc k, Nat.add_comm rest.length, ← Nat.add_assoc]
    refine ⟨stop, fun last hl => ?_, by omega, fun n' k' le h' behind => ?_⟩
    · rcases rest with _ | ⟨second, rest⟩
      · obtain rfl := Option.some.inj hl
        exact next
      · exact ends last (List.getLast?_cons_cons.symm.trans hl)
    · have apart : n ≠ n' := by
        rintro rfl
        rw [h] at h'
        have := Option.some.inj h'
        omega
      have later : k + i.length ≤ k' := boundary?_mono (by omega) after h'
      exact first n' k' (by omega) h' (by omega)

/-! ## The end of the block -/

/-- The instructions go on at `next`: they end in a jump there, or in a call that was taken apart.
Then `next` is pushed for the callee to return to. -/
inductive GoesOn (next : Nat) : List Movable → Prop where
  | byJump (before : List Movable) : GoesOn next (before ++ [jumpBack next])
  | byReturn (before : List Movable) (home cell : Nat) (jump : Movable) : GoesOn next (before ++
      [⟨home, 0xff :: 0x35 :: hole, .data 2 cell⟩, jump, ⟨cell, leBytes 8 next, .none⟩])

theorem movables_goesOn {next : Nat} {items : List Movable}
    (ends : ∀ last, l.getLast? = some last → last.next = next)
    (h : movables l next = .ok items) : GoesOn next items := by
  unfold movables at h
  split at h
  · obtain rfl := Except.ok.inj h
    exact .byJump []
  · rename_i last hl
    obtain rfl := ends last hl
    split at h
    · unfold returningCall at h
      split at h
      · cases h
      · obtain rfl := Except.ok.inj h
        exact .byReturn _ _ _ _
    · obtain rfl := Except.ok.inj h
      exact .byJump _

/-! ## Building -/

/-- The code at `entry` as far as it is read to cover its first bytes. -/
def codeAt (m : Memory) (entry count : Nat) : List UInt8 :=
  let guess := count + Instruction.maxLength
  m.peek entry (min (Region.readableLength m.mapRegions entry guess) guess)

/-- The block holds instructions that go on at `next`, and that is where the first instruction
starts that none of the first `count` bytes belongs to. -/
structure Resumes (m : Memory) (entry count : Nat) (b : Block) (next : Nat) (m' : Memory) :
    Prop where
  first : IsLeast { x | IsBoundary entry (codeAt m entry count) x ∧ entry + count ≤ x } next
  written : ∃ items code, GoesOn next items ∧ relocate b.base items = .ok code ∧
    m'.peek b.base code.length = code

theorem instructionsAt_spec {m : Memory} (h : instructionsAt m entry count = .ok l) :
    (∀ last, l.getLast? = some last → last.next = entry + sumOf Instruction.length l) ∧
      IsLeast { x | IsBoundary entry (codeAt m entry count) x ∧ entry + count ≤ x }
        (entry + sumOf Instruction.length l) := by
  unfold instructionsAt at h
  dsimp only at h
  split at h
  · cases h
  have start : boundary? entry (codeAt m entry count) 0 = some 0 := rfl
  obtain ⟨stop, ends, covers, first⟩ := takeInstructions_spec start h
  simp only [Nat.zero_add] at stop ends first
  refine ⟨ends, ⟨⟨_, _, stop, rfl⟩, by omega⟩, ?_⟩
  rintro _ ⟨⟨n, k, there, rfl⟩, behind⟩
  have := first n k (Nat.zero_le n) there (by omega)
  omega

/-- Wherever the block finds room, it is laid out for that place. -/
theorem settle_written (entry : Nat) (items : List Movable) (near : Bool)
    (attempts estimate : Nat) (m : Machine) :
    (settle entry items near attempts estimate).Ends m
      (fun b m' => ∃ code, relocate b.base items = .ok code ∧ code.length ≤ b.size ∧
        m'.memory.peek b.base code.length = code) fun _ => True := by
  induction attempts generalizing m estimate with
  | zero => exact Op.Ends.throw trivial
  | succ attempts ih =>
    apply Op.Ends.bind
    rcases found : (allocate entry estimate near).on m with ⟨result, m₁⟩
    refine .of_on found (fun b _ => ?_) fun _ _ => trivial
    split
    · apply Op.Ends.bind
      apply Op.Ends.change
      exact Op.Ends.throw trivial
    · rename_i code laid
      split
      · rename_i fits
        have inside : b.checkWrite 0 code.length = .ok () := if_neg (by omega)
        have wrote : (Machine.writeBlock b 0 code).on m₁ = (.ok (), m₁.write b.base code) := by
          simp only [Machine.writeBlock, Op.on_of, inside, Nat.add_zero]
        apply Op.Ends.bind
        apply Op.Ends.cleaning
        refine .of_on wrote (fun _ _ => Op.Ends.pure ⟨code, laid, fits, ?_⟩) fun _ _ => trivial
        exact Memory.peek_write _ _ _
      · apply Op.Ends.bind
        apply Op.Ends.change
        exact ih code.length _

/-- The block holds instructions that were taken at `entry`, laid out for its place. -/
structure Holds (m : Memory) (entry count : Nat) (b : Block) (m' : Memory) (l : List Instruction)
    (items : List Movable) (code : List UInt8) : Prop where
  taken : instructionsAt m entry count = .ok l
  movable : movables l (entry + sumOf Instruction.length l) = .ok items
  laid : relocate b.base items = .ok code
  fits : code.length ≤ b.size
  written : m'.peek b.base code.length = code

theorem build_holds (entry count : Nat) (m : Machine) :
    (build entry count).Ends m
      (fun b m' => ∃ l items code, Holds m.memory entry count b m'.memory l items code)
      fun _ => True := by
  apply Op.Ends.bind
  apply Op.Ends.get
  apply Op.Ends.bind
  apply Op.Ends.lift _ fun _ _ => trivial
  intro l taken
  apply Op.Ends.bind
  apply Op.Ends.lift _ fun _ _ => trivial
  intro items movable
  apply (settle_written entry items _ 4 _ m).mono _ fun _ h => h
  rintro b m' ⟨code, laid, fits, written⟩
  exact ⟨l, items, code, taken, movable, laid, fits, written⟩

theorem build_resumes (entry count : Nat) (m : Machine) :
    (build entry count).Ends m
      (fun b m' => ∃ next, Resumes m.memory entry count b next m'.memory) fun _ => True := by
  apply (build_holds entry count m).mono _ fun _ h => h
  rintro b m' ⟨l, items, code, holds⟩
  obtain ⟨ends, first⟩ := instructionsAt_spec holds.taken
  exact ⟨_, first, items, code, movables_goesOn ends holds.movable, holds.laid, holds.written⟩

end AlternateEntry

end Detouring
