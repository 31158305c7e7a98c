-- Reading jumps back. The bytes of a jump say where it leads, or through which cell; what was
-- written for a jump reads back as that jump.
import Detouring.Jump.Basic
import Detouring.Jump.Follow
import Detouring.Proofs.Memory.Places

namespace Detouring

/-- What the bytes of a jump say: its target, or the cell that holds its target. -/
inductive WrittenJump where
  | direct (target : Nat)
  | through (cell : Nat)
deriving DecidableEq

namespace Memory

/-- The jump that stands at an address: `jmp rel32`, or `jmp [rip + rel32]`. -/
def writtenJump? (m : Memory) (address : Nat) : Option WrittenJump :=
  match m.peek address 6 with
  | [0xe9, a, b, c, d, _] =>
    some (.direct (wrapWord (address + 5 + signed32 (ofLeBytes [a, b, c, d]))))
  | [0xff, 0x25, a, b, c, d] =>
    some (.through (wrapWord (address + 6 + signed32 (ofLeBytes [a, b, c, d]))))
  | _ => none

/-- Where a jump leads. -/
def destination (m : Memory) : WrittenJump → Nat
  | .direct target => target
  | .through cell => m.word cell

/-- Where the jump at an address leads. -/
def jumpDestination? (m : Memory) (address : Nat) : Option Nat :=
  (m.writtenJump? address).map m.destination

/-- What can be followed with readable memory leads to the same place. -/
theorem jumpDestination?_of_jumpTarget? {m : Memory} {address target : Nat}
    (h : m.jumpTarget? address = some target) : m.jumpDestination? address = some target := by
  have peeked {x n : Nat} {l : List UInt8} (read : m.read? x n = some l) : m.peek x n = l := by
    unfold read? at read
    split at read
    · exact Option.some.inj read
    · cases read
  unfold jumpTarget? at h
  unfold jumpDestination? writtenJump?
  split at h
  · rename_i read
    rw [peeked read]
    exact h
  · rename_i a b c d read
    rw [peeked read]
    obtain ⟨l, cell, rfl⟩ := Option.map_eq_some_iff.mp h
    simp only [Option.map_some, destination, word, peeked cell]
  · cases h

end Memory

/-! ## Displacements -/

/-- A displacement that fits reads back. -/
theorem signed32_leSigned32 {i : Int} (fits : fitsSigned32 i = true) :
    signed32 (ofLeBytes (leSigned32 i)) = i := by
  simp only [fitsSigned32, decide_eq_true_eq] at fits
  have small : (i % 4294967296).toNat < 4294967296 := by omega
  have back : (((i % 4294967296).toNat : Nat) : Int) = i % 4294967296 :=
    Int.toNat_of_nonneg (Int.emod_nonneg i (by decide))
  rw [leSigned32, ofLeBytes_leBytes, show valuesIn 4 = 4294967296 from rfl]
  unfold signed32
  rw [Nat.mod_eq_of_lt small, Nat.mod_eq_of_lt small, back, Int.bmod]
  omega

theorem wrapWord_displacement {source length target : Nat} (near : reaches source length target)
    (word : target < wordCount) :
    wrapWord (source + length +
      signed32 (ofLeBytes (leSigned32 (displacement source length target)))) = target := by
  rw [signed32_leSigned32 near, displacement]
  have : (source : Int) + length + (target - ((source + length : Nat) : Int)) = (target : Nat) := by
    omega
  rw [this, wrapWord_of_lt target word]

theorem leSigned32_eq (i : Int) : ∃ a b c d, leSigned32 i = [a, b, c, d] := ⟨_, _, _, _, rfl⟩

namespace Jump

/-- The jump as its bytes should tell of it. -/
def written (j : Jump) : WrittenJump :=
  match j.form with
  | .relative => .direct j.target
  | .throughCell cell => .through cell.base
  | .absolute => .through (j.source + 6)

/-- The bytes of a jump read back as that jump. -/
theorem writtenJump?_of_bytes {j : Jump} {bytes : List UInt8} (encoded : j.bytes = .ok bytes)
    {m : Memory} (there : m.peek j.source j.size = bytes)
    (source : j.form = .absolute → j.source + 6 < wordCount) (target : j.target < wordCount)
    (cell : ∀ c, j.cell? = some c → c.base < wordCount) :
    m.writtenJump? j.source = some j.written := by
  obtain ⟨start, goal, form⟩ := j
  dsimp only at source target
  cases form with
  | relative =>
    by_cases near : reaches start 5 goal = true
    · obtain ⟨a, b, c, d, four⟩ := leSigned32_eq (displacement start 5 goal)
      have back := wrapWord_displacement near target
      simp only [Jump.bytes, size, JumpForm.size, near, if_true, Except.ok.injEq] at encoded there
      rw [← encoded, four] at there
      rw [four] at back
      simp only [Memory.writtenJump?, m.peek_add start 5 1, there]
      exact congrArg (fun x => some (WrittenJump.direct x)) back
    · simp [Jump.bytes, size, JumpForm.size, near] at encoded
  | throughCell block =>
    by_cases near : reaches start 6 block.base = true
    · obtain ⟨a, b, c, d, four⟩ := leSigned32_eq (displacement start 6 block.base)
      have back := wrapWord_displacement near (cell block rfl)
      simp only [Jump.bytes, size, JumpForm.size, near, if_true, Except.ok.injEq] at encoded there
      rw [← encoded, four] at there
      rw [four] at back
      simp only [Memory.writtenJump?, there]
      exact congrArg (fun x => some (WrittenJump.through x)) back
    · simp [Jump.bytes, size, JumpForm.size, near] at encoded
  | absolute =>
    simp only [Jump.bytes, size, JumpForm.size, Except.ok.injEq] at encoded there
    rw [← encoded, m.peek_add start 6 8] at there
    have front : m.peek start 6 = [0xff, 0x25, 0, 0, 0, 0] :=
      (List.append_inj there (by simp)).1
    simp only [Memory.writtenJump?, front]
    have zero : signed32 (ofLeBytes [0, 0, 0, 0]) = 0 := by decide
    rw [zero, Int.add_zero]
    exact congrArg (fun x => some (WrittenJump.through x)) (wrapWord_of_lt (start + 6) (source rfl))

/-- The bytes of a jump lead to its target. -/
theorem destination_written {j : Jump} {m : Memory}
    (encoded : j.bytes = .ok (m.peek j.source j.size)) (target : j.target < wordCount)
    (cell : ∀ c, j.cell? = some c → m.word c.base = j.target) :
    m.destination j.written = j.target := by
  obtain ⟨start, goal, form⟩ := j
  cases form with
  | relative => rfl
  | throughCell c => exact cell c rfl
  | absolute =>
    simp only [Jump.bytes, size, JumpForm.size, Except.ok.injEq, m.peek_add start 6 8] at encoded
    have back : leBytes 8 goal = m.peek (start + 6) 8 := (List.append_inj encoded (by simp)).2
    show ofLeBytes (m.peek (start + 6) 8) = goal
    rw [← back, ofLeBytes_leBytes]
    exact Nat.mod_eq_of_lt target

end Jump

end Detouring
