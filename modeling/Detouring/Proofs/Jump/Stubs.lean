-- Stubs that stand in memory. A stub leads where its cell points; building one takes a block of
-- its own, and pointing it elsewhere changes its cell and nothing else.
import Detouring.Jump.Stub
import Detouring.Proofs.Jump.Decoding
import Detouring.Proofs.Memory.Holdings

namespace Detouring.Stub

open Machine

variable {s : Stub} {m m' : Memory} {K : List Block}

/-- The stub has its form, and its code is in memory. -/
structure Stands (s : Stub) (m : Memory) : Prop where
  size : s.block.size = 16
  offset : s.cellOffset = 8
  code : m.peek s.entry 8 = Stub.code

namespace Stands

theorem has_code (h : s.Stands m) {i : Nat} (hi : i < 8) : s.block.Has (s.entry + i) := by
  have := h.size
  unfold entry Block.Has
  omega

theorem has_cell (h : s.Stands m) {i : Nat} (hi : i < 8) : s.block.Has (s.cell + i) := by
  have := h.size
  have := h.offset
  unfold cell Block.Has
  omega

theorem congr (h : s.Stands m) (same : ∀ x, s.block.Has x → m'.bytes x = m.bytes x) :
    s.Stands m' :=
  ⟨h.size, h.offset, (Memory.peek_congr fun _ hi => same _ (h.has_code hi)).trans h.code⟩

theorem word_congr (h : s.Stands m) (same : ∀ x, s.block.Has x → m'.bytes x = m.bytes x) :
    m'.word s.cell = m.word s.cell := Memory.word_congr fun _ hi => same _ (h.has_cell hi)

/-- Filling the cell leaves the code of the stub. -/
theorem writeWord (h : s.Stands m) (target : Nat) : s.Stands (m.writeWord s.cell target) := by
  refine ⟨h.size, h.offset, (Memory.peek_congr fun i hi => ?_).trans h.code⟩
  refine Memory.bytes_write_outside _ _ _ _ (Or.inl ?_)
  have := h.offset
  unfold entry cell
  omega

/-- Where the stub leads, as its bytes say. -/
theorem jumpDestination? (h : s.Stands m) (word : s.entry + 8 < wordCount) :
    m.jumpDestination? s.entry = some (m.word s.cell) := by
  have front : m.peek s.entry 6 = [0xff, 0x25, 2, 0, 0, 0] := by
    have code := h.code
    rw [m.peek_add s.entry 6 2] at code
    exact (List.append_inj code (by simp)).1
  have two : signed32 (ofLeBytes [2, 0, 0, 0]) = 2 := by decide
  have cell : s.cell = s.entry + 8 := by rw [Stub.cell, h.offset, entry]
  have wrapped : wrapWord ((s.entry : Int) + 6 + 2) = s.cell := by
    rw [cell]
    exact wrapWord_of_lt (s.entry + 8) word
  simp only [Memory.jumpDestination?, Memory.writtenJump?, front, Option.map_some, two, wrapped,
    Memory.destination]

end Stands

/-! ## Building -/

theorem ofBlock_ends {m : Machine} {block : Block} (h : m.Holds (block :: K))
    (size : block.size = 16) (target : Nat) :
    (ofBlock block Stub.code 8 target).Ends m
      (fun s m' => Gains K [s.block] m m' ∧ s.Stands m'.memory) (Gains K [] m) := by
  apply Op.Ends.cleaning
  split
  · apply Op.Ends.throw
    exact h.free
  · apply Op.Ends.bind
    have inside : 0 + Stub.code.length ≤ block.size := by rw [size]; decide
    apply (h.writeBlock inside).mono _ fun _ h => h
    rintro ⟨⟩ m₁ ⟨written, same⟩
    have stands : Stands ⟨block, 8⟩ m₁.memory := ⟨size, rfl, by
      subst same
      exact Memory.peek_write m.memory block.base Stub.code⟩
    have filled : 8 + (leBytes 8 target).length ≤ block.size := by rw [size, length_leBytes]
    apply Op.Ends.bind
    apply Op.Ends.change
    apply Op.Ends.pure
    exact ⟨written.trans (written.holds.write filled), stands.writeWord target⟩

/-- A new stub has a block of its own. -/
theorem build_ends {m : Machine} (h : m.Holds K) (target : Nat) :
    (build target).Ends m
      (fun s m' => Gains K [s.block] m m' ∧ s.Stands m'.memory) (Gains K [] m) := by
  apply Op.Ends.bind
  apply (h.allocate _).mono _ fun _ h => h
  rintro block m₁ ⟨gained, size⟩
  apply (ofBlock_ends gained.holds size target).mono
  · rintro s m₂ ⟨more, stands⟩
    exact ⟨gained.trans more, stands⟩
  · exact fun m₂ more => gained.trans more

end Detouring.Stub
