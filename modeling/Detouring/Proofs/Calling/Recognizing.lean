-- Which words are recognised. An order lays out the return buffer, the this pointer and the block
-- of arguments side by side. Words are recognised just if one order alone reads them so; a block
-- that can be found in two places counts for nothing, and a probe whose instance is not its record
-- never has one.
import Detouring.Calling.ArgumentOrder
import Mathlib.Data.List.Nodup

namespace Detouring.ArgumentOrder

/-! ## Words in an order -/

/-- The words of one argument of a probe. -/
def wordsOf (ret inst record : Nat) : SpecialArgument → List Nat
  | .returnBuffer => [ret]
  | .thisPointer => [inst]
  | .userArguments => [record, inst, record]
  | .genericContext => []

/-- The words that a probe passes in some order. -/
def layOut (order : ArgumentOrder) (ret inst record : Nat) : List Nat :=
  order.specialArguments.flatMap (wordsOf ret inst record)

/-- The words read, in this order, a return buffer that is neither the instance nor the record, the
instance, and the block of arguments. -/
def Reads (order : ArgumentOrder) (words : List Nat) (inst record : Nat) : Prop :=
  ∃ ret, ret ≠ inst ∧ ret ≠ record ∧ words = order.layOut ret inst record

/-- Where the block of arguments begins. -/
def blockAt : ArgumentOrder → Nat
  | argsThisRet | argsRetThis => 0
  | thisArgsRet | retArgsThis => 1
  | thisRetArgs | retThisArgs => 2

theorem blockAt_mem (order : ArgumentOrder) : order.blockAt ∈ [0, 1, 2] := by
  cases order <;> decide

variable {order other : ArgumentOrder} {words : List Nat} {inst record start : Nat}

/-! ## What explains the words -/

/-- An order that reads the words explains them, with the block where it has it. -/
theorem Reads.explain (h : order.Reads words inst record) :
    ArgumentOrder.explain words inst record order.blockAt = some order := by
  obtain ⟨ret, buffer, outside, rfl⟩ := h
  cases order <;>
    simp [ArgumentOrder.explain, layOut, specialArguments, wordsOf, blockAt, ofPlaces, buffer,
      outside]

/-- Words with the block in one place are the block and two words around it. -/
theorem around_block {first second : Nat} {block : List Nat}
    (there : (words.drop start).take 3 = block) (three : block.length = 3)
    (rest : words.take start ++ words.drop (start + 3) = [first, second]) :
    words = [first, second].take start ++ block ++ [first, second].drop start ∧ start ≤ 2 := by
  have size := congrArg List.length there
  have total := congrArg List.length rest
  simp only [List.length_append, List.length_take, List.length_drop, List.length_cons,
    List.length_nil, three] at size total
  have front : (words.take start).length = start := by
    rw [List.length_take]
    omega
  refine ⟨?_, by omega⟩
  rw [← rest, List.take_left' front, List.drop_left' front, ← there, List.append_assoc,
    ← List.drop_drop, List.take_append_drop, List.take_append_drop]

/-- What explains the words with the block in one place is an order that reads them so. -/
theorem reads_of_explain (h : explain words inst record start = some order) :
    order.Reads words inst record ∧ order.blockAt = start := by
  rw [explain] at h
  split_ifs at h with block
  split at h
  · rename_i first second rest
    obtain ⟨whole, within⟩ := around_block (not_not.mp block) rfl rest
    have places : start = 0 ∨ start = 1 ∨ start = 2 := by omega
    split_ifs at h with front inside back inside
    · obtain rfl := Option.some.inj h
      obtain ⟨rfl, buffer⟩ := front
      rcases places with rfl | rfl | rfl <;> exact ⟨⟨second, buffer, inside, whole⟩, rfl⟩
    · obtain rfl := Option.some.inj h
      obtain ⟨rfl, buffer⟩ := back
      rcases places with rfl | rfl | rfl <;> exact ⟨⟨first, buffer, inside, whole⟩, rfl⟩
  · cases h

/-- The orders that explain the words are those that read them. -/
theorem mem_explained :
    order ∈ [0, 1, 2].filterMap (explain words inst record) ↔ order.Reads words inst record := by
  rw [List.mem_filterMap]
  constructor
  · rintro ⟨start, -, explained⟩
    exact (reads_of_explain explained).1
  · exact fun reads => ⟨order.blockAt, order.blockAt_mem, reads.explain⟩

/-- Each of them is found once, for it has its block in one place. -/
theorem nodup_explained : ([0, 1, 2].filterMap (explain words inst record)).Nodup := by
  refine List.Nodup.filterMap (fun start start' order here there => ?_) (by decide)
  exact (reads_of_explain here).2.symm.trans (reads_of_explain there).2

/-! ## What is recognised -/

/-- Words are recognised if exactly one order explains them. -/
theorem classify_eq_ok : classify words inst record = .ok order ↔
    [0, 1, 2].filterMap (explain words inst record) = [order] := by
  rw [classify]
  split
  · rename_i found
    rw [found, Except.ok.injEq, List.cons.injEq, and_iff_left rfl]
  · rename_i several
    exact ⟨nofun, fun found => absurd found (several order)⟩

/-- Words that are not recognised as any order are refused. -/
theorem classify_eq_error :
    classify words inst record = .error (.unrecognizedConvention (.words words inst record)) ↔
      ∀ order, classify words inst record ≠ .ok order := by
  rw [classify]
  split
  · exact ⟨nofun, fun none => absurd rfl (none _)⟩
  · exact ⟨fun _ => nofun, fun _ => rfl⟩

/-- One order alone explains the words if it reads them and no other does. -/
theorem explained_alone : [0, 1, 2].filterMap (explain words inst record) = [order] ↔
    order.Reads words inst record ∧
      ∀ other : ArgumentOrder, other.Reads words inst record → other = order := by
  simp only [← mem_explained]
  constructor
  · intro alone
    simp [alone]
  · rintro ⟨reads, unique⟩
    have same := List.eq_replicate_of_mem unique
    have once : ([0, 1, 2].filterMap (explain words inst record)).Nodup := nodup_explained
    rw [same, List.nodup_replicate] at once
    have some := List.length_pos_of_mem reads
    rw [same, Nat.le_antisymm once some]
    rfl

/-- Words are recognised as an order just if this order reads them and no other does; if none does,
or more than one, the convention is not recognised. -/
theorem the_only_order_that_reads_is_recognised (words : List Nat) (inst record : Nat) :
    (∀ order, classify words inst record = .ok order ↔
      order.Reads words inst record ∧ ∀ other : ArgumentOrder,
        other.Reads words inst record → other = order) ∧
    (classify words inst record = .error (.unrecognizedConvention (.words words inst record)) ↔
      ¬ ∃! order : ArgumentOrder, order.Reads words inst record) := by
  have recognised (order : ArgumentOrder) : classify words inst record = .ok order ↔
      order.Reads words inst record ∧
        ∀ other : ArgumentOrder, other.Reads words inst record → other = order :=
    classify_eq_ok.trans explained_alone
  refine ⟨recognised, ?_⟩
  rw [classify_eq_error]
  constructor
  · rintro refused ⟨order, alone⟩
    exact refused order ((recognised order).mpr alone)
  · intro none order accepted
    exact none ⟨order, (recognised order).mp accepted⟩

/-- If the instance is not the record, the block is found in one place only. -/
theorem Reads.unique (apart : inst ≠ record) (h : order.Reads words inst record)
    (h' : other.Reads words inst record) : other = order := by
  obtain ⟨ret, buffer, outside, rfl⟩ := h
  obtain ⟨ret', buffer', outside', same⟩ := h'
  cases order <;> cases other <;> simp_all [layOut, specialArguments, wordsOf]

/-- Every order is recognised from the words that a probe passes in it, if its instance, its record
and its return buffer are three things. -/
theorem classify_layOut {ret : Nat} (order : ArgumentOrder) (apart : inst ≠ record)
    (buffer : ret ≠ inst) (outside : ret ≠ record) :
    classify (order.layOut ret inst record) inst record = .ok order := by
  have reads : order.Reads (order.layOut ret inst record) inst record :=
    ⟨ret, buffer, outside, rfl⟩
  exact classify_eq_ok.mpr (explained_alone.mpr ⟨reads, fun _ => reads.unique apart⟩)

/-- A block of four equal words is found in two places. -/
example : classify [0x300, 0x300, 0x300, 0x300, 0x100] 0x300 0x300 =
    .error (.unrecognizedConvention (.words [0x300, 0x300, 0x300, 0x300, 0x100] 0x300 0x300)) := by
  rfl

end Detouring.ArgumentOrder
