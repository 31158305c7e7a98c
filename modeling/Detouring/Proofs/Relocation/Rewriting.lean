-- What is written anew of an instruction that has an operand: the same opcode and what follows it,
-- behind prefixes that say the same. Only the address size of what is named by its distance is left
-- out.
import Detouring.Proofs.Relocation.Reading

namespace Detouring

namespace Opcode

variable {b c : UInt8} {k k' : Marks} {kind before ops rest : List UInt8} {x : Operands}
  {p : UInt8 → Bool}

/-! ## Opcodes with an operand -/

/-- The opcode takes an operand with a mode byte. -/
def Operands.HasMode (x : Operands) : Prop := ∃ m, (x.immediate? m).isSome

theorem lookUp_cons (low high opcode : UInt8) (x : Operands)
    (table : List (UInt8 × UInt8 × Operands)) :
    lookUp ((low, high, x) :: table) opcode =
      if low ≤ opcode && opcode ≤ high then some x else lookUp table opcode := by
  by_cases inside : (low ≤ opcode && opcode ≤ high) = true
  · simp [lookUp, inside]
  · rw [Bool.not_eq_true] at inside
    simp only [lookUp, List.find?_cons, inside, Bool.false_eq_true, if_false]

theorem lookUp_congr {table table' : List (UInt8 × UInt8 × Operands)} {opcode : UInt8}
    (same : List.Forall₂ (fun e e' => e.1 = e'.1 ∧ e.2.1 = e'.2.1 ∧
      (e.2.2.HasMode → e.2.2 = e'.2.2)) table table')
    (mode : x.HasMode) (h : lookUp table opcode = some x) : lookUp table' opcode = some x := by
  induction same with
  | nil => cases h
  | @cons e e' table table' same more ih =>
    obtain ⟨low, high, x'⟩ := e
    obtain ⟨low', high', x''⟩ := e'
    obtain ⟨rfl, rfl, same⟩ := same
    rw [lookUp_cons] at h ⊢
    split_ifs at h ⊢
    · obtain rfl := Option.some.inj h
      exact congrArg some (same mode).symm
    · exact ih h

theorem immediate_eq (same : k.is16 = k'.is16) : k.immediate = k'.immediate := by
  rw [Marks.immediate, Marks.immediate, same]

/-- Of the prefixes, only those for the operand size matter to an opcode with an operand. -/
theorem operandsOf?_congr (same : k.is16 = k'.is16) (mode : x.HasMode)
    (h : operandsOf? k ops = some x) : operandsOf? k' ops = some x := by
  have size := immediate_eq same
  have noMode {w : Nat} : ¬(Operands.immediate w).HasMode := by rintro ⟨m, h⟩; cases h
  unfold operandsOf? at h ⊢
  split at h
  · unfold operands? at h ⊢
    split_ifs at h ⊢
    · refine lookUp_congr ?_ mode h
      unfold operandTable
      simp only [size, List.forall₂_cons, implies_true, and_self, true_and, noMode, false_imp_iff]
      exact .nil
    · rw [size] at h
      exact h
  · exact h
  · cases h

/-! ## Marks in order -/

theorem mem_lastOf (h : b ∈ lastOf kind before) : b ∈ kind ∧ b ∈ before := by
  rw [lastOf, Option.mem_toList] at h
  have := List.mem_filter.mp (List.mem_of_getLast? h)
  exact ⟨by simpa using this.2, this.1⟩

theorem length_lastOf (kind before : List UInt8) : (lastOf kind before).length ≤ 1 := by
  unfold lastOf
  cases (before.filter kind.contains).getLast? <;> simp

theorem lastOf_eq_nil : lastOf kind before = [] ↔ ∀ b ∈ before, b ∉ kind := by
  simp [lastOf]

/-- Prefixes of other kinds do not matter. -/
theorem lastOf_filter (keeps : ∀ b ∈ kind, p b = true) :
    lastOf kind (before.filter p) = lastOf kind before := by
  unfold lastOf
  rw [List.filter_filter]
  congr 2
  refine List.filter_congr fun b _ => ?_
  by_cases mb : b ∈ kind
  · simp [mb, keeps b mb]
  · simp [mb]

theorem contains_lastOf (c : UInt8) (before : List UInt8) :
    (lastOf [c] before).contains c = before.contains c := by
  by_cases mc : c ∈ before
  · cases h : lastOf [c] before with
    | nil => exact absurd (List.mem_singleton_self c) (lastOf_eq_nil.mp h c mc)
    | cons b rest =>
      have mb : b ∈ lastOf [c] before := by simp [h]
      simp [List.mem_singleton.mp (mem_lastOf mb).1, mc]
  · have : c ∉ lastOf [c] before := fun h => mc (mem_lastOf h).2
    simp [this, mc]

theorem mem_segmentMark (h : b ∈ segmentMark before) :
    b ∈ [0x64, 0x65, 0x26, 0x2e, 0x36, 0x3e] := by
  unfold segmentMark at h
  split at h
  · have := (mem_lastOf h).1
    simp at this ⊢
    tauto
  · have := (mem_lastOf h).1
    simp at this ⊢
    tauto

theorem length_segmentMark (before : List UInt8) : (segmentMark before).length ≤ 1 := by
  unfold segmentMark
  split
  · exact length_lastOf _ _
  · exact length_lastOf _ _

theorem isMark_orderedMarks (h : b ∈ orderedMarks before) : isMark b = true := by
  simp only [orderedMarks, List.mem_append] at h
  simp only [isMark, List.contains_eq_mem, decide_eq_true_eq]
  rcases h with (((h | h) | h) | h) | h
  · have := mem_segmentMark h
    simp at this ⊢
    tauto
  all_goals
    have := (mem_lastOf h).1
    simp at this ⊢
    tauto

theorem not_mem_lastOf (other : b ∉ kind) : b ∉ lastOf kind before :=
  fun h => other (mem_lastOf h).1

theorem lastOf_append_left {l l' : List UInt8} (other : ∀ b ∈ l', b ∉ kind) :
    lastOf kind (l ++ l') = lastOf kind l := by
  have none : l'.filter kind.contains = [] :=
    List.filter_eq_nil_iff.mpr fun b mb => by simpa using other b mb
  rw [lastOf, List.filter_append, none, List.append_nil, lastOf]

theorem contains_orderedMarks (size : c = 0x66 ∨ c = 0x67) :
    (orderedMarks before).contains c = before.contains c := by
  have notSegment : c ∉ segmentMark before := fun h => by
    have := mem_segmentMark h
    rcases size with rfl | rfl <;> simp at this
  rw [← contains_lastOf c before, Bool.eq_iff_iff]
  simp only [orderedMarks, List.contains_eq_mem, decide_eq_true_eq, List.mem_append, notSegment,
    false_or]
  have other (kind : List UInt8) (h : c ∉ kind) : c ∉ lastOf kind before := not_mem_lastOf h
  rcases size with rfl | rfl
  · simp [other [0xf0] (by decide), other [0x67] (by decide), other [0xf2, 0xf3] (by decide)]
  · simp [other [0xf0] (by decide), other [0x66] (by decide), other [0xf2, 0xf3] (by decide)]

/-- The segment of an operand stays. -/
theorem lastOf_orderedMarks :
    lastOf [0x64, 0x65] (orderedMarks before) = lastOf [0x64, 0x65] before := by
  have other {kind : List UInt8} (apart : ∀ b ∈ kind, b ∉ ([0x64, 0x65] : List UInt8)) :
      ∀ b ∈ lastOf kind before, b ∉ ([0x64, 0x65] : List UInt8) := fun b mb =>
    apart b (mem_lastOf mb).1
  unfold orderedMarks
  rw [lastOf_append_left (other (by simp)), lastOf_append_left (other (by simp)),
    lastOf_append_left (other (by simp)), lastOf_append_left (other (by simp))]
  unfold segmentMark
  split
  · rename_i none
    rw [none]
    exact lastOf_eq_nil.mpr (other (by simp))
  · rename_i some
    have kind : ∀ b ∈ lastOf [0x64, 0x65] before, b ∈ ([0x64, 0x65] : List UInt8) :=
      fun b mb => (mem_lastOf mb).1
    have short := length_lastOf [0x64, 0x65] before
    generalize lastOf [0x64, 0x65] before = l at *
    match l, short with
    | [], _ => rfl
    | [b], _ =>
      rcases List.mem_pair.mp (kind b List.mem_cons_self) with rfl | rfl <;> rfl

/-! ## The extension -/

theorem isExtension_of_extension? (h : extension? before = some b) : isExtension b = true := by
  have := Option.mem_filter_iff.mp h
  exact this.2

/-- The extension that is written says what the one that was read says of the registers. It widens
nothing that was not widened. -/
structure Keeps (b : UInt8) (kept : List UInt8) : Prop where
  one : AtMostOne kept
  wide : kept.any (fun b => b &&& 8 != 0) = true → (b &&& 8 != 0) = true
  registers : ∀ bit, bit = 1 ∨ bit = 2 → kept.any (fun b => b &&& bit != 0) = (b &&& bit != 0)

theorem keeps_self (h : isExtension b = true) : Keeps b [b] :=
  ⟨.inr ⟨b, h, rfl⟩, by simp, by simp⟩

theorem keeps_neededExtension (h : isExtension b = true) (opcode : UInt8) (mode : Mode) :
    Keeps b (neededExtension b opcode mode) := by
  have narrowed := forall_byte (fun b => isExtension b = true → isExtension (b &&& 0xf7) = true ∧
    (b &&& 0xf7) &&& 8 = 0 ∧ (b &&& 0xf7) &&& 1 = b &&& 1 ∧ (b &&& 0xf7) &&& 2 = b &&& 2)
    (by decide +kernel) b h
  have needed : ∃ c, isExtension c = true ∧ ((c &&& 8 != 0) = true → (b &&& 8 != 0) = true) ∧
      (c &&& 1 = b &&& 1 ∧ c &&& 2 = b &&& 2) ∧
      (neededExtension b opcode mode = [c] ∨ c = 0x40 ∧ neededExtension b opcode mode = []) := by
    unfold neededExtension
    dsimp only
    by_cases ignores : ignoresWidth opcode mode = true
    · rw [if_pos ignores]
      refine ⟨b &&& 0xf7, narrowed.1, by simp [narrowed.2.1], narrowed.2.2, ?_⟩
      split_ifs <;> simp_all
    · rw [if_neg ignores]
      refine ⟨b, h, id, ⟨rfl, rfl⟩, ?_⟩
      split_ifs <;> simp_all
  obtain ⟨c, extends', widens, ⟨one, two⟩, written | ⟨rfl, none⟩⟩ := needed
  · rw [written]
    refine ⟨.inr ⟨c, extends', rfl⟩, by simpa using widens, fun bit which => ?_⟩
    rcases which with rfl | rfl
    · simp [one]
    · simp [two]
  · rw [none]
    refine ⟨.inl rfl, by simp, fun bit which => ?_⟩
    rcases which with rfl | rfl
    · rw [← one]
      rfl
    · rw [← two]
      rfl

/-! ## What is written anew -/

/-- Prefixes that say of an operand what others say of it. -/
structure SaysSame (namesData : Bool) (before before' : List UInt8) : Prop where
  size : (Marks.of before').is16 = (Marks.of before).is16
  narrow : (Marks.of before').narrow = ((Marks.of before).narrow && !namesData)
  segment : lastOf [0x64, 0x65] before' = lastOf [0x64, 0x65] before
  registers : ∀ bit, bit = 1 ∨ bit = 2 →
    (extension? before').any (fun b => b &&& bit != 0) =
      (extension? before).any (fun b => b &&& bit != 0)

/-- The prefixes that are written anew before an opcode. -/
def rewritten (namesData : Bool) (before body : List UInt8) : List UInt8 :=
  let widened := (Marks.of before).wide && body.head? != some 0x0f
  orderedMarks (before.filter (!saysNothing namesData widened ·))
    ++ (extension? before).elim [] (keptExtension · body)

theorem normalize_eq (opens : Opens before ops x) (namesData : Bool) (rest : List UInt8) :
    normalize namesData (before ++ ops ++ rest) =
      rewritten namesData before (ops ++ rest) ++ ops ++ rest := by
  have front : (before ++ ops ++ rest).take before.length = before := by simp
  have behind : (before ++ ops ++ rest).drop before.length = ops ++ rest := by simp
  unfold normalize
  rw [opens.count rest, front, behind]
  simp only [rewritten, List.append_assoc]

/-- An extension is kept as it is before an opcode of two bytes, and as far as it counts before
others. -/
theorem keeps_keptExtension (h : isExtension b = true) {body : List UInt8} (more : body ≠ []) :
    Keeps b (keptExtension b body) := by
  unfold keptExtension
  split
  · exact absurd rfl more
  · exact keeps_self h
  · exact keeps_neededExtension h _ _

variable {namesData : Bool} {body : List UInt8}

theorem atMostOne_kept (before : List UInt8) (more : body ≠ []) :
    AtMostOne ((extension? before).elim [] (keptExtension · body)) := by
  cases h : extension? before with
  | none => exact .inl rfl
  | some b => exact (keeps_keptExtension (isExtension_of_extension? h) more).one

theorem contains_filter (c : UInt8) (before : List UInt8) (p : UInt8 → Bool) :
    (before.filter p).contains c = (before.contains c && p c) := by
  rw [Bool.eq_iff_iff]
  simp

/-- What the prefixes that are written anew say. -/
theorem marks_rewritten (more : body ≠ []) :
    Marks.of (rewritten namesData before body) =
      ⟨(Marks.of before).short && !((Marks.of before).wide && body.head? != some 0x0f),
        ((extension? before).elim [] (keptExtension · body)).any fun b => b &&& 0x08 != 0,
        (Marks.of before).narrow && !namesData⟩ := by
  rw [rewritten, (marks_parts (fun _ => isMark_orderedMarks) (atMostOne_kept _ more)).1,
    contains_orderedMarks (.inl rfl), contains_orderedMarks (.inr rfl), contains_filter,
    contains_filter]
  simp [saysNothing, Marks.of]

theorem extension?_rewritten (more : body ≠ []) :
    extension? (rewritten namesData before body) =
      ((extension? before).elim [] (keptExtension · body)).head? :=
  (marks_parts (fun _ => isMark_orderedMarks) (atMostOne_kept _ more)).2

theorem is16_rewritten (more : body ≠ []) :
    (Marks.of (rewritten namesData before body)).is16 = (Marks.of before).is16 := by
  rw [marks_rewritten more]
  unfold Marks.is16
  dsimp only
  cases h : extension? before with
  | none => simp [Marks.of, h]
  | some b =>
    have keeps := keeps_keptExtension (isExtension_of_extension? h) more
    by_cases long : body.head? = some 0x0f
    · obtain ⟨rest, rfl⟩ : ∃ rest, body = 0x0f :: rest := by
        cases body with
        | nil => cases long
        | cons c rest => exact ⟨rest, by rw [Option.some.inj long]⟩
      have kept : keptExtension b (0x0f :: rest) = [b] := rfl
      simp [Marks.of, h, kept]
    · have other : (body.head? != some 0x0f) = true := by simpa using long
      simp only [Marks.of, h, other, Option.any_some, Option.elim_some, Bool.and_true]
      cases kept : (keptExtension b body).any fun b => b &&& 8 != 0
      · simp
      · simp [keeps.wide kept]

theorem saysSame_rewritten (more : body ≠ []) :
    SaysSame namesData before (rewritten namesData before body) := by
  refine ⟨is16_rewritten more, by rw [marks_rewritten more], ?_, fun bit which => ?_⟩
  · have notMark : ∀ b ∈ (extension? before).elim [] (keptExtension · body),
        b ∉ ([0x64, 0x65] : List UInt8) := by
      intro b mb
      rcases atMostOne_kept before more with none | ⟨c, extends', one⟩
      · simp [none] at mb
      · rw [one, List.mem_singleton] at mb
        rintro m
        rcases List.mem_pair.mp m with rfl | rfl <;> subst mb <;> cases extends'
    rw [rewritten, lastOf_append_left notMark, lastOf_orderedMarks]
    refine lastOf_filter fun b mb => ?_
    rcases List.mem_pair.mp mb with rfl | rfl <;> simp [saysNothing]
  · rw [extension?_rewritten more]
    cases h : extension? before with
    | none => rfl
    | some b =>
      have keeps := keeps_keptExtension (isExtension_of_extension? h) more
      have := keeps.registers bit which
      rcases keeps.one with none | ⟨c, _, one⟩
      · simp_all
      · simp_all

theorem opens_rewritten (opens : Opens before ops x) (mode : x.HasMode) (more : body ≠ []) :
    Opens (rewritten namesData before body) ops x :=
  Opens.of_marks (fun _ => isMark_orderedMarks) (atMostOne_kept _ more)
    (operandsOf?_congr (is16_rewritten more).symm mode opens.operands)

/-! ## How long it gets -/

theorem length_lastOf_singleton (c : UInt8) (before : List UInt8) :
    (lastOf [c] before).length ≤ (before.contains c).toNat := by
  by_cases mc : c ∈ before
  · simpa [mc] using length_lastOf [c] before
  · have none : lastOf [c] before = [] := lastOf_eq_nil.mpr fun b mb it =>
      mc (List.mem_singleton.mp it ▸ mb)
    simp [none]

theorem length_orderedMarks (before : List UInt8) : (orderedMarks before).length ≤
    3 + (before.contains 0x66).toNat + (before.contains 0x67).toNat := by
  have segment := length_segmentMark before
  have lock := length_lastOf [0xf0] before
  have repeats := length_lastOf [0xf2, 0xf3] before
  have short := length_lastOf_singleton 0x66 before
  have narrow := length_lastOf_singleton 0x67 before
  unfold orderedMarks
  simp only [List.length_append]
  omega

/-- At most four prefixes are written beside those for sizes. -/
theorem length_rewritten (more : body ≠ []) : (rewritten namesData before body).length ≤
    4 + (Marks.of (rewritten namesData before body)).short.toNat +
      (Marks.of (rewritten namesData before body)).narrow.toNat := by
  have marks := length_orderedMarks (before.filter
    (!saysNothing namesData ((Marks.of before).wide && body.head? != some 0x0f) ·))
  have extension : ((extension? before).elim [] (keptExtension · body)).length ≤ 1 := by
    rcases atMostOne_kept before more with none | ⟨c, _, one⟩
    · simp [none]
    · simp [one]
  have short (widened : Bool) : (!saysNothing namesData widened 0x66) = !widened := by
    simp [saysNothing]
  have narrow (widened : Bool) : (!saysNothing namesData widened 0x67) = !namesData := by
    simp [saysNothing]
  rw [contains_filter, contains_filter, short, narrow] at marks
  rw [marks_rewritten more, rewritten, List.length_append]
  dsimp only [Marks.of] at marks ⊢
  omega

/-- The longest immediate of an opcode with an operand. -/
def Operands.longest : Operands → Nat
  | memory width | group _ width | test width => width
  | _ => 0

theorem Operands.immediate?_le {m : Mode} {width : Nat} (h : x.immediate? m = some width) :
    width ≤ x.longest := by
  unfold immediate? at h
  unfold longest
  split at h <;> simp at h ⊢ <;> grind

theorem mem_of_lookUp {table : List (UInt8 × UInt8 × Operands)} {opcode : UInt8}
    (h : lookUp table opcode = some x) :
    ∃ low high, (low, high, x) ∈ table ∧ low ≤ opcode ∧ opcode ≤ high := by
  obtain ⟨⟨low, high, _⟩, found, rfl⟩ := Option.map_eq_some_iff.mp h
  exact ⟨low, high, List.mem_of_find?_eq_some found, by simpa using List.find?_some found⟩

theorem longest_le (h : operandsOf? k ops = some x) :
    ops.length = 1 ∧ x.longest ≤ k.immediate ∨ ops.length = 2 ∧ x.longest ≤ 1 := by
  unfold operandsOf? at h
  split at h
  · refine .inl ⟨rfl, ?_⟩
    unfold operands? at h
    split_ifs at h
    · obtain ⟨low, high, mx, _⟩ := mem_of_lookUp h
      have all : ∀ e ∈ operandTable k, e.2.2.longest ≤ k.immediate := by
        obtain ⟨short, wide, narrow⟩ := k
        cases short <;> cases wide <;> cases narrow <;> decide
      exact all _ mx
    · split at h <;> simp at h <;> subst h <;> simp [Operands.longest]
  · refine .inr ⟨rfl, ?_⟩
    obtain ⟨low, high, mx, _⟩ := mem_of_lookUp h
    have all : ∀ e ∈ extendedOperandTable, e.2.2.longest ≤ 1 := by decide
    exact all _ mx
  · cases h

/-- With its operand size, an opcode and the immediate behind its operand are not too long for four
more bytes of operand. -/
theorem length_rewritten_add (opens : Opens before ops x) {m : Mode} {width : Nat}
    (taken : x.immediate? m = some width) (rest : List UInt8) :
    (rewritten true before (ops ++ rest)).length + ops.length + width ≤ 9 := by
  obtain ⟨opcode, more, rfl, -, -⟩ := notPrefix_of_operandsOf? opens.operands
  have some : opcode :: more ++ rest ≠ [] := by simp
  have prefixes : (rewritten true before (opcode :: more ++ rest)).length ≤ _ :=
    length_rewritten some
  rw [marks_rewritten some] at prefixes
  simp only [Bool.not_true, Bool.and_false, Bool.toNat_false, Nat.add_zero] at prefixes
  have long := Operands.immediate?_le taken
  generalize (rewritten true before (opcode :: more ++ rest)).length = n at prefixes ⊢
  rcases longest_le opens.operands with ⟨one, within⟩ | ⟨two, within⟩
  · have short : opcode ≠ 0x0f := by
      rintro rfl
      obtain rfl : more = [] := List.length_eq_zero_iff.mp (by simpa using one)
      cases opens.operands
    have head : ((opcode :: more ++ rest).head? != Option.some 0x0f) = true := by simpa using short
    rw [head, Bool.and_true] at prefixes
    unfold Marks.immediate Marks.is16 at within
    cases size : ((Marks.of before).short && !(Marks.of before).wide) <;>
      rw [size] at prefixes within <;> simp at prefixes within <;> omega
  · have := Bool.toNat_le ((Marks.of before).short &&
      !((Marks.of before).wide && (opcode :: more ++ rest).head? != Option.some 0x0f))
    omega

end Opcode

namespace Instruction

open Opcode

variable {before ops : List UInt8} {x : Operands} {b : UInt8} {four imm : List UInt8}

/-! ## Instructions that name data -/

/-- Bytes with a displacement at an offset, by which they name data. They do so at every address
and with every displacement. -/
structure NamesDataAt (bytes : List UInt8) (offset : Nat) (wrap : Nat → Nat) : Prop where
  room : offset + 4 ≤ bytes.length
  short : bytes.length ≤ maxLength
  named : ∀ address, ∀ four tail : List UInt8, four.length = 4 →
    ∃ i, decode? address (bytes.take offset ++ four ++ bytes.drop (offset + 4) ++ tail) = some i ∧
      i.bytes = bytes.take offset ++ four ++ bytes.drop (offset + 4) ∧ i.relation = .data offset
        (wrap (wrapWord ((address + bytes.length : Nat) + signed32 (ofLeBytes four))))

theorem decode?_operated (opens : Opens before ops x) (fills : Fills x b (four ++ imm))
    (relative : (Mode.of b).isRelative = true) (size : four.length = 4)
    (short : (before ++ ops ++ b :: (four ++ imm)).length ≤ maxLength) (address : Nat)
    (tail : List UInt8) :
    ∃ i, decode? address (before ++ ops ++ b :: (four ++ imm) ++ tail) = some i ∧
      i.bytes = before ++ ops ++ b :: (four ++ imm) ∧
      i.relation = .data (before.length + ops.length + 1) ((Marks.of before).wrap (wrapWord
        (address + (before ++ ops ++ b :: (four ++ imm)).length + signed32 (ofLeBytes four)))) := by
  have read := Reading.read_operated (r := opened address before ops (b :: (four ++ imm))) rfl fills
  refine ⟨_, decode?_of_parts opens read rfl short tail, rfl, ?_⟩
  have first : (four ++ imm).take 4 = four := List.take_left' size
  simp only [Reading.operated, Reading.named, relative, if_true, opened, first, List.length_append]
  simp

theorem marks_narrow (before : List UInt8) :
    Marks.of (0x67 :: before) = { Marks.of before with narrow := true } := by
  have last : extension? (0x67 :: before) = extension? before := by
    unfold extension?
    cases before with
    | nil => rfl
    | cons c rest => rw [List.getLast?_cons_cons]
  simp [Marks.of, last]

/-- A prefix before the others is a prefix. -/
theorem Opens.narrow (opens : Opens before ops x) (mode : x.HasMode) :
    Opens (0x67 :: before) ops x := by
  have same : (Marks.of before).is16 = (Marks.of (0x67 :: before)).is16 := by
    rw [marks_narrow]
    rfl
  refine ⟨fun rest => ?_, operandsOf?_congr same mode opens.operands⟩
  have count := opens.count rest
  simp only [List.cons_append, prefixCount, List.length_cons, count]
  rfl

theorem Fills.hasMode {rest : List UInt8} (fills : Fills x b rest) : x.HasMode := by
  obtain ⟨_, taken, _⟩ := fills
  exact ⟨_, by rw [taken]; rfl⟩

theorem Fills.congr {four' : List UInt8} (fills : Fills x b (four ++ imm))
    (relative : (Mode.of b).isRelative = true) (size : four.length = 4) (size' : four'.length = 4) :
    Fills x b (four' ++ imm) := by
  obtain ⟨width, taken, length⟩ := fills
  refine ⟨width, taken, ?_⟩
  rw [Mode.extent_relative relative] at length ⊢
  simp only [List.length_append, size, size'] at length ⊢
  exact length

theorem namesDataAt_of_parts (opens : Opens before ops x) (fills : Fills x b (four ++ imm))
    (relative : (Mode.of b).isRelative = true) (size : four.length = 4)
    (short : (before ++ ops ++ b :: (four ++ imm)).length ≤ maxLength) :
    NamesDataAt (before ++ ops ++ b :: (four ++ imm)) (before.length + ops.length + 1)
      (Marks.of before).wrap := by
  have split' (four' : List UInt8) : before ++ ops ++ b :: (four' ++ imm) =
      before ++ ops ++ [b] ++ (four' ++ imm) := by simp
  have head : (before ++ ops ++ [b]).length = before.length + ops.length + 1 := by
    simp [Nat.add_assoc]
  have front : (before ++ ops ++ b :: (four ++ imm)).take (before.length + ops.length + 1) =
      before ++ ops ++ [b] := by
    rw [split', List.take_left' head]
  have behind : (before ++ ops ++ b :: (four ++ imm)).drop (before.length + ops.length + 1 + 4) =
      imm := by
    rw [split', ← List.drop_drop, List.drop_left' head, List.drop_left' size]
  refine ⟨by simp [size]; omega, short, fun address four' tail size' => ?_⟩
  have length : (before ++ ops ++ b :: (four' ++ imm)).length =
      (before ++ ops ++ b :: (four ++ imm)).length := by simp [size, size']
  obtain ⟨i, read, bytes, named⟩ := decode?_operated opens (fills.congr relative size size')
    relative size' (by rw [length]; exact short) address tail
  rw [front, behind, List.append_assoc (before ++ ops ++ [b]), ← split', ← length]
  exact ⟨i, read, bytes, by rw [named, Int.natCast_add]⟩

variable {address offset target : Nat} {code : List UInt8} {i : Instruction}

/-- What names data, taken apart. -/
theorem data_parts (h : decode? address code = some i) (data : i.relation = .data offset target) :
    ∃ before ops x b four imm, Opens before ops x ∧ Fills x b (four ++ imm) ∧ four.length = 4 ∧
      (Mode.of b).isRelative = true ∧ i.bytes = before ++ ops ++ b :: (four ++ imm) ∧
      offset = before.length + ops.length + 1 := by
  obtain ⟨before, ops, rest, x, opens, whole, _, read⟩ := parts_of_decode? h
  obtain ⟨b, rest, rfl, fills, rfl⟩ := Reading.operated_of_data read whole data
  have relative : (Mode.of b).isRelative = true := by
    by_contra other
    simp [Reading.operated, Reading.named, other] at data
  have four : (rest.take 4).length = 4 := by
    obtain ⟨width, _, length⟩ := fills
    rw [Mode.extent_relative relative] at length
    simp only [List.length_take]
    omega
  refine ⟨before, ops, x, b, rest.take 4, rest.drop 4, opens, ?_, four, relative, ?_, ?_⟩
  · rwa [List.take_append_drop]
  · rw [List.take_append_drop]
    exact whole
  · simp [Reading.operated, Reading.named, relative, opened] at data
    omega

/-- Prefixes that are written anew stand before an opcode and an operand that names data, which need
not be the ones that they were written for. -/
theorem namesDataAt_rewritten (opens : Opens before ops x) (fills : Fills x b (four ++ imm))
    (relative : (Mode.of b).isRelative = true) (size : four.length = 4) (rest : List UInt8) :
    NamesDataAt (rewritten true before (ops ++ rest) ++ ops ++ b :: (four ++ imm))
      ((rewritten true before (ops ++ rest)).length + ops.length + 1) id ∧
    NamesDataAt (0x67 :: (rewritten true before (ops ++ rest) ++ ops ++ b :: (four ++ imm)))
      ((rewritten true before (ops ++ rest)).length + ops.length + 1 + 1) (· % 0x100000000) := by
  have mode : x.HasMode := fills.hasMode
  have more : ops ++ rest ≠ [] := by
    obtain ⟨opcode, ops, rfl, -, -⟩ := notPrefix_of_operandsOf? opens.operands
    simp
  have opens' : Opens (rewritten true before (ops ++ rest)) ops x :=
    opens_rewritten opens mode more
  have wide : (Marks.of (rewritten true before (ops ++ rest))).narrow = false := by
    rw [marks_rewritten more]
    simp
  have long : (rewritten true before (ops ++ rest)).length + ops.length + 1 + 4 + imm.length <
      maxLength := by
    obtain ⟨width, taken, length⟩ := fills
    have := length_rewritten_add opens taken rest
    rw [Mode.extent_relative relative, List.length_append] at length
    rw [maxLength]
    omega
  generalize rewritten true before (ops ++ rest) = before' at *
  have short : (before' ++ ops ++ b :: (four ++ imm)).length < maxLength := by
    simp only [List.length_append, List.length_cons]
    omega
  have opensLow := Opens.narrow opens' mode
  constructor
  · have wrap : (Marks.of before').wrap = id := by
      funext n
      simp [Marks.wrap, wide]
    rw [← wrap]
    exact namesDataAt_of_parts opens' fills relative size (Nat.le_of_lt short)
  · have wrap : (Marks.of (0x67 :: before')).wrap = (· % 0x100000000) := by
      funext n
      simp [Marks.wrap, marks_narrow]
    have head : before'.length + ops.length + 1 + 1 =
        (0x67 :: before').length + ops.length + 1 := by
      simp only [List.length_cons]
      omega
    rw [← wrap, head]
    exact namesDataAt_of_parts opensLow fills relative size short

open Relocation in
/-- An instruction that names data still names it once its prefixes are written anew. -/
theorem ofInstruction_data {rest : List UInt8} (opens : Opens before ops x)
    (whole : i.bytes = before ++ ops ++ rest)
    (data : i.relation = .data (before.length + ops.length + 1) target) (some : rest ≠ []) :
    Movable.ofInstruction i = ⟨i.address, rewritten true before (ops ++ rest) ++ ops ++ rest,
      .data ((rewritten true before (ops ++ rest)).length + ops.length + 1) target⟩ := by
  have bytes : normalize i.namesData i.bytes =
      rewritten true before (ops ++ rest) ++ ops ++ rest := by
    rw [namesData, data, whole, normalize_eq opens]
  have moved : Movable.ofInstruction i = ⟨i.address, normalize i.namesData i.bytes,
      .data ((normalize i.namesData i.bytes).length -
        (i.bytes.length - (before.length + ops.length + 1))) target⟩ := by
    unfold Movable.ofInstruction
    rw [data]
  have more : 0 < rest.length := List.length_pos_iff.mpr some
  have place : (rewritten true before (ops ++ rest) ++ ops ++ rest).length -
      (i.bytes.length - (before.length + ops.length + 1)) =
        (rewritten true before (ops ++ rest)).length + ops.length + 1 := by
    rw [whole]
    simp only [List.length_append]
    omega
  rw [moved, bytes, place]

end Instruction

open Relocation Instruction

/-- The bytes name the data that the instruction names, and have room for one prefix more. -/
def Relocation.Movable.NamesData (x : Movable) : Prop :=
  ∀ offset t, x.relation = .data offset t →
    NamesDataAt x.bytes offset id ∧ NamesDataAt (0x67 :: x.bytes) (offset + 1) (· % 0x100000000)

/-- An instruction that is moved names the target that it named. -/
theorem Relocation.Movable.target?_ofInstruction (i : Instruction) :
    (ofInstruction i).relation.target? = i.relation.target? := by
  unfold ofInstruction
  cases i.relation <;> rfl

theorem Relocation.Movable.proper_ofInstruction {i : Instruction} (h : i.relation.Proper) :
    (ofInstruction i).relation.Proper := by
  unfold ofInstruction
  cases relation : i.relation <;> rw [relation] at h <;> exact h

theorem Relocation.Movable.data_of_ofInstruction {i : Instruction} {offset t : Nat}
    (data : (ofInstruction i).relation = .data offset t) :
    ∃ offset, i.relation = .data offset t := by
  unfold ofInstruction at data
  cases relation : i.relation <;> rw [relation] at data <;> cases data
  exact ⟨_, rfl⟩

theorem Relocation.Movable.namesData_ofInstruction {address : Nat} {code : List UInt8}
    {i : Instruction} (h : decode? address code = some i) : (ofInstruction i).NamesData := by
  intro offset t data
  obtain ⟨offset', same⟩ := data_of_ofInstruction data
  obtain ⟨before, ops, x, b, four, imm, opens, fills, size, relative, whole, rfl⟩ :=
    data_parts h same
  rw [ofInstruction_data opens whole same (by simp)] at data ⊢
  obtain ⟨rfl, -⟩ := Relation.data.inj data
  exact namesDataAt_rewritten opens fills relative size _

end Detouring
