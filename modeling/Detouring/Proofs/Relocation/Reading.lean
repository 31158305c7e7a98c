-- How an instruction is read off its bytes: prefixes, an opcode of one byte or of two, and what the
-- opcode asks for. Nothing behind the last byte matters. What is written anew has the same opcode and
-- the same operands behind it, and its prefixes say the same.
import Detouring.Relocation.Layout
import Mathlib.Data.List.Basic

namespace Detouring

open Relocation

namespace Opcode

variable {b opcode : UInt8} {k k' : Marks} {before code marks extension rest : List UInt8}

/-! ## Prefixes -/

theorem isExtension_of_isMark (h : isMark b = true) : isExtension b = false := by
  simp only [isMark, List.contains_eq_mem, List.mem_cons, List.not_mem_nil, or_false,
    decide_eq_true_eq] at h
  rcases h with rfl | rfl | rfl | rfl | rfl | rfl | rfl | rfl | rfl | rfl | rfl <;> rfl

theorem isMark_of_isExtension (h : isExtension b = true) : isMark b = false := by
  by_contra mark
  rw [isExtension_of_isMark (by simpa using mark)] at h
  cases h

/-- No extension, or one. -/
def AtMostOne (extension : List UInt8) : Prop :=
  extension = [] ∨ ∃ b, isExtension b = true ∧ extension = [b]

/-- Marks, and an extension behind them, are the prefixes of an opcode that is neither. -/
theorem prefixCount_parts (allMarks : ∀ b ∈ marks, isMark b = true) (one : AtMostOne extension)
    (notMark : isMark opcode = false) (notExtension : isExtension opcode = false) :
    prefixCount (marks ++ extension ++ opcode :: rest) = (marks ++ extension).length := by
  induction marks with
  | nil =>
    rcases one with rfl | ⟨b, extends', rfl⟩
    · simp [prefixCount, notMark, notExtension]
    · simp [prefixCount, isMark_of_isExtension extends', extends', notMark]
  | cons b marks ih =>
    have first := allMarks b List.mem_cons_self
    have rest' := ih fun c mc => allMarks c (List.mem_cons_of_mem b mc)
    simp only [List.cons_append, prefixCount, first, if_true, rest', List.length_cons]

/-- How many prefixes there are is told by the byte behind them. -/
theorem prefixCount_congr {rest' : List UInt8}
    (h : prefixCount (before ++ opcode :: rest) = before.length) :
    prefixCount (before ++ opcode :: rest') = before.length := by
  induction before with
  | nil =>
    simp only [List.nil_append, prefixCount, List.length_nil] at h ⊢
    split_ifs at h ⊢
    rfl
  | cons b before ih =>
    have head : (before ++ opcode :: rest').head? = (before ++ opcode :: rest).head? := by
      cases before <;> simp
    simp only [List.cons_append, prefixCount, List.length_cons, head] at h ⊢
    split_ifs at h ⊢
    · rw [ih (Nat.succ.inj h)]
    · rw [ih (Nat.succ.inj h)]
    · exact h

theorem prefixCount_le (code : List UInt8) : prefixCount code ≤ code.length := by
  induction code with
  | nil => simp [prefixCount]
  | cons b rest ih =>
    simp only [prefixCount, List.length_cons]
    split_ifs <;> omega

/-- What prefixes say depends on the marks among them and on the last one. -/
theorem marks_parts (allMarks : ∀ b ∈ marks, isMark b = true) (one : AtMostOne extension) :
    Marks.of (marks ++ extension) = ⟨marks.contains 0x66,
      extension.any fun b => b &&& 0x08 != 0, marks.contains 0x67⟩ ∧
    extension? (marks ++ extension) = extension.head? := by
  have last : extension? (marks ++ extension) = extension.head? := by
    rcases one with rfl | ⟨b, extends', rfl⟩
    · rw [List.append_nil, extension?]
      cases h : marks.getLast? with
      | none => rfl
      | some c =>
        have := isExtension_of_isMark (allMarks c (List.mem_of_getLast? h))
        simp [this]
    · simp [extension?, extends']
  have apart (c : UInt8) (mark : isMark c = true) :
      (marks ++ extension).contains c = marks.contains c := by
    rcases one with rfl | ⟨b, extends', rfl⟩
    · simp
    · have : c ≠ b := by
        rintro rfl
        rw [isMark_of_isExtension extends'] at mark
        cases mark
      simp [this]
  refine ⟨?_, last⟩
  rw [Marks.of, last, apart _ rfl, apart _ rfl]
  rcases one with rfl | ⟨b, -, rfl⟩ <;> simp

/-! ## Opcodes -/

/-- The operands of an opcode of one byte, or of two. -/
def operandsOf? (k : Marks) : List UInt8 → Option Operands
  | [opcode] => operands? k opcode
  | [0x0f, opcode] => extendedOperands? opcode
  | _ => none

theorem operands?_isMark (h : isMark b = true) : operands? k b = none := by
  simp only [isMark, List.contains_eq_mem, List.mem_cons, List.not_mem_nil, or_false,
    decide_eq_true_eq] at h
  rcases h with rfl | rfl | rfl | rfl | rfl | rfl | rfl | rfl | rfl | rfl | rfl <;> rfl

/-- What holds of the 256 bytes holds of every byte. -/
theorem forall_byte (p : UInt8 → Prop) (h : ∀ n : Fin 256, p (UInt8.ofFin n)) (b : UInt8) : p b :=
  h b.toFin

theorem operands?_isExtension (h : isExtension b = true) : operands? k b = none := by
  have range := forall_byte (fun b => isExtension b = true →
    b ∈ (List.range' 0x40 16).map UInt8.ofNat) (by decide +kernel) b h
  simp only [List.range', List.map_cons, List.map_nil, List.mem_cons, List.not_mem_nil,
    or_false] at range
  rcases range with rfl | rfl | rfl | rfl | rfl | rfl | rfl | rfl | rfl | rfl | rfl | rfl |
    rfl | rfl | rfl | rfl <;> rfl

/-- An opcode that can be read is no prefix. -/
theorem notPrefix_of_operandsOf? {ops : List UInt8} {x : Operands}
    (h : operandsOf? k ops = some x) : ∃ opcode more, ops = opcode :: more ∧
      isMark opcode = false ∧ isExtension opcode = false := by
  unfold operandsOf? at h
  split at h
  · rename_i opcode
    refine ⟨opcode, [], rfl, ?_, ?_⟩ <;> by_contra it
    · rw [operands?_isMark (by simpa using it)] at h
      cases h
    · rw [operands?_isExtension (by simpa using it)] at h
      cases h
  · exact ⟨0x0f, _, rfl, rfl, rfl⟩
  · cases h

/-- Prefixes and an opcode, and what the opcode asks for. -/
structure Opens (before ops : List UInt8) (x : Operands) : Prop where
  count : ∀ rest, prefixCount (before ++ ops ++ rest) = before.length
  operands : operandsOf? (Marks.of before) ops = some x

variable {ops : List UInt8} {x : Operands}

theorem Opens.of_count (rest : List UInt8) (h : operandsOf? (Marks.of before) ops = some x)
    (count : prefixCount (before ++ ops ++ rest) = before.length) : Opens before ops x := by
  obtain ⟨opcode, more, rfl, -, -⟩ := notPrefix_of_operandsOf? h
  refine ⟨fun rest' => ?_, h⟩
  rw [List.append_assoc, List.cons_append] at count ⊢
  exact prefixCount_congr count

theorem Opens.of_marks (allMarks : ∀ b ∈ marks, isMark b = true) (one : AtMostOne extension)
    (h : operandsOf? (Marks.of (marks ++ extension)) ops = some x) :
    Opens (marks ++ extension) ops x := by
  obtain ⟨opcode, more, rfl, notMark, notExtension⟩ := notPrefix_of_operandsOf? h
  refine Opens.of_count [] h ?_
  rw [List.append_nil]
  exact prefixCount_parts allMarks one notMark notExtension

/-! ## Mode bytes -/

namespace Mode

variable {m : Mode} {s s' : Option UInt8}

/-- A byte follows the mode byte that has a part in the operand. -/
def Scaled (m : Mode) : Prop := m.kind ≠ 3 ∧ m.operand = 4

theorem extent_pos (h : m.Scaled) : 0 < m.extent s := by
  have : m.kind ≠ 3 ∧ m.operand = 4 := h
  simp only [extent, this, ne_eq, not_false_eq_true, and_self, if_true]
  split <;> omega

theorem extent_eq (h : ¬m.Scaled) : m.extent s = m.extent s' := by
  have : ¬(m.kind ≠ 3 ∧ m.operand = 4) := h
  simp [extent, this]

theorem extent_relative (h : m.isRelative = true) : m.extent s = 4 := by
  simp only [isRelative, Bool.and_eq_true, beq_iff_eq] at h
  simp [extent, h.1, h.2]

/-- The byte behind the mode byte counts only if it belongs to the operand. -/
theorem extent_congr (m : Mode) {n : Nat} {l : List UInt8} (inside : m.extent l.head? ≤ n)
    (long : n ≤ l.length) (tail : List UInt8) :
    m.extent (l.take n ++ tail).head? = m.extent l.head? := by
  by_cases scaled : m.Scaled
  · have := extent_pos (s := l.head?) scaled
    obtain ⟨n, rfl⟩ : ∃ n', n = n' + 1 := ⟨n - 1, by omega⟩
    cases l with
    | nil => simp at long
    | cons b rest => simp
  · exact extent_eq scaled

end Mode

end Opcode

namespace Instruction

open Opcode

variable {address : Nat} {before ops rest tail code : List UInt8} {x : Operands} {r : Reading}
  {i : Instruction}

/-- The reading of an instruction behind its opcode. -/
def opened (address : Nat) (before ops rest : List UInt8) : Reading :=
  ⟨address, Marks.of before, ops.getLastD 0, before ++ ops, rest⟩

theorem start?_of_opens (o : Opens before ops x) (rest : List UInt8) :
    start? address (before ++ ops ++ rest) = some (opened address before ops rest, x) := by
  have front : (before ++ ops ++ rest).take before.length = before := by simp
  have behind : (before ++ ops ++ rest).drop before.length = ops ++ rest := by simp
  have asked := o.operands
  unfold start?
  rw [o.count rest, front, behind]
  unfold operandsOf? at asked
  split at asked
  · rename_i opcode
    have notLong : opcode ≠ 0x0f := by
      rintro rfl
      cases asked
    cases rest <;> simp [asked, notLong, opened]
  · simp [asked, opened]
  · cases asked

theorem opens_of_start? (h : start? address code = some (r, x)) :
    ∃ before ops, Opens before ops x ∧ code = before ++ ops ++ r.rest ∧
      r = opened address before ops r.rest := by
  have whole := List.take_append_drop (prefixCount code) code
  have count : (code.take (prefixCount code)).length = prefixCount code :=
    List.length_take_of_le (prefixCount_le code)
  generalize before_eq : code.take (prefixCount code) = before at whole count
  have opens (ops rest : List UInt8) (split' : code = before ++ ops ++ rest)
      (asked : operandsOf? (Marks.of before) ops = some x) : Opens before ops x :=
    Opens.of_count rest asked (by rw [← split', count])
  simp only [start?, before_eq] at h
  split at h
  · cases h
  · rename_i opcode last
    simp only [Option.map_eq_some_iff, Prod.mk.injEq] at h
    obtain ⟨_, asked, rfl, rfl⟩ := h
    rw [last] at whole
    exact ⟨before, [opcode], opens [opcode] [] (by simp [whole]) asked, by simp [whole], rfl⟩
  · rename_i opcode second rest more
    rw [more] at whole
    split at h <;> simp only [Option.map_eq_some_iff, Prod.mk.injEq] at h <;>
      obtain ⟨_, asked, rfl, rfl⟩ := h
    · subst opcode
      exact ⟨before, [0x0f, second], opens _ rest (by simp [whole]) asked,
        by simp [whole], rfl⟩
    · exact ⟨before, [opcode], opens _ (second :: rest) (by simp [whole]) asked,
        by simp [whole], rfl⟩

/-! ## What is read

Only the bytes of an instruction are read. -/

/-- The first bytes of what is left to be read, as far as the instruction goes, and others behind
them. -/
def Reading.followedBy (r : Reading) (count : Nat) (tail : List UInt8) : Reading :=
  { r with rest := r.rest.take count ++ tail }

/-- An instruction ends some bytes behind the opcode, and others may follow there. -/
def Reading.Local (r : Reading) (read : Reading → Option Instruction) (i : Instruction) : Prop :=
  ∃ count, i.bytes = r.head ++ r.rest.take count ∧
    ∀ tail, read (r.followedBy count tail) = some i

theorem Reading.finish_inv {count : Nat} {relation : Nat → Relation} {call? : Option CallForm}
    (h : r.finish count relation call? = some i) :
    i.call? = call? ∧ ∃ next, i.relation = relation next := by
  unfold finish at h
  split at h
  · cases h
  · obtain rfl := Option.some.inj h
    exact ⟨rfl, _, rfl⟩

theorem Reading.finish_local {count : Nat} {relation : Nat → Relation} {call? : Option CallForm}
    (h : r.finish count relation call? = some i) (tail : List UInt8) :
    (r.followedBy count tail).finish count relation call? = some i ∧
      i.bytes = r.head ++ r.rest.take count ∧ count ≤ r.rest.length := by
  unfold finish at h
  split at h
  · cases h
  · rename_i enough
    have all : (r.rest.take count).length = count := List.length_take_of_le (by omega)
    obtain rfl := Option.some.inj h
    refine ⟨?_, rfl, by omega⟩
    unfold finish followedBy
    rw [if_neg (by simp [all]), List.take_left' all]

theorem Reading.withOperand_cons {b : UInt8} {width : Nat} (h : r.rest = b :: rest)
    (taken : x.immediate? (Mode.of b) = some width) :
    r.withOperand x = r.finish ((Mode.of b).extent rest.head? + width + 1)
      (r.named (Mode.of b) (rest.take 4)) (indirectCall? r.marks x (Mode.of b)) := by
  simp [withOperand, h, taken]

/-- An operand that is read has a mode byte that the opcode takes. -/
theorem Reading.withOperand_inv (h : r.withOperand x = some i) :
    ∃ b rest width, r.rest = b :: rest ∧ x.immediate? (Mode.of b) = some width := by
  unfold withOperand at h
  split at h
  · cases h
  · rename_i b rest behind
    obtain ⟨width, taken, _⟩ := Option.bind_eq_some_iff.mp h
    exact ⟨b, rest, width, behind, taken⟩

theorem Reading.withOperand_local (h : r.withOperand x = some i) :
    r.Local (fun r => r.withOperand x) i := by
  obtain ⟨b, rest, width, behind, taken⟩ := withOperand_inv h
  rw [withOperand_cons behind taken] at h
  obtain ⟨_, bytes, enough⟩ := finish_local h []
  rw [behind, List.length_cons] at enough
  refine ⟨_, bytes, fun tail => ?_⟩
  generalize size : (Mode.of b).extent rest.head? + width = n at h enough
  have same := (Mode.of b).extent_congr (l := rest) (n := n) (by omega) (by omega) tail
  have step : (r.followedBy (n + 1) tail).rest = b :: (rest.take n ++ tail) := by
    simp [followedBy, behind]
  have names : (r.followedBy (n + 1) tail).named (Mode.of b) ((rest.take n ++ tail).take 4) =
      r.named (Mode.of b) (rest.take 4) := by
    funext next
    unfold named
    by_cases relative : (Mode.of b).isRelative = true
    · rw [Mode.extent_relative relative] at size
      rw [List.take_append_of_le_length (by simp; omega), List.take_take,
        Nat.min_eq_left (by omega)]
      rfl
    · rw [if_neg relative, if_neg relative]
  have whole := (finish_local h tail).1
  dsimp only
  rw [withOperand_cons step taken, same, size, names]
  exact whole

theorem Reading.relative_local {width : Nat} (h : r.relative width = some i) :
    r.Local (fun r => r.relative width) i := by
  obtain ⟨_, bytes, enough⟩ := finish_local h []
  refine ⟨width, bytes, fun tail => ?_⟩
  have first : (r.followedBy width tail).rest.take width = r.rest.take width :=
    List.take_left' (List.length_take_of_le enough)
  simp only [relative, first]
  exact (finish_local h tail).1

/-- What an instruction that is read looks like depends on its own bytes. -/
theorem Reading.read_local (h : r.read x = some i) : r.Local (fun r => r.read x) i := by
  cases x <;> simp only [read] at h ⊢
  case none => exact ⟨0, (finish_local h []).2.1, fun tail => (finish_local h tail).1⟩
  case immediate width =>
    exact ⟨width, (finish_local h []).2.1, fun tail => (finish_local h tail).1⟩
  case displacement8 => exact relative_local h
  case displacement => exact relative_local h
  all_goals exact withOperand_local h

/-! ## Taking apart and putting together -/

/-- Every instruction is prefixes, an opcode, and what it asks for. -/
theorem parts_of_decode? (h : decode? address code = some i) :
    ∃ before ops rest x, Opens before ops x ∧ i.bytes = before ++ ops ++ rest ∧
      i.length ≤ maxLength ∧ (opened address before ops rest).read x = some i := by
  obtain ⟨⟨r, x⟩, start, read⟩ := Option.bind_eq_some_iff.mp h
  obtain ⟨before, ops, opens, whole, shape⟩ := opens_of_start? start
  obtain ⟨count, bytes, local'⟩ := Reading.read_local read
  refine ⟨before, ops, r.rest.take count, x, opens, ?_, ?_, ?_⟩
  · rw [bytes, shape]
    rfl
  · have size := congrArg List.length whole
    have head : r.head = before ++ ops := by
      rw [shape]
      rfl
    rw [length, bytes, head]
    simp at size ⊢
    omega
  · have := local' []
    rwa [shape, Reading.followedBy, List.append_nil] at this

/-- An instruction that is put together can be read, whatever stands behind it. -/
theorem decode?_of_parts (opens : Opens before ops x)
    (read : (opened address before ops rest).read x = some i)
    (whole : i.bytes = before ++ ops ++ rest) (short : i.length ≤ maxLength) (tail : List UInt8) :
    decode? address (i.bytes ++ tail) = some i := by
  obtain ⟨count, bytes, local'⟩ := Reading.read_local read
  have all : rest.take count = rest := by
    rw [whole] at bytes
    exact (List.append_cancel_left bytes).symm
  have front : (i.bytes ++ tail).take maxLength =
      before ++ ops ++ (rest ++ tail.take (maxLength - i.length)) := by
    rw [List.take_append, List.take_of_length_le short, ← List.append_assoc, ← whole]
    rfl
  unfold decode?
  rw [front, start?_of_opens opens, Option.bind_some]
  have := local' (tail.take (maxLength - i.length))
  rwa [Reading.followedBy, show (opened address before ops rest).rest = rest from rfl, all] at this

/-- An instruction is read from its own bytes. -/
theorem decode?_append (h : decode? address code = some i) (tail : List UInt8) :
    decode? address (i.bytes ++ tail) = some i := by
  obtain ⟨before, ops, rest, x, opens, whole, short, read⟩ := parts_of_decode? h
  exact decode?_of_parts opens read whole short tail

/-! ## Operands -/

/-- The instruction with an operand that a mode byte starts. -/
def Reading.operated (r : Reading) (x : Operands) (b : UInt8) (rest : List UInt8) : Instruction :=
  let bytes := r.head ++ b :: rest
  ⟨r.address, bytes, r.named (Mode.of b) (rest.take 4) (r.address + bytes.length),
    indirectCall? r.marks x (Mode.of b)⟩

/-- The bytes behind a mode byte are the operand and the immediate. -/
def Fills (x : Operands) (b : UInt8) (rest : List UInt8) : Prop :=
  ∃ width, x.immediate? (Mode.of b) = some width ∧
    rest.length = (Mode.of b).extent rest.head? + width

theorem Reading.read_withOperand {b : UInt8} {width : Nat} (behind : r.rest = b :: rest)
    (taken : x.immediate? (Mode.of b) = some width) :
    r.read x = r.finish ((Mode.of b).extent rest.head? + width + 1)
      (r.named (Mode.of b) (rest.take 4)) (indirectCall? r.marks x (Mode.of b)) := by
  rw [← withOperand_cons behind taken]
  cases x <;> first | rfl | cases taken

theorem Reading.read_operated {b : UInt8} (behind : r.rest = b :: rest) (fills : Fills x b rest) :
    r.read x = some (r.operated x b rest) := by
  obtain ⟨width, taken, size⟩ := fills
  have all : r.rest.take ((Mode.of b).extent rest.head? + width + 1) = b :: rest := by
    rw [behind, ← size]
    exact List.take_of_length_le (Nat.le_refl _)
  rw [read_withOperand behind taken, finish, all, if_neg (by simp [behind, size])]
  rfl

theorem Reading.operated_of_withOperand (h : r.withOperand x = some i)
    (whole : i.bytes = r.head ++ r.rest) :
    ∃ b rest, r.rest = b :: rest ∧ Fills x b rest ∧ i = r.operated x b rest := by
  obtain ⟨b, rest, width, behind, taken⟩ := withOperand_inv h
  rw [withOperand_cons behind taken] at h
  obtain ⟨_, bytes, enough⟩ := finish_local h []
  have all : r.rest.take ((Mode.of b).extent rest.head? + width + 1) = r.rest :=
    List.append_cancel_left (bytes.symm.trans whole)
  have size := congrArg List.length all
  rw [List.length_take_of_le enough, behind, List.length_cons] at size
  refine ⟨b, rest, behind, ⟨width, taken, by omega⟩, ?_⟩
  rw [finish, if_neg (by omega), all, behind] at h
  exact (Option.some.inj h).symm

/-- An instruction names nothing, or leads somewhere by a displacement, or has an operand. -/
theorem Reading.cases_of_read (h : r.read x = some i) (whole : i.bytes = r.head ++ r.rest) :
    (i.relation = .none ∧ i.call? = none) ∨
    (i.call? = r.directCall? ∧ ∃ l next, i.relation = r.leading l next) ∨
    ∃ b rest, r.rest = b :: rest ∧ Fills x b rest ∧ i = r.operated x b rest := by
  cases x <;> simp only [read] at h
  case none | immediate =>
    obtain ⟨call, _, relation⟩ := finish_inv h
    exact .inl ⟨relation, call⟩
  case displacement8 | displacement =>
    obtain ⟨call, next, relation⟩ := finish_inv h
    exact .inr (.inl ⟨call, _, next, relation⟩)
  all_goals exact .inr (.inr (operated_of_withOperand h whole))

theorem Reading.leading_ne_data (l : List UInt8) (next offset target : Nat) :
    r.leading l next ≠ .data offset target := by
  unfold leading Relation.ofOpcode
  split <;> nofun

/-- What names data is an instruction with an operand. -/
theorem Reading.operated_of_data {offset target : Nat} (h : r.read x = some i)
    (whole : i.bytes = r.head ++ r.rest) (data : i.relation = .data offset target) :
    ∃ b rest, r.rest = b :: rest ∧ Fills x b rest ∧ i = r.operated x b rest := by
  rcases cases_of_read h whole with ⟨none, _⟩ | ⟨_, l, next, leads⟩ | operated
  · rw [none] at data
    cases data
  · exact absurd (leads.symm.trans data) (leading_ne_data _ _ _ _)
  · exact operated

/-- What calls is a call by a displacement, or through an operand. -/
theorem Reading.call_of_read {form : CallForm} (h : r.read x = some i)
    (whole : i.bytes = r.head ++ r.rest) (calls : i.call? = some form) :
    (r.directCall? = some form ∧ ∃ t, i.relation = .call r.targetSize t) ∨
    ∃ b rest, r.rest = b :: rest ∧ Fills x b rest ∧ i = r.operated x b rest := by
  rcases cases_of_read h whole with ⟨_, none⟩ | ⟨direct, l, next, leads⟩ | operated
  · rw [none] at calls
    cases calls
  · rw [direct] at calls
    refine .inl ⟨calls, ?_⟩
    have it : r.opcode = 0xe8 := by
      by_contra other
      simp [directCall?, other] at calls
    rw [leads, leading, it]
    exact ⟨_, rfl⟩
  · exact .inr operated

/-! ## Displacements -/

/-- A jump, branch, loop or call ends with its displacement. -/
theorem Reading.read_leading (takes : x = .displacement8 ∧ r.rest.length = 1 ∨
      x = .displacement ∧ r.rest.length = r.targetSize.width) :
    r.read x = some ⟨r.address, r.head ++ r.rest,
      r.leading r.rest (r.address + (r.head ++ r.rest).length), r.directCall?⟩ := by
  have relative {width : Nat} (size : r.rest.length = width) : r.relative width =
      some ⟨r.address, r.head ++ r.rest,
        r.leading r.rest (r.address + (r.head ++ r.rest).length), r.directCall?⟩ := by
    rw [Reading.relative, finish, if_neg (by omega), List.take_of_length_le (by omega)]
  rcases takes with ⟨rfl, size⟩ | ⟨rfl, size⟩
  · exact relative size
  · exact relative size

end Instruction

/-! ## What can be named -/

theorem TargetSize.wrap_lt (size : TargetSize) (i : Int) : size.wrap i < wordCount := by
  have := wrapWord_lt i
  cases size <;> simp only [wrap]
  · exact Nat.lt_of_le_of_lt (Nat.mod_le _ _) this
  · exact this

/-- A target that an address of some size can be. -/
def TargetSize.Holds (size : TargetSize) (target : Nat) : Prop := ∃ i, size.wrap i = target

/-- What an instruction that can be read may name. -/
def Relation.Proper : Relation → Prop
  | .none => True
  | .data _ target => target < wordCount
  | .jump size target | .call size target => size.Holds target
  | .branch size condition target => condition < 16 ∧ size.Holds target
  | .loop size _ opcode target => opcode ∈ [0xe0, 0xe1, 0xe2, 0xe3] ∧ size.Holds target

theorem Opcode.Marks.wrap_lt (k : Opcode.Marks) {n : Nat} (h : n < wordCount) :
    k.wrap n < wordCount := by
  unfold wrap
  split
  · exact Nat.lt_of_le_of_lt (Nat.mod_le _ _) h
  · exact h

namespace Instruction

open Opcode

variable {address : Nat} {code : List UInt8} {i : Instruction} {r : Reading} {x : Operands}

theorem Reading.leading_proper (r : Reading) (l : List UInt8) (next : Nat) :
    (r.leading l next).Proper := by
  unfold leading Relation.ofOpcode
  split
  case h_8 => exact ⟨UInt8.mod_lt _ (by decide), _, rfl⟩
  case h_1 | h_2 | h_3 => exact ⟨_, rfl⟩
  all_goals
    rename_i it
    exact ⟨by rw [it]; decide, _, rfl⟩

theorem Reading.named_proper (r : Reading) (mode : Mode) (four : List UInt8) (next : Nat) :
    (r.named mode four next).Proper := by
  unfold named
  split
  · exact Marks.wrap_lt _ (wrapWord_lt _)
  · trivial

theorem Reading.proper_of_read (h : r.read x = some i) : i.relation.Proper := by
  have finished {count : Nat} {relation : Nat → Relation} {call? : Option CallForm}
      (h : r.finish count relation call? = some i) (proper : ∀ next, (relation next).Proper) :
      i.relation.Proper := by
    obtain ⟨_, next, relation'⟩ := finish_inv h
    rw [relation']
    exact proper next
  have operand (h : r.withOperand x = some i) : i.relation.Proper := by
    obtain ⟨b, rest, width, behind, taken⟩ := withOperand_inv h
    rw [withOperand_cons behind taken] at h
    exact finished h (r.named_proper _ _)
  cases x <;> simp only [read] at h
  case none | immediate => exact finished h fun _ => trivial
  case displacement8 | displacement => exact finished h (r.leading_proper _)
  all_goals exact operand h

theorem proper_of_decode? (h : decode? address code = some i) : i.relation.Proper := by
  obtain ⟨_, _, read⟩ := Option.bind_eq_some_iff.mp h
  exact Reading.proper_of_read read

end Instruction

end Detouring
