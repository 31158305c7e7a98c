-- When no split is missed. Behind an any-repeating item the search is guided by the next literal,
-- and takes the items on the way to it to stand close together. An item that takes any byte can
-- move up to the literal; a masked item that has a gap behind it cannot.
import Detouring.Proofs.Pattern.Findings

namespace Detouring

/-! ## The way to the next literal -/

namespace PatternItem

/-- What stands in front of the first literal. -/
def front (items : List PatternItem) : List ItemSort :=
  (items.map sort).takeWhile (· ≠ .literal)

/-- No masked item in front of the first literal has an any-repeating item between it and the
literal. Without a literal there is nothing in the way. -/
def Clear (items : List PatternItem) : Prop :=
  .literal ∈ items.map sort → ¬ [.masked, .anyRepeating].Sublist (front items)

/-- Behind every any-repeating item the way to the next literal is clear. -/
def Guided : List PatternItem → Prop
  | [] => True
  | item :: rest => (item = .anyRepeating → Clear rest) ∧ Guided rest

instance (items : List PatternItem) : Decidable (Clear items) :=
  inferInstanceAs (Decidable (.literal ∈ items.map sort →
    ¬ [.masked, .anyRepeating].Sublist (front items)))

instance decidableGuided : (items : List PatternItem) → Decidable (Guided items)
  | [] => isTrue trivial
  | item :: rest =>
    have := decidableGuided rest
    inferInstanceAs (Decidable ((item = .anyRepeating → Clear rest) ∧ Guided rest))

variable {items more : List PatternItem}

theorem front_cons (item : PatternItem) (items : List PatternItem) :
    front (item :: items) = if item.sort = .literal then [] else item.sort :: front items := by
  by_cases h : item.sort = .literal <;> simp [front, h]

theorem front_append (none : ∀ i ∈ items, i.sort ≠ .literal) (more : List PatternItem) :
    front (items ++ more) = items.map sort ++ front more := by
  rw [front, List.map_append, List.takeWhile_append_of_pos (by simpa using none)]
  rfl

theorem front_begins (items more : List PatternItem) : front items <+: front (items ++ more) := by
  induction items with
  | nil => exact List.nil_prefix
  | cons item rest ih =>
    rw [List.cons_append, front_cons, front_cons]
    split
    · exact List.prefix_rfl
    · exact (List.prefix_cons_inj _).mpr ih

/-- More items at the end are in no one's way. -/
theorem Clear.of_append (h : Clear (items ++ more)) : Clear items :=
  fun literal blocked => h (by simp [List.mem_map.mp literal])
    (blocked.trans (front_begins items more).sublist)

/-- Nor is what has been passed. -/
theorem Clear.behind (none : ∀ i ∈ items, i.sort ≠ .literal) (h : Clear (items ++ more)) :
    Clear more := by
  intro literal blocked
  refine h (by simp [List.mem_map.mp literal]) (blocked.trans ?_)
  rw [front_append none]
  exact List.sublist_append_right ..

/-- Behind a masked item no any-repeating one comes before the literal. -/
theorem Clear.close (some : items ≠ []) (masked : ∀ i ∈ items, i.sort = .masked)
    (h : Clear (items ++ more)) (literal : .literal ∈ more.map sort) :
    .anyRepeating ∉ front more := by
  obtain ⟨item, rest, rfl⟩ := List.exists_cons_of_ne_nil some
  intro gap
  refine h (by simp [List.mem_map.mp literal]) ?_
  rw [front_append (by simp_all), List.map_cons, masked item List.mem_cons_self]
  exact ((List.singleton_sublist.mpr gap).trans (List.sublist_append_right ..)).cons_cons _

theorem Guided.of_append (h : Guided (items ++ more)) : Guided items := by
  induction items with
  | nil => trivial
  | cons item rest ih => exact ⟨fun repeating => (h.1 repeating).of_append, ih h.2⟩

theorem Guided.behind (h : Guided (items ++ more)) : Guided more := by
  induction items with
  | nil => exact h
  | cons item rest ih => exact ih h.2

theorem Guided.clear (some : items ≠ []) (repeating : ∀ i ∈ items, i = .anyRepeating)
    (h : Guided (items ++ more)) : Clear more := by
  rw [← List.dropLast_append_getLast some, List.append_assoc] at h
  exact h.behind.1 (repeating _ (List.getLast_mem some))

/-! Items that take any byte do not matter. -/

theorem marks_cons (item : PatternItem) (items : List PatternItem) :
    marks (item :: items) = if item.sort = .any then marks items else item :: marks items := by
  by_cases h : item.sort = .any <;> simp [marks, h]

theorem front_marks (items : List PatternItem) :
    front (marks items) = (front items).filter (· ≠ .any) := by
  induction items with
  | nil => rfl
  | cons item rest ih =>
    rw [marks_cons, front_cons]
    rcases eq_or_ne item.sort .any with any | other
    · simp [any, ih]
    · rw [if_neg other, front_cons]
      split
      · rfl
      · simp [other, ih]

theorem literal_mem_marks : .literal ∈ (marks items).map sort ↔ .literal ∈ items.map sort := by
  simp only [marks, List.mem_map, List.mem_filter]
  refine exists_congr fun i => and_congr_left fun e => ?_
  simp [e]

theorem clear_marks : Clear (marks items) ↔ Clear items := by
  have blocked : [.masked, .anyRepeating].Sublist (front (marks items)) ↔
      [.masked, .anyRepeating].Sublist (front items) := by
    rw [front_marks]
    refine ⟨fun h => h.trans List.filter_sublist, fun h => ?_⟩
    have kept := h.filter (· ≠ ItemSort.any)
    exact kept
  rw [Clear, Clear, literal_mem_marks, blocked]

theorem guided_marks : Guided (marks items) ↔ Guided items := by
  induction items with
  | nil => rfl
  | cons item rest ih =>
    rw [marks_cons]
    split
    · rename_i any
      have other : item ≠ .anyRepeating := by
        rintro rfl
        cases any
      simp [Guided, other, ih]
    · rw [Guided, Guided, clear_marks, ih]

end PatternItem

theorem Alike.guided {l l' : List PatternItem} (h : Alike l l') :
    PatternItem.Guided l ↔ PatternItem.Guided l' := by
  rw [← PatternItem.guided_marks, h.marks, PatternItem.guided_marks]

namespace Pattern

open PatternItem (Clear Guided front)
open Segment (AllUniform flatten)

/-! ## Where the next literal stands -/

/-- The next literal of the segments stands in the bytes, as far on as the segments say. -/
def Lands (segments : List Segment) (bytes : List UInt8) : Prop :=
  (nextLiteral segments).2 ≤ bytes.length ∧
    (nextLiteral segments).1 <+: bytes.drop (nextLiteral segments).2

section

variable {s : Segment} {rest segments : List Segment} {b b' bytes c caught : List UInt8}

theorem nextLiteral_literal (h : s.sort = .literal) (rest : List Segment) :
    nextLiteral (s :: rest) = (literalBytes s, 0) := by
  simp [nextLiteral, h]

theorem nextLiteral_repeating (h : s.sort = .anyRepeating) (rest : List Segment) :
    nextLiteral (s :: rest) = nextLiteral rest := by
  simp [nextLiteral, h]

theorem nextLiteral_between (other : s.sort ≠ .literal) (fixed : s.sort ≠ .anyRepeating)
    (rest : List Segment) :
    nextLiteral (s :: rest) = ((nextLiteral rest).1, (nextLiteral rest).2 + s.length) := by
  rw [nextLiteral]
  split <;> first | contradiction | rfl

/-- A literal that is not in the first segment comes behind it. -/
theorem literal_mem_rest (us : s.Uniform) (other : s.sort ≠ .literal)
    (literal : .literal ∈ (flatten (s :: rest)).map PatternItem.sort) :
    .literal ∈ (flatten rest).map PatternItem.sort := by
  rw [Segment.flatten_cons, List.map_append, List.mem_append] at literal
  refine literal.resolve_left fun m => ?_
  obtain ⟨i, m, e⟩ := List.mem_map.mp m
  exact us.none_of other i m e

/-- Without a literal there is nothing to look for. -/
theorem nextLiteral_none (u : AllUniform segments)
    (none : .literal ∉ (flatten segments).map PatternItem.sort) :
    (nextLiteral segments).1 = [] := by
  induction segments with
  | nil => rfl
  | cons s rest ih =>
    have us := u.head
    rw [Segment.flatten_cons, List.map_append, List.mem_append, not_or] at none
    have found := ih u.tail none.2
    have other : s.sort ≠ .literal := fun h => none.1 (h ▸ us.sort_mem)
    by_cases repeating : s.sort = .anyRepeating
    · rw [nextLiteral_repeating repeating, found]
    · rw [nextLiteral_between other repeating, found]

/-- Segments in front of the literal take the bytes in front of it. -/
theorem lead_le_length (u : AllUniform segments) (split : Splits (flatten segments) bytes caught) :
    (nextLiteral segments).2 ≤ bytes.length := by
  induction segments generalizing bytes caught with
  | nil => exact Nat.zero_le _
  | cons s rest ih =>
    have us := u.head
    obtain ⟨b, b', c, c', rfl, rfl, own, behind⟩ := Splits.append_iff.mp split
    have least := ih u.tail behind
    rw [List.length_append]
    by_cases literal : s.sort = .literal
    · rw [nextLiteral_literal literal]
      exact Nat.zero_le _
    by_cases repeating : s.sort = .anyRepeating
    · rw [nextLiteral_repeating repeating]
      omega
    · have taken := ((us.splits_iff repeating).mp own).1
      rw [nextLiteral_between literal repeating]
      omega

/-- Literals stand in the bytes that they take. -/
theorem literalBytes_eq (u : s.Uniform) (h : s.sort = .literal) (own : Splits s.items b c) :
    literalBytes s = b := by
  have literal : ∀ i ∈ s.items, i.sort = .literal := fun i m => (u.same i m).trans h
  rw [literalBytes]
  generalize s.items = items at own literal
  induction own with
  | nil => rfl
  | literal value _ ih => simpa using ih fun i m => literal i (List.mem_cons_of_mem _ m)
  | masked => cases literal _ List.mem_cons_self
  | any => cases literal _ List.mem_cons_self
  | address => cases literal _ List.mem_cons_self
  | anyRepeating => cases literal _ List.mem_cons_self

theorem lands_literal (u : s.Uniform) (h : s.sort = .literal) (own : Splits s.items b c) :
    Lands (s :: rest) (b ++ b') := by
  rw [Lands, nextLiteral_literal h, literalBytes_eq u h own]
  exact ⟨Nat.zero_le _, List.prefix_append ..⟩

theorem lands_repeating (h : s.sort = .anyRepeating) :
    Lands (s :: rest) bytes ↔ Lands rest bytes := by
  rw [Lands, nextLiteral_repeating h, Lands]

theorem lands_between (other : s.sort ≠ .literal) (fixed : s.sort ≠ .anyRepeating)
    (taken : b.length = s.length) : Lands (s :: rest) (b ++ b') ↔ Lands rest b' := by
  rw [Lands, nextLiteral_between other fixed, Lands, List.length_append, taken, Nat.add_comm,
    Nat.add_le_add_iff_left, ← List.drop_drop, ← taken, List.drop_left]

/-- With no gap in front of it the next literal stands where it is looked for. -/
theorem lands_of_close (u : AllUniform segments) (close : .anyRepeating ∉ front (flatten segments))
    (split : Splits (flatten segments) bytes caught) : Lands segments bytes := by
  induction segments generalizing bytes caught with
  | nil => exact ⟨Nat.zero_le _, List.nil_prefix⟩
  | cons s rest ih =>
    have us := u.head
    obtain ⟨b, b', c, c', rfl, rfl, own, behind⟩ := Splits.append_iff.mp split
    by_cases literal : s.sort = .literal
    · exact lands_literal us literal own
    · rw [Segment.flatten_cons, PatternItem.front_append (us.none_of literal), List.mem_append,
        not_or] at close
      have fixed : s.sort ≠ .anyRepeating := fun h => close.1 (h ▸ us.sort_mem)
      rw [lands_between literal fixed ((us.splits_iff fixed).mp own).1]
      exact ih u.tail close.2 behind

/-- Items that take any byte take their bytes as late as they can: up to where the others go on. -/
theorem free_moves_up (u : s.Uniform) (free : s.sort = .any ∨ s.sort = .address)
    (taken : b.length = s.length) (skipped : List UInt8) :
    ∃ skipped' b' c', b ++ skipped = skipped' ++ b' ∧ b'.length = s.length ∧
      Splits s.items b' c' := by
  have fixed : s.sort ≠ .anyRepeating := by
    rintro h
    simp [h] at free
  have length : ((b ++ skipped).drop skipped.length).length = s.length := by simp [taken]
  exact ⟨(b ++ skipped).take skipped.length, (b ++ skipped).drop skipped.length, _,
    (List.take_append_drop ..).symm, length,
    (u.splits_iff fixed).mpr ⟨length, u.accepts free, rfl⟩⟩

/-- Behind a gap, bytes that split have an end that splits, where the next literal stands as far
on as the segments say. -/
theorem lands_of_clear (u : AllUniform segments) (clear : Clear (flatten segments))
    (split : Splits (flatten segments) bytes caught) :
    ∃ skipped kept caught', bytes = skipped ++ kept ∧ Splits (flatten segments) kept caught' ∧
      Lands segments kept := by
  by_cases literal : .literal ∈ (flatten segments).map PatternItem.sort
  case neg =>
    refine ⟨[], bytes, caught, rfl, split, lead_le_length u split, ?_⟩
    rw [nextLiteral_none u literal]
    exact List.nil_prefix
  -- by induction on the segments: what is skipped in front of the later ones is shifted over
  -- those that take any byte, and joins a gap
  induction segments generalizing bytes caught with
  | nil => simp at literal
  | cons s rest ih =>
    have us := u.head
    obtain ⟨b, b', c, c', rfl, rfl, own, behind⟩ := Splits.append_iff.mp split
    by_cases h : s.sort = .literal
    · exact ⟨[], b ++ b', _, rfl, split, lands_literal us h own⟩
    have passed := us.none_of h
    have later := literal_mem_rest us h literal
    by_cases masked : s.sort = .masked
    · have fixed : s.sort ≠ .anyRepeating := by simp [masked]
      have close := clear.close us.some (fun i m => (us.same i m).trans masked) later
      refine ⟨[], b ++ b', _, rfl, split, ?_⟩
      rw [lands_between h fixed ((us.splits_iff fixed).mp own).1]
      exact lands_of_close u.tail close behind
    obtain ⟨skipped, kept, _, rfl, goes, lands⟩ := ih u.tail (clear.behind passed) behind later
    by_cases repeating : s.sort = .anyRepeating
    · have joined := (Splits.of_repeating (us.repeating repeating)).append goes
      exact ⟨b ++ skipped, kept, _, (List.append_assoc ..).symm, joined,
        (lands_repeating repeating).mpr lands⟩
    · have free : s.sort = .any ∨ s.sort = .address := by
        cases sort : s.sort <;> simp_all
      obtain ⟨skipped', b', _, same, taken, own'⟩ :=
        free_moves_up us free ((us.splits_iff repeating).mp own).1 skipped
      refine ⟨skipped', b' ++ kept, _, ?_, own'.append goes,
        (lands_between h repeating taken).mpr lands⟩
      rw [← List.append_assoc, same, List.append_assoc]

/-! ## No split is missed -/

/-- A place where the literal lands and the test succeeds is enough. -/
theorem firstPlace_isSome {test : List UInt8 → Option (Nat × List UInt8)} {data : List UInt8}
    {skipped kept : List UInt8} (begins : skipped ++ kept <+: data) (lands : Lands segments kept)
    (hit : (test (data.drop skipped.length)).isSome) :
    (firstPlace test segments data).isSome := by
  obtain ⟨more, rfl⟩ := begins
  obtain ⟨within, literal⟩ := lands
  have room := literal.length_le
  rw [List.length_drop] at room
  have stands : (nextLiteral segments).1.isPrefixOf
      ((skipped ++ kept ++ more).drop ((nextLiteral segments).2 + skipped.length)) := by
    rw [List.append_assoc, Nat.add_comm, ← List.drop_drop, List.drop_left,
      List.drop_append_of_le_length within]
    exact List.isPrefixOf_iff_prefix.mpr (literal.trans (List.prefix_append ..))
  rw [firstPlace]
  simp only [List.length_append]
  rw [if_neg (by omega), List.findSome?_isSome_iff]
  refine ⟨skipped.length, by rw [List.mem_range'_1]; omega, ?_⟩
  rw [tryAt, if_pos stands, Option.isSome_map]
  exact hit

/-- If the way to the next literal is clear behind every gap, the segments match wherever bytes
split among their items. -/
theorem outcome_isSome {data : List UInt8} (u : AllUniform segments)
    (guided : Guided (flatten segments)) (split : Splits (flatten segments) bytes caught)
    (begins : bytes <+: data) : (outcome segments data).isSome := by
  induction segments generalizing bytes caught data with
  | nil => rfl
  | cons s rest ih =>
    have us := u.head
    obtain ⟨b, b', c, c', rfl, rfl, own, behind⟩ := Splits.append_iff.mp split
    by_cases repeating : s.sort = .anyRepeating
    · have clear := guided.clear us.some (us.repeating repeating)
      obtain ⟨skipped, kept, _, rfl, goes, lands⟩ := lands_of_clear u.tail clear behind
      rw [← List.append_assoc] at begins
      rw [outcome_repeating rest repeating, Option.isSome_map]
      refine firstPlace_isSome begins lands (ih u.tail guided.behind goes ?_)
      obtain ⟨more, rfl⟩ := begins
      rw [List.append_assoc, List.drop_left]
      exact List.prefix_append ..
    · obtain ⟨taken, accepts, -⟩ := (us.splits_iff repeating).mp own
      obtain ⟨more, rfl⟩ := begins
      have fits : s.length ≤ (b ++ b' ++ more).length := by
        simp only [List.length_append]
        omega
      have next := ih u.tail guided.behind behind (List.prefix_append b' more)
      rw [outcome_fixed rest repeating fits, List.append_assoc, ← taken, List.take_left,
        List.drop_left, if_pos accepts, Option.isSome_map]
      exact next

end

/-- If the way to the next literal is clear behind every gap in the trimmed items, then a pattern
matches at the start of any data of which some first bytes split among them. -/
theorem a_guided_pattern_misses_no_split {p : Pattern} {data bytes caught : List UInt8}
    (h : p.Accepted) (guided : Guided (PatternItem.trimmed p.items)) (begins : bytes <+: data)
    (split : Splits (PatternItem.trimmed p.items) bytes caught) : (p.matchAt? data).isSome := by
  obtain ⟨trail, trailing, alike⟩ := h.alike
  obtain ⟨b, b', c, c', rfl, rfl, taken, -⟩ := Splits.append_iff.mp ((alike.splits _ _).mpr split)
  have clear : Guided (flatten p.segments) := (alike.guided.mpr guided).of_append
  rw [h.matchAt?_eq, Option.isSome_map]
  exact outcome_isSome h.uniform clear taken ((List.prefix_append b b').trans begins)

/-- A masked byte right in front of the literal, and an address byte with a gap behind it. -/
def closing : Pattern :=
  absolute [.literal 0xaa, .anyRepeating, .address, .anyRepeating, .masked 0xf0 0xf0,
    .literal 0xbb] false

theorem a_masked_byte_in_front_of_the_literal_is_met :
    Guided (PatternItem.trimmed closing.items) ∧
      Splits (PatternItem.trimmed closing.items) [0xaa, 1, 2, 3, 0xf7, 0xbb] [2] ∧
      (closing.matchAt? [0xaa, 1, 2, 3, 0xf7, 0xbb, 0]).isSome := by
  have guided : Guided (PatternItem.trimmed closing.items) := by decide
  have split : Splits (PatternItem.trimmed closing.items) [0xaa, 1, 2, 3, 0xf7, 0xbb] [2] :=
    .literal _ (.anyRepeating [1] (.address 2 (.anyRepeating [3] (.masked rfl (.literal _ .nil)))))
  exact ⟨guided, split,
    a_guided_pattern_misses_no_split (p := closing) rfl guided ⟨[0], rfl⟩ split⟩

/-- The same with a gap between the masked byte and the literal. -/
def parting : Pattern :=
  absolute [.literal 0xaa, .anyRepeating, .masked 0xf0 0xf0, .anyRepeating, .literal 0xbb] false

/-- The masked byte is looked for right in front of the literal only, and `f1` is not met. -/
theorem a_masked_byte_in_front_of_a_gap_is_missed :
    parting.Accepted ∧ Splits (PatternItem.trimmed parting.items) [0xaa, 0xf1, 0, 0xbb] [] ∧
      parting.matchAt? [0xaa, 0xf1, 0, 0xbb] = none :=
  ⟨rfl, .literal _ (.anyRepeating [] (.masked rfl (.anyRepeating [0] (.literal _ .nil)))),
    by decide +kernel⟩

end Pattern

end Detouring
