-- Which match a search finds. It goes from literal to literal: what it finds is the first match at
-- a place where the literal stands as far on as the pattern says. With no gap in front of the
-- literal every match is at such a place, and then it is the first of all.
import Detouring.Proofs.Pattern.Indexing

namespace Detouring

/-! ## Patterns with nothing but bytes in front of the literal -/

namespace PatternItem

/-- No any-repeating item comes before the first literal, so that it stands equally far from the
start in every match. Without a literal there is nothing to stand. -/
def Direct (items : List PatternItem) : Prop :=
  .literal ∈ items.map sort → .anyRepeating ∉ front items

instance (items : List PatternItem) : Decidable (Direct items) :=
  inferInstanceAs (Decidable (.literal ∈ items.map sort → .anyRepeating ∉ front items))

variable {items more : List PatternItem}

theorem direct_marks : Direct (marks items) ↔ Direct items := by
  rw [Direct, Direct, literal_mem_marks, front_marks, List.mem_filter]
  simp

/-- Any-repeating items at the end come behind every literal. -/
theorem direct_append (trailing : ∀ i ∈ more, i = .anyRepeating) :
    Direct (items ++ more) ↔ Direct items := by
  have none : .literal ∉ more.map sort := by
    intro m
    obtain ⟨i, mi, e⟩ := List.mem_map.mp m
    rw [trailing i mi] at e
    cases e
  rw [Direct, Direct, List.map_append, List.mem_append, or_iff_left none]
  refine imp_congr_right fun literal => not_congr ?_
  have passed : ((items.map sort).takeWhile (· ≠ .literal)).length ≠ (items.map sort).length := by
    intro whole
    have all := (List.takeWhile_prefix _).eq_of_length whole
    simpa using List.takeWhile_eq_self_iff.mp all _ literal
  rw [front, front, List.map_append, List.takeWhile_append, if_neg passed]

end PatternItem

theorem Alike.direct {l l' : List PatternItem} (h : Alike l l') :
    PatternItem.Direct l ↔ PatternItem.Direct l' := by
  rw [← PatternItem.direct_marks, h.marks, PatternItem.direct_marks]

namespace Pattern

open PatternItem (Direct front)
open Segment (AllUniform flatten)

section

variable {s : Segment} {rest segments : List Segment} {data caught : List UInt8} {length : Nat}

/-! ## The first place -/

/-- A test is made where the literal lands. -/
theorem tryAt_eq (test : List UInt8 → Option (Nat × List UInt8)) {offset : Nat}
    (within : (nextLiteral segments).2 + offset ≤ data.length) :
    (Lands segments (data.drop offset) →
      tryAt test (nextLiteral segments).1 (nextLiteral segments).2 data offset =
        (test (data.drop offset)).map fun (length, caught) => ((offset, length), caught)) ∧
    (¬ Lands segments (data.drop offset) →
      tryAt test (nextLiteral segments).1 (nextLiteral segments).2 data offset = none) := by
  have stands : (nextLiteral segments).1.isPrefixOf
      (data.drop ((nextLiteral segments).2 + offset)) = true ↔
      Lands segments (data.drop offset) := by
    rw [List.isPrefixOf_iff_prefix, Lands, List.drop_drop, List.length_drop,
      Nat.add_comm offset]
    exact (and_iff_right (by omega)).symm
  rw [tryAt]
  exact ⟨fun lands => if_pos (stands.mpr lands), fun out => if_neg (mt stands.mp out)⟩

/-- The place that is found is the first of those where the literal lands and the test succeeds. -/
theorem firstPlace_first {test : List UInt8 → Option (Nat × List UInt8)} {offset : Nat}
    (h : firstPlace test segments data = some ((offset, length), caught)) :
    Lands segments (data.drop offset) ∧
      ∀ k < offset, Lands segments (data.drop k) → test (data.drop k) = none := by
  simp only [firstPlace] at h
  split_ifs at h with short
  obtain ⟨before, place, behind, places, tried, earlier⟩ := List.findSome?_eq_some_iff.mp h
  obtain ⟨n, most, rfl, later⟩ := List.range'_eq_append_iff.mp places
  obtain ⟨here, more, -⟩ := List.range'_eq_cons_iff.mp later.symm
  have within : (nextLiteral segments).2 + place ≤ data.length := by omega
  obtain ⟨hit, miss⟩ := tryAt_eq test within
  by_cases lands : Lands segments (data.drop place)
  · rw [hit lands] at tried
    obtain ⟨⟨_, _⟩, tested, e⟩ := Option.map_eq_some_iff.mp tried
    cases e
    refine ⟨lands, fun k hk landsk => ?_⟩
    have missed := earlier k (by rw [List.mem_range'_1]; omega)
    rwa [(tryAt_eq test (by omega)).1 landsk, Option.map_eq_none_iff] at missed
  · rw [miss lands] at tried
    cases tried

/-! ## Where every match is at such a place -/

/-- With nothing but bytes in front of it, the literal lands wherever the segments match. -/
theorem lands_of_direct (u : AllUniform segments) (direct : Direct (flatten segments))
    (h : outcome segments data = some (length, caught)) : Lands segments data := by
  obtain ⟨-, split⟩ := outcome_sound u h
  refine Lands.extend ?_ (List.take_prefix length data)
  by_cases literal : .literal ∈ (flatten segments).map PatternItem.sort
  · exact lands_of_close u (direct literal) split
  · refine ⟨lead_le_length u split, ?_⟩
    rw [nextLiteral_none u literal]
    exact List.nil_prefix

/-! ## Where some match is not -/

/-- Bytes for an item that leave gaps empty. -/
def sampleByte : PatternItem → Option UInt8
  | .literal value => some value
  | .masked _ value => some value
  | .any => some 0
  | .address => some 0
  | .anyRepeating => none

/-- The fewest bytes that split among the items. -/
def sample (items : List PatternItem) : List UInt8 := items.filterMap sampleByte

theorem sample_append (items more : List PatternItem) :
    sample (items ++ more) = sample items ++ sample more := List.filterMap_append ..

theorem splits_sample (items : List PatternItem) : ∃ caught, Splits items (sample items) caught := by
  induction items with
  | nil => exact ⟨[], .nil⟩
  | cons item rest ih =>
    obtain ⟨caught, split⟩ := ih
    cases item with
    | literal value => exact ⟨caught, .literal value split⟩
    | masked mask value => exact ⟨caught, .masked rfl split⟩
    | any => exact ⟨caught, .any 0 split⟩
    | address => exact ⟨0 :: caught, .address 0 split⟩
    | anyRepeating => exact ⟨caught, .anyRepeating [] split⟩

theorem sample_repeating {items : List PatternItem} (all : ∀ i ∈ items, i = .anyRepeating) :
    sample items = [] := by
  refine List.filterMap_eq_nil_iff.mpr fun i m => ?_
  rw [all i m]
  rfl

/-- A sample of a segment that is no gap has its length, and the segment accepts it. -/
theorem sample_fixed (us : s.Uniform) (fixed : s.sort ≠ .anyRepeating) :
    (sample s.items).length = s.length ∧ itemsAccept s.items (sample s.items) = true := by
  obtain ⟨_, split⟩ := splits_sample s.items
  obtain ⟨taken, accepts, -⟩ := (us.splits_iff fixed).mp split
  exact ⟨taken, accepts⟩

/-- With all gaps empty the literal stands where it is looked for. -/
theorem lands_sample (u : AllUniform segments) : Lands segments (sample (flatten segments)) := by
  induction segments with
  | nil => exact ⟨Nat.zero_le _, List.nil_prefix⟩
  | cons s rest ih =>
    have us := u.head
    rw [Segment.flatten_cons, sample_append]
    by_cases literal : s.sort = .literal
    · obtain ⟨_, split⟩ := splits_sample s.items
      exact lands_literal us literal split
    by_cases repeating : s.sort = .anyRepeating
    · rw [sample_repeating (us.repeating repeating)]
      exact (lands_repeating repeating).mpr (ih u.tail)
    · exact (lands_between literal repeating (sample_fixed us repeating).1).mpr (ih u.tail)

/-- Segments match their bytes whatever follows. -/
theorem outcome_fixed_isSome (us : s.Uniform) (fixed : s.sort ≠ .anyRepeating)
    (h : (outcome rest data).isSome) :
    (outcome (s :: rest) (sample s.items ++ data)).isSome := by
  obtain ⟨taken, accepts⟩ := sample_fixed us fixed
  have fits : s.length ≤ (sample s.items ++ data).length := by
    rw [List.length_append]
    omega
  rwa [outcome_fixed rest fixed fits, List.take_left' taken, List.drop_left' taken, if_pos accepts,
    Option.isSome_map]

theorem outcome_sample (u : AllUniform segments) (more : List UInt8) :
    (outcome segments (sample (flatten segments) ++ more)).isSome := by
  induction segments with
  | nil => rfl
  | cons s rest ih =>
    have us := u.head
    rw [Segment.flatten_cons, sample_append, List.append_assoc]
    by_cases repeating : s.sort = .anyRepeating
    · rw [sample_repeating (us.repeating repeating), outcome_repeating rest repeating,
        Option.isSome_map]
      have begins : [] ++ sample (flatten rest) <+: [] ++ (sample (flatten rest) ++ more) :=
        List.prefix_append ..
      exact firstPlace_isSome begins (lands_sample u.tail) (ih u.tail)
    · exact outcome_fixed_isSome us repeating (ih u.tail)

theorem nextLiteral_some (u : AllUniform segments)
    (literal : .literal ∈ (flatten segments).map PatternItem.sort) :
    (nextLiteral segments).1 ≠ [] := by
  induction segments with
  | nil => cases literal
  | cons s rest ih =>
    have us := u.head
    by_cases own : s.sort = .literal
    · obtain ⟨caught, split⟩ := splits_sample s.items
      rw [nextLiteral_literal own, literalBytes_eq us own split]
      have taken := (sample_fixed us (by simp [own])).1
      exact fun none => us.some (List.length_eq_zero_iff.mp (taken.symm.trans (congrArg _ none)))
    have later := literal_mem_rest us own literal
    by_cases repeating : s.sort = .anyRepeating
    · rw [nextLiteral_repeating repeating]
      exact ih u.tail later
    · rw [nextLiteral_between own repeating]
      exact ih u.tail later

/-- A gap in front of the literal can be filled so that the segments match, but the literal is not
where it is looked for. -/
theorem exists_outcome_aside (u : AllUniform segments) (gap : ¬ Direct (flatten segments)) :
    ∃ data, (outcome segments data).isSome ∧ ¬ Lands segments data := by
  induction segments with
  | nil => exact absurd (fun literal => by cases literal) gap
  | cons s rest ih =>
    have us := u.head
    obtain ⟨literal, gap⟩ := Classical.not_imp.mp gap
    rw [not_not] at gap
    by_cases own : s.sort = .literal
    · obtain ⟨item, items, e⟩ := List.exists_cons_of_ne_nil us.some
      have first : item.sort = .literal := (us.same item (e ▸ List.mem_cons_self)).trans own
      rw [Segment.flatten_cons, e, List.cons_append, PatternItem.front_cons, if_pos first] at gap
      cases gap
    have later := literal_mem_rest us own literal
    by_cases repeating : s.sort = .anyRepeating
    · -- so many bytes that the literal would have to begin with one of them
      obtain ⟨first, more, e⟩ := List.exists_cons_of_ne_nil (nextLiteral_some u.tail later)
      let filling := List.replicate ((nextLiteral rest).2 + 1) (first + 1)
      have filled : filling.length = (nextLiteral rest).2 + 1 := List.length_replicate
      refine ⟨filling ++ sample (flatten rest), ?_, ?_⟩
      · rw [outcome_repeating rest repeating, Option.isSome_map]
        refine firstPlace_isSome List.prefix_rfl (lands_sample u.tail) ?_
        rw [List.drop_left]
        simpa using outcome_sample u.tail []
      · rw [lands_repeating repeating]
        rintro ⟨-, stands⟩
        rw [e, List.drop_append_of_le_length (by omega), List.drop_replicate,
          Nat.add_sub_cancel_left] at stands
        have same := (List.cons_prefix_cons.mp stands).1
        simp at same
    · rw [Segment.flatten_cons, PatternItem.front_append (us.none_of own), List.mem_append] at gap
      have gap := gap.resolve_left fun m => by
        obtain ⟨i, m, e⟩ := List.mem_map.mp m
        exact us.none_of repeating i m e
      obtain ⟨data, matched, aside⟩ := ih u.tail fun direct => direct later gap
      refine ⟨sample s.items ++ data, outcome_fixed_isSome us repeating matched, ?_⟩
      rwa [lands_between own repeating (sample_fixed us repeating).1]

end

/-! ## The first match -/

/-- What the pattern finds in the data is its first match: the one at the smallest offset from
which on the data matches at its start, with the length and the captured value of that match. It
finds nothing if there is no such offset. -/
structure FindsFirst (p : Pattern) (data : List UInt8) : Prop where
  found : ∀ m, p.find? data = some m ↔
    p.matchAt? (data.drop m.offset) = some { m with offset := 0 } ∧
      ∀ k < m.offset, p.matchAt? (data.drop k) = none
  nothing : p.find? data = none ↔ ∀ k, p.matchAt? (data.drop k) = none

variable {p : Pattern} {data : List UInt8}

namespace Accepted

theorem direct_iff (h : p.Accepted) :
    Direct (flatten p.segments) ↔ Direct (PatternItem.trimmed p.items) := by
  obtain ⟨trail, trailing, alike⟩ := h.alike
  rw [← alike.direct, PatternItem.direct_append trailing]

theorem matchAt?_isSome_iff (h : p.Accepted) (data : List UInt8) :
    (p.matchAt? data).isSome ↔ (outcome p.segments data).isSome := by
  rw [h.matchAt?_eq, Option.isSome_map]

/-- The literal lands where a match is found, and no match before it has its literal landed. -/
theorem lands_of_find? (h : p.Accepted) (floating : p.anchored = false) {m : Match}
    (found : p.find? data = some m) : Lands p.segments (data.drop m.offset) ∧
      ∀ k < m.offset, Lands p.segments (data.drop k) → p.matchAt? (data.drop k) = none := by
  rw [h.find?_of_floating floating] at found
  obtain ⟨⟨⟨offset, length⟩, caught⟩, place, rfl⟩ := Option.map_eq_some_iff.mp found
  obtain ⟨lands, earlier⟩ := firstPlace_first place
  refine ⟨lands, fun k hk landsk => ?_⟩
  rw [h.matchAt?_eq, earlier k hk landsk]
  rfl

/-- A match with its literal landed is not missed. -/
theorem find?_isSome_of_lands (h : p.Accepted) (floating : p.anchored = false) {k : Nat}
    (lands : Lands p.segments (data.drop k)) (there : (p.matchAt? (data.drop k)).isSome) :
    (p.find? data).isSome := by
  obtain ⟨m, found⟩ := Option.isSome_iff_exists.mp there
  obtain ⟨fits, least, -⟩ := h.splits_of_matchAt? found
  have some := h.minLength_pos
  rw [List.length_drop] at fits
  have within : (data.take k).length = k := List.length_take_of_le (by omega)
  have begins : data.take k ++ data.drop k <+: data := by simp
  rw [h.matchAt?_isSome_iff, ← within] at there
  rw [h.find?_of_floating floating, Option.isSome_map]
  exact firstPlace_isSome begins lands there

end Accepted

/-- Where every match has its literal landed, the first of them is found. -/
theorem Accepted.findsFirst (h : p.Accepted) (floating : p.anchored = false)
    (lands : ∀ k, (p.matchAt? (data.drop k)).isSome → Lands p.segments (data.drop k)) :
    FindsFirst p data := by
  have first {m : Match} (found : p.find? data = some m) :
      ∀ k < m.offset, p.matchAt? (data.drop k) = none := by
    intro k hk
    by_contra some
    have landed := lands k (Option.isSome_iff_ne_none.mpr some)
    exact some ((h.lands_of_find? floating found).2 k hk landed)
  have hit {k : Nat} (there : (p.matchAt? (data.drop k)).isSome) : (p.find? data).isSome :=
    h.find?_isSome_of_lands floating (lands k there) there
  refine ⟨fun m => ⟨fun found => ⟨(h.matchAt?_of_find? found).1, first found⟩, ?_⟩, ?_, ?_⟩
  · rintro ⟨there, earlier⟩
    obtain ⟨m', found⟩ := Option.isSome_iff_exists.mp (hit (by rw [there]; rfl))
    have there' := (h.matchAt?_of_find? found).1
    -- neither of the two stands before the other
    have same : m'.offset = m.offset := by
      rcases Nat.lt_trichotomy m'.offset m.offset with before | same | behind
      · rw [earlier _ before] at there'
        cases there'
      · exact same
      · rw [first found _ behind] at there
        cases there
    rw [same, there, Option.some.injEq, Match.mk.injEq] at there'
    rw [found, Option.some.injEq]
    obtain ⟨offset, length, captured⟩ := m
    obtain ⟨offset', length', captured'⟩ := m'
    simp_all
  · intro none k
    by_contra some
    have := hit (Option.isSome_iff_ne_none.mpr some)
    rw [none] at this
    cases this
  · intro none
    by_contra some
    obtain ⟨m, found⟩ := Option.ne_none_iff_exists'.mp some
    have there := (h.matchAt?_of_find? found).1
    rw [none] at there
    cases there

/-- A match at the very start is found only if the literal lands there. -/
theorem Accepted.lands_of_findsFirst (h : p.Accepted) (floating : p.anchored = false)
    (there : (p.matchAt? data).isSome) (first : FindsFirst p data) : Lands p.segments data := by
  obtain ⟨m, there⟩ := Option.isSome_iff_exists.mp there
  obtain ⟨start, zero⟩ := h.matchAt?_of_matchAt? there
  have found : p.find? data = some m := (first.found m).mpr
    ⟨start, fun k hk => absurd hk (by omega)⟩
  simpa [zero] using (h.lands_of_find? floating found).1

/-- A pattern that is not anchored finds the first of its matches in all data, or nothing where it
matches nowhere, if no gap comes before its first literal; and only then. -/
theorem the_first_match_is_found_unless_a_gap_leads (h : p.Accepted)
    (floating : p.anchored = false) :
    Direct (PatternItem.trimmed p.items) ↔ ∀ data, FindsFirst p data := by
  rw [← h.direct_iff]
  constructor
  · intro direct data
    refine h.findsFirst floating fun k there => ?_
    obtain ⟨⟨_, _⟩, taken⟩ := Option.isSome_iff_exists.mp ((h.matchAt?_isSome_iff _).mp there)
    exact lands_of_direct h.uniform direct taken
  · intro all
    by_contra gap
    obtain ⟨data, matched, aside⟩ := exists_outcome_aside h.uniform gap
    exact aside (h.lands_of_findsFirst floating ((h.matchAt?_isSome_iff data).mpr matched) (all data))

/-- The gap of this pattern comes behind its first literal. -/
theorem the_first_of_two_matches_is_found :
    retrying.Accepted ∧ retrying.anchored = false ∧ Direct (PatternItem.trimmed retrying.items) ∧
      FindsFirst retrying [0xaa, 0xaa, 0xbb, 1, 2, 0xcc, 0xaa, 0xbb, 3, 4, 0xcc] := by
  have direct : Direct (PatternItem.trimmed retrying.items) := by decide
  exact ⟨rfl, rfl, direct, (the_first_match_is_found_unless_a_gap_leads (p := retrying) rfl rfl).mp
    direct _⟩

/-- An address byte with a gap behind it, and a literal. -/
def leading : Pattern := absolute [.address, .anyRepeating, .literal 0x22] false

/-- The address byte is looked for right in front of the literal, and the match in front of that
one is passed over. -/
theorem a_match_with_a_filled_gap_is_passed_over :
    leading.Accepted ∧ leading.anchored = false ∧
      leading.matchAt? [0x44, 0, 0, 0x22] = some ⟨0, 4, 0x44⟩ ∧
      leading.find? [0x44, 0, 0, 0x22] = some ⟨2, 2, 0⟩ :=
  ⟨rfl, rfl, by decide +kernel, by decide +kernel⟩

end Pattern

end Detouring
