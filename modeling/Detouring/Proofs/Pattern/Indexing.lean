-- What a search over a collection finds. The index only leaves out what cannot match: a group
-- holds the patterns that have their literal at its offset, and each of them needs that literal's
-- first byte there and its own fewest bytes around it.
import Detouring.Pattern.Collection
import Detouring.Proofs.Pattern.Guidance

namespace Detouring

/-! ## The literal that indexes a pattern -/

namespace Pattern

open Segment (AllUniform flatten)

variable {p : Pattern} {data bytes caught : List UInt8} {segments : List Segment}

/-- A literal at a fixed offset is the next literal, and stands at its offset in every match. -/
theorem lands_of_fixedLiteral (u : AllUniform segments) {place : List UInt8 × Nat}
    (fixed : fixedLiteral segments = some place) (split : Splits (flatten segments) bytes caught) :
    nextLiteral segments = place ∧ Lands segments bytes := by
  induction segments generalizing bytes caught place with
  | nil => cases fixed
  | cons s rest ih =>
    obtain ⟨b, b', c, c', rfl, rfl, own, behind⟩ := Splits.append_iff.mp split
    by_cases literal : s.sort = .literal
    · obtain rfl : (literalBytes s, 0) = place := by simpa [fixedLiteral, literal] using fixed
      exact ⟨nextLiteral_literal literal rest, lands_literal u.head literal own⟩
    by_cases repeating : s.sort = .anyRepeating
    · simp [fixedLiteral, repeating] at fixed
    · have between : fixedLiteral (s :: rest) =
          (fixedLiteral rest).map fun place => (place.1, place.2 + s.length) := by
        rw [fixedLiteral]
        split <;> first | contradiction | rfl
      rw [between] at fixed
      obtain ⟨⟨bytes, offset⟩, later, rfl⟩ := Option.map_eq_some_iff.mp fixed
      obtain ⟨next, lands⟩ := ih u.tail later behind
      refine ⟨by rw [nextLiteral_between literal repeating, next], ?_⟩
      rwa [lands_between literal repeating ((u.head.splits_iff repeating).mp own).1]

/-- A literal that stands in some bytes stands there whatever follows. -/
theorem Lands.extend (h : Lands segments bytes) (begins : bytes <+: data) :
    Lands segments data := by
  obtain ⟨more, rfl⟩ := begins
  obtain ⟨within, literal⟩ := h
  rw [Lands, List.length_append, List.drop_append_of_le_length within]
  exact ⟨by omega, literal.trans (List.prefix_append ..)⟩

namespace Accepted

variable {m : Match} {offset start : Nat} {first : UInt8}

theorem lands_of_indexKey (h : p.Accepted)
    (key : PatternCollection.indexKey p = some (offset, first))
    (found : p.matchAt? data = some m) : Lands p.segments data ∧ data[offset]? = some first := by
  obtain ⟨more, fixed⟩ : ∃ more, fixedLiteral p.segments = some (first :: more, offset) := by
    rw [PatternCollection.indexKey] at key
    split at key
    · cases key
      exact ⟨_, by assumption⟩
    · cases key
  rw [h.matchAt?_eq] at found
  obtain ⟨⟨length, caught⟩, taken, -⟩ := Option.map_eq_some_iff.mp found
  obtain ⟨next, lands⟩ :=
    lands_of_fixedLiteral h.uniform fixed (outcome_sound h.uniform taken).2
  have lands := lands.extend <| List.take_prefix length data
  refine ⟨lands, ?_⟩
  rw [Lands, next] at lands
  obtain ⟨behind, whole⟩ := lands.2
  have byte := congrArg List.head? whole
  rw [List.head?_drop] at byte
  exact byte.symm

/-- A match of an indexed pattern is in the way of its own search, if that search goes so far. -/
theorem find?_isSome_of_indexKey (h : p.Accepted)
    (key : PatternCollection.indexKey p = some (offset, first))
    (found : p.matchAt? (data.drop start) = some m) (reached : p.anchored = true → start = 0) :
    (p.find? data).isSome := by
  rcases anchored : p.anchored with _ | _
  · obtain ⟨fits, least, -⟩ := h.splits_of_matchAt? found
    have some := h.minLength_pos
    rw [List.length_drop] at fits
    have within : (data.take start).length = start := List.length_take_of_le (by omega)
    have begins : data.take start ++ data.drop start <+: data := by simp
    have hit := congrArg Option.isSome found
    rw [h.matchAt?_eq, Option.isSome_map, ← within] at hit
    rw [h.find?_of_floating anchored, Option.isSome_map]
    exact firstPlace_isSome begins (h.lands_of_indexKey key found).1 hit
  · obtain rfl := reached anchored
    rw [List.drop_zero] at found
    rw [find?_of_anchored anchored, found]
    rfl

end Accepted

end Pattern

namespace PatternCollection

/-! ## What the index holds -/

/-- The entry is a member of the group of this offset, under this byte. -/
def Held (groups : List LiteralGroup) (offset : Nat) (first : UInt8) (e : Entry) : Prop :=
  ∃ g ∈ groups, g.offset = offset ∧ (first, e) ∈ g.members

theorem held_cons {g : LiteralGroup} {groups : List LiteralGroup} {offset : Nat} {first : UInt8}
    {e : Entry} : Held (g :: groups) offset first e ↔
      (g.offset = offset ∧ (first, e) ∈ g.members) ∨ Held groups offset first e := by
  simp [Held]

theorem held_insert {groups : List LiteralGroup} {offset offset' : Nat} {first first' : UInt8}
    {e e' : Entry} : Held (LiteralGroup.insert offset first e groups) offset' first' e' ↔
      (offset' = offset ∧ first' = first ∧ e' = e) ∨ Held groups offset' first' e' := by
  induction groups with
  | nil => simp [Held, LiteralGroup.insert, eq_comm]
  | cons g rest ih =>
    rw [LiteralGroup.insert]
    split_ifs with before same
    · simp [held_cons, eq_comm]
    · subst same
      simp only [held_cons, List.mem_append, List.mem_singleton, Prod.mk.injEq]
      grind
    · rw [held_cons, held_cons, ih, or_left_comm]

/-- The index of some entries: a pattern with a literal at a fixed offset is held under it, and
the others are left over. -/
structure Indexes (c : PatternCollection) (given : List Entry) : Prop where
  entries : c.entries = given
  held : ∀ offset first e, Held c.groups offset first e ↔
    e ∈ given ∧ indexKey e.pattern = some (offset, first)
  unindexed : ∀ e, e ∈ c.unindexed ↔ e ∈ given ∧ indexKey e.pattern = none

theorem Indexes.add {c : PatternCollection} {given : List Entry} (h : Indexes c given)
    (e : Entry) : Indexes (c.add e) (given ++ [e]) := by
  rw [PatternCollection.add]
  split
  case h_1 offset first key =>
    refine ⟨by rw [h.entries], fun o b e' => ?_, fun e' => ?_⟩
    · rw [held_insert, h.held, List.mem_append, List.mem_singleton]
      grind
    · rw [h.unindexed, List.mem_append, List.mem_singleton]
      grind
  case h_2 key =>
    refine ⟨by rw [h.entries], fun o b e' => ?_, fun e' => ?_⟩
    · rw [h.held, List.mem_append, List.mem_singleton]
      grind
    · rw [List.mem_append, h.unindexed, List.mem_append, List.mem_singleton]
      grind

theorem Indexes.foldl {c : PatternCollection} {given : List Entry} (h : Indexes c given)
    (more : List Entry) : Indexes (more.foldl PatternCollection.add c) (given ++ more) := by
  induction more generalizing given c with
  | nil => simpa using h
  | cons e rest ih => simpa using ih (h.add e)

theorem mem_entries {patterns : List Pattern} {e : Entry} :
    e ∈ patterns.mapIdx Entry.mk ↔ patterns[e.index]? = some e.pattern := by
  rw [List.mem_mapIdx, List.getElem?_eq_some_iff]
  constructor
  · rintro ⟨i, within, rfl⟩
    exact ⟨within, rfl⟩
  · rintro ⟨within, there⟩
    exact ⟨e.index, within, by rw [there]⟩

theorem pattern_mem {patterns : List Pattern} {e : Entry} (m : e ∈ patterns.mapIdx Entry.mk) :
    e.pattern ∈ patterns := List.mem_of_getElem? (mem_entries.mp m)

theorem exists_entry {patterns : List Pattern} {p : Pattern} (m : p ∈ patterns) :
    ∃ e ∈ patterns.mapIdx Entry.mk, e.pattern = p := by
  obtain ⟨i, there⟩ := List.mem_iff_getElem?.mp m
  exact ⟨⟨i, p⟩, mem_entries.mpr there, rfl⟩

theorem indexes_ofList (patterns : List Pattern) :
    Indexes (ofList patterns) (patterns.mapIdx Entry.mk) := by
  have start : Indexes ⟨[], [], []⟩ [] := ⟨rfl, by simp [Held], by simp⟩
  exact start.foldl _

/-! ## Asking a group -/

section

variable {entries : List Entry} {g : LiteralGroup} {data : List UInt8} {e : Entry} {hit : Hit}
  {first : UInt8} {offset : Nat}

theorem mem_candidates : e ∈ g.candidates first ↔ (first, e) ∈ g.members := by
  simp [LiteralGroup.candidates]

/-- Data that is long enough for a member is not too short for its group. -/
theorem not_tooShort (m : (first, e) ∈ g.members) {length : Nat}
    (fits : e.pattern.minLength ≤ length) : g.tooShort length = false := by
  rw [LiteralGroup.tooShort, LiteralGroup.minLength]
  split
  · rename_i least shortest
    have smallest := (List.min?_eq_some_iff.mp shortest).2 _ (List.mem_map_of_mem m)
    simpa using smallest.trans fits
  · rename_i none
    rw [List.map_eq_nil_iff.mp (List.min?_eq_none_iff.mp none)] at m
    cases m

theorem firstMatch_eq_some (h : firstMatch entries data = some hit) :
    hit.entry ∈ entries ∧ hit.entry.pattern.matchAt? data = some hit.found := by
  obtain ⟨e, m, tried⟩ := List.exists_of_findSome?_eq_some h
  obtain ⟨found, there, rfl⟩ := Option.map_eq_some_iff.mp tried
  exact ⟨m, there⟩

theorem firstMatch_isSome (m : e ∈ entries) (h : (e.pattern.matchAt? data).isSome) :
    (firstMatch entries data).isSome := by
  rw [firstMatch, List.findSome?_isSome_iff]
  exact ⟨e, m, by rwa [Option.isSome_map]⟩

theorem groupMatchAt_eq_some (h : groupMatchAt g data = some hit) :
    (∃ first, (first, hit.entry) ∈ g.members) ∧
      hit.entry.pattern.matchAt? data = some hit.found := by
  rw [groupMatchAt] at h
  split_ifs at h
  split at h
  · rename_i first _
    obtain ⟨m, found⟩ := firstMatch_eq_some h
    exact ⟨⟨first, mem_candidates.mp m⟩, found⟩
  · cases h

theorem groupMatchAt_isSome (m : (first, e) ∈ g.members) (byte : data[g.offset]? = some first)
    (fits : e.pattern.minLength ≤ data.length) (h : (e.pattern.matchAt? data).isSome) :
    (groupMatchAt g data).isSome := by
  have within := (List.getElem?_eq_some_iff.mp byte).1
  rw [groupMatchAt, if_neg (by simp [not_tooShort m fits]; omega), byte]
  exact firstMatch_isSome (mem_candidates.mpr m) h

theorem groupMatchAround_eq_some (h : groupMatchAround g data offset first = some hit) :
    (first, hit.entry) ∈ g.members ∧
      (hit.entry.pattern.anchored = true → hit.found.offset = 0) ∧
      ∃ m, hit.entry.pattern.matchAt? (data.drop hit.found.offset) = some m ∧
        hit.found = { m with offset := hit.found.offset } := by
  rw [groupMatchAround] at h
  split_ifs at h with before
  simp only at h
  split_ifs at h
  obtain ⟨hit', found, rfl⟩ := Option.map_eq_some_iff.mp h
  obtain ⟨m, there⟩ := firstMatch_eq_some found
  obtain ⟨m, reached⟩ := List.mem_filter.mp m
  refine ⟨mem_candidates.mp m, fun anchored => ?_, _, there, rfl⟩
  exact (of_decide_eq_true reached).resolve_right (by simpa using anchored)

theorem groupMatchAround_isSome {start : Nat} (m : (first, e) ∈ g.members)
    (fits : e.pattern.minLength ≤ data.length - start)
    (reached : e.pattern.anchored = true → start = 0)
    (h : (e.pattern.matchAt? (data.drop start)).isSome) :
    (groupMatchAround g data (start + g.offset) first).isSome := by
  have candidate : e ∈ (g.candidates first).filter fun e => start = 0 ∨ !e.pattern.anchored := by
    rw [List.mem_filter, mem_candidates]
    refine ⟨m, ?_⟩
    rcases anchored : e.pattern.anchored with _ | _
    · simp
    · simp [reached anchored]
  rw [groupMatchAround, if_neg (by omega)]
  simp only [Nat.add_sub_cancel, not_tooShort m fits]
  rw [if_neg (by simp), Option.isSome_map]
  exact firstMatch_isSome candidate h

end

/-! ## Walking over the data -/

section

variable {c : PatternCollection} {data rest : List UInt8} {offset : Nat} {hit : Hit}

/-- At one byte the groups are asked, if the byte begins some literal. -/
def askGroups (c : PatternCollection) (data : List UInt8) (offset : Nat) (b : UInt8) : Option Hit :=
  if c.mayBegin b then c.groups.findSome? fun g => groupMatchAround g data offset b else none

theorem walk_cons (b : UInt8) (rest : List UInt8) :
    walk c data (b :: rest) offset =
      (askGroups c data offset b).or (walk c data rest (offset + 1)) := by
  rw [walk, askGroups]
  exact Option.orElse_eq_or

theorem askGroups_eq_some {b : UInt8} (h : askGroups c data offset b = some hit) :
    ∃ g ∈ c.groups, groupMatchAround g data offset b = some hit := by
  rw [askGroups] at h
  split_ifs at h
  exact List.exists_of_findSome?_eq_some h

theorem walk_eq_some (h : walk c data rest offset = some hit) :
    ∃ g ∈ c.groups, ∃ place first, groupMatchAround g data place first = some hit := by
  induction rest generalizing offset with
  | nil => cases h
  | cons b rest ih =>
    rw [walk_cons, Option.or_eq_some_iff] at h
    rcases h with here | ⟨-, later⟩
    · obtain ⟨g, m, found⟩ := askGroups_eq_some here
      exact ⟨g, m, offset, b, found⟩
    · exact ih later

/-- A byte that begins the literal of a member has the groups asked. -/
theorem askGroups_isSome {g : LiteralGroup} {first : UInt8} {e : Entry} (mg : g ∈ c.groups)
    (me : (first, e) ∈ g.members) (h : (groupMatchAround g data offset first).isSome) :
    (askGroups c data offset first).isSome := by
  have may : c.mayBegin first = true :=
    List.any_eq_true.mpr ⟨g, mg, List.any_eq_true.mpr ⟨_, me, by simp⟩⟩
  rw [askGroups, if_pos may]
  exact List.findSome?_isSome_iff.mpr ⟨g, mg, h⟩

/-- The walk comes to every byte, unless it has found something before. -/
theorem walk_isSome {b : UInt8} {ahead : Nat} (byte : rest[ahead]? = some b)
    (h : (askGroups c data (offset + ahead) b).isSome) : (walk c data rest offset).isSome := by
  induction rest generalizing offset ahead with
  | nil => cases byte
  | cons first rest ih =>
    rw [walk_cons, Option.isSome_or, Bool.or_eq_true]
    cases ahead with
    | zero =>
      obtain rfl : first = b := by simpa using byte
      exact Or.inl h
    | succ ahead =>
      refine Or.inr (ih (by simpa using byte) ?_)
      rwa [Nat.add_assoc, Nat.add_comm 1]

end

/-! ## Searching the collection -/

section

variable {c : PatternCollection} {given : List Entry} {data : List UInt8} {e : Entry} {hit : Hit}

/-- A collection does not turn away data that is long enough for one of its patterns. -/
theorem Indexes.enough (index : Indexes c given) (m : e ∈ given)
    (fits : e.pattern.minLength ≤ data.length) :
    ¬ (c.entries = [] ∨ data.length < c.minLength) := by
  rw [← index.entries] at m
  have among : e.pattern.minLength ∈ c.patterns.map Pattern.minLength :=
    List.mem_map_of_mem (List.mem_map_of_mem m)
  rintro (none | short)
  · rw [none] at m
    cases m
  · rw [minLength] at short
    rcases least : (c.patterns.map Pattern.minLength).min? with _ | n
    · rw [List.min?_eq_none_iff.mp least] at among
      cases among
    · have := (List.min?_eq_some_iff.mp least).2 _ among
      rw [least, Option.getD_some] at short
      omega

theorem matchAt?_eq_some (index : Indexes c given) (h : c.matchAt? data = some hit) :
    hit.entry ∈ given ∧ hit.entry.pattern.matchAt? data = some hit.found := by
  rw [matchAt?] at h
  split_ifs at h
  rw [Option.orElse_eq_orElse, Option.orElse_eq_or, Option.or_eq_some_iff] at h
  rcases h with grouped | ⟨-, rest⟩
  · obtain ⟨g, mg, found⟩ := List.exists_of_findSome?_eq_some grouped
    obtain ⟨⟨first, me⟩, there⟩ := groupMatchAt_eq_some found
    exact ⟨((index.held _ _ _).mp ⟨g, mg, rfl, me⟩).1, there⟩
  · obtain ⟨m, there⟩ := firstMatch_eq_some rest
    exact ⟨((index.unindexed _).mp m).1, there⟩

theorem matchAt?_isSome (index : Indexes c given) (m : e ∈ given) (accepted : e.pattern.Accepted)
    (h : (e.pattern.matchAt? data).isSome) : (c.matchAt? data).isSome := by
  obtain ⟨found, there⟩ := Option.isSome_iff_exists.mp h
  obtain ⟨fits, least, -⟩ := accepted.splits_of_matchAt? there
  have room := least.trans fits
  rw [matchAt?, if_neg (index.enough m room), Option.orElse_eq_orElse, Option.orElse_eq_or,
    Option.isSome_or, Bool.or_eq_true]
  rcases key : indexKey e.pattern with _ | ⟨offset, first⟩
  · exact Or.inr (firstMatch_isSome ((index.unindexed e).mpr ⟨m, key⟩) h)
  · obtain ⟨g, mg, rfl, me⟩ := (index.held _ _ _).mpr ⟨m, key⟩
    have byte := (accepted.lands_of_indexKey key there).2
    exact Or.inl (List.findSome?_isSome_iff.mpr ⟨g, mg, groupMatchAt_isSome me byte room h⟩)

theorem find?_eq_some (index : Indexes c given) (accepted : ∀ e ∈ given, e.pattern.Accepted)
    (h : c.find? data = some hit) :
    hit.entry ∈ given ∧ (hit.entry.pattern.find? data).isSome ∧
      hit.entry.pattern.matchAt? (data.drop hit.found.offset) =
        some { hit.found with offset := 0 } ∧
      (hit.entry.pattern.anchored = true → hit.found.offset = 0) := by
  rw [find?] at h
  split_ifs at h
  rw [Option.orElse_eq_orElse, Option.orElse_eq_or, Option.or_eq_some_iff] at h
  rcases h with walked | ⟨-, rest⟩
  · obtain ⟨g, mg, place, first, around⟩ := walk_eq_some walked
    obtain ⟨me, reached, m, there, same⟩ := groupMatchAround_eq_some around
    obtain ⟨member, key⟩ := (index.held _ _ _).mp ⟨g, mg, rfl, me⟩
    have a := accepted _ member
    have zero : m.offset = 0 := a.offset_of_matchAt? there
    refine ⟨member, a.find?_isSome_of_indexKey key there reached, ?_, reached⟩
    rw [there, same, ← zero]
  · obtain ⟨e, m, tried⟩ := List.exists_of_findSome?_eq_some rest
    obtain ⟨found, there, rfl⟩ := Option.map_eq_some_iff.mp tried
    have member := ((index.unindexed e).mp m).1
    exact ⟨member, by simp [there], (accepted e member).matchAt?_of_find? there⟩

theorem find?_isSome (index : Indexes c given) (m : e ∈ given) (accepted : e.pattern.Accepted)
    (h : (e.pattern.find? data).isSome) : (c.find? data).isSome := by
  obtain ⟨found, there⟩ := Option.isSome_iff_exists.mp h
  obtain ⟨start, reached⟩ := accepted.matchAt?_of_find? there
  obtain ⟨fits, least, -⟩ := accepted.splits_of_matchAt? start
  have room := least.trans fits
  rw [List.length_drop] at room
  rw [find?, if_neg (index.enough m (by omega)), Option.orElse_eq_orElse, Option.orElse_eq_or,
    Option.isSome_or, Bool.or_eq_true]
  rcases key : indexKey e.pattern with _ | ⟨offset, first⟩
  · refine Or.inr (List.findSome?_isSome_iff.mpr ⟨e, (index.unindexed e).mpr ⟨m, key⟩, ?_⟩)
    rwa [Option.isSome_map]
  · obtain ⟨g, mg, rfl, me⟩ := (index.held _ _ _).mpr ⟨m, key⟩
    have byte := (accepted.lands_of_indexKey key start).2
    rw [List.getElem?_drop] at byte
    have around := groupMatchAround_isSome me room reached (by simp [start])
    refine Or.inl (walk_isSome byte (askGroups_isSome mg me ?_))
    rwa [Nat.zero_add]

end

/-! ## The law of an indexed search -/

/-- A collection matches at the start of the data when one of its patterns does, and finds a match
when one of its patterns finds one. What it gives is the pattern with the position that it was
given in, and a match that this pattern makes at the start of the data from there on; for an
anchored pattern that is the start of all the data. -/
theorem an_indexed_search_agrees_with_its_patterns {patterns : List Pattern}
    (accepted : ∀ p ∈ patterns, p.Accepted) (data : List UInt8) :
    (((ofList patterns).matchAt? data).isSome ↔ ∃ p ∈ patterns, (p.matchAt? data).isSome) ∧
    (((ofList patterns).find? data).isSome ↔ ∃ p ∈ patterns, (p.find? data).isSome) ∧
    ∀ hit, (ofList patterns).matchAt? data = some hit ∨ (ofList patterns).find? data = some hit →
      patterns[hit.entry.index]? = some hit.entry.pattern ∧
        hit.entry.pattern.matchAt? (data.drop hit.found.offset) =
          some { hit.found with offset := 0 } ∧
        (hit.entry.pattern.anchored = true → hit.found.offset = 0) := by
  have index := indexes_ofList patterns
  have all : ∀ e ∈ patterns.mapIdx Entry.mk, e.pattern.Accepted :=
    fun e m => accepted _ (pattern_mem m)
  refine ⟨⟨fun h => ?_, ?_⟩, ⟨fun h => ?_, ?_⟩, fun hit found => ?_⟩
  · obtain ⟨hit, found⟩ := Option.isSome_iff_exists.mp h
    obtain ⟨m, there⟩ := matchAt?_eq_some index found
    exact ⟨_, pattern_mem m, by simp [there]⟩
  · rintro ⟨p, m, h⟩
    obtain ⟨e, me, rfl⟩ := exists_entry m
    exact matchAt?_isSome index me (all e me) h
  · obtain ⟨hit, found⟩ := Option.isSome_iff_exists.mp h
    obtain ⟨m, there, -⟩ := find?_eq_some index all found
    exact ⟨_, pattern_mem m, there⟩
  · rintro ⟨p, m, h⟩
    obtain ⟨e, me, rfl⟩ := exists_entry m
    exact find?_isSome index me (all e me) h
  · rcases found with found | found
    · obtain ⟨m, at_start⟩ := matchAt?_eq_some index found
      obtain ⟨there, zero⟩ := (all _ m).matchAt?_of_matchAt? at_start
      exact ⟨mem_entries.mp m, there, fun _ => zero⟩
    · obtain ⟨m, -, there⟩ := find?_eq_some index all found
      exact ⟨mem_entries.mp m, there⟩

/-- An address byte and a literal behind it, at the start of the data only. -/
def trailing : Pattern := .absolute [.address, .literal 0xcc] true

theorem the_second_pattern_is_found :
    ∃ hit, (ofList [trailing, .retrying]).find? [0, 0xaa, 0xbb, 1, 2, 0xcc] = some hit ∧
      hit.entry = ⟨1, .retrying⟩ ∧ hit.found = ⟨1, 5, 0x201⟩ ∧
      Pattern.retrying.matchAt? [0xaa, 0xbb, 1, 2, 0xcc] = some ⟨0, 5, 0x201⟩ := by
  have search : ((ofList [trailing, .retrying]).find? [0, 0xaa, 0xbb, 1, 2, 0xcc]).map
      (fun hit => (hit.entry.index, hit.found)) = some (1, ⟨1, 5, 0x201⟩) := by
    decide +kernel
  obtain ⟨⟨⟨index, p⟩, m⟩, found, e⟩ := Option.map_eq_some_iff.mp search
  obtain ⟨rfl, rfl⟩ := Prod.mk.inj e
  have accepted : ∀ p ∈ [trailing, .retrying], p.Accepted := by
    simp only [List.forall_mem_cons]
    exact ⟨rfl, rfl, by simp⟩
  obtain ⟨given, there, -⟩ :=
    (an_indexed_search_agrees_with_its_patterns accepted _).2.2 _ (Or.inr found)
  obtain rfl : Pattern.retrying = p := Option.some.inj given
  exact ⟨_, found, rfl, rfl, there⟩

end PatternCollection

end Detouring
