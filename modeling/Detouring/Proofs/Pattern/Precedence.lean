-- Which of several matches a collection gives. It walks over the bytes and asks its groups at each
-- byte that may begin a literal, so the match that it gives is the one whose literal comes first.
-- A match that begins before it has its literal further from its start.
import Detouring.Proofs.Pattern.Indexing

namespace Detouring.PatternCollection

section

variable {c : PatternCollection} {given : List Entry} {g : LiteralGroup} {data rest : List UInt8}
  {e : Entry} {hit : Hit} {first : UInt8} {offset start : Nat}

/-! ## The first byte where a group matches -/

/-- A match that is made around a byte begins as far in front of it as the literal of its group. -/
theorem offset_of_groupMatchAround (h : groupMatchAround g data offset first = some hit) :
    hit.found.offset + g.offset = offset := by
  rw [groupMatchAround] at h
  split_ifs at h with before
  simp only at h
  split_ifs at h
  obtain ⟨_, _, rfl⟩ := Option.map_eq_some_iff.mp h
  exact Nat.sub_add_cancel (Nat.not_lt.mp before)

/-- What the walk gives is what the groups give at the first byte where they give something. -/
theorem walk_first (h : walk c data rest offset = some hit) :
    ∃ ahead b, rest[ahead]? = some b ∧ askGroups c data (offset + ahead) b = some hit ∧
      ∀ k < ahead, ∀ b', rest[k]? = some b' → askGroups c data (offset + k) b' = none := by
  induction rest generalizing offset with
  | nil => cases h
  | cons b rest ih =>
    rw [walk_cons, Option.or_eq_some_iff] at h
    rcases h with here | ⟨none, later⟩
    · exact ⟨0, b, rfl, here, fun k hk => absurd hk (Nat.not_lt_zero k)⟩
    · obtain ⟨ahead, b', there, asked, earlier⟩ := ih later
      refine ⟨ahead + 1, b', there, ?_, fun k hk b'' byte => ?_⟩
      · rwa [Nat.add_assoc, Nat.add_comm 1] at asked
      · cases k with
        | zero =>
          obtain rfl : b = b'' := by simpa using byte
          exact none
        | succ k =>
          rw [← Nat.add_assoc, Nat.add_right_comm]
          exact earlier k (by omega) b'' byte

/-! ## Matches of indexed patterns -/

/-- The first literal of the pattern stands so many bytes behind the start of every match, and the
pattern is indexed by it. -/
def Indexed (p : Pattern) (offset : Nat) : Prop := ∃ first, indexKey p = some (offset, first)

/-- The pattern matches from this place on, which is the start of the data if it is anchored. -/
def MatchesAt (p : Pattern) (data : List UInt8) (start : Nat) : Prop :=
  (p.matchAt? (data.drop start)).isSome ∧ (p.anchored = true → start = 0)

/-- Where an indexed pattern matches, the groups are asked at the first byte of its literal, and
have an answer. -/
theorem Indexes.asked (index : Indexes c given) (m : e ∈ given) (accepted : e.pattern.Accepted)
    (indexed : Indexed e.pattern offset) (here : MatchesAt e.pattern data start) :
    ∃ b, data[start + offset]? = some b ∧ (askGroups c data (start + offset) b).isSome := by
  obtain ⟨first, key⟩ := indexed
  obtain ⟨g, mg, rfl, me⟩ := (index.held _ _ _).mpr ⟨m, key⟩
  obtain ⟨found, there⟩ := Option.isSome_iff_exists.mp here.1
  obtain ⟨fits, least, -⟩ := accepted.splits_of_matchAt? there
  have byte := (accepted.lands_of_indexKey key there).2
  have room := least.trans fits
  rw [List.length_drop] at room
  rw [List.getElem?_drop] at byte
  exact ⟨first, byte, askGroups_isSome mg me (groupMatchAround_isSome me room here.2 here.1)⟩

/-- Where an indexed pattern matches, the walk finds something, and the collection gives that. -/
theorem Indexes.found (index : Indexes c given) (m : e ∈ given) (accepted : e.pattern.Accepted)
    (indexed : Indexed e.pattern offset) (here : MatchesAt e.pattern data start) :
    ∃ hit, walk c data data 0 = some hit ∧ c.find? data = some hit := by
  obtain ⟨b, byte, asked⟩ := index.asked m accepted indexed here
  have walked : (walk c data data 0).isSome := walk_isSome byte (by rwa [Nat.zero_add])
  obtain ⟨hit, walked⟩ := Option.isSome_iff_exists.mp walked
  obtain ⟨_, there⟩ := Option.isSome_iff_exists.mp here.1
  obtain ⟨fits, least, -⟩ := accepted.splits_of_matchAt? there
  have room := least.trans fits
  rw [List.length_drop] at room
  refine ⟨hit, walked, ?_⟩
  rw [find?, if_neg (index.enough m (by omega)), Option.orElse_eq_orElse, Option.orElse_eq_or,
    walked]
  rfl

end

/-- A match that a collection gives is one of its patterns' where it begins. -/
theorem matchesAt_of_find? {patterns : List Pattern} (accepted : ∀ p ∈ patterns, p.Accepted)
    {data : List UInt8} {hit : Hit} (found : (ofList patterns).find? data = some hit) :
    hit.entry.pattern ∈ patterns ∧ MatchesAt hit.entry.pattern data hit.found.offset := by
  obtain ⟨m, -, there, reached⟩ := find?_eq_some (indexes_ofList patterns)
    (fun e m => accepted _ (pattern_mem m)) found
  exact ⟨pattern_mem m, by rw [there]; rfl, reached⟩

/-- A collection of indexed patterns finds nothing only in data in which none of them matches. -/
theorem find?_eq_none_iff {patterns : List Pattern} (accepted : ∀ p ∈ patterns, p.Accepted)
    (indexed : ∀ p ∈ patterns, ∃ offset, Indexed p offset) {data : List UInt8} :
    (ofList patterns).find? data = none ↔ ∀ p ∈ patterns, ∀ start, ¬ MatchesAt p data start := by
  constructor
  · intro none p m start here
    obtain ⟨e, me, rfl⟩ := exists_entry m
    obtain ⟨offset, index⟩ := indexed _ m
    obtain ⟨hit, -, found⟩ := (indexes_ofList patterns).found me (accepted _ m) index here
    rw [found] at none
    cases none
  · intro clear
    by_contra some
    obtain ⟨hit, found⟩ := Option.ne_none_iff_exists'.mp some
    obtain ⟨m, here⟩ := matchesAt_of_find? accepted found
    exact clear _ m _ here

/-- Where an indexed pattern matches, the collection gives a match of an indexed pattern; and no
indexed pattern has a match whose literal comes before the literal of that one. So what is given
begins at the smallest offset of all matches of those patterns that do not have their literal
further from their start. -/
theorem the_first_literal_decides {patterns : List Pattern} (accepted : ∀ p ∈ patterns, p.Accepted)
    {data : List UInt8}
    (matching : ∃ p ∈ patterns, ∃ offset start, Indexed p offset ∧ MatchesAt p data start) :
    ∃ hit offset, (ofList patterns).find? data = some hit ∧ hit.entry.pattern ∈ patterns ∧
      Indexed hit.entry.pattern offset ∧ MatchesAt hit.entry.pattern data hit.found.offset ∧
      ∀ p ∈ patterns, ∀ offset' start, Indexed p offset' → MatchesAt p data start →
        hit.found.offset + offset ≤ start + offset' ∧
          (offset' ≤ offset → hit.found.offset ≤ start) := by
  have index := indexes_ofList patterns
  have all : ∀ e ∈ patterns.mapIdx Entry.mk, e.pattern.Accepted :=
    fun e m => accepted _ (pattern_mem m)
  obtain ⟨p, m, offset, start, indexed, here⟩ := matching
  obtain ⟨e, me, rfl⟩ := exists_entry m
  obtain ⟨hit, walked, search⟩ := index.found me (all e me) indexed here
  obtain ⟨ahead, first, _, answer, earlier⟩ := walk_first walked
  rw [Nat.zero_add] at answer
  obtain ⟨g, mg, around⟩ := askGroups_eq_some answer
  obtain ⟨mh, reached, found, there, -⟩ := groupMatchAround_eq_some around
  obtain ⟨given, key⟩ := (index.held _ _ _).mp ⟨g, mg, rfl, mh⟩
  have place := offset_of_groupMatchAround around
  refine ⟨hit, g.offset, search, pattern_mem given, ⟨first, key⟩, ⟨by rw [there]; rfl, reached⟩,
    fun p m offset' start' indexed' here' => ?_⟩
  obtain ⟨e', me', rfl⟩ := exists_entry m
  obtain ⟨b', byte', asked'⟩ := index.asked me' (all e' me') indexed' here'
  have behind : ahead ≤ start' + offset' := by
    by_contra before
    have none := earlier _ (Nat.not_le.mp before) b' byte'
    rw [Nat.zero_add] at none
    rw [none] at asked'
    cases asked'
  exact ⟨by omega, fun _ => by omega⟩

/-- A literal behind two bytes of any value. -/
def distant : Pattern := .absolute [.any, .any, .literal 0x22] false

/-- A literal. -/
def close : Pattern := .absolute [.literal 0x11] false

theorem accepted_distant_close : ∀ p ∈ [distant, close], p.Accepted := by
  simp only [List.forall_mem_cons]
  exact ⟨rfl, rfl, by simp⟩

/-- Of two patterns the one whose literal comes first is found. -/
theorem the_close_literal_decides :
    MatchesAt close [0, 0x11, 0, 0, 0x22] 1 ∧
      ∃ hit offset, (ofList [distant, close]).find? [0, 0x11, 0, 0, 0x22] = some hit ∧
        Indexed hit.entry.pattern offset ∧
        ∀ p ∈ [distant, close], ∀ offset' start, Indexed p offset' →
          MatchesAt p [0, 0x11, 0, 0, 0x22] start → offset' ≤ offset → hit.found.offset ≤ start := by
  have here : MatchesAt close [0, 0x11, 0, 0, 0x22] 1 := ⟨by decide +kernel, by decide⟩
  obtain ⟨hit, offset, found, _, indexed, _, first⟩ := the_first_literal_decides
    accepted_distant_close ⟨close, by simp, 0, 1, ⟨0x11, by decide⟩, here⟩
  exact ⟨here, hit, offset, found, indexed,
    fun p m offset' start i h => (first p m offset' start i h).2⟩

/-- The match that begins first is not found, for its literal comes last. -/
theorem a_match_with_its_literal_behind_is_passed_over :
    (∀ p ∈ [distant, close], p.Accepted) ∧ Indexed distant 2 ∧ MatchesAt distant [0, 0x11, 0x22] 0 ∧
      ((ofList [distant, close]).find? [0, 0x11, 0x22]).map (fun hit => hit.found.offset) = some 1 :=
  ⟨accepted_distant_close, ⟨0x22, by decide⟩, ⟨by decide +kernel, fun _ => rfl⟩, by decide +kernel⟩

end Detouring.PatternCollection
