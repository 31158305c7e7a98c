-- When one pattern cannot be taken for another. Items without gaps between them take a byte each,
-- so patterns that ask for different bits of one byte never match the same data. A pattern that a
-- collection can tell like this from all the others is the one that is found.
import Detouring.Proofs.Pattern.Precedence

namespace Detouring

/-! ## Bits of one byte -/

namespace PatternItem

variable {a b item : PatternItem} {byte : UInt8}

/-- The bits of a byte that an item asks about. -/
def mask : PatternItem → UInt8
  | literal _ => 0xff
  | masked mask _ => mask
  | _ => 0

/-- What these bits are asked to be. -/
def value : PatternItem → UInt8
  | literal value | masked _ value => value
  | _ => 0

theorem masked_of_accepts (h : item.accepts byte = true) :
    byte &&& item.mask = item.value &&& item.mask := by
  cases item with
  | literal value =>
    obtain rfl : value = byte := by simpa [accepts] using h
    rfl
  | masked mask value => exact accepts_masked.mp h
  | any | address => simp [mask]
  | anyRepeating => cases h

/-- Some bit is asked to be set by one item and not by the other. -/
def Excludes (a b : PatternItem) : Prop :=
  a.value &&& a.mask &&& b.mask ≠ b.value &&& b.mask &&& a.mask

instance (a b : PatternItem) : Decidable (a.Excludes b) :=
  inferInstanceAs (Decidable (_ ≠ _))

theorem Excludes.no_byte (h : a.Excludes b) (first : a.accepts byte = true)
    (second : b.accepts byte = true) : False := by
  refine h ?_
  calc a.value &&& a.mask &&& b.mask
      = byte &&& a.mask &&& b.mask := by rw [masked_of_accepts first]
    _ = byte &&& b.mask &&& a.mask := by
      rw [UInt8.and_assoc, UInt8.and_comm a.mask, UInt8.and_assoc]
    _ = b.value &&& b.mask &&& a.mask := by rw [masked_of_accepts second]

/-- At some place the items of one list exclude those of the other. -/
def Clash (l l' : List PatternItem) : Prop := ∃ pair ∈ l.zip l', pair.1.Excludes pair.2

instance (l l' : List PatternItem) : Decidable (Clash l l') :=
  inferInstanceAs (Decidable (∃ pair ∈ l.zip l', pair.1.Excludes pair.2))

/-- Each item takes one byte. -/
abbrev Takes (l : List PatternItem) (bytes : List UInt8) : Prop :=
  List.Forall₂ (fun item b => item.accepts b = true) l bytes

/-- Lists of items that clash take no bytes of the same data. -/
theorem Takes.not_clash {l l' : List PatternItem} {bytes bytes' data : List UInt8}
    (h : Takes l bytes) (h' : Takes l' bytes') (begins : bytes <+: data)
    (begins' : bytes' <+: data) : ¬ Clash l l' := by
  induction h generalizing l' bytes' data with
  | nil => simp [Clash]
  | @cons item byte l bytes first rest ih =>
    cases h' with
    | nil => simp [Clash]
    | @cons item' byte' l' bytes' first' rest' =>
      obtain ⟨more, rfl⟩ := begins
      rw [List.cons_append, List.cons_prefix_cons] at begins'
      obtain ⟨rfl, begins'⟩ := begins'
      rintro ⟨pair, among, excludes⟩
      rw [List.zip_cons_cons, List.mem_cons] at among
      rcases among with rfl | among
      · exact excludes.no_byte first first'
      · exact ih rest' (List.prefix_append bytes more) begins' ⟨pair, among, excludes⟩

/-! ## Items without gaps -/

/-- No item takes more or fewer bytes than one. -/
def Gapless (items : List PatternItem) : Prop := .anyRepeating ∉ items

instance (items : List PatternItem) : Decidable (Gapless items) :=
  inferInstanceAs (Decidable (.anyRepeating ∉ items))

variable {items : List PatternItem}

theorem Gapless.trimmed (h : Gapless items) : trimmed items = items := by
  obtain ⟨lead, trail, whole, leading, trailing⟩ := trimmed_between items
  have none (l : List PatternItem) (all : ∀ i ∈ l, i = .anyRepeating)
      (part : ∀ i ∈ l, i ∈ items) : l = [] :=
    List.eq_nil_iff_forall_not_mem.mpr fun i m => h (all i m ▸ part i m)
  rw [none lead leading fun i m => by rw [whole]; simp [m],
    none trail trailing fun i m => by rw [whole]; simp [m]] at whole
  simpa using whole.symm

theorem Gapless.guided (h : Gapless items) : Guided items := by
  induction items with
  | nil => trivial
  | cons item rest ih =>
    obtain ⟨fixed, h⟩ := not_or.mp (List.mem_cons.not.mp h)
    exact ⟨fun repeating => absurd repeating.symm fixed, ih h⟩

end PatternItem

open PatternItem (Clash Gapless Takes)

namespace Splits

variable {items : List PatternItem} {bytes bytes' caught caught' data : List UInt8}

theorem takes (h : Splits items bytes caught) (gapless : Gapless items) : Takes items bytes := by
  induction items generalizing bytes caught with
  | nil =>
    cases h
    exact .nil
  | cons item rest ih =>
    obtain ⟨fixed, gapless⟩ := not_or.mp (List.mem_cons.not.mp gapless)
    obtain ⟨b, _, _, rfl, accepts, h, -⟩ := (cons_iff (Ne.symm fixed)).mp h
    exact .cons accepts (ih h gapless)

/-- Items without gaps have only one way to take the first bytes of some data. -/
theorem unique (h : Splits items bytes caught) (h' : Splits items bytes' caught')
    (gapless : Gapless items) (begins : bytes <+: data) (begins' : bytes' <+: data) :
    bytes = bytes' ∧ caught = caught' := by
  induction items generalizing bytes bytes' caught caught' data with
  | nil =>
    cases h
    cases h'
    exact ⟨rfl, rfl⟩
  | cons item rest ih =>
    obtain ⟨fixed, gapless⟩ := not_or.mp (List.mem_cons.not.mp gapless)
    obtain ⟨b, bytes, caught, rfl, -, tail, rfl⟩ := (cons_iff (Ne.symm fixed)).mp h
    obtain ⟨b', bytes', caught', rfl, -, tail', rfl⟩ := (cons_iff (Ne.symm fixed)).mp h'
    obtain ⟨more, rfl⟩ := begins
    rw [List.cons_append, List.cons_prefix_cons] at begins'
    obtain ⟨rfl, begins'⟩ := begins'
    obtain ⟨rfl, rfl⟩ := ih tail tail' gapless (List.prefix_append bytes more) begins'
    exact ⟨rfl, rfl⟩

end Splits

namespace Pattern.Accepted

variable {p : Pattern} {bytes caught data : List UInt8} {found : Match}

/-- A pattern without gaps matches wherever its items take bytes, and catches what they catch. -/
theorem matchAt?_of_splits (h : p.Accepted) (gapless : Gapless p.items)
    (split : Splits p.items bytes caught) (rest : List UInt8) :
    p.matchAt? (bytes ++ rest) = some ⟨0, bytes.length, capturedValue caught⟩ := by
  obtain ⟨trail, -, alike⟩ := h.alike
  rw [gapless.trimmed] at alike
  have guided := (alike.guided.mpr gapless.guided).of_append
  obtain ⟨b, b', _, _, rfl, -, taken, -⟩ := Splits.append_iff.mp ((alike.splits _ _).mpr split)
  have some : (p.matchAt? (b ++ b' ++ rest)).isSome := by
    rw [h.matchAt?_eq, Option.isSome_map]
    exact outcome_isSome h.uniform guided taken ((List.prefix_append b b').trans
      (List.prefix_append ..))
  obtain ⟨⟨offset, length, captured⟩, found⟩ := Option.isSome_iff_exists.mp some
  obtain ⟨fits, -, caught', split', value⟩ := h.splits_of_matchAt? found
  obtain rfl : offset = 0 := h.offset_of_matchAt? found
  rw [gapless.trimmed] at split'
  obtain ⟨same, rfl⟩ := split.unique split' gapless (List.prefix_append ..) (List.take_prefix ..)
  have size := congrArg List.length same
  rw [List.length_take_of_le fits] at size
  obtain rfl : captured = capturedValue caught := value
  rw [found, size]

/-- A pattern without gaps that matches takes a byte for each of its items. -/
theorem takes_of_matchAt? (h : p.Accepted) (gapless : Gapless p.items)
    (some : (p.matchAt? data).isSome) : ∃ bytes, bytes <+: data ∧ Takes p.items bytes := by
  obtain ⟨found, there⟩ := Option.isSome_iff_exists.mp some
  obtain ⟨-, -, caught, split, -⟩ := h.splits_of_matchAt? there
  rw [gapless.trimmed] at split
  exact ⟨_, List.take_prefix .., split.takes gapless⟩

end Pattern.Accepted

/-! ## What is found in a collection -/

namespace PatternCollection

variable {patterns : List Pattern} {p : Pattern} {i offset : Nat} {data : List UInt8}
  {found : Match}

/-- A pattern that matches at the start is found if none of the others matches as early as it has
its literal, and it matches itself nowhere else so early. -/
theorem find?_of_alone (accepted : ∀ p ∈ patterns, p.Accepted) (there : patterns[i]? = some p)
    (indexed : Indexed p offset) (here : p.matchAt? data = some found)
    (alone : ∀ j q start, patterns[j]? = some q → MatchesAt q data start → start ≤ offset →
      j = i ∧ start = 0) :
    (ofList patterns).find? data = some ⟨⟨i, p⟩, found⟩ := by
  have index := indexes_ofList patterns
  have given : ⟨i, p⟩ ∈ patterns.mapIdx Entry.mk := mem_entries.mpr there
  have own := accepted _ (pattern_mem given)
  have starts : MatchesAt p data 0 := ⟨by rw [List.drop_zero, here]; rfl, fun _ => rfl⟩
  obtain ⟨hit, walked, search⟩ := index.found given own indexed starts
  obtain ⟨b, byte, asked⟩ := index.asked given own indexed starts
  obtain ⟨ahead, first, -, answer, earlier⟩ := walk_first walked
  rw [Nat.zero_add] at answer
  obtain ⟨g, mg, around⟩ := askGroups_eq_some answer
  obtain ⟨mh, reached, m, matches', whole⟩ := groupMatchAround_eq_some around
  obtain ⟨member, -⟩ := (index.held _ _ _).mp ⟨g, mg, rfl, mh⟩
  have place := offset_of_groupMatchAround around
  -- the walk stops no later than at the literal of the pattern
  have soon : ahead ≤ offset := by
    by_contra late
    have none := earlier offset (Nat.not_le.mp late) b (by rwa [Nat.zero_add] at byte)
    rw [Nat.zero_add] at none asked
    rw [none] at asked
    cases asked
  obtain ⟨same, zero⟩ := alone hit.entry.index hit.entry.pattern hit.found.offset
    (mem_entries.mp member) ⟨by rw [matches']; rfl, reached⟩ (by omega)
  obtain ⟨⟨index', q⟩, found'⟩ := hit
  obtain rfl : index' = i := same
  obtain rfl : p = q := Option.some.inj (there.symm.trans (mem_entries.mp member))
  dsimp only at zero whole matches'
  rw [zero, List.drop_zero, here] at matches'
  obtain rfl := Option.some.inj matches'
  rw [zero, ← own.offset_of_matchAt? here] at whole
  obtain rfl : found' = found := whole
  exact search

end PatternCollection

end Detouring
