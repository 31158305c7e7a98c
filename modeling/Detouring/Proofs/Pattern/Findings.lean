-- What a match says of the data. The bytes that it covers split among the items of the pattern,
-- the captured value is that of the bytes on the address items, and the same pattern matches in
-- the same way when the search begins at the place that was found.
import Detouring.Proofs.Pattern.Attempts

namespace Detouring.Pattern

/-! ## Accepted patterns -/

/-- A pattern that is what its own items were accepted as. Whatever makes patterns makes these. -/
def Accepted (p : Pattern) : Prop := ofItems p.rule p.anchored p.items = .ok p

theorem accepted_iff {p : Pattern} : p.Accepted ↔
    p.segments = Segment.ofItems p.items ∧ p.segments ≠ [] ∧ 0 < p.minLength ∧
      p.addressBytes ≤ addressCapacity := by
  have length (h : p.minLength ≠ 0) : p.items ≠ [] := by
    intro none
    simp [minLength, none] at h
  constructor
  · intro h
    simp only [Accepted, ofItems] at h
    split_ifs at h with empty many vague
    obtain ⟨segments, some⟩ := not_or.mp vague
    have made : Segment.ofItems p.items = p.segments := congrArg Pattern.segments (Except.ok.inj h)
    exact ⟨made.symm, made ▸ segments, Nat.pos_of_ne_zero some, Nat.not_lt.mp many⟩
  · rintro ⟨made, segments, some, few⟩
    have same : (⟨p.items, Segment.ofItems p.items, p.rule, p.anchored⟩ : Pattern) = p := by
      rw [← made]
    simp only [Accepted, ofItems, same]
    rw [if_neg (length some.ne'), if_neg (Nat.not_lt.mpr few), ← made,
      if_neg (not_or.mpr ⟨segments, some.ne'⟩)]

theorem accepted_of_ofItems {rule : AddressRule} {anchored : Bool} {items : List PatternItem}
    {p : Pattern} (h : ofItems rule anchored items = .ok p) : p.Accepted ∧ p.items = items := by
  have whole := h
  simp only [ofItems] at h
  split_ifs at h
  cases h
  exact ⟨whole, rfl⟩

theorem accepted_of_ofCodes {rule : AddressRule} {anchored : Bool} {codes : List UInt16}
    {p : Pattern} (h : ofCodes rule anchored codes = .ok p) :
    p.Accepted ∧ codes.mapM PatternItem.ofCode = .ok p.items := by
  rw [ofCodes] at h
  rcases read : codes.mapM PatternItem.ofCode with e | items
  · rw [read] at h
    cases h
  · rw [read] at h
    obtain ⟨accepted, rfl⟩ := accepted_of_ofItems h
    exact ⟨accepted, rfl⟩

theorem accepted_of_ofMask {rule : AddressRule} {anchored : Bool} {mask values : List UInt8}
    {p : Pattern} (h : ofMask rule anchored mask values = .ok p) :
    p.Accepted ∧ (mask.zip values).mapM (fun (m, v) => PatternItem.ofMask m v) = .ok p.items := by
  rw [ofMask] at h
  split_ifs at h
  · cases h
  · rcases read : (mask.zip values).mapM fun (m, v) => PatternItem.ofMask m v with e | items
    · rw [read] at h
      cases h
    · rw [read] at h
      obtain ⟨accepted, rfl⟩ := accepted_of_ofItems h
      exact ⟨accepted, read⟩

namespace Accepted

variable {p : Pattern}

theorem minLength_pos (h : p.Accepted) : 0 < p.minLength := (accepted_iff.mp h).2.2.1

theorem addressBytes_le (h : p.Accepted) : p.addressBytes ≤ addressCapacity :=
  (accepted_iff.mp h).2.2.2

theorem anchor (h : p.Accepted) : p.anchor.Accepted := by
  rw [accepted_iff] at h ⊢
  exact h

theorem uniform (h : p.Accepted) : Segment.AllUniform p.segments := by
  rw [(accepted_iff.mp h).1]
  exact (Segment.layOut_ofItems p.items).1

/-- The segments ask for what the trimmed items ask for, up to any-repeating items at the end. -/
theorem alike (h : p.Accepted) : ∃ trail : List PatternItem, (∀ i ∈ trail, i = .anyRepeating) ∧
    Alike (Segment.flatten p.segments ++ trail) (PatternItem.trimmed p.items) := by
  rw [(accepted_iff.mp h).1]
  exact (Segment.layOut_ofItems p.items).2

theorem catching (h : p.Accepted) : catching p.segments = p.addressBytes := by
  obtain ⟨trail, trailing, alike⟩ := h.alike
  have none : trail.countP (·.sort = .address) = 0 :=
    List.countP_eq_zero.mpr fun i m => by simp [trailing i m, PatternItem.sort]
  rw [addressBytes, ← PatternItem.countP_trimmed, ← alike.countP_address, List.countP_append, none]
  rfl

end Accepted

/-! ## What the segments take -/

/-- A place that was found lies in the data, and the test succeeds there. -/
theorem firstPlace_eq_some {test : List UInt8 → Option (Nat × List UInt8)}
    {segments : List Segment} {data caught : List UInt8} {offset length : Nat}
    (h : firstPlace test segments data = some ((offset, length), caught)) :
    offset ≤ data.length ∧ test (data.drop offset) = some (length, caught) := by
  simp only [firstPlace] at h
  split_ifs at h with short
  obtain ⟨place, m, tried⟩ := List.exists_of_findSome?_eq_some h
  rw [tryAt] at tried
  split_ifs at tried
  obtain ⟨⟨_, _⟩, tested, e⟩ := Option.map_eq_some_iff.mp tried
  cases e
  have within := List.mem_range'_1.mp m
  exact ⟨by omega, tested⟩

/-- What the segments take splits among their items, and what they catch is what falls on the
address items. -/
theorem outcome_sound {segments : List Segment} (uniform : Segment.AllUniform segments)
    {data caught : List UInt8} {length : Nat} (h : outcome segments data = some (length, caught)) :
    length ≤ data.length ∧ Splits (Segment.flatten segments) (data.take length) caught := by
  induction segments generalizing data length caught with
  | nil =>
    cases h
    exact ⟨Nat.zero_le _, .nil⟩
  | cons s rest ih =>
    have us := uniform.head
    have ur := uniform.tail
    by_cases repeating : s.sort = .anyRepeating
    · rw [outcome_repeating rest repeating] at h
      obtain ⟨⟨⟨offset, taken⟩, c⟩, found, e⟩ := Option.map_eq_some_iff.mp h
      cases e
      obtain ⟨within, tested⟩ := firstPlace_eq_some found
      obtain ⟨fits, split⟩ := ih ur tested
      rw [List.length_drop] at fits
      rw [List.take_add, Segment.flatten_cons]
      refine ⟨by omega, ?_⟩
      have run : Splits s.items (data.take offset) [] :=
        (Splits.repeating_iff us.some (us.repeating repeating)).mpr rfl
      exact run.append split
    · rcases Nat.lt_or_ge data.length s.length with short | fits
      · rw [outcome_short rest repeating short] at h
        cases h
      · rw [outcome_fixed rest repeating fits] at h
        obtain ⟨accepts, h⟩ := Option.ite_none_right_eq_some.mp h
        obtain ⟨⟨taken, c⟩, found, e⟩ := Option.map_eq_some_iff.mp h
        cases e
        obtain ⟨room, split⟩ := ih ur found
        rw [List.length_drop] at room
        rw [List.take_add, Segment.flatten_cons]
        refine ⟨by omega, ?_⟩
        have own := (us.splits_iff repeating).mpr
          ⟨List.length_take_of_le fits, accepts, rfl⟩
        exact own.append split

/-! ## What is found -/

/-- The number that captured bytes stand for, when the rest of the buffer is zero. -/
def capturedValue (caught : List UInt8) : Nat :=
  ofLeBytes (caught ++ List.replicate (addressCapacity - caught.length) 0)

theorem putAt_emptyBuffer (caught : List UInt8) :
    putAt emptyBuffer 0 caught = caught ++ List.replicate (addressCapacity - caught.length) 0 := by
  simp [putAt, emptyBuffer]

/-- An attempt with a fresh buffer ends well, with what the segments come to. -/
theorem Catches.run_emptyBuffer {α : Type} {act : MatchM (Option α)} {room : Nat}
    {out : Option (α × List UInt8)} (h : Catches act 0 room out) (few : room ≤ addressCapacity) :
    ∃ left, act.run emptyBuffer = .ok (out.map Prod.fst, left) ∧
      ∀ a caught, out = some (a, caught) → ofLeBytes left = capturedValue caught := by
  obtain ⟨left, -, run, caught⟩ := h emptyBuffer (by simpa [emptyBuffer] using few)
  refine ⟨_, run, fun a c e => ?_⟩
  rw [caught a c e, putAt_emptyBuffer, capturedValue]

namespace Accepted

variable {p : Pattern} {data caught : List UInt8} {offset length : Nat}

/-- What the segments take splits among the items that the pattern was given. -/
theorem splits (h : p.Accepted) (found : outcome p.segments data = some (length, caught)) :
    length ≤ data.length ∧ Splits (PatternItem.trimmed p.items) (data.take length) caught := by
  obtain ⟨fits, split⟩ := outcome_sound h.uniform found
  obtain ⟨trail, trailing, alike⟩ := h.alike
  refine ⟨fits, (alike.splits _ _).mp ?_⟩
  simpa using split.append (Splits.of_repeating trailing)

/-- A match takes no fewer bytes than the pattern asks for. -/
theorem minLength_le (h : p.Accepted) (found : outcome p.segments data = some (length, caught)) :
    p.minLength ≤ length := by
  obtain ⟨fits, split⟩ := h.splits found
  have least := split.minLength_le
  rwa [PatternItem.sumOf_trimmed, List.length_take_of_le fits] at least

/-- Data that is too short for the pattern is too short for its segments. -/
theorem outcome_short (h : p.Accepted) (short : data.length < p.minLength) :
    outcome p.segments data = none := by
  rcases found : outcome p.segments data with _ | ⟨length, caught⟩
  · rfl
  · have := h.minLength_le found
    have := (h.splits found).1
    omega

/-- An attempt of all segments catches no more than the pattern's address bytes. -/
theorem attempt_catches (h : p.Accepted) (data : List UInt8) :
    Catches (matchFrom p.segments data 0 0) 0 p.addressBytes (outcome p.segments data) := by
  simpa [h.catching] using matchFrom_catches h.uniform (Nat.zero_le data.length) 0

theorem attemptAt_eq (h : p.Accepted) (data : List UInt8) :
    p.attemptAt data = .ok ((outcome p.segments data).map fun (length, caught) =>
      { offset := 0, length, captured := capturedValue caught }) := by
  rw [attemptAt]
  by_cases short : data.length < p.minLength
  · rw [if_pos short, h.outcome_short short]
    rfl
  · obtain ⟨left, run, value⟩ := (h.attempt_catches data).run_emptyBuffer h.addressBytes_le
    rw [if_neg short, run]
    rcases taken : outcome p.segments data with _ | ⟨length, caught⟩
    · rfl
    · simp only [Option.map_some, ← value _ _ taken]
      rfl

/-- A place that was found leaves room for what the pattern asks for. -/
theorem firstPlace_room (h : p.Accepted)
    (found : firstPlace (outcome p.segments) p.segments data = some ((offset, length), caught)) :
    offset + length ≤ data.length ∧ p.minLength ≤ length := by
  obtain ⟨within, tested⟩ := firstPlace_eq_some found
  have fits := (h.splits tested).1
  rw [List.length_drop] at fits
  exact ⟨by omega, h.minLength_le tested⟩

theorem attemptFind_eq (h : p.Accepted) (floating : p.anchored = false) (data : List UInt8) :
    p.attemptFind data = .ok ((firstPlace (outcome p.segments) p.segments data).map
      fun ((offset, length), caught) =>
        { offset, length, captured := capturedValue caught }) := by
  rw [attemptFind, floating]
  by_cases short : data.length < p.minLength
  · rcases found : firstPlace (outcome p.segments) p.segments data with _ | ⟨⟨_, _⟩, _⟩
    · simp only [if_pos short]
      rfl
    · have := h.firstPlace_room found
      omega
  · obtain ⟨left, run, value⟩ := (search_catches h.attempt_catches p.segments data).run_emptyBuffer
      h.addressBytes_le
    simp only [if_neg short, run]
    rcases taken : firstPlace (outcome p.segments) p.segments data with
      _ | ⟨⟨offset, length⟩, caught⟩
    · rfl
    · simp only [Option.map_some, ← value _ _ taken]
      rfl

/-- What is found at the start of the data is what the segments take there. -/
theorem matchAt?_eq (h : p.Accepted) (data : List UInt8) :
    p.matchAt? data = (outcome p.segments data).map fun (length, caught) =>
      { offset := 0, length, captured := capturedValue caught } := by
  rw [matchAt?, h.attemptAt_eq]
  rfl

theorem find?_of_anchored (anchored : p.anchored = true) (data : List UInt8) :
    p.find? data = p.matchAt? data := by
  rw [find?, attemptFind, anchored]
  rfl

theorem find?_of_floating (h : p.Accepted) (floating : p.anchored = false) (data : List UInt8) :
    p.find? data = (firstPlace (outcome p.segments) p.segments data).map
      fun ((offset, length), caught) => { offset, length, captured := capturedValue caught } := by
  rw [find?, h.attemptFind_eq floating]
  rfl

theorem offset_of_matchAt? (h : p.Accepted) {m : Match} (found : p.matchAt? data = some m) :
    m.offset = 0 := by
  rw [h.matchAt?_eq] at found
  obtain ⟨_, _, rfl⟩ := Option.map_eq_some_iff.mp found
  rfl

/-- A match at the start of the data is one of the data from its place on. -/
theorem matchAt?_of_matchAt? (h : p.Accepted) {m : Match} (found : p.matchAt? data = some m) :
    p.matchAt? (data.drop m.offset) = some { m with offset := 0 } ∧ m.offset = 0 := by
  have start := h.offset_of_matchAt? found
  obtain ⟨offset, length, captured⟩ := m
  obtain rfl : offset = 0 := start
  exact ⟨found, rfl⟩

/-- Where a match is found, the same pattern matches at the start of the data from there on. -/
theorem matchAt?_of_find? (h : p.Accepted) {m : Match} (found : p.find? data = some m) :
    p.matchAt? (data.drop m.offset) = some { m with offset := 0 } ∧
      (p.anchored = true → m.offset = 0) := by
  rcases anchored : p.anchored with _ | _
  · rw [h.find?_of_floating anchored] at found
    obtain ⟨⟨⟨offset, length⟩, caught⟩, place, rfl⟩ := Option.map_eq_some_iff.mp found
    refine ⟨?_, by simp⟩
    rw [h.matchAt?_eq, (firstPlace_eq_some place).2]
    rfl
  · rw [find?_of_anchored anchored] at found
    obtain ⟨there, start⟩ := h.matchAt?_of_matchAt? found
    exact ⟨there, fun _ => start⟩

/-- What a match at the start of some data says. -/
theorem splits_of_matchAt? (h : p.Accepted) {m : Match} (found : p.matchAt? data = some m) :
    m.length ≤ data.length ∧ p.minLength ≤ m.length ∧ ∃ caught,
      Splits (PatternItem.trimmed p.items) (data.take m.length) caught ∧
        m.captured = capturedValue caught := by
  rw [h.matchAt?_eq] at found
  obtain ⟨⟨length, caught⟩, taken, rfl⟩ := Option.map_eq_some_iff.mp found
  obtain ⟨fits, split⟩ := h.splits taken
  exact ⟨fits, h.minLength_le taken, caught, split, rfl⟩

end Accepted

/-! ## The laws of a match -/

variable {p : Pattern} {data : List UInt8} {m : Match}

/-- A match, at the start or found further on, lies in the data and covers at least the fewest
bytes of its pattern; the bytes that it covers split among the trimmed items; and the captured
value is that of the bytes on the address items, with zeros behind them. -/
theorem a_match_splits_its_bytes (h : p.Accepted)
    (found : p.matchAt? data = some m ∨ p.find? data = some m) :
    m.offset + m.length ≤ data.length ∧ p.minLength ≤ m.length ∧
      ∃ caught, Splits (PatternItem.trimmed p.items) ((data.drop m.offset).take m.length) caught ∧
        m.captured =
          ofLeBytes (caught ++ List.replicate (addressCapacity - caught.length) 0) := by
  have there : p.matchAt? (data.drop m.offset) = some { m with offset := 0 } := by
    rcases found with found | found
    · exact (h.matchAt?_of_matchAt? found).1
    · exact (h.matchAt?_of_find? found).1
  obtain ⟨fits, least, split⟩ := h.splits_of_matchAt? there
  have some := h.minLength_pos
  simp only [List.length_drop] at fits least
  exact ⟨by omega, least, split⟩

/-- The pattern of some items that captures an absolute address. -/
def absolute (items : List PatternItem) (anchored : Bool) : Pattern :=
  { items, segments := Segment.ofItems items, rule := ⟨.abs64, 0⟩, anchored }

/-- A pattern with a gap, two address bytes and a literal behind them. -/
def retrying : Pattern :=
  absolute [.literal 0xaa, .anyRepeating, .literal 0xbb, .address, .address, .literal 0xcc] false

/-- The attempt at the first `bb` captures two bytes and fails; they show in nothing. -/
theorem find?_retrying :
    retrying.find? [0, 0xaa, 0xbb, 0, 0xbb, 1, 2, 0xcc, 0] = some ⟨1, 7, 0x201⟩ := by
  decide +kernel

theorem a_later_attempt_splits_its_bytes :
    retrying.find? [0, 0xaa, 0xbb, 0, 0xbb, 1, 2, 0xcc, 0] = some ⟨1, 7, 0x201⟩ ∧
      ∃ caught, Splits (PatternItem.trimmed retrying.items) [0xaa, 0xbb, 0, 0xbb, 1, 2, 0xcc]
          caught ∧
        0x201 = ofLeBytes (caught ++ List.replicate (addressCapacity - caught.length) 0) :=
  ⟨find?_retrying, (a_match_splits_its_bytes (p := retrying) rfl (Or.inr find?_retrying)).2.2⟩

/-- A match that is found is found again, at once and with the same length and captured value, by
the anchored pattern in the data from that place on. -/
theorem a_found_match_is_found_again (h : p.Accepted) (found : p.find? data = some m) :
    p.anchor.find? (data.drop m.offset) =
      some { offset := 0, length := m.length, captured := m.captured } := by
  rw [Accepted.find?_of_anchored rfl]
  exact (h.matchAt?_of_find? found).1

theorem a_later_attempt_is_made_again :
    retrying.find? [0, 0xaa, 0xbb, 0, 0xbb, 1, 2, 0xcc, 0] = some ⟨1, 7, 0x201⟩ ∧
      retrying.anchor.find? [0xaa, 0xbb, 0, 0xbb, 1, 2, 0xcc, 0] = some ⟨0, 7, 0x201⟩ :=
  ⟨find?_retrying, a_found_match_is_found_again (p := retrying) rfl find?_retrying⟩

end Detouring.Pattern
