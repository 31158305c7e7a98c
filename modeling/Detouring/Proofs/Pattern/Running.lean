-- How the matcher runs. A run is told step by step, as the loops and the calls go, and each step
-- that takes from the data or writes captured bytes asks for the room that it needs. There is a
-- run for every accepted pattern and all data; it comes to what the matcher answers, and the
-- number of attempts in it is bounded by the data and the gaps of the pattern.
import Detouring.Proofs.Pattern.Findings
import Mathlib.Algebra.Group.Nat.Defs

namespace Detouring

namespace Segment

/-! ## Segments as slices -/

/-- Each segment is a slice of the items, and the newest reaches to their end. -/
structure Slices (segments : List Segment) (items : List PatternItem) : Prop where
  newest : ∀ s ∈ segments.head?, s.items <:+ items
  all : ∀ s ∈ segments, s.items <:+: items

theorem Slices.addItem {segments : List Segment} {items : List PatternItem}
    (h : Slices segments items) (item : PatternItem) :
    Slices (addItem segments item) (items ++ [item]) := by
  have single : [item] <:+ items ++ [item] := List.suffix_append items [item]
  have earlier {s : Segment} (m : s ∈ segments) : s.items <:+: items ++ [item] :=
    (h.all s m).trans (List.prefix_append items [item]).isInfix
  fun_cases Segment.addItem segments item
  case case1 => exact ⟨by simp, by simp⟩
  case case2 => exact ⟨by simp, by simpa using single.isInfix⟩
  case case3 last rest same =>
    have longer : last.items ++ [item] <:+ items ++ [item] := by
      obtain ⟨front, whole⟩ := h.newest last rfl
      exact ⟨front, by rw [← whole, List.append_assoc]⟩
    refine ⟨by simpa using longer, fun s m => ?_⟩
    rcases List.mem_cons.mp m with rfl | m
    · exact longer.isInfix
    · exact earlier (List.mem_cons_of_mem _ m)
  case case4 last rest other =>
    refine ⟨by simp, fun s m => ?_⟩
    rcases List.mem_cons.mp m with rfl | m
    · exact single.isInfix
    · exact earlier (mem_settle.mp m)

/-- The segments of a list of items are slices of it. -/
theorem infix_of_mem_ofItems {items : List PatternItem} {s : Segment} (m : s ∈ ofItems items) :
    s.items <:+: items := by
  have slices : Slices (items.foldl Segment.addItem []) items :=
    foldl_addItem ⟨by simp, by simp⟩ (fun _ _ item h => h.addItem item) items
  exact slices.all s (mem_settle.mp (dropTrailing_subset _ (List.mem_reverse.mp m)))

/-- How many segments are any-repeating. -/
def gaps (segments : List Segment) : Nat := segments.countP (·.sort = .anyRepeating)

end Segment

namespace Pattern

open Segment

/-! ## Runs

The rules follow the loops. What a step needs to subtract, to take bytes or to write them is in its
rule, as `within`, `enough`, `fits` or `room`; a step that lacks it has no rule, and a matcher that
came to such a step would have no run. -/

/-- Where the literal first stands in the haystack. -/
def indexOf? (literal : List UInt8) : (haystack : List UInt8) → Option Nat
  | [] => if literal.isPrefixOf [] then some 0 else none
  | b :: rest =>
    if literal.isPrefixOf (b :: rest) then some 0 else (indexOf? literal rest).map (· + 1)

mutual

/-- The segments are matched in turn, with `pos` bytes of the data taken and `captured` bytes in
the buffer. The run makes a number of attempts further on, comes to a length or to none, and
leaves the buffer behind. -/
inductive Matches : (segments : List Segment) → (data : List UInt8) → (pos captured : Nat) →
    (buffer : CaptureBuffer) → (attempts : Nat) → (length? : Option Nat) →
    (left : CaptureBuffer) → Prop where
  | done {data pos captured buffer} : Matches [] data pos captured buffer 0 (some pos) buffer
  | short {s rest data pos captured buffer} (fixed : s.sort ≠ .anyRepeating)
      (within : pos ≤ data.length) (short : data.length - pos < s.length) :
      Matches (s :: rest) data pos captured buffer 0 none buffer
  | any {s rest data pos captured buffer attempts length? left} (sort : s.sort = .any)
      (within : pos ≤ data.length) (enough : s.length ≤ data.length - pos)
      (next : Matches rest data (pos + s.length) captured buffer attempts length? left) :
      Matches (s :: rest) data pos captured buffer attempts length? left
  | equal {s rest data pos captured buffer attempts length? left}
      (sort : s.sort = .literal ∨ s.sort = .masked) (fits : pos + s.length ≤ data.length)
      (accepts : itemsAccept s.items ((data.drop pos).take s.length) = true)
      (next : Matches rest data (pos + s.length) captured buffer attempts length? left) :
      Matches (s :: rest) data pos captured buffer attempts length? left
  | other {s rest data pos captured buffer}
      (sort : s.sort = .literal ∨ s.sort = .masked) (fits : pos + s.length ≤ data.length)
      (refuses : itemsAccept s.items ((data.drop pos).take s.length) = false) :
      Matches (s :: rest) data pos captured buffer 0 none buffer
  | address {s rest data pos captured buffer attempts length? left} (sort : s.sort = .address)
      (fits : pos + s.length ≤ data.length) (room : captured + s.length ≤ buffer.length)
      (next : Matches rest data (pos + s.length) (captured + s.length)
        (putAt buffer captured ((data.drop pos).take s.length)) attempts length? left) :
      Matches (s :: rest) data pos captured buffer attempts length? left
  | gap {s rest data pos captured buffer attempts place? left} (sort : s.sort = .anyRepeating)
      (within : pos ≤ data.length)
      (search : Finds rest (data.drop pos) captured buffer attempts place? left) :
      Matches (s :: rest) data pos captured buffer attempts
        (place?.map fun (offset, length) => pos + offset + length) left

/-- A place for the segments is looked for in the data, if their next literal has room in it. -/
inductive Finds : (segments : List Segment) → (data : List UInt8) → (captured : Nat) →
    (buffer : CaptureBuffer) → (attempts : Nat) → (place? : Option (Nat × Nat)) →
    (left : CaptureBuffer) → Prop where
  | short {segments data captured buffer}
      (short : data.length < (nextLiteral segments).2 + (nextLiteral segments).1.length) :
      Finds segments data captured buffer 0 none buffer
  | scan {segments data captured buffer attempts place? left}
      (enough : (nextLiteral segments).2 + (nextLiteral segments).1.length ≤ data.length)
      (scan : Scans segments data captured 0 buffer attempts place? left) :
      Finds segments data captured buffer attempts place? left

/-- The loop over the places of the next literal, from `start` on. After an attempt without a
result it goes on one byte behind that place. -/
inductive Scans : (segments : List Segment) → (data : List UInt8) → (captured start : Nat) →
    (buffer : CaptureBuffer) → (attempts : Nat) → (place? : Option (Nat × Nat)) →
    (left : CaptureBuffer) → Prop where
  | past {segments data captured start buffer}
      (past : data.length < (nextLiteral segments).2 + start) :
      Scans segments data captured start buffer 0 none buffer
  | absent {segments data captured start buffer}
      (within : (nextLiteral segments).2 + start ≤ data.length)
      (absent : indexOf? (nextLiteral segments).1
        (data.drop ((nextLiteral segments).2 + start)) = none) :
      Scans segments data captured start buffer 0 none buffer
  | hit {segments data captured start buffer found attempts length left}
      (within : (nextLiteral segments).2 + start ≤ data.length)
      (stands : indexOf? (nextLiteral segments).1
        (data.drop ((nextLiteral segments).2 + start)) = some found)
      (fits : start + found ≤ data.length)
      (attempt : Matches segments (data.drop (start + found)) 0 captured buffer attempts
        (some length) left) :
      Scans segments data captured start buffer (attempts + 1) (some (start + found, length)) left
  | miss {segments data captured start buffer found attempts between attempts' place? left}
      (within : (nextLiteral segments).2 + start ≤ data.length)
      (stands : indexOf? (nextLiteral segments).1
        (data.drop ((nextLiteral segments).2 + start)) = some found)
      (fits : start + found ≤ data.length)
      (attempt : Matches segments (data.drop (start + found)) 0 captured buffer attempts none
        between)
      (next : Scans segments data captured (start + found + 1) between attempts' place? left) :
      Scans segments data captured start buffer (attempts + 1 + attempts') place? left

end

/-! ## Runs come to what the matcher answers -/

theorem indexOf?_le {literal haystack : List UInt8} {found : Nat}
    (h : indexOf? literal haystack = some found) : found ≤ haystack.length := by
  induction haystack generalizing found with
  | nil =>
    obtain ⟨-, e⟩ := Option.ite_none_right_eq_some.mp h
    cases e
    exact Nat.le_refl _
  | cons b rest ih =>
    rw [indexOf?] at h
    split_ifs at h with begins
    · cases h
      exact Nat.zero_le _
    · obtain ⟨further, there, rfl⟩ := Option.map_eq_some_iff.mp h
      exact Nat.succ_le_succ (ih there)

section

variable {attempt : List UInt8 → MatchM (Option Nat)} {literal data : List UInt8}

/-- Where the literal does not stand, a scan goes on one byte further. -/
theorem scan_step {b : UInt8} {rest : List UInt8} (offset : Nat)
    (other : ¬ literal.isPrefixOf (b :: rest) = true) :
    scan attempt literal data (b :: rest) offset = scan attempt literal data rest (offset + 1) := by
  rw [scan_eq, attemptAtLiteral, if_neg other]
  rfl

theorem scan_absent {haystack : List UInt8} (offset : Nat)
    (absent : indexOf? literal haystack = none) :
    scan attempt literal data haystack offset = pure none := by
  induction haystack generalizing offset with
  | nil =>
    have other : ¬ literal.isPrefixOf [] = true := fun begins => by
      rw [indexOf?, if_pos begins] at absent
      cases absent
    rw [scan_eq, attemptAtLiteral, if_neg other]
    rfl
  | cons b rest ih =>
    rw [indexOf?] at absent
    split_ifs at absent with other
    rw [scan_step offset other]
    exact ih (offset + 1) (Option.map_eq_none_iff.mp absent)

/-- A scan makes its next attempt at the first place of the literal. -/
theorem scan_found {haystack : List UInt8} {offset found : Nat}
    (stands : indexOf? literal haystack = some found) (fits : offset + found ≤ data.length) :
    scan attempt literal data haystack offset =
      attempt (data.drop (offset + found)) >>= fun
        | some length => pure (some (offset + found, length))
        | none =>
          match haystack.drop found with
          | [] => pure none
          | _ :: rest => scan attempt literal data rest (offset + found + 1) := by
  induction haystack generalizing offset found with
  | nil =>
    obtain ⟨begins, e⟩ := Option.ite_none_right_eq_some.mp stands
    cases e
    rw [Nat.add_zero] at fits ⊢
    rw [scan_eq, attemptAtLiteral, if_pos begins, suffix_bind fits]
    rfl
  | cons b rest ih =>
    rw [indexOf?] at stands
    split_ifs at stands with begins
    · cases stands
      rw [Nat.add_zero] at fits ⊢
      rw [scan_eq, attemptAtLiteral, if_pos begins, suffix_bind fits]
      rfl
    · obtain ⟨further, there, rfl⟩ := Option.map_eq_some_iff.mp stands
      rw [scan_step offset begins, ih there (by omega)]
      simp only [List.drop_succ_cons, Nat.add_assoc, Nat.add_comm 1]

end

/-- What an attempt of the segments comes to, whatever is in the buffer. -/
def Attempted (segments : List Segment) (captured : Nat) : Prop :=
  ∀ ⦃d buffer attempts length? left⦄, Matches segments d 0 captured buffer attempts length? left →
    (matchFrom segments d 0 captured).run buffer = .ok (length?, left)

section

variable {segments : List Segment} {data : List UInt8} {captured attempts : Nat}
  {buffer left : CaptureBuffer} {place? : Option (Nat × Nat)}

/-- The loop comes to what a scan of the data from there on comes to. -/
theorem Scans.run_eq (each : Attempted segments captured) {start : Nat}
    (within : (nextLiteral segments).2 + start ≤ data.length)
    (h : Scans segments data captured start buffer attempts place? left) :
    (scan (fun d => matchFrom segments d 0 captured) (nextLiteral segments).1 data
      (data.drop ((nextLiteral segments).2 + start)) start).run buffer = .ok (place?, left) := by
  -- The induction is on the data that is left to the loop.
  induction room : data.length - start using Nat.strong_induction_on
    generalizing start buffer attempts place? left with
  | _ room ih =>
    cases h with
    | past past => omega
    | absent _ absent =>
      rw [scan_absent start absent]
      rfl
    | hit _ stands fits attempt =>
      rw [scan_found stands fits, run_bind (each attempt)]
      rfl
    | miss _ stands fits attempt next =>
      rename_i found _ _ _ _
      rw [scan_found stands fits, run_bind (each attempt), List.drop_drop]
      rcases Nat.lt_or_ge ((nextLiteral segments).2 + start + found) data.length with more | past
      · have further := ih _ (by omega) (by omega) next rfl
        rw [← Nat.add_assoc, ← Nat.add_assoc] at further
        rw [List.drop_eq_getElem_cons more]
        exact further
      · rw [List.drop_eq_nil_of_le past]
        cases next with
        | past => rfl
        | absent => omega
        | hit => omega
        | miss => omega

theorem Finds.run_eq (each : Attempted segments captured)
    (h : Finds segments data captured buffer attempts place? left) :
    (search (fun d => matchFrom segments d 0 captured) segments data).run buffer =
      .ok (place?, left) := by
  rw [search]
  cases h with
  | short short =>
    simp only [if_pos short]
    rfl
  | scan enough scan =>
    have within : (nextLiteral segments).2 ≤ data.length := by omega
    simp only [if_neg (Nat.not_lt.mpr enough), suffix_bind within]
    exact scan.run_eq each within

end

theorem Matches.run_eq {segments : List Segment} (uniform : AllUniform segments)
    {data : List UInt8} {pos captured attempts : Nat} {buffer left : CaptureBuffer}
    {length? : Option Nat}
    (h : Matches segments data pos captured buffer attempts length? left) :
    (matchFrom segments data pos captured).run buffer = .ok (length?, left) := by
  induction segments generalizing data pos captured attempts buffer left length? with
  | nil =>
    cases h
    rfl
  | cons s rest ih =>
    have us := uniform.head
    have behind {data pos captured attempts buffer left length?} :=
      @ih uniform.tail data pos captured attempts buffer left length?
    have compared (own : s.sort = .literal ∨ s.sort = .masked) :
        s.sort ≠ .anyRepeating ∧ s.sort ≠ .address := by
      rcases own with sort | sort <;> simp [sort]
    cases h with
    | short fixed within short =>
      rw [matchFrom_short fixed rest within (by omega)]
      rfl
    | any sort within enough next =>
      rw [matchFrom_fixed us (by simp [sort]) rest (by omega), if_neg (by simp [sort]),
        if_pos (us.accepts (Or.inl sort))]
      exact behind next
    | equal sort fits accepts next =>
      obtain ⟨fixed, plain⟩ := compared sort
      rw [matchFrom_fixed us fixed rest fits, if_neg plain, if_pos accepts]
      exact behind next
    | other sort fits refuses =>
      obtain ⟨fixed, plain⟩ := compared sort
      rw [matchFrom_fixed us fixed rest fits, if_neg plain, if_neg (by simp [refuses])]
      rfl
    | address sort fits room next =>
      have taken : ((data.drop pos).take s.length).length = s.length := by
        simp
        omega
      rw [matchFrom_fixed us (by simp [sort]) rest fits, if_pos sort,
        run_bind (run_capture (by omega))]
      exact behind next
    | gap sort within search =>
      rw [matchFrom_repeating sort rest within, run_bind (search.run_eq fun _ _ _ _ _ => behind)]
      rfl

/-! ## There is a run -/

/-- Whatever the data and the buffer are, an attempt of the segments has a run. -/
def Attemptable (segments : List Segment) (captured size : Nat) : Prop :=
  ∀ (data : List UInt8) (buffer : CaptureBuffer), buffer.length = size →
    ∃ attempts length? left, Matches segments data 0 captured buffer attempts length? left ∧
      left.length = size ∧ attempts < (data.length + 2) ^ gaps segments

section

variable {segments : List Segment} {data : List UInt8} {captured size : Nat}
  {buffer : CaptureBuffer}

/-- The loop ends, since each attempt takes it at least one byte further. -/
theorem exists_scans (each : Attemptable segments captured size) (start : Nat)
    (length : buffer.length = size) :
    ∃ attempts place? left, Scans segments data captured start buffer attempts place? left ∧
      left.length = size ∧
      attempts ≤ (data.length + 1 - start) * (data.length + 2) ^ gaps segments := by
  induction room : data.length + 1 - start using Nat.strong_induction_on
    generalizing start buffer with
  | _ places ih =>
    rcases Nat.lt_or_ge data.length ((nextLiteral segments).2 + start) with past | within
    · exact ⟨0, none, buffer, .past past, length, Nat.zero_le _⟩
    rcases stands : indexOf? (nextLiteral segments).1
      (data.drop ((nextLiteral segments).2 + start)) with _ | found
    · exact ⟨0, none, buffer, .absent within stands, length, Nat.zero_le _⟩
    have fits : start + found ≤ data.length := by
      have := indexOf?_le stands
      rw [List.length_drop] at this
      omega
    obtain ⟨attempts, length?, between, attempt, same, few⟩ :=
      each (data.drop (start + found)) buffer length
    have few : attempts < (data.length + 2) ^ gaps segments :=
      few.trans_le (Nat.pow_le_pow_left (by simp) _)
    generalize (data.length + 2) ^ gaps segments = most at *
    rcases length? with _ | taken
    · obtain ⟨attempts', place?, left, next, same', few'⟩ :=
        ih _ (by omega) (start + found + 1) same rfl
      refine ⟨_, place?, left, .miss within stands fits attempt next, same', ?_⟩
      calc attempts + 1 + attempts'
        _ ≤ most + (data.length + 1 - (start + found + 1)) * most := Nat.add_le_add few few'
        _ = (data.length + 1 - (start + found + 1) + 1) * most := by rw [Nat.add_comm, Nat.succ_mul]
        _ ≤ places * most := Nat.mul_le_mul_right most (by omega)
    · refine ⟨_, _, between, .hit within stands fits attempt, same, ?_⟩
      calc attempts + 1
        _ ≤ most := few
        _ ≤ places * most := Nat.le_mul_of_pos_left most (by omega)

theorem exists_finds (each : Attemptable segments captured size) (data : List UInt8)
    (length : buffer.length = size) :
    ∃ attempts place? left, Finds segments data captured buffer attempts place? left ∧
      left.length = size ∧ attempts < (data.length + 2) ^ (gaps segments + 1) := by
  rcases Nat.lt_or_ge data.length
    ((nextLiteral segments).2 + (nextLiteral segments).1.length) with short | enough
  · exact ⟨0, none, buffer, .short short, length, Nat.pow_pos (by omega)⟩
  · obtain ⟨attempts, place?, left, scan, same, few⟩ := exists_scans each 0 length
    refine ⟨attempts, place?, left, .scan enough scan, same, ?_⟩
    calc attempts
      _ ≤ (data.length + 1) * (data.length + 2) ^ gaps segments := few
      _ < (data.length + 2) * (data.length + 2) ^ gaps segments :=
        Nat.mul_lt_mul_of_pos_right (by omega) (Nat.pow_pos (by omega))
      _ = (data.length + 2) ^ (gaps segments + 1) := by rw [Nat.pow_succ, Nat.mul_comm]

end

/-- A run asks for no more room than the segments capture, and every any-repeating one multiplies
its attempts by the places in the data. -/
theorem exists_matches {segments : List Segment} (uniform : AllUniform segments)
    {data : List UInt8} {pos captured : Nat} {buffer : CaptureBuffer} (within : pos ≤ data.length)
    (room : captured + catching segments ≤ buffer.length) :
    ∃ attempts length? left, Matches segments data pos captured buffer attempts length? left ∧
      left.length = buffer.length ∧ attempts < (data.length + 2) ^ gaps segments := by
  induction segments generalizing data pos captured buffer with
  | nil => exact ⟨0, some pos, buffer, .done, rfl, Nat.pow_pos (by omega)⟩
  | cons s rest ih =>
    rw [catching_cons uniform.head] at room
    by_cases repeating : s.sort = .anyRepeating
    · have each : Attemptable rest captured buffer.length := by
        intro d between size
        rw [← size]
        exact ih uniform.tail (Nat.zero_le d.length) (by omega)
      obtain ⟨attempts, place?, left, search, same, few⟩ := exists_finds each (data.drop pos) rfl
      refine ⟨attempts, _, left, .gap repeating within search, same, few.trans_le ?_⟩
      have more : gaps (s :: rest) = gaps rest + 1 := by simp [gaps, repeating]
      rw [more]
      exact Nat.pow_le_pow_left (by simp) _
    · have same : gaps (s :: rest) = gaps rest := by simp [gaps, repeating]
      rw [same]
      have base : 0 < data.length + 2 := by omega
      rcases Nat.lt_or_ge (data.length - pos) s.length with short | enough
      · exact ⟨0, none, buffer, .short repeating within short, rfl, Nat.pow_pos base⟩
      have fits : pos + s.length ≤ data.length := by omega
      by_cases any : s.sort = .any
      · obtain ⟨attempts, length?, left, next, size, few⟩ :=
          ih uniform.tail fits (by omega : captured + catching rest ≤ buffer.length)
        exact ⟨attempts, length?, left, .any any within enough next, size, few⟩
      by_cases address : s.sort = .address
      · rw [if_pos address] at room
        have taken : ((data.drop pos).take s.length).length = s.length := by
          simp
          omega
        have length : (putAt buffer captured ((data.drop pos).take s.length)).length =
            buffer.length := length_putAt (by omega)
        obtain ⟨attempts, length?, left, next, size, few⟩ :=
          ih uniform.tail fits (by omega : captured + s.length + catching rest ≤
            (putAt buffer captured ((data.drop pos).take s.length)).length)
        exact ⟨attempts, length?, left, .address address fits (by omega) next,
          size.trans length, few⟩
      have own : s.sort = .literal ∨ s.sort = .masked := by
        cases sort : s.sort <;> simp_all
      rcases accepts : itemsAccept s.items ((data.drop pos).take s.length) with _ | _
      · exact ⟨0, none, buffer, .other own fits accepts, rfl, Nat.pow_pos base⟩
      · obtain ⟨attempts, length?, left, next, size, few⟩ :=
          ih uniform.tail fits (by omega : captured + catching rest ≤ buffer.length)
        exact ⟨attempts, length?, left, .equal own fits accepts next, size, few⟩

/-! ## Matching as a whole -/

namespace Accepted

variable {p : Pattern} {data : List UInt8} {attempts : Nat} {left : CaptureBuffer}

/-- Data that is too short for the pattern is not matched against it; a run says the same. -/
theorem attemptAt_of_matches (h : p.Accepted) {length? : Option Nat}
    (run : Matches p.segments data 0 0 emptyBuffer attempts length? left) :
    p.attemptAt data =
      .ok (length?.map fun length => { offset := 0, length, captured := ofLeBytes left }) := by
  obtain ⟨left', run', value⟩ := (h.attempt_catches data).run_emptyBuffer h.addressBytes_le
  rw [run.run_eq h.uniform] at run'
  cases run'
  rw [h.attemptAt_eq]
  rcases taken : outcome p.segments data with _ | ⟨length, caught⟩
  · rfl
  · rw [Option.map_some, Option.map_some, Option.map_some, value _ _ taken]

theorem attemptFind_of_finds (h : p.Accepted) {place? : Option (Nat × Nat)}
    (run : Finds p.segments data 0 emptyBuffer attempts place? left)
    (floating : p.anchored = false) :
    p.attemptFind data =
      .ok (place?.map fun (offset, length) => { offset, length, captured := ofLeBytes left }) := by
  obtain ⟨left', run', value⟩ := (search_catches h.attempt_catches p.segments data).run_emptyBuffer
    h.addressBytes_le
  rw [run.run_eq fun _ _ _ _ _ attempt => attempt.run_eq h.uniform] at run'
  cases run'
  rw [h.attemptFind_eq floating]
  rcases taken : firstPlace (outcome p.segments) p.segments data with
    _ | ⟨⟨offset, length⟩, caught⟩
  · rfl
  · rw [Option.map_some, Option.map_some, Option.map_some, value _ _ taken]

end Accepted

variable {p : Pattern}

/-- Matching ends, and stays within its bytes all the way: the segments are slices of the pattern,
an attempt at the start of the data and a search through it have each a run, however deep it goes,
which makes no more attempts than the places of the data and the gaps of the pattern allow, and
the answer is that of the run. -/
theorem matching_ends_and_stays_within_its_bytes (h : p.Accepted) (data : List UInt8) :
    (∀ s ∈ p.segments, s.items <:+: p.items) ∧
    (∃ attempts length? left, Matches p.segments data 0 0 emptyBuffer attempts length? left ∧
      attempts < (data.length + 2) ^ gaps p.segments ∧
      p.attemptAt data =
        .ok (length?.map fun length => { offset := 0, length, captured := ofLeBytes left })) ∧
    ∃ attempts place? left, Finds p.segments data 0 emptyBuffer attempts place? left ∧
      attempts < (data.length + 2) ^ (gaps p.segments + 1) ∧
      (p.anchored = false → p.attemptFind data =
        .ok (place?.map fun (offset, length) =>
          { offset, length, captured := ofLeBytes left })) := by
  have room : 0 + catching p.segments ≤ emptyBuffer.length := by
    rw [h.catching, Nat.zero_add]
    exact h.addressBytes_le
  refine ⟨fun s m => ?_, ?_, ?_⟩
  · rw [(accepted_iff.mp h).1] at m
    exact infix_of_mem_ofItems m
  · obtain ⟨attempts, length?, left, run, -, few⟩ :=
      exists_matches h.uniform (Nat.zero_le data.length) room
    exact ⟨attempts, length?, left, run, few, h.attemptAt_of_matches run⟩
  · have each : Attemptable p.segments 0 emptyBuffer.length := by
      intro d buffer size
      rw [← size]
      exact exists_matches h.uniform (Nat.zero_le d.length) (by omega)
    obtain ⟨attempts, place?, left, run, -, few⟩ := exists_finds each data rfl
    exact ⟨attempts, place?, left, run, few, h.attemptFind_of_finds run⟩

theorem a_search_that_fails_once_ends :
    ∃ attempts left, Finds retrying.segments [0, 0xaa, 0xbb, 0, 0xbb, 1, 2, 0xcc, 0] 0 emptyBuffer
      attempts (some (1, 7)) left ∧ attempts < 121 ∧ ofLeBytes left = 0x201 := by
  obtain ⟨-, -, attempts, place?, left, run, few, found⟩ :=
    matching_ends_and_stays_within_its_bytes (p := retrying) rfl
      [0, 0xaa, 0xbb, 0, 0xbb, 1, 2, 0xcc, 0]
  have answer := find?_retrying
  rw [find?, found rfl] at answer
  obtain ⟨⟨offset, length⟩, rfl, same⟩ := Option.map_eq_some_iff.mp answer
  obtain ⟨rfl, rfl, value⟩ := Match.mk.inj same
  exact ⟨attempts, left, run, few, value⟩

end Pattern

end Detouring
