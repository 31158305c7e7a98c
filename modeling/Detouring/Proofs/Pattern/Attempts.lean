-- What an attempt comes to. It never reads outside the data or writes outside the capture buffer,
-- and what earlier attempts have left in the buffer shows in nothing that it gives.
import Detouring.Proofs.Pattern.Segments

namespace Detouring.Pattern

/-! ## The capture buffer -/

/-- The buffer with bytes put into it from `start` on. -/
def putAt (buffer : CaptureBuffer) (start : Nat) (bytes : List UInt8) : CaptureBuffer :=
  buffer.take start ++ bytes ++ buffer.drop (start + bytes.length)

section

variable {buffer : CaptureBuffer} {start : Nat} {bytes bytes' : List UInt8}

theorem length_putAt (h : start + bytes.length ≤ buffer.length) :
    (putAt buffer start bytes).length = buffer.length := by
  simp [putAt]
  omega

/-- Bytes that stand there already change nothing. -/
theorem putAt_self {room : Nat} (h : start + room ≤ buffer.length) :
    putAt buffer start ((buffer.drop start).take room) = buffer := by
  have length : ((buffer.drop start).take room).length = room := by
    simp
    omega
  rw [putAt, length, List.append_assoc, ← List.drop_drop, List.take_append_drop,
    List.take_append_drop]

/-- Only the last bytes put at one place are seen. -/
theorem putAt_putAt (h : start + bytes.length ≤ buffer.length)
    (same : bytes'.length = bytes.length) :
    putAt (putAt buffer start bytes) start bytes' = putAt buffer start bytes' := by
  have front : (buffer.take start).length = start := by
    simp
    omega
  have before : (putAt buffer start bytes).take start = buffer.take start := by
    rw [putAt, List.append_assoc, List.take_append_of_le_length (by omega), List.take_take,
      Nat.min_self]
  have behind : (putAt buffer start bytes).drop (start + bytes'.length) =
      buffer.drop (start + bytes'.length) := by
    rw [putAt, same, List.drop_left' (by simp [front])]
  rw [putAt, before, behind, putAt]

/-- Bytes put one behind the other are there as one. -/
theorem putAt_behind (h : start + bytes.length + bytes'.length ≤ buffer.length) :
    putAt (putAt buffer start bytes) (start + bytes.length) bytes' =
      putAt buffer start (bytes ++ bytes') := by
  have front : (buffer.take start).length = start := by
    simp
    omega
  have before : (putAt buffer start bytes).take (start + bytes.length) =
      buffer.take start ++ bytes := by
    rw [putAt, List.take_left' (by simp [front])]
  have behind : (putAt buffer start bytes).drop (start + bytes.length + bytes'.length) =
      buffer.drop (start + bytes.length + bytes'.length) := by
    rw [← List.drop_drop, putAt, List.drop_left' (by simp [front]), List.drop_drop]
  rw [putAt, before, behind, putAt, List.length_append, List.append_assoc (buffer.take start),
    Nat.add_assoc]

end

/-! ## Attempts and what they catch -/

variable {α β : Type}

/-- Whatever is in the buffer, the attempt ends with what `out` says: without a result, or with a
result and the bytes it caught, which then stand in the buffer from `captured` on. It changes the
buffer only in the `room` bytes from there on. -/
def Catches (act : MatchM (Option α)) (captured room : Nat) (out : Option (α × List UInt8)) :
    Prop :=
  ∀ buffer : CaptureBuffer, captured + room ≤ buffer.length → ∃ left : List UInt8,
    left.length = room ∧ act.run buffer = .ok (out.map Prod.fst, putAt buffer captured left) ∧
      ∀ a caught, out = some (a, caught) → caught = left

theorem run_bind {act : MatchM α} {next : α → MatchM β} {buffer buffer' : CaptureBuffer} {a : α}
    (h : act.run buffer = .ok (a, buffer')) : (act >>= next).run buffer = (next a).run buffer' := by
  rw [StateT.run_bind, h]
  rfl

theorem run_capture {buffer : CaptureBuffer} {start : Nat} {bytes : List UInt8}
    (fits : start + bytes.length ≤ buffer.length) :
    (capture start bytes).run buffer = .ok ((), putAt buffer start bytes) := by
  have got : (get : MatchM CaptureBuffer).run buffer = .ok (buffer, buffer) := rfl
  rw [capture, run_bind got, if_pos fits]
  rfl

namespace Catches

variable {act : MatchM (Option α)} {captured room : Nat} {out : Option (α × List UInt8)}

theorem fail : Catches (pure none : MatchM (Option α)) captured room none := by
  intro buffer fits
  refine ⟨(buffer.drop captured).take room, by simp; omega, ?_, by simp⟩
  rw [putAt_self fits]
  rfl

theorem done (a : α) : Catches (pure (some a)) captured 0 (some (a, [])) := by
  intro buffer fits
  refine ⟨[], rfl, ?_, by simp⟩
  have same : putAt buffer captured ((buffer.drop captured).take 0) = buffer :=
    putAt_self (by omega)
  rw [List.take_zero] at same
  rw [same]
  rfl

/-- What follows an attempt: a result ends the matter, and without one something else is tried. -/
theorem bind {next : Option α → MatchM (Option β)} {out' : Option (β × List UInt8)}
    (h : Catches act captured room out)
    (hit : ∀ a caught, out = some (a, caught) →
      ∃ b, next (some a) = pure (some b) ∧ out' = some (b, caught))
    (miss : out = none → Catches (next none) captured room out') :
    Catches (act >>= next) captured room out' := by
  intro buffer fits
  obtain ⟨left, length, run, caught⟩ := h buffer fits
  rcases out with _ | ⟨a, c⟩
  · obtain ⟨left', length', run', caught'⟩ :=
      miss rfl (putAt buffer captured left) (by rwa [length_putAt (by omega)])
    refine ⟨left', length', ?_, caught'⟩
    rw [run_bind run, Option.map_none, run', putAt_putAt (by omega) (by omega)]
  · obtain ⟨b, goes, rfl⟩ := hit a c rfl
    obtain rfl := caught a c rfl
    refine ⟨c, length, ?_, by simp⟩
    rw [run_bind run, Option.map_some, goes]
    rfl

theorem map (f : α → β) (h : Catches act captured room out) :
    Catches (act >>= fun r => pure (r.map f)) captured room
      (out.map fun (a, caught) => (f a, caught)) := by
  refine h.bind (fun a caught e => ⟨f a, rfl, by simp [e]⟩) fun e => ?_
  rw [e]
  exact fail

/-- Captured bytes stand before those that are captured later. -/
theorem capture (bytes : List UInt8) (h : Catches act (captured + bytes.length) room out) :
    Catches (do Pattern.capture captured bytes; act) captured (bytes.length + room)
      (out.map fun (a, caught) => (a, bytes ++ caught)) := by
  intro buffer fits
  obtain ⟨left, length, run, caught⟩ := h (putAt buffer captured bytes)
    (by rw [length_putAt (by omega)]; omega)
  refine ⟨bytes ++ left, by simp [length], ?_, ?_⟩
  · rw [run_bind (run_capture (by omega)), run, putAt_behind (by omega), Option.map_map]
    rfl
  · rcases out with _ | ⟨a, c⟩
    · simp
    · obtain rfl := caught a c rfl
      simp

end Catches

/-! ## The outcome of matching

The same search without a buffer: each result comes with the bytes that its own items captured. -/

/-- What a test comes to `offset` bytes into the data, where the literal has to stand `lead`
bytes further. -/
def tryAt (test : List UInt8 → Option (Nat × List UInt8)) (literal : List UInt8) (lead : Nat)
    (data : List UInt8) (offset : Nat) : Option ((Nat × Nat) × List UInt8) :=
  if literal.isPrefixOf (data.drop (lead + offset)) then
    (test (data.drop offset)).map fun (length, caught) => ((offset, length), caught)
  else none

/-- The first place in the data where the test succeeds, among those where the next literal of
the segments stands as far on as they say. -/
def firstPlace (test : List UInt8 → Option (Nat × List UInt8)) (segments : List Segment)
    (data : List UInt8) : Option ((Nat × Nat) × List UInt8) :=
  let (literal, lead) := nextLiteral segments
  if data.length < lead + literal.length then none
  else (List.range' 0 (data.length - lead + 1)).findSome? (tryAt test literal lead data)

/-- How many bytes of the data the segments take, and which of them they capture. -/
def outcome : List Segment → List UInt8 → Option (Nat × List UInt8)
  | [], _ => some (0, [])
  | s :: rest, data =>
    if s.sort = .anyRepeating then
      (firstPlace (outcome rest) rest data).map fun ((offset, length), caught) =>
        (offset + length, caught)
    else if s.length ≤ data.length ∧ itemsAccept s.items (data.take s.length) = true then
      (outcome rest (data.drop s.length)).map fun (length, caught) =>
        (s.length + length, (if s.sort = .address then data.take s.length else []) ++ caught)
    else none

section

variable {s : Segment} {data : List UInt8} (rest : List Segment)

theorem outcome_repeating (repeating : s.sort = .anyRepeating) :
    outcome (s :: rest) data = (firstPlace (outcome rest) rest data).map
      fun ((offset, length), caught) => (offset + length, caught) := by
  rw [outcome, if_pos repeating]

theorem outcome_short (fixed : s.sort ≠ .anyRepeating) (short : data.length < s.length) :
    outcome (s :: rest) data = none := by
  have lacks : ¬ (s.length ≤ data.length ∧ itemsAccept s.items (data.take s.length) = true) :=
    fun fits => by omega
  rw [outcome, if_neg fixed, if_neg lacks]

theorem outcome_fixed (fixed : s.sort ≠ .anyRepeating) (fits : s.length ≤ data.length) :
    outcome (s :: rest) data =
      if itemsAccept s.items (data.take s.length) then
        (outcome rest (data.drop s.length)).map fun (length, caught) =>
          (s.length + length, (if s.sort = .address then data.take s.length else []) ++ caught)
      else none := by
  rw [outcome, if_neg fixed]
  simp only [fits, true_and]

end

/-- How many bytes the segments capture. -/
def catching (segments : List Segment) : Nat :=
  (Segment.flatten segments).countP (·.sort = .address)

theorem suffix_bind {data : List UInt8} {start : Nat} (h : start ≤ data.length)
    (next : List UInt8 → MatchM α) : suffix data start >>= next = next (data.drop start) := by
  rw [suffix, if_pos h, pure_bind]

theorem window_bind {data : List UInt8} {start length : Nat} (h : start + length ≤ data.length)
    (next : List UInt8 → MatchM α) :
    window data start length >>= next = next ((data.drop start).take length) := by
  rw [window, if_pos h, pure_bind]

section

variable {attempt : List UInt8 → MatchM (Option Nat)}
  {test : List UInt8 → Option (Nat × List UInt8)} {captured room : Nat}

/-- The attempt at one place, made only where the literal stands. -/
def attemptAtLiteral (attempt : List UInt8 → MatchM (Option Nat))
    (literal data haystack : List UInt8) (offset : Nat) : MatchM (Option Nat) := do
  if literal.isPrefixOf haystack then attempt (← suffix data offset) else pure none

/-- A scan tries one place, and without a result there it goes on behind it. -/
theorem scan_eq (literal data haystack : List UInt8) (offset : Nat) :
    scan attempt literal data haystack offset =
      attemptAtLiteral attempt literal data haystack offset >>= fun
        | some length => pure (some (offset, length))
        | none =>
          match haystack with
          | [] => pure none
          | _ :: rest => scan attempt literal data rest (offset + 1) := by
  rcases haystack with _ | ⟨b, rest⟩
  all_goals
    delta scan attemptAtLiteral
    change (if literal.isPrefixOf _ = true then _ else _) = _
    split
    · rw [bind_assoc]
      refine bind_congr fun d => bind_congr fun found => ?_
      cases found <;> rfl
    · rfl

/-- The attempt at one place, with what is to follow it. -/
theorem attemptAtLiteral_catches (each : ∀ d, Catches (attempt d) captured room (test d))
    {literal data haystack : List UInt8} {lead offset : Nat}
    (rest : haystack = data.drop (lead + offset)) (within : lead + offset ≤ data.length)
    {next : Option Nat → MatchM (Option (Nat × Nat))} {more : Option ((Nat × Nat) × List UInt8)}
    (hit : ∀ length, next (some length) = pure (some (offset, length)))
    (miss : Catches (next none) captured room more) :
    Catches (attemptAtLiteral attempt literal data haystack offset >>= next) captured room
      ((tryAt test literal lead data offset).or more) := by
  rw [attemptAtLiteral, tryAt, ← rest]
  split
  · rw [suffix_bind (by omega)]
    exact (each _).bind (fun length caught e => ⟨_, hit length, by simp [e]⟩)
      fun e => by simpa [e] using miss
  · simpa using miss

theorem findSome?_cons_eq_or (f : α → Option β) (a : α) (l : List α) :
    (a :: l).findSome? f = (f a).or (l.findSome? f) := by
  rw [List.findSome?_cons]
  cases f a <;> rfl

theorem scan_catches (each : ∀ d, Catches (attempt d) captured room (test d))
    {literal data : List UInt8} {lead : Nat} (haystack : List UInt8) (offset : Nat)
    (rest : haystack = data.drop (lead + offset)) (within : lead + offset ≤ data.length) :
    Catches (scan attempt literal data haystack offset) captured room
      ((List.range' offset (haystack.length + 1)).findSome? (tryAt test literal lead data)) := by
  induction haystack generalizing offset with
  | nil =>
    rw [scan_eq, List.length_nil, List.range'_succ, findSome?_cons_eq_or]
    exact attemptAtLiteral_catches each rest within (fun _ => rfl) Catches.fail
  | cons b more ih =>
    have next : more = data.drop (lead + (offset + 1)) := by
      rw [← Nat.add_assoc, ← List.drop_drop, ← rest]
      rfl
    have room : lead + (offset + 1) ≤ data.length := by
      have := congrArg List.length rest
      simp at this
      omega
    rw [scan_eq, List.length_cons, List.range'_succ, findSome?_cons_eq_or]
    exact attemptAtLiteral_catches each rest within (fun _ => rfl) (ih (offset + 1) next room)

theorem search_catches (each : ∀ d, Catches (attempt d) captured room (test d))
    (segments : List Segment) (data : List UInt8) :
    Catches (search attempt segments data) captured room (firstPlace test segments data) := by
  rw [search, firstPlace]
  rcases nextLiteral segments with ⟨literal, lead⟩
  by_cases short : data.length < lead + literal.length
  · simpa [short] using Catches.fail
  · have within : lead ≤ data.length := by omega
    have scanned : Catches (scan attempt literal data (data.drop lead) 0) captured room
        ((List.range' 0 ((data.drop lead).length + 1)).findSome? (tryAt test literal lead data)) :=
      scan_catches each (data.drop lead) 0 rfl within
    simp only [if_neg short, suffix_bind within]
    simpa using scanned

end

theorem catching_cons {s : Segment} (u : s.Uniform) (rest : List Segment) :
    catching (s :: rest) = (if s.sort = .address then s.length else 0) + catching rest := by
  have own : s.items.countP (·.sort = .address) = if s.sort = .address then s.length else 0 := by
    split
    · rename_i address
      exact List.countP_eq_length.mpr fun i m => by simp [u.same i m, address]
    · rename_i other
      exact List.countP_eq_zero.mpr fun i m => by simp [u.same i m, other]
  rw [catching, Segment.flatten_cons, List.countP_append, own]
  rfl

theorem matchFrom_repeating {s : Segment} (repeating : s.sort = .anyRepeating)
    (rest : List Segment) {data : List UInt8} {pos : Nat} (within : pos ≤ data.length)
    (captured : Nat) :
    matchFrom (s :: rest) data pos captured =
      search (fun d => matchFrom rest d 0 captured) rest (data.drop pos) >>= fun place =>
        pure (place.map fun (offset, length) => pos + offset + length) := by
  rw [matchFrom, if_pos repeating, suffix_bind within]
  refine bind_congr fun place => ?_
  cases place <;> rfl

theorem matchFrom_short {s : Segment} (fixed : s.sort ≠ .anyRepeating) (rest : List Segment)
    {data : List UInt8} {pos : Nat} (within : pos ≤ data.length)
    (short : data.length < pos + s.length) (captured : Nat) :
    matchFrom (s :: rest) data pos captured = pure none := by
  rw [matchFrom, if_neg fixed, if_neg (Nat.not_lt.mpr within)]
  exact if_pos (by omega)

theorem matchFrom_fixed {s : Segment} (u : s.Uniform) (fixed : s.sort ≠ .anyRepeating)
    (rest : List Segment) {data : List UInt8} {pos : Nat} (fits : pos + s.length ≤ data.length)
    (captured : Nat) :
    matchFrom (s :: rest) data pos captured =
      if s.sort = .address then do
        capture captured ((data.drop pos).take s.length)
        matchFrom rest data (pos + s.length) (captured + s.length)
      else if itemsAccept s.items ((data.drop pos).take s.length) then
        matchFrom rest data (pos + s.length) captured
      else pure none := by
  rw [matchFrom, if_neg fixed, if_neg (by omega : ¬ data.length < pos)]
  simp only [if_neg (by omega : ¬ data.length - pos < s.length), window_bind fits]
  by_cases any : s.sort = .any
  · simp [any, u.accepts (Or.inl any)]
  · simp [any]

/-- Matching without a buffer and matching with one come to the same. -/
theorem matchFrom_catches {segments : List Segment} (uniform : Segment.AllUniform segments)
    {data : List UInt8} {pos : Nat} (within : pos ≤ data.length) (captured : Nat) :
    Catches (matchFrom segments data pos captured) captured (catching segments)
      ((outcome segments (data.drop pos)).map fun (length, caught) => (pos + length, caught)) := by
  induction segments generalizing data pos captured with
  | nil =>
    rw [matchFrom, outcome]
    exact Catches.done pos
  | cons s rest ih =>
    have us := uniform.head
    have ur := uniform.tail
    rw [catching_cons us]
    by_cases repeating : s.sort = .anyRepeating
    · have each (d : List UInt8) :
          Catches (matchFrom rest d 0 captured) captured (catching rest) (outcome rest d) := by
        simpa using ih ur (Nat.zero_le d.length) captured
      have found := (search_catches each rest (data.drop pos)).map
        fun (offset, length) => pos + offset + length
      rw [matchFrom_repeating repeating rest within, outcome_repeating rest repeating]
      simpa [repeating, Function.comp_def, Nat.add_assoc] using found
    · by_cases short : data.length < pos + s.length
      · rw [matchFrom_short repeating rest within short,
          outcome_short rest repeating (by simp; omega)]
        exact Catches.fail
      · have fits : pos + s.length ≤ data.length := by omega
        have behind (captured : Nat) := ih ur fits captured
        rw [matchFrom_fixed us repeating rest fits,
          outcome_fixed rest repeating (by simp; omega), List.drop_drop]
        by_cases address : s.sort = .address
        · have taken : ((data.drop pos).take s.length).length = s.length := by
            simp
            omega
          have caught := Catches.capture ((data.drop pos).take s.length)
            (taken.symm ▸ behind (captured + s.length))
          rw [taken] at caught
          simpa [address, us.accepts (Or.inr address), Function.comp_def, Nat.add_assoc]
            using caught
        · by_cases accepts : itemsAccept s.items ((data.drop pos).take s.length) = true
          · simpa [address, accepts, Function.comp_def, Nat.add_assoc] using behind captured
          · simpa [address, accepts] using Catches.fail

end Detouring.Pattern
