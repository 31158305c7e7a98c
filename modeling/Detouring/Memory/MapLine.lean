-- The memory map as the system lists it, one line for each region. Reading a line gives the
-- region back, but of a path only the part before its first blank.
import Detouring.Memory.Region

namespace Detouring

namespace Region

/-! ## Lines

A line has the range, the permissions, three columns that nobody reads, and the path. -/

/-- `true` for the characters that separate columns: spaces, tabs, and breaks of lines and
pages. All other characters are part of a column, also blanks beyond ASCII. -/
def isBlank (c : Char) : Bool := [0x20, 0x09, 0x0a, 0x0c, 0x0d].contains c.toNat

def rangeText (r : Region) : List Char :=
  Nat.toDigits 16 r.start ++ '-' :: Nat.toDigits 16 r.stop

def permissionText (r : Region) : List Char :=
  r.protection.letters ++ [if r.isPrivate then 'p' else 's']

/-- The path as it is listed; a line break would end the line. -/
def pathText (path : List Char) : List Char :=
  path.flatMap fun c => if c = '\n' then ['\\', '0', '1', '2'] else [c]

/-- The line of a region. -/
def line (r : Region) : List Char :=
  r.rangeText ++ ' ' :: (r.permissionText ++ ' ' :: (['0'] ++ ' ' :: (['0'] ++ ' ' :: (['0'] ++
    ' ' :: pathText (r.path.getD "").toList))))

/-- The columns of a line, which blanks separate. -/
def columns : List Char → List (List Char)
  | [] => []
  | c :: rest =>
    if isBlank c then columns rest
    else if rest.head?.all isBlank then [c] :: columns rest
    else
      match columns rest with
      | [] => [[c]]
      | column :: more => (c :: column) :: more

/-- The value of a lower-case hexadecimal digit. -/
def hexValue? (c : Char) : Option Nat :=
  if '0'.toNat ≤ c.toNat ∧ c.toNat ≤ '9'.toNat then some (c.toNat - '0'.toNat)
  else if 'a'.toNat ≤ c.toNat ∧ c.toNat ≤ 'f'.toNat then some (c.toNat - 'a'.toNat + 10)
  else none

/-- Reads digits behind a number that was read so far. -/
def readMore? (n : Nat) : List Char → Option Nat
  | [] => some n
  | c :: rest => (hexValue? c).bind fun d => readMore? (16 * n + d) rest

/-- The number that hexadecimal digits stand for. -/
def readHex? (cs : List Char) : Option Nat := if cs = [] then none else readMore? 0 cs

/-- Reads the two ends of a range. -/
def readRange? (cs : List Char) : Option (Nat × Nat) :=
  match cs.dropWhile (· != '-') with
  | [] => none
  | _ :: last =>
    match readHex? (cs.takeWhile (· != '-')), readHex? last with
    | some start, some stop => some (start, stop)
    | _, _ => none

/-- The path that a column holds, if it holds one. -/
def readPath? (column : Option (List Char)) : Option String :=
  (column.filter (·.head? == some '/')).map String.ofList

/-- Reads a line of the map. -/
def ofLine? (cs : List Char) : Option Region :=
  match columns cs with
  | range :: (r :: w :: x :: p :: _) :: rest =>
    (readRange? range).map fun (start, stop) =>
      { start, stop
        protection := { read := r == 'r', write := w == 'w', execute := x == 'x' }
        isPrivate := p == 'p'
        path := readPath? rest[3]? }
  | _ => none

/-! ## Columns -/

/-- A word without blanks is a column. -/
theorem columns_word (w s : List Char) (b : Char) (hw : ∀ c ∈ w, isBlank c = false)
    (some : w ≠ []) (hb : isBlank b = true) : columns (w ++ b :: s) = w :: columns s := by
  induction w with
  | nil => exact absurd rfl some
  | cons c rest ih =>
    have hc := hw c (by simp)
    rcases rest with _ | ⟨d, rest⟩
    · simp [columns, hc, hb]
    · have hd := hw d (by simp)
      have ih := ih (fun x hx => hw x (by simp [hx])) (by simp)
      rw [List.cons_append, columns, ih]
      simp [hc, hd]

/-- The first column of a text that does not begin with a blank. -/
theorem head?_columns (c : Char) (s : List Char) (hc : isBlank c = false) :
    (columns (c :: s))[0]? = some ((c :: s).takeWhile fun x => !isBlank x) := by
  induction s generalizing c with
  | nil => simp [columns, hc]
  | cons d s ih =>
    by_cases hd : isBlank d = true
    · simp [columns, hc, hd]
    · have hd : isBlank d = false := by simpa using hd
      have ih := ih d hd
      rw [columns]
      simp only [hc, List.head?_cons, Option.all_some, hd]
      rcases hcol : columns (d :: s) with _ | ⟨column, more⟩
      · simp [hcol] at ih
      · rw [hcol] at ih
        simp only [List.getElem?_cons_zero, Option.some.injEq] at ih
        simp [ih, hc]

/-! ## Digits -/

theorem hexValue?_digitChar (d : Nat) (h : d < 16) : hexValue? (Nat.digitChar d) = some d := by
  have : ∀ d : Fin 16, hexValue? (Nat.digitChar d.val) = some d.val := by decide
  exact this ⟨d, h⟩

theorem readMore?_toDigitsCore (fuel n : Nat) (acc : List Char) (h : n < fuel) :
    readMore? 0 (Nat.toDigitsCore 16 fuel n acc) = readMore? n acc := by
  induction fuel generalizing n acc with
  | zero => omega
  | succ fuel ih =>
    have digit := hexValue?_digitChar (n % 16) (Nat.mod_lt _ (by decide))
    rw [Nat.toDigitsCore]
    by_cases zero : n / 16 = 0
    · have : n % 16 = n := by omega
      rw [this] at digit
      simp [zero, readMore?, this, digit]
    · have back : 16 * (n / 16) + n % 16 = n := Nat.div_add_mod n 16
      simp only [zero]
      rw [if_neg (by simp), ih (n / 16) _ (by omega), readMore?, digit, Option.bind_some, back]

theorem mem_toDigitsCore (fuel n : Nat) (acc : List Char) (c : Char)
    (h : c ∈ Nat.toDigitsCore 16 fuel n acc) : c ∈ acc ∨ (hexValue? c).isSome := by
  induction fuel generalizing n acc with
  | zero => exact Or.inl h
  | succ fuel ih =>
    have digit := hexValue?_digitChar (n % 16) (Nat.mod_lt _ (by decide))
    rw [Nat.toDigitsCore] at h
    by_cases zero : n / 16 = 0
    · simp only [zero, if_true, List.mem_cons] at h
      rcases h with rfl | h
      · exact Or.inr (by simp [digit])
      · exact Or.inl h
    · simp only [zero, if_false] at h
      rcases ih _ _ h with h | h
      · rcases List.mem_cons.1 h with rfl | h
        · exact Or.inr (by simp [digit])
        · exact Or.inl h
      · exact Or.inr h

theorem hexValue?_of_mem_toDigits {n : Nat} {c : Char} (h : c ∈ Nat.toDigits 16 n) :
    (hexValue? c).isSome := by
  rcases mem_toDigitsCore _ _ _ _ h with h | h
  · cases h
  · exact h

theorem isBlank_of_hexValue? {c : Char} (h : (hexValue? c).isSome) : isBlank c = false := by
  have e0 : '0'.toNat = 48 := rfl
  have e9 : '9'.toNat = 57 := rfl
  have ea : 'a'.toNat = 97 := rfl
  have ef : 'f'.toNat = 102 := rfl
  have range : (48 ≤ c.toNat ∧ c.toNat ≤ 57) ∨ (97 ≤ c.toNat ∧ c.toNat ≤ 102) := by
    unfold hexValue? at h
    rw [e0, e9, ea, ef] at h
    by_cases low : 48 ≤ c.toNat ∧ c.toNat ≤ 57
    · exact Or.inl low
    · by_cases high : 97 ≤ c.toNat ∧ c.toNat ≤ 102
      · exact Or.inr high
      · simp [low, high] at h
  unfold isBlank
  generalize c.toNat = n at range
  simp only [List.contains_cons, List.contains_nil, Bool.or_false, Bool.or_eq_false_iff,
    beq_eq_false_iff_ne, ne_eq]
  omega

theorem ne_dash_of_hexValue? {c : Char} (h : (hexValue? c).isSome) : (c != '-') = true := by
  by_cases dash : c = '-'
  · subst dash; simp [hexValue?] at h
  · simpa using dash

/-- Reading takes back what was written. -/
theorem readHex?_toDigits (n : Nat) : readHex? (Nat.toDigits 16 n) = some n := by
  have read := readMore?_toDigitsCore (n + 1) n [] (by omega)
  have some : Nat.toDigits 16 n ≠ [] := by
    intro none
    rw [Nat.toDigits] at none
    rw [none] at read
    simp only [readMore?, Option.some.injEq] at read
    subst read
    exact absurd none (by decide)
  rw [readHex?, if_neg some]
  exact read

theorem takeWhile_append_cons {p : Char → Bool} (w s : List Char) (b : Char)
    (hw : ∀ c ∈ w, p c = true) (hb : p b = false) :
    (w ++ b :: s).takeWhile p = w ∧ (w ++ b :: s).dropWhile p = b :: s := by
  induction w with
  | nil => simp [hb]
  | cons c w ih =>
    have hc := hw c (by simp)
    simpa [hc] using ih fun x hx => hw x (by simp [hx])

theorem readRange?_rangeText (r : Region) :
    readRange? r.rangeText = some (r.start, r.stop) := by
  have ⟨first, rest⟩ := takeWhile_append_cons (p := (· != '-')) (Nat.toDigits 16 r.start)
    (Nat.toDigits 16 r.stop) '-'
    (fun c hc => ne_dash_of_hexValue? (hexValue?_of_mem_toDigits hc)) (by decide)
  rw [readRange?, rangeText, rest, first]
  simp [readHex?_toDigits]

/-! ## Reading what was written -/

/-- A region as the map tells of it: of its path, only the part before the first blank. -/
def listed (r : Region) : Region :=
  { r with path := readPath? (columns (pathText (r.path.getD "").toList))[0]? }

theorem isBlank_of_mem_rangeText {r : Region} {c : Char} (h : c ∈ r.rangeText) :
    isBlank c = false := by
  simp only [rangeText, List.mem_append, List.mem_cons] at h
  rcases h with h | rfl | h
  · exact isBlank_of_hexValue? (hexValue?_of_mem_toDigits h)
  · decide
  · exact isBlank_of_hexValue? (hexValue?_of_mem_toDigits h)

theorem isBlank_of_mem_permissionText {r : Region} {c : Char} (h : c ∈ r.permissionText) :
    isBlank c = false := by
  simp only [permissionText, Protection.letters, List.cons_append, List.nil_append,
    List.mem_cons, List.not_mem_nil, or_false] at h
  rcases h with rfl | rfl | rfl | rfl <;> split <;> rfl

/-- The columns of a line. -/
theorem columns_line (r : Region) :
    columns r.line = r.rangeText :: r.permissionText :: ['0'] :: ['0'] :: ['0'] ::
      columns (pathText (r.path.getD "").toList) := by
  have zero (s : List Char) : columns (['0'] ++ ' ' :: s) = ['0'] :: columns s :=
    columns_word ['0'] s ' ' (fun c h => by rw [List.mem_singleton.mp h]; rfl) (by simp) rfl
  rw [line, columns_word _ _ ' ' (fun _ => isBlank_of_mem_rangeText) (by simp [rangeText])
      (by decide),
    columns_word _ _ ' ' (fun _ => isBlank_of_mem_permissionText) (by simp [permissionText])
      (by decide),
    zero, zero, zero]

theorem ofLine?_line (r : Region) : ofLine? r.line = some r.listed := by
  have range := readRange?_rangeText r
  obtain ⟨_, _, ⟨read, write, execute⟩, isPrivate, _⟩ := r
  simp only [ofLine?, columns_line, permissionText, Protection.letters, List.cons_append,
    List.nil_append, range, Option.map_some, listed]
  cases read <;> cases write <;> cases execute <;> cases isPrivate <;> rfl

end Region

/-! ## The map -/

/-- The regions as read back from the lines of the map. -/
def Memory.mapRegions (m : Memory) : List Region :=
  m.regions.filterMap fun r => Region.ofLine? r.line

/-- The map tells of every region. -/
theorem Memory.mapRegions_eq (m : Memory) : m.mapRegions = m.regions.map Region.listed := by
  simp [mapRegions, Region.ofLine?_line]

end Detouring
