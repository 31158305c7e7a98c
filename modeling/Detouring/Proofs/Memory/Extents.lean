-- How far memory can be read. Bytes are counted from region to region, over every seam, until
-- enough are known or the next byte cannot be read. A region that was passed never comes again, so
-- the count ends; and where it ends early there is a hole, or a region that cannot be read.
import Detouring.Memory.Region
import Mathlib.Data.List.Count

namespace Detouring.Region

/-! ## Bytes that can be read -/

/-- The byte at the address is mapped, and can be read. -/
def CanRead (regions : List Region) (x : Nat) : Prop :=
  ∃ r ∈ regions, r.contains x = true ∧ r.protection.read = true

/-- No address lies in both regions. -/
def Apart (r s : Region) : Prop := ∀ x, r.contains x = true → s.contains x = false

variable {regions : List Region} {r : Region} {x : Nat}

theorem contains_iff : r.contains x = true ↔ r.start ≤ x ∧ x < r.stop := by
  simp [contains]

/-- Regions of which one begins behind the other do not overlap. -/
theorem apart_of_le {s : Region} (h : r.stop ≤ s.start) : Apart r s := by
  intro x here
  have := contains_iff.mp here
  simp [contains]
  omega

theorem bounds_of_find? (found : regions.find? (·.contains x) = some r) :
    r.start ≤ x ∧ x < r.stop := by
  have here := List.find?_some found
  exact contains_iff.mp here

/-- The region that is found for an address is the only one that contains it. -/
theorem eq_of_find? (apart : regions.Pairwise Apart) (found : regions.find? (·.contains x) = some r)
    {s : Region} (ms : s ∈ regions) (there : s.contains x = true) : s = r := by
  obtain ⟨here, before, after, rfl, none⟩ := List.find?_eq_some_iff_append.mp found
  rcases List.mem_append.mp ms with earlier | later
  · simpa [there] using none s earlier
  · rcases List.mem_cons.mp later with rfl | later
    · rfl
    · have behind := (List.pairwise_cons.mp (List.pairwise_append.mp apart).2.1).1 s later
      rw [behind x here] at there
      cases there

/-! ## The count -/

/-- The count as it goes on: so many bytes are known to be readable, all those in front of
`cursor`. After so many more looks at the regions it ends with a length. -/
inductive Counts (regions : List Region) (guess : Nat) : (known cursor looks length : Nat) → Prop
  | enough {known cursor : Nat} (all : guess ≤ known) : Counts regions guess known cursor 0 known
  | hole {known cursor : Nat} (few : known < guess)
      (none : regions.find? (·.contains cursor) = none) : Counts regions guess known cursor 1 known
  | guarded {known cursor : Nat} {r : Region} (few : known < guess)
      (found : regions.find? (·.contains cursor) = some r) (closed : r.protection.read = false) :
      Counts regions guess known cursor 1 known
  | onward {known cursor looks length : Nat} {r : Region} (few : known < guess)
      (found : regions.find? (·.contains cursor) = some r) (reads : r.protection.read = true)
      (rest : Counts regions guess (known + (r.stop - cursor)) r.stop looks length) :
      Counts regions guess known cursor (looks + 1) length

/-- How many regions end behind an address. -/
def ahead (regions : List Region) (cursor : Nat) : Nat := regions.countP (cursor < ·.stop)

variable {guess start known cursor looks length : Nat}

/-- A region that has been passed is not ahead any more. -/
theorem ahead_stop (found : regions.find? (·.contains cursor) = some r) :
    ahead regions r.stop < ahead regions cursor := by
  obtain ⟨low, high⟩ := bounds_of_find? found
  have passed : regions.filter (r.stop < ·.stop) =
      (regions.filter (cursor < ·.stop)).filter (r.stop < ·.stop) := by
    rw [List.filter_filter]
    refine List.filter_congr fun s _ => ?_
    rw [← Bool.decide_and, decide_eq_decide]
    omega
  rw [ahead, ahead, List.countP_eq_length_filter, List.countP_eq_length_filter, passed]
  refine List.length_filter_lt_length_iff_exists.mpr ⟨r, ?_, by simp⟩
  exact List.mem_filter.mpr ⟨List.mem_of_find?_eq_some found, by simpa using high⟩

/-- The count ends, after at most one look at each region ahead and one at what follows them, and
it ends with what is said to be readable. -/
theorem counts (regions : List Region) (guess known cursor : Nat) :
    ∃ looks ≤ ahead regions cursor + 1, Counts regions guess known cursor looks
      (known + readableLength regions cursor (guess - known)) := by
  induction left : ahead regions cursor using Nat.strongRecOn generalizing known cursor with
  | _ left' ih =>
    subst left
    by_cases all : guess ≤ known
    · refine ⟨0, Nat.zero_le _, ?_⟩
      rw [Nat.sub_eq_zero_of_le all, readableLength, if_neg (Nat.lt_irrefl 0)]
      exact .enough all
    have few := Nat.lt_of_not_le all
    rw [readableLength, if_pos (by omega)]
    split
    · rename_i none
      exact ⟨1, by omega, .hole few none⟩
    · rename_i r found
      split
      · rename_i reads
        have less := ahead_stop found
        obtain ⟨looks, most, rest⟩ := ih _ less (known + (r.stop - cursor)) r.stop rfl
        refine ⟨looks + 1, by omega, .onward few found reads ?_⟩
        rwa [Nat.sub_add_eq, Nat.add_assoc] at rest
      · rename_i closed
        exact ⟨1, by omega, .guarded few found (by simpa using closed)⟩

namespace Counts

/-- The bytes that are counted can be read. -/
theorem sound (h : Counts regions guess known cursor looks length) (origin : cursor = start + known)
    (before : ∀ i < known, CanRead regions (start + i)) :
    ∀ i < length, CanRead regions (start + i) := by
  induction h with
  | enough | hole | guarded => exact before
  | @onward known cursor looks length r few found reads rest ih =>
    obtain ⟨low, high⟩ := bounds_of_find? found
    refine ih (by omega) fun i counted => ?_
    by_cases earlier : i < known
    · exact before i earlier
    · exact ⟨r, List.mem_of_find?_eq_some found, contains_iff.mpr (by omega), reads⟩

/-- A count that ends early ends in front of a byte that cannot be read. -/
theorem complete (apart : regions.Pairwise Apart)
    (h : Counts regions guess known cursor looks length) (origin : cursor = start + known)
    (early : length < guess) : ¬ CanRead regions (start + length) := by
  induction h with
  | enough all => omega
  | hole few none =>
    subst origin
    rintro ⟨s, ms, there, -⟩
    exact List.find?_eq_none.mp none s ms there
  | guarded few found closed =>
    subst origin
    rintro ⟨s, ms, there, reads⟩
    rw [eq_of_find? apart found ms there, closed] at reads
    cases reads
  | onward few found reads rest ih =>
    obtain ⟨low, high⟩ := bounds_of_find? found
    exact ih (by omega) early

end Counts

/-! ## What is said to be readable -/

/-- Over regions that do not overlap, the count of the readable bytes from an address on ends, with
at most one look at each region and one more. All the bytes that are counted can be read; and if
they are fewer than were asked for, the byte behind them cannot. -/
theorem all_that_can_be_read_is_counted (apart : regions.Pairwise Apart) (start guess : Nat) :
    (∃ looks ≤ regions.length + 1,
      Counts regions guess 0 start looks (readableLength regions start guess)) ∧
    (∀ i < readableLength regions start guess, CanRead regions (start + i)) ∧
    (readableLength regions start guess < guess →
      ¬ CanRead regions (start + readableLength regions start guess)) := by
  obtain ⟨looks, most, ends⟩ := counts regions guess 0 start
  rw [Nat.zero_add, Nat.sub_zero] at ends
  have few : ahead regions start ≤ regions.length := List.countP_le_length
  exact ⟨⟨looks, by omega, ends⟩, ends.sound rfl (fun i none => absurd none (Nat.not_lt_zero i)),
    ends.complete apart rfl⟩

/-- Code, data behind it, and a page behind both that cannot be read. -/
def threeRegions : List Region :=
  [⟨0x1000, 0x3000, ⟨true, false, true⟩, true, some "/lib/a"⟩,
    ⟨0x3000, 0x4000, ⟨true, true, false⟩, true, some "/lib/a"⟩,
    ⟨0x4000, 0x5000, ⟨false, false, false⟩, true, none⟩]

/-- The count goes over the seam between the code and the data, and stops at the guarded page. -/
theorem the_count_stops_at_a_guarded_page :
    threeRegions.Pairwise Apart ∧ readableLength threeRegions 0x2ff0 0x2000 = 0x1010 ∧
      CanRead threeRegions 0x3fff ∧ ¬ CanRead threeRegions 0x4000 := by
  have listed : threeRegions.Pairwise (fun r s => r.stop ≤ s.start) := by decide
  have apart := listed.imp apart_of_le
  have length : readableLength threeRegions 0x2ff0 0x2000 = 0x1010 := by decide +kernel
  obtain ⟨-, sound, complete⟩ := all_that_can_be_read_is_counted apart 0x2ff0 0x2000
  rw [length] at sound complete
  exact ⟨apart, length, sound 0x100f (by decide), complete (by decide)⟩

end Detouring.Region
