-- What the map says of an address. Every address that lies in a region is mapped, the region tells
-- how its page is protected, and the bytes that are counted as readable can be read.
import Detouring.Proofs.Memory.Restoring

namespace Detouring

/-! ## Addresses in regions -/

namespace Region

variable {regions : List Region} {x : Nat}

/-- A byte in a joined region was in one of the regions. -/
theorem contains_join {r s : Region} (ms : s ∈ r.join regions) (there : s.contains x = true) :
    ∃ t ∈ r :: regions, t.contains x = true := by
  cases regions with
  | nil =>
    rw [join, List.mem_singleton] at ms
    exact ⟨r, List.mem_cons_self, ms ▸ there⟩
  | cons next rest =>
    simp only [join] at ms
    split at ms
    · rename_i alike
      rcases List.mem_cons.mp ms with rfl | later
      · simp only [contains, Bool.and_eq_true, decide_eq_true_eq] at there
        by_cases first : x < r.stop
        · exact ⟨r, List.mem_cons_self, by simp [contains, there.1, first]⟩
        · refine ⟨next, List.mem_cons_of_mem _ List.mem_cons_self, ?_⟩
          have := alike.1
          simp only [contains, Bool.and_eq_true, decide_eq_true_eq]
          omega
      · exact ⟨s, List.mem_cons_of_mem _ (List.mem_cons_of_mem _ later), there⟩
    · exact ⟨s, ms, there⟩

/-- Bytes that are known to be readable lie in regions. -/
theorem contains_of_readable (regions : List Region) (guess start i : Nat)
    (known : i < readableLength regions start guess) (looked : i < guess) :
    ∃ r ∈ regions, r.contains (start + i) = true := by
  induction guess using Nat.strong_induction_on generalizing start i with
  | _ guess ih =>
    unfold readableLength at known
    rw [if_pos (by omega)] at known
    split at known
    · omega
    · rename_i r found
      have here := List.find?_some found
      split at known
      · simp only [contains, Bool.and_eq_true, decide_eq_true_eq] at here
        by_cases within : i < r.stop - start
        · refine ⟨r, List.mem_of_find?_eq_some found, ?_⟩
          simp only [contains, Bool.and_eq_true, decide_eq_true_eq]
          omega
        · obtain ⟨s, ms, there⟩ := ih (guess - (r.stop - start)) (by omega) r.stop
            (i - (r.stop - start)) (by omega) (by omega)
          refine ⟨s, ms, ?_⟩
          rwa [show r.stop + (i - (r.stop - start)) = start + i by omega] at there
      · omega

/-- Something is counted as readable where the region of the address can be read. -/
theorem readableLength_pos {guess : Nat} (look : 0 < guess) :
    0 < readableLength regions x guess ↔
      (regions.find? (·.contains x)).any (·.protection.read) = true := by
  unfold readableLength
  rw [if_pos look]
  split
  · rename_i none
    simp [none]
  · rename_i r found
    have here := List.find?_some found
    simp only [contains, Bool.and_eq_true, decide_eq_true_eq] at here
    rw [found]
    split <;> rename_i read
    · simp only [Option.any_some, read, iff_true]
      omega
    · simp [read]

end Region

/-! ## Pages and the map -/

namespace Memory.Regular

variable {m : Memory} {x : Nat}

theorem mapped_of_region (g : m.Regular) {r : Region} (mr : r ∈ m.mapRegions)
    (there : r.contains x = true) : m.isMapped x = true := by
  rw [mapRegions_eq] at mr
  obtain ⟨s, ms, rfl⟩ := List.mem_map.mp mr
  have there : s.contains x = true := there
  have page (pages : List MappedPage) {s : Region}
      (ms : s ∈ (pages.map Region.ofPage).foldr Region.join []) (there : s.contains x = true) :
      ∃ p ∈ pages, p.base ≤ x ∧ x < p.base + pageSize := by
    induction pages generalizing s with
    | nil => cases ms
    | cons p rest ih =>
      obtain ⟨t, mt, there⟩ := Region.contains_join ms there
      rcases List.mem_cons.mp mt with rfl | mt
      · have inside := (Bool.and_eq_true _ _).mp there
        exact ⟨p, List.mem_cons_self, of_decide_eq_true inside.1, of_decide_eq_true inside.2⟩
      · obtain ⟨q, mq, inside⟩ := ih mt there
        exact ⟨q, List.mem_cons_of_mem p mq, inside⟩
  obtain ⟨p, mp, low, high⟩ := page m.pages ms there
  exact g.isMapped_of_mem (List.mem_map_of_mem mp) low high

/-- The map tells how the page of an address is protected. -/
theorem protection_told (g : m.Regular) (x : Nat) :
    (m.mapRegions.find? (·.contains x)).map Region.protection = m.protectionAt? x := by
  obtain ⟨cover, tell⟩ := describes_regions g.behind
  have page (mapped : m.isMapped x = true) : ∃ p ∈ m.pages, p.base = pageOf x ∧
      m.protectionAt? x = some p.protection := by
    obtain ⟨p, found⟩ := Option.isSome_iff_exists.mp mapped
    refine ⟨p, List.mem_of_find?_eq_some found, by simpa using List.find?_some found, ?_⟩
    simp [protectionAt?, found]
  obtain ⟨_, low, high⟩ := pageOf_spec x
  cases found : m.mapRegions.find? (·.contains x) with
  | none =>
    -- A page at the address would lie in a region.
    cases guard : m.protectionAt? x with
    | none => rfl
    | some protection =>
      obtain ⟨p, mp, base, -⟩ := page (by simp [← isSome_protectionAt?, guard])
      obtain ⟨r, mr, first, last⟩ := cover p mp
      have listed : r.listed ∈ m.mapRegions := mapRegions_eq m ▸ List.mem_map_of_mem mr
      have out : ¬ r.contains x = true := List.find?_eq_none.mp found r.listed listed
      simp only [Region.contains, Bool.and_eq_true, decide_eq_true_eq] at out
      omega
  | some r =>
    have mr := List.mem_of_find?_eq_some found
    have there := List.find?_some found
    obtain ⟨p, mp, base, guard⟩ := page (g.mapped_of_region mr there)
    rw [mapRegions_eq] at mr
    obtain ⟨s, ms, rfl⟩ := List.mem_map.mp mr
    have lined : s.start % pageSize = 0 := g.aligned _ (start_regions m.pages ms)
    have there : s.contains x = true := there
    simp only [Region.contains, Bool.and_eq_true, decide_eq_true_eq] at there
    have same : s.protection = p.protection := by
      refine tell s ms p mp ?_ (by omega)
      unfold pageOf roundDown pageSize at *
      omega
    simp [guard, Region.listed, same]

/-- Something is counted as readable at an address just if the byte there can be read. -/
theorem readable_iff (g : m.Regular) {guess : Nat} (look : 0 < guess) :
    0 < Region.readableLength m.mapRegions x guess ↔ m.isReadable x = true := by
  rw [Region.readableLength_pos look, isReadable, ← g.protection_told x]
  cases m.mapRegions.find? (·.contains x) <;> simp

end Memory.Regular

end Detouring
