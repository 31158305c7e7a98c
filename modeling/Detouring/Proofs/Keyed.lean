-- Lists in which each thing has a key of its own: finding by key, cutting a list that is sorted by
-- key, and which of two things comes first.
import Mathlib.Data.List.Nodup
import Mathlib.Data.List.TakeWhile

namespace Detouring

namespace Keyed

variable {α κ : Type} [BEq κ] [LawfulBEq κ] {key : α → κ}

/-- What is found under a key is what the list has under it. -/
theorem find?_eq_some_iff {l : List α} (n : (l.map key).Nodup) {k : κ} {x : α} :
    l.find? (fun y => key y == k) = some x ↔ x ∈ l ∧ key x = k := by
  constructor
  · intro h
    exact ⟨List.mem_of_find?_eq_some h, by simpa using List.find?_some h⟩
  · rintro ⟨m, rfl⟩
    rcases found : l.find? (fun y => key y == key x) with _ | y
    · exact absurd (List.find?_eq_none.mp found x m) (by simp)
    · have same : key y = key x := by simpa using List.find?_some found
      rw [List.inj_on_of_nodup_map n (List.mem_of_find?_eq_some found) m same]

theorem lt_of_mem_takeWhile {l : List α} {rank : α → Nat} {k : Nat} {x : α}
    (h : x ∈ l.takeWhile fun y => decide (rank y < k)) : rank x < k := by
  simpa using List.mem_takeWhile_imp h

/-- Behind a cut of a sorted list, nothing is in front of the cut. -/
theorem le_of_mem_dropWhile {l : List α} {rank : α → Nat} {k : Nat} {x : α}
    (sorted : l.Pairwise fun y z => rank y ≤ rank z)
    (h : x ∈ l.dropWhile fun y => decide (rank y < k)) : k ≤ rank x := by
  induction l with
  | nil => cases h
  | cons y rest ih =>
    obtain ⟨first, sorted⟩ := List.pairwise_cons.mp sorted
    by_cases low : rank y < k
    · simp only [List.dropWhile_cons, low, decide_true, if_true] at h
      exact ih sorted h
    · simp only [List.dropWhile_cons, low, decide_false, Bool.false_eq_true, if_false] at h
      rcases List.mem_cons.mp h with rfl | later
      · exact Nat.le_of_not_lt low
      · exact Nat.le_trans (Nat.le_of_not_lt low) (first x later)

/-- Of two things of a list, one stands in front of the other. -/
theorem sublist_or_sublist {l : List α} {x y : α} (mx : x ∈ l) (my : y ∈ l) (other : x ≠ y) :
    [x, y].Sublist l ∨ [y, x].Sublist l := by
  obtain ⟨front, rest, rfl⟩ := List.append_of_mem mx
  rcases List.mem_append.mp my with m | m
  · exact Or.inr ((List.singleton_sublist.mpr m).append
      (List.singleton_sublist.mpr List.mem_cons_self))
  · have m : y ∈ rest := (List.mem_cons.mp m).resolve_left (Ne.symm other)
    exact Or.inl (((List.singleton_sublist.mpr m).cons_cons x).trans
      (List.sublist_append_right front _))

end Keyed

end Detouring
