-- Things kept under names, in the order in which the names were first used.

namespace Detouring

abbrev Named (α : Type) := List (String × α)

namespace Named

variable {α : Type}

def get? (t : Named α) (name : String) : Option α :=
  (t.find? (·.1 == name)).map Prod.snd

def contains (t : Named α) (name : String) : Bool := t.any (·.1 == name)

/-- Keeps a thing under a name; what was there before is replaced. -/
def put (t : Named α) (name : String) (x : α) : Named α :=
  if t.contains name then t.map fun (n, y) => (n, if n = name then x else y)
  else t ++ [(name, x)]

def erase (t : Named α) (name : String) : Named α := t.filter (·.1 != name)

/-! ## Laws -/

theorem contains_eq (t : Named α) (name : String) : t.contains name = (t.get? name).isSome := by
  rw [contains, get?, Option.isSome_map, Bool.eq_iff_iff, List.find?_isSome]
  simp

theorem get?_erase_self (t : Named α) (name : String) : (t.erase name).get? name = none := by
  simp [erase, get?, List.find?_eq_none]

theorem get?_put_self (t : Named α) (name : String) (x : α) :
    (t.put name x).get? name = some x := by
  unfold put get?
  split
  · rename_i h
    simp only [contains, List.any_eq_true, beq_iff_eq] at h
    induction t with
    | nil => simp at h
    | cons e rest ih =>
      by_cases same : e.1 = name
      · simp [same]
      · have : ∃ y ∈ rest, y.1 = name := by
          obtain ⟨y, member, hy⟩ := h
          rcases List.mem_cons.mp member with rfl | later
          · exact absurd hy same
          · exact ⟨y, later, hy⟩
        simpa [same] using ih this
  · rename_i h
    have : t.find? (·.1 == name) = none := by
      rw [List.find?_eq_none]
      intro e member same
      exact h (List.any_eq_true.mpr ⟨e, member, same⟩)
    simp [List.find?_append, this]

end Named

end Detouring
