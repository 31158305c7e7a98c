-- How the items of a pattern share out bytes among themselves. The rules here know nothing of
-- segments or of a search: they say what a match is, and a matcher has to keep to them.
import Detouring.Pattern.Basic
import Mathlib.Data.List.DropRight

namespace Detouring

/-- The items take the bytes in order, with none left over: a literal its own byte, a masked item
a byte that is equal under the mask, `any` and `address` one byte each, and an any-repeating item
as many as it likes. `caught` are the bytes that fall on the address items. -/
inductive Splits : (items : List PatternItem) → (bytes caught : List UInt8) → Prop
  | nil : Splits [] [] []
  | literal {items bytes caught} (value : UInt8) :
      Splits items bytes caught → Splits (.literal value :: items) (value :: bytes) caught
  | masked {items bytes caught} {mask value b : UInt8} (equal : b &&& mask = value &&& mask) :
      Splits items bytes caught → Splits (.masked mask value :: items) (b :: bytes) caught
  | any {items bytes caught} (b : UInt8) :
      Splits items bytes caught → Splits (.any :: items) (b :: bytes) caught
  | address {items bytes caught} (b : UInt8) :
      Splits items bytes caught → Splits (.address :: items) (b :: bytes) (b :: caught)
  | anyRepeating {items bytes caught} (run : List UInt8) :
      Splits items bytes caught → Splits (.anyRepeating :: items) (run ++ bytes) caught

namespace PatternItem

theorem sort_eq_anyRepeating {item : PatternItem} :
    item.sort = .anyRepeating ↔ item = .anyRepeating := by
  cases item <;> simp [sort]

/-- The items without the any-repeating ones at either end. -/
def trimmed (items : List PatternItem) : List PatternItem :=
  (items.dropWhile (· = .anyRepeating)).rdropWhile (· = .anyRepeating)

theorem accepts_masked {mask value b : UInt8} :
    (masked mask value).accepts b = true ↔ b &&& mask = value &&& mask := by
  have spread : (value ^^^ b) &&& mask = (value &&& mask) ^^^ (b &&& mask) :=
    UInt8.toNat_inj.mp (by simp [Nat.and_xor_distrib_right])
  simp only [accepts, spread, beq_iff_eq, UInt8.xor_eq_zero_iff]
  exact eq_comm

/-- The items as any-repeating ones at the front, others in the middle, and any-repeating ones at
the end. -/
theorem trimmed_between (items : List PatternItem) :
    ∃ lead trail, items = lead ++ trimmed items ++ trail ∧
      (∀ i ∈ lead, i = .anyRepeating) ∧ (∀ i ∈ trail, i = .anyRepeating) := by
  refine ⟨items.takeWhile (· = .anyRepeating),
    (items.dropWhile (· = .anyRepeating)).rtakeWhile (· = .anyRepeating), ?_, ?_, ?_⟩
  · rw [trimmed, List.append_assoc, List.rdropWhile_append_rtakeWhile,
      List.takeWhile_append_dropWhile]
  · exact fun i m => by simpa using List.mem_takeWhile_imp m
  · exact fun i m => by simpa using List.mem_rtakeWhile_imp m

/-- Items that are left after trimming begin and end with one that takes a byte. -/
theorem trimmed_head {items rest : List PatternItem} {item : PatternItem}
    (h : trimmed items = item :: rest) : item ≠ .anyRepeating := by
  have front : trimmed items <+: items.dropWhile (· = .anyRepeating) :=
    List.rdropWhile_prefix _ _
  obtain ⟨more, whole⟩ := h ▸ front
  have first := List.head?_dropWhile_not (· = PatternItem.anyRepeating) items
  rw [← whole] at first
  simpa using first

theorem trimmed_last {items rest : List PatternItem} {item : PatternItem}
    (h : trimmed items = rest ++ [item]) : item ≠ .anyRepeating := by
  have some : trimmed items ≠ [] := by simp [h]
  have last : ¬ decide ((trimmed items).getLast some = .anyRepeating) :=
    List.rdropWhile_last_not _ _ some
  simpa [h] using last

/-- What is trimmed takes no byte of its own and captures none. -/
theorem sumOf_trimmed (items : List PatternItem) :
    sumOf minLength (trimmed items) = sumOf minLength items := by
  obtain ⟨lead, trail, whole, leading, trailing⟩ := trimmed_between items
  have none (l : List PatternItem) (all : ∀ i ∈ l, i = .anyRepeating) : sumOf minLength l = 0 :=
    sumOf_eq_zero _ fun i m => by simp [all i m, minLength]
  conv_rhs => rw [whole]
  simp [none lead leading, none trail trailing]

theorem countP_trimmed (items : List PatternItem) :
    (trimmed items).countP (·.sort = .address) = items.countP (·.sort = .address) := by
  obtain ⟨lead, trail, whole, leading, trailing⟩ := trimmed_between items
  have none (l : List PatternItem) (all : ∀ i ∈ l, i = .anyRepeating) :
      l.countP (·.sort = .address) = 0 :=
    List.countP_eq_zero.mpr fun i m => by simp [all i m, sort]
  conv_rhs => rw [whole]
  simp only [List.countP_append, none lead leading, none trail trailing]
  omega

end PatternItem

namespace Splits

variable {items items' : List PatternItem} {bytes bytes' caught caught' : List UInt8}

theorem append (h : Splits items bytes caught) (h' : Splits items' bytes' caught') :
    Splits (items ++ items') (bytes ++ bytes') (caught ++ caught') := by
  induction h with
  | nil => exact h'
  | literal value _ ih => exact .literal value ih
  | masked equal _ ih => exact .masked equal ih
  | any b _ ih => exact .any b ih
  | address b _ ih => exact .address b ih
  | anyRepeating run _ ih =>
    rw [List.append_assoc]
    exact .anyRepeating run ih

theorem append_iff : Splits (items ++ items') bytes caught ↔ ∃ b b' c c',
    bytes = b ++ b' ∧ caught = c ++ c' ∧ Splits items b c ∧ Splits items' b' c' := by
  constructor
  · intro h
    induction items generalizing bytes caught with
    | nil => exact ⟨[], bytes, [], caught, rfl, rfl, .nil, h⟩
    | cons item rest ih =>
      cases h with
      | literal value h =>
        obtain ⟨b, b', c, c', rfl, rfl, first, second⟩ := ih h
        exact ⟨_ :: b, b', c, c', rfl, rfl, .literal value first, second⟩
      | masked equal h =>
        obtain ⟨b, b', c, c', rfl, rfl, first, second⟩ := ih h
        exact ⟨_ :: b, b', c, c', rfl, rfl, .masked equal first, second⟩
      | any x h =>
        obtain ⟨b, b', c, c', rfl, rfl, first, second⟩ := ih h
        exact ⟨x :: b, b', c, c', rfl, rfl, .any x first, second⟩
      | address x h =>
        obtain ⟨b, b', c, c', rfl, rfl, first, second⟩ := ih h
        exact ⟨x :: b, b', x :: c, c', rfl, rfl, .address x first, second⟩
      | anyRepeating run h =>
        obtain ⟨b, b', c, c', rfl, rfl, first, second⟩ := ih h
        exact ⟨run ++ b, b', c, c', (List.append_assoc ..).symm, rfl,
          .anyRepeating run first, second⟩
  · rintro ⟨b, b', c, c', rfl, rfl, first, second⟩
    exact first.append second

theorem minLength_le (h : Splits items bytes caught) :
    sumOf PatternItem.minLength items ≤ bytes.length := by
  induction h <;> simp [PatternItem.minLength] at * <;> omega

theorem length_caught (h : Splits items bytes caught) :
    caught.length = items.countP (·.sort = .address) := by
  induction h <;> simp_all [PatternItem.sort]

/-- An item that takes one byte takes one that it accepts. -/
theorem cons_iff {item : PatternItem} (fixed : item ≠ .anyRepeating) :
    Splits (item :: items) bytes caught ↔ ∃ b bytes' caught', bytes = b :: bytes' ∧
      item.accepts b = true ∧ Splits items bytes' caught' ∧
      caught = if item.sort = .address then b :: caught' else caught' := by
  constructor
  · intro h
    cases h with
    | literal value h => exact ⟨_, _, _, rfl, by simp [PatternItem.accepts], h, rfl⟩
    | masked equal h => exact ⟨_, _, _, rfl, PatternItem.accepts_masked.mpr equal, h, rfl⟩
    | any b h => exact ⟨_, _, _, rfl, rfl, h, rfl⟩
    | address b h => exact ⟨_, _, _, rfl, rfl, h, rfl⟩
    | anyRepeating run h => exact absurd rfl fixed
  · rintro ⟨b, bytes', caught', rfl, accepts, h, rfl⟩
    cases item with
    | literal value =>
      obtain rfl : value = b := by simpa [PatternItem.accepts] using accepts
      exact .literal value h
    | masked mask value => exact .masked (PatternItem.accepts_masked.mp accepts) h
    | any => exact .any b h
    | address => exact .address b h
    | anyRepeating => exact absurd rfl fixed

/-! ## Any-repeating items -/

/-- Any-repeating items take any bytes, and may take none. -/
theorem of_repeating (all : ∀ i ∈ items, i = .anyRepeating) : Splits items [] [] := by
  induction items with
  | nil => exact .nil
  | cons item rest ih =>
    obtain rfl := all item List.mem_cons_self
    exact .anyRepeating [] (ih fun i m => all i (List.mem_cons_of_mem _ m))

theorem repeating_iff (some : items ≠ []) (all : ∀ i ∈ items, i = .anyRepeating) :
    Splits items bytes caught ↔ caught = [] := by
  constructor
  · intro h
    have none : items.countP (·.sort = .address) = 0 := by
      rw [List.countP_eq_zero]
      intro i m
      simp [all i m, PatternItem.sort]
    exact List.length_eq_zero_iff.mp (h.length_caught.trans none)
  · rintro rfl
    obtain ⟨item, rest, rfl⟩ := List.exists_cons_of_ne_nil some
    obtain rfl := all item List.mem_cons_self
    have := of_repeating fun i m => all i (List.mem_cons_of_mem _ m)
    simpa using this.anyRepeating bytes

end Splits

end Detouring
