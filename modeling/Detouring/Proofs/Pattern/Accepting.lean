-- Which lists of items of 16 bits make a pattern, and what the pattern keeps of them: the numbers
-- that are recorded are those of the list, and the segments that take bytes are its items that do,
-- in their order, whatever was merged, dropped or put in front on the way.
import Detouring.Proofs.Pattern.Findings
import Mathlib.Data.List.Forall2

namespace Detouring

namespace PatternItem

/-! ## Items of 16 bits -/

def anyCode : UInt16 := 0xff00

def anyRepeatingCode : UInt16 := 0xff01

def addressCode : UInt16 := 0xff02

/-- An item whose high byte is full is one of the three special ones. -/
def Known (code : UInt16) : Prop :=
  code >>> 8 = 0xff → code = anyCode ∨ code = anyRepeatingCode ∨ code = addressCode

instance (code : UInt16) : Decidable (Known code) := by
  unfold Known
  infer_instance

section

variable {code code' : UInt16}

/-- The two bytes of an item are all there is to it. -/
theorem code_ext (high : code >>> 8 = code' >>> 8) (low : code.toUInt8 = code'.toUInt8) :
    code = code' := by
  have high' := congrArg UInt16.toNat high
  have low' := congrArg UInt8.toNat low
  simp only [UInt16.toNat_shiftRight, UInt16.toNat_toUInt8] at high' low'
  refine UInt16.toNat_inj.mp ?_
  simp [Nat.shiftRight_eq_div_pow] at high'
  omega

theorem toUInt8_high : (code >>> 8).toUInt8 = 0xff ↔ code >>> 8 = 0xff := by
  have within := code.toNat_lt
  simp only [← UInt8.toNat_inj, ← UInt16.toNat_inj, UInt16.toNat_toUInt8,
    UInt16.toNat_shiftRight]
  simp [Nat.shiftRight_eq_div_pow]
  omega

/-- An item with a full high byte is read by its low byte. -/
theorem ofCode_full (full : code >>> 8 = 0xff) : ofCode code = ofMask 0 code.toUInt8 := by
  rw [ofCode, toUInt8_high.mpr full]
  rfl

/-- An item without a full high byte is a literal or is masked. -/
theorem ofCode_plain (plain : code >>> 8 ≠ 0xff) :
    ∃ item, ofCode code = .ok item ∧ (item.sort = .literal ∨ item.sort = .masked) := by
  have high := mt toUInt8_high.mp plain
  rw [ofCode]
  by_cases none : (code >>> 8).toUInt8 = 0
  · rw [if_pos none]
    exact ⟨.literal code.toUInt8, rfl, Or.inl rfl⟩
  · simp only [if_neg none, if_neg high, ofMask]
    exact ⟨.masked _ _, rfl, Or.inr rfl⟩

/-- What an item of 16 bits is read as. -/
theorem ofCode_cases (code : UInt16) :
    code = anyCode ∧ ofCode code = .ok .any ∨
    code = anyRepeatingCode ∧ ofCode code = .ok .anyRepeating ∨
    code = addressCode ∧ ofCode code = .ok .address ∨
    code >>> 8 ≠ 0xff ∧ (∃ item, ofCode code = .ok item ∧
      (item.sort = .literal ∨ item.sort = .masked)) ∨
    ¬ Known code ∧ ∃ e, ofCode code = .error e := by
  by_cases full : code >>> 8 = 0xff
  · have special (c : UInt16) (high : c >>> 8 = 0xff) : code = c ↔ code.toUInt8 = c.toUInt8 :=
      ⟨congrArg _, code_ext (full.trans high.symm)⟩
    have known : Known code ↔ code.toUInt8 = 0 ∨ code.toUInt8 = 1 ∨ code.toUInt8 = 2 := by
      simp only [Known, full, true_implies, special anyCode rfl, special anyRepeatingCode rfl,
        special addressCode rfl]
      rfl
    rw [known, special anyCode rfl, special anyRepeatingCode rfl, special addressCode rfl,
      ofCode_full full]
    by_cases any : code.toUInt8 = 0
    · exact Or.inl ⟨any, by rw [any]; rfl⟩
    by_cases repeating : code.toUInt8 = 1
    · exact Or.inr (Or.inl ⟨repeating, by rw [repeating]; rfl⟩)
    by_cases address : code.toUInt8 = 2
    · exact Or.inr (Or.inr (Or.inl ⟨address, by rw [address]; rfl⟩))
    refine Or.inr (Or.inr (Or.inr (Or.inr ⟨by simp [any, repeating, address], ?_⟩)))
    simp only [ofMask, if_pos, if_neg any, if_neg repeating, if_neg address]
    exact ⟨_, rfl⟩
  · exact Or.inr (Or.inr (Or.inr (Or.inl ⟨full, ofCode_plain full⟩)))

/-- An item is read if it is known or has no full high byte, and is refused otherwise. -/
theorem exists_ofCode_iff : (∃ item, ofCode code = .ok item) ↔ Known code := by
  rcases ofCode_cases code with ⟨rfl, read⟩ | ⟨rfl, read⟩ | ⟨rfl, read⟩ |
    ⟨plain, item, read, -⟩ | ⟨unknown, e, read⟩
  · exact iff_of_true ⟨_, read⟩ (by decide)
  · exact iff_of_true ⟨_, read⟩ (by decide)
  · exact iff_of_true ⟨_, read⟩ (by decide)
  · exact iff_of_true ⟨_, read⟩ fun full => absurd full plain
  · refine iff_of_false ?_ unknown
    rintro ⟨item, other⟩
    rw [read] at other
    cases other

/-- Of the items that are read, one is any-repeating and one is an address. -/
theorem sort_of_ofCode {item : PatternItem} (read : ofCode code = .ok item) :
    (item = .anyRepeating ↔ code = anyRepeatingCode) ∧
      (item.sort = .address ↔ code = addressCode) := by
  rcases ofCode_cases code with ⟨rfl, this⟩ | ⟨rfl, this⟩ | ⟨rfl, this⟩ |
    ⟨plain, item, this, sort⟩ | ⟨unknown, e, this⟩
  all_goals
    rw [this] at read
    cases read
  case inr.inr.inr.inl =>
    constructor
    · refine iff_of_false ?_ ?_
      · rintro rfl
        rcases sort with sort | sort <;> cases sort
      · rintro rfl
        exact plain rfl
    · refine iff_of_false ?_ ?_
      · intro address
        rcases sort with sort | sort <;> rw [sort] at address <;> cases address
      · rintro rfl
        exact plain rfl
  all_goals decide

end

/-! ## Lists of items -/

/-- A list is read item by item. -/
theorem mapM_eq_ok_iff {α β ε : Type} {f : α → Except ε β} {l : List α} {l' : List β} :
    l.mapM f = .ok l' ↔ List.Forall₂ (fun a b => f a = .ok b) l l' := by
  induction l generalizing l' with
  | nil => cases l' <;> simp [pure, Except.pure]
  | cons a l ih =>
    rw [List.mapM_cons]
    rcases first : f a with e | b
    · cases l' <;> simp [bind, Except.bind, first]
    · rcases rest : l.mapM f with e | bs
      · cases l' <;> simp [bind, Except.bind, first, rest, ← ih]
      · cases l' <;> simp [bind, Except.bind, pure, Except.pure, first, rest, ← ih]

/-- The items that the codes are read as. -/
abbrev Reads (codes : List UInt16) (items : List PatternItem) : Prop :=
  List.Forall₂ (fun code item => ofCode code = .ok item) codes items

theorem exists_reads_iff {codes : List UInt16} :
    (∃ items, Reads codes items) ↔ ∀ code ∈ codes, Known code := by
  induction codes with
  | nil => simp
  | cons code rest ih =>
    rw [List.forall_mem_cons, ← ih, ← exists_ofCode_iff]
    constructor
    · rintro ⟨items, _ | ⟨read, reads⟩⟩
      exact ⟨⟨_, read⟩, _, reads⟩
    · rintro ⟨⟨item, read⟩, items, reads⟩
      exact ⟨item :: items, .cons read reads⟩

namespace Reads

variable {codes : List UInt16} {items : List PatternItem}

/-- Whether an item is any-repeating shows in its code, and so the others stand in the same
order in both lists. -/
theorem others (h : Reads codes items) :
    Reads (codes.filter (· ≠ anyRepeatingCode)) (items.filter (· ≠ .anyRepeating)) := by
  induction h with
  | nil => exact .nil
  | @cons code item codes items read _ ih =>
    by_cases repeating : code = anyRepeatingCode
    · simpa [repeating, (sort_of_ofCode read).1.mpr repeating] using ih
    · have other := mt (sort_of_ofCode read).1.mp repeating
      rw [List.filter_cons_of_pos (by simpa using repeating),
        List.filter_cons_of_pos (by simpa using other)]
      exact .cons read ih

theorem count_address (h : Reads codes items) :
    items.countP (·.sort = .address) = codes.count addressCode := by
  induction h with
  | nil => rfl
  | cons read _ ih => simp [List.countP_cons, List.count_cons, ih, (sort_of_ofCode read).2]

end Reads

/-- Every item but an any-repeating one takes at least a byte. -/
theorem sumOf_minLength (items : List PatternItem) :
    sumOf minLength items = (items.filter (· ≠ .anyRepeating)).length := by
  induction items with
  | nil => rfl
  | cons item rest ih =>
    by_cases repeating : item = .anyRepeating
    · simp [repeating, minLength, ih]
    · have one : item.minLength = 1 := by
        cases item <;> first | rfl | exact absurd rfl repeating
      simp [repeating, one, ih]
      omega

end PatternItem

namespace Segment

/-! ## The segments that take bytes -/

/-- The segments of a fixed length, in order. -/
def fixed (segments : List Segment) : List Segment := segments.filter (·.sort ≠ .anyRepeating)

@[simp] theorem fixed_nil : fixed [] = [] := rfl

@[simp] theorem fixed_append (l l' : List Segment) : fixed (l ++ l') = fixed l ++ fixed l' :=
  List.filter_append ..

/-- Only an any-repeating segment gives way to another. -/
theorem fixed_settle (segments : List Segment) :
    fixed (settle segments).reverse = fixed segments.reverse := by
  fun_cases settle segments
  case case1 last previous rest h => simp [fixed, List.filter_cons, h.2]
  case case2 => rfl
  case case3 => rfl

theorem fixed_dropTrailing (segments : List Segment) :
    fixed (dropTrailing segments).reverse = fixed segments.reverse := by
  fun_cases dropTrailing segments
  case case1 last rest repeating => simp [fixed, repeating]
  case case2 => rfl
  case case3 => rfl

/-- An item that takes bytes comes last among those that do, in a segment of its own or at the
end of the newest. -/
theorem flatten_fixed_addItem (segments : List Segment) (item : PatternItem) :
    flatten (fixed (addItem segments item).reverse) =
      flatten (fixed segments.reverse) ++ [item].filter (· ≠ .anyRepeating) := by
  have alone : flatten (fixed [⟨item.sort, [item]⟩]) = [item].filter (· ≠ .anyRepeating) := by
    by_cases repeating : item = .anyRepeating
    · simp [fixed, repeating, PatternItem.sort]
    · simp [fixed, repeating, PatternItem.sort_eq_anyRepeating]
  fun_cases addItem segments item
  case case1 repeating =>
    obtain rfl := PatternItem.sort_eq_anyRepeating.mp repeating
    rfl
  case case2 other => simpa using alone
  case case3 last rest same =>
    by_cases repeating : item = .anyRepeating
    · have last : last.sort = .anyRepeating :=
        same.trans (PatternItem.sort_eq_anyRepeating.mpr repeating)
      simp [fixed, repeating, last]
    · have last : last.sort ≠ .anyRepeating :=
        fun h => repeating (PatternItem.sort_eq_anyRepeating.mp (same.symm.trans h))
      simp [fixed, repeating, last]
  case case4 last rest other =>
    rw [List.reverse_cons, fixed_append, flatten_append, fixed_settle, alone]

/-- The segments of a fixed length hold the items that take bytes, in order. -/
theorem flatten_fixed_ofItems (items : List PatternItem) :
    flatten (fixed (ofItems items)) = items.filter (· ≠ .anyRepeating) := by
  rw [ofItems, fixed_dropTrailing, fixed_settle]
  refine foldl_addItem (P := fun segments items =>
    flatten (fixed segments.reverse) = items.filter (· ≠ .anyRepeating)) rfl ?_ items
  intro segments items item ih
  rw [flatten_fixed_addItem, ih, List.filter_append]

end Segment

namespace Pattern

open PatternItem

/-! ## The lists that make a pattern -/

/-- A list of items is accepted if one of them takes bytes and no more than eight are captured. -/
theorem exists_ofItems_iff {rule : AddressRule} {anchored : Bool} {items : List PatternItem} :
    (∃ p, ofItems rule anchored items = .ok p) ↔
      items.filter (· ≠ .anyRepeating) ≠ [] ∧
        items.countP (·.sort = .address) ≤ addressCapacity := by
  constructor
  · rintro ⟨p, made⟩
    obtain ⟨accepted, rfl⟩ := accepted_of_ofItems made
    obtain ⟨-, -, takes, few⟩ := accepted_iff.mp accepted
    rw [minLength, sumOf_minLength, List.length_pos_iff] at takes
    exact ⟨takes, few⟩
  · rintro ⟨takes, few⟩
    let p : Pattern := ⟨items, Segment.ofItems items, rule, anchored⟩
    have some : p.segments ≠ [] := by
      intro none
      rw [← Segment.flatten_fixed_ofItems] at takes
      exact takes (congrArg (fun s => Segment.flatten (Segment.fixed s)) none)
    have long : 0 < p.minLength := by
      rw [minLength, sumOf_minLength]
      exact List.length_pos_iff.mpr takes
    exact ⟨p, accepted_iff.mpr ⟨rfl, some, long, few⟩⟩

theorem exists_ofCodes_iff {rule : AddressRule} {anchored : Bool} {codes : List UInt16} :
    (∃ p, ofCodes rule anchored codes = .ok p) ↔
      ∃ items, Reads codes items ∧ ∃ p, ofItems rule anchored items = .ok p := by
  constructor
  · rintro ⟨p, made⟩
    obtain ⟨-, read⟩ := accepted_of_ofCodes made
    rw [ofCodes, read] at made
    exact ⟨p.items, mapM_eq_ok_iff.mp read, p, made⟩
  · rintro ⟨items, reads, p, made⟩
    refine ⟨p, ?_⟩
    rw [ofCodes, mapM_eq_ok_iff.mpr reads]
    exact made

/-- A list of items makes a pattern exactly if one of them is not any-repeating, every one whose
high byte is full is a special item, and no more than eight are address items. The numbers of the
pattern are then those of the list, and its segments of a fixed length are the items that are
not any-repeating, in their order. -/
theorem a_pattern_keeps_the_items_of_its_list (rule : AddressRule) (anchored : Bool)
    (codes : List UInt16) :
    ((∃ p, ofCodes rule anchored codes = .ok p) ↔
      (∃ code ∈ codes, code ≠ anyRepeatingCode) ∧ (∀ code ∈ codes, Known code) ∧
        codes.count addressCode ≤ 8) ∧
    ∀ p, ofCodes rule anchored codes = .ok p →
      p.minLength = codes.countP (· ≠ anyRepeatingCode) ∧
      p.addressBytes = codes.count addressCode ∧
      List.Forall₂ (fun code item => ofCode code = .ok item)
        (codes.filter (· ≠ anyRepeatingCode)) (Segment.flatten (Segment.fixed p.segments)) := by
  constructor
  · rw [exists_ofCodes_iff]
    simp only [exists_ofItems_iff]
    constructor
    · rintro ⟨items, reads, takes, few⟩
      have takes : codes.filter (· ≠ anyRepeatingCode) ≠ [] :=
        fun none => takes (List.forall₂_nil_left_iff.mp (none ▸ reads.others))
      obtain ⟨code, m⟩ := List.exists_mem_of_ne_nil _ takes
      obtain ⟨m, other⟩ := List.mem_filter.mp m
      refine ⟨⟨code, m, by simpa using other⟩, exists_reads_iff.mp ⟨items, reads⟩, ?_⟩
      exact reads.count_address ▸ few
    · rintro ⟨⟨code, m, other⟩, known, few⟩
      obtain ⟨items, reads⟩ := exists_reads_iff.mpr known
      refine ⟨items, reads, fun none => ?_, reads.count_address ▸ few⟩
      have none := List.forall₂_nil_right_iff.mp (none ▸ reads.others)
      exact List.filter_eq_nil_iff.mp none code m (by simpa using other)
  · intro p made
    obtain ⟨accepted, read⟩ := accepted_of_ofCodes made
    have reads : Reads codes p.items := mapM_eq_ok_iff.mp read
    refine ⟨?_, reads.count_address, ?_⟩
    · rw [minLength, sumOf_minLength, ← reads.others.length_eq, List.countP_eq_length_filter]
    · rw [(accepted_iff.mp accepted).1, Segment.flatten_fixed_ofItems]
      exact reads.others

/-- A list with an any-repeating item at its start and another that gives way to `any`. -/
theorem a_gap_gives_way_and_the_items_stay :
    ∃ p, ofCodes ⟨.abs64, 0⟩ false [0xff01, 0xaa, 0xff01, 0xff00, 0xff02, 0x0f13] = .ok p ∧
      p.minLength = 4 ∧ p.addressBytes = 1 ∧ Segment.flatten (Segment.fixed p.segments) =
        [.literal 0xaa, .any, .address, .masked 0x0f 0x03] := by
  obtain ⟨accepted, kept⟩ := a_pattern_keeps_the_items_of_its_list ⟨.abs64, 0⟩ false
    [0xff01, 0xaa, 0xff01, 0xff00, 0xff02, 0x0f13]
  obtain ⟨p, made⟩ := accepted.mpr
    ⟨⟨0xaa, by decide, by decide⟩, exists_reads_iff.mp ⟨_, mapM_eq_ok_iff.mp rfl⟩, by decide⟩
  obtain ⟨long, caught, reads⟩ := kept p made
  exact ⟨p, made, long, caught, Except.ok.inj (mapM_eq_ok_iff.mpr reads).symm⟩

end Pattern

end Detouring
