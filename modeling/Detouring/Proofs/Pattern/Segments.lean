-- The segments of a pattern are its items: laid end to end they ask for what the trimmed items
-- ask for, though an `any` segment may have changed places with an any-repeating one.
import Detouring.Pattern.Matching
import Detouring.Proofs.Pattern.Splitting

namespace Detouring

/-! ## Items that ask for the same -/

namespace PatternItem

/-- The items without those that take one byte of any value. -/
def marks (items : List PatternItem) : List PatternItem := items.filter (·.sort ≠ .any)

@[simp] theorem marks_append (l l' : List PatternItem) : marks (l ++ l') = marks l ++ marks l' :=
  List.filter_append ..

end PatternItem

/-- Two lists of items that split the same bytes in the same ways, and that are one list where
`any` is left out. -/
structure Alike (l l' : List PatternItem) : Prop where
  splits : ∀ bytes caught, Splits l bytes caught ↔ Splits l' bytes caught
  marks : PatternItem.marks l = PatternItem.marks l'

namespace Alike

variable {l l' l'' m m' : List PatternItem}

theorem refl (l : List PatternItem) : Alike l l := ⟨fun _ _ => Iff.rfl, rfl⟩

theorem trans (h : Alike l l') (h' : Alike l' l'') : Alike l l'' :=
  ⟨fun b c => (h.splits b c).trans (h'.splits b c), h.marks.trans h'.marks⟩

theorem append (h : Alike l l') (h' : Alike m m') : Alike (l ++ m) (l' ++ m') := by
  refine ⟨fun bytes caught => ?_, ?_⟩
  · rw [Splits.append_iff, Splits.append_iff]
    simp only [h.splits, h'.splits]
  · rw [PatternItem.marks_append, PatternItem.marks_append, h.marks, h'.marks]

theorem countP_address (h : Alike l l') :
    l.countP (·.sort = .address) = l'.countP (·.sort = .address) := by
  have unmarked (items : List PatternItem) : items.countP (·.sort = .address) =
      (PatternItem.marks items).countP (·.sort = .address) := by
    rw [PatternItem.marks, List.countP_filter]
    refine List.countP_congr fun i _ => ?_
    by_cases a : i.sort = .address <;> simp [a]
  rw [unmarked l, h.marks, ← unmarked l']

end Alike

namespace Segment

/-! ## Segments of one sort -/

/-- A segment holds items, and all of its own sort. -/
structure Uniform (s : Segment) : Prop where
  some : s.items ≠ []
  same : ∀ i ∈ s.items, i.sort = s.sort

/-- The items of all segments, end to end. -/
def flatten (segments : List Segment) : List PatternItem := segments.flatMap items

@[simp] theorem flatten_nil : flatten [] = [] := rfl

@[simp] theorem flatten_cons (s : Segment) (rest : List Segment) :
    flatten (s :: rest) = s.items ++ flatten rest := rfl

@[simp] theorem flatten_append (l l' : List Segment) :
    flatten (l ++ l') = flatten l ++ flatten l' := List.flatMap_append

namespace Uniform

variable {s s' : Segment} {bytes caught : List UInt8}

theorem repeating (u : s.Uniform) (h : s.sort = .anyRepeating) :
    ∀ i ∈ s.items, i = .anyRepeating :=
  fun i m => PatternItem.sort_eq_anyRepeating.mp ((u.same i m).trans h)

theorem sort_mem (u : s.Uniform) : s.sort ∈ s.items.map PatternItem.sort := by
  obtain ⟨item, m⟩ := List.exists_mem_of_ne_nil _ u.some
  exact List.mem_map.mpr ⟨item, m, u.same item m⟩

theorem none_of (u : s.Uniform) {sort : ItemSort} (h : s.sort ≠ sort) :
    ∀ i ∈ s.items, i.sort ≠ sort :=
  fun i m e => h (u.same i m ▸ e)

/-- A segment whose items take one byte each takes as many bytes as it has items. -/
theorem splits_iff (u : s.Uniform) (fixed : s.sort ≠ .anyRepeating) :
    Splits s.items bytes caught ↔ bytes.length = s.length ∧
      Pattern.itemsAccept s.items bytes = true ∧
      caught = if s.sort = .address then bytes else [] := by
  obtain ⟨sort, items⟩ := s
  have same := u.same
  clear u
  simp only [length, Pattern.itemsAccept] at *
  induction items generalizing bytes caught with
  | nil =>
    constructor
    · intro h
      cases h
      simp
    · rintro ⟨empty, -, rfl⟩
      obtain rfl := List.length_eq_zero_iff.mp empty
      simpa using Splits.nil
  | cons item rest ih =>
    obtain rfl : item.sort = sort := same item List.mem_cons_self
    have one : item ≠ .anyRepeating := by
      rintro rfl
      exact fixed rfl
    rw [Splits.cons_iff one]
    constructor
    · rintro ⟨b, bytes', caught', rfl, accepts, h, rfl⟩
      obtain ⟨many, all, rfl⟩ := (ih fun i m => same i (List.mem_cons_of_mem _ m)).mp h
      refine ⟨by simp [many], by simp_all, ?_⟩
      split <;> rfl
    · rintro ⟨many, all, rfl⟩
      obtain ⟨b, bytes', rfl⟩ := List.exists_cons_of_length_eq_add_one many
      simp only [List.zip_cons_cons, List.all_cons, Bool.and_eq_true] at all
      refine ⟨b, bytes', _, rfl, all.1,
        (ih fun i m => same i (List.mem_cons_of_mem _ m)).mpr ⟨by simpa using many, all.2, rfl⟩, ?_⟩
      split <;> rfl

/-- Items that take any byte accept every byte. -/
theorem accepts (u : s.Uniform) (free : s.sort = .any ∨ s.sort = .address) :
    Pattern.itemsAccept s.items bytes = true := by
  rw [Pattern.itemsAccept, List.all_eq_true]
  rintro ⟨item, b⟩ m
  rw [← u.same item (List.of_mem_zip m).1] at free
  cases item <;> simp_all [PatternItem.sort, PatternItem.accepts]

theorem any_iff (u : s.Uniform) (h : s.sort = .any) :
    Splits s.items bytes caught ↔ bytes.length = s.length ∧ caught = [] := by
  rw [u.splits_iff (by simp [h])]
  simp [u.accepts (Or.inl h), h]

/-- Bytes of any value and any number of bytes may come in either order. -/
theorem alike_swap (u : s.Uniform) (u' : s'.Uniform) (h : s.sort = .any)
    (h' : s'.sort = .anyRepeating) : Alike (s.items ++ s'.items) (s'.items ++ s.items) := by
  refine ⟨fun bytes caught => ?_, ?_⟩
  · simp only [Splits.append_iff, u.any_iff h, Splits.repeating_iff u'.some (u'.repeating h')]
    constructor
    · rintro ⟨b, b', _, _, rfl, rfl, ⟨many, rfl⟩, rfl⟩
      refine ⟨(b ++ b').take b'.length, (b ++ b').drop b'.length, [], [], ?_, rfl, rfl, ?_, rfl⟩
      · exact (List.take_append_drop ..).symm
      · simp [many]
    · rintro ⟨b, b', _, _, rfl, rfl, rfl, many, rfl⟩
      refine ⟨(b ++ b').take b'.length, (b ++ b').drop b'.length, [], [], ?_, rfl, ⟨?_, rfl⟩, rfl⟩
      · exact (List.take_append_drop ..).symm
      · simp [many]
  · have none : PatternItem.marks s.items = [] := by
      rw [PatternItem.marks, List.filter_eq_nil_iff]
      intro i m
      simp [u.same i m, h]
    simp [none]

end Uniform

/-- Every segment is uniform. -/
def AllUniform (segments : List Segment) : Prop := ∀ s ∈ segments, s.Uniform

namespace AllUniform

variable {s : Segment} {rest : List Segment}

theorem head (u : AllUniform (s :: rest)) : s.Uniform := u s List.mem_cons_self

theorem tail (u : AllUniform (s :: rest)) : AllUniform rest :=
  fun t m => u t (List.mem_cons_of_mem _ m)

end AllUniform

/-! ## Building the segments -/

theorem mem_settle {s : Segment} {segments : List Segment} :
    s ∈ settle segments ↔ s ∈ segments := by
  fun_cases settle segments
  · simp only [List.mem_cons, or_left_comm]
  · rfl
  · rfl

theorem settle_eq_nil {segments : List Segment} : settle segments = [] ↔ segments = [] := by
  simp only [List.eq_nil_iff_forall_not_mem, mem_settle]

/-- Letting an `any` segment go first changes nothing of what is asked for. -/
theorem alike_settle {segments : List Segment} (u : AllUniform segments) :
    Alike (flatten (settle segments).reverse) (flatten segments.reverse) := by
  fun_cases settle segments
  case case1 last previous rest h =>
    have swap := (u last (by simp)).alike_swap (u previous (by simp)) h.1 h.2
    simpa using (Alike.refl (flatten rest.reverse)).append swap
  case case2 => exact Alike.refl _
  case case3 => exact Alike.refl _

theorem uniform_addItem {segments : List Segment} (u : AllUniform segments) (item : PatternItem) :
    AllUniform (addItem segments item) := by
  have single : (Segment.mk item.sort [item]).Uniform := ⟨by simp, by simp⟩
  fun_cases addItem segments item
  case case1 => simp [AllUniform]
  case case2 => simpa [AllUniform] using single
  case case3 last rest same =>
    have ul := u last List.mem_cons_self
    intro s m
    rcases List.mem_cons.mp m with rfl | m
    · refine ⟨by simp, fun i mi => ?_⟩
      rcases List.mem_append.mp mi with mi | mi
      · exact ul.same i mi
      · rw [List.mem_singleton.mp mi, same]
    · exact u s (List.mem_cons_of_mem _ m)
  case case4 last rest other =>
    intro s m
    rcases List.mem_cons.mp m with rfl | m
    · exact single
    · exact u s (mem_settle.mp m)

/-- An item that is added asks for what it asks for behind the items before it, unless it is an
any-repeating one with none before it. -/
theorem alike_addItem {segments : List Segment} (u : AllUniform segments) {item : PatternItem}
    (kept : segments ≠ [] ∨ item ≠ .anyRepeating) :
    Alike (flatten (addItem segments item).reverse) (flatten segments.reverse ++ [item]) := by
  fun_cases addItem segments item
  case case1 repeating =>
    exact absurd (PatternItem.sort_eq_anyRepeating.mp repeating) (by simpa using kept)
  case case2 => exact Alike.refl _
  case case3 last rest same => simpa using Alike.refl _
  case case4 last rest other =>
    simpa using (alike_settle u).append (Alike.refl [item])

/-- The newest segment is of the sort of the item that was added last. -/
theorem head_addItem (segments : List Segment) (item : PatternItem)
    (kept : segments ≠ [] ∨ item ≠ .anyRepeating) :
    ∃ s rest, addItem segments item = s :: rest ∧ s.sort = item.sort := by
  fun_cases addItem segments item
  case case1 repeating =>
    exact absurd (PatternItem.sort_eq_anyRepeating.mp repeating) (by simpa using kept)
  case case2 => exact ⟨_, _, rfl, rfl⟩
  case case3 last rest same => exact ⟨_, _, rfl, same⟩
  case case4 last rest other => exact ⟨_, _, rfl, rfl⟩

/-- What holds where there are no items, and still holds when one more is added, holds of all. -/
theorem foldl_addItem {P : List Segment → List PatternItem → Prop} (start : P [] [])
    (step : ∀ segments items item, P segments items → P (addItem segments item) (items ++ [item]))
    (items : List PatternItem) : P (items.foldl addItem []) items := by
  induction items using List.reverseRecOn with
  | nil => exact start
  | append_singleton items item ih =>
    rw [List.foldl_concat]
    exact step _ _ item ih

/-- Segments, the newest first, that lay out the items. -/
structure LayOut (segments : List Segment) (items : List PatternItem) : Prop where
  some : segments ≠ []
  uniform : AllUniform segments
  alike : Alike (flatten segments.reverse) items

theorem LayOut.foldl {segments : List Segment} {items : List PatternItem}
    (h : LayOut segments items) (more : List PatternItem) :
    LayOut (more.foldl addItem segments) (items ++ more) := by
  induction more generalizing segments items with
  | nil => simpa using h
  | cons item rest ih =>
    obtain ⟨s, older, head, -⟩ := head_addItem segments item (Or.inl h.some)
    have next : LayOut (addItem segments item) (items ++ [item]) :=
      ⟨by simp [head], uniform_addItem h.uniform item,
        (alike_addItem h.uniform (Or.inl h.some)).trans (h.alike.append (Alike.refl _))⟩
    simpa using ih next

/-- Any-repeating items make no segment until another item has made one. -/
theorem foldl_leading {items : List PatternItem} (all : ∀ i ∈ items, i = .anyRepeating) :
    items.foldl addItem [] = [] := by
  induction items with
  | nil => rfl
  | cons item rest ih =>
    obtain rfl := all item List.mem_cons_self
    exact ih fun i m => all i (List.mem_cons_of_mem _ m)

theorem foldl_repeating {run items : List PatternItem} {older : List Segment}
    (all : ∀ i ∈ items, i = .anyRepeating) :
    items.foldl addItem (⟨.anyRepeating, run⟩ :: older) =
      ⟨.anyRepeating, run ++ items⟩ :: older := by
  induction items generalizing run with
  | nil => simp
  | cons item rest ih =>
    obtain rfl := all item List.mem_cons_self
    have added : addItem (⟨.anyRepeating, run⟩ :: older) .anyRepeating =
      ⟨.anyRepeating, run ++ [.anyRepeating]⟩ :: older := rfl
    rw [List.foldl_cons, added, ih fun i m => all i (List.mem_cons_of_mem _ m)]
    simp

/-- Any-repeating items behind others make one segment of their own. -/
theorem foldl_trailing {newest : Segment} {older : List Segment} {items : List PatternItem}
    (other : newest.sort ≠ .anyRepeating) (some : items ≠ [])
    (all : ∀ i ∈ items, i = .anyRepeating) :
    items.foldl addItem (newest :: older) = ⟨.anyRepeating, items⟩ :: settle (newest :: older) := by
  obtain ⟨item, rest, rfl⟩ := List.exists_cons_of_ne_nil some
  obtain rfl := all item List.mem_cons_self
  have added : addItem (newest :: older) .anyRepeating =
      ⟨.anyRepeating, [.anyRepeating]⟩ :: settle (newest :: older) := by
    rw [addItem, if_neg (by simpa [PatternItem.sort] using other)]
    rfl
  rw [List.foldl_cons, added, foldl_repeating fun i m => all i (List.mem_cons_of_mem _ m)]
  rfl

/-- The segments of trimmed items, the newest of which takes bytes. -/
theorem layOut_trimmed {items : List PatternItem} (some : PatternItem.trimmed items ≠ []) :
    ∃ newest older, (PatternItem.trimmed items).foldl addItem [] = newest :: older ∧
      newest.sort ≠ .anyRepeating ∧ LayOut (newest :: older) (PatternItem.trimmed items) := by
  obtain ⟨first, rest, begins⟩ := List.exists_cons_of_ne_nil some
  have one := PatternItem.trimmed_head begins
  have laid :
      LayOut ((PatternItem.trimmed items).foldl addItem []) (PatternItem.trimmed items) := by
    obtain ⟨s, older, head, -⟩ := head_addItem [] first (Or.inr one)
    have start : LayOut (addItem [] first) [first] :=
      ⟨by simp [head], uniform_addItem (by simp [AllUniform]) first,
        alike_addItem (by simp [AllUniform]) (Or.inr one)⟩
    rw [begins]
    exact start.foldl rest
  have ends := (List.dropLast_append_getLast some).symm
  have takes := PatternItem.trimmed_last ends
  obtain ⟨newest, older, head, sort⟩ := head_addItem
    ((PatternItem.trimmed items).dropLast.foldl addItem []) _ (Or.inr takes)
  have folded : (PatternItem.trimmed items).foldl addItem [] = newest :: older := by
    rw [ends, List.foldl_append]
    exact head
  refine ⟨newest, older, folded, ?_, folded ▸ laid⟩
  rw [sort]
  exact fun repeating => takes (PatternItem.sort_eq_anyRepeating.mp repeating)

/-- What is dropped at the end are any-repeating items. -/
theorem flatten_dropTrailing {segments : List Segment} (u : AllUniform segments) :
    ∃ trail : List PatternItem, (∀ i ∈ trail, i = .anyRepeating) ∧
      flatten (dropTrailing segments).reverse ++ trail = flatten segments.reverse := by
  fun_cases dropTrailing segments
  case case1 last rest repeating =>
    exact ⟨last.items, (u last List.mem_cons_self).repeating repeating, by simp⟩
  case case2 last rest other => exact ⟨[], by simp, by simp⟩
  case case3 => exact ⟨[], by simp, by simp⟩

theorem dropTrailing_subset (segments : List Segment) : dropTrailing segments ⊆ segments := by
  fun_cases dropTrailing segments
  case case1 last rest repeating => exact List.subset_cons_self last rest
  case case2 last rest other => exact List.Subset.refl _
  case case3 => exact List.Subset.refl _

/-- The segments of a list of items: those of the trimmed items, settled. Either the end is
trimmed by itself, or it made a segment that is dropped. -/
theorem ofItems_cases (items : List PatternItem) :
    ofItems items = [] ∧ PatternItem.trimmed items = [] ∨
      ∃ segments, LayOut segments (PatternItem.trimmed items) ∧
        (ofItems items = (settle segments).reverse ∨
          ofItems items = (dropTrailing (settle segments)).reverse) := by
  obtain ⟨lead, trail, whole, leading, trailing⟩ := PatternItem.trimmed_between items
  have folded : items.foldl addItem [] =
      trail.foldl addItem ((PatternItem.trimmed items).foldl addItem []) := by
    conv_lhs => rw [whole]
    rw [List.foldl_append, List.foldl_append, foldl_leading leading]
  rcases eq_or_ne (PatternItem.trimmed items) [] with none | some
  · refine Or.inl ⟨?_, none⟩
    rw [ofItems, folded, none, List.foldl_nil, foldl_leading trailing]
    rfl
  · obtain ⟨newest, older, made, takes, laid⟩ := layOut_trimmed some
    refine Or.inr ⟨newest :: older, laid, ?_⟩
    rw [ofItems, folded, made]
    rcases eq_or_ne trail [] with rfl | more
    · exact Or.inr rfl
    · rw [foldl_trailing takes more trailing]
      refine Or.inl (congrArg List.reverse ?_)
      obtain ⟨next, below, settled⟩ := List.exists_cons_of_ne_nil
        (mt settle_eq_nil.mp (List.cons_ne_nil newest older))
      rw [settled]
      rfl

/-- The segments of a list of items ask for what the trimmed items ask for, up to any-repeating
items at the end. -/
theorem layOut_ofItems (items : List PatternItem) :
    AllUniform (ofItems items) ∧ ∃ trail : List PatternItem, (∀ i ∈ trail, i = .anyRepeating) ∧
      Alike (flatten (ofItems items) ++ trail) (PatternItem.trimmed items) := by
  rcases ofItems_cases items with ⟨nothing, none⟩ | ⟨segments, laid, made⟩
  · rw [nothing, none]
    exact ⟨by simp [AllUniform], [], by simp, Alike.refl _⟩
  · have uniform : AllUniform (settle segments) := fun s m => laid.uniform s (mem_settle.mp m)
    have alike := (alike_settle laid.uniform).trans laid.alike
    rcases made with made | made
    · rw [made]
      exact ⟨fun s m => uniform s (List.mem_reverse.mp m), [], by simp, by simpa using alike⟩
    · obtain ⟨trail, trailing, whole⟩ := flatten_dropTrailing uniform
      rw [made]
      refine ⟨fun s m => uniform s (dropTrailing_subset _ (List.mem_reverse.mp m)),
        trail, trailing, ?_⟩
      rwa [whole]

end Segment

end Detouring
