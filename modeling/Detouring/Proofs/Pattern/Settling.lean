-- The shape of the segments of a list of items. An any-repeating segment is meant to stand between
-- two that take bytes, with no `any` behind it. It does, unless two any-repeating items have
-- nothing but `any` between them: the first lets the `any` go in front only when the second comes,
-- and then each is a segment of its own.
import Detouring.Proofs.Pattern.Findings
import Mathlib.Data.List.Chain

namespace Detouring

namespace PatternItem

variable {items : List PatternItem} {item : PatternItem}

/-! ## Items behind an any-repeating one -/

theorem sort_eq_any : item.sort = .any ↔ item = .any := by
  cases item <;> simp [sort]

/-- The items end in an any-repeating one, with another item somewhere in front of it. -/
def EndsInGap (items : List PatternItem) : Prop :=
  ∃ before, items = before ++ [.anyRepeating] ∧ ∃ i ∈ before, i ≠ .anyRepeating

/-- The items end in an any-repeating one and some `any` behind it, with another item somewhere
in front of it. -/
def EndsInAny (items : List PatternItem) : Prop :=
  ∃ before anys, items = before ++ .anyRepeating :: anys ∧ (∃ i ∈ before, i ≠ .anyRepeating) ∧
    anys ≠ [] ∧ ∀ i ∈ anys, i = .any

/-- Two any-repeating items have some `any` and nothing else between them, and another item
stands somewhere in front of them. -/
def Parted (items : List PatternItem) : Prop :=
  ∃ front, EndsInAny front ∧ front ++ [.anyRepeating] <+: items

theorem endsInGap_concat :
    EndsInGap (items ++ [item]) ↔ item = .anyRepeating ∧ ∃ i ∈ items, i ≠ .anyRepeating := by
  constructor
  · rintro ⟨before, e, other⟩
    obtain ⟨rfl, last⟩ := List.append_inj' e rfl
    exact ⟨List.singleton_inj.mp last, other⟩
  · rintro ⟨rfl, other⟩
    exact ⟨items, rfl, other⟩

theorem endsInAny_concat :
    EndsInAny (items ++ [item]) ↔ item = .any ∧ (EndsInAny items ∨ EndsInGap items) := by
  constructor
  · rintro ⟨before, anys, e, other, some, all⟩
    obtain ⟨anys, last, rfl⟩ := (List.eq_nil_or_concat anys).resolve_left some
    rw [List.concat_eq_append, ← List.cons_append, ← List.append_assoc] at e
    obtain ⟨rfl, same⟩ := List.append_inj' e rfl
    obtain rfl := List.singleton_inj.mp same
    refine ⟨all item (by simp), ?_⟩
    rcases eq_or_ne anys [] with rfl | more
    · exact Or.inr ⟨before, rfl, other⟩
    · exact Or.inl ⟨before, anys, rfl, other, more, fun i m => all i (by simp [m])⟩
  · rintro ⟨rfl, ⟨before, anys, rfl, other, -, all⟩ | ⟨before, rfl, other⟩⟩
    · refine ⟨before, anys ++ [.any], by simp, other, by simp, fun i m => ?_⟩
      rcases List.mem_append.mp m with m | m
      · exact all i m
      · exact List.mem_singleton.mp m
    · exact ⟨before, [.any], by simp, other, by simp, by simp⟩

theorem parted_concat :
    Parted (items ++ [item]) ↔ Parted items ∨ (EndsInAny items ∧ item = .anyRepeating) := by
  simp only [Parted, List.prefix_concat_iff]
  constructor
  · rintro ⟨front, ends, e | earlier⟩
    · obtain ⟨rfl, last⟩ := List.append_inj' e rfl
      exact Or.inr ⟨ends, (List.singleton_inj.mp last).symm⟩
    · exact Or.inl ⟨front, ends, earlier⟩
  · rintro (⟨front, ends, earlier⟩ | ⟨ends, rfl⟩)
    · exact ⟨front, ends, Or.inr earlier⟩
    · exact ⟨items, ends, Or.inl rfl⟩

end PatternItem

namespace Segment

open PatternItem

/-! ## The newest segments -/

variable {segments : List Segment} {item : PatternItem}

/-- The newest segment is any-repeating. -/
def Gaping (segments : List Segment) : Prop := ∃ s ∈ segments.head?, s.sort = .anyRepeating

/-- The newest segment is an `any` that is to go in front of an any-repeating one. -/
def Unsettled (segments : List Segment) : Prop :=
  ∃ last previous rest, segments = last :: previous :: rest ∧ last.sort = .any ∧
    previous.sort = .anyRepeating

theorem settle_of_unsettled {last previous : Segment} {rest : List Segment}
    (h : Unsettled (last :: previous :: rest)) :
    settle (last :: previous :: rest) = previous :: last :: rest := by
  obtain ⟨_, _, _, e, any, repeating⟩ := h
  cases e
  exact if_pos ⟨any, repeating⟩

theorem settle_of_settled (h : ¬ Unsettled segments) : settle segments = segments := by
  fun_cases settle segments
  case case1 last previous rest both => exact absurd ⟨_, _, _, rfl, both⟩ h
  case case2 => rfl
  case case3 => rfl

theorem addItem_eq_nil : addItem segments item = [] ↔ segments = [] ∧ item = .anyRepeating := by
  fun_cases addItem segments item
  case case1 repeating => simpa using sort_eq_anyRepeating.mp repeating
  case case2 other => simpa using mt sort_eq_anyRepeating.mpr other
  case case3 => simp
  case case4 => simp

theorem gaping_addItem :
    Gaping (addItem segments item) ↔ item = .anyRepeating ∧ segments ≠ [] := by
  rw [← sort_eq_anyRepeating]
  fun_cases addItem segments item
  case case1 => simp [Gaping]
  case case2 other => simp [Gaping, other]
  case case3 last rest same => simp [Gaping, same]
  case case4 last rest other => simp [Gaping]

theorem unsettled_cons {s : Segment} :
    Unsettled (s :: segments) ↔ s.sort = .any ∧ Gaping segments := by
  constructor
  · rintro ⟨_, previous, rest, e, any, repeating⟩
    cases e
    exact ⟨any, previous, rfl, repeating⟩
  · rintro ⟨any, previous, first, repeating⟩
    obtain ⟨rest, rfl⟩ := List.head?_eq_some_iff.mp first
    exact ⟨s, previous, rest, rfl, any, repeating⟩

theorem gaping_cons {s : Segment} : Gaping (s :: segments) ↔ s.sort = .anyRepeating := by
  simp [Gaping]

theorem unsettled_addItem :
    Unsettled (addItem segments item) ↔ item = .any ∧ (Unsettled segments ∨ Gaping segments) := by
  rw [← sort_eq_any]
  fun_cases addItem segments item
  case case1 repeating => simp [Unsettled, repeating]
  case case2 other => simp [Unsettled, Gaping]
  case case3 last rest same =>
    rw [unsettled_cons, unsettled_cons, gaping_cons, same]
    constructor
    · rintro ⟨any, gap⟩
      exact ⟨any, Or.inl ⟨any, gap⟩⟩
    · rintro ⟨any, ⟨-, gap⟩ | repeating⟩
      · exact ⟨any, gap⟩
      · rw [any] at repeating
        cases repeating
  case case4 last rest other =>
    rw [unsettled_cons, gaping_cons]
    refine and_congr_right fun any => ?_
    have settled : ¬ Unsettled (last :: rest) :=
      fun h => other ((unsettled_cons.mp h).1.trans any.symm)
    rw [settle_of_settled settled, gaping_cons]
    exact (or_iff_right settled).symm

/-- What gives way to an `any` is any-repeating. -/
theorem gaping_settle : Gaping (settle segments) ↔ Gaping segments ∨ Unsettled segments := by
  by_cases unsettled : Unsettled segments
  · obtain ⟨last, previous, rest, rfl, any, repeating⟩ := id unsettled
    rw [settle_of_unsettled unsettled, gaping_cons]
    exact iff_of_true repeating (Or.inr unsettled)
  · rw [settle_of_settled unsettled]
    exact (or_iff_left unsettled).symm

/-! ## Segments behind an any-repeating one -/

/-- The newer segment may stand behind the older: behind an any-repeating one only if it is
neither any-repeating nor an `any`. -/
def Follows (newer older : Segment) : Prop :=
  older.sort = .anyRepeating → newer.sort ≠ .anyRepeating ∧ newer.sort ≠ .any

/-- The segments, once settled, follow one another as they may. -/
def Spaced (segments : List Segment) : Prop := (settle segments).IsChain Follows

theorem isChain_cons_iff {s : Segment} : (s :: segments).IsChain Follows ↔
    (Gaping segments → s.sort ≠ .anyRepeating ∧ s.sort ≠ .any) ∧ segments.IsChain Follows := by
  rw [List.isChain_cons]
  refine and_congr_left fun _ => ?_
  constructor
  · rintro follows ⟨next, first, repeating⟩
    exact follows next first repeating
  · exact fun follows next first repeating => follows ⟨next, first, repeating⟩

/-- Of the newest segment only its sort counts. -/
theorem spaced_congr {s s' : Segment} (same : s.sort = s'.sort) :
    Spaced (s :: segments) ↔ Spaced (s' :: segments) := by
  have alike : Unsettled (s :: segments) ↔ Unsettled (s' :: segments) := by
    rw [unsettled_cons, unsettled_cons, same]
  by_cases unsettled : Unsettled (s :: segments)
  · obtain ⟨_, previous, rest, e, any, repeating⟩ := id unsettled
    cases e
    rw [Spaced, Spaced, settle_of_unsettled unsettled, settle_of_unsettled (alike.mp unsettled)]
    simp only [isChain_cons_iff, gaping_cons, same]
  · rw [Spaced, Spaced, settle_of_settled unsettled, settle_of_settled (mt alike.mpr unsettled)]
    simp only [isChain_cons_iff, same]

/-- One more item leaves the segments spaced, unless it is an any-repeating one that comes when
the newest segment is still to go in front of another such. -/
theorem spaced_addItem :
    Spaced (addItem segments item) ↔
      Spaced segments ∧ ¬ (Unsettled segments ∧ item = .anyRepeating) := by
  fun_cases addItem segments item
  case case1 => simp [Unsettled]
  case case2 => simp [Unsettled, Spaced, settle]
  case case3 last rest same =>
    have longer : Spaced (⟨last.sort, last.items ++ [item]⟩ :: rest) ↔ Spaced (last :: rest) :=
      spaced_congr rfl
    rw [longer]
    refine (and_iff_left ?_).symm
    rintro ⟨unsettled, rfl⟩
    rw [(unsettled_cons.mp unsettled).1] at same
    cases same
  case case4 last rest other =>
    by_cases unsettled : Unsettled (⟨item.sort, [item]⟩ :: settle (last :: rest))
    · obtain ⟨any, gap⟩ := unsettled_cons.mp unsettled
      have settled : ¬ Unsettled (last :: rest) :=
        fun h => other ((unsettled_cons.mp h).1.trans any.symm)
      rw [settle_of_settled settled] at unsettled gap ⊢
      rw [Spaced, Spaced, settle_of_unsettled unsettled, settle_of_settled settled]
      have repeating := gaping_cons.mp gap
      have any : item.sort = .any := any
      simp only [isChain_cons_iff, gaping_cons, any, repeating, settled]
      simp
    · rw [Spaced, settle_of_settled unsettled, isChain_cons_iff, and_comm, gaping_settle]
      rw [unsettled_cons, gaping_settle] at unsettled
      refine and_congr_right fun _ => ?_
      constructor
      · rintro follows ⟨behind, rfl⟩
        exact (follows (Or.inr behind)).1 rfl
      · intro apart behind
        refine ⟨fun repeating => ?_, fun any => unsettled ⟨any, behind⟩⟩
        rcases behind with gap | behind
        · exact other ((gaping_cons.mp gap).trans repeating.symm)
        · exact apart ⟨behind, sort_eq_anyRepeating.mp repeating⟩

/-- The newest segments tell how the items end, and whether they are parted. -/
structure Tells (segments : List Segment) (items : List PatternItem) : Prop where
  none : segments = [] ↔ ∀ i ∈ items, i = .anyRepeating
  gap : Gaping segments ↔ EndsInGap items
  any : Unsettled segments ↔ EndsInAny items
  spaced : Spaced segments ↔ ¬ Parted items

theorem Tells.addItem {items : List PatternItem} (h : Tells segments items) (item : PatternItem) :
    Tells (addItem segments item) (items ++ [item]) where
  none := by
    rw [addItem_eq_nil, h.none]
    simp only [List.mem_append, List.mem_singleton, or_imp, forall_and, forall_eq]
  gap := by
    rw [gaping_addItem, endsInGap_concat, ne_eq, h.none]
    simp
  any := by rw [unsettled_addItem, endsInAny_concat, h.any, h.gap]
  spaced := by rw [spaced_addItem, parted_concat, h.spaced, h.any, not_or]

theorem tells_foldl (items : List PatternItem) : Tells (items.foldl Segment.addItem []) items :=
  foldl_addItem
    ⟨by simp, by simp [Gaping, EndsInGap], by simp [Unsettled, EndsInAny],
      by simp [Spaced, Segment.settle, Parted]⟩
    (fun _ _ item h => h.addItem item) items

/-! ## The shape of the segments -/

/-- Segments in which every any-repeating one stands between two others, with none that takes
bytes of any value behind it. -/
structure Tidy (segments : List Segment) : Prop where
  first : ∀ s ∈ segments.head?, s.sort ≠ .anyRepeating
  last : ∀ s ∈ segments.getLast?, s.sort ≠ .anyRepeating
  followed : segments.IsChain fun s next =>
    s.sort = .anyRepeating → next.sort ≠ .anyRepeating ∧ next.sort ≠ .any

/-- The oldest segment is not any-repeating. -/
def Grounded (segments : List Segment) : Prop :=
  ∀ s ∈ segments.getLast?, s.sort ≠ .anyRepeating

theorem grounded_cons_cons {s t : Segment} :
    Grounded (s :: t :: segments) ↔ Grounded (t :: segments) := by
  simp [Grounded]

theorem Grounded.settle (h : Grounded segments) : Grounded (settle segments) := by
  fun_cases Segment.settle segments
  case case1 last previous rest both =>
    rw [grounded_cons_cons] at h ⊢
    cases rest with
    | nil => simp [Grounded, both.1]
    | cons t rest => exact h
  case case2 => exact h
  case case3 => exact h

theorem Grounded.addItem (h : Grounded segments) : Grounded (addItem segments item) := by
  fun_cases Segment.addItem segments item
  case case1 => exact h
  case case2 other => simpa [Grounded] using other
  case case3 last rest same =>
    cases rest with
    | nil => simpa [Grounded] using h
    | cons t rest => exact h
  case case4 last rest other =>
    obtain ⟨t, below, settled⟩ := List.exists_cons_of_ne_nil
      (mt settle_eq_nil.mp (List.cons_ne_nil last rest))
    rw [settled, grounded_cons_cons, ← settled]
    exact h.settle

theorem grounded_foldl (items : List PatternItem) : Grounded (items.foldl Segment.addItem []) :=
  foldl_addItem (P := fun segments _ => Grounded segments) (by simp [Grounded])
    (fun _ _ _ h => h.addItem) items

theorem Grounded.dropTrailing (h : Grounded segments) : Grounded (dropTrailing segments) := by
  fun_cases Segment.dropTrailing segments
  case case1 last rest repeating =>
    cases rest with
    | nil => simp [Grounded]
    | cons t rest => exact h
  case case2 => exact h
  case case3 => exact h

theorem tidy_reverse_iff : Tidy segments.reverse ↔
    Grounded segments ∧ ¬ Gaping segments ∧ segments.IsChain Follows := by
  constructor
  · rintro ⟨first, last, followed⟩
    rw [List.head?_reverse] at first
    rw [List.getLast?_reverse] at last
    exact ⟨first, fun ⟨s, m, repeating⟩ => last s m repeating, List.isChain_reverse.mp followed⟩
  · rintro ⟨first, last, followed⟩
    refine ⟨?_, ?_, List.isChain_reverse.mpr followed⟩
    · rwa [List.head?_reverse]
    · rw [List.getLast?_reverse]
      exact fun s m repeating => last ⟨s, m, repeating⟩

/-- An any-repeating segment at the end is dropped, and what it stood behind is then the last. -/
theorem tidy_dropTrailing (h : Grounded segments) :
    Tidy (dropTrailing segments).reverse ↔ segments.IsChain Follows := by
  rw [tidy_reverse_iff, and_iff_right h.dropTrailing]
  fun_cases Segment.dropTrailing segments
  case case1 last rest repeating => simp [isChain_cons_iff, repeating]
  case case2 last rest other => simp [gaping_cons, other]
  case case3 => simp [Gaping]

/-- The segments of a list of items never begin with an any-repeating one. None of them ends with
one either, and behind each any-repeating one stands one that takes bytes and is not an `any`,
exactly if the items are not parted. -/
theorem segments_are_tidy_unless_the_items_are_parted (items : List PatternItem) :
    (∀ s ∈ (ofItems items).head?, s.sort ≠ .anyRepeating) ∧
      (Tidy (ofItems items) ↔ ¬ Parted items) := by
  have grounded := (grounded_foldl items).settle
  rw [ofItems, List.head?_reverse, tidy_dropTrailing grounded]
  exact ⟨grounded.dropTrailing, (tells_foldl items).spaced⟩

instance : Decidable (Tidy segments) :=
  decidable_of_iff ((∀ s ∈ segments.head?, s.sort ≠ .anyRepeating) ∧
      (∀ s ∈ segments.getLast?, s.sort ≠ .anyRepeating) ∧
      segments.IsChain fun s next =>
        s.sort = .anyRepeating → next.sort ≠ .anyRepeating ∧ next.sort ≠ .any)
    ⟨fun ⟨first, last, followed⟩ => ⟨first, last, followed⟩,
      fun ⟨first, last, followed⟩ => ⟨first, last, followed⟩⟩

/-- Six any-repeating items with one `any` behind each make six gaps, and behind all but the last
of them stands an `any`. -/
theorem six_parted_gaps_stay_six :
    ∃ p, Pattern.ofCodes ⟨.abs64, 0⟩ false [0xaa, 0xff01, 0xff00, 0xff01, 0xff00, 0xff01, 0xff00,
        0xff01, 0xff00, 0xff01, 0xff00, 0xff01, 0xff00, 0xbb, 0xff00, 0xcc] = .ok p ∧
      p.segments.map Segment.sort = [.literal, .any, .anyRepeating, .any, .anyRepeating, .any,
        .anyRepeating, .any, .anyRepeating, .any, .anyRepeating, .any, .anyRepeating, .literal,
        .any, .literal] ∧ ¬ Tidy p.segments :=
  ⟨_, rfl, by decide, by decide⟩

end Segment

end Detouring
