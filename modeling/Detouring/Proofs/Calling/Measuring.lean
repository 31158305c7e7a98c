-- How well a measured convention agrees with the one that it was measured by. Kinds tell types
-- apart less finely than sizes and fields do, so the measured convention misjudges some types.
-- They are listed here; about all others, whatever their fields and their nesting, the two agree.
import Detouring.Calling.ArgumentOrder
import Mathlib.Data.List.Nodup

namespace Detouring

/-! ## Sets of kinds -/

namespace KindSet

theorem contains_insert {s : KindSet} {k k' : StructKind} :
    (s.insert k).contains k' = true ↔ s.contains k' = true ∨ k.position = k'.position := by
  unfold insert contains
  rw [Nat.testBit_or, Bool.or_eq_true, Nat.one_shiftLeft, Nat.testBit_two_pow, decide_eq_true_iff]

theorem contains_foldl_insert {s : KindSet} {kinds : List StructKind} {k : StructKind} :
    (kinds.foldl insert s).contains k = true ↔
      s.contains k = true ∨ ∃ k' ∈ kinds, k'.position = k.position := by
  induction kinds generalizing s with
  | nil => simp
  | cons first rest ih =>
    rw [List.foldl_cons, ih, contains_insert]
    simp [or_assoc]

end KindSet

/-- A convention keeps a kind in registers if it keeps the type that stands for it there. -/
theorem Convention.contains_registerKinds (c : Convention) (d : Direction) {k : StructKind}
    (m : k ∈ StructKind.all) : (c.registerKinds d).contains k = true ↔
      c.classify k.representative d = .inRegister := by
  have none : KindSet.contains 0 k = false := Nat.zero_testBit _
  unfold registerKinds
  rw [KindSet.contains_foldl_insert, none]
  simp only [Bool.false_eq_true, false_or, List.mem_filter, decide_eq_true_iff]
  constructor
  · rintro ⟨k', ⟨m', kept⟩, same⟩
    exact List.inj_on_of_nodup_map StructKind.nodup_position m' m same ▸ kept
  · exact fun kept => ⟨k, ⟨m, kept⟩, rfl⟩

/-! ## Types that are told by their fields -/

namespace TypeLayout

/-- One to four fields of one family, and no odd size. -/
structure Homogeneous (t : TypeLayout) (family : FieldFamily) : Prop where
  notOdd : t.size ∉ StructKind.oddSizes
  filled : t.parts ≠ []
  few : t.parts.length ≤ 4
  alike : ∀ f ∈ t.parts, FieldFamily.of? f = some family

/-- The type itself or, if it is a value type around a single value type, what that one is. -/
def core : TypeLayout → TypeLayout
  | struct _ _ [struct size align fields] => core (struct size align fields)
  | t => t

theorem Homogeneous.unique {t : TypeLayout} {family family' : FieldFamily}
    (h : t.Homogeneous family) (h' : t.Homogeneous family') : family = family' := by
  obtain ⟨f, m⟩ := List.exists_mem_of_ne_nil _ h.filled
  exact Option.some.inj ((h.alike f m).symm.trans (h'.alike f m))

end TypeLayout

/-! ## Kinds -/

namespace StructKind

variable {size : Nat} {t : TypeLayout} {family : FieldFamily}

theorem ofParts?_homogeneous (h : t.Homogeneous family) :
    ofParts? t.size t.parts = some (.homogeneous family t.parts.length) := by
  obtain ⟨notOdd, filled, few, alike⟩ := h
  unfold ofParts?
  rw [if_neg notOdd, if_neg (by omega)]
  rcases parts : t.parts with _ | ⟨first, rest⟩
  · exact absurd parts filled
  · rw [parts] at alike
    have same : rest.all (fun f => FieldFamily.of? f == some family) = true :=
      List.all_eq_true.mpr fun f m => by simpa using alike f (List.mem_cons_of_mem _ m)
    simp only [alike first List.mem_cons_self, same, if_true]

/-- A type that its fields do not tell is told by its size. -/
theorem ofParts?_other (other : ∀ family, ¬ t.Homogeneous family) :
    ofParts? t.size t.parts =
      if t.size ∈ oddSizes then some (oddSize t.size) else ofSize? t.size := by
  unfold ofParts?
  split
  · rfl
  · next notOdd =>
    split
    · rfl
    · next few =>
      split
      · rfl
      · next first rest parts =>
        split
        · rfl
        · next family found =>
          refine if_neg fun same => other family ⟨notOdd, by simp [parts], by omega, fun f m => ?_⟩
          rw [parts] at m
          rcases List.mem_cons.mp m with rfl | m
          · exact found
          · simpa using List.all_eq_true.mp same f m

/-! ## Kinds that stay in registers -/

/-- The System V convention keeps the kind in registers. -/
def InRegisters : StructKind → Prop
  | homogeneous .long count => count < 3
  | _ => True

instance : DecidablePred InRegisters := fun k => by unfold InRegisters; split <;> infer_instance

theorem systemV_representative (d : Direction) : ∀ k ∈ all,
    Convention.systemV.classify k.representative d = .inRegister ↔ k.InRegisters := by
  cases d <;> decide

theorem homogeneous_inRegisters (family : FieldFamily) (count : Nat) :
    (homogeneous family count).InRegisters ↔ (family = .long → count < 3) := by
  cases family <;> simp [InRegisters]

theorem homogeneous_mem_all (h : t.Homogeneous family) :
    homogeneous family t.parts.length ∈ all := by
  have table : ∀ count ∈ [1, 2, 3, 4], homogeneous family count ∈ all := by
    cases family <;> decide
  have some := List.length_pos_of_ne_nil h.filled
  have few := h.few
  exact table _ (by simp; omega)

/-- There is a kind of the table that stays in registers, for a size up to sixteen bytes, or there
is none. -/
def BySize (size : Nat) (kind : Option StructKind) : Prop :=
  (∃ k ∈ all, kind = some k ∧ k.InRegisters) ∧ 1 ≤ size ∧ size ≤ 16 ∨
    kind = none ∧ ¬ (1 ≤ size ∧ size ≤ 16)

theorem bySize_oddSize (odd : size ∈ oddSizes) : BySize size (some (oddSize size)) := by
  have listed : oddSize size ∈ all := List.mem_append_left _ (List.mem_append_left _
    (List.mem_append_right _ (List.mem_map_of_mem odd)))
  have bounds : ∀ n ∈ oddSizes, 1 ≤ n ∧ n ≤ 16 := by decide
  exact Or.inl ⟨⟨_, listed, rfl, trivial⟩, bounds size odd⟩

theorem bySize_ofSize? (size : Nat) : BySize size (ofSize? size) := by
  by_cases fits : 1 ≤ size ∧ size ≤ 16
  · have listed : sized size ∈ all := by
      refine List.mem_append_left _ (List.mem_append_right _ (List.mem_map.mpr ⟨size - 1, ?_, ?_⟩))
      · simp only [List.mem_range]
        omega
      · congr 1
        omega
    exact Or.inl ⟨⟨_, listed, if_pos fits, trivial⟩, fits⟩
  · exact Or.inr ⟨if_neg fits, fits⟩

theorem of?_core (t : TypeLayout) : of? t = of? t.core := by
  induction t using TypeLayout.core.induct with
  | case1 _ _ size align fields ih =>
    rw [of?, TypeLayout.core]
    exact ih
  | case2 t single =>
    rw [TypeLayout.core]
    exact single

end StructKind

namespace TypeLayout

/-- The kind of the type stays in registers. -/
def KeptByKind (t : TypeLayout) : Prop :=
  (∃ family, t.Homogeneous family ∧ (family = .long → t.parts.length < 3)) ∨
    (∀ family, ¬ t.Homogeneous family) ∧ 1 ≤ t.size ∧ t.size ≤ 16

variable {t : TypeLayout} {family : FieldFamily}

theorem Homogeneous.keptByKind (told : t.Homogeneous family) :
    t.KeptByKind ↔ (family = .long → t.parts.length < 3) := by
  constructor
  · rintro (⟨family', told', stays⟩ | ⟨other, _⟩)
    · exact told'.unique told ▸ stays
    · exact absurd told (other family)
  · exact fun stays => Or.inl ⟨family, told, stays⟩

theorem keptByKind_other (other : ∀ family, ¬ t.Homogeneous family) :
    t.KeptByKind ↔ 1 ≤ t.size ∧ t.size ≤ 16 := by
  constructor
  · rintro (⟨family, told, _⟩ | ⟨_, fits⟩)
    · exact absurd told (other family)
    · exact fits
  · exact fun fits => Or.inr ⟨other, fits⟩

/-- No value type around a single value type. -/
def Unwrapped (t : TypeLayout) : Prop :=
  ∀ size align inner align' fields, t ≠ struct size align [struct inner align' fields]

theorem unwrapped_core (t : TypeLayout) : t.core.Unwrapped ∧ (t.core = .void → t = .void) := by
  induction t using core.induct with
  | case1 _ _ size align fields ih =>
    rw [core]
    exact ⟨ih.1, fun none => nomatch ih.2 none⟩
  | case2 t single =>
    rw [core]
    · exact ⟨fun size align inner align' fields => single size align inner align' fields, id⟩
    · exact single

/-- A type is of a kind that its fields tell, or its size. -/
theorem kind_cases (single : t.Unwrapped) (something : t ≠ .void) :
    (∃ family, t.Homogeneous family ∧
        StructKind.of? t = some (.homogeneous family t.parts.length)) ∨
      (∀ family, ¬ t.Homogeneous family) ∧ StructKind.BySize t.size (StructKind.of? t) := by
  by_cases bare : ∃ size align, t = struct size align []
  · obtain ⟨size, align, rfl⟩ := bare
    refine Or.inr ⟨fun _ h => h.filled rfl, ?_⟩
    rw [StructKind.of?]
    split
    · next one =>
      subst one
      exact Or.inl ⟨⟨.empty, by decide, rfl, trivial⟩, Nat.le_refl _, (by decide : 1 ≤ 16)⟩
    · exact StructKind.bySize_ofSize? size
  have byParts : StructKind.of? t = StructKind.ofParts? t.size t.parts := by
    rcases t with _ | _ | _ | _ | p | ⟨size, align, fields⟩
    · exact absurd rfl something
    · rfl
    · rfl
    · rfl
    · rfl
    · exact StructKind.of?.eq_4 size align fields
        (fun inner align' fields' same => single size align inner align' fields' (same ▸ rfl))
        fun none => bare ⟨size, align, none ▸ rfl⟩
  rw [byParts]
  by_cases told : ∃ family, t.Homogeneous family
  · obtain ⟨family, h⟩ := told
    exact Or.inl ⟨family, h, StructKind.ofParts?_homogeneous h⟩
  · have other : ∀ family, ¬ t.Homogeneous family := fun family h => told ⟨family, h⟩
    rw [StructKind.ofParts?_other other]
    refine Or.inr ⟨other, ?_⟩
    split
    · next odd => exact StructKind.bySize_oddSize odd
    · exact StructKind.bySize_ofSize? t.size

end TypeLayout

/-! ## Both conventions -/

/-- A value that is not kept in registers travels through memory. -/
theorem passing_eq_iff {a b : Passing} {d : Direction} (known : a = .inRegister ∨ a = d.inMemory)
    (known' : b = .inRegister ∨ b = d.inMemory) :
    a = b ↔ (a = .inRegister ↔ b = .inRegister) := by
  cases d <;> rcases known with rfl | rfl <;> rcases known' with rfl | rfl <;> decide

theorem ObservedKinds.classify_or (o : ObservedKinds) (t : TypeLayout) (d : Direction) :
    o.classify t d = .inRegister ∨ o.classify t d = d.inMemory := by
  unfold classify
  split
  · split
    · exact Or.inl rfl
    · exact Or.inr rfl
  · exact Or.inr rfl

/-- What was measured by the System V convention goes by the kind. -/
theorem ObservedKinds.classify_systemV (t : TypeLayout) (d : Direction) (something : t ≠ .void) :
    (ofConvention .systemV).classify t d = .inRegister ↔ t.core.KeptByKind := by
  have memory : ¬ d.inMemory = .inRegister := by cases d <;> decide
  have kept : ∀ k ∈ StructKind.all, ((ofConvention .systemV).seen d).contains k = true ↔
      k.InRegisters := fun k m => by
    have one := Convention.systemV.contains_registerKinds d m
    cases d <;> exact one.trans (StructKind.systemV_representative _ k m)
  unfold classify
  rw [StructKind.of?_core]
  obtain ⟨single, void⟩ := TypeLayout.unwrapped_core t
  rcases TypeLayout.kind_cases single (fun none => something (void none)) with
    ⟨family, told, kind⟩ | ⟨other, ⟨⟨k, m, kind, stays⟩, fits⟩ | ⟨kind, unfit⟩⟩
  · have here := (kept _ (StructKind.homogeneous_mem_all told)).trans
      (StructKind.homogeneous_inRegisters family _)
    rw [kind, told.keptByKind]
    simp only [ite_eq_left_iff, memory, imp_false, not_not, here]
  · rw [kind, TypeLayout.keptByKind_other other]
    exact iff_of_true (if_pos ((kept k m).mpr stays)) fits
  · rw [kind, TypeLayout.keptByKind_other other]
    exact iff_of_false memory unfit

namespace Convention

/-- The System V convention goes by the size, and above sixteen bytes by the fields too. -/
def KeptBySize (t : TypeLayout) : Prop :=
  t.size ≤ 16 ∨ t.size ≤ 32 ∧ ∀ f ∈ t.parts, f.isFloat = true

variable {d : Direction}

theorem classifySystemV_or (t : TypeLayout) :
    classifySystemV t d = .inRegister ∨ classifySystemV t d = d.inMemory := by
  unfold classifySystemV
  split
  · exact Or.inr rfl
  · split
    · exact Or.inr rfl
    · exact Or.inl rfl

theorem classifySystemV_iff (t : TypeLayout) :
    classifySystemV t d = .inRegister ↔ KeptBySize t := by
  have memory : ¬ d.inMemory = .inRegister := by cases d <;> decide
  have fields : (t.parts.any fun f => !f.isFloat) = true ↔ ¬ ∀ f ∈ t.parts, f.isFloat = true := by
    simp
  unfold classifySystemV KeptBySize
  simp only [Bool.and_eq_true, decide_eq_true_iff, fields]
  split
  · exact iff_of_false memory (by omega)
  · split
    · next odd =>
      refine iff_of_false memory ?_
      rintro (small | ⟨_, floats⟩)
      · exact absurd odd.1 (Nat.not_lt.mpr small)
      · exact odd.2 floats
    · next small =>
      refine iff_of_true rfl ?_
      by_cases floats : ∀ f ∈ t.parts, f.isFloat = true
      · exact Or.inr ⟨by omega, floats⟩
      · exact Or.inl (Nat.not_lt.mp fun large => small ⟨large, floats⟩)

end Convention

/-! ## Types about which the two differ -/

/-- The measured convention keeps the type in registers and the reference does not, or the other
way round. -/
inductive TypeLayout.Misjudged (t : TypeLayout) : Prop
  /-- A value type of no bytes. -/
  | noBytes : t.isStruct → t.Unwrapped → (∀ family, ¬ t.Homogeneous family) → t.size = 0 →
      Misjudged t
  /-- Floating-point numbers of more than sixteen bytes, more than four or of two sizes. -/
  | floats : t.Unwrapped → (∀ family, ¬ t.Homogeneous family) → 16 < t.size → t.size ≤ 32 →
      (∀ f ∈ t.parts, f.isFloat = true) → Misjudged t
  /-- Three or four long words that are said to take no more than sixteen bytes. -/
  | longs : t.Unwrapped → t.Homogeneous .long → 3 ≤ t.parts.length → t.size ≤ 16 → Misjudged t
  /-- Up to four fields that are said to take more bytes than go in registers. -/
  | wide {family : FieldFamily} : t.Unwrapped → t.Homogeneous family →
      (family = .long → t.parts.length < 3) →
      (32 < t.size ∨ 16 < t.size ∧ family ≠ .float ∧ family ≠ .double) → Misjudged t
  /-- A value type around a single value type, where the size of the outer one says otherwise than
  the kind of the innermost. -/
  | wrapped : ¬ t.Unwrapped → ¬ (t.size ≤ 16 ↔ t.core.KeptByKind) → Misjudged t

namespace TypeLayout

variable {t : TypeLayout} {family : FieldFamily}

theorem isFloat_iff {f : TypeLayout} (h : FieldFamily.of? f = some family) :
    f.isFloat = true ↔ family = .float ∨ family = .double := by
  rcases f with _ | _ | _ | _ | ⟨p⟩ | _
  case primitive => cases p <;> cases h <;> decide
  all_goals cases h <;> decide

theorem Homogeneous.floats (told : t.Homogeneous family) :
    (∀ f ∈ t.parts, f.isFloat = true) ↔ family = .float ∨ family = .double := by
  obtain ⟨f, m⟩ := List.exists_mem_of_ne_nil _ told.filled
  exact ⟨fun floats => (isFloat_iff (told.alike f m)).mp (floats f m),
    fun float f m => (isFloat_iff (told.alike f m)).mpr float⟩

theorem core_of_unwrapped (single : t.Unwrapped) : t.core = t := by
  rw [core]
  exact fun size align inner align' fields => single size align inner align' fields

/-- What is told by its fields is misjudged where the size it is said to have says otherwise. -/
theorem Homogeneous.misjudged_iff (told : t.Homogeneous family) (single : t.Unwrapped) :
    t.Misjudged ↔ ¬ (t.KeptByKind ↔ Convention.KeptBySize t) := by
  rw [told.keptByKind, Convention.KeptBySize, told.floats]
  constructor
  · rintro (⟨_, _, other, _⟩ | ⟨_, other, _⟩ | ⟨_, long, many, small⟩ |
      ⟨_, told', few, large⟩ | ⟨wrapped, _⟩) same
    · exact absurd told (other family)
    · exact absurd told (other family)
    · exact absurd (same.mpr (Or.inl small) (told.unique long)) (Nat.not_lt.mpr many)
    · obtain rfl := told'.unique told
      rcases same.mp few with small | ⟨fits, float | double⟩
      · omega
      · exact large.elim (by omega) fun h => h.2.1 float
      · exact large.elim (by omega) fun h => h.2.2 double
    · exact absurd single wrapped
  · intro differ
    by_cases few : family = .long → t.parts.length < 3
    · have large := fun fits => differ (iff_of_true few fits)
      refine .wide single told few ?_
      by_cases float : family = .float ∨ family = .double
      · exact Or.inl (Nat.not_le.mp fun fits => large (Or.inr ⟨fits, float⟩))
      · exact Or.inr ⟨Nat.not_le.mp fun small => large (Or.inl small), not_or.mp float⟩
    · have small := not_not.mp fun unfit => differ (iff_of_false few unfit)
      obtain ⟨rfl, many⟩ := Classical.not_imp.mp few
      exact .longs single told (Nat.not_lt.mp many) (small.resolve_right (by simp))

/-- What is told by its size alone is misjudged where it has no bytes, or many that are all
floating-point. -/
theorem misjudged_iff_other (other : ∀ family, ¬ t.Homogeneous family) (single : t.Unwrapped)
    (something : t ≠ .void) :
    t.Misjudged ↔ ¬ (t.KeptByKind ↔ Convention.KeptBySize t) := by
  rw [keptByKind_other other, Convention.KeptBySize]
  constructor
  · rintro (⟨_, _, _, none⟩ | ⟨_, _, large, fits, floats⟩ | ⟨_, long, _⟩ | ⟨_, told, _⟩ |
      ⟨wrapped, _⟩) same
    · have := (same.mpr (Or.inl (by omega))).1
      omega
    · have := (same.mpr (Or.inr ⟨fits, floats⟩)).2
      omega
    · exact other .long long
    · exact other _ told
    · exact absurd single wrapped
  · intro differ
    by_cases small : t.size ≤ 16
    · have none : t.size = 0 := by
        by_contra some
        exact differ (iff_of_true ⟨by omega, small⟩ (Or.inl small))
      refine .noBytes ?_ single other none
      rcases t with _ | _ | _ | _ | p | _
      · exact absurd rfl something
      · cases none
      · cases none
      · cases none
      · cases p <;> cases none
      · rfl
    · have floats := not_not.mp fun unfit => differ (iff_of_false (by omega) unfit)
      obtain ⟨fits, floats⟩ := floats.resolve_left small
      exact .floats single other (by omega) fits floats

theorem misjudged_iff (something : t ≠ .void) :
    t.Misjudged ↔ ¬ (t.core.KeptByKind ↔ Convention.KeptBySize t) := by
  by_cases single : t.Unwrapped
  · rw [core_of_unwrapped single]
    by_cases told : ∃ family, t.Homogeneous family
    · obtain ⟨family, told⟩ := told
      exact told.misjudged_iff single
    · exact misjudged_iff_other (fun family h => told ⟨family, h⟩) single something
  · have outer : Convention.KeptBySize t ↔ t.size ≤ 16 := by
      unfold Unwrapped at single
      push Not at single
      obtain ⟨size, align, inner, align', fields, rfl⟩ := single
      simp [Convention.KeptBySize, parts, isFloat]
    rw [outer]
    constructor
    · rintro (⟨_, whole, _⟩ | ⟨whole, _⟩ | ⟨whole, _⟩ | ⟨whole, _⟩ | ⟨_, differ⟩) same
      · exact single whole
      · exact single whole
      · exact single whole
      · exact single whole
      · exact differ same.symm
    · exact fun differ => .wrapped single fun same => differ same.symm

theorem not_misjudged_void : ¬ void.Misjudged := by
  have other (family : FieldFamily) : ¬ void.Homogeneous family := fun told =>
    nomatch told.alike void List.mem_cons_self
  rintro (⟨value, _⟩ | ⟨_, _, large, _⟩ | ⟨_, told, _⟩ | ⟨_, told, _⟩ | ⟨wrapped, _⟩)
  · cases value
  · exact absurd large (by decide)
  · exact other _ told
  · exact other _ told
  · exact wrapped fun _ _ _ _ _ => nofun

/-- References and pointers are long words. -/
theorem not_misjudged_long (small : t.size = 8) (alone : t.parts = [t])
    (long : FieldFamily.of? t = some .long) : ¬ t.Misjudged := by
  have told : t.Homogeneous .long := by
    refine ⟨by rw [small]; decide, by simp [alone], by simp [alone], fun f m => ?_⟩
    rw [alone, List.mem_singleton] at m
    exact m ▸ long
  have single : t.Unwrapped := by
    rintro size align inner align' fields rfl
    cases long
  rw [told.misjudged_iff single, not_not, told.keptByKind]
  exact iff_of_true (fun _ => by simp [alone]) (Or.inl (by omega))

end TypeLayout

/-- A convention that is measured by the System V convention agrees with it about a type, in both
directions, exactly if the type is none of those above. -/
theorem the_measured_convention_agrees_unless_misjudged (report : ProbeReport) :
    ∃ c, Convention.measured (some .systemV) report = .ok c ∧
      ∀ t d, c.classify t d = Convention.systemV.classify t d ↔ ¬ t.Misjudged := by
  refine ⟨_, rfl, fun t d => ?_⟩
  have judged (something : t ≠ .void) :
      (ObservedKinds.ofConvention .systemV).classify t d = Convention.classifySystemV t d ↔
        ¬ t.Misjudged := by
    rw [passing_eq_iff (ObservedKinds.classify_or _ t d) (Convention.classifySystemV_or t),
      ObservedKinds.classify_systemV t d something, Convention.classifySystemV_iff,
      TypeLayout.misjudged_iff something, not_not]
  rcases t with _ | _ | _ | _ | p | _
  case void => exact iff_of_true rfl TypeLayout.not_misjudged_void
  case primitive | struct => exact judged nofun
  all_goals exact iff_of_true rfl (TypeLayout.not_misjudged_long rfl rfl rfl)

/-- Five floating-point numbers of 32 bits are passed and returned in registers, and are measured
to go through memory. -/
theorem five_floats_are_misjudged :
    ∃ c, Convention.measured (some .systemV) .host = .ok c ∧ ∀ d,
      Convention.systemV.classify (.ofFields (List.replicate 5 (.primitive .f32))) d = .inRegister ∧
      c.classify (.ofFields (List.replicate 5 (.primitive .f32))) d = d.inMemory := by
  refine ⟨_, rfl, fun d => ?_⟩
  cases d <;> decide +kernel

end Detouring
