-- Hooks of different priorities have one order, in whatever sequence they arrive. The graphs on
-- the way there differ, and so do the constraints that the last ones repeat, but a walk over them
-- meets the same keys.
import Detouring.Proofs.Hook.Survivors

namespace Detouring

/-! ## Wishes -/

namespace Placement

/-- One of the two hooks wishes that `a` stands before `b`. -/
def Wishes (a b : Placement) : Prop := a.standsBefore b.id = true ∨ b.standsAfter a.id = true

instance : DecidableRel Wishes := fun a b => by unfold Wishes; infer_instance

/-- Where the wishes about two hooks do not contradict each other, all of them count. -/
theorem precedence_of_wishes {old new : Placement} (h : ¬ (old.Wishes new ∧ new.Wishes old)) :
    (old.precedence new = .newFirst ↔ new.Wishes old) ∧
      (old.precedence new = .oldFirst ↔ old.Wishes new) := by
  unfold precedence Wishes at *
  generalize new.standsBefore old.id = newBefore, new.standsAfter old.id = newAfter,
    old.standsBefore new.id = oldBefore, old.standsAfter new.id = oldAfter at *
  revert newBefore newAfter oldBefore oldAfter
  decide

/-- A hook that ranks no lower than another has no lower priority. -/
theorem AtLeast.priority_le {a b : Placement} (h : a.AtLeast b) {x y : Int}
    (hx : a.priority = some x) (hy : b.priority = some y) : y ≤ x := by
  let below := { b with subPriority := b.subPriority - 1 }
  have outranked : b.outranks below = true :=
    outranks_iff.mpr fun z hz => ⟨z, hz, Or.inr ⟨rfl, by simp only [below]; omega⟩⟩
  obtain ⟨x', hx', top⟩ := outranks_iff.mp (h below outranked) y hy
  cases hx.symm.trans hx'
  omega

end Placement

namespace PlacementGraph

/-- Hooks that have a priority of their own each. No two of them are wished to stand both ways. -/
structure Distinct (hooks : Inserted) : Prop where
  keys : (hooks.map Prod.fst).Nodup
  prioritized : ∀ hook ∈ hooks, hook.2.priority ≠ none
  priorities : (hooks.map fun hook => hook.2.priority).Nodup
  oneWay : ∀ a ∈ hooks, ∀ b ∈ hooks, a ≠ b → ¬ (a.2.Wishes b.2 ∧ b.2.Wishes a.2)

namespace Distinct

variable {hooks hooks' : Inserted}

theorem perm (d : Distinct hooks) (same : hooks'.Perm hooks) : Distinct hooks' where
  keys := (same.map _).nodup_iff.mpr d.keys
  prioritized hook m := d.prioritized hook (same.mem_iff.mp m)
  priorities := (same.map _).nodup_iff.mpr d.priorities
  oneWay a ma b mb := d.oneWay a (same.mem_iff.mp ma) b (same.mem_iff.mp mb)

/-- Two hooks that rank no lower than each other are one. -/
theorem eq_of_atLeast (d : Distinct hooks) {a b : Nat × Placement} (ma : a ∈ hooks)
    (mb : b ∈ hooks) (above : a.2.AtLeast b.2) (below : b.2.AtLeast a.2) : a = b := by
  obtain ⟨x, hx⟩ := Option.ne_none_iff_exists'.mp (d.prioritized a ma)
  obtain ⟨y, hy⟩ := Option.ne_none_iff_exists'.mp (d.prioritized b mb)
  have same : x = y := Int.le_antisymm (below.priority_le hy hx) (above.priority_le hx hy)
  exact List.inj_on_of_nodup_map d.priorities ma mb (by simp only [hx, hy, same])

/-- Which of two hooks must stand first is a matter of the wishes, not of who came first. -/
theorem mustPrecede_iff (d : Distinct hooks) {a b : Nat} :
    MustPrecede hooks a b ↔ ∃ x ∈ hooks, ∃ y ∈ hooks,
      x ≠ y ∧ x.2.Wishes y.2 ∧ a = x.1 ∧ b = y.1 := by
  have nodup : hooks.Nodup := List.Nodup.of_map _ d.keys
  constructor
  · rintro ⟨old, new, s, h⟩
    have mo : old ∈ hooks := s.subset (by simp)
    have mn : new ∈ hooks := s.subset (by simp)
    have other : old ≠ new := List.pairwise_iff_forall_sublist.mp nodup s
    have ⟨newFirst, oldFirst⟩ :=
      Placement.precedence_of_wishes (d.oneWay old mo new mn other)
    rcases h with ⟨first, rfl, rfl⟩ | ⟨first, rfl, rfl⟩
    · exact ⟨new, mn, old, mo, other.symm, newFirst.mp first, rfl, rfl⟩
    · exact ⟨old, mo, new, mn, other, oldFirst.mp first, rfl, rfl⟩
  · rintro ⟨x, mx, y, my, other, wish, rfl, rfl⟩
    rcases Keyed.sublist_or_sublist mx my other with s | s
    · have oldFirst := (Placement.precedence_of_wishes (d.oneWay x mx y my other)).2
      exact ⟨x, y, s, Or.inr ⟨oldFirst.mpr wish, rfl, rfl⟩⟩
    · have newFirst := (Placement.precedence_of_wishes (d.oneWay y my x mx other.symm)).1
      exact ⟨y, x, s, Or.inl ⟨newFirst.mpr wish, rfl, rfl⟩⟩

theorem mustPrecede_perm (d : Distinct hooks) (same : hooks'.Perm hooks) (a b : Nat) :
    MustPrecede hooks' a b ↔ MustPrecede hooks a b := by
  simp only [(d.perm same).mustPrecede_iff, d.mustPrecede_iff, same.mem_iff]

end Distinct

/-! ## Walks that agree -/

theorem foldlM_keeps {act : List Nat → Nat → Except Nat (List Nat)}
    (one : ∀ order key order', act order key = .ok order' → order ⊆ order') (keys : List Nat)
    {order order' : List Nat} (h : keys.foldlM act order = .ok order') : order ⊆ order' := by
  induction keys generalizing order with
  | nil =>
    cases h
    exact List.Subset.refl _
  | cons first rest ih =>
    rw [List.foldlM_cons] at h
    rcases visited : act order first with e | middle
    · rw [visited] at h; cases h
    · rw [visited] at h
      exact List.Subset.trans (one order first middle visited) (ih h)

/-- A visit takes no key out of the order, and afterwards its own key is there. -/
theorem visit_keeps {earlierThan : Nat → List Nat} {free : List Nat} {key : Nat}
    {order order' : List Nat} (h : visit earlierThan free key order = .ok order') :
    order ⊆ order' ∧ key ∈ order' := by
  induction free, key, order using visit.induct generalizing order' with
  | case1 free key order there =>
    rw [visit, if_pos there] at h
    cases h
    exact ⟨List.Subset.refl _, there⟩
  | case2 free key order absent isFree ih =>
    rw [visit, if_neg absent, if_pos isFree] at h
    rcases inner : (earlierThan key).foldlM
      (fun order earlier => visit earlierThan (free.erase key) earlier order) order
        with e | middle
    · rw [inner] at h; cases h
    · rw [inner] at h
      cases h
      have kept := foldlM_keeps (fun order earlier _ h' => (ih order earlier h').1) _ inner
      exact ⟨List.Subset.trans kept (List.subset_append_left _ _), by simp⟩
  | case3 free key order absent taken =>
    rw [visit, if_neg absent, if_neg taken] at h
    cases h

/-- Keys that are in the order already need no visit. -/
theorem foldlM_visit_skip {earlierThan : Nat → List Nat} {free : List Nat} (keys : List Nat)
    {key : Nat} {order : List Nat} (there : key ∈ order) :
    keys.foldlM (fun order key => visit earlierThan free key order) order
      = (keys.filter (· != key)).foldlM (fun order key => visit earlierThan free key order)
          order := by
  induction keys generalizing order with
  | nil => rfl
  | cons first rest ih =>
    by_cases it : first = key
    · rw [List.filter_cons_of_neg (by simp [it]), List.foldlM_cons, it, visit, if_pos there]
      exact ih there
    · rw [List.filter_cons_of_pos (by simpa using it), List.foldlM_cons, List.foldlM_cons]
      rcases visited : visit earlierThan free first order with e | middle
      · rfl
      · exact ih ((visit_keeps visited).1 there)

/-- Ranked lists of the same keys are visited alike, however often a key stands in them. -/
theorem foldlM_visit_ranked {earlierThan : Nat → List Nat} {free : List Nat}
    {above : Nat → Nat → Prop} {keys keys' : List Nat} (ranked : keys.Pairwise above)
    (ranked' : keys'.Pairwise above) (same : ∀ key, key ∈ keys' ↔ key ∈ keys)
    (antisymm : ∀ a ∈ keys, ∀ b ∈ keys, above a b → above b a → a = b) (order : List Nat) :
    keys'.foldlM (fun order key => visit earlierThan free key order) order
      = keys.foldlM (fun order key => visit earlierThan free key order) order := by
  generalize size : keys.length = count
  induction count using Nat.strong_induction_on generalizing keys keys' order with
  | _ count ih =>
    rcases keys with _ | ⟨first, rest⟩
    · have none : keys' = [] := List.eq_nil_iff_forall_not_mem.mpr fun key m => by
        simpa using (same key).mp m
      rw [none]
    rcases keys' with _ | ⟨first', rest'⟩
    · simpa using (same first).mpr List.mem_cons_self
    obtain ⟨top, below⟩ := List.pairwise_cons.mp ranked
    obtain ⟨top', below'⟩ := List.pairwise_cons.mp ranked'
    have here : first' = first := by
      by_contra other
      have m : first' ∈ rest :=
        (List.mem_cons.mp ((same first').mp List.mem_cons_self)).resolve_left other
      have m' : first ∈ rest' :=
        (List.mem_cons.mp ((same first).mpr List.mem_cons_self)).resolve_left (Ne.symm other)
      exact other (antisymm first' (List.mem_cons_of_mem _ m) first List.mem_cons_self
        (top' first m') (top first' m))
    subst here
    rw [List.foldlM_cons, List.foldlM_cons]
    rcases visited : visit earlierThan free first' order with e | middle
    · rfl
    -- Without the key that was visited both lists still have the same keys.
    have there : first' ∈ middle := (visit_keeps visited).2
    have fewer : (rest.filter (· != first')).length < count := by
      have := List.length_filter_le (· != first') rest
      rw [List.length_cons] at size
      omega
    have left : ∀ key, key ∈ rest'.filter (· != first') ↔ key ∈ rest.filter (· != first') := by
      intro key
      have := same key
      simp only [List.mem_cons] at this
      simp only [List.mem_filter, bne_iff_ne]
      exact ⟨fun m => ⟨(this.mp (Or.inr m.1)).resolve_left m.2, m.2⟩,
        fun m => ⟨(this.mpr (Or.inr m.1)).resolve_left m.2, m.2⟩⟩
    have kept {key : Nat} (m : key ∈ rest.filter (· != first')) : key ∈ first' :: rest :=
      List.mem_cons_of_mem _ (List.mem_filter.mp m).1
    let act := fun order key => visit earlierThan free key order
    calc rest'.foldlM act middle
        = (rest'.filter (· != first')).foldlM act middle := foldlM_visit_skip rest' there
      _ = (rest.filter (· != first')).foldlM act middle :=
          ih _ fewer (below.filter _) (below'.filter _) left
            (fun a ma b mb => antisymm a (kept ma) b (kept mb)) middle rfl
      _ = rest.foldlM act middle := (foldlM_visit_skip rest there).symm

/-- Visits agree if the same keys must stand earlier and both lists of them are ranked. -/
theorem visit_ranked {earlier earlier' : Nat → List Nat} {above : Nat → Nat → Nat → Prop}
    (ranked : ∀ key, (earlier key).Pairwise (above key))
    (ranked' : ∀ key, (earlier' key).Pairwise (above key))
    (same : ∀ a b, Earlier earlier' a b ↔ Earlier earlier a b)
    (antisymm : ∀ key, ∀ a ∈ earlier key, ∀ b ∈ earlier key,
      above key a b → above key b a → a = b) :
    visit earlier' = visit earlier := by
  funext free key order
  induction free, key, order using visit.induct with
  | case1 free key order there => rw [visit, visit, if_pos there, if_pos there]
  | case2 free key order absent isFree ih =>
    rw [visit, visit, if_neg absent, if_neg absent, if_pos isFree, if_pos isFree]
    simp only [ih]
    rw [foldlM_visit_ranked (ranked key) (ranked' key) (fun a => same a key) (antisymm key)]
  | case3 free key order absent taken =>
    rw [visit, visit, if_neg absent, if_neg absent, if_neg taken, if_neg taken]

/-! ## Graphs of the same hooks -/

section Alike

variable {hooks hooks' : Inserted} {g g' : PlacementGraph}

/-- By which placement a key is ranked is a matter of the hooks that are there. -/
theorem Recorded.rankOf_eq (r : Recorded hooks g) (r' : Recorded hooks' g')
    (same : hooks'.Perm hooks) : g'.rankOf = g.rankOf := by
  funext key
  have placements : g'.placement? key = g.placement? key := Option.ext fun p => by
    rw [r.placement?_eq_some, r'.placement?_eq_some, same.mem_iff]
  unfold rankOf
  rw [placements]

theorem Recorded.rankOf_mem (r : Recorded hooks g) {key : Nat}
    (m : key ∈ g.hooks.map PlacedHook.key) : (key, g.rankOf key) ∈ hooks := by
  obtain ⟨hook, mh, rfl⟩ := List.mem_map.mp ((r.mem_keys key).mp m)
  have there := (r.placement?_eq_some hook.1 hook.2).mpr mh
  rw [rankOf, there]
  exact mh

theorem Recorded.rankOf_key (r : Recorded hooks g) {h : PlacedHook} (m : h ∈ g.hooks) :
    g.rankOf h.key = h.placement := by
  have there := (r.placement?_eq_some h.key h.placement).mpr
    (r.same.mem_iff.mp (List.mem_map_of_mem m))
  rw [rankOf, there]
  rfl

/-- Two keys of different hooks never rank alike. -/
theorem Distinct.antisymm (d : Distinct hooks) (r : Recorded hooks g) {a b : Nat}
    (ma : a ∈ g.hooks.map PlacedHook.key) (mb : b ∈ g.hooks.map PlacedHook.key)
    (above : (g.rankOf a).AtLeast (g.rankOf b)) (below : (g.rankOf b).AtLeast (g.rankOf a)) :
    a = b :=
  congrArg Prod.fst (d.eq_of_atLeast (r.rankOf_mem ma) (r.rankOf_mem mb) above below)

theorem InRank.keys (i : InRank g) (r : Recorded hooks g) :
    (g.hooks.map PlacedHook.key).Pairwise fun a b => (g.rankOf a).AtLeast (g.rankOf b) := by
  refine List.pairwise_map.mpr (List.Pairwise.imp_of_mem (fun ma mb above => ?_) i.hooks)
  rwa [r.rankOf_key ma, r.rankOf_key mb]

theorem InRank.earlierThan (i : InRank g) (key : Nat) :
    Placement.Ranked g.rankOf (g.earlierThan key) := by
  unfold PlacementGraph.earlierThan
  rcases found : g.find? key with _ | h
  · exact List.Pairwise.nil
  · exact i.earlier h (List.mem_of_find?_eq_some found)

/-- Two graphs that the same hooks have built are walked alike. -/
theorem Built.order_eq (d : Distinct hooks) (b : Built hooks g) (b' : Built hooks' g')
    (same : hooks'.Perm hooks) : g'.order = g.order := by
  have r := b.sound.recorded
  have r' := b'.sound.recorded
  have ranks : g'.rankOf = g.rankOf := r.rankOf_eq r' same
  have keys : g'.hooks.map PlacedHook.key = g.hooks.map PlacedHook.key := by
    have mem : (g'.hooks.map PlacedHook.key).Perm (g.hooks.map PlacedHook.key) :=
      r'.keys.trans ((same.map _).trans r.keys.symm)
    have ranked' := b'.inRank.keys r'
    rw [ranks] at ranked'
    exact mem.eq_of_pairwise
      (fun a b ma mb => d.antisymm r (mem.mem_iff.mp ma) mb) ranked' (b.inRank.keys r)
  have visits : visit g'.earlierThan = visit g.earlierThan := by
    refine visit_ranked b.inRank.earlierThan (fun key => ranks ▸ b'.inRank.earlierThan key)
      (fun a k => ?_) (fun key a ma c mc => ?_)
    · rw [r'.earlier_iff, r.earlier_iff, d.mustPrecede_perm same]
    · exact d.antisymm r (earlierThan_known r.closed key a ma)
        (earlierThan_known r.closed key c mc)
  have walks : g'.linearize = g.linearize := by
    unfold linearize
    rw [keys, visits]
  exact Except.ok.inj ((b'.sound.ordered.symm.trans walks).trans b.sound.ordered)

end Alike

/-! ## Insertions -/

/-- The answers to insertions, one after the other, and the graph that they leave. -/
def insertAll (g : PlacementGraph) : Inserted → List (Except Fault Unit) × PlacementGraph
  | [] => ([], g)
  | (key, p) :: rest =>
    let (answer, next) := g.insert key p
    let (answers, last) := next.insertAll rest
    (answer :: answers, last)

theorem MustPrecede.sublist {hooks hooks' : Inserted} {a b : Nat} (h : MustPrecede hooks a b)
    (s : hooks.Sublist hooks') : MustPrecede hooks' a b := by
  obtain ⟨old, new, pair, wishes⟩ := h
  exact ⟨old, new, pair.trans s, wishes⟩

/-- Insertions all succeed and build a graph, or one of them closes a circle. -/
theorem Built.of_insertAll {front : Inserted} {g : PlacementGraph} (b : Built front g)
    (hooks : Inserted) (keys : ((front ++ hooks).map Prod.fst).Nodup) :
    (∃ id, .error (.orderCycle id) ∈ (g.insertAll hooks).1) ∧
        HasCircle (MustPrecede (front ++ hooks)) ∨
      (∀ answer ∈ (g.insertAll hooks).1, answer = .ok ()) ∧
        Built (front ++ hooks) (g.insertAll hooks).2 := by
  induction hooks generalizing front g with
  | nil => exact Or.inr ⟨by simp [insertAll], by simpa [insertAll] using b⟩
  | cons hook rest ih =>
    obtain ⟨key, p⟩ := hook
    have whole : front ++ (key, p) :: rest = (front ++ [(key, p)]) ++ rest := by simp
    rw [whole] at keys ⊢
    have fresh : key ∉ front.map Prod.fst := by
      have := (List.nodup_append.mp (List.map_append ▸ keys)).1
      rw [List.map_append, List.nodup_append] at this
      exact fun m => this.2.2 key m key (by simp) rfl
    rcases b.sound.insert fresh p with ⟨⟨id, refused⟩, circle⟩ | ⟨g', taken, _, _⟩
    · refine Or.inl ⟨⟨id, by simp [insertAll, refused]⟩, ?_⟩
      exact circle.mono fun a b h => h.sublist (List.sublist_append_left _ _)
    · have next := ih (b.snoc taken) keys
      simpa [insertAll, taken] using next

/-! ## The law -/

/-- Hooks of different priorities, no two of which are wished to stand both ways, are inserted
into nothing in two sequences. Either each time a hook is refused for a circle, or each time all
are accepted, and the orders are the same. -/
theorem different_priorities_fix_the_order {hooks hooks' : Inserted} (distinct : Distinct hooks)
    (same : hooks'.Perm hooks) :
    let one := insertAll {} hooks
    let other := insertAll {} hooks'
    ((∃ id, .error (.orderCycle id) ∈ one.1) ∧ ∃ id, .error (.orderCycle id) ∈ other.1) ∨
      (∀ answer ∈ one.1, answer = .ok ()) ∧ (∀ answer ∈ other.1, answer = .ok ()) ∧
        one.2.order = other.2.order := by
  intro one other
  have circles : HasCircle (MustPrecede hooks') ↔ HasCircle (MustPrecede hooks) :=
    ⟨fun h => h.mono fun a b => (distinct.mustPrecede_perm same a b).mp,
      fun h => h.mono fun a b => (distinct.mustPrecede_perm same a b).mpr⟩
  have first := Built.nil.of_insertAll hooks distinct.keys
  have second := Built.nil.of_insertAll hooks' (distinct.perm same).keys
  rcases first with ⟨refused, circle⟩ | ⟨taken, built⟩ <;>
    rcases second with ⟨refused', circle'⟩ | ⟨taken', built'⟩
  · exact Or.inl ⟨refused, refused'⟩
  · exact absurd (circles.mpr circle) built'.sound.no_circle
  · exact absurd (circles.mp circle') built.sound.no_circle
  · exact Or.inr ⟨taken, taken', (built.order_eq distinct built' same).symm⟩

/-- Both of the first and the last hook wish that the first stands earlier. -/
def threeHooks : Inserted :=
  [(0, { id := "a", priority := some 1, before := ["c"] }), (1, { id := "b", priority := some 3 }),
    (2, { id := "c", priority := some 2, before := ["b"], after := ["a"] })]

theorem three_hooks_have_one_order :
    Distinct threeHooks ∧ (insertAll {} threeHooks).1 = [.ok (), .ok (), .ok ()] ∧
      (insertAll {} threeHooks.reverse).2.order = [0, 2, 1] := by
  have distinct : Distinct threeHooks := ⟨by decide, by decide, by decide, by decide⟩
  have taken : (insertAll {} threeHooks).1 = [.ok (), .ok (), .ok ()] := by decide +kernel
  have order : (insertAll {} threeHooks).2.order = [0, 2, 1] := by decide +kernel
  refine ⟨distinct, taken, ?_⟩
  rcases different_priorities_fix_the_order distinct threeHooks.reverse_perm with
    ⟨⟨id, refused⟩, _⟩ | ⟨_, _, same⟩
  · simp [taken] at refused
  · exact same.symm.trans order

end PlacementGraph

end Detouring
