-- A graph of placed hooks remembers nothing but the hooks that are in it: whatever was inserted,
-- refused and removed before, it is the graph that its hooks build when they are inserted alone.
import Detouring.Proofs.Hook.Constraints

namespace Detouring

/-! ## Lists in order of rank -/

namespace Placement

theorem outranks_iff {old new : Placement} :
    old.outranks new = true ↔ ∀ b, new.priority = some b → ∃ a, old.priority = some a ∧
      (b < a ∨ a = b ∧ new.subPriority < old.subPriority) := by
  unfold outranks
  rcases new.priority with _ | b <;> rcases old.priority with _ | a <;> simp

/-- `a` stands in front of each newly placed hook that `b` stands in front of. -/
def AtLeast (a b : Placement) : Prop := ∀ new, b.outranks new = true → a.outranks new = true

/-- A hook that keeps its place in front of a new one ranks no lower. -/
theorem atLeast_of_outranks {old new : Placement} (h : old.outranks new = true) :
    old.AtLeast new := by
  intro later hl
  rw [outranks_iff] at *
  intro c hc
  obtain ⟨b, hb, above⟩ := hl c hc
  obtain ⟨a, ha, top⟩ := h b hb
  exact ⟨a, ha, by omega⟩

/-- A new hook that takes the place of another ranks no lower. -/
theorem atLeast_of_not_outranks {old new : Placement} (h : old.outranks new = false) :
    new.AtLeast old := by
  intro later hl
  rw [← Bool.not_eq_true, outranks_iff, not_forall] at h
  obtain ⟨b, h⟩ := h
  obtain ⟨hb, h⟩ := Classical.not_imp.mp h
  rw [outranks_iff] at *
  intro c hc
  obtain ⟨a, ha, above⟩ := hl c hc
  have below : ¬ (b < a ∨ a = b ∧ new.subPriority < old.subPriority) :=
    fun top => h ⟨a, ha, top⟩
  exact ⟨b, hb, by omega⟩

/-- Things in order of the rank of their placements. -/
def Ranked {α : Type} (placementOf : α → Placement) (things : List α) : Prop :=
  things.Pairwise fun a b => (placementOf a).AtLeast (placementOf b)

variable {α : Type} {placementOf : α → Placement} {things : List α}

theorem Ranked.congr {other : α → Placement} (h : Ranked placementOf things)
    (same : ∀ x ∈ things, other x = placementOf x) : Ranked other things :=
  List.Pairwise.imp_of_mem (fun ma mb hab => by rwa [same _ ma, same _ mb]) h

theorem Ranked.filter (h : Ranked placementOf things) (keep : α → Bool) :
    Ranked placementOf (things.filter keep) := List.Pairwise.filter keep h

/-- In a ranked list those that outrank a new hook stand at the front. -/
theorem Ranked.split (h : Ranked placementOf things) (new : Placement) :
    things.takeWhile (fun y => (placementOf y).outranks new)
        = things.filter (fun y => (placementOf y).outranks new) ∧
      things.dropWhile (fun y => (placementOf y).outranks new)
        = things.filter (fun y => !(placementOf y).outranks new) := by
  induction things with
  | nil => exact ⟨rfl, rfl⟩
  | cons first rest ih =>
    obtain ⟨top, ranked⟩ := List.pairwise_cons.mp h
    rcases keeps : (placementOf first).outranks new
    · have none : ∀ y ∈ rest, (placementOf y).outranks new = false := fun y m => by
        by_contra outranks
        have := top y m new (by simpa using outranks)
        exact absurd (keeps.symm.trans this) (by decide)
      have front : rest.filter (fun y => (placementOf y).outranks new) = [] :=
        List.filter_eq_nil_iff.mpr fun y m => by simp [none y m]
      have back : rest.filter (fun y => !(placementOf y).outranks new) = rest :=
        List.filter_eq_self.mpr fun y m => by simp [none y m]
      simp [keeps, front, back]
    · obtain ⟨front, back⟩ := ih ranked
      simp [keeps, front, back]

theorem insertRanked_eq_filter (h : Ranked placementOf things) (new : Placement) (x : α) :
    insertRanked placementOf new x things
      = things.filter (fun y => (placementOf y).outranks new)
        ++ x :: things.filter (fun y => !(placementOf y).outranks new) := by
  unfold insertRanked
  rw [(h.split new).1, (h.split new).2]

/-- A thing finds its place among the things that stay. -/
theorem Ranked.filter_insertRanked (h : Ranked placementOf things) (new : Placement) {x : α}
    {keep : α → Bool} (kept : keep x = true) :
    (insertRanked placementOf new x things).filter keep
      = insertRanked placementOf new x (things.filter keep) := by
  rw [insertRanked_eq_filter h, insertRanked_eq_filter (h.filter keep), List.filter_append,
    List.filter_cons_of_pos kept]
  simp only [List.filter_filter, Bool.and_comm]

/-- A ranked list in which the newcomer finds its place keeps any further order that agrees with
that place. -/
theorem Ranked.pairwise_insertRanked (h : Ranked placementOf things) {r : α → α → Prop}
    (kept : things.Pairwise r) {new : Placement} {x : α}
    (above : ∀ y ∈ things, (placementOf y).outranks new = true → r y x)
    (below : ∀ y ∈ things, (placementOf y).outranks new = false → r x y) :
    (Placement.insertRanked placementOf new x things).Pairwise r := by
  obtain ⟨inFront, behind⟩ := h.split new
  rw [← List.takeWhile_append_dropWhile (p := fun y => (placementOf y).outranks new) (l := things),
    List.pairwise_append] at kept
  obtain ⟨front, back, across⟩ := kept
  refine List.pairwise_append.mpr ⟨front, List.pairwise_cons.mpr ⟨fun y m => ?_, back⟩,
    fun y my z mz => ?_⟩
  · rw [behind] at m
    obtain ⟨my, outranked⟩ := List.mem_filter.mp m
    exact below y my (by simpa using outranked)
  · rcases List.mem_cons.mp mz with rfl | mz
    · rw [inFront] at my
      exact above y (List.mem_filter.mp my).1 (List.mem_filter.mp my).2
    · exact across y my z mz

theorem Ranked.insertRanked (h : Ranked placementOf things) (x : α) :
    Ranked placementOf (insertRanked placementOf (placementOf x) x things) :=
  h.pairwise_insertRanked h (fun _ _ => atLeast_of_outranks) fun _ _ => atLeast_of_not_outranks

theorem insertRanked_congr {other : α → Placement} (same : ∀ x ∈ things, other x = placementOf x)
    (new : Placement) (x : α) :
    Placement.insertRanked other new x things
      = Placement.insertRanked placementOf new x things := by
  have swap : things.takeWhile (fun y => (other y).outranks new)
        = things.takeWhile (fun y => (placementOf y).outranks new) ∧
      things.dropWhile (fun y => (other y).outranks new)
        = things.dropWhile (fun y => (placementOf y).outranks new) := by
    induction things with
    | nil => exact ⟨rfl, rfl⟩
    | cons first rest ih =>
      have here := same first List.mem_cons_self
      obtain ⟨front, back⟩ := ih fun y m => same y (List.mem_cons_of_mem _ m)
      simp [List.takeWhile_cons, List.dropWhile_cons, here, front, back]
  unfold Placement.insertRanked
  rw [swap.1, swap.2]

theorem find?_insertRanked {new : Placement} {x : α} {wanted : α → Bool}
    (other : wanted x = false) :
    (Placement.insertRanked placementOf new x things).find? wanted = things.find? wanted := by
  have whole := List.takeWhile_append_dropWhile
    (p := fun y => (placementOf y).outranks new) (l := things)
  calc (Placement.insertRanked placementOf new x things).find? wanted
      = (things.takeWhile (fun y => (placementOf y).outranks new)
          ++ things.dropWhile (fun y => (placementOf y).outranks new)).find? wanted := by
        simp only [Placement.insertRanked, List.find?_append, List.find?_cons, other]
    _ = things.find? wanted := by rw [whole]

theorem map_insertRanked {f : α → α} (same : ∀ y, placementOf (f y) = placementOf y)
    (new : Placement) (x : α) :
    (Placement.insertRanked placementOf new x things).map f
      = Placement.insertRanked placementOf new (f x) (things.map f) := by
  have keeps : (fun y => (placementOf y).outranks new) ∘ f
      = fun y => (placementOf y).outranks new := funext fun y => by simp [same]
  simp only [Placement.insertRanked, List.map_append, List.map_cons, List.takeWhile_map,
    List.dropWhile_map, keeps]

end Placement

namespace PlacementGraph

/-! ## Graphs in order of rank -/

/-- The hooks of a graph stand in order of rank, and so do those that must precede each. -/
structure InRank (g : PlacementGraph) : Prop where
  hooks : Placement.Ranked PlacedHook.placement g.hooks
  earlier : ∀ h ∈ g.hooks, Placement.Ranked g.rankOf h.earlier

theorem rankOf_congr {g g' : PlacementGraph} (h : g.hooks = g'.hooks) : g.rankOf = g'.rankOf := by
  funext key
  simp only [rankOf, placement?, find?, h]

theorem rankOf_link (g : PlacementGraph) (e : Edge) : (g.link e).rankOf = g.rankOf := by
  funext key
  have keys : (fun h : PlacedHook => h.key == key) ∘ linked g e = fun h => h.key == key := by
    funext h
    simp [linked_keeps g e h]
  have placements : PlacedHook.placement ∘ linked g e = PlacedHook.placement := by
    funext h
    simp [linked_keeps g e h]
  simp only [rankOf, placement?, find?, hooks_link, List.find?_map, keys, Option.map_map,
    placements]

/-- A graph without one hook. -/
abbrev lacking (g : PlacementGraph) (key : Nat) : PlacementGraph :=
  { g with hooks := without key g.hooks }

theorem rankOf_lacking (g : PlacementGraph) {key other : Nat} (h : other ≠ key) :
    (g.lacking key).rankOf other = g.rankOf other := by
  have wanted : (fun x : PlacedHook => decide ((x.key != key) = true ∧ (x.key == other) = true))
      = fun x => x.key == other := by
    funext x
    by_cases it : x.key = other
    · simp [it, h]
    · simp [it]
  have placements : (fun x : PlacedHook => x.placement) = PlacedHook.placement := rfl
  simp only [rankOf, placement?, find?, without, List.find?_map, Function.comp_def,
    List.find?_filter, wanted, Option.map_map, placements]

/-- A graph with one more hook and no constraints on it. -/
abbrev joined (g : PlacementGraph) (key : Nat) (p : Placement) : PlacementGraph :=
  { g with hooks := Placement.insertRanked PlacedHook.placement p ⟨key, p, []⟩ g.hooks }

theorem rankOf_joined (g : PlacementGraph) (p : Placement) {key other : Nat} (h : other ≠ key) :
    (g.joined key p).rankOf other = g.rankOf other := by
  have skips : (key == other) = false := by simpa using Ne.symm h
  have kept : (g.joined key p).hooks.find? (fun x => x.key == other)
      = g.hooks.find? (fun x => x.key == other) := Placement.find?_insertRanked skips
  simp only [rankOf, placement?, find?, kept]

namespace InRank

variable {g : PlacementGraph}

theorem congr (r : InRank g) {g' : PlacementGraph} (h : g'.hooks = g.hooks) : InRank g' := by
  refine ⟨h ▸ r.hooks, ?_⟩
  rw [h, rankOf_congr h]
  exact r.earlier

theorem joined (r : InRank g) {key : Nat} (fresh : ∀ h ∈ g.hooks, key ∉ h.earlier)
    (p : Placement) : InRank (g.joined key p) := by
  refine ⟨r.hooks.insertRanked ⟨key, p, []⟩, fun h m => ?_⟩
  rcases Placement.mem_insertRanked.mp m with rfl | m
  · exact List.Pairwise.nil
  · exact (r.earlier h m).congr fun x mx =>
      rankOf_joined g p fun same => fresh h m (same ▸ mx)

theorem link (r : InRank g) (e : Edge) : InRank (g.link e) := by
  refine ⟨List.pairwise_map.mpr (r.hooks.imp fun {a b} above => ?_), fun x mx => ?_⟩
  · show (linked g e a).placement.AtLeast (linked g e b).placement
    rw [(linked_keeps g e a).2, (linked_keeps g e b).2]
    exact above
  · obtain ⟨h, m, rfl⟩ := List.mem_map.mp mx
    rw [rankOf_link]
    split
    · exact (r.earlier h m).insertRanked e.earlier
    · exact r.earlier h m

theorem foldl_link (r : InRank g) (edges : List Edge) :
    InRank (edges.foldl PlacementGraph.link g) := by
  induction edges generalizing g with
  | nil => exact r
  | cons e edges ih => exact ih (r.link e)

theorem attach (r : InRank g) {key : Nat} (fresh : ∀ h ∈ g.hooks, key ∉ h.earlier)
    (p : Placement) : InRank (g.attach key p) := (r.joined fresh p).foldl_link _

end InRank

/-! ## A hook that leaves -/

/-- Constraints between other hooks are recorded as if a hook had never been there. -/
theorem without_link_of_ne {g : PlacementGraph} (r : InRank g) {key : Nat} {e : Edge}
    (earlier : e.earlier ≠ key) :
    without key (g.link e).hooks = ((g.lacking key).link e).hooks := by
  have sameKeys : (fun x : PlacedHook => x.key != key) ∘ linked g e = fun x => x.key != key := by
    funext x
    simp [linked_keeps g e x]
  have left : without key (g.link e).hooks = (g.hooks.filter (·.key != key)).map fun x =>
      { linked g e x with earlier := (linked g e x).earlier.filter (· != key) } := by
    unfold without
    rw [hooks_link, List.filter_map, sameKeys, List.map_map]
    rfl
  have right : ((g.lacking key).link e).hooks = (g.hooks.filter (·.key != key)).map fun x =>
      linked (g.lacking key) e { x with earlier := x.earlier.filter (· != key) } := by
    rw [hooks_link]
    exact List.map_map
  rw [left, right]
  refine List.map_congr_left fun x m => ?_
  have ranked := r.earlier x (List.mem_filter.mp m).1
  have ranks : ∀ y ∈ x.earlier.filter (· != key), (g.lacking key).rankOf y = g.rankOf y :=
    fun y my => rankOf_lacking g (by simpa using (List.mem_filter.mp my).2)
  unfold linked
  by_cases it : x.key = e.later
  · rw [if_pos it, if_pos it]
    dsimp only
    rw [ranked.filter_insertRanked _ (by simpa using earlier), rankOf_lacking g earlier,
      Placement.insertRanked_congr ranks]
  · rw [if_neg it, if_neg it]

theorem without_foldl_link_filter {g : PlacementGraph} (r : InRank g) (key : Nat)
    (edges : List Edge) :
    without key (edges.foldl link g).hooks
      = ((edges.filter fun e => e.later != key && e.earlier != key).foldl link
          (g.lacking key)).hooks := by
  induction edges generalizing g with
  | nil => rfl
  | cons e edges ih =>
    rw [List.foldl_cons, ih (r.link e)]
    rcases away : (e.later != key && e.earlier != key)
    · have touches : e.later = key ∨ e.earlier = key := by
        simp only [Bool.and_eq_false_iff, bne_eq_false_iff_eq] at away
        exact away
      rw [List.filter_cons_of_neg (by simp [away])]
      unfold lacking
      rw [without_link g touches]
      rfl
    · have earlier : e.earlier ≠ key := by simpa using (Bool.and_eq_true_iff.mp away).2
      rw [List.filter_cons_of_pos (by simpa using away), List.foldl_cons]
      unfold lacking
      rw [without_link_of_ne r earlier]
      rfl

theorem flatMap_edges_without {key other : Nat} (h : key ≠ other) (p : Placement)
    (hooks : List PlacedHook) :
    (without other hooks).flatMap (PlacedHook.edges key p)
      = (hooks.flatMap (PlacedHook.edges key p)).filter
          fun e => e.later != other && e.earlier != other := by
  induction hooks with
  | nil => rfl
  | cons x hooks ih =>
    have names : ∀ e ∈ x.edges key p, (e.later != other && e.earlier != other)
        = (x.key != other) := by
      intro e m
      rcases mem_edges.mp m with ⟨_, rfl⟩ | ⟨_, rfl⟩ <;> simp [h]
    unfold without at *
    by_cases it : x.key = other
    · have none : (x.edges key p).filter (fun e => e.later != other && e.earlier != other) = [] :=
        List.filter_eq_nil_iff.mpr fun e m => by simp [names e m, it]
      rw [List.filter_cons_of_neg (by simp [it]), ih, List.flatMap_cons, List.filter_append,
        none, List.nil_append]
    · have all : (x.edges key p).filter (fun e => e.later != other && e.earlier != other)
          = x.edges key p := List.filter_eq_self.mpr fun e m => by simp [names e m, it]
      rw [List.filter_cons_of_pos (by simp [it]), List.map_cons, List.flatMap_cons, ih,
        List.flatMap_cons, List.filter_append, all]
      rfl

/-- A hook joins a graph as if another had never been there. -/
theorem without_attach {g : PlacementGraph} (r : InRank g) {key other : Nat} (h : key ≠ other)
    (fresh : ∀ x ∈ g.hooks, key ∉ x.earlier) (p : Placement) :
    without other (g.attach key p).hooks = ((g.lacking other).attach key p).hooks := by
  have base : (g.joined key p).lacking other = (g.lacking other).joined key p := by
    unfold lacking joined without
    rw [r.hooks.filter_insertRanked p (by simpa using h), Placement.map_insertRanked (by simp)]
    rfl
  have away := without_foldl_link_filter (r.joined fresh p) other
    (g.hooks.flatMap (PlacedHook.edges key p))
  rw [base, ← flatMap_edges_without h] at away
  exact away

/-! ## Built graphs -/

/-- Inserting these hooks one after another builds the graph, and none of them is refused. -/
inductive Built : Inserted → PlacementGraph → Prop
  | nil : Built [] {}
  | snoc {hooks : Inserted} {g g' : PlacementGraph} {key : Nat} {p : Placement} :
      Built hooks g → g.insert key p = (.ok (), g') → Built (hooks ++ [(key, p)]) g'

theorem attach_congr {g g' : PlacementGraph} (h : g.hooks = g'.hooks) {key : Nat}
    {p : Placement} : (g.attach key p).hooks = (g'.attach key p).hooks := by
  have links (edges : List Edge) : ∀ a b : PlacementGraph, a.hooks = b.hooks →
      (edges.foldl link a).hooks = (edges.foldl link b).hooks := by
    induction edges with
    | nil => exact fun _ _ same => same
    | cons e edges ih =>
      intro a b same
      refine ih _ _ ?_
      simp only [link, rankOf_congr same, same]
  simp only [attach, h]
  exact links _ _ _ rfl

/-- Two sound graphs with the same hooks have them in the same order. -/
theorem Sound.ext {hooks hooks' : Inserted} {g g' : PlacementGraph} (s : Sound hooks g)
    (s' : Sound hooks' g') (same : g.hooks = g'.hooks) : g = g' := by
  have order : Except.ok g.order = Except.ok g'.order :=
    (s.ordered.symm.trans (linearize_congr same)).trans s'.ordered
  obtain ⟨_, _⟩ := g
  obtain ⟨_, _⟩ := g'
  cases same
  cases order
  rfl

theorem Recorded.absent {hooks : Inserted} {g : PlacementGraph} (r : Recorded hooks g)
    {key : Nat} (h : g.contains key = false) : key ∉ hooks.map Prod.fst := by
  rw [← r.contains_iff, h]
  simp

/-- What an accepted hook comes to. -/
theorem of_insert_ok {g g' : PlacementGraph} {key : Nat} {p : Placement}
    (h : g.insert key p = (.ok (), g')) :
    g.contains key = false ∧ g'.hooks = (g.attach key p).hooks := by
  unfold PlacementGraph.insert at h
  split at h
  · cases h
  · next absent =>
    dsimp only at h
    split at h
    · cases h
      exact ⟨by simpa using absent, rfl⟩
    · cases h

theorem hooks_detach (g : PlacementGraph) (key : Nat) :
    (g.detach key).hooks = without key g.hooks := by
  unfold detach
  dsimp only
  split <;> rfl

theorem hooks_remove {hooks : Inserted} {g : PlacementGraph} (s : Sound hooks g) (key : Nat) :
    (g.remove key).hooks = without key g.hooks := by
  unfold PlacementGraph.remove
  rcases there : g.contains key
  · have absent := s.recorded.absent there
    refine (without_absent (fun x m same => ?_) fun x m mk => ?_).symm
    · exact absent ((s.recorded.mem_keys key).mp (same ▸ List.mem_map_of_mem m))
    · exact absent ((s.recorded.earlier x m key).mp mk).mem.1
  · exact hooks_detach g key

/-- A refused hook leaves no trace. -/
theorem Sound.refused {hooks : Inserted} {g g' : PlacementGraph} (s : Sound hooks g) {key : Nat}
    {p : Placement} {e : Fault} (h : g.insert key p = (.error e, g')) : g' = g := by
  by_cases there : key ∈ hooks.map Prod.fst
  · have same := insert_present ((s.recorded.contains_iff key).mpr there) p
    exact (Prod.ext_iff.mp (same.symm.trans h)).2.symm
  · rcases s.insert there p with ⟨⟨id, refused⟩, _⟩ | ⟨g'', taken, _, _⟩
    · exact (Prod.ext_iff.mp (refused.symm.trans h)).2.symm
    · cases taken.symm.trans h

theorem Sound.no_circle {hooks : Inserted} {g : PlacementGraph} (s : Sound hooks g) :
    ¬ HasCircle (MustPrecede hooks) := by
  rw [← s.recorded.hasCircle_iff]
  exact (linearize_ok_iff s.recorded.closed).mp ⟨g.order, s.ordered⟩

namespace Built

variable {hooks : Inserted} {g g' : PlacementGraph} {key : Nat} {p : Placement}

theorem sound (b : Built hooks g) : Sound hooks g := by
  induction b with
  | nil => exact sound_empty
  | @snoc hooks g g' key p _ taken s =>
    have fresh := s.recorded.absent (of_insert_ok taken).1
    rcases s.insert fresh p with ⟨⟨id, refused⟩, _⟩ | ⟨g'', taken', s', _⟩
    · cases refused.symm.trans taken
    · cases taken'.symm.trans taken
      exact s'

/-- An accepted hook was nowhere in the graph. -/
theorem fresh (b : Built hooks g) (taken : g.insert key p = (.ok (), g')) :
    key ∉ hooks.map Prod.fst ∧ ∀ x ∈ g.hooks, key ∉ x.earlier := by
  have r := b.sound.recorded
  have absent := r.absent (of_insert_ok taken).1
  exact ⟨absent, fun x m mk => absent ((r.earlier x m key).mp mk).mem.1⟩

theorem inRank (b : Built hooks g) : InRank g := by
  induction b with
  | nil => exact ⟨List.Pairwise.nil, fun x m => by cases m⟩
  | @snoc hooks g g' key p b taken r =>
    exact (r.attach (b.fresh taken).2 p).congr (of_insert_ok taken).2

theorem remove_last (b : Built hooks g) (taken : g.insert key p = (.ok (), g')) :
    g'.remove key = g := by
  have s' := (b.snoc taken).sound
  refine (s'.remove key).ext b.sound ?_
  calc (g'.remove key).hooks
      = without key (g.attach key p).hooks := by rw [hooks_remove s', (of_insert_ok taken).2]
    _ = ((g.attach key p).detach key).hooks := (hooks_detach _ key).symm
    _ = g.hooks := by rw [detach_attach b.sound (b.fresh taken).1]

/-- A hook that was accepted is accepted where another has left. -/
theorem insert_remove (b : Built hooks g) (taken : g.insert key p = (.ok (), g')) {other : Nat}
    (h : key ≠ other) : (g.remove other).insert key p = (.ok (), g'.remove other) := by
  have s' := (b.snoc taken).sound
  have left := b.sound.remove other
  have filtered : (hooks ++ [(key, p)]).filter (·.1 != other)
      = hooks.filter (·.1 != other) ++ [(key, p)] := by
    rw [List.filter_append, List.filter_cons_of_pos (by simpa using h), List.filter_nil]
  have absent : key ∉ (hooks.filter (·.1 != other)).map Prod.fst := fun m =>
    (b.fresh taken).1 ((List.filter_sublist.map Prod.fst).subset m)
  rcases left.insert absent p with ⟨_, circle⟩ | ⟨g'', again, s'', _⟩
  · have rest := s'.remove other
    rw [filtered] at rest
    exact absurd circle rest.no_circle
  · rw [again, s''.ext (s'.remove other)]
    have removed : (g.remove other).hooks = (g.lacking other).hooks := hooks_remove b.sound other
    calc g''.hooks
        = ((g.remove other).attach key p).hooks := (of_insert_ok again).2
      _ = ((g.lacking other).attach key p).hooks := attach_congr removed
      _ = without other (g.attach key p).hooks :=
        (without_attach b.inRank h (b.fresh taken).2 p).symm
      _ = (g'.remove other).hooks := by rw [hooks_remove s', (of_insert_ok taken).2]

/-- Taking a hook out leaves the graph that the others build. -/
theorem remove (b : Built hooks g) (key : Nat) :
    Built (hooks.filter (·.1 != key)) (g.remove key) := by
  induction b with
  | nil => exact .nil
  | @snoc hooks g g' added p b taken ih =>
    rw [List.filter_append]
    by_cases it : added = key
    · subst it
      have others : hooks.filter (·.1 != added) = hooks :=
        List.filter_eq_self.mpr fun x m => by
          simpa using fun same : x.1 = added => (b.fresh taken).1 (same ▸ List.mem_map_of_mem m)
      rw [b.remove_last taken, others]
      simpa using b
    · rw [List.filter_cons_of_pos (by simpa using it), List.filter_nil]
      exact ih.snoc (b.insert_remove taken it)

end Built

theorem built_change {h : History} (b : Built h.inserted h.graph) (c : Change) :
    Built (h.change c).inserted (h.change c).graph := by
  cases c with
  | insert key p =>
    rcases answer : h.graph.insert key p with ⟨_ | _, g'⟩
    · have same : g' = h.graph := b.sound.refused answer
      simpa only [History.change, answer, same] using b
    · simpa only [History.change, answer] using b.snoc answer
  | remove key => exact b.remove key

theorem built_after (changes : List Change) :
    Built (History.after changes).inserted (History.after changes).graph := by
  unfold History.after
  have start : Built ({} : History).inserted ({} : History).graph := .nil
  generalize ({} : History) = h at start
  induction changes generalizing h with
  | nil => exact start
  | cons c changes ih => exact ih (h.change c) (built_change start c)

/-! ## The law -/

/-- What hooks that build a graph come to when they are inserted into nothing. -/
theorem Built.after_insertions {hooks : Inserted} {g : PlacementGraph} (b : Built hooks g) :
    History.after (hooks.map fun hook => .insert hook.1 hook.2) = ⟨g, hooks⟩ := by
  induction b with
  | nil => rfl
  | snoc _ taken ih =>
    unfold History.after at *
    rw [List.map_append, List.foldl_append, ih]
    simp only [List.map_cons, List.map_nil, List.foldl_cons, List.foldl_nil, History.change, taken]

/-- Whatever was inserted, refused and removed before: the hooks that are left build the very
same graph when they are inserted into nothing, in the order in which they came, and none of them
is refused. In particular a refused hook leaves no trace, and nothing names a hook that was taken
out. -/
theorem a_graph_remembers_only_its_hooks (changes : List Change) :
    let h := History.after changes
    (∀ key p, h.graph.placement? key = some p ↔ (key, p) ∈ h.inserted) ∧
    History.after (h.inserted.map fun hook => .insert hook.1 hook.2) = h ∧
    (∀ key p e, (h.graph.insert key p).1 = .error e → (h.graph.insert key p).2 = h.graph) ∧
    ∀ key, key ∉ (h.graph.remove key).order ∧
      ∀ x ∈ (h.graph.remove key).hooks, x.key ≠ key ∧ key ∉ x.earlier := by
  intro h
  have b : Built h.inserted h.graph := built_after changes
  have s := b.sound
  refine ⟨s.recorded.placement?_eq_some, b.after_insertions, fun key p e refused => ?_,
    fun key => ⟨?_, fun x m => ?_⟩⟩
  · exact s.refused (Prod.ext refused rfl)
  · have rest := s.remove key
    rw [(linearize_ok rest.recorded.closed rest.ordered).2, rest.recorded.mem_keys]
    intro m
    obtain ⟨x, mx, same⟩ := List.mem_map.mp m
    simpa [same] using (List.mem_filter.mp mx).2
  · rw [hooks_remove s] at m
    obtain ⟨y, my, rfl⟩ := List.mem_map.mp m
    exact ⟨by simpa using (List.mem_filter.mp my).2, by simp⟩

end PlacementGraph

end Detouring
