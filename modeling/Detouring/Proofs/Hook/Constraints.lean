-- The laws of the order of placed hooks, after any hooks were inserted, refused and removed: it
-- has every hook once, it keeps every constraint between two hooks, and a hook is refused
-- exactly if it closes a circle of constraints.
import Detouring.Proofs.Hook.Walk

namespace Detouring

/-! ## The constraint between two hooks -/

/-- Which of two hooks must stand first. -/
inductive Precedence where
  | newFirst
  | oldFirst
  | either
deriving DecidableEq

/-- What two hooks wish of each other. The new hook's wish to stand before the old one wins, then
each wish that the old one stands before the new one, then the old one's wish to stand after. -/
def Placement.precedence (old new : Placement) : Precedence :=
  if new.standsBefore old.id then .newFirst
  else if new.standsAfter old.id || old.standsBefore new.id then .oldFirst
  else if old.standsAfter new.id then .newFirst
  else .either

namespace PlacementGraph

/-- The hooks of a graph by key, the one that was inserted first at the front. -/
abbrev Inserted := List (Nat × Placement)

/-- `a` must stand before `b`, by what these two hooks wish. -/
def MustPrecede (hooks : Inserted) (a b : Nat) : Prop :=
  ∃ old new, [old, new].Sublist hooks ∧
    (old.2.precedence new.2 = .newFirst ∧ a = new.1 ∧ b = old.1 ∨
      old.2.precedence new.2 = .oldFirst ∧ a = old.1 ∧ b = new.1)

theorem MustPrecede.mem {hooks : Inserted} {a b : Nat} (h : MustPrecede hooks a b) :
    a ∈ hooks.map Prod.fst ∧ b ∈ hooks.map Prod.fst := by
  obtain ⟨old, new, s, h⟩ := h
  have mo : old.1 ∈ hooks.map Prod.fst := List.mem_map_of_mem (s.subset (by simp))
  have mn : new.1 ∈ hooks.map Prod.fst := List.mem_map_of_mem (s.subset (by simp))
  rcases h with ⟨_, rfl, rfl⟩ | ⟨_, rfl, rfl⟩
  · exact ⟨mn, mo⟩
  · exact ⟨mo, mn⟩

/-- What a hook that is inserted last adds. -/
theorem mustPrecede_snoc {hooks : Inserted} {key : Nat} {p : Placement} {a b : Nat} :
    MustPrecede (hooks ++ [(key, p)]) a b ↔ MustPrecede hooks a b ∨
      ∃ old ∈ hooks, old.2.precedence p = .newFirst ∧ a = key ∧ b = old.1 ∨
        old.2.precedence p = .oldFirst ∧ a = old.1 ∧ b = key := by
  have pair (old new : Nat × Placement) : [old, new].Sublist (hooks ++ [(key, p)]) ↔
      [old, new].Sublist hooks ∨ old ∈ hooks ∧ new = (key, p) := by
    rw [List.sublist_append_iff]
    constructor
    · rintro ⟨front, back, eq, hf, hb⟩
      rcases back with _ | ⟨last, back⟩
      · rw [List.append_nil] at eq
        exact Or.inl (eq ▸ hf)
      · have none : back = [] := by
          have := hb.length_le
          simpa using this
        subst none
        have : front = [old] ∧ last = new := by
          have := List.append_inj' (show [old] ++ [new] = front ++ [last] from eq) rfl
          exact ⟨this.1.symm, (List.cons.inj this.2).1.symm⟩
        obtain ⟨rfl, rfl⟩ := this
        exact Or.inr ⟨List.singleton_sublist.mp hf, by simpa using hb⟩
    · rintro (s | ⟨m, rfl⟩)
      · exact ⟨[old, new], [], by simp, s, List.nil_sublist _⟩
      · exact ⟨[old], [(key, p)], rfl, List.singleton_sublist.mpr m, List.Sublist.refl _⟩
  constructor
  · rintro ⟨old, new, s, h⟩
    rcases (pair old new).mp s with s | ⟨m, rfl⟩
    · exact Or.inl ⟨old, new, s, h⟩
    · exact Or.inr ⟨old, m, h⟩
  · rintro (⟨old, new, s, h⟩ | ⟨old, m, h⟩)
    · exact ⟨old, new, (pair old new).mpr (Or.inl s), h⟩
    · exact ⟨old, (key, p), (pair old _).mpr (Or.inr ⟨m, rfl⟩), h⟩

/-- Without a hook only the constraints of others are left. -/
theorem mustPrecede_filter {hooks : Inserted} {key a b : Nat} :
    MustPrecede (hooks.filter (·.1 != key)) a b ↔
      MustPrecede hooks a b ∧ a ≠ key ∧ b ≠ key := by
  constructor
  · intro h
    have ⟨ma, mb⟩ := h.mem
    obtain ⟨old, new, s, h⟩ := h
    have other {k : Nat} (m : k ∈ (hooks.filter (·.1 != key)).map Prod.fst) : k ≠ key := by
      obtain ⟨x, mx, rfl⟩ := List.mem_map.mp m
      simpa using (List.mem_filter.mp mx).2
    exact ⟨⟨old, new, s.trans List.filter_sublist, h⟩, other ma, other mb⟩
  · rintro ⟨⟨old, new, s, h⟩, ha, hb⟩
    refine ⟨old, new, ?_, h⟩
    have others : old.1 ≠ key ∧ new.1 ≠ key := by
      rcases h with ⟨_, rfl, rfl⟩ | ⟨_, rfl, rfl⟩
      · exact ⟨hb, ha⟩
      · exact ⟨ha, hb⟩
    have kept := s.filter (·.1 != key)
    simpa [others] using kept

/-! ## What a graph records -/

/-- A graph has the hooks that were inserted, and each of them the constraints that it has. -/
structure Recorded (hooks : Inserted) (g : PlacementGraph) : Prop where
  same : (g.hooks.map fun h => (h.key, h.placement)).Perm hooks
  nodup : (hooks.map Prod.fst).Nodup
  earlier : ∀ h ∈ g.hooks, ∀ e, e ∈ h.earlier ↔ MustPrecede hooks e h.key

namespace Recorded

variable {hooks : Inserted} {g : PlacementGraph}

theorem keys (r : Recorded hooks g) :
    (g.hooks.map PlacedHook.key).Perm (hooks.map Prod.fst) := by
  simpa [Function.comp_def] using r.same.map Prod.fst

theorem mem_keys (r : Recorded hooks g) (k : Nat) :
    k ∈ g.hooks.map PlacedHook.key ↔ k ∈ hooks.map Prod.fst := r.keys.mem_iff

theorem closed (r : Recorded hooks g) : Closed g := by
  refine ⟨r.keys.nodup_iff.mpr r.nodup, fun h m e me => ?_⟩
  exact (r.mem_keys e).mpr ((r.earlier h m e).mp me).mem.1

theorem earlier_iff (r : Recorded hooks g) (a b : Nat) :
    Earlier g.earlierThan a b ↔ MustPrecede hooks a b := by
  constructor
  · intro h
    obtain ⟨x, m, rfl, me⟩ := mem_earlierThan h
    exact (r.earlier x m a).mp me
  · intro h
    obtain ⟨x, m, rfl⟩ := List.mem_map.mp ((r.mem_keys b).mpr h.mem.2)
    rw [Earlier, earlierThan_of_mem r.closed.nodup m]
    exact (r.earlier x m a).mpr h

theorem hasCircle_iff (r : Recorded hooks g) :
    HasCircle (Earlier g.earlierThan) ↔ HasCircle (MustPrecede hooks) :=
  ⟨fun h => h.mono fun a b => (r.earlier_iff a b).mp,
    fun h => h.mono fun a b => (r.earlier_iff a b).mpr⟩

theorem contains_iff (r : Recorded hooks g) (k : Nat) :
    g.contains k = true ↔ k ∈ hooks.map Prod.fst := by
  rw [← r.mem_keys]
  simp [contains]

theorem placement?_eq_some (r : Recorded hooks g) (k : Nat) (p : Placement) :
    g.placement? k = some p ↔ (k, p) ∈ hooks := by
  rw [← r.same.mem_iff, List.mem_map]
  unfold placement? find?
  constructor
  · intro h
    obtain ⟨x, found, rfl⟩ := Option.map_eq_some_iff.mp h
    have same := List.find?_some found
    exact ⟨x, List.mem_of_find?_eq_some found, by simpa using same⟩
  · rintro ⟨x, m, eq⟩
    cases eq
    rw [(Keyed.find?_eq_some_iff r.closed.nodup).mpr ⟨m, rfl⟩]
    rfl

end Recorded

/-! ## Inserting -/

theorem mem_edges {key : Nat} {new : Placement} {peer : PlacedHook} {e : Edge} :
    e ∈ peer.edges key new ↔
      peer.placement.precedence new = .newFirst ∧ e = ⟨peer.key, key⟩ ∨
        peer.placement.precedence new = .oldFirst ∧ e = ⟨key, peer.key⟩ := by
  unfold PlacedHook.edges Placement.precedence
  rcases new.standsBefore peer.placement.id <;> rcases new.standsAfter peer.placement.id <;>
    rcases peer.placement.standsBefore new.id <;> rcases peer.placement.standsAfter new.id <;>
    simp

/-- A hook after one more constraint was recorded. -/
def linked (g : PlacementGraph) (e : Edge) (h : PlacedHook) : PlacedHook :=
  if h.key = e.later then
    { h with earlier :=
        Placement.insertRanked g.rankOf (g.rankOf e.earlier) e.earlier h.earlier }
  else h

theorem hooks_link (g : PlacementGraph) (e : Edge) :
    (g.link e).hooks = g.hooks.map (linked g e) := rfl

theorem linked_keeps (g : PlacementGraph) (e : Edge) (h : PlacedHook) :
    (linked g e h).key = h.key ∧ (linked g e h).placement = h.placement := by
  unfold linked
  split <;> exact ⟨rfl, rfl⟩

theorem mem_linked (g : PlacementGraph) (edge : Edge) (h : PlacedHook) (e : Nat) :
    e ∈ (linked g edge h).earlier ↔ e ∈ h.earlier ∨ ⟨h.key, e⟩ = edge := by
  obtain ⟨later, earlier⟩ := edge
  unfold linked
  by_cases it : h.key = later
  · rw [if_pos it, Placement.mem_insertRanked, Edge.mk.injEq]
    exact ⟨fun m => m.elim (fun m => Or.inr ⟨it, m⟩) Or.inl,
      fun m => m.elim Or.inr fun m => Or.inl m.2⟩
  · rw [if_neg it, Edge.mk.injEq]
    exact ⟨Or.inl, fun m => m.elim id fun m => absurd m.1 it⟩

/-- Recording constraints changes nothing of a hook but what must stand earlier. -/
theorem foldl_link (edges : List Edge) (g : PlacementGraph) :
    ∃ f : PlacedHook → PlacedHook, (edges.foldl link g).hooks = g.hooks.map f ∧
      (∀ h, (f h).key = h.key ∧ (f h).placement = h.placement) ∧
      ∀ h e, e ∈ (f h).earlier ↔ e ∈ h.earlier ∨ ⟨h.key, e⟩ ∈ edges := by
  induction edges generalizing g with
  | nil => exact ⟨id, by simp, by simp, by simp⟩
  | cons edge edges ih =>
    obtain ⟨f, eq, keeps, mem⟩ := ih (g.link edge)
    refine ⟨f ∘ linked g edge, ?_, fun h => ?_, fun h e => ?_⟩
    · rw [List.foldl_cons, eq, hooks_link, List.map_map]
    · have one := linked_keeps g edge h
      exact ⟨(keeps _).1.trans one.1, (keeps _).2.trans one.2⟩
    · rw [Function.comp_apply, mem, (linked_keeps g edge h).1, mem_linked, List.mem_cons,
        or_assoc]

theorem Recorded.attach {hooks : Inserted} {g : PlacementGraph} (r : Recorded hooks g)
    {key : Nat} (fresh : key ∉ hooks.map Prod.fst) (p : Placement) :
    Recorded (hooks ++ [(key, p)]) (g.attach key p) := by
  obtain ⟨f, eq, keeps, mem⟩ := foldl_link (g.hooks.flatMap (PlacedHook.edges key p))
    { g with hooks := Placement.insertRanked PlacedHook.placement p ⟨key, p, []⟩ g.hooks }
  have all : (g.attach key p).hooks =
    (Placement.insertRanked PlacedHook.placement p ⟨key, p, []⟩ g.hooks).map f := eq
  have freshHook (h : PlacedHook) (m : h ∈ g.hooks) : h.key ≠ key := fun same =>
    fresh ((r.mem_keys key).mp (same ▸ List.mem_map_of_mem m))
  refine ⟨?_, ?_, ?_⟩
  · have ranked : (Placement.insertRanked PlacedHook.placement p ⟨key, p, []⟩ g.hooks).Perm
        (⟨key, p, []⟩ :: g.hooks) := by
      refine List.perm_middle.trans ?_
      rw [List.takeWhile_append_dropWhile]
    rw [all, List.map_map]
    have same : ((fun h : PlacedHook => (h.key, h.placement)) ∘ f) =
        fun h => (h.key, h.placement) := by
      funext h
      simp [keeps h]
    rw [same]
    refine (ranked.map _).trans ?_
    exact (r.same.cons (key, p)).trans (List.perm_append_singleton _ _).symm
  · rw [List.map_append, List.nodup_append]
    refine ⟨r.nodup, by simp, fun a ma b mb same => ?_⟩
    simp only [List.map_cons, List.map_nil, List.mem_singleton] at mb
    exact fresh (mb ▸ same ▸ ma)
  · intro x mx e
    rw [all] at mx
    obtain ⟨h, m, rfl⟩ := List.mem_map.mp mx
    have edge : (⟨h.key, e⟩ : Edge) ∈ g.hooks.flatMap (PlacedHook.edges key p) ↔
        ∃ old ∈ hooks, old.2.precedence p = .newFirst ∧ e = key ∧ h.key = old.1 ∨
          old.2.precedence p = .oldFirst ∧ e = old.1 ∧ h.key = key := by
      simp only [List.mem_flatMap, mem_edges, Edge.mk.injEq, ← r.same.mem_iff, List.mem_map]
      constructor
      · rintro ⟨peer, mp, h⟩
        exact ⟨_, ⟨peer, mp, rfl⟩, by tauto⟩
      · rintro ⟨_, ⟨peer, mp, rfl⟩, h⟩
        exact ⟨peer, mp, by tauto⟩
    rw [mem, (keeps h).1, mustPrecede_snoc, edge]
    refine or_congr_left ?_
    rcases Placement.mem_insertRanked.mp m with rfl | m
    · constructor
      · intro none
        cases none
      · intro must
        exact absurd must.mem.2 fresh
    · exact r.earlier h m e

/-! ## Taking out -/

/-- The hooks without one key. -/
def without (key : Nat) (hooks : List PlacedHook) : List PlacedHook :=
  (hooks.filter (·.key != key)).map fun h => { h with earlier := h.earlier.filter (· != key) }

theorem without_absent {key : Nat} {hooks : List PlacedHook} (h : ∀ x ∈ hooks, x.key ≠ key)
    (e : ∀ x ∈ hooks, key ∉ x.earlier) : without key hooks = hooks := by
  unfold without
  rw [List.filter_eq_self.mpr (by simpa using h)]
  refine (List.map_congr_left fun x m => ?_).trans (List.map_id _)
  have kept : x.earlier.filter (· != key) = x.earlier :=
    List.filter_eq_self.mpr fun y my => by
      simpa using fun same : y = key => e x m (same ▸ my)
  rw [kept]
  rfl

theorem filter_insertRanked {α : Type} {placementOf : α → Placement} {new : Placement} {x : α}
    {ranked : List α} {keep : α → Bool} (h : keep x = false) :
    (Placement.insertRanked placementOf new x ranked).filter keep = ranked.filter keep := by
  unfold Placement.insertRanked
  rw [List.filter_append, List.filter_cons_of_neg (by simp [h]), ← List.filter_append,
    List.takeWhile_append_dropWhile]

/-- A constraint that names a hook leaves nothing behind when the hook is taken out. -/
theorem without_link {key : Nat} (g : PlacementGraph) {e : Edge}
    (h : e.later = key ∨ e.earlier = key) :
    without key (g.link e).hooks = without key g.hooks := by
  have sameKeys : (fun x : PlacedHook => x.key != key) ∘ linked g e = fun x => x.key != key := by
    funext x
    simp [linked_keeps g e x]
  unfold without
  rw [hooks_link, List.filter_map, sameKeys, List.map_map]
  refine List.map_congr_left fun x m => ?_
  have other : x.key ≠ key := by simpa using (List.mem_filter.mp m).2
  rw [Function.comp_apply]
  unfold linked
  by_cases it : x.key = e.later
  · have earlier : e.earlier = key := h.resolve_left fun same => other (it.trans same)
    rw [if_pos it]
    dsimp only
    rw [filter_insertRanked (by simpa using earlier)]
  · rw [if_neg it]

theorem without_foldl_link {key : Nat} (edges : List Edge) (g : PlacementGraph)
    (h : ∀ e ∈ edges, e.later = key ∨ e.earlier = key) :
    without key (edges.foldl link g).hooks = without key g.hooks ∧
      (edges.foldl link g).order = g.order := by
  induction edges generalizing g with
  | nil => exact ⟨rfl, rfl⟩
  | cons e edges ih =>
    have ⟨hooks, order⟩ := ih (g.link e) fun e m => h e (List.mem_cons_of_mem _ m)
    exact ⟨hooks.trans (without_link g (h e List.mem_cons_self)), order⟩

theorem detach_eq {g : PlacementGraph} {key : Nat} {order : List Nat}
    (h : ({ g with hooks := without key g.hooks } : PlacementGraph).linearize = .ok order) :
    g.detach key = { hooks := without key g.hooks, order } := by
  unfold without at h ⊢
  unfold detach
  dsimp only
  rw [h]

/-! ## Sound graphs -/

/-- A graph records the hooks that were inserted, and its order is theirs. -/
structure Sound (hooks : Inserted) (g : PlacementGraph) : Prop where
  recorded : Recorded hooks g
  ordered : g.linearize = .ok g.order

theorem linearize_congr {g g' : PlacementGraph} (h : g.hooks = g'.hooks) :
    g.linearize = g'.linearize := by
  have earlier : g.earlierThan = g'.earlierThan := by
    funext key
    unfold earlierThan find?
    rw [h]
  unfold linearize
  rw [earlier, h]

theorem sound_empty : Sound [] {} := by
  refine ⟨⟨List.Perm.refl _, List.nodup_nil, fun h m => by cases m⟩, ?_⟩
  rfl

/-- A hook that was attached and is taken out again leaves no trace. -/
theorem detach_attach {hooks : Inserted} {g : PlacementGraph} (s : Sound hooks g) {key : Nat}
    (fresh : key ∉ hooks.map Prod.fst) (p : Placement) : (g.attach key p).detach key = g := by
  have r := s.recorded
  let ranked := Placement.insertRanked PlacedHook.placement p ⟨key, p, []⟩ g.hooks
  have touches : ∀ e ∈ g.hooks.flatMap (PlacedHook.edges key p),
      e.later = key ∨ e.earlier = key := by
    intro e m
    obtain ⟨peer, _, m⟩ := List.mem_flatMap.mp m
    rcases mem_edges.mp m with ⟨_, rfl⟩ | ⟨_, rfl⟩
    · exact Or.inr rfl
    · exact Or.inl rfl
  have linked := (without_foldl_link _ { g with hooks := ranked } touches).1
  have back : without key (g.attach key p).hooks = g.hooks := by
    calc without key (g.attach key p).hooks = without key ranked := linked
      _ = without key g.hooks := by
        unfold without
        rw [filter_insertRanked (by simp)]
      _ = g.hooks := by
        apply without_absent
        · intro x m same
          exact fresh ((r.mem_keys key).mp (same ▸ List.mem_map_of_mem m))
        · intro x m me
          exact fresh ((r.earlier x m key).mp me).mem.1
  rw [detach_eq ((linearize_congr back).trans s.ordered), back]

theorem Sound.insert {hooks : Inserted} {g : PlacementGraph} (s : Sound hooks g) {key : Nat}
    (fresh : key ∉ hooks.map Prod.fst) (p : Placement) :
    ((∃ id, g.insert key p = (.error (.orderCycle id), g)) ∧
        HasCircle (MustPrecede (hooks ++ [(key, p)]))) ∨
      ∃ g', g.insert key p = (.ok (), g') ∧ Sound (hooks ++ [(key, p)]) g' ∧
        ¬ HasCircle (MustPrecede (hooks ++ [(key, p)])) := by
  have absent : g.contains key = false := by
    rw [Bool.eq_false_iff, ne_eq, s.recorded.contains_iff]
    exact fresh
  have attached := s.recorded.attach fresh p
  unfold PlacementGraph.insert
  rw [absent]
  rcases walk : (g.attach key p).linearize with e | order
  · refine Or.inl ⟨⟨((g.attach key p).rankOf e).id, ?_⟩, ?_⟩
    · simp only [Bool.false_eq_true, if_false, walk, detach_attach s fresh p]
    · exact attached.hasCircle_iff.mp (linearize_error attached.closed walk)
  · refine Or.inr ⟨{ g.attach key p with order }, ?_, ⟨?_, ?_⟩, ?_⟩
    · simp only [Bool.false_eq_true, if_false, walk]
    · exact ⟨attached.same, attached.nodup, attached.earlier⟩
    · rw [← walk]
      exact linearize_congr rfl
    · rw [← attached.hasCircle_iff]
      exact (linearize_ok_iff attached.closed).mp ⟨order, walk⟩

theorem insert_present {g : PlacementGraph} {key : Nat} (h : g.contains key = true)
    (p : Placement) : g.insert key p = (.error (.state (.alreadyOrdered p.id)), g) := by
  simp [PlacementGraph.insert, h]

theorem Recorded.detach {hooks : Inserted} {g : PlacementGraph} (r : Recorded hooks g)
    (key : Nat) : Recorded (hooks.filter (·.1 != key))
      { g with hooks := without key g.hooks } := by
  refine ⟨?_, ?_, ?_⟩
  · have kept := r.same.filter (·.1 != key)
    rw [List.filter_map] at kept
    simpa [without, Function.comp_def] using kept
  · exact (List.filter_sublist.map Prod.fst).nodup r.nodup
  · intro x mx e
    obtain ⟨h, m, rfl⟩ := List.mem_map.mp mx
    obtain ⟨m, other⟩ := List.mem_filter.mp m
    have other : h.key ≠ key := by simpa using other
    have kept : e ∈ h.earlier.filter (· != key) ↔ e ∈ h.earlier ∧ e ≠ key := by simp
    rw [kept, mustPrecede_filter, r.earlier h m e]
    exact ⟨fun k => ⟨k.1, k.2, other⟩, fun k => ⟨k.1, k.2.1⟩⟩

theorem Sound.remove {hooks : Inserted} {g : PlacementGraph} (s : Sound hooks g) (key : Nat) :
    Sound (hooks.filter (·.1 != key)) (g.remove key) := by
  unfold PlacementGraph.remove
  rcases there : g.contains key
  · have absent : key ∉ hooks.map Prod.fst := by
      rw [← s.recorded.contains_iff, there]
      simp
    have all : hooks.filter (·.1 != key) = hooks := by
      refine List.filter_eq_self.mpr fun x m => ?_
      simpa using fun same : x.1 = key => absent (same ▸ List.mem_map_of_mem m)
    rw [all]
    exact s
  · have rest := s.recorded.detach key
    have noCircle : ¬ HasCircle (Earlier
        ({ g with hooks := without key g.hooks } : PlacementGraph).earlierThan) := by
      rw [rest.hasCircle_iff]
      intro circle
      refine (linearize_ok_iff s.recorded.closed).mp ⟨g.order, s.ordered⟩ ?_
      rw [s.recorded.hasCircle_iff]
      exact circle.mono fun a b h => (mustPrecede_filter.mp h).1
    obtain ⟨order, walk⟩ := (linearize_ok_iff rest.closed).mpr noCircle
    simp only [if_true, detach_eq walk]
    refine ⟨⟨rest.same, rest.nodup, rest.earlier⟩, ?_⟩
    rw [← walk]
    exact linearize_congr rfl

/-! ## Any changes -/

/-- What can be asked of a graph. -/
inductive Change where
  | insert (key : Nat) (p : Placement)
  | remove (key : Nat)
deriving DecidableEq

/-- A graph with the hooks that were inserted and are still there, the one that was inserted
first at the front. -/
structure History where
  graph : PlacementGraph := {}
  inserted : Inserted := []

def History.change (h : History) : Change → History
  | .insert key p =>
    match h.graph.insert key p with
    | (.ok (), graph) => { graph, inserted := h.inserted ++ [(key, p)] }
    | (.error _, graph) => { h with graph }
  | .remove key =>
    { graph := h.graph.remove key, inserted := h.inserted.filter (·.1 != key) }

def History.after (changes : List Change) : History := changes.foldl History.change {}

theorem sound_change {h : History} (s : Sound h.inserted h.graph) (c : Change) :
    Sound (h.change c).inserted (h.change c).graph := by
  cases c with
  | insert key p =>
    by_cases there : key ∈ h.inserted.map Prod.fst
    · have same := insert_present ((s.recorded.contains_iff key).mpr there) p
      simpa only [History.change, same] using s
    · rcases s.insert there p with ⟨⟨id, refused⟩, _⟩ | ⟨g', taken, s', _⟩
      · simpa only [History.change, refused] using s
      · simpa only [History.change, taken] using s'
  | remove key => exact s.remove key

theorem sound_after (changes : List Change) :
    Sound (History.after changes).inserted (History.after changes).graph := by
  unfold History.after
  have start : Sound ({} : History).inserted ({} : History).graph := sound_empty
  generalize ({} : History) = h at start
  induction changes generalizing h with
  | nil => exact start
  | cons c changes ih => exact ih (h.change c) (sound_change start c)

/-! ## The law -/

/-- After any changes the order has every hook that is there once and no other, it keeps each
constraint between two of them, and a further hook is refused for a circle exactly if it would
close one. -/
theorem the_order_keeps_every_wish (changes : List Change) :
    let h := History.after changes
    (∀ key p, h.graph.placement? key = some p ↔ (key, p) ∈ h.inserted) ∧
    h.graph.order.Nodup ∧ (∀ key, key ∈ h.graph.order ↔ h.graph.contains key = true) ∧
    (∀ a b, MustPrecede h.inserted a b → [a, b].Sublist h.graph.order) ∧
    ∀ key p, h.graph.contains key = false →
      ((∃ id, (h.graph.insert key p).1 = .error (.orderCycle id)) ↔
        HasCircle (MustPrecede (h.inserted ++ [(key, p)]))) := by
  intro h
  have s : Sound h.inserted h.graph := sound_after changes
  have r := s.recorded
  obtain ⟨respects, all⟩ := linearize_ok r.closed s.ordered
  refine ⟨r.placement?_eq_some, respects.nodup, fun key => ?_, fun a b must => ?_, ?_⟩
  · rw [all, r.mem_keys, r.contains_iff]
  · refine respects.sublist ((r.earlier_iff a b).mpr must) ?_
    rw [all, r.mem_keys]
    exact must.mem.2
  · intro key p absent
    have fresh : key ∉ h.inserted.map Prod.fst := by
      rw [← r.contains_iff, absent]
      simp
    rcases s.insert fresh p with ⟨⟨id, refused⟩, circle⟩ | ⟨g', taken, _, none⟩
    · rw [refused]
      exact ⟨fun _ => circle, fun _ => ⟨id, rfl⟩⟩
    · rw [taken]
      exact ⟨fun ⟨_, e⟩ => (by cases e), fun circle => absurd circle none⟩

end PlacementGraph

end Detouring
