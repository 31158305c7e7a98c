-- Where hooks stand that name no other hook. Those with a priority come first, the highest at the
-- front and the newest first among equals, then those without a priority as they came, and in the
-- end those without a placement, newest first.
import Detouring.Proofs.Hook.Books
import Detouring.Proofs.Hook.Survivors

namespace Detouring

/-! ## Who stands ahead -/

namespace Placement

/-- The hook names no other hook. -/
def Plain (p : Placement) : Prop := p.before = [] ∧ p.after = []

instance (p : Placement) : Decidable p.Plain := inferInstanceAs (Decidable (_ ∧ _))

/-- A hook stands ahead of another by their placements, and where these do not tell, by whether it
came `sooner` or `later`. -/
def Ahead (p q : Placement) (sooner later : Prop) : Prop :=
  match p.priority, q.priority with
  | none, none => sooner
  | none, some _ => False
  | some _, none => True
  | some x, some y => y < x ∨ x = y ∧
      (q.subPriority < p.subPriority ∨ p.subPriority = q.subPriority ∧ later)

variable {old new p q : Placement} {sooner later : Prop}

theorem Ahead.mono {sooner' later' : Prop} (h : p.Ahead q sooner later) (s : sooner → sooner')
    (l : later → later') : p.Ahead q sooner' later' := by
  unfold Ahead at *
  split at h
  · exact s h
  · exact h
  · trivial
  · exact h.imp_right fun same => ⟨same.1, same.2.imp_right fun tie => ⟨tie.1, l tie.2⟩⟩

theorem ahead_of_outranks (h : old.outranks new = true) (s : sooner) :
    old.Ahead new sooner later := by
  unfold Ahead
  rcases ho : old.priority with _ | a <;> rcases hn : new.priority with _ | b <;>
    simp only [outranks, ho, hn] at h
  · exact s
  · cases h
  · trivial
  · exact (of_decide_eq_true h).imp_right fun same => ⟨same.1, Or.inl same.2⟩

theorem ahead_of_not_outranks (h : old.outranks new = false) (l : later) :
    new.Ahead old sooner later := by
  unfold Ahead
  rcases ho : old.priority with _ | a <;> rcases hn : new.priority with _ | b <;>
    simp only [outranks, ho, hn] at h
  · cases h
  · trivial
  · cases h
  · have below := of_decide_eq_false h
    by_cases higher : a < b
    · exact Or.inl higher
    by_cases above : old.subPriority < new.subPriority
    · exact Or.inr ⟨by omega, Or.inl above⟩
    · exact Or.inr ⟨by omega, Or.inr ⟨by omega, l⟩⟩

end Placement

/-- A hook stands ahead of another, by their placements and by which one came before the other. -/
def ChainNode.Ahead (came : ChainNode → ChainNode → Prop) (a b : ChainNode) : Prop :=
  match a.placement, b.placement with
  | none, none => came b a
  | none, some _ => False
  | some _, none => True
  | some p, some q => p.Ahead q (came a b) (came b a)

theorem ChainNode.Ahead.mono {came came' : ChainNode → ChainNode → Prop} {a b : ChainNode}
    (h : a.Ahead came b) (forth : came a b → came' a b) (back : came b a → came' b a) :
    a.Ahead came' b := by
  unfold ChainNode.Ahead at *
  split at h
  · exact back h
  · exact h
  · trivial
  · exact Placement.Ahead.mono h forth back

/-! ## Graphs -/

namespace PlacementGraph

variable {hooks : Inserted} {g : PlacementGraph}

theorem precedence_plain {old new : Placement} (h : old.Plain) (h' : new.Plain) :
    old.precedence new = .either := by
  simp [Placement.precedence, Placement.standsBefore, Placement.standsAfter, h.1, h.2, h'.1, h'.2]

/-- Hooks that name no others leave each other alone. -/
theorem not_mustPrecede (plain : ∀ hook ∈ hooks, hook.2.Plain) (a b : Nat) :
    ¬ MustPrecede hooks a b := by
  rintro ⟨old, new, s, h⟩
  rw [precedence_plain (plain old (s.subset (by simp))) (plain new (s.subset (by simp)))] at h
  rcases h with ⟨h, _⟩ | ⟨h, _⟩ <;> cases h

/-- A walk without constraints meets the keys one after the other. -/
theorem foldlM_visit_free {earlierThan : Nat → List Nat} {keys todo order : List Nat}
    (free : ∀ k, earlierThan k = []) (known : ∀ k ∈ todo, k ∈ keys)
    (once : (order ++ todo).Nodup) :
    todo.foldlM (fun order key => visit earlierThan keys key order) order
      = .ok (order ++ todo) := by
  induction todo generalizing order with
  | nil => simp [pure, Except.pure]
  | cons key rest ih =>
    have fresh : key ∉ order := fun m =>
      (List.nodup_append.mp once).2.2 key m key List.mem_cons_self rfl
    have visited : visit earlierThan keys key order = .ok (order ++ [key]) := by
      rw [visit, if_neg fresh, if_pos (known key List.mem_cons_self), free]
      rfl
    have whole : order ++ key :: rest = (order ++ [key]) ++ rest := by simp
    rw [List.foldlM_cons, visited, whole]
    exact ih (fun k m => known k (List.mem_cons_of_mem _ m)) (whole ▸ once)

theorem Sound.order_plain (s : Sound hooks g) (plain : ∀ hook ∈ hooks, hook.2.Plain) :
    g.order = g.hooks.map PlacedHook.key := by
  have free (k : Nat) : g.earlierThan k = [] := List.eq_nil_iff_forall_not_mem.mpr fun e m =>
    not_mustPrecede plain e k ((s.recorded.earlier_iff e k).mp m)
  have walk : g.linearize = .ok (g.hooks.map PlacedHook.key) :=
    foldlM_visit_free free (fun _ m => m) s.recorded.closed.nodup
  exact Except.ok.inj (s.ordered.symm.trans walk)

/-- A hook that names no others enters the list by rank, without constraints. -/
theorem Built.hooks_insert_plain (b : Built hooks g) (others : ∀ hook ∈ hooks, hook.2.Plain)
    {key : Nat} {p : Placement} (plain : p.Plain) {g' : PlacementGraph}
    (taken : g.insert key p = (.ok (), g')) :
    g'.hooks = Placement.insertRanked PlacedHook.placement p ⟨key, p, []⟩ g.hooks := by
  have none : g.hooks.flatMap (PlacedHook.edges key p) = [] :=
    List.flatMap_eq_nil_iff.mpr fun peer m => List.eq_nil_iff_forall_not_mem.mpr fun e me => by
      have placed := b.sound.recorded.same.mem_iff.mp (List.mem_map_of_mem m)
      rw [mem_edges, precedence_plain (others _ placed) plain] at me
      rcases me with ⟨h, _⟩ | ⟨h, _⟩ <;> cases h
  rw [(of_insert_ok taken).2]
  unfold attach
  rw [none]
  rfl

/-- A newer hook that is put in by rank stands behind those that outrank it, and ahead of the
others. -/
theorem ahead_insertRanked (inRank : Placement.Ranked PlacedHook.placement g.hooks)
    {came : Nat → Nat → Prop} {key : Nat} {p : Placement} (older : ∀ x ∈ g.hooks, came x.key key)
    (ranked : g.hooks.Pairwise fun x y =>
      x.placement.Ahead y.placement (came x.key y.key) (came y.key x.key)) :
    (Placement.insertRanked PlacedHook.placement p ⟨key, p, []⟩ g.hooks).Pairwise fun x y =>
      x.placement.Ahead y.placement (came x.key y.key) (came y.key x.key) :=
  inRank.pairwise_insertRanked ranked
    (fun x m above => Placement.ahead_of_outranks above (older x m))
    fun x m below => Placement.ahead_of_not_outranks below (older x m)

/-- Hooks that name no others stand by rank, the newest first among equals. -/
theorem Built.ranked (b : Built hooks g) (plain : ∀ hook ∈ hooks, hook.2.Plain)
    (counted : (hooks.map Prod.fst).Pairwise (· < ·)) :
    g.hooks.Pairwise fun x y => x.placement.Ahead y.placement (x.key < y.key) (y.key < x.key) := by
  induction b with
  | nil => exact List.Pairwise.nil
  | @snoc hooks g g' key p b taken ih =>
    have others : ∀ hook ∈ hooks, hook.2.Plain := fun hook m =>
      plain hook (List.mem_append_left _ m)
    rw [List.map_append, List.pairwise_append] at counted
    obtain ⟨counted, _, newest⟩ := counted
    have older : ∀ x ∈ g.hooks, x.key < key := fun x m => by
      have placed := b.sound.recorded.same.mem_iff.mp (List.mem_map_of_mem m)
      exact newest x.key (List.mem_map_of_mem (f := Prod.fst) placed) key (by simp)
    rw [b.hooks_insert_plain others (plain (key, p) (by simp)) taken]
    exact ahead_insertRanked b.inRank.hooks older (ih others counted)

end PlacementGraph

/-! ## Chains -/

namespace Chain

variable {c c' : Chain} {node : ChainNode} {p : Placement}

/-- The hooks as they are linked are a matter of the hooks and the order alone. -/
theorem linkedNodes_congr (nodes : c'.nodes = c.nodes) (order : c'.order = c.order) :
    c'.linkedNodes = c.linkedNodes := by
  unfold linkedNodes nodesOf node?
  rw [nodes, order]

/-- A hook that was forgotten is no longer among those that are linked. -/
theorem linkedNodes_forget (c : Chain) (id : Nat) :
    (c.forget id).linkedNodes = c.linkedNodes.filter (·.id != id) := by
  have found (i : Nat) : (c.forget id).node? i = (c.node? i).filter (·.id != id) := by
    have forgotten : (c.forget id).node? i = c.nodes.find? fun n => n.id != id && n.id == i := by
      unfold node? Chain.forget
      simp only [List.find?_filter, Bool.decide_and, Bool.decide_eq_true]
    by_cases it : i = id
    · have none : c.nodes.find? (fun n => n.id != id && n.id == i) = none := by
        simp [it]
      rcases there : c.node? i with _ | n
      · rw [forgotten, none]
        rfl
      · have same : n.id = i := by simpa using List.find?_some there
        rw [forgotten, none]
        simp [Option.filter, same, it]
    · have same : (fun n : ChainNode => n.id != id && n.id == i) = fun n => n.id == i := by
        funext n
        by_cases here : n.id = i <;> simp [here, it]
      rw [forgotten, same]
      rcases there : c.node? i with _ | n
      · exact there
      · have here : n.id = i := by simpa using List.find?_some there
        rw [show c.nodes.find? (fun n => n.id == i) = some n from there]
        simp [Option.filter, here, it]
  unfold linkedNodes nodesOf
  rw [List.filter_filterMap]
  exact List.filterMap_congr fun i _ => found i

/-- Hooks are numbered in the order in which they come. -/
theorem Books.came (b : c.Books) {x y : ChainNode} (mx : x ∈ c.nodes) (my : y ∈ c.nodes)
    (sooner : x.id < y.id) : [x, y].Sublist c.nodes := by
  have other : x ≠ y := fun same => Nat.lt_irrefl _ (same ▸ sooner)
  refine (Keyed.sublist_or_sublist mx my other).resolve_right fun s => ?_
  have later : y.id < x.id := List.pairwise_iff_forall_sublist.mp b.counted (s.map ChainNode.id)
  omega

/-- The books of the chain are in order, and its hooks name no others. -/
structure Filed (c : Chain) : Prop where
  books : c.Books
  built : PlacementGraph.Built c.placed c.graph
  plain : ∀ n ∈ c.nodes, ∀ p, n.placement = some p → p.Plain

/-- The hooks are linked as they rank. -/
structure Tidy (c : Chain) : Prop extends Filed c where
  linked : c.linkedNodes.Perm c.nodes
  ahead : c.linkedNodes.Pairwise (ChainNode.Ahead fun a b => a.id < b.id)

theorem mem_placed {id : Nat} : (id, p) ∈ c.placed ↔
    ∃ n ∈ c.nodes, n.placement = some p ∧ n.id = id := by
  unfold placed
  rw [List.mem_filterMap]
  refine exists_congr fun n => and_congr_right fun _ => ?_
  rcases n.placement with _ | q <;> simp [and_comm]

namespace Filed

theorem congr (f : c.Filed) (same : c.SameBooks c') : c'.Filed := by
  refine ⟨f.books.congr same, ?_, same.nodes ▸ f.plain⟩
  unfold placed
  rw [same.nodes, same.graph]
  exact f.built

/-- What was unlinked before may be left. -/
theorem unburdened (f : c.Filed) : Filed { c with retired := [] } :=
  ⟨⟨f.books.counted, List.nodup_nil, fun n m => (by cases m), f.books.graph, f.books.unplaced⟩,
    f.built, f.plain⟩

theorem forget (f : c.Filed) (id : Nat) : (c.forget id).Filed := by
  refine ⟨f.books.forget id, ?_, fun n m => f.plain n (List.mem_of_mem_filter m)⟩
  rw [placed_forget]
  exact f.built.remove id

theorem retire (f : c.Filed) (none : c.retired = [])
    (gone : node.id ∉ c.nodes.map ChainNode.id) :
    Filed { c with retired := c.retired ++ [node] } := ⟨f.books.retire none gone, f.built, f.plain⟩

theorem snoc_plain (f : c.Filed) (plain : ∀ p, node.placement = some p → p.Plain) :
    ∀ n ∈ c.nodes ++ [node], ∀ p, n.placement = some p → p.Plain := by
  intro n m
  rcases List.mem_append.mp m with m | m
  · exact f.plain n m
  · exact List.mem_singleton.mp m ▸ plain

theorem enrollLoose (f : c.Filed) (bare : node.placement = none)
    (new : ∀ n ∈ c.nodes ++ c.retired, n.id < node.id) :
    Filed { c with unplaced := node.id :: c.unplaced, nodes := c.nodes ++ [node] } := by
  refine ⟨f.books.enrollLoose bare new, ?_, f.snoc_plain (by simp [bare])⟩
  have same : placed { c with unplaced := node.id :: c.unplaced, nodes := c.nodes ++ [node] } =
      c.placed := by simp [placed, bare]
  rw [same]
  exact f.built

/-- A hook with a placement is entered, or its constraints close a circle and the graph is as it
was. -/
theorem enrollPlaced (f : c.Filed) (there : node.placement = some p) (plain : p.Plain)
    (new : ∀ n ∈ c.nodes ++ c.retired, n.id < node.id) :
    (∃ e, c.graph.insert node.id p = (.error e, c.graph)) ∨
      ∃ graph, c.graph.insert node.id p = (.ok (), graph) ∧
        Filed { c with graph, nodes := c.nodes ++ [node] } := by
  refine (f.books.enrollPlaced there new).imp_right fun ⟨graph, entered, books⟩ =>
    ⟨graph, entered, books, ?_, f.snoc_plain fun q hq => ?_⟩
  · have same : placed { c with graph, nodes := c.nodes ++ [node] } =
        c.placed ++ [(node.id, p)] := by simp [placed, there]
    rw [same]
    exact f.built.snoc entered
  · obtain rfl := Option.some.inj (there.symm.trans hq)
    exact plain

theorem placement_of_hook (f : c.Filed) {h : PlacedHook} (m : h ∈ c.graph.hooks) {n : ChainNode}
    (found : c.node? h.key = some n) : n.placement = some h.placement ∧ n.id = h.key := by
  have b := f.books
  have there : (h.key, h.placement) ∈ c.placed :=
    b.graph.recorded.same.mem_iff.mp (List.mem_map_of_mem m)
  obtain ⟨n', mn', placement, id⟩ := mem_placed.mp there
  obtain rfl := Option.some.inj ((b.node?_eq_some.mpr ⟨mn', id⟩).symm.trans found)
  exact ⟨placement, id⟩

theorem placement_of_unplaced (f : c.Filed) {i : Nat} (m : i ∈ c.unplaced) {n : ChainNode}
    (found : c.node? i = some n) : n.placement = none ∧ n.id = i := by
  obtain ⟨mn, id⟩ := f.books.node?_eq_some.mp found
  exact ⟨(f.books.mem_unplaced mn).mp (id.symm ▸ m), id⟩

theorem wanted_perm_nodes (f : c.Filed) : (c.nodesOf c.wantedOrder).Perm c.nodes := by
  have b := f.books
  have nodup : c.nodes.Nodup := List.Nodup.of_map _ b.nodup
  refine (List.perm_ext_iff_of_nodup b.wanted_nodes.2 nodup).mpr fun n =>
    ⟨Books.mem_nodesOf, fun mn => ?_⟩
  refine List.mem_filterMap.mpr ⟨n.id, b.wanted_perm.mem_iff.mpr (List.mem_map_of_mem mn), ?_⟩
  exact b.node?_eq_some.mpr ⟨mn, rfl⟩

/-- In the wanted order the hooks stand as they rank. -/
theorem wanted_ahead (f : c.Filed) :
    (c.nodesOf c.wantedOrder).Pairwise (ChainNode.Ahead fun a b => a.id < b.id) := by
  have plain : ∀ hook ∈ c.placed, hook.2.Plain := fun hook m => by
    obtain ⟨n, mn, placement, _⟩ := mem_placed.mp m
    exact f.plain n mn _ placement
  have counted : (c.placed.map Prod.fst).Pairwise (· < ·) := by
    rw [placed, placed_fst]
    exact f.books.counted.sublist (List.filter_sublist.map _)
  unfold nodesOf wantedOrder
  rw [List.pairwise_filterMap, f.books.graph.order_plain plain, List.pairwise_append,
    List.pairwise_map]
  refine ⟨?_, ?_, ?_⟩
  · refine (f.built.ranked plain counted).imp_of_mem fun {h h'} m m' above n found n' found' => ?_
    obtain ⟨here, id⟩ := f.placement_of_hook m found
    obtain ⟨here', id'⟩ := f.placement_of_hook m' found'
    simpa only [ChainNode.Ahead, here, here', id, id'] using above
  · refine f.books.newest_first.imp_of_mem fun {i j} m m' newer n found n' found' => ?_
    obtain ⟨here, id⟩ := f.placement_of_unplaced m found
    obtain ⟨here', id'⟩ := f.placement_of_unplaced m' found'
    simpa only [ChainNode.Ahead, here, here', id, id'] using newer
  · intro i m j m' n found n' found'
    obtain ⟨h, mh, rfl⟩ := List.mem_map.mp m
    obtain ⟨here, _⟩ := f.placement_of_hook mh found
    obtain ⟨here', _⟩ := f.placement_of_unplaced m' found'
    simp only [ChainNode.Ahead, here, here']

/-- Linked as it wants to be, a chain is tidy. -/
theorem tidy (f : c'.Filed) (linked : c'.linkedNodes = c'.nodesOf c'.wantedOrder) : c'.Tidy :=
  ⟨f, linked ▸ f.wanted_perm_nodes, linked ▸ f.wanted_ahead⟩

end Filed

namespace Tidy

/-- With the same hooks, linked as before, a chain is as tidy as before. -/
theorem congr (t : c.Tidy) (f : c'.Filed) (nodes : c'.nodes = c.nodes)
    (order : c'.order = c.order) : c'.Tidy := by
  have same := linkedNodes_congr nodes order
  exact ⟨f, by rw [same, nodes]; exact t.linked, by rw [same]; exact t.ahead⟩

theorem forget (t : c.Tidy) (id : Nat) : (c.forget id).Tidy := by
  refine ⟨t.toFiled.forget id, ?_, ?_⟩
  · rw [linkedNodes_forget]
    exact t.linked.filter _
  · rw [linkedNodes_forget]
    exact t.ahead.filter _

end Tidy

end Chain

end Detouring
