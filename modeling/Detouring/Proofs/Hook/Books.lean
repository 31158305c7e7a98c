-- The books of a chain. The graph has the hooks with a placement, the others are listed newest
-- first, and together they are the hooks of the chain. Entering a hook and forgetting one keep
-- the books, and a hook whose constraints close a circle leaves no trace in them.
import Detouring.Hook.Chain
import Detouring.Proofs.Hook.Constraints

namespace Detouring.Chain

variable {c c' : Chain} {node : ChainNode} {p : Placement}

/-- The hooks with a placement, in the order in which they came. -/
def placed (c : Chain) : PlacementGraph.Inserted :=
  c.nodes.filterMap fun n => n.placement.map (n.id, ·)

/-- The hooks without a placement, in the order in which they came. -/
def loose (c : Chain) : List Nat := (c.nodes.filter (·.placement.isNone)).map ChainNode.id

/-- Two chains with the same books, whatever became of the links. -/
structure SameBooks (c c' : Chain) : Prop where
  graph : c'.graph = c.graph
  unplaced : c'.unplaced = c.unplaced
  nodes : c'.nodes = c.nodes
  retired : c'.retired = c.retired

/-- Hooks are numbered as they come, and each is listed where it belongs. -/
structure Books (c : Chain) : Prop where
  counted : (c.nodes.map ChainNode.id).Pairwise (· < ·)
  retired : (c.retired.map ChainNode.id).Nodup
  apart : ∀ n ∈ c.retired, n.id ∉ c.nodes.map ChainNode.id
  graph : PlacementGraph.Sound c.placed c.graph
  unplaced : c.unplaced = c.loose.reverse

theorem placed_fst (nodes : List ChainNode) :
    (nodes.filterMap fun n => n.placement.map (n.id, ·)).map Prod.fst =
      (nodes.filter fun n => !n.placement.isNone).map ChainNode.id := by
  induction nodes with
  | nil => rfl
  | cons n rest ih => rcases there : n.placement with _ | p <;> simp [there, ih]

theorem placed_forget (c : Chain) (id : Nat) :
    (c.forget id).placed = c.placed.filter (·.1 != id) := by
  simp only [placed, Chain.forget]
  induction c.nodes with
  | nil => rfl
  | cons n rest ih =>
    rcases there : n.placement with _ | p <;> by_cases it : n.id = id <;> simp [there, it, ih]

/-- A hook that was forgotten is not in the books. -/
theorem not_mem_forget (c : Chain) (id : Nat) : id ∉ (c.forget id).nodes.map ChainNode.id := by
  intro still
  obtain ⟨n, mn, it⟩ := List.mem_map.mp still
  have := (List.mem_filter.mp mn).2
  simp [it] at this

/-- Without its last hook, a chain has the hooks that it had before. -/
theorem nodes_forget_last (nodes : c'.nodes = c.nodes ++ [node])
    (fresh : ∀ n ∈ c.nodes, n.id ≠ node.id) : (c'.forget node.id).nodes = c.nodes := by
  have others : c.nodes.filter (·.id != node.id) = c.nodes :=
    List.filter_eq_self.mpr fun n mn => by simpa using fresh n mn
  show c'.nodes.filter _ = _
  rw [nodes, List.filter_append, others]
  simp

namespace Books

theorem congr {c' : Chain} (b : c.Books) (same : c.SameBooks c') : c'.Books := by
  refine ⟨same.nodes ▸ b.counted, same.retired ▸ b.retired, ?_, ?_, ?_⟩
  · rw [same.nodes, same.retired]
    exact b.apart
  · unfold placed
    rw [same.nodes, same.graph]
    exact b.graph
  · unfold loose
    rw [same.nodes, same.unplaced]
    exact b.unplaced

theorem nodup (b : c.Books) : (c.nodes.map ChainNode.id).Nodup := b.counted.imp Nat.ne_of_lt

theorem order_perm (b : c.Books) : c.graph.order.Perm (c.placed.map Prod.fst) := by
  have r := b.graph.recorded
  obtain ⟨respects, all⟩ := PlacementGraph.linearize_ok r.closed b.graph.ordered
  exact ((List.perm_ext_iff_of_nodup respects.nodup r.closed.nodup).mpr all).trans r.keys

/-- The wanted order has each hook of the chain once. -/
theorem wanted_perm (b : c.Books) : c.wantedOrder.Perm (c.nodes.map ChainNode.id) := by
  have loose : c.unplaced.Perm c.loose := b.unplaced ▸ List.reverse_perm c.loose
  have both := (List.filter_append_perm (fun n : ChainNode => n.placement.isNone) c.nodes).map
    ChainNode.id
  have parts := b.order_perm.append loose
  rw [placed, placed_fst] at parts
  rw [List.map_append] at both
  exact parts.trans (List.perm_append_comm.trans both)

/-- Hooks without a placement are listed newest first. -/
theorem newest_first (b : c.Books) : c.unplaced.Pairwise (· > ·) := by
  rw [b.unplaced, List.pairwise_reverse]
  exact b.counted.sublist (List.filter_sublist.map _)

/-- A hook is listed apart exactly if it has no placement. -/
theorem mem_unplaced (b : c.Books) {n : ChainNode} (mn : n ∈ c.nodes) :
    n.id ∈ c.unplaced ↔ n.placement = none := by
  rw [b.unplaced, List.mem_reverse, loose, List.mem_map]
  constructor
  · rintro ⟨x, mx, same⟩
    obtain ⟨mx, bare⟩ := List.mem_filter.mp mx
    rw [List.inj_on_of_nodup_map b.nodup mx mn same] at bare
    simpa using bare
  · intro bare
    exact ⟨n, List.mem_filter.mpr ⟨mn, by simp [bare]⟩, rfl⟩

theorem node?_eq_some (b : c.Books) {id : Nat} {n : ChainNode} :
    c.node? id = some n ↔ n ∈ c.nodes ∧ n.id = id := Keyed.find?_eq_some_iff b.nodup

/-! ## The hooks in order -/

theorem map_id_nodesOf (b : c.Books) {order : List Nat}
    (known : ∀ i ∈ order, i ∈ c.nodes.map ChainNode.id) :
    (c.nodesOf order).map ChainNode.id = order := by
  induction order with
  | nil => rfl
  | cons i rest ih =>
    obtain ⟨n, mn, same⟩ := List.mem_map.mp (known i List.mem_cons_self)
    have found : c.node? i = some n := b.node?_eq_some.mpr ⟨mn, same⟩
    have later := ih fun j mj => known j (List.mem_cons_of_mem i mj)
    unfold nodesOf at later ⊢
    rw [List.filterMap_cons, found]
    simp only [List.map_cons, later, same]

theorem mem_nodesOf {order : List Nat} {n : ChainNode} (h : n ∈ c.nodesOf order) :
    n ∈ c.nodes := by
  obtain ⟨i, _, found⟩ := List.mem_filterMap.mp h
  exact List.mem_of_find?_eq_some found

/-- In the wanted order, each hook stands once. -/
theorem wanted_nodes (b : c.Books) :
    (c.nodesOf c.wantedOrder).map ChainNode.id = c.wantedOrder ∧
      (c.nodesOf c.wantedOrder).Nodup := by
  have same := b.map_id_nodesOf fun i mi => b.wanted_perm.mem_iff.mp mi
  refine ⟨same, List.Nodup.of_map ChainNode.id ?_⟩
  rw [same]
  exact b.wanted_perm.nodup_iff.mpr b.nodup

/-- A chain wants all of its hooks linked. -/
theorem mem_wanted (b : c.Books) {n : ChainNode} (mn : n ∈ c.nodes) :
    n ∈ c.nodesOf c.wantedOrder :=
  List.mem_filterMap.mpr ⟨n.id, b.wanted_perm.mem_iff.mpr (List.mem_map_of_mem mn),
    b.node?_eq_some.mpr ⟨mn, rfl⟩⟩

theorem wanted_ne_nil (b : c.Books) {n : ChainNode} (mn : n ∈ c.nodes) :
    c.nodesOf c.wantedOrder ≠ [] := List.ne_nil_of_mem (b.mem_wanted mn)

/-- The last hook of a chain that is linked as it wants to be. -/
theorem tail?_eq (b : c.Books) (order : c.order = c.wantedOrder) (some : c.linkedNodes ≠ []) :
    c.tail? = c.linkedNodes.getLast? := by
  have ids : c.linkedNodes.map ChainNode.id = c.order := by
    unfold linkedNodes
    rw [order]
    exact b.wanted_nodes.1
  have last := List.getLast?_eq_some_getLast some
  have there : c.linkedNodes.getLast some ∈ c.nodes := mem_nodesOf (List.getLast_mem some)
  unfold tail?
  rw [← ids, List.getLast?_map, last]
  exact b.node?_eq_some.mpr ⟨there, rfl⟩

/-! ## Entering a hook -/

theorem snoc_counted (b : c.Books) (new : ∀ n ∈ c.nodes, n.id < node.id) :
    ((c.nodes ++ [node]).map ChainNode.id).Pairwise (· < ·) := by
  rw [List.map_append]
  refine List.pairwise_append.mpr ⟨b.counted, List.pairwise_singleton _ _, fun i mi j mj => ?_⟩
  obtain ⟨n, mn, rfl⟩ := List.mem_map.mp mi
  obtain rfl := List.mem_singleton.mp mj
  exact new n mn

theorem snoc_apart (b : c.Books) (new : ∀ n ∈ c.retired, n.id < node.id) :
    ∀ n ∈ c.retired, n.id ∉ (c.nodes ++ [node]).map ChainNode.id := by
  intro n mn there
  rw [List.map_append] at there
  rcases List.mem_append.mp there with there | there
  · exact b.apart n mn there
  · have := new n mn
    rw [List.map_cons, List.map_nil, List.mem_singleton] at there
    omega

theorem enrollLoose (b : c.Books) (bare : node.placement = none)
    (new : ∀ n ∈ c.nodes ++ c.retired, n.id < node.id) :
    Books { c with unplaced := node.id :: c.unplaced, nodes := c.nodes ++ [node] } := by
  refine ⟨b.snoc_counted fun n mn => new n (List.mem_append_left _ mn), b.retired,
    b.snoc_apart fun n mn => new n (List.mem_append_right _ mn), ?_, ?_⟩
  · have same : placed { c with unplaced := node.id :: c.unplaced, nodes := c.nodes ++ [node] } =
        c.placed := by simp [placed, bare]
    rw [same]
    exact b.graph
  · simp [loose, bare, b.unplaced]

/-- A hook with a placement is entered, or its constraints close a circle and the graph is as it
was. -/
theorem enrollPlaced (b : c.Books) (there : node.placement = some p)
    (new : ∀ n ∈ c.nodes ++ c.retired, n.id < node.id) :
    (∃ e, c.graph.insert node.id p = (.error e, c.graph)) ∨
      ∃ graph, c.graph.insert node.id p = (.ok (), graph) ∧
        Books { c with graph, nodes := c.nodes ++ [node] } := by
  have fresh : node.id ∉ c.placed.map Prod.fst := by
    rw [placed, placed_fst]
    intro old
    obtain ⟨n, mn, same⟩ := List.mem_map.mp old
    have := new n (List.mem_append_left _ (List.mem_of_mem_filter mn))
    omega
  rcases b.graph.insert fresh p with ⟨⟨id, refused⟩, _⟩ | ⟨graph, entered, sound, _⟩
  · exact Or.inl ⟨_, refused⟩
  · refine Or.inr ⟨graph, entered, ?_⟩
    refine ⟨b.snoc_counted fun n mn => new n (List.mem_append_left _ mn), b.retired,
      b.snoc_apart fun n mn => new n (List.mem_append_right _ mn), ?_, ?_⟩
    · have same : placed { c with graph, nodes := c.nodes ++ [node] } =
          c.placed ++ [(node.id, p)] := by simp [placed, there]
      rw [same]
      exact sound
    · simp [loose, there, b.unplaced]

/-! ## Forgetting one -/

theorem forget (b : c.Books) (id : Nat) : (c.forget id).Books := by
  have ids : ((c.nodes.filter (·.id != id)).map ChainNode.id).Sublist
      (c.nodes.map ChainNode.id) := List.filter_sublist.map _
  refine ⟨b.counted.sublist ids, b.retired, fun n mn there => b.apart n mn (ids.subset there),
    ?_, ?_⟩
  · rw [placed_forget]
    exact b.graph.remove id
  · have same : (c.forget id).loose = c.loose.filter (· != id) := by
      simp only [loose, Chain.forget, List.filter_map, List.filter_filter, Function.comp_def]
      refine congrArg _ (List.filter_congr fun n _ => Bool.and_comm _ _)
    rw [same, ← List.filter_reverse, ← b.unplaced]
    simp only [Chain.forget]
    split
    · -- A hook of the graph is not listed apart.
      rename_i there
      refine (List.filter_eq_self.mpr fun i mi => ?_).symm
      rw [b.graph.recorded.contains_iff] at there
      have order := b.order_perm.mem_iff.mpr there
      have once := b.wanted_perm.nodup_iff.mpr b.nodup
      have := (List.nodup_append.mp once).2.2 id order i mi
      simpa using this.symm
    · rfl

/-- What was unlinked is no longer among the hooks. -/
theorem retire (b : c.Books) (none : c.retired = []) (gone : node.id ∉ c.nodes.map ChainNode.id) :
    Books { c with retired := c.retired ++ [node] } := by
  refine ⟨b.counted, by simp [none], fun n mn => ?_, b.graph, b.unplaced⟩
  rw [none, List.nil_append, List.mem_singleton] at mn
  exact mn ▸ gone

end Books

end Detouring.Chain
