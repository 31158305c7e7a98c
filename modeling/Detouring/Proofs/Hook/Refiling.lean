-- The chain of a method while hooks come and go. It has on file the hooks that are there, and they
-- are linked as they rank whenever linking succeeds. Where it fails, the earlier links stay.
import Detouring.Proofs.Hook.Ranking
import Detouring.Proofs.Hook.Sparing

namespace Detouring.World

open Op

variable {k : ChainKey} {next : Nat} {c c' : Chain} {node : ChainNode} {w w' : World}

/-! ## Linking -/

/-- The chain has the books of `c`, and its hooks are linked in the same order. -/
def Relinks (c : Chain) (found : Option Chain) : Prop :=
  ∃ c', found = some c' ∧ c.SameBooks c' ∧ c'.order = c.order

/-- The proxy, the detour or the order has changed. -/
theorem OnFile.rewire (o : OnFile k next (Relinks c) w) {f : Chain → Chain}
    (same : ∀ c, (f c).method = c.method) (books : ∀ c : Chain, c.SameBooks (f c)) :
    OnFile k next (fun found => ∃ c', found = some c' ∧ c.SameBooks c' ∧
      ∃ c₁, c₁.order = c.order ∧ c' = f c₁) (w.withChain k f) := by
  refine o.withChain same ?_
  rintro _ ⟨c₁, rfl, b, order⟩
  have b' := books c₁
  exact ⟨f c₁, rfl, ⟨b'.graph.trans b.graph, b'.unplaced.trans b.unplaced,
    b'.nodes.trans b.nodes, b'.retired.trans b.retired⟩, c₁, order, rfl⟩

/-- Links may change where they lead, but not their order. -/
theorem OnFile.repoint (o : OnFile k next (Relinks c) w) {f : Chain → Chain}
    (same : ∀ c, (f c).method = c.method) (books : ∀ c : Chain, c.SameBooks (f c))
    (order : ∀ c, (f c).order = c.order) : OnFile k next (Relinks c) (w.withChain k f) := by
  refine (o.rewire same books).mono ?_
  rintro _ ⟨c', there, b, c₁, first, rfl⟩
  exact ⟨_, there, b, (order c₁).trans first⟩

/-- The hooks are linked in the order that the chain wants. -/
def Linked (c : Chain) (found : Option Chain) : Prop :=
  ∃ c', found = some c' ∧ c.SameBooks c' ∧ c'.linkedNodes = c'.nodesOf c'.wantedOrder

theorem OnFile.reorder (o : OnFile k next (Relinks c) w) {order : List Nat}
    (wanted : c.nodesOf order = c.nodesOf c.wantedOrder) :
    OnFile k next (Linked c) (w.withChain k ({ · with order })) := by
  refine (o.rewire (f := ({ · with order })) (fun _ => rfl) fun _ => ⟨rfl, rfl, rfl, rfl⟩).mono ?_
  rintro _ ⟨c', there, b, c₁, _, rfl⟩
  have nodes : c₁.nodes = c.nodes := b.nodes
  refine ⟨_, there, b, ?_⟩
  unfold Chain.linkedNodes Chain.wantedOrder at *
  unfold Chain.nodesOf Chain.node? at *
  rw [b.graph, b.unplaced, b.nodes]
  exact wanted

theorem unlinkAll_lists (o : OnFile k next (Relinks c) w) (none : c.nodesOf c.wantedOrder = []) :
    (unlinkAll k c).Ends w (fun _ => OnFile k next (Linked c)) (OnFile k next (Relinks c)) := by
  have last {w' : World} (o' : OnFile k next (Relinks c) w') :
      (updateChain k ({ · with order := [] })).Ends w' (fun _ => OnFile k next (Linked c))
        (OnFile k next (Relinks c)) := by
    apply updateChain_ends
    exact o'.reorder (none.symm ▸ rfl)
  apply Ends.bind
  apply Ends.get
  dsimp only
  split
  · apply Ends.bind
    exact (Spares.undoDetour _ next _ w o).mono (fun _ _ => last) fun _ h => h
  · exact last o

theorem ensureProxy_lists (o : OnFile k next (Relinks c) w) (first : ChainNode) :
    (ensureProxy k c first).Ends w (fun _ => OnFile k next (Relinks c))
      (OnFile k next (Relinks c)) := by
  unfold ensureProxy
  split
  · exact Ends.pure o
  · apply Ends.bind
    refine (Spares.onMachine _ next _ w o).mono (fun proxy w₁ o₁ => ?_) fun _ h => h
    apply Ends.bind
    apply updateChain_ends
    exact Ends.pure (o₁.repoint (fun _ => rfl) (fun _ => ⟨rfl, rfl, rfl, rfl⟩) fun _ => rfl)

theorem ensureRoot_lists (o : OnFile k next (Relinks c) w) (proxy : Stub) :
    (ensureRoot k c proxy).Ends w (fun _ => OnFile k next (Relinks c))
      (OnFile k next (Relinks c)) := by
  unfold ensureRoot
  split
  · exact Ends.pure o
  · apply Ends.bind
    refine (Spares.createDetour _ _ _ next _ w o).mono (fun root w₁ o₁ => ?_) fun _ h => h
    apply Ends.bind
    refine (Spares.updateDetour _ _ next _ w₁ o₁).mono (fun _ w₂ o₂ => ?_) fun _ h => h
    apply Ends.bind
    apply updateChain_ends
    exact Ends.pure (o₂.repoint (fun _ => rfl) (fun _ => ⟨rfl, rfl, rfl, rfl⟩) fun _ => rfl)

theorem Spares.linkTo (nodes : List ChainNode) (proxy : Stub) (entry : Option Nat) :
    Spares k (World.linkTo nodes proxy entry) := by
  unfold World.linkTo
  split
  · exact .onMachine _
  · exact .throw _

theorem linkAll_lists (o : OnFile k next (Relinks c) w) (first : ChainNode)
    (rest : List ChainNode) :
    (linkAll k c first rest).Ends w (fun _ => OnFile k next (Linked c))
      (OnFile k next (Relinks c)) := by
  have last {w' : World} (o' : OnFile k next (Relinks c) w') :
      (updateChain k ({ · with order := c.wantedOrder })).Ends w'
        (fun _ => OnFile k next (Linked c)) (OnFile k next (Relinks c)) := by
    apply updateChain_ends
    exact o'.reorder rfl
  apply Ends.bind
  refine (ensureProxy_lists o first).mono (fun proxy w₁ o₁ => ?_) fun _ h => h
  apply Ends.bind
  refine (ensureRoot_lists o₁ proxy).mono (fun root w₂ o₂ => ?_) fun _ h => h
  apply Ends.bind
  apply Ends.get
  dsimp only
  split
  · apply Ends.bind
    exact (Spares.linkTo _ _ _ next _ w₂ o₂).mono (fun _ _ => last) fun _ h => h
  · apply Ends.bind
    exact (Spares.applyDetour _ (.linkTo _ _) next _ w₂ o₂).mono (fun _ _ => last) fun _ h => h

/-- The chain has the hooks of `c`, and no others are left to be released. -/
structure Cleared (c c' : Chain) : Prop where
  filed : c'.Filed
  nodes : c'.nodes = c.nodes
  retired : c'.retired = []

/-- The chain has the hooks of `c`, linked as they rank, and no others are left to be released. -/
def Tidied (c : Chain) (found : Option Chain) : Prop :=
  ∃ c', found = some c' ∧ Cleared c c' ∧ c'.Tidy

/-- Brought up to date, a chain is tidy. Where that fails, its hooks are linked in the order in
which they were. -/
theorem relink_lists (f : c.Filed) (o : OnFile k next (· = some c) w) :
    (relink k).Ends w
      (fun _ => OnFile k next (Tidied c))
      (OnFile k next fun found => ∃ c', found = some c' ∧ Cleared c c' ∧ c'.order = c.order) := by
  let c₀ : Chain := { c with retired := [] }
  have here : w.chain? k = some c := o.chain
  have f₀ : c₀.Filed := f.unburdened
  have o₀ : OnFile k next (Relinks c₀) (w.withChain k ({ · with retired := [] })) := by
    refine o.withChain (fun _ => rfl) ?_
    rintro _ rfl
    exact ⟨c₀, rfl, ⟨rfl, rfl, rfl, rfl⟩, rfl⟩
  have done {w₁ : World} (o₁ : OnFile k next (Linked c₀) w₁) :
      OnFile k next (Tidied c) (releaseNodes k c.retired w₁) := by
    refine (o₁.beside (releaseNodes_beside k c.retired w₁)).mono ?_
    rintro _ ⟨c', there, b, linked⟩
    exact ⟨c', there, ⟨f₀.congr b, b.nodes, b.retired⟩, (f₀.congr b).tidy linked⟩
  have failed {w₁ : World} (o₁ : OnFile k next (Relinks c₀) w₁) :
      OnFile k next (fun found => ∃ c', found = some c' ∧ Cleared c c' ∧ c'.order = c.order)
        (releaseNodes k c.retired w₁) := by
    refine (o₁.beside (releaseNodes_beside k c.retired w₁)).mono ?_
    rintro _ ⟨c', there, b, order⟩
    exact ⟨c', there, ⟨f₀.congr b, b.nodes, b.retired⟩, order⟩
  apply Ends.bind
  apply Ends.get
  simp only [here]
  apply Ends.bind
  apply updateChain_ends
  apply Ends.bind
  apply Ends.outcome
  refine Ends.mono (P := fun _ => OnFile k next (Linked c₀)) (F := OnFile k next (Relinks c₀))
    ?_ (fun _ w₁ o₁ => ?_) fun w₁ o₁ e => ?_
  · split
    · rename_i listed
      exact unlinkAll_lists (c := c₀) o₀ listed
    · exact linkAll_lists (c := c₀) o₀ _ _
  · apply Ends.bind
    apply Ends.change
    exact Ends.pure (done o₁)
  · apply Ends.bind
    apply Ends.change
    exact Ends.throw (failed o₁)

/-- A chain that is tidy stays so, whether or not its hooks could be linked again. -/
theorem relink_tidies (t : c.Tidy) (o : OnFile k next (· = some c) w) :
    (relink k).Ends w
      (fun _ => OnFile k next (Tidied c))
      (OnFile k next (Tidied c)) := by
  refine (relink_lists t.toFiled o).mono (fun _ _ o' => o') fun _ o' => o'.mono ?_
  rintro _ ⟨c', there, cleared, order⟩
  exact ⟨c', there, cleared, t.congr cleared.filed cleared.nodes order⟩

/-! ## Hooks that come and go -/

/-- What a manager has on file about a method with these hooks, in the order in which they came. -/
def Shows (hooks : List ChainNode) (next : Nat) : Option Chain → Prop
  | none => hooks = []
  | some c => c.Tidy ∧ c.nodes = hooks ∧ ∀ n ∈ c.nodes ++ c.retired, n.id < next

theorem Cleared.shows (h : Cleared c c') (tidy : c'.Tidy) (below : ∀ n ∈ c.nodes, n.id < next) :
    Shows c.nodes next (some c') := by
  refine ⟨tidy, h.nodes, fun n m => ?_⟩
  rw [h.nodes, h.retired, List.append_nil] at m
  exact below n m

/-- The hook that was taken out is left to be released. -/
theorem Cleared.retires (h : Cleared (c.forget node.id) c') (tidy : c'.Tidy) (mn : node ∈ c.nodes)
    (below : ∀ n ∈ c.nodes, n.id < next) :
    Shows (c.nodes.filter (·.id != node.id)) next
      (some { c' with retired := c'.retired ++ [node] }) := by
  have gone : node.id ∉ c'.nodes.map ChainNode.id := by
    rw [h.nodes]
    intro still
    obtain ⟨n, mn', same⟩ := List.mem_map.mp still
    have := (List.mem_filter.mp mn').2
    simp [same] at this
  refine ⟨tidy.congr (h.filed.retire h.retired gone) rfl rfl, h.nodes, fun n m => ?_⟩
  dsimp only at m
  rw [h.nodes, h.retired, List.nil_append] at m
  rcases List.mem_append.mp m with m | m
  · exact below n (List.mem_of_mem_filter m)
  · exact List.mem_singleton.mp m ▸ below node mn

theorem enroll_lists (f : c.Filed) (plain : ∀ p, node.placement = some p → p.Plain)
    (new : ∀ n ∈ c.nodes ++ c.retired, n.id < node.id) (o : OnFile k next (· = some c) w) :
    (enroll k node).Ends w
      (fun _ => OnFile k next fun found => ∃ c', found = some c' ∧ c'.Filed ∧
        c'.nodes = c.nodes ++ [node] ∧ c'.order = c.order)
      (OnFile k next (· = some c)) := by
  have here : w.chain? k = some c := o.chain
  apply Ends.bind
  apply Ends.get
  simp only [here]
  rcases placed : node.placement with _ | p
  · apply updateChain_ends
    refine o.withChain (fun _ => rfl) ?_
    rintro _ rfl
    exact ⟨_, rfl, f.enrollLoose placed new, rfl, rfl⟩
  · apply Ends.bind
    refine (Spares.forM _ (fun peer => .report _) next _ w o).mono (fun _ w₁ o₁ => ?_) fun _ h => h
    rcases f.enrollPlaced placed (plain p placed) new with ⟨e, refused⟩ | ⟨graph, entered, filed⟩
    · rw [refused]
      apply Ends.bind
      apply updateChain_ends
      apply Ends.bind
      apply Ends.throw
      exact o₁.rechain ({ · with graph := c.graph }) fun _ => rfl
    · rw [entered]
      apply Ends.bind
      apply updateChain_ends
      apply Ends.bind
      apply Ends.pure
      apply updateChain_ends
      refine (o₁.rechain ({ · with graph }) fun _ => rfl).withChain (fun _ => rfl) ?_
      rintro _ rfl
      exact ⟨_, rfl, filed, rfl, rfl⟩

/-- A hook that is refused is not there, and the others are listed as before. -/
theorem insertNode_lists (t : c.Tidy) (plain : ∀ p, node.placement = some p → p.Plain)
    (new : ∀ n ∈ c.nodes ++ c.retired, n.id < node.id) (counted : node.id < next)
    (o : OnFile k next (· = some c) w) :
    (insertNode k node).Ends w (fun _ => OnFile k next (Shows (c.nodes ++ [node]) next))
      (OnFile k next (Shows c.nodes next)) := by
  have older : ∀ n ∈ c.nodes, n.id < node.id := fun n m => new n (List.mem_append_left _ m)
  have below : ∀ n ∈ c.nodes, n.id < next := fun n m => Nat.lt_trans (older n m) counted
  have released {w' : World} (o' : OnFile k next (Shows c.nodes next) w') :
      OnFile k next (Shows c.nodes next) (releaseNode k node w') :=
    o'.beside (releaseNode_beside k node w')
  apply Ends.cleaning
  apply Ends.bind
  refine (enroll_lists t.toFiled plain new o).mono (fun _ w₁ o₁ => ?_) fun w₁ o₁ => ?_
  · obtain ⟨c₁, here₁, f₁, nodes₁, order₁⟩ := o₁.chain
    apply Ends.bind
    apply Ends.outcome
    refine (relink_lists f₁ (o₁.exactly here₁)).mono (fun _ w₂ o₂ => ?_) fun w₂ o₂ e => ?_
    · apply Ends.pure
      refine o₂.mono ?_
      rintro _ ⟨c₂, rfl, cleared, tidy⟩
      rw [← nodes₁]
      refine cleared.shows tidy fun n m => ?_
      rw [nodes₁] at m
      rcases List.mem_append.mp m with m | m
      · exact below n m
      · exact List.mem_singleton.mp m ▸ counted
    · obtain ⟨c₂, here₂, cleared, order₂⟩ := o₂.chain
      -- Without the new hook the chain has the hooks that it had, and they are linked as before.
      have nodes₃ : (c₂.forget node.id).nodes = c.nodes :=
        Chain.nodes_forget_last (cleared.nodes.trans nodes₁) fun n m => Nat.ne_of_lt (older n m)
      have tidy₃ : (c₂.forget node.id).Tidy :=
        t.congr (cleared.filed.forget node.id) nodes₃ (order₂.trans order₁)
      have shown {w' : World} (o' : OnFile k next (Tidied (c₂.forget node.id)) w') :
          OnFile k next (Shows c.nodes next) w' := by
        refine o'.mono ?_
        rintro _ ⟨c₄, rfl, again, tidy⟩
        exact nodes₃ ▸ again.shows tidy (nodes₃.symm ▸ below)
      apply Ends.bind
      apply updateChain_ends
      apply Ends.bind
      apply Ends.outcome
      have forgets (c : Chain) : (c.forget node.id).method = c.method := rfl
      refine (relink_tidies tidy₃ ((o₂.exactly here₂).rechain _ forgets)).mono
        (fun _ w₄ o₄ => Ends.throw (released (shown o₄))) fun w₄ o₄ e' => ?_
      apply Ends.bind
      exact (Spares.report _ next _ w₄ (shown o₄)).mono
        (fun _ _ o₅ => Ends.throw (released o₅)) fun _ o₅ => released o₅
  · refine released (o₁.mono ?_)
    rintro _ rfl
    exact ⟨t, rfl, fun n m => Nat.lt_trans (new n m) counted⟩

/-- A hook that is taken out is gone, whether or not the others could be linked again. -/
theorem removeNode_lists {hooks : List ChainNode} (o : OnFile k next (Shows hooks next) w)
    (id : Nat) :
    (removeNode k id).Ends w
      (fun _ => OnFile k next (Shows (hooks.filter (·.id != id)) next))
      (OnFile k next (Shows (hooks.filter (·.id != id)) next)) := by
  apply Ends.bind
  apply Ends.get
  have shows := o.chain
  rcases here : w.chain? k with _ | c
  · rw [here] at shows
    apply Ends.throw
    obtain rfl : hooks = [] := shows
    exact o
  · rw [here] at shows
    obtain ⟨tidy, rfl, below⟩ := shows
    dsimp only [Option.bind_some]
    rcases found : c.node? id with _ | node
    · have all : c.nodes.filter (·.id != id) = c.nodes :=
        List.filter_eq_self.mpr fun n m => by simpa using List.find?_eq_none.mp found n m
      rw [all]
      exact Ends.throw o
    · obtain ⟨mn, rfl⟩ := tidy.books.node?_eq_some.mp found
      have retired {w' : World} (o' : OnFile k next (Tidied (c.forget node.id)) w') :
          OnFile k next (Shows (c.nodes.filter (·.id != node.id)) next)
            (w'.withChain k fun c => { c with retired := c.retired ++ [node] }) := by
        refine o'.withChain (fun _ => rfl) ?_
        rintro _ ⟨c', rfl, cleared, tidy'⟩
        exact cleared.retires tidy' mn fun n m => below n (List.mem_append_left _ m)
      apply Ends.bind
      apply updateChain_ends
      apply Ends.bind
      apply Ends.outcome
      have forgets (c : Chain) : (c.forget node.id).method = c.method := rfl
      refine (relink_tidies (tidy.forget node.id) ((o.exactly here).rechain _ forgets)).mono
        (fun _ w₂ o₂ => ?_) fun w₂ o₂ e => ?_
      · apply Ends.bind
        apply updateChain_ends
        exact Ends.pure (retired o₂)
      · apply Ends.bind
        apply updateChain_ends
        exact Ends.throw (retired o₂)

end Detouring.World
