-- What users do with the hooks of a manager, seen from all stubs. Adding, undoing and dropping a
-- hook keeps the ledger, and stubs lead to functions of hooks that are there and to code that can be
-- called. A hook that could not be added has changed nothing at a method that is detoured or that
-- has no hooks.
import Detouring.Proofs.Hook.Handling
import Detouring.Proofs.Hook.Rewiring

namespace Detouring.World

open Op Machine

variable {μ : Nat} {G T : Set Nat} {S S' : Store} {code : Set Nat} {k k' : ChainKey} {c c' : Chain}
  {w w' : World} {node : ChainNode} {m : Manager} {h : Hook} {E : World → Prop}

/-! ## Opening a chain -/

theorem chain?_opened_of_ne (found : w.manager? k.manager = some m) (other : k' ≠ k) :
    (w.opened k m).chain? k' = w.chain? k' := by
  by_cases ours : k'.manager = k.manager
  · obtain ⟨m', found', _, chains⟩ := manager?_opened found
    have beside : k'.method ≠ k.method := ChainKey.method_ne ours other
    unfold chain?
    rw [ours, found', found]
    show m'.chains.find? _ = m.chains.find? _
    rw [chains]
    split
    · rfl
    · have out : ¬ k.method = k'.method := fun it => beside it.symm
      rw [List.find?_append]
      simp [out]
  · let chains := if (w.chain? k).isSome then m.chains else m.chains ++ [{ method := k.method }]
    let f : Manager → Manager := ({ · with chains, nextHook := m.nextHook + 1 })
    have same : (w.updateManager k.manager f).manager? k'.manager = w.manager? k'.manager :=
      manager?_updateManager_of_ne w (f := f) (fun _ => rfl) ours
    unfold chain?
    rw [← same]
    rfl

theorem Kept.opened (g : Kept μ S w) (ours : k.manager = μ) (name : w.nameOf k.method = k.method)
    (found : w.manager? k.manager = some m) : Kept μ S (w.opened k m) := by
  have stays {k' : ChainKey} {c' : Chain} (there : w.chain? k' = some c') :
      (w.opened k m).chain? k' = some c' := by
    by_cases it : k' = k
    · subst it
      rw [chain?_opened found, there]
      rfl
    · rw [chain?_opened_of_ne found it]
      exact there
  have counted : ∃ m', (w.opened k m).manager? μ = some m' ∧
      ∀ e ∈ S.hooks, e.2.id < m'.nextHook := by
    obtain ⟨m', found', next, _⟩ := manager?_opened found
    obtain ⟨m₀, found₀, below⟩ := g.counted
    obtain rfl := Option.some.inj (found.symm.trans ((congrArg w.manager? ours).trans found₀))
    exact ⟨m', ours ▸ found', fun e me => next ▸ Nat.lt_succ_of_lt (below e me)⟩
  refine ⟨⟨⟨g.numbered.ids, g.numbered.numbered⟩, g.keeps, g.inHand, counted, g.ids, g.ours,
    g.handles⟩, fun k' c' ours' here' => ?_, fun d md => ?_, g.posts, g.packed⟩
  · rcases there : w.chain? k' with _ | c
    · -- The chain is new.
      have it : k' = k := by
        by_contra other
        rw [chain?_opened_of_ne found other, there] at here'
        cases here'
      subst it
      rw [chain?_opened found, there] at here'
      obtain rfl := Option.some.inj here'
      exact ⟨name, ⟨List.Pairwise.nil, List.nodup_nil, fun n mn => (by cases mn),
        PlacementGraph.sound_empty, rfl⟩, fun n mn => (by cases mn), fun p hp => (by cases hp),
        fun id root => (by cases root)⟩
    · obtain rfl := Option.some.inj ((stays there).symm.trans here')
      have h := g.chains k' c ours' there
      exact ⟨h.name, h.books, h.nodes, h.proxy, h.root⟩
  · exact (g.detours d md).later (fun _ f => f) fun c there root => ⟨c, stays there, root⟩

theorem Unmoved.opened (found : w.manager? k.manager = some m) :
    Unmoved k S S w (w.opened k m) where
  toPasses := .refl S
  seeks := .aside (.still rfl rfl rfl)
  holdings _ mb := ⟨mb, fun _ _ => rfl⟩
  held := rfl
  names _ := rfl
  alternates _ mx := mx
  trampolines _ _ := rfl
  fronts _ _ := rfl
  chains _ other := chain?_opened_of_ne found other
  front k' p there := by
    unfold front? at there ⊢
    by_cases it : k' = k
    · subst it
      obtain ⟨c, here, hp⟩ := Option.bind_eq_some_iff.mp there
      rw [chain?_opened found, here]
      exact hp
    · rw [chain?_opened_of_ne found it]
      exact there
  patched k' _ := by
    by_cases it : k' = k
    · subst it
      exact patched?_opened found
    · unfold patched?
      rw [chain?_opened_of_ne found it]
      rfl

/-- A new chain has no hooks, and its method is not detoured. -/
theorem Kept.opened_rigged (g : Kept μ S w) (ours : k.manager = μ)
    (name : w.nameOf k.method = k.method) (found : w.manager? k.manager = some m) :
    (w.opened k m).members k = w.members k ∧ (Rigged k w → Rigged k (w.opened k m)) := by
  have u : Unmoved k S S w (w.opened k m) := .opened found
  have chain := chain?_opened found
  rcases there : w.chain? k with _ | c <;> rw [there] at chain
  · have none : (w.opened k m).members k = [] := members_of_chain chain
    have bare : w.patched? k = .none := by
      unfold patched?
      rw [there]
      rfl
    refine ⟨?_, fun _ => .of_bare ((u.patched k rfl).trans bare) none⟩
    rw [none]
    unfold members
    rw [there]
    rfl
  · have same : (w.opened k m).chain? k = w.chain? k := chain.trans there.symm
    exact ⟨members_congr same, u.rigged g (g.opened ours name found) ours (congrArg _ same)⟩

/-! ## Entering the books -/

theorem Unmoved.report (r : Report) : Unmoved k S S w { w with machine := w.machine.report r } :=
  quiet ⟨w.beside_machine _, rfl⟩ (.aside ⟨rfl, rfl, fun _ f => f, fun _ _ => rfl, fun _ _ => rfl⟩)

/-- A hook is entered in the books, or its chain is as it was. -/
theorem enroll_serves (g : Kept μ S w) (ours : k.manager = μ) (here : w.chain? k = some c)
    (mn : (k, node) ∈ S.hooks) (new : ∀ n ∈ c.nodes ++ c.retired, n.id < node.id) :
    (enroll k node).Ends w
      (fun _ w' => Kept μ S w' ∧ Unmoved k S S w w' ∧ ∃ c', w'.chain? k = some c' ∧
        c'.nodes = c.nodes ++ [node] ∧ c'.retired = c.retired)
      (fun w' => Kept μ S w' ∧ Unmoved k S S w w' ∧ w'.chain? k = some c) := by
  have chained := g.chains k c ours here
  have b := chained.books
  have known (n : ChainNode) (mn' : n ∈ (c.nodes ++ [node]) ++ c.retired) : (k, n) ∈ S.hooks := by
    rcases List.mem_append.mp mn' with mn' | mn'
    · rcases List.mem_append.mp mn' with mn' | mn'
      · exact chained.nodes n (List.mem_append_left _ mn')
      · obtain rfl := List.mem_singleton.mp mn'
        exact mn
    · exact chained.nodes n (List.mem_append_right _ mn')
  apply Ends.bind
  apply Ends.get
  simp only [here]
  rcases placed : node.placement with _ | p
  · let f : Chain → Chain := fun c =>
      { c with unplaced := node.id :: c.unplaced, nodes := c.nodes ++ [node] }
    apply updateChain_ends
    refine ⟨g.rebook ours here (f := f) (fun _ => rfl) (b.enrollLoose placed new) known rfl rfl,
      .rechain (f := f) (fun _ => rfl) (fun _ => rfl) fun _ _ _ there => there, f c, ?_, rfl, rfl⟩
    rw [chain?_withChain w k (f := f) fun _ => rfl, here]
    rfl
  · apply Ends.bind
    apply (Ends.forM (I := fun w' => Kept μ S w' ∧ Unmoved k S S w w' ∧ w'.chain? k = some c)
      ⟨g, .refl k S w, here⟩ fun peer _ s ⟨kept, unmoved, there⟩ => ?_).mono (F := fun _ => False)
    · rintro ⟨⟩ w₁ ⟨g₁, u₁, here₁⟩
      rcases b.enrollPlaced placed new with ⟨e, refused⟩ | ⟨graph, entered, books⟩
      · rw [refused]
        let f : Chain → Chain := ({ · with graph := c.graph })
        apply Ends.bind
        apply updateChain_ends
        apply Ends.bind
        apply Ends.throw
        refine ⟨g₁.rebook ours here₁ (f := f) (fun _ => rfl) b chained.nodes rfl rfl,
          u₁.trans (.rechain (f := f) (fun _ => rfl) (fun _ => rfl) fun _ _ _ there => there), ?_⟩
        rw [chain?_withChain w₁ k (f := f) fun _ => rfl, here₁]
        rfl
      · rw [entered]
        let f : Chain → Chain := ({ · with graph })
        let f' : Chain → Chain := fun c => { c with nodes := c.nodes ++ [node] }
        apply Ends.bind
        apply updateChain_ends
        apply Ends.bind
        apply Ends.pure
        apply updateChain_ends
        rw [show (w₁.withChain k f).withChain k f' = w₁.withChain k (f' ∘ f) from
          withChain_withChain w₁ k f' fun _ => rfl]
        refine ⟨g₁.rebook ours here₁ (f := f' ∘ f) (fun _ => rfl) books known rfl rfl,
          u₁.trans (.rechain (f := f' ∘ f) (fun _ => rfl) (fun _ => rfl) fun _ _ _ there => there),
          f' (f c), ?_, rfl, rfl⟩
        rw [chain?_withChain w₁ k (f := f' ∘ f) fun _ => rfl, here₁]
        rfl
    · exact fun _ h => h.elim
    · apply changeMachine_ends
      exact ⟨kept.quiet ⟨s.beside_machine _, rfl⟩, unmoved.trans (.report _), there⟩

/-! ## Adding a hook to a chain -/

/-- The hooks of a method as they are linked. -/
def listed (w : World) (k : ChainKey) : List ChainNode :=
  ((w.chain? k).map Chain.linkedNodes).getD []

theorem listed_of_chain (here : w.chain? k = some c) : w.listed k = c.linkedNodes := by
  unfold listed
  rw [here]
  rfl

theorem linkedNodes_nil (none : c.nodes = []) : c.linkedNodes = [] := by
  refine List.eq_nil_iff_forall_not_mem.mpr fun n mn => ?_
  have := Chain.Books.mem_nodesOf mn
  rw [none] at this
  cases this

/-- A chain forgets a hook, which stays linked for now. -/
theorem Kept.forget (g : Kept μ S w) (ours : k.manager = μ) (here : w.chain? k = some c)
    (id : Nat) :
    Kept μ S (w.withChain k (·.forget id)) ∧ Unmoved k S S w (w.withChain k (·.forget id)) ∧
      (w.withChain k (·.forget id)).chain? k = some (c.forget id) := by
  let f : Chain → Chain := (·.forget id)
  have chained := g.chains k c ours here
  refine ⟨g.rebook ours here (f := f) (fun _ => rfl) (chained.books.forget id)
    (fun n mn => chained.nodes n ?_) rfl rfl,
    .rechain (f := f) (fun _ => rfl) (fun _ => rfl) fun _ _ _ there => there, ?_⟩
  · refine List.mem_append.mpr ((List.mem_append.mp mn).imp_left fun mn => ?_)
    exact List.mem_of_mem_filter mn
  · rw [chain?_withChain w k (f := f) fun _ => rfl, here]
    rfl

/-- The ledger still has the hook, but its chain has forgotten it. -/
structure Forgets (μ : Nat) (k : ChainKey) (node : ChainNode) (w' : World) (S' : Store)
    (c' : Chain) : Prop where
  kept : Kept μ S' w'
  mem : (k, node) ∈ S'.hooks
  chain : w'.chain? k = some c'
  out : ∀ n ∈ c'.nodes ++ c'.retired, n.id ≠ node.id

/-- A line in the log makes no difference. -/
theorem Forgets.quiet {w₁ : World} (f : Forgets μ k node w₁ S' c') (q : w₁.Quiet w') :
    Forgets μ k node w' S' c' :=
  ⟨f.kept.quiet q, f.mem, (q.toBeside.chain? k).trans f.chain, f.out⟩

/-- A forgotten hook without a handle is given up. -/
theorem Forgets.released (f : Forgets μ k node w' S' c')
    (unused : ∀ h ∈ w'.hooks, h.node.id ≠ node.id) :
    ∃ S'', Kept μ S'' (releaseNode k node w') ∧ Unmoved k S' S'' w' (releaseNode k node w') ∧
      (k, node) ∉ S''.hooks ∧ (releaseNode k node w').chain? k = some c' := by
  obtain ⟨S'', kept, unmoved, _, gone⟩ := f.kept.releaseNode f.mem
  refine ⟨S'', kept, unmoved, gone unused fun c there n mn => ?_,
    ((releaseNode_beside k node w').chain? k).trans f.chain⟩
  obtain rfl := Option.some.inj (f.chain.symm.trans there)
  exact f.out n mn

/-- The chain is linked without the hook, or not at all. -/
theorem Relined.forgets (relined : Relined μ k S c' w' S') (nodes : c'.nodes = c.nodes)
    (empty : c'.retired = []) (mem : (k, node) ∈ S.hooks) (fresh : ∀ n ∈ c.nodes, n.id ≠ node.id) :
    ∃ c₁, Forgets μ k node w' S' c₁ ∧ c₁.nodes = c.nodes := by
  obtain ⟨c₁, here, books⟩ := relined.chain
  have nodes₁ : c₁.nodes = c.nodes := books.nodes.trans nodes
  refine ⟨c₁, ⟨relined.kept, relined.left _ mem fun n mn => ?_, here, fun n mn => ?_⟩, nodes₁⟩
  · rw [empty] at mn
    cases mn
  · rw [nodes₁, books.retired] at mn
    exact fresh n (by simpa using mn)

/-- Nothing has come of a change of the chain. -/
structure Futile (μ : Nat) (k : ChainKey) (S S' : Store) (w w' : World) : Prop where
  kept : Kept μ S' w'
  unmoved : Unmoved k S S' w w'
  listed : w'.listed k = w.listed k
  members : w'.members k = w.members k
  rigged : Rigged k w → Rigged k w'

/-- The chain is as it was, or it had no hooks and has none. -/
theorem Futile.of_unmoved (g : Kept μ S w) (ours : k.manager = μ) (here : w.chain? k = some c)
    (kept : Kept μ S' w') (unmoved : Unmoved k S S' w w') (here' : w'.chain? k = some c')
    (same : c' = c ∨ c.nodes = [] ∧ c'.nodes = []) : Futile μ k S S' w w' := by
  rcases same with rfl | ⟨none, none'⟩
  · have same := here'.trans here.symm
    refine ⟨kept, unmoved, ?_, members_congr same, unmoved.rigged g kept ours (congrArg _ same)⟩
    rw [listed_of_chain here, listed_of_chain here']
  · have empty : w.members k = [] := (members_of_chain here).trans none
    have empty' : w'.members k = [] := (members_of_chain here').trans none'
    refine ⟨kept, unmoved, ?_, empty'.trans empty.symm, fun rigged => ?_⟩
    · rw [listed_of_chain here, listed_of_chain here', linkedNodes_nil none, linkedNodes_nil none']
    · exact .of_bare ((unmoved.patched k rfl).trans (rigged.detoured.mp empty)) empty'

/-- Nothing has come of what was done after it, either. -/
theorem Futile.further {S₁ : Store} {w₁ : World} (h : Futile μ k S S₁ w w₁) (ours : k.manager = μ)
    (kept : Kept μ S' w') (u : Unmoved k S₁ S' w₁ w') (same : w'.chain? k = w₁.chain? k) :
    Futile μ k S S' w w' := by
  refine ⟨kept, h.unmoved.trans u, ?_, (members_congr same).trans h.members, fun before =>
    u.rigged h.kept kept ours (congrArg _ same) (h.rigged before)⟩
  rw [← h.listed]
  unfold World.listed
  rw [same]

/-- A hook could not be added to the chain, and it was given up. Where the method is detoured or has
no other hooks, nothing else has happened. -/
structure Refused (μ : Nat) (code : Set Nat) (k : ChainKey) (S : Store) (c : Chain)
    (node : ChainNode) (w w' : World) : Prop where
  done : w'.Covered code k → ∃ S', Kept μ S' w' ∧ Guided μ (functions c.nodes) S S' w w' ∧
    (k, node) ∉ S'.hooks
  plain : (w.patched? k).isSome ∨ c.nodes = [] → ∃ S', Futile μ k S S' w w' ∧ (k, node) ∉ S'.hooks

/-- In the end the forgotten hook is released. -/
theorem Refused.of_forgets {w₁ : World} (g : Kept μ S w) (ours : k.manager = μ)
    (here : w.chain? k = some c)
    (unused : ∀ h ∈ w.hooks, h.node.id ≠ node.id) (held : w₁.held = w.held)
    (done : w₁.Covered code k → ∃ S₁ c₁, Forgets μ k node w₁ S₁ c₁ ∧
      Guided μ (functions c.nodes) S S₁ w w₁)
    (plain : (w.patched? k).isSome ∨ c.nodes = [] → ∃ S₁ c₁, Forgets μ k node w₁ S₁ c₁ ∧
      Unmoved k S S₁ w w₁ ∧ (c₁ = c ∨ c.nodes = [] ∧ c₁.nodes = [])) :
    Refused μ code k S c node w (releaseNode k node w₁) := by
  have unused₁ : ∀ h ∈ w₁.hooks, h.node.id ≠ node.id := by
    rw [show w₁.hooks = w.hooks from (Prod.mk.inj held).1]
    exact unused
  refine ⟨fun covered => ?_, fun kind => ?_⟩
  · rw [Covered, (releaseNode_beside k node w₁).patched? k] at covered
    obtain ⟨S₁, c₁, f, guided⟩ := done covered
    obtain ⟨S', kept, unmoved, gone, _⟩ := f.released unused₁
    exact ⟨S', kept, guided.trans (unmoved.guided f.kept ours), gone⟩
  · obtain ⟨S₁, c₁, f, unmoved, same⟩ := plain kind
    obtain ⟨S', kept, unmoved', gone, chain⟩ := f.released unused₁
    exact ⟨S', .of_unmoved g ours here kept (unmoved.trans unmoved') chain same, gone⟩

/-- A change of the chain has led to these hooks. Others were left alone, and if the chain was linked,
it is linked. -/
structure Refitted (k : ChainKey) (nodes : List ChainNode) (w w' : World) : Prop where
  confined : Confined k w w'
  rigged : Rigged k w → Rigged k w'
  members : w'.members k = nodes

namespace Refitted

variable {w₁ : World} {S₁ : Store} {nodes : List ChainNode}

theorem of_unmoved (g : Kept μ S w) (kept : Kept μ S' w') (ours : k.manager = μ)
    (u : Unmoved k S S' w w')
    (same : (w'.chain? k).map Chain.active = (w.chain? k).map Chain.active) :
    Refitted k (w.members k) w w' :=
  ⟨u.confined g kept ours, u.rigged g kept ours same, members_of_active same⟩

theorem trans {before : List ChainNode} (h : Refitted k before w w₁)
    (h' : Refitted k nodes w₁ w') : Refitted k nodes w w' :=
  ⟨h.confined.trans h'.confined, fun rigged => h'.rigged (h.rigged rigged), h'.members⟩

/-- Nothing was done to the machine. -/
theorem quiet (h : Refitted k nodes w w₁) (q : w₁.Quiet w') : Refitted k nodes w w' :=
  h.trans ⟨.quiet q, .quiet q, (members_congr (q.toBeside.chain? k)).trans h.members⟩

/-- Handles do not matter. -/
theorem rehook (h : Refitted k nodes w w') (hooks : List Hook) :
    Refitted k nodes w { w' with hooks } := by
  obtain ⟨⟨chains, patched, trampolines, fronts, blocks, foreign, code, guards⟩, rigged, members⟩ := h
  refine ⟨⟨chains, patched, trampolines, fronts, blocks, foreign, code, guards⟩, fun before => ?_,
    members⟩
  obtain ⟨armed, detoured, linked⟩ := rigged before
  exact ⟨armed, detoured, linked⟩

end Refitted

theorem Futile.refitted (h : Futile μ k S S' w w') (g : Kept μ S w) (ours : k.manager = μ) :
    Refitted k (w.members k) w w' := ⟨h.unmoved.confined g h.kept ours, h.rigged, h.members⟩

/-- What was done before left the stubs alone. -/
theorem Relaid.since {G : Set Nat} {w₁ : World} (relaid : Relaid μ G k S S' w₁ w')
    (g : Kept μ S w) (g₁ : Kept μ S w₁) (ours : k.manager = μ) (u : Unmoved k S S w w₁) :
    Relaid μ G k S S' w w' :=
  ⟨(u.guided g ours).trans relaid.guided, (u.confined g g₁ ours).trans relaid.confined,
    fun before => relaid.rigged (u.armed g before)⟩

theorem Relaid.refitted {G : Set Nat} (relaid : Relaid μ G k S S' w w')
    (relined : Relined μ k S c w' S') : Refitted k c.nodes w w' := by
  obtain ⟨c', here', books⟩ := relined.chain
  exact ⟨relaid.confined, fun before => relaid.rigged before.armed,
    (members_of_chain here').trans books.nodes⟩

section Withdrawing

variable {w₁ : World} {S₁ : Store} {c₁ : Chain}

/-- A chain was to be linked with a hook, and it has forgotten the hook again. Nothing has come of
it so far. -/
structure Withdrawn (μ : Nat) (k : ChainKey) (S : Store) (c : Chain) (node : ChainNode) (w : World)
    (S₁ : Store) (w₁ : World) : Prop where
  kept : Kept μ S₁ w₁
  unmoved : Unmoved k S S₁ w w₁
  mem : (k, node) ∈ S₁.hooks
  chain : ∃ c₁, w₁.chain? k = some c₁ ∧ c₁.nodes = c.nodes ∧ c₁.retired = []

theorem Relined.withdrawn (relined : Relined μ k S c₁ w₁ S₁) (ours : k.manager = μ)
    (unmoved : Unmoved k S S₁ w w₁) (mem : (k, node) ∈ S₁.hooks)
    (nodes : c₁.nodes = c.nodes ++ [node]) (linked : ∀ n ∈ c.nodes, n.id ≠ node.id) :
    Withdrawn μ k S c node w S₁ (w₁.withChain k (·.forget node.id)) := by
  obtain ⟨c₂, here, books⟩ := relined.chain
  obtain ⟨kept, forgotten, here'⟩ := relined.kept.forget ours here node.id
  exact ⟨kept, unmoved.trans forgotten, mem, c₂.forget node.id, here',
    Chain.nodes_forget_last (books.nodes.trans nodes) linked, books.retired⟩

/-- The chain is brought up to date once more, now without the hook. -/
theorem Withdrawn.relink_refuses (h : Withdrawn μ k S c node w S₁ w₁) (g : Kept μ S w)
    (ours : k.manager = μ) (here : w.chain? k = some c) (linked : ∀ n ∈ c.nodes, n.id ≠ node.id)
    (unused : ∀ h ∈ w.hooks, h.node.id ≠ node.id) (foreign : ∀ a ∈ code, w.machine.Foreign a)
    (bare : w.patched? k = none) (inland : w.Inland k.method) :
    (relink k).Ends w₁ (fun _ w' => Refused μ code k S c node w (releaseNode k node w'))
      (fun w' => ∀ r, Refused μ code k S c node w
        (releaseNode k node { w' with machine := w'.machine.report r })) := by
  obtain ⟨g₁, u, mem, c₁, here₁, nodes, retired⟩ := h
  -- The chain has not changed its kind, so it has no hooks.
  have empty (kind : (w.patched? k).isSome ∨ c.nodes = []) : c.nodes = [] := by
    refine kind.resolve_left fun some => ?_
    rw [bare] at some
    cases some
  have forgets {w₂ : World} {S₂ : Store} (again : Relined μ k S₁ c₁ w₂ S₂) :=
    again.forgets nodes retired mem linked
  apply (relink_wires g₁ ours here₁ (fun a ma => (u.seeks.foreign (foreign a ma)).1)
    fun _ => inland.seeks u.seeks).mono
  · rintro ⟨⟩ w₂ ⟨held, _, done, quiet⟩
    refine .of_forgets g ours here unused (held.trans u.held) (fun covered => ?_) fun kind => ?_
    · obtain ⟨S₂, again, relaid⟩ := done covered
      obtain ⟨c₂, forgets, _⟩ := forgets again
      exact ⟨S₂, c₂, forgets, (u.guided g ours).trans (nodes ▸ relaid.guided)⟩
    · have none := empty kind
      obtain ⟨S₂, again, unmoved⟩ := quiet ((u.patched k rfl).trans bare) (nodes.trans none)
      obtain ⟨c₂, forgets, same⟩ := forgets again
      exact ⟨S₂, c₂, forgets, u.trans unmoved, Or.inr ⟨none, same.trans none⟩⟩
  · rintro w₂ ⟨_, S₂, again, unmoved⟩ r
    obtain ⟨c₂, forgets, same⟩ := forgets again
    let w₃ : World := { w₂ with machine := w₂.machine.report r }
    have u₃ : Unmoved k S S₂ w w₃ := (u.trans unmoved).trans (.report _)
    have forgets₃ : Forgets μ k node w₃ S₂ c₂ := forgets.quiet ⟨w₂.beside_machine _, rfl⟩
    exact .of_forgets g ours here unused u₃.held
      (fun _ => ⟨S₂, c₂, forgets₃, u₃.guided g ours⟩)
      fun kind => ⟨S₂, c₂, forgets₃, u₃, Or.inr ⟨empty kind, same.trans (empty kind)⟩⟩

end Withdrawing

/-- A hook is added to its chain, or it is refused. -/
theorem insertNode_serves (g : Kept μ S w) (ours : k.manager = μ) (here : w.chain? k = some c)
    (mn : (k, node) ∈ S.hooks) (new : ∀ n ∈ c.nodes ++ c.retired, n.id < node.id)
    (unused : ∀ h ∈ w.hooks, h.node.id ≠ node.id) (foreign : ∀ a ∈ code, w.machine.Foreign a)
    (inland : w.patched? k = none → w.Inland k.method) :
    (insertNode k node).Ends w
      (fun _ w' => w'.held = w.held ∧ (w'.Covered code k → ∃ S', Kept μ S' w' ∧
        Guided μ (functions (node :: c.nodes)) S S' w w' ∧ (k, node) ∈ S'.hooks ∧
        Refitted k (c.nodes ++ [node]) w w'))
      (Refused μ code k S c node w) := by
  have fresh : ∀ n ∈ c.nodes ++ c.retired, n.id ≠ node.id := fun n mn => Nat.ne_of_lt (new n mn)
  have linked : ∀ n ∈ c.nodes, n.id ≠ node.id := fun n mn => fresh n (List.mem_append_left _ mn)
  apply Ends.cleaning
  apply Ends.bind
  apply (enroll_serves g ours here mn new).mono
  · rintro ⟨⟩ w₁ ⟨g₁, u₁, c₁, here₁, nodes, retired⟩
    have stays {S' : Store} (left : ∀ e ∈ S.hooks, (∀ n ∈ c₁.retired, e ≠ (k, n)) → e ∈ S'.hooks) :
        (k, node) ∈ S'.hooks := by
      refine left _ mn fun n mn' same => fresh n ?_ (congrArg (·.2.id) same).symm
      exact List.mem_append_right _ (retired ▸ mn')
    apply Ends.bind
    apply Ends.outcome
    apply (relink_wires g₁ ours here₁ (fun a ma => (u₁.seeks.foreign (foreign a ma)).1)
      fun bare => (inland (u₁.patched k rfl ▸ bare)).seeks u₁.seeks).mono
    · rintro ⟨⟩ w₂ ⟨held, _, done, _⟩
      apply Ends.pure
      refine ⟨held.trans u₁.held, fun covered => ?_⟩
      obtain ⟨S₂, relined, relaid⟩ := done covered
      have relaid := relaid.since g g₁ ours u₁
      refine ⟨S₂, relined.kept, relaid.guided.mono fun t ⟨n, mn, same⟩ => ?_, stays relined.left,
        nodes ▸ relaid.refitted relined⟩
      rw [nodes] at mn
      exact ⟨n, by simpa [or_comm] using mn, same⟩
    · rintro w₂ ⟨bare, S₂, relined, unmoved⟩ e
      have bare : w.patched? k = none := (u₁.patched k rfl).symm.trans bare
      have withdrawn := relined.withdrawn ours (u₁.trans unmoved) (stays relined.left) nodes linked
      apply Ends.bind
      apply updateChain_ends
      apply Ends.bind
      apply Ends.outcome
      apply (withdrawn.relink_refuses g ours here linked unused foreign bare (inland bare)).mono
      · rintro ⟨⟩ w₃ refused
        exact Ends.throw refused
      · rintro w₃ refused e'
        apply Ends.bind
        apply changeMachine_ends
        exact Ends.throw (refused _)
  · rintro w₁ ⟨g₁, u₁, here₁⟩
    have forgets : Forgets μ k node w₁ S c := ⟨g₁, mn, here₁, fresh⟩
    exact .of_forgets g ours here unused u₁.held
      (fun _ => ⟨S, c, forgets, u₁.guided g ours⟩) fun _ => ⟨S, c, forgets, u₁, Or.inl rfl⟩

/-! ## Taking a hook out -/

/-- What a change of a chain comes to. The ledger is in order, and stubs were pointed only at
functions in `G` and at code that can be called. A chain that was linked has the hooks `nodes`. -/
structure Changed (μ : Nat) (code G : Set Nat) (k : ChainKey) (nodes : List ChainNode) (S : Store)
    (w w' : World) : Prop where
  held : w'.held = w.held
  stays : JumpStays k w w'
  done : w'.Covered code k → ∃ S', Kept μ S' w' ∧ Guided μ G S S' w w'
  refitted : Rigged k w → w'.Covered code k → Refitted k nodes w w'

theorem removeNode_missing (none : w.chain? k = none) (id : Nat) :
    (removeNode k id).Ends w (fun _ _ => False) (fun w' => w' = w) := by
  apply Ends.bind
  apply Ends.get
  rw [none]
  exact Ends.throw rfl

/-- A hook that was taken out is retired: calls may still run in it. -/
theorem Relined.retire (ours : k.manager = μ) (chained : Chained k c S w) (mn : node ∈ c.nodes)
    (relined : Relined μ k S (c.forget node.id) w' S') :
    Kept μ S' (w'.withChain k fun c => { c with retired := c.retired ++ [node] }) ∧
      Unmoved k S' S' w' (w'.withChain k fun c => { c with retired := c.retired ++ [node] }) := by
  let f : Chain → Chain := fun c => { c with retired := c.retired ++ [node] }
  obtain ⟨c₁, here, books⟩ := relined.chain
  have chained₁ := relined.kept.chains k c₁ ours here
  have empty : c₁.retired = [] := books.retired
  have there : (k, node) ∈ S'.hooks := by
    refine relined.left _ (chained.nodes node (List.mem_append_left _ mn)) fun n mn' same => ?_
    obtain rfl := (Prod.mk.inj same).2
    exact chained.books.apart node mn' (List.mem_map_of_mem mn)
  have gone : node.id ∉ c₁.nodes.map ChainNode.id := books.nodes ▸ c.not_mem_forget node.id
  refine ⟨relined.kept.rebook ours here (f := f) (fun _ => rfl)
    (chained₁.books.retire empty gone) (fun n mn' => ?_) rfl rfl,
    .rechain (f := f) (fun _ => rfl) (fun _ => rfl) fun _ _ _ there => there⟩
  have mn' : n ∈ c₁.nodes ++ (c₁.retired ++ [node]) := mn'
  rw [empty, List.nil_append] at mn'
  rcases List.mem_append.mp mn' with mn' | mn'
  · exact chained₁.nodes n (List.mem_append_left _ mn')
  · obtain rfl := List.mem_singleton.mp mn'
    exact there

/-- The stubs that were moved lead to functions of hooks that the chain has had. -/
theorem Relined.retire_guided (g : Kept μ S w) (ours : k.manager = μ) (here : w.chain? k = some c)
    (mn : node ∈ c.nodes) (relined : Relined μ k S (c.forget node.id) w' S')
    (guided : Guided μ (functions (c.forget node.id).nodes) S S' w w') :
    ∃ S'', Kept μ S'' (w'.withChain k fun c => { c with retired := c.retired ++ [node] }) ∧
      Guided μ (functions c.nodes) S S'' w
        (w'.withChain k fun c => { c with retired := c.retired ++ [node] }) := by
  obtain ⟨kept, last⟩ := relined.retire ours (g.chains k c ours here) mn
  have guided : Guided μ (functions c.nodes) S S' w w' :=
    guided.mono fun _ ⟨n, mn, same⟩ => ⟨n, List.mem_of_mem_filter mn, same⟩
  exact ⟨S', kept, guided.trans (last.guided relined.kept ours)⟩

/-- The other hooks of a chain are linked. -/
theorem Relined.retire_refitted {G : Set Nat} (g : Kept μ S w) (ours : k.manager = μ)
    (here : w.chain? k = some c) (mn : node ∈ c.nodes)
    (relined : Relined μ k S (c.forget node.id) w' S') (relaid : Relaid μ G k S S' w w') :
    Refitted k (c.forget node.id).nodes w
      (w'.withChain k fun c => { c with retired := c.retired ++ [node] }) := by
  let f : Chain → Chain := fun c => { c with retired := c.retired ++ [node] }
  obtain ⟨kept, last⟩ := relined.retire ours (g.chains k c ours here) mn
  have same : ((w'.withChain k f).chain? k).map Chain.active = (w'.chain? k).map Chain.active := by
    rw [chain?_withChain w' k (f := f) fun _ => rfl, Option.map_map]
    rfl
  have refitted := relaid.refitted relined
  exact refitted.trans (refitted.members ▸ .of_unmoved relined.kept kept ours last same)

theorem removeNode_serves (g : Kept μ S w) (ours : k.manager = μ) (here : w.chain? k = some c)
    (foreign : ∀ a ∈ code, w.machine.Foreign a) (inland : w.patched? k = none → w.Inland k.method)
    (id : Nat) :
    (removeNode k id).Ends w
      (fun _ => Changed μ code (functions c.nodes) k (c.nodes.filter (·.id != id)) S w)
      (Changed μ code (functions c.nodes) k (c.nodes.filter (·.id != id)) S w) := by
  apply Ends.bind
  apply Ends.get
  simp only [here, Option.bind_some]
  split <;> rename_i found
  · apply Ends.throw
    have others : c.nodes.filter (·.id != id) = w.members k := by
      rw [members_of_chain here]
      exact List.filter_eq_self.mpr fun n mn => by
        simpa using List.find?_eq_none.mp found n mn
    refine ⟨rfl, Or.inl rfl, fun _ => ⟨S, g, (Unmoved.refl k S w).guided g ours⟩, fun _ _ => ?_⟩
    exact others ▸ .of_unmoved g g ours (.refl k S w) rfl
  · rename_i node
    obtain ⟨mn, rfl⟩ := (g.chains k c ours here).books.node?_eq_some.mp found
    obtain ⟨g₁, u₁, here₁⟩ := g.forget ours here node.id
    have before := u₁.patched k rfl
    let f : Chain → Chain := fun c => { c with retired := c.retired ++ [node] }
    have later (w₂ : World) : (w₂.withChain k f).patched? k = w₂.patched? k :=
      patched?_withChain (f := f) (fun _ => rfl) fun _ => rfl
    apply Ends.bind
    apply updateChain_ends
    apply Ends.bind
    apply Ends.outcome
    apply (relink_wires g₁ ours here₁ foreign fun bare =>
      (inland (before ▸ bare)).seeks u₁.seeks).mono
    · rintro ⟨⟩ w₂ ⟨held, stays, done, _⟩
      apply Ends.bind
      apply updateChain_ends
      apply Ends.pure
      have done (covered : (w₂.withChain k f).Covered code k) := done (by
        rwa [Covered, later] at covered)
      refine ⟨held, (stays.since before).until (later w₂), fun covered => ?_, fun _ covered => ?_⟩
      · obtain ⟨S₂, relined, relaid⟩ := done covered
        exact relined.retire_guided g ours here mn (relaid.since g g₁ ours u₁).guided
      · obtain ⟨S₂, relined, relaid⟩ := done covered
        exact relined.retire_refitted g ours here mn (relaid.since g g₁ ours u₁)
    · rintro w₂ ⟨bare, S₂, relined, unmoved⟩ e
      have u₂ := u₁.trans unmoved
      apply Ends.bind
      apply updateChain_ends
      apply Ends.throw
      refine ⟨u₂.held, Or.inl ((later w₂).trans (u₂.patched k rfl)),
        fun _ => relined.retire_guided g ours here mn (u₂.guided g ours), fun rigged _ => ?_⟩
      -- A linked chain with a hook belongs to a method that is detoured.
      have none := rigged.detoured.mpr (before ▸ bare)
      rw [members_of_chain here] at none
      rw [none] at mn
      cases mn

/-! ## Hooking -/

/-- What an act on a method comes to. The ledger is in order, and if all stubs led to functions in
`T` and to code that can be called, they still do; `more` are functions that came up. -/
def Served (μ : Nat) (code more : Set Nat) (k : ChainKey) (S : Store) (w w' : World) : Prop :=
  w'.Covered code k → ∃ S', Kept μ S' w' ∧
    ∀ T, (∀ t ∈ more, t ∈ T) → Leads μ T S w → Leads μ T S' w'

/-- Hooks lead to functions that are known. -/
theorem Leads.functions (l : Leads μ T S w) {nodes : List ChainNode}
    (sub : ∀ n ∈ nodes, (k, n) ∈ S.hooks) : ∀ t ∈ functions nodes, t ∈ T := by
  rintro _ ⟨n, mn, rfl⟩
  exact l.targets (k, n) (sub n mn)

theorem Served.of_unmoved {more : Set Nat} (g : Kept μ S w) (ours : k.manager = μ)
    (kept : Kept μ S' w') (unmoved : Unmoved k S S' w w') : Served μ code more k S w w' :=
  fun _ => ⟨S', kept, fun _ _ l => l.guided (G := ∅) (unmoved.guided g ours) fun _ mt => by cases mt⟩

/-- A hook was added, and its handle is the last. -/
structure HookAdded (μ : Nat) (code : Set Nat) (k : ChainKey) (target : Nat) (S : Store) (h : Hook)
    (w w' : World) : Prop where
  served : Served μ code {target} k S w w'
  hooks : w'.hooks = w.hooks ++ [h]
  chain : h.chain = k
  applied : h.applied = true
  fresh : ∀ x ∈ w.hooks, x.node.id ≠ h.node.id
  refitted : w'.Covered code k → Refitted k (w.members k ++ [h.node]) w w'

/-- A hook could not be added. Where the method is detoured or has no hooks, nothing has come of
it. -/
structure HookRefused (μ : Nat) (code : Set Nat) (k : ChainKey) (S : Store) (w w' : World) :
    Prop where
  served : Served μ code ∅ k S w w'
  plain : (w.patched? k).isSome ∨ (∀ c, w.chain? k = some c → c.nodes = []) →
    ∃ S', Futile μ k S S' w w'

theorem Futile.hookRefused (f : Futile μ k S S w w') (g : Kept μ S w) (ours : k.manager = μ) :
    HookRefused μ code k S w w' :=
  ⟨.of_unmoved g ours f.kept f.unmoved, fun _ => ⟨S, f⟩⟩

/-- The name of the method is looked up. -/
theorem Futile.told (g : Kept μ S w) (told : w.Told w') : Futile μ k S S w w' := by
  have chain : w'.chain? k = w.chain? k := told.quiet.toBeside.chain? k
  refine ⟨g.quiet told.quiet, .told told, ?_, members_congr chain, .quiet told.quiet⟩
  unfold World.listed
  rw [chain]

/-- A new chain has nothing to tell. -/
theorem Futile.opened {w₁ : World} (f : Futile μ k S S w w₁) (ours : k.manager = μ)
    (name : w₁.nameOf k.method = k.method) (found : w₁.manager? k.manager = some m) :
    Futile μ k S S w (w₁.opened k m) := by
  obtain ⟨members, rigged⟩ := f.kept.opened_rigged ours name found
  refine ⟨f.kept.opened ours name found, f.unmoved.trans (.opened found), Eq.trans ?_ f.listed,
    members.trans f.members, fun before => rigged (f.rigged before)⟩
  rw [listed_of_chain (chain?_opened found)]
  unfold World.listed
  cases w₁.chain? k <;> rfl

section Inserting

variable {w₁ w₂ : World}

/-- A hook stands on a trampoline of its own, and its chain has not heard of it. -/
structure Readied (μ : Nat) (k : ChainKey) (c : Chain) (node : ChainNode) (S : Store)
    (w w₁ : World) : Prop where
  kept : Kept μ { S with hooks := (k, node) :: S.hooks } w₁
  futile : Futile μ k S S w w₁
  chain : w₁.chain? k = some c
  hooks : ∀ n ∈ c.nodes, (k, n) ∈ S.hooks
  leads : ∀ T, node.target ∈ T → Leads μ T S w →
    Leads μ T { S with hooks := (k, node) :: S.hooks } w₁

theorem Readied.nodes (q : Readied μ k c node S w w₁) : c.nodes = w.members k :=
  (members_of_chain q.chain).symm.trans q.futile.members

/-- The chain took the hook, and its handle is handed out. -/
theorem Readied.added (q : Readied μ k c node S w w₁) (g : Kept μ S w) (ours : k.manager = μ)
    (unused : ∀ h ∈ w.hooks, h.node.id ≠ node.id) (held : w₂.held = w₁.held)
    (done : w₂.Covered code k → ∃ S', Kept μ S' w₂ ∧
      Guided μ (functions (node :: c.nodes)) { S with hooks := (k, node) :: S.hooks } S' w₁ w₂ ∧
      (k, node) ∈ S'.hooks ∧ Refitted k (c.nodes ++ [node]) w₁ w₂) (events : List Event) :
    HookAdded μ code k node.target S ⟨k, node, true⟩ w
      { w₂ with hooks := w₂.hooks ++ [⟨k, node, true⟩], events } := by
  obtain ⟨same, _⟩ := Prod.mk.inj (held.trans q.futile.unmoved.held)
  refine ⟨fun covered => ?_, congrArg (· ++ [_]) same, rfl, rfl, unused, fun covered => ?_⟩
  · obtain ⟨S', kept, guided, there, _⟩ := done covered
    have handled := kept.rehook (w₂.hooks ++ [⟨k, node, true⟩]) fun h mh => by
      rcases List.mem_append.mp mh with mh | mh
      · exact kept.handles h mh
      · obtain rfl := List.mem_singleton.mp mh
        exact there
    refine ⟨S', handled.quiet (quiet_tell _ _), fun T sub l => ?_⟩
    have l₁ := q.leads T (sub _ rfl) l
    have l₂ : Leads μ T S' w₂ := by
      refine l₁.guided guided (l₁.functions (k := k) fun n mn => ?_)
      rcases List.mem_cons.mp mn with rfl | mn
      · exact List.mem_cons_self
      · exact List.mem_cons_of_mem _ (q.hooks n mn)
    exact ⟨l₂.targets, l₂.hooks, l₂.fronts⟩
  · obtain ⟨_, _, _, _, refitted⟩ := done covered
    rw [q.nodes] at refitted
    exact (((q.futile.refitted g ours).trans refitted).rehook (w₂.hooks ++ [⟨k, node, true⟩])).quiet
      (quiet_tell _ _)

/-- The chain did not take the hook, and nobody has its trampoline. -/
theorem Readied.refused (q : Readied μ k c node S w w₁) (g : Kept μ S w) (ours : k.manager = μ)
    (refused : Refused μ code k { S with hooks := (k, node) :: S.hooks } c node w₁ w') :
    HookRefused μ code k S w w' := by
  have u := q.futile.unmoved
  refine ⟨fun covered => ?_, fun kind => ?_⟩
  · obtain ⟨S', kept, guided, gone⟩ := refused.done covered
    refine ⟨S', kept, fun T _ l => ?_⟩
    exact l.guided ((u.guided g ours).trans (guided.narrow gone)) (l.functions q.hooks)
  · have bare : (w₁.patched? k).isSome ∨ c.nodes = [] := by
      refine kind.imp (fun some => by rwa [u.patched k rfl]) fun none => ?_
      rw [q.nodes]
      rcases there : w.chain? k with _ | c'
      · unfold members
        rw [there]
        rfl
      · exact (members_of_chain there).trans (none c' there)
    obtain ⟨S', futile, gone⟩ := refused.plain bare
    exact ⟨S', futile.kept, u.trans (futile.unmoved.narrow gone),
      futile.listed.trans q.futile.listed, futile.members.trans q.futile.members,
      fun before => futile.rigged (q.futile.rigged before)⟩

end Inserting

theorem addHook_serves (g : Kept μ S w) (ours : k.manager = μ) {source : Method}
    (name : w.nameOf source = k.method) (canonical : w.nameOf k.method = k.method)
    (foreign : ∀ a ∈ code, w.machine.Foreign a) (inland : w.patched? k = none → w.Inland k.method)
    (target : Nat) (placement : Option Placement) :
    (addHook k.manager source target placement).Ends w
      (fun h => HookAdded μ code k target S h w) (HookRefused μ code k S w) := by
  apply Ends.bind
  apply (canonicalize_tells w source).mono _ fun _ h => h
  rintro method w₁ ⟨rfl, told⟩
  rw [name]
  have f₁ : Futile μ k S S w w₁ := .told g told
  split
  · exact Ends.throw (f₁.hookRefused g ours)
  · obtain ⟨m, found, below⟩ := f₁.kept.counted
    have found : w₁.manager? k.manager = some m := ours ▸ found
    apply Ends.bind
    apply (openChain_opens found (E := fun _ => False)).mono _ fun _ h => h.elim
    rintro id w₂ ⟨rfl, rfl⟩
    have f₂ := f₁.opened ours ((f₁.unmoved.names _).trans canonical) found
    have g₂ := f₂.kept
    have here := chain?_opened found
    generalize (w₁.chain? k).getD { method := k.method } = c at here
    have chained := g₂.chains k c ours here
    apply Ends.bind
    apply onMachine_ends
    apply ((Stub.build_ends g₂.posts.holds target).and
      (Stub.build_leads g₂.posts.holds g₂.packed target)).mono
    · rintro trampoline machine ⟨⟨gains, stands⟩, packed, leads⟩
      let node : ChainNode := ⟨m.nextHook, placement, target, trampoline⟩
      let w₃ : World := { w₁.opened k m with machine }
      have f₃ : Futile μ k S S w w₃ :=
        f₂.further ours (g₂.gains gains packed) (.gains g₂ gains) rfl
      have u₃ := f₃.unmoved
      have readied : Readied μ k c node S w w₃ := by
        refine ⟨g₂.takeOn node ours gains stands packed below fun m' found' => ?_, f₃, here,
          fun n mn => chained.nodes n (List.mem_append_left _ mn), fun T mt l => ?_⟩
        · obtain ⟨m'', found'', next, _⟩ := manager?_opened found
          obtain rfl := Option.some.inj ((ours ▸ found'').symm.trans found')
          exact next ▸ Nat.lt_succ_self _
        · have l₂ := l.guided (G := ∅) (f₂.unmoved.guided g ours) fun _ mt => by cases mt
          exact l₂.takeOn g₂ gains mt leads
      have unused : ∀ h ∈ w₃.hooks, h.node.id ≠ node.id := fun h mh =>
        Nat.ne_of_lt (below _ (g₂.handles h mh))
      apply Ends.bind
      apply (insertNode_serves readied.kept ours here List.mem_cons_self
        (fun n mn => below _ (chained.nodes n mn)) unused
        (fun a ma => (u₃.seeks.foreign (foreign a ma)).1) fun bare =>
        (inland (u₃.patched k rfl ▸ bare)).seeks u₃.seeks).mono
      · rintro ⟨⟩ w₄ ⟨held, done⟩
        apply Ends.bind
        apply Ends.change
        apply Ends.bind
        apply Ends.change
        apply Ends.pure
        refine readied.added g ours (fun h mh => unused h ?_) held done _
        rwa [show w₃.hooks = w.hooks from (Prod.mk.inj u₃.held).1]
      · exact fun w₄ refused => readied.refused g ours refused
    · rintro machine ⟨gains, packed⟩
      exact (f₂.further ours (g₂.gains gains packed) (.gains g₂ gains) rfl).hookRefused g ours

/-! ## Undoing and dropping -/

/-- What is left of the hooks of a method when this one is undone. -/
def remaining (h : Hook) (w : World) : List ChainNode :=
  if h.applied then (w.members h.chain).filter (·.id != h.node.id) else w.members h.chain

/-- The handles when this one's hook is undone. -/
def marked (h : Hook) (w : World) : List Hook :=
  if h.applied then
    w.hooks.map fun x =>
      if x.chain.manager = h.chain.manager ∧ x.node.id = h.node.id then { h with applied := false }
      else x
  else w.hooks

/-- A hook was undone; its handle is still there. -/
structure HookUndone (μ : Nat) (code : Set Nat) (S : Store) (h : Hook) (w w' : World) : Prop where
  inHand : w'.manager = some μ
  handle : ∃ x ∈ w'.hooks, x.chain = h.chain ∧ x.node = h.node
  hooks : w'.hooks = w.marked h
  stays : JumpStays h.chain w w'
  served : Served μ code ∅ h.chain S w w'
  refitted : Rigged h.chain w → w'.Covered code h.chain →
    Refitted h.chain (w.remaining h) w w'

/-- A line in the log makes no difference. -/
theorem Served.quiet {more : Set Nat} {w₁ : World} (h : Served μ code more k S w w₁)
    (q : w₁.Quiet w') : Served μ code more k S w w' := by
  intro covered
  rw [Covered, q.toBeside.patched? k] at covered
  obtain ⟨S', kept, leads⟩ := h covered
  exact ⟨S', kept.quiet q, fun T sub l =>
    (leads T sub l).guided (G := ∅) (.quiet kept q) fun _ mt => by cases mt⟩

theorem HookUndone.quiet {w₁ : World} (u : HookUndone μ code S h w w₁) (q : w₁.Quiet w') :
    HookUndone μ code S h w w' := by
  have same := q.toBeside.patched? h.chain
  refine ⟨q.manager.trans u.inHand, q.hooks.symm ▸ u.handle, q.hooks.trans u.hooks,
    u.stays.until same, u.served.quiet q, fun rigged covered => ?_⟩
  rw [Covered, same] at covered
  exact (u.refitted rigged covered).quiet q

theorem setHook_marks (applied : h.applied = true) :
    (setHook { h with applied := false }).Ends w
      (fun _ w' => w' = { w with hooks := w.marked h }) E := by
  unfold marked
  rw [if_pos applied]
  exact Ends.change rfl

theorem remaining_of_applied (applied : h.applied = true) :
    w.remaining h = (w.members h.chain).filter (·.id != h.node.id) := if_pos applied

theorem marked_of_applied (applied : h.applied = true) :
    w.marked h = w.hooks.map fun x =>
      if x.chain.manager = h.chain.manager ∧ x.node.id = h.node.id then { h with applied := false }
      else x := if_pos applied

/-- A hook that was undone before stays undone. -/
theorem HookUndone.of_unapplied (g : Kept μ S w) (mh : h ∈ w.hooks) (applied : h.applied = false) :
    HookUndone μ code S h w w := by
  have marked : w.hooks = w.marked h := by simp [World.marked, applied]
  have same : w.remaining h = w.members h.chain := by simp [remaining, applied]
  exact ⟨g.inHand, ⟨h, mh, rfl, rfl⟩, marked, Or.inl rfl, fun _ => ⟨S, g, fun _ _ l => l⟩,
    fun _ _ => same ▸ .of_unmoved g g (g.ours _ (g.handles h mh)) (.refl _ S w) rfl⟩

/-- The mark at a handle makes no difference to the ledger. -/
theorem Kept.mark (g : Kept μ S w) (mh : h ∈ w.hooks) (applied : h.applied = true) :
    Kept μ S { w with hooks := w.marked h } := by
  refine g.rehook _ fun x mx => ?_
  rw [marked_of_applied applied] at mx
  obtain ⟨y, my, rfl⟩ := List.mem_map.mp mx
  split
  · exact g.handles h mh
  · exact g.handles y my

section Undoing

variable {w₁ : World}

/-- The handle was marked. The manager stays in hand, and the handle with it. -/
theorem HookUndone.of_held (g : Kept μ S w) (mh : h ∈ w.hooks) (applied : h.applied = true)
    (held : w₁.held = (w.marked h, w.manager)) (stays : JumpStays h.chain w w₁)
    (served : Served μ code ∅ h.chain S w w₁)
    (refitted : Rigged h.chain w → w₁.Covered code h.chain →
      Refitted h.chain (w.remaining h) w w₁) : HookUndone μ code S h w w₁ := by
  have handle : { h with applied := false } ∈ w.marked h :=
    marked_of_applied applied ▸ List.mem_map.mpr ⟨h, mh, if_pos ⟨rfl, rfl⟩⟩
  obtain ⟨hooks, manager⟩ := Prod.mk.inj held
  exact ⟨manager.trans g.inHand, ⟨{ h with applied := false }, hooks.symm ▸ handle, rfl, rfl⟩,
    hooks, stays, served, refitted⟩

/-- There is no chain to take the hook out of. -/
theorem HookUndone.of_missing (g : Kept μ S w) (mh : h ∈ w.hooks) (applied : h.applied = true)
    (none : w.chain? h.chain = none) :
    HookUndone μ code S h w { w with hooks := w.marked h } := by
  have ours : h.chain.manager = μ := g.ours _ (g.handles h mh)
  have here : Refitted h.chain (w.members h.chain) w w := .of_unmoved g g ours (.refl _ S w) rfl
  have same : w.remaining h = w.members h.chain := by
    rw [remaining_of_applied applied]
    unfold members
    rw [none]
    rfl
  exact .of_held g mh applied rfl (Or.inl rfl)
    (fun _ => ⟨S, g.mark mh applied, fun _ _ l => ⟨l.targets, l.hooks, l.fronts⟩⟩)
    fun _ _ => same ▸ here.rehook _

/-- The hook was taken out of its chain. -/
theorem HookUndone.of_changed (g : Kept μ S w) (mh : h ∈ w.hooks) (applied : h.applied = true)
    (there : w.chain? h.chain = some c)
    (changed : Changed μ code (functions c.nodes) h.chain (c.nodes.filter (·.id != h.node.id)) S
      { w with hooks := w.marked h } w₁) : HookUndone μ code S h w w₁ := by
  have ours : h.chain.manager = μ := g.ours _ (g.handles h mh)
  have here : Refitted h.chain (w.members h.chain) w { w with hooks := w.marked h } :=
    (Refitted.of_unmoved g g ours (.refl _ S w) rfl).rehook _
  refine .of_held g mh applied changed.held changed.stays (fun covered => ?_) fun rigged covered => ?_
  · obtain ⟨S', kept, guided⟩ := changed.done covered
    refine ⟨S', kept, fun T _ l => ?_⟩
    have l₁ : Leads μ T S { w with hooks := w.marked h } := ⟨l.targets, l.hooks, l.fronts⟩
    exact l₁.guided guided (l₁.functions fun n mn =>
      (g.chains h.chain c ours there).nodes n (List.mem_append_left _ mn))
  · rw [remaining_of_applied applied, members_of_chain there]
    exact here.trans (changed.refitted (here.rigged rigged) covered)

end Undoing

theorem undoHook_serves (g : Kept μ S w) (mh : h ∈ w.hooks)
    (foreign : ∀ a ∈ code, w.machine.Foreign a)
    (inland : w.patched? h.chain = none → w.Inland h.chain.method) :
    (undoHook h).Ends w (fun _ => HookUndone μ code S h w) (HookUndone μ code S h w) := by
  unfold undoHook
  split <;> rename_i applied
  · exact Ends.throw (.of_unapplied g mh (by simpa using applied))
  · have applied : h.applied = true := by simpa using applied
    apply Ends.bind
    apply (setHook_marks applied).mono (F := fun _ => False) _ fun _ h => h.elim
    rintro ⟨⟩ _ rfl
    apply Ends.bind
    apply Ends.outcome
    rcases there : w.chain? h.chain with _ | c
    · apply (removeNode_missing (w := { w with hooks := w.marked h }) there h.node.id).mono
        (fun _ _ never => never.elim)
      rintro _ rfl e
      apply Ends.bind
      apply Ends.change
      apply Ends.throw
      exact (HookUndone.of_missing g mh applied there).quiet (quiet_tell _ _)
    · apply (removeNode_serves (w := { w with hooks := w.marked h }) (g.mark mh applied)
        (g.ours _ (g.handles h mh)) there foreign
        (fun bare => (inland bare).aside (.still rfl rfl rfl)) h.node.id).mono
      · intro _ w₁ changed
        apply Ends.bind
        apply Ends.change
        apply Ends.pure
        exact (HookUndone.of_changed g mh applied there changed).quiet (quiet_tell _ _)
      · intro w₁ changed e
        apply Ends.bind
        apply Ends.change
        apply Ends.throw
        exact (HookUndone.of_changed g mh applied there changed).quiet (quiet_tell _ _)

/-- The handle of a hook was dropped, and the hook may have been given up. -/
structure HookDropped (μ : Nat) (code : Set Nat) (S : Store) (h : Hook) (w w' : World) : Prop where
  hooks : w'.hooks = w.hooks.filter fun x =>
    x.chain.manager != h.chain.manager || x.node.id != h.node.id
  stays : JumpStays h.chain w w'
  served : Served μ code ∅ h.chain S w w'
  refitted : Rigged h.chain w → w'.Covered code h.chain →
    Refitted h.chain (w.remaining h) w w'

theorem filter_marked (h : Hook) (w : World) :
    (w.marked h).filter (fun x => x.chain.manager != h.chain.manager || x.node.id != h.node.id) =
      w.hooks.filter fun x => x.chain.manager != h.chain.manager || x.node.id != h.node.id := by
  unfold marked
  split
  · induction w.hooks with
    | nil => rfl
    | cons x rest ih =>
      by_cases it : x.chain.manager = h.chain.manager ∧ x.node.id = h.node.id
      · simp [it, ih]
      · rw [List.map_cons, if_neg it, List.filter_cons, List.filter_cons, ih]
  · rfl

/-- The handle of a hook that was undone is dropped, and the hook may be given up. -/
theorem HookUndone.dropped {w₁ : World} (u : HookUndone μ code S h w w₁)
    (ours : h.chain.manager = μ) :
    HookDropped μ code S h w (releaseNode h.chain h.node { w₁ with
      hooks := w₁.hooks.filter fun x =>
        x.chain.manager != h.chain.manager || x.node.id != h.node.id }) := by
  let hooks := w₁.hooks.filter fun x =>
    x.chain.manager != h.chain.manager || x.node.id != h.node.id
  have beside := releaseNode_beside h.chain h.node { w₁ with hooks }
  have same := beside.patched? h.chain
  have released (covered : World.Covered code h.chain (releaseNode h.chain h.node { w₁ with hooks })) :
      w₁.Covered code h.chain ∧ ∃ S₁ S', Kept μ S₁ { w₁ with hooks } ∧
        (∀ T, Leads μ T S w → Leads μ T S₁ { w₁ with hooks }) ∧
        Kept μ S' (releaseNode h.chain h.node { w₁ with hooks }) ∧
        Unmoved h.chain S₁ S' { w₁ with hooks } (releaseNode h.chain h.node { w₁ with hooks }) := by
    rw [Covered, same] at covered
    refine ⟨covered, ?_⟩
    obtain ⟨S₁, kept, leads⟩ := u.served covered
    obtain ⟨x, mx, key, node⟩ := u.handle
    have kept₁ : Kept μ S₁ { w₁ with hooks } :=
      kept.rehook hooks fun y my => kept.handles y (List.mem_of_mem_filter my)
    obtain ⟨S', kept', unmoved, _⟩ := kept₁.releaseNode (key ▸ node ▸ kept.handles x mx)
    refine ⟨S₁, S', kept₁, fun T l => ?_, kept', unmoved⟩
    have l₁ := leads T (fun _ mt => by cases mt) l
    exact ⟨l₁.targets, l₁.hooks, l₁.fronts⟩
  refine ⟨?_, u.stays.until same, fun covered => ?_, fun rigged covered => ?_⟩
  · rw [beside.hooks, ← filter_marked, ← u.hooks]
  · obtain ⟨_, S₁, S', kept₁, leads, kept', unmoved⟩ := released covered
    exact ⟨S', kept', fun T _ l =>
      (leads T l).guided (G := ∅) (unmoved.guided kept₁ ours) fun _ mt => by cases mt⟩
  · obtain ⟨covered, S₁, S', kept₁, _, kept', unmoved⟩ := released covered
    have refitted := (u.refitted rigged covered).rehook hooks
    exact refitted.trans (refitted.members ▸
      .of_unmoved kept₁ kept' ours unmoved (congrArg _ (beside.chain? h.chain)))

theorem dropHook_serves (g : Kept μ S w) (mh : h ∈ w.hooks)
    (foreign : ∀ a ∈ code, w.machine.Foreign a)
    (inland : w.patched? h.chain = none → w.Inland h.chain.method) :
    (dropHook h).Ends w (fun _ => HookDropped μ code S h w) (HookDropped μ code S h w) := by
  have ours : h.chain.manager = μ := g.ours _ (g.handles h mh)
  subst ours
  exact dropHook_rule (.of_unapplied g mh) (fun _ => undoHook_serves g mh foreign inland)
    (fun _ _ u q => u.quiet q) (fun _ u => u.inHand) fun _ u => u.dropped rfl

end Detouring.World
