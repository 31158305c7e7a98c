-- Adding hooks to a chain and taking them out. The books change first and the links are brought up
-- to date with them. A hook that cannot be linked is forgotten again.
import Detouring.Proofs.Hook.Relinking

namespace Detouring.World

open Op Machine

variable {k : ChainKey} {code : Set Nat} {kept : List ChainNode} {c : Chain} {w w' : World}
  {node : ChainNode} {id : Nat}

/-! ## Entering the books -/

theorem Steady.rewrite (o : Steady k code kept c w) {f : Chain → Chain}
    (same : ∀ c, (f c).method = c.method) (books : (f c).Books)
    (nodes : ∀ n ∈ (f c).nodes ++ (f c).retired, n ∈ kept) (root : (f c).root = c.root)
    (proxy : (f c).proxy = c.proxy) (order : (f c).order = c.order)
    (wanted : (f c).wantedOrder = c.wantedOrder) (linked : (f c).linkedNodes = c.linkedNodes) :
    Steady k code kept (f c) (w.withChain k f) := by
  obtain ⟨o', patch⟩ := o.toInOrder.rewrite same books nodes root proxy
  refine ⟨o', fun r hr => ?_⟩
  obtain ⟨p, entry, hp, callable, listed, many, leads⟩ := o.linked r (patch ▸ hr)
  exact ⟨p, entry, proxy.trans hp, callable, (order.trans listed).trans wanted.symm,
    linked.symm ▸ many, linked.symm ▸ leads⟩

/-- A hook that was entered in the books is in the chain. -/
structure Entered (k : ChainKey) (code : Set Nat) (kept : List ChainNode) (c : Chain)
    (node : ChainNode) (w w' : World) (c' : Chain) : Prop where
  order : InOrder k code kept c' w'
  nodes : c'.nodes = c.nodes ++ [node]
  retired : c'.retired = c.retired
  held : w'.held = w.held
  patched : w'.patched? k = w.patched? k

theorem enroll_ends (o : Steady k code kept c w) (mn : node ∈ kept)
    (new : ∀ n ∈ c.nodes ++ c.retired, n.id < node.id) :
    (enroll k node).Ends w (fun _ w' => ∃ c', Entered k code kept c node w w' c')
      (fun w' => Steady k code kept c w' ∧ w'.held = w.held ∧ w'.patched? k = w.patched? k) := by
  have b := o.booked.books
  have known (n : ChainNode) (mn' : n ∈ (c.nodes ++ [node]) ++ c.retired) : n ∈ kept := by
    rcases List.mem_append.mp mn' with mn' | mn'
    · rcases List.mem_append.mp mn' with mn' | mn'
      · exact o.booked.nodes n (List.mem_append_left _ mn')
      · obtain rfl := List.mem_singleton.mp mn'
        exact mn
    · exact o.booked.nodes n (List.mem_append_right _ mn')
  apply Ends.bind
  apply Ends.get
  simp only [o.booked.chain]
  rcases placed : node.placement with _ | p
  · obtain ⟨o', _⟩ := o.toInOrder.rewrite
      (f := fun c => { c with unplaced := node.id :: c.unplaced, nodes := c.nodes ++ [node] })
      (fun _ => rfl) (b.enrollLoose placed new) known rfl rfl
    apply updateChain_ends
    exact ⟨_, o', rfl, rfl, rfl, patched?_withChain (fun _ => rfl) fun _ => rfl⟩
  · apply Ends.bind
    apply (Ends.forM (I := w.Quiet) (.refl w) fun peer _ s quiet => ?_).mono (F := w.Quiet)
    · rintro ⟨⟩ w₁ quiet
      have o₁ := o.quiet quiet
      have same := quiet.patched? k
      rcases b.enrollPlaced placed new with ⟨e, refused⟩ | ⟨graph, entered, books⟩
      · rw [refused]
        apply Ends.bind
        apply updateChain_ends
        apply Ends.bind
        apply Ends.throw
        have t := Turns.withChain (f := ({ · with graph := c.graph })) o₁.booked.chain fun _ => rfl
        have o₂ := o₁.rewrite (f := ({ · with graph := c.graph })) (fun _ => rfl) b
          o₁.booked.nodes rfl rfl rfl rfl rfl
        exact ⟨o₂, quiet.held, (t.patched? o₁.booked.chain rfl).trans same⟩
      · rw [entered]
        have t := Turns.withChain (f := ({ · with graph })) o₁.booked.chain fun _ => rfl
        have t₂ := t.trans (Turns.withChain
          (f := fun c => { c with nodes := c.nodes ++ [node] }) t.chain fun _ => rfl)
        apply Ends.bind
        apply updateChain_ends
        apply Ends.bind
        apply Ends.pure
        apply updateChain_ends
        exact ⟨_, o₁.turn t₂ books known rfl rfl o₁.stands, rfl, rfl, quiet.held,
          (t₂.patched? o₁.booked.chain rfl).trans same⟩
    · exact fun w₁ quiet => ⟨o.quiet quiet, quiet.held, quiet.patched? k⟩
    · exact report_ends fun _ more => quiet.trans more

/-! ## Adding a hook -/

/-- The chain is linked as its books say, or its method is bare, and these hooks are kept. -/
structure Settled (k : ChainKey) (code : Set Nat) (needed : List ChainNode) (w w' : World) :
    Prop where
  held : w'.held = w.held
  stays : JumpStays k w w'
  done : w'.Covered code k → ∃ c' kept', Steady k code kept' c' w' ∧ ∀ n ∈ needed, n ∈ kept'

namespace Settled

theorem of_relinked {needed : List ChainNode} (r : Relinked k code kept c w w')
    (there : ∀ n ∈ needed, n ∈ kept ∧ n ∉ c.retired) : Settled k code needed w w' := by
  refine ⟨r.held, r.stays, fun covered => ?_⟩
  obtain ⟨c', kept', o, _, left⟩ := r.done covered
  exact ⟨c', kept', o, fun n mn => left n (there n mn).1 (there n mn).2⟩

theorem quiet {needed : List ChainNode} {w₁ : World} (s : Settled k code needed w w₁)
    (q : w₁.Quiet w') : Settled k code needed w w' := by
  have same := q.patched? k
  refine ⟨q.held.trans s.held, s.stays.until same, fun covered => ?_⟩
  rw [Covered, same] at covered
  obtain ⟨c', kept', o, there⟩ := s.done covered
  exact ⟨c', kept', o.quiet q, there⟩

/-- A hook that was kept may be given up. -/
theorem release {w₁ : World} (s : Settled k code [node] w w₁) :
    Settled k code [] w (releaseNode k node w₁) := by
  have beside := releaseNode_beside k node w₁
  have same := beside.patched? k
  refine ⟨beside.held.trans s.held, s.stays.until same, fun covered => ?_⟩
  rw [Covered, same] at covered
  obtain ⟨c', kept', o, there⟩ := s.done covered
  obtain ⟨kept₂, o₂, _⟩ := o.releaseNode (there node (List.mem_singleton_self node))
  exact ⟨c', kept₂, o₂, fun n mn => (by cases mn)⟩

end Settled

/-- The books without a hook. -/
theorem InOrder.forget (o : InOrder k code kept c w) (id : Nat) :
    InOrder k code kept (c.forget id) (w.withChain k (·.forget id)) ∧
      (w.withChain k (·.forget id)).patched? k = w.patched? k := by
  have t := Turns.withChain (f := (·.forget id)) o.booked.chain fun _ => rfl
  refine ⟨(o.rewrite (f := (·.forget id)) (fun _ => rfl) (o.booked.books.forget id) ?_ rfl rfl).1,
    t.patched? o.booked.chain rfl⟩
  intro n mn
  refine o.booked.nodes n (List.mem_append.mpr ((List.mem_append.mp mn).imp_left fun mn => ?_))
  exact List.mem_of_mem_filter mn

theorem insertNode_ends (o : Steady k code kept c w) (mn : node ∈ kept)
    (new : ∀ n ∈ c.nodes ++ c.retired, n.id < node.id) :
    (insertNode k node).Ends w (fun _ => Settled k code [node] w) (Settled k code [] w) := by
  have alone {P : ChainNode → Prop} (h : P node) : ∀ n ∈ [node], P n := fun n mn => by
    obtain rfl := List.mem_singleton.mp mn
    exact h
  have fresh : node ∉ c.retired := fun there =>
    Nat.lt_irrefl _ (new node (List.mem_append_right _ there))
  apply Ends.cleaning
  apply Ends.bind
  apply (enroll_ends o mn new).mono
  · rintro ⟨⟩ w₁ ⟨c₁, o₁, _, retired, held, same⟩
    have there : node ∈ kept ∧ node ∉ c₁.retired := ⟨mn, retired ▸ fresh⟩
    apply Ends.bind
    apply Ends.outcome
    apply (relink_ends o₁).mono
    · intro _ w₂ relinked
      apply Ends.pure
      have s := Settled.of_relinked relinked (alone there)
      exact ⟨s.held.trans held, s.stays.since same, s.done⟩
    · rintro w₂ ⟨relinked, bare, before⟩ e
      have bare₀ : w.patched? k = none := same ▸ before
      obtain ⟨c₂, kept₂, o₂, books, left⟩ := relinked.done (.of_bare bare)
      obtain ⟨o₃, _⟩ := o₂.toInOrder.forget node.id
      have restored {w₄ : World} (relinked' : Relinked k code kept₂ (c₂.forget node.id)
          (w₂.withChain k (·.forget node.id)) w₄) : Settled k code [node] w w₄ := by
        have kept' : node ∈ kept₂ ∧ node ∉ (c₂.forget node.id).retired := by
          refine ⟨left node there.1 there.2, ?_⟩
          show node ∉ c₂.retired
          rw [books.retired]
          exact List.not_mem_nil
        have s := Settled.of_relinked relinked' (alone kept')
        exact ⟨s.held.trans (relinked.held.trans held), Or.inr (Or.inl bare₀), s.done⟩
      apply Ends.bind
      apply updateChain_ends
      apply Ends.bind
      apply Ends.outcome
      apply (relink_ends o₃).mono
      · intro _ w₄ relinked'
        apply Ends.throw
        exact (restored relinked').release
      · rintro w₄ ⟨relinked', _⟩ e'
        apply Ends.bind
        apply report_ends
        intro w₅ quiet
        apply Ends.throw
        exact ((restored relinked').quiet quiet).release
  · rintro w₁ ⟨o₁, held, same⟩
    exact Settled.release ⟨held, Or.inl same, fun _ => ⟨c, kept, o₁, alone mn⟩⟩

/-! ## Taking a hook out -/

/-- The hook that was taken out is retired: calls may still run in it. -/
theorem Relinked.retire (o : Steady k code kept c w) (mn : node ∈ c.nodes) {w₁ : World}
    (relinked : Relinked k code kept (c.forget node.id) (w.withChain k (·.forget node.id)) w₁) :
    Settled k code [] w (w₁.withChain k fun c => { c with retired := c.retired ++ [node] }) := by
  have before := (o.toInOrder.forget node.id).2
  have later := patched?_withChain (w := w₁) (k := k)
    (f := fun c => { c with retired := c.retired ++ [node] }) (fun _ => rfl) fun _ => rfl
  refine ⟨relinked.held, (relinked.stays.since before).until later, fun covered => ?_⟩
  rw [Covered, later] at covered
  obtain ⟨c₂, kept₂, o₂, books, left⟩ := relinked.done covered
  have empty : c₂.retired = [] := books.retired
  have there : node ∈ kept₂ := by
    refine left node (o.booked.nodes node (List.mem_append_left _ mn)) fun there => ?_
    exact o.booked.books.apart node there (List.mem_map_of_mem mn)
  have gone : node.id ∉ c₂.nodes.map ChainNode.id := books.nodes ▸ c.not_mem_forget node.id
  have known : ∀ n ∈ c₂.nodes ++ (c₂.retired ++ [node]), n ∈ kept₂ := by
    intro n mn
    rw [empty, List.nil_append] at mn
    rcases List.mem_append.mp mn with mn | mn
    · exact o₂.booked.nodes n (List.mem_append_left _ mn)
    · obtain rfl := List.mem_singleton.mp mn
      exact there
  exact ⟨_, kept₂, o₂.rewrite (fun _ => rfl) (o₂.booked.books.retire empty gone) known rfl rfl rfl rfl
    rfl, fun n mn => (by cases mn)⟩

theorem removeNode_ends (o : Steady k code kept c w) (id : Nat) :
    (removeNode k id).Ends w (fun _ => Settled k code [] w) (Settled k code [] w) := by
  apply Ends.bind
  apply Ends.get
  simp only [o.booked.chain, Option.bind_some]
  split <;> rename_i found
  · apply Ends.throw
    exact ⟨rfl, Or.inl rfl, fun _ => ⟨c, kept, o, fun n mn => (by cases mn)⟩⟩
  · rename_i node
    obtain ⟨mn, rfl⟩ := o.booked.books.node?_eq_some.mp found
    obtain ⟨o₁, _⟩ := o.toInOrder.forget node.id
    apply Ends.bind
    apply updateChain_ends
    apply Ends.bind
    apply Ends.outcome
    apply (relink_ends o₁).mono
    · intro _ w₂ relinked
      apply Ends.bind
      apply updateChain_ends
      apply Ends.pure
      exact relinked.retire o mn
    · rintro w₂ ⟨relinked, _⟩ e
      apply Ends.bind
      apply updateChain_ends
      apply Ends.throw
      exact relinked.retire o mn

end Detouring.World
