-- What a change of one chain leaves alone: the chains, the stubs and the jumps of all other methods,
-- and the code of others but for what lies under the jump at its own method. A chain whose hooks are
-- linked in front of its method stays so as long as nothing is done to it.
import Detouring.Proofs.Detour.Layers
import Detouring.Proofs.Hook.Guidance

namespace Detouring

open Machine

/-- A chain without the hooks that are not linked any more. -/
def Chain.active (c : Chain) : Chain := { c with retired := [] }

theorem Chain.exists_retired {c c' : Chain} (same : c.active = c'.active) :
    ∃ l, c' = { c with retired := l } := by
  have whole := congrArg (fun x : Chain => { x with retired := c'.retired }) same
  exact ⟨c'.retired, whole.symm⟩

namespace World

variable {μ : Nat} {S S' : Store} {k k' : ChainKey} {c : Chain} {d d' : MethodDetour}
  {w w' w'' : World} {r : Redirection} {node : ChainNode} {x : Nat}

/-! ## The hooks of a method -/

/-- The hooks of a method, linked or not. -/
def members (w : World) (k : ChainKey) : List ChainNode := ((w.chain? k).map Chain.nodes).getD []

theorem members_of_chain (here : w.chain? k = some c) : w.members k = c.nodes := by
  unfold members
  rw [here]
  rfl

theorem members_congr (same : w'.chain? k = w.chain? k) : w'.members k = w.members k := by
  unfold members
  rw [same]

theorem members_of_active
    (same : (w'.chain? k).map Chain.active = (w.chain? k).map Chain.active) :
    w'.members k = w.members k := by
  have nodes := congrArg (Option.map Chain.nodes) same
  rw [Option.map_map, Option.map_map] at nodes
  exact congrArg (·.getD []) nodes

/-! ## Code beneath a jump -/

/-- What there is when the jump at the method of a chain is taken off. -/
def beneath (w : World) (k : ChainKey) (x : Nat) : UInt8 :=
  match w.patched? k with
  | some r => r.patch.beneath w.machine.memory.bytes x
  | none => w.machine.memory.bytes x

theorem beneath_of_patched (patched : w.patched? k = some r) :
    w.beneath k x = r.patch.beneath w.machine.memory.bytes x := by
  unfold beneath
  rw [patched]

theorem beneath_of_bare (bare : w.patched? k = none) :
    w.beneath k x = w.machine.memory.bytes x := by
  unfold beneath
  rw [bare]

theorem beneath_congr (patched : w'.patched? k = w.patched? k)
    (same : w'.machine.memory.bytes x = w.machine.memory.bytes x) :
    w'.beneath k x = w.beneath k x := by
  rcases there : w.patched? k with _ | r
  · rw [beneath_of_bare there, beneath_of_bare (patched.trans there), same]
  · rw [beneath_of_patched there, beneath_of_patched (patched.trans there)]
    exact Redirection.beneath_congr same

/-! ## Leaving others alone -/

/-- Of what the manager has, only things of the chain `k` have changed, and of the code of others only
what its jump covers. -/
structure Confined (k : ChainKey) (w w' : World) : Prop where
  chains : ∀ k', k' ≠ k → w'.chain? k' = w.chain? k'
  patched : ∀ k', k'.manager = k.manager → k' ≠ k → w'.patched? k' = w.patched? k'
  trampolines : ∀ k', k'.manager = k.manager → k' ≠ k → ∀ n ∈ w.members k',
    n.trampoline.target w'.machine = n.trampoline.target w.machine
  fronts : ∀ k' p, k'.manager = k.manager → k' ≠ k → w.front? k' = some p →
    p.target w'.machine = p.target w.machine
  blocks : ∀ k' r, k'.manager = k.manager → k' ≠ k → w.patched? k' = some r → ∀ b ∈ r.blocks, ∀ x,
    b.Has x → w'.machine.memory.bytes x = w.machine.memory.bytes x
  foreign : ∀ x, w.machine.Foreign x → w'.machine.Foreign x
  code : ∀ x, w.machine.Foreign x → w'.beneath k x = w.beneath k x
  guards : ∀ x, w.machine.Foreign x →
    w'.machine.memory.protectionAt? x = w.machine.memory.protectionAt? x

theorem Confined.trans (h : Confined k w w') (h' : Confined k w' w'') : Confined k w w'' where
  chains k' other := (h'.chains k' other).trans (h.chains k' other)
  patched k' ours other := (h'.patched k' ours other).trans (h.patched k' ours other)
  trampolines k' ours other n mn := by
    refine (h'.trampolines k' ours other n ?_).trans (h.trampolines k' ours other n mn)
    rwa [members_congr (h.chains k' other)]
  fronts k' p ours other front := by
    refine (h'.fronts k' p ours other ?_).trans (h.fronts k' p ours other front)
    rwa [front?, h.chains k' other]
  blocks k' r ours other there b mb x has :=
    (h'.blocks k' r ours other ((h.patched k' ours other).trans there) b mb x has).trans
      (h.blocks k' r ours other there b mb x has)
  foreign x f := h'.foreign x (h.foreign x f)
  code x f := (h'.code x (h.foreign x f)).trans (h.code x f)
  guards x f := (h'.guards x (h.foreign x f)).trans (h.guards x f)

theorem Kept.mem_of_member (g : Kept μ S w) (ours : k.manager = μ) (mn : node ∈ w.members k) :
    (k, node) ∈ S.hooks := by
  unfold members at mn
  rcases here : w.chain? k with _ | c <;> rw [here] at mn
  · cases mn
  · exact (g.chains k c ours here).nodes node (List.mem_append_left _ mn)

/-- What a redirection has is counted. -/
theorem mem_holdings_of_patched {b : Block} (patched : w.patched? k = some r) (mb : b ∈ r.blocks) :
    b ∈ w.holdings := by
  obtain ⟨c, _, patch⟩ := Option.bind_eq_some_iff.mp patched
  obtain ⟨_, d, _, found, redirection⟩ := root_of_patchOf patch
  refine List.mem_flatMap.mpr ⟨d, List.mem_of_find?_eq_some found, ?_⟩
  rw [MethodDetour.blocks_of_patched redirection]
  exact List.mem_append_left _ mb

theorem Kept.laid (g : Kept μ S w) (patched : w.patched? k = some r) :
    r.Laid w.machine ∧ r.alternate.isSome := by
  obtain ⟨c, _, patch⟩ := Option.bind_eq_some_iff.mp patched
  obtain ⟨_, d, _, found, redirection⟩ := root_of_patchOf patch
  exact (g.found found).laid r redirection

/-- Nothing was done to the machine. -/
theorem Confined.quiet (q : w.Quiet w') : Confined k w w' where
  chains k' _ := q.toBeside.chain? k'
  patched k' _ _ := q.toBeside.patched? k'
  trampolines _ _ _ _ _ :=
    congrArg (fun a : Arena PageSupply => a.source.memory.word _) q.arena
  fronts _ _ _ _ _ := congrArg (fun a : Arena PageSupply => a.source.memory.word _) q.arena
  blocks _ _ _ _ _ _ _ x _ := congrArg (fun a : Arena PageSupply => a.source.memory.bytes x) q.arena
  foreign _ f := (q.code f).1
  code _ f := beneath_congr (q.toBeside.patched? k) (q.code f).2
  guards _ f := q.guards f

/-- What stays as it is leaves the others alone. -/
theorem Unmoved.confined (u : Unmoved k S S' w w') (g : Kept μ S w) (g' : Kept μ S' w')
    (ours : k.manager = μ) : Confined k w w' where
  chains := u.chains
  patched k' ours' _ := u.patched k' ours'
  trampolines k' ours' other n mn :=
    u.trampolines (k', n) (g'.mem_of_member (ours'.trans ours) (by
      rwa [members_congr (u.chains k' other)]))
  fronts k' p ours' _ front := u.fronts (k', p) (g.mem_of_front (ours'.trans ours) front)
  blocks k' r _ _ there b mb := (u.holdings b (mem_holdings_of_patched there mb)).2
  foreign _ f := (u.seeks.foreign f).1
  code _ f := beneath_congr (u.patched k rfl) (u.seeks.foreign f).2
  guards _ f := u.seeks.guards f

/-! ## Standing in front of a method -/

/-- While the method is detoured, its jump stands and leads to the proxy. -/
def Armed (k : ChainKey) (w : World) : Prop :=
  ∀ r, w.patched? k = some r →
    r.Stands w.machine ∧ ∃ proxy, w.front? k = some proxy ∧ r.target = proxy.entry

theorem Armed.of_bare (bare : w.patched? k = none) : Armed k w := fun r there => by
  rw [bare] at there
  cases there

/-- Nothing that the jump needs has changed. -/
theorem Armed.congr (a : Armed k w) (patched : w'.patched? k = w.patched? k)
    (front : ∀ p, w.front? k = some p → w'.front? k = some p)
    (code : ∀ r, w.patched? k = some r → ∀ i < r.patch.jump.size,
      w'.machine.Foreign (r.source + i) ∧
        w'.machine.memory.bytes (r.source + i) = w.machine.memory.bytes (r.source + i))
    (blocks : ∀ r, w.patched? k = some r → ∀ b ∈ r.blocks, ∀ x, b.Has x →
      w'.machine.memory.bytes x = w.machine.memory.bytes x) : Armed k w' := by
  intro r there
  rw [patched] at there
  obtain ⟨stands, proxy, hp, target⟩ := a r there
  exact ⟨stands.congr (code r there) (blocks r there), proxy, front proxy hp, target⟩

theorem Unmoved.armed (u : Unmoved k S S' w w') (g : Kept μ S w) (a : Armed k w) : Armed k w' :=
  a.congr (u.patched k rfl) (u.front k)
    (fun _ there i hi => u.seeks.foreign ((g.laid there).1.foreign i hi))
    fun _ there b mb => (u.holdings b (mem_holdings_of_patched there mb)).2

/-- A method with hooks is detoured, and they are linked in front of it as the chain wants them. A
method without hooks is not detoured. -/
structure Rigged (k : ChainKey) (w : World) : Prop where
  armed : Armed k w
  detoured : w.members k = [] ↔ w.patched? k = none
  linked : ∀ c, w.chain? k = some c → LinkedUp w c

theorem Rigged.of_bare (bare : w.patched? k = none) (none : w.members k = []) : Rigged k w :=
  ⟨.of_bare bare, iff_of_true none bare, fun _ here => .of_bare ((patched?_eq here).symm.trans bare)⟩

/-- Nothing has happened to what is linked. -/
theorem Rigged.congr (h : Rigged k w)
    (chain : (w'.chain? k).map Chain.active = (w.chain? k).map Chain.active)
    (patched : w'.patched? k = w.patched? k)
    (trampolines : ∀ n ∈ w.members k,
      n.trampoline.target w'.machine = n.trampoline.target w.machine)
    (fronts : ∀ p, w.front? k = some p → p.target w'.machine = p.target w.machine)
    (armed : Armed k w') : Rigged k w' := by
  refine ⟨armed, ?_, fun c' here' r patch' => ?_⟩
  · rw [members_of_active chain, patched]
    exact h.detoured
  · rw [here'] at chain
    obtain ⟨c, here, same⟩ := Option.map_eq_some_iff.mp chain.symm
    have patch : w.patchOf c = some r := by
      rw [← patched?_eq here, ← patched, patched?_eq here', patch']
    obtain ⟨l, rfl⟩ := Chain.exists_retired same
    obtain ⟨proxy, entry, hp, callable, order, many, linked⟩ := h.linked c here r patch
    refine ⟨proxy, entry, hp, callable, order, many, linked.congr ?_ fun n mn => ?_⟩
    · refine fronts proxy ?_
      rw [front?, here]
      exact hp
    · refine trampolines n ?_
      rw [members_of_chain here]
      exact Chain.Books.mem_nodesOf mn

theorem Unmoved.rigged (u : Unmoved k S S' w w') (g : Kept μ S w) (g' : Kept μ S' w')
    (ours : k.manager = μ)
    (same : (w'.chain? k).map Chain.active = (w.chain? k).map Chain.active) (h : Rigged k w) :
    Rigged k w' :=
  h.congr same (u.patched k rfl)
    (fun n mn => u.trampolines (k, n) (g'.mem_of_member ours (by rwa [members_of_active same])))
    (fun p front => u.fronts (k, p) (g.mem_of_front ours front)) (u.armed g h.armed)

theorem Rigged.quiet (q : w.Quiet w') (h : Rigged k w) : Rigged k w' := by
  have target (s : Stub) : s.target w'.machine = s.target w.machine :=
    congrArg (fun a : Arena PageSupply => a.source.memory.word s.cell) q.arena
  refine h.congr (congrArg _ (q.toBeside.chain? k)) (q.toBeside.patched? k) (fun _ _ => target _)
    (fun _ _ => target _) (h.armed.congr (q.toBeside.patched? k)
      (fun p front => (q.toBeside.front? k).trans front)
      (fun r there i hi => q.code ((h.armed r there).1.foreign i hi)) fun _ _ _ _ x _ =>
      congrArg (fun a : Arena PageSupply => a.source.memory.bytes x) q.arena)

/-- Another chain was changed, and the jumps share no byte. -/
theorem Confined.rigged (h : Confined k w w') (ours : k'.manager = k.manager) (other : k' ≠ k)
    (code : ∀ r, w.patched? k' = some r → ∀ i < r.patch.jump.size,
      w'.machine.Foreign (r.source + i) ∧
        w'.machine.memory.bytes (r.source + i) = w.machine.memory.bytes (r.source + i))
    (rigged : Rigged k' w) : Rigged k' w' := by
  refine rigged.congr (congrArg _ (h.chains k' other)) (h.patched k' ours other) (h.trampolines k' ours other)
    (fun p => h.fronts k' p ours other) (rigged.armed.congr (h.patched k' ours other)
      (fun p there => ?_) code fun r there => h.blocks k' r ours other there)
  rwa [front?, h.chains k' other]

end World

end Detouring
