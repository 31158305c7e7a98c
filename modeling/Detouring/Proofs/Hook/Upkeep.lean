-- What a chain of hooks relies on in the world, and which changes leave it alone: the books of the
-- chain, the detour of its method, the handles of its hooks and what it has in the machine.
import Detouring.Proofs.Detour.Records
import Detouring.Proofs.Hook.Books
import Detouring.Proofs.Hook.Rig

namespace Detouring

namespace World

open Op

variable {k : ChainKey} {code : Set Nat} {kept kept' : List ChainNode} {c c' : Chain}
  {w w' w'' : World} {d d' : MethodDetour} {id : Nat}

/-! ## Looking things up -/

/-- The world with another chain for a method. -/
def withChain (k : ChainKey) (f : Chain → Chain) (w : World) : World :=
  w.updateManager k.manager fun m =>
    { m with chains := m.chains.map fun c => if c.method = k.method then f c else c }

theorem manager?_updateManager (w : World) (id : Nat) {f : Manager → Manager}
    (same : ∀ m, (f m).id = m.id) :
    (w.updateManager id f).manager? id = (w.manager? id).map f := by
  unfold manager? updateManager
  induction w.managers with
  | nil => rfl
  | cons m rest ih =>
    by_cases it : m.id = id
    · simp [it, same]
    · simp [it, ih]

theorem method_of_chain (h : w.chain? k = some c) : c.method = k.method := by
  obtain ⟨m, _, found⟩ := Option.bind_eq_some_iff.mp h
  simpa using List.find?_some found

theorem manager?_withChain (w : World) (k : ChainKey) (f : Chain → Chain) :
    (w.withChain k f).manager? k.manager = (w.manager? k.manager).map fun m =>
      { m with chains := m.chains.map fun c => if c.method = k.method then f c else c } :=
  manager?_updateManager w k.manager fun _ => rfl

theorem chain?_withChain (w : World) (k : ChainKey) {f : Chain → Chain}
    (same : ∀ c, (f c).method = c.method) :
    (w.withChain k f).chain? k = (w.chain? k).map f := by
  have found (l : List Chain) :
      (l.map fun c => if c.method = k.method then f c else c).find? (·.method = k.method) =
        (l.find? (·.method = k.method)).map f := by
    induction l with
    | nil => rfl
    | cons c rest ih =>
      by_cases it : c.method = k.method
      · simp [it, same]
      · simp [it, ih]
  unfold chain?
  rw [manager?_withChain, Option.bind_map, Option.map_bind]
  exact Option.bind_congr fun m _ => found m.chains

/-! ## The invariant -/

/-- The redirection of the method of a chain. -/
def patchOf (w : World) (c : Chain) : Option Redirection :=
  (c.root.bind w.detour?).bind MethodDetour.redirection

/-- The redirection of a method that is hooked. -/
def patched? (w : World) (k : ChainKey) : Option Redirection := (w.chain? k).bind w.patchOf

/-- What a manager in hand may count on. -/
structure Setting (k : ChainKey) (w : World) : Prop where
  keeps : w.platform.keepsReplacedCode = true
  inHand : w.manager = some k.manager
  name : w.nameOf k.method = k.method
  numbered : ∀ d ∈ w.detours, d.id < w.nextDetour

/-- The only detour that has to do with the method leads from it to the proxy of its chain. -/
structure Rooted (k : ChainKey) (w : World) (c : Chain) : Prop where
  alone : ∀ d ∈ w.detours, (d.source = k.method ∨ d.target = k.method) → c.root = some d.id
  root : ∀ id, c.root = some id → ∃ d proxy, w.detour? id = some d ∧ c.proxy = some proxy ∧
    d.source = k.method ∧ d.target = .function proxy.entry ∧ d.factory = k.manager ∧
    d.watcher = .chain k

/-- The books of a chain and the handles of its hooks. Every hook that somebody may still use is
kept. -/
structure Booked (k : ChainKey) (kept : List ChainNode) (c : Chain) (w : World) : Prop where
  setting : Setting k w
  chain : w.chain? k = some c
  books : c.Books
  nodes : ∀ n ∈ c.nodes ++ c.retired, n ∈ kept
  handles : ∀ h ∈ w.hooks, h.chain = k → h.node ∈ kept
  ids : (kept.map ChainNode.id).Nodup
  below : ∀ m, w.manager? k.manager = some m → ∀ n ∈ kept, n.id < m.nextHook
  words : ∀ n ∈ kept, n.target < wordCount
  rooted : Rooted k w c

/-- What the chain has in the machine. -/
def rig (w : World) (c : Chain) (kept : List ChainNode) : Rig :=
  { kept, proxy := c.proxy, patch := w.patchOf c }

theorem rig_of_bare (bare : w.patchOf c = none) :
    w.rig c kept = { kept, proxy := c.proxy, patch := none } := by
  unfold rig
  rw [bare]

/-- The chain is in order. The addresses in `code` hold code of others. -/
structure InOrder (k : ChainKey) (code : Set Nat) (kept : List ChainNode) (c : Chain) (w : World) :
    Prop where
  booked : Booked k kept c w
  stands : (w.rig c kept).Stands code w.machine
  leads : ∀ r, w.patchOf c = some r → r.alternate.isSome ∧
    ∃ proxy, c.proxy = some proxy ∧ r.target = proxy.entry
  idle : ∀ id d, c.root = some id → w.detour? id = some d → d.busy = false

/-- While the method is detoured, the hooks are linked as the chain wants them. -/
def LinkedUp (w : World) (c : Chain) : Prop :=
  ∀ r, w.patchOf c = some r → ∃ proxy entry, c.proxy = some proxy ∧ r.entry? = some entry ∧
    c.order = c.wantedOrder ∧ c.linkedNodes ≠ [] ∧
    Chain.Linked w.machine.memory proxy c.linkedNodes entry

/-- The chain is in order and linked. -/
structure Steady (k : ChainKey) (code : Set Nat) (kept : List ChainNode) (c : Chain) (w : World) :
    Prop extends InOrder k code kept c w where
  linked : LinkedUp w c

theorem LinkedUp.of_bare (bare : w.patchOf c = none) : LinkedUp w c := fun r hr => by
  rw [bare] at hr
  cases hr

/-! ## Changes of the chain -/

/-- Only the chain has changed: it is `c'` now. -/
structure Turns (k : ChainKey) (w w' : World) (c' : Chain) : Prop where
  platform : w'.platform = w.platform
  detours : w'.detours = w.detours
  nextDetour : w'.nextDetour = w.nextDetour
  manager : w'.manager = w.manager
  hooks : w'.hooks = w.hooks
  names : ∀ m, w'.nameOf m = w.nameOf m
  chain : w'.chain? k = some c'
  counter : (w'.manager? k.manager).map Manager.nextHook =
    (w.manager? k.manager).map Manager.nextHook

namespace Turns

theorem of_beside (b : w.Beside w') (here : w.chain? k = some c) : Turns k w w' c := by
  refine ⟨b.platform, b.detours, b.nextDetour, b.manager, b.hooks, b.names, ?_, ?_⟩
  · unfold chain? manager? at *
    rw [b.managers]
    exact here
  · unfold manager?
    rw [b.managers]

theorem withChain (here : w.chain? k = some c) {f : Chain → Chain}
    (same : ∀ c, (f c).method = c.method) : Turns k w (w.withChain k f) (f c) := by
  refine ⟨rfl, rfl, rfl, rfl, rfl, fun _ => rfl, ?_, ?_⟩
  · rw [chain?_withChain w k same, here]
    rfl
  · rw [manager?_withChain, Option.map_map]
    rfl

theorem trans {c'' : Chain} (t : Turns k w w' c') (t' : Turns k w' w'' c'') :
    Turns k w w'' c'' :=
  ⟨t'.platform.trans t.platform, t'.detours.trans t.detours, t'.nextDetour.trans t.nextDetour,
    t'.manager.trans t.manager, t'.hooks.trans t.hooks, fun m => (t'.names m).trans (t.names m),
    t'.chain, t'.counter.trans t.counter⟩

theorem detour? (t : Turns k w w' c') (id : Nat) : w'.detour? id = w.detour? id := by
  unfold World.detour?
  rw [t.detours]

theorem patchOf (t : Turns k w w' c') (root : c'.root = c.root) : w'.patchOf c' = w.patchOf c := by
  unfold World.patchOf
  rw [root]
  cases c.root with
  | none => rfl
  | some id => exact congrArg (·.bind MethodDetour.redirection) (t.detour? id)

theorem setting (t : Turns k w w' c') (s : Setting k w) : Setting k w' := by
  refine ⟨t.platform ▸ s.keeps, t.manager ▸ s.inHand, (t.names _).trans s.name, ?_⟩
  rw [t.detours, t.nextDetour]
  exact s.numbered

theorem below (t : Turns k w w' c')
    (below : ∀ m, w.manager? k.manager = some m → ∀ n ∈ kept, n.id < m.nextHook) :
    ∀ m, w'.manager? k.manager = some m → ∀ n ∈ kept, n.id < m.nextHook := by
  intro m found
  have counter := t.counter
  rw [found] at counter
  obtain ⟨m', found', same⟩ := Option.map_eq_some_iff.mp counter.symm
  intro n mn
  rw [← same]
  exact below m' found' n mn

theorem rooted (t : Turns k w w' c') (r : Rooted k w c) (root : c'.root = c.root)
    (proxy : c'.proxy = c.proxy) : Rooted k w' c' := by
  refine ⟨fun d md => ?_, fun id here => ?_⟩
  · rw [root]
    exact r.alone d (t.detours ▸ md)
  · rw [root] at here
    rw [proxy, t.detour?]
    exact r.root id here

end Turns

theorem Booked.turn (b : Booked k kept c w) (t : Turns k w w' c') (books : c'.Books)
    (nodes : ∀ n ∈ c'.nodes ++ c'.retired, n ∈ kept) (rooted : Rooted k w' c') :
    Booked k kept c' w' :=
  ⟨t.setting b.setting, t.chain, books, nodes, t.hooks ▸ b.handles, b.ids, t.below b.below,
    b.words, rooted⟩

theorem Booked.beside (b : Booked k kept c w) (h : w.Beside w') : Booked k kept c w' :=
  have t := Turns.of_beside h b.chain
  b.turn t b.books b.nodes (t.rooted b.rooted rfl rfl)

/-- If the chain's method is not detoured, no detour that has to do with it is applied. -/
theorem Booked.unapplied (b : Booked k kept c w) (bare : w.patchOf c = none) :
    w.Unapplied k.method := by
  intro d md touches x found
  have root := b.rooted.alone d md touches
  unfold patchOf at bare
  rw [root] at bare
  have bare : (w.detour? d.id).bind MethodDetour.redirection = none := bare
  rw [found] at bare
  exact bare

namespace InOrder

/-- The books have changed, and the detour and the proxy have not. -/
theorem turn (o : InOrder k code kept c w) (t : Turns k w w' c') (books : c'.Books)
    (nodes : ∀ n ∈ c'.nodes ++ c'.retired, n ∈ kept) (root : c'.root = c.root)
    (proxy : c'.proxy = c.proxy) (stands : (w.rig c kept).Stands code w'.machine) :
    InOrder k code kept c' w' := by
  have patch := t.patchOf root
  have same : w'.rig c' kept = w.rig c kept := by
    unfold rig
    rw [patch, proxy]
  refine ⟨o.booked.turn t books nodes (t.rooted o.booked.rooted root proxy), same ▸ stands,
    fun r hr => ?_, fun id d here found => ?_⟩
  · rw [proxy]
    exact o.leads r (patch ▸ hr)
  · rw [root] at here
    rw [t.detour?] at found
    exact o.idle id d here found

theorem beside (o : InOrder k code kept c w) (b : w.Beside w')
    (stands : (w.rig c kept).Stands code w'.machine) : InOrder k code kept c w' :=
  o.turn (.of_beside b o.booked.chain) o.booked.books o.booked.nodes rfl rfl stands

theorem quiet (o : InOrder k code kept c w) (q : w.Quiet w') : InOrder k code kept c w' :=
  o.beside q.toBeside (o.stands.of_arena q.arena)

end InOrder

theorem Beside.patchOf (b : w.Beside w') (c : Chain) : w'.patchOf c = w.patchOf c := by
  unfold World.patchOf
  cases c.root with
  | none => rfl
  | some id => exact congrArg (·.bind MethodDetour.redirection) (b.detour? id)

/-- Links are in memory, and stay there if the memory does. -/
theorem LinkedUp.beside (l : LinkedUp w c) (b : w.Beside w')
    (bytes : w'.machine.memory.bytes = w.machine.memory.bytes) : LinkedUp w' c := by
  have word (a : Nat) : w'.machine.memory.word a = w.machine.memory.word a :=
    Memory.word_congr fun i _ => congrFun bytes _
  intro r hr
  rw [b.patchOf] at hr
  obtain ⟨proxy, entry, hp, callable, order, many, linked⟩ := l r hr
  exact ⟨proxy, entry, hp, callable, order, many,
    linked.congr (word _) fun n _ => word _⟩

theorem LinkedUp.quiet (l : LinkedUp w c) (q : w.Quiet w') : LinkedUp w' c :=
  l.beside q.toBeside (congrArg (fun a : Arena PageSupply => a.source.memory.bytes) q.arena)

theorem Steady.quiet (o : Steady k code kept c w) (q : w.Quiet w') : Steady k code kept c w' :=
  ⟨o.toInOrder.quiet q, o.linked.quiet q⟩

/-! ## Changes of the detour -/

theorem Booked.put (b : Booked k kept c w) (root : c.root = some d.id)
    (found : w.detour? d.id = some d) (d' : MethodDetour) (same : d.Alike d') :
    Booked k kept c (w.put d') := by
  obtain ⟨d₀, proxy, found₀, rest⟩ := b.rooted.root _ root
  obtain rfl := Option.some.inj (found.symm.trans found₀)
  have there : (w.put d').detour? d.id = some d' := by
    rw [← same.id]
    exact detour?_put (same.id.symm ▸ found)
  have old {x : MethodDetour} (mx : x ∈ (w.put d').detours) : x = d' ∨ x ∈ w.detours := by
    obtain ⟨y, my, rfl⟩ := List.mem_map.mp mx
    split
    · exact Or.inl rfl
    · exact Or.inr my
  have md : d ∈ w.detours := List.mem_of_find?_eq_some found
  refine ⟨⟨b.setting.keeps, b.setting.inHand, b.setting.name, fun x mx => ?_⟩, b.chain, b.books,
    b.nodes, b.handles, b.ids, b.below, b.words, fun x mx touches => ?_, fun id here => ?_⟩
  · rcases old mx with rfl | mx
    · exact same.id ▸ b.setting.numbered d md
    · exact b.setting.numbered x mx
  · rcases old mx with rfl | mx
    · rw [same.id]
      exact root
    · exact b.rooted.alone x mx touches
  · obtain rfl := Option.some.inj (root.symm.trans here)
    obtain ⟨hp, source, target, factory, watcher⟩ := rest
    exact ⟨d', proxy, there, hp, same.source.trans source, same.target.trans target,
      same.factory.trans factory, same.watcher.trans watcher⟩

theorem patchOf_put (d' : MethodDetour) (root : c.root = some d'.id)
    (found : w.detour? d'.id = some d) : (w.put d').patchOf c = d'.redirection := by
  unfold patchOf
  rw [root]
  show ((w.put d').detour? d'.id).bind _ = _
  rw [detour?_put found]
  rfl

theorem root_of_patchOf {r : Redirection} (h : w.patchOf c = some r) :
    ∃ id d, c.root = some id ∧ w.detour? id = some d ∧ d.redirection = some r := by
  obtain ⟨d, there, patched⟩ := Option.bind_eq_some_iff.mp h
  obtain ⟨id, root, found⟩ := Option.bind_eq_some_iff.mp there
  exact ⟨id, d, root, found, patched⟩

theorem appliedRoot?_eq {r : Redirection} (root : c.root = some id) (found : w.detour? id = some d)
    (patched : d.redirection = some r) : w.appliedRoot? c = some d := by
  unfold appliedRoot?
  rw [root]
  show (w.detour? id).filter _ = _
  rw [found]
  simp [MethodDetour.isApplied_eq, patched]

theorem patchOf_eq (root : c.root = some id) (found : w.detour? id = some d) :
    w.patchOf c = d.redirection := by
  unfold patchOf
  rw [root]
  show (w.detour? id).bind _ = _
  rw [found]
  rfl

end World

end Detouring
