-- What a manager has put up and who counts on it: the trampolines of hooks that somebody may still
-- use, the proxies of its chains, and the detours of the hooked methods. The ledger stays in order
-- when a chain, a detour or a handle changes.
import Detouring.Proofs.Detour.Orderly
import Detouring.Proofs.Detour.Seeking
import Detouring.Proofs.Hook.Relinking
import Detouring.Proofs.Hook.Signposts
import Detouring.Proofs.Jump.Planning

namespace Detouring

open Machine

/-- The stubs that a manager has put up. -/
structure Store where
  /-- The hooks whose trampolines are kept, and the chain of each. -/
  hooks : List (ChainKey × ChainNode) := []
  /-- The proxies, and the chain of each. -/
  proxies : List (ChainKey × Stub) := []

def Store.stubs (S : Store) : List Stub :=
  S.hooks.map (fun e => e.2.trampoline) ++ S.proxies.map Prod.snd

theorem Store.mem_of_hook {S : Store} {e : ChainKey × ChainNode} (me : e ∈ S.hooks) :
    e.2.trampoline ∈ S.stubs :=
  List.mem_append_left _
    (List.mem_map_of_mem (f := fun e : ChainKey × ChainNode => e.2.trampoline) me)

theorem Store.mem_of_proxy {S : Store} {e : ChainKey × Stub} (me : e ∈ S.proxies) : e.2 ∈ S.stubs :=
  List.mem_append_right _ (List.mem_map_of_mem me)

/-- Hooks may be given up, and more proxies put up. -/
structure Store.Passes (S S' : Store) : Prop where
  hooks : ∀ e ∈ S'.hooks, e ∈ S.hooks
  proxies : ∀ e ∈ S.proxies, e ∈ S'.proxies

theorem Store.Passes.refl (S : Store) : S.Passes S := ⟨fun _ me => me, fun _ mp => mp⟩

theorem Store.Passes.trans {S S' S'' : Store} (h : S.Passes S') (h' : S'.Passes S'') :
    S.Passes S'' :=
  ⟨fun e me => h.hooks e (h'.hooks e me), fun p mp => h'.proxies p (h.proxies p mp)⟩

namespace World

variable {μ : Nat} {S : Store} {k k' : ChainKey} {c : Chain} {d d' : MethodDetour} {w w' : World}
  {node : ChainNode} {e : ChainKey × ChainNode} {id : Nat} {m : Machine}

/-! ## Looking things up -/

/-- The proxy of a method. -/
def front? (w : World) (k : ChainKey) : Option Stub := (w.chain? k).bind Chain.proxy

theorem manager?_updateManager_of_ne (w : World) {f : Manager → Manager}
    (same : ∀ m, (f m).id = m.id) {id other : Nat} (beside : other ≠ id) :
    (w.updateManager id f).manager? other = w.manager? other := by
  unfold manager? updateManager
  dsimp only
  induction w.managers with
  | nil => rfl
  | cons m rest ih =>
    by_cases it : m.id = id
    · have out : ¬ id = other := Ne.symm beside
      simp [it, same, out, ih]
    · simp only [List.map_cons, it, if_false, List.find?_cons]
      rw [ih]

/-- Chains of other methods, or of other managers, stay. -/
theorem chain?_withChain_of_ne (w : World) {f : Chain → Chain}
    (same : ∀ c, (f c).method = c.method) (other : k' ≠ k) :
    (w.withChain k f).chain? k' = w.chain? k' := by
  by_cases ours : k'.manager = k.manager
  · have beside : k'.method ≠ k.method := ChainKey.method_ne ours other
    have found (l : List Chain) :
        (l.map fun c => if c.method = k.method then f c else c).find? (·.method = k'.method) =
          l.find? (·.method = k'.method) := by
      induction l with
      | nil => rfl
      | cons c rest ih =>
        by_cases it : c.method = k.method
        · have out : ¬ k.method = k'.method := fun it => beside it.symm
          simp [it, same, out, ih]
        · by_cases there : c.method = k'.method
          · have out : ¬ k'.method = k.method := beside
            simp [there, out]
          · simp [it, there, ih]
    unfold chain?
    rw [ours, manager?_withChain, Option.bind_map]
    exact Option.bind_congr fun m _ => found m.chains
  · let f' (m : Manager) : Manager :=
      { m with chains := m.chains.map fun c => if c.method = k.method then f c else c }
    have found : (w.withChain k f).manager? k'.manager = w.manager? k'.manager :=
      manager?_updateManager_of_ne w (f := f') (fun _ => rfl) ours
    unfold chain?
    rw [found]

/-- Two changes of one chain are one change. -/
theorem withChain_withChain (w : World) (k : ChainKey) {f : Chain → Chain} (f' : Chain → Chain)
    (same : ∀ c, (f c).method = c.method) :
    (w.withChain k f).withChain k f' = w.withChain k (f' ∘ f) := by
  unfold withChain updateManager
  simp only [List.map_map]
  congr 1
  refine List.map_congr_left fun m _ => ?_
  by_cases it : m.id = k.manager
  · simp only [Function.comp_apply, it, if_true, List.map_map]
    congr 1
    refine List.map_congr_left fun c _ => ?_
    by_cases here : c.method = k.method <;> simp [here, same]
  · simp [it]

/-- A new detour hides no other. -/
theorem detour?_enter_of_found {x : MethodDetour} (found : w.detour? id = some x) :
    (w.enter d).detour? id = some x := by
  unfold detour? World.enter at *
  rw [List.find?_append, found]
  rfl

/-! ## The ledger -/

/-- Each hook has a number of its own, and the handles that are in use are known. -/
structure Registered (μ : Nat) (S : Store) (w : World) : Prop where
  numbered : w.Numbered
  keeps : w.platform.keepsReplacedCode = true
  inHand : w.manager = some μ
  counted : ∃ m, w.manager? μ = some m ∧ ∀ e ∈ S.hooks, e.2.id < m.nextHook
  ids : (S.hooks.map fun e => e.2.id).Nodup
  ours : ∀ e ∈ S.hooks, e.1.manager = μ
  handles : ∀ h ∈ w.hooks, (h.chain, h.node) ∈ S.hooks

/-- The chain of a method has what it refers to. -/
structure Chained (k : ChainKey) (c : Chain) (S : Store) (w : World) : Prop where
  name : w.nameOf k.method = k.method
  books : c.Books
  nodes : ∀ n ∈ c.nodes ++ c.retired, (k, n) ∈ S.hooks
  proxy : ∀ p, c.proxy = some p → (k, p) ∈ S.proxies
  root : ∀ id, c.root = some id → ∃ d p, w.detour? id = some d ∧ c.proxy = some p ∧
    d.source = k.method ∧ d.target = .function p.entry

/-- The detour belongs to the chain of its method. Where it is applied, it was laid over code of
others that can still be called. -/
structure Anchored (μ : Nat) (w : World) (d : MethodDetour) : Prop where
  idle : d.busy = false
  target : ∃ a, d.target = .function a
  watched : ∀ key, d.watcher = .chain key → key.manager = μ
  root : ∃ c, w.chain? ⟨μ, d.source⟩ = some c ∧ c.root = some d.id
  laid : ∀ r, d.redirection = some r → r.Laid w.machine ∧ r.alternate.isSome

/-- The ledger of a manager is in order. -/
structure Kept (μ : Nat) (S : Store) (w : World) : Prop extends Registered μ S w where
  chains : ∀ k c, k.manager = μ → w.chain? k = some c → Chained k c S w
  detours : ∀ d ∈ w.detours, Anchored μ w d
  posts : w.machine.Posts S.stubs w.holdings
  packed : w.machine.Packed

theorem Anchored.later (h : Anchored μ w d)
    (foreign : ∀ x, w.machine.Foreign x → w'.machine.Foreign x)
    (root : ∀ c, w.chain? ⟨μ, d.source⟩ = some c → c.root = some d.id →
      ∃ c, w'.chain? ⟨μ, d.source⟩ = some c ∧ c.root = some d.id) : Anchored μ w' d := by
  obtain ⟨c, found, here⟩ := h.root
  exact ⟨h.idle, h.target, h.watched, root c found here,
    fun r hr => ⟨(h.laid r hr).1.later foreign, (h.laid r hr).2⟩⟩

namespace Kept

theorem found (g : Kept μ S w) (h : w.detour? id = some d) : Anchored μ w d :=
  g.detours d (List.mem_of_find?_eq_some h)

/-- A chain without a proxy has no detour. -/
theorem rootless (g : Kept μ S w) (ours : k.manager = μ) (here : w.chain? k = some c)
    (bare : c.proxy = none) : c.root = none := by
  rcases root : c.root with _ | id
  · rfl
  · obtain ⟨_, p, _, hp, _⟩ := (g.chains k c ours here).root id root
    cases bare.symm.trans hp

/-- A detoured method has a proxy. -/
theorem exists_front (g : Kept μ S w) (ours : k.manager = μ) {r : Redirection}
    (patched : w.patched? k = some r) : ∃ p, w.front? k = some p ∧ (k, p) ∈ S.proxies := by
  obtain ⟨c, here, patch⟩ := Option.bind_eq_some_iff.mp patched
  obtain ⟨id, _, root, _⟩ := root_of_patchOf patch
  have chained := g.chains k c ours here
  obtain ⟨_, p, _, hp, _⟩ := chained.root id root
  refine ⟨p, ?_, chained.proxy p hp⟩
  unfold front?
  rw [here]
  exact hp

theorem mem_of_front (g : Kept μ S w) (ours : k.manager = μ) {p : Stub}
    (front : w.front? k = some p) : (k, p) ∈ S.proxies := by
  obtain ⟨c, here, hp⟩ := Option.bind_eq_some_iff.mp front
  exact (g.chains k c ours here).proxy p hp

theorem stubs_nodup (g : Kept μ S w) : S.stubs.Nodup :=
  (List.nodup_append.mp g.posts.holds.nodup).1.of_map Stub.block

/-- Each hook has a trampoline of its own, -/
theorem trampolines_apart (g : Kept μ S w) {e' : ChainKey × ChainNode} (me : e ∈ S.hooks)
    (me' : e' ∈ S.hooks) (other : e ≠ e') : e.2.trampoline ≠ e'.2.trampoline := fun same =>
  other (List.inj_on_of_nodup_map (List.nodup_append.mp g.stubs_nodup).1 me me' same)

/-- each chain a proxy of its own, -/
theorem proxies_apart (g : Kept μ S w) {p p' : ChainKey × Stub} (mp : p ∈ S.proxies)
    (mp' : p' ∈ S.proxies) (other : p ≠ p') : p.2 ≠ p'.2 := fun same =>
  other (List.inj_on_of_nodup_map (List.nodup_append.mp g.stubs_nodup).2.1 mp mp' same)

/-- and no proxy is a trampoline. -/
theorem proxy_ne_trampoline (g : Kept μ S w) {p : ChainKey × Stub} (mp : p ∈ S.proxies)
    (me : e ∈ S.hooks) : p.2 ≠ e.2.trampoline := fun same =>
  (List.nodup_append.mp g.stubs_nodup).2.2 _
    (List.mem_map_of_mem (f := fun e : ChainKey × ChainNode => e.2.trampoline) me) _
    (List.mem_map_of_mem mp) same.symm

/-- While the method is not detoured, nothing moves when it is compiled: only functions are led to,
and they are never compiled. -/
theorem still (g : Kept μ S w) (ours : k.manager = μ) (here : w.chain? k = some c)
    (bare : w.patched? k = none) : w.Still k.method := by
  rcases kind : k.method with a | t | ⟨owner, inner⟩
  · exact Or.inr (Or.inl fun _ known => (by cases known))
  all_goals
    rw [← kind]
    refine Or.inr (Or.inr ⟨(g.chains k c ours here).name, fun d md touches x found => ?_⟩)
    obtain rfl : x = d := by
      have := g.numbered.found_iff.mp found
      exact Option.some.inj (found.symm.trans (g.numbered.found_iff.mpr ⟨md, rfl⟩))
    rcases touches with source | target
    · obtain ⟨c', here', root⟩ := (g.detours x md).root
      rw [source, ChainKey.mk_method ours] at here'
      obtain rfl := Option.some.inj (here.symm.trans here')
      rw [patched?_eq here, patchOf_eq root found] at bare
      exact bare
    · obtain ⟨a, function⟩ := (g.detours x md).target
      rw [function, kind] at target
      cases target

/-! ## Changes beside the ledger -/

theorem beside (g : Kept μ S w) (b : w.Beside w') (posts : w'.machine.Posts S.stubs w.holdings)
    (packed : w'.machine.Packed) (foreign : ∀ x, w.machine.Foreign x → w'.machine.Foreign x) :
    Kept μ S w' := by
  refine ⟨⟨g.numbered.beside b, b.platform ▸ g.keeps, b.manager.trans g.inHand,
    b.manager? μ ▸ g.counted, g.ids, g.ours, b.hooks ▸ g.handles⟩, fun k c ours here => ?_,
    fun d md => ?_, ?_, packed⟩
  · have h := g.chains k c ours (b.chain? k ▸ here)
    refine ⟨(b.names _).trans h.name, h.books, h.nodes, h.proxy, fun id root => ?_⟩
    rw [b.detour?]
    exact h.root id root
  · refine (g.detours d (b.detours ▸ md)).later foreign fun c found root => ⟨c, ?_, root⟩
    rw [b.chain?]
    exact found
  · unfold holdings
    rw [b.detours]
    exact posts

theorem quiet (g : Kept μ S w) (q : w.Quiet w') : Kept μ S w' :=
  g.beside q.toBeside (g.posts.of_arena q.arena) (g.packed.of_arena q.arena) fun _ f => (q.code f).1

/-- More of the machine is taken, or what was taken is given back. -/
theorem gains {new : List Block} (g : Kept μ S w)
    (gains : Gains (S.stubs.map Stub.block ++ w.holdings) new w.machine m) (packed : m.Packed) :
    Kept μ S { w with machine := m } :=
  g.beside (w.beside_machine m) (g.posts.gains gains) packed gains.foreign

/-- Other handles are in use. -/
theorem rehook (g : Kept μ S w) (hooks : List Hook)
    (handles : ∀ h ∈ hooks, (h.chain, h.node) ∈ S.hooks) : Kept μ S { w with hooks } :=
  ⟨⟨⟨g.numbered.ids, g.numbered.numbered⟩, g.keeps, g.inHand, g.counted, g.ids, g.ours, handles⟩,
    fun k c ours here => ⟨(g.chains k c ours here).name, (g.chains k c ours here).books,
      (g.chains k c ours here).nodes, (g.chains k c ours here).proxy,
      (g.chains k c ours here).root⟩,
    fun d md => (g.detours d md).later (fun _ f => f) fun c found root => ⟨c, found, root⟩,
    g.posts, g.packed⟩

/-! ## Changes of a chain -/

/-- One chain has changed, and its detour has not. -/
theorem rechain (g : Kept μ S w) (ours : k.manager = μ) (here : w.chain? k = some c)
    {f : Chain → Chain} (same : ∀ c, (f c).method = c.method) (books : (f c).Books)
    (nodes : ∀ n ∈ (f c).nodes ++ (f c).retired, (k, n) ∈ S.hooks) (root : (f c).root = c.root)
    (proxy : ∀ p, (f c).proxy = some p → (k, p) ∈ S.proxies)
    (front : c.root.isSome → (f c).proxy = c.proxy) : Kept μ S (w.withChain k f) := by
  have now : (w.withChain k f).chain? k = some (f c) := by
    rw [chain?_withChain w k same, here]
    rfl
  have counted : ∃ m, (w.withChain k f).manager? μ = some m ∧
      ∀ e ∈ S.hooks, e.2.id < m.nextHook := by
    obtain ⟨m, found, below⟩ := g.counted
    refine ⟨{ m with chains := m.chains.map fun c => if c.method = k.method then f c else c }, ?_,
      below⟩
    rw [← ours, manager?_withChain, ours, found]
    rfl
  refine ⟨⟨⟨g.numbered.ids, g.numbered.numbered⟩, g.keeps, g.inHand, counted, g.ids, g.ours,
    g.handles⟩, fun k' c' ours' here' => ?_, fun d md => ?_, g.posts, g.packed⟩
  · by_cases it : k' = k
    · subst it
      obtain rfl := Option.some.inj (now.symm.trans here')
      have h := g.chains k' c ours here
      refine ⟨h.name, books, nodes, proxy, fun id there => ?_⟩
      rw [root] at there
      rw [front (Option.isSome_iff_exists.mpr ⟨id, there⟩)]
      exact h.root id there
    · have h := g.chains k' c' ours' (chain?_withChain_of_ne w same it ▸ here')
      exact ⟨h.name, h.books, h.nodes, h.proxy, h.root⟩
  · refine (g.detours d md).later (fun _ f => f) fun c' found there => ?_
    by_cases it : (⟨μ, d.source⟩ : ChainKey) = k
    · rw [it] at found ⊢
      obtain rfl := Option.some.inj (here.symm.trans found)
      exact ⟨f c, now, root.trans there⟩
    · exact ⟨c', (chain?_withChain_of_ne w same it).trans found, there⟩

/-- The books of a chain have changed, and its proxy has not. -/
theorem rebook (g : Kept μ S w) (ours : k.manager = μ) (here : w.chain? k = some c)
    {f : Chain → Chain} (same : ∀ c, (f c).method = c.method) (books : (f c).Books)
    (nodes : ∀ n ∈ (f c).nodes ++ (f c).retired, (k, n) ∈ S.hooks) (root : (f c).root = c.root)
    (proxy : (f c).proxy = c.proxy) : Kept μ S (w.withChain k f) := by
  have h := g.chains k c ours here
  exact g.rechain ours here same books nodes root (fun p hp => h.proxy p (proxy ▸ hp))
    fun _ => proxy

/-! ## Changes of a detour -/

/-- One detour has changed. -/
theorem becomes (g : Kept μ S w) (d' : MethodDetour) (found : w.detour? d.id = some d)
    (alike : d.Alike d') (idle : d'.busy = false) (b : w.Becomes d' w')
    (posts : w'.machine.Posts S.stubs (d'.blocks ++ (w.without d'.id).holdings))
    (packed : w'.machine.Packed) (foreign : ∀ x, w.machine.Foreign x → w'.machine.Foreign x)
    (laid : ∀ r, d'.redirection = some r → r.Laid w'.machine ∧ r.alternate.isSome) :
    Kept μ S w' := by
  have found' : w.detour? d'.id = some d := alike.id.symm ▸ found
  have chain (k : ChainKey) : w'.chain? k = w.chain? k := (Beside.chain? b k).trans rfl
  have anchored := g.found found
  have perm := b.holdings_perm g.numbered found'
  refine ⟨⟨g.numbered.becomes b found', b.platform ▸ g.keeps, b.manager.trans g.inHand, ?_, g.ids,
    g.ours, fun h mh => g.handles h (b.along.hooks ▸ mh)⟩, fun k c ours here => ?_, fun x mx => ?_, ?_,
    packed⟩
  · obtain ⟨manager, there, below⟩ := g.counted
    exact ⟨manager, (Beside.manager? b μ).trans there, below⟩
  · have h := g.chains k c ours (chain k ▸ here)
    refine ⟨(b.names _).trans h.name, h.books, h.nodes, h.proxy, fun id root => ?_⟩
    obtain ⟨x, p, there, hp, source, target⟩ := h.root id root
    by_cases it : id = d'.id
    · subst it
      obtain rfl := Option.some.inj (found'.symm.trans there)
      exact ⟨d', p, b.detour? found', hp, alike.source.trans source, alike.target.trans target⟩
    · exact ⟨x, p, (b.detour?_of_ne it).trans there, hp, source, target⟩
  · rcases mem_put ((show w'.detours = (w.put d').detours from b.detours) ▸ mx) with rfl | mx
    · obtain ⟨a, function⟩ := anchored.target
      refine ⟨idle, ⟨a, alike.target.trans function⟩, fun key watcher => ?_, ?_, laid⟩
      · exact anchored.watched key (alike.watcher.symm.trans watcher)
      · rw [alike.source, alike.id, chain]
        exact anchored.root
    · refine (g.detours x mx).later foreign fun c there root => ⟨c, ?_, root⟩
      rw [chain]
      exact there
  · exact posts.recount (perm.append_left _).subperm

/-- A new detour from the method of a chain to its proxy. -/
theorem enter (g : Kept μ S w) (ours : k.manager = μ) (here : w.chain? k = some c)
    (root : c.root = none) {p : Stub} (front : c.proxy = some p) (new : d.id = w.nextDetour)
    (bare : d.redirection = none) (empty : d.retired = []) (idle : d.busy = false)
    (source : d.source = k.method) (target : d.target = .function p.entry)
    (watched : d.watcher = .chain k) :
    Kept μ S ((w.enter d).withChain k ({ · with root := some d.id })) := by
  have numbered : ∀ x ∈ w.detours, x.id < d.id := new ▸ g.numbered.numbered
  have key : (⟨μ, d.source⟩ : ChainKey) = k := by rw [source, ← ours]
  have now : ((w.enter d).withChain k ({ · with root := some d.id })).chain? k =
      some { c with root := some d.id } := by
    rw [chain?_withChain _ k (f := ({ · with root := some d.id })) fun _ => rfl,
      show (w.enter d).chain? k = some c from here]
    rfl
  have others {k' : ChainKey} (it : k' ≠ k) :
      ((w.enter d).withChain k ({ · with root := some d.id })).chain? k' = w.chain? k' :=
    chain?_withChain_of_ne (w.enter d) (f := ({ · with root := some d.id })) (fun _ => rfl) it
  have counted : ∃ m, ((w.enter d).withChain k ({ · with root := some d.id })).manager? μ = some m ∧
      ∀ e ∈ S.hooks, e.2.id < m.nextHook := by
    obtain ⟨m, found, below⟩ := g.counted
    refine ⟨{ m with chains := m.chains.map fun c =>
      if c.method = k.method then { c with root := some d.id } else c }, ?_, below⟩
    rw [← ours, manager?_withChain, ours, show (w.enter d).manager? μ = some m from found]
    rfl
  have n : (w.register d).Numbered := g.numbered.register new
  refine ⟨⟨⟨n.ids, n.numbered⟩, g.keeps, g.inHand, counted, g.ids, g.ours, g.handles⟩,
    fun k' c' ours' here' => ?_, fun x mx => ?_, ?_, g.packed⟩
  · by_cases it : k' = k
    · subst it
      obtain rfl := Option.some.inj (now.symm.trans here')
      have h := g.chains k' c ours here
      refine ⟨h.name, ⟨h.books.counted, h.books.retired, h.books.apart, h.books.graph,
        h.books.unplaced⟩, h.nodes, h.proxy, fun id mine => ?_⟩
      obtain rfl := Option.some.inj mine
      exact ⟨d, p, detour?_enter numbered, front, source, target⟩
    · have h := g.chains k' c' ours' (others it ▸ here')
      refine ⟨h.name, h.books, h.nodes, h.proxy, fun id mine => ?_⟩
      obtain ⟨x, p', found, rest⟩ := h.root id mine
      exact ⟨x, p', detour?_enter_of_found found, rest⟩
  · rcases List.mem_append.mp mx with mx | mx
    · refine (g.detours x mx).later (fun _ f => f) fun c' found mine => ⟨c', ?_, mine⟩
      rw [others]
      · exact found
      · intro it
        rw [it] at found
        obtain rfl := Option.some.inj (here.symm.trans found)
        cases root.symm.trans mine
    · obtain rfl := List.mem_singleton.mp mx
      refine ⟨idle, ⟨_, target⟩, fun key watcher => ?_, ⟨{ c with root := some x.id }, ?_, rfl⟩,
        fun r hr => ?_⟩
      · obtain rfl := Watcher.chain.inj (watched.symm.trans watcher)
        exact ours
      · rw [key]
        exact now
      · cases bare.symm.trans hr
  · have nothing : d.blocks = [] := (MethodDetour.blocks_of_bare bare).trans empty
    have same := holdings_register w nothing
    show w.machine.Posts S.stubs (w.register d).holdings
    rw [same]
    exact g.posts

/-! ## What is put up -/

/-- A hook gets a trampoline. -/
theorem takeOn (g : Kept μ S w) (node : ChainNode) (ours : k.manager = μ)
    (gains : Gains (S.stubs.map Stub.block ++ w.holdings) [node.trampoline.block] w.machine m)
    (stands : node.trampoline.Stands m.memory) (packed : m.Packed)
    (new : ∀ e ∈ S.hooks, e.2.id < node.id)
    (below : ∀ m, w.manager? μ = some m → node.id < m.nextHook) :
    Kept μ { S with hooks := (k, node) :: S.hooks } { w with machine := m } := by
  have g' := g.gains gains packed
  have old {e : ChainKey × ChainNode} (me : e ∈ S.hooks) : e ∈ (k, node) :: S.hooks :=
    List.mem_cons_of_mem _ me
  refine ⟨⟨g'.numbered, g'.keeps, g'.inHand, ?_, List.nodup_cons.mpr ⟨fun there => ?_, g.ids⟩, ?_,
    fun h mh => old (g.handles h mh)⟩, fun k' c ours' here => ?_, g'.detours,
    g.posts.putUp gains stands, packed⟩
  · obtain ⟨manager, found, lower⟩ := g.counted
    refine ⟨manager, found, fun e me => ?_⟩
    rcases List.mem_cons.mp me with rfl | me
    · exact below manager found
    · exact lower e me
  · obtain ⟨e, me, same⟩ := List.mem_map.mp there
    exact Nat.ne_of_lt (new e me) same
  · intro e me
    rcases List.mem_cons.mp me with rfl | me
    · exact ours
    · exact g.ours e me
  · have h := g'.chains k' c ours' here
    exact ⟨h.name, h.books, fun n mn => old (h.nodes n mn), h.proxy, h.root⟩

theorem takeOnProxy (g : Kept μ S w) (k : ChainKey) {p : Stub}
    (gains : Gains (S.stubs.map Stub.block ++ w.holdings) [p.block] w.machine m)
    (stands : p.Stands m.memory) (packed : m.Packed) :
    Kept μ { S with proxies := (k, p) :: S.proxies } { w with machine := m } := by
  have g' := g.gains gains packed
  refine ⟨⟨g'.numbered, g'.keeps, g'.inHand, g'.counted, g.ids, g.ours, g.handles⟩,
    fun k c ours here => ?_, g'.detours, (g.posts.putUp gains stands).perm List.perm_middle.symm,
    packed⟩
  have h := g'.chains k c ours here
  exact ⟨h.name, h.books, h.nodes, fun q hq => List.mem_cons_of_mem _ (h.proxy q hq), h.root⟩

/-- A trampoline that nobody needs is taken down. -/
theorem giveUp (g : Kept μ S w) (me : e ∈ S.hooks) (loose : ∀ h ∈ w.hooks, h.node.id ≠ e.2.id)
    (unkept : ∀ c, w.chain? e.1 = some c → ∀ n ∈ c.nodes ++ c.retired, n.id ≠ e.2.id) :
    ∃ S', S'.proxies = S.proxies ∧ (∀ x, x ∈ S'.hooks ↔ x ∈ S.hooks ∧ x ≠ e) ∧
      Kept μ S' { w with machine := w.machine.free e.2.trampoline.block } := by
  obtain ⟨before, later, split⟩ := List.append_of_mem me
  have perm : S.hooks.Perm (e :: (before ++ later)) := split ▸ List.perm_middle
  have once : (e :: (before ++ later)).Nodup :=
    perm.nodup_iff.mp (List.Nodup.of_map (fun e : ChainKey × ChainNode => e.2.id) g.ids)
  have mem (x : ChainKey × ChainNode) : x ∈ before ++ later ↔ x ∈ S.hooks ∧ x ≠ e := by
    rw [perm.mem_iff, List.mem_cons]
    constructor
    · exact fun mx => ⟨Or.inr mx, fun it => (List.nodup_cons.mp once).1 (it ▸ mx)⟩
    · exact fun ⟨mx, other⟩ => mx.resolve_left other
  have stubs : S.stubs.Perm (e.2.trampoline :: Store.stubs ⟨before ++ later, S.proxies⟩) :=
    (perm.map _).append_right (S.proxies.map Prod.snd)
  obtain ⟨posts, _, foreign⟩ := (g.posts.perm stubs).takeDown
  -- A hook with this number is this hook.
  have same {x : ChainKey × ChainNode} (mx : x ∈ S.hooks) (id : x.2.id = e.2.id) : x = e :=
    List.inj_on_of_nodup_map g.ids mx me id
  refine ⟨⟨before ++ later, S.proxies⟩, rfl, mem, ⟨⟨⟨g.numbered.ids, g.numbered.numbered⟩, g.keeps,
    g.inHand, ?_, ?_, fun x mx => g.ours x ((mem x).mp mx).1, fun h mh => (mem _).mpr ⟨g.handles h mh,
      fun it => loose h mh (by rw [← it])⟩⟩, fun k c ours here => ?_, fun d md => ?_, posts,
    g.packed.free _⟩⟩
  · obtain ⟨manager, found, below⟩ := g.counted
    exact ⟨manager, found, fun x mx => below x ((mem x).mp mx).1⟩
  · have ids := (perm.map fun e : ChainKey × ChainNode => e.2.id).nodup_iff.mp g.ids
    exact (List.nodup_cons.mp ids).2
  · have h := g.chains k c ours here
    refine ⟨h.name, h.books, fun n mn => (mem _).mpr ⟨h.nodes n mn, fun it => ?_⟩, h.proxy, h.root⟩
    subst it
    exact unkept c here n mn rfl
  · exact (g.detours d md).later foreign fun c found root => ⟨c, found, root⟩

end Kept

end World

end Detouring
