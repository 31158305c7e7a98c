-- Where the stubs of a manager lead: to functions of hooks and to code that can still be called. A
-- change may leave all stubs as they are, or it may point some of them at such goals.
import Detouring.Proofs.Hook.Ledger

namespace Detouring

open Machine

/-- Code of the source that can be called, be it replaced now or earlier. -/
def MethodDetour.alternates (d : MethodDetour) : List Block :=
  d.redirection.toList.flatMap (fun r => r.alternate.toList) ++ d.retired

/-- When a jump is given up, the code that it replaced is kept. -/
theorem MethodDetour.mem_retired {d : MethodDetour} {r : Redirection} {x : Block}
    (patched : d.redirection = some r) (mx : x ∈ d.alternates) :
    x ∈ d.retired ++ r.alternate.toList := by
  unfold MethodDetour.alternates at mx
  rw [patched] at mx
  simp only [Option.toList_some, List.flatMap_singleton] at mx
  exact List.perm_append_comm.mem_iff.mp mx

namespace World

variable {μ : Nat} {G T : Set Nat} {S S' S'' : Store} {k k' : ChainKey} {c : Chain}
  {d d' : MethodDetour} {w w' w'' : World} {a : Nat} {m : Machine} {b : Block} {r : Redirection}

/-- Replaced code that can be called. -/
def alternates (w : World) : List Block := w.detours.flatMap MethodDetour.alternates

theorem mem_holdings_of_alternate (mb : b ∈ w.alternates) : b ∈ w.holdings := by
  obtain ⟨d, md, mb⟩ := List.mem_flatMap.mp mb
  refine List.mem_flatMap.mpr ⟨d, md, ?_⟩
  rcases List.mem_append.mp mb with mb | mb
  · obtain ⟨r, mr, mb⟩ := List.mem_flatMap.mp mb
    exact List.mem_append_left _ (List.mem_flatMap.mpr ⟨r, mr, List.mem_append_left _ mb⟩)
  · exact List.mem_append_right _ mb

theorem mem_alternates (md : d ∈ w.detours) (patched : d.redirection = some r)
    (callable : r.alternate = some b) : b ∈ w.alternates := by
  refine List.mem_flatMap.mpr ⟨d, md, List.mem_append_left _ (List.mem_flatMap.mpr ⟨r, ?_, ?_⟩)⟩
  · rw [patched]
    exact List.mem_singleton_self r
  · rw [callable]
    exact List.mem_singleton_self b

/-- What the records of one detour have of such code is kept. -/
theorem Becomes.alternates (b : w.Becomes d' w') (found : w.detour? d'.id = some d)
    (n : w.Numbered) (more : ∀ x ∈ d.alternates, x ∈ d'.alternates) :
    ∀ x ∈ w.alternates, x ∈ w'.alternates := by
  intro x mx
  obtain ⟨y, my, mx⟩ := List.mem_flatMap.mp mx
  by_cases it : y.id = d'.id
  · obtain rfl : y = d := Option.some.inj ((n.found_iff.mpr ⟨my, it⟩).symm.trans found)
    exact List.mem_flatMap.mpr ⟨d', List.mem_of_find?_eq_some (b.detour? found), more x mx⟩
  · have there : w'.detour? y.id = some y :=
      (b.detour?_of_ne it).trans (n.found_iff.mpr ⟨my, rfl⟩)
    exact List.mem_flatMap.mpr ⟨y, List.mem_of_find?_eq_some there, mx⟩

theorem Beside.alternates (b : w.Beside w') : w'.alternates = w.alternates := by
  unfold World.alternates
  rw [b.detours]

/-! ## Goals -/

/-- A place that a stub may lead to: one of the functions in `G`, or replaced code. -/
def Goal (G : Set Nat) (w : World) (a : Nat) : Prop :=
  (∃ t ∈ G, a = t % wordCount) ∨ ∃ b ∈ w.alternates, a = b.base % wordCount

theorem Goal.mono (h : Goal G w a) (sub : ∀ t ∈ G, t ∈ T)
    (more : ∀ b ∈ w.alternates, b ∈ w'.alternates) : Goal T w' a :=
  h.imp (fun ⟨t, mt, same⟩ => ⟨t, sub t mt, same⟩) fun ⟨b, mb, same⟩ => ⟨b, more b mb, same⟩

/-- The trampolines of all hooks, and the proxies of detoured methods, lead to a function in `T` or
to replaced code. -/
structure Leads (μ : Nat) (T : Set Nat) (S : Store) (w : World) : Prop where
  targets : ∀ e ∈ S.hooks, e.2.target ∈ T
  hooks : ∀ e ∈ S.hooks, Goal T w (e.2.trampoline.target w.machine)
  fronts : ∀ k p, k.manager = μ → (w.patched? k).isSome → w.front? k = some p →
    Goal T w (p.target w.machine)

/-! ## Leaving all stubs as they are -/

/-- A failure at the chain `k` has changed none of its links, and nothing at other chains. -/
structure Unmoved (k : ChainKey) (S S' : Store) (w w' : World) : Prop extends S.Passes S' where
  seeks : w.Seeks k.method w'
  holdings : ∀ b ∈ w.holdings, b ∈ w'.holdings ∧ ∀ x, b.Has x →
    w'.machine.memory.bytes x = w.machine.memory.bytes x
  held : w'.held = w.held
  names : ∀ m, w'.nameOf m = w.nameOf m
  alternates : ∀ b ∈ w.alternates, b ∈ w'.alternates
  trampolines : ∀ e ∈ S'.hooks,
    e.2.trampoline.target w'.machine = e.2.trampoline.target w.machine
  fronts : ∀ e ∈ S.proxies, e.2.target w'.machine = e.2.target w.machine
  chains : ∀ k', k' ≠ k → w'.chain? k' = w.chain? k'
  front : ∀ k' p, w.front? k' = some p → w'.front? k' = some p
  patched : ∀ k', k'.manager = k.manager → w'.patched? k' = w.patched? k'

theorem Beside.front? (b : w.Beside w') (k : ChainKey) : w'.front? k = w.front? k :=
  congrArg (·.bind Chain.proxy) (b.chain? k)

namespace Unmoved

theorem trans (h : Unmoved k S S' w w') (h' : Unmoved k S' S'' w' w'') : Unmoved k S S'' w w'' where
  toPasses := h.toPasses.trans h'.toPasses
  seeks := h.seeks.trans h'.seeks
  holdings b mb := by
    obtain ⟨mb', same⟩ := h.holdings b mb
    obtain ⟨mb'', same'⟩ := h'.holdings b mb'
    exact ⟨mb'', fun x has => (same' x has).trans (same x has)⟩
  held := h'.held.trans h.held
  names m := (h'.names m).trans (h.names m)
  alternates b mb := h'.alternates b (h.alternates b mb)
  trampolines e me := (h'.trampolines e me).trans (h.trampolines e (h'.hooks e me))
  fronts e me := (h'.fronts e (h.proxies e me)).trans (h.fronts e me)
  chains k' other := (h'.chains k' other).trans (h.chains k' other)
  front k' p there := h'.front k' p (h.front k' p there)
  patched k' ours := (h'.patched k' ours).trans (h.patched k' ours)

/-- Only the machine has changed, and the stubs lead where they led. -/
theorem of_beside (b : w.Beside w') (seeks : w.Seeks k.method w') (passes : S.Passes S')
    (blocks : ∀ b ∈ w.holdings, ∀ x, b.Has x →
      w'.machine.memory.bytes x = w.machine.memory.bytes x)
    (trampolines : ∀ e ∈ S'.hooks,
      e.2.trampoline.target w'.machine = e.2.trampoline.target w.machine)
    (fronts : ∀ e ∈ S.proxies, e.2.target w'.machine = e.2.target w.machine) :
    Unmoved k S S' w w' where
  toPasses := passes
  seeks := seeks
  holdings x mx := ⟨by rwa [World.holdings, b.detours], blocks x mx⟩
  held := b.held
  names := b.names
  alternates _ mx := b.alternates ▸ mx
  trampolines := trampolines
  fronts := fronts
  chains k' _ := b.chain? k'
  front k' _ there := (b.front? k').trans there
  patched k' _ := b.patched? k'

theorem quiet (q : w.Quiet w') (seeks : w.Seeks k.method w') : Unmoved k S S w w' := by
  have word (a : Nat) : w'.machine.memory.word a = w.machine.memory.word a :=
    congrArg (fun a' : Arena PageSupply => a'.source.memory.word a) q.arena
  have bytes (x : Nat) : w'.machine.memory.bytes x = w.machine.memory.bytes x :=
    congrArg (fun a : Arena PageSupply => a.source.memory.bytes x) q.arena
  exact of_beside q.toBeside seeks (.refl S) (fun _ _ x _ => bytes x) (fun _ _ => word _)
    fun _ _ => word _

theorem refl (k : ChainKey) (S : Store) (w : World) : Unmoved k S S w w := quiet (.refl w) (.refl w)

theorem told (h : w.Told w') : Unmoved k S S w w' := quiet h.quiet (.aside h.aside)

/-- More of the machine is taken, or what was taken is given back. -/
theorem gains {new : List Block} (g : Kept μ S w)
    (gains : Gains (S.stubs.map Stub.block ++ w.holdings) new w.machine m) :
    Unmoved k S S w { w with machine := m } :=
  of_beside (w.beside_machine m) (.aside (aside_gains gains)) (.refl S)
    (fun _ mb => gains.blocks _ (List.mem_append_right _ mb))
    (fun _ me => g.posts.target_gains (Store.mem_of_hook me) gains)
    fun _ mp => g.posts.target_gains (Store.mem_of_proxy mp) gains

/-- The books of the chain have changed. -/
theorem rechain {f : Chain → Chain} (same : ∀ c, (f c).method = c.method)
    (root : ∀ c, (f c).root = c.root)
    (proxy : ∀ c, w.chain? k = some c → ∀ p, c.proxy = some p → (f c).proxy = some p) :
    Unmoved k S S w (w.withChain k f) where
  toPasses := .refl S
  seeks := .aside (.still rfl rfl rfl)
  holdings _ mb := ⟨mb, fun _ _ => rfl⟩
  held := rfl
  names _ := rfl
  alternates _ mx := mx
  trampolines _ _ := rfl
  fronts _ _ := rfl
  chains _ other := chain?_withChain_of_ne w same other
  front k' p there := by
    by_cases it : k' = k
    · subst it
      obtain ⟨c, here, hp⟩ := Option.bind_eq_some_iff.mp there
      unfold front?
      rw [chain?_withChain w k' same, here]
      exact proxy c here p hp
    · unfold front?
      rw [chain?_withChain_of_ne w same it]
      exact there
  patched k' _ := by
    by_cases it : k' = k
    · subst it
      exact patched?_withChain same root
    · unfold patched?
      rw [chain?_withChain_of_ne w same it]
      rfl

/-- A new detour is entered, which is not applied yet. -/
theorem enter (g : Kept μ S w) (ours : k.manager = μ) (here : w.chain? k = some c)
    (root : c.root = none) (numbered : ∀ x ∈ w.detours, x.id < d.id)
    (bare : d.redirection = none) :
    Unmoved k S S w ((w.enter d).withChain k ({ · with root := some d.id })) where
  toPasses := .refl S
  seeks := .aside (.still rfl rfl rfl)
  holdings b mb := by
    refine ⟨?_, fun _ _ => rfl⟩
    show b ∈ (w.detours ++ [d]).flatMap MethodDetour.blocks
    rw [List.flatMap_append]
    exact List.mem_append_left _ mb
  held := rfl
  names _ := rfl
  alternates b mb := by
    unfold World.alternates World.enter
    show b ∈ (w.detours ++ [d]).flatMap MethodDetour.alternates
    rw [List.flatMap_append]
    exact List.mem_append_left _ mb
  trampolines _ _ := rfl
  fronts _ _ := rfl
  chains _ other := chain?_withChain_of_ne (w.enter d) (f := ({ · with root := some d.id }))
    (fun _ => rfl) other
  front k' p there := by
    unfold front? at there ⊢
    by_cases it : k' = k
    · subst it
      rw [chain?_withChain _ k' (f := ({ · with root := some d.id })) fun _ => rfl,
        show (w.enter d).chain? k' = some c from here]
      rw [here] at there
      exact there
    · rw [chain?_withChain_of_ne (w.enter d) (f := ({ · with root := some d.id }))
        (fun _ => rfl) it]
      exact there
  patched k' ours' := by
    by_cases it : k' = k
    · subst it
      have now : ((w.enter d).withChain k' ({ · with root := some d.id })).chain? k' =
          some { c with root := some d.id } := by
        rw [chain?_withChain _ k' (f := ({ · with root := some d.id })) fun _ => rfl,
          show (w.enter d).chain? k' = some c from here]
        rfl
      rw [patched?_eq now, patched?_eq here, patchOf_of_rootless root]
      exact (patchOf_eq rfl (detour?_enter numbered)).trans bare
    · unfold patched?
      rw [chain?_withChain_of_ne (w.enter d) (f := ({ · with root := some d.id }))
        (fun _ => rfl) it]
      refine Option.bind_congr fun c' here' => ?_
      refine congrArg (·.bind MethodDetour.redirection) (Option.bind_congr fun id root' => ?_)
      obtain ⟨x, _, found, _⟩ := (g.chains k' c' (ours'.trans ours) here').root id root'
      exact (detour?_enter_of_found found).trans found.symm

/-- A hook that was not there before does not count. -/
theorem narrow {e : ChainKey × ChainNode} (h : Unmoved k { S with hooks := e :: S.hooks } S' w w')
    (gone : e ∉ S'.hooks) : Unmoved k S S' w w' where
  toPasses := ⟨fun x mx => (List.mem_cons.mp (h.hooks x mx)).resolve_left fun it => gone (it ▸ mx),
    h.proxies⟩
  seeks := h.seeks
  holdings := h.holdings
  held := h.held
  names := h.names
  alternates := h.alternates
  trampolines := h.trampolines
  fronts := h.fronts
  chains := h.chains
  front := h.front
  patched := h.patched

end Unmoved

/-! ## Pointing stubs elsewhere -/

/-- Stubs were pointed at functions in `G` or at replaced code, and that is all. -/
structure Guided (μ : Nat) (G : Set Nat) (S S' : Store) (w w' : World) : Prop
    extends S.Passes S' where
  alternates : ∀ b ∈ w.alternates, b ∈ w'.alternates
  trampolines : ∀ e ∈ S'.hooks,
    e.2.trampoline.target w'.machine = e.2.trampoline.target w.machine ∨
      Goal G w' (e.2.trampoline.target w'.machine)
  fronts : ∀ k p, k.manager = μ → (w'.patched? k).isSome → w'.front? k = some p →
    ((w.patched? k).isSome ∧ w.front? k = some p ∧ p.target w'.machine = p.target w.machine) ∨
      Goal G w' (p.target w'.machine)

namespace Guided

theorem trans (h : Guided μ G S S' w w') (h' : Guided μ G S' S'' w' w'') :
    Guided μ G S S'' w w'' := by
  refine ⟨h.toPasses.trans h'.toPasses, fun b mb => h'.alternates b (h.alternates b mb),
    fun e me => ?_, fun k p ours patched front => ?_⟩
  · rcases h'.trampolines e me with same | there
    · rw [same]
      exact (h.trampolines e (h'.hooks e me)).imp_right (·.mono (fun _ mt => mt) h'.alternates)
    · exact Or.inr there
  · rcases h'.fronts k p ours patched front with ⟨before, front₁, same⟩ | there
    · rw [same]
      exact (h.fronts k p ours before front₁).imp_right (·.mono (fun _ mt => mt) h'.alternates)
    · exact Or.inr there

theorem mono (h : Guided μ G S S' w w') (sub : ∀ t ∈ G, t ∈ T) : Guided μ T S S' w w' :=
  ⟨h.toPasses, h.alternates,
    fun e me => (h.trampolines e me).imp_right (·.mono sub fun _ mb => mb),
    fun k p ours patched front => (h.fronts k p ours patched front).imp_right
      (·.mono sub fun _ mb => mb)⟩

/-- A hook that was not there before does not count. -/
theorem narrow {e : ChainKey × ChainNode} (h : Guided μ G { S with hooks := e :: S.hooks } S' w w')
    (gone : e ∉ S'.hooks) : Guided μ G S S' w w' :=
  ⟨⟨fun x mx => (List.mem_cons.mp (h.hooks x mx)).resolve_left fun it => gone (it ▸ mx),
    h.proxies⟩, h.alternates, h.trampolines, h.fronts⟩

/-- The same proxies are in front of the same methods; if another is, it was pointed at a goal. -/
theorem of_leads (g : Kept μ S w) (alternates : ∀ b ∈ w.alternates, b ∈ w'.alternates)
    (leads : ∀ s ∈ S.stubs, s.target w'.machine = s.target w.machine ∨
      Goal G w' (s.target w'.machine))
    (fronts : ∀ k p, k.manager = μ → (w'.patched? k).isSome → w'.front? k = some p →
      ((w.patched? k).isSome ∧ w.front? k = some p) ∨ Goal G w' (p.target w'.machine)) :
    Guided μ G S S w w' := by
  refine ⟨.refl S, alternates, fun e me => leads _ (Store.mem_of_hook me),
    fun k p ours patched front => ?_⟩
  rcases fronts k p ours patched front with ⟨before, front₁⟩ | there
  · rcases leads p (Store.mem_of_proxy (g.mem_of_front ours front₁)) with same | there
    · exact Or.inl ⟨before, front₁, same⟩
    · exact Or.inr there
  · exact Or.inr there

/-- Nothing is done to the machine. -/
theorem quiet (g : Kept μ S w) (q : w.Quiet w') : Guided μ G S S w w' := by
  have target (s : Stub) : s.target w'.machine = s.target w.machine :=
    congrArg (fun a : Arena PageSupply => a.source.memory.word s.cell) q.arena
  refine .of_leads g (fun b mb => q.toBeside.alternates ▸ mb) (fun s _ => Or.inl (target s))
    fun k p _ patched front => Or.inl ⟨?_, ?_⟩
  · rw [← q.toBeside.patched? k]
    exact patched
  · exact (q.toBeside.front? k).symm.trans front

end Guided

/-- What stays as it is points no stub elsewhere. -/
theorem Unmoved.guided (u : Unmoved k S S' w w') (g : Kept μ S w) (ours : k.manager = μ) :
    Guided μ G S S' w w' := by
  refine ⟨u.toPasses, u.alternates, fun e me => Or.inl (u.trampolines e me),
    fun k' p ours' patched front => ?_⟩
  rw [u.patched k' (ours'.trans ours.symm)] at patched
  obtain ⟨r, there⟩ := Option.isSome_iff_exists.mp patched
  obtain ⟨q, before, mq⟩ := g.exists_front ours' there
  obtain rfl := Option.some.inj (front.symm.trans (u.front k' q before))
  exact Or.inl ⟨patched, before, u.fronts (k', p) mq⟩

theorem Leads.guided (l : Leads μ T S w) (h : Guided μ G S S' w w') (sub : ∀ t ∈ G, t ∈ T) :
    Leads μ T S' w' := by
  refine ⟨fun e me => l.targets e (h.hooks e me), fun e me => ?_, fun k p ours patched front => ?_⟩
  · rcases h.trampolines e me with same | there
    · rw [same]
      exact (l.hooks e (h.hooks e me)).mono (fun _ mt => mt) h.alternates
    · exact there.mono sub fun _ mb => mb
  · rcases h.fronts k p ours patched front with ⟨before, front₁, same⟩ | there
    · rw [same]
      exact (l.fronts k p ours before front₁).mono (fun _ mt => mt) h.alternates
    · exact there.mono sub fun _ mb => mb

theorem Leads.mono (l : Leads μ T S w) (sub : ∀ t ∈ T, t ∈ G) : Leads μ G S w :=
  ⟨fun e me => sub _ (l.targets e me), fun e me => (l.hooks e me).mono sub fun _ mb => mb,
    fun k p ours patched front => (l.fronts k p ours patched front).mono sub fun _ mb => mb⟩

/-- A hook gets a trampoline that leads to its function. -/
theorem Leads.takeOn (l : Leads μ T S w) (g : Kept μ S w) {node : ChainNode} {new : List Block}
    (gains : Gains (S.stubs.map Stub.block ++ w.holdings) new w.machine m) (mt : node.target ∈ T)
    (leads : node.trampoline.target m = node.target % wordCount) :
    Leads μ T { S with hooks := (k, node) :: S.hooks } { w with machine := m } := by
  have old (s : Stub) (ms : s ∈ S.stubs) : s.target m = s.target w.machine :=
    g.posts.target_gains ms gains
  refine ⟨fun e me => ?_, fun e me => ?_, fun k p ours patched front => ?_⟩
  · rcases List.mem_cons.mp me with rfl | me
    · exact mt
    · exact l.targets e me
  · rcases List.mem_cons.mp me with rfl | me
    · exact Or.inl ⟨node.target, mt, leads⟩
    · rw [show e.2.trampoline.target m = _ from old _ (Store.mem_of_hook me)]
      exact l.hooks e me
  · have beside := w.beside_machine m
    rw [beside.patched? k] at patched
    rw [beside.front? k] at front
    rw [show p.target m = _ from old p (Store.mem_of_proxy (g.mem_of_front ours front))]
    exact l.fronts k p ours patched front

end World

end Detouring
