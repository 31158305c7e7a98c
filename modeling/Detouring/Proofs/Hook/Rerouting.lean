-- Redirecting the method of a chain to its proxy, seen from all stubs of the manager. The hooks are
-- linked before the jump is written. From then on nothing can fail: the replaced code can be called,
-- so it is mapped, and the jump has its bytes. If anything fails before, no stub was pointed elsewhere.
import Detouring.Proofs.Hook.Confining

namespace Detouring.World

open Op Machine

variable {μ : Nat} {S : Store} {k k' : ChainKey} {c : Chain} {d d' : MethodDetour} {w w' : World}
  {id : Nat} {m m' m₁ : Machine} {stubs : List Stub} {K : List Block} {nodes : List ChainNode}
  {proxy : Stub} {target : Nat} {r : Redirection} {E : World → Prop}

/-! ## Writing the jump -/

/-- Where hooks lead that are linked in front of replaced code. -/
def ways (nodes : List ChainNode) (alternate : Option Block) : Set Nat :=
  {a | (∃ n ∈ nodes, a = n.target % wordCount) ∨ ∃ b, alternate = some b ∧ a = b.base % wordCount}

/-- Hooks lead along the ways of their chain. -/
theorem mem_ways (nodes : List ChainNode) {alternate : Block} :
    ∀ a ∈ alternate.base :: nodes.map ChainNode.target,
      a % wordCount ∈ ways nodes (some alternate) := by
  intro a ma
  rcases List.mem_cons.mp ma with rfl | ma
  · exact Or.inr ⟨alternate, rfl, rfl⟩
  · obtain ⟨n, mn, rfl⟩ := List.mem_map.mp ma
    exact Or.inl ⟨n, mn, rfl⟩

/-- Code was redirected to the proxy, with these hooks linked in front of it. The stubs stand and lead
where they led or along the ways of the hooks, and nothing was done to the blocks in `K`. -/
structure Steered (stubs : List Stub) (K : List Block) (nodes : List ChainNode) (proxy : Stub)
    (m : Machine) (r : Redirection) (m' : Machine) : Prop extends Spares K m m' where
  posts : m'.Posts stubs (r.blocks ++ K)
  stands : r.Stands m'
  covers : r.patch.Covers m m'
  leads : ∀ s ∈ stubs, s.target m' = s.target m ∨ s.target m' ∈ ways nodes r.alternate
  front : proxy.target m' ∈ ways nodes r.alternate
  linked : ∀ entry, r.entry? = some entry → Chain.Linked m'.memory proxy nodes entry
  others : ∀ s ∈ stubs, s ≠ proxy → (∀ n ∈ nodes, s ≠ n.trampoline) → s.target m' = s.target m

/-- Of the machine only the arena counts. -/
theorem Steered.of_arena (h : Steered stubs K nodes proxy m₁ r m') (same : m₁.arena = m.arena) :
    Steered stubs K nodes proxy m r m' := by
  obtain ⟨arena, log⟩ := m
  obtain ⟨arena₁, log₁⟩ := m₁
  cases same
  obtain ⟨⟨blocks, foreign, guards⟩, posts, stands, ⟨backup, beside⟩, leads, front, linked, others⟩ := h
  exact ⟨⟨blocks, foreign, guards⟩, posts, stands, ⟨backup, beside⟩, leads, front, linked, others⟩

/-- What became of code that was to be redirected. The jump may only lie over code of others. -/
structure Rerouted (stubs : List Stub) (K : List Block) (nodes : List ChainNode) (proxy : Stub)
    (target : Nat) (m : Machine) (r : Redirection) (m' : Machine) : Prop where
  packed : m'.Packed
  callable : r.alternate.isSome
  target : r.target = target
  done : (∀ i < r.patch.jump.size, m.Foreign (r.source + i)) →
    Steered stubs K nodes proxy m r m'

theorem Rerouted.of_arena (h : Rerouted stubs K nodes proxy target m₁ r m')
    (same : m₁.arena = m.arena) : Rerouted stubs K nodes proxy target m r m' := by
  have foreign (x : Nat) : m₁.Foreign x ↔ m.Foreign x := by
    unfold Machine.Foreign Machine.memory
    rw [same]
  exact ⟨h.packed, h.callable, h.target, fun covered =>
    (h.done fun i hi => (foreign _).mpr (covered i hi)).of_arena same⟩

/-- The blocks of a plan come between the stubs and the rest. -/
theorem perm_between (L blocks K : List Block) : (blocks ++ (L ++ K)).Perm (L ++ (blocks ++ K)) := by
  rw [← List.append_assoc, ← List.append_assoc]
  exact List.perm_append_comm.append_right K

/-- Hooks whose stubs were put up, and that can be linked behind the proxy. -/
structure Linkable (stubs : List Stub) (nodes : List ChainNode) (proxy : Stub) : Prop where
  hooks : ∀ n ∈ nodes, n.trampoline ∈ stubs
  front : proxy ∈ stubs
  once : nodes.Pairwise fun a b => a.trampoline ≠ b.trampoline
  first : ∀ n ∈ nodes, proxy ≠ n.trampoline

section Threading

variable {p : RedirectionPlan} {source : Nat}

/-- Hooks were linked in front of the code of a plan, before the jump to the proxy is written. -/
structure Threaded (stubs : List Stub) (K : List Block) (nodes : List ChainNode) (proxy : Stub)
    (p : RedirectionPlan) (m m' : Machine) : Prop extends Spares K m m' where
  posts : m'.Posts stubs (p.blocks ++ K)
  code : ∀ x, m.Foreign x → m'.memory.bytes x = m.memory.bytes x
  leads : ∀ s ∈ stubs, s.target m' = s.target m ∨ s.target m' ∈ ways nodes p.alternate
  front : proxy.target m' ∈ ways nodes p.alternate
  linked : ∀ b, p.alternate = some b → Chain.Linked m'.memory proxy nodes b.base
  others : ∀ s ∈ stubs, s ≠ proxy → (∀ n ∈ nodes, s ≠ n.trampoline) → s.target m' = s.target m

theorem exists_threaded (posts : m.Posts stubs K) (linkable : Linkable stubs nodes proxy)
    (gained : Gains (stubs.map Stub.block ++ K) p.blocks m m₁) {alternate : Block}
    (callable : p.alternate = some alternate) :
    ∃ memory, Chain.link nodes proxy alternate.base m₁ = m₁.withMemory memory ∧
      memory.places = m₁.memory.places ∧
      Threaded stubs K nodes proxy p m (m₁.withMemory memory) := by
  have posts₁ : m₁.Posts stubs (p.blocks ++ K) :=
    posts.spared (gained.toSpares.mono (List.subset_append_left _ _))
      (gained.holds.mono (perm_between _ _ _).symm.subperm)
  obtain ⟨memory, link, places, word, pointed⟩ :=
    posts₁.link linkable.hooks linkable.front (mem_ways _)
  obtain ⟨linked, others⟩ :=
    posts₁.linked linkable.hooks linkable.front linkable.once linkable.first link
  have spares : Spares K m (m₁.withMemory memory) :=
    (gained.toSpares.mono (List.subset_append_right _ _)).trans
      (pointed.toSpares.mono (List.subset_append_right _ _))
  refine ⟨memory, link, places, spares, pointed.posts,
    fun x f => (pointed.code x (gained.foreign x f)).trans (gained.code x f), fun s ms => ?_, ?_,
    fun b there => ?_, fun s ms aside beside =>
      (others s ms aside beside).trans (posts.target_gains ms gained)⟩
  · rw [callable, ← posts.target_gains ms gained]
    exact pointed.leads s ms
  · rw [callable]
    refine Set.mem_of_eq_of_mem word (mem_ways _ _ ?_)
    cases nodes with
    | nil => exact List.mem_cons_self
    | cons n rest => exact List.mem_cons_of_mem _ List.mem_cons_self
  · obtain rfl := Option.some.inj (callable.symm.trans there)
    exact linked

/-- Then the jump is written, which leaves the stubs alone. -/
theorem Threaded.steered (t : Threaded stubs K nodes proxy p m m₁)
    (linkable : Linkable stubs nodes proxy) (kept : r.alternate = p.alternate)
    (carried : Redirection.Carried (stubs.map Stub.block ++ K) source target m₁ r m')
    (covered : ∀ i < r.patch.jump.size, m.Foreign (r.source + i)) :
    Steered stubs K nodes proxy m r m' := by
  have here := covered
  rw [carried.here] at here
  obtain ⟨holds, spares, stands, covers⟩ := carried.done fun i hi => t.foreign _ (here i hi)
  have blocks := spares.mono (List.subset_append_left (stubs.map Stub.block) K)
  have stays {s : Stub} (ms : s ∈ stubs) : s.target m' = s.target m₁ := t.posts.target_eq ms blocks
  refine ⟨t.toSpares.trans (spares.mono (List.subset_append_right _ _)),
    t.posts.spared blocks (holds.mono (perm_between _ _ _).symm.subperm), stands,
    covers.since t.foreign t.code covered, fun s ms => ?_, ?_, fun entry callable => ?_,
    fun s ms aside beside => (stays ms).trans (t.others s ms aside beside)⟩
  · rw [kept, stays ms]
    exact t.leads s ms
  · rw [kept, stays linkable.front]
    exact t.front
  · obtain ⟨b, there, rfl⟩ := Option.map_eq_some_iff.mp callable
    exact (t.linked b (kept ▸ there)).congr (stays linkable.front) fun n mn =>
      stays (linkable.hooks n mn)

end Threading

theorem redirect_reroutes (keeps : w.platform.keepsReplacedCode = true)
    (posts : w.machine.Posts stubs K) (packed : w.machine.Packed)
    (linkable : Linkable stubs nodes proxy) {source : Nat}
    (inland : source + 6 < wordCount) (target : Nat) :
    (redirect source target (linkTo nodes proxy)).Ends w
      (fun r w' => w.Beside w' ∧ Rerouted stubs K nodes proxy target w.machine r w'.machine)
      (fun w' => ∃ machine, w' = { w with machine } ∧
        Gains (stubs.map Stub.block ++ K) [] w.machine machine ∧ machine.Packed) := by
  apply redirect_rule
  let a := w.platform.architecture
  let settings := w.platform.settings
  apply ((RedirectionPlan.make_ends posts.holds a settings source target none).and
    ((RedirectionPlan.make_packed posts.holds packed a settings source target none).and
      (RedirectionPlan.make_ready posts.holds packed inland a settings target none))).mono
  · rintro p m₁ ⟨⟨gained, leads, callable⟩, packed₁, ready⟩
    have there := callable keeps
    obtain ⟨alternate, callable⟩ := Option.isSome_iff_exists.mp there
    have entry : p.entry? = some alternate.base := by
      unfold RedirectionPlan.entry?
      rw [callable]
      rfl
    obtain ⟨memory, link, places, threaded⟩ := exists_threaded posts linkable gained callable
    have holds : (m₁.withMemory memory).Holds (p.blocks ++ (stubs.map Stub.block ++ K)) :=
      threaded.posts.holds.mono (perm_between _ _ _).subperm
    have packed₂ : (m₁.withMemory memory).Packed := packed₁.of_pages rfl
    unfold linkTo
    rw [entry]
    apply changeMachine_ends
    rw [link]
    apply ((Redirection.ofPlan_ends holds leads).and
      ((Redirection.ofPlan_packed packed₂ p).and
        (Redirection.ofPlan_ready holds.regular ((ready there).withMemory places)))).mono
    · rintro r m₃ ⟨⟨kept, carried⟩, packed₃, _⟩
      exact ⟨w.beside_machine m₃, packed₃, kept ▸ there, carried.leads,
        threaded.steered linkable kept carried⟩
    · exact fun _ left => left.2.2.elim
  · exact fun m₁ ⟨back, packed₁, _⟩ => ⟨m₁, rfl, back, packed₁⟩

/-! ## Applying the detour -/

/-- The bodies of the method and of the proxy are found, and the one is redirected to the other. -/
theorem establish_reroutes (keeps : w.platform.keepsReplacedCode = true)
    (posts : w.machine.Posts stubs K) (packed : w.machine.Packed)
    (linkable : Linkable stubs nodes proxy) (still : w.Still d.source)
    (inland : w.Inland d.source) (function : d.target = .function target) :
    (establish d (linkTo nodes proxy)).Ends w
      (fun result w' => w.Beside w' ∧
        Rerouted stubs K nodes proxy target w.machine result.2 w'.machine)
      (fun w' => w.Beside w' ∧ w.Seeks d.source w' ∧
        Gains (stubs.map Stub.block ++ K) [] w.machine w'.machine ∧ w'.machine.Packed) := by
  -- What was found quietly, and what was pinned, makes no difference.
  have still' {w' : World} (quiet : w.Quiet w') (sought : w.Seeks d.source w') :
      w.Beside w' ∧ w.Seeks d.source w' ∧
        Gains (stubs.map Stub.block ++ K) [] w.machine w'.machine ∧ w'.machine.Packed :=
    ⟨quiet.toBeside, sought, .of_arena posts.holds quiet.arena, packed.of_arena quiet.arena⟩
  apply establish_rule fun w' told _ => still' told.quiet (.aside told.aside)
  intro pins w₁ inPlace
  have quiet₁ := inPlace.told.quiet
  have sought₁ : w.Seeks d.source w₁ := .aside inPlace.told.aside
  have released {w' : World} : w'.Seeks d.source (unpin pins w') := .aside (Told.aside ⟨_, rfl⟩)
  apply ((inland.seeks sought₁).resolve (still.congr quiet₁.toBeside)).mono _ fun w' left =>
    still' ((quiet₁.trans left.1).trans (w'.quiet_tell _)) ((sought₁.trans left.2).trans released)
  rintro body w₂ ⟨⟨quiet, sought⟩, low⟩
  have quiet₂ := quiet₁.trans quiet
  have sought₂ := sought₁.trans sought
  rw [function]
  apply (resolve_function w₂ target).mono (F := fun _ => False) _ fun _ h => h.elim
  rintro _ _ ⟨rfl, rfl⟩
  apply (redirect_reroutes (quiet₂.platform ▸ keeps) (posts.of_arena quiet₂.arena)
    (packed.of_arena quiet₂.arena) linkable low _).mono
  · exact fun r w₃ ⟨beside, rerouted⟩ =>
      ⟨quiet₂.toBeside.trans beside, rerouted.of_arena quiet₂.arena⟩
  · rintro _ ⟨machine, rfl, gains, packed₃⟩
    exact ⟨(quiet₂.toBeside.trans (beside_machine _ machine)).trans (quiet_tell _ _).toBeside,
      (sought₂.trans (.aside (aside_gains gains))).trans released,
      (Gains.of_arena posts.holds quiet₂.arena).trans gains, packed₃⟩

/-! ## The detour of a chain -/

/-- The functions that these hooks lead to. -/
def functions (nodes : List ChainNode) : Set Nat := {t | ∃ n ∈ nodes, n.target = t}

/-- Ways of a chain are goals. -/
theorem goal_of_ways {a : Nat} (h : a ∈ ways nodes r.alternate)
    (kept : ∀ b, r.alternate = some b → b ∈ w.alternates) : Goal (functions nodes) w a := by
  rcases h with ⟨n, mn, same⟩ | ⟨b, callable, same⟩
  · exact Or.inl ⟨n.target, ⟨n, mn, rfl⟩, same⟩
  · exact Or.inr ⟨b, kept b callable, same⟩

/-- Each chain has a detour of its own. -/
theorem Kept.roots_apart (g : Kept μ S w) (ours : k.manager = μ) (here : w.chain? k = some c)
    (root : c.root = some id) {c' : Chain} {id' : Nat} (ours' : k'.manager = μ)
    (here' : w.chain? k' = some c') (root' : c'.root = some id') (other : k' ≠ k) : id' ≠ id := by
  intro it
  obtain ⟨d', _, found', _, source', _⟩ := (g.chains k' c' ours' here').root id' root'
  obtain ⟨d, _, found, _, source, _⟩ := (g.chains k c ours here).root id root
  rw [it, found] at found'
  obtain rfl := Option.some.inj found'
  exact ChainKey.method_ne (ours'.trans ours.symm) other (source'.symm.trans source)

/-- What the redirections of others have is not counted for this one. -/
theorem Kept.mem_holdings_without {b : Block} (g : Kept μ S w) (ours : k.manager = μ)
    (here : w.chain? k = some c) (root : c.root = some id) (ours' : k'.manager = μ) (other : k' ≠ k)
    (patched : w.patched? k' = some r) (mb : b ∈ r.blocks) : b ∈ (w.without id).holdings := by
  obtain ⟨c', here', patch⟩ := Option.bind_eq_some_iff.mp patched
  obtain ⟨id', d', root', found', redirection⟩ := root_of_patchOf patch
  have aside : d'.id ≠ id :=
    id_of_detour found' ▸ g.roots_apart ours here root ours' here' root' other
  refine List.mem_flatMap.mpr
    ⟨d', List.mem_filter.mpr ⟨List.mem_of_find?_eq_some found', by simpa using aside⟩, ?_⟩
  rw [MethodDetour.blocks_of_patched redirection]
  exact List.mem_append_left _ mb

/-- The detour of one method has changed. Others are detoured as before. -/
theorem Kept.patched?_becomes (g : Kept μ S w) (d' : MethodDetour) (ours : k.manager = μ)
    (here : w.chain? k = some c) (root : c.root = some d.id) (found : w.detour? d.id = some d) (same : d'.id = d.id)
    (b : w.Becomes d' w') : w'.patched? k = d'.redirection ∧
      ∀ k', k'.manager = μ → k' ≠ k → w'.patched? k' = w.patched? k' := by
  have chain (k : ChainKey) : w'.chain? k = w.chain? k := (Beside.chain? b k).trans rfl
  have now : w'.detour? d.id = some d' := same ▸ b.detour? (same.symm ▸ found)
  refine ⟨?_, fun k' ours' other => ?_⟩
  · unfold patched?
    rw [chain, here]
    exact patchOf_eq root now
  · unfold patched?
    rw [chain]
    refine Option.bind_congr fun c' here' => ?_
    unfold patchOf
    refine congrArg (·.bind MethodDetour.redirection) (Option.bind_congr fun id' root' => ?_)
    exact b.detour?_of_ne (same ▸ g.roots_apart ours here root ours' here' root' other)

/-- The detour of a chain has changed. Where it is applied, it was applied before, or the proxy was
pointed at a goal. -/
theorem Guided.of_becomes {G : Set Nat} (d' : MethodDetour) (g : Kept μ S w)
    (ours : k.manager = μ) (here : w.chain? k = some c) (root : c.root = some d.id) (found : w.detour? d.id = some d)
    (same : d'.id = d.id) (b : w.Becomes d' w') (more : ∀ x ∈ d.alternates, x ∈ d'.alternates)
    (leads : ∀ s ∈ S.stubs, s.target w'.machine = s.target w.machine ∨
      Goal G w' (s.target w'.machine))
    (front : d'.redirection.isSome → d.redirection.isSome ∨
      ∀ p, c.proxy = some p → Goal G w' (p.target w'.machine)) : Guided μ G S S w w' := by
  obtain ⟨now, others⟩ := g.patched?_becomes d' ours here root found same b
  have chain (k : ChainKey) : w'.chain? k = w.chain? k := (Beside.chain? b k).trans rfl
  refine .of_leads g (b.alternates (same.symm ▸ found) g.numbered more) leads
    fun k' p ours' patched there => ?_
  have there' : w.front? k' = some p := by
    unfold front? at there ⊢
    rw [← chain]
    exact there
  by_cases it : k' = k
  · subst it
    rw [now] at patched
    rcases front patched with before | goal
    · refine Or.inl ⟨?_, there'⟩
      rw [patched?_eq here, patchOf_eq root found]
      exact before
    · refine Or.inr (goal p ?_)
      unfold front? at there'
      rw [here] at there'
      exact there'
  · exact Or.inl ⟨others k' ours' it ▸ patched, there'⟩

/-- Stubs of a chain were pointed elsewhere. Those of the others lead where they led. -/
theorem Kept.others_stay (g : Kept μ S w) (ours : k.manager = μ) (hp : (k, proxy) ∈ S.proxies)
    (sub : ∀ n ∈ nodes, (k, n) ∈ S.hooks)
    (others : ∀ s ∈ S.stubs, s ≠ proxy → (∀ n ∈ nodes, s ≠ n.trampoline) →
      s.target m' = s.target w.machine) :
    (∀ k', k'.manager = k.manager → k' ≠ k → ∀ n ∈ w.members k',
      n.trampoline.target m' = n.trampoline.target w.machine) ∧
    ∀ k' p, k'.manager = k.manager → k' ≠ k → w.front? k' = some p →
      p.target m' = p.target w.machine := by
  refine ⟨fun k' ours' other n mn => ?_, fun k' p ours' other front => ?_⟩
  · have me := g.mem_of_member (ours'.trans ours) mn
    exact others _ (Store.mem_of_hook me) (g.proxy_ne_trampoline hp me).symm fun n' mn' =>
      g.trampolines_apart me (sub n' mn') fun same => other (congrArg Prod.fst same)
  · have mp := g.mem_of_front (ours'.trans ours) front
    exact others _ (Store.mem_of_proxy mp)
      (g.proxies_apart mp hp fun same => other (congrArg Prod.fst same)) fun n' mn' =>
      g.proxy_ne_trampoline mp (sub n' mn')

theorem Kept.linkable (g : Kept μ S w) (hp : (k, proxy) ∈ S.proxies)
    (sub : ∀ n ∈ nodes, (k, n) ∈ S.hooks) (once : nodes.Nodup) : Linkable S.stubs nodes proxy where
  hooks n mn := Store.mem_of_hook (sub n mn)
  front := Store.mem_of_proxy hp
  once := once.imp_of_mem fun ma mb other =>
    g.trampolines_apart (sub _ ma) (sub _ mb) fun same => other (congrArg Prod.snd same)
  first n mn := g.proxy_ne_trampoline hp (sub n mn)

/-- The method of a chain is detoured with these hooks linked in front of it, and others are left
alone. -/
structure Hitched (k : ChainKey) (nodes : List ChainNode) (proxy : Stub) (w w' : World) : Prop where
  confined : Confined k w w'
  armed : Armed k w → Armed k w'
  patched : (w'.patched? k).isSome
  linked : ∀ r entry, w'.patched? k = some r → r.entry? = some entry →
    Chain.Linked w'.machine.memory proxy nodes entry

section Applying

variable {pins : List Method}

/-- The replaced code of a detour that was applied is known. -/
theorem mem_alternates_redirected (found : w.detour? d.id = some d)
    (b : w.Becomes { d.redirected r with busy := false, pins } w') :
    ∀ x, r.alternate = some x → x ∈ w'.alternates := fun _ callable =>
  mem_alternates (List.mem_of_find?_eq_some
    (b.detour? (d := { d.redirected r with busy := false, pins }) found)) rfl callable

theorem Steered.kept (steered : Steered S.stubs w.holdings nodes proxy w.machine r w'.machine)
    (g : Kept μ S w) (found : w.detour? d.id = some d) (none : d.redirection = none)
    (b : w.Becomes { d.redirected r with busy := false, pins } w') (packed : w'.machine.Packed)
    (callable : r.alternate.isSome) : Kept μ S w' := by
  let d' : MethodDetour := { d.redirected r with busy := false, pins }
  refine g.becomes d' found ⟨rfl, rfl, rfl, rfl, rfl⟩ rfl b (steered.posts.recount ?_) packed
    steered.foreign fun r' hr => ?_
  · refine (List.Perm.append_left _ ?_).subperm
    rw [MethodDetour.blocks_of_patched (d := d') rfl, List.append_assoc]
    refine List.Perm.append_left _ ?_
    have perm := holdings_perm g.numbered.ids (List.mem_of_find?_eq_some found)
    rw [MethodDetour.blocks_of_bare none] at perm
    exact perm.symm
  · obtain rfl := Option.some.inj hr
    exact ⟨steered.stands.toLaid, callable⟩

theorem Steered.guided (steered : Steered S.stubs w.holdings nodes proxy w.machine r w'.machine)
    (g : Kept μ S w) (ours : k.manager = μ) (here : w.chain? k = some c) (root : c.root = some d.id)
    (hp : c.proxy = some proxy) (found : w.detour? d.id = some d) (none : d.redirection = none)
    (b : w.Becomes { d.redirected r with busy := false, pins } w') :
    Guided μ (functions nodes) S S w w' := by
  let d' : MethodDetour := { d.redirected r with busy := false, pins }
  have kept := mem_alternates_redirected found b
  refine .of_becomes d' g ours here root found rfl b (fun x mx => ?_)
    (fun s ms => (steered.leads s ms).imp_right fun way => goal_of_ways way kept)
    (fun _ => Or.inr fun p hp' => ?_)
  · unfold MethodDetour.alternates at mx
    rw [none] at mx
    exact List.mem_append_right _ mx
  · obtain rfl := Option.some.inj (hp.symm.trans hp')
    exact goal_of_ways steered.front kept

theorem Steered.hitched (steered : Steered S.stubs w.holdings nodes proxy w.machine r w'.machine)
    (g : Kept μ S w) (ours : k.manager = μ) (here : w.chain? k = some c) (root : c.root = some d.id)
    (hp : c.proxy = some proxy) (found : w.detour? d.id = some d) (bare : w.patched? k = none)
    (target : r.target = proxy.entry) (sub : ∀ n ∈ nodes, (k, n) ∈ S.hooks)
    (b : w.Becomes { d.redirected r with busy := false, pins } w') :
    Hitched k nodes proxy w w' := by
  let d' : MethodDetour := { d.redirected r with busy := false, pins }
  have chain (k : ChainKey) : w'.chain? k = w.chain? k := (Beside.chain? b k).trans rfl
  obtain ⟨patched, others⟩ := g.patched?_becomes d' ours here root found rfl b
  have patched : w'.patched? k = some r := patched
  have front := (g.chains k c ours here).proxy proxy hp
  refine ⟨?_, fun _ r' there' => ?_, ?_, fun r' entry there' => ?_⟩
  · obtain ⟨trampolines, fronts⟩ := g.others_stay ours front sub steered.others
    refine ⟨fun k' _ => chain k', fun k' ours' => others k' (ours'.trans ours), trampolines, fronts,
      fun _ r' _ _ there' b mb => steered.blocks b (mem_holdings_of_patched there' mb),
      steered.foreign, fun x f => ?_, steered.guards⟩
    rw [beneath_of_patched patched, beneath_of_bare bare]
    exact steered.covers.beneath f
  · obtain rfl := Option.some.inj (patched.symm.trans there')
    exact ⟨steered.stands, proxy, (congrArg (·.bind Chain.proxy) ((chain k).trans here)).trans hp,
      target⟩
  · rw [patched]
    rfl
  · obtain rfl := Option.some.inj (patched.symm.trans there')
    exact steered.linked entry

end Applying

/-- The method of a chain is detoured with these hooks linked, or nothing was pointed elsewhere. -/
theorem applyDetour_reroutes {code : Set Nat} (g : Kept μ S w) (ours : k.manager = μ)
    (here : w.chain? k = some c) (root : c.root = some id) (bare : w.patched? k = none)
    (hp : c.proxy = some proxy) (sub : ∀ n ∈ nodes, (k, n) ∈ S.hooks) (once : nodes.Nodup)
    (foreign : ∀ a ∈ code, w.machine.Foreign a) (inland : w.Inland k.method) :
    (applyDetour id (linkTo nodes proxy)).Ends w
      (fun _ w' => w'.held = w.held ∧ w'.chain? k = some c ∧ (w'.Covered code k →
        Kept μ S w' ∧ Guided μ (functions nodes) S S w w' ∧ Hitched k nodes proxy w w'))
      (fun w' => w'.chain? k = some c ∧ w'.patched? k = none ∧ Kept μ S w' ∧
        Unmoved k S S w w') := by
  obtain ⟨d, p, found, hp', source, target⟩ := (g.chains k c ours here).root id root
  obtain rfl := Option.some.inj (hp.symm.trans hp')
  obtain rfl := id_of_detour found
  have anchored := g.found found
  have redirection : d.redirection = none :=
    (patchOf_eq root found).symm.trans ((patched?_eq here).symm.trans bare)
  have still : w.Still k.method := g.still ours here bare
  have front := (g.chains k c ours here).proxy proxy hp
  let d₀ : MethodDetour := { d with busy := true }
  have started : w.Seeks d.source (w.put d₀) := .aside (.still rfl rfl rfl)
  have established := establish_reroutes (d := d) (w := w.put d₀) g.keeps
    (show (w.put d₀).machine.Posts S.stubs w.holdings from g.posts) g.packed
    (g.linkable front sub once) (source ▸ still.put found rfl redirection)
    ((source ▸ inland).seeks started) target
  apply (applyDetour_beside found redirection anchored.idle established).mono
  · rintro ⟨⟩ w' ⟨w₁, pins, r, rerouted, b, machine⟩
    let d' : MethodDetour := { d.redirected r with busy := false, pins }
    have patched : w'.patched? k = some r :=
      (g.patched?_becomes d' ours here root found rfl b).1
    refine ⟨b.held, ((Beside.chain? b k).trans rfl).trans here, fun covered => ?_⟩
    have steered := rerouted.done fun i hi => foreign _ (covered r patched i hi)
    rw [← machine] at steered
    exact ⟨steered.kept g found redirection b (machine ▸ rerouted.packed) rerouted.callable,
      steered.guided g ours here root hp found redirection b,
      steered.hitched g ours here root hp found bare rerouted.target sub b⟩
  · rintro _ ⟨w₁, ⟨sought, gains, packed⟩, becomes, rfl⟩
    have same : { d with busy := false } = d := by rw [← anchored.idle]
    rw [same] at becomes ⊢
    have b : w.Beside (w₁.put d) := by rwa [Becomes, g.numbered.put_self found] at becomes
    have left : w.Seeks k.method (w₁.put d) :=
      source ▸ (started.trans sought).trans (.aside (.still rfl rfl rfl))
    exact ⟨(b.chain? k).trans here, (b.patched? k).trans bare,
      g.beside b (g.posts.gains gains) packed gains.foreign, .of_beside b left (.refl S)
        (fun _ mb => gains.blocks _ (List.mem_append_right _ mb))
        (fun _ me => g.posts.target_gains (Store.mem_of_hook me) gains)
        fun _ me => g.posts.target_gains (Store.mem_of_proxy me) gains⟩

/-- While the method is detoured, the hooks are linked in front of its replaced code. -/
theorem linkTo_reroutes (g : Kept μ S w) (ours : k.manager = μ) (here : w.chain? k = some c)
    (patched : w.patched? k = some r) (hp : c.proxy = some proxy)
    (sub : ∀ n ∈ nodes, (k, n) ∈ S.hooks) (once : nodes.Nodup) :
    (linkTo nodes proxy r.entry?).Ends w
      (fun _ w' => w.Beside w' ∧ Kept μ S w' ∧ Guided μ (functions nodes) S S w w' ∧
        Hitched k nodes proxy w w') E := by
  obtain ⟨id, d, _, found, redirection⟩ :=
    root_of_patchOf ((patched?_eq here).symm.trans patched)
  obtain ⟨alternate, callable⟩ :=
    Option.isSome_iff_exists.mp ((g.found found).laid r redirection).2
  have entry : r.entry? = some alternate.base := by
    unfold Redirection.entry?
    rw [callable]
    rfl
  have front := (g.chains k c ours here).proxy proxy hp
  have linkable := g.linkable front sub once
  obtain ⟨memory, link, _, _, pointed⟩ := g.posts.link linkable.hooks linkable.front (mem_ways nodes)
  obtain ⟨linked, others⟩ :=
    g.posts.linked linkable.hooks linkable.front linkable.once linkable.first link
  have beside := w.beside_machine (w.machine.withMemory memory)
  have kept : ∀ x, r.alternate = some x → x ∈
      ({ w with machine := w.machine.withMemory memory } : World).alternates := fun x there =>
    mem_alternates (List.mem_of_find?_eq_some found) redirection there
  unfold linkTo
  rw [entry]
  apply changeMachine_ends
  rw [link]
  refine ⟨beside, g.beside beside pointed.posts (g.packed.of_pages rfl) pointed.foreign,
    .of_leads g (fun _ mb => mb) (fun s ms => (pointed.leads s ms).imp_right fun way =>
      goal_of_ways (callable ▸ way) kept) fun k' p _ there front' => Or.inl ⟨?_, ?_⟩, ?_⟩
  · rw [← beside.patched? k']
    exact there
  · exact (beside.front? k').symm.trans front'
  · obtain ⟨trampolines, fronts⟩ := g.others_stay ours front sub others
    refine ⟨⟨fun k' _ => beside.chain? k', fun k' _ _ => beside.patched? k', trampolines, fronts,
      fun _ r' _ _ there b mb => pointed.blocks b (mem_holdings_of_patched there mb),
      pointed.foreign, fun x f => beneath_congr (beside.patched? k) (pointed.code x f),
      pointed.guards⟩, fun armed => ?_, ?_, fun r' entry' there callable' => ?_⟩
    · exact armed.congr (beside.patched? k) (fun p there => (beside.front? k).trans there)
        (fun r there i hi => have f := (g.laid there).1.foreign i hi
          ⟨pointed.foreign _ f, pointed.code _ f⟩)
        fun r there b mb => pointed.blocks b (mem_holdings_of_patched there mb)
    · rw [beside.patched? k, patched]
      rfl
    · rw [beside.patched? k, patched] at there
      obtain rfl := Option.some.inj there
      obtain rfl := Option.some.inj (entry.symm.trans callable')
      exact linked

/-! ## Undoing it -/

/-- A detour gives up its cell, and keeps the code that was replaced. -/
theorem posts_abandon (posts : m.Posts stubs w.holdings)
    (n : w.Numbered) (found : w.detour? d.id = some d) (patched : d.redirection = some r) :
    (r.abandon m).Posts stubs ((d.withdrawn r).retired ++ (w.without d.id).holdings) ∧
      (∀ s ∈ stubs, s.target (r.abandon m) = s.target m) ∧
      Gains (w.without d.id).holdings [] m (r.abandon m) := by
  have perm := holdings_perm n.ids (List.mem_of_find?_eq_some found)
  rw [MethodDetour.blocks_of_patched patched, List.append_assoc] at perm
  have gained : Gains (r.alternate.toList ++ (stubs.map Stub.block ++
      (d.retired ++ (w.without d.id).holdings))) [] m (r.abandon m) := by
    refine Redirection.abandon_gains (posts.holds.mono (List.Perm.subperm ?_))
    exact (perm_between _ _ _).trans (perm.symm.append_left _)
  have sparing : Spares (stubs.map Stub.block) m (r.abandon m) :=
    gained.toSpares.mono (List.subset_append_of_subset_right _ (List.subset_append_left _ _))
  refine ⟨posts.spared sparing (gained.holds.mono (List.Perm.subperm ?_)),
    fun s ms => posts.target_eq ms sparing, gained.below.below.below.mono (List.nil_sublist _)⟩
  exact ((d.perm_withdrawn r _).append_left _).trans (perm_between _ _ _).symm

/-- The code of the method is written back, all stubs lead where they led, and others are left
alone. -/
theorem undoDetour_reroutes (g : Kept μ S w) (ours : k.manager = μ) (here : w.chain? k = some c)
    (root : c.root = some id) (patched : w.patched? k = some r) :
    (undoDetour id).Ends w (fun _ w' => w'.held = w.held ∧ w'.chain? k = some c ∧
      w'.patched? k = none ∧ Kept μ S w' ∧ Guided μ ∅ S S w w' ∧ Confined k w w') E := by
  obtain ⟨d, proxy, found, hp, _⟩ := (g.chains k c ours here).root id root
  obtain rfl := id_of_detour found
  have redirection : d.redirection = some r :=
    (patchOf_eq root found).symm.trans ((patched?_eq here).symm.trans patched)
  have anchored := g.found found
  have laid := (anchored.laid r redirection).1
  let d' : MethodDetour := { d.withdrawn r with pins := [] }
  apply (undoDetour_becomes found redirection anchored.idle
    ((Redirection.undo_ends g.posts.holds laid (E := fun _ => False)).and
      (Redirection.undo_packed g.packed r))).mono
  · rintro ⟨⟩ w' ⟨b, m, ⟨⟨holds, spares, written⟩, packed⟩, machine⟩
    have b : w.Becomes d' w' := b
    have chain (k : ChainKey) : w'.chain? k = w.chain? k := (Beside.chain? b k).trans rfl
    have stubs := spares.mono (List.subset_append_left (S.stubs.map Stub.block) w.holdings)
    have posts : m.Posts S.stubs w.holdings := g.posts.spared stubs holds
    obtain ⟨posts', target, gains⟩ := posts_abandon posts g.numbered found redirection
    have posts' : (r.abandon m).Posts S.stubs (d'.blocks ++ (w.without d'.id).holdings) := posts'
    have packed' : (r.abandon m).Packed := Redirection.abandon_packed packed r
    have leads (s : Stub) (ms : s ∈ S.stubs) : s.target w'.machine = s.target w.machine := by
      rw [machine, target s ms, g.posts.target_eq ms stubs]
    obtain ⟨bare, others⟩ := g.patched?_becomes d' ours here root found rfl b
    rw [← machine] at posts' packed' gains
    refine ⟨(Beside.held b).trans rfl, (chain k).trans here, bare,
      g.becomes d' found ⟨rfl, rfl, rfl, rfl, rfl⟩ anchored.idle b posts' packed'
        (fun x f => gains.foreign x (spares.foreign x f)) (fun _ hr => by cases hr),
      .of_becomes d' g ours here root found rfl b
        (fun _ mx => List.mem_append_right _ (MethodDetour.mem_retired redirection mx))
        (fun s ms => Or.inl (leads s ms)) (fun some => by cases some), ?_⟩
    have none : ∀ n ∈ ([] : List ChainNode), (k, n) ∈ S.hooks := fun _ mn => by cases mn
    obtain ⟨trampolines, fronts⟩ := g.others_stay ours ((g.chains k c ours here).proxy proxy hp) none
      fun s ms _ _ => leads s ms
    refine ⟨fun k' _ => chain k', fun k' ours' => others k' (ours'.trans ours), trampolines, fronts,
      fun k' r' ours' other there' x mx a has => ?_,
      fun x f => gains.foreign x (spares.foreign x f), fun x f => ?_, fun x f => ?_⟩
    · have aside := g.mem_holdings_without ours here root (ours'.trans ours) other there' mx
      have held := List.mem_append_right (S.stubs.map Stub.block) (mem_holdings_of_patched there' mx)
      exact (gains.blocks x aside a has).trans (spares.blocks x held a has)
    · rw [beneath_of_bare bare, beneath_of_patched patched]
      exact (gains.code x (spares.foreign x f)).trans (written x)
    · exact (gains.guards x (spares.foreign x f)).trans (spares.guards x f)
  · exact fun _ ⟨_, _, never, _⟩ => never.1.elim

end Detouring.World
