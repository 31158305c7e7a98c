-- Bringing the links of a chain up to date, seen from all stubs of the manager. A chain that cannot be
-- linked leaves every stub as it was; one that is linked has pointed stubs at functions of its own
-- hooks and at code that can be called.
import Detouring.Proofs.Hook.Rerouting

namespace Detouring.World

open Op Machine

variable {μ : Nat} {G : Set Nat} {S S' S'' : Store} {code : Set Nat} {k : ChainKey}
  {c c' c'' : Chain} {d : MethodDetour} {w w' w'' : World} {node first : ChainNode}
  {nodes rest : List ChainNode} {proxy : Stub} {E : World → Prop}

/-! ## Preparing the links -/

/-- The chain has the same books, and no stub was pointed elsewhere. -/
structure Prepared (μ : Nat) (k : ChainKey) (S : Store) (c : Chain) (w w' : World) (S' : Store)
    (c' : Chain) : Prop where
  kept : Kept μ S' w'
  unmoved : Unmoved k S S' w w'
  hooks : S'.hooks = S.hooks
  chain : w'.chain? k = some c'
  books : c.SameBooks c'

theorem Prepared.trans (h : Prepared μ k S c w w' S' c') (h' : Prepared μ k S' c' w' w'' S'' c'') :
    Prepared μ k S c w w'' S'' c'' :=
  ⟨h'.kept, h.unmoved.trans h'.unmoved, h'.hooks.trans h.hooks, h'.chain,
    ⟨h'.books.graph.trans h.books.graph, h'.books.unplaced.trans h.books.unplaced,
      h'.books.nodes.trans h.books.nodes, h'.books.retired.trans h.books.retired⟩⟩

theorem Prepared.refl (g : Kept μ S w) (here : w.chain? k = some c) :
    Prepared μ k S c w w S c := ⟨g, .refl k S w, rfl, here, rfl, rfl, rfl, rfl⟩

theorem Prepared.told (g : Kept μ S w) (here : w.chain? k = some c) (h : w.Told w') :
    Prepared μ k S c w w' S c :=
  ⟨g.quiet h.quiet, .told h, rfl, (h.quiet.toBeside.chain? k).trans here, rfl, rfl, rfl, rfl⟩

/-- Someone has listed the hooks anew, and that is all. -/
theorem Prepared.order (h : Prepared μ k S c w w' S' c') (ours : k.manager = μ) (order : List Nat) :
    Prepared μ k S c w (w'.withChain k ({ · with order })) S' { c' with order } := by
  have chained := h.kept.chains k c' ours h.chain
  refine h.trans ⟨h.kept.rebook ours h.chain (f := ({ · with order })) (fun _ => rfl)
    (chained.books.congr ⟨rfl, rfl, rfl, rfl⟩) chained.nodes rfl rfl,
    .rechain (f := ({ · with order })) (fun _ => rfl) (fun _ => rfl) (fun _ _ _ there => there), rfl,
    ?_, rfl, rfl, rfl, rfl⟩
  rw [chain?_withChain w' k (f := ({ · with order })) fun _ => rfl, h.chain]
  rfl

/-- A chain without a proxy belongs to a method that is not detoured. -/
theorem Kept.bare (g : Kept μ S w) (ours : k.manager = μ) (here : w.chain? k = some c)
    (none : c.proxy = none) : w.patched? k = .none :=
  (patched?_eq here).trans (patchOf_of_rootless (g.rootless ours here none))

theorem ensureProxy_prepares (g : Kept μ S w) (ours : k.manager = μ) (here : w.chain? k = some c)
    (first : ChainNode) :
    (ensureProxy k c first).Ends w
      (fun proxy w' => ∃ S', Prepared μ k S c w w' S' { c with proxy := some proxy })
      (fun w' => w.patched? k = none ∧ Prepared μ k S c w w' S c) := by
  have chained := g.chains k c ours here
  unfold ensureProxy
  split
  · rename_i proxy hp
    apply Ends.pure
    have same : { c with proxy := some proxy } = c := by rw [← hp]
    rw [same]
    exact ⟨S, .refl g here⟩
  · rename_i hp
    apply Ends.bind
    apply onMachine_ends
    apply ((Stub.build_ends g.posts.holds first.target).and
      (Stub.build_leads g.posts.holds g.packed first.target)).mono
    · rintro proxy m ⟨⟨gains, stands⟩, packed, _⟩
      let f : Chain → Chain := ({ · with proxy := some proxy })
      let S₁ : Store := { S with proxies := (k, proxy) :: S.proxies }
      have built : Kept μ S₁ { w with machine := m } := g.takeOnProxy k gains stands packed
      have unmoved : Unmoved k S S₁ w { w with machine := m } :=
        .of_beside (w.beside_machine m) (.aside (aside_gains gains))
          ⟨fun _ me => me, fun _ me => List.mem_cons_of_mem _ me⟩
          (fun _ mb => gains.blocks _ (List.mem_append_right _ mb))
          (fun _ me => g.posts.target_gains (Store.mem_of_hook me) gains)
          fun _ mp => g.posts.target_gains (Store.mem_of_proxy mp) gains
      have here' : ({ w with machine := m } : World).chain? k = some c := here
      apply Ends.bind
      apply updateChain_ends
      apply Ends.pure
      refine ⟨_, built.rechain ours here' (f := f) (fun _ => rfl)
        (chained.books.congr ⟨rfl, rfl, rfl, rfl⟩) chained.nodes rfl (fun p hp' => ?_) (fun some => ?_),
        unmoved.trans (.rechain (f := f) (fun _ => rfl) (fun _ => rfl) fun c' there p hp' => ?_), rfl,
        ?_, rfl, rfl, rfl, rfl⟩
      · obtain rfl := Option.some.inj hp'
        exact List.mem_cons_self
      · rw [g.rootless ours here hp] at some
        cases some
      · obtain rfl := Option.some.inj (here'.symm.trans there)
        cases hp.symm.trans hp'
      · rw [chain?_withChain _ k (f := f) fun _ => rfl, here']
        rfl
    · rintro m ⟨gains, packed⟩
      exact ⟨g.bare ours here hp, g.gains gains packed, .gains g gains, rfl, here, rfl, rfl, rfl, rfl⟩

theorem ensureRoot_prepares (g : Kept μ S w) (ours : k.manager = μ) (here : w.chain? k = some c)
    (hp : c.proxy = some proxy) :
    (ensureRoot k c proxy).Ends w
      (fun root w' => Prepared μ k S c w w' S { c with root := some root })
      (fun w' => w.patched? k = none ∧ Prepared μ k S c w w' S c) := by
  unfold ensureRoot
  split
  · rename_i root there
    apply Ends.pure
    have same : { c with root := some root } = c := by rw [← there]
    rw [same]
    exact .refl g here
  · rename_i root
    have bare : w.patched? k = none := (patched?_eq here).trans (patchOf_of_rootless root)
    have source : w.nameOf c.method = k.method := by
      rw [method_of_chain here, (g.chains k c ours here).name]
    apply Ends.bind
    refine createDetour_made (fun w₁ said => ⟨bare, .told g here said.told⟩) fun w₁ said => ?_
    rw [nameOf_function, source]
    have p₁ : Prepared μ k S c w w₁ S c := .told g here said.told
    have g₁ := p₁.kept
    let d : MethodDetour := .blank w₁.nextDetour k.manager k.method (.function proxy.entry)
    let d' : MethodDetour := { d with watcher := .chain k }
    have there := detour?_enter (d := d) g₁.numbered.numbered
    apply Ends.bind
    apply updateDetour_ends there
    rw [show (w₁.enter d).put d' = w₁.enter d' from put_enter g₁.numbered.numbered rfl]
    apply Ends.bind
    apply updateChain_ends
    apply Ends.pure
    refine p₁.trans ⟨g₁.enter (d := d') ours p₁.chain root hp rfl rfl rfl rfl rfl rfl rfl,
      .enter (d := d') g₁ ours p₁.chain root g₁.numbered.numbered rfl, rfl, ?_, rfl, rfl, rfl, rfl⟩
    rw [chain?_withChain _ k (f := ({ · with root := some w₁.nextDetour })) fun _ => rfl,
      show (w₁.enter d').chain? k = some c from p₁.chain]
    rfl

/-! ## Linking -/

/-- The chain has the same books, and stubs of it may have been pointed at functions in `G`. -/
structure Wired (μ : Nat) (G : Set Nat) (k : ChainKey) (S : Store) (c : Chain) (w w' : World)
    (S' : Store) (c' : Chain) : Prop where
  kept : Kept μ S' w'
  guided : Guided μ G S S' w w'
  confined : Confined k w w'
  hooks : S'.hooks = S.hooks
  chain : w'.chain? k = some c'
  books : c.SameBooks c'

theorem Prepared.wired (h : Prepared μ k S c w w' S' c') (g : Kept μ S w) (ours : k.manager = μ) :
    Wired μ G k S c w w' S' c' :=
  ⟨h.kept, h.unmoved.guided g ours, h.unmoved.confined g h.kept ours, h.hooks, h.chain, h.books⟩

theorem Wired.trans (h : Wired μ G k S c w w' S' c') (h' : Wired μ G k S' c' w' w'' S'' c'') :
    Wired μ G k S c w w'' S'' c'' :=
  ⟨h'.kept, h.guided.trans h'.guided, h.confined.trans h'.confined, h'.hooks.trans h.hooks, h'.chain,
    ⟨h'.books.graph.trans h.books.graph, h'.books.unplaced.trans h.books.unplaced,
      h'.books.nodes.trans h.books.nodes, h'.books.retired.trans h.books.retired⟩⟩

theorem Wired.order (h : Wired μ G k S c w w' S' c') (ours : k.manager = μ) (order : List Nat) :
    Wired μ G k S c w (w'.withChain k ({ · with order })) S' { c' with order } :=
  h.trans (((Prepared.refl h.kept h.chain).order ours order).wired h.kept ours)

/-- Hooks were linked, and then they are listed as they are wanted. -/
theorem Hitched.rigged (h : Hitched k nodes proxy w w') (g : Kept μ S w') (ours : k.manager = μ)
    (here : w'.chain? k = some c) (hp : c.proxy = some proxy)
    (listed : c.nodesOf c.wantedOrder = nodes) (many : nodes ≠ []) (armed : Armed k w) :
    Rigged k (w'.withChain k ({ · with order := c.wantedOrder })) := by
  have p := (Prepared.refl g here).order ours c.wantedOrder
  have members : (w'.withChain k ({ · with order := c.wantedOrder })).members k ≠ [] := by
    rw [members_of_chain p.chain]
    intro none
    refine many (List.eq_nil_iff_forall_not_mem.mpr fun n mn => ?_)
    have there : n ∈ c.nodes := Chain.Books.mem_nodesOf (listed ▸ mn)
    rw [show c.nodes = [] from none] at there
    cases there
  have same := p.unmoved.patched k rfl
  refine ⟨p.unmoved.armed g (h.armed armed), ?_, fun c' there r patch => ?_⟩
  · rw [same]
    refine iff_of_false members fun none => ?_
    have patched := h.patched
    rw [none] at patched
    cases patched
  · obtain rfl := Option.some.inj (p.chain.symm.trans there)
    have patched : w'.patched? k = some r := same ▸ (patched?_eq p.chain).trans patch
    obtain ⟨entry, callable⟩ := Redirection.exists_entry (g.laid patched).2
    have linked : Chain.linkedNodes { c with order := c.wantedOrder } = nodes := listed
    exact ⟨proxy, entry, hp, callable, rfl, linked ▸ many,
      linked ▸ h.linked r entry patched callable⟩

/-- A chain that was made ready is linked, and then it lists its hooks. -/
theorem Prepared.linked {root : Nat}
    (p : Prepared μ k S c w w' S' { c with proxy := some proxy, root := some root })
    (g : Kept μ S w) (ours : k.manager = μ) (listed : c.nodesOf c.wantedOrder = nodes)
    (many : nodes ≠ []) (kept : Kept μ S' w'')
    (chain : w''.chain? k = some { c with proxy := some proxy, root := some root })
    (guided : Guided μ (functions nodes) S' S' w' w'') (hitched : Hitched k nodes proxy w' w'') :
    ∃ S' c', Wired μ (functions c.nodes) k S c w
      (w''.withChain k ({ · with order := c.wantedOrder })) S' c' ∧
      (Armed k w → Rigged k (w''.withChain k ({ · with order := c.wantedOrder }))) := by
  have goals : ∀ t ∈ functions nodes, t ∈ functions c.nodes := fun t ⟨n, mn, same⟩ =>
    ⟨n, Chain.Books.mem_nodesOf (listed ▸ mn), same⟩
  have wired : Wired μ (functions c.nodes) k S c w w'' S' _ := (p.wired g ours).trans
    ⟨kept, guided.mono goals, hitched.confined, rfl, chain, rfl, rfl, rfl, rfl⟩
  let c' : Chain := { c with proxy := some proxy, root := some root }
  exact ⟨S', _, wired.order ours _, fun armed =>
    hitched.rigged (c := c') kept ours chain rfl listed many (p.unmoved.armed g armed)⟩

/-- A chain with hooks is linked, or no stub was pointed elsewhere. -/
theorem linkAll_wires (g : Kept μ S w) (ours : k.manager = μ) (here : w.chain? k = some c)
    (listed : c.nodesOf c.wantedOrder = first :: rest)
    (foreign : ∀ a ∈ code, w.machine.Foreign a) (inland : w.patched? k = none → w.Inland k.method) :
    (linkAll k c first rest).Ends w
      (fun _ w' => w'.held = w.held ∧ JumpStays k w w' ∧ (w'.Covered code k →
        ∃ S' c', Wired μ (functions c.nodes) k S c w w' S' c' ∧ (Armed k w → Rigged k w')))
      (fun w' => w.patched? k = none ∧ ∃ S' c', Prepared μ k S c w w' S' c') := by
  have sub (n : ChainNode) (mn : n ∈ first :: rest) : (k, n) ∈ S.hooks :=
    (g.chains k c ours here).nodes n
      (List.mem_append_left _ (Chain.Books.mem_nodesOf (listed ▸ mn)))
  have once : (first :: rest).Nodup := listed ▸ (g.chains k c ours here).books.wanted_nodes.2
  apply Ends.bind
  apply (ensureProxy_prepares g ours here first).mono _ fun w₁ ⟨bare, p₁⟩ => ⟨bare, S, c, p₁⟩
  rintro proxy w₁ ⟨S₁, p₁⟩
  apply Ends.bind
  apply (ensureRoot_prepares (c := { c with proxy := some proxy }) p₁.kept ours p₁.chain rfl).mono _
    fun w₂ ⟨bare, p₂⟩ => ⟨p₁.unmoved.patched k rfl ▸ bare, S₁, _, p₁.trans p₂⟩
  rintro root w₂ p₂
  let c₂ : Chain := { c with proxy := some proxy, root := some root }
  have p : Prepared μ k S c w w₂ S₁ c₂ := p₁.trans p₂
  have before := p.unmoved.patched k rfl
  have patch : w₂.patched? k = (w₂.detour? root).bind MethodDetour.redirection :=
    patched?_eq p.chain
  have sub₂ (n : ChainNode) (mn : n ∈ first :: rest) : (k, n) ∈ S₁.hooks := p.hooks ▸ sub n mn
  have later (w₃ : World) :
      (w₃.withChain k ({ · with order := c.wantedOrder })).patched? k = w₃.patched? k :=
    patched?_withChain (f := ({ · with order := c.wantedOrder })) (fun _ => rfl) fun _ => rfl
  have many : first :: rest ≠ [] := List.cons_ne_nil _ _
  apply Ends.bind
  apply Ends.get
  split <;> rename_i there
  · have patched : w₂.patched? k = some _ := patch.trans there
    apply Ends.bind
    apply (linkTo_reroutes p.kept ours p.chain patched rfl sub₂ once (E := fun _ => False)).mono _
      fun _ h => h.elim
    rintro ⟨⟩ w₃ ⟨beside, kept, guided, hitched⟩
    apply updateChain_ends
    exact ⟨beside.held.trans p.unmoved.held,
      Or.inl ((later w₃).trans ((beside.patched? k).trans before)), fun _ =>
      p.linked g ours listed many kept ((beside.chain? k).trans p.chain) guided hitched⟩
  · have bare : w₂.patched? k = none := patch.trans there
    have bare₀ : w.patched? k = none := before ▸ bare
    have foreign₂ : ∀ a ∈ code, w₂.machine.Foreign a := fun a ma =>
      (p.unmoved.seeks.foreign (foreign a ma)).1
    apply Ends.bind
    apply (applyDetour_reroutes p.kept ours p.chain rfl bare rfl sub₂ once foreign₂
      ((inland bare₀).seeks p.unmoved.seeks)).mono
    · rintro ⟨⟩ w₃ ⟨held, chain, reroutes⟩
      apply updateChain_ends
      refine ⟨(show _ = w₃.held from rfl).trans (held.trans p.unmoved.held),
        Or.inr (Or.inl bare₀), fun covered => ?_⟩
      rw [Covered, show World.patched? _ k = w₃.patched? k from later w₃] at covered
      obtain ⟨kept, guided, hitched⟩ := reroutes covered
      exact p.linked g ours listed many kept chain guided hitched
    · rintro w₃ ⟨chain, bare₃, kept, unmoved⟩
      have last : Prepared μ k S₁ c₂ w₂ w₃ S₁ c₂ := ⟨kept, unmoved, rfl, chain, rfl, rfl, rfl, rfl⟩
      exact ⟨bare₀, S₁, _, p.trans last⟩

/-- The detour of a method without hooks is undone. -/
theorem unlinkAll_wires (g : Kept μ S w) (ours : k.manager = μ) (here : w.chain? k = some c)
    (none : c.nodes = []) :
    (unlinkAll k c).Ends w
      (fun _ w' => w'.held = w.held ∧ w'.patched? k = .none ∧ Rigged k w' ∧
        (∃ c', Wired μ G k S c w w' S c') ∧
        (w.patched? k = .none → ∃ c', Prepared μ k S c w w' S c')) E := by
  apply Ends.bind
  apply Ends.get
  split <;> rename_i there
  · obtain ⟨root, r, patched⟩ := patchOf_of_appliedRoot? there
    have patched := (patched?_eq here).trans patched
    apply Ends.bind
    apply (undoDetour_reroutes g ours here root patched).mono _ fun _ h => h
    rintro ⟨⟩ w₁ ⟨held, chain, bare, kept, guided, confined⟩
    have wired : Wired μ G k S c w w₁ S c := ⟨kept, guided.mono fun _ mt => (by cases mt), confined,
      rfl, chain, rfl, rfl, rfl, rfl⟩
    have p := (Prepared.refl kept chain).order ours []
    have bare' := (p.unmoved.patched k rfl).trans bare
    apply updateChain_ends
    refine ⟨held, bare', .of_bare bare' ((members_of_chain p.chain).trans none),
      ⟨_, wired.order ours []⟩, fun bare => ?_⟩
    cases bare.symm.trans patched
  · have p := (Prepared.refl g here).order ours []
    have bare : w.patched? k = .none := (patched?_eq here).trans (patchOf_eq_none there)
    have bare' := (p.unmoved.patched k rfl).trans bare
    apply updateChain_ends
    exact ⟨rfl, bare', .of_bare bare' ((members_of_chain p.chain).trans none), ⟨_, p.wired g ours⟩,
      fun _ => ⟨_, p⟩⟩

/-! ## Releasing -/

/-- A trampoline is taken down. The others lead where they led. -/
theorem Unmoved.freed (g : Kept μ S w) {e : ChainKey × ChainNode} (me : e ∈ S.hooks)
    (passes : S.Passes S') :
    Unmoved k S S' w { w with machine := w.machine.free e.2.trampoline.block } := by
  have front : w.machine.Holds (e.2.trampoline.block ::
      ((S.stubs.map Stub.block).erase e.2.trampoline.block ++ w.holdings)) :=
    g.posts.holds.mono ((List.perm_cons_erase
      (Posts.mem_blocks (Store.mem_of_hook me))).append_right w.holdings).symm.subperm
  have bytes := w.machine.bytes_free e.2.trampoline.block
  have target (s : Stub) :
      s.target (w.machine.free e.2.trampoline.block) = s.target w.machine :=
    Memory.word_congr fun _ _ => congrFun bytes _
  exact .of_beside (w.beside_machine _) (.aside (aside_gains front.free)) passes
    (fun _ _ x _ => congrFun bytes x) (fun _ _ => target _) fun _ _ => target _

/-- A hook is given up if nobody needs it. The others are kept. -/
theorem Kept.releaseNode (g : Kept μ S w) (there : (k, node) ∈ S.hooks) :
    ∃ S', Kept μ S' (releaseNode k node w) ∧ Unmoved k S S' w (releaseNode k node w) ∧
      (∀ e ∈ S.hooks, e ≠ (k, node) → e ∈ S'.hooks) ∧
      ((∀ h ∈ w.hooks, h.node.id ≠ node.id) →
        (∀ c, w.chain? k = some c → ∀ n ∈ c.nodes ++ c.retired, n.id ≠ node.id) →
        (k, node) ∉ S'.hooks) := by
  unfold World.releaseNode
  split <;> rename_i needed
  · refine ⟨S, g, .refl k S w, fun e me _ => me, fun loose unkept => ?_⟩
    rcases (Bool.or_eq_true _ _).mp needed with handle | kept
    · unfold hook? at handle
      obtain ⟨h, mh, same⟩ := List.find?_isSome.mp handle
      exact (loose h mh (by simpa using ((Bool.and_eq_true _ _).mp same).2)).elim
    · obtain ⟨c, here, keeps⟩ := (Option.any_eq_true _ _).mp kept
      unfold Chain.keeps at keeps
      rw [← List.any_append, List.any_eq_true] at keeps
      obtain ⟨n, mn, same⟩ := keeps
      exact (unkept c here n mn (by simpa using same)).elim
  · rw [Bool.or_eq_true, not_or] at needed
    obtain ⟨unused, loose⟩ := needed
    have handles : ∀ h ∈ w.hooks, h.node.id ≠ node.id := fun h mh same => by
      refine unused (List.find?_isSome.mpr ⟨h, mh, ?_⟩)
      have manager := (g.ours _ (g.handles h mh)).trans (g.ours _ there).symm
      simpa using ⟨manager, same⟩
    have chains : ∀ c, w.chain? k = some c → ∀ n ∈ c.nodes ++ c.retired, n.id ≠ node.id := by
      intro c here n mn same
      refine loose ((Option.any_eq_true _ _).mpr ⟨c, here, ?_⟩)
      unfold Chain.keeps
      rw [← List.any_append, List.any_eq_true]
      exact ⟨n, mn, by simpa using same⟩
    obtain ⟨S', proxies, mem, kept⟩ := g.giveUp there handles chains
    exact ⟨S', kept, .freed g there ⟨fun e me => ((mem e).mp me).1, fun p mp => proxies ▸ mp⟩,
      fun e me other => (mem e).mpr ⟨me, other⟩, fun _ _ still => ((mem _).mp still).2 rfl⟩

theorem Kept.releaseNodes (g : Kept μ S w) (mem : ∀ n ∈ nodes, (k, n) ∈ S.hooks)
    (once : nodes.Nodup) :
    ∃ S', Kept μ S' (releaseNodes k nodes w) ∧ Unmoved k S S' w (releaseNodes k nodes w) ∧
      ∀ e ∈ S.hooks, (∀ n ∈ nodes, e ≠ (k, n)) → e ∈ S'.hooks := by
  induction nodes generalizing w S with
  | nil => exact ⟨S, g, .refl k S w, fun e me _ => me⟩
  | cons node rest ih =>
    obtain ⟨new, once⟩ := List.nodup_cons.mp once
    obtain ⟨S₁, g₁, u₁, others, _⟩ := g.releaseNode (mem node List.mem_cons_self)
    obtain ⟨S₂, g₂, u₂, left⟩ := ih g₁ (fun n mn => others _ (mem n (List.mem_cons_of_mem node mn))
      fun same => new ((Prod.mk.inj same).2 ▸ mn)) once
    exact ⟨S₂, g₂, u₁.trans u₂, fun e me out => left e
      (others e me (out node List.mem_cons_self)) fun n mn => out n (List.mem_cons_of_mem node mn)⟩

/-! ## Relinking -/

/-- What a chain is left with when its links were brought up to date. The hooks that were unlinked
before may have been given up. -/
structure Relined (μ : Nat) (k : ChainKey) (S : Store) (c : Chain) (w' : World) (S' : Store) :
    Prop where
  kept : Kept μ S' w'
  chain : ∃ c', w'.chain? k = some c' ∧ { c with retired := [] }.SameBooks c'
  left : ∀ e ∈ S.hooks, (∀ n ∈ c.retired, e ≠ (k, n)) → e ∈ S'.hooks

/-- The links of a chain were brought up to date. Its stubs may have been pointed at functions in `G`,
and others were left alone. If the jump at the method was in order, so is the whole chain. -/
structure Relaid (μ : Nat) (G : Set Nat) (k : ChainKey) (S S' : Store) (w w' : World) : Prop where
  guided : Guided μ G S S' w w'
  confined : Confined k w w'
  rigged : Armed k w → Rigged k w'

/-- The hooks that were unlinked before leave the chain. They still have what is theirs. -/
theorem Kept.clearRetired (g : Kept μ S w) (ours : k.manager = μ) (here : w.chain? k = some c) :
    Kept μ S (w.withChain k ({ · with retired := [] })) ∧
      Unmoved k S S w (w.withChain k ({ · with retired := [] })) ∧
      (w.withChain k ({ · with retired := [] })).chain? k = some { c with retired := [] } := by
  have chained := g.chains k c ours here
  let f : Chain → Chain := ({ · with retired := [] })
  have books : (f c).Books := ⟨chained.books.counted, List.nodup_nil, fun n mn => (by cases mn),
    chained.books.graph, chained.books.unplaced⟩
  refine ⟨g.rebook ours here (f := f) (fun _ => rfl) books
    (fun n mn => chained.nodes n (List.mem_append_left _ (by simpa [f] using mn))) rfl rfl,
    .rechain (f := f) (fun _ => rfl) (fun _ => rfl) fun _ _ _ there => there, ?_⟩
  rw [chain?_withChain w k (f := f) fun _ => rfl, here]
  rfl

section Releasing

variable {w₀ w₁ : World} {S₁ : Store} {c₁ : Chain}

/-- In the end the hooks are released that had been unlinked before. -/
theorem Chained.releaseRetired (chained : Chained k c S w) (kept : Kept μ S₁ w₁)
    (hooks : S₁.hooks = S.hooks) (chain : w₁.chain? k = some c₁)
    (books : { c with retired := [] }.SameBooks c₁) :
    ∃ S', Relined μ k S c (releaseNodes k c.retired w₁) S' ∧
      Unmoved k S₁ S' w₁ (releaseNodes k c.retired w₁) := by
  obtain ⟨S', kept', unmoved, left⟩ := kept.releaseNodes
    (fun n mn => (hooks ▸ chained.nodes n (List.mem_append_right _ mn) : (k, n) ∈ S₁.hooks))
    chained.books.retired.of_map
  exact ⟨S', ⟨kept', ⟨c₁, ((releaseNodes_beside _ _ _).chain? k).trans chain, books⟩,
    fun e me out => left e (hooks ▸ me) out⟩, unmoved⟩

theorem Prepared.relined (h : Prepared μ k S { c with retired := [] } w₀ w₁ S₁ c₁)
    (chained : Chained k c S w) (u : Unmoved k S S w w₀) :
    ∃ S', Relined μ k S c (releaseNodes k c.retired w₁) S' ∧
      Unmoved k S S' w (releaseNodes k c.retired w₁) := by
  obtain ⟨S', relined, unmoved⟩ := chained.releaseRetired h.kept h.hooks h.chain h.books
  exact ⟨S', relined, (u.trans h.unmoved).trans unmoved⟩

theorem Wired.relined (h : Wired μ G k S { c with retired := [] } w₀ w₁ S₁ c₁)
    (g : Kept μ S w) (g₀ : Kept μ S w₀) (ours : k.manager = μ) (chained : Chained k c S w)
    (u : Unmoved k S S w w₀) (rigged : Armed k w₀ → Rigged k w₁) :
    ∃ S', Relined μ k S c (releaseNodes k c.retired w₁) S' ∧
      Relaid μ G k S S' w (releaseNodes k c.retired w₁) := by
  obtain ⟨S', relined, unmoved⟩ := chained.releaseRetired h.kept h.hooks h.chain h.books
  refine ⟨S', relined, ((u.guided g ours).trans h.guided).trans (unmoved.guided h.kept ours),
    ((u.confined g g₀ ours).trans h.confined).trans (unmoved.confined h.kept relined.kept ours),
    fun armed => ?_⟩
  exact unmoved.rigged h.kept relined.kept ours
    (congrArg _ ((releaseNodes_beside _ _ _).chain? k)) (rigged (u.armed g armed))

end Releasing

/-- The links of a chain are brought up to date, or no stub was pointed elsewhere. -/
theorem relink_wires (g : Kept μ S w) (ours : k.manager = μ) (here : w.chain? k = some c)
    (foreign : ∀ a ∈ code, w.machine.Foreign a) (inland : w.patched? k = none → w.Inland k.method) :
    (relink k).Ends w
      (fun _ w' => w'.held = w.held ∧ JumpStays k w w' ∧
        (w'.Covered code k → ∃ S', Relined μ k S c w' S' ∧
          Relaid μ (functions c.nodes) k S S' w w') ∧
        (w.patched? k = none → c.nodes = [] → ∃ S', Relined μ k S c w' S' ∧ Unmoved k S S' w w'))
      (fun w' => w.patched? k = none ∧ ∃ S', Relined μ k S c w' S' ∧ Unmoved k S S' w w') := by
  have chained := g.chains k c ours here
  obtain ⟨g₀, u, here₀⟩ := g.clearRetired ours here
  have before := u.patched k rfl
  apply Ends.bind
  apply Ends.get
  simp only [here]
  apply Ends.bind
  apply updateChain_ends
  apply Ends.bind
  apply Ends.outcome
  split <;> rename_i listed
  · have none : c.nodes = [] := List.eq_nil_iff_forall_not_mem.mpr fun n mn =>
      (g₀.chains k _ ours here₀).books.wanted_ne_nil mn listed
    apply (unlinkAll_wires (G := functions c.nodes) (E := fun _ => False) g₀ ours here₀ none).mono
    · rintro ⟨⟩ w₁ ⟨held, gone, rigged, ⟨c₁, h⟩, bare⟩
      apply Ends.bind
      apply Ends.change
      apply Ends.pure
      have beside := releaseNodes_beside k c.retired w₁
      refine ⟨beside.held.trans held, Or.inr (Or.inr ((beside.patched? k).trans gone)),
        fun _ => h.relined g g₀ ours chained u fun _ => rigged, fun none _ => ?_⟩
      obtain ⟨c₂, h⟩ := bare (before.trans none)
      exact h.relined chained u
    · exact fun _ h => h.elim
  · rename_i first rest
    apply (linkAll_wires g₀ ours here₀ listed foreign fun bare =>
      (inland (before ▸ bare)).seeks u.seeks).mono
    · rintro ⟨⟩ w₁ ⟨held, stays, done⟩
      apply Ends.bind
      apply Ends.change
      apply Ends.pure
      have beside := releaseNodes_beside k c.retired w₁
      refine ⟨beside.held.trans held, (stays.since before).until (beside.patched? k),
        fun covered => ?_, fun _ none => ?_⟩
      · rw [Covered, beside.patched? k] at covered
        obtain ⟨S₁, c₁, h, rigged⟩ := done covered
        exact h.relined g g₀ ours chained u rigged
      · have mem : first ∈ c.nodes := Chain.Books.mem_nodesOf (listed ▸ List.mem_cons_self)
        rw [none] at mem
        cases mem
    · rintro w₁ ⟨bare, S₁, c₁, h⟩ e
      apply Ends.bind
      apply Ends.change
      apply Ends.throw
      exact ⟨before.symm.trans bare, h.relined chained u⟩

end Detouring.World
