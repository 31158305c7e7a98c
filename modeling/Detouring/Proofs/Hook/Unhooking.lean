-- Hooks come and go, and leave no trace. Hooks are added to any of the methods of a manager, undone and
-- dropped, and each jump lies in a range of code that its method has for itself. A method whose hooks
-- are gone has the code that it had before the first of them, and a hook that is there is met.
import Detouring.Proofs.Hook.Sessions

namespace Detouring

/-- The method that an act is about. -/
def Act.method (w : World) : Act → Method
  | .add source _ _ => w.nameOf source
  | .undo h | .drop h => h.chain.method
  | .notice n => w.nameOf n.method

namespace World

open Op Machine

variable {μ : Nat} {range : Method → Set Nat} {added : Set Nat} {S : Store} {k k' : ChainKey}
  {w₀ w w' : World} {h : Hook} {x : Nat} {nodes : List ChainNode}

/-! ## Rounds of hooking -/

/-- What a user may do. A hooked method has a name that stays, and its code is not at the very end of all
addresses; handles are in use. -/
def Due (μ : Nat) (w : World) : Act → Prop
  | .add source target _ =>
      w.nameOf (w.nameOf source) = w.nameOf source ∧ target < wordCount ∧ w.Inland (w.nameOf source)
  | .undo h | .drop h => h ∈ w.hooks ∧ h.chain.manager = μ ∧ w.Inland h.chain.method
  | .notice _ => False

/-- What the world comes to when hooks are added, undone and dropped. The jump at a method is written in
the range of the method, which is code of others, and no two methods share any of it. -/
inductive Rounds (μ : Nat) (range : Method → Set Nat) (w₀ : World) : World → Prop where
  | start (fresh : Fresh μ w₀) (foreign : ∀ m, ∀ x ∈ range m, w₀.machine.Foreign x)
      (apart : ∀ m m', m ≠ m' → ∀ x ∈ range m, x ∉ range m') : Rounds μ range w₀ w₀
  | act {w : World} (rounds : Rounds μ range w₀ w) (a : Act) (due : Due μ w a)
      (within : (w.after μ a).Covered (range (a.method w)) ⟨μ, a.method w⟩) :
      Rounds μ range w₀ (w.after μ a)

theorem Rounds.ranges (rounds : Rounds μ range w₀ w) :
    (∀ m, ∀ x ∈ range m, w₀.machine.Foreign x) ∧ ∀ m m', m ≠ m' → ∀ x ∈ range m, x ∉ range m' := by
  induction rounds with
  | start _ foreign apart => exact ⟨foreign, apart⟩
  | act _ _ _ _ ih => exact ih

theorem Due.fits {a : Act} (due : Due μ w a)
    (covered : (w.after μ a).Covered w.codeOfOthers ⟨μ, a.method w⟩) : Fits μ w a := by
  cases a with
  | add source target placement =>
    obtain ⟨canonical, word, inland⟩ := due
    exact ⟨canonical, word, inland, covered⟩
  | undo h | drop h =>
    obtain ⟨mh, manager, inland⟩ := due
    exact ⟨mh, inland, ChainKey.mk_method manager ▸ covered⟩
  | notice n => exact due.elim

/-! ## Code beneath the jumps -/

/-- Each method is linked as its chain wants, its jump lies in its range, and beneath the jump there is
the code that there was. Pages are as protected as they were. -/
structure Preserves (μ : Nat) (range : Method → Set Nat) (w₀ w : World) : Prop where
  rigged : ∀ k, k.manager = μ → Rigged k w
  covered : ∀ k, k.manager = μ → w.Covered (range k.method) k
  foreign : ∀ x, w₀.machine.Foreign x → w.machine.Foreign x
  guards : ∀ x, w₀.machine.Foreign x →
    w.machine.memory.protectionAt? x = w₀.machine.memory.protectionAt? x
  beneath : ∀ k, k.manager = μ → ∀ x, w₀.machine.Foreign x → (∀ m, m ≠ k.method → x ∉ range m) →
    w.beneath k x = w₀.machine.memory.bytes x

/-- Beside the range of a method, its jump hides nothing. -/
theorem beneath_of_out {code : Set Nat} (armed : Armed k w) (covered : w.Covered code k)
    (out : x ∉ code) : w.beneath k x = w.machine.memory.bytes x := by
  rcases there : w.patched? k with _ | r
  · exact beneath_of_bare there
  · rw [beneath_of_patched there]
    refine Redirection.beneath_beside (armed r there).1.backup ?_
    by_contra within
    refine out ?_
    have at_place := covered r there (x - r.source) (by omega)
    rwa [Nat.add_sub_cancel' (by omega)] at at_place

/-- A chain of one method was changed, and its jump lies in the method's range. -/
theorem Preserves.refitted (p : Preserves μ range w₀ w) (ours : k.manager = μ)
    (apart : ∀ m m', m ≠ m' → ∀ x ∈ range m, x ∉ range m') (refitted : Refitted k nodes w w')
    (covered : w'.Covered (range k.method) k) : Preserves μ range w₀ w' := by
  have confined := refitted.confined
  have rigged := refitted.rigged (p.rigged k ours)
  -- Beside the range of the method no byte has changed.
  have same {x : Nat} (f : w.machine.Foreign x) (out : x ∉ range k.method) :
      w'.machine.memory.bytes x = w.machine.memory.bytes x := by
    rw [← beneath_of_out rigged.armed covered out, confined.code x f,
      beneath_of_out (p.rigged k ours).armed (p.covered k ours) out]
  have beside {k' : ChainKey} (ours' : k'.manager = μ) (other : k' ≠ k) : k'.method ≠ k.method :=
    ChainKey.method_ne (ours'.trans ours.symm) other
  refine ⟨fun k' ours' => ?_, fun k' ours' => ?_, fun x f => confined.foreign x (p.foreign x f),
    fun x f => (confined.guards x (p.foreign x f)).trans (p.guards x f), fun k' ours' x f out => ?_⟩ <;>
    by_cases it : k' = k
  · exact it ▸ rigged
  · refine confined.rigged (ours'.trans ours.symm) it (fun r there i hi => ?_) (p.rigged k' ours')
    have f := ((p.rigged k' ours').armed r there).1.foreign i hi
    exact ⟨confined.foreign _ f,
      same f (apart _ _ (beside ours' it) _ (p.covered k' ours' r there i hi))⟩
  · exact it ▸ covered
  · rw [Covered, confined.patched k' (ours'.trans ours.symm) it]
    exact p.covered k' ours'
  · subst it
    exact (confined.code x (p.foreign x f)).trans (p.beneath k' ours x f out)
  · refine (beneath_congr (confined.patched k' (ours'.trans ours.symm) it) ?_).trans
      (p.beneath k' ours' x f out)
    exact same (p.foreign x f) (out _ (beside ours' it).symm)

/-! ## Handles -/

/-- The hooks of the methods are those whose handles say that they are applied. -/
structure Attested (μ : Nat) (w : World) : Prop where
  ours : ∀ h ∈ w.hooks, h.chain.manager = μ
  once : (w.hooks.map fun h => h.node.id).Nodup
  applied : ∀ k, k.manager = μ → ∀ n,
    n ∈ w.members k ↔ ∃ h ∈ w.hooks, h.chain = k ∧ h.node = n ∧ h.applied = true

theorem Attested.eq_of_id (a : Attested μ w) {h h' : Hook} (mh : h ∈ w.hooks) (mh' : h' ∈ w.hooks)
    (same : h.node.id = h'.node.id) : h = h' :=
  List.inj_on_of_nodup_map a.once mh mh' same

/-- The other handles are those of other hooks. -/
theorem Attested.same_iff (a : Attested μ w) (mh : h ∈ w.hooks) {y : Hook} (my : y ∈ w.hooks) :
    y.chain.manager = h.chain.manager ∧ y.node.id = h.node.id ↔ y = h :=
  ⟨fun same => a.eq_of_id my mh same.2, fun same => same ▸ ⟨rfl, rfl⟩⟩

/-- Neither handles nor hooks of methods have changed. -/
theorem Attested.congr (a : Attested μ w) (hooks : w'.hooks = w.hooks)
    (members : ∀ k, k.manager = μ → w'.members k = w.members k) : Attested μ w' := by
  refine ⟨fun h mh => a.ours h (hooks ▸ mh), hooks ▸ a.once, fun k ours n => ?_⟩
  rw [members k ours, hooks]
  exact a.applied k ours n

theorem Attested.add (a : Attested μ w) (ours : h.chain.manager = μ) (applied : h.applied = true)
    (fresh : ∀ y ∈ w.hooks, y.node.id ≠ h.node.id) (hooks : w'.hooks = w.hooks ++ [h])
    (members : w'.members h.chain = w.members h.chain ++ [h.node])
    (others : ∀ k, k ≠ h.chain → w'.members k = w.members k) : Attested μ w' := by
  refine ⟨fun y my => ?_, ?_, fun k ours' n => ?_⟩
  · rw [hooks] at my
    rcases List.mem_append.mp my with my | my
    · exact a.ours y my
    · exact List.mem_singleton.mp my ▸ ours
  · rw [hooks, List.map_append, List.nodup_append]
    refine ⟨a.once, List.nodup_singleton _, fun i mi j mj same => ?_⟩
    obtain ⟨y, my, rfl⟩ := List.mem_map.mp mi
    obtain rfl := List.mem_singleton.mp mj
    exact fresh y my same
  · have before := a.applied k ours' n
    simp only [hooks, List.mem_append, List.mem_singleton, or_and_right, exists_or, exists_eq_left]
    rw [← before]
    by_cases it : k = h.chain
    · subst it
      simp [members, applied, eq_comm]
    · rw [others k it]
      exact (or_iff_left fun ⟨same, _⟩ => it same.symm).symm

/-- The hooks that remain are those with other handles. -/
theorem Attested.mem_remaining (a : Attested μ w) (mh : h ∈ w.hooks) (n : ChainNode) :
    n ∈ w.remaining h ↔ ∃ y ∈ w.hooks, y ≠ h ∧ y.chain = h.chain ∧ y.node = n ∧ y.applied = true := by
  have before := a.applied h.chain (a.ours h mh) n
  unfold remaining
  split <;> rename_i applied
  · rw [List.mem_filter, before]
    constructor
    · rintro ⟨⟨y, my, chain, rfl, still⟩, other⟩
      refine ⟨y, my, fun it => ?_, chain, rfl, still⟩
      subst it
      simp at other
    · rintro ⟨y, my, other, chain, rfl, still⟩
      refine ⟨⟨y, my, chain, rfl, still⟩, ?_⟩
      have := mt (a.eq_of_id my mh) other
      simpa using this
  · rw [before]
    refine exists_congr fun y => and_congr_right fun _ => (and_iff_right_of_imp fun ⟨_, _, still⟩ => ?_).symm
    rintro rfl
    exact applied still

/-- When a hook is undone, the other handles stay. -/
theorem Attested.mem_marked (a : Attested μ w) (mh : h ∈ w.hooks) {y : Hook}
    (applied : y.applied = true) : y ∈ w.marked h ↔ y ∈ w.hooks ∧ y ≠ h := by
  unfold marked
  split <;> rename_i still
  · rw [List.mem_map]
    constructor
    · rintro ⟨z, mz, rfl⟩
      split at applied <;> rename_i same
      · cases applied
      · rw [if_neg same]
        exact ⟨mz, mt (a.same_iff mh mz).mpr same⟩
    · rintro ⟨my, other⟩
      exact ⟨y, my, if_neg (mt (a.same_iff mh my).mp other)⟩
  · refine (and_iff_left_of_imp fun _ it => ?_).symm
    exact still (it ▸ applied)

/-- One hook is not applied any more. -/
theorem Attested.without (a : Attested μ w) (mh : h ∈ w.hooks)
    (ours : ∀ y ∈ w'.hooks, y.chain.manager = μ) (once : (w'.hooks.map fun y => y.node.id).Nodup)
    (hooks : ∀ y : Hook, y.applied = true → (y ∈ w'.hooks ↔ y ∈ w.hooks ∧ y ≠ h))
    (members : w'.members h.chain = w.remaining h)
    (others : ∀ k, k ≠ h.chain → w'.members k = w.members k) : Attested μ w' := by
  refine ⟨ours, once, fun k ours n => ?_⟩
  have handles : (∃ y ∈ w'.hooks, y.chain = k ∧ y.node = n ∧ y.applied = true) ↔
      ∃ y ∈ w.hooks, y ≠ h ∧ y.chain = k ∧ y.node = n ∧ y.applied = true := by
    refine exists_congr fun y => ?_
    constructor
    · rintro ⟨my, chain, node, applied⟩
      obtain ⟨my, other⟩ := (hooks y applied).mp my
      exact ⟨my, other, chain, node, applied⟩
    · rintro ⟨my, other, chain, node, applied⟩
      exact ⟨(hooks y applied).mpr ⟨my, other⟩, chain, node, applied⟩
  rw [handles]
  by_cases it : k = h.chain
  · subst it
    rw [members, a.mem_remaining mh]
  · rw [others k it, a.applied k ours]
    refine exists_congr fun y => and_congr_right fun _ =>
      (and_iff_right_of_imp fun ⟨chain, _⟩ same => it ?_).symm
    rw [← chain, same]

theorem Attested.undo (a : Attested μ w) (mh : h ∈ w.hooks) (hooks : w'.hooks = w.marked h)
    (members : w'.members h.chain = w.remaining h)
    (others : ∀ k, k ≠ h.chain → w'.members k = w.members k) : Attested μ w' := by
  have same : w'.hooks.map (fun y => (y.chain.manager, y.node.id)) =
      w.hooks.map fun y => (y.chain.manager, y.node.id) := by
    rw [hooks]
    unfold marked
    split
    · rw [List.map_map]
      refine List.map_congr_left fun y _ => ?_
      simp only [Function.comp_apply]
      split <;> rename_i same
      · exact Prod.ext same.1.symm same.2.symm
      · rfl
    · rfl
  refine a.without mh (fun y my => ?_) ?_ (fun y applied => hooks ▸ a.mem_marked mh applied)
    members others
  · have there : (y.chain.manager, y.node.id) ∈ w.hooks.map fun y => (y.chain.manager, y.node.id) :=
      same ▸ List.mem_map_of_mem my
    obtain ⟨z, mz, it⟩ := List.mem_map.mp there
    exact (congrArg Prod.fst it).symm.trans (a.ours z mz)
  · have ids := congrArg (List.map Prod.snd) same
    rw [List.map_map, List.map_map] at ids
    exact ids ▸ a.once

theorem Attested.drop (a : Attested μ w) (mh : h ∈ w.hooks)
    (hooks : w'.hooks = w.hooks.filter fun y =>
      y.chain.manager != h.chain.manager || y.node.id != h.node.id)
    (members : w'.members h.chain = w.remaining h)
    (others : ∀ k, k ≠ h.chain → w'.members k = w.members k) : Attested μ w' := by
  have kept (y : Hook) : y ∈ w'.hooks ↔ y ∈ w.hooks ∧ y ≠ h := by
    rw [hooks, List.mem_filter]
    refine and_congr_right fun my => ?_
    rw [Ne, ← not_congr (a.same_iff mh my)]
    simp [imp_iff_not_or]
  refine a.without mh (fun y my => a.ours y ((kept y).mp my).1) ?_ (fun y _ => kept y) members others
  rw [hooks]
  exact a.once.sublist (List.Sublist.map _ List.filter_sublist)

/-! ## What rounds keep -/

theorem Fresh.preserves (f : Fresh μ w) : Preserves μ range w w ∧ Attested μ w := by
  have bare {k : ChainKey} (ours : k.manager = μ) : w.patched? k = none := by
    unfold patched?
    rw [f.chain? ours]
    rfl
  have none {k : ChainKey} (ours : k.manager = μ) : w.members k = [] := by
    unfold members
    rw [f.chain? ours]
    rfl
  refine ⟨⟨fun k ours => .of_bare (bare ours) (none ours), fun k ours => .of_bare (bare ours),
    fun _ f => f, fun _ _ => rfl, fun k ours _ _ _ => beneath_of_bare (bare ours)⟩, ?_, ?_,
    fun k ours n => ?_⟩
  · rw [f.hooks]
    exact fun y my => by cases my
  · rw [f.hooks]
    exact List.nodup_nil
  · rw [none ours, f.hooks]
    simp

/-- What an act comes to at the chain of its method. -/
theorem Kept.act_refits (g : Kept μ S w) {a : Act} (due : Due μ w a)
    (covered : (w.after μ a).Covered w.codeOfOthers ⟨μ, a.method w⟩)
    (rigged : Rigged ⟨μ, a.method w⟩ w) (attested : Attested μ w) :
    (∃ nodes, Refitted ⟨μ, a.method w⟩ nodes w (w.after μ a)) ∧ Attested μ (w.after μ a) := by
  have others : ∀ x ∈ w.codeOfOthers, w.machine.Foreign x := fun _ f => f
  have beside {k : ChainKey} {nodes : List ChainNode} {w' : World} (refitted : Refitted k nodes w w') :
      ∀ k', k' ≠ k → w'.members k' = w.members k' := fun k' other =>
    members_congr (refitted.confined.chains k' other)
  cases a with
  | add source target placement =>
    obtain ⟨canonical, _, inland⟩ := due
    rw [after_add] at covered ⊢
    rcases (addHook_serves (k := ⟨μ, w.nameOf source⟩) g rfl rfl canonical others (fun _ => inland)
      target placement).run with ⟨h, ok, added⟩ | ⟨e, error, _, plain⟩
    · have refitted := added.refitted covered
      refine ⟨⟨_, refitted⟩, attested.add (h := h) ?_ added.applied added.fresh added.hooks ?_ ?_⟩ <;>
        rw [added.chain]
      · exact refitted.members
      · exact beside refitted
    · obtain ⟨S', futile⟩ := plain (by
        rcases there : w.patched? ⟨μ, w.nameOf source⟩ with _ | r
        · refine Or.inr fun c here => ?_
          rw [← members_of_chain here]
          exact rigged.detoured.mpr there
        · exact Or.inl rfl)
      have refitted := futile.refitted g rfl
      refine ⟨⟨_, refitted⟩, attested.congr (Prod.mk.inj futile.unmoved.held).1 fun k _ => ?_⟩
      by_cases it : k = ⟨μ, w.nameOf source⟩
      · exact it ▸ futile.members
      · exact beside refitted k it
  | undo h =>
    obtain ⟨mh, manager, inland⟩ := due
    have key : (⟨μ, Act.method w (.undo h)⟩ : ChainKey) = h.chain := ChainKey.mk_method manager
    rw [key] at rigged covered ⊢
    have undone : HookUndone μ w.codeOfOthers S h w (w.after μ (.undo h)) :=
      left_of_ends (undoHook_serves g mh others fun _ => inland)
    have refitted := undone.refitted rigged covered
    exact ⟨⟨_, refitted⟩, attested.undo mh undone.hooks refitted.members (beside refitted)⟩
  | drop h =>
    obtain ⟨mh, manager, inland⟩ := due
    have key : (⟨μ, Act.method w (.drop h)⟩ : ChainKey) = h.chain := ChainKey.mk_method manager
    rw [key] at rigged covered ⊢
    have dropped : HookDropped μ w.codeOfOthers S h w (w.after μ (.drop h)) :=
      left_of_ends (dropHook_serves g mh others fun _ => inland)
    have refitted := dropped.refitted rigged covered
    exact ⟨⟨_, refitted⟩, attested.drop mh dropped.hooks refitted.members (beside refitted)⟩
  | notice n => exact due.elim

theorem Rounds.preserves (rounds : Rounds μ range w₀ w) :
    (∃ added, Session μ w added) ∧ Preserves μ range w₀ w ∧ Attested μ w := by
  induction rounds with
  | start fresh _ _ => exact ⟨⟨_, .start fresh⟩, fresh.preserves⟩
  | act rounds a due within ih =>
    obtain ⟨⟨_, session⟩, preserves, attested⟩ := ih
    obtain ⟨foreign, apart⟩ := rounds.ranges
    obtain ⟨S, g, _⟩ := session.inService
    have covered := within.mono fun x mx => preserves.foreign x (foreign _ x mx)
    obtain ⟨⟨_, refitted⟩, attested'⟩ :=
      g.act_refits due covered (preserves.rigged _ rfl) attested
    exact ⟨⟨_, .act session a (due.fits covered)⟩, preserves.refitted rfl apart refitted within,
      attested'⟩

/-- A chain that is linked in front of its method is met by a call of it. -/
theorem Kept.meets (g : Kept μ S w) (l : Leads μ added S w) (ours : k.manager = μ)
    (rigged : Rigged k w) {node : ChainNode} (mn : node ∈ w.members k)
    (small : ∀ t ∈ added, t < wordCount)
    (words : ∀ b ∈ w.machine.memory.places, b + pageSize ≤ wordCount) :
    ∃ view c r proxy entry, ((viewChain μ k.method).on w).1 = .ok view ∧ node ∈ view.hooks ∧
      w.patched? k = some r ∧ Meets k w view c r proxy entry := by
  rcases here : w.chain? k with _ | c
  · unfold members at mn
    rw [here] at mn
    cases mn
  rw [members_of_chain here] at mn
  rcases there : w.patched? k with _ | r
  · have none := rigged.detoured.mpr there
    rw [members_of_chain here] at none
    rw [none] at mn
    cases mn
  have chained := g.chains k c ours here
  have patched : w.patchOf c = some r := (patched?_eq here).symm.trans there
  obtain ⟨stands, proxy, front, target⟩ := rigged.armed r there
  have front : c.proxy = some proxy := by
    rwa [front?, here] at front
  obtain ⟨_, entry, _, callable, order, _, _⟩ := rigged.linked c here r patched
  have listed : node ∈ c.linkedNodes := by
    unfold Chain.linkedNodes
    rw [order]
    exact chained.books.mem_wanted mn
  have hooks (n : ChainNode) (mn : n ∈ c.nodes) : (k, n) ∈ S.hooks :=
    chained.nodes n (List.mem_append_left _ mn)
  have source (id : Nat) (d : MethodDetour) (root : c.root = some id)
      (found : w.detour? id = some d) : d.source = k.method := by
    obtain ⟨d', p, found', _, source, _⟩ := chained.root id root
    obtain rfl := Option.some.inj (found.symm.trans found')
    exact source
  have stubs (s : Stub) (ms : c.proxy = some s ∨ ∃ n ∈ c.nodes, n.trampoline = s) :
      s.block ∈ S.stubs.map Stub.block ++ w.holdings ∧ s.Stands w.machine.memory := by
    have ms : s ∈ S.stubs := by
      rcases ms with hp | ⟨n, mn, rfl⟩
      · exact Store.mem_of_proxy (chained.proxy s hp)
      · exact Store.mem_of_hook (hooks n mn)
    exact ⟨Posts.mem ms, g.posts.stands s ms⟩
  obtain ⟨proxy, entry, meets⟩ := meets_of_linked g.posts.holds here chained.books source patched
    stands ⟨proxy, front, target⟩ (rigged.linked c here)
    (fun b mb => List.mem_append_right _ (mem_holdings_of_patched there mb)) stubs
    (fun n mn => small _ (l.targets _ (hooks n mn))) words
  refine ⟨⟨k.method, c.linkedNodes, some entry, true⟩, c, r, proxy, entry, ?_, listed, rfl, meets⟩
  have name : w.nameOf k.method = k.method := chained.name
  rw [viewChain_tells, name, ChainKey.mk_method ours, listed_of_chain here, there]
  exact congrArg (fun entry => Except.ok (ChainView.mk k.method c.linkedNodes entry true))
    meets.alternate.2

/-- A function is hooked, and its jump lies in its range. -/
theorem Rounds.add_function (rounds : Rounds μ range w₀ w) {a target : Nat} (low : a + 6 < wordCount)
    (word : target < wordCount) (within : (w.after μ (.add (.function a) target none)).Covered
      (range (.function a)) ⟨μ, .function a⟩) :
    Rounds μ range w₀ (w.after μ (.add (.function a) target none)) := by
  have name := nameOf_function w a
  have here : Act.method w (.add (.function a) target none) = .function a := name
  refine rounds.act (.add (.function a) target none) ⟨by rw [name, name], word, ?_⟩ ?_
  · rw [name]
    exact inland_function low w
  · rwa [here]

/-- Two functions on the first page, with room for a jump each. -/
def twoRanges (m : Method) : Set Nat :=
  {x | m = .function 4096 ∧ 4096 ≤ x ∧ x < 4112 ∨ m = .function 4128 ∧ 4128 ≤ x ∧ x < 4144}

def secondKey : ChainKey := ⟨0, .function 4128⟩

/-- Both functions are hooked, -/
def bothHooked : World := firstHook.after 0 (.add (.function 4128) 4104 none)

/-- the hook of the first is undone, -/
def firstUndone : World := bothHooked.after 0 (.undo firstHandle)

/-- it is hooked again, -/
def firstAgain : World := firstUndone.after 0 (.add (.function 4096) 4108 none)

def secondHandle : Hook := ⟨secondKey, ⟨2, none, 4104, ⟨⟨8240, 16, true, 0⟩, 8⟩⟩, true⟩

/-- and then the hook of the second is undone. -/
def secondUndone : World := firstAgain.after 0 (.undo secondHandle)

theorem foreign_twoRanges (m : Method) : ∀ x ∈ twoRanges m, firstPage.machine.Foreign x := by
  rintro x (⟨_, low, high⟩ | ⟨_, low, high⟩) <;>
    exact foreign_of_page (by decide) (by decide : 4096 ∈ _) (fun p mp => (by cases mp)) (by omega)
      (by unfold pageSize; omega)

theorem apart_twoRanges (m m' : Method) (other : m ≠ m') : ∀ x ∈ twoRanges m, x ∉ twoRanges m' := by
  rintro x (⟨rfl, low, high⟩ | ⟨rfl, low, high⟩) (⟨rfl, low', high'⟩ | ⟨rfl, low', high'⟩)
  · exact other rfl
  · omega
  · omega
  · exact other rfl

end World

end Detouring
