-- Bringing the links of a chain up to date with its books. The proxy and the detour are made when
-- they are first needed; whatever fails on the way, the method is left as it was or bare.
import Detouring.Proofs.Hook.Releasing
import Detouring.Proofs.Hook.Rooting

namespace Detouring

namespace World

open Op Machine

variable {k : ChainKey} {code : Set Nat} {kept : List ChainNode} {c : Chain} {w w' : World}
  {d : MethodDetour} {proxy : Stub} {r : Redirection} {first : ChainNode}
  {nodes rest : List ChainNode}

theorem updateChain_ends {f : Chain → Chain} {Q : Unit → World → Prop} {E : World → Prop}
    (h : Q () (w.withChain k f)) : (updateChain k f).Ends w Q E := Ends.change h

/-- The books are in order, and the detour and the proxy are as they were. -/
theorem InOrder.rewrite (o : InOrder k code kept c w) {f : Chain → Chain}
    (same : ∀ c, (f c).method = c.method) (books : (f c).Books)
    (nodes : ∀ n ∈ (f c).nodes ++ (f c).retired, n ∈ kept) (root : (f c).root = c.root)
    (proxy : (f c).proxy = c.proxy) :
    InOrder k code kept (f c) (w.withChain k f) ∧ (w.withChain k f).patchOf (f c) = w.patchOf c := by
  have t := Turns.withChain o.booked.chain same
  exact ⟨o.turn t books nodes root proxy o.stands, t.patchOf root⟩

/-! ## The proxy -/

/-- A chain without a proxy has no detour. -/
theorem InOrder.rootless (o : InOrder k code kept c w) (bare : c.proxy = none) : c.root = none := by
  rcases root : c.root with _ | id
  · rfl
  · obtain ⟨_, _, _, hp, _⟩ := o.booked.rooted.root id root
    cases bare.symm.trans hp

theorem patchOf_of_rootless (root : c.root = none) : w.patchOf c = none := by
  unfold patchOf
  rw [root]
  rfl

theorem ensureProxy_ends (o : InOrder k code kept c w) (first : ChainNode) :
    (ensureProxy k c first).Ends w
      (fun proxy w' => InOrder k code kept { c with proxy := some proxy } w' ∧
        w'.patchOf { c with proxy := some proxy } = w.patchOf c ∧ w'.held = w.held)
      (fun w' => InOrder k code kept c w' ∧ w.patchOf c = none ∧ w'.patchOf c = none ∧
        w'.held = w.held) := by
  unfold ensureProxy
  split
  · rename_i proxy hp
    apply Ends.pure
    have same : { c with proxy := some proxy } = c := by rw [← hp]
    rw [same]
    exact ⟨o, rfl, rfl⟩
  · rename_i hp
    have root := o.rootless hp
    apply Ends.bind
    apply onMachine_ends
    apply (Stub.build_ends o.stands.holds first.target).mono
    · rintro proxy m ⟨gains, stands⟩
      have moved := o.booked.beside (w.beside_machine m)
      have t := (Turns.of_beside (w.beside_machine m) o.booked.chain).trans
        (Turns.withChain (f := ({ · with proxy := some proxy })) moved.chain fun _ => rfl)
      have bare := patchOf_of_rootless (w := w) root
      have bare' := t.patchOf (c := c) rfl
      have rooted : Rooted k ({ w with machine := m }.withChain k ({ · with proxy := some proxy }))
          { c with proxy := some proxy } :=
        ⟨o.booked.rooted.alone, fun id here => (by cases root.symm.trans here)⟩
      apply Ends.bind
      apply updateChain_ends
      apply Ends.pure
      refine ⟨⟨o.booked.turn t (o.booked.books.congr ⟨rfl, rfl, rfl, rfl⟩) o.booked.nodes rooted, ?_,
        fun r hr => ?_, fun id d here => ?_⟩, bare', rfl⟩
      · have taken := o.stands.takeProxy hp gains stands
        unfold rig
        rw [bare']
        exact taken
      · cases (bare'.trans bare).symm.trans hr
      · cases root.symm.trans here
    · intro m gains
      have bare := patchOf_of_rootless (w := w) root
      exact ⟨o.beside (w.beside_machine m) (o.stands.gains gains), bare, bare, rfl⟩

/-! ## The detour -/

/-- The world with a new detour. -/
def enter (d : MethodDetour) (w : World) : World :=
  { w with detours := w.detours ++ [d], nextDetour := d.id + 1 }

theorem detour?_enter (numbered : ∀ x ∈ w.detours, x.id < d.id) :
    (w.enter d).detour? d.id = some d := by
  have new : w.detours.find? (·.id == d.id) = none := List.find?_eq_none.mpr fun x mx => by
    have := numbered x mx
    simp only [beq_iff_eq]
    omega
  unfold detour? enter
  rw [List.find?_append, new]
  simp

/-- A detour is recorded anew as soon as it is there. -/
theorem put_enter {d' : MethodDetour} (numbered : ∀ x ∈ w.detours, x.id < d.id)
    (same : d'.id = d.id) : (w.enter d).put d' = w.enter d' := by
  have old : w.detours.map (fun x => if x.id = d'.id then d' else x) = w.detours := by
    refine (List.map_congr_left fun x mx => if_neg ?_).trans (List.map_id _)
    rw [same]
    exact Nat.ne_of_lt (numbered x mx)
  unfold put enter
  rw [List.map_append, old, List.map_singleton, if_pos same.symm, same]

theorem InOrder.root (o : InOrder k code kept c w) (root : c.root = none)
    (hp : c.proxy = some proxy) (new : d.id = w.nextDetour) (bare : d.redirection = none)
    (idle : d.busy = false) (source : d.source = k.method) (target : d.target = .function proxy.entry)
    (factory : d.factory = k.manager) (watcher : d.watcher = .chain k) :
    InOrder k code kept { c with root := some d.id }
        ((w.enter d).withChain k ({ · with root := some d.id })) ∧
      ((w.enter d).withChain k ({ · with root := some d.id })).patchOf { c with root := some d.id } =
        none := by
  have b := o.booked
  have numbered : ∀ x ∈ w.detours, x.id < d.id := new ▸ b.setting.numbered
  have there := detour?_enter numbered
  have t : Turns k (w.enter d) ((w.enter d).withChain k ({ · with root := some d.id }))
      { c with root := some d.id } :=
    Turns.withChain (w := w.enter d) (f := ({ · with root := some d.id })) b.chain fun _ => rfl
  have patch : ((w.enter d).withChain k ({ · with root := some d.id })).patchOf
      { c with root := some d.id } = none := (patchOf_eq rfl there).trans bare
  refine ⟨⟨⟨⟨b.setting.keeps, b.setting.inHand, b.setting.name, fun x mx => ?_⟩, t.chain,
    b.books.congr ⟨rfl, rfl, rfl, rfl⟩, b.nodes, b.handles, b.ids, t.below b.below, b.words, fun x mx touches => ?_, fun id here => ?_⟩, ?_,
    fun r hr => ?_, fun id x here found => ?_⟩, patch⟩
  · rcases List.mem_append.mp mx with mx | mx
    · exact Nat.lt_succ_of_lt (numbered x mx)
    · obtain rfl := List.mem_singleton.mp mx
      exact Nat.lt_succ_self _
  · rcases List.mem_append.mp mx with mx | mx
    · cases root.symm.trans (b.rooted.alone x mx touches)
    · obtain rfl := List.mem_singleton.mp mx
      rfl
  · obtain rfl := Option.some.inj here
    exact ⟨d, proxy, there, hp, source, target, factory, watcher⟩
  · have stands := o.stands
    rw [rig_of_bare (patchOf_of_rootless root)] at stands
    exact rig_of_bare patch ▸ stands
  · cases patch.symm.trans hr
  · obtain rfl := Option.some.inj here
    obtain rfl := Option.some.inj (there.symm.trans found)
    exact idle

theorem ensureRoot_ends (o : InOrder k code kept c w) (hp : c.proxy = some proxy) :
    (ensureRoot k c proxy).Ends w
      (fun root w' => InOrder k code kept { c with root := some root } w' ∧
        w'.patchOf { c with root := some root } = w.patchOf c ∧ w'.held = w.held)
      (fun w' => InOrder k code kept c w' ∧ w.patchOf c = none ∧ w'.patchOf c = none ∧
        w'.held = w.held) := by
  unfold ensureRoot
  split
  · rename_i root there
    apply Ends.pure
    have same : { c with root := some root } = c := by rw [← there]
    rw [same]
    exact ⟨o, rfl, rfl⟩
  · rename_i root
    have bare := patchOf_of_rootless (w := w) root
    have failed {w₁ : World} (quiet : w.Quiet w₁) : InOrder k code kept c w₁ ∧
        w.patchOf c = none ∧ w₁.patchOf c = none ∧ w₁.held = w.held :=
      ⟨o.quiet quiet, bare, patchOf_of_rootless root, quiet.held⟩
    have source : w.nameOf c.method = k.method := by
      rw [method_of_chain o.booked.chain, o.booked.setting.name]
    apply Ends.bind
    refine createDetour_made (fun w₁ said => failed said.quiet) fun w₁ said => ?_
    rw [nameOf_function, source]
    have o₁ := o.quiet said.quiet
    let d : MethodDetour := .blank w₁.nextDetour k.manager k.method (.function proxy.entry)
    let d' : MethodDetour := { d with watcher := .chain k }
    have there := detour?_enter (d := d) o₁.booked.setting.numbered
    apply Ends.bind
    apply updateDetour_ends there
    rw [show (w₁.enter d).put d' = w₁.enter d' from put_enter o₁.booked.setting.numbered rfl]
    apply Ends.bind
    apply updateChain_ends
    apply Ends.pure
    obtain ⟨done, patch⟩ := o₁.root (d := d') root hp rfl rfl rfl rfl rfl rfl rfl
    exact ⟨done, patch.trans bare.symm, said.quiet.held⟩

/-! ## Linking -/

/-- The jump at the method, if there is one, lies within `code`. -/
def Covered (code : Set Nat) (k : ChainKey) (w : World) : Prop :=
  ∀ r, w.patched? k = some r → ∀ i < r.patch.jump.size, r.source + i ∈ code

theorem Covered.of_bare (bare : w.patched? k = none) : w.Covered code k := fun r hr => by
  rw [bare] at hr
  cases hr

theorem Covered.of_jump {start size : Nat}
    (jump : (w.patched? k).map (fun r => (r.source, r.patch.jump.size)) = some (start, size))
    (within : ∀ i < size, start + i ∈ code) : w.Covered code k := by
  intro r hr i hi
  rw [hr] at jump
  obtain ⟨rfl, rfl⟩ := Prod.mk.inj (Option.some.inj jump)
  exact within i hi

theorem Covered.mono {code' : Set Nat} (h : w.Covered code k) (sub : ∀ x ∈ code, x ∈ code') :
    w.Covered code' k := fun r there i hi => sub _ (h r there i hi)

theorem patched?_withChain {f : Chain → Chain} (same : ∀ c, (f c).method = c.method)
    (root : ∀ c, (f c).root = c.root) : (w.withChain k f).patched? k = w.patched? k := by
  unfold patched?
  rw [chain?_withChain w k same, Option.bind_map]
  refine Option.bind_congr fun c _ => ?_
  show (w.withChain k f).patchOf (f c) = _
  unfold patchOf
  rw [root]
  rfl

/-- The method of a chain is detoured with these hooks linked, if the jump lies within `code`. -/
structure Joined (k : ChainKey) (code : Set Nat) (kept : List ChainNode) (c : Chain) (proxy : Stub)
    (nodes : List ChainNode) (r : Redirection) (w : World) : Prop where
  chain : w.chain? k = some c
  patch : w.patchOf c = some r
  done : (∀ i < r.patch.jump.size, r.source + i ∈ code) → InOrder k code kept c w ∧
    ∀ entry, r.entry? = some entry → Chain.Linked w.machine.memory proxy nodes entry

/-- The hooks of a detoured method are linked anew. -/
theorem linkTo_ends (o : InOrder k code kept c w) (hp : c.proxy = some proxy)
    (patched : w.patchOf c = some r) (sub : ∀ n ∈ nodes, n ∈ kept) (once : nodes.Nodup)
    {E : World → Prop} :
    (linkTo nodes proxy r.entry?).Ends w
      (fun _ w' => w'.held = w.held ∧ Joined k code kept c proxy nodes r w') E := by
  obtain ⟨callable, _⟩ := o.leads r patched
  obtain ⟨entry, callable⟩ := Redirection.exists_entry callable
  obtain ⟨memory, linked, places, leads, stands⟩ := o.stands.link hp sub once entry
  have o₁ := o.beside (w.beside_machine (w.machine.withMemory memory)) stands
  unfold linkTo
  rw [callable]
  apply changeMachine_ends
  rw [linked]
  refine ⟨rfl, o₁.booked.chain, patched, fun _ => ⟨o₁, fun entry' here => ?_⟩⟩
  obtain rfl := Option.some.inj (callable.symm.trans here)
  exact leads

/-- The chain lists what was linked. -/
theorem Joined.listed {b : Chain} (j : Joined k code kept c proxy (c.nodesOf c.wantedOrder) r w)
    (same : b.SameBooks c) (hp : c.proxy = some proxy) (many : c.nodesOf c.wantedOrder ≠ []) :
    (w.withChain k ({ · with order := c.wantedOrder })).patched? k = some r ∧
      ((w.withChain k ({ · with order := c.wantedOrder })).Covered code k → ∃ c',
        Steady k code kept c' (w.withChain k ({ · with order := c.wantedOrder })) ∧
          b.SameBooks c') := by
  have t := Turns.withChain (f := ({ · with order := c.wantedOrder })) j.chain fun _ => rfl
  have patched := (t.patched? j.chain rfl).trans ((patched?_eq j.chain).trans j.patch)
  refine ⟨patched, fun covered => ?_⟩
  obtain ⟨o, leads⟩ := j.done (covered r patched)
  obtain ⟨o', patch⟩ := o.rewrite (f := ({ · with order := c.wantedOrder })) (fun _ => rfl)
    (o.booked.books.congr ⟨rfl, rfl, rfl, rfl⟩) o.booked.nodes rfl rfl
  obtain ⟨entry, callable⟩ := Redirection.exists_entry (o.leads r j.patch).1
  refine ⟨_, ⟨o', fun r' hr => ?_⟩, same.graph, same.unplaced, same.nodes, same.retired⟩
  obtain rfl := Option.some.inj ((patch.trans j.patch).symm.trans hr)
  exact ⟨proxy, entry, hp, callable, rfl, many, leads entry callable⟩

theorem linkAll_ends (o : InOrder k code kept c w)
    (listed : c.nodesOf c.wantedOrder = first :: rest) :
    (linkAll k c first rest).Ends w
      (fun _ w' => w'.held = w.held ∧
        (w'.patched? k = w.patched? k ∨ w.patched? k = none) ∧
        (w'.Covered code k → ∃ c', Steady k code kept c' w' ∧ c.SameBooks c'))
      (fun w' => w'.held = w.held ∧ w.patched? k = none ∧ w'.patched? k = none ∧
        ∃ c', Steady k code kept c' w' ∧ c.SameBooks c') := by
  have sub : ∀ n ∈ first :: rest, n ∈ kept := fun n mn =>
    o.booked.nodes n (List.mem_append_left _ (Chain.Books.mem_nodesOf (listed ▸ mn)))
  have once : (first :: rest).Nodup := listed ▸ o.booked.books.wanted_nodes.2
  have many : c.nodesOf c.wantedOrder ≠ [] := listed ▸ List.cons_ne_nil first rest
  have patched := patched?_eq o.booked.chain
  have failed {c₁ : Chain} {w₁ : World} (o₁ : InOrder k code kept c₁ w₁) (same : c.SameBooks c₁)
      (bare : w.patchOf c = none) (bare₁ : w₁.patchOf c₁ = none) (held : w₁.held = w.held) :
      w₁.held = w.held ∧ w.patched? k = none ∧ w₁.patched? k = none ∧
        ∃ c', Steady k code kept c' w₁ ∧ c.SameBooks c' :=
    ⟨held, patched.trans bare, (patched?_eq o₁.booked.chain).trans bare₁, c₁, ⟨o₁, .of_bare bare₁⟩,
      same⟩
  apply Ends.bind
  apply (ensureProxy_ends o first).mono
  · rintro proxy w₁ ⟨o₁, patch₁, held₁⟩
    apply Ends.bind
    apply (ensureRoot_ends (c := { c with proxy := some proxy }) o₁ rfl).mono
    · rintro root w₂ ⟨o₂, patch₂, held₂⟩
      have held := held₂.trans held₁
      have patch : w₂.patchOf { c with proxy := some proxy, root := some root } = w.patchOf c :=
        patch₂.trans patch₁
      apply Ends.bind
      apply Ends.get
      split <;> rename_i there
      · have there : w₂.patchOf { c with proxy := some proxy, root := some root } = _ := there
        apply Ends.bind
        apply (linkTo_ends o₂ rfl there sub once).mono _ fun _ h => h
        rintro ⟨⟩ w₃ ⟨held₃, joined⟩
        rw [← listed] at joined
        obtain ⟨patched₃, done⟩ := joined.listed (b := c) ⟨rfl, rfl, rfl, rfl⟩ rfl many
        apply updateChain_ends
        exact ⟨held₃.trans held, Or.inl (patched₃.trans ((patched.trans patch.symm).trans there).symm),
          done⟩
      · have bare : w₂.patchOf { c with proxy := some proxy, root := some root } = none := there
        apply Ends.bind
        apply (applyDetour_ends o₂ rfl rfl bare sub once).mono
        · rintro ⟨⟩ w₃ ⟨here, held₃, r, patch₃, done⟩
          have joined : Joined k code kept _ proxy (first :: rest) r w₃ := ⟨here, patch₃, done⟩
          rw [← listed] at joined
          obtain ⟨_, done⟩ := joined.listed (b := c) ⟨rfl, rfl, rfl, rfl⟩ rfl many
          apply updateChain_ends
          exact ⟨held₃.trans held, Or.inr (patched.trans (patch ▸ bare)), done⟩
        · rintro w₃ ⟨o₃, bare₃, held₃⟩
          exact failed o₃ ⟨rfl, rfl, rfl, rfl⟩ (patch ▸ bare) bare₃ (held₃.trans held)
    · rintro w₂ ⟨o₂, bare₁, bare₂, held₂⟩
      exact failed o₂ ⟨rfl, rfl, rfl, rfl⟩ (patch₁ ▸ bare₁) bare₂ (held₂.trans held₁)
  · rintro w₁ ⟨o₁, bare, bare₁, held₁⟩
    exact failed o₁ ⟨rfl, rfl, rfl, rfl⟩ bare bare₁ held₁

theorem patchOf_of_appliedRoot? (h : w.appliedRoot? c = some d) :
    c.root = some d.id ∧ ∃ r, w.patchOf c = some r := by
  obtain ⟨there, applied⟩ := Option.filter_eq_some_iff.mp h
  obtain ⟨id, root, found⟩ := Option.bind_eq_some_iff.mp there
  obtain rfl := id_of_detour found
  obtain ⟨r, patched⟩ := Option.isSome_iff_exists.mp (d.isApplied_eq ▸ applied)
  exact ⟨root, r, (patchOf_eq root found).trans patched⟩

theorem patchOf_eq_none (h : w.appliedRoot? c = none) : w.patchOf c = none := by
  rcases there : w.patchOf c with _ | r
  · rfl
  · obtain ⟨id, d, root, found, patched⟩ := root_of_patchOf there
    unfold appliedRoot? at h
    rw [root] at h
    have h : (w.detour? id).filter MethodDetour.isApplied = none := h
    rw [found] at h
    simp [MethodDetour.isApplied_eq, patched] at h

/-- A method without hooks is bare in the end. -/
theorem unlinkAll_ends (o : InOrder k code kept c w) {E : World → Prop} :
    (unlinkAll k c).Ends w
      (fun _ w' => w'.held = w.held ∧ w'.patched? k = none ∧
        ∃ c', Steady k code kept c' w' ∧ c.SameBooks c') E := by
  have emptied {w₁ : World} (o₁ : InOrder k code kept c w₁) (bare : w₁.patchOf c = none)
      (held : w₁.held = w.held) :
      (updateChain k ({ · with order := [] })).Ends w₁
        (fun _ w' => w'.held = w.held ∧ w'.patched? k = none ∧
          ∃ c', Steady k code kept c' w' ∧ c.SameBooks c') E := by
    obtain ⟨o₂, patch⟩ := o₁.rewrite (f := ({ · with order := [] })) (fun _ => rfl)
      (o₁.booked.books.congr ⟨rfl, rfl, rfl, rfl⟩) o₁.booked.nodes rfl rfl
    apply updateChain_ends
    exact ⟨held, (patched?_eq o₂.booked.chain).trans (patch.trans bare), _,
      ⟨o₂, .of_bare (patch.trans bare)⟩, rfl, rfl, rfl, rfl⟩
  apply Ends.bind
  apply Ends.get
  split <;> rename_i there
  · obtain ⟨root, r, patched⟩ := patchOf_of_appliedRoot? there
    apply Ends.bind
    apply (undoDetour_ends o root patched).mono _ fun _ h => h
    rintro ⟨⟩ w₁ ⟨o₁, bare, held⟩
    exact emptied o₁ bare held
  · exact emptied o (patchOf_eq_none there) rfl

/-! ## Relinking -/

/-- The jump at the method stays, or it is gone, or it is the first one. -/
def JumpStays (k : ChainKey) (w w' : World) : Prop :=
  w'.patched? k = w.patched? k ∨ w.patched? k = none ∨ w'.patched? k = none

/-- The chain is linked as its books say, or its method is bare. The hooks that were kept are kept,
but for those that had been unlinked before. -/
structure Relinked (k : ChainKey) (code : Set Nat) (kept : List ChainNode) (c : Chain)
    (w w' : World) : Prop where
  held : w'.held = w.held
  stays : JumpStays k w w'
  done : w'.Covered code k → ∃ c' kept', Steady k code kept' c' w' ∧
    { c with retired := [] }.SameBooks c' ∧ ∀ n ∈ kept, n ∉ c.retired → n ∈ kept'

theorem Beside.patched? (b : w.Beside w') (k : ChainKey) : w'.patched? k = w.patched? k := by
  unfold World.patched?
  rw [b.chain?]
  exact Option.bind_congr fun c _ => b.patchOf c

theorem JumpStays.until {w₁ : World} (h : JumpStays k w w₁)
    (same : w'.patched? k = w₁.patched? k) : JumpStays k w w' := by
  unfold JumpStays
  rw [same]
  exact h

theorem JumpStays.since {w₁ : World} (h : JumpStays k w₁ w')
    (same : w₁.patched? k = w.patched? k) : JumpStays k w w' := by
  unfold JumpStays
  rw [← same]
  exact h

/-- Hooks are released when a chain was linked. -/
theorem releaseNodes_relinked {w₁ : World} (o : InOrder k code kept c w)
    (held : w₁.held = w.held)
    (stays : JumpStays k w w₁)
    (done : w₁.Covered code k → ∃ c', Steady k code kept c' w₁ ∧
      { c with retired := [] }.SameBooks c') :
    Relinked k code kept c w (releaseNodes k c.retired w₁) := by
  have beside := releaseNodes_beside k c.retired w₁
  have same := beside.patched? k
  refine ⟨beside.held.trans held, stays.until same, fun covered => ?_⟩
  rw [Covered, same] at covered
  obtain ⟨c', o₁, books⟩ := done covered
  obtain ⟨kept', o₂, left⟩ := o₁.releaseNodes
    (fun n mn => o.booked.nodes n (List.mem_append_right _ mn)) o.booked.books.retired.of_map
  exact ⟨c', kept', o₂, books, left⟩

theorem relink_ends (o : InOrder k code kept c w) :
    (relink k).Ends w (fun _ => Relinked k code kept c w)
      (fun w' => Relinked k code kept c w w' ∧ w'.patched? k = none ∧ w.patched? k = none) := by
  have b := o.booked.books
  obtain ⟨o₁, patch⟩ := o.rewrite (f := ({ · with retired := [] })) (fun _ => rfl)
    ⟨b.counted, List.nodup_nil, fun n mn => (by cases mn), b.graph, b.unplaced⟩
    (fun n mn => o.booked.nodes n (List.mem_append_left _ (by simpa using mn))) rfl rfl
  have before := patched?_withChain (k := k) (f := ({ · with retired := [] })) (w := w)
    (fun _ => rfl) fun _ => rfl
  apply Ends.bind
  apply Ends.get
  simp only [o.booked.chain]
  apply Ends.bind
  apply updateChain_ends
  apply Ends.bind
  apply Ends.outcome
  split <;> rename_i listed
  · apply (unlinkAll_ends (c := { c with retired := [] }) o₁ (E := fun _ => False)).mono
    · rintro ⟨⟩ w₁ ⟨held, bare, steady⟩
      apply Ends.bind
      apply Ends.change
      apply Ends.pure
      exact releaseNodes_relinked o held (Or.inr (Or.inr bare)) fun _ => steady
    · exact fun _ h => h.elim
  · apply (linkAll_ends (c := { c with retired := [] }) o₁ listed).mono
    · rintro ⟨⟩ w₁ ⟨held, stays, done⟩
      apply Ends.bind
      apply Ends.change
      apply Ends.pure
      have stays : JumpStays k _ w₁ := stays.imp_right Or.inl
      exact releaseNodes_relinked o held (stays.since before) done
    · rintro w₁ ⟨held, bare, bare₁, steady⟩ e
      apply Ends.bind
      apply Ends.change
      apply Ends.throw
      exact ⟨releaseNodes_relinked o held (Or.inr (Or.inr bare₁)) fun _ => steady,
        ((releaseNodes_beside _ _ _).patched? k).trans bare₁, before ▸ bare⟩

end World

end Detouring
