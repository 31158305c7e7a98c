-- What users do with hooks: they hook a method, undo hooks and drop their handles. Whatever comes
-- of it, the chain of the method is in order afterwards.
import Detouring.Hook.Manager
import Detouring.Proofs.Hook.Enrolling

namespace Detouring.World

open Op Machine

variable {k : ChainKey} {code code' : Set Nat} {kept : List ChainNode} {c : Chain} {w w' : World}
  {node : ChainNode} {h : Hook} {m : Manager} {E : World → Prop}

/-! ## Before and after the first hook -/

/-- The method can be hooked, and nobody has to do with it yet. -/
structure Unhooked (k : ChainKey) (w : World) : Prop where
  setting : Setting k w
  manager : ∃ m, w.manager? k.manager = some m
  chain : w.chain? k = none
  handles : ∀ h ∈ w.hooks, h.chain ≠ k
  untouched : ∀ d ∈ w.detours, d.source ≠ k.method ∧ d.target ≠ k.method
  machine : ∃ live, w.machine.Sound live

/-- The chain of the method is in order, if there is one yet. -/
def Tended (k : ChainKey) (code : Set Nat) (w : World) : Prop :=
  Unhooked k w ∨ ∃ c kept, Steady k code kept c w

theorem Unhooked.quiet (u : Unhooked k w) (q : w.Quiet w') : Unhooked k w' := by
  have s := u.setting
  have managers (id : Nat) : w'.manager? id = w.manager? id := by
    unfold manager?
    rw [q.managers]
  obtain ⟨live, sound⟩ := u.machine
  refine ⟨⟨q.platform ▸ s.keeps, q.manager ▸ s.inHand, (q.names _).trans s.name, ?_⟩, ?_, ?_,
    q.hooks ▸ u.handles, q.detours ▸ u.untouched, live, sound.of_arena q.arena⟩
  · rw [q.detours, q.nextDetour]
    exact s.numbered
  · rw [managers]
    exact u.manager
  · unfold chain?
    rw [managers]
    exact u.chain

theorem Unhooked.patched? (u : Unhooked k w) : w.patched? k = none := by
  unfold World.patched?
  rw [u.chain]
  rfl

theorem Tended.quiet (t : Tended k code w) (q : w.Quiet w') : Tended k code w' :=
  t.imp (·.quiet q) fun ⟨c, kept, o⟩ => ⟨c, kept, o.quiet q⟩

/-- Any code of others may be patched next. -/
theorem Steady.recode (o : Steady k code kept c w) (foreign : ∀ a ∈ code', w.machine.Foreign a) :
    Steady k code' kept c w :=
  have s := o.stands
  ⟨⟨o.booked, ⟨s.holds, s.kept, s.proxy, s.patch, foreign⟩, o.leads, o.idle⟩, o.linked⟩

theorem Tended.recode (t : Tended k code w) (foreign : ∀ a ∈ code', w.machine.Foreign a) :
    Tended k code' w :=
  t.imp id fun ⟨c, kept, o⟩ => ⟨c, kept, o.recode foreign⟩

/-! ## Making room for a hook -/

/-- The chain is in order when its user takes more of the machine. -/
theorem Steady.gains (o : Steady k code kept c w) {new : List Block} {m : Machine}
    (gains : Gains (w.rig c kept).blocks new w.machine m) :
    Steady k code kept c { w with machine := m } := by
  exact ⟨o.toInOrder.beside (w.beside_machine m) (o.stands.gains gains),
    o.linked.spared o.toInOrder (fun _ mb => gains.blocks _ (Rig.stub_mem mb)) rfl⟩

/-- A new hook is kept. -/
theorem Steady.keep (o : Steady k code kept c w) (node : ChainNode) {m : Machine}
    (gains : Gains (w.rig c kept).blocks [node.trampoline.block] w.machine m)
    (stands : node.trampoline.Stands m.memory) (new : ∀ n ∈ kept, n.id < node.id)
    (below : ∀ m, w.manager? k.manager = some m → node.id < m.nextHook)
    (word : node.target < wordCount) :
    Steady k code (node :: kept) c { w with machine := m } := by
  have o' := o.gains gains
  have b := o'.booked
  refine ⟨⟨?_, o.stands.keep gains stands, o'.leads, o'.idle⟩, o'.linked⟩
  refine { b with
    nodes := fun n mn => List.mem_cons_of_mem node (b.nodes n mn)
    handles := fun h mh key => List.mem_cons_of_mem node (b.handles h mh key)
    ids := List.nodup_cons.mpr ⟨fun old => ?_, b.ids⟩
    below := fun m found n mn => ?_
    words := fun n mn => ?_ }
  · obtain ⟨n, mn, same⟩ := List.mem_map.mp old
    exact Nat.ne_of_lt (new n mn) same
  · rcases List.mem_cons.mp mn with rfl | mn
    · exact below m found
    · exact b.below m found n mn
  · rcases List.mem_cons.mp mn with rfl | mn
    · exact word
    · exact b.words n mn

/-- Other handles are in use. -/
theorem Steady.rehook (o : Steady k code kept c w) (hooks : List Hook)
    (handles : ∀ h ∈ hooks, h.chain = k → h.node ∈ kept) :
    Steady k code kept c { w with hooks } :=
  have b := o.booked
  have s := b.setting
  ⟨⟨⟨⟨s.keeps, s.inHand, s.name, s.numbered⟩, b.chain, b.books, b.nodes, handles, b.ids, b.below,
    b.words, ⟨b.rooted.alone, b.rooted.root⟩⟩, o.stands, o.leads, o.idle⟩, o.linked⟩

/-! ## Opening a chain -/

/-- The world with a chain for the method, and with one more number used. -/
def opened (k : ChainKey) (m : Manager) (w : World) : World :=
  let chains := if (w.chain? k).isSome then m.chains else m.chains ++ [{ method := k.method }]
  w.updateManager k.manager ({ · with chains, nextHook := m.nextHook + 1 })

theorem manager?_opened (found : w.manager? k.manager = some m) :
    ∃ m', (w.opened k m).manager? k.manager = some m' ∧ m'.nextHook = m.nextHook + 1 ∧
      m'.chains = if (w.chain? k).isSome then m.chains else m.chains ++ [{ method := k.method }] := by
  let chains := if (w.chain? k).isSome then m.chains else m.chains ++ [{ method := k.method }]
  let f : Manager → Manager := ({ · with chains, nextHook := m.nextHook + 1 })
  refine ⟨f m, ?_, rfl, rfl⟩
  show (w.updateManager k.manager f).manager? k.manager = _
  rw [manager?_updateManager w k.manager (f := f) fun _ => rfl, found]
  rfl

theorem chain?_opened (found : w.manager? k.manager = some m) :
    (w.opened k m).chain? k = some ((w.chain? k).getD { method := k.method }) := by
  obtain ⟨m', found', _, chains⟩ := manager?_opened found
  have before : w.chain? k = m.chains.find? (·.method = k.method) := by
    unfold chain?
    rw [found]
    rfl
  have now : (w.opened k m).chain? k = m'.chains.find? (·.method = k.method) := by
    unfold chain?
    rw [found']
    rfl
  rw [now, chains]
  rcases there : w.chain? k with _ | c
  · rw [before] at there
    simp [there]
  · rw [before] at there
    simp [there]

theorem patched?_opened (found : w.manager? k.manager = some m) :
    (w.opened k m).patched? k = w.patched? k := by
  unfold patched?
  rw [chain?_opened found]
  cases w.chain? k <;> rfl

/-- The first thing that a chain is: without hooks, and in order. -/
theorem Unhooked.opened (u : Unhooked k w) (foreign : ∀ a ∈ code, w.machine.Foreign a)
    (found : w.manager? k.manager = some m) :
    Steady k code [] { method := k.method } (w.opened k m) := by
  have s := u.setting
  have chain : (w.opened k m).chain? k = some { method := k.method } := by
    rw [chain?_opened found, u.chain]
    rfl
  obtain ⟨live, sound⟩ := u.machine
  have books : Chain.Books { method := k.method } := by
    refine ⟨List.Pairwise.nil, List.nodup_nil, ?_, PlacementGraph.sound_empty, rfl⟩
    exact fun n mn => (by cases mn)
  have rooted : Rooted k (w.opened k m) { method := k.method } := by
    refine ⟨fun d md touches => ?_, fun id here => (by cases here)⟩
    rcases touches with here | there
    · exact ((u.untouched d md).1 here).elim
    · exact ((u.untouched d md).2 there).elim
  refine ⟨⟨⟨⟨s.keeps, s.inHand, s.name, s.numbered⟩, chain, books, fun n mn => (by cases mn),
    fun h mh key => (u.handles h mh key).elim, List.nodup_nil, fun m _ n mn => (by cases mn),
    fun n mn => (by cases mn), rooted⟩, ?_, fun r hr => (by cases hr), fun id d here => (by cases here)⟩,
    .of_bare rfl⟩
  refine ⟨⟨List.nodup_nil, live, sound, fun b mb => (by cases mb)⟩, fun n mn => (by cases mn),
    fun p hp => (by cases hp), fun r hr => (by cases hr), foreign⟩

/-- A chain that is there already stays as it is. -/
theorem Steady.opened (o : Steady k code kept c w) (found : w.manager? k.manager = some m) :
    Steady k code kept c (w.opened k m) := by
  have b := o.booked
  have s := b.setting
  have chain : (w.opened k m).chain? k = some c := by
    rw [chain?_opened found, b.chain]
    rfl
  have below (m' : Manager) (found' : (w.opened k m).manager? k.manager = some m')
      (n : ChainNode) (mn : n ∈ kept) : n.id < m'.nextHook := by
    obtain ⟨m₁, found₁, next, _⟩ := manager?_opened found
    obtain rfl := Option.some.inj (found₁.symm.trans found')
    exact next ▸ Nat.lt_succ_of_lt (b.below m found n mn)
  exact ⟨⟨⟨⟨s.keeps, s.inHand, s.name, s.numbered⟩, chain, b.books, b.nodes, b.handles, b.ids,
    below, b.words, ⟨b.rooted.alone, b.rooted.root⟩⟩, o.stands, o.leads, o.idle⟩, o.linked⟩

theorem openChain_opens (found : w.manager? k.manager = some m) :
    (openChain k).Ends w (fun id w' => id = m.nextHook ∧ w' = w.opened k m) E := by
  apply Ends.bind
  apply Ends.get
  simp only [found]
  apply Ends.bind
  apply Ends.change
  exact Ends.pure ⟨rfl, rfl⟩

theorem Tended.manager (t : Tended k code w) : ∃ m, w.manager? k.manager = some m := by
  rcases t with u | ⟨c, kept, o⟩
  · exact u.manager
  · obtain ⟨m, found, _⟩ := Option.bind_eq_some_iff.mp o.booked.chain
    exact ⟨m, found⟩

/-- A method with a chain in order gets a number that no kept hook has. -/
theorem openChain_ends (t : Tended k code w) (foreign : ∀ a ∈ code, w.machine.Foreign a) :
    (openChain k).Ends w
      (fun id w' => w'.patched? k = w.patched? k ∧ ∃ c kept, Steady k code kept c w' ∧
        (∀ n ∈ kept, n.id < id) ∧ ∀ m, w'.manager? k.manager = some m → id < m.nextHook) E := by
  obtain ⟨m, found⟩ := t.manager
  apply (openChain_opens found).mono _ fun _ h => h
  rintro id w' ⟨rfl, rfl⟩
  have below (m' : Manager) (found' : (w.opened k m).manager? k.manager = some m') :
      m.nextHook < m'.nextHook := by
    obtain ⟨m₁, found₁, next, _⟩ := manager?_opened found
    obtain rfl := Option.some.inj (found₁.symm.trans found')
    exact next ▸ Nat.lt_succ_self _
  refine ⟨patched?_opened found, ?_⟩
  rcases t with u | ⟨c, kept, o⟩
  · exact ⟨_, [], u.opened foreign found, fun n mn => (by cases mn), below⟩
  · exact ⟨c, kept, o.opened found, o.booked.below m found, below⟩

/-! ## Hooking -/

/-- What an act on a method comes to. -/
structure Acted (k : ChainKey) (code : Set Nat) (w w' : World) : Prop where
  stays : JumpStays k w w'
  done : w'.Covered code k → Tended k code w'

theorem Acted.of_steady {w₁ : World} (same : w₁.patched? k = w.patched? k)
    (o : Steady k code kept c w₁) : Acted k code w w₁ :=
  ⟨Or.inl same, fun _ => Or.inr ⟨c, kept, o⟩⟩

theorem Acted.of_settled {needed : List ChainNode} {w₁ : World}
    (same : w₁.patched? k = w.patched? k) (s : Settled k code needed w₁ w') : Acted k code w w' := by
  refine ⟨s.stays.since same, fun covered => Or.inr ?_⟩
  obtain ⟨c', kept', o, _⟩ := s.done covered
  exact ⟨c', kept', o⟩

theorem addHook_ends (t : Tended k code w) (foreign : ∀ a ∈ code, w.machine.Foreign a)
    {source : Method} (name : w.nameOf source = k.method) {target : Nat} (word : target < wordCount)
    (placement : Option Placement) :
    (addHook k.manager source target placement).Ends w (fun _ => Acted k code w)
      (Acted k code w) := by
  apply Ends.bind
  apply (canonicalize_ends w source).mono _ fun _ h => h
  rintro method w₁ ⟨rfl, quiet⟩
  rw [name]
  have same := quiet.patched? k
  split
  · apply Ends.throw
    exact ⟨Or.inl same, fun _ => t.quiet quiet⟩
  · have foreign₁ : ∀ a ∈ code, w₁.machine.Foreign a := fun a ma =>
      (Extends.of_arena quiet.arena).foreign a (foreign a ma)
    apply Ends.bind
    apply (openChain_ends (t.quiet quiet) foreign₁).mono _ fun _ h => h
    rintro id w₂ ⟨same₂, c, kept, o, new, below⟩
    apply Ends.bind
    apply onMachine_ends
    apply (Stub.build_ends o.stands.holds target).mono
    · rintro trampoline m ⟨gains, stands⟩
      have o₃ := o.keep ⟨id, placement, target, trampoline⟩ gains stands new below word
      have same₃ := ((w₂.beside_machine m).patched? k).trans (same₂.trans same)
      apply Ends.bind
      apply (insertNode_ends o₃ List.mem_cons_self fun n mn => ?_).mono
      · rintro ⟨⟩ w₄ settled
        apply Ends.bind
        apply Ends.change
        apply Ends.bind
        apply Ends.change
        apply Ends.pure
        refine ⟨settled.stays.since same₃, fun covered => Or.inr ?_⟩
        obtain ⟨c', kept', o₄, there⟩ := settled.done covered
        have o₅ := o₄.rehook (w₄.hooks ++ [⟨k, ⟨id, placement, target, trampoline⟩, true⟩])
          fun h mh key => by
            rcases List.mem_append.mp mh with mh | mh
            · exact o₄.booked.handles h mh key
            · obtain rfl := List.mem_singleton.mp mh
              exact there _ (List.mem_singleton_self _)
        exact ⟨c', kept', o₅.quiet (quiet_tell _ _)⟩
      · exact fun w₄ settled => .of_settled same₃ settled
      · exact new n (o.booked.nodes n mn)
    · intro m gains
      exact .of_steady (((w₂.beside_machine m).patched? k).trans (same₂.trans same)) (o.gains gains)

/-! ## Undoing and dropping -/

/-- A hook was undone; its handle is still there. -/
structure Undone (k : ChainKey) (code : Set Nat) (h : Hook) (w w' : World) : Prop where
  stays : JumpStays k w w'
  inHand : w'.manager = some k.manager
  handle : ∃ x ∈ w'.hooks, x.chain = k ∧ x.node = h.node
  done : w'.Covered code k → ∃ c' kept', Steady k code kept' c' w'

theorem Undone.refl (o : Steady k code kept c w) (mh : h ∈ w.hooks) (key : h.chain = k) :
    Undone k code h w w :=
  ⟨Or.inl rfl, o.booked.setting.inHand, ⟨h, mh, key, rfl⟩, fun _ => ⟨c, kept, o⟩⟩

theorem Undone.quiet {w₁ : World} (u : Undone k code h w w₁) (q : w₁.Quiet w') :
    Undone k code h w w' := by
  have same := q.patched? k
  refine ⟨u.stays.until same, q.manager.trans u.inHand, q.hooks.symm ▸ u.handle, fun covered => ?_⟩
  rw [Covered, same] at covered
  obtain ⟨c', kept', o⟩ := u.done covered
  exact ⟨c', kept', o.quiet q⟩

theorem Undone.acted (u : Undone k code h w w') : Acted k code w w' :=
  ⟨u.stays, fun covered => Or.inr (u.done covered)⟩

theorem undoHook_ends (o : Steady k code kept c w) (mh : h ∈ w.hooks) (key : h.chain = k) :
    (undoHook h).Ends w (fun _ => Undone k code h w) (Undone k code h w) := by
  subst key
  unfold undoHook
  split
  · exact Ends.throw (.refl o mh rfl)
  · let hooks := w.hooks.map fun x =>
      if x.chain.manager = h.chain.manager ∧ x.node.id = h.node.id then { h with applied := false }
      else x
    have handle : { h with applied := false } ∈ hooks :=
      List.mem_map.mpr ⟨h, mh, if_pos ⟨rfl, rfl⟩⟩
    have o₁ := o.rehook hooks fun x mx key => by
      obtain ⟨y, my, rfl⟩ := List.mem_map.mp mx
      by_cases it : y.chain.manager = h.chain.manager ∧ y.node.id = h.node.id
      · rw [if_pos it]
        exact o.booked.handles h mh rfl
      · rw [if_neg it] at key ⊢
        exact o.booked.handles y my key
    have undone {w₂ : World} (s : Settled h.chain code [] { w with hooks } w₂) :
        Undone h.chain code h w w₂ := by
      obtain ⟨same, manager⟩ := Prod.mk.inj s.held
      refine ⟨s.stays, manager.trans o.booked.setting.inHand,
        ⟨{ h with applied := false }, ?_, rfl, rfl⟩, fun covered => ?_⟩
      · rw [same]
        exact handle
      · obtain ⟨c', kept', o', _⟩ := s.done covered
        exact ⟨c', kept', o'⟩
    apply Ends.bind
    apply Ends.change
    apply Ends.bind
    apply Ends.outcome
    apply (removeNode_ends o₁ h.node.id).mono
    · intro _ w₂ settled
      apply Ends.bind
      apply Ends.change
      apply Ends.pure
      exact (undone settled).quiet (quiet_tell _ _)
    · intro w₂ settled e
      apply Ends.bind
      apply Ends.change
      apply Ends.throw
      exact (undone settled).quiet (quiet_tell _ _)

/-- The handle of a hook that was undone is dropped, and the hook with it. -/
theorem Undone.dropped {w₁ : World} (u : Undone k code h w w₁) (hooks : List Hook)
    (sub : ∀ x ∈ hooks, x ∈ w₁.hooks) :
    Acted k code w (releaseNode k h.node { w₁ with hooks }) := by
  have beside := releaseNode_beside k h.node { w₁ with hooks }
  have same : (releaseNode k h.node { w₁ with hooks }).patched? k = w₁.patched? k :=
    beside.patched? k
  refine ⟨u.stays.until same, fun covered => Or.inr ?_⟩
  rw [Covered, same] at covered
  obtain ⟨c', kept', o⟩ := u.done covered
  obtain ⟨x, mx, key, node⟩ := u.handle
  have there : h.node ∈ kept' := node ▸ o.booked.handles x mx key
  obtain ⟨kept₂, o₂, _⟩ :=
    (o.rehook hooks fun y my => o.booked.handles y (sub y my)).releaseNode there
  exact ⟨c', kept₂, o₂⟩

/-- While its manager is in hand, a hook is undone if it is applied, with a report if that fails.
Then its handle goes, and the hook may be given up. -/
theorem dropHook_rule {P Q : World → Prop} (plain : h.applied = false → P w)
    (undone : h.applied = true → (undoHook h).Ends w (fun _ => P) P)
    (quiet : ∀ w₁ w₂, P w₁ → w₁.Quiet w₂ → P w₂)
    (inHand : ∀ w₁, P w₁ → w₁.manager = some h.chain.manager)
    (dropped : ∀ w₁, P w₁ → Q (releaseNode h.chain h.node { w₁ with
      hooks := w₁.hooks.filter fun x =>
        x.chain.manager != h.chain.manager || x.node.id != h.node.id })) :
    (dropHook h).Ends w (fun _ => Q) Q := by
  have rest {w₁ : World} (p : P w₁) :
      (do
        Op.change fun w => { w with
          hooks := w.hooks.filter fun x =>
            x.chain.manager != h.chain.manager || x.node.id != h.node.id }
        Op.change (releaseNode h.chain h.node)
        dropManagerIfUnused h.chain.manager : Op World Unit).Ends w₁ (fun _ => Q) Q := by
    apply Ends.bind
    apply Ends.change
    apply Ends.bind
    apply Ends.change
    apply Ends.bind
    apply Ends.get
    rw [if_pos]
    · apply Ends.pure
      exact dropped w₁ p
    · have stays := (releaseNode_beside h.chain h.node { w₁ with
        hooks := w₁.hooks.filter fun x =>
          x.chain.manager != h.chain.manager || x.node.id != h.node.id }).manager.trans (inHand w₁ p)
      simp [stays]
  unfold dropHook
  split <;> rename_i applied
  · apply Ends.bind
    apply Ends.outcome
    apply (undone applied).mono
    · rintro ⟨⟩ w₁ p
      exact rest p
    · intro w₁ p e
      apply Ends.bind
      apply report_ends
      intro w₂ q
      exact rest (quiet w₁ w₂ p q)
  · exact rest (plain (by simpa using applied))

theorem dropHook_ends (o : Steady k code kept c w) (mh : h ∈ w.hooks) (key : h.chain = k) :
    (dropHook h).Ends w (fun _ => Acted k code w) (Acted k code w) := by
  subst key
  exact dropHook_rule (fun _ => .refl o mh rfl) (fun _ => undoHook_ends o mh rfl)
    (fun _ _ u q => u.quiet q) (fun _ u => u.inHand)
    fun _ u => u.dropped _ fun _ mx => List.mem_of_mem_filter mx

end Detouring.World
