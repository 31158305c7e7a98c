-- A hooked method with fresh code. The detour moves to the fresh code, or it is no longer applied;
-- of the links only the last one has to change, which leads to the new alternate entry.
import Detouring.Proofs.Hook.Rooting

namespace Detouring

namespace World

open Op Machine

variable {k : ChainKey} {code : Set Nat} {kept nodes : List ChainNode} {c : Chain}
  {w w' : World} {d : MethodDetour} {proxy : Stub} {x : Rig} {r : Redirection} {id : Nat}
  {start size entry old : Nat}

/-! ## The last link -/

theorem relinkTail_ends (b : Booked k kept c w) (root : c.root = some d.id)
    (found : w.detour? d.id = some d) (patched : d.redirection = some r)
    (callable : r.entry? = some entry) (s : x.Stands code w.machine) (hp : x.proxy = some proxy)
    (sub : ∀ n ∈ c.linkedNodes, n ∈ x.kept) (order : c.order = c.wantedOrder)
    (many : c.linkedNodes ≠ [])
    (linked : Chain.Linked w.machine.memory proxy c.linkedNodes old) {E : World → Prop} :
    (relinkTail k).Ends w
      (fun _ w' => ∃ machine, w' = { w with machine } ∧ x.Stands code machine ∧
        Chain.Linked machine.memory proxy c.linkedNodes entry) E := by
  have once : c.linkedNodes.Nodup := by
    unfold Chain.linkedNodes
    rw [order]
    exact b.books.wanted_nodes.2
  have last := List.getLast?_eq_some_getLast many
  have tail := (b.books.tail?_eq order many).trans last
  have applied := appliedRoot?_eq root found patched
  have alternate : d.alternateEntry? = some entry := by
    unfold MethodDetour.alternateEntry?
    rw [patched]
    exact callable
  apply Ends.bind
  apply Ends.get
  simp only [b.chain, applied, alternate, tail]
  apply changeMachine_ends
  obtain ⟨leads, stands⟩ := s.retail hp sub once last entry linked
  exact ⟨_, rfl, stands, leads⟩

theorem tellWatcher_ends {watcher : Watcher} {Q : World → Prop}
    (told : watcher = .chain k)
    (h : (relinkTail k).Ends w (fun _ => Q) fun _ => False) {E : World → Prop} :
    (tellWatcher watcher).Ends w (fun _ => Q) E := by
  subst told
  apply Ends.bind
  apply Ends.outcome
  apply h.mono
  · rintro ⟨⟩ w' here
    exact Ends.pure here
  · exact fun _ h => h.elim

/-! ## Moving to fresh code -/

/-- The method, if it is detoured, is detoured at `start`. -/
def MovedTo (w : World) (c : Chain) (start : Nat) : Prop :=
  ∀ r, w.patchOf c = some r → r.source = start

theorem MovedTo.of_bare (bare : w.patchOf c = none) : w.MovedTo c start := fun r hr => by
  rw [bare] at hr
  cases hr

/-- The detour follows its method: the old jump is given up, and another is written at the fresh
code. If that fails, the method is bare. -/
theorem followSource_ends (o : Steady k code kept c w) (root : c.root = some d.id)
    (found : w.detour? d.id = some d) (patched : d.redirection = some r)
    (room : ∀ i < JumpForm.absolute.size, start + i ∈ code) :
    (followSource d r start size (tellWatcher d.watcher)).Ends w
      (fun _ w' => Steady k code kept c w' ∧ w.Along w' ∧ w'.MovedTo c start)
      (fun w' => Steady k code kept c w' ∧ w.Along w' ∧ w'.MovedTo c start) := by
  have patch : w.patchOf c = some r := (patchOf_eq root found).trans patched
  obtain ⟨_, proxy', found', hp', _, _, _, watcher⟩ := o.booked.rooted.root _ root
  obtain rfl := Option.some.inj (found.symm.trans found')
  obtain ⟨proxy, old, hp, _, order, many, leads⟩ := o.linked r patch
  obtain ⟨_, proxy'', hp'', target⟩ := o.leads r patch
  obtain rfl := Option.some.inj (hp.symm.trans hp')
  obtain rfl := Option.some.inj (hp.symm.trans hp'')
  have sub : ∀ n ∈ c.linkedNodes, n ∈ kept := fun n mn =>
    o.booked.nodes n (List.mem_append_left _ (Chain.Books.mem_nodesOf mn))
  have holds := o.stands.holds
  rw [Rig.blocks_patch patch] at holds
  have spares : Spares (w.rig c kept).stubBlocks w.machine (r.abandon w.machine) :=
    (Redirection.holds_abandon holds).toSpares
  -- The method is bare in between.
  have left := o.toInOrder.abandoned holds ⟨fun _ _ _ _ => rfl, fun _ f => f, fun _ _ => rfl⟩
  let moved (fresh : Redirection) (busy : Bool) : MethodDetour :=
    { (d.withdrawn r).redirected fresh with busy }
  have alike (fresh : Redirection) (busy : Bool) : d.Alike (moved fresh busy) :=
    ⟨rfl, rfl, rfl, rfl, rfl⟩
  apply (followSource_tells (R := fun fresh m => fresh.alternate.isSome ∧ fresh.source = start ∧
      fresh.target = r.target ∧
      Rig.Stands code { kept, proxy := c.proxy, patch := some fresh } m ∧
      ∃ entry, fresh.entry? = some entry ∧ Chain.Linked m.memory proxy c.linkedNodes entry) found
    (Redirection.create_ends left.holds _ _ start r.target (some size))
    fun fresh w₁ becomes ⟨carried, keeps⟩ => ?_).mono
  · rintro ⟨⟩ w' ⟨fresh, becomes, callable, here, leads', stands, entry, enters, linked⟩
    have goes (r' : Redirection) (hr : some fresh = some r') : r'.alternate.isSome ∧
        ∃ proxy, c.proxy = some proxy ∧ r'.target = proxy.entry := by
      obtain rfl := Option.some.inj hr
      exact ⟨callable, proxy, hp, leads'.trans target⟩
    obtain ⟨o', patch'⟩ := InOrder.of_becomes o.booked root found (moved fresh false)
      (alike fresh false) rfl becomes goes stands
    refine ⟨⟨o', fun r' hr => ?_⟩, becomes.along, fun r' hr => ?_⟩
    · obtain rfl := Option.some.inj (patch'.symm.trans hr)
      exact ⟨proxy, entry, hp, enters, order, many, linked⟩
    · obtain rfl := Option.some.inj (patch'.symm.trans hr)
      exact here
  · rintro w' ⟨becomes, back⟩
    obtain ⟨o', bare⟩ := InOrder.of_bare o.booked root found (d.withdrawn r)
      ⟨rfl, rfl, rfl, rfl, rfl⟩ (o.idle _ d root found) rfl becomes (left.gains back)
    exact ⟨⟨o', .of_bare bare⟩, becomes.along, .of_bare bare⟩
  · -- The chain is told while the detour is busy.
    have callable : fresh.alternate.isSome := keeps o.booked.setting.keeps
    obtain ⟨entry, enters⟩ := Redirection.exists_entry callable
    have covered : ∀ i < fresh.patch.jump.size, start + i ∈ code := fun i hi =>
      room i (Nat.lt_of_lt_of_le hi fresh.patch.jump.size_le)
    obtain ⟨stands, spares₁⟩ := left.repatch carried covered
    have booked := (o.booked.put root found (moved fresh true) (alike fresh true)).beside becomes
    have linked := o.stands.linked (spares.trans spares₁).blocks hp sub leads
    apply (tellWatcher_ends (E := fun _ => False) watcher (relinkTail_ends (d := moved fresh true)
      booked root (becomes.detour? found) rfl enters stands hp sub order many linked)).mono
    · rintro ⟨⟩ w₂ ⟨m₂, rfl, stands₂, leads₂⟩
      exact ⟨beside_machine _ m₂, callable, carried.here, carried.leads, stands₂, entry, enters, leads₂⟩
    · exact fun _ h => h.elim

/-! ## Notices -/

theorem followOrReport_ends (o : Steady k code kept c w) (root : c.root = some id)
    (room : ∀ i < JumpForm.absolute.size, start + i ∈ code) {E : World → Prop} :
    (followOrReport k.method start size id).Ends w
      (fun _ w' => Steady k code kept c w' ∧ w.Along w' ∧ w'.MovedTo c start) E := by
  obtain ⟨d, _, found, _, source, _⟩ := o.booked.rooted.root id root
  obtain rfl := id_of_detour found
  have known {d' : MethodDetour} (found' : w.detour? d.id = some d') : d' = d :=
    Option.some.inj (found'.symm.trans found)
  apply Ends.bind
  apply Ends.outcome
  apply follow_ends
  · intro none
    cases found.symm.trans none
  · intro d' found' unconcerned
    obtain rfl := known found'
    apply Ends.pure
    refine ⟨o, .refl w, .of_bare ((patchOf_eq root found).trans ?_)⟩
    rcases patched : d'.redirection with _ | r
    · rfl
    · exact ((unconcerned r patched (o.idle _ d' root found)).1 source).elim
  · intro d' r found' patched _ _
    obtain rfl := known found'
    apply (followSource_ends o root found patched room).mono
    · intro _ w₁ moved
      exact Ends.pure moved
    · intro w₁ ⟨o₁, along, moved⟩ e
      apply withDetour_ends
      · intro d₁ _
        apply report_ends
        intro w₂ quiet
        exact ⟨o₁.quiet quiet, along.trans quiet.toAlong, fun r hr =>
          moved r (quiet.patchOf c ▸ hr)⟩
      · exact fun _ => ⟨o₁, along, moved⟩
  · intro d' _ found' _ _ notSource _
    exact (notSource (known found' ▸ source)).elim

/-- Each of these detours is that of the chain. -/
theorem followAll_ends {ids : List Nat} (root : ∀ id ∈ ids, c.root = some id)
    (room : ∀ i < JumpForm.absolute.size, start + i ∈ code) (o : Steady k code kept c w)
    {E : World → Prop} :
    (ids.forM (followOrReport k.method start size)).Ends w
      (fun _ w' => Steady k code kept c w' ∧ w.Along w' ∧
        (w'.MovedTo c start ∨ ids = [] ∧ w' = w)) E := by
  induction ids generalizing w with
  | nil => exact Ends.pure ⟨o, .refl w, Or.inr ⟨rfl, rfl⟩⟩
  | cons id rest ih =>
    apply Ends.bind
    apply (followOrReport_ends o (root id List.mem_cons_self) room).mono _ fun _ h => h
    rintro ⟨⟩ w₁ ⟨o₁, along, moved⟩
    apply (ih (fun j mj => root j (List.mem_cons_of_mem id mj)) o₁).mono _ fun _ h => h
    rintro ⟨⟩ w₂ ⟨o₂, along₂, moved₂ | ⟨_, rfl⟩⟩
    · exact ⟨o₂, along.trans along₂, Or.inl moved₂⟩
    · exact ⟨o₂, along.trans along₂, Or.inl moved⟩

theorem deliverTo_ends {n : CompiledMethod} {factory : Nat} (o : Steady k code kept c w)
    (name : w.nameOf n.method = k.method)
    (room : ∀ i < JumpForm.absolute.size, n.start + i ∈ code) {E : World → Prop} :
    (deliverTo n factory).Ends w
      (fun _ w' => Steady k code kept c w' ∧ w.Along w' ∧
        (w.MovedTo c n.start ∨ factory = k.manager ∧ factory ∈ w.factories →
          w'.MovedTo c n.start)) E := by
  apply Ends.bind
  apply Ends.get
  split
  · apply Ends.bind
    apply (canonicalize_ends w n.method).mono _ fun _ h => h
    rintro name' w₁ ⟨rfl, quiet⟩
    rw [name]
    have same := quiet.patchOf c
    have o₁ := o.quiet quiet
    apply Ends.bind
    apply Ends.get
    have root (id : Nat) (mid : id ∈ w₁.related factory k.method) : c.root = some id := by
      obtain ⟨d, md, rfl⟩ := List.mem_map.mp mid
      obtain ⟨md, touches⟩ := List.mem_filter.mp md
      have touches := ((Bool.and_eq_true _ _).mp touches).2
      exact o₁.booked.rooted.alone d md (by simpa using touches)
    apply (followAll_ends root room o₁).mono _ fun _ h => h
    rintro ⟨⟩ w₂ ⟨o₂, along, moved | ⟨nothing, rfl⟩⟩
    · exact ⟨o₂, quiet.toAlong.trans along, fun _ => moved⟩
    · refine ⟨o₂, quiet.toAlong, fun told r hr => ?_⟩
      rcases told with moved | ⟨rfl, _⟩
      · exact moved r (same ▸ hr)
      · -- A method that is detoured is related to its factory.
        obtain ⟨id, _, root, _⟩ := root_of_patchOf hr
        obtain ⟨d, _, found, _, source, _, factory, _⟩ := o₁.booked.rooted.root id root
        have mid : d.id ∈ w₂.related k.manager k.method := by
          refine List.mem_map_of_mem (List.mem_filter.mpr ⟨List.mem_of_find?_eq_some found, ?_⟩)
          simp [factory, source]
        rw [nothing] at mid
        cases mid
  · rename_i idle
    apply Ends.pure
    refine ⟨o, .refl w, fun told => ?_⟩
    rcases told with moved | ⟨_, told⟩
    · exact moved
    · exact (idle told).elim

/-- A notice moves the detour of a chain whose factory is told. -/
theorem deliver_ends {n : CompiledMethod} (o : Steady k code kept c w)
    (name : w.nameOf n.method = k.method)
    (room : ∀ i < JumpForm.absolute.size, n.start + i ∈ code) {E : World → Prop} :
    (deliver n).Ends w
      (fun _ w' => Steady k code kept c w' ∧ w.Along w' ∧
        (k.manager ∈ w.runtime.subscribers → k.manager ∈ w.factories →
          w'.MovedTo c n.start)) E := by
  have told (subscribers : List Nat) {w : World} (o : Steady k code kept c w)
      (name : w.nameOf n.method = k.method) : (subscribers.forM (deliverTo n)).Ends w
      (fun _ w' => Steady k code kept c w' ∧ w.Along w' ∧
        (w.MovedTo c n.start ∨ k.manager ∈ subscribers ∧ k.manager ∈ w.factories →
          w'.MovedTo c n.start)) E := by
    induction subscribers generalizing w with
    | nil =>
      apply Ends.pure
      refine ⟨o, .refl w, ?_⟩
      rintro (moved | ⟨told, _⟩)
      · exact moved
      · cases told
    | cons factory rest ih =>
      apply Ends.bind
      apply (deliverTo_ends o name room).mono _ fun _ h => h
      rintro ⟨⟩ w₁ ⟨o₁, along, moved⟩
      apply (ih o₁ ((along.names _).trans name)).mono _ fun _ h => h
      rintro ⟨⟩ w₂ ⟨o₂, along₂, moved₂⟩
      refine ⟨o₂, along.trans along₂, ?_⟩
      rintro (before | ⟨told, used⟩)
      · exact moved₂ (Or.inl (moved (Or.inl before)))
      · rcases List.mem_cons.mp told with rfl | told
        · exact moved₂ (Or.inl (moved (Or.inr ⟨rfl, used⟩)))
        · exact moved₂ (Or.inr ⟨told, along.factories ▸ used⟩)
  apply Ends.bind
  apply Ends.get
  apply (told _ o name).mono _ fun _ h => h
  rintro ⟨⟩ w' ⟨o', along, moved⟩
  exact ⟨o', along, fun subscribed used => moved (Or.inr ⟨subscribed, used⟩)⟩

end World

end Detouring
