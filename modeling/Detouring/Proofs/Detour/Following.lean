-- What a notice about fresh code does to detours, one after the other. A detour of the method moves
-- to the fresh code or is given up; a detour that leads to the method is turned, unless its jump is
-- stuck. Nothing else happens to any detour.
import Detouring.Proofs.Detour.Orderly

namespace Detouring

open Op Machine

variable {m m' : Machine} {r : Redirection} {w w' w'' : World} {method : Method}
  {start size id : Nat}

namespace World

/-- A detour of the method is applied. It moves when the method is compiled again. -/
def Moves (w : World) (method : Method) : Prop :=
  ∃ id r target factory, w.redirection? id = some r ∧ w.methods? id = some (method, target, factory)

/-- What becomes of the jump of one detour that is told of fresh code. -/
inductive Movement (method : Method) (start id : Nat) (w w' : World) : Prop where
  | stays (same : w'.redirection? = w.redirection?)
      (code : ∀ x, w.machine.Foreign x → w'.machine.memory.bytes x = w.machine.memory.bytes x)
      (stands : ∀ r, w.redirection? id = some r → r.Stands w.machine → r.Stands w'.machine)
      (aside : ∀ r source target factory, w.redirection? id = some r →
        w.methods? id = some (source, target, factory) →
        source ≠ method ∧ (target = method → r.Stuck start))
  | lost (source target : Method) (factory : Nat)
      (ofSource : w.methods? id = some (source, target, factory) ∧ source = method)
      (after : w'.redirection? = Function.update w.redirection? id none)
      (code : ∀ x, w.machine.Foreign x → w'.machine.memory.bytes x = w.machine.memory.bytes x)
  | moved (r fresh : Redirection) (source target : Method) (factory : Nat)
      (ofSource : w.methods? id = some (source, target, factory) ∧ source = method)
      (before : w.redirection? id = some r)
      (after : w'.redirection? = Function.update w.redirection? id (some fresh))
      (here : fresh.source = start) (leads : fresh.target = r.target)
      (stands : fresh.Stands w'.machine) (covers : fresh.patch.Covers w.machine w'.machine)
  | turned (r : Redirection) (source target : Method) (factory : Nat)
      (ofTarget : w.methods? id = some (source, target, factory) ∧ source ≠ method ∧
        target = method)
      (before : w.redirection? id = some r) (loose : ¬ r.Stuck start)
      (after : w'.redirection? = Function.update w.redirection? id (some (r.aimed start)))
      (stands : r.Stands w.machine → (r.aimed start).Stands w'.machine)
      (beside : ∀ x, w.machine.Foreign x → x < r.source ∨ r.source + r.patch.jump.size ≤ x →
        w'.machine.memory.bytes x = w.machine.memory.bytes x)

/-- One detour was told of fresh code. The others are spared. -/
structure Followed (method : Method) (start id : Nat) (w w' : World) : Prop where
  orderly : w'.Orderly
  along : w.Along w'
  platform : w'.platform = w.platform
  subscribers : w'.runtime.subscribers = w.runtime.subscribers
  methods : w'.methods? = w.methods?
  foreign : ∀ x, w.machine.Foreign x → w'.machine.Foreign x
  others : ∀ other, other ≠ id → ∀ r, w.redirection? other = some r → ∀ b ∈ r.blocks, ∀ x, b.Has x →
    w'.machine.memory.bytes x = w.machine.memory.bytes x
  movement : Movement method start id w w'

theorem Followed.of_quiet (o : w.Orderly) (q : w.Quiet w')
    (aside : ∀ r source target factory, w.redirection? id = some r →
      w.methods? id = some (source, target, factory) →
      source ≠ method ∧ (target = method → r.Stuck start)) : Followed method start id w w' := by
  have still := Gains.of_arena o.holds q.arena
  exact ⟨o.quiet q, q.toAlong, q.platform, q.subscribers, q.toBeside.methods?, still.foreign,
    fun other _ r hr b mb => still.blocks b (mem_holdings hr mb),
    .stays q.toBeside.redirection? still.code
      (fun r hr stands => stands.gains still fun b mb => mem_holdings hr mb) aside⟩

/-- A line in the log makes no difference. -/
theorem Followed.quiet (f : Followed method start id w w') (q : w'.Quiet w'') :
    Followed method start id w w'' := by
  have still := Gains.of_arena f.orderly.holds q.arena
  have memory : w''.machine.memory = w'.machine.memory :=
    congrArg (fun a : Arena PageSupply => a.source.memory) q.arena
  have same := q.toBeside.redirection?
  have kept {other : Nat} {r : Redirection} (there : w'.redirection? other = some r)
      (stands : r.Stands w'.machine) : r.Stands w''.machine :=
    stands.gains still fun b mb => mem_holdings there mb
  refine ⟨f.orderly.quiet q, f.along.trans q.toAlong, q.platform.trans f.platform,
    q.subscribers.trans f.subscribers, q.toBeside.methods?.trans f.methods,
    fun x h => still.foreign x (f.foreign x h), fun other beside r hr b mb x has => ?_, ?_⟩
  · rw [memory]
    exact f.others other beside r hr b mb x has
  · rcases f.movement with ⟨here, code, stands, aside⟩ | ⟨s, t, g, ofSource, after, code⟩ |
      ⟨r, fresh, s, t, g, ofSource, before, after, here, leads, stands, covers⟩ |
      ⟨r, s, t, g, ofTarget, before, loose, after, stands, beside⟩
    · exact .stays (same.trans here) (memory ▸ code) (fun r hr standing =>
        kept (here ▸ hr) (stands r hr standing)) aside
    · exact .lost s t g ofSource (same.trans after) (memory ▸ code)
    · exact .moved r fresh s t g ofSource before (same.trans after) here leads
        (kept (after ▸ Function.update_self ..) stands)
        ⟨covers.backup, memory ▸ covers.beside⟩
    · exact .turned r s t g ofTarget before loose (same.trans after)
        (fun standing => kept (after ▸ Function.update_self ..) (stands standing)) (memory ▸ beside)

/-- The jumps of other detours are where they were. -/
theorem Followed.redirection?_of_ne (f : Followed method start id w w') {other : Nat}
    (away : other ≠ id) : w'.redirection? other = w.redirection? other := by
  rcases f.movement with ⟨same, _⟩ | ⟨_, _, _, _, after, _⟩ | ⟨_, _, _, _, _, _, _, after, _⟩ |
    ⟨_, _, _, _, _, _, _, after, _⟩
  · exact congrFun same other
  all_goals rw [after, Function.update_of_ne away]

/-- A jump that stands after a notice stood in the same place before, or was moved. -/
theorem Followed.origin (f : Followed method start id w w') {other : Nat} {r' : Redirection}
    (h : w'.redirection? other = some r') : ∃ r, w.redirection? other = some r ∧
      ((r'.source = r.source ∧ r'.patch.jump.size = r.patch.jump.size) ∨ r'.source = start ∧
        ∃ target factory, w.methods? other = some (method, target, factory)) := by
  by_cases away : other ≠ id
  · exact ⟨r', f.redirection?_of_ne away ▸ h, Or.inl ⟨rfl, rfl⟩⟩
  obtain rfl := not_not.mp away
  rcases f.movement with ⟨same, _⟩ | ⟨_, _, _, _, after, _⟩ |
    ⟨r, fresh, _, t, g, ofSource, before, after, here, _⟩ | ⟨r, _, _, _, _, before, _, after, _⟩
  · exact ⟨r', same ▸ h, Or.inl ⟨rfl, rfl⟩⟩
  all_goals rw [after, Function.update_self] at h
  · cases h
  · obtain rfl := Option.some.inj h
    obtain ⟨names, rfl⟩ := ofSource
    exact ⟨r, before, Or.inr ⟨here, t, g, names⟩⟩
  · obtain rfl := Option.some.inj h
    exact ⟨r, before, Or.inl ⟨rfl, rfl⟩⟩

/-- Beside the fresh code and the jump of the detour, no code of others changes. -/
theorem Followed.code (f : Followed method start id w w') {x : Nat} (foreign : w.machine.Foreign x)
    (beside : ∀ r, w.redirection? id = some r → x < r.source ∨ r.source + r.patch.jump.size ≤ x)
    (fresh : ∀ r target factory, w.redirection? id = some r →
      w.methods? id = some (method, target, factory) →
      x < start ∨ start + JumpForm.absolute.size ≤ x) :
    w'.machine.memory.bytes x = w.machine.memory.bytes x := by
  rcases f.movement with ⟨_, code, _⟩ | ⟨_, _, _, _, _, code⟩ |
    ⟨r, fresh', _, t, g, ofSource, before, _, here, _, _, covers⟩ |
    ⟨r, _, _, _, _, before, _, _, _, code⟩
  · exact code x foreign
  · exact code x foreign
  · refine covers.beside x foreign ?_
    obtain ⟨names, rfl⟩ := ofSource
    have out := fresh r t g before names
    have size := fresh'.patch.jump.size_le
    have here : fresh'.patch.jump.source = start := here
    omega
  · exact code x foreign (beside r before)

/-! ## One detour -/

section

variable {d d' : MethodDetour} {fresh : Redirection}

/-- The record of the detour has changed. The blocks of the others are spared. -/
theorem Followed.of_becomes (o : w.Orderly) (found : w.detour? d.id = some d)
    (becomes : w.Becomes d' w') (same : d.Alike d')
    (holds : w'.machine.Holds (d'.blocks ++ (w.without d.id).holdings))
    (spares : Spares (w.without d.id).holdings w.machine w'.machine) (settled : d'.Settled w')
    (movement : Movement method start d.id w w') : Followed method start d.id w w' := by
  have found' : w.detour? d'.id = some d := same.id ▸ found
  exact ⟨o.becomes becomes found' (same.id ▸ holds) spares.foreign settled, becomes.along,
    becomes.platform, becomes.subscribers, becomes.methods? found' same, spares.foreign,
    fun _ away _ hr b mb => spares.blocks b (mem_holdings_without away hr mb), movement⟩

/-- The detour has moved to the fresh code. -/
theorem Followed.of_moved (o : w.Orderly) (found : w.detour? d.id = some d)
    (patched : d.redirection = some r) (room : w.Moves d.source → w.machine.Code start)
    (becomes : w.Becomes { (d.withdrawn r).redirected fresh with busy := false } w')
    (carried : Redirection.Carried
      (r.alternate.toList ++ (d.retired ++ (w.without d.id).holdings)) start r.target w.machine
      fresh w'.machine)
    (callable : fresh.alternate.isSome) : Followed d.source start d.id w w' := by
  have md := List.mem_of_find?_eq_some found
  have names := o.methods? md
  have here := (o.redirection? md).trans patched
  obtain ⟨held, spares, stands, covers⟩ := carried.done fun i hi =>
    room ⟨d.id, r, d.target, d.factory, here, names⟩ i
      (Nat.lt_of_lt_of_le hi fresh.patch.jump.size_le)
  refine .of_becomes o found becomes ⟨rfl, rfl, rfl, rfl, rfl⟩ ?_ (spares.mono ?_)
    (.of_patched rfl rfl (o.settled d md).unchained stands.toLaid fun _ => callable)
    (.moved r fresh _ _ _ ⟨names, rfl⟩ here (becomes.redirection? found) carried.here carried.leads
      stands covers)
  · rw [MethodDetour.blocks_of_patched rfl, List.append_assoc]
    exact held.mono ((d.perm_withdrawn r _).append_left _).subperm
  · exact List.subset_append_of_subset_right _ (List.subset_append_right _ _)

/-- The fresh code could not be redirected. -/
theorem Followed.of_lost (o : w.Orderly) (found : w.detour? d.id = some d)
    (becomes : w.Becomes (d.withdrawn r) w')
    (gained : Gains (r.alternate.toList ++ (d.retired ++ (w.without d.id).holdings)) [] w.machine
      w'.machine) : Followed d.source start d.id w w' := by
  have md := List.mem_of_find?_eq_some found
  have settled := o.settled d md
  refine .of_becomes o found becomes ⟨rfl, rfl, rfl, rfl, rfl⟩ ?_ (gained.toSpares.mono ?_)
    (.of_bare rfl settled.idle settled.unchained)
    (.lost _ _ _ ⟨o.methods? md, rfl⟩ (becomes.redirection? found) gained.code)
  · rw [MethodDetour.blocks_of_bare rfl]
    exact gained.holds.mono (d.perm_withdrawn r _).subperm
  · exact List.subset_append_of_subset_right _ (List.subset_append_right _ _)

/-- The detour was pointed at the fresh code. -/
theorem Followed.of_turned (o : w.Orderly) (found : w.detour? d.id = some d)
    (patched : d.redirection = some r) (callable : r.alternate.isSome)
    (notSource : d.source ≠ method) (ofTarget : d.target = method) (loose : ¬ r.Stuck start)
    (becomes : w.Becomes (d.redirected (r.aimed start)) w')
    (turned : r.Turned (d.retired ++ (w.without d.id).holdings) start w.machine w'.machine) :
    Followed method start d.id w w' := by
  have md := List.mem_of_find?_eq_some found
  have settled := o.settled d md
  refine .of_becomes o found becomes ⟨rfl, rfl, rfl, rfl, rfl⟩ ?_ (turned.spares.mono ?_)
    (.of_patched rfl settled.idle settled.unchained turned.laid fun _ => callable)
    (.turned r _ _ _ ⟨o.methods? md, notSource, ofTarget⟩ ((o.redirection? md).trans patched) loose
      (becomes.redirection? found) (fun stands => ⟨turned.laid, turned.jump stands.jump⟩)
      turned.beside)
  · rw [MethodDetour.blocks_of_patched rfl, List.append_assoc]
    exact turned.holds
  · exact List.subset_append_right _ _

theorem follow_followed (o : w.Orderly) (keeps : w.platform.keepsReplacedCode = true)
    (room : w.Moves method → w.machine.Code start) :
    (follow (fun d => tellWatcher d.watcher) id method start size).Ends w
      (fun _ => Followed method start id w) (Followed method start id w) := by
  have holds {d : MethodDetour} {r : Redirection} (found : w.detour? id = some d)
      (patched : d.redirection = some r) :
      w.machine.Holds (r.blocks ++ (d.retired ++ (w.without d.id).holdings)) := by
    have held := o.holds_of (List.mem_of_find?_eq_some found)
    rwa [MethodDetour.blocks_of_patched patched, List.append_assoc] at held
  apply follow_ends
  · intro none
    refine .of_quiet o (.refl w) fun r _ _ _ hr => ?_
    cases (redirection?_of_none none).symm.trans hr
  · intro d found unconcerned
    have md := List.mem_of_find?_eq_some found
    obtain rfl := id_of_detour found
    refine .of_quiet o (.refl w) fun r source target factory hr hm => ?_
    obtain ⟨notSource, notTarget⟩ :=
      unconcerned r ((o.redirection? md).symm.trans hr) (o.settled d md).idle
    obtain ⟨rfl, rest⟩ := Prod.mk.inj (Option.some.inj ((o.methods? md).symm.trans hm))
    obtain ⟨rfl, _⟩ := Prod.mk.inj rest
    exact ⟨notSource, fun same => (notTarget same).elim⟩
  · intro d r found patched _ ofSource
    have settled := o.settled d (List.mem_of_find?_eq_some found)
    obtain rfl := id_of_detour found
    obtain rfl := ofSource
    apply (followSource_moved (holds found patched) found settled.unchained).mono
    · rintro ⟨⟩ w' ⟨fresh, becomes, carried, callable⟩
      exact .of_moved o found patched room becomes carried (callable keeps)
    · exact fun w' ⟨becomes, gained⟩ => .of_lost o found becomes gained
  · intro d r found patched _ notSource ofTarget
    have md := List.mem_of_find?_eq_some found
    obtain rfl := id_of_detour found
    have callable := (o.settled d md).callable keeps r patched
    have laid := (o.settled d md).laid r patched
    apply (followTarget_turned (holds found patched) laid callable).mono
    · rintro ⟨⟩ w' ⟨loose, becomes, turned⟩
      exact .of_turned o found patched callable notSource ofTarget loose becomes turned
    · rintro w' ⟨stuck, quiet⟩
      refine .of_quiet o quiet fun r' source target factory hr hm => ?_
      obtain rfl := Option.some.inj (patched.symm.trans ((o.redirection? md).symm.trans hr))
      obtain ⟨rfl, rest⟩ := Prod.mk.inj (Option.some.inj ((o.methods? md).symm.trans hm))
      exact ⟨notSource, fun _ => stuck⟩

end

/-- A detour that is told of fresh code follows; a failure goes to the log. -/
theorem followOrReport_followed (o : w.Orderly) (keeps : w.platform.keepsReplacedCode = true)
    (room : w.Moves method → w.machine.Code start) {E : World → Prop} :
    (followOrReport method start size id).Ends w (fun _ => Followed method start id w) E :=
  followOrReport_left (follow_followed o keeps room) fun _ _ followed quiet => followed.quiet quiet

/-! ## All detours -/

/-- A detour of the method, or one that leads to it, is among those that its factory tells. -/
theorem mem_related {source target : Method} {factory : Nat}
    (names : w.methods? id = some (source, target, factory))
    (concerns : method = source ∨ method = target) : id ∈ w.related factory method := by
  obtain ⟨d, found, same⟩ := Option.map_eq_some_iff.mp names
  obtain ⟨rfl, rest⟩ := Prod.mk.inj same
  obtain ⟨rfl, rfl⟩ := Prod.mk.inj rest
  obtain rfl := id_of_detour found
  refine List.mem_map_of_mem (List.mem_filter.mpr ⟨List.mem_of_find?_eq_some found, ?_⟩)
  rcases concerns with h | h <;> simp [h]

/-- What following does to `I`, telling a factory does. -/
theorem deliverTo_keeps {n : CompiledMethod} {factory : Nat} {I E : World → Prop} (begin : I w)
    (quiet : ∀ w w', w.Quiet w' → I w → I w') (name : ∀ w, I w → w.nameOf n.method = method)
    (keep : ∀ other w, I w → (followOrReport method n.start n.size other).Ends w (fun _ => I) E) :
    (deliverTo n factory).Ends w (fun _ => I) E := by
  apply Ends.bind
  apply Ends.get
  split
  · apply Ends.bind
    apply (canonicalize_ends w n.method).mono _ fun _ h => h
    rintro _ w₁ ⟨rfl, silent⟩
    rw [name w begin]
    apply Ends.bind
    apply Ends.get
    exact Ends.forM (quiet w w₁ silent begin) fun j _ => keep j
  · exact Ends.pure begin

/-- What all detours keep, a notice keeps. -/
theorem deliver_keeps {n : CompiledMethod} {I E : World → Prop} (begin : I w)
    (quiet : ∀ w w', w.Quiet w' → I w → I w') (name : ∀ w, I w → w.nameOf n.method = method)
    (keep : ∀ other w, I w → (followOrReport method n.start n.size other).Ends w (fun _ => I) E) :
    (deliver n).Ends w (fun _ => I) E := by
  apply Ends.bind
  apply Ends.get
  exact Ends.forM begin fun _ _ w i => deliverTo_keeps i quiet name keep

/-- A notice reaches the detours of each factory that hears of it. What one of them brings about,
the notice brings about. -/
theorem deliver_reaches {n : CompiledMethod} {factory : Nat} {I J E : World → Prop} (begin : I w)
    (hears : w.Hears factory) (weak : ∀ w, J w → I w)
    (quiet : ∀ w w', w.Quiet w' → (I w → I w') ∧ (J w → J w'))
    (known : ∀ w, I w → w.nameOf n.method = method ∧ factory ∈ w.factories ∧
      id ∈ w.related factory method)
    (keep : ∀ other w, I w → (followOrReport method n.start n.size other).Ends w (fun _ => I) E)
    (stay : ∀ other w, J w → (followOrReport method n.start n.size other).Ends w (fun _ => J) E)
    (reach : ∀ w, I w → (followOrReport method n.start n.size id).Ends w (fun _ => J) E) :
    (deliver n).Ends w (fun _ => J) E := by
  apply Ends.bind
  apply Ends.get
  refine Ends.forM_reaches hears.1 begin (fun _ _ w i => ?_) (fun _ _ w j => ?_) fun w i => ?_
  · exact deliverTo_keeps i (fun w w' q => (quiet w w' q).1) (fun w i => (known w i).1) keep
  · exact deliverTo_keeps j (fun w w' q => (quiet w w' q).2)
      (fun w j => (known w (weak w j)).1) stay
  · apply Ends.bind
    apply Ends.get
    rw [if_pos (known w i).2.1]
    apply Ends.bind
    apply (canonicalize_ends w n.method).mono _ fun _ h => h
    rintro _ w₁ ⟨rfl, silent⟩
    rw [(known w i).1]
    have i₁ := (quiet w w₁ silent).1 i
    apply Ends.bind
    apply Ends.get
    exact Ends.forM_reaches (known w₁ i₁).2.2 i₁ (fun j _ => keep j) (fun j _ => stay j) reach

end World

end Detouring
