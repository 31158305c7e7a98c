-- One notice about fresh code, as it concerns one detour among others. Before the detour is told,
-- it may have its jump at earlier code or lead there; once it was told, it stays as it is to be.
import Detouring.Proofs.Detour.Effects
import Detouring.Proofs.Detour.Following

namespace Detouring

open Op Machine

variable {r r' fresh : Redirection} {start : Nat}

/-- No jump at fresh code touches that of the redirection. -/
def Redirection.AwayFrom (r : Redirection) (start : Nat) : Prop :=
  start + JumpForm.absolute.size ≤ r.source ∨ r.source + r.patch.jump.size ≤ start

theorem Redirection.AwayFrom.apart (h : r.AwayFrom start) (here : fresh.source = start) :
    fresh.Apart r := by
  have size := fresh.patch.jump.size_le
  unfold AwayFrom at h
  unfold Apart
  rw [here]
  omega

theorem Redirection.Apart.symm (h : r.Apart r') : r'.Apart r := Or.symm h

/-- A jump in the same place touches the same. -/
theorem Redirection.Apart.congr (h : r.Apart r') (source : fresh.source = r'.source)
    (size : fresh.patch.jump.size = r'.patch.jump.size) : r.Apart fresh := by
  unfold Apart at *
  omega

/-! ## One notice -/

/-- A notice, as it concerns one detour: the method that was compiled, its fresh code, and where the
jump of the detour is to stand and to lead when all have been told. -/
structure Course where
  id : Nat
  source : Method
  target : Method
  method : Method
  start : Nat
  body : Nat
  goal : Nat

namespace Course

variable {c : Course} {w v v' : World} {id factory : Nat}

/-- A jump at fresh code would lie over code of others, and beside the jumps of detours of other
methods. -/
structure Roomy (method : Method) (start : Nat) (v : World) : Prop where
  code : v.machine.Code start
  clear : ∀ other r source target factory, v.redirection? other = some r →
    v.methods? other = some (source, target, factory) → source ≠ method → r.AwayFrom start

/-- While detours are told, they stay in order, and there is room wherever a jump is to be. -/
structure Open (c : Course) (w v : World) : Prop where
  orderly : v.Orderly
  along : w.Along v
  platform : v.platform = w.platform
  subscribers : v.runtime.subscribers = w.runtime.subscribers
  methods : v.methods? = w.methods?
  room : v.Moves c.method → Roomy c.method c.start v
  only : c.method = c.source → ∀ other target factory, other ≠ c.id →
    v.methods? other = some (c.source, target, factory) → v.redirection? other = none

/-- The jump stands, and no other detour has one over it. -/
structure Alone (id : Nat) (r : Redirection) (v : World) : Prop where
  stands : r.Stands v.machine
  apart : ∀ other r', other ≠ id → v.redirection? other = some r' → r.Apart r'

/-- The detour is still to be told. -/
inductive Early (c : Course) (r : Redirection) (v : World) : Prop where
  | ofSource (same : c.method = c.source) (leads : r.target = c.goal)
  | ofTarget (other : c.method ≠ c.source) (same : c.method = c.target) (ahead : c.goal = c.start)
      (loose : ¬ r.Stuck c.start) (here : r.source = c.body) (alone : Alone c.id r v)

/-- The detour is as it is to be. -/
structure Late (c : Course) (r : Redirection) (v : World) : Prop where
  here : r.source = c.body
  leads : r.target = c.goal
  alone : Alone c.id r v
  ahead : c.method ≠ c.source → c.method = c.target → c.goal = c.start ∨ r.Stuck c.start

/-- The course is that of a detour between two methods. Fresh code of the source is its body. -/
structure Knows (c : Course) (w : World) (factory : Nat) : Prop where
  methods : w.methods? c.id = some (c.source, c.target, factory)
  fresh : c.method = c.source → c.body = c.start

theorem Open.followed (o : c.Open w v) (f : World.Followed c.method c.start id v v') :
    c.Open w v' := by
  refine ⟨f.orderly, o.along.trans f.along, f.platform.trans o.platform,
    f.subscribers.trans o.subscribers, f.methods.trans o.methods,
    fun ⟨mover, r, t, g, hr, hm⟩ => ?_, fun same other t g away hm => ?_⟩
  · obtain ⟨old, before, _⟩ := f.origin hr
    obtain ⟨code, clear⟩ := o.room ⟨mover, old, t, g, before, f.methods ▸ hm⟩
    refine ⟨fun i hi => f.foreign _ (code i hi), fun other r' s t g hr hm away => ?_⟩
    rw [f.methods] at hm
    obtain ⟨r, before, ⟨source, size⟩ | ⟨_, _, _, names⟩⟩ := f.origin hr
    · have clear := clear other r s t g before hm away
      unfold Redirection.AwayFrom at *
      omega
    · obtain ⟨rfl, _⟩ := Prod.mk.inj (Option.some.inj (hm.symm.trans names))
      exact (away rfl).elim
  · rw [f.methods] at hm
    rcases after : v'.redirection? other with _ | r'
    · rfl
    · obtain ⟨r, before, _⟩ := f.origin after
      cases (o.only same other t g away hm).symm.trans before

/-- What happens to others does not touch the jump. -/
theorem Alone.followed (k : Knows c w factory) (o : c.Open w v) (a : Alone c.id r v)
    (there : v.redirection? c.id = some r) (other : c.id ≠ id)
    (f : World.Followed c.method c.start id v v') : Alone c.id r v' := by
  have names : v.methods? c.id = some (c.source, c.target, factory) := o.methods ▸ k.methods
  -- Another detour of the method would be the only one of it that is applied.
  have away (j : Nat) (r' : Redirection) (t : Method) (g : Nat) (beside : j ≠ c.id)
      (hr : v.redirection? j = some r') (hm : v.methods? j = some (c.method, t, g)) :
      r.AwayFrom c.start := by
    refine (o.room ⟨j, r', t, g, hr, hm⟩).clear c.id r _ _ _ there names fun same => ?_
    cases (o.only same.symm j t g beside (same ▸ hm)).symm.trans hr
  refine ⟨a.stands.congr (fun i hi => ⟨f.foreign _ (a.stands.foreign i hi), ?_⟩)
    fun b mb => f.others c.id other r there b mb, fun j r' beside hr => ?_⟩
  · refine f.code (a.stands.foreign i hi) (fun r' hr => ?_) fun r' t g hr hm => ?_
    · have apart := a.apart id r' (Ne.symm other) hr
      unfold Redirection.Apart at apart
      omega
    · have clear := away id r' t g (Ne.symm other) hr hm
      unfold Redirection.AwayFrom at clear
      omega
  · obtain ⟨old, before, ⟨source, size⟩ | ⟨here, t, g, hm⟩⟩ := f.origin hr
    · exact (a.apart j old beside before).congr source size
    · exact ((away j old t g beside before hm).apart here).symm

theorem Early.followed (k : Knows c w factory) (o : c.Open w v) (e : Early c r v)
    (there : v.redirection? c.id = some r) (other : c.id ≠ id)
    (f : World.Followed c.method c.start id v v') : Early c r v' := by
  rcases e with ⟨same, leads⟩ | ⟨differs, same, ahead, loose, here, alone⟩
  · exact .ofSource same leads
  · exact .ofTarget differs same ahead loose here (alone.followed k o there other f)

theorem Late.followed (k : Knows c w factory) (o : c.Open w v) (l : Late c r v)
    (there : v.redirection? c.id = some r) (other : c.id ≠ id)
    (f : World.Followed c.method c.start id v v') : Late c r v' :=
  { l with alone := l.alone.followed k o there other f }

/-- While detours are told, this one is still to be told, or it is as it is to be. -/
structure Telling (c : Course) (w v : World) : Prop where
  opened : c.Open w v
  state : ∀ r, v.redirection? c.id = some r → Early c r v ∨ Late c r v

/-- The detour has been told. -/
structure Told (c : Course) (w v : World) : Prop where
  opened : c.Open w v
  late : ∀ r, v.redirection? c.id = some r → Late c r v

theorem Told.telling (t : Told c w v) : Telling c w v :=
  ⟨t.opened, fun r hr => Or.inr (t.late r hr)⟩

/-! ## Telling the detour -/

namespace Telling

/-- A jump that stays is as it is to be, for otherwise it would be moved or turned. -/
theorem stays (t : Telling c w v) (before : v.redirection? c.id = some r)
    (aside : c.source ≠ c.method ∧ (c.target = c.method → r.Stuck c.start))
    (others : ∀ other, other ≠ c.id → v'.redirection? other = v.redirection? other)
    (stands : r.Stands v.machine → r.Stands v'.machine) : Late c r v' := by
  obtain ⟨differs, stuck⟩ := aside
  rcases t.state r before with (⟨same, _⟩ | ⟨_, same, _, loose, _, _⟩) | late
  · exact (differs same.symm).elim
  · exact (loose (stuck same.symm)).elim
  · refine { late with alone := ⟨stands late.alone.stands, fun other r' beside hr => ?_⟩ }
    exact late.alone.apart other r' beside (others other beside ▸ hr)

theorem moved (k : Knows c w factory) (t : Telling c w v)
    (before : v.redirection? c.id = some r) (ofSource : c.method = c.source)
    (others : ∀ other, other ≠ c.id → v'.redirection? other = v.redirection? other)
    (here : fresh.source = c.start) (leads : fresh.target = r.target)
    (stands : fresh.Stands v'.machine) : Late c fresh v' := by
  have o := t.opened
  have names : v.methods? c.id = some (c.method, c.target, factory) :=
    ofSource ▸ o.methods ▸ k.methods
  have goal : r.target = c.goal := by
    rcases t.state r before with (⟨_, leads⟩ | ⟨differs, _, _, _, _, _⟩) | late
    · exact leads
    · exact (differs ofSource).elim
    · exact late.leads
  refine ⟨here.trans (k.fresh ofSource).symm, leads.trans goal,
    ⟨stands, fun other r' beside hr => ?_⟩, fun differs => (differs ofSource).elim⟩
  rw [others other beside] at hr
  obtain ⟨s, t, g, hm⟩ := World.exists_methods hr
  have room := o.room ⟨c.id, r, c.target, factory, before, names⟩
  refine Redirection.AwayFrom.apart (room.clear other r' s t g hr hm fun ofMethod => ?_) here
  rw [ofMethod, ofSource] at hm
  cases (o.only ofSource other t g beside hm).symm.trans hr

theorem turned (t : Telling c w v) (before : v.redirection? c.id = some r)
    (ofTarget : c.source ≠ c.method ∧ c.target = c.method) (loose : ¬ r.Stuck c.start)
    (others : ∀ other, other ≠ c.id → v'.redirection? other = v.redirection? other)
    (stands : r.Stands v.machine → (r.aimed c.start).Stands v'.machine) :
    Late c (r.aimed c.start) v' := by
  obtain ⟨differs, same⟩ := ofTarget
  obtain ⟨here, alone, ahead⟩ : r.source = c.body ∧ Alone c.id r v ∧ c.goal = c.start := by
    rcases t.state r before with (⟨same', _⟩ | ⟨_, _, ahead, _, here, alone⟩) | late
    · exact (differs same'.symm).elim
    · exact ⟨here, alone, ahead⟩
    · exact ⟨late.here, late.alone, (late.ahead (Ne.symm differs) same.symm).resolve_right loose⟩
  refine ⟨here, ahead.symm, ⟨stands alone.stands, fun other r' beside hr => ?_⟩,
    fun _ _ => Or.inl ahead⟩
  exact alone.apart other r' beside (others other beside ▸ hr)

/-- Being told makes the detour what it is to be. -/
theorem reaches (k : Knows c w factory) (t : Telling c w v)
    (f : World.Followed c.method c.start c.id v v') : Told c w v' := by
  refine ⟨t.opened.followed f, fun r' after => ?_⟩
  have names : v.methods? c.id = some (c.source, c.target, factory) :=
    t.opened.methods ▸ k.methods
  have others (other : Nat) (beside : other ≠ c.id) := f.redirection?_of_ne beside
  -- Only a jump that was lost needs no place; the detour is not applied then.
  rcases f.movement with ⟨same, _, stands, aside⟩ | ⟨_, _, _, _, lost, _⟩ |
    ⟨r, fresh, _, _, _, ofSource, before, moved, here, leads, stands, _⟩ |
    ⟨r, _, _, _, ofTarget, before, loose, turned, stands, _⟩
  · have before : v.redirection? c.id = some r' := same ▸ after
    exact t.stays before (aside r' _ _ _ before names) others (stands r' before)
  all_goals rw [‹v'.redirection? = _›, Function.update_self] at after
  · cases after
  all_goals obtain rfl := Option.some.inj after
  · obtain ⟨names', rfl⟩ := ofSource
    obtain ⟨same, _⟩ := Prod.mk.inj (Option.some.inj (names.symm.trans names'))
    exact t.moved k before same.symm others here leads stands
  · obtain ⟨names', differs, same⟩ := ofTarget
    obtain ⟨rfl, rest⟩ := Prod.mk.inj (Option.some.inj (names.symm.trans names'))
    obtain ⟨rfl, _⟩ := Prod.mk.inj rest
    exact t.turned before ⟨differs, same⟩ loose others stands

/-! ## Telling all -/

theorem followed (k : Knows c w factory) (t : Telling c w v)
    (f : World.Followed c.method c.start id v v') : Telling c w v' := by
  by_cases it : c.id = id
  · exact (t.reaches k (it ▸ f)).telling
  · refine ⟨t.opened.followed f, fun r hr => ?_⟩
    rw [f.redirection?_of_ne it] at hr
    rcases t.state r hr with early | late
    · exact Or.inl (early.followed k t.opened hr it f)
    · exact Or.inr (late.followed k t.opened hr it f)

end Telling

theorem Told.followed (k : Knows c w factory) (t : Told c w v)
    (f : World.Followed c.method c.start id v v') : Told c w v' := by
  by_cases it : c.id = id
  · exact t.telling.reaches k (it ▸ f)
  · refine ⟨t.opened.followed f, fun r hr => ?_⟩
    rw [f.redirection?_of_ne it] at hr
    exact (t.late r hr).followed k t.opened hr it f

/-- A quiet change is no different from a notice that reaches no detour. -/
theorem Open.quiet (o : c.Open w v) (q : v.Quiet v') :
    World.Followed c.method c.start v.nextDetour v v' := by
  refine .of_quiet o.orderly q fun r _ _ _ there => ?_
  cases (World.redirection?_of_none o.orderly.detour?_next).symm.trans there

/-- When all have been told, the detour is as it is to be. -/
theorem deliver_told {n : CompiledMethod} (k : Knows c w factory) (hears : w.Hears factory)
    (name : w.nameOf n.method = c.method) (fresh : n.start = c.start)
    (keeps : w.platform.keepsReplacedCode = true) (t : Telling c w w)
    (aside : c.method ≠ c.source → c.method ≠ c.target → Told c w w) {E : World → Prop} :
    (World.deliver n).Ends w (fun _ => Told c w) E := by
  have known (v : World) (o : c.Open w v) : v.nameOf n.method = c.method :=
    (o.along.names _).trans name
  have follow (v : World) (o : c.Open w v) (other : Nat) :
      (World.followOrReport c.method n.start n.size other).Ends v
        (fun _ => World.Followed c.method c.start other v) E := by
    rw [fresh]
    exact World.followOrReport_followed o.orderly (o.platform ▸ keeps) fun moves =>
      (o.room moves).code
  have stay (other : Nat) (v : World) (t : Told c w v) :
      (World.followOrReport c.method n.start n.size other).Ends v (fun _ => Told c w) E :=
    (follow v t.opened other).mono (fun _ _ f => t.followed k f) fun _ h => h
  by_cases concerns : c.method = c.source ∨ c.method = c.target
  -- The detour is told in its turn. Before that it waits, and after that it stays as it is.
  · refine World.deliver_reaches (I := Telling c w) t hears (fun _ t => t.telling)
      (fun v v' q => ⟨fun t => t.followed k (t.opened.quiet q),
        fun t => t.followed k (t.opened.quiet q)⟩)
      (fun v t => ⟨known v t.opened, ?_,
        World.mem_related (t.opened.methods ▸ k.methods) concerns⟩) (fun other v t => ?_) stay
      fun v t => ?_
    · exact t.opened.along.factories ▸ hears.2
    · exact (follow v t.opened other).mono (fun _ _ f => t.followed k f) fun _ h => h
    · exact (follow v t.opened c.id).mono (fun _ _ f => t.reaches k f) fun _ h => h
  · obtain ⟨notSource, notTarget⟩ := not_or.mp concerns
    exact World.deliver_keeps (I := Told c w) (aside notSource notTarget)
      (fun v v' q t => t.followed k (t.opened.quiet q)) (fun v t => known v t.opened) stay

end Course

end Detouring
