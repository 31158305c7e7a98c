-- Where the jump of a detoured function stands. It is written at the address of the function, and it
-- moves only when a notice says where the function is now. This lasts through all that is done to
-- detours and chains; nobody asks whether a hook is at the place that a notice named.
import Detouring.Proofs.Detour.Tallying
import Detouring.Proofs.Hook.Relinking
import Detouring.Proofs.Jump.Aiming

namespace Detouring

open Op

variable {α : Type} {told told' : Nat → Nat → Prop} {home home' : Nat → Option (Option Nat)}
  {d d' : MethodDetour} {c c' : Chain} {r : Redirection} {k : ChainKey}
  {w w' : World} {id : Nat} {m : Method} {n : CompiledMethod}

/-! ## Records -/

/-- The address of its source is on record. If the source is a function, the jump stands at its
address or where notices have told that the function is. -/
structure MethodDetour.Grounded (told : Nat → Nat → Prop) (home : Nat → Option (Option Nat))
    (d : MethodDetour) : Prop where
  home : home d.id = some d.source.address?
  aims : ∀ r, d.redirection = some r → ∃ goal, r.patch.Aims r.source goal
  ground : ∀ r, d.redirection = some r → ∀ a, d.source.address? = some a →
    r.source = a ∨ told a r.source

/-- The detour of the chain has the source of the chain, and no hook is its function. -/
structure Chain.Grounded (home : Nat → Option (Option Nat)) (c : Chain) : Prop where
  root : ∀ id, c.root = some id → home id = some c.method.address?
  apart : ∀ n ∈ c.nodes, c.method.address? ≠ some n.target

namespace MethodDetour.Grounded

/-- A detour that is not applied has no jump anywhere. -/
theorem bare (g : d.Grounded told home) (id : d'.id = d.id) (source : d'.source = d.source)
    (bare : d'.redirection = none) : d'.Grounded told home :=
  ⟨by rw [id, source, g.home], fun _ hr => (by cases bare.symm.trans hr),
    fun _ hr => (by cases bare.symm.trans hr)⟩

theorem congr (g : d.Grounded told home) (id : d'.id = d.id) (source : d'.source = d.source)
    (same : d'.redirection = d.redirection) : d'.Grounded told home :=
  ⟨by rw [id, source, g.home], fun r hr => g.aims r (same ▸ hr),
    fun r hr => source ▸ g.ground r (same ▸ hr)⟩

theorem patched (g : d.Grounded told home) (id : d'.id = d.id) (source : d'.source = d.source)
    {start goal : Nat} (patched : d'.redirection = some r) (aims : r.patch.Aims start goal)
    (ground : ∀ a, d.source.address? = some a → start = a ∨ told a start) :
    d'.Grounded told home := by
  obtain rfl := aims.source
  refine ⟨by rw [id, source, g.home], fun r' hr => ?_, fun r' hr => ?_⟩ <;>
    obtain rfl := Option.some.inj (patched.symm.trans hr)
  · exact ⟨goal, aims⟩
  · exact source ▸ ground

end MethodDetour.Grounded

theorem Chain.Grounded.congr (g : c.Grounded home) (method : c'.method = c.method)
    (root : c'.root = c.root) (nodes : ∀ n ∈ c'.nodes, n ∈ c.nodes) : c'.Grounded home :=
  ⟨fun id h => method ▸ g.root id (root ▸ h), fun n mn => method ▸ g.apart n (nodes n mn)⟩

namespace World

/-- The address that a name carries is not changed by the runtime. -/
theorem address?_nameOf (w : World) (m : Method) : (w.nameOf m).address? = m.address? := by
  have canonical : m.canonical.address? = m.address? := by
    unfold Method.address?
    rw [m.canonical_canonical]
  unfold nameOf
  split
  · unfold Runtime.identify Runtime.lookup?
    rcases known : m.canonical with a | t | ⟨owner, inner⟩ <;> rw [known] at canonical
    · exact canonical
    · dsimp only
      split
      · split
        · exact canonical
        · exact canonical
      · exact canonical
    · exact (m.canonical_ne_wrapped _ _ known).elim
  · exact canonical

/-! ## Worlds -/

/-- Every detour and every chain is grounded, and nothing is on record of detours that have yet to be
made. No handle is that of a function hooked with itself. -/
structure Grounded (told : Nat → Nat → Prop) (home : Nat → Option (Option Nat)) (w : World) :
    Prop where
  detours : ∀ d ∈ w.detours, d.Grounded told home
  chains : ∀ m ∈ w.managers, ∀ c ∈ m.chains, c.Grounded home
  fresh : ∀ id, w.nextDetour ≤ id → home id = none
  handles : ∀ h ∈ w.hooks, h.chain.method.address? ≠ some h.node.target

namespace Grounded

/-- Things may be taken off the books. -/
theorem fewer (g : w.Grounded told home) (detours : ∀ d ∈ w'.detours, d ∈ w.detours)
    (next : w'.nextDetour = w.nextDetour) (managers : ∀ m ∈ w'.managers, m ∈ w.managers)
    (hooks : ∀ h ∈ w'.hooks, h ∈ w.hooks) : w'.Grounded told home :=
  ⟨fun d md => g.detours d (detours d md), fun m mm => g.chains m (managers m mm),
    fun id later => g.fresh id (next ▸ later), fun h mh => g.handles h (hooks h mh)⟩

theorem beside (g : w.Grounded told home) (b : w.Beside w') : w'.Grounded told home :=
  g.fewer (fun _ md => b.detours ▸ md) b.nextDetour (fun _ mm => b.managers ▸ mm)
    fun _ mh => b.hooks ▸ mh

theorem found (g : w.Grounded told home) (h : w.detour? id = some d) :
    d.Grounded told home ∧ d.id = id :=
  ⟨g.detours d (List.mem_of_find?_eq_some h), id_of_detour h⟩

theorem put (g : w.Grounded told home) (record : d.Grounded told home) :
    (w.put d).Grounded told home := by
  refine ⟨fun x mx => ?_, g.chains, g.fresh, g.handles⟩
  rcases mem_put mx with rfl | mx
  · exact record
  · exact g.detours x mx

theorem becomes (g : w.Grounded told home) (b : w.Becomes d w') (record : d.Grounded told home) :
    w'.Grounded told home := (g.put record).beside b

/-- The books of a chain have changed. -/
theorem withChain (g : w.Grounded told home) {f : Chain → Chain}
    (h : ∀ c, c.method = k.method → c.Grounded home → (f c).Grounded home) :
    (w.withChain k f).Grounded told home := by
  refine ⟨g.detours, fun m mm c mc => ?_, g.fresh, g.handles⟩
  obtain ⟨m₀, mm₀, rfl⟩ := List.mem_map.mp mm
  have old := g.chains m₀ mm₀
  split at mc
  · obtain ⟨c₀, mc₀, rfl⟩ := List.mem_map.mp mc
    split
    · exact h c₀ ‹_› (old c₀ mc₀)
    · exact old c₀ mc₀
  · exact old c mc

/-- A new detour that is not applied. -/
theorem register (g : w.Grounded told home) (next : d.id = w.nextDetour)
    (bare : d.redirection = none) :
    (w.register d).Grounded told (Function.update home d.id (some d.source.address?)) := by
  have older {i : Nat} {a : Option Nat} (known : home i = some a) :
      Function.update home d.id (some d.source.address?) i = some a := by
    rw [Function.update_of_ne _ _ _, known]
    rintro rfl
    cases (g.fresh d.id next.ge).symm.trans known
  refine ⟨fun x mx => ?_, fun m mm c mc => ?_, fun id later => ?_, g.handles⟩
  · rcases List.mem_append.mp mx with mx | mx
    · have old := g.detours x mx
      exact ⟨older old.home, old.aims, old.ground⟩
    · obtain rfl := List.mem_singleton.mp mx
      exact ⟨Function.update_self .., fun _ hr => (by cases bare.symm.trans hr),
        fun _ hr => (by cases bare.symm.trans hr)⟩
  · have old := g.chains m mm c mc
    exact ⟨fun id hid => older (old.root id hid), old.apart⟩
  · have later : d.id + 1 ≤ id := later
    rw [Function.update_of_ne (by omega)]
    exact g.fresh id (by omega)

theorem mono (g : w.Grounded told home) (more : ∀ a s, told a s → told' a s) :
    w.Grounded told' home := by
  refine ⟨fun d md => ?_, g.chains, g.fresh, g.handles⟩
  have old := g.detours d md
  exact ⟨old.home, old.aims, fun r hr a ha => (old.ground r hr a ha).imp_right (more a r.source)⟩

end Grounded

/-! ## Detours -/

theorem keeps_of_beside {act : Op World α} (h : ∀ w, act.Ends w (fun _ => w.Beside) w.Beside) :
    Keeps (Grounded told home) act :=
  fun w g => (h w).mono (fun _ _ b => g.beside b) fun _ b => g.beside b

theorem onMachine_grounded (act : Op Machine α) : Keeps (Grounded told home) (onMachine act) :=
  keeps_of_beside fun w => onMachine_ends (Ends.of_on rfl (fun _ _ => w.beside_machine _)
    fun _ _ => w.beside_machine _)

theorem report_grounded (report : Report) : Keeps (Grounded told home) (World.report report) :=
  onMachine_grounded (Op.change (·.report report))

theorem tell_grounded (e : Event) : Keeps (Grounded told home) (tell e) :=
  .change fun w g => g.beside (w.quiet_tell _).toBeside

theorem withDetour_grounded {act : MethodDetour → Op World Unit}
    (h : ∀ d, d.Grounded told home → d.id = id → Keeps (Grounded told home) (act d)) :
    Keeps (Grounded told home) (withDetour id act) := by
  intro w g
  apply withDetour_ends
  · intro d found
    obtain ⟨record, it⟩ := g.found found
    exact h d record it w g
  · exact fun _ => g

theorem setDetour_grounded (record : d.Grounded told home) :
    Keeps (Grounded told home) (setDetour d) := .change fun _ g => g.put record

theorem updateDetour_grounded {f : MethodDetour → MethodDetour}
    (h : ∀ d, d.Grounded told home → d.id = id → (f d).Grounded told home) :
    Keeps (Grounded told home) (updateDetour id f) :=
  withDetour_grounded fun d record it => setDetour_grounded (h d record it)

/-- A detour that moves is where the notice says. -/
theorem follow_grounded {start size : Nat} (g : w.Grounded told home)
    (heard : ∀ a, m.address? = some a → told a start) :
    (follow (fun d => tellWatcher d.watcher) id m start size).Ends w
      (fun _ w' => w'.Grounded told home ∧ ∀ m, w'.nameOf m = w.nameOf m)
      (fun w' => w'.Grounded told home ∧ ∀ m, w'.nameOf m = w.nameOf m) := by
  have became {d : MethodDetour} {w' : World} (b : w.Becomes d w') (record : d.Grounded told home) :
      w'.Grounded told home ∧ ∀ m, w'.nameOf m = w.nameOf m := ⟨g.becomes b record, b.names⟩
  have stays : w.Grounded told home ∧ ∀ m, w.nameOf m = w.nameOf m := ⟨g, fun _ => rfl⟩
  apply follow_ends (fun _ => stays) fun _ _ _ => stays
  · intro d r found patched _ ofSource
    obtain ⟨record, rfl⟩ := g.found found
    subst ofSource
    apply (followSource_tells (R := fun fresh _ => fresh.patch.Aims start r.target) found
      (Redirection.create_aims _ _ _ _ _ _) fun fresh w₁ _ aims =>
        (tellWatcher_beside d.watcher w₁).mono (fun _ _ b => ⟨b, aims.2⟩) fun _ h => h).mono
    · rintro ⟨⟩ w' ⟨fresh, becomes, aims⟩
      exact became becomes (record.patched rfl rfl rfl aims fun a ha => Or.inr (heard a ha))
    · rintro w' ⟨becomes, _⟩
      exact became becomes (record.bare rfl rfl rfl)
  · intro d r found patched _ _ _
    obtain ⟨record, rfl⟩ := g.found found
    obtain ⟨_, aimed⟩ := record.aims r patched
    have turns := Redirection.retarget_aims aimed start w.machine
    apply (followTarget_becomes turns).mono
    · rintro ⟨⟩ w' ⟨r', becomes, aims⟩
      exact became becomes (record.patched rfl rfl rfl aims (record.ground r patched))
    · exact fun w' ⟨beside, _⟩ => ⟨g.beside beside, beside.names⟩

/-- A notice moves the jumps of a function to where it says that the function is. -/
theorem deliver_grounded (heard : ∀ a, n.method.address? = some a → told a n.start) :
    Keeps (Grounded told home) (deliver n) := by
  intro w g
  have kept : (deliver n).Ends w
      (fun _ w' => w'.Grounded told home ∧ ∀ m, w'.nameOf m = w.nameOf m) fun _ => False := by
    refine deliver_keeps ⟨g, fun _ => rfl⟩ (fun w₁ w₂ quiet ⟨g₁, names⟩ => ?_)
      (fun _ kept => kept.2 _) fun id w₁ ⟨g₁, names⟩ => ?_
    · exact ⟨g₁.beside quiet.toBeside, fun m => (quiet.names m).trans (names m)⟩
    · have named (a : Nat) (ha : (w.nameOf n.method).address? = some a) : told a n.start :=
        heard a (w.address?_nameOf _ ▸ ha)
      refine followOrReport_left ((follow_grounded g₁ named).mono (fun _ _ ⟨g₂, later⟩ => ?_)
        fun _ ⟨g₂, later⟩ => ?_) fun _ _ ⟨g₂, later⟩ quiet => ?_
      · exact ⟨g₂, fun m => (later m).trans (names m)⟩
      · exact ⟨g₂, fun m => (later m).trans (names m)⟩
      · exact ⟨g₂.beside quiet.toBeside, fun m => (quiet.names m).trans (later m)⟩
  exact kept.mono (fun _ _ done => done.1) fun _ never => never.elim

/-- Compiling a method brings notices about methods that are no functions. -/
theorem resolve_grounded (m : Method) : Keeps (Grounded told home) (resolve m) := fun _ g =>
  resolve_lasts ⟨fun _ _ calm g => g.beside calm.toBeside,
    fun _ _ _ _ _ _ _ w' g' => deliver_grounded (fun _ none => by cases none) w' g'⟩ g

/-- A function is where its address says. -/
theorem resolve_address {a : Nat} {E : World → Prop} (address : m.address? = some a) :
    (resolve m).Ends w (fun body w' => body = a ∧ w' = w) E := by
  unfold resolve
  rw [address]
  exact Ends.pure ⟨rfl, rfl⟩

theorem canonicalize_grounded (m : Method) : Keeps (Grounded told home) (canonicalize m) :=
  keeps_of_beside fun w =>
    (canonicalize_ends w m).mono (fun _ _ named => named.2.toBeside) fun _ h => h

/-- The jump is written at the body that was found. -/
theorem redirect_grounded {beforePatch : Option Nat → Op World Unit} (g : w.Grounded told home)
    (modest : ∀ entry, Keeps (Grounded told home) (beforePatch entry)) (source target : Nat) :
    (redirect source target beforePatch).Ends w
      (fun r w' => w'.Grounded told home ∧ r.patch.Aims source target) (Grounded told home) := by
  apply redirect_rule
  apply (Redirection.make_apart _ _ source target none w.machine).mono
  · rintro plan m₁ ⟨_, rfl, rfl⟩
    apply (modest plan.entry? _ (g.beside (w.beside_machine m₁))).mono
    · intro _ w₁ g₁
      apply (Redirection.ofPlan_aims plan w₁.machine).mono
      · exact fun r m₂ aims => ⟨g₁.beside (w₁.beside_machine m₂), aims⟩
      · exact fun m₂ _ => g₁.beside (w₁.beside_machine m₂)
    · exact fun w₁ g₁ => g₁.beside (w₁.beside_machine _)
  · exact fun m₁ _ => g.beside (w.beside_machine m₁)

theorem establish_grounded {beforePatch : Option Nat → Op World Unit} (g : w.Grounded told home)
    (modest : ∀ entry, Keeps (Grounded told home) (beforePatch entry)) (d : MethodDetour) :
    (establish d beforePatch).Ends w
      (fun result w' => w'.Grounded told home ∧ ∃ start goal, result.2.patch.Aims start goal ∧
        ∀ a, d.source.address? = some a → start = a) (Grounded told home) := by
  apply establish_rule fun w' told _ => g.beside told.quiet.toBeside
  intro pins w₁ inPlace
  have g₁ := g.beside inPlace.told.quiet.toBeside
  have released {w₂ : World} (g₂ : w₂.Grounded told home) : (unpin pins w₂).Grounded told home :=
    g₂.beside (quiet_tell _ _).toBeside
  have bodies : (resolve d.source).Ends w₁ (fun body w' => w'.Grounded told home ∧
      ∀ a, d.source.address? = some a → body = a) (Grounded told home) := by
    rcases address : d.source.address? with _ | a
    · exact (resolve_grounded d.source w₁ g₁).mono (fun _ _ g' => ⟨g', nofun⟩) fun _ h => h
    · apply (resolve_address address).mono _ fun _ h => h
      rintro _ _ ⟨rfl, rfl⟩
      exact ⟨g₁, fun _ same => Option.some.inj same⟩
  apply bodies.mono _ fun _ => released
  rintro source w₂ ⟨g₂, here⟩
  apply (resolve_grounded d.target w₂ g₂).mono _ fun _ => released
  intro target w₃ g₃
  apply (redirect_grounded g₃ modest source target).mono _ fun _ => released
  exact fun r w₄ ⟨g₄, aims⟩ => ⟨g₄, source, target, aims, here⟩

theorem applyDetour_grounded {beforePatch : Option Nat → Op World Unit}
    (modest : ∀ entry, Keeps (Grounded told home) (beforePatch entry)) (id : Nat) :
    Keeps (Grounded told home) (applyDetour id beforePatch) := by
  refine withDetour_grounded fun d record it => ?_
  split
  · exact .throw _
  · split
    · exact .throw _
    · have begins : Keeps (Grounded told home) (setDetour { d with busy := true }) :=
        setDetour_grounded (record.congr rfl rfl rfl)
      have rests : Keeps (Grounded told home) (updateDetour id ({ · with busy := false })) :=
        updateDetour_grounded fun _ record _ => record.congr rfl rfl rfl
      refine begins.bind fun _ w g => ?_
      apply Ends.bind
      apply Ends.outcome
      apply (establish_grounded g modest d).mono
      · rintro ⟨pins, r⟩ w₁ ⟨g₁, start, goal, aims, here⟩
        have patches : Keeps (Grounded told home) (updateDetour id fun d =>
            { d.redirected r with pins }) := by
          refine updateDetour_grounded fun d' record' it' => record'.patched rfl rfl rfl aims ?_
          intro a ha
          have same : some d'.source.address? = some d.source.address? := by
            rw [← record'.home, ← record.home, it', it]
          exact Or.inl (here a ((Option.some.inj same).symm.trans ha))
        apply Ends.bind
        apply (rests w₁ g₁).mono _ fun _ h => h
        intro _ w₂ g₂
        apply Ends.bind
        apply Ends.lift
        · rintro _ ⟨⟩
          exact (patches.bind fun _ => .change fun _ g => g.beside (quiet_tell _ _).toBeside) w₂ g₂
        · exact fun _ _ => g₂
      · intro w₁ g₁ e
        apply Ends.bind
        apply (rests w₁ g₁).mono _ fun _ h => h
        intro _ w₂ g₂
        apply Ends.bind
        apply Ends.lift
        · exact fun _ ok => by cases ok
        · exact fun _ _ => g₂

theorem withdraw_grounded (record : d.Grounded told home) (r : Redirection) :
    Keeps (Grounded told home) (withdraw d r) :=
  (onMachine_grounded _).bind fun _ => (onMachine_grounded _).bind fun _ =>
    (setDetour_grounded (d := d.withdrawn r) (record.bare rfl rfl rfl)).bind fun _ =>
      Keeps.bind (.lift _) fun _ => .pure _

theorem undoDetour_grounded (id : Nat) : Keeps (Grounded told home) (undoDetour id) := by
  refine withDetour_grounded fun d record _ => ?_
  split
  · exact .throw _
  · split
    · exact .throw _
    · refine Keeps.bind (.optional _ (withdraw_grounded record)) fun _ => Keeps.bind ?_ fun _ => ?_
      · exact updateDetour_grounded fun _ record _ => record.congr rfl rfl rfl
      · exact .change fun _ g => g.beside (quiet_tell _ _).toBeside

theorem dropDetour_grounded (id : Nat) : Keeps (Grounded told home) (dropDetour id) := by
  refine Keeps.bind (withDetour_grounded fun d _ _ => ?_) fun _ =>
    withDetour_grounded fun d _ _ => .change fun w g => ?_
  · split
    · refine (undoDetour_grounded id).outcome.bind fun outcome => ?_
      split
      · exact .pure _
      · exact report_grounded _
    · exact .pure _
  · exact g.fewer (fun _ md => List.mem_of_mem_filter md) rfl (fun _ mm => mm) fun _ mh => mh

/-- A new detour has the source that was asked for, under the name that the runtime gives it. -/
theorem createDetour_grounded (g : w.Grounded told home) (factory : Nat) (source target : Method) :
    (createDetour factory source target false).Ends w
      (fun id w' => ∃ home', w'.Grounded told home' ∧ home' id = some source.address?)
      (Grounded told home) := by
  refine createDetour_made (fun w₁ said => g.beside said.quiet.toBeside) fun w₁ said => ?_
  let d : MethodDetour := .blank w₁.nextDetour factory (w.nameOf source) (w.nameOf target)
  have registered : (w₁.register d).Grounded told _ :=
    (g.beside said.quiet.toBeside).register rfl rfl
  refine ⟨_, registered, ?_⟩
  rw [← w.address?_nameOf source]
  exact Function.update_self ..

end World

end Detouring
