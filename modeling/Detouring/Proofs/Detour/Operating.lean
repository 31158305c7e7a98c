-- What applying, undoing, dropping and moving a detour does to its record and to the machine. The
-- blocks that others hold are spared, and beside the jump no code of others changes.
import Detouring.Proofs.Detour.Establishing
import Detouring.Proofs.Detour.Records
import Detouring.Proofs.Jump.Turning

namespace Detouring

open Op Machine

variable {K : List Block} {m m' : Machine} {d : MethodDetour} {r : Redirection}

/-! ## Blocks -/

namespace MethodDetour

/-- The blocks that a detour has: those of its redirection, and alternate entries of earlier
code. -/
def blocks (d : MethodDetour) : List Block :=
  d.redirection.toList.flatMap Redirection.blocks ++ d.retired

theorem blocks_of_bare (bare : d.redirection = none) : d.blocks = d.retired := by
  unfold blocks
  rw [bare]
  rfl

theorem blocks_of_patched (patched : d.redirection = some r) :
    d.blocks = r.blocks ++ d.retired := by
  unfold blocks
  rw [patched]
  simp

/-- The alternate entry of a redirection that is given up is one more that is kept. -/
theorem perm_withdrawn (d : MethodDetour) (r : Redirection) (K : List Block) :
    ((d.withdrawn r).retired ++ K).Perm (r.alternate.toList ++ (d.retired ++ K)) := by
  rw [← List.append_assoc]
  exact List.perm_append_comm.append_right K

end MethodDetour

/-- A plan that is not carried out gives back what it has taken. -/
theorem RedirectionPlan.discard_gains {p : RedirectionPlan} (h : m.Holds (p.blocks ++ K)) :
    Gains K [] m (p.discard m) := by
  rw [RedirectionPlan.blocks, List.append_assoc] at h
  have entry : Gains (p.jump.cell?.toList ++ K) [] m (m.freeAll p.alternate.toList) := h.freeAll
  exact entry.below.trans entry.holds.freeCell

/-- The jump of a redirection is taken off. Its alternate entry is still held. -/
structure Redirection.Lifted (K : List Block) (r : Redirection) (m m' : Machine) : Prop where
  holds : m'.Holds (r.alternate.toList ++ K)
  spares : Spares (r.alternate.toList ++ K) m m'
  code : ∀ x, m.Foreign x → m'.memory.bytes x = r.patch.beneath m.memory.bytes x

namespace World

variable {w w' : World} {id source target : Nat} {method : Method} {E : World → Prop}

/-! ## Applying -/

/-- The operation may tell somebody something, and it may fail. It does nothing else. -/
def Mild {α : Type} (act : Op World α) : Prop :=
  ∀ w, act.Ends w (fun _ w' => w.Quiet w') w.Quiet

theorem mild_pure {α : Type} (a : α) : Mild (pure a) := fun w => Ends.pure (.refl w)

theorem redirect_carried (h : w.machine.Holds K) {beforePatch : Option Nat → Op World Unit}
    (mild : ∀ entry, Mild (beforePatch entry)) (source target : Nat) :
    (redirect source target beforePatch).Ends w
      (fun r w' => w.Beside w' ∧ Redirection.Carried K source target w.machine r w'.machine ∧
        (w.platform.keepsReplacedCode = true → r.alternate.isSome))
      (fun w' => w.Beside w' ∧ Gains K [] w.machine w'.machine) := by
  apply redirect_rule
  apply (RedirectionPlan.make_ends h w.platform.architecture w.platform.settings source target
    none).mono
  · rintro plan m₁ ⟨gained, leads, callable⟩
    apply (mild plan.entry? { w with machine := m₁ }).mono
    · intro _ w₂ quiet
      have beside := (w.beside_machine m₁).trans quiet.toBeside
      have still : Gains (plan.blocks ++ K) [] m₁ w₂.machine :=
        .of_arena gained.holds quiet.arena
      apply (Redirection.ofPlan_ends still.holds leads).mono
      · rintro r m₃ ⟨same, carried⟩
        refine ⟨beside.trans (w₂.beside_machine m₃),
          (carried.of_arena quiet.arena).since gained, fun keeps => ?_⟩
        rw [same]
        exact callable keeps
      · intro m₃ back
        exact ⟨beside.trans (w₂.beside_machine m₃), gained.trans (still.below.trans back)⟩
    · intro w₂ quiet
      have still : Gains (plan.blocks ++ K) [] m₁ w₂.machine :=
        .of_arena gained.holds quiet.arena
      refine ⟨((w.beside_machine m₁).trans quiet.toBeside).trans (w₂.beside_machine _), ?_⟩
      exact gained.trans (still.below.trans (RedirectionPlan.discard_gains still.holds))
  · exact fun m₁ same => ⟨w.beside_machine m₁, same⟩

/-- The code of the source is redirected to that of the target. -/
structure Established (K : List Block) (d : MethodDetour) (w : World) (r : Redirection)
    (w' : World) : Prop where
  bodies : ((bodies d).on w).1 = .ok (r.source, r.target)
  beside : w.Beside w'
  carried : Redirection.Carried K r.source r.target w.machine r w'.machine
  callable : w.platform.keepsReplacedCode = true → r.alternate.isSome

theorem establish_carried (h : w.machine.Holds K) {beforePatch : Option Nat → Op World Unit}
    (mild : ∀ entry, Mild (beforePatch entry)) (source : w.Still d.source)
    (target : w.Still d.target) :
    (establish d beforePatch).Ends w (fun result w' => Established K d w result.2 w')
      (fun w' => w.Beside w' ∧ Gains K [] w.machine w'.machine) := by
  have still {w' : World} (quiet : w.Quiet w') : w.Beside w' ∧ Gains K [] w.machine w'.machine :=
    ⟨quiet.toBeside, .of_arena h quiet.arena⟩
  apply establish_rule fun w' told _ => still told.quiet
  intro pins w₁ inPlace
  have quiet₁ := inPlace.told.quiet
  apply (resolve_ends (source.congr quiet₁.toBeside)).traced.mono _ fun w' quiet =>
    still ((quiet₁.trans quiet).trans (w'.quiet_tell _))
  rintro body w₂ ⟨body₂, quiet⟩
  have quiet₂ := quiet₁.trans quiet
  apply (resolve_ends (target.congr quiet₂.toBeside)).traced.mono _ fun w' quiet =>
    still ((quiet₂.trans quiet).trans (w'.quiet_tell _))
  rintro goal w₃ ⟨goal₃, quiet⟩
  have quiet₃ := quiet₂.trans quiet
  apply (redirect_carried (h.of_arena quiet₃.arena) mild body goal).mono
  · rintro r w₄ ⟨beside, carried, callable⟩
    obtain rfl := carried.here
    obtain rfl := carried.leads
    refine ⟨?_, quiet₃.toBeside.trans beside, carried.of_arena quiet₃.arena, fun keeps => ?_⟩
    · rw [inPlace.bodies, on_bind_ok body₂, on_bind_ok goal₃, on_pure]
    · exact callable (quiet₃.platform ▸ keeps)
  · exact fun w' ⟨beside, back⟩ => ⟨(quiet₃.toBeside.trans beside).trans (w'.quiet_tell _).toBeside,
      (Gains.of_arena h quiet₃.arena).trans back⟩

/-- A record of a detour that is not applied does not count for what is. -/
theorem Still.put (h : w.Still method) (found : w.detour? d.id = some d)
    {d' : MethodDetour} (same : d'.id = d.id) (bare : d'.redirection = none) :
    (w.put d').Still method := by
  rcases h with deaf | silent | ⟨name, unapplied⟩
  · exact Or.inl deaf
  · exact Or.inr (Or.inl silent)
  · refine Or.inr (Or.inr ⟨name, fun e me touches x found' => ?_⟩)
    by_cases it : e.id = d'.id
    · rw [it, detour?_put (same ▸ found)] at found'
      obtain rfl := Option.some.inj found'
      exact bare
    · rw [detour?_put_of_ne it] at found'
      obtain ⟨y, my, rfl⟩ := List.mem_map.mp me
      by_cases this : y.id = d'.id
      · rw [if_pos this] at it
        exact (it rfl).elim
      · rw [if_neg this] at touches found'
        exact unapplied y my touches x found'

/-- What a detour is applied with goes into its record, and what it had kept before is let go. The
detour is there all the while. -/
theorem applyDetour_leaves (found : w.detour? id = some d) (bare : d.redirection = none)
    (idle : d.busy = false) {beforePatch : Option Nat → Op World Unit}
    {Q : List Method × Redirection → World → Prop} {F : World → Prop}
    (h : (establish d beforePatch).Ends (w.put { d with busy := true })
      (fun result w₁ => (∃ d₁, w₁.detour? id = some d₁) ∧ Q result w₁)
      (fun w₁ => (∃ d₁, w₁.detour? id = some d₁) ∧ F w₁)) :
    (applyDetour id beforePatch).Ends w
      (fun _ w' => ∃ w₁ d₁ pins r, Q (pins, r) w₁ ∧ w₁.detour? id = some d₁ ∧
        w' = unpin d.pins (w₁.put { d₁.redirected r with busy := false, pins }))
      (fun w' => ∃ w₁ d₁, F w₁ ∧ w₁.detour? id = some d₁ ∧
        w' = w₁.put { d₁ with busy := false }) := by
  apply applyDetour_found found bare idle
  apply Ends.bind
  apply setDetour_ends
  apply Ends.bind
  apply Ends.outcome
  apply h.mono
  · rintro ⟨pins, r⟩ w₁ ⟨⟨d₁, found₁⟩, q⟩
    obtain rfl := id_of_detour found₁
    have rested : w₁.Becomes { d₁ with busy := false } (w₁.put { d₁ with busy := false }) :=
      Beside.becomes (Quiet.refl w₁).toBeside _
    apply Ends.bind
    apply updateDetour_ends found₁
    apply Ends.bind
    apply Ends.lift
    · intro result ok
      obtain rfl := Except.ok.inj ok
      apply Ends.bind
      apply updateDetour_ends (rested.detour? found₁)
      apply Ends.change
      exact ⟨w₁, d₁, pins, r, q, found₁, congrArg (unpin d.pins) (put_put rfl)⟩
    · intro _ error
      cases error
  · rintro w₁ ⟨⟨d₁, found₁⟩, failed⟩ e
    apply Ends.bind
    apply updateDetour_ends found₁
    apply Ends.bind
    apply Ends.lift
    · intro _ ok
      cases ok
    · exact fun _ _ => ⟨w₁, d₁, failed, found₁, rfl⟩

/-- Beside its record, nothing but who is pinned changes when a detour gets its redirection. -/
theorem applyDetour_becomes (found : w.detour? id = some d) (bare : d.redirection = none)
    (idle : d.busy = false) {beforePatch : Option Nat → Op World Unit}
    {Q : List Method × Redirection → World → Prop} {F : World → Prop}
    (h : (establish d beforePatch).Ends (w.put { d with busy := true })
      (fun result w₁ => (∃ d₁, w₁.detour? id = some d₁) ∧ Q result w₁)
      (fun w₁ => (∃ d₁, w₁.detour? id = some d₁) ∧ F w₁)) :
    (applyDetour id beforePatch).Ends w
      (fun _ w' => ∃ w₁ d₁ pins r, Q (pins, r) w₁ ∧ w₁.detour? id = some d₁ ∧
        w₁.Becomes { d₁.redirected r with busy := false, pins } w' ∧
        w'.machine = w₁.machine)
      (fun w' => ∃ w₁ d₁, F w₁ ∧ w₁.detour? id = some d₁ ∧
        w' = w₁.put { d₁ with busy := false }) := by
  apply (applyDetour_leaves found bare idle h).mono _ fun _ left => left
  rintro ⟨⟩ _ ⟨w₁, d₁, pins, r, q, found₁, rfl⟩
  exact ⟨w₁, d₁, pins, r, q, found₁, Beside.becomes (quiet_tell _ _).toBeside _, rfl⟩

/-- While nothing happens to detours on the way, the record is the one that was busy. -/
theorem applyDetour_beside (found : w.detour? id = some d) (bare : d.redirection = none)
    (idle : d.busy = false) {beforePatch : Option Nat → Op World Unit}
    {Q : List Method × Redirection → World → Prop} {F : World → Prop}
    (h : (establish d beforePatch).Ends (w.put { d with busy := true })
      (fun result w₁ => (w.put { d with busy := true }).Beside w₁ ∧ Q result w₁)
      (fun w₁ => (w.put { d with busy := true }).Beside w₁ ∧ F w₁)) :
    (applyDetour id beforePatch).Ends w
      (fun _ w' => ∃ w₁ pins r, Q (pins, r) w₁ ∧
        w.Becomes { d.redirected r with busy := false, pins } w' ∧ w'.machine = w₁.machine)
      (fun w' => ∃ w₁, F w₁ ∧ w.Becomes { d with busy := false } w' ∧
        w' = w₁.put { d with busy := false }) := by
  obtain rfl := id_of_detour found
  have there {w₁ : World} (begun : w.Becomes { d with busy := true } w₁) :
      w₁.detour? d.id = some { d with busy := true } := begun.detour? found
  apply (applyDetour_becomes (Q := fun result w₁ => w.Becomes { d with busy := true } w₁ ∧
    Q result w₁) (F := fun w₁ => w.Becomes { d with busy := true } w₁ ∧ F w₁) found bare idle
    (h.mono (fun _ _ done => ⟨⟨_, there done.1⟩, done⟩) fun _ left => ⟨⟨_, there left.1⟩, left⟩)).mono
  · rintro ⟨⟩ w' ⟨w₁, d₁, pins, r, ⟨begun, q⟩, found₁, becomes, machine⟩
    obtain rfl := Option.some.inj ((there begun).symm.trans found₁)
    exact ⟨w₁, pins, r, q, begun.trans becomes rfl, machine⟩
  · rintro w' ⟨w₁, d₁, ⟨begun, left⟩, found₁, rfl⟩
    obtain rfl := Option.some.inj ((there begun).symm.trans found₁)
    have rests : w₁.Becomes { d with busy := false } (w₁.put { d with busy := false }) :=
      (Quiet.refl w₁).toBeside.becomes _
    exact ⟨w₁, left, begun.trans rests rfl, rfl⟩

/-- A detour is applied to the code that was found, or nothing has happened. -/
theorem applyDetour_carried (h : w.machine.Holds K) (found : w.detour? id = some d)
    (bare : d.redirection = none) (idle : d.busy = false)
    {beforePatch : Option Nat → Op World Unit} (mild : ∀ entry, Mild (beforePatch entry))
    (source : w.Still d.source) (target : w.Still d.target) :
    (applyDetour id beforePatch).Ends w
      (fun _ w' => ∃ r pins,
        w.Becomes { d.redirected r with busy := false, pins } w' ∧
        ((bodies d).on (w.put { d with busy := true })).1 = .ok (r.source, r.target) ∧
        Redirection.Carried K r.source r.target w.machine r w'.machine ∧
        (w.platform.keepsReplacedCode = true → r.alternate.isSome))
      (fun w' => w.Becomes { d with busy := false } w' ∧ Gains K [] w.machine w'.machine) := by
  obtain rfl := id_of_detour found
  have established := establish_carried (w := w.put { d with busy := true }) h mild
    (source.put found rfl bare) (target.put found rfl bare)
  apply (applyDetour_beside found bare idle (established.mono (fun _ _ e => ⟨e.beside, e⟩)
    fun _ left => left)).mono
  · rintro ⟨⟩ w' ⟨w₁, pins, r, e, becomes, machine⟩
    exact ⟨r, pins, becomes, e.bodies, machine ▸ e.carried, e.callable⟩
  · rintro _ ⟨w₁, gained, becomes, rfl⟩
    exact ⟨becomes, gained⟩

/-! ## Undoing -/

/-- Whether or not the code could be written back, the detour gives up its jump. -/
theorem withdraw_leaves {P F : Machine → Prop} (h : r.undo.Ends w.machine (fun _ => P) F) :
    (withdraw d r).Ends w
      (fun _ w' => ∃ m, P m ∧ w' = { w with machine := r.abandon m }.put (d.withdrawn r))
      (fun w' => ∃ m, F m ∧ w' = { w with machine := r.abandon m }.put (d.withdrawn r)) := by
  apply Ends.bind
  apply onMachine_ends
  apply Ends.outcome
  apply h.mono
  · intro _ m p
    apply Ends.bind
    apply changeMachine_ends
    apply Ends.bind
    apply setDetour_ends
    apply Ends.bind
    apply Ends.pure
    apply Ends.pure
    exact ⟨m, p, rfl⟩
  · intro m f e
    apply Ends.bind
    apply changeMachine_ends
    apply Ends.bind
    apply setDetour_ends
    apply Ends.bind
    apply Ends.throw
    exact ⟨m, f, rfl⟩

/-- A detour that was undone lets its methods go; one whose undo failed does not. -/
theorem undoDetour_leaves {P F : Machine → Prop} (found : w.detour? id = some d)
    (patched : d.redirection = some r) (idle : d.busy = false)
    (h : r.undo.Ends w.machine (fun _ => P) F) :
    (undoDetour id).Ends w
      (fun _ w' => ∃ m, P m ∧ w' = unpin d.pins
        ({ w with machine := r.abandon m }.put { d.withdrawn r with pins := [] }))
      (fun w' => ∃ m, F m ∧ w' = { w with machine := r.abandon m }.put (d.withdrawn r)) := by
  obtain rfl := id_of_detour found
  apply undoDetour_found found patched idle
  apply Ends.bind
  apply (withdraw_leaves h).mono _ fun _ left => left
  rintro ⟨⟩ _ ⟨m, p, rfl⟩
  have becomes : w.Becomes (d.withdrawn r)
      (({ w with machine := r.abandon m } : World).put (d.withdrawn r)) :=
    (w.beside_machine _).becomes _
  apply Ends.bind
  apply updateDetour_ends (becomes.detour? found)
  apply Ends.change
  exact ⟨m, p, congrArg (unpin d.pins) (put_put rfl)⟩

/-- Beside its record, nothing but the machine and who is pinned changes. -/
theorem undoDetour_becomes {P F : Machine → Prop} (found : w.detour? id = some d)
    (patched : d.redirection = some r) (idle : d.busy = false)
    (h : r.undo.Ends w.machine (fun _ => P) F) :
    (undoDetour id).Ends w
      (fun _ w' => w.Becomes { d.withdrawn r with pins := [] } w' ∧
        ∃ m, P m ∧ w'.machine = r.abandon m)
      (fun w' => w.Becomes (d.withdrawn r) w' ∧ ∃ m, F m ∧ w'.machine = r.abandon m) := by
  apply (undoDetour_leaves found patched idle h).mono
  · rintro ⟨⟩ _ ⟨m, p, rfl⟩
    exact ⟨((w.beside_machine _).becomes _).beside (quiet_tell _ _).toBeside, m, p, rfl⟩
  · rintro _ ⟨m, f, rfl⟩
    exact ⟨(w.beside_machine _).becomes _, m, f, rfl⟩

/-- The code is written back, and nothing can go wrong. -/
theorem undoDetour_restored (h : w.machine.Holds (r.blocks ++ K)) (laid : r.Laid w.machine)
    (found : w.detour? id = some d) (patched : d.redirection = some r) (idle : d.busy = false) :
    (undoDetour id).Ends w
      (fun _ w' => w.Becomes { d.withdrawn r with pins := [] } w' ∧
        r.Lifted K w.machine w'.machine) E := by
  apply (undoDetour_becomes found patched idle
    (Redirection.undo_ends h laid (E := fun _ => False))).mono
  · rintro ⟨⟩ w' ⟨becomes, m₁, ⟨holds, spares, code⟩, machine⟩
    have gained := Redirection.abandon_gains holds
    refine ⟨becomes, machine ▸ gained.holds, machine ▸ (spares.mono ?_).trans gained.toSpares,
      fun x f => ?_⟩
    · exact List.append_subset.mpr ⟨fun b mb => List.mem_append_left _ (List.mem_append_left _ mb),
        List.subset_append_right _ _⟩
    · rw [machine]
      exact (gained.code x (spares.foreign x f)).trans (code x)
  · exact fun _ ⟨_, _, never, _⟩ => never.elim

/-! ## Dropping -/

theorem removeDetour_loses (h : w.machine.Holds (d.retired ++ K)) (bare : d.redirection = none) :
    w.Loses d.id (removeDetour d w) ∧ Gains K [] w.machine (removeDetour d w).machine := by
  unfold removeDetour
  rw [bare]
  exact ⟨(quiet_tell _ _).toBeside.trans (beside_machine _ _), h.freeAll⟩

/-- Dropping a detour that is not applied gives back its alternate entries. -/
theorem dropDetour_bare (h : w.machine.Holds (d.retired ++ K)) (found : w.detour? id = some d)
    (bare : d.redirection = none) :
    (dropDetour id).Ends w (fun _ w' => w.Loses id w' ∧ Gains K [] w.machine w'.machine) E := by
  obtain rfl := id_of_detour found
  have unapplied : ¬ d.isApplied = true := by simp [MethodDetour.isApplied_eq, bare]
  apply Ends.bind
  apply withDetour_found found
  rw [if_neg unapplied]
  apply Ends.pure
  apply withDetour_found found
  exact Ends.change (removeDetour_loses h bare)

/-- Dropping a detour that is applied writes the code back first. -/
theorem dropDetour_restored (h : w.machine.Holds (r.blocks ++ (d.retired ++ K)))
    (laid : r.Laid w.machine) (found : w.detour? id = some d) (patched : d.redirection = some r)
    (idle : d.busy = false) :
    (dropDetour id).Ends w (fun _ w' => w.Loses id w' ∧ w'.machine.Holds K ∧
      Spares K w.machine w'.machine ∧
      ∀ x, w.machine.Foreign x →
        w'.machine.memory.bytes x = r.patch.beneath w.machine.memory.bytes x) E := by
  obtain rfl := id_of_detour found
  have applied : d.isApplied = true := by simp [MethodDetour.isApplied_eq, patched]
  apply Ends.bind
  apply withDetour_found found
  rw [if_pos applied]
  apply Ends.bind
  apply Ends.outcome
  apply (undoDetour_restored h laid found patched idle (E := fun _ => False)).mono
  · rintro ⟨⟩ w₁ ⟨becomes, lifted⟩
    have found₁ := becomes.detour? found
    apply Ends.pure
    apply withDetour_found found₁
    have held := lifted.holds.mono (d.perm_withdrawn r K).subperm
    obtain ⟨loses, gained⟩ :=
      removeDetour_loses (d := { d.withdrawn r with pins := [] }) held rfl
    apply Ends.change
    refine ⟨becomes.loses loses, gained.holds, (lifted.spares.mono ?_).trans gained.toSpares,
      fun x f => ?_⟩
    · exact List.subset_append_of_subset_right _ (List.subset_append_right _ _)
    · exact (gained.code x (lifted.spares.foreign x f)).trans (lifted.code x f)
  · exact fun _ h => h.elim

/-! ## Following -/

/-- Whoever is told that a detour has moved does nothing, unless it is a chain of hooks. -/
theorem tellWatcher_quiet {watcher : Watcher} (unchained : ∀ k, watcher ≠ .chain k) (w : World) :
    (tellWatcher watcher).Ends w (fun _ w' => w.Quiet w') E := by
  cases watcher with
  | nobody => exact Ends.pure (.refl w)
  | onlooker name => exact Ends.change (w.quiet_tell _)
  | chain key => exact (unchained key rfl).elim

/-- A detour that follows its source gives up its jump. It gets the redirection that was made at the
fresh code, if one could be made, and its watcher is told while it is busy. -/
theorem followSource_tells {start size : Nat} {Q R : Redirection → Machine → Prop}
    {F : Machine → Prop} (found : w.detour? d.id = some d)
    (h : (Redirection.create w.platform.architecture w.platform.settings start r.target
      (some size)).Ends (r.abandon w.machine) Q F)
    (tell : ∀ fresh w₁, w.Becomes { (d.withdrawn r).redirected fresh with busy := true } w₁ →
      Q fresh w₁.machine → (tellWatcher d.watcher).Ends w₁
        (fun _ w₂ => w₁.Beside w₂ ∧ R fresh w₂.machine) fun _ => False) :
    (followSource d r start size (tellWatcher d.watcher)).Ends w
      (fun _ w' => ∃ fresh,
        w.Becomes { (d.withdrawn r).redirected fresh with busy := false } w' ∧
        R fresh w'.machine)
      (fun w' => w.Becomes (d.withdrawn r) w' ∧ F w'.machine) := by
  have begun : w.Becomes (d.withdrawn r)
      ({ w with machine := r.abandon w.machine }.put (d.withdrawn r)) :=
    (w.beside_machine _).becomes _
  apply Ends.bind
  apply changeMachine_ends
  apply Ends.bind
  apply setDetour_ends
  apply Ends.bind
  apply Ends.get
  apply Ends.bind
  apply onMachine_ends
  apply h.mono
  · intro fresh m₁ q
    have created := begun.beside (beside_machine _ m₁)
    have moved := created.trans ((Quiet.refl _).toBeside.becomes
      { (d.withdrawn r).redirected fresh with busy := true }) rfl
    apply Ends.bind
    apply setDetour_ends
    apply Ends.bind
    apply (tell fresh _ moved q).mono
    · rintro ⟨⟩ w₃ ⟨beside, done⟩
      have told := moved.beside beside
      apply updateDetour_ends (told.detour? found)
      exact ⟨fresh, told.trans ((Quiet.refl _).toBeside.becomes _) rfl, done⟩
    · exact fun _ h => h.elim
  · exact fun m₁ failed => ⟨begun.beside (beside_machine _ m₁), failed⟩

/-- Where no chain of hooks is told, telling changes nothing. -/
theorem followSource_becomes {start size : Nat} {Q : Redirection → Machine → Prop}
    {F : Machine → Prop} (found : w.detour? d.id = some d) (unchained : ∀ k, d.watcher ≠ .chain k)
    (h : (Redirection.create w.platform.architecture w.platform.settings start r.target
      (some size)).Ends (r.abandon w.machine) Q F) :
    (followSource d r start size (tellWatcher d.watcher)).Ends w
      (fun _ w' => ∃ fresh m,
        w.Becomes { (d.withdrawn r).redirected fresh with busy := false } w' ∧
        Q fresh m ∧ w'.machine.arena = m.arena)
      (fun w' => w.Becomes (d.withdrawn r) w' ∧ F w'.machine) := by
  apply (followSource_tells (R := fun fresh m' => ∃ m, Q fresh m ∧ m'.arena = m.arena) found h
    fun fresh w₁ _ q => (tellWatcher_quiet unchained w₁).mono
      (fun _ w₂ quiet => ⟨quiet.toBeside, w₁.machine, q, quiet.arena⟩) fun _ h => h).mono
  · rintro ⟨⟩ w' ⟨fresh, becomes, m, q, same⟩
    exact ⟨fresh, m, becomes, q, same⟩
  · exact fun _ left => left

/-- A detour follows its source. The earlier jump is given up, and another is written at the fresh
code, or the detour is not applied any more. -/
theorem followSource_moved {start size : Nat} (h : w.machine.Holds (r.blocks ++ K))
    (found : w.detour? d.id = some d) (unchained : ∀ k, d.watcher ≠ .chain k) :
    (followSource d r start size (tellWatcher d.watcher)).Ends w
      (fun _ w' => ∃ fresh,
        w.Becomes { (d.withdrawn r).redirected fresh with busy := false } w' ∧
        Redirection.Carried (r.alternate.toList ++ K) start r.target w.machine fresh w'.machine ∧
        (w.platform.keepsReplacedCode = true → fresh.alternate.isSome))
      (fun w' => w.Becomes (d.withdrawn r) w' ∧
        Gains (r.alternate.toList ++ K) [] w.machine w'.machine) := by
  have given := Redirection.abandon_gains h
  apply (followSource_becomes found unchained
    (Redirection.create_ends given.holds _ _ start r.target (some size))).mono
  · rintro ⟨⟩ w' ⟨fresh, m₁, becomes, ⟨carried, callable⟩, same⟩
    exact ⟨fresh, becomes, (carried.since given).to_arena same, callable⟩
  · exact fun w' ⟨becomes, back⟩ => ⟨becomes, given.trans back⟩

/-- A detour that follows its target gets the redirection that was turned. -/
theorem followTarget_becomes {start : Nat} {Q : Redirection → Machine → Prop} {F : Machine → Prop}
    (h : (r.retarget start).Ends w.machine Q F) :
    (followTarget d r start).Ends w
      (fun _ w' => ∃ r', w.Becomes (d.redirected r') w' ∧ Q r' w'.machine)
      (fun w' => w.Beside w' ∧ F w'.machine) := by
  apply Ends.bind
  apply onMachine_ends
  apply h.mono
  · intro r' m₁ q
    apply setDetour_ends
    exact ⟨r', (w.beside_machine m₁).becomes _, q⟩
  · exact fun m₁ failed => ⟨w.beside_machine m₁, failed⟩

/-- A detour follows its target, unless its jump is stuck; then nothing happens. -/
theorem followTarget_turned {start : Nat} (h : w.machine.Holds (r.blocks ++ K))
    (laid : r.Laid w.machine) (callable : r.alternate.isSome) :
    (followTarget d r start).Ends w
      (fun _ w' => ¬ r.Stuck start ∧
        w.Becomes (d.redirected (r.aimed start)) w' ∧
        r.Turned K start w.machine w'.machine)
      (fun w' => r.Stuck start ∧ w.Quiet w') := by
  apply (followTarget_becomes (Redirection.retarget_ends h laid callable start)).mono
  · rintro ⟨⟩ w' ⟨_, becomes, loose, rfl, turned⟩
    exact ⟨loose, becomes, turned⟩
  · exact fun w' ⟨beside, stuck, same⟩ => ⟨stuck, beside, same⟩

end World

end Detouring
