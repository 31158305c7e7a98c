-- What doing something with a detour does to jumps through cells, whatever others write over their
-- code. A jump leaves its place only when it is taken off, or when it cannot be because the place is
-- not mapped any more, or when fresh code of its method was announced meanwhile.
import Detouring.Proofs.Detour.Stocked

namespace Detouring

open Op Machine

variable {K L : List Block} {d d' : MethodDetour} {r : Redirection} {S : Set Method}
  {w w' w'' w₀ : World} {id : Nat} {E : World → Prop}

namespace World

/-! ## Applying -/

theorem redirect_heeds (h : w₀.Heeds K S w) {beforePatch : Option Nat → Op World Unit}
    (mild : ∀ entry, Mild (beforePatch entry)) (source target : Nat) :
    (redirect source target beforePatch).Ends w
      (fun r w' => r.patch.Whole ∧ w₀.Heeds (r.blocks ++ K) S w') (w₀.Heeds K S) := by
  have moved {L : List Block} {w' : World} (b : w.Beside w')
      (held : w'.machine.Holds (w.holdings ++ L)) : w₀.Heeds L S w' :=
    ⟨h.stocked.beside b held, h.passes.trans (.of_beside b)⟩
  apply redirect_rule
  apply (RedirectionPlan.make_ends h.stocked.holds w.platform.architecture w.platform.settings
    source target none).mono
  · rintro plan m₁ ⟨gained, _⟩
    apply (mild plan.entry? { w with machine := m₁ }).mono
    · intro _ w₂ quiet
      have beside := (w.beside_machine m₁).trans quiet.toBeside
      apply (Redirection.ofPlan_keeps (gained.holds.of_arena quiet.arena)).mono
      · rintro r m₃ ⟨whole, held⟩
        refine ⟨whole, moved (beside.trans (w₂.beside_machine m₃)) (held.mono ?_)⟩
        exact (List.perm_append_comm_assoc _ _ _).subperm
      · exact fun m₃ held => moved (beside.trans (w₂.beside_machine m₃)) held
    · intro w₂ quiet
      have beside := (w.beside_machine m₁).trans quiet.toBeside
      refine moved (beside.trans (w₂.beside_machine _)) ?_
      exact (RedirectionPlan.discard_gains (gained.holds.of_arena quiet.arena)).holds
  · exact fun m₁ same => moved (w.beside_machine m₁) same.holds

theorem establish_heeds (h : w₀.Heeds K S w)
    (source : ¬ w₀.runtime.Silent d.source → w₀.nameOf d.source ∈ S)
    (target : ¬ w₀.runtime.Silent d.target → w₀.nameOf d.target ∈ S)
    {beforePatch : Option Nat → Op World Unit}
    (mild : ∀ entry, Mild (beforePatch entry)) :
    (establish d beforePatch).Ends w
      (fun result w' => result.2.patch.Whole ∧ w₀.Heeds (result.2.blocks ++ K) S w')
      (w₀.Heeds K S) := by
  apply establish_rule fun w' told _ => h.quiet told.quiet
  intro pins w₁ inPlace
  have released {w' : World} (h : w₀.Heeds K S w') : w₀.Heeds K S (unpin pins w') :=
    h.quiet (w'.quiet_tell _)
  apply (resolve_lasts (lasts_heeds source) (h.quiet inPlace.told.quiet)).mono _ fun _ => released
  intro body w₂ h₂
  apply (resolve_lasts (lasts_heeds target) h₂).mono _ fun _ => released
  intro goal w₃ h₃
  exact (redirect_heeds h₃ mild body goal).mono (fun _ _ done => done) fun _ => released

/-- A record may change in what does not matter. -/
theorem Heeds.rewritten (h : w₀.Heeds K S w) (b : w.Becomes d' w')
    (found : w.detour? d'.id = some d)
    (names : (d'.source, d'.target, d'.factory) = (d.source, d.target, d.factory))
    (patch : d'.redirection = d.redirection) (retired : d'.retired = d.retired)
    (unchained : ∀ k, d'.watcher ≠ .chain k) (machine : w'.machine = w.machine) :
    w₀.Heeds K S w' := by
  have md := List.mem_of_find?_eq_some found
  have blocks : d'.blocks = d.blocks := by
    unfold MethodDetour.blocks
    rw [patch, retired]
  have held := h.stocked.holds_of md
  rw [← blocks, id_of_detour found, ← machine] at held
  refine h.trans ⟨h.stocked.becomes b found held ⟨unchained,
    patch ▸ (h.stocked.fit d md).whole⟩, .of_becomes b found names (fun bare => patch.trans bare)
    fun r hr => Or.inr ⟨r, patch.trans hr, .refl _⟩⟩

/-- A detour is still there after others were told, and it is as bare as before. -/
theorem Heeds.exists_bare (h : w₀.Heeds K S w) (found : w₀.detour? id = some d)
    (bare : d.redirection = none) : ∃ d₁, w.detour? id = some d₁ ∧ d₁.redirection = none := by
  obtain ⟨d₁, found₁, _⟩ :=
    Option.map_eq_some_iff.mp (h.passes.methods _ _ (methods?_of_found found))
  refine ⟨d₁, found₁, (redirection?_of_found found₁).symm.trans (h.passes.bare _ ?_)⟩
  exact (redirection?_of_found found).trans bare

/-- A redirection that was made goes into a record that has none. -/
theorem Heeds.applied (h : w₀.Heeds (r.blocks ++ K) S w) (none : w₀.redirection? id = none)
    (whole : r.patch.Whole) (found : w.detour? id = some d) (bare : d.redirection = .none)
    {pins : List Method}
    (b : w.Becomes { d.redirected r with busy := false, pins } w')
    (machine : w'.machine = w.machine) : w'.Stocked K ∧ w₀.Upholds S w' := by
  obtain rfl := id_of_detour found
  have md := List.mem_of_find?_eq_some found
  have held := h.stocked.holds_of md
  rw [MethodDetour.blocks_of_bare bare, ← machine] at held
  refine ⟨h.stocked.becomes b found ?_ (.of_patched (h.stocked.fit d md).unchained rfl whole),
    fun other r' c there hc => ?_⟩
  · rw [MethodDetour.blocks_of_patched rfl, List.append_assoc]
    exact held.mono (((List.perm_append_comm_assoc _ _ _).append_left _).trans
      (List.perm_append_comm_assoc _ _ _)).symm.subperm
  · have away : other ≠ d.id := by
      rintro rfl
      cases none.symm.trans there
    refine (h.passes.stays _ _ there).imp_right fun ⟨r'', there', stays⟩ => Or.inl ⟨r'', ?_, stays⟩
    rw [b.redirection? found]
    exact (Function.update_of_ne away _ _).trans there'

/-- A detour is applied, or the others were told of fresh code and that is all. -/
theorem applyDetour_upholds (s : w.Stocked K) (renewed : ∀ d, w.detour? id = some d →
    (¬ w.runtime.Silent d.source → w.nameOf d.source ∈ S) ∧
      (¬ w.runtime.Silent d.target → w.nameOf d.target ∈ S))
    {beforePatch : Option Nat → Op World Unit}
    (mild : ∀ entry, Mild (beforePatch entry)) :
    (applyDetour id beforePatch).Ends w (fun _ w' => w'.Stocked K ∧ w.Upholds S w')
      (w.Heeds K S) := by
  have same : w.Heeds K S w := .refl s
  rcases found : w.detour? id with _ | d
  · exact withDetour_missing found ⟨s, same.passes.upholds⟩
  obtain rfl := id_of_detour found
  rcases applied : d.redirection with _ | r
  · rcases busy : d.busy with _ | _
    · obtain ⟨source, target⟩ := renewed d found
      have unchained := (s.fit d (List.mem_of_find?_eq_some found)).unchained
      have begun : w.Heeds K S (w.put { d with busy := true }) :=
        same.rewritten ((Quiet.refl w).toBeside.becomes _) found rfl rfl rfl unchained rfl
      have there {L : List Block} {w₁ : World} (h : w.Heeds L S w₁) :
          ∃ d₁, w₁.detour? d.id = some d₁ := (h.exists_bare found applied).imp fun _ => And.left
      apply (applyDetour_becomes found applied busy
        ((establish_heeds (d := d) begun source target mild).mono
          (fun _ _ done => ⟨there done.2, done⟩) fun _ h => ⟨there h, h⟩)).mono
      · rintro ⟨⟩ w' ⟨w₁, d₁, pins, r, ⟨whole, h⟩, found₁, becomes, machine⟩
        obtain ⟨d₂, found₂, bare⟩ := h.exists_bare found applied
        obtain rfl := Option.some.inj (found₁.symm.trans found₂)
        exact h.applied ((redirection?_of_found found).trans applied) whole found₁ bare becomes
          machine
      · rintro w' ⟨w₁, d₁, h, found₁, rfl⟩
        have fit := h.stocked.fit d₁ (List.mem_of_find?_eq_some found₁)
        rw [← id_of_detour found₁] at found₁
        exact h.rewritten ((Quiet.refl w₁).toBeside.becomes { d₁ with busy := false }) found₁ rfl
          rfl rfl fit.unchained rfl
    · apply (applyDetour_refused found (Or.inr busy)).mono fun _ _ h => h
      rintro _ rfl
      exact same
  · have refused : d.redirection ≠ none := by simp [applied]
    apply (applyDetour_refused found (Or.inl refused)).mono fun _ _ h => h
    rintro _ rfl
    exact same

/-! ## Undoing -/

/-- At most the jump of one detour was taken off. -/
structure Lifts (id : Nat) (w w' : World) : Prop where
  others : ∀ other, other ≠ id → w'.redirection? other = w.redirection? other
  gone : ∀ r, w.redirection? id = some r → w'.redirection? id = some r ∨
    w'.redirection? id = none ∧ r.patch.Gone w'.machine.memory

theorem Lifts.of_beside (b : w.Beside w') : Lifts id w w' :=
  ⟨fun other _ => congrFun b.redirection? other, fun _ h => Or.inl (by rw [b.redirection?]; exact h)⟩

theorem Lifts.upholds (l : Lifts id w w') : w.Upholds S w' := by
  intro other r c there _
  by_cases it : other = id
  · subst it
    exact Or.inr ((l.gone r there).imp (fun there' => ⟨r, there', .refl _⟩) And.right)
  · exact Or.inr (Or.inl ⟨r, (l.others other it).trans there, .refl _⟩)

theorem Becomes.lifts (b : w.Becomes d' w') (found : w.detour? d'.id = some d)
    (bare : d'.redirection = none)
    (gone : ∀ r, d.redirection = some r → r.patch.Gone w'.machine.memory) :
    Lifts d'.id w w' := by
  refine ⟨fun other away => ?_, fun r there => Or.inr ⟨?_, gone r ?_⟩⟩
  · rw [b.redirection? found, Function.update_of_ne away]
  · rw [b.redirection? found, Function.update_self, bare]
  · exact (redirection?_of_found found).symm.trans there

/-- Whether or not the code could be written back, the jump is gone. -/
theorem undoDetour_lifts (s : w.Stocked K) (id : Nat) :
    (undoDetour id).Ends w (fun _ w' => w'.Stocked K ∧ Lifts id w w')
      (fun w' => w'.Stocked K ∧ Lifts id w w') := by
  have same : w.Stocked K ∧ Lifts id w w := ⟨s, .of_beside (Quiet.refl w).toBeside⟩
  rcases found : w.detour? id with _ | d
  · exact withDetour_missing found same
  have md := List.mem_of_find?_eq_some found
  have fit := s.fit d md
  obtain rfl := id_of_detour found
  rcases patched : d.redirection with _ | r
  · apply (undoDetour_refused found (Or.inl patched)).mono fun _ _ h => h
    rintro _ rfl
    exact same
  rcases busy : d.busy with _ | _
  · have holds := s.holds_of md
    rw [MethodDetour.blocks_of_patched patched, List.append_assoc] at holds
    have given {w' : World} {d' : MethodDetour} {m : Machine} (becomes : w.Becomes d' w')
        (it : d'.id = d.id) (bare : d'.redirection = none)
        (retired : d'.retired = d.retired ++ r.alternate.toList)
        (unchained : ∀ k, d'.watcher ≠ .chain k)
        (held : m.Holds (r.blocks ++ (d.retired ++ ((w.without d.id).holdings ++ K))) ∧
          r.patch.Gone m.memory)
        (machine : w'.machine = r.abandon m) : w'.Stocked K ∧ Lifts d.id w w' := by
      have abandoned := Redirection.abandon_gains held.1
      have shrinks : m.Shrinks (r.abandon m) :=
        (held.1.mono (r.perm_blocks _).symm.subperm).shrinks_freeCell
      rw [← it] at found
      refine ⟨s.becomes becomes found ?_ (.of_bare unchained bare),
        it ▸ becomes.lifts found bare fun r' hr => ?_⟩
      · rw [MethodDetour.blocks_of_bare bare, retired, machine, it]
        exact abandoned.holds.mono (d.perm_withdrawn r _).subperm
      · obtain rfl := Option.some.inj (patched.symm.trans hr)
        rw [machine]
        exact held.2.shrinks shrinks
    apply (undoDetour_becomes found patched busy
      ((Redirection.undo_keeps (fit.whole r patched) holds).mono (fun _ _ done => done.2)
        fun _ failed => failed)).mono
    · rintro ⟨⟩ w' ⟨becomes, m, held, machine⟩
      exact given becomes rfl rfl rfl fit.unchained held machine
    · rintro w' ⟨becomes, m, held, machine⟩
      exact given becomes rfl rfl rfl fit.unchained held machine
  · apply (undoDetour_refused found (Or.inr busy)).mono fun _ _ h => h
    rintro _ rfl
    exact same

/-! ## Dropping -/

/-- A detour that is taken off the books gives back what it has, its cell when its jump is gone. -/
theorem removeDetour_lifts (s : w.Stocked K) (found : w.detour? id = some d) :
    (removeDetour d w).Stocked K ∧ w.Loses id (removeDetour d w) ∧
      (d.redirection = none → w.machine.Shrinks (removeDetour d w).machine) ∧
      ∀ r, d.redirection = some r → r.patch.Gone (removeDetour d w).machine.memory := by
  have md := List.mem_of_find?_eq_some found
  obtain rfl := id_of_detour found
  have loses : w.Loses d.id (removeDetour d w) :=
    ((beside_machine _ _).trans (quiet_tell _ _).toBeside).trans (beside_machine _ _)
  have holds := s.holds_of md
  rcases patched : d.redirection with _ | r
  · rw [MethodDetour.blocks_of_bare patched] at holds
    have machine : (removeDetour d w).machine = w.machine.freeAll d.retired := by
      unfold removeDetour
      rw [patched]
    refine ⟨s.loses loses ?_, loses, fun _ => ?_, fun _ never => (by cases never)⟩
    · rw [machine]
      exact holds.freeAll.holds
    · rw [machine]
      exact holds.shrinks_freeAll
  · rw [MethodDetour.blocks_of_patched patched, List.append_assoc] at holds
    have whole := (s.fit d md).whole r patched
    have machine : (removeDetour d w).machine = (r.drop w.machine).freeAll d.retired := by
      unfold removeDetour
      rw [patched]
    obtain ⟨held, gone⟩ := Redirection.drop_keeps holds fun _ => whole
    refine ⟨s.loses loses ?_, loses, fun never => (by cases never), fun r' hr => ?_⟩
    · rw [machine]
      exact held.freeAll.holds
    · obtain rfl := Option.some.inj hr
      rw [machine]
      exact (gone whole.applied).shrinks held.shrinks_freeAll

theorem dropDetour_lifts (s : w.Stocked K) (id : Nat) :
    (dropDetour id).Ends w (fun _ w' => w'.Stocked K ∧ Lifts id w w') E := by
  have removed {w₁ : World} (undone : w₁.Stocked K ∧ Lifts id w w₁) :
      (withDetour id fun d => Op.change (removeDetour d)).Ends w₁
        (fun _ w' => w'.Stocked K ∧ Lifts id w w') E := by
    obtain ⟨s₁, l⟩ := undone
    apply withDetour_ends _ fun _ => ⟨s₁, l⟩
    intro d found
    obtain ⟨s₂, loses, shrinks, gone⟩ := removeDetour_lifts s₁ found
    have here := redirection?_of_found found
    apply Ends.change
    refine ⟨s₂, fun other away => ?_, fun r there => Or.inr ⟨?_, ?_⟩⟩
    · rw [loses.redirection?, Function.update_of_ne away]
      exact l.others other away
    · rw [loses.redirection?, Function.update_self]
    · rcases l.gone r there with there' | ⟨bare, gone'⟩
      · exact gone r (here.symm.trans there')
      · exact gone'.shrinks (shrinks (here.symm.trans bare))
  have same : w.Stocked K ∧ Lifts id w w := ⟨s, .of_beside (Quiet.refl w).toBeside⟩
  apply Ends.bind
  apply withDetour_ends _ fun _ => removed same
  intro d found
  split
  · apply Ends.bind
    apply Ends.outcome
    apply (undoDetour_lifts s id).mono
    · rintro ⟨⟩ w₁ undone
      exact Ends.pure (removed undone)
    · rintro w₁ ⟨s₁, l⟩ e
      apply report_ends
      intro w₂ quiet
      refine removed ⟨s₁.quiet quiet, fun other away => ?_, fun r there => ?_⟩
      · rw [quiet.toBeside.redirection?]
        exact l.others other away
      · rw [quiet.toBeside.redirection?]
        exact (l.gone r there).imp_right (And.imp_right (·.shrinks (.of_arena quiet.arena)))
  · exact Ends.pure (removed same)

/-! ## Making -/

theorem Heeds.register (h : w₀.Heeds K S w) (next : d.id = w.nextDetour)
    (bare : d.redirection = none) (empty : d.retired = []) (unchained : ∀ k, d.watcher ≠ .chain k) :
    w₀.Heeds K S (w.register d) := by
  have same := h.stocked.toNumbered.redirection?_register next bare
  refine h.trans ⟨h.stocked.register next bare empty unchained, fun _ => rfl, fun _ h => h,
    fun id names there => ?_, fun id there => ?_, fun id r there => Or.inr ⟨r, ?_, .refl _⟩⟩
  · obtain ⟨d', found, rfl⟩ := Option.map_eq_some_iff.mp there
    unfold methods? detour? World.register
    rw [List.find?_append, show w.detours.find? (·.id == id) = some d' from found]
    rfl
  · rw [same]
    exact there
  · rw [same]
    exact there

theorem createDetour_upholds (s : w.Stocked K) (factory : Nat) (source target : Method)
    (apply : Bool) (renewed : apply = true →
      (¬ w.runtime.Silent (w.nameOf source) → w.nameOf (w.nameOf source) ∈ S) ∧
        (¬ w.runtime.Silent (w.nameOf target) → w.nameOf (w.nameOf target) ∈ S)) :
    (createDetour factory source target apply).Ends w (fun _ w' => w'.Stocked K ∧ w.Upholds S w')
      (fun w' => w'.Stocked K ∧ w.Upholds S w') := by
  have done {w' : World} (h : w.Heeds K S w') : w'.Stocked K ∧ w.Upholds S w' :=
    ⟨h.stocked, h.passes.upholds⟩
  let d (w₁ : World) : MethodDetour :=
    .blank w₁.nextDetour factory (w.nameOf source) (w.nameOf target)
  have heeds (w₁ : World) (said : w.Mentions w₁) : w.Heeds K S (w₁.register (d w₁)) :=
    ((Heeds.refl s).quiet said.quiet).register rfl rfl rfl fun _ chain => (by cases chain)
  refine createDetour_rule (fun w₁ said => done ((Heeds.refl s).quiet said.quiet))
    (fun w₁ said _ => done (heeds w₁ said)) fun w₁ said atOnce => ?_
  have h := heeds w₁ said
  apply (applyDetour_upholds h.stocked (fun d' found => ?_) fun _ => mild_pure ()).mono
  · rintro ⟨⟩ w₂ ⟨s₂, upholds⟩
    exact ⟨s₂, h.passes.andUpholds upholds⟩
  · intro w₂ h₂
    have dropped := left_of_ends (P := fun w' => w'.Stocked K ∧ Lifts w₁.nextDetour w₂ w')
      (dropDetour_lifts h₂.stocked w₁.nextDetour)
    exact ⟨dropped.1, (h.trans h₂).passes.andUpholds dropped.2.upholds⟩
  · have new : (w₁.register (d w₁)).detour? w₁.nextDetour = some (d w₁) :=
      h.stocked.found_iff.mpr ⟨List.mem_append_right _ (List.mem_singleton_self _), rfl⟩
    obtain rfl := Option.some.inj (new.symm.trans found)
    obtain ⟨ofSource, ofTarget⟩ := renewed atOnce
    rw [h.passes.names, h.passes.names]
    exact ⟨fun tells => ofSource fun silent => tells (h.passes.silent _ silent),
      fun tells => ofTarget fun silent => tells (h.passes.silent _ silent)⟩

theorem watch_heeds (s : w.Stocked K) (id : Nat) {watcher : Watcher}
    (unchained : ∀ k, watcher ≠ .chain k) :
    (watch id watcher).Ends w (fun _ => w.Heeds K S) E := by
  apply withDetour_ends _ fun _ => .refl s
  intro d found
  obtain rfl := id_of_detour found
  apply setDetour_ends
  exact (Heeds.refl s).rewritten ((Quiet.refl w).toBeside.becomes _) found rfl rfl rfl unchained rfl

end World

end Detouring
