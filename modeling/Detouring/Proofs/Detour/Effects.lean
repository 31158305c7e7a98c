-- What doing something with a detour comes to: at most one jump is written or taken off, no other
-- code of others changes, and the detours stay in order.
import Detouring.Proofs.Detour.Orderly

namespace Detouring

open Op Machine

namespace World

variable {K : List Block} {d : MethodDetour} {r : Redirection} {w w' w'' : World} {id : Nat}
  {E : World → Prop}

/-! ## What becomes of jumps -/

/-- No jump was written or taken off, and the detours are in order. -/
structure Leaves (w w' : World) : Prop where
  orderly : w'.Orderly
  foreign : ∀ x, w.machine.Foreign x → w'.machine.Foreign x
  same : w'.redirection? = w.redirection?
  code : ∀ x, w.machine.Foreign x → w'.machine.memory.bytes x = w.machine.memory.bytes x

/-- At most the jump of one detour was written or taken off. -/
inductive Change (id : Nat) (w w' : World) : Prop where
  | nothing (same : w'.redirection? = w.redirection?)
      (code : ∀ x, w.machine.Foreign x → w'.machine.memory.bytes x = w.machine.memory.bytes x)
  | laid (r : Redirection) (before : w.redirection? id = none)
      (after : w'.redirection? = Function.update w.redirection? id (some r))
      (covers : r.patch.Covers w.machine w'.machine)
  | lifted (r : Redirection) (before : w.redirection? id = some r)
      (after : w'.redirection? = Function.update w.redirection? id none)
      (code : ∀ x, w.machine.Foreign x →
        w'.machine.memory.bytes x = r.patch.beneath w.machine.memory.bytes x)

/-- What doing something with a detour comes to. The detours are still in order. -/
structure Effect (id : Nat) (w w' : World) : Prop where
  orderly : w'.Orderly
  foreign : ∀ x, w.machine.Foreign x → w'.machine.Foreign x
  change : Change id w w'

/-- The jump of a detour lies over code that was foreign. -/
def Lands (id : Nat) (w w' : World) : Prop :=
  ∀ r, w'.redirection? id = some r → ∀ i < r.patch.jump.size, w.machine.Foreign (r.source + i)

theorem Leaves.refl (o : w.Orderly) : w.Leaves w := ⟨o, fun _ f => f, rfl, fun _ _ => rfl⟩

theorem Leaves.effect (h : w.Leaves w') : Effect id w w' :=
  ⟨h.orderly, h.foreign, .nothing h.same h.code⟩

theorem Leaves.quiet (o : w.Orderly) (q : w.Quiet w') : w.Leaves w' := by
  have still := Gains.of_arena o.holds q.arena
  exact ⟨o.quiet q, still.foreign, q.toBeside.redirection?, still.code⟩

theorem Leaves.trans (h : w.Leaves w') (h' : w'.Leaves w'') : w.Leaves w'' :=
  ⟨h'.orderly, fun x f => h'.foreign x (h.foreign x f), h'.same.trans h.same,
    fun x f => (h'.code x (h.foreign x f)).trans (h.code x f)⟩

/-- What happens to jumps after nothing did. -/
theorem Leaves.then (h : w.Leaves w') (e : Effect id w' w'') (lands : Lands id w w'') :
    Effect id w w'' := by
  refine ⟨e.orderly, fun x f => e.foreign x (h.foreign x f), ?_⟩
  rcases e.change with ⟨same, code⟩ | ⟨r, before, after, covers⟩ | ⟨r, before, after, code⟩
  · exact .nothing (same.trans h.same) fun x f =>
      (code x (h.foreign x f)).trans (h.code x f)
  · rw [h.same] at before after
    refine .laid r before after (covers.since h.foreign h.code fun i hi => ?_)
    exact lands r (after ▸ Function.update_self ..) i hi
  · rw [h.same] at before after
    refine .lifted r before after fun x f => (code x (h.foreign x f)).trans ?_
    unfold JumpPatch.beneath
    rw [h.code x f]

/-! ## Doing something with a detour -/

/-- A detour that is applied to foreign code is in force. -/
theorem Orderly.applied (o : w.Orderly) (found : w.detour? d.id = some d)
    (bare : d.redirection = none) {pins : List Method}
    (becomes : w.Becomes { d.redirected r with busy := false, pins } w')
    (carried : Redirection.Carried (d.blocks ++ (w.without d.id).holdings) r.source r.target
      w.machine r w'.machine)
    (callable : w.platform.keepsReplacedCode = true → r.alternate.isSome)
    (code : ∀ i < r.patch.jump.size, w.machine.Foreign (r.source + i)) :
    w'.Orderly ∧ r.Stands w'.machine ∧ r.patch.Covers w.machine w'.machine ∧
      ∀ x, w.machine.Foreign x → w'.machine.Foreign x := by
  obtain ⟨held, spares, stands, covers⟩ := carried.done code
  have settled := o.settled d (List.mem_of_find?_eq_some found)
  refine ⟨o.becomes becomes found ?_ spares.foreign (.of_patched rfl rfl settled.unchained
    stands.toLaid fun keeps => callable (becomes.platform ▸ keeps)), stands, covers, spares.foreign⟩
  rw [MethodDetour.blocks_of_bare bare, ← List.append_assoc] at held
  rw [MethodDetour.blocks_of_patched rfl]
  exact held

/-- A detour is applied, or nothing happens. -/
theorem applyDetour_effect (o : w.Orderly)
    (still : ∀ d, w.detour? id = some d → w.Still d.source ∧ w.Still d.target) :
    (applyDetour id fun _ => pure ()).Ends w (fun _ w' => Lands id w w' → Effect id w w')
      w.Leaves := by
  rcases found : w.detour? id with _ | d
  · exact withDetour_missing found fun _ => (Leaves.refl o).effect
  have md := List.mem_of_find?_eq_some found
  have idle := (o.settled d md).idle
  obtain rfl := id_of_detour found
  have here := redirection?_of_found found
  rcases bare : d.redirection with _ | r
  · obtain ⟨source, target⟩ := still d found
    have holds := o.holds_of md
    apply (applyDetour_carried holds found bare idle (fun _ => mild_pure ()) source target).mono
    · rintro ⟨⟩ w' ⟨r, pins, becomes, _, carried, callable⟩ lands
      have after := becomes.redirection? found
      obtain ⟨orderly, _, covers, foreign⟩ := o.applied found bare becomes carried callable
        (lands r (after ▸ Function.update_self ..))
      exact ⟨orderly, foreign, .laid r (here.trans bare) after covers⟩
    · rintro w' ⟨becomes, gained⟩
      have settled := (o.settled d md).later gained.foreign becomes.platform
      refine ⟨o.becomes becomes found gained.holds gained.foreign
        ⟨rfl, settled.unchained, settled.laid, settled.callable⟩, gained.foreign, ?_, gained.code⟩
      rw [becomes.redirection? found]
      exact Function.update_eq_self_iff.mpr here.symm
  · have applied : d.redirection ≠ none := by simp [bare]
    apply (applyDetour_refused found (Or.inl applied)).mono fun _ _ h => h
    rintro w' rfl
    exact .refl o

/-- A detour that is applied is undone. -/
theorem undoDetour_effect (o : w.Orderly) (id : Nat) :
    (undoDetour id).Ends w (fun _ => Effect id w) w.Leaves := by
  rcases found : w.detour? id with _ | d
  · exact withDetour_missing found (Leaves.refl o).effect
  have md := List.mem_of_find?_eq_some found
  have settled := o.settled d md
  obtain rfl := id_of_detour found
  rcases patched : d.redirection with _ | r
  · apply (undoDetour_refused found (Or.inl patched)).mono fun _ _ h => h
    rintro w' rfl
    exact .refl o
  · have holds := o.holds_of md
    rw [MethodDetour.blocks_of_patched patched, List.append_assoc] at holds
    apply (undoDetour_restored holds (settled.laid r patched) found patched settled.idle).mono _
      fun _ left => left
    rintro ⟨⟩ w' ⟨becomes, lifted⟩
    refine ⟨o.becomes becomes found ?_ lifted.spares.foreign
      (.of_bare rfl settled.idle settled.unchained), lifted.spares.foreign,
      .lifted r ((redirection?_of_found found).trans patched) (becomes.redirection? found)
        lifted.code⟩
    rw [MethodDetour.blocks_of_bare rfl]
    exact lifted.holds.mono (d.perm_withdrawn r _).subperm

theorem dropDetour_leaves (o : w.Orderly) (bare : w.redirection? id = none) :
    (dropDetour id).Ends w (fun _ => w.Leaves) E := by
  rcases found : w.detour? id with _ | d
  · apply Ends.bind
    apply withDetour_missing found
    exact withDetour_missing found (.refl o)
  · have md := List.mem_of_find?_eq_some found
    obtain rfl := id_of_detour found
    have here := (redirection?_of_found found).symm.trans bare
    have holds := o.holds_of md
    rw [MethodDetour.blocks_of_bare here] at holds
    apply (dropDetour_bare holds found here).mono _ fun _ left => left
    rintro ⟨⟩ w' ⟨loses, gained⟩
    refine ⟨o.loses loses gained.holds gained.foreign, gained.foreign, ?_, gained.code⟩
    rw [loses.redirection?]
    exact Function.update_eq_self_iff.mpr bare.symm

/-- A detour that is dropped while it is applied is undone. -/
theorem dropDetour_effect (o : w.Orderly) (id : Nat) :
    (dropDetour id).Ends w (fun _ => Effect id w) E := by
  rcases there : w.redirection? id with _ | r
  · exact (dropDetour_leaves o there).mono (fun _ _ leaves => leaves.effect) fun _ left => left
  · obtain ⟨d, md, rfl, patched⟩ := o.exists_of_redirection there
    have settled := o.settled d md
    have holds := o.holds_of md
    rw [MethodDetour.blocks_of_patched patched, List.append_assoc] at holds
    apply (dropDetour_restored holds (settled.laid r patched) (o.found_iff.mpr ⟨md, rfl⟩) patched
      settled.idle).mono _ fun _ left => left
    rintro ⟨⟩ w' ⟨loses, held, spares, code⟩
    exact ⟨o.loses loses held spares.foreign, spares.foreign,
      .lifted r there loses.redirection? code⟩

theorem Still.register {m : Method} (h : w.Still m) (o : w.Orderly) (next : d.id = w.nextDetour)
    (bare : d.redirection = none) : (w.register d).Still m := by
  rcases h with deaf | silent | ⟨name, unapplied⟩
  · exact Or.inl deaf
  · exact Or.inr (Or.inl silent)
  · refine Or.inr (Or.inr ⟨name, fun e me touches x found => ?_⟩)
    rw [← redirection?_of_found found, o.toNumbered.redirection?_register next bare]
    rcases List.mem_append.mp me with me | me
    · rcases known : w.detour? e.id with _ | y
      · exact redirection?_of_none known
      · exact (redirection?_of_found known).trans (unapplied e me touches y known)
    · obtain rfl := List.mem_singleton.mp me
      exact redirection?_of_none (next ▸ o.detour?_next)

/-- A detour that is created may be applied at once. -/
theorem createDetour_effect (o : w.Orderly) (factory : Nat) (source target : Method) (apply : Bool)
    (still : apply = true → w.Still (w.nameOf source) ∧ w.Still (w.nameOf target)) :
    (createDetour factory source target apply).Ends w
      (fun _ w' => Lands w.nextDetour w w' → Effect w.nextDetour w w') w.Leaves := by
  let d (w₁ : World) : MethodDetour :=
    .blank w₁.nextDetour factory (w.nameOf source) (w.nameOf target)
  have leaves (w₁ : World) (said : w.Mentions w₁) : w.Leaves (w₁.register (d w₁)) := by
    have o₁ := o.quiet said.quiet
    exact (Leaves.quiet o said.quiet).trans ⟨o₁.register rfl rfl rfl rfl fun _ h => (by cases h),
      fun _ f => f, o₁.toNumbered.redirection?_register rfl rfl, fun _ _ => rfl⟩
  refine createDetour_rule (fun w₁ said => .quiet o said.quiet)
    (fun w₁ said _ _ => said.quiet.nextDetour ▸ (leaves w₁ said).effect) fun w₁ said atOnce => ?_
  have o₁ := o.quiet said.quiet
  have leaves := leaves w₁ said
  have calm (m : Method) (h : w.Still m) : (w₁.register (d w₁)).Still m :=
    (h.congr said.quiet.toBeside).register o₁ rfl rfl
  rw [← said.quiet.nextDetour]
  apply (applyDetour_effect leaves.orderly fun d' found => ?_).mono
  · intro _ w₂ effect lands
    exact leaves.then (effect fun r hr i hi => leaves.foreign _ (lands r hr i hi)) lands
  · intro w₂ left
    have bare : w₂.redirection? w₁.nextDetour = none := by
      rw [left.same, o₁.toNumbered.redirection?_register rfl rfl]
      exact redirection?_of_none o₁.detour?_next
    have dropped : w₂.Leaves ((dropDetour w₁.nextDetour).on w₂).2 :=
      left_of_ends (dropDetour_leaves left.orderly bare)
    exact (leaves.trans left).trans dropped
  · have new : (w₁.register (d w₁)).detour? w₁.nextDetour = some (d w₁) :=
      leaves.orderly.found_iff.mpr ⟨List.mem_append_right _ (List.mem_singleton_self _), rfl⟩
    obtain rfl := Option.some.inj (new.symm.trans found)
    exact ⟨calm _ (still atOnce).1, calm _ (still atOnce).2⟩

end World

end Detouring
