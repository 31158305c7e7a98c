-- Who is pinned on a runtime that asks for it. A detour pins its source and its target when it is
-- applied, and lets them go when it is undone. A detour that stops being applied in another way,
-- because its undo failed or because it could not follow its source, keeps its pins.
import Detouring.Proofs.Detour.Layers
import Detouring.Proofs.Detour.Tallying

namespace Detouring

open Op

variable {H H' : Nat → Bool} {d d' : MethodDetour} {r : Redirection} {w w' w'' w₀ : World}
  {id : Nat} {beforePatch : Option Nat → Op World Unit} {E : World → Prop}

namespace World

/-! ## Who is pinned -/

/-- Methods are pinned as often as detours keep them in place. -/
structure Pinning (H : Nat → Bool) (w : World) : Prop extends Filed H w where
  pinned : ∀ m, w.pinned m = w.kept m

/-- Detours and pins are as they were. -/
structure LeavesPins (w w' : World) : Prop where
  detours : w'.detours = w.detours
  nextDetour : w'.nextDetour = w.nextDetour
  flags : w'.platform.runtimeFlags = w.platform.runtimeFlags
  pinned : w'.pinned = w.pinned

theorem leavesPins_machine (w : World) (machine : Machine) : w.LeavesPins { w with machine } :=
  ⟨rfl, rfl, rfl, rfl⟩

theorem LeavesPins.trans (l : w.LeavesPins w') (l' : w'.LeavesPins w'') : w.LeavesPins w'' :=
  ⟨l'.detours.trans l.detours, l'.nextDetour.trans l.nextDetour, l'.flags.trans l.flags,
    l'.pinned.trans l.pinned⟩

/-- The operation leaves detours and pins as they are. It may do anything else, and it may fail. -/
def Modest (act : Op World Unit) : Prop :=
  ∀ w, act.Ends w (fun _ w' => w.LeavesPins w') w.LeavesPins

theorem modest_pure : Modest (pure ()) := fun _ => Ends.pure ⟨rfl, rfl, rfl, rfl⟩

theorem LeavesPins.retains (l : w.LeavesPins w') (f : w.Filed H) : Retains H w w' := by
  refine ⟨⟨⟨l.detours ▸ f.ids, fun d md => ?_⟩, ?_, fun id h => ?_, fun d md => ?_⟩, ?_, ?_⟩
  · rw [l.nextDetour]
    exact f.numbered d (l.detours ▸ md)
  · unfold asks
    rw [l.flags]
    exact f.required
  · rw [l.nextDetour]
    exact f.below id h
  · exact f.keeps d (l.detours ▸ md)
  · unfold kept
    rw [l.detours]
  · unfold methods? detour?
    rw [l.detours]

namespace Pinning

theorem retains (p : w.Pinning H) (h : Retains H w w') (pinned : w'.pinned = w.pinned) :
    w'.Pinning H := by
  refine ⟨h.filed, fun m => ?_⟩
  rw [pinned, h.kept]
  exact p.pinned m

/-- One record has changed, and what it keeps was pinned or let go. -/
theorem becomes (p : w.Pinning H) (b : w.Becomes d' w') (found : w.detour? d'.id = some d)
    (keeps : d'.Keeps H') (others : ∀ id, id ≠ d'.id → H' id = H id)
    (pinned : ∀ m, w'.pinned m = w.pinned m + d'.pins.count m - d.pins.count m) :
    w'.Pinning H' := by
  refine ⟨p.toFiled.becomes b found keeps others, fun m => ?_⟩
  have counts := b.kept p.toNumbered found m
  have before := p.pinned m
  have after := pinned m
  omega

end Pinning

/-- The detours that count: those that are applied, and those of `H` that are still there. -/
def recount (w : World) (H : Nat → Bool) (id : Nat) : Bool :=
  (w.detour? id).any fun d => d.isApplied || H id

/-- Pins are in order if the detours that are not applied count as before. -/
theorem Pinning.recount (p : w.Pinning H')
    (same : ∀ d ∈ w.detours, d.redirection = none → H' d.id = H d.id) :
    w.Pinning (w.recount H) := by
  refine ⟨p.toFiled.congr (fun id h => ?_) fun d md => ?_, p.pinned⟩
  · unfold World.recount at h
    rcases found : w.detour? id with _ | d
    · rw [found] at h
      cases h
    · exact id_of_detour found ▸ p.numbered d (List.mem_of_find?_eq_some found)
  · unfold World.recount
    rw [p.found_iff.mpr ⟨md, rfl⟩]
    show (d.isApplied || H d.id) = H' d.id
    rw [d.isApplied_eq]
    rcases patched : d.redirection with _ | r
    · exact (same d md patched).symm
    · exact ((p.keeps d md).applied (by simp [patched])).symm

/-! ## Applying -/

theorem redirect_leaves (modest : ∀ entry, Modest (beforePatch entry)) (source target : Nat) :
    (redirect source target beforePatch).Ends w (fun _ w' => w.LeavesPins w') w.LeavesPins := by
  apply redirect_rule
  apply (Ends.of_left (P := fun _ => True) trivial).mono
  · intro plan m₁ _
    have planned := w.leavesPins_machine m₁
    apply (modest plan.entry? { w with machine := m₁ }).mono
    · intro _ w₂ l
      apply (Ends.of_left (P := fun _ => True) trivial).mono
      · exact fun _ m₃ _ => (planned.trans l).trans (w₂.leavesPins_machine m₃)
      · exact fun m₃ _ => (planned.trans l).trans (w₂.leavesPins_machine m₃)
    · exact fun w₂ l => (planned.trans l).trans (w₂.leavesPins_machine _)
  · exact fun m₁ _ => w.leavesPins_machine m₁

/-- Both methods are pinned once more, or none is. -/
theorem establish_pins (f : w.Filed H) (modest : ∀ entry, Modest (beforePatch entry)) :
    (establish d beforePatch).Ends w
      (fun result w' => result.1 = d.methods ∧ Retains H w w' ∧
        (unpin d.methods w').pinned = w.pinned)
      (fun w' => Retains H w w' ∧ w'.pinned = w.pinned) := by
  have told {w₁ w₂ : World} (f : w₁.Filed H) (told : w₁.Told w₂) : Retains H w₁ w₂ :=
    ((Heard.refl f).beside told.quiet.toBeside).toRetains
  apply establish_rule fun w' said pinned => ⟨told f said, pinned⟩
  intro pins w₁ inPlace
  obtain rfl : pins = d.methods := inPlace.pins f.required
  have h₁ := told f inPlace.told
  have led {w₂ : World} (h : Retains H w₁ w₂) (same : w₂.pinned = w₁.pinned) :
      Retains H w w₂ ∧ (unpin d.methods w₂).pinned = w.pinned :=
    ⟨h₁.trans h, (pinned_unpin_congr same).trans inPlace.pinned⟩
  -- What was pinned is let go when something fails.
  have released {w₂ : World} (h : Retains H w₁ w₂) (same : w₂.pinned = w₁.pinned) :
      Retains H w (unpin d.methods w₂) ∧ (unpin d.methods w₂).pinned = w.pinned := by
    obtain ⟨h₂, pinned⟩ := led h same
    exact ⟨h₂.trans (told h₂.filed ⟨_, rfl⟩), pinned⟩
  apply (resolve_lasts (lasts_heard d.source w₁) ⟨.refl h₁.filed, rfl⟩).mono _ fun _ heard =>
    released heard.1.toRetains heard.2
  intro body w₂ heard₂
  apply (resolve_lasts (lasts_heard d.target w₁) heard₂).mono _ fun _ heard =>
    released heard.1.toRetains heard.2
  rintro goal w₃ ⟨heard₃, pinned₃⟩
  have h₃ : Retains H w₁ w₃ := heard₃.toRetains
  apply (redirect_leaves modest body goal).mono
  · exact fun r w₄ l => ⟨rfl, led (h₃.trans (l.retains h₃.filed)) (l.pinned.trans pinned₃)⟩
  · exact fun w₄ l => released (h₃.trans (l.retains h₃.filed)) (l.pinned.trans pinned₃)

/-- Whatever pins a detour had, it has both now, and they are pinned. -/
theorem Pinning.applied (p : w.Pinning H) (f : w'.Filed H) (kept : w'.kept = w.kept)
    (found : w'.detour? d'.id = some d') (pinned : (unpin d'.methods w').pinned = w.pinned) :
    (unpin d'.pins
      (w'.put { d'.redirected r with busy := false, pins := d'.methods })).Pinning
        (Function.update H d'.id true) := by
  let after : MethodDetour := { d'.redirected r with busy := false, pins := d'.methods }
  have becomes : w'.Becomes after (unpin d'.pins (w'.put after)) :=
    Beside.becomes (quiet_tell _ _).toBeside _
  have keeps : after.Keeps (Function.update H d'.id true) := by
    refine ⟨?_, fun _ => Function.update_self ..⟩
    show d'.methods = if Function.update H d'.id true d'.id then after.methods else []
    rw [Function.update_self]
    rfl
  refine ⟨f.becomes becomes found keeps fun other away => Function.update_of_ne away _ _, fun m => ?_⟩
  have counts : (unpin d'.pins (w'.put after)).kept m + d'.pins.count m =
      w'.kept m + d'.methods.count m := becomes.kept f.toNumbered found m
  have before := p.pinned m
  have both := congrFun pinned m
  rw [kept] at counts
  rw [pinned_unpin] at both ⊢
  show w'.pinned m - d'.pins.count m = (unpin d'.pins (w'.put after)).kept m
  omega

/-- A detour that is applied counts from then on, and what it had kept before is let go. -/
theorem applyDetour_pinning (p : w.Pinning H) (modest : ∀ entry, Modest (beforePatch entry)) :
    (applyDetour id beforePatch).Ends w
      (fun _ w' => w'.Pinning (w'.recount H)) (fun w' => w'.Pinning H) := by
  rcases found : w.detour? id with _ | d
  · exact withDetour_missing found (p.recount fun _ _ _ => rfl)
  obtain rfl := id_of_detour found
  by_cases refused : d.redirection ≠ none ∨ d.busy = true
  · apply (applyDetour_refused found refused).mono fun _ _ h => h
    rintro _ rfl
    exact p
  obtain ⟨bare, idle⟩ := not_or.mp refused
  let busy : MethodDetour := { d with busy := true }
  have starts : w.Becomes busy (w.put busy) := (Quiet.refl w).toBeside.becomes _
  have begun : Heard H w (w.put busy) := .of_becomes p.toFiled starts found rfl rfl fun h => h
  have record {w₁ : World} (h : Retains H (w.put busy) w₁) :=
    h.record begun.filed (starts.detour? found)
  apply (applyDetour_leaves found (not_not.mp bare) (by simpa using idle)
    ((establish_pins begun.filed modest).mono
      (fun _ _ h => ⟨(record h.2.1).imp fun _ h => h.1, h⟩)
      fun _ h => ⟨(record h.1).imp fun _ h => h.1, h⟩)).mono
  · rintro ⟨⟩ _ ⟨w₁, d₁, _, r, ⟨rfl, retains, pinned⟩, found₁, rfl⟩
    obtain ⟨d₂, found₂, methods, pins⟩ := record retains
    obtain rfl := Option.some.inj (found₁.symm.trans found₂)
    have it : d₁.id = d.id := id_of_detour found₁
    rw [← it] at found₁
    have applied := p.applied (r := r) retains.filed (retains.kept.trans begun.kept) found₁
      (methods.symm ▸ pinned)
    rw [pins, methods] at applied
    refine applied.recount fun x mx bare => Function.update_of_ne (fun same => ?_) _ _
    let after : MethodDetour := { d₁.redirected r with busy := false, pins := d.methods }
    have here : (w₁.put after).detour? d₁.id = some after := detour?_put found₁
    rw [Option.some.inj ((applied.found_iff.mpr ⟨mx, same⟩).symm.trans here)] at bare
    cases bare
  · rintro _ ⟨w₁, d₁, ⟨retains, pinned⟩, found₁, rfl⟩
    have it := id_of_detour found₁
    rw [← it] at found₁
    have rested : Heard H w₁ (w₁.put { d₁ with busy := false }) :=
      .of_becomes retains.filed ((Quiet.refl w₁).toBeside.becomes _) found₁ rfl rfl fun h => h
    exact p.retains ((begun.toRetains.trans retains).trans rested.toRetains) pinned

/-! ## Undoing and dropping -/

/-- A detour that was undone does not count any more. Whatever goes wrong, it counts as before. -/
theorem undoDetour_pinning (p : w.Pinning H) (id : Nat) :
    (undoDetour id).Ends w (fun _ w' => w'.Pinning fun other => H other && other != id)
      (fun w' => w'.Pinning H) := by
  rcases found : w.detour? id with _ | d
  · refine withDetour_missing found ⟨p.toFiled.congr (fun other h => ?_) fun d md => ?_, p.pinned⟩
    · exact p.below other (Bool.and_elim_left h)
    · have other : d.id ≠ id := fun same => by
        cases (p.found_iff.mpr ⟨md, same⟩).symm.trans found
      simp [other]
  obtain rfl := id_of_detour found
  rcases patched : d.redirection with _ | r
  · exact (undoDetour_refused found (Or.inl patched)).mono (fun _ _ h => h) fun _ same => same ▸ p
  rcases busy : d.busy with _ | _
  · have counts : H d.id = true :=
      (p.keeps d (List.mem_of_find?_eq_some found)).applied (by simp [patched])
    apply (undoDetour_leaves found patched busy (Ends.of_left (P := fun _ => True) trivial)).mono
    · rintro ⟨⟩ _ ⟨m, _, rfl⟩
      let after : MethodDetour := { d.withdrawn r with pins := [] }
      have becomes : w.Becomes after (unpin d.pins ({ w with machine := r.abandon m }.put after)) :=
        ((w.beside_machine _).becomes _).beside (quiet_tell _ _).toBeside
      refine p.becomes becomes found ⟨?_, fun patched => (patched rfl).elim⟩ (fun other away => ?_)
        fun m => ?_
      · show [] = if H d.id && d.id != d.id then after.methods else []
        simp
      · have : other ≠ d.id := away
        simp [this]
      · rw [pinned_unpin]
        show w.pinned m - d.pins.count m = w.pinned m + ([] : List Method).count m - d.pins.count m
        simp
    · rintro _ ⟨m, _, rfl⟩
      have becomes : w.Becomes (d.withdrawn r)
          (({ w with machine := r.abandon m } : World).put (d.withdrawn r)) :=
        (w.beside_machine _).becomes _
      have heard : Heard H w (({ w with machine := r.abandon m } : World).put (d.withdrawn r)) :=
        .of_becomes p.toFiled becomes found rfl rfl fun h => (h rfl).elim
      exact p.retains heard.toRetains rfl
  · exact (undoDetour_refused found (Or.inr busy)).mono (fun _ _ h => h) fun _ same => same ▸ p

/-- A detour that is taken off the books lets go what it keeps. -/
theorem removeDetour_pinning (p : w.Pinning H) (found : w.detour? id = some d) :
    (removeDetour d w).Pinning H ∧ ∀ x ∈ (removeDetour d w).detours, x.id ≠ id := by
  obtain rfl := id_of_detour found
  have loses : w.Loses d.id (removeDetour d w) :=
    ((beside_machine _ _).trans (quiet_tell _ _).toBeside).trans (beside_machine _ _)
  refine ⟨⟨p.toFiled.loses loses, fun m => ?_⟩, fun x mx => ?_⟩
  · have parts := p.kept_of_mem (List.mem_of_find?_eq_some found) m
    have others := congrFun (Beside.kept loses) m
    have before := p.pinned m
    have released : (removeDetour d w).pinned m = w.pinned m - d.pins.count m :=
      pinned_unpin d.pins { w with detours := w.detours.filter (·.id != d.id) } m
    omega
  · have mx : x ∈ w.detours.filter (·.id != d.id) := mx
    simpa using (List.mem_filter.mp mx).2

theorem dropDetour_pinning (p : w.Pinning H) (id : Nat) :
    (dropDetour id).Ends w (fun _ w' => w'.Pinning (w'.recount H)) E := by
  have removed {w₁ : World} {H₁ : Nat → Bool} (p₁ : w₁.Pinning H₁)
      (others : ∀ other, other ≠ id → H₁ other = H other) :
      (withDetour id fun d => Op.change (removeDetour d)).Ends w₁
        (fun _ w' => w'.Pinning (w'.recount H)) E := by
    apply withDetour_ends
    · intro d found
      obtain ⟨p₂, away⟩ := removeDetour_pinning p₁ found
      apply Ends.change
      exact p₂.recount fun x mx _ => others x.id (away x mx)
    · intro none
      refine p₁.recount fun x mx _ => others x.id fun same => ?_
      cases (p₁.found_iff.mpr ⟨mx, same⟩).symm.trans none
  apply Ends.bind
  apply withDetour_ends _ fun _ => removed p fun _ _ => rfl
  intro d found
  split
  · apply Ends.bind
    apply Ends.outcome
    apply (undoDetour_pinning p id).mono
    · rintro ⟨⟩ w₁ p₁
      apply Ends.pure
      exact removed p₁ fun other away => by simp [away]
    · intro w₁ p₁ e
      apply changeMachine_ends
      exact removed (p₁.retains ((w₁.leavesPins_machine _).retains p₁.toFiled) rfl) fun _ _ => rfl
  · exact Ends.pure (removed p fun _ _ => rfl)

/-! ## Making and watching -/

/-- A new detour keeps nothing, and one that could not be applied at once is gone again. -/
theorem createDetour_pinning (p : w.Pinning H) (factory : Nat) (source target : Method)
    (apply : Bool) :
    (createDetour factory source target apply).Ends w (fun _ w' => w'.Pinning (w'.recount H))
      (fun w' => w'.Pinning (w'.recount H)) := by
  have done {w₁ : World} (p₁ : w₁.Pinning H) : w₁.Pinning (w₁.recount H) :=
    p₁.recount fun _ _ _ => rfl
  have quiet (w₁ : World) (said : w.Mentions w₁) : w₁.Pinning H :=
    p.retains ((Heard.refl p.toFiled).beside said.quiet.toBeside).toRetains said.pinned
  have registered (w₁ : World) (said : w.Mentions w₁) : (w₁.register
      (.blank w₁.nextDetour factory (w.nameOf source) (w.nameOf target))).Pinning H := by
    have p₁ := quiet w₁ said
    refine ⟨p₁.toFiled.register rfl rfl rfl, fun m => (p₁.pinned m).trans ?_⟩
    show ((w₁.kept m : Nat) : Int) = ((w₁.detours ++ [_]).flatMap MethodDetour.pins).count m
    rw [List.flatMap_append, List.flatMap_singleton]
    exact congrArg (fun pins => ((List.count m pins : Nat) : Int)) (List.append_nil _).symm
  refine createDetour_rule (fun w₁ said => done (quiet w₁ said))
    (fun w₁ said _ => done (registered w₁ said)) fun w₁ said _ => ?_
  apply (applyDetour_pinning (registered w₁ said) fun _ => modest_pure).mono fun _ _ p₂ => p₂
  exact fun w₂ p₂ => left_of_ends (P := fun w' : World => w'.Pinning (w'.recount H))
    (dropDetour_pinning p₂ w₁.nextDetour)

theorem watch_pinning (p : w.Pinning H) (id : Nat) (watcher : Watcher) :
    (watch id watcher).Ends w (fun _ w' => w'.Pinning H) E := by
  apply withDetour_ends _ fun _ => p
  intro d found
  obtain rfl := id_of_detour found
  apply setDetour_ends
  have heard : Heard H w (w.put { d with watcher }) :=
    .of_becomes p.toFiled ((Quiet.refl w).toBeside.becomes _) found rfl rfl fun h => h
  exact p.retains heard.toRetains rfl

end World

/-! ## Runs -/

namespace Pins

open World

variable {undone : Nat → Bool}

/-- What may be done, with the detours that were undone. Others may do anything but make, change or
drop detours, and pin methods or let them go. -/
inductive Step : World → (Nat → Bool) → World → Prop where
  | create {w : World} (factory : Nat) (source target : Method) (atOnce : Bool) :
      Step w (fun _ => false) ((createDetour factory source target atOnce).on w).2
  | apply {w : World} (id : Nat) {beforePatch : Option Nat → Op World Unit}
      (modest : ∀ entry, Modest (beforePatch entry)) :
      Step w (fun _ => false) ((applyDetour id beforePatch).on w).2
  | undone {w w' : World} (id : Nat) (done : (undoDetour id).on w = (.ok (), w')) :
      Step w (· == id) w'
  | notUndone {w w' : World} (id : Nat) {e : Fault}
      (failed : (undoDetour id).on w = (.error e, w')) : Step w (fun _ => false) w'
  | drop {w : World} (id : Nat) : Step w (fun _ => false) ((dropDetour id).on w).2
  | notice {w : World} (n : CompiledMethod) : Step w (fun _ => false) ((deliver n).on w).2
  | watch {w : World} (id : Nat) (watcher : Watcher) :
      Step w (fun _ => false) ((watch id watcher).on w).2
  | others {w w' : World} (leaves : w.LeavesPins w') : Step w (fun _ => false) w'

/-- What steps come to, with the detours that count: each detour counts from when it is applied until
it is undone. -/
inductive Run : World → (Nat → Bool) → Prop where
  | start {w : World} (none : w.detours = []) (free : ∀ m, w.pinned m = 0)
      (required : w.asks RuntimeFlag.pinning = true) : Run w fun _ => false
  | step {w w' : World} {H undone : Nat → Bool} (run : Run w H) (step : Step w undone w') :
      Run w' (w'.recount fun id => H id && !undone id)

theorem Step.pinning (step : Step w undone w') (p : w.Pinning H) :
    w'.Pinning (w'.recount fun id => H id && !undone id) := by
  have all {w' : World} (p' : w'.Pinning (w'.recount H)) :
      w'.Pinning (w'.recount fun id => H id && !false) := by
    simpa using p'
  have same {w' : World} (p' : w'.Pinning H) : w'.Pinning (w'.recount fun id => H id && !false) :=
    all (p'.recount fun _ _ _ => rfl)
  cases step with
  | create factory source target atOnce =>
    exact all (left_of_ends (P := fun w' : World => w'.Pinning (w'.recount H))
      (createDetour_pinning p factory source target atOnce))
  | apply id modest =>
    exact left_of_ends (P := fun w' : World => w'.Pinning (w'.recount fun id => H id && !false))
      ((applyDetour_pinning p modest).mono (fun _ _ p' => all p') fun _ p' => same p')
  | undone id done =>
    rcases (undoDetour_pinning p id).run with ⟨_, _, p'⟩ | ⟨e, error, _⟩
    · rw [done] at p'
      exact p'.recount fun _ _ _ => rfl
    · cases (congrArg Prod.fst done).symm.trans error
  | notUndone id failed =>
    rcases (undoDetour_pinning p id).run with ⟨_, ok, _⟩ | ⟨_, _, p'⟩
    · cases (congrArg Prod.fst failed).symm.trans ok
    · rw [failed] at p'
      exact same p'
  | drop id =>
    exact all (left_of_ends (P := fun w' : World => w'.Pinning (w'.recount H))
      (dropDetour_pinning p id))
  | notice n =>
    refine same (left_of_ends (P := fun w' : World => w'.Pinning H) ?_)
    exact (deliver_heard (n := n) (.refl p.toFiled)).mono
      (fun _ _ ⟨heard, pinned⟩ => p.retains heard.toRetains pinned) fun _ h => h
  | watch id watcher =>
    exact same (left_of_ends (P := fun w' : World => w'.Pinning H) (watch_pinning p id watcher))
  | others leaves => exact same (p.retains (leaves.retains p.toFiled) leaves.pinned)

theorem Run.pinning (run : Run w H) : w.Pinning H := by
  induction run with
  | start none free required =>
    refine ⟨⟨⟨?_, fun _ md => ?_⟩, required, nofun, fun _ md => ?_⟩, fun m => ?_⟩
    · rw [none]
      exact List.nodup_nil
    · rw [none] at md
      cases md
    · rw [none] at md
      cases md
    · unfold kept
      rw [free, none]
      rfl
  | step _ step ih => exact step.pinning ih

/-! ## How often methods are pinned -/

/-- The methods of the detours of a kind, each as often as it is the source or the target of one. -/
def uses (w : World) (kind : MethodDetour → Bool) : List Method :=
  (w.detours.filter kind).flatMap MethodDetour.methods

theorem flatMap_pins {l : List MethodDetour} (keeps : ∀ d ∈ l, d.Keeps H) :
    l.flatMap MethodDetour.pins = (l.filter fun d => H d.id).flatMap MethodDetour.methods := by
  induction l with
  | nil => rfl
  | cons d rest ih =>
    rw [List.flatMap_cons, ih fun x mx => keeps x (List.mem_cons_of_mem _ mx),
      (keeps d List.mem_cons_self).pins, List.filter_cons]
    cases H d.id <;> simp

/-- Of two kinds of detours, the wider one uses what the narrower one does and what the rest does. -/
theorem count_uses {kind wider : MethodDetour → Bool}
    (within : ∀ d ∈ w.detours, kind d = true → wider d = true) (m : Method) :
    (uses w wider).count m =
      (uses w kind).count m + (uses w fun d => wider d && !kind d).count m := by
  have parts := (List.filter_append_perm kind (w.detours.filter wider)).flatMap_right
    MethodDetour.methods
  have inside : (w.detours.filter wider).filter kind = w.detours.filter kind := by
    rw [List.filter_filter]
    refine List.filter_congr fun d md => ?_
    rcases here : kind d with _ | _
    · rfl
    · exact within d md here
  rw [inside, List.filter_filter, List.flatMap_append] at parts
  have counts := parts.count_eq m
  rw [List.count_append] at counts
  rw [uses, ← counts]
  simp only [uses, Bool.and_comm]

/-- Methods are pinned as often as they are used by detours that were applied and not undone since.
That is as often as applied detours use them if and only if all of those are applied still. -/
theorem a_method_is_pinned_until_its_detours_are_undone (run : Run w H) :
    (∀ m, w.pinned m = (uses w fun d => H d.id).count m) ∧
      (∀ d ∈ w.detours, d.isApplied = true → H d.id = true) ∧
      ((∀ m, w.pinned m = (uses w MethodDetour.isApplied).count m) ↔
        ∀ d ∈ w.detours, H d.id = true → d.isApplied = true) := by
  have p := run.pinning
  have pinned (m : Method) : w.pinned m = (uses w fun d => H d.id).count m := by
    rw [p.pinned m, kept, flatMap_pins p.keeps]
    rfl
  have counts (d : MethodDetour) (md : d ∈ w.detours) (applied : d.isApplied = true) :
      H d.id = true := by
    refine (p.keeps d md).applied fun bare => ?_
    rw [d.isApplied_eq, bare] at applied
    cases applied
  refine ⟨pinned, counts, fun even d md counted => ?_, fun still m => ?_⟩
  · by_contra left
    have parts := count_uses counts d.source
    have used : d.source ∈ uses w fun d => H d.id && !d.isApplied := by
      refine List.mem_flatMap.mpr ⟨d, List.mem_filter.mpr ⟨md, ?_⟩, List.mem_cons_self⟩
      simp [counted, Bool.eq_false_iff.mpr left]
    have some := List.count_pos_iff.mpr used
    have pins := pinned d.source
    have applied := even d.source
    omega
  · have same : w.detours.filter (fun d => H d.id) = w.detours.filter MethodDetour.isApplied :=
      List.filter_congr fun d md => Bool.eq_iff_iff.mpr ⟨still d md, counts d md⟩
    rw [pinned m, uses, uses, same]

/-! ## Pins that stay -/

/-- A page of `nop`, and a runtime that knows two functions in it and has them pinned. -/
def page : World where
  machine := { arena := { source :=
    { memory := (({} : Memory).map 4096 .readExecute none).fill 4096 128 0x90, next := 8192 } } }
  platform :=
    { architecture := {}, system := {}, runtimeKind := .unknown, runtimeFlags := RuntimeFlag.pinning,
      settings := {}, convention := .systemV }
  runtime :=
    { methods := [{ token := 1, entry := 4096 }, { token := 2, entry := 4160 }],
      subscribers := [0] }
  factories := [0]

/-- The first function is detoured to the second, -/
def held : World := ((createDetour 0 (.token 1) (.token 2) true).on page).2

/-- its fresh code is where nothing is mapped, -/
def stranded : World := ((deliver ⟨.token 1, 65536, 32⟩).on held).2

/-- or else its code is unmapped before the detour is undone. -/
def bared : World := { held with machine := { arena := { source := { memory := {}, next := 8192 } } } }

def unrestored : World := ((undoDetour 0).on bared).2

/-- The detours that count after each of these. -/
def counted : Nat → Bool := held.recount fun _ => false

theorem held_run : Run held counted :=
  .step (.start rfl (fun _ => rfl) (by decide)) (.create 0 (.token 1) (.token 2) true)

theorem stranded_run : Run stranded (stranded.recount fun id => counted id && !false) :=
  .step held_run (.notice _)

theorem unrestored_run : Run unrestored
    (unrestored.recount fun id => (bared.recount fun id => counted id && !false) id && !false) := by
  refine .step (.step held_run (.others ⟨rfl, rfl, rfl, rfl⟩)) ?_
  rcases undo : (undoDetour 0).on bared with ⟨_ | _, w'⟩
  · rw [show unrestored = w' from congrArg Prod.snd undo]
    exact .notUndone 0 undo
  · have failed : ((undoDetour 0).on bared).1.isOk = false := by decide +kernel
    rw [undo] at failed
    cases failed

/-- The detour could not follow its source. It is not applied, and its methods stay pinned. -/
theorem a_stranded_detour_keeps_its_methods_pinned : ∃ H, Run stranded H ∧
    stranded.pinned (.token 1) = 1 ∧ ¬ ∀ d ∈ stranded.detours, H d.id = true → d.isApplied = true := by
  obtain ⟨pinned, _, _⟩ := a_method_is_pinned_until_its_detours_are_undone stranded_run
  refine ⟨_, stranded_run, (pinned (.token 1)).trans ?_, ?_⟩
  · have once : (uses stranded fun d => stranded.recount (fun id => counted id && !false) d.id).count
        (.token 1) = 1 := by decide +kernel
    rw [once]
    rfl
  · decide +kernel

/-- After a move that failed, and after an undo that failed, methods are pinned that no applied detour
has to do with. -/
theorem methods_stay_pinned_without_an_applied_detour :
    (¬ ∀ w H, Run w H → ∀ m, w.pinned m = (uses w MethodDetour.isApplied).count m) ∧
      (stranded.pinned (.token 1) = 1 ∧ stranded.pinned (.token 2) = 1 ∧
        uses stranded MethodDetour.isApplied = []) ∧
      (∃ H, Run unrestored H) ∧ unrestored.pinned (.token 1) = 1 ∧
        unrestored.pinned (.token 2) = 1 ∧ uses unrestored MethodDetour.isApplied = [] := by
  refine ⟨fun even => ?_, by decide +kernel, ⟨_, unrestored_run⟩, by decide +kernel⟩
  have pinned := even stranded _ stranded_run (.token 1)
  have apart : stranded.pinned (.token 1) ≠
      ((uses stranded MethodDetour.isApplied).count (.token 1) : Nat) := by decide +kernel
  exact apart pinned

end Pins

end Detouring
