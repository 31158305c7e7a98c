-- What the callback of a detour may do with the detour. It is called when the jump at the fresh code
-- stands, but the detour counts as being at work until the callback is through. So what is asked of
-- the detour meanwhile is refused, and what it is told of meanwhile is passed over.
import Detouring.Proofs.Detour.Expecting
import Detouring.Proofs.Detour.Tracking
import Detouring.Proofs.Detour.Withdrawing

namespace Detouring

open Op

variable {w w' inside after : World} {d : MethodDetour} {r r' fresh : Redirection}
  {id start size : Nat} {m m' : Machine} {e : Fault} {method : Method} {E : World → Prop}

/-- A detour that has given its redirection up for one at fresh code. -/
def MethodDetour.moved (d : MethodDetour) (r fresh : Redirection) : MethodDetour :=
  (d.withdrawn r).redirected fresh

namespace World

/-! ## Callbacks -/

/-- The detour is not at work any more. -/
def settle (id : Nat) : Op World Unit := updateDetour id ({ · with busy := false })

/-- Where the callback of a detour that has moved is called: the detour is still at work. -/
def calling (d : MethodDetour) (r fresh : Redirection) (m : Machine) (w : World) : World :=
  ({ w with machine := m } : World).put { d.moved r fresh with busy := true }

theorem detour?_calling (found : w.detour? d.id = some d) :
    (calling d r fresh m w).detour? d.id = some { d.moved r fresh with busy := true } := by
  have there : ({ w with machine := m } : World).detour? d.id = some d := found
  exact detour?_put there

theorem on_settle_calling (found : w.detour? d.id = some d) :
    (settle d.id).on (calling d r fresh m w) =
      (.ok (), ({ w with machine := m } : World).put { d.moved r fresh with busy := false }) := by
  refine (on_withDetour (detour?_calling found)).trans ?_
  exact Prod.ext rfl (put_put rfl)

/-- A detour for which there is room at the fresh code moves, and its callback is called. -/
theorem on_followSource {callback : Op World Unit}
    (created : (Redirection.create w.platform.architecture w.platform.settings start r.target
      (some size)).on (r.abandon w.machine) = (.ok fresh, m)) :
    (followSource d r start size callback).on w =
      (callback >>= fun _ => settle d.id).on (calling d r fresh m w) := by
  let given : World := { w with machine := r.abandon w.machine }
  let bare : World := given.put (d.withdrawn r)
  let patched : World := { bare with machine := m }
  have gives : (changeMachine r.abandon).on w = (.ok (), given) := rfl
  have withdraws : (setDetour (d.withdrawn r)).on given = (.ok (), bare) := rfl
  have reads : (get : Op World World).on bare = (.ok bare, bare) := rfl
  have creates : (onMachine (Redirection.create w.platform.architecture w.platform.settings start
      r.target (some size))).on bare = (.ok fresh, patched) := by
    have machine : bare.machine = r.abandon w.machine := rfl
    simp only [onMachine, Op.within, on_of, machine, created]
    rfl
  have moved : (({ w with machine := m } : World).put (d.withdrawn r)).put
      { d.moved r fresh with busy := true } = calling d r fresh m w := put_put rfl
  have moves : (setDetour { d.moved r fresh with busy := true }).on patched =
      (.ok (), calling d r fresh m w) := Prod.ext rfl moved
  unfold followSource
  refine (on_bind_ok gives).trans ?_
  refine (on_bind_ok withdraws).trans ?_
  refine (on_bind_ok reads).trans ?_
  refine (on_bind_ok creates).trans ?_
  exact on_bind_ok moves

/-- Without room at the fresh code, no callback is called. -/
theorem followSource_failed {callback : Op World Unit}
    (failed : (Redirection.create w.platform.architecture w.platform.settings start r.target
      (some size)).on (r.abandon w.machine) = (.error e, m)) :
    ((followSource d r start size callback).on w).1 ≠ .ok () := by
  have ends : (Redirection.create w.platform.architecture w.platform.settings start r.target
      (some size)).Ends (r.abandon w.machine) (fun _ _ => False) fun _ => True :=
    .of_on failed (fun _ ok => by cases ok) fun _ _ => trivial
  have refused : (followSource d r start size callback).Ends w (fun _ _ => False) fun _ => True := by
    apply Ends.bind
    apply changeMachine_ends
    apply Ends.bind
    apply setDetour_ends
    apply Ends.bind
    apply Ends.get
    apply Ends.bind
    apply onMachine_ends
    exact ends.mono (fun _ _ never => never.elim) fun _ _ => trivial
  rcases refused.run with ⟨_, _, never⟩ | ⟨_, error, _⟩
  · exact never.elim
  · rw [error]
    exact fun ok => by cases ok

/-- A detour that is told of fresh code of its source moves there. -/
theorem on_follow_source {relocated : MethodDetour → Op World Unit} (found : w.detour? id = some d)
    (patched : d.redirection = some r) (idle : d.busy = false) :
    (follow relocated id d.source start size).on w =
      (followSource d r start size (relocated d)).on w := by
  unfold follow
  rw [on_withDetour found, if_neg (by simp [MethodDetour.isApplied_eq, patched, idle]), if_pos rfl,
    patched]
  rfl

/-! ## Notices -/

/-- A detour that is at work, or that a method does not concern, passes a notice over. -/
theorem followOrReport_passed (found : w.detour? id = some d)
    (aside : d.busy = true ∨ d.source ≠ method ∧ d.target ≠ method) :
    (followOrReport method start size id).on w = (.ok (), w) := by
  have passes : (follow (fun d => tellWatcher d.watcher) id method start size).on w =
      (.ok (), w) := by
    unfold follow
    rw [on_withDetour found]
    rcases aside with busy | ⟨notSource, notTarget⟩
    · rw [if_pos (by simp [busy])]
      rfl
    · simp only [if_neg notSource, if_neg notTarget, ite_self]
      rfl
  have outcome : (follow (fun d => tellWatcher d.watcher) id method start size).outcome.on w =
      (.ok (.ok ()), w) := by
    simp only [Op.outcome, on_of, passes]
  exact on_bind_ok outcome

/-- Told of fresh code of its target, a detour leads there if it can be turned. -/
theorem followOrReport_target (found : w.detour? id = some d) (patched : d.redirection = some r)
    (idle : d.busy = false) (notSource : d.source ≠ method) (ofTarget : d.target = method)
    (accepted : (r.retarget start).on w.machine = (.ok r', m)) :
    (followOrReport method start size id).Ends w
      (fun _ w' => w'.redirection? id = some r') E := by
  apply followOrReport_left
  · obtain rfl := id_of_detour found
    have turns : (r.retarget start).Ends w.machine (fun r₁ _ => r₁ = r') fun _ => False :=
      .of_on accepted (fun _ ok => (Except.ok.inj ok).symm) fun _ error => by cases error
    apply withDetour_found found
    rw [if_neg (by simp [MethodDetour.isApplied_eq, patched, idle]), if_neg notSource,
      if_pos ofTarget, patched]
    apply (followTarget_becomes turns).mono
    · rintro ⟨⟩ w' ⟨_, becomes, rfl⟩
      exact redirection?_of_found (becomes.detour? found)
    · exact fun _ ⟨_, never⟩ => never.elim
  · exact fun _ _ there quiet => quiet.toBeside.redirection? ▸ there

/-! ## Inside a callback and later -/

/-- It makes no difference whether the callback of a detour carries the operation out or somebody
does once the notice has been delivered: the operation answers the same, and in the end the world
is the same. -/
def Agrees (id : Nat) (inside after : World) (act : Op World Unit) : Prop :=
  (act.on inside).1 = (act.on after).1 ∧ ((settle id).on (act.on inside).2).2 = (act.on after).2

/-- What changes nothing from inside must change nothing later. -/
theorem agrees_iff {act : Op World Unit} (settled : (settle id).on inside = (.ok (), after))
    (passed : (act.on inside).2 = inside) : Agrees id inside after act ↔
      (act.on inside).1 = (act.on after).1 ∧ (act.on after).2 = after := by
  unfold Agrees
  rw [passed, settled]
  exact and_congr_right fun _ => eq_comm

/-- A detour has moved to fresh code. Its callback is called in the one world, and in the other the
notice has been delivered. -/
structure Delivery (d : MethodDetour) (r fresh : Redirection) (start : Nat) (inside after : World) :
    Prop where
  atWork : inside.detour? d.id = some { d.moved r fresh with busy := true }
  atRest : after.detour? d.id = some { d.moved r fresh with busy := false }
  settled : (settle d.id).on inside = (.ok (), after)
  aims : fresh.patch.Aims start r.target

namespace Delivery

variable (h : Delivery d r fresh start inside after)
include h

theorem redirection?_inside : inside.redirection? d.id = some fresh :=
  redirection?_of_found h.atWork

theorem redirection?_after : after.redirection? d.id = some fresh := redirection?_of_found h.atRest

/-- What is passed over in a callback, but changes the jump later, makes a difference. -/
theorem differs {act : Op World Unit} (passed : (act.on inside).2 = inside)
    (changes : (act.on after).2.redirection? d.id ≠ some fresh) :
    ¬ Agrees d.id inside after act := fun agrees => by
  obtain ⟨_, same⟩ := (agrees_iff h.settled passed).mp agrees
  rw [same] at changes
  exact changes h.redirection?_after

theorem apply_agrees (beforePatch : Option Nat → Op World Unit) :
    Agrees d.id inside after (applyDetour d.id beforePatch) := by
  have refused : (applyDetour d.id beforePatch).on inside =
    (.error (.state (.alreadyApplied d.source d.target)), inside) := on_withDetour h.atWork
  have refused' : (applyDetour d.id beforePatch).on after =
    (.error (.state (.alreadyApplied d.source d.target)), after) := on_withDetour h.atRest
  rw [agrees_iff h.settled (congrArg Prod.snd refused), refused, refused']
  exact ⟨rfl, rfl⟩

theorem undo_refused : (undoDetour d.id).on inside =
    (.error (.state (.undoneWhileApplying d.source d.target)), inside) := on_withDetour h.atWork

/-- Later the detour is undone, or it gives its jump up. -/
theorem undo_bare : ((undoDetour d.id).on after).2.redirection? d.id = none := by
  have anything : fresh.undo.Ends after.machine (fun _ _ => True) fun _ => True :=
    Ends.of_left (P := fun _ => True) trivial
  refine left_of_ends (P := fun w' : World => w'.redirection? d.id = none) ?_
  apply (undoDetour_becomes h.atRest rfl rfl anything).mono
  · exact fun _ _ left => redirection?_of_found (left.1.detour? h.atRest)
  · exact fun _ left => redirection?_of_found (left.1.detour? h.atRest)

theorem undo_differs : ¬ Agrees d.id inside after (undoDetour d.id) := by
  refine h.differs (congrArg Prod.snd h.undo_refused) ?_
  rw [h.undo_bare]
  exact nofun

theorem notice_passed (method : Method) (start' size' : Nat) :
    (followOrReport method start' size' d.id).on inside = (.ok (), inside) :=
  followOrReport_passed h.atWork (Or.inl rfl)

theorem notice_agrees {start' size' : Nat} (notSource : d.source ≠ method)
    (notTarget : d.target ≠ method) :
    Agrees d.id inside after (followOrReport method start' size' d.id) := by
  have passed := h.notice_passed method start' size'
  have passed' : (followOrReport method start' size' d.id).on after = (.ok (), after) :=
    followOrReport_passed h.atRest (Or.inr ⟨notSource, notTarget⟩)
  rw [agrees_iff h.settled (congrArg Prod.snd passed), passed, passed']
  exact ⟨rfl, rfl⟩

theorem source_differs {start' size' : Nat} (away : start' ≠ start) :
    ¬ Agrees d.id inside after (followOrReport d.source start' size' d.id) := by
  refine h.differs (congrArg Prod.snd (h.notice_passed ..)) fun stays => away ?_
  have follows : (followOrReport d.source start' size' d.id).Ends after
      (fun _ => StandsAt start' d.id) (StandsAt start' d.id) :=
    followOrReport_stands h.atRest rfl rfl
  exact (left_of_ends follows fresh stays).symm.trans h.aims.source

theorem target_differs {start' size' : Nat} (notSource : d.source ≠ d.target)
    (away : start' ≠ r.target) (accepted : (fresh.retarget start').on after.machine = (.ok r', m)) :
    ¬ Agrees d.id inside after (followOrReport d.target start' size' d.id) := by
  refine h.differs (congrArg Prod.snd (h.notice_passed ..)) fun stays => away ?_
  have turned : (followOrReport d.target start' size' d.id).Ends after
      (fun _ w' => w'.redirection? d.id = some r') fun w' => w'.redirection? d.id = some r' :=
    followOrReport_target h.atRest rfl rfl notSource rfl accepted
  obtain rfl := Option.some.inj ((left_of_ends turned).symm.trans stays)
  have aims := of_accepted (Redirection.retarget_aims h.aims start' _) accepted
  exact aims.target.symm.trans h.aims.target

end Delivery

/-- A notice that moves a detour calls its callback on the way. -/
theorem delivery_of_follow (found : w.detour? id = some d) (patched : d.redirection = some r)
    (idle : d.busy = false)
    (delivered : (follow (fun _ => pure ()) id d.source start size).on w = (.ok (), after)) :
    ∃ inside fresh, Delivery d r fresh start inside after ∧
      ∀ callback, (follow (fun _ => callback) id d.source start size).on w =
        (callback >>= fun _ => settle id).on inside := by
  obtain rfl := id_of_detour found
  rcases created : (Redirection.create w.platform.architecture w.platform.settings start r.target
    (some size)).on (r.abandon w.machine) with ⟨e | fresh, m⟩
  · have run := (on_follow_source found patched idle).symm.trans delivered
    exact (followSource_failed created (congrArg Prod.fst run)).elim
  have calls (callback : Op World Unit) :
      (follow (fun _ => callback) d.id d.source start size).on w =
        (callback >>= fun _ => settle d.id).on (calling d r fresh m w) :=
    (on_follow_source found patched idle).trans (on_followSource created)
  have settled : (settle d.id).on (calling d r fresh m w) = (.ok (), after) :=
    (calls (pure ())).symm.trans delivered
  have there : ({ w with machine := m } : World).detour? d.id = some d := found
  have later : ({ w with machine := m } : World).put { d.moved r fresh with busy := false } = after :=
    congrArg Prod.snd ((on_settle_calling found).symm.trans settled)
  obtain ⟨_, aims⟩ := of_accepted (Redirection.create_aims _ _ _ _ _ _) created
  exact ⟨calling d r fresh m w, fresh,
    ⟨detour?_calling found, later ▸ detour?_put there, settled, aims⟩, calls⟩

/-- A callback of a detour that has moved to fresh code finds the detour at work. To apply it is
refused as it would be later, and notices about other methods do not concern it. But to undo it is
refused, and notices about its own methods are passed over for good; later the detour would have
been undone, and it would have followed. -/
theorem a_callback_finds_its_detour_at_work (found : w.detour? id = some d)
    (patched : d.redirection = some r) (idle : d.busy = false)
    (delivered : (follow (fun _ => pure ()) id d.source start size).on w = (.ok (), after)) :
    ∃ inside fresh,
      (∀ callback, (follow (fun _ => callback) id d.source start size).on w =
        (callback >>= fun _ => settle id).on inside) ∧
      inside.redirection? id = some fresh ∧ fresh.source = start ∧ fresh.target = r.target ∧
      (∀ beforePatch, Agrees id inside after (applyDetour id beforePatch)) ∧
      (undoDetour id).on inside =
        (.error (.state (.undoneWhileApplying d.source d.target)), inside) ∧
      ((undoDetour id).on after).2.redirection? id = none ∧
      ¬ Agrees id inside after (undoDetour id) ∧
      (∀ method start' size', (followOrReport method start' size' id).on inside =
        (.ok (), inside)) ∧
      (∀ method start' size', d.source ≠ method → d.target ≠ method →
        Agrees id inside after (followOrReport method start' size' id)) ∧
      (∀ start' size', start' ≠ start →
        ¬ Agrees id inside after (followOrReport d.source start' size' id)) ∧
      ∀ start' size' r' m, d.source ≠ d.target → start' ≠ r.target →
        (fresh.retarget start').on after.machine = (.ok r', m) →
        ¬ Agrees id inside after (followOrReport d.target start' size' id) := by
  obtain ⟨inside, fresh, h, calls⟩ := delivery_of_follow found patched idle delivered
  obtain rfl := id_of_detour found
  refine ⟨inside, fresh, calls, h.redirection?_inside, h.aims.source, h.aims.target,
    h.apply_agrees, h.undo_refused, h.undo_bare, h.undo_differs, h.notice_passed, ?_, ?_, ?_⟩
  · exact fun _ _ _ notSource notTarget => h.notice_agrees notSource notTarget
  · exact fun _ _ away => h.source_differs away
  · exact fun _ _ _ _ notSource away accepted => h.target_differs notSource away accepted

/-! ## One notice -/

/-- The source of a detour is compiled again, and the callback does nothing. -/
def relocated : World := ((follow (fun _ => pure ()) 0 (.token 1) 4128 32).on detoured).2

/-- The source is compiled once more. -/
def compiledAgain : Op World Unit := followOrReport (.token 1) 4160 32 0

/-- The detour has moved, and its callback can neither undo it nor let it move on. -/
theorem a_callback_finds_a_detour_at_work : ∃ d r, detoured.detour? 0 = some d ∧
    d.redirection = some r ∧ d.busy = false ∧
    (follow (fun _ => pure ()) 0 d.source 4128 32).on detoured = (.ok (), relocated) ∧
    ∃ inside, ¬ Agrees 0 inside relocated (undoDetour 0) ∧
      ¬ Agrees 0 inside relocated compiledAgain := by
  obtain ⟨r, there⟩ := Option.isSome_iff_exists.mp
    (show (detoured.redirection? 0).isSome = true by decide +kernel)
  obtain ⟨d, found, patched⟩ := Option.bind_eq_some_iff.mp there
  have known : (detoured.detour? 0).map (fun d => (d.busy, d.source)) = some (false, .token 1) := by
    decide +kernel
  rw [found] at known
  obtain ⟨idle, source⟩ := Prod.mk.inj (Option.some.inj known)
  have delivered : (follow (fun _ => pure ()) 0 d.source 4128 32).on detoured =
      (.ok (), relocated) := by
    rw [source]
    exact Prod.ext (by decide +kernel) rfl
  obtain ⟨inside, fresh, _, _, _, _, _, _, _, undone, _, _, followed, _⟩ :=
    a_callback_finds_its_detour_at_work found patched idle delivered
  rw [source] at followed
  exact ⟨d, r, found, patched, idle, delivered, inside, undone, followed 4160 32 (by decide)⟩

/-- What a callback does is not what is done right after the notice: an undo is refused, and later
it is not; of two moves of the code the second is missed, and later it is not. -/
theorem a_callback_is_not_heard_by_its_detour :
    ((follow (fun _ => undoDetour 0) 0 (.token 1) 4128 32).on detoured).1 =
      .error (.state (.undoneWhileApplying (.token 1) (.token 2))) ∧
    ((undoDetour 0).on relocated).1 = .ok () ∧
    (relocated.detour? 0).bind MethodDetour.sourceEntry? = some 4128 ∧
    ((follow (fun _ => compiledAgain) 0 (.token 1) 4128 32).on detoured).1 = .ok () ∧
    (((follow (fun _ => compiledAgain) 0 (.token 1) 4128 32).on detoured).2.detour? 0).bind
      MethodDetour.sourceEntry? = some 4128 ∧
    ((compiledAgain.on relocated).2.detour? 0).bind MethodDetour.sourceEntry? = some 4160 := by
  refine ⟨?_, ?_, ?_, ?_, ?_, ?_⟩ <;> decide +kernel

end World

end Detouring
