-- Where a native detour leads, by the calls that it accepted. Every accepted call points it where it
-- was asked to. Applying refuses to lead code to itself; pointing a detour that is applied back at its
-- own source is never refused for that.
import Detouring.Proofs.Jump.Redirecting
import Detouring.Proofs.Jump.Retargeting

namespace Detouring

open Op

variable {m m' : Machine} {p p' : JumpPatch} {j : Jump} {source target : Nat}
  {room limit : Option Nat}

/-! ## Jumps -/

namespace Jump

/-- A jump that was chosen goes from the source to the target, and these differ. -/
theorem choose_apart (source target : Nat) (room : Option Nat) (m : Machine) :
    (choose source target room).Ends m
      (fun j _ => source ≠ target ∧ j.source = source ∧ j.target = target) (fun _ => True) := by
  apply choose_rule
  · exact fun _ => trivial
  · exact fun apart _ _ _ => ⟨apart, rfl, rfl⟩
  · exact fun apart _ => (Ends.of_left (P := fun _ => True) trivial).mono
      (fun _ _ _ => ⟨apart, rfl, rfl⟩) fun _ _ _ _ => ⟨apart, rfl, rfl⟩
  · exact fun apart _ _ _ => ⟨apart, rfl, rfl⟩

/-- Code is always near enough to itself. -/
theorem reaches_itself (source : Nat) : reaches source JumpForm.relative.size source = true := by
  unfold reaches displacement fitsSigned32 JumpForm.size
  simp

end Jump

/-- A patch gives back as many bytes as were asked for, if it wrote so many. -/
theorem Memory.length_replaced {memory memory' : Memory} {kind : PatchKind}
    {data replaced : List UInt8} {backup : Nat}
    (h : memory.patch kind source data backup = (.ok replaced, memory')) :
    replaced.length = min backup data.length := by
  unfold Memory.patch at h
  dsimp only at h
  split at h
  · cases h
  · split at h
    · cases h
    · split at h
      · cases h
      · obtain rfl := Except.ok.inj (Prod.mk.inj h).1
        exact Memory.length_peek _ _ _

/-- A jump that was placed covers as many bytes as it has. -/
theorem Jump.place_covers (j : Jump) (m : Machine) :
    j.place.Ends m (fun covered _ => covered.length = j.size) (fun _ => True) := by
  refine Ends.of_on (Jump.on_place j m) (fun covered ok => ?_) fun _ _ => trivial
  rcases encoded : j.bytes with e | bytes <;> rw [encoded] at ok
  · cases ok
  · dsimp only at ok
    rw [Jump.on_patchCode] at ok
    rw [Memory.length_replaced (Prod.ext ok rfl), Nat.min_self, Jump.length_bytes encoded]

/-! ## Patches -/

namespace JumpPatch

/-- The patch is in force from `source` to `target`, and all that its jump covers is saved. -/
structure Aims (p : JumpPatch) (source target : Nat) : Prop where
  applied : p.applied = true
  source : p.jump.source = source
  target : p.jump.target = target
  saved : p.jump.size ≤ p.backup.length

theorem Aims.here (aims : p.Aims source target) : p.Aims p.jump.source target :=
  ⟨aims.applied, rfl, aims.target, aims.saved⟩

theorem write_aims (j : Jump) (m : Machine) :
    (write j).Ends m (fun p _ => p.Aims j.source j.target) (fun _ => True) := by
  apply placed_rule (Jump.on_write j m)
  apply (Jump.place_covers j m).mono _ fun _ h => h
  intro covered _ length
  exact ⟨rfl, rfl, rfl, length.ge⟩

theorem apply_aims (source target : Nat) (room : Option Nat) (m : Machine) :
    (apply source target room).Ends m (fun p _ => source ≠ target ∧ p.Aims source target)
      (fun _ => True) := by
  unfold apply
  apply Ends.bind
  apply (Jump.choose_apart source target room m).mono _ fun _ h => h
  rintro j m₁ ⟨apart, rfl, rfl⟩
  apply (write_aims j m₁).mono _ fun _ h => h
  intro p _ aims
  exact ⟨apart, aims⟩

/-- A longer jump saves the bytes that it covers in addition. -/
theorem overwrite_aims (applied : p.applied = true) (j : Jump) (limit : Option Nat) (m : Machine) :
    (p.overwrite j limit).Ends m (fun p' _ => p'.Aims j.source j.target) (fun _ => True) := by
  apply overwrite_rule fun _ => trivial
  intro _
  apply (Jump.place_covers j m).mono _ fun _ h => h
  intro covered _ length
  refine ⟨applied, rfl, rfl, ?_⟩
  show j.size ≤ (p.backup ++ covered.drop p.backup.length).length
  rw [List.length_append, List.length_drop, length]
  omega

/-- An accepted call points the patch where it was asked to. -/
theorem retarget_aims {old : Nat} (aims : p.Aims source old) (target : Nat) (limit : Option Nat)
    (m : Machine) : (p.retarget target limit).Ends m (fun p' _ => p'.Aims source target)
      (fun _ => True) := by
  obtain ⟨applied, rfl, _, saved⟩ := aims
  apply retarget_rule fun gone => (gone applied).elim
  · exact fun _ _ => ⟨applied, rfl, rfl, saved⟩
  · exact fun _ _ => overwrite_aims applied _ limit m
  · intro _ _
    apply (Jump.choose_apart p.jump.source target limit m).mono _ fun _ h => h
    rintro j m₁ ⟨_, here, rfl⟩
    exact here ▸ overwrite_aims applied j limit m₁

/-- A jump without a pointer cell is written over itself with its own source for a target. -/
theorem overwrite_itself (bare : p.jump.cell? = none) (room : Jump.fits limit p.jump.size = true)
    (regular : m.memory.Regular)
    (mapped : ∀ i < p.jump.size, m.memory.isMapped (p.jump.source + i) = true)
    (encoded : ∃ bytes, Jump.bytes { p.jump with target := p.jump.source } = .ok bytes) :
    ∃ p' m', (p.overwrite { p.jump with target := p.jump.source } limit).on m = (.ok p', m') := by
  obtain ⟨bytes, encoded⟩ := encoded
  obtain ⟨memory, placed, _⟩ := Jump.place_ok (j := { p.jump with target := p.jump.source }) regular
    encoded mapped fun c here => by cases bare.symm.trans here
  have run := Jump.on_overwrite p { p.jump with target := p.jump.source } limit m room
  rw [placed] at run
  exact ⟨_, _, run⟩

/-- Pointing a patch back at its own source is accepted wherever the code under it is mapped. -/
theorem retarget_to_source (applied : p.applied = true) (room : Jump.fits limit p.jump.size = true)
    (regular : m.memory.Regular)
    (mapped : ∀ i < p.jump.size, m.memory.isMapped (p.jump.source + i) = true) :
    ∃ p' m', (p.retarget p.jump.source limit).on m = (.ok p', m') := by
  obtain ⟨⟨source, old, form⟩, backup, applied⟩ := p
  unfold retarget
  rw [if_pos applied]
  cases form with
  | relative =>
    have near := Jump.reaches_itself source
    have redirected : Jump.redirect ⟨source, old, .relative⟩ source limit =
        pure (.overwritten ⟨source, source, .relative⟩) := if_pos near
    rw [redirected]
    exact overwrite_itself rfl room regular mapped ⟨_, if_pos near⟩
  | throughCell cell => exact ⟨_, _, rfl⟩
  | absolute => exact overwrite_itself rfl room regular mapped ⟨_, rfl⟩

end JumpPatch

/-! ## Redirections -/

namespace Redirection

/-- A plan is one for the jump that was asked for. -/
theorem make_apart (a : Architecture) (settings : Settings) (source target : Nat)
    (room : Option Nat) (m : Machine) :
    (RedirectionPlan.make a settings source target room).Ends m
      (fun plan _ => source ≠ target ∧ plan.jump.source = source ∧ plan.jump.target = target)
      (fun _ => True) := by
  apply Ends.bind
  apply (Jump.choose_apart source target room m).mono _ fun _ h => h
  intro j m₁ chosen
  apply Ends.bind
  apply (Ends.of_left (P := fun _ => True) trivial).mono _ fun _ h => h
  exact fun alternate m₂ _ => Ends.pure chosen

theorem ofPlan_aims (plan : RedirectionPlan) (m : Machine) :
    (ofPlan plan).Ends m (fun r _ => r.patch.Aims plan.jump.source plan.jump.target)
      (fun _ => True) := by
  apply Ends.cleaning
  apply Ends.bind
  apply (JumpPatch.write_aims plan.jump m).mono _ fun _ h => h
  exact fun p _ aims => Ends.pure aims

theorem create_aims (a : Architecture) (settings : Settings) (source target : Nat)
    (room : Option Nat) (m : Machine) :
    (create a settings source target room).Ends m
      (fun r _ => source ≠ target ∧ r.patch.Aims source target) (fun _ => True) := by
  apply Ends.bind
  apply (make_apart a settings source target room m).mono _ fun _ h => h
  rintro plan m₁ ⟨apart, rfl, rfl⟩
  exact (ofPlan_aims plan m₁).mono (fun _ _ aims => ⟨apart, aims⟩) fun _ h => h

theorem retarget_aims {r : Redirection} {source old : Nat}
    (aims : r.patch.Aims source old) (target : Nat) (m : Machine) :
    (r.retarget target).Ends m (fun r' _ => r'.patch.Aims source target) (fun _ => True) := by
  apply Ends.bind
  apply (JumpPatch.retarget_aims aims target _ m).mono _ fun _ h => h
  intro p _ aims'
  exact Ends.pure aims'

end Redirection

/-! ## Detours -/

/-- A detour of code: a jump alone, or one with an alternate entry. -/
inductive NativeDetour where
  | simple (p : JumpPatch)
  | callable (r : Redirection)

namespace NativeDetour

def patch (d : NativeDetour) : JumpPatch :=
  match d with
  | simple p => p
  | callable r => r.patch

/-- The patched address. -/
def start (d : NativeDetour) : Nat := d.patch.jump.source

/-- Where the patch leads. -/
def destination (d : NativeDetour) : Nat := d.patch.jump.target

/-- Points the detour elsewhere. -/
def retarget (d : NativeDetour) (target : Nat) : Op Machine NativeDetour :=
  match d with
  | simple p => simple <$> p.retarget target none
  | callable r => callable <$> r.retarget target

/-- The calls that make a detour or point it elsewhere. -/
inductive Call where
  | apply (target : Nat)
  | retarget (target : Nat)

/-- Where the call asks to be led. -/
def Call.goal (call : Call) : Nat :=
  match call with
  | apply target => target
  | retarget target => target

/-- What comes of calls in any memories, with the call that was accepted last. Between the calls
others may do anything; a call that is refused leaves the detour as it is. -/
inductive Made : NativeDetour → Call → Prop where
  | simple {m m' : Machine} {source target : Nat} {room : Option Nat} {p : JumpPatch}
      (accepted : (JumpPatch.apply source target room).on m = (.ok p, m')) :
      Made (.simple p) (.apply target)
  | callable {m m' : Machine} {a : Architecture} {settings : Settings} {source target : Nat}
      {room : Option Nat} {r : Redirection}
      (accepted : (Redirection.create a settings source target room).on m = (.ok r, m')) :
      Made (.callable r) (.apply target)
  | retargeted {m m' : Machine} {d d' : NativeDetour} {last : Call} {target : Nat}
      (made : Made d last) (accepted : (d.retarget target).on m = (.ok d', m')) :
      Made d' (.retarget target)

variable {d d' : NativeDetour} {last : Call}

/-- The detour goes from where it went before to where it was asked to go. -/
theorem retarget_aims {source old : Nat} (aims : d.patch.Aims source old) (target : Nat)
    (m : Machine) :
    (d.retarget target).Ends m (fun d' _ => d'.patch.Aims source target) (fun _ => True) := by
  cases d with
  | simple p =>
    apply Ends.map
    exact JumpPatch.retarget_aims aims target none m
  | callable r =>
    apply Ends.map
    exact Redirection.retarget_aims aims target m

/-- Every accepted call leaves the detour in force and leading where it was asked to; the source is
the target of no call that applied it. -/
theorem Made.aims (made : Made d last) :
    d.patch.Aims d.start last.goal ∧ last ≠ .apply d.start := by
  induction made with
  | simple accepted =>
    obtain ⟨apart, aims⟩ := of_accepted (JumpPatch.apply_aims _ _ _ _) accepted
    obtain rfl := aims.source
    exact ⟨aims, fun same => apart (Call.apply.inj same).symm⟩
  | callable accepted =>
    obtain ⟨apart, aims⟩ := of_accepted (Redirection.create_aims _ _ _ _ _ _) accepted
    obtain rfl := aims.source
    exact ⟨aims, fun same => apart (Call.apply.inj same).symm⟩
  | retargeted _ accepted ih =>
    have aims := of_accepted (retarget_aims ih.1 _ _) accepted
    exact ⟨aims.here, fun same => by cases same⟩

/-- No jump grows by being pointed back at its own source, so the limit does not count. -/
theorem retarget_to_start (aims : d.patch.Aims d.start d.destination) (regular : m.memory.Regular)
    (mapped : ∀ i < d.patch.jump.size, m.memory.isMapped (d.start + i) = true) :
    ∃ d' m', (d.retarget d.start).on m = (.ok d', m') := by
  cases d with
  | simple p =>
    have room : Jump.fits none p.jump.size = true := rfl
    obtain ⟨p', m', done⟩ :=
      JumpPatch.retarget_to_source (p := p) aims.applied room regular mapped
    exact ⟨.simple p', m', by simp only [retarget, start, patch, on_map, done]⟩
  | callable r =>
    have room : Jump.fits (r.alternate.map fun _ => r.patch.backup.length) r.patch.jump.size = true := by
      have saved : r.patch.jump.size ≤ r.patch.backup.length := aims.saved
      cases r.alternate with
      | none => rfl
      | some _ => simpa [Jump.fits] using saved
    obtain ⟨p', m', done⟩ :=
      JumpPatch.retarget_to_source (p := r.patch) aims.applied room regular mapped
    refine ⟨.callable { r with patch := p' }, m', ?_⟩
    simp only [retarget, start, patch, Redirection.retarget, on_map, on_bind, done, on_pure]

/-- A detour leads to its own source if and only if the last call that was accepted pointed it
there after it had been applied, and wherever the code is mapped such a call is accepted. -/
theorem only_a_retarget_leads_a_detour_to_its_source (made : Made d last) :
    d.destination = last.goal ∧ (d.destination = d.start ↔ last = .retarget d.start) ∧
      ∀ m : Machine, m.memory.Regular →
        (∀ i < d.patch.jump.size, m.memory.isMapped (d.start + i) = true) →
        ∃ d' m', (d.retarget d.start).on m = (.ok d', m') ∧ d'.start = d.start ∧
          d'.destination = d.start := by
  obtain ⟨aims, applied⟩ := made.aims
  have leads : d.destination = last.goal := aims.target
  refine ⟨leads, ⟨fun itself => ?_, fun retargeted => ?_⟩, fun m regular mapped => ?_⟩
  · rw [leads] at itself
    cases last with
    | apply target => exact (applied (congrArg Call.apply itself)).elim
    | retarget target => exact congrArg Call.retarget itself
  · rw [leads, retargeted]
    rfl
  · obtain ⟨d', m', done⟩ := retarget_to_start (leads ▸ aims) regular mapped
    have turned := of_accepted (retarget_aims aims d.start m) done
    exact ⟨d', m', done, turned.source, turned.target⟩

/-! ## One detour -/

/-- A jump from the only page, -/
def leading : NativeDetour := .simple ⟨⟨4096, 8192, .relative⟩, [0, 0, 0, 0, 0], true⟩

/-- and the same jump when it was pointed back. -/
def circling : NativeDetour := .simple ⟨⟨4096, 4096, .relative⟩, [0, 0, 0, 0, 0], true⟩

def onePageLeading : Machine := ((JumpPatch.apply 4096 8192 none).on JumpPatch.onePage).2

def onePageCircling : Machine := ((leading.retarget 4096).on onePageLeading).2

theorem leading_made : Made leading (.apply 8192) :=
  have accepted : (JumpPatch.apply 4096 8192 none).on JumpPatch.onePage =
    (.ok leading.patch, onePageLeading) := Prod.ext rfl rfl
  .simple accepted

theorem circling_made : Made circling (.retarget 4096) :=
  have accepted : (leading.retarget 4096).on onePageLeading = (.ok circling, onePageCircling) :=
    Prod.ext rfl rfl
  .retargeted leading_made accepted

/-- The call that pointed the jump back was accepted, and it is why the jump leads to itself. -/
theorem a_jump_circles_because_it_was_pointed_back :
    Made circling (.retarget 4096) ∧ circling.destination = circling.start :=
  ⟨circling_made, (only_a_retarget_leads_a_detour_to_its_source circling_made).2.1.mpr rfl⟩

/-- Not every sequence of accepted calls keeps a detour from leading to itself: this one leaves a
jump whose next instruction is the jump. -/
theorem a_jump_that_was_pointed_back_never_leaves :
    (¬ ∀ d last, Made d last → d.destination ≠ d.start) ∧
      onePageCircling.memory.jumpDestination? 4096 = some 4096 :=
  ⟨fun never => never circling _ circling_made rfl, by decide +kernel⟩

end NativeDetour

end Detouring
