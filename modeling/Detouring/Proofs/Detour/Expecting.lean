-- A detour that is not at work when the runtime announces fresh code of its source. It moves to the
-- fresh code or gives its jump up, whatever other detours do when they are told, and whoever else is
-- at the place that the notice names.
import Detouring.Proofs.Detour.Tallying
import Detouring.Proofs.Jump.Aiming

namespace Detouring.World

open Op

variable {method : Method} {factory id other start size : Nat} {w w₁ w₂ : World}
  {d d' : MethodDetour} {E : World → Prop}

/-- The detour is one of the method. It is not at work, and what it depends on is as it was. -/
structure Expects (method : Method) (factory id : Nat) (w w' : World) : Prop where
  along : w.Along w'
  managers : w'.managers = w.managers
  record : ∃ d, w'.detour? id = some d ∧ d.source = method ∧ d.factory = factory ∧ d.busy = false

/-- If the detour has a jump, it stands there. -/
def StandsAt (start id : Nat) (w : World) : Prop := ∀ r, w.redirection? id = some r → r.source = start

theorem StandsAt.congr (h : StandsAt start id w) (same : w₁.redirection? id = w.redirection? id) :
    StandsAt start id w₁ := fun r there => h r (same ▸ there)

namespace Expects

theorem refl (found : w.detour? id = some d) (idle : d.busy = false) :
    Expects d.source d.factory id w w :=
  ⟨.refl w, rfl, d, found, rfl, rfl, idle⟩

theorem beside (a : Expects method factory id w w₁) (b : w₁.Beside w₂) :
    Expects method factory id w w₂ := by
  obtain ⟨d, found, rest⟩ := a.record
  exact ⟨a.along.trans b.toAlong, b.managers.trans a.managers, d, (b.detour? id).trans found, rest⟩

/-- One record has changed, but not in what it is a detour of. -/
theorem becomes (a : Expects method factory id w w₁) (b : w₁.Becomes d' w₂)
    (found : w₁.detour? d'.id = some d)
    (same : (d'.source, d'.factory, d'.busy) = (d.source, d.factory, d.busy)) :
    Expects method factory id w w₂ := by
  obtain ⟨x, here, source, rest⟩ := a.record
  refine ⟨a.along.trans b.along, b.managers.trans a.managers, ?_⟩
  by_cases it : id = d'.id
  · subst it
    obtain rfl := Option.some.inj (found.symm.trans here)
    obtain ⟨source', rest'⟩ := Prod.mk.inj same
    obtain ⟨factory', busy'⟩ := Prod.mk.inj rest'
    exact ⟨d', b.detour? found, source'.trans source, factory'.trans rest.1, busy'.trans rest.2⟩
  · exact ⟨x, (b.detour?_of_ne it).trans here, source, rest⟩

end Expects

/-- What one notice to one detour does to the jump of a detour: it stands at the fresh code, or it is
another's and stays. -/
def Obeys (start id other : Nat) (w w' : World) : Prop :=
  StandsAt start id w' ∨ other ≠ id ∧ w'.redirection? id = w.redirection? id

/-- A record that changed is that of the detour in question, or the jump of that detour stays. -/
theorem Obeys.of_becomes (b : w₁.Becomes d' w₂) (found : w₁.detour? d'.id = some d)
    (its : d'.id = other) (there : other = id → ∀ r, d'.redirection = some r → r.source = start) :
    Obeys start id other w₁ w₂ := by
  subst its
  have after := congrFun (b.redirection? found) id
  by_cases it : d'.id = id
  · subst it
    rw [Function.update_self] at after
    exact Or.inl fun r hr => there rfl r (after.symm.trans hr)
  · rw [Function.update_of_ne (Ne.symm it)] at after
    exact Or.inr ⟨it, after⟩

/-- A notice that changes nothing was for another, or there is no jump. -/
theorem Obeys.of_idle (unpatched : other = id → w₁.redirection? id = none) :
    Obeys start id other w₁ w₁ := by
  by_cases it : other = id
  · refine Or.inl fun r hr => ?_
    cases (unpatched it).symm.trans hr
  · exact Or.inr ⟨it, rfl⟩

theorem follow_obeys (a : Expects method factory id w w₁) :
    (follow (fun d => tellWatcher d.watcher) other method start size).Ends w₁
      (fun _ w' => Expects method factory id w w' ∧ Obeys start id other w₁ w')
      (fun w' => Expects method factory id w w' ∧ Obeys start id other w₁ w') := by
  obtain ⟨mine, here, source, _, idle⟩ := a.record
  apply follow_ends
  · intro none
    refine ⟨a, .of_idle fun it => ?_⟩
    subst it
    cases none.symm.trans here
  · intro d found unconcerned
    refine ⟨a, .of_idle fun it => ?_⟩
    subst it
    obtain rfl := Option.some.inj (found.symm.trans here)
    rw [redirection?_of_found here]
    rcases patched : d.redirection with _ | r
    · rfl
    · exact ((unconcerned r patched idle).1 source).elim
  · intro d r found patched free ofSource
    obtain rfl := id_of_detour found
    have creates := Redirection.create_aims w₁.platform.architecture w₁.platform.settings start
      r.target (some size) (r.abandon w₁.machine)
    apply (followSource_tells (R := fun fresh _ => fresh.source = start) found creates
      fun fresh w₂ _ aims => (tellWatcher_beside d.watcher w₂).mono
        (fun _ _ beside => ⟨beside, aims.2.source⟩) fun _ h => h).mono
    · rintro ⟨⟩ w₂ ⟨fresh, becomes, there⟩
      have kept : Expects method factory id w w₂ := a.becomes becomes found (by rw [free]; rfl)
      refine ⟨kept, .of_becomes becomes found rfl fun _ r' hr => ?_⟩
      exact Option.some.inj hr ▸ there
    · rintro w₂ ⟨becomes, _⟩
      exact ⟨a.becomes becomes found rfl, .of_becomes becomes found rfl fun _ _ hr => by cases hr⟩
  · intro d r found _ _ notSource _
    obtain rfl := id_of_detour found
    have away (it : d.id = id) : False := by
      subst it
      obtain rfl := Option.some.inj (found.symm.trans here)
      exact notSource source
    have anything : (r.retarget start).Ends w₁.machine (fun _ _ => True) fun _ => True :=
      Ends.of_left (P := fun _ => True) trivial
    apply (followTarget_becomes anything).mono
    · rintro ⟨⟩ w₂ ⟨_, becomes, _⟩
      exact ⟨a.becomes becomes found rfl, .of_becomes becomes found rfl fun it => (away it).elim⟩
    · rintro w₂ ⟨beside, _⟩
      exact ⟨a.beside beside, Or.inr ⟨away, congrFun beside.redirection? id⟩⟩

theorem followOrReport_obeys (a : Expects method factory id w w₁) :
    (followOrReport method start size other).Ends w₁
      (fun _ w' => Expects method factory id w w' ∧ Obeys start id other w₁ w') E := by
  refine followOrReport_left (follow_obeys a) fun w₂ w₃ ⟨a₂, obeys⟩ quiet => ?_
  have same := congrFun quiet.toBeside.redirection? id
  exact ⟨a₂.beside quiet.toBeside, obeys.imp (·.congr same) fun ⟨away, stays⟩ =>
    ⟨away, same.trans stays⟩⟩

/-- Told of fresh code of its source, a detour is there or nowhere. -/
theorem followOrReport_stands (found : w.detour? id = some d) (idle : d.busy = false)
    (source : d.source = method) :
    (followOrReport method start size id).Ends w (fun _ w' => StandsAt start id w') E := by
  subst source
  exact (followOrReport_obeys (.refl found idle)).mono
    (fun _ _ ⟨_, obeys⟩ => obeys.resolve_right fun ⟨away, _⟩ => away rfl) fun _ h => h

/-- So it is if the notice goes to all who hear of it. -/
theorem deliver_stands {n : CompiledMethod} (found : w.detour? id = some d) (idle : d.busy = false)
    (source : d.source = w.nameOf n.method) (hears : w.Hears d.factory) :
    (deliver n).Ends w
      (fun _ w' => Expects d.source d.factory id w w' ∧ StandsAt n.start id w') E := by
  have known (w₁ : World) (a : Expects d.source d.factory id w w₁) :
      w₁.nameOf n.method = d.source ∧ d.factory ∈ w₁.factories ∧
        id ∈ w₁.related d.factory d.source := by
    obtain ⟨x, here, ofSource, ofFactory, _⟩ := a.record
    have related := mem_related (methods?_of_found here) (Or.inl ofSource.symm)
    exact ⟨(a.along.names _).trans source.symm, a.along.factories ▸ hears.2, ofFactory ▸ related⟩
  refine deliver_reaches (I := Expects d.source d.factory id w) (.refl found idle) hears
    (fun _ j => j.1) (fun w₁ w₂ quiet => ?_) known (fun other w₁ a => ?_)
    (fun other w₁ ⟨a, there⟩ => ?_) fun w₁ a => ?_
  · have same := congrFun quiet.toBeside.redirection? id
    exact ⟨(·.beside quiet.toBeside), fun ⟨a, there⟩ => ⟨a.beside quiet.toBeside, there.congr same⟩⟩
  · exact (followOrReport_obeys a).mono (fun _ _ h => h.1) fun _ h => h
  · refine (followOrReport_obeys a).mono (fun _ w₂ ⟨a₂, obeys⟩ => ⟨a₂, ?_⟩) fun _ h => h
    rcases obeys with moved | ⟨_, same⟩
    · exact moved
    · exact there.congr same
  · exact (followOrReport_obeys a).mono (fun _ _ ⟨a₂, obeys⟩ =>
      ⟨a₂, obeys.resolve_right fun ⟨away, _⟩ => away rfl⟩) fun _ h => h

end Detouring.World
