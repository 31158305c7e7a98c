-- Which methods detours keep in place. A detour that counts keeps its source and its target, and
-- every other detour keeps nothing. Notices about fresh code move detours and give them up, but what
-- they keep stays as it is.
import Detouring.Proofs.Detour.Aloof
import Detouring.Proofs.Detour.Attempting
import Detouring.Proofs.Detour.Following

namespace Detouring

open Op

variable {H H' : Nat → Bool} {d d' : MethodDetour} {r : Redirection} {w w' w'' w₀ : World}
  {id : Nat} {E : World → Prop}

namespace MethodDetour

/-- The methods that a detour has to do with: its source and its target. -/
def methods (d : MethodDetour) : List Method := [d.source, d.target]

/-- A detour keeps both its methods if it counts, and none if not. While it is applied it counts. -/
structure Keeps (H : Nat → Bool) (d : MethodDetour) : Prop where
  pins : d.pins = if H d.id then d.methods else []
  applied : d.redirection ≠ none → H d.id = true

theorem Keeps.congr (k : d.Keeps H) (id : d'.id = d.id) (methods : d'.methods = d.methods)
    (pins : d'.pins = d.pins) (applied : d'.redirection ≠ none → H d.id = true) : d'.Keeps H := by
  refine ⟨?_, fun patched => id ▸ applied patched⟩
  rw [pins, k.pins, id, methods]

end MethodDetour

namespace World

/-! ## Records -/

/-- How often detours keep the method in place. -/
def kept (w : World) (m : Method) : Nat := (w.detours.flatMap MethodDetour.pins).count m

/-- Each detour that counts keeps its methods. Numbers of detours that have yet to be made do not
count. -/
structure Filed (H : Nat → Bool) (w : World) : Prop extends Numbered w where
  required : w.asks RuntimeFlag.pinning = true
  below : ∀ id, H id = true → id < w.nextDetour
  keeps : ∀ d ∈ w.detours, d.Keeps H

/-- What one detour keeps, and what the others keep. -/
theorem Numbered.kept_of_mem (n : w.Numbered) (md : d ∈ w.detours) (m : Method) :
    w.kept m = d.pins.count m + (w.without d.id).kept m := by
  have parts := ((perm_without n.ids md).flatMap_right MethodDetour.pins).count_eq m
  rw [List.flatMap_cons, List.count_append] at parts
  exact parts

theorem Beside.kept (b : w.Beside w') : w'.kept = w.kept := by
  funext m
  unfold World.kept
  rw [b.detours]

/-- One record has changed. -/
theorem Becomes.kept (b : w.Becomes d' w') (n : w.Numbered) (found : w.detour? d'.id = some d)
    (m : Method) : w'.kept m + d.pins.count m = w.kept m + d'.pins.count m := by
  have old := n.kept_of_mem (List.mem_of_find?_eq_some found) m
  have new := (n.becomes b found).kept_of_mem (List.mem_of_find?_eq_some (b.detour? found)) m
  have others : (w'.without d'.id).kept m = (w.without d'.id).kept m := by
    have gone := Beside.without b d'.id
    rw [without_put] at gone
    exact congrFun gone.kept m
  rw [id_of_detour found] at old
  omega

namespace Filed

theorem congr (f : w.Filed H) (below : ∀ id, H' id = true → id < w.nextDetour)
    (same : ∀ d ∈ w.detours, H' d.id = H d.id) : w.Filed H' := by
  refine ⟨f.toNumbered, f.required, below, fun d md => ⟨?_, fun patched => ?_⟩⟩
  · rw [(f.keeps d md).pins, same d md]
  · rw [same d md]
    exact (f.keeps d md).applied patched

theorem beside (f : w.Filed H) (b : w.Beside w') : w'.Filed H := by
  refine ⟨f.toNumbered.beside b, ?_, fun id h => b.nextDetour ▸ f.below id h,
    fun d md => f.keeps d (b.detours ▸ md)⟩
  unfold asks
  rw [b.platform]
  exact f.required

/-- One record has changed, and the others count as before. -/
theorem becomes (f : w.Filed H) (b : w.Becomes d' w') (found : w.detour? d'.id = some d)
    (keeps : d'.Keeps H') (others : ∀ id, id ≠ d'.id → H' id = H id) : w'.Filed H' := by
  refine ⟨f.toNumbered.becomes b found, ?_, fun id h => ?_, fun x mx => ?_⟩
  · unfold asks
    rw [b.platform]
    exact f.required
  · rw [b.nextDetour]
    by_cases it : id = d'.id
    · have old := f.numbered d (List.mem_of_find?_eq_some found)
      rw [it]
      rwa [id_of_detour found] at old
    · exact f.below id (others id it ▸ h)
  · have n := f.toNumbered.becomes b found
    have here := n.found_iff.mpr ⟨mx, rfl⟩
    by_cases it : x.id = d'.id
    · rw [it] at here
      obtain rfl := Option.some.inj ((b.detour? found).symm.trans here)
      exact keeps
    · rw [b.detour?_of_ne it] at here
      have old := f.keeps x (List.mem_of_find?_eq_some here)
      refine ⟨?_, fun patched => ?_⟩
      · rw [old.pins, others x.id it]
      · rw [others x.id it]
        exact old.applied patched

theorem loses (f : w.Filed H) (l : w.Loses id w') : w'.Filed H := by
  have sub : (w.without id).detours.Sublist w.detours := List.filter_sublist
  exact beside (w := w.without id)
    ⟨f.toNumbered.without id, f.required, f.below, fun x mx => f.keeps x (sub.subset mx)⟩ l

/-- A new detour keeps nothing. -/
theorem register (f : w.Filed H) (next : d.id = w.nextDetour) (bare : d.redirection = none)
    (nothing : d.pins = []) : (w.register d).Filed H := by
  have new : H d.id = false := by
    rcases counts : H d.id with _ | _
    · rfl
    · have := f.below _ counts
      omega
  refine ⟨f.toNumbered.register next, f.required, fun id h => ?_, fun x mx => ?_⟩
  · have := f.below id h
    show id < d.id + 1
    omega
  · rcases List.mem_append.mp mx with mx | mx
    · exact f.keeps x mx
    · obtain rfl := List.mem_singleton.mp mx
      refine ⟨?_, fun patched => (patched bare).elim⟩
      rw [nothing, new]
      rfl

end Filed

/-! ## Notices -/

/-- The same detours count, and they keep what they kept. -/
structure Retains (H : Nat → Bool) (w w' : World) : Prop where
  filed : w'.Filed H
  kept : w'.kept = w.kept
  methods : w'.methods? = w.methods?

theorem Retains.refl (f : w.Filed H) : Retains H w w := ⟨f, rfl, rfl⟩

theorem Retains.trans (h : Retains H w w') (h' : Retains H w' w'') : Retains H w w'' :=
  ⟨h'.filed, h'.kept.trans h.kept, h'.methods.trans h.methods⟩

/-- Each detour is still there, with its methods and with what it keeps. -/
theorem Retains.record (h : Retains H w w') (f : w.Filed H) (found : w.detour? id = some d) :
    ∃ d', w'.detour? id = some d' ∧ d'.methods = d.methods ∧ d'.pins = d.pins := by
  have names := congrFun h.methods id
  rw [methods?_of_found found] at names
  obtain ⟨d', found', same⟩ := Option.map_eq_some_iff.mp names
  obtain ⟨source, rest⟩ := Prod.mk.inj same
  have methods : d'.methods = d.methods := by
    unfold MethodDetour.methods
    rw [source, (Prod.mk.inj rest).1]
  refine ⟨d', found', methods, ?_⟩
  rw [(h.filed.keeps d' (List.mem_of_find?_eq_some found')).pins,
    (f.keeps d (List.mem_of_find?_eq_some found)).pins, methods, id_of_detour found,
    id_of_detour found']

/-- Detours were told of fresh code. -/
structure Heard (H : Nat → Bool) (w w' : World) : Prop extends Retains H w w' where
  names : ∀ m, w'.nameOf m = w.nameOf m

namespace Heard

theorem refl (f : w.Filed H) : Heard H w w := ⟨.refl f, fun _ => rfl⟩

theorem trans (h : Heard H w w') (h' : Heard H w' w'') : Heard H w w'' :=
  ⟨h.toRetains.trans h'.toRetains, fun m => (h'.names m).trans (h.names m)⟩

theorem beside (h : Heard H w w') (b : w'.Beside w'') : Heard H w w'' :=
  h.trans ⟨⟨h.filed.beside b, b.kept, b.methods?⟩, b.names⟩

/-- A record was rewritten that keeps what it kept. -/
theorem of_becomes (f : w.Filed H) (b : w.Becomes d' w') (found : w.detour? d'.id = some d)
    (names : (d'.source, d'.target, d'.factory) = (d.source, d.target, d.factory))
    (pins : d'.pins = d.pins) (applied : d'.redirection ≠ none → d.redirection ≠ none) :
    Heard H w w' := by
  obtain ⟨source, rest⟩ := Prod.mk.inj names
  have keeps := f.keeps d (List.mem_of_find?_eq_some found)
  have keeps' : d'.Keeps H := by
    refine keeps.congr (id_of_detour found).symm ?_ pins fun patched => keeps.applied (applied patched)
    unfold MethodDetour.methods
    rw [source, (Prod.mk.inj rest).1]
  refine ⟨⟨f.becomes b found keeps' fun _ _ => rfl, funext fun m => ?_,
    b.methods?_of_names found names⟩, b.names⟩
  have counts := b.kept f.toNumbered found m
  rw [pins] at counts
  omega

end Heard

/-- Whoever is told that a detour has moved leaves the detours alone. -/
theorem tellWatcher_beside (watcher : Watcher) (w : World) :
    (tellWatcher watcher).Ends w (fun _ w' => w.Beside w') E := by
  have relinks (key : ChainKey) : (relinkTail key).Ends w (fun _ w' => w.Beside w') w.Beside := by
    have same := (Quiet.refl w).toBeside
    apply Ends.bind
    apply Ends.get
    split
    · exact Ends.pure same
    · split
      · exact Ends.pure same
      · split
        · exact Ends.throw same
        · split
          · exact changeMachine_ends (w.beside_machine _)
          · exact Ends.pure same
  cases watcher with
  | nobody => exact Ends.pure (Quiet.refl w).toBeside
  | onlooker name => exact Ends.change (w.quiet_tell _).toBeside
  | chain key =>
    apply Ends.bind
    apply Ends.outcome
    apply (relinks key).mono
    · exact fun _ _ beside => Ends.pure beside
    · exact fun w₁ beside _ => report_ends fun _ quiet => beside.trans quiet.toBeside

theorem follow_heard {method : Method} {start size : Nat} (f : w.Filed H) :
    (follow (fun d => tellWatcher d.watcher) id method start size).Ends w (fun _ => Heard H w)
      (Heard H w) := by
  have anything {act : Op Machine Redirection} {m : Machine} :
      act.Ends m (fun _ _ => True) fun _ => True := Ends.of_left trivial
  apply follow_ends (fun _ => .refl f) fun _ _ _ => .refl f
  · intro d r found patched _ _
    obtain rfl := id_of_detour found
    have applied : d.redirection ≠ none := by simp [patched]
    apply (followSource_tells (R := fun _ _ => True) found anything fun _ w₁ _ _ =>
      (tellWatcher_beside d.watcher w₁).mono (fun _ _ beside => ⟨beside, trivial⟩) fun _ h => h).mono
    · rintro ⟨⟩ w' ⟨fresh, becomes, _⟩
      exact .of_becomes f becomes found rfl rfl fun _ => applied
    · rintro w' ⟨becomes, _⟩
      exact .of_becomes f becomes found rfl rfl fun _ => applied
  · intro d r found patched _ _ _
    obtain rfl := id_of_detour found
    have turns : (r.retarget start).Ends w.machine (fun _ _ => True) fun _ => True := anything
    apply (followTarget_becomes turns).mono
    · rintro ⟨⟩ w' ⟨r', becomes, _⟩
      exact .of_becomes f becomes found rfl rfl fun _ => by simp [patched]
    · exact fun _ ⟨beside, _⟩ => (Heard.refl f).beside beside

theorem followOrReport_heard {method : Method} {start size : Nat} (f : w.Filed H) :
    (followOrReport method start size id).Ends w (fun _ => Heard H w) E :=
  followOrReport_left (follow_heard f) fun _ _ heard quiet => heard.beside quiet.toBeside

/-- A notice leaves what detours keep, and who is pinned. -/
theorem deliver_heard {n : CompiledMethod} (h : Heard H w₀ w) :
    (deliver n).Ends w (fun _ w' => Heard H w₀ w' ∧ w'.pinned = w.pinned) E := by
  have kept : (deliver n).Ends w (fun _ => Heard H w₀) fun _ => False :=
    deliver_keeps h (fun _ _ quiet h => h.beside quiet.toBeside) (fun w h => h.names n.method)
      fun _ _ h => (followOrReport_heard h.filed).mono (fun _ _ more => h.trans more) fun _ h => h
  apply (kept.and ((aloof_pinned_runtime w).deliver n w ⟨rfl, rfl⟩)).mono
  · exact fun _ _ ⟨heard, pinned, _⟩ => ⟨heard, pinned⟩
  · exact fun _ left => left.1.elim

/-- Whatever compiling a method brings about, detours keep what they kept. -/
theorem lasts_heard (m : Method) (w : World) :
    Lasts m fun w' => Heard H w w' ∧ w'.pinned = w.pinned := by
  refine ⟨fun w₁ w₂ calm ⟨heard, pinned⟩ => ?_, fun _ _ _ _ _ _ _ w₁ ⟨heard, pinned⟩ => ?_⟩
  · exact ⟨heard.beside calm.toBeside, calm.pinned.trans pinned⟩
  · exact (deliver_heard heard).mono (fun _ _ ⟨heard', pinned'⟩ =>
      ⟨heard', pinned'.trans pinned⟩) fun _ h => h

end World

end Detouring
