-- Records of detours. A change of one record leaves the others and everything else as they are.
import Detouring.Detour.Basic
import Detouring.Proofs.Detour.Resolving

namespace Detouring

/-- Two records of one detour, which may be in different states. -/
structure MethodDetour.Alike (d d' : MethodDetour) : Prop where
  id : d'.id = d.id
  source : d'.source = d.source
  target : d'.target = d.target
  factory : d'.factory = d.factory
  watcher : d'.watcher = d.watcher

/-- A detour that is not applied any more keeps its alternate entry, where calls may still run. -/
def MethodDetour.withdrawn (d : MethodDetour) (r : Redirection) : MethodDetour :=
  { d with
    applied := false
    redirection := none
    retired := d.retired ++ r.alternate.toList
    coupled := rfl }

/-- A detour that has a redirection. -/
def MethodDetour.redirected (d : MethodDetour) (r : Redirection) : MethodDetour :=
  { d with applied := true, redirection := some r, coupled := rfl }

/-- The record of a detour that was just made. -/
def MethodDetour.blank (id factory : Nat) (source target : Method) : MethodDetour :=
  { id, factory, source, target }

namespace World

open Op

variable {w w' w'' : World} {d d' : MethodDetour} {id : Nat} {E : World → Prop}

/-! ## Looking records up -/

/-- The world with another record of a detour. -/
def put (d : MethodDetour) (w : World) : World :=
  { w with detours := w.detours.map fun x => if x.id = d.id then d else x }

theorem id_of_detour (h : w.detour? id = some d) : d.id = id := by
  simpa using List.find?_some h

theorem detour?_put (found : w.detour? d.id = some d') : (w.put d).detour? d.id = some d := by
  unfold detour? put at *
  dsimp only
  generalize w.detours = l at found
  induction l with
  | nil => cases found
  | cons x rest ih =>
    by_cases it : x.id = d.id
    · simp [it]
    · have other : (x.id == d.id) = false := by simpa using it
      simp only [List.find?_cons, other] at found
      simp only [List.map_cons, it, if_false, List.find?_cons, other]
      exact ih found

theorem detour?_put_of_ne (other : id ≠ d.id) : (w.put d).detour? id = w.detour? id := by
  unfold detour? put
  dsimp only
  induction w.detours with
  | nil => rfl
  | cons x rest ih =>
    by_cases it : x.id = d.id
    · have this : (d.id == id) = false := by simpa using Ne.symm other
      simp only [List.map_cons, it, if_true, List.find?_cons, this, ih]
    · simp only [List.map_cons, it, if_false, List.find?_cons, ih]

theorem put_put (same : d'.id = d.id) : (w.put d).put d' = w.put d' := by
  unfold put
  simp only [List.map_map]
  congr 1
  refine List.map_congr_left fun x _ => ?_
  by_cases it : x.id = d.id <;> simp [it, same]

theorem Beside.put (b : w.Beside w') (d : MethodDetour) : (w.put d).Beside (w'.put d) := by
  refine { b with detours := ?_ }
  unfold World.put
  dsimp only
  rw [b.detours]

/-! ## One record -/

/-- The detour has this record now. All other records are as they were, and so is what does not
belong to a detour, but for the machine. -/
def Becomes (w : World) (d : MethodDetour) (w' : World) : Prop := (w.put d).Beside w'

namespace Becomes

theorem along (h : w.Becomes d w') : w.Along w' := ⟨h.hooks, h.factories, h.names⟩

theorem beside (h : w.Becomes d w') (b : w'.Beside w'') : w.Becomes d w'' := Beside.trans h b

theorem trans (h : w.Becomes d w') (h' : w'.Becomes d' w'') (same : d'.id = d.id) :
    w.Becomes d' w'' := by
  have put := Beside.put h d'
  rw [put_put same] at put
  exact put.trans h'

theorem detour? (h : w.Becomes d w') (found : w.detour? d.id = some d') :
    w'.detour? d.id = some d :=
  (Beside.detour? h d.id).trans (detour?_put found)

theorem detour?_of_ne (h : w.Becomes d w') (other : id ≠ d.id) : w'.detour? id = w.detour? id :=
  (Beside.detour? h id).trans (detour?_put_of_ne other)

end Becomes

theorem Beside.becomes (b : w.Beside w') (d : MethodDetour) : w.Becomes d (w'.put d) := b.put d

/-! ## Records that come and go -/

/-- The world without a detour. -/
def without (id : Nat) (w : World) : World :=
  { w with detours := w.detours.filter (·.id != id) }

/-- The world with a new detour. -/
def register (d : MethodDetour) (w : World) : World :=
  { w with detours := w.detours ++ [d], nextDetour := d.id + 1 }

theorem without_put (w : World) (d : MethodDetour) :
    (w.put d).without d.id = w.without d.id := by
  unfold without put
  dsimp only
  congr 1
  induction w.detours with
  | nil => rfl
  | cons x rest ih =>
    by_cases it : x.id = d.id <;> simp [it, ih]

theorem Beside.without (b : w.Beside w') (id : Nat) : (w.without id).Beside (w'.without id) := by
  refine { b with detours := ?_ }
  unfold World.without
  dsimp only
  rw [b.detours]

/-- The detour is off the books. -/
def Loses (w : World) (id : Nat) (w' : World) : Prop := (w.without id).Beside w'

theorem Becomes.loses (h : w.Becomes d w') (h' : w'.Loses d.id w'') : w.Loses d.id w'' := by
  have gone := Beside.without h d.id
  rw [without_put] at gone
  exact gone.trans h'

/-! ## Rules -/

theorem setDetour_ends {Q : Unit → World → Prop} (h : Q () (w.put d)) :
    (setDetour d).Ends w Q E := Ends.change h

theorem updateDetour_ends {f : MethodDetour → MethodDetour} {Q : Unit → World → Prop}
    (found : w.detour? id = some d) (h : Q () (w.put (f d))) :
    (updateDetour id f).Ends w Q E := by
  apply withDetour_found found
  exact Ends.change h

theorem applyDetour_found {beforePatch : Option Nat → Op World Unit} {Q : Unit → World → Prop}
    (found : w.detour? id = some d) (bare : d.redirection = none) (idle : d.busy = false)
    (h : (do
      setDetour { d with busy := true }
      let outcome ← (establish d beforePatch).outcome
      updateDetour id ({ · with busy := false })
      let (pins, r) ← outcome
      updateDetour id fun d => { d.redirected r with pins }
      Op.change (unpin d.pins) : Op World Unit).Ends w Q E) :
    (applyDetour id beforePatch).Ends w Q E := by
  apply withDetour_found found
  rw [if_neg (by simp [MethodDetour.isApplied_eq, bare]), if_neg (by simp [idle])]
  exact h

/-- A detour that is applied, or at work, is not applied. -/
theorem applyDetour_refused {beforePatch : Option Nat → Op World Unit} {Q : Unit → World → Prop}
    (found : w.detour? id = some d) (h : d.redirection ≠ none ∨ d.busy = true) :
    (applyDetour id beforePatch).Ends w Q (fun w' => w' = w) := by
  by_cases applied : d.isApplied = true
  · apply withDetour_found found
    rw [if_pos applied]
    exact Ends.throw rfl
  · have bare : ¬ d.redirection ≠ none := fun patched =>
      applied (d.isApplied_eq.trans (Option.isSome_iff_ne_none.mpr patched))
    apply withDetour_found found
    rw [if_neg applied, if_pos (h.resolve_left bare)]
    exact Ends.throw rfl

theorem undoDetour_found {r : Redirection} {Q : Unit → World → Prop}
    (found : w.detour? id = some d) (patched : d.redirection = some r) (idle : d.busy = false)
    (h : (do
      withdraw d r
      updateDetour id ({ · with pins := [] })
      Op.change (unpin d.pins) : Op World Unit).Ends w Q E) : (undoDetour id).Ends w Q E := by
  apply withDetour_found found
  rw [if_neg (by simp [MethodDetour.isApplied_eq, patched]), if_neg (by simp [idle]), patched]
  exact h

/-- A detour that is not applied, or that is at work, is not undone. -/
theorem undoDetour_refused {Q : Unit → World → Prop} (found : w.detour? id = some d)
    (h : d.redirection = none ∨ d.busy = true) :
    (undoDetour id).Ends w Q (fun w' => w' = w) := by
  by_cases applied : d.isApplied = true
  · have patched : d.redirection ≠ none :=
      Option.isSome_iff_ne_none.mp (d.isApplied_eq.symm.trans applied)
    apply withDetour_found found
    rw [if_neg (by simp [applied]), if_pos (h.resolve_left patched)]
    exact Ends.throw rfl
  · apply withDetour_found found
    rw [if_pos (by simp [applied])]
    exact Ends.throw rfl

section Making

variable {factory : Nat} {source target : Method} {Q : Nat → World → Prop}

/-- A new detour goes by the names of its methods. Nothing else is done before it is on the books but
to look these up and to ask that the source is not inlined. -/
theorem createDetour_made (refused : ∀ w', w.Mentions w' → E w')
    (made : ∀ w', w.Mentions w' → Q w'.nextDetour
      (w'.register (.blank w'.nextDetour factory (w.nameOf source) (w.nameOf target)))) :
    (createDetour factory source target false).Ends w Q E := by
  apply Ends.bind
  apply (canonicalize_mentions w source).mono _ fun _ h => h
  rintro _ w₁ ⟨rfl, said₁⟩
  apply Ends.bind
  apply (canonicalize_mentions w₁ target).mono _ fun _ h => h
  rintro _ w₂ ⟨rfl, said⟩
  have said₂ := said₁.trans said
  rw [said₁.quiet.names]
  split
  · exact Ends.throw (refused w₂ said₂)
  · apply Ends.bind
    apply (disableInlining_mentions w₂ _).mono _ fun w₃ said => refused w₃ (said₂.trans said)
    intro _ w₃ said₃
    apply Ends.bind
    apply Ends.get
    apply Ends.bind
    apply Ends.change
    apply Ends.pure
    exact made w₃ (said₂.trans said₃)

/-- A detour that is applied when it is made is made and then applied. -/
theorem createDetour_at_once (factory : Nat) (source target : Method) :
    createDetour factory source target true = (do
      let id ← createDetour factory source target false
      (applyDetour id fun _ => pure ()).cleaning fun w => ((dropDetour id).on w).2
      return id) := by
  unfold createDetour
  simp only [bind_assoc]
  refine bind_congr fun source => bind_congr fun target => ?_
  split
  · rfl
  · simp

/-- If a new detour cannot be applied at once, it is dropped. -/
theorem createDetour_rule {apply : Bool} (refused : ∀ w', w.Mentions w' → E w')
    (made : ∀ w', w.Mentions w' → apply = false → Q w'.nextDetour
      (w'.register (.blank w'.nextDetour factory (w.nameOf source) (w.nameOf target))))
    (applied : ∀ w', w.Mentions w' → apply = true →
      (applyDetour w'.nextDetour fun _ => pure ()).Ends
        (w'.register (.blank w'.nextDetour factory (w.nameOf source) (w.nameOf target)))
        (fun _ => Q w'.nextDetour) fun w₁ => E ((dropDetour w'.nextDetour).on w₁).2) :
    (createDetour factory source target apply).Ends w Q E := by
  cases apply with
  | false => exact createDetour_made refused fun w' said => made w' said rfl
  | true =>
    rw [createDetour_at_once]
    apply Ends.bind
    apply createDetour_made refused
    intro w' said
    apply Ends.bind
    apply Ends.cleaning
    exact (applied w' said rfl).mono (fun _ _ q => Ends.pure q) fun _ e => e

end Making

theorem resolve_function (w : World) (a : Nat) :
    (resolve (.function a)).Ends w (fun body w' => body = a ∧ w' = w) E :=
  Ends.pure ⟨rfl, rfl⟩

end World

end Detouring
