-- Jumps that are laid over one another. Each detour keeps the bytes that it found and writes them
-- back, so the layers of one place must be taken off from the top. Then, when no detour is applied,
-- the code is as it was before the first one was.
import Detouring.Proofs.Detour.Effects

namespace Detouring

open Op Machine

/-! ## Layers -/

namespace Redirection

/-- What there is when the layers are taken off, the newest first. -/
def uncover (layers : List Redirection) (bytes : Nat → UInt8) : Nat → UInt8 :=
  layers.foldl (fun bytes r => r.patch.beneath bytes) bytes

variable {r r' : Redirection} {layers newer older : List Redirection} {bytes bytes' : Nat → UInt8}

/-- What is beneath a place depends on that place alone. -/
theorem beneath_congr {x : Nat} (same : bytes x = bytes' x) :
    r.patch.beneath bytes x = r.patch.beneath bytes' x := by
  unfold JumpPatch.beneath
  rw [same]

theorem uncover_congr {x : Nat} (same : bytes x = bytes' x) :
    uncover layers bytes x = uncover layers bytes' x := by
  induction layers generalizing bytes bytes' with
  | nil => exact same
  | cons r rest ih => exact ih (beneath_congr same)

/-- Beside its jump, a layer hides nothing. -/
theorem beneath_beside (length : r.patch.backup.length = r.patch.jump.size) {x : Nat}
    (out : x < r.source ∨ r.source + r.patch.jump.size ≤ x) :
    r.patch.beneath bytes x = bytes x := by
  unfold source at out
  unfold JumpPatch.beneath
  split
  · rw [List.getElem?_eq_none (by omega)]
    rfl
  · rfl

theorem beneath_comm (apart : r.Apart r') (length : r.patch.backup.length = r.patch.jump.size)
    (length' : r'.patch.backup.length = r'.patch.jump.size) :
    r.patch.beneath (r'.patch.beneath bytes) = r'.patch.beneath (r.patch.beneath bytes) := by
  funext x
  -- One of the two layers is beside the place.
  have beside : (x < r.source ∨ r.source + r.patch.jump.size ≤ x) ∨
      (x < r'.source ∨ r'.source + r'.patch.jump.size ≤ x) := by
    unfold Apart at apart
    omega
  rcases beside with out | out
  · calc r.patch.beneath (r'.patch.beneath bytes) x
      _ = r'.patch.beneath bytes x := beneath_beside length out
      _ = r'.patch.beneath (r.patch.beneath bytes) x :=
        (beneath_congr (beneath_beside length out)).symm
  · calc r.patch.beneath (r'.patch.beneath bytes) x
      _ = r.patch.beneath bytes x := beneath_congr (beneath_beside length' out)
      _ = r'.patch.beneath (r.patch.beneath bytes) x := (beneath_beside length' out).symm

/-- A layer over which there is no other may be taken off first. -/
theorem uncover_lift (length : r.patch.backup.length = r.patch.jump.size)
    (apart : ∀ r' ∈ newer, r.Apart r' ∧ r'.patch.backup.length = r'.patch.jump.size) :
    uncover (newer ++ r :: older) bytes = uncover (newer ++ older) (r.patch.beneath bytes) := by
  induction newer generalizing bytes with
  | nil => rfl
  | cons top rest ih =>
    obtain ⟨beside, length'⟩ := apart top List.mem_cons_self
    show uncover (rest ++ r :: older) (top.patch.beneath bytes) =
      uncover (rest ++ older) (top.patch.beneath (r.patch.beneath bytes))
    rw [← beneath_comm beside length length']
    exact ih fun r' mr => apart r' (List.mem_cons_of_mem top mr)

end Redirection

/-! ## Runs -/

/-- Something that is done with detours. -/
inductive DetourAct where
  | create (factory : Nat) (source target : Method) (atOnce : Bool)
  | apply (id : Nat)
  | undo (id : Nat)
  | drop (id : Nat)

namespace DetourAct

open World

variable {w : World}

/-- The detour that the act is about. -/
def detour (w : World) : DetourAct → Nat
  | create _ _ _ _ => w.nextDetour
  | apply id | undo id | drop id => id

def carryOut : DetourAct → Op World Unit
  | create factory source target atOnce => do
    let _ ← createDetour factory source target atOnce
  | apply id => applyDetour id fun _ => pure ()
  | undo id => undoDetour id
  | drop id => dropDetour id

/-- The world after an act, whether or not the act failed. -/
def after (a : DetourAct) (w : World) : World := (a.carryOut.on w).2

/-- Finding the bodies of methods moves no detour. -/
def Calm (w : World) : DetourAct → Prop
  | create _ source target atOnce =>
    atOnce = true → w.Still (w.nameOf source) ∧ w.Still (w.nameOf target)
  | apply id => ∀ d, w.detour? id = some d → w.Still d.source ∧ w.Still d.target
  | undo _ | drop _ => True

/-- Each act does at most one thing to code, whether or not it fails. -/
theorem effect (o : w.Orderly) (a : DetourAct) (calm : a.Calm w)
    (lands : Lands (a.detour w) w (a.after w)) : Effect (a.detour w) w (a.after w) := by
  cases a with
  | create factory source target atOnce =>
    refine left_of_ends (P := fun w' => Lands _ w w' → Effect _ w w') ?_ lands
    apply Ends.bind
    apply (createDetour_effect o factory source target atOnce calm).mono
    · exact fun _ _ done => Ends.pure done
    · exact fun _ left _ => left.effect
  | apply id =>
    refine left_of_ends (P := fun w' => Lands _ w w' → Effect _ w w') ?_ lands
    exact (applyDetour_effect o calm).mono (fun _ _ done => done) fun _ left _ => left.effect
  | undo id =>
    have done : (undoDetour id).Ends w (fun _ => Effect id w) (Effect id w) :=
      (undoDetour_effect o id).mono (fun _ _ h => h) fun _ left => left.effect
    exact left_of_ends done
  | drop id => exact left_of_ends (dropDetour_effect o id)

end DetourAct

namespace Layers

open World

variable {w w' w₀ : World} {stack : List Nat} {id : Nat} {r : Redirection}

/-- The detours that are applied, the one that was applied last in front. -/
def restack (id : Nat) (w' : World) (stack : List Nat) : List Nat :=
  if (w'.redirection? id).isSome then stack.insert id else stack.erase id

/-- No jump that was laid later lies over that of the detour. -/
def OnTop (w : World) (stack : List Nat) (id : Nat) : Prop :=
  ∀ newer older, stack = newer ++ id :: older → ∀ r, w.redirection? id = some r →
    ∀ other ∈ newer, ∀ r', w.redirection? other = some r' → r.Apart r'

theorem onTop_of_new (new : id ∉ stack) : OnTop w stack id := fun _ _ parts =>
  (new (parts ▸ List.mem_append_right _ List.mem_cons_self)).elim

theorem onTop_head (once : id ∉ stack) : OnTop w (id :: stack) id := by
  intro newer older parts r _ other mo
  cases newer with
  | nil => cases mo
  | cons top rest =>
    obtain ⟨rfl, rfl⟩ := List.cons.inj parts
    exact (once (List.mem_append_right _ List.mem_cons_self)).elim

/-- A jump is written over foreign code, and is taken off only from the top. -/
structure Allowed (w : World) (stack : List Nat) (a : DetourAct) : Prop where
  calm : a.Calm w
  lands : Lands (a.detour w) w (a.after w)
  onTop : (a.after w).redirection? (a.detour w) = none → OnTop w stack (a.detour w)

/-- What acts come to, with the detours that are applied. -/
inductive Run : World → World → List Nat → Prop where
  | start {w : World} (orderly : w.Orderly) (bare : ∀ d ∈ w.detours, d.isApplied = false) :
      Run w w []
  | act {w₀ w : World} {stack : List Nat} (run : Run w₀ w stack) (a : DetourAct)
      (allowed : Allowed w stack a) :
      Run w₀ (a.after w) (restack (a.detour w) (a.after w) stack)

/-- Without its layers, the code is as it was. -/
structure Layered (w₀ w : World) (stack : List Nat) : Prop where
  orderly : w.Orderly
  once : stack.Nodup
  applied : ∀ id, id ∈ stack ↔ (w.redirection? id).isSome
  foreign : ∀ x, w₀.machine.Foreign x → w.machine.Foreign x
  whole : ∀ x, w₀.machine.Foreign x →
    Redirection.uncover (stack.filterMap w.redirection?) w.machine.memory.bytes x =
      w₀.machine.memory.bytes x

theorem filterMap_update {f : Nat → Option Redirection} (new : id ∉ stack)
    (v : Option Redirection) : stack.filterMap (Function.update f id v) = stack.filterMap f := by
  refine List.filterMap_congr fun other mo => ?_
  have it : other ≠ id := fun same => new (same ▸ mo)
  exact Function.update_of_ne it v f

namespace Layered

/-- Nothing was done. -/
theorem leaves (l : Layered w₀ w stack) (orderly : w'.Orderly)
    (foreign : ∀ x, w.machine.Foreign x → w'.machine.Foreign x)
    (same : w'.redirection? = w.redirection?)
    (code : ∀ x, w.machine.Foreign x → w'.machine.memory.bytes x = w.machine.memory.bytes x) :
    Layered w₀ w' (restack id w' stack) := by
  have stays : restack id w' stack = stack := by
    unfold restack
    rw [same]
    split
    · exact List.insert_of_mem ((l.applied id).mpr ‹_›)
    · exact List.erase_of_not_mem fun mid => ‹¬_› ((l.applied id).mp mid)
  rw [stays]
  refine ⟨orderly, l.once, fun id => ?_, fun x f => foreign x (l.foreign x f), fun x f => ?_⟩
  · rw [same]
    exact l.applied id
  · rw [same, Redirection.uncover_congr (code x (l.foreign x f))]
    exact l.whole x f

/-- A layer was put on top. -/
theorem laid (l : Layered w₀ w stack) (orderly : w'.Orderly)
    (foreign : ∀ x, w.machine.Foreign x → w'.machine.Foreign x)
    (before : w.redirection? id = none)
    (after : w'.redirection? = Function.update w.redirection? id (some r))
    (covers : r.patch.Covers w.machine w'.machine) : Layered w₀ w' (restack id w' stack) := by
  have new : id ∉ stack := fun mid => by
    have applied := (l.applied id).mp mid
    rw [before] at applied
    cases applied
  have here : w'.redirection? id = some r := after ▸ Function.update_self ..
  have grown : restack id w' stack = id :: stack := by
    unfold restack
    rw [here, if_pos Option.isSome_some]
    exact List.insert_of_not_mem new
  rw [grown]
  refine ⟨orderly, List.nodup_cons.mpr ⟨new, l.once⟩, fun other => ?_,
    fun x f => foreign x (l.foreign x f), fun x f => ?_⟩
  · rw [List.mem_cons, l.applied, after]
    by_cases it : other = id
    · simp [it]
    · simp [it]
  · have layers : (id :: stack).filterMap w'.redirection? =
        r :: stack.filterMap w.redirection? := by
      rw [List.filterMap_cons_some here, after, filterMap_update new]
    rw [layers]
    exact (Redirection.uncover_congr (covers.beneath (l.foreign x f))).trans (l.whole x f)

/-- A layer on which no other lies was taken off. -/
theorem lifted (l : Layered w₀ w stack) (orderly : w'.Orderly)
    (foreign : ∀ x, w.machine.Foreign x → w'.machine.Foreign x)
    (before : w.redirection? id = some r)
    (after : w'.redirection? = Function.update w.redirection? id none)
    (code : ∀ x, w.machine.Foreign x →
      w'.machine.memory.bytes x = r.patch.beneath w.machine.memory.bytes x)
    (onTop : OnTop w stack id) : Layered w₀ w' (restack id w' stack) := by
  have mid : id ∈ stack := (l.applied id).mpr (by rw [before]; rfl)
  have gone : w'.redirection? id = none := after ▸ Function.update_self ..
  obtain ⟨newer, older, rfl⟩ := List.append_of_mem mid
  obtain ⟨others, once⟩ := List.nodup_cons.mp (List.nodup_middle.mp l.once)
  have shrunk : restack id w' (newer ++ id :: older) = newer ++ older := by
    unfold restack
    rw [gone, if_neg (by simp)]
    rw [List.erase_append_right _ fun m => others (List.mem_append_left _ m), List.erase_cons_head]
  rw [shrunk]
  have length {other : Nat} {r' : Redirection} (h : w.redirection? other = some r') :
      r'.patch.backup.length = r'.patch.jump.size := by
    obtain ⟨d, md, _, patched⟩ := l.orderly.exists_of_redirection h
    exact ((l.orderly.settled d md).laid r' patched).backup
  refine ⟨orderly, once, fun other => ?_, fun x f => foreign x (l.foreign x f), fun x f => ?_⟩
  · rw [after]
    by_cases it : other = id
    · subst it
      simpa using others
    · rw [Function.update_of_ne it, ← l.applied]
      simp [it]
  · have layers : (newer ++ id :: older).filterMap w.redirection? =
        newer.filterMap w.redirection? ++ r :: older.filterMap w.redirection? := by
      rw [List.filterMap_append, List.filterMap_cons_some before]
    have whole := l.whole x f
    rw [layers, Redirection.uncover_lift (length before) fun r' mr => ?_] at whole
    · rw [after, filterMap_update others, List.filterMap_append,
        Redirection.uncover_congr (code x (l.foreign x f))]
      exact whole
    · obtain ⟨other, mo, there⟩ := List.mem_filterMap.mp mr
      exact ⟨onTop newer older rfl r before other mo r' there, length there⟩

theorem act (l : Layered w₀ w stack) {a : DetourAct} (allowed : Allowed w stack a) :
    Layered w₀ (a.after w) (restack (a.detour w) (a.after w) stack) := by
  obtain ⟨orderly, foreign, change⟩ := a.effect l.orderly allowed.calm allowed.lands
  rcases change with ⟨same, code⟩ | ⟨r, before, after, covers⟩ | ⟨r, before, after, code⟩
  · exact l.leaves orderly foreign same code
  · exact l.laid orderly foreign before after covers
  · exact l.lifted orderly foreign before after code
      (allowed.onTop (after ▸ Function.update_self ..))

end Layered

theorem Run.layered (run : Run w₀ w stack) : Layered w₀ w stack := by
  induction run with
  | start orderly bare =>
    refine ⟨orderly, List.nodup_nil, fun id => ?_, fun _ f => f, fun _ _ => rfl⟩
    refine ⟨fun mid => (by cases mid), fun applied => ?_⟩
    obtain ⟨r, hr⟩ := Option.isSome_iff_exists.mp applied
    obtain ⟨d, md, _, patched⟩ := orderly.exists_of_redirection hr
    have bare := bare d md
    simp [MethodDetour.isApplied_eq, patched] at bare
  | act _ a allowed ih => exact ih.act allowed

/-- If each jump is taken off before those that it lies over, then whenever no detour is applied,
all code of others is as it was before the first was applied. -/
theorem the_code_is_whole_again (run : Run w₀ w stack) (bare : ∀ d ∈ w.detours, d.isApplied = false)
    {x : Nat} (foreign : w₀.machine.Foreign x) :
    w.machine.memory.bytes x = w₀.machine.memory.bytes x := by
  have l := run.layered
  have nothing : stack = [] := by
    refine List.eq_nil_iff_forall_not_mem.mpr fun id mid => ?_
    obtain ⟨r, hr⟩ := Option.isSome_iff_exists.mp ((l.applied id).mp mid)
    obtain ⟨d, md, _, patched⟩ := l.orderly.exists_of_redirection hr
    have bare := bare d md
    simp [MethodDetour.isApplied_eq, patched] at bare
  have whole := l.whole x foreign
  rw [nothing] at whole
  exact whole

/-! ## Two layers -/

/-- A page with a function of `nop`. -/
def page : World where
  machine := { arena := { source :=
    { memory := (({} : Memory).map 4096 .readExecute none).fill 4096 64 0x90, next := 8192 } } }
  platform :=
    { architecture := {}, system := {}, runtimeKind := .native, runtimeFlags := 0, settings := {},
      convention := .systemV }
  runtime := {}

/-- The function is detoured, -/
def lower : World := (DetourAct.create 0 (.function 4096) (.function 4200) true).after page

/-- and detoured once more. -/
def upper : World := (DetourAct.create 0 (.function 4096) (.function 4300) true).after lower

/-- Taken off from the top, -/
def lifted : World := (DetourAct.undo 0).after ((DetourAct.undo 1).after upper)

/-- and from below. -/
def tangled : World := (DetourAct.undo 1).after ((DetourAct.undo 0).after upper)

/-- The two detours of one function are undone in the opposite order, and the function is whole. -/
theorem the_code_is_whole_after_two_layers : ∃ stack, Run page lifted stack ∧
    (∀ d ∈ lifted.detours, d.isApplied = false) ∧
    upper.machine.memory.bytes 4096 ≠ page.machine.memory.bytes 4096 ∧
    lifted.machine.memory.bytes 4096 = page.machine.memory.bytes 4096 := by
  have regular : page.machine.memory.Regular := ⟨by decide, by decide⟩
  have orderly : page.Orderly := by
    refine ⟨List.nodup_nil, fun _ md => (by cases md), ⟨List.nodup_nil, ∅, ?_, ?_⟩,
      fun _ md => (by cases md)⟩
    · exact .fresh rfl regular (by decide)
    · exact fun _ mb => (by cases mb)
  have foreign (i : Nat) (hi : i < 5) : page.machine.Foreign (4096 + i) :=
    foreign_of_page (by decide) (by decide : 4096 ∈ _) (fun p mp => (by cases mp)) (by omega)
      (by unfold pageSize; omega)
  have lands {w w' : World} {id : Nat} {stack : List Nat} (run : Run page w stack)
      (written : (w'.redirection? id).map (fun r => (r.source, r.patch.jump.size)) =
        some (4096, 5)) : Lands id w w' := by
    intro r hr i hi
    rw [hr] at written
    obtain ⟨source, size⟩ := Prod.mk.inj (Option.some.inj written)
    rw [source]
    exact run.layered.foreign _ (foreign i (size ▸ hi))
  have bare {w w' : World} {id : Nat} (gone : w'.redirection? id = none) : Lands id w w' :=
    fun r hr => (by cases gone.symm.trans hr)
  have next {w : World} {stack stack' : List Nat} (run : Run page w stack) (a : DetourAct)
      (deaf : w.runtime.subscribers = []) (lands : Lands (a.detour w) w (a.after w))
      (onTop : OnTop w stack (a.detour w))
      (restacked : restack (a.detour w) (a.after w) stack = stack') :
      Run page (a.after w) stack' := by
    refine restacked ▸ run.act a ⟨?_, lands, fun _ => onTop⟩
    cases a with
    | create => exact fun _ => ⟨Or.inl deaf, Or.inl deaf⟩
    | apply => exact fun _ _ => ⟨Or.inl deaf, Or.inl deaf⟩
    | undo => trivial
    | drop => trivial
  have start : Run page page [] := .start orderly fun _ md => (by cases md)
  have one : Run page lower [0] :=
    next start (.create 0 (.function 4096) (.function 4200) true) rfl
      (lands start (by decide +kernel)) (onTop_of_new (by decide)) (by decide +kernel)
  have two : Run page upper [1, 0] :=
    next one (.create 0 (.function 4096) (.function 4300) true) (by decide +kernel)
      (lands one (by decide +kernel)) (onTop_of_new (by decide +kernel)) (by decide +kernel)
  have three : Run page ((DetourAct.undo 1).after upper) [0] :=
    next two (.undo 1) (by decide +kernel) (bare (Option.isNone_iff_eq_none.mp (by decide +kernel)))
      (onTop_head (by decide)) (by decide +kernel)
  have four : Run page lifted [] :=
    next three (.undo 0) (by decide +kernel)
      (bare (Option.isNone_iff_eq_none.mp (by decide +kernel))) (onTop_head (by decide))
      (by decide +kernel)
  have none : ∀ d ∈ lifted.detours, d.isApplied = false := by decide +kernel
  exact ⟨[], four, none, by decide +kernel,
    the_code_is_whole_again four none (foreign 0 (by decide))⟩

/-- Undone in the order in which they were applied, they leave the jump of the first behind. -/
theorem a_lower_layer_comes_back : (∀ d ∈ tangled.detours, d.isApplied = false) ∧
    page.machine.Foreign 4096 ∧
    tangled.machine.memory.bytes 4096 ≠ page.machine.memory.bytes 4096 := by
  exact ⟨by decide +kernel, ⟨by decide, fun p mp => (by cases mp)⟩, by decide +kernel⟩

end Layers

end Detouring
