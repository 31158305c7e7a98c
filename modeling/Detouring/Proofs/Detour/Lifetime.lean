-- The life of a detour whose code no other detour touches. It is made, applied and undone, whether or
-- not that works, and told of fresh code of its methods, with what others do in between. While it is
-- applied, its jump is in force.
import Detouring.Proofs.Detour.Attempting
import Detouring.Proofs.Detour.Tracking

namespace Detouring

open Op Machine

variable {stubs : List Stub} {K : List Block} {r : Redirection} {id : Nat} {code code' : Set Nat}
  {d : MethodDetour} {w w' w₁ : World} {n : CompiledMethod}
  {beforePatch : Option Nat → Op World Unit} {E : World → Prop}

namespace World

/-! ## Making -/

/-- A new detour has nothing yet. -/
theorem Fenced.register (f : w.Fenced stubs K w.nextDetour code) (next : d.id = w.nextDetour)
    (bare : d.redirection = none) (empty : d.retired = []) :
    (w.register d).Fenced stubs K w.nextDetour code := by
  have same := f.toNumbered.redirection?_register next bare
  refine f.later ⟨f.toNumbered.register next, ?_, f.trampolines⟩ (fun _ h => h)
    fun other _ => congrFun same other
  rw [holdings_register w ((MethodDetour.blocks_of_bare bare).trans empty)]
  exact f.posts

theorem createDetour_fenced (f : w.Fenced stubs K w.nextDetour code) (factory : Nat)
    (source target : Method) :
    (createDetour factory source target false).Ends w
      (fun id w' => w'.Fenced stubs K id code ∧ w'.Tame id ∧ w'.redirection? id = none)
      fun _ => True := by
  refine createDetour_made (fun _ _ => trivial) fun w₁ said => ?_
  let d : MethodDetour := .blank w₁.nextDetour factory (w.nameOf source) (w.nameOf target)
  have f₁ := f.quiet said.quiet
  rw [← said.quiet.nextDetour] at f₁
  have f₂ : (w₁.register d).Fenced stubs K w₁.nextDetour code := f₁.register rfl rfl rfl
  have here : (w₁.register d).detour? w₁.nextDetour = some d :=
    f₂.toNumbered.found_iff.mpr ⟨List.mem_append_right _ (List.mem_singleton_self d), rfl⟩
  have bare := redirection?_of_found here
  exact ⟨f₂, ⟨⟨d, here, rfl⟩, fun r hr => (by cases bare.symm.trans hr),
    fun r hr => (by cases bare.symm.trans hr)⟩, bare⟩

/-! ## Lives -/

/-- Others have done something. The record of the detour is as it was, and they keep off the code. -/
structure Meanwhile (id : Nat) (code : Set Nat) (w w₁ : World) : Prop where
  record : w₁.detour? id = w.detour? id
  fenced : ∃ stubs, w₁.Fenced stubs [] id code

/-- If the detour is applied, its jump was left alone, and the room for it is in the code. -/
structure Unspoilt (id : Nat) (code : Set Nat) (w w₁ : World) : Prop where
  bytes : ∀ r, w.redirection? id = some r → ∀ i < r.patch.jump.size,
    w₁.machine.memory.bytes (r.source + i) = w.machine.memory.bytes (r.source + i)
  blocks : ∀ r, w.redirection? id = some r → ∀ b ∈ r.blocks, ∀ x, b.Has x →
    w₁.machine.memory.bytes x = w.machine.memory.bytes x
  within : ∀ r, w.redirection? id = some r → ∀ i < r.room, r.source + i ∈ code

/-- A notice of fresh code is about to be sent. If the jump of the detour was written over, it was its
source that was compiled, and the detour will be told. -/
structure Notified (id : Nat) (code : Set Nat) (n : CompiledMethod) (w w₁ : World) : Prop extends
    Meanwhile id code w w₁ where
  clear : w₁.Clear id code (w₁.nameOf n.method) n.start
  word : n.start < wordCount
  jump : Unspoilt id code w w₁ ∨ ∃ target factory,
    w₁.methods? id = some (w₁.nameOf n.method, target, factory) ∧ w₁.Hears factory

/-- What becomes of a detour, and which code it is that no other detour touches. -/
inductive Lifetime (id : Nat) : Set Nat → World → Prop where
  | made {code : Set Nat} {w : World} {factory : Nat} {source target : Method}
      (fenced : ∃ stubs, w.Fenced stubs [] w.nextDetour code)
      (ok : ((createDetour factory source target false).on w).1 = .ok id) :
      Lifetime id code ((createDetour factory source target false).on w).2
  | others {code code' : Set Nat} {w w₁ : World} (life : Lifetime id code w)
      (meanwhile : Meanwhile id code' w w₁) (jump : Unspoilt id code' w w₁) : Lifetime id code' w₁
  | applied {code : Set Nat} {w : World} {beforePatch : Option Nat → Op World Unit}
      (life : Lifetime id code w) (attempt : Attempt id code beforePatch w)
      (lands : LandsIn id code ((applyDetour id beforePatch).on w).2) :
      Lifetime id code ((applyDetour id beforePatch).on w).2
  | undone {code code' : Set Nat} {w w₁ : World} (life : Lifetime id code w)
      (meanwhile : Meanwhile id code' w w₁)
      (left : ∀ r, w.redirection? id = some r → ∀ i < r.patch.jump.size,
        w₁.machine.memory.isMapped (r.source + i) = true → r.source + i ∈ code') :
      Lifetime id code' ((undoDetour id).on w₁).2
  | told {code code' : Set Nat} {w w₁ : World} {n : CompiledMethod} (life : Lifetime id code w)
      (compiled : Notified id code' n w w₁) : Lifetime id code' ((deliver n).on w₁).2

/-- A detour that is applied when it is made has such a life as well. -/
theorem Lifetime.made_at_once {factory : Nat} {source target : Method}
    (fenced : ∃ stubs, w.Fenced stubs [] w.nextDetour code)
    (ok : ((createDetour factory source target true).on w).1 = .ok id)
    (attempt : Attempt id code (fun _ => pure ()) ((createDetour factory source target false).on w).2)
    (lands : LandsIn id code ((createDetour factory source target true).on w).2) :
    Lifetime id code ((createDetour factory source target true).on w).2 := by
  rw [createDetour_at_once, on_bind] at ok lands ⊢
  rcases made : (createDetour factory source target false).on w with ⟨_ | id', w₁⟩
  · rw [made] at ok
    cases ok
  · simp only [made, on_bind, Op.cleaning, on_of] at ok lands attempt ⊢
    rcases applied : (applyDetour id' fun _ => pure ()).on w₁ with ⟨_ | _, w₂⟩
    · simp only [applied] at ok
      cases ok
    · simp only [applied] at ok lands ⊢
      obtain rfl := Except.ok.inj ok
      have life : Lifetime id' code w₁ := by
        have life := Lifetime.made fenced (congrArg Prod.fst made)
        rwa [made] at life
      have there : ((applyDetour id' fun _ => pure ()).on w₁).2 = w₂ := congrArg Prod.snd applied
      exact there ▸ life.applied attempt (there.symm ▸ lands)

/-- How the detour is at the end of each step. -/
structure Fares (id : Nat) (code : Set Nat) (w : World) : Prop where
  fenced : ∃ stubs, w.Fenced stubs [] id code
  tame : w.Tame id
  sits : w.Sits id code

theorem Sits.of_bare (bare : w.redirection? id = none) : w.Sits id code := fun _ there => by
  cases bare.symm.trans there

theorem Fares.sits_after (h : Fares id code w) (m : Meanwhile id code' w w₁)
    (jump : Unspoilt id code' w w₁) : w₁.Sits id code' := by
  obtain ⟨_, f⟩ := m.fenced
  intro r there
  have there := (redirection?_congr m.record).symm.trans there
  refine ⟨(h.sits r there).toStands.congr (fun i hi => ⟨f.ground _ ?_, jump.bytes r there i hi⟩)
    (jump.blocks r there), jump.within r there⟩
  exact jump.within r there i (Nat.lt_of_lt_of_le hi r.size_le_room)

theorem Lifetime.fares (life : Lifetime id code w) : Fares id code w := by
  induction life with
  | made fenced ok =>
    obtain ⟨stubs, f⟩ := fenced
    rcases (createDetour_fenced f _ _ _).run with ⟨id', ok', f', tame, bare⟩ | ⟨_, failed, _⟩
    · obtain rfl := Except.ok.inj (ok'.symm.trans ok)
      exact ⟨⟨stubs, f'⟩, tame, .of_bare bare⟩
    · cases ok.symm.trans failed
  | others _ meanwhile jump ih =>
    exact ⟨meanwhile.fenced, ih.tame.of_record meanwhile.record, ih.sits_after meanwhile jump⟩
  | applied _ attempt lands ih =>
    obtain ⟨stubs, f⟩ := ih.fenced
    rcases (applyDetour_spared f ih.tame ih.sits attempt).run with ⟨_, _, done⟩ | ⟨_, _, spared⟩
    · obtain ⟨fenced, tame, sits⟩ := done lands
      exact ⟨fenced, tame, sits⟩
    · obtain ⟨stubs', f'⟩ := spared.fenced
      exact ⟨⟨stubs', f'⟩, ih.tame.of_record spared.unharmed.record,
        ih.sits.unharmed f'.ground spared.unharmed⟩
  | undone _ meanwhile left ih =>
    obtain ⟨stubs, f⟩ := meanwhile.fenced
    obtain ⟨f', tame, bare⟩ := left_of_ends (undoDetour_bare f
      (ih.tame.of_record meanwhile.record) fun r there =>
        left r ((redirection?_congr meanwhile.record).symm.trans there))
    exact ⟨⟨stubs, f'⟩, tame, .of_bare bare⟩
  | told _ compiled ih =>
    obtain ⟨stubs, f⟩ := compiled.fenced
    have sits := compiled.jump.imp_left (ih.sits_after compiled.toMeanwhile)
    obtain ⟨attends, sits⟩ := left_of_ends (deliver_sits f compiled.clear compiled.word
      (ih.tame.of_record compiled.record) sits)
    exact ⟨⟨stubs, attends.fenced⟩, attends.tame, sits⟩

/-- Whatever becomes of a detour whose code no other detour touches: while it is applied, and only
then, it has a place where its source is entered, and there is a jump there that leads to where the
redirection goes. An attempt to apply it that fails leaves it, the code, and who is pinned, as they
were. -/
theorem the_jump_is_there_while_the_detour_is_applied (life : Lifetime id code w)
    (words : ∀ b ∈ w.machine.memory.places, b + pageSize ≤ wordCount) :
    ∃ d, w.detour? id = some d ∧
      (d.isApplied = true ↔ ∃ entry, d.sourceEntry? = some entry) ∧
      (∀ r, d.redirection = some r → d.sourceEntry? = some r.source ∧
        w.machine.memory.jumpDestination? r.source = some r.target) ∧
      ∀ beforePatch e w', Attempt id code beforePatch w →
        (applyDetour id beforePatch).on w = (.error e, w') →
          (∃ d', w'.detour? id = some d' ∧ d'.isApplied = d.isApplied) ∧
          (∀ x ∈ code, w'.machine.memory.bytes x = w.machine.memory.bytes x) ∧
          w'.pinned = w.pinned := by
  obtain ⟨⟨stubs, f⟩, tame, sits⟩ := life.fares
  obtain ⟨d, found, idle⟩ := tame.idle
  refine ⟨d, found, ?_, fun r patched => ⟨?_, ?_⟩, fun beforePatch e w' attempt failed => ?_⟩
  · rw [d.isApplied_eq, ← Option.isSome_iff_exists]
    unfold MethodDetour.sourceEntry?
    rw [Option.isSome_map]
  · unfold MethodDetour.sourceEntry?
    rw [patched]
    rfl
  · have there := (redirection?_of_found found).trans patched
    have held := f.posts.holds
    refine (sits r there).toStands.jumpDestination? (fun b mb x has => ?_) words (tame.word r there)
    exact held.mapped (List.mem_append_right _ (List.mem_append_left _ (mem_holdings there mb))) has
  · rcases (applyDetour_spared f tame sits attempt).run with ⟨_, ok, _⟩ | ⟨_, _, spared⟩
    · cases (congrArg Prod.fst failed).symm.trans ok
    · rw [failed] at spared
      exact ⟨⟨d, spared.unharmed.record.trans found, rfl⟩, spared.unharmed.code,
        spared.pinned⟩

/-! ## A life -/

/-- Two methods and no detour yet. -/
def undetoured : World := { twoMethods with detours := [], nextDetour := 0 }

/-- The page that the methods are on. -/
def ofPage : Set Nat := {x | 4096 ≤ x ∧ x < 4096 + pageSize}

def unapplied : World := ((createDetour 0 (.token 1) (.token 2) false).on undetoured).2

/-- An attempt to apply the detour is called off before the jump is written, -/
def calledOff : World := ((applyDetour 0 fun _ => throw (.disposed .methodDetour)).on unapplied).2

/-- another is not, -/
def appliedAgain : World := ((applyDetour 0 fun _ => pure ()).on calledOff).2

/-- and then the source is compiled to another place on the page. -/
def resettled : World := ((deliver ⟨.token 1, 4128, 32⟩).on appliedAgain).2
 
theorem a_detour_outlives_a_failed_attempt : Lifetime 0 ofPage resettled ∧
    (resettled.detour? 0).map MethodDetour.isApplied = some true ∧
    resettled.machine.memory.jumpDestination? 4128 = some 4200 := by
  have regular : undetoured.machine.memory.Regular := ⟨by decide, by decide⟩
  have fenced : undetoured.Fenced [] [] undetoured.nextDetour ofPage := by
    refine ⟨⟨⟨by decide, by decide⟩, ⟨⟨List.nodup_nil, ∅, .fresh rfl regular (by decide), ?_⟩,
      fun _ ms => (by cases ms)⟩, fun _ _ chain => (by cases chain)⟩, fun x ⟨low, high⟩ => ?_,
      fun _ _ _ there => (by cases there)⟩
    · exact fun _ mb => (List.not_mem_nil mb).elim
    · exact foreign_of_page (by decide) (by decide : 4096 ∈ _) (fun p mp => (by cases mp)) low high
  -- No method is compiled on the way, so nothing is announced.
  have calm (w : World) (none : ∀ x ∈ w.runtime.methods, x.compilations.isEmpty = true)
      (m : Method) : w.Awaits 0 ofPage m := by
    rintro start size ⟨x, known, _, mc⟩
    unfold Runtime.lookup? at known
    split at known
    · rw [List.isEmpty_iff.mp (none x (List.mem_of_find?_eq_some known))] at mc
      cases mc
    · cases known
  have made : Lifetime 0 ofPage unapplied := .made ⟨[], fenced⟩ (by decide +kernel)
  have tried : Lifetime 0 ofPage calledOff := by
    have calm := calm unapplied (by decide +kernel)
    refine made.applied ⟨fun _ _ _ _ f => Ends.throw (.refl f), fun _ _ => calm _,
      fun _ _ => calm _⟩ fun r there => ?_
    have none : (calledOff.redirection? 0).isNone = true := by decide +kernel
    rw [show calledOff.redirection? 0 = some r from there] at none
    cases none
  have written (r : Redirection) (there : appliedAgain.redirection? 0 = some r) :
      r.source = 4096 ∧ r.target = 4200 ∧ r.room = 5 := by
    have known : (appliedAgain.redirection? 0).map (fun r => (r.source, r.target, r.room)) =
        some (4096, 4200, 5) := by decide +kernel
    rw [there] at known
    simpa only [Option.map_some, Option.some.injEq, Prod.mk.injEq] using known
  have inside (r : Redirection) (there : appliedAgain.redirection? 0 = some r) (i : Nat)
      (hi : i < r.room) : r.source + i ∈ ofPage := by
    obtain ⟨source, _, room⟩ := written r there
    rw [source]
    exact ⟨by omega, by unfold pageSize; omega⟩
  have applied : Lifetime 0 ofPage appliedAgain := by
    have calm := calm calledOff (by decide +kernel)
    refine tried.applied ⟨fun _ => harmless_pure, fun _ _ => calm _, fun _ _ => calm _⟩
      fun r there => ⟨?_, inside r there⟩
    rw [(written r there).2.1]
    decide
  have told : Lifetime 0 ofPage resettled := by
    obtain ⟨stubs, f⟩ := applied.fares.fenced
    have single : ∀ d ∈ appliedAgain.detours, d.id = 0 := by decide +kernel
    refine applied.told ⟨⟨rfl, stubs, f⟩, ⟨fun other r _ _ away there => ?_,
      fun _ _ _ _ _ i hi => ?_⟩, by decide,
      Or.inl ⟨fun _ _ _ _ => rfl, fun _ _ _ _ _ _ => rfl, inside⟩⟩
    · obtain ⟨d, found, _⟩ := Option.bind_eq_some_iff.mp there
      obtain ⟨md, rfl⟩ := f.toNumbered.found_iff.mp found
      exact (away (single d md)).elim
    · have short : i < 14 := hi
      show 4096 ≤ 4128 + i ∧ 4128 + i < 4096 + 4096
      omega
  have places : resettled.machine.memory.places = [4096, 12288, 0x200000000000] := by
    decide +kernel
  have words : ∀ b ∈ resettled.machine.memory.places, b + pageSize ≤ wordCount := by
    rw [places]
    decide
  obtain ⟨d, found, _, leads, _⟩ := the_jump_is_there_while_the_detour_is_applied told words
  have known : (resettled.redirection? 0).map (fun r => (r.source, r.target)) =
      some (4128, 4200) := by decide +kernel
  obtain ⟨r, there, ends⟩ := Option.map_eq_some_iff.mp known
  obtain ⟨source, target⟩ := Prod.mk.inj ends
  have patched : d.redirection = some r := (redirection?_of_found found).symm.trans there
  refine ⟨told, ?_, source ▸ target ▸ (leads r patched).2⟩
  rw [found, Option.map_some, d.isApplied_eq, patched]
  rfl

end World

end Detouring
