-- A redirection with an alternate entry never grows. Its jump keeps its form, however often it is
-- pointed elsewhere, so it stays in front of the code that the entry goes on with; what it cannot
-- reach in that form is refused, and then nothing has happened.
import Detouring.Proofs.Jump.Retargeting
import Detouring.Proofs.Jump.Turning
import Detouring.Proofs.Relocation.Resuming

namespace Detouring

variable {m m' m₀ m₁ : Machine} {p : RedirectionPlan} {r : Redirection} {source target : Nat}
  {room : Option Nat}

/-! ## Where the entry of a plan goes on -/

namespace RedirectionPlan

theorem alternateFor_resumes (a : Architecture) (settings : Settings) (j : Jump) (m : Machine) :
    (alternateFor a settings j).Ends m
      (fun alternate m' => ∀ b, alternate = some b →
        ∃ next, AlternateEntry.Resumes m.memory j.source j.size b next m'.memory)
      fun _ => True := by
  unfold alternateFor Architecture.alternateEntry
  split
  · exact Op.Ends.pure nofun
  split
  · apply Op.Ends.map
    split
    · apply (AlternateEntry.build_resumes j.source j.size m).mono _ fun _ h => h
      rintro b m' resumes _ ⟨⟩
      exact resumes
    · exact Op.Ends.throw trivial
  · apply Op.Ends.bind
    apply Op.Ends.change
    exact Op.Ends.pure nofun

/-- The entry of a plan is built for the jump that was chosen, from the code as it is then. -/
theorem make_resumes (a : Architecture) (settings : Settings) (source target : Nat)
    (room : Option Nat) (m : Machine) :
    (make a settings source target room).Ends m
      (fun p m' => ∀ b, p.alternate = some b → ∃ before next,
        (Jump.choose source target room).on m = (.ok p.jump, before) ∧ p.jump.source = source ∧
          AlternateEntry.Resumes before.memory source p.jump.size b next m'.memory)
      fun _ => True := by
  apply Op.Ends.bind
  apply (Jump.choose_supplied m).traced.mono _ fun _ h => h
  rintro j before ⟨chosen, rfl, _⟩
  apply Op.Ends.bind
  apply Op.Ends.cleaning
  apply (alternateFor_resumes a settings j before).mono _ fun _ h => h
  intro alternate m' resumes
  refine Op.Ends.pure fun b there => ?_
  obtain ⟨next, resumes⟩ := resumes b there
  exact ⟨before, next, chosen, rfl, resumes⟩

end RedirectionPlan

namespace Redirection

/-! ## One call -/

/-- At most the bytes of the jump and of its cell have changed. -/
structure Confined (r : Redirection) (m m' : Machine) : Prop where
  places : m'.memory.places = m.memory.places
  beside : ∀ x, ¬ r.patch.jump.Touches x → m'.memory.bytes x = m.memory.bytes x

/-- No byte has changed. -/
structure Untouched (m m' : Machine) : Prop where
  places : m'.memory.places = m.memory.places
  bytes : m'.memory.bytes = m.memory.bytes

theorem Untouched.of_arena (same : m'.arena = m.arena) : Untouched m m' := by
  have memory : m'.memory = m.memory := congrArg (fun a => a.source.memory) same
  exact ⟨congrArg _ memory, congrArg _ memory⟩

/-- A jump without a cell that is to be written over itself is written, or nothing happens. -/
theorem overwrite_confined (g : m.memory.Regular)
    (backup : r.patch.backup.length = r.patch.jump.size) (bare : r.patch.jump.cell? = none)
    {bytes : List UInt8} (encoded : (r.aimed target).patch.jump.bytes = .ok bytes) :
    (r.patch.overwrite (r.aimed target).patch.jump (some r.patch.backup.length)).Ends m
      (fun p m' => p = (r.aimed target).patch ∧ r.Confined m m') (Untouched m) := by
  have bare' : (r.aimed target).patch.jump.cell? = none := bare
  have fit : Jump.fits (some r.patch.backup.length) (r.aimed target).patch.jump.size = true := by
    rw [backup, size_aimed]
    exact decide_eq_true (Nat.le_refl _)
  have run := Jump.on_overwrite r.patch (r.aimed target).patch.jump _ m fit
  rcases placing : (r.aimed target).patch.jump.place.on m with ⟨e | covered, m₁⟩ <;>
    rw [placing] at run
  · obtain ⟨memory, rfl, places, kept⟩ := Jump.place_error g placing
    have freed : (m.withMemory memory).freeCell (r.aimed target).patch.jump =
        m.withMemory memory := by simp only [Machine.freeCell, bare']
    dsimp only at run
    rw [freed] at run
    refine .of_on run (fun _ ok => (by cases ok)) fun _ _ => ⟨places, funext fun x => ?_⟩
    exact kept x fun c hc => (by cases bare'.symm.trans hc)
  · obtain ⟨_, length, mapped⟩ := Jump.mapped_of_place g placing
    obtain ⟨memory, placed, places, _, outside⟩ := Jump.place_ok g encoded mapped
      fun c hc => (by cases bare'.symm.trans hc)
    obtain ⟨_, rfl⟩ := Prod.mk.inj (placed.symm.trans placing)
    refine .of_on run (fun p ok => ⟨?_, places, outside⟩) fun _ error => (by cases error)
    obtain rfl := Except.ok.inj ok
    have none : covered.drop r.patch.backup.length = [] :=
      List.drop_eq_nil_of_le (by rw [length, backup, size_aimed])
    rw [none, List.append_nil]
    rfl

/-- Pointing a redirection with an alternate entry elsewhere changes its target and nothing else
of it, or it is refused and changes nothing. -/
theorem retarget_confined (g : m.memory.Regular)
    (backup : r.patch.backup.length = r.patch.jump.size) (callable : r.alternate.isSome)
    (target : Nat) :
    (r.retarget target).Ends m (fun r' m' => r' = r.aimed target ∧ r.Confined m m')
      (Untouched m) := by
  obtain ⟨alternate, there⟩ := Option.isSome_iff_exists.mp callable
  have patch : (r.patch.retarget target (some r.patch.backup.length)).Ends m
      (fun p m' => p = (r.aimed target).patch ∧ r.Confined m m') (Untouched m) := by
    apply retarget_patch_rule (fun _ => .of_arena rfl) backup
    · refine fun c hc _ => ⟨rfl, rfl, fun x out => ?_⟩
      refine Memory.bytes_write_outside _ _ _ _ ?_
      rw [length_leBytes]
      by_contra within
      exact out (Or.inr ⟨c, hc, by omega, by omega⟩)
    · exact fun bytes bare _ encoded => overwrite_confined g backup bare encoded
    · exact fun _ _ same => .of_arena same
  unfold retarget
  rw [there]
  apply Op.Ends.bind
  apply patch.mono _ fun _ h => h
  rintro p m' ⟨rfl, confined⟩
  apply Op.Ends.pure
  exact ⟨by unfold aimed; rw [there], confined⟩

/-! ## Any number of calls -/

/-- The redirection, and the machine, after it was told to lead to `target`. A redirection that
refuses stays as it is. -/
def turn (r : Redirection) (target : Nat) (m : Machine) : Redirection × Machine :=
  match (r.retarget target).on m with
  | (.ok r', m') => (r', m')
  | (.error _, m') => (r, m')

/-- What becomes of a plan: it is carried out, and the redirection is pointed elsewhere any number
of times, undone perhaps. Others work in between. -/
inductive Course (p : RedirectionPlan) : Redirection → Machine → Prop where
  | carriedOut {m m' : Machine} {r : Redirection} (regular : m.memory.Regular)
      (done : (ofPlan p).on m = (.ok r, m')) : Course p r m'
  | turned {m : Machine} {r : Redirection} (before : Course p r m) (target : Nat) :
      Course p (r.turn target m).1 (r.turn target m).2
  | undone {m m' : Machine} {r r' : Redirection} (before : Course p r m)
      (done : r.undo.on m = (.ok r', m')) : Course p r' m'
  | others {m m' : Machine} {r : Redirection} (before : Course p r m)
      (regular : m'.memory.Regular) : Course p r m'

/-- The redirection still has the jump of the plan, but for the target. -/
structure Keeps (p : RedirectionPlan) (r : Redirection) (m : Machine) : Prop where
  source : r.source = p.jump.source
  form : r.patch.jump.form = p.jump.form
  backup : r.patch.backup.length = p.jump.size
  alternate : r.alternate = p.alternate
  regular : m.memory.Regular

theorem Keeps.size (k : Keeps p r m) : r.patch.jump.size = p.jump.size :=
  congrArg JumpForm.size k.form

/-- A redirection that was told to lead elsewhere does so, or it refuses. -/
theorem Keeps.turn_cases (k : Keeps p r m) (callable : p.alternate.isSome) (target : Nat) :
    (∃ m', (r.retarget target).on m = (.ok (r.aimed target), m') ∧
        r.turn target m = (r.aimed target, m') ∧ r.Confined m m') ∨
      ∃ e m', (r.retarget target).on m = (.error e, m') ∧ r.turn target m = (r, m') ∧
        Untouched m m' := by
  have ends := retarget_confined k.regular (k.backup.trans k.size.symm) (k.alternate ▸ callable)
    target
  rcases run : (r.retarget target).on m with ⟨e | r', m'⟩
  · obtain ⟨_, ok, _⟩ | ⟨_, _, untouched⟩ := ends.run
    · rw [run] at ok
      cases ok
    · rw [run] at untouched
      exact Or.inr ⟨e, m', rfl, by simp only [turn, run], untouched⟩
  · obtain ⟨_, ok, rfl, confined⟩ | ⟨_, error, _⟩ := ends.run
    · rw [run] at ok confined
      obtain rfl := Except.ok.inj ok
      exact Or.inl ⟨m', rfl, by simp only [turn, run], confined⟩
    · rw [run] at error
      cases error

theorem Keeps.turn (k : Keeps p r m) (callable : p.alternate.isSome) (target : Nat) :
    Keeps p (r.turn target m).1 (r.turn target m).2 := by
  obtain ⟨m', _, turned, confined⟩ | ⟨_, m', _, turned, untouched⟩ :=
    k.turn_cases callable target <;> rw [turned]
  · exact ⟨k.source, k.form, k.backup, k.alternate, k.regular.of_places confined.places⟩
  · exact { k with regular := k.regular.of_places untouched.places }

theorem regular_patchCode (g : m.memory.Regular) (address : Nat) (data : List UInt8)
    (backup : Nat) : ((Machine.patchCode address data backup).on m).2.memory.Regular := by
  rw [Jump.on_patchCode]
  exact g.of_places (Memory.patch_cases g rfl).1

theorem regular_place (g : m.memory.Regular) (j : Jump) : (j.place.on m).2.memory.Regular := by
  rw [Jump.on_place]
  rcases j.bytes with e | bytes
  · exact g
  · exact regular_patchCode (g.of_places (Jump.places_aimed j m)) j.source bytes bytes.length

theorem Keeps.of_plan (g : m.memory.Regular) (done : (ofPlan p).on m = (.ok r, m')) :
    Keeps p r m' := by
  have run := Jump.on_write p.jump m
  have regular := regular_place g p.jump
  rcases placing : p.jump.place.on m with ⟨e | covered, m₁⟩ <;> rw [placing] at run regular <;>
    simp only [ofPlan, Op.cleaning, Op.on_of, Op.on_bind, run] at done
  · cases (Prod.mk.inj done).1
  · obtain ⟨same, rfl⟩ := Prod.mk.inj done
    obtain rfl := Except.ok.inj same
    exact ⟨rfl, rfl, (Jump.mapped_of_place g placing).2.1, rfl, regular⟩

theorem undo_regular (g : m.memory.Regular) : r.undo.Ends m
    (fun r' m' => r' = { r with patch.applied := false } ∧ m'.memory.Regular) fun _ => True := by
  unfold undo JumpPatch.undo
  apply Op.Ends.bind
  split
  · apply Op.Ends.bind
    refine .of_on rfl (fun _ _ => ?_) fun _ _ => trivial
    apply Op.Ends.pure
    apply Op.Ends.pure
    exact ⟨rfl, regular_patchCode g _ _ _⟩
  · exact Op.Ends.throw trivial

theorem Keeps.undone {r' : Redirection} (k : Keeps p r m) (done : r.undo.on m = (.ok r', m')) :
    Keeps p r' m' := by
  obtain ⟨_, ok, rfl, regular⟩ | ⟨_, error, _⟩ := (@undo_regular m r k.regular).run
  · rw [done] at ok regular
    obtain rfl := Except.ok.inj ok
    exact ⟨k.source, k.form, k.backup, k.alternate, regular⟩
  · rw [done] at error
    cases error

theorem Course.keeps (callable : p.alternate.isSome) (course : Course p r m) : Keeps p r m := by
  induction course with
  | carriedOut regular done => exact .of_plan regular done
  | turned _ target ih => exact ih.turn callable target
  | undone _ done ih => exact ih.undone done
  | others _ regular ih => exact { ih with regular }

/-- A jump from a page of code, with an alternate entry, is pointed elsewhere once. -/
def onePageTurned : Op Machine Redirection := do
  let r ← create {} {} 4096 8192 none
  r.retarget 12288

end Redirection

end Detouring
