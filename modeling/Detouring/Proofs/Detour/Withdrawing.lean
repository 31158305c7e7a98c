-- Undoing that fails. A redirection that cannot write its code back stays as it is, and it can be
-- undone later. The detour of a method gives its redirection up all the same, so the jump stays in
-- the code and nobody can take it off.
import Detouring.Proofs.Detour.Cells

namespace Detouring

open Op

variable {m m' : Machine} {d : MethodDetour} {r : Redirection} {w w' : World} {id : Nat} {e : Fault}

/-! ## Redirections -/

theorem Machine.bytes_freeCell (m : Machine) (j : Jump) :
    (m.freeCell j).memory.bytes = m.memory.bytes := by
  unfold Machine.freeCell
  split
  · exact m.bytes_free _
  · rfl

namespace Redirection

/-- All bytes of the jump are mapped. -/
def Mapped (r : Redirection) (m : Machine) : Prop :=
  ∀ i < r.patch.jump.size, m.memory.isMapped (r.source + i) = true

theorem on_undo (applied : r.patch.applied = true) : r.undo.on m =
    (((m.memory.patch .executable r.source r.patch.backup 0).1.map fun _ =>
        { r with patch.applied := false }),
      m.withMemory (m.memory.patch .executable r.source r.patch.backup 0).2) := by
  unfold undo JumpPatch.undo
  rw [if_pos applied, on_bind, on_bind, Jump.on_patchCode]
  unfold source
  rcases (m.memory.patch .executable r.patch.jump.source r.patch.backup 0).1 with e | _ <;> rfl

/-- A jump whose bytes are mapped is taken off. -/
theorem undo_of_mapped (whole : r.patch.Whole) (g : m.memory.Regular) (mapped : r.Mapped m) :
    ∃ m', r.undo.on m = (.ok { r with patch.applied := false }, m') ∧
      m'.memory.peek r.source r.patch.backup.length = r.patch.backup := by
  have size := r.patch.jump.size_pos
  obtain ⟨memory, patched, _, bytes⟩ := Memory.patch_ok g .executable r.source r.patch.backup 0
    fun i hi => mapped i (by rw [whole.backup] at hi; omega)
  refine ⟨m.withMemory memory, ?_, ?_⟩
  · rw [on_undo whole.applied, patched]
    rfl
  · exact (Memory.peek_congr fun i _ => congrFun bytes _).trans (Memory.peek_write _ _ _)

/-- A jump of which a byte is not mapped stays, and nothing happens. -/
theorem undo_of_unmapped (whole : r.patch.Whole) (g : m.memory.Regular) (unmapped : ¬ r.Mapped m) :
    ∃ e, r.undo.on m = (.error e, m) := by
  unfold Mapped at unmapped
  push Not at unmapped
  obtain ⟨i, hi, unmapped⟩ := unmapped
  have within : i < max r.patch.backup.length 1 := by
    rw [whole.backup]
    omega
  have patched := Memory.patch_unmapped g .executable 0 within (by simpa using unmapped)
  rw [on_undo whole.applied, patched]
  exact ⟨_, rfl⟩

/-- So it fails if and only if a byte is not mapped. -/
theorem undo_failed (whole : r.patch.Whole) (g : m.memory.Regular)
    (failed : r.undo.on m = (.error e, m')) : m' = m ∧ ¬ r.Mapped m := by
  by_cases mapped : r.Mapped m
  · obtain ⟨_, done, _⟩ := undo_of_mapped whole g mapped
    cases failed.symm.trans done
  · obtain ⟨_, kept⟩ := undo_of_unmapped whole g mapped
    exact ⟨(Prod.mk.inj (failed.symm.trans kept)).2, mapped⟩

end Redirection

/-! ## Detours of methods -/

namespace World

theorem on_withDetour {act : MethodDetour → Op World Unit} (found : w.detour? id = some d) :
    (withDetour id act).on w = (act d).on w := by
  have read : (get : Op World World).on w = (.ok w, w) := rfl
  unfold withDetour
  simp only [on_bind, read, found]

/-- The failure of a redirection is passed on when the detour has given the redirection up. -/
theorem withdraw_failed (failed : r.undo.on w.machine = (.error e, m)) :
    (withdraw d r).on w =
      (.error e, ({ w with machine := r.abandon m } : World).put (d.withdrawn r)) := by
  have outcome : (onMachine r.undo.outcome).on w = (.ok (.error e), { w with machine := m }) := by
    simp only [onMachine, Op.within, Op.outcome, on_of, failed]
  unfold withdraw
  rw [on_bind, outcome]
  rfl

theorem undoDetour_failed (found : w.detour? id = some d) (patched : d.redirection = some r)
    (idle : d.busy = false) (failed : r.undo.on w.machine = (.error e, m)) :
    (undoDetour id).on w =
      (.error e, ({ w with machine := r.abandon m } : World).put (d.withdrawn r)) := by
  unfold undoDetour
  rw [on_withDetour found, if_neg (by simp [MethodDetour.isApplied_eq, patched]),
    if_neg (by simp [idle]), patched, on_bind]
  have withdrawn : (Option.forM (some r) (withdraw d)).on w = _ := withdraw_failed failed
  rw [withdrawn]

/-- A detour that has given its redirection up is not undone again. -/
theorem undoDetour_disposed (found : w.detour? id = some d) (bare : d.redirection = none) :
    (undoDetour id).on w = (.error (.disposed .methodDetour), w) := by
  unfold undoDetour
  rw [on_withDetour found, if_pos (by simp [MethodDetour.isApplied_eq, bare])]
  rfl

/-- An undo fails because the detour is at work, or because its redirection fails. -/
theorem undoDetour_error (found : w.detour? id = some d) (patched : d.redirection = some r)
    (failed : (undoDetour id).on w = (.error e, w')) :
    d.busy = true ∧ w' = w ∨ d.busy = false ∧ ∃ m, r.undo.on w.machine = (.error e, m) ∧
      w' = ({ w with machine := r.abandon m } : World).put (d.withdrawn r) := by
  rcases busy : d.busy with _ | _
  · refine Or.inr ⟨rfl, ?_⟩
    rcases done : r.undo.on w.machine with ⟨e' | r', m⟩
    · have ended := undoDetour_failed found patched busy done
      obtain ⟨same, rfl⟩ := Prod.mk.inj (failed.symm.trans ended)
      obtain rfl := Except.error.inj same
      exact ⟨m, rfl, rfl⟩
    · have ends : r.undo.Ends w.machine (fun _ _ => True) (fun _ => False) :=
        .of_on done (fun _ _ => trivial) fun _ never => (by cases never)
      rcases (undoDetour_becomes found patched busy ends).run with
        ⟨_, ok, _⟩ | ⟨_, _, _, _, never, _⟩
      · rw [failed] at ok
        cases ok
      · exact never.elim
  · left
    rcases (undoDetour_refused (Q := fun _ _ => False) found (Or.inr busy)).run with
      ⟨_, _, never⟩ | ⟨_, _, left⟩
    · exact never.elim
    · exact ⟨rfl, (congrArg Prod.snd failed).symm.trans left⟩

/-- When the code cannot be written back, the redirection is as it was, with the bytes under the
jump and the cell, and wherever the bytes of the jump are mapped it can be taken off. But the detour
that failed to take it off gives it up: no byte has changed, so the jump stands where it stood, its
cell is given back, and the detour refuses to be undone from then on. -/
theorem a_failed_undo_leaves_a_jump_that_could_be_taken_off (found : w.detour? id = some d)
    (patched : d.redirection = some r) (whole : r.patch.Whole) (g : w.machine.memory.Regular) :
    (∀ e m', r.undo.on w.machine = (.error e, m') → m' = w.machine ∧ ¬ r.Mapped w.machine) ∧
    (∀ m : Machine, m.memory.Regular → r.Mapped m →
      ∃ m', r.undo.on m = (.ok { r with patch.applied := false }, m') ∧
        m'.memory.peek r.source r.patch.backup.length = r.patch.backup) ∧
    ∀ e w', (undoDetour id).on w = (.error e, w') →
      d.busy = true ∧ w' = w ∨
      d.busy = false ∧ r.undo.on w.machine = (.error e, w.machine) ∧
        w' = ({ w with machine := r.abandon w.machine } : World).put (d.withdrawn r) ∧
        w'.machine.memory.bytes = w.machine.memory.bytes ∧
        ∀ w'', w''.detour? id = w'.detour? id →
          (undoDetour id).on w'' = (.error (.disposed .methodDetour), w'') := by
  refine ⟨fun e m' => Redirection.undo_failed whole g,
    fun m g' mapped => Redirection.undo_of_mapped whole g' mapped,
    fun e w' failed => (undoDetour_error found patched failed).imp_right ?_⟩
  rintro ⟨idle, m, kept, rfl⟩
  obtain ⟨rfl, _⟩ := Redirection.undo_failed whole g kept
  obtain rfl := id_of_detour found
  refine ⟨idle, kept, rfl, Machine.bytes_freeCell _ _, fun w'' same => ?_⟩
  have there : ({ w with machine := r.abandon w.machine } : World).detour? (d.withdrawn r).id
      = some d := found
  exact undoDetour_disposed (same.trans (detour?_put there)) rfl

end World

namespace Workshop

open World

/-- Whatever others do meanwhile, a detour that is applied can rely on what it has kept. -/
theorem Run.whole {y : Workshop} {standing : Set JumpPatch} (run : Run y standing)
    (found : y.world.detour? id = some d) (patched : d.redirection = some r) :
    r.patch.Whole ∧ y.world.machine.memory.Regular := by
  obtain ⟨s, _⟩ := run.sound
  exact ⟨(s.stocked.fit d (List.mem_of_find?_eq_some found)).whole r patched,
    s.stocked.holds.regular⟩

/-! ### Code that is unmapped for a while -/

/-- Others may unmap a page that is not one of the arena. -/
theorem holds_unmap {K : List Block} {base : Nat} (h : m.Holds K)
    (others : ∀ p ∈ m.arena.pages, p.base ≠ base) :
    (m.withMemory (m.memory.unmap base)).Holds K := by
  obtain ⟨live, s, held⟩ := h.sound
  have books : (m.withMemory (m.memory.unmap base)).arena.Keeps live := s.books.source rfl
  exact ⟨h.nodup, live, ⟨books, s.regular.unmap base, fun p mp =>
    Memory.mem_places_unmap.mpr ⟨s.held p mp, others p mp⟩, s.next⟩, held⟩

/-- The page of the source is unmapped under the jump, -/
def stripped : World :=
  let memory := connected.machine.memory
  { connected with machine := connected.machine.withMemory (memory.unmap 0x10000) }

/-- the detour fails to take its jump off, -/
def surrendered : World := ((undoDetour 0).on stripped).2

/-- and the page is mapped again, with the bytes that it had. -/
def revived : World :=
  let memory := surrendered.machine.memory
  let pages := Memory.insertPage ⟨0x10000, .readExecute, none⟩ memory.pages
  { surrendered with machine := surrendered.machine.withMemory { memory with pages } }

theorem run_stripped : ∃ standing, Run ⟨stripped, []⟩ standing := by
  obtain ⟨_, run, _⟩ := run_connected
  refine ⟨_, run.step (.others rfl rfl fun K h => holds_unmap h ?_)⟩
  decide +kernel

/-- The detour has given up a jump that it could not take off. -/
theorem a_jump_on_an_unmapped_page_is_given_up : ∃ standing d r e, Run ⟨stripped, []⟩ standing ∧
    stripped.detour? 0 = some d ∧ d.redirection = some r ∧
    (undoDetour 0).on stripped = (.error e, surrendered) ∧ ¬ r.Mapped stripped.machine ∧
    surrendered.machine.memory.bytes = stripped.machine.memory.bytes ∧
    (undoDetour 0).on surrendered = (.error (.disposed .methodDetour), surrendered) := by
  obtain ⟨standing, run⟩ := run_stripped
  obtain ⟨r, there⟩ := Option.isSome_iff_exists.mp
    (show (stripped.redirection? 0).isSome = true by decide +kernel)
  obtain ⟨d, found, patched⟩ := Option.bind_eq_some_iff.mp there
  have failed : (undoDetour 0).on stripped
      = (.error (.protection 0x10000 0x1000 .notFullyMapped), surrendered) :=
    Prod.ext (by decide +kernel) rfl
  have idle : d.busy = false := by
    have rests : (stripped.detour? 0).map MethodDetour.busy = some false := by decide +kernel
    rw [found] at rests
    exact Option.some.inj rests
  obtain ⟨whole, regular⟩ := run.whole found patched
  obtain ⟨keeps, _, gives⟩ :=
    a_failed_undo_leaves_a_jump_that_could_be_taken_off found patched whole regular
  rcases gives _ _ failed with ⟨busy, _⟩ | ⟨_, kept, _, bytes, disposed⟩
  · cases idle.symm.trans busy
  · exact ⟨standing, d, r, _, run, found, patched, failed, (keeps _ _ kept).2, bytes,
      disposed _ rfl⟩

/-- After the failed undo the detour is not applied any more, and its cell is gone. When the page is
there again, the jump stands on it, and the detour refuses to take it off. -/
theorem a_detour_that_failed_to_undo_cannot_undo_later :
    (stripped.detour? 0).map MethodDetour.isApplied = some true ∧
    ((undoDetour 0).on stripped).1 = .error (.protection 0x10000 0x1000 .notFullyMapped) ∧
    (surrendered.detour? 0).map MethodDetour.isApplied = some false ∧
    stripped.machine.memory.isMapped linkCell.base = true ∧
    surrendered.machine.memory.isMapped linkCell.base = false ∧
    revived.machine.memory.read? 0x10000 6 = some [0xff, 0x25, 0xfa, 0xef, 0xff, 0xff] ∧
    ((undoDetour 0).on revived).1 = .error (.disposed .methodDetour) := by
  refine ⟨?_, ?_, ?_, ?_, ?_, ?_, ?_⟩ <;> decide +kernel

end Workshop

end Detouring
