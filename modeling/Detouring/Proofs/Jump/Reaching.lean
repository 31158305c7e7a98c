-- A jump that is chosen can be written. A short one reaches its target, and one through a cell
-- reaches the cell: the window in which the cell was asked for is the reach of a displacement of
-- 32 bits. The two differ only at the end of all addresses, where the window starts again at zero
-- and the displacement does not.
import Detouring.Proofs.Jump.Choosing
import Detouring.Proofs.Operation

namespace Detouring

/-! ## Blocks within a window -/

/-- The block is what was asked for, and it lies within the window. -/
structure BlockRequest.MetBy (r : BlockRequest) (w : Window) (b : Block) : Prop where
  size : b.size = r.size
  aligned : b.base % r.align = 0
  low : w.low ≤ b.base
  high : b.base + r.size ≤ w.high

namespace Arena

variable {σ : Type} {a a' : Arena σ} {w : Window} {r : BlockRequest} {b : Block}

theorem takeWithin_met (align : 0 < r.align) {p : ArenaPage}
    (h : a.takeWithin p w r = (some b, a')) : r.MetBy w b := by
  obtain ⟨p', _, taken, _, low, high⟩ := takeWithin_some h
  refine ⟨?_, aligned_take align taken, low, high⟩
  obtain ⟨_, _, _, rfl, _⟩ := Keeps.take_spec taken
  rfl

/-- Pages that had no block within the window do not matter for the block of a later one. -/
theorem takeFirstWithin_met (align : 0 < r.align) {pages : List ArenaPage}
    (h : a.takeFirstWithin w r pages = (some b, a')) : r.MetBy w b := by
  induction pages generalizing a with
  | nil => cases h
  | cons p rest ih =>
    unfold takeFirstWithin at h
    split at h
    · rename_i taken
      cases h
      exact takeWithin_met align taken
    · exact ih h

variable [PageSource σ]

/-- Whatever an arena holds and whatever its source maps, a block that it hands out near an
address lies near that address. -/
theorem allocateNear_met {reports : List Report}
    (h : a.allocateNear w r = (.ok b, a', reports)) : r.MetBy w b := by
  unfold allocateNear at h
  split at h
  · cases h
  split at h
  · cases h
  rename_i valid
  have align : 0 < r.align := by
    obtain ⟨_, ⟨k, power⟩, _⟩ := validate_ok valid
    exact power ▸ Nat.two_pow_pos k
  split at h
  · rename_i found
    cases h
    exact takeFirstWithin_met align found
  split at h
  · cases h
  split at h
  · cases h
  dsimp only at h
  split at h
  · rename_i taken
    cases h
    exact takeWithin_met align taken
  · cases h

end Arena

theorem Machine.allocateNear_met {m : Machine} {w : Window} {r : BlockRequest} {b : Block}
    (h : ((Machine.allocateNear w r).on m).1 = .ok b) : r.MetBy w b := by
  rcases run : m.arena.allocateNear w r with ⟨result, arena, reports⟩
  simp only [Machine.allocateNear, Op.on_of, run] at h
  exact Arena.allocateNear_met (h ▸ run)

namespace Jump

variable {m m' : Machine} {j : Jump} {source target : Nat} {room : Option Nat}

/-! ## What a jump is offered with -/

/-- What is known of a jump that is to be written: a short one reaches its target, and a cell was
handed out for it in its window. -/
structure Supplied (j : Jump) : Prop where
  target : j.form = .relative → reaches j.source 5 j.target = true
  cell : ∀ c, j.form = .throughCell c → cellRequest.MetBy (cellWindow j.source) c

theorem supplied_absolute : Supplied ⟨source, target, .absolute⟩ := ⟨nofun, nofun⟩

theorem supplied_relative (near : reaches source 5 target = true) :
    Supplied ⟨source, target, .relative⟩ := ⟨fun _ => near, nofun⟩

theorem supplied_throughCell {c : Block} (met : cellRequest.MetBy (cellWindow source) c) :
    Supplied ⟨source, target, .throughCell c⟩ :=
  ⟨nofun, fun _ same => JumpForm.throughCell.inj same ▸ met⟩

theorem choose_supplied (m : Machine) :
    (choose source target room).Ends m (fun j _ => j.source = source ∧ j.Supplied)
      fun _ => True := by
  apply choose_rule
  · exact fun _ => trivial
  · exact fun _ _ near _ => ⟨rfl, supplied_relative near⟩
  · intro _ _
    rcases tried : (Machine.allocateNear (cellWindow source) cellRequest).on m with ⟨result, m₁⟩
    refine .of_on tried (fun cell ok => ⟨rfl, supplied_throughCell ?_⟩)
      fun _ _ _ _ => ⟨rfl, supplied_absolute⟩
    exact Machine.allocateNear_met ((congrArg Prod.fst tried).trans ok)
  · exact fun _ _ _ _ => ⟨rfl, supplied_absolute⟩

theorem redirect_supplied (old : Jump) (m : Machine) :
    (redirect old target room).Ends m (fun done _ => ∀ j, done = .overwritten j → j.Supplied)
      fun _ => True := by
  unfold redirect
  split
  · apply Op.Ends.bind
    apply Op.Ends.change
    exact Op.Ends.pure nofun
  · rename_i form
    have five : old.size = 5 := by rw [size, form]; rfl
    split
    · rename_i near
      refine Op.Ends.pure fun j hj => ?_
      cases hj
      exact ⟨fun _ => five ▸ near, fun c hc => (by cases form.symm.trans hc)⟩
    · apply Op.Ends.map
      apply (choose_supplied m).mono _ fun _ h => h
      rintro j m₁ ⟨_, supplied⟩ j' same
      cases same
      exact supplied
  · rename_i form
    refine Op.Ends.pure fun j hj => ?_
    cases hj
    exact ⟨fun short => (by cases form.symm.trans short),
      fun c hc => (by cases form.symm.trans hc)⟩

/-! ## Displacements that fit -/

/-- The window around a jump is the reach of its displacement. -/
theorem reaches_of_window {base : Nat} (below : source + 6 < wordCount)
    (low : (cellWindow source).low ≤ base) (high : base + 8 ≤ (cellWindow source).high) :
    reaches source 6 base = true ∧ base + 8 ≤ maxWord := by
  simp only [cellWindow, Machine.windowAround, clampedAdd, Nat.mod_eq_of_lt below] at low high
  refine ⟨?_, le_trans high (Nat.min_le_right _ _)⟩
  unfold reaches fitsSigned32 displacement
  exact decide_eq_true ⟨by omega, by omega⟩

/-- Every displacement of the jump fits its field, and its cell is a word that can be stored at
once. -/
structure InReach (j : Jump) : Prop where
  target : j.form = .relative → fitsSigned32 (displacement j.source 5 j.target) = true
  cell : ∀ c, j.form = .throughCell c →
    c.size = 8 ∧ c.base % 8 = 0 ∧ fitsSigned32 (displacement j.source 6 c.base) = true

theorem Supplied.inReach (s : j.Supplied)
    (inside : ∀ c, j.form = .throughCell c → j.source + 6 < wordCount) : j.InReach := by
  refine ⟨s.target, fun c form => ?_⟩
  obtain ⟨size, aligned, low, high⟩ := s.cell c form
  exact ⟨size, aligned, (reaches_of_window (inside c form) low high).1⟩

theorem InReach.bytes (r : j.InReach) : ∃ code, j.bytes = .ok code := by
  obtain ⟨source, target, form⟩ := j
  cases form with
  | relative => exact ⟨_, if_pos (r.target rfl)⟩
  | throughCell c => exact ⟨_, if_pos (r.cell c rfl).2.2⟩
  | absolute => exact ⟨_, rfl⟩

/-- In the last bytes of all addresses no cell is in reach: the window lies at the lowest
addresses. -/
theorem Supplied.bytes_at_the_end (s : j.Supplied) {c : Block} (form : j.form = .throughCell c)
    (word : j.source < wordCount) (outside : wordCount ≤ j.source + 6) :
    j.bytes = .error (.state (.cellOutOfJumpRange c.base j.source)) := by
  obtain ⟨_, _, _, high⟩ := s.cell c form
  have wrapped : (j.source + 6) % wordCount = j.source + 6 - wordCount := by
    rw [Nat.mod_eq_sub_mod outside, Nat.mod_eq_of_lt (by unfold wordCount at *; omega)]
  have top : cellRequest.size = 8 := rfl
  simp only [cellWindow, Machine.windowAround, clampedAdd, wrapped, top] at high
  have far : reaches j.source j.size c.base = false := by
    have six : j.size = 6 := by rw [size, form]; rfl
    rw [six]
    unfold reaches fitsSigned32 displacement
    unfold wordCount maxWord at *
    exact decide_eq_false (by omega)
  obtain ⟨source, target, _⟩ := j
  subst form
  exact if_neg (by rw [far]; decide)

/-! ## Jumps that are written -/

/-- A jump that is to be written: it was chosen for some code, or it takes the place of a jump
that is pointed elsewhere. -/
inductive Offered (m m' : Machine) (j : Jump) : Prop where
  | chosen {source target : Nat} {room : Option Nat}
      (done : (choose source target room).on m = (.ok j, m'))
  | rewritten {old : Jump} {target : Nat} {room : Option Nat}
      (done : (redirect old target room).on m = (.ok (.overwritten j), m'))

theorem Offered.supplied (offered : Offered m m' j) : j.Supplied := by
  cases offered with
  | @chosen source target room done =>
    obtain ⟨_, ok, _, supplied⟩ | ⟨_, error, _⟩ := (@choose_supplied source target room m).run
    · rw [done] at ok
      exact Except.ok.inj ok ▸ supplied
    · rw [done] at error
      cases error
  | @rewritten old target room done =>
    obtain ⟨_, ok, supplied⟩ | ⟨_, error, _⟩ := (@redirect_supplied target room old m).run
    · rw [done] at ok
      exact supplied j (Except.ok.inj ok).symm
    · rw [done] at error
      cases error

/-- A process with code in the last page of all, and a page of the arena far below. -/
def summit : Machine where
  arena := {
    source := {
      memory := (({} : Memory).map 0x50000000 .readWrite none).map 0xfffffffffffff000
        .readExecute none
      next := 0x50001000 }
    pages := [⟨0, 0x50000000, 4096, false, [⟨16, 4080⟩]⟩]
    nextNumber := 1 }

/-- The first block that is free in that page. -/
def summitCell : Block := ⟨0x50000010, 8, false, 0⟩

/-- A jump from code beside that page. -/
def lowJump : Jump := ⟨0x50002000, 0x7fff00000000, .throughCell summitCell⟩

/-- A jump from the last six bytes. -/
def lastJump : Jump := ⟨0xfffffffffffffffa, 0x100000000000, .throughCell summitCell⟩

end Jump

end Detouring
