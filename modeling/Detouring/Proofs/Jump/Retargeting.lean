-- A jump that was written over code leads where it was last pointed, whatever calls came in
-- between. The code under it is kept byte for byte, nothing beside it changes, and undoing it
-- puts the code back.
import Detouring.Proofs.Jump.Reaching
import Detouring.Proofs.Jump.Redirecting

namespace Detouring

namespace JumpPatch

variable {m m' m₀ : Machine} {live live' live₀ : Set Block} {p : JumpPatch} {quiet : Set Nat}
  {source target n : Nat}

/-- The pointer cell of the patch, if it has one. -/
def cells (p : JumpPatch) : Set Block := { c | p.jump.cell? = some c }

/-- Others have been at work. They left the code at `source` to its owner and the cell to the
patch, and they changed no byte that is quiet. -/
structure Undisturbed (source n : Nat) (quiet : Set Nat) (p : JumpPatch) (m m' : Machine)
    (live' : Set Block) : Prop where
  sound : m'.Sound live'
  cells : p.cells ⊆ live'
  owned : ∀ i < n, m'.Owned (source + i)
  kept : ∀ x, (x ∈ quiet ∨ ∃ c ∈ p.cells, c.Has x) → m.memory.isMapped x = true →
    m'.memory.isMapped x = true ∧ m'.memory.bytes x = m.memory.bytes x

/-- The runs of a patch over `n` bytes of code: it is applied, then pointed elsewhere any number
of times, and others work in between. The last number is the target that was accepted last. No
call is given more room than there is. -/
inductive Run (source n : Nat) (quiet : Set Nat) (m₀ : Machine) (live₀ : Set Block) :
    Machine → Set Block → JumpPatch → Nat → Prop where
  | applied {target : Nat} {room : Option Nat} {p : JumpPatch} {m : Machine}
      (word : target < wordCount) (within : room.getD JumpForm.absolute.size ≤ n)
      (done : (apply source target room).on m₀ = (.ok p, m)) :
      Run source n quiet m₀ live₀ m (live₀ ∪ p.cells) p target
  | accepted {m m' : Machine} {live : Set Block} {p p' : JumpPatch} {old target : Nat}
      {limit : Option Nat} (before : Run source n quiet m₀ live₀ m live p old)
      (word : target < wordCount) (within : limit.getD JumpForm.absolute.size ≤ n)
      (done : (p.retarget target limit).on m = (.ok p', m')) :
      Run source n quiet m₀ live₀ m' (live ∪ p'.cells) p' target
  | refused {m m' : Machine} {live : Set Block} {p : JumpPatch} {old target : Nat}
      {limit : Option Nat} {e : Fault} (before : Run source n quiet m₀ live₀ m live p old)
      (word : target < wordCount) (within : limit.getD JumpForm.absolute.size ≤ n)
      (done : (p.retarget target limit).on m = (.error e, m')) :
      Run source n quiet m₀ live₀ m' live p old
  | others {m m' : Machine} {live live' : Set Block} {p : JumpPatch} {old : Nat}
      (before : Run source n quiet m₀ live₀ m live p old)
      (undisturbed : Undisturbed source n quiet p m m' live') :
      Run source n quiet m₀ live₀ m' live' p old

/-! ## The invariant -/

/-- A cell that a jump may use: it lies in the address space and beside the jump. -/
structure Serves (source : Nat) (live : Set Block) (c : Block) : Prop where
  live : c ∈ live
  size : c.size = 8
  word : c.base + 8 ≤ maxWord
  apart : ∀ i < 6, ¬ c.Has (source + i)

/-- What holds after every step. The bytes of the code that is patched count only as far as they
are quiet. -/
structure Holds (source n : Nat) (quiet : Set Nat) (m₀ m : Machine) (live : Set Block)
    (p : JumpPatch) (target : Nat) : Prop where
  applied : p.applied = true
  here : p.jump.source = source
  leads : p.jump.target = target
  word : target < wordCount
  sound : m.Sound live
  owned : ∀ i < n, m.Owned (source + i)
  cell : ∀ c, p.jump.cell? = some c → Serves source live c ∧ m.memory.word c.base = target
  started : ∀ i < p.jump.size, m₀.memory.isMapped (source + i) = true
  frame : ∀ x ∈ quiet, m₀.memory.isMapped x = true → m.memory.isMapped x = true ∧
    (¬ p.jump.Touches x → m.memory.bytes x = m₀.memory.bytes x)
  code : (∀ i < p.jump.size, source + i ∈ quiet) →
    p.jump.bytes = .ok (m.memory.peek source p.jump.size) ∧
      p.backup = m₀.memory.peek source p.jump.size

/-- Bytes beside the jump are still as they were at first. -/
theorem Holds.frame_later (h : Holds source n quiet m₀ m live p target) (e : m.Extends m') {x : Nat}
    (hx : x ∈ quiet) (mapped : m₀.memory.isMapped x = true) :
    m'.memory.isMapped x = true ∧
      (¬ p.jump.Touches x → m'.memory.bytes x = m₀.memory.bytes x) := by
  obtain ⟨mapped', same⟩ := h.frame x hx mapped
  exact ⟨e.mapped x mapped', fun out => (e.bytes x mapped').trans (same out)⟩

/-- A machine that keeps what was mapped keeps the patch. -/
theorem Holds.mono (h : Holds source n quiet m₀ m live p target) (s : m'.Sound live)
    (e : m.Extends m') : Holds source n quiet m₀ m' live p target := by
  refine ⟨h.applied, h.here, h.leads, h.word, s, fun i hi => e.owned _ (h.owned i hi),
    fun c here => ?_, h.started, fun x hx mapped => h.frame_later e hx mapped, fun all => ?_⟩
  · obtain ⟨serves, word⟩ := h.cell c here
    refine ⟨serves, (Memory.word_congr fun i hi => ?_).trans word⟩
    exact e.bytes _ (h.sound.owned serves.live ⟨by omega, by have := serves.size; omega⟩).1
  · obtain ⟨bytes, backup⟩ := h.code all
    refine ⟨?_, backup⟩
    rw [bytes, Memory.peek_congr fun i hi =>
      e.bytes _ (h.frame _ (all i hi) (h.started i hi)).1]

/-! ## Writing a jump -/

theorem Serves.beside {j : Jump} (cell : ∀ c, j.cell? = some c → Serves j.source live c)
    (c : Block) (hc : j.cell? = some c) (x : Nat) (low : j.source ≤ x)
    (high : x < j.source + j.size) : x < c.base ∨ c.base + 8 ≤ x := by
  have size := (cell c hc).size
  have out := (cell c hc).apart (x - j.source) (by have := Jump.size_of_cell hc; omega)
  rw [Nat.add_sub_of_le low] at out
  by_contra within
  exact out ⟨by omega, by omega⟩

/-- A jump that was written over mapped code holds, if its backup is right. -/
theorem Holds.of_place (quiet : Set Nat) {m₁ : Machine} {j : Jump} {covered : List UInt8} (here : j.source = source)
    (leads : j.target = target) (word : target < wordCount) (s : m₁.Sound live)
    (owned : ∀ i < n, m₁.Owned (source + i))
    (cell : ∀ c, j.cell? = some c → Serves source live c)
    (started : ∀ i < j.size, m₀.memory.isMapped (source + i) = true)
    (frame : ∀ x ∈ quiet, m₀.memory.isMapped x = true → m₁.memory.isMapped x = true ∧
      (¬ j.Touches x → m₁.memory.bytes x = m₀.memory.bytes x))
    (done : j.place.on m₁ = (.ok covered, m)) :
    covered = m₁.memory.peek source j.size ∧ ∀ backup,
      ((∀ i < j.size, source + i ∈ quiet) → backup = m₀.memory.peek source j.size) →
        Holds source n quiet m₀ m live ⟨j, backup, true⟩ target := by
  obtain ⟨⟨bytes, encoded⟩, _, mapped⟩ := Jump.mapped_of_place s.regular done
  subst here leads
  obtain ⟨memory, placed, places, stands, outside⟩ :=
    Jump.place_ok s.regular encoded mapped (Serves.beside cell)
  obtain ⟨same, rfl⟩ := Prod.mk.inj (placed.symm.trans done)
  refine ⟨(Except.ok.inj same).symm, fun backup kept => ⟨rfl, rfl, rfl, word, s.withMemory places,
    fun i hi => (Machine.owned_withMemory places _).mpr (owned i hi),
    fun c hc => ⟨cell c hc, (stands.cell c hc).trans (Nat.mod_eq_of_lt word)⟩, started, fun x hx mapped' => ?_,
    fun all => ⟨stands.bytes, kept all⟩⟩⟩
  obtain ⟨mapped₁, same₁⟩ := frame x hx mapped'
  exact ⟨(Memory.isMapped_congr places x).trans mapped₁, fun out => (outside x out).trans (same₁ out)⟩

/-- A form that fits is no longer than the room. -/
theorem le_of_fits {room : Option Nat} {size : Nat} (fit : Jump.fits room size = true)
    (small : size ≤ JumpForm.absolute.size) : size ≤ room.getD JumpForm.absolute.size := by
  cases room with
  | none => exact small
  | some room => simpa [Jump.fits] using fit

/-- The blocks that are handed out when a jump was chosen. -/
def withCell (live : Set Block) (j : Jump) : Set Block := live ∪ { c | j.cell? = some c }

theorem chosen_spec {room : Option Nat} {j : Jump} {m₁ : Machine}
    (chosen : Jump.Chosen m live source target room j m₁) (s : m.Sound live)
    (below : source + 6 < wordCount) (within : room.getD JumpForm.absolute.size ≤ n)
    (owned : ∀ i < n, m.Owned (source + i)) :
    j.source = source ∧ j.target = target ∧ m₁.Sound (withCell live j) ∧ m.Extends m₁ ∧
      (∀ c, j.cell? = some c → Serves source (withCell live j) c ∧
        Jump.fits room j.size = true ∧ ∃ bytes, j.bytes = .ok bytes) ∧
      ∀ i < j.size, m₁.memory.isMapped (source + i) = true →
        m.memory.isMapped (source + i) = true := by
  have bare : withCell live ⟨source, target, .relative⟩ = live := by
    simp [withCell, Jump.cell?]
  have bare' : withCell live ⟨source, target, .absolute⟩ = live := by
    simp [withCell, Jump.cell?]
  cases chosen with
  | relative fits near =>
    exact ⟨rfl, rfl, bare.symm ▸ s, .of_arena rfl, fun _ h => (by cases h), fun _ _ h => h⟩
  | absolute sound keeps mapped =>
    exact ⟨rfl, rfl, bare'.symm ▸ sound, keeps, fun _ h => (by cases h),
      fun i _ h => (mapped _).symm.trans h⟩
  | @throughCell cell m₁ fits hands low high =>
    have one : withCell live ⟨source, target, .throughCell cell⟩ = insert cell live := by
      ext c
      simp [withCell, Jump.cell?, eq_comm]
    have six : 6 ≤ n := le_trans (le_of_fits fits (by decide)) within
    obtain ⟨near, word⟩ := Jump.reaches_of_window below low high
    refine ⟨rfl, rfl, one.symm ▸ hands.sound, hands.keeps, fun c hc => ?_,
      fun i hi _ => (owned i (Nat.lt_of_lt_of_le hi six)).1⟩
    obtain rfl : cell = c := Option.some.inj hc
    refine ⟨⟨one.symm ▸ Set.mem_insert _ _, hands.size, word, fun i hi =>
      hands.apart _ (owned i (by omega))⟩, fits, ?_⟩
    simp only [Jump.bytes, Jump.size, JumpForm.size, near, if_true]
    exact ⟨_, rfl⟩

theorem Holds.of_apply {room : Option Nat} (s : m₀.Sound live₀) (below : source + 6 < wordCount)
    (owned : ∀ i < n, m₀.Owned (source + i)) (word : target < wordCount)
    (within : room.getD JumpForm.absolute.size ≤ n)
    (done : (apply source target room).on m₀ = (.ok p, m)) :
    Holds source n quiet m₀ m (live₀ ∪ p.cells) p target := by
  rw [apply, Op.on_bind] at done
  rcases choosing : (Jump.choose source target room).on m₀ with ⟨e | j, m₁⟩ <;> rw [choosing] at done
  · cases (Prod.mk.inj done).1
  obtain ⟨_, chosen⟩ := Op.of_accepted (Jump.choose_chosen s) choosing
  obtain ⟨here, leads, s₁, keeps, cell, mapped⟩ := chosen_spec chosen s below within owned
  dsimp only at done
  rw [Jump.on_write] at done
  rcases placing : j.place.on m₁ with ⟨e | covered, m₂⟩ <;> rw [placing] at done
  · cases (Prod.mk.inj done).1
  obtain ⟨same, rfl⟩ := Prod.mk.inj done
  obtain rfl := Except.ok.inj same
  have started : ∀ i < j.size, m₀.memory.isMapped (source + i) = true := fun i hi =>
    mapped i hi (here ▸ (Jump.mapped_of_place s₁.regular placing).2.2 i hi)
  obtain ⟨rfl, holds⟩ := Holds.of_place quiet here leads word s₁
    (fun i hi => keeps.owned _ (owned i hi)) (fun c hc => (cell c hc).1) started
    (fun x _ h => ⟨keeps.mapped x h, fun _ => keeps.bytes x h⟩) placing
  exact holds _ fun _ => Memory.peek_congr fun i hi => keeps.bytes _ (started i hi)

/-! ## Writing another jump over it -/

/-- A jump without a cell touches nothing but its own code. -/
theorem touches_bare {j : Jump} {x : Nat} (bare : j.cell? = none) (touches : j.Touches x) :
    j.source ≤ x ∧ x < j.source + j.size := by
  rcases touches with own | ⟨c, hc, _⟩
  · exact own
  · rw [bare] at hc
    cases hc

theorem freeCell_bare {j : Jump} (bare : j.cell? = none) (m : Machine) : m.freeCell j = m := by
  simp only [Machine.freeCell, bare]

section Overwriting

variable {m₁ : Machine} {live₁ : Set Block} {j : Jump} {old : Nat} {limit : Option Nat}

/-- A longer jump has the code that it covers in its backup: behind the old jump, that code was
still there. -/
theorem Holds.longer_backup (h : Holds source n quiet m₀ m live p old) (bare : p.jump.cell? = none)
    (keeps : m.Extends m₁) (grows : p.jump.size ≤ j.size)
    (started : ∀ i < j.size, m₀.memory.isMapped (source + i) = true)
    (all : ∀ i < j.size, source + i ∈ quiet) :
    p.backup ++ (m₁.memory.peek source j.size).drop p.backup.length =
      m₀.memory.peek source j.size := by
  have backup := (h.code fun i hi => all i (Nat.lt_of_lt_of_le hi grows)).2
  have rest : m₁.memory.peek (source + p.jump.size) (j.size - p.jump.size) =
      m₀.memory.peek (source + p.jump.size) (j.size - p.jump.size) := by
    refine Memory.peek_congr fun i hi => ?_
    rw [Nat.add_assoc]
    have hi' : p.jump.size + i < j.size := by omega
    refine (h.frame_later keeps (all _ hi') (started _ hi')).2 fun touches => ?_
    have := (touches_bare bare touches).2
    rw [h.here] at this
    omega
  rw [backup, Memory.length_peek, Memory.drop_peek _ _ grows, rest, ← Memory.peek_add,
    Nat.add_sub_of_le grows]

/-- A jump that was written over the old one holds. -/
theorem Holds.overwritten {covered : List UInt8} (h : Holds source n quiet m₀ m live p old)
    (bare : p.jump.cell? = none) (keeps : m.Extends m₁) (s₁ : m₁.Sound live₁)
    (here : j.source = source) (leads : j.target = target) (word : target < wordCount)
    (grows : p.jump.size ≤ j.size) (cell : ∀ c, j.cell? = some c → Serves source live₁ c)
    (started : ∀ i < j.size, m₀.memory.isMapped (source + i) = true)
    (done : j.place.on m₁ = (.ok covered, m')) :
    Holds source n quiet m₀ m' live₁
      ⟨j, p.backup ++ covered.drop p.backup.length, p.applied⟩ target := by
  have touches (x : Nat) (out : ¬ j.Touches x) : ¬ p.jump.Touches x := fun touches => by
    obtain ⟨low, high⟩ := touches_bare bare touches
    rw [h.here] at low high
    exact out (Or.inl ⟨here ▸ low, by rw [here]; omega⟩)
  obtain ⟨rfl, holds⟩ := Holds.of_place quiet here leads word s₁
    (fun i hi => keeps.owned _ (h.owned i hi)) cell started
    (fun x hx mapped => ⟨(h.frame_later keeps hx mapped).1, fun out =>
      (h.frame_later keeps hx mapped).2 (touches x out)⟩) done
  rw [h.applied]
  exact holds _ fun all => h.longer_backup bare keeps grows started all

/-- A jump that could not be written over the old one has left it as it was. -/
theorem Holds.not_overwritten {e : Fault} (h : Holds source n quiet m₀ m live p old)
    (keeps : m.Extends m₁) (s₁ : m₁.Sound live₁) (here : j.source = source) (mapped : j.size ≤ n)
    (cell : ∀ c, j.cell? = some c → Serves source live₁ c ∧ ∃ bytes, j.bytes = .ok bytes)
    (same : j.cell? = none → live₁ = live) (failed : j.place.on m₁ = (.error e, m')) :
    Holds source n quiet m₀ (m'.freeCell j) live p old := by
  rcases some : j.cell? with _ | c
  · obtain ⟨memory, rfl, places, bytes⟩ := Jump.place_error s₁.regular failed
    rw [freeCell_bare some]
    have mapped (x : Nat) : memory.isMapped x = m₁.memory.isMapped x :=
      Memory.isMapped_congr places x
    exact h.mono (same some ▸ s₁.withMemory places) (keeps.trans (.of_pages rfl
      (fun x hx => (mapped x).trans hx)
      (fun x _ => bytes x fun c hc => (by cases some.symm.trans hc))
      fun x _ => Jump.place_guards s₁.regular failed x))
  · -- The cell is near and the code is mapped, so nothing could fail.
    obtain ⟨_, bytes, encoded⟩ := cell c some
    subst here
    obtain ⟨_, placed, _⟩ := Jump.place_ok s₁.regular encoded
      (fun i hi => (keeps.owned _ (h.owned i (Nat.lt_of_lt_of_le hi mapped))).1)
      (Serves.beside fun c hc => (cell c hc).1)
    cases placed.symm.trans failed

/-- A rewritten jump holds, and one that could not be rewritten is still there. -/
theorem Holds.overwrite (h : Holds source n quiet m₀ m live p old) (bare : p.jump.cell? = none)
    (owned₀ : ∀ i < n, m₀.Owned (source + i)) (keeps : m.Extends m₁) (s₁ : m₁.Sound live₁)
    (here : j.source = source) (leads : j.target = target) (word : target < wordCount)
    (within : limit.getD JumpForm.absolute.size ≤ n) (grows : p.jump.size ≤ j.size)
    (cell : ∀ c, j.cell? = some c → Serves source live₁ c ∧
      Jump.fits limit j.size = true ∧ ∃ bytes, j.bytes = .ok bytes)
    (same : j.cell? = none → live₁ = live) :
    (p.overwrite j limit).Ends m₁
      (fun p' m' => p'.jump = j ∧ Holds source n quiet m₀ m' live₁ p' target)
      (fun m' => Holds source n quiet m₀ m' live p old) := by
  apply overwrite_rule
  · intro long
    have none : j.cell? = none := by
      rcases some : j.cell? with _ | c
      · rfl
      · cases long.symm.trans (cell c some).2.1
    rw [freeCell_bare none]
    exact h.mono (same none ▸ s₁) keeps
  · intro fit
    have size : j.size ≤ n := by
      refine le_trans (le_of_fits fit ?_) within
      unfold Jump.size JumpForm.size
      split <;> decide
    have started : ∀ i < j.size, m₀.memory.isMapped (source + i) = true := fun i hi =>
      (owned₀ i (Nat.lt_of_lt_of_le hi size)).1
    rcases placing : j.place.on m₁ with ⟨result, m'⟩
    refine .of_on placing (fun covered ok => ?_) fun e error => ?_
    · subst ok
      exact ⟨rfl, h.overwritten bare keeps s₁ here leads word grows (fun c hc => (cell c hc).1)
        started placing⟩
    · subst error
      exact h.not_overwritten keeps s₁ here size (fun c hc => ⟨(cell c hc).1, (cell c hc).2.2⟩)
        same placing

end Overwriting

/-! ## Pointing it elsewhere -/

/-- A cell is filled again, and the code stays as it is. -/
theorem Holds.fill {old : Nat} {c : Block} (h : Holds source n quiet m₀ m live p old)
    (form : p.jump.form = .throughCell c) (word : target < wordCount) :
    Holds source n quiet m₀ (m.writeWord c.base target) live
      { p with jump := ⟨p.jump.source, target, .throughCell c⟩ } target := by
  obtain ⟨⟨start, goal, _⟩, backup, applied⟩ := p
  dsimp only at form
  subst form
  obtain ⟨serves, _⟩ := h.cell c rfl
  have outside (x : Nat) (out : ¬ (c.base ≤ x ∧ x < c.base + 8)) :
      (m.writeWord c.base target).memory.bytes x = m.memory.bytes x := by
    refine Memory.bytes_write_outside _ _ _ _ ?_
    rw [length_leBytes]
    omega
  refine ⟨h.applied, h.here, rfl, word, h.sound.withMemory rfl,
    fun i hi => (Machine.owned_withMemory rfl _).mpr (h.owned i hi), fun d hd => ?_,
    h.started, fun x hx mapped => ?_, fun all => ?_⟩
  · obtain rfl : c = d := Option.some.inj hd
    exact ⟨serves, (Memory.word_writeWord _ _ _).trans (Nat.mod_eq_of_lt word)⟩
  · obtain ⟨mapped', same⟩ := h.frame x hx mapped
    refine ⟨mapped', fun out => (outside x fun within => ?_).trans (same out)⟩
    exact out (Or.inr ⟨c, rfl, within⟩)
  · obtain ⟨bytes, backup⟩ := h.code all
    refine ⟨bytes.trans (congrArg Except.ok ?_), backup⟩
    refine (Memory.peek_congr fun i hi => outside _ fun within => ?_).symm
    have size := serves.size
    exact serves.apart i hi ⟨within.1, by omega⟩

/-- A patch that was pointed elsewhere holds, and one that refuses is still there. -/
theorem Holds.retarget {old : Nat} {limit : Option Nat}
    (h : Holds source n quiet m₀ m live p old) (below : source + 6 < wordCount)
    (owned₀ : ∀ i < n, m₀.Owned (source + i)) (word : target < wordCount)
    (within : limit.getD JumpForm.absolute.size ≤ n) :
    (p.retarget target limit).Ends m
      (fun p' m' => Holds source n quiet m₀ m' (live ∪ p'.cells) p' target)
      (fun m' => Holds source n quiet m₀ m' live p old) := by
  -- A jump without a cell is written over, which may take a cell.
  have overwritten (bare : p.jump.cell? = none) {j : Jump} {m₁ : Machine}
      (s₁ : m₁.Sound (withCell live j)) (keeps : m.Extends m₁) (here : j.source = source)
      (leads : j.target = target) (grows : p.jump.size ≤ j.size)
      (cell : ∀ c, j.cell? = some c → Serves source (withCell live j) c ∧
        Jump.fits limit j.size = true ∧ ∃ bytes, j.bytes = .ok bytes) :
      (p.overwrite j limit).Ends m₁
        (fun p' m' => Holds source n quiet m₀ m' (live ∪ p'.cells) p' target)
        (fun m' => Holds source n quiet m₀ m' live p old) := by
    have none (none : j.cell? = none) : withCell live j = live := by simp [withCell, none]
    apply (h.overwrite bare owned₀ keeps s₁ here leads word within grows cell none).mono _
      fun _ h => h
    rintro p' m' ⟨rfl, holds⟩
    exact holds
  apply retarget_rule fun gone => (gone h.applied).elim
  · intro c form
    have hc : p.jump.cell? = some c := by simp only [Jump.cell?, form]
    have kept : live ∪ p.cells = live :=
      Set.union_eq_left.mpr fun d hd => (h.cell d hd).1.live
    have filled := h.fill form word
    rw [← form] at filled
    exact kept.symm ▸ filled
  · intro bare _
    have bare' : ({ p.jump with target } : Jump).cell? = none := bare
    have live' : withCell live { p.jump with target } = live := by simp [withCell, bare']
    refine overwritten bare (live'.symm ▸ h.sound) (.of_arena rfl) h.here rfl (Nat.le_refl _)
      fun c hc => ?_
    cases bare'.symm.trans hc
  · intro form _
    have bare : p.jump.cell? = none := by simp only [Jump.cell?, form]
    have five : p.jump.size = 5 := by simp only [Jump.size, form, JumpForm.size]
    rw [h.here]
    apply (Jump.choose_chosen h.sound).mono
    · rintro j m₁ ⟨_, chosen⟩
      obtain ⟨here, leads, s₁, keeps, cell, _⟩ := chosen_spec chosen h.sound below within h.owned
      exact overwritten bare s₁ keeps here leads (five ▸ j.five_le_size) cell
    · rintro _ rfl
      exact h

/-! ## Whole runs -/

theorem Holds.others {live' : Set Block} (h : Holds source n quiet m₀ m live p target)
    (u : Undisturbed source n quiet p m m' live') :
    Holds source n quiet m₀ m' live' p target := by
  have mapped (c : Block) (hc : p.jump.cell? = some c) (x : Nat) (has : c.Has x) :
      m.memory.isMapped x = true := (h.sound.owned (h.cell c hc).1.live has).1
  have has (c : Block) (hc : p.jump.cell? = some c) (i : Nat) (hi : i < 8) :
      c.Has (c.base + i) := ⟨by omega, by have := (h.cell c hc).1.size; omega⟩
  refine ⟨h.applied, h.here, h.leads, h.word, u.sound, u.owned, fun c hc => ?_, h.started,
    fun x hx mapped₀ => ?_, fun all => ?_⟩
  · obtain ⟨serves, word⟩ := h.cell c hc
    refine ⟨⟨u.cells hc, serves.size, serves.word, serves.apart⟩, ?_⟩
    refine (Memory.word_congr fun i hi => ?_).trans word
    exact (u.kept _ (Or.inr ⟨c, hc, has c hc i hi⟩) (mapped c hc _ (has c hc i hi))).2
  · obtain ⟨there, same⟩ := h.frame x hx mapped₀
    obtain ⟨there', same'⟩ := u.kept x (Or.inl hx) there
    exact ⟨there', fun out => same'.trans (same out)⟩
  · obtain ⟨bytes, backup⟩ := h.code all
    refine ⟨bytes.trans (congrArg Except.ok (Memory.peek_congr fun i hi => ?_).symm), backup⟩
    exact (u.kept _ (Or.inl (all i hi)) (h.frame _ (all i hi) (h.started i hi)).1).2

theorem Run.holds (sound : m₀.Sound live₀) (below : source + 6 < wordCount)
    (owned : ∀ i < n, m₀.Owned (source + i)) (run : Run source n quiet m₀ live₀ m live p target) :
    Holds source n quiet m₀ m live p target := by
  induction run with
  | applied word within done => exact Holds.of_apply sound below owned word within done
  | accepted _ word within done ih =>
    have holds := Op.of_accepted (ih.retarget below owned word within) done
    exact holds
  | refused _ word within done ih =>
    have holds := Op.of_refused (ih.retarget below owned word within) done
    exact holds
  | others _ undisturbed ih => exact ih.others undisturbed

/-- Undoing a patch over mapped code works, and it puts the backup back. -/
theorem undo_ok (g : m.memory.Regular) (applied : p.applied = true) (some : 0 < p.backup.length)
    (mapped : ∀ i < p.backup.length, m.memory.isMapped (p.jump.source + i) = true) :
    ∃ memory, p.undo.on m = (.ok { p with applied := false }, m.withMemory memory) ∧
      memory.peek p.jump.source p.backup.length = p.backup ∧
      ∀ x, x < p.jump.source ∨ p.jump.source + p.backup.length ≤ x →
        memory.bytes x = m.memory.bytes x := by
  obtain ⟨memory, patched, _, bytes⟩ := Memory.patch_ok g .executable p.jump.source p.backup 0
    fun i hi => mapped i (by omega)
  refine ⟨memory, ?_, ?_, fun x out => ?_⟩
  · rw [undo, if_pos applied, Op.on_bind, Jump.on_patchCode, patched]
    rfl
  · exact (Memory.peek_congr fun i _ => congrFun bytes _).trans (Memory.peek_write _ _ _)
  · rw [bytes, Memory.bytes_write_outside _ _ _ _ out]

/-- While a patch is applied, the bytes at its source are a jump in its form, and it leads to
the target that was accepted last. Its backup is the code that stood there at first; beside the
jump and its cell, nothing that others leave alone has changed; and undoing the patch puts the
code back. -/
theorem a_patch_leads_to_its_last_target (sound : m₀.Sound live₀)
    (below : source + 6 < wordCount) (owned : ∀ i < n, m₀.Owned (source + i))
    (run : Run source n quiet m₀ live₀ m live p target) :
    p.jump.source = source ∧ p.jump.target = target ∧
      (∀ x ∈ quiet, m₀.memory.isMapped x = true → ¬ p.jump.Touches x →
        m.memory.isMapped x = true ∧ m.memory.bytes x = m₀.memory.bytes x) ∧
      ((∀ i < p.jump.size, source + i ∈ quiet) →
        m.memory.writtenJump? source = some p.jump.written ∧
        m.memory.jumpDestination? source = some target ∧
        p.backup = m₀.memory.peek source p.jump.size ∧
        ∃ memory, p.undo.on m = (.ok { p with applied := false }, m.withMemory memory) ∧
          memory.peek source p.jump.size = m₀.memory.peek source p.jump.size ∧
          ∀ x, x < source ∨ source + p.jump.size ≤ x → memory.bytes x = m.memory.bytes x) := by
  have h := run.holds sound below owned
  refine ⟨h.here, h.leads, fun x hx mapped out =>
    ⟨(h.frame x hx mapped).1, (h.frame x hx mapped).2 out⟩, fun all => ?_⟩
  obtain ⟨encoded, backup⟩ := h.code all
  obtain rfl := h.here
  obtain rfl := h.leads
  have written := Jump.writtenJump?_of_bytes encoded rfl (fun _ => below) h.word fun c hc => by
    have := (h.cell c hc).1.word
    unfold maxWord at this
    omega
  have leads : m.memory.jumpDestination? p.jump.source = some p.jump.target := by
    rw [Memory.jumpDestination?, written, Option.map_some,
      Jump.destination_written encoded h.word fun c hc => (h.cell c hc).2]
  have size : p.backup.length = p.jump.size := by rw [backup, Memory.length_peek]
  obtain ⟨memory, undone, back, beside⟩ := undo_ok h.sound.regular h.applied
    (by rw [size]; unfold Jump.size JumpForm.size; split <;> decide)
    (fun i hi => by
      rw [size] at hi
      exact (h.frame _ (all i hi) (h.started i hi)).1)
  rw [size] at back beside
  exact ⟨written, leads, backup, memory, undone, back.trans backup, beside⟩

/-- A process with one page of code, and nothing from the arena yet. -/
def onePage : Machine :=
  { arena := { source := { memory := ({} : Memory).map 4096 .readExecute none, next := 8192 } } }

/-- A jump from the page is pointed elsewhere once. -/
theorem a_jump_from_one_page_leads : ∃ (m : Machine) (p : JumpPatch),
    p.jump = ⟨4096, 12288, .relative⟩ ∧ m.memory.jumpDestination? 4096 = some 12288 ∧
      p.backup = onePage.memory.peek 4096 5 := by
  have regular : onePage.memory.Regular := ⟨by decide, by decide⟩
  have sound : onePage.Sound ∅ := .fresh rfl regular (by decide)
  have owned : ∀ i < 14, onePage.Owned (4096 + i) := fun i hi =>
    ⟨regular.isMapped_of_mem (b := 4096) (by decide) (by omega)
      (by unfold pageSize; omega), fun ⟨_, mp, _⟩ => by cases mp⟩
  have applied : (apply 4096 8192 none).on onePage =
      (.ok ⟨⟨4096, 8192, .relative⟩, [0, 0, 0, 0, 0], true⟩,
        ((apply 4096 8192 none).on onePage).2) := Prod.ext rfl rfl
  have pointed (m : Machine) (hm : m = ((apply 4096 8192 none).on onePage).2) :
      (retarget ⟨⟨4096, 8192, .relative⟩, [0, 0, 0, 0, 0], true⟩ 12288 none).on m =
        (.ok ⟨⟨4096, 12288, .relative⟩, [0, 0, 0, 0, 0], true⟩,
          ((retarget ⟨⟨4096, 8192, .relative⟩, [0, 0, 0, 0, 0], true⟩ 12288 none).on m).2) := by
    subst hm
    exact Prod.ext rfl rfl
  have run : Run 4096 14 Set.univ onePage ∅ _ _ _ 12288 :=
    .accepted (.applied (by decide) (by decide) applied) (by decide) (by decide) (pointed _ rfl)
  obtain ⟨_, _, _, code⟩ := a_patch_leads_to_its_last_target sound (by decide) owned run
  obtain ⟨_, leads, backup, _⟩ := code fun _ _ => Set.mem_univ _
  exact ⟨_, _, rfl, leads, backup⟩

end JumpPatch

end Detouring
