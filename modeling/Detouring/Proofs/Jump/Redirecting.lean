-- What it takes to redirect code, and what that does to the blocks that a user holds. Planning
-- takes a pointer cell and an alternate entry and changes no code; carrying the plan out
-- changes the bytes of the jump; a failure gives everything back.
import Detouring.Jump.Redirection
import Detouring.Proofs.Jump.Choosing
import Detouring.Proofs.Memory.Holdings

namespace Detouring

open Machine

variable {m m' : Machine} {K L : List Block} {source target : Nat} {room : Option Nat} {j : Jump}

/-! ## Alternate entries -/

namespace AlternateEntry

theorem allocate_ends (h : m.Holds K) (entry size : Nat) (near : Bool) :
    (allocate entry size near).Ends m (fun b m' => Gains K [b] m m') (Gains K [] m) := by
  unfold allocate
  split
  · apply (h.allocateNear (windowAround entry) ⟨size, 1, true⟩).mono
    · exact fun _ _ gained => gained.1
    · exact fun _ same => same
  · apply (h.allocate ⟨size, 1, true⟩).mono
    · exact fun _ _ gained => gained.1
    · exact fun _ same => same

/-- However often a place proves too small, in the end one block was taken or none. -/
theorem settle_ends (h : m.Holds K) (entry : Nat) (items : List Relocation.Movable) (near : Bool)
    (attempts estimate : Nat) :
    (settle entry items near attempts estimate).Ends m (fun b m' => Gains K [b] m m')
      (Gains K [] m) := by
  induction attempts generalizing m estimate with
  | zero =>
    apply Op.Ends.throw
    exact .refl h
  | succ attempts ih =>
    apply Op.Ends.bind
    apply (allocate_ends h entry estimate near).mono _ fun _ h => h
    intro b m₁ gained
    have returned : Gains K [] m (m₁.free b) := gained.trans gained.holds.free
    split
    · apply Op.Ends.bind
      apply Op.Ends.change
      apply Op.Ends.throw
      exact returned
    · rename_i code _
      split
      · rename_i fits
        have inside : 0 + code.length ≤ b.size := by rwa [Nat.zero_add]
        apply Op.Ends.bind
        apply Op.Ends.cleaning
        apply (gained.holds.writeBlock inside).mono _ fun _ h => h
        rintro ⟨⟩ m₂ ⟨written, _⟩
        apply Op.Ends.pure
        exact gained.trans written
      · apply Op.Ends.bind
        apply Op.Ends.change
        apply (ih returned.holds code.length).mono
        · exact fun _ _ more => returned.trans more
        · exact fun _ more => returned.trans more

theorem build_ends (h : m.Holds K) (entry count : Nat) :
    (build entry count).Ends m (fun b m' => Gains K [b] m m') (Gains K [] m) := by
  apply Op.Ends.bind
  apply Op.Ends.get
  apply Op.Ends.bind
  apply Op.Ends.lift _ fun _ _ => .refl h
  intro instructions _
  apply Op.Ends.bind
  apply Op.Ends.lift _ fun _ _ => .refl h
  intro items _
  exact settle_ends h entry items _ 4 _

end AlternateEntry

/-! ## Jumps -/

namespace Machine

theorem freeCell_eq (m : Machine) (j : Jump) : m.freeCell j = m.freeAll j.cell?.toList := by
  unfold freeCell
  split <;> rename_i cell <;> rw [cell] <;> rfl

theorem Holds.freeCell (h : m.Holds (j.cell?.toList ++ K)) : Gains K [] m (m.freeCell j) := by
  rw [freeCell_eq]
  exact h.freeAll

end Machine

/-- Room for every jump, in code of others. -/
def Machine.Code (m : Machine) (address : Nat) : Prop :=
  ∀ i < JumpForm.absolute.size, m.Foreign (address + i)

theorem Machine.code_of_page {page address : Nat} (aligned : page % pageSize = 0)
    (mapped : page ∈ m.memory.places) (others : ∀ p ∈ m.arena.pages, p.base ≠ page)
    (low : page ≤ address) (high : address + JumpForm.absolute.size ≤ page + pageSize) :
    m.Code address :=
  fun _ _ => foreign_of_page aligned mapped others (by omega) (by omega)

namespace Jump

theorem size_le (j : Jump) : j.size ≤ JumpForm.absolute.size := by
  unfold Jump.size JumpForm.size
  split <;> decide

theorem five_le_size (j : Jump) : 5 ≤ j.size := by
  unfold Jump.size JumpForm.size
  split <;> decide

theorem size_pos (j : Jump) : 0 < j.size := Nat.lt_of_lt_of_le (by decide) j.five_le_size

theorem choose_ends (h : m.Holds K) (source target : Nat) (room : Option Nat) :
    (choose source target room).Ends m
      (fun j m' => Gains K j.cell?.toList m m' ∧ j.source = source ∧ j.target = target ∧
        ∀ c, j.cell? = some c → c.size = 8) (Gains K [] m) := by
  obtain ⟨live, s, held⟩ := h.sound
  apply (choose_chosen s).mono
  · rintro j m' ⟨_, chosen⟩
    cases chosen with
    | relative => exact ⟨.refl h, rfl, rfl, fun _ hc => by cases hc⟩
    | throughCell _ hands =>
      refine ⟨.of_hands held h hands, rfl, rfl, fun c hc => ?_⟩
      obtain rfl := Option.some.inj hc
      exact hands.size
    | absolute sound keeps =>
      exact ⟨.of_extends keeps h ⟨h.nodup, live, sound, held⟩, rfl, rfl,
        fun _ hc => by cases hc⟩
  · rintro _ rfl
    exact .refl h

/-- A byte of another block that is held is beside the cell of the jump. -/
theorem beside_cell (h : m.Holds (j.cell?.toList ++ L)) (size : ∀ c, j.cell? = some c → c.size = 8)
    {b : Block} (mb : b ∈ L) {x : Nat} (has : b.Has x) {c : Block} (hc : j.cell? = some c) :
    x < c.base ∨ c.base + 8 ≤ x := by
  have mc : c ∈ j.cell?.toList := by rw [hc]; exact List.mem_singleton_self c
  have other : b ≠ c := fun same =>
    (List.nodup_append.mp h.nodup).2.2 c mc b mb same.symm
  have out := h.apart (List.mem_append_right _ mb) (List.mem_append_left _ mc) other has
  have := size c hc
  unfold Block.Has at out
  omega

end Jump

/-! ## Patches -/

/-- The code under a jump is kept in its backup, and beside it no code of others has changed. -/
structure JumpPatch.Covers (p : JumpPatch) (m m' : Machine) : Prop where
  backup : p.backup = m.memory.peek p.jump.source p.jump.size
  beside : ∀ x, m.Foreign x → x < p.jump.source ∨ p.jump.source + p.jump.size ≤ x →
    m'.memory.bytes x = m.memory.bytes x

/-- What was done to other memory before does not matter. -/
theorem JumpPatch.Covers.since {p : JumpPatch} {m₁ : Machine} (h : p.Covers m₁ m')
    (foreign : ∀ x, m.Foreign x → m₁.Foreign x)
    (code : ∀ x, m.Foreign x → m₁.memory.bytes x = m.memory.bytes x)
    (covered : ∀ i < p.jump.size, m.Foreign (p.jump.source + i)) : p.Covers m m' := by
  refine ⟨h.backup.trans (Memory.peek_congr fun i hi => code _ (covered i hi)), fun x f out => ?_⟩
  exact (h.beside x (foreign x f) out).trans (code x f)

/-- What there is when the jump of the patch is taken off. -/
def JumpPatch.beneath (p : JumpPatch) (bytes : Nat → UInt8) (x : Nat) : UInt8 :=
  if p.jump.source ≤ x then (p.backup[x - p.jump.source]?).getD (bytes x) else bytes x

/-- Taken off, the jump leaves the code as it was. -/
theorem JumpPatch.Covers.beneath {p : JumpPatch} (h : p.Covers m m') {x : Nat} (f : m.Foreign x) :
    p.beneath m'.memory.bytes x = m.memory.bytes x := by
  have length : p.backup.length = p.jump.size := by rw [h.backup, Memory.length_peek]
  unfold JumpPatch.beneath
  split
  · by_cases within : x - p.jump.source < p.jump.size
    · have kept : p.backup[x - p.jump.source]? =
          some (m.memory.bytes (p.jump.source + (x - p.jump.source))) := by
        simp [h.backup, Memory.peek, within]
      rw [kept, Nat.add_sub_of_le ‹_›]
      rfl
    · rw [List.getElem?_eq_none (by omega)]
      exact h.beside x f (Or.inr (by omega))
  · exact h.beside x f (Or.inl (by omega))

/-- What is placed over code of others stands there, and the blocks that are held are spared. If it
cannot be placed, at most its cell has changed. -/
theorem Jump.place_ends (h : m.Holds (j.cell?.toList ++ L))
    (size : ∀ c, j.cell? = some c → c.size = 8) :
    j.place.Ends m
      (fun covered m' => covered.length = j.size ∧
        ((∀ i < j.size, m.Foreign (j.source + i)) →
          m'.Holds (j.cell?.toList ++ L) ∧ Spares L m m' ∧ j.Stands m'.memory ∧
            covered = m.memory.peek j.source j.size ∧
            ∀ x, m.Foreign x → x < j.source ∨ j.source + j.size ≤ x →
              m'.memory.bytes x = m.memory.bytes x))
      (Gains L j.cell?.toList m) := by
  rcases placing : j.place.on m with ⟨e | covered, m₁⟩ <;>
    refine Op.Ends.of_on placing (fun _ ok => ?_) fun _ error => ?_
  · cases ok
  · have guards := Jump.place_guards h.regular placing
    obtain ⟨memory, rfl, places, bytes⟩ := Jump.place_error h.regular placing
    refine ⟨⟨fun b mb x has => ?_, fun x f => ?_, fun x _ => guards x⟩, h.withMemory places,
      fun x f => ?_⟩
    · exact bytes x fun c hc => Jump.beside_cell h size mb has hc
    · exact (foreign_withMemory places x).mpr f
    · refine bytes x fun c hc => ?_
      by_contra within
      have mc : c ∈ j.cell?.toList ++ L := by rw [hc]; exact List.mem_cons_self
      exact h.not_foreign mc ⟨by omega, by have := size c hc; omega⟩ f
  · obtain rfl := Except.ok.inj ok
    obtain ⟨⟨bytes, encoded⟩, length, mapped⟩ := Jump.mapped_of_place h.regular placing
    have apart (foreign : ∀ i < j.size, m.Foreign (j.source + i)) (c : Block)
        (hc : j.cell? = some c) (x : Nat) (low : j.source ≤ x) (high : x < j.source + j.size) :
        x < c.base ∨ c.base + 8 ≤ x := by
      by_contra within
      have mc : c ∈ j.cell?.toList ++ L := by rw [hc]; exact List.mem_cons_self
      have f := foreign (x - j.source) (by omega)
      rw [Nat.add_sub_of_le low] at f
      exact h.not_foreign mc ⟨by omega, by have := size c hc; omega⟩ f
    refine ⟨length, fun foreign => ?_⟩
    have guards := Jump.place_guards h.regular placing
    obtain ⟨memory, placed, places, stands, outside⟩ :=
      Jump.place_ok h.regular encoded mapped (apart foreign)
    obtain ⟨same, rfl⟩ := Prod.mk.inj (placed.symm.trans placing)
    refine ⟨h.withMemory places, ⟨fun b mb x has => outside x ?_, fun x f => ?_,
      fun x _ => guards x⟩, stands,
      (Except.ok.inj same).symm, fun x f out => outside x ?_⟩
    · rintro (⟨low, high⟩ | ⟨c, hc, low, high⟩)
      · have f := foreign (x - j.source) (by omega)
        rw [Nat.add_sub_of_le low] at f
        exact h.not_foreign (List.mem_append_right _ mb) has f
      · have := Jump.beside_cell h size mb has hc
        omega
    · exact (foreign_withMemory places x).mpr f
    · rintro (⟨low, high⟩ | ⟨c, hc, low, high⟩)
      · omega
      · have mc : c ∈ j.cell?.toList ++ L := by rw [hc]; exact List.mem_cons_self
        exact h.not_foreign mc ⟨low, by have := size c hc; omega⟩ f
  · cases error

namespace JumpPatch

/-- Writing a jump is placing it, and giving back its cell if that fails. -/
theorem placed_rule {act : Op Machine JumpPatch} {f : List UInt8 → JumpPatch}
    (run : act.on m = match j.place.on m with
      | (.ok covered, m') => (.ok (f covered), m')
      | (.error e, m') => (.error e, m'.freeCell j))
    {Q : JumpPatch → Machine → Prop} {E : Machine → Prop}
    (h : j.place.Ends m (fun covered m' => Q (f covered) m') fun m' => E (m'.freeCell j)) :
    act.Ends m Q E := by
  rcases h.run with ⟨covered, ok, done⟩ | ⟨e, error, failed⟩ <;>
    rcases placing : j.place.on m with ⟨result, m'⟩ <;> rw [placing] at run
  · rw [placing] at ok done
    obtain rfl : result = .ok covered := ok
    refine Op.Ends.of_on run (fun _ ok => ?_) fun _ error => (by cases error)
    exact Except.ok.inj ok ▸ done
  · rw [placing] at error failed
    obtain rfl : result = .error e := error
    exact Op.Ends.of_on run (fun _ ok => (by cases ok)) fun _ _ => failed

/-- What is written over code of others stands there, and the blocks that are held are spared. -/
theorem write_ends (h : m.Holds (j.cell?.toList ++ L))
    (size : ∀ c, j.cell? = some c → c.size = 8) :
    (write j).Ends m
      (fun p m' => p.jump = j ∧ p.applied = true ∧ p.backup.length = j.size ∧
        ((∀ i < j.size, m.Foreign (j.source + i)) →
          m'.Holds (j.cell?.toList ++ L) ∧ Spares L m m' ∧ j.Stands m'.memory ∧ p.Covers m m'))
      (Gains L [] m) := by
  apply placed_rule (Jump.on_write j m)
  apply (Jump.place_ends h size).mono
  · rintro covered m' ⟨length, placed⟩
    refine ⟨rfl, rfl, length, fun foreign => ?_⟩
    obtain ⟨holds, spares, stands, replaced, beside⟩ := placed foreign
    exact ⟨holds, spares, stands, replaced, beside⟩
  · exact fun m' kept => kept.trans kept.holds.freeCell

/-- A jump is written over another unless it is too long, and its cell is given back if that
fails. -/
theorem overwrite_rule {p : JumpPatch} {limit : Option Nat} {Q : JumpPatch → Machine → Prop}
    {E : Machine → Prop} (long : Jump.fits limit j.size = false → E (m.freeCell j))
    (fit : Jump.fits limit j.size = true → j.place.Ends m
      (fun covered m' => Q ⟨j, p.backup ++ covered.drop p.backup.length, p.applied⟩ m')
      fun m' => E (m'.freeCell j)) :
    (p.overwrite j limit).Ends m Q E := by
  rcases fits : Jump.fits limit j.size with _ | _
  · unfold overwrite
    apply Op.Ends.cleaning
    rw [fits, if_pos (by decide)]
    exact Op.Ends.throw (long fits)
  · exact placed_rule (Jump.on_overwrite p j limit m fits) (fit fits)

/-- A patch is pointed elsewhere by filling its cell, or by writing over its jump: the same jump
again with another target, or one that is chosen because a short one does not get there. -/
theorem retarget_rule {p : JumpPatch} {limit : Option Nat} {Q : JumpPatch → Machine → Prop}
    {E : Machine → Prop} (gone : p.applied ≠ true → E m)
    (fill : ∀ c, p.jump.form = .throughCell c →
      Q { p with jump := { p.jump with target } } (m.writeWord c.base target))
    (again : p.jump.cell? = none →
      (p.jump.form = .relative → reaches p.jump.source 5 target = true) →
        (p.overwrite { p.jump with target } limit).Ends m Q E)
    (anew : p.jump.form = .relative → reaches p.jump.source 5 target = false →
      (Jump.choose p.jump.source target limit).Ends m
        (fun j m₁ => (p.overwrite j limit).Ends m₁ Q E) E) :
    (p.retarget target limit).Ends m Q E := by
  unfold retarget
  split <;> rename_i applied
  · apply Op.Ends.bind
    unfold Jump.redirect
    rcases form : p.jump.form with _ | c | _
    · have bare : p.jump.cell? = none := by simp only [Jump.cell?, form]
      have five : p.jump.size = 5 := by simp only [Jump.size, form, JumpForm.size]
      dsimp only
      rw [five]
      by_cases near : reaches p.jump.source 5 target = true
      · rw [if_pos near]
        exact Op.Ends.pure (form ▸ again bare fun _ => near)
      · rw [if_neg near]
        exact Op.Ends.map (anew form (by simpa using near))
    · apply Op.Ends.bind
      apply Op.Ends.change
      exact Op.Ends.pure (Op.Ends.pure (form ▸ fill c form))
    · have bare : p.jump.cell? = none := by simp only [Jump.cell?, form]
      exact Op.Ends.pure (form ▸ again bare fun short => (by cases form.symm.trans short))
  · exact Op.Ends.throw (gone applied)

end JumpPatch

/-! ## Plans -/

/-- Replaced code can always be called: the settings ask for alternate entries, and the
architecture has them. -/
def Architecture.keepsCode (a : Architecture) (settings : Settings) : Bool :=
  settings.alternateEntries && a.flags.has ArchitectureFlag.alternateEntries

namespace RedirectionPlan

variable {a : Architecture} {settings : Settings} {p : RedirectionPlan}

/-- The blocks that the plan has taken. -/
def blocks (p : RedirectionPlan) : List Block := p.alternate.toList ++ p.jump.cell?.toList

/-- A plan to lead from one place to another. -/
structure Leads (p : RedirectionPlan) (source target : Nat) : Prop where
  source : p.jump.source = source
  target : p.jump.target = target
  cell : ∀ c, p.jump.cell? = some c → c.size = 8

theorem alternateFor_ends (h : m.Holds K) (j : Jump) :
    (alternateFor a settings j).Ends m
      (fun b m' => Gains K b.toList m m' ∧ (a.keepsCode settings = true → b.isSome))
      (Gains K [] m) := by
  unfold alternateFor Architecture.alternateEntry
  split
  · rename_i none
    apply Op.Ends.pure
    refine ⟨.refl h, fun keeps => ?_⟩
    have entries := ((Bool.and_eq_true _ _).mp keeps).1
    rw [entries] at none
    cases none
  · split
    · apply Op.Ends.map
      split
      · apply (AlternateEntry.build_ends h j.source j.size).mono
        · exact fun _ _ gained => ⟨gained, fun _ => rfl⟩
        · exact fun _ same => same
      · apply Op.Ends.throw
        exact .refl h
    · rename_i none
      apply Op.Ends.bind
      apply Op.Ends.change
      apply Op.Ends.pure
      refine ⟨.of_arena h rfl, fun keeps => ?_⟩
      exact absurd ((Bool.and_eq_true _ _).mp keeps).2 none

theorem make_ends (h : m.Holds K) (a : Architecture) (settings : Settings) (source target : Nat)
    (room : Option Nat) :
    (make a settings source target room).Ends m
      (fun p m' => Gains K p.blocks m m' ∧ p.Leads source target ∧
        (a.keepsCode settings = true → p.alternate.isSome)) (Gains K [] m) := by
  apply Op.Ends.bind
  apply (Jump.choose_ends h source target room).mono _ fun _ same => same
  rintro j m₁ ⟨gained, here, leads, size⟩
  apply Op.Ends.bind
  apply Op.Ends.cleaning
  apply (alternateFor_ends gained.holds j).mono
  · rintro b m₂ ⟨more, callable⟩
    apply Op.Ends.pure
    exact ⟨gained.trans more.below, ⟨here, leads, size⟩, callable⟩
  · intro m₂ same
    exact gained.trans (same.below.trans same.holds.freeCell)

end RedirectionPlan

/-! ## Redirections -/

namespace Redirection

variable {a : Architecture} {settings : Settings} {r : Redirection}

/-- The blocks that the redirection has. -/
def blocks (r : Redirection) : List Block := r.alternate.toList ++ r.patch.jump.cell?.toList

/-- Code that was kept callable can be entered. -/
theorem exists_entry (callable : r.alternate.isSome) : ∃ entry, r.entry? = some entry := by
  obtain ⟨alternate, there⟩ := Option.isSome_iff_exists.mp callable
  unfold entry?
  rw [there]
  exact ⟨alternate.base, rfl⟩

/-- The redirection has written over code of others, and has kept what stood there. -/
structure Laid (r : Redirection) (m : Machine) : Prop where
  applied : r.patch.applied = true
  cell : ∀ c, r.patch.jump.cell? = some c → c.size = 8
  backup : r.patch.backup.length = r.patch.jump.size
  foreign : ∀ i < r.patch.jump.size, m.Foreign (r.source + i)

/-- The redirection is in force: its jump stands in code of others. -/
structure Stands (r : Redirection) (m : Machine) : Prop extends Laid r m where
  jump : r.patch.jump.Stands m.memory

/-- The jump stays as long as the code under it and its cell do. -/
theorem Stands.congr (h : r.Stands m)
    (code : ∀ i < r.patch.jump.size, m'.Foreign (r.source + i) ∧
      m'.memory.bytes (r.source + i) = m.memory.bytes (r.source + i))
    (blocks : ∀ b ∈ r.blocks, ∀ x, b.Has x → m'.memory.bytes x = m.memory.bytes x) :
    r.Stands m' := by
  refine ⟨⟨h.applied, h.cell, h.backup, fun i hi => (code i hi).1⟩, ?_, fun c hc => ?_⟩
  · have same : m'.memory.peek r.source r.patch.jump.size = m.memory.peek r.source _ :=
      Memory.peek_congr fun i hi => (code i hi).2
    exact h.jump.bytes.trans (congrArg Except.ok same.symm)
  · have mc : c ∈ r.blocks := by
      unfold Redirection.blocks
      rw [hc]
      exact List.mem_append_right _ (List.mem_singleton_self c)
    have size := h.cell c hc
    refine (Memory.word_congr fun i hi => ?_).trans (h.jump.cell c hc)
    exact blocks c mc _ ⟨by omega, by omega⟩

theorem Stands.gains {new : List Block} (h : r.Stands m) (gains : Gains K new m m')
    (held : ∀ b ∈ r.blocks, b ∈ K) : r.Stands m' :=
  h.congr (fun i hi => ⟨gains.foreign _ (h.foreign i hi), gains.code _ (h.foreign i hi)⟩)
    fun b mb => gains.blocks b (held b mb)

/-- The jump of a redirection leads to its target. -/
theorem Stands.jumpDestination? (h : r.Stands m)
    (mapped : ∀ b ∈ r.blocks, ∀ x, b.Has x → m.memory.isMapped x = true)
    (words : ∀ b ∈ m.memory.places, b + pageSize ≤ wordCount) (target : r.target < wordCount) :
    m.memory.jumpDestination? r.source = some r.target := by
  have cell (c : Block) (hc : r.patch.jump.cell? = some c) : c.base < wordCount := by
    have mc : c ∈ r.blocks := by
      unfold Redirection.blocks
      rw [hc]
      exact List.mem_append_right _ (List.mem_singleton_self c)
    have size := h.cell c hc
    exact Memory.lt_wordCount_of_mapped words (mapped c mc c.base ⟨Nat.le_refl _, by omega⟩)
  have source (form : r.patch.jump.form = .absolute) : r.patch.jump.source + 6 < wordCount := by
    refine Memory.lt_wordCount_of_mapped words (h.foreign 6 ?_).1
    unfold Jump.size
    rw [form]
    decide
  have written := Jump.writtenJump?_of_bytes h.jump.bytes rfl source target cell
  have leads := Jump.destination_written h.jump.bytes target fun c hc =>
    (h.jump.cell c hc).trans (Nat.mod_eq_of_lt target)
  unfold Memory.jumpDestination?
  rw [show m.memory.writtenJump? r.source = _ from written, Option.map_some, leads]
  rfl

/-- What became of a plan: if the code belonged to others, the redirection is in force. -/
structure Carried (K : List Block) (source target : Nat) (m : Machine) (r : Redirection)
    (m' : Machine) : Prop where
  here : r.source = source
  leads : r.target = target
  done : (∀ i < r.patch.jump.size, m.Foreign (source + i)) →
    m'.Holds (r.blocks ++ K) ∧ Spares K m m' ∧ r.Stands m' ∧ r.patch.Covers m m'

/-- Of the machine only the arena counts. -/
theorem Carried.of_arena {m₀ : Machine} (carried : Carried K source target m r m')
    (same : m.arena = m₀.arena) : Carried K source target m₀ r m' := by
  obtain ⟨arena, log⟩ := m
  obtain ⟨arena₀, log₀⟩ := m₀
  cases same
  refine ⟨carried.here, carried.leads, fun foreign => ?_⟩
  obtain ⟨holds, ⟨blocks, stay, guards⟩, stands, ⟨backup, beside⟩⟩ := carried.done foreign
  exact ⟨holds, ⟨blocks, stay, guards⟩, stands, ⟨backup, beside⟩⟩

theorem Carried.to_arena {m₁ : Machine} (carried : Carried K source target m r m')
    (same : m₁.arena = m'.arena) : Carried K source target m r m₁ := by
  refine ⟨carried.here, carried.leads, fun foreign => ?_⟩
  obtain ⟨holds, ⟨blocks, stay, guards⟩, ⟨⟨applied, cell, backup, code⟩, jump⟩,
    ⟨covered, beside⟩⟩ := carried.done foreign
  have kept := holds.of_arena same
  obtain ⟨arena, log⟩ := m'
  obtain ⟨arena₁, log₁⟩ := m₁
  cases same
  exact ⟨kept, ⟨blocks, stay, guards⟩, ⟨⟨applied, cell, backup, code⟩, jump⟩,
    ⟨covered, beside⟩⟩

theorem ofPlan_ends {p : RedirectionPlan} (h : m.Holds (p.blocks ++ K))
    (leads : p.Leads source target) :
    (ofPlan p).Ends m (fun r m' => r.alternate = p.alternate ∧ Carried K source target m r m')
      (Gains K [] m) := by
  have rotated : m.Holds (p.jump.cell?.toList ++ (p.alternate.toList ++ K)) := by
    refine h.mono (List.Perm.subperm ?_)
    rw [RedirectionPlan.blocks, ← List.append_assoc]
    exact List.perm_append_comm.append_right K
  apply Op.Ends.cleaning
  apply Op.Ends.bind
  apply (JumpPatch.write_ends rotated leads.cell).mono
  · rintro ⟨jump, backup, applied⟩ m' ⟨rfl, applied, length, written⟩
    apply Op.Ends.pure
    refine ⟨rfl, leads.source, leads.target, fun foreign => ?_⟩
    rw [← leads.source] at foreign
    obtain ⟨holds, spares, stands, covers⟩ := written foreign
    refine ⟨holds.mono (List.Perm.subperm ?_), spares.mono (List.subset_append_right _ _),
      ⟨⟨applied, leads.cell, length, fun i hi => spares.foreign _ (foreign i hi)⟩, stands⟩, covers⟩
    rw [blocks, ← List.append_assoc]
    exact List.perm_append_comm.append_right K
  · intro m' same
    have freed : Gains K [] m' (m'.freeAll p.alternate.toList) := Holds.freeAll same.holds
    exact (same.below.mono (List.nil_sublist _)).trans freed

/-- What was gained on the way to a plan does not matter to what comes of it. -/
theorem Carried.since {m₁ : Machine} {new : List Block}
    (carried : Carried K source target m₁ r m') (gained : Gains K new m m₁) :
    Carried K source target m r m' := by
  refine ⟨carried.here, carried.leads, fun foreign => ?_⟩
  obtain ⟨holds, spares, stands, covers⟩ :=
    carried.done fun i hi => gained.foreign _ (foreign i hi)
  refine ⟨holds, gained.toSpares.trans spares, stands,
    covers.since gained.foreign gained.code fun i hi => ?_⟩
  rw [show r.patch.jump.source = source from carried.here]
  exact foreign i hi

theorem create_ends (h : m.Holds K) (a : Architecture) (settings : Settings)
    (source target : Nat) (room : Option Nat) :
    (create a settings source target room).Ends m
      (fun r m' => Carried K source target m r m' ∧
        (a.keepsCode settings = true → r.alternate.isSome)) (Gains K [] m) := by
  apply Op.Ends.bind
  apply (RedirectionPlan.make_ends h a settings source target room).mono _ fun _ same => same
  rintro p m₁ ⟨gained, leads, callable⟩
  apply (ofPlan_ends gained.holds leads).mono
  · rintro r m₂ ⟨same, carried⟩
    exact ⟨carried.since gained, fun keeps => same ▸ callable keeps⟩
  · exact fun _ same => gained.trans same

/-- The code is written back and nothing else changes, or some of it is not mapped and nothing
happens. What is left of it has to belong to others. -/
theorem undo_within {L : List Block} (h : m.Holds L) (applied : r.patch.applied = true)
    (others : ∀ i < r.patch.backup.length, m.memory.isMapped (r.source + i) = true →
      m.Foreign (r.source + i)) :
    r.undo.Ends m (fun _ m' => m'.Holds L ∧ Spares L m m' ∧
      ∀ x, m'.memory.bytes x = r.patch.beneath m.memory.bytes x)
      (fun m' => Gains L [] m m' ∧
        ∃ i < max r.patch.backup.length 1, m.memory.isMapped (r.source + i) = false) := by
  rcases patched : m.memory.patch .executable r.patch.jump.source r.patch.backup 0 with
    ⟨result, memory⟩
  obtain ⟨places, outcome⟩ := Memory.patch_cases h.regular patched
  have guards := Memory.patch_protects h.regular patched
  have run := Jump.on_patchCode r.patch.jump.source r.patch.backup 0 m
  rw [patched] at run
  unfold undo JumpPatch.undo
  rw [if_pos applied]
  apply Op.Ends.bind
  apply Op.Ends.bind
  refine Op.Ends.of_on run (fun _ ok => ?_) fun _ error => ?_
  · apply Op.Ends.pure
    apply Op.Ends.pure
    rcases outcome with ⟨_, failed, _⟩ | ⟨mapped, _, written⟩
    · cases ok.symm.trans failed
    refine ⟨h.withMemory places, ⟨fun b mb x has => ?_, fun x f => ?_, fun x _ => guards x⟩,
      congrFun written⟩
    · refine (congrFun written x).trans (Memory.bytes_write_outside _ _ _ _ ?_)
      by_contra within
      have inside : x - r.source < r.patch.backup.length := by unfold source; omega
      have f := others _ inside (mapped _ inside)
      rw [Nat.add_sub_of_le (by unfold source; omega)] at f
      exact h.not_foreign mb has f
    · exact (foreign_withMemory places x).mpr f
  · rcases outcome with ⟨_, _, same⟩ | ⟨_, done, _⟩
    · refine ⟨⟨⟨fun _ _ x _ => congrFun same x, fun x f => (foreign_withMemory places x).mpr f,
        fun x _ => guards x⟩, h.withMemory places, fun x _ => congrFun same x⟩, ?_⟩
      by_contra mapped
      have mapped (i : Nat) (hi : i < max r.patch.backup.length 1) :
          m.memory.isMapped (r.patch.jump.source + i) = true := by
        by_contra unmapped
        rw [Bool.not_eq_true] at unmapped
        exact mapped ⟨i, hi, unmapped⟩
      obtain ⟨_, done, _⟩ := Memory.patch_ok h.regular .executable _ _ 0 mapped
      cases error.symm.trans (congrArg Prod.fst (patched.symm.trans done))
    · cases error.symm.trans done

/-- Where the jump was laid over code of others, this is written back. -/
theorem undo_ends {L : List Block} (h : m.Holds L) (laid : r.Laid m) {E : Machine → Prop} :
    r.undo.Ends m (fun _ m' => m'.Holds L ∧ Spares L m m' ∧
      ∀ x, m'.memory.bytes x = r.patch.beneath m.memory.bytes x) E := by
  have size := r.patch.jump.size_pos
  apply (undo_within h laid.applied fun i hi _ => laid.foreign i (laid.backup ▸ hi)).mono
    fun _ _ done => done
  rintro m' ⟨_, i, hi, unmapped⟩
  have inside : i < r.patch.jump.size := by
    rw [laid.backup] at hi
    omega
  cases unmapped.symm.trans (laid.foreign i inside).1

/-- Giving up the jump gives back its cell. The alternate entry is still held. -/
theorem abandon_gains (h : m.Holds (r.blocks ++ K)) :
    Gains (r.alternate.toList ++ K) [] m (r.abandon m) := by
  have rotated : m.Holds (r.patch.jump.cell?.toList ++ (r.alternate.toList ++ K)) := by
    refine h.mono (List.Perm.subperm ?_)
    rw [blocks, ← List.append_assoc]
    exact List.perm_append_comm.append_right K
  exact rotated.freeCell

theorem holds_abandon (h : m.Holds (r.blocks ++ K)) : Gains K [] m (r.abandon m) :=
  (abandon_gains h).below.mono (List.nil_sublist _)

end Redirection

end Detouring
