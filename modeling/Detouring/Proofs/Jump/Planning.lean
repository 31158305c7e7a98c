-- A plan that has an alternate entry can be carried out. The entry was built from the code that the
-- jump goes over, so that code is mapped, and it stays mapped while memory for the entry is found.
-- What is planned, carried out or taken back leaves no page of the arena empty.
import Detouring.Proofs.Jump.Reaching
import Detouring.Proofs.Jump.Turning
import Detouring.Proofs.Jump.Stubs
import Detouring.Proofs.Memory.Packed
import Detouring.Proofs.Memory.Readable

namespace Detouring

open Machine

variable {m m' m₀ : Machine} {live : Set Block} {K : List Block} {source target : Nat}
  {room : Option Nat} {j : Jump}

/-! ## Readable code -/

/-- Code that was taken apart is mapped. -/
theorem AlternateEntry.mapped_of_instructionsAt {m : Memory} (g : m.Regular) {entry count : Nat}
    {instructions : List Instruction}
    (h : instructionsAt m entry count = .ok instructions) {i : Nat} (hi : i < count) :
    m.isMapped (entry + i) = true := by
  unfold instructionsAt at h
  dsimp only at h
  split at h
  · cases h
  · rename_i readable
    obtain ⟨r, mr, there⟩ := Region.contains_of_readable m.mapRegions
      (count + Instruction.maxLength) entry i (by omega) (by omega)
    exact g.mapped_of_region mr there

/-! ## Finding memory for an entry -/

/-- The same blocks are handed out as before, no page is empty, and what was mapped still is. -/
structure Machine.Retains (live : Set Block) (m m' : Machine) : Prop where
  sound : m'.Sound live
  packed : m'.Packed
  mapped : ∀ x, m.memory.isMapped x = true → m'.memory.isMapped x = true
  foreign : ∀ x, m.Foreign x → m'.Foreign x

namespace Machine.Sound

theorem allocate_hands (s : m.Sound live) (r : BlockRequest) :
    (Machine.allocate r).Ends m (fun b m' => m.Hands live r b m')
      (fun m' => m'.Sound live ∧ m.Extends m') := by
  refine .of_on rfl (fun b ok => ?_) fun e error => ?_
  · obtain ⟨_, same, _⟩ | ⟨b', same, hands⟩ := s.allocate (r := r) (m := m) rfl
    · cases ok.symm.trans same
    · cases ok.symm.trans same
      exact hands
  · obtain ⟨_, _, s', keeps⟩ | ⟨b', same, _⟩ := s.allocate (r := r) (m := m) rfl
    · exact ⟨s', keeps⟩
    · cases error.symm.trans same

theorem allocateNear_hands (s : m.Sound live) (w : Window) (r : BlockRequest) :
    (Machine.allocateNear w r).Ends m (fun b m' => m.Hands live r b m')
      (fun m' => m'.Sound live ∧ m.Extends m') := by
  refine .of_on rfl (fun b ok => ?_) fun e error => ?_
  · obtain ⟨_, same, _⟩ | ⟨b', same, hands, _⟩ := s.allocateNear (w := w) (r := r) (m := m) rfl
    · cases ok.symm.trans same
    · cases ok.symm.trans same
      exact hands
  · obtain ⟨_, _, s', keeps, _⟩ | ⟨b', same, _⟩ :=
      s.allocateNear (w := w) (r := r) (m := m) rfl
    · exact ⟨s', keeps⟩
    · cases error.symm.trans same

end Machine.Sound

namespace AlternateEntry

theorem allocate_hands (s : m.Sound live) (packed : m.Packed) (entry size : Nat) (near : Bool) :
    (allocate entry size near).Ends m
      (fun b m' => m.Hands live ⟨size, 1, true⟩ b m' ∧ m'.Packed)
      (fun m' => (m'.Sound live ∧ m.Extends m') ∧ m'.Packed) := by
  have h : m.Holds [] := ⟨List.nodup_nil, live, s, fun _ mb => (by cases mb)⟩
  unfold allocate
  split
  · exact (s.allocateNear_hands _ _).and (packed.allocateNear h _ _)
  · exact (s.allocate_hands _).and (packed.allocate h (Nat.one_dvd _))

/-- However often a place proves too small, what was mapped stays mapped. -/
theorem settle_retains (s : m₀.Sound live) (packed : m₀.Packed) (entry : Nat)
    (items : List Relocation.Movable) (near : Bool) (attempts estimate : Nat)
    (r : Retains live m₀ m) :
    (settle entry items near attempts estimate).Ends m
      (fun _ m' => m'.Packed ∧ ∀ x, m₀.memory.isMapped x = true → m'.memory.isMapped x = true)
      Packed := by
  induction attempts generalizing m estimate with
  | zero => exact Op.Ends.throw r.packed
  | succ attempts ih =>
    apply Op.Ends.bind
    apply (allocate_hands r.sound r.packed entry estimate near).mono _ fun _ left => left.2
    rintro b m₁ ⟨hands, packed₁⟩
    have mapped₁ (x : Nat) (h : m₀.memory.isMapped x = true) : m₁.memory.isMapped x = true :=
      hands.keeps.mapped x (r.mapped x h)
    have returned : Retains live m₀ (m₁.free b) := by
      obtain ⟨s', _, _, foreign⟩ := hands.sound.free (Set.mem_insert b live)
      have foreign₁ (x : Nat) (f : m₀.Foreign x) : m₁.Foreign x :=
        hands.keeps.foreign x (r.foreign x f)
      have live' : insert b live \ {b} = live := by
        refine Set.ext fun c => ⟨fun mc => mc.1.resolve_left mc.2, fun mc => ?_⟩
        exact ⟨Set.mem_insert_of_mem b mc, fun it => hands.new (it ▸ mc)⟩
      rw [live'] at s'
      exact ⟨s', packed₁.free b, fun x h =>
        s.mapped_free packed hands.sound hands.new foreign₁ h (mapped₁ x h),
        fun x f => (foreign x (foreign₁ x f)).1⟩
    split
    · apply Op.Ends.bind
      apply Op.Ends.change
      exact Op.Ends.throw returned.packed
    · rename_i code _
      split
      · rename_i fits
        have inside : 0 + code.length ≤ b.size := by rwa [Nat.zero_add]
        have holds : m₁.Holds [b] := ⟨List.nodup_singleton b, _, hands.sound, fun c mc => by
          obtain rfl := List.mem_singleton.mp mc
          exact Set.mem_insert _ _⟩
        apply Op.Ends.bind
        apply Op.Ends.cleaning
        apply (holds.writeBlock inside).mono _ fun _ h => h
        rintro ⟨⟩ m₂ ⟨_, rfl⟩
        exact Op.Ends.pure ⟨packed₁.of_pages rfl, mapped₁⟩
      · apply Op.Ends.bind
        apply Op.Ends.change
        exact ih code.length returned

/-- An entry was built from mapped code, which is still mapped. -/
theorem build_mapped (h : m.Holds K) (packed : m.Packed) (entry count : Nat) :
    (build entry count).Ends m
      (fun _ m' => m'.Packed ∧ ∀ i < count, m'.memory.isMapped (entry + i) = true) Packed := by
  obtain ⟨live, s, _⟩ := h.sound
  apply Op.Ends.bind
  apply Op.Ends.get
  apply Op.Ends.bind
  apply Op.Ends.lift _ fun _ _ => packed
  intro instructions taken
  apply Op.Ends.bind
  apply Op.Ends.lift _ fun _ _ => packed
  intro items _
  apply (settle_retains s packed entry items _ 4 _ ⟨s, packed, fun _ h => h, fun _ f => f⟩).mono _
    fun _ left => left
  rintro b m' ⟨packed', mapped⟩
  exact ⟨packed', fun i hi => mapped _ (mapped_of_instructionsAt h.regular taken hi)⟩

end AlternateEntry

/-! ## Choosing -/

namespace Machine.Packed

theorem freeCell (packed : m.Packed) (j : Jump) : (m.freeCell j).Packed := by
  rw [freeCell_eq]
  exact packed.freeAll _

end Machine.Packed

namespace Jump

theorem choose_packed (h : m.Holds K) (packed : m.Packed) (source target : Nat)
    (room : Option Nat) :
    (choose source target room).Ends m (fun _ m' => m'.Packed) Packed := by
  apply choose_rule
  · exact fun _ => packed
  · exact fun _ _ _ _ => packed
  · exact fun _ _ => (packed.allocateNear h _ _).mono (fun _ _ p => p) fun _ p _ same =>
      p.of_arena same
  · exact fun _ _ _ same => packed.of_arena same

end Jump

/-! ## Writing -/

namespace Machine.Packed

theorem encode (packed : m.Packed) (j : Jump) :
    (Machine.encode j).Ends m (fun _ m' => m'.Packed) Packed := by
  refine .of_left ?_
  rw [Jump.on_encode]
  unfold Jump.aimed
  rcases j.bytes with e | bytes
  · exact packed
  · dsimp only
    split
    · exact packed.of_pages rfl
    · exact packed

theorem patchCode (packed : m.Packed) (address : Nat) (data : List UInt8) (backup : Nat) :
    (Machine.patchCode address data backup).Ends m (fun _ m' => m'.Packed) Packed :=
  .of_left (packed.of_pages rfl)

end Machine.Packed

namespace JumpPatch

variable {p : JumpPatch}

theorem write_packed (packed : m.Packed) (j : Jump) :
    (write j).Ends m (fun _ m' => m'.Packed) Packed := by
  apply Op.Ends.cleaning
  apply Op.Ends.bind
  apply (packed.encode j).mono _ fun _ left => left.freeCell j
  intro bytes m₁ packed₁
  apply Op.Ends.bind
  apply (packed₁.patchCode j.source bytes bytes.length).mono _ fun _ left => left.freeCell j
  exact fun _ _ packed₂ => Op.Ends.pure packed₂

theorem overwrite_packed (packed : m.Packed) (p : JumpPatch) (j : Jump) (limit : Option Nat) :
    (p.overwrite j limit).Ends m (fun _ m' => m'.Packed) Packed := by
  apply Op.Ends.cleaning
  split
  · exact Op.Ends.throw (packed.freeCell j)
  · apply Op.Ends.bind
    apply (packed.encode j).mono _ fun _ left => left.freeCell j
    intro bytes m₁ packed₁
    apply Op.Ends.bind
    apply (packed₁.patchCode j.source bytes bytes.length).mono _ fun _ left => left.freeCell j
    exact fun _ _ packed₂ => Op.Ends.pure packed₂

theorem retarget_packed (h : m.Holds K) (packed : m.Packed) (p : JumpPatch) (target : Nat)
    (limit : Option Nat) : (p.retarget target limit).Ends m (fun _ m' => m'.Packed) Packed := by
  apply retarget_rule fun _ => packed
  · exact fun _ _ => packed.of_pages rfl
  · exact fun _ _ => overwrite_packed packed p _ limit
  · exact fun _ _ => (Jump.choose_packed h packed p.jump.source target limit).mono
      (fun j _ packed₁ => overwrite_packed packed₁ p j limit) fun _ left => left

theorem undo_packed (packed : m.Packed) (p : JumpPatch) :
    p.undo.Ends m (fun _ m' => m'.Packed) Packed := by
  unfold undo
  split
  · apply Op.Ends.bind
    apply (packed.patchCode p.jump.source p.backup 0).mono _ fun _ left => left
    exact fun _ _ packed₁ => Op.Ends.pure packed₁
  · exact Op.Ends.throw packed

end JumpPatch

/-! ## Plans -/

namespace RedirectionPlan

variable {a : Architecture} {settings : Settings} {p : RedirectionPlan}

/-- The jump of the plan can be written: it has its bytes, and the code under it is mapped. -/
structure Ready (p : RedirectionPlan) (m : Machine) : Prop where
  encoded : ∃ bytes, p.jump.bytes = .ok bytes
  mapped : ∀ i < p.jump.size, m.memory.isMapped (p.jump.source + i) = true

theorem Ready.withMemory (ready : p.Ready m) {memory : Memory}
    (same : memory.places = m.memory.places) : p.Ready (m.withMemory memory) :=
  ⟨ready.encoded, fun i hi => (Memory.isMapped_congr same _).trans (ready.mapped i hi)⟩

theorem alternateFor_mapped (h : m.Holds K) (packed : m.Packed) (j : Jump) :
    (alternateFor a settings j).Ends m
      (fun b m' => m'.Packed ∧
        (b.isSome → ∀ i < j.size, m'.memory.isMapped (j.source + i) = true)) Packed := by
  unfold alternateFor Architecture.alternateEntry
  split
  · exact Op.Ends.pure ⟨packed, fun there => (by cases there)⟩
  · split
    · apply Op.Ends.map
      split
      · apply (AlternateEntry.build_mapped h packed j.source j.size).mono _ fun _ left => left
        exact fun _ _ ⟨packed₁, mapped⟩ => ⟨packed₁, fun _ => mapped⟩
      · exact Op.Ends.throw packed
    · apply Op.Ends.bind
      apply Op.Ends.change
      exact Op.Ends.pure ⟨packed.of_pages rfl, fun there => (by cases there)⟩

theorem make_packed (h : m.Holds K) (packed : m.Packed) (a : Architecture) (settings : Settings)
    (source target : Nat) (room : Option Nat) :
    (make a settings source target room).Ends m (fun _ m' => m'.Packed) Packed := by
  apply Op.Ends.bind
  apply ((Jump.choose_packed h packed source target room).and
    (Jump.choose_ends h source target room)).mono _ fun _ left => left.1
  rintro j m₁ ⟨packed₁, gained, _⟩
  apply Op.Ends.bind
  apply Op.Ends.cleaning
  apply (alternateFor_mapped gained.holds packed₁ j).mono _ fun _ left => left.freeCell j
  exact fun _ _ made => Op.Ends.pure made.1

/-- Where the replaced code can be called, the jump can be written. -/
theorem make_ready (h : m.Holds K) (packed : m.Packed) (inland : source + 6 < wordCount)
    (a : Architecture) (settings : Settings) (target : Nat) (room : Option Nat) :
    (make a settings source target room).Ends m
      (fun p m' => p.alternate.isSome → p.Ready m') fun _ => True := by
  apply Op.Ends.bind
  apply ((Jump.choose_packed h packed source target room).and
    ((Jump.choose_ends h source target room).and
      (Jump.choose_supplied m))).mono _ fun _ _ => trivial
  rintro j m₁ ⟨packed₁, ⟨gained, _⟩, rfl, supplied⟩
  have encoded := (supplied.inReach fun _ _ => inland).bytes
  apply Op.Ends.bind
  apply Op.Ends.cleaning
  apply (alternateFor_mapped gained.holds packed₁ j).mono _ fun _ _ => trivial
  exact fun _ _ ⟨_, mapped⟩ => Op.Ends.pure fun there => ⟨encoded, mapped there⟩

end RedirectionPlan

/-! ## Redirections -/

namespace Redirection

variable {r : Redirection}

theorem ofPlan_packed (packed : m.Packed) (p : RedirectionPlan) :
    (ofPlan p).Ends m (fun _ m' => m'.Packed) Packed := by
  apply Op.Ends.cleaning
  apply Op.Ends.bind
  apply (JumpPatch.write_packed packed p.jump).mono _ fun _ left => left.freeAll _
  exact fun _ _ packed₁ => Op.Ends.pure packed₁

/-- A plan that is ready is carried out. -/
theorem ofPlan_ready (g : m.memory.Regular) {p : RedirectionPlan} (ready : p.Ready m) :
    (ofPlan p).Ends m (fun _ _ => True) fun _ => False := by
  obtain ⟨bytes, encoded⟩ := ready.encoded
  have length := Jump.length_bytes encoded
  have places := Jump.places_aimed p.jump m
  obtain ⟨memory, patched, _⟩ := Memory.patch_ok (g.of_places places) .executable p.jump.source
    bytes bytes.length fun i hi => (Memory.isMapped_congr places _).trans
      (ready.mapped i (by have := p.jump.size_pos; omega))
  have run := Jump.on_write p.jump m
  simp only [Jump.on_place, encoded, Jump.on_patchCode, patched] at run
  apply Op.Ends.cleaning
  apply Op.Ends.bind
  exact Op.Ends.of_on run (fun _ _ => Op.Ends.pure trivial) fun _ error => (by cases error)

theorem create_packed (h : m.Holds K) (packed : m.Packed) (a : Architecture) (settings : Settings)
    (source target : Nat) (room : Option Nat) :
    (create a settings source target room).Ends m (fun _ m' => m'.Packed) Packed := by
  apply Op.Ends.bind
  apply (RedirectionPlan.make_packed h packed a settings source target room).mono _ fun _ h => h
  exact fun p _ packed₁ => ofPlan_packed packed₁ p

theorem retarget_packed (h : m.Holds K) (packed : m.Packed) (r : Redirection) (target : Nat) :
    (r.retarget target).Ends m (fun _ m' => m'.Packed) Packed := by
  apply Op.Ends.bind
  apply (JumpPatch.retarget_packed h packed r.patch target _).mono _ fun _ left => left
  exact fun _ _ packed₁ => Op.Ends.pure packed₁

theorem undo_packed (packed : m.Packed) (r : Redirection) :
    r.undo.Ends m (fun _ m' => m'.Packed) Packed := by
  apply Op.Ends.bind
  apply (JumpPatch.undo_packed packed r.patch).mono _ fun _ left => left
  exact fun _ _ packed₁ => Op.Ends.pure packed₁

theorem abandon_packed (packed : m.Packed) (r : Redirection) : (r.abandon m).Packed :=
  packed.freeCell r.patch.jump

end Redirection

/-! ## Stubs -/

namespace Stub

/-- A new stub leads where it should. -/
theorem build_leads (h : m.Holds K) (packed : m.Packed) (target : Nat) :
    (build target).Ends m
      (fun s m' => m'.Packed ∧ s.target m' = target % wordCount) Packed := by
  apply Op.Ends.bind
  apply (packed.allocate h (Nat.dvd_of_mod_eq_zero rfl)).mono _ fun _ left => left
  intro block m₁ packed₁
  apply Op.Ends.cleaning
  split
  · exact Op.Ends.throw (packed₁.free block)
  · apply Op.Ends.bind
    have written : (Machine.writeBlock block 0 code).Ends m₁ (fun _ m' => m'.Packed) Packed := by
      refine .of_left ?_
      simp only [Machine.writeBlock, Op.on_of]
      split
      · exact packed₁
      · exact packed₁.of_pages rfl
    apply written.mono _ fun _ left => left.free block
    intro _ m₂ packed₂
    apply Op.Ends.bind
    apply Op.Ends.change
    exact Op.Ends.pure ⟨packed₂.of_pages rfl, Memory.word_writeWord _ _ _⟩

end Stub

end Detouring
